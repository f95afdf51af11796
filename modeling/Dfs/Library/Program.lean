import Mathlib.Data.List.Forall2

/-!
# Programs that make calls

Sequential client code as a tree: it returns, throws, or makes a call and goes on with the answer.
The tree leaves open who answers.  `Follows` relates a program to what is left of it after a trace
of calls and answers, which is how a process of an interleaved system is described; `run` plays a
program against one stateful server.

The two loop forms `firstSome` and `collect` are the `for` loops with a `break` on the first success
and with an early `return` on the first failure.
-/

inductive Program (C A ρ : Type) where
  | done (result : ρ)
  | throw
  | call (c : C) (next : A → Program C A ρ)

namespace Program

variable {C A ρ τ α β ε σ : Type}

def bind : Program C A ρ → (ρ → Program C A τ) → Program C A τ
  | done r, f => f r
  | throw, _ => throw
  | call c next, f => call c fun a => bind (next a) f

/-- The loop that stops at the first element on which the attempt succeeds. -/
def firstSome (attempt : α → Program C A (Option β)) : List α → Program C A (Option β)
  | [] => done none
  | x :: xs => bind (attempt x) fun
      | some b => done (some b)
      | none => firstSome attempt xs

/-- The loop that collects a result for every element and gives up at the first error. -/
def collect (attempt : α → Program C A (Except ε β)) : List α → Program C A (Except ε (List β))
  | [] => done (.ok [])
  | x :: xs => bind (attempt x) fun
      | .error e => done (.error e)
      | .ok b => bind (collect attempt xs) fun bs => done (bs.map (b :: ·))

theorem bind_assoc (p : Program C A ρ) (f : ρ → Program C A τ) (g : τ → Program C A σ) :
    (p.bind f).bind g = p.bind fun r => (f r).bind g := by
  induction p with
  | done r => rfl
  | throw => rfl
  | call c next ih => simp only [bind, ih]

/-! ## Traces -/

/-- `Follows p t q`: after the calls of `t`, answered as in `t`, the program `p` has become `q`. -/
inductive Follows (p : Program C A ρ) : List (C × A) → Program C A ρ → Prop where
  | start : Follows p [] p
  | answer {t : List (C × A)} {c : C} {next : A → Program C A ρ} (a : A) :
      Follows p t (call c next) → Follows p (t ++ [(c, a)]) (next a)

/-- The program has returned `r` after the calls of `t`. -/
def Returns (p : Program C A ρ) (t : List (C × A)) (r : ρ) : Prop :=
  Follows p t (done r)

theorem Follows.trans {p q s : Program C A ρ} {t u : List (C × A)} (h : Follows p t q)
    (h' : Follows q u s) : Follows p (t ++ u) s := by
  induction h' with
  | start => simpa using h
  | answer a _ ih =>
      rw [← List.append_assoc]
      exact .answer a ih

theorem follows_nil {p q : Program C A ρ} (h : Follows p [] q) : q = p := by
  generalize ht : ([] : List (C × A)) = t at h
  cases h with
  | start => rfl
  | answer a _ => simp at ht

theorem follows_done {r : ρ} {t : List (C × A)} {q : Program C A ρ} :
    Follows (done r) t q ↔ t = [] ∧ q = done r := by
  constructor
  · intro h
    induction h with
    | start => exact ⟨rfl, rfl⟩
    | answer a _ ih => cases ih.2
  · rintro ⟨rfl, rfl⟩
    exact .start

theorem follows_throw {t : List (C × A)} {q : Program C A ρ} :
    Follows throw t q ↔ t = [] ∧ q = throw := by
  constructor
  · intro h
    induction h with
    | start => exact ⟨rfl, rfl⟩
    | answer a _ ih => cases ih.2
  · rintro ⟨rfl, rfl⟩
    exact .start

theorem follows_call {c : C} {next : A → Program C A ρ} {t : List (C × A)}
    {q : Program C A ρ} :
    Follows (call c next) t q ↔
      t = [] ∧ q = call c next ∨ ∃ a u, t = (c, a) :: u ∧ Follows (next a) u q := by
  constructor
  · intro h
    induction h with
    | start => exact Or.inl ⟨rfl, rfl⟩
    | answer a h ih =>
        rcases ih with ⟨rfl, heq⟩ | ⟨b, u, rfl, hu⟩
        · cases heq
          exact Or.inr ⟨a, [], rfl, .start⟩
        · exact Or.inr ⟨b, u ++ [_], rfl, .answer a hu⟩
  · rintro (⟨rfl, rfl⟩ | ⟨a, u, rfl, hu⟩)
    · exact .start
    · exact Follows.trans (t := [(c, a)]) (.answer (t := []) a .start) hu

/-- What is left of a sequence: what is left of its first part, or, once that has returned, of
its second. -/
theorem follows_bind {p : Program C A ρ} {f : ρ → Program C A τ} {t : List (C × A)}
    {q : Program C A τ} (h : Follows (p.bind f) t q) :
    (∃ p', Follows p t p' ∧ q = p'.bind f) ∨
      ∃ r t₁ t₂, t = t₁ ++ t₂ ∧ Returns p t₁ r ∧ Follows (f r) t₂ q := by
  induction h with
  | start => exact Or.inl ⟨p, .start, rfl⟩
  | @answer t c next a h ih =>
      rcases ih with ⟨p', hp', heq⟩ | ⟨r, t₁, t₂, rfl, hr, hf⟩
      · cases p' with
        | done r =>
            -- The first part returned without a further call: this call is the first of the second.
            have hcall : call c next = f r := heq
            refine Or.inr ⟨r, t, [(c, a)], rfl, hp', ?_⟩
            rw [← hcall]
            exact .answer (t := []) a .start
        | throw => cases heq
        | call c' next' =>
            cases heq
            exact Or.inl ⟨next' a, .answer a hp', rfl⟩
      · exact Or.inr ⟨r, t₁, t₂ ++ [(c, a)], by simp, hr, .answer a hf⟩

theorem returns_bind {p : Program C A ρ} {f : ρ → Program C A τ} {t : List (C × A)} {b : τ} :
    Returns (p.bind f) t b ↔
      ∃ r t₁ t₂, t = t₁ ++ t₂ ∧ Returns p t₁ r ∧ Returns (f r) t₂ b := by
  constructor
  · intro h
    rcases follows_bind h with ⟨p', hp', heq⟩ | h
    · cases p' with
      | done r => exact ⟨r, t, [], by simp, hp', by simpa [Returns, heq, bind] using .start⟩
      | throw => cases heq
      | call c next => cases heq
    · exact h
  · rintro ⟨r, t₁, t₂, rfl, hr, hf⟩
    have hlift : ∀ {u q}, Follows p u q → Follows (p.bind f) u (q.bind f) := by
      intro u q hu
      induction hu with
      | start => exact .start
      | answer a _ ih => exact .answer a ih
    exact (hlift hr).trans hf

@[simp] theorem returns_done {r b : ρ} {t : List (C × A)} :
    Returns (done r) t b ↔ t = [] ∧ b = r := by
  simp [Returns, follows_done]

@[simp] theorem not_returns_throw {b : ρ} {t : List (C × A)} :
    ¬ Returns (throw : Program C A ρ) t b := by
  simp [Returns, follows_throw]

theorem returns_call {c : C} {next : A → Program C A ρ} {t : List (C × A)} {b : ρ} :
    Returns (call c next) t b ↔ ∃ a u, t = (c, a) :: u ∧ Returns (next a) u b := by
  simp [Returns, follows_call]

/-! ## The loops -/

theorem returns_firstSome_cons {attempt : α → Program C A (Option β)} {x : α} {xs : List α}
    {t : List (C × A)} {r : Option β} :
    Returns (firstSome attempt (x :: xs)) t r ↔
      (∃ b, Returns (attempt x) t (some b) ∧ r = some b) ∨
        ∃ t₁ t₂, t = t₁ ++ t₂ ∧ Returns (attempt x) t₁ none ∧
          Returns (firstSome attempt xs) t₂ r := by
  rw [firstSome, returns_bind]
  constructor
  · rintro ⟨_ | b, t₁, t₂, rfl, hx, hrest⟩
    · exact Or.inr ⟨t₁, t₂, rfl, hx, hrest⟩
    · rcases returns_done.1 hrest with ⟨rfl, rfl⟩
      exact Or.inl ⟨b, by simpa using hx, rfl⟩
  · rintro (⟨b, hx, rfl⟩ | ⟨t₁, t₂, rfl, hx, hrest⟩)
    · exact ⟨some b, t, [], by simp, hx, by simp⟩
    · exact ⟨none, t₁, t₂, rfl, hx, hrest⟩

/-- A loop that succeeds does so at one element, after failing at all elements before it. -/
theorem returns_firstSome_some {attempt : α → Program C A (Option β)} {xs : List α}
    {t : List (C × A)} {b : β} (h : Returns (firstSome attempt xs) t (some b)) :
    ∃ pre x post t₁ t₂, xs = pre ++ x :: post ∧ t = t₁ ++ t₂ ∧
      Returns (firstSome attempt pre) t₁ none ∧ Returns (attempt x) t₂ (some b) := by
  induction xs generalizing t with
  | nil => simp [firstSome] at h
  | cons x xs ih =>
      rcases returns_firstSome_cons.1 h with ⟨b', hx, hb⟩ | ⟨t₁, t₂, rfl, hx, hrest⟩
      · cases hb
        exact ⟨[], x, xs, [], t, rfl, rfl, by simp [firstSome], hx⟩
      · rcases ih hrest with ⟨pre, y, post, u₁, u₂, rfl, rfl, hpre, hy⟩
        exact ⟨x :: pre, y, post, t₁ ++ u₁, u₂, rfl, by simp,
          returns_firstSome_cons.2 (Or.inr ⟨t₁, u₁, rfl, hx, hpre⟩), hy⟩

/-- A loop that fails has failed at every element. -/
theorem returns_firstSome_none {attempt : α → Program C A (Option β)} {xs : List α}
    {t : List (C × A)} (h : Returns (firstSome attempt xs) t none) {x : α} (hx : x ∈ xs) :
    ∃ t₁ t₂ t₃, t = t₁ ++ t₂ ++ t₃ ∧ Returns (attempt x) t₂ none := by
  induction xs generalizing t with
  | nil => simp at hx
  | cons y xs ih =>
      rcases returns_firstSome_cons.1 h with ⟨b, _, hb⟩ | ⟨u₁, u₂, rfl, hy, hrest⟩
      · cases hb
      · rcases List.mem_cons.1 hx with rfl | hx
        · exact ⟨[], u₁, u₂, by simp, hy⟩
        · rcases ih hrest hx with ⟨t₁, t₂, t₃, rfl, hx⟩
          exact ⟨u₁ ++ t₁, t₂, t₃, by simp, hx⟩

theorem returns_collect_cons {attempt : α → Program C A (Except ε β)} {x : α} {xs : List α}
    {t : List (C × A)} {bs : List β} :
    Returns (collect attempt (x :: xs)) t (.ok bs) ↔
      ∃ b bs' t₁ t₂, t = t₁ ++ t₂ ∧ bs = b :: bs' ∧ Returns (attempt x) t₁ (.ok b) ∧
        Returns (collect attempt xs) t₂ (.ok bs') := by
  rw [collect, returns_bind]
  constructor
  · rintro ⟨e | b, t₁, t₂, rfl, hx, hrest⟩
    · simp at hrest
    · rcases returns_bind.1 hrest with ⟨e | bs', u₁, u₂, rfl, hxs, hdone⟩
      · simp [Except.map] at hdone
      · simp only [Except.map, returns_done, Except.ok.injEq] at hdone
        rcases hdone with ⟨rfl, rfl⟩
        exact ⟨b, bs', t₁, u₁, by simp, rfl, hx, hxs⟩
  · rintro ⟨b, bs', t₁, t₂, rfl, rfl, hx, hxs⟩
    refine ⟨.ok b, t₁, t₂, rfl, hx, ?_⟩
    exact returns_bind.2 ⟨.ok bs', t₂, [], by simp, hxs, by simp [Except.map]⟩

/-- A complete collection has one result per element, obtained in a stretch of the trace. -/
theorem returns_collect_ok {attempt : α → Program C A (Except ε β)} {xs : List α}
    {t : List (C × A)} {bs : List β} (h : Returns (collect attempt xs) t (.ok bs)) :
    List.Forall₂ (fun x b => ∃ t₁ t₂ t₃, t = t₁ ++ t₂ ++ t₃ ∧ Returns (attempt x) t₂ (.ok b))
      xs bs := by
  induction xs generalizing t bs with
  | nil =>
      simp only [collect, returns_done, Except.ok.injEq] at h
      rw [h.2]
      exact .nil
  | cons x xs ih =>
      rcases returns_collect_cons.1 h with ⟨b, bs', u₁, u₂, rfl, rfl, hx, hxs⟩
      refine .cons ⟨[], u₁, u₂, by simp, hx⟩ ((ih hxs).imp ?_)
      rintro y b' ⟨t₁, t₂, t₃, rfl, hy⟩
      exact ⟨u₁ ++ t₁, t₂, t₃, by simp, hy⟩

/-! ## Programs end -/

/-- What a program can become when its call is answered. -/
inductive After : Program C A ρ → Program C A ρ → Prop where
  | answer (c : C) (next : A → Program C A ρ) (a : A) : After (next a) (call c next)

/-- However its calls are answered, a program makes only finitely many. -/
theorem after_wf : WellFounded (After : Program C A ρ → Program C A ρ → Prop) := by
  refine ⟨fun p => ?_⟩
  induction p with
  | done r => exact ⟨_, fun q h => by cases h⟩
  | throw => exact ⟨_, fun q h => by cases h⟩
  | call c next ih =>
      refine ⟨_, fun q h => ?_⟩
      cases h with
      | answer _ _ a => exact ih a

/-! ## Kinds of calls -/

/-- Every call that the program can ever make satisfies `S`. -/
def Calls (S : C → Prop) : Program C A ρ → Prop
  | done _ => True
  | throw => True
  | call c next => S c ∧ ∀ a, (next a).Calls S

theorem Calls.imp {S S' : C → Prop} {p : Program C A ρ} (hp : p.Calls S)
    (h : ∀ c, S c → S' c) : p.Calls S' := by
  induction p with
  | done r => trivial
  | throw => trivial
  | call c next ih => exact ⟨h c hp.1, fun a => ih a (hp.2 a)⟩

theorem Calls.bind {S : C → Prop} {p : Program C A ρ} {f : ρ → Program C A τ} (hp : p.Calls S)
    (hf : ∀ r, (f r).Calls S) : (p.bind f).Calls S := by
  induction p with
  | done r => exact hf r
  | throw => trivial
  | call c next ih => exact ⟨hp.1, fun a => ih a (hp.2 a)⟩

theorem Calls.firstSome {S : C → Prop} {attempt : α → Program C A (Option β)} {xs : List α}
    (h : ∀ x ∈ xs, (attempt x).Calls S) : (firstSome attempt xs).Calls S := by
  induction xs with
  | nil => trivial
  | cons x xs ih =>
      refine (h x (by simp)).bind ?_
      intro r
      cases r with
      | none => exact ih fun y hy => h y (by simp [hy])
      | some b => trivial

theorem Calls.collect {S : C → Prop} {attempt : α → Program C A (Except ε β)} {xs : List α}
    (h : ∀ x ∈ xs, (attempt x).Calls S) : (collect attempt xs).Calls S := by
  induction xs with
  | nil => trivial
  | cons x xs ih =>
      refine (h x (by simp)).bind ?_
      intro r
      cases r with
      | error e => trivial
      | ok b => exact (ih fun y hy => h y (by simp [hy])).bind fun _ => trivial

theorem Follows.calls {S : C → Prop} {p q : Program C A ρ} {t : List (C × A)}
    (h : Follows p t q) (hp : p.Calls S) : q.Calls S ∧ ∀ e ∈ t, S e.1 := by
  induction h with
  | start => exact ⟨hp, by simp⟩
  | answer a _ ih =>
      refine ⟨ih.1.2 a, ?_⟩
      intro e he
      rcases List.mem_append.1 he with he | he
      · exact ih.2 e he
      · rw [List.mem_singleton.1 he]
        exact ih.1.1

/-- Every call that the program can ever make satisfies `S`, and every result `R`. -/
def Ensures (S : C → Prop) (R : ρ → Prop) : Program C A ρ → Prop
  | done r => R r
  | throw => True
  | call c next => S c ∧ ∀ a, (next a).Ensures S R

theorem Ensures.calls {S : C → Prop} {R : ρ → Prop} {p : Program C A ρ} (h : p.Ensures S R) :
    p.Calls S := by
  induction p with
  | done r => trivial
  | throw => trivial
  | call c next ih => exact ⟨h.1, fun a => ih a (h.2 a)⟩

theorem Calls.ensures {S : C → Prop} {p : Program C A ρ} (h : p.Calls S) :
    p.Ensures S fun _ => True := by
  induction p with
  | done r => trivial
  | throw => trivial
  | call c next ih => exact ⟨h.1, fun a => ih a (h.2 a)⟩

theorem Ensures.bind {S : C → Prop} {R : ρ → Prop} {R' : τ → Prop} {p : Program C A ρ}
    {f : ρ → Program C A τ} (hp : p.Ensures S R) (hf : ∀ r, R r → (f r).Ensures S R') :
    (p.bind f).Ensures S R' := by
  induction p with
  | done r => exact hf r hp
  | throw => trivial
  | call c next ih => exact ⟨hp.1, fun a => ih a (hp.2 a)⟩

theorem Ensures.firstSome {S : C → Prop} {R : β → Prop} {attempt : α → Program C A (Option β)}
    {xs : List α} (h : ∀ x ∈ xs, (attempt x).Ensures S fun r => ∀ b, r = some b → R b) :
    (firstSome attempt xs).Ensures S fun r => ∀ b, r = some b → R b := by
  induction xs with
  | nil => intro b hb; cases hb
  | cons x xs ih =>
      refine (h x (by simp)).bind ?_
      intro r hr
      cases r with
      | none => exact ih fun y hy => h y (by simp [hy])
      | some b => exact hr

theorem Follows.ensures {S : C → Prop} {R : ρ → Prop} {p q : Program C A ρ} {t : List (C × A)}
    (h : Follows p t q) (hp : p.Ensures S R) : q.Ensures S R := by
  induction h with
  | start => exact hp
  | answer a _ ih => exact ih.2 a

/-! ## Answers that can be relied on -/

/-- As long as the answers satisfy `V`, the program does not throw, and its result satisfies `R`. -/
def Yields (V : C → A → Prop) (R : ρ → Prop) : Program C A ρ → Prop
  | done r => R r
  | throw => False
  | call c next => ∀ a, V c a → (next a).Yields V R

theorem Yields.imp {V : C → A → Prop} {R R' : ρ → Prop} {p : Program C A ρ} (hp : p.Yields V R)
    (h : ∀ r, R r → R' r) : p.Yields V R' := by
  induction p with
  | done r => exact h r hp
  | throw => cases hp
  | call c next ih => exact fun a ha => ih a (hp a ha)

theorem Yields.bind {V : C → A → Prop} {R : ρ → Prop} {R' : τ → Prop} {p : Program C A ρ}
    {f : ρ → Program C A τ} (hp : p.Yields V R) (hf : ∀ r, R r → (f r).Yields V R') :
    (p.bind f).Yields V R' := by
  induction p with
  | done r => exact hf r hp
  | throw => cases hp
  | call c next ih => exact fun a ha => ih a (hp a ha)

theorem Yields.collect {V : C → A → Prop} {B : α → β → Prop}
    {attempt : α → Program C A (Except ε β)} {xs : List α}
    (h : ∀ x ∈ xs, (attempt x).Yields V fun r => ∃ b, r = .ok b ∧ B x b) :
    (collect attempt xs).Yields V fun r => ∃ bs, r = .ok bs ∧ List.Forall₂ B xs bs := by
  induction xs with
  | nil => exact ⟨[], rfl, .nil⟩
  | cons x xs ih =>
      refine (h x (by simp)).bind ?_
      rintro r ⟨b, rfl, hb⟩
      refine (ih fun y hy => h y (by simp [hy])).bind ?_
      rintro r ⟨bs, rfl, hbs⟩
      exact ⟨b :: bs, rfl, .cons hb hbs⟩

/-- A loop finds something if one of its attempts does. -/
theorem Yields.firstSome {V : C → A → Prop} {R : β → Prop}
    {attempt : α → Program C A (Option β)} {xs : List α}
    (h : ∀ x ∈ xs, (attempt x).Yields V fun r => ∀ b, r = some b → R b)
    (hone : ∃ x ∈ xs, (attempt x).Yields V fun r => ∃ b, r = some b ∧ R b) :
    (firstSome attempt xs).Yields V fun r => ∃ b, r = some b ∧ R b := by
  induction xs with
  | nil => simp at hone
  | cons x xs ih =>
      rcases hone with ⟨y, hy, hyields⟩
      rcases List.mem_cons.1 hy with rfl | hy
      · refine hyields.bind ?_
        rintro r ⟨b, rfl, hb⟩
        exact ⟨b, rfl, hb⟩
      · refine (h x (by simp)).bind ?_
        intro r hr
        cases r with
        | none => exact ih (fun z hz => h z (by simp [hz])) ⟨y, hy, hyields⟩
        | some b => exact ⟨b, rfl, hr b rfl⟩

theorem Follows.yields {V : C → A → Prop} {R : ρ → Prop} {p q : Program C A ρ}
    {t : List (C × A)} (h : Follows p t q) (hp : p.Yields V R) (ht : ∀ e ∈ t, V e.1 e.2) :
    q.Yields V R := by
  induction h with
  | start => exact hp
  | @answer t c next a _ ih =>
      exact ih (fun e he => ht e (by simp [he])) a (ht (c, a) (by simp))

/-! ## Runs against one server -/

/-- Play the program against a server that answers each call and moves on: the calls with their
answers, the result (`none` when it throws), and the server at the end. -/
def run (serve : σ → C → A × σ) : Program C A ρ → σ → List (C × A) × Option ρ × σ
  | done r, s => ([], some r, s)
  | throw, s => ([], none, s)
  | call c next, s =>
      let (a, s') := serve s c
      let (t, r, s'') := run serve (next a) s'
      ((c, a) :: t, r, s'')

theorem run_bind (serve : σ → C → A × σ) (p : Program C A ρ) (f : ρ → Program C A τ) (s : σ) :
    (p.bind f).run serve s =
      match (p.run serve s).2.1 with
      | none => ((p.run serve s).1, none, (p.run serve s).2.2)
      | some r =>
          ((p.run serve s).1 ++ ((f r).run serve (p.run serve s).2.2).1,
            ((f r).run serve (p.run serve s).2.2).2) := by
  induction p generalizing s with
  | done r => rfl
  | throw => rfl
  | call c next ih =>
      simp only [bind, run, ih]
      cases ((next (serve s c).1).run serve (serve s c).2).2.1 <;> simp

/-- What every call of a kind preserves, of the trace so far and the server, a whole run
preserves. -/
theorem run_invariant {serve : σ → C → A × σ} {S : C → Prop} {I : List (C × A) → σ → Prop}
    (hstep : ∀ t s c, S c → I t s → I (t ++ [(c, (serve s c).1)]) (serve s c).2)
    {p : Program C A ρ} (hp : p.Calls S) {t : List (C × A)} {s : σ} (h : I t s) :
    I (t ++ (p.run serve s).1) (p.run serve s).2.2 := by
  induction p generalizing t s with
  | done r => simpa [run] using h
  | throw => simpa [run] using h
  | call c next ih => simpa [run] using ih _ (hp.2 _) (hstep t s c hp.1 h)

/-- Servers that agree on the calls of a program play it the same way. -/
theorem run_congr {serve serve' : σ → C → A × σ} {S : C → Prop}
    (hserve : ∀ s c, S c → serve s c = serve' s c) {p : Program C A ρ} (hp : p.Calls S) (s : σ) :
    p.run serve s = p.run serve' s := by
  induction p generalizing s with
  | done r => rfl
  | throw => rfl
  | call c next ih => simp only [run, hserve s c hp.1, ih _ (hp.2 _)]

theorem run_returns (serve : σ → C → A × σ) (p : Program C A ρ) (s : σ) {r : ρ}
    (h : (p.run serve s).2.1 = some r) : Returns p (p.run serve s).1 r := by
  induction p generalizing s with
  | done r' =>
      simp only [run, Option.some.injEq] at h
      simp [run, h]
  | throw => simp [run] at h
  | call c next ih => exact returns_call.2 ⟨_, _, rfl, ih _ _ h⟩

end Program
