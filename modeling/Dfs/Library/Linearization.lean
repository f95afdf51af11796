import Mathlib.Data.List.Nodup
import Mathlib.Data.List.Sublists

/-!
# Linearizability

Histories of calls and returns on one object, and what it means that a history agrees with a
sequential specification.  The usual proof takes effect points: `Linearizing` builds a history and
an order of its operations side by side, placing each operation between its call and its return,
and `Linearizing.linearizes` shows that the order it builds linearizes the history.
-/

namespace Linearization

/-- A sequential object. -/
structure Spec (μ Op Res : Type) where
  init : μ
  apply : μ → Op → μ × Res

inductive Event (Op Res : Type) where
  | call (id : Nat) (op : Op)
  | ret (id : Nat) (res : Res)
  deriving DecidableEq

/-- An operation with its result, as it stands in the order. -/
structure Entry (Op Res : Type) where
  id : Nat
  op : Op
  res : Res

variable {μ Op Res : Type}

def Event.id : Event Op Res → Nat
  | .call id _ => id
  | .ret id _ => id

/-- The results are those of the object, used in this order from a state on. -/
def Legal (spec : Spec μ Op Res) : μ → List (Entry Op Res) → Prop
  | _, [] => True
  | m, e :: L => e.res = (spec.apply m e.op).2 ∧ Legal spec (spec.apply m e.op).1 L

/-- The state of the object after the operations. -/
def replay (spec : Spec μ Op Res) (m : μ) (L : List (Entry Op Res)) : μ :=
  L.foldl (fun m e => (spec.apply m e.op).1) m

/-- `L` linearizes the history `H`: it contains every completed operation with its result and
otherwise only pending ones, each once; it is legal; and it keeps the order of operations that do
not overlap. -/
structure Linearizes (spec : Spec μ Op Res) (H : List (Event Op Res))
    (L : List (Entry Op Res)) : Prop where
  nodup : (L.map Entry.id).Nodup
  called : ∀ e ∈ L, Event.call e.id e.op ∈ H
  returned : ∀ id res, Event.ret id res ∈ H → ∃ e ∈ L, e.id = id ∧ e.res = res
  legal : Legal spec spec.init L
  realTime : ∀ a res b op, [Event.ret a res, Event.call b op].Sublist H →
    b ∈ L.map Entry.id → [a, b].Sublist (L.map Entry.id)

def Linearizable (spec : Spec μ Op Res) (H : List (Event Op Res)) : Prop :=
  ∃ L, Linearizes spec H L

theorem replay_concat (spec : Spec μ Op Res) (m : μ) (L : List (Entry Op Res))
    (e : Entry Op Res) : replay spec m (L ++ [e]) = (spec.apply (replay spec m L) e.op).1 := by
  simp [replay]

theorem legal_append {spec : Spec μ Op Res} {m : μ} {L : List (Entry Op Res)}
    {e : Entry Op Res} (h : Legal spec m L) (he : e.res = (spec.apply (replay spec m L) e.op).2) :
    Legal spec m (L ++ [e]) := by
  induction L generalizing m with
  | nil => exact ⟨he, trivial⟩
  | cons e' L ih => exact ⟨h.1, ih h.2 he⟩

/-- Each result is what the object gives after the operations before it. -/
theorem legal_split {spec : Spec μ Op Res} {m : μ} {L₁ L₂ : List (Entry Op Res)}
    {e : Entry Op Res} (h : Legal spec m (L₁ ++ e :: L₂)) :
    e.res = (spec.apply (replay spec m L₁) e.op).2 := by
  induction L₁ generalizing m with
  | nil => exact h.1
  | cons e' L₁ ih => exact ih h.2

/-- An operation that has returned stands before every operation that is called later. -/
theorem Linearizes.before {spec : Spec μ Op Res} {H : List (Event Op Res)}
    {L L₁ L₂ : List (Entry Op Res)} {e e' : Entry Op Res} {res : Res} {op : Op}
    (h : Linearizes spec H L) (hL : L = L₁ ++ e :: L₂) (he' : e' ∈ L)
    (hsub : [Event.ret e'.id res, Event.call e.id op].Sublist H) : e' ∈ L₁ := by
  have hids : [e'.id, e.id].Sublist (L.map Entry.id) :=
    h.realTime e'.id res e.id op hsub (hL ▸ List.mem_map_of_mem (by simp))
  have hnodup := h.nodup
  subst hL
  rw [List.map_append, List.map_cons] at hids hnodup
  by_contra hout
  -- Otherwise the later operation would stand twice in the order.
  have hmem : e.id ∈ L₂.map Entry.id := by
    rcases List.sublist_append_iff.1 hids with ⟨l₁, l₂, heq, h₁, h₂⟩
    cases l₁ with
    | nil =>
        rw [List.nil_append] at heq
        subst heq
        rcases List.sublist_cons_iff.1 h₂ with hlater | ⟨r, heq, hlater⟩
        · exact hlater.subset (by simp)
        · simp only [List.cons.injEq] at heq
          rw [← heq.2] at hlater
          exact hlater.subset (by simp)
    | cons a l₁ =>
        simp only [List.cons_append, List.cons.injEq] at heq
        have hfirst : e'.id ∈ L₁.map Entry.id := h₁.subset (by simp [heq.1])
        rcases List.mem_map.1 hfirst with ⟨e'', he'', hid⟩
        rcases List.mem_append.1 he' with hin | hin
        · exact absurd hin hout
        · have hin' : e''.id ∈ e.id :: L₂.map Entry.id := by
            rw [hid]
            exact List.mem_map_of_mem (f := Entry.id) hin
          exact absurd rfl ((List.nodup_append.1 hnodup).2.2 _ (List.mem_map_of_mem he'') _ hin')
  exact (List.nodup_cons.1 (List.nodup_append.1 hnodup).2.1).1 hmem

/-! ## Effect points -/

/-- A history and the order of effects, built step by step. -/
inductive Linearizing (spec : Spec μ Op Res) :
    List (Event Op Res) → List (Entry Op Res) → Prop where
  | start : Linearizing spec [] []
  | call {H L} (id : Nat) (op : Op) : Linearizing spec H L →
      (∀ op', Event.call id op' ∉ H) → Linearizing spec (H ++ [.call id op]) L
  | effect {H L} (id : Nat) (op : Op) : Linearizing spec H L →
      Event.call id op ∈ H → id ∉ L.map Entry.id →
      Linearizing spec H (L ++ [⟨id, op, (spec.apply (replay spec spec.init L) op).2⟩])
  | ret {H L} (e : Entry Op Res) : Linearizing spec H L →
      e ∈ L → Linearizing spec (H ++ [.ret e.id e.res]) L

theorem pair_sublist_concat {α : Type} {x y z : α} {l : List α}
    (h : [x, y].Sublist (l ++ [z])) : [x, y].Sublist l ∨ x ∈ l ∧ y = z := by
  rcases List.sublist_append_iff.1 h with ⟨l₁, l₂, heq, h₁, h₂⟩
  cases l₁ with
  | nil =>
      have hlen := h₂.length_le
      simp only [List.nil_append] at heq
      simp [← heq] at hlen
  | cons a l₁ =>
      cases l₁ with
      | nil =>
          simp only [List.cons_append, List.nil_append, List.cons.injEq] at heq
          rcases heq with ⟨rfl, rfl⟩
          have hy : y ∈ [z] := h₂.subset (by simp)
          exact Or.inr ⟨h₁.subset (by simp), List.mem_singleton.1 hy⟩
      | cons b l₁ =>
          simp only [List.cons_append, List.cons.injEq] at heq
          rcases heq with ⟨rfl, rfl, heq⟩
          have hnil : l₁ = [] := by
            have := congrArg List.length heq
            simp only [List.length_nil, List.length_append] at this
            exact List.length_eq_zero_iff.1 (by omega)
          exact Or.inl (hnil ▸ h₁)

theorem pair_sublist_append {α : Type} {x y : α} {l l' : List α} (hx : x ∈ l) (hy : y ∈ l') :
    [x, y].Sublist (l ++ l') :=
  List.Sublist.append (List.singleton_sublist.2 hx) (List.singleton_sublist.2 hy)

/-- An operation that has returned stands in the order. -/
theorem Linearizing.mem_of_ret {spec : Spec μ Op Res} {H : List (Event Op Res)}
    {L : List (Entry Op Res)} (h : Linearizing spec H L) {id : Nat} {res : Res}
    (hret : Event.ret id res ∈ H) : ∃ e ∈ L, e.id = id ∧ e.res = res := by
  induction h with
  | start => simp at hret
  | call id' op _ _ ih =>
      rcases List.mem_append.1 hret with hret | hret
      · exact ih hret
      · simp at hret
  | effect id' op _ _ _ ih =>
      rcases ih hret with ⟨e, he, hid⟩
      exact ⟨e, by simp [he], hid⟩
  | ret e _ he ih =>
      rcases List.mem_append.1 hret with hret | hret
      · exact ih hret
      · simp only [List.mem_singleton, Event.ret.injEq] at hret
        exact ⟨e, he, hret.1.symm, hret.2.symm⟩

theorem Linearizing.called {spec : Spec μ Op Res} {H : List (Event Op Res)}
    {L : List (Entry Op Res)} (h : Linearizing spec H L) {e : Entry Op Res} (he : e ∈ L) :
    Event.call e.id e.op ∈ H := by
  induction h with
  | start => simp at he
  | call id op _ _ ih => simp [ih he]
  | effect id op _ hcall _ ih =>
      rcases List.mem_append.1 he with he | he
      · exact ih he
      · rw [List.mem_singleton.1 he]
        exact hcall
  | ret e' _ _ ih => simp [ih he]

/-- The order of effects linearizes the history. -/
theorem Linearizing.linearizes {spec : Spec μ Op Res} {H : List (Event Op Res)}
    {L : List (Entry Op Res)} (h : Linearizing spec H L) : Linearizes spec H L := by
  refine ⟨?_, fun e he => h.called he, fun id res hret => h.mem_of_ret hret, ?_, ?_⟩
  · induction h with
    | start => simp
    | call _ _ _ _ ih => exact ih
    | effect id op _ _ hfresh ih =>
        rw [List.map_append]
        exact ih.append (by simp) (by simpa using hfresh)
    | ret _ _ _ ih => exact ih
  · induction h with
    | start => trivial
    | call _ _ _ _ ih => exact ih
    | effect id op _ _ _ ih => exact legal_append ih rfl
    | ret _ _ _ ih => exact ih
  · intro a ra b op hsub hb
    induction h with
    | start => simp at hb
    | call id op' hH hfresh ih =>
        rcases pair_sublist_concat hsub with hold | ⟨_, heq⟩
        · exact ih hold hb
        · -- The new call has no effect yet.
          cases heq
          rcases List.mem_map.1 hb with ⟨e, he, rfl⟩
          exact absurd (hH.called he) (hfresh e.op)
    | effect id op' hH _ _ ih =>
        rw [List.map_append, List.mem_append] at hb
        rw [List.map_append]
        rcases hb with hb | hb
        · exact (ih hsub hb).trans (List.sublist_append_left _ _)
        · have hret : Event.ret a ra ∈ _ := hsub.subset (by simp)
          rcases hH.mem_of_ret hret with ⟨e, he, rfl, _⟩
          exact pair_sublist_append (List.mem_map.2 ⟨e, he, rfl⟩) hb
    | ret e _ _ ih =>
        rcases pair_sublist_concat hsub with hold | ⟨_, heq⟩
        · exact ih hold hb
        · cases heq

/-! ## Leaving pending reads out -/

/-- Operations without effect may be left out of a legal order. -/
theorem legal_filter {spec : Spec μ Op Res} {keep : Entry Op Res → Bool} {m : μ}
    {L : List (Entry Op Res)}
    (hread : ∀ e ∈ L, keep e = false → ∀ m, (spec.apply m e.op).1 = m)
    (h : Legal spec m L) : Legal spec m (L.filter keep) := by
  induction L generalizing m with
  | nil => trivial
  | cons e L ih =>
      have htail := ih (fun e' he' => hread e' (by simp [he'])) h.2
      cases hkeep : keep e with
      | true =>
          rw [List.filter_cons_of_pos hkeep]
          exact ⟨h.1, htail⟩
      | false =>
          rw [List.filter_cons_of_neg (by simp [hkeep])]
          rwa [hread e (by simp) hkeep m] at htail

theorem replay_filter {spec : Spec μ Op Res} {keep : Entry Op Res → Bool} {m : μ}
    {L : List (Entry Op Res)}
    (hread : ∀ e ∈ L, keep e = false → ∀ m, (spec.apply m e.op).1 = m) :
    replay spec m (L.filter keep) = replay spec m L := by
  induction L generalizing m with
  | nil => rfl
  | cons e L ih =>
      have htail : ∀ m, replay spec m (L.filter keep) = replay spec m L :=
        fun m => ih fun e' he' => hread e' (by simp [he'])
      cases hkeep : keep e with
      | true =>
          rw [List.filter_cons_of_pos hkeep]
          exact htail _
      | false =>
          rw [List.filter_cons_of_neg (by simp [hkeep]), htail]
          exact congrArg (fun m => replay spec m L) (hread e (by simp) hkeep m).symm

/-- Operations that have no effect and have not returned may be left out of the history. -/
theorem Linearizes.filter {spec : Spec μ Op Res} {H : List (Event Op Res)}
    {L : List (Entry Op Res)} (h : Linearizes spec H L) (keep : Nat → Bool)
    (hread : ∀ e ∈ L, keep e.id = false → ∀ m, (spec.apply m e.op).1 = m)
    (hpending : ∀ id res, Event.ret id res ∈ H → keep id = true) :
    Linearizes spec (H.filter fun ev => keep ev.id) (L.filter fun e => keep e.id) := by
  have hmap : (L.filter fun e => keep e.id).map Entry.id = (L.map Entry.id).filter keep := by
    rw [List.filter_map]
    rfl
  refine ⟨?_, ?_, ?_, legal_filter hread h.legal, ?_⟩
  · rw [hmap]
    exact h.nodup.filter _
  · intro e he
    rcases List.mem_filter.1 he with ⟨he, hkeep⟩
    exact List.mem_filter.2 ⟨h.called e he, hkeep⟩
  · intro id res hret
    rcases List.mem_filter.1 hret with ⟨hret, hkeep⟩
    rcases h.returned id res hret with ⟨e, he, rfl, hres⟩
    exact ⟨e, List.mem_filter.2 ⟨he, hkeep⟩, rfl, hres⟩
  · intro a res b op hsub hb
    rw [hmap] at hb ⊢
    rcases List.mem_filter.1 hb with ⟨hb, hkeep⟩
    have hH := hsub.trans List.filter_sublist
    have ha : keep a = true := hpending a res (hH.subset (by simp))
    have := (h.realTime a res b op hH hb).filter keep
    simpa [ha, hkeep] using this

end Linearization
