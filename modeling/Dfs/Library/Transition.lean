import Mathlib.Data.List.Basic

/-!
# Runs of a labelled step function

A system is a partial step function on states and labels.  A run starts in a given state, takes
only steps that satisfy a condition on the state and the label, and records at each step the state
it left and the label it took.
-/

inductive Run {σ ℓ : Type} (step : σ → ℓ → Option σ) (P : σ → ℓ → Prop) (init : σ) :
    List (σ × ℓ) → σ → Prop where
  | start : Run step P init [] init
  | step {tr : List (σ × ℓ)} {s s' : σ} {l : ℓ} :
      Run step P init tr s → P s l → step s l = some s' → Run step P init (tr ++ [(s, l)]) s'

namespace Run

variable {σ ℓ : Type} {step : σ → ℓ → Option σ} {P Q : σ → ℓ → Prop} {init s : σ}
  {tr : List (σ × ℓ)}

/-- What holds at the start and is preserved by every step holds after every run. -/
theorem invariant {I : List (σ × ℓ) → σ → Prop} (h0 : I [] init)
    (hstep : ∀ tr s l s', I tr s → P s l → step s l = some s' → I (tr ++ [(s, l)]) s')
    (h : Run step P init tr s) : I tr s := by
  induction h with
  | start => exact h0
  | step _ hP hs ih => exact hstep _ _ _ _ ih hP hs

/-- The same for a property of states, with other properties of reachable states at hand. -/
theorem state_invariant {I : σ → Prop} (h0 : I init)
    (hstep : ∀ tr s l s', Run step P init tr s → I s → P s l → step s l = some s' → I s')
    (h : Run step P init tr s) : I s := by
  induction h with
  | start => exact h0
  | step hrun hP hs ih => exact hstep _ _ _ _ hrun ih hP hs

theorem mono (hPQ : ∀ s l, P s l → Q s l) (h : Run step P init tr s) :
    Run step Q init tr s := by
  induction h with
  | start => exact .start
  | step _ hP hs ih => exact .step ih (hPQ _ _ hP) hs

/-- One more step, with its label and the state it leads to. -/
theorem next (h : Run step P init tr s) (l : ℓ) (s' : σ) (hP : P s l) (hs : step s l = some s') :
    Run step P init (tr ++ [(s, l)]) s' :=
  .step h hP hs

/-- A run goes on from where another one ended. -/
theorem trans {tr' : List (σ × ℓ)} {s' : σ} (h : Run step P init tr s)
    (h' : Run step P s tr' s') : Run step P init (tr ++ tr') s' := by
  induction h' with
  | start => simpa using h
  | step _ hP hs ih => simpa [List.append_assoc] using Run.step ih hP hs

/-- The same where the two runs take their steps under different conditions. -/
theorem append {P' : σ → ℓ → Prop} {tr' : List (σ × ℓ)} {s' : σ} (h : Run step P init tr s)
    (h' : Run step P' s tr' s') : Run step (fun _ _ => True) init (tr ++ tr') s' :=
  (h.mono fun _ _ _ => trivial).trans (h'.mono fun _ _ _ => trivial)

/-- A run up to one of its steps. -/
theorem at_step {tr₁ tr₂ : List (σ × ℓ)} {s' : σ} {l : ℓ}
    (h : Run step P init (tr₁ ++ (s', l) :: tr₂) s) :
    Run step P init tr₁ s' ∧ P s' l ∧ ∃ s'', step s' l = some s'' := by
  generalize htr : tr₁ ++ (s', l) :: tr₂ = tr at h
  induction h generalizing tr₂ with
  | start => simp at htr
  | @step tr t t' k hrun hP hs ih =>
      rcases List.eq_nil_or_concat tr₂ with rfl | ⟨rest, last, rfl⟩
      · rcases List.append_inj' htr rfl with ⟨rfl, hlast⟩
        cases hlast
        exact ⟨hrun, hP, t', hs⟩
      · rw [List.concat_eq_append, ← List.cons_append, ← List.append_assoc] at htr
        exact ih (List.append_inj' htr rfl).1

/-! ## Potentials -/

/-- Steps that use up a potential of the state are no more than what there was at the start and
what the steps that add to it have added. -/
theorem countP_add_le (Φ : σ → Nat) (spends adds : ℓ → Bool) (b : Nat)
    (hstep : ∀ tr s l s', Run step P init tr s → P s l → step s l = some s' →
      Φ s' + (if spends l then 1 else 0) ≤ Φ s + if adds l then b else 0)
    (h : Run step P init tr s) :
    tr.countP (fun e => spends e.2) + Φ s ≤ Φ init + b * tr.countP (fun e => adds e.2) := by
  induction h with
  | start => simp
  | @step tr s s' l hrun hP hs ih =>
      have hone := hstep tr s l s' hrun hP hs
      rw [List.countP_append, List.countP_append, List.countP_singleton, List.countP_singleton]
      cases hspends : spends l <;> cases hadds : adds l <;>
        simp only [hspends, hadds, if_true, if_false, Bool.false_eq_true, Nat.mul_add,
          Nat.mul_one, Nat.mul_zero] at hone ⊢ <;> omega

/-! ## Runs that end -/

/-- Steps that lower a rank in a well-founded order do not go on for ever. -/
theorem no_endless {α : Type} {r : α → α → Prop} (hwf : WellFounded r) (Φ : σ → α)
    (hstep : ∀ tr s l s', Run step P init tr s → Q s l → step s l = some s' →
      P s l ∧ r (Φ s') (Φ s))
    (h : Run step P init tr s) :
    ¬ ∃ f : Nat → σ, f 0 = s ∧ ∀ n, ∃ l, Q (f n) l ∧ step (f n) l = some (f (n + 1)) := by
  generalize hx : Φ s = x
  induction x using hwf.induction generalizing s tr with
  | _ x ih =>
      rintro ⟨f, hf, hall⟩
      rcases hall 0 with ⟨l, hQ, hs⟩
      rw [hf] at hQ hs
      rcases hstep tr s l (f 1) h hQ hs with ⟨hP, hlower⟩
      exact ih (Φ (f 1)) (hx ▸ hlower) (h.next l (f 1) hP hs) rfl
        ⟨fun n => f (n + 1), rfl, fun n => hall (n + 1)⟩

/-- So they can be taken until none is left. -/
theorem exists_rest {α : Type} {r : α → α → Prop} (hwf : WellFounded r) (Φ : σ → α)
    (hstep : ∀ tr s l s', Run step P init tr s → Q s l → step s l = some s' →
      P s l ∧ r (Φ s') (Φ s))
    (h : Run step P init tr s) :
    ∃ tr' s', Run step Q s tr' s' ∧ ∀ l, Q s' l → step s' l = none := by
  generalize hx : Φ s = x
  induction x using hwf.induction generalizing s tr with
  | _ x ih =>
      by_cases hrest : ∀ l, Q s l → step s l = none
      · exact ⟨[], s, .start, hrest⟩
      · push Not at hrest
        rcases hrest with ⟨l, hQ, hsome⟩
        rcases Option.ne_none_iff_exists'.1 hsome with ⟨s₁, hs⟩
        rcases hstep tr s l s₁ h hQ hs with ⟨hP, hlower⟩
        rcases ih (Φ s₁) (hx ▸ hlower) (h.next l s₁ hP hs) rfl with ⟨tr', s', hrun, hnone⟩
        exact ⟨_, s', (Run.start.next l s₁ hQ hs).trans hrun, hnone⟩

/-! ## Replaying labels -/

/-- The states passed and the last state when the labels are taken one after the other. -/
def replay (step : σ → ℓ → Option σ) : σ → List ℓ → Option (List (σ × ℓ) × σ)
  | s, [] => some ([], s)
  | s, l :: ls =>
      (step s l).bind fun s' => (replay step s' ls).map fun r => ((s, l) :: r.1, r.2)

theorem replay_labels {ls : List ℓ} {mid : σ} (hreplay : replay step s ls = some (tr, mid)) :
    tr.map Prod.snd = ls := by
  induction ls generalizing s tr with
  | nil =>
      simp only [replay, Option.some.injEq, Prod.mk.injEq] at hreplay
      rw [← hreplay.1, List.map_nil]
  | cons l ls ih =>
      simp only [replay, Option.bind_eq_some_iff, Option.map_eq_some_iff] at hreplay
      rcases hreplay with ⟨s', _, ⟨tr', mid'⟩, hrest, heq⟩
      simp only [Prod.mk.injEq] at heq
      rcases heq with ⟨rfl, rfl⟩
      simp [ih hrest]

theorem of_replay {ls : List ℓ} {mid : σ} {tr' : List (σ × ℓ)}
    (h : Run step P init tr s) (hreplay : replay step s ls = some (tr', mid))
    (hP : ∀ e ∈ tr', P e.1 e.2) : Run step P init (tr ++ tr') mid := by
  induction ls generalizing tr tr' s with
  | nil =>
      simp only [replay, Option.some.injEq, Prod.mk.injEq] at hreplay
      rcases hreplay with ⟨rfl, rfl⟩
      simpa using h
  | cons l ls ih =>
      simp only [replay, Option.bind_eq_some_iff, Option.map_eq_some_iff] at hreplay
      rcases hreplay with ⟨s', hs, ⟨tr₂, mid'⟩, hrest, heq⟩
      simp only [Prod.mk.injEq] at heq
      rcases heq with ⟨rfl, rfl⟩
      have hnext := Run.step h (hP (s, l) (by simp)) hs
      have := ih hnext hrest fun e he => hP e (by simp [he])
      simpa using this

/-- The run of labels that can be taken one after the other. -/
def replayed (step : σ → ℓ → Option σ) (init : σ) (ls : List ℓ) : List (σ × ℓ) × σ :=
  (replay step init ls).getD ([], init)

theorem of_replayed {ls : List ℓ} (hsome : (replay step init ls).isSome = true)
    (hP : ∀ e ∈ (replayed step init ls).1, P e.1 e.2) :
    Run step P init (replayed step init ls).1 (replayed step init ls).2 := by
  rcases Option.isSome_iff_exists.1 hsome with ⟨⟨tr', mid⟩, hreplay⟩
  simp only [replayed, hreplay, Option.getD_some] at hP ⊢
  simpa using of_replay Run.start hreplay hP

/-- Where the condition is one on labels alone, it is enough that the labels satisfy it. -/
theorem of_labels {L : ℓ → Prop} {ls : List ℓ} (hsome : (replay step init ls).isSome = true)
    (hL : ∀ l ∈ ls, L l) (hP : ∀ s l, L l → P s l) :
    Run step P init (replayed step init ls).1 (replayed step init ls).2 := by
  refine of_replayed hsome fun e he => hP _ _ (hL _ ?_)
  rcases Option.isSome_iff_exists.1 hsome with ⟨⟨tr', mid⟩, hreplay⟩
  simp only [replayed, hreplay, Option.getD_some] at he
  rw [← replay_labels hreplay]
  exact List.mem_map_of_mem he

end Run
