import Dfs.Library.Transition
import Mathlib.Data.List.Basic

/-!
# The accept loop and its end

`start` of the storage node and of the metadata node: the loop that accepts connections and starts a
detached handler for each, and the wait on `handlersCv_` behind it until `activeHandlers_` is zero.
A handler decrements the counter and then notifies, without `handlersMutex_`.

`start` returns only when no handler is at work.  A notification that comes between the test of the
predicate and the moment the wait goes to sleep is lost, and that is the only way `start` can hang.
-/

namespace Dfs
namespace Network
namespace AcceptLoop

/-- Where `start` is. -/
inductive Main where
  /-- at the test of `running_` -/
  | testing
  /-- inside `acceptClient` -/
  | accepting
  /-- with a client, before `activeHandlers_++` -/
  | accepted
  /-- before the thread of the client is there -/
  | counted
  /-- in `wait`, before the predicate is evaluated -/
  | checking
  /-- the predicate was false, and the thread does not sleep yet -/
  | blocking
  | waiting
  | returned
  deriving DecidableEq

/-- Where the thread of a client is. -/
inductive Handler where
  /-- inside `handleClient` -/
  | handling
  /-- between `activeHandlers_--` and `notify_one` -/
  | notifying
  | done
  deriving DecidableEq

structure Loop where
  running : Bool
  main : Main
  activeHandlers : Int
  handlers : List Handler
  deriving DecidableEq

/-- `start` at the head of the loop. -/
def Loop.started : Loop :=
  { running := true
    main := .testing
    activeHandlers := 0
    handlers := [] }

inductive Label where
  | test
  | accept
  | acceptFails
  | count
  | spawn
  | evaluate
  | block
  /-- the wait ends without a notification -/
  | wakeSpuriously
  /-- a handler gets `DIE` -/
  | die (h : Nat)
  /-- a handler leaves `handleClient` and decrements the counter -/
  | leave (h : Nat)
  | notify (h : Nat)
  deriving DecidableEq

/-- `handlersCv_.notify_one()`: it reaches only a thread that sleeps. -/
def notified : Main → Main
  | .waiting => .checking
  | main => main

def step (s : Loop) : Label → Option Loop
  | .test =>
      if s.main = .testing then
        some { s with main := if s.running then .accepting else .checking }
      else none
  | .accept => if s.main = .accepting then some { s with main := .accepted } else none
  | .acceptFails => if s.main = .accepting then some { s with main := .testing } else none
  | .count =>
      if s.main = .accepted then
        some { s with main := .counted, activeHandlers := s.activeHandlers + 1 }
      else none
  | .spawn =>
      if s.main = .counted then
        some { s with main := .testing, handlers := s.handlers ++ [.handling] }
      else none
  | .evaluate =>
      if s.main = .checking then
        some { s with main := if s.activeHandlers = 0 then .returned else .blocking }
      else none
  | .block => if s.main = .blocking then some { s with main := .waiting } else none
  | .wakeSpuriously => if s.main = .waiting then some { s with main := .checking } else none
  | .die h =>
      if s.handlers[h]? = some .handling then some { s with running := false } else none
  | .leave h =>
      if s.handlers[h]? = some .handling then
        some
          { s with
            activeHandlers := s.activeHandlers - 1
            handlers := s.handlers.set h .notifying }
      else none
  | .notify h =>
      if s.handlers[h]? = some .notifying then
        some
          { s with
            main := notified s.main
            handlers := s.handlers.set h .done }
      else none

/-- What a step can do. -/
inductive Step (s : Loop) : Label → Loop → Prop where
  | test : s.main = .testing →
      Step s .test { s with main := if s.running then .accepting else .checking }
  | accept : s.main = .accepting → Step s .accept { s with main := .accepted }
  | acceptFails : s.main = .accepting → Step s .acceptFails { s with main := .testing }
  | count : s.main = .accepted →
      Step s .count { s with main := .counted, activeHandlers := s.activeHandlers + 1 }
  | spawn : s.main = .counted →
      Step s .spawn { s with main := .testing, handlers := s.handlers ++ [.handling] }
  | evaluate : s.main = .checking →
      Step s .evaluate { s with main := if s.activeHandlers = 0 then .returned else .blocking }
  | block : s.main = .blocking → Step s .block { s with main := .waiting }
  | wakeSpuriously : s.main = .waiting → Step s .wakeSpuriously { s with main := .checking }
  | die (k : Nat) : s.handlers[k]? = some .handling → Step s (.die k) { s with running := false }
  | leave (k : Nat) : s.handlers[k]? = some .handling →
      Step s (.leave k)
        { s with
          activeHandlers := s.activeHandlers - 1
          handlers := s.handlers.set k .notifying }
  | notify (k : Nat) : s.handlers[k]? = some .notifying →
      Step s (.notify k) { s with main := notified s.main, handlers := s.handlers.set k .done }

theorem step_cases {s s' : Loop} {l : Label} (h : step s l = some s') : Step s l s' := by
  cases l <;> simp only [step, Option.ite_none_right_eq_some, Option.some.injEq] at h <;>
    rcases h with ⟨hmain, rfl⟩ <;> constructor <;> exact hmain

/-! ## The counter -/

/-- `start` has left the loop. -/
def Main.Drains : Main → Prop
  | .checking => True
  | .blocking => True
  | .waiting => True
  | .returned => True
  | _ => False

/-- The counter counts the handlers inside `handleClient`, and one that is about to start. -/
structure Counted (s : Loop) : Prop where
  count : s.activeHandlers =
    (s.handlers.count .handling : Int) + if s.main = .counted then 1 else 0
  drains : s.main.Drains → s.running = false
  empty : s.main = .returned → s.activeHandlers = 0

/-- A handler that goes on is no longer counted where it was. -/
theorem count_set_handler {handlers : List Handler} {h : Nat} {before after : Handler}
    (hbefore : handlers[h]? = some before) (hafter : after ≠ .handling) :
    ((handlers.set h after).count .handling : Int) =
      (handlers.count .handling : Int) - if before = .handling then 1 else 0 := by
  rcases List.getElem?_eq_some_iff.1 hbefore with ⟨hlt, hget⟩
  have hpos : before = .handling → 1 ≤ handlers.count .handling := by
    rintro rfl
    exact List.one_le_count_iff.2 (hget ▸ List.getElem_mem hlt)
  rw [List.count_set hlt, hget]
  by_cases heq : before = .handling
  · have := hpos heq
    simp only [heq, hafter, beq_self_eq_true, if_true, beq_iff_eq, if_false]
    omega
  · simp [heq, hafter]

theorem counted_started : Counted Loop.started where
  count := by simp [Loop.started]
  drains := fun h => by cases h
  empty := fun h => by cases h

section

variable {s s' : Loop} {l : Label}

theorem drains_notified {main : Main} (h : (notified main).Drains) : main.Drains := by
  cases main with
  | waiting => trivial
  | _ => exact h

theorem Counted.step (h : Counted s) (hs : Step s l s') : Counted s' := by
  cases hs with
  | test hmain =>
      have hcount := h.count
      rw [hmain] at hcount
      cases hrunning : s.running with
      | true => exact ⟨by simpa [hrunning] using hcount, by simp [Main.Drains], by simp⟩
      | false => exact ⟨by simpa using hcount, fun _ => rfl, by simp⟩
  | accept hmain => exact ⟨by simpa [hmain] using h.count, by simp [Main.Drains], by simp⟩
  | acceptFails hmain => exact ⟨by simpa [hmain] using h.count, by simp [Main.Drains], by simp⟩
  | count hmain => exact ⟨by simpa [hmain] using h.count, by simp [Main.Drains], by simp⟩
  | spawn hmain => exact ⟨by simpa [hmain] using h.count, by simp [Main.Drains], by simp⟩
  | evaluate hmain =>
      have hstopped : s.running = false := h.drains (by simp [hmain, Main.Drains])
      by_cases hzero : s.activeHandlers = 0
      · exact ⟨by simpa [hmain, hzero] using h.count, fun _ => hstopped, fun _ => hzero⟩
      · exact ⟨by simpa [hmain, hzero] using h.count, fun _ => hstopped, by simp [hzero]⟩
  | block hmain =>
      exact ⟨by simpa [hmain] using h.count, fun _ => h.drains (by simp [hmain, Main.Drains]),
        by simp⟩
  | wakeSpuriously hmain =>
      exact ⟨by simpa [hmain] using h.count, fun _ => h.drains (by simp [hmain, Main.Drains]),
        by simp⟩
  | die k hk => exact ⟨h.count, fun _ => rfl, h.empty⟩
  | leave k hk =>
      have hset := count_set_handler hk (show Handler.notifying ≠ .handling by simp)
      refine ⟨?_, h.drains, ?_⟩
      · rw [if_pos rfl] at hset
        simp only [hset, h.count]
        omega
      · -- Once `start` has returned no handler is left that could leave.
        intro hreturned
        have hzero := h.empty hreturned
        have hpos := List.one_le_count_iff.2 (List.mem_of_getElem? hk)
        rw [h.count, hreturned] at hzero
        simp only [reduceCtorEq, if_false] at hzero
        omega
  | notify k hk =>
      have hset := count_set_handler hk (show Handler.done ≠ .handling by simp)
      have hmain : notified s.main = .counted ↔ s.main = .counted := by
        cases s.main <;> simp [notified]
      refine ⟨?_, fun hdrains => h.drains (drains_notified hdrains), ?_⟩
      · simp only [hset, h.count, hmain, reduceCtorEq, if_false, Int.sub_zero]
      · intro hreturned
        refine h.empty ?_
        cases hmain : s.main <;> simp [hmain, notified] at hreturned ⊢

end

theorem counted_run {P : Loop → Label → Prop} {tr : List (Loop × Label)} {s : Loop}
    (h : Run step P Loop.started tr s) : Counted s :=
  h.state_invariant counted_started fun _ _ _ _ _ hI _ hs => hI.step (step_cases hs)

/-- Two clients, the second of which sends `DIE`. -/
def twoClients : List Label :=
  [.test, .accept, .count, .spawn, .test, .accept, .count, .spawn, .test, .die 1, .acceptFails,
    .test, .evaluate, .leave 0, .block, .notify 0, .evaluate, .block, .leave 1, .notify 1,
    .evaluate]

/-- `start` sleeps, and nobody is left to wake it. -/
def Hung (s : Loop) : Prop :=
  s.main = .waiting ∧ ∀ handler ∈ s.handlers, handler = .done

instance (s : Loop) : Decidable (Hung s) :=
  inferInstanceAs (Decidable (_ ∧ _))

/-- A notification that finds the predicate tested and the wait not yet asleep. -/
def Missed (s : Loop) (l : Label) : Prop :=
  s.main = .blocking ∧ ∃ k, l = .notify k

/-- While the wait is about to sleep or sleeps, a handler is there that will notify. -/
def Awaited (s : Loop) : Prop :=
  s.main = .blocking ∨ s.main = .waiting → ∃ handler ∈ s.handlers, handler ≠ .done

section

variable {s s' : Loop} {l : Label}

theorem Awaited.step (hcounted : Counted s) (h : Awaited s) (hmissed : ¬ Missed s l)
    (hs : Step s l s') : Awaited s' := by
  cases hs with
  | evaluate hmain =>
      intro hblocks
      -- The predicate was false, so a handler is inside `handleClient`.
      have hactive : s.activeHandlers ≠ 0 := by
        intro hzero
        simp [hzero] at hblocks
      rw [hcounted.count, hmain] at hactive
      simp only [reduceCtorEq, if_false] at hactive
      have hpos : 0 < s.handlers.count .handling := by omega
      exact ⟨.handling, List.count_pos_iff.1 hpos, by simp⟩
  | block hmain => exact fun _ => h (Or.inl hmain)
  | die k _ => exact h
  | leave k hk =>
      rcases List.getElem?_eq_some_iff.1 hk with ⟨hlt, _⟩
      exact fun _ => ⟨.notifying, List.mem_set hlt _, by simp⟩
  | notify k hk =>
      rintro (hblocking | hwaiting)
      · have hmain : s.main = .blocking := by
          cases hmain : s.main <;> simp [hmain, notified] at hblocking ⊢
        exact absurd ⟨hmain, k, rfl⟩ hmissed
      · -- A wait that sleeps is woken.
        cases hmain : s.main <;> simp [hmain, notified] at hwaiting
  | test _ => cases hrunning : s.running <;> simp [Awaited]
  | accept _ => simp [Awaited]
  | acceptFails _ => simp [Awaited]
  | count _ => simp [Awaited]
  | spawn _ => simp [Awaited]
  | wakeSpuriously _ => simp [Awaited]

/-- A thread that nobody wakes sleeps on. -/
theorem Hung.step (h : Hung s) (hwake : l ≠ .wakeSpuriously) (hs : Step s l s') : Hung s' := by
  have hnone : ∀ k handler, s.handlers[k]? = some handler → handler = Handler.done :=
    fun k handler hk => h.2 handler (List.mem_of_getElem? hk)
  cases hs with
  | wakeSpuriously _ => exact absurd rfl hwake
  | die k hk => cases hnone k _ hk
  | leave k hk => cases hnone k _ hk
  | notify k hk => cases hnone k _ hk
  | test hmain => cases h.1.symm.trans hmain
  | accept hmain => cases h.1.symm.trans hmain
  | acceptFails hmain => cases h.1.symm.trans hmain
  | count hmain => cases h.1.symm.trans hmain
  | spawn hmain => cases h.1.symm.trans hmain
  | evaluate hmain => cases h.1.symm.trans hmain
  | block hmain => cases h.1.symm.trans hmain

end

/-- `start` hangs, and then for good unless its wait ends spuriously, only when a notification came
between the test of the predicate and the sleep; in all other runs, whenever nothing is left to
happen but in `accept`, it has returned or is accepting. -/
theorem start_hangs_only_if_missed (tr : List (Loop × Label)) (s : Loop)
    (h : Run step (fun _ _ => True) Loop.started tr s) :
    (Hung s → (∃ e ∈ tr, Missed e.1 e.2) ∧
      ∀ tr' s', Run step (fun _ l => l ≠ .wakeSpuriously) s tr' s' → Hung s') ∧
    ((∀ e ∈ tr, ¬ Missed e.1 e.2) →
      (∀ l s', step s l = some s' → l = .accept ∨ l = .acceptFails ∨ l = .wakeSpuriously) →
      s.main = .accepting ∨ s.main = .returned) := by
  have hawaited : (∀ e ∈ tr, ¬ Missed e.1 e.2) → Awaited s := by
    refine h.invariant (I := fun tr s => Counted s ∧ ((∀ e ∈ tr, ¬ Missed e.1 e.2) → Awaited s))
      ⟨counted_started, fun _ => by simp [Awaited, Loop.started]⟩ ?_ |>.2
    rintro tr s l s' ⟨hcounted, hawaited⟩ _ hs
    refine ⟨hcounted.step (step_cases hs), fun hmissed => ?_⟩
    exact (hawaited fun e he => hmissed e (by simp [he])).step hcounted
      (hmissed (s, l) (by simp)) (step_cases hs)
  refine ⟨?_, ?_⟩
  · intro hhung
    refine ⟨?_, ?_⟩
    · by_contra hnone
      push Not at hnone
      rcases hawaited hnone (Or.inr hhung.1) with ⟨handler, hmem, hne⟩
      exact hne (hhung.2 handler hmem)
    · exact fun tr' s' h' => h'.state_invariant hhung fun _ _ _ _ _ hI hP hs =>
        hI.step hP (step_cases hs)
  · intro hmissed hquiet
    -- A thread of the program that could go on would have to be in `accept`.
    have hnot : ∀ l s', step s l = some s' → l ≠ .accept → l ≠ .acceptFails →
        l ≠ .wakeSpuriously → False := by
      intro l s' hs h₁ h₂ h₃
      rcases hquiet l s' hs with heq | heq | heq
      · exact h₁ heq
      · exact h₂ heq
      · exact h₃ heq
    have hdone : ∀ handler ∈ s.handlers, handler = Handler.done := by
      intro handler hmem
      rcases List.getElem?_of_mem hmem with ⟨k, hk⟩
      cases handler with
      | handling => exact (hnot (.leave k) _ (if_pos hk) (by simp) (by simp) (by simp)).elim
      | notifying => exact (hnot (.notify k) _ (if_pos hk) (by simp) (by simp) (by simp)).elim
      | done => rfl
    cases hmain : s.main with
    | accepting => exact Or.inl rfl
    | returned => exact Or.inr rfl
    | testing => exact (hnot .test _ (if_pos hmain) (by simp) (by simp) (by simp)).elim
    | accepted => exact (hnot .count _ (if_pos hmain) (by simp) (by simp) (by simp)).elim
    | counted => exact (hnot .spawn _ (if_pos hmain) (by simp) (by simp) (by simp)).elim
    | checking => exact (hnot .evaluate _ (if_pos hmain) (by simp) (by simp) (by simp)).elim
    | blocking => exact (hnot .block _ (if_pos hmain) (by simp) (by simp) (by simp)).elim
    | waiting =>
        rcases hawaited hmissed (Or.inr hmain) with ⟨handler, hmem, hne⟩
        exact absurd (hdone handler hmem) hne

/-- The one handler leaves and notifies just before the wait goes to sleep. -/
def missedNotification : List Label :=
  [.test, .accept, .count, .spawn, .test, .die 0, .acceptFails, .test, .evaluate, .leave 0,
    .notify 0, .block]

theorem start_hangs_only_if_missed_one :
    Hung (Run.replayed step Loop.started missedNotification).2 ∧
      ∀ tr' s', Run step (fun _ l => l ≠ .wakeSpuriously)
        (Run.replayed step Loop.started missedNotification).2 tr' s' → Hung s' := by
  have h : Run step (fun _ _ => True) Loop.started
      (Run.replayed step Loop.started missedNotification).1
      (Run.replayed step Loop.started missedNotification).2 :=
    Run.of_replayed (by decide) fun _ _ => trivial
  have hhung : Hung (Run.replayed step Loop.started missedNotification).2 := by decide
  exact ⟨hhung, ((start_hangs_only_if_missed _ _ h).1 hhung).2⟩

end AcceptLoop
end Network
end Dfs
