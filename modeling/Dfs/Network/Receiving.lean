import Dfs.Network.Registry

/-!
# Receiving without the lock

`TCPServer::recvData` looks the socket number of its client up under `clientsMutex_` and then calls
`::recv` on it without the lock, any number of times.  Each of these calls reads from the
connection that the id stands for exactly as long as neither `closeClient` of this id nor the last
part of `stop` has come in between.  After that the number may belong to another connection.
-/

namespace Dfs
namespace Network
namespace Registry

section

variable {w w' : World} {l : ServerStep} {e : Int × SocketContext}

/-- The step that takes an entry out of the registry. -/
def Retires (clientId : Int) (l : ServerStep) : Prop :=
  l = .closeClient clientId ∨ l = .stopClients

/-- What a step makes of the entries and of the ids that are no longer in use. -/
theorem entries_step (h : Accounted w) (hfew : w'.registered.length < 2 ^ 31)
    (hs : serverStep w l = some w') :
    w.retired ⊆ w'.retired ∧ ∀ e ∈ w.server.clients.entries,
      (¬ Retires e.1 l ∧ e ∈ w'.server.clients.entries) ∨ (Retires e.1 l ∧ e.1 ∈ w'.retired) := by
  have hclose : ∀ (w : World) n, (w.closeSocket n).retired = w.retired ∧
      (w.closeSocket n).server = w.server := by
    intro w n
    unfold World.closeSocket
    split <;> exact ⟨rfl, rfl⟩
  cases l with
  | closeClient clientId =>
      obtain rfl := Option.some.inj hs
      unfold World.closeClient
      cases hfind : w.server.clients.find? clientId with
      | none =>
          refine ⟨List.Subset.refl _, fun e he => Or.inl ⟨?_, he⟩⟩
          rintro (heq | heq)
          · cases heq
            exact SortedMap.find?_eq_none.1 hfind e.2 he
          · cases heq
      | some ctx =>
          refine ⟨List.subset_append_left _ _, fun e he => ?_⟩
          by_cases hkey : e.1 = clientId
          · refine Or.inr ⟨Or.inl (by rw [hkey]), ?_⟩
            rw [hkey]
            exact List.mem_append_right _ (List.mem_singleton_self _)
          · refine Or.inl ⟨?_, SortedMap.mem_erase.2 ⟨he, hkey⟩⟩
            rintro (heq | heq)
            · exact hkey (ServerStep.closeClient.inj heq).symm
            · cases heq
  | register sock c =>
      rcases Option.ite_none_right_eq_some.1 hs with ⟨_, hw⟩
      obtain rfl := Option.some.inj hw
      refine ⟨List.Subset.refl _, fun e he => Or.inl ⟨by simp [Retires], ?_⟩⟩
      -- The new entry has an id of its own.
      have hkey : e.1 ≠ w.server.nextClientId := by
        rcases h.entry e he with ⟨_, a, ha, _⟩
        have hle := h.ids _ ha
        have hlength : w.registered.length + 1 < 2 ^ 31 := by
          simpa [World.register] using hfew
        have hnext : w.server.nextClientId = w.registered.length + 1 := by
          rw [h.next]
          exact toInt32_of_range (by omega) (by omega)
        omega
      exact SortedMap.mem_insert.2 (Or.inr ⟨he, hkey⟩)
  | stop =>
      obtain rfl := Option.some.inj hs
      unfold World.stop
      split <;> exact ⟨List.Subset.refl _, fun e he => Or.inl ⟨by simp [Retires], he⟩⟩
  | stopListening =>
      cases hphase : w.stopping <;> simp only [serverStep, hphase, reduceCtorEq] at hs
      obtain rfl := Option.some.inj hs
      refine ⟨by simp [World.stopListening, hclose], fun e he => Or.inl ⟨by simp [Retires], ?_⟩⟩
      simpa [World.stopListening, hclose] using he
  | stopClients =>
      cases hphase : w.stopping <;> simp only [serverStep, hphase, reduceCtorEq] at hs
      obtain rfl := Option.some.inj hs
      refine ⟨?_, fun e he => Or.inr ⟨Or.inr rfl, ?_⟩⟩
      · exact List.subset_append_left _ _
      · exact List.mem_append_right _ (List.mem_map_of_mem he)
  | enter | accept | acceptFails | openOther | closeOther =>
      rcases Option.ite_none_right_eq_some.1 hs with ⟨_, hw⟩
      obtain rfl := Option.some.inj hw
      exact ⟨List.Subset.refl _, fun e he => Or.inl ⟨by simp [Retires], he⟩⟩

/-- An entry stays until it is retired, and an id that is retired stays so. -/
theorem entry_run {sock : Int} {tr tr' : List (World × ServerStep)}
    (h : Run serverStep (fun _ _ => True) (World.started sock) tr w)
    (he : e ∈ w.server.clients.entries) (h' : Run serverStep (fun _ _ => True) w tr' w')
    (hfew : w'.registered.length < 2 ^ 31) :
    ((∀ x ∈ tr', ¬ Retires e.1 x.2) ∧ e ∈ w'.server.clients.entries) ∨
      ((∃ x ∈ tr', Retires e.1 x.2) ∧ e.1 ∈ w'.retired) := by
  induction h' with
  | start => exact Or.inl ⟨by simp, he⟩
  | @step tr' w₁ w₂ l hrun _ hs ih =>
      have hfew₁ := lt_of_le_of_lt (registered_step hs) hfew
      have hstep := entries_step (accounted_run (h.trans hrun) hfew₁) hfew hs
      rcases ih hfew₁ with ⟨hnone, hentry⟩ | ⟨⟨x, hx, hretires⟩, hretired⟩
      · rcases hstep.2 e hentry with ⟨hnot, hentry'⟩ | ⟨hretires, hretired⟩
        · refine Or.inl ⟨?_, hentry'⟩
          intro x hx
          rcases List.mem_append.1 hx with hx | hx
          · exact hnone x hx
          · rw [List.mem_singleton.1 hx]
            exact hnot
        · exact Or.inr ⟨⟨(w₁, l), by simp, hretires⟩, hretired⟩
      · exact Or.inr ⟨⟨x, List.mem_append_left _ hx, hretires⟩, hstep.1 hretired⟩

/-- A `recvData` call that has looked up its client reads from the connection that is registered
under the id, exactly as long as `closeClient` of the id and the last part of `stop` stay away. -/
theorem received_from_own_iff {sock : Int} {tr tr' : List (World × ServerStep)}
    (h : Run serverStep (fun _ _ => True) (World.started sock) tr w) {clientId : Int}
    {ctx : SocketContext} (hfind : w.server.clients.find? clientId = some ctx)
    (h' : Run serverStep (fun _ _ => True) w tr' w') (hfew : w'.registered.length < 2 ^ 31) :
    (∃ c, (clientId, c) ∈ w'.registered ∧ w'.sockets ctx.socket = some (.connection c)) ↔
      ∀ x ∈ tr', ¬ Retires clientId x.2 := by
  have hinv := accounted_run (h.trans h') hfew
  rcases entry_run h (SortedMap.find?_eq_some.1 hfind) h' hfew with
    ⟨hnone, hentry⟩ | ⟨⟨x, hx, hretires⟩, hretired⟩
  · exact ⟨fun _ => hnone, fun _ => (hinv.entry _ hentry).2⟩
  · refine ⟨?_, fun hnone => absurd hretires (hnone x hx)⟩
    -- An open connection has an entry, and that of this one is gone.
    rintro ⟨c, hreg, hsock⟩
    rcases hinv.held _ _ hsock with hhand | ⟨e, he, heq⟩
    · exact absurd (List.mem_map_of_mem hreg) (hinv.hand _ hhand).2.2
    · rcases hinv.entry e he with ⟨_, c', hreg', hsock'⟩
      rw [heq, hsock, Option.some.injEq, Holder.connection.injEq] at hsock'
      subst hsock'
      have hpair := List.inj_on_of_nodup_map hinv.connsNodup hreg hreg' rfl
      have hkey : clientId = e.1 := (Prod.ext_iff.1 hpair).1
      exact absurd (hkey ▸ he) ((hinv.retired clientId hretired).2 e.2)

end

/-- `stop` closes the socket of a call that is still receiving, and an `accept` that comes back
later is given its number. -/
def acceptedOne : List ServerStep :=
  [.enter, .accept 5, .register 5 0, .enter]

def stoppedMeanwhile : List ServerStep :=
  [.stop, .stopListening, .stopClients, .accept 5]

theorem received_from_own_iff_reused :
    let looked := Run.replayed serverStep (World.started 3) acceptedOne
    let later := Run.replayed serverStep looked.2 stoppedMeanwhile
    (looked.2.server.clients.find? 1).map SocketContext.socket = some 5 ∧
      later.2.sockets 5 = some (.connection 1) ∧
      ¬ ∃ c, (1, c) ∈ later.2.registered ∧ later.2.sockets 5 = some (.connection c) := by
  intro looked later
  have hlooked : Run serverStep (fun _ _ => True) (World.started 3) looked.1 looked.2 :=
    Run.of_replayed (by decide +kernel) fun _ _ => trivial
  have hlater : Run serverStep (fun _ _ => True) looked.2 later.1 later.2 :=
    Run.of_replayed (by decide +kernel) fun _ _ => trivial
  have hsocket : (looked.2.server.clients.find? 1).map SocketContext.socket = some 5 := by
    decide +kernel
  refine ⟨hsocket, by decide +kernel, ?_⟩
  intro hown
  rcases Option.map_eq_some_iff.1 hsocket with ⟨ctx, hfind, hctx⟩
  rw [← hctx] at hown
  have hnone := (received_from_own_iff hlooked hfind hlater (by decide +kernel)).1 hown
  have hlabel : later.1.any (fun x => x.2 = .stopClients) = true := by decide +kernel
  rcases List.any_eq_true.1 hlabel with ⟨x, hx, heq⟩
  exact hnone x hx (Or.inr (of_decide_eq_true heq))

end Registry
end Network
end Dfs
