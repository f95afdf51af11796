import Dfs.Client.Upload
import Dfs.Cluster.Model
import Dfs.Library.Transition
import Dfs.Metadata.Reconfiguration

/-!
# What a step of the system can do

`Step` lists what a step can do, and `step_cases` reads it off `step`.  A step acts on at most one
process, on at most one storage node, and on the chain by at most one step of it; what every step
keeps is `Grows`.
-/

namespace Dfs
namespace Cluster

open Bytes Network Client Storage Metadata Program

section

variable {J ρ : Type}

inductive Step (site : Site) (program : J → Program Call Bytes ρ) (s : State J ρ) :
    Label J → State J ρ → Prop where
  | start (job : J) :
      Step site program s (.start job)
        { s.setProc s.started
            { job := job
              program := program job
              trace := []
              link := .idle } with
          started := s.started + 1 }
  | dialStorage (p : Nat) (proc : Proc J ρ) (c : Call) (next : Bytes → Program Call Bytes ρ)
      (i : Nat) : s.procs p = some proc → proc.link = .idle → proc.program = .call c next →
      site.storageTarget c = some i → (s.storage i).running = true →
      Step site program s (.connect p)
        (s.setProc p (proc.setLink (.storage i (Conn.opened c.conv))))
  | dialMetadata (p : Nat) (proc : Proc J ρ) (c : Call) (next : Bytes → Program Call Bytes ρ)
      (v : Nat) (line : Bytes) (chain : Chain) : s.procs p = some proc → proc.link = .idle →
      proc.program = .call c next → site.metadataTarget c = some (v, line) →
      Chain.step site.net s.chain (.connect v (firstFrame line)) = some chain →
      Step site program s (.connect p) (dial s p proc line chain)
  | refuse (p : Nat) (proc : Proc J ρ) (c : Call) (next : Bytes → Program Call Bytes ρ) :
      s.procs p = some proc → proc.link = .idle → proc.program = .call c next →
      Step site program s (.refuse p) (s.setProc p (proc.answer c next []))
  | transfer (p : Nat) (proc : Proc J ρ) (i : Nat) (conn conn' : Storage.Conn)
      (node : StorageNode) : s.procs p = some proc → proc.link = .storage i conn →
      conn.advance (s.storage i) = some (node, conn') →
      Step site program s (.transfer p)
        ((s.setStorage i node).setProc p (proc.setLink (.storage i conn')))
  | lose (p : Nat) (proc : Proc J ρ) (i : Nat) (conn : Storage.Conn) : s.procs p = some proc →
      proc.link = .storage i conn →
      Step site program s (.lose p) (s.setProc p (proc.setLink (.storage i conn.lose)))
  | finish (p : Nat) (proc : Proc J ρ) (c : Call) (next : Bytes → Program Call Bytes ρ) (i : Nat)
      (conn : Storage.Conn) (a : Bytes) : s.procs p = some proc → proc.link = .storage i conn →
      proc.program = .call c next → conn.conv = .done a →
      Step site program s (.finish p)
        { s.setProc p (proc.answer c next a) with orphans := s.orphans ++ [(i, conn)] }
  | hangUp (p : Nat) (proc : Proc J ρ) (c : Call) (next : Bytes → Program Call Bytes ρ) (id : Nat)
      (conn : Metadata.Conn) : s.procs p = some proc → proc.link = .metadata id →
      proc.program = .call c next → s.chain.conns id = some conn →
      conn.lost = true ∨ conn.phase = .closed →
      Step site program s (.finish p) (s.setProc p (proc.answer c next []))
  | hear (p : Nat) (proc : Proc J ρ) (c : Call) (next : Bytes → Program Call Bytes ρ) (id : Nat)
      (conn : Metadata.Conn) (reply : Bytes) (chain : Chain) : s.procs p = some proc →
      proc.link = .metadata id → proc.program = .call c next → s.chain.conns id = some conn →
      conn.phase = .replied reply → Chain.step site.net s.chain (.take id) = some chain →
      Step site program s (.finish p)
        { s.setProc p (proc.answer c next (firstFrame reply)) with chain := chain }
  | late (k i : Nat) (conn conn' : Storage.Conn) (node : StorageNode) :
      s.orphans[k]? = some (i, conn) → conn.advance (s.storage i) = some (node, conn') →
      Step site program s (.late k)
        { s.setStorage i node with orphans := s.orphans.set k (i, conn') }
  | crash (i : Nat) :
      Step site program s (.crash i) (s.setStorage i (s.storage i).stop)
  | chain (l : Chain.Label) (chain : Chain) : internal l = true →
      Chain.step site.net s.chain l = some chain →
      Step site program s (.chain l) { s with chain := chain }
  | nextFrame (id : Nat) (conn : Metadata.Conn) (chain : Chain) : s.chain.conns id = some conn →
      s.leftover id ≠ [] →
      Chain.step site.net s.chain (.connect conn.node (recvData (s.leftover id)).1) = some chain →
      Step site program s (.nextFrame id)
        { s with
          chain := chain
          leftover := Function.update (Function.update s.leftover id [])
            s.chain.opened (recvData (s.leftover id)).2 }

variable {site : Site} {program : J → Program Call Bytes ρ} {s s' : State J ρ} {l : Label J}
  {p : Nat} {proc : Proc J ρ} {c : Call} {next : Bytes → Program Call Bytes ρ}

theorem connect_cases (hp : s.procs p = some proc) (hlink : proc.link = .idle)
    (hcall : proc.program = .call c next) (h : connect site s p proc c = some s') :
    Step site program s (.connect p) s' := by
  unfold connect at h
  split at h
  · rename_i i hi
    split at h
    · rename_i hrun
      cases h
      exact .dialStorage p proc c next i hp hlink hcall hi hrun
    · cases h
  · rename_i v line _ htarget
    rcases Option.map_eq_some_iff.1 h with ⟨chain, hchain, rfl⟩
    exact .dialMetadata p proc c next v line chain hp hlink hcall htarget hchain
  · cases h

theorem hangUp_cases {id : Nat} (hp : s.procs p = some proc) (hlink : proc.link = .metadata id)
    (hcall : proc.program = .call c next) (h : hangUp site s p proc c next id = some s') :
    Step site program s (.finish p) s' := by
  unfold hangUp at h
  split at h
  · cases h
  · rename_i conn hconn
    split at h
    · rename_i hlost
      cases h
      exact .hangUp p proc c next id conn hp hlink hcall hconn (Or.inl hlost)
    · split at h
      · rename_i hclosed
        cases h
        exact .hangUp p proc c next id conn hp hlink hcall hconn (Or.inr hclosed)
      · rename_i reply hreply
        rcases Option.map_eq_some_iff.1 h with ⟨chain, hchain, rfl⟩
        exact .hear p proc c next id conn reply chain hp hlink hcall hconn hreply hchain
      · cases h

theorem step_cases (h : step site program s l = some s') : Step site program s l s' := by
  cases l with
  | start job =>
      cases h
      exact .start job
  | connect p =>
      cases hp : s.procs p with
      | none => simp [step, hp] at h
      | some proc =>
          simp only [step, hp] at h
          split at h
          · rename_i c next hlink hcall
            exact connect_cases hp hlink hcall h
          · cases h
  | refuse p =>
      cases hp : s.procs p with
      | none => simp [step, hp] at h
      | some proc =>
          simp only [step, hp] at h
          split at h
          · rename_i c next hlink hcall
            cases h
            exact .refuse p proc c next hp hlink hcall
          · cases h
  | transfer p =>
      cases hp : s.procs p with
      | none => simp [step, hp] at h
      | some proc =>
          simp only [step, hp] at h
          split at h
          · rename_i i conn hlink
            rcases Option.map_eq_some_iff.1 h with ⟨⟨node, conn'⟩, hadvance, rfl⟩
            exact .transfer p proc i conn conn' node hp hlink hadvance
          · cases h
  | lose p =>
      cases hp : s.procs p with
      | none => simp [step, hp] at h
      | some proc =>
          simp only [step, hp] at h
          split at h
          · rename_i i conn hlink
            cases h
            exact .lose p proc i conn hp hlink
          · cases h
  | finish p =>
      cases hp : s.procs p with
      | none => simp [step, hp] at h
      | some proc =>
          simp only [step, hp] at h
          split at h
          · rename_i i conn c next hlink hcall
            split at h
            · rename_i a hdone
              cases h
              exact .finish p proc c next i conn a hp hlink hcall hdone
            · cases h
          · rename_i id c next hlink hcall
            exact hangUp_cases hp hlink hcall h
          · cases h
  | late k =>
      cases hk : s.orphans[k]? with
      | none => simp [step, hk] at h
      | some e =>
          rcases e with ⟨i, conn⟩
          simp only [step, hk] at h
          rcases Option.map_eq_some_iff.1 h with ⟨⟨node, conn'⟩, hadvance, rfl⟩
          exact .late k i conn conn' node hk hadvance
  | crash i =>
      cases h
      exact .crash i
  | chain l =>
      simp only [step] at h
      split at h
      · rename_i hinternal
        rcases Option.map_eq_some_iff.1 h with ⟨chain, hchain, rfl⟩
        exact .chain l chain hinternal hchain
      · cases h
  | nextFrame id =>
      cases hc : s.chain.conns id with
      | none => simp [step, hc] at h
      | some conn =>
          simp only [step, hc] at h
          split at h
          · rename_i hcond
            rcases Option.map_eq_some_iff.1 h with ⟨chain, hchain, rfl⟩
            exact .nextFrame id conn chain hc hcond.1 hchain
          · cases h

theorem step_dial {v : Nat} {line : Bytes} {chain : Chain} (hp : s.procs p = some proc) (hlink : proc.link = .idle)
    (hcall : proc.program = .call c next) (htarget : site.metadataTarget c = some (v, line))
    (hchain : Chain.step site.net s.chain (.connect v (firstFrame line)) = some chain) :
    step site program s (.connect p) = some (dial s p proc line chain) := by
  have hstorage : site.storageTarget c = none := by
    cases c with
    | store => cases htarget
    | fetch => cases htarget
    | put => rfl
    | lookup => rfl
  simp only [step, hp, hlink, hcall, connect, hstorage, htarget, hchain, Option.map_some]

/-! ## What a step makes of a process -/

/-- A process opens or uses its connection, or has a call answered. -/
inductive Succeeds (proc : Proc J ρ) : Proc J ρ → Prop where
  | same : Succeeds proc proc
  | setLink (link : Link) : Succeeds proc (proc.setLink link)
  | answer (c : Call) (next : Bytes → Program Call Bytes ρ) (a : Bytes) :
      proc.program = .call c next → Succeeds proc (proc.answer c next a)

/-- The call goes to a metadata node. -/
def ToMetadata (c : Call) : Prop :=
  c.IsPut ∨ c.IsLookup

/-- The process has called a metadata node or is about to. -/
def Turned (proc : Proc J ρ) : Prop :=
  (∃ e ∈ proc.trace, ToMetadata e.1) ∨ ∃ c next, proc.program = .call c next ∧ ToMetadata c

namespace Succeeds

variable {proc' : Proc J ρ}

theorem job (h : Succeeds proc proc') : proc'.job = proc.job := by
  cases h <;> rfl

theorem trace (h : Succeeds proc proc') : ∃ t, proc'.trace = proc.trace ++ t := by
  cases h with
  | same => exact ⟨[], by simp⟩
  | setLink link => exact ⟨[], by simp [Proc.setLink]⟩
  | answer c next a hcall => exact ⟨[(c, a)], rfl⟩

theorem follows (h : Succeeds proc proc')
    (hproc : Follows (program proc.job) proc.trace proc.program) :
    Follows (program proc'.job) proc'.trace proc'.program := by
  cases h with
  | same => exact hproc
  | setLink link => exact hproc
  | answer c next a hcall => exact .answer a (hcall ▸ hproc)

theorem turned (h : Succeeds proc proc') (hproc : Turned proc) : Turned proc' := by
  cases h with
  | same => exact hproc
  | setLink link => exact hproc
  | answer c next a hcall =>
      refine Or.inl ?_
      rcases hproc with ⟨e, he, hturned⟩ | ⟨c', next', hcall', hturned⟩
      · exact ⟨e, List.mem_append_left _ he, hturned⟩
      · cases hcall.symm.trans hcall'
        exact ⟨(c, a), by simp [Proc.answer], hturned⟩

end Succeeds

theorem setProc_proc {q : Nat} {d : Proc J ρ} (h : (s.setProc p proc).procs q = some d) :
    q = p ∧ d = proc ∨ q ≠ p ∧ s.procs q = some d := by
  by_cases hq : q = p
  · subst hq
    rw [State.setProc_procs, Function.update_self, Option.some.injEq] at h
    exact Or.inl ⟨rfl, h.symm⟩
  · rw [State.setProc_procs, Function.update_of_ne hq] at h
    exact Or.inr ⟨hq, h⟩

/-- What a step to `s'` can make of process `p`. -/
inductive Acts (site : Site) (s s' : State J ρ) (p : Nat) (proc : Proc J ρ) :
    Label J → Proc J ρ → Prop where
  | same (l : Label J) : Acts site s s' p proc l proc
  | dialStorage (c : Call) (next : Bytes → Program Call Bytes ρ) (i : Nat) :
      proc.link = .idle → proc.program = .call c next → site.storageTarget c = some i →
      (s.storage i).running = true →
      Acts site s s' p proc (.connect p) (proc.setLink (.storage i (Conn.opened c.conv)))
  | dialMetadata (c : Call) (next : Bytes → Program Call Bytes ρ) (v : Nat) (line : Bytes) :
      proc.link = .idle → proc.program = .call c next → site.metadataTarget c = some (v, line) →
      Chain.step site.net s.chain (.connect v (firstFrame line)) = some s'.chain →
      s'.owner s.chain.opened = some p →
      Acts site s s' p proc (.connect p) (proc.setLink (.metadata s.chain.opened))
  | refuse (c : Call) (next : Bytes → Program Call Bytes ρ) : proc.link = .idle →
      proc.program = .call c next → Acts site s s' p proc (.refuse p) (proc.answer c next [])
  | transfer (i : Nat) (conn conn' : Storage.Conn) : proc.link = .storage i conn →
      conn.advance (s.storage i) = some (s'.storage i, conn') →
      Acts site s s' p proc (.transfer p) (proc.setLink (.storage i conn'))
  | lose (i : Nat) (conn : Storage.Conn) : proc.link = .storage i conn →
      Acts site s s' p proc (.lose p) (proc.setLink (.storage i conn.lose))
  | finish (c : Call) (next : Bytes → Program Call Bytes ρ) (i : Nat) (conn : Storage.Conn)
      (a : Bytes) : proc.link = .storage i conn → proc.program = .call c next →
      conn.conv = .done a → Acts site s s' p proc (.finish p) (proc.answer c next a)
  | hangUp (c : Call) (next : Bytes → Program Call Bytes ρ) (id : Nat) (conn : Metadata.Conn) :
      proc.link = .metadata id → proc.program = .call c next → s.chain.conns id = some conn →
      conn.lost = true ∨ conn.phase = .closed →
      Acts site s s' p proc (.finish p) (proc.answer c next [])
  | hear (c : Call) (next : Bytes → Program Call Bytes ρ) (id : Nat) (conn : Metadata.Conn)
      (reply : Bytes) : proc.link = .metadata id → proc.program = .call c next →
      s.chain.conns id = some conn → conn.phase = .replied reply →
      Acts site s s' p proc (.finish p) (proc.answer c next (firstFrame reply))

theorem Acts.succeeds {proc' : Proc J ρ} (h : Acts site s s' p proc l proc') :
    Succeeds proc proc' := by
  cases h with
  | same => exact .same
  | dialStorage => exact .setLink _
  | dialMetadata => exact .setLink _
  | refuse c next _ hcall => exact .answer c next _ hcall
  | transfer => exact .setLink _
  | lose => exact .setLink _
  | finish c next i conn a _ hcall _ => exact .answer c next a hcall
  | hangUp c next id conn _ hcall _ _ => exact .answer c next _ hcall
  | hear c next id conn reply _ hcall _ _ => exact .answer c next _ hcall

/-- A process after a step has been started by it, or was there before. -/
theorem Step.process (h : Step site program s l s') {q : Nat} {d : Proc J ρ}
    (hd : s'.procs q = some d) :
    (∃ job, l = .start job ∧ q = s.started ∧
        d = { job := job, program := program job, trace := [], link := .idle }) ∨
      ∃ d', s.procs q = some d' ∧ Acts site s s' q d' l d := by
  have hset : ∀ {p : Nat} {proc proc' : Proc J ρ}, s.procs p = some proc →
      Acts site s s' p proc l proc' → Function.update s.procs p (some proc') q = some d →
      ∃ d', s.procs q = some d' ∧ Acts site s s' q d' l d := by
    intro p proc proc' hp hacts hd
    rcases setProc_proc hd with ⟨rfl, rfl⟩ | ⟨_, hd⟩
    · exact ⟨proc, hp, hacts⟩
    · exact ⟨d, hd, .same l⟩
  cases h with
  | start job =>
      rcases setProc_proc hd with ⟨rfl, rfl⟩ | ⟨_, hd⟩
      · exact Or.inl ⟨job, rfl, rfl, rfl⟩
      · exact Or.inr ⟨d, hd, .same _⟩
  | dialStorage p proc c next i hp hlink hcall hi hrun =>
      exact Or.inr (hset hp (.dialStorage c next i hlink hcall hi hrun) hd)
  | dialMetadata p proc c next v line chain hp hlink hcall htarget hchain =>
      exact Or.inr (hset hp
        (.dialMetadata c next v line hlink hcall htarget hchain (by simp [dial])) hd)
  | refuse p proc c next hp hlink hcall => exact Or.inr (hset hp (.refuse c next hlink hcall) hd)
  | transfer p proc i conn conn' node hp hlink hadvance =>
      exact Or.inr (hset hp (.transfer i conn conn' hlink (by simpa using hadvance)) hd)
  | lose p proc i conn hp hlink => exact Or.inr (hset hp (.lose i conn hlink) hd)
  | finish p proc c next i conn a hp hlink hcall hdone =>
      exact Or.inr (hset hp (.finish c next i conn a hlink hcall hdone) hd)
  | hangUp p proc c next id conn hp hlink hcall hconn hover =>
      exact Or.inr (hset hp (.hangUp c next id conn hlink hcall hconn hover) hd)
  | hear p proc c next id conn reply chain hp hlink hcall hconn hreply _ =>
      exact Or.inr (hset hp (.hear c next id conn reply hlink hcall hconn hreply) hd)
  | late => exact Or.inr ⟨d, hd, .same _⟩
  | crash => exact Or.inr ⟨d, hd, .same _⟩
  | chain => exact Or.inr ⟨d, hd, .same _⟩
  | nextFrame => exact Or.inr ⟨d, hd, .same _⟩

/-- A process that is there stays there. -/
theorem Step.process_of (h : Step site program s l s') (hfresh : s.procs s.started = none) {q : Nat}
    {d : Proc J ρ} (hd : s.procs q = some d) :
    ∃ d', s'.procs q = some d' ∧ Acts site s s' q d l d' := by
  cases hq : s'.procs q with
  | some d' =>
      rcases h.process hq with ⟨_, _, rfl, _⟩ | ⟨d'', hd'', hacts⟩
      · cases hfresh.symm.trans hd
      · cases hd.symm.trans hd''
        exact ⟨d', rfl, hacts⟩
  | none =>
      -- No step takes a process away.
      exfalso
      have hset : ∀ p proc, Function.update s.procs p (some proc) q ≠ none := by
        intro p proc hnone
        by_cases hqp : q = p
        · simp [hqp] at hnone
        · rw [Function.update_of_ne hqp, hd] at hnone
          cases hnone
      cases h with
      | late => cases hd.symm.trans hq
      | crash => cases hd.symm.trans hq
      | chain => cases hd.symm.trans hq
      | nextFrame => cases hd.symm.trans hq
      | _ => exact hset _ _ hq

/-! ## Calls that nothing disturbs -/

variable {P : State J ρ → Label J → Prop}

/-- Steps on the connection of a process to a storage node. -/
theorem run_transfers (hP : ∀ s, P s (.transfer p)) (n : Nat) {i : Nat} {conn : Storage.Conn}
    (hp : s.procs p = some proc) (hlink : proc.link = .storage i conn) :
    ∃ tr s', Run (step site program) P s tr s' ∧
      s'.procs p = some (proc.setLink (.storage i (advanceBy n (s.storage i) conn).2)) ∧
      s'.storage = Function.update s.storage i (advanceBy n (s.storage i) conn).1 ∧
      s'.chain = s.chain ∧ s'.leftover = s.leftover := by
  induction n generalizing s proc conn with
  | zero =>
      refine ⟨[], s, .start, ?_, by simp [advanceBy], rfl, rfl⟩
      rw [hp, advanceBy, ← hlink]
      rfl
  | succ n ih =>
      unfold advanceBy
      cases hadvance : conn.advance (s.storage i) with
      | none =>
          refine ⟨[], s, .start, ?_, by simp, rfl, rfl⟩
          rw [hp, ← hlink]
          rfl
      | some r =>
          rcases r with ⟨node, conn'⟩
          have hstep : step site program s (.transfer p) =
              some ((s.setStorage i node).setProc p (proc.setLink (.storage i conn'))) := by
            simp [step, hp, hlink, hadvance]
          rcases @ih ((s.setStorage i node).setProc p (proc.setLink (.storage i conn')))
            (proc.setLink (.storage i conn')) conn' (by simp) rfl with
            ⟨tr, s', hrun, hp', hstorage, hchain, hleft⟩
          have hnode : ((s.setStorage i node).setProc p
              (proc.setLink (.storage i conn'))).storage i = node := by simp
          rw [hnode] at hp' hstorage
          refine ⟨_, s', (Run.start.next _ _ (hP s) hstep).trans hrun, hp', ?_, hchain, hleft⟩
          rw [hstorage]
          simp

/-- A call to a storage node that nothing disturbs. -/
theorem run_call (hP : ∀ s, P s (.connect p) ∧ P s (.transfer p) ∧ P s (.finish p)) {c : Call}
    {next : Bytes → Program Call Bytes ρ} {i : Nat} {node : StorageNode} {conn : Storage.Conn}
    {a : Bytes} (hp : s.procs p = some proc) (hlink : proc.link = .idle)
    (hcall : proc.program = .call c next) (htarget : site.storageTarget c = some i)
    (hrun : (s.storage i).running = true)
    (hconn : advanceBy 5 (s.storage i) (Conn.opened c.conv) = (node, conn))
    (hdone : conn.conv = .done a) :
    ∃ tr s' proc', Run (step site program) P s tr s' ∧ s'.procs p = some proc' ∧
      proc'.link = .idle ∧ proc'.program = next a ∧ proc'.job = proc.job ∧
      s'.storage = Function.update s.storage i node ∧ s'.chain = s.chain ∧
      s'.leftover = s.leftover := by
  have hdial : step site program s (.connect p) =
      some (s.setProc p (proc.setLink (.storage i (Conn.opened c.conv)))) := by
    simp [step, hp, hlink, hcall, connect, htarget, hrun]
  rcases @run_transfers J ρ site program
    (s.setProc p (proc.setLink (.storage i (Conn.opened c.conv)))) p _ P (fun s => (hP s).2.1) 5 i
    _ (Function.update_self ..) rfl with ⟨tr, s₁, htransfers, hp₁, hstorage, hchain, hleft⟩
  simp only [State.setProc_storage, hconn] at hp₁ hstorage
  have hfinish : step site program s₁ (.finish p) =
      some { s₁.setProc p ((proc.setLink (.storage i conn)).answer c next a) with
        orphans := s₁.orphans ++ [(i, conn)] } := by
    simp [step, hp₁, Proc.setLink, hcall, hdone, Proc.answer]
  refine ⟨_, _, _, ((Run.start.next _ _ (hP s).1 hdial).trans htransfers).next _ _ (hP s₁).2.2
    hfinish, Function.update_self .., rfl, rfl, rfl, hstorage, hchain, hleft⟩
end

end Cluster
end Dfs
