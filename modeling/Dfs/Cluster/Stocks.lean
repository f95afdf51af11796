import Dfs.Cluster.Invariants
import Dfs.Cluster.Jobs

/-!
# What the storage nodes hold

Uploads and downloads on storage nodes whose connections break and which crash at any time.  Every
chunk that a node holds is one of a file that a client uploads, under the hash of its data, and a
chunk that has been acknowledged is held.
-/

namespace Dfs
namespace Cluster

open Bytes TextScan Network Common Client Storage Dht Metadata Program

/-- The chunk is one of a file that a client uploads. -/
def Uploaded (s : State Job Report) (hash data : Bytes) : Prop :=
  ∃ p proc client file, s.procs p = some proc ∧ proc.job = .upload client file ∧
    ∃ chunk ∈ file.chunks, chunk.hash = hash ∧ chunk.data = data

/-- Where a connection to storage node `i` can be that carries a call of a job. -/
inductive Carries (s : State Job Report) (i : Nat) : Call → Storage.Conn → Prop where
  | store (ip : Bytes) (port : Int) (hash data : Bytes) (acked : Bool) (conn : Storage.Conn) :
      Uploaded s hash data → StorePos hash data acked conn →
      (acked = true → (s.storage i).storage hash ≠ none) →
      Carries s i (.store ip port hash data) conn
  | fetch (ip : Bytes) (port : Int) (hash : Bytes) (arrives : Bool) (conn : Storage.Conn) :
      IsWord hash → FetchPos hash (Uploaded s hash) arrives conn →
      Carries s i (.fetch ip port hash) conn

structure Stocks (site : Site) (s : State Job Report) : Prop where
  held : ∀ i hash data, (s.storage i).storage hash = some data → Uploaded s hash data
  linked : ∀ p proc i conn, s.procs p = some proc → proc.link = .storage i conn →
    ∃ c next, proc.program = .call c next ∧ site.storageTarget c = some i ∧ Carries s i c conn
  orphaned : ∀ e ∈ s.orphans, ∃ c, Carries s e.1 c e.2
  acked : ∀ p proc ip port hash data, s.procs p = some proc →
    (.store ip port hash data, ascii "ACK") ∈ proc.trace →
    ∃ i, site.storageAt ip port = some i ∧ (s.storage i).storage hash ≠ none

section

variable {site : Site} {nodes : Nat → MetadataNode} {s s' : State Job Report} {l : Label Job}
  {hash data : Bytes} {i : Nat} {c : Call} {conn conn' : Storage.Conn}

theorem Uploaded.mono (h : Uploaded s hash data) (hgrows : Grows s s') :
    Uploaded s' hash data := by
  rcases h with ⟨p, proc, client, file, hp, hjob, hchunk⟩
  rcases hgrows.process p proc hp with ⟨proc', hp', hsucc⟩
  exact ⟨p, proc', client, file, hp', hsucc.job.trans hjob, hchunk⟩

theorem Uploaded.fits (h : Uploaded s hash data) : Fits hash data := by
  rcases h with ⟨p, proc, client, file, hp, hjob, chunk, hchunk, rfl, rfl⟩
  have hspec := LocalFile.mem_chunks hchunk
  exact ⟨hspec.1.data_ne_nil, hspec.1.length_le, hspec.2.symm⟩

theorem Uploaded.isWord (h : Uploaded s hash data) : IsWord hash := by
  rw [← h.fits.hash_eq]
  exact (isHash_sha256 data).isWord

theorem Carries.mono (h : Carries s i c conn) (hgrows : Grows s s') : Carries s' i c conn := by
  cases h with
  | store ip port hash data acked _ hup hpos hacked =>
      exact .store ip port hash data acked conn (hup.mono hgrows) hpos
        fun htrue => (hgrows.storage i).held hash (hacked htrue)
  | fetch ip port hash arrives _ hword hpos =>
      exact .fetch ip port hash arrives conn hword (hpos.mono fun _ hup => hup.mono hgrows)

/-- A connection just opened. -/
theorem carries_opened {p : Nat} {proc : Proc Job Report} (hp : s.procs p = some proc)
    (hasks : proc.job.Asks c) (htarget : site.storageTarget c = some i) :
    Carries s i c (Conn.opened c.conv) := by
  cases hjob : proc.job with
  | upload client file =>
      rw [hjob] at hasks
      rcases hasks with ⟨ip, port, chunk, hchunk, rfl⟩ | ⟨ip, port, rfl⟩
      · exact .store ip port chunk.hash chunk.data false _
          ⟨p, proc, client, file, hp, hjob, chunk, hchunk, rfl, rfl⟩ .command (by simp)
      · cases htarget
  | download client filename output =>
      rw [hjob] at hasks
      rcases hasks with ⟨ip, port, rfl⟩ | ⟨ip, port, hash, hword, rfl⟩
      · cases htarget
      · exact .fetch ip port hash true _ hword .command

/-- A step on a connection: the node changes at most by an uploaded chunk. -/
theorem Carries.advance (h : Carries s i c conn)
    (hheld : ∀ hash data, (s.storage i).storage hash = some data → Uploaded s hash data)
    {node : StorageNode} (hstep : conn.advance (s.storage i) = some (node, conn')) :
    (node = s.storage i ∨ ∃ hash data, node = (s.storage i).store hash data ∧
        Uploaded s hash data) ∧
      ∀ s', Grows s s' → s'.storage i = node → Carries s' i c conn' := by
  cases h with
  | store ip port hash data acked _ hup hpos hacked =>
      rcases hpos.advance hup.isWord hup.fits.ne_nil hstep with ⟨acked', hpos', hnode, hnew⟩
      refine ⟨hnode.imp id fun heq => ⟨hash, data, heq, hup⟩, ?_⟩
      intro s' hgrows hs'
      refine .store ip port hash data acked' conn' (hup.mono hgrows) hpos' fun htrue => ?_
      rcases hnew htrue with hold | ⟨_, heq⟩
      · exact (hgrows.storage i).held hash (hacked hold)
      · rw [hs', heq]
        simp
  | fetch ip port hash arrives _ hword hpos =>
      have hvalid : ∀ data, (s.storage i).storage hash = some data →
          data ≠ [] ∧ Uploaded s hash data :=
        fun data hdata => ⟨(hheld hash data hdata).fits.ne_nil, hheld hash data hdata⟩
      rcases hpos.advance hword hvalid hstep with ⟨hnode, arrives', hpos', _⟩
      refine ⟨Or.inl hnode, ?_⟩
      intro s' hgrows _
      exact .fetch ip port hash arrives' conn' hword (hpos'.mono fun _ hup => hup.mono hgrows)

theorem Carries.lose (h : Carries s i c conn) : Carries s i c conn.lose := by
  cases h with
  | store ip port hash data acked _ hup hpos hacked =>
      rcases hpos.lose with ⟨acked', hpos', hstill⟩
      exact .store ip port hash data acked' _ hup hpos' fun htrue => hacked (hstill htrue)
  | fetch ip port hash arrives _ hword hpos =>
      rcases hpos.lose with ⟨arrives', hpos'⟩
      exact .fetch ip port hash arrives' _ hword hpos'

/-- What an acknowledged store says. -/
theorem Carries.acked {ip : Bytes} {port : Int} (h : Carries s i (.store ip port hash data) conn)
    (hdone : conn.conv = .done (ascii "ACK")) : (s.storage i).storage hash ≠ none := by
  cases h with
  | store _ _ _ _ acked _ hup hpos hacked => exact hacked (hpos.answer hdone rfl)

theorem stocks_launch : Stocks site (State.launch nodes) where
  held := by simp [State.launch, StorageNode.launch]
  linked := by simp [State.launch]
  orphaned := by simp [State.launch]
  acked := by simp [State.launch]

/-- The node after a step holds what it held, and uploaded chunks. -/
theorem Stocks.step_held (h : Stocks site s) (hstep : Step site Job.program s l s') (j : Nat) :
    s'.storage j = s.storage j ∨ s'.storage j = (s.storage j).stop ∨
      ∃ hash data, s'.storage j = (s.storage j).store hash data ∧ Uploaded s hash data := by
  have hupdate : ∀ {i : Nat} {node : StorageNode},
      (node = s.storage i ∨ ∃ hash data, node = (s.storage i).store hash data ∧
        Uploaded s hash data) →
      (s.setStorage i node).storage j = s.storage j ∨
        (s.setStorage i node).storage j = (s.storage j).stop ∨
        ∃ hash data, (s.setStorage i node).storage j = (s.storage j).store hash data ∧
          Uploaded s hash data := by
    intro i node hnode
    by_cases hj : j = i
    · subst hj
      simpa using hnode.imp id Or.inr
    · exact Or.inl (by simp [hj])
  cases hstep with
  | transfer p proc i conn conn' node hp hlink hadvance =>
      rcases h.linked p proc i conn hp hlink with ⟨c, next, _, _, hcarries⟩
      exact hupdate (hcarries.advance (h.held i) hadvance).1
  | late k i conn conn' node hk hadvance =>
      rcases h.orphaned _ (List.mem_of_getElem? hk) with ⟨c, hcarries⟩
      exact hupdate (hcarries.advance (h.held i) hadvance).1
  | crash i =>
      by_cases hj : j = i
      · subst hj
        exact Or.inr (Or.inl (by simp))
      · exact Or.inl (by simp [hj])
  | _ => exact Or.inl rfl

/-- A call that a process is at is one of its job. -/
theorem Coherent.asks (h : Coherent site Job.program nodes s) {p : Nat} {proc : Proc Job Report}
    {next : Bytes → Program Call Bytes Report} (hp : s.procs p = some proc)
    (hcall : proc.program = .call c next) : proc.job.Asks c := by
  have hcalls := ((h.process p proc hp).2.calls proc.job.calls).1
  rw [hcall] at hcalls
  exact hcalls.1

theorem Stocks.step (hcoherent : Coherent site Job.program nodes s) (h : Stocks site s)
    (hstep : Step site Job.program s l s') : Stocks site s' where
  held := by
    have hgrows := hcoherent.grows hstep
    intro j hash data hdata
    rcases h.step_held hstep j with heq | heq | ⟨hash', data', heq, hup⟩
    · exact (h.held j hash data (heq ▸ hdata)).mono hgrows
    · rw [heq, StorageNode.stop_storage] at hdata
      exact (h.held j hash data hdata).mono hgrows
    · rw [heq, StorageNode.store_storage] at hdata
      by_cases hsame : hash = hash'
      · subst hsame
        rw [Function.update_self, Option.some.injEq] at hdata
        exact hdata ▸ hup.mono hgrows
      · rw [Function.update_of_ne hsame] at hdata
        exact (h.held j hash data hdata).mono hgrows
  linked := by
    have hgrows := hcoherent.grows hstep
    intro q d i conn hq hlink
    rcases hstep.process hq with ⟨_, _, _, rfl⟩ | ⟨d', hd', hacts⟩
    · cases hlink
    · cases hacts with
      | same =>
          rcases h.linked q d i conn hd' hlink with ⟨c, next, hcall, htarget, hcarries⟩
          exact ⟨c, next, hcall, htarget, hcarries.mono hgrows⟩
      | dialStorage c next j _ hcall htarget _ =>
          cases hlink
          have hcarries := carries_opened hd' (hcoherent.asks hd' hcall) htarget
          exact ⟨c, next, hcall, htarget, hcarries.mono hgrows⟩
      | transfer j conn₀ conn' hlink' hadvance =>
          cases hlink
          rcases h.linked q d' _ conn₀ hd' hlink' with ⟨c, next, hcall, htarget, hcarries⟩
          exact ⟨c, next, hcall, htarget,
            (hcarries.advance (h.held _) hadvance).2 s' hgrows rfl⟩
      | lose j conn₀ hlink' =>
          cases hlink
          rcases h.linked q d' _ conn₀ hd' hlink' with ⟨c, next, hcall, htarget, hcarries⟩
          exact ⟨c, next, hcall, htarget, hcarries.lose.mono hgrows⟩
      | _ => cases hlink
  orphaned := by
    have hgrows := hcoherent.grows hstep
    have hkeep : ∀ e ∈ s.orphans, ∃ c, Carries s' e.1 c e.2 := by
      intro e he
      rcases h.orphaned e he with ⟨c, hcarries⟩
      exact ⟨c, hcarries.mono hgrows⟩
    intro e he
    cases hstep with
    | finish p proc c next i conn a hp hlink _ _ =>
        rcases List.mem_append.1 he with he | he
        · exact hkeep e he
        · rcases h.linked p proc i conn hp hlink with ⟨c', _, _, _, hcarries⟩
          rw [List.mem_singleton.1 he]
          exact ⟨c', hcarries.mono hgrows⟩
    | late k i conn conn' node hk hadvance =>
        rcases List.mem_or_eq_of_mem_set he with he | rfl
        · exact hkeep e he
        · rcases h.orphaned _ (List.mem_of_getElem? hk) with ⟨c, hcarries⟩
          exact ⟨c, (hcarries.advance (h.held i) hadvance).2 _ hgrows (by simp)⟩
    | _ => exact hkeep e he
  acked := by
    have hgrows := hcoherent.grows hstep
    have hack : ascii "ACK" ≠ [] := by decide
    have hkeep : ∀ q d ip port hash data, s.procs q = some d →
        (.store ip port hash data, ascii "ACK") ∈ d.trace →
        ∃ i, site.storageAt ip port = some i ∧ (s'.storage i).storage hash ≠ none := by
      intro q d ip port hash data hq hmem
      rcases h.acked q d ip port hash data hq hmem with ⟨i, hi, hheld⟩
      exact ⟨i, hi, (hgrows.storage i).held hash hheld⟩
    intro q d ip port hash data hq hmem
    rcases hstep.process hq with ⟨_, _, _, rfl⟩ | ⟨d', hd', hacts⟩
    · simp at hmem
    · -- A call without a connection is not acknowledged.
      have hnone : ∀ c next, (.store ip port hash data, ascii "ACK") ∈ (d'.answer c next []).trace →
          ∃ i, site.storageAt ip port = some i ∧ (s'.storage i).storage hash ≠ none := by
        intro c next hmem
        rcases List.mem_append.1 hmem with hmem | hmem
        · exact hkeep q d' ip port hash data hd' hmem
        · simp [hack] at hmem
      cases hacts with
      | refuse c next _ _ => exact hnone c next hmem
      | hangUp c next id conn _ _ _ _ => exact hnone c next hmem
      | finish c next i conn a hlink hcall hdone =>
          rcases List.mem_append.1 hmem with hmem | hmem
          · exact hkeep q d' ip port hash data hd' hmem
          · rcases h.linked q d' i conn hd' hlink with ⟨c', next', hcall', htarget, hcarries⟩
            cases hcall.symm.trans hcall'
            simp only [List.mem_singleton, Prod.mk.injEq] at hmem
            rcases hmem with ⟨rfl, rfl⟩
            exact ⟨i, htarget, (hgrows.storage i).held hash (hcarries.acked hdone)⟩
      | hear c next id conn reply hlink hcall _ _ =>
          rcases List.mem_append.1 hmem with hmem | hmem
          · exact hkeep q d' ip port hash data hd' hmem
          · rcases hcoherent.dialed q d' id hd' hlink with ⟨c', next', v, line, _, hcall', htarget, _⟩
            cases hcall.symm.trans hcall'
            simp only [List.mem_singleton, Prod.mk.injEq] at hmem
            rcases hmem with ⟨rfl, _⟩
            cases htarget
      | same => exact hkeep q d ip port hash data hd' hmem
      | dialStorage => exact hkeep q d' ip port hash data hd' hmem
      | dialMetadata => exact hkeep q d' ip port hash data hd' hmem
      | transfer => exact hkeep q d' ip port hash data hd' hmem
      | lose => exact hkeep q d' ip port hash data hd' hmem

theorem Stocks.run {P : State Job Report → Label Job → Prop}
    {tr : List (State Job Report × Label Job)}
    (h : Run (Cluster.step site Job.program) P (State.launch nodes) tr s) : Stocks site s :=
  h.state_invariant stocks_launch fun _ _ _ _ hrun hI _ hs =>
    hI.step (Coherent.run hrun) (step_cases hs)

end

end Cluster
end Dfs
