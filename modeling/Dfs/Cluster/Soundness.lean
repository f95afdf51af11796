import Dfs.Cluster.Downloads

/-!
# What holds whatever fails

Storage nodes and metadata nodes crash, connections are refused or break, health checks take nodes
out of the chain, and the clients need not even agree on their lists.  What a storage node delivers
under a hash is still a chunk with that hash, and what a metadata node answers is still the record
of an upload.  So a download that reports success has written the file of one upload, never a mix
of two, a chunk lies only on the nodes that the uploading client's ring assigns to it, and what a
node has acknowledged stays there as it was.
-/

namespace Dfs
namespace Cluster

open Bytes TextScan Network Common Client Storage Dht Metadata Program

/-- Requests fit one frame, and uploads are of nonempty files whose base names are words; apart
from that anything may happen. -/
def FitJobs : Label Job → Prop
  | .start job => job.Fit
  | _ => True

section

variable {site : Site} {nodes : Nat → MetadataNode} {s s' : State Job Report} {l : Label Job}
  {tr : List (State Job Report × Label Job)}

/-! ## What storage nodes deliver -/

/-- What a process has been given for a hash is an uploaded chunk with that hash. -/
def Fetched (s : State Job Report) : Prop :=
  ∀ p proc ip port hash a, s.procs p = some proc → (.fetch ip port hash, a) ∈ proc.trace →
    a = [] ∨ Uploaded s hash a

theorem Fetched.step (hcoherent : Coherent site Job.program nodes s) (hstocks : Stocks site s)
    (h : Fetched s) (hstep : Step site Job.program s l s') : Fetched s' := by
  have hgrows := hcoherent.grows hstep
  intro p proc ip port hash a hp hmem
  rcases hstep.process hp with ⟨_, _, _, rfl⟩ | ⟨before, hbefore, hacts⟩
  · cases hmem
  · have hold : (.fetch ip port hash, a) ∈ before.trace → a = [] ∨ Uploaded s' hash a :=
      fun hmem => (h p before ip port hash a hbefore hmem).imp id fun hup => hup.mono hgrows
    -- A call to a metadata node is not a fetch.
    have hmetadata : ∀ c next id b, before.program = .call c next → before.link = .metadata id →
        (.fetch ip port hash, a) ∈ (before.answer c next b).trace →
          a = [] ∨ Uploaded s' hash a := by
      intro c next id b hcall hlink hmem
      rcases List.mem_append.1 hmem with hmem | hmem
      · exact hold hmem
      · rcases hcoherent.dialed p before id hbefore hlink with
          ⟨c', next', v, line, _, hcall', htarget, _⟩
        cases hcall.symm.trans hcall'
        cases List.mem_singleton.1 hmem
        cases htarget
    cases hacts with
    | same => exact hold hmem
    | dialStorage => exact hold hmem
    | dialMetadata => exact hold hmem
    | transfer => exact hold hmem
    | lose => exact hold hmem
    | refuse c next _ _ =>
        rcases List.mem_append.1 hmem with hmem | hmem
        · exact hold hmem
        · cases List.mem_singleton.1 hmem
          exact Or.inl rfl
    | finish c next i conn b hlink hcall hdone =>
        rcases List.mem_append.1 hmem with hmem | hmem
        · exact hold hmem
        · rcases hstocks.linked p before i conn hbefore hlink with
            ⟨c', next', hcall', _, hcarries⟩
          cases hcall.symm.trans hcall'
          cases List.mem_singleton.1 hmem
          cases hcarries with
          | fetch _ _ _ arrives _ _ hpos =>
              rcases hpos.answer hdone with hup | ⟨hnil, _⟩
              · exact Or.inr (hup.mono hgrows)
              · exact Or.inl hnil
    | hangUp c next id conn hlink hcall _ _ => exact hmetadata c next id _ hcall hlink hmem
    | hear c next id conn reply hlink hcall _ _ => exact hmetadata c next id _ hcall hlink hmem

theorem Fetched.run {P : State Job Report → Label Job → Prop}
    (h : Run (Cluster.step site Job.program) P (State.launch nodes) tr s) : Fetched s :=
  h.state_invariant (by simp [Fetched, State.launch]) fun _ _ _ _ hrun hI _ hs =>
    hI.step (Coherent.run hrun) (Stocks.run hrun) (step_cases hs)

/-! ## What metadata nodes answer -/

/-- A reply to a lookup: what the node held at some moment, or that another node is to be asked. -/
def Known (nodes : Nat → MetadataNode) (log : List Applied) (v : Nat) (name reply : Bytes) : Prop :=
  reply = ascii "REDIRECT_TO_TAIL" ∨
    ∃ L, L <+: log ∧ reply = MetadataNode.lookupMessage (storedAt nodes L v name)

theorem Known.mono {log log' : List Applied} {v : Nat} {name reply : Bytes} (hlog : log <+: log')
    (h : Known nodes log v name reply) : Known nodes log' v name reply :=
  h.imp id fun ⟨L, hL, heq⟩ => ⟨L, hL.trans hlog, heq⟩

/-- What the lookups of a run have been answered with. -/
structure Looked (nodes : Nat → MetadataNode) (s : State Job Report) : Prop where
  reads : ∀ v name, Chain.Reads (Chain.launch nodes) v name (Known nodes s.chain.log v name) s.chain
  heard : ∀ p proc client filename output name rest, s.procs p = some proc →
    proc.job = .download client filename output → readWord filename = some (name, rest) →
    ∀ ip port line a, (.lookup ip port line, a) ∈ proc.trace →
      a = [] ∨ ∃ v reply, a = firstFrame reply ∧ Known nodes s.chain.log v name reply

theorem Looked.step (hcoherent : Coherent site Job.program nodes s) (hstocks : Stocks site s)
    (hfits : ∀ p proc, s.procs p = some proc → proc.job.line.length < 2 ^ 32) (h : Looked nodes s)
    (hstep : Step site Job.program s l s') : Looked nodes s' where
  reads := by
    intro v name
    rcases hstep.chain_step with heq | ⟨lc, hlc⟩
    · rw [heq]
      exact h.reads v name
    · refine (h.reads v name).step_of (Chain.step_cases hlc) (fun _ => Or.inl rfl) ?_
        fun reply hreply => hreply.mono hstep.log_isPrefix
      -- What the node holds has been stored there up to now.
      exact Or.inr ⟨s.chain.log, hstep.log_isPrefix, by rw [hcoherent.chain.store]⟩
  heard := by
    intro p proc client filename output name rest hp hjob hword ip port line a hmem
    rcases hstep.process hp with ⟨_, _, _, rfl⟩ | ⟨before, hbefore, hacts⟩
    · cases hmem
    · have hjob' : before.job = .download client filename output :=
        hacts.succeeds.job.symm.trans hjob
      have hold : (.lookup ip port line, a) ∈ before.trace →
          a = [] ∨ ∃ v reply, a = firstFrame reply ∧ Known nodes s'.chain.log v name reply := by
        intro hmem
        refine (h.heard p before client filename output name rest hbefore hjob' hword ip port line
          a hmem).imp id ?_
        rintro ⟨v, reply, heq, hknown⟩
        exact ⟨v, reply, heq, hknown.mono hstep.log_isPrefix⟩
      cases hacts with
      | same => exact hold hmem
      | dialStorage => exact hold hmem
      | dialMetadata => exact hold hmem
      | transfer => exact hold hmem
      | lose => exact hold hmem
      | refuse c next _ _ =>
          rcases List.mem_append.1 hmem with hmem | hmem
          · exact hold hmem
          · cases List.mem_singleton.1 hmem
            exact Or.inl rfl
      | hangUp c next id conn _ _ _ _ =>
          rcases List.mem_append.1 hmem with hmem | hmem
          · exact hold hmem
          · cases List.mem_singleton.1 hmem
            exact Or.inl rfl
      | finish c next i conn b hlink hcall hdone =>
          rcases List.mem_append.1 hmem with hmem | hmem
          · exact hold hmem
          · -- A call on a storage connection is not a lookup.
            cases List.mem_singleton.1 hmem
            rcases hstocks.linked p before i conn hbefore hlink with
              ⟨c', next', hcall', htarget, _⟩
            cases hcall.symm.trans hcall'
            cases htarget
      | hear c next id conn reply hlink hcall hconn hreply =>
          rcases List.mem_append.1 hmem with hmem | hmem
          · exact hold hmem
          · cases List.mem_singleton.1 hmem
            refine Or.inr ⟨conn.node, reply, rfl, ?_⟩
            rcases hcoherent.dialed p before id hbefore hlink with
              ⟨c', next', v, sent, conn', hcall', htarget, hconn', _, hcommand, _, _⟩
            cases hcall.symm.trans hcall'
            cases hconn.symm.trans hconn'
            have hline := line_of_asks (hcoherent.asks hbefore hcall) htarget
            have hlength := hfits p before hbefore
            rw [← hline] at hlength
            rw [firstFrame_of_lt hlength, hline, hjob'] at hcommand
            have hread : s.chain.ReadAt id conn.node name reply :=
              ⟨conn, hconn, rfl, by rw [hcommand]; exact request_getLine_of_readWord hword, hreply⟩
            exact ((h.reads conn.node name).readAt rfl hread).mono hstep.log_isPrefix

theorem Looked.run
    (h : Run (Cluster.step site Job.program) (fun _ l => FitJobs l) (State.launch nodes) tr s) :
    Looked nodes s := by
  refine h.state_invariant ?_ fun _ _ _ _ hrun hI _ hs =>
    hI.step (Coherent.run hrun) (Stocks.run hrun) ?_ (step_cases hs)
  · refine ⟨?_, by simp [State.launch]⟩
    intro v name g d hd hnew
    cases hnew.symm.trans hd
  · exact fun p proc hp =>
      (jobs_of_run (Q := Job.Fit) (fun _ _ hl => hl) hrun p proc hp).1

/-! ## The record of an upload -/

/-- Process `u` uploads the file under the name and has placed every chunk of it. -/
def UploadOf (s : State Job Report) (name : Bytes) (u : Nat) (file : LocalFile) : Prop :=
  ∃ proc client, s.procs u = some proc ∧ proc.job = .upload client file ∧
    baseName file.path = name ∧ Stocked client file proc.trace

theorem firstFrame_redirect :
    firstFrame (ascii "REDIRECT_TO_TAIL") = ascii "REDIRECT_TO_TAIL" := by
  have hlength : (ascii "REDIRECT_TO_TAIL").length = 16 := by decide
  exact firstFrame_of_lt (by rw [hlength]; norm_num)

theorem firstFrame_notFound : firstFrame (ascii "NOT_FOUND") = ascii "NOT_FOUND" := by
  have hlength : (ascii "NOT_FOUND").length = 9 := by decide
  exact firstFrame_of_lt (by rw [hlength]; norm_num)

/-- A record that a client reads is that of an upload under the name. -/
theorem upload_of_known (hempty : ∀ v name, (nodes v).metadataStore name = none)
    (hcoherent : Coherent site Job.program nodes s) (hrequests : Requests s)
    (hfit : ∀ p proc, s.procs p = some proc → proc.job.Fit) {v : Nat}
    {name filename reply : Bytes} {record : FileMetadata}
    (hknown : Known nodes s.chain.log v name reply)
    (hread : readFound filename (firstFrame reply) = some record) :
    ∃ u file, UploadOf s name u file ∧ record.chunkHashes = file.hashes := by
  -- The other two replies are not read as records.
  have hother : ∀ text, text = ascii "REDIRECT_TO_TAIL" ∨ text = ascii "NOT_FOUND" →
      readFound filename text = none := by
    rintro text (rfl | rfl)
    · exact if_neg (by decide)
    · exact if_neg (by decide)
  rcases hknown with rfl | ⟨L, hL, rfl⟩
  · rw [firstFrame_redirect, hother _ (Or.inl rfl)] at hread
    cases hread
  · cases hlast : lastWrite L v name with
    | none =>
        rw [storedAt, hlast, hempty, MetadataNode.lookupMessage, firstFrame_notFound,
          hother _ (Or.inr rfl)] at hread
        cases hread
    | some e =>
        rcases lastWrite_eq_some hlast with ⟨he, _, hname⟩
        rcases source_of_log hcoherent hrequests (hL.subset he) with
          ⟨u, proc, client, file, _, hu, hjob, hparse, hstocked, _⟩
        have hjobfit := hfit u proc hu
        rw [hjob] at hjobfit
        have hwell := wellFormed_of_fit hjobfit
        rw [parsePut_putLine hwell, Option.some.injEq] at hparse
        have hstored : storedAt nodes L v name = some e.record := by rw [storedAt, hlast]
        rw [hstored, ← hparse] at hread
        have hframe := firstFrame_foundMessage hwell hjobfit.1
        have hmessage : MetadataNode.lookupMessage (some file.record) =
            MetadataNode.foundMessage file.record := rfl
        rw [hmessage, hframe, readFound_foundMessage_as hwell, Option.some.injEq] at hread
        refine ⟨u, file, ⟨proc, client, hu, hjob, ?_, hstocked⟩, ?_⟩
        · rw [← hname, ← hparse]
          rfl
        · rw [← hread]
          rfl

/-- The first record among the answers is the reading of one of them. -/
theorem lookup_of_firstRecord {filename : Bytes} {t : List (Call × Bytes)} {record : FileMetadata}
    (h : firstRecord filename t = some record) :
    ∃ ip port line a, (.lookup ip port line, a) ∈ t ∧ readFound filename a = some record := by
  rcases List.exists_of_findSome?_eq_some h with ⟨⟨c, a⟩, hmem, hfound⟩
  cases c with
  | lookup ip port line =>
      refine ⟨ip, port, line, a, hmem, ?_⟩
      cases hread : readFound filename a with
      | none => simp [hread, isFound, emptyMetadata] at hfound
      | some r =>
          simp only [hread, Option.getD_some, Option.ite_none_right_eq_some, Option.some.injEq]
            at hfound
          rw [hfound.2]
  | store ip port hash data => cases hfound
  | fetch ip port hash => cases hfound
  | put ip port line => cases hfound

/-! ## The chunks of a download -/

/-- A chunk that has been downloaded is the answer to a fetch of its hash. -/
theorem fetch_of_downloadChunk {dht : ConsistentHash} {entry : Bytes × Nat}
    {t : List (Call × Bytes)} {chunk : Chunk}
    (h : Returns (downloadChunk dht entry) t (.ok chunk)) :
    ∃ ip port, (.fetch ip port entry.1, chunk.data) ∈ t ∧ chunk.data ≠ [] := by
  rcases returns_downloadChunk h with ⟨_, _, _, hfetch⟩
  rcases returns_firstSome_some hfetch with ⟨_, a, _, t₁, t₂, _, rfl, _, hnode⟩
  rcases (returns_fetchNode hnode).2 with ⟨_, hnone⟩ | ⟨ip, port, data, _, rfl, hdata⟩
  · cases hnone
  · by_cases hnil : data = []
    · rw [if_pos hnil] at hdata
      cases hdata
    · rw [if_neg hnil] at hdata
      cases hdata
      exact ⟨ip, port, List.mem_append_right _ (List.mem_singleton_self _), hnil⟩

/-- A download that has written something has read a record, and has written uploaded chunks, one
for each hash of the record. -/
theorem uploaded_of_reconstructed (hfetched : Fetched s) {p : Nat} {proc : Proc Job Report}
    {client : Client} {filename : Bytes} {pieces : List Bytes} {t : List (Call × Bytes)}
    (hp : s.procs p = some proc) (htrace : proc.trace = t)
    (h : Returns (client.downloadFile filename OutputFile.healthy) t (.reconstructed pieces)) :
    ∃ ip port line a record, (.lookup ip port line, a) ∈ t ∧
      readFound filename a = some record ∧
      (record.chunkHashes ≠ [] → List.Forall₂ (Uploaded s) record.chunkHashes pieces) := by
  rcases returns_bind.1 h with ⟨r, t₁, t₂, rfl, hlookup, hrest⟩
  cases r with
  | none => cases (returns_done.1 hrest).2
  | some record =>
      rcases lookup_of_firstRecord (returns_lookupMetadata hlookup).1 with
        ⟨ip, port, line, a, hmem, hread⟩
      refine ⟨ip, port, line, a, record, List.mem_append_left _ hmem, hread, fun hne => ?_⟩
      rcases returns_bind.1 hrest with ⟨e | chunks, u₁, u₂, rfl, hcollect, hdone⟩
      · cases (returns_done.1 hdone).2
      · have hchunks : List.Forall₂ (Collected s) record.chunkHashes.zipIdx chunks := by
          refine (returns_collect_ok hcollect).imp ?_
          rintro entry chunk ⟨v₁, v₂, v₃, rfl, hchunk⟩
          rcases fetch_of_downloadChunk hchunk with ⟨ip', port', hfetch, hnil⟩
          have hfetch' : (.fetch ip' port' entry.1, chunk.data) ∈ proc.trace := by
            rw [htrace]
            simp [hfetch]
          have hspec := returns_downloadChunk hchunk
          exact ⟨(hfetched p proc ip' port' entry.1 chunk.data hp hfetch').resolve_left hnil,
            hspec.2.1, hspec.2.2.1⟩
        rcases reconstruct_collected hne hchunks with ⟨hwritten, huploaded⟩
        simp only [hwritten, returns_done, DownloadReport.reconstructed.injEq] at hdone
        rw [hdone.2]
        exact huploaded

/-- An upload of the chunk is under way whose ring assigns the chunk to storage node `i`. -/
def Assigned (site : Site) (s : State Job Report) (i : Nat) (hash data : Bytes) : Prop :=
  ∃ p proc client file, s.procs p = some proc ∧ proc.job = .upload client file ∧
    (∃ chunk ∈ file.chunks, chunk.hash = hash ∧ chunk.data = data) ∧
    ∃ a ∈ client.dht.getNodesForKey hash 2, ∃ ip port, parseNodeAddr a = .endpoint ip port ∧
      site.storageAt ip port = some i

theorem Assigned.mono (hgrows : Grows s s') {i : Nat} {hash data : Bytes}
    (h : Assigned site s i hash data) : Assigned site s' i hash data := by
  rcases h with ⟨p, proc, client, file, hp, hjob, hchunk, hnode⟩
  rcases hgrows.process p proc hp with ⟨proc', hp', hsucc⟩
  exact ⟨p, proc', client, file, hp', hsucc.job.trans hjob, hchunk, hnode⟩

/-- A call that stores a chunk goes to a node to which the chunk is assigned. -/
theorem assigned_of_store (hcoherent : Coherent site Job.program nodes s) {p i : Nat}
    {proc : Proc Job Report} {ip hash data : Bytes} {port : Int}
    {next : Bytes → Program Call Bytes Report} (hp : s.procs p = some proc)
    (hcall : proc.program = .call (.store ip port hash data) next)
    (htarget : site.storageTarget (.store ip port hash data) = some i) :
    Assigned site s i hash data := by
  have hasks := hcoherent.asks hp hcall
  have haimed := ((hcoherent.process p proc hp).2.calls proc.job.aimed).1
  rw [hcall] at haimed
  rcases haimed.1 with ⟨a, ha, haddr⟩
  cases hjob : proc.job with
  | upload client file =>
      rw [hjob] at hasks ha
      rcases hasks with ⟨ip', port', chunk, hchunk, heq⟩ | ⟨ip', port', heq⟩
      · cases heq
        exact ⟨p, proc, client, file, hp, hjob, ⟨chunk, hchunk, rfl, rfl⟩, a, ha, ip, port, haddr,
          htarget⟩
      · cases heq
  | download client filename output =>
      rw [hjob] at hasks
      rcases hasks with ⟨ip', port', heq⟩ | ⟨ip', port', hash', _, heq⟩ <;> cases heq

/-- A step on a connection stores at most the chunk that the connection carries. -/
theorem Carries.stores {i : Nat} {c : Call} {conn conn' : Storage.Conn} {node : StorageNode}
    (h : Carries s i c conn)
    (hheld : ∀ hash data, (s.storage i).storage hash = some data → Uploaded s hash data)
    (hstep : conn.advance (s.storage i) = some (node, conn')) :
    node = s.storage i ∨ ∃ ip port hash data, c = .store ip port hash data ∧
      node = (s.storage i).store hash data := by
  cases h with
  | store ip port hash data acked _ hup hpos _ =>
      rcases hpos.advance hup.isWord hup.fits.ne_nil hstep with ⟨_, _, hnode, _⟩
      exact hnode.imp id fun heq => ⟨ip, port, hash, data, rfl, heq⟩
  | fetch ip port hash arrives _ hword hpos =>
      exact Or.inl (hpos.advance hword (fun data hdata =>
        ⟨(hheld hash data hdata).fits.ne_nil, hheld hash data hdata⟩) hstep).1

/-- Chunks lie, and are on their way, only where they are assigned to. -/
structure Placement (site : Site) (s : State Job Report) : Prop where
  held : ∀ i hash data, (s.storage i).storage hash = some data → Assigned site s i hash data
  orphaned : ∀ e ∈ s.orphans, ∃ c, Carries s e.1 c e.2 ∧
    ∀ ip port hash data, c = .store ip port hash data → Assigned site s e.1 hash data

theorem Placement.step (hcoherent : Coherent site Job.program nodes s) (hstocks : Stocks site s)
    (h : Placement site s) (hstep : Step site Job.program s l s') : Placement site s' where
  held := by
    have hgrows := hcoherent.grows hstep
    -- What a connection stores is assigned to its node.
    have hadvanced : ∀ {i : Nat} {c : Call} {conn conn' : Storage.Conn} {node : StorageNode},
        Carries s i c conn →
        (∀ ip port hash data, c = .store ip port hash data → Assigned site s i hash data) →
        conn.advance (s.storage i) = some (node, conn') →
        ∀ j hash data, (Function.update s.storage i node j).storage hash = some data →
          Assigned site s j hash data := by
      intro i c conn conn' node hcarries hassigned hadvance j hash data hdata
      by_cases hj : j = i
      · subst hj
        rw [Function.update_self] at hdata
        rcases hcarries.stores (hstocks.held j) hadvance with
          rfl | ⟨ip, port, hash', data', hc, rfl⟩
        · exact h.held j hash data hdata
        · rw [StorageNode.store_storage] at hdata
          by_cases hsame : hash = hash'
          · subst hsame
            rw [Function.update_self, Option.some.injEq] at hdata
            exact hdata ▸ hassigned ip port hash data' hc
          · rw [Function.update_of_ne hsame] at hdata
            exact h.held j hash data hdata
      · rw [Function.update_of_ne hj] at hdata
        exact h.held j hash data hdata
    intro j hash data hdata
    suffices hassigned : Assigned site s j hash data from hassigned.mono hgrows
    cases hstep with
    | transfer p proc i conn conn' node hp hlink hadvance =>
        rcases hstocks.linked p proc i conn hp hlink with ⟨c, next, hcall, htarget, hcarries⟩
        refine hadvanced hcarries ?_ hadvance j hash data hdata
        rintro ip port hash data rfl
        exact assigned_of_store hcoherent hp hcall htarget
    | late k i conn conn' node hk hadvance =>
        rcases h.orphaned _ (List.mem_of_getElem? hk) with ⟨c, hcarries, hassigned⟩
        exact hadvanced hcarries hassigned hadvance j hash data hdata
    | crash i =>
        refine h.held j hash data ?_
        by_cases hj : j = i
        · subst hj
          simpa using hdata
        · simpa [hj] using hdata
    | _ => exact h.held j hash data hdata
  orphaned := by
    have hgrows := hcoherent.grows hstep
    have hkeep : ∀ e ∈ s.orphans, ∃ c, Carries s' e.1 c e.2 ∧
        ∀ ip port hash data, c = .store ip port hash data → Assigned site s' e.1 hash data := by
      intro e he
      rcases h.orphaned e he with ⟨c, hcarries, hassigned⟩
      exact ⟨c, hcarries.mono hgrows,
        fun ip port hash data hc => (hassigned ip port hash data hc).mono hgrows⟩
    intro e he
    cases hstep with
    | finish p proc c next i conn a hp hlink _ _ =>
        rcases List.mem_append.1 he with he | he
        · exact hkeep e he
        · rcases hstocks.linked p proc i conn hp hlink with ⟨c', next', hcall, htarget, hcarries⟩
          rw [List.mem_singleton.1 he]
          refine ⟨c', hcarries.mono hgrows, ?_⟩
          rintro ip port hash data rfl
          exact (assigned_of_store hcoherent hp hcall htarget).mono hgrows
    | late k i conn conn' node hk hadvance =>
        rcases List.mem_or_eq_of_mem_set he with he | rfl
        · exact hkeep e he
        · rcases h.orphaned _ (List.mem_of_getElem? hk) with ⟨c, hcarries, hassigned⟩
          exact ⟨c, (hcarries.advance (hstocks.held i) hadvance).2 _ hgrows (by simp),
            fun ip port hash data hc => (hassigned ip port hash data hc).mono hgrows⟩
    | _ => exact hkeep e he

theorem Placement.run {P : State Job Report → Label Job → Prop}
    (h : Run (Cluster.step site Job.program) P (State.launch nodes) tr s) : Placement site s :=
  h.state_invariant ⟨by simp [State.launch, StorageNode.launch], by simp [State.launch]⟩
    fun _ _ _ _ hrun hI _ hs => hI.step (Coherent.run hrun) (Stocks.run hrun) (step_cases hs)

/-- Whatever fails, every chunk that a node holds is one of an upload whose ring assigns it to that
node; so among clients with one ring no chunk is ever on more than two nodes. -/
theorem chunks_lie_where_assigned (site : Site) (nodes : Nat → MetadataNode)
    (P : State Job Report → Label Job → Prop) (tr : List (State Job Report × Label Job))
    (s : State Job Report)
    (h : Run (Cluster.step site Job.program) P (State.launch nodes) tr s) :
    (∀ i hash data, (s.storage i).storage hash = some data → Assigned site s i hash data) ∧
    ∀ dht : ConsistentHash, (∀ p proc, s.procs p = some proc → proc.job.client.dht = dht) →
      ∀ hash (holders : List Nat), holders.Nodup →
        (∀ i ∈ holders, (s.storage i).storage hash ≠ none) → holders.length ≤ 2 := by
  have hplacement := Placement.run h
  refine ⟨hplacement.held, ?_⟩
  intro dht hdht hash holders hnodup hheld
  -- The nodes behind the addresses of the chunk are all there can be.
  let target (a : Bytes) : Option Nat :=
    match parseNodeAddr a with
    | .endpoint ip port => site.storageAt ip port
    | _ => none
  have hsubset : holders ⊆ (dht.getNodesForKey hash 2).filterMap target := by
    intro i hi
    rcases Option.ne_none_iff_exists'.1 (hheld i hi) with ⟨data, hdata⟩
    rcases hplacement.held i hash data hdata with
      ⟨p, proc, client, file, hp, hjob, _, a, ha, ip, port, haddr, hstorage⟩
    have hclient := hdht p proc hp
    rw [hjob] at hclient
    refine List.mem_filterMap.2 ⟨a, hclient ▸ ha, ?_⟩
    simp only [target, haddr, hstorage]
  have hlength : (dht.getNodesForKey hash 2).length ≤ 2 := by
    rw [ConsistentHash.getNodesForKey_eq, List.length_take]
    exact min_le_left _ _
  calc holders.length ≤ ((dht.getNodesForKey hash 2).filterMap target).length :=
        (hnodup.subperm hsubset).length_le
    _ ≤ (dht.getNodesForKey hash 2).length := List.length_filterMap_le _ _
    _ ≤ 2 := hlength

/-- After the upload and the download the chunk lies on the first node, the second being down. -/
theorem chunks_lie_where_assigned_abc :
    Assigned (localSite 1) abcDownloaded.2 0 (computeSHA256 (ascii "abc")) (ascii "abc") ∧
    ∀ hash (holders : List Nat), holders.Nodup →
      (∀ i ∈ holders, (abcDownloaded.2.storage i).storage hash ≠ none) → holders.length ≤ 2 := by
  have hrun := run_abcUploaded.trans run_abcDownloaded
  have hheld : (abcDownloaded.2.storage 0).storage (computeSHA256 (ascii "abc")) =
      some (ascii "abc") := by
    decide +kernel
  have h := chunks_lie_where_assigned (localSite 1) (localNodes 1) _ _ _ hrun
  refine ⟨h.1 _ _ _ hheld, h.2 localClient.dht ?_⟩
  intro p proc hp
  rcases AbcRun.job hrun hp with heq | heq
  · rw [heq]
    rfl
  · rw [heq]
    rfl

/-! ## What stays -/

/-- Between two states of a run, nothing that is held or uploaded is lost. -/
structure Remains (s₁ s : State Job Report) : Prop where
  held : ∀ i, Kept (s₁.storage i) (s.storage i)
  uploaded : ∀ hash data, Uploaded s₁ hash data → Uploaded s hash data

theorem Remains.run {P P' : State Job Report → Label Job → Prop} {s₁ : State Job Report}
    {tr' : List (State Job Report × Label Job)}
    (h : Run (Cluster.step site Job.program) P (State.launch nodes) tr s₁)
    (h' : Run (Cluster.step site Job.program) P' s₁ tr' s) : Remains s₁ s := by
  refine h'.state_invariant (I := Remains s₁) ⟨fun i => Kept.refl _, fun _ _ hup => hup⟩ ?_
  intro tr₁ t l t' hrun hremains _ hs
  have hcoherent := Coherent.run (h.append hrun)
  have hgrows := hcoherent.grows (step_cases hs)
  refine ⟨fun i => ⟨?_, ?_⟩, fun hash data hup => (hremains.uploaded hash data hup).mono hgrows⟩
  · exact fun hash hheld => (hgrows.storage i).held hash ((hremains.held i).held hash hheld)
  · exact fun hrunning => (hremains.held i).running ((hgrows.storage i).running hrunning)

/-- A chunk that a process has stored is one of its upload. -/
theorem uploaded_of_stored (hcoherent : Coherent site Job.program nodes s) {p : Nat}
    {proc : Proc Job Report} (hp : s.procs p = some proc) {ip hash data a : Bytes} {port : Int}
    (hmem : (.store ip port hash data, a) ∈ proc.trace) : Uploaded s hash data := by
  have hasks := ((hcoherent.process p proc hp).2.calls proc.job.calls).2 _ hmem
  cases hjob : proc.job with
  | upload client file =>
      rw [hjob] at hasks
      rcases hasks with ⟨ip', port', chunk, hchunk, heq⟩ | ⟨ip', port', heq⟩
      · cases heq
        exact ⟨p, proc, client, file, hp, hjob, chunk, hchunk, rfl, rfl⟩
      · cases heq
  | download client filename output =>
      rw [hjob] at hasks
      rcases hasks with ⟨ip', port', heq⟩ | ⟨ip', port', hash', _, heq⟩ <;> cases heq

end

end Cluster
end Dfs
