import Dfs.Client.PutLine
import Dfs.Cluster.Stocks
import Dfs.Common.Chunking

/-!
# No record lists a chunk that was never stored

An upload sends its record only when every chunk of it is placed, and nothing that is stored goes
away, so the hashes of a record are found where its reader will look for them.  The line that
carries the record has to arrive in one piece for that: `no_dangling_metadata` is about uploads
whose line is short enough for the length of a frame, and `oversized_line_dangles` is one whose line
is not.
-/

namespace Dfs
namespace Cluster

open Bytes TextScan Network Common Client Storage Dht Metadata Program

/-- Clients share one storage-node list, and upload under whitespace-free names. -/
def Uploads (dht : ConsistentHash) : Label Job → Prop
  | .start (.upload client file) =>
      client.dht = dht ∧ ∀ b ∈ baseName file.path, isSpace b = false
  | .start (.download client _ _) => client.dht = dht
  | _ => True

/-- The line of a job fits the length of a frame. -/
def InOneFrame : Label Job → Prop
  | .start job => job.line.length < 2 ^ 32
  | _ => True

/-- One of the nodes on which the chunk belongs holds it. -/
def Placed (site : Site) (dht : ConsistentHash) (s : State Job Report) (hash : Bytes) : Prop :=
  ∃ a ∈ dht.getNodesForKey hash 2, ∃ ip port i, parseNodeAddr a = .endpoint ip port ∧
    site.storageAt ip port = some i ∧ (s.storage i).storage hash ≠ none

/-- What metadata nodes hold, they hold for an upload that has placed its chunks. -/
structure NoDangling (site : Site) (dht : ConsistentHash) (nodes : Nat → MetadataNode)
    (s : State Job Report) : Prop where
  placed : ∀ v filename record, (s.chain.nodes v).metadataStore filename = some record →
    ∀ hash ∈ record.chunkHashes, Placed site dht s hash
  sound : ∀ i hash data, (s.storage i).storage hash = some data → computeSHA256 data = hash
  logged : ∀ v filename, (s.chain.nodes v).metadataStore filename =
    storedAt nodes s.chain.log v filename
  source : ∀ e ∈ s.chain.log, ∃ p proc client file, s.owner e.origin = some p ∧
    s.procs p = some proc ∧ proc.job = .upload client file ∧
    e.record.chunkHashes = file.hashes ∧ Stocked client file proc.trace
  failed : ∀ p proc i, s.procs p = some proc →
    proc.program = .done (.uploaded (.chunkFailed i)) → ∀ e ∈ s.chain.log, s.owner e.origin ≠ some p

/-! ## The commands on the chain -/

section

variable {site : Site} {dht : ConsistentHash} {nodes : Nat → MetadataNode}
  {s s' : State Job Report} {l : Label Job}

/-- What every process that has been started satisfies. -/
theorem jobs_of_run {J ρ : Type} {program : J → Program Call Bytes ρ} {s : State J ρ} {Q : J → Prop}
    {P : State J ρ → Label J → Prop} (hP : ∀ s job, P s (.start job) → Q job)
    {tr : List (State J ρ × Label J)}
    (h : Run (step site program) P (State.launch nodes) tr s) :
    ∀ p proc, s.procs p = some proc → Q proc.job := by
  refine h.state_invariant (I := fun s => ∀ p proc, s.procs p = some proc → Q proc.job)
    (by simp [State.launch]) ?_
  intro tr s l s' _ hjobs hl hs p proc hp
  rcases (step_cases hs).process hp with ⟨job, rfl, rfl, rfl⟩ | ⟨proc', hp', hacts⟩
  · exact hP s job hl
  · rw [hacts.succeeds.job]
    exact hjobs p proc' hp'

/-- Requests arrive as they were sent. -/
structure Requests (s : State Job Report) : Prop where
  leftover : ∀ id, s.leftover id = []
  command : ∀ id c, s.chain.conns id = some c → c.parent = none →
    (∃ p proc, s.owner id = some p ∧ s.procs p = some proc ∧ c.command = proc.job.line) ∨
      ∀ r, request c.command ≠ some (.put r)

theorem line_of_asks {job : Job} {c : Call} {v : Nat} {line : Bytes} (hasks : job.Asks c)
    (htarget : site.metadataTarget c = some (v, line)) : line = job.line := by
  have hput : ∀ ip port sent, site.metadataTarget (.put ip port sent) = some (v, line) →
      line = sent := by
    intro ip port sent h
    rcases Option.map_eq_some_iff.1 h with ⟨w, _, heq⟩
    exact (congrArg Prod.snd heq).symm
  cases job with
  | upload client file =>
      rcases hasks with ⟨ip, port, chunk, _, rfl⟩ | ⟨ip, port, rfl⟩
      · cases htarget
      · exact hput ip port _ htarget
  | download client filename output =>
      rcases hasks with ⟨ip, port, rfl⟩ | ⟨ip, port, hash, _, rfl⟩
      · exact hput ip port _ htarget
      · cases htarget

theorem requests_launch : Requests (State.launch nodes) where
  leftover := by simp [State.launch]
  command := by simp [State.launch, Chain.launch]

theorem Requests.step (hcoherent : Coherent site Job.program nodes s) (h : Requests s)
    (hfits : ∀ p proc, s.procs p = some proc → proc.job.line.length < 2 ^ 32)
    (hstep : Step site Job.program s l s') : Requests s' := by
  have hgrows := hcoherent.grows hstep
  -- A command from before is still that of its process.
  have hkeep : ∀ k c, s.chain.conns k = some c → c.parent = none →
      (∃ p proc, s'.owner k = some p ∧ s'.procs p = some proc ∧ c.command = proc.job.line) ∨
        ∀ r, request c.command ≠ some (.put r) := by
    intro k c hc hparent
    refine (h.command k c hc hparent).imp ?_ id
    rintro ⟨p, proc, howner, hp, hcommand⟩
    rcases hgrows.process p proc hp with ⟨proc', hp', hsucc⟩
    exact ⟨p, proc', hgrows.owner k p howner, hp', hcommand.trans (hsucc.job ▸ rfl)⟩
  cases hstep with
  | dialMetadata p proc c next v line chain hp hlink hcall htarget hchain =>
      have hline := line_of_asks (hcoherent.asks hp hcall) htarget
      have hlength : line.length < 2 ^ 32 := hline ▸ hfits p proc hp
      refine ⟨?_, ?_⟩
      · intro id
        by_cases hid : id = s.chain.opened
        · simp [dial, hid, laterBytes_of_lt hlength]
        · simpa [dial, hid] using h.leftover id
      · intro id c' hc' hparent
        rcases (Chain.step_cases hchain).conn hc' with ⟨rfl, hopens⟩ | ⟨d, hd, _, hcommand, hp', _⟩
        · cases hopens
          refine Or.inl ⟨p, proc.setLink (.metadata s.chain.opened), by simp [dial],
            by simp [dial], ?_⟩
          rw [firstFrame_of_lt hlength, hline]
          rfl
        · rw [hcommand]
          exact hkeep id d hd (hp' ▸ hparent)
  | hear p proc c next id conn reply chain hp hlink hcall hconn hreply hchain =>
      refine ⟨h.leftover, ?_⟩
      intro k c' hc' hparent
      rcases (Chain.step_cases hchain).conn hc' with ⟨_, hopens⟩ | ⟨d, hd, _, hcommand, hp', _⟩
      · cases hopens
      · rw [hcommand]
        exact hkeep k d hd (hp' ▸ hparent)
  | chain lc chain hinternal hchain =>
      refine ⟨h.leftover, ?_⟩
      intro k c' hc' hparent
      rcases (Chain.step_cases hchain).conn hc' with ⟨_, hopens⟩ | ⟨d, hd, _, hcommand, hp', _⟩
      · cases hopens with
        | client => cases hinternal
        | forward => cases hparent
        | notice v node message w _ hnext => exact Or.inr (MetadataNode.request_notice hnext)
      · rw [hcommand]
        exact hkeep k d hd (hp' ▸ hparent)
  | nextFrame id conn chain _ hleft _ => exact absurd (h.leftover id) hleft
  | _ => exact ⟨h.leftover, hkeep⟩

theorem Requests.run {P : State Job Report → Label Job → Prop}
    (hP : ∀ s l, P s l → InOneFrame l) {tr : List (State Job Report × Label Job)}
    (h : Run (Cluster.step site Job.program) P (State.launch nodes) tr s) : Requests s :=
  h.state_invariant requests_launch fun _ _ _ _ hrun hI _ hs =>
    hI.step (Coherent.run hrun) (jobs_of_run (fun s job hjob => hP s (.start job) hjob) hrun)
      (step_cases hs)

/-! ## The records -/

/-- What a metadata node makes of the line of an upload lists the hashes of its chunks. -/
theorem chunkHashes_of_upload {file : LocalFile} {record : FileMetadata}
    (hname : ∀ b ∈ baseName file.path, isSpace b = false) (hne : file.chunks ≠ [])
    (h : MetadataNode.parsePut (putLine file.record) = some record) :
    record.chunkHashes = file.hashes := by
  exact chunkHashes_parsePut (fun name hword => file.wellFormed_record hne hword) hname h

theorem not_isStore_of_toMetadata {c : Call} (h : ToMetadata c) : ¬ c.IsStore := by
  cases c <;> simp_all [ToMetadata, Call.IsPut, Call.IsLookup, Call.IsStore]

/-- The upload behind an entry of the log. -/
theorem source_of_log (hcoherent : Coherent site Job.program nodes s) (h : Requests s)
    {e : Applied} (he : e ∈ s.chain.log) :
    ∃ p proc client file, s.owner e.origin = some p ∧ s.procs p = some proc ∧
      proc.job = .upload client file ∧
      MetadataNode.parsePut (putLine file.record) = some e.record ∧
      Stocked client file proc.trace ∧
      ∀ i, proc.program ≠ .done (.uploaded (.chunkFailed i)) := by
  rcases hcoherent.chain.source e he with ⟨id, c, hc, _, horigin, _, hput⟩
  rcases hcoherent.chain.root id c hc with ⟨cr, hcr, hparent, hcommand⟩
  rw [horigin] at hcr
  rw [← hcommand] at hput
  rcases h.command e.origin cr hcr hparent with ⟨p, proc, howner, hp, hline⟩ | hnone
  · rw [hline] at hput
    have hparse := ((request_eq_put (nodes 0)).1 hput).2
    rcases (hcoherent.owned e.origin p howner).2 with ⟨proc', hp', hturned⟩
    cases hp.symm.trans hp'
    cases hjob : proc.job with
    | upload client file =>
        have hfollows := (hcoherent.process p proc hp).2
        rw [hjob] at hfollows hparse
        rcases stocked_of_put hfollows (hturned.imp
          (fun ⟨d, hd, hmeta⟩ => ⟨d, hd, not_isStore_of_toMetadata hmeta⟩)
          fun ⟨c, next, hcall, hmeta⟩ => ⟨c, next, hcall, not_isStore_of_toMetadata hmeta⟩) with
          ⟨hstocked, hreport⟩
        exact ⟨p, proc, client, file, howner, hp, hjob, hparse, hstocked, hreport⟩
    | download client filename output =>
        -- The line of a download is a `GET`.
        rw [hjob] at hput
        rcases MetadataNode.dispatch_eq_put.1 ((request_eq_put (nodes 0)).1 hput).1 with
          ⟨rest, hword⟩
        have hword' : IsWord (ascii "GET") := by decide +kernel
        have hget : readWord (getLine filename) = some (ascii "GET", 32 :: filename) :=
          readWord_append_space hword'
        have hne : ascii "GET" ≠ ascii "PUT" := by decide
        exact absurd (congrArg Prod.fst (Option.some.inj (hget.symm.trans hword))) hne
  · exact absurd hput (hnone e.record)

/-- As long as every request fits one frame: every hash in a record is stored on one of its nodes,
every node holds under a hash only data with that hash, and the records are those of uploads that
have placed every chunk; an upload that has failed to place one has changed none. -/
theorem no_dangling_metadata (site : Site) (dht : ConsistentHash) (nodes : Nat → MetadataNode)
    (hempty : ∀ v filename, (nodes v).metadataStore filename = none)
    (tr : List (State Job Report × Label Job)) (s : State Job Report)
    (h : Run (Cluster.step site Job.program) (fun _ l => Uploads dht l ∧ InOneFrame l)
      (State.launch nodes) tr s) : NoDangling site dht nodes s := by
  have hcoherent := Coherent.run h
  have hstocks := Stocks.run h
  have hrequests := Requests.run (fun _ _ hl => hl.2) h
  have hjobs := jobs_of_run (Q := fun job => Uploads dht (.start job))
    (fun _ _ hl => hl.1) h
  have hsource : ∀ e ∈ s.chain.log, ∃ p proc client file, s.owner e.origin = some p ∧
      s.procs p = some proc ∧ proc.job = .upload client file ∧
      e.record.chunkHashes = file.hashes ∧ Stocked client file proc.trace ∧
      ∀ i, proc.program ≠ .done (.uploaded (.chunkFailed i)) := by
    intro e he
    rcases source_of_log hcoherent hrequests he with
      ⟨p, proc, client, file, howner, hp, hjob, hparse, hstocked, hreport⟩
    have hname := hjobs p proc hp
    rw [hjob] at hname
    exact ⟨p, proc, client, file, howner, hp, hjob,
      chunkHashes_of_upload hname.2 hstocked.1 hparse, hstocked, hreport⟩
  refine ⟨?_, fun i hash data hdata => (hstocks.held i hash data hdata).fits.hash_eq,
    hcoherent.chain.store, ?_, ?_⟩
  · intro v filename record hrecord hash hhash
    -- The record is that of an entry of the log, and its upload has placed every chunk.
    rcases hcoherent.chain.stored hrecord with hlaunch | ⟨e, hlast, rfl⟩
    · cases (hempty v filename).symm.trans hlaunch
    · rcases hsource e (lastWrite_eq_some hlast).1 with
        ⟨p, proc, client, file, _, hp, hjob, hhashes, hstocked, _⟩
      have hdht := hjobs p proc hp
      rw [hjob] at hdht
      rw [hhashes] at hhash
      rcases List.mem_map.1 hhash with ⟨chunk, hchunk, rfl⟩
      rcases hstocked.acked hchunk with ⟨a, ha, ip, port, haddr, hacked⟩
      rcases hstocks.acked p proc ip port chunk.hash chunk.data hp hacked with ⟨i, hi, hheld⟩
      exact ⟨a, hdht.1 ▸ ha, ip, port, i, haddr, hi, hheld⟩
  · intro e he
    rcases hsource e he with ⟨p, proc, client, file, howner, hp, hjob, hhashes, hstocked, _⟩
    exact ⟨p, proc, client, file, howner, hp, hjob, hhashes, hstocked⟩
  · intro p proc i hp hfailed e he howner
    rcases hsource e he with ⟨p', proc', client, file, howner', hp', _, _, _, hreport⟩
    cases howner.symm.trans howner'
    cases hp.symm.trans hp'
    exact hreport i hfailed

end

def localSite (n : Nat) : Site where
  storageAt := fun _ port => if port = 8001 then some 0 else if port = 8002 then some 1 else none
  net := localNet n

def abcUpload : List (Label Job) :=
  [.start (.upload localClient abcFile), .connect 0, .transfer 0, .transfer 0, .transfer 0,
    .transfer 0, .transfer 0, .finish 0, .refuse 0, .connect 0, .chain (.serve 0),
    .chain (.serve 0), .finish 0]

/-- One upload on one storage node and one metadata node, the second replica refused. -/
theorem no_dangling_metadata_abc :
    let run := Run.replayed (step (localSite 1) Job.program) (State.launch (localNodes 1)) abcUpload
    ∃ record, (run.2.chain.nodes 0).metadataStore (ascii "abc.txt") = some record ∧
      ∀ hash ∈ record.chunkHashes, Placed (localSite 1) localClient.dht run.2 hash := by
  intro run
  have hrun : Run (step (localSite 1) Job.program)
      (fun _ l => Uploads localClient.dht l ∧ InOneFrame l) (State.launch (localNodes 1)) run.1
      run.2 := by
    refine Run.of_labels (L := fun l => Uploads localClient.dht l ∧ InOneFrame l) (by decide +kernel) ?_
      fun _ _ hl => hl
    intro l hl
    rcases List.mem_cons.1 hl with rfl | hl
    · have hline : (putLine abcFile.record).length < 2 ^ 32 := by decide +kernel
      exact ⟨⟨rfl, by decide +kernel⟩, hline⟩
    · simp only [List.mem_cons, List.not_mem_nil, or_false] at hl
      rcases hl with rfl | rfl | rfl | rfl | rfl | rfl | rfl | rfl | rfl | rfl | rfl | rfl <;>
        exact ⟨trivial, trivial⟩
  have hsome : ((run.2.chain.nodes 0).metadataStore (ascii "abc.txt")).isSome = true := by
    decide +kernel
  rcases Option.isSome_iff_exists.1 hsome with ⟨record, hrecord⟩
  exact ⟨record, hrecord, (no_dangling_metadata (localSite 1) localClient.dht (localNodes 1)
    (fun v filename => by rw [store_localNodes]) run.1 run.2 hrun).placed 0 _ record hrecord⟩

/-! ## An overlong line -/

section OneNode

variable {site : Site} {dht : ConsistentHash} {P : State Job Report → Label Job → Prop}
  {nodeAddr ip : Bytes} {port : Int} {i p : Nat}
  (haddr : parseNodeAddr nodeAddr = .endpoint ip port) (hi : site.storageAt ip port = some i)
include haddr

theorem uploadChunk_one {chunk : Chunk} (hnodes : dht.getNodesForKey chunk.hash 2 = [nodeAddr])
    (k : Except Int Unit → Program Call Bytes Report) :
    ∃ next, (uploadChunk dht chunk).bind k = .call (.store ip port chunk.hash chunk.data) next ∧
      next (ascii "ACK") = k (.ok ()) := by
  refine ⟨fun response => k (if response = ascii "ACK" then .ok () else .error chunk.index), ?_,
    by simp⟩
  simp only [uploadChunk, replicationFactor, hnodes, replicate, uploadChunkToNode, onNode, haddr,
    Program.bind, Program.call.injEq, true_and]
  funext response
  by_cases hack : response = ascii "ACK" <;> simp [hack]

include hi

/-- All chunks of a file are uploaded to the one node there is. -/
theorem run_uploadChunks (hP : ∀ s, P s (.connect p) ∧ P s (.transfer p) ∧ P s (.finish p))
    (hnodes : ∀ key, dht.getNodesForKey key 2 = [nodeAddr]) (chunks : List Chunk)
    (hchunks : ∀ chunk ∈ chunks, IsWord chunk.hash ∧ chunk.data ≠ [])
    {k : Except Int (List Unit) → Program Call Bytes Report} {s : State Job Report}
    {proc : Proc Job Report} (hp : s.procs p = some proc) (hlink : proc.link = .idle)
    (hprogram : proc.program = (collect (uploadChunk dht) chunks).bind k)
    (hrun : (s.storage i).running = true) :
    ∃ tr s' proc' done, Run (step site Job.program) P s tr s' ∧ s'.procs p = some proc' ∧
      proc'.link = .idle ∧ proc'.program = k (.ok done) ∧ proc'.job = proc.job ∧
      s'.chain = s.chain ∧ s'.leftover = s.leftover := by
  induction chunks generalizing s proc k with
  | nil => exact ⟨[], s, proc, [], .start, hp, hlink, hprogram, rfl, rfl, rfl⟩
  | cons chunk chunks ih =>
      have hchunk := hchunks chunk (by simp)
      simp only [collect, bind_assoc] at hprogram
      rcases uploadChunk_one haddr (hnodes chunk.hash) _ with ⟨next, hcall, hnext⟩
      rw [hcall] at hprogram
      rcases @run_call Job Report site Job.program s p proc P hP _ _ _ _ _ _ hp hlink hprogram hi hrun
        (advanceBy_storeConv hrun hchunk.1 hchunk.2) rfl with
        ⟨tr, s₁, proc₁, hfirst, hp₁, hlink₁, hprogram₁, hjob₁, hstorage₁, hchain₁, hleft₁⟩
      rw [hnext] at hprogram₁
      have hrun₁ : (s₁.storage i).running = true := by simp [hstorage₁, hrun]
      rcases ih (fun c hc => hchunks c (by simp [hc])) hp₁ hlink₁ (by rw [hprogram₁, bind_assoc]) hrun₁ with
        ⟨tr', s', proc', done, hrest, hp', hlink', hprogram', hjob', hchain', hleft'⟩
      exact ⟨_, s', proc', _, hfirst.trans hrest, hp', hlink', by simpa [Program.bind, Except.map] using hprogram', hjob'.trans hjob₁, hchain'.trans hchain₁,
        hleft'.trans hleft₁⟩
end OneNode

def hugeClient : Client :=
  Client.make [ascii "127.0.0.1:8001"] [ascii "127.0.0.1:9001"]

/-- Full chunks so many that the line ends `2 ^ 32` bytes after the third byte of the first hash. -/
@[irreducible] def hugeContent : Bytes :=
  List.replicate (66076420 * CHUNK_SIZE) 0

def hugeFile : LocalFile :=
  { path := ascii "huge"
    stream := some (IFStream.ofContent hugeContent)
    size := 69286148177920
    size_range := by decide }

theorem length_hugeFile : hugeFile.chunks.length = 66076420 := by
  have hcontent : hugeContent.length = 66076420 * CHUNK_SIZE := by
    rw [hugeContent, List.length_replicate]
  rw [LocalFile.chunks, hashAllChunks, List.length_map]
  exact length_split hcontent

/-- The record that the first frame of an overlong line describes. -/
def cutRecord (file : LocalFile) : FileMetadata :=
  { file.record with chunkHashes := [(file.hashes.headD []).take 3] }

/-- With this many chunks the line is `2 ^ 32` and `3` bytes longer than what precedes the hashes. -/
theorem length_putLine_record {file : LocalFile} (hpath : file.path = ascii "huge")
    (hsize : file.size = 69286148177920) (hchunks : file.chunks.length = 66076420) :
    (putLine { file.record with chunkHashes := [] }).length = 106 ∧
      (putLine file.record).length = 106 + (2 ^ 32 + 3) := by
  have hroot : (computeRootHash file.hashes).length = 64 := (isHash_sha256 _).length_eq
  have hname : (baseName (ascii "huge")).length = 4 := by decide
  have hshow : (showInt 69286148177920).length = 14 := by decide +kernel
  have hchunk : (showInt (CHUNK_SIZE : Int)).length = 7 := by decide +kernel
  have htotal : (showInt (toInt32 ((66076420 : Nat) : Int))).length = 8 := by decide +kernel
  have hput : (ascii "PUT ").length = 4 := by decide
  have hspace : (ascii " ").length = 1 := by decide
  have hhashes : file.hashes.length = 66076420 := by
    rw [LocalFile.hashes, List.length_map, hchunks]
  have hne : file.hashes ≠ [] := by
    intro hnil
    rw [hnil] at hhashes
    cases hhashes
  have hjoin := @length_joinItems 44 64 file.hashes hne fun hash hh => length_mem_hashes hh
  rw [hhashes] at hjoin
  have hhead : (putLine { file.record with chunkHashes := [] }).length = 106 := by
    simp only [putLine, showFields, LocalFile.record, uploadRecord, hpath, hsize, hchunks,
      List.length_append, hput, hspace, hroot, hchunk, htotal, hname, hshow, joinItems,
      List.intercalate_nil, List.length_nil]
  refine ⟨hhead, ?_⟩
  have hline : putLine file.record = putLine { file.record with chunkHashes := [] } ++
      joinItems 44 file.hashes := by
    simp [putLine, showFields, joinItems, LocalFile.record, uploadRecord, LocalFile.hashes]
  rw [hline, List.length_append, hhead]
  omega

theorem firstFrame_record {file : LocalFile} (hpath : file.path = ascii "huge")
    (hsize : file.size = 69286148177920) (hchunks : file.chunks.length = 66076420) :
    firstFrame (putLine file.record) = putLine (cutRecord file) := by
  rcases length_putLine_record hpath hsize hchunks with ⟨hhead, hline⟩
  cases hhashes : file.hashes with
  | nil =>
      have hlength : file.hashes.length = 66076420 := by
        rw [LocalFile.hashes, List.length_map, hchunks]
      rw [hhashes] at hlength
      cases hlength
  | cons hash hashes =>
      have hwidth : hash.length = 64 := length_mem_hashes (hhashes ▸ List.mem_cons_self ..)
      have hcut := @firstFrame_putLine file.record 3 hash hashes hhashes (by omega)
        (by rw [hline, hhead]; rfl)
      rw [hcut, cutRecord, hhashes, List.headD_cons]

theorem wellFormed_cutRecord {file : LocalFile} (hpath : file.path = ascii "huge")
    (hne : file.chunks ≠ []) : WellFormed (cutRecord file) := by
  have hname : baseName (ascii "huge") = ascii "huge" := by decide
  have hrecord : file.record.filename = ascii "huge" := by
    rw [LocalFile.record, uploadRecord, hpath, hname]
  have hfull := file.wellFormed_record hne (by decide +kernel : IsWord (ascii "huge"))
  rw [← hrecord] at hfull
  refine ⟨hfull.filename, hfull.rootHash, hfull.fileSize, hfull.chunkSize, hfull.totalChunks,
    by simp [cutRecord], ?_⟩
  intro h hh
  rw [cutRecord, List.mem_singleton] at hh
  subst hh
  cases hhashes : file.hashes with
  | nil => exact absurd (List.map_eq_nil_iff.1 hhashes) hne
  | cons hash hashes =>
      have hmem : hash ∈ file.record.chunkHashes := by
        show hash ∈ file.hashes
        rw [hhashes]
        exact List.mem_cons_self ..
      have hword := hfull.chunkHash hash hmem
      have hwidth : hash.length = 64 := length_mem_hashes hmem
      rw [List.headD_cons]
      refine ⟨⟨?_, fun b hb => hword.1.solid b (List.mem_of_mem_take hb)⟩,
        fun hb => hword.2 (List.mem_of_mem_take hb)⟩
      intro hnil
      have hthree := congrArg List.length hnil
      rw [List.length_take, hwidth] at hthree
      cases hthree

/-- The upload of such a file, the first frame of whose line the metadata node stores. -/
theorem run_cut {file : LocalFile} (hpath : file.path = ascii "huge")
    (hsize : file.size = 69286148177920) (hchunks : file.chunks.length = 66076420) :
    ∃ tr s, Run (Cluster.step (localSite 1) Job.program) (fun _ l => Uploads hugeClient.dht l)
        (State.launch (localNodes 1)) tr s ∧
      (s.chain.nodes 0).metadataStore (ascii "huge") = some (cutRecord file) := by
  have haddr : parseNodeAddr (ascii "127.0.0.1:8001") = .endpoint (ascii "127.0.0.1") 8001 := by
    decide +kernel
  have hmeta : parseNodeAddr (ascii "127.0.0.1:9001") = .endpoint (ascii "127.0.0.1") 9001 := by
    decide +kernel
  have hnodes : hugeClient.dht.getAllNodes = [ascii "127.0.0.1:8001"] := by decide +kernel
  have hne : file.chunks ≠ [] := by
    intro hnil
    rw [hnil] at hchunks
    cases hchunks
  have hstart : Uploads hugeClient.dht (.start (.upload hugeClient file)) :=
    ⟨rfl, by rw [hpath]; decide +kernel⟩
  let proc₀ : Proc Job Report :=
    { job := .upload hugeClient file
      program := Job.program (.upload hugeClient file)
      trace := []
      link := .idle }
  let s₀ : State Job Report :=
    { (State.launch (localNodes 1)).setProc 0 proc₀ with started := 1 }
  have hfirst : step (localSite 1) Job.program (State.launch (localNodes 1))
      (.start (.upload hugeClient file)) = some s₀ := rfl
  have hp₀ : s₀.procs 0 = some proc₀ := by simp [s₀]
  -- All chunks go to the one storage node.
  have hwords : ∀ chunk ∈ file.chunks, IsWord chunk.hash ∧ chunk.data ≠ [] := by
    intro chunk hchunk
    have hspec := LocalFile.mem_chunks hchunk
    exact ⟨hspec.2 ▸ (isHash_sha256 _).isWord, hspec.1.data_ne_nil⟩
  rcases @run_uploadChunks (localSite 1) hugeClient.dht (fun _ l => Uploads hugeClient.dht l)
    (ascii "127.0.0.1:8001") (ascii "127.0.0.1") 8001 0 0 haddr (by simp [localSite])
    (fun _ => ⟨trivial, trivial, trivial⟩) (fun key => ConsistentHash.getNodesForKey_single hnodes key)
    file.chunks hwords (afterChunks hugeClient file) s₀ proc₀ hp₀ rfl
    (program_upload hne) rfl with
    ⟨tr, s, proc, done, hrun, hp, hlink, hprogram, hjob, hchain, hleft⟩
  have hlist : hugeClient.metadataNodes = [ascii "127.0.0.1:9001"] := rfl
  have hcall : ∃ next, proc.program =
      .call (.put (ascii "127.0.0.1") 9001 (putLine file.record)) next := by
    rw [hprogram]
    simp only [afterChunks, putMetadata, hlist, firstSome, putMetadataToNode, onNode, hmeta,
      Program.bind]
    exact ⟨_, rfl⟩
  rcases hcall with ⟨next, hcall⟩
  -- The connection to the metadata node delivers the first frame of the line.
  have htarget : (localSite 1).metadataTarget (.put (ascii "127.0.0.1") 9001 (putLine file.record)) =
      some (0, putLine file.record) := rfl
  have hframe := firstFrame_record hpath hsize hchunks
  have hfits : (putLine (cutRecord file)).length < 2 ^ 32 := by
    rw [← hframe]
    exact length_firstFrame_lt _
  let conn : Metadata.Conn :=
    { node := 0
      command := putLine (cutRecord file)
      parent := none
      origin := 0
      phase := .received
      lost := false }
  have hchain₀ : s.chain = Chain.launch (localNodes 1) := hchain
  have hdial : Chain.step (localSite 1).net s.chain (.connect 0 (firstFrame (putLine file.record))) =
      some ((Chain.launch (localNodes 1)).addConn conn) := by
    rw [hchain₀, hframe, Chain.step, if_pos ⟨by decide, rfl, hfits⟩]
    rfl
  have hconnect := @step_dial Job Report (localSite 1) Job.program _ _ _ _ _ _ _ _ hp hlink hcall
    htarget hdial
  let s₁ := dial s 0 proc (putLine file.record) ((Chain.launch (localNodes 1)).addConn conn)
  have hstored := @Chain.step_storeRecord (localSite 1).net s₁.chain 0 conn (cutRecord file) rfl rfl rfl
    (MetadataNode.dispatch_eq_put.2 ⟨_, readWord_putLine _⟩)
    (parsePut_putLine (wellFormed_cutRecord hpath hne))
  have hserve : step (localSite 1) Job.program s₁ (.chain (.serve 0)) =
      some { s₁ with chain := s₁.chain.storeRecord 0 conn (cutRecord file) } := by
    simp only [step, internal, if_true, hstored, Option.map_some]
  have hfilename : (cutRecord file).filename = ascii "huge" := by
    have hname : baseName (ascii "huge") = ascii "huge" := by decide
    rw [cutRecord, LocalFile.record, uploadRecord, hpath, hname]
  have hlaunch : Run (Cluster.step (localSite 1) Job.program)
      (fun _ l => Uploads hugeClient.dht l) (State.launch (localNodes 1)) _ s₀ :=
    Run.start.next _ _ hstart hfirst
  have hall := hlaunch.trans hrun
  refine ⟨_, _, (hall.next (.connect 0) _ trivial hconnect).next (.chain (.serve 0)) _ trivial hserve,
    ?_⟩
  simp [Chain.storeRecord, conn, hfilename]

/-- A file of `66076420` full chunks, uploaded to one storage node: its record ends up with a hash
of three characters, and nothing is stored under that. -/
theorem oversized_line_dangles :
    ∃ tr s, Run (Cluster.step (localSite 1) Job.program) (fun _ l => Uploads hugeClient.dht l)
        (State.launch (localNodes 1)) tr s ∧
      ∃ record, (s.chain.nodes 0).metadataStore (ascii "huge") = some record ∧
        ∃ hash ∈ record.chunkHashes, ¬ Placed (localSite 1) hugeClient.dht s hash := by
  rcases run_cut rfl rfl length_hugeFile with ⟨tr, s, hrun, hstored⟩
  refine ⟨tr, s, hrun, _, hstored, _, List.mem_singleton_self _, ?_⟩
  rintro ⟨a, _, ip, port, i, _, _, hheld⟩
  rcases Option.ne_none_iff_exists'.1 hheld with ⟨data, hdata⟩
  have hfits := ((Stocks.run hrun).held i _ data hdata).fits
  have hwidth : (computeSHA256 data).length = 64 := (isHash_sha256 data).length_eq
  have hshort : ((hugeFile.hashes.headD []).take 3).length ≤ 3 := by
    rw [List.length_take]
    exact min_le_left 3 _
  rw [← hfits.hash_eq, hwidth] at hshort
  exact absurd hshort (by decide)

end Cluster
end Dfs
