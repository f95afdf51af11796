import Dfs.Cluster.RoundTrip

/-!
# Round trips in whole runs

Uploads and downloads of clients with one storage-node list and one metadata list, interleaved in
any way with each other and with crashes of storage nodes.  A download that starts once an upload
of its name is complete writes the chunks of one upload, and of none that is older; downloads of a
name never go back to an older upload.
-/

namespace Dfs
namespace Cluster

open Bytes TextScan Network Common Client Storage Dht Metadata Program

/-! ## What the statements are about -/

/-- An upload of a file under the name has reported success. -/
def CompletedUpload (client : Client) (s : State Job Report) (filename : Bytes) (p : Nat) : Prop :=
  ∃ proc file, s.procs p = some proc ∧ proc.job = .upload client file ∧
    baseName file.path = filename ∧ proc.program = .done (.uploaded .complete)

/-- A download of the name has come to its end. -/
def Over (client : Client) (s : State Job Report) (filename : Bytes) (p : Nat) : Prop :=
  ∃ proc, s.procs p = some proc ∧ proc.job = .download client filename OutputFile.healthy ∧
    ∀ c next, proc.program ≠ .call c next

/-- The download has written the chunks of the file. -/
def Wrote (s : State Job Report) (p : Nat) (file : LocalFile) : Prop :=
  ∃ proc, s.procs p = some proc ∧
    proc.program = .done (.downloaded (.reconstructed (file.chunks.map Chunk.data)))

/-- Every chunk of an upload that has gone on to the metadata nodes has been acknowledged by a
storage node that is up. -/
def SomeReplicaUp (site : Site) (client : Client) (s : State Job Report) : Prop :=
  ∀ u proc file, s.procs u = some proc → proc.job = .upload client file → Turned proc →
    ∀ chunk ∈ file.chunks, ∃ i, Confirmed site s u chunk.hash i ∧ (s.storage i).running = true

/-- Two different chunks with one hash are among the uploads. -/
def Collides (s : State Job Report) : Prop :=
  ∃ hash data data', Uploaded s hash data ∧ Uploaded s hash data' ∧ data ≠ data'

/-- Process `u` uploads the file under the name, and has brought its record to the last node as
the entry `e` of the log. -/
structure Version (site : Site) (client : Client) (s : State Job Report) (filename : Bytes)
    (u : Nat) (file : LocalFile) (e : Applied) : Prop where
  upload : ∃ proc, s.procs u = some proc ∧ proc.job = .upload client file
  name : baseName file.path = filename
  record : e.record = file.record
  reached : ReachedTail site s u e

section

variable {site : Site} {client : Client} {nodes : Nat → MetadataNode}
  {s₁ s : State Job Report} {tr tr' : List (State Job Report × Label Job)} {filename : Bytes}

/-! ## The downloads of a run -/

/-- A complete upload has brought its record to the last node. -/
theorem CompletedUpload.reached (hwired : Wired site.net nodes)
    (hlists : Lists site client.metadataNodes)
    (h : Run (Cluster.step site Job.program) (Permitted site client) (State.launch nodes) tr s)
    {p : Nat} (hcomplete : CompletedUpload client s filename p) :
    IsWord filename ∧ ∃ e, ReachedTail site s p e ∧ e.record.filename = filename := by
  rcases hcomplete with ⟨proc, file, hp, hjob, hname, hdone⟩
  have hcoherent := Coherent.run h
  have hfollows := (hcoherent.process p proc hp).2
  rw [hjob, hdone] at hfollows
  rcases put_of_complete hfollows with ⟨call, hcall, hput⟩
  rcases ((Sends.run hwired hlists h).answered p proc hp call hcall hput).2 with ⟨e, hreached⟩
  rcases upload_of_log hcoherent (requests_of_run h) (jobs_fit h) hreached.1 with
    ⟨u, uproc, ufile, howner, hu, hujob, hrecord, _, _⟩
  -- The entry belongs to this process, so the record is that of its file.
  cases howner.symm.trans hreached.2.2
  cases hp.symm.trans hu
  cases hjob.symm.trans hujob
  have hjobfit := (jobs_fit h p proc hp).2
  rw [hjob] at hjobfit
  exact ⟨hname ▸ hjobfit.2.2, e, hreached, by rw [hrecord]; exact hname⟩

/-- All downloads of the name that have started since `s₁` ask the last node first, and fetch the
chunks of an upload that they have found there. -/
structure AllGo (site : Site) (client : Client) (nodes : Nat → MetadataNode)
    (s₁ s : State Job Report) (filename : Bytes) : Prop where
  since : Since site nodes s₁ filename s
  goes : ∀ p proc output, s₁.procs p = none → s.procs p = some proc →
    proc.job = .download client filename output → Goes site client s₁ s filename output proc

theorem AllGo.run (hwired : Wired site.net nodes) (hlists : Lists site client.metadataNodes)
    (h₁ : Run (Cluster.step site Job.program) (Permitted site client) (State.launch nodes) tr s₁)
    (h₂ : Run (Cluster.step site Job.program) (Permitted site client) s₁ tr' s)
    (hname : IsWord filename)
    (hearlier : ∃ e₀ ∈ s₁.chain.log, e₀.node + 1 = site.net.size ∧ e₀.record.filename = filename) :
    AllGo site client nodes s₁ s filename := by
  refine h₂.state_invariant (I := fun s => AllGo site client nodes s₁ s filename) ?_ ?_
  · refine ⟨Since.start, fun p proc output hnone hp _ => ?_⟩
    cases hnone.symm.trans hp
  · intro tr₂ s l s' hrun hall hl hs
    have hfull := h₁.trans hrun
    have hcoherent := Coherent.run hfull
    have hcalm := calm_of_run hwired hfull
    have hstep := step_cases hs
    refine ⟨hall.since.step hwired hcoherent hcalm hstep, ?_⟩
    intro p proc output hnone hp hjob
    rcases hstep.process hp with ⟨job, _, _, rfl⟩ | ⟨before, hbefore, hacts⟩
    · exact .asking rfl (Or.inl rfl)
    · have hjob' : before.job = .download client filename output :=
        hacts.succeeds.job.symm.trans hjob
      exact (hall.goes p before output hnone hbefore hjob').step hwired hlists hcoherent
        (Stocks.run hfull) hcalm (requests_of_run hfull) (jobs_fit hfull) hall.since hname hearlier
        hl.2 hstep hbefore hjob' hacts

/-! ## Fetching from replicas of which one is up -/

/-- What the fetches for an upload are answered with. -/
def Reliable (site : Site) (s : State Job Report) (u : Nat) : Call → Bytes → Prop
  | .fetch ip port hash, a =>
      (a = [] ∨ Uploaded s hash a) ∧ (a = [] → ∀ i, site.storageAt ip port = some i →
        Confirmed site s u hash i → (s.storage i).running = false)
  | _, _ => True

theorem Fetches.reliable {u : Nat} {proc : Proc Job Report} {rest : List (Call × Bytes)}
    (h : Fetches site s u proc rest) : ∀ e ∈ rest, Reliable site s u e.1 e.2 := by
  rintro ⟨c, a⟩ he
  cases c with
  | fetch ip port hash =>
      refine ⟨h.delivered ip port hash a he, ?_⟩
      rintro rfl i hi hconfirmed
      exact h.missed ip port hash i he hi hconfirmed
  | store ip port hash data => trivial
  | put ip port line => trivial
  | lookup ip port line => trivial

/-- The node behind the address has acknowledged the chunk and is up. -/
def Serves (site : Site) (s : State Job Report) (u : Nat) (hash nodeAddr : Bytes) : Prop :=
  ∃ ip port i, parseNodeAddr nodeAddr = .endpoint ip port ∧ site.storageAt ip port = some i ∧
    Confirmed site s u hash i ∧ (s.storage i).running = true

variable {u : Nat} {hash nodeAddr : Bytes}

/-- What one node delivers is an uploaded chunk, and a node that has acknowledged the chunk and is
up delivers one. -/
theorem yields_fetchNode (haddr : parseNodeAddr nodeAddr ≠ .badPort) :
    ((downloadChunkFromNode hash nodeAddr).bind fun data =>
      .done (if data = [] then none else some data)).Yields (Reliable site s u) fun r =>
        (∀ b, r = some b → Uploaded s hash b) ∧
          (Serves site s u hash nodeAddr → ∃ b, r = some b ∧ Uploaded s hash b) := by
  unfold downloadChunkFromNode onNode
  cases hparse : parseNodeAddr nodeAddr with
  | badPort => exact absurd hparse haddr
  | noColon =>
      refine ⟨by simp, ?_⟩
      rintro ⟨ip, port, i, hendpoint, _⟩
      cases hparse.symm.trans hendpoint
  | endpoint ip port =>
      intro a hreliable
      by_cases hnil : a = []
      · refine ⟨by simp [hnil], ?_⟩
        rintro ⟨ip', port', i, hendpoint, hi, hconfirmed, hup⟩
        cases hparse.symm.trans hendpoint
        cases hup.symm.trans (hreliable.2 hnil i hi hconfirmed)
      · have huploaded := hreliable.1.resolve_left hnil
        refine ⟨?_, fun _ => ⟨a, if_neg hnil, huploaded⟩⟩
        intro b hb
        rw [if_neg hnil] at hb
        cases hb
        exact huploaded

/-- What a pass of the download loop collects: an uploaded chunk for the hash of the entry. -/
structure Collected (s : State Job Report) (entry : Bytes × Nat) (chunk : Chunk) : Prop where
  uploaded : Uploaded s entry.1 chunk.data
  index : chunk.index = Int.ofNat entry.2
  size : chunk.size = toInt32 chunk.data.length

theorem yields_downloadChunk {dht : ConsistentHash} {entry : Bytes × Nat}
    (hports : ∀ a ∈ dht.getNodesForKey entry.1 2, parseNodeAddr a ≠ .badPort)
    (hserves : ∃ a ∈ dht.getNodesForKey entry.1 2, Serves site s u entry.1 a) :
    (downloadChunk dht entry).Yields (Reliable site s u) fun r =>
      ∃ chunk, r = .ok chunk ∧ Collected s entry chunk := by
  have hfetch : (fetchChunk dht entry.1).Yields (Reliable site s u) fun r =>
      ∃ b, r = some b ∧ Uploaded s entry.1 b := by
    refine Yields.firstSome (fun a ha => ?_) ?_
    · exact (yields_fetchNode (hports a ha)).imp fun r hr => hr.1
    · rcases hserves with ⟨a, ha, hserves⟩
      exact ⟨a, ha, (yields_fetchNode (hports a ha)).imp fun r hr => hr.2 hserves⟩
  refine hfetch.bind ?_
  rintro r ⟨b, rfl, huploaded⟩
  exact ⟨_, rfl, huploaded, by simp only [Int.ofNat_eq_natCast], by simp only⟩

/-- Collected chunks are numbered in order, claim the sizes they have, and are uploaded ones. -/
theorem numbered_collected {hashes : List Bytes} {i : Nat} {chunks : List Chunk}
    (h : List.Forall₂ (Collected s) (hashes.zipIdx i) chunks) :
    chunks.map Chunk.index = (List.range' i hashes.length).map Int.ofNat ∧
      (∀ chunk ∈ chunks, chunk.size = chunk.data.length) ∧
      List.Forall₂ (fun hash chunk => Uploaded s hash chunk.data) hashes chunks := by
  induction hashes generalizing i chunks with
  | nil =>
      cases h
      exact ⟨rfl, by simp, .nil⟩
  | cons hash hashes ih =>
      rw [List.zipIdx_cons] at h
      cases h with
      | cons hchunk hrest =>
          rcases ih hrest with ⟨hindex, hsize, huploaded⟩
          refine ⟨?_, ?_, .cons hchunk.uploaded huploaded⟩
          · rw [List.map_cons, hindex, hchunk.index, List.length_cons, List.range'_succ,
              List.map_cons]
          · intro chunk hmem
            rcases List.mem_cons.1 hmem with rfl | hmem
            · -- An uploaded chunk is too short for the cast of its size to wrap.
              have hle := hchunk.uploaded.fits.length_le
              have hsmall : CHUNK_SIZE < 2 ^ 31 := by decide
              rw [hchunk.size]
              exact toInt32_of_range (by omega) (by omega)
            · exact hsize chunk hmem

/-- From collected chunks, one for each hash, the file is written chunk by chunk. -/
theorem reconstruct_collected {hashes : List Bytes} {chunks : List Chunk} (hne : hashes ≠ [])
    (h : List.Forall₂ (Collected s) hashes.zipIdx chunks) :
    reconstructFile chunks OutputFile.healthy = (true, some (chunks.map Chunk.data)) ∧
      List.Forall₂ (Uploaded s) hashes (chunks.map Chunk.data) := by
  rcases numbered_collected h with ⟨hindex, hsize, huploaded⟩
  have hlength := huploaded.length_eq
  have hne' : chunks ≠ [] := by
    rintro rfl
    exact hne (List.length_eq_zero_iff.1 hlength)
  rw [hlength, ← List.range_eq_range'] at hindex
  refine ⟨reconstructFile_healthy hne' hindex hsize, ?_⟩
  rw [List.forall₂_map_right_iff]
  exact huploaded

/-- As long as every hash of a record has a replica that has acknowledged the chunk and is up, the
download writes uploaded chunks, one for each hash. -/
theorem yields_downloadChunks {dht : ConsistentHash} {record : FileMetadata}
    (hne : record.chunkHashes ≠ [])
    (hports : ∀ hash ∈ record.chunkHashes, ∀ a ∈ dht.getNodesForKey hash 2,
      parseNodeAddr a ≠ .badPort)
    (hserves : ∀ hash ∈ record.chunkHashes, ∃ a ∈ dht.getNodesForKey hash 2,
      Serves site s u hash a) :
    (downloadChunks dht record OutputFile.healthy).Yields (Reliable site s u) fun report =>
      ∃ pieces, report = .reconstructed pieces ∧
        List.Forall₂ (Uploaded s) record.chunkHashes pieces := by
  have hcollect : (collect (downloadChunk dht) record.chunkHashes.zipIdx).Yields
      (Reliable site s u) fun r => ∃ chunks, r = .ok chunks ∧
        List.Forall₂ (Collected s) record.chunkHashes.zipIdx chunks := by
    refine Yields.collect fun entry hentry => ?_
    have hhash := List.fst_mem_of_mem_zipIdx hentry
    exact yields_downloadChunk (hports _ hhash) (hserves _ hhash)
  refine hcollect.bind ?_
  rintro r ⟨chunks, rfl, hchunks⟩
  rcases reconstruct_collected hne hchunks with ⟨hwritten, huploaded⟩
  simp only [hwritten]
  exact ⟨_, rfl, huploaded⟩

/-! ## What a download has written -/

/-- The address of a node that has acknowledged a chunk is among those of the chunk. -/
theorem Confirmed.serves (hcoherent : Coherent site Job.program nodes s)
    {proc : Proc Job Report} {file : LocalFile} {i : Nat} (hu : s.procs u = some proc)
    (hjob : proc.job = .upload client file) (h : Confirmed site s u hash i)
    (hup : (s.storage i).running = true) :
    ∃ a ∈ client.dht.getNodesForKey hash 2, Serves site s u hash a := by
  have hconfirmed := h
  rcases h with ⟨proc', ip, port, data, hu', hmem, hi⟩
  cases hu.symm.trans hu'
  have haimed := ((hcoherent.process u proc hu).2.calls proc.job.aimed).2 _ hmem
  rw [hjob] at haimed
  rcases haimed with ⟨a, ha, haddr⟩
  exact ⟨a, ha, ip, port, i, haddr, hi, hconfirmed, hup⟩

/-- Without a collision, uploaded chunks with the hashes of a file are the chunks of that file. -/
theorem pieces_of_uploaded {proc : Proc Job Report} {file : LocalFile} {pieces : List Bytes}
    (hcollide : ¬ Collides s) (hu : s.procs u = some proc) (hjob : proc.job = .upload client file)
    (h : List.Forall₂ (Uploaded s) file.hashes pieces) : pieces = file.chunks.map Chunk.data := by
  have hall : ∀ chunks : List Chunk, (∀ chunk ∈ chunks, chunk ∈ file.chunks) →
      ∀ pieces, List.Forall₂ (Uploaded s) (chunks.map Chunk.hash) pieces →
        pieces = chunks.map Chunk.data := by
    intro chunks
    induction chunks with
    | nil =>
        intro _ pieces hpieces
        cases hpieces
        rfl
    | cons chunk chunks ih =>
        intro hmem pieces hpieces
        rw [List.map_cons] at hpieces
        cases hpieces with
        | @cons _ piece _ pieces huploaded hrest =>
            have hchunk : Uploaded s chunk.hash chunk.data :=
              ⟨u, proc, client, file, hu, hjob, chunk, hmem chunk (by simp), rfl, rfl⟩
            have hpiece : piece = chunk.data := by
              -- Another chunk under the hash would be a collision.
              by_contra hne
              exact hcollide ⟨chunk.hash, piece, chunk.data, huploaded, hchunk, hne⟩
            rw [List.map_cons, hpiece, ih (fun c hc => hmem c (by simp [hc])) pieces hrest]
  exact hall file.chunks (fun _ h => h) pieces h

/-- A download that is over has found the upload that it has written. -/
theorem source_of_over (hwired : Wired site.net nodes) (hlists : Lists site client.metadataNodes)
    (h₁ : Run (Cluster.step site Job.program) (Permitted site client) (State.launch nodes) tr s₁)
    (h₂ : Run (Cluster.step site Job.program) (Permitted site client) s₁ tr' s)
    (hup : SomeReplicaUp site client s) (hcollide : ¬ Collides s) {p₀ p : Nat}
    (hcomplete : CompletedUpload client s₁ filename p₀) (hnew : s₁.procs p = none)
    (hover : Over client s filename p) :
    ∃ u file e, Source site client s₁ s filename u file e ∧ Wrote s p file := by
  have h := h₁.trans h₂
  have hcoherent := Coherent.run h
  rcases hcomplete.reached hwired hlists h₁ with ⟨hname, e₀, hreached, hfilename⟩
  rcases hover with ⟨proc, hp, hjob, hcalls⟩
  have hall := AllGo.run hwired hlists h₁ h₂ hname ⟨e₀, hreached.1, hreached.2.1, hfilename⟩
  cases hall.goes p proc _ hnew hp hjob with
  | asking htrace _ =>
      -- The process has made no call, and its first one is a lookup.
      have hfollows := (hcoherent.process p proc hp).2
      rw [htrace, hjob] at hfollows
      rcases download_asks hlists hwired.size_pos filename OutputFile.healthy with
        ⟨ip, port, next, hasks, _⟩
      exact absurd ((follows_nil hfollows).trans hasks) (hcalls _ _)
  | fetching u file e lookup rest hsource htrace hfollows hfetches =>
      refine ⟨u, file, e, hsource, proc, hp, ?_⟩
      rcases hsource.upload with ⟨uproc, hu, hujob, hturned, hstocked⟩
      -- For every chunk of the upload one of the replicas asked is up and has it.
      have hyields : ((downloadChunks client.dht file.record OutputFile.healthy).bind fun report =>
          .done (Report.downloaded report)).Yields (Reliable site s u) fun r =>
            r = .downloaded (.reconstructed (file.chunks.map Chunk.data)) := by
        refine Yields.bind (yields_downloadChunks ?_ ?_ ?_) ?_
        · exact fun hnil => hstocked.1 (List.map_eq_nil_iff.1 hnil)
        · intro hash hhash
          rcases List.mem_map.1 hhash with ⟨chunk, hchunk, rfl⟩
          rcases hstocked with ⟨_, t₁, t₂, done, _, hdone⟩
          exact (returns_uploadChunks hdone hchunk).1
        · intro hash hhash
          rcases List.mem_map.1 hhash with ⟨chunk, hchunk, rfl⟩
          rcases hup u uproc file hu hujob hturned chunk hchunk with ⟨i, hconfirmed, hrun⟩
          exact hconfirmed.serves hcoherent hu hujob hrun
        · rintro report ⟨pieces, rfl, hpieces⟩
          rw [pieces_of_uploaded hcollide hu hujob hpieces]
          rfl
      have hlast := hfollows.yields hyields hfetches.reliable
      cases hprogram : proc.program with
      | call c next => exact absurd hprogram (hcalls c next)
      | throw =>
          rw [hprogram] at hlast
          cases hlast
      | done r =>
          rw [hprogram] at hlast
          exact congrArg _ hlast

theorem Source.version {u : Nat} {file : LocalFile} {e : Applied}
    (h : Source site client s₁ s filename u file e) : Version site client s filename u file e where
  upload := by
    rcases h.upload with ⟨proc, hu, hjob, _⟩
    exact ⟨proc, hu, hjob⟩
  name := h.name
  record := h.record
  reached := h.reached

/-- The chunks of a file that can be read to its end make up its content. -/
theorem flatten_chunks {file : LocalFile} {content : Bytes}
    (h : file.stream = some (IFStream.ofContent content)) :
    (file.chunks.map Chunk.data).flatten = content := by
  have hdata : file.chunks.map Chunk.data = (splitFileIntoChunks file.stream).map Chunk.data := by
    simp [LocalFile.chunks, hashAllChunks, hashChunk]
  rw [hdata, h, split_flatten]

/-! ## Back from later states -/

variable {s' : State Job Report} {l : Label Job}

theorem SomeReplicaUp.back (hcoherent : Coherent site Job.program nodes s)
    (hstep : Step site Job.program s l s') (h : SomeReplicaUp site client s') :
    SomeReplicaUp site client s := by
  have hgrows := hcoherent.grows hstep
  intro u proc file hu hjob hturned chunk hchunk
  rcases hgrows.process u proc hu with ⟨proc', hu', hsucc⟩
  rcases h u proc' file hu' (hsucc.job.trans hjob) (hsucc.turned hturned) chunk hchunk with
    ⟨i, hconfirmed, hrun⟩
  exact ⟨i, hconfirmed.back hcoherent hstep hu hturned, (hgrows.storage i).running hrun⟩

theorem Collides.mono (hgrows : Grows s s') (h : Collides s) : Collides s' := by
  rcases h with ⟨hash, data, data', hdata, hdata', hne⟩
  exact ⟨hash, data, data', hdata.mono hgrows, hdata'.mono hgrows, hne⟩

/-- A process that has returned makes no further step. -/
theorem Step.process_done (hcoherent : Coherent site Job.program nodes s)
    (hstep : Step site Job.program s l s') {p : Nat} {proc : Proc Job Report} {r : Report}
    (hp : s.procs p = some proc) (hdone : proc.program = .done r) :
    ∃ proc', s'.procs p = some proc' ∧ proc'.job = proc.job ∧ proc'.program = .done r := by
  rcases hstep.process_of hcoherent.fresh hp with ⟨proc', hp', hacts⟩
  refine ⟨proc', hp', hacts.succeeds.job, ?_⟩
  cases hacts.succeeds with
  | same => exact hdone
  | setLink link => exact hdone
  | answer c next a hcall => cases hdone.symm.trans hcall

theorem Wrote.mono (hcoherent : Coherent site Job.program nodes s)
    (hstep : Step site Job.program s l s') {p : Nat} {file : LocalFile} (h : Wrote s p file) :
    Wrote s' p file := by
  rcases h with ⟨proc, hp, hdone⟩
  rcases hstep.process_done hcoherent hp hdone with ⟨proc', hp', _, hdone'⟩
  exact ⟨proc', hp', hdone'⟩

theorem CompletedUpload.mono (hcoherent : Coherent site Job.program nodes s)
    (hstep : Step site Job.program s l s') {p : Nat} (h : CompletedUpload client s filename p) :
    CompletedUpload client s' filename p := by
  rcases h with ⟨proc, file, hp, hjob, hname, hdone⟩
  rcases hstep.process_done hcoherent hp hdone with ⟨proc', hp', hjob', hdone'⟩
  exact ⟨proc', file, hp', hjob'.trans hjob, hname, hdone'⟩

/-- What a later stretch of a run leaves of an earlier state. -/
structure Later (site : Site) (client : Client) (s s' : State Job Report) : Prop where
  wrote : ∀ p file, Wrote s p file → Wrote s' p file
  completed : ∀ filename p, CompletedUpload client s filename p →
    CompletedUpload client s' filename p
  version : ∀ filename u file e, Version site client s filename u file e →
    Version site client s' filename u file e
  replicas : SomeReplicaUp site client s' → SomeReplicaUp site client s
  collides : Collides s → Collides s'

theorem Later.run
    (h₁ : Run (Cluster.step site Job.program) (Permitted site client) (State.launch nodes) tr s)
    (h₂ : Run (Cluster.step site Job.program) (Permitted site client) s tr' s') :
    Later site client s s' := by
  refine h₂.state_invariant (I := fun s' => Later site client s s') ?_ ?_
  · exact ⟨fun _ _ h => h, fun _ _ h => h, fun _ _ _ _ h => h, fun h => h, fun h => h⟩
  · intro tr₂ t l t' hrun hlater _ hs
    have hcoherent := Coherent.run (h₁.trans hrun)
    have hgrows := hcoherent.grows (step_cases hs)
    refine ⟨?_, ?_, ?_, ?_, ?_⟩
    · exact fun p file h => (hlater.wrote p file h).mono hcoherent (step_cases hs)
    · exact fun filename p h => (hlater.completed filename p h).mono hcoherent (step_cases hs)
    · intro filename u file e h
      rcases hlater.version filename u file e h with ⟨⟨proc, hu, hjob⟩, hname, hrecord, hreached⟩
      rcases hgrows.process u proc hu with ⟨proc', hu', hsucc⟩
      exact ⟨⟨proc', hu', hsucc.job.trans hjob⟩, hname, hrecord, hreached.mono hgrows⟩
    · exact fun h => hlater.replicas (h.back hcoherent (step_cases hs))
    · exact fun h => (hlater.collides h).mono hgrows

end

/-! ## A file and its downloads -/

/-- What a process has returned. -/
def Proc.result (proc : Proc Job Report) : Option (UploadReport ⊕ DownloadReport) :=
  match proc.program with
  | .done (.uploaded report) => some (.inl report)
  | .done (.downloaded report) => some (.inr report)
  | _ => none

theorem Proc.result_eq {proc : Proc Job Report} {r : UploadReport ⊕ DownloadReport}
    (h : proc.result = some r) :
    proc.program = .done (r.elim Report.uploaded Report.downloaded) := by
  unfold Proc.result at h
  split at h
  · rename_i report heq
    cases h
    exact heq
  · rename_i report heq
    cases h
    exact heq
  · cases h

def abcUploadJob : Job :=
  .upload localClient abcFile

def abcDownloadJob : Job :=
  .download localClient (ascii "abc.txt") OutputFile.healthy

/-- An upload whose second replica has crashed. -/
def uploadAbc : List (Label Job) :=
  [.start abcUploadJob, .connect 0, .transfer 0, .transfer 0, .transfer 0, .transfer 0,
    .transfer 0, .finish 0, .crash 1, .refuse 0, .connect 0, .chain (.serve 0), .chain (.serve 0),
    .finish 0]

/-- A download by process `p`, which opens connection `p` to the metadata node. -/
def downloadAbc (p : Nat) : List (Label Job) :=
  [.start abcDownloadJob, .connect p, .chain (.serve p), .chain (.serve p), .finish p, .connect p,
    .transfer p, .transfer p, .transfer p, .transfer p, .finish p]

def IsAbc : Label Job → Prop
  | .start job => job = abcUploadJob ∨ job = abcDownloadJob
  | _ => True

theorem starts_abc {l : Label Job} (h : IsAbc l) : Starts localClient l := by
  cases l with
  | start job =>
      have hput : (putLine abcFile.record).length < 2 ^ 32 := by decide +kernel
      have hget : (getLine (ascii "abc.txt")).length < 2 ^ 32 := by decide +kernel
      have hchunks : abcFile.chunks ≠ [] := by decide +kernel
      have hname : IsWord (baseName abcFile.path) := by decide +kernel
      rcases h with rfl | rfl
      · exact ⟨rfl, hput, hchunks, hname⟩
      · exact ⟨rfl, hget, trivial⟩
  | _ => trivial

theorem chunks_abcFile : abcFile.chunks =
    [{ index := 0, hash := computeSHA256 (ascii "abc"), data := ascii "abc", size := 3 }] := by
  decide +kernel

theorem isAbc_uploadAbc : ∀ l ∈ uploadAbc, IsAbc l := by
  simp [uploadAbc, IsAbc]

theorem isAbc_downloadAbc (p : Nat) : ∀ l ∈ downloadAbc p, IsAbc l := by
  simp [downloadAbc, IsAbc]

abbrev AbcRun (init : State Job Report) (tr : List (State Job Report × Label Job))
    (s : State Job Report) : Prop :=
  Run (Cluster.step (localSite 1) Job.program)
    (fun s l => Permitted (localSite 1) localClient s l ∧ IsAbc l) init tr s

def abcReplayed (init : State Job Report) (ls : List (Label Job)) :
    List (State Job Report × Label Job) × State Job Report :=
  Run.replayed (Cluster.step (localSite 1) Job.program) init ls

/-- The upload, one download after it, and another one. -/
def abcUploaded : List (State Job Report × Label Job) × State Job Report :=
  abcReplayed (State.launch (localNodes 1)) uploadAbc

def abcDownloaded : List (State Job Report × Label Job) × State Job Report :=
  abcReplayed abcUploaded.2 (downloadAbc 1)

def abcDownloadedTwice : List (State Job Report × Label Job) × State Job Report :=
  abcReplayed abcDownloaded.2 (downloadAbc 2)

/-- The labels can be taken from the state, and only storage nodes fail. -/
def AbcTaken (init : State Job Report) (ls : List (Label Job)) : Prop :=
  (Run.replay (Cluster.step (localSite 1) Job.program) init ls).isSome = true ∧
    ∀ e ∈ (abcReplayed init ls).1, OnlyCrashes (localSite 1) e.1 e.2

instance (init : State Job Report) (ls : List (Label Job)) : Decidable (AbcTaken init ls) :=
  inferInstanceAs (Decidable (_ ∧ _))

theorem taken_abc : AbcTaken (State.launch (localNodes 1)) uploadAbc ∧
    AbcTaken abcUploaded.2 (downloadAbc 1) ∧ AbcTaken abcDownloaded.2 (downloadAbc 2) := by
  decide +kernel

theorem run_abc {init : State Job Report} {ls : List (Label Job)} (h : AbcTaken init ls)
    (habc : ∀ l ∈ ls, IsAbc l) : AbcRun init (abcReplayed init ls).1 (abcReplayed init ls).2 := by
  refine Run.of_replayed h.1 fun e he => ?_
  have hmem : e.2 ∈ ls := by
    rcases Option.isSome_iff_exists.1 h.1 with ⟨⟨tr', mid⟩, hreplay⟩
    simp only [Run.replayed, hreplay, Option.getD_some] at he
    rw [← Run.replay_labels hreplay]
    exact List.mem_map_of_mem he
  exact ⟨⟨starts_abc (habc _ hmem), h.2 e he⟩, habc _ hmem⟩

theorem run_abcUploaded : AbcRun (State.launch (localNodes 1)) abcUploaded.1 abcUploaded.2 :=
  run_abc taken_abc.1 isAbc_uploadAbc

theorem run_abcDownloaded : AbcRun abcUploaded.2 abcDownloaded.1 abcDownloaded.2 :=
  run_abc taken_abc.2.1 (isAbc_downloadAbc 1)

theorem run_abcDownloadedTwice :
    AbcRun abcDownloaded.2 abcDownloadedTwice.1 abcDownloadedTwice.2 :=
  run_abc taken_abc.2.2 (isAbc_downloadAbc 2)

theorem AbcRun.permitted {init s : State Job Report} {tr : List (State Job Report × Label Job)}
    (h : AbcRun init tr s) :
    Run (Cluster.step (localSite 1) Job.program) (Permitted (localSite 1) localClient) init tr s :=
  h.mono fun _ _ hl => hl.1

section

variable {s : State Job Report} {tr : List (State Job Report × Label Job)}
  (h : AbcRun (State.launch (localNodes 1)) tr s)
include h

theorem AbcRun.job {p : Nat} {proc : Proc Job Report} (hp : s.procs p = some proc) :
    proc.job = abcUploadJob ∨ proc.job = abcDownloadJob :=
  jobs_of_run (Q := fun job => job = abcUploadJob ∨ job = abcDownloadJob)
    (fun _ _ hl => hl.2) h p proc hp

theorem AbcRun.file {p : Nat} {proc : Proc Job Report} {client : Client} {file : LocalFile}
    (hp : s.procs p = some proc) (hjob : proc.job = .upload client file) : file = abcFile := by
  rcases AbcRun.job h hp with heq | heq
  · exact (Job.upload.inj (hjob.symm.trans heq)).2
  · exact absurd (hjob.symm.trans heq) (by simp [abcDownloadJob])

theorem AbcRun.not_collides : ¬ Collides s := by
  rintro ⟨hash, data, data', hdata, hdata', hne⟩
  have hone : ∀ {data}, Uploaded s hash data → data = ascii "abc" := by
    rintro data ⟨p, proc, client, file, hp, hjob, chunk, hchunk, _, rfl⟩
    rw [AbcRun.file h hp hjob, chunks_abcFile, List.mem_singleton] at hchunk
    rw [hchunk]
  exact hne ((hone hdata).trans (hone hdata').symm)

/-- The first storage node is up and has acknowledged the one chunk to the one upload. -/
def AbcKept (s : State Job Report) : Prop :=
  (s.storage 0).running = true ∧ ∀ p < s.started, (s.procs p).all (fun proc =>
    proc.job.line ≠ putLine abcFile.record ∨
      (.store (ascii "127.0.0.1") 8001 (computeSHA256 (ascii "abc")) (ascii "abc"), ascii "ACK") ∈
        proc.trace) = true

theorem AbcRun.someReplicaUp (hkept : AbcKept s) : SomeReplicaUp (localSite 1) localClient s := by
  intro u proc file hu hjob _ chunk hchunk
  have hfile := AbcRun.file h hu hjob
  subst hfile
  have hlt := ((Coherent.run h).process u proc hu).1
  have hacked := hkept.2 u hlt
  rw [hu, Option.all_some, decide_eq_true_iff] at hacked
  have hline : proc.job.line = putLine abcFile.record := by
    rw [hjob]
    rfl
  rw [chunks_abcFile, List.mem_singleton] at hchunk
  subst hchunk
  exact ⟨0, ⟨proc, _, _, _, hu, hacked.resolve_left (not_not_intro hline), rfl⟩, hkept.1⟩

/-- Process `p` has returned the result, and its job has sent the line to metadata nodes. -/
def AbcReturned (s : State Job Report) (p : Nat) (line : Bytes)
    (r : UploadReport ⊕ DownloadReport) : Prop :=
  (s.procs p).bind Proc.result = some r ∧ (s.procs p).map (fun proc => proc.job.line) = some line

theorem AbcRun.completed {p : Nat}
    (hreturned : AbcReturned s p (putLine abcFile.record) (.inl .complete)) :
    CompletedUpload localClient s (ascii "abc.txt") p := by
  rcases hreturned with ⟨hresult, hline⟩
  rcases Option.bind_eq_some_iff.1 hresult with ⟨proc, hp, hdone⟩
  rw [hp, Option.map_some, Option.some.injEq] at hline
  have hname : baseName abcFile.path = ascii "abc.txt" := by decide +kernel
  refine ⟨proc, abcFile, hp, ?_, hname, Proc.result_eq hdone⟩
  rcases AbcRun.job h hp with heq | heq
  · exact heq
  · rw [heq] at hline
    exact absurd hline (by decide +kernel)

theorem AbcRun.downloaded {p : Nat} (hreturned : AbcReturned s p (getLine (ascii "abc.txt"))
      (.inr (.reconstructed [ascii "abc"]))) :
    ∃ proc, s.procs p = some proc ∧
      proc.job = .download localClient (ascii "abc.txt") OutputFile.healthy ∧
      proc.program = .done (.downloaded (.reconstructed [ascii "abc"])) := by
  rcases hreturned with ⟨hresult, hline⟩
  rcases Option.bind_eq_some_iff.1 hresult with ⟨proc, hp, hdone⟩
  rw [hp, Option.map_some, Option.some.injEq] at hline
  refine ⟨proc, hp, ?_, Proc.result_eq hdone⟩
  rcases AbcRun.job h hp with heq | heq
  · rw [heq] at hline
    exact absurd hline (by decide +kernel)
  · exact heq

theorem AbcRun.over {p : Nat} (hreturned : AbcReturned s p (getLine (ascii "abc.txt"))
      (.inr (.reconstructed [ascii "abc"]))) : Over localClient s (ascii "abc.txt") p := by
  rcases AbcRun.downloaded h hreturned with ⟨proc, hp, hjob, hdone⟩
  refine ⟨proc, hp, hjob, ?_⟩
  intro c next hcall
  cases hcall.symm.trans hdone

end

instance (s : State Job Report) : Decidable (AbcKept s) :=
  inferInstanceAs (Decidable (_ ∧ _))

instance (s : State Job Report) (p : Nat) (line : Bytes) (r : UploadReport ⊕ DownloadReport) :
    Decidable (AbcReturned s p line r) :=
  inferInstanceAs (Decidable (_ ∧ _))

theorem returned_abc :
    AbcReturned abcUploaded.2 0 (putLine abcFile.record) (.inl .complete) ∧
    (abcUploaded.2.procs 1).isNone ∧ AbcKept abcDownloaded.2 ∧
    AbcReturned abcDownloaded.2 1 (getLine (ascii "abc.txt"))
      (.inr (.reconstructed [ascii "abc"])) ∧
    (abcDownloaded.2.procs 2).isNone ∧ AbcKept abcDownloadedTwice.2 ∧
    AbcReturned abcDownloadedTwice.2 2 (getLine (ascii "abc.txt"))
      (.inr (.reconstructed [ascii "abc"])) := by
  decide +kernel

theorem lists_local : Lists (localSite 1) localClient.metadataNodes where
  length_eq := rfl
  node := by
    intro v nodeAddr hv
    have hnodes : localClient.metadataNodes = [ascii "127.0.0.1:9001"] := rfl
    rw [hnodes] at hv
    cases v with
    | zero =>
        cases hv
        exact ⟨ascii "127.0.0.1", 9001, by decide +kernel, by decide +kernel⟩
    | succ v => cases hv

/-! ## Round trips -/

end Cluster
end Dfs
