import Dfs.Client.Download
import Dfs.Client.Truncation

/-!
# Downloads with replica fallback

`downloadFile` against storage nodes that may do anything to each request: refuse the connection,
deny the chunk, break off anywhere in the reply, or deliver data.  The client moves on to the next
replica unless it has a complete nonempty frame, and opens the output only when it has one for every
hash of the record.  What it then writes is the frames in order, unless one of them is too long for
the cast of its size: `fallback_iff`.
-/

set_option linter.dupNamespace false

namespace Dfs
namespace Client
namespace Fallback

open Bytes Network Common Metadata Program Dht

/-! ## The storage nodes -/

/-- What a storage node does when it is asked. -/
inductive Behaviour where
  | refuse
  /-- it accepts, and sends these bytes until the connection ends -/
  | reply (stream : Bytes)

/-- The answer of a routine that reads these bytes.  Where a `sendMessage` fails the routine gives
up, as it does when it then receives nothing. -/
def listen : Conv → Bytes → Bytes
  | .send _ next, stream => listen next stream
  | .recv next, stream => listen (next (recvData stream).1) (recvData stream).2
  | .done answer, _ => answer

namespace Behaviour

def answer : Behaviour → Call → Bytes
  | refuse, _ => []
  | reply stream, c => listen c.conv stream

/-- The node announces the chunk and delivers these bytes as one complete frame. -/
def Delivers (b : Behaviour) (data : Bytes) : Prop :=
  data ≠ [] ∧ data.length < 2 ^ 32 ∧
    ∃ rest, b = reply (sendData (ascii "FOUND") ++ (sendData data ++ rest))

theorem recvData_complete {data : Bytes} (h : data.length < 2 ^ 32) (rest : Bytes) :
    recvData (sendData data ++ rest) = (data, rest) := by
  rw [recvData_sendData, Nat.mod_eq_of_lt h, List.take_left, List.drop_left]

/-- The client gets the data of the first frame behind `FOUND`, if it is complete. -/
theorem answer_fetch {b : Behaviour} {ip hash data : Bytes} {port : Int} (hne : data ≠ []) :
    b.answer (.fetch ip port hash) = data ↔ b.Delivers data := by
  cases b with
  | refuse =>
      constructor
      · intro h
        exact absurd h.symm hne
      · rintro ⟨_, _, rest, hreply⟩
        cases hreply
  | reply stream =>
      have hfound : ascii "FOUND" ≠ [] := by decide
      simp only [answer, Call.conv, fetchConv, listen, afterFound]
      constructor
      · intro h
        by_cases hresponse : (recvData stream).1 = ascii "FOUND"
        · simp only [if_pos hresponse, listen] at h
          rcases sendData_recvData (hresponse ▸ hfound) with ⟨hstream, _⟩
          rcases sendData_recvData (h ▸ hne) with ⟨hrest, hlength⟩
          refine ⟨hne, h ▸ hlength, (recvData (recvData stream).2).2, ?_⟩
          rw [← h, ← hrest, ← hresponse, ← hstream]
        · simp only [if_neg hresponse, listen] at h
          exact absurd h.symm hne
      · rintro ⟨_, hlength, rest, hreply⟩
        have hshort : (ascii "FOUND").length < 2 ^ 32 := by decide
        cases hreply
        simp only [recvData_complete hshort, if_true, listen, recvData_complete hlength]

theorem answer_fetch_nil {b : Behaviour} {ip hash : Bytes} {port : Int} :
    b.answer (.fetch ip port hash) = [] ↔ ∀ data, ¬ b.Delivers data := by
  constructor
  · rintro h data hdelivers
    exact hdelivers.1 ((answer_fetch hdelivers.1).2 hdelivers ▸ h)
  · intro h
    by_contra hne
    exact h _ ((answer_fetch hne).1 rfl)

theorem Delivers.unique {b : Behaviour} {data data' : Bytes} (h : b.Delivers data)
    (h' : b.Delivers data') : data = data' := by
  have hanswer := (@answer_fetch b [] [] data 0 h.1).2 h
  rw [← hanswer, (answer_fetch h'.1).2 h']

end Behaviour

/-- `behave i p` is what the `p`-th node asked for the `i`-th hash does. -/
abbrev Behaviours : Type :=
  Nat → Nat → Behaviour

/-- Which request comes next: the answers of the metadata nodes to come, and the numbers of the
hash and of the replica. -/
structure Progress where
  lookups : List Bytes
  hash : Nat
  replica : Nat

/-- A peer answers a call; the next hash comes when a replica has delivered. -/
def serve (behave : Behaviours) (s : Progress) : Call → Bytes × Progress
  | .lookup _ _ _ => (s.lookups.headD [], { s with lookups := s.lookups.tail })
  | c =>
      let data := (behave s.hash s.replica).answer c
      (data,
        if data = [] then { s with replica := s.replica + 1 }
        else { s with hash := s.hash + 1, replica := 0 })

/-! ## The download -/

/-- `downloadFile` from the record on, together with what it does to the output file: `none` where
it does not open it. -/
def downloadChunksTo (dht : ConsistentHash) (record : FileMetadata) (output : OutputFile) :
    Program Call Bytes (DownloadReport × Option (List Bytes)) :=
  (collect (downloadChunk dht) record.chunkHashes.zipIdx).bind fun
    | .error index => .done (.chunkFailed index, none)
    | .ok chunks =>
        match reconstructFile chunks output with
        | (true, some pieces) => .done (.reconstructed pieces, some pieces)
        | (_, opened) => .done (.reconstructionFailed, opened)

def downloadFileTo (client : Client) (filename : Bytes) (output : OutputFile) :
    Program Call Bytes (DownloadReport × Option (List Bytes)) :=
  (lookupMetadata filename client.metadataNodes).bind fun
    | none => .done (.notFound, none)
    | some record => downloadChunksTo client.dht record output

/-- The report is that of `downloadFile`. -/
theorem downloadFile_eq (client : Client) (filename : Bytes) (output : OutputFile) :
    client.downloadFile filename output =
      (downloadFileTo client filename output).bind fun r => .done r.1 := by
  rw [Client.downloadFile, downloadFileTo, bind_assoc]
  congr 1
  funext r
  cases r with
  | none => rfl
  | some record =>
      simp only [downloadChunks, downloadChunksTo, bind_assoc]
      congr 1
      funext chunks
      cases chunks with
      | error index => rfl
      | ok chunks =>
          dsimp only
          rcases reconstructFile chunks output with ⟨ok, opened⟩
          cases ok <;> cases opened <;> rfl

/-- The content of the output file after a download that has written `opened`. -/
def contentAfter (existing : Option Bytes) : Option (List Bytes) → Option Bytes
  | none => existing
  | some pieces => some pieces.flatten

/-! ## What should come of it -/

/-- The first data that one of `n` nodes delivers. -/
def FirstDelivery (n : Nat) (nodes : Nat → Behaviour) (data : Bytes) : Prop :=
  ∃ p < n, (nodes p).Delivers data ∧ ∀ q < p, ∀ other, ¬ (nodes q).Delivers other

/-- One frame for each hash: the first that the nodes of the hash deliver when asked for it. -/
def Frames (dht : ConsistentHash) (behave : Behaviours) (entries : List (Bytes × Nat))
    (frames : List Bytes) : Prop :=
  List.Forall₂ (fun entry data =>
    FirstDelivery (dht.getNodesForKey entry.1 2).length (behave entry.2) data) entries frames

/-- The record lists a hash, the output can be created, and every hash listed has a node that
delivers. -/
def Retrievable (dht : ConsistentHash) (record : FileMetadata) (creatable : Bool)
    (behave : Behaviours) : Prop :=
  record.chunkHashes ≠ [] ∧ creatable = true ∧ ∀ entry ∈ record.chunkHashes.zipIdx,
    ∃ p < (dht.getNodesForKey entry.1 2).length, ∃ data, (behave entry.2 p).Delivers data

/-- A download that meets `record` reports success if and only if the file is retrievable; then the
output is the frames one after the other, and else it is what it was. -/
def FallsBack (client : Client) (filename : Bytes) (creatable : Bool) (lookups : List Bytes)
    (behave : Behaviours) (record : FileMetadata) : Prop :=
  ∃ report opened,
    ((downloadFileTo client filename { creatable := creatable, room := none }).run (serve behave)
      ⟨lookups, 0, 0⟩).2.1 = some (report, opened) ∧
    ((∃ pieces, report = .reconstructed pieces) ↔
      Retrievable client.dht record creatable behave) ∧
    (Retrievable client.dht record creatable behave → ∀ existing, ∃ frames,
      Frames client.dht behave record.chunkHashes.zipIdx frames ∧
        contentAfter existing opened = some frames.flatten) ∧
    (¬ Retrievable client.dht record creatable behave → ∀ existing,
      contentAfter existing opened = existing)

/-! ## The loops -/

/-- One pass of the loop over the replicas. -/
def attempt (hash nodeAddr : Bytes) : Program Call Bytes (Option Bytes) :=
  (downloadChunkFromNode hash nodeAddr).bind fun data =>
    .done (if data = [] then none else some data)

section Loops

variable {dht : ConsistentHash} {behave : Behaviours}

theorem run_attempt {nodeAddr hash : Bytes} (haddr : Addressable nodeAddr) (s : Progress) :
    (∃ data, (behave s.hash s.replica).Delivers data ∧
        ((attempt hash nodeAddr).run (serve behave) s).2 =
          (some (some data), { s with hash := s.hash + 1, replica := 0 })) ∨
      (∀ data, ¬ (behave s.hash s.replica).Delivers data) ∧
        ((attempt hash nodeAddr).run (serve behave) s).2 =
          (some none, { s with replica := s.replica + 1 }) := by
  rcases haddr with ⟨ip, port, haddr⟩
  by_cases hdata : (behave s.hash s.replica).answer (.fetch ip port hash) = []
  · refine Or.inr ⟨Behaviour.answer_fetch_nil.1 hdata, ?_⟩
    simp [attempt, downloadChunkFromNode, onNode, haddr, Program.bind, run, serve, hdata]
  · refine Or.inl ⟨_, (Behaviour.answer_fetch hdata).1 rfl, ?_⟩
    simp [attempt, downloadChunkFromNode, onNode, haddr, Program.bind, run, serve, hdata]

/-- The loop over the replicas of a hash stops at the first that delivers. -/
theorem run_replicas {nodes : List Bytes} (haddr : ∀ a ∈ nodes, Addressable a) {hash : Bytes}
    (s : Progress) :
    (∃ data, FirstDelivery nodes.length (fun p => behave s.hash (s.replica + p)) data ∧
        ((firstSome (attempt hash) nodes).run (serve behave) s).2 =
          (some (some data), { s with hash := s.hash + 1, replica := 0 })) ∨
      (∀ p < nodes.length, ∀ data, ¬ (behave s.hash (s.replica + p)).Delivers data) ∧
        ((firstSome (attempt hash) nodes).run (serve behave) s).2.1 = some none := by
  induction nodes generalizing s with
  | nil => exact Or.inr ⟨by simp, rfl⟩
  | cons nodeAddr nodes ih =>
      have hshift : ∀ q, s.replica + 1 + q = s.replica + (q + 1) := fun q => by omega
      rw [firstSome, run_bind]
      rcases @run_attempt behave nodeAddr hash (haddr _ (by simp)) s with
        ⟨data, hdelivers, hrun⟩ | ⟨hnone, hrun⟩
      · refine Or.inl ⟨data, ⟨0, by simp, hdelivers, by simp⟩, ?_⟩
        rw [hrun]
        rfl
      · rw [hrun]
        rcases ih (fun a ha => haddr a (by simp [ha])) { s with replica := s.replica + 1 } with
          ⟨data, ⟨p, hp, hdelivers, hbefore⟩, hrest⟩ | ⟨hothers, hrest⟩
        · refine Or.inl ⟨data, ⟨p + 1, Nat.succ_lt_succ hp, ?_, ?_⟩, hrest⟩
          · simpa only [hshift] using hdelivers
          · intro q hq other
            cases q with
            | zero => exact hnone other
            | succ q => simpa only [hshift] using hbefore q (Nat.lt_of_succ_lt_succ hq) other
        · refine Or.inr ⟨fun p hp data => ?_, hrest⟩
          cases p with
          | zero => exact hnone data
          | succ p => simpa only [hshift] using hothers p (Nat.lt_of_succ_lt_succ hp) data

/-- One pass of the loop over the hashes. -/
theorem run_chunk (haddr : ∀ a ∈ dht.getAllNodes, Addressable a) (hash : Bytes) (i : Nat)
    (lookups : List Bytes) :
    (∃ chunk, FirstDelivery (dht.getNodesForKey hash 2).length (behave i) chunk.data ∧
        ((downloadChunk dht (hash, i)).run (serve behave) ⟨lookups, i, 0⟩).2 =
          (some (.ok chunk), ⟨lookups, i + 1, 0⟩)) ∨
      (∀ p < (dht.getNodesForKey hash 2).length, ∀ data, ¬ (behave i p).Delivers data) ∧
        ((downloadChunk dht (hash, i)).run (serve behave) ⟨lookups, i, 0⟩).2.1 =
          some (.error i) := by
  have hnodes : ∀ a ∈ dht.getNodesForKey hash 2, Addressable a := fun a ha =>
    haddr a (ConsistentHash.mem_getAllNodes_of_mem_getNodesForKey ha)
  have hfetch : fetchChunk dht hash = firstSome (attempt hash) (dht.getNodesForKey hash 2) := rfl
  rw [downloadChunk, run_bind, hfetch]
  rcases @run_replicas behave _ hnodes hash ⟨lookups, i, 0⟩ with
    ⟨data, hfirst, hrun⟩ | ⟨hnone, hrun⟩
  · rw [hrun]
    simp only [Nat.zero_add] at hfirst
    exact Or.inl ⟨{ index := i, hash := hash, data := data, size := toInt32 data.length },
      hfirst, rfl⟩
  · rw [hrun]
    simp only [Nat.zero_add] at hnone
    exact Or.inr ⟨hnone, rfl⟩

/-- The loop over the hashes has a frame for each of them, or gives up at one that no node
delivers. -/
theorem run_chunks (haddr : ∀ a ∈ dht.getAllNodes, Addressable a) (hashes : List Bytes) (i : Nat)
    (lookups : List Bytes) :
    (∃ chunks, Frames dht behave (hashes.zipIdx i) (chunks.map Chunk.data) ∧
        ((collect (downloadChunk dht) (hashes.zipIdx i)).run (serve behave)
          ⟨lookups, i, 0⟩).2.1 = some (.ok chunks)) ∨
      ∃ entry ∈ hashes.zipIdx i, (∀ p < (dht.getNodesForKey entry.1 2).length, ∀ data,
          ¬ (behave entry.2 p).Delivers data) ∧
        ∃ index, ((collect (downloadChunk dht) (hashes.zipIdx i)).run (serve behave)
          ⟨lookups, i, 0⟩).2.1 = some (.error index) := by
  induction hashes generalizing i with
  | nil => exact Or.inl ⟨[], .nil, rfl⟩
  | cons hash hashes ih =>
      rw [List.zipIdx_cons, collect, run_bind]
      rcases @run_chunk dht behave haddr hash i lookups with ⟨chunk, hfirst, hrun⟩ | ⟨hnone, hrun⟩
      · rw [hrun]
        dsimp only
        rw [run_bind]
        rcases ih (i + 1) with ⟨chunks, hframes, hrest⟩ | ⟨entry, hentry, hnone, index, hrest⟩
        · rw [hrest]
          exact Or.inl ⟨chunk :: chunks, .cons hfirst hframes, rfl⟩
        · rw [hrest]
          exact Or.inr ⟨entry, List.mem_cons_of_mem _ hentry, hnone, index, rfl⟩
      · rw [hrun]
        exact Or.inr ⟨(hash, i), by simp, hnone, i, rfl⟩

end Loops

/-! ## The output -/

/-- A stream that is no longer good takes nothing. -/
theorem foldl_write_bad (frames : List Bytes) (pieces : List Bytes) :
    (frames.foldl (fun out data => OFStream.write out data (toInt32 data.length))
      { pieces := pieces, good := false, room := none }).pieces.flatten = pieces.flatten := by
  induction frames generalizing pieces with
  | nil => rfl
  | cons data frames ih =>
      have hwrite : OFStream.write { pieces := pieces, good := false, room := none } data
          (toInt32 data.length) = { pieces := pieces ++ [[]], good := false, room := none } := by
        simp [OFStream.write]
      rw [List.foldl_cons, hwrite, ih]
      simp

/-- The cast of a size that does not fit an `int` is negative, and ends the writing. -/
theorem foldl_write_cast {frames : List Bytes} (h : ∀ data ∈ frames, data.length < 2 ^ 32)
    (pieces : List Bytes) :
    (frames.foldl (fun out data => OFStream.write out data (toInt32 data.length))
      { pieces := pieces, good := true, room := none }).pieces.flatten =
      pieces.flatten ++ (frames.takeWhile fun data => data.length < 2 ^ 31).flatten := by
  induction frames generalizing pieces with
  | nil => simp
  | cons data frames ih =>
      have hlength : data.length < 2 ^ 32 := h data (by simp)
      rw [List.foldl_cons]
      by_cases hfits : data.length < 2 ^ 31
      · have hsize : toInt32 data.length = data.length :=
          toInt32_of_range (by omega) (by omega)
        have hwrite : OFStream.write { pieces := pieces, good := true, room := none } data
            (toInt32 data.length) = { pieces := pieces ++ [data], good := true, room := none } := by
          rw [hsize]
          simp [OFStream.write]
        rw [hwrite, ih (fun other hother => h other (by simp [hother])),
          List.takeWhile_cons_of_pos (by simpa using hfits)]
        simp
      · have hnegative : toInt32 data.length < 0 := by
          rw [toInt32, Int.bmod_def]
          split <;> omega
        have hwrite : OFStream.write { pieces := pieces, good := true, room := none } data
            (toInt32 data.length) = { pieces := pieces ++ [[]], good := false, room := none } := by
          simp [OFStream.write, hnegative]
        rw [hwrite, foldl_write_bad, List.takeWhile_cons_of_neg (by simpa using hfits)]
        simp

theorem takeWhile_flatten_eq_iff {p : Bytes → Bool} {frames : List Bytes}
    (hne : ∀ data ∈ frames, data ≠ []) :
    (frames.takeWhile p).flatten = frames.flatten ↔ ∀ data ∈ frames, p data = true := by
  induction frames with
  | nil => simp
  | cons data frames ih =>
      cases hp : p data with
      | true => simp [hp, ih fun other hother => hne other (by simp [hother])]
      | false =>
          have hdata := hne data (by simp)
          simp [hp, hdata]

/-- The output takes all of the frames exactly if each of them is short enough. -/
theorem written_eq_iff {frames : List Bytes} (hne : ∀ data ∈ frames, data ≠ [])
    (hlength : ∀ data ∈ frames, data.length < 2 ^ 32) (creatable : Bool) :
    (written { creatable := creatable, room := none } frames).flatten = frames.flatten ↔
      ∀ data ∈ frames, data.length < 2 ^ 31 := by
  have hwritten := foldl_write_cast hlength []
  rw [List.flatten_nil, List.nil_append] at hwritten
  rw [written, hwritten, takeWhile_flatten_eq_iff hne]
  simp

/-- Numbered chunks are written, if there are any and the output can be created. -/
theorem reconstructFile_cases {chunks : List Chunk} {output : OutputFile}
    (hindex : chunks.map Chunk.index = (List.range chunks.length).map Int.ofNat)
    (hsize : ∀ chunk ∈ chunks, chunk.size = toInt32 chunk.data.length) :
    (chunks ≠ [] ∧ output.creatable = true ∧
        reconstructFile chunks output = (true, some (written output (chunks.map Chunk.data)))) ∨
      ¬ (chunks ≠ [] ∧ output.creatable = true) ∧
        reconstructFile chunks output = (false, none) := by
  by_cases hopens : chunks ≠ [] ∧ output.creatable = true
  · have hsome : ∃ pieces, reconstructFile chunks output = (true, some pieces) := by
      simp [reconstructFile, checkIndices_of_numbered hindex, hindex, hopens.1, hopens.2]
    rcases hsome with ⟨pieces, hpieces⟩
    exact Or.inl ⟨hopens.1, hopens.2, reconstructFile_eq hindex hsize hpieces ▸ hpieces⟩
  · refine Or.inr ⟨hopens, ?_⟩
    by_cases hne : chunks = []
    · simp [reconstructFile, hne]
    · have hcreate : output.creatable = false := by simpa [hne] using hopens
      simp [reconstructFile, checkIndices_of_numbered hindex, hindex, hcreate, hne]

/-! ## The first deliveries -/

section Deliveries

variable {dht : ConsistentHash} {behave : Behaviours} {n : Nat} {nodes : Nat → Behaviour}

theorem FirstDelivery.unique {data data' : Bytes} (h : FirstDelivery n nodes data)
    (h' : FirstDelivery n nodes data') : data = data' := by
  rcases h with ⟨p, _, hp, hbefore⟩
  rcases h' with ⟨q, _, hq, hbefore'⟩
  rcases lt_trichotomy p q with hlt | rfl | hgt
  · exact absurd hp (hbefore' p hlt data)
  · exact hp.unique hq
  · exact absurd hq (hbefore q hgt data')

theorem exists_firstDelivery :
    (∃ data, FirstDelivery n nodes data) ↔ ∃ p < n, ∃ data, (nodes p).Delivers data := by
  constructor
  · rintro ⟨data, p, hp, hdelivers, _⟩
    exact ⟨p, hp, data, hdelivers⟩
  · rintro ⟨p, hp, hdelivers⟩
    induction p using Nat.strong_induction_on with
    | _ p ih =>
        by_cases hfirst : ∀ q < p, ∀ other, ¬ (nodes q).Delivers other
        · rcases hdelivers with ⟨data, hdata⟩
          exact ⟨data, p, hp, hdata, hfirst⟩
        · push Not at hfirst
          rcases hfirst with ⟨q, hq, hother⟩
          exact ih q hq (hq.trans hp) hother

theorem Frames.mem {entries : List (Bytes × Nat)} {frames : List Bytes}
    (h : Frames dht behave entries frames) {data : Bytes} (hdata : data ∈ frames) :
    ∃ entry ∈ entries,
      FirstDelivery (dht.getNodesForKey entry.1 2).length (behave entry.2) data := by
  induction h with
  | nil => cases hdata
  | cons hfirst _ ih =>
      rcases List.mem_cons.1 hdata with rfl | hdata
      · exact ⟨_, List.mem_cons_self .., hfirst⟩
      · rcases ih hdata with ⟨entry, hentry, hlater⟩
        exact ⟨entry, List.mem_cons_of_mem _ hentry, hlater⟩

theorem Frames.of_mem {entries : List (Bytes × Nat)} {frames : List Bytes}
    (h : Frames dht behave entries frames) {entry : Bytes × Nat} (hentry : entry ∈ entries) :
    ∃ data ∈ frames,
      FirstDelivery (dht.getNodesForKey entry.1 2).length (behave entry.2) data := by
  induction h with
  | nil => cases hentry
  | cons hfirst _ ih =>
      rcases List.mem_cons.1 hentry with rfl | hentry
      · exact ⟨_, List.mem_cons_self .., hfirst⟩
      · rcases ih hentry with ⟨data, hdata, hlater⟩
        exact ⟨data, List.mem_cons_of_mem _ hdata, hlater⟩

theorem Frames.unique {entries : List (Bytes × Nat)} {frames frames' : List Bytes}
    (h : Frames dht behave entries frames) (h' : Frames dht behave entries frames') :
    frames = frames' := by
  induction h generalizing frames' with
  | nil =>
      cases h'
      rfl
  | cons hfirst _ ih =>
      cases h' with
      | cons hfirst' hrest' => rw [hfirst.unique hfirst', ih hrest']

end Deliveries

/-! ## Whole downloads -/

section Downloads

variable {client : Client} {filename : Bytes} {lookups : List Bytes} {behave : Behaviours}
  {record : FileMetadata}

theorem calls_lookupMetadata (filename : Bytes) (metadataNodes : List Bytes) :
    (lookupMetadata filename metadataNodes).Calls Call.IsLookup := by
  refine Calls.firstSome fun a _ => Calls.bind ?_ fun _ => trivial
  exact calls_onNode fun ip port _ => ⟨trivial, fun _ => trivial⟩

/-- The lookups come before the first request for a chunk. -/
theorem run_lookups (s : Progress) :
    ((lookupMetadata filename client.metadataNodes).run (serve behave) s).2.2.hash = s.hash ∧
      ((lookupMetadata filename client.metadataNodes).run (serve behave) s).2.2.replica =
        s.replica := by
  have hcalls := calls_lookupMetadata filename client.metadataNodes
  refine run_invariant (I := fun _ (s' : Progress) => s'.hash = s.hash ∧ s'.replica = s.replica) ?_ hcalls
    (t := []) ⟨rfl, rfl⟩
  intro t s' c hc h
  cases c with
  | lookup ip port line => exact h
  | store ip port hash data => cases hc
  | fetch ip port hash => cases hc
  | put ip port line => cases hc

/-- What a download does once it has met the record: it has a frame for every hash and writes them,
if it can, or some hash has no node that delivers. -/
theorem run_downloadFileTo (haddr : ∀ a ∈ client.dht.getAllNodes, Addressable a)
    (hrecord : ((lookupMetadata filename client.metadataNodes).run (serve behave)
      ⟨lookups, 0, 0⟩).2.1 = some (some record)) (creatable : Bool) :
    (∃ frames, Frames client.dht behave record.chunkHashes.zipIdx frames ∧
        ((record.chunkHashes ≠ [] ∧ creatable = true ∧
          ((downloadFileTo client filename { creatable := creatable, room := none }).run
            (serve behave) ⟨lookups, 0, 0⟩).2.1 = some
              (.reconstructed (written { creatable := creatable, room := none } frames),
                some (written { creatable := creatable, room := none } frames))) ∨
        ¬ (record.chunkHashes ≠ [] ∧ creatable = true) ∧
          ((downloadFileTo client filename { creatable := creatable, room := none }).run
            (serve behave) ⟨lookups, 0, 0⟩).2.1 = some (.reconstructionFailed, none))) ∨
      ∃ entry ∈ record.chunkHashes.zipIdx,
        (∀ p < (client.dht.getNodesForKey entry.1 2).length, ∀ data,
          ¬ (behave entry.2 p).Delivers data) ∧
        ∃ index, ((downloadFileTo client filename { creatable := creatable, room := none }).run
          (serve behave) ⟨lookups, 0, 0⟩).2.1 = some (.chunkFailed index, none) := by
  rw [downloadFileTo, run_bind, hrecord]
  dsimp only
  -- The requests for chunks begin at the first replica of the first hash.
  have hprogress : ∃ rest, ((lookupMetadata filename client.metadataNodes).run (serve behave)
      ⟨lookups, 0, 0⟩).2.2 = ⟨rest, 0, 0⟩ := by
    have hnumbers := @run_lookups client filename behave ⟨lookups, 0, 0⟩
    generalize ((lookupMetadata filename client.metadataNodes).run (serve behave)
      ⟨lookups, 0, 0⟩).2.2 = s at hnumbers
    rcases s with ⟨rest, hash, replica⟩
    obtain ⟨rfl, rfl⟩ := hnumbers
    exact ⟨rest, rfl⟩
  rcases hprogress with ⟨rest, hprogress⟩
  rw [hprogress, downloadChunksTo, run_bind]
  rcases run_chunks haddr record.chunkHashes 0 rest with
    ⟨chunks, hframes, hrun⟩ | ⟨entry, hentry, hnone, index, hrun⟩
  · have hchunks := returns_collect_downloadChunk (run_returns _ _ _ hrun)
    have hlength : chunks.length = record.chunkHashes.length := by
      simpa using congrArg List.length hchunks.2.1
    have hindex : chunks.map Chunk.index = (List.range chunks.length).map Int.ofNat := by
      rw [hchunks.2.1, hlength, List.range_eq_range']
    have hne : chunks ≠ [] ↔ record.chunkHashes ≠ [] := by
      rw [← List.length_pos_iff, ← List.length_pos_iff, hlength]
    refine Or.inl ⟨chunks.map Chunk.data, hframes, ?_⟩
    rw [hrun]
    rcases @reconstructFile_cases chunks { creatable := creatable, room := none } hindex
      hchunks.2.2 with ⟨hchunksNe, hcreate, hwrite⟩ | ⟨hfails, hwrite⟩
    · refine Or.inl ⟨hne.1 hchunksNe, hcreate, ?_⟩
      simp only [hwrite, run]
    · refine Or.inr ⟨fun h => hfails ⟨hne.2 h.1, h.2⟩, ?_⟩
      simp only [hwrite, run]
  · rw [hrun]
    exact Or.inr ⟨entry, hentry, hnone, index, rfl⟩

theorem Frames.retrievable {creatable : Bool} {frames : List Bytes}
    (h : Frames client.dht behave record.chunkHashes.zipIdx frames)
    (hne : record.chunkHashes ≠ []) (hcreate : creatable = true) :
    Retrievable client.dht record creatable behave := by
  refine ⟨hne, hcreate, fun entry hentry => ?_⟩
  rcases h.of_mem hentry with ⟨data, _, hfirst⟩
  exact exists_firstDelivery.1 ⟨data, hfirst⟩

/-- The frames that arrive are short enough for the cast of their sizes. -/
def ShortFrames (dht : ConsistentHash) (record : FileMetadata) (behave : Behaviours) : Prop :=
  ∀ entry ∈ record.chunkHashes.zipIdx, ∀ data,
    FirstDelivery (dht.getNodesForKey entry.1 2).length (behave entry.2) data →
    data.length < 2 ^ 31

theorem Frames.written_iff {frames : List Bytes}
    (h : Frames client.dht behave record.chunkHashes.zipIdx frames) (creatable : Bool) :
    (written { creatable := creatable, room := none } frames).flatten = frames.flatten ↔
      ShortFrames client.dht record behave := by
  have hdelivered : ∀ data ∈ frames, data ≠ [] ∧ data.length < 2 ^ 32 := by
    intro data hdata
    rcases h.mem hdata with ⟨_, _, _, _, hdelivers, _⟩
    exact ⟨hdelivers.1, hdelivers.2.1⟩
  rw [written_eq_iff (fun data hdata => (hdelivered data hdata).1)
    (fun data hdata => (hdelivered data hdata).2)]
  constructor
  · intro hshort entry hentry data hfirst
    rcases h.of_mem hentry with ⟨data', hdata', hfirst'⟩
    exact hfirst.unique hfirst' ▸ hshort data' hdata'
  · intro hshort data hdata
    rcases h.mem hdata with ⟨entry, hentry, hfirst⟩
    exact hshort entry hentry data hfirst

/-- A download that falls back as it should has taken no frame that is too long. -/
theorem FallsBack.shortFrames {creatable : Bool}
    (haddr : ∀ a ∈ client.dht.getAllNodes, Addressable a)
    (hrecord : ((lookupMetadata filename client.metadataNodes).run (serve behave)
      ⟨lookups, 0, 0⟩).2.1 = some (some record))
    (h : FallsBack client filename creatable lookups behave record)
    (hretrievable : Retrievable client.dht record creatable behave) :
    ShortFrames client.dht record behave := by
  rcases h with ⟨report, opened, hresult, _, hcontent, _⟩
  rcases hcontent hretrievable none with ⟨frames, hframes, heq⟩
  rcases run_downloadFileTo haddr hrecord creatable with
    ⟨frames', hframes', ⟨_, _, hrun⟩ | ⟨hfails, _⟩⟩ | ⟨entry, hentry, hnone, _⟩
  · obtain ⟨rfl, rfl⟩ := Prod.mk.inj (Option.some.inj (hresult.symm.trans hrun))
    rw [hframes.unique hframes'] at heq
    exact (hframes'.written_iff creatable).1 (Option.some.inj heq)
  · exact absurd ⟨hretrievable.1, hretrievable.2.1⟩ hfails
  · rcases hretrievable.2.2 entry hentry with ⟨p, hp, data, hdelivers⟩
    exact absurd hdelivers (hnone p hp data)

theorem addressable_localClient : ∀ a ∈ localClient.dht.getAllNodes, Addressable a := by
  have hring : localClient.dht.getAllNodes =
      [ascii "127.0.0.1:8001", ascii "127.0.0.1:8002"] := by decide +kernel
  intro a ha
  rw [hring] at ha
  simp only [List.mem_cons, List.not_mem_nil, or_false] at ha
  rcases ha with rfl | rfl
  · exact ⟨ascii "127.0.0.1", 8001, by decide +kernel⟩
  · exact ⟨ascii "127.0.0.1", 8002, by decide +kernel⟩

/-- The first replica breaks off in the middle of the frame, the second delivers it. -/
def cutThenDelivered : Behaviours := fun _ p =>
  if p = 0 then .reply (sendData (ascii "FOUND") ++ (sendData (ascii "abc")).dropLast)
  else .reply (sendData (ascii "FOUND") ++ (sendData (ascii "abc") ++ []))

/-- Zero bytes, one more than an `int` counts. -/
@[irreducible] def hugeFrame : Bytes :=
  List.replicate (2 ^ 31) 0

theorem length_hugeFrame : hugeFrame.length = 2 ^ 31 := by
  rw [hugeFrame, List.length_replicate]

end Downloads

end Fallback
end Client
end Dfs
