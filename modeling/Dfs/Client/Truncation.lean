import Dfs.Client.Download
import Dfs.Client.Upload
import Dfs.Common.DeviceErrors

/-!
# Uploads and downloads on a failing disk

An upload describes in its metadata the part of the file that it could read.  It asks for no more
than a non-empty part, so a read error behind the first chunk makes it complete with the record of
a shorter file; and a reconstruction on a full disk reports success.
-/

namespace Dfs
namespace Client

open Bytes Common Program Dht

/-! ## Uploads that complete -/

/-- The part of a file whose chunk hashes the record of its upload lists. -/
def LocalFile.described (file : LocalFile) : Bytes :=
  (file.chunks.map Chunk.data).flatten

theorem LocalFile.described_eq (file : LocalFile) :
    file.described = ((splitFileIntoChunks file.stream).map Chunk.data).flatten := by
  simp [LocalFile.described, LocalFile.chunks, hashAllChunks, hashChunk, Function.comp_def]

theorem LocalFile.chunks_eq_nil {file : LocalFile} :
    file.chunks = [] ↔ splitFileIntoChunks file.stream = [] := by
  simp [LocalFile.chunks, hashAllChunks]

theorem returns_putMetadata_some {line : Bytes} {metadataNodes : List Bytes}
    {t : List (Call × Bytes)} (h : Returns (putMetadata line metadataNodes) t (some ())) :
    ∃ ip port, (.put ip port line, ascii "ACK") ∈ t := by
  rcases returns_firstSome_some h with ⟨_, nodeAddr, _, t₁, t₂, _, rfl, _, hput⟩
  rcases returns_bind.1 hput with ⟨stored, u₁, u₂, rfl, hnode, hreport⟩
  have hstored : stored = true := by
    cases stored with
    | true => rfl
    | false => simp at hreport
  rcases returns_onNode.1 hnode with ⟨_, _, hfalse⟩ | ⟨ip, port, _, hcall⟩
  · rw [hstored] at hfalse
    cases hfalse
  · rcases returns_call.1 hcall with ⟨response, u, rfl, hdone⟩
    rcases returns_done.1 hdone with ⟨rfl, hack⟩
    have hresponse : response = ascii "ACK" := by
      rw [hstored] at hack
      simpa using hack.symm
    exact ⟨ip, port, by simp [hresponse]⟩

/-- A complete upload has put the record of its file into a metadata node. -/
theorem returns_uploadFile_put {client : Client} {file : LocalFile} {t : List (Call × Bytes)}
    (h : Returns (client.uploadFile file) t .complete) :
    ∃ ip port, (.put ip port (putLine file.record), ascii "ACK") ∈ t := by
  unfold Client.uploadFile at h
  split at h
  · simp at h
  · rcases returns_bind.1 h with ⟨e | us, t₁, t₂, rfl, _, hrest⟩
    · simp at hrest
    · rcases returns_bind.1 hrest with ⟨_ | _, u₁, u₂, rfl, hput, hreport⟩
      · simp at hreport
      · rcases returns_putMetadata_some hput with ⟨ip, port, hmem⟩
        exact ⟨ip, port, by simp [hmem]⟩

section Willing

variable {chunk : Chunk}

/-- The address names a port, so that the client opens a connection. -/
def Addressable (nodeAddr : Bytes) : Prop :=
  ∃ ip port, parseNodeAddr nodeAddr = .endpoint ip port

/-- Replicas that all acknowledge are all counted. -/
theorem returns_replicate_all {nodes : List Bytes} (h : ∀ a ∈ nodes, Addressable a)
    (count : Nat) : ∃ t, Returns (replicate chunk nodes count) t (count + nodes.length) := by
  induction nodes generalizing count with
  | nil => exact ⟨[], returns_done.2 ⟨rfl, by simp⟩⟩
  | cons a nodes ih =>
      rcases h a (by simp) with ⟨ip, port, haddr⟩
      rcases ih (fun b hb => h b (by simp [hb])) (count + 1) with ⟨t, ht⟩
      have hnode : Returns (uploadChunkToNode chunk a)
          [(.store ip port chunk.hash chunk.data, ascii "ACK")] true := by
        refine returns_onNode.2 (Or.inr ⟨ip, port, haddr, ?_⟩)
        exact returns_call.2 ⟨_, [], rfl, by simp⟩
      refine ⟨_, returns_bind.2 ⟨true, _, t, rfl, hnode, ?_⟩⟩
      rw [List.length_cons, Nat.add_comm nodes.length, ← Nat.add_assoc]
      exact ht

theorem returns_uploadChunk_ok {dht : ConsistentHash}
    (hne : dht.getNodesForKey chunk.hash replicationFactor ≠ [])
    (h : ∀ a ∈ dht.getNodesForKey chunk.hash replicationFactor, Addressable a) :
    ∃ t, Returns (uploadChunk dht chunk) t (.ok ()) := by
  rcases returns_replicate_all h 0 with ⟨t, ht⟩
  refine ⟨t, returns_bind.2 ⟨_, t, [], by simp, ht, ?_⟩⟩
  simp [hne]

/-- With replicas and a metadata node that answer, the upload of any chunks completes. -/
theorem returns_uploadFile_willing {client : Client} {file : LocalFile} (hchunks : file.chunks ≠ [])
    (hne : ∀ key, client.dht.getNodesForKey key replicationFactor ≠ [])
    (hdht : ∀ a ∈ client.dht.getAllNodes, Addressable a)
    {nodeAddr : Bytes} {rest : List Bytes} (hnodes : client.metadataNodes = nodeAddr :: rest)
    (haddr : Addressable nodeAddr) :
    ∃ t, Returns (client.uploadFile file) t .complete := by
  have hall : ∀ chunks : List Chunk,
      ∃ t us, Returns (collect (uploadChunk client.dht) chunks) t (.ok us) := by
    intro chunks
    induction chunks with
    | nil => exact ⟨[], [], returns_done.2 ⟨rfl, rfl⟩⟩
    | cons chunk chunks ih =>
        rcases ih with ⟨t, us, ht⟩
        rcases returns_uploadChunk_ok (hne chunk.hash) fun a ha =>
          hdht a (ConsistentHash.mem_getAllNodes_of_mem_getNodesForKey ha) with ⟨t', ht'⟩
        exact ⟨t' ++ t, () :: us, returns_collect_cons.2 ⟨(), us, t', t, rfl, rfl, ht', ht⟩⟩
  rcases hall file.chunks with ⟨t, us, ht⟩
  rcases haddr with ⟨ip, port, haddr⟩
  have hput : Returns (putMetadata (putLine file.record) client.metadataNodes)
      [(.put ip port (putLine file.record), ascii "ACK")] (some ()) := by
    rw [hnodes]
    refine returns_firstSome_cons.2 (Or.inl ⟨(), ?_, rfl⟩)
    refine returns_bind.2 ⟨true, [_], [], rfl, ?_, by simp⟩
    refine returns_onNode.2 (Or.inr ⟨ip, port, haddr, ?_⟩)
    exact returns_call.2 ⟨_, [], rfl, by simp⟩
  refine ⟨t ++ [(.put ip port (putLine file.record), ascii "ACK")], ?_⟩
  rw [Client.uploadFile, if_neg hchunks]
  refine returns_bind.2 ⟨.ok us, t, _, rfl, ht, ?_⟩
  exact returns_bind.2 ⟨some (), _, [], by simp, hput, by simp⟩

/-- The client program's own nodes are such a cluster. -/
theorem returns_localClient {file : LocalFile} (h : file.chunks ≠ []) :
    ∃ t, Returns (localClient.uploadFile file) t .complete := by
  have hring : localClient.dht.getAllNodes =
      [ascii "127.0.0.1:8001", ascii "127.0.0.1:8002"] := by decide +kernel
  have hparse : ∀ a ∈ [ascii "127.0.0.1:8001", ascii "127.0.0.1:8002", ascii "127.0.0.1:9001"],
      Addressable a := by
    intro a ha
    simp only [List.mem_cons, List.not_mem_nil, or_false] at ha
    rcases ha with rfl | rfl | rfl
    · exact ⟨ascii "127.0.0.1", 8001, by decide +kernel⟩
    · exact ⟨ascii "127.0.0.1", 8002, by decide +kernel⟩
    · exact ⟨ascii "127.0.0.1", 9001, by decide +kernel⟩
  refine returns_uploadFile_willing h ?_ ?_ rfl (hparse _ (by simp))
  · intro key hnil
    have htwo := length_getNodesForKey key (by rw [hring]; simp)
    rw [replicationFactor] at hnil
    simp [hnil] at htwo
  · intro a ha
    rw [hring] at ha
    exact hparse a (List.mem_append_left [ascii "127.0.0.1:9001"] ha)

end Willing

/-! ## Truncation -/

/-- No completed upload of the file leaves a metadata node with the record of anything but the
whole content. -/
def UploadsWhole (file : LocalFile) (content : Bytes) : Prop :=
  ∀ (client : Client) (t : List (Call × Bytes)), Returns (client.uploadFile file) t .complete →
    ∀ ip port line, (.put ip port line, ascii "ACK") ∈ t →
      line = putLine file.record ∧ file.described = content

/-- No output is reported as reconstructed unless it is the complete content of the chunks. -/
def ReconstructsWhole (chunks : List Chunk) (output : OutputFile) : Prop :=
  ∀ pieces, reconstructFile chunks output = (true, some pieces) → pieces.flatten = contentOf chunks

/-- Uploads are truthful exactly of the files that can be read to the end, or of which not even the
first chunk can be read; and reconstructions exactly on a device with room for all of the data. -/
theorem no_truncation_iff (file : LocalFile) (content : Bytes) (fault : Option Nat)
    (chunks : List Chunk) (output : OutputFile) :
    (file.stream = some (IFStream.onDevice content fault) →
      (UploadsWhole file content ↔ Undamaged content fault)) ∧
    ((∀ c ∈ chunks, c.size = c.data.length) →
      (ReconstructsWhole chunks output ↔ HasRoom chunks output)) := by
  refine ⟨?_, fun hsize => reconstruct_whole_iff hsize output⟩
  intro hstream
  rw [← split_whole_iff, ← hstream, ← file.described_eq]
  constructor
  · intro h hne
    have hchunks : file.chunks ≠ [] := fun hnil => hne (LocalFile.chunks_eq_nil.1 hnil)
    rcases returns_localClient hchunks with ⟨t, ht⟩
    rcases returns_uploadFile_put ht with ⟨ip, port, hmem⟩
    exact (h localClient _ ht ip port _ hmem).2
  · intro h client t ht ip port line hput
    have hne : splitFileIntoChunks file.stream ≠ [] := by
      intro hnil
      rw [Client.uploadFile, if_pos (LocalFile.chunks_eq_nil.2 hnil)] at ht
      simp at ht
    refine ⟨?_, h hne⟩
    rcases (ht.calls (calls_uploadFile client file)).2 _ hput with ⟨_, _, _, _, heq⟩ | ⟨_, _, heq⟩
    · cases heq
    · cases heq
      rfl

/-- A file of one chunk and one byte, whose last byte cannot be read. -/
def unreadableTail : LocalFile :=
  { path := ascii "tail.bin"
    stream := some (IFStream.onDevice (List.replicate (CHUNK_SIZE + 1) 0) (some CHUNK_SIZE))
    size := CHUNK_SIZE + 1
    size_range := by decide }

theorem described_unreadableTail :
    unreadableTail.described = List.replicate CHUNK_SIZE 0 := by
  have hpos : 0 < CHUNK_SIZE := by decide
  have hread := readLoop_fault (List.replicate (CHUNK_SIZE + 1) 0) CHUNK_SIZE 0
    (by rw [List.length_replicate]; exact Nat.le_succ _)
  rw [Nat.div_self hpos, Nat.one_mul, List.take_replicate, min_eq_left (Nat.le_succ _)] at hread
  rw [LocalFile.described_eq]
  exact hread

/-- The two halves at healthy inputs: a file whose device fails only behind its end, and an output
with exactly the room it takes. -/
theorem no_truncation_iff_healthy :
    UploadsWhole
        { path := ascii "abc.txt"
          stream := some (IFStream.onDevice (ascii "abc") (some 4))
          size := 3
          size_range := by decide } (ascii "abc") ∧
      ReconstructsWhole [{ index := 0, hash := [], data := [1, 2], size := 2 }]
        { creatable := true, room := some 2 } := by
  have h := no_truncation_iff
    { path := ascii "abc.txt"
      stream := some (IFStream.onDevice (ascii "abc") (some 4))
      size := 3
      size_range := by decide }
    (ascii "abc") (some 4) [{ index := 0, hash := [], data := [1, 2], size := 2 }]
    { creatable := true, room := some 2 }
  refine ⟨(h.1 rfl).2 ⟨fun d hd => Or.inr (Or.inl ?_)⟩, (h.2 (by decide)).2 fun _ _ _ room hroom => ?_⟩
  · rw [← Option.some.inj hd]
    decide
  · rw [← Option.some.inj hroom]
    decide +kernel

/-- The upload of a file whose last byte cannot be read completes, with the record of the file
without that byte; and an output on a device with room for one byte of two is reported as
reconstructed. -/
theorem truncated_file_accepted :
    (∃ t, Returns (localClient.uploadFile unreadableTail) t .complete ∧
      ∃ ip port, (.put ip port (putLine unreadableTail.record), ascii "ACK") ∈ t) ∧
    unreadableTail.described = List.replicate CHUNK_SIZE 0 ∧
    unreadableTail.described ≠ List.replicate (CHUNK_SIZE + 1) 0 ∧
    ¬ UploadsWhole unreadableTail (List.replicate (CHUNK_SIZE + 1) 0) ∧
    reconstructFile [{ index := 0, hash := [], data := [1, 2], size := 2 }]
      { creatable := true, room := some 1 } = (true, some [[1]]) := by
  have hshort : unreadableTail.described ≠ List.replicate (CHUNK_SIZE + 1) 0 := by
    rw [described_unreadableTail]
    intro heq
    have hlen := congrArg List.length heq
    rw [List.length_replicate, List.length_replicate] at hlen
    exact absurd hlen (Nat.ne_of_lt (Nat.lt_succ_self CHUNK_SIZE))
  have hchunks : unreadableTail.chunks ≠ [] := by
    intro hnil
    have hdescribed := described_unreadableTail
    rw [LocalFile.described, hnil] at hdescribed
    have hlen := congrArg List.length hdescribed
    rw [List.length_replicate] at hlen
    exact absurd hlen (by decide)
  rcases returns_localClient hchunks with ⟨t, ht⟩
  rcases returns_uploadFile_put ht with ⟨ip, port, hmem⟩
  refine ⟨⟨t, ht, ip, port, hmem⟩, described_unreadableTail, hshort, ?_, by decide +kernel⟩
  intro hwhole
  exact hshort (hwhole localClient t ht ip port _ hmem).2

end Client
end Dfs
