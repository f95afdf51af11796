import Dfs.Client.Upload
import Dfs.Library.HashList

/-!
# Content identifiers

`computeCID` of the verification tool: the root of the hash list of a file's chunks.  It is the
root hash that an upload of the file puts into its record.
-/

namespace Dfs
namespace Client

open Bytes Common Program HashList

/-- The chunk hashes that `computeCID` collects. -/
def chunkHashes (stream : Option IFStream) : List Bytes :=
  (hashAllChunks (splitFileIntoChunks stream)).map Chunk.hash

def computeCID (stream : Option IFStream) : Bytes :=
  if splitFileIntoChunks stream = [] then []
  else computeRootHash (chunkHashes stream)

theorem chunkHashes_eq (stream : Option IFStream) :
    chunkHashes stream = ((splitFileIntoChunks stream).map Chunk.data).map computeSHA256 := by
  simp only [chunkHashes, hashAllChunks, List.map_map]
  refine List.map_congr_left ?_
  intro chunk hchunk
  exact hashChunk_of_wellSized (split_wellSized hchunk)

/-- The CID is the root of the hash list of the chunks' data. -/
theorem computeCID_eq_root {stream : Option IFStream} (h : splitFileIntoChunks stream ≠ []) :
    computeCID stream = root computeSHA256 ((splitFileIntoChunks stream).map Chunk.data) := by
  rw [computeCID, if_neg h, chunkHashes_eq]
  rfl

theorem rootHash_eq_computeCID {file : LocalFile} (h : splitFileIntoChunks file.stream ≠ []) :
    file.record.rootHash = computeCID file.stream := by
  rw [computeCID, if_neg h]
  rfl

/-- Files with the same CID are the same, or their chunks or the concatenations of their chunk
hashes collide; and the root hash of an upload, in every record that it sends, is the CID. -/
theorem computeCID_binding :
    (∀ content content' : Bytes, content ≠ [] → content' ≠ [] →
      let file := some (IFStream.ofContent content)
      let file' := some (IFStream.ofContent content')
      computeCID file = computeCID file' →
        content = content' ∨
          Collides computeSHA256 (chunkHashes file).flatten (chunkHashes file').flatten ∨
          ∃ chunk ∈ splitFileIntoChunks file, ∃ chunk' ∈ splitFileIntoChunks file',
            Collides computeSHA256 chunk.data chunk'.data) ∧
    ∀ (client : Client) (file : LocalFile), splitFileIntoChunks file.stream ≠ [] →
      computeRootHash file.hashes = computeCID file.stream ∧
        (client.uploadFile file).Calls fun c => c.IsPut →
          ∃ ip port record, c = .put ip port (putLine record) ∧
            record.rootHash = computeCID file.stream := by
  refine ⟨?_, ?_⟩
  · intro content content' hne hne' file file' hcid
    have hsplit : splitFileIntoChunks file ≠ [] := split_ne_nil hne
    have hsplit' : splitFileIntoChunks file' ≠ [] := split_ne_nil hne'
    rw [computeCID_eq_root hsplit, computeCID_eq_root hsplit'] at hcid
    have hwidth : ∀ x, (computeSHA256 x).length = 64 := fun x => (isHash_sha256 x).length_eq
    rcases pieces_of_root (by decide) hwidth hcid with hpieces | hroot | ⟨x, hx, y, hy, hxy⟩
    · left
      calc content
          = ((splitFileIntoChunks file).map Chunk.data).flatten := (split_flatten content).symm
        _ = ((splitFileIntoChunks file').map Chunk.data).flatten := by rw [hpieces]
        _ = content' := split_flatten content'
    · right
      left
      rw [chunkHashes_eq, chunkHashes_eq]
      exact hroot
    · rcases List.mem_map.1 hx with ⟨chunk, hchunk, rfl⟩
      rcases List.mem_map.1 hy with ⟨chunk', hchunk', rfl⟩
      exact Or.inr (Or.inr ⟨chunk, hchunk, chunk', hchunk', hxy⟩)
  · intro client file hsplit
    refine ⟨rootHash_eq_computeCID hsplit, ?_⟩
    refine (calls_uploadFile client file).imp ?_
    rintro c (⟨ip, port, chunk, _, rfl⟩ | ⟨ip, port, rfl⟩) hput
    · exact hput.elim
    · exact ⟨ip, port, file.record, rfl, rootHash_eq_computeCID hsplit⟩

/-- The two halves at one file. -/
theorem computeCID_binding_abc :
    (ascii "abc" = ascii "abc" ∨
        Collides computeSHA256 (chunkHashes abcFile.stream).flatten
          (chunkHashes abcFile.stream).flatten ∨
        ∃ chunk ∈ splitFileIntoChunks abcFile.stream,
          ∃ chunk' ∈ splitFileIntoChunks abcFile.stream,
            Collides computeSHA256 chunk.data chunk'.data) ∧
      computeRootHash abcFile.hashes = computeCID abcFile.stream :=
  ⟨computeCID_binding.1 (ascii "abc") (ascii "abc") (by decide) (by decide) rfl,
    (computeCID_binding.2 localClient abcFile (by decide +kernel)).1⟩

end Client
end Dfs
