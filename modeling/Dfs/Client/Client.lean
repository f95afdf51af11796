import Dfs.Common.Files
import Dfs.Dht.Membership
import Dfs.Library.Program
import Dfs.Metadata.MetadataNode
import Dfs.Network.Tcp

/-!
# The client

`Client` of the source as a program whose calls are the connections it opens: `uploadFile` and
`downloadFile` with the loops over chunks, replicas and metadata nodes.  A call is answered with
the last message its conversation received, the empty one when the connection failed.
-/

set_option linter.dupNamespace false

namespace Dfs
namespace Client

open Bytes TextScan Network Common Dht Metadata Program

/-! ## Calls -/

/-- The connections a client opens, with the address they go to. -/
inductive Call where
  | store (ip : Bytes) (port : Int) (hash data : Bytes)
  | fetch (ip : Bytes) (port : Int) (hash : Bytes)
  | put (ip : Bytes) (port : Int) (line : Bytes)
  | lookup (ip : Bytes) (port : Int) (line : Bytes)
  deriving DecidableEq

/-- `uploadChunkToNode` from its first response on. -/
def afterReady (data response : Bytes) : Conv :=
  if response = ascii "READY" then .send data <| .recv .done
  else .done []

/-- The conversation of `uploadChunkToNode`. -/
def storeConv (hash data : Bytes) : Conv :=
  .send (ascii "STORE " ++ hash) <| .recv (afterReady data)

/-- `downloadChunkFromNode` from its first response on. -/
def afterFound (response : Bytes) : Conv :=
  if response = ascii "FOUND" then .recv .done
  else .done []

/-- The conversation of `downloadChunkFromNode`. -/
def fetchConv (hash : Bytes) : Conv :=
  .send (ascii "GET " ++ hash) <| .recv afterFound

/-- The conversation of `putMetadataToNode` and `getMetadataFromNode`. -/
def requestConv (line : Bytes) : Conv :=
  .send line <| .recv .done

namespace Call

def conv : Call → Conv
  | store _ _ hash data => storeConv hash data
  | fetch _ _ hash => fetchConv hash
  | put _ _ line => requestConv line
  | lookup _ _ line => requestConv line

def endpoint : Call → Bytes × Int
  | store ip port _ _ => (ip, port)
  | fetch ip port _ => (ip, port)
  | put ip port _ => (ip, port)
  | lookup ip port _ => (ip, port)

def IsStore : Call → Prop
  | store .. => True
  | _ => False

def IsPut : Call → Prop
  | put .. => True
  | _ => False

def IsFetch : Call → Prop
  | fetch .. => True
  | _ => False

def IsLookup : Call → Prop
  | lookup .. => True
  | _ => False

end Call

/-- The address text `ip:port` of a node. -/
inductive NodeAddr where
  /-- no colon: the routine fails -/
  | noColon
  /-- `std::stoi` throws -/
  | badPort
  | endpoint (ip : Bytes) (port : Int)
  deriving DecidableEq

def parseNodeAddr (nodeAddr : Bytes) : NodeAddr :=
  match nodeAddr.dropWhile (· ≠ 58) with
  | [] => .noColon
  | _ :: text =>
      match readInt32 text with
      | none => .badPort
      | some (port, _) => .endpoint (nodeAddr.takeWhile (· ≠ 58)) port

/-- The lines at the start of the four routines that talk to one node. -/
def onNode {ρ : Type} (nodeAddr : Bytes) (failure : ρ)
    (body : Bytes → Int → Program Call Bytes ρ) : Program Call Bytes ρ :=
  match parseNodeAddr nodeAddr with
  | .noColon => .done failure
  | .badPort => .throw
  | .endpoint ip port => body ip port

/-! ## Chunks -/

def uploadChunkToNode (chunk : Chunk) (nodeAddr : Bytes) : Program Call Bytes Bool :=
  onNode nodeAddr false fun ip port =>
    .call (.store ip port chunk.hash chunk.data) fun response =>
      .done (response = ascii "ACK")

def downloadChunkFromNode (hash nodeAddr : Bytes) : Program Call Bytes Bytes :=
  onNode nodeAddr [] fun ip port =>
    .call (.fetch ip port hash) .done

/-! ## Metadata -/

/-- The file name of a path: what follows the last slash of either kind. -/
def baseName (filepath : Bytes) : Bytes :=
  (filepath.reverse.takeWhile fun b => b ≠ 47 && b ≠ 92).reverse

/-- The record that `putMetadataToNode` writes out. -/
def uploadRecord (filepath : Bytes) (size : Int) (chunks : List Chunk) (rootHash : Bytes) :
    FileMetadata :=
  { filename := baseName filepath
    rootHash := rootHash
    fileSize := size
    chunkSize := CHUNK_SIZE
    totalChunks := toInt32 chunks.length
    chunkHashes := chunks.map Chunk.hash }

/-- The command of `putMetadataToNode`. -/
def putLine (record : FileMetadata) : Bytes :=
  ascii "PUT " ++ record.filename ++ ascii " " ++ showFields record

def putMetadataToNode (nodeAddr line : Bytes) : Program Call Bytes Bool :=
  onNode nodeAddr false fun ip port =>
    .call (.put ip port line) fun response =>
      .done (response = ascii "ACK")

/-- `FileMetadata` as its constructor leaves it. -/
def emptyMetadata : FileMetadata :=
  { filename := []
    rootHash := []
    fileSize := 0
    chunkSize := 0
    totalChunks := 0
    chunkHashes := [] }

/-- The reading of a `FOUND` message; `none` where `getMetadataFromNode` leaves the name and the
hash list empty, and its caller looks at nothing else. -/
def readFound (filename response : Bytes) : Option FileMetadata :=
  if 6 < response.length ∧ response.take 6 = ascii "FOUND " then
    readFields filename (response.drop 6)
  else none

def getLine (filename : Bytes) : Bytes :=
  ascii "GET " ++ filename

def getMetadataFromNode (nodeAddr filename : Bytes) : Program Call Bytes FileMetadata :=
  onNode nodeAddr emptyMetadata fun ip port =>
    .call (.lookup ip port (getLine filename)) fun response =>
      .done ((readFound filename response).getD emptyMetadata)

/-! ## Upload -/

structure Client where
  dht : ConsistentHash
  metadataNodes : List Bytes

/-- The constructor. -/
def Client.make (storageNodes metadataNodes : List Bytes) : Client :=
  { dht := ConsistentHash.build storageNodes
    metadataNodes := metadataNodes }

/-- A local file: its path, the stream that opening it gives, and what `stat` says. -/
structure LocalFile where
  path : Bytes
  stream : Option IFStream
  size : Int
  size_range : -2 ^ 63 ≤ size ∧ size ≤ 2 ^ 63 - 1

def LocalFile.chunks (file : LocalFile) : List Chunk :=
  hashAllChunks (splitFileIntoChunks file.stream)

def LocalFile.hashes (file : LocalFile) : List Bytes :=
  file.chunks.map Chunk.hash

/-- The chunks to upload: full of data, with their sizes and the hashes of their data. -/
theorem LocalFile.mem_chunks {file : LocalFile} {chunk : Chunk} (h : chunk ∈ file.chunks) :
    WellSized chunk ∧ chunk.hash = computeSHA256 chunk.data := by
  rcases List.mem_map.1 h with ⟨piece, hpiece, rfl⟩
  have hsized := split_wellSized hpiece
  exact ⟨⟨hsized.data_ne_nil, hsized.length_le, hsized.size_eq⟩, hashChunk_of_wellSized hsized⟩

def LocalFile.record (file : LocalFile) : FileMetadata :=
  uploadRecord file.path file.size file.chunks (computeRootHash file.hashes)

inductive UploadReport where
  | emptyFile
  | chunkFailed (index : Int)
  | metadataFailed
  | complete
  deriving DecidableEq

/-- The loop over the replicas of a chunk, with the successes so far. -/
def replicate (chunk : Chunk) : List Bytes → Nat → Program Call Bytes Nat
  | [], successCount => .done successCount
  | nodeAddr :: nodes, successCount =>
      (uploadChunkToNode chunk nodeAddr).bind fun stored =>
        replicate chunk nodes (if stored then successCount + 1 else successCount)

def replicationFactor : Int := 2

/-- One pass of the loop over the chunks. -/
def uploadChunk (dht : ConsistentHash) (chunk : Chunk) : Program Call Bytes (Except Int Unit) :=
  (replicate chunk (dht.getNodesForKey chunk.hash replicationFactor) 0).bind fun successCount =>
    .done (if successCount = 0 then .error chunk.index else .ok ())

/-- The loop over the metadata nodes, first to last. -/
def putMetadata (line : Bytes) (metadataNodes : List Bytes) : Program Call Bytes (Option Unit) :=
  firstSome
    (fun nodeAddr => (putMetadataToNode nodeAddr line).bind fun stored =>
      .done (if stored then some () else none))
    metadataNodes

namespace Client

def uploadFile (client : Client) (file : LocalFile) : Program Call Bytes UploadReport :=
  if file.chunks = [] then .done .emptyFile
  else
    (collect (uploadChunk client.dht) file.chunks).bind fun
      | .error index => .done (.chunkFailed index)
      | .ok _ =>
          (putMetadata (putLine file.record) client.metadataNodes).bind fun
            | some _ => .done .complete
            | none => .done .metadataFailed

end Client

/-! ## Download -/

inductive DownloadReport where
  | notFound
  | chunkFailed (index : Int)
  | reconstructionFailed
  /-- what was written to the output file, one piece for each chunk -/
  | reconstructed (pieces : List Bytes)
  deriving DecidableEq

/-- The test of `downloadFile` on the record of a metadata node. -/
def isFound (record : FileMetadata) : Bool :=
  record.filename ≠ [] || record.chunkHashes ≠ []

/-- The loop over the metadata nodes, last to first. -/
def lookupMetadata (filename : Bytes) (metadataNodes : List Bytes) :
    Program Call Bytes (Option FileMetadata) :=
  firstSome
    (fun nodeAddr => (getMetadataFromNode nodeAddr filename).bind fun record =>
      .done (if isFound record then some record else none))
    metadataNodes.reverse

/-- The loop over the replicas of a chunk, up to the first that delivers anything. -/
def fetchChunk (dht : ConsistentHash) (hash : Bytes) : Program Call Bytes (Option Bytes) :=
  firstSome
    (fun nodeAddr => (downloadChunkFromNode hash nodeAddr).bind fun data =>
      .done (if data = [] then none else some data))
    (dht.getNodesForKey hash 2)

/-- One pass of the loop over the hashes of a record.  A record comes in one frame and lists fewer
than `2 ^ 31` hashes, so the cast of the index is exact; that of the size need not be. -/
def downloadChunk (dht : ConsistentHash) (entry : Bytes × Nat) :
    Program Call Bytes (Except Int Chunk) :=
  (fetchChunk dht entry.1).bind fun
    | none => .done (.error entry.2)
    | some data =>
        .done (.ok
          { index := entry.2
            hash := entry.1
            data := data
            size := toInt32 data.length })

/-- The download from the record on. -/
def downloadChunks (dht : ConsistentHash) (record : FileMetadata) (output : OutputFile) :
    Program Call Bytes DownloadReport :=
  (collect (downloadChunk dht) record.chunkHashes.zipIdx).bind fun
    | .error index => .done (.chunkFailed index)
    | .ok chunks =>
        match reconstructFile chunks output with
        | (true, some pieces) => .done (.reconstructed pieces)
        | _ => .done .reconstructionFailed

namespace Client

def downloadFile (client : Client) (filename : Bytes) (output : OutputFile) :
    Program Call Bytes DownloadReport :=
  (lookupMetadata filename client.metadataNodes).bind fun
    | none => .done .notFound
    | some record => downloadChunks client.dht record output

end Client
end Client
end Dfs
