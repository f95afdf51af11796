import Dfs.Library.TextScan

/-!
# Metadata nodes

The state of one `MetadataNode` and what its handlers compute from it: the parsing and storing of
a `PUT`, the answer to a `GET`, the reconfiguration commands, and the recovery step of the health
check.  Sending, forwarding and the interleaving of handlers are in `Dfs.Metadata.Chain`.
-/

namespace Dfs
namespace Metadata

open Bytes TextScan

structure FileMetadata where
  filename : Bytes
  rootHash : Bytes
  fileSize : Int
  chunkSize : Int
  totalChunks : Int
  chunkHashes : List Bytes
  deriving DecidableEq

/-- The fields of a record behind its name, as `PUT` and `FOUND` messages spell them. -/
def showFields (record : FileMetadata) : Bytes :=
  showInt record.fileSize ++ ascii " " ++ showInt record.chunkSize ++ ascii " " ++
    showInt record.totalChunks ++ ascii " " ++ record.rootHash ++ ascii " " ++
    joinItems 44 record.chunkHashes

/-- The extraction of these fields, and the splitting of the hash list. -/
def readFields (filename s : Bytes) : Option FileMetadata := do
  let (fileSize, s) ← readInt64 s
  let (chunkSize, s) ← readInt32 s
  let (totalChunks, s) ← readInt32 s
  let (rootHash, s) ← readWord s
  let (hashesStr, _) ← readWord s
  some
    { filename := filename
      rootHash := rootHash
      fileSize := fileSize
      chunkSize := chunkSize
      totalChunks := totalChunks
      chunkHashes := splitItems 44 hashesStr }

inductive Role where
  | head
  | middle
  | tail
  | single
  deriving DecidableEq

structure MetadataNode where
  metadataStore : Bytes → Option FileMetadata
  nextNodeIp : Bytes
  nextNodePort : Int
  prevNodeIp : Bytes
  prevNodePort : Int
  skipToIp : Bytes
  skipToPort : Int
  role : Role
  myPort : Int

namespace MetadataNode

/-- The constructor, followed by `start(port)`. -/
def launch (nextNodeIp : Bytes) (nextNodePort port : Int) : MetadataNode :=
  { metadataStore := fun _ => none
    nextNodeIp := nextNodeIp
    nextNodePort := nextNodePort
    prevNodeIp := []
    prevNodePort := -1
    skipToIp := []
    skipToPort := -1
    role := if nextNodePort = -1 then .tail else .head
    myPort := port }

/-! ## PUT -/

/-- The extraction at the start of `handlePut`; `none` is the `ERROR_ARGS` branch. -/
def parsePut (command : Bytes) : Option FileMetadata := do
  let (_, s) ← readWord command
  let (filename, s) ← readWord s
  readFields filename s

/-- `metadataStore_[filename] = meta`. -/
def storeMetadata (node : MetadataNode) (record : FileMetadata) : MetadataNode :=
  { node with metadataStore := Function.update node.metadataStore record.filename (some record) }

/-- `handlePut` up to the unlock; `none` is the `ERROR_ARGS` branch. -/
def acceptPut (node : MetadataNode) (command : Bytes) : Option MetadataNode :=
  (parsePut command).map node.storeMetadata

/-- The test of `handlePut` between storing and answering. -/
def mustForward (node : MetadataNode) : Bool :=
  node.role ≠ .tail && node.role ≠ .single && node.nextNodePort ≠ -1

/-! ## GET -/

/-- The `FOUND` message for a record. -/
def foundMessage (record : FileMetadata) : Bytes :=
  ascii "FOUND " ++ showFields record

/-- The test at the start of `handleGet`; a node that fails it answers `REDIRECT_TO_TAIL`. -/
def servesReads (node : MetadataNode) : Bool :=
  node.role = .tail || node.role = .single

/-- The rest of `handleGet`: the answer for the record found under the mutex. -/
def lookupMessage : Option FileMetadata → Bytes
  | none => ascii "NOT_FOUND"
  | some record => foundMessage record

/-! ## Reconfiguration -/

def updatePrev (node : MetadataNode) (ip : Bytes) (port : Int) : MetadataNode :=
  { node with
    prevNodeIp := ip
    prevNodePort := port
    role := match node.role with
      | .head => .middle
      | .single => .tail
      | role => role }

def updateNext (node : MetadataNode) (ip : Bytes) (port : Int) : MetadataNode :=
  { node with
    nextNodeIp := ip
    nextNodePort := port
    role := match node.role with
      | .tail => .middle
      | .single => .head
      | role => role }

def setSkip (node : MetadataNode) (ip : Bytes) (port : Int) : MetadataNode :=
  { node with
    skipToIp := ip
    skipToPort := port }

def roleName : Role → Bytes
  | .head => ascii "HEAD"
  | .middle => ascii "MIDDLE"
  | .tail => ascii "TAIL"
  | .single => ascii "SINGLE"

def statusMessage (node : MetadataNode) : Bytes :=
  ascii "ROLE=" ++ roleName node.role ++ ascii " NEXT=" ++ showInt node.nextNodePort ++
    ascii " PREV=" ++ showInt node.prevNodePort

/-- `handleNextNodeFailure`: the node after it, and the message that
`notifyNextOfPredecessor` sends to the new next node. -/
def handleNextNodeFailure (node : MetadataNode) : MetadataNode × Option Bytes :=
  if node.skipToPort ≠ -1 then
    ({ node with
        nextNodeIp := node.skipToIp
        nextNodePort := node.skipToPort
        skipToIp := []
        skipToPort := -1 },
      some (ascii "UPDATE_PREV 127.0.0.1 " ++ showInt node.myPort))
  else
    ({ node with
        nextNodeIp := []
        nextNodePort := -1
        role := if node.prevNodePort = -1 then .single else .tail },
      none)

/-! ## Dispatch -/

/-- What one pass of the loop of `handleClient` does with the frame it received. -/
inductive Action where
  /-- leave the loop and close the connection -/
  | close
  /-- hand the frame to `handlePut` -/
  | put
  /-- hand the name to `handleGet` -/
  | get (filename : Bytes)
  /-- update the node and send a reply -/
  | respond (node : MetadataNode) (reply : Bytes)
  /-- send nothing and wait for the next frame -/
  | ignore
  /-- stop the whole node -/
  | die

/-- The three reconfiguration commands: an ip and a port, else no reply at all. -/
def reconfigure (node : MetadataNode) (args : Bytes)
    (update : MetadataNode → Bytes → Int → MetadataNode) : Action :=
  match readWord args with
  | none => .ignore
  | some (ip, s) =>
      match readInt32 s with
      | none => .ignore
      | some (port, _) => .respond (update node ip port) (ascii "ACK")

def dispatch (node : MetadataNode) (command : Bytes) : Action :=
  if command = [] then .close
  else
    let (op, args) := (readWord command).getD ([], [])
    if op = ascii "PUT" then .put
    else if op = ascii "GET" then
      match readWord args with
      | none => .ignore
      | some (filename, _) => .get filename
    else if op = ascii "PING" then .respond node (ascii "PONG")
    else if op = ascii "UPDATE_PREV" then node.reconfigure args updatePrev
    else if op = ascii "UPDATE_NEXT" then node.reconfigure args updateNext
    else if op = ascii "SET_SKIP" then node.reconfigure args setSkip
    else if op = ascii "GET_STATUS" then .respond node node.statusMessage
    else if op = ascii "DIE" then .die
    else .respond node (ascii "ERROR")

/-! ## Field lemmas -/

@[simp] theorem storeMetadata_role (node : MetadataNode) (record : FileMetadata) :
    (node.storeMetadata record).role = node.role := rfl

@[simp] theorem storeMetadata_nextNodeIp (node : MetadataNode) (record : FileMetadata) :
    (node.storeMetadata record).nextNodeIp = node.nextNodeIp := rfl

@[simp] theorem storeMetadata_nextNodePort (node : MetadataNode) (record : FileMetadata) :
    (node.storeMetadata record).nextNodePort = node.nextNodePort := rfl

@[simp] theorem storeMetadata_metadataStore (node : MetadataNode) (record : FileMetadata) :
    (node.storeMetadata record).metadataStore =
      Function.update node.metadataStore record.filename (some record) := rfl

@[simp] theorem servesReads_storeMetadata (node : MetadataNode) (record : FileMetadata) :
    (node.storeMetadata record).servesReads = node.servesReads := rfl

@[simp] theorem mustForward_storeMetadata (node : MetadataNode) (record : FileMetadata) :
    (node.storeMetadata record).mustForward = node.mustForward := rfl

/-- The frames that go to `handlePut` are those whose first word is `PUT`. -/
theorem dispatch_eq_put {node : MetadataNode} {command : Bytes} :
    node.dispatch command = .put ↔ ∃ s, readWord command = some (ascii "PUT", s) := by
  constructor
  · intro h
    unfold dispatch at h
    split at h
    · cases h
    · cases hword : readWord command with
      | none =>
          -- Without a first word the command is none of the known ones.
          have hempty : ([] : Bytes) ≠ ascii "PUT" ∧ ([] : Bytes) ≠ ascii "GET" ∧
              ([] : Bytes) ≠ ascii "PING" ∧ ([] : Bytes) ≠ ascii "UPDATE_PREV" ∧
              ([] : Bytes) ≠ ascii "UPDATE_NEXT" ∧ ([] : Bytes) ≠ ascii "SET_SKIP" ∧
              ([] : Bytes) ≠ ascii "GET_STATUS" ∧ ([] : Bytes) ≠ ascii "DIE" := by decide
          simp [hword, hempty] at h
      | some p =>
          rcases p with ⟨op, args⟩
          by_cases hop : op = ascii "PUT"
          · exact ⟨args, by rw [hop]⟩
          · simp only [hword, Option.getD_some, if_neg hop, reconfigure] at h
            repeat' split at h
            all_goals cases h
  · rintro ⟨s, hword⟩
    have hne : command ≠ [] := by
      rintro rfl
      simp [readWord, skipSpace] at hword
    simp [dispatch, hne, hword]

/-- The frames that go to `handleGet`, with the name they ask for. -/
theorem dispatch_eq_get {node : MetadataNode} {command filename : Bytes} :
    node.dispatch command = .get filename ↔
      ∃ s rest, readWord command = some (ascii "GET", s) ∧ readWord s = some (filename, rest) := by
  have hput : ascii "GET" ≠ ascii "PUT" := by decide
  constructor
  · intro h
    unfold dispatch at h
    split at h
    · cases h
    · cases hword : readWord command with
      | none =>
          have hempty : ([] : Bytes) ≠ ascii "PUT" ∧ ([] : Bytes) ≠ ascii "GET" ∧
              ([] : Bytes) ≠ ascii "PING" ∧ ([] : Bytes) ≠ ascii "UPDATE_PREV" ∧
              ([] : Bytes) ≠ ascii "UPDATE_NEXT" ∧ ([] : Bytes) ≠ ascii "SET_SKIP" ∧
              ([] : Bytes) ≠ ascii "GET_STATUS" ∧ ([] : Bytes) ≠ ascii "DIE" := by decide
          simp [hword, hempty] at h
      | some p =>
          rcases p with ⟨op, args⟩
          by_cases hop : op = ascii "GET"
          · subst hop
            simp only [hword, Option.getD_some, if_neg hput, if_true] at h
            cases hargs : readWord args with
            | none => simp [hargs] at h
            | some q =>
                rcases q with ⟨name, rest⟩
                simp only [hargs, Action.get.injEq] at h
                subst h
                exact ⟨args, rest, rfl, hargs⟩
          · simp only [hword, Option.getD_some, if_neg hop, reconfigure] at h
            repeat' split at h
            all_goals cases h
  · rintro ⟨s, rest, hword, hname⟩
    have hne : command ≠ [] := by
      rintro rfl
      simp [readWord, skipSpace] at hword
    simp [dispatch, hne, hword, hname, hput]

end MetadataNode
end Metadata
end Dfs
