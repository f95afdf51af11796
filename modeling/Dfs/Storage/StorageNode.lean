import Dfs.Library.TextScan
import Dfs.Network.Tcp

/-!
# Storage nodes

One `StorageNode` and one connection to it.  The handler of a connection alternates between reading
frames and its two accesses to `storage_` under the mutex; those accesses are the steps that
handlers of different connections interleave.  A client's connection is stepped together with its
handler: a frame is handed over when the handler is in `recvMessage` or `recvData`.  The messages of
a chunk transfer (a command with a hash, a chunk of at most `CHUNK_SIZE` bytes) are single frames.
-/

namespace Dfs
namespace Storage

open Bytes TextScan Network

structure StorageNode where
  storage : Bytes → Option Bytes
  running : Bool

/-- Where the handler of one connection is. -/
inductive Phase where
  /-- in `recvMessage` at the top of the loop -/
  | idle
  /-- in `recvData`, after `READY` -/
  | awaitData (hash : Bytes)
  /-- about to take the mutex and store -/
  | storing (hash data : Bytes)
  /-- about to take the mutex and look up -/
  | lookup (hash : Bytes)
  /-- past the loop -/
  | closed
  deriving DecidableEq

namespace StorageNode

/-- A node that has just been started. -/
def launch : StorageNode :=
  { storage := fun _ => none
    running := true }

/-- `storage_[hash] = data`. -/
def store (node : StorageNode) (hash data : Bytes) : StorageNode :=
  { node with storage := Function.update node.storage hash (some data) }

/-- The node after a crash or a `DIE`: its data is kept, but no handler runs any more. -/
def stop (node : StorageNode) : StorageNode :=
  { node with running := false }

/-- What the loop does with a command: the node, the handler's next phase, and its replies. -/
def dispatch (node : StorageNode) (command : Bytes) : StorageNode × Phase × List Bytes :=
  if command = [] then (node, .closed, [])
  else
    let (op, args) := (readWord command).getD ([], [])
    if op = ascii "STORE" then
      match readWord args with
      | none => (node, .idle, [ascii "ERROR"])
      | some (hash, _) => (node, .awaitData hash, [ascii "READY"])
    else if op = ascii "GET" then
      match readWord args with
      | none => (node, .idle, [ascii "ERROR"])
      | some (hash, _) => (node, .lookup hash, [])
    else if op = ascii "DIE" then (node.stop, .closed, [])
    else (node, .idle, [ascii "ERROR"])

/-- The replies to a `GET`; stored data is never empty, and an empty entry would count as absent. -/
def found (node : StorageNode) (hash : Bytes) : List Bytes :=
  match (node.storage hash).getD [] with
  | [] => [ascii "NOT_FOUND"]
  | data => [ascii "FOUND", data]

/-- A frame arrives while the handler reads. -/
def receive (node : StorageNode) (frame : Bytes) :
    Phase → Option (StorageNode × Phase × List Bytes)
  | .idle => some (node.dispatch frame)
  | .awaitData hash =>
      some (node, if frame = [] then .closed else .storing hash frame, [])
  | _ => none

/-- The handler's access to `storage_`. -/
def work (node : StorageNode) : Phase → Option (StorageNode × Phase × List Bytes)
  | .storing hash data => some (node.store hash data, .idle, [ascii "ACK"])
  | .lookup hash => some (node, .idle, node.found hash)
  | _ => none

@[simp] theorem store_running (node : StorageNode) (hash data : Bytes) :
    (node.store hash data).running = node.running := rfl

@[simp] theorem store_storage (node : StorageNode) (hash data : Bytes) :
    (node.store hash data).storage = Function.update node.storage hash (some data) := rfl

@[simp] theorem stop_storage (node : StorageNode) : node.stop.storage = node.storage := rfl

@[simp] theorem stop_running (node : StorageNode) : node.stop.running = false := rfl

theorem dispatch_store (node : StorageNode) {hash : Bytes} (h : IsWord hash) :
    node.dispatch (ascii "STORE " ++ hash) = (node, .awaitData hash, [ascii "READY"]) := by
  have hline : ascii "STORE " ++ hash = ascii "STORE" ++ 32 :: hash := rfl
  have hop : readWord (ascii "STORE" ++ 32 :: hash) = some (ascii "STORE", 32 :: hash) :=
    readWord_append_space (by decide +kernel)
  have hne : ascii "STORE" ++ 32 :: hash ≠ [] := by simp
  rw [hline]
  simp [dispatch, hne, hop, readWord_self h]

theorem dispatch_get (node : StorageNode) {hash : Bytes} (h : IsWord hash) :
    node.dispatch (ascii "GET " ++ hash) = (node, .lookup hash, []) := by
  have hline : ascii "GET " ++ hash = ascii "GET" ++ 32 :: hash := rfl
  have hop : readWord (ascii "GET" ++ 32 :: hash) = some (ascii "GET", 32 :: hash) :=
    readWord_append_space (by decide +kernel)
  have hne : ascii "GET" ++ 32 :: hash ≠ [] := by simp
  have hget : ascii "GET" ≠ ascii "STORE" := by decide
  rw [hline]
  simp [dispatch, hne, hop, readWord_self h, hget]

end StorageNode

/-- What a node that has handled something keeps: its data, and a crash. -/
structure Kept (node node' : StorageNode) : Prop where
  held : ∀ hash, node.storage hash ≠ none → node'.storage hash ≠ none
  running : node'.running = true → node.running = true

theorem Kept.refl (node : StorageNode) : Kept node node :=
  ⟨fun _ h => h, fun h => h⟩

theorem kept_stop (node : StorageNode) : Kept node node.stop :=
  ⟨fun _ h => h, by simp⟩

theorem kept_store (node : StorageNode) (hash data : Bytes) : Kept node (node.store hash data) := by
  refine ⟨fun hash' h => ?_, fun h => h⟩
  by_cases heq : hash' = hash
  · simp [heq]
  · rwa [StorageNode.store_storage, Function.update_of_ne heq]

theorem kept_dispatch (node : StorageNode) (command : Bytes) :
    Kept node (node.dispatch command).1 := by
  unfold StorageNode.dispatch
  split
  · exact Kept.refl node
  · dsimp only
    split
    · split <;> exact Kept.refl node
    · split
      · split <;> exact Kept.refl node
      · split
        · exact kept_stop node
        · exact Kept.refl node

/-! ## Connections -/

/-- One client connection: what the client still does on it, the frames sent to the client and not
yet read, and the handler. -/
structure Conn where
  conv : Conv
  outbound : List Bytes
  phase : Phase

namespace Conn

def opened (conv : Conv) : Conn :=
  { conv := conv
    outbound := []
    phase := .idle }

/-- The next step of the connection, on the node that serves it. -/
def advance (node : StorageNode) (c : Conn) : Option (StorageNode × Conn) :=
  match if node.running then node.work c.phase else none with
  | some (node', phase, replies) =>
      some (node', { c with outbound := c.outbound ++ replies, phase := phase })
  | none =>
      match c.conv with
      | .done _ => none
      | .recv next =>
          match c.outbound with
          | [] => none
          | frame :: rest => some (node, { c with conv := next frame, outbound := rest })
      | .send message next =>
          match if node.running then node.receive message c.phase else none with
          | none => none
          | some (node', phase, replies) =>
              some (node',
                { conv := next, outbound := c.outbound ++ replies, phase := phase })

theorem kept_advance {node node' : StorageNode} {c c' : Conn}
    (h : c.advance node = some (node', c')) : Kept node node' := by
  unfold advance at h
  split at h
  · rename_i node₁ phase replies hwork
    cases h
    split at hwork
    · unfold StorageNode.work at hwork
      split at hwork
      · cases hwork
        exact kept_store node _ _
      · cases hwork
        exact Kept.refl node
      · cases hwork
    · cases hwork
  · split at h
    · cases h
    · split at h
      · cases h
      · cases h
        exact Kept.refl node
    · rename_i message next _
      split at h
      · cases h
      · rename_i node₁ phase replies hreceive
        cases h
        split at hreceive
        · unfold StorageNode.receive at hreceive
          split at hreceive
          · have hnode : (node.dispatch message).1 = node' :=
              congrArg Prod.fst (Option.some.inj hreceive)
            exact hnode ▸ kept_dispatch node message
          · have hnode : node = node' := congrArg Prod.fst (Option.some.inj hreceive)
            exact hnode ▸ Kept.refl node
          · cases hreceive
        · cases hreceive

/-- The client's side of the connection breaks; its handler does not notice while it works. -/
def lose (c : Conn) : Conn :=
  { c with
    conv := .done c.conv.lost
    outbound := [] }

end Conn
end Storage
end Dfs
