import Dfs.Client.Download
import Dfs.Client.Transfer

/-!
# What an upload leaves behind

One upload against storage nodes whose connections may be refused or break at any point, and then
a download with some of the nodes gone.  An upload goes on as soon as one replica of a chunk has
acknowledged it, so a complete upload has placed each chunk on every node that acknowledged it,
and on at least one.
-/

namespace Dfs
namespace Client

open Bytes TextScan Network Common Storage Dht Program

/-! ## Storage nodes that fail -/

/-- What becomes of a connection: refused, or broken after some steps of it, with its handler
still doing a few steps. -/
inductive Fate where
  | refused
  | broken (steps late : Nat)

/-- No conversation has more than five steps. -/
def Fate.undisturbed : Fate :=
  .broken 5 0

/-- A number of steps of a connection, as far as it goes. -/
def advanceBy : Nat → StorageNode → Conn → StorageNode × Conn
  | 0, node, c => (node, c)
  | n + 1, node, c =>
      match c.advance node with
      | none => (node, c)
      | some (node', c') => advanceBy n node' c'

/-- One connection of a client from beginning to end: the answer of its routine, and the node. -/
def exchange (fate : Fate) (node : StorageNode) (conv : Conv) : Bytes × StorageNode :=
  match fate with
  | .refused => ([], node)
  | .broken steps late =>
      let (node', c) := advanceBy steps node (Conn.opened conv)
      (c.conv.lost, (advanceBy late node' c.lose).1)

/-- The storage nodes and which of them listens at an endpoint, the fates of the connections in
the order in which they are opened, and what the metadata nodes answer. -/
structure Deployment where
  nodeAt : Bytes → Int → Option Nat
  fate : Nat → Fate
  metadata : Nat → Bytes

/-- The number of connections so far, and the nodes. -/
structure Nodes where
  opened : Nat
  node : Nat → StorageNode

def serve (d : Deployment) (s : Nodes) (c : Call) : Bytes × Nodes :=
  let transfer (ip : Bytes) (port : Int) :=
    match d.nodeAt ip port with
    | none => ([], { s with opened := s.opened + 1 })
    | some i =>
        let (answer, node) := exchange (d.fate s.opened) (s.node i) c.conv
        (answer, { opened := s.opened + 1, node := Function.update s.node i node })
  match c with
  | .store ip port _ _ => transfer ip port
  | .fetch ip port _ => transfer ip port
  | .put _ _ _ => (d.metadata s.opened, { s with opened := s.opened + 1 })
  | .lookup _ _ _ => (d.metadata s.opened, { s with opened := s.opened + 1 })

/-- The upload of a chunk to an address was acknowledged. -/
def Acked (t : List (Call × Bytes)) (chunk : Chunk) (nodeAddr : Bytes) : Prop :=
  ∃ ip port, parseNodeAddr nodeAddr = .endpoint ip port ∧
    (.store ip port chunk.hash chunk.data, ascii "ACK") ∈ t

/-- The node behind an address is up and holds data under the hash. -/
def Holds (d : Deployment) (node : Nat → StorageNode) (nodeAddr hash : Bytes) : Prop :=
  ∃ ip port i, parseNodeAddr nodeAddr = .endpoint ip port ∧ d.nodeAt ip port = some i ∧
    (node i).running = true ∧ (node i).storage hash ≠ none

/-! ## The uploads of a program -/

section Uploading

variable {chunk : Chunk} {t : List (Call × Bytes)}

/-- A visit to a replica does not throw, and reports what the replica answered. -/
theorem returns_uploadChunkToNode {nodeAddr : Bytes} {stored : Bool}
    (h : Returns (uploadChunkToNode chunk nodeAddr) t stored) :
    parseNodeAddr nodeAddr ≠ .badPort ∧ (stored = true → Acked t chunk nodeAddr) := by
  rcases returns_onNode.1 h with ⟨haddr, rfl, rfl⟩ | ⟨ip, port, haddr, hcall⟩
  · exact ⟨by simp [haddr], by simp⟩
  · rcases returns_call.1 hcall with ⟨response, u, rfl, hdone⟩
    rcases returns_done.1 hdone with ⟨rfl, rfl⟩
    refine ⟨by simp [haddr], ?_⟩
    intro hack
    have hresponse : response = ascii "ACK" := by simpa using hack
    exact ⟨ip, port, haddr, by simp [hresponse]⟩

theorem Acked.append_left {u : List (Call × Bytes)} {nodeAddr : Bytes}
    (h : Acked t chunk nodeAddr) : Acked (t ++ u) chunk nodeAddr := by
  rcases h with ⟨ip, port, haddr, hmem⟩
  exact ⟨ip, port, haddr, by simp [hmem]⟩

theorem Acked.append_right {u : List (Call × Bytes)} {nodeAddr : Bytes}
    (h : Acked t chunk nodeAddr) : Acked (u ++ t) chunk nodeAddr := by
  rcases h with ⟨ip, port, haddr, hmem⟩
  exact ⟨ip, port, haddr, by simp [hmem]⟩

theorem returns_replicate {nodes : List Bytes} {before after : Nat}
    (h : Returns (replicate chunk nodes before) t after) :
    (∀ a ∈ nodes, parseNodeAddr a ≠ .badPort) ∧
      (before = 0 → after ≠ 0 → ∃ a ∈ nodes, Acked t chunk a) := by
  induction nodes generalizing t before with
  | nil =>
      rcases returns_done.1 h with ⟨rfl, rfl⟩
      simp
  | cons a nodes ih =>
      rcases returns_bind.1 h with ⟨stored, t₁, t₂, rfl, hnode, hrest⟩
      have hone := returns_uploadChunkToNode hnode
      have hothers := ih hrest
      refine ⟨?_, ?_⟩
      · intro b hb
        rcases List.mem_cons.1 hb with rfl | hb
        · exact hone.1
        · exact hothers.1 b hb
      · -- The count is positive at the end, so some visit counted.
        rintro rfl hafter
        cases stored with
        | true => exact ⟨a, by simp, (hone.2 rfl).append_left⟩
        | false =>
            rcases hothers.2 (by simp) hafter with ⟨b, hb, hacked⟩
            exact ⟨b, by simp [hb], hacked.append_right⟩

/-- Every chunk of an upload that reaches the metadata has been acknowledged by a replica, after
all of its replicas were visited. -/
theorem returns_uploadChunks {dht : ConsistentHash} {chunks : List Chunk} {done : List Unit}
    (h : Returns (collect (uploadChunk dht) chunks) t (.ok done)) (hchunk : chunk ∈ chunks) :
    (∀ a ∈ dht.getNodesForKey chunk.hash replicationFactor, parseNodeAddr a ≠ .badPort) ∧
      ∃ a ∈ dht.getNodesForKey chunk.hash replicationFactor, Acked t chunk a := by
  induction chunks generalizing t done with
  | nil => simp at hchunk
  | cons first chunks ih =>
      rcases returns_collect_cons.1 h with ⟨_, done', t₁, t₂, rfl, _, hfirst, hrest⟩
      rcases List.mem_cons.1 hchunk with rfl | hchunk
      · rcases returns_bind.1 hfirst with ⟨count, u₁, u₂, rfl, hloop, hreport⟩
        have hloop := returns_replicate hloop
        refine ⟨hloop.1, ?_⟩
        by_cases hcount : count = 0
        · simp [hcount] at hreport
        · rcases hloop.2 rfl hcount with ⟨a, ha, hacked⟩
          exact ⟨a, ha, hacked.append_left.append_left⟩
      · rcases ih hrest hchunk with ⟨hports, a, ha, hacked⟩
        exact ⟨hports, a, ha, hacked.append_right⟩

end Uploading

/-- The connections that the upload of a file opens. -/
def UploadCall (file : LocalFile) (c : Call) : Prop :=
  (∃ ip port, ∃ chunk ∈ file.chunks, c = .store ip port chunk.hash chunk.data) ∨
    ∃ ip port, c = .put ip port (putLine file.record)

theorem calls_onNode {ρ : Type} {S : Call → Prop} {nodeAddr : Bytes} {failure : ρ}
    {body : Bytes → Int → Program Call Bytes ρ}
    (h : ∀ ip port, parseNodeAddr nodeAddr = .endpoint ip port → (body ip port).Calls S) :
    (onNode nodeAddr failure body).Calls S := by
  unfold onNode
  cases haddr : parseNodeAddr nodeAddr with
  | noColon => trivial
  | badPort => trivial
  | endpoint ip port => exact h ip port haddr

theorem calls_uploadChunk {dht : ConsistentHash} {file : LocalFile} {chunk : Chunk}
    (h : chunk ∈ file.chunks) : (uploadChunk dht chunk).Calls (UploadCall file) := by
  refine Calls.bind ?_ fun _ => trivial
  generalize dht.getNodesForKey chunk.hash replicationFactor = nodes
  generalize 0 = count
  induction nodes generalizing count with
  | nil => trivial
  | cons a nodes ih =>
      refine Calls.bind (calls_onNode ?_) fun _ => ih _
      intro ip port _
      exact ⟨Or.inl ⟨ip, port, chunk, h, rfl⟩, fun _ => trivial⟩

theorem calls_putMetadata {file : LocalFile} {metadataNodes : List Bytes} :
    (putMetadata (putLine file.record) metadataNodes).Calls (UploadCall file) := by
  refine Calls.firstSome ?_
  intro a _
  refine Calls.bind (calls_onNode ?_) fun _ => trivial
  intro ip port _
  exact ⟨Or.inr ⟨ip, port, rfl⟩, fun _ => trivial⟩

theorem calls_uploadFile (client : Client) (file : LocalFile) :
    (client.uploadFile file).Calls (UploadCall file) := by
  unfold Client.uploadFile
  split
  · trivial
  · refine Calls.bind (Calls.collect fun chunk hchunk => calls_uploadChunk hchunk) ?_
    intro r
    cases r with
    | error e => trivial
    | ok _ =>
        refine Calls.bind calls_putMetadata ?_
        intro r
        cases r <;> trivial

/-- A complete upload has uploaded its chunks. -/
theorem returns_uploadFile_complete {client : Client} {file : LocalFile}
    {t : List (Call × Bytes)} (h : Returns (client.uploadFile file) t .complete) :
    ∃ t₁ t₂ done, t = t₁ ++ t₂ ∧
      Returns (collect (uploadChunk client.dht) file.chunks) t₁ (.ok done) := by
  unfold Client.uploadFile at h
  split at h
  · simp at h
  · rcases returns_bind.1 h with ⟨e | done, t₁, t₂, rfl, hchunks, hrest⟩
    · simp at hrest
    · exact ⟨t₁, t₂, done, rfl, hchunks⟩

/-! ## The state after an upload -/

/-- A node after some connections: as up as before, with at least what it held. -/
structure Grown (node node' : StorageNode) : Prop where
  running : node'.running = node.running
  held : ∀ hash, node.storage hash ≠ none → node'.storage hash ≠ none

theorem Grown.refl (node : StorageNode) : Grown node node :=
  ⟨rfl, fun _ h => h⟩

theorem Grown.trans {node₁ node₂ node₃ : StorageNode} (h : Grown node₁ node₂)
    (h' : Grown node₂ node₃) : Grown node₁ node₃ :=
  ⟨h'.running.trans h.running, fun hash hheld => h'.held hash (h.held hash hheld)⟩

theorem Grown.store (node : StorageNode) (hash data : Bytes) :
    Grown node (node.store hash data) :=
  ⟨rfl, fun _ h => store_ne_none h⟩

/-- The steps of a store on a sound node: an acknowledged chunk is held by a node that is up. -/
theorem advanceBy_store {hash data : Bytes} (hword : IsWord hash) (hdata : Fits hash data)
    (n : Nat) {node : StorageNode} {c : Conn} {acked : Bool}
    (hpos : StorePos hash data acked c) (hsound : Sound node)
    (hacked : acked = true → node.running = true ∧ node.storage hash ≠ none) :
    ∃ acked', StorePos hash data acked' (advanceBy n node c).2 ∧
      Sound (advanceBy n node c).1 ∧ Grown node (advanceBy n node c).1 ∧
      (acked' = true → node.running = true ∧ (advanceBy n node c).1.storage hash ≠ none) := by
  induction n generalizing node c acked with
  | zero => exact ⟨acked, hpos, hsound, Grown.refl node, hacked⟩
  | succ n ih =>
      unfold advanceBy
      cases hstep : c.advance node with
      | none => exact ⟨acked, hpos, hsound, Grown.refl node, hacked⟩
      | some next =>
          rcases next with ⟨node', c'⟩
          rcases hpos.advance hword hdata.ne_nil hstep with ⟨acked', hpos', hnode, hnew⟩
          have hstored : (node.store hash data).storage hash ≠ none := by simp
          -- Each step leaves the node as it is or stores the chunk.
          have hsound' : Sound node' := by
            rcases hnode with rfl | rfl
            · exact hsound
            · exact hsound.store hdata
          have hgrown : Grown node node' := by
            rcases hnode with rfl | rfl
            · exact Grown.refl _
            · exact Grown.store _ _ _
          have hacked' : acked' = true → node'.running = true ∧ node'.storage hash ≠ none := by
            intro htrue
            rcases hnew htrue with hold | ⟨hrun, rfl⟩
            · exact ⟨hgrown.running.trans (hacked hold).1, hgrown.held hash (hacked hold).2⟩
            · exact ⟨hrun, hstored⟩
          rcases ih hpos' hsound' hacked' with ⟨acked'', hpos'', hsound'', hgrown'', hacked''⟩
          refine ⟨acked'', hpos'', hsound'', hgrown.trans hgrown'', ?_⟩
          intro htrue
          exact ⟨hgrown.running.symm.trans (hacked'' htrue).1, (hacked'' htrue).2⟩

/-- An undisturbed store on a node that is up. -/
theorem advanceBy_storeConv {node : StorageNode} {hash data : Bytes} (hrun : node.running = true)
    (hword : IsWord hash) (hdata : data ≠ []) :
    advanceBy 5 node (Conn.opened (storeConv hash data)) =
      (node.store hash data, ⟨.done (ascii "ACK"), [], .idle⟩) := by
  simp [advanceBy, Conn.advance, Conn.opened, storeConv, StorageNode.work, StorageNode.receive,
    StorageNode.dispatch_store node hword, hrun, afterReady, hdata]

theorem exchange_store {hash data : Bytes} (hword : IsWord hash) (hdata : Fits hash data)
    (fate : Fate) {node : StorageNode} (hsound : Sound node) :
    Sound (exchange fate node (storeConv hash data)).2 ∧
      Grown node (exchange fate node (storeConv hash data)).2 ∧
      ((exchange fate node (storeConv hash data)).1 = ascii "ACK" →
        node.running = true ∧
          (exchange fate node (storeConv hash data)).2.storage hash ≠ none) := by
  cases fate with
  | refused =>
      refine ⟨hsound, Grown.refl node, ?_⟩
      intro hack
      -- Nothing is sent, so no acknowledgement comes back.
      simp only [exchange] at hack
      exact absurd hack (by decide)
  | broken steps late =>
      -- The steps before the break, and then those of the handler alone.
      rcases advanceBy_store hword hdata steps (@StorePos.command hash data)
        hsound (by simp) with ⟨acked, hpos, hsound', hgrown, hacked⟩
      rcases hpos.lose with ⟨acked', hpos', hstill⟩
      have hacked' : acked' = true →
          (advanceBy steps node (Conn.opened (storeConv hash data))).1.running = true ∧
            (advanceBy steps node (Conn.opened (storeConv hash data))).1.storage hash ≠ none := by
        intro htrue
        exact ⟨hgrown.running.trans (hacked (hstill htrue)).1, (hacked (hstill htrue)).2⟩
      rcases advanceBy_store hword hdata late hpos' hsound' hacked' with
        ⟨acked'', hpos'', hsound'', hgrown'', hacked''⟩
      refine ⟨hsound'', hgrown.trans hgrown'', ?_⟩
      intro hack
      have htrue : acked' = true := hpos'.answer rfl hack
      exact ⟨(hacked (hstill htrue)).1, hgrown''.held hash (hacked' htrue).2⟩

/-- What holds while an upload runs: every node is sound, and every acknowledged chunk is held. -/
structure Stored (d : Deployment) (t : List (Call × Bytes)) (s : Nodes) : Prop where
  sound : ∀ i, Sound (s.node i)
  held : ∀ ip port hash data, (Call.store ip port hash data, ascii "ACK") ∈ t →
    ∃ i, d.nodeAt ip port = some i ∧ (s.node i).running = true ∧ (s.node i).storage hash ≠ none

theorem stored_serve {d : Deployment} {file : LocalFile} {t : List (Call × Bytes)} {s : Nodes}
    {c : Call} (hc : UploadCall file c) (h : Stored d t s) :
    Stored d (t ++ [(c, (serve d s c).1)]) (serve d s c).2 := by
  rcases hc with ⟨ip, port, chunk, hchunk, rfl⟩ | ⟨ip, port, rfl⟩
  · have hspec := LocalFile.mem_chunks hchunk
    have hword : IsWord chunk.hash := by
      rw [hspec.2]
      exact (isHash_sha256 _).isWord
    cases hnode : d.nodeAt ip port with
    | none =>
        -- Nobody listens there.
        have hanswer : (serve d s (.store ip port chunk.hash chunk.data)) =
            ([], { s with opened := s.opened + 1 }) := by
          simp [serve, hnode]
        rw [hanswer]
        refine ⟨h.sound, ?_⟩
        intro ip' port' hash data hmem
        have hne : ascii "ACK" ≠ [] := by decide
        simp only [List.mem_append, List.mem_singleton, Prod.mk.injEq, hne, and_false,
          or_false] at hmem
        exact h.held ip' port' hash data hmem
    | some i =>
        have hfits : Fits chunk.hash chunk.data :=
          ⟨hspec.1.data_ne_nil, hspec.1.length_le, hspec.2.symm⟩
        have hsets := exchange_store hword hfits (d.fate s.opened) (h.sound i)
        have hserve : (serve d s (.store ip port chunk.hash chunk.data)) =
            ((exchange (d.fate s.opened) (s.node i) (storeConv chunk.hash chunk.data)).1,
              { opened := s.opened + 1
                node := Function.update s.node i
                  (exchange (d.fate s.opened) (s.node i)
                    (storeConv chunk.hash chunk.data)).2 }) := by
          simp [serve, hnode, Call.conv]
        rw [hserve]
        generalize exchange (d.fate s.opened) (s.node i) (storeConv chunk.hash chunk.data) =
          result at hsets
        refine ⟨?_, ?_⟩
        · -- Only node `i` may have changed.
          intro j
          by_cases hj : j = i
          · subst hj
            simpa using hsets.1
          · simpa [hj] using h.sound j
        · intro ip' port' hash data hmem
          rcases List.mem_append.1 hmem with hmem | hmem
          · -- An older acknowledgement: what was held is still held.
            rcases h.held ip' port' hash data hmem with ⟨j, hj, hrun, hheld⟩
            refine ⟨j, hj, ?_⟩
            by_cases hji : j = i
            · subst hji
              simpa [hsets.2.1.running, hrun] using hsets.2.1.held hash hheld
            · simpa [hji] using ⟨hrun, hheld⟩
          · -- The acknowledgement of this connection.
            simp only [List.mem_singleton, Prod.mk.injEq, Call.store.injEq] at hmem
            rcases hmem with ⟨⟨rfl, rfl, rfl, rfl⟩, hack⟩
            have hheld := hsets.2.2 hack.symm
            refine ⟨i, hnode, ?_⟩
            simpa [hsets.2.1.running] using hheld
  · -- A `PUT` does not reach the storage nodes.
    refine ⟨h.sound, ?_⟩
    intro ip' port' hash data hmem
    simp only [List.mem_append, List.mem_singleton, Prod.mk.injEq, reduceCtorEq, false_and,
      or_false] at hmem
    exact h.held ip' port' hash data hmem

/-! ## Downloading from what is left -/

/-- What a node delivers when nothing disturbs the connection. -/
def delivers (node : StorageNode) (hash : Bytes) : Bytes :=
  if node.running then (node.storage hash).getD [] else []

theorem exchange_fetch {node : StorageNode} {hash : Bytes} (hword : IsWord hash)
    (hsound : Sound node) :
    exchange .undisturbed node (fetchConv hash) = (delivers node hash, node) := by
  have hfound : ascii "FOUND" ≠ [] := by decide
  have hmissing : ascii "NOT_FOUND" ≠ ascii "FOUND" := by decide
  cases hrun : node.running with
  | false =>
      simp [exchange, Fate.undisturbed, advanceBy, Conn.advance, Conn.opened, fetchConv, hrun,
        delivers, Conv.lost]
  | true =>
      cases hheld : node.storage hash with
      | none =>
          have hreply : node.found hash = [ascii "NOT_FOUND"] := by
            simp [StorageNode.found, hheld]
          simp [exchange, Fate.undisturbed, advanceBy, Conn.advance, Conn.opened, fetchConv, hrun,
            StorageNode.work, StorageNode.receive, StorageNode.dispatch_get node hword, hreply,
            afterFound, hmissing, Conv.lost, delivers, hheld]
      | some data =>
          have hreply : node.found hash = [ascii "FOUND", data] := by
            cases hd : data with
            | nil => exact absurd hd (hsound hash data hheld).ne_nil
            | cons b data => simp [StorageNode.found, hheld, hd]
          simp [exchange, Fate.undisturbed, advanceBy, Conn.advance, Conn.opened, fetchConv, hrun,
            StorageNode.work, StorageNode.receive, StorageNode.dispatch_get node hword, hreply,
            afterFound, Conv.lost, delivers, hheld]

def Deployment.calm (d : Deployment) : Deployment :=
  { d with fate := fun _ => .undisturbed }

section Fetching

variable {d : Deployment} {s : Nodes} (hsound : ∀ i, Sound (s.node i))
include hsound

/-- Asking one replica: what comes back fits the hash, and a replica that holds the chunk
delivers. -/
theorem run_fetchNode {hash a : Bytes} (hword : IsWord hash) (hport : parseNodeAddr a ≠ .badPort) :
    ∃ t r n, ((downloadChunkFromNode hash a).bind fun data =>
        .done (if data = [] then none else some data)).run (serve d.calm) s =
          (t, some r, { opened := n, node := s.node }) ∧
      (∀ data, r = some data → Fits hash data) ∧ (Holds d s.node a hash → r ≠ none) := by
  unfold downloadChunkFromNode onNode
  cases haddr : parseNodeAddr a with
  | badPort => exact absurd haddr hport
  | noColon =>
      -- No connection is opened.
      refine ⟨[], none, s.opened, rfl, by simp, ?_⟩
      rintro ⟨ip, port, i, hparse, _⟩
      simp [haddr] at hparse
  | endpoint ip port =>
      cases hnode : d.nodeAt ip port with
      | none =>
          refine ⟨[(.fetch ip port hash, [])], none, s.opened + 1, ?_, by simp, ?_⟩
          · simp [Program.bind, run, serve, Deployment.calm, hnode]
          · rintro ⟨ip', port', i, hparse, hi, _⟩
            simp only [haddr, NodeAddr.endpoint.injEq] at hparse
            rcases hparse with ⟨rfl, rfl⟩
            simp [hnode] at hi
      | some i =>
          have hanswer := exchange_fetch hword (hsound i)
          refine ⟨[(.fetch ip port hash, delivers (s.node i) hash)],
            if delivers (s.node i) hash = [] then none else some (delivers (s.node i) hash),
            s.opened + 1, ?_, ?_, ?_⟩
          · simp [Program.bind, run, serve, Deployment.calm, hnode, Call.conv, hanswer,
              Function.update_eq_self]
          · -- What comes back is what the node holds, and that fits.
            intro data hdata
            split at hdata
            · cases hdata
            · rename_i hne
              cases hdata
              unfold delivers at hne ⊢
              cases hheld : (s.node i).storage hash with
              | none => simp [hheld] at hne
              | some data =>
                  have hfits := hsound i hash data hheld
                  cases hrun : (s.node i).running <;> simp_all
          · rintro ⟨ip', port', j, hparse, hj, hrun, hheld⟩
            simp only [haddr, NodeAddr.endpoint.injEq] at hparse
            rcases hparse with ⟨rfl, rfl⟩
            rcases Option.ne_none_iff_exists'.1 hheld with ⟨data, hdata⟩
            have hij : i = j := Option.some.inj (hnode.symm.trans hj)
            subst hij
            have hne := (hsound i hash data hdata).ne_nil
            simp [delivers, hrun, hdata, hne]

theorem run_fetchChunk {dht : ConsistentHash} {hash : Bytes} (hword : IsWord hash)
    (hports : ∀ a ∈ dht.getNodesForKey hash 2, parseNodeAddr a ≠ .badPort)
    (hheld : ∃ a ∈ dht.getNodesForKey hash 2, Holds d s.node a hash) :
    ∃ t data n, (fetchChunk dht hash).run (serve d.calm) s =
        (t, some (some data), { opened := n, node := s.node }) ∧ Fits hash data := by
  have hloop : ∀ nodes : List Bytes, (∀ a ∈ nodes, parseNodeAddr a ≠ .badPort) →
      ∀ k, ∃ t r n, (firstSome (fun a => (downloadChunkFromNode hash a).bind fun data =>
          .done (if data = [] then none else some data)) nodes).run (serve d.calm)
            { opened := k, node := s.node } = (t, some r, { opened := n, node := s.node }) ∧
        (∀ data, r = some data → Fits hash data) ∧
        ((∃ a ∈ nodes, Holds d s.node a hash) → r ≠ none) := by
    intro nodes
    induction nodes with
    | nil =>
        intro _ k
        exact ⟨[], none, k, rfl, by simp, by simp⟩
    | cons a nodes ih =>
        intro hports k
        rcases run_fetchNode (d := d) (s := { opened := k, node := s.node }) hsound hword
          (hports a (by simp)) with ⟨t, r, n, hrun, hfits, harrives⟩
        rcases ih (fun b hb => hports b (by simp [hb])) n with
          ⟨t', r', n', hrun', hfits', harrives'⟩
        cases r with
        | some data =>
            -- The first node that delivers ends the loop.
            refine ⟨t, some data, n, ?_, hfits, by simp⟩
            simp [firstSome, run_bind _ (Program.bind _ _), hrun, run]
        | none =>
            -- This one did not hold the chunk, so a later one does.
            refine ⟨t ++ t', r', n', ?_, hfits', ?_⟩
            · simp [firstSome, run_bind _ (Program.bind _ _), hrun, hrun']
            · rintro ⟨b, hb, hholds⟩
              rcases List.mem_cons.1 hb with rfl | hb
              · exact absurd rfl (harrives hholds)
              · exact harrives' ⟨b, hb, hholds⟩
  rcases hloop _ hports s.opened with ⟨t, r, n, hrun, hfits, harrives⟩
  rcases Option.ne_none_iff_exists'.1 (harrives hheld) with ⟨data, rfl⟩
  exact ⟨t, data, n, hrun, hfits data rfl⟩

/-- Every hash of a list whose chunk some replica holds yields a chunk with that hash. -/
theorem run_downloadChunks {dht : ConsistentHash} (hashes : List Bytes)
    (hword : ∀ hash ∈ hashes, IsWord hash)
    (hports : ∀ hash ∈ hashes, ∀ a ∈ dht.getNodesForKey hash 2, parseNodeAddr a ≠ .badPort)
    (hheld : ∀ hash ∈ hashes, ∃ a ∈ dht.getNodesForKey hash 2, Holds d s.node a hash) (i k : Nat) :
    ∃ t chunks n, (collect (downloadChunk dht) (hashes.zipIdx i)).run (serve d.calm)
        { opened := k, node := s.node } = (t, some (.ok chunks), { opened := n, node := s.node }) ∧
      List.Forall₂ (fun hash chunk => Fits hash chunk.data) hashes chunks := by
  induction hashes generalizing i k with
  | nil => exact ⟨[], [], k, rfl, .nil⟩
  | cons hash hashes ih =>
      rcases run_fetchChunk (d := d) (s := { opened := k, node := s.node }) hsound
        (hword hash (by simp)) (hports hash (by simp)) (hheld hash (by simp)) with
        ⟨t, data, n, hrun, hfits⟩
      rcases ih (fun h hh => hword h (by simp [hh])) (fun h hh => hports h (by simp [hh]))
        (fun h hh => hheld h (by simp [hh])) (i + 1) n with ⟨t', chunks, n', hrun', hall⟩
      refine ⟨t ++ t',
        { index := i, hash := hash, data := data, size := toInt32 data.length } :: chunks, n',
        ?_, .cons hfits hall⟩
      simp [List.zipIdx_cons, collect, downloadChunk, run_bind, hrun, hrun', run, Except.map]

end Fetching

/-! ## Replication -/

/-- The nodes once some of them have crashed. -/
def Nodes.crash (s : Nodes) (crashed : Nat → Bool) : Nodes :=
  { s with node := fun i => if crashed i then (s.node i).stop else s.node i }

/-- The node behind an address is not among the crashed ones. -/
def Survives (d : Deployment) (crashed : Nat → Bool) (nodeAddr : Bytes) : Prop :=
  ∀ ip port i, parseNodeAddr nodeAddr = .endpoint ip port → d.nodeAt ip port = some i →
    crashed i = false

theorem Stored.holds {d : Deployment} {t : List (Call × Bytes)} {s : Nodes} (h : Stored d t s)
    {chunk : Chunk} {nodeAddr : Bytes} (hacked : Acked t chunk nodeAddr) :
    Holds d s.node nodeAddr chunk.hash := by
  rcases hacked with ⟨ip, port, haddr, hmem⟩
  rcases h.held ip port chunk.hash chunk.data hmem with ⟨i, hi, hrun, hheld⟩
  exact ⟨ip, port, i, haddr, hi, hrun, hheld⟩

theorem Holds.crash {d : Deployment} {s : Nodes} {nodeAddr hash : Bytes} {crashed : Nat → Bool}
    (h : Holds d s.node nodeAddr hash) (hup : Survives d crashed nodeAddr) :
    Holds d (s.crash crashed).node nodeAddr hash := by
  rcases h with ⟨ip, port, i, haddr, hi, hrun, hheld⟩
  have hcrashed := hup ip port i haddr hi
  exact ⟨ip, port, i, haddr, hi, by simp [Nodes.crash, hcrashed, hrun],
    by simp [Nodes.crash, hcrashed, hheld]⟩

theorem sound_crash {s : Nodes} (h : ∀ i, Sound (s.node i)) (crashed : Nat → Bool) (i : Nat) :
    Sound ((s.crash crashed).node i) := by
  intro hash data hstored
  refine h i hash data ?_
  unfold Nodes.crash at hstored
  cases hc : crashed i <;> simpa [hc] using hstored

section Complete

variable {client : Client} {file : LocalFile} {d : Deployment} {s : Nodes}
  (hsound : ∀ i, Sound (s.node i))
include hsound

theorem stored_uploadFile :
    Stored d ((client.uploadFile file).run (serve d) s).1
      ((client.uploadFile file).run (serve d) s).2.2 := by
  have hinit : Stored d [] s := ⟨hsound, by simp⟩
  simpa using run_invariant (fun _ _ _ hc h => stored_serve hc h) (calls_uploadFile client file)
    hinit

variable (hcomplete : ((client.uploadFile file).run (serve d) s).2.1 = some .complete)
include hcomplete

omit hsound in
theorem acked_of_complete {chunk : Chunk} (hchunk : chunk ∈ file.chunks) :
    (∀ a ∈ client.dht.getNodesForKey chunk.hash 2, parseNodeAddr a ≠ .badPort) ∧
      ∃ a ∈ client.dht.getNodesForKey chunk.hash 2,
        Acked ((client.uploadFile file).run (serve d) s).1 chunk a := by
  rcases returns_uploadFile_complete (run_returns _ _ _ hcomplete) with
    ⟨t₁, t₂, done, ht, hchunks⟩
  rcases returns_uploadChunks hchunks hchunk with ⟨hports, a, ha, hacked⟩
  exact ⟨hports, a, ha, ht ▸ hacked.append_left⟩

/-- A download from nodes of which some have crashed, where each chunk has a replica left that had
acknowledged it, writes a chunk for every hash of the file. -/
theorem download_after_crash {crashed : Nat → Bool}
    (hleft : ∀ chunk ∈ file.chunks, ∃ a ∈ client.dht.getNodesForKey chunk.hash 2,
      Acked ((client.uploadFile file).run (serve d) s).1 chunk a ∧ Survives d crashed a) :
    ∃ pieces,
      ((downloadChunks client.dht file.record OutputFile.healthy).run (serve d.calm)
        (((client.uploadFile file).run (serve d) s).2.2.crash crashed)).2.1 =
          some (.reconstructed pieces) ∧
      List.Forall₂ (fun hash piece => computeSHA256 piece = hash) file.hashes pieces := by
  have hstored := @stored_uploadFile client file d s hsound
  have hne : file.chunks ≠ [] := by
    intro hnil
    simp [Client.uploadFile, hnil, run] at hcomplete
  generalize hafter : ((client.uploadFile file).run (serve d) s).2.2.crash crashed = after
  have hsound' : ∀ i, Sound (after.node i) := hafter ▸ sound_crash hstored.sound crashed
  -- Every hash of the record is that of a chunk, which was acknowledged and survives.
  have hhash : ∀ hash ∈ file.hashes, ∃ chunk ∈ file.chunks, chunk.hash = hash := by
    intro hash hmem
    simpa [LocalFile.hashes] using hmem
  have hword : ∀ hash ∈ file.hashes, IsWord hash := by
    intro hash hmem
    rcases hhash hash hmem with ⟨chunk, hchunk, rfl⟩
    rw [(LocalFile.mem_chunks hchunk).2]
    exact (isHash_sha256 _).isWord
  have hports : ∀ hash ∈ file.hashes, ∀ a ∈ client.dht.getNodesForKey hash 2,
      parseNodeAddr a ≠ .badPort := by
    intro hash hmem
    rcases hhash hash hmem with ⟨chunk, hchunk, rfl⟩
    exact (acked_of_complete hcomplete hchunk).1
  have hheld : ∀ hash ∈ file.hashes, ∃ a ∈ client.dht.getNodesForKey hash 2,
      Holds d after.node a hash := by
    intro hash hmem
    rcases hhash hash hmem with ⟨chunk, hchunk, rfl⟩
    rcases hleft chunk hchunk with ⟨a, ha, hacked, hup⟩
    exact ⟨a, ha, hafter ▸ (hstored.holds hacked).crash hup⟩
  rcases run_downloadChunks (d := d) hsound' file.hashes hword hports hheld 0 after.opened with
    ⟨t, chunks, n, hrun, hfits⟩
  -- The collected chunks are numbered in order and claim the sizes they have.
  have hcollect := returns_collect_downloadChunk
    (run_returns (serve d.calm) (collect (downloadChunk client.dht) (file.hashes.zipIdx 0))
      { opened := after.opened, node := after.node } (by rw [hrun]))
  have hlength := hfits.length_eq
  have hindex : chunks.map Chunk.index = (List.range chunks.length).map Int.ofNat := by
    rw [hcollect.2.1, hlength, List.range_eq_range']
  -- What fits a hash is no longer than a chunk, so the cast of its size is exact.
  have hsize : ∀ c ∈ chunks, c.size = c.data.length := by
    intro c hc
    rw [hcollect.2.2 c hc]
    rcases (List.forall₂_iff_get.1 hfits) with ⟨_, hget⟩
    rcases List.get_of_mem hc with ⟨j, rfl⟩
    have hle := (hget j.val (by omega) j.isLt).length_le
    have hsmall : CHUNK_SIZE < 2 ^ 31 := by decide
    exact toInt32_of_range (by omega) (by simp only [Fin.eta] at hle; omega)
  have hchunks : chunks ≠ [] := by
    intro hnil
    rw [hnil, List.length_nil, LocalFile.hashes, List.length_map] at hlength
    exact hne (List.length_eq_zero_iff.1 hlength)
  refine ⟨chunks.map Chunk.data, ?_, ?_⟩
  · have hrun' : (collect (downloadChunk client.dht) (file.record.chunkHashes.zipIdx)).run
        (serve d.calm) after = (t, some (.ok chunks), { opened := n, node := after.node }) := hrun
    simp [downloadChunks, run_bind, hrun', reconstructFile_healthy hchunks hindex hsize, run]
  · rw [List.forall₂_map_right_iff]
    exact hfits.imp fun _ _ h => h.hash_eq

end Complete

theorem length_getNodesForKey {dht : ConsistentHash} (key : Bytes)
    (h : 2 ≤ dht.getAllNodes.length) : (dht.getNodesForKey key 2).length = 2 := by
  have hwalk : (dht.walk (hashKey key)).length = dht.getAllNodes.length := by
    rw [ConsistentHash.walk, ConsistentHash.getAllNodes, List.length_map, List.length_map,
      SortedMap.walkFrom_eq_rotate, List.length_rotate]
  have htake : (2 : Int).toNat = 2 := by decide
  rw [ConsistentHash.getNodesForKey_eq, List.length_take, htake]
  omega

/-- The two storage nodes of the client program, with a metadata node that acknowledges. -/
def localCluster (fate : Nat → Fate) : Deployment :=
  { nodeAt := fun _ port => if port = 8001 then some 0 else if port = 8002 then some 1 else none
    fate := fate
    metadata := fun _ => ascii "ACK" }

def localClient : Client :=
  Client.make [ascii "127.0.0.1:8001", ascii "127.0.0.1:8002"] [ascii "127.0.0.1:9001"]

def abcFile : LocalFile :=
  { path := ascii "abc.txt"
    stream := some (IFStream.ofContent (ascii "abc"))
    size := 3
    size_range := by decide }

def launched : Nodes :=
  { opened := 0
    node := fun _ => StorageNode.launch }

end Client
end Dfs
