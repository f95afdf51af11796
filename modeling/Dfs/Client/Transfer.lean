import Dfs.Client.Client
import Dfs.Storage.StorageNode

/-!
# Chunk transfers

The two conversations with a storage node, step by step.  `StorePos` and `FetchPos` list the
positions that a connection can be in, whatever else happens to the node in between, and the
lemmas say what a step, and the loss of the connection, make of each.
-/

namespace Dfs
namespace Client

open Bytes TextScan Network Storage

/-- What `storage_` may hold under a hash: a chunk with that hash. -/
structure Fits (hash data : Bytes) : Prop where
  ne_nil : data ≠ []
  length_le : data.length ≤ Common.CHUNK_SIZE
  hash_eq : Common.computeSHA256 data = hash

def Sound (node : StorageNode) : Prop :=
  ∀ hash data, node.storage hash = some data → Fits hash data

theorem sound_launch : Sound StorageNode.launch := by
  intro hash data h
  simp [StorageNode.launch] at h

theorem Sound.store {node : StorageNode} (h : Sound node) {hash data : Bytes}
    (hdata : Fits hash data) : Sound (node.store hash data) := by
  intro hash' data' hstored
  by_cases heq : hash' = hash
  · subst heq
    simp only [StorageNode.store_storage, Function.update_self, Option.some.injEq] at hstored
    exact hstored ▸ hdata
  · rw [StorageNode.store_storage, Function.update_of_ne heq] at hstored
    exact h hash' data' hstored

/-- What a node holds under a hash is never taken away. -/
theorem store_ne_none {node : StorageNode} {hash hash' data : Bytes}
    (h : node.storage hash ≠ none) : (node.store hash' data).storage hash ≠ none :=
  (kept_store node hash' data).held hash h

/-! ## Storing -/

/-- The positions of `uploadChunkToNode` and its handler; the index tells whether the chunk has
been acknowledged. -/
inductive StorePos (hash data : Bytes) : Bool → Conn → Prop where
  | command : StorePos hash data false (Conn.opened (storeConv hash data))
  | ready : StorePos hash data false ⟨.recv (afterReady data), [ascii "READY"], .awaitData hash⟩
  | data : StorePos hash data false ⟨.send data (.recv .done), [], .awaitData hash⟩
  | storing : StorePos hash data false ⟨.recv .done, [], .storing hash data⟩
  | acked : StorePos hash data true ⟨.recv .done, [ascii "ACK"], .idle⟩
  | complete : StorePos hash data true ⟨.done (ascii "ACK"), [], .idle⟩
  | lost (outbound : List Bytes) (phase : Phase) :
      (∀ hash' data', phase = .storing hash' data' → hash' = hash ∧ data' = data) →
      StorePos hash data false ⟨.done [], outbound, phase⟩

/-- A step of a store: the position moves on, and the node changes at most by the chunk, which is
there when the acknowledgement is. -/
theorem StorePos.advance {hash data : Bytes} {acked : Bool} {c c' : Conn}
    {node node' : StorageNode} (hword : IsWord hash) (hdata : data ≠ [])
    (h : StorePos hash data acked c) (hstep : c.advance node = some (node', c')) :
    ∃ acked', StorePos hash data acked' c' ∧ (node' = node ∨ node' = node.store hash data) ∧
      (acked' = true → acked = true ∨ node.running = true ∧ node' = node.store hash data) := by
  cases h with
  | command =>
      cases hrun : node.running <;>
        simp [Conn.advance, Conn.opened, StorageNode.work, StorageNode.receive, storeConv, hrun,
          StorageNode.dispatch_store node hword] at hstep
      rcases hstep with ⟨rfl, rfl⟩
      exact ⟨false, .ready, Or.inl rfl, by simp⟩
  | ready =>
      simp [Conn.advance, StorageNode.work, afterReady] at hstep
      rcases hstep with ⟨rfl, rfl⟩
      exact ⟨false, .data, Or.inl rfl, by simp⟩
  | data =>
      cases hrun : node.running <;>
        simp [Conn.advance, StorageNode.work, StorageNode.receive, hrun, hdata] at hstep
      rcases hstep with ⟨rfl, rfl⟩
      exact ⟨false, .storing, Or.inl rfl, by simp⟩
  | storing =>
      cases hrun : node.running <;> simp [Conn.advance, StorageNode.work, hrun] at hstep
      rcases hstep with ⟨rfl, rfl⟩
      exact ⟨true, .acked, Or.inr rfl, fun _ => Or.inr ⟨rfl, rfl⟩⟩
  | acked =>
      simp [Conn.advance, StorageNode.work] at hstep
      rcases hstep with ⟨rfl, rfl⟩
      exact ⟨true, .complete, Or.inl rfl, by simp⟩
  | complete => simp [Conn.advance, StorageNode.work] at hstep
  | lost outbound phase hphase =>
      -- Only the handler can still move, and it stores no other chunk.
      cases hrun : node.running with
      | false => simp [Conn.advance, hrun] at hstep
      | true =>
          cases phase with
          | storing hash' data' =>
              rcases hphase hash' data' rfl with ⟨rfl, rfl⟩
              simp [Conn.advance, StorageNode.work, hrun] at hstep
              rcases hstep with ⟨rfl, rfl⟩
              exact ⟨false, .lost _ _ (by simp), Or.inr rfl, by simp⟩
          | lookup hash' =>
              simp [Conn.advance, StorageNode.work, hrun] at hstep
              rcases hstep with ⟨rfl, rfl⟩
              exact ⟨false, .lost _ _ (by simp), Or.inl rfl, by simp⟩
          | idle => simp [Conn.advance, StorageNode.work, hrun] at hstep
          | awaitData hash' => simp [Conn.advance, StorageNode.work, hrun] at hstep
          | closed => simp [Conn.advance, StorageNode.work, hrun] at hstep

/-- A lost connection leaves the client without an acknowledgement, unless it had it already. -/
theorem StorePos.lose {hash data : Bytes} {acked : Bool} {c : Conn}
    (h : StorePos hash data acked c) :
    ∃ acked', StorePos hash data acked' c.lose ∧ (acked' = true → acked = true) := by
  have hready : ascii "READY" ≠ [] := by decide
  cases h with
  | command => exact ⟨false, .lost _ _ (by simp [Conn.opened]), by simp⟩
  | ready =>
      refine ⟨false, ?_, by simp⟩
      have hlost : (Conv.recv (afterReady data)).lost = [] := by
        simp [Conv.lost, afterReady, hready.symm]
      rw [Conn.lose, hlost]
      exact .lost _ _ (by simp)
  | data => exact ⟨false, .lost _ _ (by simp), by simp⟩
  | storing => exact ⟨false, .lost _ _ (by simp), by simp⟩
  | acked => exact ⟨false, .lost _ _ (by simp), by simp⟩
  | complete => exact ⟨true, .complete, by simp⟩
  | lost outbound phase hphase => exact ⟨false, .lost _ _ hphase, by simp⟩

/-- What a store can have been answered with. -/
theorem StorePos.answer {hash data answer : Bytes} {acked : Bool} {c : Conn}
    (h : StorePos hash data acked c) (hdone : c.conv = .done answer) :
    answer = ascii "ACK" → acked = true := by
  intro hack
  cases h with
  | complete => rfl
  | lost outbound phase hphase =>
      simp only [Conv.done.injEq] at hdone
      rw [← hdone] at hack
      exact absurd hack (by decide)
  | _ => simp [Conn.opened, storeConv] at hdone

/-! ## Fetching -/

/-- The positions of `downloadChunkFromNode` and its handler, for a chunk whose data must satisfy
`V`; the index tells whether the chunk can still arrive. -/
inductive FetchPos (hash : Bytes) (V : Bytes → Prop) : Bool → Conn → Prop where
  | command : FetchPos hash V true (Conn.opened (fetchConv hash))
  | lookup : FetchPos hash V true ⟨.recv afterFound, [], .lookup hash⟩
  | found (data : Bytes) : V data →
      FetchPos hash V true ⟨.recv afterFound, [ascii "FOUND", data], .idle⟩
  | data (data : Bytes) : V data → FetchPos hash V true ⟨.recv .done, [data], .idle⟩
  | complete (data : Bytes) : V data → FetchPos hash V true ⟨.done data, [], .idle⟩
  | missing : FetchPos hash V false ⟨.recv afterFound, [ascii "NOT_FOUND"], .idle⟩
  | failed (outbound : List Bytes) (phase : Phase) :
      (∀ hash' data', phase ≠ .storing hash' data') →
      FetchPos hash V false ⟨.done [], outbound, phase⟩

theorem FetchPos.mono {hash : Bytes} {V V' : Bytes → Prop} {arrives : Bool} {c : Conn}
    (h : FetchPos hash V arrives c) (hV : ∀ data, V data → V' data) :
    FetchPos hash V' arrives c := by
  cases h with
  | command => exact .command
  | lookup => exact .lookup
  | found data hdata => exact .found data (hV data hdata)
  | data data hdata => exact .data data (hV data hdata)
  | complete data hdata => exact .complete data (hV data hdata)
  | missing => exact .missing
  | failed outbound phase hphase => exact .failed outbound phase hphase

/-- A step of a fetch: the node stays as it is, and a chunk that the node holds keeps arriving. -/
theorem FetchPos.advance {hash : Bytes} {V : Bytes → Prop} {arrives : Bool} {c c' : Conn}
    {node node' : StorageNode} (hword : IsWord hash) (h : FetchPos hash V arrives c)
    (hV : ∀ data, node.storage hash = some data → data ≠ [] ∧ V data)
    (hstep : c.advance node = some (node', c')) :
    node' = node ∧ ∃ arrives', FetchPos hash V arrives' c' ∧
      (arrives = true → node.storage hash ≠ none → arrives' = true) := by
  cases h with
  | command =>
      cases hrun : node.running <;>
        simp [Conn.advance, Conn.opened, StorageNode.work, StorageNode.receive, fetchConv, hrun,
          StorageNode.dispatch_get node hword] at hstep
      rcases hstep with ⟨rfl, rfl⟩
      exact ⟨rfl, true, .lookup, by simp⟩
  | lookup =>
      cases hrun : node.running with
      | false => simp [Conn.advance, hrun] at hstep
      | true =>
          simp only [Conn.advance, StorageNode.work, hrun, if_true, Option.some.injEq,
            Prod.mk.injEq, List.nil_append] at hstep
          rcases hstep with ⟨rfl, rfl⟩
          refine ⟨rfl, ?_⟩
          cases hheld : node.storage hash with
          | none =>
              have hreply : node.found hash = [ascii "NOT_FOUND"] := by
                simp [StorageNode.found, hheld]
              exact ⟨false, hreply ▸ .missing, by simp⟩
          | some data =>
              have hdata := hV data hheld
              have hreply : node.found hash = [ascii "FOUND", data] := by
                cases hd : data with
                | nil => exact absurd hd hdata.1
                | cons b data => simp [StorageNode.found, hheld, hd]
              exact ⟨true, hreply ▸ .found data hdata.2, by simp⟩
  | found data hdata =>
      simp [Conn.advance, StorageNode.work, afterFound] at hstep
      rcases hstep with ⟨rfl, rfl⟩
      exact ⟨rfl, true, .data data hdata, by simp⟩
  | data data hdata =>
      simp [Conn.advance, StorageNode.work] at hstep
      rcases hstep with ⟨rfl, rfl⟩
      exact ⟨rfl, true, .complete data hdata, by simp⟩
  | complete data hdata => simp [Conn.advance, StorageNode.work] at hstep
  | missing =>
      have hne : ascii "NOT_FOUND" ≠ ascii "FOUND" := by decide
      simp [Conn.advance, StorageNode.work, afterFound, hne] at hstep
      rcases hstep with ⟨rfl, rfl⟩
      exact ⟨rfl, false, .failed _ _ (by simp), by simp⟩
  | failed outbound phase hphase =>
      cases hrun : node.running with
      | false => simp [Conn.advance, hrun] at hstep
      | true =>
          cases phase with
          | storing hash' data' => exact absurd rfl (hphase hash' data')
          | lookup hash' =>
              simp [Conn.advance, StorageNode.work, hrun] at hstep
              rcases hstep with ⟨rfl, rfl⟩
              exact ⟨rfl, false, .failed _ _ (by simp), by simp⟩
          | idle => simp [Conn.advance, StorageNode.work, hrun] at hstep
          | awaitData hash' => simp [Conn.advance, StorageNode.work, hrun] at hstep
          | closed => simp [Conn.advance, StorageNode.work, hrun] at hstep

theorem FetchPos.lose {hash : Bytes} {V : Bytes → Prop} {arrives : Bool} {c : Conn}
    (h : FetchPos hash V arrives c) : ∃ arrives', FetchPos hash V arrives' c.lose := by
  have hfound : ascii "FOUND" ≠ [] := by decide
  have hlost : (Conv.recv afterFound).lost = [] := by
    simp [Conv.lost, afterFound, hfound.symm]
  cases h with
  | command => exact ⟨false, .failed _ _ (by simp [Conn.opened])⟩
  | lookup => exact ⟨false, by rw [Conn.lose, hlost]; exact .failed _ _ (by simp)⟩
  | found data hdata => exact ⟨false, by rw [Conn.lose, hlost]; exact .failed _ _ (by simp)⟩
  | data data hdata => exact ⟨false, .failed _ _ (by simp)⟩
  | complete data hdata => exact ⟨true, .complete data hdata⟩
  | missing => exact ⟨false, by rw [Conn.lose, hlost]; exact .failed _ _ (by simp)⟩
  | failed outbound phase hphase => exact ⟨false, .failed _ _ hphase⟩

/-- What a fetch can have been answered with: acceptable data, or nothing if it went wrong. -/
theorem FetchPos.answer {hash answer : Bytes} {V : Bytes → Prop} {arrives : Bool} {c : Conn}
    (h : FetchPos hash V arrives c) (hdone : c.conv = .done answer) :
    V answer ∨ answer = [] ∧ arrives = false := by
  cases h with
  | complete data hdata =>
      simp only [Conv.done.injEq] at hdone
      exact Or.inl (hdone ▸ hdata)
  | failed outbound phase hphase =>
      simp only [Conv.done.injEq] at hdone
      exact Or.inr ⟨hdone.symm, rfl⟩
  | _ => simp [Conn.opened, fetchConv] at hdone

end Client
end Dfs
