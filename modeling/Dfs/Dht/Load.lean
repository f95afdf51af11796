import Dfs.Dht.Selection
import Dfs.Library.TextScan

/-!
# The load of a node

A node is the primary of the positions from behind the node before it up to its own.  The clusters
of the repository run on one host with consecutive ports, whose addresses differ in their last
digits only: `hashKey` puts `host:8002` right behind `host:8001`, so of all positions it gets one.
-/

namespace Dfs
namespace Dht

open Bytes TextScan ConsistentHash

/-- The node that `getNodeForKey` selects for a key at a position. -/
def primary (r : ConsistentHash) (pos : Int) : Bytes :=
  match (r.ring.lowerBound pos).or r.ring.entries.head? with
  | none => []
  | some it => it.2

theorem getNodeForKey_primary (r : ConsistentHash) (key : Bytes) :
    r.getNodeForKey key = primary r (hashKey key) := rfl

/-- All `2 ^ 32` positions. -/
noncomputable def positions : Finset Int :=
  Finset.Icc (-2 ^ 31) (2 ^ 31 - 1)

/-- The number of positions that a node is the primary of. -/
noncomputable def share (r : ConsistentHash) (a : Bytes) : Nat :=
  (positions.filter fun pos => primary r pos = a).card

/-- Every node on the ring is the primary of at least a tenth of `2 ^ 32 / n` positions. -/
def SpreadEvenly (r : ConsistentHash) (n : Nat) : Prop :=
  ∀ a ∈ r.getAllNodes, 2 ^ 32 ≤ 10 * n * share r a

/-- `host:8001`, `host:8002` and so on. -/
def cluster (host : Bytes) (n : Nat) : List Bytes :=
  (List.range n).map fun i => host ++ 58 :: showNat (8001 + i)

section

variable {r : ConsistentHash} {a b : Bytes} {pos : Int}

/-- On a ring with nodes every position has its entry. -/
theorem exists_first (ha : a ∈ r.getAllNodes) (pos : Int) :
    ∃ it, (r.ring.lowerBound pos).or r.ring.entries.head? = some it ∧ primary r pos = it.2 := by
  cases hit : (r.ring.lowerBound pos).or r.ring.entries.head? with
  | none =>
      rw [← SortedMap.head?_walkFrom, List.head?_eq_none_iff] at hit
      have hmem : (hashKey a, a) ∈ r.ring.walkFrom pos :=
        SortedMap.mem_walkFrom.2 (mem_getAllNodes.1 ha)
      rw [hit] at hmem
      cases hmem
  | some it => exact ⟨it, rfl, by rw [primary, hit]⟩

/-- A node is the primary of its own position. -/
theorem primary_hashKey (ha : a ∈ r.getAllNodes) : primary r (hashKey a) = a := by
  have hentry := mem_getAllNodes.1 ha
  rcases exists_first ha (hashKey a) with ⟨it, hit, hprimary⟩
  rcases SortedMap.first_cases hit with ⟨hmem, ⟨hle, hleast⟩ | hbefore⟩
  · have hpos : it.1 = hashKey a := le_antisymm (hleast _ hentry (le_refl _)) hle
    have heq := SortedMap.eq_of_mem_of_key_eq hmem hentry hpos
    exact hprimary.trans (congrArg Prod.snd heq)
  · exact absurd (hbefore _ hentry).1 (lt_irrefl _)

theorem share_pos (ha : a ∈ r.getAllNodes) : 1 ≤ share r a := by
  refine Finset.card_pos.2 ⟨hashKey a, ?_⟩
  rw [Finset.mem_filter, positions, Finset.mem_Icc]
  exact ⟨hashKey_range a, primary_hashKey ha⟩

/-- A node right behind another one is the primary of no position but its own. -/
theorem share_eq_one (ha : a ∈ r.getAllNodes) (hb : b ∈ r.getAllNodes)
    (hnext : hashKey a = toInt32 (hashKey b + 1)) : share r a = 1 := by
  have hbentry := mem_getAllNodes.1 hb
  have hrange := hashKey_range b
  -- The node before it is one position away, across the ends of the range if need be.
  have hstep : hashKey a = hashKey b + 1 ∨ hashKey b = 2 ^ 31 - 1 ∧ hashKey a = -2 ^ 31 := by
    rw [hnext]
    simp only [toInt32, Int.bmod]
    split <;> omega
  refine Finset.card_eq_one.2 ⟨hashKey a, ?_⟩
  ext pos
  rw [Finset.mem_filter, positions, Finset.mem_Icc, Finset.mem_singleton]
  constructor
  · rintro ⟨hpos, hprimary⟩
    rcases exists_first ha pos with ⟨it, hit, heq⟩
    rcases SortedMap.first_cases hit with ⟨hmem, hfirst⟩
    have hplaced : it.1 = hashKey a := by rw [r.placed it hmem, ← heq, hprimary]
    rcases hfirst with ⟨hle, hleast⟩ | hbefore
    · by_cases hposb : pos ≤ hashKey b
      · have hnear : it.1 ≤ hashKey b := hleast _ hbentry hposb
        omega
      · omega
    · have hfar : hashKey b < pos ∧ it.1 ≤ hashKey b := hbefore _ hbentry
      omega
  · rintro rfl
    exact ⟨hashKey_range a, primary_hashKey ha⟩

/-! ## Consecutive ports -/

/-- Whatever is added, the position of an address stays taken once it has been added. -/
theorem exists_mem_build {storageNodes : List Bytes} (ha : a ∈ storageNodes) :
    ∃ b ∈ (build storageNodes).getAllNodes, hashKey b = hashKey a := by
  induction storageNodes using List.reverseRecOn with
  | nil => cases ha
  | append_singleton l x ih =>
      rw [build_append]
      have hlast : x ∈ ((build l).addNode x).getAllNodes := mem_getAllNodes_addNode.2 (Or.inl rfl)
      rcases List.mem_append.1 ha with ha | ha
      · rcases ih ha with ⟨b, hb, hkey⟩
        by_cases hsame : hashKey b = hashKey x
        · exact ⟨x, hlast, hsame.symm.trans hkey⟩
        · exact ⟨b, mem_getAllNodes_addNode.2 (Or.inr ⟨hb, hsame⟩), hkey⟩
      · exact ⟨x, hlast, by rw [List.mem_singleton.1 ha]⟩

/-- The second port is right behind the first. -/
theorem hashKey_consecutive (host : Bytes) :
    hashKey (host ++ 58 :: showNat 8002) = toInt32 (hashKey (host ++ 58 :: showNat 8001) + 1) := by
  have hfirst : host ++ 58 :: showNat 8001 = (host ++ ascii ":800") ++ [49] := by
    have hport : 58 :: showNat 8001 = ascii ":800" ++ [49] := by decide +kernel
    rw [hport, List.append_assoc]
  have hsecond : host ++ 58 :: showNat 8002 = (host ++ ascii ":800") ++ [50] := by
    have hport : 58 :: showNat 8002 = ascii ":800" ++ [50] := by decide +kernel
    rw [hport, List.append_assoc]
  have hone : (49 : UInt8).toNat = 49 := rfl
  have htwo : (50 : UInt8).toNat = 50 := rfl
  rw [hfirst, hsecond, hashKey_append, hashKey_append, hone, htwo]
  simp only [toInt32, Int.bmod_add_bmod]
  congr 1
  ring

/-- With `n` storage nodes on consecutive ports of one host, every node gets a tenth of its fair
share exactly when a single position is that much. -/
theorem load_spread_iff (host : Bytes) (n : Nat) (hn : 2 ≤ n) :
    SpreadEvenly (build (cluster host n)) n ↔ 2 ^ 32 ≤ 10 * n := by
  have hmem : ∀ i < n, host ++ 58 :: showNat (8001 + i) ∈ cluster host n := fun i hi =>
    List.mem_map.2 ⟨i, List.mem_range.2 hi, rfl⟩
  constructor
  · intro h
    rcases exists_mem_build (hmem 0 (by omega)) with ⟨b, hb, hbkey⟩
    rcases exists_mem_build (hmem 1 (by omega)) with ⟨a, ha, hakey⟩
    have hnext : hashKey a = toInt32 (hashKey b + 1) := by
      rw [hakey, hbkey]
      exact hashKey_consecutive host
    have hshare := h a ha
    rwa [share_eq_one ha hb hnext, Nat.mul_one] at hshare
  · intro h a ha
    calc 2 ^ 32 ≤ 10 * n * 1 := by omega
      _ ≤ 10 * n * share (build (cluster host n)) a := Nat.mul_le_mul_left _ (share_pos ha)

end

theorem load_spread_two :
    SpreadEvenly (build (cluster (ascii "127.0.0.1") 2)) 2 ↔ 2 ^ 32 ≤ 10 * 2 :=
  load_spread_iff (ascii "127.0.0.1") 2 (by decide)

/-- The two storage nodes of the client program: the second one is the primary of one position. -/
theorem second_port_starves :
    share (build (cluster (ascii "127.0.0.1") 2)) (ascii "127.0.0.1:8002") = 1 ∧
      ¬ SpreadEvenly (build (cluster (ascii "127.0.0.1") 2)) 2 := by
  have hfirst : ascii "127.0.0.1:8001" ∈ (build (cluster (ascii "127.0.0.1") 2)).getAllNodes := by
    decide +kernel
  have hsecond : ascii "127.0.0.1:8002" ∈ (build (cluster (ascii "127.0.0.1") 2)).getAllNodes := by
    decide +kernel
  have hshare := share_eq_one hsecond hfirst (by decide +kernel)
  refine ⟨hshare, fun h => ?_⟩
  have htenth := h _ hsecond
  rw [hshare] at htenth
  exact absurd htenth (by decide)

end Dht
end Dfs
