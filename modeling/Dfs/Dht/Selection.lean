import Dfs.Dht.Membership

/-!
# Replica selection

What `getNodesForKey` is for: the first `k` nodes of the ring from the position of the key on, each
once, the first of them being what `getNodeForKey` answers.  The number of nodes that the ring
reports is a 32-bit `int`, so all of this holds as long as there are fewer than `2 ^ 31` of them,
and from there on the report is wrong: `replica_selection_iff`.
-/

namespace Dfs
namespace Dht

open ConsistentHash

/-- The nodes in the order of their positions, from the first position at or after `pos` to the
last one and then from the smallest one on. -/
def successors (r : ConsistentHash) (pos : Int) : List Bytes :=
  (r.ring.entries.filter (fun e => pos ≤ e.1) ++ r.ring.entries.filter (fun e => e.1 < pos)).map
    Prod.snd

/-- What the replica list of a key has to be. -/
structure SelectsReplicas (r : ConsistentHash) (key : Bytes) (k : Int) : Prop where
  nodup : (r.getNodesForKey key k).Nodup
  length : ((r.getNodesForKey key k).length : Int) = min (max k 0) r.getNodeCount
  initial : r.getNodesForKey key k <+: successors r (hashKey key)
  first : 1 ≤ k → r.getAllNodes ≠ [] →
    (r.getNodesForKey key k).head? = some (r.getNodeForKey key)
  /-- The index loop asks for positions that the ring has. -/
  indexed : ∀ it, (r.ring.lowerBound (hashKey key)).or r.ring.entries.head? = some it →
    ∀ i < r.ring.entries.length,
      let keys := r.ring.entries.map Prod.fst
      ∃ pos, keys[(keys.findIdx (· = it.1) + i) % keys.length]? = some pos ∧
        (r.ring.find? pos).isSome = true

section

variable {r : ConsistentHash} {key : Bytes} {k : Int}

theorem length_walk (r : ConsistentHash) (pos : Int) :
    (r.walk pos).length = r.ring.entries.length := by
  rw [walk, SortedMap.walkFrom_eq_rotate, List.length_map, List.length_rotate]

theorem length_getNodesForKey (r : ConsistentHash) (key : Bytes) (k : Int) :
    (r.getNodesForKey key k).length = min k.toNat r.ring.entries.length := by
  rw [getNodesForKey_eq, List.length_take, length_walk]

theorem getNodesForKey_initial (r : ConsistentHash) (key : Bytes) (k : Int) :
    r.getNodesForKey key k <+: successors r (hashKey key) := by
  rw [getNodesForKey_eq]
  exact List.take_prefix _ _

theorem head?_getNodesForKey (hk : 1 ≤ k) (hne : r.getAllNodes ≠ []) :
    (r.getNodesForKey key k).head? = some (r.getNodeForKey key) := by
  rw [getNodesForKey_eq, getNodeForKey_eq, List.head?_take, if_neg (by omega)]
  cases hwalk : r.walk (hashKey key) with
  | nil =>
      have hlength := length_walk r (hashKey key)
      rw [hwalk, List.length_nil] at hlength
      exact absurd (List.map_eq_nil_iff.2 (List.length_eq_zero_iff.1 hlength.symm)) hne
  | cons a rest => rfl

/-- Every position that the loop reads is one of the ring. -/
theorem ring_at_index (r : ConsistentHash) {n i : Nat} (hi : i < r.ring.entries.length) :
    ∃ pos, (r.ring.entries.map Prod.fst)[(n + i) % (r.ring.entries.map Prod.fst).length]? =
        some pos ∧ (r.ring.find? pos).isSome = true := by
  have hidx : (n + i) % (r.ring.entries.map Prod.fst).length < r.ring.entries.length := by
    rw [List.length_map]
    exact Nat.mod_lt _ (Nat.lt_of_le_of_lt (Nat.zero_le i) hi)
  have hmem := List.getElem_mem hidx
  refine ⟨_, by rw [List.getElem?_map, List.getElem?_eq_getElem hidx, Option.map_some], ?_⟩
  rw [Option.isSome_iff_exists]
  exact ⟨_, SortedMap.find?_eq_some.2 hmem⟩

/-! ## The number of nodes -/

theorem hashKey_range (key : Bytes) : -2 ^ 31 ≤ hashKey key ∧ hashKey key ≤ 2 ^ 31 - 1 := by
  induction key using List.reverseRecOn with
  | nil => exact ⟨by decide, by decide⟩
  | append_singleton cs c _ =>
      rw [hashKey, List.foldl_append]
      exact toInt32_range _

/-- There is one node at most on every position. -/
theorem length_entries_le (r : ConsistentHash) : r.ring.entries.length ≤ 2 ^ 32 := by
  have hsub : (r.ring.entries.map Prod.fst).toFinset ⊆ Finset.Icc (-2 ^ 31 : Int) (2 ^ 31 - 1) := by
    intro pos hpos
    rcases List.mem_map.1 (List.mem_toFinset.1 hpos) with ⟨e, he, rfl⟩
    rw [Finset.mem_Icc, r.placed e he]
    exact hashKey_range e.2
  calc r.ring.entries.length
      = (r.ring.entries.map Prod.fst).toFinset.card := by
        rw [List.toFinset_card_of_nodup r.ring.keys_nodup, List.length_map]
    _ ≤ (Finset.Icc (-2 ^ 31 : Int) (2 ^ 31 - 1)).card := Finset.card_le_card hsub
    _ = 2 ^ 32 := by rw [Int.card_Icc]; rfl

/-- The count is right below `2 ^ 31` nodes and not positive from there on. -/
theorem getNodeCount_cases (r : ConsistentHash) :
    r.ring.entries.length < 2 ^ 31 ∧ r.getNodeCount = r.ring.entries.length ∨
      2 ^ 31 ≤ r.ring.entries.length ∧ r.getNodeCount ≤ 0 := by
  have hle := length_entries_le r
  rcases Nat.lt_or_ge r.ring.entries.length (2 ^ 31) with hlt | hge
  · exact Or.inl ⟨hlt, toInt32_of_range (by omega) (by omega)⟩
  · refine Or.inr ⟨hge, ?_⟩
    simp only [getNodeCount, toInt32, Int.bmod]
    split <;> omega

/-! ## The selection -/

theorem selectsReplicas_of_lt (h : r.getAllNodes.length < 2 ^ 31) :
    SelectsReplicas r key k where
  nodup := r.getNodesForKey_nodup key k
  length := by
    rw [getAllNodes, List.length_map] at h
    have hcount : r.getNodeCount = r.ring.entries.length :=
      toInt32_of_range (by omega) (by omega)
    rw [length_getNodesForKey, hcount]
    omega
  initial := getNodesForKey_initial r key k
  first := head?_getNodesForKey
  indexed := fun _ _ _ hi => ring_at_index r hi

/-- Replica selection follows the ring, for every key and every `int`, exactly as long as the ring
has fewer than `2 ^ 31` nodes. -/
theorem replica_selection_iff (r : ConsistentHash) :
    (∀ key k, -2 ^ 31 ≤ k → k ≤ 2 ^ 31 - 1 → SelectsReplicas r key k) ↔
      r.getAllNodes.length < 2 ^ 31 := by
  refine ⟨fun h => ?_, fun h key k _ _ => selectsReplicas_of_lt h⟩
  have hone := (h [] 1 (by decide) (by decide)).length
  rw [getAllNodes, List.length_map]
  rcases getNodeCount_cases r with ⟨hlt, _⟩ | ⟨hge, hcount⟩
  · exact hlt
  · -- One node is selected, and the ring says that it has none.
    rw [length_getNodesForKey] at hone
    omega

/-! ## A crowded ring -/

/-- The base-31 digits of a number, the most significant one first. -/
def digitsKey (n : Nat) : Bytes :=
  (Nat.digits 31 n).reverse.map UInt8.ofNat

theorem digitsKey_pos {n : Nat} (hpos : 0 < n) :
    digitsKey n = digitsKey (n / 31) ++ [UInt8.ofNat (n % 31)] := by
  rw [digitsKey, digitsKey, Nat.digits_def' (by decide) hpos, List.reverse_cons, List.map_append,
    List.map_singleton]

theorem hashKey_append (key : Bytes) (c : UInt8) :
    hashKey (key ++ [c]) = toInt32 (31 * hashKey key + c.toNat) := by
  rw [hashKey, List.foldl_append, List.foldl_cons, List.foldl_nil, hashStep, ← hashKey]

/-- The hash of the digits is the number, so every position has a key. -/
theorem hashKey_digitsKey (n : Nat) : hashKey (digitsKey n) = toInt32 n := by
  induction n using Nat.strong_induction_on with
  | _ n ih =>
      rcases Nat.eq_zero_or_pos n with rfl | hpos
      · simp [digitsKey, hashKey, toInt32]
      · have hlast : (UInt8.ofNat (n % 31)).toNat = n % 31 := by
          rw [UInt8.toNat_ofNat']
          omega
        have hsum : 31 * ((n / 31 : Nat) : Int) + ((n % 31 : Nat) : Int) = n := by omega
        calc hashKey (digitsKey n)
            = toInt32 (31 * toInt32 ((n / 31 : Nat) : Int) + ((n % 31 : Nat) : Int)) := by
              rw [digitsKey_pos hpos, hashKey_append, hlast, ih (n / 31) (by omega)]
          _ = toInt32 (31 * ((n / 31 : Nat) : Int) + ((n % 31 : Nat) : Int)) := by
            simp only [toInt32]
            rw [← Int.bmod_add_bmod, Int.mul_bmod_bmod, Int.bmod_add_bmod]
          _ = toInt32 n := by rw [hsum]

end

theorem toInt32_injective {m n : Nat} (hm : m < 2 ^ 32) (hn : n < 2 ^ 32)
    (h : toInt32 m = toInt32 n) : m = n := by
  simp only [toInt32, Int.bmod] at h
  split at h <;> split at h <;> omega

/-- Nodes on different positions are all on the ring. -/
theorem length_build {storageNodes : List Bytes} (h : (storageNodes.map hashKey).Nodup) :
    (build storageNodes).getAllNodes.length = storageNodes.length := by
  have hfree : ∀ x ∈ storageNodes.toFinset, PositionFree storageNodes.toFinset x := by
    intro x hx y hy hne hkey
    exact hne (List.inj_on_of_nodup_map h (List.mem_toFinset.1 hy) (List.mem_toFinset.1 hx) hkey)
  have hholds : Holds (build storageNodes) storageNodes.toFinset := by
    intro a
    rw [mem_build_of_free hfree (fun b hb => List.mem_toFinset.2 hb), List.mem_toFinset]
  rw [length_getAllNodes hholds, List.toFinset_card_of_nodup h.of_map]

theorem length_build_digits {n : Nat} (hn : n ≤ 2 ^ 32) :
    (build ((List.range n).map digitsKey)).getAllNodes.length = n := by
  have hnodup : (((List.range n).map digitsKey).map hashKey).Nodup := by
    rw [List.map_map]
    refine (List.nodup_map_iff_inj_on List.nodup_range).2 ?_
    intro i hi j hj hij
    have hi' := List.mem_range.1 hi
    have hj' := List.mem_range.1 hj
    rw [Function.comp_apply, Function.comp_apply, hashKey_digitsKey, hashKey_digitsKey] at hij
    exact toInt32_injective (by omega) (by omega) hij
  rw [length_build hnodup, List.length_map, List.length_range]

/-- With `2 ^ 31` nodes on the ring, the count is negative. -/
theorem crowded_ring_miscounts :
    ¬ SelectsReplicas (build ((List.range (2 ^ 31)).map digitsKey)) [] 1 := by
  have hlength := length_build_digits (n := 2 ^ 31) (by decide)
  intro h
  have hone := h.length
  rw [getAllNodes, List.length_map] at hlength
  rcases getNodeCount_cases (build ((List.range (2 ^ 31)).map digitsKey)) with ⟨hlt, _⟩ | ⟨_, hcount⟩
  · exact absurd hlength hlt.ne
  · rw [length_getNodesForKey, hlength] at hone
    omega

end Dht
end Dfs
