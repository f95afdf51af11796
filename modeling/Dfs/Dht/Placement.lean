import Dfs.Dht.ConsistentHash

/-!
# Movement of replicas

How the replica lists of `getNodesForKey` change when one node joins or leaves the ring.  Both
cases come down to one fact about lists (`take_filter_isPrefix`): the walk after the change, with
the node left out, is the walk before it with the node left out.
-/

namespace Dfs
namespace Dht

open ConsistentHash

/-- Leaving elements out of the first `n` leaves a prefix of the first `n` of what remains. -/
theorem take_filter_isPrefix {α : Type} (p : α → Bool) (l : List α) (n : Nat) :
    (l.take n).filter p <+: (l.filter p).take n := by
  rw [List.prefix_take_iff]
  refine ⟨(List.take_prefix n l).filter p, ?_⟩
  exact (List.length_filter_le p _).trans (by simp)

/-- At most one of the first `n` elements is lost when one value of a duplicate-free list is left
out. -/
theorem length_take_filter_ne {α : Type} [DecidableEq α] {l : List α} (hl : l.Nodup) (x : α)
    (n : Nat) :
    ((l.filter (· ≠ x)).take n).length ≤ ((l.take n).filter (· ≠ x)).length + 1 := by
  have herase : ∀ {l' : List α}, l'.Nodup → l'.length ≤ (l'.filter (· ≠ x)).length + 1 := by
    intro l' hl'
    have hcount : (l'.filter (· = x)).length ≤ 1 := by
      have := List.nodup_iff_count_le_one.1 hl' x
      rw [List.count_eq_length_filter] at this
      simpa [beq_eq_decide] using this
    have hsplit := List.length_eq_length_filter_add (l := l') (· = x)
    simp only [ne_eq, ← decide_not] at hsplit ⊢
    omega
  have htake := herase (hl.sublist (List.take_sublist n l))
  have hle := List.length_filter_le (fun a => decide (a ≠ x)) l
  rw [List.length_take] at htake ⊢
  omega

namespace ConsistentHash

theorem removeNode_addNode (r : ConsistentHash) {x : Bytes}
    (hfree : ∀ y ∈ r.getAllNodes, hashKey y ≠ hashKey x) : (r.addNode x).removeNode x = r := by
  apply ext_mem
  intro a
  rw [mem_getAllNodes_removeNode, mem_getAllNodes_addNode]
  constructor
  · rintro ⟨rfl | ⟨ha, _⟩, hne⟩
    · exact absurd rfl hne
    · exact ha
  · intro ha
    exact ⟨Or.inr ⟨ha, hfree a ha⟩, hfree a ha⟩

/-- Adding a member again changes nothing. -/
theorem addNode_of_mem {r : ConsistentHash} {x : Bytes} (hx : x ∈ r.getAllNodes) :
    r.addNode x = r := by
  apply ext_mem
  intro a
  rw [mem_getAllNodes_addNode]
  constructor
  · rintro (rfl | ⟨ha, _⟩)
    · exact hx
    · exact ha
  · intro ha
    by_cases hkey : hashKey a = hashKey x
    · have heq := SortedMap.eq_of_mem_of_key_eq (mem_getAllNodes.1 ha) (mem_getAllNodes.1 hx) hkey
      exact Or.inl (congrArg Prod.snd heq)
    · exact Or.inr ⟨ha, hkey⟩

/-- Removing a member takes exactly that address out of every walk. -/
theorem walk_removeNode {r : ConsistentHash} {x : Bytes} (hx : x ∈ r.getAllNodes) (pos : Int) :
    (r.removeNode x).walk pos = (r.walk pos).filter (· ≠ x) := by
  unfold walk removeNode
  rw [SortedMap.walkFrom_erase, List.filter_map]
  congr 1
  refine List.filter_congr ?_
  intro e he
  have hmem := SortedMap.mem_walkFrom.1 he
  have hiff : e.1 = hashKey x ↔ e.2 = x := by
    constructor
    · intro hkey
      have := SortedMap.eq_of_mem_of_key_eq hmem (mem_getAllNodes.1 hx) hkey
      exact congrArg Prod.snd this
    · intro haddr
      rw [r.placed e hmem, haddr]
  simp [hiff]

section Removal

variable {r : ConsistentHash} {x : Bytes} (hx : x ∈ r.getAllNodes) (key : Bytes)
include hx

theorem getNodesForKey_removeNode_ordered (k : Int) :
    (r.getNodesForKey key k).filter (· ≠ x) <+: (r.removeNode x).getNodesForKey key k := by
  rw [getNodesForKey_eq, getNodesForKey_eq, walk_removeNode hx]
  exact take_filter_isPrefix _ _ _

theorem length_getNodesForKey_removeNode (k : Int) :
    ((r.removeNode x).getNodesForKey key k).length ≤
      ((r.getNodesForKey key k).filter (· ≠ x)).length + 1 := by
  rw [getNodesForKey_eq, getNodesForKey_eq, walk_removeNode hx]
  exact length_take_filter_ne (r.walk_nodup _) x _

theorem getNodeForKey_removeNode (hprimary : r.getNodeForKey key ≠ x) :
    (r.removeNode x).getNodeForKey key = r.getNodeForKey key := by
  rw [getNodeForKey_eq] at hprimary
  rw [getNodeForKey_eq, getNodeForKey_eq, walk_removeNode hx]
  cases hwalk : r.walk (hashKey key) with
  | nil => rfl
  | cons a l =>
      rw [hwalk] at hprimary
      simp only [List.head?_cons, Option.getD_some] at hprimary
      simp [hprimary]

end Removal

/-- Minimal movement: one node joining at a free position or leaving keeps the order of all other
replicas of every key, moves at most one of them, and changes the primary only to (away from)
that node; a member added again changes nothing. -/
theorem minimal_movement (r : ConsistentHash) (key : Bytes) (k : Int) :
    (∀ x, (∀ y ∈ r.getAllNodes, hashKey y ≠ hashKey x) →
      ((r.addNode x).getNodesForKey key k).filter (· ≠ x) <+: r.getNodesForKey key k ∧
      (r.getNodesForKey key k).length ≤
        (((r.addNode x).getNodesForKey key k).filter (· ≠ x)).length + 1 ∧
      ((r.addNode x).getNodeForKey key = r.getNodeForKey key ∨
        (r.addNode x).getNodeForKey key = x)) ∧
    (∀ x ∈ r.getAllNodes,
      (r.addNode x).getNodesForKey key k = r.getNodesForKey key k ∧
      (r.addNode x).getNodeForKey key = r.getNodeForKey key ∧
      (r.getNodesForKey key k).filter (· ≠ x) <+: (r.removeNode x).getNodesForKey key k ∧
      ((r.removeNode x).getNodesForKey key k).length ≤
        ((r.getNodesForKey key k).filter (· ≠ x)).length + 1 ∧
      (r.getNodeForKey key = x ∨
        (r.removeNode x).getNodeForKey key = r.getNodeForKey key)) := by
  refine ⟨?_, ?_⟩
  · intro x hfree
    -- The ring before is the ring after with `x` removed.
    have hx : x ∈ (r.addNode x).getAllNodes := mem_getAllNodes_addNode.2 (Or.inl rfl)
    have hordered := getNodesForKey_removeNode_ordered hx key k
    have hlength := length_getNodesForKey_removeNode hx key k
    have hprimary := getNodeForKey_removeNode hx key
    rw [removeNode_addNode r hfree] at hordered hlength hprimary
    refine ⟨hordered, hlength, ?_⟩
    by_cases hkey : (r.addNode x).getNodeForKey key = x
    · exact Or.inr hkey
    · exact Or.inl (hprimary hkey).symm
  · intro x hx
    rw [addNode_of_mem hx]
    refine ⟨rfl, rfl, getNodesForKey_removeNode_ordered hx key k,
      length_getNodesForKey_removeNode hx key k, ?_⟩
    by_cases hkey : r.getNodeForKey key = x
    · exact Or.inl hkey
    · exact Or.inr (getNodeForKey_removeNode hx key hkey)

/-- The three local storage ports of the experiments, with the second in the middle of a list. -/
theorem minimal_movement_local_ports :
    let r := ((empty.addNode (Bytes.ascii "127.0.0.1:8001")).addNode
      (Bytes.ascii "127.0.0.1:8002"))
    let x := Bytes.ascii "127.0.0.1:8003"
    ((r.addNode x).getNodesForKey [] 2).filter (· ≠ x) <+: r.getNodesForKey [] 2 ∧
      ((r.addNode x).getNodesForKey [] 2).filter (· ≠ x) <+:
        ((r.addNode x).removeNode x).getNodesForKey [] 2 :=
  ⟨((minimal_movement _ [] 2).1 _ (by decide +kernel)).1,
    ((minimal_movement _ [] 2).2 _ (by decide +kernel)).2.2.1⟩

/-- Adding a member again at its own position leaves it inside the list, which therefore has no
prefix without it. -/
theorem readded_member_not_prefix :
    let x := Bytes.ascii "127.0.0.1:8002"
    let r := ((empty.addNode (Bytes.ascii "127.0.0.1:8001")).addNode x).addNode
      (Bytes.ascii "127.0.0.1:8003")
    (∀ y ∈ r.getAllNodes, hashKey y = hashKey x → y = x) ∧
      ¬ ((r.addNode x).getNodesForKey [] 3).filter (· ≠ x) <+: r.getNodesForKey [] 3 := by
  decide +kernel

end ConsistentHash
end Dht
end Dfs
