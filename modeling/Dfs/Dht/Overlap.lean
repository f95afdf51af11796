import Dfs.Dht.Membership
import Dfs.Dht.Placement

/-!
# Clients with different storage lists

Nothing makes two clients start from the same list of storage nodes.  Each builds its own ring, and
the rings may differ by any number of addresses.  The addresses both hold form a ring of their own
(`common`), and the walk of either ring, with the addresses only it holds left out, is the walk of
the common one: so the two replica lists of a key agree on the order of what they share, and they
can differ by no more than the unshared addresses.
-/

namespace Dfs
namespace Dht

/-- The first `n` elements lose at most the elements of the whole list that fail the test. -/
theorem length_take_le_filter {α : Type} (p : α → Bool) (l : List α) (n : Nat) :
    (l.take n).length ≤ ((l.take n).filter p).length + (l.filter fun a => !p a).length := by
  have hsplit := List.length_eq_length_filter_add (l := l.take n) p
  have hsub := ((List.take_sublist n l).filter fun a => !p a).length_le
  omega

namespace ConsistentHash

/-- The addresses of the first ring that the second holds too. -/
def common (r₁ r₂ : ConsistentHash) : ConsistentHash :=
  { ring := r₁.ring.filter fun e => r₂.getAllNodes.contains e.2
    placed := by
      intro e he
      exact r₁.placed e (SortedMap.mem_filter.1 he).1 }

/-- The addresses of the first ring that the second does not hold. -/
def unshared (r₁ r₂ : ConsistentHash) : List Bytes :=
  r₁.getAllNodes.filter fun a => !r₂.getAllNodes.contains a

theorem mem_common {r₁ r₂ : ConsistentHash} {a : Bytes} :
    a ∈ (common r₁ r₂).getAllNodes ↔ a ∈ r₁.getAllNodes ∧ a ∈ r₂.getAllNodes := by
  rw [mem_getAllNodes, common, SortedMap.mem_filter, ← mem_getAllNodes, List.contains_iff_mem]

theorem common_comm (r₁ r₂ : ConsistentHash) : common r₁ r₂ = common r₂ r₁ := by
  apply ext_mem
  intro a
  rw [mem_common, mem_common, And.comm]

theorem walk_common (r₁ r₂ : ConsistentHash) (pos : Int) :
    (common r₁ r₂).walk pos = (r₁.walk pos).filter (· ∈ r₂.getAllNodes) := by
  rw [walk, common, SortedMap.walkFrom_filter, walk, List.filter_map]
  simp only [List.contains_eq_mem, Function.comp_def]

section Replicas

variable (r₁ r₂ : ConsistentHash) (key : Bytes) (k : Int)

/-- What a ring shares of a replica list comes first in the replica list of the common ring. -/
theorem shared_isPrefix :
    (r₁.getNodesForKey key k).filter (· ∈ r₂.getAllNodes) <+:
      (common r₁ r₂).getNodesForKey key k := by
  rw [getNodesForKey_eq, getNodesForKey_eq, walk_common]
  exact take_filter_isPrefix _ _ _

theorem length_getNodesForKey_le_shared :
    (r₁.getNodesForKey key k).length ≤
      ((r₁.getNodesForKey key k).filter (· ∈ r₂.getAllNodes)).length +
        (unshared r₁ r₂).length := by
  have hsplit := length_take_le_filter (· ∈ r₂.getAllNodes) (r₁.walk (hashKey key)) k.toNat
  have hperm : ((r₁.walk (hashKey key)).filter fun a => !decide (a ∈ r₂.getAllNodes)).Perm
      (unshared r₁ r₂) := by
    -- The walk visits every address of the ring once.
    have hwalk : (r₁.walk (hashKey key)).Perm r₁.getAllNodes := by
      refine (List.perm_ext_iff_of_nodup (r₁.walk_nodup _) r₁.getAllNodes_nodup).2 ?_
      intro a
      exact mem_walk
    simpa [unshared] using hwalk.filter fun a => !decide (a ∈ r₂.getAllNodes)
  rw [getNodesForKey_eq, ← hperm.length_eq]
  exact hsplit

/-- Of the two shared parts, the one that is not longer is where the other begins. -/
theorem shared_isPrefix_shared
    (hle : ((r₁.getNodesForKey key k).filter (· ∈ r₂.getAllNodes)).length ≤
      ((r₂.getNodesForKey key k).filter (· ∈ r₁.getAllNodes)).length) :
    (r₁.getNodesForKey key k).filter (· ∈ r₂.getAllNodes) <+:
      (r₂.getNodesForKey key k).filter (· ∈ r₁.getAllNodes) := by
  have h₁ := shared_isPrefix r₁ r₂ key k
  have h₂ := shared_isPrefix r₂ r₁ key k
  rw [common_comm r₂ r₁] at h₂
  exact List.prefix_of_prefix_length_le h₁ h₂ hle

theorem length_le_shared_replicas {l : List Bytes} (hl : l.Nodup)
    (h₁ : ∀ a ∈ l, a ∈ r₁.getNodesForKey key k) (h₂ : ∀ a ∈ l, a ∈ r₂.getNodesForKey key k) :
    l.length ≤ ((r₁.getNodesForKey key k).filter (· ∈ r₂.getNodesForKey key k)).length := by
  refine (List.subperm_of_subset hl ?_).length_le
  intro a ha
  exact List.mem_filter.2 ⟨h₁ a ha, decide_eq_true (h₂ a ha)⟩

end Replicas

/-- Clients that know each other's primary of a key have the same one. -/
theorem primary_eq_of_shared {r₁ r₂ : ConsistentHash} {key : Bytes}
    (h₁ : r₁.getNodeForKey key ∈ r₂.getAllNodes) (h₂ : r₂.getNodeForKey key ∈ r₁.getAllNodes) :
    r₁.getNodeForKey key = r₂.getNodeForKey key := by
  -- Either primary is where the walk of the common ring begins.
  have hfirst : ∀ {r r' : ConsistentHash}, r'.getNodeForKey key ∈ r.getAllNodes →
      r.getNodeForKey key ∈ r'.getAllNodes →
      ((common r r').walk (hashKey key)).head? = some (r.getNodeForKey key) := by
    intro r r' hother hknown
    rw [getNodeForKey_eq] at hknown ⊢
    rw [walk_common]
    cases hwalk : r.walk (hashKey key) with
    | nil =>
        have hnone : r'.getNodeForKey key ∉ r.getAllNodes := by
          intro hmem
          have hwalked : r'.getNodeForKey key ∈ r.walk (hashKey key) := mem_walk.2 hmem
          rw [hwalk] at hwalked
          exact List.not_mem_nil hwalked
        exact absurd hother hnone
    | cons a rest =>
        rw [hwalk] at hknown
        simp only [List.head?_cons, Option.getD_some] at hknown
        simp [hknown]
  have heq := hfirst h₂ h₁
  rw [common_comm, hfirst h₁ h₂] at heq
  exact (Option.some.inj heq).symm

/-- Two clients order the replicas they share alike and have the same primary once each knows the
other's; they share every replica but as many as one of them has addresses unknown to the other. -/
theorem replica_lists_overlap (r₁ r₂ : ConsistentHash) (key : Bytes) (k : Int) :
    let l₁ := r₁.getNodesForKey key k
    let l₂ := r₂.getNodesForKey key k
    (l₁.filter (· ∈ r₂.getAllNodes) <+: l₂.filter (· ∈ r₁.getAllNodes) ∨
      l₂.filter (· ∈ r₁.getAllNodes) <+: l₁.filter (· ∈ r₂.getAllNodes)) ∧
    min (l₁.length - (unshared r₁ r₂).length) (l₂.length - (unshared r₂ r₁).length) ≤
      (l₁.filter (· ∈ l₂)).length ∧
    (r₁.getNodeForKey key ∈ r₂.getAllNodes → r₂.getNodeForKey key ∈ r₁.getAllNodes →
      r₁.getNodeForKey key = r₂.getNodeForKey key) := by
  intro l₁ l₂
  have hlen₁ : l₁.length ≤
      (l₁.filter (· ∈ r₂.getAllNodes)).length + (unshared r₁ r₂).length :=
    length_getNodesForKey_le_shared r₁ r₂ key k
  have hlen₂ : l₂.length ≤
      (l₂.filter (· ∈ r₁.getAllNodes)).length + (unshared r₂ r₁).length :=
    length_getNodesForKey_le_shared r₂ r₁ key k
  refine ⟨?_, ?_, primary_eq_of_shared⟩
  · rcases le_total (l₁.filter (· ∈ r₂.getAllNodes)).length
      (l₂.filter (· ∈ r₁.getAllNodes)).length with hle | hle
    · exact Or.inl (shared_isPrefix_shared r₁ r₂ key k hle)
    · exact Or.inr (shared_isPrefix_shared r₂ r₁ key k hle)
  · -- The shared part that is not longer lies in both lists.
    rcases le_total (l₁.filter (· ∈ r₂.getAllNodes)).length
      (l₂.filter (· ∈ r₁.getAllNodes)).length with hle | hle
    · have hsub := (shared_isPrefix_shared r₁ r₂ key k hle).subset
      have hshared : (l₁.filter (· ∈ r₂.getAllNodes)).length ≤ (l₁.filter (· ∈ l₂)).length :=
        length_le_shared_replicas r₁ r₂ key k ((r₁.getNodesForKey_nodup key k).filter _)
        (fun a ha => (List.mem_filter.1 ha).1) (fun a ha => (List.mem_filter.1 (hsub ha)).1)
      omega
    · have hsub := (shared_isPrefix_shared r₂ r₁ key k hle).subset
      have hshared : (l₂.filter (· ∈ r₁.getAllNodes)).length ≤ (l₁.filter (· ∈ l₂)).length :=
        length_le_shared_replicas r₁ r₂ key k ((r₂.getNodesForKey_nodup key k).filter _)
        (fun a ha => (List.mem_filter.1 (hsub ha)).1) (fun a ha => (List.mem_filter.1 ha).1)
      omega

/-- Lists that differ by one address each way share a replica of every key; here also the primary,
the first address of both. -/
theorem replica_lists_overlap_local_ports :
    let r₁ := build [Bytes.ascii "127.0.0.1:8001", Bytes.ascii "127.0.0.1:8002"]
    let r₂ := build [Bytes.ascii "127.0.0.1:8001", Bytes.ascii "127.0.0.1:8003"]
    1 ≤ ((r₁.getNodesForKey [] 2).filter (· ∈ r₂.getNodesForKey [] 2)).length ∧
      r₁.getNodeForKey [] = r₂.getNodeForKey [] :=
  ⟨le_trans (by decide +kernel) (replica_lists_overlap _ _ [] 2).2.1,
    (replica_lists_overlap _ _ [] 2).2.2 (by decide +kernel) (by decide +kernel)⟩

end ConsistentHash
end Dht
end Dfs
