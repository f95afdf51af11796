import Dfs.Dht.ConsistentHash

/-!
# The ring as a set of addresses

What the ring is for is a finite set of node addresses.  The source keys it by the 32-bit position
of an address and never compares the addresses that share a position, so the ring is that set
exactly as long as no operation names an address whose position another member occupies.

`Faithful` follows a run of operations beside the set they describe; `faithful_iff` shows that it
holds of a run if and only if the run is `CollisionFree`.
-/

namespace Dfs
namespace Dht

/-- The calls of `addNode`, `removeNode` and `hasNode` on one ring. -/
inductive RingOp where
  | addNode (nodeAddress : Bytes)
  | removeNode (nodeAddress : Bytes)
  | hasNode (nodeAddress : Bytes)

namespace RingOp

def address : RingOp → Bytes
  | addNode x => x
  | removeNode x => x
  | hasNode x => x

/-- The effect of an operation on the set of addresses added and not removed since. -/
def onSet (S : Finset Bytes) : RingOp → Finset Bytes
  | addNode x => insert x S
  | removeNode x => S.erase x
  | hasNode _ => S

end RingOp

namespace ConsistentHash

def apply (r : ConsistentHash) : RingOp → ConsistentHash
  | .addNode x => r.addNode x
  | .removeNode x => r.removeNode x
  | .hasNode _ => r

/-- The constructor of `Client`: the storage nodes added one after the other. -/
def build (storageNodes : List Bytes) : ConsistentHash :=
  storageNodes.foldl addNode empty

end ConsistentHash

open ConsistentHash

/-- The ring lists the members of `S`, each once, and counts them. -/
def Represents (r : ConsistentHash) (S : Finset Bytes) : Prop :=
  r.getAllNodes.Nodup ∧ (∀ a, a ∈ r.getAllNodes ↔ a ∈ S) ∧ r.getNodeCount = S.card

/-- A query is answered for the set, and a removal takes no other address away. -/
def Answers (r : ConsistentHash) (S : Finset Bytes) : RingOp → Prop
  | .addNode _ => True
  | .removeNode x => ∀ a ∈ r.getAllNodes, a ≠ x → a ∈ (r.removeNode x).getAllNodes
  | .hasNode x => r.hasNode x = true ↔ x ∈ S

/-- In every state of the run the ring represents the set, and every call answers for it. -/
def Faithful : ConsistentHash → Finset Bytes → List RingOp → Prop
  | r, S, [] => Represents r S
  | r, S, op :: ops => Represents r S ∧ Answers r S op ∧ Faithful (r.apply op) (op.onSet S) ops

/-- No other member of `S` occupies the position of `x`. -/
def PositionFree (S : Finset Bytes) (x : Bytes) : Prop :=
  ∀ y ∈ S, y ≠ x → hashKey y ≠ hashKey x

/-- No operation names an address that shares its position with another member at that time, and
the members never outgrow the range of an `int`. -/
def CollisionFree : Finset Bytes → List RingOp → Prop
  | S, [] => S.card < 2 ^ 31
  | S, op :: ops =>
      S.card < 2 ^ 31 ∧ PositionFree S op.address ∧ CollisionFree (op.onSet S) ops

/-! ## One operation -/

/-- The members of the ring are exactly `S`. -/
def Holds (r : ConsistentHash) (S : Finset Bytes) : Prop :=
  ∀ a, a ∈ r.getAllNodes ↔ a ∈ S

theorem holds_empty : Holds ConsistentHash.empty ∅ := by
  intro a
  simp [ConsistentHash.getAllNodes, ConsistentHash.empty, SortedMap.empty]

theorem length_getAllNodes {r : ConsistentHash} {S : Finset Bytes} (h : Holds r S) :
    r.getAllNodes.length = S.card := by
  rw [← List.toFinset_card_of_nodup r.getAllNodes_nodup]
  congr 1
  ext a
  simpa using h a

theorem represents_iff {r : ConsistentHash} {S : Finset Bytes} (h : Holds r S) :
    Represents r S ↔ S.card < 2 ^ 31 := by
  have hcount : r.getNodeCount = toInt32 S.card := by
    rw [← length_getAllNodes h]
    simp [getNodeCount, getAllNodes]
  constructor
  · rintro ⟨_, _, hcard⟩
    rw [hcount] at hcard
    have := (toInt32_range S.card).2
    omega
  · intro hcard
    refine ⟨r.getAllNodes_nodup, h, ?_⟩
    rw [hcount]
    exact toInt32_of_range (by omega) (by omega)

/-- An operation keeps the ring equal to the set when its position is free. -/
theorem holds_apply {r : ConsistentHash} {S : Finset Bytes} {op : RingOp} (h : Holds r S)
    (hfree : PositionFree S op.address) : Holds (r.apply op) (op.onSet S) := by
  intro a
  cases op with
  | addNode x =>
      simp only [ConsistentHash.apply, RingOp.onSet, mem_getAllNodes_addNode, Finset.mem_insert,
        h a]
      constructor
      · rintro (rfl | ⟨ha, _⟩)
        · exact Or.inl rfl
        · exact Or.inr ha
      · rintro (rfl | ha)
        · exact Or.inl rfl
        · by_cases hax : a = x
          · exact Or.inl hax
          · exact Or.inr ⟨ha, hfree a ha hax⟩
  | removeNode x =>
      simp only [ConsistentHash.apply, RingOp.onSet, mem_getAllNodes_removeNode, Finset.mem_erase,
        h a]
      constructor
      · rintro ⟨ha, hkey⟩
        exact ⟨fun hax => hkey (hax ▸ rfl), ha⟩
      · rintro ⟨hax, ha⟩
        exact ⟨ha, hfree a ha hax⟩
  | hasNode x => exact h a

theorem answers_of_free {r : ConsistentHash} {S : Finset Bytes} {op : RingOp} (h : Holds r S)
    (hfree : PositionFree S op.address) : Answers r S op := by
  cases op with
  | addNode x => trivial
  | removeNode x =>
      intro a ha hax
      exact mem_getAllNodes_removeNode.2 ⟨ha, hfree a ((h a).1 ha) hax⟩
  | hasNode x =>
      refine hasNode_iff.trans ⟨?_, ?_⟩
      · rintro ⟨a, ha, hkey⟩
        by_cases hax : a = x
        · exact hax ▸ (h a).1 ha
        · exact absurd hkey (hfree a ((h a).1 ha) hax)
      · intro hx
        exact ⟨x, (h x).2 hx, rfl⟩

/-- A collision shows: the ring loses the other address, removes it, or answers for it. -/
theorem free_of_faithful {r : ConsistentHash} {S : Finset Bytes} {op : RingOp} (h : Holds r S)
    (hanswers : Answers r S op) (hnext : Holds (r.apply op) (op.onSet S)) :
    PositionFree S op.address := by
  intro y hy hyx hkey
  cases op with
  | addNode x =>
      have hmem := (hnext y).2 (Finset.mem_insert_of_mem hy)
      rcases mem_getAllNodes_addNode.1 hmem with rfl | ⟨_, hne⟩
      · exact hyx rfl
      · exact hne hkey
  | removeNode x =>
      have hmem := hanswers y ((h y).2 hy) hyx
      exact (mem_getAllNodes_removeNode.1 hmem).2 hkey
  | hasNode x =>
      have hx : x ∈ S := hanswers.1 (hasNode_iff.2 ⟨y, (h y).2 hy, hkey⟩)
      have hxring := mem_getAllNodes.1 ((h x).2 hx)
      have hyring := mem_getAllNodes.1 ((h y).2 hy)
      have heq := SortedMap.eq_of_mem_of_key_eq hyring hxring hkey
      exact hyx (congrArg Prod.snd heq)

/-! ## Runs -/

theorem holds_of_faithful {r : ConsistentHash} {S : Finset Bytes} :
    ∀ {ops : List RingOp}, Faithful r S ops → Holds r S
  | [], h => h.2.1
  | _ :: _, h => h.1.2.1

theorem faithful_iff_of_holds {ops : List RingOp} :
    ∀ {r : ConsistentHash} {S : Finset Bytes}, Holds r S →
      (Faithful r S ops ↔ CollisionFree S ops) := by
  induction ops with
  | nil =>
      intro r S h
      exact represents_iff h
  | cons op ops ih =>
      intro r S h
      constructor
      · rintro ⟨hrep, hanswers, hrest⟩
        have hnext := holds_of_faithful hrest
        exact ⟨(represents_iff h).1 hrep, free_of_faithful h hanswers hnext, (ih hnext).1 hrest⟩
      · rintro ⟨hcard, hfree, hrest⟩
        exact ⟨(represents_iff h).2 hcard, answers_of_free h hfree,
          (ih (holds_apply h hfree)).2 hrest⟩

/-- Runs from the empty ring. -/
theorem faithful_iff (ops : List RingOp) :
    Faithful ConsistentHash.empty ∅ ops ↔ CollisionFree ∅ ops :=
  faithful_iff_of_holds holds_empty

/-! ## The order of additions -/

theorem build_append (l : List Bytes) (x : Bytes) : build (l ++ [x]) = (build l).addNode x := by
  simp [build]

theorem mem_build_of_free {S : Finset Bytes} (hfree : ∀ x ∈ S, PositionFree S x) {l : List Bytes}
    (hl : ∀ a ∈ l, a ∈ S) : ∀ a, a ∈ (build l).getAllNodes ↔ a ∈ l := by
  induction l using List.reverseRecOn with
  | nil =>
      intro a
      simpa [build] using holds_empty a
  | append_singleton l x ih =>
      intro a
      have hl' : ∀ a ∈ l, a ∈ S := fun b hb => hl b (by simp [hb])
      rw [build_append, mem_getAllNodes_addNode, ih hl' a, List.mem_append, List.mem_singleton]
      constructor
      · rintro (rfl | ⟨ha, _⟩)
        · exact Or.inr rfl
        · exact Or.inl ha
      · rintro (ha | rfl)
        · by_cases hax : a = x
          · exact Or.inl hax
          · exact Or.inr ⟨ha, hfree x (hl x (by simp)) a (hl' a ha) hax⟩
        · exact Or.inl rfl

/-- The last address added at a position is the one the ring holds there. -/
theorem mem_build_append_pair {l : List Bytes} {x y : Bytes} (hxy : x ≠ y)
    (hkey : hashKey x = hashKey y) :
    y ∈ (build (l ++ [x, y])).getAllNodes ∧ x ∉ (build (l ++ [x, y])).getAllNodes := by
  have hbuild : build (l ++ [x, y]) = ((build l).addNode x).addNode y := by
    simp [build]
  rw [hbuild]
  refine ⟨mem_getAllNodes_addNode.2 (Or.inl rfl), ?_⟩
  intro hx
  rcases mem_getAllNodes_addNode.1 hx with h | ⟨_, hne⟩
  · exact hxy h
  · exact hne hkey

theorem getNodesForKey_all (r : ConsistentHash) (key a : Bytes) :
    a ∈ r.getNodesForKey key r.getAllNodes.length ↔ a ∈ r.getAllNodes := by
  have hlen : (r.walk (hashKey key)).length ≤ ((r.getAllNodes.length : Nat) : Int).toNat := by
    rw [Int.toNat_natCast, walk, List.length_map, getAllNodes, List.length_map]
    exact le_of_eq (List.Perm.length_eq ((List.perm_ext_iff_of_nodup
      (r.ring.walkFrom_nodup _) r.ring.entries_nodup).2 fun e => SortedMap.mem_walkFrom))
  rw [getNodesForKey_eq, List.take_of_length_le hlen, mem_walk]

/-- The replica lists do not depend on the order of additions exactly when no two members of the
set collide. -/
theorem order_irrelevant_iff (S : Finset Bytes) :
    (∀ l₁ l₂ : List Bytes, l₁.toFinset = S → l₂.toFinset = S → ∀ key k,
      (build l₁).getNodesForKey key k = (build l₂).getNodesForKey key k) ↔
    ∀ x ∈ S, PositionFree S x := by
  constructor
  · intro hsame x hx y hy hyx hkey
    have hpair : ∀ u v : Bytes, u ∈ S → v ∈ S →
        (((S.erase u).erase v).toList ++ [u, v]).toFinset = S := by
      intro u v hu hv
      ext a
      simp only [List.mem_toFinset, List.mem_append, Finset.mem_toList, Finset.mem_erase,
        List.mem_cons, List.not_mem_nil, or_false]
      constructor
      · rintro (⟨_, _, ha⟩ | rfl | rfl) <;> assumption
      · intro ha
        by_cases hau : a = u
        · exact Or.inr (Or.inl hau)
        · by_cases hav : a = v
          · exact Or.inr (Or.inr hav)
          · exact Or.inl ⟨hav, hau, ha⟩
    have hxlast := mem_build_append_pair (l := ((S.erase y).erase x).toList) hyx hkey
    have hylast := mem_build_append_pair (l := ((S.erase x).erase y).toList) (Ne.symm hyx)
      hkey.symm
    have hlists := hsame _ _ (hpair y x hy hx) (hpair x y hx hy) []
      (build (((S.erase y).erase x).toList ++ [y, x])).getAllNodes.length
    have hxin := (getNodesForKey_all _ [] x).2 hxlast.1
    rw [hlists] at hxin
    exact hylast.2 (mem_getAllNodes_of_mem_getNodesForKey hxin)
  · intro hfree l₁ l₂ h₁ h₂ key k
    have hrings : build l₁ = build l₂ := by
      apply ConsistentHash.ext_mem
      intro a
      rw [mem_build_of_free hfree (fun b hb => h₁ ▸ List.mem_toFinset.2 hb),
        mem_build_of_free hfree (fun b hb => h₂ ▸ List.mem_toFinset.2 hb),
        ← List.mem_toFinset, h₁, ← h₂, List.mem_toFinset]
    rw [hrings]

/-! ## The ring and the set -/

/-- A run of calls keeps the ring equal to the set of addresses added and not removed since
exactly when no call collides, and the placement of keys is independent of the order in which a
set of nodes was added exactly when no two of them collide. -/
theorem ring_represents_set_iff (ops : List RingOp) (S : Finset Bytes) :
    (Faithful ConsistentHash.empty ∅ ops ↔ CollisionFree ∅ ops) ∧
    ((∀ l₁ l₂ : List Bytes, l₁.toFinset = S → l₂.toFinset = S → ∀ key k,
        (build l₁).getNodesForKey key k = (build l₂).getNodesForKey key k) ↔
      ∀ x ∈ S, PositionFree S x) :=
  ⟨faithful_iff ops, order_irrelevant_iff S⟩

/-- Two loopback ports at one position: the second address replaces the first, `hasNode` still
answers for the first, and removing the first takes the second away. -/
theorem loopback_ports_collide :
    let first := Bytes.ascii "127.0.0.1:10"
    let second := Bytes.ascii "127.0.0.1:6533"
    let r := (ConsistentHash.empty.addNode first).addNode second
    r.getAllNodes = [second] ∧ r.hasNode first = true ∧ (r.removeNode first).getAllNodes = [] ∧
      (build [first, second]).getNodesForKey [] 2 ≠ (build [second, first]).getNodesForKey [] 2 ∧
      ¬ Faithful ConsistentHash.empty ∅ [.addNode first, .addNode second] := by
  refine ⟨by decide +kernel, by decide +kernel, by decide +kernel, by decide +kernel, ?_⟩
  intro h
  have hcard := h.2.2.2.2.2.2
  revert hcard
  decide +kernel

end Dht
end Dfs
