import Dfs.Library.SortedMap

/-!
# The consistent-hash ring

`ConsistentHash` of the source: node addresses on a ring of 32-bit positions, an ordered map from
the position `hashKey address` to the address.  Every entry sits at the position of its own
address; the constructor and the two mutators establish and keep that, so it is a field.

The main lemma of the file is `getNodesForKey_eq`: the index loop of the source returns the first
`k` addresses of the wrapped walk from the position of the key.
-/

namespace Dfs
namespace Dht

/-- One step of the polynomial hash; the signed accumulation wraps modulo `2 ^ 32`. -/
def hashStep (h : Int) (c : UInt8) : Int :=
  toInt32 (31 * h + c.toNat)

def hashKey (key : Bytes) : Int :=
  key.foldl hashStep 0

structure ConsistentHash where
  ring : SortedMap Int Bytes
  placed : ∀ e ∈ ring.entries, e.1 = hashKey e.2

namespace ConsistentHash

/-- The ring of a default-constructed object. -/
def empty : ConsistentHash :=
  { ring := SortedMap.empty
    placed := by
      intro e he
      exact absurd he SortedMap.mem_empty }

def addNode (r : ConsistentHash) (nodeAddress : Bytes) : ConsistentHash :=
  { ring := r.ring.insert (hashKey nodeAddress) nodeAddress
    placed := by
      intro e he
      rcases SortedMap.mem_insert.1 he with rfl | ⟨he, _⟩
      · rfl
      · exact r.placed e he }

def removeNode (r : ConsistentHash) (nodeAddress : Bytes) : ConsistentHash :=
  { ring := r.ring.erase (hashKey nodeAddress)
    placed := by
      intro e he
      exact r.placed e (SortedMap.mem_erase.1 he).1 }

def getNodeForKey (r : ConsistentHash) (key : Bytes) : Bytes :=
  match (r.ring.lowerBound (hashKey key)).or r.ring.entries.head? with
  | none => []
  | some it => it.2

/-- `ring_.at(keys[idx])`; the walk only asks for positions it has read from the ring. -/
def ringAt (r : ConsistentHash) (keys : List Int) (idx : Nat) : Bytes :=
  (r.ring.find? (keys.getD idx 0)).getD []

/-- The loop of `getNodesForKey` from index `i` on, with `fuel` iterations left. -/
def collectNodes (r : ConsistentHash) (keys : List Int) (startIndex : Nat) (k : Int) :
    Nat → Nat → List Bytes → List Bytes
  | 0, _, nodes => nodes
  | fuel + 1, i, nodes =>
      if (nodes.length : Int) < k then
        let node := r.ringAt keys ((startIndex + i) % keys.length)
        collectNodes r keys startIndex k fuel (i + 1)
          (if node ∈ nodes then nodes else nodes ++ [node])
      else nodes

def getNodesForKey (r : ConsistentHash) (key : Bytes) (k : Int) : List Bytes :=
  match (r.ring.lowerBound (hashKey key)).or r.ring.entries.head? with
  | none => []
  | some it =>
      let keys := r.ring.entries.map Prod.fst
      let startIndex := keys.findIdx (· = it.1)
      r.collectNodes keys startIndex k keys.length 0 []

def getAllNodes (r : ConsistentHash) : List Bytes :=
  r.ring.entries.map Prod.snd

/-- `static_cast<int>(ring_.size())`. -/
def getNodeCount (r : ConsistentHash) : Int :=
  toInt32 r.ring.entries.length

def hasNode (r : ConsistentHash) (nodeAddress : Bytes) : Bool :=
  (r.ring.find? (hashKey nodeAddress)).isSome

/-! ## Addresses and positions -/

theorem entry_eq_of_address_eq {r : ConsistentHash} {a b : Int × Bytes}
    (ha : a ∈ r.ring.entries) (hb : b ∈ r.ring.entries) (h : a.2 = b.2) : a = b :=
  SortedMap.eq_of_mem_of_key_eq ha hb (by rw [r.placed a ha, r.placed b hb, h])

theorem mem_getAllNodes {r : ConsistentHash} {a : Bytes} :
    a ∈ r.getAllNodes ↔ (hashKey a, a) ∈ r.ring.entries := by
  unfold getAllNodes
  constructor
  · intro h
    rcases List.mem_map.1 h with ⟨e, he, rfl⟩
    have hpos : e = (hashKey e.2, e.2) := Prod.ext (r.placed e he) rfl
    exact hpos ▸ he
  · intro h
    exact List.mem_map.2 ⟨_, h, rfl⟩

theorem getAllNodes_nodup (r : ConsistentHash) : r.getAllNodes.Nodup := by
  refine (List.nodup_map_iff_inj_on r.ring.entries_nodup).2 ?_
  intro a ha b hb hab
  exact entry_eq_of_address_eq ha hb hab

/-- Two rings that hold the same addresses are the same ring. -/
theorem ext_mem {r r' : ConsistentHash} (h : ∀ a, a ∈ r.getAllNodes ↔ a ∈ r'.getAllNodes) :
    r = r' := by
  have hring : r.ring = r'.ring := by
    apply SortedMap.ext_mem
    have hsub : ∀ {q q' : ConsistentHash}, (∀ a, a ∈ q.getAllNodes ↔ a ∈ q'.getAllNodes) →
        ∀ e, e ∈ q.ring.entries → e ∈ q'.ring.entries := by
      intro q q' hq e he
      have hpos : (hashKey e.2, e.2) = e := Prod.ext (q.placed e he).symm rfl
      have := mem_getAllNodes.1 ((hq e.2).1 (List.mem_map.2 ⟨e, he, rfl⟩))
      rwa [hpos] at this
    intro e
    exact ⟨hsub h e, hsub (fun a => (h a).symm) e⟩
  cases r
  cases r'
  simp_all

theorem mem_getAllNodes_addNode {r : ConsistentHash} {x a : Bytes} :
    a ∈ (r.addNode x).getAllNodes ↔ a = x ∨ (a ∈ r.getAllNodes ∧ hashKey a ≠ hashKey x) := by
  rw [mem_getAllNodes, mem_getAllNodes]
  simp only [addNode, SortedMap.mem_insert, Prod.mk.injEq]
  constructor
  · rintro (⟨_, rfl⟩ | h)
    · exact Or.inl rfl
    · exact Or.inr h
  · rintro (rfl | h)
    · exact Or.inl ⟨rfl, rfl⟩
    · exact Or.inr h

theorem mem_getAllNodes_removeNode {r : ConsistentHash} {x a : Bytes} :
    a ∈ (r.removeNode x).getAllNodes ↔ a ∈ r.getAllNodes ∧ hashKey a ≠ hashKey x := by
  rw [mem_getAllNodes, mem_getAllNodes]
  simp [removeNode]

theorem hasNode_iff {r : ConsistentHash} {x : Bytes} :
    r.hasNode x = true ↔ ∃ a ∈ r.getAllNodes, hashKey a = hashKey x := by
  unfold hasNode
  rw [Option.isSome_iff_exists]
  constructor
  · rintro ⟨a, ha⟩
    have hmem := SortedMap.find?_eq_some.1 ha
    exact ⟨a, List.mem_map.2 ⟨_, hmem, rfl⟩, (r.placed _ hmem).symm⟩
  · rintro ⟨a, ha, hkey⟩
    exact ⟨a, SortedMap.find?_eq_some.2 (hkey ▸ mem_getAllNodes.1 ha)⟩

/-! ## The walk -/

/-- The addresses in the order of the wrapped walk from a position. -/
def walk (r : ConsistentHash) (pos : Int) : List Bytes :=
  (r.ring.walkFrom pos).map Prod.snd

theorem mem_walk {r : ConsistentHash} {pos : Int} {a : Bytes} :
    a ∈ r.walk pos ↔ a ∈ r.getAllNodes := by
  simp [walk, getAllNodes]

theorem walk_nodup (r : ConsistentHash) (pos : Int) : (r.walk pos).Nodup := by
  refine (List.nodup_map_iff_inj_on (r.ring.walkFrom_nodup pos)).2 ?_
  intro a ha b hb hab
  exact entry_eq_of_address_eq (SortedMap.mem_walkFrom.1 ha) (SortedMap.mem_walkFrom.1 hb) hab

theorem getNodeForKey_eq (r : ConsistentHash) (key : Bytes) :
    r.getNodeForKey key = (r.walk (hashKey key)).head?.getD [] := by
  unfold getNodeForKey walk
  rw [List.head?_map, SortedMap.head?_walkFrom]
  cases (r.ring.lowerBound (hashKey key)).or r.ring.entries.head? <;> rfl

/-- The index of the first visited position is the number of positions below the key's, or `0`
when the walk wraps at once; the same rotation either way. -/
theorem rotate_startIndex {r : ConsistentHash} {pos : Int} {it : Int × Bytes}
    (hit : (r.ring.lowerBound pos).or r.ring.entries.head? = some it) :
    r.ring.entries.rotate ((r.ring.entries.map Prod.fst).findIdx (· = it.1)) =
      r.ring.walkFrom pos := by
  have hsplit := r.ring.filter_lt_append_filter_le pos
  have hhead := r.ring.head?_walkFrom pos
  rw [hit] at hhead
  have hsorted := r.ring.sorted
  unfold SortedMap.walkFrom at hhead ⊢
  generalize hlow : r.ring.entries.filter (fun e => e.1 < pos) = low at hsplit hhead ⊢
  generalize hhigh : r.ring.entries.filter (fun e => pos ≤ e.1) = high at hsplit hhead ⊢
  rw [← hsplit] at hsorted ⊢
  cases high with
  | nil =>
      cases low with
      | nil => simp at hhead
      | cons e low =>
          simp only [List.nil_append, List.head?_cons, Option.some.injEq] at hhead
          simp [hhead, List.findIdx_cons]
  | cons e high =>
      simp only [List.cons_append, List.head?_cons, Option.some.injEq] at hhead
      subst hhead
      have hbelow : ∀ a ∈ low, ¬ a.1 = e.1 := by
        intro a ha
        exact ne_of_lt ((List.pairwise_append.1 hsorted).2.2 a ha e (by simp))
      have hidx : ((low ++ e :: high).map Prod.fst).findIdx (· = e.1) = low.length := by
        rw [List.map_append, List.findIdx_append]
        have hnone : (low.map Prod.fst).findIdx (· = e.1) = (low.map Prod.fst).length := by
          refine List.findIdx_eq_length.2 ?_
          intro x hx
          rcases List.mem_map.1 hx with ⟨a, ha, rfl⟩
          simpa using hbelow a ha
        simp [hnone, List.findIdx_cons]
      rw [hidx, List.rotate_append_length_eq]

theorem ringAt_walk {r : ConsistentHash} {pos : Int} {startIndex i : Nat}
    (hstart : r.ring.entries.rotate startIndex = r.ring.walkFrom pos)
    (hi : i < (r.walk pos).length) :
    r.ringAt (r.ring.entries.map Prod.fst)
      ((startIndex + i) % (r.ring.entries.map Prod.fst).length) = (r.walk pos)[i] := by
  have hi' : i < (r.ring.entries.rotate startIndex).length := by
    simpa [hstart, walk] using hi
  have hlen : i < r.ring.entries.length := by simpa using hi'
  have hidx : (startIndex + i) % r.ring.entries.length < r.ring.entries.length :=
    Nat.mod_lt _ (by omega)
  have hget : (r.ring.entries.rotate startIndex)[i] =
      r.ring.entries[(startIndex + i) % r.ring.entries.length] := by
    rw [List.getElem_rotate]
    congr 1
    rw [Nat.add_comm]
  have hmem := List.getElem_mem hidx
  have hfind := SortedMap.find?_eq_some.2
    (show (r.ring.entries[(startIndex + i) % r.ring.entries.length].1,
      r.ring.entries[(startIndex + i) % r.ring.entries.length].2) ∈ r.ring.entries from hmem)
  have hwalk : (r.walk pos)[i] =
      (r.ring.entries[(startIndex + i) % r.ring.entries.length]).2 := by
    rw [← hget]
    simp [walk, hstart]
  rw [hwalk]
  simp [ringAt, List.getElem?_eq_getElem hidx, hfind]

/-- After `i` iterations the loop holds the first `i` addresses of the walk; it stops at `k`. -/
theorem collectNodes_eq {r : ConsistentHash} {pos : Int} {startIndex : Nat} {k : Int}
    (hstart : r.ring.entries.rotate startIndex = r.ring.walkFrom pos) :
    ∀ fuel i : Nat, i + fuel = (r.walk pos).length → i ≤ k.toNat →
      r.collectNodes (r.ring.entries.map Prod.fst) startIndex k fuel i ((r.walk pos).take i) =
        (r.walk pos).take k.toNat := by
  intro fuel
  induction fuel with
  | zero =>
      intro i hi hk
      have hfull : (r.walk pos).length ≤ k.toNat := by omega
      rw [collectNodes, List.take_of_length_le hfull, List.take_of_length_le (by omega)]
  | succ fuel ih =>
      intro i hi hk
      have hilt : i < (r.walk pos).length := by omega
      have htake : ((r.walk pos).take i).length = i := by
        rw [List.length_take]
        omega
      rw [collectNodes, htake]
      split
      · rename_i hlt
        have hfresh : (r.walk pos)[i] ∉ (r.walk pos).take i := by
          intro hmem
          rcases List.mem_take_iff_getElem.1 hmem with ⟨j, hj, hjeq⟩
          have := (r.walk_nodup pos).getElem_inj_iff.1 hjeq
          omega
        have hnext : (r.walk pos).take i ++ [(r.walk pos)[i]] = (r.walk pos).take (i + 1) := by
          rw [List.take_succ_eq_append_getElem hilt]
        simp only [ringAt_walk hstart hilt, if_neg hfresh, hnext]
        exact ih (i + 1) (by omega) (by omega)
      · rename_i hge
        have hik : i = k.toNat := by omega
        rw [hik]

/-- The replica list of a key: the first `k` addresses of the walk from its position. -/
theorem getNodesForKey_eq (r : ConsistentHash) (key : Bytes) (k : Int) :
    r.getNodesForKey key k = (r.walk (hashKey key)).take k.toNat := by
  unfold getNodesForKey
  cases hit : (r.ring.lowerBound (hashKey key)).or r.ring.entries.head? with
  | none =>
      have hhead := r.ring.head?_walkFrom (hashKey key)
      rw [hit, List.head?_eq_none_iff] at hhead
      simp [walk, hhead]
  | some it =>
      have hstart := rotate_startIndex hit
      have hlen : 0 + (r.ring.entries.map Prod.fst).length = (r.walk (hashKey key)).length := by
        rw [walk, List.length_map, ← hstart]
        simp
      exact collectNodes_eq hstart _ 0 hlen (Nat.zero_le _)

theorem mem_getAllNodes_of_mem_getNodesForKey {r : ConsistentHash} {key a : Bytes} {k : Int}
    (h : a ∈ r.getNodesForKey key k) : a ∈ r.getAllNodes := by
  rw [getNodesForKey_eq] at h
  exact mem_walk.1 (List.mem_of_mem_take h)

theorem getNodesForKey_nodup (r : ConsistentHash) (key : Bytes) (k : Int) :
    (r.getNodesForKey key k).Nodup := by
  rw [getNodesForKey_eq]
  exact (r.walk_nodup _).sublist (List.take_sublist _ _)

theorem getNodesForKey_single {r : ConsistentHash} {a : Bytes} (h : r.getAllNodes = [a])
    (key : Bytes) : r.getNodesForKey key 2 = [a] := by
  have hnodes : r.ring.entries.map Prod.snd = [a] := h
  rw [getNodesForKey_eq, walk, SortedMap.walkFrom_eq_rotate, List.map_rotate, hnodes,
    List.rotate_singleton]
  rfl

end ConsistentHash
end Dht
end Dfs
