import Dfs.Library.Bytes

/-!
# Ordered maps

A finite map whose entries are kept in strictly increasing key order, as `std::map` keeps and
iterates them.  The order is a field of the structure, so that no map out of order can be built;
two maps with the same entries are equal.
-/

/-- A map iterated in increasing key order. -/
structure SortedMap (κ α : Type) [LinearOrder κ] where
  entries : List (κ × α)
  sorted : entries.Pairwise fun a b => a.1 < b.1

namespace SortedMap

variable {κ α : Type} [LinearOrder κ]

def empty : SortedMap κ α :=
  { entries := []
    sorted := List.Pairwise.nil }

/-- `m[k] = v`. -/
def insert (m : SortedMap κ α) (k : κ) (v : α) : SortedMap κ α :=
  { entries := m.entries.filter (fun e => e.1 < k) ++ (k, v) :: m.entries.filter (fun e => k < e.1)
    sorted := by
      refine List.pairwise_append.2 ⟨m.sorted.filter _, ?_, ?_⟩
      · refine List.pairwise_cons.2 ⟨?_, m.sorted.filter _⟩
        intro e he
        simpa using (List.mem_filter.1 he).2
      · intro a ha b hb
        have hak : a.1 < k := by simpa using (List.mem_filter.1 ha).2
        rcases List.mem_cons.1 hb with rfl | hb
        · exact hak
        · have hkb : k < b.1 := by simpa using (List.mem_filter.1 hb).2
          exact hak.trans hkb }

/-- `m.erase(k)`. -/
def erase (m : SortedMap κ α) (k : κ) : SortedMap κ α :=
  { entries := m.entries.filter (fun e => e.1 ≠ k)
    sorted := m.sorted.filter _ }

/-- `m.find(k)`. -/
def find? (m : SortedMap κ α) (k : κ) : Option α :=
  (m.entries.find? fun e => e.1 = k).map Prod.snd

/-- `m.lower_bound(k)`: the first entry at or after `k`; `none` is `end()`. -/
def lowerBound (m : SortedMap κ α) (k : κ) : Option (κ × α) :=
  m.entries.find? fun e => k ≤ e.1

/-- The entries in the order of a walk that starts at the first key at or after `k` and wraps
around once. -/
def walkFrom (m : SortedMap κ α) (k : κ) : List (κ × α) :=
  m.entries.filter (fun e => k ≤ e.1) ++ m.entries.filter (fun e => e.1 < k)

/-! ## Membership -/

theorem ext_entries {m m' : SortedMap κ α} (h : m.entries = m'.entries) : m = m' := by
  cases m
  cases m'
  simp_all

theorem keys_nodup (m : SortedMap κ α) : (m.entries.map Prod.fst).Nodup := by
  refine List.pairwise_map.2 (m.sorted.imp ?_)
  intro a b hab
  exact ne_of_lt hab

theorem eq_of_mem_of_key_eq {m : SortedMap κ α} {a b : κ × α} (ha : a ∈ m.entries)
    (hb : b ∈ m.entries) (hkey : a.1 = b.1) : a = b :=
  List.inj_on_of_nodup_map m.keys_nodup ha hb hkey

theorem entries_nodup (m : SortedMap κ α) : m.entries.Nodup :=
  List.Nodup.of_map _ m.keys_nodup

/-- A map is determined by its set of entries. -/
theorem ext_mem {m m' : SortedMap κ α} (h : ∀ e, e ∈ m.entries ↔ e ∈ m'.entries) : m = m' := by
  apply ext_entries
  have hperm : m.entries.Perm m'.entries :=
    (List.perm_ext_iff_of_nodup m.entries_nodup m'.entries_nodup).2 h
  refine hperm.eq_of_pairwise ?_ m.sorted m'.sorted
  intro a b _ _ hab hba
  exact absurd (hab.trans hba) (lt_irrefl _)

@[simp] theorem mem_empty {e : κ × α} : e ∉ (empty : SortedMap κ α).entries := by
  simp [empty]

@[simp] theorem mem_insert {m : SortedMap κ α} {k : κ} {v : α} {e : κ × α} :
    e ∈ (m.insert k v).entries ↔ e = (k, v) ∨ (e ∈ m.entries ∧ e.1 ≠ k) := by
  simp only [insert, List.mem_append, List.mem_filter, List.mem_cons, decide_eq_true_eq]
  constructor
  · rintro (⟨hmem, hlt⟩ | rfl | ⟨hmem, hlt⟩)
    · exact Or.inr ⟨hmem, ne_of_lt hlt⟩
    · exact Or.inl rfl
    · exact Or.inr ⟨hmem, ne_of_gt hlt⟩
  · rintro (rfl | ⟨hmem, hne⟩)
    · exact Or.inr (Or.inl rfl)
    · rcases lt_or_gt_of_ne hne with hlt | hgt
      · exact Or.inl ⟨hmem, hlt⟩
      · exact Or.inr (Or.inr ⟨hmem, hgt⟩)

@[simp] theorem mem_erase {m : SortedMap κ α} {k : κ} {e : κ × α} :
    e ∈ (m.erase k).entries ↔ e ∈ m.entries ∧ e.1 ≠ k := by
  simp [erase]

theorem find?_eq_some {m : SortedMap κ α} {k : κ} {v : α} :
    m.find? k = some v ↔ (k, v) ∈ m.entries := by
  unfold find?
  constructor
  · intro h
    rcases Option.map_eq_some_iff.1 h with ⟨⟨k', v'⟩, hfind, rfl⟩
    have hkey : k' = k := by simpa using List.find?_some hfind
    exact hkey ▸ List.mem_of_find?_eq_some hfind
  · intro hmem
    cases hfind : m.entries.find? (fun e => e.1 = k) with
    | none =>
        have := List.find?_eq_none.1 hfind (k, v) hmem
        simp at this
    | some e =>
        have hkey : e.1 = k := by simpa using List.find?_some hfind
        have he : e = (k, v) :=
          eq_of_mem_of_key_eq (List.mem_of_find?_eq_some hfind) hmem hkey
        simp [he]

theorem find?_eq_none {m : SortedMap κ α} {k : κ} :
    m.find? k = none ↔ ∀ v, (k, v) ∉ m.entries := by
  constructor
  · intro h v hv
    rw [find?_eq_some.2 hv] at h
    cases h
  · intro h
    cases hfind : m.find? k with
    | none => rfl
    | some v => exact absurd (find?_eq_some.1 hfind) (h v)

/-! ## Sizes -/

theorem length_erase_of_mem {m : SortedMap κ α} {k : κ} {v : α} (h : (k, v) ∈ m.entries) :
    (m.erase k).entries.length + 1 = m.entries.length := by
  have hperm : m.entries.Perm ((k, v) :: (m.erase k).entries) := by
    refine (List.perm_ext_iff_of_nodup m.entries_nodup ?_).2 ?_
    · refine List.nodup_cons.2 ⟨by simp, (m.erase k).entries_nodup⟩
    · intro e
      simp only [List.mem_cons, mem_erase]
      constructor
      · intro he
        by_cases hkey : e.1 = k
        · exact Or.inl (eq_of_mem_of_key_eq he h hkey)
        · exact Or.inr ⟨he, hkey⟩
      · rintro (rfl | ⟨he, _⟩)
        · exact h
        · exact he
  simpa using hperm.length_eq.symm

/-! ## The wrapped walk -/

@[simp] theorem mem_walkFrom {m : SortedMap κ α} {k : κ} {e : κ × α} :
    e ∈ m.walkFrom k ↔ e ∈ m.entries := by
  simp only [walkFrom, List.mem_append, List.mem_filter, decide_eq_true_eq]
  constructor
  · rintro (⟨he, _⟩ | ⟨he, _⟩) <;> exact he
  · intro he
    rcases le_or_gt k e.1 with hle | hlt
    · exact Or.inl ⟨he, hle⟩
    · exact Or.inr ⟨he, hlt⟩

theorem walkFrom_nodup (m : SortedMap κ α) (k : κ) : (m.walkFrom k).Nodup := by
  refine List.nodup_append.2 ⟨m.entries_nodup.filter _, m.entries_nodup.filter _, ?_⟩
  intro a ha b hb
  rintro rfl
  have hle : k ≤ a.1 := by simpa using (List.mem_filter.1 ha).2
  have hlt : a.1 < k := by simpa using (List.mem_filter.1 hb).2
  exact absurd hlt (not_lt.2 hle)

/-- Splitting the sorted entries at `k` gives the two halves of the walk back to back. -/
theorem filter_lt_append_filter_le (m : SortedMap κ α) (k : κ) :
    m.entries.filter (fun e => e.1 < k) ++ m.entries.filter (fun e => k ≤ e.1) = m.entries := by
  have hsorted := m.sorted
  generalize m.entries = es at hsorted
  induction es with
  | nil => rfl
  | cons e es ih =>
      rcases List.pairwise_cons.1 hsorted with ⟨hhead, htail⟩
      rcases lt_or_ge e.1 k with hlt | hge
      · simpa [hlt, not_le.2 hlt] using ih htail
      · have hnone : es.filter (fun e' => e'.1 < k) = [] := by
          refine List.filter_eq_nil_iff.2 ?_
          intro e' he'
          simpa using (hge.trans (hhead e' he').le)
        have hall : es.filter (fun e' => k ≤ e'.1) = es := by
          refine List.filter_eq_self.2 ?_
          intro e' he'
          simpa using (hge.trans (hhead e' he').le)
        simp [hge, not_lt.2 hge, hnone, hall]

/-- The walk is a rotation of the entries, starting after those below `k`. -/
theorem walkFrom_eq_rotate (m : SortedMap κ α) (k : κ) :
    m.walkFrom k = m.entries.rotate (m.entries.filter (fun e => e.1 < k)).length := by
  conv_rhs => rw [← m.filter_lt_append_filter_le k]
  rw [List.filter_append, List.filter_filter, List.filter_filter, List.length_append]
  have hlow : m.entries.filter (fun e => decide (e.1 < k) && decide (e.1 < k)) =
      m.entries.filter (fun e => e.1 < k) := by simp
  have hnone : m.entries.filter (fun e => decide (e.1 < k) && decide (k ≤ e.1)) = [] := by
    refine List.filter_eq_nil_iff.2 ?_
    intro e _ h
    simp only [Bool.and_eq_true, decide_eq_true_eq] at h
    exact absurd h.1 (not_lt.2 h.2)
  rw [hlow, hnone]
  simp [walkFrom, List.rotate_append_length_eq]

theorem head?_walkFrom (m : SortedMap κ α) (k : κ) :
    (m.walkFrom k).head? = (m.lowerBound k).or m.entries.head? := by
  unfold walkFrom lowerBound
  rw [List.head?_append, List.head?_filter]
  cases hfind : m.entries.find? (fun e => decide (k ≤ e.1)) with
  | some e => simp
  | none =>
      have hall : m.entries.filter (fun e => e.1 < k) = m.entries := by
        refine List.filter_eq_self.2 ?_
        intro e he
        simpa using List.find?_eq_none.1 hfind e he
      simp [hall]

/-- The first entry of the walk has the least key at or after `k`, or the least of all when no key
comes after `k`. -/
theorem first_cases {m : SortedMap κ α} {k : κ} {e : κ × α}
    (h : (m.lowerBound k).or m.entries.head? = some e) :
    e ∈ m.entries ∧ ((k ≤ e.1 ∧ ∀ a ∈ m.entries, k ≤ a.1 → e.1 ≤ a.1) ∨
      ∀ a ∈ m.entries, a.1 < k ∧ e.1 ≤ a.1) := by
  have hmem : e ∈ m.entries := by
    rw [← head?_walkFrom] at h
    exact mem_walkFrom.1 (List.mem_of_head? h)
  refine ⟨hmem, ?_⟩
  have hsorted := m.sorted
  unfold lowerBound at h
  cases hfind : m.entries.find? (fun a => k ≤ a.1) with
  | some a =>
      rw [hfind, Option.some_or, Option.some.injEq] at h
      subst h
      rcases List.find?_eq_some_iff_append.1 hfind with ⟨hk, low, high, heq, hlow⟩
      refine Or.inl ⟨of_decide_eq_true hk, fun b hb hkb => ?_⟩
      rw [heq] at hsorted hb
      rcases List.mem_append.1 hb with hb | hb
      · have hnot := hlow b hb
        simp [hkb] at hnot
      · rcases List.mem_cons.1 hb with rfl | hb
        · exact le_refl _
        · exact ((List.pairwise_cons.1 (List.pairwise_append.1 hsorted).2.1).1 b hb).le
  | none =>
      rw [hfind, Option.none_or] at h
      refine Or.inr fun b hb => ⟨?_, ?_⟩
      · simpa using List.find?_eq_none.1 hfind b hb
      · cases hentries : m.entries with
        | nil => simp [hentries] at h
        | cons a rest =>
            rw [hentries, List.head?_cons, Option.some.injEq] at h
            subst h
            rw [hentries] at hsorted hb
            rcases List.mem_cons.1 hb with rfl | hb
            · exact le_refl _
            · exact ((List.pairwise_cons.1 hsorted).1 b hb).le

/-- The entries that pass a test, as a map. -/
def filter (m : SortedMap κ α) (p : κ × α → Bool) : SortedMap κ α :=
  { entries := m.entries.filter p
    sorted := m.sorted.filter p }

@[simp] theorem mem_filter {m : SortedMap κ α} {p : κ × α → Bool} {e : κ × α} :
    e ∈ (m.filter p).entries ↔ e ∈ m.entries ∧ p e = true :=
  List.mem_filter

theorem walkFrom_filter (m : SortedMap κ α) (p : κ × α → Bool) (k : κ) :
    (m.filter p).walkFrom k = (m.walkFrom k).filter p := by
  simp only [walkFrom, filter, List.filter_append, List.filter_filter]
  congr 2 <;> · funext e; rw [Bool.and_comm]

/-- Taking one key out of the map takes its entry out of every walk. -/
theorem walkFrom_erase (m : SortedMap κ α) (k x : κ) :
    (m.erase x).walkFrom k = (m.walkFrom k).filter fun e => e.1 ≠ x := by
  simp only [walkFrom, erase, List.filter_append, List.filter_filter]
  congr 2 <;> · funext e; rw [Bool.and_comm]

/-- A new key adds its entry to every walk and moves no other. -/
theorem walkFrom_insert_filter (m : SortedMap κ α) (k x : κ) (v : α) :
    ((m.insert x v).walkFrom k).filter (fun e => e.1 ≠ x) =
      (m.walkFrom k).filter fun e => e.1 ≠ x := by
  have hsame : (m.insert x v).erase x = m.erase x := by
    apply ext_mem
    intro e
    simp only [mem_erase, mem_insert]
    constructor
    · rintro ⟨rfl | ⟨he, _⟩, hne⟩
      · exact absurd rfl hne
      · exact ⟨he, hne⟩
    · rintro ⟨he, hne⟩
      exact ⟨Or.inr ⟨he, hne⟩, hne⟩
  rw [← walkFrom_erase, ← walkFrom_erase, hsame]

end SortedMap
