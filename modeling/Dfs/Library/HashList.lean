import Mathlib.Data.List.Forall2

/-!
# Hash lists

A list of pieces is hashed piece by piece and the digests, concatenated without separators, are
hashed again.  Digests of one width make the concatenation unambiguous, so the root determines the
pieces, short of a collision at one of the two levels.
-/

namespace HashList

variable {α : Type} {H : List α → List α} {n : Nat}

/-- Two different strings with the same digest. -/
structure Collides (H : List α → List α) (x y : List α) : Prop where
  ne : x ≠ y
  same : H x = H y

/-- The concatenated digests of the pieces. -/
def digests (H : List α → List α) (pieces : List (List α)) : List α :=
  (pieces.map H).flatten

def root (H : List α → List α) (pieces : List (List α)) : List α :=
  H (digests H pieces)

/-- Words of one positive width can be read back from their concatenation. -/
theorem flatten_injective (hn : 0 < n) {l l' : List (List α)} (hl : ∀ x ∈ l, x.length = n)
    (hl' : ∀ x ∈ l', x.length = n) (h : l.flatten = l'.flatten) : l = l' := by
  induction l generalizing l' with
  | nil =>
      cases l' with
      | nil => rfl
      | cons y l' =>
          -- The first word of the other list would have to be empty.
          have hy : y.length = n := hl' y (by simp)
          have hnil : y = [] := by
            simp only [List.flatten_nil, List.flatten_cons, List.nil_eq, List.append_eq_nil_iff] at h
            exact h.1
          simp [hnil] at hy
          omega
  | cons x l ih =>
      have hx : x.length = n := hl x (by simp)
      cases l' with
      | nil =>
          have hnil : x = [] := by
            simp only [List.flatten_nil, List.flatten_cons, List.append_eq_nil_iff] at h
            exact h.1
          simp [hnil] at hx
          omega
      | cons y l' =>
          have hy : y.length = n := hl' y (by simp)
          simp only [List.flatten_cons] at h
          have hsplit := List.append_inj h (hx.trans hy.symm)
          have htail : l = l' :=
            ih (fun z hz => hl z (by simp [hz])) (fun z hz => hl' z (by simp [hz])) hsplit.2
          rw [hsplit.1, htail]

/-- Pieces with the same digests are the same, or two of them collide. -/
theorem pieces_of_map {pieces pieces' : List (List α)} (h : pieces.map H = pieces'.map H) :
    pieces = pieces' ∨ ∃ x ∈ pieces, ∃ y ∈ pieces', Collides H x y := by
  induction pieces generalizing pieces' with
  | nil =>
      left
      simpa using h
  | cons x pieces ih =>
      cases pieces' with
      | nil => simp at h
      | cons y pieces' =>
          simp only [List.map_cons, List.cons.injEq] at h
          by_cases hxy : x = y
          · rcases ih h.2 with heq | ⟨u, hu, v, hv, huv⟩
            · left
              rw [hxy, heq]
            · exact Or.inr ⟨u, by simp [hu], v, by simp [hv], huv⟩
          · exact Or.inr ⟨x, by simp, y, by simp, hxy, h.1⟩

/-- The root determines the pieces, or exhibits a collision. -/
theorem pieces_of_root (hn : 0 < n) (hwidth : ∀ x, (H x).length = n)
    {pieces pieces' : List (List α)} (h : root H pieces = root H pieces') :
    pieces = pieces' ∨ Collides H (digests H pieces) (digests H pieces') ∨
      ∃ x ∈ pieces, ∃ y ∈ pieces', Collides H x y := by
  by_cases hdigests : digests H pieces = digests H pieces'
  · have hmem : ∀ {l : List (List α)}, ∀ x ∈ l.map H, x.length = n := by
      intro l x hx
      rcases List.mem_map.1 hx with ⟨y, _, rfl⟩
      exact hwidth y
    have hmap : pieces.map H = pieces'.map H := flatten_injective hn hmem hmem hdigests
    exact (pieces_of_map hmap).imp_right Or.inr
  · exact Or.inr (Or.inl ⟨hdigests, h⟩)

end HashList
