import Dfs.Library.Bytes

/-!
# Text extraction

The formatted input operators of a C++ input stream on the bytes that are left in it
(`operator>>` into a string and into an integer, `std::getline` with a separator), and the
decimal rendering of `std::to_string`.  Each reader returns the value and the rest of the
stream, or `none` where the stream enters its failed state.
-/

namespace TextScan

/-! ## Character classes -/

/-- `isspace` in the "C" locale. -/
def isSpace (b : UInt8) : Bool :=
  b == 32 || (9 ≤ b && b ≤ 13)

def isDigit (b : UInt8) : Bool :=
  48 ≤ b && b ≤ 57

theorem isSpace_of_isDigit {b : UInt8} (h : isDigit b = true) : isSpace b = false := by
  simp only [isDigit, Bool.and_eq_true, decide_eq_true_eq, UInt8.le_iff_toNat_le] at h
  simp only [isSpace, Bool.or_eq_false_iff, Bool.and_eq_false_iff, decide_eq_false_iff_not,
    beq_eq_false_iff_ne, ne_eq, ← UInt8.toNat_inj, UInt8.le_iff_toNat_le]
  simp only [UInt8.reduceToNat] at h ⊢
  omega

/-- A nonempty run of bytes without whitespace: what one extraction into a string yields. -/
structure IsWord (w : Bytes) : Prop where
  ne_nil : w ≠ []
  solid : ∀ b ∈ w, isSpace b = false

instance (w : Bytes) : Decidable (IsWord w) :=
  decidable_of_iff (w ≠ [] ∧ ∀ b ∈ w, isSpace b = false)
    ⟨fun h => ⟨h.1, h.2⟩, fun h => ⟨h.ne_nil, h.solid⟩⟩

/-- The text `rest` ends the word or number written before it. -/
def EndsWord (rest : Bytes) : Prop :=
  ∀ b, rest.head? = some b → isSpace b = true

theorem endsWord_nil : EndsWord [] := by
  intro b hb
  simp at hb

theorem endsWord_cons {b : UInt8} {rest : Bytes} (h : isSpace b = true) :
    EndsWord (b :: rest) := by
  intro b' hb'
  simp only [List.head?_cons, Option.some.injEq] at hb'
  exact hb' ▸ h

/-! ## Words -/

/-- `std::ws`. -/
def skipSpace (s : Bytes) : Bytes :=
  s.dropWhile isSpace

/-- `operator>>` into a `std::string`. -/
def readWord (s : Bytes) : Option (Bytes × Bytes) :=
  let t := skipSpace s
  let w := t.takeWhile fun b => !isSpace b
  if w = [] then none else some (w, t.dropWhile fun b => !isSpace b)

@[simp] theorem skipSpace_space (s : Bytes) : skipSpace (32 :: s) = skipSpace s := by
  simp [skipSpace, isSpace]

@[simp] theorem readWord_space (s : Bytes) : readWord (32 :: s) = readWord s := by
  simp [readWord]

theorem skipSpace_solid {b : UInt8} {s : Bytes} (h : isSpace b = false) :
    skipSpace (b :: s) = b :: s := by
  simp [skipSpace, h]

theorem takeWhile_append_of_stop {p : UInt8 → Bool} {w rest : Bytes}
    (hw : ∀ b ∈ w, p b = true) (hrest : ∀ b, rest.head? = some b → p b = false) :
    (w ++ rest).takeWhile p = w ∧ (w ++ rest).dropWhile p = rest := by
  induction w with
  | nil =>
      cases rest with
      | nil => simp
      | cons b rest =>
          have hb : p b = false := hrest b (by simp)
          simp [hb]
  | cons b w ih =>
      have hb : p b = true := hw b (by simp)
      have htail := ih (fun b' hb' => hw b' (by simp [hb']))
      simp [hb, htail.1, htail.2]

theorem readWord_append {w rest : Bytes} (hw : IsWord w) (hrest : EndsWord rest) :
    readWord (w ++ rest) = some (w, rest) := by
  have hskip : skipSpace (w ++ rest) = w ++ rest := by
    cases w with
    | nil => exact absurd rfl hw.ne_nil
    | cons b w => exact skipSpace_solid (hw.solid b (by simp))
  have hsplit : (w ++ rest).takeWhile (fun b => !isSpace b) = w ∧
      (w ++ rest).dropWhile (fun b => !isSpace b) = rest :=
    takeWhile_append_of_stop (fun b hb => by simp [hw.solid b hb])
      (fun b hb => by simp [hrest b hb])
  simp [readWord, hskip, hsplit.1, hsplit.2, hw.ne_nil]

theorem readWord_self {w : Bytes} (hw : IsWord w) : readWord w = some (w, []) := by
  simpa using readWord_append hw endsWord_nil

/-- The first word of a line whose words are separated by single spaces. -/
theorem readWord_append_space {w rest : Bytes} (hw : IsWord w) :
    readWord (w ++ 32 :: rest) = some (w, 32 :: rest) :=
  readWord_append hw (endsWord_cons (by decide))

theorem isWord_of_readWord {s w rest : Bytes} (h : readWord s = some (w, rest)) : IsWord w := by
  simp only [readWord] at h
  split at h
  · cases h
  · rename_i hne
    cases h
    refine ⟨hne, ?_⟩
    intro b hb
    simpa using List.mem_takeWhile_imp hb

/-- Extraction reaches a later stretch of whitespace or the end of the text. -/
theorem endsWord_of_readWord {s w rest : Bytes} (h : readWord s = some (w, rest)) :
    EndsWord rest := by
  simp only [readWord] at h
  split at h
  · cases h
  · cases h
    intro b hb
    have := List.head?_dropWhile_not (fun b => !isSpace b) (skipSpace s)
    rw [hb] at this
    simpa using this

/-! ## Decimal numbers -/

/-- The value of a run of decimal digits. -/
def digitsValue (ds : Bytes) : Nat :=
  ds.foldl (fun v d => 10 * v + (d.toNat - 48)) 0

/-- The optional sign of a number: whether it is a minus, and what follows it. -/
def readSign : Bytes → Bool × Bytes
  | 45 :: s => (true, s)
  | 43 :: s => (false, s)
  | s => (false, s)

/-- `operator>>` into a signed integer type with the range `lo..hi`. -/
def readInt (lo hi : Int) (s : Bytes) : Option (Int × Bytes) :=
  let (minus, t) := readSign (skipSpace s)
  let ds := t.takeWhile isDigit
  let v : Int := if minus then -(digitsValue ds : Int) else digitsValue ds
  if ds = [] then none
  else if lo ≤ v ∧ v ≤ hi then some (v, t.dropWhile isDigit)
  else none

/-- `operator>>` into an `int`. -/
def readInt32 : Bytes → Option (Int × Bytes) :=
  readInt (-2 ^ 31) (2 ^ 31 - 1)

/-- `operator>>` into an `int64_t`. -/
def readInt64 : Bytes → Option (Int × Bytes) :=
  readInt (-2 ^ 63) (2 ^ 63 - 1)

def showNat (n : Nat) : Bytes :=
  if n = 0 then [48] else (Nat.digits 10 n).reverse.map fun d => UInt8.ofNat (48 + d)

/-- `std::to_string` of a signed integer. -/
def showInt : Int → Bytes
  | .ofNat n => showNat n
  | .negSucc n => 45 :: showNat (n + 1)

theorem digit_byte {d : Nat} (h : d < 10) :
    isDigit (UInt8.ofNat (48 + d)) = true ∧ (UInt8.ofNat (48 + d)).toNat - 48 = d := by
  revert h
  revert d
  decide

theorem isDigit_of_mem_showNat {n : Nat} {b : UInt8} (h : b ∈ showNat n) : isDigit b = true := by
  unfold showNat at h
  split at h
  · simp only [List.mem_singleton] at h
    subst h
    decide
  · simp only [List.mem_map, List.mem_reverse] at h
    rcases h with ⟨d, hd, rfl⟩
    exact (digit_byte (Nat.digits_lt_base (by norm_num) hd)).1

theorem showNat_ne_nil (n : Nat) : showNat n ≠ [] := by
  unfold showNat
  split
  · simp
  · rename_i hn
    simpa using Nat.digits_ne_nil_iff_ne_zero.2 hn

theorem digitsValue_showNat (n : Nat) : digitsValue (showNat n) = n := by
  unfold showNat
  split
  · rename_i hn
    simp [digitsValue, hn]
  · have hfold : ∀ ds : List Nat, (∀ d ∈ ds, d < 10) →
        digitsValue (ds.reverse.map fun d => UInt8.ofNat (48 + d)) = Nat.ofDigits 10 ds := by
      intro ds hds
      induction ds with
      | nil => rfl
      | cons d ds ih =>
          have hd := (digit_byte (hds d (by simp))).2
          have htail := ih (fun d' hd' => hds d' (by simp [hd']))
          simp only [digitsValue, List.foldl_map] at htail
          simp only [digitsValue, List.reverse_cons, List.map_append, List.map_cons, List.map_nil,
            List.foldl_append, List.foldl_map, List.foldl_cons, List.foldl_nil, htail, hd,
            Nat.ofDigits_cons]
          omega
    rw [hfold _ fun d hd => Nat.digits_lt_base (by norm_num) hd]
    exact Nat.ofDigits_digits 10 n

theorem isWord_showNat (n : Nat) : IsWord (showNat n) :=
  ⟨showNat_ne_nil n, fun _ hb => isSpace_of_isDigit (isDigit_of_mem_showNat hb)⟩

theorem isWord_showInt (i : Int) : IsWord (showInt i) := by
  cases i with
  | ofNat n => exact isWord_showNat n
  | negSucc n =>
      refine ⟨by simp [showInt], ?_⟩
      intro b hb
      simp only [showInt, List.mem_cons] at hb
      rcases hb with rfl | hb
      · decide
      · exact (isWord_showNat (n + 1)).solid b hb

theorem takeWhile_showNat (n : Nat) {rest : Bytes}
    (hrest : ∀ b, rest.head? = some b → isDigit b = false) :
    (showNat n ++ rest).takeWhile isDigit = showNat n ∧
      (showNat n ++ rest).dropWhile isDigit = rest :=
  takeWhile_append_of_stop (fun _ hb => isDigit_of_mem_showNat hb) hrest

theorem readSign_digit {b : UInt8} {s : Bytes} (h : isDigit b = true) :
    readSign (b :: s) = (false, b :: s) := by
  have h45 : b ≠ 45 := by
    rintro rfl
    revert h
    decide
  have h43 : b ≠ 43 := by
    rintro rfl
    revert h
    decide
  unfold readSign
  split
  · simp_all
  · simp_all
  · rfl

theorem readSign_showNat (n : Nat) (rest : Bytes) :
    readSign (showNat n ++ rest) = (false, showNat n ++ rest) := by
  cases hn : showNat n with
  | nil => exact absurd hn (showNat_ne_nil n)
  | cons b s => exact readSign_digit (isDigit_of_mem_showNat (n := n) (by simp [hn]))

/-- Reading back a rendered number, with anything but a digit after it. -/
theorem readInt_showInt {lo hi i : Int} (hlo : lo ≤ i) (hhi : i ≤ hi) {rest : Bytes}
    (hrest : ∀ b, rest.head? = some b → isDigit b = false) :
    readInt lo hi (showInt i ++ rest) = some (i, rest) := by
  have hskip : skipSpace (showInt i ++ rest) = showInt i ++ rest := by
    cases hi' : showInt i with
    | nil => exact absurd hi' (isWord_showInt i).ne_nil
    | cons b s => exact skipSpace_solid ((isWord_showInt i).solid b (by simp [hi']))
  cases i with
  | ofNat n =>
      have hdigits := takeWhile_showNat n hrest
      simp only [showInt] at hskip
      simp only [Int.ofNat_eq_natCast] at hlo hhi
      simp [readInt, showInt, hskip, readSign_showNat, hdigits.1, hdigits.2, showNat_ne_nil,
        digitsValue_showNat, hlo, hhi]
  | negSucc n =>
      have hdigits := takeWhile_showNat (n + 1) hrest
      have hneg : Int.negSucc n = -((n + 1 : Nat) : Int) := rfl
      simp only [showInt, List.cons_append] at hskip
      rw [hneg] at hlo hhi
      simp only [readInt, showInt, List.cons_append, hskip, readSign, hdigits.1, hdigits.2,
        showNat_ne_nil, digitsValue_showNat, if_true, if_false, hneg]
      rw [if_pos ⟨hlo, hhi⟩]

theorem isDigit_of_isSpace {b : UInt8} (h : isSpace b = true) : isDigit b = false := by
  cases hb : isDigit b with
  | false => rfl
  | true => simp [isSpace_of_isDigit hb] at h

theorem readInt_showInt_endsWord {lo hi i : Int} (hlo : lo ≤ i) (hhi : i ≤ hi) {rest : Bytes}
    (hrest : EndsWord rest) : readInt lo hi (showInt i ++ rest) = some (i, rest) :=
  readInt_showInt hlo hhi fun b hb => isDigit_of_isSpace (hrest b hb)

@[simp] theorem readInt_space (lo hi : Int) (s : Bytes) :
    readInt lo hi (32 :: s) = readInt lo hi s := by
  simp [readInt]

@[simp] theorem readInt32_space (s : Bytes) : readInt32 (32 :: s) = readInt32 s :=
  readInt_space _ _ s

@[simp] theorem readInt64_space (s : Bytes) : readInt64 (32 :: s) = readInt64 s :=
  readInt_space _ _ s

/-- Reading a number off a word leaves the rest of that word. -/
theorem readInt_append_space {lo hi n : Int} {w rest s : Bytes} (hw : IsWord w)
    (h : readInt lo hi (w ++ 32 :: s) = some (n, rest)) :
    ∃ u, rest = u ++ 32 :: s ∧ ∀ b ∈ u, isSpace b = false := by
  have hskip : skipSpace (w ++ 32 :: s) = w ++ 32 :: s := by
    cases w with
    | nil => exact absurd rfl hw.ne_nil
    | cons b w => exact skipSpace_solid (hw.solid b (by simp))
  have hsign : ∃ u, (readSign (w ++ 32 :: s)).2 = u ++ 32 :: s ∧ ∀ b ∈ u, isSpace b = false := by
    cases w with
    | nil => exact absurd rfl hw.ne_nil
    | cons b w =>
        have htail : ∀ b' ∈ w, isSpace b' = false := fun b' hb' => hw.solid b' (by simp [hb'])
        rw [List.cons_append]
        unfold readSign
        split
        · rename_i heq
          exact ⟨w, (List.cons.inj heq).2.symm, htail⟩
        · rename_i heq
          exact ⟨w, (List.cons.inj heq).2.symm, htail⟩
        · exact ⟨b :: w, rfl, hw.solid⟩
  rcases hsign with ⟨u, hu, hsolid⟩
  have hdrop : ∀ u : Bytes, (u ++ 32 :: s).dropWhile isDigit = u.dropWhile isDigit ++ 32 :: s := by
    have hspace : isDigit 32 = false := by decide
    intro u
    induction u with
    | nil => simp [hspace]
    | cons b u ih => cases hb : isDigit b <;> simp [hb, ih]
  have hrest : rest = (readSign (skipSpace (w ++ 32 :: s))).2.dropWhile isDigit := by
    simp only [readInt, Option.ite_none_left_eq_some, Option.ite_none_right_eq_some,
      Option.some.injEq, Prod.mk.injEq] at h
    exact h.2.2.2.symm
  rw [hskip, hu, hdrop] at hrest
  exact ⟨u.dropWhile isDigit, hrest,
    fun b hb => hsolid b ((List.dropWhile_sublist _).subset hb)⟩

/-! ## Separated items -/

/-- The loop `while (std::getline(in, item, sep)) if (!item.empty()) push_back(item)`. -/
def splitItems (sep : UInt8) (s : Bytes) : List Bytes :=
  (s.splitOn sep).filter (· ≠ [])

/-- Concatenation of the items with the separator between them. -/
def joinItems (sep : UInt8) (items : List Bytes) : Bytes :=
  [sep].intercalate items

theorem splitItems_joinItems {sep : UInt8} {items : List Bytes}
    (hsep : ∀ item ∈ items, sep ∉ item) (hne : ∀ item ∈ items, item ≠ []) (hitems : items ≠ []) :
    splitItems sep (joinItems sep items) = items := by
  unfold splitItems joinItems
  rw [List.splitOn_intercalate sep hsep hitems, List.filter_eq_self]
  intro item hitem
  simpa using hne item hitem

theorem mem_joinItems {sep b : UInt8} {items : List Bytes} (h : b ∈ joinItems sep items) :
    b = sep ∨ ∃ item ∈ items, b ∈ item := by
  induction items with
  | nil => simp [joinItems] at h
  | cons item items ih =>
      cases items with
      | nil =>
          simp [joinItems] at h
          exact Or.inr ⟨item, by simp, h⟩
      | cons item' items =>
          simp only [joinItems, List.intercalate_cons_cons, List.mem_append,
            List.mem_singleton] at h
          rcases h with (h | h) | h
          · exact Or.inr ⟨item, by simp, h⟩
          · exact Or.inl h
          · rcases ih h with rfl | ⟨it, hit, hb⟩
            · exact Or.inl rfl
            · exact Or.inr ⟨it, by simp [hit], hb⟩

theorem length_joinItems {sep : UInt8} {n : Nat} {items : List Bytes} (hitems : items ≠ [])
    (h : ∀ item ∈ items, item.length = n) :
    (joinItems sep items).length + 1 = (n + 1) * items.length := by
  induction items with
  | nil => exact absurd rfl hitems
  | cons item items ih =>
      cases items with
      | nil => simp [joinItems, h item (by simp)]
      | cons second items =>
          have hrest := ih (by simp) fun it hit => h it (by simp [hit])
          have hitem := h item (by simp)
          rw [joinItems] at hrest ⊢
          rw [List.intercalate_cons_cons, List.length_append, List.length_append, hitem,
            List.length_singleton, List.length_cons, Nat.mul_succ]
          omega

/-- The items are made of the bytes of the text. -/
theorem mem_of_mem_splitItems {sep b : UInt8} {s item : Bytes} (h : item ∈ splitItems sep s)
    (hb : b ∈ item) : b ∈ s := by
  have hitem : item ∈ s.splitOn sep := (List.mem_filter.1 h).1
  have hjoin : [sep].intercalate (s.splitOn sep) = s := List.intercalate_splitOn sep
  rw [← hjoin]
  generalize s.splitOn sep = items at hitem
  induction items with
  | nil => simp at hitem
  | cons first items ih =>
      cases items with
      | nil =>
          rw [List.mem_singleton] at hitem
          simpa [hitem] using hb
      | cons second items =>
          rw [List.intercalate_cons_cons, List.mem_append, List.mem_append]
          rcases List.mem_cons.1 hitem with rfl | hitem
          · exact Or.inl (Or.inl hb)
          · exact Or.inr (ih hitem)

theorem isWord_of_mem_splitItems {sep : UInt8} {w item : Bytes} (hw : IsWord w)
    (h : item ∈ splitItems sep w) : IsWord item where
  ne_nil := by simpa using (List.mem_filter.1 h).2
  solid := fun _ hb => hw.solid _ (mem_of_mem_splitItems h hb)

/-! ## Lengths -/

theorem length_skipSpace_le (s : Bytes) : (skipSpace s).length ≤ s.length :=
  (List.dropWhile_sublist _).length_le

/-- A text that ends a word and has something in it starts with whitespace. -/
theorem length_skipSpace_lt {s : Bytes} (h : EndsWord s) (hne : s ≠ []) :
    (skipSpace s).length < s.length := by
  cases s with
  | nil => exact absurd rfl hne
  | cons b s =>
      have hb : isSpace b = true := h b rfl
      have hskip : skipSpace (b :: s) = skipSpace s := by simp [skipSpace, hb]
      rw [hskip, List.length_cons]
      exact Nat.lt_succ_of_le (length_skipSpace_le s)

theorem length_readWord {s w rest : Bytes} (h : readWord s = some (w, rest)) :
    w.length + rest.length = (skipSpace s).length := by
  simp only [readWord] at h
  split at h
  · cases h
  · cases h
    rw [← List.length_append, List.takeWhile_append_dropWhile]

theorem digitsValue_lt {ds : Bytes} (h : ∀ b ∈ ds, isDigit b = true) :
    digitsValue ds < 10 ^ ds.length := by
  induction ds using List.reverseRecOn with
  | nil => simp [digitsValue]
  | append_singleton ds b ih =>
      have hb : b.toNat - 48 < 10 := by
        have := h b (by simp)
        simp only [isDigit, Bool.and_eq_true, decide_eq_true_eq, UInt8.le_iff_toNat_le,
          UInt8.reduceToNat] at this
        omega
      have hds := ih fun b' hb' => h b' (by simp [hb'])
      simp only [digitsValue, List.foldl_append, List.foldl_cons, List.foldl_nil,
        List.length_append, List.length_singleton, Nat.pow_succ] at hds ⊢
      omega

/-- Rendering drops leading zeros and never adds a digit. -/
theorem length_showNat_digitsValue {ds : Bytes} (hne : ds ≠ []) (h : ∀ b ∈ ds, isDigit b = true) :
    (showNat (digitsValue ds)).length ≤ ds.length := by
  unfold showNat
  split
  · exact List.length_pos_iff.2 hne
  · simpa using (Nat.digits_length_le_iff (by norm_num) _).2 (digitsValue_lt h)

theorem length_readSign (s : Bytes) :
    (readSign s).2.length + (if (readSign s).1 then 1 else 0) ≤ s.length := by
  unfold readSign
  split <;> simp

/-- A number is rendered in no more bytes than it was read from. -/
theorem length_showInt_readInt {lo hi v : Int} {s rest : Bytes}
    (h : readInt lo hi s = some (v, rest)) :
    (showInt v).length + rest.length ≤ (skipSpace s).length := by
  have hsign := length_readSign (skipSpace s)
  simp only [readInt, Option.ite_none_left_eq_some, Option.ite_none_right_eq_some,
    Option.some.injEq, Prod.mk.injEq] at h
  generalize readSign (skipSpace s) = signed at h hsign
  rcases signed with ⟨minus, t⟩
  rcases h with ⟨hne, _, rfl, rfl⟩
  have hdigits : (showNat (digitsValue (t.takeWhile isDigit))).length ≤
      (t.takeWhile isDigit).length :=
    length_showNat_digitsValue hne fun b hb => List.mem_takeWhile_imp hb
  have hsplit : (t.takeWhile isDigit).length + (t.dropWhile isDigit).length = t.length := by
    rw [← List.length_append, List.takeWhile_append_dropWhile]
  cases minus with
  | false =>
      simp only [Bool.false_eq_true, if_false, showInt] at hsign ⊢
      omega
  | true =>
      simp only [if_true] at hsign ⊢
      cases hvalue : digitsValue (t.takeWhile isDigit) with
      | zero =>
          rw [hvalue] at hdigits
          simp only [Nat.cast_zero, neg_zero, showInt]
          change (showNat 0).length + _ ≤ _
          omega
      | succ n =>
          rw [hvalue] at hdigits
          have hneg : (-((n + 1 : Nat) : Int)) = Int.negSucc n := rfl
          simp only [hneg, showInt, List.length_cons]
          omega

theorem sep_not_mem_splitItems {sep : UInt8} {s item : Bytes} (h : item ∈ splitItems sep s) :
    sep ∉ item := by
  have hitem : item ∈ s.splitOn sep := (List.mem_filter.1 h).1
  clear h
  induction s generalizing item with
  | nil =>
      rw [List.splitOn_nil, List.mem_singleton] at hitem
      simp [hitem]
  | cons b s ih =>
      rw [List.splitOn_cons_eq_if_modifyHead] at hitem
      split at hitem
      · rcases List.mem_cons.1 hitem with rfl | hitem
        · simp
        · exact ih hitem
      · rename_i hb
        have hsep : sep ≠ b := fun heq => hb (by simp [heq])
        cases hrest : s.splitOn sep with
        | nil => simp [hrest] at hitem
        | cons first items =>
            rw [hrest] at hitem ih
            rcases List.mem_cons.1 hitem with rfl | hitem
            · simp [hsep, ih (List.mem_cons_self ..)]
            · exact ih (List.mem_cons_of_mem _ hitem)

theorem length_joinItems_eq (sep : UInt8) (items : List Bytes) :
    (joinItems sep items).length = (items.map List.length).sum + (items.length - 1) := by
  induction items with
  | nil => rfl
  | cons item items ih =>
      cases items with
      | nil => simp [joinItems]
      | cons second items =>
          rw [joinItems] at ih ⊢
          rw [List.intercalate_cons_cons, List.length_append, List.length_append, ih]
          simp only [List.map_cons, List.sum_cons, List.length_cons, List.length_nil]
          omega

/-- Dropping empty items shortens a list of items. -/
theorem length_joinItems_splitItems (sep : UInt8) (s : Bytes) :
    (joinItems sep (splitItems sep s)).length ≤ s.length := by
  have hsub : (splitItems sep s).Sublist (s.splitOn sep) := List.filter_sublist
  have hsum : ((splitItems sep s).map List.length).sum ≤ ((s.splitOn sep).map List.length).sum :=
    (hsub.map _).sum_le_sum fun _ _ => Nat.zero_le _
  calc
    (joinItems sep (splitItems sep s)).length
        = ((splitItems sep s).map List.length).sum + ((splitItems sep s).length - 1) :=
          length_joinItems_eq sep _
    _ ≤ ((s.splitOn sep).map List.length).sum + ((s.splitOn sep).length - 1) :=
          Nat.add_le_add hsum (Nat.sub_le_sub_right hsub.length_le 1)
    _ = (joinItems sep (s.splitOn sep)).length := (length_joinItems_eq sep _).symm
    _ = s.length := by rw [joinItems, List.intercalate_splitOn]

end TextScan
