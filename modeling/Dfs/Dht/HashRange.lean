import Dfs.Common.Sha256
import Dfs.Dht.ConsistentHash

/-!
# The range of the ring hash

`hashKey` accumulates in an `int`, and C++ gives no meaning to a signed accumulation that leaves the
range of its type.  `hashKeyChecked` is the loop of the source with every product and every sum
checked: where it has a value, `hashKey` has the same; where it has none, `hashKey` is what wrapping
modulo `2 ^ 32` makes of it, and no compiler need agree.
-/

namespace Dfs
namespace Dht

open Bytes TextScan Common

/-- The result of an operation on `int`s, if there is one. -/
def checkInt32 (i : Int) : Option Int :=
  if -2 ^ 31 ≤ i ∧ i ≤ 2 ^ 31 - 1 then some i else none

/-- One step of the loop of `hashKey`: a product, and a sum. -/
def hashStepChecked (h : Int) (c : UInt8) : Option Int :=
  (checkInt32 (31 * h)).bind fun m => checkInt32 (m + c.toNat)

def hashKeyChecked (key : Bytes) : Option Int :=
  key.foldlM hashStepChecked 0

/-- No step of `hashKey` leaves the range of an `int`. -/
def HashInRange (key : Bytes) : Prop :=
  (hashKeyChecked key).isSome = true

instance (key : Bytes) : Decidable (HashInRange key) :=
  inferInstanceAs (Decidable ((hashKeyChecked key).isSome = true))

/-- The value of the polynomial, without a range. -/
def polynomial (h : Nat) (key : Bytes) : Nat :=
  key.foldl (fun h c => 31 * h + c.toNat) h

/-! ## Steps in range -/

theorem checkInt32_eq_some {i j : Int} (h : checkInt32 i = some j) :
    j = i ∧ -2 ^ 31 ≤ i ∧ i ≤ 2 ^ 31 - 1 := by
  unfold checkInt32 at h
  split at h
  · rename_i hrange
    exact ⟨(Option.some.inj h).symm, hrange⟩
  · cases h

/-- A checked step is the step of the model. -/
theorem hashStepChecked_eq_some {h h' : Int} {c : UInt8} (hstep : hashStepChecked h c = some h') :
    hashStep h c = h' := by
  rcases Option.bind_eq_some_iff.1 hstep with ⟨m, hm, hsum⟩
  rcases checkInt32_eq_some hm with ⟨rfl, _⟩
  rcases checkInt32_eq_some hsum with ⟨rfl, hlow, hhigh⟩
  exact toInt32_of_range hlow (by omega)

theorem hashKey_of_checked {key : Bytes} {h : Int} (hkey : hashKeyChecked key = some h) :
    hashKey key = h := by
  have hall : ∀ (cs : Bytes) (h₀ : Int), cs.foldlM hashStepChecked h₀ = some h →
      cs.foldl hashStep h₀ = h := by
    intro cs
    induction cs with
    | nil =>
        intro h₀ hfold
        exact Option.some.inj hfold
    | cons c cs ih =>
        intro h₀ hfold
        rw [List.foldlM_cons] at hfold
        rcases Option.bind_eq_some_iff.1 hfold with ⟨h₁, hstep, hrest⟩
        rw [List.foldl_cons, hashStepChecked_eq_some hstep]
        exact ih h₁ hrest
  exact hall key 0 hkey

/-- From a value that is not negative, a step is in range exactly when its result is. -/
theorem hashStepChecked_nat (h : Nat) (c : UInt8) :
    hashStepChecked h c =
      if 31 * h + c.toNat ≤ 2 ^ 31 - 1 then some ((31 * h + c.toNat : Nat) : Int) else none := by
  unfold hashStepChecked checkInt32
  by_cases hprod : 31 * h ≤ 2 ^ 31 - 1
  · rw [if_pos (by omega), Option.bind_some]
    by_cases hsum : 31 * h + c.toNat ≤ 2 ^ 31 - 1
    · rw [if_pos (by omega), if_pos hsum]
      push_cast
      rfl
    · rw [if_neg (by omega), if_neg hsum]
  · rw [if_neg (by omega), if_neg (by omega), Option.bind_none]

theorem le_polynomial (h : Nat) (key : Bytes) : h ≤ polynomial h key := by
  induction key generalizing h with
  | nil => exact le_refl h
  | cons c cs ih =>
      calc h ≤ 31 * h + c.toNat := by omega
        _ ≤ polynomial (31 * h + c.toNat) cs := ih _
        _ = polynomial h (c :: cs) := rfl

/-- The accumulation never decreases, so it stays in range exactly when it ends there. -/
theorem hashInRange_iff (key : Bytes) : HashInRange key ↔ polynomial 0 key ≤ 2 ^ 31 - 1 := by
  have hall : ∀ (cs : Bytes) (h : Nat), h ≤ 2 ^ 31 - 1 →
      ((cs.foldlM hashStepChecked (h : Int)).isSome = true ↔ polynomial h cs ≤ 2 ^ 31 - 1) := by
    intro cs
    induction cs with
    | nil =>
        intro h hh
        exact ⟨fun _ => hh, fun _ => rfl⟩
    | cons c cs ih =>
        intro h hh
        rw [List.foldlM_cons, hashStepChecked_nat]
        by_cases hstep : 31 * h + c.toNat ≤ 2 ^ 31 - 1
        · rw [if_pos hstep]
          exact ih (31 * h + c.toNat) hstep
        · -- What has left the range does not come back.
          have hlater := le_polynomial (31 * h + c.toNat) cs
          rw [if_neg hstep]
          refine ⟨fun hsome => ?_, fun hpoly => ?_⟩
          · cases hsome
          · exact absurd (hlater.trans hpoly) hstep
  exact hall key 0 (by decide)

/-! ## Long keys -/

theorem pow_le_polynomial {h n : Nat} {key : Bytes} (hlength : n ≤ key.length) :
    31 ^ n * h ≤ polynomial h key := by
  induction key generalizing h n with
  | nil =>
      rw [Nat.le_zero.1 hlength, pow_zero, one_mul]
      exact le_refl h
  | cons c cs ih =>
      cases n with
      | zero =>
          rw [pow_zero, one_mul]
          exact le_polynomial h (c :: cs)
      | succ n =>
          calc 31 ^ (n + 1) * h = 31 ^ n * (31 * h) := by ring
            _ ≤ 31 ^ n * (31 * h + c.toNat) := Nat.mul_le_mul_left _ (Nat.le_add_right _ _)
            _ ≤ polynomial (31 * h + c.toNat) cs := ih (Nat.le_of_succ_le_succ hlength)
            _ = polynomial h (c :: cs) := rfl

/-- Eight bytes are too many. -/
theorem not_hashInRange_of_length {c : UInt8} {cs : Bytes} (hc : c ≠ 0) (hlength : 7 ≤ cs.length) :
    ¬ HashInRange (c :: cs) := by
  rw [hashInRange_iff]
  have hpos : 1 ≤ c.toNat := by
    have hne : c.toNat ≠ 0 := fun hzero => hc (UInt8.toNat_inj.1 hzero)
    omega
  have hpoly : 31 ^ 7 * c.toNat ≤ polynomial c.toNat cs := pow_le_polynomial hlength
  have hcons : polynomial 0 (c :: cs) = polynomial c.toNat cs := by
    rw [polynomial, List.foldl_cons, Nat.mul_zero, Nat.zero_add]
    rfl
  rw [hcons]
  omega

/-! ## The keys of the client -/

/-- The address of a storage node, `ip:port`. -/
def nodeAddress (a b c d : UInt8) (port : UInt16) : Bytes :=
  showNat a.toNat ++ 46 :: showNat b.toNat ++ 46 :: showNat c.toNat ++ 46 :: showNat d.toNat ++
    58 :: showNat port.toNat

/-- `hashKey` leaves the range of an `int` on every address that the client adds to the ring, and on
every chunk hash that it looks up. -/
theorem hash_arithmetic_overflows (a b c d : UInt8) (port : UInt16) (hash : Bytes)
    (hhash : IsHash hash) : ¬ HashInRange (nodeAddress a b c d port) ∧ ¬ HashInRange hash := by
  have hword : ∀ n, 1 ≤ (showNat n).length ∧ ∀ x ∈ showNat n, x ≠ 0 := by
    intro n
    refine ⟨List.length_pos_iff.2 (showNat_ne_nil n), fun x hx hzero => ?_⟩
    have hdigit := isDigit_of_mem_showNat hx
    rw [hzero] at hdigit
    exact absurd hdigit (by decide)
  refine ⟨?_, ?_⟩
  · have hlength : 8 ≤ (nodeAddress a b c d port).length := by
      have ha := (hword a.toNat).1
      have hb := (hword b.toNat).1
      have hc := (hword c.toNat).1
      have hd := (hword d.toNat).1
      have hport := (hword port.toNat).1
      simp only [nodeAddress, List.length_append, List.length_cons]
      omega
    cases hfirst : showNat a.toNat with
    | nil => exact absurd hfirst (showNat_ne_nil _)
    | cons x xs =>
        have hx : x ≠ 0 := (hword a.toNat).2 x (hfirst ▸ List.mem_cons_self ..)
        rw [nodeAddress, hfirst] at hlength ⊢
        exact not_hashInRange_of_length hx (Nat.le_of_succ_le_succ hlength)
  · cases hash with
    | nil => exact absurd rfl hhash.ne_nil
    | cons x xs =>
        have hx : x ≠ 0 := by
          rintro rfl
          exact absurd (hhash.hex 0 (List.mem_cons_self ..)) (by decide)
        have hlength := hhash.length_eq
        rw [List.length_cons] at hlength
        exact not_hashInRange_of_length hx (by omega)

theorem hash_arithmetic_overflows_local :
    ¬ HashInRange (nodeAddress 127 0 0 1 8001) ∧ ¬ HashInRange (sha256 (ascii "abc")) :=
  hash_arithmetic_overflows 127 0 0 1 8001 (sha256 (ascii "abc")) (isHash_sha256 _)

/-- The address that the programs start with: the seventh byte is one too many. -/
theorem local_address_overflows :
    ¬ HashInRange (ascii "127.0.0.1:8001") ∧ HashInRange (ascii "127.0.") ∧
      ¬ HashInRange (ascii "127.0.0") := by
  decide

end Dht
end Dfs
