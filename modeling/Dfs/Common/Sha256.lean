import Dfs.Library.TextScan

/-!
# SHA-256

`sha256` of the source: full blocks are hashed through a 64-byte buffer, the last one or two blocks
are built in the same buffer, and the eight state words are printed as lowercase hex.
-/

namespace Dfs
namespace Common

/-- `state[0..7]`, under the names the rounds give them. -/
structure Sha256State where
  (a b c d e f g h : UInt32)
  deriving DecidableEq

namespace Sha256

def k : List UInt32 :=
  [0x428a2f98, 0x71374491, 0xb5c0fbcf, 0xe9b5dba5, 0x3956c25b, 0x59f111f1, 0x923f82a4, 0xab1c5ed5,
   0xd807aa98, 0x12835b01, 0x243185be, 0x550c7dc3, 0x72be5d74, 0x80deb1fe, 0x9bdc06a7, 0xc19bf174,
   0xe49b69c1, 0xefbe4786, 0x0fc19dc6, 0x240ca1cc, 0x2de92c6f, 0x4a7484aa, 0x5cb0a9dc, 0x76f988da,
   0x983e5152, 0xa831c66d, 0xb00327c8, 0xbf597fc7, 0xc6e00bf3, 0xd5a79147, 0x06ca6351, 0x14292967,
   0x27b70a85, 0x2e1b2138, 0x4d2c6dfc, 0x53380d13, 0x650a7354, 0x766a0abb, 0x81c2c92e, 0x92722c85,
   0xa2bfe8a1, 0xa81a664b, 0xc24b8b70, 0xc76c51a3, 0xd192e819, 0xd6990624, 0xf40e3585, 0x106aa070,
   0x19a4c116, 0x1e376c08, 0x2748774c, 0x34b0bcb5, 0x391c0cb3, 0x4ed8aa4a, 0x5b9cca4f, 0x682e6ff3,
   0x748f82ee, 0x78a5636f, 0x84c87814, 0x8cc70208, 0x90befffa, 0xa4506ceb, 0xbef9a3f7, 0xc67178f2]

def rotr (x : UInt32) (n : UInt32) : UInt32 :=
  (x >>> n) ||| (x <<< (32 - n))

def ch (x y z : UInt32) : UInt32 :=
  (x &&& y) ^^^ (~~~x &&& z)

def maj (x y z : UInt32) : UInt32 :=
  (x &&& y) ^^^ (x &&& z) ^^^ (y &&& z)

def sig0 (x : UInt32) : UInt32 :=
  rotr x 2 ^^^ rotr x 13 ^^^ rotr x 22

def sig1 (x : UInt32) : UInt32 :=
  rotr x 6 ^^^ rotr x 11 ^^^ rotr x 25

def gam0 (x : UInt32) : UInt32 :=
  rotr x 7 ^^^ rotr x 18 ^^^ (x >>> 3)

def gam1 (x : UInt32) : UInt32 :=
  rotr x 17 ^^^ rotr x 19 ^^^ (x >>> 10)

/-! ## The compression function -/

/-- `w[i]` for `i < 16`: four block bytes, big-endian. -/
def messageWord (block : Bytes) (i : Nat) : UInt32 :=
  ((block.getD (i * 4) 0).toUInt32 <<< 24) ||| ((block.getD (i * 4 + 1) 0).toUInt32 <<< 16) |||
    ((block.getD (i * 4 + 2) 0).toUInt32 <<< 8) ||| (block.getD (i * 4 + 3) 0).toUInt32

/-- One iteration of the second schedule loop, with `i` the number of words already there. -/
def extendSchedule (w : List UInt32) : List UInt32 :=
  let i := w.length
  w ++ [gam1 (w.getD (i - 2) 0) + w.getD (i - 7) 0 + gam0 (w.getD (i - 15) 0) + w.getD (i - 16) 0]

def schedule (block : Bytes) : List UInt32 :=
  Nat.repeat extendSchedule 48 ((List.range 16).map (messageWord block))

/-- One of the 64 rounds, with its constant and its schedule word. -/
def round (s : Sha256State) (kw : UInt32 × UInt32) : Sha256State :=
  let t1 := s.h + sig1 s.e + ch s.e s.f s.g + kw.1 + kw.2
  let t2 := sig0 s.a + maj s.a s.b s.c
  { a := t1 + t2, b := s.a, c := s.b, d := s.c, e := s.d + t1, f := s.e, g := s.f, h := s.g }

def sha256Transform (state : Sha256State) (block : Bytes) : Sha256State :=
  let s := (k.zip (schedule block)).foldl round state
  { a := state.a + s.a, b := state.b + s.b, c := state.c + s.c, d := state.d + s.d
    e := state.e + s.e, f := state.f + s.f, g := state.g + s.g, h := state.h + s.h }

/-! ## The block buffer -/

/-- `memcpy(block, src, src.size())`. -/
def memcpy (block src : Bytes) : Bytes :=
  src ++ block.drop src.length

/-- `while (rem < until) block[rem++] = 0`. -/
def zeroFill (block : Bytes) (rem until_ : Nat) : Bytes :=
  (List.range' rem (until_ - rem)).foldl (fun b i => b.set i 0) block

/-- The loop over the full blocks: position, state and buffer after it. -/
def absorb (data : Bytes) : Nat → Nat → Sha256State → Bytes → Nat × Sha256State × Bytes
  | 0, i, state, block => (i, state, block)
  | fuel + 1, i, state, block =>
      if i + 64 ≤ data.length then
        let block := memcpy block ((data.drop i).take 64)
        absorb data fuel (i + 64) (sha256Transform state block) block
      else (i, state, block)

/-- The loop that writes the bit length into `block[56..63]`, from the last byte down. -/
def writeBitLen : Nat → UInt64 → Bytes → Bytes
  | 0, _, block => block
  | j + 1, bitLen, block => writeBitLen j (bitLen >>> 8) (block.set (56 + j) bitLen.toUInt8)

def initialState : Sha256State :=
  { a := 0x6a09e667, b := 0xbb67ae85, c := 0x3c6ef372, d := 0xa54ff53a
    e := 0x510e527f, f := 0x9b05688c, g := 0x1f83d9ab, h := 0x5be0cd19 }

/-- The buffer before its first use; every byte of it is written before it is hashed. -/
def initialBlock : Bytes :=
  List.replicate 64 0

/-- The state after all blocks of `data`. -/
def digest (data : Bytes) : Sha256State :=
  let (i, state, block) := absorb data (data.length / 64 + 1) 0 initialState initialBlock
  let rem := data.length - i
  let block := (memcpy block (data.drop i)).set rem 0x80
  let rem := rem + 1
  let (state, block, rem) :=
    if rem > 56 then
      let block := zeroFill block rem 64
      (sha256Transform state block, block, 0)
    else (state, block, rem)
  let block := zeroFill block rem 56
  sha256Transform state (writeBitLen 8 (UInt64.ofNat (data.length * 8)) block)

/-! ## Hex output -/

def hexDigit (v : UInt32) : UInt8 :=
  if v < 10 then 48 + v.toUInt8 else 87 + v.toUInt8

/-- `std::hex << std::setw(2) << std::setfill('0')` of one byte. -/
def hexByte (v : UInt32) : Bytes :=
  [hexDigit (v >>> 4), hexDigit (v &&& 15)]

def hexWord (v : UInt32) : Bytes :=
  [24, 16, 8, 0].flatMap fun s : UInt32 => hexByte ((v >>> s) &&& 0xff)

end Sha256

open Sha256

def sha256 (data : Bytes) : Bytes :=
  let s := digest data
  [s.a, s.b, s.c, s.d, s.e, s.f, s.g, s.h].flatMap hexWord

/-! ## The shape of a digest -/

def isHexDigit (b : UInt8) : Bool :=
  (48 ≤ b && b ≤ 57) || (97 ≤ b && b ≤ 102)

/-- A string of 64 lowercase hex digits. -/
structure IsHash (h : Bytes) : Prop where
  length_eq : h.length = 64
  hex : ∀ b ∈ h, isHexDigit b = true

theorem isHexDigit_hexDigit {v : UInt32} (hv : v < 16) : isHexDigit (hexDigit v) = true := by
  have hcases : v.toNat < 16 := by simpa [UInt32.lt_iff_toNat_lt] using hv
  have hofNat : v = UInt32.ofNat v.toNat := by simp
  rw [hofNat]
  generalize v.toNat = n at hcases
  interval_cases n <;> decide

theorem isHexDigit_hexByte {v : UInt32} (hv : v < 256) {b : UInt8} (hb : b ∈ hexByte v) :
    isHexDigit b = true := by
  simp only [hexByte, List.mem_cons, List.not_mem_nil, or_false] at hb
  rcases hb with rfl | rfl
  · apply isHexDigit_hexDigit
    rw [UInt32.lt_iff_toNat_lt] at hv ⊢
    simp only [UInt32.reduceToNat, UInt32.toNat_shiftRight, Nat.reduceMod,
      Nat.shiftRight_eq_div_pow, Nat.reducePow] at hv ⊢
    omega
  · apply isHexDigit_hexDigit
    rw [UInt32.lt_iff_toNat_lt, UInt32.toNat_and]
    exact lt_of_le_of_lt Nat.and_le_right (by decide)

theorem isHexDigit_hexWord {v : UInt32} {b : UInt8} (hb : b ∈ hexWord v) :
    isHexDigit b = true := by
  unfold hexWord at hb
  rcases List.mem_flatMap.1 hb with ⟨s, _, hbs⟩
  refine isHexDigit_hexByte ?_ hbs
  rw [UInt32.lt_iff_toNat_lt, UInt32.toNat_and]
  exact lt_of_le_of_lt Nat.and_le_right (by decide)

theorem isHash_sha256 (data : Bytes) : IsHash (sha256 data) := by
  unfold sha256
  refine ⟨?_, ?_⟩
  · simp [hexWord, hexByte]
  · intro b hb
    rcases List.mem_flatMap.1 hb with ⟨v, _, hbv⟩
    exact isHexDigit_hexWord hbv

namespace IsHash

variable {h : Bytes}

theorem ne_nil (hh : IsHash h) : h ≠ [] := by
  intro hnil
  have := hh.length_eq
  simp [hnil] at this

theorem isWord (hh : IsHash h) : TextScan.IsWord h := by
  refine ⟨hh.ne_nil, ?_⟩
  intro b hb
  have hhex := hh.hex b hb
  simp only [isHexDigit, Bool.or_eq_true, Bool.and_eq_true, decide_eq_true_eq,
    UInt8.le_iff_toNat_le, UInt8.reduceToNat] at hhex
  simp only [TextScan.isSpace, Bool.or_eq_false_iff, Bool.and_eq_false_iff,
    decide_eq_false_iff_not, beq_eq_false_iff_ne, ne_eq, ← UInt8.toNat_inj,
    UInt8.le_iff_toNat_le, UInt8.reduceToNat]
  omega

theorem comma_not_mem (hh : IsHash h) : (44 : UInt8) ∉ h := by
  intro hmem
  have := hh.hex 44 hmem
  revert this
  decide

end IsHash

end Common
end Dfs
