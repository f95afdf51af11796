import Dfs.Library.Bytes

/-!
# SHA-256 as FIPS 180-4 has it

The hash of a message of whole bytes: the message is padded to a multiple of 64 bytes, parsed into
blocks, and the compression function is folded over the blocks.  Words are bit vectors, and the
constants are computed from the primes they are defined by.
-/

namespace Fips180

abbrev Word : Type := BitVec 32

/-! ## Functions and constants -/

def Ch (x y z : Word) : Word :=
  (x &&& y) ^^^ (~~~x &&& z)

def Maj (x y z : Word) : Word :=
  (x &&& y) ^^^ (x &&& z) ^^^ (y &&& z)

def bigSigma0 (x : Word) : Word :=
  x.rotateRight 2 ^^^ x.rotateRight 13 ^^^ x.rotateRight 22

def bigSigma1 (x : Word) : Word :=
  x.rotateRight 6 ^^^ x.rotateRight 11 ^^^ x.rotateRight 25

def smallSigma0 (x : Word) : Word :=
  x.rotateRight 7 ^^^ x.rotateRight 18 ^^^ (x >>> 3)

def smallSigma1 (x : Word) : Word :=
  x.rotateRight 17 ^^^ x.rotateRight 19 ^^^ (x >>> 10)

/-- The first 32 bits of the fractional part of the `r`-th root of `n`. -/
def rootBits (r n : Nat) : Word :=
  BitVec.ofNat 32 (Nat.nthRoot r (n * 2 ^ (32 * r)))

/-- The first 64 primes. -/
def primes : List Nat :=
  (List.range 312).filter fun p => p.Prime

def K : List Word :=
  primes.map (rootBits 3)

/-- The hash value, and the eight working variables. -/
structure Words where
  (a b c d e f g h : Word)
  deriving DecidableEq

def initialHash : Words :=
  { a := rootBits 2 2, b := rootBits 2 3, c := rootBits 2 5, d := rootBits 2 7
    e := rootBits 2 11, f := rootBits 2 13, g := rootBits 2 17, h := rootBits 2 19 }

/-! ## Padding and parsing -/

/-- The number of zero bytes behind the byte that holds the closing one bit. -/
def zeroBytes (n : Nat) : Nat :=
  (119 - n % 64) % 64

/-- A 64-bit number, its most significant byte first. -/
def lengthBytes (l : Nat) : Bytes :=
  (List.range 8).map fun i => UInt8.ofNat (l / 256 ^ (7 - i))

def pad (m : Bytes) : Bytes :=
  m ++ (0x80 :: List.replicate (zeroBytes m.length) 0) ++ lengthBytes (8 * m.length)

/-- The blocks of 64 bytes. -/
def blocks (m : Bytes) : List Bytes :=
  (List.range (m.length / 64)).map fun i => (m.drop (64 * i)).take 64

/-- Word `t` of a block: four bytes, the most significant one first. -/
def messageWord (block : Bytes) (t : Nat) : Word :=
  (block.getD (4 * t) 0).toBitVec ++ (block.getD (4 * t + 1) 0).toBitVec ++
    (block.getD (4 * t + 2) 0).toBitVec ++ (block.getD (4 * t + 3) 0).toBitVec

/-! ## Hash computation -/

/-- The message schedule. -/
def W (block : Bytes) (t : Nat) : Word :=
  if t < 16 then messageWord block t
  else smallSigma1 (W block (t - 2)) + W block (t - 7) + smallSigma0 (W block (t - 15)) +
    W block (t - 16)
  termination_by t
  decreasing_by all_goals omega

def round (s : Words) (k w : Word) : Words :=
  let T1 := s.h + bigSigma1 s.e + Ch s.e s.f s.g + k + w
  let T2 := bigSigma0 s.a + Maj s.a s.b s.c
  { a := T1 + T2, b := s.a, c := s.b, d := s.c, e := s.d + T1, f := s.e, g := s.f, h := s.g }

def compress (H : Words) (block : Bytes) : Words :=
  let s := (List.range 64).foldl (fun s t => round s (K.getD t 0) (W block t)) H
  { a := H.a + s.a, b := H.b + s.b, c := H.c + s.c, d := H.d + s.d
    e := H.e + s.e, f := H.f + s.f, g := H.g + s.g, h := H.h + s.h }

def hash (m : Bytes) : Words :=
  (blocks (pad m)).foldl compress initialHash

/-! ## Hexadecimal -/

def hexDigit (d : Nat) : UInt8 :=
  (Bytes.ascii "0123456789abcdef").getD d 0

def hexWord (w : Word) : Bytes :=
  (List.range 8).map fun i => hexDigit (w.toNat / 16 ^ (7 - i) % 16)

/-- The digest as 64 lowercase hexadecimal digits. -/
def hexDigest (m : Bytes) : Bytes :=
  let H := hash m
  [H.a, H.b, H.c, H.d, H.e, H.f, H.g, H.h].flatMap hexWord

/-! ## Lengths -/

theorem length_lengthBytes (l : Nat) : (lengthBytes l).length = 8 := by
  rw [lengthBytes, List.length_map, List.length_range]

/-- The closing byte and the zeros fill a block up to the eight bytes of the length. -/
theorem zeroBytes_spec (n : Nat) : (n + 1 + zeroBytes n) % 64 = 56 ∧ zeroBytes n < 64 := by
  unfold zeroBytes
  omega

theorem length_pad (m : Bytes) : (pad m).length = m.length + zeroBytes m.length + 9 := by
  rw [pad, List.length_append, List.length_append, List.length_cons, List.length_replicate,
    length_lengthBytes]
  omega

theorem length_pad_mod (m : Bytes) : (pad m).length % 64 = 0 := by
  have hzeros := zeroBytes_spec m.length
  rw [length_pad]
  omega

/-- The blocks of a text that begins with whole blocks. -/
theorem blocks_append {x y : Bytes} (hx : x.length % 64 = 0) :
    blocks (x ++ y) = blocks x ++ blocks y := by
  have hcount : (x ++ y).length / 64 = x.length / 64 + y.length / 64 := by
    rw [List.length_append]
    omega
  unfold blocks
  rw [hcount, List.range_add, List.map_append, List.map_map]
  congr 1
  · refine List.map_congr_left ?_
    intro i hi
    have hlt := List.mem_range.1 hi
    rw [List.drop_append_of_le_length (by omega), List.take_append_of_le_length]
    rw [List.length_drop]
    omega
  · refine List.map_congr_left ?_
    intro i _
    have hdrop : 64 * (x.length / 64 + i) = x.length + 64 * i := by omega
    rw [Function.comp_apply, hdrop, ← List.drop_drop, List.drop_left]

theorem blocks_single {x : Bytes} (hx : x.length = 64) : blocks x = [x] := by
  rw [blocks, hx]
  simp [List.take_of_length_le hx.le]

end Fips180
