import Dfs.Common.Sha256
import Dfs.Library.Fips180

/-!
# The source computes SHA-256

`sha256` hashes full blocks through a buffer and builds the last one or two blocks in it; the
standard pads first and parses then.  The two agree on every message whose length in bits fits the
64 bits that are written for it (`sha256_correct`), and no access to the buffer leaves its 64 bytes:
`digestChecked` is the program of the source with every access checked.
-/

namespace Dfs
namespace Common

open Bytes Sha256

/-! ## The compression function -/

/-- The state as the standard's hash value. -/
def Sha256State.words (s : Sha256State) : Fips180.Words :=
  { a := s.a.toBitVec, b := s.b.toBitVec, c := s.c.toBitVec, d := s.d.toBitVec
    e := s.e.toBitVec, f := s.f.toBitVec, g := s.g.toBitVec, h := s.h.toBitVec }

theorem sig0_eq (x : UInt32) : (sig0 x).toBitVec = Fips180.bigSigma0 x.toBitVec := rfl

theorem sig1_eq (x : UInt32) : (sig1 x).toBitVec = Fips180.bigSigma1 x.toBitVec := rfl

theorem gam0_eq (x : UInt32) : (gam0 x).toBitVec = Fips180.smallSigma0 x.toBitVec := rfl

theorem gam1_eq (x : UInt32) : (gam1 x).toBitVec = Fips180.smallSigma1 x.toBitVec := rfl

theorem k_eq : k.map UInt32.toBitVec = Fips180.K := by
  decide +kernel

theorem initialState_eq : initialState.words = Fips180.initialHash := by
  decide +kernel

theorem messageWord_eq (block : Bytes) (t : Nat) :
    (messageWord block t).toBitVec = Fips180.messageWord block t := by
  unfold messageWord Fips180.messageWord
  rw [Nat.mul_comm t 4]
  generalize block.getD (4 * t) 0 = b₀
  generalize block.getD (4 * t + 1) 0 = b₁
  generalize block.getD (4 * t + 2) 0 = b₂
  generalize block.getD (4 * t + 3) 0 = b₃
  refine BitVec.eq_of_getLsbD_eq fun i hi => ?_
  simp only [UInt32.toBitVec_or, UInt32.toBitVec_shiftLeft, UInt8.toBitVec_toUInt32,
    BitVec.getLsbD_or, BitVec.getLsbD_append]
  interval_cases i <;> simp

/-- The words of the schedule, as the standard's recurrence has them. -/
def scheduleWord (block : Bytes) (t : Nat) : UInt32 :=
  ⟨Fips180.W block t⟩

theorem scheduleWord_lt (block : Bytes) {t : Nat} (ht : t < 16) :
    scheduleWord block t = messageWord block t := by
  apply UInt32.toBitVec_inj.1
  rw [messageWord_eq]
  show Fips180.W block t = Fips180.messageWord block t
  rw [Fips180.W, if_pos ht]

theorem scheduleWord_ge (block : Bytes) {t : Nat} (ht : 16 ≤ t) :
    scheduleWord block t = gam1 (scheduleWord block (t - 2)) + scheduleWord block (t - 7) +
      gam0 (scheduleWord block (t - 15)) + scheduleWord block (t - 16) := by
  apply UInt32.toBitVec_inj.1
  show Fips180.W block t = Fips180.smallSigma1 (Fips180.W block (t - 2)) +
    Fips180.W block (t - 7) + Fips180.smallSigma0 (Fips180.W block (t - 15)) +
    Fips180.W block (t - 16)
  conv_lhs => rw [Fips180.W, if_neg (by omega)]

/-- The loop appends word after word. -/
theorem extendSchedule_repeat (block : Bytes) (n : Nat) :
    Nat.repeat extendSchedule n ((List.range 16).map (messageWord block)) =
      (List.range (16 + n)).map (scheduleWord block) := by
  induction n with
  | zero =>
      refine List.map_congr_left ?_
      intro t ht
      exact (scheduleWord_lt block (List.mem_range.1 ht)).symm
  | succ n ih =>
      have hget : ∀ t < 16 + n, ((List.range (16 + n)).map (scheduleWord block)).getD t 0 =
          scheduleWord block t := by
        intro t ht
        rw [List.getD_eq_getElem _ _ (by simpa using ht), List.getElem_map, List.getElem_range]
      have hlength : ((List.range (16 + n)).map (scheduleWord block)).length = 16 + n := by
        rw [List.length_map, List.length_range]
      rw [Nat.repeat, ih, extendSchedule, hlength, hget _ (by omega), hget _ (by omega),
        hget _ (by omega), hget _ (by omega), ← scheduleWord_ge block (by omega), ← Nat.add_assoc,
        List.range_succ, List.map_append, List.map_singleton]

theorem round_words (s : Sha256State) (kt wt : UInt32) :
    (round s (kt, wt)).words = Fips180.round s.words kt.toBitVec wt.toBitVec := rfl

/-- `sha256_transform` is the compression function, on any state and any block. -/
theorem sha256Transform_words (s : Sha256State) (block : Bytes) :
    (sha256Transform s block).words = Fips180.compress s.words block := by
  have hschedule : schedule block = (List.range 64).map (scheduleWord block) :=
    extendSchedule_repeat block 48
  have hk : k = (List.range 64).map fun t => k.getD t 0 := by decide +kernel
  have hK : ∀ t, Fips180.K.getD t 0 = (k.getD t 0).toBitVec := by
    intro t
    have hzero : (0 : Fips180.Word) = UInt32.toBitVec 0 := rfl
    rw [← k_eq, hzero, List.getD_map]
  have hrounds : ∀ (ts : List Nat) (s : Sha256State),
      ((ts.map fun t => (k.getD t 0, scheduleWord block t)).foldl round s).words =
        ts.foldl (fun s t => Fips180.round s (Fips180.K.getD t 0) (Fips180.W block t)) s.words := by
    intro ts
    induction ts with
    | nil => exact fun _ => rfl
    | cons t ts ih =>
        intro s
        rw [List.map_cons, List.foldl_cons, List.foldl_cons, ih, round_words, hK]
        rfl
  have hzip : k.zip (schedule block) =
      (List.range 64).map fun t => (k.getD t 0, scheduleWord block t) := by
    rw [hschedule]
    conv_lhs => rw [hk]
    rw [List.zip_map']
  have hall := hrounds (List.range 64) s
  unfold sha256Transform Fips180.compress
  rw [hzip, ← hall]
  rfl

/-! ## The block buffer -/

theorem length_memcpy {block src : Bytes} (hblock : block.length = 64) (hsrc : src.length ≤ 64) :
    (memcpy block src).length = 64 := by
  rw [memcpy, List.length_append, List.length_drop]
  omega

/-- A full block overwrites the whole buffer. -/
theorem memcpy_full {block src : Bytes} (hblock : block.length = 64) (hsrc : src.length = 64) :
    memcpy block src = src := by
  rw [memcpy, List.drop_of_length_le (by omega), List.append_nil]

/-- The tail of the message and the closing byte. -/
theorem memcpy_set {block src : Bytes} (hsrc : src.length < block.length) (b : UInt8) :
    (memcpy block src).set src.length b = src ++ b :: block.drop (src.length + 1) := by
  rw [memcpy, List.set_append_right _ _ (le_refl _), Nat.sub_self, List.drop_eq_getElem_cons hsrc,
    List.set_cons_zero]

theorem zeroFill_eq {block : Bytes} {rem until_ : Nat} (hrem : rem ≤ until_)
    (huntil : until_ ≤ block.length) :
    zeroFill block rem until_ =
      block.take rem ++ List.replicate (until_ - rem) 0 ++ block.drop until_ := by
  unfold zeroFill
  obtain ⟨n, rfl⟩ : ∃ n, until_ = rem + n := ⟨until_ - rem, by omega⟩
  rw [Nat.add_sub_cancel_left]
  induction n with
  | zero => simp
  | succ n ih =>
      -- Zero number `n` goes right behind the zeros before it.
      have hlt : rem + n < block.length := by omega
      have hfront : (block.take rem ++ List.replicate n (0 : UInt8)).length = rem + n := by
        rw [List.length_append, List.length_take, List.length_replicate]
        omega
      rw [List.range'_concat, List.foldl_append, List.foldl_cons, List.foldl_nil,
        ih (by omega) (by omega), Nat.one_mul, List.set_append_right _ _ (by omega), hfront, Nat.sub_self,
        List.drop_eq_getElem_cons hlt, List.set_cons_zero, List.replicate_succ', Nat.add_assoc]
      simp

/-- The loop writes `j` bytes, the last one first. -/
theorem writeBitLen_bytes {block : Bytes} {j : Nat} (hblock : 56 + j ≤ block.length) (l : UInt64) :
    writeBitLen j l block =
      block.take 56 ++ (List.range j).map (fun i => UInt8.ofNat (l.toNat / 256 ^ (j - 1 - i))) ++
        block.drop (56 + j) := by
  induction j generalizing l block with
  | zero => simp [writeBitLen]
  | succ j ih =>
      have hlt : 56 + j < block.length := by omega
      have hshift : (l >>> 8).toNat = l.toNat / 256 := by
        simp [UInt64.toNat_shiftRight, Nat.shiftRight_eq_div_pow]
      have hset : (block.set (56 + j) l.toUInt8).drop (56 + j) =
          l.toUInt8 :: block.drop (56 + (j + 1)) := by
        rw [List.drop_set, if_neg (lt_irrefl _), Nat.sub_self, List.drop_eq_getElem_cons hlt,
          List.set_cons_zero, Nat.add_assoc]
      have hbyte : l.toUInt8 = UInt8.ofNat (l.toNat / 256 ^ (j + 1 - 1 - j)) := by
        rw [Nat.add_sub_cancel, Nat.sub_self, pow_zero, Nat.div_one]
        rfl
      have hbytes : (List.range j).map (fun i => UInt8.ofNat (l.toNat / 256 / 256 ^ (j - 1 - i))) =
          (List.range j).map fun i => UInt8.ofNat (l.toNat / 256 ^ (j + 1 - 1 - i)) := by
        refine List.map_congr_left ?_
        intro i hi
        have hlt := List.mem_range.1 hi
        have hexp : j + 1 - 1 - i = (j - 1 - i) + 1 := by omega
        rw [Nat.div_div_eq_div_mul, hexp, pow_succ']
      rw [writeBitLen, ih (by rw [List.length_set]; omega), hshift, hset, hbytes,
        List.take_set_of_le (by omega), List.range_succ, List.map_append, List.map_singleton,
        ← hbyte]
      simp

theorem writeBitLen_eq {block : Bytes} (hblock : block.length = 64) (l : UInt64) :
    writeBitLen 8 l block = block.take 56 ++ Fips180.lengthBytes l.toNat := by
  rw [writeBitLen_bytes (by omega), List.drop_of_length_le (by omega), List.append_nil]
  rfl

/-! ## The digest -/

/-- The loop over the full blocks, from block `j` on. -/
theorem absorb_blocks {data : Bytes} {fuel j : Nat} {state : Sha256State} {block : Bytes}
    (hfuel : data.length / 64 < j + fuel) (hj : j ≤ data.length / 64)
    (hblock : block.length = 64) :
    ∃ state' block', absorb data fuel (64 * j) state block =
        (64 * (data.length / 64), state', block') ∧ block'.length = 64 ∧
      state'.words = ((Fips180.blocks data).drop j).foldl Fips180.compress state.words := by
  induction fuel generalizing j state block with
  | zero => omega
  | succ fuel ih =>
      rw [absorb]
      by_cases hmore : 64 * j + 64 ≤ data.length
      · have hlt : j < (Fips180.blocks data).length := by
          rw [Fips180.blocks, List.length_map, List.length_range]
          omega
        have hpiece : ((data.drop (64 * j)).take 64).length = 64 := by
          rw [List.length_take, List.length_drop]
          omega
        have hget : (Fips180.blocks data)[j] = (data.drop (64 * j)).take 64 := by
          simp only [Fips180.blocks, List.getElem_map, List.getElem_range]
        rw [if_pos hmore, memcpy_full hblock hpiece, ← Nat.mul_succ]
        rcases @ih (j + 1) (sha256Transform state ((data.drop (64 * j)).take 64))
          ((data.drop (64 * j)).take 64) (by omega) (by omega) hpiece with
          ⟨state', block', heq, hlength, hwords⟩
        refine ⟨state', block', heq, hlength, ?_⟩
        rw [hwords, sha256Transform_words, List.drop_eq_getElem_cons hlt, List.foldl_cons, hget]
      · have hlast : j = data.length / 64 := by omega
        rw [if_neg hmore]
        refine ⟨state, block, by rw [hlast], hblock, ?_⟩
        rw [List.drop_of_length_le, List.foldl_nil]
        rw [Fips180.blocks, List.length_map, List.length_range, hlast]

/-- The blocks of the padded message: those of the message, and those of its tail. -/
theorem blocks_pad (data : Bytes) :
    Fips180.blocks (Fips180.pad data) = Fips180.blocks data ++
      Fips180.blocks (data.drop (64 * (data.length / 64)) ++
        (0x80 :: List.replicate (Fips180.zeroBytes data.length) 0) ++
        Fips180.lengthBytes (8 * data.length)) := by
  have hfull : (data.take (64 * (data.length / 64))).length % 64 = 0 := by
    rw [List.length_take]
    omega
  have htail : Fips180.blocks (data.drop (64 * (data.length / 64))) = [] := by
    have hshort : (data.drop (64 * (data.length / 64))).length / 64 = 0 := by
      rw [List.length_drop]
      omega
    rw [Fips180.blocks, hshort]
    rfl
  have hblocks : Fips180.blocks data = Fips180.blocks (data.take (64 * (data.length / 64))) := by
    conv_lhs => rw [← List.take_append_drop (64 * (data.length / 64)) data]
    rw [Fips180.blocks_append hfull, htail, List.append_nil]
  rw [hblocks, ← Fips180.blocks_append hfull, ← List.append_assoc, ← List.append_assoc,
    List.take_append_drop, Fips180.pad]

theorem take_closed (tail rest : Bytes) :
    (tail ++ 0x80 :: rest).take (tail.length + 1) = tail ++ [0x80] := by
  rw [List.take_append, List.take_of_length_le (Nat.le_succ _), Nat.add_sub_cancel_left]
  rfl

section

variable {tail rest : Bytes} (hlength : (tail ++ 0x80 :: rest).length = 64)
include hlength

/-- The closing byte leaves room for the length: one block. -/
theorem lastBlock_short (hshort : tail.length + 1 ≤ 56) (l : UInt64) :
    writeBitLen 8 l (zeroFill (tail ++ 0x80 :: rest) (tail.length + 1) 56) =
      tail ++ 0x80 :: List.replicate (55 - tail.length) 0 ++ Fips180.lengthBytes l.toNat := by
  have hzeros : 56 - (tail.length + 1) = 55 - tail.length := by omega
  have hfill : (zeroFill (tail ++ 0x80 :: rest) (tail.length + 1) 56) =
      (tail ++ 0x80 :: List.replicate (55 - tail.length) 0) ++
        (tail ++ 0x80 :: rest).drop 56 := by
    rw [zeroFill_eq hshort (by omega), take_closed, hzeros]
    simp
  have hfront : (tail ++ (0x80 : UInt8) :: List.replicate (55 - tail.length) 0).length = 56 := by
    rw [List.length_append, List.length_cons, List.length_replicate]
    omega
  have htotal : ((tail ++ (0x80 : UInt8) :: List.replicate (55 - tail.length) 0) ++
      (tail ++ 0x80 :: rest).drop 56).length = 64 := by
    rw [List.length_append, hfront, List.length_drop, hlength]
  rw [hfill, writeBitLen_eq htotal, List.take_left' hfront]

/-- It does not: the zeros fill this block, and the next one up to the length. -/
theorem lastBlock_long (hlong : 56 < tail.length + 1) (l : UInt64) :
    zeroFill (tail ++ 0x80 :: rest) (tail.length + 1) 64 =
        tail ++ 0x80 :: List.replicate (63 - tail.length) 0 ∧
      writeBitLen 8 l (zeroFill (tail ++ 0x80 :: List.replicate (63 - tail.length) 0) 0 56) =
        List.replicate 56 0 ++ Fips180.lengthBytes l.toNat := by
  have htail : tail.length < 64 := by
    rw [List.length_append, List.length_cons] at hlength
    omega
  have hzeros : 64 - (tail.length + 1) = 63 - tail.length := by omega
  have hfirst : (tail ++ (0x80 : UInt8) :: List.replicate (63 - tail.length) 0).length = 64 := by
    rw [List.length_append, List.length_cons, List.length_replicate]
    omega
  have hsecond : (List.replicate 56 (0 : UInt8) ++
      (tail ++ (0x80 : UInt8) :: List.replicate (63 - tail.length) 0).drop 56).length = 64 := by
    rw [List.length_append, List.length_replicate, List.length_drop, hfirst]
  refine ⟨?_, ?_⟩
  · rw [zeroFill_eq (by omega) (by omega), take_closed, hzeros,
      List.drop_of_length_le (by omega)]
    simp
  · rw [zeroFill_eq (by omega) (by omega), List.take_zero, List.nil_append, Nat.sub_zero,
      writeBitLen_eq hsecond, List.take_left' (List.length_replicate)]

end

/-- The digest is the hash of the standard. -/
theorem digest_words {data : Bytes} (hdata : data.length < 2 ^ 61) :
    (digest data).words = Fips180.hash data := by
  have hstart : initialBlock.length = 64 := rfl
  rcases @absorb_blocks data (data.length / 64 + 1) 0 initialState initialBlock (by omega)
    (Nat.zero_le _) hstart with ⟨state, block, habsorb, hblock, hstate⟩
  rw [Nat.mul_zero] at habsorb
  rw [List.drop_zero, initialState_eq] at hstate
  have hbits : (UInt64.ofNat (data.length * 8)).toNat = 8 * data.length := by
    rw [UInt64.toNat_ofNat']
    omega
  obtain ⟨tail, htail⟩ : ∃ tail, tail = data.drop (64 * (data.length / 64)) := ⟨_, rfl⟩
  have hrem : data.length - 64 * (data.length / 64) = tail.length := by
    rw [htail, List.length_drop]
  have hlt : tail.length < 64 := by
    rw [htail, List.length_drop]
    omega
  have hmod : data.length % 64 = tail.length := by omega
  have hset := @memcpy_set block tail (by omega) 0x80
  rw [Fips180.hash, blocks_pad, List.foldl_append, ← hstate, ← htail]
  have hbuffer : (tail ++ 0x80 :: block.drop (tail.length + 1)).length = 64 := by
    rw [List.length_append, List.length_cons, List.length_drop]
    omega
  simp only [digest, habsorb, hrem, hset, ← htail]
  by_cases hlong : 56 < tail.length + 1
  · have hzeros : Fips180.zeroBytes data.length = (63 - tail.length) + 56 := by
      rw [Fips180.zeroBytes, hmod]
      omega
    have hfirst : (tail ++ (0x80 : UInt8) :: List.replicate (63 - tail.length) 0).length = 64 := by
      rw [List.length_append, List.length_cons, List.length_replicate]
      omega
    have hsecond : (List.replicate 56 (0 : UInt8) ++
        Fips180.lengthBytes (8 * data.length)).length = 64 := by
      rw [List.length_append, List.length_replicate, Fips180.length_lengthBytes]
    have hsplit : tail ++ (0x80 :: List.replicate (Fips180.zeroBytes data.length) 0) ++
        Fips180.lengthBytes (8 * data.length) =
        (tail ++ 0x80 :: List.replicate (63 - tail.length) 0) ++
          (List.replicate 56 0 ++ Fips180.lengthBytes (8 * data.length)) := by
      rw [hzeros, List.replicate_add]
      simp
    rcases lastBlock_long hbuffer hlong (UInt64.ofNat (data.length * 8)) with ⟨hpad, hlast⟩
    rw [if_pos hlong]
    simp only [hpad, hlast, hbits]
    rw [hsplit, Fips180.blocks_append (by rw [hfirst]), Fips180.blocks_single hfirst,
      Fips180.blocks_single hsecond, sha256Transform_words, sha256Transform_words]
    rfl
  · have hzeros : Fips180.zeroBytes data.length = 55 - tail.length := by
      rw [Fips180.zeroBytes, hmod]
      omega
    have hlast := lastBlock_short hbuffer (by omega) (UInt64.ofNat (data.length * 8))
    have hwhole : (tail ++ (0x80 :: List.replicate (55 - tail.length) 0) ++
        Fips180.lengthBytes (8 * data.length)).length = 64 := by
      rw [List.length_append, List.length_append, List.length_cons, List.length_replicate,
        Fips180.length_lengthBytes]
      omega
    rw [if_neg hlong]
    simp only [hlast, hbits, hzeros]
    rw [Fips180.blocks_single hwhole, sha256Transform_words]
    rfl

/-! ## Hex output -/

theorem hexDigit_eq {v : UInt32} (hv : v.toNat < 16) : hexDigit v = Fips180.hexDigit v.toNat := by
  have hofNat : v = UInt32.ofNat v.toNat := by simp
  rw [hofNat]
  generalize v.toNat = n at hv
  interval_cases n <;> decide

/-- The two digits of one byte of a word. -/
theorem hexByte_eq (v : UInt32) {s : UInt32} (hs : s.toNat < 32) :
    hexByte ((v >>> s) &&& 0xff) =
      [Fips180.hexDigit (v.toNat / 2 ^ s.toNat % 256 / 16),
        Fips180.hexDigit (v.toNat / 2 ^ s.toNat % 256 % 16)] := by
  have hbyte : ((v >>> s) &&& 0xff).toNat = v.toNat / 2 ^ s.toNat % 256 := by
    rw [UInt32.toNat_and, UInt32.toNat_shiftRight, Nat.mod_eq_of_lt hs, Nat.shiftRight_eq_div_pow]
    exact Nat.and_two_pow_sub_one_eq_mod _ 8
  have hhigh : (((v >>> s) &&& 0xff) >>> 4).toNat = v.toNat / 2 ^ s.toNat % 256 / 16 := by
    rw [UInt32.toNat_shiftRight, hbyte, Nat.shiftRight_eq_div_pow]
    rfl
  have hlow : (((v >>> s) &&& 0xff) &&& 15).toNat = v.toNat / 2 ^ s.toNat % 256 % 16 := by
    rw [UInt32.toNat_and, hbyte]
    exact Nat.and_two_pow_sub_one_eq_mod _ 4
  rw [hexByte, hexDigit_eq (by omega), hexDigit_eq (by omega), hhigh, hlow]

theorem hexWord_eq (v : UInt32) : hexWord v = Fips180.hexWord v.toBitVec := by
  have hdigits : Fips180.hexWord v.toBitVec =
      [7, 6, 5, 4, 3, 2, 1, 0].map fun e => Fips180.hexDigit (v.toNat / 16 ^ e % 16) := rfl
  rw [hdigits, hexWord]
  simp only [List.flatMap_cons, List.flatMap_nil, List.append_nil, List.map_cons, List.map_nil]
  rw [hexByte_eq v (by decide), hexByte_eq v (by decide), hexByte_eq v (by decide),
    hexByte_eq v (by decide)]
  simp only [List.cons_append, List.nil_append, UInt32.reduceToNat, List.cons.injEq, and_true]
  refine ⟨?_, ?_, ?_, ?_, ?_, ?_, ?_, ?_⟩ <;> congr 1 <;> omega

theorem sha256_eq {data : Bytes} (hdata : data.length < 2 ^ 61) :
    sha256 data = Fips180.hexDigest data := by
  unfold sha256 Fips180.hexDigest
  rw [← digest_words hdata]
  simp only [Sha256State.words, List.flatMap_cons, List.flatMap_nil, hexWord_eq]

/-! ## Accesses to the buffer -/

/-- `block[i] = b`, where `block` has an element `i`. -/
def setChecked (block : Bytes) (i : Nat) (b : UInt8) : Option Bytes :=
  if i < 64 then some (block.set i b) else none

/-- `memcpy(block, src, src.size())`, where `block` has room for it. -/
def memcpyChecked (block src : Bytes) : Option Bytes :=
  if src.length ≤ 64 then some (memcpy block src) else none

/-- The four reads of `w[i]`. -/
def messageWordChecked (block : Bytes) (i : Nat) : Option UInt32 :=
  if i * 4 < 64 ∧ i * 4 + 1 < 64 ∧ i * 4 + 2 < 64 ∧ i * 4 + 3 < 64 then some (messageWord block i)
  else none

/-- `sha256_transform`, which reads the buffer in its first loop only. -/
def transformChecked (state : Sha256State) (block : Bytes) : Option Sha256State := do
  let words ← (List.range 16).mapM (messageWordChecked block)
  let s := (k.zip (Nat.repeat extendSchedule 48 words)).foldl round state
  some
    { a := state.a + s.a, b := state.b + s.b, c := state.c + s.c, d := state.d + s.d
      e := state.e + s.e, f := state.f + s.f, g := state.g + s.g, h := state.h + s.h }

def absorbChecked (data : Bytes) : Nat → Nat → Sha256State → Bytes →
    Option (Nat × Sha256State × Bytes)
  | 0, i, state, block => some (i, state, block)
  | fuel + 1, i, state, block =>
      if i + 64 ≤ data.length then do
        let block ← memcpyChecked block ((data.drop i).take 64)
        let state ← transformChecked state block
        absorbChecked data fuel (i + 64) state block
      else some (i, state, block)

def zeroFillChecked (block : Bytes) (rem until_ : Nat) : Option Bytes :=
  (List.range' rem (until_ - rem)).foldlM (fun b i => setChecked b i 0) block

def writeBitLenChecked : Nat → UInt64 → Bytes → Option Bytes
  | 0, _, block => some block
  | j + 1, bitLen, block =>
      (setChecked block (56 + j) bitLen.toUInt8).bind (writeBitLenChecked j (bitLen >>> 8))

/-- `sha256` up to the hex output, with every access to the buffer checked. -/
def digestChecked (data : Bytes) : Option Sha256State := do
  let (i, state, block) ← absorbChecked data (data.length / 64 + 1) 0 initialState initialBlock
  let rem := data.length - i
  let block ← memcpyChecked block (data.drop i)
  let block ← setChecked block rem 0x80
  let rem := rem + 1
  let (state, block, rem) ←
    if rem > 56 then do
      let block ← zeroFillChecked block rem 64
      let state ← transformChecked state block
      pure (state, block, 0)
    else pure (state, block, rem)
  let block ← zeroFillChecked block rem 56
  let block ← writeBitLenChecked 8 (UInt64.ofNat (data.length * 8)) block
  transformChecked state block

theorem setChecked_of_lt {block : Bytes} {i : Nat} (hi : i < 64) (b : UInt8) :
    setChecked block i b = some (block.set i b) :=
  if_pos hi

theorem memcpyChecked_of_le {block src : Bytes} (hsrc : src.length ≤ 64) :
    memcpyChecked block src = some (memcpy block src) :=
  if_pos hsrc

theorem transformChecked_eq (state : Sha256State) (block : Bytes) :
    transformChecked state block = some (sha256Transform state block) := by
  have hall : ∀ is : List Nat, (∀ i ∈ is, i < 16) →
      is.mapM (messageWordChecked block) = some (is.map (messageWord block)) := by
    intro is
    induction is with
    | nil => exact fun _ => rfl
    | cons i is ih =>
        intro his
        have hi : i < 16 := his i (by simp)
        have hread : messageWordChecked block i = some (messageWord block i) :=
          if_pos ⟨by omega, by omega, by omega, by omega⟩
        rw [List.mapM_cons, hread, ih fun j hj => his j (by simp [hj])]
        rfl
  rw [transformChecked, hall (List.range 16) fun i hi => List.mem_range.1 hi]
  rfl

theorem absorbChecked_eq (data : Bytes) (fuel i : Nat) (state : Sha256State) (block : Bytes) :
    absorbChecked data fuel i state block = some (absorb data fuel i state block) := by
  induction fuel generalizing i state block with
  | zero => rfl
  | succ fuel ih =>
      rw [absorbChecked, absorb]
      by_cases hmore : i + 64 ≤ data.length
      · have hpiece : ((data.drop i).take 64).length ≤ 64 := List.length_take_le _ _
        simp only [if_pos hmore, memcpyChecked_of_le hpiece, transformChecked_eq, ih,
          Option.bind_eq_bind, Option.bind_some]
      · rw [if_neg hmore, if_neg hmore]

theorem zeroFillChecked_eq {rem until_ : Nat} (huntil : until_ ≤ 64) (block : Bytes) :
    zeroFillChecked block rem until_ = some (zeroFill block rem until_) := by
  have hall : ∀ (is : List Nat) (b : Bytes), (∀ i ∈ is, i < 64) →
      is.foldlM (fun b i => setChecked b i 0) b = some (is.foldl (fun b i => b.set i 0) b) := by
    intro is
    induction is with
    | nil => exact fun _ _ => rfl
    | cons i is ih =>
        intro b his
        rw [List.foldlM_cons, setChecked_of_lt (his i (by simp)), List.foldl_cons]
        exact ih (b.set i 0) fun j hj => his j (by simp [hj])
  refine hall _ block fun i hi => ?_
  have hmem := List.mem_range'_1.1 hi
  omega

theorem writeBitLenChecked_eq {j : Nat} (hj : j ≤ 8) (l : UInt64) (block : Bytes) :
    writeBitLenChecked j l block = some (writeBitLen j l block) := by
  induction j generalizing l block with
  | zero => rfl
  | succ j ih =>
      rw [writeBitLenChecked, setChecked_of_lt (by omega), Option.bind_some, ih (by omega),
        writeBitLen]

/-- No access leaves the buffer. -/
theorem digestChecked_eq (data : Bytes) : digestChecked data = some (digest data) := by
  rcases @absorb_blocks data (data.length / 64 + 1) 0 initialState initialBlock (by omega)
    (Nat.zero_le _) rfl with ⟨state, block, habsorb, _, _⟩
  rw [Nat.mul_zero] at habsorb
  have htail : (data.drop (64 * (data.length / 64))).length ≤ 64 := by
    rw [List.length_drop]
    omega
  have hrem : data.length - 64 * (data.length / 64) < 64 := by omega
  simp only [digestChecked, digest, absorbChecked_eq, habsorb, memcpyChecked_of_le htail,
    setChecked_of_lt hrem, Option.bind_eq_bind, Option.bind_some]
  by_cases hlong : data.length - 64 * (data.length / 64) + 1 > 56
  · simp only [if_pos hlong, zeroFillChecked_eq (le_refl 64), transformChecked_eq,
      Option.bind_some, Option.pure_def, zeroFillChecked_eq (show 56 ≤ 64 by decide),
      writeBitLenChecked_eq (le_refl 8)]
  · simp only [if_neg hlong, Option.bind_some, Option.pure_def, transformChecked_eq,
      zeroFillChecked_eq (show 56 ≤ 64 by decide), writeBitLenChecked_eq (le_refl 8)]

/-- `sha256` is the SHA-256 of the standard for every message of fewer than `2 ^ 61` bytes, and
stays within its buffer. -/
theorem sha256_correct (data : Bytes) (hdata : data.length < 2 ^ 61) :
    sha256 data = Fips180.hexDigest data ∧ (Fips180.pad data).length % 64 = 0 ∧
      digestChecked data = some (digest data) :=
  ⟨sha256_eq hdata, Fips180.length_pad_mod data, digestChecked_eq data⟩

/-- The example of the standard with one block. -/
theorem sha256_correct_abc :
    sha256 (ascii "abc") = Fips180.hexDigest (ascii "abc") ∧
      (Fips180.pad (ascii "abc")).length % 64 = 0 ∧
      digestChecked (ascii "abc") = some (digest (ascii "abc")) :=
  sha256_correct (ascii "abc") (by decide)

example : sha256 (ascii "abc") =
    ascii "ba7816bf8f01cfea414140de5dae2223b00361a396177a9cb410ff61f20015ad" := by
  decide +kernel

end Common
end Dfs
