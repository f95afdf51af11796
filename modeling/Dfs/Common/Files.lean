import Dfs.Common.Sha256

/-!
# Chunks and local files

The chunk record, its hashes, and the two file routines: `splitFileIntoChunks` on a stream that
may stop early on a read error, and `reconstructFile` on an output stream that may refuse bytes.
-/

namespace Dfs
namespace Common

structure Chunk where
  index : Int
  hash : Bytes
  data : Bytes
  size : Int
  deriving DecidableEq

/-! ## Hashing -/

def computeSHA256 (data : Bytes) : Bytes :=
  sha256 data

def hashChunk (chunk : Chunk) : Chunk :=
  { chunk with hash := computeSHA256 (chunk.data.take chunk.size.toNat) }

def hashAllChunks (chunks : List Chunk) : List Chunk :=
  chunks.map hashChunk

def computeRootHash (chunkHashes : List Bytes) : Bytes :=
  computeSHA256 chunkHashes.flatten

/-! ## Reading -/

def CHUNK_SIZE : Nat :=
  1048576

/-- A `std::ifstream`: the bytes not yet delivered, after how many of them the device reports an
error (`none`: never; after all of them, the error comes in place of the end of the file), and
whether the stream is still good. -/
structure IFStream where
  rest : Bytes
  fault : Option Nat
  good : Bool

/-- `file.read(buf, n)`: the bytes put into the buffer (`gcount()` is their number) and the
stream.  A device error discards what the call had read and sets `badbit`. -/
def IFStream.read (s : IFStream) (n : Nat) : Bytes × IFStream :=
  if s.good then
    match s.fault with
    | none => (s.rest.take n, { s with rest := s.rest.drop n, good := n ≤ s.rest.length })
    | some d =>
        if d < n ∧ d ≤ s.rest.length then ([], { s with good := false })
        else (s.rest.take n,
          { rest := s.rest.drop n, fault := some (d - n), good := n ≤ s.rest.length })
  else ([], s)

theorem IFStream.read_shrinks {s : IFStream} {n : Nat} (h : 0 < (s.read n).1.length) :
    (s.read n).2.rest.length < s.rest.length := by
  have htake : 0 < (s.rest.take n).length → (s.rest.drop n).length < s.rest.length := by
    intro hpos
    simp only [List.length_take, List.length_drop] at hpos ⊢
    omega
  revert h
  unfold IFStream.read
  repeat' split
  all_goals simp_all

theorem IFStream.read_good {s : IFStream} {n : Nat} (hn : 0 < n) (h : (s.read n).2.good = true) :
    0 < (s.read n).1.length := by
  have htake : n ≤ s.rest.length → 0 < (s.rest.take n).length := by
    intro hle
    rw [List.length_take]
    omega
  revert h
  unfold IFStream.read
  split
  · split
    · simpa using htake
    · split
      · simp
      · simpa using htake
  · simp_all

/-- The read loop of `splitFileIntoChunks`. -/
def readLoop (s : IFStream) (index : Int) : List Chunk :=
  if (s.read CHUNK_SIZE).2.good ∨ 0 < (s.read CHUNK_SIZE).1.length then
    { index := index
      hash := []
      data := (s.read CHUNK_SIZE).1
      size := toInt32 (s.read CHUNK_SIZE).1.length } :: readLoop (s.read CHUNK_SIZE).2 (index + 1)
  else []
termination_by s.rest.length
decreasing_by
  rename_i h
  -- A read that leaves the stream good has delivered a whole chunk.
  have hread : 0 < (s.read CHUNK_SIZE).1.length := by
    rcases h with hgood | hsome
    · exact IFStream.read_good (by decide) hgood
    · exact hsome
  exact IFStream.read_shrinks hread

/-- `splitFileIntoChunks`; `none` is a file that cannot be opened. -/
def splitFileIntoChunks : Option IFStream → List Chunk
  | none => []
  | some file => readLoop file 0

/-- A readable file on a healthy disk. -/
def IFStream.ofContent (content : Bytes) : IFStream :=
  { rest := content
    fault := none
    good := true }

/-! ## Writing -/

/-- The output path: whether the file can be created there, and for how many bytes the device has
room (`none`: no limit). -/
structure OutputFile where
  creatable : Bool
  room : Option Nat

/-- A path where a file can be written, on a device with room. -/
def OutputFile.healthy : OutputFile :=
  { creatable := true
    room := none }

/-- A `std::ofstream`: what each `write` put into the file, at the latest when the stream is
closed.  An error of that last flush is, like one of a `write`, the device running out of room. -/
structure OFStream where
  pieces : List Bytes
  good : Bool
  room : Option Nat

/-- `out.write(data, n)`: nothing is written to a stream that is no longer good, and a negative
count writes nothing and sets `badbit`. -/
def OFStream.write (out : OFStream) (data : Bytes) (n : Int) : OFStream :=
  if out.good = false then { out with pieces := out.pieces ++ [[]] }
  else if n < 0 then { out with pieces := out.pieces ++ [[]], good := false }
  else
    let bytes := data.take n.toNat
    match out.room with
    | none => { out with pieces := out.pieces ++ [bytes] }
    | some r =>
        if bytes.length ≤ r then
          { out with pieces := out.pieces ++ [bytes], room := some (r - bytes.length) }
        else
          { pieces := out.pieces ++ [bytes.take r], good := false, room := some 0 }

/-- `reconstructFile`: its result, and what it wrote if it opened the output at all. -/
def reconstructFile (chunks : List Chunk) (output : OutputFile) : Bool × Option (List Bytes) :=
  if chunks = [] then (false, none)
  else
    let sortedChunks := chunks.mergeSort fun a b => a.index ≤ b.index
    if sortedChunks.map Chunk.index ≠ (List.range sortedChunks.length).map Int.ofNat then
      (false, none)
    else if output.creatable = false then (false, none)
    else
      let out : OFStream := { pieces := [], good := true, room := output.room }
      (true, some (sortedChunks.foldl (fun out chunk => out.write chunk.data chunk.size) out).pieces)

/-! ## Splitting -/

/-- One chunk of a split file: full of data, and with the size it claims. -/
structure WellSized (chunk : Chunk) : Prop where
  data_ne_nil : chunk.data ≠ []
  length_le : chunk.data.length ≤ CHUNK_SIZE
  size_eq : chunk.size = chunk.data.length

theorem IFStream.length_read_le (s : IFStream) (n : Nat) : (s.read n).1.length ≤ n := by
  unfold IFStream.read
  repeat' split
  all_goals simp

theorem readLoop_wellSized (s : IFStream) (index : Int) :
    ∀ chunk ∈ readLoop s index, WellSized chunk := by
  induction s, index using readLoop.induct with
  | case1 s index h ih =>
      rw [readLoop, if_pos h]
      intro chunk hchunk
      rcases List.mem_cons.1 hchunk with rfl | hchunk
      · have hread : 0 < (s.read CHUNK_SIZE).1.length := by
          rcases h with hgood | hsome
          · exact IFStream.read_good (by decide) hgood
          · exact hsome
        have hle := IFStream.length_read_le s CHUNK_SIZE
        refine ⟨List.ne_nil_of_length_pos hread, hle, ?_⟩
        -- A chunk is far too short for the cast of its size to wrap.
        have hsize : CHUNK_SIZE < 2 ^ 31 := by decide
        generalize (s.read CHUNK_SIZE).1 = bytes at hle
        have hfits : toInt32 bytes.length = bytes.length :=
          toInt32_of_range (by omega) (by omega)
        simpa using hfits
      · exact ih chunk hchunk
  | case2 s index h =>
      rw [readLoop, if_neg h]
      simp

theorem split_wellSized {stream : Option IFStream} {chunk : Chunk}
    (h : chunk ∈ splitFileIntoChunks stream) : WellSized chunk := by
  cases stream with
  | none => simp [splitFileIntoChunks] at h
  | some s => exact readLoop_wellSized s 0 chunk h

theorem read_healthy (content : Bytes) (good : Bool) :
    IFStream.read { rest := content, fault := none, good := good } CHUNK_SIZE =
      if good then (content.take CHUNK_SIZE,
        { rest := content.drop CHUNK_SIZE, fault := none, good := CHUNK_SIZE ≤ content.length })
      else ([], { rest := content, fault := none, good := good }) := by
  cases good <;> rfl

theorem readLoop_flatten (content : Bytes) (good : Bool) (index : Int)
    (hgood : good = false → content = []) :
    ((readLoop { rest := content, fault := none, good := good } index).map Chunk.data).flatten =
      content := by
  induction hlen : content.length using Nat.strong_induction_on generalizing content good index with
  | _ n ih =>
      rw [readLoop, read_healthy]
      cases good with
      | false => simp [hgood rfl]
      | true =>
          simp only [if_true]
          cases content with
          | nil =>
              have hpos : CHUNK_SIZE ≠ 0 := by decide
              simp [hpos]
          | cons b content =>
              have htake : 0 < ((b :: content).take CHUNK_SIZE).length := by
                rw [List.length_take, List.length_cons]
                exact lt_min (by decide) (Nat.succ_pos _)
              have hshort : ((b :: content).drop CHUNK_SIZE).length < n := by
                simp only [List.length_drop, List.length_cons] at hlen ⊢
                have : 0 < CHUNK_SIZE := by decide
                omega
              -- The stream is only left bad when it is exhausted.
              have hrest : decide (CHUNK_SIZE ≤ (b :: content).length) = false →
                  (b :: content).drop CHUNK_SIZE = [] := by
                intro hbad
                rw [List.drop_eq_nil_iff]
                have := of_decide_eq_false hbad
                omega
              have htail := ih _ hshort ((b :: content).drop CHUNK_SIZE) _ (index + 1) hrest rfl
              rw [if_pos (Or.inr htake)]
              rw [List.map_cons, List.flatten_cons, htail, List.take_append_drop]

/-- The chunks of a healthy file, put back together, are its content. -/
theorem split_flatten (content : Bytes) :
    ((splitFileIntoChunks (some (IFStream.ofContent content))).map Chunk.data).flatten =
      content :=
  readLoop_flatten content true 0 (by simp)

theorem split_ne_nil {content : Bytes} (h : content ≠ []) :
    splitFileIntoChunks (some (IFStream.ofContent content)) ≠ [] := by
  intro hnil
  have := split_flatten content
  rw [hnil] at this
  exact h (by simpa using this.symm)

theorem hashChunk_of_wellSized {chunk : Chunk} (h : WellSized chunk) :
    (hashChunk chunk).hash = computeSHA256 chunk.data := by
  simp [hashChunk, h.size_eq]

/-! ## Reconstructing -/

theorem checkIndices_of_numbered {chunks : List Chunk}
    (h : chunks.map Chunk.index = (List.range chunks.length).map Int.ofNat) :
    chunks.mergeSort (fun a b => a.index ≤ b.index) = chunks := by
  refine List.mergeSort_of_pairwise ?_
  have hsorted : (chunks.map Chunk.index).Pairwise (· ≤ ·) := by
    rw [h, List.pairwise_map]
    exact List.pairwise_lt_range.imp fun hlt => by simpa using Nat.le_of_lt hlt
  exact (List.pairwise_map.1 hsorted).imp fun hle => by simpa using hle

/-- Writing chunks with the sizes they claim to a device with room puts out their data. -/
theorem foldl_write {chunks : List Chunk} (hsize : ∀ c ∈ chunks, c.size = c.data.length)
    (pieces : List Bytes) :
    chunks.foldl (fun out chunk => OFStream.write out chunk.data chunk.size)
        { pieces := pieces, good := true, room := none } =
      { pieces := pieces ++ chunks.map Chunk.data, good := true, room := none } := by
  induction chunks generalizing pieces with
  | nil => simp
  | cons c chunks ih =>
      have hc : c.size = c.data.length := hsize c (by simp)
      have hwrite : OFStream.write { pieces := pieces, good := true, room := none } c.data c.size =
          { pieces := pieces ++ [c.data], good := true, room := none } := by
        simp [OFStream.write, hc]
      rw [List.foldl_cons, hwrite, ih fun c' hc' => hsize c' (by simp [hc'])]
      simp

/-- Chunks that are numbered in order and have the sizes they claim are put together. -/
theorem reconstructFile_healthy {chunks : List Chunk} (hne : chunks ≠ [])
    (hindex : chunks.map Chunk.index = (List.range chunks.length).map Int.ofNat)
    (hsize : ∀ c ∈ chunks, c.size = c.data.length) :
    reconstructFile chunks OutputFile.healthy = (true, some (chunks.map Chunk.data)) := by
  simp only [reconstructFile, checkIndices_of_numbered hindex, hindex, ne_eq, not_true_eq_false,
    if_false, if_neg hne, OutputFile.healthy, Bool.true_eq_false, foldl_write hsize,
    List.nil_append]

end Common
end Dfs
