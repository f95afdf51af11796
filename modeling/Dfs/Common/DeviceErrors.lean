import Dfs.Common.Chunking

/-!
# Device errors

The two file routines on a device that fails: a read error ends the list of chunks early, and a
write error ends the output early, and neither routine reports it.
-/

namespace Dfs
namespace Common

/-! ## Reading -/

/-- The file at a path whose device reports an error after `fault` bytes. -/
def IFStream.onDevice (content : Bytes) (fault : Option Nat) : IFStream :=
  { rest := content
    fault := fault
    good := true }

theorem readLoop_bad (content : Bytes) (fault : Option Nat) (index : Int) :
    readLoop { rest := content, fault := fault, good := false } index = [] := by
  rw [readLoop]
  simp [IFStream.read]

theorem read_fault {content : Bytes} {d n : Nat} (h : d < n) (hle : d ≤ content.length) :
    (IFStream.onDevice content (some d)).read n =
      ([], { rest := content, fault := some d, good := false }) := by
  simp [IFStream.read, IFStream.onDevice, h, hle]

theorem read_before_fault {content : Bytes} {d n : Nat} (h : n ≤ d) (hle : d ≤ content.length) :
    (IFStream.onDevice content (some d)).read n =
      (content.take n, IFStream.onDevice (content.drop n) (some (d - n))) := by
  have hn : n ≤ content.length := le_trans h hle
  simp [IFStream.read, IFStream.onDevice, Nat.not_lt.2 h, hn]

/-- A chunk that lies before the error is read whole, and the error is that much nearer. -/
theorem readLoop_before_fault {content : Bytes} {d : Nat} (index : Int) (h : CHUNK_SIZE ≤ d)
    (hle : d ≤ content.length) :
    readLoop (IFStream.onDevice content (some d)) index =
      { index := index
        hash := []
        data := content.take CHUNK_SIZE
        size := toInt32 (content.take CHUNK_SIZE).length } ::
        readLoop (IFStream.onDevice (content.drop CHUNK_SIZE) (some (d - CHUNK_SIZE)))
          (index + 1) := by
  rw [readLoop, read_before_fault h hle]
  exact if_pos (Or.inl rfl)

/-- A read error costs the chunk it strikes and everything behind. -/
theorem readLoop_fault (content : Bytes) (d : Nat) (index : Int) (h : d ≤ content.length) :
    ((readLoop (IFStream.onDevice content (some d)) index).map Chunk.data).flatten =
      content.take (d / CHUNK_SIZE * CHUNK_SIZE) := by
  have hpos : 0 < CHUNK_SIZE := by decide
  induction d using Nat.strong_induction_on generalizing content index with
  | _ d ih =>
      by_cases hd : d < CHUNK_SIZE
      · rw [readLoop, read_fault hd h]
        simp [Nat.div_eq_of_lt hd]
      · have hle : CHUNK_SIZE ≤ d := Nat.le_of_not_lt hd
        have hrest : d - CHUNK_SIZE ≤ (content.drop CHUNK_SIZE).length := by
          rw [List.length_drop]
          exact Nat.sub_le_sub_right h CHUNK_SIZE
        have htail := ih (d - CHUNK_SIZE) (Nat.sub_lt (lt_of_lt_of_le hpos hle) hpos)
          (content.drop CHUNK_SIZE) (index + 1) hrest
        have hquot : d / CHUNK_SIZE * CHUNK_SIZE =
            CHUNK_SIZE + (d - CHUNK_SIZE) / CHUNK_SIZE * CHUNK_SIZE := by
          rw [Nat.div_eq_sub_div hpos hle, Nat.add_mul, Nat.one_mul, Nat.add_comm]
        rw [readLoop_before_fault index hle h, List.map_cons, List.flatten_cons, htail, hquot,
          List.take_add]

/-- An error behind the end of the file is never met. -/
theorem readLoop_no_fault (content : Bytes) (fault : Option Nat) (good : Bool) (index : Int)
    (hgood : good = false → content = []) (h : ∀ d, fault = some d → good → content.length < d) :
    readLoop { rest := content, fault := fault, good := good } index =
      readLoop { rest := content, fault := none, good := good } index := by
  induction hlen : content.length using Nat.strong_induction_on
    generalizing content fault good index with
  | _ n ih =>
      cases good with
      | false => rw [readLoop_bad, readLoop_bad]
      | true =>
          cases fault with
          | none => rfl
          | some d =>
              have hd : content.length < d := h d rfl rfl
              have hread : IFStream.read { rest := content, fault := some d, good := true }
                  CHUNK_SIZE = (content.take CHUNK_SIZE,
                    { rest := content.drop CHUNK_SIZE, fault := some (d - CHUNK_SIZE),
                      good := CHUNK_SIZE ≤ content.length }) := by
                simp [IFStream.read, Nat.not_le.2 hd]
              rw [readLoop, readLoop.eq_def { rest := content, fault := none, good := true },
                hread, read_healthy]
              simp only [if_true]
              by_cases hfull : CHUNK_SIZE ≤ content.length
              · have hshort : (content.drop CHUNK_SIZE).length < n := by
                  rw [List.length_drop, hlen]
                  exact Nat.sub_lt (lt_of_lt_of_le (by decide) (hlen ▸ hfull)) (by decide)
                have htail := ih _ hshort (content.drop CHUNK_SIZE) (some (d - CHUNK_SIZE)) true
                  (index + 1) (by simp) ?_ rfl
                · simp only [hfull, decide_true, true_or, if_true, htail]
                · intro d' hd' _
                  rw [← Option.some.inj hd', List.length_drop]
                  exact Nat.sub_lt_sub_right hfull hd
              · simp only [hfull, decide_false, readLoop_bad]

/-- Reading the file gives all of it, or nothing. -/
structure Undamaged (content : Bytes) (fault : Option Nat) : Prop where
  spared : ∀ d, fault = some d →
    d < CHUNK_SIZE ∨ content.length < d ∨ d = content.length ∧ CHUNK_SIZE ∣ d

/-- What the chunks of a file make up: all of it, unless an error strikes behind the first chunk
and before the end. -/
theorem split_whole_iff (content : Bytes) (fault : Option Nat) :
    (splitFileIntoChunks (some (IFStream.onDevice content fault)) ≠ [] →
      ((splitFileIntoChunks (some (IFStream.onDevice content fault))).map Chunk.data).flatten =
        content) ↔ Undamaged content fault := by
  have hwhole : (∀ d, fault = some d → content.length < d) →
      ((splitFileIntoChunks (some (IFStream.onDevice content fault))).map Chunk.data).flatten =
        content := by
    intro h
    have hread := readLoop_no_fault content fault true 0 (by simp) fun d hd _ => h d hd
    calc ((splitFileIntoChunks (some (IFStream.onDevice content fault))).map Chunk.data).flatten
        = ((readLoop { rest := content, fault := none, good := true } 0).map
            Chunk.data).flatten := by rw [← hread]; rfl
      _ = content := readLoop_flatten content true 0 (by simp)
  cases fault with
  | none => exact ⟨fun _ => ⟨by simp⟩, fun _ _ => hwhole (by simp)⟩
  | some d =>
      by_cases hbehind : content.length < d
      · refine ⟨fun _ => ⟨?_⟩, fun _ _ => hwhole ?_⟩
        · rintro d' ⟨⟩
          exact Or.inr (Or.inl hbehind)
        · rintro d' ⟨⟩
          exact hbehind
      · have hle : d ≤ content.length := Nat.le_of_not_lt hbehind
        have hprefix := readLoop_fault content d 0 hle
        by_cases hfirst : d < CHUNK_SIZE
        · -- Not even the first chunk is read.
          have hnil : splitFileIntoChunks (some (IFStream.onDevice content (some d))) = [] := by
            rw [splitFileIntoChunks, readLoop, read_fault hfirst hle]
            simp
          refine ⟨fun _ => ⟨?_⟩, fun _ hne => absurd hnil hne⟩
          rintro d' ⟨⟩
          exact Or.inl hfirst
        · have hne : splitFileIntoChunks (some (IFStream.onDevice content (some d))) ≠ [] := by
            rw [splitFileIntoChunks, readLoop_before_fault 0 (Nat.le_of_not_lt hfirst) hle]
            simp
          have hbound : d / CHUNK_SIZE * CHUNK_SIZE ≤ d := Nat.div_mul_le_self d CHUNK_SIZE
          constructor
          · intro h
            refine ⟨?_⟩
            rintro d' ⟨⟩
            have htake := hprefix.symm.trans (h hne)
            have hlen : content.length ≤ d / CHUNK_SIZE * CHUNK_SIZE :=
              (List.take_eq_self_iff _).1 htake
            refine Or.inr (Or.inr ⟨le_antisymm hle (le_trans hlen hbound), ?_⟩)
            have heq : d / CHUNK_SIZE * CHUNK_SIZE = d :=
              le_antisymm hbound (le_trans hle hlen)
            exact ⟨d / CHUNK_SIZE, by rw [Nat.mul_comm, heq]⟩
          · intro h _
            rcases h.spared d rfl with hlt | hlt | ⟨heq, hdvd⟩
            · exact absurd hlt hfirst
            · exact absurd hlt hbehind
            · exact hprefix.trans
                (by rw [Nat.div_mul_cancel hdvd, heq, List.take_length])

/-! ## Writing -/

/-- What a list of chunks says the file is: their data in the order of their indices. -/
def contentOf (chunks : List Chunk) : Bytes :=
  ((chunks.mergeSort fun a b => a.index ≤ b.index).map Chunk.data).flatten

/-- The output holds as much of the data as the device has room for. -/
theorem foldl_write_room {chunks : List Chunk} (hsize : ∀ c ∈ chunks, c.size = c.data.length)
    (pieces : List Bytes) (good : Bool) (room : Nat) :
    (chunks.foldl (fun out chunk => OFStream.write out chunk.data chunk.size)
        { pieces := pieces, good := good, room := some room }).pieces.flatten =
      pieces.flatten ++ if good then (chunks.map Chunk.data).flatten.take room else [] := by
  induction chunks generalizing pieces good room with
  | nil => cases good <;> simp
  | cons c chunks ih =>
      have hc : c.size = c.data.length := hsize c (by simp)
      have htail := fun pieces good room => ih (fun c' hc' => hsize c' (by simp [hc'])) pieces good room
      rw [List.foldl_cons]
      cases good with
      | false =>
          have hwrite : OFStream.write { pieces := pieces, good := false, room := some room }
              c.data c.size = { pieces := pieces ++ [[]], good := false, room := some room } := by
            simp [OFStream.write]
          rw [hwrite, htail]
          simp
      | true =>
          by_cases hfits : c.data.length ≤ room
          · have hwrite : OFStream.write { pieces := pieces, good := true, room := some room }
                c.data c.size =
                { pieces := pieces ++ [c.data]
                  good := true
                  room := some (room - c.data.length) } := by
              simp [OFStream.write, hc, hfits]
            rw [hwrite, htail]
            simp [List.take_append, List.take_of_length_le hfits]
          · -- The device is full in the middle of this chunk, and nothing is written after it.
            have hwrite : OFStream.write { pieces := pieces, good := true, room := some room }
                c.data c.size =
                { pieces := pieces ++ [c.data.take room]
                  good := false
                  room := some 0 } := by
              simp [OFStream.write, hc, hfits]
            have hfull : room - c.data.length = 0 :=
              Nat.sub_eq_zero_of_le (Nat.le_of_not_le hfits)
            rw [hwrite, htail]
            simp [List.take_append, hfull]

/-- An output that takes all the bytes, once the chunks are accepted and the file is there. -/
def HasRoom (chunks : List Chunk) (output : OutputFile) : Prop :=
  chunks ≠ [] → Numbered chunks → output.creatable = true →
    ∀ room, output.room = some room → (contentOf chunks).length ≤ room

/-- `reconstructFile` is true only of complete outputs, if the device has room. -/
theorem reconstruct_whole_iff {chunks : List Chunk} (hsize : ∀ c ∈ chunks, c.size = c.data.length)
    (output : OutputFile) :
    (∀ pieces, reconstructFile chunks output = (true, some pieces) →
      pieces.flatten = contentOf chunks) ↔ HasRoom chunks output := by
  have hperm := List.mergeSort_perm chunks fun a b => decide (a.index ≤ b.index)
  have hresult : chunks ≠ [] → Numbered chunks → output.creatable = true →
      reconstructFile chunks output = (true, some
        ((chunks.mergeSort fun a b => a.index ≤ b.index).foldl
          (fun out chunk => OFStream.write out chunk.data chunk.size)
          { pieces := [], good := true, room := output.room }).pieces) := by
    intro hne hnum hcreate
    have hcheck := (sorted_check (mergeSort_index chunks)).2 (hnum.perm hperm.symm)
    rw [reconstructFile_eq_writeSorted hne, writeSorted, if_neg (not_not.2 hcheck), if_neg (by simp [hcreate])]
  have hsorted : ∀ c ∈ chunks.mergeSort fun a b => a.index ≤ b.index, c.size = c.data.length :=
    fun c hc => hsize c (hperm.subset hc)
  constructor
  · intro h hne hnum hcreate room hroom
    have hflat := h _ (hresult hne hnum hcreate)
    rw [hroom, foldl_write_room hsorted] at hflat
    exact (List.take_eq_self_iff _).1 (by simpa [contentOf] using hflat)
  · intro h pieces htrue
    have hne : chunks ≠ [] := by
      rintro rfl
      simp [reconstructFile] at htrue
    have hnum : Numbered chunks := by
      by_contra hnum
      simp [reconstructFile_rejected hnum] at htrue
    have hcreate : output.creatable = true := by
      by_contra hcreate
      rw [reconstructFile_eq_writeSorted hne] at htrue
      simp [writeSorted, hcreate] at htrue
    rw [hresult hne hnum hcreate] at htrue
    simp only [Prod.mk.injEq, Option.some.injEq, true_and] at htrue
    cases hroom : output.room with
    | none =>
        rw [hroom, foldl_write hsorted] at htrue
        rw [← htrue]
        simp [contentOf]
    | some room =>
        rw [hroom] at htrue
        rw [← htrue, foldl_write_room hsorted]
        have hfits := (List.take_eq_self_iff _).2 (h hne hnum hcreate room hroom)
        simpa [contentOf] using hfits

end Common
end Dfs
