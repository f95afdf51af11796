import Dfs.Common.Files

/-!
# Splitting and reconstructing

A split numbers its chunks and fills every one but the last, and a reconstruction puts chunks in
the order of their indices, whatever order they come in and whatever sorting routine does it: an
accepted list has every index once, so there is only one way to sort it.
-/

namespace Dfs
namespace Common

/-! ## The chunks of a file -/

theorem readLoop_index (s : IFStream) (index : Int) :
    (readLoop s index).map Chunk.index =
      (List.range (readLoop s index).length).map fun i => index + Int.ofNat i := by
  induction s, index using readLoop.induct with
  | case1 s index h ih =>
      rw [readLoop, if_pos h, List.map_cons, ih, List.length_cons, List.range_succ_eq_map,
        List.map_cons, List.map_map]
      simp [Function.comp_def, Int.add_assoc, Int.add_comm 1]
  | case2 s index h =>
      rw [readLoop, if_neg h]
      rfl

/-- The chunks of a split are numbered from zero on. -/
theorem split_index (stream : Option IFStream) :
    (splitFileIntoChunks stream).map Chunk.index =
      (List.range (splitFileIntoChunks stream).length).map Int.ofNat := by
  cases stream with
  | none => rfl
  | some s =>
      rw [splitFileIntoChunks, readLoop_index]
      simp

theorem readLoop_nil (good : Bool) (index : Int) :
    readLoop { rest := [], fault := none, good := good } index = [] := by
  have hpos : CHUNK_SIZE ≠ 0 := by decide
  rw [readLoop, read_healthy]
  cases good <;> simp [hpos]

/-- Every chunk of a healthy file but the last is full. -/
theorem readLoop_full (content : Bytes) (index : Int) :
    ∀ chunk ∈ (readLoop { rest := content, fault := none, good := true } index).dropLast,
      chunk.data.length = CHUNK_SIZE := by
  induction hlen : content.length using Nat.strong_induction_on generalizing content index with
  | _ n ih =>
      rw [readLoop, read_healthy]
      simp only [if_true]
      by_cases hlong : CHUNK_SIZE < content.length
      · have hle : CHUNK_SIZE ≤ content.length := Nat.le_of_lt hlong
        have hfull : (content.take CHUNK_SIZE).length = CHUNK_SIZE := List.length_take_of_le hle
        have hshort : (content.drop CHUNK_SIZE).length < n := by
          rw [List.length_drop, ← hlen]
          exact Nat.sub_lt (Nat.zero_lt_of_lt hlong) (by decide)
        have htail := ih _ hshort (content.drop CHUNK_SIZE) (index + 1) rfl
        simp only [hle, decide_true, true_or, if_true]
        intro chunk hchunk
        generalize readLoop { rest := content.drop CHUNK_SIZE, fault := none, good := true }
          (index + 1) = later at htail hchunk
        cases later with
        | nil => simp at hchunk
        | cons next later =>
            rcases List.mem_cons.1 hchunk with rfl | hchunk
            · exact hfull
            · exact htail chunk hchunk
      · -- The stream is exhausted after this chunk.
        have hdrop : content.drop CHUNK_SIZE = [] := List.drop_eq_nil_of_le (Nat.le_of_not_lt hlong)
        rw [hdrop, readLoop_nil]
        split <;> simp

/-- A content of whole chunks only. -/
theorem length_split {content : Bytes} {n : Nat} (h : content.length = n * CHUNK_SIZE) :
    (splitFileIntoChunks (some (IFStream.ofContent content))).length = n := by
  have hsize : 0 < CHUNK_SIZE := by decide
  have hflat := congrArg List.length (split_flatten content)
  have hfull := readLoop_full content 0
  have hsized : ∀ chunk ∈ splitFileIntoChunks (some (IFStream.ofContent content)),
      WellSized chunk := fun chunk hchunk => split_wellSized hchunk
  change ∀ chunk ∈ (splitFileIntoChunks (some (IFStream.ofContent content))).dropLast, _ at hfull
  generalize splitFileIntoChunks (some (IFStream.ofContent content)) = chunks at hflat hfull hsized
  rw [List.length_flatten, List.map_map] at hflat
  rcases List.eq_nil_or_concat chunks with rfl | ⟨init, last, rfl⟩
  · simp only [List.map_nil, List.sum_nil] at hflat
    have hn : n * CHUNK_SIZE = 0 := h.symm.trans hflat.symm
    rcases Nat.mul_eq_zero.1 hn with hn | hn
    · simp [hn]
    · omega
  · rw [List.concat_eq_append, List.dropLast_concat] at hfull
    rw [List.concat_eq_append] at hflat hsized ⊢
    have hinit : (init.map (List.length ∘ Chunk.data)).sum = init.length * CHUNK_SIZE := by
      have hmap : init.map (List.length ∘ Chunk.data) = init.map fun _ => CHUNK_SIZE :=
        List.map_congr_left fun c hc => hfull c hc
      simp [hmap]
    have hlast := hsized last (by simp)
    have hpos := List.length_pos_iff.2 hlast.data_ne_nil
    have hle := hlast.length_le
    rw [List.map_append, List.sum_append, hinit] at hflat
    simp only [List.map_cons, List.map_nil, List.sum_singleton, Function.comp_apply] at hflat
    rw [h] at hflat
    rw [List.length_append, List.length_singleton]
    have hupper : init.length * CHUNK_SIZE < n * CHUNK_SIZE := by omega
    have hlower : n * CHUNK_SIZE ≤ (init.length + 1) * CHUNK_SIZE := by
      rw [Nat.succ_mul]
      omega
    have h1 := Nat.lt_of_mul_lt_mul_right hupper
    have h2 := Nat.le_of_mul_le_mul_right hlower hsize
    omega
/-! ## Sorting -/

/-- The part of `reconstructFile` behind the sort. -/
def writeSorted (sortedChunks : List Chunk) (output : OutputFile) : Bool × Option (List Bytes) :=
  if sortedChunks.map Chunk.index ≠ (List.range sortedChunks.length).map Int.ofNat then
    (false, none)
  else if output.creatable = false then (false, none)
  else
    let out : OFStream := { pieces := [], good := true, room := output.room }
    (true, some (sortedChunks.foldl (fun out chunk => out.write chunk.data chunk.size) out).pieces)

theorem reconstructFile_eq_writeSorted {chunks : List Chunk} (h : chunks ≠ [])
    (output : OutputFile) :
    reconstructFile chunks output =
      writeSorted (chunks.mergeSort fun a b => a.index ≤ b.index) output := by
  rw [reconstructFile, if_neg h]
  rfl

/-- The indices of the list are `0` to `n - 1`, each once. -/
def Numbered (chunks : List Chunk) : Prop :=
  (chunks.map Chunk.index).Perm ((List.range chunks.length).map Int.ofNat)

theorem numbered_pairwise (n : Nat) : ((List.range n).map Int.ofNat).Pairwise (· < ·) := by
  rw [List.pairwise_map]
  exact List.pairwise_lt_range.imp fun h => by simpa using h

/-- A sorted list passes the check exactly when it is numbered. -/
theorem sorted_check {sortedChunks : List Chunk}
    (h : sortedChunks.Pairwise fun a b => a.index ≤ b.index) :
    sortedChunks.map Chunk.index = (List.range sortedChunks.length).map Int.ofNat ↔
      Numbered sortedChunks := by
  constructor
  · intro heq
    rw [Numbered, heq]
  · intro hperm
    exact hperm.eq_of_pairwise (fun a b _ _ hab hba => le_antisymm hab hba)
      (List.pairwise_map.2 h) ((numbered_pairwise _).imp le_of_lt)

/-- There is one way only to sort a numbered list. -/
theorem sorted_unique {l l' : List Chunk} (hperm : l.Perm l')
    (hl : l.map Chunk.index = (List.range l.length).map Int.ofNat)
    (hl' : l'.map Chunk.index = (List.range l'.length).map Int.ofNat) : l = l' := by
  have hstrict : ∀ {l : List Chunk}, l.map Chunk.index = (List.range l.length).map Int.ofNat →
      l.Pairwise fun a b => a.index < b.index := by
    intro l heq
    exact List.pairwise_map.1 (heq ▸ numbered_pairwise _)
  refine hperm.eq_of_pairwise ?_ (hstrict hl) (hstrict hl')
  intro a b _ _ hab hba
  exact absurd hba (not_lt_of_gt hab)

theorem mergeSort_index (chunks : List Chunk) :
    (chunks.mergeSort fun a b => a.index ≤ b.index).Pairwise fun a b => a.index ≤ b.index := by
  have h := @List.pairwise_mergeSort Chunk (fun a b => decide (a.index ≤ b.index))
    (fun a b c hab hbc => by
      simp only [decide_eq_true_eq] at hab hbc ⊢
      exact le_trans hab hbc)
    (fun a b => by simpa using le_total a.index b.index) chunks
  exact h.imp fun hab => by simpa using hab

theorem Numbered.perm {l l' : List Chunk} (h : Numbered l) (hperm : l.Perm l') : Numbered l' := by
  unfold Numbered at h ⊢
  rw [← hperm.length_eq]
  exact (hperm.map Chunk.index).symm.trans h

/-- Whatever routine sorts the chunks, and however it orders equal indices, the result is that of
`reconstructFile`. -/
theorem writeSorted_eq {chunks sortedChunks : List Chunk} (hne : chunks ≠ [])
    (hperm : sortedChunks.Perm chunks)
    (hsorted : sortedChunks.Pairwise fun a b => a.index ≤ b.index) (output : OutputFile) :
    writeSorted sortedChunks output = reconstructFile chunks output := by
  rw [reconstructFile_eq_writeSorted hne]
  have hmerge := List.mergeSort_perm chunks fun a b => decide (a.index ≤ b.index)
  by_cases hnum : Numbered chunks
  · have heq := sorted_unique (hperm.trans hmerge.symm)
      ((sorted_check hsorted).2 (hnum.perm hperm.symm))
      ((sorted_check (mergeSort_index chunks)).2 (hnum.perm hmerge.symm))
    rw [heq]
  · have hreject : ∀ {l : List Chunk}, l.Perm chunks →
        l.Pairwise (fun a b => a.index ≤ b.index) → writeSorted l output = (false, none) := by
      intro l hl hs
      exact if_pos fun heq => hnum (((sorted_check hs).1 heq).perm hl)
    rw [hreject hperm hsorted, hreject hmerge (mergeSort_index chunks)]

/-! ## Reconstruction -/

theorem reconstructFile_perm {chunks chunks' : List Chunk} (hperm : chunks.Perm chunks')
    (output : OutputFile) : reconstructFile chunks output = reconstructFile chunks' output := by
  by_cases hne : chunks = []
  · subst hne
    rw [List.nil_perm.1 hperm]
  · have hne' : chunks' ≠ [] := fun hnil => hne (List.perm_nil.1 (hnil ▸ hperm))
    rw [← writeSorted_eq hne' ((List.mergeSort_perm chunks _).trans hperm)
      (mergeSort_index chunks), reconstructFile_eq_writeSorted hne]

/-- A list that is rejected for its indices leaves the output untouched. -/
theorem reconstructFile_rejected {chunks : List Chunk} (h : ¬ Numbered chunks)
    (output : OutputFile) : reconstructFile chunks output = (false, none) := by
  by_cases hne : chunks = []
  · rw [hne]
    rfl
  · rw [reconstructFile_eq_writeSorted hne]
    refine if_pos fun heq => h ?_
    exact ((sorted_check (mergeSort_index chunks)).1 heq).perm (List.mergeSort_perm chunks _)

/-- A numbered list goes to the output in the order of its indices. -/
theorem reconstructFile_numbered {chunks sortedChunks : List Chunk} (hne : chunks ≠ [])
    (hperm : sortedChunks.Perm chunks)
    (hindex : sortedChunks.map Chunk.index = (List.range sortedChunks.length).map Int.ofNat)
    (hsize : ∀ c ∈ chunks, c.size = c.data.length) :
    reconstructFile chunks OutputFile.healthy = (true, some (sortedChunks.map Chunk.data)) := by
  rw [reconstructFile_perm hperm.symm]
  refine reconstructFile_healthy ?_ hindex fun c hc => hsize c (hperm.subset hc)
  rintro rfl
  exact hne (List.nil_perm.1 hperm)

/-- A file is split into numbered chunks, full but for the last, that make it up; chunks are put
together exactly when they are numbered, in the order of their indices and whatever the order of
the list, and otherwise the output is left alone; so any permutation of a split gives the file
back. -/
theorem split_reconstruct :
    (∀ content : Bytes, content ≠ [] →
      let chunks := splitFileIntoChunks (some (IFStream.ofContent content))
      chunks ≠ [] ∧
        chunks.map Chunk.index = (List.range chunks.length).map Int.ofNat ∧
        (∀ chunk ∈ chunks, WellSized chunk) ∧
        (∀ chunk ∈ chunks.dropLast, chunk.data.length = CHUNK_SIZE) ∧
        (chunks.map Chunk.data).flatten = content ∧
        ∀ chunks', chunks'.Perm chunks →
          ∃ pieces, reconstructFile chunks' OutputFile.healthy = (true, some pieces) ∧
            pieces.flatten = content) ∧
    ∀ chunks : List Chunk, (∀ c ∈ chunks, c.size = c.data.length) →
      ((reconstructFile chunks OutputFile.healthy).1 = true ↔ chunks ≠ [] ∧ Numbered chunks) ∧
      (∀ sortedChunks : List Chunk, chunks ≠ [] → sortedChunks.Perm chunks →
        sortedChunks.map Chunk.index = (List.range sortedChunks.length).map Int.ofNat →
        reconstructFile chunks OutputFile.healthy = (true, some (sortedChunks.map Chunk.data))) ∧
      (∀ chunks' output, chunks.Perm chunks' →
        reconstructFile chunks output = reconstructFile chunks' output) ∧
      (∀ (sortedChunks : List Chunk) output, chunks ≠ [] → sortedChunks.Perm chunks →
        sortedChunks.Pairwise (fun a b => a.index ≤ b.index) →
        reconstructFile chunks output = writeSorted sortedChunks output) ∧
      ∀ output, ¬ Numbered chunks → reconstructFile chunks output = (false, none) := by
  refine ⟨?_, ?_⟩
  · intro content hcontent chunks
    have hne : chunks ≠ [] := split_ne_nil hcontent
    have hsized : ∀ chunk ∈ chunks, WellSized chunk := fun chunk hchunk => split_wellSized hchunk
    have hindex := split_index (some (IFStream.ofContent content))
    refine ⟨hne, hindex, hsized, readLoop_full content 0, split_flatten content, ?_⟩
    intro chunks' hperm
    have hne' : chunks' ≠ [] := fun hnil => hne (List.nil_perm.1 (hnil ▸ hperm))
    exact ⟨_, reconstructFile_numbered hne' hperm.symm hindex
      fun c hc => (hsized c (hperm.subset hc)).size_eq, split_flatten content⟩
  · intro chunks hsize
    refine ⟨⟨?_, ?_⟩, ?_, ?_, ?_, ?_⟩
    · intro htrue
      refine ⟨?_, ?_⟩
      · rintro rfl
        simp [reconstructFile] at htrue
      · by_contra hnum
        simp [reconstructFile_rejected hnum] at htrue
    · rintro ⟨hne, hnum⟩
      have hperm := List.mergeSort_perm chunks fun a b => decide (a.index ≤ b.index)
      rw [reconstructFile_numbered hne hperm
        ((sorted_check (mergeSort_index chunks)).2 (hnum.perm hperm.symm)) hsize]
    · exact fun sortedChunks hne hperm hindex => reconstructFile_numbered hne hperm hindex hsize
    · exact fun chunks' output hperm => reconstructFile_perm hperm output
    · exact fun sortedChunks output hne hperm hsorted =>
        (writeSorted_eq hne hperm hsorted output).symm
    · exact fun output hnum => reconstructFile_rejected hnum output

/-- Two chunks in the wrong order are put in the right one. -/
theorem split_reconstruct_two :
    reconstructFile
        [{ index := 1, hash := [], data := [3], size := 1 },
          { index := 0, hash := [], data := [1, 2], size := 2 }] OutputFile.healthy =
      (true, some [[1, 2], [3]]) :=
  (split_reconstruct.2
    [{ index := 1, hash := [], data := [3], size := 1 },
      { index := 0, hash := [], data := [1, 2], size := 2 }] (by decide)).2.1
    [{ index := 0, hash := [], data := [1, 2], size := 2 },
      { index := 1, hash := [], data := [3], size := 1 }] (by decide) (by decide) (by decide)

end Common
end Dfs
