import Dfs.Client.Client

/-!
# What a PUT line carries

The client writes a record as words separated by spaces and a metadata node reads words back, so a
record comes through as it was meant exactly when none of its words is broken up.  Hashes never
are; a base name is when it contains whitespace.  `putLine_exact_iff` says when such a line is
still harmless: when what follows its first word does not read as the remaining fields.
-/

namespace Dfs
namespace Client

open Bytes TextScan Common Metadata Network

/-- A record every field of which is one word of the `PUT` line, in the range of its type. -/
structure WellFormed (record : FileMetadata) : Prop where
  filename : IsWord record.filename
  rootHash : IsWord record.rootHash
  fileSize : -2 ^ 63 ≤ record.fileSize ∧ record.fileSize ≤ 2 ^ 63 - 1
  chunkSize : -2 ^ 31 ≤ record.chunkSize ∧ record.chunkSize ≤ 2 ^ 31 - 1
  totalChunks : -2 ^ 31 ≤ record.totalChunks ∧ record.totalChunks ≤ 2 ^ 31 - 1
  chunkHashes_ne : record.chunkHashes ≠ []
  chunkHash : ∀ h ∈ record.chunkHashes, IsWord h ∧ (44 : UInt8) ∉ h

/-! ## Round trips -/

theorem isWord_joinItems {items : List Bytes} (hne : items ≠ []) (h : ∀ item ∈ items, IsWord item) :
    IsWord (joinItems 44 items) := by
  refine ⟨?_, ?_⟩
  · cases items with
    | nil => exact absurd rfl hne
    | cons item items =>
        have hitem := (h item (by simp)).ne_nil
        cases items <;> simp [joinItems, hitem]
  · intro b hb
    rcases mem_joinItems hb with rfl | ⟨item, hitem, hb⟩
    · decide
    · exact (h item hitem).solid b hb

/-- The fields after the name read back as they were written. -/
theorem readFields_showFields {record : FileMetadata} (filename : Bytes)
    (hfileSize : -2 ^ 63 ≤ record.fileSize ∧ record.fileSize ≤ 2 ^ 63 - 1)
    (hchunkSize : -2 ^ 31 ≤ record.chunkSize ∧ record.chunkSize ≤ 2 ^ 31 - 1)
    (htotalChunks : -2 ^ 31 ≤ record.totalChunks ∧ record.totalChunks ≤ 2 ^ 31 - 1)
    (hrootHash : IsWord record.rootHash) (hne : record.chunkHashes ≠ [])
    (hhash : ∀ h ∈ record.chunkHashes, IsWord h ∧ (44 : UInt8) ∉ h) :
    readFields filename (showFields record) = some { record with filename := filename } := by
  have hspace : ∀ s : Bytes, EndsWord (32 :: s) := fun s => endsWord_cons (by decide)
  have hitems : IsWord (joinItems 44 record.chunkHashes) :=
    isWord_joinItems hne fun h hh => (hhash h hh).1
  have hsplit : splitItems 44 (joinItems 44 record.chunkHashes) = record.chunkHashes :=
    splitItems_joinItems (fun h hh => (hhash h hh).2) (fun h hh => (hhash h hh).1.ne_nil) hne
  have hascii : ascii " " = [32] := by decide
  -- Each reader stops at the space behind its own field.
  have hfile := fun s => readInt_showInt_endsWord hfileSize.1 hfileSize.2 (hspace s)
  have hchunk := fun s => readInt_showInt_endsWord hchunkSize.1 hchunkSize.2 (hspace s)
  have htotal := fun s => readInt_showInt_endsWord htotalChunks.1 htotalChunks.2 (hspace s)
  have hroot := fun s => readWord_append hrootHash (hspace s)
  have hlast := readWord_self hitems
  simp only [readFields, showFields, hascii, List.append_assoc, List.cons_append, List.nil_append,
    readInt64, readInt32, hfile, hchunk, htotal, hroot, hlast, hsplit, readInt_space,
    readWord_space, Option.bind_eq_bind, Option.bind_some]

theorem WellFormed.readFields {record : FileMetadata} (h : WellFormed record) (filename : Bytes) :
    readFields filename (showFields record) = some { record with filename := filename } :=
  readFields_showFields filename h.fileSize h.chunkSize h.totalChunks h.rootHash h.chunkHashes_ne
    h.chunkHash

/-- The words `PUT` and the text behind it. -/
theorem readWord_putLine (record : FileMetadata) :
    readWord (putLine record) =
      some (ascii "PUT", 32 :: (record.filename ++ 32 :: showFields record)) := by
  have hline : putLine record =
      ascii "PUT" ++ 32 :: (record.filename ++ 32 :: showFields record) := by
    have hput : ascii "PUT " = ascii "PUT" ++ [32] := by decide
    have hascii : ascii " " = [32] := by decide
    simp [putLine, hput, hascii]
  rw [hline]
  exact readWord_append_space (by decide +kernel)

/-- A well-formed record arrives unchanged. -/
theorem parsePut_putLine {record : FileMetadata} (h : WellFormed record) :
    MetadataNode.parsePut (putLine record) = some record := by
  simp only [MetadataNode.parsePut, readWord_putLine, readWord_space,
    readWord_append_space h.filename, Option.bind_eq_bind, Option.bind_some]
  have hskip : readFields record.filename (32 :: showFields record) =
      readFields record.filename (showFields record) := by
    simp [Metadata.readFields, readInt64]
  rw [hskip, h.readFields record.filename]

/-- A well-formed record that a node answers with is read back under the name asked for. -/
theorem readFound_foundMessage_as {record : FileMetadata} (h : WellFormed record)
    (filename : Bytes) : readFound filename (MetadataNode.foundMessage record) =
      some { record with filename := filename } := by
  have hfields : showFields record ≠ [] := by
    have := (isWord_showInt record.fileSize).ne_nil
    simp [showFields, this]
  have hlength : (ascii "FOUND ").length = 6 := by decide
  have hlong : 6 < (MetadataNode.foundMessage record).length := by
    have := List.length_pos_iff.2 hfields
    rw [MetadataNode.foundMessage, List.length_append]
    omega
  have htake : (MetadataNode.foundMessage record).take 6 = ascii "FOUND " := by
    rw [MetadataNode.foundMessage, ← hlength, List.take_left]
  have hdrop : (MetadataNode.foundMessage record).drop 6 = showFields record := by
    rw [MetadataNode.foundMessage, ← hlength, List.drop_left]
  simp [readFound, hlong, htake, hdrop, h.readFields filename]

/-- A well-formed record that a node answers with is read back unchanged. -/
theorem readFound_foundMessage {record : FileMetadata} (h : WellFormed record) :
    readFound record.filename (MetadataNode.foundMessage record) = some record :=
  readFound_foundMessage_as h record.filename

/-! ## Records of uploads -/

/-- What an upload of a file under a whitespace-free base name writes is well formed. -/
theorem wellFormed_uploadRecord {filepath : Bytes} {size : Int} {chunks : List Chunk}
    {rootHash : Bytes} (hname : IsWord (baseName filepath))
    (hsize : -2 ^ 63 ≤ size ∧ size ≤ 2 ^ 63 - 1) (hchunks : chunks ≠ [])
    (hhash : ∀ chunk ∈ chunks, IsHash chunk.hash) (hroot : IsHash rootHash) :
    WellFormed (uploadRecord filepath size chunks rootHash) where
  filename := hname
  rootHash := hroot.isWord
  fileSize := hsize
  chunkSize := by
    have hsize : (uploadRecord filepath size chunks rootHash).chunkSize = 1048576 := by
      simp only [uploadRecord, CHUNK_SIZE, Nat.cast_ofNat]
    omega
  totalChunks := by
    simpa only [uploadRecord] using toInt32_range (chunks.length : Int)
  chunkHashes_ne := by simpa [uploadRecord] using hchunks
  chunkHash := by
    intro h hh
    rcases List.mem_map.1 hh with ⟨chunk, hchunk, rfl⟩
    exact ⟨(hhash chunk hchunk).isWord, (hhash chunk hchunk).comma_not_mem⟩

theorem WellFormed.rename {record : FileMetadata} (h : WellFormed record) {name : Bytes}
    (hname : IsWord name) : WellFormed { record with filename := name } :=
  ⟨hname, h.rootHash, h.fileSize, h.chunkSize, h.totalChunks, h.chunkHashes_ne, h.chunkHash⟩

/-- Only the name can keep the record of a nonempty file from being well formed. -/
theorem LocalFile.wellFormed_record {file : LocalFile} (hne : file.chunks ≠ []) {name : Bytes}
    (hname : IsWord name) : WellFormed { file.record with filename := name } := by
  have hhash : ∀ chunk ∈ file.chunks, IsHash chunk.hash := by
    intro chunk hchunk
    rw [(LocalFile.mem_chunks hchunk).2]
    exact isHash_sha256 _
  have hfields := @wellFormed_uploadRecord (ascii "x") file.size file.chunks
    (computeRootHash file.hashes) (by decide +kernel) file.size_range hne hhash (isHash_sha256 _)
  have hrecord : ({ file.record with filename := name } : FileMetadata) =
      { uploadRecord (ascii "x") file.size file.chunks (computeRootHash file.hashes) with
        filename := name } := by
    simp only [LocalFile.record, uploadRecord]
  rw [hrecord]
  exact hfields.rename hname

theorem length_mem_hashes {file : LocalFile} {hash : Bytes} (h : hash ∈ file.hashes) :
    hash.length = 64 := by
  rcases List.mem_map.1 h with ⟨chunk, hchunk, rfl⟩
  rw [(LocalFile.mem_chunks hchunk).2]
  exact (isHash_sha256 _).length_eq

/-- Where the length of a line goes over at `n` bytes into the first hash, its first frame is a line
with these `n` bytes for the hashes. -/
theorem firstFrame_putLine {record : FileMetadata} {n : Nat} {hash : Bytes} {hashes : List Bytes}
    (hrecord : record.chunkHashes = hash :: hashes) (hn : n ≤ hash.length)
    (hlength : (putLine record).length % 2 ^ 32 =
      (putLine { record with chunkHashes := [] }).length + n) :
    firstFrame (putLine record) = putLine { record with chunkHashes := [hash.take n] } := by
  have hline : putLine record = putLine { record with chunkHashes := [] } ++
      joinItems 44 (hash :: hashes) := by
    simp [putLine, showFields, hrecord, joinItems]
  have hfirst : (joinItems 44 (hash :: hashes)).take n = hash.take n := by
    cases hashes with
    | nil => simp [joinItems]
    | cons second hashes =>
        rw [joinItems, List.intercalate_cons_cons, List.append_assoc,
          List.take_append_of_le_length hn]
  rw [firstFrame_eq, hlength, hline, List.take_length_add_append, hfirst]
  simp [putLine, showFields, joinItems]

/-- `handlePut` either rejects the line or stores exactly the record it was written from, and
changes the record of no other name. -/
def PutExact (record : FileMetadata) : Prop :=
  ∀ node node' : MetadataNode, node.acceptPut (putLine record) = some node' →
    node'.metadataStore record.filename = some record ∧
      ∀ name, name ≠ record.filename → node'.metadataStore name = node.metadataStore name

/-- What follows the first word of the text `name size chunkSize totalChunks rootHash hashes`
reads as the fields behind a file name. -/
def ReadsAsFields (record : FileMetadata) : Prop :=
  ∃ word rest, readWord (record.filename ++ 32 :: showFields record) = some (word, rest) ∧
    (readFields word rest).isSome = true

theorem parsePut_eq (record : FileMetadata) :
    MetadataNode.parsePut (putLine record) =
      (readWord (record.filename ++ 32 :: showFields record)).bind fun p => readFields p.1 p.2 := by
  simp only [MetadataNode.parsePut, readWord_putLine, readWord_space, Option.bind_eq_bind,
    Option.bind_some]

/-- Whatever a node makes of the line of a whitespace-free name, the empty one included, the hash
list comes through: it is the last word, and behind no name at all the words only move up by one. -/
theorem chunkHashes_parsePut {record stored : FileMetadata}
    (hwf : ∀ name, IsWord name → WellFormed { record with filename := name })
    (hname : ∀ b ∈ record.filename, isSpace b = false)
    (h : MetadataNode.parsePut (putLine record) = some stored) :
    stored.chunkHashes = record.chunkHashes := by
  by_cases hempty : record.filename = []
  · have hfields := hwf (ascii "x") (by decide +kernel)
    have hascii : ascii " " = [32] := by decide
    have hspace : ∀ s : Bytes, EndsWord (32 :: s) := fun s => endsWord_cons (by decide)
    have hitems : IsWord (joinItems 44 record.chunkHashes) :=
      isWord_joinItems hfields.chunkHashes_ne fun h hh => (hfields.chunkHash h hh).1
    have hsplit : splitItems 44 (joinItems 44 record.chunkHashes) = record.chunkHashes :=
      splitItems_joinItems (fun h hh => (hfields.chunkHash h hh).2)
        (fun h hh => (hfields.chunkHash h hh).1.ne_nil) hfields.chunkHashes_ne
    have hsize : (-2 ^ 63 : Int) ≤ record.chunkSize ∧ record.chunkSize ≤ 2 ^ 63 - 1 := by
      have hlow : (-2 ^ 31 : Int) ≤ record.chunkSize := hfields.chunkSize.1
      have hhigh : record.chunkSize ≤ 2 ^ 31 - 1 := hfields.chunkSize.2
      constructor <;> omega
    have hfile := fun s => readWord_append (isWord_showInt record.fileSize) (hspace s)
    have hchunk := fun s => readInt_showInt_endsWord hsize.1 hsize.2 (hspace s)
    have htotal := fun s =>
      readInt_showInt_endsWord hfields.totalChunks.1 hfields.totalChunks.2 (hspace s)
    rw [parsePut_eq, hempty] at h
    simp only [showFields, hascii, List.append_assoc, List.cons_append, List.nil_append,
      readWord_space, readFields, readInt64, readInt32, hfile, hchunk, htotal, readInt_space,
      Option.bind_eq_bind, Option.bind_some, Option.bind_eq_some_iff] at h
    rcases h with ⟨⟨n, rest⟩, hroot, ⟨root, rest'⟩, hword, ⟨hashes, last⟩, hlist, heq⟩
    -- What is left of the root hash is a word, or there are too few words.
    rcases readInt_append_space hfields.rootHash hroot with ⟨u, rfl, hsolid⟩
    by_cases hu : u = []
    · simp only [hu, List.nil_append, readWord_space, readWord_self hitems, Option.some.injEq,
        Prod.mk.injEq] at hword
      simp [← hword.2, readWord, skipSpace] at hlist
    · simp only [readWord_append_space ⟨hu, hsolid⟩, Option.some.injEq, Prod.mk.injEq] at hword
      simp only [← hword.2, readWord_space, readWord_self hitems, Option.some.injEq,
        Prod.mk.injEq] at hlist
      rw [← Option.some.inj heq, ← hlist.1]
      exact hsplit
  · have hrecord : WellFormed record := hwf record.filename ⟨hempty, hname⟩
    rw [parsePut_putLine hrecord, Option.some.injEq] at h
    rw [h]

/-- The line of an upload is carried exactly if and only if its base name has no whitespace or
the line is broken up into something that is rejected. -/
theorem putLine_exact_iff (filepath : Bytes) (size : Int) (chunks : List Chunk) (rootHash : Bytes)
    (hname : baseName filepath ≠ []) (hsize : -2 ^ 63 ≤ size ∧ size ≤ 2 ^ 63 - 1)
    (hchunks : chunks ≠ []) (hhash : ∀ chunk ∈ chunks, IsHash chunk.hash)
    (hroot : IsHash rootHash) :
    PutExact (uploadRecord filepath size chunks rootHash) ↔
      (∀ b ∈ baseName filepath, isSpace b = false) ∨
        ¬ ReadsAsFields (uploadRecord filepath size chunks rootHash) := by
  constructor
  · intro hexact
    refine or_iff_not_imp_right.2 fun hreads => ?_
    rcases not_not.1 hreads with ⟨word, rest, hword, hfields⟩
    rcases Option.isSome_iff_exists.1 hfields with ⟨stored, hstored⟩
    have hparse : MetadataNode.parsePut
        (putLine (uploadRecord filepath size chunks rootHash)) = some stored := by
      rw [parsePut_eq, hword]
      exact hstored
    -- The accepted line is stored under its first word, which the base name must be.
    let node := MetadataNode.launch [] (-1) 0
    have haccept : node.acceptPut (putLine (uploadRecord filepath size chunks rootHash)) =
        some (node.storeMetadata stored) := by
      rw [MetadataNode.acceptPut, hparse, Option.map_some]
    have hput := (hexact node _ haccept).1
    have hname' : stored.filename = word := by
      simp only [readFields, Option.bind_eq_bind, Option.bind_eq_some_iff] at hstored
      rcases hstored with ⟨_, _, _, _, _, _, _, _, _, _, heq⟩
      exact (congrArg FileMetadata.filename (Option.some.inj heq)).symm
    have heq : baseName filepath = word := by
      by_contra hne
      have hother : (node.storeMetadata stored).metadataStore (baseName filepath) = none := by
        simp [node, MetadataNode.launch, Function.update_of_ne (hname' ▸ hne)]
      rw [show (uploadRecord filepath size chunks rootHash).filename = baseName filepath from rfl,
        hother] at hput
      cases hput
    intro b hb
    exact (isWord_of_readWord hword).solid b (heq ▸ hb)
  · rintro (hsolid | hreads) node node' haccept
    · have hwf := wellFormed_uploadRecord ⟨hname, hsolid⟩ hsize hchunks hhash hroot
      simp only [MetadataNode.acceptPut, parsePut_putLine hwf, Option.map_some,
        Option.some.injEq] at haccept
      subst haccept
      refine ⟨by simp, ?_⟩
      intro name hother
      simp [Function.update_of_ne hother]
    · refine absurd ?_ hreads
      rcases Option.map_eq_some_iff.1 haccept with ⟨stored, hparse, _⟩
      rw [parsePut_eq] at hparse
      rcases Option.bind_eq_some_iff.1 hparse with ⟨⟨word, rest⟩, hword, hfields⟩
      exact ⟨word, rest, hword, by simp [hfields]⟩

/-- An ordinary name comes through. -/
theorem putLine_exact_report :
    PutExact (uploadRecord (ascii "dir/report.txt") 5
      [{ index := 0, hash := List.replicate 64 97, data := ascii "hello", size := 5 }]
      (List.replicate 64 98)) :=
  (putLine_exact_iff _ _ _ _ (by decide) (by decide) (by decide)
    (by
      intro chunk hchunk
      rw [List.mem_singleton.1 hchunk]
      exact ⟨by decide, by decide +kernel⟩)
    ⟨by decide, by decide +kernel⟩).2 (Or.inl (by decide +kernel))

/-- A name whose later words look like fields: the node accepts the line, and stores a record made
up of those words under the first one. -/
theorem spaced_name_not_exact :
    let chunk : Chunk :=
      { index := 0, hash := List.replicate 64 97, data := ascii "hello", size := 5 }
    let record := uploadRecord (ascii "dir/v 1 2 3 old new") 5 [chunk] (List.replicate 64 98)
    IsHash chunk.hash ∧ IsHash record.rootHash ∧
      record.filename = ascii "v 1 2 3 old new" ∧
      MetadataNode.parsePut (putLine record) =
        some
          { filename := ascii "v"
            rootHash := ascii "old"
            fileSize := 1
            chunkSize := 2
            totalChunks := 3
            chunkHashes := [ascii "new"] } ∧
      ¬ PutExact record := by
  intro chunk record
  have hparse : MetadataNode.parsePut (putLine record) =
      some
        { filename := ascii "v"
          rootHash := ascii "old"
          fileSize := 1
          chunkSize := 2
          totalChunks := 3
          chunkHashes := [ascii "new"] } := by
    decide +kernel
  refine ⟨⟨by decide, by decide +kernel⟩, ⟨by decide, by decide +kernel⟩, by decide +kernel,
    hparse, ?_⟩
  intro hexact
  have haccept := hexact (MetadataNode.launch [] (-1) 0) _
    (by rw [MetadataNode.acceptPut, hparse, Option.map_some])
  -- Nothing is stored under the name that was meant.
  have hname : record.filename ≠ ascii "v" := by decide +kernel
  have hput := haccept.1
  rw [MetadataNode.storeMetadata_metadataStore, Function.update_of_ne hname] at hput
  simp [MetadataNode.launch] at hput

end Client
end Dfs
