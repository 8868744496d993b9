import PgTextsearch.Rust.SegmentBuilder

/-!
# The Rust segment reader (`rust/src/segment/reader.rs`)

The reader takes apart what the builder put together: the header, skip entries at offsets, and
the posting blocks they point to, compressed or not.  Where the data are too short it answers
with `None`; `none` in place of a block is a panic of the decompression.

## Main results

* `readPostingBlock_eq` — a block is read back whatever bytes follow it.
* `image_sections` — the sections of an image, found at the offsets of its header.
* `buildSegment_reads_back` — a build does not panic, and its image is read back: every term with
  its postings, in blocks that their skip entries describe, and no other term.
-/

namespace PgTextsearch.RustSegment

open PgTextsearch.Postgres PgTextsearch.Segment PgTextsearch.Segment.File PgTextsearch.Verified
open PgTextsearch.Rust

/-! ## Reading -/

/-- `read_header`. -/
def readHeader (data : List (Fin 256)) : Option TpSegmentHeader :=
  if data.length < sizeOfHeader then none
  else
    let header := TpSegmentHeader.ofBytes data
    if header.magic ≠ tpSegmentMagic then none else some header

/-- `read_skip_entry`. -/
def readSkipEntry (data : List (Fin 256)) (offset : Nat) : Option SkipRecord :=
  if offset + skipEntrySize > data.length then none
  else some (SkipRecord.ofBytes (data.drop offset))

/-- The loop over an uncompressed block: a posting past the end of the data stays the default. -/
def readPlainBlock (blockData : List (Fin 256)) (count : Nat) : List BlockPosting :=
  (List.range count).map fun i =>
    let offset := i * blockPostingSize
    if offset + blockPostingSize ≤ blockData.length then
      postingOfBytes (slice blockData offset blockPostingSize)
    else ⟨0, 0, 0⟩

/-- `read_posting_block`. -/
def readPostingBlock (blockData : List (Fin 256)) (skip : SkipRecord) :
    Option (List BlockPosting) :=
  let count := skip.skip.docCount
  if skip.flags = tpBlockFlagDelta then decompressBlockChecked blockData count 0
  else some (readPlainBlock blockData count)

/-! ## One block -/

/-- What the data begin with at an offset. -/
theorem drop_of_liesAt {data part : List (Fin 256)} {offset : Nat} (h : LiesAt data offset part) :
    ∃ rest, data.drop offset = part ++ rest := by
  obtain ⟨before, behind, rfl, rfl⟩ := h
  exact ⟨behind, by rw [List.append_assoc, List.drop_left]⟩

/-- A plain block read back, whatever follows it. -/
theorem readPlainBlock_eq {block : List BlockPosting} (hid : ∀ p ∈ block, p.docId < 2 ^ 32)
    (hfreq : ∀ p ∈ block, p.frequency < 2 ^ 16) (rest : List (Fin 256)) :
    readPlainBlock (postingsBytes block ++ rest) block.length = block := by
  have hwidth : ∀ r ∈ block.map postingBytes, r.length = blockPostingSize := by
    intro r hr
    obtain ⟨p, -, rfl⟩ := List.mem_map.1 hr
    exact length_postingBytes p
  apply List.ext_getElem
  · rw [readPlainBlock, List.length_map, List.length_range]
  · intro i _ hi
    have hlies : LiesAt (postingsBytes block ++ rest) (i * blockPostingSize)
        (postingBytes block[i]) := by
      have hall := (LiesAt.refl (postingsBytes block)).append rest
      have hrecord := hall.fixedRecord hwidth (n := i) (r := postingBytes block[i])
        (by rw [List.getElem?_map, List.getElem?_eq_getElem hi]; rfl)
      rwa [Nat.zero_add] at hrecord
    have hle := hlies.length_le
    have hslice := hlies.slice_eq
    rw [length_postingBytes] at hle hslice
    simp only [readPlainBlock, List.getElem_map, List.getElem_range, if_pos hle, hslice]
    exact postingOfBytes_bytes (hid _ (List.getElem_mem hi)) (hfreq _ (List.getElem_mem hi))

/-- **A block read back**, under the flag it was written with. -/
theorem readPostingBlock_eq (compress : Bool) {block : List BlockPosting} (h : ValidBlock block)
    {skip : SkipRecord} (hcount : skip.skip.docCount = block.length)
    (hflag : skip.flags = blockFlag compress block) (rest : List (Fin 256)) :
    readPostingBlock (blockData compress block ++ rest) skip = some block := by
  unfold readPostingBlock
  dsimp only
  rw [hcount, hflag, blockFlag, blockData]
  by_cases hdelta : compress ∧ block.length > 1
  · rw [if_pos hdelta, if_pos hdelta, if_pos rfl]
    exact decompressBlockChecked_compressBlock h.ne_nil h.length_le h.docId_lt h.frequency_lt
      h.sorted rest
  · rw [if_neg hdelta, if_neg hdelta, if_neg (by decide), readPlainBlock_eq h.docId_lt
      h.frequency_lt]

/-! ## Skip entries -/

/-- What a skip entry says of its block. -/
structure Describes (skip : SkipEntry) (block : List BlockPosting) : Prop where
  docCount_eq : skip.docCount = block.length
  lastDocId_eq : (block.getLast?).map BlockPosting.docId = some skip.lastDocId
  frequency_le : ∀ p ∈ block, p.frequency ≤ skip.blockMaxTf
  fieldnorm_le : ∀ p ∈ block, p.fieldnorm ≤ skip.blockMaxNorm

/-- The statistics of `flush_block`. -/
theorem blockStats_spec (block : List BlockPosting) :
    (∀ p ∈ block.getLast?, p.docId = (block.foldl SegmentBuilder.blockStats (0, 0, 0)).1) ∧
      (∀ p ∈ block, p.frequency ≤ (block.foldl SegmentBuilder.blockStats (0, 0, 0)).2.1 ∧
        p.fieldnorm ≤ (block.foldl SegmentBuilder.blockStats (0, 0, 0)).2.2) ∧
      ((block.foldl SegmentBuilder.blockStats (0, 0, 0)).2.1 = 0 ∨
        ∃ p ∈ block, p.frequency = (block.foldl SegmentBuilder.blockStats (0, 0, 0)).2.1) := by
  induction block using List.reverseRecOn with
  | nil => simp
  | append_singleton block q ih =>
      obtain ⟨-, hbounds, hattained⟩ := ih
      rw [List.foldl_append, List.foldl_cons, List.foldl_nil]
      obtain ⟨stats, hstats⟩ : ∃ stats, stats = block.foldl SegmentBuilder.blockStats (0, 0, 0) :=
        ⟨_, rfl⟩
      rw [← hstats] at hbounds hattained ⊢
      unfold SegmentBuilder.blockStats
      refine ⟨by simp, ?_, ?_⟩
      · intro p hp
        have hfreq : stats.2.1 ≤ (if q.frequency > stats.2.1 then q.frequency else stats.2.1) ∧
            q.frequency ≤ (if q.frequency > stats.2.1 then q.frequency else stats.2.1) := by
          split_ifs <;> omega
        have hnorm : stats.2.2 ≤ (if q.fieldnorm > stats.2.2 then q.fieldnorm else stats.2.2) ∧
            q.fieldnorm ≤ (if q.fieldnorm > stats.2.2 then q.fieldnorm else stats.2.2) := by
          split_ifs <;> omega
        cases List.mem_append.1 hp with
        | inl hin =>
            exact ⟨(hbounds p hin).1.trans hfreq.1, (hbounds p hin).2.trans hnorm.1⟩
        | inr hlast =>
            rw [List.mem_singleton.1 hlast]
            exact ⟨hfreq.2, hnorm.2⟩
      · by_cases hmore : q.frequency > stats.2.1
        · exact Or.inr ⟨q, by simp, by rw [if_pos hmore]⟩
        · rw [if_neg hmore]
          cases hattained with
          | inl hzero => exact Or.inl hzero
          | inr hsome =>
              obtain ⟨p, hp, heq⟩ := hsome
              exact Or.inr ⟨p, List.mem_append_left _ hp, heq⟩

/-- The skip entry of a valid block describes it, and fits its fields. -/
theorem skipEntry_spec (compress : Bool) {block : List BlockPosting} (h : ValidBlock block)
    (offset : Nat) :
    Describes (SegmentBuilder.skipEntry block (offset % 2 ^ 32) (blockFlag compress block)).skip
        block ∧
      (SegmentBuilder.skipEntry block (offset % 2 ^ 32) (blockFlag compress block)).Fits := by
  obtain ⟨hlast, hbounds, hattained⟩ := blockStats_spec block
  have hcount : block.length % 256 = block.length := by
    have hle := h.length_le
    unfold tpBlockSize at hle
    omega
  have hfinal := List.getLast?_eq_some_getLast h.ne_nil
  constructor
  · exact
      { docCount_eq := hcount
        lastDocId_eq := by
          rw [hfinal]
          exact congrArg some (hlast _ (by rw [hfinal]; rfl))
        frequency_le := fun p hp => (hbounds p hp).1
        fieldnorm_le := fun p hp => (hbounds p hp).2 }
  · exact
      { lastDocId_lt := by
          refine lt_of_eq_of_lt (hlast _ (by rw [hfinal]; rfl)).symm ?_
          exact h.docId_lt _ (List.getLast_mem h.ne_nil)
        docCount_lt := Nat.mod_lt _ (by decide)
        blockMaxTf_lt := by
          cases hattained with
          | inl hzero => exact lt_of_eq_of_lt hzero (by decide)
          | inr hsome =>
              obtain ⟨p, hp, heq⟩ := hsome
              exact lt_of_eq_of_lt heq.symm (h.frequency_lt p hp)
        tenantIdLow_lt := show 0 < 2 ^ 16 by decide
        postingOffset_lt := Nat.mod_lt _ (by decide)
        flags_lt := by
          show blockFlag compress block < 2 ^ 8
          unfold blockFlag
          split_ifs <;> decide }

/-- The skip entry of a block among blocks. -/
theorem getElem?_skipsAt (compress : Bool) {blocks : List (List BlockPosting)} (offset : Nat)
    {i : Nat} {block : List BlockPosting} (hblock : blocks[i]? = some block) :
    (skipsAt compress offset blocks)[i]? = some (SegmentBuilder.skipEntry block
      ((offset + (blocksData compress (blocks.take i)).length) % 2 ^ 32)
      (blockFlag compress block)) := by
  induction blocks generalizing offset i with
  | nil => exact absurd hblock (by simp)
  | cons first rest ih =>
      cases i with
      | zero =>
          cases hblock
          rfl
      | succ i =>
          have hdata : (blocksData compress (first :: rest.take i)).length =
              (blockData compress first).length + (blocksData compress (rest.take i)).length := by
            rw [blocksData, List.map_cons, List.flatten_cons, List.length_append]
            rfl
          rw [skipsAt, List.getElem?_cons_succ, ih _ (by simpa using hblock), List.take_succ_cons,
            hdata, Nat.add_assoc]

theorem length_skipsAt (compress : Bool) (offset : Nat) (blocks : List (List BlockPosting)) :
    (skipsAt compress offset blocks).length = blocks.length := by
  induction blocks generalizing offset with
  | nil => rfl
  | cons block rest ih => rw [skipsAt, List.length_cons, ih, List.length_cons]

/-! ## Dictionary entries -/

/-- The number of blocks of the lists. -/
def blockTotal (lists : List (List PostingEntry)) : Nat := (lists.flatMap blocksOf).length

/-- The entry of a term with its place in the skip index. -/
theorem getElem?_placedEntries {lists : List (List PostingEntry)} {offset n : Nat}
    (hoffset : offset < 2 ^ 32) {postings : List PostingEntry} (hn : lists[n]? = some postings) :
    (SegmentBuilder.placedEntries offset (lists.map listEntry))[n]? =
      some { listEntry postings with
        skipIndexOffset := (offset + blockTotal (lists.take n) * skipEntrySize) % 2 ^ 32 } := by
  induction lists generalizing offset n with
  | nil => exact absurd hn (by simp)
  | cons first rest ih =>
      cases n with
      | zero =>
          cases hn
          have hnone : (offset + blockTotal ((postings :: rest).take 0) * skipEntrySize) % 2 ^ 32 =
              offset := Nat.mod_eq_of_lt (by simpa [blockTotal] using hoffset)
          rw [hnone]
          rfl
      | succ n =>
          rw [List.map_cons, SegmentBuilder.placedEntries, List.getElem?_cons_succ,
            ih (Nat.mod_lt _ (by decide)) (by simpa using hn), List.take_succ_cons]
          have hsum : blockTotal (first :: rest.take n) =
              (blocksOf first).length + blockTotal (rest.take n) := by
            rw [blockTotal, List.flatMap_cons, List.length_append]
            rfl
          have hcount : (listEntry first).blockCount = (blocksOf first).length := rfl
          rw [hsum, hcount, Nat.add_mul, Nat.mod_add_mod, Nat.add_assoc]

theorem length_placedEntries (offset : Nat) (entries : List DictRecord) :
    (SegmentBuilder.placedEntries offset entries).length = entries.length := by
  induction entries generalizing offset with
  | nil => rfl
  | cons entry entries ih => rw [SegmentBuilder.placedEntries, List.length_cons, ih, List.length_cons]

/-- The entries fit their fields. -/
theorem placedEntries_fits {lists : List (List PostingEntry)}
    (h : ∀ postings ∈ lists, ValidList postings) {r : DictRecord}
    (hr : r ∈ SegmentBuilder.placedEntries 0 (lists.map listEntry)) : r.Fits := by
  obtain ⟨n, hn⟩ := List.mem_iff_getElem?.1 hr
  have hlt := (List.getElem?_eq_some_iff.1 hn).1
  rw [length_placedEntries, List.length_map] at hlt
  rw [getElem?_placedEntries (by decide) (List.getElem?_eq_getElem hlt)] at hn
  cases hn
  exact ⟨Nat.mod_lt _ (by decide), (h _ (List.getElem_mem hlt)).blocksOf.2,
    Nat.mod_lt _ (by decide)⟩

/-! ## The sections of an image -/

/-- The header of an image with the fields cut to their widths points to the same places. -/
theorem PlacedHeader.cut {compress : Bool} {terms : List (List (Fin 256))}
    {lists : List (List PostingEntry)} {header : TpSegmentHeader}
    (h : PlacedHeader compress terms lists header) : PlacedHeader compress terms lists header.cut where
  magic_eq := (congrArg (· % 256 ^ 4) h.magic_eq).trans rfl
  version_eq := (congrArg (· % 256 ^ 4) h.version_eq).trans rfl
  dictionaryOffset_eq := (congrArg (· % 256 ^ 4) h.dictionaryOffset_eq).trans rfl
  stringsOffset_eq := (congrArg (· % 256 ^ 4) h.stringsOffset_eq).trans (Nat.mod_mod _ _)
  entriesOffset_eq := (congrArg (· % 256 ^ 4) h.entriesOffset_eq).trans (Nat.mod_mod _ _)
  skipIndexOffset_eq := (congrArg (· % 256 ^ 4) h.skipIndexOffset_eq).trans (Nat.mod_mod _ _)
  numTerms_eq := (congrArg (· % 256 ^ 4) h.numTerms_eq).trans (Nat.mod_mod _ _)
  tenantMapOffset_eq := (congrArg (· % 256 ^ 4) h.tenantMapOffset_eq).trans rfl
  tenantStatsOffset_eq := (congrArg (· % 256 ^ 4) h.tenantStatsOffset_eq).trans rfl
  tenantDocfreqOffset_eq := (congrArg (· % 256 ^ 4) h.tenantDocfreqOffset_eq).trans rfl
  flags_eq := (congrArg (· % 256 ^ 4) h.flags_eq).trans rfl

/-- Where the sections lie that a reader finds through the header. -/
structure Sections (compress : Bool) (terms : List (List (Fin 256)))
    (lists : List (List PostingEntry)) (data : List (Fin 256)) : Prop where
  dictionary : LiesAt data sizeOfHeader (textDictionary terms)
  strings : LiesAt data (stringsAt terms) (textPool terms)
  entries : LiesAt data (entriesAt terms)
    (entriesImage (SegmentBuilder.placedEntries 0 (lists.map listEntry)))
  blocks : LiesAt data (postingsAt terms) (blocksData compress (lists.flatMap blocksOf))
  skipIndex : LiesAt data (skipIndexAt compress terms lists) (skipIndexImage compress terms lists)

section Image

variable {env : BuildEnv} {terms : List (List (Fin 256))} {lists : List (List PostingEntry)}
variable {header : TpSegmentHeader} {tables : List (Fin 256)}

theorem length_entriesImage (records : List DictRecord) :
    (entriesImage records).length = records.length * dictEntrySize := by
  rw [entriesImage, length_flatten_pages fun r hr => ?_, List.length_map]
  obtain ⟨record, -, rfl⟩ := List.mem_map.1 hr
  exact record.length_bytes

theorem image_sections (hlen : lists.length = terms.length) :
    Sections env.compress terms lists (image env terms lists header tables) := by
  have hall := LiesAt.refl (image env terms lists header tables)
  unfold image at hall
  have hentries := hall.left.right
  have hbehind := hall.right
  have hstrings := hall.left.left.right
  have hdict := hall.left.left.left.right
  simp only [List.length_append, TpSegmentHeader.length_bytes, Nat.zero_add]
    at hdict hstrings hentries
  simp only [List.length_append, TpSegmentHeader.length_bytes, Nat.zero_add,
    length_entriesImage, length_placedEntries, List.length_map, hlen] at hbehind
  unfold behindEntries at hbehind
  exact
    { dictionary := hdict
      strings := hstrings
      entries := hentries
      blocks := hbehind.left.left
      skipIndex := hbehind.left.right }

/-- The header is read back. -/
theorem readHeader_image (h : PlacedHeader env.compress terms lists header) :
    readHeader (image env terms lists header tables) = some header.cut := by
  have hsize : sizeOfHeader ≤ (image env terms lists header tables).length := by
    simp only [image, List.length_append, TpSegmentHeader.length_bytes]
    omega
  have hbytes : TpSegmentHeader.ofBytes (image env terms lists header tables) = header.cut := by
    simp only [image, List.append_assoc]
    exact header.ofBytes_bytes env.padding _
  unfold readHeader
  dsimp only
  rw [if_neg (not_lt.2 hsize), hbytes, if_neg (not_not.2 h.cut.magic_eq)]

end Image

/-! ## Reading a term -/

/-- A term is found with its postings: the entry has their number and the number of their
blocks, and every block is described by its skip entry and read at the offset that it gives. -/
def FindsTerm (data : List (Fin 256)) (header : TpSegmentHeader) (term : List (Fin 256))
    (postings : List PostingEntry) : Prop :=
  ∃ (entry : DictRecord) (blocks : List (List BlockPosting)),
    lookupTerm data header.dictionaryOffset header.stringsOffset header.entriesOffset term =
        .ok (some entry) ∧
      entry.docFreq = postings.length ∧ entry.blockCount = blocks.length ∧
      blocks.flatten = postings.map PostingEntry.block ∧
      ∀ (j : Nat) (block : List BlockPosting), blocks[j]? = some block → ∃ skip,
        readSkipEntry data (header.skipIndexOffset + entry.skipIndexOffset + j * skipEntrySize) =
            some skip ∧
          Describes skip.skip block ∧
          readPostingBlock (data.drop skip.postingOffset) skip = some block

section Term

variable {compress : Bool} {terms : List (List (Fin 256))} {lists : List (List PostingEntry)}
variable {data : List (Fin 256)} {header : TpSegmentHeader}
variable (hsections : Sections compress terms lists data) (hsmall : data.length < 2 ^ 32)
variable (hlists : ∀ postings ∈ lists, ValidList postings)
include hsections hsmall hlists

/-- **A skip entry and its block**, by their place among all blocks. -/
theorem readBlock_at {i : Nat} {block : List BlockPosting}
    (hblock : (lists.flatMap blocksOf)[i]? = some block) : ∃ skip,
      readSkipEntry data (skipIndexAt compress terms lists + i * skipEntrySize) = some skip ∧
        Describes skip.skip block ∧
        readPostingBlock (data.drop skip.postingOffset) skip = some block := by
  obtain ⟨postings, hpostings, hin⟩ := List.mem_flatMap.1 (List.mem_of_getElem? hblock)
  have hvalid := (hlists postings hpostings).blocksOf.1 block hin
  obtain ⟨offset, hoffset⟩ : ∃ offset, offset =
      postingsAt terms + (blocksData compress ((lists.flatMap blocksOf).take i)).length := ⟨_, rfl⟩
  obtain ⟨hdescribes, hfits⟩ := skipEntry_spec compress hvalid offset
  have hskip := getElem?_skipsAt compress (postingsAt terms) hblock
  rw [← hoffset] at hskip
  -- the record of the skip entry
  have hrecord : LiesAt data (skipIndexAt compress terms lists + i * skipEntrySize)
      (SegmentBuilder.skipEntry block (offset % 2 ^ 32) (blockFlag compress block)).bytes :=
    hsections.skipIndex.fixedRecord (fun r hr => by
      obtain ⟨s, -, rfl⟩ := List.mem_map.1 hr
      exact s.length_bytes) (by rw [List.getElem?_map, hskip]; rfl)
  -- the data of the block
  have hdata : LiesAt data offset (blockData compress block) := by
    have hlies := hsections.blocks.record (n := i) (r := blockData compress block)
      (by rw [List.getElem?_map, hblock]; rfl)
    rwa [← List.map_take, ← blocksData, ← hoffset] at hlies
  have hplace : offset % 2 ^ 32 = offset := by
    have hle := hdata.length_le
    exact Nat.mod_eq_of_lt (by omega)
  refine ⟨_, ?_, hdescribes, ?_⟩
  · obtain ⟨rest, hdrop⟩ := drop_of_liesAt hrecord
    have hle := hrecord.length_le
    rw [SkipRecord.length_bytes] at hle
    rw [readSkipEntry, if_neg (by omega), hdrop, SkipRecord.ofBytes_bytes hfits]
  · obtain ⟨rest, hdrop⟩ := drop_of_liesAt hdata
    show readPostingBlock (data.drop (offset % 2 ^ 32)) _ = _
    rw [hplace, hdrop]
    exact readPostingBlock_eq compress hvalid hdescribes.docCount_eq rfl rest

variable (hplaced : PlacedHeader compress terms lists header) (hlen : lists.length = terms.length)
variable (hsorted : terms.Pairwise (· < ·))
include hplaced hlen hsorted

/-- The lookup finds the entries of the terms, and nothing else. -/
theorem lookupTerm_sections (term : List (Fin 256)) :
    (∀ (n : Nat) (r : DictRecord), terms[n]? = some term →
        (SegmentBuilder.placedEntries 0 (lists.map listEntry))[n]? = some r →
        lookupTerm data header.dictionaryOffset header.stringsOffset header.entriesOffset term =
          .ok (some r)) ∧
      (term ∉ terms →
        lookupTerm data header.dictionaryOffset header.stringsOffset header.entriesOffset term =
          .ok none) := by
  have hcount : (SegmentBuilder.placedEntries 0 (lists.map listEntry)).length = terms.length := by
    rw [length_placedEntries, List.length_map, hlen]
  have hdictLe := hsections.dictionary.length_le
  have hstringsLe := hsections.strings.length_le
  have hentriesLe := hsections.entries.length_le
  have hserves : ServesTexts (sliceRead data) sizeOfHeader (stringsAt terms) (entriesAt terms) terms
      (SegmentBuilder.placedEntries 0 (lists.map listEntry)) :=
    ServesTexts.of_sections (answers_sliceRead hsections.dictionary)
      (answers_sliceRead hsections.strings) (answers_sliceRead hsections.entries) hcount (by omega)
      (by omega) (by omega)
  have hfour : 4 ≤ (textDictionary terms).length := by
    rw [textDictionary, List.length_append, length_leBytes]
    exact Nat.le_add_right 4 _
  rw [length_entriesImage] at hentriesLe
  rw [hplaced.dictionaryOffset_eq, hplaced.stringsOffset_eq, hplaced.entriesOffset_eq,
    Nat.mod_eq_of_lt (show stringsAt terms < 2 ^ 32 by omega),
    Nat.mod_eq_of_lt (show entriesAt terms < 2 ^ 32 by omega)]
  exact lookupTermBy_texts hserves hsorted hcount (fun r hr => placedEntries_fits hlists hr)
    (by omega) hentriesLe term

/-- **Every term is found with its postings.** -/
theorem findsTerm_sections {n : Nat} {term : List (Fin 256)} {postings : List PostingEntry}
    (hterm : terms[n]? = some term) (hpostings : lists[n]? = some postings) :
    FindsTerm data header term postings := by
  have hentry := getElem?_placedEntries (show 0 < 2 ^ 32 by decide) hpostings
  have hvalid := hlists postings (List.mem_of_getElem? hpostings)
  have hsplit : lists.flatMap blocksOf = (lists.take n).flatMap blocksOf ++
      (blocksOf postings ++ (lists.drop (n + 1)).flatMap blocksOf) := by
    obtain ⟨hn, rfl⟩ := List.getElem?_eq_some_iff.1 hpostings
    conv_lhs => rw [← List.take_append_drop n lists, List.drop_eq_getElem_cons hn]
    rw [List.flatMap_append, List.flatMap_cons]
  have hskipLe := hsections.skipIndex.length_le
  have hskipLen : (skipIndexImage compress terms lists).length =
      (lists.flatMap blocksOf).length * skipEntrySize := by
    rw [skipIndexImage, length_flatten_pages fun r hr => ?_, List.length_map, length_skipsAt]
    obtain ⟨s, -, rfl⟩ := List.mem_map.1 hr
    exact s.length_bytes
  have hbefore : blockTotal (lists.take n) ≤ (lists.flatMap blocksOf).length := by
    rw [hsplit, List.length_append]
    exact Nat.le_add_right _ _
  have hoffset : (0 + blockTotal (lists.take n) * skipEntrySize) % 2 ^ 32 =
      blockTotal (lists.take n) * skipEntrySize := by
    rw [Nat.zero_add]
    refine Nat.mod_eq_of_lt (lt_of_le_of_lt (Nat.mul_le_mul_right _ hbefore) ?_)
    omega
  rw [hoffset] at hentry
  refine ⟨_, blocksOf postings,
    (lookupTerm_sections hsections hsmall hlists hplaced hlen hsorted term).1 n _ hterm hentry,
    ?_, rfl, blocksOf_flatten postings, ?_⟩
  · have hle := hvalid.blocks
    unfold tpBlockSize at hle
    exact Nat.mod_eq_of_lt (by omega)
  · intro j block hblock
    have hplace : (lists.flatMap blocksOf)[blockTotal (lists.take n) + j]? = some block := by
      have hbehind : ((lists.take n).flatMap blocksOf).length ≤ blockTotal (lists.take n) + j :=
        Nat.le_add_right _ _
      rw [hsplit, List.getElem?_append_right hbehind]
      show (blocksOf postings ++ _)[blockTotal (lists.take n) + j - blockTotal (lists.take n)]? = _
      rw [Nat.add_sub_cancel_left, List.getElem?_append_left (List.getElem?_eq_some_iff.1 hblock).1,
        hblock]
    obtain ⟨skip, hread, hdescribes, hdata⟩ := readBlock_at hsections hsmall hlists hplace
    refine ⟨skip, ?_, hdescribes, hdata⟩
    rw [hplaced.skipIndexOffset_eq, Nat.mod_eq_of_lt (by omega), Nat.add_assoc, ← Nat.add_mul]
    exact hread

end Term

/-- **The image of a build read back.** -/
theorem image_reads_back (env : BuildEnv) {terms : List (List (Fin 256))}
    {lists : List (List PostingEntry)} (hlists : ∀ postings ∈ lists, ValidList postings)
    (hlen : lists.length = terms.length) (hsorted : terms.Pairwise (· < ·))
    {data : List (Fin 256)} (hbuild : buildSegment env terms lists = some data)
    (hsmall : data.length < 2 ^ 32) :
    ∃ header, readHeader data = some header ∧
      (∀ (n : Nat) (term : List (Fin 256)) (postings : List PostingEntry),
        terms[n]? = some term → lists[n]? = some postings →
          FindsTerm data header term postings) ∧
      ∀ term ∉ terms, lookupTerm data header.dictionaryOffset header.stringsOffset
        header.entriesOffset term = .ok none := by
  obtain ⟨data', hbuild', hspec⟩ := buildSegment_spec env hlists hlen
  rw [hbuild] at hbuild'
  cases hbuild'
  obtain ⟨header, tables, hplaced, rfl⟩ := hspec hsmall
  have hsections : Sections env.compress terms lists (image env terms lists header tables) :=
    image_sections hlen
  refine ⟨header.cut, readHeader_image hplaced, ?_, ?_⟩
  · intro n term postings hterm hpostings
    exact findsTerm_sections hsections hsmall hlists hplaced.cut hlen hsorted hterm hpostings
  · intro term hterm
    exact (lookupTerm_sections hsections hsmall hlists hplaced.cut hlen hsorted term).2 hterm

/-- **Building and reading a segment.**  For terms in the order of their bytes and valid posting
lists no build panics.  If the image is shorter than 4 GiB, its header is read back, the lookup
finds every term with its postings, block by block, and does not find any other. -/
theorem buildSegment_reads_back (env : BuildEnv) {terms : List (List (Fin 256))}
    {lists : List (List PostingEntry)} (hlists : ∀ postings ∈ lists, ValidList postings)
    (hlen : lists.length = terms.length) (hsorted : terms.Pairwise (· < ·)) :
    ∃ data, buildSegment env terms lists = some data ∧ (data.length < 2 ^ 32 →
      ∃ header, readHeader data = some header ∧
        (∀ (n : Nat) (term : List (Fin 256)) (postings : List PostingEntry),
          terms[n]? = some term → lists[n]? = some postings →
            FindsTerm data header term postings) ∧
        ∀ term ∉ terms, lookupTerm data header.dictionaryOffset header.stringsOffset
          header.entriesOffset term = .ok none) := by
  obtain ⟨data, hbuild, -⟩ := buildSegment_spec env hlists hlen
  exact ⟨data, hbuild, image_reads_back env hlists hlen hsorted hbuild⟩

/-! ### Two terms -/

/-- A compressed build without tenant tables. -/
def twoTermEnv : BuildEnv := ⟨true, 2, 5, 0, 0, 0, ⟨[1, 3], [0, 0], [1, 2], none, none, none⟩⟩

/-- `a` in documents 0 and 1, `ab` in document 1. -/
def twoTermLists : List (List PostingEntry) := [[⟨0, 1, 1, 0⟩, ⟨1, 3, 3, 0⟩], [⟨1, 1, 3, 0⟩]]

theorem twoTermLists_valid : ∀ postings ∈ twoTermLists, ValidList postings := by
  intro postings hpostings
  simp only [twoTermLists, List.mem_cons, List.not_mem_nil, or_false] at hpostings
  rcases hpostings with rfl | rfl <;> exact ⟨by decide, by decide, by decide, by decide⟩

theorem twoTerms_sorted : ([[97], [97, 98]] : List (List (Fin 256))).Pairwise (· < ·) := by
  decide

theorem twoTerms_small {data : List (Fin 256)}
    (hbuild : buildSegment twoTermEnv [[97], [97, 98]] twoTermLists = some data) :
    data.length < 2 ^ 32 := by
  have hsmall : (buildSegment twoTermEnv [[97], [97, 98]] twoTermLists).all
      fun data => decide (data.length < 2 ^ 32) := by decide +kernel
  rw [hbuild] at hsmall
  exact of_decide_eq_true hsmall

theorem buildSegment_reads_back_twoTerms :
    ∃ data header, buildSegment twoTermEnv [[97], [97, 98]] twoTermLists = some data ∧
      readHeader data = some header ∧
      FindsTerm data header [97] [⟨0, 1, 1, 0⟩, ⟨1, 3, 3, 0⟩] ∧
      lookupTerm data header.dictionaryOffset header.stringsOffset header.entriesOffset [98] =
        .ok none := by
  obtain ⟨data, hbuild, hreads⟩ :=
    buildSegment_reads_back twoTermEnv twoTermLists_valid rfl twoTerms_sorted
  obtain ⟨header, hheader, hfound, hmissing⟩ := hreads (twoTerms_small hbuild)
  exact ⟨data, header, hbuild, hheader, hfound 0 _ _ rfl rfl, hmissing [98] (by decide)⟩

end PgTextsearch.RustSegment
