import PgTextsearch.Segment.Compression
import PgTextsearch.Segment.Dictionary
import PgTextsearch.Segment.Layout
import PgTextsearch.Verified.PagedFile

/-!
# The segment file (`segment/segment.h`)

What a segment file says: header, dictionary, string pool, dictionary entries, posting
blocks, skip index, document sections and tenant sections follow each other without gaps.
Writers are related to readers by this description: the file of a writer has the parts in
their places, and a reader needs nothing else.

## Main results

* `places_image` — every section lies at the offset its header field has.
* `Places.dictRecord`, `Places.stringRecord`, `Places.skipRecord`, `Places.blockImage` —
  and so does every record of a section.
-/

namespace PgTextsearch.Segment.File

open PgTextsearch.Postgres PgTextsearch.Verified

/-- The contents of a segment file, above the bytes.  Of the tenant sections only the
bytes are kept: readers of postings do not look at them. -/
structure Parts where
  terms : List CString
  entries : List DictEntry
  compress : Bool
  fieldnorms : List (Fin 256)
  ctids : List ItemPointer
  tenantSections : List (Fin 256)

/-- The data of a posting block. -/
def blockImage (compress : Bool) (b : Block) : List (Fin 256) :=
  if compress then compressBlock b.postings else postingsBytes b.postings

/-- The flags of a skip entry. -/
def blockFlags (compress : Bool) : Nat :=
  if compress then tpBlockFlagDelta else tpBlockFlagUncompressed

/-- A string of the pool: length, text, and the offset of the dictionary entry. -/
def stringRecord (t : CString) (index : Nat) : List (Fin 256) :=
  leBytes 4 t.bytes.length ++ t.bytes ++ leBytes 4 (index * dictEntrySize)

/-- `sizeof(uint32) + term_len + sizeof(uint32)`. -/
def stringSize (t : CString) : Nat := 4 + t.bytes.length + 4

theorem length_stringRecord (t : CString) (index : Nat) :
    (stringRecord t index).length = stringSize t := by
  rw [stringRecord, List.length_append, List.length_append, length_leBytes, length_leBytes]
  rfl

theorem length_blockImage_false (b : Block) :
    (blockImage false b).length = b.postings.length * blockPostingSize :=
  length_postingsBytes b.postings

/-- The dictionary immediately follows the header. -/
def dictionaryOffset : Nat := headerSize

namespace Parts

variable (f : Parts)

/-! ## Sections -/

/-- All blocks, term after term. -/
def blocks : List Block := f.entries.flatMap DictEntry.blocks

/-- `TpDictionary`: the number of terms and the offsets in the string pool. -/
def dictionarySection : List (Fin 256) :=
  leBytes 4 f.terms.length ++
    ((runningOffsets 0 (f.terms.map stringSize)).map (leBytes 4)).flatten

def stringRecords : List (List (Fin 256)) := f.terms.zipIdx.map fun p => stringRecord p.1 p.2

def stringsOffset : Nat := dictionaryOffset + f.dictionarySection.length

def entriesOffset : Nat := f.stringsOffset + f.stringRecords.flatten.length

def postingsOffset : Nat := f.entriesOffset + f.entries.length * dictEntrySize

def blockImages : List (List (Fin 256)) := f.blocks.map (blockImage f.compress)

/-- Where the data of the blocks begin. -/
def blockOffsets : List Nat := runningOffsets f.postingsOffset (f.blockImages.map List.length)

/-- Where the data of one block begin. -/
def blockOffset (n : Nat) : Nat := f.postingsOffset + (f.blockImages.take n).flatten.length

def skipRecords : List SkipRecord :=
  (f.blocks.zip f.blockOffsets).map fun p => ⟨p.1.skip, p.2, blockFlags f.compress⟩

def skipIndexOffset : Nat := f.postingsOffset + f.blockImages.flatten.length

/-- The index of the first skip entry of each term. -/
def skipStarts : List Nat := runningOffsets 0 (f.entries.map fun e => e.blocks.length)

def dictRecords : List DictRecord :=
  (f.entries.zip f.skipStarts).map fun p =>
    ⟨f.skipIndexOffset + p.2 * skipEntrySize, p.1.blockCount, p.1.docFreq⟩

def fieldnormOffset : Nat := f.skipIndexOffset + f.blocks.length * skipEntrySize

def ctidPagesOffset : Nat := f.fieldnormOffset + f.fieldnorms.length

def ctidOffsetsOffset : Nat := f.ctidPagesOffset + f.ctids.length * 4

def tenantOffset : Nat := f.ctidOffsetsOffset + f.ctids.length * 2

/-- `data_size`. -/
def size : Nat := f.tenantOffset + f.tenantSections.length

/-- The number of pages the file takes. -/
def numPages : Nat := (f.size - 1) / segmentDataPerPage + 1

def entriesSection : List (Fin 256) := (f.dictRecords.map DictRecord.bytes).flatten

def skipSection : List (Fin 256) := (f.skipRecords.map SkipRecord.bytes).flatten

def ctidPagesSection : List (Fin 256) := (f.ctids.map fun c => leBytes 4 c.blkid).flatten

def ctidOffsetsSection : List (Fin 256) := (f.ctids.map fun c => leBytes 2 c.posid).flatten

/-- The file, from the header to the last section. -/
def image (header : Header) : List (Fin 256) :=
  header.bytes ++ (f.dictionarySection ++ (f.stringRecords.flatten ++ (f.entriesSection ++
    (f.blockImages.flatten ++ (f.skipSection ++ (f.fieldnorms ++ (f.ctidPagesSection ++
      (f.ctidOffsetsSection ++ f.tenantSections))))))))

/-! ## Sizes -/

theorem stringOffsets_width :
    ∀ r ∈ (runningOffsets 0 (f.terms.map stringSize)).map (leBytes 4), r.length = 4 := by
  intro r hr
  obtain ⟨n, -, rfl⟩ := List.mem_map.1 hr
  exact length_leBytes 4 n

theorem length_dictionarySection : f.dictionarySection.length = 4 + f.terms.length * 4 := by
  rw [dictionarySection, List.length_append, length_leBytes,
    length_flatten_pages f.stringOffsets_width,
    List.length_map, length_runningOffsets, List.length_map]

theorem length_stringRecords : f.stringRecords.length = f.terms.length := by
  rw [stringRecords, List.length_map, List.length_zipIdx]

theorem map_length_stringRecords :
    f.stringRecords.map List.length = f.terms.map stringSize := by
  rw [stringRecords, List.map_map]
  have hsize : ∀ p ∈ f.terms.zipIdx, (List.length ∘ fun p : CString × Nat =>
      stringRecord p.1 p.2) p = (stringSize ∘ Prod.fst) p :=
    fun p _ => length_stringRecord p.1 p.2
  rw [List.map_congr_left hsize, ← List.map_map, List.zipIdx_map_fst]

theorem length_dictRecords : f.dictRecords.length = f.entries.length := by
  rw [dictRecords, List.length_map, List.length_zip, skipStarts, length_runningOffsets,
    List.length_map, Nat.min_self]

theorem length_skipRecords : f.skipRecords.length = f.blocks.length := by
  rw [skipRecords, List.length_map, List.length_zip, blockOffsets, length_runningOffsets,
    List.length_map, blockImages, List.length_map, Nat.min_self]

theorem entriesSection_width : ∀ r ∈ f.dictRecords.map DictRecord.bytes,
    r.length = dictEntrySize := by
  intro r hr
  obtain ⟨e, -, rfl⟩ := List.mem_map.1 hr
  exact e.length_bytes

theorem skipSection_width : ∀ r ∈ f.skipRecords.map SkipRecord.bytes, r.length = skipEntrySize := by
  intro r hr
  obtain ⟨s, -, rfl⟩ := List.mem_map.1 hr
  exact s.length_bytes

theorem ctidPages_width : ∀ r ∈ f.ctids.map fun c => leBytes 4 c.blkid, r.length = 4 := by
  intro r hr
  obtain ⟨c, -, rfl⟩ := List.mem_map.1 hr
  exact length_leBytes 4 _

theorem ctidOffsets_width : ∀ r ∈ f.ctids.map fun c => leBytes 2 c.posid, r.length = 2 := by
  intro r hr
  obtain ⟨c, -, rfl⟩ := List.mem_map.1 hr
  exact length_leBytes 2 _

theorem length_entriesSection : f.entriesSection.length = f.entries.length * dictEntrySize := by
  rw [entriesSection, length_flatten_pages f.entriesSection_width, List.length_map,
    length_dictRecords]

theorem length_skipSection : f.skipSection.length = f.blocks.length * skipEntrySize := by
  rw [skipSection, length_flatten_pages f.skipSection_width, List.length_map, length_skipRecords]

theorem length_ctidPagesSection : f.ctidPagesSection.length = f.ctids.length * 4 := by
  rw [ctidPagesSection, length_flatten_pages f.ctidPages_width, List.length_map]

theorem length_ctidOffsetsSection : f.ctidOffsetsSection.length = f.ctids.length * 2 := by
  rw [ctidOffsetsSection, length_flatten_pages f.ctidOffsets_width, List.length_map]

theorem length_image (header : Header) : (f.image header).length = f.size := by
  unfold image size tenantOffset ctidOffsetsOffset ctidPagesOffset fieldnormOffset skipIndexOffset
    postingsOffset entriesOffset stringsOffset dictionaryOffset
  simp only [List.length_append, Header.length_bytes, length_entriesSection, length_skipSection,
    length_ctidPagesSection, length_ctidOffsetsSection]
  omega

/-- Blocks lie in front of the skip index. -/
theorem blockOffset_le (n : Nat) : f.blockOffset n ≤ f.skipIndexOffset := by
  unfold blockOffset skipIndexOffset
  have hle : (f.blockImages.take n).flatten.length ≤ f.blockImages.flatten.length := by
    conv_rhs => rw [← List.take_append_drop n f.blockImages]
    rw [List.flatten_append, List.length_append]
    exact Nat.le_add_right _ _
  exact Nat.add_le_add_left hle _

/-- The pages have room for the file. -/
theorem size_le : f.size ≤ f.numPages * segmentDataPerPage := by
  have hdiv := Nat.div_add_mod (f.size - 1) segmentDataPerPage
  have hmod := Nat.mod_lt (f.size - 1) (show 0 < segmentDataPerPage by decide)
  unfold numPages
  rw [Nat.succ_mul, Nat.mul_comm]
  omega

end Parts

/-- The header describes the file. -/
structure HeaderOf (header : Header) (f : Parts) : Prop where
  magic_eq : header.magic = tpSegmentMagic
  numPages_eq : header.numPages = f.numPages
  dataSize_eq : header.dataSize = f.size
  numTerms_eq : header.numTerms = f.terms.length % 2 ^ 32
  numDocs_eq : header.numDocs = f.ctids.length
  dictionaryOffset_eq : header.dictionaryOffset = dictionaryOffset
  stringsOffset_eq : header.stringsOffset = f.stringsOffset
  entriesOffset_eq : header.entriesOffset = f.entriesOffset
  postingsOffset_eq : header.postingsOffset = f.postingsOffset
  skipIndexOffset_eq : header.skipIndexOffset = f.skipIndexOffset
  fieldnormOffset_eq : header.fieldnormOffset = f.fieldnormOffset
  ctidPagesOffset_eq : header.ctidPagesOffset = f.ctidPagesOffset
  ctidOffsetsOffset_eq : header.ctidOffsetsOffset = f.ctidOffsetsOffset

/-! ## Places -/

/-- The sections of the file lie where the format says. -/
structure Places (bytes : List (Fin 256)) (f : Parts) : Prop where
  dictionary : LiesAt bytes dictionaryOffset f.dictionarySection
  strings : LiesAt bytes f.stringsOffset f.stringRecords.flatten
  entries : LiesAt bytes f.entriesOffset f.entriesSection
  postings : LiesAt bytes f.postingsOffset f.blockImages.flatten
  skips : LiesAt bytes f.skipIndexOffset f.skipSection
  fieldnorms : LiesAt bytes f.fieldnormOffset f.fieldnorms
  ctidPages : LiesAt bytes f.ctidPagesOffset f.ctidPagesSection
  ctidOffsets : LiesAt bytes f.ctidOffsetsOffset f.ctidOffsetsSection

/-- **Every section is in its place**, whatever fills the last page. -/
theorem places_image (f : Parts) (header : Header) (padding : List (Fin 256)) :
    Places (f.image header ++ padding) f := by
  have hfile : LiesAt (f.image header ++ padding) 0 (f.image header) :=
    ⟨[], padding, rfl, rfl⟩
  have hdictionary := hfile.right
  rw [Header.length_bytes, Nat.zero_add] at hdictionary
  have hstrings := hdictionary.right
  have hentries := hstrings.right
  have hpostings := hentries.right
  rw [f.length_entriesSection] at hpostings
  have hskips := hpostings.right
  have hnorms := hskips.right
  rw [f.length_skipSection] at hnorms
  have hpages := hnorms.right
  have hoffsets := hpages.right
  rw [f.length_ctidPagesSection] at hoffsets
  exact
    { dictionary := hdictionary.left
      strings := hstrings.left
      entries := hentries.left
      postings := hpostings.left
      skips := hskips.left
      fieldnorms := hnorms.left
      ctidPages := hpages.left
      ctidOffsets := hoffsets.left }

namespace Places

variable {bytes : List (Fin 256)} {f : Parts} (h : Places bytes f)
include h

/-- The number of terms heads the dictionary. -/
theorem numTerms : LiesAt bytes dictionaryOffset (leBytes 4 f.terms.length) :=
  h.dictionary.left

/-- The string offset of a term. -/
theorem stringOffset {n : Nat} (hn : n < f.terms.length) :
    LiesAt bytes (dictionaryOffset + 4 + n * 4)
      (leBytes 4 ((f.terms.map stringSize).take n).sum) := by
  have hoffsets := h.dictionary.right
  rw [length_leBytes] at hoffsets
  refine hoffsets.fixedRecord f.stringOffsets_width ?_
  rw [List.getElem?_map, getElem?_runningOffsets 0 (by rwa [List.length_map]), Nat.zero_add]
  rfl

/-- The string of a term. -/
theorem stringRecord {n : Nat} {t : CString} (ht : f.terms[n]? = some t) :
    LiesAt bytes (f.stringsOffset + ((f.terms.map stringSize).take n).sum)
      (File.stringRecord t n) := by
  have hrecord : f.stringRecords[n]? = some (File.stringRecord t n) := by
    rw [Parts.stringRecords, List.getElem?_map, List.getElem?_zipIdx, ht]
    simp
  have hlies := h.strings.record hrecord
  rwa [List.length_flatten, List.map_take, f.map_length_stringRecords] at hlies

/-- The dictionary entry of a term. -/
theorem dictRecord {n : Nat} {e : DictEntry} (he : f.entries[n]? = some e) :
    LiesAt bytes (f.entriesOffset + n * dictEntrySize)
      (DictRecord.bytes ⟨f.skipIndexOffset +
        ((f.entries.map fun e => e.blocks.length).take n).sum * skipEntrySize,
        e.blockCount, e.docFreq⟩) := by
  have hn := (List.getElem?_eq_some_iff.1 he).1
  refine h.entries.fixedRecord f.entriesSection_width ?_
  rw [List.getElem?_map, Parts.dictRecords, List.getElem?_map, List.zip_eq_zipWith,
    List.getElem?_zipWith, he, Parts.skipStarts,
    getElem?_runningOffsets 0 (by rwa [List.length_map]), Nat.zero_add]
  rfl

/-- The data of a block, where its skip entry says. -/
theorem blockImage {n : Nat} {b : Block} (hb : f.blocks[n]? = some b) :
    LiesAt bytes (f.blockOffset n) (File.blockImage f.compress b) := by
  refine h.postings.record ?_
  rw [Parts.blockImages, List.getElem?_map, hb]
  rfl

/-- The skip entry of a block. -/
theorem skipRecord {n : Nat} {b : Block} (hb : f.blocks[n]? = some b) :
    LiesAt bytes (f.skipIndexOffset + n * skipEntrySize)
      (SkipRecord.bytes ⟨b.skip, f.blockOffset n, blockFlags f.compress⟩) := by
  have hn := (List.getElem?_eq_some_iff.1 hb).1
  refine h.skips.fixedRecord f.skipSection_width ?_
  rw [List.getElem?_map, Parts.skipRecords, List.getElem?_map, List.zip_eq_zipWith,
    List.getElem?_zipWith, hb, Parts.blockOffsets,
    getElem?_runningOffsets _ (by rwa [List.length_map, Parts.blockImages, List.length_map]),
    ← List.map_take, ← List.length_flatten]
  rfl

theorem ctidPage {n : Nat} {c : ItemPointer} (hc : f.ctids[n]? = some c) :
    LiesAt bytes (f.ctidPagesOffset + n * 4) (leBytes 4 c.blkid) := by
  refine h.ctidPages.fixedRecord f.ctidPages_width ?_
  rw [List.getElem?_map, hc]
  rfl

theorem ctidOffset {n : Nat} {c : ItemPointer} (hc : f.ctids[n]? = some c) :
    LiesAt bytes (f.ctidOffsetsOffset + n * 2) (leBytes 2 c.posid) := by
  refine h.ctidOffsets.fixedRecord f.ctidOffsets_width ?_
  rw [List.getElem?_map, hc]
  rfl

end Places

end PgTextsearch.Segment.File
