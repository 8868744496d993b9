import PgTextsearch.Segment.FileFormat
import PgTextsearch.Segment.PostingIterator
import PgTextsearch.Verified.BinarySearch

/-!
# Reading segment files (`segment/segment.c`, `segment/scan.c`)

A reader has the header and the pages of the page map; everything else is read by logical
offsets.  Offsets are natural numbers: the pages of a segment are addressed with 32 bits,
and a read that leaves them fails before its offset wraps.

## Main results

* `tpSegmentOpen_spec` — opening a file that is in the format.
* `Reads.init_found`, `Reads.init_none` — the dictionary search is exact.
* `Reads.readBlock_eq`, `Reads.readBlock_error` — loading a block succeeds, except when
  the fixed-size read of a compressed block leaves the pages.
* `yields_iff` — iterating until exhaustion delivers the blocks one after the other.
-/

namespace PgTextsearch.Segment.File

open PgTextsearch.Postgres PgTextsearch.Verified

/-! ## Reading by offsets -/

/-- What reading a segment raises.  The last one stands for `decompress_block` leaving
its buffer. -/
inductive ReadError where
  | invalidSegmentHeader (magic : Nat)
  | pageIndexIncomplete (expected loaded : Nat)
  | invalidLogicalPage (logicalPage numPages logicalOffset : Nat)
  | invalidDirectPage (logicalPage numPages : Nat)
  | blockOutOfBounds
  deriving DecidableEq, Repr

/-- `TpSegmentReader`: the header, and the pages of the page map in order. -/
structure FileReader where
  header : Header
  pages : List (List (Fin 256))
  deriving DecidableEq, Repr

/-- `tp_segment_open`, on the pages that the page index lists. -/
def tpSegmentOpen (file : List (List (Fin 256))) : Except ReadError FileReader :=
  let header := Header.ofBytes (file.headD [])
  if header.magic ≠ tpSegmentMagic then .error (.invalidSegmentHeader header.magic)
  else if file.length < header.numPages then
    .error (.pageIndexIncomplete header.numPages file.length)
  else .ok ⟨header, file.take header.numPages⟩

/-- `tp_segment_read`. -/
def tpSegmentRead (reader : FileReader) (logicalOffset len : Nat) :
    Except ReadError (List (Fin 256)) :=
  match readPages segmentDataPerPage reader.pages logicalOffset len with
  | .ok bytes => .ok bytes
  | .error offset =>
      .error (.invalidLogicalPage (offset / segmentDataPerPage) reader.pages.length offset)

/-- Read a `uint32`. -/
def readUint32 (reader : FileReader) (logicalOffset : Nat) : Except ReadError Nat := do
  let bytes ← tpSegmentRead reader logicalOffset 4
  return byteValue bytes

/-- `tp_segment_get_direct`: the rest of the page, unless the data goes on behind it. -/
def tpSegmentGetDirect (reader : FileReader) (logicalOffset len : Nat) :
    Except ReadError (Option (List (Fin 256))) :=
  if logicalOffset % segmentDataPerPage + len > segmentDataPerPage then .ok none
  else
    match reader.pages[logicalOffset / segmentDataPerPage]? with
    | none =>
        .error (.invalidDirectPage (logicalOffset / segmentDataPerPage) reader.pages.length)
    | some page => .ok (some (page.drop (logicalOffset % segmentDataPerPage)))

/-- `tp_segment_lookup_ctid`. -/
def tpSegmentLookupCtid (reader : FileReader) (docId : Nat) : Except ReadError ItemPointer := do
  let page ← tpSegmentRead reader (reader.header.ctidPagesOffset + docId * 4) 4
  let offset ← tpSegmentRead reader (reader.header.ctidOffsetsOffset + docId * 2) 2
  return ⟨byteValue page, byteValue offset⟩

/-! ## The iterator -/

/-- `TpSegmentPostingIterator`. -/
structure FileIterator where
  reader : FileReader
  dictEntryIdx : Nat
  dictEntry : DictRecord
  initialized : Bool
  finished : Bool
  currentBlock : Nat
  currentInBlock : Nat
  skipEntry : SkipRecord
  blockPostings : Option (List BlockPosting)
  deriving DecidableEq, Repr

/-- The characters in front of the first NUL. -/
def cString (buffer : List (Fin 256)) : List (Fin 256) := buffer.takeWhile (· ≠ 0)

/-- One round of the binary search: compare with the text of a string. -/
def compareAt (reader : FileReader) (term : CString) (mid : Nat) : Except ReadError Int := do
  let stringOffsetValue ← readUint32 reader (reader.header.dictionaryOffset + 4 + mid * 4)
  let stringOffset := reader.header.stringsOffset + stringOffsetValue
  let length ← readUint32 reader stringOffset
  let text ← tpSegmentRead reader (stringOffset + 4) length
  return strcmp term.bytes (cString text)

/-- The binary search of `tp_segment_posting_iterator_init`. -/
def searchDictionary (reader : FileReader) (term : CString) : Except ReadError (Option Nat) := do
  let numTerms ← readUint32 reader reader.header.dictionaryOffset
  threeWaySearch (compareAt reader term) numTerms 0 (numTerms - 1)

/-- The iterator for the dictionary entry that was found. -/
def iteratorAt (reader : FileReader) (mid : Nat) : Except ReadError FileIterator := do
  let bytes ← tpSegmentRead reader (reader.header.entriesOffset + mid * dictEntrySize)
    dictEntrySize
  let dictEntry := DictRecord.ofBytes bytes
  return ⟨reader, mid, dictEntry, true, dictEntry.blockCount == 0, 0, 0, default, none⟩

/-- `tp_segment_posting_iterator_init`: `none` when the term is not found. -/
def tpSegmentPostingIteratorInit (reader : FileReader) (term : CString) :
    Except ReadError (Option FileIterator) :=
  if reader.header.numTerms = 0 ∨ reader.header.dictionaryOffset = 0 then .ok none
  else do
    match ← searchDictionary reader term with
    | none => return none
    | some mid =>
        let it ← iteratorAt reader mid
        return some it

/-- The data of a block.  Plain blocks are read in place when they lie on one page and are
aligned, and are copied otherwise; of a compressed block as many bytes are read as it may
have at most. -/
def readBlockPostings (reader : FileReader) (skip : SkipRecord) :
    Except ReadError (List BlockPosting) :=
  let blockBytes := skip.skip.docCount * blockPostingSize
  let copy := do
    let bytes ← tpSegmentRead reader skip.postingOffset blockBytes
    return postingsOfBytes skip.skip.docCount bytes
  if skip.flags = tpBlockFlagDelta then do
    let compressedBuf ← tpSegmentRead reader skip.postingOffset tpMaxCompressedBlockSize
    match decompressBlock compressedBuf skip.skip.docCount 0 with
    | some postings => return postings
    | none => .error .blockOutOfBounds
  else do
    match ← tpSegmentGetDirect reader skip.postingOffset blockBytes with
    | some data =>
        if (24 + skip.postingOffset % segmentDataPerPage) % 4 = 0 then
          return postingsOfBytes skip.skip.docCount data
        else copy
    | none => copy

/-- The skip entry and the postings of a block. -/
def readBlock (reader : FileReader) (dictEntry : DictRecord) (block : Nat) :
    Except ReadError (SkipRecord × List BlockPosting) := do
  let bytes ← tpSegmentRead reader (dictEntry.skipIndexOffset + block * skipEntrySize)
    skipEntrySize
  let skip := SkipRecord.ofBytes bytes
  let postings ← readBlockPostings reader skip
  return (skip, postings)

namespace FileIterator

/-- `tp_segment_posting_iterator_load_block`. -/
def loadBlock (it : FileIterator) : Except ReadError (Bool × FileIterator) :=
  if it.currentBlock ≥ it.dictEntry.blockCount then .ok (false, it)
  else do
    let (skip, postings) ← readBlock it.reader it.dictEntry it.currentBlock
    return (true,
      { it with skipEntry := skip, blockPostings := some postings, currentInBlock := 0 })

/-- The posting under the cursor. -/
def current (it : FileIterator) : BlockPosting :=
  (it.blockPostings.getD []).getD it.currentInBlock default

/-- The loop of `tp_segment_posting_iterator_next` that leaves exhausted blocks; the block
index grows, so `blockCount + 1` rounds are enough. -/
def leaveBlocks : Nat → FileIterator → Except ReadError (Bool × FileIterator)
  | 0, it => .ok (false, it)
  | fuel + 1, it =>
      if it.currentInBlock ≥ it.skipEntry.skip.docCount then
        let it := { it with currentBlock := it.currentBlock + 1 }
        if it.currentBlock ≥ it.dictEntry.blockCount then .ok (false, { it with finished := true })
        else do
          let (loaded, it) ← it.loadBlock
          if !loaded then return (false, { it with finished := true })
          else leaveBlocks fuel it
      else .ok (true, it)

/-- `tp_segment_posting_iterator_next`. -/
def next (it : FileIterator) : Except ReadError (Option SegmentPosting × FileIterator) :=
  if it.finished || !it.initialized then .ok (none, it)
  else do
    let (loaded, it) ← if it.blockPostings.isNone then it.loadBlock else .ok (true, it)
    if !loaded then return (none, { it with finished := true })
    else do
      let (inside, it) ← leaveBlocks (it.dictEntry.blockCount + 1) it
      if !inside then return (none, it)
      else
        return (some it.current.output, { it with currentInBlock := it.currentInBlock + 1 })

end FileIterator

/-- The iterator delivers these postings, one by one, and then no more. -/
inductive Yields : FileIterator → List SegmentPosting → Prop where
  | done {it it' : FileIterator} (h : it.next = .ok (none, it')) : Yields it []
  | step {it it' : FileIterator} {p : SegmentPosting} {ps : List SegmentPosting}
      (h : it.next = .ok (some p, it')) (rest : Yields it' ps) : Yields it (p :: ps)

/-! ## What a reader relies on -/

/-- Values of the format that fit their fields.  Offsets fit 32 bits since the pages do. -/
structure Parts.Fits (f : Parts) : Prop where
  addressable : f.numPages * segmentDataPerPage ≤ 2 ^ 32
  sorted : f.terms.Pairwise fun s t => s.bytes < t.bytes
  entries_length : f.entries.length = f.terms.length
  blockCount_eq : ∀ e ∈ f.entries, e.blockCount = e.blocks.length
  blockCount_lt : ∀ e ∈ f.entries, e.blocks.length < 2 ^ 16
  docFreq_lt : ∀ e ∈ f.entries, e.docFreq < 2 ^ 32
  block_ne_nil : ∀ b ∈ f.blocks, b.postings ≠ []
  docCount_eq : ∀ b ∈ f.blocks, b.skip.docCount = b.postings.length
  block_le : ∀ b ∈ f.blocks, b.postings.length ≤ tpBlockSize
  lastDocId_lt : ∀ b ∈ f.blocks, b.skip.lastDocId < 2 ^ 32
  blockMaxTf_lt : ∀ b ∈ f.blocks, b.skip.blockMaxTf < 2 ^ 16
  tenantIdLow_lt : ∀ b ∈ f.blocks, b.skip.tenantIdLow < 2 ^ 16
  posting_fits : ∀ b ∈ f.blocks, ∀ p ∈ b.postings, p.docId < 2 ^ 32 ∧ p.frequency < 2 ^ 16
  ctid_fits : ∀ c ∈ f.ctids, c.blkid < 2 ^ 32 ∧ c.posid < 2 ^ 16

/-- The reader has opened a file with these contents. -/
structure Reads (reader : FileReader) (f : Parts) (bytes : List (Fin 256)) : Prop where
  paged : Paged segmentDataPerPage reader.pages bytes
  places : Places bytes f
  pages_length : reader.pages.length = f.numPages
  numTerms_eq : reader.header.numTerms = f.terms.length
  dictionaryOffset_eq : reader.header.dictionaryOffset = dictionaryOffset
  stringsOffset_eq : reader.header.stringsOffset = f.stringsOffset
  entriesOffset_eq : reader.header.entriesOffset = f.entriesOffset
  ctidPagesOffset_eq : reader.header.ctidPagesOffset = f.ctidPagesOffset
  ctidOffsetsOffset_eq : reader.header.ctidOffsetsOffset = f.ctidOffsetsOffset

/-- **Opening** a file reads its header and its pages. -/
theorem tpSegmentOpen_spec {f : Parts} (hfits : f.Fits) {header : Header}
    {pages : List (List (Fin 256))} {padding : List (Fin 256)}
    (h : Paged segmentDataPerPage pages (f.image header ++ padding))
    (hpages : pages.length = f.numPages) (hof : HeaderOf header f) :
    ∃ reader, tpSegmentOpen pages = .ok reader ∧ Reads reader f (f.image header ++ padding) := by
  have hsize := header.length_bytes
  have hne : header.bytes ≠ [] := by
    apply List.ne_nil_of_length_pos
    rw [hsize]
    decide
  have hlies : LiesAt (f.image header ++ padding) 0 header.bytes :=
    (LiesAt.left ⟨[], padding, rfl, rfl⟩ : LiesAt _ 0 header.bytes)
  obtain ⟨page, rest, hpage, hdrop⟩ := h.drop_page hlies hne (by rw [hsize]; decide)
  rw [Nat.zero_div] at hpage
  rw [Nat.zero_mod, List.drop_zero] at hdrop
  have hheader : Header.ofBytes (pages.headD []) = header.cut := by
    rw [List.headD_eq_head?_getD, List.head?_eq_getElem?, hpage, Option.getD_some, hdrop,
      Header.ofBytes_bytes]
  -- everything in the header is below the size of the pages
  have haddr := hfits.addressable
  have htotal : f.size ≤ f.numPages * segmentDataPerPage := by
    have hlen := h.length_eq
    rw [List.length_append, f.length_image, hpages] at hlen
    omega
  have hplaces := places_image f header padding
  have hbound : ∀ {offset : Nat} {part : List (Fin 256)},
      LiesAt (f.image header ++ padding) offset part → offset % 256 ^ 4 = offset := by
    intro offset part hpart
    apply Nat.mod_eq_of_lt
    have hle := hpart.length_le
    rw [h.length_eq, hpages] at hle
    unfold segmentDataPerPage at hle haddr
    omega
  have hterms : f.terms.length < 2 ^ 32 := by
    have hle := hplaces.dictionary.length_le
    rw [h.length_eq, hpages, f.length_dictionarySection] at hle
    omega
  have hmagic : header.cut.magic = tpSegmentMagic := by
    show header.magic % 256 ^ 4 = _
    rw [hof.magic_eq]
    rfl
  have hnum : header.cut.numPages = pages.length := by
    show header.numPages % 256 ^ 4 = _
    rw [hof.numPages_eq, hpages]
    apply Nat.mod_eq_of_lt
    unfold segmentDataPerPage at haddr
    omega
  refine ⟨⟨header.cut, pages⟩, ?_, h, hplaces, hpages, ?_, ?_, ?_, ?_, ?_, ?_⟩
  · unfold tpSegmentOpen
    rw [hheader]
    dsimp only
    rw [if_neg (not_not.2 hmagic), if_neg (by omega), hnum, List.take_length]
  · show header.numTerms % 256 ^ 4 = _
    rw [hof.numTerms_eq]
    omega
  · show header.dictionaryOffset % 256 ^ 4 = _
    rw [hof.dictionaryOffset_eq]
    exact hbound hplaces.dictionary
  · show header.stringsOffset % 256 ^ 4 = _
    rw [hof.stringsOffset_eq]
    exact hbound hplaces.strings
  · show header.entriesOffset % 256 ^ 4 = _
    rw [hof.entriesOffset_eq]
    exact hbound hplaces.entries
  · show header.ctidPagesOffset % 256 ^ 4 = _
    rw [hof.ctidPagesOffset_eq]
    exact hbound hplaces.ctidPages
  · show header.ctidOffsetsOffset % 256 ^ 4 = _
    rw [hof.ctidOffsetsOffset_eq]
    exact hbound hplaces.ctidOffsets

namespace Reads

variable {reader : FileReader} {f : Parts} {bytes : List (Fin 256)}
variable (h : Reads reader f bytes)
include h

theorem length_bytes : bytes.length = f.numPages * segmentDataPerPage := by
  rw [h.paged.length_eq, h.pages_length]

/-- Reading a part of the file. -/
theorem read_part {offset : Nat} {part : List (Fin 256)} (hpart : LiesAt bytes offset part) :
    tpSegmentRead reader offset part.length = .ok part := by
  rw [tpSegmentRead, readPages_part (by decide) h.paged hpart]

theorem read_part_of_length {offset len : Nat} {part : List (Fin 256)}
    (hpart : LiesAt bytes offset part) (hlen : part.length = len) :
    tpSegmentRead reader offset len = .ok part := by
  rw [← hlen]
  exact h.read_part hpart

/-- Parts of the file end within 32 bits. -/
theorem offset_lt (hfits : f.Fits) {offset : Nat} {part : List (Fin 256)}
    (hpart : LiesAt bytes offset part) : offset + part.length < 2 ^ 32 := by
  have hle := hpart.length_le
  have haddr := hfits.addressable
  rw [h.length_bytes] at hle
  unfold segmentDataPerPage at hle haddr
  omega

/-- Reading a number. -/
theorem readUint32_eq {offset n : Nat} (hn : n < 2 ^ 32)
    (hpart : LiesAt bytes offset (leBytes 4 n)) : readUint32 reader offset = .ok n := by
  have hread := h.read_part_of_length hpart (length_leBytes 4 n)
  have hvalue : byteValue (leBytes 4 n) = n := by
    rw [byteValue_leBytes]
    exact Nat.mod_eq_of_lt (by omega)
  rw [readUint32, hread]
  show Except.ok (byteValue (leBytes 4 n)) = _
  rw [hvalue]

/-- **CTIDs** are those of the document map. -/
theorem lookupCtid_eq (hfits : f.Fits) {docId : Nat} {c : ItemPointer}
    (hc : f.ctids[docId]? = some c) : tpSegmentLookupCtid reader docId = .ok c := by
  obtain ⟨hblk, hpos⟩ := hfits.ctid_fits c (List.mem_of_getElem? hc)
  have hpage := h.read_part_of_length (h.places.ctidPage hc) (length_leBytes 4 _)
  have hoffset := h.read_part_of_length (h.places.ctidOffset hc) (length_leBytes 2 _)
  rw [tpSegmentLookupCtid, h.ctidPagesOffset_eq, h.ctidOffsetsOffset_eq, bind_of_eq_ok hpage,
    bind_of_eq_ok hoffset, byteValue_leBytes, byteValue_leBytes, Nat.mod_eq_of_lt (by omega),
    Nat.mod_eq_of_lt (by omega)]
  rfl

/-! ## Finding a term -/

omit h in
theorem cString_of_nul_free {text : List (Fin 256)} (hfree : 0 ∉ text) : cString text = text := by
  rw [cString, List.takeWhile_eq_self_iff]
  intro b hb
  have hne : b ≠ 0 := fun heq => hfree (heq ▸ hb)
  simpa using hne

/-- Comparing with the string of a term. -/
theorem compareAt_eq (hfits : f.Fits) (term : CString) {n : Nat} {t : CString}
    (ht : f.terms[n]? = some t) : compareAt reader term n = .ok (strcmp term.bytes t.bytes) := by
  have hn := (List.getElem?_eq_some_iff.1 ht).1
  have hplace := h.places.stringRecord ht
  have hbound := h.offset_lt hfits hplace
  unfold stringRecord at hplace
  rw [length_stringRecord] at hbound
  have hsize : stringSize t = 4 + t.bytes.length + 4 := rfl
  have hlength := hplace.left.left
  have htext := hplace.left.right
  rw [length_leBytes] at htext
  have hoffset := h.readUint32_eq (by omega) (h.places.stringOffset hn)
  have hlen := h.readUint32_eq (by omega) hlength
  have hread := h.read_part htext
  rw [compareAt, h.dictionaryOffset_eq, h.stringsOffset_eq, bind_of_eq_ok hoffset,
    bind_of_eq_ok hlen, bind_of_eq_ok hread, cString_of_nul_free t.nul_free]
  rfl

/-- The comparisons of the binary search, and their order. -/
private theorem search_spec (hfits : f.Fits) (term : CString) :
    (∀ i < f.terms.length, compareAt reader term i =
        .ok (((f.terms[i]?).map fun t => strcmp term.bytes t.bytes).getD 0)) ∧
      ∀ i j, i < j → j < f.terms.length →
        ((f.terms[i]?).map fun t => strcmp term.bytes t.bytes).getD 0 ≤ 0 →
        ((f.terms[j]?).map fun t => strcmp term.bytes t.bytes).getD 0 < 0 := by
  constructor
  · intro i hi
    have ht := List.getElem?_eq_getElem hi
    rw [h.compareAt_eq hfits term ht, ht]
    rfl
  · intro i j hij hj hle
    rw [List.getElem?_eq_getElem (hij.trans hj)] at hle
    rw [List.getElem?_eq_getElem hj]
    exact strcmp_neg_of_sorted hfits.sorted term.bytes hij hj hle

/-- The dictionary entry of a term as it is stored. -/
def storedEntry (f : Parts) (n : Nat) (e : DictEntry) : DictRecord :=
  ⟨f.skipIndexOffset + ((f.entries.map fun e => e.blocks.length).take n).sum * skipEntrySize,
    e.blockCount, e.docFreq⟩

/-- The entry of a term is read as it was stored. -/
theorem iteratorAt_eq (hfits : f.Fits) {n : Nat} {e : DictEntry} (he : f.entries[n]? = some e) :
    iteratorAt reader n = .ok
      ⟨reader, n, storedEntry f n e, true, e.blockCount == 0, 0, 0, default, none⟩ := by
  have hmem := List.mem_of_getElem? he
  have hentry := h.read_part_of_length (h.places.dictRecord he) (DictRecord.length_bytes _)
  have hskips := h.offset_lt hfits h.places.skips
  rw [f.length_skipSection] at hskips
  have hstart : ((f.entries.map fun e => e.blocks.length).take n).sum ≤ f.blocks.length := by
    rw [Parts.blocks, List.length_flatMap]
    exact List.Sublist.sum_le_sum (List.take_sublist _ _) fun _ _ => Nat.zero_le _
  have hoffset : (storedEntry f n e).skipIndexOffset < 2 ^ 32 := by
    show f.skipIndexOffset + _ * skipEntrySize < 2 ^ 32
    have hmul := Nat.mul_le_mul_right skipEntrySize hstart
    omega
  have hblocks : (storedEntry f n e).blockCount < 2 ^ 16 := by
    show e.blockCount < 2 ^ 16
    rw [hfits.blockCount_eq e hmem]
    exact hfits.blockCount_lt e hmem
  have hrecord := DictRecord.ofBytes_bytes hoffset hblocks (hfits.docFreq_lt e hmem) []
  rw [List.append_nil] at hrecord
  rw [iteratorAt, h.entriesOffset_eq, bind_of_eq_ok hentry]
  show Except.ok (FileIterator.mk reader n (DictRecord.ofBytes (storedEntry f n e).bytes) true
    ((DictRecord.ofBytes (storedEntry f n e).bytes).blockCount == 0) 0 0 default none) = _
  rw [hrecord]
  rfl

/-- The number of terms is read as it was stored. -/
private theorem readNumTerms (hfits : f.Fits) :
    readUint32 reader reader.header.dictionaryOffset = .ok f.terms.length := by
  have hcount := h.offset_lt hfits h.places.dictionary
  rw [f.length_dictionarySection] at hcount
  rw [h.dictionaryOffset_eq]
  exact h.readUint32_eq (by omega) h.places.numTerms

/-- **A term of the segment is found**, with its own entry. -/
theorem init_found (hfits : f.Fits) {term : CString} {n : Nat} {e : DictEntry}
    (ht : f.terms[n]? = some term) (he : f.entries[n]? = some e) :
    tpSegmentPostingIteratorInit reader term = .ok (some
      ⟨reader, n, storedEntry f n e, true, e.blockCount == 0, 0, 0, default, none⟩) := by
  have hn := (List.getElem?_eq_some_iff.1 ht).1
  obtain ⟨hfetch, hmono⟩ := h.search_spec hfits term
  have hsearch : searchDictionary reader term = .ok (some n) := by
    rw [searchDictionary, bind_of_eq_ok (h.readNumTerms hfits)]
    refine threeWaySearch_found hfetch hmono hn ?_
    rw [ht]
    exact (strcmp_eq_zero_iff _ _).2 rfl
  have hne : ¬ (reader.header.numTerms = 0 ∨ reader.header.dictionaryOffset = 0) := by
    rw [h.numTerms_eq, h.dictionaryOffset_eq]
    unfold dictionaryOffset headerSize
    omega
  rw [tpSegmentPostingIteratorInit, if_neg hne, bind_of_eq_ok hsearch]
  show (do
    let it ← iteratorAt reader n
    return some it) = _
  rw [bind_of_eq_ok (h.iteratorAt_eq hfits he)]
  rfl

/-- **A term that the segment does not have** is not found. -/
theorem init_none (hfits : f.Fits) {term : CString} (hterm : term ∉ f.terms) :
    tpSegmentPostingIteratorInit reader term = .ok none := by
  obtain ⟨hfetch, hmono⟩ := h.search_spec hfits term
  have hsearch : searchDictionary reader term = .ok none := by
    rw [searchDictionary, bind_of_eq_ok (h.readNumTerms hfits)]
    refine threeWaySearch_none hfetch hmono ?_
    intro i hi hzero
    rw [List.getElem?_eq_getElem hi] at hzero
    have heq := CString.ext_bytes ((strcmp_eq_zero_iff _ _).1 hzero)
    exact hterm (heq ▸ List.getElem_mem hi)
  unfold tpSegmentPostingIteratorInit
  split
  · rfl
  · rw [bind_of_eq_ok hsearch]
    rfl

/-! ## Loading a block -/

/-- The index of a block of a term among all blocks. -/
def blockIndex (f : Parts) (n j : Nat) : Nat :=
  ((f.entries.map fun e => e.blocks.length).take n).sum + j

omit h in
theorem block_of_entry {n j : Nat} {e : DictEntry} {b : Block} (he : f.entries[n]? = some e)
    (hb : e.blocks[j]? = some b) : f.blocks[blockIndex f n j]? = some b := by
  have hn := (List.getElem?_eq_some_iff.1 he).1
  have hget := (List.getElem?_eq_some_iff.1 he).2
  have hj := (List.getElem?_eq_some_iff.1 hb).1
  have hstart : ((f.entries.map fun e => e.blocks.length).take n).sum =
      ((f.entries.take n).flatMap DictEntry.blocks).length := by
    rw [List.length_flatMap, List.map_take]
  rw [blockIndex, hstart, Parts.blocks, ← List.take_append_drop n f.entries,
    List.drop_eq_getElem_cons hn, hget,
    List.flatMap_append, List.flatMap_cons, List.take_left' (by rw [List.length_take]; omega),
    List.getElem?_append_right (Nat.le_add_right _ _), Nat.add_sub_cancel_left,
    List.getElem?_append_left hj]
  exact hb

/-- The skip entry of a block as it is stored. -/
def storedSkip (f : Parts) (g : Nat) (b : Block) : SkipRecord :=
  ⟨b.skip, f.blockOffset g, blockFlags f.compress⟩

omit h in
theorem storedSkip_fits (hfits : f.Fits) {g : Nat} {b : Block} (hb : b ∈ f.blocks)
    (hoffset : f.blockOffset g < 2 ^ 32) : (storedSkip f g b).Fits where
  lastDocId_lt := hfits.lastDocId_lt b hb
  docCount_lt := by
    show b.skip.docCount < 2 ^ 8
    have hle := hfits.block_le b hb
    unfold tpBlockSize at hle
    rw [hfits.docCount_eq b hb]
    omega
  blockMaxTf_lt := hfits.blockMaxTf_lt b hb
  tenantIdLow_lt := hfits.tenantIdLow_lt b hb
  postingOffset_lt := hoffset
  flags_lt := by
    show blockFlags f.compress < 2 ^ 8
    unfold blockFlags tpBlockFlagDelta tpBlockFlagUncompressed
    split <;> omega

/-- Reading the data of a plain block, in place or by copying. -/
private theorem readBlockPostings_plain (hfits : f.Fits) (hplain : f.compress = false) {g : Nat}
    {b : Block} (hb : f.blocks[g]? = some b) :
    readBlockPostings reader (storedSkip f g b) = .ok b.postings := by
  have hmem := List.mem_of_getElem? hb
  have hpart := h.places.blockImage hb
  have hlen := length_blockImage_false b
  rw [hplain] at hpart
  have hdecode : ∀ rest, postingsOfBytes b.skip.docCount (blockImage false b ++ rest) =
      b.postings := by
    intro rest
    rw [hfits.docCount_eq b hmem]
    exact postingsOfBytes_bytes (fun p hp => (hfits.posting_fits b hmem p hp).1)
      (fun p hp => (hfits.posting_fits b hmem p hp).2) rest
  have hflags : (storedSkip f g b).flags ≠ tpBlockFlagDelta := by
    show blockFlags f.compress ≠ tpBlockFlagDelta
    rw [hplain]
    decide
  have hsize :
    (storedSkip f g b).skip.docCount * blockPostingSize = (blockImage false b).length := by
    show b.skip.docCount * blockPostingSize = _
    rw [hfits.docCount_eq b hmem, hlen]
  have hcopy : (do
      let bytes ← tpSegmentRead reader (f.blockOffset g) (blockImage false b).length
      return postingsOfBytes b.skip.docCount bytes) = Except.ok b.postings := by
    have hdata := hdecode []
    rw [List.append_nil] at hdata
    rw [bind_of_eq_ok (h.read_part hpart), hdata]
    rfl
  have hdirect :
    tpSegmentGetDirect reader (f.blockOffset g) (blockImage false b).length = .ok none ∨
      ∃ rest, tpSegmentGetDirect reader (f.blockOffset g) (blockImage false b).length =
        .ok (some (blockImage false b ++ rest)) := by
    unfold tpSegmentGetDirect
    by_cases hspan : f.blockOffset g % segmentDataPerPage + (blockImage false b).length >
        segmentDataPerPage
    · rw [if_pos hspan]
      exact Or.inl rfl
    · rw [if_neg hspan]
      have hne : blockImage false b ≠ [] := by
        apply List.ne_nil_of_length_pos
        have hpos := List.length_pos_of_ne_nil (hfits.block_ne_nil b hmem)
        rw [hlen]
        exact Nat.mul_pos hpos (by decide)
      obtain ⟨page, rest, hpage, hdrop⟩ := h.paged.drop_page hpart hne (Nat.not_lt.1 hspan)
      refine Or.inr ⟨rest, ?_⟩
      show (match reader.pages[f.blockOffset g / segmentDataPerPage]? with
        | none => _
        | some page => _) = _
      rw [show reader.pages[f.blockOffset g / segmentDataPerPage]? = some page from hpage]
      show Except.ok (some (page.drop (f.blockOffset g % segmentDataPerPage))) = _
      rw [show page.drop (f.blockOffset g % segmentDataPerPage) = _ from hdrop]
  unfold readBlockPostings
  rw [if_neg hflags, hsize]
  rcases hdirect with hnone | ⟨rest, hsome⟩
  · exact (bind_of_eq_ok hnone _).trans hcopy
  · refine (bind_of_eq_ok hsome _).trans ?_
    show (if (24 + f.blockOffset g % segmentDataPerPage) % 4 = 0 then
      Except.ok (postingsOfBytes b.skip.docCount (blockImage false b ++ rest)) else _) = _
    split
    · rw [hdecode rest]
    · exact hcopy

/-- Reading the data of a compressed block takes more bytes than it has, and fails when the
pages do not have them. -/
private theorem readBlockPostings_delta (hfits : f.Fits) (hdelta : f.compress = true) {g : Nat}
    {b : Block} (hb : f.blocks[g]? = some b) :
    (f.blockOffset g + tpMaxCompressedBlockSize ≤ f.numPages * segmentDataPerPage →
        readBlockPostings reader (storedSkip f g b) = .ok b.postings) ∧
      (f.numPages * segmentDataPerPage < f.blockOffset g + tpMaxCompressedBlockSize →
        ∃ err, readBlockPostings reader (storedSkip f g b) = .error err) := by
  have hmem := List.mem_of_getElem? hb
  have hpart := h.places.blockImage hb
  rw [hdelta] at hpart
  have hflags : (storedSkip f g b).flags = tpBlockFlagDelta := by
    show blockFlags f.compress = tpBlockFlagDelta
    rw [hdelta]
    rfl
  have hsize : (blockImage true b).length ≤ tpMaxCompressedBlockSize :=
    length_compressBlock_le (hfits.block_le b hmem) fun p hp => (hfits.posting_fits b hmem p hp).2
  unfold readBlockPostings
  rw [if_pos hflags]
  constructor
  · intro hroom
    obtain ⟨rest, hrest⟩ := hpart.slice_prefix hsize
    have hread : tpSegmentRead reader (f.blockOffset g) tpMaxCompressedBlockSize =
        .ok (blockImage true b ++ rest) := by
      rw [tpSegmentRead, readPages_eq (by decide) h.paged.size_eq
        (Or.inr (by rw [h.pages_length]; exact hroom)), h.paged.flatten_eq, ← hrest]
    have hdecode : decompressBlock (blockImage true b ++ rest) b.skip.docCount 0 =
        some b.postings := by
      rw [hfits.docCount_eq b hmem]
      exact decompressBlock_compressBlock (fun p hp => (hfits.posting_fits b hmem p hp).1)
        (fun p hp => (hfits.posting_fits b hmem p hp).2) rest
    refine (bind_of_eq_ok hread _).trans ?_
    show (match decompressBlock (blockImage true b ++ rest) b.skip.docCount 0 with
      | some postings => Except.ok postings
      | none => Except.error ReadError.blockOutOfBounds) = _
    rw [hdecode]
  · intro hshort
    obtain ⟨o, ho⟩ := readPages_error (by decide) h.paged.size_eq
      (show tpMaxCompressedBlockSize ≠ 0 by decide) (by rw [h.pages_length]; exact hshort)
    refine ⟨.invalidLogicalPage (o / segmentDataPerPage) reader.pages.length o, ?_⟩
    have hread : tpSegmentRead reader (storedSkip f g b).postingOffset tpMaxCompressedBlockSize =
        .error (.invalidLogicalPage (o / segmentDataPerPage) reader.pages.length o) := by
      rw [tpSegmentRead, show readPages segmentDataPerPage reader.pages
        (storedSkip f g b).postingOffset tpMaxCompressedBlockSize = .error o from ho]
    rw [hread]
    rfl

/-- The skip entry of a block is read as it was stored. -/
private theorem readSkip (hfits : f.Fits) {g : Nat} {b : Block} (hb : f.blocks[g]? = some b) :
    tpSegmentRead reader (f.skipIndexOffset + g * skipEntrySize) skipEntrySize =
        .ok (storedSkip f g b).bytes ∧
      SkipRecord.ofBytes (storedSkip f g b).bytes = storedSkip f g b := by
  have hread := h.read_part_of_length (h.places.skipRecord hb) (SkipRecord.length_bytes _)
  have hoffset := h.offset_lt hfits (h.places.blockImage hb)
  have hfitsSkip := storedSkip_fits hfits (List.mem_of_getElem? hb)
    (show f.blockOffset g < 2 ^ 32 by omega)
  have hround := SkipRecord.ofBytes_bytes hfitsSkip []
  rw [List.append_nil] at hround
  exact ⟨hread, hround⟩

/-- Loading a block reads the data its skip entry says. -/
private theorem readBlock_eq_bind (hfits : f.Fits) {n j : Nat} {e : DictEntry} {b : Block}
    (he : f.entries[n]? = some e) (hb : e.blocks[j]? = some b) :
    readBlock reader (storedEntry f n e) j = (do
      let postings ← readBlockPostings reader (storedSkip f (blockIndex f n j) b)
      return (storedSkip f (blockIndex f n j) b, postings)) := by
  obtain ⟨hread, hround⟩ := h.readSkip hfits (block_of_entry he hb)
  have hplace : (storedEntry f n e).skipIndexOffset + j * skipEntrySize =
      f.skipIndexOffset + blockIndex f n j * skipEntrySize := by
    show f.skipIndexOffset + _ * skipEntrySize + j * skipEntrySize = _
    rw [blockIndex, Nat.add_mul, Nat.add_assoc]
  rw [readBlock, hplace, bind_of_eq_ok hread]
  show (do
    let postings ← readBlockPostings reader (SkipRecord.ofBytes (storedSkip f _ b).bytes)
    return (SkipRecord.ofBytes (storedSkip f _ b).bytes, postings)) = _
  rw [hround]

/-- **Loading a block** gives its postings, unless it is compressed and the pages end too
early behind it. -/
theorem readBlock_eq (hfits : f.Fits) {n j : Nat} {e : DictEntry} {b : Block}
    (he : f.entries[n]? = some e) (hb : e.blocks[j]? = some b)
    (hroom : f.compress = true → f.blockOffset (blockIndex f n j) + tpMaxCompressedBlockSize ≤
      f.numPages * segmentDataPerPage) :
    readBlock reader (storedEntry f n e) j =
      .ok (storedSkip f (blockIndex f n j) b, b.postings) := by
  have hblock := block_of_entry he hb
  have hpostings : readBlockPostings reader (storedSkip f (blockIndex f n j) b) =
      .ok b.postings := by
    cases hcompress : f.compress with
    | false => exact h.readBlockPostings_plain hfits hcompress hblock
    | true => exact (h.readBlockPostings_delta hfits hcompress hblock).1 (hroom hcompress)
  rw [h.readBlock_eq_bind hfits he hb, bind_of_eq_ok hpostings]
  rfl

/-- **The read behind the last page** makes loading fail. -/
theorem readBlock_error (hfits : f.Fits) {n j : Nat} {e : DictEntry} {b : Block}
    (he : f.entries[n]? = some e) (hb : e.blocks[j]? = some b) (hdelta : f.compress = true)
    (hshort : f.numPages * segmentDataPerPage <
      f.blockOffset (blockIndex f n j) + tpMaxCompressedBlockSize) :
    ∃ err, readBlock reader (storedEntry f n e) j = .error err := by
  obtain ⟨err, herr⟩ :=
    (h.readBlockPostings_delta hfits hdelta (block_of_entry he hb)).2 hshort
  refine ⟨err, ?_⟩
  rw [h.readBlock_eq_bind hfits he hb, herr]
  rfl

end Reads

/-! ## Iterating -/

/-- The postings of `count` blocks from block `i` on, each block loaded in turn. -/
def readBlocks (reader : FileReader) (dictEntry : DictRecord) :
    Nat → Nat → Except ReadError (List (List BlockPosting))
  | 0, _ => .ok []
  | count + 1, i => do
      let b ← readBlock reader dictEntry i
      let rest ← readBlocks reader dictEntry count (i + 1)
      return b.2 :: rest

/-- Blocks that can be loaded are not empty, and their counts are right. -/
def SoundBlocks (reader : FileReader) (dictEntry : DictRecord) : Prop :=
  ∀ i b, i < dictEntry.blockCount → readBlock reader dictEntry i = .ok b →
    b.1.skip.docCount = b.2.length ∧ b.2 ≠ []

/-- The iterator has loaded block `i` and stands in it, or right behind it. -/
structure Inside (it : FileIterator) (i : Nat) (postings : List BlockPosting) (k : Nat) :
    Prop where
  initialized : it.initialized = true
  finished : it.finished = false
  block : it.currentBlock = i
  lt : i < it.dictEntry.blockCount
  count : it.skipEntry.skip.docCount = postings.length
  loaded : it.blockPostings = some postings
  inBlock : it.currentInBlock = k
  le : k ≤ postings.length

theorem yields_iff_of_next_none {it it' : FileIterator} (h : it.next = .ok (none, it'))
    (out : List SegmentPosting) : Yields it out ↔ out = [] := by
  constructor
  · intro hy
    cases hy with
    | done _ => rfl
    | step hstep _ =>
        rw [h] at hstep
        cases hstep
  · rintro rfl
    exact Yields.done h

theorem yields_iff_of_next_some {it it' : FileIterator} {p : SegmentPosting}
    (h : it.next = .ok (some p, it')) (out : List SegmentPosting) :
    Yields it out ↔ ∃ rest, out = p :: rest ∧ Yields it' rest := by
  constructor
  · intro hy
    cases hy with
    | done hdone =>
        rw [h] at hdone
        cases hdone
    | step hstep rest =>
        rw [h] at hstep
        cases hstep
        exact ⟨_, rfl, rest⟩
  · rintro ⟨rest, rfl, hrest⟩
    exact Yields.step h hrest

theorem not_yields_of_next_error {it : FileIterator} {err : ReadError} (h : it.next = .error err)
    (out : List SegmentPosting) : ¬ Yields it out := by
  intro hy
  cases hy with
  | done hdone =>
      rw [h] at hdone
      cases hdone
  | step hstep _ =>
      rw [h] at hstep
      cases hstep

/-- What is delivered depends on the next step only. -/
theorem yields_congr {it it' : FileIterator} (h : it.next = it'.next) (out : List SegmentPosting) :
    Yields it out ↔ Yields it' out := by
  cases hnext : it'.next with
  | error err =>
      rw [hnext] at h
      exact iff_of_false (not_yields_of_next_error h out) (not_yields_of_next_error hnext out)
  | ok r =>
      obtain ⟨p, it''⟩ := r
      rw [hnext] at h
      cases p with
      | none => rw [yields_iff_of_next_none h, yields_iff_of_next_none hnext]
      | some p => rw [yields_iff_of_next_some h, yields_iff_of_next_some hnext]

/-- The iterator with a block loaded. -/
def FileIterator.atBlock (it : FileIterator) (i : Nat) (b : SkipRecord × List BlockPosting) :
    FileIterator :=
  { it with
    currentBlock := i
    skipEntry := b.1
    blockPostings := some b.2
    currentInBlock := 0 }

theorem FileIterator.loadBlock_eq {it : FileIterator}
    (h : it.currentBlock < it.dictEntry.blockCount) :
    it.loadBlock = (do
      let b ← readBlock it.reader it.dictEntry it.currentBlock
      return (true, it.atBlock it.currentBlock b)) := by
  unfold FileIterator.loadBlock
  exact if_neg (Nat.not_le.2 h)

namespace Inside

variable {it : FileIterator} {i k : Nat} {postings : List BlockPosting}

/-- With a block loaded, all that is left to do is to leave it. -/
private theorem next_eq (h : Inside it i postings k) :
    it.next = (do
      let (inside, it) ← FileIterator.leaveBlocks (it.dictEntry.blockCount + 1) it
      if !inside then return (none, it)
      else
        return (some it.current.output, { it with currentInBlock := it.currentInBlock + 1 })) := by
  unfold FileIterator.next
  rw [h.finished, h.initialized, h.loaded]
  rfl

/-- **Inside a block** the next posting is the one under the cursor. -/
theorem next_of_lt (h : Inside it i postings k) (hk : k < postings.length) :
    it.next = .ok (some postings[k].output, { it with currentInBlock := k + 1 }) ∧
      Inside { it with currentInBlock := k + 1 } i postings (k + 1) := by
  have hstay : FileIterator.leaveBlocks (it.dictEntry.blockCount + 1) it = .ok (true, it) := by
    unfold FileIterator.leaveBlocks
    rw [if_neg (by rw [h.inBlock, h.count]; omega)]
  have hcur : it.current = postings[k] := by
    unfold FileIterator.current
    rw [h.loaded, h.inBlock, Option.getD_some, List.getD_eq_getElem?_getD,
      List.getElem?_eq_getElem hk, Option.getD_some]
  constructor
  · rw [h.next_eq, bind_of_eq_ok hstay]
    show Except.ok (some it.current.output, { it with currentInBlock := it.currentInBlock + 1 }) = _
    rw [hcur, h.inBlock]
  · exact ⟨h.initialized, h.finished, h.block, h.lt, h.count, h.loaded, rfl, hk⟩

/-- **Behind the last block** the iteration ends. -/
theorem next_of_last (h : Inside it i postings postings.length)
    (hlast : it.dictEntry.blockCount ≤ i + 1) : ∃ it', it.next = .ok (none, it') := by
  have hleave : FileIterator.leaveBlocks (it.dictEntry.blockCount + 1) it =
      .ok (false, { it with currentBlock := it.currentBlock + 1, finished := true }) := by
    unfold FileIterator.leaveBlocks
    rw [if_pos (by rw [h.inBlock, h.count])]
    show (if it.currentBlock + 1 ≥ it.dictEntry.blockCount then _ else _) = _
    rw [if_pos (by rw [h.block]; exact hlast)]
  exact ⟨{ it with currentBlock := it.currentBlock + 1, finished := true }, by
    rw [h.next_eq, bind_of_eq_ok hleave]
    rfl⟩

/-- A loaded block. -/
theorem of_atBlock {b : SkipRecord × List BlockPosting} (hinit : it.initialized = true)
    (hfin : it.finished = false) (hsound : SoundBlocks it.reader it.dictEntry)
    (hlt : i < it.dictEntry.blockCount) (hread : readBlock it.reader it.dictEntry i = .ok b) :
    Inside (it.atBlock i b) i b.2 0 :=
  ⟨hinit, hfin, rfl, hlt, (hsound i b hlt hread).1, rfl, rfl, Nat.zero_le _⟩

/-- In a block that was just loaded, the loop that leaves blocks has nothing to do. -/
private theorem leaveBlocks_of_lt (h : Inside it i postings k) (hk : k < postings.length)
    (fuel : Nat) : FileIterator.leaveBlocks (fuel + 1) it = .ok (true, it) := by
  unfold FileIterator.leaveBlocks
  rw [if_neg (by rw [h.inBlock, h.count]; omega)]

/-- **Behind another block** the next one is loaded. -/
theorem next_of_end (h : Inside it i postings postings.length)
    (hsound : SoundBlocks it.reader it.dictEntry) (hlt : i + 1 < it.dictEntry.blockCount) :
    (∃ err, readBlock it.reader it.dictEntry (i + 1) = .error err ∧ it.next = .error err) ∨
      ∃ b, readBlock it.reader it.dictEntry (i + 1) = .ok b ∧
        Inside (it.atBlock (i + 1) b) (i + 1) b.2 0 ∧ it.next = (it.atBlock (i + 1) b).next := by
  have hload : ({ it with currentBlock := i + 1 } : FileIterator).loadBlock = (do
      let b ← readBlock it.reader it.dictEntry (i + 1)
      return (true, it.atBlock (i + 1) b)) := FileIterator.loadBlock_eq hlt
  obtain ⟨fuel, hfuel⟩ : ∃ fuel, it.dictEntry.blockCount = fuel + 1 :=
    ⟨it.dictEntry.blockCount - 1, by omega⟩
  have hleave : FileIterator.leaveBlocks (it.dictEntry.blockCount + 1) it = (do
      let b ← readBlock it.reader it.dictEntry (i + 1)
      FileIterator.leaveBlocks it.dictEntry.blockCount (it.atBlock (i + 1) b)) := by
    conv_lhs => unfold FileIterator.leaveBlocks
    rw [if_pos (by rw [h.inBlock, h.count]), h.block]
    refine (if_neg (Nat.not_le.2 hlt)).trans ?_
    rw [show ({ it with currentBlock := i + 1 } : FileIterator).loadBlock = _ from hload]
    cases readBlock it.reader it.dictEntry (i + 1) with
    | error err => rfl
    | ok b => rfl
  cases hread : readBlock it.reader it.dictEntry (i + 1) with
  | error err =>
      left
      refine ⟨err, rfl, ?_⟩
      rw [h.next_eq, hleave, hread]
      rfl
  | ok b =>
      right
      have hin := of_atBlock h.initialized h.finished hsound hlt hread
      have hpos := List.length_pos_of_ne_nil (hsound (i + 1) b hlt hread).2
      refine ⟨b, rfl, hin, ?_⟩
      rw [h.next_eq, hleave, bind_of_eq_ok hread, hin.next_eq, hfuel,
        hin.leaveBlocks_of_lt hpos fuel,
        show (it.atBlock (i + 1) b).dictEntry.blockCount = fuel + 1 from hfuel,
        hin.leaveBlocks_of_lt hpos (fuel + 1)]

end Inside

/-- The iterator behind the postings of its block. -/
theorem Inside.atEnd {it : FileIterator} {i k : Nat} {postings : List BlockPosting}
    (h : Inside it i postings k) :
    Inside { it with currentInBlock := postings.length } i postings postings.length :=
  ⟨h.initialized, h.finished, h.block, h.lt, h.count, h.loaded, rfl, Nat.le_refl _⟩

/-- Iterating from inside a block delivers the rest of the block first. -/
theorem yields_rest {it : FileIterator} {i k : Nat} {postings : List BlockPosting}
    (h : Inside it i postings k) (out : List SegmentPosting) :
    Yields it out ↔ ∃ behind, out = (postings.drop k).map BlockPosting.output ++ behind ∧
      Yields { it with currentInBlock := postings.length } behind := by
  obtain ⟨rest, hrest⟩ : ∃ n, n = postings.length - k := ⟨_, rfl⟩
  induction rest generalizing it k out with
  | zero =>
      have hk : k = postings.length := le_antisymm h.le (by omega)
      subst hk
      have hsame : ({ it with currentInBlock := postings.length } : FileIterator) = it := by
        rw [← h.inBlock]
      rw [List.drop_length, hsame]
      simp
  | succ rest ih =>
      have hk : k < postings.length := by omega
      obtain ⟨hnext, hin⟩ := h.next_of_lt hk
      rw [yields_iff_of_next_some hnext, List.drop_eq_getElem_cons hk, List.map_cons]
      constructor
      · rintro ⟨o, rfl, ho⟩
        obtain ⟨behind, rfl, hbehind⟩ := (ih hin o (by omega)).1 ho
        exact ⟨behind, rfl, hbehind⟩
      · rintro ⟨behind, rfl, hbehind⟩
        exact ⟨_, rfl, (ih hin _ (by omega)).2 ⟨behind, rfl, hbehind⟩⟩

/-- Loading one more block first. -/
theorem exists_readBlocks_succ {reader : FileReader} {dictEntry : DictRecord} {count i : Nat}
    {b : SkipRecord × List BlockPosting} (hb : readBlock reader dictEntry i = .ok b)
    (Q : List (List BlockPosting) → Prop) :
    (∃ lists, readBlocks reader dictEntry (count + 1) i = .ok lists ∧ Q lists) ↔
      ∃ more, readBlocks reader dictEntry count (i + 1) = .ok more ∧ Q (b.2 :: more) := by
  rw [readBlocks, bind_of_eq_ok hb]
  cases readBlocks reader dictEntry count (i + 1) with
  | error err =>
      refine iff_of_false ?_ ?_
      · rintro ⟨lists, h, -⟩
        cases h
      · rintro ⟨more, h, -⟩
        cases h
  | ok more =>
      constructor
      · rintro ⟨lists, h, hq⟩
        cases h
        exact ⟨more, rfl, hq⟩
      · rintro ⟨more', h, hq⟩
        cases h
        exact ⟨_, rfl, hq⟩

theorem readBlocks_error {reader : FileReader} {dictEntry : DictRecord} {count i : Nat}
    {err : ReadError} (herr : readBlock reader dictEntry i = .error err) :
    readBlocks reader dictEntry (count + 1) i = .error err := by
  rw [readBlocks, herr]
  rfl

/-- **Iterating** from inside a block delivers the rest of the block and then the blocks
behind it, provided that all of them can be loaded. -/
theorem yields_inside {it : FileIterator} {i k : Nat} {postings : List BlockPosting}
    (h : Inside it i postings k) (hsound : SoundBlocks it.reader it.dictEntry)
    (out : List SegmentPosting) :
    Yields it out ↔ ∃ more, readBlocks it.reader it.dictEntry
        (it.dictEntry.blockCount - (i + 1)) (i + 1) = .ok more ∧
      out = (postings.drop k ++ more.flatten).map BlockPosting.output := by
  obtain ⟨left, hleft⟩ : ∃ n, n = it.dictEntry.blockCount - (i + 1) := ⟨_, rfl⟩
  rw [← hleft, yields_rest h]
  have hend := h.atEnd
  -- over the blocks that are still to come
  induction left generalizing it i k postings out with
  | zero =>
      obtain ⟨it', hnext⟩ := hend.next_of_last (show it.dictEntry.blockCount ≤ i + 1 by omega)
      simp only [yields_iff_of_next_none hnext, readBlocks]
      simp
  | succ left ih =>
      have hlt : i + 1 < it.dictEntry.blockCount := by omega
      rcases hend.next_of_end hsound hlt with ⟨err, herr, hnext⟩ | ⟨b, hb, hin, hnext⟩
      · rw [readBlocks_error herr]
        refine iff_of_false ?_ ?_
        · rintro ⟨behind, -, hbehind⟩
          exact not_yields_of_next_error hnext behind hbehind
        · rintro ⟨more, hmore, -⟩
          cases hmore
      · have hstep := fun o => (yields_rest hin o).trans
          (ih hin hsound o (show left = it.dictEntry.blockCount - (i + 1 + 1) by omega) hin.atEnd)
        rw [exists_readBlocks_succ hb]
        simp only [yields_congr hnext, hstep, List.drop_zero, List.flatten_cons, List.map_append]
        constructor
        · rintro ⟨behind, rfl, more, hmore, rfl⟩
          exact ⟨more, hmore, rfl⟩
        · rintro ⟨more, hmore, rfl⟩
          exact ⟨_, rfl, more, hmore, rfl⟩

/-- **Iterating until exhaustion** delivers the postings of all blocks, and ends without
an error exactly when every block can be loaded. -/
theorem yields_iff {it : FileIterator} (hinit : it.initialized = true)
    (hblock : it.currentBlock = 0) (hloaded : it.blockPostings = none)
    (hfin : it.finished = (it.dictEntry.blockCount == 0))
    (hsound : SoundBlocks it.reader it.dictEntry) (out : List SegmentPosting) :
    Yields it out ↔ ∃ lists,
      readBlocks it.reader it.dictEntry it.dictEntry.blockCount 0 = .ok lists ∧
      out = lists.flatten.map BlockPosting.output := by
  by_cases hzero : it.dictEntry.blockCount = 0
  · have hnext : it.next = .ok (none, it) := by
      unfold FileIterator.next
      rw [hfin, hzero]
      rfl
    rw [yields_iff_of_next_none hnext, hzero, readBlocks]
    simp
  · obtain ⟨count, hcount⟩ : ∃ count, it.dictEntry.blockCount = count + 1 :=
      ⟨it.dictEntry.blockCount - 1, by omega⟩
    have hfin' : it.finished = false := by
      rw [hfin, hcount]
      rfl
    have hload : it.loadBlock = (do
        let b ← readBlock it.reader it.dictEntry 0
        return (true, it.atBlock 0 b)) := by
      rw [FileIterator.loadBlock_eq (by omega), hblock]
    have hnext : it.next = (do
        let (loaded, it) ← it.loadBlock
        if !loaded then return (none, { it with finished := true })
        else do
          let (inside, it) ← FileIterator.leaveBlocks (it.dictEntry.blockCount + 1) it
          if !inside then return (none, it)
          else
            return (some it.current.output,
              { it with currentInBlock := it.currentInBlock + 1 })) := by
      unfold FileIterator.next
      rw [hfin', hinit, hloaded]
      rfl
    rw [hcount]
    cases hb : readBlock it.reader it.dictEntry 0 with
    | error err =>
        have herr : it.next = .error err := by
          rw [hnext, hload, hb]
          rfl
        rw [readBlocks_error hb]
        refine iff_of_false (not_yields_of_next_error herr out) ?_
        rintro ⟨lists, h, -⟩
        cases h
    | ok b =>
        have hin :=
          Inside.of_atBlock hinit hfin' hsound (show 0 < it.dictEntry.blockCount by omega) hb
        have hsame : it.next = (it.atBlock 0 b).next := by
          rw [hnext, hload, hb, hin.next_eq]
          rfl
        have hleft : (it.atBlock 0 b).dictEntry.blockCount - (0 + 1) = count := by
          show it.dictEntry.blockCount - (0 + 1) = count
          omega
        rw [yields_congr hsame, yields_inside hin hsound, exists_readBlocks_succ hb, hleft]
        rfl

/-! ## Iterating over a term -/

section Term

variable {reader : FileReader} {f : Parts} {bytes : List (Fin 256)}
variable (h : Reads reader f bytes) (hfits : f.Fits)
include h hfits

/-- The fixed-size read of a compressed block stays in the pages. -/
def HasRoom (f : Parts) (g : Nat) : Prop :=
  f.compress = true →
    f.blockOffset g + tpMaxCompressedBlockSize ≤ f.numPages * segmentDataPerPage

/-- What loading a block gives. -/
theorem readBlock_cases {n j : Nat} {e : DictEntry} {b : Block} (he : f.entries[n]? = some e)
    (hb : e.blocks[j]? = some b) :
    (HasRoom f (Reads.blockIndex f n j) ∧ readBlock reader (Reads.storedEntry f n e) j =
        .ok (Reads.storedSkip f (Reads.blockIndex f n j) b, b.postings)) ∨
      ¬ HasRoom f (Reads.blockIndex f n j) ∧
        ∃ err, readBlock reader (Reads.storedEntry f n e) j = .error err := by
  by_cases hroom : HasRoom f (Reads.blockIndex f n j)
  · exact Or.inl ⟨hroom, h.readBlock_eq hfits he hb hroom⟩
  · refine Or.inr ⟨hroom, ?_⟩
    unfold HasRoom at hroom
    push Not at hroom
    exact h.readBlock_error hfits he hb hroom.1 hroom.2

theorem soundBlocks {n : Nat} {e : DictEntry} (he : f.entries[n]? = some e) :
    SoundBlocks reader (Reads.storedEntry f n e) := by
  intro j b hj hread
  have hmem := List.mem_of_getElem? he
  have hj' : j < e.blocks.length := by
    rw [← hfits.blockCount_eq e hmem]
    exact hj
  have hb := List.getElem?_eq_getElem hj'
  have hin : e.blocks[j] ∈ f.blocks :=
    List.mem_flatMap.2 ⟨e, hmem, List.getElem_mem hj'⟩
  rcases readBlock_cases h hfits he hb with ⟨-, hok⟩ | ⟨-, err, herr⟩
  · rw [hok] at hread
    cases hread
    exact ⟨hfits.docCount_eq _ hin, hfits.block_ne_nil _ hin⟩
  · rw [herr] at hread
    cases hread

/-- Loading all blocks of a term, from one of them on. -/
theorem readBlocks_iff {n : Nat} {e : DictEntry} (he : f.entries[n]? = some e) (count : Nat)
    {j : Nat} (hcount : j + count = e.blocks.length) (lists : List (List BlockPosting)) :
    readBlocks reader (Reads.storedEntry f n e) count j = .ok lists ↔
      (∀ i, j ≤ i → i < e.blocks.length → HasRoom f (Reads.blockIndex f n i)) ∧
        lists = (e.blocks.drop j).map Block.postings := by
  induction count generalizing j lists with
  | zero =>
      have hdrop : e.blocks.drop j = [] := List.drop_eq_nil_of_le (by omega)
      rw [readBlocks, hdrop]
      constructor
      · intro heq
        cases heq
        exact ⟨fun i hji hi => by omega, rfl⟩
      · rintro ⟨-, rfl⟩
        rfl
  | succ count ih =>
      have hj : j < e.blocks.length := by omega
      have hb := List.getElem?_eq_getElem hj
      rw [List.drop_eq_getElem_cons hj, List.map_cons]
      rcases readBlock_cases h hfits he hb with ⟨hroom, hok⟩ | ⟨hnot, err, herr⟩
      · have hiff := @exists_readBlocks_succ _ _ count _ _ hok (· = lists)
        simp only [exists_eq_right] at hiff
        rw [hiff]
        constructor
        · rintro ⟨more, hmore, rfl⟩
          obtain ⟨hrest, rfl⟩ := (ih (by omega) more).1 hmore
          refine ⟨fun i hji hi => ?_, rfl⟩
          rcases Nat.eq_or_lt_of_le hji with rfl | hlt
          · exact hroom
          · exact hrest i hlt hi
        · rintro ⟨hall, rfl⟩
          exact ⟨_, (ih (by omega) _).2 ⟨fun i hji hi => hall i (by omega) hi, rfl⟩, rfl⟩
      · rw [readBlocks_error herr]
        refine iff_of_false (by simp) ?_
        rintro ⟨hall, -⟩
        exact hnot (hall j le_rfl hj)

/-- **A term of the file** is delivered with exactly its postings, in document order,
provided that the reads of its blocks stay in the pages. -/
theorem yields_term {n : Nat} {e : DictEntry} (he : f.entries[n]? = some e)
    (out : List SegmentPosting) :
    Yields ⟨reader, n, Reads.storedEntry f n e, true, e.blockCount == 0, 0, 0, default, none⟩ out ↔
      (∀ j < e.blocks.length, HasRoom f (Reads.blockIndex f n j)) ∧
        out = e.postings.map BlockPosting.output := by
  have hcount := hfits.blockCount_eq e (List.mem_of_getElem? he)
  rw [yields_iff rfl rfl rfl rfl (soundBlocks h hfits he)]
  show (∃ lists, readBlocks reader (Reads.storedEntry f n e) e.blockCount 0 = .ok lists ∧ _) ↔ _
  rw [hcount]
  simp only [readBlocks_iff h hfits he e.blocks.length (Nat.zero_add _), List.drop_zero]
  constructor
  · rintro ⟨lists, ⟨hroom, rfl⟩, rfl⟩
    exact ⟨fun j hj => hroom j (Nat.zero_le j) hj, by rw [DictEntry.postings, List.flatMap]⟩
  · rintro ⟨hroom, rfl⟩
    exact ⟨_, ⟨fun j _ hj => hroom j hj, rfl⟩, by rw [DictEntry.postings, List.flatMap]⟩

end Term

end PgTextsearch.Segment.File
