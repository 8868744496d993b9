import PgTextsearch.Segment.FileFormat

/-!
# Writing segment files (`segment/segment.c`)

`tp_write_segment` streams the memtable to pages: header and dictionary entries go out as
placeholders, offsets are taken from the position of the stream, and the dictionary
entries and the header are patched in place when everything is known.

## Main results

* `tpWriteSegment_spec` — the pages hold the file of the memtable, with its sections in
  their places.
-/

namespace PgTextsearch.Segment.File

open PgTextsearch.Postgres PgTextsearch.Verified

/-! ## The segment writer -/

/-- `TpSegmentWriter`; the pages are those allocated so far, by logical page. -/
abbrev Writer := PageWriter (Fin 256)

/-- `tp_segment_writer_init`. -/
def tpSegmentWriterInit : Writer := PageWriter.start segmentDataPerPage 0

/-- `tp_segment_writer_write`. -/
def tpSegmentWriterWrite (w : Writer) (data : List (Fin 256)) : Writer :=
  w.write segmentDataPerPage 0 data

/-- A loop of `tp_segment_writer_write`. -/
def tpSegmentWriterWriteAll (w : Writer) (pieces : List (List (Fin 256))) : Writer :=
  w.writeAll segmentDataPerPage 0 pieces

/-- `tp_segment_writer_flush`. -/
def tpSegmentWriterFlush (w : Writer) : Writer := w.flush segmentDataPerPage 0

/-- `tp_segment_writer_finish`: flush what is left in the buffer. -/
def tpSegmentWriterFinish (w : Writer) : Writer :=
  if w.buffer = [] then w else tpSegmentWriterFlush w

/-! ## Sections -/

/-- What the server and the shared state add to a segment: the time, the statistics of the
placeholder header, and the root of the page index. -/
structure WriteEnv where
  createdAt : Nat
  totalDocs : Nat
  totalLen : Nat
  pageIndexRoot : Nat

/-- What writing a segment raises. -/
inductive WriteError where
  | segment (error : SegmentError)
  | dictEntryBeyondPages (index : Nat)
  deriving DecidableEq, Repr

/-- The writer and the header that is still in memory. -/
structure FileState where
  writer : Writer
  header : Header

/-- The placeholder header. -/
def initialHeader (env : WriteEnv) (numTerms : Nat) : Header where
  magic := tpSegmentMagic
  version := tpSegmentFormatVersion
  createdAt := env.createdAt
  numPages := 0
  dataSize := 0
  level := 0
  nextSegment := invalidBlockNumber
  dictionaryOffset := headerSize
  stringsOffset := 0
  entriesOffset := 0
  postingsOffset := 0
  skipIndexOffset := 0
  fieldnormOffset := 0
  ctidPagesOffset := 0
  ctidOffsetsOffset := 0
  numTerms := numTerms
  numDocs := env.totalDocs
  totalTokens := env.totalLen
  pageIndex := 0
  tenantMapOffset := 0
  tenantStatsOffset := 0
  tenantDocfreqOffset := 0
  tenantRangesOffset := 0
  flags := 0

/-- Header, dictionary, string pool, and placeholders for the dictionary entries. -/
def writeDictionary (env : WriteEnv) (terms : List CString) : FileState :=
  let header := initialHeader env terms.length
  let w := tpSegmentWriterWrite tpSegmentWriterInit header.bytes
  let w := tpSegmentWriterWrite w (leBytes 4 terms.length)
  let stringOffsets := runningOffsets 0 (terms.map stringSize)
  let w := tpSegmentWriterWrite w (stringOffsets.map (leBytes 4)).flatten
  let header := { header with stringsOffset := w.currentOffset }
  let w := tpSegmentWriterWriteAll w (terms.zipIdx.flatMap fun p =>
    [leBytes 4 p.1.bytes.length, p.1.bytes, leBytes 4 (p.2 * dictEntrySize)])
  let header := { header with entriesOffset := w.currentOffset }
  let w := tpSegmentWriterWriteAll w (terms.map fun _ => DictRecord.bytes ⟨0, 0, 0⟩)
  ⟨w, { header with postingsOffset := w.currentOffset }⟩

/-- `TermBlockInfo`; the posting offset in it is not used. -/
structure TermBlockInfo where
  blockCount : Nat
  docFreq : Nat
  skipEntryStart : Nat
  deriving DecidableEq, Repr

/-- The streaming pass: the writer, the skip entries of all terms so far, and what is
known about the terms. -/
structure PostingsState where
  writer : Writer
  skips : List SkipRecord
  termBlocks : List TermBlockInfo

/-- One round of the block loop. -/
def writeBlock (compress : Bool) (st : PostingsState) (b : Block) : PostingsState :=
  { st with
    writer := tpSegmentWriterWrite st.writer (blockImage compress b)
    skips := st.skips ++ [⟨b.skip, st.writer.currentOffset, blockFlags compress⟩] }

/-- One round of the term loop, with the blocks the postings are cut into. -/
def writeTerm (compress : Bool) (st : PostingsState) (e : DictEntry) : PostingsState :=
  e.blocks.foldl (writeBlock compress)
    { st with termBlocks := st.termBlocks ++ [⟨e.blockCount, e.docFreq, st.skips.length⟩] }

/-- The skip index behind the postings. -/
def writeSkipIndex (st : FileState) (ps : PostingsState) : FileState :=
  let header := { st.header with skipIndexOffset := ps.writer.currentOffset }
  if ps.skips.length > 0 then
    ⟨tpSegmentWriterWrite ps.writer (ps.skips.map SkipRecord.bytes).flatten, header⟩
  else ⟨ps.writer, header⟩

/-- Fieldnorms and CTIDs. -/
def writeDocSections (docmap : DocMapBuilder) (st : FileState) : FileState :=
  let put := fun (w : Writer) (data : List (Fin 256)) =>
    if docmap.numDocs > 0 then tpSegmentWriterWrite w data else w
  let header := { st.header with fieldnormOffset := st.writer.currentOffset }
  let w := put st.writer docmap.fieldnorms
  let header := { header with ctidPagesOffset := w.currentOffset }
  let w := put w (docmap.ctids.map fun c => leBytes 4 c.blkid).flatten
  let header := { header with ctidOffsetsOffset := w.currentOffset }
  let w := put w (docmap.ctids.map fun c => leBytes 2 c.posid).flatten
  ⟨w, { header with numDocs := docmap.numDocs }⟩

/-! ## Tenant sections -/

/-- Three-way comparison of tenant ids. -/
def compareTenant {α : Type} (a b : Nat × α) : Int :=
  if a.1 < b.1 then -1 else if a.1 > b.1 then 1 else 0

/-- `compare_tenant_stats`. -/
def compareTenantStats : Nat × TenantStatsEntry → Nat × TenantStatsEntry → Int := compareTenant

/-- `compare_tenant_docfreq`. -/
def compareTenantDocfreq : Nat × Nat → Nat × Nat → Int := compareTenant

section Tenants

variable (hs : HashSeq) (qs : Qsort)

/-- `compute_term_tenant_docfreq`. -/
def computeTermTenantDocfreq (postings : List MemPosting) : List (Nat × Nat) :=
  let count := fun (ht : AList fun _ : Nat => Nat) (p : MemPosting) =>
    if p.tenantId = 0 then ht
    else
      match ht.lookup p.tenantId with
      | none => ht.insert p.tenantId 1
      | some n => ht.insert p.tenantId (n + 1)
  qs.sort compareTenantDocfreq
    ((hs.scan (postings.foldl count ∅).entries).map fun e => (e.1, e.2))

/-- The tenant map. -/
def tenantMapPieces (docmap : DocMapBuilder) : List (List (Fin 256)) :=
  match docmap.tenantIds with
  | none => []
  | some tids => if docmap.numDocs > 0 then [(tids.map (leBytes 4)).flatten] else []

/-- The tenant statistics. -/
def tenantStatsPieces (mt : Memtable CString) : List (List (Fin 256)) :=
  let stats := qs.sort compareTenantStats
    ((hs.scan mt.tenantStats.entries).map fun e => (e.1, e.2))
  let rows := stats.map fun e => packStruct [4, 4, 8] [e.1, e.2.docCount, e.2.totalLen]
  if stats.length > 0 then [leBytes 4 stats.length, rows.flatten] else [leBytes 4 0]

/-- The document frequencies of the tenants: the offset of each term's list, then the
lists. -/
def tenantDocfreqPieces (terms : List TermInfo) : List (List (Fin 256)) :=
  let lists := terms.map fun t => computeTermTenantDocfreq hs qs t.postings
  let termOffsets := runningOffsets 0 (lists.map fun l => 4 + l.length * 8)
  (termOffsets.map (leBytes 4)).flatten :: lists.flatMap fun l =>
    [leBytes 4 l.length, (l.map fun e => packStruct [4, 4] [e.1, e.2]).flatten]

/-- The tenant ranges. -/
def tenantRangesPieces (docmap : DocMapBuilder) : List (List (Fin 256)) :=
  [leBytes 4 docmap.tenantRanges.length, (docmap.tenantRanges.map fun r =>
    packStruct [4, 4, 4] [r.tenantId, r.firstDocId, r.docCount]).flatten]

/-- Whether the documents are in the order of their tenants. -/
def hasTenantRanges (docmap : DocMapBuilder) : Bool :=
  docmap.tenantOrdered && !docmap.tenantRanges.isEmpty

/-- Tenant map, statistics and document frequencies. -/
def writeTenantData (mt : Memtable CString) (terms : List TermInfo) (docmap : DocMapBuilder)
    (st : FileState) : FileState :=
  let header := { st.header with
    tenantMapOffset := if tenantMapPieces docmap = [] then 0 else st.writer.currentOffset }
  let w := tpSegmentWriterWriteAll st.writer (tenantMapPieces docmap)
  let header := { header with tenantStatsOffset := w.currentOffset }
  let w := tpSegmentWriterWriteAll w (tenantStatsPieces hs qs mt)
  let header := { header with tenantDocfreqOffset := w.currentOffset }
  let w := tpSegmentWriterWriteAll w (tenantDocfreqPieces hs qs terms)
  ⟨w, { header with flags := header.flags ||| tpFlagHasTenantData }⟩

/-- Tenant ranges. -/
def writeTenantRanges (docmap : DocMapBuilder) (st : FileState) : FileState :=
  let header := { st.header with tenantRangesOffset := st.writer.currentOffset }
  ⟨tpSegmentWriterWriteAll st.writer (tenantRangesPieces docmap),
    { header with flags := header.flags ||| tpFlagTenantOrdered }⟩

/-- The tenant sections. -/
def writeTenantSections (hasTenantData : Bool) (mt : Memtable CString) (terms : List TermInfo)
    (docmap : DocMapBuilder) (st : FileState) : FileState :=
  let st := if hasTenantData then writeTenantData hs qs mt terms docmap st else st
  if hasTenantRanges docmap then writeTenantRanges docmap st else st

end Tenants

/-! ## Patching -/

/-- The loop that writes the dictionary entries over their placeholders. -/
def patchEntries (header : Header) : List TermBlockInfo → Nat → List (List (Fin 256)) →
    Except WriteError (List (List (Fin 256)))
  | [], _, pages => .ok pages
  | info :: rest, i, pages =>
      let entry : DictRecord :=
        ⟨header.skipIndexOffset + info.skipEntryStart * skipEntrySize, info.blockCount,
          info.docFreq⟩
      match patchPages segmentDataPerPage pages (header.entriesOffset + i * dictEntrySize)
          entry.bytes with
      | none => .error (.dictEntryBeyondPages i)
      | some pages => patchEntries header rest (i + 1) pages

/-- The header fields that are set on disk. -/
def updateHeader (existing header : Header) : Header :=
  { existing with
    stringsOffset := header.stringsOffset
    entriesOffset := header.entriesOffset
    postingsOffset := header.postingsOffset
    skipIndexOffset := header.skipIndexOffset
    fieldnormOffset := header.fieldnormOffset
    ctidPagesOffset := header.ctidPagesOffset
    ctidOffsetsOffset := header.ctidOffsetsOffset
    numDocs := header.numDocs
    dataSize := header.dataSize
    numPages := header.numPages
    pageIndex := header.pageIndex
    tenantMapOffset := header.tenantMapOffset
    tenantStatsOffset := header.tenantStatsOffset
    tenantDocfreqOffset := header.tenantDocfreqOffset
    tenantRangesOffset := header.tenantRangesOffset
    flags := header.flags }

/-- Update the header in place, on the first page. -/
def patchHeader (header : Header) (pages : List (List (Fin 256))) : List (List (Fin 256)) :=
  pages.modify 0 fun page => overwrite page 0 (updateHeader (Header.ofBytes page) header).bytes

/-- Everything behind the last section: flush, page index, dictionary entries, header.
The buffer is emptied in between, so that finishing does not write the last page again. -/
def finishFile (env : WriteEnv) (termBlocks : List TermBlockInfo) (st : FileState) :
    Except WriteError (List (List (Fin 256))) := do
  let w := tpSegmentWriterFlush st.writer
  let w := { w with buffer := [] }
  let header := { st.header with
    pageIndex := env.pageIndexRoot
    dataSize := w.currentOffset
    numPages := w.disk.length }
  let pages ← patchEntries header termBlocks 0 w.disk
  let w := tpSegmentWriterFinish { w with disk := pages }
  return patchHeader header w.disk

/-! ## Writing the memtable -/

/-- A memtable posting as the segment writer sees it. -/
def MemPosting.entry (p : MemPosting) : PostingEntry := ⟨p.ctid, p.frequency, p.tenantId⟩

/-- `build_docmap_from_memtable`. -/
def buildDocmapFromMemtable (hs : HashSeq) (qs : Qsort) (mt : Memtable CString) :
    Except SegmentError DocMapBuilder := do
  let docmap ← tpDocmapAddAll (fun e => (e.1, e.2.docLength, e.2.tenantId)) tpDocmapCreate
    (hs.scan mt.docLengths.entries)
  return tpDocmapFinalize hs qs docmap

/-- The blocks of all terms.  The document frequency of a memtable list is its length. -/
def termEntries (qs : Qsort) (docmap : DocMapBuilder) (hasTenantData : Bool)
    (terms : List TermInfo) : Except SegmentError (List DictEntry) :=
  terms.mapM fun t =>
    tpWriteSegmentTerm qs docmap hasTenantData t.postings.length (t.postings.map MemPosting.entry)

/-- Lift an error of the document map. -/
def liftSegment {α : Type} : Except SegmentError α → Except WriteError α
  | .ok a => .ok a
  | .error e => .error (.segment e)

/-- The pages of a segment with the given terms, blocks and documents. -/
def writePages (hs : HashSeq) (qs : Qsort) (compress hasTenantData : Bool) (env : WriteEnv)
    (mt : Memtable CString) (docmap : DocMapBuilder) (terms : List TermInfo)
    (entries : List DictEntry) : Except WriteError (List (List (Fin 256))) :=
  let st := writeDictionary env (terms.map TermInfo.term)
  let ps := entries.foldl (writeTerm compress) ⟨st.writer, [], []⟩
  let st := writeSkipIndex st ps
  let st := writeDocSections docmap st
  let st := writeTenantSections hs qs hasTenantData mt terms docmap st
  finishFile env ps.termBlocks st

/-- `tp_write_segment`: nothing is written for an empty dictionary.  The postings are
converted term by term while they are written; an error abandons the segment anyway. -/
def tpWriteSegment (hs : HashSeq) (qs : Qsort) (compress hasTenantData : Bool) (env : WriteEnv)
    (mt : Memtable CString) : Except WriteError (Option (List (List (Fin 256)))) := do
  let docmap ← liftSegment (buildDocmapFromMemtable hs qs mt)
  let terms := tpBuildDictionary hs qs mt
  if terms.isEmpty then return none
  let entries ← liftSegment (termEntries qs docmap hasTenantData terms)
  let pages ← writePages hs qs compress hasTenantData env mt docmap terms entries
  return some pages

/-! ## What is written -/

/-- The writer has written the bytes. -/
def Wrote (w : Writer) (bytes : List (Fin 256)) : Prop :=
  Streams segmentDataPerPage w bytes ∧ w.Tight

theorem wrote_init : Wrote tpSegmentWriterInit [] :=
  ⟨streams_start 0, Or.inl rfl⟩

namespace Wrote

variable {w : Writer} {bytes : List (Fin 256)} (h : Wrote w bytes)
include h

theorem currentOffset_eq : w.currentOffset = bytes.length := h.1.offset_eq

theorem write (data : List (Fin 256)) : Wrote (tpSegmentWriterWrite w data) (bytes ++ data) :=
  h.1.write 0 (by decide) h.2 data

theorem writeAll (pieces : List (List (Fin 256))) :
    Wrote (tpSegmentWriterWriteAll w pieces) (bytes ++ pieces.flatten) :=
  h.1.writeAll 0 (by decide) pieces h.2

/-- Writing that is left out for lack of data. -/
theorem write_if {c : Prop} [Decidable c] (data : List (Fin 256)) (hc : ¬ c → data = []) :
    Wrote (if c then tpSegmentWriterWrite w data else w) (bytes ++ data) := by
  split
  case isTrue => exact h.write data
  case isFalse hn =>
    rw [hc hn, List.append_nil]
    exact h

end Wrote

theorem flatten_flatMap_pieces {α : Type} (a b c : α → List (Fin 256)) (l : List α) :
    (l.flatMap fun x => [a x, b x, c x]).flatten = (l.map fun x => a x ++ b x ++ c x).flatten := by
  induction l with
  | nil => rfl
  | cons x l ih =>
      rw [List.flatMap_cons, List.flatten_append, ih, List.map_cons, List.flatten_cons]
      simp only [List.flatten_cons, List.flatten_nil, List.append_nil, List.append_assoc]

/-- The bytes in front of the postings, with placeholders. -/
def dictionaryBytes (env : WriteEnv) (f : Parts) : List (Fin 256) :=
  (initialHeader env f.terms.length).bytes ++ f.dictionarySection ++ f.stringRecords.flatten ++
    (f.terms.map fun _ => DictRecord.bytes ⟨0, 0, 0⟩).flatten

/-- The number of bytes in front of the postings. -/
theorem length_dictionaryBytes (env : WriteEnv) {f : Parts}
    (hlen : f.entries.length = f.terms.length) :
    (dictionaryBytes env f).length = f.postingsOffset := by
  have hwidth :
    ∀ r ∈ f.terms.map fun _ => DictRecord.bytes ⟨0, 0, 0⟩, r.length = dictEntrySize := by
    intro r hr
    obtain ⟨t, -, rfl⟩ := List.mem_map.1 hr
    exact DictRecord.length_bytes _
  rw [dictionaryBytes, List.length_append, length_flatten_pages hwidth, List.length_map,
    List.length_append, List.length_append, Header.length_bytes, ← hlen]
  rfl

/-- **The dictionary stage.** -/
theorem writeDictionary_spec (env : WriteEnv) {f : Parts}
    (hlen : f.entries.length = f.terms.length) :
    Wrote (writeDictionary env f.terms).writer (dictionaryBytes env f) ∧
      (writeDictionary env f.terms).header = { initialHeader env f.terms.length with
        stringsOffset := f.stringsOffset
        entriesOffset := f.entriesOffset
        postingsOffset := f.postingsOffset } := by
  have hheader := wrote_init.write (initialHeader env f.terms.length).bytes
  rw [List.nil_append] at hheader
  have hdictionary := (hheader.write (leBytes 4 f.terms.length)).write
    ((runningOffsets 0 (f.terms.map stringSize)).map (leBytes 4)).flatten
  rw [List.append_assoc] at hdictionary
  have hstrings := hdictionary.writeAll (f.terms.zipIdx.flatMap fun p =>
    [leBytes 4 p.1.bytes.length, p.1.bytes, leBytes 4 (p.2 * dictEntrySize)])
  rw [flatten_flatMap_pieces] at hstrings
  have hentries := hstrings.writeAll (f.terms.map fun _ => DictRecord.bytes ⟨0, 0, 0⟩)
  have hstringsOffset := hdictionary.currentOffset_eq
  rw [List.length_append, Header.length_bytes] at hstringsOffset
  have hentriesOffset := hstrings.currentOffset_eq
  rw [List.length_append, List.length_append, Header.length_bytes] at hentriesOffset
  have hpostingsOffset := hentries.currentOffset_eq.trans (length_dictionaryBytes env hlen)
  refine ⟨hentries, ?_⟩
  unfold writeDictionary
  dsimp only
  rw [hstringsOffset, hentriesOffset, hpostingsOffset]
  rfl

/-- The skip entries of blocks whose data begin at the offset. -/
def skipsFrom (compress : Bool) (offset : Nat) (blocks : List Block) : List SkipRecord :=
  (blocks.zip (runningOffsets offset ((blocks.map (blockImage compress)).map List.length))).map
    fun p => ⟨p.1.skip, p.2, blockFlags compress⟩

theorem skipsFrom_append (compress : Bool) (offset : Nat) (bs more : List Block) :
    skipsFrom compress offset (bs ++ more) = skipsFrom compress offset bs ++
      skipsFrom compress (offset + (bs.map (blockImage compress)).flatten.length) more := by
  unfold skipsFrom
  rw [List.map_append, List.map_append, runningOffsets_append, List.zip_append (by simp),
    List.map_append, List.length_flatten]

/-- **The block loop** writes the blocks one after the other. -/
theorem writeBlocks_spec (compress : Bool) (bs : List Block) {st : PostingsState}
    {bytes : List (Fin 256)} (h : Wrote st.writer bytes) :
    Wrote (bs.foldl (writeBlock compress) st).writer
        (bytes ++ (bs.map (blockImage compress)).flatten) ∧
      (bs.foldl (writeBlock compress) st).skips =
        st.skips ++ skipsFrom compress bytes.length bs ∧
      (bs.foldl (writeBlock compress) st).termBlocks = st.termBlocks := by
  induction bs generalizing st bytes with
  | nil =>
      rw [List.map_nil, List.flatten_nil, List.append_nil]
      exact ⟨h, (List.append_nil _).symm, rfl⟩
  | cons b bs ih =>
      have hb : Wrote (writeBlock compress st b).writer (bytes ++ blockImage compress b) :=
        h.write (blockImage compress b)
      obtain ⟨hwriter, hskips, hterms⟩ := ih hb
      rw [List.append_assoc] at hwriter
      refine ⟨hwriter, ?_, hterms⟩
      rw [List.foldl_cons, hskips, List.length_append]
      show st.skips ++ [⟨b.skip, st.writer.currentOffset, blockFlags compress⟩] ++ _ = _
      rw [h.currentOffset_eq, List.append_assoc]
      rfl

/-- **The term loop** writes the blocks of all terms and counts the skip entries. -/
theorem writeTerms_spec (compress : Bool) (es : List DictEntry) {st : PostingsState}
    {bytes : List (Fin 256)} (h : Wrote st.writer bytes) :
    Wrote (es.foldl (writeTerm compress) st).writer
        (bytes ++ ((es.flatMap DictEntry.blocks).map (blockImage compress)).flatten) ∧
      (es.foldl (writeTerm compress) st).skips =
        st.skips ++ skipsFrom compress bytes.length (es.flatMap DictEntry.blocks) ∧
      (es.foldl (writeTerm compress) st).termBlocks = st.termBlocks ++
        (es.zip (runningOffsets st.skips.length (es.map fun e => e.blocks.length))).map
          fun p => ⟨p.1.blockCount, p.1.docFreq, p.2⟩ := by
  induction es generalizing st bytes with
  | nil =>
      rw [List.flatMap_nil, List.map_nil, List.flatten_nil, List.append_nil]
      exact ⟨h, (List.append_nil _).symm, (List.append_nil _).symm⟩
  | cons e es ih =>
      have hstart : Wrote ({ st with
          termBlocks := st.termBlocks ++ [⟨e.blockCount, e.docFreq, st.skips.length⟩] }
            : PostingsState).writer bytes := h
      obtain ⟨hwriter, hskips, hterms⟩ := writeBlocks_spec compress e.blocks hstart
      obtain ⟨hwriter', hskips', hterms'⟩ := ih hwriter
      rw [List.foldl_cons]
      show Wrote (es.foldl (writeTerm compress) (e.blocks.foldl (writeBlock compress) _)).writer _ ∧
        (es.foldl (writeTerm compress) (e.blocks.foldl (writeBlock compress) _)).skips = _ ∧
        (es.foldl (writeTerm compress) (e.blocks.foldl (writeBlock compress) _)).termBlocks = _
      have hlen : (skipsFrom compress bytes.length e.blocks).length = e.blocks.length := by
        rw [skipsFrom, List.length_map, List.length_zip, length_runningOffsets, List.length_map,
          List.length_map, Nat.min_self]
      refine ⟨?_, ?_, ?_⟩
      · rw [List.flatMap_cons, List.map_append, List.flatten_append, ← List.append_assoc]
        exact hwriter'
      · rw [hskips', hskips, List.flatMap_cons, skipsFrom_append, List.append_assoc,
          List.length_append]
      · rw [hterms', hterms, hskips, List.length_append, hlen, List.append_assoc]
        rfl

theorem skipRecords_eq (f : Parts) :
    f.skipRecords = skipsFrom f.compress f.postingsOffset f.blocks := rfl

/-- **The skip index** follows the postings. -/
theorem writeSkipIndex_spec {st : FileState} {ps : PostingsState} {bytes : List (Fin 256)}
    (h : Wrote ps.writer bytes) :
    Wrote (writeSkipIndex st ps).writer (bytes ++ (ps.skips.map SkipRecord.bytes).flatten) ∧
      (writeSkipIndex st ps).header = { st.header with skipIndexOffset := bytes.length } := by
  have hnone : ¬ ps.skips.length > 0 → (ps.skips.map SkipRecord.bytes).flatten = [] := by
    intro hzero
    rw [List.length_eq_zero_iff.1 (Nat.eq_zero_of_not_pos hzero)]
    rfl
  have hif := h.write_if _ hnone
  unfold writeSkipIndex
  rw [h.currentOffset_eq]
  split
  case isTrue hc =>
    rw [if_pos hc] at hif
    exact ⟨hif, rfl⟩
  case isFalse hc =>
    rw [if_neg hc] at hif
    exact ⟨hif, rfl⟩

/-- **The document sections.** -/
theorem writeDocSections_spec {st : FileState} {bytes : List (Fin 256)} (h : Wrote st.writer bytes)
    {docmap : DocMapBuilder} (hnorms : docmap.fieldnorms.length = docmap.numDocs)
    (hctids : docmap.ctids.length = docmap.numDocs) :
    Wrote (writeDocSections docmap st).writer (bytes ++ docmap.fieldnorms ++
        (docmap.ctids.map fun c => leBytes 4 c.blkid).flatten ++
        (docmap.ctids.map fun c => leBytes 2 c.posid).flatten) ∧
      (writeDocSections docmap st).header = { st.header with
        fieldnormOffset := bytes.length
        ctidPagesOffset := bytes.length + docmap.fieldnorms.length
        ctidOffsetsOffset := bytes.length + docmap.fieldnorms.length + docmap.ctids.length * 4
        numDocs := docmap.numDocs } := by
  have hnorms0 : ¬ docmap.numDocs > 0 → docmap.fieldnorms = [] :=
    fun h0 => List.length_eq_zero_iff.1 (by omega)
  have hctids0 : ¬ docmap.numDocs > 0 → docmap.ctids = [] :=
    fun h0 => List.length_eq_zero_iff.1 (by omega)
  have hfirst := h.write_if _ hnorms0
  have hsecond := hfirst.write_if (docmap.ctids.map fun c => leBytes 4 c.blkid).flatten
    fun h0 => by
      rw [hctids0 h0]
      rfl
  have hthird := hsecond.write_if (docmap.ctids.map fun c => leBytes 2 c.posid).flatten
    fun h0 => by
      rw [hctids0 h0]
      rfl
  have hpages := hfirst.currentOffset_eq
  rw [List.length_append] at hpages
  have hoffsets := hsecond.currentOffset_eq
  have hwidth : ∀ r ∈ docmap.ctids.map fun c => leBytes 4 c.blkid, r.length = 4 := by
    intro r hr
    obtain ⟨c, -, rfl⟩ := List.mem_map.1 hr
    exact length_leBytes 4 _
  rw [List.length_append, List.length_append, length_flatten_pages hwidth, List.length_map]
    at hoffsets
  refine ⟨hthird, ?_⟩
  unfold writeDocSections
  dsimp only
  rw [h.currentOffset_eq, hpages, hoffsets]

/-- The bytes of the tenant sections. -/
def tenantBytes (hs : HashSeq) (qs : Qsort) (hasTenantData : Bool) (mt : Memtable CString)
    (terms : List TermInfo) (docmap : DocMapBuilder) : List (Fin 256) :=
  (if hasTenantData then (tenantMapPieces docmap).flatten ++ (tenantStatsPieces hs qs mt).flatten ++
      (tenantDocfreqPieces hs qs terms).flatten else []) ++
    if hasTenantRanges docmap then (tenantRangesPieces docmap).flatten else []

/-- The header without the fields of the tenant sections. -/
def withoutTenants (header : Header) : Header :=
  { header with
    tenantMapOffset := 0
    tenantStatsOffset := 0
    tenantDocfreqOffset := 0
    tenantRangesOffset := 0
    flags := 0 }

/-- **The tenant sections** change nothing but their own fields of the header. -/
theorem writeTenantSections_spec (hs : HashSeq) (qs : Qsort) (hasTenantData : Bool)
    (mt : Memtable CString) (terms : List TermInfo) (docmap : DocMapBuilder) {st : FileState}
    {bytes : List (Fin 256)} (h : Wrote st.writer bytes) :
    Wrote (writeTenantSections hs qs hasTenantData mt terms docmap st).writer
        (bytes ++ tenantBytes hs qs hasTenantData mt terms docmap) ∧
      withoutTenants (writeTenantSections hs qs hasTenantData mt terms docmap st).header =
        withoutTenants st.header := by
  have hranges : ∀ {st' : FileState} {bytes' : List (Fin 256)}, Wrote st'.writer bytes' →
      Wrote (if hasTenantRanges docmap then writeTenantRanges docmap st' else st').writer
          (bytes' ++ if hasTenantRanges docmap then (tenantRangesPieces docmap).flatten else []) ∧
        withoutTenants
          (if hasTenantRanges docmap then writeTenantRanges docmap st' else st').header =
          withoutTenants st'.header := by
    intro st' bytes' hw
    split
    · exact ⟨hw.writeAll _, rfl⟩
    · rw [List.append_nil]
      exact ⟨hw, rfl⟩
  unfold tenantBytes
  rw [← List.append_assoc]
  cases hasTenantData with
  | false =>
      rw [if_neg (by decide), List.append_nil]
      exact hranges h
  | true =>
      have hdata : Wrote (writeTenantData hs qs mt terms docmap st).writer
          (bytes ++ ((tenantMapPieces docmap).flatten ++ (tenantStatsPieces hs qs mt).flatten ++
            (tenantDocfreqPieces hs qs terms).flatten)) := by
        rw [← List.append_assoc, ← List.append_assoc]
        exact ((h.writeAll _).writeAll _).writeAll _
      obtain ⟨hwriter, hheader⟩ := hranges hdata
      rw [if_pos rfl]
      exact ⟨hwriter, hheader⟩

/-! ## Patching in place -/

/-- **The dictionary entries** replace their placeholders. -/
theorem patchEntries_spec (header : Header) (infos : List TermBlockInfo)
    {pages : List (List (Fin 256))}
    {before placeholders behind : List (Fin 256)} (i : Nat)
    (h : Paged segmentDataPerPage pages (before ++ placeholders ++ behind))
    (hoffset : before.length = header.entriesOffset + i * dictEntrySize)
    (hlen : placeholders.length = infos.length * dictEntrySize) :
    ∃ pages', patchEntries header infos i pages = .ok pages' ∧ pages'.length = pages.length ∧
      Paged segmentDataPerPage pages' (before ++ (infos.map fun info => DictRecord.bytes
        ⟨header.skipIndexOffset + info.skipEntryStart * skipEntrySize, info.blockCount,
          info.docFreq⟩).flatten ++ behind) := by
  induction infos generalizing pages before placeholders i with
  | nil =>
      have hnil : placeholders = [] := List.length_eq_zero_iff.1 (by simpa using hlen)
      subst hnil
      exact ⟨pages, rfl, rfl, h⟩
  | cons info infos ih =>
      rw [List.length_cons, Nat.succ_mul] at hlen
      obtain ⟨entry, hentry⟩ : ∃ e : DictRecord, e =
        ⟨header.skipIndexOffset + info.skipEntryStart * skipEntrySize, info.blockCount,
          info.docFreq⟩ := ⟨_, rfl⟩
      have hsize := entry.length_bytes
      -- the first placeholder, and the others
      obtain ⟨first, others, rfl, hfirst⟩ : ∃ first others, placeholders = first ++ others ∧
          first.length = dictEntrySize :=
        ⟨placeholders.take dictEntrySize, placeholders.drop dictEntrySize,
          (List.take_append_drop _ _).symm, by rw [List.length_take]; omega⟩
      rw [List.length_append, hfirst] at hlen
      have hne : entry.bytes ≠ [] := by
        apply List.ne_nil_of_length_pos
        rw [hsize]
        decide
      obtain ⟨pages₁, hpatch, hlen₁, hpaged⟩ := h.patchPages hne (by rw [hsize]; decide)
        (show before.length + entry.bytes.length ≤ _ by
          rw [hsize]
          simp only [List.length_append]
          omega)
      have hover : overwrite (before ++ (first ++ others) ++ behind) before.length entry.bytes =
          (before ++ entry.bytes) ++ others ++ behind := by
        rw [← List.append_assoc before first others, List.append_assoc (before ++ first),
          overwrite_middle _ _ _ (by rw [hsize, hfirst]), List.append_assoc (before ++ entry.bytes)]
      rw [hover] at hpaged
      obtain ⟨pages₂, hrest, hlen₂, hpaged₂⟩ := ih (i + 1) hpaged
        (by rw [List.length_append, hsize, hoffset, Nat.succ_mul, Nat.add_assoc]) (by omega)
      refine ⟨pages₂, ?_, hlen₂.trans hlen₁, ?_⟩
      · rw [patchEntries, ← hentry, ← hoffset, hpatch]
        exact hrest
      · rw [List.map_cons, List.flatten_cons, ← List.append_assoc, ← hentry]
        exact hpaged₂

/-- **The header** is updated on the first page. -/
theorem patchHeader_spec (header : Header) {existing : Header} {pages : List (List (Fin 256))}
    {behind : List (Fin 256)} (h : Paged segmentDataPerPage pages (existing.bytes ++ behind)) :
    (patchHeader header pages).length = pages.length ∧
      Paged segmentDataPerPage (patchHeader header pages)
        ((updateHeader existing.cut header).bytes ++ behind) := by
  have hsize := existing.length_bytes
  have hne : existing.bytes ≠ [] := by
    apply List.ne_nil_of_length_pos
    rw [hsize]
    decide
  have hlies : LiesAt (existing.bytes ++ behind) 0 existing.bytes := ⟨[], behind, rfl, rfl⟩
  obtain ⟨page, rest, hpage, hdrop⟩ := h.drop_page hlies hne (by rw [hsize]; decide)
  rw [Nat.zero_div] at hpage
  rw [Nat.zero_mod, List.drop_zero] at hdrop
  have hn := (List.getElem?_eq_some_iff.1 hpage).1
  have hget := (List.getElem?_eq_some_iff.1 hpage).2
  have hupdated := (updateHeader existing.cut header).length_bytes
  have heq : patchHeader header pages = pages.modify 0 fun p =>
      overwrite p 0 (updateHeader existing.cut header).bytes := by
    unfold patchHeader
    rw [List.modify_eq_take_cons_drop hn, List.modify_eq_take_cons_drop hn, hget, hdrop,
      Header.ofBytes_bytes]
  have hmodify := h.modify hn (show 0 + (updateHeader existing.cut header).bytes.length ≤
    segmentDataPerPage by rw [hupdated]; decide)
  have hover := overwrite_middle [] existing.bytes behind (hupdated.trans hsize.symm)
  rw [heq]
  refine ⟨List.length_modify _ _ _, ?_⟩
  rw [Nat.zero_mul, Nat.zero_add] at hmodify
  rw [List.nil_append, List.nil_append, List.length_nil] at hover
  rwa [hover] at hmodify

/-- **Finishing** the file: dictionary entries and header in their places, zeros behind the
last section. -/
theorem finishFile_spec (env : WriteEnv) (infos : List TermBlockInfo) {st : FileState}
    {existing : Header} {front placeholders behind : List (Fin 256)}
    (h : Wrote st.writer (existing.bytes ++ front ++ placeholders ++ behind))
    (hoffset : headerSize + front.length = st.header.entriesOffset)
    (hlen : placeholders.length = infos.length * dictEntrySize) {size : Nat}
    (hsize : (existing.bytes ++ front ++ placeholders ++ behind).length = size) :
    ∃ pages padding, finishFile env infos st = .ok pages ∧
      pages.length = (size - 1) / segmentDataPerPage + 1 ∧
      Paged segmentDataPerPage pages ((updateHeader existing.cut { st.header with
          pageIndex := env.pageIndexRoot
          dataSize := size
          numPages := pages.length }).bytes ++
        (front ++ (infos.map fun info => DictRecord.bytes
          ⟨st.header.skipIndexOffset + info.skipEntryStart * skipEntrySize, info.blockCount,
            info.docFreq⟩).flatten ++ behind ++ padding)) := by
  obtain ⟨padding, hfinish⟩ := h.1.finish 0
  have hnonempty : existing.bytes ++ front ++ placeholders ++ behind ≠ [] := by
    apply List.ne_nil_of_length_pos
    simp only [List.length_append, Header.length_bytes]
    exact Nat.lt_of_lt_of_le (show 0 < headerSize by decide) (by omega)
  have hpages := h.1.length_pages 0 h.2 (by decide) hnonempty
  rw [hsize] at hpages
  obtain ⟨disk, hdisk⟩ : ∃ d, d = (tpSegmentWriterFlush st.writer).disk := ⟨_, rfl⟩
  have hpaged : Paged segmentDataPerPage disk ((existing.bytes ++ front) ++ placeholders ++
      (behind ++ List.replicate padding 0)) := by
    rw [hdisk, ← List.append_assoc]
    exact hfinish
  obtain ⟨header, hheader⟩ : ∃ hd : Header, hd = { st.header with
      pageIndex := env.pageIndexRoot
      dataSize := size
      numPages := disk.length } := ⟨_, rfl⟩
  have hcurrent : (tpSegmentWriterFlush st.writer).currentOffset = size := by
    rw [← hsize, ← h.currentOffset_eq]
    exact (Streams.flush_frame segmentDataPerPage 0 st.writer).2.2
  obtain ⟨pages₁, hpatch, hlen₁, hpaged₁⟩ := patchEntries_spec header infos 0 hpaged
    (by
      rw [List.length_append, Header.length_bytes, hoffset, hheader, Nat.zero_mul, Nat.add_zero])
    hlen
  have hpaged₁' := hpaged₁
  simp only [List.append_assoc] at hpaged₁'
  obtain ⟨hlen₂, hpaged₂⟩ := patchHeader_spec header hpaged₁'
  refine ⟨patchHeader header pages₁, List.replicate padding 0, ?_, ?_, ?_⟩
  · unfold finishFile
    dsimp only
    rw [hcurrent, ← hdisk, ← hheader, bind_of_eq_ok hpatch]
    rfl
  · rw [hlen₂, hlen₁, hdisk]
    exact hpages
  · have hsame : { st.header with
        pageIndex := env.pageIndexRoot
        dataSize := size
        numPages := (patchHeader header pages₁).length } = header := by
      rw [hlen₂, hlen₁, hheader]
    rw [hsame]
    have hskip : header.skipIndexOffset = st.header.skipIndexOffset := by rw [hheader]
    rw [hskip] at hpaged₂
    simp only [List.append_assoc]
    exact hpaged₂

/-! ## The file of a memtable -/

/-- What the file of the given terms, blocks and documents says. -/
def partsOf (compress : Bool) (terms : List TermInfo) (entries : List DictEntry)
    (docmap : DocMapBuilder) (tenants : List (Fin 256)) : Parts where
  terms := terms.map TermInfo.term
  entries := entries
  compress := compress
  fieldnorms := docmap.fieldnorms
  ctids := docmap.ctids
  tenantSections := tenants

section WritePages

variable (hs : HashSeq) (qs : Qsort) (compress hasTenantData : Bool) (env : WriteEnv)
variable (mt : Memtable CString)

/-- **The pages of a segment** hold its file. -/
theorem writePages_spec {docmap : DocMapBuilder} {terms : List TermInfo} {entries : List DictEntry}
    (hnorms : docmap.fieldnorms.length = docmap.numDocs)
    (hctids : docmap.ctids.length = docmap.numDocs) (hlen : entries.length = terms.length)
    {f : Parts} (hf : f = partsOf compress terms entries docmap
      (tenantBytes hs qs hasTenantData mt terms docmap)) :
    ∃ pages header padding,
      writePages hs qs compress hasTenantData env mt docmap terms entries = .ok pages ∧
        pages.length = f.numPages ∧ HeaderOf header f ∧
        Paged segmentDataPerPage pages (f.image header ++ padding) := by
  have hterms : f.terms = terms.map TermInfo.term := by rw [hf]; rfl
  have hentries : f.entries = entries := by rw [hf]; rfl
  have hlen' : f.entries.length = f.terms.length := by
    rw [hentries, hterms, hlen, List.length_map]
  have hcompress : f.compress = compress := by rw [hf]; rfl
  have hfnorms : f.fieldnorms = docmap.fieldnorms := by rw [hf]; rfl
  have hfctids : f.ctids = docmap.ctids := by rw [hf]; rfl
  have hftenants :
    f.tenantSections = tenantBytes hs qs hasTenantData mt terms docmap := by rw [hf]; rfl
  -- the stages, one after the other
  obtain ⟨st₁, hst₁⟩ : ∃ st, st = writeDictionary env f.terms := ⟨_, rfl⟩
  obtain ⟨ps, hps⟩ : ∃ ps, ps = f.entries.foldl (writeTerm f.compress) ⟨st₁.writer, [], []⟩ :=
    ⟨_, rfl⟩
  obtain ⟨st₂, hst₂⟩ : ∃ st, st = writeSkipIndex st₁ ps := ⟨_, rfl⟩
  obtain ⟨st₃, hst₃⟩ : ∃ st, st = writeDocSections docmap st₂ := ⟨_, rfl⟩
  obtain ⟨st₄, hst₄⟩ : ∃ st, st = writeTenantSections hs qs hasTenantData mt terms docmap st₃ :=
    ⟨_, rfl⟩
  obtain ⟨hdict, hheader₁⟩ := writeDictionary_spec env hlen'
  rw [← hst₁] at hdict hheader₁
  obtain ⟨hpost, hskips, hinfos⟩ := @writeTerms_spec f.compress f.entries
    ⟨st₁.writer, [], []⟩ _ hdict
  rw [← hps] at hpost hskips hinfos
  rw [show ((f.entries.flatMap DictEntry.blocks).map (blockImage f.compress)).flatten =
    f.blockImages.flatten from rfl] at hpost
  have hskipList : ps.skips = f.skipRecords := by
    rw [hskips, length_dictionaryBytes env hlen', List.nil_append]
    rfl
  have hpostLen : (dictionaryBytes env f ++ f.blockImages.flatten).length = f.skipIndexOffset := by
    rw [List.length_append, length_dictionaryBytes env hlen']
    rfl
  obtain ⟨hskip, hheader₂⟩ := @writeSkipIndex_spec st₁ ps _ hpost
  rw [← hst₂] at hskip hheader₂
  rw [hskipList] at hskip
  obtain ⟨hdocs, hheader₃⟩ := writeDocSections_spec hskip hnorms hctids
  rw [← hst₃] at hdocs hheader₃
  obtain ⟨hall, hheader₄⟩ := writeTenantSections_spec hs qs hasTenantData mt terms docmap hdocs
  rw [← hst₄] at hall hheader₄
  have hskipLen : (dictionaryBytes env f ++ f.blockImages.flatten ++ f.skipSection).length =
      f.fieldnormOffset := by
    rw [List.length_append, hpostLen, f.length_skipSection]
    rfl
  rw [show ((f.skipRecords.map SkipRecord.bytes).flatten) = f.skipSection from rfl,
    ← hfnorms, ← hfctids, ← hftenants] at hall
  rw [show ((f.skipRecords.map SkipRecord.bytes).flatten) = f.skipSection from rfl, hskipLen,
    ← hfnorms, ← hfctids] at hheader₃
  -- what the stages have left in the header
  have hfields : withoutTenants st₄.header = withoutTenants { initialHeader env f.terms.length with
      stringsOffset := f.stringsOffset
      entriesOffset := f.entriesOffset
      postingsOffset := f.postingsOffset
      skipIndexOffset := f.skipIndexOffset
      fieldnormOffset := f.fieldnormOffset
      ctidPagesOffset := f.ctidPagesOffset
      ctidOffsetsOffset := f.ctidOffsetsOffset
      numDocs := docmap.numDocs } := by
    rw [hheader₄, hheader₃, hheader₂, hheader₁]
    show withoutTenants { initialHeader env f.terms.length with
      stringsOffset := _
      entriesOffset := _
      postingsOffset := _
      skipIndexOffset := (dictionaryBytes env f ++ f.blockImages.flatten).length
      fieldnormOffset := _
      ctidPagesOffset := _
      ctidOffsetsOffset := _
      numDocs := _ } = _
    rw [hpostLen]
    rfl
  have hfile : Wrote st₄.writer ((initialHeader env f.terms.length).bytes ++
      (f.dictionarySection ++ f.stringRecords.flatten) ++
      (f.terms.map fun _ => DictRecord.bytes ⟨0, 0, 0⟩).flatten ++
      (f.blockImages.flatten ++ f.skipSection ++ f.fieldnorms ++ f.ctidPagesSection ++
        f.ctidOffsetsSection ++ f.tenantSections)) := by
    rw [dictionaryBytes] at hall
    simp only [List.append_assoc] at hall ⊢
    exact hall
  have hwidth :
    ∀ r ∈ f.terms.map fun _ => DictRecord.bytes ⟨0, 0, 0⟩, r.length = dictEntrySize := by
    intro r hr
    obtain ⟨t, -, rfl⟩ := List.mem_map.1 hr
    exact DictRecord.length_bytes _
  have hplaceholders : (f.terms.map fun _ => DictRecord.bytes ⟨0, 0, 0⟩).flatten.length =
      f.entries.length * dictEntrySize := by
    rw [length_flatten_pages hwidth, List.length_map, hlen']
  have hinfoLen : ps.termBlocks.length = f.entries.length := by
    rw [hinfos, List.nil_append, List.length_map, List.length_zip, length_runningOffsets,
      List.length_map, Nat.min_self]
  have hentriesOffset : st₄.header.entriesOffset = f.entriesOffset :=
    congrArg Header.entriesOffset hfields
  have hskipOffset : st₄.header.skipIndexOffset = f.skipIndexOffset :=
    congrArg Header.skipIndexOffset hfields
  have hsize : ((initialHeader env f.terms.length).bytes ++
      (f.dictionarySection ++ f.stringRecords.flatten) ++
      (f.terms.map fun _ => DictRecord.bytes ⟨0, 0, 0⟩).flatten ++
      (f.blockImages.flatten ++ f.skipSection ++ f.fieldnorms ++ f.ctidPagesSection ++
        f.ctidOffsetsSection ++ f.tenantSections)).length = f.size := by
    rw [← f.length_image (initialHeader env f.terms.length), Parts.image]
    simp only [List.length_append, hplaceholders, f.length_entriesSection]
    omega
  obtain ⟨pages, padding, hrun, hpages, hpaged⟩ := finishFile_spec env ps.termBlocks hfile
    (by
      rw [hentriesOffset, List.length_append, ← Nat.add_assoc]
      rfl)
    (by rw [hplaceholders, hinfoLen]) hsize
  have hentrySection : (ps.termBlocks.map fun info => DictRecord.bytes
      ⟨st₄.header.skipIndexOffset + info.skipEntryStart * skipEntrySize, info.blockCount,
        info.docFreq⟩).flatten = f.entriesSection := by
    rw [hinfos, hskipOffset, List.nil_append, List.map_map, Parts.entriesSection, Parts.dictRecords,
      List.map_map]
    rfl
  rw [hentrySection] at hpaged
  obtain ⟨header, hheader⟩ : ∃ h, h = updateHeader (initialHeader env f.terms.length).cut
      { st₄.header with
        pageIndex := env.pageIndexRoot
        dataSize := f.size
        numPages := pages.length } := ⟨_, rfl⟩
  rw [← hheader] at hpaged
  have hof : HeaderOf header f := by
    rw [hheader]
    exact
      { magic_eq := rfl
        numPages_eq := hpages
        dataSize_eq := rfl
        numTerms_eq := rfl
        numDocs_eq := by
          rw [hfctids, hctids]
          exact congrArg Header.numDocs hfields
        dictionaryOffset_eq := rfl
        stringsOffset_eq := congrArg Header.stringsOffset hfields
        entriesOffset_eq := hentriesOffset
        postingsOffset_eq := congrArg Header.postingsOffset hfields
        skipIndexOffset_eq := hskipOffset
        fieldnormOffset_eq := congrArg Header.fieldnormOffset hfields
        ctidPagesOffset_eq := congrArg Header.ctidPagesOffset hfields
        ctidOffsetsOffset_eq := congrArg Header.ctidOffsetsOffset hfields }
  refine ⟨pages, header, padding, ?_, hpages, hof, ?_⟩
  · rw [writePages, ← hterms, ← hentries, ← hcompress, ← hst₁, ← hps, ← hst₂, ← hst₃, ← hst₄]
    exact hrun
  · rw [Parts.image]
    simp only [List.append_assoc] at hpaged ⊢
    exact hpaged

/-- What the file of a memtable says; `none` when nothing is written. -/
def fileParts : Except WriteError (Option Parts) := do
  let docmap ← liftSegment (buildDocmapFromMemtable hs qs mt)
  let terms := tpBuildDictionary hs qs mt
  if terms.isEmpty then return none
  let entries ← liftSegment (termEntries qs docmap hasTenantData terms)
  return some (partsOf compress terms entries docmap
    (tenantBytes hs qs hasTenantData mt terms docmap))

theorem liftSegment_eq_ok {α : Type} {r : Except SegmentError α} {a : α}
    (h : liftSegment r = .ok a) : r = .ok a := by
  cases r with
  | ok b => exact congrArg Except.ok (Except.ok.inj h)
  | error e => exact nomatch h

/-- The document map of a memtable numbers its documents. -/
theorem buildDocmapFromMemtable_numbers {docmap : DocMapBuilder}
    (h : buildDocmapFromMemtable hs qs mt = .ok docmap) :
    ∃ order : List (ItemPointer × Nat × Nat), order.Perm
        ((hs.scan mt.docLengths.entries).map fun e => (e.1, e.2.docLength, e.2.tenantId)) ∧
      Numbers docmap order := by
  obtain ⟨filled, hfilled, hrest⟩ := bind_eq_ok h
  cases hrest
  have hnodup : ((hs.scan mt.docLengths.entries).map fun e => e.1).Nodup :=
    ((hs.perm mt.docLengths.entries).map _).symm.nodup mt.docLengths.nodupKeys
  obtain ⟨hrows, hnum, hfresh⟩ := tpDocmapAdd_rows _ hfilled (by
    rw [show tpDocmapCreate.ctidToId = [] from rfl, List.map_nil, List.nil_append]
    exact hnodup)
  refine tpDocmapFinalize_numbers hs qs hrows ?_ ?_ ?_
  · rw [hnum, List.length_map]
    exact Nat.zero_add _
  · rw [hfresh]
    exact ⟨rfl, rfl, rfl⟩
  · rw [List.map_map]
    exact hnodup

/-- **The segment of a memtable**: its pages hold the file that the memtable describes. -/
theorem tpWriteSegment_spec {f : Parts}
    (h : fileParts hs qs compress hasTenantData mt = .ok (some f)) :
    ∃ pages header padding,
      tpWriteSegment hs qs compress hasTenantData env mt = .ok (some pages) ∧
        pages.length = f.numPages ∧ HeaderOf header f ∧
        Paged segmentDataPerPage pages (f.image header ++ padding) := by
  obtain ⟨docmap, hdocmap, hrest⟩ := bind_eq_ok h
  dsimp only at hrest
  by_cases hempty : (tpBuildDictionary hs qs mt).isEmpty
  · rw [if_pos hempty] at hrest
    exact nomatch hrest
  · rw [if_neg hempty] at hrest
    obtain ⟨entries, hentries, hparts⟩ := bind_eq_ok hrest
    have hf : f = partsOf compress (tpBuildDictionary hs qs mt) entries docmap
        (tenantBytes hs qs hasTenantData mt (tpBuildDictionary hs qs mt) docmap) := by
      cases hparts
      rfl
    obtain ⟨order, -, hnumbers⟩ :=
      buildDocmapFromMemtable_numbers hs qs mt (liftSegment_eq_ok hdocmap)
    have hlen := (forall₂_of_mapM_ok (liftSegment_eq_ok hentries)).length_eq
    obtain ⟨pages, header, padding, hrun, hpages, hheader, hpaged⟩ :=
      writePages_spec hs qs compress hasTenantData env mt
        (by rw [hnumbers.fieldnorms_eq, List.length_map, hnumbers.numDocs_eq])
        (by rw [hnumbers.ctids_eq, List.length_map, hnumbers.numDocs_eq]) hlen.symm hf
    refine ⟨pages, header, padding, ?_, hpages, hheader, hpaged⟩
    unfold tpWriteSegment
    rw [bind_of_eq_ok hdocmap]
    dsimp only
    rw [if_neg hempty, bind_of_eq_ok hentries, bind_of_eq_ok hrun]
    rfl

end WritePages

end PgTextsearch.Segment.File
