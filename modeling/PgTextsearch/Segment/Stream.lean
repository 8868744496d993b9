import PgTextsearch.Segment.FileWriter
import PgTextsearch.Segment.Pages

/-!
# Segment streams in the relation (`segment/segment.c`)

The byte stream of a segment writer as it lies in the index relation: the writer takes its
pages from the free space map or from the end of the file, fills them through a buffer of
one page, lists them in a chain of index pages, and patches dictionary entries and header
in place.  Offsets are `uint32` and wrap; memory limits are not represented.

`Follows` relates the writer and its pages to the abstract writer of a paged stream, which
has no relation below it and offsets that do not wrap.

## Main results

* `Follows.write`, `Follows.flush` — writer calls follow those of the abstract writer.
* `writePageIndex_spec` — the index pages list the pages of the stream.
* `patchEntries_spec` — patching entries overwrites the bytes at their wrapped offsets.
-/

namespace PgTextsearch.Segment.Stream

open PgTextsearch.Postgres PgTextsearch.Verified PgTextsearch.Segment.File

/-! ## The relation -/

/-- A page: the size of its special area, and the bytes behind the page header, those of
the special area included. -/
structure Page where
  specialSize : Nat
  data : List (Fin 256)
  deriving DecidableEq, Repr

/-- `PageInit`, with the aligned size of the special area. -/
def pageInit (specialSize : Nat) : Page := ⟨specialSize, List.replicate segmentDataPerPage 0⟩

/-- The index relation and the pages recorded in its free space map, which lie in the file. -/
structure Relation where
  pages : List Page
  freePages : List Nat
  searches : Nat
  free_lt : ∀ block ∈ freePages, block < pages.length

/-- What writing and reading streams raises. -/
inductive StreamError where
  | cannotExtend
  | dictEntryBeyondPages (index logicalPage pagesAllocated : Nat)
  | dictEntrySpansBeyond
  | invalidSegmentHeader (block magic : Nat)
  | pageMap (error : Pages.PageError)
  | invalidLogicalPage (logicalPage max logicalOffset numPages : Nat)
  | invalidPhysicalBlock (physical logicalPage nblocks : Nat)
  | noBuffer
  deriving DecidableEq, Repr

/-- `MaxBlockNumber`. -/
def maxBlockNumber : Nat := 0xFFFFFFFE

namespace Relation

/-- `RelationGetNumberOfBlocks`. -/
def nblocks (rel : Relation) : Nat := rel.pages.length

/-- The bytes of a page behind its header. -/
def dataOf (rel : Relation) (block : Nat) : List (Fin 256) :=
  ((rel.pages[block]?).map Page.data).getD []

/-- Change a page in place. -/
def modify (rel : Relation) (block : Nat) (f : Page → Page) : Relation :=
  { rel with
    pages := rel.pages.modify block f
    free_lt := by
      rw [List.length_modify]
      exact rel.free_lt }

/-- Change the bytes of a page in place. -/
def modifyData (rel : Relation) (block : Nat) (f : List (Fin 256) → List (Fin 256)) : Relation :=
  rel.modify block fun page => { page with data := f page.data }

/-- A page taken from the free space map. -/
def recycle (rel : Relation) (block : Nat) : Relation where
  pages := rel.pages.modify block fun _ => pageInit 0
  freePages := rel.freePages.filter (· ≠ block)
  searches := rel.searches + 1
  free_lt := by
    intro b hb
    rw [List.length_modify]
    exact rel.free_lt b (List.mem_of_mem_filter hb)

/-- A page at the end of the file. -/
def extend (rel : Relation) : Relation where
  pages := rel.pages ++ [pageInit 0]
  freePages := rel.freePages
  searches := rel.searches + 1
  free_lt := by
    intro b hb
    have hlt := rel.free_lt b hb
    rw [List.length_append]
    omega

end Relation

/-- `allocate_segment_page`. -/
def allocateSegmentPage (fsm : Pages.FreeSpaceMap) (rel : Relation) :
    Except StreamError (Nat × Relation) :=
  match fsm.search rel.searches rel.freePages with
  | some block => .ok (block, rel.recycle block)
  | none =>
      if rel.nblocks > maxBlockNumber then .error .cannotExtend
      else .ok (rel.nblocks, rel.extend)

/-! ## The writer -/

/-- `TpSegmentWriter`: the blocks allocated so far, the page in the buffer with what is written
to it behind the page header, and the offset of the stream. -/
structure SegmentWriter where
  pages : List Nat
  bufferPage : Nat
  buffer : List (Fin 256)
  currentOffset : Nat
  deriving DecidableEq, Repr

/-- `tp_segment_writer_allocate_page`. -/
def tpSegmentWriterAllocatePage (fsm : Pages.FreeSpaceMap) (w : SegmentWriter) (rel : Relation) :
    Except StreamError (SegmentWriter × Relation) := do
  let (block, rel) ← allocateSegmentPage fsm rel
  return ({ w with pages := w.pages ++ [block] }, rel)

/-- `tp_segment_writer_init`. -/
def tpSegmentWriterInit (fsm : Pages.FreeSpaceMap) (rel : Relation) :
    Except StreamError (SegmentWriter × Relation) :=
  tpSegmentWriterAllocatePage fsm ⟨[], 0, [], 0⟩ rel

/-- `tp_segment_writer_flush`: the data portion of the page is copied to its block. -/
def tpSegmentWriterFlush (w : SegmentWriter) (rel : Relation) : Relation :=
  match w.pages[w.bufferPage]? with
  | none => rel
  | some block => rel.modifyData block fun _ => padPage segmentDataPerPage 0 w.buffer

/-- Move on to the next page. -/
def nextPage (fsm : Pages.FreeSpaceMap) (w : SegmentWriter) (rel : Relation) :
    Except StreamError (SegmentWriter × Relation) :=
  let w := { w with bufferPage := w.bufferPage + 1, buffer := [] }
  if w.bufferPage ≥ w.pages.length then tpSegmentWriterAllocatePage fsm w rel
  else .ok (w, rel)

/-- Copy as much as fits to the buffer. -/
def fillBuffer (w : SegmentWriter) (data : List (Fin 256)) : SegmentWriter :=
  let copied := data.take (segmentDataPerPage - w.buffer.length)
  { w with
    buffer := w.buffer ++ copied
    currentOffset := (w.currentOffset + copied.length) % 2 ^ 32 }

/-- The loop of `tp_segment_writer_write`, with the rounds still allowed: only the first one
may find the buffer full. -/
def writeLoop (fsm : Pages.FreeSpaceMap) :
    Nat → SegmentWriter → Relation → List (Fin 256) →
      Except StreamError (SegmentWriter × Relation)
  | 0, w, rel, _ => .ok (w, rel)
  | fuel + 1, w, rel, data =>
      if data.isEmpty then .ok (w, rel)
      else
        let rest := data.drop (segmentDataPerPage - w.buffer.length)
        let w := fillBuffer w data
        if w.buffer.length ≥ segmentDataPerPage then
          let rel := tpSegmentWriterFlush w rel
          if rest.isEmpty then .ok (w, rel)
          else do
            let (w, rel) ← nextPage fsm w rel
            writeLoop fsm fuel w rel rest
        else writeLoop fsm fuel w rel rest

/-- `tp_segment_writer_write`. -/
def tpSegmentWriterWrite (fsm : Pages.FreeSpaceMap) (w : SegmentWriter) (rel : Relation)
    (data : List (Fin 256)) : Except StreamError (SegmentWriter × Relation) :=
  writeLoop fsm (data.length + 1) w rel data

/-- One call after the other. -/
def writeAll (fsm : Pages.FreeSpaceMap) :
    SegmentWriter → Relation → List (List (Fin 256)) →
      Except StreamError (SegmentWriter × Relation)
  | w, rel, [] => .ok (w, rel)
  | w, rel, data :: pieces => do
      let (w, rel) ← tpSegmentWriterWrite fsm w rel data
      writeAll fsm w rel pieces

/-- `tp_segment_writer_finish`: flush what is left in the buffer. -/
def tpSegmentWriterFinish (w : SegmentWriter) (rel : Relation) : Relation :=
  if w.buffer.length > 0 then tpSegmentWriterFlush w rel else rel

/-! ## The page index -/

/-- `TP_PAGE_INDEX_MAGIC`. -/
def tpPageIndexMagic : Nat := 0x54505049

/-- `TP_PAGE_INDEX_VERSION`. -/
def tpPageIndexVersion : Nat := 1

/-- `TP_PAGE_FILE_INDEX`. -/
def tpPageFileIndex : Nat := 2

/-- `MAXALIGN(sizeof(TpPageIndexSpecial))`. -/
def pageIndexSpecialSize : Nat := 16

/-- The fields of `TpPageIndexSpecial`: magic, version, page type, next page, number of entries
and flags. -/
def pageIndexSpecialWidths : List Nat := [4, 2, 2, 4, 2, 2]

/-- A block number as it is stored. -/
def blockNumber (block : Option Nat) : Nat := block.getD invalidBlockNumber

/-- The block a stored number stands for. -/
def blockOfNumber (n : Nat) : Option Nat := if n = invalidBlockNumber then none else some n

/-- A page of the page index. -/
def indexPage (entries : List Nat) (nextPage : Option Nat) : Page where
  specialSize := pageIndexSpecialSize
  data :=
    padPage (segmentDataPerPage - pageIndexSpecialSize) 0 (entries.map (leBytes 4)).flatten ++
      packStruct pageIndexSpecialWidths
        [tpPageIndexMagic, tpPageIndexVersion, tpPageFileIndex, blockNumber nextPage,
          entries.length, 0]

/-- `TpPageIndexSpecial` and the entries of a page, if magic and page type are right. -/
def Page.pageIndex (page : Page) : Option Pages.PageIndexPage :=
  let special := unpackStruct pageIndexSpecialWidths
    (page.data.drop (segmentDataPerPage - page.specialSize))
  if special.getD 0 0 ≠ tpPageIndexMagic ∨ special.getD 2 0 ≠ tpPageFileIndex then none
  else some ⟨(chunks 4 (special.getD 4 0) page.data).map byteValue,
    blockOfNumber (special.getD 3 0)⟩

/-- The relation as the readers of page indexes see it. -/
def Relation.indexStorage (rel : Relation) : Pages.Storage where
  nblocks := rel.nblocks
  content := fun block =>
    match (rel.pages[block]?).bind Page.pageIndex with
    | some page => .pageIndex page
    | none => .other
  freePages := rel.freePages
  searches := rel.searches

/-- Page after page. -/
def allocatePages (fsm : Pages.FreeSpaceMap) :
    Nat → Relation → Except StreamError (List Nat × Relation)
  | 0, rel => .ok ([], rel)
  | n + 1, rel => do
      let (block, rel) ← allocateSegmentPage fsm rel
      let (blocks, rel) ← allocatePages fsm n rel
      return (block :: blocks, rel)

/-- The loop of `write_page_index` over its pages, last page first. -/
def writeIndexPages : List Nat → List Nat → Relation → Relation
  | [], _, rel => rel
  | block :: blocks, pages, rel =>
      (writeIndexPages blocks (pages.drop Pages.entriesPerPage) rel).modify block fun _ =>
        indexPage (pages.take Pages.entriesPerPage) blocks.head?

/-- `write_page_index`. -/
def writePageIndex (fsm : Pages.FreeSpaceMap) (pages : List Nat) (rel : Relation) :
    Except StreamError (Option Nat × Relation) := do
  let (indexPages, rel) ← allocatePages fsm
    ((pages.length + Pages.entriesPerPage - 1) / Pages.entriesPerPage) rel
  return (indexPages.head?, writeIndexPages indexPages pages rel)

/-! ## Patching -/

/-- The loop that patches dictionary entries: the logical page whose block is in the buffer, that
block, and the relation. -/
structure PatchState where
  currentPage : Nat
  dictBuf : Nat
  rel : Relation

/-- One round of the loop: write the entry to its page, or to its page and the next one. -/
def patchEntry (pages : List Nat) (i entryOffset : Nat) (entry : List (Fin 256))
    (st : PatchState) : Except StreamError PatchState :=
  let entryLogicalPage := entryOffset / segmentDataPerPage
  let pageOffset := entryOffset % segmentDataPerPage
  if entryLogicalPage ≥ pages.length then
    .error (.dictEntryBeyondPages i entryLogicalPage pages.length)
  else
    let dictBuf :=
      if entryLogicalPage ≠ st.currentPage then pages.getD entryLogicalPage 0 else st.dictBuf
    let bytesOnThisPage := segmentDataPerPage - pageOffset
    if bytesOnThisPage ≥ entry.length then
      .ok ⟨entryLogicalPage, dictBuf,
        st.rel.modifyData dictBuf fun data => overwrite data pageOffset entry⟩
    else
      let rel := st.rel.modifyData dictBuf fun data =>
        overwrite data pageOffset (entry.take bytesOnThisPage)
      if entryLogicalPage + 1 ≥ pages.length then .error .dictEntrySpansBeyond
      else
        let dictBuf := pages.getD (entryLogicalPage + 1) 0
        .ok ⟨entryLogicalPage + 1, dictBuf,
          rel.modifyData dictBuf fun data => overwrite data 0 (entry.drop bytesOnThisPage)⟩

/-- The loop that writes the dictionary entries over their placeholders. -/
def patchEntries (pages : List Nat) (entriesOffset : Nat) :
    List DictRecord → Nat → PatchState → Except StreamError PatchState
  | [], _, st => .ok st
  | entry :: rest, i, st => do
      let st ← patchEntry pages i ((entriesOffset + i * dictEntrySize) % 2 ^ 32) entry.bytes st
      patchEntries pages entriesOffset rest (i + 1) st

/-- Update the header in place, on its block. -/
def patchHeader (header : Header) (headerBlock : Nat) (rel : Relation) : Relation :=
  rel.modifyData headerBlock fun data =>
    overwrite data 0 (updateHeader (Header.ofBytes data) header).bytes

/-! ## A whole segment -/

/-- The calls of a segment writer: the header in front, the calls up to the dictionary
entries, the entries, the calls behind them, and what the header is updated to. -/
structure Calls where
  header : Header
  before : List (List (Fin 256))
  entries : List DictRecord
  behind : List (List (Fin 256))
  updated : Header
  magic_eq : header.magic = tpSegmentMagic

/-- A zeroed `TpDictEntry`. -/
def placeholder : List (Fin 256) := DictRecord.bytes ⟨0, 0, 0⟩

/-- Everything a segment writer does with its stream, from `tp_segment_writer_init` to the update
of the header; the block of the header leads to the segment. -/
def writeStream (fsm : Pages.FreeSpaceMap) (rel : Relation) (c : Calls) :
    Except StreamError (Nat × Relation) := do
  let (w, rel) ← tpSegmentWriterInit fsm rel
  let headerBlock := w.pages.headD 0
  let (w, rel) ← tpSegmentWriterWrite fsm w rel c.header.bytes
  let (w, rel) ← writeAll fsm w rel c.before
  let entriesOffset := w.currentOffset
  let (w, rel) ← writeAll fsm w rel (c.entries.map fun _ => placeholder)
  let (w, rel) ← writeAll fsm w rel c.behind
  let rel := tpSegmentWriterFlush w rel
  -- the buffer counts as empty from here on
  let w := { w with buffer := [] }
  let (pageIndexRoot, rel) ← writePageIndex fsm w.pages rel
  let header := { c.updated with
    entriesOffset := entriesOffset
    pageIndex := blockNumber pageIndexRoot
    dataSize := w.currentOffset
    numPages := w.pages.length }
  let st ← patchEntries w.pages entriesOffset c.entries 0 ⟨uint32Max, 0, rel⟩
  let rel := tpSegmentWriterFinish w st.rel
  return (headerBlock, patchHeader header headerBlock rel)

/-! ## What the pages hold -/

namespace Relation

theorem dataOf_modify_of_ne (rel : Relation) {block b : Nat} (f : Page → Page) (h : b ≠ block) :
    (rel.modify block f).dataOf b = rel.dataOf b := by
  show ((((rel.pages.modify block f)[b]?).map Page.data).getD []) = _
  rw [List.getElem?_modify_ne f rel.pages (Ne.symm h)]
  rfl

theorem dataOf_modify_self (rel : Relation) {block : Nat} (f : Page → Page)
    (h : block < rel.nblocks) :
    ∃ page, rel.pages[block]? = some page ∧ rel.dataOf block = page.data ∧
      (rel.modify block f).dataOf block = (f page).data := by
  have hpage := List.getElem?_eq_getElem h
  refine ⟨rel.pages[block], hpage, ?_, ?_⟩
  · rw [dataOf, hpage]
    rfl
  · show ((((rel.pages.modify block f)[block]?).map Page.data).getD []) = _
    rw [List.getElem?_modify_eq, hpage]
    rfl

theorem dataOf_modifyData_self (rel : Relation) {block : Nat}
    (f : List (Fin 256) → List (Fin 256)) (h : block < rel.nblocks) :
    (rel.modifyData block f).dataOf block = f (rel.dataOf block) := by
  obtain ⟨page, -, hold, hnew⟩ :=
    rel.dataOf_modify_self (fun page => { page with data := f page.data }) h
  rw [modifyData, hnew, hold]

theorem nblocks_modify (rel : Relation) (block : Nat) (f : Page → Page) :
    (rel.modify block f).nblocks = rel.nblocks := List.length_modify _ _ _

end Relation

/-- The blocks belong to a stream: they lie in the file, differ, and are not recorded as free;
and these are their bytes. -/
structure Holds (rel : Relation) (pages : List Nat) (disk : List (List (Fin 256))) : Prop where
  lt : ∀ b ∈ pages, b < rel.nblocks
  nodup : pages.Nodup
  not_free : ∀ b ∈ pages, b ∉ rel.freePages
  disk_eq : pages.map rel.dataOf = disk

namespace Holds

variable {rel : Relation} {pages : List Nat} {disk : List (List (Fin 256))}

theorem length_eq (h : Holds rel pages disk) : pages.length = disk.length := by
  rw [← h.disk_eq, List.length_map]

/-- Changing the bytes of one page of the stream. -/
theorem modifyData (h : Holds rel pages disk) {n block : Nat} (hn : pages[n]? = some block)
    (f : List (Fin 256) → List (Fin 256)) :
    Holds (rel.modifyData block f) pages (disk.modify n f) where
  lt := by
    intro b hb
    rw [Relation.modifyData, Relation.nblocks_modify]
    exact h.lt b hb
  nodup := h.nodup
  not_free := h.not_free
  disk_eq := by
    have hlt := h.lt block (List.mem_of_getElem? hn)
    rw [← h.disk_eq]
    apply List.ext_getElem?
    intro i
    rw [List.getElem?_modify, List.getElem?_map, List.getElem?_map]
    cases hi : pages[i]? with
    | none => rfl
    | some b =>
        simp only [Option.map_some, Option.map_eq_map]
        congr 1
        by_cases hin : n = i
        · subst hin
          cases hi.symm.trans hn
          rw [if_pos rfl, rel.dataOf_modifyData_self f hlt]
        · have hne : b ≠ block := by
            intro heq
            subst heq
            exact hin ((List.getElem?_inj (List.getElem?_eq_some_iff.1 hn).1 h.nodup).1
              (hn.trans hi.symm))
          rw [if_neg hin]
          exact rel.dataOf_modify_of_ne _ hne

/-- Changing a page outside of the stream. -/
theorem modify_of_notMem (h : Holds rel pages disk) {block : Nat} (hb : block ∉ pages)
    (f : Page → Page) : Holds (rel.modify block f) pages disk where
  lt := by
    intro b hb
    rw [Relation.nblocks_modify]
    exact h.lt b hb
  nodup := h.nodup
  not_free := h.not_free
  disk_eq := by
    rw [← h.disk_eq]
    apply List.map_congr_left
    intro b hmem
    exact rel.dataOf_modify_of_ne f fun heq => hb (heq ▸ hmem)

end Holds

theorem Holds.add {rel rel' : Relation} {pages : List Nat} {disk : List (List (Fin 256))}
    (h : Holds rel pages disk) {block : Nat} (hnot : block ∉ pages)
    (hle : rel.nblocks ≤ rel'.nblocks) (hlt : block < rel'.nblocks)
    (hfree : ∀ b ∈ rel'.freePages, b ∈ rel.freePages ∧ b ≠ block)
    (hframe : ∀ b ∈ pages, rel'.dataOf b = rel.dataOf b) :
    Holds rel' (pages ++ [block]) (disk ++ [rel'.dataOf block]) where
  lt := by
    intro b hb
    cases List.mem_append.1 hb with
    | inl hmem => exact Nat.lt_of_lt_of_le (h.lt b hmem) hle
    | inr hnew => exact List.mem_singleton.1 hnew ▸ hlt
  nodup := List.nodup_append.2 ⟨h.nodup, List.nodup_singleton block, fun a ha b hb heq =>
    hnot (List.mem_singleton.1 hb ▸ heq ▸ ha)⟩
  not_free := by
    intro b hb hmem
    cases List.mem_append.1 hb with
    | inl hold => exact h.not_free b hold (hfree b hmem).1
    | inr hnew => exact (hfree b hmem).2 (List.mem_singleton.1 hnew)
  disk_eq := by
    rw [List.map_append, ← h.disk_eq, List.map_congr_left hframe, List.map_singleton]

/-- **Allocation**: another page for the stream, which is empty. -/
theorem allocateSegmentPage_spec (fsm : Pages.FreeSpaceMap) {rel : Relation} {pages : List Nat}
    {disk : List (List (Fin 256))} (h : Holds rel pages disk)
    (hroom : rel.nblocks ≤ maxBlockNumber) :
    ∃ block rel', allocateSegmentPage fsm rel = .ok (block, rel') ∧
      rel'.nblocks ≤ rel.nblocks + 1 ∧
      Holds rel' (pages ++ [block]) (disk ++ [List.replicate segmentDataPerPage 0]) := by
  unfold allocateSegmentPage
  cases hsearch : fsm.search rel.searches rel.freePages with
  | some block =>
      have hfree := fsm.recorded hsearch
      have hlt := rel.free_lt block hfree
      have hnot : block ∉ pages := fun hb => h.not_free block hb hfree
      have hsize : (rel.recycle block).nblocks = rel.nblocks := List.length_modify _ _ _
      obtain ⟨page, -, -, hnew⟩ := rel.dataOf_modify_self (fun _ => pageInit 0) hlt
      have hadd := @Holds.add rel (rel.recycle block) pages disk h block hnot hsize.ge (hsize ▸ hlt)
        (fun b hb => ⟨List.mem_of_mem_filter hb, by simpa using List.of_mem_filter hb⟩)
        (fun b hb => rel.dataOf_modify_of_ne _ fun heq => hnot (heq ▸ hb))
      rw [show (rel.recycle block).dataOf block = (pageInit 0).data from hnew] at hadd
      exact ⟨block, rel.recycle block, rfl, by omega, hadd⟩
  | none =>
      have hsize : rel.extend.nblocks = rel.nblocks + 1 := List.length_append
      have hnot : rel.nblocks ∉ pages := fun hb => Nat.lt_irrefl _ (h.lt _ hb)
      have hnew : rel.extend.dataOf rel.nblocks = (pageInit 0).data := by
        show ((((rel.pages ++ [pageInit 0])[rel.pages.length]?).map Page.data).getD []) = _
        rw [List.getElem?_concat_length]
        rfl
      have hframe : ∀ b ∈ pages, rel.extend.dataOf b = rel.dataOf b := by
        intro b hb
        show ((((rel.pages ++ [pageInit 0])[b]?).map Page.data).getD []) = _
        rw [List.getElem?_append_left (h.lt b hb)]
        rfl
      have hadd := @Holds.add rel rel.extend pages disk h rel.nblocks hnot (by omega) (by omega)
        (fun b hb => ⟨hb, Nat.ne_of_lt (rel.free_lt b hb)⟩) hframe
      rw [hnew] at hadd
      exact ⟨rel.nblocks, rel.extend, if_neg (by omega), by omega, hadd⟩

/-! ## The writer follows the abstract one -/

/-- The writer has done what the abstract writer of a paged stream has done; the relation had
`base` pages before it took its first. -/
structure Follows (base : Nat) (rel : Relation) (w : SegmentWriter)
    (v : PageWriter (Fin 256)) : Prop where
  holds : Holds rel w.pages v.disk
  bufferPage_eq : w.bufferPage = v.bufferPage
  buffer_eq : w.buffer = v.buffer
  offset_eq : w.currentOffset = v.currentOffset % 2 ^ 32
  nblocks_le : rel.nblocks ≤ base + w.pages.length

/-- A new page for the stream. -/
theorem tpSegmentWriterAllocatePage_spec (fsm : Pages.FreeSpaceMap) {base : Nat}
    {rel : Relation} {w : SegmentWriter} {disk : List (List (Fin 256))}
    (h : Holds rel w.pages disk) (hle : rel.nblocks ≤ base + w.pages.length)
    (hroom : base + (w.pages.length + 1) ≤ maxBlockNumber + 1) :
    ∃ block rel', tpSegmentWriterAllocatePage fsm w rel =
        .ok ({ w with pages := w.pages ++ [block] }, rel') ∧
      rel'.nblocks ≤ base + (w.pages ++ [block]).length ∧
      Holds rel' (w.pages ++ [block]) (disk ++ [List.replicate segmentDataPerPage 0]) := by
  obtain ⟨block, rel', hrun, hgrow, hholds⟩ := allocateSegmentPage_spec fsm h (by omega)
  refine ⟨block, rel', ?_, ?_, hholds⟩
  · rw [tpSegmentWriterAllocatePage, hrun]
    rfl
  · rw [List.length_append, List.length_singleton]
    omega

/-- A stream begins with its first page. -/
theorem tpSegmentWriterInit_spec (fsm : Pages.FreeSpaceMap) (rel : Relation)
    (hroom : rel.nblocks + 1 ≤ maxBlockNumber + 1) :
    ∃ w rel', tpSegmentWriterInit fsm rel = .ok (w, rel') ∧
      Follows rel.nblocks rel' w File.tpSegmentWriterInit := by
  have hnone : Holds rel [] [] :=
    ⟨fun _ hb => (nomatch hb), List.nodup_nil, fun _ hb => (nomatch hb), rfl⟩
  obtain ⟨block, rel', hrun, hle, hholds⟩ :=
    @tpSegmentWriterAllocatePage_spec fsm rel.nblocks rel ⟨[], 0, [], 0⟩ [] hnone (by simp) hroom
  exact ⟨_, rel', hrun, hholds, rfl, rfl, rfl, hle⟩

/-- A writer keeps its pages. -/
theorem nextPage_grows {fsm : Pages.FreeSpaceMap} {w w' : SegmentWriter} {rel rel' : Relation}
    (h : nextPage fsm w rel = .ok (w', rel')) : w.pages <+: w'.pages := by
  unfold nextPage at h
  dsimp only at h
  split at h
  case isTrue =>
    obtain ⟨⟨block, rel₁⟩, -, h⟩ := bind_eq_ok h
    cases h
    exact List.prefix_append _ _
  case isFalse =>
    cases h
    exact List.prefix_refl _

theorem writeLoop_grows {fsm : Pages.FreeSpaceMap} {fuel : Nat} {w w' : SegmentWriter}
    {rel rel' : Relation} {data : List (Fin 256)}
    (h : writeLoop fsm fuel w rel data = .ok (w', rel')) : w.pages <+: w'.pages := by
  induction fuel generalizing w rel data with
  | zero =>
      cases h
      exact List.prefix_refl _
  | succ fuel ih =>
      unfold writeLoop at h
      dsimp only at h
      split at h
      case isTrue =>
        cases h
        exact List.prefix_refl _
      case isFalse =>
        split at h
        case isTrue =>
          split at h
          case isTrue =>
            cases h
            exact List.prefix_refl _
          case isFalse =>
            obtain ⟨⟨w₁, rel₁⟩, hnext, h⟩ := bind_eq_ok h
            have hfirst : w.pages <+: w₁.pages := @nextPage_grows _ (fillBuffer w data) _ _ _ hnext
            exact hfirst.trans (ih h)
        case isFalse => exact @ih (fillBuffer w data) _ _ h

theorem writeAll_grows {fsm : Pages.FreeSpaceMap} {pieces : List (List (Fin 256))}
    {w w' : SegmentWriter} {rel rel' : Relation}
    (h : writeAll fsm w rel pieces = .ok (w', rel')) : w.pages <+: w'.pages := by
  induction pieces generalizing w rel with
  | nil =>
      cases h
      exact List.prefix_refl _
  | cons data pieces ih =>
      obtain ⟨⟨w₁, rel₁⟩, hdata, h⟩ := bind_eq_ok h
      exact List.IsPrefix.trans (writeLoop_grows hdata) (ih h)

namespace Follows

variable {base : Nat} {rel : Relation} {w : SegmentWriter} {v : PageWriter (Fin 256)}

/-- **Flushing.** -/
theorem flush (h : Follows base rel w v) :
    Follows base (tpSegmentWriterFlush w rel) w (v.flush segmentDataPerPage 0) := by
  have hlen := h.holds.length_eq
  unfold tpSegmentWriterFlush PageWriter.flush
  cases hblock : w.pages[w.bufferPage]? with
  | none =>
      have hbeyond : w.pages.length ≤ w.bufferPage := List.getElem?_eq_none_iff.1 hblock
      rw [if_pos (by rw [← h.bufferPage_eq]; omega)]
      exact h
  | some block =>
      have hlt := (List.getElem?_eq_some_iff.1 hblock).1
      rw [if_neg (by rw [← h.bufferPage_eq]; omega)]
      have hset : v.disk.set v.bufferPage (padPage segmentDataPerPage 0 v.buffer) =
          v.disk.modify w.bufferPage fun _ => padPage segmentDataPerPage 0 w.buffer := by
        rw [← h.bufferPage_eq, ← h.buffer_eq, List.modify_eq_set_getElem?,
          List.getElem?_eq_getElem (by omega)]
        rfl
      exact
        { holds := by
            show Holds _ w.pages (v.disk.set v.bufferPage _)
            rw [hset]
            exact h.holds.modifyData hblock _
          bufferPage_eq := h.bufferPage_eq
          buffer_eq := h.buffer_eq
          offset_eq := h.offset_eq
          nblocks_le := by
            show ((rel.modifyData block _).nblocks) ≤ _
            rw [Relation.modifyData, Relation.nblocks_modify]
            exact h.nblocks_le }

theorem fillBuffer (h : Follows base rel w v) (data : List (Fin 256)) :
    Follows base rel (Stream.fillBuffer w data) (v.fillBuffer segmentDataPerPage data) where
  holds := h.holds
  bufferPage_eq := h.bufferPage_eq
  buffer_eq := by
    show w.buffer ++ _ = v.buffer ++ _
    rw [h.buffer_eq]
  offset_eq := by
    show (w.currentOffset + _) % 2 ^ 32 = (v.currentOffset + _) % 2 ^ 32
    rw [h.buffer_eq, h.offset_eq]
    omega
  nblocks_le := h.nblocks_le

/-- **The next page** is there or can be allocated. -/
theorem nextPage (fsm : Pages.FreeSpaceMap) (h : Follows base rel w v)
    (hroom : base + (v.nextPage segmentDataPerPage 0).disk.length ≤ maxBlockNumber + 1) :
    ∃ w' rel', Stream.nextPage fsm w rel = .ok (w', rel') ∧
      Follows base rel' w' (v.nextPage segmentDataPerPage 0) := by
  have hlen := h.holds.length_eq
  unfold Stream.nextPage
  unfold PageWriter.nextPage at hroom ⊢
  dsimp only at hroom ⊢
  by_cases hmore : v.bufferPage + 1 ≥ v.disk.length
  · rw [if_pos hmore, List.length_append, List.length_singleton] at hroom
    obtain ⟨block, rel', hrun, hle, hholds⟩ :=
      @tpSegmentWriterAllocatePage_spec fsm base rel
        { w with bufferPage := w.bufferPage + 1, buffer := [] } v.disk h.holds h.nblocks_le
        (by dsimp only; omega)
    rw [if_pos (by rw [h.bufferPage_eq, hlen]; exact hmore)]
    refine ⟨_, rel', hrun, ?_, ?_, rfl, h.offset_eq, hle⟩
    · rw [if_pos hmore]
      exact hholds
    · exact congrArg (· + 1) h.bufferPage_eq
  · rw [if_neg (by rw [h.bufferPage_eq, hlen]; exact hmore)]
    refine ⟨_, rel, rfl, ?_, ?_, rfl, h.offset_eq, h.nblocks_le⟩
    · rw [if_neg hmore]
      exact h.holds
    · exact congrArg (· + 1) h.bufferPage_eq

/-- **The writing loop.** -/
theorem writeLoop (fsm : Pages.FreeSpaceMap) (fuel : Nat) (h : Follows base rel w v)
    {data : List (Fin 256)}
    (hroom : base + (PageWriter.writeLoop segmentDataPerPage 0 fuel v data).disk.length ≤
      maxBlockNumber + 1) :
    ∃ w' rel', Stream.writeLoop fsm fuel w rel data = .ok (w', rel') ∧
      Follows base rel' w' (PageWriter.writeLoop segmentDataPerPage 0 fuel v data) := by
  induction fuel generalizing rel w v data with
  | zero => exact ⟨w, rel, rfl, h⟩
  | succ fuel ih =>
      have hfill := h.fillBuffer data
      have hbuffer : (Stream.fillBuffer w data).buffer =
          (v.fillBuffer segmentDataPerPage data).buffer := hfill.buffer_eq
      unfold Stream.writeLoop
      unfold PageWriter.writeLoop at hroom ⊢
      dsimp only at hroom ⊢
      rw [h.buffer_eq, hbuffer]
      split
      case isTrue hempty =>
        exact ⟨w, rel, rfl, h⟩
      case isFalse hne =>
        rw [if_neg hne] at hroom
        split
        case isTrue hfull =>
          rw [if_pos hfull] at hroom
          split
          case isTrue hdone => exact ⟨_, _, rfl, hfill.flush⟩
          case isFalse hmore =>
            rw [if_neg hmore] at hroom
            have hgrow := @PageWriter.length_disk_writeLoop (Fin 256) segmentDataPerPage 0 fuel
              (((v.fillBuffer segmentDataPerPage data).flush segmentDataPerPage 0).nextPage
                segmentDataPerPage 0) (data.drop (segmentDataPerPage - v.buffer.length))
            obtain ⟨w₁, rel₁, hnext, hfollows⟩ := hfill.flush.nextPage fsm (by omega)
            obtain ⟨w₂, rel₂, hrest, hfinal⟩ := ih hfollows hroom
            refine ⟨w₂, rel₂, ?_, hfinal⟩
            rw [bind_of_eq_ok hnext]
            exact hrest
        case isFalse hfits =>
          rw [if_neg hfits] at hroom
          exact ih hfill hroom

/-- **Writing.** -/
theorem write (fsm : Pages.FreeSpaceMap) (h : Follows base rel w v) {data : List (Fin 256)}
    (hroom : base + (v.write segmentDataPerPage 0 data).disk.length ≤ maxBlockNumber + 1) :
    ∃ w' rel', tpSegmentWriterWrite fsm w rel data = .ok (w', rel') ∧
      Follows base rel' w' (v.write segmentDataPerPage 0 data) :=
  h.writeLoop fsm (data.length + 1) hroom

/-- Writing in pieces. -/
theorem writeAll (fsm : Pages.FreeSpaceMap) (pieces : List (List (Fin 256)))
    (h : Follows base rel w v)
    (hroom : base + (v.writeAll segmentDataPerPage 0 pieces).disk.length ≤ maxBlockNumber + 1) :
    ∃ w' rel', Stream.writeAll fsm w rel pieces = .ok (w', rel') ∧
      Follows base rel' w' (v.writeAll segmentDataPerPage 0 pieces) := by
  induction pieces generalizing rel w v with
  | nil => exact ⟨w, rel, rfl, h⟩
  | cons data pieces ih =>
      have hgrow := @PageWriter.length_disk_writeAll (Fin 256) segmentDataPerPage 0
        (v.write segmentDataPerPage 0 data) pieces
      have hroom' : base + ((v.write segmentDataPerPage 0 data).writeAll segmentDataPerPage 0
        pieces).disk.length ≤ maxBlockNumber + 1 := hroom
      obtain ⟨w₁, rel₁, hdata, hfollows⟩ :=
        @Follows.write base rel w v fsm h data (by omega)
      obtain ⟨w₂, rel₂, hrest, hfinal⟩ := ih hfollows hroom'
      refine ⟨w₂, rel₂, ?_, hfinal⟩
      rw [Stream.writeAll, bind_of_eq_ok hdata]
      exact hrest

end Follows

/-! ## The page index lists the pages -/

/-- **A page of the page index read back.** -/
theorem pageIndex_indexPage {entries : List Nat} {nextPage : Option Nat}
    (hlen : entries.length ≤ Pages.entriesPerPage) (hentries : ∀ e ∈ entries, e < 2 ^ 32)
    (hnext : ∀ b ∈ nextPage, b < invalidBlockNumber) :
    (indexPage entries nextPage).pageIndex = some ⟨entries, nextPage⟩ := by
  have hwidth : ∀ r ∈ entries.map (leBytes 4), r.length = 4 := by
    intro r hr
    obtain ⟨e, -, rfl⟩ := List.mem_map.1 hr
    exact length_leBytes 4 e
  have hbytes : (entries.map (leBytes 4)).flatten.length = entries.length * 4 := by
    rw [length_flatten_pages hwidth, List.length_map]
  have hfits : (entries.map (leBytes 4)).flatten.length ≤
      segmentDataPerPage - pageIndexSpecialSize := by
    have hmul := Nat.mul_le_mul_right 4 hlen
    rw [hbytes]
    exact Nat.le_trans hmul (by decide)
  obtain ⟨values, hvalues⟩ : ∃ v, v = [tpPageIndexMagic, tpPageIndexVersion, tpPageFileIndex,
      blockNumber nextPage, entries.length, 0] := ⟨_, rfl⟩
  have hspecial : (indexPage entries nextPage).data.drop
      (segmentDataPerPage - (indexPage entries nextPage).specialSize) =
        packStruct pageIndexSpecialWidths values := by
    have hpad := length_padPage (0 : Fin 256) hfits
    show (padPage (segmentDataPerPage - pageIndexSpecialSize) 0 _ ++ _).drop _ = _
    rw [hvalues]
    exact List.drop_left' hpad
  have hfields := unpackStruct_packStruct
    (show pageIndexSpecialWidths.length = values.length by rw [hvalues]; rfl) []
  rw [List.append_nil] at hfields
  have hnumber : blockNumber nextPage < 2 ^ 32 ∧
      blockOfNumber (blockNumber nextPage) = nextPage := by
    cases nextPage with
    | none => exact ⟨by decide, rfl⟩
    | some b =>
        have hb := hnext b rfl
        refine ⟨Nat.lt_trans hb (by decide), ?_⟩
        show (if b = invalidBlockNumber then none else some b) = _
        rw [if_neg (Nat.ne_of_lt hb)]
  have hcount : entries.length % 256 ^ 2 = entries.length :=
    Nat.mod_eq_of_lt (Nat.lt_of_le_of_lt hlen (by decide))
  have hchunks : chunks 4 entries.length (indexPage entries nextPage).data =
      entries.map (leBytes 4) := by
    have hread := chunks_flatten hwidth (List.replicate
      (segmentDataPerPage - pageIndexSpecialSize - (entries.map (leBytes 4)).flatten.length) 0 ++
        packStruct pageIndexSpecialWidths values)
    rw [List.length_map, ← List.append_assoc] at hread
    rw [hvalues] at hread
    exact hread
  unfold Page.pageIndex
  rw [hspecial, hfields, hvalues]
  simp only [pageIndexSpecialWidths, List.zipWith_cons_cons, List.zipWith_nil_left,
    List.getD_cons_succ, List.getD_cons_zero, hcount, hchunks]
  rw [if_neg (by decide), Nat.mod_eq_of_lt (by omega), hnumber.2, List.map_map]
  have hvalue : ∀ e ∈ entries, (byteValue ∘ leBytes 4) e = id e := by
    intro e he
    have hlt := hentries e he
    show byteValue (leBytes 4 e) = e
    rw [byteValue_leBytes]
    exact Nat.mod_eq_of_lt (by omega)
  rw [List.map_congr_left hvalue, List.map_id]

theorem Relation.indexStorage_modify (rel : Relation) {block : Nat} {page : Page}
    {index : Pages.PageIndexPage} (hlt : block < rel.nblocks)
    (hindex : page.pageIndex = some index) :
    (rel.modify block fun _ => page).indexStorage.content =
      Function.update rel.indexStorage.content block (.pageIndex index) := by
  funext b
  have hpage : (rel.modify block fun _ => page).pages[b]? =
      (fun old => if block = b then page else old) <$> rel.pages[b]? :=
    List.getElem?_modify _ _ _ _
  by_cases heq : b = block
  · subst heq
    rw [Function.update_self]
    show (match ((rel.modify b fun _ => page).pages[b]?).bind Page.pageIndex with
      | some page => Pages.PageContent.pageIndex page
      | none => .other) = _
    rw [hpage, List.getElem?_eq_getElem hlt]
    simp [hindex]
  · rw [Function.update_of_ne heq]
    show (match ((rel.modify block fun _ => page).pages[b]?).bind Page.pageIndex with
      | some page => Pages.PageContent.pageIndex page
      | none => .other) = (match (rel.pages[b]?).bind Page.pageIndex with
      | some page => Pages.PageContent.pageIndex page
      | none => .other)
    rw [hpage]
    simp [Ne.symm heq]

/-- **Index pages** in the relation are those of the page model. -/
theorem writeIndexPages_content {blocks pages : List Nat} (rel : Relation)
    (hblocks : ∀ b ∈ blocks, b < rel.nblocks) (hsize : rel.nblocks ≤ invalidBlockNumber)
    (hpages : ∀ p ∈ pages, p < 2 ^ 32) :
    (writeIndexPages blocks pages rel).nblocks = rel.nblocks ∧
      (writeIndexPages blocks pages rel).indexStorage.content =
        (Pages.writeIndexPages blocks pages rel.indexStorage).content := by
  induction blocks generalizing pages with
  | nil => exact ⟨rfl, rfl⟩
  | cons block blocks ih =>
      obtain ⟨hn, hcontent⟩ := ih (fun b hb => hblocks b (List.mem_cons_of_mem _ hb))
        (fun p hp => hpages p (List.mem_of_mem_drop hp))
      have hindex : (indexPage (pages.take Pages.entriesPerPage) blocks.head?).pageIndex =
          some ⟨pages.take Pages.entriesPerPage, blocks.head?⟩ := by
        refine pageIndex_indexPage (by rw [List.length_take]; omega)
          (fun e he => hpages e (List.mem_of_mem_take he)) ?_
        intro b hb
        have hmem := List.mem_cons_of_mem block (List.mem_of_mem_head? hb)
        exact Nat.lt_of_lt_of_le (hblocks b hmem) hsize
      have hlt : block <
          (writeIndexPages blocks (pages.drop Pages.entriesPerPage) rel).nblocks := by
        rw [hn]
        exact hblocks block List.mem_cons_self
      refine ⟨?_, ?_⟩
      · rw [writeIndexPages, Relation.nblocks_modify, hn]
      · rw [writeIndexPages, Relation.indexStorage_modify _ hlt hindex, hcontent]
        rfl

/-- The pages of the page index lie in the file, outside of the stream, and list its pages. -/
structure Linked (rel : Relation) (blocks pages : List Nat) : Prop where
  chain : Pages.IndexChain rel.indexStorage.content blocks pages
  lt : ∀ b ∈ blocks, b < rel.nblocks
  nodup : blocks.Nodup
  apart : ∀ b ∈ blocks, b ∉ pages

theorem Linked.modify {rel : Relation} {blocks pages : List Nat} (h : Linked rel blocks pages)
    {block : Nat} (hblock : block ∈ pages) (f : Page → Page) :
    Linked (rel.modify block f) blocks pages where
  chain := by
    refine h.chain.congr fun b hb => ?_
    have hne : block ≠ b := fun heq => h.apart b hb (heq ▸ hblock)
    show (match ((rel.pages.modify block f)[b]?).bind Page.pageIndex with
      | some page => Pages.PageContent.pageIndex page
      | none => .other) = _
    rw [List.getElem?_modify_ne f rel.pages hne]
    rfl
  lt := by
    intro b hb
    rw [Relation.nblocks_modify]
    exact h.lt b hb
  nodup := h.nodup
  apart := h.apart

theorem allocatePages_spec (fsm : Pages.FreeSpaceMap) (n : Nat) {rel : Relation}
    {pages : List Nat} {disk : List (List (Fin 256))} (h : Holds rel pages disk)
    (hroom : rel.nblocks + n ≤ maxBlockNumber + 1) :
    ∃ blocks rel' disk', allocatePages fsm n rel = .ok (blocks, rel') ∧ blocks.length = n ∧
      rel'.nblocks ≤ rel.nblocks + n ∧ Holds rel' (pages ++ blocks) (disk ++ disk') := by
  induction n generalizing rel pages disk with
  | zero =>
      refine ⟨[], rel, [], rfl, rfl, Nat.le_refl _, ?_⟩
      rw [List.append_nil, List.append_nil]
      exact h
  | succ n ih =>
      obtain ⟨block, rel₁, hrun, hgrow, hholds⟩ := allocateSegmentPage_spec fsm h (by omega)
      obtain ⟨blocks, rel₂, disk₂, hrest, hlen, hgrow₂, hholds₂⟩ := ih hholds (by omega)
      rw [List.append_assoc, List.append_assoc] at hholds₂
      refine ⟨block :: blocks, rel₂, _, ?_, by rw [List.length_cons, hlen], by omega, hholds₂⟩
      rw [allocatePages, bind_of_eq_ok hrun]
      show allocatePages fsm n rel₁ >>= _ = _
      rw [bind_of_eq_ok hrest]
      rfl

theorem writeIndexPages_holds {blocks written pages : List Nat} {rel : Relation}
    {disk : List (List (Fin 256))} (h : Holds rel pages disk) (hapart : ∀ b ∈ blocks, b ∉ pages) :
    Holds (writeIndexPages blocks written rel) pages disk := by
  induction blocks generalizing written with
  | nil => exact h
  | cons block blocks ih =>
      have hrest := @ih (written.drop Pages.entriesPerPage)
        fun b hb => hapart b (List.mem_cons_of_mem _ hb)
      exact hrest.modify_of_notMem (hapart block List.mem_cons_self) _

/-- **The page index** lists the pages of the stream, which keep their bytes. -/
theorem writePageIndex_spec (fsm : Pages.FreeSpaceMap) {rel : Relation} {pages : List Nat}
    {disk : List (List (Fin 256))} (h : Holds rel pages disk)
    (hroom : rel.nblocks + (pages.length + Pages.entriesPerPage - 1) / Pages.entriesPerPage ≤
      maxBlockNumber + 1) :
    ∃ blocks rel', writePageIndex fsm pages rel = .ok (blocks.head?, rel') ∧
      Holds rel' pages disk ∧ Linked rel' blocks pages ∧ rel'.nblocks ≤ maxBlockNumber + 1 := by
  obtain ⟨blocks, rel₁, disk₁, hrun, hlen, hgrow, hholds⟩ := allocatePages_spec fsm _ h hroom
  have hnodup := List.nodup_append.1 hholds.nodup
  have hapart : ∀ b ∈ blocks, b ∉ pages := fun b hb hmem => hnodup.2.2 b hmem b hb rfl
  have hlt : ∀ b ∈ blocks, b < rel₁.nblocks := fun b hb =>
    hholds.lt b (List.mem_append_right _ hb)
  have hsize : rel₁.nblocks ≤ invalidBlockNumber :=
    Nat.le_trans (Nat.le_trans hgrow hroom) (by decide)
  have hpages : ∀ p ∈ pages, p < 2 ^ 32 := fun p hp =>
    Nat.lt_of_lt_of_le (hholds.lt p (List.mem_append_left _ hp))
      (Nat.le_trans hsize (by decide))
  have hkeep : Holds rel₁ pages disk :=
    { lt := fun b hb => hholds.lt b (List.mem_append_left _ hb)
      nodup := hnodup.1
      not_free := fun b hb => hholds.not_free b (List.mem_append_left _ hb)
      disk_eq := by
        have heq := hholds.disk_eq
        rw [List.map_append] at heq
        exact (List.append_inj heq (by rw [List.length_map, h.length_eq])).1 }
  obtain ⟨hblocks, hcontent⟩ := writeIndexPages_content rel₁ hlt hsize hpages
  refine ⟨blocks, writeIndexPages blocks pages rel₁, ?_, writeIndexPages_holds hkeep hapart,
    ⟨?_, ?_, hnodup.2.1, hapart⟩, ?_⟩
  · rw [writePageIndex, bind_of_eq_ok hrun]
    rfl
  · rw [hcontent]
    exact Pages.indexChain_writeIndexPages _ hnodup.2.1 hlen
  · rw [hblocks]
    exact hlt
  · rw [hblocks]
    omega

/-! ## Patching overwrites -/

/-- The block in the buffer is that of the current page. -/
def PatchState.Buffered (st : PatchState) (pages : List Nat) : Prop :=
  st.currentPage = uint32Max ∨ pages[st.currentPage]? = some st.dictBuf

/-- **One entry** overwrites its bytes, on one page or on two. -/
theorem patchEntry_spec {pages blocks : List Nat} {st : PatchState}
    {disk : List (List (Fin 256))} {bytes : List (Fin 256)} (h : Holds st.rel pages disk)
    (hlinked : Linked st.rel blocks pages) (hpaged : Paged segmentDataPerPage disk bytes)
    (hpages : pages.length ≤ uint32Max) (hbuffered : st.Buffered pages) (i : Nat)
    {offset : Nat} {entry : List (Fin 256)} (hne : entry ≠ [])
    (hentry : entry.length ≤ segmentDataPerPage) (hoffset : offset + entry.length ≤ bytes.length) :
    ∃ st' disk', patchEntry pages i offset entry st = .ok st' ∧ st'.Buffered pages ∧
      st'.rel.nblocks = st.rel.nblocks ∧ Holds st'.rel pages disk' ∧
      Linked st'.rel blocks pages ∧
      Paged segmentDataPerPage disk' (overwrite bytes offset entry) := by
  obtain ⟨disk', hpatch, hlen, hpaged'⟩ := hpaged.patchPages hne hentry hoffset
  have hdisk := h.length_eq
  unfold patchPages at hpatch
  unfold patchEntry
  dsimp only
  split at hpatch
  case isTrue => exact nomatch hpatch
  case isFalse hin =>
    have hpage : offset / segmentDataPerPage < pages.length := by omega
    obtain ⟨block, hblock⟩ : ∃ block, pages[offset / segmentDataPerPage]? = some block :=
      ⟨_, List.getElem?_eq_getElem hpage⟩
    -- the buffer has the block of the entry's page
    have hbuf : (if offset / segmentDataPerPage ≠ st.currentPage then
        pages.getD (offset / segmentDataPerPage) 0 else st.dictBuf) = block := by
      split
      case isTrue => rw [List.getD_eq_getElem?_getD, hblock, Option.getD_some]
      case isFalse hsame =>
        rw [not_not] at hsame
        cases hbuffered with
        | inl hnone => omega
        | inr hcached => exact Option.some.inj (hcached.symm.trans (hsame ▸ hblock))
    rw [if_neg (by omega), hbuf]
    dsimp only at hpatch
    by_cases hfits : segmentDataPerPage - offset % segmentDataPerPage ≥ entry.length
    · rw [if_pos hfits] at hpatch ⊢
      cases hpatch
      have hholds := h.modifyData hblock fun data =>
        overwrite data (offset % segmentDataPerPage) entry
      exact ⟨_, _, rfl, Or.inr hblock, Relation.nblocks_modify _ _ _, hholds,
        hlinked.modify (List.mem_of_getElem? hblock) _, hpaged'⟩
    · rw [if_neg hfits] at hpatch ⊢
      by_cases hnext : offset / segmentDataPerPage + 1 ≥ disk.length
      · rw [if_pos hnext] at hpatch
        exact nomatch hpatch
      · rw [if_neg hnext] at hpatch
        cases hpatch
        obtain ⟨block', hblock'⟩ : ∃ block, pages[offset / segmentDataPerPage + 1]? = some block :=
          ⟨_, List.getElem?_eq_getElem (by omega)⟩
        have hbuf' : pages.getD (offset / segmentDataPerPage + 1) 0 = block' := by
          rw [List.getD_eq_getElem?_getD, hblock', Option.getD_some]
        have hholds := (h.modifyData hblock fun data => overwrite data
          (offset % segmentDataPerPage)
          (entry.take (segmentDataPerPage - offset % segmentDataPerPage))).modifyData hblock'
            fun data => overwrite data 0
              (entry.drop (segmentDataPerPage - offset % segmentDataPerPage))
        rw [if_neg (by omega), hbuf']
        refine ⟨_, _, rfl, Or.inr hblock', ?_, hholds,
          (hlinked.modify (List.mem_of_getElem? hblock) _).modify (List.mem_of_getElem? hblock') _,
          hpaged'⟩
        exact (Relation.nblocks_modify _ _ _).trans (Relation.nblocks_modify _ _ _)

/-- The bytes with the entries written at their wrapped offsets, one after the other. -/
def patched (entriesOffset : Nat) : List DictRecord → Nat → List (Fin 256) → List (Fin 256)
  | [], _, bytes => bytes
  | entry :: rest, i, bytes =>
      patched entriesOffset rest (i + 1)
        (overwrite bytes ((entriesOffset + i * dictEntrySize) % 2 ^ 32) entry.bytes)

/-- **The patching loop** overwrites the bytes at the wrapped offsets of the entries. -/
theorem patchEntries_spec {pages blocks : List Nat} {entriesOffset : Nat}
    (entries : List DictRecord) (i : Nat) {st : PatchState}
    {disk : List (List (Fin 256))} {bytes : List (Fin 256)} (h : Holds st.rel pages disk)
    (hlinked : Linked st.rel blocks pages) (hpaged : Paged segmentDataPerPage disk bytes)
    (hpages : pages.length ≤ uint32Max) (hbuffered : st.Buffered pages)
    (hin : ∀ j < entries.length,
      (entriesOffset + (i + j) * dictEntrySize) % 2 ^ 32 + dictEntrySize ≤ bytes.length) :
    ∃ st' disk', patchEntries pages entriesOffset entries i st = .ok st' ∧
      st'.rel.nblocks = st.rel.nblocks ∧ Holds st'.rel pages disk' ∧
      Linked st'.rel blocks pages ∧
      Paged segmentDataPerPage disk' (patched entriesOffset entries i bytes) := by
  induction entries generalizing i st disk bytes with
  | nil => exact ⟨st, disk, rfl, rfl, h, hlinked, hpaged⟩
  | cons entry rest ih =>
      have hsize := entry.length_bytes
      have hne : entry.bytes ≠ [] := by
        apply List.ne_nil_of_length_pos
        rw [hsize]
        decide
      have hfirst := hin 0 (by rw [List.length_cons]; omega)
      rw [Nat.add_zero] at hfirst
      have hfits : (entriesOffset + i * dictEntrySize) % 2 ^ 32 + entry.bytes.length ≤
          bytes.length := by
        rw [hsize]
        exact hfirst
      obtain ⟨st₁, disk₁, hrun, hbuf₁, hn₁, hholds₁, hlinked₁, hpaged₁⟩ :=
        patchEntry_spec h hlinked hpaged hpages hbuffered i hne (by rw [hsize]; decide) hfits
      obtain ⟨st₂, disk₂, hrest, hn₂, hholds₂, hlinked₂, hpaged₂⟩ :=
        ih (i + 1) hholds₁ hlinked₁ hpaged₁ hbuf₁ (by
          intro j hj
          rw [length_overwrite hfits, Nat.add_assoc, Nat.add_comm 1 j]
          exact hin (j + 1) (by rw [List.length_cons]; omega))
      refine ⟨st₂, disk₂, ?_, hn₂.trans hn₁, hholds₂, hlinked₂, hpaged₂⟩
      rw [patchEntries, bind_of_eq_ok hrun]
      exact hrest

end PgTextsearch.Segment.Stream
