import PgTextsearch.Segment.Stream

/-!
# Reading segment streams (`segment/segment.c`)

`tp_segment_open` takes the header from the first page and the page map from the page index;
`tp_segment_read` walks over the pages of a range, keeps the last one pinned, and counts its
offset in 32 bits.

Everything the stream has behind the page that holds byte 2^32 is out of reach of a reader,
and a dictionary entry that begins at byte 2^32 or later is patched in a wrong place.

## Main results

* `writeStream_spec` — what the relation holds after a segment is written.
* `tpSegmentOpen_spec` — a segment with the right magic is opened with its page map.
* `Opened.read_eq` — a read inside of the readable pages returns its bytes.
* `Opened.read_wrapped` — a read beyond them goes on at the wrapped offset.
-/

namespace PgTextsearch.Segment.Stream

open PgTextsearch.Postgres PgTextsearch.Verified PgTextsearch.Segment.File

/-! ## Writing a whole segment -/

namespace Calls

variable (c : Calls)

/-- The placeholders of the dictionary entries. -/
def placeholders : List (Fin 256) := (c.entries.map fun _ => placeholder).flatten

/-- The concatenated writes. -/
def written : List (Fin 256) :=
  c.header.bytes ++ c.before.flatten ++ c.placeholders ++ c.behind.flatten

/-- Where the dictionary entries begin. -/
def entriesOffset : Nat := headerSize + c.before.flatten.length

/-- The number of bytes written. -/
def size : Nat := c.entriesOffset + c.entries.length * dictEntrySize + c.behind.flatten.length

/-- The number of data pages. -/
def numPages : Nat := (c.size - 1) / segmentDataPerPage + 1

/-- The number of pages of the page index. -/
def numIndexPages : Nat := (c.numPages + Pages.entriesPerPage - 1) / Pages.entriesPerPage

/-- The header in memory when everything is written. -/
def finalHeader (pageIndexRoot : Option Nat) : Header :=
  { c.updated with
    entriesOffset := c.entriesOffset % 2 ^ 32
    pageIndex := blockNumber pageIndexRoot
    dataSize := c.size % 2 ^ 32
    numPages := c.numPages }

theorem length_placeholders : c.placeholders.length = c.entries.length * dictEntrySize := by
  have hwidth : ∀ r ∈ c.entries.map fun _ => placeholder, r.length = dictEntrySize := by
    intro r hr
    obtain ⟨e, -, rfl⟩ := List.mem_map.1 hr
    exact DictRecord.length_bytes _
  rw [placeholders, length_flatten_pages hwidth, List.length_map]

theorem length_written : c.written.length = c.size := by
  rw [written, List.length_append, List.length_append, List.length_append, Header.length_bytes,
    c.length_placeholders]
  rfl

theorem written_ne_nil : c.written ≠ [] := by
  apply List.ne_nil_of_length_pos
  rw [c.length_written]
  unfold size entriesOffset headerSize
  omega

/-- The bytes in front of the dictionary entries are counted right, up to wrapping. -/
theorem size_pos : 0 < c.size := by
  unfold size entriesOffset headerSize
  omega

/-- The relation has room for the segment. -/
def Room (rel : Relation) : Prop :=
  rel.nblocks + c.numPages + c.numIndexPages ≤ maxBlockNumber + 1

/-- A wrapped entry lies inside of the stream. -/
theorem wrapped_entry_le {j : Nat} (hj : j < c.entries.length) :
    (c.entriesOffset % 2 ^ 32 + (0 + j) * dictEntrySize) % 2 ^ 32 + dictEntrySize ≤ c.size := by
  have hmul : (j + 1) * dictEntrySize ≤ c.entries.length * dictEntrySize :=
    Nat.mul_le_mul_right _ hj
  rw [Nat.succ_mul] at hmul
  have hle := Nat.mod_le (c.entriesOffset % 2 ^ 32 + (0 + j) * dictEntrySize) (2 ^ 32)
  have hle' := Nat.mod_le c.entriesOffset (2 ^ 32)
  rw [Nat.zero_add] at hle ⊢
  unfold size
  omega

end Calls

/-- The bytes of the pages of a finished segment: the entries are patched at their wrapped
offsets, and the header is updated over what the first page says. -/
def finalBytes (c : Calls) (pageIndexRoot : Option Nat) (padding : List (Fin 256)) :
    List (Fin 256) :=
  let bytes := patched (c.entriesOffset % 2 ^ 32) c.entries 0 (c.written ++ padding)
  overwrite bytes 0
    (updateHeader (Header.ofBytes (bytes.take segmentDataPerPage))
      (c.finalHeader pageIndexRoot)).bytes

theorem length_patched (entriesOffset : Nat) (entries : List DictRecord) (i : Nat)
    {bytes : List (Fin 256)} (hin : ∀ j < entries.length,
      (entriesOffset + (i + j) * dictEntrySize) % 2 ^ 32 + dictEntrySize ≤ bytes.length) :
    (patched entriesOffset entries i bytes).length = bytes.length := by
  induction entries generalizing i bytes with
  | nil => rfl
  | cons entry rest ih =>
      have hfirst := hin 0 (by rw [List.length_cons]; omega)
      rw [Nat.add_zero] at hfirst
      have hlen : (overwrite bytes ((entriesOffset + i * dictEntrySize) % 2 ^ 32)
          entry.bytes).length = bytes.length :=
        length_overwrite (by rw [entry.length_bytes]; exact hfirst)
      rw [patched, ih, hlen]
      intro j hj
      rw [hlen, Nat.add_assoc, Nat.add_comm 1 j]
      exact hin (j + 1) (by rw [List.length_cons]; omega)

/-- **The header** is updated on the first page. -/
theorem patchHeader_spec (header : Header) {rel : Relation} {pages blocks : List Nat}
    {disk : List (List (Fin 256))} {bytes : List (Fin 256)} (h : Holds rel pages disk)
    (hlinked : Linked rel blocks pages) (hpaged : Paged segmentDataPerPage disk bytes)
    (hpos : 0 < pages.length) :
    ∃ rel' disk', rel' = patchHeader header (pages.headD 0) rel ∧ rel'.nblocks = rel.nblocks ∧
      Holds rel' pages disk' ∧ Linked rel' blocks pages ∧
      Paged segmentDataPerPage disk' (overwrite bytes 0
        (updateHeader (Header.ofBytes (bytes.take segmentDataPerPage)) header).bytes) := by
  obtain ⟨block, hblock⟩ : ∃ block, pages[0]? = some block := ⟨_, List.getElem?_eq_getElem hpos⟩
  have hhead : pages.headD 0 = block := by
    rw [List.headD_eq_head?_getD, List.head?_eq_getElem?, hblock, Option.getD_some]
  have hn : 0 < disk.length := h.length_eq ▸ hpos
  have hfirst : disk[0] = bytes.take segmentDataPerPage := by
    have hhead := hpaged.head?_eq hn
    rw [List.getElem?_eq_getElem hn] at hhead
    exact Option.some.inj hhead
  obtain ⟨new, hnew⟩ : ∃ new, new =
      updateHeader (Header.ofBytes (bytes.take segmentDataPerPage)) header := ⟨_, rfl⟩
  have hmodify : (disk.modify 0 fun data =>
      overwrite data 0 (updateHeader (Header.ofBytes data) header).bytes) =
        disk.modify 0 fun data => overwrite data 0 new.bytes := by
    rw [List.modify_eq_take_cons_drop hn, List.modify_eq_take_cons_drop hn, hfirst, hnew]
  have hholds := h.modifyData hblock fun data =>
    overwrite data 0 (updateHeader (Header.ofBytes data) header).bytes
  rw [hmodify] at hholds
  have hpage := hpaged.modify hn (show 0 + new.bytes.length ≤ segmentDataPerPage by
    rw [Header.length_bytes]
    decide)
  rw [Nat.zero_mul, Nat.zero_add, hnew] at hpage
  rw [hnew] at hholds
  refine ⟨_, _, rfl, Relation.nblocks_modify _ _ _, ?_,
    hlinked.modify (by rw [hhead]; exact List.mem_of_getElem? hblock) _, hpage⟩
  rw [hhead]
  exact hholds

/-- **A segment is written**: its pages hold its bytes, and its index pages list its pages. -/
theorem writeStream_spec (fsm : Pages.FreeSpaceMap) {rel : Relation} {c : Calls}
    (hroom : c.Room rel) :
    ∃ pages blocks rel' disk padding,
      writeStream fsm rel c = .ok (pages.headD 0, rel') ∧ pages.length = c.numPages ∧
        rel'.nblocks ≤ maxBlockNumber + 1 ∧ Holds rel' pages disk ∧ Linked rel' blocks pages ∧
        Paged segmentDataPerPage disk (finalBytes c blocks.head? padding) := by
  unfold Calls.Room at hroom
  -- the abstract writer
  obtain ⟨v₁, hv₁⟩ : ∃ v, v = File.tpSegmentWriterWrite File.tpSegmentWriterInit c.header.bytes :=
    ⟨_, rfl⟩
  obtain ⟨v₂, hv₂⟩ : ∃ v, v = tpSegmentWriterWriteAll v₁ c.before := ⟨_, rfl⟩
  obtain ⟨v₃, hv₃⟩ : ∃ v, v = tpSegmentWriterWriteAll v₂ (c.entries.map fun _ => placeholder) :=
    ⟨_, rfl⟩
  obtain ⟨v₄, hv₄⟩ : ∃ v, v = tpSegmentWriterWriteAll v₃ c.behind := ⟨_, rfl⟩
  have hwrote₂ := (wrote_init.write c.header.bytes).writeAll c.before
  rw [List.nil_append, ← hv₁, ← hv₂] at hwrote₂
  have hwrote₄ := (hwrote₂.writeAll (c.entries.map fun _ => placeholder)).writeAll c.behind
  rw [← hv₃, ← hv₄] at hwrote₄
  have hwritten : Wrote v₄ c.written := hwrote₄
  have hpages : v₄.disk.length = c.numPages := by
    have hlen := hwritten.1.length_pages 0 hwritten.2 (by decide) c.written_ne_nil
    rw [PageWriter.length_disk_flush, c.length_written] at hlen
    exact hlen
  have hgrow₂ := @PageWriter.length_disk_writeAll (Fin 256) segmentDataPerPage 0 v₁ c.before
  have hgrow₃ := @PageWriter.length_disk_writeAll (Fin 256) segmentDataPerPage 0 v₂
    (c.entries.map fun _ => placeholder)
  have hgrow₄ := @PageWriter.length_disk_writeAll (Fin 256) segmentDataPerPage 0 v₃ c.behind
  have heq₂ : v₁.writeAll segmentDataPerPage 0 c.before = v₂ := hv₂.symm
  have heq₃ : v₂.writeAll segmentDataPerPage 0 (c.entries.map fun _ => placeholder) = v₃ :=
    hv₃.symm
  have heq₄ : v₃.writeAll segmentDataPerPage 0 c.behind = v₄ := hv₄.symm
  rw [heq₂] at hgrow₂
  rw [heq₃] at hgrow₃
  rw [heq₄, hpages] at hgrow₄
  -- the writer of the segment
  have hpos : 0 < c.numPages := Nat.succ_pos _
  obtain ⟨w₀, rel₀, hinit, hf₀⟩ := tpSegmentWriterInit_spec fsm rel (by omega)
  have hroom₁ : rel.nblocks + v₁.disk.length ≤ maxBlockNumber + 1 := by omega
  rw [hv₁] at hroom₁
  obtain ⟨w₁, rel₁, hrun₁, hf₁⟩ := @Follows.write rel.nblocks rel₀ w₀ _ fsm hf₀ c.header.bytes
    hroom₁
  have hf₁' : Follows rel.nblocks rel₁ w₁ v₁ := hv₁ ▸ hf₁
  obtain ⟨w₂, rel₂, hrun₂, hf₂⟩ := hf₁'.writeAll fsm c.before (by rw [heq₂]; omega)
  rw [heq₂] at hf₂
  obtain ⟨w₃, rel₃, hrun₃, hf₃⟩ := hf₂.writeAll fsm (c.entries.map fun _ => placeholder)
    (by rw [heq₃]; omega)
  rw [heq₃] at hf₃
  obtain ⟨w₄, rel₄, hrun₄, hf₄⟩ := hf₃.writeAll fsm c.behind (by rw [heq₄]; omega)
  rw [heq₄] at hf₄
  have hflush := hf₄.flush
  obtain ⟨n, hdisk⟩ := hwritten.1.finish 0
  have hlen : w₄.pages.length = c.numPages := by rw [hf₄.holds.length_eq, hpages]
  have hentries : w₂.currentOffset = c.entriesOffset % 2 ^ 32 := by
    rw [hf₂.offset_eq, hwrote₂.currentOffset_eq, List.length_append, Header.length_bytes]
    rfl
  have hsize : w₄.currentOffset = c.size % 2 ^ 32 := by
    rw [hf₄.offset_eq, hwritten.currentOffset_eq, c.length_written]
  -- page index, entries, header
  have hnblocks := hflush.nblocks_le
  obtain ⟨blocks, rel₅, hindex, hholds₅, hlinked₅, hn₅⟩ := writePageIndex_spec fsm hflush.holds
    (by
      rw [hlen]
      unfold Calls.numIndexPages at hroom
      rw [hlen] at hnblocks
      omega)
  have htotal := hdisk.length_eq
  rw [List.length_append, c.length_written] at htotal
  have hmax : w₄.pages.length ≤ uint32Max := by
    have hle := Pages.length_le_of_nodup hholds₅.nodup hholds₅.lt
    exact Nat.le_trans hle hn₅
  obtain ⟨st, disk₆, hpatch, hn₆, hholds₆, hlinked₆, hpaged₆⟩ :=
    @patchEntries_spec w₄.pages blocks (c.entriesOffset % 2 ^ 32) c.entries 0
      ⟨uint32Max, 0, rel₅⟩ _ _ hholds₅ hlinked₅ hdisk hmax (Or.inl rfl) (by
        intro j hj
        have hle := c.wrapped_entry_le hj
        rw [List.length_append, c.length_written]
        omega)
  obtain ⟨rel₇, disk₇, hrel₇, hn₇, hholds₇, hlinked₇, hpaged₇⟩ :=
    patchHeader_spec (c.finalHeader blocks.head?) hholds₆ hlinked₆ hpaged₆
      (by rw [hlen]; exact hpos)
  have hhead : w₀.pages.headD 0 = w₄.pages.headD 0 := by
    have hprefix : w₀.pages <+: w₄.pages :=
      (((writeLoop_grows hrun₁).trans (writeAll_grows hrun₂)).trans
        (writeAll_grows hrun₃)).trans (writeAll_grows hrun₄)
    have hne : w₀.pages ≠ [] := by
      apply List.ne_nil_of_length_pos
      rw [hf₀.holds.length_eq]
      decide
    obtain ⟨block, rest, hcons⟩ := List.exists_cons_of_ne_nil hne
    obtain ⟨more, hmore⟩ := hprefix
    rw [← hmore, hcons]
    rfl
  refine ⟨w₄.pages, blocks, rel₇, disk₇, List.replicate n 0, ?_, hlen,
    Nat.le_trans (hn₇.trans hn₆).le hn₅, hholds₇, hlinked₇, hpaged₇⟩
  unfold writeStream
  rw [bind_of_eq_ok hinit]
  dsimp only
  rw [bind_of_eq_ok hrun₁]
  dsimp only
  rw [bind_of_eq_ok hrun₂]
  dsimp only
  rw [bind_of_eq_ok hrun₃]
  dsimp only
  rw [bind_of_eq_ok hrun₄]
  dsimp only
  rw [bind_of_eq_ok hindex]
  dsimp only
  rw [hentries, bind_of_eq_ok hpatch, hhead, hsize, hlen, hrel₇]
  rfl

/-! ## Opening and reading -/

/-- `TpSegmentReader`: the header, the page map, the size of the relation, and the page whose
buffer is pinned. -/
structure SegmentReader where
  header : Header
  pageMap : List Nat
  nblocks : Nat
  currentLogicalPage : Nat
  currentBuffer : Option Nat
  deriving DecidableEq, Repr

/-- `tp_segment_open`. -/
def tpSegmentOpen (rel : Relation) (rootBlock : Nat) : Except StreamError (Option SegmentReader) :=
  if rootBlock ≥ rel.nblocks then .ok none
  else
    let header := Header.ofBytes (rel.dataOf rootBlock)
    if header.magic ≠ tpSegmentMagic then .error (.invalidSegmentHeader rootBlock header.magic)
    else
      match Pages.loadPageMap rel.indexStorage header.numPages rel.nblocks
          (blockOfNumber header.pageIndex) [] with
      | .error e => .error (.pageMap e)
      | .ok pageMap => .ok (some ⟨header, pageMap, rel.nblocks, uint32Max, none⟩)

/-- The buffer of a logical page: the pinned one, or that of its block. -/
def SegmentReader.pinPage (reader : SegmentReader) (logicalPage logicalOffset : Nat) :
    Except StreamError (Nat × SegmentReader) :=
  if reader.currentLogicalPage ≠ logicalPage then
    if logicalPage ≥ reader.header.numPages then
      .error (.invalidLogicalPage logicalPage
        (if reader.header.numPages > 0 then reader.header.numPages - 1 else 0) logicalOffset
        reader.header.numPages)
    else
      let physical := reader.pageMap.getD logicalPage 0
      if physical ≥ reader.nblocks then
        .error (.invalidPhysicalBlock physical logicalPage reader.nblocks)
      else
        .ok (physical,
          { reader with currentLogicalPage := logicalPage, currentBuffer := some physical })
  else
    match reader.currentBuffer with
    | some buf => .ok (buf, reader)
    | none => .error .noBuffer

/-- The loop of `tp_segment_read`. -/
def readLoop (rel : Relation) :
    Nat → SegmentReader → Nat → Nat → Except StreamError (List (Fin 256) × SegmentReader)
  | 0, reader, _, _ => .ok ([], reader)
  | fuel + 1, reader, logicalOffset, len =>
      if len = 0 then .ok ([], reader)
      else do
        let logicalPage := logicalOffset / segmentDataPerPage
        let pageOffset := logicalOffset % segmentDataPerPage
        let toRead := min len (segmentDataPerPage - pageOffset)
        let (buf, reader) ← reader.pinPage logicalPage logicalOffset
        let (rest, reader) ←
          readLoop rel fuel reader ((logicalOffset + toRead) % 2 ^ 32) (len - toRead)
        return (slice (rel.dataOf buf) pageOffset toRead ++ rest, reader)

/-- `tp_segment_read`; every round reads at least one byte. -/
def tpSegmentRead (rel : Relation) (reader : SegmentReader) (logicalOffset len : Nat) :
    Except StreamError (List (Fin 256) × SegmentReader) :=
  readLoop rel len reader logicalOffset len

/-- One read after the other. -/
def readAll (rel : Relation) :
    SegmentReader → List (Nat × Nat) → Except StreamError (List (List (Fin 256)))
  | _, [] => .ok []
  | reader, range :: ranges => do
      let (bytes, reader) ← tpSegmentRead rel reader range.1 range.2
      let rest ← readAll rel reader ranges
      return bytes :: rest

/-- The reader belongs to the stream with these pages. -/
structure Opened (rel : Relation) (reader : SegmentReader) (pages : List Nat)
    (disk : List (List (Fin 256))) : Prop where
  holds : Holds rel pages disk
  pageMap_eq : reader.pageMap = pages
  numPages_eq : reader.header.numPages = pages.length
  nblocks_eq : reader.nblocks = rel.nblocks
  pinned : reader.currentLogicalPage = uint32Max ∨ reader.currentLogicalPage < pages.length ∧
    reader.currentBuffer = pages[reader.currentLogicalPage]?

/-- **Opening**: with the right magic the page map is read from the page index. -/
theorem tpSegmentOpen_spec {rel : Relation} {pages blocks : List Nat}
    {disk : List (List (Fin 256))} (h : Holds rel pages disk) (hlinked : Linked rel blocks pages)
    {root : Nat} (hroot : root ∈ pages) {header : Header}
    (hheader : Header.ofBytes (rel.dataOf root) = header)
    (hnum : header.numPages = pages.length)
    (hindex : blockOfNumber header.pageIndex = blocks.head?) :
    (header.magic = tpSegmentMagic →
        Opened rel ⟨header, pages, rel.nblocks, uint32Max, none⟩ pages disk ∧
        tpSegmentOpen rel root = .ok (some ⟨header, pages, rel.nblocks, uint32Max, none⟩)) ∧
      (header.magic ≠ tpSegmentMagic → ∃ e, tpSegmentOpen rel root = .error e) := by
  have hlt := h.lt root hroot
  have hload := Pages.loadPageMap_of_indexChain hlinked.chain hlinked.lt h.lt
    (Pages.length_le_of_nodup hlinked.nodup hlinked.lt) []
  rw [List.length_nil, Nat.zero_add, List.nil_append] at hload
  constructor
  · intro hmagic
    refine ⟨⟨h, rfl, hnum, rfl, Or.inl rfl⟩, ?_⟩
    unfold tpSegmentOpen
    rw [if_neg (Nat.not_le.2 hlt), hheader]
    dsimp only
    rw [if_neg (not_not.2 hmagic), hnum, hindex]
    rw [hload]
  · intro hmagic
    refine ⟨.invalidSegmentHeader root header.magic, ?_⟩
    unfold tpSegmentOpen
    rw [if_neg (Nat.not_le.2 hlt), hheader]
    dsimp only
    rw [if_pos hmagic]

section Reading

variable {rel : Relation} {reader : SegmentReader} {pages : List Nat}
variable {disk : List (List (Fin 256))}

/-- **Pinning a page** of the stream. -/
theorem Opened.pinPage (h : Opened rel reader pages disk) {logicalPage : Nat}
    (hpage : logicalPage < uint32Max) (logicalOffset : Nat) :
    (∀ block, pages[logicalPage]? = some block →
        ∃ reader', reader.pinPage logicalPage logicalOffset = .ok (block, reader') ∧
          Opened rel reader' pages disk) ∧
      (pages.length ≤ logicalPage →
        ∃ e, reader.pinPage logicalPage logicalOffset = .error e) := by
  constructor
  · intro block hblock
    have hlt := (List.getElem?_eq_some_iff.1 hblock).1
    unfold SegmentReader.pinPage
    by_cases hsame : reader.currentLogicalPage = logicalPage
    · rw [if_neg (not_not.2 hsame)]
      cases h.pinned with
      | inl hnone => omega
      | inr hcached =>
          rw [hcached.2, hsame, hblock]
          exact ⟨reader, rfl, h⟩
    · rw [if_pos hsame, if_neg (by rw [h.numPages_eq]; omega)]
      have hget : reader.pageMap.getD logicalPage 0 = block := by
        rw [h.pageMap_eq, List.getD_eq_getElem?_getD, hblock, Option.getD_some]
      dsimp only
      rw [hget, if_neg (by
        rw [h.nblocks_eq]
        exact Nat.not_le.2 (h.holds.lt block (List.mem_of_getElem? hblock)))]
      exact ⟨_, rfl, h.holds, h.pageMap_eq, h.numPages_eq, h.nblocks_eq,
        Or.inr ⟨hlt, hblock.symm⟩⟩
  · intro hbeyond
    unfold SegmentReader.pinPage
    have hne : reader.currentLogicalPage ≠ logicalPage := by
      cases h.pinned with
      | inl hnone => omega
      | inr hcached => omega
    rw [if_pos hne, if_pos (by rw [h.numPages_eq]; exact hbeyond)]
    exact ⟨_, rfl⟩

/-- The end of the page that holds byte 2^32: a reader gets no further. -/
def readableEnd : Nat := (2 ^ 32 / segmentDataPerPage + 1) * segmentDataPerPage

theorem readLoop_zero (fuel : Nat) (offset : Nat) :
    readLoop rel fuel reader offset 0 = .ok ([], reader) := by
  cases fuel <;> rfl

theorem verifiedReadLoop_zero (fuel : Nat) (offset : Nat) :
    Verified.readLoop segmentDataPerPage disk fuel offset 0 = .ok [] := by
  cases fuel <;> rfl

/-- Up to the end of the readable pages, the loop is that of a reader whose offsets do not wrap. -/
theorem Opened.readLoop_follows (h : Opened rel reader pages disk) (fuel : Nat)
    {offset len : Nat} (hoffset : offset < 2 ^ 32) (hend : offset + len ≤ readableEnd) :
    (∀ bytes, Verified.readLoop segmentDataPerPage disk fuel offset len = .ok bytes →
        ∃ reader', readLoop rel fuel reader offset len = .ok (bytes, reader') ∧
          Opened rel reader' pages disk) ∧
      ∀ o, Verified.readLoop segmentDataPerPage disk fuel offset len = .error o →
        ∃ e, readLoop rel fuel reader offset len = .error e := by
  induction fuel generalizing reader offset len with
  | zero =>
      constructor
      · intro bytes hrun
        cases hrun
        exact ⟨reader, rfl, h⟩
      · intro o hrun
        cases hrun
  | succ fuel ih =>
      unfold Verified.readLoop readLoop
      by_cases hlen : len = 0
      · rw [if_pos hlen, if_pos hlen]
        constructor
        · intro bytes hrun
          cases hrun
          exact ⟨reader, rfl, h⟩
        · intro o hrun
          cases hrun
      · rw [if_neg hlen, if_neg hlen]
        have hpage : offset / segmentDataPerPage < uint32Max :=
          Nat.lt_of_le_of_lt (Nat.div_le_div_right (Nat.le_of_lt hoffset)) (by decide)
        obtain ⟨hpin, hbeyond⟩ := h.pinPage hpage offset
        have hdisk : disk[offset / segmentDataPerPage]? =
            (pages[offset / segmentDataPerPage]?).map rel.dataOf := by
          rw [← h.holds.disk_eq, List.getElem?_map]
        cases hblock : pages[offset / segmentDataPerPage]? with
        | none =>
            obtain ⟨e, he⟩ := hbeyond (List.getElem?_eq_none_iff.1 hblock)
            rw [hdisk, hblock]
            constructor
            · intro bytes hrun
              cases hrun
            · intro o _
              refine ⟨e, ?_⟩
              dsimp only
              rw [he]
              rfl
        | some block =>
            obtain ⟨reader₁, hpinned, hopened⟩ := hpin block hblock
            rw [hdisk, hblock]
            dsimp only [Option.map_some]
            rw [bind_of_eq_ok hpinned]
            dsimp only
            obtain ⟨toRead, htoRead⟩ : ∃ n, n = min len (segmentDataPerPage -
                offset % segmentDataPerPage) := ⟨_, rfl⟩
            rw [← htoRead]
            -- the offset wraps only when everything is read
            have hnext : Verified.readLoop segmentDataPerPage disk fuel (offset + toRead)
                (len - toRead) = Verified.readLoop segmentDataPerPage disk fuel
                  ((offset + toRead) % 2 ^ 32) (len - toRead) := by
              by_cases hdone : len - toRead = 0
              · rw [hdone, verifiedReadLoop_zero, verifiedReadLoop_zero]
              · congr 1
                symm
                apply Nat.mod_eq_of_lt
                unfold readableEnd at hend
                unfold segmentDataPerPage at hend htoRead
                omega
            have hend' : (offset + toRead) % 2 ^ 32 + (len - toRead) ≤ readableEnd := by
              have hle := Nat.mod_le (offset + toRead) (2 ^ 32)
              omega
            obtain ⟨hok, herror⟩ := ih hopened (Nat.mod_lt (offset + toRead) (by decide)) hend'
            rw [hnext]
            cases hrest : Verified.readLoop segmentDataPerPage disk fuel
                ((offset + toRead) % 2 ^ 32) (len - toRead) with
            | error o =>
                obtain ⟨e, he⟩ := herror o hrest
                constructor
                · intro bytes hrun
                  cases hrun
                · intro o' _
                  refine ⟨e, ?_⟩
                  rw [he]
                  rfl
            | ok rest =>
                obtain ⟨reader₂, hrun₂, hopened₂⟩ := hok rest hrest
                constructor
                · intro bytes hrun
                  refine ⟨reader₂, ?_, hopened₂⟩
                  cases hrun
                  rw [hrun₂]
                  rfl
                · intro o hrun
                  cases hrun

/-- **Reading** a range of the stream returns its bytes, and keeps the reader fit for the next
read. -/
theorem Opened.read_eq (h : Opened rel reader pages disk) {bytes : List (Fin 256)}
    (hpaged : Paged segmentDataPerPage disk bytes) {offset len : Nat} (hoffset : offset < 2 ^ 32)
    (hend : offset + len ≤ readableEnd) (hlen : offset + len ≤ bytes.length) :
    ∃ reader', tpSegmentRead rel reader offset len = .ok (slice bytes offset len, reader') ∧
      Opened rel reader' pages disk := by
  have hread := readPages_eq (by decide) hpaged.size_eq
    (Or.inr (hpaged.length_eq ▸ hlen) : len = 0 ∨ _)
  rw [hpaged.flatten_eq] at hread
  exact (h.readLoop_follows len hoffset hend).1 _ hread

/-- **Reading beyond the readable pages** goes on at the wrapped offset. -/
theorem Opened.read_wrapped (h : Opened rel reader pages disk) {bytes : List (Fin 256)}
    (hpaged : Paged segmentDataPerPage disk bytes) {offset more : Nat} (hoffset : offset < 2 ^ 32)
    (hpage : offset / segmentDataPerPage = 2 ^ 32 / segmentDataPerPage)
    (hmore : readableEnd % 2 ^ 32 + more ≤ readableEnd) (hlen : readableEnd ≤ bytes.length) :
    ∃ reader', tpSegmentRead rel reader offset (readableEnd - offset + more) =
        .ok (slice bytes offset (readableEnd - offset) ++
          slice bytes (readableEnd % 2 ^ 32) more, reader') := by
  have hlt : offset < readableEnd := Nat.lt_trans hoffset (by decide)
  have hdiv := Nat.div_add_mod' offset segmentDataPerPage
  have hmod : offset % segmentDataPerPage < segmentDataPerPage := Nat.mod_lt _ (by decide)
  have hpageEnd : offset + (segmentDataPerPage - offset % segmentDataPerPage) = readableEnd := by
    rw [hpage] at hdiv
    unfold readableEnd
    rw [Nat.succ_mul]
    omega
  have hdisk := h.holds.length_eq
  have htotal := hpaged.length_eq
  have hin : offset / segmentDataPerPage < pages.length := by
    rw [hdisk, Nat.div_lt_iff_lt_mul (by decide)]
    omega
  obtain ⟨block, hblock⟩ : ∃ block, pages[offset / segmentDataPerPage]? = some block :=
    ⟨_, List.getElem?_eq_getElem hin⟩
  obtain ⟨reader₁, hpinned, hopened⟩ := (h.pinPage
    (Nat.lt_of_le_of_lt (Nat.div_le_div_right (Nat.le_of_lt hoffset)) (by decide)) offset).1
      block hblock
  obtain ⟨fuel, hfuel⟩ : ∃ fuel, readableEnd - offset + more = fuel + 1 :=
    Nat.exists_eq_succ_of_ne_zero (by omega)
  have hrest := ((@Verified.readLoop_eq (Fin 256) segmentDataPerPage disk (by decide)
    hpaged.size_eq fuel (readableEnd % 2 ^ 32) more (by omega)).1 (Or.inr (by omega)))
  rw [hpaged.flatten_eq] at hrest
  obtain ⟨reader₂, hrun₂, -⟩ := (hopened.readLoop_follows fuel (Nat.mod_lt readableEnd (by decide))
    hmore).1 _ hrest
  -- the first round reads up to the end of the page
  have hfirst : slice (rel.dataOf block) (offset % segmentDataPerPage) (readableEnd - offset) =
      slice bytes offset (readableEnd - offset) := by
    have hdata : disk[offset / segmentDataPerPage]? = some (rel.dataOf block) := by
      rw [← h.holds.disk_eq, List.getElem?_map, hblock]
      rfl
    have hslice := slice_page hpaged.size_eq hdata (show offset % segmentDataPerPage +
      (readableEnd - offset) ≤ segmentDataPerPage by omega)
    rw [hdiv, hpaged.flatten_eq] at hslice
    exact hslice.symm
  have htoRead : min (readableEnd - offset + more) (segmentDataPerPage -
      offset % segmentDataPerPage) = readableEnd - offset := by omega
  have hwrap : (offset + (readableEnd - offset)) % 2 ^ 32 = readableEnd % 2 ^ 32 := by
    rw [Nat.add_sub_cancel' (Nat.le_of_lt hlt)]
  have hleft : fuel + 1 - (readableEnd - offset) = more := by omega
  refine ⟨reader₂, ?_⟩
  unfold tpSegmentRead
  rw [hfuel, readLoop, if_neg (Nat.succ_ne_zero fuel), ← hfuel]
  dsimp only
  rw [htoRead, hwrap, hfuel, hleft, bind_of_eq_ok hpinned]
  dsimp only
  rw [bind_of_eq_ok hrun₂, hfirst]
  rfl

end Reading

end PgTextsearch.Segment.Stream
