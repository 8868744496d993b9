import PgTextsearch.Segment.FileReader
import PgTextsearch.Segment.FileWriter
import PgTextsearch.Segment.StreamRead

/-!
# Reads of compressed blocks (`segment/scan.c`)

Of a compressed block, `load_block` reads as many bytes as a block may have at most, from the
posting offset that its skip entry has in 32 bits.  Near the end of the segment such a read
leaves the pages, although the block itself does not.

## Main results

* `readsInside_iff` — the reads stay inside of the pages exactly when every block has room
  behind its beginning, or all 32-bit offsets have pages.
-/

namespace PgTextsearch.Segment.File

open PgTextsearch.Postgres PgTextsearch.Verified

/-- With so many pages, every 32-bit offset has a page. -/
def addressedPages : Nat := 2 ^ 32 / segmentDataPerPage + 1

/-- The posting offset that a reader takes from the skip entry of a block. -/
def readPostingOffset (f : Parts) (g : Nat) (b : Block) : Nat :=
  (SkipRecord.ofBytes (Reads.storedSkip f g b).bytes).postingOffset

/-- A reader of the pages, wherever they are in the relation, can load the data of every block
that `block_count` counts. -/
def ReadsInside (f : Parts) (pages : List (List (Fin 256))) : Prop :=
  ∀ (rel : Stream.Relation) (reader : Stream.SegmentReader) (blocks : List Nat),
    Stream.Opened rel reader blocks pages →
    ∀ n (e : DictEntry) j b, f.entries[n]? = some e → j < e.blockCount → e.blocks[j]? = some b →
      ∃ r, Stream.tpSegmentRead rel reader (readPostingOffset f (Reads.blockIndex f n j) b)
        tpMaxCompressedBlockSize = .ok r

/-- Behind the beginning of every block that is loaded, the pages have as many bytes as a block may
have; or there are pages for every offset. -/
def Parts.BlocksHaveRoom (f : Parts) : Prop :=
  addressedPages ≤ f.numPages ∨
    ∀ n (e : DictEntry) j b, f.entries[n]? = some e → j < e.blockCount → e.blocks[j]? = some b →
      f.blockOffset (Reads.blockIndex f n j) + tpMaxCompressedBlockSize ≤
        f.numPages * segmentDataPerPage

/-- The offset is stored in 32 bits. -/
theorem readPostingOffset_eq (f : Parts) (g : Nat) (b : Block) :
    readPostingOffset f g b = f.blockOffset g % 2 ^ 32 := by
  unfold readPostingOffset SkipRecord.ofBytes SkipRecord.bytes
  have hfields := unpackStruct_packStruct (show ([4, 1, 2, 1, 4, 1, 1, 1, 1] : List Nat).length =
    [(Reads.storedSkip f g b).skip.lastDocId, (Reads.storedSkip f g b).skip.docCount,
      (Reads.storedSkip f g b).skip.blockMaxTf, (Reads.storedSkip f g b).skip.blockMaxNorm.val,
      (Reads.storedSkip f g b).postingOffset, (Reads.storedSkip f g b).flags,
      tenantModeByte (Reads.storedSkip f g b).skip.tenantMode,
      (Reads.storedSkip f g b).skip.tenantIdLow % 256,
      (Reads.storedSkip f g b).skip.tenantIdLow / 256].length from rfl) []
  rw [List.append_nil] at hfields
  rw [hfields]
  rfl

/-! ## Reads by offset -/

/-- The pages lie in some relation. -/
theorem exists_opened (pages : List (List (Fin 256))) :
    ∃ rel reader blocks, Stream.Opened rel reader blocks pages := by
  obtain ⟨rel, hrel⟩ : ∃ rel : Stream.Relation, rel =
      ⟨pages.map fun data => ⟨0, data⟩, [], 0, fun _ h => nomatch h⟩ := ⟨_, rfl⟩
  have hlen : rel.nblocks = pages.length := by
    rw [hrel]
    exact List.length_map _
  refine ⟨rel, ⟨{ initialHeader ⟨0, 0, 0, 0⟩ 0 with numPages := pages.length },
    List.range pages.length, rel.nblocks, uint32Max, none⟩, List.range pages.length, ?_⟩
  refine ⟨⟨?_, List.nodup_range, ?_, ?_⟩, rfl, List.length_range.symm, rfl, Or.inl rfl⟩
  · intro block hblock
    rw [hlen]
    exact List.mem_range.1 hblock
  · intro block _
    rw [hrel]
    exact List.not_mem_nil
  · apply List.ext_getElem?
    intro i
    rw [List.getElem?_map]
    by_cases hi : i < pages.length
    · rw [List.getElem?_range hi, List.getElem?_eq_getElem hi]
      show some (((rel.pages[i]?).map Stream.Page.data).getD []) = _
      rw [hrel, List.getElem?_map, List.getElem?_eq_getElem hi]
      rfl
    · rw [List.getElem?_eq_none (by rw [List.length_range]; omega),
        List.getElem?_eq_none (by omega)]
      rfl

section Reading

variable {f : Parts} {pages : List (List (Fin 256))} {bytes : List (Fin 256)}
variable (hpaged : Paged segmentDataPerPage pages bytes) (hlen : pages.length = f.numPages)
include hpaged hlen

/-- **A read of the maximal size** succeeds exactly when the pages have its bytes. -/
theorem read_iff {rel : Stream.Relation} {reader : Stream.SegmentReader} {blocks : List Nat}
    (h : Stream.Opened rel reader blocks pages) {offset : Nat} (hoffset : offset < 2 ^ 32) :
    (∃ r, Stream.tpSegmentRead rel reader offset tpMaxCompressedBlockSize = .ok r) ↔
      offset + tpMaxCompressedBlockSize ≤ f.numPages * segmentDataPerPage := by
  have hend : offset + tpMaxCompressedBlockSize ≤ Stream.readableEnd := by
    have hmax : 2 ^ 32 + tpMaxCompressedBlockSize ≤ Stream.readableEnd := by decide
    omega
  constructor
  · rintro ⟨r, hr⟩
    by_contra hshort
    obtain ⟨o, ho⟩ := readPages_error (by decide) hpaged.size_eq
      (show tpMaxCompressedBlockSize ≠ 0 by decide) (by rw [hlen]; exact Nat.not_le.1 hshort)
    obtain ⟨e, he⟩ := (h.readLoop_follows tpMaxCompressedBlockSize hoffset hend).2 o ho
    exact nomatch hr.symm.trans he
  · intro hroom
    obtain ⟨reader', hrun, -⟩ := h.read_eq hpaged hoffset hend (by
      rw [hpaged.length_eq, hlen]
      exact hroom)
    exact ⟨_, hrun⟩

/-- **Reads of compressed blocks** stay inside of the pages exactly when the blocks have room. -/
theorem readsInside_iff : ReadsInside f pages ↔ f.BlocksHaveRoom := by
  constructor
  · intro hinside
    by_contra hnot
    unfold Parts.BlocksHaveRoom at hnot
    push Not at hnot
    obtain ⟨hfew, n, e, j, b, he, hj, hb, hshort⟩ := hnot
    obtain ⟨rel, reader, blocks, hopened⟩ := exists_opened pages
    -- with few pages, the offset does not wrap
    have hoffset : f.blockOffset (Reads.blockIndex f n j) < 2 ^ 32 := by
      have hle := f.blockOffset_le (Reads.blockIndex f n j)
      have hsize := f.size_le
      have hskip : f.skipIndexOffset ≤ f.size := by
        unfold Parts.size Parts.tenantOffset Parts.ctidOffsetsOffset Parts.ctidPagesOffset
          Parts.fieldnormOffset
        omega
      have haddressed : f.numPages * segmentDataPerPage ≤
          2 ^ 32 / segmentDataPerPage * segmentDataPerPage :=
        Nat.mul_le_mul_right _ (Nat.le_of_lt_succ hfew)
      have hlast : 2 ^ 32 / segmentDataPerPage * segmentDataPerPage < 2 ^ 32 := by decide
      omega
    have hread := hinside rel reader blocks hopened n e j b he hj hb
    rw [readPostingOffset_eq, Nat.mod_eq_of_lt hoffset, read_iff hpaged hlen hopened hoffset]
      at hread
    omega
  · intro hroom rel reader blocks hopened n e j b he hj hb
    have hmod := Nat.mod_lt (f.blockOffset (Reads.blockIndex f n j)) (show 0 < 2 ^ 32 by decide)
    rw [readPostingOffset_eq, read_iff hpaged hlen hopened hmod]
    cases hroom with
    | inl hmany =>
        have hle := Nat.mul_le_mul_right segmentDataPerPage hmany
        have hmax : 2 ^ 32 + tpMaxCompressedBlockSize ≤ addressedPages * segmentDataPerPage := by
          decide
        omega
    | inr hall =>
        have hplace := hall n e j b he hj hb
        have hle := Nat.mod_le (f.blockOffset (Reads.blockIndex f n j)) (2 ^ 32)
        omega

end Reading

/-- **Compressed segments of a memtable**: loading blocks stays inside of the segment exactly when
the blocks have room. -/
theorem compressed_reads_inside_iff (hs : HashSeq) (qs : Qsort) (hasTenantData : Bool)
    {mt : Memtable CString} {f : Parts}
    (h : fileParts hs qs true hasTenantData mt = .ok (some f)) :
    (∀ env pages, tpWriteSegment hs qs true hasTenantData env mt = .ok (some pages) →
      ReadsInside f pages) ↔ f.BlocksHaveRoom := by
  have hwritten : ∀ env pages, tpWriteSegment hs qs true hasTenantData env mt = .ok (some pages) →
      (ReadsInside f pages ↔ f.BlocksHaveRoom) := by
    intro env pages hpages
    obtain ⟨pages', header, padding, hrun, hlen, -, hpaged⟩ :=
      tpWriteSegment_spec hs qs true hasTenantData env mt h
    cases hpages.symm.trans hrun
    exact readsInside_iff hpaged hlen
  constructor
  · intro hall
    obtain ⟨pages, -, -, hrun, -, -, -⟩ :=
      tpWriteSegment_spec hs qs true hasTenantData ⟨0, 0, 0, 0⟩ mt h
    exact (hwritten _ pages hrun).1 (hall _ pages hrun)
  · intro hroom env pages hpages
    exact (hwritten env pages hpages).2 hroom

/-! ## A document with long terms -/

theorem longTerm_nul_free (first : Fin 256) (hfirst : first ≠ 0) (n : Nat) :
    0 ∉ first :: List.replicate n 98 := by
  intro hmem
  cases List.mem_cons.1 hmem with
  | inl heq => exact hfirst heq.symm
  | inr hrest => exact absurd (List.eq_of_mem_replicate hrest) (by decide)

/-- A term of `n + 1` bytes. -/
def longTerm (first : Fin 256) (hfirst : first ≠ 0) (n : Nat) : CString where
  bytes := first :: List.replicate n 98
  nul_free := longTerm_nul_free first hfirst n

/-- The memtable with one document of four such terms. -/
def longTermMemtable (n : Nat) : Memtable CString where
  stringTable := (((AList.singleton (longTerm 97 (by decide) n) [⟨⟨0, 1⟩, 1, 0⟩]).insert
    (longTerm 98 (by decide) n) [⟨⟨0, 1⟩, 1, 0⟩]).insert
    (longTerm 99 (by decide) n) [⟨⟨0, 1⟩, 1, 0⟩]).insert
    (longTerm 100 (by decide) n) [⟨⟨0, 1⟩, 1, 0⟩]
  docLengths := AList.singleton ⟨0, 1⟩ ⟨4, 0⟩
  tenantStats := ∅
  totalPostings := 4

/-- Its segment. -/
def longTermParts (n : Nat) : Parts where
  terms := [longTerm 97 (by decide) n, longTerm 98 (by decide) n, longTerm 99 (by decide) n,
    longTerm 100 (by decide) n]
  entries := List.replicate 4 ⟨1, 1, [⟨⟨0, 1, 1, 4, .none, 0⟩, [⟨0, 1, 4⟩]⟩]⟩
  compress := true
  fieldnorms := [4]
  ctids := [⟨0, 1⟩]
  tenantSections := []

theorem fileParts_longTermMemtable (n : Nat) :
    fileParts insertionHashSeq insertionQsort true false (longTermMemtable n) =
      .ok (some (longTermParts n)) := rfl

/-- Where its posting blocks begin. -/
theorem postingsOffset_longTermParts (n : Nat) :
    (longTermParts n).postingsOffset = 208 + 4 * n := by
  have hterm : ∀ first hfirst, stringSize (longTerm first hfirst n) = 9 + n := by
    intro first hfirst
    show 4 + (first :: List.replicate n (98 : Fin 256)).length + 4 = 9 + n
    rw [List.length_cons, List.length_replicate]
    omega
  have hstrings : (longTermParts n).stringRecords.flatten.length = 36 + 4 * n := by
    rw [List.length_flatten, Parts.map_length_stringRecords]
    show [stringSize _, stringSize _, stringSize _, stringSize _].sum = _
    rw [hterm, hterm, hterm, hterm]
    simp only [List.sum_cons, List.sum_nil]
    omega
  unfold Parts.postingsOffset Parts.entriesOffset Parts.stringsOffset
  rw [hstrings, Parts.length_dictionarySection]
  show headerSize + (4 + 4 * 4) + (36 + 4 * n) + 4 * dictEntrySize = _
  unfold headerSize dictEntrySize
  omega

/-- Where its blocks begin, and where it ends. -/
theorem longTermParts_sizes (n : Nat) :
    (∀ i < 4, (longTermParts n).blockOffset i = 208 + 4 * n + 5 * i) ∧
      (longTermParts n).size = 299 + 4 * n := by
  have himages : ∀ i < 4, ((longTermParts n).blockImages.take i).flatten.length = 5 * i := by
    intro i hi
    have hconst : (longTermParts n).blockImages = (longTermParts 0).blockImages := rfl
    rw [hconst]
    revert i
    decide
  have hall : (longTermParts n).blockImages.flatten.length = 20 := by
    have hconst : (longTermParts n).blockImages = (longTermParts 0).blockImages := rfl
    rw [hconst]
    decide
  refine ⟨?_, ?_⟩
  · intro i hi
    rw [Parts.blockOffset, postingsOffset_longTermParts, himages i hi]
  · unfold Parts.size Parts.tenantOffset Parts.ctidOffsetsOffset Parts.ctidPagesOffset
      Parts.fieldnormOffset Parts.skipIndexOffset
    rw [postingsOffset_longTermParts, hall]
    show 208 + 4 * n + 20 + 4 * skipEntrySize + 1 + 1 * 4 + 1 * 2 + 0 = 299 + 4 * n
    unfold skipEntrySize
    omega

theorem longTermParts_block (n i : Nat) (hi : i < 4) :
    (longTermParts n).entries[i]? = some ⟨1, 1, [⟨⟨0, 1, 1, 4, .none, 0⟩, [⟨0, 1, 4⟩]⟩]⟩ ∧
      Reads.blockIndex (longTermParts n) i 0 = i := by
  have hentries : (longTermParts n).entries = (longTermParts 0).entries := rfl
  unfold Reads.blockIndex
  rw [hentries]
  revert i
  decide

/-- With terms of one byte, there is room. -/
theorem longTermParts_haveRoom : (longTermParts 0).BlocksHaveRoom := by
  refine Or.inr ?_
  intro i e j b he hj hb
  have hi : i < 4 := (List.getElem?_eq_some_iff.1 he).1
  obtain ⟨hentry, hindex⟩ := longTermParts_block 0 i hi
  cases he.symm.trans hentry
  cases Nat.lt_one_iff.1 hj
  obtain ⟨hoffsets, hsize⟩ := longTermParts_sizes 0
  rw [hindex, hoffsets i hi, Parts.numPages, hsize]
  unfold segmentDataPerPage tpMaxCompressedBlockSize
  omega

theorem compressed_reads_inside_iff_shortTerms :
    (longTermParts 0).BlocksHaveRoom ∧ ∀ env pages,
      tpWriteSegment insertionHashSeq insertionQsort true false env (longTermMemtable 0) =
        .ok (some pages) → ReadsInside (longTermParts 0) pages :=
  ⟨longTermParts_haveRoom, (compressed_reads_inside_iff insertionHashSeq insertionQsort false
    (fileParts_longTermMemtable 0)).2 longTermParts_haveRoom⟩

/-- A document of four terms of 1901 bytes: the segment has one page, the last block begins 345
bytes in front of the end of the page, and loading it raises an error. -/
theorem compressed_reads_leave : ∃ pages,
    tpWriteSegment insertionHashSeq insertionQsort true false ⟨0, 1, 4, 0⟩
        (longTermMemtable 1900) = .ok (some pages) ∧
      ¬ ReadsInside (longTermParts 1900) pages := by
  obtain ⟨pages, header, padding, hrun, hlen, -, hpaged⟩ :=
    tpWriteSegment_spec insertionHashSeq insertionQsort true false ⟨0, 1, 4, 0⟩
      (longTermMemtable 1900) (fileParts_longTermMemtable 1900)
  refine ⟨pages, hrun, fun hinside => ?_⟩
  obtain ⟨hoffsets, hsize⟩ := longTermParts_sizes 1900
  obtain ⟨hentry, hindex⟩ := longTermParts_block 1900 3 (by decide)
  cases (readsInside_iff hpaged hlen).1 hinside with
  | inl hmany =>
      rw [Parts.numPages, hsize] at hmany
      exact absurd hmany (by decide)
  | inr hall =>
      have hroom := hall 3 _ 0 _ hentry (by decide) rfl
      rw [hindex, hoffsets 3 (by decide), Parts.numPages, hsize] at hroom
      exact absurd hroom (by decide)

end PgTextsearch.Segment.File
