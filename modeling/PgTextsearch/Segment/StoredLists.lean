import PgTextsearch.Segment.FileFormat
import PgTextsearch.Segment.BlockWriter
import PgTextsearch.Segment.FileReader
import PgTextsearch.Segment.FileWriter
import PgTextsearch.Segment.Stored

/-!
# Posting lists on disk

The streaming pass of the three segment writers, with the widths of what they store: offsets
of the stream are `uint32`, and the number of blocks of a term is narrowed to `uint16`.  The
text of the pass is the same in all of them; they differ in how postings are converted.

## Main results

* `writeLists_spec` — what an accepted pass has stored.
* `write_complete_iff` — the stored lists are complete exactly when no list has more than
  65535 blocks and the skip index begins its last entry below byte 2^32.
-/

namespace PgTextsearch.Segment.StoredLists

open PgTextsearch.Postgres PgTextsearch.Verified PgTextsearch.Segment.File

/-! ## The stream -/

/-- The offset of a segment writer, a `uint32`, with the bytes written so far. -/
structure OffsetWriter where
  currentOffset : Nat
  written : List (Fin 256)
  deriving DecidableEq, Repr

/-- `tp_segment_writer_write`, as far as the offset goes. -/
def tpSegmentWriterWrite (w : OffsetWriter) (data : List (Fin 256)) : OffsetWriter :=
  ⟨(w.currentOffset + data.length) % 2 ^ 32, w.written ++ data⟩

/-- One call after the other. -/
def writeAll (w : OffsetWriter) (pieces : List (List (Fin 256))) : OffsetWriter :=
  pieces.foldl tpSegmentWriterWrite w

/-- What a segment writer raises before it has stored its lists. -/
inductive ListError where
  | segment (error : SegmentError)
  | invalidAllocSize (size : Nat)
  deriving DecidableEq, Repr

/-- `MaxAllocSize`. -/
def maxAllocSize : Nat := 0x3fffffff

/-- `palloc` of an array. -/
def palloc (size : Nat) : Except ListError Unit :=
  if size > maxAllocSize then .error (.invalidAllocSize size) else .ok ()

/-! ## The streaming pass -/

/-- The streaming pass: the writer, the skip entries of all terms so far in their array, and
what is known about the terms. -/
structure PassState where
  writer : OffsetWriter
  allSkipEntries : List SkipRecord
  skipEntriesCapacity : Nat
  termBlocks : List TermBlockInfo
  deriving DecidableEq, Repr

/-- The array of skip entries is doubled when it is full. -/
def growSkipEntries (count capacity : Nat) : Except ListError Nat :=
  if count ≥ capacity then do
    palloc (capacity * 2 * skipEntrySize)
    return capacity * 2
  else .ok capacity

/-- One round of the block loop, behind the statistics of the block. -/
def writeBlock (compress : Bool) (st : PassState) (b : Block) : Except ListError PassState := do
  let skip : SkipRecord := ⟨b.skip, st.writer.currentOffset, blockFlags compress⟩
  let writer := tpSegmentWriterWrite st.writer (blockImage compress b)
  let capacity ← growSkipEntries st.allSkipEntries.length st.skipEntriesCapacity
  return { st with
    writer := writer
    allSkipEntries := st.allSkipEntries ++ [skip]
    skipEntriesCapacity := capacity }

/-- The block loop. -/
def writeBlocks (compress : Bool) : List Block → PassState → Except ListError PassState
  | [], st => .ok st
  | b :: blocks, st => do
      let st ← writeBlock compress st b
      writeBlocks compress blocks st

/-- What a writer makes of the postings of one term: their number, and the blocks after
conversion and sorting. -/
structure Round where
  docCount : Nat
  entry : Except SegmentError DictEntry

/-- The dictionary entry of a round that raises nothing. -/
def Round.converted (round : Round) : DictEntry :=
  match round.entry with
  | .ok entry => entry
  | .error _ => ⟨0, 0, []⟩

/-- One round of the term loop. -/
def writeTerm (compress : Bool) (st : PassState) (round : Round) : Except ListError PassState := do
  palloc (round.docCount * blockPostingSize)
  match round.entry with
  | .error e => .error (.segment e)
  | .ok entry =>
      writeBlocks compress entry.blocks { st with
        termBlocks := st.termBlocks ++
          [⟨entry.blockCount, entry.docFreq, st.allSkipEntries.length⟩] }

/-- The term loop. -/
def writeTerms (compress : Bool) : List Round → PassState → Except ListError PassState
  | [], st => .ok st
  | round :: rounds, st => do
      let st ← writeTerm compress st round
      writeTerms compress rounds st

/-! ## Whole segments -/

/-- Everything in front of the postings: header, dictionary, string pool, and placeholders for the
dictionary entries. -/
def frontPieces (header : Header) (terms : List CString) : List (List (Fin 256)) :=
  [header.bytes, leBytes 4 terms.length,
      ((runningOffsets 0 (terms.map stringSize)).map (leBytes 4)).flatten] ++
    (terms.zipIdx.flatMap fun p =>
      [leBytes 4 p.1.bytes.length, p.1.bytes, leBytes 4 (p.2 * dictEntrySize)]) ++
    terms.map fun _ => DictRecord.bytes ⟨0, 0, 0⟩

/-- What is stored of the posting lists: the stream up to the skip index, the skip entries in it,
and the dictionary entries that are written over their placeholders afterwards. -/
structure Stored where
  stream : List (Fin 256)
  skipEntries : List SkipRecord
  dictEntries : List DictRecord
  deriving DecidableEq, Repr

/-- From the placeholder header to the skip index, with the dictionary entries. -/
def writeLists (compress : Bool) (header : Header) (terms : List CString) (rounds : List Round) :
    Except ListError Stored := do
  let w := writeAll ⟨0, []⟩ (frontPieces header terms)
  let st ← writeTerms compress rounds ⟨w, [], 1024, []⟩
  let skipIndexOffset := st.writer.currentOffset
  let w :=
    if st.allSkipEntries.length > 0 then
      tpSegmentWriterWrite st.writer (st.allSkipEntries.map SkipRecord.bytes).flatten
    else st.writer
  return {
    stream := w.written
    skipEntries := st.allSkipEntries
    dictEntries := st.termBlocks.map fun info =>
      ⟨(skipIndexOffset + info.skipEntryStart * skipEntrySize) % 2 ^ 32, info.blockCount,
        info.docFreq⟩ }

/-- A posting list of the memtable: `doc_freq`, and the postings. -/
structure MemtableList where
  docFreq : Nat
  entries : List PostingEntry
  deriving DecidableEq, Repr

/-- The posting lists a writer has collected, under their terms, and what it converts them with. -/
inductive Lists where
  | memtable (docmap : DocMapBuilder) (hasTenantData : Bool) (lists : List (CString × MemtableList))
  | merge (docmap : DocMapBuilder) (oldToNew : Nat → Nat → Nat)
      (lists : List (CString × List CollectedPosting))
  | parallel (docmap : DocMapBuilder) (hasTenantData : Bool)
      (lists : List (CString × List CollectedBufferPosting))

namespace Lists

def terms : Lists → List CString
  | .memtable _ _ lists => lists.map Prod.fst
  | .merge _ _ lists => lists.map Prod.fst
  | .parallel _ _ lists => lists.map Prod.fst

/-- The rounds of `tp_write_segment`, `write_merged_segment` and
`tp_merge_worker_buffers_to_segment`. -/
def rounds (qs : Qsort) : Lists → List Round
  | .memtable docmap hasTenantData lists => lists.map fun l =>
      ⟨l.2.entries.length, tpWriteSegmentTerm qs docmap hasTenantData l.2.docFreq l.2.entries⟩
  | .merge docmap oldToNew lists => lists.map fun l =>
      ⟨l.2.length, .ok (writeMergedSegmentTerm qs docmap oldToNew l.2)⟩
  | .parallel docmap hasTenantData lists => lists.map fun l =>
      ⟨l.2.length, tpMergeWorkerBuffersTerm qs docmap hasTenantData l.2⟩

/-- The lengths of the lists. -/
def docCounts : Lists → List Nat
  | .memtable _ _ lists => lists.map fun l => l.2.entries.length
  | .merge _ _ lists => lists.map fun l => l.2.length
  | .parallel _ _ lists => lists.map fun l => l.2.length

/-- Write the lists. -/
def write (qs : Qsort) (compress : Bool) (header : Header) (lists : Lists) :
    Except ListError Stored :=
  writeLists compress header lists.terms (lists.rounds qs)

/-- The lists as the format has them, with their real places in the stream. -/
def parts (qs : Qsort) (compress : Bool) (lists : Lists) : Parts where
  terms := lists.terms
  entries := (lists.rounds qs).map Round.converted
  compress := compress
  fieldnorms := []
  ctids := []
  tenantSections := []

end Lists

/-! ## Complete lists -/

/-- The reader of a dictionary entry comes by these blocks, one for each number below
`block_count`: their skip entries and their data lie where it looks for them. -/
structure Visits (stored : Stored) (compress : Bool) (entry : DictRecord)
    (blocks : List Block) : Prop where
  count_eq : entry.blockCount = blocks.length
  lies : ∀ j b, blocks[j]? = some b → ∃ skip : SkipRecord, skip.skip = b.skip ∧
    LiesAt stored.stream ((entry.skipIndexOffset + j * skipEntrySize) % 2 ^ 32) skip.bytes ∧
    LiesAt stored.stream skip.postingOffset (blockImage compress b)

/-- What is stored of one list is right: the number of its blocks, the place of every skip entry
and the place of every block. -/
structure ListComplete (f : Parts) (stored : Stored) (docCount i : Nat) (list : DictEntry)
    (entry : DictRecord) : Prop where
  blockCount_eq : entry.blockCount = (docCount + tpBlockSize - 1) / tpBlockSize
  skipOffset_eq : ∀ j < list.blocks.length, (entry.skipIndexOffset + j * skipEntrySize) % 2 ^ 32 =
    f.skipIndexOffset + Reads.blockIndex f i j * skipEntrySize
  postingOffset_eq : ∀ j < list.blocks.length, ∃ skip,
    stored.skipEntries[Reads.blockIndex f i j]? = some skip ∧
      skip.postingOffset = f.blockOffset (Reads.blockIndex f i j)
  visits : Visits stored f.compress entry list.blocks
  length_postings : list.postings.length = docCount

/-- No list is truncated. -/
def Complete (qs : Qsort) (compress : Bool) (lists : Lists) (stored : Stored) : Prop :=
  ∀ (i docCount : Nat) (list : DictEntry), lists.docCounts[i]? = some docCount →
    (lists.parts qs compress).entries[i]? = some list →
    ∃ entry, stored.dictEntries[i]? = some entry ∧
      ListComplete (lists.parts qs compress) stored docCount i list entry

/-! ## What the pass stores -/

/-- The offset is that of the stream, in 32 bits. -/
def OffsetWriter.Counts (w : OffsetWriter) : Prop := w.currentOffset = w.written.length % 2 ^ 32

theorem OffsetWriter.Counts.write {w : OffsetWriter} (h : w.Counts) (data : List (Fin 256)) :
    (tpSegmentWriterWrite w data).Counts := by
  unfold OffsetWriter.Counts at h ⊢
  rw [tpSegmentWriterWrite, List.length_append, h, Nat.mod_add_mod]

theorem writeAll_spec {w : OffsetWriter} (h : w.Counts) (pieces : List (List (Fin 256))) :
    (writeAll w pieces).Counts ∧ (writeAll w pieces).written = w.written ++ pieces.flatten := by
  induction pieces generalizing w with
  | nil =>
      rw [List.flatten_nil, List.append_nil]
      exact ⟨h, rfl⟩
  | cons data pieces ih =>
      obtain ⟨hcounts, hwritten⟩ := ih (h.write data)
      refine ⟨hcounts, ?_⟩
      show (writeAll (tpSegmentWriterWrite w data) pieces).written = _
      rw [hwritten, List.flatten_cons, ← List.append_assoc]
      rfl

/-- A skip entry with its offset in 32 bits. -/
def narrow (skip : SkipRecord) : SkipRecord :=
  { skip with postingOffset := skip.postingOffset % 2 ^ 32 }

/-- **One block**: its skip entry has the offset of its data, in 32 bits. -/
theorem writeBlock_spec {compress : Bool} {st st' : PassState} {b : Block}
    (h : writeBlock compress st b = .ok st') (hcounts : st.writer.Counts) :
    st'.writer.Counts ∧ st'.writer.written = st.writer.written ++ blockImage compress b ∧
      st'.allSkipEntries = st.allSkipEntries ++
        [narrow ⟨b.skip, st.writer.written.length, blockFlags compress⟩] ∧
      st'.termBlocks = st.termBlocks := by
  unfold writeBlock at h
  cases hgrow : growSkipEntries st.allSkipEntries.length st.skipEntriesCapacity with
  | error e =>
      rw [hgrow] at h
      exact nomatch h
  | ok capacity =>
      rw [hgrow] at h
      cases h
      refine ⟨hcounts.write _, rfl, ?_, rfl⟩
      show _ ++ [(⟨b.skip, st.writer.currentOffset, blockFlags compress⟩ : SkipRecord)] = _
      rw [show st.writer.currentOffset = _ from hcounts]
      rfl

/-- **The blocks of a term.** -/
theorem writeBlocks_spec {compress : Bool} {blocks : List Block} {st st' : PassState}
    (h : writeBlocks compress blocks st = .ok st') (hcounts : st.writer.Counts) :
    st'.writer.Counts ∧
      st'.writer.written = st.writer.written ++ (blocks.map (blockImage compress)).flatten ∧
      st'.allSkipEntries = st.allSkipEntries ++
        (skipsFrom compress st.writer.written.length blocks).map narrow ∧
      st'.termBlocks = st.termBlocks := by
  induction blocks generalizing st with
  | nil =>
      cases h
      rw [List.map_nil, List.flatten_nil, List.append_nil]
      exact ⟨hcounts, rfl, (List.append_nil _).symm, rfl⟩
  | cons b blocks ih =>
      obtain ⟨st₁, hblock, hrest⟩ := bind_eq_ok h
      obtain ⟨hcounts₁, hwritten₁, hskips₁, hterms₁⟩ := writeBlock_spec hblock hcounts
      obtain ⟨hcounts', hwritten, hskips, hterms⟩ := ih hrest hcounts₁
      refine ⟨hcounts', ?_, ?_, hterms.trans hterms₁⟩
      · rw [hwritten, hwritten₁, List.map_cons, List.flatten_cons, List.append_assoc]
      · rw [hskips, hskips₁, hwritten₁, List.length_append, List.append_assoc]
        rfl

theorem length_skipsFrom (compress : Bool) (offset : Nat) (blocks : List Block) :
    (skipsFrom compress offset blocks).length = blocks.length := by
  rw [skipsFrom, List.length_map, List.length_zip, length_runningOffsets, List.length_map,
    List.length_map, Nat.min_self]

/-- **One term** of an accepted pass was converted without error. -/
theorem writeTerm_spec {compress : Bool} {st st' : PassState} {round : Round}
    (h : writeTerm compress st round = .ok st') (hcounts : st.writer.Counts) :
    round.entry = .ok round.converted ∧ st'.writer.Counts ∧
      st'.writer.written =
        st.writer.written ++ (round.converted.blocks.map (blockImage compress)).flatten ∧
      st'.allSkipEntries = st.allSkipEntries ++
        (skipsFrom compress st.writer.written.length round.converted.blocks).map narrow ∧
      st'.termBlocks = st.termBlocks ++
        [⟨round.converted.blockCount, round.converted.docFreq, st.allSkipEntries.length⟩] := by
  obtain ⟨-, -, hrun⟩ := bind_eq_ok h
  unfold Round.converted
  cases hentry : round.entry with
  | error e =>
      rw [hentry] at hrun
      exact nomatch hrun
  | ok entry =>
      rw [hentry] at hrun
      exact ⟨rfl, writeBlocks_spec hrun hcounts⟩

/-- **The term loop** of an accepted pass. -/
theorem writeTerms_spec {compress : Bool} {rounds : List Round} {st st' : PassState}
    (h : writeTerms compress rounds st = .ok st') (hcounts : st.writer.Counts)
    {entries : List DictEntry} (hentries : entries = rounds.map Round.converted) :
    (∀ round ∈ rounds, round.entry = .ok round.converted) ∧ st'.writer.Counts ∧
      st'.writer.written = st.writer.written ++
        ((entries.flatMap DictEntry.blocks).map (blockImage compress)).flatten ∧
      st'.allSkipEntries = st.allSkipEntries ++
        (skipsFrom compress st.writer.written.length
          (entries.flatMap DictEntry.blocks)).map narrow ∧
      st'.termBlocks = st.termBlocks ++
        (entries.zip (runningOffsets st.allSkipEntries.length
          (entries.map fun e => e.blocks.length))).map
            fun p => ⟨p.1.blockCount, p.1.docFreq, p.2⟩ := by
  induction rounds generalizing st entries with
  | nil =>
      cases h
      subst hentries
      rw [List.map_nil, List.flatMap_nil, List.map_nil, List.flatten_nil, List.append_nil]
      exact ⟨fun round hround => (nomatch hround), hcounts, rfl, (List.append_nil _).symm,
        (List.append_nil _).symm⟩
  | cons round rounds ih =>
      obtain ⟨st₁, hterm, hrest⟩ := bind_eq_ok h
      obtain ⟨hok, hcounts₁, hwritten₁, hskips₁, hterms₁⟩ := writeTerm_spec hterm hcounts
      obtain ⟨hall, hcounts', hwritten, hskips, hterms⟩ := ih hrest hcounts₁ rfl
      subst hentries
      refine ⟨?_, hcounts', ?_, ?_, ?_⟩
      · intro r hr
        cases List.mem_cons.1 hr with
        | inl heq => exact heq ▸ hok
        | inr hmem => exact hall r hmem
      · rw [hwritten, hwritten₁, List.map_cons, List.flatMap_cons, List.map_append,
          List.flatten_append, List.append_assoc]
      · rw [hskips, hskips₁, hwritten₁, List.map_cons, List.flatMap_cons, skipsFrom_append,
          List.map_append, List.append_assoc, List.length_append]
      · rw [hterms, hterms₁, hskips₁, List.length_append, List.length_map, length_skipsFrom,
          List.append_assoc]
        rfl

theorem length_frontPieces (header : Header) {f : Parts}
    (hlen : f.entries.length = f.terms.length) :
    (frontPieces header f.terms).flatten.length = f.postingsOffset := by
  have hwidth :
    ∀ r ∈ f.terms.map fun _ => DictRecord.bytes ⟨0, 0, 0⟩, r.length = dictEntrySize := by
    intro r hr
    obtain ⟨t, -, rfl⟩ := List.mem_map.1 hr
    exact DictRecord.length_bytes _
  have hflatten : (frontPieces header f.terms).flatten = header.bytes ++ (f.dictionarySection ++
      (f.stringRecords.flatten ++ (f.terms.map fun _ => DictRecord.bytes ⟨0, 0, 0⟩).flatten)) := by
    rw [frontPieces, List.flatten_append, List.flatten_append, flatten_flatMap_pieces]
    simp only [List.flatten_cons, List.flatten_nil, List.append_nil, List.append_assoc,
      Parts.dictionarySection, Parts.stringRecords, stringRecord]
  rw [hflatten, List.length_append, List.length_append, List.length_append, Header.length_bytes,
    length_flatten_pages hwidth, List.length_map, ← hlen, ← Nat.add_assoc, ← Nat.add_assoc]
  rfl

/-- A dictionary entry with its offset in 32 bits. -/
def narrowEntry (entry : DictRecord) : DictRecord :=
  { entry with skipIndexOffset := entry.skipIndexOffset % 2 ^ 32 }

/-- Everything lies in its place, and the offsets of these places are kept in 32 bits. -/
structure StoredAs (f : Parts) (stored : Stored) : Prop where
  postings : LiesAt stored.stream f.postingsOffset f.blockImages.flatten
  skips : LiesAt stored.stream f.skipIndexOffset (stored.skipEntries.map SkipRecord.bytes).flatten
  skipEntries_eq : stored.skipEntries = f.skipRecords.map narrow
  dictEntries_eq : stored.dictEntries = f.dictRecords.map narrowEntry

/-- **What an accepted pass has stored.** -/
theorem writeLists_spec {compress : Bool} {header : Header} {terms : List CString}
    {rounds : List Round} {stored : Stored}
    (h : writeLists compress header terms rounds = .ok stored) {f : Parts}
    (hterms : f.terms = terms) (hentries : f.entries = rounds.map Round.converted)
    (hcompress : f.compress = compress) (hlen : rounds.length = terms.length) :
    (∀ round ∈ rounds, round.entry = .ok round.converted) ∧ StoredAs f stored := by
  subst hterms
  have hlen' : f.entries.length = f.terms.length := by rw [hentries, List.length_map, hlen]
  obtain ⟨hcounts₀, hwritten₀⟩ := @writeAll_spec ⟨0, []⟩ rfl (frontPieces header f.terms)
  have hfront := length_frontPieces header hlen'
  obtain ⟨w, hw⟩ : ∃ w, w = writeAll ⟨0, []⟩ (frontPieces header f.terms) := ⟨_, rfl⟩
  rw [← hw] at hcounts₀ hwritten₀
  rw [List.nil_append] at hwritten₀
  obtain ⟨st, hpass, hrest⟩ := bind_eq_ok h
  rw [← hw] at hpass
  obtain ⟨hall, hcounts, hwritten, hskips, hinfos⟩ :=
    writeTerms_spec hpass
      (show (⟨w, [], 1024, []⟩ : PassState).writer.Counts from hcounts₀) hentries
  dsimp only at hwritten hskips hinfos
  rw [hwritten₀] at hwritten hskips
  rw [hfront, List.nil_append, ← hcompress] at hskips
  rw [← hcompress] at hwritten
  have hskipOffset : st.writer.currentOffset = f.skipIndexOffset % 2 ^ 32 := by
    have hoffset : st.writer.currentOffset = st.writer.written.length % 2 ^ 32 := hcounts
    rw [hoffset, hwritten, List.length_append, hfront]
    rfl
  have hstream : stored.stream = (frontPieces header f.terms).flatten ++ f.blockImages.flatten ++
      (stored.skipEntries.map SkipRecord.bytes).flatten ∧
        stored.skipEntries = st.allSkipEntries := by
    cases hrest
    refine ⟨?_, rfl⟩
    split
    case isTrue => exact congrArg (· ++ (st.allSkipEntries.map SkipRecord.bytes).flatten) hwritten
    case isFalse hnone =>
      have hnil := List.length_eq_zero_iff.1 (Nat.eq_zero_of_not_pos hnone)
      show st.writer.written = _
      dsimp only
      rw [hnil, List.map_nil, List.flatten_nil, List.append_nil]
      exact hwritten
  refine ⟨hall, ⟨_, _, hstream.1, hfront⟩,
    ⟨(frontPieces header f.terms).flatten ++ f.blockImages.flatten, [], ?_, ?_⟩, 
    hstream.2.trans hskips, ?_⟩
  · rw [List.append_nil]
    exact hstream.1
  · rw [List.length_append, hfront]
    rfl
  · cases hrest
    dsimp only
    rw [hinfos, List.nil_append, Parts.dictRecords, List.map_map, List.map_map]
    apply List.map_congr_left
    intro p _
    show DictRecord.mk ((st.writer.currentOffset + p.2 * skipEntrySize) % 2 ^ 32) _ _ = _
    rw [hskipOffset, Nat.mod_add_mod]
    rfl

/-! ## Rounds -/

/-- A converted round has all postings of its list, in blocks. -/
theorem Lists.round_counts (qs : Qsort) (lists : Lists) :
    ∀ round ∈ lists.rounds qs, round.entry = .ok round.converted →
      round.converted.blocks.length = (round.docCount + tpBlockSize - 1) / tpBlockSize ∧
        round.converted.blockCount =
          (round.docCount + tpBlockSize - 1) / tpBlockSize % 65536 ∧
        round.converted.postings.length = round.docCount := by
  have hmapM : ∀ {α : Type} {f : α → Except SegmentError BlockPosting} {xs : List α}
      {tenantIds : Option (List Nat)} {docFreq : Nat} {e : DictEntry},
      (do
        let ps ← xs.mapM f
        return writeTermBlocks qs tenantIds docFreq ps : Except SegmentError DictEntry) = .ok e →
      e.blocks.length = (xs.length + tpBlockSize - 1) / tpBlockSize ∧
        e.blockCount = (xs.length + tpBlockSize - 1) / tpBlockSize % 65536 ∧
        e.postings.length = xs.length := by
    intro α f xs tenantIds docFreq e h
    obtain ⟨ps, hps, hrun⟩ := bind_eq_ok h
    cases hrun
    rw [(forall₂_of_mapM_ok hps).length_eq]
    exact writeTermBlocks_counts qs tenantIds docFreq ps
  intro round hround hok
  cases lists with
  | memtable docmap hasTenantData lists =>
      obtain ⟨l, -, rfl⟩ := List.mem_map.1 hround
      exact hmapM hok
  | merge docmap oldToNew lists =>
      obtain ⟨l, -, rfl⟩ := List.mem_map.1 hround
      have hcounts := writeTermBlocks_counts qs docmap.tenantIds l.2.length
        (l.2.map fun p => ⟨oldToNew p.sourceIdx p.oldDocId, p.frequency, p.fieldnorm⟩)
      rw [List.length_map] at hcounts
      exact hcounts
  | parallel docmap hasTenantData lists =>
      obtain ⟨l, -, rfl⟩ := List.mem_map.1 hround
      exact hmapM hok

theorem Lists.docCounts_eq (qs : Qsort) (lists : Lists) :
    lists.docCounts = (lists.rounds qs).map Round.docCount := by
  cases lists <;> rw [rounds, List.map_map] <;> rfl

theorem Lists.length_rounds (qs : Qsort) (lists : Lists) :
    (lists.rounds qs).length = lists.terms.length := by
  cases lists <;> exact (List.length_map _).trans (List.length_map _).symm

/-! ## Completeness -/

theorem exists_blockIndex {entries : List DictEntry} {k : Nat}
    (hk : k < (entries.flatMap DictEntry.blocks).length) :
    ∃ (i j : Nat) (e : DictEntry), entries[i]? = some e ∧ j < e.blocks.length ∧
      k = ((entries.map fun e => e.blocks.length).take i).sum + j := by
  induction entries generalizing k with
  | nil => exact absurd hk (Nat.not_lt_zero k)
  | cons e entries ih =>
      rw [List.flatMap_cons, List.length_append] at hk
      by_cases hfirst : k < e.blocks.length
      · exact ⟨0, k, e, rfl, hfirst, (Nat.zero_add k).symm⟩
      · obtain ⟨i, j, e', he', hj, heq⟩ := ih (show k - e.blocks.length < _ by omega)
        refine ⟨i + 1, j, e', he', hj, ?_⟩
        rw [List.map_cons, List.take_succ_cons, List.sum_cons]
        omega

/-- Where the reader of a dictionary entry looks for a skip entry. -/
theorem skipOffset_eq (f : Parts) (i j : Nat) :
    ((f.skipIndexOffset + Reads.blockIndex f i 0 * skipEntrySize) % 2 ^ 32 + j * skipEntrySize) %
      2 ^ 32 = (f.skipIndexOffset + Reads.blockIndex f i j * skipEntrySize) % 2 ^ 32 := by
  rw [Nat.mod_add_mod, Nat.add_assoc, ← Nat.add_mul]
  rfl

namespace StoredAs

variable {f : Parts} {stored : Stored} (h : StoredAs f stored)
include h

theorem dictEntry {i : Nat} {list : DictEntry} (hlist : f.entries[i]? = some list) :
    stored.dictEntries[i]? = some ⟨(f.skipIndexOffset + Reads.blockIndex f i 0 * skipEntrySize) %
      2 ^ 32, list.blockCount, list.docFreq⟩ := by
  have hi := (List.getElem?_eq_some_iff.1 hlist).1
  rw [h.dictEntries_eq, List.getElem?_map, Parts.dictRecords, List.getElem?_map,
    List.zip_eq_zipWith,
    List.getElem?_zipWith, hlist, Parts.skipStarts,
    getElem?_runningOffsets 0 (by rwa [List.length_map]), Nat.zero_add]
  rfl

theorem skipEntry {k : Nat} {b : Block} (hb : f.blocks[k]? = some b) :
    stored.skipEntries[k]? =
      some ⟨b.skip, f.blockOffset k % 2 ^ 32, blockFlags f.compress⟩ := by
  have hk := (List.getElem?_eq_some_iff.1 hb).1
  rw [h.skipEntries_eq, List.getElem?_map, Parts.skipRecords, List.getElem?_map,
    List.zip_eq_zipWith, List.getElem?_zipWith, hb, Parts.blockOffsets,
    getElem?_runningOffsets _ (by rwa [List.length_map, Parts.blockImages, List.length_map]),
    ← List.map_take, ← List.length_flatten]
  rfl

/-- The data of a block lie at its real place. -/
theorem liesAt_block {k : Nat} {b : Block} (hb : f.blocks[k]? = some b) :
    LiesAt stored.stream (f.blockOffset k) (blockImage f.compress b) := by
  refine h.postings.record ?_
  rw [Parts.blockImages, List.getElem?_map, hb]
  rfl

/-- And so does its skip entry. -/
theorem liesAt_skip {k : Nat} {skip : SkipRecord} (hskip : stored.skipEntries[k]? = some skip) :
    LiesAt stored.stream (f.skipIndexOffset + k * skipEntrySize) skip.bytes := by
  have hwidth : ∀ r ∈ stored.skipEntries.map SkipRecord.bytes, r.length = skipEntrySize := by
    intro r hr
    obtain ⟨s, -, rfl⟩ := List.mem_map.1 hr
    exact s.length_bytes
  refine h.skips.fixedRecord hwidth ?_
  rw [List.getElem?_map, hskip]
  rfl

/-- **A complete list**: enough bits for the number of its blocks, and for the places of their skip
entries. -/
theorem listComplete {i docCount : Nat} {list : DictEntry} (hlist : f.entries[i]? = some list)
    (hblocks : list.blocks.length = (docCount + tpBlockSize - 1) / tpBlockSize)
    (hcount : list.blockCount = (docCount + tpBlockSize - 1) / tpBlockSize % 65536)
    (hpostings : list.postings.length = docCount) (hle : docCount ≤ 65535 * tpBlockSize)
    (hskips : ∀ k < f.blocks.length, f.skipIndexOffset + k * skipEntrySize < 2 ^ 32) :
    ListComplete f stored docCount i list
      ⟨(f.skipIndexOffset + Reads.blockIndex f i 0 * skipEntrySize) % 2 ^ 32, list.blockCount,
        list.docFreq⟩ := by
  have hnum : list.blockCount = list.blocks.length := by
    rw [hcount, hblocks]
    apply Nat.mod_eq_of_lt
    unfold tpBlockSize at hle ⊢
    omega
  have hblock : ∀ j b, list.blocks[j]? = some b → f.blocks[Reads.blockIndex f i j]? = some b :=
    fun j b hb => Reads.block_of_entry hlist hb
  have hplace : ∀ k < f.blocks.length, f.skipIndexOffset + k * skipEntrySize < 2 ^ 32 ∧
      f.blockOffset k < 2 ^ 32 := by
    intro k hk
    have hoffset := f.blockOffset_le k
    have hskip := hskips k hk
    exact ⟨hskip, by omega⟩
  have hskipOffset : ∀ j < list.blocks.length,
      ((f.skipIndexOffset + Reads.blockIndex f i 0 * skipEntrySize) % 2 ^ 32 +
        j * skipEntrySize) % 2 ^ 32 =
          f.skipIndexOffset + Reads.blockIndex f i j * skipEntrySize := by
    intro j hj
    have hk := (List.getElem?_eq_some_iff.1 (hblock j _ (List.getElem?_eq_getElem hj))).1
    rw [skipOffset_eq, Nat.mod_eq_of_lt (hplace _ hk).1]
  refine ⟨hnum.trans hblocks, hskipOffset, ?_, ⟨hnum, ?_⟩, hpostings⟩
  · intro j hj
    have hb := hblock j _ (List.getElem?_eq_getElem hj)
    exact ⟨_, h.skipEntry hb,
      Nat.mod_eq_of_lt (hplace _ (List.getElem?_eq_some_iff.1 hb).1).2⟩
  · intro j b hj
    have hb := hblock j b hj
    have hskip := h.skipEntry hb
    refine ⟨⟨b.skip, f.blockOffset (Reads.blockIndex f i j) % 2 ^ 32, blockFlags f.compress⟩,
      rfl, ?_, ?_⟩
    · rw [hskipOffset j (List.getElem?_eq_some_iff.1 hj).1]
      exact h.liesAt_skip hskip
    · rw [Nat.mod_eq_of_lt (hplace _ (List.getElem?_eq_some_iff.1 hb).1).2]
      exact h.liesAt_block hb

end StoredAs

/-- The widths are enough: 16 bits for the number of blocks of every list, and 32 bits for the place
of every skip entry. -/
structure Lists.FitsWidths (qs : Qsort) (compress : Bool) (lists : Lists) : Prop where
  blocks : ∀ n ∈ lists.docCounts, n ≤ 65535 * tpBlockSize
  skips : ∀ k < (lists.parts qs compress).blocks.length,
    (lists.parts qs compress).skipIndexOffset + k * skipEntrySize < 2 ^ 32

section Complete

variable {qs : Qsort} {compress : Bool} {header : Header} {lists : Lists} {stored : Stored}
variable (h : lists.write qs compress header = .ok stored)
include h

theorem Lists.write_spec : (∀ round ∈ lists.rounds qs, round.entry = .ok round.converted) ∧
    StoredAs (lists.parts qs compress) stored :=
  writeLists_spec h rfl rfl rfl (lists.length_rounds qs)

/-- The list of a term: its length, its blocks, and their stored number. -/
theorem Lists.list_spec {i : Nat} {list : DictEntry}
    (hlist : (lists.parts qs compress).entries[i]? = some list) :
    ∃ docCount, lists.docCounts[i]? = some docCount ∧
      list.blocks.length = (docCount + tpBlockSize - 1) / tpBlockSize ∧
      list.blockCount = (docCount + tpBlockSize - 1) / tpBlockSize % 65536 ∧
      list.postings.length = docCount := by
  have hget : ((lists.rounds qs).map Round.converted)[i]? = some list := hlist
  rw [List.getElem?_map] at hget
  obtain ⟨round, hround, rfl⟩ := Option.map_eq_some_iff.1 hget
  have hmem := List.mem_of_getElem? hround
  refine ⟨round.docCount, ?_, lists.round_counts qs round hmem ((write_spec h).1 round hmem)⟩
  rw [lists.docCounts_eq qs, List.getElem?_map, hround]
  rfl

/-- What completeness says about a list, in the numbers that are stored for it. -/
theorem Complete.list (hcomplete : Complete qs compress lists stored) {i : Nat} {list : DictEntry}
    (hlist : (lists.parts qs compress).entries[i]? = some list) :
    ∃ docCount, lists.docCounts[i]? = some docCount ∧
      list.blockCount = (docCount + tpBlockSize - 1) / tpBlockSize % 65536 ∧
      ListComplete (lists.parts qs compress) stored docCount i list
        ⟨((lists.parts qs compress).skipIndexOffset +
          Reads.blockIndex (lists.parts qs compress) i 0 * skipEntrySize) % 2 ^ 32,
          list.blockCount, list.docFreq⟩ := by
  obtain ⟨docCount, hcount, -, hnum, -⟩ := Lists.list_spec h hlist
  obtain ⟨entry, hentry, hall⟩ := hcomplete i docCount list hcount hlist
  cases hentry.symm.trans ((Lists.write_spec h).2.dictEntry hlist)
  exact ⟨docCount, hcount, hnum, hall⟩

theorem Complete.docCount_le (hcomplete : Complete qs compress lists stored) :
    ∀ n ∈ lists.docCounts, n ≤ 65535 * tpBlockSize := by
  intro n hn
  obtain ⟨i, hi⟩ := List.mem_iff_getElem?.1 hn
  have hlt : i < (lists.parts qs compress).entries.length := by
    have hlt := (List.getElem?_eq_some_iff.1 hi).1
    rw [lists.docCounts_eq qs, List.length_map] at hlt
    exact Nat.lt_of_lt_of_eq hlt (List.length_map _).symm
  obtain ⟨docCount, hcount, hnum, hall⟩ := hcomplete.list h (List.getElem?_eq_getElem hlt)
  cases hcount.symm.trans hi
  -- the stored number is below 2^16
  have hblocks := hall.blockCount_eq
  dsimp only at hblocks
  rw [hnum] at hblocks
  have hmod := Nat.mod_lt ((n + tpBlockSize - 1) / tpBlockSize) (show 0 < 65536 by decide)
  unfold tpBlockSize at hblocks hmod ⊢
  omega

theorem Complete.skips_lt (hcomplete : Complete qs compress lists stored) :
    ∀ k < (lists.parts qs compress).blocks.length,
      (lists.parts qs compress).skipIndexOffset + k * skipEntrySize < 2 ^ 32 := by
  intro k hk
  obtain ⟨i, j, list, he, hj, rfl⟩ := exists_blockIndex hk
  obtain ⟨docCount, -, -, hall⟩ := hcomplete.list h he
  have hplace := hall.skipOffset_eq j hj
  have hmod := Nat.mod_lt (((lists.parts qs compress).skipIndexOffset +
    Reads.blockIndex (lists.parts qs compress) i 0 * skipEntrySize) % 2 ^ 32 +
      j * skipEntrySize) (show 0 < 2 ^ 32 by decide)
  rw [hplace] at hmod
  exact hmod

/-- **Posting lists that are not truncated**: what an accepted writer has stored is complete exactly
when the widths are enough. -/
theorem write_complete_iff : Complete qs compress lists stored ↔ lists.FitsWidths qs compress := by
  obtain ⟨-, hstored⟩ := Lists.write_spec h
  constructor
  · intro hcomplete
    exact ⟨hcomplete.docCount_le h, hcomplete.skips_lt h⟩
  · intro hfits i docCount list hcount hlist
    obtain ⟨docCount', hcount', hblocks, hnum, hpostings⟩ := Lists.list_spec h hlist
    cases hcount'.symm.trans hcount
    exact ⟨_, hstored.dictEntry hlist, hstored.listComplete hlist hblocks hnum hpostings
      (hfits.blocks docCount (List.mem_of_getElem? hcount)) hfits.skips⟩

end Complete

/-! ## Accepted lists -/

theorem writeBlocks_ok (compress : Bool) (blocks : List Block) {st : PassState}
    (hroom : (st.allSkipEntries.length + blocks.length) * (2 * skipEntrySize) ≤ maxAllocSize) :
    ∃ st', writeBlocks compress blocks st = .ok st' ∧
      st'.allSkipEntries.length = st.allSkipEntries.length + blocks.length := by
  induction blocks generalizing st with
  | nil => exact ⟨st, rfl, rfl⟩
  | cons b blocks ih =>
      rw [List.length_cons] at hroom
      obtain ⟨capacity, hgrow⟩ : ∃ capacity,
          growSkipEntries st.allSkipEntries.length st.skipEntriesCapacity = .ok capacity := by
        unfold growSkipEntries
        split
        case isTrue hfull =>
          have hsize : ¬ st.skipEntriesCapacity * 2 * skipEntrySize > maxAllocSize := by
            unfold skipEntrySize at hroom ⊢
            omega
          rw [palloc, if_neg hsize]
          exact ⟨_, rfl⟩
        case isFalse => exact ⟨_, rfl⟩
      have hblock : writeBlock compress st b = .ok
          ⟨tpSegmentWriterWrite st.writer (blockImage compress b), st.allSkipEntries ++
            [⟨b.skip, st.writer.currentOffset, blockFlags compress⟩], capacity, st.termBlocks⟩ := by
        rw [writeBlock, bind_of_eq_ok hgrow]
        rfl
      obtain ⟨st', hrest, hlen⟩ := @ih ⟨tpSegmentWriterWrite st.writer (blockImage compress b),
          st.allSkipEntries ++ [⟨b.skip, st.writer.currentOffset, blockFlags compress⟩], capacity,
          st.termBlocks⟩ (by
        rw [List.length_append, List.length_singleton, Nat.add_assoc, Nat.add_comm 1]
        exact hroom)
      refine ⟨st', ?_, ?_⟩
      · rw [writeBlocks, bind_of_eq_ok hblock]
        exact hrest
      · rw [hlen, List.length_append, List.length_singleton, List.length_cons]
        omega

/-- **Accepted lists**: conversion raises nothing, and the arrays can be allocated. -/
theorem writeTerms_ok (compress : Bool) (rounds : List Round) {st : PassState}
    (hok : ∀ round ∈ rounds, round.entry = .ok round.converted)
    (halloc : ∀ round ∈ rounds, round.docCount * blockPostingSize ≤ maxAllocSize)
    (hroom : (st.allSkipEntries.length +
      (rounds.flatMap fun round => round.converted.blocks).length) * (2 * skipEntrySize) ≤
        maxAllocSize) :
    ∃ st', writeTerms compress rounds st = .ok st' := by
  induction rounds generalizing st with
  | nil => exact ⟨st, rfl⟩
  | cons round rounds ih =>
      rw [List.flatMap_cons, List.length_append] at hroom
      obtain ⟨st₁, hblocks, hlen⟩ := @writeBlocks_ok compress round.converted.blocks { st with
        termBlocks := st.termBlocks ++ [⟨round.converted.blockCount, round.converted.docFreq,
          st.allSkipEntries.length⟩] } (by
        dsimp only
        unfold skipEntrySize at hroom ⊢
        omega)
      have hterm : writeTerm compress st round = .ok st₁ := by
        have hsize := Nat.not_lt.2 (halloc round List.mem_cons_self)
        rw [writeTerm, palloc, if_neg hsize, hok round List.mem_cons_self]
        exact hblocks
      obtain ⟨st', hrest⟩ := @ih st₁ (fun r hr => hok r (List.mem_cons_of_mem _ hr))
        (fun r hr => halloc r (List.mem_cons_of_mem _ hr)) (by
          rw [hlen]
          dsimp only
          unfold skipEntrySize at hroom ⊢
          omega)
      refine ⟨st', ?_⟩
      rw [writeTerms, bind_of_eq_ok hterm]
      exact hrest

/-- Segments whose lists are accepted are written. -/
theorem Lists.write_ok (qs : Qsort) (compress : Bool) (header : Header) {lists : Lists}
    (hok : ∀ round ∈ lists.rounds qs, round.entry = .ok round.converted)
    (halloc : ∀ n ∈ lists.docCounts, n * blockPostingSize ≤ maxAllocSize)
    (hroom : (lists.parts qs compress).blocks.length * (2 * skipEntrySize) ≤ maxAllocSize) :
    ∃ stored, lists.write qs compress header = .ok stored := by
  obtain ⟨st, hst⟩ := @writeTerms_ok compress (lists.rounds qs)
    ⟨writeAll ⟨0, []⟩ (frontPieces header lists.terms), [], 1024, []⟩ hok (by
      intro round hround
      apply halloc
      rw [lists.docCounts_eq qs]
      exact List.mem_map_of_mem hround) (by
      rw [List.length_nil, Nat.zero_add, ← List.flatMap_map]
      exact hroom)
  unfold write writeLists
  dsimp only
  rw [bind_of_eq_ok hst]
  exact ⟨_, rfl⟩

/-- A merged list of a term that is once in each of `n` documents. -/
def mergedList (n : Nat) : Lists :=
  .merge { tpDocmapCreate with
      numDocs := n
      ctids := (List.range n).map fun i => ⟨i, 1⟩
      fieldnorms := List.replicate n 1 }
    (fun _ oldDocId => oldDocId)
    [(⟨[97], nul_free_a⟩, (List.range n).map fun i => ⟨⟨i, 1⟩, 0, i, 1, 1, 0⟩)]

theorem mergedList_written (qs : Qsort) (compress : Bool) (header : Header) {n : Nat}
    (hn : n ≤ 100000000) :
    (∃ stored, (mergedList n).write qs compress header = .ok stored) ∧
      (mergedList n).docCounts = [n] := by
  have hcounts : (mergedList n).docCounts = [n] := by
    show [((List.range n).map _).length] = [n]
    rw [List.length_map, List.length_range]
  have hok : ∀ round ∈ (mergedList n).rounds qs, round.entry = .ok round.converted := by
    intro round hround
    cases List.mem_singleton.1 hround
    rfl
  refine ⟨Lists.write_ok qs compress header hok ?_ ?_, hcounts⟩
  · intro m hm
    rw [hcounts, List.mem_singleton] at hm
    unfold blockPostingSize maxAllocSize
    omega
  · obtain ⟨round, hrounds⟩ : ∃ round, (mergedList n).rounds qs = [round] := ⟨_, rfl⟩
    have hdocs : [n] = [round.docCount] := by
      rw [← hcounts, (mergedList n).docCounts_eq qs, hrounds]
      rfl
    have hblocks := ((mergedList n).round_counts qs round (by
      rw [hrounds]
      exact List.mem_cons_self) (hok round (by
        rw [hrounds]
        exact List.mem_cons_self))).1
    have hparts : ((mergedList n).parts qs compress).blocks = round.converted.blocks := by
      show (((mergedList n).rounds qs).map Round.converted).flatMap DictEntry.blocks = _
      rw [hrounds, List.map_singleton, List.flatMap_singleton]
    rw [hparts, hblocks, ← (List.cons.inj hdocs).1]
    unfold tpBlockSize skipEntrySize maxAllocSize
    omega

/-- A list of three postings is complete. -/
theorem write_complete_iff_mergedList : ∃ stored,
    (mergedList 3).write insertionQsort true (initialHeader ⟨0, 3, 3, 0⟩ 1) = .ok stored ∧
      Complete insertionQsort true (mergedList 3) stored :=
  ⟨_, rfl, (write_complete_iff rfl).2 ⟨by decide, by decide⟩⟩

/-- With 8388481 postings, a list of 65536 blocks is accepted, and stored with none. -/
theorem write_not_complete : ∃ stored,
    (mergedList 8388481).write insertionQsort true (initialHeader ⟨0, 8388481, 8388481, 0⟩ 1) =
        .ok stored ∧
      ¬ Complete insertionQsort true (mergedList 8388481) stored := by
  obtain ⟨⟨stored, hstored⟩, hcounts⟩ := mergedList_written insertionQsort true
    (initialHeader ⟨0, 8388481, 8388481, 0⟩ 1) (show 8388481 ≤ 100000000 by decide)
  refine ⟨stored, hstored, fun hcomplete => ?_⟩
  have hle := hcomplete.docCount_le hstored 8388481 (by
    rw [hcounts]
    exact List.mem_cons_self)
  exact absurd hle (by decide)

end PgTextsearch.Segment.StoredLists
