import Mathlib.Data.List.Basic
import Mathlib.Data.List.Pairwise
import Mathlib.Data.List.TakeWhile
import PgTextsearch.Segment.Format
import PgTextsearch.Verified.BinarySearch

/-!
# Posting iterator (`segment/scan.c`)

An iterator walks one term's blocks through a cached block and two indices.  Its
meaning is the list of postings still to come (`PostingIterator.rem`); every
operation is specified by what it does to that list.

## Main results

* `PostingIterator.Positioned` — the cached block is the current block, and the
  index points into it.
* `currentDocId_eq` — the current document id is the head of the rest.
* `Positioned.stepBlock` — leaving a block continues with the next one.
* `Loaded.next_of_lt`, `Loaded.next_of_end` — sequential iteration inside a block
  and at its end.
* `Loaded.next_rem` — one step of the iteration, wherever it stands.
-/

namespace PgTextsearch.Segment

open PgTextsearch.Postgres PgTextsearch.Verified

/-! ## Segments as readers see them -/

/-- `TpSegmentReader`: the parts of an open segment that queries use.  The
dictionary is the sorted string table; lookups in it are exact. -/
structure SegmentReader (Term : Type) where
  rootBlock : Nat
  dictionary : List (Term × DictEntry)
  numDocs : Nat
  ctids : List ItemPointer
  tenantIds : Option (List Nat)

/-- The dictionary entry of a term. -/
def SegmentReader.findTerm {Term : Type} [DecidableEq Term] (reader : SegmentReader Term)
    (term : Term) : Option DictEntry :=
  (reader.dictionary.find? (fun e => e.1 = term)).map (·.2)

/-- `tp_segment_get_tenant_id`. -/
def tpSegmentGetTenantId {Term : Type} (reader : SegmentReader Term) (docId : Nat) : Nat :=
  match reader.tenantIds with
  | none => 0
  | some tids => if docId ≥ reader.numDocs then 0 else tids.getD docId 0

/-- `tp_segment_lookup_ctid`. -/
def tpSegmentLookupCtid {Term : Type} (reader : SegmentReader Term) (docId : Nat) :
    ItemPointer :=
  reader.ctids.getD docId ItemPointer.invalid

/-- A dictionary entry as a correct writer leaves it: the stored counts are the
real ones, no block is empty, document ids strictly increase over the whole
list, each skip entry carries the last id of its block, and no id is the
sentinel. -/
structure DictEntry.WellFormed (e : DictEntry) : Prop where
  blockCount_eq : e.blockCount = e.blocks.length
  block_ne_nil : ∀ blk ∈ e.blocks, blk.postings ≠ []
  docCount_eq : ∀ blk ∈ e.blocks, blk.skip.docCount = blk.postings.length
  lastDocId_eq : ∀ blk ∈ e.blocks, ∀ p, blk.postings.getLast? = some p →
    blk.skip.lastDocId = p.docId
  sorted : (e.blocks.flatMap Block.postings).Pairwise (fun p q => p.docId < q.docId)
  docId_lt : ∀ p ∈ e.blocks.flatMap Block.postings, p.docId < uint32Max

/-- All postings of a term, in document order. -/
def DictEntry.postings (e : DictEntry) : List BlockPosting :=
  e.blocks.flatMap Block.postings

namespace DictEntry.WellFormed

variable {e : DictEntry} (h : e.WellFormed)
include h

/-- The last id of a skip entry belongs to a posting of the block. -/
theorem exists_last {blk : Block} (hb : blk ∈ e.blocks) :
    ∃ p ∈ blk.postings, p.docId = blk.skip.lastDocId := by
  have hne := h.block_ne_nil blk hb
  refine ⟨blk.postings.getLast hne, List.getLast_mem hne, ?_⟩
  exact (h.lastDocId_eq blk hb _ (List.getLast?_eq_some_getLast hne)).symm

/-- No posting of a block lies behind the last id of its skip entry. -/
theorem le_lastDocId {blk : Block} (hb : blk ∈ e.blocks) {p : BlockPosting}
    (hp : p ∈ blk.postings) : p.docId ≤ blk.skip.lastDocId := by
  have hne := h.block_ne_nil blk hb
  have hsorted := (List.pairwise_flatMap.1 h.sorted).1 blk hb
  rw [h.lastDocId_eq blk hb _ (List.getLast?_eq_some_getLast hne)]
  rw [← List.dropLast_append_getLast hne, List.pairwise_append] at hsorted
  rw [← List.dropLast_append_getLast hne, List.mem_append, List.mem_singleton] at hp
  rcases hp with hinit | rfl
  · exact (hsorted.2.2 p hinit _ (List.mem_singleton.2 rfl)).le
  · exact le_refl _

/-- Postings of a later block lie behind all postings of an earlier one. -/
theorem lt_of_block_lt {i j : Nat} {a b : Block} (ha : e.blocks[i]? = some a)
    (hb : e.blocks[j]? = some b) (hij : i < j) {p q : BlockPosting} (hp : p ∈ a.postings)
    (hq : q ∈ b.postings) : p.docId < q.docId := by
  obtain ⟨hi, rfl⟩ := List.getElem?_eq_some_iff.1 ha
  obtain ⟨hj, rfl⟩ := List.getElem?_eq_some_iff.1 hb
  have hblocks := (List.pairwise_flatMap.1 h.sorted).2
  exact List.pairwise_iff_getElem.1 hblocks i j hi hj hij p hp q hq

theorem lastDocId_lt {blk : Block} (hb : blk ∈ e.blocks) : blk.skip.lastDocId < uint32Max := by
  obtain ⟨p, hp, heq⟩ := h.exists_last hb
  rw [← heq]
  exact h.docId_lt p (List.mem_flatMap.2 ⟨blk, hb, hp⟩)

/-- Last ids do not decrease from block to block. -/
theorem lastDocId_mono {i j : Nat} {a b : Block} (ha : e.blocks[i]? = some a)
    (hb : e.blocks[j]? = some b) (hij : i ≤ j) : a.skip.lastDocId ≤ b.skip.lastDocId := by
  rcases Nat.eq_or_lt_of_le hij with rfl | hlt
  · rw [ha] at hb
    cases hb
    exact le_refl _
  · obtain ⟨p, hp, hpeq⟩ := h.exists_last (List.mem_of_getElem? ha)
    obtain ⟨q, hq, hqeq⟩ := h.exists_last (List.mem_of_getElem? hb)
    rw [← hpeq, ← hqeq]
    exact (h.lt_of_block_lt ha hb hlt hp hq).le

end DictEntry.WellFormed

/-! ## The iterator -/

/-- Skipping as many elements as the scan counted is what `dropWhile` does. -/
theorem drop_length_takeWhile {α : Type} (p : α → Bool) (l : List α) :
    l.drop (l.takeWhile p).length = l.dropWhile p := by
  induction l with
  | nil => rfl
  | cons x l ih =>
      by_cases hx : p x = true
      · simp [hx, ih]
      · simp [hx]

/-- `TpSegmentPosting`, the output format of the iteration; the document length
is a 16-bit field. -/
structure SegmentPosting where
  docId : Nat
  frequency : Nat
  docLength : Nat
  deriving DecidableEq, Repr, Inhabited

/-- The conversion at the end of `tp_segment_posting_iterator_next`. -/
def BlockPosting.output (p : BlockPosting) : SegmentPosting :=
  ⟨p.docId, p.frequency, decodeFieldnorm p.fieldnorm % 65536⟩

/-- `TpSegmentPostingIterator`. -/
structure PostingIterator where
  dictEntry : DictEntry
  currentBlock : Nat
  currentInBlock : Nat
  skipEntry : SkipEntry
  blockPostings : Option (List BlockPosting)
  initialized : Bool
  finished : Bool
  deriving DecidableEq, Repr, Inhabited

/-- `tp_segment_posting_iterator_init`: `none` when the term is absent. -/
def tpSegmentPostingIteratorInit {Term : Type} [DecidableEq Term] (reader : SegmentReader Term)
    (term : Term) : Option PostingIterator :=
  match reader.findTerm term with
  | none => none
  | some e => some
      { dictEntry := e
        currentBlock := 0
        currentInBlock := 0
        skipEntry := default
        blockPostings := none
        initialized := true
        finished := e.blockCount == 0 }

namespace PostingIterator

/-- `tp_segment_posting_iterator_load_block`. -/
def loadBlock (it : PostingIterator) : Bool × PostingIterator :=
  if it.currentBlock ≥ it.dictEntry.blockCount then (false, it)
  else
    let blk := it.dictEntry.blocks.getD it.currentBlock default
    (true, { it with
      skipEntry := blk.skip
      blockPostings := some blk.postings
      currentInBlock := 0 })

/-- The posting under the cursor. -/
def current (it : PostingIterator) : BlockPosting :=
  (it.blockPostings.getD []).getD it.currentInBlock default

/-- `tp_segment_posting_iterator_current_doc_id`. -/
def currentDocId (it : PostingIterator) : Nat :=
  if it.finished || !it.initialized || it.blockPostings.isNone then uint32Max
  else if it.currentInBlock ≥ it.skipEntry.docCount then uint32Max
  else it.current.docId

/-- The block hand-over that `advance_term_iterator` and both branches of
`seek_term_to_doc` share: go to the next block, or finish. -/
def nextBlock (it : PostingIterator) : Bool × PostingIterator :=
  if it.currentBlock + 1 ≥ it.dictEntry.blockCount then
    (false, { it with currentBlock := it.currentBlock + 1, finished := true })
  else
    (true, ({ it with currentBlock := it.currentBlock + 1, currentInBlock := 0 }
      : PostingIterator).loadBlock.2)

/-- The linear scan inside the current block: stop at the first posting at or
after `target`, or behind the last one. -/
def scanBlock (target : Nat) : Nat → PostingIterator → PostingIterator
  | 0, it => it
  | fuel + 1, it =>
      if it.currentInBlock < it.skipEntry.docCount then
        if it.current.docId ≥ target then it
        else scanBlock target fuel { it with currentInBlock := it.currentInBlock + 1 }
      else it

/-- Scan the current block for `target` and, when it has no such posting, hand
over to the next block: the tail shared by both branches of a seek. -/
def scanOrNextBlock (target : Nat) (it : PostingIterator) : Bool × PostingIterator :=
  let it := scanBlock target it.skipEntry.docCount it
  if it.currentInBlock < it.skipEntry.docCount then (true, it) else it.nextBlock

/-- The loop of `tp_segment_posting_iterator_next` that leaves exhausted blocks;
the block index grows, so `blockCount + 1` rounds are enough. -/
def leaveBlocks : Nat → PostingIterator → Bool × PostingIterator
  | 0, it => (false, it)
  | fuel + 1, it =>
      if it.currentInBlock ≥ it.skipEntry.docCount then
        let it := { it with currentBlock := it.currentBlock + 1 }
        if it.currentBlock ≥ it.dictEntry.blockCount then (false, { it with finished := true })
        else if !it.loadBlock.1 then (false, { it.loadBlock.2 with finished := true })
        else leaveBlocks fuel it.loadBlock.2
      else (true, it)

/-- `tp_segment_posting_iterator_next`.  Segments are opened without their CTIDs,
so the CTID of the output posting is left to `tp_segment_lookup_ctid`. -/
def next (it : PostingIterator) : Option SegmentPosting × PostingIterator :=
  if it.finished || !it.initialized then (none, it)
  else
    let loaded := if it.blockPostings.isNone then it.loadBlock else (true, it)
    if !loaded.1 then (none, { loaded.2 with finished := true })
    else
      let left := leaveBlocks (it.dictEntry.blockCount + 1) loaded.2
      if !left.1 then (none, left.2)
      else (some left.2.current.output,
        { left.2 with currentInBlock := left.2.currentInBlock + 1 })

/-! ## Postings still to come -/

/-- The postings from the cursor on. -/
def rem (it : PostingIterator) : List BlockPosting :=
  if it.finished then []
  else ((it.dictEntry.blocks.drop it.currentBlock).flatMap Block.postings).drop
    it.currentInBlock

/-- The cursor of a well-formed entry stands on a posting of its cached block,
or is finished. -/
structure Positioned (it : PostingIterator) : Prop where
  wf : it.dictEntry.WellFormed
  initialized : it.initialized = true
  cached : it.finished = false → ∃ blk, it.dictEntry.blocks[it.currentBlock]? = some blk ∧
    it.skipEntry = blk.skip ∧ it.blockPostings = some blk.postings ∧
    it.currentInBlock < blk.postings.length

variable {it : PostingIterator}

theorem blocks_drop_eq {blocks : List Block} {i : Nat} {blk : Block}
    (h : blocks[i]? = some blk) : blocks.drop i = blk :: blocks.drop (i + 1) := by
  obtain ⟨hi, rfl⟩ := List.getElem?_eq_some_iff.1 h
  exact List.drop_eq_getElem_cons hi

/-- The rest of the current block, then the later blocks. -/
theorem rem_eq {blk : Block} (hfin : it.finished = false)
    (hblk : it.dictEntry.blocks[it.currentBlock]? = some blk)
    (hin : it.currentInBlock ≤ blk.postings.length) :
    it.rem = blk.postings.drop it.currentInBlock ++
      (it.dictEntry.blocks.drop (it.currentBlock + 1)).flatMap Block.postings := by
  simp only [rem, hfin, Bool.false_eq_true, if_false, blocks_drop_eq hblk, List.flatMap_cons]
  exact List.drop_append_of_le_length hin

theorem rem_finished (hfin : it.finished = true) : it.rem = [] := by
  simp [rem, hfin]

/-- The rest is a final part of the term's postings. -/
theorem rem_suffix (it : PostingIterator) : it.rem <:+ it.dictEntry.postings := by
  unfold rem DictEntry.postings
  split
  · exact List.nil_suffix
  · refine (List.drop_suffix _ _).trans ?_
    conv_rhs => rw [← List.take_append_drop it.currentBlock it.dictEntry.blocks,
      List.flatMap_append]
    exact List.suffix_append _ _

theorem Positioned.rem_ne_nil (hp : it.Positioned) (hfin : it.finished = false) :
    it.rem ≠ [] := by
  obtain ⟨blk, hblk, -, -, hin⟩ := hp.cached hfin
  rw [rem_eq hfin hblk hin.le]
  intro hnil
  have hlen := congrArg List.length hnil
  simp only [List.length_append, List.length_drop, List.length_nil] at hlen
  omega

theorem Positioned.finished_iff (hp : it.Positioned) : it.finished = true ↔ it.rem = [] := by
  constructor
  · exact rem_finished
  · intro hrem
    by_contra hfin
    exact hp.rem_ne_nil (by simpa using hfin) hrem

/-- The posting under the cursor heads the rest. -/
theorem Positioned.head?_rem (hp : it.Positioned) (hfin : it.finished = false) :
    it.rem.head? = some it.current := by
  obtain ⟨blk, hblk, -, hpost, hin⟩ := hp.cached hfin
  rw [rem_eq hfin hblk hin.le, List.head?_append, List.head?_drop]
  simp [current, hpost, List.getD_eq_getElem?_getD, List.getElem?_eq_getElem hin]

/-- The current document id is that of the first posting still to come. -/
theorem Positioned.currentDocId_eq (hp : it.Positioned) :
    it.currentDocId = (it.rem.head?.map BlockPosting.docId).getD uint32Max := by
  cases hfin : it.finished with
  | true => simp [currentDocId, hfin, rem_finished hfin]
  | false =>
      obtain ⟨blk, hblk, hskip, hpost, hin⟩ := hp.cached hfin
      have hmem : blk ∈ it.dictEntry.blocks := List.mem_of_getElem? hblk
      rw [hp.head?_rem hfin, currentDocId, hfin, hp.initialized, hskip,
        hp.wf.docCount_eq blk hmem]
      simp [hpost, Nat.not_le.2 hin]

/-- Handing over to the next block leaves exactly the later blocks. -/
theorem nextBlock_spec (hwf : it.dictEntry.WellFormed) (hinit : it.initialized = true)
    (hfin : it.finished = false) :
    it.nextBlock.2.Positioned ∧ it.nextBlock.2.dictEntry = it.dictEntry ∧
      it.nextBlock.2.rem =
        (it.dictEntry.blocks.drop (it.currentBlock + 1)).flatMap Block.postings ∧
      it.nextBlock.1 = !it.nextBlock.2.finished := by
  by_cases hlast : it.currentBlock + 1 ≥ it.dictEntry.blockCount
  · have heq : it.nextBlock = (false,
        { it with currentBlock := it.currentBlock + 1, finished := true }) := by
      simp [nextBlock, hlast]
    rw [heq]
    rw [hwf.blockCount_eq] at hlast
    refine ⟨⟨hwf, hinit, by simp⟩, rfl, ?_, rfl⟩
    rw [List.drop_eq_nil_of_le hlast]
    simp [rem]
  · have hlt : it.currentBlock + 1 < it.dictEntry.blocks.length := by
      rw [← hwf.blockCount_eq]; omega
    obtain ⟨blk, hblk⟩ : ∃ blk, it.dictEntry.blocks[it.currentBlock + 1]? = some blk :=
      ⟨_, List.getElem?_eq_getElem hlt⟩
    have heq : it.nextBlock = (true,
        { it with
          currentBlock := it.currentBlock + 1
          skipEntry := blk.skip
          blockPostings := some blk.postings
          currentInBlock := 0 }) := by
      simp [nextBlock, loadBlock, hlast, List.getD_eq_getElem?_getD, hblk]
    have hne := hwf.block_ne_nil blk (List.mem_of_getElem? hblk)
    rw [heq]
    refine ⟨⟨hwf, hinit, fun _ => ⟨blk, hblk, rfl, rfl, ?_⟩⟩, rfl, ?_, ?_⟩
    · exact List.length_pos_of_ne_nil hne
    · simp [rem, hfin]
    · simp [hfin]

/-- The scan moves the index over the postings below the target. -/
theorem scanBlock_eq {blk : Block} (target fuel : Nat)
    (hpost : it.blockPostings = some blk.postings)
    (hcount : it.skipEntry.docCount = blk.postings.length)
    (hfuel : blk.postings.length - it.currentInBlock ≤ fuel)
    (hin : it.currentInBlock ≤ blk.postings.length) :
    scanBlock target fuel it = { it with currentInBlock := it.currentInBlock +
      ((blk.postings.drop it.currentInBlock).takeWhile (·.docId < target)).length } := by
  induction fuel generalizing it with
  | zero =>
      have hend : it.currentInBlock = blk.postings.length := by omega
      simp [scanBlock, hend]
      rw [← hend]
  | succ fuel ih =>
      simp only [scanBlock, hcount]
      by_cases hlt : it.currentInBlock < blk.postings.length
      · rw [if_pos hlt]
        have hcur : it.current = blk.postings[it.currentInBlock] := by
          simp [current, hpost, List.getD_eq_getElem?_getD, List.getElem?_eq_getElem hlt]
        rw [hcur, List.drop_eq_getElem_cons hlt, List.takeWhile_cons]
        by_cases hdoc : blk.postings[it.currentInBlock].docId < target
        · rw [if_neg (Nat.not_le.2 hdoc), ih (by exact hpost) (by exact hcount)
            (by simp only; omega) (by simp only; omega)]
          simp [hdoc]
          omega
        · rw [if_pos (Nat.not_lt.1 hdoc)]
          simp [hdoc]
      · rw [if_neg hlt]
        have hend : blk.postings.drop it.currentInBlock = [] :=
          List.drop_eq_nil_of_le (Nat.not_lt.1 hlt)
        simp [hend]

/-- A block whose last id reaches the target has a posting that does, from any position. -/
theorem Positioned.scan_reaches (hp : it.Positioned) {blk : Block} {target : Nat}
    (hblk : it.dictEntry.blocks[it.currentBlock]? = some blk) (hskip : it.skipEntry = blk.skip)
    (hin : it.currentInBlock < blk.postings.length) (hlast : target ≤ it.skipEntry.lastDocId) :
    (blk.postings.drop it.currentInBlock).dropWhile (·.docId < target) ≠ [] := by
  intro hnil
  have hall := List.dropWhile_eq_nil_iff.1 hnil
  have hmem := List.mem_of_getElem? hblk
  have hpne := hp.wf.block_ne_nil blk hmem
  have hlastEq := hp.wf.lastDocId_eq blk hmem (blk.postings.getLast hpne)
    (List.getLast?_eq_some_getLast hpne)
  have hlastMem : blk.postings.getLast hpne ∈ blk.postings.drop it.currentInBlock := by
    rw [← List.getLast_drop (l := blk.postings) (i := it.currentInBlock)
      (List.ne_nil_of_length_pos (by rw [List.length_drop]; omega))]
    exact List.getLast_mem _
  have hbelow := hall _ hlastMem
  rw [hskip, hlastEq] at hlast
  simp only [decide_eq_true_eq] at hbelow
  omega

/-- Dropping what is below the target from the rest of a block and its
successors, when the block has a posting at or after the target or everything
from here on is wanted. -/
theorem scanOrNextBlock_spec {target : Nat} (hp : it.Positioned) (hfin : it.finished = false)
    (htarget : target ≤ it.skipEntry.lastDocId ∨
      it.currentBlock + 1 = it.dictEntry.blocks.length) :
    (it.scanOrNextBlock target).2.Positioned ∧
      (it.scanOrNextBlock target).2.dictEntry = it.dictEntry ∧
      (it.scanOrNextBlock target).2.rem = it.rem.dropWhile (·.docId < target) ∧
      (it.scanOrNextBlock target).1 = !(it.scanOrNextBlock target).2.finished := by
  obtain ⟨blk, hblk, hskip, hpost, hin⟩ := hp.cached hfin
  have hmem : blk ∈ it.dictEntry.blocks := List.mem_of_getElem? hblk
  have hcount : it.skipEntry.docCount = blk.postings.length := by
    rw [hskip, hp.wf.docCount_eq blk hmem]
  obtain ⟨n, hn⟩ : ∃ n, n = ((blk.postings.drop it.currentInBlock).takeWhile
    (·.docId < target)).length := ⟨_, rfl⟩
  have hscan : scanBlock target it.skipEntry.docCount it =
      { it with currentInBlock := it.currentInBlock + n } := by
    rw [hn]
    exact scanBlock_eq target _ hpost hcount (by omega) hin.le
  have hnle : it.currentInBlock + n ≤ blk.postings.length := by
    have := ((blk.postings.drop it.currentInBlock).takeWhile_sublist
      (fun p => decide (p.docId < target))).length_le
    rw [List.length_drop] at this
    omega
  have hdropWhile : (blk.postings.drop it.currentInBlock).dropWhile (·.docId < target) =
      blk.postings.drop (it.currentInBlock + n) := by
    rw [← List.drop_drop, hn, drop_length_takeWhile]
  have hremeq := rem_eq hfin hblk hin.le
  by_cases hstop : it.currentInBlock + n < blk.postings.length
  · -- the scan stopped inside the block
    have heq : it.scanOrNextBlock target =
        (true, { it with currentInBlock := it.currentInBlock + n }) := by
      simp only [scanOrNextBlock, hscan]
      rw [hcount, if_pos hstop]
    rw [heq]
    refine ⟨⟨hp.wf, hp.initialized, fun _ => ⟨blk, hblk, hskip, hpost, hstop⟩⟩, rfl, ?_,
      by simp [hfin]⟩
    have hne : (blk.postings.drop it.currentInBlock).dropWhile (·.docId < target) ≠ [] := by
      rw [hdropWhile]
      exact List.ne_nil_of_length_pos (by rw [List.length_drop]; omega)
    rw [@rem_eq { it with currentInBlock := it.currentInBlock + n } blk hfin hblk hstop.le,
      hremeq, List.dropWhile_append, if_neg (by simpa using hne), hdropWhile]
  · -- the scan ran off the block: the block has nothing left, and if the target
    -- was promised in it then it could not
    have heq : it.scanOrNextBlock target =
        ({ it with currentInBlock := it.currentInBlock + n } : PostingIterator).nextBlock := by
      simp only [scanOrNextBlock, hscan]
      rw [hcount, if_neg hstop]
    have hnil : (blk.postings.drop it.currentInBlock).dropWhile (·.docId < target) = [] := by
      rw [hdropWhile]
      exact List.drop_eq_nil_of_le (by omega)
    obtain ⟨h1, h2, h3, h4⟩ := @nextBlock_spec
      { it with currentInBlock := it.currentInBlock + n } hp.wf hp.initialized hfin
    rw [heq]
    refine ⟨h1, h2, ?_, h4⟩
    rw [h3, hremeq, List.dropWhile_append, if_pos (by simpa using hnil)]
    cases htarget with
    | inl hlast => exact absurd hnil (hp.scan_reaches hblk hskip hin hlast)
    | inr hend =>
        rw [List.drop_eq_nil_of_le (by simp only; omega)]
        simp

/-- Loading a block of a well-formed entry puts the cursor on its first posting. -/
theorem exists_loadBlock_at (hwf : it.dictEntry.WellFormed) (hinit : it.initialized = true)
    (hfin : it.finished = false) {block : Nat} {tgt : Block}
    (htgt : it.dictEntry.blocks[block]? = some tgt) :
    ∃ it' : PostingIterator,
      ({ it with currentBlock := block, currentInBlock := 0 } : PostingIterator).loadBlock =
        (true, it') ∧ it'.Positioned ∧ it'.finished = false ∧ it'.dictEntry = it.dictEntry ∧
      it'.currentBlock = block ∧ it'.skipEntry = tgt.skip ∧
      it'.rem = (it.dictEntry.blocks.drop block).flatMap Block.postings := by
  have hlt := (List.getElem?_eq_some_iff.1 htgt).1
  have hnot : ¬ block ≥ it.dictEntry.blockCount := by
    rw [hwf.blockCount_eq]
    omega
  refine ⟨{ it with
      currentBlock := block
      currentInBlock := 0
      skipEntry := tgt.skip
      blockPostings := some tgt.postings }, ?_, ?_, hfin, rfl, rfl, rfl, ?_⟩
  · simp [loadBlock, hnot, List.getD_eq_getElem?_getD, htgt]
  · exact ⟨hwf, hinit, fun _ => ⟨tgt, htgt, rfl, rfl,
      List.length_pos_of_ne_nil (hwf.block_ne_nil tgt (List.mem_of_getElem? htgt))⟩⟩
  · simp [rem, hfin]

/-- Blocks that end below the target have nothing to offer. -/
theorem dropWhile_skipped (hwf : it.dictEntry.WellFormed) {first block target : Nat}
    (hle : first ≤ block) (hskipped : ∀ i, first ≤ i → i < block → ∀ blk,
      it.dictEntry.blocks[i]? = some blk → blk.skip.lastDocId < target) :
    ((it.dictEntry.blocks.drop first).flatMap Block.postings).dropWhile (·.docId < target) =
      ((it.dictEntry.blocks.drop block).flatMap Block.postings).dropWhile (·.docId < target) := by
  have hsplit : it.dictEntry.blocks.drop first =
      (it.dictEntry.blocks.drop first).take (block - first) ++ it.dictEntry.blocks.drop block := by
    conv_lhs => rw [← List.take_append_drop (block - first) (it.dictEntry.blocks.drop first),
      List.drop_drop]
    rw [Nat.add_sub_cancel' hle]
  rw [hsplit, List.flatMap_append]
  apply List.dropWhile_append_of_pos
  intro p hp
  rw [decide_eq_true_eq]
  obtain ⟨b, hb, hpb⟩ := List.mem_flatMap.1 hp
  obtain ⟨i, hi, hbi⟩ := List.getElem_of_mem hb
  rw [List.length_take, List.length_drop] at hi
  have hidx : it.dictEntry.blocks[first + i]? = some b := by
    rw [← hbi, List.getElem_take, List.getElem_drop]
    exact List.getElem?_eq_getElem (by omega)
  have hlast := hskipped _ (by omega) (by omega) b hidx
  have hpost := hwf.le_lastDocId (List.mem_of_getElem? hidx) hpb
  omega

/-! ## Sequential iteration -/

/-- The cached block is the current one, and the index points into it or right
behind it. -/
structure Loaded (it : PostingIterator) (blk : Block) : Prop where
  wf : it.dictEntry.WellFormed
  initialized : it.initialized = true
  finished : it.finished = false
  block : it.dictEntry.blocks[it.currentBlock]? = some blk
  skip : it.skipEntry = blk.skip
  postings : it.blockPostings = some blk.postings
  inBlock : it.currentInBlock ≤ blk.postings.length

theorem Loaded.docCount {blk : Block} (hl : it.Loaded blk) :
    it.skipEntry.docCount = blk.postings.length := by
  rw [hl.skip, hl.wf.docCount_eq blk (List.mem_of_getElem? hl.block)]

/-- Loading block `i` of an initialised iterator. -/
theorem loaded_loadBlock {blk : Block} (hwf : it.dictEntry.WellFormed)
    (hinit : it.initialized = true) (hfin : it.finished = false)
    (hblk : it.dictEntry.blocks[it.currentBlock]? = some blk) :
    it.loadBlock.1 = true ∧ it.loadBlock.2.Loaded blk ∧
      it.loadBlock.2.dictEntry = it.dictEntry ∧
      it.loadBlock.2.currentBlock = it.currentBlock ∧ it.loadBlock.2.currentInBlock = 0 := by
  have hlt : it.currentBlock < it.dictEntry.blockCount := by
    rw [hwf.blockCount_eq]
    exact (List.getElem?_eq_some_iff.1 hblk).1
  have heq : it.loadBlock = (true, { it with
      skipEntry := blk.skip
      blockPostings := some blk.postings
      currentInBlock := 0 }) := by
    simp [loadBlock, Nat.not_le.2 hlt, List.getD_eq_getElem?_getD, hblk]
  rw [heq]
  exact ⟨rfl, ⟨hwf, hinit, hfin, hblk, rfl, rfl, Nat.zero_le _⟩, rfl, rfl, rfl⟩

/-- With a block cached, all that is left to do is to leave exhausted blocks. -/
theorem Loaded.next_eq {blk : Block} (hl : it.Loaded blk) :
    it.next =
      if !(leaveBlocks (it.dictEntry.blockCount + 1) it).1 then
        (none, (leaveBlocks (it.dictEntry.blockCount + 1) it).2)
      else
        (some (leaveBlocks (it.dictEntry.blockCount + 1) it).2.current.output,
          { (leaveBlocks (it.dictEntry.blockCount + 1) it).2 with
            currentInBlock :=
              (leaveBlocks (it.dictEntry.blockCount + 1) it).2.currentInBlock + 1 }) := by
  simp [next, hl.finished, hl.initialized, hl.postings]

/-- **Inside a block** the next posting is the one at the index. -/
theorem Loaded.next_of_lt {blk : Block} (hl : it.Loaded blk)
    (hlt : it.currentInBlock < blk.postings.length) :
    it.next = (some blk.postings[it.currentInBlock].output,
      { it with currentInBlock := it.currentInBlock + 1 }) := by
  have hcur : it.current = blk.postings[it.currentInBlock] := by
    simp [current, hl.postings, List.getD_eq_getElem?_getD, List.getElem?_eq_getElem hlt]
  have hleave : leaveBlocks (it.dictEntry.blockCount + 1) it = (true, it) := by
    rw [leaveBlocks, hl.docCount, if_neg (Nat.not_le.2 hlt)]
  simp [hl.next_eq, hleave, hcur]

/-- **Behind the last posting** of a block the iteration ends with the last
block and otherwise goes on in the next one. -/
theorem Loaded.next_of_end {blk : Block} (hl : it.Loaded blk)
    (hend : it.currentInBlock = blk.postings.length) :
    (it.dictEntry.blocks.length = it.currentBlock + 1 ∧ it.next =
        (none, { it with currentBlock := it.currentBlock + 1, finished := true })) ∨
      ∃ blk', ∃ it' : PostingIterator,
        it.dictEntry.blocks[it.currentBlock + 1]? = some blk' ∧ it'.Loaded blk' ∧
        it'.dictEntry = it.dictEntry ∧ it'.currentBlock = it.currentBlock + 1 ∧
        it'.currentInBlock = 0 ∧ it.next = it'.next := by
  have hge : it.currentInBlock ≥ it.skipEntry.docCount := by
    rw [hl.docCount, hend]
  have hcb : it.currentBlock < it.dictEntry.blocks.length :=
    (List.getElem?_eq_some_iff.1 hl.block).1
  by_cases hlast : it.currentBlock + 1 ≥ it.dictEntry.blockCount
  · left
    refine ⟨by rw [hl.wf.blockCount_eq] at hlast; omega, ?_⟩
    have hleave : leaveBlocks (it.dictEntry.blockCount + 1) it =
        (false, { it with currentBlock := it.currentBlock + 1, finished := true }) := by
      simp only [leaveBlocks, if_pos hge, if_pos hlast]
    simp [hl.next_eq, hleave]
  · right
    have hlt : it.currentBlock + 1 < it.dictEntry.blocks.length := by
      rw [← hl.wf.blockCount_eq]; omega
    obtain ⟨blk', hblk'⟩ : ∃ blk', it.dictEntry.blocks[it.currentBlock + 1]? = some blk' :=
      ⟨_, List.getElem?_eq_getElem hlt⟩
    obtain ⟨hok, hl', hd', hb', hi'⟩ := @loaded_loadBlock
      { it with currentBlock := it.currentBlock + 1 } blk' hl.wf hl.initialized hl.finished hblk'
    have hpos : 0 < blk'.postings.length :=
      List.length_pos_of_ne_nil (hl.wf.block_ne_nil blk' (List.mem_of_getElem? hblk'))
    obtain ⟨it', hit'⟩ : ∃ it', it' =
      ({ it with currentBlock := it.currentBlock + 1 } : PostingIterator).loadBlock.2 := ⟨_, rfl⟩
    rw [← hit'] at hl' hd' hb' hi'
    -- the next block has postings, so the loop stays in it whatever fuel is left
    have hstay : ∀ fuel, leaveBlocks (fuel + 1) it' = (true, it') := by
      intro fuel
      rw [leaveBlocks, hl'.docCount, hi', if_neg (by omega)]
    obtain ⟨n, hn⟩ := Nat.exists_eq_succ_of_ne_zero
      (show it.dictEntry.blockCount ≠ 0 by omega)
    have hleave : leaveBlocks (it.dictEntry.blockCount + 1) it = (true, it') := by
      rw [leaveBlocks, if_pos hge]
      simp only [if_neg hlast, hok, Bool.not_true, Bool.false_eq_true, if_false, ← hit']
      rw [hn]
      exact hstay n
    refine ⟨blk', it', hblk', hl', hd', hb', hi', ?_⟩
    rw [hl.next_eq, hl'.next_eq, hleave, hstay]

/-- Inside a block the cursor takes the first posting still to come. -/
private theorem Loaded.next_rem_of_lt {blk : Block} (hl : it.Loaded blk)
    (hlt : it.currentInBlock < blk.postings.length) :
    ∃ p, ∃ it' : PostingIterator, it.next = (some p.output, it') ∧ it.rem = p :: it'.rem ∧
      it'.Loaded blk := by
  obtain ⟨it', hit'⟩ : ∃ it' : PostingIterator,
    it' = { it with currentInBlock := it.currentInBlock + 1 } := ⟨_, rfl⟩
  have hl' : it'.Loaded blk := by
    rw [hit']
    exact ⟨hl.wf, hl.initialized, hl.finished, hl.block, hl.skip, hl.postings, hlt⟩
  refine ⟨blk.postings[it.currentInBlock], it', by rw [hit', hl.next_of_lt hlt], ?_, hl'⟩
  rw [rem_eq hl.finished hl.block hl.inBlock, rem_eq hl'.finished hl'.block hl'.inBlock, hit',
    List.drop_eq_getElem_cons hlt, List.cons_append]

/-- **One step of the iteration**: it takes the first posting still to come, or nothing is
left. -/
theorem Loaded.next_rem {blk : Block} (hl : it.Loaded blk) :
    it.rem = [] ∧ it.next.1 = none ∨
      ∃ p, ∃ it' : PostingIterator, ∃ blk', it.next = (some p.output, it') ∧
        it.rem = p :: it'.rem ∧ it'.Loaded blk' := by
  rcases Nat.lt_or_eq_of_le hl.inBlock with hlt | hend
  · obtain ⟨p, it', hnext, hrem, hl'⟩ := hl.next_rem_of_lt hlt
    exact Or.inr ⟨p, it', blk, hnext, hrem, hl'⟩
  · have hrem : it.rem =
        (it.dictEntry.blocks.drop (it.currentBlock + 1)).flatMap Block.postings := by
      rw [rem_eq hl.finished hl.block hl.inBlock, hend, List.drop_length, List.nil_append]
    rcases hl.next_of_end hend with ⟨hlast, hnext⟩ | ⟨blk', it₁, hblk', hl₁, hd, hb, hi, hnext⟩
    · left
      rw [hrem, hnext, ← hlast, List.drop_length]
      exact ⟨rfl, rfl⟩
    · -- the next block is not empty
      right
      have hne := hl.wf.block_ne_nil blk' (List.mem_of_getElem? hblk')
      obtain ⟨p, it', hnext', hrem', hl'⟩ := hl₁.next_rem_of_lt
        (by rw [hi]; exact List.length_pos_of_ne_nil hne)
      refine ⟨p, it', blk', hnext.trans hnext', ?_, hl'⟩
      rw [← hrem', hrem, rem, hl₁.finished, hd, hb, hi, List.drop_zero]
      rfl

/-- An iterator as `tp_segment_posting_iterator_init` leaves it. -/
structure Fresh (it : PostingIterator) (e : DictEntry) : Prop where
  dictEntry : it.dictEntry = e
  block : it.currentBlock = 0
  inBlock : it.currentInBlock = 0
  unloaded : it.blockPostings = none
  initialized : it.initialized = true
  finished : it.finished = (e.blockCount == 0)

/-- **The first step** loads the first block, or the entry is empty. -/
theorem Fresh.next_cases {e : DictEntry} (hf : it.Fresh e) (hwf : e.WellFormed) :
    e.postings = [] ∧ it.next = (none, it) ∨
      ∃ it' : PostingIterator, ∃ blk, it'.Loaded blk ∧ it'.rem = e.postings ∧
        it.next = it'.next := by
  by_cases hempty : e.blockCount = 0
  · left
    have hblocks : e.blocks = [] :=
      List.eq_nil_of_length_eq_zero (by rw [← hwf.blockCount_eq, hempty])
    refine ⟨by rw [DictEntry.postings, hblocks]; rfl, ?_⟩
    simp [next, hf.finished, hempty]
  · right
    have hfin : it.finished = false := by simp [hf.finished, hempty]
    have hlt : 0 < e.blocks.length := by
      rw [← hwf.blockCount_eq]
      omega
    have hblk : it.dictEntry.blocks[it.currentBlock]? = some e.blocks[0] := by
      rw [hf.dictEntry, hf.block]
      exact List.getElem?_eq_getElem hlt
    obtain ⟨hok, hl, hd, hb, hi⟩ := loaded_loadBlock (by rw [hf.dictEntry]; exact hwf)
      hf.initialized hfin hblk
    refine ⟨it.loadBlock.2, _, hl, ?_, ?_⟩
    · rw [rem, hl.finished, hi, hb, hd, hf.dictEntry, hf.block]
      rfl
    · rw [hl.next_eq, next, hfin, hf.initialized, hf.unloaded, hd]
      simp [hok]

theorem fresh_init {Term : Type} [DecidableEq Term] {reader : SegmentReader Term} {term : Term}
    (hinit : tpSegmentPostingIteratorInit reader term = some it) :
    ∃ e, reader.findTerm term = some e ∧ it.Fresh e := by
  unfold tpSegmentPostingIteratorInit at hinit
  cases hfind : reader.findTerm term with
  | none => simp [hfind] at hinit
  | some e =>
      simp only [hfind, Option.some.injEq] at hinit
      subst hinit
      exact ⟨e, rfl, ⟨rfl, rfl, rfl, rfl, rfl, rfl⟩⟩

end PostingIterator

end PgTextsearch.Segment
