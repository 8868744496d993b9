import PgTextsearch.Query.TopKHeap
import PgTextsearch.Segment.BlockWriter
import PgTextsearch.Verified.DistinctKeys

/-!
# Term cursors (`query/bmw.c`)

A multi-term query keeps one cursor per query term: a posting iterator, the
block-max scores of the term's blocks and the last document id of each.  A
cursor is understood through the postings still to come (`TermState.rem`) and
through what the term adds to a document's score (`TermState.contrib`); seeking
and advancing change the former only.

## Main results

* `advanceTermIterator_spec`, `seekTermToDoc_spec` — advancing drops the head of
  the rest, seeking drops everything below the target.
* `TermState.Ready` — what `init_segment_term_states` establishes and both
  operations keep.
* `docBound_le_maxScore`, `docBound_eq_blockUpper` — what the cached bounds allow a
  document (`TermState.docBound`), against the two sums the query loop compares.
* `contrib_le_docBound` — with sound block maxima it dominates the score.
-/

namespace PgTextsearch.Query

open PgTextsearch.Postgres PgTextsearch.Segment PgTextsearch.Verified

variable {Term : Type}

/-- `TpTermState`. -/
structure TermState (Term : Type) where
  term : Term
  idf : ℚ
  queryFreq : Int
  maxScore : ℚ
  found : Bool
  iter : PostingIterator
  blockMaxScores : Option (List ℚ)
  blockLastDocIds : Option (List Nat)
  deriving DecidableEq

namespace TermState

/-- `term_current_doc_id`. -/
def currentDocId (ts : TermState Term) : Nat :=
  if !ts.found || ts.iter.finished then uint32Max else ts.iter.currentDocId

/-- Entry `block` of the cached `last_doc_id` array. -/
def blockLastDocId (ts : TermState Term) (block : Nat) : Nat :=
  (ts.blockLastDocIds.getD []).getD block 0

/-- Entry `block` of the cached block-max array. -/
def blockMaxScore (ts : TermState Term) (block : Nat) : ℚ :=
  (ts.blockMaxScores.getD []).getD block 0

end TermState

/-- `advance_term_iterator`. -/
def advanceTermIterator (ts : TermState Term) : Bool × TermState Term :=
  let it := { ts.iter with currentInBlock := ts.iter.currentInBlock + 1 }
  if it.currentInBlock ≥ it.skipEntry.docCount then
    (it.nextBlock.1, { ts with iter := it.nextBlock.2 })
  else (true, { ts with iter := it })

/-- `seek_term_to_doc`. -/
def seekTermToDoc (ts : TermState Term) (targetDocId : Nat) : Bool × TermState Term :=
  if !ts.found || ts.iter.finished then (false, ts)
  else if targetDocId ≤ ts.iter.skipEntry.lastDocId then
    -- target is in the current block
    let r := ts.iter.scanOrNextBlock targetDocId
    (r.1, { ts with iter := r.2 })
  else
    let blockCount := ts.iter.dictEntry.blockCount
    let targetBlock := lowerBound (fun mid => decide (ts.blockLastDocId mid < targetDocId))
      blockCount (ts.iter.currentBlock + 1) (blockCount - 1)
    if targetBlock ≥ blockCount then
      (false, { ts with iter := { ts.iter with finished := true } })
    else
      let loaded := ({ ts.iter with currentBlock := targetBlock, currentInBlock := 0 }
        : PostingIterator).loadBlock
      if !loaded.1 then (false, { ts with iter := { loaded.2 with finished := true } })
      else
        let r := loaded.2.scanOrNextBlock targetDocId
        (r.1, { ts with iter := r.2 })

/-- The iterator of a term that the segment does not have. -/
def absentIterator : PostingIterator :=
  { dictEntry := default
    currentBlock := 0
    currentInBlock := 0
    skipEntry := default
    blockPostings := none
    initialized := false
    finished := true }

/-- The loop body of `init_segment_term_states`; the flag says whether the term
counts as active. -/
def initTermState [DecidableEq Term] (P : ScoreParams) (reader : SegmentReader Term)
    (ts : TermState Term) : Bool × TermState Term :=
  match tpSegmentPostingIteratorInit reader ts.term with
  | none => (false, { ts with
      found := false
      maxScore := 0
      blockMaxScores := none
      blockLastDocIds := none
      iter := absentIterator })
  | some it =>
      let skips := (it.dictEntry.blocks.take it.dictEntry.blockCount).map Block.skip
      let bounds := skips.map fun s => P.blockMax ts.idf s.blockMaxTf s.blockMaxNorm
      let hasBlocks := it.dictEntry.blockCount > 0
      let loaded := it.loadBlock
      (loaded.1, { ts with
        found := true
        maxScore :=
          if hasBlocks then bounds.foldl (fun m s => if s > m then s else m) 0 * ts.queryFreq
          else 0
        blockMaxScores := if hasBlocks then some bounds else none
        blockLastDocIds := if hasBlocks then some (skips.map SkipEntry.lastDocId) else none
        iter := loaded.2 })

namespace TermState

/-! ## Meaning of a cursor -/

/-- The blocks of the term in the segment. -/
def blocks (ts : TermState Term) : List Block :=
  if ts.found then ts.iter.dictEntry.blocks else []

/-- All postings of the term in the segment. -/
def postings (ts : TermState Term) : List BlockPosting :=
  ts.blocks.flatMap Block.postings

/-- The postings from the cursor on. -/
def rem (ts : TermState Term) : List BlockPosting :=
  if ts.found then ts.iter.rem else []

/-- The state without the cursor position. -/
def static (ts : TermState Term) : TermState Term :=
  { ts with iter := { absentIterator with dictEntry := ts.iter.dictEntry } }

/-- The weighted score of one posting of the term. -/
def postingScore (P : ScoreParams) (ts : TermState Term) (p : BlockPosting) : ℚ :=
  P.score ts.idf p.frequency p.docLength * ts.queryFreq

/-- What the term adds to the score of a document. -/
def contrib (P : ScoreParams) (ts : TermState Term) (docId : Nat) : ℚ :=
  ((ts.postings.find? (·.docId = docId)).map (ts.postingScore P)).getD 0

/-- The weighted block-max score of a block. -/
def blockBound (P : ScoreParams) (ts : TermState Term) (blk : Block) : ℚ :=
  P.blockMax ts.idf blk.skip.blockMaxTf blk.skip.blockMaxNorm * ts.queryFreq

/-- What the block maxima allow the term to add to the score of a document: the
bound of the block that holds it. -/
def docBound (P : ScoreParams) (ts : TermState Term) (docId : Nat) : ℚ :=
  ((ts.blocks.find? fun blk => blk.postings.any (·.docId = docId)).map
    (ts.blockBound P)).getD 0

/-- A cursor positioned in a well-formed entry, with the last document ids of its
blocks cached: all that moving it relies on. -/
structure Placed (ts : TermState Term) : Prop where
  positioned : ts.found = true → ts.iter.Positioned
  lasts : ts.blocks ≠ [] → ts.blockLastDocIds =
    some (ts.blocks.map fun blk => blk.skip.lastDocId)
  maxScore_nonneg : 0 ≤ ts.maxScore

/-- A cursor as `init_segment_term_states` leaves it and the query loop keeps
it: positioned in a well-formed entry, with the cached arrays and the maximum
filled in from the skip entries.  These need not be sound; only a block with an
occurrence of the term has a positive maximal frequency. -/
structure Ready (P : ScoreParams) (ts : TermState Term) : Prop extends ts.Placed where
  idf_nonneg : 0 ≤ ts.idf
  queryFreq_pos : 0 < ts.queryFreq
  bounds : ts.blocks ≠ [] → ts.blockMaxScores = some (ts.blocks.map fun blk =>
    P.blockMax ts.idf blk.skip.blockMaxTf blk.skip.blockMaxNorm)
  maxScore_ge : ∀ blk ∈ ts.blocks,
    P.blockMax ts.idf blk.skip.blockMaxTf blk.skip.blockMaxNorm * ts.queryFreq ≤ ts.maxScore
  positive : ∀ blk ∈ ts.blocks, ∀ p ∈ blk.postings, 0 < p.frequency → 0 < blk.skip.blockMaxTf

/-- `Placed` looks at the cursor position only through `Positioned`. -/
theorem Placed.of_iter {ts : TermState Term} (hr : ts.Placed) {it : PostingIterator}
    (hp : it.Positioned) (hd : it.dictEntry = ts.iter.dictEntry) :
    ({ ts with iter := it } : TermState Term).Placed := by
  have hblocks : ({ ts with iter := it } : TermState Term).blocks = ts.blocks := by
    simp [blocks, hd]
  constructor
  · exact fun _ => hp
  · rw [hblocks]
    exact hr.lasts
  · exact hr.maxScore_nonneg

/-- Moving a cursor keeps what `Ready` says about its term. -/
theorem Ready.of_static {P : ScoreParams} {ts ts' : TermState Term} (hr : ts.Ready P)
    (hp : ts'.Placed) (hs : ts'.static = ts.static) : ts'.Ready P where
  toPlaced := hp
  idf_nonneg := show 0 ≤ ts'.static.idf by rw [hs]; exact hr.idf_nonneg
  queryFreq_pos := show 0 < ts'.static.queryFreq by rw [hs]; exact hr.queryFreq_pos
  bounds := show ts'.static.blocks ≠ [] → ts'.static.blockMaxScores =
      some (ts'.static.blocks.map fun blk =>
        P.blockMax ts'.static.idf blk.skip.blockMaxTf blk.skip.blockMaxNorm) by
    rw [hs]
    exact hr.bounds
  maxScore_ge := show ∀ blk ∈ ts'.static.blocks,
      P.blockMax ts'.static.idf blk.skip.blockMaxTf blk.skip.blockMaxNorm *
        ts'.static.queryFreq ≤ ts'.static.maxScore by
    rw [hs]
    exact hr.maxScore_ge
  positive := show ∀ blk ∈ ts'.static.blocks, ∀ p ∈ blk.postings, 0 < p.frequency →
      0 < blk.skip.blockMaxTf by
    rw [hs]
    exact hr.positive

variable {P : ScoreParams} {ts : TermState Term}

theorem contrib_static (P : ScoreParams) (ts : TermState Term) (docId : Nat) :
    ts.static.contrib P docId = ts.contrib P docId := rfl

theorem rem_suffix (ts : TermState Term) : ts.rem <:+ ts.postings := by
  unfold rem postings blocks
  split
  · exact ts.iter.rem_suffix
  · exact List.nil_suffix

theorem Placed.sorted (hr : ts.Placed) : ts.postings.Pairwise (fun p q => p.docId < q.docId) := by
  unfold postings blocks
  split_ifs with hf
  · exact (hr.positioned hf).wf.sorted
  · exact List.Pairwise.nil

theorem Placed.docId_lt (hr : ts.Placed) {p : BlockPosting} (hp : p ∈ ts.postings) :
    p.docId < uint32Max := by
  unfold postings blocks at hp
  split_ifs at hp with hf
  · exact (hr.positioned hf).wf.docId_lt p hp
  · simp at hp

/-- The current document is the first one still to come. -/
theorem Placed.currentDocId_eq (hr : ts.Placed) :
    ts.currentDocId = (ts.rem.head?.map BlockPosting.docId).getD uint32Max := by
  unfold currentDocId rem
  cases hf : ts.found with
  | false => rfl
  | true =>
      have hp := hr.positioned hf
      cases hfin : ts.iter.finished with
      | true => simp [PostingIterator.rem_finished hfin]
      | false => simpa using hp.currentDocId_eq

theorem Placed.currentDocId_nil (hr : ts.Placed) (h : ts.rem = []) :
    ts.currentDocId = uint32Max := by
  rw [hr.currentDocId_eq, h]
  rfl

theorem Placed.currentDocId_cons (hr : ts.Placed) {p : BlockPosting} {rest : List BlockPosting}
    (h : ts.rem = p :: rest) : ts.currentDocId = p.docId := by
  rw [hr.currentDocId_eq, h]
  rfl

theorem Placed.currentDocId_le (hr : ts.Placed) : ts.currentDocId ≤ uint32Max := by
  cases hrem : ts.rem with
  | nil => rw [hr.currentDocId_nil hrem]
  | cons p rest =>
      rw [hr.currentDocId_cons hrem]
      exact (hr.docId_lt (ts.rem_suffix.subset (by simp [hrem]))).le

/-- A cursor is exhausted exactly when it shows the sentinel. -/
theorem Placed.rem_eq_nil_iff (hr : ts.Placed) : ts.rem = [] ↔ ts.currentDocId = uint32Max := by
  constructor
  · exact hr.currentDocId_nil
  · intro hcur
    cases hrem : ts.rem with
    | nil => rfl
    | cons p rest =>
        rw [hr.currentDocId_cons hrem] at hcur
        have := hr.docId_lt (ts.rem_suffix.subset (by simp [hrem] : p ∈ ts.rem))
        omega

/-- Nothing still to come lies before the current document. -/
theorem Placed.currentDocId_le_of_mem (hr : ts.Placed) {p : BlockPosting} (hp : p ∈ ts.rem) :
    ts.currentDocId ≤ p.docId := by
  cases hrem : ts.rem with
  | nil => simp [hrem] at hp
  | cons q rest =>
      rw [hr.currentDocId_cons hrem]
      have hsorted := hr.sorted.sublist ts.rem_suffix.sublist
      rw [hrem] at hsorted hp
      rcases List.mem_cons.1 hp with rfl | hmem
      · exact le_refl _
      · exact ((List.pairwise_cons.1 hsorted).1 p hmem).le

/-! ## The two operations -/

end TermState

/-- **Advancing** drops the posting under the cursor. -/
theorem advanceTermIterator_spec {ts : TermState Term} (hr : ts.Placed) (hne : ts.rem ≠ []) :
    (advanceTermIterator ts).2.Placed ∧
      (advanceTermIterator ts).2.static = ts.static ∧
      (advanceTermIterator ts).2.rem = ts.rem.tail ∧
      ((advanceTermIterator ts).1 = true ↔ (advanceTermIterator ts).2.rem ≠ []) := by
  have hfound : ts.found = true := by
    by_contra hf
    exact hne (by simp [TermState.rem, hf])
  have hp := hr.positioned hfound
  have hfin : ts.iter.finished = false := by
    by_contra hf
    exact hne (by simp [TermState.rem, hfound, PostingIterator.rem_finished (by simpa using hf)])
  obtain ⟨blk, hblk, hskip, hpost, hin⟩ := hp.cached hfin
  have hmem : blk ∈ ts.iter.dictEntry.blocks := List.mem_of_getElem? hblk
  have hcount : ts.iter.skipEntry.docCount = blk.postings.length := by
    rw [hskip, hp.wf.docCount_eq blk hmem]
  have htail : ts.rem.tail = blk.postings.drop (ts.iter.currentInBlock + 1) ++
      (ts.iter.dictEntry.blocks.drop (ts.iter.currentBlock + 1)).flatMap Block.postings := by
    simp only [TermState.rem, hfound, if_true, PostingIterator.rem_eq hfin hblk hin.le]
    rw [List.drop_eq_getElem_cons hin]
    rfl
  by_cases hend : ts.iter.currentInBlock + 1 ≥ blk.postings.length
  · have heq : advanceTermIterator ts =
        (({ ts.iter with currentInBlock := ts.iter.currentInBlock + 1 }
          : PostingIterator).nextBlock.1,
        { ts with iter := ({ ts.iter with currentInBlock := ts.iter.currentInBlock + 1 }
          : PostingIterator).nextBlock.2 }) := by
      simp only [advanceTermIterator, hcount, if_pos hend]
    obtain ⟨h1, h2, h3, h4⟩ := @PostingIterator.nextBlock_spec
      { ts.iter with currentInBlock := ts.iter.currentInBlock + 1 }
      hp.wf hp.initialized hfin
    rw [heq]
    refine ⟨hr.of_iter h1 h2, by simp [TermState.static, h2], ?_, ?_⟩
    · rw [htail, List.drop_eq_nil_of_le hend]
      simp only [TermState.rem, hfound, if_true, h3, List.nil_append]
    · simp only [TermState.rem, hfound, if_true, h4]
      rw [← not_iff_not]
      simp [h1.finished_iff]
  · have heq : advanceTermIterator ts =
        (true, { ts with iter :=
          { ts.iter with currentInBlock := ts.iter.currentInBlock + 1 } }) := by
      simp only [advanceTermIterator, hcount, if_neg hend]
    have hp' : ({ ts.iter with currentInBlock := ts.iter.currentInBlock + 1 }
        : PostingIterator).Positioned :=
      ⟨hp.wf, hp.initialized, fun _ => ⟨blk, hblk, hskip, hpost, by simp only; omega⟩⟩
    rw [heq]
    refine ⟨hr.of_iter hp' rfl, rfl, ?_, ?_⟩
    · rw [htail]
      simp only [TermState.rem, hfound, if_true]
      exact @PostingIterator.rem_eq { ts.iter with
        currentInBlock := ts.iter.currentInBlock + 1 } blk hfin hblk (by simp only; omega)
    · simp only [TermState.rem, hfound, if_true, true_iff]
      exact hp'.rem_ne_nil hfin

/-- A failed seek beyond the last block, or into the block the binary search
selected: in both cases the rest is what is not below the target. -/
private theorem seek_beyond_block {ts : TermState Term} (hr : ts.Placed)
    (hfound : ts.found = true) (hfin : ts.iter.finished = false) {target : Nat}
    (hbeyond : ts.iter.skipEntry.lastDocId < target) {block : Nat}
    (hlow : ts.iter.currentBlock + 1 ≤ block)
    (hskipped : ∀ i, ts.iter.currentBlock + 1 ≤ i → i < block → ∀ blk,
      ts.iter.dictEntry.blocks[i]? = some blk → blk.skip.lastDocId < target) :
    ts.rem.dropWhile (·.docId < target) =
      ((ts.iter.dictEntry.blocks.drop block).flatMap Block.postings).dropWhile
        (·.docId < target) := by
  have hp := hr.positioned hfound
  obtain ⟨blk, hblk, hskip, -, hin⟩ := hp.cached hfin
  have hmem : blk ∈ ts.iter.dictEntry.blocks := List.mem_of_getElem? hblk
  rw [← PostingIterator.dropWhile_skipped hp.wf hlow hskipped]
  simp only [TermState.rem, hfound, if_true, PostingIterator.rem_eq hfin hblk hin.le]
  apply List.dropWhile_append_of_pos
  intro p hcur
  rw [decide_eq_true_eq]
  have hle := hp.wf.le_lastDocId hmem (List.mem_of_mem_drop hcur)
  rw [← hskip] at hle
  omega

theorem TermState.Placed.blockLastDocId_eq {ts : TermState Term} (hr : ts.Placed) {i : Nat}
    {blk : Block} (hblk : ts.blocks[i]? = some blk) :
    ts.blockLastDocId i = blk.skip.lastDocId := by
  have hne : ts.blocks ≠ [] := by
    intro hnil
    simp [hnil] at hblk
  simp [TermState.blockLastDocId, hr.lasts hne, List.getD_eq_getElem?_getD, hblk]

/-- **Seeking** drops every posting below the target. -/
theorem seekTermToDoc_spec {ts : TermState Term} (hr : ts.Placed) (target : Nat) :
    (seekTermToDoc ts target).2.Placed ∧
      (seekTermToDoc ts target).2.static = ts.static ∧
      (seekTermToDoc ts target).2.rem = ts.rem.dropWhile (·.docId < target) ∧
      ((seekTermToDoc ts target).1 = true ↔ (seekTermToDoc ts target).2.rem ≠ []) := by
  by_cases hactive : ts.found = true ∧ ts.iter.finished = false
  · obtain ⟨hfound, hfin⟩ := hactive
    have hp := hr.positioned hfound
    have hguard : ¬ ((!ts.found || ts.iter.finished) = true) := by simp [hfound, hfin]
    obtain ⟨blk, hblk, hskip, hpost, hin⟩ := hp.cached hfin
    have hblocks : ts.blocks = ts.iter.dictEntry.blocks := by simp [TermState.blocks, hfound]
    by_cases hcur : target ≤ ts.iter.skipEntry.lastDocId
    · have heq : seekTermToDoc ts target = ((ts.iter.scanOrNextBlock target).1,
          { ts with iter := (ts.iter.scanOrNextBlock target).2 }) := by
        simp only [seekTermToDoc, if_neg hguard, if_pos hcur]
      obtain ⟨h1, h2, h3, h4⟩ :=
        PostingIterator.scanOrNextBlock_spec hp hfin (Or.inl hcur)
      rw [heq]
      refine ⟨hr.of_iter h1 h2, by simp [TermState.static, h2], ?_, ?_⟩
      · simp only [TermState.rem, hfound, if_true, h3]
      · simp only [TermState.rem, hfound, if_true, h4]
        rw [← not_iff_not]
        simp [h1.finished_iff]
    · -- binary search over the later blocks
      obtain ⟨block, hblock⟩ : ∃ block, block = lowerBound
        (fun mid => decide (ts.blockLastDocId mid < target)) ts.iter.dictEntry.blockCount
        (ts.iter.currentBlock + 1) (ts.iter.dictEntry.blockCount - 1) := ⟨_, rfl⟩
      have hcount := hp.wf.blockCount_eq
      by_cases hlastBlock : ts.iter.currentBlock + 1 ≥ ts.iter.dictEntry.blockCount
      · -- no later block: exhausted
        have hge : block = ts.iter.currentBlock + 1 := by
          rw [hblock]
          exact lowerBound_of_le _ _ (by omega)
        have heq : seekTermToDoc ts target =
            (false, { ts with iter := { ts.iter with finished := true } }) := by
          simp only [seekTermToDoc, if_neg hguard, if_neg hcur, ← hblock, hge, if_pos hlastBlock]
        have hp' : ({ ts.iter with finished := true } : PostingIterator).Positioned :=
          ⟨hp.wf, hp.initialized, fun h => by simp at h⟩
        have hdrop := seek_beyond_block hr hfound hfin (Nat.not_le.1 hcur) (le_refl _)
          (fun i h1 h2 => absurd h2 (by omega))
        rw [List.drop_eq_nil_of_le (by omega)] at hdrop
        rw [heq, hdrop]
        refine ⟨hr.of_iter hp' rfl, rfl, ?_, ?_⟩
        · simp [TermState.rem, PostingIterator.rem]
        · simp [TermState.rem, PostingIterator.rem]
      · have hmono : ∀ i j, ts.iter.currentBlock + 1 ≤ i → i ≤ j →
            j < ts.iter.dictEntry.blockCount - 1 →
            decide (ts.blockLastDocId j < target) = true →
            decide (ts.blockLastDocId i < target) = true := by
          intro i j _ hij hj hb
          have hjb : ts.iter.dictEntry.blocks[j]? =
              some (ts.iter.dictEntry.blocks.get ⟨j, by omega⟩) :=
            List.getElem?_eq_getElem (by omega)
          have hib : ts.iter.dictEntry.blocks[i]? =
              some (ts.iter.dictEntry.blocks.get ⟨i, by omega⟩) :=
            List.getElem?_eq_getElem (by omega)
          rw [decide_eq_true_eq, hr.blockLastDocId_eq (by rw [hblocks]; exact hjb)] at hb
          rw [decide_eq_true_eq, hr.blockLastDocId_eq (by rw [hblocks]; exact hib)]
          exact lt_of_le_of_lt (hp.wf.lastDocId_mono hib hjb hij) hb
        obtain ⟨hlow, hhigh, hbelow, hstop⟩ := lowerBound_spec _ _ _ _ hmono
          (by omega) (show _ ≤ ts.iter.dictEntry.blockCount by omega)
        rw [← hblock] at hlow hhigh hbelow hstop
        have hlt : block < ts.iter.dictEntry.blocks.length := by omega
        obtain ⟨tgt, htgt⟩ : ∃ tgt, ts.iter.dictEntry.blocks[block]? = some tgt :=
          ⟨_, List.getElem?_eq_getElem hlt⟩
        obtain ⟨it, hload, hitp, hitfin, hitdict, hitblock, hitskip, hitrem⟩ :=
          PostingIterator.exists_loadBlock_at hp.wf hp.initialized hfin htgt
        have heq : seekTermToDoc ts target = ((it.scanOrNextBlock target).1,
            { ts with iter := (it.scanOrNextBlock target).2 }) := by
          simp only [seekTermToDoc, if_neg hguard, if_neg hcur, ← hblock,
            if_neg (show ¬ block ≥ ts.iter.dictEntry.blockCount by omega), hload]
          simp
        have hskipped : ∀ i, ts.iter.currentBlock + 1 ≤ i → i < block → ∀ b,
            ts.iter.dictEntry.blocks[i]? = some b → b.skip.lastDocId < target := by
          intro i h1 h2 b hb
          have := hbelow i h1 h2
          rw [decide_eq_true_eq, hr.blockLastDocId_eq (by rw [hblocks]; exact hb)] at this
          exact this
        have htarget : target ≤ it.skipEntry.lastDocId ∨
            it.currentBlock + 1 = it.dictEntry.blocks.length := by
          by_cases hend : block < ts.iter.dictEntry.blockCount - 1
          · have := hstop hend
            rw [decide_eq_false_iff_not,
              hr.blockLastDocId_eq (by rw [hblocks]; exact htgt)] at this
            exact Or.inl (by rw [hitskip]; exact Nat.not_lt.1 this)
          · exact Or.inr (by rw [hitblock, hitdict]; omega)
        obtain ⟨h1, h2, h3, h4⟩ := PostingIterator.scanOrNextBlock_spec hitp hitfin htarget
        rw [heq]
        refine ⟨hr.of_iter h1 (h2.trans hitdict), ?_, ?_, ?_⟩
        · simp [TermState.static, h2, hitdict]
        · rw [seek_beyond_block hr hfound hfin (Nat.not_le.1 hcur) hlow hskipped, ← hitrem, ← h3]
          simp only [TermState.rem, hfound, if_true]
        · simp only [TermState.rem, hfound, if_true, h4]
          rw [← not_iff_not]
          simp [h1.finished_iff]
  · have hguard : (!ts.found || ts.iter.finished) = true := by
      cases hf : ts.found <;> cases hfin : ts.iter.finished <;> simp_all
    have heq : seekTermToDoc ts target = (false, ts) := by
      simp only [seekTermToDoc, if_pos hguard]
    have hrem : ts.rem = [] := by
      unfold TermState.rem
      split_ifs with hf
      · exact PostingIterator.rem_finished (by simpa [hf] using hguard)
      · rfl
    rw [heq, hrem]
    exact ⟨hr, rfl, rfl, by simp⟩

namespace TermState

/-! ## Upper bounds -/

/-- The block-max score of the current block as `compute_block_max_at_pivot`
adds it; exhausted cursors add nothing. -/
def blockUpper (ts : TermState Term) : ℚ :=
  if !ts.found || ts.iter.finished then 0
  else if ts.blockMaxScores.isNone then 0
  else if ts.iter.currentBlock < ts.iter.dictEntry.blockCount then
    ts.blockMaxScore ts.iter.currentBlock * ts.queryFreq
  else 0

variable {P : ScoreParams} {ts : TermState Term}

theorem Ready.postingScore_nonneg (hr : ts.Ready P) (p : BlockPosting) :
    0 ≤ ts.postingScore P p :=
  mul_nonneg (P.score_nonneg hr.idf_nonneg _ _) (Int.cast_nonneg hr.queryFreq_pos.le)

theorem Ready.postingScore_pos (hr : ts.Ready P) (hidf : 0 < ts.idf) {p : BlockPosting}
    (hp : 0 < p.frequency) : 0 < ts.postingScore P p :=
  mul_pos (P.score_pos hidf _ hp) (Int.cast_pos.2 hr.queryFreq_pos)

/-- Only a term with a weight scores, and only an occurrence. -/
theorem Ready.of_postingScore_pos (hr : ts.Ready P) {p : BlockPosting}
    (hpos : 0 < ts.postingScore P p) : 0 < ts.idf ∧ 0 < p.frequency := by
  constructor
  · refine lt_of_le_of_ne hr.idf_nonneg fun hzero => ?_
    rw [postingScore, ← hzero, P.score_zero_idf, zero_mul] at hpos
    exact lt_irrefl 0 hpos
  · by_contra hnone
    have hzero : p.frequency = 0 := by omega
    rw [postingScore, hzero] at hpos
    simp at hpos

/-- In a strictly sorted list the posting of a document is unique. -/
theorem Ready.contrib_of_mem (hr : ts.Ready P) {p : BlockPosting} (hp : p ∈ ts.postings) :
    ts.contrib P p.docId = ts.postingScore P p := by
  have hfind : ts.postings.find? (·.docId = p.docId) = some p :=
    DistinctKeys.find?_eq_some_of_sorted hr.sorted hp rfl
  simp [contrib, hfind]

theorem contrib_of_forall_ne {docId : Nat} (h : ∀ p ∈ ts.postings, p.docId ≠ docId) :
    ts.contrib P docId = 0 := by
  have hfind : ts.postings.find? (·.docId = docId) = none := by
    rw [List.find?_eq_none]
    intro p hp
    simpa using h p hp
  simp [contrib, hfind]

/-- Either the term has no posting for the document, or the contribution is
that posting's score. -/
theorem Ready.contrib_cases (hr : ts.Ready P) (docId : Nat) :
    ((∀ p ∈ ts.postings, p.docId ≠ docId) ∧ ts.contrib P docId = 0) ∨
      ∃ p ∈ ts.postings, p.docId = docId ∧ ts.contrib P docId = ts.postingScore P p := by
  by_cases hex : ∃ p ∈ ts.postings, p.docId = docId
  · obtain ⟨p, hp, rfl⟩ := hex
    exact Or.inr ⟨p, hp, rfl, hr.contrib_of_mem hp⟩
  · push Not at hex
    exact Or.inl ⟨hex, contrib_of_forall_ne hex⟩

theorem Ready.contrib_nonneg (hr : ts.Ready P) (docId : Nat) : 0 ≤ ts.contrib P docId := by
  rcases hr.contrib_cases docId with ⟨-, h0⟩ | ⟨p, -, -, hp⟩
  · rw [h0]
  · rw [hp]
    exact hr.postingScore_nonneg p

theorem Ready.blockBound_nonneg (hr : ts.Ready P) (blk : Block) : 0 ≤ ts.blockBound P blk := by
  unfold blockBound
  rw [P.blockMax_eq_score]
  exact mul_nonneg (P.score_nonneg hr.idf_nonneg _ _) (Int.cast_nonneg hr.queryFreq_pos.le)

/-- A document is in one block only. -/
theorem Ready.docBound_of_mem (hr : ts.Ready P) {blk : Block} (hb : blk ∈ ts.blocks)
    {p : BlockPosting} (hp : p ∈ blk.postings) : ts.docBound P p.docId = ts.blockBound P blk := by
  have hfind : ts.blocks.find? (fun b => b.postings.any (·.docId = p.docId)) = some blk := by
    have hsorted := (List.pairwise_flatMap.1 hr.sorted).2
    revert hb hsorted
    induction ts.blocks with
    | nil => simp
    | cons b l ih =>
        intro hb hsorted
        rcases List.mem_cons.1 hb with rfl | hmem
        · have hany : (blk.postings.any (·.docId = p.docId)) = true :=
            List.any_eq_true.2 ⟨p, hp, by simp⟩
          simp only [List.find?_cons, hany]
        · have hany : (b.postings.any (·.docId = p.docId)) = false := by
            rw [List.any_eq_false]
            intro q hq heq
            have hlt := (List.pairwise_cons.1 hsorted).1 blk hmem q hq p hp
            rw [decide_eq_true_eq] at heq
            omega
          simp only [List.find?_cons, hany]
          exact ih hmem (List.pairwise_cons.1 hsorted).2
  simp [docBound, hfind]

theorem docBound_of_forall_ne {docId : Nat} (h : ∀ p ∈ ts.postings, p.docId ≠ docId) :
    ts.docBound P docId = 0 := by
  have hfind : ts.blocks.find? (fun b => b.postings.any (·.docId = docId)) = none := by
    rw [List.find?_eq_none]
    intro b hb hany
    obtain ⟨p, hp, heq⟩ := List.any_eq_true.1 hany
    exact h p (List.mem_flatMap.2 ⟨b, hb, hp⟩) (by simpa using heq)
  simp [docBound, hfind]

/-- Either the term has no posting for the document, or the bound is that of the
posting's block. -/
theorem Ready.docBound_cases (hr : ts.Ready P) (docId : Nat) :
    ((∀ p ∈ ts.postings, p.docId ≠ docId) ∧ ts.docBound P docId = 0) ∨
      ∃ blk ∈ ts.blocks, ∃ p ∈ blk.postings, p.docId = docId ∧
        ts.docBound P docId = ts.blockBound P blk := by
  by_cases hex : ∃ p ∈ ts.postings, p.docId = docId
  · obtain ⟨p, hp, rfl⟩ := hex
    obtain ⟨blk, hb, hpb⟩ := List.mem_flatMap.1 hp
    exact Or.inr ⟨blk, hb, p, hpb, rfl, hr.docBound_of_mem hb hpb⟩
  · push Not at hex
    exact Or.inl ⟨hex, docBound_of_forall_ne hex⟩

theorem Ready.docBound_nonneg (hr : ts.Ready P) (docId : Nat) : 0 ≤ ts.docBound P docId := by
  rcases hr.docBound_cases docId with ⟨-, h0⟩ | ⟨blk, -, -, -, -, hblk⟩
  · rw [h0]
  · rw [hblk]
    exact hr.blockBound_nonneg blk

/-- The global maximum dominates every bound of the term. -/
theorem Ready.docBound_le_maxScore (hr : ts.Ready P) (docId : Nat) :
    ts.docBound P docId ≤ ts.maxScore := by
  rcases hr.docBound_cases docId with ⟨-, h0⟩ | ⟨blk, hb, -, -, -, hblk⟩
  · rw [h0]
    exact hr.maxScore_nonneg
  · rw [hblk]
    exact hr.maxScore_ge blk hb

/-- A document the term scores is allowed something. -/
theorem Ready.docBound_pos (hr : ts.Ready P) {docId : Nat} (hpos : 0 < ts.contrib P docId) :
    0 < ts.docBound P docId := by
  rcases hr.contrib_cases docId with ⟨-, h0⟩ | ⟨p, hp, rfl, hcontrib⟩
  · rw [h0] at hpos
    exact absurd hpos (lt_irrefl 0)
  · obtain ⟨blk, hb, hpb⟩ := List.mem_flatMap.1 hp
    rw [hcontrib] at hpos
    obtain ⟨hidf, hfreq⟩ := hr.of_postingScore_pos hpos
    rw [hr.docBound_of_mem hb hpb]
    exact mul_pos (P.score_pos hidf _ (hr.positive blk hb p hpb hfreq))
      (Int.cast_pos.2 hr.queryFreq_pos)

/-- With sound block maxima the bound dominates the score. -/
theorem Ready.contrib_le_docBound (hr : ts.Ready P)
    (hsound : ∀ blk ∈ ts.blocks, BlockMaxSound P ts.idf blk) (docId : Nat) :
    ts.contrib P docId ≤ ts.docBound P docId := by
  rcases hr.contrib_cases docId with ⟨-, h0⟩ | ⟨p, hp, rfl, hcontrib⟩
  · rw [h0]
    exact hr.docBound_nonneg docId
  · obtain ⟨blk, hb, hpb⟩ := List.mem_flatMap.1 hp
    rw [hcontrib, hr.docBound_of_mem hb hpb]
    exact mul_le_mul_of_nonneg_right (hsound blk hb p hpb) (Int.cast_nonneg hr.queryFreq_pos.le)

theorem Ready.blockUpper_nonneg (hr : ts.Ready P) : 0 ≤ ts.blockUpper := by
  unfold blockUpper
  split_ifs with hdone hnone hlt
  · exact le_refl _
  · exact le_refl _
  · have hfound : ts.found = true := by
      by_contra hf
      exact hdone (by simp [hf])
    rw [(hr.positioned hfound).wf.blockCount_eq] at hlt
    have hblocks : ts.blocks = ts.iter.dictEntry.blocks := by simp [blocks, hfound]
    have hne : ts.blocks ≠ [] := by
      rw [hblocks]
      exact List.ne_nil_of_length_pos (by omega)
    simp only [blockMaxScore, hr.bounds hne, Option.getD_some, List.getD_eq_getElem?_getD,
      List.getElem?_map, hblocks, List.getElem?_eq_getElem hlt, Option.map_some]
    exact hr.blockBound_nonneg _
  · exact le_refl _

/-- The current block of an active cursor. -/
theorem Placed.exists_currentBlock (hr : ts.Placed) (hne : ts.rem ≠ []) :
    ts.found = true ∧ ts.iter.finished = false ∧
      ∃ blk, ts.blocks[ts.iter.currentBlock]? = some blk ∧
        ts.blockLastDocId ts.iter.currentBlock = blk.skip.lastDocId ∧
        ts.iter.currentBlock < ts.iter.dictEntry.blockCount ∧
        ts.blockLastDocIds.isSome = true ∧
        ts.currentDocId ≤ blk.skip.lastDocId ∧ blk.skip.lastDocId < uint32Max ∧
        ∀ p ∈ ts.rem, p.docId ≤ blk.skip.lastDocId → p ∈ blk.postings := by
  have hfound : ts.found = true := by
    by_contra hf
    exact hne (by simp [rem, hf])
  have hp := hr.positioned hfound
  have hfin : ts.iter.finished = false := by
    by_contra hf
    exact hne (by simp [rem, hfound, PostingIterator.rem_finished (by simpa using hf)])
  have hblocks : ts.blocks = ts.iter.dictEntry.blocks := by simp [blocks, hfound]
  obtain ⟨blk, hblk, -, -, hin⟩ := hp.cached hfin
  have hmem : blk ∈ ts.iter.dictEntry.blocks := List.mem_of_getElem? hblk
  have hlt : ts.iter.currentBlock < ts.iter.dictEntry.blocks.length := by
    by_contra hge
    rw [List.getElem?_eq_none (Nat.not_lt.1 hge)] at hblk
    cases hblk
  have hbne : ts.blocks ≠ [] := by
    rw [hblocks]
    exact List.ne_nil_of_mem hmem
  have hrem : ts.rem = blk.postings.drop ts.iter.currentInBlock ++
      (ts.iter.dictEntry.blocks.drop (ts.iter.currentBlock + 1)).flatMap Block.postings := by
    simp only [rem, hfound, if_true, PostingIterator.rem_eq hfin hblk hin.le]
  have hcount := hp.wf.blockCount_eq
  refine ⟨hfound, hfin, blk, by rw [hblocks]; exact hblk,
    hr.blockLastDocId_eq (by rw [hblocks]; exact hblk), by omega, by simp [hr.lasts hbne], ?_,
    hp.wf.lastDocId_lt hmem, ?_⟩
  · have hhead : blk.postings[ts.iter.currentInBlock] ∈ ts.rem := by
      rw [hrem, List.drop_eq_getElem_cons hin]
      exact List.mem_append_left _ List.mem_cons_self
    exact (hr.currentDocId_le_of_mem hhead).trans
      (hp.wf.le_lastDocId hmem (List.getElem_mem hin))
  · intro p hpm hle
    rw [hrem] at hpm
    rcases List.mem_append.1 hpm with hcur | hlater
    · exact List.mem_of_mem_drop hcur
    · -- a later block lies entirely behind the current block's last id
      exfalso
      obtain ⟨b, hb, hpb⟩ := List.mem_flatMap.1 hlater
      obtain ⟨i, hi, hbi⟩ := List.getElem_of_mem hb
      rw [List.length_drop] at hi
      have hidx : ts.iter.dictEntry.blocks[ts.iter.currentBlock + 1 + i]? = some b := by
        rw [← hbi, List.getElem_drop]
        exact List.getElem?_eq_getElem (by omega)
      obtain ⟨q, hq, hqeq⟩ := hp.wf.exists_last hmem
      have := hp.wf.lt_of_block_lt hblk hidx (by omega) hq hpb
      omega

/-- The block-max score that is added for the current block. -/
theorem Ready.blockUpper_eq (hr : ts.Ready P) (hne : ts.rem ≠ []) {blk : Block}
    (hblk : ts.blocks[ts.iter.currentBlock]? = some blk) :
    ts.blockUpper = ts.blockBound P blk := by
  obtain ⟨hfound, hfin, -, -, -, hlt, -⟩ := hr.exists_currentBlock hne
  have hbne : ts.blocks ≠ [] := List.ne_nil_of_mem (List.mem_of_getElem? hblk)
  simp [blockUpper, blockBound, hfound, hfin, hr.bounds hbne, hlt, blockMaxScore,
    List.getD_eq_getElem?_getD, List.getElem?_map, hblk]

/-- A document still to come inside the current block has that block's bound. -/
theorem Ready.docBound_eq_blockUpper (hr : ts.Ready P) {p : BlockPosting} (hp : p ∈ ts.rem)
    (hle : p.docId ≤ ts.blockLastDocId ts.iter.currentBlock) :
    ts.docBound P p.docId = ts.blockUpper := by
  obtain ⟨-, -, blk, hb, hlast, -, -, -, -, hin⟩ :=
    hr.exists_currentBlock (List.ne_nil_of_mem hp)
  rw [hlast] at hle
  rw [hr.blockUpper_eq (List.ne_nil_of_mem hp) hb]
  exact hr.docBound_of_mem (List.mem_of_getElem? hb) (hin p hp hle)

end TermState

/-! ## Initial cursors -/

/-- What initialisation leaves behind for a query term, sound skip entries or not. -/
structure Initialised [DecidableEq Term] (P : ScoreParams) (reader : SegmentReader Term)
    (ts : TermState Term) (r : Bool × TermState Term) : Prop where
  placed : r.2.Placed
  rem : r.2.rem = r.2.postings
  flag : r.1 = true ↔ r.2.rem ≠ []
  blocks : r.2.blocks = ((reader.findTerm ts.term).map DictEntry.blocks).getD []
  term : r.2.term = ts.term
  idf : r.2.idf = ts.idf
  queryFreq : r.2.queryFreq = ts.queryFreq
  bounds : r.2.blocks ≠ [] → r.2.blockMaxScores = some (r.2.blocks.map fun blk =>
    P.blockMax r.2.idf blk.skip.blockMaxTf blk.skip.blockMaxNorm)
  maxScore_ge : ∀ blk ∈ r.2.blocks,
    P.blockMax r.2.idf blk.skip.blockMaxTf blk.skip.blockMaxNorm * r.2.queryFreq ≤ r.2.maxScore

/-- **Initialisation** on a term whose entry is well formed: the cursor is placed and
everything is still to come. -/
theorem initTermState_initialised [DecidableEq Term] (P : ScoreParams)
    (reader : SegmentReader Term) (ts : TermState Term) (hqf : 0 ≤ ts.queryFreq)
    (hwf : ∀ e, reader.findTerm ts.term = some e → e.WellFormed) :
    Initialised P reader ts (initTermState P reader ts) := by
  cases hfind : reader.findTerm ts.term with
  | none =>
      have heq : initTermState P reader ts = (false, { ts with
          found := false
          maxScore := 0
          blockMaxScores := none
          blockLastDocIds := none
          iter := absentIterator }) := by
        simp [initTermState, tpSegmentPostingIteratorInit, hfind]
      rw [heq]
      refine ⟨⟨by simp, ?_, le_refl _⟩, ?_, ?_, ?_, rfl, rfl, rfl, ?_, ?_⟩ <;>
        simp [TermState.blocks, TermState.rem, TermState.postings, hfind]
  | some e =>
      have hwfe := hwf e hfind
      have hcount := hwfe.blockCount_eq
      have htake : e.blocks.take e.blockCount = e.blocks := List.take_of_length_le hcount.ge
      obtain ⟨r, hr⟩ : ∃ r, r = initTermState P reader ts := ⟨_, rfl⟩
      have hfound : r.2.found = true := by
        simp [hr, initTermState, tpSegmentPostingIteratorInit, hfind]
      have hdict : r.2.iter.dictEntry = e := by
        simp only [hr, initTermState, tpSegmentPostingIteratorInit, hfind,
          PostingIterator.loadBlock]
        split_ifs <;> rfl
      have hblocks : r.2.blocks = e.blocks := by simp [TermState.blocks, hfound, hdict]
      have hread : r.2.blocks = ((reader.findTerm ts.term).map DictEntry.blocks).getD [] := by
        rw [hblocks, hfind]
        rfl
      have htermr : r.2.term = ts.term := by
        simp [hr, initTermState, tpSegmentPostingIteratorInit, hfind]
      have hidfr : r.2.idf = ts.idf := by
        simp [hr, initTermState, tpSegmentPostingIteratorInit, hfind]
      have hqfr : r.2.queryFreq = ts.queryFreq := by
        simp [hr, initTermState, tpSegmentPostingIteratorInit, hfind]
      rw [← hr]
      cases hbl : e.blocks with
      | nil =>
          have h0 : e.blockCount = 0 := by rw [hcount, hbl]; rfl
          have hflag : r.1 = false := by
            simp [hr, initTermState, tpSegmentPostingIteratorInit, hfind,
              PostingIterator.loadBlock, h0]
          have hfin : r.2.iter.finished = true := by
            simp [hr, initTermState, tpSegmentPostingIteratorInit, hfind,
              PostingIterator.loadBlock, h0]
          have hinit : r.2.iter.initialized = true := by
            simp [hr, initTermState, tpSegmentPostingIteratorInit, hfind,
              PostingIterator.loadBlock, h0]
          have hmax : r.2.maxScore = 0 := by
            simp [hr, initTermState, tpSegmentPostingIteratorInit, hfind, h0]
          rw [hbl] at hblocks
          have hrem : r.2.rem = [] := by
            simp [TermState.rem, hfound, PostingIterator.rem_finished hfin]
          refine ⟨⟨fun _ => ⟨by rw [hdict]; exact hwfe, hinit, fun h => by rw [hfin] at h; cases h⟩,
            fun h => absurd hblocks h, by rw [hmax]⟩, ?_, ?_, hread, htermr, hidfr, hqfr,
            fun h => absurd hblocks h, ?_⟩
          · simp [hrem, TermState.postings, hblocks]
          · simp [hflag, hrem]
          · simp [hblocks]
      | cons blk rest =>
          have hpos : e.blockCount > 0 := by rw [hcount, hbl]; simp
          have hne0 : e.blockCount ≠ 0 := by omega
          have hiter : r.2.iter =
              { dictEntry := e
                currentBlock := 0
                currentInBlock := 0
                skipEntry := blk.skip
                blockPostings := some blk.postings
                initialized := true
                finished := false } := by
            simp [hr, initTermState, tpSegmentPostingIteratorInit, hfind,
              PostingIterator.loadBlock, hne0, hbl]
          have hflag : r.1 = true := by
            simp [hr, initTermState, tpSegmentPostingIteratorInit, hfind,
              PostingIterator.loadBlock, hne0]
          have hbounds : r.2.blockMaxScores = some (e.blocks.map fun blk =>
              P.blockMax ts.idf blk.skip.blockMaxTf blk.skip.blockMaxNorm) := by
            simp [hr, initTermState, tpSegmentPostingIteratorInit, hfind, hpos, htake,
              List.map_map, Function.comp_def]
          have hlasts : r.2.blockLastDocIds =
              some (e.blocks.map fun blk => blk.skip.lastDocId) := by
            simp [hr, initTermState, tpSegmentPostingIteratorInit, hfind, hpos, htake,
              List.map_map, Function.comp_def]
          have hmax : r.2.maxScore = (e.blocks.map fun blk =>
              P.blockMax ts.idf blk.skip.blockMaxTf blk.skip.blockMaxNorm).foldl
              (fun m s => if s > m then s else m) 0 * ts.queryFreq := by
            simp [hr, initTermState, tpSegmentPostingIteratorInit, hfind, hpos, htake,
              List.map_map, Function.comp_def]
          have hqf' : (0 : ℚ) ≤ ts.queryFreq := Int.cast_nonneg hqf
          obtain ⟨hm0, hmge, -⟩ := runningMax_spec (fun s : ℚ => s) (e.blocks.map fun blk =>
              P.blockMax ts.idf blk.skip.blockMaxTf blk.skip.blockMaxNorm) 0
          have hposn : r.2.iter.Positioned := by
            refine ⟨by rw [hdict]; exact hwfe, by rw [hiter], fun _ => ?_⟩
            rw [hiter]
            exact ⟨blk, by simp [hbl], rfl, rfl, List.length_pos_of_ne_nil
              (hwfe.block_ne_nil blk (by simp [hbl]))⟩
          have hrem : r.2.rem = e.postings := by
            simp [TermState.rem, hfound, PostingIterator.rem, hiter, DictEntry.postings]
          refine ⟨⟨fun _ => hposn, ?_, ?_⟩, ?_, ?_, hread, htermr, hidfr, hqfr, ?_, ?_⟩
          · intro _
            rw [hblocks]
            exact hlasts
          · rw [hmax]
            exact mul_nonneg hm0 hqf'
          · rw [hrem, TermState.postings, hblocks, DictEntry.postings]
          · rw [hflag]
            simp only [true_iff]
            exact fun h => hposn.rem_ne_nil (by rw [hiter])
              (by simpa [TermState.rem, hfound] using h)
          · intro _
            rw [hblocks, hidfr]
            exact hbounds
          · intro b hb
            rw [hblocks] at hb
            rw [hidfr, hqfr, hmax]
            exact mul_le_mul_of_nonneg_right (hmge _ (List.mem_map_of_mem hb)) hqf'

/-- On a term whose blocks have positive maxima, the cursor is ready. -/
theorem initTermState_spec [DecidableEq Term] (P : ScoreParams) (reader : SegmentReader Term)
    (ts : TermState Term) (hidf : 0 ≤ ts.idf) (hqf : 0 < ts.queryFreq)
    (hwf : ∀ e, reader.findTerm ts.term = some e → e.WellFormed)
    (hpos : ∀ e, reader.findTerm ts.term = some e → ∀ blk ∈ e.blocks, ∀ p ∈ blk.postings,
      0 < p.frequency → 0 < blk.skip.blockMaxTf) :
    (initTermState P reader ts).2.Ready P := by
  have h := initTermState_initialised P reader ts hqf.le hwf
  generalize initTermState P reader ts = r at h ⊢
  refine ⟨h.placed, ?_, ?_, h.bounds, h.maxScore_ge, ?_⟩
  · rw [h.idf]
    exact hidf
  · rw [h.queryFreq]
    exact hqf
  · rw [h.blocks]
    cases hfind : reader.findTerm ts.term with
    | none => exact fun blk hblk => (List.not_mem_nil hblk).elim
    | some e => exact hpos e hfind

end PgTextsearch.Query
