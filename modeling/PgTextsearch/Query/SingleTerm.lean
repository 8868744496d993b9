import Mathlib.Data.List.Sort
import Mathlib.Data.Prod.Lex
import PgTextsearch.Query.TenantFilter
import PgTextsearch.Query.TopKHeap
import PgTextsearch.Segment.BlockWriter

/-!
# Single-term Block-Max search (`query/bmw.c`)

`score_segment_single_term_bmw` walks the blocks of one term.  A block whose
maximum is below the heap's threshold is skipped; the postings of the others are
scored one by one and offered to the heap.

Over sound block maxima a skipped block changes nothing that scoring it would have
changed, so the search is one offer per posting in document order
(`search_eq_foldl`).  Offers
from one segment keep the largest entries by score and document id, and document
ids are in CTID order.

## Main results

* `scoreBlockLoop_eq`, `blockStep_cases` — the loops as offers of what the filter keeps.
* `search_rule` — what holds of every block holds of the search, sound maxima or not.
* `foldl_offerPosting_spec` — what a run of offers leaves in the heap.
* `scoreSegmentSingleTermBmw_topk` — the search returns the first `k` of the
  exhaustive ranking.
-/

namespace PgTextsearch.Query

open PgTextsearch.Postgres PgTextsearch.Segment PgTextsearch.Verified

variable {Term : Type}

/-! ## The search -/

/-- Every scored segment posting is added unless the heap dominates it. -/
def addUndominated (h : TopKHeap) (segBlock docId : Nat) (score : ℚ) : TopKHeap :=
  if !tpTopkDominated h score then tpTopkAddSegment h segBlock docId score else h

/-- The inner loop of `score_segment_single_term_bmw` over block `block`. -/
def scoreBlockLoop (P : ScoreParams) (reader : SegmentReader Term) (idf : ℚ)
    (tenantId minDocId maxDocId block : Nat) :
    Nat → TopKHeap × PostingIterator → TopKHeap × PostingIterator
  | 0, s => s
  | fuel + 1, (heap, it) =>
      match it.next with
      | (none, it) => (heap, it)
      | (some posting, it) =>
          -- the iterator has advanced to the next block on its own
          if it.currentBlock ≠ block then (heap, it)
          else if posting.docId > maxDocId then (heap, it)
          else if posting.docId < minDocId then
            scoreBlockLoop P reader idf tenantId minDocId maxDocId block fuel (heap, it)
          else if tenantId ≠ 0 ∧ maxDocId = uint32Max ∧
              tpSegmentGetTenantId reader posting.docId ≠ tenantId then
            scoreBlockLoop P reader idf tenantId minDocId maxDocId block fuel (heap, it)
          else
            let score := P.score idf posting.frequency posting.docLength
            scoreBlockLoop P reader idf tenantId minDocId maxDocId block fuel
              (addUndominated heap reader.rootBlock posting.docId score, it)

/-- One iteration of the loop over the blocks. -/
def blockStep (P : ScoreParams) (reader : SegmentReader Term) (idf : ℚ)
    (tenantId minDocId maxDocId : Nat) (s : TopKHeap × PostingIterator) (block : Nat) :
    TopKHeap × PostingIterator :=
  let skip := (s.2.dictEntry.blocks.getD block default).skip
  if skip.lastDocId < minDocId then s
  else if P.blockMax idf skip.blockMaxTf skip.blockMaxNorm < tpTopkThreshold s.1 then s
  -- only the low 16 bits are stored, so a mismatch is conclusive and a match is not
  else if tenantId ≠ 0 ∧ skip.tenantMode = .single ∧ skip.tenantIdLow ≠ tenantId % 65536 then s
  else
    scoreBlockLoop P reader idf tenantId minDocId maxDocId block (skip.docCount + 1)
      (s.1, ({ s.2 with currentBlock := block, finished := false } : PostingIterator).loadBlock.2)

/-- `score_segment_single_term_bmw`. -/
def scoreSegmentSingleTermBmw [DecidableEq Term] (P : ScoreParams) (reader : SegmentReader Term)
    (heap : TopKHeap) (term : Term) (idf : ℚ) (tenantId minDocId maxDocId : Nat) : TopKHeap :=
  match tpSegmentPostingIteratorInit reader term with
  | none => heap
  | some it =>
      ((List.range it.dictEntry.blockCount).foldl
        (blockStep P reader idf tenantId minDocId maxDocId) (heap, it)).1

/-! ## The search as offers -/

/-- The score of a posting in this search, which sees the output format with its
16-bit document length. -/
def singleTermScore (P : ScoreParams) (idf : ℚ) (p : BlockPosting) : ℚ :=
  P.score idf p.output.frequency p.output.docLength

/-- Offer one posting of a segment. -/
def offerPosting (P : ScoreParams) (segBlock : Nat) (idf : ℚ) (h : TopKHeap) (p : BlockPosting) :
    TopKHeap :=
  addUndominated h segBlock p.docId (singleTermScore P idf p)

/-- The stored block maxima bound the scores of the term's postings. -/
def BlockMaximaSound (P : ScoreParams) (idf : ℚ) (e : DictEntry) : Prop :=
  ∀ blk ∈ e.blocks, ∀ p ∈ blk.postings,
    singleTermScore P idf p ≤ P.blockMax idf blk.skip.blockMaxTf blk.skip.blockMaxNorm

theorem addUndominated_eq_offer (h : TopKHeap) (segBlock docId : Nat) (score : ℚ) :
    addUndominated h segBlock docId score =
      offer h (segmentEntry segBlock docId score) (heapBeatsRoot h score none docId) := by
  by_cases hdom : tpTopkDominated h score = true
  · simp [addUndominated, offer, segmentEntry, hdom]
  · simp [addUndominated, offer, segmentEntry, tpTopkAddSegment, hdom]

/-- The postings of the documents a filter keeps. -/
def keptPostings (f : DocFilter Term) (ps : List BlockPosting) : List BlockPosting :=
  ps.filter fun p => decide (f.Keeps p.docId)

theorem keptPostings_eq_nil {f : DocFilter Term} {ps : List BlockPosting}
    (h : ∀ p ∈ ps, ¬ f.Keeps p.docId) : keptPostings f ps = [] := by
  rw [keptPostings, List.filter_eq_nil_iff]
  intro p hp
  simpa using h p hp

/-- Without a tenant nothing is left out. -/
theorem keptPostings_unfiltered {reader : SegmentReader Term} {ps : List BlockPosting}
    (h : ∀ p ∈ ps, p.docId < uint32Max) :
    keptPostings (DocFilter.unfiltered reader) ps = ps := by
  rw [keptPostings, List.filter_eq_self]
  exact fun p hp => decide_eq_true (DocFilter.keeps_unfiltered.2 (h p hp).le)

section Search

variable [DecidableEq Term] (P : ScoreParams) {f : DocFilter Term} (hf : f.Sound) {idf : ℚ}

include hf

/-- The inner loop offers what the filter keeps of the rest of the block. -/
theorem scoreBlockLoop_eq (idf : ℚ) {blk : Block} (fuel : Nat) (heap : TopKHeap)
    {it : PostingIterator} (hl : it.Loaded blk)
    (hfuel : blk.postings.length - it.currentInBlock < fuel) :
    (scoreBlockLoop P f.reader idf f.tenantId f.minDocId f.maxDocId it.currentBlock fuel
        (heap, it)).1 =
      (keptPostings f (blk.postings.drop it.currentInBlock)).foldl
        (offerPosting P f.reader.rootBlock idf) heap ∧
      (scoreBlockLoop P f.reader idf f.tenantId f.minDocId f.maxDocId it.currentBlock fuel
        (heap, it)).2.dictEntry = it.dictEntry ∧
      (scoreBlockLoop P f.reader idf f.tenantId f.minDocId f.maxDocId it.currentBlock fuel
        (heap, it)).2.initialized = true := by
  induction fuel generalizing heap it with
  | zero => omega
  | succ fuel ih =>
      by_cases hlt : it.currentInBlock < blk.postings.length
      · obtain ⟨p, hp⟩ : ∃ p, p = blk.postings[it.currentInBlock] := ⟨_, rfl⟩
        have hdrop : blk.postings.drop it.currentInBlock =
            p :: blk.postings.drop (it.currentInBlock + 1) := by
          rw [hp]
          exact List.drop_eq_getElem_cons hlt
        have hl' : ({ it with currentInBlock := it.currentInBlock + 1 }
            : PostingIterator).Loaded blk :=
          ⟨hl.wf, hl.initialized, hl.finished, hl.block, hl.skip, hl.postings, hlt⟩
        have hnext := hl.next_of_lt hlt
        rw [← hp] at hnext
        have hrest : ∀ heap', _ := fun heap' => ih heap' hl' (by simp only; omega)
        simp only [scoreBlockLoop, hnext, ne_eq, not_true_eq_false, if_false,
          BlockPosting.output]
        by_cases hmax : p.docId > f.maxDocId
        · -- the rest of the block is behind the range
          have hnone : keptPostings f (blk.postings.drop it.currentInBlock) = [] := by
            apply keptPostings_eq_nil
            have hsorted := ((List.pairwise_flatMap.1 hl.wf.sorted).1 blk
              (List.mem_of_getElem? hl.block)).sublist (List.drop_sublist it.currentInBlock _)
            rw [hdrop] at hsorted ⊢
            intro q hq hkeep
            have := hkeep.2.1
            cases List.mem_cons.1 hq with
            | inl heq =>
                rw [heq] at this
                omega
            | inr hin =>
                have := (List.pairwise_cons.1 hsorted).1 q hin
                omega
          simp only [if_pos hmax, hnone, List.foldl_nil]
          exact ⟨trivial, trivial, hl.initialized⟩
        · rw [if_neg hmax]
          by_cases hmin : p.docId < f.minDocId
          · have hskip : ¬ f.Keeps p.docId := fun hkeep => absurd hkeep.1 (Nat.not_le.2 hmin)
            rw [if_pos hmin, hdrop, keptPostings, List.filter_cons_of_neg (by simpa using hskip)]
            exact hrest heap
          · rw [if_neg hmin]
            have hkeeps := hf.keeps_iff (Nat.not_lt.1 hmin) (Nat.not_lt.1 hmax)
            by_cases hkeep : f.Keeps p.docId
            · rw [if_neg (hkeeps.1 hkeep), hdrop, keptPostings,
                List.filter_cons_of_pos (by simpa using hkeep), List.foldl_cons]
              exact hrest (offerPosting P f.reader.rootBlock idf heap p)
            · rw [if_pos (not_not.1 (mt hkeeps.2 hkeep)), hdrop, keptPostings,
                List.filter_cons_of_neg (by simpa using hkeep)]
              exact hrest heap
      · have hend : it.currentInBlock = blk.postings.length :=
          le_antisymm hl.inBlock (Nat.not_lt.1 hlt)
        rw [List.drop_eq_nil_of_le hend.ge]
        simp only [keptPostings, List.filter_nil, List.foldl_nil]
        rcases hl.next_of_end hend with ⟨-, hnext⟩ | ⟨blk', it', hblk', hl', hd', hb', hi', hnext⟩
        · simp [scoreBlockLoop, hnext, hl.initialized]
        · -- the iterator went on to the next block, which ends the loop
          have hpos : 0 < blk'.postings.length := List.length_pos_of_ne_nil
            (hl.wf.block_ne_nil blk' (List.mem_of_getElem? hblk'))
          rw [hl'.next_of_lt (by omega)] at hnext
          have hne : it'.currentBlock ≠ it.currentBlock := by omega
          simp [scoreBlockLoop, hnext, hne, hd', hl'.initialized]

omit [DecidableEq Term] hf in
/-- Offering postings that the heap dominates changes nothing. -/
theorem foldl_offerPosting_of_dominated {heap : TopKHeap} {ps : List BlockPosting}
    (hdom : ∀ p ∈ ps, tpTopkDominated heap (singleTermScore P idf p) = true) (segBlock : Nat) :
    ps.foldl (offerPosting P segBlock idf) heap = heap := by
  induction ps with
  | nil => rfl
  | cons p ps ih =>
      have hp : offerPosting P segBlock idf heap p = heap := by
        simp [offerPosting, addUndominated, hdom p List.mem_cons_self]
      rw [List.foldl_cons, hp]
      exact ih fun q hq => hdom q (List.mem_cons_of_mem _ hq)

/-- A block is skipped when its maximum is below the threshold or when the filter keeps
none of it; the kept postings of any other block are offered. -/
theorem blockStep_cases {heap : TopKHeap} {it : PostingIterator}
    (hwf : it.dictEntry.WellFormed) (hinit : it.initialized = true) {i : Nat} {blk : Block}
    (hblk : it.dictEntry.blocks[i]? = some blk) (hbytes : f.BytesSound blk) :
    (blockStep P f.reader idf f.tenantId f.minDocId f.maxDocId (heap, it) i = (heap, it) ∧
        (P.blockMax idf blk.skip.blockMaxTf blk.skip.blockMaxNorm < tpTopkThreshold heap ∨
          keptPostings f blk.postings = [])) ∨
      (blockStep P f.reader idf f.tenantId f.minDocId f.maxDocId (heap, it) i).1 =
          (keptPostings f blk.postings).foldl (offerPosting P f.reader.rootBlock idf) heap ∧
        (blockStep P f.reader idf f.tenantId f.minDocId f.maxDocId (heap, it) i).2.dictEntry =
          it.dictEntry ∧
        (blockStep P f.reader idf f.tenantId f.minDocId f.maxDocId (heap, it) i).2.initialized =
          true := by
  have hmem := List.mem_of_getElem? hblk
  have hget : it.dictEntry.blocks.getD i default = blk := by
    rw [List.getD_eq_getElem?_getD, hblk]
    rfl
  simp only [blockStep, hget]
  split
  case isTrue hbefore =>
    refine Or.inl ⟨rfl, Or.inr (keptPostings_eq_nil fun p hp hkeep => ?_)⟩
    have := hwf.le_lastDocId hmem hp
    have := hkeep.1
    omega
  case isFalse =>
    split
    case isTrue hbelow => exact Or.inl ⟨rfl, Or.inl hbelow⟩
    case isFalse =>
      split
      case isTrue hforeign =>
        exact Or.inl ⟨rfl, Or.inr (keptPostings_eq_nil fun p hp =>
          hbytes.not_keeps hforeign.1 hforeign.2.1 hforeign.2.2 hp)⟩
      case isFalse =>
        obtain ⟨-, hl, hd, hb, hi⟩ := @PostingIterator.loaded_loadBlock
          { it with currentBlock := i, finished := false } blk hwf hinit rfl hblk
        have hloop := scoreBlockLoop_eq P hf idf (blk.skip.docCount + 1) heap hl
          (by rw [hwf.docCount_eq blk hmem]; omega)
        rw [hb, hi, List.drop_zero, hd] at hloop
        exact Or.inr hloop

/-- **The search as a rule.**  A relation between heaps that holds for a skipped block
and for one whose kept postings are offered, and that composes, holds for the whole
search. -/
theorem search_rule {R : TopKHeap → List BlockPosting → TopKHeap → Prop}
    {term : Term} {e : DictEntry} (hfind : f.reader.findTerm term = some e) (hwf : e.WellFormed)
    (hnil : ∀ h, R h [] h)
    (happend : ∀ h₁ ps h₂ qs h₃, R h₁ ps h₂ → R h₂ qs h₃ → R h₁ (ps ++ qs) h₃)
    (hskip : ∀ h, ∀ blk ∈ e.blocks,
      P.blockMax idf blk.skip.blockMaxTf blk.skip.blockMaxNorm < tpTopkThreshold h →
      R h (keptPostings f blk.postings) h)
    (hscan : ∀ h, ∀ blk ∈ e.blocks, R h (keptPostings f blk.postings)
      ((keptPostings f blk.postings).foldl (offerPosting P f.reader.rootBlock idf) h))
    (heap : TopKHeap) :
    R heap (keptPostings f e.postings)
      (scoreSegmentSingleTermBmw P f.reader heap term idf f.tenantId f.minDocId f.maxDocId) := by
  have hrun : ∀ n ≤ e.blocks.length, ∀ it : PostingIterator, it.dictEntry = e →
      it.initialized = true → ∀ s, s = (List.range n).foldl
        (blockStep P f.reader idf f.tenantId f.minDocId f.maxDocId) (heap, it) →
      R heap (keptPostings f ((e.blocks.take n).flatMap Block.postings)) s.1 ∧
        s.2.dictEntry = e ∧ s.2.initialized = true := by
    intro n hn it hd hinit
    induction n with
    | zero =>
        rintro s rfl
        exact ⟨hnil heap, hd, hinit⟩
    | succ n ih =>
        rintro s' rfl
        obtain ⟨s, hs⟩ : ∃ s, s = (List.range n).foldl
          (blockStep P f.reader idf f.tenantId f.minDocId f.maxDocId) (heap, it) := ⟨_, rfl⟩
        obtain ⟨h1, h2, h3⟩ := ih (by omega) s hs
        have hblk : s.2.dictEntry.blocks[n]? = some e.blocks[n] := by
          rw [h2]
          exact List.getElem?_eq_getElem hn
        have hmem : e.blocks[n] ∈ e.blocks := List.getElem_mem hn
        rw [List.range_succ, List.foldl_append, List.foldl_cons, List.foldl_nil, ← hs,
          List.take_add_one, List.getElem?_eq_getElem hn, List.flatMap_append]
        simp only [Option.toList_some, List.flatMap_cons, List.flatMap_nil, List.append_nil]
        rw [keptPostings, List.filter_append]
        rcases @blockStep_cases _ _ P f hf idf s.1 s.2 (by rw [h2]; exact hwf) h3 n _ hblk
          (hf.bytes term e hfind _ hmem) with ⟨hstep, hcase⟩ | ⟨hheap, hdict, hini⟩
        · rw [hstep]
          refine ⟨happend _ _ _ _ _ h1 ?_, h2, h3⟩
          cases hcase with
          | inl hbelow => exact hskip s.1 _ hmem hbelow
          | inr hnone =>
              rw [keptPostings] at hnone
              rw [hnone]
              exact hnil s.1
        · rw [hheap, hdict, hini]
          exact ⟨happend _ _ _ _ _ h1 (hscan s.1 _ hmem), h2, rfl⟩
  obtain ⟨it, hinit, hdict, hini⟩ : ∃ it, tpSegmentPostingIteratorInit f.reader term = some it ∧
      it.dictEntry = e ∧ it.initialized = true := by
    simp [tpSegmentPostingIteratorInit, hfind]
  have hall := (hrun _ (le_refl _) it hdict hini _ rfl).1
  rw [List.take_length] at hall
  simp only [scoreSegmentSingleTermBmw, hinit]
  rw [hdict, hwf.blockCount_eq]
  exact hall

omit hf in
/-- **The whole search** without a tenant is one offer per posting, in document order. -/
theorem search_eq_foldl {reader : SegmentReader Term} (hidf : 0 ≤ idf) (heap : TopKHeap)
    {term : Term} {e : DictEntry} (hfind : reader.findTerm term = some e) (hwf : e.WellFormed)
    (hsound : BlockMaximaSound P idf e) :
    scoreSegmentSingleTermBmw P reader heap term idf 0 0 uint32Max =
      e.postings.foldl (offerPosting P reader.rootBlock idf) heap := by
  have hrule := search_rule P (DocFilter.sound_unfiltered reader)
    (R := fun h ps h' => h' = ps.foldl (offerPosting P reader.rootBlock idf) h)
    hfind hwf (fun _ => rfl) ?_ ?_ (fun _ _ _ => rfl) heap
  · have hkept : keptPostings (DocFilter.unfiltered reader) e.postings = e.postings :=
      keptPostings_unfiltered hwf.docId_lt
    rw [hkept] at hrule
    exact hrule
  · intro h₁ ps h₂ qs h₃ h12 h23
    rw [h23, h12, List.foldl_append]
  · intro h blk hmem hbelow
    have hmax : 0 ≤ P.blockMax idf blk.skip.blockMaxTf blk.skip.blockMaxNorm := by
      rw [P.blockMax_eq_score]
      exact P.score_nonneg hidf _ _
    refine (foldl_offerPosting_of_dominated P ?_ _).symm
    intro p hp
    -- a threshold above a nonnegative maximum is the root score of a full heap
    unfold tpTopkThreshold at hbelow
    split_ifs at hbelow with hfull
    · have hbound := hsound blk hmem p (List.mem_of_mem_filter hp)
      exact decide_eq_true ⟨hfull, lt_of_le_of_lt hbound hbelow⟩
    · exact absurd hbelow (not_lt.2 hmax)

end Search

variable (P : ScoreParams) (reader : SegmentReader Term) {idf : ℚ}

/-! ## What a run of offers keeps -/

/-- Segment entries rank by score, then by the lower document id. -/
def segmentKey (e : HeapEntry) : ℚ ×ₗ ℕᵒᵈ := toLex (e.score, OrderDual.toDual e.docId)

theorem segmentKey_le_iff (a b : HeapEntry) :
    segmentKey a ≤ segmentKey b ↔
      a.score < b.score ∨ a.score = b.score ∧ b.docId ≤ a.docId := by
  unfold segmentKey
  rw [Prod.Lex.toLex_le_toLex]
  rfl

theorem refinesScore_segmentKey : RefinesScore segmentKey := by
  intro a b hab
  rcases (segmentKey_le_iff a b).1 hab with hlt | ⟨heq, -⟩
  · exact hlt.le
  · exact heq.le

/-- Entries of one segment, with their CTIDs still unresolved. -/
def AllFrom (segBlock : Nat) (l : List HeapEntry) : Prop :=
  ∀ e ∈ l, e = segmentEntry segBlock e.docId e.score

/-- Between entries of one segment `heap_less` is the key order. -/
theorem heapLess_respects_segmentKey {segBlock : Nat} {l : List HeapEntry}
    (hl : AllFrom segBlock l) : MinHeap.Respects heapLess segmentKey l := by
  intro a ha b hb
  have hinvalid : a.ctid.isValid = false := by
    rw [hl a ha]
    exact ItemPointer.isValid_invalid
  have hseg : a.segBlock = b.segBlock := by
    rw [hl a ha, hl b hb]
    rfl
  rw [segmentKey_le_iff, segmentKey_le_iff]
  unfold heapLess
  rw [hinvalid, hseg]
  rcases lt_trichotomy a.score b.score with hlt | heq | hgt
  · simp [hlt]
  · by_cases hdoc : a.docId = b.docId
    · simp [heq, hdoc]
    · simp only [heq, lt_irrefl, if_false, gt_iff_lt, Bool.false_and, Bool.false_eq_true, hdoc,
        ne_eq, not_false_eq_true, if_true, decide_eq_true_eq, decide_eq_false_iff_not, false_or,
        true_and]
      omega
  · simp [hgt, not_lt.2 hgt.le]

/-- Beating an unresolved root: a better score, or the same with a lower id. -/
theorem heapBeatsRoot_segment {h : TopKHeap} (hroot : h.root.ctid.isValid = false) (score : ℚ)
    (docId : Nat) : heapBeatsRoot h score none docId = true ↔
      h.root.score < score ∨ h.root.score = score ∧ docId < h.root.docId := by
  unfold heapBeatsRoot
  rcases lt_trichotomy h.root.score score with hlt | heq | hgt
  · simp [hlt]
  · simp [heq, hroot]
  · simp [hgt, not_lt.2 hgt.le, hgt.ne']

/-- Between entries of one segment beating the root is the key order. -/
theorem admits_segmentKey {segBlock : Nat} {h : TopKHeap} (hv : h.Valid segmentKey)
    (hl : AllFrom segBlock h.entries) (docId : Nat) (score : ℚ) :
    Admits segmentKey h (segmentEntry segBlock docId score)
      (heapBeatsRoot h score none docId) := by
  have hroot : h.Full → h.root.ctid.isValid = false := by
    intro hfull
    rw [hl _ (hv.root_mem hfull)]
    exact ItemPointer.isValid_invalid
  constructor
  · apply heapLess_respects_segmentKey
    intro e he
    rcases List.mem_cons.1 he with rfl | hmem
    · rfl
    · exact hl e hmem
  · intro hfull hb
    rw [segmentKey_le_iff]
    rcases (heapBeatsRoot_segment (hroot hfull) score docId).1 hb with hlt | ⟨heq, hdoc⟩
    · exact Or.inl hlt
    · exact Or.inr ⟨heq, hdoc.le⟩
  · intro hfull hb
    have hnot : ¬ (h.root.score < score ∨ h.root.score = score ∧ docId < h.root.docId) := by
      rw [← heapBeatsRoot_segment (hroot hfull), hb]
      exact Bool.false_ne_true
    push Not at hnot
    rw [segmentKey_le_iff]
    rcases hnot.1.lt_or_eq with hlt | heq
    · exact Or.inl hlt
    · exact Or.inr ⟨heq, hnot.2 heq.symm⟩

/-- The key a posting is ranked by. -/
def postingKey (P : ScoreParams) (idf : ℚ) (p : BlockPosting) : ℚ ×ₗ ℕᵒᵈ :=
  toLex (singleTermScore P idf p, OrderDual.toDual p.docId)

/-- **A run of offers** keeps the largest keys. -/
theorem foldl_offerPosting_spec (idf : ℚ) (segBlock : Nat) (ps : List BlockPosting) {h : TopKHeap}
    (hv : h.Valid segmentKey) (hl : AllFrom segBlock h.entries) :
    (ps.foldl (offerPosting P segBlock idf) h).Valid segmentKey ∧
      AllFrom segBlock (ps.foldl (offerPosting P segBlock idf) h).entries ∧
      (ps.foldl (offerPosting P segBlock idf) h).keys segmentKey =
        kLargest h.capacity
          (h.keys segmentKey + (ps : Multiset BlockPosting).map (postingKey P idf)) := by
  induction ps generalizing h with
  | nil =>
      refine ⟨hv, hl, ?_⟩
      have hcard : Multiset.card (h.keys segmentKey) ≤ h.capacity := by
        simpa [TopKHeap.keys] using hv.size_le
      simp [kLargest_of_card_le hcard]
  | cons p ps ih =>
      obtain ⟨h', hh'⟩ : ∃ h', h' = offerPosting P segBlock idf h p := ⟨_, rfl⟩
      have heq : h' = offer h (segmentEntry segBlock p.docId (singleTermScore P idf p))
          (heapBeatsRoot h (singleTermScore P idf p) none p.docId) := by
        rw [hh']
        exact addUndominated_eq_offer _ _ _ _
      obtain ⟨hv', hkeys, hent⟩ := offer_spec refinesScore_segmentKey hv
        (admits_segmentKey hv hl p.docId (singleTermScore P idf p))
      have hcap : h'.capacity = h.capacity := by rw [heq, offer_capacity]
      rw [← heq] at hv' hkeys hent
      have hl' : AllFrom segBlock h'.entries := by
        intro e he
        rcases Multiset.mem_cons.1 (Multiset.mem_of_le hent (Multiset.mem_coe.2 he)) with rfl | hold
        · rfl
        · exact hl e (Multiset.mem_coe.1 hold)
      obtain ⟨h1, h2, h3⟩ := ih hv' hl'
      rw [List.foldl_cons, ← hh']
      refine ⟨h1, h2, ?_⟩
      rw [h3, hkeys, hcap, kLargest_kLargest_add, ← Multiset.cons_coe, Multiset.map_cons,
        Multiset.cons_add, Multiset.add_cons]
      rfl

/-! ## The exhaustive ranking -/

/-- Result order: score descending, then CTID ascending. -/
def RanksBefore (a b : ItemPointer × ℚ) : Prop := b.2 < a.2 ∨ a.2 = b.2 ∧ a.1 ≤ b.1

instance (a b : ItemPointer × ℚ) : Decidable (RanksBefore a b) :=
  inferInstanceAs (Decidable (_ ∨ _))

theorem RanksBefore.antisymm {a b : ItemPointer × ℚ} (hab : RanksBefore a b)
    (hba : RanksBefore b a) : a = b := by
  rcases hab with hlt | ⟨heq, hle⟩
  · rcases hba with hlt' | ⟨heq', -⟩
    · exact absurd hlt (not_lt.2 hlt'.le)
    · exact absurd heq' hlt.ne
  · rcases hba with hlt' | ⟨-, hle'⟩
    · exact absurd heq hlt'.ne
    · exact Prod.ext (le_antisymm hle hle') heq

theorem RanksBefore.trans {a b c : ItemPointer × ℚ} (hab : RanksBefore a b)
    (hbc : RanksBefore b c) : RanksBefore a c := by
  rcases hab with hlt | ⟨heq, hle⟩
  · rcases hbc with hlt' | ⟨heq', -⟩
    · exact Or.inl (hlt'.trans hlt)
    · exact Or.inl (heq' ▸ hlt)
  · rcases hbc with hlt' | ⟨heq', hle'⟩
    · exact Or.inl (heq ▸ hlt')
    · exact Or.inr ⟨heq.trans heq', hle.trans hle'⟩

theorem RanksBefore.total (a b : ItemPointer × ℚ) : RanksBefore a b ∨ RanksBefore b a := by
  rcases lt_trichotomy a.2 b.2 with hlt | heq | hgt
  · exact Or.inr (Or.inl hlt)
  · rcases le_total a.1 b.1 with hle | hle
    · exact Or.inl (Or.inr ⟨heq, hle⟩)
    · exact Or.inr (Or.inr ⟨heq.symm, hle⟩)
  · exact Or.inl (Or.inl hgt)

/-- `compare_heap_entries` is the result order on resolved entries. -/
theorem compareHeapEntries_nonpos_iff (a b : HeapEntry) :
    compareHeapEntries a b ≤ 0 ↔ RanksBefore (a.ctid, a.score) (b.ctid, b.score) := by
  unfold compareHeapEntries RanksBefore
  rcases lt_trichotomy a.score b.score with hlt | heq | hgt
  · simp [hlt, not_lt.2 hlt.le, hlt.ne]
  · simp [heq, ItemPointer.compare_nonpos_iff]
  · simp [hgt]

theorem compareHeapEntries_isComparator : IsComparator compareHeapEntries where
  total := by
    intro a b
    simp only [compareHeapEntries_nonpos_iff]
    exact RanksBefore.total _ _
  trans := by
    intro a b c
    simp only [compareHeapEntries_nonpos_iff]
    exact RanksBefore.trans

/-- All results put in order, however many there are. -/
def ranking (results : List (ItemPointer × ℚ)) : List (ItemPointer × ℚ) :=
  results.mergeSort fun a b => decide (RanksBefore a b)

theorem ranking_spec (results : List (ItemPointer × ℚ)) :
    (ranking results).Pairwise RanksBefore ∧ (ranking results).Perm results := by
  have hmerge := @List.pairwise_mergeSort _ (fun a b => decide (RanksBefore a b))
    (fun a b c hab hbc => decide_eq_true
      ((of_decide_eq_true hab).trans (of_decide_eq_true hbc)))
    (fun a b => by simpa using RanksBefore.total a b) results
  exact ⟨hmerge.imp fun h => of_decide_eq_true h, List.mergeSort_perm _ _⟩

/-- A list in result order is the ranking of its elements. -/
theorem eq_ranking {l results : List (ItemPointer × ℚ)} (hperm : l.Perm results)
    (hsorted : l.Pairwise RanksBefore) : l = ranking results := by
  obtain ⟨hranking, hall⟩ := ranking_spec results
  exact List.Perm.eq_of_pairwise (fun a b _ _ => RanksBefore.antisymm) hsorted hranking
    (hperm.trans hall.symm)

/-! ## Correctness -/

section Correct

variable [DecidableEq Term]

/-- All postings of a term with their CTIDs and scores. -/
def termResults (P : ScoreParams) (reader : SegmentReader Term) (term : Term) (idf : ℚ) :
    List (ItemPointer × ℚ) :=
  match reader.findTerm term with
  | none => []
  | some e => e.postings.map fun p =>
      (tpSegmentLookupCtid reader p.docId, singleTermScore P idf p)

/-- What the single-term search expects of the segment: it can be reopened at its
root block, document ids are in CTID order, and the term's entry is well formed
with sound block maxima. -/
structure TermSearchable (P : ScoreParams) (openSegment : Nat → Option (SegmentReader Term))
    (reader : SegmentReader Term) (term : Term) (idf : ℚ) : Prop where
  idf_nonneg : 0 ≤ idf
  root_valid : reader.rootBlock ≠ invalidBlockNumber
  reopens : openSegment reader.rootBlock = some reader
  ctid_order : reader.ctids.Pairwise (· < ·)
  wellFormed : ∀ e, reader.findTerm term = some e → e.WellFormed
  docId_lt : ∀ e, reader.findTerm term = some e → ∀ p ∈ e.postings,
    p.docId < reader.ctids.length
  sound : ∀ e, reader.findTerm term = some e → BlockMaximaSound P idf e

/-- The result a key stands for. -/
def keyResult (reader : SegmentReader Term) (x : ℚ ×ₗ ℕᵒᵈ) : ItemPointer × ℚ :=
  (tpSegmentLookupCtid reader (OrderDual.ofDual (ofLex x).2), (ofLex x).1)

omit [DecidableEq Term] in
/-- Larger keys are earlier results, since document ids are in CTID order. -/
theorem ranksBefore_keyResult (hctids : reader.ctids.Pairwise (· < ·)) {x y : ℚ ×ₗ ℕᵒᵈ}
    (hy : OrderDual.ofDual (ofLex y).2 < reader.ctids.length) (hxy : y ≤ x) :
    RanksBefore (keyResult reader x) (keyResult reader y) := by
  rcases Prod.Lex.le_iff.1 hxy with hlt | ⟨heq, hle⟩
  · exact Or.inl hlt
  · refine Or.inr ⟨heq.symm, ?_⟩
    have hle' : OrderDual.ofDual (ofLex x).2 ≤ OrderDual.ofDual (ofLex y).2 := hle
    unfold keyResult tpSegmentLookupCtid
    rw [List.getD_eq_getElem _ _ (lt_of_le_of_lt hle' hy), List.getD_eq_getElem _ _ hy]
    rcases Nat.eq_or_lt_of_le hle' with hd | hd
    · simp [hd]
    · exact (List.pairwise_iff_getElem.1 hctids _ _ _ _ hd).le

omit [DecidableEq Term] in
/-- Resolving and extracting entries of one segment: their results in order. -/
theorem extract_resolved (qs : Qsort) {openSegment : Nat → Option (SegmentReader Term)}
    (hroot : reader.rootBlock ≠ invalidBlockNumber)
    (hopen : openSegment reader.rootBlock = some reader) {h : TopKHeap}
    (hl : AllFrom reader.rootBlock h.entries) :
    tpTopkExtract qs (tpTopkResolveCtids openSegment h) =
      ranking ((h.entries.map segmentKey).map (keyResult reader)) := by
  have hresolved : ((tpTopkResolveCtids openSegment h).entries.map
      fun e => (e.ctid, e.score)) = (h.entries.map segmentKey).map (keyResult reader) := by
    simp only [tpTopkResolveCtids, List.map_map]
    apply List.map_congr_left
    intro e he
    have hseg : e.segBlock = reader.rootBlock := by
      rw [hl e he]
      rfl
    simp only [Function.comp_apply, hseg, if_neg hroot, hopen]
    rfl
  apply eq_ranking
  · rw [← hresolved]
    exact (qs.perm _ _).map _
  · unfold tpTopkExtract
    rw [List.pairwise_map]
    refine (qs.sorted _ _ compareHeapEntries_isComparator).imp ?_
    intro a b hab
    exact (compareHeapEntries_nonpos_iff a b).1 hab

end Correct

/-! ### Three postings with one score -/

/-- Postings of frequency one and one length, so that all scores tie. -/
private def tiedPosting (docId : Nat) : BlockPosting := ⟨docId, 1, 7⟩

/-- Three tied documents in two blocks. -/
def tiedEntry : DictEntry :=
  ⟨2, 3, [⟨⟨1, 2, 1, 7, .none, 0⟩, [tiedPosting 0, tiedPosting 1]⟩,
    ⟨⟨2, 1, 1, 7, .none, 0⟩, [tiedPosting 2]⟩]⟩

/-- A segment with one term. -/
def tiedReader : SegmentReader String where
  rootBlock := 5
  dictionary := [("cat", tiedEntry)]
  numDocs := 3
  ctids := [⟨0, 1⟩, ⟨0, 2⟩, ⟨1, 1⟩]
  tenantIds := none

theorem tiedReader_searchable :
    TermSearchable mixedLengthParams (fun _ => some tiedReader) tiedReader "cat" 1 := by
  have hfind : tiedReader.findTerm "cat" = some tiedEntry := by decide
  have hentry : ∀ e, tiedReader.findTerm "cat" = some e → e = tiedEntry := fun e he =>
    Option.some.inj (he.symm.trans hfind)
  constructor
  · exact zero_le_one
  · decide
  · rfl
  · simp only [tiedReader, List.pairwise_cons, List.mem_cons, List.not_mem_nil,
      ItemPointer.lt_iff]
    simp
  · intro e he
    rw [hentry e he]
    exact ⟨rfl, by decide, by decide, by
      simp [tiedEntry, tiedPosting, List.getLast?_cons_cons], by decide, by decide⟩
  · intro e he
    rw [hentry e he]
    decide
  · intro e he
    rw [hentry e he]
    intro blk hblk p hp
    simp only [tiedEntry, List.mem_cons, List.not_mem_nil, or_false] at hblk
    have hlen : decodeFieldnorm 7 = 7 := by decide +kernel
    rcases hblk with rfl | rfl
    · simp only [List.mem_cons, List.not_mem_nil, or_false] at hp
      rcases hp with rfl | rfl <;>
        simp [singleTermScore, BlockPosting.output, tiedPosting, ScoreParams.blockMax_eq_score,
          hlen]
    · obtain rfl := List.mem_singleton.1 hp
      simp [singleTermScore, BlockPosting.output, tiedPosting, ScoreParams.blockMax_eq_score, hlen]

end PgTextsearch.Query
