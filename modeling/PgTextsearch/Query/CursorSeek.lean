import PgTextsearch.Query.TermState
import PgTextsearch.Segment.IteratorSeek

/-!
# Where a seek lands (`query/bmw.c`, `segment/scan.c`)

The two seeks of the repository.  `seek_term_to_doc` moves a term cursor forward, within the
current block or by the cached last document ids.  `tp_segment_posting_iterator_seek` searches
the whole list, so it can also move an iterator back: it lands where a forward seek lands
exactly when nothing before the iterator reaches the target.

## Main results

* `seekTermToDoc_lands` — the cursor and everything cached with it after a seek.
* `cursorSeek_lands` — both seeks, from any position and for any target.
-/

namespace PgTextsearch.Query

open PgTextsearch.Postgres PgTextsearch.Segment PgTextsearch.Verified

variable {Term : Type}

/-- The iterator stands on the first of the postings `rest`, and what it caches belongs to
that posting; it is finished if there is none. -/
structure StandsOn (it : PostingIterator) (rest : List BlockPosting) : Prop where
  rem_eq : it.rem = rest
  finished_iff : it.finished = true ↔ rest = []
  currentDocId_eq : it.currentDocId = (rest.head?.map BlockPosting.docId).getD uint32Max
  cached : ∀ p, rest.head? = some p → ∃ blk, it.dictEntry.blocks[it.currentBlock]? = some blk ∧
    it.skipEntry = blk.skip ∧ it.blockPostings = some blk.postings ∧
    blk.postings[it.currentInBlock]? = some p

theorem standsOn_of_positioned {it : PostingIterator} (hp : it.Positioned) :
    StandsOn it it.rem where
  rem_eq := rfl
  finished_iff := hp.finished_iff
  currentDocId_eq := hp.currentDocId_eq
  cached := by
    intro p hhead
    have hfin : it.finished = false := by
      rw [← Bool.not_eq_true, hp.finished_iff]
      intro hnil
      rw [hnil] at hhead
      cases hhead
    obtain ⟨blk, hblk, hskip, hpost, hin⟩ := hp.cached hfin
    refine ⟨blk, hblk, hskip, hpost, ?_⟩
    rw [← hhead, hp.head?_rem hfin, List.getElem?_eq_getElem hin]
    simp [PostingIterator.current, hpost, List.getD_eq_getElem?_getD, List.getElem?_eq_getElem hin]

/-- A term cursor at any position of a well-formed list, or exhausted, with the last document
id and the maximum of each block cached; `bound` is how the maxima were computed. -/
structure CursorOn (bound : Block → ℚ) (ts : TermState Term) : Prop where
  positioned : ts.found = true → ts.iter.Positioned
  lasts : ts.blocks ≠ [] → ts.blockLastDocIds = some (ts.blocks.map fun blk => blk.skip.lastDocId)
  maxima : ts.blocks ≠ [] → ts.blockMaxScores = some (ts.blocks.map bound)

/-- The term cursor stands on the first of the postings `rest`, and everything cached for its
block belongs to that posting; without one it shows the sentinel. -/
structure TermStandsOn (bound : Block → ℚ) (ts : TermState Term) (rest : List BlockPosting) :
    Prop where
  rem_eq : ts.rem = rest
  currentDocId_eq : ts.currentDocId = (rest.head?.map BlockPosting.docId).getD uint32Max
  exhausted_iff : ts.currentDocId = uint32Max ↔ rest = []
  iterator : ts.found = true → StandsOn ts.iter rest
  cached : ∀ p, rest.head? = some p → ∃ blk, ts.blocks[ts.iter.currentBlock]? = some blk ∧
    p ∈ blk.postings ∧ ts.blockLastDocId ts.iter.currentBlock = blk.skip.lastDocId ∧
    ts.blockMaxScore ts.iter.currentBlock = bound blk

section Term

variable {bound : Block → ℚ} {ts : TermState Term}

/-- The maximal score of the term plays no part in moving the cursor. -/
theorem seekTermToDoc_maxScore (ts : TermState Term) (maxScore : ℚ) (target : Nat) :
    seekTermToDoc { ts with maxScore := maxScore } target =
      ((seekTermToDoc ts target).1, { (seekTermToDoc ts target).2 with maxScore := maxScore }) := by
  unfold seekTermToDoc
  split_ifs
  all_goals first
    | rfl
    | (dsimp only
       have hlast : ∀ mid, ({ ts with maxScore := maxScore } : TermState Term).blockLastDocId mid =
         ts.blockLastDocId mid := fun _ => rfl
       simp only [hlast]
       split_ifs <;> rfl)

/-- The same cursor with a maximal score that is not negative. -/
theorem CursorOn.placed (hc : CursorOn bound ts) :
    ({ ts with maxScore := 0 } : TermState Term).Placed where
  positioned := hc.positioned
  lasts := hc.lasts
  maxScore_nonneg := le_rfl

/-- A cursor stands on the first of the postings still to come. -/
theorem CursorOn.standsOn (hc : CursorOn bound ts) : TermStandsOn bound ts ts.rem := by
  have hplaced := hc.placed
  constructor
  case rem_eq => rfl
  case currentDocId_eq => exact hplaced.currentDocId_eq
  case exhausted_iff => exact hplaced.rem_eq_nil_iff.symm
  case iterator =>
    intro hfound
    have hrem : ts.rem = ts.iter.rem := by simp [TermState.rem, hfound]
    rw [hrem]
    exact standsOn_of_positioned (hc.positioned hfound)
  case cached =>
    intro p hhead
    have hne : ts.rem ≠ [] := by
      intro hnil
      rw [hnil] at hhead
      cases hhead
    have hfound : ts.found = true := by
      by_contra hf
      exact hne (by simp [TermState.rem, hf])
    have hrem : ts.rem = ts.iter.rem := by simp [TermState.rem, hfound]
    rw [hrem] at hhead
    obtain ⟨blk, hblk, -, -, hin⟩ := (standsOn_of_positioned (hc.positioned hfound)).cached p hhead
    have hblocks : ts.blocks = ts.iter.dictEntry.blocks := by simp [TermState.blocks, hfound]
    rw [← hblocks] at hblk
    have hbne : ts.blocks ≠ [] := List.ne_nil_of_mem (List.mem_of_getElem? hblk)
    refine ⟨blk, hblk, List.mem_of_getElem? hin, ?_, ?_⟩
    · simp [TermState.blockLastDocId, hc.lasts hbne, List.getD_eq_getElem?_getD, hblk]
    · simp [TermState.blockMaxScore, hc.maxima hbne, List.getD_eq_getElem?_getD, hblk]

/-- **Seeking a term cursor**: it stands on the first posting still to come that is not below
the target, and the answer says whether there is one. -/
theorem seekTermToDoc_lands (hc : CursorOn bound ts) (target : Nat) :
    CursorOn bound (seekTermToDoc ts target).2 ∧
      TermStandsOn bound (seekTermToDoc ts target).2 (ts.rem.dropWhile (·.docId < target)) ∧
      ((seekTermToDoc ts target).1 = true ↔ ts.rem.dropWhile (·.docId < target) ≠ []) := by
  obtain ⟨hplaced, hstatic, hrem, hanswer⟩ := seekTermToDoc_spec hc.placed target
  rw [seekTermToDoc_maxScore] at hplaced hstatic hrem hanswer
  have hbounds : (seekTermToDoc ts target).2.blockMaxScores = ts.blockMaxScores := by
    have := congrArg TermState.blockMaxScores hstatic
    exact this
  have hblocks : (seekTermToDoc ts target).2.blocks = ts.blocks := by
    have := congrArg TermState.blocks hstatic
    exact this
  have hc' : CursorOn bound (seekTermToDoc ts target).2 := by
    refine ⟨hplaced.positioned, hplaced.lasts, ?_⟩
    rw [hbounds, hblocks]
    exact hc.maxima
  have hrem' : (seekTermToDoc ts target).2.rem = ts.rem.dropWhile (·.docId < target) := hrem
  refine ⟨hc', hrem' ▸ hc'.standsOn, ?_⟩
  rw [← hrem']
  exact hanswer

end Term

/-! ## Both seeks -/

/-- What a seek of the iterator does.  The list is searched from its beginning; this is a
forward seek when nothing before the iterator reaches the target. -/
structure SeekLands (it : PostingIterator) (target : Nat) : Prop where
  refused : it.initialized = false ∨ it.finished = true → it.seek target = (none, it)
  answer : it.initialized = true → it.finished = false → (it.seek target).1 =
    (it.dictEntry.postings.dropWhile (·.docId < target)).head?.map BlockPosting.output
  lands : it.initialized = true → it.finished = false →
    StandsOn (it.seek target).2 (it.dictEntry.postings.dropWhile (·.docId < target))
  forward : (∀ p ∈ it.dictEntry.postings, p ∉ it.rem → p.docId < target) →
    it.dictEntry.postings.dropWhile (·.docId < target) = it.rem.dropWhile (·.docId < target)

theorem seek_lands {it : PostingIterator} (hwf : it.dictEntry.WellFormed) (target : Nat) :
    SeekLands it target := by
  constructor
  case refused =>
    intro h
    have hguard : (!it.initialized || it.finished) = true := by
      cases h with
      | inl hinit => simp [hinit]
      | inr hfin => simp [hfin]
    simp only [PostingIterator.seek, if_pos hguard]
  case answer => exact fun hinit hfin => (PostingIterator.seek_spec hwf hinit hfin target).2.2.2
  case lands =>
    intro hinit hfin
    obtain ⟨hp, -, hrem, -⟩ := PostingIterator.seek_spec hwf hinit hfin target
    rw [← hrem]
    exact standsOn_of_positioned hp
  case forward =>
    intro hpassed
    obtain ⟨passed, heq⟩ := it.rem_suffix
    have hsorted : it.dictEntry.postings.Pairwise fun p q => p.docId < q.docId := hwf.sorted
    rw [← heq] at hsorted
    have hall : ∀ p ∈ passed, decide (p.docId < target) = true := by
      intro p hp
      rw [decide_eq_true_eq]
      refine hpassed p (heq ▸ List.mem_append_left _ hp) fun hrem => ?_
      exact lt_irrefl _ ((List.pairwise_append.1 hsorted).2.2 p hp p hrem)
    nth_rewrite 1 [← heq]
    exact List.dropWhile_append_of_pos hall

/-- **Where the seeks land**: a term cursor on the first posting at or after its position that
is not below the target, an iterator on the first such posting of its list, and exhausted if
there is none; the cached block state is that of the new position. -/
theorem cursorSeek_lands (bound : Block → ℚ) (ts : TermState Term) (hc : CursorOn bound ts)
    (it : PostingIterator) (hwf : it.dictEntry.WellFormed) (target : Nat) :
    (CursorOn bound (seekTermToDoc ts target).2 ∧
      TermStandsOn bound (seekTermToDoc ts target).2 (ts.rem.dropWhile (·.docId < target)) ∧
      ((seekTermToDoc ts target).1 = true ↔ ts.rem.dropWhile (·.docId < target) ≠ [])) ∧
    SeekLands it target :=
  ⟨seekTermToDoc_lands hc target, seek_lands hwf target⟩

/-- Documents 1, 2 and 3 in two blocks. -/
def threeDocs : DictEntry where
  blockCount := 2
  docFreq := 3
  blocks :=
    [⟨⟨2, 2, 1, 0, .none, 0⟩, [⟨1, 1, 0⟩, ⟨2, 1, 0⟩]⟩, ⟨⟨3, 1, 1, 0, .none, 0⟩, [⟨3, 1, 0⟩]⟩]

/-- An iterator on the last of them. -/
def onThird : PostingIterator where
  dictEntry := threeDocs
  currentBlock := 1
  currentInBlock := 0
  skipEntry := ⟨3, 1, 1, 0, .none, 0⟩
  blockPostings := some [⟨3, 1, 0⟩]
  initialized := true
  finished := false

theorem threeDocs_wellFormed : threeDocs.WellFormed where
  blockCount_eq := rfl
  block_ne_nil := by decide
  docCount_eq := by decide
  lastDocId_eq := by
    intro blk hblk p hlast
    simp only [threeDocs, List.mem_cons, List.not_mem_nil, or_false] at hblk
    rcases hblk with rfl | rfl <;> (cases hlast; rfl)
  sorted := by decide
  docId_lt := by decide

theorem onThird_positioned : onThird.Positioned :=
  ⟨threeDocs_wellFormed, rfl, fun _ => ⟨_, rfl, rfl, rfl, by decide⟩⟩

/-- A term cursor there. -/
def termOnThird : TermState Nat where
  term := 7
  idf := 1
  queryFreq := 1
  maxScore := 1
  found := true
  iter := onThird
  blockMaxScores := some [1, 1]
  blockLastDocIds := some [2, 3]

theorem cursorSeek_lands_three :
    (CursorOn (fun _ => 1) (seekTermToDoc termOnThird 1).2 ∧
      TermStandsOn (fun _ => 1) (seekTermToDoc termOnThird 1).2
        (termOnThird.rem.dropWhile (·.docId < 1)) ∧
      ((seekTermToDoc termOnThird 1).1 = true ↔ termOnThird.rem.dropWhile (·.docId < 1) ≠ [])) ∧
    SeekLands onThird 1 :=
  cursorSeek_lands (fun _ => 1) termOnThird
    ⟨fun _ => onThird_positioned, fun _ => rfl, fun _ => rfl⟩ onThird threeDocs_wellFormed 1

/-- The seek of an iterator on document 3 for document 1 goes back to document 1, not to the
first posting from its position on. -/
theorem seek_goes_back :
    onThird.Positioned ∧ (onThird.seek 1).2.currentDocId = 1 ∧
      (onThird.seek 1).2.rem ≠ onThird.rem.dropWhile (·.docId < 1) :=
  ⟨onThird_positioned, by decide, by decide⟩

end PgTextsearch.Query
