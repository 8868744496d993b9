import PgTextsearch.Query.PathAgreement

/-!
# What a search reads of the segments (`query/bmw.c`)

A search scores postings; which segment a posting lies in, and which document id it has there,
only decides between equal scores.  What counts is the row of the posting: CTID, frequency and
fieldnorm.  Two indexes with the same memtable and the same rows for every term therefore offer
a search the same candidates, and return the same scores.

## Main results

* `SameRows.docFreq_eq`, `SameRows.candidates_perm` — document frequencies and candidates.
* `SameRows.search_eq` — what the search returns.
-/

namespace PgTextsearch.Query

open PgTextsearch.Postgres PgTextsearch.Segment PgTextsearch.Verified

/-! ## Rows -/

/-- What a search reads of a posting. -/
structure PostingRow where
  ctid : ItemPointer
  frequency : Nat
  fieldnorm : Fin 256
  deriving DecidableEq, Repr

/-- The row as a posting, of document 0. -/
def PostingRow.posting (row : PostingRow) : BlockPosting := ⟨0, row.frequency, row.fieldnorm⟩

section Rows

variable {Term : Type} [DecidableEq Term]

/-- The rows of a term in a segment. -/
def termRows (reader : SegmentReader Term) (term : Term) : List PostingRow :=
  (((reader.findTerm term).map DictEntry.postings).getD []).map fun p =>
    ⟨tpSegmentLookupCtid reader p.docId, p.frequency, p.fieldnorm⟩

/-- The rows of a term in all segments. -/
def segmentRows (view : IndexView Term) (term : Term) : List PostingRow :=
  view.segments.flatMap fun reader => termRows reader term

theorem singleDocs_eq_rows (P : ScoreParams) (reader : SegmentReader Term) (term : Term)
    (idf : ℚ) :
    (segmentSingleDocs P reader term idf).map (fun c => (tpSegmentLookupCtid reader c.1, c.2)) =
      (termRows reader term).map fun row => (row.ctid, singleTermScore P idf row.posting) := by
  rw [segmentSingleDocs, termRows, List.map_map, List.map_map]
  rfl

theorem contributions_eq_rows (P : ScoreParams) (reader : SegmentReader Term)
    (terms : List (TermState Term)) :
    segmentContributions P reader terms = terms.flatMap fun ts =>
      (termRows reader ts.term).map fun row => (row.ctid, ts.postingScore P row.posting) := by
  rw [segmentContributions]
  congr 1
  funext ts
  rw [termRows, termPostings, List.map_map]
  rfl

/-- The document frequency of a usable entry is the number of its rows. -/
theorem segmentDocFreq_eq_rows {reader : SegmentReader Term} {term : Term}
    (husable : ∀ e, reader.findTerm term = some e → EntryUsable reader e) :
    segmentDocFreq reader term = (termRows reader term).length := by
  rw [segmentDocFreq, termRows, List.length_map]
  cases hfind : reader.findTerm term with
  | none => rfl
  | some e => exact (husable e hfind).docFreq_eq

theorem sum_segmentDocFreq {view : IndexView Term}
    (husable : ∀ r ∈ view.segments, ∀ term e, r.findTerm term = some e → EntryUsable r e)
    (term : Term) : (view.segments.map fun reader => segmentDocFreq reader term).sum =
      (segmentRows view term).length := by
  rw [segmentRows, List.length_flatMap]
  congr 1
  apply List.map_congr_left
  intro r hr
  exact segmentDocFreq_eq_rows fun e => husable r hr term e

/-! ## Sums do not depend on the order -/

/-- Two loops over two lists, in either order. -/
theorem flatMap_flatMap_perm {α β γ : Type} (l : List α) (l' : List β) (f : α → β → List γ) :
    (l.flatMap fun a => l'.flatMap fun b => f a b).Perm
      (l'.flatMap fun b => l.flatMap fun a => f a b) := by
  induction l with
  | nil => simp
  | cons a l ih =>
      simp only [List.flatMap_cons]
      exact (ih.append_left _).trans (List.flatMap_append_perm l' (f a) _)

/-- What the segments add to the scores, term by term. -/
theorem contributions_perm_rows (P : ScoreParams) (view : IndexView Term)
    (terms : List (TermState Term)) :
    (view.segments.flatMap fun r => segmentContributions P r terms).Perm
      (terms.flatMap fun ts => (segmentRows view ts.term).map fun row =>
        (row.ctid, ts.postingScore P row.posting)) := by
  simp only [contributions_eq_rows]
  refine (flatMap_flatMap_perm _ _ _).trans ?_
  simp only [← List.map_flatMap]
  exact List.Perm.refl _

theorem addedScore_perm {l l' : List (ItemPointer × ℚ)} (hperm : l.Perm l')
    (ctid : ItemPointer) : addedScore l ctid = addedScore l' ctid :=
  ((hperm.filter _).map Prod.snd).sum_eq

theorem summedScores_perm {l l' : List (ItemPointer × ℚ)} (hperm : l.Perm l') :
    (summedScores l).Perm (summedScores l') := by
  unfold summedScores
  have hscore : (fun ctid => (ctid, addedScore l ctid)) = fun ctid => (ctid, addedScore l' ctid) :=
    funext fun ctid => by rw [addedScore_perm hperm]
  rw [hscore]
  exact (hperm.map Prod.fst).dedup.map _

/-! ## Indexes with the same rows -/

/-- Two states of an index that differ in the layout of their segments only. -/
structure SameRows (view view' : IndexView Term) : Prop where
  memtable : view.memtable = view'.memtable
  totalDocs : view.totalDocs = view'.totalDocs
  totalLen : view.totalLen = view'.totalLen
  options : view.options = view'.options
  rows : ∀ term, (segmentRows view term).Perm (segmentRows view' term)

namespace SameRows

variable {view view' view'' : IndexView Term}

theorem refl (view : IndexView Term) : SameRows view view :=
  ⟨rfl, rfl, rfl, rfl, fun _ => List.Perm.refl _⟩

theorem symm (h : SameRows view view') : SameRows view' view :=
  ⟨h.memtable.symm, h.totalDocs.symm, h.totalLen.symm, h.options.symm,
    fun term => (h.rows term).symm⟩

theorem trans (h : SameRows view view') (h' : SameRows view' view'') : SameRows view view'' :=
  ⟨h.memtable.trans h'.memtable, h.totalDocs.trans h'.totalDocs, h.totalLen.trans h'.totalLen,
    h.options.trans h'.options, fun term => (h.rows term).trans (h'.rows term)⟩

variable (h : SameRows view view')
include h

theorem scoreParams_eq : view.scoreParams = view'.scoreParams := by
  unfold IndexView.scoreParams
  simp only [h.totalDocs, h.totalLen, h.options]

/-- Both count the same documents for every term. -/
theorem docFreq_eq (hwf : ∀ r ∈ view.segments, ∀ term e, r.findTerm term = some e → EntryUsable r e)
    (hwf' : ∀ r ∈ view'.segments, ∀ term e, r.findTerm term = some e → EntryUsable r e)
    (term : Term) : tpGetUnifiedDocFreq view term = tpGetUnifiedDocFreq view' term := by
  rw [tpGetUnifiedDocFreq_eq, tpGetUnifiedDocFreq_eq, sum_segmentDocFreq hwf,
    sum_segmentDocFreq hwf', h.memtable, (h.rows term).length_eq]

/-- Both offer a single-term search the same candidates. -/
theorem singleCandidates_perm (P : ScoreParams) (term : Term) (idf : ℚ) :
    (singleTermCandidates P view term idf).Perm (singleTermCandidates P view' term idf) := by
  unfold singleTermCandidates
  simp only [singleDocs_eq_rows, ← List.map_flatMap]
  rw [h.memtable]
  exact ((h.rows term).map _).append_left _

/-- Both offer a multi-term search the same candidates. -/
theorem multiCandidates_perm (hwf : view.WellFormed) (hwf' : view'.WellFormed) (P : ScoreParams)
    (terms : List (TermState Term)) :
    (multiTermCandidates P view terms).Perm (multiTermCandidates P view' terms) := by
  have hsame : (terms.flatMap fun ts => (segmentRows view ts.term).map fun row =>
      (row.ctid, ts.postingScore P row.posting)).Perm
      (terms.flatMap fun ts => (segmentRows view' ts.term).map fun row =>
        (row.ctid, ts.postingScore P row.posting)) :=
    List.Perm.flatMap_left _ fun ts _ => (h.rows ts.term).map _
  refine (summedScores_perm_multi hwf terms).symm.trans ?_
  refine List.Perm.trans ?_ (summedScores_perm_multi hwf' terms)
  apply summedScores_perm
  rw [h.memtable]
  exact (((contributions_perm_rows P view terms).trans hsame).trans
    (contributions_perm_rows P view' terms).symm).append_left _

end SameRows

end Rows

/-! ## The search -/

namespace SameRows

variable {view view' : IndexView CString} (h : SameRows view view')
include h

/-- **The candidates** are the same. -/
theorem candidates_perm (hwf : view.WellFormed) (hwf' : view'.WellFormed) (log : LogFunction)
    (P : ScoreParams) (query : List (CString × Nat)) :
    (queryCandidates log P view query).Perm (queryCandidates log P view' query) := by
  have hidf : indexIdf log view = indexIdf log view' := by
    funext term
    rw [indexIdf, indexIdf, h.docFreq_eq hwf.usable hwf'.usable, h.totalDocs]
  have hsearch : searchIdf log view = searchIdf log view' := by
    funext term
    rw [searchIdf, searchIdf, h.docFreq_eq hwf.usable hwf'.usable, hidf]
  unfold queryCandidates
  rw [hidf, hsearch]
  split
  · exact h.singleCandidates_perm P _ _
  · exact h.multiCandidates_perm hwf hwf' P _

end SameRows

section Results

variable {view view' : IndexView CString} {log : LogFunction} {P : ScoreParams}

/-- What a search returns is in result order, sound maxima or not. -/
theorem tpScoreDocumentsBmw_sorted (qs : Qsort) (hs : HashSeq) {query : List (CString × Nat)}
    {k : Nat} {results : List (ItemPointer × ℚ)}
    (hrun : tpScoreDocumentsBmw qs hs log view query k = some results) :
    results.Pairwise RanksBefore := by
  have hextract : ∀ heap, (tpTopkExtract qs (tpTopkResolveCtids view.openSegment heap)).Pairwise
      RanksBefore := fun heap => (tpTopkExtract_spec qs _).1
  unfold tpScoreDocumentsBmw at hrun
  split at hrun
  · cases hrun
    exact List.Pairwise.nil
  · split at hrun
    · cases hrun
      exact List.Pairwise.nil
    · split at hrun
      · simp only at hrun
        split at hrun
        · cases hrun
          exact List.Pairwise.nil
        · cases hrun
          exact hextract _
      · split at hrun
        · cases hrun
          exact List.Pairwise.nil
        · obtain ⟨heap, -, rfl⟩ := Option.map_eq_some_iff.1 hrun
          exact hextract heap

theorem ranking_nil : ranking [] = [] := by simp [ranking]

/-- **A limit that leaves room for every candidate** returns the ranking of all candidates. -/
theorem tpScoreDocumentsBmw_all (qs : Qsort) (hs : HashSeq) (hwf : view.WellFormed)
    (hP : view.scoreParams = some P) {query : List (CString × Nat)} (hfreq : ∀ q ∈ query, 0 < q.2)
    {k : Nat} (hk : (queryCandidates log P view query).length ≤ k) :
    tpScoreDocumentsBmw qs hs log view query k =
      some (ranking (queryCandidates log P view query)) := by
  cases Nat.eq_zero_or_pos k with
  | inl hzero =>
      have hnil : queryCandidates log P view query = [] :=
        List.eq_nil_of_length_eq_zero (by omega)
      rw [tpScoreDocumentsBmw, if_pos (Or.inr hzero), hnil, ranking_nil]
  | inr hpos =>
      rcases tpScoreDocumentsBmw_returns qs hs log hwf hP hfreq hpos with
        ⟨results, hrun, hreturns⟩ | ⟨hnone, hrun⟩
      · rw [hrun, eq_ranking (hreturns.all hk) (tpScoreDocumentsBmw_sorted qs hs hrun)]
      · rw [hrun, queryCandidates_eq_nil hwf hnone, ranking_nil]

/-- Results with the same scores; a document that only one of them has scores no more than any
document of the other. -/
structure SameScores (results results' : List (ItemPointer × ℚ)) : Prop where
  scores : results.map Prod.snd = results'.map Prod.snd
  left : ∀ c ∈ results, c ∉ results' → ∀ r ∈ results', c.2 ≤ r.2
  right : ∀ c ∈ results', c ∉ results → ∀ r ∈ results, c.2 ≤ r.2

/-- Best documents of the same candidates have the same scores. -/
theorem BestOf.sameScores {results results' candidates candidates' : List (ItemPointer × ℚ)}
    {k : Nat} (hbest : BestOf results candidates k) (hbest' : BestOf results' candidates' k)
    (hperm : candidates.Perm candidates') : SameScores results results' where
  scores := by rw [hbest.scores, hbest'.scores, ranking_eq_of_perm hperm]
  left := fun c hc hnot =>
    (hbest'.omitted c (hperm.subset (hbest.subperm.subset hc)) hnot).2
  right := fun c hc hnot =>
    (hbest.omitted c (hperm.symm.subset (hbest'.subperm.subset hc)) hnot).2

/-- **The search does not see how the segments are laid out.**  If the limit leaves room for
every candidate, the results are the same.  For any limit, over sound block maxima, the scores
are. -/
theorem SameRows.search_eq (h : SameRows view view') (log : LogFunction) (qs qs' : Qsort) (hs hs' : HashSeq)
    (hwf : view.WellFormed) (hwf' : view'.WellFormed) (hP : view.scoreParams = some P)
    {query : List (CString × Nat)} (hfreq : ∀ q ∈ query, 0 < q.2) (k : Nat) :
    ((queryCandidates log P view query).length ≤ k →
      tpScoreDocumentsBmw qs hs log view query k = tpScoreDocumentsBmw qs' hs' log view' query k) ∧
    (view.BoundsSound log P query → view'.BoundsSound log P query →
      ∃ results results', tpScoreDocumentsBmw qs hs log view query k = some results ∧
        tpScoreDocumentsBmw qs' hs' log view' query k = some results' ∧
        SameScores results results') := by
  have hP' : view'.scoreParams = some P := h.scoreParams_eq ▸ hP
  have hperm := h.candidates_perm hwf hwf' log P query
  constructor
  · intro hk
    rw [tpScoreDocumentsBmw_all qs hs hwf hP hfreq hk,
      tpScoreDocumentsBmw_all qs' hs' hwf' hP' hfreq (hperm.length_eq ▸ hk),
      ranking_eq_of_perm hperm]
  · intro hsound hsound'
    obtain ⟨results, hrun, hbest⟩ := tpScoreDocumentsBmw_best qs hs log hwf hP hfreq hsound k
    obtain ⟨results', hrun', hbest'⟩ :=
      tpScoreDocumentsBmw_best qs' hs' log hwf' hP' hfreq hsound' k
    exact ⟨results, results', hrun, hrun', hbest.sameScores hbest' hperm⟩

end Results

end PgTextsearch.Query
