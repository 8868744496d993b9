import PgTextsearch.Query.OperatorAgreement
import PgTextsearch.Query.TopKRuns

/-!
# The search of a whole index (`query/score.c`, `query/bmw.c`)

Memtable and segments add to one result heap, one after the other, and every block skipped is
skipped against the threshold the sources before it have left.  Over sound block maxima the
runs of additions compose (`Collected`): what is in the heap at the end is what one heap
offered all candidates of the index would keep.

## Main results

* `Collected.trans`, `Collected.foldl_flatMap` — runs of additions that keep the largest
  scores compose.
* `tpScoreSingleTermBmw_topK`, `tpScoreMultiTermBmw_topK` — the two searches.
* `tpScoreDocumentsBmw_topK` — a query returns best candidates of the whole index, in order.
-/

namespace PgTextsearch.Query

open PgTextsearch.Postgres PgTextsearch.Segment PgTextsearch.Verified

/-! ## Runs that keep the largest scores -/

/-- A run of additions after which the heap holds the largest scores among its own and the
offered ones. -/
structure Collected (h h' : TopKHeap) (offered : Multiset HeapEntry) : Prop
    extends Took h h' offered where
  scores : h'.scores = kLargest h.capacity (h.scores + offered.map HeapEntry.score)

namespace Collected

variable {h h' h'' : TopKHeap} {offered more : Multiset HeapEntry}

theorem refl (hv : h.ScoreValid) : Collected h h 0 where
  toTook := Took.refl hv
  scores := by
    have hcard : Multiset.card h.scores ≤ h.capacity := by
      simpa [TopKHeap.scores, TopKHeap.keys] using hv.size_le
    rw [Multiset.map_zero, add_zero, kLargest_of_card_le hcard]

theorem trans (h1 : Collected h h' offered) (h2 : Collected h' h'' more) :
    Collected h h'' (offered + more) where
  toTook := h1.toTook.trans h2.toTook
  scores := by
    rw [h2.scores, h1.scores, h1.capacity, kLargest_kLargest_add, Multiset.map_add, add_assoc]

/-- A loop over sources that each offer a list of entries. -/
theorem foldl_flatMap {α : Type} {f : TopKHeap → α → TopKHeap} {g : α → List HeapEntry}
    {l : List α}
    (hf : ∀ h, ∀ x ∈ l, h.ScoreValid → Collected h (f h x) (g x : Multiset HeapEntry))
    (hv : h.ScoreValid) : Collected h (l.foldl f h) (l.flatMap g : List HeapEntry) := by
  induction l generalizing h with
  | nil => exact refl hv
  | cons x l ih =>
      have hx := hf h x List.mem_cons_self hv
      have hrest := ih (fun h y hy => hf h y (List.mem_cons_of_mem _ hy)) hx.valid
      rw [List.foldl_cons, List.flatMap_cons, ← Multiset.coe_add]
      exact hx.trans hrest

/-- A loop over single entries. -/
theorem foldl {α : Type} {f : TopKHeap → α → TopKHeap} {g : α → HeapEntry}
    (hf : ∀ h x, h.ScoreValid → Collected h (f h x) {g x}) (hv : h.ScoreValid) (l : List α) :
    Collected h (l.foldl f h) (l.map g : List HeapEntry) := by
  rw [List.map_eq_flatMap]
  exact foldl_flatMap (fun h x _ hv => hf h x hv) hv

end Collected

theorem offer_collected {h : TopKHeap} (hv : h.ScoreValid) (e : HeapEntry)
    (ctid : Option ItemPointer) (docId : Nat) :
    Collected h (offer h e (heapBeatsRoot h e.score ctid docId)) {e} where
  toTook := offer_took hv e ctid docId
  scores := by
    have hadmits : Admits HeapEntry.score h e (heapBeatsRoot h e.score ctid docId) :=
      ⟨heapLess_respects_score _, fun _ => score_of_beats, fun _ => score_of_not_beats⟩
    obtain ⟨-, hkeys, -⟩ := offer_spec (fun _ _ hab => hab) hv hadmits
    rw [TopKHeap.scores, hkeys, Multiset.map_singleton, add_comm, Multiset.singleton_add]

theorem addMemtableUndominated_collected {h : TopKHeap} (hv : h.ScoreValid) (ctid : ItemPointer)
    (score : ℚ) :
    Collected h (addMemtableUndominated h ctid score) {memtableEntry ctid score} := by
  rw [addMemtableUndominated_eq_offer]
  exact offer_collected hv (memtableEntry ctid score) (some ctid) 0

theorem addUndominated_collected {h : TopKHeap} (hv : h.ScoreValid) (segBlock docId : Nat)
    (score : ℚ) :
    Collected h (addUndominated h segBlock docId score) {segmentEntry segBlock docId score} := by
  rw [addUndominated_eq_offer]
  exact offer_collected hv (segmentEntry segBlock docId score) none docId

/-! ## The sources -/

section Sources

variable {Term : Type} [DecidableEq Term]

theorem scoreMemtableSingleTerm_collected (P : ScoreParams) (mt : Memtable Term) {heap : TopKHeap}
    (hv : heap.ScoreValid) (term : Term) (idf : ℚ) :
    Collected heap (scoreMemtableSingleTerm P mt heap term idf)
      ((memtableSingleCandidates P mt term idf).map fun c => memtableEntry c.1 c.2 :
        List HeapEntry) := by
  rw [memtableSingleCandidates, List.map_map]
  exact Collected.foldl (fun h p hv => addMemtableUndominated_collected hv p.ctid _) hv _

theorem scoreMemtableMultiTerm_collected (hs : HashSeq) (P : ScoreParams) (mt : Memtable Term)
    {heap : TopKHeap} (hv : heap.ScoreValid) (terms : List (TermState Term)) :
    Collected heap (scoreMemtableMultiTerm hs P mt heap terms)
      ((memtableMultiCandidates P mt terms).map fun c => memtableEntry c.1 c.2 :
        List HeapEntry) := by
  rw [memtableMultiCandidates_scan hs]
  exact Collected.foldl (fun h e hv => addMemtableUndominated_collected hv e.1 e.2) hv _

/-- **A single-term search of one segment** over sound block maxima. -/
theorem scoreSegmentSingleTermBmw_collected (P : ScoreParams) {reader : SegmentReader Term}
    {heap : TopKHeap} (hv : heap.ScoreValid) {term : Term} {idf : ℚ} (hidf : 0 ≤ idf)
    (hwf : ∀ e, reader.findTerm term = some e → e.WellFormed)
    (hsound : ∀ e, reader.findTerm term = some e → BlockMaximaSound P idf e) :
    Collected heap (scoreSegmentSingleTermBmw P reader heap term idf 0 0 uint32Max)
      ((segmentSingleDocs P reader term idf).map fun c =>
        segmentEntry reader.rootBlock c.1 c.2 : List HeapEntry) := by
  cases hfind : reader.findTerm term with
  | none =>
      have hrun : scoreSegmentSingleTermBmw P reader heap term idf 0 0 uint32Max = heap := by
        simp [scoreSegmentSingleTermBmw, tpSegmentPostingIteratorInit, hfind]
      simp only [hrun, segmentSingleDocs, hfind]
      exact Collected.refl hv
  | some e =>
      have hposting : ∀ h (p : BlockPosting), h.ScoreValid → Collected h
          (offerPosting P reader.rootBlock idf h p)
          {segmentEntry reader.rootBlock p.docId (singleTermScore P idf p)} :=
        fun h p hv => addUndominated_collected hv _ _ _
      have hdocs : (segmentSingleDocs P reader term idf).map
          (fun c => segmentEntry reader.rootBlock c.1 c.2) =
          e.postings.map fun p =>
            segmentEntry reader.rootBlock p.docId (singleTermScore P idf p) := by
        simp only [segmentSingleDocs, hfind, Option.map_some, Option.getD_some, List.map_map]
        rfl
      rw [search_eq_foldl P hidf heap hfind (hwf e hfind) (hsound e hfind), hdocs]
      exact Collected.foldl hposting hv _

/-- **A multi-term search of one segment** over sound block maxima. -/
theorem Scored.collected {P : ScoreParams} {reader : SegmentReader Term}
    {query : List (TermState Term)} {heap heap' : TopKHeap} {scored : List Nat}
    (hs : Scored P reader query heap heap' scored) (hv : heap.ScoreValid)
    (hscorable : Scorable reader query)
    (hsound : ∀ q ∈ query, ∀ e, reader.findTerm q.term = some e → ∀ blk ∈ e.blocks,
      BlockMaxSound P q.idf blk) :
    Collected heap heap' ((segmentMultiDocs P reader query).map fun c =>
      segmentEntry reader.rootBlock c.1 c.2 : List HeapEntry) where
  toTook := Scored.took hs hv
  scores := by
    have hall := scores_of_allSettled (List.nodup_dedup _) hs.nodup hs.matching hs.capacity
      hs.scores fun d hd hnot => by
        obtain ⟨hfull, hbound⟩ := hs.omitted d hd hnot
        exact ⟨hfull, fun e he =>
          (hscorable.docScore_le_docBound hsound d).trans (hbound e he)⟩
    rw [hall, segmentMultiDocs, List.map_map, Multiset.map_coe, Multiset.map_coe, List.map_map]
    rfl

/-! ## The two searches -/

/-- The entries all sources offer a search. -/
def offeredEntries (view : IndexView Term) (fromMemtable : List (ItemPointer × ℚ))
    (fromSegment : SegmentReader Term → List (Nat × ℚ)) : List HeapEntry :=
  (fromMemtable.map fun c => memtableEntry c.1 c.2) ++ view.segments.flatMap fun reader =>
    (fromSegment reader).map fun c => segmentEntry reader.rootBlock c.1 c.2

/-- What a search of limit `k` returns of its candidates: some of them in result order, with
the scores of the first `k` of all candidates; a candidate is left out only if `k` others
score at least as much. -/
structure BestOf (results candidates : List (ItemPointer × ℚ)) (k : Nat) : Prop where
  subperm : results.Subperm candidates
  sorted : results.Pairwise RanksBefore
  scores : results.map Prod.snd = ((ranking candidates).map Prod.snd).take k
  omitted : ∀ c ∈ candidates, c ∉ results → results.length = k ∧ ∀ r ∈ results, c.2 ≤ r.2

/-- The scores of a list in result order descend. -/
theorem scores_descending {l : List (ItemPointer × ℚ)} (hsorted : l.Pairwise RanksBefore) :
    (l.map Prod.snd).Pairwise (fun a b => b ≤ a) := by
  rw [List.pairwise_map]
  refine hsorted.imp ?_
  intro a b hab
  cases hab with
  | inl hlt => exact hlt.le
  | inr htie => exact htie.1.ge

/-- Candidates in result order that have the `k` largest scores are best. -/
theorem bestOf_of_kLargest {results candidates : List (ItemPointer × ℚ)} {k : Nat}
    (hsub : results.Subperm candidates) (hsorted : results.Pairwise RanksBefore)
    (hscores : (results.map Prod.snd : Multiset ℚ) =
      kLargest k (candidates.map Prod.snd : List ℚ)) : BestOf results candidates k where
  subperm := hsub
  sorted := hsorted
  scores := by
    obtain ⟨hall, hperm⟩ := ranking_spec candidates
    have hfull : (ranking candidates).map Prod.snd =
        Multiset.sort (candidates.map Prod.snd : List ℚ) (fun a b => b ≤ a) := by
      refine List.Perm.eq_of_pairwise' (scores_descending hall) (Multiset.pairwise_sort _ _) ?_
      rw [← Multiset.coe_eq_coe, Multiset.sort_eq]
      exact Multiset.coe_eq_coe.2 (hperm.map Prod.snd)
    rw [hfull]
    refine List.Perm.eq_of_pairwise' (scores_descending hsorted)
      ((Multiset.pairwise_sort _ _).sublist (List.take_sublist _ _)) ?_
    exact Multiset.coe_eq_coe.1 hscores
  omitted := by
    intro c hc hnot
    obtain ⟨rest, hrest⟩ := Multiset.le_iff_exists_add.1 (Multiset.coe_le.2 hsub)
    have hmem : c ∈ rest := by
      have hin : c ∈ (results : Multiset (ItemPointer × ℚ)) + rest := hrest ▸ hc
      exact (Multiset.mem_add.1 hin).resolve_left hnot
    have hsplit : ((candidates.map Prod.snd : List ℚ) : Multiset ℚ) =
        kLargest k (candidates.map Prod.snd : List ℚ) + rest.map Prod.snd := by
      rw [← hscores, ← Multiset.map_coe, ← Multiset.map_coe, hrest, Multiset.map_add]
    constructor
    · have hcard := congrArg Multiset.card hscores
      have hall := congrArg Multiset.card hrest
      have hpos := Multiset.card_pos_iff_exists_mem.2 ⟨c, hmem⟩
      rw [card_kLargest] at hcard
      simp only [Multiset.coe_card, List.length_map, Multiset.card_add] at hcard hall
      omega
    · intro r hr
      apply le_of_mem_kLargest_of_mem_sub (k := k) (s := (candidates.map Prod.snd : List ℚ))
      · rw [← hscores]
        exact Multiset.mem_coe.2 (List.mem_map_of_mem hr)
      · nth_rewrite 1 [hsplit]
        rw [add_tsub_cancel_left]
        exact Multiset.mem_map_of_mem _ hmem

omit [DecidableEq Term] in
/-- The results of a heap that collected the memtable's and the segments' candidates. -/
theorem bestOf_of_collected (qs : Qsort) {view : IndexView Term} (hroot : view.Rooted) {k : Nat}
    {heap : TopKHeap} (fromMemtable : List (ItemPointer × ℚ))
    (fromSegment : SegmentReader Term → List (Nat × ℚ))
    (hcollected : Collected (tpTopkInit k) heap
      (offeredEntries view fromMemtable fromSegment : Multiset HeapEntry)) :
    BestOf (tpTopkExtract qs (tpTopkResolveCtids view.openSegment heap))
      (fromMemtable ++ view.segments.flatMap fun reader =>
        (fromSegment reader).map fun c => (tpSegmentLookupCtid reader c.1, c.2)) k := by
  obtain ⟨candidates, hcandidates⟩ : ∃ candidates, candidates =
      fromMemtable ++ view.segments.flatMap fun reader =>
        (fromSegment reader).map fun c => (tpSegmentLookupCtid reader c.1, c.2) := ⟨_, rfl⟩
  have hreturns := returns_of_took qs hroot fromMemtable fromSegment hcollected.toTook
  obtain ⟨hsorted, hperm⟩ := tpTopkExtract_spec qs (tpTopkResolveCtids view.openSegment heap)
  rw [← hcandidates] at hreturns ⊢
  refine bestOf_of_kLargest hreturns.subperm hsorted ?_
  have hoffered : (offeredEntries view fromMemtable fromSegment).map HeapEntry.score =
      candidates.map Prod.snd := by
    rw [hcandidates, offeredEntries, List.map_append, List.map_append, List.map_map,
      List.map_flatMap, List.map_flatMap]
    simp only [List.map_map]
    rfl
  have hheap := map_score_tpTopkResolveCtids view.openSegment heap
  have hscores := hcollected.scores
  rw [Multiset.map_coe, hoffered, show (tpTopkInit k).scores = 0 from rfl, zero_add] at hscores
  rw [Multiset.coe_eq_coe.2 (hperm.map Prod.snd), List.map_map,
    show (Prod.snd ∘ fun e : HeapEntry => (e.ctid, e.score)) = HeapEntry.score from rfl, hheap]
  exact hscores

/-- **The single-term search** returns best candidates. -/
theorem tpScoreSingleTermBmw_topK (qs : Qsort) (P : ScoreParams) {view : IndexView Term}
    (hwf : view.WellFormed) (term : Term) {idf : ℚ} (hidf : 0 ≤ idf)
    (hsound : ∀ r ∈ view.segments, ∀ e, r.findTerm term = some e → BlockMaximaSound P idf e)
    {k : Nat} (hk : 0 < k) :
    BestOf (tpScoreSingleTermBmw qs P view term idf k)
      (singleTermCandidates P view term idf) k := by
  have hmem := scoreMemtableSingleTerm_collected P view.memtable (tpTopkInit_valid hk) term idf
  have hsegment : ∀ h, ∀ reader ∈ view.segments, h.ScoreValid →
      Collected h (scoreSegmentSingleTermBmw P reader h term idf 0 0 uint32Max)
        ((segmentSingleDocs P reader term idf).map fun c =>
          segmentEntry reader.rootBlock c.1 c.2 : List HeapEntry) :=
    fun h reader hr hv => scoreSegmentSingleTermBmw_collected P hv hidf
      (fun e he => (hwf.usable reader hr term e he).wellFormed) (hsound reader hr)
  apply bestOf_of_collected qs hwf.rooted
  rw [offeredEntries, ← Multiset.coe_add]
  exact hmem.trans (Collected.foldl_flatMap hsegment hmem.valid)

/-- The loop over the segments keeps the largest scores; each search starts from the
cursors the one before it left, which stand for the same terms. -/
theorem searchSegments_collected (qs : Qsort) (P : ScoreParams) {view : IndexView Term}
    {terms : List (TermState Term)} (hrank : ∀ r ∈ view.segments, Rankable r terms)
    (hsound : ∀ r ∈ view.segments, ∀ q ∈ terms, ∀ e, r.findTerm q.term = some e →
      ∀ blk ∈ e.blocks, BlockMaxSound P q.idf blk)
    (segments : List (SegmentReader Term)) (hsub : ∀ r ∈ segments, r ∈ view.segments)
    {heap : TopKHeap} (hv : heap.ScoreValid) {terms' : List (TermState Term)}
    (hsame : SameTerms terms' terms) :
    ∃ heap', searchSegments qs P segments heap terms' = some heap' ∧
      Collected heap heap' ((segments.flatMap fun reader =>
        (segmentMultiDocs P reader terms).map fun c =>
          segmentEntry reader.rootBlock c.1 c.2 : List HeapEntry) : Multiset HeapEntry) := by
  induction segments generalizing heap terms' with
  | nil => exact ⟨heap, rfl, Collected.refl hv⟩
  | cons reader rest ih =>
      have hmem := hsub reader List.mem_cons_self
      have hrankable := hsame.rankable (hrank reader hmem)
      obtain ⟨st, scored, hrun, hterms, hscored⟩ :=
        searchSegment_scored qs P reader heap terms' hrankable hv
      have hfirst := hscored.collected hv hrankable.toScorable
        (hsame.blockMaxSound (hsound reader hmem))
      have hdocs : (((segmentMultiDocs P reader terms').map fun c =>
          segmentEntry reader.rootBlock c.1 c.2 : List HeapEntry) : Multiset HeapEntry) =
          ((segmentMultiDocs P reader terms).map fun c =>
            segmentEntry reader.rootBlock c.1 c.2 : List HeapEntry) :=
        Multiset.coe_eq_coe.2 ((hsame.multiDocs_perm P).map _)
      rw [hdocs] at hfirst
      obtain ⟨heap', hruns, hrest⟩ := ih (fun r hr => hsub r (List.mem_cons_of_mem _ hr))
        hfirst.valid (List.Perm.trans hterms hsame)
      refine ⟨heap', by simp only [searchSegments, hrun, hruns], ?_⟩
      rw [List.flatMap_cons, ← Multiset.coe_add]
      exact hfirst.trans hrest

/-- **The multi-term search** returns best candidates. -/
theorem tpScoreMultiTermBmw_topK (qs : Qsort) (hs : HashSeq) (P : ScoreParams)
    {view : IndexView Term} (hwf : view.WellFormed) (terms : List (TermState Term))
    (hrank : ∀ r ∈ view.segments, Rankable r terms)
    (hsound : ∀ r ∈ view.segments, ∀ q ∈ terms, ∀ e, r.findTerm q.term = some e →
      ∀ blk ∈ e.blocks, BlockMaxSound P q.idf blk) {k : Nat} (hk : 0 < k) :
    ∃ results, tpScoreMultiTermBmw qs hs P view terms k = some results ∧
      BestOf results (multiTermCandidates P view terms) k := by
  have hmem := scoreMemtableMultiTerm_collected hs P view.memtable (tpTopkInit_valid hk) terms
  obtain ⟨heap, hrun, hall⟩ := searchSegments_collected qs P hrank hsound view.segments
    (fun _ hr => hr) hmem.valid (List.Perm.refl _)
  refine ⟨tpTopkExtract qs (tpTopkResolveCtids view.openSegment heap), ?_, ?_⟩
  · rw [tpScoreMultiTermBmw]
    simp only [hrun]
    rfl
  apply bestOf_of_collected qs hwf.rooted
  rw [offeredEntries, ← Multiset.coe_add]
  exact hmem.trans hall

end Sources

/-! ## One candidate for each document -/

section Distinct

variable {Term : Type} [DecidableEq Term] {view : IndexView Term}

omit [DecidableEq Term] in
theorem getElem?_lookupCtid {reader : SegmentReader Term} {docId : Nat}
    (hlt : docId < reader.ctids.length) :
    reader.ctids[docId]? = some (tpSegmentLookupCtid reader docId) := by
  rw [tpSegmentLookupCtid, List.getD_eq_getElem _ _ hlt, List.getElem?_eq_getElem hlt]

/-- Sources that offer every document once offer every CTID once. -/
theorem candidates_nodup (hwf : view.WellFormed) {fromMemtable : List (ItemPointer × ℚ)}
    {fromSegment : SegmentReader Term → List (Nat × ℚ)}
    (hmemtable : (fromMemtable.map Prod.fst).Nodup)
    (hcovered : ∀ c ∈ fromMemtable, (view.memtable.docLengths.lookup c.1).isSome)
    (hsegment : ∀ r ∈ view.segments, ((fromSegment r).map Prod.fst).Nodup)
    (hlt : ∀ r ∈ view.segments, ∀ c ∈ fromSegment r, c.1 < r.ctids.length) :
    ((fromMemtable ++ view.segments.flatMap fun reader =>
      (fromSegment reader).map fun c => (tpSegmentLookupCtid reader c.1, c.2)).map
        Prod.fst).Nodup := by
  have hctids := List.nodup_flatMap.1 hwf.ctids_nodup
  have hmem : ∀ r ∈ view.segments, ∀ ctid ∈ (fromSegment r).map
      (fun c => tpSegmentLookupCtid r c.1), ctid ∈ r.ctids := by
    intro r hr ctid hin
    obtain ⟨c, hc, rfl⟩ := List.mem_map.1 hin
    exact List.mem_of_getElem? (getElem?_lookupCtid (hlt r hr c hc))
  have hfst : (view.segments.flatMap fun reader => (fromSegment reader).map fun c =>
      (tpSegmentLookupCtid reader c.1, c.2)).map Prod.fst = view.segments.flatMap fun reader =>
        (fromSegment reader).map fun c => tpSegmentLookupCtid reader c.1 := by
    rw [List.map_flatMap]
    simp only [List.map_map, Function.comp_def]
  rw [List.map_append, hfst, List.nodup_append]
  refine ⟨hmemtable, List.nodup_flatMap.2 ⟨?_, ?_⟩, ?_⟩
  · -- one segment: document ids are positions in its list of distinct CTIDs
    intro r hr
    rw [show (fun c : Nat × ℚ => tpSegmentLookupCtid r c.1) =
      tpSegmentLookupCtid r ∘ Prod.fst from rfl, ← List.map_map]
    refine (hsegment r hr).map_on ?_
    intro d hd d' hd' heq
    obtain ⟨c, hc, rfl⟩ := List.mem_map.1 hd
    obtain ⟨c', hc', rfl⟩ := List.mem_map.1 hd'
    have hget := getElem?_lookupCtid (hlt r hr c hc)
    have hget' := getElem?_lookupCtid (hlt r hr c' hc')
    rw [heq] at hget
    exact (List.getElem?_inj (hlt r hr c hc) (hctids.1 r hr)).1 (hget.trans hget'.symm)
  · refine hctids.2.imp_of_mem ?_
    intro r r' hr hr' hdisjoint ctid hin hin'
    exact hdisjoint (hmem r hr ctid hin) (hmem r' hr' ctid hin')
  · -- a CTID the memtable has is in no segment
    intro ctid hin ctid' hin' heq
    subst heq
    obtain ⟨c, hc, rfl⟩ := List.mem_map.1 hin
    obtain ⟨r, hr, hctid⟩ := List.mem_flatMap.1 hin'
    exact hwf.separate c.1 (hcovered c hc) r hr (hmem r hr c.1 hctid)

theorem IndexView.WellFormed.isSome_docLength (hwf : view.WellFormed) {term : Term}
    {p : MemPosting} (hp : p ∈ view.memtable.postings term) :
    (view.memtable.docLengths.lookup p.ctid).isSome := by
  obtain ⟨entry, hlookup, -⟩ := hwf.covered term p hp
  rw [hlookup]
  rfl

theorem mem_termPostings {reader : SegmentReader Term} {term : Term} {p : BlockPosting}
    (hp : p ∈ ((reader.findTerm term).map DictEntry.postings).getD []) :
    ∃ e, reader.findTerm term = some e ∧ p ∈ e.postings := by
  cases hfind : reader.findTerm term with
  | none =>
      rw [hfind] at hp
      exact absurd hp List.not_mem_nil
  | some e =>
      rw [hfind] at hp
      exact ⟨e, rfl, hp⟩

theorem singleTermCandidates_nodup (hwf : view.WellFormed) (P : ScoreParams) (term : Term)
    (idf : ℚ) : ((singleTermCandidates P view term idf).map Prod.fst).Nodup := by
  apply candidates_nodup hwf
  · rw [memtableSingleCandidates, List.map_map]
    exact hwf.postings_nodup term
  · intro c hc
    obtain ⟨p, hp, rfl⟩ := List.mem_map.1 hc
    exact hwf.isSome_docLength hp
  · intro r hr
    rw [segmentSingleDocs, List.map_map]
    cases hfind : r.findTerm term with
    | none => exact List.nodup_nil
    | some e =>
        have hsorted := (hwf.usable r hr term e hfind).wellFormed.sorted
        exact (List.pairwise_map.2 hsorted).imp fun hlt => Nat.ne_of_lt hlt
  · intro r hr c hc
    obtain ⟨p, hp, rfl⟩ := List.mem_map.1 hc
    obtain ⟨e, hfind, hpe⟩ := mem_termPostings hp
    exact (hwf.usable r hr term e hfind).docId_lt p hpe

theorem multiTermCandidates_nodup (hwf : view.WellFormed) (P : ScoreParams)
    (terms : List (TermState Term)) :
    ((multiTermCandidates P view terms).map Prod.fst).Nodup := by
  apply candidates_nodup hwf
  · rw [memtableMultiCandidates, List.map_map]
    exact (accumulateMemtable P view.memtable terms).nodupKeys
  · intro c hc
    obtain ⟨⟨ts, -, p, hp, hctid⟩, -⟩ :=
      (mem_memtableMultiCandidates P view.memtable terms c.1 c.2).1 hc
    rw [← hctid]
    exact hwf.isSome_docLength hp
  · intro r hr
    rw [segmentMultiDocs, List.map_map]
    exact (List.nodup_dedup _).map fun _ _ h => h
  · intro r hr c hc
    obtain ⟨d, hd, rfl⟩ := List.mem_map.1 hc
    obtain ⟨q, -, p, hp, -, rfl⟩ := mem_matchingDocs.1 hd
    obtain ⟨e, hfind, hpe⟩ := mem_termPostings hp
    exact (hwf.usable r hr q.term e hfind).docId_lt p hpe

end Distinct

/-! ## A query -/

section Query

variable {view : IndexView CString} {log : LogFunction} {P : ScoreParams}

/-- The block maxima a query meets bound the scores of its terms: a single-term search reads
document lengths through 16 bits, a multi-term search does not. -/
structure IndexView.BoundsSound (view : IndexView CString) (log : LogFunction) (P : ScoreParams)
    (query : List (CString × Nat)) : Prop where
  single : query.length = 1 → ∀ r ∈ view.segments, ∀ q ∈ query, ∀ e, r.findTerm q.1 = some e →
    BlockMaximaSound P (indexIdf log view q.1) e
  multi : 2 ≤ query.length → ∀ r ∈ view.segments, ∀ q ∈ query, ∀ e, r.findTerm q.1 = some e →
    ∀ blk ∈ e.blocks, BlockMaxSound P (searchIdf log view q.1) blk

theorem queryCandidates_nodup (hwf : view.WellFormed) (query : List (CString × Nat)) :
    ((queryCandidates log P view query).map Prod.fst).Nodup := by
  unfold queryCandidates
  split
  · exact singleTermCandidates_nodup hwf P _ _
  · exact multiTermCandidates_nodup hwf P _

/-- Terms no source has offer no candidates. -/
theorem queryCandidates_eq_nil (hwf : view.WellFormed) {query : List (CString × Nat)}
    (hnone : ∀ q ∈ query, tpGetUnifiedDocFreq view q.1 = 0) :
    queryCandidates log P view query = [] := by
  have hmemtable : ∀ q ∈ query, view.memtable.postings q.1 = [] := by
    intro q hq
    have hzero := hnone q hq
    rw [tpGetUnifiedDocFreq_eq] at hzero
    exact List.eq_nil_of_length_eq_zero (by omega)
  have hsegment : ∀ q ∈ query, ∀ r ∈ view.segments,
      ((r.findTerm q.1).map DictEntry.postings).getD [] = [] := by
    intro q hq r hr
    have hle := segmentDocFreq_le view hr q.1
    rw [hnone q hq] at hle
    cases hfind : r.findTerm q.1 with
    | none => rfl
    | some e =>
        rw [segmentDocFreq, hfind, Option.map_some, Option.getD_some,
          (hwf.usable r hr q.1 e hfind).docFreq_eq] at hle
        exact List.eq_nil_of_length_eq_zero (Nat.le_zero.1 hle)
  unfold queryCandidates
  split
  · rename_i term freq
    have hmem : (term, freq) ∈ [(term, freq)] := List.mem_singleton_self _
    rw [singleTermCandidates, memtableSingleCandidates, hmemtable _ hmem, List.map_nil,
      List.nil_append, List.flatMap_eq_nil_iff]
    intro r hr
    rw [segmentSingleDocs, hsegment _ hmem r hr]
    rfl
  · rw [List.eq_nil_iff_forall_not_mem]
    intro c hc
    rcases List.mem_append.1 hc with hin | hin
    · obtain ⟨⟨ts, hts, p, hp, -⟩, -⟩ :=
        (mem_memtableMultiCandidates P view.memtable _ c.1 c.2).1 hin
      obtain ⟨q, hq, rfl⟩ := List.mem_map.1 hts
      have hempty := hmemtable q hq
      replace hp : p ∈ view.memtable.postings q.1 := hp
      rw [hempty] at hp
      exact List.not_mem_nil hp
    · obtain ⟨r, hr, hin⟩ := List.mem_flatMap.1 hin
      obtain ⟨c', hc', -⟩ := List.mem_map.1 hin
      obtain ⟨d, hd, -⟩ := List.mem_map.1 hc'
      obtain ⟨ts, hts, p, hp, -⟩ := mem_matchingDocs.1 hd
      obtain ⟨q, hq, rfl⟩ := List.mem_map.1 hts
      replace hp : p ∈ ((r.findTerm q.1).map DictEntry.postings).getD [] := hp
      rw [hsegment q hq r hr] at hp
      exact List.not_mem_nil hp

theorem bestOf_nil (k : Nat) : BestOf [] [] k where
  subperm := List.Subperm.refl []
  sorted := List.Pairwise.nil
  scores := by simp [ranking]
  omitted := by
    intro c hc
    exact absurd hc List.not_mem_nil

theorem bestOf_zero (candidates : List (ItemPointer × ℚ)) : BestOf [] candidates 0 where
  subperm := List.nil_subperm
  sorted := List.Pairwise.nil
  scores := by simp
  omitted := fun _ _ _ => ⟨rfl, fun r hr => absurd hr List.not_mem_nil⟩

/-- A query of one term. -/
theorem tpScoreDocumentsBmw_single (qs : Qsort) (hs : HashSeq) (log : LogFunction)
    (hwf : view.WellFormed) (hP : view.scoreParams = some P) {term : CString} {freq : Nat}
    (hsound : view.BoundsSound log P [(term, freq)]) {k : Nat} (hk : 0 < k) :
    ∃ results, tpScoreDocumentsBmw qs hs log view [(term, freq)] k = some results ∧
      BestOf results (queryCandidates log P view [(term, freq)]) k := by
  have hgo : ¬([(term, freq)].length = 0 ∨ k = 0) := by simp [hk.ne']
  by_cases hdf : tpGetUnifiedDocFreq view term = 0
  · refine ⟨[], by simp only [tpScoreDocumentsBmw, hgo, if_false, hP, hdf, if_true], ?_⟩
    rw [queryCandidates_eq_nil hwf (by simpa using hdf)]
    exact bestOf_nil k
  · refine ⟨tpScoreSingleTermBmw qs P view term (indexIdf log view term) k,
      by simp only [tpScoreDocumentsBmw, hgo, if_false, hP, hdf, indexIdf], ?_⟩
    exact tpScoreSingleTermBmw_topK qs P hwf term
      (tpCalculateIdf_pos log (hwf.counted term)).le
      (fun r hr => hsound.single rfl r hr _ (List.mem_singleton_self _)) hk

/-- A query of two terms and more. -/
theorem tpScoreDocumentsBmw_multi (qs : Qsort) (hs : HashSeq) (log : LogFunction)
    (hwf : view.WellFormed) (hP : view.scoreParams = some P) {q q' : CString × Nat}
    {rest : List (CString × Nat)} (hfreq : ∀ t ∈ q :: q' :: rest, 0 < t.2)
    (hsound : view.BoundsSound log P (q :: q' :: rest)) {k : Nat} (hk : 0 < k) :
    ∃ results, tpScoreDocumentsBmw qs hs log view (q :: q' :: rest) k = some results ∧
      BestOf results (queryCandidates log P view (q :: q' :: rest)) k := by
  have hgo : ¬((q :: q' :: rest).length = 0 ∨ k = 0) := by simp [hk.ne']
  have hrun : tpScoreDocumentsBmw qs hs log view (q :: q' :: rest) k =
      if (tpBatchGetUnifiedDocFreq view ((q :: q' :: rest).map Prod.fst)).all (· = 0) then
        some []
      else tpScoreMultiTermBmw qs hs P view
        (queryTermStates log view (q :: q' :: rest)) k := by
    rw [tpScoreDocumentsBmw, if_neg hgo, hP]
  rw [hrun]
  split
  · rename_i hall
    refine ⟨[], rfl, ?_⟩
    rw [tpBatchGetUnifiedDocFreq_eq, List.map_map, List.all_map, List.all_eq_true] at hall
    rw [queryCandidates_eq_nil hwf fun t ht => by simpa using hall t ht]
    exact bestOf_nil k
  · rw [queryTermStates_eq]
    refine tpScoreMultiTermBmw_topK qs hs P hwf _
      (fun r hr => queryTermStates_rankable hwf hfreq log hr) ?_ hk
    intro r hr ts hts
    obtain ⟨t, ht, rfl⟩ := List.mem_map.1 hts
    exact hsound.multi (by simp) r hr t ht

/-- A query returns best candidates of memtable and segments together. -/
theorem tpScoreDocumentsBmw_best (qs : Qsort) (hs : HashSeq) (log : LogFunction)
    (hwf : view.WellFormed) (hP : view.scoreParams = some P) {query : List (CString × Nat)}
    (hfreq : ∀ q ∈ query, 0 < q.2) (hsound : view.BoundsSound log P query) (k : Nat) :
    ∃ results, tpScoreDocumentsBmw qs hs log view query k = some results ∧
      BestOf results (queryCandidates log P view query) k := by
  by_cases hstop : query.length = 0 ∨ k = 0
  · refine ⟨[], by rw [tpScoreDocumentsBmw, if_pos hstop], ?_⟩
    cases hstop with
    | inl hlen =>
        rw [List.eq_nil_of_length_eq_zero hlen, queryCandidates_eq_nil hwf (by simp)]
        exact bestOf_nil k
    | inr hk =>
        subst hk
        exact bestOf_zero _
  · have hk : 0 < k := by omega
    rcases query with _ | ⟨⟨term, freq⟩, _ | ⟨q', rest⟩⟩
    · exact absurd (Or.inl rfl) hstop
    · exact tpScoreDocumentsBmw_single qs hs log hwf hP hsound hk
    · exact tpScoreDocumentsBmw_multi qs hs log hwf hP hfreq hsound hk

/-- **A query on the whole index.**  Over sound block maxima, `tp_score_documents` with block-max
search returns, for any limit, best candidates of memtable and segments together: in result
order, every document at most once and with its full score, and none left out that scores more
than one returned. -/
theorem tpScoreDocumentsBmw_topK (qs : Qsort) (hs : HashSeq) (log : LogFunction)
    (hwf : view.WellFormed) (hP : view.scoreParams = some P) {query : List (CString × Nat)}
    (hfreq : ∀ q ∈ query, 0 < q.2) (hsound : view.BoundsSound log P query) (k : Nat) :
    ∃ results, tpScoreDocumentsBmw qs hs log view query k = some results ∧
      BestOf results (queryCandidates log P view query) k ∧ (results.map Prod.fst).Nodup := by
  obtain ⟨results, hrun, hresults⟩ := tpScoreDocumentsBmw_best qs hs log hwf hP hfreq hsound k
  obtain ⟨l, hperm, hsub⟩ := hresults.subperm
  have hdistinct := (queryCandidates_nodup hwf query).sublist (hsub.map Prod.fst)
  exact ⟨results, hrun, hresults, (hperm.map Prod.fst).nodup_iff.1 hdistinct⟩

end Query

/-! ### A memtable and a segment -/

theorem dogTerm_nul_free : (0 : Fin 256) ∉ [100, 111, 103] := by decide

def dogTerm : CString := ⟨[100, 111, 103], dogTerm_nul_free⟩

/-- A segment with the document `cat cat dog`. -/
def catDogReader : SegmentReader CString where
  rootBlock := 5
  dictionary := [(catTerm, ⟨1, 1, [singletonBlock 0 2 3]⟩), (dogTerm, ⟨1, 1, [singletonBlock 0 1 3]⟩)]
  numDocs := 1
  ctids := [⟨0, 2⟩]
  tenantIds := none

/-- The document `cat` in the memtable, `cat cat dog` in a segment of level 0. -/
def twoSourceView : IndexView CString :=
  { oneDocumentIndex.view with
    levels := [[catDogReader]]
    totalDocs := 2
    totalLen := 4 }

theorem catDogReader_entry {term : CString} {e : DictEntry}
    (hfind : catDogReader.findTerm term = some e) :
    ∃ freq, 0 < freq ∧ e = ⟨1, 1, [singletonBlock 0 freq 3]⟩ := by
  have hmem : (term, e) ∈ catDogReader.dictionary := by
    obtain ⟨c, hc, rfl⟩ := Option.map_eq_some_iff.1 hfind
    have hterm : c.1 = term := by simpa using List.find?_some hc
    rw [← hterm]
    exact List.mem_of_find?_eq_some hc
  simp only [catDogReader, List.mem_cons, Prod.mk.injEq, List.not_mem_nil, or_false] at hmem
  rcases hmem with ⟨-, rfl⟩ | ⟨-, rfl⟩
  · exact ⟨2, Nat.two_pos, rfl⟩
  · exact ⟨1, Nat.one_pos, rfl⟩

theorem singletonEntry_usable {freq : Nat} (hfreq : 0 < freq) :
    EntryUsable catDogReader ⟨1, 1, [singletonBlock 0 freq 3]⟩ where
  wellFormed :=
    { blockCount_eq := rfl
      block_ne_nil := by simp [singletonBlock]
      docCount_eq := by simp [singletonBlock]
      lastDocId_eq := by simp [singletonBlock]
      sorted := by simp [singletonBlock]
      docId_lt := by simp [singletonBlock, uint32Max] }
  docFreq_eq := rfl
  frequency_pos := by simpa [DictEntry.postings, singletonBlock] using hfreq
  docId_lt := by simp [DictEntry.postings, singletonBlock, catDogReader]
  positive := by simpa [singletonBlock] using hfreq

theorem twoSourceView_segments {r : SegmentReader CString} (hr : r ∈ twoSourceView.segments) :
    r = catDogReader := by
  simpa [IndexView.segments, twoSourceView] using hr

theorem twoSourceView_wellFormed : twoSourceView.WellFormed where
  usable := by
    intro r hr term e hfind
    rw [twoSourceView_segments hr] at hfind ⊢
    obtain ⟨freq, hfreq, rfl⟩ := catDogReader_entry hfind
    exact singletonEntry_usable hfreq
  roots_nodup := by decide
  roots_valid := by
    intro r hr
    rw [twoSourceView_segments hr]
    decide
  counted := by
    intro term
    have hmemtable : (twoSourceView.memtable.postings term).length ≤ 1 :=
      oneDocumentIndex_wellFormed.counted term
    have hsegment : segmentDocFreq catDogReader term ≤ 1 := by
      unfold segmentDocFreq
      cases hfind : catDogReader.findTerm term with
      | none => exact Nat.zero_le 1
      | some e =>
          obtain ⟨freq, -, rfl⟩ := catDogReader_entry hfind
          exact le_refl 1
    have hsum : tpGetUnifiedDocFreq twoSourceView term =
        (twoSourceView.memtable.postings term).length + segmentDocFreq catDogReader term := by
      simp [tpGetUnifiedDocFreq_eq, IndexView.segments, twoSourceView]
    rw [hsum]
    exact Nat.add_le_add hmemtable hsegment
  frequency_pos := oneDocumentIndex_wellFormed.frequency_pos
  covered := oneDocumentIndex_wellFormed.covered
  postings_nodup := oneDocumentIndex_wellFormed.postings_nodup
  ctids_nodup := by decide
  separate := by
    intro ctid hlookup r hr hin
    rw [twoSourceView_segments hr] at hin
    rw [List.mem_singleton.1 hin] at hlookup
    exact absurd hlookup (by decide)

theorem twoSourceView_boundsSound (P : ScoreParams) (query : List (CString × Nat)) :
    twoSourceView.BoundsSound linearLog P query where
  single := by
    intro _ r hr q _ e hfind
    rw [twoSourceView_segments hr] at hfind
    obtain ⟨freq, -, rfl⟩ := catDogReader_entry hfind
    intro blk hblk p hp
    rw [List.mem_singleton.1 hblk] at hp ⊢
    rw [List.mem_singleton.1 hp, P.blockMax_eq_score]
    have hlen : decodeFieldnorm 3 = 3 := by decide +kernel
    simp [singleTermScore, BlockPosting.output, singletonBlock, hlen]
  multi := by
    intro _ r hr q _ e hfind
    rw [twoSourceView_segments hr] at hfind
    obtain ⟨freq, -, rfl⟩ := catDogReader_entry hfind
    intro blk hblk p hp
    rw [List.mem_singleton.1 hblk] at hp ⊢
    rw [List.mem_singleton.1 hp]
    exact le_refl _

def twoSourceParams : ScoreParams where
  k1 := 6 / 5
  b := 3 / 4
  avgDocLen := (4 : Nat) / (2 : Nat)
  k1_pos := defaultK1_pos
  b_nonneg := defaultB_nonneg
  b_le_one := defaultB_le_one
  avg_pos := by norm_num

theorem tpScoreDocumentsBmw_topK_twoSources :
    ∃ results, tpScoreDocumentsBmw insertionQsort insertionHashSeq linearLog twoSourceView
        [(catTerm, 1), (dogTerm, 2)] 1 = some results ∧
      BestOf results (queryCandidates linearLog twoSourceParams twoSourceView
        [(catTerm, 1), (dogTerm, 2)]) 1 ∧ (results.map Prod.fst).Nodup :=
  tpScoreDocumentsBmw_topK insertionQsort insertionHashSeq linearLog twoSourceView_wellFormed
    rfl (by decide) (twoSourceView_boundsSound _ _) 1

end PgTextsearch.Query
