import PgTextsearch.Query.ScoreDocuments

/-!
# What a search returns

Every source of an index offers the result heap its candidates.  A run of additions
takes nothing but what is offered, and all of it while there is room (`Took`); with the
CTIDs resolved, a search therefore returns candidates only, and exactly the candidates
when the limit is at least their number.  Nothing here asks for sound block maxima.

## Main results

* `Took.trans`, `Took.foldl` — runs of additions compose.
* `tpScoreSingleTermBmw_returns`, `tpScoreMultiTermBmw_returns` — the two searches
  against their candidates.
-/

namespace PgTextsearch.Query

open PgTextsearch.Postgres PgTextsearch.Segment PgTextsearch.Verified

/-! ## Runs of additions -/

/-- What a run of additions does to a heap: nothing but the offered entries comes in,
and all of them while there is room. -/
structure Took (h h' : TopKHeap) (offered : Multiset HeapEntry) : Prop where
  valid : h'.ScoreValid
  capacity : h'.capacity = h.capacity
  le : (h'.entries : Multiset HeapEntry) ≤ (h.entries : Multiset HeapEntry) + offered
  all : h.entries.length + Multiset.card offered ≤ h.capacity →
    (h'.entries : Multiset HeapEntry) = (h.entries : Multiset HeapEntry) + offered

namespace Took

variable {h h' h'' : TopKHeap} {offered more : Multiset HeapEntry}

theorem refl (hv : h.ScoreValid) : Took h h 0 :=
  ⟨hv, rfl, by simp, fun _ => by simp⟩

theorem trans (h1 : Took h h' offered) (h2 : Took h' h'' more) : Took h h'' (offered + more) where
  valid := h2.valid
  capacity := h2.capacity.trans h1.capacity
  le := by
    rw [← add_assoc]
    exact h2.le.trans (add_le_add_left h1.le more)
  all := by
    intro hroom
    rw [Multiset.card_add] at hroom
    have hfirst := h1.all (by omega)
    have hlen := congrArg Multiset.card hfirst
    simp only [Multiset.coe_card, Multiset.card_add] at hlen
    rw [h2.all (by rw [h1.capacity]; omega), hfirst, add_assoc]

/-- Entries that came in are all that was offered as soon as their number is right. -/
theorem of_card (hv : h'.ScoreValid) (hcap : h'.capacity = h.capacity)
    (hle : (h'.entries : Multiset HeapEntry) ≤ (h.entries : Multiset HeapEntry) + offered)
    (hcard : h.entries.length + Multiset.card offered ≤ h.capacity →
      h.entries.length + Multiset.card offered ≤ h'.entries.length) : Took h h' offered where
  valid := hv
  capacity := hcap
  le := hle
  all := by
    intro hroom
    apply Multiset.eq_of_le_of_card_le hle
    simpa using hcard hroom

/-- A loop of runs of additions. -/
theorem foldl_flatMap {α : Type} {f : TopKHeap → α → TopKHeap} {g : α → List HeapEntry}
    {l : List α} (hf : ∀ h, ∀ x ∈ l, h.ScoreValid → Took h (f h x) (g x : Multiset HeapEntry))
    (hv : h.ScoreValid) : Took h (l.foldl f h) (l.flatMap g : List HeapEntry) := by
  induction l generalizing h with
  | nil => exact refl hv
  | cons x l ih =>
      have hx := hf h x List.mem_cons_self hv
      have hrest := ih (fun h y hy => hf h y (List.mem_cons_of_mem _ hy)) hx.valid
      rw [List.foldl_cons, List.flatMap_cons, ← Multiset.coe_add]
      exact hx.trans hrest

/-- A loop of additions. -/
theorem foldl {α : Type} {f : TopKHeap → α → TopKHeap} {g : α → HeapEntry}
    (hf : ∀ h x, h.ScoreValid → Took h (f h x) {g x}) (hv : h.ScoreValid) (l : List α) :
    Took h (l.foldl f h) (l.map g : List HeapEntry) := by
  rw [List.map_eq_flatMap]
  exact foldl_flatMap (fun h x _ hv => hf h x hv) hv

end Took

/-- Offering one entry, with the comparison against the root the code makes. -/
theorem offer_took {h : TopKHeap} (hv : h.ScoreValid) (e : HeapEntry) (ctid : Option ItemPointer)
    (docId : Nat) : Took h (offer h e (heapBeatsRoot h e.score ctid docId)) {e} := by
  have hadmits : Admits HeapEntry.score h e (heapBeatsRoot h e.score ctid docId) :=
    ⟨heapLess_respects_score _, fun _ => score_of_beats, fun _ => score_of_not_beats⟩
  obtain ⟨hvalid, hkeys, hle⟩ := offer_spec (fun _ _ hab => hab) hv hadmits
  refine Took.of_card hvalid (offer_capacity _ _ _) ?_ ?_
  · rw [add_comm, Multiset.singleton_add]
    exact hle
  · intro hroom
    rw [Multiset.card_singleton] at hroom ⊢
    have hcard := congrArg Multiset.card hkeys
    simp only [TopKHeap.keys, Multiset.coe_card, List.length_map, card_kLargest,
      Multiset.card_cons] at hcard
    omega

theorem addMemtableUndominated_eq_offer (h : TopKHeap) (ctid : ItemPointer) (score : ℚ) :
    addMemtableUndominated h ctid score =
      offer h (memtableEntry ctid score) (heapBeatsRoot h score (some ctid) 0) := by
  by_cases hdom : tpTopkDominated h score = true
  · simp [addMemtableUndominated, offer, memtableEntry, hdom]
  · simp [addMemtableUndominated, offer, memtableEntry, tpTopkAddMemtable, hdom]

theorem addMemtableUndominated_took {h : TopKHeap} (hv : h.ScoreValid) (ctid : ItemPointer)
    (score : ℚ) : Took h (addMemtableUndominated h ctid score) {memtableEntry ctid score} := by
  rw [addMemtableUndominated_eq_offer]
  exact offer_took hv (memtableEntry ctid score) (some ctid) 0

theorem addUndominated_took {h : TopKHeap} (hv : h.ScoreValid) (segBlock docId : Nat) (score : ℚ) :
    Took h (addUndominated h segBlock docId score) {segmentEntry segBlock docId score} := by
  rw [addUndominated_eq_offer]
  exact offer_took hv (segmentEntry segBlock docId score) none docId

/-! ## The candidates of a source -/

section Sources

variable {Term : Type} [DecidableEq Term]

/-- A dictionary entry a query can rely on: well formed, with the number of its postings
stored, no posting without an occurrence, and blocks whose maximal frequency is
positive. -/
structure EntryUsable (reader : SegmentReader Term) (e : DictEntry) : Prop where
  wellFormed : e.WellFormed
  docFreq_eq : e.docFreq = e.postings.length
  frequency_pos : ∀ p ∈ e.postings, 0 < p.frequency
  docId_lt : ∀ p ∈ e.postings, p.docId < reader.ctids.length
  positive : ∀ blk ∈ e.blocks, 0 < blk.skip.blockMaxTf

/-- What one memtable posting offers a single-term search. -/
def memtableSingleCandidates (P : ScoreParams) (mt : Memtable Term) (term : Term) (idf : ℚ) :
    List (ItemPointer × ℚ) :=
  (mt.postings term).map fun p =>
    (p.ctid, P.score idf p.frequency (memtableDocLength mt p.ctid))

theorem scoreMemtableSingleTerm_took (P : ScoreParams) (mt : Memtable Term) {heap : TopKHeap}
    (hv : heap.ScoreValid) (term : Term) (idf : ℚ) :
    Took heap (scoreMemtableSingleTerm P mt heap term idf)
      ((memtableSingleCandidates P mt term idf).map fun c => memtableEntry c.1 c.2 :
        List HeapEntry) := by
  rw [memtableSingleCandidates, List.map_map]
  exact Took.foldl (fun h p hv => addMemtableUndominated_took hv p.ctid _) hv _

/-- What the memtable offers a multi-term search. -/
def memtableMultiCandidates (P : ScoreParams) (mt : Memtable Term)
    (terms : List (TermState Term)) : List (ItemPointer × ℚ) :=
  (accumulateMemtable P mt terms).entries.map fun e => (e.1, e.2)

/-- The order of the scan does not change what is offered. -/
theorem memtableMultiCandidates_scan (hs : HashSeq) (P : ScoreParams) (mt : Memtable Term)
    (terms : List (TermState Term)) :
    (((memtableMultiCandidates P mt terms).map fun c => memtableEntry c.1 c.2 :
      List HeapEntry) : Multiset HeapEntry) =
      ((hs.scan (accumulateMemtable P mt terms).entries).map fun e => memtableEntry e.1 e.2 :
        List HeapEntry) := by
  rw [memtableMultiCandidates, List.map_map]
  exact Multiset.coe_eq_coe.2 ((hs.perm _).map _).symm

theorem scoreMemtableMultiTerm_took (hs : HashSeq) (P : ScoreParams) (mt : Memtable Term)
    {heap : TopKHeap} (hv : heap.ScoreValid) (terms : List (TermState Term)) :
    Took heap (scoreMemtableMultiTerm hs P mt heap terms)
      ((memtableMultiCandidates P mt terms).map fun c => memtableEntry c.1 c.2 :
        List HeapEntry) := by
  rw [memtableMultiCandidates_scan hs]
  exact Took.foldl (fun h e hv => addMemtableUndominated_took hv e.1 e.2) hv _

/-- What a segment offers a single-term search: document ids with scores. -/
def segmentSingleDocs (P : ScoreParams) (reader : SegmentReader Term) (term : Term) (idf : ℚ) :
    List (Nat × ℚ) :=
  (((reader.findTerm term).map DictEntry.postings).getD []).map fun p =>
    (p.docId, singleTermScore P idf p)

theorem docId_le_of_mem_singleDocs {P : ScoreParams} {reader : SegmentReader Term} {term : Term}
    {idf : ℚ} (hwf : ∀ e, reader.findTerm term = some e → e.WellFormed) {c : Nat × ℚ}
    (hc : c ∈ segmentSingleDocs P reader term idf) : c.1 ≤ uint32Max := by
  obtain ⟨p, hp, rfl⟩ := List.mem_map.1 hc
  cases hfind : reader.findTerm term with
  | none =>
      rw [hfind] at hp
      exact nomatch hp
  | some e =>
      rw [hfind] at hp
      exact ((hwf e hfind).docId_lt p hp).le

/-- A search with a filter offers what the filter keeps of it. -/
theorem scoreSegmentSingleTermBmw_took_filtered (P : ScoreParams) {f : DocFilter Term}
    (hf : f.Sound) {heap : TopKHeap} (hv : heap.ScoreValid) {term : Term} {idf : ℚ}
    (hidf : 0 ≤ idf) (hwf : ∀ e, f.reader.findTerm term = some e → e.WellFormed) :
    Took heap
      (scoreSegmentSingleTermBmw P f.reader heap term idf f.tenantId f.minDocId f.maxDocId)
      (((segmentSingleDocs P f.reader term idf).filter fun c => decide (f.Keeps c.1)).map fun c =>
        segmentEntry f.reader.rootBlock c.1 c.2 : List HeapEntry) := by
  cases hfind : f.reader.findTerm term with
  | none =>
      have hrun : scoreSegmentSingleTermBmw P f.reader heap term idf f.tenantId f.minDocId
          f.maxDocId = heap := by
        simp [scoreSegmentSingleTermBmw, tpSegmentPostingIteratorInit, hfind]
      rw [hrun]
      simp only [segmentSingleDocs, hfind]
      exact Took.refl hv
  | some e =>
      have hentry : ∀ h (p : BlockPosting), h.ScoreValid → Took h
          (offerPosting P f.reader.rootBlock idf h p)
          {segmentEntry f.reader.rootBlock p.docId (singleTermScore P idf p)} :=
        fun h p hv => addUndominated_took hv _ _ _
      have hwfe := hwf e hfind
      have hdocs : ((segmentSingleDocs P f.reader term idf).filter fun c =>
          decide (f.Keeps c.1)).map (fun c => segmentEntry f.reader.rootBlock c.1 c.2) =
          (keptPostings f e.postings).map fun p =>
            segmentEntry f.reader.rootBlock p.docId (singleTermScore P idf p) := by
        simp only [segmentSingleDocs, hfind, Option.map_some, Option.getD_some, keptPostings]
        rw [List.filter_map, List.map_map]
        rfl
      rw [hdocs]
      refine search_rule P hf (R := fun h ps h' => h.ScoreValid → Took h h'
        ((ps.map fun p => segmentEntry f.reader.rootBlock p.docId (singleTermScore P idf p) :
          List HeapEntry) : Multiset HeapEntry))
        hfind hwfe (fun h hv => Took.refl hv) ?_ ?_ ?_ heap hv
      · intro h₁ ps h₂ qs h₃ h12 h23 hv
        rw [List.map_append, ← Multiset.coe_add]
        exact (h12 hv).trans (h23 (h12 hv).valid)
      · intro h blk hmem hbelow hv
        refine Took.of_card hv rfl (Multiset.le_add_right _ _) ?_
        intro hroom
        simp only [Multiset.coe_card, List.length_map] at hroom ⊢
        by_cases hfull : h.capacity ≤ h.entries.length
        · omega
        · -- a heap with room has threshold zero, below which no block maximum is
          have hthreshold : tpTopkThreshold h = 0 := by
            rw [tpTopkThreshold, if_neg (by omega)]
          rw [hthreshold, P.blockMax_eq_score] at hbelow
          exact absurd hbelow (not_lt.2 (P.score_nonneg hidf _ _))
      · intro h blk hmem hv
        exact Took.foldl hentry hv _

theorem scoreSegmentSingleTermBmw_took (P : ScoreParams) {reader : SegmentReader Term}
    {heap : TopKHeap} (hv : heap.ScoreValid) {term : Term} {idf : ℚ} (hidf : 0 ≤ idf)
    (hwf : ∀ e, reader.findTerm term = some e → e.WellFormed) :
    Took heap (scoreSegmentSingleTermBmw P reader heap term idf 0 0 uint32Max)
      ((segmentSingleDocs P reader term idf).map fun c =>
        segmentEntry reader.rootBlock c.1 c.2 : List HeapEntry) := by
  have hall : (segmentSingleDocs P reader term idf).filter
      (fun c => decide ((DocFilter.unfiltered reader).Keeps c.1)) =
      segmentSingleDocs P reader term idf := by
    refine List.filter_eq_self.2 fun c hc => decide_eq_true (DocFilter.keeps_unfiltered.2 ?_)
    exact docId_le_of_mem_singleDocs hwf hc
  have htook := scoreSegmentSingleTermBmw_took_filtered P (DocFilter.sound_unfiltered reader) hv
    hidf hwf
  have hreader : (DocFilter.unfiltered reader).reader = reader := rfl
  rw [hreader, hall] at htook
  exact htook

/-- What a segment offers a multi-term search. -/
def segmentMultiDocs (P : ScoreParams) (reader : SegmentReader Term)
    (query : List (TermState Term)) : List (Nat × ℚ) :=
  (matchingDocs reader query).map fun d => (d, segmentDocScore P reader query d)

theorem ScoredAmong.took {P : ScoreParams} {reader : SegmentReader Term}
    {query : List (TermState Term)} {docs : List Nat} {heap heap' : TopKHeap} {scored : List Nat}
    (hs : ScoredAmong P reader query docs heap heap' scored) (hdocs : docs.Nodup)
    (hv : heap.ScoreValid) :
    Took heap heap' ((docs.map fun d =>
      segmentEntry reader.rootBlock d (segmentDocScore P reader query d) :
        List HeapEntry) : Multiset HeapEntry) := by
  have hsub : (scored : Multiset Nat) ≤ (docs : Multiset Nat) :=
    (Multiset.le_iff_subset (Multiset.coe_nodup.2 hs.nodup)).2 fun d hd => hs.matching d hd
  rw [← Multiset.map_coe]
  refine Took.of_card hs.valid hs.capacity
    (hs.entries.trans (add_le_add_right (Multiset.map_le_map hsub) _)) ?_
  intro hroom
  rw [Multiset.card_map, Multiset.coe_card] at hroom ⊢
  have hcard := congrArg Multiset.card hs.scores
  simp only [TopKHeap.keys, Multiset.coe_card, List.length_map, card_kLargest,
    Multiset.card_add, Multiset.card_map] at hcard
  have hscored : scored.length ≤ docs.length := by
    simpa using Multiset.card_le_card hsub
  by_contra hlt
  -- a document left out needs a full heap
  obtain ⟨d, hd, hnot⟩ : ∃ d ∈ docs, d ∉ scored := by
    by_contra hnone
    push Not at hnone
    have hle : (docs : Multiset Nat) ≤ (scored : Multiset Nat) :=
      (Multiset.le_iff_subset (Multiset.coe_nodup.2 hdocs)).2 fun d hd => hnone d hd
    have hge := Multiset.card_le_card hle
    simp only [Multiset.coe_card] at hge
    omega
  have hfull := (hs.omitted d hd hnot).1
  unfold TopKHeap.Full at hfull
  rw [hs.capacity] at hfull
  have := hv.size_le
  omega

theorem Scored.took {P : ScoreParams} {reader : SegmentReader Term}
    {query : List (TermState Term)} {heap heap' : TopKHeap} {scored : List Nat}
    (hs : Scored P reader query heap heap' scored) (hv : heap.ScoreValid) :
    Took heap heap' ((segmentMultiDocs P reader query).map fun c =>
      segmentEntry reader.rootBlock c.1 c.2 : List HeapEntry) := by
  rw [segmentMultiDocs, List.map_map]
  exact ScoredAmong.took hs (List.nodup_dedup _) hv

/-! ## The query terms a search keeps -/

theorem termPostings_eq {reader : SegmentReader Term} {q q' : TermState Term}
    (h : q.queryTerm = q'.queryTerm) : termPostings reader q = termPostings reader q' := by
  rw [termPostings, termPostings, show q.term = q'.term from congrArg Prod.fst h]

theorem termContribution_eq (P : ScoreParams) {reader : SegmentReader Term} {q q' : TermState Term}
    (h : q.queryTerm = q'.queryTerm) (d : Nat) :
    termContribution P reader q d = termContribution P reader q' d := by
  have hidf : q.idf = q'.idf := congrArg (fun t => t.2.1) h
  have hfreq : q.queryFreq = q'.queryFreq := congrArg (fun t => t.2.2) h
  have hscore : q.postingScore P = q'.postingScore P := by
    funext p
    rw [TermState.postingScore, TermState.postingScore, hidf, hfreq]
  rw [termContribution, termContribution, termPostings_eq h, hscore]

/-- The same query terms in another order, whatever else the states hold. -/
def SameTerms (terms terms' : List (TermState Term)) : Prop :=
  (terms.map TermState.queryTerm).Perm (terms'.map TermState.queryTerm)

omit [DecidableEq Term] in
/-- What depends on the query term only is the same up to order. -/
theorem SameTerms.map_perm {terms terms' : List (TermState Term)} (h : SameTerms terms terms')
    {β : Type} {f : TermState Term → β}
    (hf : ∀ q q' : TermState Term, q.queryTerm = q'.queryTerm → f q = f q') :
    (terms.map f).Perm (terms'.map f) := by
  have hfactor : ∀ l : List (TermState Term),
      l.map f = (l.map TermState.queryTerm).map fun t => f (newTermState t.1 t.2.1 0 |> fun ts =>
        { ts with queryFreq := t.2.2 }) := by
    intro l
    rw [List.map_map]
    apply List.map_congr_left
    intro q _
    exact hf _ _ rfl
  rw [hfactor, hfactor]
  exact h.map _

omit [DecidableEq Term] in
theorem SameTerms.exists_mem {terms terms' : List (TermState Term)} (h : SameTerms terms terms')
    {q : TermState Term} (hq : q ∈ terms) : ∃ q' ∈ terms', q'.queryTerm = q.queryTerm :=
  List.mem_map.1 (h.mem_iff.1 (List.mem_map_of_mem hq))

omit [DecidableEq Term] in
private theorem queryTerm_fields {q q' : TermState Term} (heq : q'.queryTerm = q.queryTerm) :
    q'.term = q.term ∧ q'.idf = q.idf ∧ q'.queryFreq = q.queryFreq :=
  ⟨congrArg Prod.fst heq, congrArg (fun t => t.2.1) heq, congrArg (fun t => t.2.2) heq⟩

theorem SameTerms.scorable {reader : SegmentReader Term} {terms terms' : List (TermState Term)}
    (h : SameTerms terms terms') (hs : Scorable reader terms') : Scorable reader terms := by
  constructor
  · intro q hq
    obtain ⟨q', hq', heq⟩ := h.exists_mem hq
    rw [← (queryTerm_fields heq).2.1]
    exact hs.idf_nonneg q' hq'
  · intro q hq
    obtain ⟨q', hq', heq⟩ := h.exists_mem hq
    rw [← (queryTerm_fields heq).2.2]
    exact hs.queryFreq_pos q' hq'
  · intro q hq
    obtain ⟨q', hq', heq⟩ := h.exists_mem hq
    rw [← (queryTerm_fields heq).1]
    exact hs.wellFormed q' hq'
  · intro q hq
    obtain ⟨q', hq', heq⟩ := h.exists_mem hq
    rw [← (queryTerm_fields heq).1]
    exact hs.positive q' hq'

theorem SameTerms.rankable {reader : SegmentReader Term} {terms terms' : List (TermState Term)}
    (h : SameTerms terms terms') (hs : Rankable reader terms') : Rankable reader terms where
  toScorable := h.scorable hs.toScorable
  idf_pos := by
    intro q hq
    obtain ⟨q', hq', heq⟩ := h.exists_mem hq
    rw [← (queryTerm_fields heq).1, ← (queryTerm_fields heq).2.1]
    exact hs.idf_pos q' hq'

theorem SameTerms.blockMaxSound {P : ScoreParams} {reader : SegmentReader Term}
    {terms terms' : List (TermState Term)} (h : SameTerms terms terms')
    (hsound : ∀ q ∈ terms', ∀ e, reader.findTerm q.term = some e → ∀ blk ∈ e.blocks,
      BlockMaxSound P q.idf blk) :
    ∀ q ∈ terms, ∀ e, reader.findTerm q.term = some e → ∀ blk ∈ e.blocks,
      BlockMaxSound P q.idf blk := by
  intro q hq
  obtain ⟨q', hq', heq⟩ := h.exists_mem hq
  rw [← (queryTerm_fields heq).1, ← (queryTerm_fields heq).2.1]
  exact hsound q' hq'

theorem SameTerms.multiDocs_perm (P : ScoreParams) {reader : SegmentReader Term}
    {terms terms' : List (TermState Term)} (h : SameTerms terms terms') :
    (segmentMultiDocs P reader terms).Perm (segmentMultiDocs P reader terms') := by
  have hscore : segmentDocScore P reader terms = segmentDocScore P reader terms' := by
    funext d
    exact (h.map_perm fun q q' heq => termContribution_eq P heq d).sum_eq
  have hdocs : (matchingDocs reader terms).Perm (matchingDocs reader terms') := by
    apply List.Perm.dedup
    rw [List.flatMap_def, List.flatMap_def]
    apply List.Perm.flatten
    apply h.map_perm
    intro q q' heq
    rw [termPostings_eq heq]
  rw [segmentMultiDocs, segmentMultiDocs, hscore]
  exact hdocs.map _

end Sources

/-! ## Resolving and extracting -/

section Results

variable {Term : Type} [DecidableEq Term]

/-- An index state queries can rely on: usable dictionary entries, distinct root blocks,
statistics that count every document, and every document in one source only. -/
structure IndexView.WellFormed (view : IndexView Term) : Prop where
  usable : ∀ r ∈ view.segments, ∀ term e, r.findTerm term = some e → EntryUsable r e
  roots_nodup : (view.segments.map (·.rootBlock)).Nodup
  roots_valid : ∀ r ∈ view.segments, r.rootBlock ≠ invalidBlockNumber
  counted : ∀ term, tpGetUnifiedDocFreq view term ≤ view.totalDocs
  frequency_pos : ∀ term, ∀ p ∈ view.memtable.postings term, 0 < p.frequency
  covered : ∀ term, ∀ p ∈ view.memtable.postings term,
    ∃ entry, view.memtable.docLengths.lookup p.ctid = some entry ∧ 0 < entry.docLength
  postings_nodup : ∀ term, ((view.memtable.postings term).map (·.ctid)).Nodup
  ctids_nodup : (view.segments.flatMap (·.ctids)).Nodup
  separate : ∀ ctid, (view.memtable.docLengths.lookup ctid).isSome →
    ∀ r ∈ view.segments, ctid ∉ r.ctids

omit [DecidableEq Term] in
/-- The segments can be told apart by their root blocks. -/
structure IndexView.Rooted (view : IndexView Term) : Prop where
  nodup : (view.segments.map (·.rootBlock)).Nodup
  valid : ∀ r ∈ view.segments, r.rootBlock ≠ invalidBlockNumber

theorem IndexView.WellFormed.rooted {view : IndexView Term} (hwf : view.WellFormed) :
    view.Rooted :=
  ⟨hwf.roots_nodup, hwf.roots_valid⟩

omit [DecidableEq Term] in
/-- The CTID and score an entry of the result heap ends up with. -/
def IndexView.entryResult (view : IndexView Term) (e : HeapEntry) : ItemPointer × ℚ :=
  if e.segBlock = invalidBlockNumber then (e.ctid, e.score)
  else
    match view.openSegment e.segBlock with
    | none => (e.ctid, e.score)
    | some reader => (tpSegmentLookupCtid reader e.docId, e.score)

omit [DecidableEq Term] in
theorem extract_perm (qs : Qsort) (view : IndexView Term) (h : TopKHeap) :
    (tpTopkExtract qs (tpTopkResolveCtids view.openSegment h)).Perm
      (h.entries.map view.entryResult) := by
  have hresolved : ((tpTopkResolveCtids view.openSegment h).entries.map
      fun e => (e.ctid, e.score)) = h.entries.map view.entryResult := by
    simp only [tpTopkResolveCtids, List.map_map]
    apply List.map_congr_left
    intro e _
    simp only [Function.comp_apply, IndexView.entryResult]
    split
    · rfl
    · cases view.openSegment e.segBlock <;> rfl
  rw [← hresolved]
  exact (qs.perm _ _).map _

omit [DecidableEq Term] in
@[simp] theorem entryResult_memtable (view : IndexView Term) (ctid : ItemPointer) (score : ℚ) :
    view.entryResult (memtableEntry ctid score) = (ctid, score) := by
  simp [IndexView.entryResult, memtableEntry]

omit [DecidableEq Term] in
theorem IndexView.Rooted.entryResult_segment {view : IndexView Term} (hroot : view.Rooted)
    {reader : SegmentReader Term} (hr : reader ∈ view.segments) (docId : Nat) (score : ℚ) :
    view.entryResult (segmentEntry reader.rootBlock docId score) =
      (tpSegmentLookupCtid reader docId, score) := by
  have hopen : view.openSegment reader.rootBlock = some reader :=
    DistinctKeys.find?_eq_some hroot.nodup hr rfl
  simp only [IndexView.entryResult, segmentEntry, if_neg (hroot.valid reader hr), hopen]

/-- Everything a single-term search is offered. -/
def singleTermCandidates (P : ScoreParams) (view : IndexView Term) (term : Term) (idf : ℚ) :
    List (ItemPointer × ℚ) :=
  memtableSingleCandidates P view.memtable term idf ++ view.segments.flatMap fun reader =>
    (segmentSingleDocs P reader term idf).map fun c => (tpSegmentLookupCtid reader c.1, c.2)

/-- Everything a multi-term search is offered. -/
def multiTermCandidates (P : ScoreParams) (view : IndexView Term)
    (terms : List (TermState Term)) : List (ItemPointer × ℚ) :=
  memtableMultiCandidates P view.memtable terms ++ view.segments.flatMap fun reader =>
    (segmentMultiDocs P reader terms).map fun c => (tpSegmentLookupCtid reader c.1, c.2)

/-- What a search of limit `k` returns of its candidates. -/
structure Returns (results candidates : List (ItemPointer × ℚ)) (k : Nat) : Prop where
  subperm : results.Subperm candidates
  all : candidates.length ≤ k → results.Perm candidates

omit [DecidableEq Term] in
/-- The results of a heap that took the memtable's and the segments' candidates. -/
theorem returns_of_took (qs : Qsort) {view : IndexView Term} (hroot : view.Rooted) {k : Nat}
    {heap : TopKHeap} (fromMemtable : List (ItemPointer × ℚ))
    (fromSegment : SegmentReader Term → List (Nat × ℚ))
    (htook : Took (tpTopkInit k) heap
      (((fromMemtable.map fun c => memtableEntry c.1 c.2) ++ view.segments.flatMap fun reader =>
        (fromSegment reader).map fun c => segmentEntry reader.rootBlock c.1 c.2 :
          List HeapEntry) : Multiset HeapEntry)) :
    Returns (tpTopkExtract qs (tpTopkResolveCtids view.openSegment heap))
      (fromMemtable ++ view.segments.flatMap fun reader =>
        (fromSegment reader).map fun c => (tpSegmentLookupCtid reader c.1, c.2)) k := by
  obtain ⟨offered, hoffered⟩ : ∃ offered : List HeapEntry, offered =
      (fromMemtable.map fun c => memtableEntry c.1 c.2) ++ view.segments.flatMap fun reader =>
        (fromSegment reader).map fun c => segmentEntry reader.rootBlock c.1 c.2 := ⟨_, rfl⟩
  have hresults : offered.map view.entryResult =
      fromMemtable ++ view.segments.flatMap fun reader =>
        (fromSegment reader).map fun c => (tpSegmentLookupCtid reader c.1, c.2) := by
    rw [hoffered, List.map_append, List.map_map, List.map_flatMap]
    congr 1
    · simp [Function.comp_def]
    · apply List.flatMap_congr
      intro reader hr
      rw [List.map_map]
      apply List.map_congr_left
      intro c _
      exact hroot.entryResult_segment hr c.1 c.2
  rw [← hoffered] at htook
  rw [← hresults]
  have hle := htook.le
  rw [show ((tpTopkInit k).entries : Multiset HeapEntry) = 0 from rfl, zero_add] at hle
  constructor
  · have hmap := Multiset.map_le_map (f := view.entryResult) hle
    rw [Multiset.map_coe, Multiset.map_coe] at hmap
    exact (extract_perm qs view heap).subperm.trans (Multiset.coe_le.1 hmap)
  · intro hlen
    rw [List.length_map] at hlen
    have hall := htook.all (by simpa [tpTopkInit] using hlen)
    rw [show ((tpTopkInit k).entries : Multiset HeapEntry) = 0 from rfl, zero_add] at hall
    exact (extract_perm qs view heap).trans ((Multiset.coe_eq_coe.1 hall).map _)

/-- **The single-term search.** -/
theorem tpScoreSingleTermBmw_returns (qs : Qsort) (P : ScoreParams) {view : IndexView Term}
    (hwf : view.WellFormed) (term : Term) {idf : ℚ} (hidf : 0 ≤ idf) {k : Nat} (hk : 0 < k) :
    Returns (tpScoreSingleTermBmw qs P view term idf k)
      (singleTermCandidates P view term idf) k := by
  have hmem := scoreMemtableSingleTerm_took P view.memtable (tpTopkInit_valid hk) term idf
  have hsegment : ∀ h, ∀ reader ∈ view.segments, h.ScoreValid →
      Took h (scoreSegmentSingleTermBmw P reader h term idf 0 0 uint32Max)
        ((segmentSingleDocs P reader term idf).map fun c =>
          segmentEntry reader.rootBlock c.1 c.2 : List HeapEntry) :=
    fun h reader hr hv => scoreSegmentSingleTermBmw_took P hv hidf
      fun e he => (hwf.usable reader hr term e he).wellFormed
  apply returns_of_took qs hwf.rooted
  rw [← Multiset.coe_add]
  exact hmem.trans (Took.foldl_flatMap hsegment hmem.valid)

/-- **The multi-term search** returns. -/
theorem tpScoreMultiTermBmw_returns (qs : Qsort) (hs : HashSeq) (P : ScoreParams)
    {view : IndexView Term} (hwf : view.WellFormed) (terms : List (TermState Term))
    (hrank : ∀ r ∈ view.segments, Rankable r terms) {k : Nat} (hk : 0 < k) :
    ∃ results, tpScoreMultiTermBmw qs hs P view terms k = some results ∧
      Returns results (multiTermCandidates P view terms) k := by
  have hmem := scoreMemtableMultiTerm_took hs P view.memtable (tpTopkInit_valid hk) terms
  have hsegments : ∀ (l : List (SegmentReader Term)) (h : TopKHeap)
      (terms' : List (TermState Term)), h.ScoreValid → SameTerms terms' terms →
      (∀ r ∈ l, r ∈ view.segments) →
      ∃ heap, searchSegments qs P l h terms' = some heap ∧ Took h heap
        ((l.flatMap fun reader => (segmentMultiDocs P reader terms).map fun c =>
          segmentEntry reader.rootBlock c.1 c.2 : List HeapEntry) : Multiset HeapEntry) := by
    intro l
    induction l with
    | nil => exact fun h terms' hv _ _ => ⟨h, rfl, Took.refl hv⟩
    | cons reader rest ih =>
        intro h terms' hv hsame hsub
        have hrankable := hsame.rankable (hrank reader (hsub reader List.mem_cons_self))
        obtain ⟨st, scored, hrun, hterms, hscored⟩ :=
          searchSegment_scored qs P reader h terms' hrankable hv
        have hfirst := hscored.took hv
        obtain ⟨heap, hruns, hrest⟩ := ih st.heap st.terms hfirst.valid
          (List.Perm.trans hterms hsame) fun r hr => hsub r (List.mem_cons_of_mem _ hr)
        have hdocs : (((segmentMultiDocs P reader terms').map fun c =>
            segmentEntry reader.rootBlock c.1 c.2 : List HeapEntry) : Multiset HeapEntry) =
            ((segmentMultiDocs P reader terms).map fun c =>
              segmentEntry reader.rootBlock c.1 c.2 : List HeapEntry) :=
          Multiset.coe_eq_coe.2 ((hsame.multiDocs_perm P).map _)
        rw [hdocs] at hfirst
        refine ⟨heap, by simp only [searchSegments, hrun, hruns], ?_⟩
        rw [List.flatMap_cons, ← Multiset.coe_add]
        exact hfirst.trans hrest
  obtain ⟨heap, hrun, hall⟩ := hsegments view.segments _ terms hmem.valid
    (List.Perm.refl _) fun r hr => hr
  refine ⟨tpTopkExtract qs (tpTopkResolveCtids view.openSegment heap), ?_, ?_⟩
  · rw [tpScoreMultiTermBmw]
    simp only [hrun]
    rfl
  apply returns_of_took qs hwf.rooted
  rw [← Multiset.coe_add]
  exact hmem.trans hall

end Results

/-! ## The score of a document -/

section Documents

/-- The scores added under a CTID. -/
def addedScore (l : List (ItemPointer × ℚ)) (ctid : ItemPointer) : ℚ :=
  ((l.filter (·.1 = ctid)).map Prod.snd).sum

theorem lookup_accumulateScore (table : AList fun _ : ItemPointer => ℚ) (ctid : ItemPointer)
    (termScore : ℚ) : (accumulateScore table ctid termScore).lookup ctid =
      some ((table.lookup ctid).getD 0 + termScore) := by
  unfold accumulateScore
  cases table.lookup ctid <;> simp

theorem lookup_accumulateScore_ne (table : AList fun _ : ItemPointer => ℚ)
    {ctid ctid' : ItemPointer} (hne : ctid' ≠ ctid) (termScore : ℚ) :
    (accumulateScore table ctid termScore).lookup ctid' = table.lookup ctid' := by
  unfold accumulateScore
  cases table.lookup ctid <;> exact AList.lookup_insert_ne hne

/-- A CTID in the table gains what is added under it. -/
theorem lookup_accumulate_some (l : List (ItemPointer × ℚ)) (ctid : ItemPointer)
    (table : AList fun _ : ItemPointer => ℚ) {score : ℚ} (h : table.lookup ctid = some score) :
    (l.foldl (fun table c => accumulateScore table c.1 c.2) table).lookup ctid =
      some (score + addedScore l ctid) := by
  induction l generalizing table score with
  | nil => simp [h, addedScore]
  | cons c l ih =>
      rw [List.foldl_cons]
      by_cases hc : c.1 = ctid
      · subst hc
        have hadd := lookup_accumulateScore table c.1 c.2
        rw [h, Option.getD_some] at hadd
        rw [ih _ hadd]
        simp [addedScore, add_assoc]
      · have hadd := lookup_accumulateScore_ne table (Ne.symm hc) c.2
        rw [ih _ (hadd.trans h)]
        simp [addedScore, hc]

/-- A CTID not in the table comes in with the sum of what is added under it. -/
theorem lookup_accumulate_none (l : List (ItemPointer × ℚ)) (ctid : ItemPointer)
    (table : AList fun _ : ItemPointer => ℚ) (h : table.lookup ctid = none) (score : ℚ) :
    (l.foldl (fun table c => accumulateScore table c.1 c.2) table).lookup ctid = some score ↔
      (∃ c ∈ l, c.1 = ctid) ∧ score = addedScore l ctid := by
  induction l generalizing table with
  | nil => simp [h]
  | cons c l ih =>
      rw [List.foldl_cons]
      by_cases hc : c.1 = ctid
      · subst hc
        have hadd := lookup_accumulateScore table c.1 c.2
        rw [h, Option.getD_none, zero_add] at hadd
        rw [lookup_accumulate_some l c.1 _ hadd, Option.some.injEq]
        have hsum : addedScore (c :: l) c.1 = c.2 + addedScore l c.1 := by simp [addedScore]
        rw [hsum]
        exact ⟨fun heq => ⟨⟨c, List.mem_cons_self, rfl⟩, heq.symm⟩, fun h => h.2.symm⟩
      · have hadd := lookup_accumulateScore_ne table (Ne.symm hc) c.2
        have hsum : addedScore (c :: l) ctid = addedScore l ctid := by simp [addedScore, hc]
        rw [ih _ (hadd.trans h), hsum]
        simp [hc]

theorem mem_tableEntries (table : AList fun _ : ItemPointer => ℚ) (ctid : ItemPointer)
    (score : ℚ) : (ctid, score) ∈ table.entries.map (fun e => (e.1, e.2)) ↔
      table.lookup ctid = some score := by
  constructor
  · intro h
    obtain ⟨e, he, heq⟩ := List.mem_map.1 h
    cases heq
    exact AList.mem_lookup_iff.2 he
  · intro h
    exact List.mem_map.2 ⟨⟨ctid, score⟩, AList.mem_lookup_iff.1 h, rfl⟩

variable {Term : Type} [DecidableEq Term]

/-- What every posting of the query terms adds in the memtable, in the order of the
additions. -/
def memtableContributions (P : ScoreParams) (mt : Memtable Term)
    (terms : List (TermState Term)) : List (ItemPointer × ℚ) :=
  terms.flatMap fun ts => (mt.postings ts.term).map fun posting =>
    (posting.ctid,
      P.score ts.idf posting.frequency (memtableDocLength mt posting.ctid) * ts.queryFreq)

theorem accumulateMemtable_eq (P : ScoreParams) (mt : Memtable Term)
    (terms : List (TermState Term)) :
    accumulateMemtable P mt terms = (memtableContributions P mt terms).foldl
      (fun table c => accumulateScore table c.1 c.2) ∅ := by
  rw [accumulateMemtable, memtableContributions, List.foldl_flatMap]
  congr 1
  funext table ts
  rw [List.foldl_map]

theorem mem_memtableMultiCandidates (P : ScoreParams) (mt : Memtable Term)
    (terms : List (TermState Term)) (ctid : ItemPointer) (score : ℚ) :
    (ctid, score) ∈ memtableMultiCandidates P mt terms ↔
      (∃ ts ∈ terms, ∃ p ∈ mt.postings ts.term, p.ctid = ctid) ∧
        score = addedScore (memtableContributions P mt terms) ctid := by
  have hexists : (∃ c ∈ memtableContributions P mt terms, c.1 = ctid) ↔
      ∃ ts ∈ terms, ∃ p ∈ mt.postings ts.term, p.ctid = ctid := by
    simp only [memtableContributions, List.mem_flatMap, List.mem_map]
    constructor
    · rintro ⟨c, ⟨ts, hts, p, hp, rfl⟩, hc⟩
      exact ⟨ts, hts, p, hp, hc⟩
    · rintro ⟨ts, hts, p, hp, hc⟩
      exact ⟨_, ⟨ts, hts, p, hp, rfl⟩, hc⟩
  rw [memtableMultiCandidates, mem_tableEntries, ← hexists, accumulateMemtable_eq]
  exact lookup_accumulate_none _ ctid ∅ (AList.lookup_empty ctid) score

end Documents

end PgTextsearch.Query
