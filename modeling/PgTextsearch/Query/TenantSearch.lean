import Mathlib.Data.List.Sigma
import PgTextsearch.Query.Candidates
import PgTextsearch.Query.Operator

/-!
# Searching for one tenant (`query/bmw.c`)

The two Block-Max WAND searches with a tenant filter.  The memtable passes skip the postings
of other tenants, and every segment is searched with its own filter or, if it is
tenant-ordered without a range for the tenant, not at all.

Such a search is measured against the search without a tenant: it should return those of
its documents that are the tenant's, with their scores (`tenantMatches`).  It does, except
that a tenant-ordered segment has no range for the tenant `UINT32_MAX`.

## Main results

* `scoreMemtableMultiTermFor_took`, `searchSegmentsFor_took` — what every source gives.
* `bmwSearch_returns` — a search for a tenant against what it is offered.
* `tenantSearch_exact_iff` — it returns exactly the tenant's documents, unless the tenant
  is `UINT32_MAX` and a tenant-ordered segment has a match of it.
-/

namespace PgTextsearch.Query

open PgTextsearch.Postgres PgTextsearch.Segment PgTextsearch.Verified

variable {Term : Type}

/-- What a search with a tenant filter reads of an index: the tenant ranges of the
tenant-ordered segments too, by root block. -/
structure TenantView (Term : Type) extends IndexView Term where
  tenantRanges : Nat → Option (List TenantRange)

section Search

variable [DecidableEq Term]

/-! ## The searches -/

/-- The test the memtable passes skip a posting by. -/
def OtherTenant (tenantId : Nat) (posting : MemPosting) : Prop :=
  tenantId ≠ 0 ∧ posting.tenantId ≠ tenantId

instance (tenantId : Nat) : DecidablePred (OtherTenant tenantId) := fun _ =>
  inferInstanceAs (Decidable (_ ∧ _))

/-- `score_memtable_single_term` with a tenant. -/
def scoreMemtableSingleTermFor (P : ScoreParams) (mt : Memtable Term) (heap : TopKHeap)
    (term : Term) (idf : ℚ) (tenantId : Nat) : TopKHeap :=
  (mt.postings term).foldl (fun heap posting =>
    if OtherTenant tenantId posting then heap
    else addMemtableUndominated heap posting.ctid
      (P.score idf posting.frequency (memtableDocLength mt posting.ctid))) heap

/-- The accumulation of `score_memtable_multi_term` with a tenant. -/
def accumulateMemtableFor (P : ScoreParams) (mt : Memtable Term) (terms : List (TermState Term))
    (tenantId : Nat) : AList fun _ : ItemPointer => ℚ :=
  terms.foldl (fun table ts =>
    (mt.postings ts.term).foldl (fun table posting =>
      if OtherTenant tenantId posting then table
      else accumulateScore table posting.ctid
        (P.score ts.idf posting.frequency (memtableDocLength mt posting.ctid) *
          ts.queryFreq)) table) ∅

/-- `score_memtable_multi_term` with a tenant. -/
def scoreMemtableMultiTermFor (hs : HashSeq) (P : ScoreParams) (mt : Memtable Term)
    (heap : TopKHeap) (terms : List (TermState Term)) (tenantId : Nat) : TopKHeap :=
  (hs.scan (accumulateMemtableFor P mt terms tenantId).entries).foldl
    (fun heap entry => addMemtableUndominated heap entry.1 entry.2) heap

/-- The filter a segment of the index is searched with, if it is searched. -/
def TenantView.filterFor (view : TenantView Term) (tenantId : Nat) (reader : SegmentReader Term) :
    Option (DocFilter Term) :=
  segmentFilter reader (view.tenantRanges reader.rootBlock) tenantId

/-- `tp_score_single_term_bmw`. -/
def tpScoreSingleTermBmwFor (qs : Qsort) (P : ScoreParams) (view : TenantView Term) (term : Term)
    (idf : ℚ) (maxResults tenantId : Nat) : List (ItemPointer × ℚ) :=
  let heap := scoreMemtableSingleTermFor P view.memtable (tpTopkInit maxResults) term idf tenantId
  let heap := view.segments.foldl (fun heap reader =>
    match view.filterFor tenantId reader with
    | none => heap
    | some f =>
        scoreSegmentSingleTermBmw P f.reader heap term idf f.tenantId f.minDocId f.maxDocId) heap
  tpTopkExtract qs (tpTopkResolveCtids view.openSegment heap)

/-- The loop over the segments of `tp_score_multi_term_bmw`. -/
def searchSegmentsFor (qs : Qsort) (P : ScoreParams) (view : TenantView Term) (tenantId : Nat) :
    List (SegmentReader Term) → TopKHeap → List (TermState Term) → Option TopKHeap
  | [], heap, _ => some heap
  | reader :: rest, heap, terms =>
      match view.filterFor tenantId reader with
      | none => searchSegmentsFor qs P view tenantId rest heap terms
      | some f =>
          match searchFiltered qs P f heap terms with
          | none => none
          | some st => searchSegmentsFor qs P view tenantId rest st.heap st.terms

/-- `tp_score_multi_term_bmw`. -/
def tpScoreMultiTermBmwFor (qs : Qsort) (hs : HashSeq) (P : ScoreParams) (view : TenantView Term)
    (terms : List (TermState Term)) (maxResults tenantId : Nat) :
    Option (List (ItemPointer × ℚ)) :=
  let heap :=
    scoreMemtableMultiTermFor hs P view.memtable (tpTopkInit maxResults) terms tenantId
  (searchSegmentsFor qs P view tenantId view.segments heap terms).map fun heap =>
    tpTopkExtract qs (tpTopkResolveCtids view.openSegment heap)

/-- The term states of a query: terms with their IDF and frequency in the query. -/
def queryStates (query : List (Term × ℚ × Nat)) : List (TermState Term) :=
  query.map fun q => newTermState q.1 q.2.1 q.2.2

/-- The search `tp_score_documents` chooses: one query term, or several. -/
def bmwSearch (qs : Qsort) (hs : HashSeq) (P : ScoreParams) (view : TenantView Term) (k : Nat)
    (tenantId : Nat) : List (Term × ℚ × Nat) → Option (List (ItemPointer × ℚ))
  | [(term, idf, _)] => some (tpScoreSingleTermBmwFor qs P view term idf k tenantId)
  | query => tpScoreMultiTermBmwFor qs hs P view (queryStates query) k tenantId

/-! Without a tenant these are the searches of the whole index. -/

theorem tpScoreSingleTermBmwFor_zero (qs : Qsort) (P : ScoreParams) (view : TenantView Term)
    (term : Term) (idf : ℚ) (k : Nat) : tpScoreSingleTermBmwFor qs P view term idf k 0 =
      tpScoreSingleTermBmw qs P view.toIndexView term idf k := by
  simp only [tpScoreSingleTermBmwFor, tpScoreSingleTermBmw, TenantView.filterFor,
    segmentFilter_zero, DocFilter.unfiltered, scoreMemtableSingleTermFor, scoreMemtableSingleTerm,
    OtherTenant, ne_eq, not_true_eq_false, false_and, if_false]

theorem searchSegmentsFor_zero (qs : Qsort) (P : ScoreParams) (view : TenantView Term)
    (readers : List (SegmentReader Term)) (heap : TopKHeap) (terms : List (TermState Term)) :
    searchSegmentsFor qs P view 0 readers heap terms = searchSegments qs P readers heap terms := by
  induction readers generalizing heap terms with
  | nil => rfl
  | cons reader rest ih =>
      unfold searchSegmentsFor searchSegments TenantView.filterFor
      rw [segmentFilter_zero]
      cases hrun : searchSegment qs P reader heap terms with
      | none => simp only [searchFiltered_unfiltered, hrun]
      | some st => simp only [searchFiltered_unfiltered, hrun, ih]

theorem tpScoreMultiTermBmwFor_zero (qs : Qsort) (hs : HashSeq) (P : ScoreParams)
    (view : TenantView Term) (terms : List (TermState Term)) (k : Nat) :
    tpScoreMultiTermBmwFor qs hs P view terms k 0 =
      tpScoreMultiTermBmw qs hs P view.toIndexView terms k := by
  simp only [tpScoreMultiTermBmwFor, tpScoreMultiTermBmw, searchSegmentsFor_zero,
    scoreMemtableMultiTermFor, scoreMemtableMultiTerm, accumulateMemtableFor, accumulateMemtable,
    OtherTenant, ne_eq, not_true_eq_false, false_and, if_false]

/-! ## What a search for a tenant should return -/

/-- The tenant of a document of the memtable. -/
def memtableTenant (mt : Memtable Term) (ctid : ItemPointer) : Nat :=
  ((mt.docLengths.lookup ctid).map (·.tenantId)).getD 0

/-- Every posting of the memtable has the tenant of its document. -/
def PostingTenants (mt : Memtable Term) : Prop :=
  ∀ term, ∀ p ∈ mt.postings term, p.tenantId = memtableTenant mt p.ctid

/-- What the memtable gives a search without a tenant. -/
def memtableMatches (P : ScoreParams) (mt : Memtable Term) :
    List (Term × ℚ × Nat) → List (ItemPointer × ℚ)
  | [(term, idf, _)] => memtableSingleCandidates P mt term idf
  | query => memtableMultiCandidates P mt (queryStates query)

/-- What a segment gives a search without a tenant. -/
def segmentMatches (P : ScoreParams) (reader : SegmentReader Term) :
    List (Term × ℚ × Nat) → List (Nat × ℚ)
  | [(term, idf, _)] => segmentSingleDocs P reader term idf
  | query => segmentMultiDocs P reader (queryStates query)

/-- The documents of a segment that are the tenant's. -/
def ofTenant (reader : SegmentReader Term) (tenantId : Nat) (docs : List (Nat × ℚ)) :
    List (Nat × ℚ) :=
  docs.filter fun c => tpSegmentGetTenantId reader c.1 = tenantId

/-- Those of the matching documents that are the tenant's, with their scores. -/
def tenantMatches (P : ScoreParams) (view : TenantView Term) (tenantId : Nat)
    (query : List (Term × ℚ × Nat)) : List (ItemPointer × ℚ) :=
  ((memtableMatches P view.memtable query).filter fun c =>
      memtableTenant view.memtable c.1 = tenantId) ++
    view.segments.flatMap fun reader =>
      (ofTenant reader tenantId (segmentMatches P reader query)).map fun c =>
        (tpSegmentLookupCtid reader c.1, c.2)

/-- An index state a search for a tenant can rely on: usable dictionary entries, distinct
root blocks, and tenants stored as the writers store them. -/
structure TenantView.WellFormed (view : TenantView Term) : Prop where
  rooted : view.Rooted
  usable : ∀ r ∈ view.segments, ∀ term e, r.findTerm term = some e → EntryUsable r e
  stored : ∀ r ∈ view.segments, TenantsStored r (view.tenantRanges r.rootBlock)
  memtable : PostingTenants view.memtable

/-- The weights of a query for a tenant: no IDF is negative, and that of a term some
document of the tenant has is positive. -/
structure Weighted (view : TenantView Term) (tenantId : Nat) (query : List (Term × ℚ × Nat)) :
    Prop where
  idf_nonneg : ∀ q ∈ query, 0 ≤ q.2.1
  queryFreq_pos : ∀ q ∈ query, 0 < q.2.2
  idf_pos : ∀ q ∈ query, ∀ r ∈ view.segments, ∀ e, r.findTerm q.1 = some e →
    (∃ p ∈ e.postings, tpSegmentGetTenantId r p.docId = tenantId) → 0 < q.2.1

/-! ## The memtable -/

/-- The memtable without the postings of other tenants. -/
def tenantMemtable (mt : Memtable Term) (tenantId : Nat) : Memtable Term where
  stringTable :=
    ⟨mt.stringTable.entries.map
        (Sigma.map id fun _ postings => postings.filter fun p => p.tenantId = tenantId), by
      rw [List.NodupKeys, List.keys, List.map_map]
      exact mt.stringTable.nodupKeys⟩
  docLengths := mt.docLengths
  tenantStats := mt.tenantStats
  totalPostings := mt.totalPostings

@[simp] theorem postings_tenantMemtable (mt : Memtable Term) (tenantId : Nat) (term : Term) :
    (tenantMemtable mt tenantId).postings term =
      (mt.postings term).filter fun p => p.tenantId = tenantId := by
  simp only [Memtable.postings, tenantMemtable, AList.lookup]
  rw [List.dlookup_map₂]
  cases mt.stringTable.entries.dlookup term <;> rfl

omit [DecidableEq Term] in
theorem memtableDocLength_tenantMemtable (mt : Memtable Term) (tenantId : Nat) :
    memtableDocLength (tenantMemtable mt tenantId) = memtableDocLength mt := rfl

omit [DecidableEq Term] in
private theorem foldl_skip {α : Type} (tenantId : Nat) (hne : tenantId ≠ 0)
    (f : α → MemPosting → α) (a : α) (postings : List MemPosting) :
    postings.foldl (fun a p => if OtherTenant tenantId p then a else f a p) a =
      (postings.filter fun p => p.tenantId = tenantId).foldl f a := by
  rw [List.foldl_filter]
  congr 1
  funext a p
  by_cases hp : p.tenantId = tenantId
  · simp [OtherTenant, hp]
  · simp [OtherTenant, hp, hne]

section Memtable

variable {tenantId : Nat} (hne : tenantId ≠ 0)
include hne

/-- The passes over the memtable see the memtable of the tenant. -/
theorem scoreMemtableSingleTermFor_eq (P : ScoreParams) (mt : Memtable Term) (heap : TopKHeap)
    (term : Term) (idf : ℚ) : scoreMemtableSingleTermFor P mt heap term idf tenantId =
      scoreMemtableSingleTerm P (tenantMemtable mt tenantId) heap term idf := by
  rw [scoreMemtableSingleTermFor, scoreMemtableSingleTerm, foldl_skip tenantId hne,
    postings_tenantMemtable, memtableDocLength_tenantMemtable]

theorem scoreMemtableMultiTermFor_eq (hs : HashSeq) (P : ScoreParams) (mt : Memtable Term)
    (heap : TopKHeap) (terms : List (TermState Term)) :
    scoreMemtableMultiTermFor hs P mt heap terms tenantId =
      scoreMemtableMultiTerm hs P (tenantMemtable mt tenantId) heap terms := by
  have htable : accumulateMemtableFor P mt terms tenantId =
      accumulateMemtable P (tenantMemtable mt tenantId) terms := by
    rw [accumulateMemtableFor, accumulateMemtable]
    congr 1
    funext table ts
    rw [foldl_skip tenantId hne, postings_tenantMemtable, memtableDocLength_tenantMemtable]
  rw [scoreMemtableMultiTermFor, scoreMemtableMultiTerm, htable]

end Memtable

/-- The candidates of the tenant's memtable are the tenant's candidates. -/
theorem memtableSingleCandidates_tenant (P : ScoreParams) {mt : Memtable Term}
    (hmt : PostingTenants mt) (tenantId : Nat) (term : Term) (idf : ℚ) :
    memtableSingleCandidates P (tenantMemtable mt tenantId) term idf =
      (memtableSingleCandidates P mt term idf).filter fun c =>
        memtableTenant mt c.1 = tenantId := by
  rw [memtableSingleCandidates, memtableSingleCandidates, postings_tenantMemtable,
    memtableDocLength_tenantMemtable, List.filter_map]
  congr 1
  apply List.filter_congr
  intro p hp
  rw [Function.comp_apply, hmt term p hp]

theorem memtableContributions_tenant (P : ScoreParams) {mt : Memtable Term}
    (hmt : PostingTenants mt) (tenantId : Nat) (terms : List (TermState Term)) :
    memtableContributions P (tenantMemtable mt tenantId) terms =
      (memtableContributions P mt terms).filter fun c => memtableTenant mt c.1 = tenantId := by
  rw [memtableContributions, memtableContributions, List.filter_flatMap]
  apply List.flatMap_congr
  intro ts _
  rw [postings_tenantMemtable, memtableDocLength_tenantMemtable, List.filter_map]
  congr 1
  apply List.filter_congr
  intro p hp
  rw [Function.comp_apply, hmt ts.term p hp]

omit [DecidableEq Term] in
/-- Under a CTID of the tenant all additions are the tenant's. -/
private theorem addedScore_tenant (mt : Memtable Term) (l : List (ItemPointer × ℚ))
    {tenantId : Nat} {ctid : ItemPointer} (htenant : memtableTenant mt ctid = tenantId) :
    addedScore (l.filter fun c => memtableTenant mt c.1 = tenantId) ctid = addedScore l ctid := by
  rw [addedScore, addedScore, List.filter_filter]
  congr 2
  apply List.filter_congr
  intro c _
  by_cases hc : c.1 = ctid
  · simp [hc, htenant]
  · simp [hc]

theorem memtableMultiCandidates_nodup (P : ScoreParams) (mt : Memtable Term)
    (terms : List (TermState Term)) : (memtableMultiCandidates P mt terms).Nodup := by
  have hkeys := (accumulateMemtable P mt terms).nodupKeys
  apply List.Nodup.of_map Prod.fst
  rw [memtableMultiCandidates, List.map_map]
  exact hkeys

theorem memtableMultiCandidates_tenant (P : ScoreParams) {mt : Memtable Term}
    (hmt : PostingTenants mt) (tenantId : Nat) (terms : List (TermState Term)) :
    (memtableMultiCandidates P (tenantMemtable mt tenantId) terms).Perm
      ((memtableMultiCandidates P mt terms).filter fun c =>
        memtableTenant mt c.1 = tenantId) := by
  rw [List.perm_ext_iff_of_nodup (memtableMultiCandidates_nodup P _ terms)
    ((memtableMultiCandidates_nodup P mt terms).filter _)]
  intro c
  rw [List.mem_filter, mem_memtableMultiCandidates, mem_memtableMultiCandidates,
    memtableContributions_tenant P hmt, decide_eq_true_eq]
  constructor
  · rintro ⟨⟨ts, hts, p, hp, hctid⟩, hscore⟩
    rw [postings_tenantMemtable, List.mem_filter, decide_eq_true_eq] at hp
    have htenant : memtableTenant mt c.1 = tenantId := by
      rw [← hctid, ← hmt ts.term p hp.1, hp.2]
    rw [addedScore_tenant mt _ htenant] at hscore
    exact ⟨⟨⟨ts, hts, p, hp.1, hctid⟩, hscore⟩, htenant⟩
  · rintro ⟨⟨⟨ts, hts, p, hp, hctid⟩, hscore⟩, htenant⟩
    rw [addedScore_tenant mt _ htenant]
    refine ⟨⟨ts, hts, p, ?_, hctid⟩, hscore⟩
    rw [postings_tenantMemtable, List.mem_filter, decide_eq_true_eq]
    exact ⟨hp, by rw [hmt ts.term p hp, hctid, htenant]⟩

/-! ## The segments -/

section Segments

variable {P : ScoreParams} {view : TenantView Term} (hwf : view.WellFormed) {tenantId : Nat}
  (hne : tenantId ≠ 0)

/-- What a segment is searched for: the tenant's documents, or nothing. -/
def TenantView.searched (view : TenantView Term) (tenantId : Nat) (reader : SegmentReader Term)
    (docs : List (Nat × ℚ)) : List (Nat × ℚ) :=
  if (view.filterFor tenantId reader).isSome then ofTenant reader tenantId docs else []

include hwf hne

/-- The filter of a segment that is searched. -/
theorem TenantView.WellFormed.filtersTenant {reader : SegmentReader Term}
    (hr : reader ∈ view.segments) {f : DocFilter Term}
    (hf : view.filterFor tenantId reader = some f) : FiltersTenant reader tenantId f := by
  cases segmentFilter_spec (hwf.stored reader hr) hne with
  | inl hsome =>
      obtain ⟨f', hf', hfilters, -⟩ := hsome
      cases Option.some.inj (hf.symm.trans hf')
      exact hfilters
  | inr hnone => exact nomatch hf.symm.trans hnone.1

/-- The documents the filter keeps are the tenant's. -/
theorem TenantView.WellFormed.filter_keeps {reader : SegmentReader Term}
    (hr : reader ∈ view.segments) {f : DocFilter Term}
    (hf : view.filterFor tenantId reader = some f) {α : Type} {docs : List α} {docId : α → Nat}
    (hle : ∀ c ∈ docs, docId c ≤ uint32Max) :
    (docs.filter fun c => decide (f.Keeps (docId c))) =
      docs.filter fun c => decide (tpSegmentGetTenantId reader (docId c) = tenantId) := by
  apply List.filter_congr
  intro c hc
  rw [decide_eq_decide]
  exact (hwf.filtersTenant hne hr hf).keeps_iff _ (hle c hc)

/-- The single-term search of a segment. -/
theorem scoreSegmentSingleTermFor_took {reader : SegmentReader Term} (hr : reader ∈ view.segments)
    {heap : TopKHeap} (hv : heap.ScoreValid) (term : Term) {idf : ℚ} (hidf : 0 ≤ idf) :
    Took heap
      (match view.filterFor tenantId reader with
        | none => heap
        | some f =>
            scoreSegmentSingleTermBmw P f.reader heap term idf f.tenantId f.minDocId f.maxDocId)
      ((view.searched tenantId reader (segmentSingleDocs P reader term idf)).map fun c =>
        segmentEntry reader.rootBlock c.1 c.2 : List HeapEntry) := by
  unfold TenantView.searched
  cases hf : view.filterFor tenantId reader with
  | none => exact Took.refl hv
  | some f =>
      have hfilters := hwf.filtersTenant hne hr hf
      have hentries := fun e he => (hwf.usable reader hr term e he).wellFormed
      have htook := scoreSegmentSingleTermBmw_took_filtered P hfilters.sound hv hidf
        (hfilters.reader_eq ▸ hentries)
      rw [hfilters.reader_eq, hwf.filter_keeps hne hr hf
        fun c hc => docId_le_of_mem_singleDocs hentries hc] at htook
      simp only [Option.isSome_some, if_true, hfilters.reader_eq]
      exact htook

omit hne in
theorem scorable_of_weighted {query : List (Term × ℚ × Nat)} (hw : Weighted view tenantId query)
    {reader : SegmentReader Term} (hr : reader ∈ view.segments) :
    Scorable reader (queryStates query) := by
  constructor
  all_goals
    intro ts hts
    obtain ⟨q, hq, rfl⟩ := List.mem_map.1 hts
  · exact hw.idf_nonneg q hq
  · exact Int.natCast_pos.2 (hw.queryFreq_pos q hq)
  · exact fun e he => (hwf.usable reader hr q.1 e he).wellFormed
  · exact fun e he blk hblk _ _ _ => (hwf.usable reader hr q.1 e he).positive blk hblk

omit hwf hne in
/-- Every document of the tenant that matches scores. -/
theorem Weighted.docScore_pos {query : List (Term × ℚ × Nat)}
    (hw : Weighted view tenantId query) {reader : SegmentReader Term}
    (hr : reader ∈ view.segments) {terms : List (TermState Term)}
    (hsame : SameTerms terms (queryStates query)) (hs : Scorable reader terms) {docId : Nat}
    (hmatch : docId ∈ matchingDocs reader terms)
    (htenant : tpSegmentGetTenantId reader docId = tenantId) :
    0 < segmentDocScore P reader terms docId := by
  obtain ⟨ts, hts, p, hp, hfreq, rfl⟩ := mem_matchingDocs.1 hmatch
  obtain ⟨ts', hts', heq⟩ := hsame.exists_mem hts
  obtain ⟨q, hq, rfl⟩ := List.mem_map.1 hts'
  refine hs.docScore_pos P hts ?_ hp hfreq
  have hterm : q.1 = ts.term := congrArg Prod.fst heq
  have hidf : q.2.1 = ts.idf := congrArg (fun t => t.2.1) heq
  rw [← hidf]
  unfold termPostings at hp
  cases hfind : reader.findTerm ts.term with
  | none =>
      rw [hfind] at hp
      exact nomatch hp
  | some e =>
      rw [hfind] at hp
      exact hw.idf_pos q hq reader hr e (hterm ▸ hfind) ⟨p, hp, htenant⟩

/-- The multi-term search of a segment, from query terms in any order. -/
theorem searchFiltered_took (qs : Qsort) {query : List (Term × ℚ × Nat)}
    (hw : Weighted view tenantId query) {reader : SegmentReader Term} (hr : reader ∈ view.segments)
    {f : DocFilter Term} (hf : view.filterFor tenantId reader = some f) {heap : TopKHeap}
    (hv : heap.ScoreValid) {terms : List (TermState Term)}
    (hsame : SameTerms terms (queryStates query)) :
    ∃ st, searchFiltered qs P f heap terms = some st ∧ SameTerms st.terms (queryStates query) ∧
      Took heap st.heap
        ((ofTenant reader tenantId (segmentMultiDocs P reader (queryStates query))).map fun c =>
          segmentEntry reader.rootBlock c.1 c.2 : List HeapEntry) := by
  have hfilters := hwf.filtersTenant hne hr hf
  obtain rfl := hfilters.reader_eq
  have hscorable := hsame.scorable (scorable_of_weighted hwf hw hr)
  have hle : ∀ d ∈ matchingDocs f.reader terms, d ≤ uint32Max := by
    intro d hd
    obtain ⟨ts, hts, p, hp, -, rfl⟩ := mem_matchingDocs.1 hd
    unfold termPostings at hp
    cases hfind : f.reader.findTerm ts.term with
    | none =>
        rw [hfind] at hp
        exact nomatch hp
    | some e =>
        rw [hfind] at hp
        exact ((hscorable.wellFormed ts hts e hfind).docId_lt p hp).le
  have hkept : keptDocs f terms = (matchingDocs f.reader terms).filter fun d =>
      decide (tpSegmentGetTenantId f.reader d = tenantId) :=
    hwf.filter_keeps hne hr hf hle
  obtain ⟨st, scored, hrun, hterms, hscored⟩ := searchFiltered_scored qs P hfilters.sound heap
    terms hscorable (by
      intro d hd
      rw [hkept, List.mem_filter, decide_eq_true_eq] at hd
      exact hw.docScore_pos hr hsame hscorable hd.1 hd.2) hv
  refine ⟨st, hrun, List.Perm.trans hterms hsame, ?_⟩
  have htook := hscored.took ((List.nodup_dedup _).filter _) hv
  have hdocs : ((keptDocs f terms).map fun d =>
        segmentEntry f.reader.rootBlock d (segmentDocScore P f.reader terms d)) =
      (ofTenant f.reader tenantId (segmentMultiDocs P f.reader terms)).map fun c =>
        segmentEntry f.reader.rootBlock c.1 c.2 := by
    rw [hkept, ofTenant, segmentMultiDocs, List.filter_map, List.map_map]
    rfl
  have hperm : (ofTenant f.reader tenantId (segmentMultiDocs P f.reader terms)).Perm
      (ofTenant f.reader tenantId (segmentMultiDocs P f.reader (queryStates query))) :=
    (hsame.multiDocs_perm P).filter _
  rw [hdocs, Multiset.coe_eq_coe.2 (hperm.map _)] at htook
  exact htook

/-- The multi-term search of a list of segments. -/
theorem searchSegmentsFor_took (qs : Qsort) {query : List (Term × ℚ × Nat)}
    (hw : Weighted view tenantId query) (readers : List (SegmentReader Term)) {heap : TopKHeap}
    {terms : List (TermState Term)} (hv : heap.ScoreValid)
    (hsame : SameTerms terms (queryStates query)) (hsub : ∀ r ∈ readers, r ∈ view.segments) :
    ∃ heap', searchSegmentsFor qs P view tenantId readers heap terms = some heap' ∧
      Took heap heap' ((readers.flatMap fun reader =>
        (view.searched tenantId reader (segmentMultiDocs P reader (queryStates query))).map fun c =>
          segmentEntry reader.rootBlock c.1 c.2 : List HeapEntry) : Multiset HeapEntry) := by
  induction readers generalizing heap terms with
  | nil => exact ⟨heap, rfl, Took.refl hv⟩
  | cons reader rest ih =>
      have hr := hsub reader List.mem_cons_self
      have hrest : ∀ r ∈ rest, r ∈ view.segments := fun r h => hsub r (List.mem_cons_of_mem _ h)
      rw [List.flatMap_cons, ← Multiset.coe_add]
      unfold searchSegmentsFor TenantView.searched
      cases hf : view.filterFor tenantId reader with
      | none =>
          obtain ⟨heap', hrun, htook⟩ := ih hv hsame hrest
          exact ⟨heap', hrun, (Took.refl hv).trans htook⟩
      | some f =>
          obtain ⟨st, hfirst, hterms, htook⟩ := searchFiltered_took hwf hne qs hw hr hf hv hsame
          obtain ⟨heap', hrun, hmore⟩ := ih htook.valid hterms hrest
          refine ⟨heap', ?_, htook.trans hmore⟩
          simp only [hfirst]
          exact hrun

end Segments

/-! ## The searches against what they are offered -/

/-- What a search for a tenant is offered. -/
def tenantOffered (P : ScoreParams) (view : TenantView Term) (tenantId : Nat)
    (query : List (Term × ℚ × Nat)) : List (ItemPointer × ℚ) :=
  ((memtableMatches P view.memtable query).filter fun c =>
      memtableTenant view.memtable c.1 = tenantId) ++
    view.segments.flatMap fun reader =>
      (view.searched tenantId reader (segmentMatches P reader query)).map fun c =>
        (tpSegmentLookupCtid reader c.1, c.2)

section Returns

variable {P : ScoreParams} {view : TenantView Term} (hwf : view.WellFormed) {tenantId : Nat}
  (hne : tenantId ≠ 0) {k : Nat} (hk : 0 < k)
include hwf hne hk

theorem tpScoreSingleTermBmwFor_returns (qs : Qsort) {term : Term} {idf : ℚ} {queryFreq : Nat}
    (hidf : 0 ≤ idf) : Returns (tpScoreSingleTermBmwFor qs P view term idf k tenantId)
      (tenantOffered P view tenantId [(term, idf, queryFreq)]) k := by
  have hmem := scoreMemtableSingleTerm_took P (tenantMemtable view.memtable tenantId)
    (tpTopkInit_valid hk) term idf
  rw [memtableSingleCandidates_tenant P hwf.memtable,
    ← scoreMemtableSingleTermFor_eq hne] at hmem
  have hsegments := Took.foldl_flatMap (fun h reader hr hv =>
    scoreSegmentSingleTermFor_took (P := P) hwf hne hr hv term hidf) hmem.valid
  apply returns_of_took qs hwf.rooted
  rw [← Multiset.coe_add]
  exact hmem.trans hsegments

theorem tpScoreMultiTermBmwFor_returns (qs : Qsort) (hs : HashSeq)
    {query : List (Term × ℚ × Nat)} (hw : Weighted view tenantId query) :
    ∃ results, tpScoreMultiTermBmwFor qs hs P view (queryStates query) k tenantId = some results ∧
      Returns results
        (((memtableMultiCandidates P view.memtable (queryStates query)).filter fun c =>
            memtableTenant view.memtable c.1 = tenantId) ++
          view.segments.flatMap fun reader =>
            (view.searched tenantId reader
              (segmentMultiDocs P reader (queryStates query))).map fun c =>
                (tpSegmentLookupCtid reader c.1, c.2)) k := by
  have hmem := scoreMemtableMultiTerm_took hs P (tenantMemtable view.memtable tenantId)
    (tpTopkInit_valid hk) (queryStates query)
  rw [← scoreMemtableMultiTermFor_eq hne, Multiset.coe_eq_coe.2
    ((memtableMultiCandidates_tenant P hwf.memtable tenantId _).map _)] at hmem
  obtain ⟨heap, hrun, htook⟩ := searchSegmentsFor_took hwf hne qs hw view.segments hmem.valid
    (List.Perm.refl _) fun r hr => hr
  refine ⟨_, by rw [tpScoreMultiTermBmwFor, hrun]; rfl, ?_⟩
  apply returns_of_took qs hwf.rooted
  rw [← Multiset.coe_add]
  exact hmem.trans htook

/-- **A search for a tenant** against what it is offered. -/
theorem bmwSearch_returns (qs : Qsort) (hs : HashSeq) {query : List (Term × ℚ × Nat)}
    (hw : Weighted view tenantId query) :
    ∃ results, bmwSearch qs hs P view k tenantId query = some results ∧
      Returns results (tenantOffered P view tenantId query) k := by
  have hmulti := tpScoreMultiTermBmwFor_returns (P := P) hwf hne hk qs hs hw
  cases query with
  | nil => exact hmulti
  | cons q rest =>
      cases rest with
      | nil =>
          exact ⟨_, rfl, tpScoreSingleTermBmwFor_returns hwf hne hk qs
            (hw.idf_nonneg q List.mem_cons_self)⟩
      | cons _ _ => exact hmulti

end Returns

/-! ## The tenant's documents -/

/-- A document of the segment that matches the query is the tenant's. -/
def HasMatch (reader : SegmentReader Term) (tenantId : Nat) (query : List (Term × ℚ × Nat)) :
    Prop :=
  ∃ q ∈ query, ∃ e, reader.findTerm q.1 = some e ∧
    ∃ p ∈ e.postings, tpSegmentGetTenantId reader p.docId = tenantId

/-- The kind of search that loses documents: for the tenant `UINT32_MAX`, with a match of it
in a tenant-ordered segment. -/
def LosesMatch (view : TenantView Term) (tenantId : Nat) (query : List (Term × ℚ × Nat)) : Prop :=
  tenantId = uint32Max ∧ ∃ reader ∈ view.segments,
    (view.tenantRanges reader.rootBlock).isSome ∧ HasMatch reader tenantId query

section Exact

variable {P : ScoreParams} {view : TenantView Term} (hwf : view.WellFormed) {tenantId : Nat}
include hwf

/-- A segment offers documents of the tenant if one of them matches. -/
theorem ofTenant_ne_nil_iff {reader : SegmentReader Term} (hr : reader ∈ view.segments)
    (query : List (Term × ℚ × Nat)) :
    ofTenant reader tenantId (segmentMatches P reader query) ≠ [] ↔
      HasMatch reader tenantId query := by
  have hexists : ∀ docs : List (Nat × ℚ), ofTenant reader tenantId docs ≠ [] ↔
      ∃ c ∈ docs, tpSegmentGetTenantId reader c.1 = tenantId := by
    intro docs
    simp [ofTenant, List.filter_eq_nil_iff]
  have hmulti : ofTenant reader tenantId (segmentMultiDocs P reader (queryStates query)) ≠ [] ↔
      HasMatch reader tenantId query := by
    rw [hexists]
    constructor
    · rintro ⟨c, hc, htenant⟩
      obtain ⟨d, hd, rfl⟩ := List.mem_map.1 hc
      obtain ⟨ts, hts, p, hp, -, rfl⟩ := mem_matchingDocs.1 hd
      obtain ⟨q, hq, rfl⟩ := List.mem_map.1 hts
      unfold termPostings at hp
      cases hfind : reader.findTerm q.1 with
      | none => exact absurd hp (by simp [newTermState, hfind])
      | some e =>
          refine ⟨q, hq, e, hfind, p, ?_, htenant⟩
          simpa [newTermState, hfind] using hp
    · rintro ⟨q, hq, e, hfind, p, hp, htenant⟩
      have hd : p.docId ∈ matchingDocs reader (queryStates query) := by
        refine mem_matchingDocs.2 ⟨_, List.mem_map_of_mem hq, p, ?_,
          (hwf.usable reader hr q.1 e hfind).frequency_pos p hp, rfl⟩
        simpa [termPostings, newTermState, hfind] using hp
      exact ⟨_, List.mem_map_of_mem hd, htenant⟩
  have hsingle : ∀ q : Term × ℚ × Nat,
      ofTenant reader tenantId (segmentSingleDocs P reader q.1 q.2.1) ≠ [] ↔
        HasMatch reader tenantId [q] := by
    intro q
    rw [hexists]
    constructor
    · rintro ⟨c, hc, htenant⟩
      obtain ⟨p, hp, rfl⟩ := List.mem_map.1 hc
      cases hfind : reader.findTerm q.1 with
      | none => exact absurd hp (by simp [hfind])
      | some e =>
          refine ⟨q, List.mem_cons_self, e, hfind, p, ?_, htenant⟩
          simpa [hfind] using hp
    · rintro ⟨q', hq', e, hfind, p, hp, htenant⟩
      cases List.mem_singleton.1 hq'
      have hp' : p ∈ ((reader.findTerm q.1).map DictEntry.postings).getD [] := by
        simpa [hfind] using hp
      exact ⟨_, List.mem_map_of_mem hp', htenant⟩
  cases query with
  | nil => exact hmulti
  | cons q rest =>
      cases rest with
      | nil => exact hsingle q
      | cons _ _ => exact hmulti

variable (hne : tenantId ≠ 0)
include hne

/-- A segment that is not searched has nothing to offer, unless the tenant is `UINT32_MAX`. -/
theorem searched_eq {reader : SegmentReader Term} (hr : reader ∈ view.segments)
    {query : List (Term × ℚ × Nat)}
    (hkeeps : tenantId = uint32Max → (view.tenantRanges reader.rootBlock).isSome →
      ¬ HasMatch reader tenantId query) :
    view.searched tenantId reader (segmentMatches P reader query) =
      ofTenant reader tenantId (segmentMatches P reader query) := by
  unfold TenantView.searched
  cases segmentFilter_spec (hwf.stored reader hr) hne with
  | inl hsome =>
      obtain ⟨f, hf, -, -⟩ := hsome
      rw [TenantView.filterFor, hf]
      rfl
  | inr hnone =>
      obtain ⟨hf, hranges, hno⟩ := hnone
      rw [TenantView.filterFor, hf]
      have hempty : ¬ HasMatch reader tenantId query := by
        by_cases hmax : tenantId = uint32Max
        · exact hkeeps hmax hranges
        · rintro ⟨q, -, e, -, p, -, htenant⟩
          exact hno hmax p.docId htenant
      rw [← ofTenant_ne_nil_iff (P := P) hwf hr query, not_not] at hempty
      rw [hempty]
      rfl

/-- A tenant-ordered segment is not searched for the tenant `UINT32_MAX`. -/
theorem searched_eq_nil {reader : SegmentReader Term} (hr : reader ∈ view.segments)
    (hmax : tenantId = uint32Max) (hranges : (view.tenantRanges reader.rootBlock).isSome)
    (docs : List (Nat × ℚ)) : view.searched tenantId reader docs = [] := by
  unfold TenantView.searched
  cases segmentFilter_spec (hwf.stored reader hr) hne with
  | inl hsome =>
      obtain ⟨f, -, -, hlt⟩ := hsome
      exact absurd hmax (hlt hranges)
  | inr hnone =>
      rw [TenantView.filterFor, hnone.1]
      rfl

theorem tenantOffered_eq {query : List (Term × ℚ × Nat)}
    (hkeeps : ¬ LosesMatch view tenantId query) :
    tenantOffered P view tenantId query = tenantMatches P view tenantId query := by
  unfold tenantOffered tenantMatches
  congr 1
  apply List.flatMap_congr
  intro reader hr
  rw [searched_eq hwf hne hr fun hmax hranges hmatch => hkeeps ⟨hmax, reader, hr, hranges, hmatch⟩]

theorem length_tenantOffered_lt {query : List (Term × ℚ × Nat)}
    (hloses : LosesMatch view tenantId query) :
    (tenantOffered P view tenantId query).length <
      (tenantMatches P view tenantId query).length := by
  obtain ⟨hmax, reader, hr, hranges, hmatch⟩ := hloses
  unfold tenantOffered tenantMatches
  rw [List.length_append, List.length_append, List.length_flatMap, List.length_flatMap]
  refine Nat.add_lt_add_left (List.sum_lt_sum _ _ ?_ ⟨reader, hr, ?_⟩) _
  · intro r _
    rw [List.length_map, List.length_map, TenantView.searched]
    split_ifs
    · exact le_rfl
    · exact Nat.zero_le _
  · rw [List.length_map, List.length_map, searched_eq_nil hwf hne hr hmax hranges]
    exact List.length_pos_iff.2 ((ofTenant_ne_nil_iff hwf hr query).2 hmatch)

end Exact

/-! ## Main results -/

/-- What a search without a tenant returns of all matches. -/
theorem bmwSearch_unfiltered_returns (qs : Qsort) (hs : HashSeq) (P : ScoreParams)
    {view : TenantView Term} (hwf : view.toIndexView.WellFormed) {query : List (Term × ℚ × Nat)}
    (hidf : ∀ q ∈ query, 0 ≤ q.2.1) (hrank : ∀ r ∈ view.segments, Rankable r (queryStates query))
    {k : Nat} (hk : 0 < k) :
    ∃ results, bmwSearch qs hs P view k 0 query = some results ∧
      Returns results (memtableMatches P view.memtable query ++ view.segments.flatMap fun reader =>
        (segmentMatches P reader query).map fun c => (tpSegmentLookupCtid reader c.1, c.2)) k := by
  have hmulti : ∃ results, tpScoreMultiTermBmwFor qs hs P view (queryStates query) k 0 =
      some results ∧ Returns results (multiTermCandidates P view.toIndexView (queryStates query))
        k := by
    rw [tpScoreMultiTermBmwFor_zero]
    exact tpScoreMultiTermBmw_returns qs hs P hwf _ hrank hk
  cases query with
  | nil => exact hmulti
  | cons q rest =>
      cases rest with
      | nil =>
          refine ⟨_, rfl, ?_⟩
          rw [tpScoreSingleTermBmwFor_zero]
          exact tpScoreSingleTermBmw_returns qs P hwf q.1 (hidf q List.mem_cons_self) hk
      | cons _ _ => exact hmulti

end Search

/-! ## A segment with the last tenant -/

/-- Documents of the tenants 7 and `UINT32_MAX`. -/
def twoTenants : List Nat := [7, uint32Max]

/-- A segment with both, and one term in both. -/
def twoTenantsReader : SegmentReader Nat where
  rootBlock := 9
  dictionary := [(0, ⟨1, 2, [⟨⟨1, 2, 1, 5, .mixed, 0⟩, [⟨0, 1, 5⟩, ⟨1, 1, 5⟩]⟩]⟩)]
  numDocs := 2
  ctids := [⟨0, 1⟩, ⟨0, 2⟩]
  tenantIds := some twoTenants

/-- The index of this segment: it is tenant-ordered, with a range for tenant 7. -/
def twoTenantsView : TenantView Nat where
  memtable := Memtable.empty
  levels := [[twoTenantsReader]]
  totalDocs := 2
  totalLen := 10
  options := ⟨1, 0, by decide, by decide, by decide⟩
  tenantRanges := fun _ => some [⟨7, 0, 1⟩]

theorem twoTenants_ordered : OrderedRanges twoTenants [⟨7, 0, 1⟩] :=
  ⟨insertionHashSeq, insertionQsort, [(⟨0, 1⟩, 5, 7), (⟨0, 2⟩, 5, uint32Max)],
    { tpDocmapCreate with
      ctidToId := [⟨⟨0, 1⟩, 0, 5, 7⟩, ⟨⟨0, 2⟩, 1, 5, uint32Max⟩]
      numDocs := 2 }, rfl, by decide, by decide, by decide, by decide, by decide⟩

theorem twoTenantsView_wellFormed : twoTenantsView.WellFormed := by
  have hentry : ∀ term e, twoTenantsReader.findTerm term = some e →
      e = ⟨1, 2, [⟨⟨1, 2, 1, 5, .mixed, 0⟩, [⟨0, 1, 5⟩, ⟨1, 1, 5⟩]⟩]⟩ := by
    intro term e he
    by_cases hterm : term = 0
    · subst hterm
      exact (Option.some.inj he).symm
    · simp [SegmentReader.findTerm, twoTenantsReader, Ne.symm hterm] at he
  constructor
  case rooted => exact ⟨by decide, by decide⟩
  case usable =>
    intro r hr term e he
    cases List.mem_singleton.1 hr
    cases hentry term e he
    exact ⟨⟨rfl, by decide, by decide, by decide, by decide, by decide⟩, rfl, by decide,
      by decide, by decide⟩
  case stored =>
    intro r hr
    cases List.mem_singleton.1 hr
    constructor
    case length => exact fun tids htids => by cases htids; rfl
    case bytes =>
      intro term e he
      cases hentry term e he
      decide
    case docId_lt =>
      intro term e he
      cases hentry term e he
      decide
    case ordered =>
      intro ranges hranges
      cases hranges
      exact ⟨twoTenants, rfl, twoTenants_ordered⟩
  case memtable =>
    intro term p hp
    exact absurd hp (by simp [twoTenantsView])

theorem twoTenants_weighted (tenantId : Nat) : Weighted twoTenantsView tenantId [(0, 1, 1)] where
  idf_nonneg := by decide
  queryFreq_pos := by decide
  idf_pos := by
    intro q hq _ _ _ _ _
    cases List.mem_singleton.1 hq
    exact one_pos

end PgTextsearch.Query
