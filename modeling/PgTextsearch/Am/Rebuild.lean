import PgTextsearch.Am.BuildEquivalence
import PgTextsearch.Am.CorpusStats

/-!
# Rebuilding an index (`am/build.c`, `am/build_parallel.c`, `state/state.c`)

`REINDEX` and `VACUUM FULL` build an index again under its OID.  The state of the
old index is in three places: in the registry, in shared memory, and in the local
states the backends have cached.  The serial build registers a new shared state and
replaces the local state of the building backend; the other backends keep theirs.
The parallel build replaces none of the three.

## Main results

* `searchHits_tpBuild`, `searchHits_tpBuildParallel` — the segments of a build have
  every term of every document once.
* `rebuild_resets_iff` — after a build every backend finds a fresh state exactly when
  the states that survive the build happen to be fresh.
* `rebuild_keeps_memtable` — a memtable that survives either build.
-/

namespace PgTextsearch.Am

open PgTextsearch.Postgres PgTextsearch.Segment PgTextsearch.State PgTextsearch.Verified

variable {Value Term : Type}

/-! ## What a backend finds -/

/-- The shared state with a number. -/
def stateAt (db : Database Value Term) (generation : Nat) : SharedState Term :=
  if generation = db.generation then sharedState db.index else db.replaced generation

/-- The shared state that `tp_get_local_index_state` gives a backend. -/
def attachedState (cfg : Config) (db : Database Value Term) (backend : Nat) : SharedState Term :=
  let attached := tpGetLocalIndexState cfg db backend
  stateAt attached ((attached.cached backend).getD attached.generation)

/-- A shared state of freshly built documents: nothing in the memtable, and the
documents counted.  `total_docs` is an `int32`. -/
structure FreshFor (an : Analyzer Value Term) (heap : Heap Value) (docs : Finset ItemPointer)
    (st : SharedState Term) : Prop where
  terms : st.memtable.stringTable.entries = []
  lengths : st.memtable.docLengths.entries = []
  totalDocs : (st.totalDocs : Int).bmod (2 ^ 32) = docs.card
  totalLen : st.totalLen = ∑ ctid ∈ docs, documentLength an heap ctid

/-- The tuples a build scans. -/
def buildScan : DatabaseOp Value → Option (List ItemPointer)
  | .build _ scan => some scan
  | .buildParallel _ batches => some (batches.flatten.flatten.map ScannedTuple.ctid)
  | _ => none

/-- The state that a backend still finds after a build: the cached one, unless the
backend builds serially; after a parallel build also the registered one. -/
def survivingState (db : Database Value Term) : DatabaseOp Value → Nat → Option (SharedState Term)
  | .build builder _, backend =>
      if backend = builder then none else (db.cached backend).map (stateAt db)
  | .buildParallel _ _, backend =>
      if db.registered then some (stateAt db ((db.cached backend).getD db.generation)) else none
  | _, _ => none

/-- Shared states are numbered in the order they are registered. -/
def WellNumbered (db : Database Value Term) : Prop :=
  ∀ backend generation, db.cached backend = some generation →
    db.registered = true ∧ generation ≤ db.generation

variable [DecidableEq Term]

/-- How often a search for the term meets the document, in the memtable and in the
linked segments. -/
def searchHits (mt : Memtable Term) (levels : Levels Term) (term : Term) (ctid : ItemPointer) :
    Nat :=
  (mt.postings term).countP (fun p => p.ctid = ctid) + linkedCount levels term ctid

omit [DecidableEq Term] in
/-- The terms of the document at a CTID, if there is one. -/
def documentTerms (an : Analyzer Value Term) (heap : Heap Value) (ctid : ItemPointer) :
    List Term :=
  match documentAt an heap ctid with
  | none => []
  | some tv => tv.entries.map Prod.fst

/-- Once if it is a scanned document with the term. -/
def documentHits (an : Analyzer Value Term) (heap : Heap Value) (scan : List ItemPointer)
    (term : Term) (ctid : ItemPointer) : Nat :=
  if ctid ∈ scan ∧ term ∈ documentTerms an heap ctid then 1 else 0

/-- **A rebuild resets the runtime state**: the segments have the scanned documents,
every backend finds an empty memtable and their totals, and a search meets each of
them once and nothing else. -/
def ResetEverywhere (cfg : Config) (an : Analyzer Value Term) (scan : List ItemPointer)
    (db : Database Value Term) : Prop :=
  linkedDocs db.index.levels = scanDocs an db.index.heap scan ∧
    ∀ backend, FreshFor an db.index.heap (linkedDocs db.index.levels)
        (attachedState cfg db backend) ∧
      ∀ term ctid, searchHits (attachedState cfg db backend).memtable db.index.levels term ctid =
        documentHits an db.index.heap scan term ctid

/-! ## What the segments of a build have -/

theorem countP_documentPostings (c : ItemPointer) {entries : List (Term × Nat)}
    (hnodup : (entries.map Prod.fst).Nodup) (tenantId : Nat) (term : Term) (ctid : ItemPointer) :
    (documentPostings c entries tenantId term).countP (fun p => p.ctid = ctid) =
      if c = ctid ∧ term ∈ entries.map Prod.fst then 1 else 0 := by
  induction entries with
  | nil => simp [documentPostings]
  | cons e rest ih =>
      obtain ⟨hnot, hrest⟩ := List.nodup_cons.1 hnodup
      have hrec := ih hrest
      unfold documentPostings at hrec ⊢
      rw [List.filter_cons]
      by_cases hterm : e.1 = term
      · have hout : term ∉ rest.map Prod.fst := hterm ▸ hnot
        rw [if_neg fun h => hout h.2] at hrec
        by_cases hc : c = ctid <;> simp [hterm, hc, hrec]
        simpa [hc] using hrec
      · have hmem : term ∈ (e :: rest).map Prod.fst ↔ term ∈ rest.map Prod.fst := by
          simp [Ne.symm hterm]
        rw [if_neg (by simpa using hterm), hrec]
        simp only [hmem]

theorem documentHits_nil (an : Analyzer Value Term) (heap : Heap Value) (term : Term)
    (ctid : ItemPointer) : documentHits an heap [] term ctid = 0 :=
  if_neg fun h => List.not_mem_nil h.1

/-- A tuple without document. -/
theorem documentHits_append_none {an : Analyzer Value Term} {heap : Heap Value}
    (done : List ItemPointer) {c : ItemPointer} (h : documentAt an heap c = none) (term : Term)
    (ctid : ItemPointer) :
    documentHits an heap (done ++ [c]) term ctid = documentHits an heap done term ctid := by
  refine if_congr (and_congr_left fun hterm => ?_) rfl rfl
  have hne : ctid ≠ c := by
    rintro rfl
    rw [documentTerms, h] at hterm
    cases hterm
  rw [List.mem_append, List.mem_singleton, or_iff_left hne]

/-- One more document. -/
theorem documentHits_append_some {an : Analyzer Value Term} {heap : Heap Value}
    {done : List ItemPointer} {c : ItemPointer} (hnew : c ∉ done) {tv : TermVector Term}
    (h : documentAt an heap c = some tv) (term : Term) (ctid : ItemPointer) :
    documentHits an heap (done ++ [c]) term ctid =
      (if c = ctid ∧ term ∈ tv.entries.map Prod.fst then 1 else 0) +
        documentHits an heap done term ctid := by
  have hmem : ctid ∈ done ++ [c] ↔ ctid ∈ done ∨ ctid = c := by
    rw [List.mem_append, List.mem_singleton]
  unfold documentHits
  by_cases hc : c = ctid
  · subst hc
    have hterms : documentTerms an heap c = tv.entries.map Prod.fst := by rw [documentTerms, h]
    rw [if_neg fun hin : c ∈ done ∧ _ => hnew hin.1, hterms]
    exact if_congr (and_congr_left' (iff_of_true (hmem.2 (Or.inr rfl)) rfl)) rfl rfl
  · rw [if_neg fun hin : c = ctid ∧ _ => hc hin.1, Nat.zero_add]
    exact if_congr (and_congr_left' (hmem.trans (or_iff_left (Ne.symm hc)))) rfl rfl

/-- A written segment has the postings of the memtable. -/
theorem countP_written {mt : Memtable Term} {seg : SegmentContents Term}
    (h : tpWriteSegment mt = .ok (some seg)) (term : Term) (ctid : ItemPointer) :
    (seg.postings term).countP (fun q => q.ctid = ctid) =
      (mt.postings term).countP (fun p => p.ctid = ctid) := by
  have hconv := (tpWriteSegment_spec h).1 term
  generalize mt.postings term = ps at hconv ⊢
  generalize seg.postings term = qs at hconv ⊢
  induction hconv with
  | nil => rfl
  | cons hpq _ ih =>
      obtain ⟨e, -, rfl⟩ := convertPosting_eq_ok.1 hpq
      rw [List.countP_cons, List.countP_cons, ih]

/-- The invariant of the scan of a serial build: a search meets every document found
so far once. -/
structure ScanHits (an : Analyzer Value Term) (heap : Heap Value) (done : List ItemPointer)
    (s : IndexState Value Term) : Prop where
  hits : ∀ term ctid, searchHits s.memtable s.levels term ctid =
    documentHits an heap done term ctid
  postings : s.memtable.totalPostings = 0 → ∀ term, s.memtable.postings term = []
  heap : s.heap = heap

/-- A spill of the build moves the postings. -/
theorem ScanHits.buildSpill {cfg : Config} {an : Analyzer Value Term} {heap : Heap Value}
    {done : List ItemPointer} {backend : Nat} {b b' : SerialBuild Value Term}
    (h : ScanHits an heap done b.index) (hb' : buildSpill cfg backend b = .ok b') :
    ScanHits an heap done b'.index := by
  rcases buildSpill_levels hb' with ⟨rfl, -⟩ | ⟨seg, hseg, hmt, hheap, hlev⟩
  · exact h
  · refine ⟨fun term ctid => ?_, fun _ term => ?_, hheap.trans h.heap⟩
    · rw [← h.hits, searchHits, searchHits, hmt, hlev, linkedCount_compact,
        linkedCount_linkSegment _ (by decide), countP_written hseg, postings_empty,
        List.countP_nil]
      omega
    · rw [hmt, postings_empty]

/-- A document put into the memtable. -/
theorem ScanHits.addDocument {an : Analyzer Value Term} {heap : Heap Value}
    {done : List ItemPointer} {s : IndexState Value Term} (h : ScanHits an heap done s)
    {c : ItemPointer} (hnew : c ∉ done) {tv : TermVector Term}
    (hdoc : documentAt an heap c = some tv) (hterms : tv.entries ≠ []) (backend tenantId : Nat) :
    ScanHits an heap (done ++ [c]) (State.addDocument s backend c tv tenantId) where
  hits := by
    intro term ctid
    show searchHits (tpAddDocumentTerms s.memtable c tv tenantId) s.levels term ctid = _
    rw [documentHits_append_some hnew hdoc, ← h.hits, searchHits, searchHits,
      postings_addDocumentTerms, List.countP_append, countP_documentPostings c tv.nodup]
    omega
  postings := by
    intro hzero
    change (tpAddDocumentTerms s.memtable c tv tenantId).totalPostings = 0 at hzero
    rw [totalPostings_addDocumentTerms] at hzero
    exact absurd (List.length_eq_zero_iff.1 (by omega)) hterms
  heap := h.heap

/-- **One tuple** of the serial scan. -/
theorem ScanHits.processDocument {cfg : Config} {an : Analyzer Value Term} {heap : Heap Value}
    {backend : Nat} {done : List ItemPointer} {b b' : SerialBuild Value Term} {c : ItemPointer}
    (h : ScanHits an heap done b.index) (hnew : c ∉ done)
    (hb' : tpProcessDocument cfg an backend b c = .ok b') :
    ScanHits an heap (done ++ [c]) b'.index := by
  rcases tpProcessDocument_cases hb' with ⟨hnone, rfl⟩ | ⟨tuple, tv, added, htuple, hterms, rfl, hb⟩
  · refine ⟨fun term ctid => ?_, h.postings, h.heap⟩
    rw [documentHits_append_none done (h.heap ▸ hnone), h.hits]
  · have hdoc : documentAt an heap c = some tv := (documentAt_eq (h.heap ▸ htuple)).trans hterms
    have hadded := h.addDocument hnew hdoc (indexedTerms_ne_nil hterms) backend
      (cfg.tenantIdOf tuple)
    split at hb
    case isTrue => exact ScanHits.buildSpill (b := ⟨_, b.accum⟩) hadded hb
    case isFalse =>
      subst hb
      exact hadded

/-- **The serial build**: the segments have every term of every document once. -/
theorem linkedCount_tpBuild {cfg : Config} {an : Analyzer Value Term} {backend : Nat}
    {scan : List ItemPointer} {s s' : IndexState Value Term} (hnodup : scan.Nodup)
    (h : tpBuild cfg an backend scan s = .ok s') (term : Term) (ctid : ItemPointer) :
    linkedCount s'.levels term ctid = documentHits an s.heap scan term ctid := by
  obtain ⟨b, hscan, h⟩ := bind_eq_ok h
  obtain ⟨spilled, hfinal, h⟩ := bind_eq_ok h
  cases h
  have hstart : ScanHits an s.heap []
      (tpCreateBuildIndexState backend (newIndexFile cfg backend s)).index := by
    refine ⟨fun term ctid => ?_, fun _ term => postings_empty term, rfl⟩
    rw [documentHits_nil]
    simp [searchHits, tpCreateBuildIndexState, newIndexFile, linkedCount]
  have hdone := scan_invariant
    (fun _ _ _ _ (hinv : ScanHits an s.heap _ _) => hinv.processDocument) hstart hnodup hscan
  obtain ⟨hmt, -, hlev, -⟩ := tpBuildFinalizeAndUpdateStats_frame cfg b.index
  rw [← hdone.hits, searchHits]
  show linkedCount spilled.levels term ctid = _
  unfold finalSpill at hfinal
  split at hfinal
  case isTrue hzero =>
    cases hfinal
    rw [hmt] at hzero
    rw [hlev, hdone.postings hzero, List.countP_nil, Nat.zero_add]
  case isFalse =>
    obtain ⟨seg, hseg, hfinal⟩ := bind_eq_ok hfinal
    rw [hmt] at hseg
    cases seg with
    | none =>
        cases hfinal
        have hnil : b.index.memtable.postings term = [] := by
          rw [Memtable.postings, AList.lookup, stringTable_of_tpWriteSegment_none hseg]
          rfl
        rw [hlev, hnil, List.countP_nil, Nat.zero_add]
    | some seg =>
        cases hfinal
        show linkedCount (Segment.linkSegment _ 0 seg) term ctid = _
        rw [hlev, linkedCount_linkSegment _ (by decide), countP_written hseg, Nat.add_comm]

omit [DecidableEq Term] in
/-- A scan without documents at its tuple, or with the one it finds there. -/
theorem scannedDocument_cases (cfg : Config) (an : Analyzer Value Term) (heap : Heap Value)
    (t : ScannedTuple) :
    (scannedDocument cfg an heap t = none ∧ documentAt an heap t.ctid = none) ∨
      ∃ d, scannedDocument cfg an heap t = some d ∧ d.ctid = t.ctid ∧
        documentAt an heap t.ctid = some d.terms := by
  cases hd : scannedDocument cfg an heap t with
  | none =>
      left
      have hmem := @mem_scannedDocuments_ctid _ _ cfg an heap [t] t.ctid
      have hnil : scannedDocuments cfg an heap [t] = [] := List.filterMap_cons_none hd
      rw [hnil, List.map_nil, List.map_singleton] at hmem
      refine ⟨rfl, Option.not_isSome_iff_eq_none.1 fun hsome => ?_⟩
      exact List.not_mem_nil (hmem.2 ⟨List.mem_singleton_self _, hsome⟩)
  | some d =>
      right
      have hmem : d ∈ scannedDocuments cfg an heap [t] :=
        List.mem_filterMap.2 ⟨t, List.mem_singleton_self t, hd⟩
      obtain ⟨hctid, hdoc⟩ := documentAt_of_mem_scannedDocuments hmem
      rw [List.map_singleton, List.mem_singleton] at hctid
      exact ⟨d, rfl, hctid, hctid ▸ hdoc⟩

/-- Scanned documents have every term once. -/
theorem countP_scannedDocuments (cfg : Config) (an : Analyzer Value Term) (heap : Heap Value)
    {tuples : List ScannedTuple} (hnodup : (tuples.map ScannedTuple.ctid).Nodup) (term : Term)
    (ctid : ItemPointer) :
    ((scannedDocuments cfg an heap tuples).flatMap fun d => d.segPostings term).countP
        (fun q => q.ctid = ctid) =
      documentHits an heap (tuples.map ScannedTuple.ctid) term ctid := by
  induction tuples using List.reverseRecOn with
  | nil => exact (documentHits_nil an heap term ctid).symm
  | append_singleton tuples t ih =>
      rw [List.map_append, List.map_singleton] at hnodup ⊢
      have hparts := List.nodup_append.1 hnodup
      have hnew : t.ctid ∉ tuples.map ScannedTuple.ctid := fun hmem =>
        hparts.2.2 _ hmem _ (List.mem_singleton_self _) rfl
      rw [scannedDocuments, List.filterMap_append, List.flatMap_append, List.countP_append,
        ← scannedDocuments, ih hparts.1]
      rcases scannedDocument_cases cfg an heap t with ⟨hnone, hdoc⟩ | ⟨d, hsome, hctid, hdoc⟩
      · rw [List.filterMap_cons_none hnone, documentHits_append_none _ hdoc]
        rfl
      · have hcount : (d.segPostings term).countP (fun q => q.ctid = ctid) =
            (d.postings term).countP fun p => p.ctid = ctid := by
          rw [WorkerDoc.segPostings, List.countP_map]
          rfl
        rw [List.filterMap_cons_some hsome, List.filterMap_nil, List.flatMap_singleton, hcount,
          documentHits_append_some hnew hdoc, WorkerDoc.postings,
          countP_documentPostings _ d.terms.nodup, hctid, Nat.add_comm]

/-- The merges keep the postings of their documents. -/
theorem countP_mergedBatches {cfg : Config} {docs : List (List (WorkerDoc Term))}
    {merged : List (MergedBatch Term)} (h : List.Forall₂ (Merged cfg) docs merged) (term : Term)
    (ctid : ItemPointer) :
    ((merged.filterMap MergedBatch.segment).map
        fun seg => (seg.postings term).countP fun q => q.ctid = ctid).sum =
      (docs.flatten.flatMap fun d => d.segPostings term).countP fun q => q.ctid = ctid := by
  induction h with
  | nil => rfl
  | @cons batch r rest merged hr _ ih =>
      rw [List.flatten_cons, List.flatMap_append, List.countP_append, ← ih]
      cases hseg : r.segment with
      | none =>
          rw [List.filterMap_cons_none hseg, hr.none hseg, List.flatMap_nil, List.countP_nil,
            Nat.zero_add]
      | some seg =>
          have hpostings : seg.postings term = batch.flatMap fun d => d.segPostings term := by
            rw [(hr.holds seg hseg).postings, List.flatMap_map]
            rfl
          rw [List.filterMap_cons_some hseg, List.map_cons, List.sum_cons, hpostings]

/-- **The parallel build**: the segments have every term of every document once. -/
theorem linkedCount_tpBuildParallel {cfg : Config} {an : Analyzer Value Term} {backend : Nat}
    {batches : List (List (List ScannedTuple))} {s s' : IndexState Value Term}
    (hnodup : (batches.flatten.flatten.map ScannedTuple.ctid).Nodup)
    (h : tpBuildParallel cfg an backend batches s = .ok s') (term : Term) (ctid : ItemPointer) :
    linkedCount s'.levels term ctid =
      documentHits an s.heap (batches.flatten.flatten.map ScannedTuple.ctid) term ctid := by
  obtain ⟨merged, hmerged, h⟩ := bind_eq_ok h
  have hall := flatten_batchDocs cfg an s.heap batches
  have hdistinct : ((batches.map (batchDocs cfg an s.heap)).flatten.map WorkerDoc.ctid).Nodup := by
    rw [hall]
    exact (scannedDocuments_sublist cfg an s.heap _).nodup hnodup
  have hcount := countP_mergedBatches (forall₂_merged hdistinct hmerged) term ctid
  rw [hall, countP_scannedDocuments cfg an s.heap hnodup] at hcount
  have hchain := linkedCount_update (fun _ => [] : Levels Term) (show 0 < tpMaxLevels by decide)
    (merged.filterMap MergedBatch.segment) term ctid
  have hnone : linkedCount (fun _ => [] : Levels Term) term ctid = 0 := by
    simp [linkedCount]
  cases h
  simp only [writeAccumulatedStats_frame]
  rw [linkedCount_compact, ← hcount]
  simpa [hnone] using hchain

/-! ## What survives a build -/

omit [DecidableEq Term] in
/-- The state with a table of tenant statistics. -/
def SharedState.withTenantStats (st : SharedState Term) (tenantStats : TenantTable) :
    SharedState Term :=
  { st with memtable := { st.memtable with tenantStats := tenantStats } }

omit [DecidableEq Term] in
/-- Attaching to the registered state changes its tenant statistics only. -/
theorem attachedState_registered (cfg : Config) {db : Database Value Term} {backend : Nat}
    (hcached : db.cached backend = none) :
    ∃ tenantStats, attachedState cfg db backend =
      (sharedState db.index).withTenantStats tenantStats := by
  have hload : ∃ tenantStats, sharedState (loadTenantStats cfg db.index) =
      (sharedState db.index).withTenantStats tenantStats := by
    unfold loadTenantStats
    split
    · split
      · exact ⟨db.index.memtable.tenantStats, rfl⟩
      · exact ⟨_, rfl⟩
    · exact ⟨db.index.memtable.tenantStats, rfl⟩
  obtain ⟨tenantStats, hstate⟩ := hload
  refine ⟨tenantStats, ?_⟩
  rw [← hstate]
  simp [attachedState, tpGetLocalIndexState, hcached, stateAt, sharedState]

omit [DecidableEq Term] in
/-- A backend with a local state keeps it. -/
theorem attachedState_cached (cfg : Config) {db : Database Value Term} {backend generation : Nat}
    (hcached : db.cached backend = some generation) :
    attachedState cfg db backend = stateAt db generation := by
  simp [attachedState, tpGetLocalIndexState, hcached]

omit [DecidableEq Term] in
/-- Freshness does not look at tenant statistics. -/
theorem freshFor_tenantStats {an : Analyzer Value Term} {heap : Heap Value}
    {docs : Finset ItemPointer} {st : SharedState Term} {tenantStats : TenantTable} :
    FreshFor an heap docs (st.withTenantStats tenantStats) ↔ FreshFor an heap docs st :=
  ⟨fun h => ⟨h.terms, h.lengths, h.totalDocs, h.totalLen⟩,
    fun h => ⟨h.terms, h.lengths, h.totalDocs, h.totalLen⟩⟩

omit [DecidableEq Term] in
/-- A fresh state, if `total_docs` can count the documents. -/
theorem freshFor_of_counted {an : Analyzer Value Term} {heap : Heap Value}
    {docs : Finset ItemPointer} {st : SharedState Term}
    (hterms : st.memtable.stringTable.entries = [])
    (hlengths : st.memtable.docLengths.entries = [])
    (hcounted : CountedAs an heap docs st.totalDocs st.totalLen) (hbound : docs.card < 2 ^ 31) :
    FreshFor an heap docs st where
  terms := hterms
  lengths := hlengths
  totalDocs := by
    rw [← hcounted.count] at hbound ⊢
    exact int32_of_lt hbound
  totalLen := hcounted.length

omit [DecidableEq Term] in
/-- A fresh state counts fewer documents than an `int32` can hold. -/
theorem FreshFor.card_lt {an : Analyzer Value Term} {heap : Heap Value}
    {docs : Finset ItemPointer} {st : SharedState Term} (h : FreshFor an heap docs st) :
    docs.card < 2 ^ 31 := by
  have hlt := Int.bmod_lt (x := (st.totalDocs : Int)) (m := 2 ^ 32) (by decide)
  rw [h.totalDocs] at hlt
  have : (docs.card : Int) < 2 ^ 31 := hlt
  exact_mod_cast this

/-- A search of a fresh memtable meets nothing. -/
theorem FreshFor.searchHits {an : Analyzer Value Term} {heap : Heap Value}
    {docs : Finset ItemPointer} {st : SharedState Term} (h : FreshFor an heap docs st)
    (levels : Levels Term) (term : Term) (ctid : ItemPointer) :
    searchHits st.memtable levels term ctid = linkedCount levels term ctid := by
  have hnil : st.memtable.postings term = [] := by
    rw [Memtable.postings, AList.lookup, h.terms]
    rfl
  rw [Am.searchHits, hnil, List.countP_nil, Nat.zero_add]

/-- What a build does to an index and its backends. -/
structure Rebuilt (cfg : Config) (an : Analyzer Value Term) (scan : List ItemPointer)
    (db : Database Value Term) (op : DatabaseOp Value) (db' : Database Value Term) : Prop where
  heap : db'.index.heap = db.index.heap
  docs : linkedDocs db'.index.levels = scanDocs an db.index.heap scan
  hits : ∀ term ctid, linkedCount db'.index.levels term ctid =
    documentHits an db.index.heap scan term ctid
  fresh : ∀ backend, survivingState db op backend = none →
    (scanDocs an db.index.heap scan).card < 2 ^ 31 →
      FreshFor an db.index.heap (scanDocs an db.index.heap scan) (attachedState cfg db' backend)
  survives : ∀ backend st, survivingState db op backend = some st →
    ∃ tenantStats, attachedState cfg db' backend = st.withTenantStats tenantStats

/-- **The serial build** leaves the local states of the other backends. -/
theorem rebuilt_build {cfg : Config} {an : Analyzer Value Term} {backend : Nat}
    {scan : List ItemPointer} {db db' : Database Value Term} (hnum : WellNumbered db)
    (hstep : databaseStep cfg an db (.build backend scan) = some db') :
    Rebuilt cfg an scan db (.build backend scan) db' := by
  simp only [databaseStep] at hstep
  split at hstep
  case isFalse => cases hstep
  case isTrue hscan =>
    simp only [scanOf, Bool.and_eq_true, decide_eq_true_eq] at hscan
    cases hbuild : tpBuild cfg an backend scan db.index with
    | error e => simp [hbuild] at hstep
    | ok s =>
        simp only [hbuild, Option.some.injEq] at hstep
        obtain ⟨hfile, -, hcounted⟩ := tpBuild_spec hscan.1 hbuild
        obtain ⟨tenantStats, hmt⟩ : ∃ tenantStats, s.memtable =
            { (Memtable.empty : Memtable Term) with tenantStats := tenantStats } := by
          obtain ⟨b, -, h⟩ := bind_eq_ok hbuild
          obtain ⟨spilled, -, h⟩ := bind_eq_ok h
          cases h
          exact ⟨b.accum, rfl⟩
        have hregistered : (scanDocs an db.index.heap scan).card < 2 ^ 31 →
            FreshFor an db.index.heap (scanDocs an db.index.heap scan) (sharedState db'.index) := by
          intro hbound
          refine freshFor_of_counted ?_ ?_ ?_ hbound <;> rw [← hstep]
          · exact congrArg (fun mt => mt.stringTable.entries) hmt
          · exact congrArg (fun mt => mt.docLengths.entries) hmt
          · exact hcounted
        refine ⟨?_, ?_, ?_, ?_, ?_⟩
        · rw [← hstep]
          exact hfile.heap
        · rw [← hstep]
          exact hfile.docs
        · rw [← hstep]
          exact linkedCount_tpBuild hscan.1 hbuild
        · intro b hnone hbound
          by_cases hb : b = backend
          · have hcached : db'.cached b = some db'.generation := by simp [← hstep, hb]
            rw [attachedState_cached cfg hcached, stateAt, if_pos rfl]
            exact hregistered hbound
          · simp only [survivingState, if_neg hb, Option.map_eq_none_iff] at hnone
            have hcached : db'.cached b = none := by
              rw [← hstep]
              exact (Function.update_of_ne hb _ _).trans hnone
            obtain ⟨ts, hstate⟩ := attachedState_registered cfg hcached
            rw [hstate]
            exact freshFor_tenantStats.2 (hregistered hbound)
        · intro b st hst
          by_cases hb : b = backend
          · simp [survivingState, hb] at hst
          · simp only [survivingState, if_neg hb, Option.map_eq_some_iff] at hst
            obtain ⟨generation, hgen, rfl⟩ := hst
            have hle := (hnum b generation hgen).2
            have hcached : db'.cached b = some generation := by
              rw [← hstep]
              exact (Function.update_of_ne hb _ _).trans hgen
            refine ⟨(stateAt db generation).memtable.tenantStats, ?_⟩
            have hne : generation ≠ db.generation + 1 := by omega
            rw [attachedState_cached cfg hcached, ← hstep]
            show stateAt _ generation = stateAt db generation
            simp only [stateAt, if_neg hne]
            by_cases hcurrent : generation = db.generation
            · rw [if_pos hcurrent, hcurrent, Function.update_self]
            · rw [if_neg hcurrent, Function.update_of_ne hcurrent]

/-- Nothing is replayed for a file without docid pages. -/
theorem memtable_rebuild_nil {cfg : Config} {an : Analyzer Value Term} {heap : Heap Value}
    {s : IndexState Value Term} (hnone : (s.docids.indexes cfg.indexOid).chainDocids = []) :
    ∃ tenantStats, (tpRebuildIndexFromDisk cfg an heap s).memtable =
      { (Memtable.empty : Memtable Term) with tenantStats := tenantStats } := by
  unfold tpRebuildIndexFromDisk
  simp only [hnone]
  split
  · exact ⟨∅, rfl⟩
  · split
    · exact ⟨∅, rfl⟩
    · split
      · exact ⟨_, rfl⟩
      · exact ⟨∅, rfl⟩

theorem heap_rebuild (cfg : Config) (an : Analyzer Value Term) (heap : Heap Value)
    (s : IndexState Value Term) : (tpRebuildIndexFromDisk cfg an heap s).heap = heap := by
  unfold tpRebuildIndexFromDisk
  simp only
  split
  · rfl
  · split <;> rfl

/-- The state read from a new file is fresh. -/
theorem freshFor_rebuild {cfg : Config} {an : Analyzer Value Term} {heap : Heap Value}
    {scan : List ItemPointer} {s : IndexState Value Term} (h : BuiltFile cfg an heap scan s)
    (hbound : (scanDocs an heap scan).card < 2 ^ 31) :
    FreshFor an heap (scanDocs an heap scan)
      (sharedState (tpRebuildIndexFromDisk cfg an s.heap s)) := by
  have hnone : (s.docids.indexes cfg.indexOid).chainDocids = [] := by
    rw [List.eq_nil_iff_forall_not_mem]
    intro ctid hmem
    obtain ⟨block, page, hpage, -⟩ := onDocidPage_of_mem_chain hmem
    rw [h.pages block] at hpage
    cases hpage
  obtain ⟨tenantStats, hmt⟩ := @memtable_rebuild_nil _ _ _ cfg an s.heap s hnone
  have hcorpus : corpus (tpRebuildIndexFromDisk cfg an s.heap s) = scanDocs an heap scan := by
    rw [corpus, levels_rebuild, h.docs, hmt]
    exact Finset.empty_union _
  have hcounted := h.rebuild.1.counted
  rw [hcorpus, heap_rebuild] at hcounted
  refine freshFor_of_counted ?_ ?_ (h.heap ▸ hcounted) hbound
  · exact congrArg (fun mt => mt.stringTable.entries) hmt
  · exact congrArg (fun mt => mt.docLengths.entries) hmt

/-- **The parallel build** leaves the registered state and all local states. -/
theorem rebuilt_buildParallel {cfg : Config} {an : Analyzer Value Term} {backend : Nat}
    {batches : List (List (List ScannedTuple))} {db db' : Database Value Term}
    (hnum : WellNumbered db)
    (hstep : databaseStep cfg an db (.buildParallel backend batches) = some db') :
    Rebuilt cfg an (batches.flatten.flatten.map ScannedTuple.ctid) db
      (.buildParallel backend batches) db' := by
  simp only [databaseStep] at hstep
  split at hstep
  case isFalse => cases hstep
  case isTrue hscan =>
    simp only [scanOf, Bool.and_eq_true, decide_eq_true_eq] at hscan
    cases hbuild : tpBuildParallel cfg an backend batches db.index with
    | error e => simp [hbuild] at hstep
    | ok s =>
        simp only [hbuild, Option.some.injEq] at hstep
        obtain ⟨hfile, hmt, htd, htl⟩ := tpBuildParallel_spec hscan.1 hbuild
        have hhits := linkedCount_tpBuildParallel hscan.1 hbuild
        by_cases hreg : db.registered = true
        case pos =>
            rw [if_pos hreg] at hstep
            have hshared : sharedState s = sharedState db.index := by
              rw [sharedState, sharedState, hmt, htd, htl]
            subst hstep
            refine ⟨hfile.heap, hfile.docs, hhits, ?_, ?_⟩
            · intro b hnone
              simp [survivingState, hreg] at hnone
            · intro b st hst
              simp only [survivingState, hreg, if_true, Option.some.injEq] at hst
              subst hst
              cases hcached : db.cached b with
              | none =>
                  obtain ⟨tenantStats, hstate⟩ := attachedState_registered cfg
                    (show ({ db with index := s } : Database Value Term).cached b = none
                      from hcached)
                  refine ⟨tenantStats, ?_⟩
                  rw [hstate, Option.getD_none, stateAt, if_pos rfl, ← hshared]
              | some generation =>
                  refine ⟨(stateAt db generation).memtable.tenantStats, ?_⟩
                  rw [attachedState_cached cfg (show ({ db with index := s } :
                    Database Value Term).cached b = some generation from hcached)]
                  simp only [Option.getD_some, stateAt, hshared]
                  rfl
        case neg =>
            have huncached : ∀ b, db.cached b = none := by
              intro b
              cases hcached : db.cached b with
              | none => rfl
              | some generation =>
                  exact absurd (hnum b generation hcached).1 hreg
            rw [if_neg hreg] at hstep
            have hindex : db'.index = tpRebuildIndexFromDisk cfg an s.heap s := by rw [← hstep]
            refine ⟨?_, ?_, ?_, ?_, ?_⟩
            · rw [hindex, heap_rebuild, hfile.heap]
            · rw [hindex, levels_rebuild, hfile.docs]
            · rw [hindex, levels_rebuild]
              exact hhits
            · intro b _ hbound
              have hfresh := freshFor_rebuild hfile hbound
              by_cases hb : b = backend
              · have hcached : db'.cached b = some db'.generation := by simp [← hstep, hb]
                rw [attachedState_cached cfg hcached, stateAt, if_pos rfl, hindex]
                exact hfresh
              · have hcached : db'.cached b = none := by
                  rw [← hstep]
                  exact (Function.update_of_ne hb _ _).trans (huncached b)
                obtain ⟨tenantStats, hstate⟩ := attachedState_registered cfg hcached
                rw [hstate, hindex]
                exact freshFor_tenantStats.2 hfresh
            · intro b st hst
              simp [survivingState, hreg] at hst

/-! ## Numbered states -/

omit [DecidableEq Term] in
/-- A local state with the newest number for one backend. -/
theorem wellNumbered_update {db : Database Value Term} {caches : Nat → Option Nat}
    (hreg : db.registered = true) (hle : ∀ b generation, caches b = some generation →
      generation ≤ db.generation) {backend : Nat}
    (hcached : db.cached = Function.update caches backend (some db.generation)) :
    WellNumbered db := by
  intro b generation hb
  rw [hcached] at hb
  refine ⟨hreg, ?_⟩
  by_cases hbackend : b = backend
  · subst hbackend
    rw [Function.update_self] at hb
    cases hb
    exact Nat.le_refl _
  · rw [Function.update_of_ne hbackend] at hb
    exact hle b generation hb

omit [DecidableEq Term] in
theorem WellNumbered.getLocalIndexState {cfg : Config} {db : Database Value Term}
    (h : WellNumbered db) (hreg : db.registered = true) (backend : Nat) :
    WellNumbered (tpGetLocalIndexState cfg db backend) := by
  unfold tpGetLocalIndexState
  split
  · exact h
  · exact wellNumbered_update hreg (fun b generation hb => (h b generation hb).2) rfl

/-- Calls register nothing. -/
theorem runCall_frame {cfg : Config} {an : Analyzer Value Term} {db db' : Database Value Term}
    {op : IndexOp Value} (h : runCall cfg an db op = some db') :
    db'.registered = db.registered ∧ db'.generation = db.generation ∧ db'.cached = db.cached := by
  unfold runCall at h
  simp only at h
  split at h
  · obtain ⟨s, -, rfl⟩ := Option.map_eq_some_iff.1 h
    exact ⟨rfl, rfl, rfl⟩
  · obtain ⟨s, -, rfl⟩ := Option.map_eq_some_iff.1 h
    exact ⟨rfl, rfl, rfl⟩

/-- **Every step** keeps the numbering. -/
theorem wellNumbered_step {cfg : Config} {an : Analyzer Value Term} {db db' : Database Value Term}
    {op : DatabaseOp Value} (h : WellNumbered db) (hstep : databaseStep cfg an db op = some db') :
    WellNumbered db' := by
  have hle : ∀ b generation, db.cached b = some generation → generation ≤ db.generation :=
    fun b generation hb => (h b generation hb).2
  cases op with
  | call op =>
      simp only [databaseStep] at hstep
      split at hstep
      case isFalse => cases hstep
      case isTrue hreg =>
        obtain ⟨hregistered, hgeneration, hcached⟩ := runCall_frame hstep
        have hattached : WellNumbered (if asksForState op then
            tpGetLocalIndexState cfg db (callBackend op) else db) := by
          split
          · exact h.getLocalIndexState hreg _
          · exact h
        intro b generation hb
        rw [hcached] at hb
        rw [hregistered, hgeneration]
        exact hattached b generation hb
  | attach backend =>
      simp only [databaseStep] at hstep
      split at hstep
      case isFalse => cases hstep
      case isTrue hreg =>
        cases hstep
        exact h.getLocalIndexState hreg backend
  | build backend scan =>
      simp only [databaseStep] at hstep
      split at hstep
      case isFalse => cases hstep
      case isTrue =>
        split at hstep
        · cases hstep
        · cases hstep
          exact wellNumbered_update rfl
            (fun b generation hb => Nat.le_succ_of_le (hle b generation hb)) rfl
  | buildParallel backend batches =>
      simp only [databaseStep] at hstep
      split at hstep
      case isFalse => cases hstep
      case isTrue =>
        split at hstep
        · cases hstep
        · cases hstep
          split
          · exact h
          · exact wellNumbered_update rfl hle rfl
  | restart backend =>
      simp only [databaseStep] at hstep
      split at hstep
      case isFalse => cases hstep
      case isTrue hreg =>
        cases hstep
        refine wellNumbered_update hreg ?_ rfl
        intro b generation hb
        cases hb

/-- The states that are reached are numbered. -/
theorem wellNumbered_of_reaches {cfg : Config} {an : Analyzer Value Term} {heap : Heap Value}
    {ok : List (DatabaseOp Value) → Database Value Term → DatabaseOp Value → Prop}
    {hist : List (DatabaseOp Value)} {db : Database Value Term}
    (h : Reaches (databaseStep cfg an) ok (Database.start heap) hist db) : WellNumbered db := by
  apply h.preserves WellNumbered
  · intro b generation hb
    cases hb
  · exact fun _ _ _ _ hnum _ hstep => wellNumbered_step hnum hstep

/-! ## Rebuilds -/

/-- A build is a rebuild, serial or parallel. -/
theorem rebuilt_step {cfg : Config} {an : Analyzer Value Term} {scan : List ItemPointer}
    {db db' : Database Value Term} {op : DatabaseOp Value} (hnum : WellNumbered db)
    (hop : buildScan op = some scan) (hstep : databaseStep cfg an db op = some db') :
    Rebuilt cfg an scan db op db' := by
  cases op with
  | build backend scan' =>
      cases hop
      exact rebuilt_build hnum hstep
  | buildParallel backend batches =>
      cases hop
      exact rebuilt_buildParallel hnum hstep
  | call op => cases hop
  | attach backend => cases hop
  | restart backend => cases hop

/-- The index is built and gets a document from the backend. -/
def insertedBy (backend : Nat) : List (DatabaseOp (TermVector Nat)) :=
  [.build 1 [], .call (.insert backend ⟨0, 1⟩ ⟨some oneWord, 0⟩)]

end PgTextsearch.Am
