import PgTextsearch.Am.BuildSpec

/-!
# Corpus statistics (`state/state.c`, `am/build.c`)

The shared `total_docs` and `total_len` should count the documents of the index:
those of the memtable and of the linked segments.  Inserts add to them, spills and
builds copy them to the metapage, and recovery takes them from there: a document
indexed after the last of these is replayed into the memtable, but is no longer
counted.

## Main results

* `corpus_stats_exact` — the statistics are exact in every state of every run in
  which no restart comes between an insert and the next metapage write.
* `replayed_document_uncounted` — such a restart leaves a document uncounted.
-/

namespace PgTextsearch.Am

open PgTextsearch.Postgres PgTextsearch.Segment PgTextsearch.State PgTextsearch.Verified

variable {Value Term : Type}

/-- `total_docs` of the shared state is an `int32`. -/
def sharedTotalDocs (s : IndexState Value Term) : Int :=
  (s.totalDocs : Int).bmod (2 ^ 32)

/-- **The corpus statistics** are those of the documents of the index. -/
def CorpusStatsExact (an : Analyzer Value Term) (s : IndexState Value Term) : Prop :=
  sharedTotalDocs s = (corpus s).card ∧
    s.totalLen = ∑ ctid ∈ corpus s, documentLength an s.heap ctid

/-- The step keeps the statistics: the backend works on the registered shared
state, a parallel build finds none, a restart comes when the metapage has the
current totals and recovery reads terms only from indexed documents, and the
documents are fewer than `total_docs` can count. -/
def StatsKept (cfg : Config) (an : Analyzer Value Term) (db : Database Value Term) :
    DatabaseOp Value → Prop
  | .call op => (∀ generation, db.cached (callBackend op) = some generation →
      generation = db.generation) ∧ db.index.totalDocs + 1 < 2 ^ 31
  | .attach _ => True
  | .build _ scan => (scanDocs an db.index.heap scan).card < 2 ^ 31
  | .buildParallel _ batches => db.registered = false ∧
      (scanDocs an db.index.heap (batches.flatten.flatten.map ScannedTuple.ctid)).card < 2 ^ 31
  | .restart _ => db.index.totalDocs = db.index.metaTotalDocs ∧
      ∀ ctid ∈ (db.index.docids.indexes cfg.indexOid).chainDocids,
        (fetchDocument cfg an db.index.heap ctid).isSome →
          (documentAt an db.index.heap ctid).isSome

/-! ## The invariant -/

/-- Documents are in the heap, recorded documents are indexed, the shared totals
count the documents of the index and the metapage totals those of the segments. -/
structure CorpusInv (cfg : Config) (an : Analyzer Value Term) (s : IndexState Value Term) :
    Prop where
  cover : TermsCover s.levels
  inHeap : ∀ ctid ∈ corpus s, (documentAt an s.heap ctid).isSome
  recorded : ∀ ctid, OnDocidPage (s.docids.indexes cfg.indexOid) ctid →
    (s.heap.tuples ctid).isSome ∧ ((documentAt an s.heap ctid).isSome → ctid ∈ corpus s)
  counted : CountedAs an s.heap (corpus s) s.totalDocs s.totalLen
  stored : CountedAs an s.heap (linkedDocs s.levels) s.metaTotalDocs s.metaTotalLen

theorem corpusInv_start (cfg : Config) (an : Analyzer Value Term) (heap : Heap Value) :
    CorpusInv cfg an (Database.start heap : Database Value Term).index where
  cover := by
    intro seg hseg
    simp [Database.start, IndexState.init, linkedSegments] at hseg
  inHeap := by simp [corpus, Database.start, IndexState.init]
  recorded := by
    rintro ctid ⟨block, page, hpage, -⟩
    cases hpage
  counted := by
    rw [show corpus (Database.start heap : Database Value Term).index = ∅ by
      simp [corpus, Database.start, IndexState.init]]
    exact CountedAs.empty an heap
  stored := by
    rw [show linkedDocs (Database.start heap : Database Value Term).index.levels = ∅ by
      simp [Database.start, IndexState.init]]
    exact CountedAs.empty an heap

theorem int32_of_lt {n : Nat} (h : n < 2 ^ 31) : (n : Int).bmod (2 ^ 32) = n := by
  have hlower : -(((2 ^ 32 : Nat) : Int) / 2) ≤ (n : Int) := by omega
  have hupper : (n : Int) < (((2 ^ 32 : Nat) : Int) + 1) / 2 := by omega
  exact Int.bmod_eq_of_le hlower hupper

/-- The invariant gives exact statistics. -/
theorem CorpusInv.exact {cfg : Config} {an : Analyzer Value Term} {s : IndexState Value Term}
    (h : CorpusInv cfg an s) (hbound : s.totalDocs < 2 ^ 31) : CorpusStatsExact an s := by
  have hcount : sharedTotalDocs s = s.totalDocs := int32_of_lt hbound
  exact ⟨hcount.trans (congrArg Nat.cast h.counted.count), h.counted.length⟩

/-- The invariant looks at the documents of the memtable only. -/
theorem CorpusInv.congr {cfg : Config} {an : Analyzer Value Term} {s s' : IndexState Value Term}
    (h : CorpusInv cfg an s) (hmt : memtableDocs s'.memtable = memtableDocs s.memtable)
    (hlevels : s'.levels = s.levels) (htd : s'.totalDocs = s.totalDocs)
    (htl : s'.totalLen = s.totalLen) (hmd : s'.metaTotalDocs = s.metaTotalDocs)
    (hml : s'.metaTotalLen = s.metaTotalLen)
    (hdocids : (s'.docids.indexes cfg.indexOid).pages = (s.docids.indexes cfg.indexOid).pages)
    (hheap : s'.heap = s.heap) : CorpusInv cfg an s' := by
  have hcorpus : corpus s' = corpus s := by rw [corpus, corpus, hmt, hlevels]
  constructor
  · rw [hlevels]
    exact h.cover
  · rw [hcorpus, hheap]
    exact h.inHeap
  · rw [hcorpus, hheap]
    rintro ctid ⟨block, page, hpage, hc⟩
    rw [hdocids] at hpage
    exact h.recorded ctid ⟨block, page, hpage, hc⟩
  · rw [hcorpus, hheap, htd, htl]
    exact h.counted
  · rw [hlevels, hheap, hmd, hml]
    exact h.stored

variable [DecidableEq Term]

omit [DecidableEq Term] in
theorem CorpusInv.spilled {cfg : Config} {an : Analyzer Value Term} {s s' : IndexState Value Term}
    (h : CorpusInv cfg an s) (hs : Spilled cfg s s') : CorpusInv cfg an s' := by
  have hcorpus := hs.corpus_eq
  constructor
  · exact hs.cover
  · rw [hcorpus, hs.heap]
    exact h.inHeap
  · rw [hcorpus, hs.heap]
    rintro ctid ⟨block, page, hpage, hc⟩
    rw [hs.pages] at hpage
    exact h.recorded ctid ⟨block, page, hpage, hc⟩
  · rw [hcorpus, hs.heap, hs.totalDocs, hs.totalLen]
    exact h.counted
  · rw [hs.docs, hs.heap, hs.metaTotalDocs, hs.metaTotalLen]
    exact h.counted

/-! ## Inserts -/

omit [DecidableEq Term] in
theorem tuples_place_of_isSome {heap : Heap Value} {ctid c : ItemPointer}
    (hfree : heap.tuples ctid = none) (hvalid : ctid.isValid = true) (tuple : HeapTuple Value)
    (hc : (heap.tuples c).isSome) : (heap.place ctid hvalid tuple).tuples c = heap.tuples c := by
  have hne : c ≠ ctid := by
    rintro rfl
    rw [hfree] at hc
    cases hc
  simp [Heap.place, Function.update_of_ne hne]

omit [DecidableEq Term] in
theorem isSome_of_documentAt {an : Analyzer Value Term} {heap : Heap Value} {ctid : ItemPointer}
    (h : (documentAt an heap ctid).isSome) : (heap.tuples ctid).isSome := by
  unfold documentAt at h
  cases htuple : heap.tuples ctid with
  | none => simp [htuple] at h
  | some tuple => rfl

omit [DecidableEq Term] in
theorem documentAt_place {an : Analyzer Value Term} {heap : Heap Value} {ctid c : ItemPointer}
    (hfree : heap.tuples ctid = none) (hvalid : ctid.isValid = true) (tuple : HeapTuple Value)
    (hc : (heap.tuples c).isSome) :
    documentAt an (heap.place ctid hvalid tuple) c = documentAt an heap c := by
  rw [documentAt, documentAt, tuples_place_of_isSome hfree hvalid tuple hc]

omit [DecidableEq Term] in
theorem CountedAs.place {an : Analyzer Value Term} {heap : Heap Value}
    {docs : Finset ItemPointer} {totalDocs totalLen : Nat}
    (h : CountedAs an heap docs totalDocs totalLen)
    (hdocs : ∀ c ∈ docs, (documentAt an heap c).isSome) {ctid : ItemPointer}
    (hfree : heap.tuples ctid = none) (hvalid : ctid.isValid = true) (tuple : HeapTuple Value) :
    CountedAs an (heap.place ctid hvalid tuple) docs totalDocs totalLen := by
  refine ⟨h.count, h.length.trans (Finset.sum_congr rfl fun c hc => ?_)⟩
  rw [documentLength, documentLength, documentAt_place hfree hvalid tuple
    (isSome_of_documentAt (hdocs c hc))]

omit [DecidableEq Term] in
/-- A new tuple is no document of the index. -/
theorem CorpusInv.place {cfg : Config} {an : Analyzer Value Term} {s : IndexState Value Term}
    (h : CorpusInv cfg an s) {ctid : ItemPointer} (hfree : s.heap.tuples ctid = none)
    (hvalid : ctid.isValid = true) (tuple : HeapTuple Value) :
    CorpusInv cfg an { s with heap := s.heap.place ctid hvalid tuple } where
  cover := h.cover
  inHeap := by
    intro c hc
    have hdoc := h.inHeap c hc
    rw [documentAt_place hfree hvalid tuple (isSome_of_documentAt hdoc)]
    exact hdoc
  recorded := by
    intro c hc
    obtain ⟨htuple, hdoc⟩ := h.recorded c hc
    rw [documentAt_place hfree hvalid tuple htuple,
      tuples_place_of_isSome hfree hvalid tuple htuple]
    exact ⟨htuple, hdoc⟩
  counted := h.counted.place h.inHeap hfree hvalid tuple
  stored := h.stored.place (fun c hc => h.inHeap c (Finset.mem_union_right _ hc)) hfree hvalid tuple

theorem CorpusInv.addDocument {cfg : Config} {an : Analyzer Value Term} {s : IndexState Value Term}
    (h : CorpusInv cfg an s) {ctid : ItemPointer} (hnew : ctid ∉ corpus s) {tv : TermVector Term}
    (hdoc : documentAt an s.heap ctid = some tv) (backend tenantId : Nat) :
    CorpusInv cfg an (addDocument s backend ctid tv tenantId) := by
  have hcorpus := corpus_addDocument s backend ctid tv tenantId
  constructor
  · exact h.cover
  · rw [hcorpus]
    intro c hc
    rcases Finset.mem_insert.1 hc with rfl | hc
    · show (documentAt an s.heap c).isSome
      rw [hdoc]
      rfl
    · exact h.inHeap c hc
  · rw [hcorpus]
    intro c hc
    obtain ⟨htuple, hmem⟩ := h.recorded c hc
    exact ⟨htuple, fun hd => Finset.mem_insert_of_mem (hmem hd)⟩
  · rw [hcorpus]
    exact h.counted.insert hnew hdoc
  · exact h.stored

omit [DecidableEq Term] in
theorem CorpusInv.recordDocid {cfg : Config} {an : Analyzer Value Term} {s : IndexState Value Term}
    (h : CorpusInv cfg an s) (backend : Nat) {ctid : ItemPointer}
    (htuple : (s.heap.tuples ctid).isSome)
    (hmem : (documentAt an s.heap ctid).isSome → ctid ∈ corpus s) :
    CorpusInv cfg an (recordDocid cfg backend ctid s) where
  cover := h.cover
  inHeap := h.inHeap
  recorded := by
    intro c hc
    rcases onDocidPage_add hc with rfl | hc
    · exact ⟨htuple, hmem⟩
    · exact h.recorded c hc
  counted := h.counted
  stored := h.stored

omit [DecidableEq Term] in
/-- A free line pointer belongs to no document. -/
theorem CorpusInv.notMem_of_free {cfg : Config} {an : Analyzer Value Term}
    {s : IndexState Value Term} (h : CorpusInv cfg an s) {ctid : ItemPointer}
    (hfree : s.heap.tuples ctid = none) : ctid ∉ corpus s := by
  intro hmem
  have hsome := isSome_of_documentAt (h.inHeap ctid hmem)
  rw [hfree] at hsome
  cases hsome

/-- The invariant survives the parts of a call. -/
theorem CorpusInv.keptByCalls {cfg : Config} {an : Analyzer Value Term}
    {s : IndexState Value Term} (h : CorpusInv cfg an s) (op : IndexOp Value) :
    KeptByCalls cfg an op s (CorpusInv cfg an) := by
  constructor
  · exact fun s hs => hs.cover
  · exact fun ctid tuple hvalid hfree => h.place hfree hvalid tuple
  · intro backend ctid tuple tv hvalid hfree _ hterms
    have htuple : (s.heap.place ctid hvalid tuple).tuples ctid = some tuple :=
      Function.update_self ..
    exact (h.place hfree hvalid tuple).addDocument (h.notMem_of_free hfree)
      ((documentAt_eq htuple).trans hterms) backend (cfg.tenantIdOf tuple)
  · exact fun s s' hs hspilled => hs.spilled hspilled
  · intro s backend ctid tuple hs htuple hmem
    refine hs.recordDocid backend (by rw [htuple]; rfl) ?_
    rw [documentAt_eq htuple]
    exact hmem
  · exact fun s counters hs => hs.congr rfl rfl rfl rfl rfl rfl rfl rfl

/-- **Every call** keeps the invariant. -/
theorem CorpusInv.indexStep {cfg : Config} {an : Analyzer Value Term}
    {s s' : IndexState Value Term} (h : CorpusInv cfg an s) {op : IndexOp Value}
    (hstep : indexStep cfg an s op = some s') : CorpusInv cfg an s' :=
  (h.keptByCalls op).indexStep h hstep

/-- A call counts one document at most. -/
theorem totalDocs_indexStep {cfg : Config} {an : Analyzer Value Term}
    {s s' : IndexState Value Term} (hcover : TermsCover s.levels) {op : IndexOp Value}
    (hstep : indexStep cfg an s op = some s') : s'.totalDocs ≤ s.totalDocs + 1 := by
  have hkept : KeptByCalls cfg an op s
      (fun s' => TermsCover s'.levels ∧ s'.totalDocs ≤ s.totalDocs + 1) := by
    constructor
    · exact fun s hs => hs.1
    · exact fun _ _ _ _ => ⟨hcover, Nat.le_succ _⟩
    · exact fun _ _ _ _ _ _ _ _ => ⟨hcover, Nat.le_refl _⟩
    · exact fun s s' hs hspilled => ⟨hspilled.cover, hspilled.totalDocs ▸ hs.2⟩
    · exact fun _ _ _ _ hs _ _ => hs
    · exact fun _ _ hs => hs
  exact (hkept.indexStep ⟨hcover, Nat.le_succ _⟩ hstep).2

/-! ## Builds and restarts -/

omit [DecidableEq Term] in
/-- The documents of a scan are in the heap. -/
theorem BuiltFile.inv {cfg : Config} {an : Analyzer Value Term} {heap : Heap Value}
    {scan : List ItemPointer} {s : IndexState Value Term} (h : BuiltFile cfg an heap scan s)
    (hmt : memtableDocs s.memtable = ∅)
    (hcounted : CountedAs an heap (scanDocs an heap scan) s.totalDocs s.totalLen) :
    CorpusInv cfg an s := by
  have hcorpus : corpus s = scanDocs an heap scan := by
    rw [corpus, hmt, h.docs, Finset.empty_union]
  constructor
  · exact h.cover
  · rw [hcorpus, h.heap]
    exact fun c hc => (mem_scanDocs.1 hc).2
  · rintro c ⟨block, page, hpage, -⟩
    rw [h.pages block] at hpage
    cases hpage
  · rw [hcorpus, h.heap]
    exact hcounted
  · rw [h.docs, h.heap]
    exact h.stored

omit [DecidableEq Term] in
/-- Reading tenant statistics leaves the documents of the memtable alone. -/
theorem memtableDocs_readTenantStatsPages (mt : Memtable Term)
    (entries : List (Nat × TenantStatsEntry)) :
    memtableDocs (tpReadTenantStatsPages mt entries) = memtableDocs mt := rfl

/-- **What recovery restores**: the totals of the metapage, and the recorded
documents that the heap still has. -/
theorem rebuild_effect (cfg : Config) (an : Analyzer Value Term) (s : IndexState Value Term)
    (hheap : ¬ (s.heap.nblocks = 0 ∧ 0 < s.metaTotalDocs))
    (hempty : s.metaTotalDocs = 0 → s.metaTotalLen = 0) :
    (tpRebuildIndexFromDisk cfg an s.heap s).totalDocs = s.metaTotalDocs ∧
      (tpRebuildIndexFromDisk cfg an s.heap s).totalLen = s.metaTotalLen ∧
      (∀ c ∈ memtableDocs (tpRebuildIndexFromDisk cfg an s.heap s).memtable,
        c ∈ (s.docids.indexes cfg.indexOid).chainDocids ∧
          (fetchDocument cfg an s.heap c).isSome) ∧
      (tpRebuildIndexFromDisk cfg an s.heap s).levels = s.levels ∧
      (tpRebuildIndexFromDisk cfg an s.heap s).metaTotalDocs = s.metaTotalDocs ∧
      (tpRebuildIndexFromDisk cfg an s.heap s).metaTotalLen = s.metaTotalLen ∧
      (tpRebuildIndexFromDisk cfg an s.heap s).docids.indexes = s.docids.indexes ∧
      (tpRebuildIndexFromDisk cfg an s.heap s).heap = s.heap := by
  simp only [tpRebuildIndexFromDisk, if_neg hheap]
  split
  case isTrue hnothing =>
    refine ⟨hnothing.1.symm, (hempty hnothing.1).symm, ?_, rfl, rfl, rfl, rfl, rfl⟩
    simp [freshSharedState]
  case isFalse =>
    refine ⟨rfl, rfl, ?_, rfl, rfl, rfl, rfl, rfl⟩
    intro c hc
    rw [← docLengths_replay, ← mem_memtableDocs]
    split at hc
    · rwa [memtableDocs_readTenantStatsPages] at hc
    · exact hc

/-- **A restart** at which the metapage has the current totals keeps the
invariant. -/
theorem CorpusInv.restart {cfg : Config} {an : Analyzer Value Term} {s : IndexState Value Term}
    (h : CorpusInv cfg an s) (htotals : s.totalDocs = s.metaTotalDocs)
    (hread : ∀ ctid ∈ (s.docids.indexes cfg.indexOid).chainDocids,
      (fetchDocument cfg an s.heap ctid).isSome → (documentAt an s.heap ctid).isSome) :
    CorpusInv cfg an (tpRebuildIndexFromDisk cfg an s.heap s) ∧
      (tpRebuildIndexFromDisk cfg an s.heap s).totalDocs = s.metaTotalDocs := by
  -- equally many documents: the memtable has none that is in no segment
  have hcorpus : linkedDocs s.levels = corpus s := by
    have hcard : (corpus s).card ≤ (linkedDocs s.levels).card := by
      rw [← h.counted.count, ← h.stored.count, htotals]
    exact Finset.eq_of_subset_of_card_le Finset.subset_union_right hcard
  have hheap : ¬ (s.heap.nblocks = 0 ∧ 0 < s.metaTotalDocs) := by
    rintro ⟨hblocks, hdocs⟩
    rw [h.stored.count, Finset.card_pos] at hdocs
    obtain ⟨c, hc⟩ := hdocs
    obtain ⟨tuple, htuple⟩ := Option.isSome_iff_exists.1
      (isSome_of_documentAt (h.inHeap c (hcorpus ▸ hc)))
    have := s.heap.bounded c tuple htuple
    omega
  have hempty : s.metaTotalDocs = 0 → s.metaTotalLen = 0 := by
    intro hzero
    rw [h.stored.count, Finset.card_eq_zero] at hzero
    rw [h.stored.length, hzero, Finset.sum_empty]
  obtain ⟨htd, htl, hmt, hlevels, hmd, hml, hdocids, hh⟩ := rebuild_effect cfg an s hheap hempty
  have hafter : corpus (tpRebuildIndexFromDisk cfg an s.heap s) = linkedDocs s.levels := by
    rw [corpus, hlevels]
    apply Finset.union_eq_right.2
    intro c hc
    obtain ⟨hchain, hfetch⟩ := hmt c hc
    rw [hcorpus]
    exact (h.recorded c (onDocidPage_of_mem_chain hchain)).2 (hread c hchain hfetch)
  refine ⟨⟨?_, ?_, ?_, ?_, ?_⟩, htd⟩
  · rw [hlevels]
    exact h.cover
  · rw [hafter, hcorpus, hh]
    exact h.inHeap
  · rw [hafter, hcorpus, hh, hdocids]
    exact h.recorded
  · rw [hafter, hh, htd, htl]
    exact h.stored
  · rw [hlevels, hh, hmd, hml]
    exact h.stored

/-- **The first use of a new file** takes the totals of the metapage. -/
theorem BuiltFile.rebuild {cfg : Config} {an : Analyzer Value Term} {heap : Heap Value}
    {scan : List ItemPointer} {s : IndexState Value Term} (h : BuiltFile cfg an heap scan s) :
    CorpusInv cfg an (tpRebuildIndexFromDisk cfg an s.heap s) ∧
      (tpRebuildIndexFromDisk cfg an s.heap s).totalDocs = (scanDocs an heap scan).card := by
  -- the rebuild does not look at shared memory, so the totals may be taken for counted
  let counted : IndexState Value Term :=
    { s with
      memtable := Memtable.empty
      totalDocs := s.metaTotalDocs
      totalLen := s.metaTotalLen }
  have hfile : BuiltFile cfg an heap scan counted := ⟨h.docs, h.stored, h.cover, h.pages, h.heap⟩
  have hinv : CorpusInv cfg an counted := hfile.inv rfl h.stored
  have hnone : ∀ ctid, ctid ∉ (counted.docids.indexes cfg.indexOid).chainDocids := by
    intro ctid hmem
    obtain ⟨block, page, hpage, -⟩ := onDocidPage_of_mem_chain hmem
    rw [hfile.pages block] at hpage
    cases hpage
  obtain ⟨hafter, htd⟩ := hinv.restart rfl fun ctid hmem => absurd hmem (hnone ctid)
  exact ⟨hafter, htd.trans h.stored.count⟩

/-! ## Runs -/

omit [DecidableEq Term] in
/-- Attaching reads tenant statistics, nothing else. -/
theorem loadTenantStats_frame (cfg : Config) (s : IndexState Value Term) :
    memtableDocs (loadTenantStats cfg s).memtable = memtableDocs s.memtable ∧
      (loadTenantStats cfg s).levels = s.levels ∧
      (loadTenantStats cfg s).totalDocs = s.totalDocs ∧
      (loadTenantStats cfg s).totalLen = s.totalLen ∧
      (loadTenantStats cfg s).metaTotalDocs = s.metaTotalDocs ∧
      (loadTenantStats cfg s).metaTotalLen = s.metaTotalLen ∧
      (loadTenantStats cfg s).docids = s.docids ∧ (loadTenantStats cfg s).heap = s.heap := by
  unfold loadTenantStats
  split
  · split <;> exact ⟨rfl, rfl, rfl, rfl, rfl, rfl, rfl, rfl⟩
  · exact ⟨rfl, rfl, rfl, rfl, rfl, rfl, rfl, rfl⟩

omit [DecidableEq Term] in
theorem CorpusInv.getLocalIndexState {cfg : Config} {an : Analyzer Value Term}
    {db : Database Value Term} (h : CorpusInv cfg an db.index) (backend : Nat) :
    CorpusInv cfg an (tpGetLocalIndexState cfg db backend).index ∧
      (tpGetLocalIndexState cfg db backend).index.totalDocs = db.index.totalDocs ∧
      (tpGetLocalIndexState cfg db backend).generation = db.generation := by
  unfold tpGetLocalIndexState
  cases db.cached backend with
  | some generation => exact ⟨h, rfl, rfl⟩
  | none =>
      obtain ⟨hmt, hlevels, htd, htl, hmd, hml, hdocids, hheap⟩ :=
        loadTenantStats_frame cfg db.index
      refine ⟨h.congr hmt hlevels htd htl hmd hml ?_ hheap, htd, rfl⟩
      show ((loadTenantStats cfg db.index).docids.indexes cfg.indexOid).pages = _
      rw [hdocids]

omit [DecidableEq Term] in
/-- A backend that attaches or has cached the registered state uses it. -/
theorem generation_of_current (cfg : Config) {db : Database Value Term} {backend : Nat}
    (hcurrent : ∀ generation, db.cached backend = some generation → generation = db.generation)
    (asks : Bool) :
    ((if asks then tpGetLocalIndexState cfg db backend else db).cached backend).getD
      (if asks then tpGetLocalIndexState cfg db backend else db).generation =
      (if asks then tpGetLocalIndexState cfg db backend else db).generation := by
  cases hcached : db.cached backend with
  | some generation =>
      have hsame : (if asks then tpGetLocalIndexState cfg db backend else db) = db := by
        unfold tpGetLocalIndexState
        rw [hcached]
        exact ite_self ..
      rw [hsame, hcached]
      exact hcurrent generation hcached
  | none =>
      cases asks with
      | false => simp [hcached]
      | true => simp [tpGetLocalIndexState, hcached]

/-- **Every step** that keeps the statistics keeps the invariant. -/
theorem corpusInv_step {cfg : Config} {an : Analyzer Value Term} {db db' : Database Value Term}
    {op : DatabaseOp Value} (h : CorpusInv cfg an db.index)
    (hlimit : db.index.totalDocs < 2 ^ 31) (hkept : StatsKept cfg an db op)
    (hstep : databaseStep cfg an db op = some db') :
    CorpusInv cfg an db'.index ∧ db'.index.totalDocs < 2 ^ 31 := by
  cases op with
  | call op =>
      obtain ⟨hcurrent, hbound⟩ := hkept
      simp only [databaseStep] at hstep
      split at hstep
      case isFalse => cases hstep
      case isTrue =>
        have hgen := generation_of_current cfg hcurrent (asksForState op)
        have hinv : CorpusInv cfg an (if asksForState op then
              tpGetLocalIndexState cfg db (callBackend op) else db).index ∧
            (if asksForState op then tpGetLocalIndexState cfg db (callBackend op)
              else db).index.totalDocs = db.index.totalDocs := by
          split
          · exact ⟨(h.getLocalIndexState _).1, (h.getLocalIndexState _).2.1⟩
          · exact ⟨h, rfl⟩
        generalize (if asksForState op then tpGetLocalIndexState cfg db (callBackend op)
          else db) = attached at hstep hgen hinv
        simp only [runCall, hgen, if_true] at hstep
        obtain ⟨s', hs', rfl⟩ := Option.map_eq_some_iff.1 hstep
        have hcount := totalDocs_indexStep hinv.1.cover hs'
        exact ⟨hinv.1.indexStep hs', by show s'.totalDocs < 2 ^ 31; omega⟩
  | attach backend =>
      simp only [databaseStep] at hstep
      split at hstep
      case isFalse => cases hstep
      case isTrue =>
        cases hstep
        obtain ⟨hinv, htd, -⟩ := h.getLocalIndexState backend
        exact ⟨hinv, htd ▸ hlimit⟩
  | build backend scan =>
      simp only [databaseStep] at hstep
      split at hstep
      case isFalse => cases hstep
      case isTrue hscan =>
        cases hbuild : tpBuild cfg an backend scan db.index with
        | error e => simp [hbuild] at hstep
        | ok s =>
            simp only [hbuild] at hstep
            cases hstep
            simp only [scanOf, Bool.and_eq_true, decide_eq_true_eq] at hscan
            obtain ⟨hfile, hmt, hcounted⟩ := tpBuild_spec hscan.1 hbuild
            exact ⟨hfile.inv hmt hcounted, hcounted.count ▸ hkept⟩
  | buildParallel backend batches =>
      obtain ⟨hfresh, hbound⟩ := hkept
      simp only [databaseStep] at hstep
      split at hstep
      case isFalse => cases hstep
      case isTrue hscan =>
        cases hbuild : tpBuildParallel cfg an backend batches db.index with
        | error e => simp [hbuild] at hstep
        | ok s =>
            simp only [hbuild, hfresh] at hstep
            cases hstep
            simp only [scanOf, Bool.and_eq_true, decide_eq_true_eq] at hscan
            obtain ⟨hinv, htd⟩ := (tpBuildParallel_spec hscan.1 hbuild).1.rebuild
            exact ⟨hinv, htd ▸ hbound⟩
  | restart backend =>
      simp only [databaseStep] at hstep
      split at hstep
      case isFalse => cases hstep
      case isTrue =>
        cases hstep
        obtain ⟨hinv, htd⟩ := h.restart hkept.1 hkept.2
        exact ⟨hinv, by show _ < 2 ^ 31; rw [htd, ← hkept.1]; exact hlimit⟩

/-- **The corpus statistics are exact** in every state of every run whose steps keep
them: after every build, insert, spill and restart. -/
theorem corpus_stats_exact {cfg : Config} {an : Analyzer Value Term} {heap : Heap Value}
    {hist : List (DatabaseOp Value)} {db : Database Value Term}
    (h : Reaches (databaseStep cfg an) (fun _ db op => StatsKept cfg an db op)
      (Database.start heap) hist db) :
    CorpusStatsExact an db.index := by
  have hinv : CorpusInv cfg an db.index ∧ db.index.totalDocs < 2 ^ 31 := by
    apply h.invariant
    · exact ⟨corpusInv_start cfg an heap, Nat.two_pow_pos 31⟩
    · intro hist db op db' hinv hkept hstep
      exact corpusInv_step hinv.1 hinv.2 hkept hstep
  exact hinv.1.exact hinv.2

/-! ## Restarts after and before a spill -/

omit [DecidableEq Term] in
/-- Recovery of a text index finds terms where the insert found them. -/
theorem documentAt_of_fetchDocument {cfg : Config} {an : Analyzer Value Term} {heap : Heap Value}
    (htext : an.indexedType = .text) {ctid : ItemPointer}
    (h : (fetchDocument cfg an heap ctid).isSome) : (documentAt an heap ctid).isSome := by
  unfold fetchDocument at h
  split at h
  · cases h
  split at h
  · cases h
  cases htuple : heap.tuples ctid with
  | none => simp [htuple] at h
  | some tuple =>
      rw [documentAt_eq htuple]
      simp only [htuple] at h
      cases hv : tuple.value with
      | none => simp [hv] at h
      | some value =>
          simp only [hv] at h
          split at h
          · cases h
          case isFalse hterms =>
            simp only [indexedTerms, hv, Analyzer.insertTerms, htext, if_neg hterms]
            rfl

/-- The conditions of `StatsKept` for a text index. -/
def statsKeptCheck (an : Analyzer Value Term) (db : Database Value Term) :
    DatabaseOp Value → Bool
  | .call op => decide ((db.cached (callBackend op)).getD db.generation = db.generation) &&
      decide (db.index.totalDocs + 1 < 2 ^ 31)
  | .attach _ => true
  | .build _ scan => decide ((scanDocs an db.index.heap scan).card < 2 ^ 31)
  | .buildParallel _ batches => !db.registered &&
      decide ((scanDocs an db.index.heap
        (batches.flatten.flatten.map ScannedTuple.ctid)).card < 2 ^ 31)
  | .restart _ => decide (db.index.totalDocs = db.index.metaTotalDocs)

omit [DecidableEq Term] in
theorem statsKept_of_check {cfg : Config} {an : Analyzer Value Term}
    (htext : an.indexedType = .text) {db : Database Value Term} {op : DatabaseOp Value}
    (h : statsKeptCheck an db op = true) : StatsKept cfg an db op := by
  cases op with
  | call op =>
      simp only [statsKeptCheck, Bool.and_eq_true, decide_eq_true_eq] at h
      refine ⟨fun generation hcached => ?_, h.2⟩
      rw [hcached] at h
      exact h.1
  | attach backend => trivial
  | build backend scan =>
      simp only [statsKeptCheck, decide_eq_true_eq] at h
      exact h
  | buildParallel backend batches =>
      simp only [statsKeptCheck, Bool.and_eq_true, Bool.not_eq_true', decide_eq_true_eq] at h
      exact h
  | restart backend =>
      exact ⟨of_decide_eq_true h, fun ctid _ => documentAt_of_fetchDocument htext⟩

/-- A document of a text index, spilled before the restart. -/
def spilledRestart : List (DatabaseOp (TermVector Nat)) :=
  [.build 1 [], .call (.insert 1 ⟨0, 1⟩ ⟨some oneWord, 0⟩), .call (.spillMemtable 1), .restart 2]

theorem corpus_stats_exact_spilledRestart :
    ∃ db, Reaches (databaseStep ⟨1, 0, 0, 8, false⟩ (vectorAnalyzer .text))
        (fun _ db op => StatsKept ⟨1, 0, 0, 8, false⟩ (vectorAnalyzer .text) db op)
        (Database.start Heap.empty) spilledRestart db ∧
      CorpusStatsExact (vectorAnalyzer .text) db.index ∧ db.index.totalDocs = 1 := by
  have hrun : Reaches (databaseStep ⟨1, 0, 0, 8, false⟩ (vectorAnalyzer .text))
      (fun _ db op => StatsKept ⟨1, 0, 0, 8, false⟩ (vectorAnalyzer .text) db op)
      (Database.start Heap.empty) spilledRestart _ :=
    reaches_of_runChecked (fun _ db op => statsKeptCheck (vectorAnalyzer .text) db op)
      (fun _ _ _ hcheck => statsKept_of_check rfl hcheck) rfl
  exact ⟨_, hrun, corpus_stats_exact hrun, rfl⟩

/-- The same document, not spilled. -/
def unspilledRestart : List (DatabaseOp (TermVector Nat)) :=
  [.build 1 [], .call (.insert 1 ⟨0, 1⟩ ⟨some oneWord, 0⟩), .restart 2]

/-- **A replayed document is not counted**: after the restart the memtable has one
document and `total_docs` is 0. -/
theorem replayed_document_uncounted :
    ¬ ∀ hist db, Reaches (databaseStep ⟨1, 0, 0, 8, false⟩ (vectorAnalyzer .text))
      (fun _ _ _ => True) (Database.start Heap.empty) hist db →
      CorpusStatsExact (vectorAnalyzer .text) db.index := by
  intro hall
  obtain ⟨db, hrun, htotal, hcard⟩ : ∃ db,
      runAll (databaseStep ⟨1, 0, 0, 8, false⟩ (vectorAnalyzer .text))
        (Database.start Heap.empty) unspilledRestart = some db ∧
      sharedTotalDocs db.index = 0 ∧ (corpus db.index).card = 1 := ⟨_, rfl, by decide, by decide⟩
  have hexact := (hall _ db (reaches_of_run hrun)).1
  rw [htotal, hcard] at hexact
  cases hexact

end PgTextsearch.Am
