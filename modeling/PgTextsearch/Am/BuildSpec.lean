import PgTextsearch.Am.Corpus

/-!
# What a build leaves behind (`am/build.c`, `am/build_parallel.c`)

Both builds put the documents they find in the heap into the segments of a new
file and store their number and length sum in the metapage.

## Main results

* `ScanInvariant.processDocument`, `scan_invariant` — the scan of a serial build
  indexes and counts the documents it finds, however often it spills.
* `tpBuild_spec`, `tpBuildParallel_spec` — the two builds.
-/

namespace PgTextsearch.Am

open PgTextsearch.Postgres PgTextsearch.Segment PgTextsearch.State

variable {Value Term : Type} [DecidableEq Term]

/-! ## The serial build -/

omit [DecidableEq Term] in
/-- The documents among the tuples of a scan. -/
def scanDocs (an : Analyzer Value Term) (heap : Heap Value) (scan : List ItemPointer) :
    Finset ItemPointer :=
  (scan.filter fun ctid => (documentAt an heap ctid).isSome).toFinset

omit [DecidableEq Term] in
theorem mem_scanDocs {an : Analyzer Value Term} {heap : Heap Value} {scan : List ItemPointer}
    {ctid : ItemPointer} :
    ctid ∈ scanDocs an heap scan ↔ ctid ∈ scan ∧ (documentAt an heap ctid).isSome := by
  rw [scanDocs, List.mem_toFinset, List.mem_filter]

/-- A memtable with documents has postings and terms. -/
structure Filled (mt : Memtable Term) : Prop where
  postings : mt.totalPostings = 0 → memtableDocs mt = ∅
  terms : mt.stringTable.entries = [] → memtableDocs mt = ∅

omit [DecidableEq Term] in
theorem filled_empty : Filled (Memtable.empty : Memtable Term) :=
  ⟨fun _ => rfl, fun _ => rfl⟩

theorem filled_addDocumentTerms (mt : Memtable Term) (ctid : ItemPointer) {tv : TermVector Term}
    (hterms : tv.entries ≠ []) (tenantId : Nat) :
    Filled (tpAddDocumentTerms mt ctid tv tenantId) := by
  constructor
  · intro hzero
    rw [totalPostings_addDocumentTerms] at hzero
    exact absurd (List.length_eq_zero_iff.1 (by omega)) hterms
  · intro hnil
    exfalso
    obtain ⟨e, he⟩ := List.exists_mem_of_ne_nil _ hterms
    have hposting : (⟨ctid, e.2, tenantId⟩ : MemPosting) ∈
        (tpAddDocumentTerms mt ctid tv tenantId).postings e.1 := by
      rw [postings_addDocumentTerms]
      exact List.mem_append_right _ (mem_documentPostings.2 ⟨e.2, he, rfl⟩)
    have hmem := mem_terms_of_postings_ne_nil (List.ne_nil_of_mem hposting)
    rw [hnil] at hmem
    cases hmem

/-- The invariant of the scan of a serial build: the documents found so far are
indexed and counted. -/
structure ScanInvariant (cfg : Config) (an : Analyzer Value Term) (heap : Heap Value)
    (done : List ItemPointer) (s : IndexState Value Term) : Prop where
  docs : corpus s = scanDocs an heap done
  counted : CountedAs an heap (scanDocs an heap done) s.totalDocs s.totalLen
  cover : TermsCover s.levels
  filled : Filled s.memtable
  pages : ∀ block, (s.docids.indexes cfg.indexOid).pages block = none
  heap : s.heap = heap

omit [DecidableEq Term] in
/-- Nothing is written for an empty dictionary only. -/
theorem stringTable_of_tpWriteSegment_none {mt : Memtable Term}
    (h : tpWriteSegment mt = .ok none) : mt.stringTable.entries = [] := by
  unfold tpWriteSegment at h
  split at h
  · cases h
  split at h
  case isTrue hnil => exact hnil
  case isFalse =>
    obtain ⟨terms, -, h⟩ := bind_eq_ok h
    cases h

/-- What a spill of a serial build does. -/
theorem buildSpill_cases {cfg : Config} {backend : Nat} {b b' : SerialBuild Value Term}
    (h : buildSpill cfg backend b = .ok b') (hcover : TermsCover b.index.levels) :
    (b' = b ∧ b.index.memtable.stringTable.entries = []) ∨
      (b'.index.memtable = Memtable.empty ∧ linkedDocs b'.index.levels = corpus b.index ∧
      TermsCover b'.index.levels ∧ b'.index.totalDocs = b.index.totalDocs ∧
      b'.index.totalLen = b.index.totalLen ∧
      (b'.index.docids.indexes cfg.indexOid).pages =
        (b.index.docids.indexes cfg.indexOid).pages ∧ b'.index.heap = b.index.heap ∧
      b'.index.tenantStatsPages = b.index.tenantStatsPages ∧
      b'.accum = (tpTenantStatsCollect b.index.memtable.tenantStats).foldl addTenantEntry
        b.accum) := by
  obtain ⟨seg, hseg, h⟩ := bind_eq_ok h
  cases seg with
  | none =>
      cases h
      exact Or.inl ⟨rfl, stringTable_of_tpWriteSegment_none hseg⟩
  | some seg =>
      obtain ⟨hdocs, hterms⟩ := docs_of_tpWriteSegment hseg
      have hlevel : 0 < tpMaxLevels := by decide
      have hcompact := linkedDocs_compact cfg.segmentsPerLevel tpMaxLevels 0
        (hcover.linkSegment hlevel hterms)
      rw [linkedDocs_linkSegment _ hlevel, hdocs] at hcompact
      cases h
      right
      simp only [tpWriteTenantStatsPages_totals, tpWriteTenantStatsPages_frame]
      refine ⟨trivial, hcompact.1, hcompact.2, trivial, trivial, ?_, trivial, ?_, trivial⟩
      · simp [tpClearDocidPages]
      · rw [tpWriteTenantStatsPages, if_neg]
        simp [Memtable.empty]

/-- A tuple of the scan is skipped, or added and perhaps spilled. -/
theorem tpProcessDocument_cases {cfg : Config} {an : Analyzer Value Term} {backend : Nat}
    {b b' : SerialBuild Value Term} {ctid : ItemPointer}
    (h : tpProcessDocument cfg an backend b ctid = .ok b') :
    (documentAt an b.index.heap ctid = none ∧ b' = b) ∨
      ∃ tuple tv added, b.index.heap.tuples ctid = some tuple ∧ indexedTerms an tuple = some tv ∧
        added = addDocument b.index backend ctid tv (cfg.tenantIdOf tuple) ∧
        if cfg.memtableSpillThreshold ≠ 0 ∧
            cfg.memtableSpillThreshold ≤ added.memtable.totalPostings then
          buildSpill cfg backend ⟨added, b.accum⟩ = .ok b'
        else b' = ⟨added, b.accum⟩ := by
  unfold tpProcessDocument at h
  cases htuple : b.index.heap.tuples ctid with
  | none =>
      simp only [htuple] at h
      cases h
      exact Or.inl ⟨by rw [documentAt, htuple]; rfl, rfl⟩
  | some tuple =>
      simp only [htuple] at h
      rw [documentAt_eq htuple]
      have hvalid := b.index.heap.valid ctid tuple htuple
      cases hv : tuple.value with
      | none =>
          simp only [hv] at h
          cases h
          exact Or.inl ⟨by rw [indexedTerms, hv], rfl⟩
      | some value =>
          simp only [hv, hvalid] at h
          by_cases hterms : (an.insertTerms value).entries = []
          · rw [if_pos (Or.inl hterms)] at h
            cases h
            exact Or.inl ⟨by simp only [indexedTerms, hv, if_pos hterms], rfl⟩
          · rw [if_neg (by simp [hterms])] at h
            refine Or.inr ⟨tuple, an.insertTerms value, _, rfl,
              by simp only [indexedTerms, hv, if_neg hterms], rfl, ?_⟩
            unfold buildSpillIfNeeded at h
            split at h
            case isTrue hoff =>
              cases h
              rw [if_neg fun hspill => hspill.1 hoff]
            case isFalse hon =>
              split at h
              case isTrue hlt =>
                cases h
                rw [if_neg fun hspill => Nat.not_le_of_lt hlt hspill.2]
              case isFalse hge =>
                rw [if_pos ⟨hon, Nat.not_lt.1 hge⟩]
                exact h

omit [DecidableEq Term] in
theorem scanDocs_append_none {an : Analyzer Value Term} {heap : Heap Value}
    (done : List ItemPointer) {ctid : ItemPointer} (h : documentAt an heap ctid = none) :
    scanDocs an heap (done ++ [ctid]) = scanDocs an heap done := by
  simp [scanDocs, List.filter_append, h]

omit [DecidableEq Term] in
theorem scanDocs_append_some {an : Analyzer Value Term} {heap : Heap Value}
    {done : List ItemPointer} {ctid : ItemPointer} {tv : TermVector Term}
    (h : documentAt an heap ctid = some tv) :
    scanDocs an heap (done ++ [ctid]) = insert ctid (scanDocs an heap done) := by
  ext c
  rw [mem_scanDocs, Finset.mem_insert, mem_scanDocs, List.mem_append, List.mem_singleton]
  constructor
  · rintro ⟨hmem | rfl, hc⟩
    · exact Or.inr ⟨hmem, hc⟩
    · exact Or.inl rfl
  · rintro (rfl | ⟨hmem, hc⟩)
    · exact ⟨Or.inr rfl, by rw [h]; rfl⟩
    · exact ⟨Or.inl hmem, hc⟩

/-- **One tuple** of the scan. -/
theorem ScanInvariant.processDocument {cfg : Config} {an : Analyzer Value Term}
    {heap : Heap Value} {backend : Nat} {done : List ItemPointer} {b b' : SerialBuild Value Term}
    {ctid : ItemPointer} (hinv : ScanInvariant cfg an heap done b.index) (hnew : ctid ∉ done)
    (h : tpProcessDocument cfg an backend b ctid = .ok b') :
    ScanInvariant cfg an heap (done ++ [ctid]) b'.index := by
  have hheap := hinv.heap
  rcases tpProcessDocument_cases h with ⟨hnone, rfl⟩ | ⟨tuple, tv, added, htuple, hterms, rfl, hb⟩
  · have hsame := scanDocs_append_none done (hheap ▸ hnone)
    exact ⟨hinv.docs.trans hsame.symm, hsame ▸ hinv.counted, hinv.cover, hinv.filled, hinv.pages,
      hheap⟩
  · have hdoc : documentAt an heap ctid = some tv := by
      rw [← hheap, documentAt_eq htuple]
      exact hterms
    have hout : ctid ∉ scanDocs an heap done := fun hmem => hnew (mem_scanDocs.1 hmem).1
    have hcounted := hinv.counted.insert hout hdoc
    have hcorpus : corpus (addDocument b.index backend ctid tv (cfg.tenantIdOf tuple)) =
        scanDocs an heap (done ++ [ctid]) := by
      rw [corpus_addDocument, hinv.docs, scanDocs_append_some hdoc]
    rw [← scanDocs_append_some hdoc] at hcounted
    have hfilled := filled_addDocumentTerms b.index.memtable ctid (indexedTerms_ne_nil hterms)
      (cfg.tenantIdOf tuple)
    have hadded : ScanInvariant cfg an heap (done ++ [ctid])
        (addDocument b.index backend ctid tv (cfg.tenantIdOf tuple)) :=
      ⟨hcorpus, hcounted, hinv.cover, hfilled, hinv.pages, hheap⟩
    split at hb
    case isFalse =>
      rw [hb]
      exact hadded
    case isTrue =>
      rcases buildSpill_cases hb hinv.cover with ⟨rfl, -⟩ | ⟨hmt, hdocs, hcover, htd, htl, hpages,
        hh, -, -⟩
      · exact hadded
      · refine ⟨?_, ?_, hcover, ?_, ?_, hh.trans hheap⟩
        · rw [corpus, hmt, hdocs, memtableDocs_empty, Finset.empty_union]
          exact hcorpus
        · rw [htd, htl]
          exact hcounted
        · rw [hmt]
          exact filled_empty
        · intro block
          rw [hpages]
          exact hinv.pages block

/-- **Rule for scans**: what every tuple that is new to the scan keeps holds after it. -/
theorem scan_invariant {cfg : Config} {an : Analyzer Value Term} {backend : Nat}
    {Inv : List ItemPointer → SerialBuild Value Term → Prop}
    (hstep : ∀ done b b' ctid, Inv done b → ctid ∉ done →
      tpProcessDocument cfg an backend b ctid = .ok b' → Inv (done ++ [ctid]) b')
    {scan : List ItemPointer} {b b' : SerialBuild Value Term} (hstart : Inv [] b)
    (hnodup : scan.Nodup) (h : scan.foldlM (tpProcessDocument cfg an backend) b = .ok b') :
    Inv scan b' := by
  have hrest : ∀ (rest done : List ItemPointer) (b : SerialBuild Value Term), Inv done b →
      (done ++ rest).Nodup → rest.foldlM (tpProcessDocument cfg an backend) b = .ok b' →
      Inv (done ++ rest) b' := by
    intro rest
    induction rest with
    | nil =>
        intro done b hinv _ h
        cases h
        rw [List.append_nil]
        exact hinv
    | cons ctid rest ih =>
        intro done b hinv hnodup h
        rw [List.foldlM_cons] at h
        obtain ⟨b₁, hb₁, hrest⟩ := bind_eq_ok h
        have hnew : ctid ∉ done := by
          intro hmem
          exact (List.nodup_append.1 hnodup).2.2 _ hmem _ List.mem_cons_self rfl
        rw [List.append_cons] at hnodup ⊢
        exact ih _ b₁ (hstep done b b₁ ctid hinv hnew hb₁) hnodup hrest
  exact hrest scan [] b hstart hnodup h

/-- A file with the documents of a scan in its segments, counted in the metapage. -/
structure BuiltFile (cfg : Config) (an : Analyzer Value Term) (heap : Heap Value)
    (scan : List ItemPointer) (s : IndexState Value Term) : Prop where
  docs : linkedDocs s.levels = scanDocs an heap scan
  stored : CountedAs an heap (scanDocs an heap scan) s.metaTotalDocs s.metaTotalLen
  cover : TermsCover s.levels
  pages : ∀ block, (s.docids.indexes cfg.indexOid).pages block = none
  heap : s.heap = heap

/-- What the final spill changes: all documents are in segments then. -/
theorem finalSpill_effect {s s' : IndexState Value Term} (hfilled : Filled s.memtable)
    (hcover : TermsCover s.levels) (h : finalSpill s = .ok s') :
    linkedDocs s'.levels = corpus s ∧ TermsCover s'.levels ∧
      s' = { s with levels := s'.levels } := by
  unfold finalSpill at h
  split at h
  case isTrue hzero =>
    cases h
    refine ⟨?_, hcover, rfl⟩
    rw [corpus, hfilled.postings hzero, Finset.empty_union]
  case isFalse =>
    obtain ⟨seg, hseg, h⟩ := bind_eq_ok h
    cases seg with
    | none =>
        cases h
        refine ⟨?_, hcover, rfl⟩
        rw [corpus, hfilled.terms (stringTable_of_tpWriteSegment_none hseg), Finset.empty_union]
    | some seg =>
        cases h
        obtain ⟨hdocs, hterms⟩ := docs_of_tpWriteSegment hseg
        refine ⟨?_, hcover.linkSegment (by decide) hterms, rfl⟩
        rw [linkedDocs_linkSegment _ (by decide), hdocs]
        rfl

omit [DecidableEq Term] in
/-- What the end of the scan writes. -/
theorem tpBuildFinalizeAndUpdateStats_frame (cfg : Config) (s : IndexState Value Term) :
    (tpBuildFinalizeAndUpdateStats cfg s).memtable = s.memtable ∧
      (tpBuildFinalizeAndUpdateStats cfg s).docids = s.docids ∧
      (tpBuildFinalizeAndUpdateStats cfg s).levels = s.levels ∧
      (tpBuildFinalizeAndUpdateStats cfg s).heap = s.heap ∧
      (tpBuildFinalizeAndUpdateStats cfg s).totalDocs = s.totalDocs ∧
      (tpBuildFinalizeAndUpdateStats cfg s).totalLen = s.totalLen ∧
      (tpBuildFinalizeAndUpdateStats cfg s).metaTotalDocs = s.totalDocs ∧
      (tpBuildFinalizeAndUpdateStats cfg s).metaTotalLen = s.totalLen := by
  simp [tpBuildFinalizeAndUpdateStats, tpWriteTenantStatsPages_frame,
    tpWriteTenantStatsPages_totals]

omit [DecidableEq Term] in
/-- The scan starts with an empty file. -/
theorem scanInvariant_start (cfg : Config) (an : Analyzer Value Term) (backend : Nat)
    (s : IndexState Value Term) : ScanInvariant cfg an s.heap []
      (tpCreateBuildIndexState backend (newIndexFile cfg backend s)).index := by
  refine ⟨?_, CountedAs.empty an s.heap, ?_, filled_empty, ?_, rfl⟩
  · simp [corpus, tpCreateBuildIndexState, newIndexFile, scanDocs]
  · intro seg hseg
    simp [tpCreateBuildIndexState, newIndexFile, linkedSegments] at hseg
  · intro block
    simp [tpCreateBuildIndexState, newIndexFile]

/-- **The serial build** puts the documents of the scan into segments and counts
them. -/
theorem tpBuild_spec {cfg : Config} {an : Analyzer Value Term} {backend : Nat}
    {scan : List ItemPointer} {s s' : IndexState Value Term} (hnodup : scan.Nodup)
    (h : tpBuild cfg an backend scan s = .ok s') :
    BuiltFile cfg an s.heap scan s' ∧ memtableDocs s'.memtable = ∅ ∧
      CountedAs an s.heap (scanDocs an s.heap scan) s'.totalDocs s'.totalLen := by
  obtain ⟨b, hscan, h⟩ := bind_eq_ok h
  obtain ⟨spilled, hfinal, h⟩ := bind_eq_ok h
  cases h
  have hinv := scan_invariant
    (fun _ _ _ _ (hinv : ScanInvariant cfg an s.heap _ _) => hinv.processDocument)
    (scanInvariant_start cfg an backend s) hnodup hscan
  obtain ⟨hmt, hdocids, hlevels, hheap, htd, htl, hmd, hml⟩ :=
    tpBuildFinalizeAndUpdateStats_frame cfg b.index
  obtain ⟨hdocs, hcover, hframe⟩ := finalSpill_effect (hmt ▸ hinv.filled) (hlevels ▸ hinv.cover)
    hfinal
  have hcorpus : corpus (tpBuildFinalizeAndUpdateStats cfg b.index) = corpus b.index := by
    rw [corpus, hmt, hlevels]
    rfl
  rw [hcorpus, hinv.docs] at hdocs
  rw [hframe]
  refine ⟨⟨hdocs, ?_, hcover, ?_, hheap.trans hinv.heap⟩, rfl, ?_⟩
  · show CountedAs an s.heap _ (tpBuildFinalizeAndUpdateStats cfg b.index).metaTotalDocs
      (tpBuildFinalizeAndUpdateStats cfg b.index).metaTotalLen
    rw [hmd, hml]
    exact hinv.counted
  · intro block
    show ((tpBuildFinalizeAndUpdateStats cfg b.index).docids.indexes cfg.indexOid).pages block =
      none
    rw [hdocids]
    exact hinv.pages block
  · show CountedAs an s.heap _ (tpBuildFinalizeAndUpdateStats cfg b.index).totalDocs
      (tpBuildFinalizeAndUpdateStats cfg b.index).totalLen
    rw [htd, htl]
    exact hinv.counted

/-! ## The parallel build -/

omit [DecidableEq Term] in
/-- A document of a worker is the document at its CTID. -/
theorem documentAt_of_mem_scannedDocuments {cfg : Config} {an : Analyzer Value Term}
    {heap : Heap Value} {tuples : List ScannedTuple} {d : WorkerDoc Term}
    (h : d ∈ scannedDocuments cfg an heap tuples) :
    d.ctid ∈ tuples.map ScannedTuple.ctid ∧ documentAt an heap d.ctid = some d.terms := by
  obtain ⟨t, ht, hd⟩ := List.mem_filterMap.1 h
  obtain ⟨tuple, htuple, hd⟩ := Option.bind_eq_some_iff.1 hd
  unfold workerDocument at hd
  cases hv : tuple.value with
  | none => simp [hv] at hd
  | some value =>
      simp only [hv] at hd
      split at hd
      case isFalse => cases hd
      case isTrue =>
        split at hd
        case isTrue => cases hd
        case isFalse hterms =>
          cases hd
          refine ⟨List.mem_map.2 ⟨t, ht, rfl⟩, ?_⟩
          rw [documentAt_eq htuple]
          simp only [indexedTerms, hv, if_neg hterms]

omit [DecidableEq Term] in
/-- A worker finds the documents among the tuples it scans. -/
theorem mem_scannedDocuments_ctid {cfg : Config} {an : Analyzer Value Term} {heap : Heap Value}
    {tuples : List ScannedTuple} {ctid : ItemPointer} :
    ctid ∈ (scannedDocuments cfg an heap tuples).map WorkerDoc.ctid ↔
      ctid ∈ tuples.map ScannedTuple.ctid ∧ (documentAt an heap ctid).isSome := by
  constructor
  · intro h
    obtain ⟨d, hd, rfl⟩ := List.mem_map.1 h
    obtain ⟨hmem, hdoc⟩ := documentAt_of_mem_scannedDocuments hd
    exact ⟨hmem, by rw [hdoc]; rfl⟩
  · rintro ⟨hmem, hdoc⟩
    obtain ⟨t, ht, rfl⟩ := List.mem_map.1 hmem
    obtain ⟨tv, htv⟩ := Option.isSome_iff_exists.1 hdoc
    obtain ⟨tuple, htuple, hterms⟩ := Option.bind_eq_some_iff.1 htv
    have hvalid := heap.valid t.ctid tuple htuple
    unfold indexedTerms at hterms
    cases hv : tuple.value with
    | none => simp [hv] at hterms
    | some value =>
        by_cases hne : (an.insertTerms value).entries = []
        · simp [hv, hne] at hterms
        · have hd : workerDocument cfg an t.ctid tuple t.lengthTenantId = some
              ⟨t.ctid, an.insertTerms value, cfg.tenantIdOf tuple, t.lengthTenantId, hne⟩ := by
            simp only [workerDocument, hv, hvalid, if_true, dif_neg hne]
          have hscanned : scannedDocument cfg an heap t = some
              ⟨t.ctid, an.insertTerms value, cfg.tenantIdOf tuple, t.lengthTenantId, hne⟩ := by
            rw [scannedDocument, htuple]
            exact hd
          exact List.mem_map.2 ⟨_, List.mem_filterMap.2 ⟨t, ht, hscanned⟩, rfl⟩

omit [DecidableEq Term] in
/-- The documents come in the order of the tuples. -/
theorem scannedDocuments_sublist (cfg : Config) (an : Analyzer Value Term) (heap : Heap Value)
    (tuples : List ScannedTuple) :
    ((scannedDocuments cfg an heap tuples).map WorkerDoc.ctid).Sublist
      (tuples.map ScannedTuple.ctid) := by
  induction tuples with
  | nil => exact List.Sublist.refl _
  | cons t rest ih =>
      cases hd : scannedDocument cfg an heap t with
      | none =>
          rw [scannedDocuments, List.filterMap_cons_none hd]
          exact ih.cons _
      | some d =>
          have hctid : d.ctid = t.ctid := by
            have hmem : d ∈ scannedDocuments cfg an heap [t] :=
              List.mem_filterMap.2 ⟨t, List.mem_singleton_self t, hd⟩
            simpa using (documentAt_of_mem_scannedDocuments hmem).1
          rw [scannedDocuments, List.filterMap_cons_some hd, List.map_cons, List.map_cons, hctid]
          exact ih.cons_cons _

/-- A filled buffer holds its documents. -/
theorem holds_filledBuffer {docs : List (WorkerDoc Term)}
    (hnodup : (docs.map WorkerDoc.ctid).Nodup) : Holds (filledBuffer docs) docs := by
  induction docs using List.reverseRecOn with
  | nil => exact holds_init
  | append_singleton docs d ih =>
      rw [List.map_append, List.nodup_append] at hnodup
      have hnew : d.ctid ∉ docs.map WorkerDoc.ctid := fun hmem =>
        hnodup.2.2 _ hmem _ (List.mem_singleton_self _) rfl
      rw [filledBuffer, List.foldl_append]
      exact (ih hnodup.1).putDocument hnew

omit [DecidableEq Term] in
/-- Counting a list of distinct documents. -/
theorem countedAs_workerDocs {an : Analyzer Value Term} {heap : Heap Value}
    {docs : List (WorkerDoc Term)} (hnodup : (docs.map WorkerDoc.ctid).Nodup)
    (hdocs : ∀ d ∈ docs, documentAt an heap d.ctid = some d.terms) :
    CountedAs an heap (docs.map WorkerDoc.ctid).toFinset docs.length
      (docs.map fun d => d.terms.docLength).sum := by
  induction docs with
  | nil => exact CountedAs.empty an heap
  | cons d rest ih =>
      obtain ⟨hnot, hrest⟩ := List.nodup_cons.1 hnodup
      have hcounted := (ih hrest fun e he => hdocs e (List.mem_cons_of_mem _ he)).insert
        (by rwa [List.mem_toFinset]) (hdocs d List.mem_cons_self)
      rw [List.map_cons, List.toFinset_cons, List.length_cons, List.map_cons, List.sum_cons,
        Nat.add_comm d.terms.docLength]
      exact hcounted

/-- A segment with the documents has terms if there are any. -/
theorem SegHolds.cover {seg : SegmentContents Term} {docs : List (WorkerDoc Term)}
    (h : SegHolds seg docs) (hterms : seg.terms = []) : seg.docs = [] := by
  cases docs with
  | nil => exact List.perm_nil.1 h.rows
  | cons d rest =>
      obtain ⟨term, hne⟩ := d.exists_postings_ne_nil
      have hnil : seg.postings term = [] := by
        rw [SegmentContents.postings, hterms]
        rfl
      rw [h.postings, List.flatMap_cons] at hnil
      have hseg := (List.append_eq_nil_iff.1 hnil).1
      exact absurd (List.map_eq_nil_iff.1 hseg) hne

omit [DecidableEq Term] in
/-- The document with the tenant that is read for it. -/
def WorkerDoc.asRead (cfg : Config) (doc : WorkerDoc Term) : WorkerDoc Term :=
  { doc with lengthTenantId := if cfg.hasTenantColumn then doc.lengthTenantId else 0 }

theorem SegHolds.asRead {cfg : Config} {seg : SegmentContents Term} {docs : List (WorkerDoc Term)}
    (h : SegHolds seg docs) :
    SegHolds (tenantsAsRead cfg seg) (docs.map (WorkerDoc.asRead cfg)) where
  rows := by
    have hrows := h.rows.map fun d : SegDoc =>
      ({ d with tenantId := if cfg.hasTenantColumn then d.tenantId else 0 } : SegDoc)
    rw [List.map_map] at hrows
    rw [List.map_map]
    exact hrows
  postings := by
    intro term
    show seg.postings term = _
    rw [h.postings, List.flatMap_map]
    rfl

/-- What a merge of the leader amounts to. -/
structure Merged (cfg : Config) (docs : List (WorkerDoc Term)) (r : MergedBatch Term) : Prop where
  none : r.segment = none → docs = []
  holds : ∀ seg, r.segment = some seg → SegHolds seg (docs.map (WorkerDoc.asRead cfg))
  totalDocs : r.totalDocs = docs.length
  totalLen : r.totalLen = (docs.map fun d => d.terms.docLength).sum

theorem Merged.mem {cfg : Config} {docs : List (WorkerDoc Term)} {r : MergedBatch Term}
    (h : Merged cfg docs r) (ctid : ItemPointer) :
    ctid ∈ docs.map WorkerDoc.ctid ↔ ∃ seg, r.segment = some seg ∧ ctid ∈ segmentDocs seg := by
  cases hseg : r.segment with
  | none => simp [h.none hseg]
  | some seg =>
      have hrows := (h.holds seg hseg).rows
      simp only [Option.some.injEq, exists_eq_left', mem_segmentDocs]
      rw [List.mem_map]
      constructor
      · rintro ⟨d, hd, rfl⟩
        refine ⟨(d.asRead cfg).segDoc, hrows.symm.subset ?_, rfl⟩
        exact List.mem_map_of_mem (List.mem_map_of_mem hd)
      · rintro ⟨row, hrow, rfl⟩
        obtain ⟨d, hd, rfl⟩ := List.mem_map.1 (hrows.subset hrow)
        obtain ⟨d', hd', rfl⟩ := List.mem_map.1 hd
        exact ⟨d', hd', rfl⟩

theorem forall₂_filledBuffer {buffers : List (List (WorkerDoc Term))}
    (hnodup : (buffers.flatten.map WorkerDoc.ctid).Nodup) :
    List.Forall₂ Holds (buffers.map filledBuffer) buffers := by
  induction buffers with
  | nil => exact List.Forall₂.nil
  | cons docs rest ih =>
      rw [List.flatten_cons, List.map_append] at hnodup
      have hparts := List.nodup_append.1 hnodup
      exact List.Forall₂.cons (holds_filledBuffer hparts.1) (ih hparts.2.1)

theorem mergeBatch_spec {cfg : Config} {buffers : List (List (WorkerDoc Term))}
    (hnodup : (buffers.flatten.map WorkerDoc.ctid).Nodup) {r : MergedBatch Term}
    (h : mergeBatch cfg (buffers.map filledBuffer) = .ok r) : Merged cfg buffers.flatten r := by
  have hold := forall₂_filledBuffer hnodup
  have hcounts : ((buffers.map filledBuffer).map WorkerBuffer.numDocs).sum =
        buffers.flatten.length ∧
      ((buffers.map filledBuffer).map WorkerBuffer.totalLen).sum =
        (buffers.flatten.map fun d => d.terms.docLength).sum := by
    clear h hnodup
    generalize buffers.map filledBuffer = bs at hold
    induction hold with
    | nil => exact ⟨rfl, rfl⟩
    | cons hb _ ih =>
        simp [ih.1, ih.2, hb.numDocs, hb.totalLen]
  obtain ⟨segment, hsegment, h⟩ := bind_eq_ok h
  cases h
  obtain ⟨hnone, hsome⟩ := tpMergeWorkerBuffersToSegment_spec hold hnodup hsegment
  cases segment with
  | none =>
      rw [hnone rfl]
      exact ⟨fun _ => rfl, fun _ hseg => (nomatch hseg), rfl, rfl⟩
  | some seg =>
      refine ⟨fun hnone => (nomatch hnone), ?_, hcounts.1, hcounts.2⟩
      rintro seg' ⟨⟩
      exact (hsome seg rfl).asRead

omit [DecidableEq Term] in
/-- The documents of a batch. -/
def batchDocs (cfg : Config) (an : Analyzer Value Term) (heap : Heap Value)
    (batch : List (List ScannedTuple)) : List (WorkerDoc Term) :=
  (batch.map (scannedDocuments cfg an heap)).flatten

omit [DecidableEq Term] in
theorem batchDocs_eq (cfg : Config) (an : Analyzer Value Term) (heap : Heap Value)
    (batch : List (List ScannedTuple)) :
    batchDocs cfg an heap batch = scannedDocuments cfg an heap batch.flatten := by
  rw [batchDocs, scannedDocuments, List.filterMap_flatten]
  rfl

omit [DecidableEq Term] in
theorem flatten_batchDocs (cfg : Config) (an : Analyzer Value Term) (heap : Heap Value)
    (batches : List (List (List ScannedTuple))) :
    (batches.map (batchDocs cfg an heap)).flatten =
      scannedDocuments cfg an heap batches.flatten.flatten := by
  induction batches with
  | nil => rfl
  | cons batch rest ih =>
      rw [List.map_cons, List.flatten_cons, ih, batchDocs_eq, List.flatten_cons,
        List.flatten_append]
      exact (List.filterMap_append ..).symm

/-- The merges of a build, one for each batch. -/
theorem forall₂_merged {cfg : Config} {an : Analyzer Value Term} {heap : Heap Value}
    {batches : List (List (List ScannedTuple))} {merged : List (MergedBatch Term)}
    (hnodup : ((batches.map (batchDocs cfg an heap)).flatten.map WorkerDoc.ctid).Nodup)
    (h : (batches.map fun batch =>
      batch.map fun tuples => filledBuffer (scannedDocuments cfg an heap tuples)).mapM
        (mergeBatch cfg) = .ok merged) :
    List.Forall₂ (Merged cfg) (batches.map (batchDocs cfg an heap)) merged := by
  have hmerged := forall₂_of_mapM_ok h
  clear h
  induction batches generalizing merged with
  | nil =>
      cases hmerged
      exact List.Forall₂.nil
  | cons batch rest ih =>
      cases hmerged with
      | cons hbatch hrest =>
          rw [List.map_cons, List.flatten_cons, List.map_append] at hnodup
          have hparts := List.nodup_append.1 hnodup
          refine List.Forall₂.cons (mergeBatch_spec hparts.1 ?_) (ih hparts.2.1 hrest)
          rw [List.map_map]
          exact hbatch

/-- The statistics and documents of the merges together. -/
theorem merged_totals {cfg : Config} {docs : List (List (WorkerDoc Term))}
    {merged : List (MergedBatch Term)} (h : List.Forall₂ (Merged cfg) docs merged) :
    (merged.map MergedBatch.totalDocs).sum = docs.flatten.length ∧
      (merged.map MergedBatch.totalLen).sum =
        (docs.flatten.map fun d => d.terms.docLength).sum ∧
      (∀ ctid, (∃ seg ∈ merged.filterMap MergedBatch.segment, ctid ∈ segmentDocs seg) ↔
        ctid ∈ docs.flatten.map WorkerDoc.ctid) ∧
      ∀ seg ∈ merged.filterMap MergedBatch.segment, seg.terms = [] → seg.docs = [] := by
  induction h with
  | nil => exact ⟨rfl, rfl, by simp, by simp⟩
  | @cons batch r rest merged hr _ ih =>
      obtain ⟨hdocs, hlen, hmem, hcover⟩ := ih
      refine ⟨?_, ?_, ?_, ?_⟩
      · simp [hdocs, hr.totalDocs]
      · simp [hlen, hr.totalLen]
      · intro ctid
        rw [List.flatten_cons, List.map_append, List.mem_append, hr.mem, ← hmem]
        simp only [List.mem_filterMap, List.mem_cons]
        constructor
        · rintro ⟨seg, ⟨r', rfl | hr', hseg⟩, hc⟩
          · exact Or.inl ⟨seg, hseg, hc⟩
          · exact Or.inr ⟨seg, ⟨r', hr', hseg⟩, hc⟩
        · rintro (⟨seg, hseg, hc⟩ | ⟨seg, ⟨r', hr', hseg⟩, hc⟩)
          · exact ⟨seg, ⟨r, Or.inl rfl, hseg⟩, hc⟩
          · exact ⟨seg, ⟨r', Or.inr hr', hseg⟩, hc⟩
      · intro seg hseg
        obtain ⟨r', hr', heq⟩ := List.mem_filterMap.1 hseg
        rcases List.mem_cons.1 hr' with rfl | hr'
        · exact (hr.holds seg heq).cover
        · exact hcover seg (List.mem_filterMap.2 ⟨r', hr', heq⟩)

omit [DecidableEq Term] in
theorem mem_linkedSegments_single {segs : List (SegmentContents Term)}
    {seg : SegmentContents Term} :
    seg ∈ linkedSegments (Function.update (fun _ => []) 0 segs : Levels Term) ↔ seg ∈ segs := by
  rw [mem_linkedSegments]
  constructor
  · rintro ⟨level, -, hmem⟩
    by_cases hl : level = 0
    · rw [hl, Function.update_self] at hmem
      exact hmem
    · rw [Function.update_of_ne hl] at hmem
      cases hmem
  · intro hmem
    exact ⟨0, by decide, by rwa [Function.update_self]⟩

omit [DecidableEq Term] in
/-- Writing the accumulated tenant statistics changes nothing else. -/
theorem writeAccumulatedStats_frame (cfg : Config) (entries : List (Nat × TenantStatsEntry))
    (s : IndexState Value Term) :
    (writeAccumulatedStats cfg entries s).memtable = s.memtable ∧
      (writeAccumulatedStats cfg entries s).totalDocs = s.totalDocs ∧
      (writeAccumulatedStats cfg entries s).totalLen = s.totalLen ∧
      (writeAccumulatedStats cfg entries s).metaTotalDocs = s.metaTotalDocs ∧
      (writeAccumulatedStats cfg entries s).metaTotalLen = s.metaTotalLen ∧
      (writeAccumulatedStats cfg entries s).levels = s.levels ∧
      (writeAccumulatedStats cfg entries s).docids = s.docids ∧
      (writeAccumulatedStats cfg entries s).heap = s.heap := by
  simp only [writeAccumulatedStats]
  split <;> exact ⟨rfl, rfl, rfl, rfl, rfl, rfl, rfl, rfl⟩

/-- **The parallel build** puts the documents of the batches into segments and
counts them in the metapage; shared memory stays as it is. -/
theorem tpBuildParallel_spec {cfg : Config} {an : Analyzer Value Term} {backend : Nat}
    {batches : List (List (List ScannedTuple))} {s s' : IndexState Value Term}
    (hnodup : (batches.flatten.flatten.map ScannedTuple.ctid).Nodup)
    (h : tpBuildParallel cfg an backend batches s = .ok s') :
    BuiltFile cfg an s.heap (batches.flatten.flatten.map ScannedTuple.ctid) s' ∧
      s'.memtable = s.memtable ∧ s'.totalDocs = s.totalDocs ∧ s'.totalLen = s.totalLen := by
  obtain ⟨merged, hmerged, h⟩ := bind_eq_ok h
  have hall := flatten_batchDocs cfg an s.heap batches
  have hdistinct : ((batches.map (batchDocs cfg an s.heap)).flatten.map WorkerDoc.ctid).Nodup := by
    rw [hall]
    exact (scannedDocuments_sublist cfg an s.heap _).nodup hnodup
  obtain ⟨hdocs, hlen, hmem, hcover⟩ := merged_totals (forall₂_merged hdistinct hmerged)
  have hscan : ((batches.map (batchDocs cfg an s.heap)).flatten.map WorkerDoc.ctid).toFinset =
      scanDocs an s.heap (batches.flatten.flatten.map ScannedTuple.ctid) := by
    ext c
    rw [List.mem_toFinset, hall, mem_scannedDocuments_ctid, mem_scanDocs]
  have hcounted : CountedAs an s.heap _ _ _ := countedAs_workerDocs hdistinct (by
    intro d hd
    rw [hall] at hd
    exact (documentAt_of_mem_scannedDocuments hd).2)
  rw [hscan, ← hdocs, ← hlen] at hcounted
  have hlinked : TermsCover (Function.update (fun _ => []) 0
      (merged.filterMap MergedBatch.segment) : Levels Term) := fun seg hseg =>
    hcover seg (mem_linkedSegments_single.1 hseg)
  have hcompact := linkedDocs_compact cfg.segmentsPerLevel tpMaxLevels 0 hlinked
  have hlevels : linkedDocs (Function.update (fun _ => []) 0
      (merged.filterMap MergedBatch.segment) : Levels Term) =
      scanDocs an s.heap (batches.flatten.flatten.map ScannedTuple.ctid) := by
    rw [← hscan]
    ext c
    rw [mem_linkedDocs, List.mem_toFinset, ← hmem]
    simp only [mem_linkedSegments_single]
  rw [hlevels] at hcompact
  cases h
  simp only [writeAccumulatedStats_frame]
  refine ⟨⟨?_, ?_, ?_, ?_, ?_⟩, rfl, rfl, rfl⟩ <;>
    simp only [writeAccumulatedStats_frame]
  · exact hcompact.1
  · exact hcounted
  · exact hcompact.2
  · simp [newIndexFile]
  · rfl

end PgTextsearch.Am
