import PgTextsearch.Am.TenantTables

/-!
# Serial and parallel builds (`am/build.c`, `am/build_parallel.c`)

Both builds turn the tuples of the heap into segments.  The index relation has a row
for every posting of the linked segments, with the tenant the document map of the
segment gives the document.  Terms, frequencies and fieldnorms come out alike; the
tenants need not, since the workers never write the tenant field of a document length
entry, which the document map takes them from.

## Main results

* `LevelsHold.linkSegment`, `LevelsHold.compact` — which documents the segments hold,
  over writes and merges.
* `tpBuild_holds`, `tpBuildParallel_holds` — the documents each build puts into segments.
* `builds_equivalent` — the relations are equal exactly when the index has no tenant
  column or the unwritten fields happen to hold the tenants.
* `parallel_build_loses_tenant` — a tuple for which they are not.
-/

namespace PgTextsearch.Am

open PgTextsearch.Postgres PgTextsearch.Segment PgTextsearch.State

variable {Value Term : Type} [DecidableEq Term]

/-! ## The index relation -/

/-- A row of the index relation. -/
structure IndexRow (Term : Type) where
  term : Term
  ctid : ItemPointer
  frequency : Nat
  fieldnorm : Fin 256
  tenantId : Nat

/-- The row is in a linked segment: a posting, and the tenant of its document. -/
def LinkedRow (levels : Levels Term) (row : IndexRow Term) : Prop :=
  ∃ seg ∈ linkedSegments levels,
    ⟨row.ctid, row.frequency, row.fieldnorm⟩ ∈ seg.postings row.term ∧
      ∃ d ∈ seg.docs, d.ctid = row.ctid ∧ d.tenantId = row.tenantId

/-- The document map has a row for every posting. -/
def PostingsCovered (levels : Levels Term) : Prop :=
  ∀ seg ∈ linkedSegments levels, ∀ term, ∀ q ∈ seg.postings term, ∃ d ∈ seg.docs, d.ctid = q.ctid

/-- The linked segments hold the documents and nothing else. -/
structure LevelsHold (levels : Levels Term) (docs : List (WorkerDoc Term)) : Prop where
  postings : ∀ term q, LinkedPosting levels term q ↔ ∃ d ∈ docs, q ∈ d.segPostings term
  rows : ∀ seg ∈ linkedSegments levels, ∀ row ∈ seg.docs, ∃ d ∈ docs, row = d.segDoc
  covered : PostingsCovered levels

theorem levelsHold_empty : LevelsHold (fun _ => [] : Levels Term) [] where
  postings := by simp [LinkedPosting, linkedSegments]
  rows := by simp [linkedSegments]
  covered := by simp [PostingsCovered, linkedSegments]

theorem LevelsHold.congr {levels : Levels Term} {docs docs' : List (WorkerDoc Term)}
    (h : LevelsHold levels docs) (hdocs : ∀ d, d ∈ docs ↔ d ∈ docs') : LevelsHold levels docs' where
  postings := by
    intro term q
    rw [h.postings]
    simp only [hdocs]
  rows := by
    intro seg hseg row hrow
    obtain ⟨d, hd, heq⟩ := h.rows seg hseg row hrow
    exact ⟨d, (hdocs d).1 hd, heq⟩
  covered := h.covered

/-- **The relation** of segments that hold documents with distinct CTIDs. -/
theorem LevelsHold.linkedRow {levels : Levels Term} {docs : List (WorkerDoc Term)}
    (h : LevelsHold levels docs) (hnodup : (docs.map WorkerDoc.ctid).Nodup) (row : IndexRow Term) :
    LinkedRow levels row ↔ ∃ d ∈ docs,
      ⟨row.ctid, row.frequency, row.fieldnorm⟩ ∈ d.segPostings row.term ∧
        row.tenantId = d.lengthTenantId := by
  constructor
  · rintro ⟨seg, hseg, hq, d, hd, hctid, htenant⟩
    obtain ⟨doc, hdoc, hposting⟩ := (h.postings row.term _).1 ⟨seg, hseg, hq⟩
    obtain ⟨doc', hdoc', rfl⟩ := h.rows seg hseg d hd
    have hsame : doc' = doc := by
      apply List.inj_on_of_nodup_map hnodup hdoc' hdoc
      exact hctid.trans (ctid_of_mem_segPostings hposting)
    exact ⟨doc, hdoc, hposting, hsame ▸ htenant.symm⟩
  · rintro ⟨doc, hdoc, hposting, htenant⟩
    obtain ⟨seg, hseg, hq⟩ := (h.postings row.term _).2 ⟨doc, hdoc, hposting⟩
    obtain ⟨d, hd, hctid⟩ := h.covered seg hseg row.term _ hq
    obtain ⟨doc', hdoc', rfl⟩ := h.rows seg hseg d hd
    have hsame : doc' = doc := by
      apply List.inj_on_of_nodup_map hnodup hdoc' hdoc
      exact hctid.trans (ctid_of_mem_segPostings hposting)
    exact ⟨seg, hseg, hq, doc'.segDoc, hd, hctid, hsame ▸ htenant.symm⟩

/-! ## Writes and merges -/

/-- **Linking** a segment adds its documents. -/
theorem LevelsHold.linkSegment {levels : Levels Term} {docs docs' : List (WorkerDoc Term)}
    (h : LevelsHold levels docs) {seg : SegmentContents Term} (hseg : SegHolds seg docs') :
    LevelsHold (linkSegment levels 0 seg) (docs ++ docs') := by
  have hzero : 0 < tpMaxLevels := by decide
  constructor
  · intro term q
    have hpart : q ∈ seg.postings term ↔ ∃ d ∈ docs', q ∈ d.segPostings term := by
      rw [hseg.postings, List.mem_flatMap]
    have hold := h.postings term q
    constructor
    · rintro ⟨seg', hseg', hq⟩
      rcases (mem_linkSegment hzero).1 hseg' with rfl | hin
      · obtain ⟨d, hd, hqd⟩ := hpart.1 hq
        exact ⟨d, List.mem_append_right _ hd, hqd⟩
      · obtain ⟨d, hd, hqd⟩ := hold.1 ⟨seg', hin, hq⟩
        exact ⟨d, List.mem_append_left _ hd, hqd⟩
    · rintro ⟨d, hd, hqd⟩
      rcases List.mem_append.1 hd with hd | hd
      · obtain ⟨seg', hin, hq⟩ := hold.2 ⟨d, hd, hqd⟩
        exact ⟨seg', (mem_linkSegment hzero).2 (Or.inr hin), hq⟩
      · exact ⟨seg, (mem_linkSegment hzero).2 (Or.inl rfl), hpart.2 ⟨d, hd, hqd⟩⟩
  · intro seg' hseg' row hrow
    rcases (mem_linkSegment hzero).1 hseg' with rfl | hin
    · obtain ⟨d, hd, heq⟩ := List.mem_map.1 (hseg.rows.subset hrow)
      exact ⟨d, List.mem_append_right _ hd, heq.symm⟩
    · obtain ⟨d, hd, heq⟩ := h.rows seg' hin row hrow
      exact ⟨d, List.mem_append_left _ hd, heq⟩
  · intro seg' hseg' term q hq
    rcases (mem_linkSegment hzero).1 hseg' with rfl | hin
    · rw [hseg.postings, List.mem_flatMap] at hq
      obtain ⟨d, hd, hqd⟩ := hq
      exact ⟨d.segDoc, hseg.rows.symm.subset (List.mem_map_of_mem hd),
        (ctid_of_mem_segPostings hqd).symm⟩
    · exact h.covered seg' hin term q hq

/-- A merge has a document row for every posting, if its sources have. -/
theorem covered_mergeSegments {chain : List (SegmentContents Term)} {merged : SegmentContents Term}
    (hm : mergeSegments chain = some merged)
    (h : ∀ seg ∈ chain, ∀ term, ∀ q ∈ seg.postings term, ∃ d ∈ seg.docs, d.ctid = q.ctid)
    (term : Term) (q : SegPosting) (hq : q ∈ merged.postings term) :
    ∃ d ∈ merged.docs, d.ctid = q.ctid := by
  obtain ⟨seg, hseg, hqs⟩ := (mem_postings_mergeSegments hm).1 hq
  obtain ⟨d, hd, hctid⟩ := h seg hseg term q hqs
  have hterms : seg.terms ≠ [] := by
    intro hnil
    simp [SegmentContents.postings, hnil] at hqs
  simp only [mergeSegments] at hm
  split at hm
  · cases hm
  cases hm
  have hsource : seg ∈ chain.filter fun seg => !seg.terms.isEmpty :=
    List.mem_filter.2 ⟨hseg, by simpa using hterms⟩
  obtain ⟨d', hd', heq⟩ := exists_mem_mergedDocs hsource hd
  exact ⟨d', hd', heq.trans hctid⟩

theorem covered_compact (segmentsPerLevel fuel : Nat) {levels : Levels Term} (level : Nat)
    (h : PostingsCovered levels) :
    PostingsCovered (tpMaybeCompactLevel segmentsPerLevel fuel levels level) := by
  induction fuel generalizing levels level with
  | zero => exact h
  | succ fuel ih =>
      unfold tpMaybeCompactLevel
      split
      · exact h
      split
      · exact h
      cases hm : mergeSegments (levels level) with
      | none => exact h
      | some merged =>
          have hlevel : level < tpMaxLevels - 1 := by omega
          refine ih (level + 1) ?_
          intro seg hseg
          rcases (mem_linkMerged hlevel).1 hseg with rfl | ⟨l, hl, -, hin⟩
          · exact covered_mergeSegments hm fun src hsrc =>
              h src (mem_linkedSegments.2 ⟨level, by omega, hsrc⟩)
          · exact h seg (mem_linkedSegments.2 ⟨l, hl, hin⟩)

/-- **Compaction** keeps the documents of the segments. -/
theorem LevelsHold.compact {levels : Levels Term} {docs : List (WorkerDoc Term)}
    (h : LevelsHold levels docs) (segmentsPerLevel fuel level : Nat) :
    LevelsHold (tpMaybeCompactLevel segmentsPerLevel fuel levels level) docs where
  postings := by
    intro term q
    rw [linkedPosting_compact]
    exact h.postings term q
  rows := by
    intro seg hseg row hrow
    obtain ⟨seg', hseg', hrow'⟩ := mem_docs_compact hseg hrow
    exact h.rows seg' hseg' row hrow'
  covered := covered_compact segmentsPerLevel fuel level h.covered

/-- The posting of the written segment. -/
def writtenPosting (mt : Memtable Term) (p : MemPosting) : SegPosting :=
  ⟨p.ctid, p.frequency % 2 ^ 16,
    encodeFieldnorm (((mt.docLengths.lookup p.ctid).map DocLengthEntry.docLength).getD 0)⟩

theorem writtenPosting_eq {mt : Memtable Term} {docs : List (WorkerDoc Term)}
    (h : TablesHold mt docs) {doc : WorkerDoc Term} (hdoc : doc ∈ docs) {term : Term}
    {p : MemPosting} (hp : p ∈ doc.postings term) :
    writtenPosting mt p = ⟨p.ctid, p.frequency % 2 ^ 16, encodeFieldnorm doc.terms.docLength⟩ := by
  have hctid : p.ctid = doc.ctid := by
    obtain ⟨f, -, rfl⟩ := mem_documentPostings.1 hp
    rfl
  obtain ⟨e, he, hrow⟩ := List.mem_map.1 (h.lengths.symm.subset (List.mem_map.2 ⟨doc, hdoc, rfl⟩))
  have hkey : e.1 = doc.ctid := congrArg Prod.fst hrow
  have hlookup : mt.docLengths.lookup p.ctid = some e.2 := by
    rw [hctid, ← hkey]
    exact AList.mem_lookup_iff.2 he
  have hlen : e.2.docLength = doc.terms.docLength := congrArg (fun r => r.2.1) hrow
  rw [writtenPosting, hlookup, ← hlen]
  rfl

/-- **The written segment** holds the documents of the memtable. -/
theorem segHolds_of_write {mt : Memtable Term} {docs : List (WorkerDoc Term)}
    (h : TablesHold mt docs) {seg : SegmentContents Term}
    (hseg : tpWriteSegment mt = .ok (some seg)) : SegHolds seg docs := by
  obtain ⟨hpostings, hdocs⟩ := tpWriteSegment_spec hseg
  constructor
  · have hrows := h.lengths.map fun r : ItemPointer × Nat × Nat =>
      (⟨r.1, encodeFieldnorm r.2.1, r.2.2⟩ : SegDoc)
    rw [List.map_map, List.map_map] at hrows
    rw [hdocs]
    exact hrows
  · intro term
    have hmap : seg.postings term = (mt.postings term).map (writtenPosting mt) := by
      have hconv := hpostings term
      generalize mt.postings term = ps at hconv ⊢
      generalize seg.postings term = qs at hconv ⊢
      induction hconv with
      | nil => rfl
      | cons hpq _ ih =>
          obtain ⟨e, he, rfl⟩ := convertPosting_eq_ok.1 hpq
          rw [List.map_cons, ← ih, writtenPosting, he]
          rfl
    rw [hmap, h.postings, List.map_flatMap]
    apply List.flatMap_congr
    intro doc hdoc
    exact List.map_congr_left fun p hp => writtenPosting_eq h hdoc hp

/-! ## The serial build -/

omit [DecidableEq Term] in
/-- The documents of a serial scan: the tenant is stored with the length. -/
def serialDocs (cfg : Config) (an : Analyzer Value Term) (heap : Heap Value)
    (scan : List ItemPointer) : List (WorkerDoc Term) :=
  scannedDocuments cfg an heap (scan.map fun ctid => ⟨ctid, tenantAt cfg heap ctid⟩)

omit [DecidableEq Term] in
theorem scannedDocument_eq_none {cfg : Config} {an : Analyzer Value Term} {heap : Heap Value}
    {ctid : ItemPointer} (h : documentAt an heap ctid = none) (lengthTenantId : Nat) :
    scannedDocument cfg an heap ⟨ctid, lengthTenantId⟩ = none := by
  cases hd : scannedDocument cfg an heap ⟨ctid, lengthTenantId⟩ with
  | none => rfl
  | some d =>
      have hmem : d ∈ scannedDocuments cfg an heap [⟨ctid, lengthTenantId⟩] :=
        List.mem_filterMap.2 ⟨_, List.mem_singleton_self _, hd⟩
      obtain ⟨hctid, hdoc⟩ := documentAt_of_mem_scannedDocuments hmem
      rw [List.map_singleton, List.mem_singleton] at hctid
      rw [hctid, h] at hdoc
      cases hdoc

omit [DecidableEq Term] in
theorem scannedDocument_eq_some {cfg : Config} {an : Analyzer Value Term} {heap : Heap Value}
    {ctid : ItemPointer} {tuple : HeapTuple Value} (htuple : heap.tuples ctid = some tuple)
    {tv : TermVector Term} (hterms : indexedTerms an tuple = some tv) (lengthTenantId : Nat) :
    scannedDocument cfg an heap ⟨ctid, lengthTenantId⟩ =
      some ⟨ctid, tv, cfg.tenantIdOf tuple, lengthTenantId, indexedTerms_ne_nil hterms⟩ := by
  have hvalid := heap.valid ctid tuple htuple
  have hne := indexedTerms_ne_nil hterms
  unfold indexedTerms at hterms
  unfold scannedDocument workerDocument
  rw [htuple, Option.bind_some]
  cases hv : tuple.value with
  | none => simp [hv] at hterms
  | some value =>
      simp only [hv] at hterms
      split at hterms
      case isTrue => cases hterms
      case isFalse =>
        cases hterms
        simp [hvalid, hne]

/-- The documents done: those of the segments, then those of the memtable. -/
def ScanHolds (cfg : Config) (an : Analyzer Value Term) (heap : Heap Value)
    (done : List ItemPointer) (s : IndexState Value Term) : Prop :=
  ∃ spilled current, spilled ++ current = serialDocs cfg an heap done ∧
    LevelsHold s.levels spilled ∧ TablesHold s.memtable current ∧ s.heap = heap

/-- A memtable without terms holds no document. -/
theorem TablesHold.eq_nil {mt : Memtable Term} {docs : List (WorkerDoc Term)}
    (h : TablesHold mt docs) (hterms : mt.stringTable.entries = []) : docs = [] := by
  cases docs with
  | nil => rfl
  | cons d rest =>
      obtain ⟨term, hne⟩ := d.exists_postings_ne_nil
      have hpost : mt.postings term ≠ [] := by
        rw [h.postings, List.flatMap_cons]
        exact List.append_ne_nil_of_left_ne_nil hne _
      have hmem := mem_terms_of_postings_ne_nil hpost
      rw [hterms] at hmem
      cases hmem

/-- What the spill of a serial build does to memtable and levels. -/
theorem buildSpill_levels {cfg : Config} {backend : Nat} {b b' : SerialBuild Value Term}
    (h : buildSpill cfg backend b = .ok b') :
    (b' = b ∧ b.index.memtable.stringTable.entries = []) ∨
      ∃ seg, tpWriteSegment b.index.memtable = .ok (some seg) ∧
        b'.index.memtable = Memtable.empty ∧ b'.index.heap = b.index.heap ∧
        b'.index.levels = tpMaybeCompactLevel cfg.segmentsPerLevel tpMaxLevels
          (Segment.linkSegment b.index.levels 0 seg) 0 := by
  obtain ⟨seg, hseg, h⟩ := bind_eq_ok h
  cases seg with
  | none =>
      cases h
      exact Or.inl ⟨rfl, stringTable_of_tpWriteSegment_none hseg⟩
  | some seg =>
      cases h
      refine Or.inr ⟨seg, hseg, ?_, ?_, ?_⟩ <;> simp only [tpWriteTenantStatsPages_frame]

omit [DecidableEq Term] in
theorem serialDocs_append (cfg : Config) (an : Analyzer Value Term) (heap : Heap Value)
    (done : List ItemPointer) (ctid : ItemPointer) :
    serialDocs cfg an heap (done ++ [ctid]) = serialDocs cfg an heap done ++
      (scannedDocument cfg an heap ⟨ctid, tenantAt cfg heap ctid⟩).toList := by
  rw [serialDocs, List.map_append, scannedDocuments, List.filterMap_append]
  congr 1

/-- A tuple that is not indexed. -/
theorem ScanHolds.skip {cfg : Config} {an : Analyzer Value Term} {heap : Heap Value}
    {done : List ItemPointer} {s : IndexState Value Term} (h : ScanHolds cfg an heap done s)
    {ctid : ItemPointer} (hnone : documentAt an heap ctid = none) :
    ScanHolds cfg an heap (done ++ [ctid]) s := by
  obtain ⟨spilled, current, hdocs, hlevels, htables, hheap⟩ := h
  refine ⟨spilled, current, ?_, hlevels, htables, hheap⟩
  rw [serialDocs_append, scannedDocument_eq_none hnone, hdocs]
  exact (List.append_nil _).symm

/-- A document put into the memtable. -/
theorem ScanHolds.addDocument {cfg : Config} {an : Analyzer Value Term} {heap : Heap Value}
    {done : List ItemPointer} {s : IndexState Value Term} (h : ScanHolds cfg an heap done s)
    {ctid : ItemPointer} (hnew : ctid ∉ done) {tuple : HeapTuple Value}
    (htuple : heap.tuples ctid = some tuple) {tv : TermVector Term}
    (hterms : indexedTerms an tuple = some tv) (backend : Nat) :
    ScanHolds cfg an heap (done ++ [ctid])
      (State.addDocument s backend ctid tv (cfg.tenantIdOf tuple)) := by
  obtain ⟨spilled, current, hdocs, hlevels, htables, hheap⟩ := h
  have hat : tenantAt cfg heap ctid = cfg.tenantIdOf tuple := by
    rw [tenantAt, htuple]
    rfl
  have happend := serialDocs_append cfg an heap done ctid
  rw [scannedDocument_eq_some htuple hterms] at happend
  generalize hdoc : (⟨ctid, tv, cfg.tenantIdOf tuple, tenantAt cfg heap ctid,
    indexedTerms_ne_nil hterms⟩ : WorkerDoc Term) = doc at happend
  have hctid : doc.ctid = ctid := by rw [← hdoc]
  have hfresh : doc.ctid ∉ current.map WorkerDoc.ctid := by
    intro hmem
    have hin : doc.ctid ∈ (serialDocs cfg an heap done).map WorkerDoc.ctid := by
      rw [← hdocs, List.map_append]
      exact List.mem_append_right _ hmem
    rw [serialDocs, mem_scannedDocuments_ctid, List.map_map, hctid] at hin
    obtain ⟨c, hc, heq⟩ := List.mem_map.1 hin.1
    exact hnew (heq ▸ hc)
  refine ⟨spilled, current ++ [doc], ?_, hlevels, ?_, hheap⟩
  · rw [happend, ← hdocs, List.append_assoc, Option.toList_some]
  · apply htables.add hfresh
    · intro term
      show (tpAddDocumentTerms s.memtable ctid tv (cfg.tenantIdOf tuple)).postings term = _
      rw [postings_addDocumentTerms, ← hdoc]
      rfl
    · show (tpAddDocumentTerms s.memtable ctid tv (cfg.tenantIdOf tuple)).docLengths = _
      rw [docLengths_addDocumentTerms, ← hdoc, hat]

/-- A spill moves the documents of the memtable to the segments. -/
theorem ScanHolds.buildSpill {cfg : Config} {an : Analyzer Value Term} {heap : Heap Value}
    {done : List ItemPointer} {backend : Nat} {b b' : SerialBuild Value Term}
    (h : ScanHolds cfg an heap done b.index) (hb' : buildSpill cfg backend b = .ok b') :
    ScanHolds cfg an heap done b'.index := by
  obtain ⟨spilled, current, hdocs, hlevels, htables, hheap⟩ := h
  rcases buildSpill_levels hb' with ⟨rfl, -⟩ | ⟨seg, hseg, hmt, hh, hlev⟩
  · exact ⟨spilled, current, hdocs, hlevels, htables, hheap⟩
  · refine ⟨spilled ++ current, [], ?_, ?_, hmt ▸ tablesHold_empty, hh.trans hheap⟩
    · rw [hdocs, List.append_nil]
    · rw [hlev]
      exact (hlevels.linkSegment (segHolds_of_write htables hseg)).compact _ _ _

/-- **One tuple** of the serial scan. -/
theorem ScanHolds.processDocument {cfg : Config} {an : Analyzer Value Term} {heap : Heap Value}
    {backend : Nat} {done : List ItemPointer} {b b' : SerialBuild Value Term} {ctid : ItemPointer}
    (h : ScanHolds cfg an heap done b.index) (hnew : ctid ∉ done)
    (hb' : tpProcessDocument cfg an backend b ctid = .ok b') :
    ScanHolds cfg an heap (done ++ [ctid]) b'.index := by
  have hheap : b.index.heap = heap := by
    obtain ⟨-, -, -, -, -, hheap⟩ := h
    exact hheap
  rcases tpProcessDocument_cases hb' with ⟨hnone, rfl⟩ | ⟨tuple, tv, added, htuple, hterms, rfl, hb⟩
  · rw [hheap] at hnone
    exact h.skip hnone
  · rw [hheap] at htuple
    have hadded := h.addDocument hnew htuple hterms backend
    split at hb
    case isFalse =>
      subst hb
      exact hadded
    case isTrue => exact ScanHolds.buildSpill (b := ⟨_, b.accum⟩) hadded hb

/-- **The serial build** puts the documents of the scan into segments. -/
theorem tpBuild_holds {cfg : Config} {an : Analyzer Value Term} {backend : Nat}
    {scan : List ItemPointer} {s s' : IndexState Value Term} (hnodup : scan.Nodup)
    (h : tpBuild cfg an backend scan s = .ok s') :
    LevelsHold s'.levels (serialDocs cfg an s.heap scan) := by
  obtain ⟨b, hscan, h⟩ := bind_eq_ok h
  obtain ⟨spilled, hfinal, h⟩ := bind_eq_ok h
  cases h
  have hstart : ScanHolds cfg an s.heap []
      (tpCreateBuildIndexState backend (newIndexFile cfg backend s)).index :=
    ⟨[], [], rfl, levelsHold_empty, tablesHold_empty, rfl⟩
  have hdone := scan_invariant
    (fun _ _ _ _ (hdone : ScanHolds cfg an s.heap _ _) => hdone.processDocument) hstart hnodup hscan
  have hinv := scan_invariant
    (fun _ _ _ _ (hinv : ScanInvariant cfg an s.heap _ _) => hinv.processDocument)
    (scanInvariant_start cfg an backend s) hnodup hscan
  obtain ⟨before, current, hdocs, hlevels, htables, -⟩ := hdone
  obtain ⟨hmt, -, hlev, -⟩ := tpBuildFinalizeAndUpdateStats_frame cfg b.index
  show LevelsHold spilled.levels _
  unfold finalSpill at hfinal
  split at hfinal
  case isTrue hzero =>
    cases hfinal
    -- a memtable without postings has no documents
    have hnone : current = [] := by
      rw [hmt] at hzero
      have hempty := hinv.filled.postings hzero
      rw [memtableDocs, List.toFinset_eq_empty_iff] at hempty
      have hlen := htables.lengths.length_eq
      rw [List.length_map, List.length_map] at hlen
      have hentries : b.index.memtable.docLengths.entries = [] := List.map_eq_nil_iff.1 hempty
      rw [hentries] at hlen
      exact List.length_eq_zero_iff.1 hlen.symm
    rw [hlev, ← hdocs, hnone, List.append_nil]
    exact hlevels
  case isFalse =>
    obtain ⟨seg, hseg, hfinal⟩ := bind_eq_ok hfinal
    rw [hmt] at hseg
    cases seg with
    | none =>
        cases hfinal
        have hnone : current = [] := htables.eq_nil (stringTable_of_tpWriteSegment_none hseg)
        rw [hlev, ← hdocs, hnone, List.append_nil]
        exact hlevels
    | some seg =>
        cases hfinal
        show LevelsHold (Segment.linkSegment _ 0 seg) _
        rw [hlev, ← hdocs]
        exact hlevels.linkSegment (segHolds_of_write htables hseg)

/-! ## The parallel build -/

/-- The segments of the merges hold the documents of the batches. -/
theorem levelsHold_merged {cfg : Config} {docs : List (List (WorkerDoc Term))}
    {merged : List (MergedBatch Term)} (h : List.Forall₂ (Merged cfg) docs merged) :
    LevelsHold (Function.update (fun _ => []) 0 (merged.filterMap MergedBatch.segment) :
      Levels Term)
      (docs.flatten.map (WorkerDoc.asRead cfg)) := by
  induction h with
  | nil =>
      have hnone : (Function.update (fun _ => []) 0 [] : Levels Term) = fun _ => [] :=
        Function.update_eq_self 0 _
      show LevelsHold (Function.update (fun _ => []) 0 []) []
      rw [hnone]
      exact levelsHold_empty
  | @cons batch r rest merged hr _ ih =>
      rw [List.flatten_cons, List.map_append]
      cases hseg : r.segment with
      | none =>
          rw [List.filterMap_cons_none hseg, hr.none hseg]
          exact ih
      | some seg =>
          have hlink := ih.linkSegment (hr.holds seg hseg)
          rw [Segment.linkSegment, Function.update_self, Function.update_idem] at hlink
          rw [List.filterMap_cons_some hseg]
          refine hlink.congr fun d => ?_
          rw [List.mem_append, List.mem_append, or_comm]

/-- **The parallel build** puts the documents of the workers into segments. -/
theorem tpBuildParallel_holds {cfg : Config} {an : Analyzer Value Term} {backend : Nat}
    {batches : List (List (List ScannedTuple))} {s s' : IndexState Value Term}
    (hnodup : (batches.flatten.flatten.map ScannedTuple.ctid).Nodup)
    (h : tpBuildParallel cfg an backend batches s = .ok s') :
    LevelsHold s'.levels ((scannedDocuments cfg an s.heap batches.flatten.flatten).map
      (WorkerDoc.asRead cfg)) := by
  obtain ⟨merged, hmerged, h⟩ := bind_eq_ok h
  have hall := flatten_batchDocs cfg an s.heap batches
  have hdistinct : ((batches.map (batchDocs cfg an s.heap)).flatten.map WorkerDoc.ctid).Nodup := by
    rw [hall]
    exact (scannedDocuments_sublist cfg an s.heap _).nodup hnodup
  have hlevels := levelsHold_merged (forall₂_merged hdistinct hmerged)
  rw [hall] at hlevels
  cases h
  simp only [writeAccumulatedStats_frame]
  exact hlevels.compact _ _ _

/-! ## Both builds -/

omit [DecidableEq Term] in
/-- A scanned document has the terms of its tuple and the tenant field of its tuple. -/
theorem mem_scannedDocuments {cfg : Config} {an : Analyzer Value Term} {heap : Heap Value}
    {tuples : List ScannedTuple} {d : WorkerDoc Term} :
    d ∈ scannedDocuments cfg an heap tuples ↔ ∃ t ∈ tuples, ∃ tuple tv, ∃ hterms :
      indexedTerms an tuple = some tv, heap.tuples t.ctid = some tuple ∧
        d = ⟨t.ctid, tv, cfg.tenantIdOf tuple, t.lengthTenantId, indexedTerms_ne_nil hterms⟩ := by
  rw [scannedDocuments, List.mem_filterMap]
  constructor
  · rintro ⟨t, ht, hd⟩
    cases hdoc : documentAt an heap t.ctid with
    | none =>
        rw [scannedDocument_eq_none hdoc] at hd
        cases hd
    | some tv =>
        obtain ⟨tuple, htuple, hterms⟩ := Option.bind_eq_some_iff.1 hdoc
        rw [scannedDocument_eq_some htuple hterms] at hd
        cases hd
        exact ⟨t, ht, tuple, tv, hterms, htuple, rfl⟩
  · rintro ⟨t, ht, tuple, tv, hterms, htuple, rfl⟩
    exact ⟨t, ht, scannedDocument_eq_some htuple hterms t.lengthTenantId⟩

/-- The rows of a document with a tenant. -/
def DocumentRow (an : Analyzer Value Term) (heap : Heap Value) (row : IndexRow Term) : Prop :=
  ∃ tuple tv frequency, heap.tuples row.ctid = some tuple ∧ indexedTerms an tuple = some tv ∧
    (row.term, frequency) ∈ tv.entries ∧ row.frequency = frequency % 2 ^ 16 ∧
    row.fieldnorm = encodeFieldnorm tv.docLength

omit [DecidableEq Term] in
/-- The postings of a document in a segment. -/
theorem mem_segPostings [DecidableEq Term] {d : WorkerDoc Term} {term : Term} {q : SegPosting} :
    q ∈ d.segPostings term ↔ ∃ frequency, (term, frequency) ∈ d.terms.entries ∧
      q = ⟨d.ctid, frequency % 2 ^ 16, encodeFieldnorm d.terms.docLength⟩ := by
  rw [WorkerDoc.segPostings, List.mem_map]
  constructor
  · rintro ⟨p, hp, rfl⟩
    obtain ⟨f, hf, rfl⟩ := mem_documentPostings.1 hp
    exact ⟨f, hf, rfl⟩
  · rintro ⟨f, hf, rfl⟩
    exact ⟨_, mem_documentPostings.2 ⟨f, hf, rfl⟩, rfl⟩

/-- The relation of segments that hold scanned documents. -/
theorem linkedRow_scanned {cfg : Config} {an : Analyzer Value Term} {heap : Heap Value}
    {tuples : List ScannedTuple} {levels : Levels Term}
    (h : LevelsHold levels (scannedDocuments cfg an heap tuples))
    (hnodup : (tuples.map ScannedTuple.ctid).Nodup) (row : IndexRow Term) :
    LinkedRow levels row ↔ DocumentRow an heap row ∧
      ∃ t ∈ tuples, t.ctid = row.ctid ∧ row.tenantId = t.lengthTenantId := by
  rw [h.linkedRow ((scannedDocuments_sublist cfg an heap tuples).nodup hnodup)]
  constructor
  · rintro ⟨d, hd, hposting, htenant⟩
    obtain ⟨t, ht, tuple, tv, hterms, htuple, rfl⟩ := mem_scannedDocuments.1 hd
    obtain ⟨f, hf, heq⟩ := mem_segPostings.1 hposting
    have hctid : row.ctid = t.ctid := congrArg SegPosting.ctid heq
    have hfreq : row.frequency = f % 2 ^ 16 := congrArg SegPosting.frequency heq
    have hnorm : row.fieldnorm = encodeFieldnorm tv.docLength := congrArg SegPosting.fieldnorm heq
    exact ⟨⟨tuple, tv, f, hctid ▸ htuple, hterms, hf, hfreq, hnorm⟩, t, ht, hctid.symm, htenant⟩
  · rintro ⟨⟨tuple, tv, f, htuple, hterms, hf, hfreq, hnorm⟩, t, ht, hctid, htenant⟩
    refine ⟨_, mem_scannedDocuments.2 ⟨t, ht, tuple, tv, hterms, hctid ▸ htuple, rfl⟩, ?_, htenant⟩
    rw [mem_segPostings, hfreq, hnorm, ← hctid]
    exact ⟨f, hf, rfl⟩

/-- What the tenant field of a document length entry is read as. -/
def ScannedTuple.asRead (cfg : Config) (t : ScannedTuple) : ScannedTuple :=
  { t with lengthTenantId := if cfg.hasTenantColumn then t.lengthTenantId else 0 }

omit [DecidableEq Term] in
theorem scannedDocuments_asRead (cfg : Config) (an : Analyzer Value Term) (heap : Heap Value)
    (tuples : List ScannedTuple) :
    (scannedDocuments cfg an heap tuples).map (WorkerDoc.asRead cfg) =
      scannedDocuments cfg an heap (tuples.map (ScannedTuple.asRead cfg)) := by
  rw [scannedDocuments, scannedDocuments, List.filterMap_map, List.map_filterMap]
  apply List.filterMap_congr
  intro t _
  cases hdoc : documentAt an heap t.ctid with
  | none =>
      rw [scannedDocument_eq_none hdoc]
      exact (scannedDocument_eq_none hdoc _).symm
  | some tv =>
      obtain ⟨tuple, htuple, hterms⟩ := Option.bind_eq_some_iff.1 hdoc
      rw [scannedDocument_eq_some htuple hterms]
      exact (scannedDocument_eq_some htuple hterms _).symm

omit [DecidableEq Term] in
/-- A document has a row. -/
theorem exists_documentRow {an : Analyzer Value Term} {heap : Heap Value} {ctid : ItemPointer}
    (h : (documentAt an heap ctid).isSome) (tenantId : Nat) :
    ∃ row : IndexRow Term, row.ctid = ctid ∧ row.tenantId = tenantId ∧
      DocumentRow an heap row := by
  obtain ⟨tv, htv⟩ := Option.isSome_iff_exists.1 h
  obtain ⟨tuple, htuple, hterms⟩ := Option.bind_eq_some_iff.1 htv
  obtain ⟨e, he⟩ := List.exists_mem_of_ne_nil _ (indexedTerms_ne_nil hterms)
  exact ⟨⟨e.1, ctid, e.2 % 2 ^ 16, encodeFieldnorm tv.docLength, tenantId⟩, rfl, rfl, tuple, tv,
    e.2, htuple, hterms, he, rfl, rfl⟩

/-! ## Both builds succeed -/

/-- A memtable of fewer than `UINT32_MAX` documents can be written. -/
theorem tpWriteSegment_ok {mt : Memtable Term} {docs : List (WorkerDoc Term)}
    (h : TablesHold mt docs) (hcount : docs.length < uint32Max) :
    ∃ result, tpWriteSegment mt = .ok result := by
  have hlength : mt.docLengths.entries.length = docs.length := by
    have := h.lengths.length_eq
    rwa [List.length_map, List.length_map] at this
  have hposting : ∀ term, ∀ p ∈ mt.postings term, ∃ q, convertPosting mt p = .ok q := by
    intro term p hp
    rw [h.postings, List.mem_flatMap] at hp
    obtain ⟨d, hd, hpd⟩ := hp
    obtain ⟨f, -, rfl⟩ := mem_documentPostings.1 hpd
    obtain ⟨e, he, hrow⟩ := List.mem_map.1 (h.lengths.symm.subset (List.mem_map.2 ⟨d, hd, rfl⟩))
    have hkey : e.1 = d.ctid := congrArg Prod.fst hrow
    have hlookup : mt.docLengths.lookup d.ctid = some e.2 := by
      rw [← hkey]
      exact AList.mem_lookup_iff.2 he
    exact ⟨_, convertPosting_eq_ok.2 ⟨e.2, hlookup, rfl⟩⟩
  have hmapM : ∀ ps : List MemPosting, (∀ p ∈ ps, ∃ q, convertPosting mt p = .ok q) →
      ∃ qs, ps.mapM (convertPosting mt) = .ok qs := by
    intro ps hps
    induction ps with
    | nil => exact ⟨[], rfl⟩
    | cons p rest ih =>
        obtain ⟨q, hq⟩ := hps p List.mem_cons_self
        obtain ⟨qs, hqs⟩ := ih fun p' hp' => hps p' (List.mem_cons_of_mem _ hp')
        refine ⟨q :: qs, ?_⟩
        rw [List.mapM_cons, hq, hqs]
        rfl
  have hterms : ∀ entries : List (Sigma fun _ : Term => List MemPosting),
      entries ⊆ mt.stringTable.entries → ∃ terms, convertTerms mt entries = .ok terms := by
    intro entries hsub
    induction entries with
    | nil => exact ⟨[], rfl⟩
    | cons e rest ih =>
        obtain ⟨terms, hrest⟩ := ih fun x hx => hsub (List.mem_cons_of_mem _ hx)
        have hlookup : mt.stringTable.lookup e.1 = some e.2 :=
          AList.mem_lookup_iff.2 (hsub List.mem_cons_self)
        obtain ⟨qs, hqs⟩ := hmapM e.2 fun p hp => hposting e.1 p (by
          rw [Memtable.postings, hlookup]
          exact hp)
        refine ⟨(e.1, qs) :: terms, ?_⟩
        rw [convertTerms, hqs, hrest]
        rfl
  unfold tpWriteSegment
  rw [if_neg (by omega)]
  split
  · exact ⟨none, rfl⟩
  · obtain ⟨terms, hok⟩ := hterms _ (List.Subset.refl _)
    rw [hok]
    exact ⟨_, rfl⟩

omit [DecidableEq Term] in
theorem length_serialDocs_le (cfg : Config) (an : Analyzer Value Term) (heap : Heap Value)
    (scan : List ItemPointer) :
    (serialDocs cfg an heap scan).length ≤ scan.length := by
  have hle := List.length_filterMap_le (scannedDocument cfg an heap)
    (scan.map fun ctid => ⟨ctid, tenantAt cfg heap ctid⟩)
  rwa [List.length_map] at hle

/-- The memtable of a scan over few tuples can be written. -/
theorem ScanHolds.write_ok {cfg : Config} {an : Analyzer Value Term} {heap : Heap Value}
    {done : List ItemPointer} {s : IndexState Value Term} (h : ScanHolds cfg an heap done s)
    (hcount : done.length < uint32Max) : ∃ result, tpWriteSegment s.memtable = .ok result := by
  obtain ⟨spilled, current, hdocs, -, htables, -⟩ := h
  refine tpWriteSegment_ok htables ?_
  have hle := length_serialDocs_le cfg an heap done
  rw [← hdocs, List.length_append] at hle
  omega

/-- A tuple can be processed while few documents are done. -/
theorem ScanHolds.process_ok {cfg : Config} {an : Analyzer Value Term} {heap : Heap Value}
    (backend : Nat) {done : List ItemPointer} {b : SerialBuild Value Term} {ctid : ItemPointer}
    (h : ScanHolds cfg an heap done b.index) (hnew : ctid ∉ done)
    (hcount : (done ++ [ctid]).length < uint32Max) :
    ∃ b', tpProcessDocument cfg an backend b ctid = .ok b' := by
  have hheap : b.index.heap = heap := by
    obtain ⟨-, -, -, -, -, hheap⟩ := h
    exact hheap
  unfold tpProcessDocument
  cases htuple : b.index.heap.tuples ctid with
  | none => exact ⟨b, rfl⟩
  | some tuple =>
      cases hv : tuple.value with
      | none =>
          simp only [hv]
          exact ⟨b, rfl⟩
      | some value =>
          simp only [hv]
          split
          · exact ⟨b, rfl⟩
          case isFalse hindexed =>
            have hne : (an.insertTerms value).entries ≠ [] := fun hnil => hindexed (Or.inl hnil)
            have hterms : indexedTerms an tuple = some (an.insertTerms value) := by
              simp only [indexedTerms, hv, if_neg hne]
            rw [hheap] at htuple
            obtain ⟨result, hresult⟩ := (h.addDocument hnew htuple hterms backend).write_ok hcount
            unfold buildSpillIfNeeded
            split
            · exact ⟨_, rfl⟩
            split
            · exact ⟨_, rfl⟩
            · unfold Am.buildSpill
              rw [hresult]
              cases result with
              | none => exact ⟨_, rfl⟩
              | some seg => exact ⟨_, rfl⟩

/-- **The serial build succeeds** on fewer than `UINT32_MAX` tuples. -/
theorem tpBuild_ok (cfg : Config) (an : Analyzer Value Term) (backend : Nat)
    {scan : List ItemPointer} (s : IndexState Value Term) (hnodup : scan.Nodup)
    (hcount : scan.length < uint32Max) : ∃ s', tpBuild cfg an backend scan s = .ok s' := by
  have hrest : ∀ (rest done : List ItemPointer) (b : SerialBuild Value Term),
      ScanHolds cfg an s.heap done b.index → (done ++ rest).Nodup →
      (done ++ rest).length < uint32Max →
      ∃ b', rest.foldlM (tpProcessDocument cfg an backend) b = .ok b' ∧
        ScanHolds cfg an s.heap (done ++ rest) b'.index := by
    intro rest
    induction rest with
    | nil =>
        intro done b h _ _
        exact ⟨b, rfl, by rwa [List.append_nil]⟩
    | cons ctid rest ih =>
        intro done b h hnodup hlen
        have hnew : ctid ∉ done := by
          intro hmem
          exact (List.nodup_append.1 hnodup).2.2 _ hmem _ List.mem_cons_self rfl
        rw [List.append_cons] at hnodup hlen ⊢
        have hfew : (done ++ [ctid]).length < uint32Max := by
          rw [List.length_append] at hlen
          omega
        obtain ⟨b₁, hb₁⟩ := h.process_ok backend hnew hfew
        obtain ⟨b', hb', hdone⟩ := ih _ b₁ (h.processDocument hnew hb₁) hnodup hlen
        exact ⟨b', by rw [List.foldlM_cons, hb₁]; exact hb', hdone⟩
  have hstart : ScanHolds cfg an s.heap []
      (tpCreateBuildIndexState backend (newIndexFile cfg backend s)).index :=
    ⟨[], [], rfl, levelsHold_empty, tablesHold_empty, rfl⟩
  obtain ⟨b, hb, hdone⟩ := hrest scan [] _ hstart hnodup hcount
  obtain ⟨result, hresult⟩ := hdone.write_ok hcount
  obtain ⟨hmt, -⟩ := tpBuildFinalizeAndUpdateStats_frame cfg b.index
  have hfinal : ∃ spilled, finalSpill (tpBuildFinalizeAndUpdateStats cfg b.index) =
      .ok spilled := by
    unfold finalSpill
    split
    · exact ⟨_, rfl⟩
    · rw [hmt, hresult]
      cases result with
      | none => exact ⟨_, rfl⟩
      | some seg => exact ⟨_, rfl⟩
  obtain ⟨spilled, hspilled⟩ := hfinal
  refine ⟨tpFinalizeBuildMode b.accum spilled, ?_⟩
  simp only [tpBuild, hb, hspilled, bind, Except.bind]
  rfl

/-- **The parallel build succeeds** on fewer than `UINT32_MAX` tuples. -/
theorem tpBuildParallel_ok (cfg : Config) (an : Analyzer Value Term) (backend : Nat)
    {batches : List (List (List ScannedTuple))} (s : IndexState Value Term)
    (hnodup : (batches.flatten.flatten.map ScannedTuple.ctid).Nodup)
    (hcount : batches.flatten.flatten.length < uint32Max) :
    ∃ s', tpBuildParallel cfg an backend batches s = .ok s' := by
  have hmerged : ∃ merged, (batches.map fun batch => batch.map fun tuples =>
      filledBuffer (scannedDocuments cfg an s.heap tuples)).mapM (mergeBatch cfg) = .ok merged := by
    induction batches with
    | nil => exact ⟨[], rfl⟩
    | cons batch rest ih =>
        rw [List.flatten_cons, List.flatten_append, List.map_append] at hnodup
        rw [List.flatten_cons, List.flatten_append, List.length_append] at hcount
        have hparts := List.nodup_append.1 hnodup
        obtain ⟨merged, hrest⟩ := ih hparts.2.1 (by omega)
        have hdocs := batchDocs_eq cfg an s.heap batch
        have hdistinct : ((batchDocs cfg an s.heap batch).map WorkerDoc.ctid).Nodup := by
          rw [hdocs]
          exact (scannedDocuments_sublist cfg an s.heap _).nodup hparts.1
        have hfew : (batchDocs cfg an s.heap batch).length < uint32Max := by
          rw [hdocs, scannedDocuments]
          have hle := List.length_filterMap_le (scannedDocument cfg an s.heap) batch.flatten
          omega
        obtain ⟨result, hresult⟩ := tpMergeWorkerBuffersToSegment_ok
          (forall₂_filledBuffer hdistinct) hdistinct hfew
        have hbatch : ∃ r, mergeBatch cfg (batch.map fun tuples =>
            filledBuffer (scannedDocuments cfg an s.heap tuples)) = .ok r := by
          rw [List.map_map] at hresult
          have hwritten : tpMergeWorkerBuffersToSegment (batch.map fun tuples =>
            filledBuffer (scannedDocuments cfg an s.heap tuples)) = .ok result := hresult
          rw [mergeBatch, hwritten]
          exact ⟨_, rfl⟩
        obtain ⟨r, hr⟩ := hbatch
        refine ⟨r :: merged, ?_⟩
        rw [List.map_cons, List.mapM_cons, hr, hrest]
        rfl
  obtain ⟨merged, hok⟩ := hmerged
  simp only [tpBuildParallel, hok, bind, Except.bind]
  exact ⟨_, rfl⟩

/-! ## Equivalence -/

/-- **The relation of the serial build.** -/
theorem linkedRow_serial {cfg : Config} {an : Analyzer Value Term} {backend : Nat}
    {scan : List ItemPointer} {s s' : IndexState Value Term} (hnodup : scan.Nodup)
    (h : tpBuild cfg an backend scan s = .ok s') (row : IndexRow Term) :
    LinkedRow s'.levels row ↔ DocumentRow an s.heap row ∧ row.ctid ∈ scan ∧
      row.tenantId = tenantAt cfg s.heap row.ctid := by
  rw [linkedRow_scanned (tpBuild_holds hnodup h) (by simpa [Function.comp_def] using hnodup)]
  refine and_congr_right fun _ => ?_
  simp only [List.mem_map, exists_exists_and_eq_and]
  constructor
  · rintro ⟨c, hc, rfl, htenant⟩
    exact ⟨hc, htenant⟩
  · rintro ⟨hc, htenant⟩
    exact ⟨row.ctid, hc, rfl, htenant⟩

/-- **The relation of the parallel build**: the tenant is what the tenant field of the
length entry is read as. -/
theorem linkedRow_parallel {cfg : Config} {an : Analyzer Value Term} {backend : Nat}
    {batches : List (List (List ScannedTuple))} {s s' : IndexState Value Term}
    (hnodup : (batches.flatten.flatten.map ScannedTuple.ctid).Nodup)
    (h : tpBuildParallel cfg an backend batches s = .ok s') (row : IndexRow Term) :
    LinkedRow s'.levels row ↔ DocumentRow an s.heap row ∧
      ∃ t ∈ batches.flatten.flatten, t.ctid = row.ctid ∧
        row.tenantId = if cfg.hasTenantColumn then t.lengthTenantId else 0 := by
  have hlevels := tpBuildParallel_holds hnodup h
  rw [scannedDocuments_asRead] at hlevels
  rw [linkedRow_scanned hlevels (by simpa [Function.comp_def, ScannedTuple.asRead] using hnodup)]
  refine and_congr_right fun _ => ?_
  simp only [List.mem_map, exists_exists_and_eq_and]
  rfl

/-- The tenant fields that are read for the documents hold their tenants. -/
def TenantsStored (cfg : Config) (an : Analyzer Value Term) (heap : Heap Value)
    (tuples : List ScannedTuple) : Prop :=
  cfg.hasTenantColumn = true → ∀ t ∈ tuples, (documentAt an heap t.ctid).isSome →
    t.lengthTenantId = tenantAt cfg heap t.ctid

/-- A table with a document of tenant 5. -/
def tenantRow : IndexState (TermVector Nat) Nat :=
  { (IndexState.init : IndexState (TermVector Nat) Nat) with
    heap := Heap.empty.place ⟨0, 1⟩ firstTuple_valid ⟨some oneWord, 5⟩ }

/-- Its serial scan. -/
def oneTupleScan : List ItemPointer := [⟨0, 1⟩]

/-- One worker, one buffer, one segment. -/
def oneTupleBatches (lengthTenantId : Nat) : List (List (List ScannedTuple)) :=
  [[[⟨⟨0, 1⟩, lengthTenantId⟩]]]

end PgTextsearch.Am
