import PgTextsearch.Am.WorkerBuffer

/-!
# Builds and restarts (`am/build.c`, `am/build_parallel.c`, `state/state.c`)

The life of one index: `CREATE INDEX` or `REINDEX` by a single backend or with
workers, the calls of several backends in between, and restarts.  A build writes
a new file; the serial build works in a private memory area whose tenant
statistics are put aside at every spill, and registers a new shared state, while
the parallel build leaves the registered one as it is.  A backend keeps the
shared state it attached to first.

## Main definitions

* `tpBuild`, `tpBuildParallel` — the two builds.
* `tpGetLocalIndexState` — attaching to the registered shared state.
* `Database`, `databaseStep` — several backends, builds and restarts.
-/

namespace PgTextsearch.Am

open PgTextsearch.Postgres PgTextsearch.Segment PgTextsearch.State

variable {Value Term : Type}

/-- A table of tenant statistics, in shared or private memory. -/
abbrev TenantTable := AList fun _ : Nat => TenantStatsEntry

/-- Find or insert an entry and add to it, as the accumulators of the builds and
`tp_read_tenant_stats_pages` do. -/
def addTenantEntry (table : TenantTable) (e : Nat × TenantStatsEntry) : TenantTable :=
  match table.lookup e.1 with
  | none => table.insert e.1 e.2
  | some d => table.insert e.1 ⟨d.docCount + e.2.docCount, d.totalLen + e.2.totalLen⟩

/-- `tp_tenant_stats_collect`. -/
def tpTenantStatsCollect (table : TenantTable) : List (Nat × TenantStatsEntry) :=
  table.entries.map fun e => (e.1, e.2)

/-- The file a build starts from: a new metapage and nothing else.  The docid
cache of the building backend is invalidated. -/
def newIndexFile (cfg : Config) (backend : Nat) (s : IndexState Value Term) :
    IndexState Value Term :=
  { s with
    metaTotalDocs := 0
    metaTotalLen := 0
    levels := fun _ => []
    tenantStatsPages := none
    docids :=
      { indexes := Function.update s.docids.indexes cfg.indexOid ⟨1, none, fun _ => none⟩
        caches := Function.update s.docids.caches backend
          { s.docids.caches backend with valid := false } } }

variable [DecidableEq Term]

/-! ## The serial build -/

/-- A serial build under way: the index with the memtable of the private memory
area, and `build_tenant_stats_accum`. -/
structure SerialBuild (Value Term : Type) where
  index : IndexState Value Term
  accum : TenantTable

/-- `tp_create_build_index_state`. -/
def tpCreateBuildIndexState (backend : Nat) (s : IndexState Value Term) :
    SerialBuild Value Term where
  index :=
    { s with
      memtable := Memtable.empty
      totalDocs := 0
      totalLen := 0
      termsAddedThisXact := Function.update s.termsAddedThisXact backend 0 }
  accum := ∅

/-- The spill of `tp_auto_spill_if_needed` in build mode.  `tp_clear_memtable`
puts the tenant statistics aside before the private area is recreated, so the
statistics written to disk afterwards are those of an empty table. -/
def buildSpill (cfg : Config) (backend : Nat) (b : SerialBuild Value Term) :
    Except SegmentError (SerialBuild Value Term) := do
  match ← tpWriteSegment b.index.memtable with
  | none => return b
  | some seg =>
      let cleared :=
        { b.index with
          memtable := Memtable.empty
          docids := tpClearDocidPages b.index.docids backend cfg.indexOid }
      let linked :=
        { cleared with
          levels := Segment.linkSegment cleared.levels 0 seg
          metaTotalDocs := cleared.totalDocs
          metaTotalLen := cleared.totalLen }
      let written := tpWriteTenantStatsPages cfg linked
      let accum := (tpTenantStatsCollect b.index.memtable.tenantStats).foldl addTenantEntry b.accum
      let compacted :=
        { written with
          levels := tpMaybeCompactLevel cfg.segmentsPerLevel tpMaxLevels written.levels 0 }
      return ⟨compacted, accum⟩

/-- `tp_auto_spill_if_needed` in build mode. -/
def buildSpillIfNeeded (cfg : Config) (backend : Nat) (b : SerialBuild Value Term) :
    Except SegmentError (SerialBuild Value Term) :=
  if cfg.memtableSpillThreshold = 0 then .ok b
  else if b.index.memtable.totalPostings < cfg.memtableSpillThreshold then .ok b
  else buildSpill cfg backend b

/-- `tp_process_document` for a tuple of the scan; docid pages are not written. -/
def tpProcessDocument (cfg : Config) (an : Analyzer Value Term) (backend : Nat)
    (b : SerialBuild Value Term) (ctid : ItemPointer) :
    Except SegmentError (SerialBuild Value Term) :=
  match b.index.heap.tuples ctid with
  | none => .ok b
  | some tuple =>
      match tuple.value with
      | none => .ok b
      | some value =>
          let tv := an.insertTerms value
          if tv.entries = [] ∨ ctid.isValid = false then .ok b
          else
            let index := addDocument b.index backend ctid tv (cfg.tenantIdOf tuple)
            buildSpillIfNeeded cfg backend { b with index := index }

omit [DecidableEq Term] in
/-- `tp_build_finalize_and_update_stats`. -/
def tpBuildFinalizeAndUpdateStats (cfg : Config) (s : IndexState Value Term) :
    IndexState Value Term :=
  tpWriteTenantStatsPages cfg { s with metaTotalDocs := s.totalDocs, metaTotalLen := s.totalLen }

omit [DecidableEq Term] in
/-- The final spill of `tp_build`: no compaction, no metapage totals. -/
def finalSpill (s : IndexState Value Term) : Except SegmentError (IndexState Value Term) :=
  if s.memtable.totalPostings = 0 then .ok s
  else do
    match ← tpWriteSegment s.memtable with
    | none => return s
    | some seg => return { s with levels := Segment.linkSegment s.levels 0 seg }

omit [DecidableEq Term] in
/-- `tp_finalize_build_mode`: a new memtable with the statistics put aside; those
of the private area are gone. -/
def tpFinalizeBuildMode (accum : TenantTable) (s : IndexState Value Term) :
    IndexState Value Term :=
  { s with memtable := { Memtable.empty with tenantStats := accum } }

/-- `tp_build`, serial: the tuples of the scan, then the statistics, the final
spill and the new shared memtable. -/
def tpBuild (cfg : Config) (an : Analyzer Value Term) (backend : Nat)
    (scan : List ItemPointer) (s : IndexState Value Term) :
    Except SegmentError (IndexState Value Term) := do
  let start := tpCreateBuildIndexState backend (newIndexFile cfg backend s)
  let b ← scan.foldlM (tpProcessDocument cfg an backend) start
  let spilled ← finalSpill (tpBuildFinalizeAndUpdateStats cfg b.index)
  return tpFinalizeBuildMode b.accum spilled

/-! ## The parallel build -/

/-- A tuple a worker scans, with what the tenant field of its document length
entry happens to hold. -/
structure ScannedTuple where
  ctid : ItemPointer
  lengthTenantId : Nat
  deriving DecidableEq, Repr

omit [DecidableEq Term] in
/-- The document of a scanned tuple. -/
def scannedDocument (cfg : Config) (an : Analyzer Value Term) (heap : Heap Value)
    (t : ScannedTuple) : Option (WorkerDoc Term) :=
  (heap.tuples t.ctid).bind fun tuple => workerDocument cfg an t.ctid tuple t.lengthTenantId

omit [DecidableEq Term] in
/-- The documents a worker finds in the tuples it scans. -/
def scannedDocuments (cfg : Config) (an : Analyzer Value Term) (heap : Heap Value)
    (tuples : List ScannedTuple) : List (WorkerDoc Term) :=
  tuples.filterMap (scannedDocument cfg an heap)

/-- A buffer that is ready: the documents put into it since it was cleared. -/
def filledBuffer (docs : List (WorkerDoc Term)) : WorkerBuffer Term :=
  docs.foldl putDocument WorkerBuffer.init

/-- What the leader collects of a merge: the segment if one was written, its part
of the corpus statistics, and the tenant statistics of the buffers. -/
structure MergedBatch (Term : Type) where
  segment : Option (SegmentContents Term)
  totalDocs : Nat
  totalLen : Nat
  tenantStats : List (Nat × TenantStatsEntry)

omit [DecidableEq Term] in
/-- The segment as it is read: the tenant map is written, and looked at by
`tp_segment_get_tenant_id`, only for an index with a tenant column. -/
def tenantsAsRead (cfg : Config) (seg : SegmentContents Term) : SegmentContents Term :=
  { seg with
    docs := seg.docs.map fun d =>
      { d with tenantId := if cfg.hasTenantColumn then d.tenantId else 0 } }

/-- One merge of `tp_leader_process_buffers`. -/
def mergeBatch (cfg : Config) (buffers : List (WorkerBuffer Term)) :
    Except SegmentError (MergedBatch Term) := do
  let written ← tpMergeWorkerBuffersToSegment buffers
  let segment := written.map (tenantsAsRead cfg)
  let counted := if segment.isSome then buffers else []
  return ⟨segment, (counted.map WorkerBuffer.numDocs).sum, (counted.map WorkerBuffer.totalLen).sum,
    buffers.flatMap fun b => tpTenantStatsCollect b.tables.tenantStats⟩

omit [DecidableEq Term] in
/-- `tp_write_tenant_stats_pages_from_array` at the end of a parallel build. -/
def writeAccumulatedStats (cfg : Config) (entries : List (Nat × TenantStatsEntry))
    (s : IndexState Value Term) : IndexState Value Term :=
  let accum := entries.foldl addTenantEntry (∅ : TenantTable)
  if cfg.hasTenantColumn ∧ accum.entries ≠ [] then
    { s with tenantStatsPages := some (tpTenantStatsCollect accum) }
  else s

/-- `tp_build_parallel`, for the batches of buffers the leader merged.  The
segments form a chain in the order of the merges.  Shared memory is not touched. -/
def tpBuildParallel (cfg : Config) (an : Analyzer Value Term) (backend : Nat)
    (batches : List (List (List ScannedTuple))) (s : IndexState Value Term) :
    Except SegmentError (IndexState Value Term) := do
  let buffers := batches.map fun batch =>
    batch.map fun tuples => filledBuffer (scannedDocuments cfg an s.heap tuples)
  let merged ← buffers.mapM (mergeBatch cfg)
  let file := newIndexFile cfg backend s
  let levels : Levels Term :=
    Function.update (fun _ => []) 0 (merged.filterMap MergedBatch.segment)
  return writeAccumulatedStats cfg (merged.flatMap MergedBatch.tenantStats)
    { file with
      levels := tpMaybeCompactLevel cfg.segmentsPerLevel tpMaxLevels levels 0
      metaTotalDocs := (merged.map MergedBatch.totalDocs).sum
      metaTotalLen := (merged.map MergedBatch.totalLen).sum }

/-! ## Several backends -/

/-- `TpSharedIndexState` with its memtable. -/
structure SharedState (Term : Type) where
  memtable : Memtable Term
  totalDocs : Nat
  totalLen : Nat

omit [DecidableEq Term] in
/-- The shared state in use. -/
def sharedState (s : IndexState Value Term) : SharedState Term :=
  ⟨s.memtable, s.totalDocs, s.totalLen⟩

omit [DecidableEq Term] in
/-- The index seen through a shared state. -/
def useShared (s : IndexState Value Term) (shared : SharedState Term) : IndexState Value Term :=
  { s with
    memtable := shared.memtable
    totalDocs := shared.totalDocs
    totalLen := shared.totalLen }

/-- An index with all its backends.  `index` has the shared state that is
registered; `generation` numbers the shared states, and `cached` is the one the
local state of a backend points to.  A replaced shared state stays allocated. -/
structure Database (Value Term : Type) where
  index : IndexState Value Term
  registered : Bool
  generation : Nat
  replaced : Nat → SharedState Term
  cached : Nat → Option Nat

omit [DecidableEq Term] in
/-- A table without the index. -/
def Database.start (heap : Heap Value) : Database Value Term where
  index := { (IndexState.init : IndexState Value Term) with heap := heap }
  registered := false
  generation := 0
  replaced := fun _ => ⟨Memtable.empty, 0, 0⟩
  cached := fun _ => none

/-- What happens to an index: calls of the backends, a query that attaches, the
two builds, and a restart after which `backend` is the first to use the index. -/
inductive DatabaseOp (Value : Type) where
  | call (op : IndexOp Value)
  | attach (backend : Nat)
  | build (backend : Nat) (scan : List ItemPointer)
  | buildParallel (backend : Nat) (batches : List (List (List ScannedTuple)))
  | restart (backend : Nat)

/-- The backend of a call. -/
def callBackend : IndexOp Value → Nat
  | .insert backend _ _ => backend
  | .spillMemtable backend => backend
  | .commit backend => backend
  | .abort backend => backend

/-- The call asks for the local index state: not for NULL documents, nor at the
end of a transaction. -/
def asksForState : IndexOp Value → Bool
  | .insert _ _ tuple => tuple.value.isSome
  | .spillMemtable _ => true
  | .commit _ => false
  | .abort _ => false

omit [DecidableEq Term] in
/-- The tenant statistics on disk are read when shared memory has no table. -/
def loadTenantStats (cfg : Config) (s : IndexState Value Term) : IndexState Value Term :=
  if cfg.hasTenantColumn ∧ s.memtable.tenantStats.entries = [] then
    match s.tenantStatsPages with
    | none => s
    | some entries => { s with memtable := tpReadTenantStatsPages s.memtable entries }
  else s

omit [DecidableEq Term] in
/-- `tp_get_local_index_state` for a registered index. -/
def tpGetLocalIndexState (cfg : Config) (db : Database Value Term) (backend : Nat) :
    Database Value Term :=
  match db.cached backend with
  | some _ => db
  | none =>
      { db with
        index :=
          { loadTenantStats cfg db.index with
            termsAddedThisXact := Function.update db.index.termsAddedThisXact backend 0 }
        cached := Function.update db.cached backend (some db.generation) }

/-- A call through the shared state the backend has cached. -/
def runCall (cfg : Config) (an : Analyzer Value Term) (db : Database Value Term)
    (op : IndexOp Value) : Option (Database Value Term) :=
  let generation := (db.cached (callBackend op)).getD db.generation
  if generation = db.generation then
    (indexStep cfg an db.index op).map fun s => { db with index := s }
  else
    (indexStep cfg an (useShared db.index (db.replaced generation)) op).map fun s =>
      { db with
        index := useShared s (sharedState db.index)
        replaced := Function.update db.replaced generation (sharedState s) }

/-- The tuples a build scans are in the heap, each once. -/
def scanOf (heap : Heap Value) (scan : List ItemPointer) : Bool :=
  decide scan.Nodup && scan.all fun ctid => (heap.tuples ctid).isSome

/-- One step.  A build that fails leaves everything as it was and is no step.  An
index without shared state is read from disk when it is first used, here at once. -/
def databaseStep (cfg : Config) (an : Analyzer Value Term) (db : Database Value Term) :
    DatabaseOp Value → Option (Database Value Term)
  | .call op =>
      if db.registered then
        runCall cfg an
          (if asksForState op then tpGetLocalIndexState cfg db (callBackend op) else db) op
      else none
  | .attach backend =>
      if db.registered then some (tpGetLocalIndexState cfg db backend) else none
  | .build backend scan =>
      if scanOf db.index.heap scan then
        match tpBuild cfg an backend scan db.index with
        | .error _ => none
        | .ok s => some
            { index := s
              registered := true
              generation := db.generation + 1
              replaced := Function.update db.replaced db.generation (sharedState db.index)
              cached := Function.update db.cached backend (some (db.generation + 1)) }
      else none
  | .buildParallel backend batches =>
      if scanOf db.index.heap (batches.flatten.flatten.map ScannedTuple.ctid) then
        match tpBuildParallel cfg an backend batches db.index with
        | .error _ => none
        | .ok s => some
            (if db.registered then { db with index := s }
            else
              { db with
                index := tpRebuildIndexFromDisk cfg an s.heap s
                registered := true
                cached := Function.update db.cached backend (some db.generation) })
      else none
  | .restart backend =>
      if db.registered then some
        { db with
          index := tpRebuildIndexFromDisk cfg an db.index.heap db.index
          generation := db.generation + 1
          cached := Function.update (fun _ => none) backend (some (db.generation + 1)) }
      else none

end PgTextsearch.Am
