import PgTextsearch.Memtable.Posting
import PgTextsearch.Segment.Contents
import PgTextsearch.State.DocidPages

/-!
# The index as a whole (`am/build.c`, `state/state.c`)

One index with its shared state (memtable, corpus statistics), its pages
(metapage, segments, docid pages, tenant statistics) and the heap it indexes.
Inserts add a document to the memtable and record its CTID on the docid pages;
the three spills write the memtable to a segment.  Their steps are listed in the
order of each function, so that an interrupted spill is a prefix of the list.

## Main results

* `spill_of_writes`, `spill_of_not_writes` — what a complete spill does.
* `postings_replay`, `docLengths_replay` — what docid-page replay puts into the
  memtable.
-/

namespace PgTextsearch.State

open PgTextsearch.Postgres PgTextsearch.Segment

/-- `metap->indexed_type`. -/
inductive IndexedType where
  | text
  | tsvector
  deriving DecidableEq, Repr

/-- The text search machinery of the server: `to_tsvector` under the index's
configuration, applied to the datum read as text, and the lexemes of a datum that
is a `tsvector`. -/
structure Analyzer (Value Term : Type) where
  indexedType : IndexedType
  toTsvector : Value → TermVector Term
  tsvectorTerms : Value → TermVector Term

/-- Settings and the index's own constants. -/
structure Config where
  indexOid : Nat
  memtableSpillThreshold : Nat
  bulkLoadThreshold : Nat
  segmentsPerLevel : Nat
  hasTenantColumn : Bool
  deriving DecidableEq, Repr

/-- The indexed column (`none` is NULL) and the tenant column of a heap tuple. -/
structure HeapTuple (Value : Type) where
  value : Option Value
  tenantId : Nat

/-- The tenant id of a document: the tenant column, if the index has one. -/
def Config.tenantIdOf {Value : Type} (cfg : Config) (tuple : HeapTuple Value) : Nat :=
  if cfg.hasTenantColumn then tuple.tenantId else 0

/-- The heap relation: a tuple lies at a valid CTID inside the relation. -/
structure Heap (Value : Type) where
  nblocks : Nat
  tuples : ItemPointer → Option (HeapTuple Value)
  bounded : ∀ ctid tuple, tuples ctid = some tuple → ctid.blkid < nblocks
  valid : ∀ ctid tuple, tuples ctid = some tuple → ctid.isValid = true

/-- Shared state, pages and heap of one index. -/
structure IndexState (Value Term : Type) where
  memtable : Memtable Term
  totalDocs : Nat
  totalLen : Nat
  metaTotalDocs : Nat
  metaTotalLen : Nat
  levels : Levels Term
  tenantStatsPages : Option (List (Nat × TenantStatsEntry))
  docids : DocidState
  termsAddedThisXact : Nat → Nat
  heap : Heap Value

variable {Value Term : Type}

/-- An empty table. -/
def Heap.empty : Heap Value where
  nblocks := 0
  tuples := fun _ => none
  bounded := fun _ _ h => nomatch h
  valid := fun _ _ h => nomatch h

theorem firstTuple_valid : (⟨0, 1⟩ : ItemPointer).isValid = true := rfl

/-- A new tuple, extending the relation if necessary. -/
def Heap.place (heap : Heap Value) (ctid : ItemPointer) (hvalid : ctid.isValid = true)
    (tuple : HeapTuple Value) : Heap Value where
  nblocks := max heap.nblocks (ctid.blkid + 1)
  tuples := Function.update heap.tuples ctid (some tuple)
  bounded := by
    intro c t h
    by_cases hc : c = ctid
    · subst hc
      omega
    · rw [Function.update_of_ne hc] at h
      have := heap.bounded c t h
      omega
  valid := by
    intro c t h
    by_cases hc : c = ctid
    · exact hc ▸ hvalid
    · rw [Function.update_of_ne hc] at h
      exact heap.valid c t h

/-- An index built on an empty table. -/
def IndexState.init : IndexState Value Term where
  memtable := Memtable.empty
  totalDocs := 0
  totalLen := 0
  metaTotalDocs := 0
  metaTotalLen := 0
  levels := fun _ => []
  tenantStatsPages := none
  docids := DocidState.init
  termsAddedThisXact := fun _ => 0
  heap := Heap.empty

/-- The terms `tp_insert` indexes. -/
def Analyzer.insertTerms (an : Analyzer Value Term) (value : Value) : TermVector Term :=
  match an.indexedType with
  | .text => an.toTsvector value
  | .tsvector => an.tsvectorTerms value

variable [DecidableEq Term]

/-! ## Spills -/

/-- The steps of a spill. -/
inductive SpillStep where
  | writeSegment
  | clearMemtable
  | clearDocidPages
  | linkSegment
  | writeTenantStats
  | compact
  deriving DecidableEq, Repr

/-- `tp_auto_spill_if_needed`, `tp_spill_memtable` and `tp_bulk_load_spill_check`. -/
inductive SpillKind where
  | auto
  | manual
  | bulkLoad
  deriving DecidableEq, Repr

/-- The order of the steps in each of the three functions: only the automatic
spill clears the docid pages. -/
def spillSteps : SpillKind → List SpillStep
  | .auto =>
      [.writeSegment, .clearMemtable, .clearDocidPages, .linkSegment, .writeTenantStats, .compact]
  | .manual => [.writeSegment, .clearMemtable, .linkSegment, .writeTenantStats, .compact]
  | .bulkLoad => [.writeSegment, .clearMemtable, .linkSegment, .writeTenantStats, .compact]

/-- A spill under way: the index, and `segment_root` once a segment is written. -/
structure SpillProgress (Value Term : Type) where
  index : IndexState Value Term
  segment : Option (SegmentContents Term)

/-- `tp_write_tenant_stats_pages`: nothing is written without a tenant. -/
def tpWriteTenantStatsPages (cfg : Config) (s : IndexState Value Term) : IndexState Value Term :=
  if cfg.hasTenantColumn ∧ s.memtable.tenantStats.entries ≠ [] then
    let entries := s.memtable.tenantStats.entries.map fun e => (e.1, e.2)
    { s with tenantStatsPages := some entries }
  else s

/-- One step.  When no segment was written (an empty dictionary, or an error),
the remaining steps are skipped. -/
def runSpillStep (cfg : Config) (backend : Nat) (p : SpillProgress Value Term) :
    SpillStep → SpillProgress Value Term
  | .writeSegment =>
      match tpWriteSegment p.index.memtable with
      | .ok seg => { p with segment := seg }
      | .error _ => { p with segment := none }
  | .clearMemtable =>
      match p.segment with
      | none => p
      | some _ =>
          { p with index := { p.index with memtable := tpClearMemtable p.index.memtable } }
  | .clearDocidPages =>
      match p.segment with
      | none => p
      | some _ =>
          { p with index :=
              { p.index with
                docids := tpClearDocidPages p.index.docids backend cfg.indexOid } }
  | .linkSegment =>
      match p.segment with
      | none => p
      | some seg =>
          { p with index :=
              { p.index with
                levels := Segment.linkSegment p.index.levels 0 seg
                metaTotalDocs := p.index.totalDocs
                metaTotalLen := p.index.totalLen } }
  | .writeTenantStats =>
      match p.segment with
      | none => p
      | some _ => { p with index := tpWriteTenantStatsPages cfg p.index }
  | .compact =>
      match p.segment with
      | none => p
      | some _ =>
          { p with index :=
              { p.index with
                levels := tpMaybeCompactLevel cfg.segmentsPerLevel tpMaxLevels p.index.levels 0 } }

/-- A spill up to a list of its steps. -/
def runSpillSteps (cfg : Config) (backend : Nat) (steps : List SpillStep)
    (s : IndexState Value Term) : SpillProgress Value Term :=
  steps.foldl (runSpillStep cfg backend) ⟨s, none⟩

/-- A complete spill. -/
def spill (cfg : Config) (backend : Nat) (kind : SpillKind) (s : IndexState Value Term) :
    IndexState Value Term :=
  (runSpillSteps cfg backend (spillSteps kind) s).index

/-! ## Inserts and transaction end -/

/-- `tp_add_document_terms`. -/
def addDocument (s : IndexState Value Term) (backend : Nat) (ctid : ItemPointer)
    (tv : TermVector Term) (tenantId : Nat) : IndexState Value Term :=
  { s with
    memtable := tpAddDocumentTerms s.memtable ctid tv tenantId
    totalDocs := s.totalDocs + 1
    totalLen := s.totalLen + tv.docLength
    termsAddedThisXact := Function.update s.termsAddedThisXact backend
      (s.termsAddedThisXact backend + tv.entries.length) }

/-- `tp_auto_spill_if_needed`. -/
def tpAutoSpillIfNeeded (cfg : Config) (backend : Nat) (s : IndexState Value Term) :
    IndexState Value Term :=
  if cfg.memtableSpillThreshold = 0 then s
  else if s.memtable.totalPostings < cfg.memtableSpillThreshold then s
  else spill cfg backend .auto s

/-- `tp_insert`: NULL documents are skipped; a document without terms or with an
invalid CTID is not indexed, but its CTID is recorded all the same. -/
def tpInsert (cfg : Config) (an : Analyzer Value Term) (backend : Nat) (ctid : ItemPointer)
    (tuple : HeapTuple Value) (s : IndexState Value Term) : IndexState Value Term :=
  match tuple.value with
  | none => s
  | some value =>
      let tv := an.insertTerms value
      let s :=
        if tv.entries = [] ∨ ctid.isValid = false then s
        else tpAutoSpillIfNeeded cfg backend (addDocument s backend ctid tv (cfg.tenantIdOf tuple))
      { s with docids := tpAddDocidToPages s.docids backend cfg.indexOid ctid }

/-- `tp_bulk_load_spill_check` for this index. -/
def tpBulkLoadSpillCheck (cfg : Config) (backend : Nat) (s : IndexState Value Term) :
    IndexState Value Term :=
  if cfg.bulkLoadThreshold = 0 then s
  else if s.termsAddedThisXact backend < cfg.bulkLoadThreshold then s
  else spill cfg backend .bulkLoad s

omit [DecidableEq Term] in
/-- `tp_reset_bulk_load_counters`. -/
def tpResetBulkLoadCounters (backend : Nat) (s : IndexState Value Term) : IndexState Value Term :=
  { s with termsAddedThisXact := Function.update s.termsAddedThisXact backend 0 }

/-! ## Recovery -/

omit [DecidableEq Term] in
/-- What `tp_rebuild_posting_lists_from_docids` gets for a recorded CTID: the
document is fetched from the heap and its datum analysed as text.  CTIDs that are
invalid or lead to no document, and documents without terms, are skipped. -/
def fetchDocument (cfg : Config) (an : Analyzer Value Term) (heap : Heap Value)
    (ctid : ItemPointer) : Option (TermVector Term × Nat) :=
  if ctid.isValid = false then none
  else if ctid.blkid ≥ heap.nblocks then none
  else
    match heap.tuples ctid with
    | none => none
    | some tuple =>
        match tuple.value with
        | none => none
        | some value =>
            let tv := an.toTsvector value
            if tv.entries = [] then none else some (tv, cfg.tenantIdOf tuple)

/-- One CTID of `tp_rebuild_posting_lists_from_docids`. -/
def replayDocid (cfg : Config) (an : Analyzer Value Term) (heap : Heap Value)
    (mt : Memtable Term) (ctid : ItemPointer) : Memtable Term :=
  match fetchDocument cfg an heap ctid with
  | none => mt
  | some (tv, tenantId) => tpAddDocumentTerms mt ctid tv tenantId

/-- `tp_rebuild_posting_lists_from_docids`. -/
def replayMemtable (cfg : Config) (an : Analyzer Value Term) (heap : Heap Value)
    (ctids : List ItemPointer) : Memtable Term :=
  ctids.foldl (replayDocid cfg an heap) Memtable.empty

omit [DecidableEq Term] in
/-- `tp_read_tenant_stats_pages`: the entries on disk are added to the table. -/
def tpReadTenantStatsPages (mt : Memtable Term) (entries : List (Nat × TenantStatsEntry)) :
    Memtable Term :=
  let addEntry := fun (table : AList fun _ : Nat => TenantStatsEntry)
      (e : Nat × TenantStatsEntry) =>
    match table.lookup e.1 with
    | none => table.insert e.1 e.2
    | some d => table.insert e.1 ⟨d.docCount + e.2.docCount, d.totalLen + e.2.totalLen⟩
  { mt with tenantStats := entries.foldl addEntry mt.tenantStats }

omit [DecidableEq Term] in
/-- The state after a restart, before anything is read: shared memory and the
caches of the backends are gone, the pages are as they were. -/
def freshSharedState (heap : Heap Value) (s : IndexState Value Term) : IndexState Value Term :=
  { s with
    memtable := Memtable.empty
    totalDocs := 0
    totalLen := 0
    docids := { s.docids with caches := fun _ => ⟨0, none, 0, false⟩ }
    termsAddedThisXact := fun _ => 0
    heap := heap }

/-- `tp_rebuild_index_from_disk`, after a restart that finds the heap `heap`. -/
def tpRebuildIndexFromDisk (cfg : Config) (an : Analyzer Value Term) (heap : Heap Value)
    (s : IndexState Value Term) : IndexState Value Term :=
  let fresh := freshSharedState heap s
  let pages := s.docids.indexes cfg.indexOid
  if heap.nblocks = 0 ∧ 0 < s.metaTotalDocs then fresh
  else if s.metaTotalDocs = 0 ∧ pages.firstDocidPage = none ∧ s.levels 0 = [] then fresh
  else
    let mt := replayMemtable cfg an heap pages.chainDocids
    { fresh with
      memtable :=
        match cfg.hasTenantColumn, s.tenantStatsPages with
        | true, some entries => tpReadTenantStatsPages mt entries
        | _, _ => mt
      totalDocs := s.metaTotalDocs
      totalLen := s.metaTotalLen }

/-! ## Runs -/

/-- Calls of several backends on one index; `tp_insert` comes with the heap
insertion it belongs to. -/
inductive IndexOp (Value : Type) where
  | insert (backend : Nat) (ctid : ItemPointer) (tuple : HeapTuple Value)
  | spillMemtable (backend : Nat)
  | commit (backend : Nat)
  | abort (backend : Nat)

/-- One call.  The heap places a new tuple at a valid line pointer that is not in
use. -/
def indexStep (cfg : Config) (an : Analyzer Value Term) (s : IndexState Value Term) :
    IndexOp Value → Option (IndexState Value Term)
  | .insert backend ctid tuple =>
      if hvalid : ctid.isValid = true then
        match s.heap.tuples ctid with
        | some _ => none
        | none =>
            some (tpInsert cfg an backend ctid tuple
              { s with heap := s.heap.place ctid hvalid tuple })
      else none
  | .spillMemtable backend => some (spill cfg backend .manual s)
  | .commit backend =>
      some (tpResetBulkLoadCounters backend (tpBulkLoadSpillCheck cfg backend s))
  | .abort backend => some (tpResetBulkLoadCounters backend s)

/-! ## What a spill does -/

omit [DecidableEq Term] in
theorem tpWriteTenantStatsPages_frame (cfg : Config) (s : IndexState Value Term) :
    (tpWriteTenantStatsPages cfg s).memtable = s.memtable ∧
      (tpWriteTenantStatsPages cfg s).docids = s.docids ∧
      (tpWriteTenantStatsPages cfg s).levels = s.levels ∧
      (tpWriteTenantStatsPages cfg s).heap = s.heap := by
  unfold tpWriteTenantStatsPages
  split <;> exact ⟨rfl, rfl, rfl, rfl⟩

theorem runSpillStep_none {cfg : Config} {backend : Nat} {s : IndexState Value Term}
    (h : ∀ seg, tpWriteSegment s.memtable ≠ .ok (some seg)) (step : SpillStep) :
    runSpillStep cfg backend ⟨s, none⟩ step = ⟨s, none⟩ := by
  cases step with
  | writeSegment =>
      unfold runSpillStep
      cases hw : tpWriteSegment s.memtable with
      | error e => rfl
      | ok seg =>
          cases seg with
          | none => rfl
          | some seg => exact absurd hw (h seg)
  | clearMemtable => rfl
  | clearDocidPages => rfl
  | linkSegment => rfl
  | writeTenantStats => rfl
  | compact => rfl

/-- Without a written segment no step does anything. -/
theorem runSpillSteps_of_not_writes {cfg : Config} {backend : Nat} {s : IndexState Value Term}
    (h : ∀ seg, tpWriteSegment s.memtable ≠ .ok (some seg)) (steps : List SpillStep) :
    runSpillSteps cfg backend steps s = ⟨s, none⟩ := by
  unfold runSpillSteps
  induction steps with
  | nil => rfl
  | cons step rest ih =>
      rw [List.foldl_cons, runSpillStep_none h]
      exact ih

theorem spill_of_not_writes {cfg : Config} {backend : Nat} (kind : SpillKind)
    {s : IndexState Value Term} (h : ∀ seg, tpWriteSegment s.memtable ≠ .ok (some seg)) :
    spill cfg backend kind s = s := by
  rw [spill, runSpillSteps_of_not_writes h]

/-- **A complete spill** that writes a segment empties the memtable and links the
segment, whatever its kind. -/
theorem spill_of_writes (cfg : Config) (backend : Nat) (kind : SpillKind)
    {s : IndexState Value Term} {seg : SegmentContents Term}
    (h : tpWriteSegment s.memtable = .ok (some seg)) :
    (spill cfg backend kind s).memtable = tpClearMemtable s.memtable ∧
      (spill cfg backend kind s).levels = tpMaybeCompactLevel cfg.segmentsPerLevel tpMaxLevels
        (Segment.linkSegment s.levels 0 seg) 0 ∧
      (spill cfg backend kind s).heap = s.heap := by
  cases kind <;>
    simp [spill, runSpillSteps, spillSteps, runSpillStep, h, tpWriteTenantStatsPages_frame]

/-- A spill does not touch the heap. -/
theorem spill_heap (cfg : Config) (backend : Nat) (kind : SpillKind) (s : IndexState Value Term) :
    (spill cfg backend kind s).heap = s.heap := by
  by_cases hwrites : ∃ seg, tpWriteSegment s.memtable = .ok (some seg)
  · obtain ⟨seg, hseg⟩ := hwrites
    exact (spill_of_writes cfg backend kind hseg).2.2
  · rw [spill_of_not_writes kind fun seg hseg => hwrites ⟨seg, hseg⟩]

/-! ## What replay restores -/

omit [DecidableEq Term] in
theorem fetchDocument_eq_some {cfg : Config} {an : Analyzer Value Term} {heap : Heap Value}
    {ctid : ItemPointer} {tuple : HeapTuple Value} {value : Value}
    (htuple : heap.tuples ctid = some tuple) (hvalue : tuple.value = some value)
    (hterms : (an.toTsvector value).entries ≠ []) :
    fetchDocument cfg an heap ctid = some (an.toTsvector value, cfg.tenantIdOf tuple) := by
  have hvalid := heap.valid ctid tuple htuple
  have hbound := heap.bounded ctid tuple htuple
  unfold fetchDocument
  rw [if_neg (by simp [hvalid]), if_neg (by omega)]
  simp only [htuple, hvalue, if_neg hterms]

/-- The postings replay adds for one CTID. -/
def replayedPostings (cfg : Config) (an : Analyzer Value Term) (heap : Heap Value) (term : Term)
    (ctid : ItemPointer) : List MemPosting :=
  match fetchDocument cfg an heap ctid with
  | none => []
  | some (tv, tenantId) => documentPostings ctid tv.entries tenantId term

theorem postings_replayDocid (cfg : Config) (an : Analyzer Value Term) (heap : Heap Value)
    (mt : Memtable Term) (ctid : ItemPointer) (term : Term) :
    (replayDocid cfg an heap mt ctid).postings term =
      mt.postings term ++ replayedPostings cfg an heap term ctid := by
  unfold replayDocid replayedPostings
  cases fetchDocument cfg an heap ctid with
  | none => simp
  | some doc => exact postings_addDocumentTerms mt ctid doc.1 doc.2 term

/-- **Replay** appends the postings of the recorded documents, in chain order. -/
theorem postings_replay (cfg : Config) (an : Analyzer Value Term) (heap : Heap Value)
    (ctids : List ItemPointer) (term : Term) :
    (replayMemtable cfg an heap ctids).postings term =
      ctids.flatMap (replayedPostings cfg an heap term) := by
  have hfold : ∀ mt : Memtable Term,
      (ctids.foldl (replayDocid cfg an heap) mt).postings term =
        mt.postings term ++ ctids.flatMap (replayedPostings cfg an heap term) := by
    induction ctids with
    | nil => intro mt; simp
    | cons c rest ih =>
        intro mt
        rw [List.foldl_cons, ih, postings_replayDocid, List.flatMap_cons, List.append_assoc]
  rw [replayMemtable, hfold, postings_empty, List.nil_append]

theorem docLengths_replay (cfg : Config) (an : Analyzer Value Term) (heap : Heap Value)
    (ctids : List ItemPointer) (ctid : ItemPointer) :
    ((replayMemtable cfg an heap ctids).docLengths.lookup ctid).isSome ↔
      ctid ∈ ctids ∧ (fetchDocument cfg an heap ctid).isSome := by
  have hfold : ∀ mt : Memtable Term,
      ((ctids.foldl (replayDocid cfg an heap) mt).docLengths.lookup ctid).isSome ↔
        (mt.docLengths.lookup ctid).isSome ∨
          ctid ∈ ctids ∧ (fetchDocument cfg an heap ctid).isSome := by
    induction ctids with
    | nil => intro mt; simp
    | cons c rest ih =>
        intro mt
        rw [List.foldl_cons, ih, replayDocid]
        cases hc : fetchDocument cfg an heap c with
        | none =>
            by_cases heq : ctid = c
            · subst heq
              simp [hc]
            · simp [heq]
        | some doc =>
            rw [docLengths_addDocumentTerms]
            by_cases heq : ctid = c
            · subst heq
              simp [hc, AList.lookup_insert]
            · simp [heq, AList.lookup_insert_ne heq]
  rw [replayMemtable, hfold]
  simp [Memtable.empty]

/-- Every replayed posting carries the CTID it was recorded under. -/
theorem ctid_of_mem_replayedPostings {cfg : Config} {an : Analyzer Value Term}
    {heap : Heap Value} {term : Term} {ctid : ItemPointer} {p : MemPosting}
    (hp : p ∈ replayedPostings cfg an heap term ctid) : p.ctid = ctid := by
  unfold replayedPostings at hp
  cases hf : fetchDocument cfg an heap ctid with
  | none => simp [hf] at hp
  | some doc =>
      simp only [hf] at hp
      obtain ⟨f, -, rfl⟩ := mem_documentPostings.1 hp
      rfl

end PgTextsearch.State
