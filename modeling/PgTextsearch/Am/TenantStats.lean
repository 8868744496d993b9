import PgTextsearch.Am.TenantTables

/-!
# Tenant statistics (`memtable/tenant_stats.c`, `query/score.c`, `state/state.c`)

The tenant statistics live in a table of the memtable, which runtime spills keep and
write to pages of their own; a serial build puts them aside at each spill and hands
over what it put aside, and recovery adds the pages to what it replays.

## Main results

* `tenant_stats_exact` — the statistics used for scoring are exact in every state of
  every run in which no build ends with a tenant document in its memtable and every
  restart finds each tenant document either counted on the pages or recorded.
* `tenant_stats_inexact` — builds and restarts that do not meet this.
-/

namespace PgTextsearch.Am

open PgTextsearch.Postgres PgTextsearch.Segment PgTextsearch.State PgTextsearch.Verified

variable {Value Term : Type}

/-! ## Statistics used for scoring -/

/-- The statistics `tp_score_documents` takes for a query with a tenant filter:
`none` when it returns without scoring anything.  Without a table it falls back to
the corpus statistics. -/
def scoringStats (s : IndexState Value Term) (tenantId : Nat) : Option (Nat × Nat) :=
  if sharedTotalDocs s ≤ 0 then none
  else
    match s.memtable.tenantStats.lookup tenantId with
    | some e => if e.docCount % 2 ^ 32 = 0 then none else some (e.docCount % 2 ^ 32, e.totalLen)
    | none =>
        if s.memtable.tenantStats.entries = [] then some ((sharedTotalDocs s).toNat, s.totalLen)
        else none

/-- **Exact tenant statistics**: every tenant is scored with the number and the
length sum of its documents; a tenant without documents is not scored. -/
def TenantStatsExact (cfg : Config) (an : Analyzer Value Term) (s : IndexState Value Term) :
    Prop :=
  cfg.hasTenantColumn = true → ∀ tenantId, tenantId ≠ 0 →
    scoringStats s tenantId =
      let stats := tenantDocStats cfg an s.heap (corpus s) tenantId
      if stats.1 = 0 then none else some stats

variable [DecidableEq Term]

/-! ## Conditions on the steps -/

omit [DecidableEq Term] in
/-- One document of a serial build: the postings in its memtable and the documents
there, which a spill takes away. -/
def leftStep (cfg : Config) (an : Analyzer Value Term) (heap : Heap Value)
    (acc : Nat × List ItemPointer) (ctid : ItemPointer) : Nat × List ItemPointer :=
  match documentAt an heap ctid with
  | none => acc
  | some tv =>
      let postings := acc.1 + tv.entries.length
      if cfg.memtableSpillThreshold ≠ 0 ∧ cfg.memtableSpillThreshold ≤ postings then (0, [])
      else (postings, acc.2 ++ [ctid])

omit [DecidableEq Term] in
/-- The documents of a scan after the last one at which the memtable reaches the
spill threshold: what is left for the final spill of a serial build. -/
def leftForFinalSpill (cfg : Config) (an : Analyzer Value Term) (heap : Heap Value)
    (scan : List ItemPointer) : List ItemPointer :=
  (scan.foldl (leftStep cfg an heap) (0, [])).2

/-- A restart counts every tenant document once: the metapage knows that there are
documents, the tenant documents outside the segments are recorded, recorded tenant
documents are indexed, and the pages and the recorded documents make up the table. -/
structure RestartCounts (cfg : Config) (an : Analyzer Value Term) (s : IndexState Value Term) :
    Prop where
  totals : s.metaTotalDocs = 0 → s.totalDocs = 0
  recorded : ∀ ctid ∈ memtableDocs s.memtable, ctid ∉ linkedDocs s.levels →
    tenantAt cfg s.heap ctid ≠ 0 → ctid ∈ (s.docids.indexes cfg.indexOid).chainDocids ∧
      (fetchDocument cfg an s.heap ctid).isSome
  indexed : ∀ ctid ∈ (s.docids.indexes cfg.indexOid).chainDocids,
    (fetchDocument cfg an s.heap ctid).isSome → tenantAt cfg s.heap ctid ≠ 0 → ctid ∈ corpus s
  once : ∀ tenantId, tenantId ≠ 0 → entryTotals (s.tenantStatsPages.getD []) tenantId +
      tenantTotals (replayMemtable cfg an s.heap
        (s.docids.indexes cfg.indexOid).chainDocids).tenantStats tenantId =
    tenantTotals s.memtable.tenantStats tenantId

/-- The step keeps the tenant statistics.  Parallel builds are not considered. -/
def TenantsKept (cfg : Config) (an : Analyzer Value Term) (db : Database Value Term) :
    DatabaseOp Value → Prop
  | .call op => (∀ generation, db.cached (callBackend op) = some generation →
      generation = db.generation) ∧ db.index.totalDocs + 1 < 2 ^ 31 ∧
      (corpus db.index).card + 1 < 2 ^ 31 ∧
      ∀ backend ctid tuple, op = .insert backend ctid tuple → (indexedTerms an tuple).isSome →
        cfg.tenantIdOf tuple = 0 → db.index.memtable.tenantStats.entries ≠ []
  | .attach _ => True
  | .build _ scan => (scanDocs an db.index.heap scan).card < 2 ^ 31 ∧
      (∀ ctid ∈ leftForFinalSpill cfg an db.index.heap scan,
        tenantAt cfg db.index.heap ctid = 0) ∧
      ((scanDocs an db.index.heap scan).Nonempty →
        ∃ ctid ∈ scanDocs an db.index.heap scan, tenantAt cfg db.index.heap ctid ≠ 0)
  | .buildParallel _ _ => False
  | .restart _ => RestartCounts cfg an db.index

/-! ## The invariant -/

/-- The table is exact, it is there as soon as a document is counted, and the pages
are those of an earlier table of the same documents. -/
structure TenantInv (cfg : Config) (an : Analyzer Value Term) (s : IndexState Value Term) :
    Prop extends TableExact cfg an s where
  cover : TermsCover s.levels
  table : 0 < s.totalDocs ↔ s.memtable.tenantStats.entries ≠ []
  stored : 0 < s.metaTotalDocs → (linkedDocs s.levels).Nonempty ∧ 0 < s.totalDocs
  pages : ∀ entries, s.tenantStatsPages = some entries → Counting entries
  loaded : s.memtable.tenantStats.entries = [] → s.tenantStatsPages = none
  bounded : s.totalDocs < 2 ^ 31 ∧ s.metaTotalDocs < 2 ^ 31
  small : ∀ tenantId, tenantId ≠ 0 →
    (tenantDocStats cfg an s.heap (corpus s) tenantId).1 < 2 ^ 31

omit [DecidableEq Term] in
/-- The invariant gives exact statistics. -/
theorem TenantInv.scoring {cfg : Config} {an : Analyzer Value Term} {s : IndexState Value Term}
    (h : TenantInv cfg an s) {tenantId : Nat} (htenant : tenantId ≠ 0) :
    scoringStats s tenantId =
      let stats := tenantDocStats cfg an s.heap (corpus s) tenantId
      if stats.1 = 0 then none else some stats := by
  have hexact := h.exact tenantId htenant
  have hsmall := h.small tenantId htenant
  have hshared : sharedTotalDocs s = s.totalDocs := int32_of_lt h.bounded.1
  unfold scoringStats
  rw [hshared]
  by_cases hzero : s.totalDocs = 0
  · have hempty : s.memtable.tenantStats.entries = [] := by
      by_contra hne
      have := h.table.2 hne
      omega
    rw [(h.counting.entries_eq_nil.1 hempty) tenantId htenant] at hexact
    rw [if_pos (by omega), ← hexact]
    rfl
  · have hne := h.table.1 (by omega)
    rw [if_neg (by omega)]
    rw [tenantTotals] at hexact
    cases hl : s.memtable.tenantStats.lookup tenantId with
    | none =>
        rw [hl] at hexact
        simp only at hexact
        simp only [← hexact, if_neg hne]
        rfl
    | some e =>
        rw [hl] at hexact
        simp only at hexact
        rw [← hexact] at hsmall ⊢
        have hmod : e.docCount % 2 ^ 32 = e.docCount := Nat.mod_eq_of_lt (by omega)
        simp only [hmod]

omit [DecidableEq Term] in
theorem tenantInv_start (cfg : Config) (an : Analyzer Value Term) (heap : Heap Value) :
    TenantInv cfg an (Database.start heap : Database Value Term).index := by
  have hcorpus : corpus (Database.start heap : Database Value Term).index = ∅ := by
    simp [corpus, Database.start, IndexState.init]
  constructor
  · exact tableExact_of_empty hcorpus rfl
  · intro seg hseg
    simp [Database.start, IndexState.init, linkedSegments] at hseg
  · simp [Database.start, IndexState.init, Memtable.empty]
  · simp [Database.start, IndexState.init]
  · intro entries hentries
    cases hentries
  · exact fun _ => rfl
  · simp [Database.start, IndexState.init]
  · intro tenantId _
    rw [hcorpus]
    exact Nat.two_pow_pos 31

omit [DecidableEq Term] in
/-- The invariant does not look at the docid pages. -/
theorem TenantInv.congr {cfg : Config} {an : Analyzer Value Term} {s s' : IndexState Value Term}
    (h : TenantInv cfg an s) (hmt : s'.memtable = s.memtable) (hlevels : s'.levels = s.levels)
    (htd : s'.totalDocs = s.totalDocs) (hmd : s'.metaTotalDocs = s.metaTotalDocs)
    (hpages : s'.tenantStatsPages = s.tenantStatsPages) (hheap : s'.heap = s.heap) :
    TenantInv cfg an s' := by
  have hcorpus : corpus s' = corpus s := by rw [corpus, corpus, hmt, hlevels]
  constructor
  · exact h.toTableExact.congr hcorpus (congrArg Memtable.tenantStats hmt) hheap
  · rw [hlevels]
    exact h.cover
  · rw [hmt, htd]
    exact h.table
  · rw [hmd, htd, hlevels]
    exact h.stored
  · rw [hpages]
    exact h.pages
  · rw [hmt, hpages]
    exact h.loaded
  · rw [htd, hmd]
    exact h.bounded
  · rw [hcorpus, hheap]
    exact h.small

omit [DecidableEq Term] in
/-- A counted document is in the index. -/
theorem TenantInv.corpus_nonempty {cfg : Config} {an : Analyzer Value Term}
    {s : IndexState Value Term} (h : TenantInv cfg an s) (hpos : 0 < s.totalDocs) :
    (corpus s).Nonempty := by
  by_contra hnone
  rw [Finset.not_nonempty_iff_eq_empty] at hnone
  apply h.table.1 hpos
  rw [h.counting.entries_eq_nil]
  intro tenantId htenant
  rw [h.exact tenantId htenant, hnone]
  rfl

omit [DecidableEq Term] in
theorem TenantInv.spilled {cfg : Config} {an : Analyzer Value Term} {s s' : IndexState Value Term}
    (h : TenantInv cfg an s) (hs : Spilled cfg s s') : TenantInv cfg an s' := by
  have hcorpus := hs.corpus_eq
  have htable : s'.memtable.tenantStats = s.memtable.tenantStats := by
    rw [hs.memtable]
    rfl
  have hpages := hs.tenantPages
  unfold tpWriteTenantStatsPages at hpages
  constructor
  · exact h.toTableExact.spilled hs
  · exact hs.cover
  · rw [htable, hs.totalDocs]
    exact h.table
  · rw [hs.docs, hs.metaTotalDocs, hs.totalDocs]
    exact fun hpos => ⟨h.corpus_nonempty hpos, hpos⟩
  · intro entries hentries
    rw [hpages] at hentries
    split at hentries
    · cases hentries
      exact h.counting.collect
    · exact h.pages entries hentries
  · intro hempty
    rw [htable] at hempty
    rw [hpages, if_neg fun hcond => hcond.2 hempty]
    exact h.loaded hempty
  · rw [hs.totalDocs, hs.metaTotalDocs]
    exact ⟨h.bounded.1, h.bounded.1⟩
  · rw [hcorpus, hs.heap]
    exact h.small

/-! ## Inserts -/

omit [DecidableEq Term] in
theorem TenantInv.place {cfg : Config} {an : Analyzer Value Term} {s : IndexState Value Term}
    (h : TenantInv cfg an s) {ctid : ItemPointer} (hfree : s.heap.tuples ctid = none)
    (hvalid : ctid.isValid = true) (tuple : HeapTuple Value) :
    TenantInv cfg an { s with heap := s.heap.place ctid hvalid tuple } := by
  have hstats : ∀ tenantId, tenantDocStats cfg an (s.heap.place ctid hvalid tuple) (corpus s)
      tenantId = tenantDocStats cfg an s.heap (corpus s) tenantId :=
    tenantDocStats_place h.inHeap hfree hvalid tuple
  refine ⟨h.toTableExact.place hfree hvalid tuple, h.cover, h.table, h.stored, h.pages, h.loaded,
    h.bounded, ?_⟩
  intro tenantId htenant
  exact (hstats tenantId).symm ▸ h.small tenantId htenant

/-- **A document** whose tenant is counted, or for which the table exists already,
keeps the invariant. -/
theorem TenantInv.addDocument {cfg : Config} {an : Analyzer Value Term}
    {s : IndexState Value Term} (h : TenantInv cfg an s) {ctid : ItemPointer}
    (hnew : ctid ∉ corpus s) {tuple : HeapTuple Value} (htuple : s.heap.tuples ctid = some tuple)
    {tv : TermVector Term} (hterms : indexedTerms an tuple = some tv)
    (htenant : cfg.tenantIdOf tuple = 0 → s.memtable.tenantStats.entries ≠ [])
    (hbound : s.totalDocs + 1 < 2 ^ 31) (hsmall : (corpus s).card + 1 < 2 ^ 31) (backend : Nat) :
    TenantInv cfg an (State.addDocument s backend ctid tv (cfg.tenantIdOf tuple)) := by
  have hcorpus := corpus_addDocument s backend ctid tv (cfg.tenantIdOf tuple)
  have hexact := h.toTableExact.addDocument hnew htuple hterms backend
  have htable : (State.addDocument s backend ctid tv
      (cfg.tenantIdOf tuple)).memtable.tenantStats.entries ≠ [] := by
    by_cases hzero : cfg.tenantIdOf tuple = 0
    · show (tpAddDocumentTerms s.memtable ctid tv (cfg.tenantIdOf tuple)).tenantStats.entries ≠ []
      rw [hzero, tenantStats_addDocumentTerms_zero]
      exact htenant hzero
    · rw [Ne, hexact.counting.entries_eq_nil]
      intro hall
      have hnone := hall _ hzero
      rw [hexact.exact _ hzero, hcorpus, tenantDocStats_eq_zero_iff] at hnone
      have hat : tenantAt cfg s.heap ctid = cfg.tenantIdOf tuple := by
        rw [tenantAt, htuple]
        rfl
      exact hnone ctid (Finset.mem_insert_self ..) hat
  constructor
  · exact hexact
  · exact h.cover
  · exact ⟨fun _ => htable, fun _ => Nat.succ_pos _⟩
  · exact fun hpos => ⟨(h.stored hpos).1, Nat.succ_pos _⟩
  · exact h.pages
  · exact fun hempty => absurd hempty htable
  · exact ⟨hbound, h.bounded.2⟩
  · rw [hcorpus]
    intro tenantId _
    have hle := tenantDocStats_fst_le cfg an s.heap (insert ctid (corpus s)) tenantId
    rw [Finset.card_insert_of_notMem hnew] at hle
    exact Nat.lt_of_le_of_lt hle hsmall

/-- **Every call** keeps the invariant. -/
theorem TenantInv.indexStep {cfg : Config} {an : Analyzer Value Term}
    {s s' : IndexState Value Term} (h : TenantInv cfg an s) {op : IndexOp Value}
    (hbound : s.totalDocs + 1 < 2 ^ 31) (hsmall : (corpus s).card + 1 < 2 ^ 31)
    (htenant : ∀ backend ctid tuple, op = .insert backend ctid tuple →
      (indexedTerms an tuple).isSome → cfg.tenantIdOf tuple = 0 →
        s.memtable.tenantStats.entries ≠ [])
    (hstep : indexStep cfg an s op = some s') : TenantInv cfg an s' := by
  have hkept : KeptByCalls cfg an op s (TenantInv cfg an) := by
    constructor
    · exact fun s hs => hs.cover
    · exact fun ctid tuple hvalid hfree => h.place hfree hvalid tuple
    · intro backend ctid tuple tv hvalid hfree hop hterms
      have htuple : (s.heap.place ctid hvalid tuple).tuples ctid = some tuple :=
        Function.update_self ..
      exact (h.place hfree hvalid tuple).addDocument (h.toTableExact.notMem_of_free hfree) htuple
        hterms (htenant backend ctid tuple hop (by rw [hterms]; rfl)) hbound hsmall backend
    · exact fun s s' hs hspilled => hs.spilled hspilled
    · exact fun s backend ctid tuple hs _ _ => hs.congr rfl rfl rfl rfl rfl rfl
    · exact fun s counters hs => hs.congr rfl rfl rfl rfl rfl rfl
  exact hkept.indexStep h hstep

/-! ## The serial build -/

/-- The invariant of the scan: what was put aside and the table of the private area
together count the documents found so far, and the private table is empty while no
tenant document is left for the final spill. -/
structure TenantScan (cfg : Config) (an : Analyzer Value Term) (heap : Heap Value)
    (done : List ItemPointer) (b : SerialBuild Value Term) : Prop where
  scan : ScanInvariant cfg an heap done b.index
  postings : b.index.memtable.totalPostings = (done.foldl (leftStep cfg an heap) (0, [])).1
  left : (∀ ctid ∈ (done.foldl (leftStep cfg an heap) (0, [])).2, tenantAt cfg heap ctid = 0) →
    b.index.memtable.tenantStats.entries = []
  totals : ∀ tenantId, tenantId ≠ 0 → tenantTotals b.accum tenantId +
    tenantTotals b.index.memtable.tenantStats tenantId =
      tenantDocStats cfg an heap (scanDocs an heap done) tenantId
  accum : CountingTable b.accum
  table : CountingTable b.index.memtable.tenantStats
  pages : b.index.tenantStatsPages = none

omit [DecidableEq Term] in
theorem tenantScan_start (cfg : Config) (an : Analyzer Value Term) (backend : Nat)
    (s : IndexState Value Term) :
    TenantScan cfg an s.heap [] (tpCreateBuildIndexState backend (newIndexFile cfg backend s)) where
  scan := scanInvariant_start cfg an backend s
  postings := rfl
  left := fun _ => rfl
  totals := fun _ _ => rfl
  accum := countingTable_empty
  table := countingTable_empty
  pages := rfl

/-- **One tuple** of the scan. -/
theorem TenantScan.processDocument {cfg : Config} {an : Analyzer Value Term} {heap : Heap Value}
    {backend : Nat} {done : List ItemPointer} {b b' : SerialBuild Value Term}
    {ctid : ItemPointer} (hinv : TenantScan cfg an heap done b) (hnew : ctid ∉ done)
    (h : tpProcessDocument cfg an backend b ctid = .ok b') :
    TenantScan cfg an heap (done ++ [ctid]) b' := by
  have hscan := hinv.scan.processDocument hnew h
  have hheap := hinv.scan.heap
  have hleft : (done ++ [ctid]).foldl (leftStep cfg an heap) (0, []) =
      leftStep cfg an heap (done.foldl (leftStep cfg an heap) (0, [])) ctid := by
    rw [List.foldl_append]
    rfl
  rcases tpProcessDocument_cases h with ⟨hnone, rfl⟩ | ⟨tuple, tv, added, htuple, hterms, rfl, hb⟩
  · rw [hheap] at hnone
    have hsame : leftStep cfg an heap (done.foldl (leftStep cfg an heap) (0, [])) ctid =
        done.foldl (leftStep cfg an heap) (0, []) := by
      rw [leftStep, hnone]
    rw [hsame] at hleft
    refine ⟨hscan, hleft ▸ hinv.postings, hleft ▸ hinv.left, ?_, hinv.accum, hinv.table, hinv.pages⟩
    rw [scanDocs_append_none done hnone]
    exact hinv.totals
  · have hdoc : documentAt an heap ctid = some tv := by
      rw [← hheap, documentAt_eq htuple]
      exact hterms
    have hat : tenantAt cfg heap ctid = cfg.tenantIdOf tuple := by
      rw [tenantAt, ← hheap, htuple]
      rfl
    have hlen : documentLength an heap ctid = tv.docLength := by
      rw [documentLength, hdoc]
      rfl
    have hout : ctid ∉ scanDocs an heap done := fun hmem => hnew (mem_scanDocs.1 hmem).1
    have hpostings : (addDocument b.index backend ctid tv
        (cfg.tenantIdOf tuple)).memtable.totalPostings =
          (done.foldl (leftStep cfg an heap) (0, [])).1 + tv.entries.length := by
      rw [← hinv.postings]
      exact totalPostings_addDocumentTerms ..
    have htotals : ∀ tenantId, tenantId ≠ 0 → tenantTotals b.accum tenantId +
        tenantTotals (addDocument b.index backend ctid tv
          (cfg.tenantIdOf tuple)).memtable.tenantStats tenantId =
          tenantDocStats cfg an heap (scanDocs an heap (done ++ [ctid])) tenantId := by
      intro tenantId hne
      rw [scanDocs_append_some hdoc, tenantDocStats_insert hout, ← hinv.totals tenantId hne, hat,
        hlen, addDocument, tenantTotals_addDocumentTerms _ _ _ _ hne, add_assoc]
    have htable : CountingTable (addDocument b.index backend ctid tv
        (cfg.tenantIdOf tuple)).memtable.tenantStats :=
      hinv.table.addDocumentTerms ctid tv (cfg.tenantIdOf tuple)
    rw [hpostings] at hb
    simp only [leftStep, hdoc] at hleft
    split at hb
    case isFalse hstay =>
      rw [if_neg hstay] at hleft
      subst hb
      refine ⟨hscan, ?_, ?_, htotals, hinv.accum, htable, hinv.pages⟩
      · rw [hleft]
        exact hpostings
      · rw [hleft]
        intro hall
        have hzero : cfg.tenantIdOf tuple = 0 := by
          rw [← hat]
          exact hall ctid (List.mem_append_right _ (List.mem_singleton_self ctid))
        have hempty := hinv.left fun c hc => hall c (List.mem_append_left _ hc)
        show (tpAddDocumentTerms b.index.memtable ctid tv
          (cfg.tenantIdOf tuple)).tenantStats.entries = []
        rw [hzero, tenantStats_addDocumentTerms_zero]
        exact hempty
    case isTrue hspill =>
      rw [if_pos hspill] at hleft
      rcases buildSpill_cases hb hinv.scan.cover with ⟨-, hnil⟩ | ⟨hmt, -, -, -, -, -, -, hpages,
        haccum⟩
      · have hfilled := filled_addDocumentTerms b.index.memtable ctid (indexedTerms_ne_nil hterms)
          (cfg.tenantIdOf tuple)
        have hempty := hfilled.terms hnil
        have hmem : ctid ∈ memtableDocs (tpAddDocumentTerms b.index.memtable ctid tv
            (cfg.tenantIdOf tuple)) := by
          rw [memtableDocs_addDocumentTerms]
          exact Finset.mem_insert_self ..
        rw [hempty] at hmem
        cases hmem
      · refine ⟨hscan, ?_, ?_, ?_, ?_, ?_, hpages.trans hinv.pages⟩
        · rw [hmt, hleft]
          rfl
        · intro _
          rw [hmt]
          rfl
        · intro tenantId hne
          rw [hmt, haccum, tenantTotals_foldl, entryTotals_collect]
          exact (add_zero _).trans (htotals tenantId hne)
        · rw [haccum]
          exact CountingTable.foldl htable.collect hinv.accum
        · rw [hmt]
          exact countingTable_empty

/-- **A build** that leaves no tenant document for the final spill. -/
theorem tenantInv_build {cfg : Config} {an : Analyzer Value Term} {backend : Nat}
    {scan : List ItemPointer} {s s' : IndexState Value Term} (hnodup : scan.Nodup)
    (h : tpBuild cfg an backend scan s = .ok s')
    (hbound : (scanDocs an s.heap scan).card < 2 ^ 31)
    (hleft : ∀ ctid ∈ leftForFinalSpill cfg an s.heap scan, tenantAt cfg s.heap ctid = 0)
    (htenant : (scanDocs an s.heap scan).Nonempty →
      ∃ ctid ∈ scanDocs an s.heap scan, tenantAt cfg s.heap ctid ≠ 0) :
    TenantInv cfg an s' := by
  obtain ⟨hfile, hmt, hcounted⟩ := tpBuild_spec hnodup h
  have hcorpus : corpus s' = scanDocs an s.heap scan := by
    rw [corpus, hmt, hfile.docs, Finset.empty_union]
  obtain ⟨b, hscan, h⟩ := bind_eq_ok h
  obtain ⟨spilled, hfinal, h⟩ := bind_eq_ok h
  cases h
  have hinv := scan_invariant
    (fun _ _ _ _ (hinv : TenantScan cfg an s.heap _ _) => hinv.processDocument)
    (tenantScan_start cfg an backend s) hnodup hscan
  have hempty : b.index.memtable.tenantStats.entries = [] := hinv.left hleft
  have hpages : spilled.tenantStatsPages = none := by
    obtain ⟨hmt', -, hlevels, -⟩ := tpBuildFinalizeAndUpdateStats_frame cfg b.index
    obtain ⟨-, -, hframe⟩ := finalSpill_effect (hmt' ▸ hinv.scan.filled)
      (hlevels ▸ hinv.scan.cover) hfinal
    rw [hframe]
    show (tpBuildFinalizeAndUpdateStats cfg b.index).tenantStatsPages = none
    rw [tpBuildFinalizeAndUpdateStats, tpWriteTenantStatsPages,
      if_neg fun hcond => hcond.2 hempty]
    exact hinv.pages
  have hexact : ∀ tenantId, tenantId ≠ 0 → tenantTotals b.accum tenantId =
      tenantDocStats cfg an s.heap (scanDocs an s.heap scan) tenantId := by
    intro tenantId hne
    rw [← hinv.totals tenantId hne, (hinv.table.entries_eq_nil.1 hempty) tenantId hne, add_zero]
  constructor
  · constructor
    · rw [hcorpus, hfile.heap]
      exact fun c hc => isSome_of_documentAt (mem_scanDocs.1 hc).2
    · rw [hcorpus, hfile.heap]
      exact hexact
    · exact hinv.accum
  · exact hfile.cover
  · rw [hcounted.count, Finset.card_pos]
    show _ ↔ b.accum.entries ≠ []
    rw [Ne, hinv.accum.entries_eq_nil]
    constructor
    · intro hnonempty hall
      obtain ⟨c, hc, hne⟩ := htenant hnonempty
      have := hall _ hne
      rw [hexact _ hne, tenantDocStats_eq_zero_iff] at this
      exact this c hc rfl
    · intro hne
      by_contra hnone
      rw [Finset.not_nonempty_iff_eq_empty] at hnone
      apply hne
      intro tenantId htid
      rw [hexact tenantId htid, hnone]
      rfl
  · rw [hfile.stored.count, hfile.docs, hcounted.count]
    exact fun hpos => ⟨Finset.card_pos.1 hpos, hpos⟩
  · intro entries hentries
    cases hpages.symm.trans hentries
  · exact fun _ => hpages
  · rw [hcounted.count, hfile.stored.count]
    exact ⟨hbound, hbound⟩
  · rw [hcorpus, hfile.heap]
    intro tenantId _
    exact Nat.lt_of_le_of_lt (tenantDocStats_fst_le ..) hbound

/-! ## Restarts -/

theorem countingTable_replay (cfg : Config) (an : Analyzer Value Term) (heap : Heap Value)
    (ctids : List ItemPointer) : CountingTable (replayMemtable cfg an heap ctids).tenantStats := by
  have hfold : ∀ mt : Memtable Term, CountingTable mt.tenantStats →
      CountingTable (ctids.foldl (replayDocid cfg an heap) mt).tenantStats := by
    induction ctids with
    | nil => exact fun _ h => h
    | cons c rest ih =>
        intro mt h
        apply ih
        unfold replayDocid
        cases fetchDocument cfg an heap c with
        | none => exact h
        | some doc => exact h.addDocumentTerms c doc.1 doc.2
  exact hfold _ countingTable_empty

/-- What recovery makes of the tenant statistics. -/
theorem rebuild_tenantStats {cfg : Config} {an : Analyzer Value Term} {s : IndexState Value Term}
    (hcol : cfg.hasTenantColumn = true) (hheap : ¬ (s.heap.nblocks = 0 ∧ 0 < s.metaTotalDocs))
    (hsome : ¬ (s.metaTotalDocs = 0 ∧ (s.docids.indexes cfg.indexOid).firstDocidPage = none ∧
      s.levels 0 = [])) :
    (tpRebuildIndexFromDisk cfg an s.heap s).memtable.tenantStats =
      (s.tenantStatsPages.getD []).foldl addTenantEntry
        (replayMemtable cfg an s.heap
          (s.docids.indexes cfg.indexOid).chainDocids).tenantStats ∧
    memtableDocs (tpRebuildIndexFromDisk cfg an s.heap s).memtable =
      memtableDocs (replayMemtable cfg an s.heap
        (s.docids.indexes cfg.indexOid).chainDocids) ∧
    (tpRebuildIndexFromDisk cfg an s.heap s).totalDocs = s.metaTotalDocs := by
  simp only [tpRebuildIndexFromDisk, if_neg hheap, if_neg hsome, hcol]
  cases s.tenantStatsPages with
  | none => exact ⟨rfl, rfl, trivial⟩
  | some entries => exact ⟨rfl, rfl, trivial⟩

omit [DecidableEq Term] in
theorem isSome_of_fetchDocument {cfg : Config} {an : Analyzer Value Term} {heap : Heap Value}
    {ctid : ItemPointer} (h : (fetchDocument cfg an heap ctid).isSome) :
    (heap.tuples ctid).isSome := by
  unfold fetchDocument at h
  split at h
  · cases h
  split at h
  · cases h
  cases htuple : heap.tuples ctid with
  | none => simp [htuple] at h
  | some tuple => rfl

omit [DecidableEq Term] in
/-- A restart with nothing to recover: the index has no tenant document. -/
theorem TenantInv.restart_nothing {cfg : Config} {an : Analyzer Value Term}
    {s : IndexState Value Term} (h : TenantInv cfg an s) (hzero : s.totalDocs = 0) :
    TenantInv cfg an (freshSharedState s.heap s) := by
  have hempty : s.memtable.tenantStats.entries = [] := by
    by_contra hne
    have := h.table.2 hne
    omega
  have hsub : corpus (freshSharedState s.heap s) ⊆ corpus s := by
    intro c hc
    rw [corpus, freshSharedState, memtableDocs_empty, Finset.empty_union] at hc
    exact Finset.mem_union_right _ hc
  have hstats : ∀ tenantId, tenantId ≠ 0 →
      tenantDocStats cfg an s.heap (corpus (freshSharedState s.heap s)) tenantId = 0 := by
    intro tenantId hne
    have hnone := h.exact tenantId hne
    rw [(h.counting.entries_eq_nil.1 hempty) tenantId hne] at hnone
    rw [tenantDocStats_eq_zero_iff]
    exact fun c hc => tenantDocStats_eq_zero_iff.1 hnone.symm c (hsub hc)
  have hmeta : ¬ 0 < s.metaTotalDocs := fun hpos => by
    have := (h.stored hpos).2
    omega
  constructor
  · exact ⟨fun c hc => h.inHeap c (hsub hc), fun tenantId hne => (hstats tenantId hne).symm,
      countingTable_empty⟩
  · exact h.cover
  · exact ⟨fun hpos => absurd hpos (Nat.lt_irrefl 0), fun hne => absurd rfl hne⟩
  · exact fun hpos => absurd hpos hmeta
  · exact h.pages
  · exact fun _ => h.loaded hempty
  · exact ⟨Nat.two_pow_pos 31, h.bounded.2⟩
  · intro tenantId hne
    show (tenantDocStats cfg an s.heap _ tenantId).1 < 2 ^ 31
    rw [hstats tenantId hne]
    exact Nat.two_pow_pos 31

/-- **A restart** that counts every tenant document once keeps the invariant. -/
theorem TenantInv.restart {cfg : Config} {an : Analyzer Value Term} {s : IndexState Value Term}
    (h : TenantInv cfg an s) (hcol : cfg.hasTenantColumn = true) (hc : RestartCounts cfg an s) :
    TenantInv cfg an (tpRebuildIndexFromDisk cfg an s.heap s) := by
  have hheap : ¬ (s.heap.nblocks = 0 ∧ 0 < s.metaTotalDocs) := by
    rintro ⟨hblocks, hpos⟩
    obtain ⟨c, hmem⟩ := (h.stored hpos).1
    obtain ⟨tuple, htuple⟩ := Option.isSome_iff_exists.1
      (h.inHeap c (Finset.mem_union_right _ hmem))
    have := s.heap.bounded c tuple htuple
    omega
  by_cases hnothing : s.metaTotalDocs = 0 ∧
      (s.docids.indexes cfg.indexOid).firstDocidPage = none ∧ s.levels 0 = []
  · rw [tpRebuildIndexFromDisk, if_neg hheap, if_pos hnothing]
    exact h.restart_nothing (hc.totals hnothing.1)
  obtain ⟨htable, hmt, htd⟩ := rebuild_tenantStats hcol hheap hnothing
  have hlevels := levels_rebuild cfg an s.heap s
  have hframe : (tpRebuildIndexFromDisk cfg an s.heap s).heap = s.heap ∧
      (tpRebuildIndexFromDisk cfg an s.heap s).metaTotalDocs = s.metaTotalDocs ∧
      (tpRebuildIndexFromDisk cfg an s.heap s).tenantStatsPages = s.tenantStatsPages := by
    rw [tpRebuildIndexFromDisk, if_neg hheap, if_neg hnothing]
    exact ⟨rfl, rfl, rfl⟩
  obtain ⟨hh, hmd, hpages⟩ := hframe
  have hmem : ∀ c, c ∈ corpus (tpRebuildIndexFromDisk cfg an s.heap s) ↔
      (c ∈ (s.docids.indexes cfg.indexOid).chainDocids ∧
        (fetchDocument cfg an s.heap c).isSome) ∨ c ∈ linkedDocs s.levels := by
    intro c
    rw [corpus, hlevels, Finset.mem_union, hmt, mem_memtableDocs, docLengths_replay]
  have hstats : ∀ tenantId, tenantId ≠ 0 →
      tenantDocStats cfg an s.heap (corpus (tpRebuildIndexFromDisk cfg an s.heap s)) tenantId =
        tenantDocStats cfg an s.heap (corpus s) tenantId := by
    intro tenantId hne
    refine tenantDocStats_congr (fun c => ?_) fun _ _ => rfl
    rw [hmem]
    constructor
    · rintro ⟨⟨hchain, hfetch⟩ | hlinked, ht⟩
      · exact ⟨hc.indexed c hchain hfetch (ht ▸ hne), ht⟩
      · exact ⟨Finset.mem_union_right _ hlinked, ht⟩
    · rintro ⟨hin, ht⟩
      by_cases hlinked : c ∈ linkedDocs s.levels
      · exact ⟨Or.inr hlinked, ht⟩
      · have hm := (Finset.mem_union.1 hin).resolve_right hlinked
        exact ⟨Or.inl (hc.recorded c hm hlinked (ht ▸ hne)), ht⟩
  have htotals : ∀ tenantId, tenantId ≠ 0 →
      tenantTotals (tpRebuildIndexFromDisk cfg an s.heap s).memtable.tenantStats tenantId =
        tenantTotals s.memtable.tenantStats tenantId := by
    intro tenantId hne
    rw [htable, tenantTotals_foldl, add_comm, hc.once tenantId hne]
  have hentries : Counting (s.tenantStatsPages.getD []) := by
    cases hp : s.tenantStatsPages with
    | none => exact fun e he => absurd he List.not_mem_nil
    | some entries => exact h.pages entries hp
  have hcounting : CountingTable
      (tpRebuildIndexFromDisk cfg an s.heap s).memtable.tenantStats := by
    rw [htable]
    exact CountingTable.foldl hentries (countingTable_replay cfg an s.heap _)
  have hempty : (tpRebuildIndexFromDisk cfg an s.heap s).memtable.tenantStats.entries = [] ↔
      s.memtable.tenantStats.entries = [] := by
    rw [hcounting.entries_eq_nil, h.counting.entries_eq_nil]
    exact forall_congr' fun tenantId => imp_congr_right fun hne => by rw [htotals tenantId hne]
  constructor
  · refine ⟨?_, ?_, hcounting⟩
    · rw [hh]
      intro c hin
      rcases (hmem c).1 hin with ⟨-, hfetch⟩ | hlinked
      · exact isSome_of_fetchDocument hfetch
      · exact h.inHeap c (Finset.mem_union_right _ hlinked)
    · rw [hh]
      intro tenantId hne
      rw [htotals tenantId hne, hstats tenantId hne, h.exact tenantId hne]
  · rw [hlevels]
    exact h.cover
  · rw [htd, Ne, hempty, ← Ne, ← h.table]
    constructor
    · exact fun hpos => (h.stored hpos).2
    · intro hpos
      by_contra hzero
      have := hc.totals (by omega)
      omega
  · rw [hmd, htd, hlevels]
    exact fun hpos => ⟨(h.stored hpos).1, hpos⟩
  · rw [hpages]
    exact h.pages
  · rw [hempty, hpages]
    exact h.loaded
  · rw [htd, hmd]
    exact ⟨h.bounded.2, h.bounded.2⟩
  · rw [hh]
    intro tenantId hne
    rw [hstats tenantId hne]
    exact h.small tenantId hne

/-! ## Runs -/

omit [DecidableEq Term] in
/-- Attaching finds the table in shared memory, or nothing on disk. -/
theorem TenantInv.getLocalIndexState {cfg : Config} {an : Analyzer Value Term}
    {db : Database Value Term} (h : TenantInv cfg an db.index) (backend : Nat) :
    TenantInv cfg an (tpGetLocalIndexState cfg db backend).index ∧
      (tpGetLocalIndexState cfg db backend).index.memtable = db.index.memtable ∧
      (tpGetLocalIndexState cfg db backend).index.totalDocs = db.index.totalDocs ∧
      corpus (tpGetLocalIndexState cfg db backend).index = corpus db.index := by
  unfold tpGetLocalIndexState
  cases db.cached backend with
  | some generation => exact ⟨h, rfl, rfl, rfl⟩
  | none =>
      have hload : loadTenantStats cfg db.index = db.index := by
        unfold loadTenantStats
        split
        case isTrue hcond => rw [h.loaded hcond.2]
        case isFalse => rfl
      rw [hload]
      exact ⟨h.congr rfl rfl rfl rfl rfl rfl, rfl, rfl, rfl⟩

/-- **Every step** that keeps the statistics keeps the invariant. -/
theorem tenantInv_step {cfg : Config} {an : Analyzer Value Term} {db db' : Database Value Term}
    {op : DatabaseOp Value} (hcol : cfg.hasTenantColumn = true) (h : TenantInv cfg an db.index)
    (hkept : TenantsKept cfg an db op) (hstep : databaseStep cfg an db op = some db') :
    TenantInv cfg an db'.index := by
  cases op with
  | call op =>
      obtain ⟨hcurrent, hbound, hsmall, htenant⟩ := hkept
      simp only [databaseStep] at hstep
      split at hstep
      case isFalse => cases hstep
      case isTrue =>
        have hgen := generation_of_current cfg hcurrent (asksForState op)
        have hinv : TenantInv cfg an (if asksForState op then
              tpGetLocalIndexState cfg db (callBackend op) else db).index ∧
            (if asksForState op then tpGetLocalIndexState cfg db (callBackend op)
              else db).index.memtable = db.index.memtable ∧
            (if asksForState op then tpGetLocalIndexState cfg db (callBackend op)
              else db).index.totalDocs = db.index.totalDocs ∧
            corpus (if asksForState op then tpGetLocalIndexState cfg db (callBackend op)
              else db).index = corpus db.index := by
          split
          · exact h.getLocalIndexState _
          · exact ⟨h, rfl, rfl, rfl⟩
        generalize (if asksForState op then tpGetLocalIndexState cfg db (callBackend op)
          else db) = attached at hstep hgen hinv
        obtain ⟨hinv, hmt, htd, hcorpus⟩ := hinv
        rw [← hmt] at htenant
        rw [← hcorpus] at hsmall
        rw [← htd] at hbound
        simp only [runCall, hgen, if_true] at hstep
        obtain ⟨s', hs', rfl⟩ := Option.map_eq_some_iff.1 hstep
        exact hinv.indexStep hbound hsmall htenant hs'
  | attach backend =>
      simp only [databaseStep] at hstep
      split at hstep
      case isFalse => cases hstep
      case isTrue =>
        cases hstep
        exact (h.getLocalIndexState backend).1
  | build backend scan =>
      simp only [databaseStep] at hstep
      split at hstep
      case isFalse => cases hstep
      case isTrue hscan =>
        cases hbuild : tpBuild cfg an backend scan db.index with
        | error e => simp [hbuild] at hstep
        | ok s =>
            simp only [hbuild] at hstep
            cases hstep
            simp only [scanOf, Bool.and_eq_true, decide_eq_true_eq] at hscan
            exact tenantInv_build hscan.1 hbuild hkept.1 hkept.2.1 hkept.2.2
  | buildParallel backend batches => exact hkept.elim
  | restart backend =>
      simp only [databaseStep] at hstep
      split at hstep
      case isFalse => cases hstep
      case isTrue =>
        cases hstep
        exact h.restart hcol hkept

/-- Replaying documents without tenant counts nothing. -/
theorem tenantStats_replay_of_no_tenant {cfg : Config} {an : Analyzer Value Term}
    {heap : Heap Value} {ctids : List ItemPointer}
    (h : ∀ ctid ∈ ctids, tenantAt cfg heap ctid = 0) :
    (replayMemtable cfg an heap ctids).tenantStats = ∅ := by
  have hfold : ∀ mt : Memtable Term,
      (ctids.foldl (replayDocid cfg an heap) mt).tenantStats = mt.tenantStats := by
    induction ctids with
    | nil => exact fun _ => rfl
    | cons c rest ih =>
        intro mt
        rw [List.foldl_cons, ih fun ctid hmem => h ctid (List.mem_cons_of_mem _ hmem), replayDocid]
        cases hfetch : fetchDocument cfg an heap c with
        | none => rfl
        | some doc =>
            have htenant : doc.2 = tenantAt cfg heap c := by
              unfold fetchDocument at hfetch
              unfold tenantAt
              grind
            simp only
            rw [htenant, h c List.mem_cons_self, tenantStats_addDocumentTerms_zero]
  exact hfold _

/-- After a spill that was not triggered by a tenant document, a restart counts every
tenant document once: the pages have the whole table. -/
theorem restartCounts_of_spilled {cfg : Config} {an : Analyzer Value Term}
    {s : IndexState Value Term} (htotals : s.metaTotalDocs = s.totalDocs)
    (hmt : memtableDocs s.memtable = ∅)
    (hchain : ∀ ctid ∈ (s.docids.indexes cfg.indexOid).chainDocids, tenantAt cfg s.heap ctid = 0)
    (hpages : s.tenantStatsPages.getD [] = tpTenantStatsCollect s.memtable.tenantStats) :
    RestartCounts cfg an s where
  totals := fun hzero => htotals.symm.trans hzero
  recorded := by
    intro ctid hmem
    rw [hmt] at hmem
    cases hmem
  indexed := fun ctid hmem _ hne => absurd (hchain ctid hmem) hne
  once := by
    intro tenantId _
    rw [hpages, entryTotals_collect, tenantStats_replay_of_no_tenant hchain]
    exact add_zero _

/-- A sufficient condition for `TenantsKept` that can be evaluated. -/
def tenantsKeptCheck (cfg : Config) (an : Analyzer Value Term) (db : Database Value Term) :
    DatabaseOp Value → Bool
  | .call op => decide ((db.cached (callBackend op)).getD db.generation = db.generation) &&
      decide (db.index.totalDocs + 1 < 2 ^ 31) && decide ((corpus db.index).card + 1 < 2 ^ 31) &&
      (match op with
      | .insert _ _ tuple => cfg.tenantIdOf tuple != 0 ||
          !db.index.memtable.tenantStats.entries.isEmpty
      | _ => true)
  | .attach _ => true
  | .build _ scan => decide ((scanDocs an db.index.heap scan).card < 2 ^ 31) &&
      (leftForFinalSpill cfg an db.index.heap scan).all
        (fun ctid => tenantAt cfg db.index.heap ctid == 0) &&
      decide ((scanDocs an db.index.heap scan).Nonempty →
        ∃ ctid ∈ scanDocs an db.index.heap scan, tenantAt cfg db.index.heap ctid ≠ 0)
  | .buildParallel _ _ => false
  | .restart _ => decide (db.index.metaTotalDocs = db.index.totalDocs) &&
      decide (memtableDocs db.index.memtable = ∅) &&
      (db.index.docids.indexes cfg.indexOid).chainDocids.all
        (fun ctid => tenantAt cfg db.index.heap ctid == 0) &&
      decide (db.index.tenantStatsPages.getD [] =
        tpTenantStatsCollect db.index.memtable.tenantStats)

theorem tenantsKept_of_check {cfg : Config} {an : Analyzer Value Term}
    {db : Database Value Term} {op : DatabaseOp Value}
    (h : tenantsKeptCheck cfg an db op = true) : TenantsKept cfg an db op := by
  cases op with
  | call op =>
      simp only [tenantsKeptCheck, Bool.and_eq_true, decide_eq_true_eq] at h
      obtain ⟨⟨⟨hcurrent, hbound⟩, hsmall⟩, htenant⟩ := h
      refine ⟨fun generation hcached => ?_, hbound, hsmall, ?_⟩
      · rw [hcached] at hcurrent
        exact hcurrent
      · rintro backend ctid tuple rfl - hzero
        simpa [hzero] using htenant
  | attach backend => trivial
  | build backend scan =>
      simp only [tenantsKeptCheck, Bool.and_eq_true, decide_eq_true_eq, List.all_eq_true,
        beq_iff_eq] at h
      exact ⟨h.1.1, h.1.2, h.2⟩
  | buildParallel backend batches => cases h
  | restart backend =>
      simp only [tenantsKeptCheck, Bool.and_eq_true, decide_eq_true_eq, List.all_eq_true,
        beq_iff_eq] at h
      exact restartCounts_of_spilled h.1.1.1 h.1.1.2 h.1.2 h.2

/-- A document with two words. -/
def twoWords : TermVector Nat := ⟨[(7, 1), (8, 1)], by decide, by decide⟩

/-- A table with documents of tenant 5, all in block 0. -/
def tenantHeap : List (TermVector Nat) → Heap (TermVector Nat)
  | [] => Heap.empty
  | doc :: rest =>
      if h : (⟨0, rest.length + 1⟩ : ItemPointer).isValid = true then
        (tenantHeap rest).place ⟨0, rest.length + 1⟩ h ⟨some doc, 5⟩
      else Heap.empty

/-- The document of the table is spilled during the build, a document without tenant
triggers the next spill, and a document of another tenant comes after the restart. -/
def countedRun : List (DatabaseOp (TermVector Nat)) :=
  [.build 1 [⟨0, 1⟩], .attach 2, .call (.insert 2 ⟨0, 2⟩ ⟨some twoWords, 0⟩), .restart 3,
    .call (.insert 3 ⟨0, 3⟩ ⟨some oneWord, 6⟩)]

/-- Thresholds, documents of tenant 5 in the table, and a run: a build without spill,
after which there is no table; a build whose last document is not spilled; a spill
whose trigger is recorded and counted on the pages. -/
def inexactRuns :
    List (Config × List (TermVector Nat) × List (DatabaseOp (TermVector Nat))) :=
  [(⟨1, 0, 0, 8, true⟩, [oneWord],
      [.build 1 [⟨0, 1⟩], .call (.insert 1 ⟨0, 2⟩ ⟨some oneWord, 6⟩)]),
    (⟨1, 2, 0, 8, true⟩, [oneWord, oneWord, oneWord], [.build 1 [⟨0, 1⟩, ⟨0, 2⟩, ⟨0, 3⟩]]),
    (⟨1, 1, 0, 8, true⟩, [],
      [.build 1 [], .call (.insert 1 ⟨0, 1⟩ ⟨some oneWord, 5⟩), .restart 2])]

end PgTextsearch.Am
