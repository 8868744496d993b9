import Mathlib.Algebra.Group.Prod
import PgTextsearch.Am.CorpusStats

/-!
# Tables of tenant statistics (`memtable/tenant_stats.c`, `state/metapage.c`)

For every tenant the index keeps the number of its documents and the sum of their
lengths.  A table is read as a function from tenants to such pairs; adding entries,
collecting them and adding a document to the memtable are sums of these pairs.

## Main results

* `tenantTotals_foldl`, `entryTotals_collect` — moving entries between tables keeps
  their totals.
* `TableExact.addDocument`, `TableExact.spilled` — a table that counts the documents
  of the index goes on to do so when one is added, and over spills.
-/

namespace PgTextsearch.Am

open PgTextsearch.Postgres PgTextsearch.Segment PgTextsearch.State

variable {Value Term : Type}

/-! ## Tables -/

/-- What a table has for a tenant. -/
def tenantTotals (table : TenantTable) (tenantId : Nat) : Nat × Nat :=
  match table.lookup tenantId with
  | none => 0
  | some e => (e.docCount, e.totalLen)

/-- What a list of entries adds up to for a tenant. -/
def entryTotals (entries : List (Nat × TenantStatsEntry)) (tenantId : Nat) : Nat × Nat :=
  (entries.map fun e => if e.1 = tenantId then (e.2.docCount, e.2.totalLen) else 0).sum

/-- Every entry counts documents of a tenant. -/
def Counting (entries : List (Nat × TenantStatsEntry)) : Prop :=
  ∀ e ∈ entries, e.1 ≠ 0 ∧ 0 < e.2.docCount

theorem tenantTotals_insert (table : TenantTable) (key : Nat) (e : TenantStatsEntry)
    (tenantId : Nat) :
    tenantTotals (table.insert key e) tenantId =
      if tenantId = key then (e.docCount, e.totalLen) else tenantTotals table tenantId := by
  by_cases h : tenantId = key
  · rw [tenantTotals, h, AList.lookup_insert, if_pos rfl]
  · rw [tenantTotals, AList.lookup_insert_ne h, if_neg h]
    rfl

theorem tenantTotals_addTenantEntry (table : TenantTable) (e : Nat × TenantStatsEntry)
    (tenantId : Nat) :
    tenantTotals (addTenantEntry table e) tenantId =
      tenantTotals table tenantId + if e.1 = tenantId then (e.2.docCount, e.2.totalLen) else 0 := by
  unfold addTenantEntry
  by_cases h : tenantId = e.1
  · subst h
    cases hl : table.lookup e.1 with
    | none => simp [tenantTotals, hl]
    | some d => simp [tenantTotals, hl]
  · have hne : e.1 ≠ tenantId := fun heq => h heq.symm
    cases hl : table.lookup e.1 with
    | none =>
        simp only
        rw [tenantTotals_insert, if_neg h, if_neg hne, add_zero]
    | some d =>
        simp only
        rw [tenantTotals_insert, if_neg h, if_neg hne, add_zero]

/-- Adding entries one by one adds their totals. -/
theorem tenantTotals_foldl (entries : List (Nat × TenantStatsEntry)) (table : TenantTable)
    (tenantId : Nat) :
    tenantTotals (entries.foldl addTenantEntry table) tenantId =
      tenantTotals table tenantId + entryTotals entries tenantId := by
  induction entries generalizing table with
  | nil => simp [entryTotals]
  | cons e rest ih =>
      rw [List.foldl_cons, ih, tenantTotals_addTenantEntry, entryTotals, entryTotals, List.map_cons,
        List.sum_cons, add_assoc]

theorem entryTotals_of_notMem {entries : List (Nat × TenantStatsEntry)} {tenantId : Nat}
    (h : tenantId ∉ entries.map Prod.fst) : entryTotals entries tenantId = 0 := by
  rw [entryTotals]
  apply List.sum_eq_zero
  intro x hx
  obtain ⟨e, he, rfl⟩ := List.mem_map.1 hx
  rw [if_neg]
  rintro rfl
  exact h (List.mem_map.2 ⟨e, he, rfl⟩)

/-- The collected entries have the totals of the table. -/
theorem entryTotals_collect (table : TenantTable) (tenantId : Nat) :
    entryTotals (tpTenantStatsCollect table) tenantId = tenantTotals table tenantId := by
  have hlist : ∀ entries : List (Sigma fun _ : Nat => TenantStatsEntry), entries.NodupKeys →
      entryTotals (entries.map fun e => (e.1, e.2)) tenantId =
        match entries.dlookup tenantId with
        | none => 0
        | some e => (e.docCount, e.totalLen) := by
    intro entries hnodup
    induction entries with
    | nil => rfl
    | cons e rest ih =>
        rw [List.nodupKeys_cons] at hnodup
        by_cases h : tenantId = e.1
        · subst h
          have hrest : entryTotals (rest.map fun e => (e.1, e.2)) e.1 = 0 := by
            apply entryTotals_of_notMem
            rw [List.map_map]
            exact hnodup.1
          rw [entryTotals, List.map_map] at hrest
          rw [List.map_cons, entryTotals, List.map_cons, List.sum_cons, List.map_map, hrest,
            if_pos rfl, add_zero, List.dlookup_cons_eq]
        · have hrest := ih hnodup.2
          rw [entryTotals] at hrest
          rw [List.map_cons, entryTotals, List.map_cons, List.sum_cons, hrest,
            if_neg (Ne.symm h), zero_add, List.dlookup_cons_ne _ _ h]
  exact hlist table.entries table.nodupKeys

/-- Every entry of the table counts documents of a tenant. -/
def CountingTable (table : TenantTable) : Prop :=
  ∀ tenantId e, table.lookup tenantId = some e → tenantId ≠ 0 ∧ 0 < e.docCount

theorem countingTable_empty : CountingTable ∅ := by
  intro tenantId e h
  simp at h

theorem CountingTable.insert {table : TenantTable} (h : CountingTable table) {key : Nat}
    (hkey : key ≠ 0) {e : TenantStatsEntry} (he : 0 < e.docCount) :
    CountingTable (table.insert key e) := by
  intro tenantId e' hl
  by_cases hk : tenantId = key
  · rw [hk, AList.lookup_insert] at hl
    cases hl
    exact ⟨hk ▸ hkey, he⟩
  · rw [AList.lookup_insert_ne hk] at hl
    exact h tenantId e' hl

theorem CountingTable.foldl {entries : List (Nat × TenantStatsEntry)} (hentries : Counting entries)
    {table : TenantTable} (h : CountingTable table) :
    CountingTable (entries.foldl addTenantEntry table) := by
  induction entries generalizing table with
  | nil => exact h
  | cons e rest ih =>
      obtain ⟨hkey, hcount⟩ := hentries e List.mem_cons_self
      refine ih (fun e' he' => hentries e' (List.mem_cons_of_mem _ he')) ?_
      unfold addTenantEntry
      cases table.lookup e.1 with
      | none => exact h.insert hkey hcount
      | some d =>
          have hpos : 0 < d.docCount + e.2.docCount := by omega
          exact h.insert hkey hpos

theorem CountingTable.collect {table : TenantTable} (h : CountingTable table) :
    Counting (tpTenantStatsCollect table) := by
  intro e he
  obtain ⟨e', he', rfl⟩ := List.mem_map.1 he
  exact h e'.1 e'.2 (AList.mem_lookup_iff.2 he')

/-- A counting table is empty when no tenant has a total. -/
theorem CountingTable.entries_eq_nil {table : TenantTable} (h : CountingTable table) :
    table.entries = [] ↔ ∀ tenantId, tenantId ≠ 0 → tenantTotals table tenantId = 0 := by
  constructor
  · intro hnil tenantId _
    have hnone : table.lookup tenantId = none := by
      rw [AList.lookup_eq_none, AList.mem_keys, AList.keys, hnil]
      exact List.not_mem_nil
    rw [tenantTotals, hnone]
  · intro hzero
    by_contra hne
    obtain ⟨e, he⟩ := List.exists_mem_of_ne_nil _ hne
    have hl : table.lookup e.1 = some e.2 := AList.mem_lookup_iff.2 he
    obtain ⟨hkey, hpos⟩ := h e.1 e.2 hl
    have htotal := hzero e.1 hkey
    rw [tenantTotals, hl] at htotal
    have : e.2.docCount = 0 := congrArg Prod.fst htotal
    omega

/-! ## Documents -/

/-- The tenant of the document at a CTID. -/
def tenantAt (cfg : Config) (heap : Heap Value) (ctid : ItemPointer) : Nat :=
  ((heap.tuples ctid).map cfg.tenantIdOf).getD 0

/-- The number and the length sum of the documents of a tenant. -/
def tenantDocStats (cfg : Config) (an : Analyzer Value Term) (heap : Heap Value)
    (docs : Finset ItemPointer) (tenantId : Nat) : Nat × Nat :=
  let tenantDocs := docs.filter fun ctid => tenantAt cfg heap ctid = tenantId
  (tenantDocs.card, ∑ ctid ∈ tenantDocs, documentLength an heap ctid)

theorem tenantDocStats_insert {cfg : Config} {an : Analyzer Value Term} {heap : Heap Value}
    {docs : Finset ItemPointer} {ctid : ItemPointer} (hnew : ctid ∉ docs) (tenantId : Nat) :
    tenantDocStats cfg an heap (insert ctid docs) tenantId =
      tenantDocStats cfg an heap docs tenantId +
        if tenantAt cfg heap ctid = tenantId then (1, documentLength an heap ctid) else 0 := by
  simp only [tenantDocStats, Finset.filter_insert]
  split
  · have hout : ctid ∉ docs.filter fun c => tenantAt cfg heap c = tenantId := fun h =>
      hnew (Finset.mem_filter.1 h).1
    rw [Finset.card_insert_of_notMem hout, Finset.sum_insert hout, Nat.add_comm _ (Finset.sum _ _)]
    rfl
  · rw [add_zero]

/-- The statistics of a tenant depend on its documents only. -/
theorem tenantDocStats_congr {cfg : Config} {an : Analyzer Value Term} {heap heap' : Heap Value}
    {docs docs' : Finset ItemPointer} {tenantId : Nat}
    (hdocs : ∀ c, c ∈ docs ∧ tenantAt cfg heap c = tenantId ↔
      c ∈ docs' ∧ tenantAt cfg heap' c = tenantId)
    (hlen : ∀ c ∈ docs, documentLength an heap c = documentLength an heap' c) :
    tenantDocStats cfg an heap docs tenantId = tenantDocStats cfg an heap' docs' tenantId := by
  have hfilter : (docs.filter fun c => tenantAt cfg heap c = tenantId) =
      docs'.filter fun c => tenantAt cfg heap' c = tenantId := by
    ext c
    rw [Finset.mem_filter, Finset.mem_filter]
    exact hdocs c
  simp only [tenantDocStats]
  rw [← hfilter]
  congr 1
  exact Finset.sum_congr rfl fun c hc => hlen c (Finset.mem_filter.1 hc).1

theorem tenantDocStats_empty (cfg : Config) (an : Analyzer Value Term) (heap : Heap Value)
    (tenantId : Nat) : tenantDocStats cfg an heap ∅ tenantId = 0 := rfl

theorem tenantDocStats_fst_le (cfg : Config) (an : Analyzer Value Term) (heap : Heap Value)
    (docs : Finset ItemPointer) (tenantId : Nat) :
    (tenantDocStats cfg an heap docs tenantId).1 ≤ docs.card :=
  Finset.card_filter_le ..

/-- A document of a tenant makes its statistics positive. -/
theorem tenantDocStats_eq_zero_iff {cfg : Config} {an : Analyzer Value Term} {heap : Heap Value}
    {docs : Finset ItemPointer} {tenantId : Nat} :
    tenantDocStats cfg an heap docs tenantId = 0 ↔
      ∀ c ∈ docs, tenantAt cfg heap c ≠ tenantId := by
  constructor
  · intro hzero c hc ht
    have hcard : (docs.filter fun c => tenantAt cfg heap c = tenantId).card = 0 :=
      congrArg Prod.fst hzero
    rw [Finset.card_eq_zero] at hcard
    have : c ∈ docs.filter fun c => tenantAt cfg heap c = tenantId := Finset.mem_filter.2 ⟨hc, ht⟩
    rw [hcard] at this
    cases this
  · intro hnone
    have hempty : (docs.filter fun c => tenantAt cfg heap c = tenantId) = ∅ :=
      Finset.filter_eq_empty_iff.2 fun c hc => hnone c hc
    simp only [tenantDocStats, hempty]
    rfl

variable [DecidableEq Term]

theorem tenantStats_addTermEntries (ctid : ItemPointer) (tenantId : Nat) (mt : Memtable Term)
    (entries : List (Term × Nat)) :
    (addTermEntries ctid tenantId mt entries).tenantStats = mt.tenantStats := by
  induction entries generalizing mt with
  | nil => rfl
  | cons e rest ih => rw [addTermEntries, ih, tpAddDocumentToPostingList]

/-- **A document** is counted for its tenant. -/
theorem tenantTotals_addDocumentTerms (mt : Memtable Term) (ctid : ItemPointer)
    (tv : TermVector Term) (tenantId : Nat) {other : Nat} (hother : other ≠ 0) :
    tenantTotals (tpAddDocumentTerms mt ctid tv tenantId).tenantStats other =
      tenantTotals mt.tenantStats other + if tenantId = other then (1, tv.docLength) else 0 := by
  simp only [tpAddDocumentTerms]
  split
  case isTrue htenant =>
    simp only [tpUpdateTenantStats, tpStoreDocumentLength, tenantStats_addTermEntries]
    rw [tenantTotals_insert]
    by_cases h : other = tenantId
    · subst h
      cases hl : mt.tenantStats.lookup other with
      | none => simp [tenantTotals, hl]
      | some e => simp [tenantTotals, hl]
    · rw [if_neg h, if_neg (Ne.symm h), add_zero]
  case isFalse hzero =>
    have hne : tenantId ≠ other := by
      rintro rfl
      exact hzero hother
    rw [if_neg hne, add_zero]
    simp only [tpStoreDocumentLength, tenantStats_addTermEntries]

theorem CountingTable.addDocumentTerms {mt : Memtable Term} (h : CountingTable mt.tenantStats)
    (ctid : ItemPointer) (tv : TermVector Term) (tenantId : Nat) :
    CountingTable (tpAddDocumentTerms mt ctid tv tenantId).tenantStats := by
  simp only [tpAddDocumentTerms]
  split
  case isTrue htenant =>
    simp only [tpUpdateTenantStats, tpStoreDocumentLength, tenantStats_addTermEntries]
    refine h.insert htenant ?_
    split <;> exact Nat.succ_pos _
  case isFalse =>
    simp only [tpStoreDocumentLength, tenantStats_addTermEntries]
    exact h

/-- A document without tenant leaves the table alone. -/
theorem tenantStats_addDocumentTerms_zero (mt : Memtable Term) (ctid : ItemPointer)
    (tv : TermVector Term) : (tpAddDocumentTerms mt ctid tv 0).tenantStats = mt.tenantStats := by
  simp only [tpAddDocumentTerms, ne_eq, not_true_eq_false, if_false, tpStoreDocumentLength,
    tenantStats_addTermEntries]

/-! ## Exact tables -/

omit [DecidableEq Term] in
theorem tenantAt_place {cfg : Config} {heap : Heap Value} {ctid c : ItemPointer}
    (hfree : heap.tuples ctid = none) (hvalid : ctid.isValid = true) (tuple : HeapTuple Value)
    (hc : (heap.tuples c).isSome) :
    tenantAt cfg (heap.place ctid hvalid tuple) c = tenantAt cfg heap c := by
  rw [tenantAt, tenantAt, tuples_place_of_isSome hfree hvalid tuple hc]

omit [DecidableEq Term] in
/-- A new tuple changes no statistics. -/
theorem tenantDocStats_place {cfg : Config} {an : Analyzer Value Term} {heap : Heap Value}
    {docs : Finset ItemPointer} (hdocs : ∀ c ∈ docs, (heap.tuples c).isSome) {ctid : ItemPointer}
    (hfree : heap.tuples ctid = none) (hvalid : ctid.isValid = true) (tuple : HeapTuple Value)
    (tenantId : Nat) :
    tenantDocStats cfg an (heap.place ctid hvalid tuple) docs tenantId =
      tenantDocStats cfg an heap docs tenantId := by
  apply tenantDocStats_congr
  · intro c
    refine and_congr_right fun hc => ?_
    rw [tenantAt_place hfree hvalid tuple (hdocs c hc)]
  · intro c hc
    rw [documentLength, documentLength, documentAt_place hfree hvalid tuple (hdocs c hc)]

/-- The table of the memtable counts the documents of the index. -/
structure TableExact (cfg : Config) (an : Analyzer Value Term) (s : IndexState Value Term) :
    Prop where
  inHeap : ∀ ctid ∈ corpus s, (s.heap.tuples ctid).isSome
  exact : ∀ tenantId, tenantId ≠ 0 → tenantTotals s.memtable.tenantStats tenantId =
    tenantDocStats cfg an s.heap (corpus s) tenantId
  counting : CountingTable s.memtable.tenantStats

omit [DecidableEq Term] in
theorem tableExact_of_empty {cfg : Config} {an : Analyzer Value Term} {s : IndexState Value Term}
    (hcorpus : corpus s = ∅) (htable : s.memtable.tenantStats = ∅) : TableExact cfg an s where
  inHeap := by
    intro ctid hmem
    rw [hcorpus] at hmem
    cases hmem
  exact := by
    intro tenantId _
    rw [hcorpus, htable]
    rfl
  counting := by
    rw [htable]
    exact countingTable_empty

omit [DecidableEq Term] in
theorem TableExact.congr {cfg : Config} {an : Analyzer Value Term} {s s' : IndexState Value Term}
    (h : TableExact cfg an s) (hcorpus : corpus s' = corpus s)
    (htable : s'.memtable.tenantStats = s.memtable.tenantStats) (hheap : s'.heap = s.heap) :
    TableExact cfg an s' where
  inHeap := by
    rw [hcorpus, hheap]
    exact h.inHeap
  exact := by
    rw [hcorpus, htable, hheap]
    exact h.exact
  counting := by
    rw [htable]
    exact h.counting

omit [DecidableEq Term] in
theorem TableExact.notMem_of_free {cfg : Config} {an : Analyzer Value Term}
    {s : IndexState Value Term} (h : TableExact cfg an s) {ctid : ItemPointer}
    (hfree : s.heap.tuples ctid = none) : ctid ∉ corpus s := by
  intro hmem
  have hsome := h.inHeap ctid hmem
  rw [hfree] at hsome
  cases hsome

omit [DecidableEq Term] in
theorem TableExact.spilled {cfg : Config} {an : Analyzer Value Term}
    {s s' : IndexState Value Term} (h : TableExact cfg an s) (hs : Spilled cfg s s') :
    TableExact cfg an s' := by
  refine h.congr hs.corpus_eq ?_ hs.heap
  rw [hs.memtable]
  rfl

omit [DecidableEq Term] in
theorem TableExact.place {cfg : Config} {an : Analyzer Value Term} {s : IndexState Value Term}
    (h : TableExact cfg an s) {ctid : ItemPointer} (hfree : s.heap.tuples ctid = none)
    (hvalid : ctid.isValid = true) (tuple : HeapTuple Value) :
    TableExact cfg an { s with heap := s.heap.place ctid hvalid tuple } where
  inHeap := by
    intro c hc
    rw [tuples_place_of_isSome hfree hvalid tuple (h.inHeap c hc)]
    exact h.inHeap c hc
  exact := by
    intro tenantId htenant
    exact (h.exact tenantId htenant).trans
      (tenantDocStats_place h.inHeap hfree hvalid tuple tenantId).symm
  counting := h.counting

/-- **A document** of the heap, added to an exact table. -/
theorem TableExact.addDocument {cfg : Config} {an : Analyzer Value Term}
    {s : IndexState Value Term} (h : TableExact cfg an s) {ctid : ItemPointer}
    (hnew : ctid ∉ corpus s) {tuple : HeapTuple Value} (htuple : s.heap.tuples ctid = some tuple)
    {tv : TermVector Term} (hterms : indexedTerms an tuple = some tv) (backend : Nat) :
    TableExact cfg an (addDocument s backend ctid tv (cfg.tenantIdOf tuple)) := by
  have hcorpus := corpus_addDocument s backend ctid tv (cfg.tenantIdOf tuple)
  have hat : tenantAt cfg s.heap ctid = cfg.tenantIdOf tuple := by
    rw [tenantAt, htuple]
    rfl
  have hlen : documentLength an s.heap ctid = tv.docLength := by
    rw [documentLength, documentAt_eq htuple, hterms]
    rfl
  constructor
  · rw [hcorpus]
    intro c hc
    rcases Finset.mem_insert.1 hc with rfl | hc
    · show (s.heap.tuples c).isSome
      rw [htuple]
      rfl
    · exact h.inHeap c hc
  · rw [hcorpus]
    intro tenantId hne
    show tenantTotals (tpAddDocumentTerms s.memtable ctid tv
      (cfg.tenantIdOf tuple)).tenantStats tenantId = _
    rw [tenantTotals_addDocumentTerms _ _ _ _ hne, h.exact tenantId hne]
    show _ = tenantDocStats cfg an s.heap (insert ctid (corpus s)) tenantId
    rw [tenantDocStats_insert hnew, hat, hlen]
  · exact h.counting.addDocumentTerms ctid tv (cfg.tenantIdOf tuple)

end PgTextsearch.Am
