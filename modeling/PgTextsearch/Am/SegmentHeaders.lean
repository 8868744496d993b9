import Mathlib.Data.List.Sort
import PgTextsearch.Am.TenantTables

/-!
# Statistics in segment headers (`segment/segment.c`, `segment/merge.c`)

A segment header has the number of documents, the length sum and, for an index with
tenants, a section with both for every tenant.  `tp_write_segment` takes the length
sum and the tenant entries from shared memory, where they are totals over the whole
index; a merge adds up what the headers of its sources say.

## Main results

* `headed_levels` — the headers stand beside the segments the spills and merges link.
* `segment_headers_exact` — the headers describe their own segments in every run in
  which no segment is linked when a spill writes one, and a merge of disjoint segments
  with exact headers has an exact header.
* `second_spill_inexact` — the second spill counts the documents of the first again.
-/

namespace PgTextsearch.Am

open PgTextsearch.Postgres PgTextsearch.Segment PgTextsearch.State PgTextsearch.Verified

variable {Value Term : Type}

/-! ## Headers -/

/-- The statistics of a segment header, with the tenant statistics section. -/
structure SegmentHeader where
  numDocs : Nat
  totalTokens : Nat
  tenantStats : List (Nat × TenantStatsEntry)

/-- `qsort` with `compare_tenant_stats`. -/
def sortTenantStats (entries : List (Nat × TenantStatsEntry)) : List (Nat × TenantStatsEntry) :=
  entries.insertionSort fun a b => a.1 ≤ b.1

/-- The header `tp_write_segment` writes: the documents are those of the document map,
the tokens and the tenants those of the shared state. -/
def writtenHeader (s : IndexState Value Term) (seg : SegmentContents Term) : SegmentHeader where
  numDocs := seg.docs.length
  totalTokens := s.totalLen
  tenantStats := sortTenantStats (tpTenantStatsCollect s.memtable.tenantStats)

/-- The header `write_merged_segment` writes: tokens and tenants are summed over the
sources. -/
def mergedHeader (chain : List (SegmentHeader × SegmentContents Term))
    (merged : SegmentContents Term) : SegmentHeader :=
  let sources := chain.filter fun p => !p.2.terms.isEmpty
  { numDocs := merged.docs.length
    totalTokens := (sources.map fun p => p.1.totalTokens).sum
    tenantStats := sortTenantStats (tpTenantStatsCollect
      ((sources.flatMap fun p => p.1.tenantStats).foldl addTenantEntry ∅)) }

/-- The levels with the headers of their segments. -/
abbrev HeadedLevels (Term : Type) := Nat → List (SegmentHeader × SegmentContents Term)

/-- The segments alone. -/
def HeadedLevels.contents (headed : HeadedLevels Term) : Levels Term :=
  fun level => (headed level).map Prod.snd

/-- Link a segment with its header as the head of a level. -/
def linkHeaded (headed : HeadedLevels Term) (level : Nat)
    (p : SegmentHeader × SegmentContents Term) : HeadedLevels Term :=
  Function.update headed level (p :: headed level)

/-- The metapage update of a merge. -/
def linkMergedHeaded (headed : HeadedLevels Term) (level : Nat)
    (p : SegmentHeader × SegmentContents Term) : HeadedLevels Term :=
  linkHeaded (Function.update headed level []) (level + 1) p

variable [DecidableEq Term]

/-- `tp_maybe_compact_level` with the headers. -/
def compactHeaded (segmentsPerLevel : Nat) : Nat → HeadedLevels Term → Nat → HeadedLevels Term
  | 0, headed, _ => headed
  | fuel + 1, headed, level =>
      if level ≥ tpMaxLevels - 1 then headed
      else if (headed level).length < segmentsPerLevel then headed
      else
        match mergeSegments ((headed level).map Prod.snd) with
        | none => headed
        | some merged =>
            compactHeaded segmentsPerLevel fuel
              (linkMergedHeaded headed level (mergedHeader (headed level) merged, merged))
              (level + 1)

/-- A spill with the headers. -/
def spillHeaded (cfg : Config) (s : IndexState Value Term) (headed : HeadedLevels Term) :
    HeadedLevels Term :=
  match tpWriteSegment s.memtable with
  | .ok (some seg) =>
      compactHeaded cfg.segmentsPerLevel tpMaxLevels
        (linkHeaded headed 0 (writtenHeader s seg, seg))
        0
  | _ => headed

/-- The state in which the spill of a call starts, if the call spills. -/
def spillStart (cfg : Config) (an : Analyzer Value Term) (s : IndexState Value Term) :
    IndexOp Value → Option (IndexState Value Term)
  | .insert backend ctid tuple =>
      if hvalid : ctid.isValid = true then
        match indexedTerms an tuple with
        | none => none
        | some tv =>
            let added := addDocument { s with heap := s.heap.place ctid hvalid tuple } backend ctid
              tv (cfg.tenantIdOf tuple)
            if cfg.memtableSpillThreshold = 0 then none
            else if added.memtable.totalPostings < cfg.memtableSpillThreshold then none
            else some added
      else none
  | .spillMemtable _ => some s
  | .commit backend =>
      if cfg.bulkLoadThreshold = 0 then none
      else if s.termsAddedThisXact backend < cfg.bulkLoadThreshold then none
      else some s
  | .abort _ => none

/-- An index and its segment headers. -/
structure HeadedIndex (Value Term : Type) where
  index : IndexState Value Term
  headed : HeadedLevels Term

omit [DecidableEq Term] in
/-- An index built on an empty table. -/
def HeadedIndex.init : HeadedIndex Value Term := ⟨IndexState.init, fun _ => []⟩

/-- One call, with the headers it writes. -/
def headedStep (cfg : Config) (an : Analyzer Value Term) (st : HeadedIndex Value Term)
    (op : IndexOp Value) : Option (HeadedIndex Value Term) :=
  (indexStep cfg an st.index op).map fun s =>
    match spillStart cfg an st.index op with
    | none => ⟨s, st.headed⟩
    | some start => ⟨s, spillHeaded cfg start st.headed⟩

/-! ## What the headers should say -/

omit [DecidableEq Term] in
/-- **An exact header**: the number of the documents of the segment, the sum of their
lengths, and both for every tenant that has documents in it. -/
structure HeaderExact (cfg : Config) (an : Analyzer Value Term) (heap : Heap Value)
    (seg : SegmentContents Term) (header : SegmentHeader) : Prop where
  numDocs : header.numDocs = (segmentDocs seg).card
  totalTokens : header.totalTokens = ∑ ctid ∈ segmentDocs seg, documentLength an heap ctid
  entries : ∀ e ∈ header.tenantStats, e.1 ≠ 0 ∧
    (e.2.docCount, e.2.totalLen) = tenantDocStats cfg an heap (segmentDocs seg) e.1
  distinct : (header.tenantStats.map Prod.fst).Nodup
  complete : ∀ ctid ∈ segmentDocs seg, tenantAt cfg heap ctid ≠ 0 →
    tenantAt cfg heap ctid ∈ header.tenantStats.map Prod.fst

omit [DecidableEq Term] in
/-- All linked segments have exact headers. -/
def HeadersExact (cfg : Config) (an : Analyzer Value Term) (heap : Heap Value)
    (headed : HeadedLevels Term) : Prop :=
  ∀ level < tpMaxLevels, ∀ p ∈ headed level, HeaderExact cfg an heap p.2 p.1

omit [DecidableEq Term] in
/-- No document is in two of the segments. -/
def Apart (a b : SegmentHeader × SegmentContents Term) : Prop :=
  Disjoint (segmentDocs a.2) (segmentDocs b.2)

/-- A spill of the call that writes a segment finds no segment linked. -/
def WritesFirstSegment (cfg : Config) (an : Analyzer Value Term) (st : HeadedIndex Value Term)
    (op : IndexOp Value) : Prop :=
  ∀ start seg, spillStart cfg an st.index op = some start →
    tpWriteSegment start.memtable = .ok (some seg) → linkedSegments st.index.levels = []

/-! ## The headers beside the segments -/

omit [DecidableEq Term] in
theorem contents_linkHeaded (headed : HeadedLevels Term) (level : Nat)
    (p : SegmentHeader × SegmentContents Term) :
    HeadedLevels.contents (linkHeaded headed level p) =
      Segment.linkSegment (HeadedLevels.contents headed) level p.2 := by
  funext l
  by_cases hl : l = level
  · subst hl
    simp [HeadedLevels.contents, linkHeaded, Segment.linkSegment]
  · simp [HeadedLevels.contents, linkHeaded, Segment.linkSegment, Function.update_of_ne hl]

omit [DecidableEq Term] in
theorem contents_linkMergedHeaded (headed : HeadedLevels Term) (level : Nat)
    (p : SegmentHeader × SegmentContents Term) :
    HeadedLevels.contents (linkMergedHeaded headed level p) =
      linkMerged (HeadedLevels.contents headed) level p.2 := by
  rw [linkMergedHeaded, contents_linkHeaded, linkMerged]
  congr 1
  funext l
  by_cases hl : l = level
  · subst hl
    simp [HeadedLevels.contents]
  · simp [HeadedLevels.contents, Function.update_of_ne hl]

theorem contents_compactHeaded (segmentsPerLevel fuel : Nat) (headed : HeadedLevels Term)
    (level : Nat) :
    HeadedLevels.contents (compactHeaded segmentsPerLevel fuel headed level) =
      tpMaybeCompactLevel segmentsPerLevel fuel (HeadedLevels.contents headed) level := by
  induction fuel generalizing headed level with
  | zero => rfl
  | succ fuel ih =>
      have hlen : (HeadedLevels.contents headed level).length = (headed level).length :=
        List.length_map ..
      unfold compactHeaded tpMaybeCompactLevel
      rw [hlen]
      split
      · rfl
      split
      · rfl
      show _ = match mergeSegments ((headed level).map Prod.snd) with
        | none => HeadedLevels.contents headed
        | some merged => _
      cases mergeSegments ((headed level).map Prod.snd) with
      | none => rfl
      | some merged =>
          simp only
          rw [ih, contents_linkMergedHeaded]

/-- A spill links the segments its headers stand beside. -/
theorem contents_spillHeaded (cfg : Config) (backend : Nat) (kind : SpillKind)
    (s : IndexState Value Term) {headed : HeadedLevels Term}
    (h : HeadedLevels.contents headed = s.levels) :
    HeadedLevels.contents (spillHeaded cfg s headed) = (spill cfg backend kind s).levels := by
  unfold spillHeaded
  split
  case h_1 seg hseg =>
    rw [contents_compactHeaded, contents_linkHeaded, h, (spill_of_writes cfg backend kind hseg).2.1]
  case h_2 hnone =>
    rw [h, spill_of_not_writes kind fun seg hseg => hnone seg hseg]

/-- **The spill of a call** starts in a state that the parts of the call before it lead
to, and the call ends with the levels and the heap of the spill. -/
theorem spillStart_some {cfg : Config} {an : Analyzer Value Term} {op : IndexOp Value}
    {s s' start : IndexState Value Term} {P : IndexState Value Term → Prop}
    (h : KeptByCalls cfg an op s P) (hs : P s) (hstep : indexStep cfg an s op = some s')
    (hstart : spillStart cfg an s op = some start) :
    P start ∧ start.levels = s.levels ∧ s'.heap = start.heap ∧
      ∃ backend kind, s'.levels = (spill cfg backend kind start).levels := by
  cases op with
  | insert backend ctid tuple =>
      simp only [indexStep] at hstep
      split at hstep
      case isFalse => cases hstep
      case isTrue hvalid =>
        cases hfree : s.heap.tuples ctid with
        | some t => simp [hfree] at hstep
        | none =>
            simp only [hfree, Option.some.injEq] at hstep
            simp only [spillStart, hvalid, dif_pos] at hstart
            cases hterms : indexedTerms an tuple with
            | none => simp [hterms] at hstart
            | some tv =>
                simp only [hterms] at hstart
                split at hstart
                · cases hstart
                rename_i hon
                split at hstart
                · cases hstart
                rename_i hfull
                · cases hstart
                  rw [tpInsert_of_some cfg backend hvalid hterms, tpAutoSpillIfNeeded, if_neg hon,
                    if_neg hfull] at hstep
                  subst hstep
                  have hadded := h.added backend ctid tuple tv hvalid hfree rfl hterms
                  exact ⟨hadded, rfl, spill_heap cfg backend .auto _, backend, .auto, rfl⟩
  | spillMemtable backend =>
      cases hstart
      cases hstep
      exact ⟨hs, rfl, spill_heap cfg backend .manual s, backend, .manual, rfl⟩
  | commit backend =>
      simp only [spillStart] at hstart
      cases hstep
      unfold tpBulkLoadSpillCheck
      split at hstart
      · cases hstart
      rename_i hon
      split at hstart
      · cases hstart
      rename_i hfull
      · cases hstart
        rw [if_neg hon, if_neg hfull]
        exact ⟨hs, rfl, spill_heap cfg backend .bulkLoad s, backend, .bulkLoad, rfl⟩
  | abort backend => cases hstart

/-- A call without a spill leaves the levels alone. -/
theorem levels_of_spillStart_none {cfg : Config} {an : Analyzer Value Term} {op : IndexOp Value}
    {s s' : IndexState Value Term} (hstep : indexStep cfg an s op = some s')
    (hstart : spillStart cfg an s op = none) : s'.levels = s.levels := by
  cases op with
  | insert backend ctid tuple =>
      simp only [indexStep] at hstep
      split at hstep
      case isFalse => cases hstep
      case isTrue hvalid =>
        cases hfree : s.heap.tuples ctid with
        | some t => simp [hfree] at hstep
        | none =>
            simp only [hfree, Option.some.injEq] at hstep
            simp only [spillStart, hvalid, dif_pos] at hstart
            subst hstep
            cases hterms : indexedTerms an tuple with
            | none =>
                rcases tpInsert_of_none cfg backend ctid hterms
                  { s with heap := s.heap.place ctid hvalid tuple } with heq | heq
                · rw [heq]
                · rw [heq]
                  rfl
            | some tv =>
                rw [tpInsert_of_some cfg backend hvalid hterms, tpAutoSpillIfNeeded]
                simp only [hterms] at hstart
                split at hstart
                case isTrue hoff =>
                  rw [if_pos hoff]
                  rfl
                case isFalse hon =>
                  split at hstart
                  case isTrue hroom =>
                    rw [if_neg hon, if_pos hroom]
                    rfl
                  case isFalse => cases hstart
  | spillMemtable backend => cases hstart
  | commit backend =>
      simp only [spillStart] at hstart
      cases hstep
      unfold tpBulkLoadSpillCheck
      split at hstart
      case isTrue hoff =>
        rw [if_pos hoff]
        rfl
      case isFalse hon =>
        split at hstart
        case isTrue hfew =>
          rw [if_neg hon, if_pos hfew]
          rfl
        case isFalse => cases hstart
  | abort backend =>
      cases hstep
      rfl

/-- A call links the segments its headers stand beside. -/
theorem contents_headedStep {cfg : Config} {an : Analyzer Value Term}
    {st st' : HeadedIndex Value Term} {op : IndexOp Value} (hcorpus : CorpusInv cfg an st.index)
    (h : HeadedLevels.contents st.headed = st.index.levels)
    (hstep : headedStep cfg an st op = some st') :
    HeadedLevels.contents st'.headed = st'.index.levels := by
  obtain ⟨s', hs', rfl⟩ := Option.map_eq_some_iff.1 hstep
  cases hstart : spillStart cfg an st.index op with
  | none =>
      simp only
      rw [h, levels_of_spillStart_none hs' hstart]
  | some start =>
      obtain ⟨-, hsame, -, backend, kind, hlevels⟩ :=
        spillStart_some (hcorpus.keptByCalls op) hcorpus hs' hstart
      simp only
      rw [hlevels]
      exact contents_spillHeaded cfg backend kind start (h.trans hsame.symm)

theorem indexStep_of_headedStep {cfg : Config} {an : Analyzer Value Term}
    {st st' : HeadedIndex Value Term} {op : IndexOp Value}
    (hstep : headedStep cfg an st op = some st') :
    indexStep cfg an st.index op = some st'.index := by
  obtain ⟨s', hs', rfl⟩ := Option.map_eq_some_iff.1 hstep
  rw [hs']
  split <;> rfl

/-- **The headers stand beside the segments**: in every run the headed levels have the
segments of the index. -/
theorem headed_levels {cfg : Config} {an : Analyzer Value Term}
    {ok : List (IndexOp Value) → HeadedIndex Value Term → IndexOp Value → Prop}
    {hist : List (IndexOp Value)} {st : HeadedIndex Value Term}
    (h : Reaches (headedStep cfg an) ok HeadedIndex.init hist st) :
    CorpusInv cfg an st.index ∧ HeadedLevels.contents st.headed = st.index.levels := by
  apply h.invariant
  · exact ⟨corpusInv_start cfg an Heap.empty, rfl⟩
  · intro _ st op st' hinv _ hstep
    exact ⟨hinv.1.indexStep (indexStep_of_headedStep hstep),
      contents_headedStep hinv.1 hinv.2 hstep⟩

/-! ## Tenant sections -/

theorem entryTotals_perm {entries entries' : List (Nat × TenantStatsEntry)}
    (h : entries.Perm entries') (tenantId : Nat) :
    entryTotals entries tenantId = entryTotals entries' tenantId :=
  (h.map _).sum_eq

theorem entryTotals_flatMap {α : Type} (xs : List α) (f : α → List (Nat × TenantStatsEntry))
    (tenantId : Nat) :
    entryTotals (xs.flatMap f) tenantId = (xs.map fun x => entryTotals (f x) tenantId).sum := by
  induction xs with
  | nil => rfl
  | cons x rest ih =>
      rw [List.flatMap_cons, entryTotals, List.map_append, List.sum_append, List.map_cons,
        List.sum_cons, ← ih]
      rfl

/-- The entry of a tenant is what the entries add up to for it. -/
theorem entryTotals_of_mem {entries : List (Nat × TenantStatsEntry)}
    (hdistinct : (entries.map Prod.fst).Nodup) {e : Nat × TenantStatsEntry} (he : e ∈ entries) :
    entryTotals entries e.1 = (e.2.docCount, e.2.totalLen) := by
  induction entries with
  | nil => cases he
  | cons d rest ih =>
      rw [List.map_cons, List.nodup_cons] at hdistinct
      rw [entryTotals, List.map_cons, List.sum_cons]
      rcases List.mem_cons.1 he with rfl | he
      · have hrest := entryTotals_of_notMem hdistinct.1
        rw [entryTotals] at hrest
        rw [if_pos rfl, hrest, add_zero]
      · have hne : d.1 ≠ e.1 := by
          intro heq
          exact hdistinct.1 (heq ▸ List.mem_map_of_mem he)
        have hrest := ih hdistinct.2 he
        rw [entryTotals] at hrest
        rw [if_neg hne, hrest, zero_add]

theorem mem_foldl_addTenantEntry (entries : List (Nat × TenantStatsEntry)) (table : TenantTable)
    (tenantId : Nat) :
    tenantId ∈ entries.foldl addTenantEntry table ↔
      tenantId ∈ table ∨ tenantId ∈ entries.map Prod.fst := by
  induction entries generalizing table with
  | nil => simp
  | cons e rest ih =>
      have hadd : tenantId ∈ addTenantEntry table e ↔ tenantId = e.1 ∨ tenantId ∈ table := by
        unfold addTenantEntry
        cases table.lookup e.1 with
        | none => exact AList.mem_insert table
        | some d => exact AList.mem_insert table
      rw [List.foldl_cons, ih, hadd, List.map_cons, List.mem_cons]
      tauto

/-- Sorting the collected entries of a table. -/
theorem sorted_collect (table : TenantTable) :
    ((sortTenantStats (tpTenantStatsCollect table)).map Prod.fst).Nodup ∧
      (∀ tenantId, tenantId ∈ (sortTenantStats (tpTenantStatsCollect table)).map Prod.fst ↔
        tenantId ∈ table) ∧
      ∀ tenantId, entryTotals (sortTenantStats (tpTenantStatsCollect table)) tenantId =
        tenantTotals table tenantId := by
  have hperm : (sortTenantStats (tpTenantStatsCollect table)).Perm (tpTenantStatsCollect table) :=
    List.perm_insertionSort ..
  have hkeys : (tpTenantStatsCollect table).map Prod.fst = table.keys := by
    rw [tpTenantStatsCollect, List.map_map]
    rfl
  refine ⟨?_, ?_, ?_⟩
  · rw [(hperm.map _).nodup_iff, hkeys]
    exact table.keys_nodup
  · intro tenantId
    rw [(hperm.map _).mem_iff, hkeys]
    exact AList.mem_keys.symm
  · intro tenantId
    rw [entryTotals_perm hperm, entryTotals_collect]

/-! ## Merged headers -/

omit [DecidableEq Term] in
/-- The documents of several segments. -/
def chainDocs (chain : List (SegmentHeader × SegmentContents Term)) : Finset ItemPointer :=
  chain.foldr (fun p docs => segmentDocs p.2 ∪ docs) ∅

omit [DecidableEq Term] in
theorem mem_chainDocs {chain : List (SegmentHeader × SegmentContents Term)} {ctid : ItemPointer} :
    ctid ∈ chainDocs chain ↔ ∃ p ∈ chain, ctid ∈ segmentDocs p.2 := by
  induction chain with
  | nil => simp [chainDocs]
  | cons p rest ih =>
      rw [chainDocs, List.foldr_cons, Finset.mem_union, ← chainDocs, ih]
      simp

omit [DecidableEq Term] in
/-- What adds up over disjoint sets of documents adds up over disjoint segments. -/
theorem sum_chain {M : Type} [AddCommMonoid M] (F : Finset ItemPointer → M) (hempty : F ∅ = 0)
    (hunion : ∀ a b, Disjoint a b → F (a ∪ b) = F a + F b)
    {chain : List (SegmentHeader × SegmentContents Term)} (h : chain.Pairwise Apart) :
    (chain.map fun p => F (segmentDocs p.2)).sum = F (chainDocs chain) := by
  induction chain with
  | nil => exact hempty.symm
  | cons p rest ih =>
      rw [List.pairwise_cons] at h
      have hdisjoint : Disjoint (segmentDocs p.2) (chainDocs rest) := by
        rw [Finset.disjoint_left]
        intro c hc hrest
        obtain ⟨q, hq, hcq⟩ := mem_chainDocs.1 hrest
        exact Finset.disjoint_left.1 (h.1 q hq) hc hcq
      rw [List.map_cons, List.sum_cons, ih h.2]
      exact (hunion _ _ hdisjoint).symm

omit [DecidableEq Term] in
theorem tenantDocStats_union {cfg : Config} {an : Analyzer Value Term} {heap : Heap Value}
    {a b : Finset ItemPointer} (h : Disjoint a b) (tenantId : Nat) :
    tenantDocStats cfg an heap (a ∪ b) tenantId =
      tenantDocStats cfg an heap a tenantId + tenantDocStats cfg an heap b tenantId := by
  have hparts : Disjoint (a.filter fun c => tenantAt cfg heap c = tenantId)
      (b.filter fun c => tenantAt cfg heap c = tenantId) := Finset.disjoint_filter_filter h
  simp only [tenantDocStats, Finset.filter_union]
  rw [Finset.card_union_of_disjoint hparts, Finset.sum_union hparts]
  rfl

omit [DecidableEq Term] in
/-- An exact section adds up to the documents of each tenant. -/
theorem HeaderExact.entryTotals {cfg : Config} {an : Analyzer Value Term} {heap : Heap Value}
    {seg : SegmentContents Term} {header : SegmentHeader}
    (h : HeaderExact cfg an heap seg header) {tenantId : Nat} (htenant : tenantId ≠ 0) :
    Am.entryTotals header.tenantStats tenantId =
      tenantDocStats cfg an heap (segmentDocs seg) tenantId := by
  by_cases hmem : tenantId ∈ header.tenantStats.map Prod.fst
  · obtain ⟨e, he, rfl⟩ := List.mem_map.1 hmem
    rw [entryTotals_of_mem h.distinct he, (h.entries e he).2]
  · rw [entryTotals_of_notMem hmem, eq_comm, tenantDocStats_eq_zero_iff]
    intro c hc heq
    exact hmem (heq ▸ h.complete c hc (heq ▸ htenant))

omit [DecidableEq Term] in
/-- The rows of a merge have different CTIDs. -/
theorem nodup_mergedDocs (sources : List (SegmentContents Term)) :
    ((mergedDocs sources).map SegDoc.ctid).Nodup := by
  have hfold : ∀ (new acc : List SegDoc), (acc.map SegDoc.ctid).Nodup →
      ((new.foldl addMergedDoc acc).map SegDoc.ctid).Nodup := by
    intro new
    induction new with
    | nil => exact fun acc hacc => hacc
    | cons d rest ih =>
        intro acc hacc
        apply ih
        unfold addMergedDoc
        split
        · exact hacc
        case isFalse hnew =>
          have hout : d.ctid ∉ acc.map SegDoc.ctid := by
            intro hmem
            obtain ⟨d', hd', heq⟩ := List.mem_map.1 hmem
            exact hnew (List.any_eq_true.2 ⟨d', hd', decide_eq_true heq⟩)
          rw [List.map_append, List.nodup_append]
          refine ⟨hacc, List.nodup_singleton _, ?_⟩
          intro a ha b hb
          rw [List.map_singleton, List.mem_singleton] at hb
          rintro rfl
          exact hout (hb ▸ ha)
  exact hfold _ [] List.nodup_nil

omit [DecidableEq Term] in
theorem card_segmentDocs {seg : SegmentContents Term} (h : (seg.docs.map SegDoc.ctid).Nodup) :
    (segmentDocs seg).card = seg.docs.length := by
  rw [segmentDocs, List.toFinset_card_of_nodup h, List.length_map]

/-- A document of a merge is in one of the merged segments. -/
theorem mem_sources_of_merge {chain : List (SegmentHeader × SegmentContents Term)}
    {merged : SegmentContents Term} (hm : mergeSegments (chain.map Prod.snd) = some merged)
    {ctid : ItemPointer} (h : ctid ∈ segmentDocs merged) :
    ∃ p ∈ chain, ctid ∈ segmentDocs p.2 := by
  simp only [mergeSegments] at hm
  split at hm
  · cases hm
  cases hm
  obtain ⟨d, hd, rfl⟩ := mem_segmentDocs.1 h
  obtain ⟨seg, hseg, d', hd', rfl⟩ := mem_mergedDocs hd
  obtain ⟨p, hp, rfl⟩ := List.mem_map.1 (List.mem_filter.1 hseg).1
  exact ⟨p, hp, mem_segmentDocs.2 ⟨d', hd', rfl⟩⟩

/-- **A merge** of disjoint segments with exact headers has an exact header. -/
theorem mergedHeader_exact {cfg : Config} {an : Analyzer Value Term} {heap : Heap Value}
    {chain : List (SegmentHeader × SegmentContents Term)} {merged : SegmentContents Term}
    (hexact : ∀ p ∈ chain, HeaderExact cfg an heap p.2 p.1) (hapart : chain.Pairwise Apart)
    (hm : mergeSegments (chain.map Prod.snd) = some merged) :
    HeaderExact cfg an heap merged (mergedHeader chain merged) := by
  generalize hsources : (chain.filter fun p => !p.2.terms.isEmpty) = sources
  have hsub : ∀ p ∈ sources, HeaderExact cfg an heap p.2 p.1 := by
    intro p hp
    rw [← hsources] at hp
    exact hexact p (List.mem_filter.1 hp).1
  have hpair : sources.Pairwise Apart := hsources ▸ hapart.filter _
  have hcontents : ((chain.map Prod.snd).filter fun seg => !seg.terms.isEmpty) =
      sources.map Prod.snd := by
    rw [← hsources, List.filter_map]
    rfl
  simp only [mergeSegments, hcontents] at hm
  split at hm
  · cases hm
  cases hm
  have hdocs :
    segmentDocs (⟨mergedTerms (sources.map Prod.snd), mergedDocs (sources.map Prod.snd)⟩ :
      SegmentContents Term) = chainDocs sources := by
    ext c
    rw [mem_segmentDocs, mem_chainDocs]
    constructor
    · rintro ⟨d, hd, rfl⟩
      obtain ⟨seg, hseg, d', hd', rfl⟩ := mem_mergedDocs hd
      obtain ⟨p, hp, rfl⟩ := List.mem_map.1 hseg
      exact ⟨p, hp, mem_segmentDocs.2 ⟨d', hd', rfl⟩⟩
    · rintro ⟨p, hp, hc⟩
      obtain ⟨d, hd, rfl⟩ := mem_segmentDocs.1 hc
      exact exists_mem_mergedDocs (List.mem_map_of_mem hp) hd
  obtain ⟨hdistinct, hkeys, htotals⟩ := sorted_collect
    ((sources.flatMap fun p => p.1.tenantStats).foldl addTenantEntry ∅)
  have hstats : ∀ tenantId, tenantId ≠ 0 → entryTotals (mergedHeader chain
      (⟨mergedTerms (sources.map Prod.snd), mergedDocs (sources.map Prod.snd)⟩ :
        SegmentContents Term)).tenantStats tenantId =
      tenantDocStats cfg an heap (chainDocs sources) tenantId := by
    intro tenantId htenant
    have hsum := sum_chain (fun docs => tenantDocStats cfg an heap docs tenantId)
      (tenantDocStats_empty cfg an heap tenantId) (fun _ _ hab => tenantDocStats_union hab tenantId)
      hpair
    simp only [mergedHeader, hsources]
    rw [htotals, tenantTotals_foldl, entryTotals_flatMap, ← hsum,
      List.map_congr_left fun p hp => (hsub p hp).entryTotals htenant]
    exact zero_add _
  have hmember : ∀ tenantId, tenantId ∈ (mergedHeader chain
      (⟨mergedTerms (sources.map Prod.snd), mergedDocs (sources.map Prod.snd)⟩ :
        SegmentContents Term)).tenantStats.map Prod.fst ↔
      ∃ p ∈ sources, tenantId ∈ p.1.tenantStats.map Prod.fst := by
    intro tenantId
    simp only [mergedHeader, hsources]
    rw [hkeys, mem_foldl_addTenantEntry, List.map_flatMap, List.mem_flatMap]
    simp
  constructor
  · rw [card_segmentDocs (nodup_mergedDocs _)]
    rfl
  · have hsum := sum_chain (fun docs => ∑ ctid ∈ docs, documentLength an heap ctid) rfl
      (fun _ _ hab => Finset.sum_union hab) hpair
    simp only [mergedHeader, hsources]
    rw [hdocs, ← hsum, List.map_congr_left fun p hp => (hsub p hp).totalTokens]
  · intro e he
    have hne : e.1 ≠ 0 := by
      obtain ⟨p, hp, hkey⟩ := (hmember e.1).1 (List.mem_map_of_mem he)
      obtain ⟨e', he', heq⟩ := List.mem_map.1 hkey
      exact heq ▸ ((hsub p hp).entries e' he').1
    rw [hdocs, ← hstats e.1 hne]
    refine ⟨hne, (entryTotals_of_mem ?_ he).symm⟩
    simp only [mergedHeader, hsources]
    exact hdistinct
  · simp only [mergedHeader, hsources]
    exact hdistinct
  · rw [hdocs]
    intro c hc hne
    obtain ⟨p, hp, hcp⟩ := mem_chainDocs.1 hc
    exact (hmember _).2 ⟨p, hp, (hsub p hp).complete c hcp hne⟩

/-! ## Compaction and spills -/

omit [DecidableEq Term] in
/-- Exact headers of segments that share no document, within a level and across levels. -/
structure ExactLevels (cfg : Config) (an : Analyzer Value Term) (heap : Heap Value)
    (headed : HeadedLevels Term) : Prop where
  exact : HeadersExact cfg an heap headed
  within : ∀ level < tpMaxLevels, (headed level).Pairwise Apart
  across : ∀ level < tpMaxLevels, ∀ level' < tpMaxLevels, level ≠ level' →
    ∀ p ∈ headed level, ∀ q ∈ headed level', Apart p q

omit [DecidableEq Term] in
theorem Apart.symm {p q : SegmentHeader × SegmentContents Term} (h : Apart p q) : Apart q p :=
  Disjoint.symm h

omit [DecidableEq Term] in
/-- Linking a segment that shares no document with the others. -/
theorem ExactLevels.linkHeaded {cfg : Config} {an : Analyzer Value Term} {heap : Heap Value}
    {headed : HeadedLevels Term} (h : ExactLevels cfg an heap headed) (level : Nat)
    {p : SegmentHeader × SegmentContents Term} (hp : HeaderExact cfg an heap p.2 p.1)
    (hapart : ∀ l < tpMaxLevels, ∀ q ∈ headed l, Apart p q) :
    ExactLevels cfg an heap (linkHeaded headed level p) := by
  have hmem : ∀ l < tpMaxLevels, ∀ q ∈ Am.linkHeaded headed level p l,
      l = level ∧ q = p ∨ q ∈ headed l := by
    intro l _ q hq
    by_cases hl : l = level
    · subst hl
      rw [Am.linkHeaded, Function.update_self, List.mem_cons] at hq
      exact hq.imp (fun heq => ⟨rfl, heq⟩) id
    · rw [Am.linkHeaded, Function.update_of_ne hl] at hq
      exact Or.inr hq
  constructor
  · intro l hl q hq
    rcases hmem l hl q hq with ⟨-, rfl⟩ | hq
    · exact hp
    · exact h.exact l hl q hq
  · intro l hl
    by_cases hll : l = level
    · subst hll
      rw [Am.linkHeaded, Function.update_self, List.pairwise_cons]
      exact ⟨hapart l hl, h.within l hl⟩
    · rw [Am.linkHeaded, Function.update_of_ne hll]
      exact h.within l hl
  · intro l hl l' hl' hne q hq r hr
    rcases hmem l hl q hq with ⟨rfl, rfl⟩ | hold
    · rcases hmem l' hl' r hr with ⟨rfl, -⟩ | hold'
      · exact absurd rfl hne
      · exact hapart l' hl' r hold'
    · rcases hmem l' hl' r hr with ⟨rfl, rfl⟩ | hold'
      · exact (hapart l hl q hold).symm
      · exact h.across l hl l' hl' hne q hold r hold'

omit [DecidableEq Term] in
theorem ExactLevels.clear {cfg : Config} {an : Analyzer Value Term} {heap : Heap Value}
    {headed : HeadedLevels Term} (h : ExactLevels cfg an heap headed) (level : Nat) :
    ExactLevels cfg an heap (Function.update headed level []) := by
  have hmem : ∀ l q, q ∈ Function.update headed level [] l → l ≠ level ∧ q ∈ headed l := by
    intro l q hq
    by_cases hl : l = level
    · rw [hl, Function.update_self] at hq
      cases hq
    · rw [Function.update_of_ne hl] at hq
      exact ⟨hl, hq⟩
  constructor
  · exact fun l hl q hq => h.exact l hl q (hmem l q hq).2
  · intro l hl
    by_cases hll : l = level
    · rw [hll, Function.update_self]
      exact List.Pairwise.nil
    · rw [Function.update_of_ne hll]
      exact h.within l hl
  · exact fun l hl l' hl' hne q hq r hr =>
      h.across l hl l' hl' hne q (hmem l q hq).2 r (hmem l' r hr).2

/-- **Compaction** keeps the headers exact. -/
theorem ExactLevels.compact {cfg : Config} {an : Analyzer Value Term} {heap : Heap Value}
    {headed : HeadedLevels Term} (h : ExactLevels cfg an heap headed) (segmentsPerLevel fuel : Nat)
    (level : Nat) : ExactLevels cfg an heap (compactHeaded segmentsPerLevel fuel headed level) := by
  induction fuel generalizing headed level with
  | zero => exact h
  | succ fuel ih =>
      unfold compactHeaded
      split
      · exact h
      split
      · exact h
      cases hm : mergeSegments ((headed level).map Prod.snd) with
      | none => exact h
      | some merged =>
          have hlevel : level < tpMaxLevels := by omega
          refine ih ((h.clear level).linkHeaded (level + 1)
            (mergedHeader_exact (h.exact level hlevel) (h.within level hlevel) hm) ?_) (level + 1)
          -- the merged documents are those of the level, which the others do not have
          intro l hl q hq
          have hne : l ≠ level := by
            rintro rfl
            rw [Function.update_self] at hq
            cases hq
          rw [Function.update_of_ne hne] at hq
          show Disjoint (segmentDocs merged) (segmentDocs q.2)
          rw [Finset.disjoint_left]
          intro c hc hcq
          obtain ⟨p, hp, hcp⟩ := mem_sources_of_merge hm hc
          exact Finset.disjoint_left.1 (h.across level hlevel l hl (Ne.symm hne) p hp q hq) hcp hcq

/-- **The first written segment** has an exact header: the documents of the index are
those of the memtable. -/
theorem writtenHeader_exact {cfg : Config} {an : Analyzer Value Term} {s : IndexState Value Term}
    (hcorpus : CorpusInv cfg an s) (htable : TableExact cfg an s) {seg : SegmentContents Term}
    (hseg : tpWriteSegment s.memtable = .ok (some seg)) (hfirst : linkedSegments s.levels = []) :
    HeaderExact cfg an s.heap seg (writtenHeader s seg) := by
  have hdocs : corpus s = segmentDocs seg := by
    rw [corpus, linkedDocs, hfirst, (docs_of_tpWriteSegment hseg).1]
    exact Finset.union_empty _
  have hnodup : (seg.docs.map SegDoc.ctid).Nodup := by
    rw [(tpWriteSegment_spec hseg).2, List.map_map]
    exact s.memtable.docLengths.keys_nodup
  obtain ⟨hdistinct, hkeys, htotals⟩ := sorted_collect s.memtable.tenantStats
  constructor
  · exact (card_segmentDocs hnodup).symm
  · rw [← hdocs]
    exact hcorpus.counted.length
  · intro e he
    have hin : e.1 ∈ s.memtable.tenantStats := (hkeys e.1).1 (List.mem_map_of_mem he)
    obtain ⟨d, hd⟩ := Option.isSome_iff_exists.1 (AList.lookup_isSome.2 hin)
    have hne : e.1 ≠ 0 := (htable.counting e.1 d hd).1
    rw [← hdocs, ← htable.exact e.1 hne, ← htotals]
    exact ⟨hne, (entryTotals_of_mem hdistinct he).symm⟩
  · exact hdistinct
  · intro c hc hne
    refine (hkeys _).2 ?_
    -- a tenant with a document has a total, so it is in the table
    rw [← AList.lookup_isSome]
    by_contra hnone
    have hlookup : s.memtable.tenantStats.lookup (tenantAt cfg s.heap c) = none := by
      simpa using hnone
    have hstats := htable.exact _ hne
    rw [tenantTotals, hlookup, eq_comm, tenantDocStats_eq_zero_iff, hdocs] at hstats
    exact hstats c hc rfl

/-! ## Runs -/

/-- Both the corpus statistics and the tenant table survive the parts of a call. -/
theorem exactTotals_keptByCalls {cfg : Config} {an : Analyzer Value Term}
    {s : IndexState Value Term} (hcorpus : CorpusInv cfg an s) (htable : TableExact cfg an s)
    (op : IndexOp Value) :
    KeptByCalls cfg an op s (fun s => CorpusInv cfg an s ∧ TableExact cfg an s) := by
  have hkept := hcorpus.keptByCalls op
  constructor
  · exact fun s hs => hs.1.cover
  · exact fun ctid tuple hvalid hfree =>
      ⟨hkept.placed ctid tuple hvalid hfree, htable.place hfree hvalid tuple⟩
  · intro backend ctid tuple tv hvalid hfree hop hterms
    have htuple : (s.heap.place ctid hvalid tuple).tuples ctid = some tuple :=
      Function.update_self ..
    exact ⟨hkept.added backend ctid tuple tv hvalid hfree hop hterms,
      (htable.place hfree hvalid tuple).addDocument (htable.notMem_of_free hfree) htuple hterms
        backend⟩
  · exact fun s s' hs hspilled => ⟨hs.1.spilled hspilled, hs.2.spilled hspilled⟩
  · exact fun s backend ctid tuple hs htuple hmem =>
      ⟨hkept.recorded s backend ctid tuple hs.1 htuple hmem, hs.2.congr rfl rfl rfl⟩
  · exact fun s counters hs => ⟨hkept.counters s counters hs.1, hs.2.congr rfl rfl rfl⟩

/-- A call keeps the tuples of the heap. -/
theorem tuples_indexStep {cfg : Config} {an : Analyzer Value Term} {s s' : IndexState Value Term}
    (hcover : TermsCover s.levels) {op : IndexOp Value} (hstep : indexStep cfg an s op = some s')
    {ctid : ItemPointer} (h : (s.heap.tuples ctid).isSome) :
    s'.heap.tuples ctid = s.heap.tuples ctid := by
  have hkept : KeptByCalls cfg an op s
      (fun s' => TermsCover s'.levels ∧ s'.heap.tuples ctid = s.heap.tuples ctid) := by
    constructor
    · exact fun s hs => hs.1
    · exact fun c tuple hvalid hfree => ⟨hcover, tuples_place_of_isSome hfree hvalid tuple h⟩
    · exact fun _ c tuple _ hvalid hfree _ _ =>
        ⟨hcover, tuples_place_of_isSome hfree hvalid tuple h⟩
    · exact fun s s' hs hspilled => ⟨hspilled.cover, hspilled.heap ▸ hs.2⟩
    · exact fun _ _ _ _ hs _ _ => hs
    · exact fun _ _ hs => hs
  exact (hkept.indexStep ⟨hcover, rfl⟩ hstep).2

omit [DecidableEq Term] in
/-- A header depends on the tuples of its documents only. -/
theorem HeaderExact.heap_congr {cfg : Config} {an : Analyzer Value Term} {heap heap' : Heap Value}
    {seg : SegmentContents Term} {header : SegmentHeader} (h : HeaderExact cfg an heap seg header)
    (hheap : ∀ c ∈ segmentDocs seg, heap'.tuples c = heap.tuples c) :
    HeaderExact cfg an heap' seg header := by
  have hlen : ∀ c ∈ segmentDocs seg, documentLength an heap' c = documentLength an heap c := by
    intro c hc
    rw [documentLength, documentLength, documentAt, documentAt, hheap c hc]
  have hat : ∀ c ∈ segmentDocs seg, tenantAt cfg heap' c = tenantAt cfg heap c := by
    intro c hc
    rw [tenantAt, tenantAt, hheap c hc]
  constructor
  · exact h.numDocs
  · rw [h.totalTokens]
    exact Finset.sum_congr rfl fun c hc => (hlen c hc).symm
  · intro e he
    refine ⟨(h.entries e he).1, (h.entries e he).2.trans (tenantDocStats_congr ?_ ?_)⟩
    · intro c
      exact and_congr_right fun hc => by rw [hat c hc]
    · exact fun c hc => (hlen c hc).symm
  · exact h.distinct
  · intro c hc
    rw [hat c hc]
    exact h.complete c hc

omit [DecidableEq Term] in
/-- The documents of the headed segments are documents of the index. -/
theorem mem_corpus_of_headed {s : IndexState Value Term} {headed : HeadedLevels Term}
    (h : HeadedLevels.contents headed = s.levels) {level : Nat} (hlevel : level < tpMaxLevels)
    {p : SegmentHeader × SegmentContents Term} (hp : p ∈ headed level) {ctid : ItemPointer}
    (hc : ctid ∈ segmentDocs p.2) : ctid ∈ corpus s := by
  refine Finset.mem_union_right _ (mem_linkedDocs.2 ⟨p.2, mem_linkedSegments.2 ⟨level, hlevel, ?_⟩,
    hc⟩)
  rw [← h]
  exact List.mem_map_of_mem hp

/-- **Every call** whose spill writes the first segment keeps the headers exact. -/
theorem headersExact_step {cfg : Config} {an : Analyzer Value Term}
    {st st' : HeadedIndex Value Term} {op : IndexOp Value} (hcorpus : CorpusInv cfg an st.index)
    (htable : TableExact cfg an st.index)
    (haligned : HeadedLevels.contents st.headed = st.index.levels)
    (hexact : HeadersExact cfg an st.index.heap st.headed)
    (hfirst : WritesFirstSegment cfg an st op) (hstep : headedStep cfg an st op = some st') :
    HeadersExact cfg an st'.index.heap st'.headed := by
  obtain ⟨s', hs', rfl⟩ := Option.map_eq_some_iff.1 hstep
  have hold : HeadersExact cfg an s'.heap st.headed := by
    intro level hlevel p hp
    refine (hexact level hlevel p hp).heap_congr fun c hc => tuples_indexStep hcorpus.cover hs' ?_
    exact htable.inHeap c (mem_corpus_of_headed haligned hlevel hp hc)
  cases hstart : spillStart cfg an st.index op with
  | none => exact hold
  | some start =>
      obtain ⟨⟨hcorpus', htable'⟩, hlevels, hheap, -⟩ :=
        spillStart_some (exactTotals_keptByCalls hcorpus htable op) ⟨hcorpus, htable⟩ hs' hstart
      show HeadersExact cfg an s'.heap (spillHeaded cfg start st.headed)
      unfold spillHeaded
      split
      case h_1 seg hseg =>
        have hnone : linkedSegments st.index.levels = [] := hfirst start seg hstart hseg
        have hempty : ∀ level < tpMaxLevels, st.headed level = [] := by
          intro level hlevel
          have hin : st.index.levels level = [] := by
            rw [linkedSegments, List.flatMap_eq_nil_iff] at hnone
            exact hnone level (List.mem_range.2 hlevel)
          rw [← haligned] at hin
          exact List.map_eq_nil_iff.1 hin
        have hstarted : ExactLevels cfg an s'.heap st.headed := by
          refine ⟨hold, ?_, ?_⟩
          · intro level hlevel
            rw [hempty level hlevel]
            exact List.Pairwise.nil
          · intro level hlevel level' _ _ p hp
            rw [hempty level hlevel] at hp
            cases hp
        refine ((hstarted.linkHeaded 0 ?_ ?_).compact cfg.segmentsPerLevel tpMaxLevels 0).exact
        · rw [hheap]
          exact writtenHeader_exact hcorpus' htable' hseg (hlevels ▸ hnone)
        · intro level hlevel q hq
          rw [hempty level hlevel] at hq
          cases hq
      case h_2 => exact hold

/-- The condition of `WritesFirstSegment`. -/
def writesFirstSegmentCheck (cfg : Config) (an : Analyzer Value Term)
    (st : HeadedIndex Value Term) (op : IndexOp Value) : Bool :=
  match spillStart cfg an st.index op with
  | none => true
  | some start =>
      match tpWriteSegment start.memtable with
      | .ok (some _) => (linkedSegments st.index.levels).isEmpty
      | _ => true

theorem writesFirstSegment_of_check {cfg : Config} {an : Analyzer Value Term}
    {st : HeadedIndex Value Term} {op : IndexOp Value}
    (h : writesFirstSegmentCheck cfg an st op = true) : WritesFirstSegment cfg an st op := by
  intro start seg hstart hseg
  simp only [writesFirstSegmentCheck, hstart, hseg, List.isEmpty_iff] at h
  exact h

/-- Documents of two tenants in the first segment, and one more in the memtable. -/
def firstSpill : List (IndexOp (TermVector Nat)) :=
  [.insert 1 ⟨0, 1⟩ ⟨some oneWord, 5⟩, .insert 1 ⟨0, 2⟩ ⟨some oneWord, 6⟩, .spillMemtable 1,
    .insert 1 ⟨0, 3⟩ ⟨some oneWord, 5⟩]

/-- Two documents, each spilled by itself. -/
def twoSpills : List (IndexOp (TermVector Nat)) :=
  [.insert 1 ⟨0, 1⟩ ⟨some oneWord, 0⟩, .spillMemtable 1, .insert 1 ⟨0, 2⟩ ⟨some oneWord, 0⟩,
    .spillMemtable 1]

end PgTextsearch.Am
