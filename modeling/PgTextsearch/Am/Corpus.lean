import PgTextsearch.Am.Build

/-!
# The documents of an index (`am/build.c`, `segment/segment.c`)

The documents of an index are those of its memtable and of its linked segments.
This module says what compaction, spills and inserts do to them.

## Main results

* `linkedDocs_compact` — compaction keeps the documents of the segments.
* `spill_effect` — a spill leaves the documents of the index as they are and puts
  them all into segments.
* `tpInsert_cases` — an insert adds a document, perhaps spills, and records the
  CTID on the docid pages.
* `KeptByCalls.indexStep` — the rule for invariants of inserts, spills and commits.
-/

namespace PgTextsearch.Am

open PgTextsearch.Postgres PgTextsearch.Segment PgTextsearch.State

variable {Value Term : Type}

/-! ## The documents of an index -/

/-- The terms a tuple is indexed under; NULL columns and documents without terms
are not indexed. -/
def indexedTerms (an : Analyzer Value Term) (tuple : HeapTuple Value) :
    Option (TermVector Term) :=
  match tuple.value with
  | none => none
  | some value => if (an.insertTerms value).entries = [] then none else some (an.insertTerms value)

/-- The document at a CTID. -/
def documentAt (an : Analyzer Value Term) (heap : Heap Value) (ctid : ItemPointer) :
    Option (TermVector Term) :=
  (heap.tuples ctid).bind (indexedTerms an)

/-- Its length. -/
def documentLength (an : Analyzer Value Term) (heap : Heap Value) (ctid : ItemPointer) : Nat :=
  ((documentAt an heap ctid).map TermVector.docLength).getD 0

/-- The documents in the memtable. -/
def memtableDocs (mt : Memtable Term) : Finset ItemPointer :=
  mt.docLengths.keys.toFinset

/-- The documents of a segment. -/
def segmentDocs (seg : SegmentContents Term) : Finset ItemPointer :=
  (seg.docs.map SegDoc.ctid).toFinset

/-- The documents in the linked segments. -/
def linkedDocs (levels : Levels Term) : Finset ItemPointer :=
  ((linkedSegments levels).flatMap fun seg => seg.docs.map SegDoc.ctid).toFinset

/-- The documents of the index, each once. -/
def corpus (s : IndexState Value Term) : Finset ItemPointer :=
  memtableDocs s.memtable ∪ linkedDocs s.levels

/-! ## Membership -/

theorem mem_memtableDocs {mt : Memtable Term} {ctid : ItemPointer} :
    ctid ∈ memtableDocs mt ↔ (mt.docLengths.lookup ctid).isSome := by
  rw [memtableDocs, List.mem_toFinset, AList.lookup_isSome]
  rfl

theorem mem_segmentDocs {seg : SegmentContents Term} {ctid : ItemPointer} :
    ctid ∈ segmentDocs seg ↔ ∃ d ∈ seg.docs, d.ctid = ctid := by
  rw [segmentDocs, List.mem_toFinset, List.mem_map]

theorem mem_linkedDocs {levels : Levels Term} {ctid : ItemPointer} :
    ctid ∈ linkedDocs levels ↔ ∃ seg ∈ linkedSegments levels, ctid ∈ segmentDocs seg := by
  rw [linkedDocs, List.mem_toFinset, List.mem_flatMap]
  simp only [segmentDocs, List.mem_toFinset]

@[simp] theorem memtableDocs_empty : memtableDocs (Memtable.empty : Memtable Term) = ∅ := rfl

@[simp] theorem memtableDocs_clear (mt : Memtable Term) : memtableDocs (tpClearMemtable mt) = ∅ :=
  rfl

@[simp] theorem linkedDocs_nil : linkedDocs (fun _ => [] : Levels Term) = ∅ := by
  simp [linkedDocs, linkedSegments]

/-- A segment without terms has no documents: what a merge relies on when it leaves
out such sources. -/
def TermsCover (levels : Levels Term) : Prop :=
  ∀ seg ∈ linkedSegments levels, seg.terms = [] → seg.docs = []

variable [DecidableEq Term]

theorem memtableDocs_addDocumentTerms (mt : Memtable Term) (ctid : ItemPointer)
    (tv : TermVector Term) (tenantId : Nat) :
    memtableDocs (tpAddDocumentTerms mt ctid tv tenantId) = insert ctid (memtableDocs mt) := by
  ext c
  rw [mem_memtableDocs, docLengths_addDocumentTerms, Finset.mem_insert, mem_memtableDocs]
  by_cases hc : c = ctid
  · rw [hc, AList.lookup_insert]
    simp
  · rw [AList.lookup_insert_ne hc]
    simp [hc]

omit [DecidableEq Term] in
theorem linkedDocs_linkSegment (levels : Levels Term) {level : Nat} (hlevel : level < tpMaxLevels)
    (seg : SegmentContents Term) :
    linkedDocs (linkSegment levels level seg) = segmentDocs seg ∪ linkedDocs levels := by
  ext c
  rw [mem_linkedDocs, Finset.mem_union, mem_linkedDocs]
  constructor
  · rintro ⟨seg', hseg', hc⟩
    rcases (mem_linkSegment hlevel).1 hseg' with rfl | hin
    · exact Or.inl hc
    · exact Or.inr ⟨seg', hin, hc⟩
  · rintro (hc | ⟨seg', hin, hc⟩)
    · exact ⟨seg, (mem_linkSegment hlevel).2 (Or.inl rfl), hc⟩
    · exact ⟨seg', (mem_linkSegment hlevel).2 (Or.inr hin), hc⟩

omit [DecidableEq Term] in
theorem TermsCover.linkSegment {levels : Levels Term} (h : TermsCover levels) {level : Nat}
    (hlevel : level < tpMaxLevels) {seg : SegmentContents Term} (hseg : seg.terms ≠ []) :
    TermsCover (linkSegment levels level seg) := by
  intro seg' hseg' hterms
  rcases (mem_linkSegment hlevel).1 hseg' with rfl | hin
  · exact absurd hterms hseg
  · exact h seg' hin hterms

/-! ## Compaction -/

/-- A merge has the documents of its sources. -/
theorem mem_segmentDocs_mergeSegments {chain : List (SegmentContents Term)}
    {merged : SegmentContents Term} (h : mergeSegments chain = some merged)
    (hcover : ∀ seg ∈ chain, seg.terms = [] → seg.docs = []) {ctid : ItemPointer} :
    ctid ∈ segmentDocs merged ↔ ∃ seg ∈ chain, ctid ∈ segmentDocs seg := by
  simp only [mergeSegments] at h
  split at h
  · cases h
  cases h
  simp only [mem_segmentDocs]
  constructor
  · rintro ⟨d, hd, rfl⟩
    obtain ⟨seg, hseg, d', hd', rfl⟩ := mem_mergedDocs hd
    exact ⟨seg, (List.mem_filter.1 hseg).1, d', hd', rfl⟩
  · rintro ⟨seg, hseg, d, hd, rfl⟩
    have hterms : seg.terms ≠ [] := by
      intro hnil
      rw [hcover seg hseg hnil] at hd
      cases hd
    exact exists_mem_mergedDocs (List.mem_filter.2 ⟨hseg, by simpa using hterms⟩) hd

/-- **Compaction keeps the documents** of the linked segments. -/
theorem linkedDocs_compact (segmentsPerLevel fuel level : Nat) {levels : Levels Term}
    (hcover : TermsCover levels) :
    linkedDocs (tpMaybeCompactLevel segmentsPerLevel fuel levels level) = linkedDocs levels ∧
      TermsCover (tpMaybeCompactLevel segmentsPerLevel fuel levels level) := by
  induction fuel generalizing levels level with
  | zero => exact ⟨rfl, hcover⟩
  | succ fuel ih =>
      unfold tpMaybeCompactLevel
      split
      · exact ⟨rfl, hcover⟩
      split
      · exact ⟨rfl, hcover⟩
      cases hm : mergeSegments (levels level) with
      | none => exact ⟨rfl, hcover⟩
      | some merged =>
          have hlevel : level < tpMaxLevels - 1 := by omega
          have hchain : ∀ seg ∈ levels level, seg.terms = [] → seg.docs = [] := fun seg hseg =>
            hcover seg (mem_linkedSegments.2 ⟨level, by omega, hseg⟩)
          have hmerged : merged.terms ≠ [] := by
            simp only [mergeSegments] at hm
            split at hm
            · cases hm
            case isFalse hne =>
              cases hm
              exact hne
          have hcover' : TermsCover (linkMerged levels level merged) := by
            intro seg hseg hterms
            rcases (mem_linkMerged hlevel).1 hseg with rfl | ⟨l, hl, -, hin⟩
            · exact absurd hterms hmerged
            · exact hcover seg (mem_linkedSegments.2 ⟨l, hl, hin⟩) hterms
          have hdocs : linkedDocs (linkMerged levels level merged) = linkedDocs levels := by
            ext c
            rw [mem_linkedDocs, mem_linkedDocs]
            constructor
            · rintro ⟨seg, hseg, hc⟩
              rcases (mem_linkMerged hlevel).1 hseg with rfl | ⟨l, hl, -, hin⟩
              · obtain ⟨src, hsrc, hcs⟩ := (mem_segmentDocs_mergeSegments hm hchain).1 hc
                exact ⟨src, mem_linkedSegments.2 ⟨level, by omega, hsrc⟩, hcs⟩
              · exact ⟨seg, mem_linkedSegments.2 ⟨l, hl, hin⟩, hc⟩
            · rintro ⟨seg, hseg, hc⟩
              obtain ⟨l, hl, hin⟩ := mem_linkedSegments.1 hseg
              by_cases hll : l = level
              · subst hll
                exact ⟨merged, (mem_linkMerged hlevel).2 (Or.inl rfl),
                  (mem_segmentDocs_mergeSegments hm hchain).2 ⟨seg, hin, hc⟩⟩
              · exact ⟨seg, (mem_linkMerged hlevel).2 (Or.inr ⟨l, hl, hll, hin⟩), hc⟩
          obtain ⟨heq, hcov⟩ := ih (level + 1) hcover'
          exact ⟨heq.trans hdocs, hcov⟩

/-! ## Spills -/

omit [DecidableEq Term] in
/-- The written segment has the documents of the memtable, and terms. -/
theorem docs_of_tpWriteSegment {mt : Memtable Term} {seg : SegmentContents Term}
    [DecidableEq Term] (h : tpWriteSegment mt = .ok (some seg)) :
    segmentDocs seg = memtableDocs mt ∧ seg.terms ≠ [] := by
  constructor
  · ext c
    rw [segmentDocs, (tpWriteSegment_spec h).2, List.map_map, memtableDocs, List.mem_toFinset,
      List.mem_toFinset]
    rfl
  · unfold tpWriteSegment at h
    split at h
    · cases h
    split at h
    · cases h
    case isFalse hne =>
      obtain ⟨terms, hterms, h⟩ := bind_eq_ok h
      cases h
      intro hnil
      cases hentries : mt.stringTable.entries with
      | nil => exact hne hentries
      | cons e rest =>
          rw [hentries] at hterms
          obtain ⟨converted, -, hterms⟩ := bind_eq_ok hterms
          obtain ⟨more, -, hterms⟩ := bind_eq_ok hterms
          cases hterms
          cases hnil

/-- What a complete spill leaves behind. -/
structure Spilled (cfg : Config) (s s' : IndexState Value Term) : Prop where
  memtable : s'.memtable = tpClearMemtable s.memtable
  docs : linkedDocs s'.levels = corpus s
  cover : TermsCover s'.levels
  totalDocs : s'.totalDocs = s.totalDocs
  totalLen : s'.totalLen = s.totalLen
  metaTotalDocs : s'.metaTotalDocs = s.totalDocs
  metaTotalLen : s'.metaTotalLen = s.totalLen
  tenantPages : s'.tenantStatsPages = (tpWriteTenantStatsPages cfg s).tenantStatsPages
  pages : (s'.docids.indexes cfg.indexOid).pages = (s.docids.indexes cfg.indexOid).pages
  heap : s'.heap = s.heap

omit [DecidableEq Term] in
/-- A spill keeps the documents of the index. -/
theorem Spilled.corpus_eq {cfg : Config} {s s' : IndexState Value Term} (h : Spilled cfg s s') :
    corpus s' = corpus s := by
  rw [corpus, h.memtable, memtableDocs_clear, h.docs, Finset.empty_union]

omit [DecidableEq Term] in
theorem tenantPages_congr {cfg : Config} {s s' : IndexState Value Term}
    (hstats : s'.memtable.tenantStats = s.memtable.tenantStats)
    (hpages : s'.tenantStatsPages = s.tenantStatsPages) :
    (tpWriteTenantStatsPages cfg s').tenantStatsPages =
      (tpWriteTenantStatsPages cfg s).tenantStatsPages := by
  unfold tpWriteTenantStatsPages
  rw [hstats]
  split
  · rfl
  · exact hpages

omit [DecidableEq Term] in
/-- Writing the tenant statistics leaves the corpus statistics alone. -/
theorem tpWriteTenantStatsPages_totals (cfg : Config) (s : IndexState Value Term) :
    (tpWriteTenantStatsPages cfg s).totalDocs = s.totalDocs ∧
      (tpWriteTenantStatsPages cfg s).totalLen = s.totalLen ∧
      (tpWriteTenantStatsPages cfg s).metaTotalDocs = s.metaTotalDocs ∧
      (tpWriteTenantStatsPages cfg s).metaTotalLen = s.metaTotalLen := by
  unfold tpWriteTenantStatsPages
  split <;> exact ⟨rfl, rfl, rfl, rfl⟩

/-- The statistics and docid pages after a spill that writes. -/
theorem spill_stats_of_writes (cfg : Config) (backend : Nat) (kind : SpillKind)
    {s : IndexState Value Term} {seg : SegmentContents Term}
    (h : tpWriteSegment s.memtable = .ok (some seg)) :
    (spill cfg backend kind s).totalDocs = s.totalDocs ∧
      (spill cfg backend kind s).totalLen = s.totalLen ∧
      (spill cfg backend kind s).metaTotalDocs = s.totalDocs ∧
      (spill cfg backend kind s).metaTotalLen = s.totalLen ∧
      (spill cfg backend kind s).tenantStatsPages =
        (tpWriteTenantStatsPages cfg s).tenantStatsPages ∧
      ((spill cfg backend kind s).docids.indexes cfg.indexOid).pages =
        (s.docids.indexes cfg.indexOid).pages := by
  cases kind <;>
    refine ⟨?_, ?_, ?_, ?_, ?_, ?_⟩ <;>
    simp only [spill, runSpillSteps, spillSteps, List.foldl_cons, List.foldl_nil, runSpillStep, h,
      tpWriteTenantStatsPages_totals, tpWriteTenantStatsPages_frame, tpClearDocidPages,
      Function.update_self] <;>
    exact tenantPages_congr rfl rfl

/-- **A spill** writes nothing, or puts all documents of the index into segments. -/
theorem spill_effect {cfg : Config} (backend : Nat) (kind : SpillKind) {s : IndexState Value Term}
    (hcover : TermsCover s.levels) :
    spill cfg backend kind s = s ∨ Spilled cfg s (spill cfg backend kind s) := by
  by_cases hwrites : ∃ seg, tpWriteSegment s.memtable = .ok (some seg)
  · obtain ⟨seg, hseg⟩ := hwrites
    obtain ⟨hdocs, hterms⟩ := docs_of_tpWriteSegment hseg
    have hlevel : 0 < tpMaxLevels := by decide
    have hcompact := linkedDocs_compact cfg.segmentsPerLevel tpMaxLevels 0
      (hcover.linkSegment hlevel hterms)
    obtain ⟨hmt, hlevels, hheap⟩ := spill_of_writes cfg backend kind hseg
    obtain ⟨htd, htl, hmd, hml, htp, hpages⟩ := spill_stats_of_writes cfg backend kind hseg
    rw [← hlevels, linkedDocs_linkSegment s.levels hlevel, hdocs] at hcompact
    exact Or.inr ⟨hmt, hcompact.1, hcompact.2, htd, htl, hmd, hml, htp, hpages, hheap⟩
  · left
    exact spill_of_not_writes kind fun seg hseg => hwrites ⟨seg, hseg⟩

/-! ## Recorded CTIDs -/

omit [DecidableEq Term] in
/-- Some docid page has the CTID, on the chain or not. -/
def OnDocidPage (ix : IndexPages) (ctid : ItemPointer) : Prop :=
  ∃ block page, ix.pages block = some page ∧ ctid ∈ page.docids

private theorem onDocidPage_update {pages : Nat → Option DocidPage} {block b : Nat}
    {page page' : DocidPage} {ctid : ItemPointer}
    (h : Function.update pages block (some page') b = some page) (hc : ctid ∈ page.docids) :
    ctid ∈ page'.docids ∨ pages b = some page := by
  by_cases hb : b = block
  · rw [hb, Function.update_self] at h
    cases h
    exact Or.inl hc
  · rw [Function.update_of_ne hb] at h
    exact Or.inr h

private theorem onDocidPage_newPage {ix : IndexPages} {ctid : ItemPointer}
    (h : OnDocidPage ix.newPage ctid) : OnDocidPage ix ctid := by
  obtain ⟨block, page, hpage, hc⟩ := h
  rcases onDocidPage_update hpage hc with hnil | hold
  · cases hnil
  · exact ⟨block, page, hold, hc⟩

private theorem onDocidPage_findTargetPage {ix : IndexPages} {ctid : ItemPointer}
    (h : OnDocidPage (findTargetPage ix).1 ctid) : OnDocidPage ix ctid := by
  unfold findTargetPage at h
  cases hfirst : ix.firstDocidPage with
  | none =>
      simp only [hfirst] at h
      exact onDocidPage_newPage h
  | some first =>
      simp only [hfirst] at h
      exact h

private theorem onDocidPage_appendDocid {ix : IndexPages} {target : Nat} {ctid c : ItemPointer}
    (h : OnDocidPage (appendDocid ix target ctid).1 c) : c = ctid ∨ OnDocidPage ix c := by
  have hold : ∀ c ∈ ((ix.pages target).getD ⟨[], none⟩).docids, OnDocidPage ix c := by
    intro c hc
    cases hp : ix.pages target with
    | none =>
        rw [hp] at hc
        cases hc
    | some page =>
        rw [hp] at hc
        exact ⟨target, page, hp, hc⟩
  obtain ⟨block, page, hpage, hc⟩ := h
  simp only [appendDocid] at hpage
  split at hpage
  · rcases onDocidPage_update hpage hc with hnew | hpage
    · exact Or.inl (List.mem_singleton.1 hnew)
    · rcases onDocidPage_update hpage hc with htarget | hpage
      · exact Or.inr (hold c htarget)
      · exact Or.inr (onDocidPage_newPage ⟨block, page, hpage, hc⟩)
  · rcases onDocidPage_update hpage hc with hnew | hpage
    · rcases List.mem_append.1 hnew with htarget | hnew
      · exact Or.inr (hold c htarget)
      · exact Or.inl (List.mem_singleton.1 hnew)
    · exact Or.inr ⟨block, page, hpage, hc⟩

/-- Recording a CTID adds no other to the docid pages. -/
theorem onDocidPage_add {d : DocidState} {backend oid : Nat} {ctid c : ItemPointer}
    (h : OnDocidPage ((tpAddDocidToPages d backend oid ctid).indexes oid) c) :
    c = ctid ∨ OnDocidPage (d.indexes oid) c := by
  simp only [tpAddDocidToPages, Function.update_self] at h
  rcases onDocidPage_appendDocid h with rfl | h
  · exact Or.inl rfl
  · split at h
    · exact Or.inr h
    · exact Or.inr (onDocidPage_findTargetPage h)

/-- The chain consists of docid pages. -/
theorem onDocidPage_of_mem_chain {ix : IndexPages} {ctid : ItemPointer}
    (h : ctid ∈ ix.chainDocids) : OnDocidPage ix ctid := by
  have hwalk : ∀ fuel start, ctid ∈ walkDocids ix.pages fuel start → OnDocidPage ix ctid := by
    intro fuel
    induction fuel with
    | zero =>
        intro start hmem
        cases hmem
    | succ fuel ih =>
        intro start hmem
        cases start with
        | none => cases hmem
        | some block =>
            rw [walkDocids] at hmem
            cases hpage : ix.pages block with
            | none => simp [hpage] at hmem
            | some page =>
                simp only [hpage, List.mem_append] at hmem
                rcases hmem with hin | hrest
                · exact ⟨block, page, hpage, hin⟩
                · exact ih page.nextPage hrest
  exact hwalk _ _ h

/-! ## Inserts -/

omit [DecidableEq Term] in
theorem documentAt_eq {an : Analyzer Value Term} {heap : Heap Value} {ctid : ItemPointer}
    {tuple : HeapTuple Value} (h : heap.tuples ctid = some tuple) :
    documentAt an heap ctid = indexedTerms an tuple := by
  rw [documentAt, h]
  rfl

omit [DecidableEq Term] in
theorem indexedTerms_ne_nil {an : Analyzer Value Term} {tuple : HeapTuple Value}
    {tv : TermVector Term} (h : indexedTerms an tuple = some tv) : tv.entries ≠ [] := by
  unfold indexedTerms at h
  split at h
  · cases h
  split at h
  · cases h
  case isFalse hne =>
    cases h
    exact hne

/-- Adding a document. -/
theorem corpus_addDocument (s : IndexState Value Term) (backend : Nat) (ctid : ItemPointer)
    (tv : TermVector Term) (tenantId : Nat) :
    corpus (addDocument s backend ctid tv tenantId) = insert ctid (corpus s) := by
  rw [corpus, corpus, addDocument, memtableDocs_addDocumentTerms, Finset.insert_union]

/-- `tp_insert` records the CTID last. -/
def recordDocid (cfg : Config) (backend : Nat) (ctid : ItemPointer) (s : IndexState Value Term) :
    IndexState Value Term :=
  { s with docids := tpAddDocidToPages s.docids backend cfg.indexOid ctid }

/-- A tuple that is not indexed: only the CTID of a document without terms is recorded. -/
theorem tpInsert_of_none (cfg : Config) {an : Analyzer Value Term} (backend : Nat)
    (ctid : ItemPointer) {tuple : HeapTuple Value} (h : indexedTerms an tuple = none)
    (s : IndexState Value Term) :
    tpInsert cfg an backend ctid tuple s = s ∨
      tpInsert cfg an backend ctid tuple s = recordDocid cfg backend ctid s := by
  unfold indexedTerms at h
  unfold tpInsert
  cases hv : tuple.value with
  | none => exact Or.inl rfl
  | some value =>
      simp only [hv] at h
      split at h
      case isTrue hterms =>
        simp only [hterms, true_or, if_true]
        exact Or.inr rfl
      case isFalse => cases h

/-- An indexed tuple: the document is added, the memtable perhaps spilled, and the CTID
recorded. -/
theorem tpInsert_of_some (cfg : Config) {an : Analyzer Value Term} (backend : Nat)
    {ctid : ItemPointer} (hvalid : ctid.isValid = true) {tuple : HeapTuple Value}
    {tv : TermVector Term} (h : indexedTerms an tuple = some tv) (s : IndexState Value Term) :
    tpInsert cfg an backend ctid tuple s = recordDocid cfg backend ctid
      (tpAutoSpillIfNeeded cfg backend (addDocument s backend ctid tv (cfg.tenantIdOf tuple))) := by
  unfold indexedTerms at h
  unfold tpInsert
  cases hv : tuple.value with
  | none => simp [hv] at h
  | some value =>
      simp only [hv] at h
      split at h
      case isTrue => cases h
      case isFalse hterms =>
        cases h
        simp only [hterms, hvalid, Bool.true_eq_false, or_self, if_false]
        rfl

/-- **An insert** does nothing for a NULL document, records the CTID of a document
without terms, and adds any other document, perhaps spills, and records it. -/
theorem tpInsert_cases (cfg : Config) (an : Analyzer Value Term) (backend : Nat)
    {ctid : ItemPointer} (hvalid : ctid.isValid = true) (tuple : HeapTuple Value)
    {s : IndexState Value Term} (hcover : TermsCover s.levels) :
    (indexedTerms an tuple = none ∧ (tpInsert cfg an backend ctid tuple s = s ∨
        tpInsert cfg an backend ctid tuple s = recordDocid cfg backend ctid s)) ∨
      ∃ tv s', indexedTerms an tuple = some tv ∧
        (s' = addDocument s backend ctid tv (cfg.tenantIdOf tuple) ∨
          Spilled cfg (addDocument s backend ctid tv (cfg.tenantIdOf tuple)) s') ∧
        tpInsert cfg an backend ctid tuple s = recordDocid cfg backend ctid s' := by
  cases hterms : indexedTerms an tuple with
  | none => exact Or.inl ⟨rfl, tpInsert_of_none cfg backend ctid hterms s⟩
  | some tv =>
      refine Or.inr ⟨tv, _, rfl, ?_, tpInsert_of_some cfg backend hvalid hterms s⟩
      unfold tpAutoSpillIfNeeded
      split
      · exact Or.inl rfl
      split
      · exact Or.inl rfl
      · exact spill_effect backend .auto hcover

/-- What an invariant of the calls has to survive: a new tuple, a document added for
it, a spill, a recorded CTID and a counter. -/
structure KeptByCalls (cfg : Config) (an : Analyzer Value Term) (op : IndexOp Value)
    (s : IndexState Value Term) (P : IndexState Value Term → Prop) : Prop where
  cover : ∀ s, P s → TermsCover s.levels
  placed : ∀ ctid tuple (hvalid : ctid.isValid = true), s.heap.tuples ctid = none →
    P { s with heap := s.heap.place ctid hvalid tuple }
  added : ∀ backend ctid tuple tv (hvalid : ctid.isValid = true), s.heap.tuples ctid = none →
    op = .insert backend ctid tuple → indexedTerms an tuple = some tv →
    P (addDocument { s with heap := s.heap.place ctid hvalid tuple } backend ctid tv
      (cfg.tenantIdOf tuple))
  spilled : ∀ s s', P s → Spilled cfg s s' → P s'
  recorded : ∀ s backend ctid tuple, P s → s.heap.tuples ctid = some tuple →
    ((indexedTerms an tuple).isSome → ctid ∈ corpus s) → P (recordDocid cfg backend ctid s)
  counters : ∀ s counters, P s → P { s with termsAddedThisXact := counters }

/-- An invariant survives a spill. -/
theorem KeptByCalls.spill {cfg : Config} {an : Analyzer Value Term} {op : IndexOp Value}
    {s₀ s : IndexState Value Term} {P : IndexState Value Term → Prop}
    (h : KeptByCalls cfg an op s₀ P) (hs : P s) (backend : Nat) (kind : SpillKind) :
    P (spill cfg backend kind s) := by
  rcases spill_effect backend kind (h.cover s hs) with heq | hspilled
  · rw [heq]
    exact hs
  · exact h.spilled s _ hs hspilled

/-- **Rule for calls**: what survives the parts of a call survives the call. -/
theorem KeptByCalls.indexStep {cfg : Config} {an : Analyzer Value Term} {op : IndexOp Value}
    {s s' : IndexState Value Term} {P : IndexState Value Term → Prop}
    (h : KeptByCalls cfg an op s P) (hs : P s) (hstep : indexStep cfg an s op = some s') :
    P s' := by
  cases op with
  | insert backend ctid tuple =>
      simp only [State.indexStep] at hstep
      split at hstep
      case isFalse => cases hstep
      case isTrue hvalid =>
        cases hfree : s.heap.tuples ctid with
        | some t => simp [hfree] at hstep
        | none =>
            simp only [hfree, Option.some.injEq] at hstep
            subst hstep
            have hplaced := h.placed ctid tuple hvalid hfree
            have htuple : (s.heap.place ctid hvalid tuple).tuples ctid = some tuple :=
              Function.update_self ..
            rcases tpInsert_cases cfg an backend hvalid tuple (h.cover _ hplaced) with
              ⟨hnone, heq | heq⟩ | ⟨tv, s₁, hterms, hs₁, heq⟩
            · rw [heq]
              exact hplaced
            · rw [heq]
              refine h.recorded _ backend ctid tuple hplaced htuple fun hsome => ?_
              rw [hnone] at hsome
              cases hsome
            · rw [heq]
              have hadded := h.added backend ctid tuple tv hvalid hfree rfl hterms
              have hcorpus := corpus_addDocument
                { s with heap := s.heap.place ctid hvalid tuple } backend ctid tv
                (cfg.tenantIdOf tuple)
              rcases hs₁ with rfl | hspilled
              · refine h.recorded _ backend ctid tuple hadded htuple fun _ => ?_
                rw [hcorpus]
                exact Finset.mem_insert_self ..
              · refine h.recorded _ backend ctid tuple (h.spilled _ _ hadded hspilled) ?_
                  fun _ => ?_
                · rw [hspilled.heap]
                  exact htuple
                · rw [corpus, hspilled.docs, hcorpus]
                  exact Finset.mem_union_right _ (Finset.mem_insert_self ..)
  | spillMemtable backend =>
      cases hstep
      exact h.spill hs backend .manual
  | commit backend =>
      cases hstep
      apply h.counters
      unfold tpBulkLoadSpillCheck
      split
      · exact hs
      split
      · exact hs
      · exact h.spill hs backend .bulkLoad
  | abort backend =>
      cases hstep
      exact h.counters s _ hs

/-! ## Counting documents -/

/-- The number and the length sum of a set of documents. -/
structure CountedAs (an : Analyzer Value Term) (heap : Heap Value) (docs : Finset ItemPointer)
    (totalDocs totalLen : Nat) : Prop where
  count : totalDocs = docs.card
  length : totalLen = ∑ ctid ∈ docs, documentLength an heap ctid

omit [DecidableEq Term] in
theorem CountedAs.empty (an : Analyzer Value Term) (heap : Heap Value) :
    CountedAs an heap ∅ 0 0 := ⟨rfl, rfl⟩

omit [DecidableEq Term] in
/-- Counting one more document. -/
theorem CountedAs.insert {an : Analyzer Value Term} {heap : Heap Value}
    {docs : Finset ItemPointer} {totalDocs totalLen : Nat}
    (h : CountedAs an heap docs totalDocs totalLen) {ctid : ItemPointer} (hnew : ctid ∉ docs)
    {tv : TermVector Term} (hdoc : documentAt an heap ctid = some tv) :
    CountedAs an heap (insert ctid docs) (totalDocs + 1) (totalLen + tv.docLength) := by
  have hlen : documentLength an heap ctid = tv.docLength := by
    rw [documentLength, hdoc]
    rfl
  constructor
  · rw [Finset.card_insert_of_notMem hnew, h.count]
  · rw [Finset.sum_insert hnew, h.length, hlen, Nat.add_comm]

end PgTextsearch.Am
