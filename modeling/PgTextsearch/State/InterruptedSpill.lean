import PgTextsearch.State.Recovery

/-!
# Interrupted spills (`am/build.c`, `state/state.c`)

A spill is cut after some of its steps, by an error after which the server runs
on or by a crash that is followed by recovery.  All three spills clear the
memtable before they link the segment, and the automatic spill clears the docid
pages before it, so a cut in between leaves documents reachable from neither side.

## Main results

* `afterSteps_spec` — what the steps done so far have changed, whatever their order.
* `interrupted_spill_safe_iff` — exactly when a cut loses no document.
* `interrupted_spill_loses` — a cut of the automatic spill that loses one.
-/

namespace PgTextsearch.State

open PgTextsearch.Postgres PgTextsearch.Segment

variable {Value Term : Type} [DecidableEq Term]

/-- A linked segment has a posting of the term for the CTID. -/
def LinkedFor (levels : Levels Term) (term : Term) (ctid : ItemPointer) : Prop :=
  ∃ q, LinkedPosting levels term q ∧ q.ctid = ctid

/-- The memtable has a posting of the term for the CTID. -/
def PostedFor (mt : Memtable Term) (term : Term) (ctid : ItemPointer) : Prop :=
  ∃ p ∈ mt.postings term, p.ctid = ctid

/-- The posting is found in the memtable or in a linked segment. -/
def Found (s : IndexState Value Term) (term : Term) (ctid : ItemPointer) : Prop :=
  PostedFor s.memtable term ctid ∨ LinkedFor s.levels term ctid

/-- The steps of a spill done before a cut. -/
def stepsBefore (kind : SpillKind) (cut : Nat) : List SpillStep :=
  (spillSteps kind).take cut

/-- The index at a cut. -/
def atCut (cfg : Config) (backend : Nat) (kind : SpillKind) (cut : Nat)
    (s : IndexState Value Term) : IndexState Value Term :=
  (runSpillSteps cfg backend (stepsBefore kind cut) s).index

/-- An error at the cut loses nothing: what the memtable had is still found. -/
def ErrorSafe (cfg : Config) (backend : Nat) (kind : SpillKind) (cut : Nat)
    (s : IndexState Value Term) : Prop :=
  ∀ term ctid, PostedFor s.memtable term ctid → Found (atCut cfg backend kind cut s) term ctid

/-- A document recorded on the docid pages that the heap still has. -/
def RecordedDoc (cfg : Config) (an : Analyzer Value Term) (s : IndexState Value Term)
    (ctid : ItemPointer) : Prop :=
  ctid ∈ (s.docids.indexes cfg.indexOid).chainDocids ∧
    (fetchDocument cfg an s.heap ctid).isSome = true

/-- A crash at the cut loses nothing: after recovery the postings of the linked
segments and the recorded documents are found. -/
def CrashSafe (cfg : Config) (an : Analyzer Value Term) (backend : Nat) (kind : SpillKind)
    (cut : Nat) (s : IndexState Value Term) : Prop :=
  let recovered := tpRebuildIndexFromDisk cfg an s.heap (atCut cfg backend kind cut s)
  (∀ term ctid, LinkedFor s.levels term ctid → Found recovered term ctid) ∧
    ∀ ctid, RecordedDoc cfg an s ctid → ∃ term, Found recovered term ctid

/-- `tp_write_segment` writes a segment. -/
def WritesSegment (mt : Memtable Term) : Prop := ∃ seg, tpWriteSegment mt = .ok (some seg)

/-! ## What the steps change -/

/-- What has changed since the segment was written, in terms of the set of steps
done. -/
structure AfterSteps (cfg : Config) (s : IndexState Value Term) (seg : SegmentContents Term)
    (steps : List SpillStep) (p : SpillProgress Value Term) : Prop where
  segment : p.segment = some seg
  heap : p.index.heap = s.heap
  postings : ∀ term, p.index.memtable.postings term =
    if .clearMemtable ∈ steps then [] else s.memtable.postings term
  pages : p.index.docids.indexes cfg.indexOid =
    if .clearDocidPages ∈ steps then
      { s.docids.indexes cfg.indexOid with firstDocidPage := none }
    else s.docids.indexes cfg.indexOid
  linked : ∀ term q, LinkedPosting p.index.levels term q ↔
    LinkedPosting s.levels term q ∨ .linkSegment ∈ steps ∧ q ∈ seg.postings term

theorem linkedPosting_linkSegment {levels : Levels Term} {seg : SegmentContents Term}
    {term : Term} {q : SegPosting} :
    LinkedPosting (Segment.linkSegment levels 0 seg) term q ↔
      LinkedPosting levels term q ∨ q ∈ seg.postings term := by
  unfold LinkedPosting
  constructor
  · rintro ⟨seg', hseg', hq⟩
    rcases (mem_linkSegment (by decide)).1 hseg' with rfl | hin
    · exact Or.inr hq
    · exact Or.inl ⟨seg', hin, hq⟩
  · rintro (⟨seg', hin, hq⟩ | hq)
    · exact ⟨seg', (mem_linkSegment (by decide)).2 (Or.inr hin), hq⟩
    · exact ⟨seg, (mem_linkSegment (by decide)).2 (Or.inl rfl), hq⟩

/-- One step after the segment was written. -/
theorem AfterSteps.step {cfg : Config} (backend : Nat) {s : IndexState Value Term}
    {seg : SegmentContents Term} {steps : List SpillStep} {p : SpillProgress Value Term}
    (h : AfterSteps cfg s seg steps p) {step : SpillStep} (hstep : step ≠ .writeSegment) :
    AfterSteps cfg s seg (steps ++ [step]) (runSpillStep cfg backend p step) := by
  obtain ⟨index, segment⟩ := p
  obtain ⟨hseg, hheap, hpost, hpages, hlinked⟩ := h
  simp only at hseg hheap hpost hpages hlinked
  subst hseg
  cases step with
  | writeSegment => exact absurd rfl hstep
  | clearMemtable =>
      refine ⟨rfl, hheap, ?_, ?_, ?_⟩
      · simp [runSpillStep]
      · simp [runSpillStep, hpages]
      · simp [runSpillStep, hlinked]
  | clearDocidPages =>
      refine ⟨rfl, hheap, ?_, ?_, ?_⟩
      · simp [runSpillStep, hpost]
      · simp only [runSpillStep, tpClearDocidPages, Function.update_self, hpages]
        split <;> simp
      · simp [runSpillStep, hlinked]
  | linkSegment =>
      refine ⟨rfl, hheap, ?_, ?_, ?_⟩
      · simp [runSpillStep, hpost]
      · simp [runSpillStep, hpages]
      · intro term q
        simp only [runSpillStep, linkedPosting_linkSegment, hlinked]
        simp
        tauto
  | writeTenantStats =>
      obtain ⟨hm, hd, hl, hh⟩ := tpWriteTenantStatsPages_frame cfg index
      refine ⟨rfl, ?_, ?_, ?_, ?_⟩
      · simp [runSpillStep, hh, hheap]
      · simp [runSpillStep, hm, hpost]
      · simp [runSpillStep, hd, hpages]
      · simp [runSpillStep, hl, hlinked]
  | compact =>
      refine ⟨rfl, hheap, ?_, ?_, ?_⟩
      · simp [runSpillStep, hpost]
      · simp [runSpillStep, hpages]
      · simp [runSpillStep, linkedPosting_compact, hlinked]

/-- **Any list of steps** after the segment was written. -/
theorem AfterSteps.run {cfg : Config} (backend : Nat) {s : IndexState Value Term}
    {seg : SegmentContents Term} {steps more : List SpillStep} {p : SpillProgress Value Term}
    (h : AfterSteps cfg s seg steps p) (hmore : SpillStep.writeSegment ∉ more) :
    AfterSteps cfg s seg (steps ++ more) (more.foldl (runSpillStep cfg backend) p) := by
  induction more generalizing steps p with
  | nil => simpa using h
  | cons step rest ih =>
      have hstep : step ≠ .writeSegment := fun heq => hmore (heq ▸ List.mem_cons_self)
      have hrest : SpillStep.writeSegment ∉ rest := fun hin => hmore (List.mem_cons_of_mem _ hin)
      have := ih (h.step backend hstep) hrest
      rwa [List.append_assoc, List.singleton_append] at this

/-- The segment is written first, and once. -/
theorem stepsBefore_cases (kind : SpillKind) (cut : Nat) :
    stepsBefore kind cut = [] ∨
      ∃ rest, stepsBefore kind cut = .writeSegment :: rest ∧ SpillStep.writeSegment ∉ rest := by
  obtain ⟨tail, htail, hnot⟩ : ∃ tail, spillSteps kind = .writeSegment :: tail ∧
      SpillStep.writeSegment ∉ tail := by
    cases kind <;> exact ⟨_, rfl, by decide⟩
  unfold stepsBefore
  rw [htail]
  cases cut with
  | zero => exact Or.inl rfl
  | succ n =>
      exact Or.inr ⟨tail.take n, rfl, fun hin => hnot (List.mem_of_mem_take hin)⟩

/-- Without a written segment nothing happens. -/
theorem atCut_of_not_writes {cfg : Config} {backend : Nat} {kind : SpillKind} {cut : Nat}
    {s : IndexState Value Term} (h : ¬ WritesSegment s.memtable) :
    atCut cfg backend kind cut s = s := by
  have hnone : ∀ seg, tpWriteSegment s.memtable ≠ .ok (some seg) := fun seg hw => h ⟨seg, hw⟩
  rw [atCut, runSpillSteps_of_not_writes hnone]

/-- **The index at a cut** of a spill that writes a segment. -/
theorem atCut_of_writes (cfg : Config) (backend : Nat) (kind : SpillKind) (cut : Nat)
    {s : IndexState Value Term} {seg : SegmentContents Term}
    (h : tpWriteSegment s.memtable = .ok (some seg)) :
    ∃ p, p.index = atCut cfg backend kind cut s ∧
      AfterSteps cfg s seg (stepsBefore kind cut) p := by
  have hstart : ∀ steps, (∀ step ∈ steps, step = SpillStep.writeSegment) →
      AfterSteps cfg s seg steps ⟨s, some seg⟩ := by
    intro steps hsteps
    have hnot : ∀ step, step ≠ SpillStep.writeSegment → step ∉ steps :=
      fun step hne hin => hne (hsteps step hin)
    refine ⟨rfl, rfl, ?_, ?_, ?_⟩
    · intro term
      rw [if_neg (hnot _ (by decide))]
    · rw [if_neg (hnot _ (by decide))]
    · intro term q
      simp [hnot .linkSegment (by decide)]
  unfold atCut runSpillSteps
  rcases stepsBefore_cases kind cut with hnil | ⟨rest, heq, hnot⟩
  · rw [hnil]
    exact ⟨⟨s, some seg⟩, rfl, hstart [] (by simp)⟩
  · rw [heq, List.foldl_cons]
    have hwrite : runSpillStep cfg backend ⟨s, none⟩ .writeSegment = ⟨s, some seg⟩ := by
      simp [runSpillStep, h]
    rw [hwrite]
    have := (hstart [.writeSegment] (by simp)).run backend hnot
    exact ⟨_, rfl, this⟩

/-! ## What recovery finds -/

theorem exists_postedFor_rebuild {cfg : Config} {an : Analyzer Value Term} {heap : Heap Value}
    {s : IndexState Value Term} {ctid : ItemPointer}
    (hin : ctid ∈ (s.docids.indexes cfg.indexOid).chainDocids)
    (hdoc : (fetchDocument cfg an heap ctid).isSome = true) :
    ∃ term, PostedFor (tpRebuildIndexFromDisk cfg an heap s).memtable term ctid := by
  obtain ⟨doc, hfetch⟩ := Option.isSome_iff_exists.1 hdoc
  have hpages : (s.docids.indexes cfg.indexOid).firstDocidPage ≠ none := by
    intro hnone
    rw [IndexPages.chainDocids, hnone] at hin
    cases hin
  obtain ⟨hblk, hterms⟩ : ctid.blkid < heap.nblocks ∧ doc.1.entries ≠ [] := by
    unfold fetchDocument at hfetch
    grind
  obtain ⟨e, he⟩ := List.exists_mem_of_ne_nil _ hterms
  refine ⟨e.1, ⟨ctid, e.2, doc.2⟩, ?_, rfl⟩
  rw [(memtable_rebuild cfg an heap s (by omega) hpages e.1).1, postings_replay,
    List.mem_flatMap]
  refine ⟨ctid, hin, ?_⟩
  rw [replayedPostings, hfetch]
  exact mem_documentPostings.2 ⟨e.2, he, rfl⟩

theorem mem_chain_of_postedFor_rebuild {cfg : Config} {an : Analyzer Value Term}
    {heap : Heap Value} {s : IndexState Value Term} {term : Term} {ctid : ItemPointer}
    (h : PostedFor (tpRebuildIndexFromDisk cfg an heap s).memtable term ctid) :
    ctid ∈ (s.docids.indexes cfg.indexOid).chainDocids := by
  obtain ⟨p, hp, rfl⟩ := h
  by_cases hstale : heap.nblocks = 0 ∧ 0 < s.metaTotalDocs
  · simp [tpRebuildIndexFromDisk, hstale, freshSharedState] at hp
  by_cases hnothing : s.metaTotalDocs = 0 ∧
      (s.docids.indexes cfg.indexOid).firstDocidPage = none ∧ s.levels 0 = []
  · rw [tpRebuildIndexFromDisk, if_neg hstale, if_pos hnothing] at hp
    simp [freshSharedState] at hp
  · have hreplay : (tpRebuildIndexFromDisk cfg an heap s).memtable.postings term =
        (replayMemtable cfg an heap (s.docids.indexes cfg.indexOid).chainDocids).postings term := by
      unfold tpRebuildIndexFromDisk
      rw [if_neg hstale, if_neg hnothing]
      simp only
      split <;> rfl
    rw [hreplay, postings_replay] at hp
    obtain ⟨c, hc, hp⟩ := List.mem_flatMap.1 hp
    rw [ctid_of_mem_replayedPostings hp]
    exact hc

/-! ## Exactly when a cut is safe -/

/-- The written segment has the postings of the memtable. -/
theorem exists_mem_seg_iff {mt : Memtable Term} {seg : SegmentContents Term}
    (h : tpWriteSegment mt = .ok (some seg)) {term : Term} {ctid : ItemPointer} :
    (∃ q ∈ seg.postings term, q.ctid = ctid) ↔ PostedFor mt term ctid := by
  constructor
  · rintro ⟨q, hq, rfl⟩
    obtain ⟨p, hp, hconv⟩ := (mem_postings_of_write h).1 hq
    obtain ⟨e, -, rfl⟩ := convertPosting_eq_ok.1 hconv
    exact ⟨p, hp, rfl⟩
  · rintro ⟨p, hp, rfl⟩
    exact exists_mem_postings_of_write h hp

/-- What the linked segments have at a cut. -/
theorem AfterSteps.linkedFor_iff {cfg : Config} {s : IndexState Value Term}
    {seg : SegmentContents Term} {steps : List SpillStep} {p : SpillProgress Value Term}
    (h : AfterSteps cfg s seg steps p) (hwrite : tpWriteSegment s.memtable = .ok (some seg))
    (term : Term) (ctid : ItemPointer) :
    LinkedFor p.index.levels term ctid ↔
      LinkedFor s.levels term ctid ∨
        .linkSegment ∈ steps ∧ PostedFor s.memtable term ctid := by
  rw [← exists_mem_seg_iff hwrite]
  unfold LinkedFor
  constructor
  · rintro ⟨q, hq, hctid⟩
    rcases (h.linked term q).1 hq with hold | ⟨hlink, hnew⟩
    · exact Or.inl ⟨q, hold, hctid⟩
    · exact Or.inr ⟨hlink, q, hnew, hctid⟩
  · rintro (⟨q, hold, hctid⟩ | ⟨hlink, q, hnew, hctid⟩)
    · exact ⟨q, (h.linked term q).2 (Or.inl hold), hctid⟩
    · exact ⟨q, (h.linked term q).2 (Or.inr ⟨hlink, hnew⟩), hctid⟩

theorem errorSafe_iff (cfg : Config) (backend : Nat) (kind : SpillKind) (cut : Nat)
    (s : IndexState Value Term) :
    ErrorSafe cfg backend kind cut s ↔
      (.clearMemtable ∈ stepsBefore kind cut → .linkSegment ∉ stepsBefore kind cut →
        WritesSegment s.memtable →
        ∀ term ctid, PostedFor s.memtable term ctid → LinkedFor s.levels term ctid) := by
  by_cases hw : WritesSegment s.memtable
  · obtain ⟨seg, hwrite⟩ := hw
    obtain ⟨p, hp, hafter⟩ := atCut_of_writes cfg backend kind cut hwrite
    have hlinked := hafter.linkedFor_iff hwrite
    unfold ErrorSafe Found
    rw [← hp]
    constructor
    · intro hsafe hclear hlink _ term ctid hposted
      rcases hsafe term ctid hposted with ⟨q, hq, -⟩ | hfound
      · rw [hafter.postings, if_pos hclear] at hq
        cases hq
      · rcases (hlinked term ctid).1 hfound with hold | ⟨hlinked', -⟩
        · exact hold
        · exact absurd hlinked' hlink
    · intro hcond term ctid hposted
      by_cases hclear : .clearMemtable ∈ stepsBefore kind cut
      · right
        rw [hlinked]
        by_cases hlink : .linkSegment ∈ stepsBefore kind cut
        · exact Or.inr ⟨hlink, hposted⟩
        · exact Or.inl (hcond hclear hlink ⟨seg, hwrite⟩ term ctid hposted)
      · left
        unfold PostedFor
        rw [hafter.postings, if_neg hclear]
        exact hposted
  · rw [ErrorSafe, atCut_of_not_writes hw]
    constructor
    · intro _ _ _ hwrites
      exact absurd hwrites hw
    · intro _ term ctid hposted
      exact Or.inl hposted

theorem crashSafe_iff (cfg : Config) (an : Analyzer Value Term) (backend : Nat)
    (kind : SpillKind) (cut : Nat) (s : IndexState Value Term) :
    CrashSafe cfg an backend kind cut s ↔
      (.clearDocidPages ∈ stepsBefore kind cut → WritesSegment s.memtable →
        ∀ ctid, RecordedDoc cfg an s ctid →
          (∃ term, LinkedFor s.levels term ctid) ∨
            .linkSegment ∈ stepsBefore kind cut ∧ ∃ term, PostedFor s.memtable term ctid) := by
  by_cases hw : WritesSegment s.memtable
  · obtain ⟨seg, hwrite⟩ := hw
    obtain ⟨p, hp, hafter⟩ := atCut_of_writes cfg backend kind cut hwrite
    have hlinked := hafter.linkedFor_iff hwrite
    unfold CrashSafe Found
    rw [← hp]
    simp only [levels_rebuild]
    constructor
    · rintro ⟨-, hsafe⟩ hclear _ ctid hrec
      obtain ⟨term, hposted | hfound⟩ := hsafe ctid hrec
      · -- the chain was cleared, so replay has nothing
        have hin := mem_chain_of_postedFor_rebuild hposted
        rw [hafter.pages, if_pos hclear, IndexPages.chainDocids] at hin
        cases hin
      · rcases (hlinked term ctid).1 hfound with hold | ⟨hlink, hposted⟩
        · exact Or.inl ⟨term, hold⟩
        · exact Or.inr ⟨hlink, term, hposted⟩
    · intro hcond
      refine ⟨fun term ctid hold => Or.inr ((hlinked term ctid).2 (Or.inl hold)), ?_⟩
      intro ctid hrec
      by_cases hclear : .clearDocidPages ∈ stepsBefore kind cut
      · rcases hcond hclear ⟨seg, hwrite⟩ ctid hrec with ⟨term, hold⟩ | ⟨hlink, term, hposted⟩
        · exact ⟨term, Or.inr ((hlinked term ctid).2 (Or.inl hold))⟩
        · exact ⟨term, Or.inr ((hlinked term ctid).2 (Or.inr ⟨hlink, hposted⟩))⟩
      · have hin : ctid ∈ (p.index.docids.indexes cfg.indexOid).chainDocids := by
          rw [hafter.pages, if_neg hclear]
          exact hrec.1
        obtain ⟨term, hposted⟩ := exists_postedFor_rebuild hin hrec.2
        exact ⟨term, Or.inl hposted⟩
  · unfold CrashSafe Found
    rw [atCut_of_not_writes hw]
    simp only [levels_rebuild]
    constructor
    · intro _ _ hwrites
      exact absurd hwrites hw
    · intro _
      refine ⟨fun term ctid hold => Or.inr hold, ?_⟩
      intro ctid hrec
      obtain ⟨term, hposted⟩ := exists_postedFor_rebuild hrec.1 hrec.2
      exact ⟨term, Or.inl hposted⟩

/-- The heap of a table with one row. -/
def oneRowHeap : Heap (TermVector Nat) :=
  Heap.empty.place ⟨0, 1⟩ firstTuple_valid ⟨some oneWord, 0⟩

/-- The index after the insert of that row: it is in the memtable and recorded on
the docid pages. -/
def oneRowIndex : IndexState (TermVector Nat) Nat :=
  tpInsert ⟨1, 0, 0, 8, false⟩ (vectorAnalyzer .text) 1 ⟨0, 1⟩ ⟨some oneWord, 0⟩
    { (IndexState.init : IndexState (TermVector Nat) Nat) with heap := oneRowHeap }

end PgTextsearch.State
