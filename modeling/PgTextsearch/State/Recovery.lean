import Mathlib.Data.List.Induction
import PgTextsearch.State.Index
import PgTextsearch.Verified.Runs

/-!
# Crash recovery (`state/state.c`, `am/build.c`)

After a restart the memtable is rebuilt from the docid pages, while the segments
stay linked.  A document must then be in one place only.  The automatic spill
clears the docid pages before `tp_insert` records the document that triggered it,
and the other two spills do not clear them at all, so a spilled document is found
twice after a restart.

## Main results

* `recovery_exactly_once` — in every run in which no step spills, every document
  that survives in the heap is in exactly one place after a restart.
* `manual_spill_duplicates`, `auto_spill_duplicates` — a spill leads to a
  document in the memtable and in a segment.
-/

namespace PgTextsearch.State

open PgTextsearch.Postgres PgTextsearch.Segment PgTextsearch.Verified

variable {Value Term : Type} [DecidableEq Term]

/-! ## Where a document is -/

/-- The memtable has something for the CTID. -/
def Mentions (mt : Memtable Term) (ctid : ItemPointer) : Prop :=
  (mt.docLengths.lookup ctid).isSome ∨ ∃ term, ∃ p ∈ mt.postings term, p.ctid = ctid

/-- The document is in the memtable, once: it has a length and a posting, and no
term has two postings for it. -/
structure HoldsOnce (mt : Memtable Term) (ctid : ItemPointer) : Prop where
  length : (mt.docLengths.lookup ctid).isSome
  posting : ∃ term, ∃ p ∈ mt.postings term, p.ctid = ctid
  unique : ∀ term, (mt.postings term).countP (fun p => p.ctid = ctid) ≤ 1

/-- The segment has something for the CTID. -/
def SegMentions (seg : SegmentContents Term) (ctid : ItemPointer) : Prop :=
  (∃ d ∈ seg.docs, d.ctid = ctid) ∨ ∃ term, ∃ q ∈ seg.postings term, q.ctid = ctid

/-- The document is in the segment, once. -/
structure SegHoldsOnce (seg : SegmentContents Term) (ctid : ItemPointer) : Prop where
  length : seg.docs.countP (fun d => d.ctid = ctid) = 1
  posting : ∃ term, ∃ q ∈ seg.postings term, q.ctid = ctid
  unique : ∀ term, (seg.postings term).countP (fun q => q.ctid = ctid) ≤ 1

/-- The document is in exactly one place: once in the memtable or in exactly one
linked segment. -/
def PlacedOnce (s : IndexState Value Term) (ctid : ItemPointer) : Prop :=
  (HoldsOnce s.memtable ctid ∧ ∀ seg ∈ linkedSegments s.levels, ¬ SegMentions seg ctid) ∨
  (¬ Mentions s.memtable ctid ∧ ∃ before seg after,
    linkedSegments s.levels = before ++ seg :: after ∧ SegHoldsOnce seg ctid ∧
      ∀ other ∈ before ++ after, ¬ SegMentions other ctid)

/-- **Exactly once**: whatever part of the heap the restart finds, every document
indexed in the run that is still there is in exactly one place. -/
def ExactlyOnce (cfg : Config) (an : Analyzer Value Term) (hist : List (IndexOp Value))
    (s : IndexState Value Term) : Prop :=
  ∀ heap : Heap Value, (∀ ctid tuple, heap.tuples ctid = some tuple →
      s.heap.tuples ctid = some tuple) →
    ∀ backend ctid tuple value, IndexOp.insert backend ctid tuple ∈ hist →
      tuple.value = some value → (an.insertTerms value).entries ≠ [] →
      heap.tuples ctid = some tuple →
      PlacedOnce (tpRebuildIndexFromDisk cfg an heap s) ctid

/-! ## Runs without spills -/

/-- The step leaves its documents in the memtable: no threshold is reached, a
manual spill finds the memtable empty, and the datum of an indexed document has
terms when it is read as text. -/
def NoSpill (cfg : Config) (an : Analyzer Value Term) (s : IndexState Value Term) :
    IndexOp Value → Prop
  | .insert _ _ tuple => ∀ value, tuple.value = some value →
      (an.insertTerms value).entries ≠ [] →
      (cfg.memtableSpillThreshold = 0 ∨
        s.memtable.totalPostings + (an.insertTerms value).entries.length <
          cfg.memtableSpillThreshold) ∧ (an.toTsvector value).entries ≠ []
  | .spillMemtable _ => s.memtable.stringTable.entries = []
  | .commit backend => cfg.bulkLoadThreshold = 0 ∨
      s.termsAddedThisXact backend < cfg.bulkLoadThreshold ∨
      s.memtable.stringTable.entries = []
  | .abort _ => True

/-- The CTIDs `tp_insert` records, oldest first. -/
def recordedCtids (hist : List (IndexOp Value)) : List ItemPointer :=
  hist.filterMap fun op =>
    match op with
    | .insert _ ctid tuple => tuple.value.map fun _ => ctid
    | _ => none

/-- A spill of an empty dictionary does nothing. -/
theorem spill_of_empty {cfg : Config} {s : IndexState Value Term}
    (h : s.memtable.stringTable.entries = []) (backend : Nat) (kind : SpillKind) :
    spill cfg backend kind s = s :=
  spill_of_not_writes kind (tpWriteSegment_of_empty h)

/-- The invariant of a run without spills: no segment is linked, the docid chain
holds the recorded CTIDs, which are distinct, the tuples are in the heap, and the
indexed documents have terms when they are read as text. -/
structure RecordedInv (cfg : Config) (an : Analyzer Value Term) (hist : List (IndexOp Value))
    (s : IndexState Value Term) : Prop where
  levels : s.levels = fun _ => []
  chain : ∃ ops, DocidInv ops s.docids ∧ (∀ op ∈ ops, ∃ b c, op = DocidOp.add b cfg.indexOid c) ∧
    addedSinceClear cfg.indexOid ops = recordedCtids hist
  heap : ∀ backend ctid tuple, IndexOp.insert backend ctid tuple ∈ hist →
    s.heap.tuples ctid = some tuple
  nodup : (recordedCtids hist).Nodup
  readable : ∀ backend ctid tuple value, IndexOp.insert backend ctid tuple ∈ hist →
    tuple.value = some value → (an.insertTerms value).entries ≠ [] →
    (an.toTsvector value).entries ≠ []

omit [DecidableEq Term] in
theorem recordedInv_init (cfg : Config) (an : Analyzer Value Term) :
    RecordedInv cfg an [] (IndexState.init : IndexState Value Term) where
  levels := rfl
  chain := ⟨[], docidInv_init, by simp, rfl⟩
  heap := by simp
  nodup := List.nodup_nil
  readable := by simp

theorem clearedByOther_of_adds {oid : Nat} {ops : List DocidOp}
    (h : ∀ op ∈ ops, ∃ b c, op = DocidOp.add b oid c) (backend : Nat) :
    clearedByOther backend oid ops = false := by
  induction ops using List.reverseRecOn with
  | nil => rfl
  | append_singleton ops op ih =>
      obtain ⟨b, c, rfl⟩ := h op (by simp)
      rw [clearedByOther_add]
      split
      · rfl
      · exact ih fun op hop => h op (List.mem_append_left _ hop)

theorem mem_of_mem_recordedCtids {hist : List (IndexOp Value)} {ctid : ItemPointer}
    (h : ctid ∈ recordedCtids hist) :
    ∃ backend tuple, IndexOp.insert backend ctid tuple ∈ hist := by
  obtain ⟨op, hop, heq⟩ := List.mem_filterMap.1 h
  cases op with
  | insert backend c tuple =>
      cases hv : tuple.value with
      | none => simp [hv] at heq
      | some v =>
          have : c = ctid := by simpa [hv] using heq
          exact ⟨backend, tuple, this ▸ hop⟩
  | spillMemtable b => cases heq
  | commit b => cases heq
  | abort b => cases heq

theorem mem_recordedCtids {hist : List (IndexOp Value)} {backend : Nat} {ctid : ItemPointer}
    {tuple : HeapTuple Value} {value : Value} (h : IndexOp.insert backend ctid tuple ∈ hist)
    (hvalue : tuple.value = some value) : ctid ∈ recordedCtids hist :=
  List.mem_filterMap.2 ⟨_, h, by simp [hvalue]⟩

/-- An insert that does not spill touches the memtable and the docid pages. -/
theorem tpInsert_of_noSpill {cfg : Config} {an : Analyzer Value Term} {s : IndexState Value Term}
    {backend : Nat} {ctid : ItemPointer} {tuple : HeapTuple Value}
    (h : NoSpill cfg an s (.insert backend ctid tuple)) :
    (tpInsert cfg an backend ctid tuple s).levels = s.levels ∧
      (tpInsert cfg an backend ctid tuple s).heap = s.heap ∧
      (tpInsert cfg an backend ctid tuple s).docids =
        match tuple.value with
        | none => s.docids
        | some _ => tpAddDocidToPages s.docids backend cfg.indexOid ctid := by
  unfold tpInsert
  cases hv : tuple.value with
  | none => exact ⟨rfl, rfl, rfl⟩
  | some value =>
      simp only
      split
      · exact ⟨rfl, rfl, rfl⟩
      case isFalse hindexed =>
        have hterms : (an.insertTerms value).entries ≠ [] := fun he => hindexed (Or.inl he)
        have hstay : tpAutoSpillIfNeeded cfg backend
            (addDocument s backend ctid (an.insertTerms value) (cfg.tenantIdOf tuple)) =
              addDocument s backend ctid (an.insertTerms value) (cfg.tenantIdOf tuple) := by
          unfold tpAutoSpillIfNeeded
          rcases (h value hv hterms).1 with hoff | hlt
          · rw [if_pos hoff]
          · have hpost : (addDocument s backend ctid (an.insertTerms value)
                (cfg.tenantIdOf tuple)).memtable.totalPostings < cfg.memtableSpillThreshold := by
              rw [addDocument, totalPostings_addDocumentTerms]
              exact hlt
            rw [if_pos hpost]
            split <;> rfl
        rw [hstay]
        exact ⟨rfl, rfl, rfl⟩

theorem recordedCtids_append (hist : List (IndexOp Value)) (op : IndexOp Value) :
    recordedCtids (hist ++ [op]) = recordedCtids hist ++ recordedCtids [op] := by
  simp [recordedCtids, List.filterMap_append]

omit [DecidableEq Term] in
/-- A step that records nothing and changes neither segments, docid pages nor
heap keeps the invariant. -/
theorem RecordedInv.frame {cfg : Config} {an : Analyzer Value Term} {hist : List (IndexOp Value)}
    {s s' : IndexState Value Term} (h : RecordedInv cfg an hist s) {op : IndexOp Value}
    (hop : ∀ backend ctid tuple, op ≠ .insert backend ctid tuple) (hlevels : s'.levels = s.levels)
    (hdocids : s'.docids = s.docids) (hheap : s'.heap = s.heap) :
    RecordedInv cfg an (hist ++ [op]) s' := by
  have hrec : recordedCtids [op] = [] := by
    cases op with
    | insert b c t => exact absurd rfl (hop b c t)
    | spillMemtable b => rfl
    | commit b => rfl
    | abort b => rfl
  refine ⟨hlevels.trans h.levels, ?_, ?_, ?_, ?_⟩
  · rw [recordedCtids_append, hrec, List.append_nil, hdocids]
    exact h.chain
  · intro b c t hmem
    rw [hheap]
    rcases List.mem_append.1 hmem with hmem | hmem
    · exact h.heap b c t hmem
    · exact absurd (List.mem_singleton.1 hmem).symm (hop b c t)
  · rw [recordedCtids_append, hrec, List.append_nil]
    exact h.nodup
  · intro b c t v hmem
    rcases List.mem_append.1 hmem with hmem | hmem
    · exact h.readable b c t v hmem
    · exact absurd (List.mem_singleton.1 hmem).symm (hop b c t)

theorem RecordedInv.insert {cfg : Config} {an : Analyzer Value Term} {hist : List (IndexOp Value)}
    {s : IndexState Value Term} (h : RecordedInv cfg an hist s) {backend : Nat} {ctid : ItemPointer}
    {tuple : HeapTuple Value} (hvalid : ctid.isValid = true) (hfree : s.heap.tuples ctid = none)
    (hstay : NoSpill cfg an s (.insert backend ctid tuple)) :
    RecordedInv cfg an (hist ++ [.insert backend ctid tuple])
      (tpInsert cfg an backend ctid tuple
        { s with heap := s.heap.place ctid hvalid tuple }) := by
  obtain ⟨hlevels, hheap, hdocids⟩ := tpInsert_of_noSpill
    (s := { s with heap := s.heap.place ctid hvalid tuple }) hstay
  obtain ⟨ops, hinv, hadds, hadded⟩ := h.chain
  have hnew : ∀ b t, IndexOp.insert b ctid t ∉ hist := by
    intro b t hmem
    rw [h.heap b ctid t hmem] at hfree
    cases hfree
  refine ⟨hlevels.trans h.levels, ?_, ?_, ?_, ?_⟩
  · rw [hdocids, recordedCtids_append]
    cases hv : tuple.value with
    | none => exact ⟨ops, hinv, hadds, by simpa [recordedCtids, hv] using hadded⟩
    | some v =>
        refine ⟨ops ++ [.add backend cfg.indexOid ctid],
          docidInv_add hinv ctid fun _ => clearedByOther_of_adds hadds backend, ?_, ?_⟩
        · intro op hop
          rcases List.mem_append.1 hop with hop | hop
          · exact hadds op hop
          · exact ⟨backend, ctid, List.mem_singleton.1 hop⟩
        · rw [addedSinceClear_add, if_pos rfl, hadded]
          simp [recordedCtids, hv]
  · intro b c t hmem
    rw [hheap]
    simp only [Heap.place]
    rcases List.mem_append.1 hmem with hmem | hmem
    · rw [Function.update_of_ne]
      · exact h.heap b c t hmem
      · intro hc
        exact hnew b t (hc ▸ hmem)
    · cases List.mem_singleton.1 hmem
      exact Function.update_self ..
  · rw [recordedCtids_append, List.nodup_append]
    refine ⟨h.nodup, ?_, ?_⟩
    · cases hv : tuple.value <;> simp [recordedCtids, hv]
    · intro a ha b hb hab
      obtain ⟨b', t, hmem⟩ := mem_of_mem_recordedCtids ha
      have hbc : b = ctid := by
        cases hv : tuple.value with
        | none => simp [recordedCtids, hv] at hb
        | some v => simpa [recordedCtids, hv] using hb
      rw [hab, hbc] at hmem
      exact hnew b' t hmem
  · intro b c t v hmem hvalue hterms
    rcases List.mem_append.1 hmem with hmem | hmem
    · exact h.readable b c t v hmem hvalue hterms
    · cases List.mem_singleton.1 hmem
      exact (hstay v hvalue hterms).2

theorem recordedInv_step {cfg : Config} {an : Analyzer Value Term} {hist : List (IndexOp Value)}
    {s s' : IndexState Value Term} {op : IndexOp Value} (h : RecordedInv cfg an hist s)
    (hstay : NoSpill cfg an s op) (hstep : indexStep cfg an s op = some s') :
    RecordedInv cfg an (hist ++ [op]) s' := by
  cases op with
  | insert backend ctid tuple =>
      simp only [indexStep] at hstep
      split at hstep
      case isFalse => cases hstep
      case isTrue hvalid =>
        cases hfree : s.heap.tuples ctid with
        | some t => simp [hfree] at hstep
        | none =>
            simp only [hfree, Option.some.injEq] at hstep
            subst hstep
            exact h.insert hvalid hfree hstay
  | spillMemtable backend =>
      cases hstep
      have hsame : spill cfg backend .manual s = s := spill_of_empty hstay backend .manual
      rw [hsame]
      exact h.frame (by simp) rfl rfl rfl
  | commit backend =>
      cases hstep
      have hsame : tpBulkLoadSpillCheck cfg backend s = s := by
        unfold tpBulkLoadSpillCheck
        rcases hstay with hoff | hlt | hempty
        · rw [if_pos hoff]
        · rw [if_pos hlt]
          split <;> rfl
        · rw [spill_of_empty hempty]
          split
          · rfl
          · split <;> rfl
      rw [hsame]
      exact h.frame (by simp) rfl rfl rfl
  | abort backend =>
      cases hstep
      exact h.frame (by simp) rfl rfl rfl

/-! ## After the restart -/

theorem memtable_rebuild (cfg : Config) (an : Analyzer Value Term) (heap : Heap Value)
    (s : IndexState Value Term) (hheap : heap.nblocks ≠ 0)
    (hpages : (s.docids.indexes cfg.indexOid).firstDocidPage ≠ none) (term : Term) :
    (tpRebuildIndexFromDisk cfg an heap s).memtable.postings term =
        (replayMemtable cfg an heap (s.docids.indexes cfg.indexOid).chainDocids).postings term ∧
      (tpRebuildIndexFromDisk cfg an heap s).memtable.docLengths =
        (replayMemtable cfg an heap (s.docids.indexes cfg.indexOid).chainDocids).docLengths := by
  unfold tpRebuildIndexFromDisk
  rw [if_neg fun h => hheap h.1, if_neg fun h => hpages h.2.1]
  simp only
  split <;> exact ⟨rfl, rfl⟩

theorem levels_rebuild (cfg : Config) (an : Analyzer Value Term) (heap : Heap Value)
    (s : IndexState Value Term) : (tpRebuildIndexFromDisk cfg an heap s).levels = s.levels := by
  unfold tpRebuildIndexFromDisk
  simp only
  split
  · rfl
  · split <;> rfl

private theorem countP_replayed {cfg : Config} {an : Analyzer Value Term} {heap : Heap Value}
    {term : Term} {ctids : List ItemPointer} (hnodup : ctids.Nodup) (ctid : ItemPointer) :
    (ctids.flatMap (replayedPostings cfg an heap term)).countP (fun p => p.ctid = ctid) ≤
      (replayedPostings cfg an heap term ctid).length := by
  induction ctids with
  | nil => simp
  | cons c rest ih =>
      obtain ⟨hnot, hnodup⟩ := List.nodup_cons.1 hnodup
      rw [List.flatMap_cons, List.countP_append]
      by_cases hc : c = ctid
      · subst hc
        have hrest : (rest.flatMap (replayedPostings cfg an heap term)).countP
            (fun p => p.ctid = c) = 0 := by
          rw [List.countP_eq_zero]
          intro p hp
          obtain ⟨c', hc', hp⟩ := List.mem_flatMap.1 hp
          rw [decide_eq_true_eq, ctid_of_mem_replayedPostings hp]
          rintro rfl
          exact hnot hc'
        rw [hrest, Nat.add_zero]
        exact List.countP_le_length
      · have hhead : (replayedPostings cfg an heap term c).countP (fun p => p.ctid = ctid) = 0 := by
          rw [List.countP_eq_zero]
          intro p hp
          rw [decide_eq_true_eq, ctid_of_mem_replayedPostings hp]
          exact hc
        rw [hhead, Nat.zero_add]
        exact ih hnodup

theorem length_replayedPostings_le (cfg : Config) (an : Analyzer Value Term) (heap : Heap Value)
    (term : Term) (ctid : ItemPointer) : (replayedPostings cfg an heap term ctid).length ≤ 1 := by
  unfold replayedPostings
  cases fetchDocument cfg an heap ctid with
  | none => exact Nat.zero_le 1
  | some doc => exact length_documentPostings_le ctid doc.1 doc.2 term

/-- A recorded document that the heap still has is replayed once. -/
theorem holdsOnce_replay (cfg : Config) {an : Analyzer Value Term} {heap : Heap Value}
    {ctids : List ItemPointer} (hnodup : ctids.Nodup) {ctid : ItemPointer} (hmem : ctid ∈ ctids)
    {tuple : HeapTuple Value} {value : Value} (htuple : heap.tuples ctid = some tuple)
    (hvalue : tuple.value = some value) (hterms : (an.toTsvector value).entries ≠ []) :
    HoldsOnce (replayMemtable cfg an heap ctids) ctid where
  length := by
    rw [docLengths_replay]
    exact ⟨hmem, by rw [fetchDocument_eq_some htuple hvalue hterms]; rfl⟩
  posting := by
    obtain ⟨e, he⟩ := List.exists_mem_of_ne_nil _ hterms
    refine ⟨e.1, ⟨ctid, e.2, (cfg.tenantIdOf tuple)⟩, ?_, rfl⟩
    rw [postings_replay, List.mem_flatMap]
    refine ⟨ctid, hmem, ?_⟩
    rw [replayedPostings, fetchDocument_eq_some htuple hvalue hterms]
    exact mem_documentPostings.2 ⟨e.2, he, rfl⟩
  unique := by
    intro term
    rw [postings_replay]
    exact (countP_replayed hnodup ctid).trans (length_replayedPostings_le cfg an heap term ctid)

/-- **Recovery is exactly-once** in every run without spills. -/
theorem recovery_exactly_once {cfg : Config} {an : Analyzer Value Term}
    {hist : List (IndexOp Value)} {s : IndexState Value Term}
    (h : Reaches (indexStep cfg an) (fun _ s op => NoSpill cfg an s op) IndexState.init hist s) :
    ExactlyOnce cfg an hist s := by
  have hinv : RecordedInv cfg an hist s :=
    h.invariant (recordedInv_init cfg an) fun _ _ _ _ hi hok hnext => recordedInv_step hi hok hnext
  intro heap hsub backend ctid tuple value hmem hvalue hterms htuple
  obtain ⟨ops, hdocid, -, hadded⟩ := hinv.chain
  obtain ⟨blocks, hchain, -⟩ := hdocid cfg.indexOid
  have hctids : (s.docids.indexes cfg.indexOid).chainDocids = recordedCtids hist :=
    hchain.chainDocids_eq.trans hadded
  have hrec : ctid ∈ recordedCtids hist := mem_recordedCtids hmem hvalue
  have hheap : heap.nblocks ≠ 0 := by
    have := heap.bounded ctid tuple htuple
    omega
  have hpages : (s.docids.indexes cfg.indexOid).firstDocidPage ≠ none := by
    intro hnone
    rw [← hctids, IndexPages.chainDocids, hnone] at hrec
    cases hrec
  have hreplay := holdsOnce_replay cfg (hctids ▸ hinv.nodup) (hctids ▸ hrec) htuple hvalue
    (hinv.readable backend ctid tuple value hmem hvalue hterms)
  have hmt := memtable_rebuild cfg an heap s hheap hpages
  refine Or.inl ⟨⟨?_, ?_, ?_⟩, ?_⟩
  · obtain ⟨e, -⟩ := List.exists_mem_of_ne_nil _ hterms
    rw [(hmt e.1).2]
    exact hreplay.length
  · obtain ⟨term, hposting⟩ := hreplay.posting
    exact ⟨term, by rw [(hmt term).1]; exact hposting⟩
  · intro term
    rw [(hmt term).1]
    exact hreplay.unique term
  · intro seg hseg
    rw [levels_rebuild, hinv.levels] at hseg
    simp [linkedSegments] at hseg

/-! ## Runs with and without a spill -/

/-- Documents that are term vectors already. -/
def vectorAnalyzer (indexedType : IndexedType) : Analyzer (TermVector Nat) Nat :=
  ⟨indexedType, id, id⟩

/-- A document with a single word. -/
def oneWord : TermVector Nat := ⟨[(7, 1)], by decide, by decide⟩

/-- Thresholds are off: the documents of two backends stay in the memtable. -/
def memtableRun : List (IndexOp (TermVector Nat)) :=
  [.insert 1 ⟨0, 1⟩ ⟨some oneWord, 0⟩, .commit 1, .insert 2 ⟨0, 2⟩ ⟨some oneWord, 0⟩]

omit [DecidableEq Term] in
/-- With both thresholds off, inserts into a text index and commits do not
spill. -/
theorem noSpill_of_thresholds_off {cfg : Config} {an : Analyzer Value Term}
    (hauto : cfg.memtableSpillThreshold = 0) (hbulk : cfg.bulkLoadThreshold = 0)
    (htext : an.indexedType = .text) (s : IndexState Value Term) {op : IndexOp Value}
    (hop : ∀ backend, op ≠ .spillMemtable backend) : NoSpill cfg an s op := by
  cases op with
  | insert backend ctid tuple =>
      intro value _ hterms
      rw [Analyzer.insertTerms, htext] at hterms
      exact ⟨Or.inl hauto, hterms⟩
  | spillMemtable backend => exact absurd rfl (hop backend)
  | commit backend => exact Or.inl hbulk
  | abort backend => trivial

theorem recovery_exactly_once_memtableRun :
    ∃ s, Reaches (indexStep ⟨1, 0, 0, 8, false⟩ (vectorAnalyzer .text))
        (fun _ s op => NoSpill ⟨1, 0, 0, 8, false⟩ (vectorAnalyzer .text) s op) IndexState.init
        memtableRun s ∧
      PlacedOnce (tpRebuildIndexFromDisk ⟨1, 0, 0, 8, false⟩ (vectorAnalyzer .text) s.heap s)
        ⟨0, 2⟩ := by
  obtain ⟨s, hrun, htuple⟩ : ∃ s, runChecked (indexStep ⟨1, 0, 0, 8, false⟩ (vectorAnalyzer .text))
      (fun _ _ op => match op with | .spillMemtable _ => false | _ => true) [] IndexState.init
      memtableRun = some s ∧ s.heap.tuples ⟨0, 2⟩ = some ⟨some oneWord, 0⟩ := ⟨_, rfl, rfl⟩
  have hreach : Reaches (indexStep ⟨1, 0, 0, 8, false⟩ (vectorAnalyzer .text))
      (fun _ s op => NoSpill ⟨1, 0, 0, 8, false⟩ (vectorAnalyzer .text) s op) IndexState.init
      memtableRun s := by
    refine reaches_of_runChecked _ (fun hist s op hop => ?_) hrun
    apply noSpill_of_thresholds_off rfl rfl rfl
    rintro backend rfl
    cases hop
  exact ⟨s, hreach, recovery_exactly_once hreach s.heap (fun _ _ h => h) 2 ⟨0, 2⟩
    ⟨some oneWord, 0⟩ oneWord (by simp [memtableRun]) rfl (by decide) htuple⟩

/-- A document in the memtable and in a linked segment is in two places. -/
theorem not_placedOnce {s : IndexState Value Term} {ctid : ItemPointer}
    (hmem : (s.memtable.docLengths.lookup ctid).isSome = true)
    (hseg : (linkedSegments s.levels).any
      (fun seg => seg.docs.any fun d => decide (d.ctid = ctid)) = true) :
    ¬ PlacedOnce s ctid := by
  obtain ⟨seg, hin, hany⟩ := List.any_eq_true.1 hseg
  obtain ⟨d, hd, heq⟩ := List.any_eq_true.1 hany
  rintro (⟨-, hnone⟩ | ⟨hnot, -⟩)
  · exact hnone seg hin (Or.inl ⟨d, hd, of_decide_eq_true heq⟩)
  · exact hnot (Or.inl hmem)

/-- One document and one spill of each kind, with the thresholds that make it
fire. -/
def spillRun : SpillKind → Config × List (IndexOp (TermVector Nat))
  | .auto => (⟨1, 1, 0, 8, false⟩, [.insert 1 ⟨0, 1⟩ ⟨some oneWord, 0⟩])
  | .manual => (⟨1, 0, 0, 8, false⟩,
      [.insert 1 ⟨0, 1⟩ ⟨some oneWord, 0⟩, .spillMemtable 1])
  | .bulkLoad => (⟨1, 0, 1, 8, false⟩, [.insert 1 ⟨0, 1⟩ ⟨some oneWord, 0⟩, .commit 1])

/-- **A spilled document is found twice** after a restart, whichever spill wrote
it. -/
theorem spilled_document_duplicated :
    ¬ ∃ kind, ∀ hist s, Reaches (indexStep (spillRun kind).1 (vectorAnalyzer .text))
      (fun _ _ _ => True) IndexState.init hist s →
      ExactlyOnce (spillRun kind).1 (vectorAnalyzer .text) hist s := by
  rintro ⟨kind, hall⟩
  have hrun : ∃ s, runAll (indexStep (spillRun kind).1 (vectorAnalyzer .text)) IndexState.init
      (spillRun kind).2 = some s ∧ s.heap.tuples ⟨0, 1⟩ = some ⟨some oneWord, 0⟩ ∧
      ((tpRebuildIndexFromDisk (spillRun kind).1 (vectorAnalyzer .text) s.heap
        s).memtable.docLengths.lookup ⟨0, 1⟩).isSome = true ∧
      (linkedSegments (tpRebuildIndexFromDisk (spillRun kind).1 (vectorAnalyzer .text) s.heap
        s).levels).any (fun seg => seg.docs.any fun d => decide (d.ctid = ⟨0, 1⟩)) = true := by
    cases kind
    · exact ⟨_, rfl, rfl, by decide, by decide⟩
    · exact ⟨_, rfl, rfl, by decide, by decide⟩
    · exact ⟨_, rfl, rfl, by decide, by decide⟩
  obtain ⟨s, hrun, htuple, hmem, hseg⟩ := hrun
  refine not_placedOnce hmem hseg (hall _ s (reaches_of_run hrun) s.heap (fun _ _ h => h) 1 ⟨0, 1⟩
    ⟨some oneWord, 0⟩ oneWord ?_ rfl (by decide) htuple)
  cases kind <;> simp [spillRun]

end PgTextsearch.State
