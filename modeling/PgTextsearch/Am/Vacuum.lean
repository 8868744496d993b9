import PgTextsearch.State.Recovery

/-!
# Vacuum (`am/vacuum.c`)

`tp_bulkdelete` hands every indexed CTID to the callback and ignores the answer:
nothing is ever removed from the memtable or a segment.  After VACUUM the heap may
give a CTID to another tuple, for which the index then still holds the entries of
the earlier one.

## Main results

* `tpBulkdelete_keeps` — `tp_bulkdelete` leaves the index as it is.
* `no_stale_posting` — in every run in which no tuple is placed at a CTID the index
  still has entries for, the entries of a live CTID come from its tuple, and no term
  has two postings for a CTID.
* `stale_posting_after_reuse` — a delete, a vacuum and an insert at the same CTID.
-/

namespace PgTextsearch.Am

open PgTextsearch.Postgres PgTextsearch.Segment PgTextsearch.State PgTextsearch.Verified

variable {Value Term : Type}

/-! ## `tp_bulkdelete` -/

/-- `IndexBulkDeleteResult`, as far as `tp_bulkdelete` fills it in. -/
structure BulkDeleteResult where
  numPages : Nat
  numIndexTuples : Nat
  tuplesRemoved : Nat
  pagesDeleted : Nat
  deriving DecidableEq, Repr

/-- `tp_bulkdelete_memtable_ctids`: the CTIDs handed to the callback. -/
def bulkdeleteMemtableCtids (mt : Memtable Term) : List ItemPointer :=
  (mt.docLengths.entries.map Sigma.fst).filter ItemPointer.isValid

/-- `tp_bulkdelete_segment_ctids`, for the chain of one level. -/
def bulkdeleteSegmentCtids (chain : List (SegmentContents Term)) : List ItemPointer :=
  (chain.flatMap fun seg => seg.docs.map SegDoc.ctid).filter ItemPointer.isValid

/-- `tp_bulkdelete`: the callback's answers (true for a dead tuple) are computed and
dropped; the index is returned as it was. -/
def tpBulkdelete (callback : ItemPointer → Bool) (s : IndexState Value Term) :
    IndexState Value Term × List Bool × BulkDeleteResult :=
  let reported := bulkdeleteMemtableCtids s.memtable ++
    (List.range tpMaxLevels).flatMap fun level => bulkdeleteSegmentCtids (s.levels level)
  (s, reported.map callback, ⟨1, s.metaTotalDocs, 0, 0⟩)

/-- Whatever the callback says, nothing is removed. -/
theorem tpBulkdelete_keeps (callback : ItemPointer → Bool) (s : IndexState Value Term) :
    (tpBulkdelete callback s).1 = s ∧ (tpBulkdelete callback s).2.2.tuplesRemoved = 0 :=
  ⟨rfl, rfl⟩

/-! ## Heap and index -/

/-- The index with its heap, and the CTIDs of deleted tuples that VACUUM has not yet
removed. -/
structure VacuumState (Value Term : Type) where
  index : IndexState Value Term
  dead : List ItemPointer

/-- An index on an empty table. -/
def VacuumState.init : VacuumState Value Term := ⟨IndexState.init, []⟩

/-- The heap part of VACUUM: the CTIDs of the dead tuples become free. -/
def Heap.vacuum (heap : Heap Value) (dead : List ItemPointer) : Heap Value where
  nblocks := heap.nblocks
  tuples := fun ctid => if ctid ∈ dead then none else heap.tuples ctid
  bounded := by
    intro ctid tuple h
    split at h
    · cases h
    · exact heap.bounded ctid tuple h
  valid := by
    intro ctid tuple h
    split at h
    · cases h
    · exact heap.valid ctid tuple h

/-- The steps of a run: the calls on the index, the deletion of a tuple, and a
VACUUM. -/
inductive VacuumOp (Value : Type) where
  | index (op : IndexOp Value)
  | delete (ctid : ItemPointer)
  | vacuum

variable [DecidableEq Term]

/-- One step. -/
def vacuumStep (cfg : Config) (an : Analyzer Value Term) (s : VacuumState Value Term) :
    VacuumOp Value → Option (VacuumState Value Term)
  | .index op =>
      match indexStep cfg an s.index op with
      | none => none
      | some index => some { s with index := index }
  | .delete ctid =>
      match s.index.heap.tuples ctid with
      | none => none
      | some _ => if ctid ∈ s.dead then none else some { s with dead := ctid :: s.dead }
  | .vacuum =>
      let index := (tpBulkdelete (fun ctid => decide (ctid ∈ s.dead)) s.index).1
      some ⟨{ index with heap := Heap.vacuum index.heap s.dead }, []⟩

omit [DecidableEq Term] in
/-- What `tp_insert` indexes of a tuple. -/
def document (an : Analyzer Value Term) (tuple : HeapTuple Value) : Option (TermVector Term) :=
  tuple.value.map an.insertTerms

/-- Everything the index holds for the CTID comes from the document: terms and
frequencies, and document lengths, in the memtable and in the linked segments. -/
structure ComesFrom (s : IndexState Value Term) (ctid : ItemPointer)
    (doc : Option (TermVector Term)) : Prop where
  posting : ∀ term p, p ∈ s.memtable.postings term → p.ctid = ctid →
    ∃ tv, doc = some tv ∧ (term, p.frequency) ∈ tv.entries
  length : ∀ e, s.memtable.docLengths.lookup ctid = some e →
    ∃ tv, doc = some tv ∧ e.docLength = tv.docLength
  segPosting : ∀ term q, LinkedPosting s.levels term q → q.ctid = ctid →
    ∃ tv f, doc = some tv ∧ (term, f) ∈ tv.entries ∧ q.frequency = f % 2 ^ 16 ∧
      q.fieldnorm = encodeFieldnorm tv.docLength
  segLength : ∀ seg ∈ linkedSegments s.levels, ∀ d ∈ seg.docs, d.ctid = ctid →
    ∃ tv, doc = some tv ∧ d.fieldnorm = encodeFieldnorm tv.docLength

/-- The number of postings of the term for the CTID in the whole index. -/
def postingCount (s : IndexState Value Term) (term : Term) (ctid : ItemPointer) : Nat :=
  (s.memtable.postings term).countP (fun p => p.ctid = ctid) + linkedCount s.levels term ctid

/-- **No stale entry**: what the index holds for a live CTID comes from its tuple,
and a term has at most one posting for a CTID. -/
def NoStaleEntry (an : Analyzer Value Term) (s : VacuumState Value Term) : Prop :=
  (∀ ctid tuple, s.index.heap.tuples ctid = some tuple → ctid ∉ s.dead →
    ComesFrom s.index ctid (document an tuple)) ∧
    ∀ term ctid, postingCount s.index term ctid ≤ 1

/-- The index holds nothing for the CTID. -/
def Unheld (s : IndexState Value Term) (ctid : ItemPointer) : Prop :=
  ¬ Mentions s.memtable ctid ∧ ∀ seg ∈ linkedSegments s.levels, ¬ SegMentions seg ctid

/-- Whether the index holds nothing for the CTID, by going through its tables. -/
def unheldCheck (s : IndexState Value Term) (ctid : ItemPointer) : Bool :=
  (s.memtable.docLengths.lookup ctid).isNone &&
    s.memtable.stringTable.entries.all (fun e => e.2.all fun p => p.ctid ≠ ctid) &&
    (linkedSegments s.levels).all fun seg =>
      seg.docs.all (fun d => d.ctid ≠ ctid) && seg.terms.all fun e => e.2.all fun q => q.ctid ≠ ctid

/-- The condition on a step: a tuple is only placed where the index holds nothing. -/
def FreshCtid (s : VacuumState Value Term) : VacuumOp Value → Prop
  | .index (.insert _ ctid _) => Unheld s.index ctid
  | _ => True

/-- `FreshCtid` as a check. -/
def freshCtidCheck (s : VacuumState Value Term) : VacuumOp Value → Bool
  | .index (.insert _ ctid _) => unheldCheck s.index ctid
  | _ => true

theorem unheld_of_check {s : IndexState Value Term} {ctid : ItemPointer}
    (h : unheldCheck s ctid = true) : Unheld s ctid := by
  simp only [unheldCheck, Bool.and_eq_true, List.all_eq_true, decide_eq_true_eq] at h
  obtain ⟨⟨hlength, hpostings⟩, hsegs⟩ := h
  constructor
  · rintro (hsome | ⟨term, p, hp, hctid⟩)
    · simp [Option.isNone_iff_eq_none.1 hlength] at hsome
    · unfold Memtable.postings at hp
      cases hl : s.memtable.stringTable.lookup term with
      | none => simp [hl] at hp
      | some ps =>
          rw [hl, Option.getD_some] at hp
          exact hpostings ⟨term, ps⟩ (AList.mem_lookup_iff.1 hl) p hp hctid
  · rintro seg hseg (⟨d, hd, hctid⟩ | ⟨term, q, hq, hctid⟩)
    · exact (hsegs seg hseg).1 d hd hctid
    · unfold SegmentContents.postings at hq
      cases hl : seg.terms.lookup term with
      | none => simp [hl] at hq
      | some qs =>
          rw [hl, Option.getD_some] at hq
          obtain ⟨l₁, l₂, hterms, -⟩ := List.lookup_eq_some_iff.1 hl
          exact (hsegs seg hseg).2 (term, qs) (by rw [hterms]; simp) q hq hctid

theorem freshCtid_of_check {s : VacuumState Value Term} {op : VacuumOp Value}
    (h : freshCtidCheck s op = true) : FreshCtid s op := by
  unfold FreshCtid
  split
  · exact unheld_of_check h
  · trivial

/-! ## Spills and merges keep provenance -/

/-- The written segment has as many postings for a CTID as the memtable. -/
theorem countP_write {mt : Memtable Term} {seg : SegmentContents Term}
    (h : tpWriteSegment mt = .ok (some seg)) (term : Term) (ctid : ItemPointer) :
    (seg.postings term).countP (fun q => q.ctid = ctid) =
      (mt.postings term).countP (fun p => p.ctid = ctid) := by
  have hf := (tpWriteSegment_spec h).1 term
  generalize mt.postings term = ps at hf
  generalize seg.postings term = qs at hf
  induction hf with
  | nil => rfl
  | cons hpq _ ih =>
      obtain ⟨e, -, rfl⟩ := convertPosting_eq_ok.1 hpq
      rw [List.countP_cons, List.countP_cons, ih]

/-- **Spills and merges keep the number of postings.** -/
theorem postingCount_spill (cfg : Config) (backend : Nat) (kind : SpillKind)
    (s : IndexState Value Term) (term : Term) (ctid : ItemPointer) :
    postingCount (spill cfg backend kind s) term ctid = postingCount s term ctid := by
  by_cases hw : ∃ seg, tpWriteSegment s.memtable = .ok (some seg)
  · obtain ⟨seg, hwrite⟩ := hw
    obtain ⟨hmt, hlevels, -⟩ := spill_of_writes cfg backend kind hwrite
    rw [postingCount, postingCount, hmt, hlevels, linkedCount_compact,
      linkedCount_linkSegment _ (by decide), countP_write hwrite, postings_clear, List.countP_nil]
    omega
  · rw [spill_of_not_writes kind fun seg hseg => hw ⟨seg, hseg⟩]

/-- **Spills and merges keep provenance.** -/
theorem ComesFrom.spill {s : IndexState Value Term} {ctid : ItemPointer}
    {doc : Option (TermVector Term)} (h : ComesFrom s ctid doc) (cfg : Config) (backend : Nat)
    (kind : SpillKind) : ComesFrom (State.spill cfg backend kind s) ctid doc := by
  by_cases hw : ∃ seg, tpWriteSegment s.memtable = .ok (some seg)
  · obtain ⟨seg, hwrite⟩ := hw
    obtain ⟨hmt, hlevels, -⟩ := spill_of_writes cfg backend kind hwrite
    refine ⟨?_, ?_, ?_, ?_⟩
    · intro term p hp
      rw [hmt, postings_clear] at hp
      cases hp
    · intro e he
      rw [hmt] at he
      simp [tpClearMemtable] at he
    · intro term q hq hctid
      rw [hlevels, linkedPosting_compact] at hq
      obtain ⟨seg', hseg', hq⟩ := hq
      rcases (mem_linkSegment (by decide)).1 hseg' with rfl | hin
      · -- the posting was in the memtable, its length in the length table
        obtain ⟨p, hp, hconv⟩ := (mem_postings_of_write hwrite).1 hq
        obtain ⟨e, he, rfl⟩ := convertPosting_eq_ok.1 hconv
        obtain ⟨tv, hdoc, hterm⟩ := h.posting term p hp hctid
        obtain ⟨tv', hdoc', hlen⟩ := h.length e (hctid ▸ he)
        rw [hdoc] at hdoc'
        cases hdoc'
        exact ⟨tv, p.frequency, hdoc, hterm, rfl, by rw [hlen]⟩
      · exact h.segPosting term q ⟨seg', hin, hq⟩ hctid
    · intro seg' hseg' d hd hctid
      rw [hlevels] at hseg'
      obtain ⟨seg'', hseg'', hd⟩ := mem_docs_compact hseg' hd
      rcases (mem_linkSegment (by decide)).1 hseg'' with rfl | hin
      · rw [(tpWriteSegment_spec hwrite).2] at hd
        obtain ⟨e, he, rfl⟩ := List.mem_map.1 hd
        have hlookup : s.memtable.docLengths.lookup e.1 = some e.2 :=
          AList.mem_lookup_iff.2 he
        obtain ⟨tv, hdoc, hlen⟩ := h.length e.2 (hctid ▸ hlookup)
        exact ⟨tv, hdoc, by rw [hlen]⟩
      · exact h.segLength seg'' hin d hd hctid
  · rw [spill_of_not_writes kind fun seg hseg => hw ⟨seg, hseg⟩]
    exact h

/-! ## Inserts -/

/-- What an added document gives at its own CTID, where nothing was held. -/
theorem comesFrom_addDocument {s : IndexState Value Term} {ctid : ItemPointer}
    (hfree : Unheld s ctid) (backend : Nat) (tv : TermVector Term) (tenantId : Nat) :
    ComesFrom (addDocument s backend ctid tv tenantId) ctid (some tv) := by
  obtain ⟨hmt, hsegs⟩ := hfree
  refine ⟨?_, ?_, ?_, ?_⟩
  · intro term p hp hctid
    simp only [addDocument, postings_addDocumentTerms, List.mem_append] at hp
    rcases hp with hp | hp
    · exact absurd (Or.inr ⟨term, p, hp, hctid⟩) hmt
    · obtain ⟨f, hf, rfl⟩ := mem_documentPostings.1 hp
      exact ⟨tv, rfl, hf⟩
  · intro e he
    simp only [addDocument, docLengths_addDocumentTerms, AList.lookup_insert,
      Option.some.injEq] at he
    exact ⟨tv, rfl, by rw [← he]⟩
  · rintro term q ⟨seg, hseg, hq⟩ hctid
    exact absurd (Or.inr ⟨term, q, hq, hctid⟩) (hsegs seg hseg)
  · intro seg hseg d hd hctid
    exact absurd (Or.inl ⟨d, hd, hctid⟩) (hsegs seg hseg)

/-- A document added at one CTID does not touch another. -/
theorem ComesFrom.addDocument {s : IndexState Value Term} {ctid ctid' : ItemPointer}
    {doc : Option (TermVector Term)} (h : ComesFrom s ctid doc) (hne : ctid ≠ ctid')
    (backend : Nat) (tv : TermVector Term) (tenantId : Nat) :
    ComesFrom (State.addDocument s backend ctid' tv tenantId) ctid doc := by
  refine ⟨?_, ?_, h.segPosting, h.segLength⟩
  · intro term p hp hctid
    simp only [State.addDocument, postings_addDocumentTerms, List.mem_append] at hp
    rcases hp with hp | hp
    · exact h.posting term p hp hctid
    · obtain ⟨f, -, rfl⟩ := mem_documentPostings.1 hp
      exact absurd hctid.symm hne
  · intro e he
    simp only [State.addDocument, docLengths_addDocumentTerms,
      AList.lookup_insert_ne hne] at he
    exact h.length e he

theorem comesFrom_of_unheld {s : IndexState Value Term} {ctid : ItemPointer}
    (hfree : Unheld s ctid) (doc : Option (TermVector Term)) : ComesFrom s ctid doc := by
  obtain ⟨hmt, hsegs⟩ := hfree
  refine ⟨?_, ?_, ?_, ?_⟩
  · intro term p hp hctid
    exact absurd (Or.inr ⟨term, p, hp, hctid⟩) hmt
  · intro e he
    exact absurd (Or.inl (by rw [he]; rfl)) hmt
  · rintro term q ⟨seg, hseg, hq⟩ hctid
    exact absurd (Or.inr ⟨term, q, hq, hctid⟩) (hsegs seg hseg)
  · intro seg hseg d hd hctid
    exact absurd (Or.inl ⟨d, hd, hctid⟩) (hsegs seg hseg)

/-- A document added where nothing was held keeps the postings unique. -/
theorem postingCount_addDocument {s : IndexState Value Term} {ctid : ItemPointer}
    (hfree : Unheld s ctid) (hunique : ∀ term c, postingCount s term c ≤ 1) (backend : Nat)
    (tv : TermVector Term) (tenantId : Nat) (term : Term) (c : ItemPointer) :
    postingCount (addDocument s backend ctid tv tenantId) term c ≤ 1 := by
  have hcount := hunique term c
  unfold postingCount at hcount ⊢
  simp only [addDocument, postings_addDocumentTerms, List.countP_append]
  by_cases hc : c = ctid
  · subst hc
    have hold : (s.memtable.postings term).countP (fun p => p.ctid = c) = 0 := by
      rw [List.countP_eq_zero]
      intro p hp hctid
      exact hfree.1 (Or.inr ⟨term, p, hp, of_decide_eq_true hctid⟩)
    have hlinked : linkedCount s.levels term c = 0 := by
      apply linkedCount_eq_zero
      rintro q ⟨seg, hseg, hq⟩ hctid
      exact hfree.2 seg hseg (Or.inr ⟨term, q, hq, hctid⟩)
    have hnew : (documentPostings c tv.entries tenantId term).countP (fun p => p.ctid = c) ≤ 1 :=
      List.countP_le_length.trans (length_documentPostings_le c tv tenantId term)
    omega
  · have hnew : (documentPostings ctid tv.entries tenantId term).countP
        (fun p => p.ctid = c) = 0 := by
      rw [List.countP_eq_zero]
      intro p hp hctid
      obtain ⟨f, -, rfl⟩ := mem_documentPostings.1 hp
      exact hc (of_decide_eq_true hctid).symm
    omega

/-! ## Runs -/

/-- The invariant: the entries of every CTID the heap uses, dead tuples included,
come from the tuple there, and postings are unique. -/
structure VacuumInv (an : Analyzer Value Term) (s : IndexState Value Term) : Prop where
  comesFrom : ∀ ctid tuple, s.heap.tuples ctid = some tuple →
    ComesFrom s ctid (document an tuple)
  unique : ∀ term ctid, postingCount s term ctid ≤ 1

theorem vacuumInv_init (an : Analyzer Value Term) :
    VacuumInv an (IndexState.init : IndexState Value Term) where
  comesFrom := fun ctid tuple h => by cases h
  unique := fun term ctid => by
    simp [postingCount, IndexState.init, linkedCount]

/-- Only the memtable, the segments and the heap count. -/
theorem VacuumInv.congr {an : Analyzer Value Term} {s s' : IndexState Value Term}
    (h : VacuumInv an s) (hmt : s'.memtable = s.memtable) (hlevels : s'.levels = s.levels)
    (hheap : ∀ ctid tuple, s'.heap.tuples ctid = some tuple → s.heap.tuples ctid = some tuple) :
    VacuumInv an s' where
  comesFrom := by
    intro ctid tuple htuple
    obtain ⟨h₁, h₂, h₃, h₄⟩ := h.comesFrom ctid tuple (hheap ctid tuple htuple)
    exact ⟨by rw [hmt]; exact h₁, by rw [hmt]; exact h₂, by rw [hlevels]; exact h₃,
      by rw [hlevels]; exact h₄⟩
  unique := by
    intro term ctid
    rw [postingCount, hmt, hlevels]
    exact h.unique term ctid

theorem VacuumInv.spill {an : Analyzer Value Term} {s : IndexState Value Term}
    (h : VacuumInv an s) (cfg : Config) (backend : Nat) (kind : SpillKind) :
    VacuumInv an (State.spill cfg backend kind s) where
  comesFrom := by
    intro ctid tuple htuple
    have hheap : (State.spill cfg backend kind s).heap = s.heap := by
      by_cases hw : ∃ seg, tpWriteSegment s.memtable = .ok (some seg)
      · obtain ⟨seg, hwrite⟩ := hw
        exact (spill_of_writes cfg backend kind hwrite).2.2
      · rw [spill_of_not_writes kind fun seg hseg => hw ⟨seg, hseg⟩]
    rw [hheap] at htuple
    exact (h.comesFrom ctid tuple htuple).spill cfg backend kind
  unique := by
    intro term ctid
    rw [postingCount_spill]
    exact h.unique term ctid

/-- The heap after a tuple was placed. -/
theorem tuples_place {heap : Heap Value} {ctid c : ItemPointer} {tuple t : HeapTuple Value}
    (hvalid : ctid.isValid = true) (h : (heap.place ctid hvalid tuple).tuples c = some t) :
    (c = ctid ∧ t = tuple) ∨ (c ≠ ctid ∧ heap.tuples c = some t) := by
  simp only [Heap.place] at h
  by_cases hc : c = ctid
  · subst hc
    rw [Function.update_self] at h
    exact Or.inl ⟨rfl, (Option.some.inj h).symm⟩
  · rw [Function.update_of_ne hc] at h
    exact Or.inr ⟨hc, h⟩

theorem VacuumInv.insert {cfg : Config} {an : Analyzer Value Term} {s : IndexState Value Term}
    (h : VacuumInv an s) {backend : Nat} {ctid : ItemPointer} {tuple : HeapTuple Value}
    (hvalid : ctid.isValid = true) (hfree : Unheld s ctid) :
    VacuumInv an (tpInsert cfg an backend ctid tuple
      { s with heap := s.heap.place ctid hvalid tuple }) := by
  have hplaced : VacuumInv an { s with heap := s.heap.place ctid hvalid tuple } := by
    refine ⟨?_, h.unique⟩
    intro c t ht
    rcases tuples_place hvalid ht with ⟨rfl, rfl⟩ | ⟨-, ht⟩
    · obtain ⟨h₁, h₂, h₃, h₄⟩ := comesFrom_of_unheld hfree (document an t)
      exact ⟨h₁, h₂, h₃, h₄⟩
    · obtain ⟨h₁, h₂, h₃, h₄⟩ := h.comesFrom c t ht
      exact ⟨h₁, h₂, h₃, h₄⟩
  have hfree' : Unheld { s with heap := s.heap.place ctid hvalid tuple } ctid := hfree
  unfold tpInsert
  cases hvalue : tuple.value with
  | none => exact hplaced
  | some value =>
      simp only
      split
      · exact hplaced.congr rfl rfl fun _ _ ht => ht
      · have hadded : VacuumInv an (addDocument
            { s with heap := s.heap.place ctid hvalid tuple } backend ctid
            (an.insertTerms value) (cfg.tenantIdOf tuple)) := by
          refine ⟨?_, postingCount_addDocument hfree' hplaced.unique backend _ _⟩
          intro c t ht
          rcases tuples_place hvalid ht with ⟨rfl, rfl⟩ | ⟨hne, -⟩
          · rw [document, hvalue]
            exact comesFrom_addDocument hfree' backend _ _
          · exact (hplaced.comesFrom c t ht).addDocument hne backend _ _
        have hspilled : VacuumInv an (tpAutoSpillIfNeeded cfg backend (addDocument
            { s with heap := s.heap.place ctid hvalid tuple } backend ctid
            (an.insertTerms value) (cfg.tenantIdOf tuple))) := by
          unfold tpAutoSpillIfNeeded
          split
          · exact hadded
          · split
            · exact hadded
            · exact hadded.spill cfg backend .auto
        exact hspilled.congr rfl rfl fun _ _ ht => ht

theorem vacuumInv_indexStep {cfg : Config} {an : Analyzer Value Term}
    {s s' : IndexState Value Term} {op : IndexOp Value} (h : VacuumInv an s)
    (hfresh : ∀ backend ctid tuple, op = .insert backend ctid tuple → Unheld s ctid)
    (hstep : indexStep cfg an s op = some s') : VacuumInv an s' := by
  cases op with
  | insert backend ctid tuple =>
      simp only [indexStep] at hstep
      split at hstep
      case isFalse => cases hstep
      case isTrue hvalid =>
        cases hslot : s.heap.tuples ctid with
        | some t => simp [hslot] at hstep
        | none =>
            simp only [hslot, Option.some.injEq] at hstep
            subst hstep
            exact h.insert hvalid (hfresh backend ctid tuple rfl)
  | spillMemtable backend =>
      cases hstep
      exact h.spill cfg backend .manual
  | commit backend =>
      cases hstep
      have hchecked : VacuumInv an (tpBulkLoadSpillCheck cfg backend s) := by
        unfold tpBulkLoadSpillCheck
        split
        · exact h
        · split
          · exact h
          · exact h.spill cfg backend .bulkLoad
      exact hchecked.congr rfl rfl fun _ _ ht => ht
  | abort backend =>
      cases hstep
      exact h.congr rfl rfl fun _ _ ht => ht

theorem vacuumInv_step {cfg : Config} {an : Analyzer Value Term} {s s' : VacuumState Value Term}
    {op : VacuumOp Value} (h : VacuumInv an s.index) (hfresh : FreshCtid s op)
    (hstep : vacuumStep cfg an s op = some s') : VacuumInv an s'.index := by
  cases op with
  | index op =>
      simp only [vacuumStep] at hstep
      cases hnext : indexStep cfg an s.index op with
      | none => simp [hnext] at hstep
      | some index =>
          simp only [hnext, Option.some.injEq] at hstep
          subst hstep
          refine vacuumInv_indexStep h ?_ hnext
          rintro backend ctid tuple rfl
          exact hfresh
  | delete ctid =>
      simp only [vacuumStep] at hstep
      split at hstep
      · cases hstep
      · split at hstep
        · cases hstep
        · cases hstep
          exact h
  | vacuum =>
      cases hstep
      refine h.congr rfl rfl ?_
      intro ctid tuple ht
      simp only [Heap.vacuum] at ht
      split at ht
      · cases ht
      · exact ht

/-- **No stale entry** in every run that places tuples only where the index holds
nothing. -/
theorem no_stale_posting {cfg : Config} {an : Analyzer Value Term}
    {hist : List (VacuumOp Value)} {s : VacuumState Value Term}
    (h : Reaches (vacuumStep cfg an) (fun _ s op => FreshCtid s op) VacuumState.init hist s) :
    NoStaleEntry an s := by
  have hinv : VacuumInv an s.index :=
    h.invariant (vacuumInv_init an) fun _ _ _ _ hi hok hnext => vacuumInv_step hi hok hnext
  exact ⟨fun ctid tuple ht _ => hinv.comesFrom ctid tuple ht, hinv.unique⟩

/-! ## A reused CTID -/

/-- Another document with a single word. -/
def otherWord : TermVector Nat := ⟨[(8, 1)], by decide, by decide⟩

/-- A row is inserted, spilled, deleted and vacuumed; the next row goes to another
CTID. -/
def freshCtidRun : List (VacuumOp (TermVector Nat)) :=
  [.index (.insert 1 ⟨0, 1⟩ ⟨some oneWord, 0⟩), .index (.spillMemtable 1), .delete ⟨0, 1⟩,
    .vacuum, .index (.insert 1 ⟨0, 2⟩ ⟨some otherWord, 0⟩)]

theorem no_stale_posting_freshCtidRun :
    ∃ s, Reaches (vacuumStep ⟨1, 0, 0, 8, false⟩ (vectorAnalyzer .text))
        (fun _ s op => FreshCtid s op) VacuumState.init freshCtidRun s ∧
      NoStaleEntry (vectorAnalyzer .text) s := by
  obtain ⟨s, hrun⟩ : ∃ s, runChecked (vacuumStep ⟨1, 0, 0, 8, false⟩ (vectorAnalyzer .text))
      (fun _ s op => freshCtidCheck s op) [] VacuumState.init freshCtidRun = some s := ⟨_, rfl⟩
  have hreach : Reaches (vacuumStep ⟨1, 0, 0, 8, false⟩ (vectorAnalyzer .text))
      (fun _ s op => FreshCtid s op) VacuumState.init freshCtidRun s := by
    exact reaches_of_runChecked _ (fun _ _ _ hop => freshCtid_of_check hop) hrun
  exact ⟨s, hreach, no_stale_posting hreach⟩

/-- The row is inserted, deleted and vacuumed, and its CTID given to another row. -/
def reusedCtidRun : List (VacuumOp (TermVector Nat)) :=
  [.index (.insert 1 ⟨0, 1⟩ ⟨some oneWord, 0⟩), .delete ⟨0, 1⟩, .vacuum,
    .index (.insert 1 ⟨0, 1⟩ ⟨some otherWord, 0⟩)]

/-- **A stale posting survives**: the index still has the old row's word for the CTID
of the new row. -/
theorem stale_posting_after_reuse :
    ¬ ∀ hist s, Reaches (vacuumStep ⟨1, 0, 0, 8, false⟩ (vectorAnalyzer .text))
      (fun _ _ _ => True) VacuumState.init hist s → NoStaleEntry (vectorAnalyzer .text) s := by
  intro hall
  obtain ⟨s, hrun, htuple, hdead, hposting⟩ :
      ∃ s, runAll (vacuumStep ⟨1, 0, 0, 8, false⟩ (vectorAnalyzer .text)) VacuumState.init
          reusedCtidRun = some s ∧
        s.index.heap.tuples ⟨0, 1⟩ = some ⟨some otherWord, 0⟩ ∧ s.dead = [] ∧
        s.index.memtable.postings 7 = [⟨⟨0, 1⟩, 1, 0⟩] := ⟨_, rfl, rfl, rfl, rfl⟩
  have hfrom := (hall _ s (reaches_of_run hrun)).1 ⟨0, 1⟩ _ htuple (by simp [hdead])
  obtain ⟨tv, hdoc, hterm⟩ := hfrom.posting 7 ⟨⟨0, 1⟩, 1, 0⟩ (by rw [hposting]; simp) rfl
  cases hdoc
  exact absurd hterm (by decide)

end PgTextsearch.Am
