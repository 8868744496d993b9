import Mathlib.Algebra.BigOperators.Group.Finset.Basic
import Mathlib.Data.List.Dedup
import Mathlib.Data.List.Forall2
import Mathlib.Logic.Function.Basic
import PgTextsearch.Memtable.Posting
import PgTextsearch.Segment.Docmap

/-!
# What segments hold (`segment/segment.c`, `segment/merge.c`)

A segment as a relation: its documents with their fieldnorms, and for every term
of its dictionary the postings with the CTIDs their document ids stand for.  The
order of the postings (that of the document ids) and the blocks they are cut
into are not represented here.

## Main results

* `tpWriteSegment_spec` — the segment written from a memtable has one posting for
  each posting of the memtable and a document for each document length.
* `postings_merge`, `mem_mergedDocs` — a merged segment has the postings of its
  sources and their documents.
* `linkedPosting_compact` — compaction keeps the postings of the linked segments.
-/

namespace PgTextsearch.Segment

open PgTextsearch.Postgres

/-- A posting of a segment, with the CTID in place of the document id. -/
structure SegPosting where
  ctid : ItemPointer
  frequency : Nat
  fieldnorm : Fin 256
  deriving DecidableEq, Repr

/-- A row of the document map. -/
structure SegDoc where
  ctid : ItemPointer
  fieldnorm : Fin 256
  tenantId : Nat
  deriving DecidableEq, Repr

/-- The dictionary with the posting lists, and the document map. -/
structure SegmentContents (Term : Type) where
  terms : List (Term × List SegPosting)
  docs : List SegDoc
  deriving Repr

variable {Term : Type} [DecidableEq Term]

/-- The postings of a term. -/
def SegmentContents.postings (seg : SegmentContents Term) (term : Term) : List SegPosting :=
  (seg.terms.lookup term).getD []

/-! ## Writing the memtable -/

omit [DecidableEq Term] in
/-- One posting of `tp_write_segment`: the fieldnorm comes from the document map,
i.e. from the document length table, and the frequency is cut to 16 bits. -/
def convertPosting (mt : Memtable Term) (p : MemPosting) : Except SegmentError SegPosting :=
  match mt.docLengths.lookup p.ctid with
  | none => .error (.ctidNotInDocmap p.ctid)
  | some e => .ok ⟨p.ctid, p.frequency % 2 ^ 16, encodeFieldnorm e.docLength⟩

omit [DecidableEq Term] in
/-- The streaming pass over the dictionary. -/
def convertTerms (mt : Memtable Term) :
    List (Sigma fun _ : Term => List MemPosting) →
      Except SegmentError (List (Term × List SegPosting))
  | [] => .ok []
  | ⟨term, postings⟩ :: rest => do
      let converted ← postings.mapM (convertPosting mt)
      let more ← convertTerms mt rest
      return (term, converted) :: more

omit [DecidableEq Term] in
/-- `tp_write_segment`: nothing is written when the dictionary is empty; the
document map refuses more documents than it can number. -/
def tpWriteSegment (mt : Memtable Term) : Except SegmentError (Option (SegmentContents Term)) :=
  if mt.docLengths.entries.length ≥ uint32Max then .error .tooManyDocuments
  else if mt.stringTable.entries = [] then .ok none
  else do
    let terms ← convertTerms mt mt.stringTable.entries
    return some ⟨terms, mt.docLengths.entries.map fun e =>
      ⟨e.1, encodeFieldnorm e.2.docLength, e.2.tenantId⟩⟩

/-! ## Merging and compaction -/

/-- The row a merge adds for a source row: the length is read back from the
fieldnorm and encoded again. -/
def SegDoc.reencoded (d : SegDoc) : SegDoc :=
  { d with fieldnorm := encodeFieldnorm (decodeFieldnorm d.fieldnorm) }

/-- `build_merged_docmap`: `tp_docmap_add` keeps the first row of a CTID. -/
def addMergedDoc (docs : List SegDoc) (d : SegDoc) : List SegDoc :=
  if docs.any (fun d' => d'.ctid = d.ctid) then docs
  else docs ++ [d.reencoded]

omit [DecidableEq Term] in
/-- The document map of a merge. -/
def mergedDocs (sources : List (SegmentContents Term)) : List SegDoc :=
  (sources.flatMap SegmentContents.docs).foldl addMergedDoc []

/-- The merged dictionary: every term once, with the postings of all sources that
have it. -/
def mergedTerms (sources : List (SegmentContents Term)) : List (Term × List SegPosting) :=
  ((sources.flatMap fun seg => seg.terms.map Prod.fst).dedup).map fun term =>
    (term, sources.flatMap fun seg => seg.postings term)

/-- `tp_merge_level_segments` up to the metapage update: segments without terms
are no merge sources, and nothing is written without a merged term. -/
def mergeSegments (chain : List (SegmentContents Term)) : Option (SegmentContents Term) :=
  let sources := chain.filter fun seg => !seg.terms.isEmpty
  if mergedTerms sources = [] then none
  else some ⟨mergedTerms sources, mergedDocs sources⟩

/-- `TP_MAX_LEVELS`. -/
def tpMaxLevels : Nat := 8

/-- `metap->level_heads` with the chains they head, newest segment first. -/
abbrev Levels (Term : Type) := Nat → List (SegmentContents Term)

omit [DecidableEq Term] in
/-- Link a segment as the head of a level. -/
def linkSegment (levels : Levels Term) (level : Nat) (seg : SegmentContents Term) :
    Levels Term :=
  Function.update levels level (seg :: levels level)

/-- The metapage update of a merge: the source level is emptied, the merged
segment linked at the next one. -/
def linkMerged (levels : Levels Term) (level : Nat) (seg : SegmentContents Term) :
    Levels Term :=
  linkSegment (Function.update levels level []) (level + 1) seg

/-- `tp_maybe_compact_level`; at most `TP_MAX_LEVELS` levels are looked at. -/
def tpMaybeCompactLevel (segmentsPerLevel : Nat) : Nat → Levels Term → Nat → Levels Term
  | 0, levels, _ => levels
  | fuel + 1, levels, level =>
      if level ≥ tpMaxLevels - 1 then levels
      else if (levels level).length < segmentsPerLevel then levels
      else
        match mergeSegments (levels level) with
        | none => levels
        | some merged =>
            tpMaybeCompactLevel segmentsPerLevel fuel (linkMerged levels level merged) (level + 1)

omit [DecidableEq Term] in
/-- The segments a scan visits: all levels, each chain from its head. -/
def linkedSegments (levels : Levels Term) : List (SegmentContents Term) :=
  (List.range tpMaxLevels).flatMap levels

/-! ## What is written -/

private theorem convertTerms_spec {mt : Memtable Term}
    {entries : List (Sigma fun _ : Term => List MemPosting)}
    {terms : List (Term × List SegPosting)} (h : convertTerms mt entries = .ok terms)
    (term : Term) :
    List.Forall₂ (fun p q => convertPosting mt p = .ok q) ((entries.dlookup term).getD [])
      ((terms.lookup term).getD []) := by
  induction entries generalizing terms with
  | nil =>
      cases h
      exact List.Forall₂.nil
  | cons e rest ih =>
      obtain ⟨t, ps⟩ := e
      obtain ⟨converted, hconv, h⟩ := bind_eq_ok h
      obtain ⟨more, hmore, h⟩ := bind_eq_ok h
      cases h
      by_cases ht : term = t
      · subst ht
        simpa using forall₂_of_mapM_ok hconv
      · rw [List.dlookup_cons_ne _ _ ht, List.lookup_cons, beq_false_of_ne ht]
        exact ih hmore

/-- **The written segment**: a posting for each posting of the memtable, and a
document for each document length. -/
theorem tpWriteSegment_spec {mt : Memtable Term} {seg : SegmentContents Term}
    (h : tpWriteSegment mt = .ok (some seg)) :
    (∀ term, List.Forall₂ (fun p q => convertPosting mt p = .ok q) (mt.postings term)
      (seg.postings term)) ∧
      seg.docs = mt.docLengths.entries.map fun e =>
        ⟨e.1, encodeFieldnorm e.2.docLength, e.2.tenantId⟩ := by
  unfold tpWriteSegment at h
  split at h
  · cases h
  split at h
  · cases h
  obtain ⟨terms, hterms, h⟩ := bind_eq_ok h
  cases h
  exact ⟨convertTerms_spec hterms, rfl⟩

omit [DecidableEq Term] in
theorem convertPosting_eq_ok {mt : Memtable Term} {p : MemPosting} {q : SegPosting} :
    convertPosting mt p = .ok q ↔ ∃ e, mt.docLengths.lookup p.ctid = some e ∧
      q = ⟨p.ctid, p.frequency % 2 ^ 16, encodeFieldnorm e.docLength⟩ := by
  unfold convertPosting
  cases hl : mt.docLengths.lookup p.ctid with
  | none => simp
  | some e =>
      simp only [Except.ok.injEq, Option.some.injEq, exists_eq_left']
      exact eq_comm

/-- Reading the written segment back: its postings are those of the memtable. -/
theorem mem_postings_of_write {mt : Memtable Term} {seg : SegmentContents Term}
    (h : tpWriteSegment mt = .ok (some seg)) {term : Term} {q : SegPosting} :
    q ∈ seg.postings term ↔ ∃ p ∈ mt.postings term, convertPosting mt p = .ok q := by
  have hf := (tpWriteSegment_spec h).1 term
  generalize mt.postings term = ps at hf
  generalize seg.postings term = qs at hf
  induction hf with
  | nil => simp
  | cons hpq _ ih =>
      simp only [List.mem_cons (a := q), ih]
      constructor
      · rintro (rfl | ⟨p, hp, hc⟩)
        · exact ⟨_, List.mem_cons_self, hpq⟩
        · exact ⟨p, List.mem_cons_of_mem _ hp, hc⟩
      · rintro ⟨p, hp, hc⟩
        rcases List.mem_cons.1 hp with rfl | hp
        · exact Or.inl (Except.ok.inj (hc.symm.trans hpq))
        · exact Or.inr ⟨p, hp, hc⟩

/-- A posting of the memtable is in the written segment. -/
theorem exists_mem_postings_of_write {mt : Memtable Term} {seg : SegmentContents Term}
    (h : tpWriteSegment mt = .ok (some seg)) {term : Term} {p : MemPosting}
    (hp : p ∈ mt.postings term) : ∃ q ∈ seg.postings term, q.ctid = p.ctid := by
  have hf := (tpWriteSegment_spec h).1 term
  generalize mt.postings term = ps at hf hp
  generalize seg.postings term = qs at hf
  induction hf with
  | nil => cases hp
  | cons hpq _ ih =>
      rcases List.mem_cons.1 hp with rfl | hp
      · obtain ⟨e, -, rfl⟩ := convertPosting_eq_ok.1 hpq
        exact ⟨_, List.mem_cons_self, rfl⟩
      · obtain ⟨q, hq, hc⟩ := ih hp
        exact ⟨q, List.mem_cons_of_mem _ hq, hc⟩

omit [DecidableEq Term] in
/-- An empty dictionary is not written. -/
theorem tpWriteSegment_of_empty {mt : Memtable Term} (h : mt.stringTable.entries = [])
    (seg : SegmentContents Term) : tpWriteSegment mt ≠ .ok (some seg) := by
  unfold tpWriteSegment
  split
  · simp
  · simp

/-! ## What is merged -/

theorem lookup_map_pair {α β : Type} [DecidableEq α] (l : List α) (f : α → β) (a : α) :
    (l.map fun x => (x, f x)).lookup a = if a ∈ l then some (f a) else none := by
  induction l with
  | nil => rfl
  | cons x l ih =>
      rw [List.map_cons, List.lookup_cons]
      by_cases h : a = x
      · subst h
        simp
      · rw [beq_false_of_ne h, ih]
        simp [h]

/-- **Merging keeps the postings.** -/
theorem postings_merge (sources : List (SegmentContents Term)) (docs : List SegDoc)
    (term : Term) :
    (⟨mergedTerms sources, docs⟩ : SegmentContents Term).postings term =
      sources.flatMap fun seg => seg.postings term := by
  unfold SegmentContents.postings mergedTerms
  simp only [lookup_map_pair, List.mem_dedup]
  split
  · rfl
  case isFalse hmem =>
    symm
    rw [Option.getD_none, List.flatMap_eq_nil_iff]
    intro seg hseg
    have hnot : ∀ e ∈ seg.terms, e.1 ≠ term := by
      intro e he heq
      exact hmem (List.mem_flatMap.2 ⟨seg, hseg, List.mem_map.2 ⟨e, he, heq⟩⟩)
    rw [List.lookup_eq_none_iff.2]
    · rfl
    · intro e he
      simpa using Ne.symm (hnot e he)

private theorem mem_foldl_addMergedDoc {new acc : List SegDoc} {d : SegDoc}
    (h : d ∈ new.foldl addMergedDoc acc) : d ∈ acc ∨ ∃ d' ∈ new, d = d'.reencoded := by
  induction new generalizing acc with
  | nil => exact Or.inl h
  | cons e rest ih =>
      rcases ih h with hacc | ⟨d', hd', heq⟩
      · unfold addMergedDoc at hacc
        split at hacc
        · exact Or.inl hacc
        · rcases List.mem_append.1 hacc with hacc | hnew
          · exact Or.inl hacc
          · exact Or.inr ⟨e, List.mem_cons_self, List.mem_singleton.1 hnew⟩
      · exact Or.inr ⟨d', List.mem_cons_of_mem _ hd', heq⟩

private theorem subset_addMergedDoc (acc : List SegDoc) (d : SegDoc) :
    acc ⊆ addMergedDoc acc d := by
  unfold addMergedDoc
  split
  · exact List.Subset.refl _
  · exact List.subset_append_left _ _

private theorem exists_mem_addMergedDoc (acc : List SegDoc) (d : SegDoc) :
    ∃ d' ∈ addMergedDoc acc d, d'.ctid = d.ctid := by
  unfold addMergedDoc
  split
  case isTrue hany =>
    obtain ⟨d', hd', heq⟩ := List.any_eq_true.1 hany
    exact ⟨d', hd', by simpa using heq⟩
  case isFalse => exact ⟨_, List.mem_append_right _ (List.mem_singleton.2 rfl), rfl⟩

private theorem exists_mem_foldl_addMergedDoc {new acc : List SegDoc} {d : SegDoc}
    (h : d ∈ acc ∨ d ∈ new) : ∃ d' ∈ new.foldl addMergedDoc acc, d'.ctid = d.ctid := by
  induction new generalizing acc d with
  | nil =>
      rcases h with h | h
      · exact ⟨d, h, rfl⟩
      · cases h
  | cons e rest ih =>
      rw [List.foldl_cons]
      rcases h with h | h
      · exact ih (Or.inl (subset_addMergedDoc acc e h))
      · rcases List.mem_cons.1 h with rfl | h
        · obtain ⟨d', hd', heq⟩ := exists_mem_addMergedDoc acc d
          obtain ⟨d'', hd'', heq'⟩ := ih (Or.inl hd')
          exact ⟨d'', hd'', heq'.trans heq⟩
        · exact ih (Or.inr h)

omit [DecidableEq Term] in
/-- A document of the merge comes from a source. -/
theorem mem_mergedDocs {sources : List (SegmentContents Term)} {d : SegDoc}
    (h : d ∈ mergedDocs sources) : ∃ seg ∈ sources, ∃ d' ∈ seg.docs, d = d'.reencoded := by
  rcases mem_foldl_addMergedDoc h with h | ⟨d', hd', heq⟩
  · cases h
  · obtain ⟨seg, hseg, hin⟩ := List.mem_flatMap.1 hd'
    exact ⟨seg, hseg, d', hin, heq⟩

omit [DecidableEq Term] in
/-- Every document of a source is in the merge. -/
theorem exists_mem_mergedDocs {sources : List (SegmentContents Term)}
    {seg : SegmentContents Term} (hseg : seg ∈ sources) {d : SegDoc} (hd : d ∈ seg.docs) :
    ∃ d' ∈ mergedDocs sources, d'.ctid = d.ctid :=
  exists_mem_foldl_addMergedDoc (Or.inr (List.mem_flatMap.2 ⟨seg, hseg, hd⟩))

/-! ## What compaction keeps -/

/-- A linked segment holds the posting. -/
def LinkedPosting (levels : Levels Term) (term : Term) (q : SegPosting) : Prop :=
  ∃ seg ∈ linkedSegments levels, q ∈ seg.postings term

omit [DecidableEq Term] in
theorem mem_linkedSegments {levels : Levels Term} {seg : SegmentContents Term} :
    seg ∈ linkedSegments levels ↔ ∃ level < tpMaxLevels, seg ∈ levels level := by
  simp [linkedSegments, List.mem_flatMap]

omit [DecidableEq Term] in
theorem mem_linkSegment {levels : Levels Term} {level : Nat} {seg seg' : SegmentContents Term}
    (hlevel : level < tpMaxLevels) :
    seg' ∈ linkedSegments (linkSegment levels level seg) ↔
      seg' = seg ∨ seg' ∈ linkedSegments levels := by
  simp only [mem_linkedSegments, linkSegment]
  constructor
  · rintro ⟨l, hl, hmem⟩
    by_cases hll : l = level
    · subst hll
      rw [Function.update_self, List.mem_cons] at hmem
      exact hmem.imp id fun h => ⟨l, hl, h⟩
    · rw [Function.update_of_ne hll] at hmem
      exact Or.inr ⟨l, hl, hmem⟩
  · rintro (rfl | ⟨l, hl, hmem⟩)
    · exact ⟨level, hlevel, by simp⟩
    · refine ⟨l, hl, ?_⟩
      by_cases hll : l = level
      · subst hll
        rw [Function.update_self]
        exact List.mem_cons_of_mem _ hmem
      · rwa [Function.update_of_ne hll]

omit [DecidableEq Term] in
theorem mem_linkMerged {levels : Levels Term} {level : Nat} {merged seg : SegmentContents Term}
    (hlevel : level < tpMaxLevels - 1) :
    seg ∈ linkedSegments (linkMerged levels level merged) ↔
      seg = merged ∨ ∃ l < tpMaxLevels, l ≠ level ∧ seg ∈ levels l := by
  rw [linkMerged, mem_linkSegment (by omega), mem_linkedSegments]
  refine or_congr Iff.rfl ⟨?_, ?_⟩
  · rintro ⟨l, hl, hmem⟩
    by_cases hll : l = level
    · subst hll
      simp at hmem
    · rw [Function.update_of_ne hll] at hmem
      exact ⟨l, hl, hll, hmem⟩
  · rintro ⟨l, hl, hll, hmem⟩
    exact ⟨l, hl, by rwa [Function.update_of_ne hll]⟩

theorem mem_postings_mergeSegments {chain : List (SegmentContents Term)}
    {merged : SegmentContents Term} (h : mergeSegments chain = some merged) {term : Term}
    {q : SegPosting} : q ∈ merged.postings term ↔ ∃ seg ∈ chain, q ∈ seg.postings term := by
  simp only [mergeSegments] at h
  split at h
  · cases h
  cases h
  rw [postings_merge, List.mem_flatMap]
  constructor
  · rintro ⟨seg, hseg, hq⟩
    exact ⟨seg, (List.mem_filter.1 hseg).1, hq⟩
  · rintro ⟨seg, hseg, hq⟩
    refine ⟨seg, List.mem_filter.2 ⟨hseg, ?_⟩, hq⟩
    -- a segment without terms has no postings
    cases hterms : seg.terms with
    | nil => simp [SegmentContents.postings, hterms] at hq
    | cons e rest => rfl

/-- **Compaction keeps the postings** of the linked segments. -/
theorem linkedPosting_compact {segmentsPerLevel : Nat} {fuel level : Nat} {levels : Levels Term}
    {term : Term} {q : SegPosting} :
    LinkedPosting (tpMaybeCompactLevel segmentsPerLevel fuel levels level) term q ↔
      LinkedPosting levels term q := by
  induction fuel generalizing levels level with
  | zero => rfl
  | succ fuel ih =>
      unfold tpMaybeCompactLevel
      split
      · rfl
      split
      · rfl
      cases hm : mergeSegments (levels level) with
      | none => rfl
      | some merged =>
          have hmem : q ∈ merged.postings term ↔ ∃ seg ∈ levels level, q ∈ seg.postings term :=
            mem_postings_mergeSegments hm
          simp only [ih]
          unfold LinkedPosting
          constructor
          · rintro ⟨seg, hseg, hq⟩
            rcases (mem_linkMerged (by omega)).1 hseg with rfl | ⟨l, hl, -, hin⟩
            · obtain ⟨src, hsrc, hqs⟩ := hmem.1 hq
              exact ⟨src, mem_linkedSegments.2 ⟨level, by omega, hsrc⟩, hqs⟩
            · exact ⟨seg, mem_linkedSegments.2 ⟨l, hl, hin⟩, hq⟩
          · rintro ⟨seg, hseg, hq⟩
            obtain ⟨l, hl, hin⟩ := mem_linkedSegments.1 hseg
            by_cases hll : l = level
            · subst hll
              exact ⟨merged, (mem_linkMerged (by omega)).2 (Or.inl rfl), hmem.2 ⟨seg, hin, hq⟩⟩
            · exact ⟨seg, (mem_linkMerged (by omega)).2 (Or.inr ⟨l, hl, hll, hin⟩), hq⟩

theorem SegDoc.reencoded_eq (d : SegDoc) : d.reencoded = d := by
  rw [SegDoc.reencoded, encodeFieldnorm_decodeFieldnorm]

/-- **Compaction adds no document**: a row of a linked document map was in one
before. -/
theorem mem_docs_compact {segmentsPerLevel : Nat} {fuel level : Nat} {levels : Levels Term}
    {seg : SegmentContents Term} {d : SegDoc}
    (hseg : seg ∈ linkedSegments (tpMaybeCompactLevel segmentsPerLevel fuel levels level))
    (hd : d ∈ seg.docs) : ∃ seg' ∈ linkedSegments levels, d ∈ seg'.docs := by
  induction fuel generalizing levels level with
  | zero => exact ⟨seg, hseg, hd⟩
  | succ fuel ih =>
      unfold tpMaybeCompactLevel at hseg
      split at hseg
      · exact ⟨seg, hseg, hd⟩
      split at hseg
      · exact ⟨seg, hseg, hd⟩
      cases hm : mergeSegments (levels level) with
      | none =>
          simp only [hm] at hseg
          exact ⟨seg, hseg, hd⟩
      | some merged =>
          simp only [hm] at hseg
          obtain ⟨seg', hseg', hd'⟩ := ih hseg
          rcases (mem_linkMerged (by omega)).1 hseg' with rfl | ⟨l, hl, -, hin⟩
          · simp only [mergeSegments] at hm
            split at hm
            · cases hm
            cases hm
            obtain ⟨src, hsrc, d', hd'', rfl⟩ := mem_mergedDocs hd'
            rw [SegDoc.reencoded_eq]
            exact ⟨src, mem_linkedSegments.2 ⟨level, by omega, (List.mem_filter.1 hsrc).1⟩, hd''⟩
          · exact ⟨seg', mem_linkedSegments.2 ⟨l, hl, hin⟩, hd'⟩

/-! ## Counting over the levels -/

/-- How many postings of the term for the CTID the linked segments hold. -/
def linkedCount (levels : Levels Term) (term : Term) (ctid : ItemPointer) : Nat :=
  ∑ level ∈ Finset.range tpMaxLevels,
    ((levels level).map fun seg => (seg.postings term).countP fun q => q.ctid = ctid).sum

theorem linkedCount_eq_zero {levels : Levels Term} {term : Term} {ctid : ItemPointer}
    (h : ∀ q, LinkedPosting levels term q → q.ctid ≠ ctid) : linkedCount levels term ctid = 0 := by
  apply Finset.sum_eq_zero
  intro level hlevel
  apply List.sum_eq_zero
  intro n hn
  obtain ⟨seg, hseg, rfl⟩ := List.mem_map.1 hn
  rw [List.countP_eq_zero]
  intro q hq hctid
  have hin : seg ∈ linkedSegments levels :=
    mem_linkedSegments.2 ⟨level, Finset.mem_range.1 hlevel, hseg⟩
  exact h q ⟨seg, hin, hq⟩ (of_decide_eq_true hctid)

theorem linkedCount_update (levels : Levels Term) {level : Nat} (hlevel : level < tpMaxLevels)
    (chain : List (SegmentContents Term)) (term : Term) (ctid : ItemPointer) :
    linkedCount (Function.update levels level chain) term ctid +
        ((levels level).map fun seg => (seg.postings term).countP fun q => q.ctid = ctid).sum =
      linkedCount levels term ctid +
        (chain.map fun seg => (seg.postings term).countP fun q => q.ctid = ctid).sum := by
  have hmem : level ∈ Finset.range tpMaxLevels := Finset.mem_range.2 hlevel
  have hrest : ∀ l ∈ (Finset.range tpMaxLevels).erase level,
      ((Function.update levels level chain l).map
        fun seg => (seg.postings term).countP fun q => q.ctid = ctid).sum =
      ((levels l).map fun seg => (seg.postings term).countP fun q => q.ctid = ctid).sum := by
    intro l hl
    rw [Function.update_of_ne (Finset.ne_of_mem_erase hl)]
  unfold linkedCount
  rw [← Finset.add_sum_erase _ _ hmem, ← Finset.add_sum_erase _ _ hmem,
    Finset.sum_congr rfl hrest, Function.update_self]
  omega

theorem linkedCount_linkSegment (levels : Levels Term) {level : Nat} (hlevel : level < tpMaxLevels)
    (seg : SegmentContents Term) (term : Term) (ctid : ItemPointer) :
    linkedCount (linkSegment levels level seg) term ctid =
      linkedCount levels term ctid + (seg.postings term).countP fun q => q.ctid = ctid := by
  have := linkedCount_update levels hlevel (seg :: levels level) term ctid
  rw [List.map_cons, List.sum_cons] at this
  rw [linkSegment]
  omega

private theorem countP_merged (sources : List (SegmentContents Term)) (docs : List SegDoc)
    (term : Term) (p : SegPosting → Bool) :
    ((⟨mergedTerms sources, docs⟩ : SegmentContents Term).postings term).countP p =
      (sources.map fun seg => (seg.postings term).countP p).sum := by
  rw [postings_merge, List.countP_flatMap]
  rfl

private theorem sum_filter_terms (chain : List (SegmentContents Term)) (term : Term)
    (p : SegPosting → Bool) :
    ((chain.filter fun seg => !seg.terms.isEmpty).map
      fun seg => (seg.postings term).countP p).sum =
      (chain.map fun seg => (seg.postings term).countP p).sum := by
  induction chain with
  | nil => rfl
  | cons seg rest ih =>
      rw [List.filter_cons]
      cases hterms : seg.terms with
      | nil =>
          have hnone : seg.postings term = [] := by simp [SegmentContents.postings, hterms]
          simp [ih, hnone]
      | cons e more => simp [ih]

/-- **Compaction keeps the number of postings.** -/
theorem linkedCount_compact {segmentsPerLevel : Nat} {fuel level : Nat} {levels : Levels Term}
    {term : Term} {ctid : ItemPointer} :
    linkedCount (tpMaybeCompactLevel segmentsPerLevel fuel levels level) term ctid =
      linkedCount levels term ctid := by
  induction fuel generalizing levels level with
  | zero => rfl
  | succ fuel ih =>
      unfold tpMaybeCompactLevel
      split
      · rfl
      split
      · rfl
      cases hm : mergeSegments (levels level) with
      | none => rfl
      | some merged =>
          simp only [ih]
          have hcount : (merged.postings term).countP (fun q => q.ctid = ctid) =
              ((levels level).map
                fun seg => (seg.postings term).countP fun q => q.ctid = ctid).sum := by
            simp only [mergeSegments] at hm
            split at hm
            · cases hm
            cases hm
            rw [countP_merged, sum_filter_terms]
          have hempty := linkedCount_update levels (show level < tpMaxLevels by omega) [] term ctid
          rw [linkMerged, linkedCount_linkSegment _ (by omega), hcount]
          simpa using hempty

end PgTextsearch.Segment
