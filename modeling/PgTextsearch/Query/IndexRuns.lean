import PgTextsearch.Query.Corpus
import PgTextsearch.Verified.Runs

/-!
# Runs of an index (`am/build.c`, `segment/segment.c`, `segment/merge.c`, `query/score.c`)

An index from its creation on: documents are inserted into the memtable, the memtable is written
to a segment when it has enough postings or when a spill is asked for, and full levels are
compacted.  Next to it the corpus it is to represent, to which a document is added and in which a
spill only marks the documents as spilled.

## Main results

* `represents_addDocument`, `represents_linkSpilled`, `represents_compacted` — what one step
  keeps.
* `indexOf_of_run` — every run leaves the index of its corpus.
* `search_of_run` — no step of a run fails, and a query after any run is the query of the corpus.
-/

namespace PgTextsearch.Query

open PgTextsearch.Postgres PgTextsearch.Segment PgTextsearch.Segment.Merge PgTextsearch.Verified
open scoped Strcmp

/-! ## The index -/

/-- The settings a call finds: `memtable_spill_threshold`, `segments_per_level`,
`compress_segments`, and whether the memtable has tenant statistics. -/
structure CallSettings where
  spillThreshold : Nat
  perLevel : Pages.SegmentsPerLevel
  compress : Bool
  hasTenantData : Bool

/-- The two calls that change an index. -/
inductive IndexCall where
  | insert (ctid : ItemPointer) (tv : TermVector CString) (tenantId : Nat)
  | spill

/-- What a spill can fail with. -/
inductive IndexError where
  | write (e : SegmentError)
  | merge (e : MergeError)

namespace StoredIndex

/-- An index on an empty table. -/
def init (options : RankOptions) : StoredIndex CString where
  memtable := Memtable.empty
  levels := fun _ => []
  totalDocs := 0
  totalLen := 0
  options := options

/-- `tp_add_document_terms`: the memtable and the corpus statistics. -/
def addDocument (ix : StoredIndex CString) (ctid : ItemPointer) (tv : TermVector CString)
    (tenantId : Nat) : StoredIndex CString :=
  { ix with
    memtable := tpAddDocumentTerms ix.memtable ctid tv tenantId
    totalDocs := ix.totalDocs + 1
    totalLen := ix.totalLen + tv.docLength }

/-- The memtable is cleared and the new segment becomes the head of level 0. -/
def linkSpilled (ix : StoredIndex CString) (s : Nat × StoredSegment CString) :
    StoredIndex CString :=
  { ix with
    memtable := tpClearMemtable ix.memtable
    levels := Function.update ix.levels 0 (s :: ix.levels 0) }

end StoredIndex

section Calls

variable (alloc : RootAllocator) (hs : HashSeq) (qs : Qsort)

/-- `tp_spill_memtable`: nothing is done if `tp_write_segment` has nothing to write. -/
def tpSpillMemtable (settings : CallSettings) (ix : StoredIndex CString) :
    Except IndexError (StoredIndex CString) :=
  match tpWriteSegmentSections hs qs settings.compress settings.hasTenantData ix.memtable with
  | .error e => .error (.write e)
  | .ok none => .ok ix
  | .ok (some out) =>
      let ix := ix.linkSpilled (alloc.root (ix.stored.map Prod.fst), out)
      (maybeCompactLevel alloc settings.perLevel hs qs settings.compress tpMaxLevels ix 0).mapError
        .merge

/-- `tp_auto_spill_if_needed`. -/
def tpAutoSpillIfNeeded (settings : CallSettings) (ix : StoredIndex CString) :
    Except IndexError (StoredIndex CString) :=
  if settings.spillThreshold = 0 then .ok ix
  else if ix.memtable.totalPostings < settings.spillThreshold then .ok ix
  else tpSpillMemtable alloc hs qs settings ix

/-- `tp_insert`: a document without terms or with an invalid CTID is not indexed. -/
def tpInsert (settings : CallSettings) (ctid : ItemPointer) (tv : TermVector CString)
    (tenantId : Nat) (ix : StoredIndex CString) : Except IndexError (StoredIndex CString) :=
  if tv.entries = [] ∨ ctid.isValid = false then .ok ix
  else tpAutoSpillIfNeeded alloc hs qs settings (ix.addDocument ctid tv tenantId)

/-- One call. -/
def indexCall (ix : StoredIndex CString) (call : IndexCall × CallSettings) :
    Except IndexError (StoredIndex CString) :=
  match call.1 with
  | .insert ctid tv tenantId => tpInsert alloc hs qs call.2 ctid tv tenantId ix
  | .spill => tpSpillMemtable alloc hs qs call.2 ix

/-- A call that raises an error ends the run. -/
def indexStep (ix : StoredIndex CString) (call : IndexCall × CallSettings) :
    Option (StoredIndex CString) :=
  (indexCall alloc hs qs ix call).toOption

end Calls

/-! ## The corpus -/

/-- The postings of the documents that have not been spilled. -/
def pendingPostings (docs : List CorpusDoc) : Nat :=
  ((unspilled docs).map fun d => d.tv.entries.length).sum

/-- A spill of the corpus. -/
def spillCorpus (docs : List CorpusDoc) : List CorpusDoc := docs.map CorpusDoc.spill

/-- What one call does to the corpus. -/
def corpusCall (docs : List CorpusDoc) (call : IndexCall × CallSettings) : List CorpusDoc :=
  match call.1 with
  | .insert ctid tv tenantId =>
      if tv.entries = [] ∨ ctid.isValid = false then docs
      else
        let docs := docs ++ [⟨ctid, tv, tenantId, false⟩]
        if call.2.spillThreshold = 0 then docs
        else if pendingPostings docs < call.2.spillThreshold then docs
        else spillCorpus docs
  | .spill => spillCorpus docs

/-- The corpus after a run. -/
def corpusAfter (hist : List (IndexCall × CallSettings)) : List CorpusDoc :=
  hist.foldl corpusCall []

theorem corpusAfter_snoc (hist : List (IndexCall × CallSettings))
    (call : IndexCall × CallSettings) :
    corpusAfter (hist ++ [call]) = corpusCall (corpusAfter hist) call := by
  rw [corpusAfter, List.foldl_append]
  rfl

theorem unspilled_spillCorpus (docs : List CorpusDoc) : unspilled (spillCorpus docs) = [] := by
  rw [unspilled, spillCorpus, List.filter_map, List.map_eq_nil_iff, List.filter_eq_nil_iff]
  simp [CorpusDoc.spill]

theorem inSegments_spillCorpus (docs : List CorpusDoc) :
    inSegments (spillCorpus docs) = spillCorpus docs := by
  refine List.filter_eq_self.2 fun d hd => ?_
  obtain ⟨d', -, rfl⟩ := List.mem_map.1 hd
  rfl

/-- Nothing of a spilled corpus but the flag is new. -/
theorem map_spillCorpus {β : Type} (docs : List CorpusDoc) {f : CorpusDoc → β}
    (hf : ∀ d, f d.spill = f d) : (spillCorpus docs).map f = docs.map f := by
  rw [spillCorpus, List.map_map]
  exact List.map_congr_left fun d _ => hf d

theorem corpusDocFreq_spillCorpus (docs : List CorpusDoc) (term : CString) :
    corpusDocFreq (spillCorpus docs) term = corpusDocFreq docs term := by
  rw [corpusDocFreq, spillCorpus, List.filter_map, List.length_map]
  rfl

theorem CorpusFits.spillCorpus {docs : List CorpusDoc} (h : CorpusFits docs) :
    CorpusFits (spillCorpus docs) where
  ctids_nodup := by
    rw [map_spillCorpus docs fun _ => rfl]
    exact h.ctids_nodup
  nonempty := by
    intro d hd
    obtain ⟨d', hd', rfl⟩ := List.mem_map.1 hd
    exact h.nonempty d' hd'
  ctid_lt := by
    intro d hd
    obtain ⟨d', hd', rfl⟩ := List.mem_map.1 hd
    exact h.ctid_lt d' hd'
  frequency_lt := by
    intro d hd
    obtain ⟨d', hd', rfl⟩ := List.mem_map.1 hd
    exact h.frequency_lt d' hd'
  documents_lt := by
    rw [Query.spillCorpus, List.length_map]
    exact h.documents_lt
  postings_le := by
    intro term
    rw [corpusDocFreq_spillCorpus]
    exact h.postings_le term
  terms_lt := by
    rw [map_spillCorpus docs fun _ => rfl]
    exact h.terms_lt

/-- The corpus before a spill fits if the corpus after it does. -/
theorem corpusFits_of_spillCorpus {docs : List CorpusDoc} (h : CorpusFits (spillCorpus docs)) :
    CorpusFits docs where
  ctids_nodup := map_spillCorpus docs (f := CorpusDoc.ctid) (fun _ => rfl) ▸ h.ctids_nodup
  nonempty := fun d hd => h.nonempty d.spill (List.mem_map_of_mem hd)
  ctid_lt := fun d hd => h.ctid_lt d.spill (List.mem_map_of_mem hd)
  frequency_lt := fun d hd => h.frequency_lt d.spill (List.mem_map_of_mem hd)
  documents_lt := by
    have hlt := h.documents_lt
    rwa [spillCorpus, List.length_map] at hlt
  postings_le := fun term => corpusDocFreq_spillCorpus docs term ▸ h.postings_le term
  terms_lt :=
    map_spillCorpus docs (f := fun d => d.tv.entries.length) (fun _ => rfl) ▸ h.terms_lt

/-! ## A document is added -/

theorem lookup_addTermEntries {ctid : ItemPointer} {tenantId : Nat} {mt : Memtable CString}
    {entries : List (CString × Nat)} {term : CString}
    (h : ((addTermEntries ctid tenantId mt entries).stringTable.lookup term).isSome) :
    (mt.stringTable.lookup term).isSome ∨ term ∈ entries.map Prod.fst := by
  induction entries generalizing mt with
  | nil => exact Or.inl h
  | cons e rest ih =>
      obtain ⟨t, f⟩ := e
      by_cases hterm : term = t
      · exact Or.inr (hterm ▸ List.mem_cons_self)
      · cases ih h with
        | inl hbefore =>
            rw [tpAddDocumentToPostingList, AList.lookup_insert_ne hterm] at hbefore
            exact Or.inl hbefore
        | inr hrest => exact Or.inr (List.mem_cons_of_mem _ hrest)

/-- The terms of the string table are those of the documents. -/
theorem lookup_addDocumentTerms {ctid : ItemPointer} {tenantId : Nat} {mt : Memtable CString}
    {tv : TermVector CString} {term : CString}
    (h : ((tpAddDocumentTerms mt ctid tv tenantId).stringTable.lookup term).isSome) :
    (mt.stringTable.lookup term).isSome ∨ term ∈ tv.entries.map Prod.fst := by
  unfold tpAddDocumentTerms at h
  split at h
  · exact lookup_addTermEntries h
  · exact lookup_addTermEntries h

section AddDocument

variable {ix : StoredIndex CString} {docs : List CorpusDoc} {ctid : ItemPointer}
  {tv : TermVector CString} {tenantId : Nat}

theorem unspilled_append (docs : List CorpusDoc) :
    unspilled (docs ++ [⟨ctid, tv, tenantId, false⟩]) =
      unspilled docs ++ [⟨ctid, tv, tenantId, false⟩] := by
  rw [unspilled, List.filter_append]
  rfl

theorem inSegments_append (docs : List CorpusDoc) :
    inSegments (docs ++ [⟨ctid, tv, tenantId, false⟩]) = inSegments docs := by
  rw [inSegments, List.filter_append]
  exact List.append_nil _

/-- **Adding a document** to an index that represents a corpus. -/
theorem represents_addDocument (h : Represents ix docs)
    (hfits : CorpusFits (docs ++ [⟨ctid, tv, tenantId, false⟩])) :
    Represents (ix.addDocument ctid tv tenantId) (docs ++ [⟨ctid, tv, tenantId, false⟩]) where
  postings := by
    intro term
    rw [unspilled_append, List.flatMap_append, ← h.postings]
    simp only [List.flatMap_cons, List.flatMap_nil, List.append_nil]
    exact postings_addDocumentTerms ix.memtable ctid tv tenantId term
  terms := by
    intro term hterm
    rw [unspilled_append]
    cases lookup_addDocumentTerms hterm with
    | inl hbefore =>
        obtain ⟨d, hd, hin⟩ := h.terms term hbefore
        exact ⟨d, List.mem_append_left _ hd, hin⟩
    | inr hnew => exact ⟨_, List.mem_append_right _ (List.mem_singleton_self _), hnew⟩
  lengths := by
    intro c e
    have hfresh : ∀ d ∈ unspilled docs, d.ctid ≠ ctid := by
      intro d hd heq
      have hnodup := hfits.ctids_nodup
      rw [List.map_append, List.map_singleton] at hnodup
      exact (List.nodup_append.1 hnodup).2.2 _
        (List.mem_map_of_mem (mem_unspilled.1 hd).1) _ (List.mem_singleton_self _) heq
    show (tpAddDocumentTerms ix.memtable ctid tv tenantId).docLengths.lookup c = some e ↔ _
    rw [docLengths_addDocumentTerms, unspilled_append]
    simp only [List.mem_append, List.mem_singleton]
    by_cases hc : c = ctid
    · rw [hc, AList.lookup_insert]
      constructor
      · intro he
        exact ⟨_, Or.inr rfl, rfl, (Option.some.inj he).symm⟩
      · rintro ⟨d, hd | rfl, hctid, rfl⟩
        · exact absurd hctid (hfresh d hd)
        · rfl
    · rw [AList.lookup_insert_ne hc, h.lengths]
      constructor
      · rintro ⟨d, hd, hctid, he⟩
        exact ⟨d, Or.inl hd, hctid, he⟩
      · rintro ⟨d, hd | rfl, hctid, he⟩
        · exact ⟨d, hd, hctid, he⟩
        · exact absurd hctid.symm hc
  rows := by
    rw [inSegments_append]
    exact h.rows
  ctids := by
    rw [inSegments_append]
    exact h.ctids
  totalDocs := by
    rw [List.length_append]
    exact congrArg (· + 1) h.totalDocs
  totalLen := by
    rw [corpusLength, List.map_append, List.sum_append, List.map_singleton, List.sum_singleton]
    exact congrArg (· + tv.docLength) h.totalLen
  stored := h.stored
  disjoint := h.disjoint
  usable := h.usable
  roots_nodup := h.roots_nodup
  roots_valid := h.roots_valid
  numDocs_le := by
    rw [inSegments_append]
    exact h.numDocs_le
  terms_le := by
    rw [inSegments_append]
    exact h.terms_le

end AddDocument

/-! ## Levels are compacted -/

/-- **A compaction** represents the same corpus. -/
theorem represents_compacted {ix ix' : StoredIndex CString} {docs : List CorpusDoc}
    (h : Represents ix docs) (hcompacted : Compacted ix ix') : Represents ix' docs := by
  have hmemtable : ix.memtable = ix'.memtable := hcompacted.sameRows.memtable
  have hview := hcompacted.wellFormed.view
  have hmergeable := hcompacted.wellFormed.mergeable
  have hroots : ix'.view.segments.map (·.rootBlock) = ix'.stored.map Prod.fst := by
    rw [ix'.segments_view, List.map_map]
    rfl
  exact
    { postings := hmemtable ▸ h.postings
      terms := hmemtable ▸ h.terms
      lengths := hmemtable ▸ h.lengths
      rows := fun term => (hcompacted.sameRows.rows term).symm.trans (h.rows term)
      ctids := by
        intro s hs ctid hctid
        obtain ⟨s', hs', hctid'⟩ := hcompacted.ctids s hs ctid hctid
        exact h.ctids s' hs' ctid hctid'
      totalDocs := hcompacted.sameRows.totalDocs.symm.trans h.totalDocs
      totalLen := hcompacted.sameRows.totalLen.symm.trans h.totalLen
      stored := fun s hs => hmergeable.wellFormed s.2 (List.mem_map_of_mem hs)
      disjoint := by
        have hdisjoint := hmergeable.disjoint
        rw [List.pairwise_map] at hdisjoint
        exact hdisjoint
      usable := fun s hs term d hfind => hcompacted.wellFormed.usable hs hfind
      roots_nodup := hroots ▸ hview.roots_nodup
      roots_valid := by
        intro root hroot
        rw [← hroots] at hroot
        obtain ⟨r, hr, rfl⟩ := List.mem_map.1 hroot
        exact hview.roots_valid r hr
      numDocs_le := hcompacted.numDocs_le.trans h.numDocs_le
      terms_le := hcompacted.terms_le.trans h.terms_le }

/-! ## The memtable is spilled -/

/-- The offsets of the segment a memtable is written to fit in 32 bits. -/
def SegmentAddressable (hs : HashSeq) (qs : Qsort) (hasTenantData : Bool)
    (mt : Memtable CString) : Prop :=
  ∀ compress f, File.fileParts hs qs compress hasTenantData mt = .ok (some f) →
    f.numPages * File.segmentDataPerPage ≤ 2 ^ 32

namespace Represents

variable {ix : StoredIndex CString} {docs : List CorpusDoc} (h : Represents ix docs)
include h

theorem exactLength_eq {d : CorpusDoc} (hd : d ∈ unspilled docs) :
    exactLength ix.memtable d.ctid = d.tv.docLength := by
  rw [exactLength, (h.lengths d.ctid _).2 ⟨d, hd, rfl, rfl⟩]
  rfl

theorem exists_doc_of_length {e : Sigma fun _ : ItemPointer => DocLengthEntry}
    (he : e ∈ ix.memtable.docLengths.entries) : ∃ d ∈ unspilled docs, d.ctid = e.1 := by
  obtain ⟨d, hd, hctid, -⟩ := (h.lengths e.1 e.2).1 (AList.mem_lookup_iff.2 he)
  exact ⟨d, hd, hctid⟩

/-- The memtable has no more document lengths than documents. -/
theorem docLengths_le : ix.memtable.docLengths.entries.length ≤ (unspilled docs).length := by
  have hsub : (ix.memtable.docLengths.entries.map fun e => e.1) ⊆
      (unspilled docs).map CorpusDoc.ctid := by
    intro ctid hctid
    obtain ⟨e, he, rfl⟩ := List.mem_map.1 hctid
    obtain ⟨d, hd, heq⟩ := h.exists_doc_of_length he
    exact heq ▸ List.mem_map_of_mem hd
  have hnodup : (ix.memtable.docLengths.entries.map fun e => e.1).Nodup :=
    ix.memtable.docLengths.nodupKeys
  simpa using (hnodup.subperm hsub).length_le

/-- The memtable has no more terms than its documents together. -/
theorem stringTable_le : ix.memtable.stringTable.entries.length ≤
    ((unspilled docs).map fun d => d.tv.entries.length).sum := by
  have hsub : (ix.memtable.stringTable.entries.map fun e => e.1) ⊆
      (unspilled docs).flatMap fun d => d.tv.entries.map Prod.fst := by
    intro term hterm
    obtain ⟨e, he, rfl⟩ := List.mem_map.1 hterm
    have hlookup : ix.memtable.stringTable.lookup e.1 = some e.2 := AList.mem_lookup_iff.2 he
    obtain ⟨d, hd, hin⟩ := h.terms e.1 (by rw [hlookup]; rfl)
    exact List.mem_flatMap.2 ⟨d, hd, hin⟩
  have hnodup : (ix.memtable.stringTable.entries.map fun e => e.1).Nodup :=
    ix.memtable.stringTable.nodupKeys
  simpa [List.length_flatMap] using (hnodup.subperm hsub).length_le

/-- The string table is empty only if there is nothing to spill. -/
theorem unspilled_eq_nil (hfits : CorpusFits docs)
    (hempty : ix.memtable.stringTable.entries = []) : unspilled docs = [] := by
  by_contra hne
  obtain ⟨d, hd⟩ := List.exists_mem_of_ne_nil _ hne
  obtain ⟨e, he⟩ := List.exists_mem_of_ne_nil _ (hfits.nonempty d (mem_unspilled.1 hd).1)
  have hposting : (⟨d.ctid, e.2, d.tenantId⟩ : MemPosting) ∈ ix.memtable.postings e.1 := by
    rw [h.postings]
    exact List.mem_flatMap.2 ⟨d, hd, mem_documentPostings.2 ⟨e.2, he, rfl⟩⟩
  have hnone : ix.memtable.stringTable.lookup e.1 = none := by
    rw [AList.lookup_eq_none, AList.mem_keys, AList.keys, hempty]
    exact List.not_mem_nil
  rw [Memtable.postings, hnone] at hposting
  exact absurd hposting List.not_mem_nil

/-- The memtable is within the widths of the fields of a segment. -/
theorem withinWidths (hfits : CorpusFits docs) {hs : HashSeq} {qs : Qsort} {hasTenantData : Bool}
    (hfile : SegmentAddressable hs qs hasTenantData ix.memtable) :
    File.WithinWidths hs qs hasTenantData ix.memtable where
  covered := by
    intro term p hp
    obtain ⟨d, hd, -, rfl⟩ := h.exists_doc_of_posting hp
    rw [(h.lengths d.ctid _).2 ⟨d, hd, rfl, rfl⟩]
    rfl
  documents :=
    (h.docLengths_le.trans (List.length_filter_le _ docs)).trans_lt hfits.documents_lt
  ctids := by
    intro e he
    obtain ⟨d, hd, heq⟩ := h.exists_doc_of_length he
    exact heq ▸ hfits.ctid_lt d (mem_unspilled.1 hd).1
  frequencies := by
    intro term p hp
    rw [h.postings] at hp
    obtain ⟨d, hd, hin⟩ := List.mem_flatMap.1 hp
    obtain ⟨f, hf, rfl⟩ := mem_documentPostings.1 hin
    exact hfits.frequency_lt d (mem_unspilled.1 hd).1 _ hf
  blocks := by
    intro term
    refine le_trans ?_ (hfits.postings_le term)
    rw [← h.docFreq_eq term]
    exact Nat.le_add_right _ _
  file := hfile

variable {out : StoredSegment CString} (hspilled : Spilled ix.memtable out)
include hspilled

/-- **The rows of a spilled segment** are those of the documents of the memtable. -/
theorem spilledRows_perm (root : Nat) (term : CString) :
    (termRows (openStored (root, out)) term).Perm ((unspilled docs).flatMap (docRows term)) := by
  have hdocs : (unspilled docs).flatMap (docRows term) = (ix.memtable.postings term).map fun p =>
      ⟨p.ctid, p.frequency, encodeFieldnorm (exactLength ix.memtable p.ctid)⟩ := by
    rw [h.postings, List.map_flatMap]
    refine List.flatMap_congr fun d hd => List.map_congr_left fun p hp => ?_
    obtain ⟨f, -, rfl⟩ := mem_documentPostings.1 hp
    rw [h.exactLength_eq hd]
  rw [hdocs]
  cases hlookup : ix.memtable.stringTable.lookup term with
  | none =>
      have hfind : (openStored (root, out)).findTerm term = none := by
        cases hfind : (openStored (root, out)).findTerm term with
        | none => rfl
        | some d =>
            obtain ⟨e, hmem, -⟩ := (findTerm_openStored (s := (root, out)) hspilled.wellFormed).1
              hfind
            have hsome := hspilled.term_mem term e hmem
            rw [hlookup] at hsome
            cases hsome
      rw [termRows, hfind, Memtable.postings, hlookup]
      exact List.Perm.refl _
  | some l =>
      obtain ⟨e, d, ps, hmem, hd, hperm, hall, -⟩ := hspilled.entry term (by rw [hlookup]; rfl)
      have hfind := (findTerm_openStored (s := (root, out)) hspilled.wellFormed).2 ⟨e, hmem, hd⟩
      rw [termRows, hfind]
      refine (hperm.map _).trans (List.Perm.of_eq ?_)
      have hrows := hall.imp fun p q hpq =>
        show (⟨p.ctid, p.frequency, encodeFieldnorm (exactLength ix.memtable p.ctid)⟩ :
          PostingRow) = ⟨tpSegmentLookupCtid (openStored (root, out)) q.docId, q.frequency,
            q.fieldnorm⟩ by
          rw [hpq.2.1, hpq.2.2, tpSegmentLookupCtid, List.getD_eq_getElem?_getD]
          show _ = (⟨(out.ctids[q.docId]?).getD _, _, _⟩ : PostingRow)
          rw [hpq.1]
          rfl
      rw [← List.forall₂_map_right_iff, ← List.forall₂_map_left_iff, List.forall₂_eq_eq_eq]
        at hrows
      exact hrows.symm

/-- The entries of a spilled segment can be searched. -/
theorem spilled_usable {root : Nat} {term : CString} {d : DictEntry}
    (hfind : (openStored (root, out)).findTerm term = some d) :
    EntryUsable (openStored (root, out)) d := by
  have hfound : ∀ d, (openStored (root, out)).findTerm term = some d ↔
      ∃ e, (term, e) ∈ out.dictionary ∧ out.ValidEntry e d := fun d =>
    findTerm_openStored (s := (root, out)) hspilled.wellFormed
  obtain ⟨e, hmem, hd⟩ := (hfound d).1 hfind
  obtain ⟨e', d', ps, hmem', hd', -, -, hstats⟩ :=
    hspilled.entry term (hspilled.term_mem term e hmem)
  have hsame := hfind.symm.trans ((hfound d').2 ⟨e', hmem', hd'⟩)
  cases hsame
  refine usable_of_validEntry (s := (root, out)) hspilled.wellFormed hd ?_ hstats
  intro p hp
  have hrow : (⟨tpSegmentLookupCtid (openStored (root, out)) p.docId, p.frequency,
      p.fieldnorm⟩ : PostingRow) ∈ termRows (openStored (root, out)) term := by
    rw [termRows, hfind]
    exact List.mem_map.2 ⟨p, hp, rfl⟩
  obtain ⟨doc, -, hin⟩ := List.mem_flatMap.1 ((h.spilledRows_perm hspilled root term).subset hrow)
  rw [docRows_eq] at hin
  split at hin
  · rename_i hpos
    have hfreq : p.frequency = findTermFrequency doc.tv term :=
      congrArg PostingRow.frequency (List.mem_singleton.1 hin)
    exact hfreq ▸ hpos
  · exact absurd hin List.not_mem_nil

/-- The documents of a spilled segment are those of the memtable. -/
theorem exists_doc_of_spilled {ctid : ItemPointer} (hctid : ctid ∈ out.ctids) :
    ∃ d ∈ unspilled docs, d.ctid = ctid := by
  obtain ⟨e, he, rfl⟩ := List.mem_map.1 (hspilled.ctids_perm.subset hctid)
  exact h.exists_doc_of_length he

end Represents

section Link

variable {ix : StoredIndex CString} {docs : List CorpusDoc} {out : StoredSegment CString}
  {root : Nat}

theorem stored_linkSpilled_perm (ix : StoredIndex CString) (s : Nat × StoredSegment CString) :
    (ix.linkSpilled s).stored.Perm (s :: ix.stored) := by
  have hperm := StoredIndex.flatMap_update_perm ix.levels (s :: ix.levels 0) List.nodup_range
    (List.mem_range.2 (show 0 < tpMaxLevels by decide))
  rw [List.cons_append] at hperm
  refine (List.perm_append_right_iff (ix.levels 0)).1 (hperm.trans ?_)
  exact List.perm_append_comm.cons s

/-- The number of documents or of terms, before and after the segment is linked. -/
theorem sum_linkSpilled (ix : StoredIndex CString) (s : Nat × StoredSegment CString)
    (f : StoredSegment CString → Nat) :
    (((ix.linkSpilled s).stored.map Prod.snd).map f).sum =
      f s.2 + ((ix.stored.map Prod.snd).map f).sum := by
  rw [(((stored_linkSpilled_perm ix s).map Prod.snd).map f).sum_eq]
  rfl

/-- **Linking the spilled segment** to an index that represents a corpus: its documents are now
in segments. -/
theorem represents_linkSpilled (h : Represents ix docs) (hfits : CorpusFits docs)
    (hspilled : Spilled ix.memtable out) (hfresh : root ∉ ix.stored.map Prod.fst)
    (hvalid : root ≠ invalidBlockNumber) :
    Represents (ix.linkSpilled (root, out)) (spillCorpus docs) := by
  have hstored := stored_linkSpilled_perm ix (root, out)
  have hcases : ∀ s ∈ (ix.linkSpilled (root, out)).stored, s = (root, out) ∨ s ∈ ix.stored :=
    fun s hs => List.mem_cons.1 (hstored.subset hs)
  have hempty : unspilled (spillCorpus docs) = [] := unspilled_spillCorpus docs
  have hlen := (unspilled_append_inSegments docs).length_eq
  rw [List.length_append] at hlen
  refine
    { postings := ?_, terms := ?_, lengths := ?_, rows := ?_, ctids := ?_, totalDocs := ?_,
      totalLen := ?_, stored := ?_, disjoint := ?_, usable := ?_, roots_nodup := ?_,
      roots_valid := ?_, numDocs_le := ?_, terms_le := ?_ }
  · intro term
    rw [hempty]
    exact postings_clear ix.memtable term
  · intro term hterm
    exact absurd hterm (by simp [StoredIndex.linkSpilled, tpClearMemtable])
  · intro ctid e
    rw [hempty]
    simp [StoredIndex.linkSpilled, tpClearMemtable]
  · intro term
    rw [segmentRows_stored, inSegments_spillCorpus]
    refine (hstored.flatMap_right _).trans ?_
    rw [List.flatMap_cons, spillCorpus, List.flatMap_map]
    refine ((h.spilledRows_perm hspilled root term).append_right _).trans ?_
    refine (List.Perm.append_left _ ?_).trans
      ((List.Perm.of_eq List.flatMap_append.symm).trans
        ((unspilled_append_inSegments docs).flatMap_right _))
    have hrows := h.rows term
    rwa [segmentRows_stored] at hrows
  · intro s hs ctid hctid
    rw [inSegments_spillCorpus]
    rcases hcases s hs with rfl | hs
    · obtain ⟨d, hd, rfl⟩ := h.exists_doc_of_spilled hspilled hctid
      exact ⟨d.spill, List.mem_map_of_mem (mem_unspilled.1 hd).1, rfl⟩
    · obtain ⟨d, hd, rfl⟩ := h.ctids s hs ctid hctid
      exact ⟨d.spill, List.mem_map_of_mem (mem_inSegments.1 hd).1, rfl⟩
  · rw [spillCorpus, List.length_map]
    exact h.totalDocs
  · rw [corpusLength, map_spillCorpus docs fun _ => rfl]
    exact h.totalLen
  · intro s hs
    rcases hcases s hs with rfl | hs
    · exact hspilled.wellFormed
    · exact h.stored s hs
  · refine (hstored.pairwise_iff fun hdisjoint => hdisjoint.symm).2 ?_
    refine List.pairwise_cons.2 ⟨?_, h.disjoint⟩
    intro s hs ctid hctid hin
    -- a document of the memtable is in no segment
    obtain ⟨d, hd, heq⟩ := h.exists_doc_of_spilled hspilled hctid
    obtain ⟨d', hd', heq'⟩ := h.ctids s hs ctid hin
    obtain ⟨hmem, hno⟩ := mem_unspilled.1 hd
    obtain ⟨hmem', hyes⟩ := mem_inSegments.1 hd'
    rw [Represents.doc_unique hfits hmem hmem' (heq.trans heq'.symm), hyes] at hno
    cases hno
  · intro s hs term d hfind
    rcases hcases s hs with rfl | hs
    · exact h.spilled_usable hspilled hfind
    · exact h.usable s hs term d hfind
  · rw [(hstored.map Prod.fst).nodup_iff]
    exact List.nodup_cons.2 ⟨hfresh, h.roots_nodup⟩
  · intro root' hroot
    cases List.mem_cons.1 ((hstored.map Prod.fst).subset hroot) with
    | inl hnew => exact hnew ▸ hvalid
    | inr hold => exact h.roots_valid root' hold
  · have hnew : out.numDocs ≤ (unspilled docs).length := by
      rw [← hspilled.wellFormed.ctids_length, hspilled.ctids_perm.length_eq, List.length_map]
      exact h.docLengths_le
    have hold := h.numDocs_le
    rw [sum_linkSpilled, inSegments_spillCorpus, spillCorpus, List.length_map, ← hlen]
    exact Nat.add_le_add hnew hold
  · have hsum := ((unspilled_append_inSegments docs).map fun d => d.tv.entries.length).sum_eq
    rw [List.map_append, List.sum_append] at hsum
    rw [sum_linkSpilled, inSegments_spillCorpus, map_spillCorpus docs fun _ => rfl, ← hsum]
    exact Nat.add_le_add (hspilled.terms_eq.trans_le h.stringTable_le) h.terms_le

end Link

/-! ## Runs -/

/-- The index of a corpus, with the number of postings the threshold is compared with. -/
structure IndexOf (options : RankOptions) (ix : StoredIndex CString) (docs : List CorpusDoc) :
    Prop where
  represents : Represents ix docs
  fits : CorpusFits docs
  pending : ix.memtable.totalPostings = pendingPostings docs
  options_eq : ix.options = options

/-- The memtable a call may write to a segment. -/
def callMemtable (ix : StoredIndex CString) : IndexCall → Memtable CString
  | .insert ctid tv tenantId => tpAddDocumentTerms ix.memtable ctid tv tenantId
  | .spill => ix.memtable

/-- What a run asks of its calls: the corpus still fits an index, and a segment written from the
memtable would be addressable. -/
def CallFits (hs : HashSeq) (qs : Qsort) (hist : List (IndexCall × CallSettings))
    (ix : StoredIndex CString) (call : IndexCall × CallSettings) : Prop :=
  CorpusFits (corpusAfter (hist ++ [call])) ∧
    SegmentAddressable hs qs call.2.hasTenantData (callMemtable ix call.1)

section Runs

variable (alloc : RootAllocator) (hs : HashSeq) (qs : Qsort) {options : RankOptions}
  {ix : StoredIndex CString} {docs : List CorpusDoc}

theorem corpusFits_nil : CorpusFits [] where
  ctids_nodup := List.nodup_nil
  nonempty := fun _ h => absurd h List.not_mem_nil
  ctid_lt := fun _ h => absurd h List.not_mem_nil
  frequency_lt := fun _ h => absurd h List.not_mem_nil
  documents_lt := by decide
  postings_le := fun _ => Nat.zero_le _
  terms_lt := by decide

theorem stored_init (options : RankOptions) : (StoredIndex.init options).stored = [] := by
  rw [StoredIndex.stored, List.flatMap_eq_nil_iff]
  exact fun _ _ => rfl

/-- A new index is that of the empty corpus. -/
theorem indexOf_init (options : RankOptions) : IndexOf options (StoredIndex.init options) [] where
  represents :=
    { postings := fun _ => postings_empty _
      terms := fun term h => absurd h (by simp [StoredIndex.init, Memtable.empty])
      lengths := fun ctid e => by simp [StoredIndex.init, Memtable.empty, unspilled]
      rows := fun term => by
        rw [segmentRows_stored, stored_init]
        exact List.Perm.refl _
      ctids := fun s hs => absurd hs (by rw [stored_init]; exact List.not_mem_nil)
      totalDocs := rfl
      totalLen := rfl
      stored := fun s hs => absurd hs (by rw [stored_init]; exact List.not_mem_nil)
      disjoint := by
        rw [stored_init]
        exact List.Pairwise.nil
      usable := fun s hs => absurd hs (by rw [stored_init]; exact List.not_mem_nil)
      roots_nodup := by
        rw [stored_init]
        exact List.nodup_nil
      roots_valid := fun root hroot => absurd hroot (by rw [stored_init]; exact List.not_mem_nil)
      numDocs_le := by
        rw [stored_init]
        exact Nat.zero_le _
      terms_le := by
        rw [stored_init]
        exact Nat.zero_le _ }
  fits := corpusFits_nil
  pending := rfl
  options_eq := rfl

/-- **A spill** succeeds, and leaves the index of the spilled corpus. -/
theorem tpSpillMemtable_indexOf (settings : CallSettings) (h : IndexOf options ix docs)
    (hfile : SegmentAddressable hs qs settings.hasTenantData ix.memtable) :
    ∃ ix', tpSpillMemtable alloc hs qs settings ix = .ok ix' ∧
      IndexOf options ix' (spillCorpus docs) := by
  have hrep := h.represents
  have hwidths := hrep.withinWidths h.fits hfile
  by_cases hterms : ix.memtable.stringTable.entries = []
  · -- there is nothing to write, and nothing to mark
    have hnone := hrep.unspilled_eq_nil h.fits hterms
    have hall : spillCorpus docs = docs := by
      conv_rhs => rw [← List.map_id docs]
      refine List.map_congr_left fun d hd => ?_
      have hyes : d.spilled = true := by
        by_contra hno
        have hin : d ∈ unspilled docs := mem_unspilled.2 ⟨hd, by simpa using hno⟩
        rw [hnone] at hin
        exact absurd hin List.not_mem_nil
      rw [CorpusDoc.spill, ← hyes]
      rfl
    refine ⟨ix, ?_, hall.symm ▸ h⟩
    rw [tpSpillMemtable, tpWriteSegmentSections_empty hwidths hterms]
  · obtain ⟨out, hwrite, hspilled⟩ := spilled_of_write hwidths hterms
      ((hrep.stringTable_le.trans ((List.filter_sublist.map _).sum_le_sum fun _ _ =>
        Nat.zero_le _)).trans_lt h.fits.terms_lt)
      (hrep.view_wellFormed h.fits).postings_nodup settings.compress
    have hlinked := represents_linkSpilled hrep h.fits hspilled
      (alloc.fresh (ix.stored.map Prod.fst)) (alloc.valid _)
    obtain ⟨ix', hrun, hcompacted⟩ := maybeCompactLevel_compacted alloc settings.perLevel hs qs
      settings.compress (hlinked.wellFormed h.fits.spillCorpus) tpMaxLevels 0
    refine ⟨ix', ?_, ?_⟩
    · simp only [tpSpillMemtable, hwrite, hrun]
      rfl
    · have hmemtable : tpClearMemtable ix.memtable = ix'.memtable := hcompacted.sameRows.memtable
      have hoptions : ix.options = ix'.options := hcompacted.sameRows.options
      exact
        { represents := represents_compacted hlinked hcompacted
          fits := h.fits.spillCorpus
          pending := by
            rw [← hmemtable, pendingPostings, unspilled_spillCorpus]
            rfl
          options_eq := hoptions ▸ h.options_eq }

/-- The corpus fits with a document that an insertion added. -/
theorem corpusFits_of_insert {settings : CallSettings} {ctid : ItemPointer}
    {tv : TermVector CString} {tenantId : Nat} (hskip : ¬ (tv.entries = [] ∨ ctid.isValid = false))
    (hfits : CorpusFits (corpusCall docs (.insert ctid tv tenantId, settings))) :
    CorpusFits (docs ++ [⟨ctid, tv, tenantId, false⟩]) := by
  unfold corpusCall at hfits
  dsimp only at hfits
  rw [if_neg hskip] at hfits
  split at hfits
  · exact hfits
  split at hfits
  · exact hfits
  · exact corpusFits_of_spillCorpus hfits

/-- **A document** added to the memtable. -/
theorem addDocument_indexOf {ctid : ItemPointer} {tv : TermVector CString} {tenantId : Nat}
    (h : IndexOf options ix docs) (hfits : CorpusFits (docs ++ [⟨ctid, tv, tenantId, false⟩])) :
    IndexOf options (ix.addDocument ctid tv tenantId) (docs ++ [⟨ctid, tv, tenantId, false⟩]) where
  represents := represents_addDocument h.represents hfits
  fits := hfits
  pending := by
    rw [pendingPostings, unspilled_append, List.map_append, List.sum_append]
    exact (totalPostings_addDocumentTerms ix.memtable ctid tv tenantId).trans
      (congrArg (· + tv.entries.length) h.pending)
  options_eq := h.options_eq

/-- **An insertion**, with the spill it may lead to. -/
theorem tpInsert_indexOf (settings : CallSettings) {ctid : ItemPointer} {tv : TermVector CString}
    {tenantId : Nat} (h : IndexOf options ix docs)
    (hfits : CorpusFits (corpusCall docs (.insert ctid tv tenantId, settings)))
    (hfile : SegmentAddressable hs qs settings.hasTenantData
      (tpAddDocumentTerms ix.memtable ctid tv tenantId)) :
    ∃ ix', tpInsert alloc hs qs settings ctid tv tenantId ix = .ok ix' ∧
      IndexOf options ix' (corpusCall docs (.insert ctid tv tenantId, settings)) := by
  unfold tpInsert corpusCall
  dsimp only
  by_cases hskip : tv.entries = [] ∨ ctid.isValid = false
  · rw [if_pos hskip, if_pos hskip]
    exact ⟨ix, rfl, h⟩
  rw [if_neg hskip, if_neg hskip]
  have hholds := addDocument_indexOf h (corpusFits_of_insert hskip hfits)
  unfold tpAutoSpillIfNeeded
  rw [← hholds.pending]
  split
  · exact ⟨_, rfl, hholds⟩
  split
  · exact ⟨_, rfl, hholds⟩
  · exact tpSpillMemtable_indexOf alloc hs qs settings hholds hfile

/-- **One call** of a run. -/
theorem indexCall_indexOf {hist : List (IndexCall × CallSettings)} {call : IndexCall × CallSettings}
    (h : IndexOf options ix (corpusAfter hist)) (hcall : CallFits hs qs hist ix call) :
    ∃ ix', indexStep alloc hs qs ix call = some ix' ∧
      IndexOf options ix' (corpusAfter (hist ++ [call])) := by
  obtain ⟨hfits, hfile⟩ := hcall
  obtain ⟨kind, settings⟩ := call
  rw [corpusAfter_snoc] at hfits ⊢
  suffices hrun : ∃ ix', indexCall alloc hs qs ix (kind, settings) = .ok ix' ∧
      IndexOf options ix' (corpusCall (corpusAfter hist) (kind, settings)) by
    obtain ⟨ix', hrun, hholds⟩ := hrun
    exact ⟨ix', by rw [indexStep, hrun]; rfl, hholds⟩
  cases kind with
  | insert ctid tv tenantId => exact tpInsert_indexOf alloc hs qs settings h hfits hfile
  | spill => exact tpSpillMemtable_indexOf alloc hs qs settings h hfile

/-- **Every run** leaves the index of its corpus. -/
theorem indexOf_of_run {hist : List (IndexCall × CallSettings)}
    (hrun : Reaches (indexStep alloc hs qs) (CallFits hs qs) (StoredIndex.init options) hist ix) :
    IndexOf options ix (corpusAfter hist) := by
  apply hrun.invariant
  · exact indexOf_init options
  intro hist ix call ix' hholds hfits hnext
  obtain ⟨ix'', hstep, hafter⟩ := indexCall_indexOf alloc hs qs hholds hfits
  rw [hnext] at hstep
  cases hstep
  exact hafter

end Runs

/-! ### Two documents that are spilled -/

theorem segmentAddressable_of_check {hs : HashSeq} {qs : Qsort} {hasTenantData : Bool}
    {mt : Memtable CString}
    (h : ∀ compress, ∀ f ∈ (File.fileParts hs qs compress hasTenantData mt).toOption.join,
      f.numPages * File.segmentDataPerPage ≤ 2 ^ 32) : SegmentAddressable hs qs hasTenantData mt := by
  intro compress f hf
  refine h compress f ?_
  rw [hf]
  rfl

def oneWord (term : CString) : TermVector CString where
  entries := [(term, 1)]
  nodup := List.nodup_singleton _
  positive := by simp

theorem two_segments_allowed : 2 ≤ 64 := by decide

def quietSettings : CallSettings := ⟨0, ⟨2, le_refl 2, two_segments_allowed⟩, true, false⟩

def catDogRun : List (IndexCall × CallSettings) :=
  [(.insert ⟨0, 1⟩ (oneWord catTerm) 0, quietSettings),
    (.insert ⟨0, 2⟩ (oneWord dogTerm) 0, quietSettings), (.spill, quietSettings)]

/-- A small corpus fits. -/
theorem corpusFits_of_check {docs : List CorpusDoc} (hctids : (docs.map CorpusDoc.ctid).Nodup)
    (hdocs : ∀ d ∈ docs, d.tv.entries ≠ [] ∧ (d.ctid.blkid < 2 ^ 32 ∧ d.ctid.posid < 2 ^ 16) ∧
      ∀ e ∈ d.tv.entries, e.2 < 2 ^ 16)
    (hlen : docs.length ≤ 65535 * tpBlockSize)
    (hterms : (docs.map fun d => d.tv.entries.length).sum < 2 ^ 32) : CorpusFits docs where
  ctids_nodup := hctids
  nonempty := fun d hd => (hdocs d hd).1
  ctid_lt := fun d hd => (hdocs d hd).2.1
  frequency_lt := fun d hd => (hdocs d hd).2.2
  documents_lt := hlen.trans_lt (by decide)
  postings_le := fun term => (corpusDocFreq_le docs term).trans hlen
  terms_lt := hterms

/-- The run goes through, and all its calls find the same `segments_per_level`. -/
theorem catDogRun_reaches : ∃ ix,
    Reaches (indexStep nextRoot insertionHashSeq insertionQsort)
      (fun hist ix call => CallFits insertionHashSeq insertionQsort hist ix call ∧
        call.2.perLevel = quietSettings.perLevel)
      (StoredIndex.init threeDocumentIndex.options) catDogRun ix := by
  have hcat : Reaches (indexStep nextRoot insertionHashSeq insertionQsort)
      (fun hist ix call => CallFits insertionHashSeq insertionQsort hist ix call ∧
        call.2.perLevel = quietSettings.perLevel)
      (StoredIndex.init threeDocumentIndex.options) (catDogRun.take 1) _ :=
    Reaches.nil.snoc ⟨⟨corpusFits_of_check (by decide) (by decide) (by decide) (by decide),
      segmentAddressable_of_check (by decide +kernel)⟩, rfl⟩ rfl
  have hdog : Reaches (indexStep nextRoot insertionHashSeq insertionQsort)
      (fun hist ix call => CallFits insertionHashSeq insertionQsort hist ix call ∧
        call.2.perLevel = quietSettings.perLevel)
      (StoredIndex.init threeDocumentIndex.options) (catDogRun.take 2) _ :=
    hcat.snoc ⟨⟨corpusFits_of_check (by decide) (by decide) (by decide) (by decide),
      segmentAddressable_of_check (by decide +kernel)⟩, rfl⟩ rfl
  have hspill : CallFits insertionHashSeq insertionQsort (catDogRun.take 2)
      (((StoredIndex.init threeDocumentIndex.options).addDocument ⟨0, 1⟩ (oneWord catTerm)
        0).addDocument ⟨0, 2⟩ (oneWord dogTerm) 0) (.spill, quietSettings) :=
    ⟨corpusFits_of_check (by decide) (by decide) (by decide) (by decide),
      segmentAddressable_of_check (by decide +kernel)⟩
  obtain ⟨ix, hstep, -⟩ := indexCall_indexOf nextRoot insertionHashSeq insertionQsort
    (indexOf_of_run _ _ _ (hdog.mono fun _ _ _ h => h.1)) hspill
  exact ⟨ix, hdog.snoc ⟨hspill, rfl⟩ hstep⟩

end PgTextsearch.Query
