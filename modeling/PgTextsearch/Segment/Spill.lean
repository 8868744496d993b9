import PgTextsearch.Segment.RoundTrip

/-!
# The segment of a memtable, section by section (`segment/segment.c`)

What `tp_write_segment` puts into the sections of a segment: the dictionary with the posting
blocks of every term, compressed or not, and the documents in the order of the document map.
The bytes of the same segment are those of `File.tpWriteSegment`.

## Main results

* `Spilled.entry` — the entry of a term has the postings of the memtable.
* `spilled_of_write` — a memtable within the field widths becomes a well-formed segment.
-/

namespace PgTextsearch.Segment

open PgTextsearch.Postgres PgTextsearch.Verified PgTextsearch.Segment.File
open scoped Strcmp

/-- The sections of the segment, once the document map and the entries are there. -/
def sectionsOf (compress hasTenantData : Bool) (terms : List TermInfo) (docmap : DocMapBuilder)
    (entries : List DictEntry) : StoredSegment CString where
  dictionary := List.zipWith (fun t e => (t.term, storeEntry compress e)) terms entries
  numDocs := docmap.numDocs
  fieldnorms := docmap.fieldnorms
  ctids := docmap.ctids
  tenantMap := if hasTenantData ∧ 0 < docmap.numDocs then docmap.tenantIds else none
  hasTenantData := hasTenantData

/-- `tp_write_segment`; nothing is written for a memtable without terms. -/
def tpWriteSegmentSections (hs : HashSeq) (qs : Qsort) (compress hasTenantData : Bool)
    (mt : Memtable CString) : Except SegmentError (Option (StoredSegment CString)) := do
  let docmap ← buildDocmapFromMemtable hs qs mt
  let terms := tpBuildDictionary hs qs mt
  if terms.isEmpty then return none
  else do
    let entries ← termEntries qs docmap hasTenantData terms
    return some (sectionsOf compress hasTenantData terms docmap entries)

/-- The exact length of a document of the memtable. -/
def exactLength (mt : Memtable CString) (ctid : ItemPointer) : Nat :=
  ((mt.docLengths.lookup ctid).map DocLengthEntry.docLength).getD 0

/-- The stored posting has the fieldnorm of the exact length. -/
theorem File.StandsFor.fieldnorm_eq {mt : Memtable CString} {docmap : DocMapBuilder}
    {p : MemPosting} {q : BlockPosting} (h : StandsFor mt docmap p q) :
    q.fieldnorm = encodeFieldnorm (exactLength mt p.ctid) := by
  have hlength := congrArg encodeFieldnorm h.length_eq
  rw [File.quantisedLength, encodeFieldnorm_decodeFieldnorm, encodeFieldnorm_decodeFieldnorm]
    at hlength
  exact hlength

/-- Different CTIDs have different document ids. -/
theorem nodup_docIds {mt : Memtable CString} {docmap : DocMapBuilder} {l : List MemPosting}
    {ps : List BlockPosting} (hall : List.Forall₂ (StandsFor mt docmap) l ps)
    (hnodup : (l.map MemPosting.ctid).Nodup) : (ps.map BlockPosting.docId).Nodup := by
  induction hall with
  | nil => exact List.nodup_nil
  | cons hstands hrest ih =>
      obtain ⟨hnot, htail⟩ := List.nodup_cons.1 hnodup
      refine List.nodup_cons.2 ⟨?_, ih htail⟩
      intro hmem
      obtain ⟨q', hq', heq⟩ := List.mem_map.1 hmem
      obtain ⟨i, hi⟩ := List.getElem?_of_mem hq'
      obtain ⟨hlt, hget⟩ := List.getElem?_eq_some_iff.1 hi
      have hpair := hrest.get (by rw [hrest.length_eq]; exact hlt) hlt
      simp only [List.get_eq_getElem, hget] at hpair
      have hsame := hstands.ctid_eq.symm.trans (heq ▸ hpair.ctid_eq)
      rw [Option.some.inj hsame] at hnot
      exact hnot (List.mem_map_of_mem (List.getElem_mem _))

/-- **What a spill writes**: a well-formed segment with the documents of the memtable and, for
each of its terms, its postings. -/
structure Spilled (mt : Memtable CString) (out : StoredSegment CString) : Prop where
  wellFormed : out.WellFormed
  ctids_perm : out.ctids.Perm (mt.docLengths.entries.map fun e => e.1)
  terms_eq : out.dictionary.length = mt.stringTable.entries.length
  term_mem : ∀ term e, (term, e) ∈ out.dictionary → (mt.stringTable.lookup term).isSome
  entry : ∀ term, (mt.stringTable.lookup term).isSome → ∃ e d ps, (term, e) ∈ out.dictionary ∧
    out.ValidEntry e d ∧ d.postings.Perm ps ∧
    List.Forall₂ (fun p q => out.ctids[q.docId]? = some p.ctid ∧ q.frequency = p.frequency ∧
      q.fieldnorm = encodeFieldnorm (exactLength mt p.ctid)) (mt.postings term) ps ∧
    ∀ blk ∈ d.blocks, HasBlockStats blk

section Write

variable {hs : HashSeq} {qs : Qsort} {hasTenantData : Bool} {mt : Memtable CString}
variable {docmap : DocMapBuilder} {order : List (ItemPointer × Nat × Nat)}
variable {entries : List DictEntry}

theorem mem_sectionsOf_dictionary {compress : Bool} {terms : List TermInfo} {term : CString}
    {e : StoredEntry} :
    (term, e) ∈ (sectionsOf compress hasTenantData terms docmap entries).dictionary ↔
      ∃ (n : Nat) (t : TermInfo) (d : DictEntry), terms[n]? = some t ∧ entries[n]? = some d ∧
        term = t.term ∧ e = storeEntry compress d := by
  rw [List.mem_iff_getElem?]
  simp only [sectionsOf, List.getElem?_zipWith]
  constructor
  · rintro ⟨n, hn⟩
    cases ht : terms[n]? with
    | none => simp [ht] at hn
    | some t =>
        cases hd : entries[n]? with
        | none => simp [ht, hd] at hn
        | some d =>
            simp only [ht, hd, Option.some.injEq, Prod.mk.injEq] at hn
            exact ⟨n, t, d, ht, hd, hn.1.symm, hn.2.symm⟩
  · rintro ⟨n, t, d, ht, hd, rfl, rfl⟩
    exact ⟨n, by simp [ht, hd]⟩

theorem sectionsOf_terms {compress : Bool} {terms : List TermInfo}
    (hlen : terms.length = entries.length) :
    (sectionsOf compress hasTenantData terms docmap entries).dictionary.map Prod.fst =
      terms.map TermInfo.term := by
  rw [sectionsOf, List.map_zipWith]
  apply List.ext_getElem
  · simp [hlen]
  · intro n _ _
    simp

/-- The blocks of postings that stand for those of a term are a valid entry. -/
theorem validEntry_of_standsFor (hwidths : WithinWidths hs qs hasTenantData mt)
    (hconv : Converted hs qs hasTenantData mt docmap order entries) {term : CString}
    (hnodup : ((mt.postings term).map MemPosting.ctid).Nodup) {ps : List BlockPosting}
    (hall : List.Forall₂ (StandsFor mt docmap) (mt.postings term) ps) (compress : Bool)
    (terms : List TermInfo) (tenantIds : Option (List Nat)) :
    (sectionsOf compress hasTenantData terms docmap entries).ValidEntry
      (storeEntry compress (writeTermBlocks qs tenantIds (mt.postings term).length ps))
      (writeTermBlocks qs tenantIds (mt.postings term).length ps) := by
  have hstands : ∀ q ∈ (writeTermBlocks qs tenantIds (mt.postings term).length ps).postings,
      ∃ p, StandsFor mt docmap p q := by
    intro q hq
    rw [postings_writeTermBlocks] at hq
    exact exists_standsFor hall ((qs.perm _ ps).subset hq)
  have hwf : (writeTermBlocks qs tenantIds (mt.postings term).length ps).WellFormed := by
    apply writeTermBlocks_wellFormed
    · exact nodup_docIds hall hnodup
    · intro q hq
      obtain ⟨p, hp⟩ := exists_standsFor hall hq
      exact hp.docId_lt
    · rw [← hall.length_eq]
      exact hwidths.blocks term
  exact
    { decode_eq := by
        apply decode_storeEntry compress hwf
        intro q hq
        obtain ⟨p, hp⟩ := hstands q hq
        exact ⟨hp.docId_lt.trans (by decide), hp.frequency_lt⟩
      wellFormed := hwf
      docFreq_eq := by
        rw [(writeTermBlocks_counts qs tenantIds (mt.postings term).length ps).2.2,
          ← hall.length_eq]
        rfl
      docId_lt := by
        intro q hq
        obtain ⟨p, hp⟩ := hstands q hq
        have hlt := (List.getElem?_eq_some_iff.1 hp.ctid_eq).1
        rw [hconv.numbers.ctids_eq, List.length_map] at hlt
        show q.docId < docmap.numDocs
        rw [hconv.numbers.numDocs_eq]
        exact hlt
      fieldnorm_eq := by
        intro q hq
        obtain ⟨p, hp⟩ := hstands q hq
        have hctid := hp.ctid_eq
        rw [hconv.numbers.ctids_eq, List.getElem?_map, Option.map_eq_some_iff] at hctid
        obtain ⟨r, hr, hpc⟩ := hctid
        obtain ⟨e, he, hre⟩ := List.mem_map.1
          (hconv.order_perm.subset (List.mem_of_getElem? hr))
        subst hre
        have hlookup : mt.docLengths.lookup e.1 = some e.2 :=
          AList.mem_lookup_iff.2 ((hs.perm mt.docLengths.entries).subset he)
        rw [hp.fieldnorm_eq, exactLength, ← hpc, hlookup, StoredSegment.getFieldnorm]
        show _ = docmap.fieldnorms.getD q.docId 0
        rw [hconv.numbers.fieldnorms_eq, List.getD_eq_getElem?_getD, List.getElem?_map, hr]
        rfl
      frequency_lt := by
        intro q hq
        obtain ⟨p, hp⟩ := hstands q hq
        exact hp.frequency_lt }

/-- **A memtable within the field widths** becomes a well-formed segment. -/
theorem spilled_of_write (hwidths : WithinWidths hs qs hasTenantData mt)
    (hterms : mt.stringTable.entries ≠ []) (hcount : mt.stringTable.entries.length < 2 ^ 32)
    (hnodup : ∀ term, ((mt.postings term).map MemPosting.ctid).Nodup) (compress : Bool) :
    ∃ out, tpWriteSegmentSections hs qs compress hasTenantData mt = .ok (some out) ∧
      Spilled mt out := by
  obtain ⟨docmap, order, entries, hconv⟩ := exists_converted hwidths
  have hbuilt := tpBuildDictionary_perm hs qs mt
  have hlen := (forall₂_of_mapM_ok hconv.entries_eq).length_eq
  have hne : ¬ (tpBuildDictionary hs qs mt).isEmpty := by
    rw [List.isEmpty_iff]
    intro hnil
    rw [hnil] at hbuilt
    exact hterms (List.map_eq_nil_iff.1 hbuilt.nil_eq.symm)
  refine ⟨sectionsOf compress hasTenantData (tpBuildDictionary hs qs mt) docmap entries, ?_, ?_⟩
  · unfold tpWriteSegmentSections
    rw [bind_of_eq_ok hconv.docmap_eq]
    dsimp only
    rw [if_neg hne, bind_of_eq_ok hconv.entries_eq]
    rfl
  have hctids : docmap.ctids.Perm (mt.docLengths.entries.map fun e => e.1) := by
    have hrows := hconv.order_perm.map fun r => r.1
    rw [List.map_map] at hrows
    rw [hconv.numbers.ctids_eq]
    exact hrows.trans ((hs.perm mt.docLengths.entries).map fun e => e.1)
  have hcard : (sectionsOf compress hasTenantData (tpBuildDictionary hs qs mt) docmap
      entries).dictionary.length = mt.stringTable.entries.length := by
    rw [sectionsOf, List.length_zipWith, ← hlen, Nat.min_self, hbuilt.length_eq, List.length_map]
  have hentry : ∀ term e, (term, e) ∈ (sectionsOf compress hasTenantData
      (tpBuildDictionary hs qs mt) docmap entries).dictionary → ∃ tenantIds ps,
      List.Forall₂ (StandsFor mt docmap) (mt.postings term) ps ∧ e = storeEntry compress
        (writeTermBlocks qs tenantIds (mt.postings term).length ps) ∧
        (mt.stringTable.lookup term).isSome := by
    intro term e he
    obtain ⟨n, t, d, ht, hd, rfl, rfl⟩ := mem_sectionsOf_dictionary.1 he
    obtain ⟨tenantIds, ps, hall, hget⟩ := entry_spec hwidths hconv ht
    cases hd.symm.trans hget
    refine ⟨tenantIds, ps, hall, rfl, ?_⟩
    rw [(mem_tpBuildDictionary hs qs mt).1 (List.mem_of_getElem? ht)]
    rfl
  exact
    { wellFormed :=
        { numTerms_lt := hcard ▸ hcount
          sorted := by
            have hkeys : (tpBuildDictionary hs qs mt).Pairwise fun a b => a.term < b.term :=
              tpBuildDictionary_sorted hs qs mt
            rw [← List.pairwise_map, ← sectionsOf_terms hlen, List.pairwise_map] at hkeys
            exact hkeys
          entries := by
            intro term e he
            obtain ⟨tenantIds, ps, hall, rfl, -⟩ := hentry term e he
            exact ⟨_, validEntry_of_standsFor hwidths hconv (hnodup term) hall compress _ _⟩
          ctids_length := by
            show docmap.ctids.length = docmap.numDocs
            rw [hconv.numbers.ctids_eq, hconv.numbers.numDocs_eq, List.length_map]
          fieldnorms_length := by
            show docmap.fieldnorms.length = docmap.numDocs
            rw [hconv.numbers.fieldnorms_eq, hconv.numbers.numDocs_eq, List.length_map]
          tenantMap_length := by
            intro tids htids
            replace htids : (if hasTenantData = true ∧ 0 < docmap.numDocs then docmap.tenantIds
              else none) = some tids := htids
            show tids.length = docmap.numDocs
            split at htids
            · rcases hconv.numbers.tenantIds_eq with ⟨hnone, -⟩ | ⟨hsome, -⟩
              · rw [hnone] at htids
                cases htids
              · rw [hsome] at htids
                cases htids
                rw [List.length_map, hconv.numbers.numDocs_eq]
            · cases htids
          ctids_nodup := hctids.nodup_iff.2 mt.docLengths.nodupKeys }
      ctids_perm := hctids
      terms_eq := hcard
      term_mem := by
        intro term e he
        obtain ⟨-, -, -, -, hterm⟩ := hentry term e he
        exact hterm
      entry := by
        intro term hterm
        obtain ⟨n, t, ht, rfl⟩ := exists_getElem?_of_lookup hs qs (Option.isSome_iff_ne_none.1 hterm)
        obtain ⟨tenantIds, ps, hall, hget⟩ := entry_spec hwidths hconv ht
        refine ⟨_, _, ps, mem_sectionsOf_dictionary.2 ⟨n, t, _, ht, hget, rfl, rfl⟩,
          validEntry_of_standsFor hwidths hconv (hnodup t.term) hall compress _ tenantIds, ?_, ?_, ?_⟩
        · rw [postings_writeTermBlocks]
          exact qs.perm _ ps
        · exact hall.imp fun p q h => ⟨h.ctid_eq, h.frequency_eq, h.fieldnorm_eq⟩
        · intro blk hblk
          obtain ⟨run, hrun, rfl⟩ := exists_buildBlock_of_mem hblk
          exact buildBlock_stats _ hrun }

/-- A memtable without terms is not written. -/
theorem tpWriteSegmentSections_empty (hwidths : WithinWidths hs qs hasTenantData mt)
    (hterms : mt.stringTable.entries = []) (compress : Bool) :
    tpWriteSegmentSections hs qs compress hasTenantData mt = .ok none := by
  obtain ⟨docmap, order, entries, hconv⟩ := exists_converted hwidths
  have hempty : (tpBuildDictionary hs qs mt).isEmpty := by
    have hbuilt := (tpBuildDictionary_perm hs qs mt).length_eq
    rw [hterms] at hbuilt
    exact List.isEmpty_iff.2 (List.eq_nil_of_length_eq_zero hbuilt)
  unfold tpWriteSegmentSections
  rw [bind_of_eq_ok hconv.docmap_eq]
  dsimp only
  rw [if_pos hempty]
  rfl

end Write

end PgTextsearch.Segment
