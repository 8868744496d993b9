import PgTextsearch.Segment.Merge

/-!
# What a merge conserves (`segment/merge.c`)

The sources of a merge are well-formed segments that share no CTID.  Then the new
document map numbers the documents of all sources from zero, a posting of a source and
its document go to the same new document, and the merged segment is well-formed again.

## Main results

* `Renumbers` — where a document of a source goes in the merged segment.
* `writeMergedTerm_spec` — the entry of a merged term.
* `merge_conserves_relation` — the merged segment has the relation of its sources.
-/

namespace PgTextsearch.Segment.Merge

open PgTextsearch.Postgres PgTextsearch.Verified

variable {Term : Type}

/-! ## Renumbering -/

section Renumbering

/-- Segments with different CTIDs, with a CTID for every document. -/
structure Disjointed (segs : List (StoredSegment Term)) : Prop where
  length_eq : ∀ seg ∈ segs, seg.ctids.length = seg.numDocs
  nodup : (segs.flatMap StoredSegment.ctids).Nodup

variable {segs : List (StoredSegment Term)}

theorem Disjointed.getElem?_ctids (h : Disjointed segs) {seg : StoredSegment Term}
    (hseg : seg ∈ segs) {n : Nat} (hn : n < seg.numDocs) :
    seg.ctids[n]? = some (seg.lookupCtid n) := by
  have hlt : n < seg.ctids.length := by rw [h.length_eq seg hseg]; exact hn
  rw [StoredSegment.lookupCtid, List.getD_eq_getElem _ _ hlt]
  exact List.getElem?_eq_getElem hlt

/-- A CTID says which document of which segment it belongs to. -/
theorem Disjointed.eq_of_lookupCtid_eq (h : Disjointed segs) {i j m n : Nat}
    {a b : StoredSegment Term} (ha : segs[i]? = some a) (hb : segs[j]? = some b)
    (hm : m < a.numDocs) (hn : n < b.numDocs) (heq : a.lookupCtid m = b.lookupCtid n) :
    i = j ∧ m = n := by
  have hmem := h.getElem?_ctids (List.mem_of_getElem? ha) hm
  have hmem' := h.getElem?_ctids (List.mem_of_getElem? hb) hn
  obtain ⟨heach, hpair⟩ := List.nodup_flatMap.1 h.nodup
  have hij : i = j := by
    by_contra hne
    have hdisj : List.Disjoint a.ctids b.ctids := by
      obtain ⟨hi, rfl⟩ := List.getElem?_eq_some_iff.1 ha
      obtain ⟨hj, rfl⟩ := List.getElem?_eq_some_iff.1 hb
      rcases Nat.lt_or_gt_of_ne hne with hlt | hgt
      · exact List.pairwise_iff_getElem.1 hpair i j hi hj hlt
      · exact (List.pairwise_iff_getElem.1 hpair j i hj hi hgt).symm
    exact hdisj (List.mem_of_getElem? hmem) (heq ▸ List.mem_of_getElem? hmem')
  subst hij
  rw [ha] at hb
  cases hb
  refine ⟨rfl, ?_⟩
  rw [heq, ← hmem'] at hmem
  have hlt : m < a.ctids.length := by rw [h.length_eq a (List.mem_of_getElem? ha)]; exact hm
  exact (List.getElem?_inj hlt (heach a (List.mem_of_getElem? ha))).1 hmem

/-- **Where documents go**: the map `docmap` numbers the documents of the segments in the
order `order`. -/
structure Renumbers (segs : List (StoredSegment Term)) (docmap : DocMapBuilder)
    (order : List (ItemPointer × Nat × Nat)) : Prop where
  disjointed : Disjointed segs
  perm : order.Perm (segs.flatMap docRows)
  numbers : Numbers docmap order

variable {docmap : DocMapBuilder} {order : List (ItemPointer × Nat × Nat)}

/-- The new number of a document is the place of its row. -/
theorem Renumbers.getElem?_order (h : Renumbers segs docmap order) {i n : Nat}
    {seg : StoredSegment Term} (hseg : segs[i]? = some seg) (hn : n < seg.numDocs) :
    order[oldToNew docmap (segs.map MergeSource.start) i n]? = some (docRow seg n) := by
  have hrow : docRow seg n ∈ order := by
    apply h.perm.symm.subset
    exact List.mem_flatMap.2 ⟨seg, List.mem_of_getElem? hseg,
      List.mem_map_of_mem (List.mem_range.2 hn)⟩
  obtain ⟨k, hk⟩ := List.getElem?_of_mem hrow
  have hlook := h.numbers.lookup_eq k _ hk
  have hnew : oldToNew docmap (segs.map MergeSource.start) i n = k := by
    unfold oldToNew
    rw [List.getElem?_map, hseg]
    exact hlook
  rw [hnew]
  exact hk

theorem Renumbers.oldToNew_lt (h : Renumbers segs docmap order) {i n : Nat}
    {seg : StoredSegment Term} (hseg : segs[i]? = some seg) (hn : n < seg.numDocs) :
    oldToNew docmap (segs.map MergeSource.start) i n < docmap.numDocs := by
  rw [h.numbers.numDocs_eq]
  exact (List.getElem?_eq_some_iff.1 (h.getElem?_order hseg hn)).1

/-- Different documents get different numbers. -/
theorem Renumbers.oldToNew_inj (h : Renumbers segs docmap order) {i j m n : Nat}
    {a b : StoredSegment Term} (ha : segs[i]? = some a) (hb : segs[j]? = some b)
    (hm : m < a.numDocs) (hn : n < b.numDocs)
    (heq : oldToNew docmap (segs.map MergeSource.start) i m =
      oldToNew docmap (segs.map MergeSource.start) j n) : i = j ∧ m = n := by
  have hrow := h.getElem?_order ha hm
  rw [heq, h.getElem?_order hb hn] at hrow
  have hctid : b.lookupCtid n = a.lookupCtid m :=
    congrArg (fun r : ItemPointer × Nat × Nat => r.1) (Option.some.inj hrow)
  exact h.disjointed.eq_of_lookupCtid_eq ha hb hm hn hctid.symm

end Renumbering

/-! ## The document sections of the merged segment -/

section Sections

theorem getTenantId_ne_zero {seg : StoredSegment Term} {n : Nat} (h : seg.getTenantId n ≠ 0) :
    seg.hasTenantData = true := by
  by_contra hflag
  rw [Bool.not_eq_true] at hflag
  apply h
  unfold StoredSegment.getTenantId StoredSegment.loadTenantIds
  rw [if_pos (Or.inr hflag)]

variable {segs : List (StoredSegment Term)} {docmap : DocMapBuilder}
  {order : List (ItemPointer × Nat × Nat)}

/-- The sections `write_merged_segment` writes for the documents. -/
structure HasSections (segs : List (StoredSegment Term)) (docmap : DocMapBuilder)
    (out : StoredSegment Term) : Prop where
  numDocs_eq : out.numDocs = docmap.numDocs
  fieldnorms_eq : out.fieldnorms = docmap.fieldnorms
  ctids_eq : out.ctids = docmap.ctids
  tenantMap_eq : out.tenantMap = if 0 < docmap.numDocs then docmap.tenantIds else none
  hasTenantData_eq : out.hasTenantData = segs.any fun seg => seg.hasTenantData

/-- A document of the merged segment: CTID, fieldnorm and tenant are those of its row. -/
theorem HasSections.document {out : StoredSegment Term} (hout : HasSections segs docmap out)
    (h : Renumbers segs docmap order) {n : Nat} {r : ItemPointer × Nat × Nat}
    (hr : order[n]? = some r) :
    out.lookupCtid n = r.1 ∧ out.getFieldnorm n = encodeFieldnorm r.2.1 ∧
      out.getTenantId n = r.2.2 := by
  have hlt : n < order.length := (List.getElem?_eq_some_iff.1 hr).1
  have hnum : docmap.numDocs = order.length := h.numbers.numDocs_eq
  refine ⟨?_, ?_, ?_⟩
  · rw [StoredSegment.lookupCtid, hout.ctids_eq, h.numbers.ctids_eq,
      List.getD_eq_getElem?_getD, List.getElem?_map, hr]
    rfl
  · rw [StoredSegment.getFieldnorm, hout.fieldnorms_eq, h.numbers.fieldnorms_eq,
      List.getD_eq_getElem?_getD, List.getElem?_map, hr]
    rfl
  · have hpos : 0 < docmap.numDocs := by omega
    have hmap : out.tenantMap = docmap.tenantIds := by rw [hout.tenantMap_eq, if_pos hpos]
    have hne : ¬ out.numDocs = 0 := by rw [hout.numDocs_eq]; omega
    have hrange : ¬ n ≥ out.numDocs := by rw [hout.numDocs_eq]; omega
    rcases h.numbers.tenantIds_eq with ⟨hnone, hzero⟩ | ⟨hsome, r', hr', htenant⟩
    · -- no document has a tenant
      rw [hzero r (List.mem_of_getElem? hr)]
      unfold StoredSegment.getTenantId StoredSegment.loadTenantIds
      rw [hmap, hnone, ite_self]
    · -- a source has the flag, so that the merged segment has it
      have hflag : out.hasTenantData = true := by
        rw [hout.hasTenantData_eq, List.any_eq_true]
        obtain ⟨seg, hseg, hrow⟩ := List.mem_flatMap.1 (h.perm.subset hr')
        obtain ⟨m, -, rfl⟩ := List.mem_map.1 hrow
        exact ⟨seg, hseg, getTenantId_ne_zero htenant⟩
      unfold StoredSegment.getTenantId StoredSegment.loadTenantIds
      rw [hmap, hsome, if_neg (by simp [hne, hflag])]
      simp only [if_neg hrange]
      rw [List.getD_eq_getElem?_getD, List.getElem?_map, hr]
      rfl

/-- **A document of a source** in the merged segment. -/
theorem HasSections.renumbered {out : StoredSegment Term} (hout : HasSections segs docmap out)
    (h : Renumbers segs docmap order) {i n : Nat} {seg : StoredSegment Term}
    (hseg : segs[i]? = some seg) (hn : n < seg.numDocs) :
    out.lookupCtid (oldToNew docmap (segs.map MergeSource.start) i n) = seg.lookupCtid n ∧
      out.getFieldnorm (oldToNew docmap (segs.map MergeSource.start) i n) = seg.getFieldnorm n ∧
      out.getTenantId (oldToNew docmap (segs.map MergeSource.start) i n) = seg.getTenantId n := by
  obtain ⟨hctid, hnorm, htenant⟩ := hout.document h (h.getElem?_order hseg hn)
  refine ⟨hctid, ?_, htenant⟩
  rw [hnorm]
  exact encodeFieldnorm_decodeFieldnorm _

end Sections

/-! ## The postings of a merged term -/

section Terms

variable [LinearOrder Term] {segs : List (StoredSegment Term)} {docmap : DocMapBuilder}
  {order : List (ItemPointer × Nat × Nat)} {term : Term}

/-- The references of a merged term. -/
def termRefs (segs : List (StoredSegment Term)) (term : Term) : List (Nat × StoredEntry) :=
  refsOf term 0 (segs.map StoredSegment.dictionary)

/-- The references of a term are the entries of the segments that have it. -/
theorem mem_termRefs (hwf : ∀ seg ∈ segs, seg.WellFormed) {i : Nat} {e : StoredEntry} :
    (i, e) ∈ termRefs segs term ↔ ∃ seg, segs[i]? = some seg ∧ (term, e) ∈ seg.dictionary := by
  unfold termRefs
  rw [mem_refsOf]
  constructor
  · rintro ⟨n, l, hl, hi, hlook⟩
    rw [List.getElem?_map, Option.map_eq_some_iff] at hl
    obtain ⟨seg, hseg, rfl⟩ := hl
    rw [Nat.zero_add] at hi
    subst hi
    exact ⟨seg, hseg, (hwf seg (List.mem_of_getElem? hseg)).sorted.lookup_eq_some_iff.1 hlook⟩
  · rintro ⟨seg, hseg, hmem⟩
    refine ⟨i, seg.dictionary, by rw [List.getElem?_map, hseg]; rfl, by omega, ?_⟩
    exact (hwf seg (List.mem_of_getElem? hseg)).sorted.lookup_eq_some_iff.2 hmem

/-- The posting of a source in the merged segment. -/
def newPosting (docmap : DocMapBuilder) (segs : List (StoredSegment Term)) (i : Nat)
    (p : BlockPosting) : BlockPosting :=
  ⟨oldToNew docmap (segs.map MergeSource.start) i p.docId, p.frequency, p.fieldnorm⟩

/-- The postings of a merged term, source by source. -/
def newPostings (docmap : DocMapBuilder) (segs : List (StoredSegment Term)) (term : Term) :
    List BlockPosting :=
  (termRefs segs term).flatMap fun ref => (entryPostings ref.2).map (newPosting docmap segs ref.1)

/-- A posting of a merged term is a posting of one of the sources. -/
theorem mem_newPostings (hwf : ∀ seg ∈ segs, seg.WellFormed) {q : BlockPosting} :
    q ∈ newPostings docmap segs term ↔ ∃ i seg e d p, segs[i]? = some seg ∧
      (term, e) ∈ seg.dictionary ∧ seg.ValidEntry e d ∧ p ∈ d.postings ∧
      q = newPosting docmap segs i p := by
  unfold newPostings
  rw [List.mem_flatMap]
  constructor
  · rintro ⟨⟨i, e⟩, href, hq⟩
    obtain ⟨seg, hseg, hmem⟩ := (mem_termRefs hwf).1 href
    obtain ⟨d, hd⟩ := (hwf seg (List.mem_of_getElem? hseg)).entries term e hmem
    obtain ⟨p, hp, rfl⟩ := List.mem_map.1 hq
    rw [entryPostings_eq hd.decode_eq] at hp
    exact ⟨i, seg, e, d, p, hseg, hmem, hd, hp, rfl⟩
  · rintro ⟨i, seg, e, d, p, hseg, hmem, hd, hp, rfl⟩
    refine ⟨(i, e), (mem_termRefs hwf).2 ⟨seg, hseg, hmem⟩, List.mem_map_of_mem ?_⟩
    rw [entryPostings_eq hd.decode_eq]
    exact hp

/-- The document frequency of a term in a segment. -/
def docFreqOf (seg : StoredSegment Term) (term : Term) : Nat :=
  (seg.dictionary.lookup term).elim 0 StoredEntry.docFreq

/-- A merged term has as many postings as its sources count. -/
theorem length_newPostings (hwf : ∀ seg ∈ segs, seg.WellFormed) :
    (newPostings docmap segs term).length = (segs.map fun seg => docFreqOf seg term).sum := by
  have hgen : ∀ (l : List (StoredSegment Term)) (i : Nat), (∀ seg ∈ l, seg.WellFormed) →
      ((refsOf term i (l.map StoredSegment.dictionary)).flatMap fun ref =>
        (entryPostings ref.2).map (newPosting docmap segs ref.1)).length =
      (l.map fun seg => docFreqOf seg term).sum := by
    intro l
    induction l with
    | nil => exact fun _ _ => rfl
    | cons seg rest ih =>
        intro i hl
        have hrest := ih (i + 1) fun s hs => hl s (List.mem_cons_of_mem _ hs)
        rw [List.map_cons, refsOf, List.map_cons, List.sum_cons, docFreqOf]
        cases hlook : seg.dictionary.lookup term with
        | none => simpa using hrest
        | some e =>
            have hmem := (hl seg List.mem_cons_self).sorted.lookup_eq_some_iff.1 hlook
            obtain ⟨d, hd⟩ := (hl seg List.mem_cons_self).entries term e hmem
            rw [List.flatMap_cons, List.length_append, hrest, List.length_map,
              entryPostings_eq hd.decode_eq, ← hd.docFreq_eq]
            rfl
  exact hgen segs 0 hwf

/-- The new document ids of a merged term are different. -/
theorem nodup_newPostings (hwf : ∀ seg ∈ segs, seg.WellFormed) (h : Renumbers segs docmap order) :
    ((newPostings docmap segs term).map BlockPosting.docId).Nodup := by
  unfold newPostings
  rw [List.map_flatMap, List.nodup_flatMap]
  constructor
  · -- the ids of one source
    rintro ⟨i, e⟩ href
    obtain ⟨seg, hseg, hmem⟩ := (mem_termRefs hwf).1 href
    obtain ⟨d, hd⟩ := (hwf seg (List.mem_of_getElem? hseg)).entries term e hmem
    rw [List.map_map, entryPostings_eq hd.decode_eq]
    have hsorted : d.postings.Pairwise fun p q => p.docId < q.docId := hd.wellFormed.sorted
    rw [List.Nodup, List.pairwise_map]
    refine hsorted.imp_of_mem ?_
    intro p q hp hq hlt heq
    have hinj := (h.oldToNew_inj hseg hseg (hd.docId_lt p hp) (hd.docId_lt q hq) heq).2
    omega
  · -- the ids of two sources
    refine (refsOf_increase _ term 0).imp_of_mem ?_
    rintro ⟨i, e⟩ ⟨j, e'⟩ href href' hlt
    obtain ⟨seg, hseg, hmem⟩ := (mem_termRefs hwf).1 href
    obtain ⟨seg', hseg', hmem'⟩ := (mem_termRefs hwf).1 href'
    obtain ⟨d, hd⟩ := (hwf seg (List.mem_of_getElem? hseg)).entries term e hmem
    obtain ⟨d', hd'⟩ := (hwf seg' (List.mem_of_getElem? hseg')).entries term e' hmem'
    rintro n hn hn'
    simp only [List.map_map, entryPostings_eq hd.decode_eq,
      entryPostings_eq hd'.decode_eq] at hn hn'
    obtain ⟨p, hp, rfl⟩ := List.mem_map.1 hn
    obtain ⟨q, hq, heq⟩ := List.mem_map.1 hn'
    have hinj := (h.oldToNew_inj hseg' hseg (hd'.docId_lt q hq) (hd.docId_lt p hp) heq).1
    simp only at hlt
    omega

/-- The references of a merged term can be read. -/
private theorem validRef_of_mem (hwf : ∀ seg ∈ segs, seg.WellFormed) (term : Term) :
    ∀ ref ∈ termRefs segs term, ValidRef (segs.map MergeSource.start) ref := by
  rintro ⟨i, e⟩ href
  obtain ⟨seg, hseg, hmem⟩ := (mem_termRefs hwf).1 href
  obtain ⟨d, hd⟩ := (hwf seg (List.mem_of_getElem? hseg)).entries term e hmem
  exact ⟨MergeSource.start seg, d, by rw [List.getElem?_map, hseg]; rfl, hd.decode_eq,
    hd.wellFormed⟩

/-- The conversion of the collected postings. -/
private theorem map_refPostings (hwf : ∀ seg ∈ segs, seg.WellFormed) :
    (((termRefs segs term).flatMap (refPostings (segs.map MergeSource.start))).map
      fun p => (⟨oldToNew docmap (segs.map MergeSource.start) p.sourceIdx p.oldDocId, p.frequency,
        p.fieldnorm⟩ : BlockPosting)) = newPostings docmap segs term := by
  rw [List.map_flatMap]
  refine List.flatMap_congr ?_
  rintro ⟨i, e⟩ href
  obtain ⟨seg, hseg, -⟩ := (mem_termRefs hwf).1 href
  have hsource : (segs.map MergeSource.start)[i]? = some (MergeSource.start seg) := by
    rw [List.getElem?_map, hseg]
    rfl
  rw [refPostings, refInfos, hsource, List.map_map, List.map_map]
  rfl

/-- **The entry of a merged term** is well-formed and has the postings of its sources. -/
theorem writeMergedTerm_spec (qs : Qsort) (compress : Bool)
    (hwf : ∀ seg ∈ segs, seg.WellFormed) (h : Renumbers segs docmap order)
    (hdocs : docmap.numDocs < 2 ^ 32)
    (hblocks : (segs.map fun seg => docFreqOf seg term).sum ≤ 65535 * tpBlockSize) :
    ∃ d, writeMergedTerm qs compress docmap (segs.map MergeSource.start)
        (term, termRefs segs term) = .ok (term, storeEntry compress d) ∧
      d.WellFormed ∧ d.postings.Perm (newPostings docmap segs term) ∧
      d.docFreq = (segs.map fun seg => docFreqOf seg term).sum ∧
      ∀ blk ∈ d.blocks, HasBlockStats blk := by
  obtain ⟨collected, hcollect, hperm⟩ := collectTermPostings_perm (validRef_of_mem hwf term)
  have hconv := hperm.map fun p =>
    (⟨oldToNew docmap (segs.map MergeSource.start) p.sourceIdx p.oldDocId, p.frequency,
      p.fieldnorm⟩ : BlockPosting)
  rw [map_refPostings hwf] at hconv
  have hlen := hconv.length_eq
  rw [length_newPostings hwf] at hlen
  refine ⟨writeMergedSegmentTerm qs docmap (oldToNew docmap (segs.map MergeSource.start)) collected,
    ?_, ?_, ?_, ?_, ?_⟩
  · unfold writeMergedTerm
    rw [hcollect]
    rfl
  · apply writeTermBlocks_wellFormed
    · exact (hconv.map BlockPosting.docId).symm.nodup (nodup_newPostings hwf h)
    · intro q hq
      obtain ⟨i, seg, e, d, p, hseg, -, hd, hp, rfl⟩ := (mem_newPostings hwf).1 (hconv.subset hq)
      have hlt := h.oldToNew_lt hseg (hd.docId_lt p hp)
      show oldToNew docmap (segs.map MergeSource.start) i p.docId < uint32Max
      unfold uint32Max
      omega
    · rw [hlen]
      exact hblocks
  · unfold writeMergedSegmentTerm
    rw [postings_writeTermBlocks]
    exact (qs.perm _ _).trans hconv
  · show collected.length = _
    rw [← hlen, List.length_map]
  · intro blk hblk
    obtain ⟨run, hne, rfl⟩ := exists_buildBlock_of_mem hblk
    exact buildBlock_stats _ hne

end Terms

/-! ## The merged segment -/

section Segment

variable [LinearOrder Term]

/-- The documents of a segment. -/
def documents (seg : StoredSegment Term) : List (ItemPointer × Fin 256 × Nat) :=
  (List.range seg.numDocs).map fun n => (seg.lookupCtid n, seg.getFieldnorm n, seg.getTenantId n)

/-- The segments of a chain that have terms; the others are no sources. -/
def mergeSources (chain : List (StoredSegment Term)) : List (StoredSegment Term) :=
  chain.filter fun seg => !seg.dictionary.isEmpty

/-- **What a merge conserves.**  The relation is that of the sources; the dictionary is
strictly sorted, document frequencies add up, document ids increase in every posting list,
and the document ids below `numDocs` stand for the documents of the sources, each once. -/
structure Conserves (chain : List (StoredSegment Term)) (out : StoredSegment Term) : Prop where
  relation_eq : out.relation = { r | ∃ seg ∈ chain, r ∈ seg.relation }
  sorted : out.dictionary.Pairwise fun p q => p.1 < q.1
  docFreq_eq : ∀ term e, (term, e) ∈ out.dictionary →
    e.docFreq = (chain.map fun seg => docFreqOf seg term).sum
  increasing : ∀ term e, (term, e) ∈ out.dictionary → ∃ d, e.decode = some d ∧
    d.visible.length = e.docFreq ∧ d.visible.Pairwise (fun p q => p.docId < q.docId) ∧
    ∀ p ∈ d.visible, p.docId < out.numDocs
  documents_perm : (documents out).Perm ((mergeSources chain).flatMap documents)
  ctids_nodup : ((documents out).map Prod.fst).Nodup
  wellFormed : out.dictionary.length < 2 ^ 32 → out.WellFormed

omit [LinearOrder Term] in
/-- The parts of a merged segment. -/
private theorem writeMergedSegment_inv {hs : HashSeq} {qs : Qsort} {compress : Bool}
    {terms : List (Term × List (Nat × StoredEntry))} {segs : List (StoredSegment Term)}
    {out : StoredSegment Term}
    (h : writeMergedSegment hs qs compress terms (segs.map MergeSource.start) = .ok out) :
    ∃ docmap, buildMergedDocmap hs qs (segs.map MergeSource.start) = .ok docmap ∧
      terms.mapM (writeMergedTerm qs compress docmap (segs.map MergeSource.start)) =
        .ok out.dictionary ∧ HasSections segs docmap out := by
  obtain ⟨docmap, hdocmap, h⟩ := bind_eq_ok h
  obtain ⟨dictionary, hdict, h⟩ := bind_eq_ok h
  cases h
  have hbuilt : buildMergedDocmap hs qs (segs.map MergeSource.start) = .ok docmap := by
    cases hb : buildMergedDocmap hs qs (segs.map MergeSource.start) with
    | error e => rw [hb] at hdocmap; cases hdocmap
    | ok m => rw [hb] at hdocmap; cases hdocmap; rfl
  refine ⟨docmap, hbuilt, hdict, rfl, rfl, rfl, rfl, ?_⟩
  show (segs.map MergeSource.start).any _ = _
  rw [List.any_map]
  rfl

/-- The sources of a merge, what the term merge loop made of them, and the merged segment
with its document map. -/
structure MergeRun (qs : Qsort) (compress : Bool) (segs : List (StoredSegment Term))
    (terms : List (Term × List (Nat × StoredEntry))) (docmap : DocMapBuilder)
    (order : List (ItemPointer × Nat × Nat)) (out : StoredSegment Term) : Prop where
  sources : ∀ seg ∈ segs, seg.WellFormed
  renumbers : Renumbers segs docmap order
  numDocs_lt : docmap.numDocs < 2 ^ 32
  blocks_le : ∀ term, (segs.map fun seg => docFreqOf seg term).sum ≤ 65535 * tpBlockSize
  merged : MergedKeys (segs.map StoredSegment.dictionary) terms
  dictionary : terms.mapM (writeMergedTerm qs compress docmap (segs.map MergeSource.start)) =
    .ok out.dictionary
  sections : HasSections segs docmap out

namespace MergeRun

variable {qs : Qsort} {compress : Bool} {segs : List (StoredSegment Term)}
  {terms : List (Term × List (Nat × StoredEntry))} {docmap : DocMapBuilder}
  {order : List (ItemPointer × Nat × Nat)} {out : StoredSegment Term}
  (w : MergeRun qs compress segs terms docmap order out)
include w

/-- The dictionary has the merged terms. -/
theorem dictionary_terms : out.dictionary.map Prod.fst = terms.map Prod.fst := by
  have hwritten := forall₂_of_mapM_ok w.dictionary
  generalize out.dictionary = dictionary at hwritten
  clear w
  induction hwritten with
  | nil => rfl
  | cons hterm _ ih =>
      obtain ⟨postings, -, hret⟩ := bind_eq_ok hterm
      cases hret
      rw [List.map_cons, List.map_cons, ih]

/-- The entry of a merged term. -/
theorem entry {term : Term} {e : StoredEntry} (he : (term, e) ∈ out.dictionary) :
    ∃ d, e = storeEntry compress d ∧ d.WellFormed ∧
      d.postings.Perm (newPostings docmap segs term) ∧
      d.docFreq = (segs.map fun seg => docFreqOf seg term).sum ∧
      ∀ blk ∈ d.blocks, HasBlockStats blk := by
  have hwritten := forall₂_of_mapM_ok w.dictionary
  obtain ⟨k, hk⟩ := List.getElem?_of_mem he
  obtain ⟨hlt, heq⟩ := List.getElem?_eq_some_iff.1 hk
  have hlt' : k < terms.length := by rw [hwritten.length_eq]; exact hlt
  have hterm := hwritten.get hlt' hlt
  simp only [List.get_eq_getElem, heq] at hterm
  have hfst : terms[k].1 = term := by
    obtain ⟨postings, -, hret⟩ := bind_eq_ok hterm
    cases hret
    rfl
  have hrefs : terms[k].2 = termRefs segs terms[k].1 :=
    w.merged.refs_eq _ _ (List.getElem_mem hlt')
  have hpair : terms[k] = (term, termRefs segs term) := Prod.ext hfst (hfst ▸ hrefs)
  obtain ⟨d, hd, hwf, hperm, hfreq⟩ := writeMergedTerm_spec qs compress w.sources w.renumbers
    w.numDocs_lt (w.blocks_le term)
  rw [hpair, hd] at hterm
  cases hterm
  exact ⟨d, rfl, hwf, hperm, hfreq⟩

/-- A merged term is a term of a source. -/
theorem mem_dictionary_iff (term : Term) :
    (∃ e, (term, e) ∈ out.dictionary) ↔ ∃ seg ∈ segs, ∃ e, (term, e) ∈ seg.dictionary := by
  have hkeys : (∃ e, (term, e) ∈ out.dictionary) ↔ ∃ refs, (term, refs) ∈ terms := by
    have hmem : ∀ {β : Type} (l : List (Term × β)), (∃ b, (term, b) ∈ l) ↔
        term ∈ l.map Prod.fst := by
      intro β l
      simp
    rw [hmem, hmem, w.dictionary_terms]
  rw [hkeys, w.merged.mem_iff]
  simp

/-- The postings of an entry fit the stored fields. -/
theorem fits {term : Term} {q : BlockPosting} (hq : q ∈ newPostings docmap segs term) :
    q.Fits := by
  obtain ⟨i, seg, e, d, p, hseg, -, hd, hp, rfl⟩ := (mem_newPostings w.sources).1 hq
  have hlt := w.renumbers.oldToNew_lt hseg (hd.docId_lt p hp)
  exact ⟨hlt.trans w.numDocs_lt, hd.frequency_lt p hp⟩

/-- **Entries of the merged segment are valid.** -/
theorem validEntry {term : Term} {e : StoredEntry} (he : (term, e) ∈ out.dictionary) :
    ∃ d, out.ValidEntry e d ∧ d.postings.Perm (newPostings docmap segs term) ∧
      e.docFreq = (segs.map fun seg => docFreqOf seg term).sum ∧
      ∀ blk ∈ d.blocks, HasBlockStats blk := by
  obtain ⟨d, rfl, hwf, hperm, hfreq, hstats⟩ := w.entry he
  have hlen := hperm.length_eq
  rw [length_newPostings w.sources] at hlen
  refine ⟨d, ?_, hperm, hfreq, hstats⟩
  exact
    { decode_eq := decode_storeEntry compress hwf fun q hq => w.fits (hperm.subset hq)
      wellFormed := hwf
      docFreq_eq := hfreq.trans hlen.symm
      docId_lt := by
        intro q hq
        obtain ⟨i, seg, e, d', p, hseg, -, hd, hp, rfl⟩ :=
          (mem_newPostings w.sources).1 (hperm.subset hq)
        rw [w.sections.numDocs_eq]
        exact w.renumbers.oldToNew_lt hseg (hd.docId_lt p hp)
      fieldnorm_eq := by
        intro q hq
        obtain ⟨i, seg, e, d', p, hseg, -, hd, hp, rfl⟩ :=
          (mem_newPostings w.sources).1 (hperm.subset hq)
        have hnorm := (w.sections.renumbered w.renumbers hseg (hd.docId_lt p hp)).2.1
        exact (hd.fieldnorm_eq p hp).trans hnorm.symm
      frequency_lt := fun q hq => (w.fits (hperm.subset hq)).2 }

/-- The row of a posting stays. -/
theorem row_newPosting {term : Term} {i : Nat} {seg : StoredSegment Term} {p : BlockPosting}
    (hseg : segs[i]? = some seg) (hp : p.docId < seg.numDocs) :
    out.row term (newPosting docmap segs i p) = seg.row term p := by
  obtain ⟨hctid, -, htenant⟩ := w.sections.renumbered w.renumbers hseg hp
  unfold StoredSegment.row newPosting
  simp only [hctid, htenant]

/-- **The relation of the merged segment.** -/
theorem relation_eq : out.relation = { r | ∃ seg ∈ segs, r ∈ seg.relation } := by
  ext r
  constructor
  · rintro ⟨e, d, q, he, hdec, hq, hr⟩
    obtain ⟨d', hd', hperm, -⟩ := w.validEntry he
    rw [hd'.decode_eq] at hdec
    cases hdec
    rw [hd'.wellFormed.visible_eq] at hq
    obtain ⟨i, seg, e', d, p, hseg, hmem, hd, hp, rfl⟩ :=
      (mem_newPostings w.sources).1 (hperm.subset hq)
    refine ⟨seg, List.mem_of_getElem? hseg, e', d, p, hmem, hd.decode_eq, ?_, ?_⟩
    · rw [hd.wellFormed.visible_eq]
      exact hp
    · rw [w.row_newPosting hseg (hd.docId_lt p hp)] at hr
      exact hr
  · rintro ⟨seg, hseg, e, d, p, hmem, hdec, hp, hr⟩
    obtain ⟨i, hi⟩ := List.getElem?_of_mem hseg
    obtain ⟨d', hd⟩ := (w.sources seg hseg).entries r.term e hmem
    rw [hd.decode_eq] at hdec
    cases hdec
    rw [hd.wellFormed.visible_eq] at hp
    obtain ⟨e', he'⟩ := (w.mem_dictionary_iff r.term).2 ⟨seg, hseg, e, hmem⟩
    obtain ⟨d', hd', hperm, -⟩ := w.validEntry he'
    refine ⟨e', d', newPosting docmap segs i p, he', hd'.decode_eq, ?_, ?_⟩
    · rw [hd'.wellFormed.visible_eq]
      exact hperm.symm.subset
        ((mem_newPostings w.sources).2 ⟨i, seg, e, d, p, hi, hmem, hd, hp, rfl⟩)
    · rw [w.row_newPosting hi (hd.docId_lt p hp)]
      exact hr

/-- A document of the merged segment is a row of the document map. -/
theorem documents_eq :
    documents out = order.map fun r => (r.1, encodeFieldnorm r.2.1, r.2.2) := by
  apply List.ext_getElem
  · simp [documents, w.sections.numDocs_eq, w.renumbers.numbers.numDocs_eq]
  · intro n hn hn'
    have hlt : n < order.length := by simpa using hn'
    obtain ⟨hctid, hnorm, htenant⟩ := w.sections.document w.renumbers
      (List.getElem?_eq_getElem hlt)
    simp only [documents, List.getElem_map, List.getElem_range, hctid, hnorm, htenant]

/-- **The documents of the merged segment.** -/
theorem documents_perm : (documents out).Perm (segs.flatMap documents) := by
  rw [w.documents_eq]
  refine (w.renumbers.perm.map _).trans ?_
  rw [List.map_flatMap]
  have hsame : ∀ seg : StoredSegment Term,
      ((docRows seg).map fun r => (r.1, encodeFieldnorm r.2.1, r.2.2)) = documents seg := by
    intro seg
    unfold docRows documents docRow
    rw [List.map_map]
    apply List.map_congr_left
    intro n _
    simp only [Function.comp_apply, encodeFieldnorm_decodeFieldnorm]
  simp only [hsame]
  exact List.Perm.refl _

theorem documents_nodup : ((documents out).map Prod.fst).Nodup := by
  rw [w.documents_eq, List.map_map]
  have hrows : ((segs.flatMap docRows).map fun r => r.1).Nodup := by
    rw [List.map_flatMap]
    have hsame : (segs.flatMap fun seg => (docRows seg).map fun r => r.1) =
        segs.flatMap StoredSegment.ctids :=
      List.flatMap_congr fun seg hseg => docRows_ctids (w.renumbers.disjointed.length_eq seg hseg)
    rw [hsame]
    exact w.renumbers.disjointed.nodup
  exact (w.renumbers.perm.map fun r => r.1).symm.nodup hrows

theorem sorted : out.dictionary.Pairwise fun p q => p.1 < q.1 := by
  have hterms : (terms.map Prod.fst).Pairwise (· < ·) := List.pairwise_map.2 w.merged.increase
  rw [← w.dictionary_terms] at hterms
  exact List.pairwise_map.1 hterms

/-- **The merged segment is well-formed.** -/
theorem wellFormed (hterms : out.dictionary.length < 2 ^ 32) : out.WellFormed where
  numTerms_lt := hterms
  sorted := w.sorted
  entries := by
    intro term e he
    obtain ⟨d, hd, -⟩ := w.validEntry he
    exact ⟨d, hd⟩
  ctids_length := by
    rw [w.sections.ctids_eq, w.sections.numDocs_eq, w.renumbers.numbers.ctids_eq,
      w.renumbers.numbers.numDocs_eq, List.length_map]
  fieldnorms_length := by
    rw [w.sections.fieldnorms_eq, w.sections.numDocs_eq, w.renumbers.numbers.fieldnorms_eq,
      w.renumbers.numbers.numDocs_eq, List.length_map]
  tenantMap_length := by
    intro tids htids
    rw [w.sections.tenantMap_eq] at htids
    split at htids
    · rcases w.renumbers.numbers.tenantIds_eq with ⟨hnone, -⟩ | ⟨hsome, -⟩
      · rw [hnone] at htids
        cases htids
      · rw [hsome] at htids
        cases htids
        rw [w.sections.numDocs_eq, w.renumbers.numbers.numDocs_eq, List.length_map]
    · cases htids
  ctids_nodup := by
    rw [w.sections.ctids_eq, w.renumbers.numbers.ctids_eq]
    have hnodup := w.documents_nodup
    rw [w.documents_eq, List.map_map] at hnodup
    exact hnodup

end MergeRun

/-- Segments without terms count for nothing. -/
private theorem sum_mergeSources (chain : List (StoredSegment Term)) (term : Term) :
    ((mergeSources chain).map fun seg => docFreqOf seg term).sum =
      (chain.map fun seg => docFreqOf seg term).sum := by
  induction chain with
  | nil => rfl
  | cons seg rest ih =>
      unfold mergeSources at ih ⊢
      rw [List.map_cons, List.sum_cons, List.filter_cons]
      cases hdict : seg.dictionary with
      | nil => simpa [docFreqOf, hdict] using ih
      | cons e l => simpa using ih

omit [LinearOrder Term] in
private theorem sum_numDocs_mergeSources (chain : List (StoredSegment Term)) :
    ((mergeSources chain).map StoredSegment.numDocs).sum ≤
      (chain.map StoredSegment.numDocs).sum := by
  induction chain with
  | nil => exact Nat.le_refl _
  | cons seg rest ih =>
      unfold mergeSources at ih ⊢
      rw [List.map_cons, List.sum_cons, List.filter_cons]
      split
      · rw [List.map_cons, List.sum_cons]
        omega
      · omega

/-- A chain as the merge wants it. -/
structure Mergeable (chain : List (StoredSegment Term)) : Prop where
  wellFormed : ∀ seg ∈ chain, seg.WellFormed
  disjoint : chain.Pairwise fun a b => List.Disjoint a.ctids b.ctids
  numDocs_lt : (chain.map StoredSegment.numDocs).sum < 2 ^ 32
  blocks_le : ∀ term, ((chain.map fun seg => docFreqOf seg term).sum + (tpBlockSize - 1)) /
    tpBlockSize ≤ 65535

namespace Mergeable

variable {chain : List (StoredSegment Term)} (hchain : Mergeable chain)
include hchain

theorem mergeSources_wellFormed : ∀ seg ∈ mergeSources chain, seg.WellFormed :=
  fun seg hseg => hchain.wellFormed seg (List.mem_filter.1 hseg).1

theorem disjointed : Disjointed (mergeSources chain) := by
  refine ⟨fun seg hseg => (hchain.mergeSources_wellFormed seg hseg).ctids_length, ?_⟩
  rw [List.nodup_flatMap]
  exact ⟨fun seg hseg => (hchain.mergeSources_wellFormed seg hseg).ctids_nodup,
    hchain.disjoint.sublist List.filter_sublist⟩

/-- The term merge loop over the sources. -/
theorem mergeTerms_eq : ∃ terms,
    mergeTerms ((mergeSources chain).map MergeSource.start) = some terms ∧
      MergedKeys ((mergeSources chain).map StoredSegment.dictionary) terms := by
  refine mergeTerms_spec ?_ ?_ ?_
  · intro seg hseg
    simpa using (List.mem_filter.1 hseg).2
  · exact fun seg hseg => (hchain.mergeSources_wellFormed seg hseg).numTerms_lt
  · exact fun seg hseg => (hchain.mergeSources_wellFormed seg hseg).sorted

/-- A merge writes a segment unless there is no source. -/
theorem tpMergeLevelSegments_eq (hs : HashSeq) (qs : Qsort) (compress : Bool) :
    ∃ terms, MergedKeys ((mergeSources chain).map StoredSegment.dictionary) terms ∧
      tpMergeLevelSegments hs qs compress chain =
        if mergeSources chain = [] then .ok none
        else (writeMergedSegment hs qs compress terms
          ((mergeSources chain).map MergeSource.start)).map some := by
  obtain ⟨terms, hterms, hmerged⟩ := hchain.mergeTerms_eq
  refine ⟨terms, hmerged, ?_⟩
  have hinit : chain.filterMap mergeSourceInit = (mergeSources chain).map MergeSource.start :=
    filterMap_mergeSourceInit chain
  simp only [tpMergeLevelSegments, hinit]
  by_cases hnil : mergeSources chain = []
  · rw [if_pos hnil, hnil]
    rfl
  · have hne : terms ≠ [] := by
      obtain ⟨seg, hseg⟩ := List.exists_mem_of_ne_nil _ hnil
      have hdict : seg.dictionary ≠ [] := by simpa using (List.mem_filter.1 hseg).2
      obtain ⟨e, he⟩ := List.exists_mem_of_ne_nil _ hdict
      obtain ⟨refs, hrefs⟩ := (hmerged.mem_iff e.1).2
        ⟨seg.dictionary, List.mem_map_of_mem hseg, e.2, he⟩
      exact List.ne_nil_of_mem hrefs
    rw [if_neg (by simpa using hnil), if_neg hnil, hterms]
    show (if terms.isEmpty = true then _ else _) = _
    rw [if_neg (by simpa using hne)]
    cases writeMergedSegment hs qs compress terms ((mergeSources chain).map MergeSource.start) with
    | error e => rfl
    | ok out => rfl

theorem blocks_le_mergeSources (term : Term) :
    ((mergeSources chain).map fun seg => docFreqOf seg term).sum ≤ 65535 * tpBlockSize := by
  have hle := hchain.blocks_le term
  rw [sum_mergeSources]
  unfold tpBlockSize at hle ⊢
  omega

/-- A document map of the sources. -/
theorem renumbers {hs : HashSeq} {qs : Qsort} {docmap : DocMapBuilder}
    (h : buildMergedDocmap hs qs ((mergeSources chain).map MergeSource.start) = .ok docmap) :
    ∃ order, Renumbers (mergeSources chain) docmap order ∧ docmap.numDocs < 2 ^ 32 := by
  obtain ⟨order, hperm, hnumbers⟩ := buildMergedDocmap_spec
    (by simpa using hchain.disjointed.length_eq)
    (by rw [List.flatMap_map]; exact hchain.disjointed.nodup) hs qs h
  rw [List.flatMap_map] at hperm
  refine ⟨order, ⟨hchain.disjointed, hperm, hnumbers⟩, ?_⟩
  have hlen := hperm.length_eq
  simp only [List.length_flatMap, MergeSource.start_reader, length_docRows] at hlen
  rw [hnumbers.numDocs_eq, hlen]
  exact (sum_numDocs_mergeSources chain).trans_lt hchain.numDocs_lt

/-- What a merge ran on and what it wrote. -/
theorem mergeRun {hs : HashSeq} {qs : Qsort} {compress : Bool}
    {terms : List (Term × List (Nat × StoredEntry))} {out : StoredSegment Term}
    (hmerged : MergedKeys ((mergeSources chain).map StoredSegment.dictionary) terms)
    (h : writeMergedSegment hs qs compress terms ((mergeSources chain).map MergeSource.start) =
      .ok out) :
    ∃ docmap order, MergeRun qs compress (mergeSources chain) terms docmap order out := by
  obtain ⟨docmap, hdocmap, hdict, hsections⟩ := writeMergedSegment_inv h
  obtain ⟨order, hrenumbers, hnum⟩ := hchain.renumbers hdocmap
  exact ⟨docmap, order,
    { sources := hchain.mergeSources_wellFormed
      renumbers := hrenumbers
      numDocs_lt := hnum
      blocks_le := hchain.blocks_le_mergeSources
      merged := hmerged
      dictionary := hdict
      sections := hsections }⟩

/-- The segment a merge produces. -/
theorem conserves {hs : HashSeq} {qs : Qsort} {compress : Bool}
    {terms : List (Term × List (Nat × StoredEntry))} {out : StoredSegment Term}
    (hmerged : MergedKeys ((mergeSources chain).map StoredSegment.dictionary) terms)
    (h : writeMergedSegment hs qs compress terms ((mergeSources chain).map MergeSource.start) =
      .ok out) : Conserves chain out := by
  obtain ⟨docmap, order, w⟩ := hchain.mergeRun hmerged h
  exact
    { relation_eq := by
        rw [w.relation_eq]
        ext r
        constructor
        · rintro ⟨seg, hseg, hr⟩
          exact ⟨seg, (List.mem_filter.1 hseg).1, hr⟩
        · rintro ⟨seg, hseg, hr⟩
          obtain ⟨e, d, p, hmem, hrest⟩ := hr
          refine ⟨seg, List.mem_filter.2 ⟨hseg, ?_⟩, e, d, p, hmem, hrest⟩
          simpa using List.ne_nil_of_mem hmem
      sorted := w.sorted
      docFreq_eq := by
        intro term e he
        obtain ⟨d, -, -, hfreq, -⟩ := w.validEntry he
        rw [hfreq, sum_mergeSources]
      increasing := by
        intro term e he
        obtain ⟨d, hd, -, -⟩ := w.validEntry he
        refine ⟨d, hd.decode_eq, ?_⟩
        rw [hd.wellFormed.visible_eq]
        exact ⟨hd.docFreq_eq.symm, hd.wellFormed.sorted, hd.docId_lt⟩
      documents_perm := w.documents_perm
      ctids_nodup := w.documents_nodup
      wellFormed := w.wellFormed }

/-- A merge succeeds when the document map has room. -/
theorem writeMergedSegment_total (hs : HashSeq) (qs : Qsort) (compress : Bool)
    {terms : List (Term × List (Nat × StoredEntry))}
    (hmerged : MergedKeys ((mergeSources chain).map StoredSegment.dictionary) terms) :
    if ((mergeSources chain).map StoredSegment.numDocs).sum < uint32Max then
      ∃ out, writeMergedSegment hs qs compress terms
        ((mergeSources chain).map MergeSource.start) = .ok out
    else writeMergedSegment hs qs compress terms ((mergeSources chain).map MergeSource.start) =
      .error (.docmap .tooManyDocuments) := by
  have htotal := buildMergedDocmap_total (by simpa using hchain.disjointed.length_eq)
    (show (((mergeSources chain).map MergeSource.start).flatMap fun s => s.reader.ctids).Nodup by
      rw [List.flatMap_map]
      exact hchain.disjointed.nodup) hs qs
  rw [List.map_map] at htotal
  have hsame : (mergeSources chain).map ((fun s => s.reader.numDocs) ∘ MergeSource.start) =
      (mergeSources chain).map StoredSegment.numDocs := rfl
  rw [hsame] at htotal
  split at htotal
  case isTrue hroom =>
    obtain ⟨docmap, hdocmap⟩ := htotal
    obtain ⟨order, hrenumbers, hnum⟩ := hchain.renumbers hdocmap
    rw [if_pos hroom]
    have hwritten : ∀ t ∈ terms, ∃ entry, writeMergedTerm qs compress docmap
        ((mergeSources chain).map MergeSource.start) t = .ok entry := by
      rintro ⟨term, refs⟩ hterm
      rw [hmerged.refs_eq term refs hterm]
      obtain ⟨d, hd, -⟩ := writeMergedTerm_spec qs compress hchain.mergeSources_wellFormed
        hrenumbers hnum (hchain.blocks_le_mergeSources term)
      exact ⟨_, hd⟩
    obtain ⟨dictionary, hdict⟩ := exists_mapM_ok hwritten
    unfold writeMergedSegment
    rw [hdocmap]
    simp only [liftDocmap, bind, Except.bind]
    rw [hdict]
    exact ⟨_, rfl⟩
  case isFalse hroom =>
    rw [if_neg hroom, writeMergedSegment, htotal]
    rfl

end Mergeable

/-- **A merge conserves the index relation.**  Take any chain of well-formed segments with
pairwise disjoint CTIDs, fewer than `2 ^ 32` documents and at most 65535 blocks for each
merged term.  Every segment that the merge produces conserves the chain, with compression
or without.  It produces one when some segment has a term and the document map has room;
otherwise there is nothing to merge, or the merge fails with the error of the map. -/
theorem merge_conserves_relation (hs : HashSeq) (qs : Qsort) (compress : Bool)
    (chain : List (StoredSegment Term)) (hchain : Mergeable chain) :
    (∀ out, tpMergeLevelSegments hs qs compress chain = .ok (some out) → Conserves chain out) ∧
      (if mergeSources chain = [] then tpMergeLevelSegments hs qs compress chain = .ok none
        else if ((mergeSources chain).map StoredSegment.numDocs).sum < uint32Max then
          ∃ out, tpMergeLevelSegments hs qs compress chain = .ok (some out)
        else tpMergeLevelSegments hs qs compress chain =
          .error (.docmap .tooManyDocuments)) := by
  obtain ⟨terms, hmerged, heq⟩ := hchain.tpMergeLevelSegments_eq hs qs compress
  have htotal := hchain.writeMergedSegment_total hs qs compress hmerged
  rw [heq]
  by_cases hnil : mergeSources chain = []
  · simp [hnil]
  · rw [if_neg hnil, if_neg hnil]
    constructor
    · intro out hout
      cases hwrite : writeMergedSegment hs qs compress terms
          ((mergeSources chain).map MergeSource.start) with
      | error e =>
          rw [hwrite] at hout
          cases hout
      | ok out' =>
          rw [hwrite] at hout
          cases hout
          exact hchain.conserves hmerged hwrite
    · split at htotal
      case isTrue hroom =>
        obtain ⟨out, hout⟩ := htotal
        rw [if_pos hroom, hout]
        exact ⟨out, rfl⟩
      case isFalse hroom =>
        rw [if_neg hroom, htotal]
        rfl

end Segment

/-! ## Two segments -/

/-- An entry with one block. -/
private def oneBlock (lastDocId maxTf : Nat) (maxNorm : Fin 256) (ps : List BlockPosting) :
    DictEntry :=
  ⟨1, ps.length, [⟨⟨lastDocId, ps.length, maxTf, maxNorm, .none, 0⟩, ps⟩]⟩

/-- Two documents without tenants, in compressed blocks. -/
def compressedSegment : StoredSegment Nat where
  dictionary := [(1, storeEntry true (oneBlock 0 2 3 [⟨0, 2, 3⟩])),
    (2, storeEntry true (oneBlock 1 5 9 [⟨0, 1, 3⟩, ⟨1, 5, 9⟩]))]
  numDocs := 2
  fieldnorms := [3, 9]
  ctids := [⟨0, 1⟩, ⟨4, 1⟩]
  tenantMap := none
  hasTenantData := false

/-- A document of tenant 7 between them, in plain blocks. -/
def tenantSegment : StoredSegment Nat where
  dictionary := [(2, storeEntry false (oneBlock 0 4 6 [⟨0, 4, 6⟩])),
    (3, storeEntry false (oneBlock 0 1 6 [⟨0, 1, 6⟩]))]
  numDocs := 1
  fieldnorms := [6]
  ctids := [⟨2, 7⟩]
  tenantMap := some [7]
  hasTenantData := true

private theorem oneBlock_valid {seg : StoredSegment Nat} (compress : Bool) {lastDocId maxTf : Nat}
    {maxNorm : Fin 256} {ps : List BlockPosting} (hne : ps ≠ [])
    (hlast : ∀ p, ps.getLast? = some p → lastDocId = p.docId)
    (hsorted : ps.Pairwise fun p q => p.docId < q.docId) (hnum : seg.numDocs < 2 ^ 32)
    (hps : ∀ p ∈ ps, p.docId < seg.numDocs ∧ p.fieldnorm = seg.getFieldnorm p.docId ∧
      p.frequency < 2 ^ 16) :
    seg.ValidEntry (storeEntry compress (oneBlock lastDocId maxTf maxNorm ps))
      (oneBlock lastDocId maxTf maxNorm ps) := by
  have hpost : (oneBlock lastDocId maxTf maxNorm ps).postings = ps := by
    simp [oneBlock, DictEntry.postings]
  have hwf : (oneBlock lastDocId maxTf maxNorm ps).WellFormed :=
    { blockCount_eq := rfl
      block_ne_nil := by simpa [oneBlock] using hne
      docCount_eq := by simp [oneBlock]
      lastDocId_eq := by simpa [oneBlock] using hlast
      sorted := by simpa [oneBlock] using hsorted
      docId_lt := by
        intro p hp
        have hlt := (hps p (by simpa [oneBlock] using hp)).1
        unfold uint32Max
        omega }
  exact
    { decode_eq := decode_storeEntry compress hwf fun p hp =>
        ⟨((hps p (hpost ▸ hp)).1).trans hnum, (hps p (hpost ▸ hp)).2.2⟩
      wellFormed := hwf
      docFreq_eq := by rw [hpost]; rfl
      docId_lt := fun p hp => (hps p (hpost ▸ hp)).1
      fieldnorm_eq := fun p hp => (hps p (hpost ▸ hp)).2.1
      frequency_lt := fun p hp => (hps p (hpost ▸ hp)).2.2 }

private theorem compressedSegment_wellFormed : compressedSegment.WellFormed where
  numTerms_lt := by decide
  sorted := by simp [KeysIncrease, compressedSegment]
  entries := by
    intro term e he
    simp only [compressedSegment, List.mem_cons, Prod.mk.injEq, List.not_mem_nil, or_false] at he
    rcases he with ⟨-, rfl⟩ | ⟨-, rfl⟩
    · exact ⟨_, oneBlock_valid true (by simp) (by simp) (by simp) (by decide) (by decide)⟩
    · exact ⟨_, oneBlock_valid true (by simp) (by simp) (by simp) (by decide) (by decide)⟩
  ctids_length := rfl
  fieldnorms_length := rfl
  tenantMap_length := fun tids h => (nomatch h)
  ctids_nodup := by decide

private theorem tenantSegment_wellFormed : tenantSegment.WellFormed where
  numTerms_lt := by decide
  sorted := by simp [KeysIncrease, tenantSegment]
  entries := by
    intro term e he
    simp only [tenantSegment, List.mem_cons, Prod.mk.injEq, List.not_mem_nil, or_false] at he
    rcases he with ⟨-, rfl⟩ | ⟨-, rfl⟩
    · exact ⟨_, oneBlock_valid false (by simp) (by simp) (by simp) (by decide) (by decide)⟩
    · exact ⟨_, oneBlock_valid false (by simp) (by simp) (by simp) (by decide) (by decide)⟩
  ctids_length := rfl
  fieldnorms_length := rfl
  tenantMap_length := by
    intro tids h
    cases h
    rfl
  ctids_nodup := by decide

private theorem mergeable_example : Mergeable [compressedSegment, tenantSegment] where
  wellFormed := by
    intro seg hseg
    simp only [List.mem_cons, List.not_mem_nil, or_false] at hseg
    rcases hseg with rfl | rfl
    · exact compressedSegment_wellFormed
    · exact tenantSegment_wellFormed
  disjoint := by
    simp [compressedSegment, tenantSegment]
  numDocs_lt := by decide
  blocks_le := by
    intro term
    have hle : ∀ seg ∈ [compressedSegment, tenantSegment], docFreqOf seg term ≤ 2 := by
      intro seg hseg
      unfold docFreqOf
      cases hlook : seg.dictionary.lookup term with
      | none => exact Nat.zero_le _
      | some e =>
          have hmem : e ∈ seg.dictionary.map Prod.snd := by
            obtain ⟨l, l', heq, -⟩ := List.lookup_eq_some_iff.1 hlook
            simp [heq]
          simp only [List.mem_cons, List.not_mem_nil, or_false] at hseg
          rcases hseg with rfl | rfl
          · simp only [compressedSegment, List.map_cons, List.map_nil, List.mem_cons,
              List.not_mem_nil, or_false] at hmem
            rcases hmem with rfl | rfl
            · decide
            · decide
          · simp only [tenantSegment, List.map_cons, List.map_nil, List.mem_cons,
              List.not_mem_nil, or_false] at hmem
            rcases hmem with rfl | rfl
            · decide
            · decide
    have h₁ := hle compressedSegment (by simp)
    have h₂ := hle tenantSegment (by simp)
    simp only [List.map_cons, List.map_nil, List.sum_cons, List.sum_nil]
    unfold tpBlockSize
    omega

theorem merge_conserves_relation_tenantSegment : ∃ out,
    tpMergeLevelSegments insertionHashSeq insertionQsort true [compressedSegment, tenantSegment] =
      .ok (some out) ∧ Conserves [compressedSegment, tenantSegment] out := by
  obtain ⟨hall, hrun⟩ := merge_conserves_relation insertionHashSeq insertionQsort true
    [compressedSegment, tenantSegment] mergeable_example
  have hsources : mergeSources [compressedSegment, tenantSegment] =
      [compressedSegment, tenantSegment] := rfl
  rw [hsources, if_neg (by simp), if_pos (by decide)] at hrun
  obtain ⟨out, hout⟩ := hrun
  exact ⟨out, hout, hall out hout⟩

end PgTextsearch.Segment.Merge
