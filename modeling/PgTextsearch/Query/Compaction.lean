import PgTextsearch.Query.SegmentRows
import PgTextsearch.Segment.LevelChains
import PgTextsearch.Segment.MergeCorrect

/-!
# Compaction under the search (`segment/merge.c`, `query/score.c`)

A compaction replaces the segments of a level by one segment of the next level, and goes on
there if that level has become full.  The stored segments are the readers' segments with their
posting blocks still packed; what a search reads of them are the rows of their postings, and
these a merge leaves as they are.

## Main results

* `mergedRows_perm` — a merged segment has the rows of its sources.
* `Compacted.trans`, `mergeLevel_compacted` — one merge, and merges one after the other.
* `search_unchanged_by_compaction` — a query before and after a compaction.
-/

namespace PgTextsearch.Query

open PgTextsearch.Postgres PgTextsearch.Segment PgTextsearch.Segment.Merge PgTextsearch.Verified

section Stored

variable {Term : Type}

/-! ## A stored segment as a reader sees it -/

/-- `tp_segment_open`: the segment with root block `s.1`. -/
def openStored (s : Nat × StoredSegment Term) : SegmentReader Term where
  rootBlock := s.1
  dictionary := s.2.dictionary.filterMap fun c => c.2.decode.map fun d => (c.1, d)
  numDocs := s.2.numDocs
  ctids := s.2.ctids
  tenantIds := s.2.loadTenantIds

theorem mem_openStored_dictionary {s : Nat × StoredSegment Term} {term : Term} {d : DictEntry} :
    (term, d) ∈ (openStored s).dictionary ↔
      ∃ e, (term, e) ∈ s.2.dictionary ∧ e.decode = some d := by
  simp only [openStored, List.mem_filterMap, Option.map_eq_some_iff, Prod.mk.injEq]
  constructor
  · rintro ⟨⟨t, e⟩, hmem, d', hdec, rfl, rfl⟩
    exact ⟨e, hmem, hdec⟩
  · rintro ⟨e, hmem, hdec⟩
    exact ⟨(term, e), hmem, d, hdec, rfl, rfl⟩

variable [LinearOrder Term]

/-- A term is found with what its stored entry decodes to. -/
theorem findTerm_openStored {s : Nat × StoredSegment Term} (hseg : s.2.WellFormed) {term : Term}
    {d : DictEntry} :
    (openStored s).findTerm term = some d ↔
      ∃ e, (term, e) ∈ s.2.dictionary ∧ s.2.ValidEntry e d := by
  have hkeys : ((openStored s).dictionary.map Prod.fst).Nodup := by
    rw [List.nodup_iff_pairwise_ne, List.pairwise_map, openStored, List.pairwise_filterMap]
    refine hseg.sorted.imp ?_
    rintro c c' hlt b hb b' hb'
    obtain ⟨d, -, rfl⟩ := Option.map_eq_some_iff.1 hb
    obtain ⟨d', -, rfl⟩ := Option.map_eq_some_iff.1 hb'
    exact hlt.ne
  have hfound : (openStored s).findTerm term = some d ↔ (term, d) ∈ (openStored s).dictionary := by
    constructor
    · intro hfind
      obtain ⟨c, hc, rfl⟩ := Option.map_eq_some_iff.1 hfind
      have hterm : c.1 = term := by simpa using List.find?_some hc
      rw [← hterm]
      exact List.mem_of_find?_eq_some hc
    · intro hmem
      rw [SegmentReader.findTerm, DistinctKeys.find?_eq_some hkeys hmem rfl]
      rfl
  rw [hfound, mem_openStored_dictionary]
  constructor
  · rintro ⟨e, hmem, hdec⟩
    obtain ⟨d', hd'⟩ := hseg.entries term e hmem
    rw [hd'.decode_eq] at hdec
    cases hdec
    exact ⟨e, hmem, hd'⟩
  · rintro ⟨e, hmem, hd⟩
    exact ⟨e, hmem, hd.decode_eq⟩

/-- The postings of a term a reader finds, with the entry they are from. -/
theorem mem_termRows_openStored {s : Nat × StoredSegment Term} (hseg : s.2.WellFormed)
    {term : Term} {row : PostingRow} :
    row ∈ termRows (openStored s) term ↔
      ∃ r ∈ s.2.relation, r.term = term ∧ row = ⟨r.ctid, r.frequency, r.fieldnorm⟩ := by
  rw [termRows, List.mem_map]
  constructor
  · rintro ⟨p, hp, rfl⟩
    obtain ⟨d, hfind, hpd⟩ := mem_termPostings hp
    obtain ⟨e, hmem, hd⟩ := (findTerm_openStored hseg).1 hfind
    refine ⟨s.2.row term p, ⟨e, d, p, hmem, hd.decode_eq, ?_, rfl⟩, rfl, rfl⟩
    rw [hd.wellFormed.visible_eq]
    exact hpd
  · rintro ⟨r, ⟨e, d, p, hmem, hdec, hp, hr⟩, rfl, rfl⟩
    obtain ⟨d', hd⟩ := hseg.entries r.term e hmem
    rw [hd.decode_eq] at hdec
    cases hdec
    rw [hd.wellFormed.visible_eq] at hp
    refine ⟨p, ?_, ?_⟩
    · rw [(findTerm_openStored hseg).2 ⟨e, hmem, hd⟩]
      exact hp
    · rw [hr]
      rfl

/-- The rows of a term have different CTIDs, all of the segment. -/
theorem termRows_openStored_ctids {s : Nat × StoredSegment Term} (hseg : s.2.WellFormed)
    (term : Term) :
    ((termRows (openStored s) term).map PostingRow.ctid).Nodup ∧
      ∀ row ∈ termRows (openStored s) term, row.ctid ∈ s.2.ctids := by
  cases hfind : (openStored s).findTerm term with
  | none => simp [termRows, hfind]
  | some d =>
      obtain ⟨e, -, hd⟩ := (findTerm_openStored hseg).1 hfind
      have hlt : ∀ p ∈ d.postings, p.docId < (openStored s).ctids.length := fun p hp => by
        rw [openStored, hseg.ctids_length]
        exact hd.docId_lt p hp
      simp only [termRows, hfind, Option.map_some, Option.getD_some, List.map_map]
      constructor
      · rw [List.nodup_iff_pairwise_ne, List.pairwise_map]
        have hsorted : d.postings.Pairwise fun p q => p.docId < q.docId := hd.wellFormed.sorted
        refine hsorted.imp_of_mem ?_
        intro p q hp hq hless heq
        have hget := getElem?_lookupCtid (hlt p hp)
        have hget' := getElem?_lookupCtid (hlt q hq)
        replace heq : tpSegmentLookupCtid (openStored s) p.docId =
          tpSegmentLookupCtid (openStored s) q.docId := heq
        rw [heq] at hget
        have hsame := (List.getElem?_inj (hlt p hp) hseg.ctids_nodup).1 (hget.trans hget'.symm)
        exact absurd hsame hless.ne
      · intro row hrow
        obtain ⟨p, hp, rfl⟩ := List.mem_map.1 hrow
        exact List.mem_of_getElem? (getElem?_lookupCtid (hlt p hp))

/-! ## What a merge writes -/

/-- The rows of a term in a chain of segments. -/
def chainRows (chain : List (Nat × StoredSegment Term)) (term : Term) : List PostingRow :=
  chain.flatMap fun s => termRows (openStored s) term

theorem nodup_chainRows {chain : List (Nat × StoredSegment Term)}
    (hchain : Mergeable (chain.map Prod.snd)) (term : Term) : (chainRows chain term).Nodup := by
  have hwf : ∀ s ∈ chain, s.2.WellFormed := fun s hs => hchain.wellFormed s.2 (List.mem_map_of_mem hs)
  rw [chainRows, List.nodup_flatMap]
  constructor
  · intro s hs
    exact List.Nodup.of_map _ (termRows_openStored_ctids (hwf s hs) term).1
  · refine (List.pairwise_map.1 hchain.disjoint).imp_of_mem ?_
    intro s s' hs hs' hdisjoint row hrow hrow'
    exact hdisjoint ((termRows_openStored_ctids (hwf s hs) term).2 row hrow)
      ((termRows_openStored_ctids (hwf s' hs') term).2 row hrow')

/-- **A merged segment has the rows of its sources.** -/
theorem mergedRows_perm {chain : List (Nat × StoredSegment Term)}
    (hchain : Mergeable (chain.map Prod.snd)) {root : Nat} {out : StoredSegment Term}
    (hconserves : Conserves (chain.map Prod.snd) out) (hout : out.WellFormed) (term : Term) :
    (termRows (openStored (root, out)) term).Perm (chainRows chain term) := by
  have hwf : ∀ s ∈ chain, s.2.WellFormed := fun s hs => hchain.wellFormed s.2 (List.mem_map_of_mem hs)
  rw [List.perm_ext_iff_of_nodup
    (List.Nodup.of_map _ (termRows_openStored_ctids (s := (root, out)) hout term).1)
    (nodup_chainRows hchain term)]
  intro row
  rw [mem_termRows_openStored (s := (root, out)) hout, chainRows, List.mem_flatMap]
  simp only [hconserves.relation_eq, Set.mem_ofPred_eq]
  constructor
  · rintro ⟨r, ⟨seg, hseg, hr⟩, hterm, hrow⟩
    obtain ⟨s, hs, rfl⟩ := List.mem_map.1 hseg
    exact ⟨s, hs, (mem_termRows_openStored (hwf s hs)).2 ⟨r, hr, hterm, hrow⟩⟩
  · rintro ⟨s, hs, hrow⟩
    obtain ⟨r, hr, hterm, hrow⟩ := (mem_termRows_openStored (hwf s hs)).1 hrow
    exact ⟨r, ⟨s.2, List.mem_map_of_mem hs, hr⟩, hterm, hrow⟩

/-- What else the later steps need of a merged segment: it is not larger than its sources, and
its blocks carry their maxima. -/
structure Merged (segs : List (StoredSegment Term)) (out : StoredSegment Term) : Prop where
  conserves : Conserves segs out
  wellFormed : out.WellFormed
  ctids_perm : out.ctids.Perm ((mergeSources segs).flatMap StoredSegment.ctids)
  numDocs_le : out.numDocs ≤ (segs.map StoredSegment.numDocs).sum
  docFreq_le : ∀ term, docFreqOf out term ≤ (segs.map fun seg => docFreqOf seg term).sum
  terms_le : out.dictionary.length ≤ (segs.map fun seg => seg.dictionary.length).sum
  blockStats : ∀ term e d, (term, e) ∈ out.dictionary → out.ValidEntry e d →
    ∀ blk ∈ d.blocks, HasBlockStats blk

omit [LinearOrder Term] in
theorem documents_ctids {seg : StoredSegment Term} (hlen : seg.ctids.length = seg.numDocs) :
    (documents seg).map Prod.fst = seg.ctids := by
  rw [← docRows_ctids hlen, documents, docRows, List.map_map, List.map_map]
  rfl

omit [LinearOrder Term] in
theorem sum_mergeSources_le (segs : List (StoredSegment Term)) (f : StoredSegment Term → Nat) :
    ((mergeSources segs).map f).sum ≤ (segs.map f).sum :=
  ((List.filter_sublist (l := segs)).map f).sum_le_sum fun _ _ => Nat.zero_le _

/-- **What a merge writes.** -/
theorem merged_of_merge {hs : HashSeq} {qs : Qsort} {compress : Bool}
    {segs : List (StoredSegment Term)} (hsegs : Mergeable segs)
    (hterms : (segs.map fun seg => seg.dictionary.length).sum < 2 ^ 32)
    {out : StoredSegment Term} (h : tpMergeLevelSegments hs qs compress segs = .ok (some out)) :
    Merged segs out := by
  obtain ⟨terms, hmerged, heq⟩ := hsegs.tpMergeLevelSegments_eq hs qs compress
  rw [heq] at h
  split at h
  · cases h
  cases hwrite : writeMergedSegment hs qs compress terms
      ((mergeSources segs).map MergeSource.start) with
  | error e =>
      rw [hwrite] at h
      cases h
  | ok out' =>
      rw [hwrite] at h
      cases h
      have hconserves := hsegs.conserves hmerged hwrite
      obtain ⟨docmap, order, w⟩ := hsegs.mergeRun hmerged hwrite
      have hlen : out.dictionary.length ≤ (segs.map fun seg => seg.dictionary.length).sum := by
        have hkeys : (out.dictionary.map Prod.fst).Nodup := by
          rw [List.nodup_iff_pairwise_ne, List.pairwise_map]
          exact hconserves.sorted.imp fun hlt => hlt.ne
        have hsub : out.dictionary.map Prod.fst ⊆
            (mergeSources segs).flatMap fun seg => seg.dictionary.map Prod.fst := by
          intro term hterm
          obtain ⟨⟨_, e⟩, he, rfl⟩ := List.mem_map.1 hterm
          obtain ⟨seg, hseg, e', he'⟩ := (w.mem_dictionary_iff _).1 ⟨e, he⟩
          exact List.mem_flatMap.2 ⟨seg, hseg, List.mem_map.2 ⟨_, he', rfl⟩⟩
        have hle := (hkeys.subperm hsub).length_le
        simp only [List.length_map, List.length_flatMap] at hle
        exact hle.trans (sum_mergeSources_le segs fun seg => seg.dictionary.length)
      have hwf := hconserves.wellFormed (hlen.trans_lt hterms)
      have hctids : out.ctids.Perm ((mergeSources segs).flatMap StoredSegment.ctids) := by
        have hperm := hconserves.documents_perm.map Prod.fst
        rw [documents_ctids hwf.ctids_length, List.map_flatMap] at hperm
        rw [List.flatMap_congr fun seg hseg =>
          (documents_ctids (hsegs.mergeSources_wellFormed seg hseg).ctids_length).symm]
        exact hperm
      exact
        { conserves := hconserves
          wellFormed := hwf
          ctids_perm := hctids
          numDocs_le := by
            rw [← hwf.ctids_length, hctids.length_eq, List.length_flatMap,
              List.map_congr_left fun seg hseg =>
                (hsegs.mergeSources_wellFormed seg hseg).ctids_length]
            exact sum_mergeSources_le segs StoredSegment.numDocs
          docFreq_le := by
            intro term
            unfold docFreqOf
            cases hlook : out.dictionary.lookup term with
            | none => exact Nat.zero_le _
            | some e =>
                exact (hconserves.docFreq_eq term e (hwf.sorted.lookup_eq_some_iff.1 hlook)).le
          terms_le := hlen
          blockStats := by
            intro term e d he hd
            obtain ⟨d', hd', -, -, hstats⟩ := w.validEntry he
            have hsame := hd.decode_eq.symm.trans hd'.decode_eq
            cases hsame
            exact hstats }

/-! ## An index of stored segments -/

/-- An index as a compaction sees it: the chain of every level from its head, with the root
blocks of the segments. -/
structure StoredIndex (Term : Type) where
  memtable : Memtable Term
  levels : Nat → List (Nat × StoredSegment Term)
  totalDocs : Nat
  totalLen : Nat
  options : RankOptions

namespace StoredIndex

omit [LinearOrder Term]

/-- The segments in the order a query visits them. -/
def stored (ix : StoredIndex Term) : List (Nat × StoredSegment Term) :=
  (List.range tpMaxLevels).flatMap ix.levels

/-- What a query reads of the index. -/
def view (ix : StoredIndex Term) : IndexView Term where
  memtable := ix.memtable
  levels := (List.range tpMaxLevels).map fun level => (ix.levels level).map openStored
  totalDocs := ix.totalDocs
  totalLen := ix.totalLen
  options := ix.options

/-- The metapage update of a merge. -/
def linkMerged (ix : StoredIndex Term) (level : Nat) (merged : Nat × StoredSegment Term) :
    StoredIndex Term :=
  { ix with
    levels := Function.update (Function.update ix.levels level []) (level + 1)
      (merged :: ix.levels (level + 1)) }

/-- The segments that are not of a level. -/
def others (ix : StoredIndex Term) (level : Nat) : List (Nat × StoredSegment Term) :=
  (List.range tpMaxLevels).flatMap (Function.update ix.levels level [])

theorem segments_view (ix : StoredIndex Term) : ix.view.segments = ix.stored.map openStored := by
  rw [IndexView.segments, view, stored, ← List.flatMap_def, List.map_flatMap]

/-- What one level of an index is replaced by takes its place among all segments. -/
theorem flatMap_update_perm {α : Type} (f : Nat → List α) {level : Nat} (xs : List α)
    {levels : List Nat} (hnodup : levels.Nodup) (hlevel : level ∈ levels) :
    (levels.flatMap (Function.update f level xs) ++ f level).Perm (xs ++ levels.flatMap f) := by
  induction levels with
  | nil => exact absurd hlevel List.not_mem_nil
  | cons l rest ih =>
      obtain ⟨hnot, hrest⟩ := List.nodup_cons.1 hnodup
      rw [List.flatMap_cons, List.flatMap_cons]
      by_cases hl : level = l
      · subst hl
        have hsame : rest.flatMap (Function.update f level xs) = rest.flatMap f :=
          List.flatMap_congr fun l hl => Function.update_of_ne (ne_of_mem_of_not_mem hl hnot) _ _
        rw [Function.update_self, hsame, List.append_assoc]
        exact List.perm_append_comm.append_left xs
      · have hmem := (List.mem_cons.1 hlevel).resolve_left hl
        rw [Function.update_of_ne (Ne.symm hl), List.append_assoc]
        refine ((ih hrest hmem).append_left (f l)).trans ?_
        rw [← List.append_assoc, ← List.append_assoc]
        exact List.perm_append_comm.append_right _

theorem stored_perm (ix : StoredIndex Term) {level : Nat} (hlevel : level < tpMaxLevels) :
    ix.stored.Perm (ix.levels level ++ ix.others level) :=
  ((flatMap_update_perm ix.levels [] List.nodup_range (List.mem_range.2 hlevel)).symm).trans
    List.perm_append_comm

theorem stored_linkMerged_perm (ix : StoredIndex Term) {level : Nat}
    (hlevel : level + 1 < tpMaxLevels) (merged : Nat × StoredSegment Term) :
    (ix.linkMerged level merged).stored.Perm (merged :: ix.others level) := by
  have hnext : Function.update ix.levels level [] (level + 1) = ix.levels (level + 1) :=
    Function.update_of_ne (by omega) _ _
  have hperm := flatMap_update_perm (Function.update ix.levels level [])
    (merged :: ix.levels (level + 1)) List.nodup_range (List.mem_range.2 hlevel)
  rw [hnext, List.cons_append] at hperm
  refine (List.perm_append_right_iff (ix.levels (level + 1))).1 (hperm.trans ?_)
  exact List.perm_append_comm.cons merged

end StoredIndex

/-- An index state that queries and compactions can rely on. -/
structure StoredIndex.WellFormed (ix : StoredIndex Term) : Prop where
  mergeable : Mergeable (ix.stored.map Prod.snd)
  numDocs_lt : ((ix.stored.map Prod.snd).map StoredSegment.numDocs).sum < uint32Max
  terms_lt : ((ix.stored.map Prod.snd).map fun seg => seg.dictionary.length).sum < 2 ^ 32
  view : ix.view.WellFormed

/-! ## One merge -/

theorem mergeable_perm {segs segs' : List (StoredSegment Term)} (h : Mergeable segs)
    (hperm : segs.Perm segs') : Mergeable segs' where
  wellFormed := fun seg hseg => h.wellFormed seg (hperm.symm.subset hseg)
  disjoint := (hperm.pairwise_iff fun h => h.symm).1 h.disjoint
  numDocs_lt := (hperm.map StoredSegment.numDocs).sum_eq ▸ h.numDocs_lt
  blocks_le := fun term => (hperm.map fun seg => docFreqOf seg term).sum_eq ▸ h.blocks_le term

theorem mergeable_of_append {segs rest : List (StoredSegment Term)}
    (h : Mergeable (segs ++ rest)) : Mergeable segs where
  wellFormed := fun seg hseg => h.wellFormed seg (List.mem_append_left _ hseg)
  disjoint := (List.pairwise_append.1 h.disjoint).1
  numDocs_lt := by
    have hlt := h.numDocs_lt
    rw [List.map_append, List.sum_append] at hlt
    omega
  blocks_le := by
    intro term
    have hle := h.blocks_le term
    rw [List.map_append, List.sum_append] at hle
    unfold tpBlockSize at hle ⊢
    omega

/-- The merged segment takes the place of its sources. -/
theorem mergeable_replace {segs rest : List (StoredSegment Term)} {out : StoredSegment Term}
    (h : Mergeable (segs ++ rest)) (hmerged : Merged segs out) : Mergeable (out :: rest) where
  wellFormed := by
    intro seg hseg
    cases List.mem_cons.1 hseg with
    | inl hout => exact hout ▸ hmerged.wellFormed
    | inr hrest => exact h.wellFormed seg (List.mem_append_right _ hrest)
  disjoint := by
    obtain ⟨-, hrest, hacross⟩ := List.pairwise_append.1 h.disjoint
    refine List.pairwise_cons.2 ⟨?_, hrest⟩
    intro seg hseg ctid hctid hin
    obtain ⟨source, hsource, hmem⟩ := List.mem_flatMap.1 (hmerged.ctids_perm.subset hctid)
    exact hacross source (List.mem_filter.1 hsource).1 seg hseg hmem hin
  numDocs_lt := by
    have hlt := h.numDocs_lt
    have hle := hmerged.numDocs_le
    rw [List.map_append, List.sum_append] at hlt
    rw [List.map_cons, List.sum_cons]
    omega
  blocks_le := by
    intro term
    have hblocks := h.blocks_le term
    have hle := hmerged.docFreq_le term
    rw [List.map_append, List.sum_append] at hblocks
    rw [List.map_cons, List.sum_cons]
    unfold tpBlockSize at hblocks ⊢
    omega

/-- An entry without empty postings whose blocks carry their maxima can be searched. -/
theorem usable_of_validEntry {s : Nat × StoredSegment Term} (hseg : s.2.WellFormed)
    {e : StoredEntry} {d : DictEntry} (hd : s.2.ValidEntry e d)
    (hpositive : ∀ p ∈ d.postings, 0 < p.frequency)
    (hstats : ∀ blk ∈ d.blocks, HasBlockStats blk) : EntryUsable (openStored s) d where
  wellFormed := hd.wellFormed
  docFreq_eq := by
    rw [← hd.docFreq_eq]
    obtain ⟨blocks, -, rfl⟩ := Option.map_eq_some_iff.1 hd.decode_eq
    rfl
  frequency_pos := hpositive
  docId_lt := fun p hp => hseg.ctids_length ▸ hd.docId_lt p hp
  positive := by
    intro blk hblk
    obtain ⟨p, hp, heq⟩ := (hstats blk hblk).tf_attained
    exact heq ▸ hpositive p (List.mem_flatMap.2 ⟨blk, hblk, hp⟩)

/-- The entries of a merged segment are as usable as those of its sources. -/
theorem Merged.usable {sources : List (Nat × StoredSegment Term)} {out : StoredSegment Term}
    (hsources : Mergeable (sources.map Prod.snd)) (hmerged : Merged (sources.map Prod.snd) out)
    (husable : ∀ s ∈ sources, ∀ term d, (openStored s).findTerm term = some d →
      EntryUsable (openStored s) d)
    {root : Nat} {term : Term} {d : DictEntry}
    (hfind : (openStored (root, out)).findTerm term = some d) :
    EntryUsable (openStored (root, out)) d := by
  obtain ⟨e, hmem, hd⟩ := (findTerm_openStored (s := (root, out)) hmerged.wellFormed).1 hfind
  refine usable_of_validEntry (s := (root, out)) hmerged.wellFormed hd ?_
    (hmerged.blockStats term e d hmem hd)
  intro p hp
  have hrow : (⟨tpSegmentLookupCtid (openStored (root, out)) p.docId, p.frequency,
      p.fieldnorm⟩ : PostingRow) ∈ termRows (openStored (root, out)) term := by
    rw [termRows, hfind]
    exact List.mem_map.2 ⟨p, hp, rfl⟩
  obtain ⟨s, hs, hin⟩ := List.mem_flatMap.1 ((mergedRows_perm hsources hmerged.conserves
    hmerged.wellFormed term).subset hrow)
  obtain ⟨p', hp', heq⟩ := List.mem_map.1 hin
  obtain ⟨d', hfind', hpd'⟩ := mem_termPostings hp'
  have hfreq : p'.frequency = p.frequency := congrArg PostingRow.frequency heq
  exact hfreq ▸ (husable s hs term d' hfind').frequency_pos p' hpd'

/-- An index before and after compactions: still well-formed, with the same rows, of documents
that were there before and in segments that are not larger. -/
structure Compacted (ix ix' : StoredIndex Term) : Prop where
  wellFormed : ix'.WellFormed
  sameRows : SameRows ix.view ix'.view
  ctids : ∀ s ∈ ix'.stored, ∀ ctid ∈ s.2.ctids, ∃ s' ∈ ix.stored, ctid ∈ s'.2.ctids
  numDocs_le : ((ix'.stored.map Prod.snd).map StoredSegment.numDocs).sum ≤
    ((ix.stored.map Prod.snd).map StoredSegment.numDocs).sum
  terms_le : ((ix'.stored.map Prod.snd).map fun seg => seg.dictionary.length).sum ≤
    ((ix.stored.map Prod.snd).map fun seg => seg.dictionary.length).sum

namespace Compacted

variable {ix ix' ix'' : StoredIndex Term}

theorem refl (hwf : ix.WellFormed) : Compacted ix ix :=
  ⟨hwf, SameRows.refl ix.view, fun s hs _ hctid => ⟨s, hs, hctid⟩, le_refl _, le_refl _⟩

theorem trans (h : Compacted ix ix') (h' : Compacted ix' ix'') : Compacted ix ix'' where
  wellFormed := h'.wellFormed
  sameRows := h.sameRows.trans h'.sameRows
  ctids := by
    intro s hs ctid hctid
    obtain ⟨s', hs', hctid'⟩ := h'.ctids s hs ctid hctid
    exact h.ctids s' hs' ctid hctid'
  numDocs_le := h'.numDocs_le.trans h.numDocs_le
  terms_le := h'.terms_le.trans h.terms_le

end Compacted

section Link

variable {ix : StoredIndex Term} {level root : Nat} {out : StoredSegment Term}

theorem segmentRows_stored (ix : StoredIndex Term) (term : Term) :
    segmentRows ix.view term = chainRows ix.stored term := by
  rw [segmentRows, StoredIndex.segments_view, List.flatMap_map]
  rfl

/-- The segments of an index, those of one level in front. -/
theorem StoredIndex.WellFormed.mergeable_level (hwf : ix.WellFormed) (hlevel : level < tpMaxLevels) :
    Mergeable ((ix.levels level).map Prod.snd ++ (ix.others level).map Prod.snd) := by
  rw [← List.map_append]
  exact mergeable_perm hwf.mergeable ((ix.stored_perm hlevel).map Prod.snd)

theorem StoredIndex.WellFormed.usable (hwf : ix.WellFormed) {s : Nat × StoredSegment Term}
    (hs : s ∈ ix.stored) {term : Term} {d : DictEntry}
    (hfind : (openStored s).findTerm term = some d) : EntryUsable (openStored s) d :=
  hwf.view.usable (openStored s) (by rw [ix.segments_view]; exact List.mem_map_of_mem hs) term d
    hfind

/-- The rows are the same after the metapage update. -/
theorem linkMerged_sameRows (root : Nat) (hwf : ix.WellFormed) (hlevel : level + 1 < tpMaxLevels)
    (hmerged : Merged ((ix.levels level).map Prod.snd) out) :
    SameRows ix.view (ix.linkMerged level (root, out)).view where
  memtable := rfl
  totalDocs := rfl
  totalLen := rfl
  options := rfl
  rows := by
    intro term
    have hbefore := ix.stored_perm (show level < tpMaxLevels by omega)
    have hafter := ix.stored_linkMerged_perm hlevel (root, out)
    have hsources := mergeable_of_append (hwf.mergeable_level (show level < tpMaxLevels by omega))
    rw [segmentRows_stored, segmentRows_stored]
    refine (hbefore.flatMap_right _).trans (List.Perm.trans ?_ (hafter.flatMap_right _).symm)
    rw [List.flatMap_append, List.flatMap_cons]
    exact ((mergedRows_perm hsources hmerged.conserves hmerged.wellFormed term).symm).append_right _

theorem linkMerged_usable (hwf : ix.WellFormed) (hlevel : level + 1 < tpMaxLevels)
    (hmerged : Merged ((ix.levels level).map Prod.snd) out) {s : Nat × StoredSegment Term}
    (hs : s ∈ (ix.linkMerged level (root, out)).stored) {term : Term} {d : DictEntry}
    (hfind : (openStored s).findTerm term = some d) : EntryUsable (openStored s) d := by
  have hbefore := ix.stored_perm (show level < tpMaxLevels by omega)
  cases List.mem_cons.1 ((ix.stored_linkMerged_perm hlevel (root, out)).subset hs) with
  | inl hout =>
      subst hout
      refine Merged.usable (mergeable_of_append (hwf.mergeable_level (by omega))) hmerged ?_ hfind
      intro s hs term d hfind
      exact hwf.usable (hbefore.symm.subset (List.mem_append_left _ hs)) hfind
  | inr hrest => exact hwf.usable (hbefore.symm.subset (List.mem_append_right _ hrest)) hfind

theorem linkMerged_mergeable (root : Nat) (hwf : ix.WellFormed) (hlevel : level + 1 < tpMaxLevels)
    (hmerged : Merged ((ix.levels level).map Prod.snd) out) :
    Mergeable ((ix.linkMerged level (root, out)).stored.map Prod.snd) :=
  mergeable_perm (mergeable_replace (hwf.mergeable_level (by omega)) hmerged)
    ((ix.stored_linkMerged_perm hlevel (root, out)).map Prod.snd).symm

omit [LinearOrder Term] in
/-- What the segments of an index sum up to does not grow if the merged segment has no more of
it than its sources. -/
theorem sum_linkMerged_le (ix : StoredIndex Term) (root : Nat) (hlevel : level + 1 < tpMaxLevels)
    (f : StoredSegment Term → Nat)
    (hle : f out ≤ (((ix.levels level).map Prod.snd).map f).sum) :
    (((ix.linkMerged level (root, out)).stored.map Prod.snd).map f).sum ≤
      ((ix.stored.map Prod.snd).map f).sum := by
  have hbefore := ((ix.stored_perm (show level < tpMaxLevels by omega)).map Prod.snd).map f
  have hafter := ((ix.stored_linkMerged_perm hlevel (root, out)).map Prod.snd).map f
  rw [hbefore.sum_eq, hafter.sum_eq]
  simp only [List.map_append, List.sum_append, List.map_cons, List.sum_cons]
  exact Nat.add_le_add_right hle _

/-- The CTIDs of the merged segment are those of segments that were there before. -/
theorem mem_ctids_linkMerged (hlevel : level + 1 < tpMaxLevels)
    (hmerged : Merged ((ix.levels level).map Prod.snd) out) {s : Nat × StoredSegment Term}
    (hs : s ∈ (ix.linkMerged level (root, out)).stored) {ctid : ItemPointer}
    (hctid : ctid ∈ s.2.ctids) : ∃ s' ∈ ix.stored, ctid ∈ s'.2.ctids := by
  have hbefore := ix.stored_perm (show level < tpMaxLevels by omega)
  cases List.mem_cons.1 ((ix.stored_linkMerged_perm hlevel (root, out)).subset hs) with
  | inl hout =>
      subst hout
      obtain ⟨source, hsource, hmem⟩ := List.mem_flatMap.1 (hmerged.ctids_perm.subset hctid)
      obtain ⟨s', hs', rfl⟩ := List.mem_map.1 (List.mem_filter.1 hsource).1
      exact ⟨s', hbefore.symm.subset (List.mem_append_left _ hs'), hmem⟩
  | inr hrest => exact ⟨s, hbefore.symm.subset (List.mem_append_right _ hrest), hctid⟩

/-- What queries rely on, from the stored segments. -/
theorem view_wellFormed_of_sameRows {ix' : StoredIndex Term} (hwf : ix.WellFormed)
    (hsame : SameRows ix.view ix'.view) (hmergeable : Mergeable (ix'.stored.map Prod.snd))
    (husable : ∀ s ∈ ix'.stored, ∀ term d, (openStored s).findTerm term = some d →
      EntryUsable (openStored s) d)
    (hroots : (ix'.stored.map Prod.fst).Nodup)
    (hvalid : ∀ root ∈ ix'.stored.map Prod.fst, root ≠ invalidBlockNumber)
    (hctids : ∀ s ∈ ix'.stored, ∀ ctid ∈ s.2.ctids, ∃ s' ∈ ix.stored, ctid ∈ s'.2.ctids) :
    ix'.view.WellFormed := by
  have hstored : ∀ r ∈ ix'.view.segments, ∃ s ∈ ix'.stored, r = openStored s := by
    intro r hr
    rw [ix'.segments_view] at hr
    obtain ⟨s, hs, rfl⟩ := List.mem_map.1 hr
    exact ⟨s, hs, rfl⟩
  have husable' : ∀ r ∈ ix'.view.segments, ∀ term e, r.findTerm term = some e →
      EntryUsable r e := by
    intro r hr
    obtain ⟨s, hs, rfl⟩ := hstored r hr
    exact husable s hs
  exact
    { usable := husable'
      roots_nodup := by
        rw [ix'.segments_view, List.map_map]
        exact hroots
      roots_valid := by
        intro r hr
        obtain ⟨s, hs, rfl⟩ := hstored r hr
        exact hvalid s.1 (List.mem_map_of_mem hs)
      counted := by
        intro term
        rw [← hsame.docFreq_eq hwf.view.usable husable', ← hsame.totalDocs]
        exact hwf.view.counted term
      frequency_pos := by
        rw [← hsame.memtable]
        exact hwf.view.frequency_pos
      covered := by
        rw [← hsame.memtable]
        exact hwf.view.covered
      postings_nodup := by
        rw [← hsame.memtable]
        exact hwf.view.postings_nodup
      ctids_nodup := by
        rw [ix'.segments_view, List.flatMap_map, List.nodup_flatMap]
        have hdisjoint := hmergeable.disjoint
        rw [List.pairwise_map] at hdisjoint
        exact ⟨fun s hs => (hmergeable.wellFormed s.2 (List.mem_map_of_mem hs)).ctids_nodup,
          hdisjoint⟩
      separate := by
        intro ctid hlookup r hr hin
        obtain ⟨s, hs, rfl⟩ := hstored r hr
        obtain ⟨s', hs', hin'⟩ := hctids s hs ctid hin
        rw [← hsame.memtable] at hlookup
        refine hwf.view.separate ctid hlookup (openStored s') ?_ hin'
        rw [ix.segments_view]
        exact List.mem_map_of_mem hs' }

/-- **Linking a merged segment** in place of its sources. -/
theorem linkMerged_compacted (hwf : ix.WellFormed) (hlevel : level + 1 < tpMaxLevels)
    (hfresh : root ∉ ix.stored.map Prod.fst) (hroot : root ≠ invalidBlockNumber)
    (hmerged : Merged ((ix.levels level).map Prod.snd) out) :
    Compacted ix (ix.linkMerged level (root, out)) := by
  have hsame := linkMerged_sameRows root hwf hlevel hmerged
  have hmergeable := linkMerged_mergeable root hwf hlevel hmerged
  have hbefore := (ix.stored_perm (show level < tpMaxLevels by omega)).map Prod.fst
  have hafter := (ix.stored_linkMerged_perm hlevel (root, out)).map Prod.fst
  rw [List.map_append] at hbefore
  have hold : (ix.stored.map Prod.fst).Nodup ∧
      ∀ root ∈ ix.stored.map Prod.fst, root ≠ invalidBlockNumber := by
    have hroots : (ix.view.segments.map (·.rootBlock)) = ix.stored.map Prod.fst := by
      rw [ix.segments_view, List.map_map]
      rfl
    constructor
    · exact hroots ▸ hwf.view.roots_nodup
    · intro root hroot
      rw [← hroots] at hroot
      obtain ⟨r, hr, rfl⟩ := List.mem_map.1 hroot
      exact hwf.view.roots_valid r hr
  have hothers : ∀ root ∈ (ix.others level).map Prod.fst, root ∈ ix.stored.map Prod.fst :=
    fun root hmem => hbefore.symm.subset (List.mem_append_right _ hmem)
  have hctids : ∀ s ∈ (ix.linkMerged level (root, out)).stored, ∀ ctid ∈ s.2.ctids,
      ∃ s' ∈ ix.stored, ctid ∈ s'.2.ctids :=
    fun s hs ctid => mem_ctids_linkMerged hlevel hmerged hs
  have hnumDocs := sum_linkMerged_le ix root hlevel StoredSegment.numDocs hmerged.numDocs_le
  have hterms := sum_linkMerged_le ix root hlevel (fun seg => seg.dictionary.length)
    hmerged.terms_le
  refine ⟨?_, hsame, hctids, hnumDocs, hterms⟩
  exact
    { mergeable := hmergeable
      numDocs_lt := hnumDocs.trans_lt hwf.numDocs_lt
      terms_lt := hterms.trans_lt hwf.terms_lt
      view := by
        refine view_wellFormed_of_sameRows hwf hsame hmergeable ?_ ?_ ?_ hctids
        · exact fun s hs term d hfind => linkMerged_usable hwf hlevel hmerged hs hfind
        · rw [hafter.nodup_iff]
          refine List.nodup_cons.2 ⟨fun hmem => hfresh (hothers root hmem), ?_⟩
          exact (List.nodup_append.1 (hbefore.nodup_iff.1 hold.1)).2.1
        · intro root' hmem
          cases List.mem_cons.1 (hafter.subset hmem) with
          | inl hnew => exact hnew ▸ hroot
          | inr hrest => exact hold.2 root' (hothers root' hrest) }

end Link

/-! ## Compactions -/

/-- Where a new segment gets its root block: from the free space map or at the end of the
file, where no segment of the index has its own. -/
structure RootAllocator where
  root : List Nat → Nat
  fresh : ∀ used, root used ∉ used
  valid : ∀ used, root used ≠ invalidBlockNumber

/-- `tp_merge_level_segments`, with the metapage update. -/
def mergeLevel (alloc : RootAllocator) (hs : HashSeq) (qs : Qsort) (compress : Bool)
    (ix : StoredIndex Term) (level : Nat) : Except MergeError (Option (StoredIndex Term)) :=
  if level ≥ tpMaxLevels - 1 then return none
  else do
    match ← tpMergeLevelSegments hs qs compress ((ix.levels level).map Prod.snd) with
    | none => return none
    | some out => return some (ix.linkMerged level (alloc.root (ix.stored.map Prod.fst), out))

/-- `tp_maybe_compact_level`; at most `TP_MAX_LEVELS` levels are looked at. -/
def maybeCompactLevel (alloc : RootAllocator) (perLevel : Pages.SegmentsPerLevel) (hs : HashSeq)
    (qs : Qsort) (compress : Bool) :
    Nat → StoredIndex Term → Nat → Except MergeError (StoredIndex Term)
  | 0, ix, _ => return ix
  | fuel + 1, ix, level =>
      if level ≥ tpMaxLevels - 1 then return ix
      else if (ix.levels level).length < perLevel.value then return ix
      else do
        match ← mergeLevel alloc hs qs compress ix level with
        | none => return ix
        | some ix => maybeCompactLevel alloc perLevel hs qs compress fuel ix (level + 1)

section Runs

variable (alloc : RootAllocator) (perLevel : Pages.SegmentsPerLevel) (hs : HashSeq) (qs : Qsort)
  (compress : Bool) {ix : StoredIndex Term}

/-- **One merge** of a level succeeds, and compacts the index if it does anything. -/
theorem mergeLevel_compacted (hwf : ix.WellFormed) (level : Nat) :
    mergeLevel alloc hs qs compress ix level = .ok none ∨
      ∃ ix', mergeLevel alloc hs qs compress ix level = .ok (some ix') ∧ Compacted ix ix' := by
  unfold mergeLevel
  split
  · exact Or.inl rfl
  rename_i hlevel
  have hsources := mergeable_of_append (hwf.mergeable_level (show level < tpMaxLevels by omega))
  have hsum : ∀ f : StoredSegment Term → Nat, (((ix.levels level).map Prod.snd).map f).sum ≤
      ((ix.stored.map Prod.snd).map f).sum := by
    intro f
    rw [(((ix.stored_perm (show level < tpMaxLevels by omega)).map Prod.snd).map f).sum_eq,
      List.map_append, List.map_append, List.sum_append]
    exact Nat.le_add_right _ _
  obtain ⟨result, hrun⟩ : ∃ result,
      tpMergeLevelSegments hs qs compress ((ix.levels level).map Prod.snd) = .ok result := by
    obtain ⟨terms, hmerged, heq⟩ := hsources.tpMergeLevelSegments_eq hs qs compress
    have htotal := hsources.writeMergedSegment_total hs qs compress hmerged
    rw [if_pos (((sum_mergeSources_le _ _).trans (hsum _)).trans_lt hwf.numDocs_lt)] at htotal
    obtain ⟨out, hout⟩ := htotal
    rw [heq]
    split
    · exact ⟨none, rfl⟩
    · exact ⟨some out, by rw [hout]; rfl⟩
  rw [hrun]
  cases result with
  | none => exact Or.inl rfl
  | some out =>
      refine Or.inr ⟨_, rfl, ?_⟩
      exact linkMerged_compacted hwf (by omega) (alloc.fresh _) (alloc.valid _)
        (merged_of_merge hsources ((hsum _).trans_lt hwf.terms_lt) hrun)

/-- **A compaction** and the merges it leads to. -/
theorem maybeCompactLevel_compacted (hwf : ix.WellFormed) (fuel level : Nat) :
    ∃ ix', maybeCompactLevel alloc perLevel hs qs compress fuel ix level = .ok ix' ∧
      Compacted ix ix' := by
  induction fuel generalizing ix level with
  | zero => exact ⟨ix, rfl, Compacted.refl hwf⟩
  | succ fuel ih =>
      unfold maybeCompactLevel
      split
      · exact ⟨ix, rfl, Compacted.refl hwf⟩
      split
      · exact ⟨ix, rfl, Compacted.refl hwf⟩
      rcases mergeLevel_compacted alloc hs qs compress hwf level with hnone | ⟨ix', hrun, hfirst⟩
      · exact ⟨ix, by rw [hnone]; rfl, Compacted.refl hwf⟩
      · obtain ⟨ix'', hrest, hmore⟩ := ih hfirst.wellFormed (level + 1)
        exact ⟨ix'', by rw [hrun]; exact hrest, hfirst.trans hmore⟩

end Runs

end Stored

/-! ## Queries around a compaction -/

section Query

open scoped Strcmp

/-- One document of one word. -/
def oneWordEntry : DictEntry := ⟨1, 1, [singletonBlock 0 1 1]⟩

def oneWordSegment (term : CString) (ctid : ItemPointer) : StoredSegment CString where
  dictionary := [(term, storeEntry false oneWordEntry)]
  numDocs := 1
  fieldnorms := [1]
  ctids := [ctid]
  tenantMap := none
  hasTenantData := false

theorem oneWordEntry_wellFormed : oneWordEntry.WellFormed where
  blockCount_eq := rfl
  block_ne_nil := by simp [oneWordEntry, singletonBlock]
  docCount_eq := by simp [oneWordEntry, singletonBlock]
  lastDocId_eq := by simp [oneWordEntry, singletonBlock]
  sorted := by simp [oneWordEntry, singletonBlock]
  docId_lt := by simp [oneWordEntry, singletonBlock, uint32Max]

theorem oneWordSegment_wellFormed (term : CString) (ctid : ItemPointer) :
    (oneWordSegment term ctid).WellFormed where
  numTerms_lt := by simp [oneWordSegment]
  sorted := by simp [oneWordSegment, KeysIncrease]
  entries := by
    intro term' e he
    obtain ⟨-, rfl⟩ := Prod.mk.injEq .. ▸ List.mem_singleton.1 he
    exact ⟨oneWordEntry,
      { decode_eq := rfl
        wellFormed := oneWordEntry_wellFormed
        docFreq_eq := rfl
        docId_lt := by simp [oneWordEntry, DictEntry.postings, singletonBlock, oneWordSegment]
        fieldnorm_eq := by
          simp [oneWordEntry, DictEntry.postings, singletonBlock, oneWordSegment,
            StoredSegment.getFieldnorm]
        frequency_lt := by simp [oneWordEntry, DictEntry.postings, singletonBlock] }⟩
  ctids_length := rfl
  fieldnorms_length := rfl
  tenantMap_length := fun _ h => nomatch h
  ctids_nodup := List.nodup_singleton ctid

theorem oneWordSegment_entry {root : Nat} {term term' : CString} {ctid : ItemPointer}
    {d : DictEntry} (hfind : (openStored (root, oneWordSegment term ctid)).findTerm term' = some d) :
    d = oneWordEntry := by
  obtain ⟨c, hc, rfl⟩ := Option.map_eq_some_iff.1 hfind
  have hmem := List.mem_of_find?_eq_some hc
  have hdict : (openStored (root, oneWordSegment term ctid)).dictionary = [(term, oneWordEntry)] :=
    rfl
  rw [hdict] at hmem
  rw [List.mem_singleton.1 hmem]

theorem oneWordEntry_usable {root : Nat} {term : CString} {ctid : ItemPointer} :
    EntryUsable (openStored (root, oneWordSegment term ctid)) oneWordEntry where
  wellFormed := oneWordEntry_wellFormed
  docFreq_eq := rfl
  frequency_pos := by simp [oneWordEntry, DictEntry.postings, singletonBlock]
  docId_lt := by
    simp [oneWordEntry, DictEntry.postings, singletonBlock, openStored, oneWordSegment]
  positive := by simp [oneWordEntry, singletonBlock]

/-- `cat` in the memtable, `cat` and `dog` in two segments of level 0. -/
def threeDocumentIndex : StoredIndex CString where
  memtable := oneDocumentIndex.view.memtable
  levels := fun level =>
    if level = 0 then [(5, oneWordSegment catTerm ⟨0, 2⟩), (6, oneWordSegment dogTerm ⟨0, 3⟩)]
    else []
  totalDocs := 3
  totalLen := 3
  options := oneDocumentIndex.view.options

theorem threeDocumentIndex_stored : threeDocumentIndex.stored =
    [(5, oneWordSegment catTerm ⟨0, 2⟩), (6, oneWordSegment dogTerm ⟨0, 3⟩)] := by
  simp [StoredIndex.stored, threeDocumentIndex, tpMaxLevels, List.range_succ]

theorem threeDocumentIndex_segments {r : SegmentReader CString}
    (hr : r ∈ threeDocumentIndex.view.segments) :
    ∃ root term ctid, r = openStored (root, oneWordSegment term ctid) ∧
      (root, ctid) ∈ [(5, (⟨0, 2⟩ : ItemPointer)), (6, ⟨0, 3⟩)] := by
  rw [StoredIndex.segments_view, threeDocumentIndex_stored] at hr
  simp only [List.map_cons, List.map_nil, List.mem_cons, List.not_mem_nil, or_false] at hr
  rcases hr with rfl | rfl
  · exact ⟨5, catTerm, ⟨0, 2⟩, rfl, by simp⟩
  · exact ⟨6, dogTerm, ⟨0, 3⟩, rfl, by simp⟩

theorem segmentDocFreq_oneWord_le (root : Nat) (term term' : CString) (ctid : ItemPointer) :
    segmentDocFreq (openStored (root, oneWordSegment term ctid)) term' ≤ 1 := by
  unfold segmentDocFreq
  cases hfind : (openStored (root, oneWordSegment term ctid)).findTerm term' with
  | none => exact Nat.zero_le 1
  | some d =>
      rw [oneWordSegment_entry hfind]
      exact le_refl 1

theorem docFreqOf_oneWord_le (term term' : CString) (ctid : ItemPointer) :
    docFreqOf (oneWordSegment term ctid) term' ≤ 1 := by
  unfold docFreqOf
  cases hlook : (oneWordSegment term ctid).dictionary.lookup term' with
  | none => exact Nat.zero_le 1
  | some e =>
      have hmem := (oneWordSegment_wellFormed term ctid).sorted.lookup_eq_some_iff.1 hlook
      obtain ⟨-, rfl⟩ := Prod.mk.injEq .. ▸ List.mem_singleton.1 hmem
      exact le_refl 1

theorem threeDocumentIndex_wellFormed : threeDocumentIndex.WellFormed where
  mergeable :=
    { wellFormed := by
        rw [threeDocumentIndex_stored]
        simp [oneWordSegment_wellFormed]
      disjoint := by
        rw [threeDocumentIndex_stored]
        simp [oneWordSegment]
      numDocs_lt := by
        rw [threeDocumentIndex_stored]
        simp [oneWordSegment]
      blocks_le := by
        intro term
        rw [threeDocumentIndex_stored]
        have hcat := docFreqOf_oneWord_le catTerm term ⟨0, 2⟩
        have hdog := docFreqOf_oneWord_le dogTerm term ⟨0, 3⟩
        simp only [List.map_cons, List.map_nil, List.sum_cons, List.sum_nil]
        unfold tpBlockSize
        omega }
  numDocs_lt := by
    rw [threeDocumentIndex_stored]
    simp [oneWordSegment, uint32Max]
  terms_lt := by
    rw [threeDocumentIndex_stored]
    simp [oneWordSegment]
  view :=
    { usable := by
        intro r hr term e hfind
        obtain ⟨root, term', ctid, rfl, -⟩ := threeDocumentIndex_segments hr
        rw [oneWordSegment_entry hfind]
        exact oneWordEntry_usable
      roots_nodup := by
        rw [StoredIndex.segments_view, threeDocumentIndex_stored]
        decide
      roots_valid := by
        rw [StoredIndex.segments_view, threeDocumentIndex_stored]
        decide
      counted := by
        intro term
        have hmemtable := oneDocumentIndex_wellFormed.counted term
        have hcat := segmentDocFreq_oneWord_le 5 catTerm term ⟨0, 2⟩
        have hdog := segmentDocFreq_oneWord_le 6 dogTerm term ⟨0, 3⟩
        rw [tpGetUnifiedDocFreq_eq] at hmemtable ⊢
        rw [StoredIndex.segments_view, threeDocumentIndex_stored]
        simp only [List.map_cons, List.map_nil, List.sum_cons, List.sum_nil]
        have hone : oneDocumentIndex.view.totalDocs = 1 := rfl
        have hthree : threeDocumentIndex.view.totalDocs = 3 := rfl
        have hsame : threeDocumentIndex.view.memtable = oneDocumentIndex.view.memtable := rfl
        rw [hsame, hthree]
        omega
      frequency_pos := oneDocumentIndex_wellFormed.frequency_pos
      covered := oneDocumentIndex_wellFormed.covered
      postings_nodup := oneDocumentIndex_wellFormed.postings_nodup
      ctids_nodup := by
        rw [StoredIndex.segments_view, threeDocumentIndex_stored]
        decide
      separate := by
        intro ctid hlookup r hr hin
        obtain ⟨root, term, ctid', rfl, hplace⟩ := threeDocumentIndex_segments hr
        rw [List.mem_singleton.1 hin] at hlookup
        simp only [List.mem_cons, Prod.mk.injEq, List.not_mem_nil, or_false] at hplace
        rcases hplace with ⟨-, rfl⟩ | ⟨-, rfl⟩
        · exact absurd hlookup (by decide)
        · exact absurd hlookup (by decide) }

/-- A block beyond all others, not the invalid one. -/
def nextRoot : RootAllocator where
  root used := used.foldr max invalidBlockNumber + 1
  fresh := by
    intro used hmem
    have hle : ∀ l : List Nat, ∀ x ∈ l, x ≤ l.foldr max invalidBlockNumber := by
      intro l
      induction l with
      | nil => simp
      | cons y l ih =>
          intro x hx
          cases List.mem_cons.1 hx with
          | inl hhead => exact hhead ▸ le_max_left _ _
          | inr htail => exact (ih x htail).trans (le_max_right _ _)
    have := hle used _ hmem
    omega
  valid := by
    intro used
    have hle : ∀ l : List Nat, invalidBlockNumber ≤ l.foldr max invalidBlockNumber := by
      intro l
      induction l with
      | nil => exact le_refl _
      | cons y l ih => exact ih.trans (le_max_right _ _)
    have := hle used
    omega

def threeDocumentParams : ScoreParams where
  k1 := 6 / 5
  b := 3 / 4
  avgDocLen := (3 : Nat) / (3 : Nat)
  k1_pos := defaultK1_pos
  b_nonneg := defaultB_nonneg
  b_le_one := defaultB_le_one
  avg_pos := by norm_num

end Query

end PgTextsearch.Query
