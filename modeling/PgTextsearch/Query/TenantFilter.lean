import PgTextsearch.Segment.BlockWriter
import PgTextsearch.Segment.PostingIterator
import PgTextsearch.Segment.TenantRanges

/-!
# The tenant filter of a segment search (`query/bmw.c`, `segment/scan.c`)

A search for one tenant filters the documents of a segment by a range of document ids,
which a tenant-ordered segment stores for each of its tenants, or else by the tenant of
every document, helped by the 16 bits of the tenant that the skip entry of a
single-tenant block keeps.

What a search of a segment is left with is one predicate on document ids
(`DocFilter.Keeps`); the ranges and the bytes only have to agree with the tenants of the
documents (`DocFilter.Sound`), and what the segment writers store does
(`TenantsStored`).

## Main results

* `tpSegmentGetTenantDocRange_eq` — the binary search finds the tenant's range.
* `blockTenantMode_single` — the tenant bytes of a single-tenant block.
* `segmentFilter_spec` — the filter keeps exactly the tenant's documents; a segment that
  is left out has none of them, or the tenant is `UINT32_MAX`.
-/

namespace PgTextsearch.Query

open PgTextsearch.Postgres PgTextsearch.Segment PgTextsearch.Verified

variable {Term : Type}

/-! ## The filter -/

/-- The arguments a segment is searched with. -/
structure DocFilter (Term : Type) where
  reader : SegmentReader Term
  tenantId : Nat
  minDocId : Nat
  maxDocId : Nat

namespace DocFilter

/-- The arguments without a tenant. -/
def unfiltered (reader : SegmentReader Term) : DocFilter Term := ⟨reader, 0, 0, uint32Max⟩

/-- The documents a search with the filter is left with. -/
def Keeps (f : DocFilter Term) (docId : Nat) : Prop :=
  f.minDocId ≤ docId ∧ docId ≤ f.maxDocId ∧
    (f.tenantId ≠ 0 → tpSegmentGetTenantId f.reader docId = f.tenantId)

instance (f : DocFilter Term) : DecidablePred f.Keeps := fun _ =>
  inferInstanceAs (Decidable (_ ∧ _))

/-- The tenant bytes of a block are conclusive: no document of a single-tenant block has
other low bits than the stored ones. -/
def BytesSound (f : DocFilter Term) (blk : Block) : Prop :=
  f.tenantId ≠ 0 → blk.skip.tenantMode = .single → ∀ p ∈ blk.postings,
    tpSegmentGetTenantId f.reader p.docId % 65536 = blk.skip.tenantIdLow

/-- What the filter relies on: all documents of a range are the tenant's, and the tenant
bytes are conclusive. -/
structure Sound [DecidableEq Term] (f : DocFilter Term) : Prop where
  range : f.tenantId ≠ 0 → f.maxDocId ≠ uint32Max → ∀ docId, f.minDocId ≤ docId →
    docId ≤ f.maxDocId → tpSegmentGetTenantId f.reader docId = f.tenantId
  bytes : ∀ term e, f.reader.findTerm term = some e → ∀ blk ∈ e.blocks, f.BytesSound blk

theorem keeps_unfiltered {reader : SegmentReader Term} {docId : Nat} :
    (unfiltered reader).Keeps docId ↔ docId ≤ uint32Max := by
  simp [Keeps, unfiltered]

theorem sound_unfiltered [DecidableEq Term] (reader : SegmentReader Term) :
    (unfiltered reader).Sound where
  range := fun h => absurd rfl h
  bytes := fun _ _ _ _ _ h => absurd rfl h

/-- The test of a document inside of the range. -/
theorem Sound.keeps_iff [DecidableEq Term] {f : DocFilter Term} (hf : f.Sound) {docId : Nat}
    (hmin : f.minDocId ≤ docId) (hmax : docId ≤ f.maxDocId) :
    f.Keeps docId ↔ ¬ (f.tenantId ≠ 0 ∧ f.maxDocId = uint32Max ∧
      tpSegmentGetTenantId f.reader docId ≠ f.tenantId) := by
  simp only [Keeps, hmin, hmax, true_and, not_and, not_not]
  constructor
  · exact fun h hne _ => h hne
  · intro h hne
    by_cases hlast : f.maxDocId = uint32Max
    · exact h hne hlast
    · exact hf.range hne hlast docId hmin hmax

/-- A block with other bytes than the tenant's has none of its documents. -/
theorem BytesSound.not_keeps {f : DocFilter Term} {blk : Block} (hb : f.BytesSound blk)
    (htenant : f.tenantId ≠ 0) (hmode : blk.skip.tenantMode = .single)
    (hlow : blk.skip.tenantIdLow ≠ f.tenantId % 65536) {p : BlockPosting}
    (hp : p ∈ blk.postings) : ¬ f.Keeps p.docId := by
  intro hkeep
  have hbytes := hb htenant hmode p hp
  rw [hkeep.2.2 htenant] at hbytes
  exact hlow hbytes.symm

end DocFilter

/-! ## Ranges -/

/-- `tp_segment_get_tenant_doc_range`: first and last document id of the tenant.  The
ranges are those of the header if it has `TP_FLAG_TENANT_ORDERED`. -/
def tpSegmentGetTenantDocRange (tenantRanges : Option (List TenantRange)) (tenantId : Nat) :
    Option (Nat × Nat) :=
  match tenantRanges with
  | none => none
  | some ranges =>
      (searchList (fun range => (tenantId : Int) - range.tenantId) ranges).bind fun mid =>
        ranges[mid]?.map fun range =>
          (range.firstDocId, range.firstDocId + range.docCount - 1)

theorem tpSegmentGetTenantDocRange_eq {ranges : List TenantRange} (hordered : RangesOrdered ranges)
    (tenantId : Nat) : tpSegmentGetTenantDocRange (some ranges) tenantId =
      (ranges.find? (·.tenantId = tenantId)).map fun range =>
        (range.firstDocId, range.firstDocId + range.docCount - 1) := by
  have hsorted : ranges.Pairwise fun a b =>
      (tenantId : Int) - a.tenantId ≤ 0 → (tenantId : Int) - b.tenantId < 0 := by
    refine hordered.imp ?_
    intro a b hab hle
    have := hab.1
    omega
  have hsearch := searchList_bind (fun range : TenantRange => (tenantId : Int) - range.tenantId)
    ranges hsorted
  have hfind : (ranges.find? fun range => decide ((tenantId : Int) - range.tenantId = 0)) =
      ranges.find? (·.tenantId = tenantId) := by
    congr 1
    funext range
    rw [decide_eq_decide]
    omega
  rw [hfind] at hsearch
  rw [← hsearch, Option.map_bind]
  rfl

/-- The ranges the finalised document map of a segment gave it, with the tenants of the
documents. -/
def OrderedRanges (tids : List Nat) (ranges : List TenantRange) : Prop :=
  ∃ hs qs rows docmap, tpDocmapAddAll id tpDocmapCreate rows = .ok docmap ∧
    (rows.map fun r : ItemPointer × Nat × Nat => r.1).Nodup ∧
    (∀ r ∈ rows, r.2.2 ≤ uint32Max) ∧
    (tpDocmapFinalize hs qs docmap).tenantIds = some tids ∧
    (tpDocmapFinalize hs qs docmap).tenantRanges = ranges ∧ ranges ≠ []

/-- They are in order, not empty, and cover the documents of every tenant but
`UINT32_MAX`. -/
theorem OrderedRanges.covers {tids : List Nat} {ranges : List TenantRange}
    (h : OrderedRanges tids ranges) :
    RangesOrdered ranges ∧ (∀ range ∈ ranges, 0 < range.docCount) ∧
      ∀ tenantId, tenantId ≠ 0 → ∀ docId, Covers ranges tenantId docId ↔
        tenantId ≠ uint32Max ∧ tids[docId]? = some tenantId := by
  obtain ⟨hs, qs, rows, docmap, hadd, hnodup, hmax, htids, hranges, -⟩ := h
  obtain ⟨hordered, hcovers⟩ := tpDocmapFinalize_covers hs qs hadd hnodup hmax
  have hpos := tpDocmapFinalize_docCount_pos hs qs hadd hnodup
  rw [hranges] at hordered hcovers hpos
  refine ⟨hordered, hpos, fun tenantId hne docId => ?_⟩
  have hnumbers := (tpDocmapFinalize_docmapFinalised hs qs hadd hnodup).numbers
  generalize (docmapOrder hs qs docmap).map docmapRow = order at hcovers hnumbers
  have horder : tids = order.map fun r => r.2.2 := by
    cases hnumbers.tenantIds_eq with
    | inl hnone => exact nomatch htids.symm.trans hnone.1
    | inr hsome => exact Option.some.inj (htids.symm.trans hsome.1)
  rw [hcovers tenantId hne, horder, List.getElem?_map, Option.map_eq_some_iff]

/-! ## What the segment writers store -/

/-- What a segment tells of the tenants of its documents: a tenant map for all documents
or none, tenant bytes computed from it in every skip entry, and ranges, if any, from the
document map. -/
structure TenantsStored [DecidableEq Term] (reader : SegmentReader Term)
    (tenantRanges : Option (List TenantRange)) : Prop where
  length : ∀ tids, reader.tenantIds = some tids → tids.length = reader.numDocs
  bytes : ∀ term e, reader.findTerm term = some e → ∀ blk ∈ e.blocks,
    (blk.skip.tenantMode, blk.skip.tenantIdLow) =
      blockTenantMode reader.tenantIds blk.postings
  docId_lt : ∀ term e, reader.findTerm term = some e → ∀ p ∈ e.postings,
    p.docId < reader.numDocs
  ordered : ∀ ranges, tenantRanges = some ranges →
    ∃ tids, reader.tenantIds = some tids ∧ OrderedRanges tids ranges

/-- The tenant of a document with a tenant map. -/
theorem tpSegmentGetTenantId_eq {reader : SegmentReader Term} {tids : List Nat}
    (htids : reader.tenantIds = some tids) (hlength : tids.length = reader.numDocs)
    {docId tenantId : Nat} (hne : tenantId ≠ 0) :
    tpSegmentGetTenantId reader docId = tenantId ↔ tids[docId]? = some tenantId := by
  unfold tpSegmentGetTenantId
  rw [htids]
  simp only
  by_cases hlt : docId < tids.length
  · rw [if_neg (by omega), List.getD_eq_getElem _ _ hlt, List.getElem?_eq_getElem hlt,
      Option.some.injEq]
  · rw [if_pos (by omega), List.getElem?_eq_none (Nat.not_lt.1 hlt)]
    constructor
    · exact fun h => absurd h.symm hne
    · exact fun h => nomatch h

/-- **The tenant bytes** of a single-tenant block. -/
theorem blockTenantMode_single {tids : List Nat} {ps : List BlockPosting} {low : Nat}
    (h : (TenantMode.single, low) = blockTenantMode (some tids) ps) :
    ∀ p ∈ ps, tids.getD p.docId 0 % 65536 = low := by
  cases ps with
  | nil => exact fun p hp => (nomatch hp)
  | cons q rest =>
      simp only [blockTenantMode] at h
      split at h
      case isTrue hsame =>
        have hlow := congrArg Prod.snd h
        simp only at hlow
        intro p hp
        rw [hlow]
        cases List.mem_cons.1 hp with
        | inl heq => rw [heq]
        | inr hin =>
            have hall := List.all_eq_true.1 hsame.2 p hin
            rw [beq_iff_eq.1 hall]
      case isFalse =>
        split at h
        · exact nomatch congrArg Prod.fst h
        · exact nomatch congrArg Prod.fst h

section Stored

variable [DecidableEq Term] {reader : SegmentReader Term} {tenantRanges : Option (List TenantRange)}

theorem TenantsStored.bytesSound (hs : TenantsStored reader tenantRanges) {f : DocFilter Term}
    (hf : f.reader = reader) : ∀ term e, f.reader.findTerm term = some e →
      ∀ blk ∈ e.blocks, f.BytesSound blk := by
  intro term e hfind blk hblk _ hsingle p hp
  rw [hf] at hfind ⊢
  have hbytes := hs.bytes term e hfind blk hblk
  have hlt := hs.docId_lt term e hfind p (List.mem_flatMap.2 ⟨blk, hblk, hp⟩)
  rw [hsingle] at hbytes
  unfold tpSegmentGetTenantId
  cases htids : reader.tenantIds with
  | none =>
      rw [htids] at hbytes
      exact nomatch congrArg Prod.fst hbytes
  | some tids =>
      rw [htids] at hbytes
      simp only
      rw [if_neg (Nat.not_le.2 hlt)]
      exact blockTenantMode_single hbytes p hp

/-! ## The filter of a segment -/

/-- What the loop over the segments searches a segment with: all documents, or the range
of the tenant in a tenant-ordered segment, which is left out when the tenant has none. -/
def segmentFilter (reader : SegmentReader Term) (tenantRanges : Option (List TenantRange))
    (tenantId : Nat) : Option (DocFilter Term) :=
  if tenantId ≠ 0 ∧ tenantRanges.isSome then
    (tpSegmentGetTenantDocRange tenantRanges tenantId).map fun range =>
      ⟨reader, tenantId, range.1, range.2⟩
  else some ⟨reader, tenantId, 0, uint32Max⟩

omit [DecidableEq Term] in
theorem segmentFilter_zero (reader : SegmentReader Term)
    (tenantRanges : Option (List TenantRange)) :
    segmentFilter reader tenantRanges 0 = some (DocFilter.unfiltered reader) := by
  simp [segmentFilter, DocFilter.unfiltered]

/-- What a filter for a tenant of a segment has to be. -/
structure FiltersTenant (reader : SegmentReader Term) (tenantId : Nat) (f : DocFilter Term) :
    Prop where
  reader_eq : f.reader = reader
  sound : f.Sound
  keeps_iff : ∀ docId ≤ uint32Max,
    f.Keeps docId ↔ tpSegmentGetTenantId reader docId = tenantId

/-- **The filter of a segment** keeps exactly the tenant's documents.  A segment that is left
out is tenant-ordered and has no document of the tenant, unless that is `UINT32_MAX`. -/
theorem segmentFilter_spec (hs : TenantsStored reader tenantRanges) {tenantId : Nat}
    (hne : tenantId ≠ 0) :
    (∃ f, segmentFilter reader tenantRanges tenantId = some f ∧
        FiltersTenant reader tenantId f ∧ (tenantRanges.isSome → tenantId ≠ uint32Max)) ∨
      segmentFilter reader tenantRanges tenantId = none ∧ tenantRanges.isSome ∧
        (tenantId ≠ uint32Max → ∀ docId, tpSegmentGetTenantId reader docId ≠ tenantId) := by
  cases hranges : tenantRanges with
  | none =>
      left
      refine ⟨⟨reader, tenantId, 0, uint32Max⟩, by simp [segmentFilter], ⟨rfl, ?_, ?_⟩, by simp⟩
      · exact ⟨fun _ hlast => absurd rfl hlast, hs.bytesSound rfl⟩
      · intro docId hle
        simp [DocFilter.Keeps, hle, hne]
  | some ranges =>
      obtain ⟨tids, htids, hordered⟩ := hs.ordered ranges hranges
      obtain ⟨hsorted, hpos, hcovers⟩ := hordered.covers
      have htenant : ∀ docId, tpSegmentGetTenantId reader docId = tenantId ↔
          tids[docId]? = some tenantId :=
        fun docId => tpSegmentGetTenantId_eq htids (hs.length tids htids) hne
      have hlookup : segmentFilter reader (some ranges) tenantId =
          (ranges.find? (·.tenantId = tenantId)).map fun range =>
            ⟨reader, tenantId, range.firstDocId, range.firstDocId + range.docCount - 1⟩ := by
        rw [segmentFilter, if_pos ⟨hne, rfl⟩, tpSegmentGetTenantDocRange_eq hsorted,
          Option.map_map]
        rfl
      rw [hlookup]
      cases hfind : ranges.find? (·.tenantId = tenantId) with
      | none =>
          right
          refine ⟨rfl, rfl, fun hmax docId hdoc => ?_⟩
          obtain ⟨range, hin, heq, -⟩ := (hcovers tenantId hne docId).2
            ⟨hmax, (htenant docId).1 hdoc⟩
          exact absurd (decide_eq_true heq) (by simpa using List.find?_eq_none.1 hfind range hin)
      | some range =>
          left
          have hin := List.mem_of_find?_eq_some hfind
          have heq : range.tenantId = tenantId := by simpa using List.find?_some hfind
          have hcount := hpos range hin
          have hmax : tenantId ≠ uint32Max :=
            ((hcovers tenantId hne range.firstDocId).1 ⟨range, hin, heq, le_rfl, by omega⟩).1
          -- the tenant's documents are those of its only range
          have hinside : ∀ docId, tpSegmentGetTenantId reader docId = tenantId ↔
              range.firstDocId ≤ docId ∧ docId ≤ range.firstDocId + range.docCount - 1 := by
            intro docId
            have hcover := hcovers tenantId hne docId
            rw [and_iff_right hmax] at hcover
            rw [htenant, ← hcover]
            constructor
            · rintro ⟨range', hin', heq', hfirst, hlast⟩
              have hsame : range' = range :=
                hsorted.eq_of_tenantId hin' hin (heq'.trans heq.symm)
              rw [hsame] at hfirst hlast
              omega
            · intro hbetween
              exact ⟨range, hin, heq, hbetween.1, by omega⟩
          refine ⟨_, rfl, ⟨rfl, ?_, ?_⟩, fun _ => hmax⟩
          · exact ⟨fun _ _ docId hfirst hlast => (hinside docId).2 ⟨hfirst, hlast⟩,
              hs.bytesSound rfl⟩
          · intro docId _
            simp only [DocFilter.Keeps]
            constructor
            · exact fun h => h.2.2 hne
            · exact fun h => ⟨((hinside docId).1 h).1, ((hinside docId).1 h).2, fun _ => h⟩

end Stored

end PgTextsearch.Query
