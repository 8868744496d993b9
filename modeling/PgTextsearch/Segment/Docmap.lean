import Mathlib.Data.List.Forall2
import Mathlib.Data.List.Nodup
import PgTextsearch.Postgres
import PgTextsearch.Segment.Fieldnorm

/-!
# Document map (`segment/docmap.c`)

A segment numbers its documents `0 .. num_docs - 1`.  The builder collects
CTIDs in a hash table, and finalisation sorts them by CTID, or by tenant and
CTID once any document has a tenant, and renumbers them in that order.

## Main results

* `tpDocmapAdd_rows`, `tpDocmapAdd_rows_ok` — adding rows with different CTIDs.
* `tpDocmapFinalize_numbers` — a finalised map numbers its documents from zero, and a
  lookup gives the position of a document in the output arrays.
-/

namespace PgTextsearch.Segment

open PgTextsearch.Postgres

/-- Errors raised while a segment is built. -/
inductive SegmentError where
  | tooManyDocuments
  | ctidNotInDocmap (ctid : ItemPointer)
  deriving DecidableEq, Repr

/-- The message text `elog`/`ereport` is called with. -/
def SegmentError.message : SegmentError → String
  | .tooManyDocuments => "too many documents in segment (max 4294967294)"
  | .ctidNotInDocmap ctid => s!"CTID ({ctid.blkid},{ctid.posid}) not found in docmap"

/-- `TpDocMapEntry`: one row of the CTID hash table. -/
structure DocMapEntry where
  ctid : ItemPointer
  docId : Nat
  docLength : Nat
  tenantId : Nat
  deriving DecidableEq, Repr, Inhabited

/-- `TpDocMapTenantRange`. -/
structure TenantRange where
  tenantId : Nat
  firstDocId : Nat
  docCount : Nat
  deriving DecidableEq, Repr

/-- `TpDocMapBuilder`.  `ctidToId` is the hash table; the remaining fields are
the output arrays that finalisation fills. -/
structure DocMapBuilder where
  ctidToId : List DocMapEntry
  numDocs : Nat
  ctids : List ItemPointer
  fieldnorms : List (Fin 256)
  tenantIds : Option (List Nat)
  tenantRanges : List TenantRange
  tenantOrdered : Bool
  deriving Repr

/-- `tp_docmap_create`. -/
def tpDocmapCreate : DocMapBuilder :=
  ⟨[], 0, [], [], none, [], false⟩

/-- `tp_docmap_add`: a CTID seen before keeps its entry. -/
def tpDocmapAdd (builder : DocMapBuilder) (ctid : ItemPointer) (docLength tenantId : Nat) :
    Except SegmentError DocMapBuilder :=
  if builder.numDocs ≥ uint32Max - 1 then .error .tooManyDocuments
  else if (builder.ctidToId.find? (·.ctid = ctid)).isSome then .ok builder
  else .ok { builder with
    ctidToId := builder.ctidToId ++ [⟨ctid, builder.numDocs, docLength, tenantId⟩]
    numDocs := builder.numDocs + 1 }

/-- `tp_docmap_lookup`: the document id of a CTID, `UINT32_MAX` when absent. -/
def tpDocmapLookup (builder : DocMapBuilder) (ctid : ItemPointer) : Nat :=
  match builder.ctidToId.find? (·.ctid = ctid) with
  | none => uint32Max
  | some entry => entry.docId

/-- `docmap_entry_cmp_by_ctid`. -/
def docmapEntryCmpByCtid (a b : DocMapEntry) : Int :=
  ItemPointer.compare a.ctid b.ctid

/-- `docmap_entry_cmp_by_tenant_then_ctid`. -/
def docmapEntryCmpByTenantThenCtid (a b : DocMapEntry) : Int :=
  if a.tenantId < b.tenantId then -1
  else if a.tenantId > b.tenantId then 1
  else ItemPointer.compare a.ctid b.ctid

/-- The loop over the sorted entries that emits one range per run of equal
tenant ids; `i` is the index of the head of the remaining entries. -/
def tenantRangesLoop (runTenant runStart : Nat) : Nat → List DocMapEntry → List TenantRange
  | i, [] =>
      if uint32Max ≠ runTenant ∧ runTenant ≠ 0 then [⟨runTenant, runStart, i - runStart⟩]
      else []
  | i, e :: rest =>
      if e.tenantId ≠ runTenant then
        (if runTenant ≠ 0 then [⟨runTenant, runStart, i - runStart⟩] else []) ++
          tenantRangesLoop e.tenantId i (i + 1) rest
      else tenantRangesLoop runTenant runStart (i + 1) rest

/-- `tp_docmap_finalize`. -/
def tpDocmapFinalize (hs : HashSeq) (qs : Qsort) (builder : DocMapBuilder) : DocMapBuilder :=
  if builder.numDocs = 0 then builder
  else
    let scanned := hs.scan builder.ctidToId
    let hasTenants := scanned.any (fun e => decide (e.tenantId ≠ 0))
    let entries :=
      if hasTenants then qs.sort docmapEntryCmpByTenantThenCtid scanned
      else qs.sort docmapEntryCmpByCtid scanned
    { builder with
      tenantOrdered := hasTenants
      ctids := entries.map (·.ctid)
      fieldnorms := entries.map (fun e => encodeFieldnorm e.docLength)
      tenantIds := if hasTenants then some (entries.map (·.tenantId)) else none
      -- the hash rows are updated in place to the position in the sorted order
      ctidToId := builder.ctidToId.map fun e =>
        { e with docId := entries.findIdx (·.ctid = e.ctid) }
      tenantRanges :=
        match hasTenants, entries with
        | true, e :: rest => tenantRangesLoop e.tenantId 0 1 rest
        | _, _ => [] }

/-- `tp_docmap_get_fieldnorm`. -/
def tpDocmapGetFieldnorm (builder : DocMapBuilder) (docId : Nat) : Fin 256 :=
  builder.fieldnorms.getD docId 0

/-- `tp_docmap_get_ctid`. -/
def tpDocmapGetCtid (builder : DocMapBuilder) (docId : Nat) : ItemPointer :=
  builder.ctids.getD docId ItemPointer.invalid

/-! ## Fallible loops -/

theorem forall₂_of_mapM_ok {ε α β : Type} {f : α → Except ε β} {xs : List α}
    {ys : List β} (h : xs.mapM f = .ok ys) : List.Forall₂ (fun x y => f x = .ok y) xs ys := by
  induction xs generalizing ys with
  | nil =>
      cases h
      exact List.Forall₂.nil
  | cons x xs ih =>
      rw [List.mapM_cons] at h
      obtain ⟨y, hy, h⟩ := bind_eq_ok h
      obtain ⟨zs, hzs, h⟩ := bind_eq_ok h
      cases h
      exact List.Forall₂.cons hy (ih hzs)

theorem exists_mapM_ok {ε α β : Type} {f : α → Except ε β} {xs : List α}
    (h : ∀ x ∈ xs, ∃ y, f x = .ok y) : ∃ ys, xs.mapM f = .ok ys := by
  induction xs with
  | nil => exact ⟨[], rfl⟩
  | cons x xs ih =>
      obtain ⟨y, hy⟩ := h x List.mem_cons_self
      obtain ⟨ys, hys⟩ := ih fun z hz => h z (List.mem_cons_of_mem _ hz)
      refine ⟨y :: ys, ?_⟩
      rw [List.mapM_cons, hy, hys]
      rfl

/-! ## What the map holds -/

/-- A row of the hash table, without the document id. -/
def docmapRow (e : DocMapEntry) : ItemPointer × Nat × Nat := (e.ctid, e.docLength, e.tenantId)

section Filling

variable {α : Type} (row : α → ItemPointer × Nat × Nat)

/-- Add rows one after the other. -/
def tpDocmapAddAll (docmap : DocMapBuilder) (rows : List α) : Except SegmentError DocMapBuilder :=
  rows.foldlM (fun docmap r => tpDocmapAdd docmap (row r).1 (row r).2.1 (row r).2.2) docmap

private theorem tpDocmapAdd_new {docmap docmap' : DocMapBuilder} {ctid : ItemPointer}
    {docLength tenantId : Nat} (h : tpDocmapAdd docmap ctid docLength tenantId = .ok docmap')
    (hnew : ctid ∉ docmap.ctidToId.map DocMapEntry.ctid) :
    docmap'.ctidToId.map docmapRow =
        docmap.ctidToId.map docmapRow ++ [(ctid, docLength, tenantId)] ∧
      docmap'.numDocs = docmap.numDocs + 1 ∧
      docmap' = { docmap with ctidToId := docmap'.ctidToId, numDocs := docmap'.numDocs } := by
  unfold tpDocmapAdd at h
  split at h
  · cases h
  split at h
  case isTrue hfound =>
    obtain ⟨e, he⟩ := Option.isSome_iff_exists.1 hfound
    have heq : e.ctid = ctid := by simpa using List.find?_some he
    exact absurd (List.mem_map.2 ⟨e, List.mem_of_find?_eq_some he, heq⟩) hnew
  case isFalse =>
    cases h
    rw [List.map_append]
    exact ⟨rfl, rfl, rfl⟩

/-- **Adding rows with different CTIDs** adds every one of them. -/
theorem tpDocmapAdd_rows {rows : List α} {docmap docmap' : DocMapBuilder}
    (h : tpDocmapAddAll row docmap rows = .ok docmap')
    (hnodup : (docmap.ctidToId.map DocMapEntry.ctid ++ rows.map fun r => (row r).1).Nodup) :
    docmap'.ctidToId.map docmapRow = docmap.ctidToId.map docmapRow ++ rows.map row ∧
      docmap'.numDocs = docmap.numDocs + rows.length ∧
      docmap' = { docmap with ctidToId := docmap'.ctidToId, numDocs := docmap'.numDocs } := by
  unfold tpDocmapAddAll at h
  induction rows generalizing docmap with
  | nil =>
      cases h
      simp
  | cons r rest ih =>
      rw [List.foldlM_cons] at h
      obtain ⟨docmap₁, hadd, hrest⟩ := bind_eq_ok h
      have hnew : (row r).1 ∉ docmap.ctidToId.map DocMapEntry.ctid := by
        intro hmem
        exact (List.nodup_append.1 hnodup).2.2 _ hmem _ List.mem_cons_self rfl
      obtain ⟨hrows, hnum, heq⟩ := tpDocmapAdd_new hadd hnew
      have hctids : docmap₁.ctidToId.map DocMapEntry.ctid =
          docmap.ctidToId.map DocMapEntry.ctid ++ [(row r).1] := by
        have := congrArg (List.map Prod.fst) hrows
        simpa [docmapRow, Function.comp_def] using this
      obtain ⟨hrows', hnum', heq'⟩ := ih hrest (by
        rw [hctids, List.append_assoc]
        exact hnodup)
      refine ⟨?_, ?_, ?_⟩
      · rw [hrows', hrows, List.append_assoc]
        rfl
      · rw [hnum', hnum, List.length_cons]
        omega
      · rw [heq', heq]

/-- A document map takes fewer than `UINT32_MAX` rows. -/
theorem tpDocmapAdd_rows_ok (rows : List α) (docmap : DocMapBuilder)
    (h : docmap.numDocs + rows.length < uint32Max) :
    ∃ docmap', tpDocmapAddAll row docmap rows = .ok docmap' := by
  unfold tpDocmapAddAll
  induction rows generalizing docmap with
  | nil => exact ⟨docmap, rfl⟩
  | cons r rest ih =>
      rw [List.length_cons] at h
      have hroom : ¬ docmap.numDocs ≥ uint32Max - 1 := by omega
      rw [List.foldlM_cons, tpDocmapAdd, if_neg hroom]
      split
      · exact ih docmap (by omega)
      · refine ih _ ?_
        show docmap.numDocs + 1 + rest.length < uint32Max
        omega

/-- A document map does not grow beyond `UINT32_MAX - 1` rows. -/
private theorem numDocs_le_of_tpDocmapAdd {docmap docmap' : DocMapBuilder} {ctid : ItemPointer}
    {docLength tenantId : Nat} (h : tpDocmapAdd docmap ctid docLength tenantId = .ok docmap') :
    docmap'.numDocs ≤ uint32Max - 1 := by
  unfold tpDocmapAdd at h
  split at h
  · cases h
  case isFalse hroom =>
    split at h
    · cases h
      omega
    · cases h
      show docmap.numDocs + 1 ≤ uint32Max - 1
      omega

/-- **Too many rows** are refused. -/
theorem tpDocmapAdd_rows_error (rows : List α) (docmap : DocMapBuilder)
    (hnodup : (docmap.ctidToId.map DocMapEntry.ctid ++ rows.map fun r => (row r).1).Nodup)
    (hroom : docmap.numDocs ≤ uint32Max - 1) (h : uint32Max ≤ docmap.numDocs + rows.length) :
    tpDocmapAddAll row docmap rows = .error .tooManyDocuments := by
  unfold tpDocmapAddAll
  induction rows generalizing docmap with
  | nil =>
      rw [List.length_nil] at h
      unfold uint32Max at h hroom
      omega
  | cons r rest ih =>
      rw [List.foldlM_cons]
      cases hadd : tpDocmapAdd docmap (row r).1 (row r).2.1 (row r).2.2 with
      | error e =>
          cases e with
          | tooManyDocuments => rfl
          | ctidNotInDocmap c =>
              unfold tpDocmapAdd at hadd
              split at hadd
              · cases hadd
              · split at hadd
                · cases hadd
                · cases hadd
      | ok docmap₁ =>
          have hnew : (row r).1 ∉ docmap.ctidToId.map DocMapEntry.ctid := by
            intro hmem
            exact (List.nodup_append.1 hnodup).2.2 _ hmem _ List.mem_cons_self rfl
          obtain ⟨hrows, hnum, -⟩ := tpDocmapAdd_new hadd hnew
          have hctids : docmap₁.ctidToId.map DocMapEntry.ctid =
              docmap.ctidToId.map DocMapEntry.ctid ++ [(row r).1] := by
            have := congrArg (List.map Prod.fst) hrows
            simpa [docmapRow, Function.comp_def] using this
          refine ih docmap₁ ?_ (numDocs_le_of_tpDocmapAdd hadd) ?_
          · rw [hctids, List.append_assoc]
            exact hnodup
          · rw [List.length_cons] at h
            rw [hnum]
            omega

end Filling

/-! ## Numbering -/

/-- The finalised map numbers the rows in the order `order`: the output arrays have them
in this order, and a lookup gives the position. -/
structure Numbers (docmap : DocMapBuilder) (order : List (ItemPointer × Nat × Nat)) : Prop where
  numDocs_eq : docmap.numDocs = order.length
  ctids_eq : docmap.ctids = order.map fun r => r.1
  fieldnorms_eq : docmap.fieldnorms = order.map fun r => encodeFieldnorm r.2.1
  tenantIds_eq : docmap.tenantIds = none ∧ (∀ r ∈ order, r.2.2 = 0) ∨
    docmap.tenantIds = some (order.map fun r => r.2.2) ∧ ∃ r ∈ order, r.2.2 ≠ 0
  lookup_eq : ∀ n r, order[n]? = some r → tpDocmapLookup docmap r.1 = n

section Finalize

variable (hs : HashSeq) (qs : Qsort) (docmap : DocMapBuilder)

/-- Whether any document has a tenant. -/
def docmapHasTenants : Bool :=
  (hs.scan docmap.ctidToId).any fun e => decide (e.tenantId ≠ 0)

/-- The entries in the order finalisation gives them. -/
def docmapOrder : List DocMapEntry :=
  if docmapHasTenants hs docmap then
    qs.sort docmapEntryCmpByTenantThenCtid (hs.scan docmap.ctidToId)
  else qs.sort docmapEntryCmpByCtid (hs.scan docmap.ctidToId)

theorem docmapOrder_perm : (docmapOrder hs qs docmap).Perm docmap.ctidToId := by
  unfold docmapOrder
  split
  · exact (qs.perm _ _).trans (hs.perm _)
  · exact (qs.perm _ _).trans (hs.perm _)

variable {docmap}

/-- The fields of a finalised map that readers use. -/
theorem tpDocmapFinalize_fields (h : docmap.numDocs ≠ 0) :
    (tpDocmapFinalize hs qs docmap).numDocs = docmap.numDocs ∧
      (tpDocmapFinalize hs qs docmap).ctids = (docmapOrder hs qs docmap).map DocMapEntry.ctid ∧
      (tpDocmapFinalize hs qs docmap).fieldnorms =
        (docmapOrder hs qs docmap).map (fun e => encodeFieldnorm e.docLength) ∧
      (tpDocmapFinalize hs qs docmap).tenantIds =
        (if docmapHasTenants hs docmap then
          some ((docmapOrder hs qs docmap).map DocMapEntry.tenantId)
          else none) ∧
      (tpDocmapFinalize hs qs docmap).ctidToId = docmap.ctidToId.map fun e =>
        { e with docId := (docmapOrder hs qs docmap).findIdx fun e' => e'.ctid = e.ctid } := by
  unfold tpDocmapFinalize
  rw [if_neg h]
  exact ⟨rfl, rfl, rfl, rfl, rfl⟩

/-- The tenant ranges of a finalised map. -/
theorem tpDocmapFinalize_tenantRanges (h : docmap.numDocs ≠ 0) :
    (tpDocmapFinalize hs qs docmap).tenantRanges =
      match docmapHasTenants hs docmap, docmapOrder hs qs docmap with
      | true, e :: rest => tenantRangesLoop e.tenantId 0 1 rest
      | _, _ => [] := by
  unfold tpDocmapFinalize
  rw [if_neg h]
  rfl

/-- The position of a CTID among entries with different CTIDs. -/
private theorem findIdx_ctid {entries : List DocMapEntry}
    (hnodup : (entries.map DocMapEntry.ctid).Nodup) {n : Nat} {e : DocMapEntry}
    (h : entries[n]? = some e) : entries.findIdx (fun e' => e'.ctid = e.ctid) = n := by
  obtain ⟨hn, rfl⟩ := List.getElem?_eq_some_iff.1 h
  rw [List.findIdx_eq hn]
  refine ⟨by simp, ?_⟩
  intro j hj
  have hne : entries[j].ctid ≠ entries[n].ctid := by
    intro heq
    have hmap := List.pairwise_iff_getElem.1 hnodup j n (by simp; omega) (by simpa using hn) hj
    simp [heq] at hmap
  simpa using hne

/-- A lookup in a finalised map gives the position. -/
private theorem tpDocmapLookup_finalize (h : docmap.numDocs ≠ 0)
    (hnodup : ((docmapOrder hs qs docmap).map DocMapEntry.ctid).Nodup) {n : Nat} {e : DocMapEntry}
    (he : (docmapOrder hs qs docmap)[n]? = some e) :
    tpDocmapLookup (tpDocmapFinalize hs qs docmap) e.ctid = n := by
  have hmem : e ∈ docmap.ctidToId :=
    (docmapOrder_perm hs qs docmap).subset (List.mem_of_getElem? he)
  unfold tpDocmapLookup
  rw [(tpDocmapFinalize_fields hs qs h).2.2.2.2]
  split
  case h_1 hfind =>
    have := List.find?_eq_none.1 hfind _ (List.mem_map_of_mem hmem)
    simp at this
  case h_2 entry hfind =>
    have hctid : entry.ctid = e.ctid := by simpa using List.find?_some hfind
    obtain ⟨e₀, -, rfl⟩ := List.mem_map.1 (List.mem_of_find?_eq_some hfind)
    have hsame : e₀.ctid = e.ctid := hctid
    show (docmapOrder hs qs docmap).findIdx (fun x => x.ctid = e₀.ctid) = n
    rw [hsame]
    exact findIdx_ctid hnodup he

/-- **Finalising** a map of rows with different CTIDs numbers them in the order it sorts
them. -/
theorem tpDocmapFinalize_numbers_order {rows : List (ItemPointer × Nat × Nat)}
    (hrows : docmap.ctidToId.map docmapRow = rows) (hnum : docmap.numDocs = rows.length)
    (hfresh : docmap.ctids = [] ∧ docmap.fieldnorms = [] ∧ docmap.tenantIds = none)
    (hnodup : (rows.map fun r => r.1).Nodup) :
    Numbers (tpDocmapFinalize hs qs docmap) ((docmapOrder hs qs docmap).map docmapRow) := by
  have hperm := docmapOrder_perm hs qs docmap
  by_cases hzero : docmap.numDocs = 0
  · have hnil : rows = [] := List.length_eq_zero_iff.1 (hnum ▸ hzero)
    have horder : (docmapOrder hs qs docmap).map docmapRow = [] := by
      rw [← List.perm_nil, ← hnil, ← hrows]
      exact hperm.map docmapRow
    rw [horder, tpDocmapFinalize, if_pos hzero]
    exact
      { numDocs_eq := hzero
        ctids_eq := hfresh.1
        fieldnorms_eq := hfresh.2.1
        tenantIds_eq := Or.inl ⟨hfresh.2.2, fun r hr => (nomatch hr)⟩
        lookup_eq := fun n r hr => by simp at hr }
  · have hscan : (docmapOrder hs qs docmap).Perm (hs.scan docmap.ctidToId) :=
      hperm.trans (hs.perm _).symm
    have hctids : ((docmapOrder hs qs docmap).map DocMapEntry.ctid).Nodup := by
      have hmap : docmap.ctidToId.map DocMapEntry.ctid = rows.map fun r => r.1 := by
        rw [← hrows, List.map_map]
        rfl
      exact (hperm.map _).symm.nodup (hmap ▸ hnodup)
    have horder : ((docmapOrder hs qs docmap).map docmapRow).Perm rows :=
      hrows ▸ hperm.map docmapRow
    obtain ⟨hn, hc, hf, ht, -⟩ := tpDocmapFinalize_fields hs qs hzero
    exact
      { numDocs_eq := (hn.trans hnum).trans horder.length_eq.symm
        ctids_eq := by
          rw [hc, List.map_map]
          rfl
        fieldnorms_eq := by
          rw [hf, List.map_map]
          rfl
        tenantIds_eq := by
          rw [ht]
          cases hany : docmapHasTenants hs docmap with
          | false =>
              refine Or.inl ⟨rfl, ?_⟩
              intro r hr
              obtain ⟨e, he, rfl⟩ := List.mem_map.1 hr
              have hzero := List.any_eq_false.1 hany e (hscan.subset he)
              show e.tenantId = 0
              simpa using hzero
          | true =>
              obtain ⟨e, he, hne⟩ := List.any_eq_true.1 hany
              refine Or.inr ⟨?_, docmapRow e, List.mem_map_of_mem (hscan.symm.subset he), ?_⟩
              · rw [List.map_map]
                rfl
              · show e.tenantId ≠ 0
                simpa using hne
        lookup_eq := by
          intro n r hr
          rw [List.getElem?_map, Option.map_eq_some_iff] at hr
          obtain ⟨e, he, rfl⟩ := hr
          exact tpDocmapLookup_finalize hs qs hzero hctids he }

/-- A finalised map numbers its rows in some order. -/
theorem tpDocmapFinalize_numbers {rows : List (ItemPointer × Nat × Nat)}
    (hrows : docmap.ctidToId.map docmapRow = rows) (hnum : docmap.numDocs = rows.length)
    (hfresh : docmap.ctids = [] ∧ docmap.fieldnorms = [] ∧ docmap.tenantIds = none)
    (hnodup : (rows.map fun r => r.1).Nodup) :
    ∃ order : List (ItemPointer × Nat × Nat), order.Perm rows ∧
      Numbers (tpDocmapFinalize hs qs docmap) order :=
  ⟨_, hrows ▸ (docmapOrder_perm hs qs docmap).map docmapRow,
    tpDocmapFinalize_numbers_order hs qs hrows hnum hfresh hnodup⟩

end Finalize

end PgTextsearch.Segment
