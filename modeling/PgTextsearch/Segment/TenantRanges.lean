import PgTextsearch.Segment.Docmap

/-!
# Tenant ranges of a document map (`segment/docmap.c`)

Finalisation sorts the documents by tenant and CTID once one of them has a tenant, and a
pass over the sorted entries emits one range of document ids for each run of a tenant.
The pass ends a run where the tenant changes and takes `UINT32_MAX` for the tenant behind
the last entry, so that a run of that tenant never ends.

## Main results

* `tenantRangesLoop_spec` — what the pass emits.
* `tpDocmapFinalize_docmapFinalised` — order, numbering and lookups of a finalised map.
* `tpDocmapFinalize_covers` — the ranges of a finalised map.
* `tpDocmapFinalize_exact_iff` — when the ranges are those of the tenants.
-/

namespace PgTextsearch.Segment

open PgTextsearch.Postgres

/-! ## The order of the entries -/

theorem isComparator_docmapEntryCmpByCtid : IsComparator docmapEntryCmpByCtid where
  total := by
    intro a b
    simp only [docmapEntryCmpByCtid, ItemPointer.compare_nonpos_iff]
    exact le_total a.ctid b.ctid
  trans := by
    intro a b c
    simp only [docmapEntryCmpByCtid, ItemPointer.compare_nonpos_iff]
    exact le_trans

theorem docmapEntryCmpByTenantThenCtid_nonpos_iff (a b : DocMapEntry) :
    docmapEntryCmpByTenantThenCtid a b ≤ 0 ↔
      a.tenantId < b.tenantId ∨ a.tenantId = b.tenantId ∧ a.ctid ≤ b.ctid := by
  unfold docmapEntryCmpByTenantThenCtid
  rcases lt_trichotomy a.tenantId b.tenantId with hlt | heq | hgt
  · simp [hlt]
  · simp [heq, ItemPointer.compare_nonpos_iff]
  · simp [hgt, hgt.ne', not_lt.2 hgt.le]

theorem isComparator_docmapEntryCmpByTenantThenCtid :
    IsComparator docmapEntryCmpByTenantThenCtid where
  total := by
    intro a b
    simp only [docmapEntryCmpByTenantThenCtid_nonpos_iff]
    rcases lt_trichotomy a.tenantId b.tenantId with hlt | heq | hgt
    · exact Or.inl (Or.inl hlt)
    · cases le_total a.ctid b.ctid with
      | inl hle => exact Or.inl (Or.inr ⟨heq, hle⟩)
      | inr hge => exact Or.inr (Or.inr ⟨heq.symm, hge⟩)
    · exact Or.inr (Or.inl hgt)
  trans := by
    intro a b c
    simp only [docmapEntryCmpByTenantThenCtid_nonpos_iff]
    intro hab hbc
    cases hab with
    | inl hlt =>
        cases hbc with
        | inl hlt' => exact Or.inl (hlt.trans hlt')
        | inr heq => exact Or.inl (heq.1 ▸ hlt)
    | inr heq =>
        cases hbc with
        | inl hlt' => exact Or.inl (heq.1 ▸ hlt')
        | inr heq' => exact Or.inr ⟨heq.1.trans heq'.1, heq.2.trans heq'.2⟩

/-! ## The pass over the entries -/

/-- Some range of the tenant has the document id. -/
def Covers (ranges : List TenantRange) (tenantId docId : Nat) : Prop :=
  ∃ r ∈ ranges, r.tenantId = tenantId ∧ r.firstDocId ≤ docId ∧ docId < r.firstDocId + r.docCount

theorem covers_append (ranges ranges' : List TenantRange) (tenantId docId : Nat) :
    Covers (ranges ++ ranges') tenantId docId ↔
      Covers ranges tenantId docId ∨ Covers ranges' tenantId docId := by
  simp only [Covers, List.mem_append, or_and_right, exists_or]

/-- The ranges are in order and do not overlap. -/
def RangesOrdered (ranges : List TenantRange) : Prop :=
  ranges.Pairwise fun r s =>
    r.tenantId < s.tenantId ∧ r.firstDocId + r.docCount ≤ s.firstDocId

/-- A tenant has one range only. -/
theorem RangesOrdered.eq_of_tenantId {ranges : List TenantRange} (h : RangesOrdered ranges)
    {r s : TenantRange} (hr : r ∈ ranges) (hs : s ∈ ranges) (heq : r.tenantId = s.tenantId) :
    r = s := by
  by_contra hne
  have hlt := List.Pairwise.forall_of_forall_of_flip (R := fun r s : TenantRange =>
    r ≠ s → r.tenantId ≠ s.tenantId) (fun _ _ h => absurd rfl h)
    (h.imp fun hab _ => hab.1.ne) (h.imp fun hab _ => hab.1.ne')
  exact hlt hr hs hne heq

/-- The tenant at position `n` of the entries that start at position `i`. -/
def TenantAt (i : Nat) (entries : List DocMapEntry) (tenantId n : Nat) : Prop :=
  i ≤ n ∧ (entries.map DocMapEntry.tenantId)[n - i]? = some tenantId

theorem tenantAt_cons {i : Nat} {e : DocMapEntry} {rest : List DocMapEntry} {tenantId n : Nat} :
    TenantAt i (e :: rest) tenantId n ↔
      n = i ∧ e.tenantId = tenantId ∨ TenantAt (i + 1) rest tenantId n := by
  unfold TenantAt
  rcases lt_trichotomy n i with hlt | heq | hgt
  · simp [not_le.2 hlt, hlt.ne]
    omega
  · subst heq
    simp
  · have hsub : n - i = (n - (i + 1)) + 1 := by omega
    simp [hgt.le, hgt.ne', hsub, Nat.succ_le_of_lt hgt]

/-- A run that ends at position `i`. -/
theorem covers_singleton {runTenant runStart i : Nat} (hstart : runStart < i) (tenantId n : Nat) :
    Covers [⟨runTenant, runStart, i - runStart⟩] tenantId n ↔
      tenantId = runTenant ∧ runStart ≤ n ∧ n < i := by
  simp only [Covers, List.mem_singleton, exists_eq_left, Nat.add_sub_cancel' hstart.le,
    @eq_comm _ runTenant]

/-- **The pass**: one range for every run of a tenant other than zero and `UINT32_MAX`. -/
theorem tenantRangesLoop_spec (entries : List DocMapEntry) {runTenant runStart i : Nat}
    (hstart : runStart < i) (hsorted : entries.Pairwise fun a b => a.tenantId ≤ b.tenantId)
    (hrun : ∀ e ∈ entries, runTenant ≤ e.tenantId)
    (hmax : ∀ e ∈ entries, e.tenantId ≤ uint32Max) :
    (∀ r ∈ tenantRangesLoop runTenant runStart i entries,
        runTenant ≤ r.tenantId ∧ runStart ≤ r.firstDocId) ∧
      RangesOrdered (tenantRangesLoop runTenant runStart i entries) ∧
      ∀ tenantId n, Covers (tenantRangesLoop runTenant runStart i entries) tenantId n ↔
        tenantId ≠ 0 ∧ tenantId ≠ uint32Max ∧
          (tenantId = runTenant ∧ runStart ≤ n ∧ n < i ∨ TenantAt i entries tenantId n) := by
  induction entries generalizing runTenant runStart i with
  | nil =>
      have hnone : ∀ tenantId n, ¬ TenantAt i [] tenantId n := by
        intro tenantId n hat
        simp [TenantAt] at hat
      unfold tenantRangesLoop
      split
      case isTrue hemit =>
        refine ⟨?_, List.pairwise_singleton _ _, fun tenantId n => ?_⟩
        · intro r hr
          rw [List.mem_singleton.1 hr]
          exact ⟨le_rfl, le_rfl⟩
        · rw [covers_singleton hstart]
          simp only [hnone, or_false]
          constructor
          · rintro ⟨rfl, hn⟩
            exact ⟨hemit.2, hemit.1.symm, rfl, hn⟩
          · exact fun h => h.2.2
      case isFalse hstop =>
        refine ⟨fun r hr => (nomatch hr), List.Pairwise.nil, fun tenantId n => ?_⟩
        simp only [hnone, or_false]
        constructor
        · rintro ⟨r, hr, -⟩
          exact nomatch hr
        · rintro ⟨hzero, hmax', rfl, -⟩
          exact (hstop ⟨hmax'.symm, hzero⟩).elim
  | cons e rest ih =>
      rw [List.pairwise_cons] at hsorted
      have hmaxRest : ∀ e' ∈ rest, e'.tenantId ≤ uint32Max :=
        fun e' he' => hmax e' (List.mem_cons_of_mem _ he')
      have hle := hrun e List.mem_cons_self
      unfold tenantRangesLoop
      by_cases hsame : e.tenantId = runTenant
      · -- the run goes on
        have hrest := @ih runTenant runStart (i + 1) (by omega) hsorted.2
          (fun e' he' => hrun e' (List.mem_cons_of_mem _ he')) hmaxRest
        rw [if_neg (not_not.2 hsame)]
        refine ⟨hrest.1, hrest.2.1, fun tenantId n => ?_⟩
        rw [hrest.2.2, tenantAt_cons, hsame, @eq_comm _ runTenant, ← or_assoc]
        have hpos : tenantId = runTenant ∧ runStart ≤ n ∧ n < i + 1 ↔
            tenantId = runTenant ∧ runStart ≤ n ∧ n < i ∨ n = i ∧ tenantId = runTenant := by
          omega
        rw [hpos]
      · -- the run ends in front of the entry
        have hlt : runTenant < e.tenantId := by omega
        have hnotMax : runTenant ≠ uint32Max := by
          have := hmax e List.mem_cons_self
          omega
        obtain ⟨hbounds, hordered, hcovers⟩ := @ih e.tenantId i (i + 1) (by omega) hsorted.2
          hsorted.1 hmaxRest
        rw [if_pos hsame]
        have hnext : ∀ tenantId n, tenantId = e.tenantId ∧ i ≤ n ∧ n < i + 1 ↔
            n = i ∧ e.tenantId = tenantId := by
          intro tenantId n
          omega
        by_cases hzero : runTenant = 0
        · rw [if_neg (not_not.2 hzero), List.nil_append]
          refine ⟨?_, hordered, fun tenantId n => ?_⟩
          · intro r hr
            obtain ⟨htenant, hfirst⟩ := hbounds r hr
            omega
          · rw [hcovers, hnext, ← tenantAt_cons, hzero]
            constructor
            · exact fun h => ⟨h.1, h.2.1, Or.inr h.2.2⟩
            · rintro ⟨hz, hm, hrunning | hat⟩
              · exact absurd hrunning.1 hz
              · exact ⟨hz, hm, hat⟩
        · rw [if_pos hzero, List.singleton_append]
          refine ⟨?_, List.pairwise_cons.2 ⟨?_, hordered⟩, fun tenantId n => ?_⟩
          · intro r hr
            cases List.mem_cons.1 hr with
            | inl heq => exact heq ▸ ⟨le_rfl, le_rfl⟩
            | inr hin =>
                obtain ⟨htenant, hfirst⟩ := hbounds r hin
                omega
          · intro r hr
            obtain ⟨htenant, hfirst⟩ := hbounds r hr
            exact ⟨hlt.trans_le htenant, by rw [Nat.add_sub_cancel' hstart.le]; exact hfirst⟩
          · rw [← List.singleton_append, covers_append, covers_singleton hstart, hcovers, hnext,
              ← tenantAt_cons]
            constructor
            · rintro (hrunning | hat)
              · exact ⟨hrunning.1 ▸ hzero, hrunning.1 ▸ hnotMax, Or.inl hrunning⟩
              · exact ⟨hat.1, hat.2.1, Or.inr hat.2.2⟩
            · rintro ⟨hz, hm, hrunning | hat⟩
              · exact Or.inl hrunning
              · exact Or.inr ⟨hz, hm, hat⟩

/-- No range is empty. -/
theorem tenantRangesLoop_docCount_pos (entries : List DocMapEntry) {runTenant runStart i : Nat}
    (hstart : runStart < i) :
    ∀ r ∈ tenantRangesLoop runTenant runStart i entries, 0 < r.docCount := by
  have hrun : ∀ r ∈ [(⟨runTenant, runStart, i - runStart⟩ : TenantRange)], 0 < r.docCount := by
    intro r hr
    rw [List.mem_singleton.1 hr]
    exact Nat.sub_pos_of_lt hstart
  induction entries generalizing runTenant runStart i with
  | nil =>
      unfold tenantRangesLoop
      split
      · exact hrun
      · exact fun r hr => (nomatch hr)
  | cons e rest ih =>
      have hnext : ∀ r ∈ tenantRangesLoop e.tenantId i (i + 1) rest, 0 < r.docCount :=
        ih (Nat.lt_succ_self i) fun r hr => by
          rw [List.mem_singleton.1 hr]
          exact Nat.sub_pos_of_lt (Nat.lt_succ_self i)
      unfold tenantRangesLoop
      split
      · intro r hr
        cases List.mem_append.1 hr with
        | inl hemit =>
            split at hemit
            · exact hrun r hemit
            · exact nomatch hemit
        | inr hin => exact hnext r hin
      · refine ih (by omega) fun r hr => ?_
        rw [List.mem_singleton.1 hr]
        exact Nat.sub_pos_of_lt (by omega)

/-! ## Finalised maps -/

/-- The order finalisation documents: by CTID, and by tenant first once there are tenants. -/
def DocumentBefore (tenants : Prop) (r s : ItemPointer × Nat × Nat) : Prop :=
  (tenants → r.2.2 < s.2.2 ∨ r.2.2 = s.2.2 ∧ r.1 < s.1) ∧ (¬ tenants → r.1 < s.1)

/-- Document ids, arrays and lookups after finalisation: `order` is a list of all documents in
the documented order, their positions are the document ids, and the arrays and the hash
table agree about them. -/
structure DocmapFinalised (docmap : DocMapBuilder)
    (rows order : List (ItemPointer × Nat × Nat)) : Prop where
  perm : order.Perm rows
  ordered : order.Pairwise (DocumentBefore (∃ r ∈ rows, r.2.2 ≠ 0))
  numbers : Numbers docmap order
  absent : ∀ ctid, ctid ∉ rows.map (fun r => r.1) → tpDocmapLookup docmap ctid = uint32Max

/-- The tenant ranges after finalisation: sorted by tenant, disjoint, and for every tenant but
zero exactly its document ids. -/
structure RangesExact (docmap : DocMapBuilder) (order : List (ItemPointer × Nat × Nat)) : Prop where
  ordered : RangesOrdered docmap.tenantRanges
  covers : ∀ tenantId, tenantId ≠ 0 → ∀ n, Covers docmap.tenantRanges tenantId n ↔
    ∃ r, order[n]? = some r ∧ r.2.2 = tenantId

section Finalise

variable (hs : HashSeq) (qs : Qsort) {rows : List (ItemPointer × Nat × Nat)}
  {docmap : DocMapBuilder}

/-- A map with rows of different CTIDs added to it. -/
theorem tpDocmapAddAll_create (hadd : tpDocmapAddAll id tpDocmapCreate rows = .ok docmap)
    (hnodup : (rows.map fun r => r.1).Nodup) :
    docmap.ctidToId.map docmapRow = rows ∧ docmap.numDocs = rows.length ∧
      docmap.ctids = [] ∧ docmap.fieldnorms = [] ∧ docmap.tenantIds = none ∧
      docmap.tenantRanges = [] := by
  obtain ⟨hrows, hnum, heq⟩ := tpDocmapAdd_rows id hadd hnodup
  have hrows' : docmap.ctidToId.map docmapRow = rows := by
    rw [hrows]
    simp [tpDocmapCreate]
  refine ⟨hrows', by rw [hnum]; exact Nat.zero_add _, ?_⟩
  rw [heq]
  exact ⟨rfl, rfl, rfl, rfl⟩

/-- Lookups of CTIDs that were not added. -/
theorem tpDocmapLookup_finalize_absent (hrows : docmap.ctidToId.map docmapRow = rows)
    {ctid : ItemPointer} (habsent : ctid ∉ rows.map fun r => r.1) :
    tpDocmapLookup (tpDocmapFinalize hs qs docmap) ctid = uint32Max := by
  unfold tpDocmapLookup
  split
  case h_1 => rfl
  case h_2 entry hfind =>
    have hmem := List.mem_of_find?_eq_some hfind
    have hctid : entry.ctid = ctid := by simpa using List.find?_some hfind
    have hctids : (tpDocmapFinalize hs qs docmap).ctidToId.map DocMapEntry.ctid =
        rows.map fun r => r.1 := by
      rw [← hrows, List.map_map]
      by_cases hzero : docmap.numDocs = 0
      · rw [tpDocmapFinalize, if_pos hzero]
        rfl
      · rw [(tpDocmapFinalize_fields hs qs hzero).2.2.2.2, List.map_map]
        rfl
    rw [← hctids] at habsent
    exact absurd (List.mem_map.2 ⟨entry, hmem, hctid⟩) habsent

/-- Whether finalisation finds a tenant. -/
theorem docmapHasTenants_iff (hrows : docmap.ctidToId.map docmapRow = rows) :
    docmapHasTenants hs docmap = true ↔ ∃ r ∈ rows, r.2.2 ≠ 0 := by
  unfold docmapHasTenants
  rw [List.any_eq_true, ← hrows]
  constructor
  · rintro ⟨e, he, hne⟩
    exact ⟨docmapRow e, List.mem_map_of_mem ((hs.perm _).subset he), of_decide_eq_true hne⟩
  · rintro ⟨r, hr, hne⟩
    obtain ⟨e, he, rfl⟩ := List.mem_map.1 hr
    exact ⟨e, (hs.perm _).symm.subset he, decide_eq_true hne⟩

/-- The entries of a finalised map are in the documented order. -/
theorem docmapOrder_ordered (hrows : docmap.ctidToId.map docmapRow = rows)
    (hnodup : (rows.map fun r => r.1).Nodup) :
    ((docmapOrder hs qs docmap).map docmapRow).Pairwise
      (DocumentBefore (∃ r ∈ rows, r.2.2 ≠ 0)) := by
  have hctids : ((docmapOrder hs qs docmap).map DocMapEntry.ctid).Nodup := by
    have hmap : docmap.ctidToId.map DocMapEntry.ctid = rows.map fun r => r.1 := by
      rw [← hrows, List.map_map]
      rfl
    exact ((docmapOrder_perm hs qs docmap).map _).symm.nodup (hmap ▸ hnodup)
  have hne := List.pairwise_map.1 hctids
  rw [List.pairwise_map]
  cases htenants : docmapHasTenants hs docmap with
  | true =>
      have hex := (docmapHasTenants_iff hs hrows).1 htenants
      have hsorted : (docmapOrder hs qs docmap).Pairwise
          fun a b => docmapEntryCmpByTenantThenCtid a b ≤ 0 := by
        rw [docmapOrder, if_pos htenants]
        exact qs.sorted _ _ isComparator_docmapEntryCmpByTenantThenCtid
      refine (hsorted.and hne).imp ?_
      intro a b hab
      refine ⟨fun _ => ?_, fun hnone => absurd hex hnone⟩
      cases (docmapEntryCmpByTenantThenCtid_nonpos_iff a b).1 hab.1 with
      | inl hlt => exact Or.inl hlt
      | inr heq => exact Or.inr ⟨heq.1, lt_of_le_of_ne heq.2 hab.2⟩
  | false =>
      have hnone : ¬ ∃ r ∈ rows, r.2.2 ≠ 0 := by
        rw [← docmapHasTenants_iff hs hrows, htenants]
        exact Bool.false_ne_true
      have hsorted : (docmapOrder hs qs docmap).Pairwise
          fun a b => docmapEntryCmpByCtid a b ≤ 0 := by
        rw [docmapOrder, if_neg (by rw [htenants]; exact Bool.false_ne_true)]
        exact qs.sorted _ _ isComparator_docmapEntryCmpByCtid
      refine (hsorted.and hne).imp ?_
      intro a b hab
      refine ⟨fun hex => absurd hex hnone, fun _ => ?_⟩
      exact lt_of_le_of_ne ((ItemPointer.compare_nonpos_iff _ _).1 hab.1) hab.2

/-- **Finalising**: bijection, order, arrays and lookups, for all tenants. -/
theorem tpDocmapFinalize_docmapFinalised
    (hadd : tpDocmapAddAll id tpDocmapCreate rows = .ok docmap)
    (hnodup : (rows.map fun r => r.1).Nodup) :
    DocmapFinalised (tpDocmapFinalize hs qs docmap) rows
      ((docmapOrder hs qs docmap).map docmapRow) := by
  obtain ⟨hrows, hnum, hctids, hnorms, htenantIds, -⟩ := tpDocmapAddAll_create hadd hnodup
  exact
    { perm := hrows ▸ (docmapOrder_perm hs qs docmap).map docmapRow
      ordered := docmapOrder_ordered hs qs hrows hnodup
      numbers := tpDocmapFinalize_numbers_order hs qs hrows hnum ⟨hctids, hnorms, htenantIds⟩ hnodup
      absent := fun ctid habsent => tpDocmapLookup_finalize_absent hs qs hrows habsent }

/-- **The tenant ranges** of a finalised map: those of all tenants but `UINT32_MAX`. -/
theorem tpDocmapFinalize_covers
    (hadd : tpDocmapAddAll id tpDocmapCreate rows = .ok docmap)
    (hnodup : (rows.map fun r => r.1).Nodup) (hmax : ∀ r ∈ rows, r.2.2 ≤ uint32Max) :
    RangesOrdered (tpDocmapFinalize hs qs docmap).tenantRanges ∧
      ∀ tenantId, tenantId ≠ 0 → ∀ n,
        Covers (tpDocmapFinalize hs qs docmap).tenantRanges tenantId n ↔
          tenantId ≠ uint32Max ∧
            ∃ r, ((docmapOrder hs qs docmap).map docmapRow)[n]? = some r ∧ r.2.2 = tenantId := by
  obtain ⟨hrows, hnum, -, -, -, hranges⟩ := tpDocmapAddAll_create hadd hnodup
  have hperm := docmapOrder_perm hs qs docmap
  -- without tenants there are no ranges, and no document has a nonzero tenant
  have hwithout : (tpDocmapFinalize hs qs docmap).tenantRanges = [] → (∀ r ∈ rows, r.2.2 = 0) →
      RangesOrdered (tpDocmapFinalize hs qs docmap).tenantRanges ∧
      ∀ tenantId, tenantId ≠ 0 → ∀ n,
        Covers (tpDocmapFinalize hs qs docmap).tenantRanges tenantId n ↔
          tenantId ≠ uint32Max ∧
            ∃ r, ((docmapOrder hs qs docmap).map docmapRow)[n]? = some r ∧
              r.2.2 = tenantId := by
    intro hnil hzero
    rw [hnil]
    refine ⟨List.Pairwise.nil, fun tenantId hne n => ⟨?_, ?_⟩⟩
    · rintro ⟨r, hr, -⟩
      cases hr
    · rintro ⟨-, r, hr, htenant⟩
      have hmem := (hperm.map docmapRow).subset (List.mem_of_getElem? hr)
      rw [hrows] at hmem
      exact absurd (htenant.symm.trans (hzero r hmem)) hne
  by_cases hzero : docmap.numDocs = 0
  · have hnil : rows = [] := List.length_eq_zero_iff.1 (hnum ▸ hzero)
    apply hwithout
    · rw [tpDocmapFinalize, if_pos hzero]
      exact hranges
    · rw [hnil]
      intro r hr
      cases hr
  · have hloop := tpDocmapFinalize_tenantRanges hs qs hzero
    cases htenants : docmapHasTenants hs docmap with
    | false =>
        apply hwithout
        · rw [hloop, htenants]
        · intro r hr
          by_contra hne
          have hex := (docmapHasTenants_iff hs hrows).2 ⟨r, hr, hne⟩
          rw [htenants] at hex
          exact Bool.false_ne_true hex
    | true =>
        have hex := (docmapHasTenants_iff hs hrows).1 htenants
        have hsorted : (docmapOrder hs qs docmap).Pairwise fun a b => a.tenantId ≤ b.tenantId := by
          have hordered := List.pairwise_map.1 (docmapOrder_ordered hs qs hrows hnodup)
          refine hordered.imp ?_
          intro a b hab
          cases hab.1 hex with
          | inl hlt => exact hlt.le
          | inr heq => exact heq.1.le
        have hbound : ∀ e ∈ docmapOrder hs qs docmap, e.tenantId ≤ uint32Max := by
          intro e he
          apply hmax (docmapRow e)
          rw [← hrows]
          exact List.mem_map_of_mem (hperm.subset he)
        have hat : ∀ tenantId n, TenantAt 0 (docmapOrder hs qs docmap) tenantId n ↔
            ∃ r, ((docmapOrder hs qs docmap).map docmapRow)[n]? = some r ∧ r.2.2 = tenantId := by
          intro tenantId n
          simp only [TenantAt, Nat.zero_le, true_and, Nat.sub_zero, List.getElem?_map,
            Option.map_eq_some_iff]
          constructor
          · rintro ⟨e, he, htenant⟩
            exact ⟨docmapRow e, ⟨e, he, rfl⟩, htenant⟩
          · rintro ⟨r, ⟨e, he, rfl⟩, htenant⟩
            exact ⟨e, he, htenant⟩
        rw [htenants] at hloop
        cases hentries : docmapOrder hs qs docmap with
        | nil =>
            rw [hentries, List.nil_perm] at hperm
            rw [hperm, List.map_nil] at hrows
            rw [← hrows] at hnum
            exact absurd hnum hzero
        | cons e rest =>
            rw [hentries] at hloop hsorted hbound hat
            simp only at hloop
            rw [List.pairwise_cons] at hsorted
            have hspec := tenantRangesLoop_spec rest (show 0 < 1 from Nat.one_pos) hsorted.2
              hsorted.1 fun e' he' => hbound e' (List.mem_cons_of_mem _ he')
            rw [hloop]
            refine ⟨hspec.2.1, fun tenantId hne n => ?_⟩
            rw [hspec.2.2, ← hat, tenantAt_cons]
            have hfirst : tenantId = e.tenantId ∧ 0 ≤ n ∧ n < 1 ↔
                n = 0 ∧ e.tenantId = tenantId := by
              omega
            rw [hfirst]
            exact and_iff_right hne

/-- No range of a finalised map is empty. -/
theorem tpDocmapFinalize_docCount_pos (hadd : tpDocmapAddAll id tpDocmapCreate rows = .ok docmap)
    (hnodup : (rows.map fun r => r.1).Nodup) :
    ∀ r ∈ (tpDocmapFinalize hs qs docmap).tenantRanges, 0 < r.docCount := by
  obtain ⟨-, -, -, -, -, hranges⟩ := tpDocmapAddAll_create hadd hnodup
  by_cases hzero : docmap.numDocs = 0
  · rw [tpDocmapFinalize, if_pos hzero, hranges]
    intro r hr
    cases hr
  · rw [tpDocmapFinalize_tenantRanges hs qs hzero]
    split
    · exact tenantRangesLoop_docCount_pos _ Nat.one_pos
    · intro r hr
      cases hr

/-- **Finalisation of a document map**: its ranges are exactly those of the tenants if and only
if no document has the tenant `UINT32_MAX`; the rest holds for all tenants. -/
theorem tpDocmapFinalize_exact_iff (hadd : tpDocmapAddAll id tpDocmapCreate rows = .ok docmap)
    (hnodup : (rows.map fun r => r.1).Nodup) (hmax : ∀ r ∈ rows, r.2.2 ≤ uint32Max) :
    (∃ order, DocmapFinalised (tpDocmapFinalize hs qs docmap) rows order ∧
        RangesExact (tpDocmapFinalize hs qs docmap) order) ↔
      ∀ r ∈ rows, r.2.2 ≠ uint32Max := by
  obtain ⟨hordered, hcovers⟩ := tpDocmapFinalize_covers hs qs hadd hnodup hmax
  constructor
  · rintro ⟨order, hfinal, hexact⟩ r hr hlast
    obtain ⟨n, hn, hget⟩ := List.getElem_of_mem (hfinal.perm.symm.subset hr)
    have hne : uint32Max ≠ 0 := by decide
    have hcover := (hexact.covers uint32Max hne n).2
      ⟨r, by rw [List.getElem?_eq_getElem hn, hget], hlast⟩
    exact ((hcovers uint32Max hne n).1 hcover).1 rfl
  · intro hnone
    have hfinal := tpDocmapFinalize_docmapFinalised hs qs hadd hnodup
    refine ⟨_, hfinal, hordered, fun tenantId hne n => ?_⟩
    rw [hcovers tenantId hne n]
    refine and_iff_right_of_imp ?_
    rintro ⟨r, hr, rfl⟩
    exact hnone r (hfinal.perm.subset (List.mem_of_getElem? hr))

end Finalise

/-- A map with one document of tenant `t`, before it is finalised. -/
def oneDocument (t : Nat) : DocMapBuilder :=
  { tpDocmapCreate with ctidToId := [⟨⟨1, 1⟩, 0, 5, t⟩], numDocs := 1 }

theorem tpDocmapFinalize_exact_iff_seven :
    (∃ order, DocmapFinalised (tpDocmapFinalize insertionHashSeq insertionQsort (oneDocument 7))
        [(⟨1, 1⟩, 5, 7)] order ∧
        RangesExact (tpDocmapFinalize insertionHashSeq insertionQsort (oneDocument 7)) order) ↔
      ∀ r ∈ [((⟨1, 1⟩ : ItemPointer), 5, 7)], r.2.2 ≠ uint32Max :=
  tpDocmapFinalize_exact_iff insertionHashSeq insertionQsort rfl (by decide) (by decide)

/-- The only document has the tenant `UINT32_MAX`, and there is no range. -/
theorem tpDocmapFinalize_last_tenant :
    tpDocmapAddAll id tpDocmapCreate [(⟨1, 1⟩, 5, uint32Max)] = .ok (oneDocument uint32Max) ∧
      ¬ ∃ order, DocmapFinalised
          (tpDocmapFinalize insertionHashSeq insertionQsort (oneDocument uint32Max))
          [(⟨1, 1⟩, 5, uint32Max)] order ∧
        RangesExact (tpDocmapFinalize insertionHashSeq insertionQsort (oneDocument uint32Max))
          order := by
  refine ⟨rfl, ?_⟩
  rintro ⟨order, hfinal, hexact⟩
  have horder := List.perm_singleton.1 hfinal.perm
  have hranges : (tpDocmapFinalize insertionHashSeq insertionQsort
      (oneDocument uint32Max)).tenantRanges = [] := by decide
  have hcover := (hexact.covers uint32Max (by decide) 0).2
    ⟨(⟨1, 1⟩, 5, uint32Max), by rw [horder]; rfl, rfl⟩
  rw [hranges] at hcover
  obtain ⟨r, hr, -⟩ := hcover
  exact nomatch hr

end PgTextsearch.Segment
