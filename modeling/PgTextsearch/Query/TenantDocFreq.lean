import PgTextsearch.Segment.FileWriter
import PgTextsearch.Verified.BinarySearch
import PgTextsearch.Verified.DistinctKeys

/-!
# Document frequencies of a tenant (`query/score.c`, `segment/scan.c`)

A query of one tenant weighs a term by the number of the tenant's documents that contain
it.  The memtable is counted; a segment has the counts in a section of its own, unless it
was written without tenant data, and then the frequency over all documents stands in.  A
query of one term decides about that for a whole chain, a query of several terms segment
by segment.

The segments of a level are the list their chain is walked in, and the sections of a
segment are those that `tp_write_segment` writes for its dictionary.

## Main results

* `tpGetTenantDocFreq_eq`, `tpBatchGetTenantDocFreq_eq` — the two lookups as sums.
* `tenantDocFreq_agree_iff` — when they agree.
-/

namespace PgTextsearch.Query.TenantDocFreq

open PgTextsearch.Postgres PgTextsearch.Segment PgTextsearch.Segment.File PgTextsearch.Verified

/-- What the lookups read of a segment: the dictionary with the postings of every term, from
which the entries and the tenant sections are written, and whether there are tenant
sections. -/
structure TenantSegment where
  terms : List TermInfo
  hasTenantData : Bool
  sorted : terms.Pairwise fun a b => a.term.bytes < b.term.bytes

/-- `TpDictEntry.doc_freq` of an entry. -/
def entryDocFreq (info : TermInfo) : Nat := info.postings.length

/-- The search for a term in the dictionary. -/
def dictionarySearch (segment : TenantSegment) (term : CString) : Option TermInfo :=
  (searchList (fun info => strcmp term.bytes info.term.bytes) segment.terms).bind
    fun mid => segment.terms[mid]?

/-- The search for a tenant in the list of a term. -/
def tenantSearch (entries : List (Nat × Nat)) (tenantId : Nat) : Option (Nat × Nat) :=
  (searchList (fun e => if e.1 = tenantId then 0 else if e.1 < tenantId then 1 else -1)
    entries).bind fun mid => entries[mid]?

/-- `tp_segment_get_doc_freq`. -/
def tpSegmentGetDocFreq (chain : List TenantSegment) (term : CString) : Nat :=
  chain.foldl (fun docFreq segment =>
    if segment.terms.length = 0 then docFreq
    else
      match dictionarySearch segment term with
      | some info => docFreq + entryDocFreq info
      | none => docFreq) 0

section Lookups

variable (hs : HashSeq) (qs : Qsort)

/-- `tp_segment_get_tenant_doc_freq`: the sum along a chain, and whether some segment of it has
tenant data. -/
def tpSegmentGetTenantDocFreq (chain : List TenantSegment) (term : CString) (tenantId : Nat) :
    Nat × Bool :=
  chain.foldl (fun acc segment =>
    if segment.terms.length > 0 ∧ segment.hasTenantData then
      match dictionarySearch segment term with
      | some info =>
          match tenantSearch (computeTermTenantDocfreq hs qs info.postings) tenantId with
          | some e => (acc.1 + e.2, true)
          | none => (acc.1, true)
      | none => (acc.1, true)
    else acc) (0, false)

/-- `tp_batch_get_segment_tenant_doc_freq`. -/
def tpBatchGetSegmentTenantDocFreq (chain : List TenantSegment) (terms : List CString)
    (docFreqs : List Nat) (tenantId : Nat) : List Nat :=
  chain.foldl (fun docFreqs segment =>
    if segment.terms.length = 0 then docFreqs
    else
      List.zipWith (fun term docFreq =>
        match dictionarySearch segment term with
        | some info =>
            if segment.hasTenantData then
              match tenantSearch (computeTermTenantDocfreq hs qs info.postings) tenantId with
              | some e => docFreq + e.2
              | none => docFreq
            else docFreq + entryDocFreq info
        | none => docFreq) terms docFreqs) docFreqs

/-- The postings of a tenant in the memtable. -/
def memtableTenantDocFreq (mt : Memtable CString) (term : CString) (tenantId : Nat) : Nat :=
  (mt.postings term).foldl
    (fun docFreq entry => if entry.tenantId = tenantId then docFreq + 1 else docFreq) 0

/-- `tp_get_tenant_doc_freq`. -/
def tpGetTenantDocFreq (mt : Memtable CString) (levels : List (List TenantSegment))
    (term : CString) (tenantId : Nat) : Nat :=
  levels.foldl (fun docFreq chain =>
    let seg := tpSegmentGetTenantDocFreq hs qs chain term tenantId
    if seg.1 > 0 then docFreq + seg.1
    else if !seg.2 then docFreq + tpSegmentGetDocFreq chain term
    else docFreq) (memtableTenantDocFreq mt term tenantId)

/-- `tp_batch_get_tenant_doc_freq`. -/
def tpBatchGetTenantDocFreq (mt : Memtable CString) (levels : List (List TenantSegment))
    (terms : List CString) (tenantId : Nat) : List Nat :=
  levels.foldl
    (fun docFreqs chain => tpBatchGetSegmentTenantDocFreq hs qs chain terms docFreqs tenantId)
    (terms.map fun term => memtableTenantDocFreq mt term tenantId)

end Lookups

/-! ## What a segment answers -/

/-- The postings a segment has for a term. -/
def TenantSegment.postings (segment : TenantSegment) (term : CString) : List MemPosting :=
  ((segment.terms.find? fun info => info.term = term).map TermInfo.postings).getD []

/-- The documents of a tenant among postings. -/
def tenantCount (postings : List MemPosting) (tenantId : Nat) : Nat :=
  postings.countP fun p => p.tenantId = tenantId

/-- **The dictionary search** finds the term. -/
theorem dictionarySearch_eq (segment : TenantSegment) (term : CString) :
    dictionarySearch segment term = segment.terms.find? fun info => info.term = term := by
  have hsorted : segment.terms.Pairwise fun a b =>
      strcmp term.bytes a.term.bytes ≤ 0 → strcmp term.bytes b.term.bytes < 0 := by
    refine segment.sorted.imp ?_
    intro a b hab hle
    rw [strcmp_neg_iff]
    have hterm : term.bytes ≤ a.term.bytes := by
      rw [← not_lt, ← strcmp_pos_iff]
      exact not_lt.2 hle
    exact hterm.trans_lt hab
  have hzero : ∀ info : TermInfo,
      strcmp term.bytes info.term.bytes = 0 ↔ info.term = term := by
    intro info
    rw [strcmp_eq_zero_iff]
    exact ⟨fun heq => CString.ext_bytes heq.symm, fun heq => by rw [heq]⟩
  unfold dictionarySearch
  rw [searchList_bind _ _ hsorted]
  simp only [hzero]

/-! ## The lists of the tenants -/

/-- One posting counted. -/
private def countTenant (ht : AList fun _ : Nat => Nat) (p : MemPosting) :
    AList fun _ : Nat => Nat :=
  if p.tenantId = 0 then ht
  else
    match ht.lookup p.tenantId with
    | none => ht.insert p.tenantId 1
    | some n => ht.insert p.tenantId (n + 1)

/-- **The count** of a tenant after any postings. -/
private theorem lookup_foldl_countTenant (postings : List MemPosting)
    (ht : AList fun _ : Nat => Nat) {tenantId : Nat} (hne : tenantId ≠ 0) :
    ((postings.foldl countTenant ht).lookup tenantId).getD 0 =
      (ht.lookup tenantId).getD 0 + tenantCount postings tenantId := by
  induction postings generalizing ht with
  | nil => rfl
  | cons p rest ih =>
      have hstep : ((countTenant ht p).lookup tenantId).getD 0 =
          (ht.lookup tenantId).getD 0 + if p.tenantId = tenantId then 1 else 0 := by
        unfold countTenant
        by_cases hzero : p.tenantId = 0
        · rw [if_pos hzero, if_neg (by omega), Nat.add_zero]
        · rw [if_neg hzero]
          by_cases hsame : p.tenantId = tenantId
          · subst hsame
            cases hlookup : ht.lookup p.tenantId with
            | none => simp
            | some n => simp
          · have hother : tenantId ≠ p.tenantId := fun heq => hsame heq.symm
            rw [if_neg hsame, Nat.add_zero]
            cases hlookup : ht.lookup p.tenantId with
            | none => simp [AList.lookup_insert_ne hother]
            | some n => simp [AList.lookup_insert_ne hother]
      rw [List.foldl_cons, ih, hstep, tenantCount, tenantCount, List.countP_cons]
      simp only [decide_eq_true_eq]
      omega

section TenantLists

variable (hs : HashSeq) (qs : Qsort)

private theorem computeTermTenantDocfreq_perm (postings : List MemPosting) :
    (computeTermTenantDocfreq hs qs postings).Perm
      ((postings.foldl countTenant ∅).entries.map fun e => (e.1, e.2)) :=
  (qs.perm _ _).trans ((hs.perm _).map _)

private theorem isComparator_compareTenantDocfreq : IsComparator compareTenantDocfreq where
  total := by
    intro a b
    unfold compareTenantDocfreq compareTenant
    split_ifs <;> omega
  trans := by
    intro a b c
    unfold compareTenantDocfreq compareTenant
    split_ifs <;> omega

/-- The list of a term is sorted by tenant. -/
theorem computeTermTenantDocfreq_sorted (postings : List MemPosting) :
    (computeTermTenantDocfreq hs qs postings).Pairwise fun a b => a.1 < b.1 := by
  have hle : (computeTermTenantDocfreq hs qs postings).Pairwise fun a b => a.1 ≤ b.1 := by
    refine (qs.sorted _ _ isComparator_compareTenantDocfreq).imp ?_
    intro a b hab
    unfold compareTenantDocfreq compareTenant at hab
    split_ifs at hab <;> omega
  have hkeys : ((postings.foldl countTenant ∅).entries.map
      fun e => ((e.1, e.2) : Nat × Nat)).Pairwise fun a b => a.1 ≠ b.1 :=
    List.pairwise_map.2 (List.pairwise_map.1 (postings.foldl countTenant ∅).nodupKeys)
  have hne : (computeTermTenantDocfreq hs qs postings).Pairwise fun a b => a.1 ≠ b.1 :=
    ((computeTermTenantDocfreq_perm hs qs postings).pairwise_iff fun h => Ne.symm h).2 hkeys
  refine (hle.and hne).imp ?_
  intro a b hab
  exact lt_of_le_of_ne hab.1 hab.2

/-- **The search for a tenant** gives the number of its documents. -/
theorem tenantSearch_computeTermTenantDocfreq (postings : List MemPosting) {tenantId : Nat}
    (hne : tenantId ≠ 0) :
    ((tenantSearch (computeTermTenantDocfreq hs qs postings) tenantId).map Prod.snd).getD 0 =
      tenantCount postings tenantId := by
  have hsorted := computeTermTenantDocfreq_sorted hs qs postings
  have hcmp : (computeTermTenantDocfreq hs qs postings).Pairwise fun a b =>
      (if a.1 = tenantId then (0 : Int) else if a.1 < tenantId then 1 else -1) ≤ 0 →
        (if b.1 = tenantId then (0 : Int) else if b.1 < tenantId then 1 else -1) < 0 := by
    refine hsorted.imp ?_
    intro a b hab
    split_ifs <;> omega
  have hzero : ∀ e : Nat × Nat,
      (if e.1 = tenantId then (0 : Int) else if e.1 < tenantId then 1 else -1) = 0 ↔
        e.1 = tenantId := by
    intro e
    by_cases heq : e.1 = tenantId
    · simp [heq]
    · by_cases hlt : e.1 < tenantId <;> simp [heq, hlt]
  have hcount := lookup_foldl_countTenant postings ∅ hne
  have hperm := computeTermTenantDocfreq_perm hs qs postings
  unfold tenantSearch
  rw [searchList_bind _ _ hcmp]
  simp only [hzero]
  rw [AList.lookup_empty, Option.getD_none, Nat.zero_add] at hcount
  rw [← hcount]
  cases hlookup : (postings.foldl countTenant ∅).lookup tenantId with
  | none =>
      have hnone : (computeTermTenantDocfreq hs qs postings).find? (fun e => e.1 = tenantId) =
          none := by
        rw [List.find?_eq_none]
        intro e he heq
        obtain ⟨e', he', rfl⟩ := List.mem_map.1 (hperm.subset he)
        have hmem : ⟨e'.1, e'.2⟩ ∈ (postings.foldl countTenant ∅).entries := he'
        rw [← AList.mem_lookup_iff] at hmem
        have hkey : e'.1 = tenantId := by simpa using heq
        rw [hkey, Option.mem_def] at hmem
        rw [hmem] at hlookup
        cases hlookup
      rw [hnone]
      rfl
  | some n =>
      have hmem : (tenantId, n) ∈ computeTermTenantDocfreq hs qs postings := by
        apply hperm.symm.subset
        have hentry := AList.mem_lookup_iff.1 (Option.mem_def.2 hlookup)
        exact List.mem_map_of_mem hentry
      rw [DistinctKeys.find?_eq_some_of_sorted hsorted hmem rfl]
      rfl

end TenantLists

/-! ## Sums along lists -/

private theorem foldl_add_eq {α : Type} (f : α → Nat) (l : List α) (acc : Nat) :
    l.foldl (fun n a => n + f a) acc = acc + (l.map f).sum := by
  induction l generalizing acc with
  | nil => rfl
  | cons a rest ih => rw [List.foldl_cons, ih, List.map_cons, List.sum_cons, Nat.add_assoc]

private theorem sum_map_le {α : Type} {f g : α → Nat} {l : List α} (hle : ∀ a ∈ l, f a ≤ g a) :
    (l.map f).sum ≤ (l.map g).sum := by
  induction l with
  | nil => exact le_rfl
  | cons a rest ih =>
      rw [List.map_cons, List.map_cons, List.sum_cons, List.sum_cons]
      exact Nat.add_le_add (hle a List.mem_cons_self)
        (ih fun b hb => hle b (List.mem_cons_of_mem _ hb))

/-- Of two sums, one below the other term by term, equality is equality of all terms. -/
private theorem sum_map_eq_iff {α : Type} {f g : α → Nat} {l : List α}
    (hle : ∀ a ∈ l, f a ≤ g a) : (l.map f).sum = (l.map g).sum ↔ ∀ a ∈ l, f a = g a := by
  induction l with
  | nil => simp
  | cons a rest ih =>
      have hrest : ∀ b ∈ rest, f b ≤ g b := fun b hb => hle b (List.mem_cons_of_mem _ hb)
      have hhead := hle a List.mem_cons_self
      have hsum := sum_map_le hrest
      rw [List.map_cons, List.map_cons, List.sum_cons, List.sum_cons, List.forall_mem_cons,
        ← ih hrest]
      omega

/-! ## The lookups as sums -/

/-- What a segment counts for a term in a query of several terms. -/
def segmentCount (term : CString) (tenantId : Nat) (segment : TenantSegment) : Nat :=
  if segment.hasTenantData then tenantCount (segment.postings term) tenantId
  else (segment.postings term).length

/-- What a segment with tenant data counts for a term. -/
def segmentTenantCount (term : CString) (tenantId : Nat) (segment : TenantSegment) : Nat :=
  if segment.hasTenantData then tenantCount (segment.postings term) tenantId else 0

/-- Some segment of the chain has tenant data. -/
def hasV4 (chain : List TenantSegment) : Bool :=
  chain.any fun segment => decide (segment.terms.length > 0) && segment.hasTenantData

/-- The postings found by the dictionary search. -/
theorem postings_eq (segment : TenantSegment) (term : CString) :
    segment.postings term = ((dictionarySearch segment term).map TermInfo.postings).getD [] := by
  rw [dictionarySearch_eq]
  rfl

theorem postings_of_no_terms {segment : TenantSegment} (hnone : segment.terms.length = 0)
    (term : CString) : segment.postings term = [] := by
  have hnil := List.eq_nil_of_length_eq_zero hnone
  simp [TenantSegment.postings, hnil]

theorem tpSegmentGetDocFreq_eq (chain : List TenantSegment) (term : CString) :
    tpSegmentGetDocFreq chain term =
      (chain.map fun segment => (segment.postings term).length).sum := by
  have hrun : ∀ acc, chain.foldl (fun docFreq segment =>
      if segment.terms.length = 0 then docFreq
      else
        match dictionarySearch segment term with
        | some info => docFreq + entryDocFreq info
        | none => docFreq) acc =
      acc + (chain.map fun segment => (segment.postings term).length).sum := by
    induction chain with
    | nil => exact fun acc => rfl
    | cons segment rest ih =>
        intro acc
        rw [List.foldl_cons, ih, List.map_cons, List.sum_cons, ← Nat.add_assoc]
        congr 1
        by_cases hnone : segment.terms.length = 0
        · rw [if_pos hnone, postings_of_no_terms hnone]
          rfl
        · rw [if_neg hnone, postings_eq]
          cases dictionarySearch segment term with
          | none => rfl
          | some info => rfl
  rw [tpSegmentGetDocFreq, hrun, Nat.zero_add]

section Sums

variable (hs : HashSeq) (qs : Qsort) {tenantId : Nat} (hne : tenantId ≠ 0)

include hne

/-- The count of a term's list, added to any number. -/
private theorem add_tenantSearch (info : TermInfo) (n : Nat) :
    (match tenantSearch (computeTermTenantDocfreq hs qs info.postings) tenantId with
      | some e => n + e.2
      | none => n) = n + tenantCount info.postings tenantId := by
  rw [← tenantSearch_computeTermTenantDocfreq hs qs info.postings hne]
  cases tenantSearch (computeTermTenantDocfreq hs qs info.postings) tenantId with
  | none => rfl
  | some e => rfl

/-- **The single lookup** along a chain. -/
theorem tpSegmentGetTenantDocFreq_eq (chain : List TenantSegment) (term : CString) :
    tpSegmentGetTenantDocFreq hs qs chain term tenantId =
      ((chain.map (segmentTenantCount term tenantId)).sum, hasV4 chain) := by
  have hrun : ∀ acc : Nat × Bool, chain.foldl (fun acc segment =>
      if segment.terms.length > 0 ∧ segment.hasTenantData then
        match dictionarySearch segment term with
        | some info =>
            match tenantSearch (computeTermTenantDocfreq hs qs info.postings) tenantId with
            | some e => (acc.1 + e.2, true)
            | none => (acc.1, true)
        | none => (acc.1, true)
      else acc) acc =
      (acc.1 + (chain.map (segmentTenantCount term tenantId)).sum, acc.2 || hasV4 chain) := by
    induction chain with
    | nil => simp [hasV4]
    | cons segment rest ih =>
        intro acc
        rw [List.foldl_cons, ih, List.map_cons, List.sum_cons, ← Nat.add_assoc]
        by_cases hdata : segment.terms.length > 0 ∧ segment.hasTenantData = true
        · have hv4 : hasV4 (segment :: rest) = true := by simp [hasV4, hdata]
          have hcount : segmentTenantCount term tenantId segment =
              tenantCount (((dictionarySearch segment term).map TermInfo.postings).getD [])
                tenantId := by
            rw [segmentTenantCount, if_pos hdata.2, postings_eq]
          rw [if_pos hdata, hv4, Bool.or_true, hcount]
          cases dictionarySearch segment term with
          | none => simp [tenantCount]
          | some info =>
              have hadd := add_tenantSearch hs qs hne info acc.1
              simp only [Option.map_some, Option.getD_some]
              rw [← hadd]
              cases tenantSearch (computeTermTenantDocfreq hs qs info.postings) tenantId with
              | none => simp
              | some e => simp
        · have hv4 : hasV4 (segment :: rest) = hasV4 rest := by
            have hhead : (decide (segment.terms.length > 0) && segment.hasTenantData) = false := by
              simpa using hdata
            rw [hasV4, List.any_cons, hhead, Bool.false_or]
            rfl
          have hcount : segmentTenantCount term tenantId segment = 0 := by
            unfold segmentTenantCount
            split
            case isTrue htrue =>
              have hnone : segment.terms.length = 0 := by
                by_contra hpos
                exact hdata ⟨Nat.pos_of_ne_zero hpos, htrue⟩
              rw [postings_of_no_terms hnone]
              rfl
            case isFalse => rfl
          rw [if_neg hdata, hv4, hcount, Nat.add_zero]
  rw [tpSegmentGetTenantDocFreq, hrun]
  simp

/-- **The batch lookup** along a chain. -/
theorem tpBatchGetSegmentTenantDocFreq_eq (chain : List TenantSegment) (terms : List CString)
    (f : CString → Nat) :
    tpBatchGetSegmentTenantDocFreq hs qs chain terms (terms.map f) tenantId =
      terms.map fun term => f term + (chain.map (segmentCount term tenantId)).sum := by
  unfold tpBatchGetSegmentTenantDocFreq
  induction chain generalizing f with
  | nil => simp
  | cons segment rest ih =>
      have hstep : (if segment.terms.length = 0 then terms.map f
          else
            List.zipWith (fun term docFreq =>
              match dictionarySearch segment term with
              | some info =>
                  if segment.hasTenantData then
                    match tenantSearch (computeTermTenantDocfreq hs qs info.postings) tenantId with
                    | some e => docFreq + e.2
                    | none => docFreq
                  else docFreq + entryDocFreq info
              | none => docFreq) terms (terms.map f)) =
          terms.map fun term => f term + segmentCount term tenantId segment := by
        by_cases hnone : segment.terms.length = 0
        · rw [if_pos hnone]
          apply List.map_congr_left
          intro term _
          simp [segmentCount, postings_of_no_terms hnone, tenantCount]
        · rw [if_neg hnone, List.zipWith_map_right, List.zipWith_self]
          apply List.map_congr_left
          intro term _
          rw [segmentCount, postings_eq]
          cases dictionarySearch segment term with
          | none => simp [tenantCount]
          | some info =>
              simp only [Option.map_some, Option.getD_some]
              split
              · exact add_tenantSearch hs qs hne info (f term)
              · rfl
      rw [List.foldl_cons, hstep, ih]
      simp [Nat.add_assoc]

omit hne in
/-- The memtable's share. -/
theorem memtableTenantDocFreq_eq (mt : Memtable CString) (term : CString) (tenantId : Nat) :
    memtableTenantDocFreq mt term tenantId = tenantCount (mt.postings term) tenantId := by
  have hrun : ∀ (postings : List MemPosting) (acc : Nat), postings.foldl
      (fun docFreq entry => if entry.tenantId = tenantId then docFreq + 1 else docFreq) acc =
      acc + tenantCount postings tenantId := by
    intro postings
    induction postings with
    | nil => exact fun acc => rfl
    | cons p rest ih =>
        intro acc
        rw [List.foldl_cons, ih, tenantCount, tenantCount, List.countP_cons]
        by_cases hsame : p.tenantId = tenantId
        · simp only [hsame, if_true, decide_true]
          omega
        · simp only [hsame, if_false, decide_false, Bool.false_eq_true, Nat.add_zero]
  rw [memtableTenantDocFreq, hrun, Nat.zero_add]

omit hne in
/-- Without tenant data the single lookup finds nothing, and all documents are counted. -/
theorem chain_without_tenants {chain : List TenantSegment} (hnone : hasV4 chain = false)
    (term : CString) :
    (chain.map (segmentTenantCount term tenantId)).sum = 0 ∧
      tpSegmentGetDocFreq chain term = (chain.map (segmentCount term tenantId)).sum := by
  have hempty : ∀ segment ∈ chain, segment.hasTenantData = true →
      segment.postings term = [] := by
    intro segment hmem htrue
    have hhead := List.any_eq_false.1 hnone segment hmem
    apply postings_of_no_terms
    simpa [htrue] using hhead
  constructor
  · rw [List.sum_eq_zero_iff]
    intro n hn
    obtain ⟨segment, hmem, rfl⟩ := List.mem_map.1 hn
    unfold segmentTenantCount
    split
    case isTrue htrue =>
      rw [hempty segment hmem htrue]
      rfl
    case isFalse => rfl
  · rw [tpSegmentGetDocFreq_eq]
    congr 1
    apply List.map_congr_left
    intro segment hmem
    unfold segmentCount
    split
    case isTrue htrue =>
      rw [hempty segment hmem htrue]
      rfl
    case isFalse => rfl

/-- **The single lookup**: a chain with tenant data anywhere counts what has tenant data, any
other chain counts all documents. -/
theorem tpGetTenantDocFreq_eq (mt : Memtable CString) (levels : List (List TenantSegment))
    (term : CString) :
    tpGetTenantDocFreq hs qs mt levels term tenantId =
      tenantCount (mt.postings term) tenantId +
        (levels.map fun chain =>
          if hasV4 chain then (chain.map (segmentTenantCount term tenantId)).sum
          else (chain.map (segmentCount term tenantId)).sum).sum := by
  rw [← memtableTenantDocFreq_eq, ← foldl_add_eq]
  unfold tpGetTenantDocFreq
  congr 1
  funext docFreq chain
  simp only [tpSegmentGetTenantDocFreq_eq hs qs hne]
  cases hv4 : hasV4 chain with
  | true =>
      simp only [Bool.not_true, Bool.false_eq_true, if_false, if_true]
      split
      · rfl
      · omega
  | false =>
      obtain ⟨hzero, hall⟩ := @chain_without_tenants tenantId chain hv4 term
      simp only [hzero, hall, lt_irrefl, if_false, Bool.not_false, if_true,
        Bool.false_eq_true]

/-- **The batch lookup** counts every segment by itself. -/
theorem tpBatchGetTenantDocFreq_eq (mt : Memtable CString) (levels : List (List TenantSegment))
    (terms : List CString) :
    tpBatchGetTenantDocFreq hs qs mt levels terms tenantId =
      terms.map fun term => tenantCount (mt.postings term) tenantId +
        (levels.map fun chain => (chain.map (segmentCount term tenantId)).sum).sum := by
  have hrun : ∀ f : CString → Nat, levels.foldl (fun docFreqs chain =>
      tpBatchGetSegmentTenantDocFreq hs qs chain terms docFreqs tenantId) (terms.map f) =
      terms.map fun term => f term +
        (levels.map fun chain => (chain.map (segmentCount term tenantId)).sum).sum := by
    induction levels with
    | nil => simp
    | cons chain rest ih =>
        intro f
        rw [List.foldl_cons, tpBatchGetSegmentTenantDocFreq_eq hs qs hne, ih]
        simp [Nat.add_assoc]
  unfold tpBatchGetTenantDocFreq
  simp only [memtableTenantDocFreq_eq]
  exact hrun fun term => tenantCount (mt.postings term) tenantId

end Sums

/-! ## Agreement -/

/-- A chain does not mix segments with tenant data and segments without whose documents have
one of the terms. -/
def Unmixed (chain : List TenantSegment) (terms : List CString) : Prop :=
  (∃ segment ∈ chain, segment.terms ≠ [] ∧ segment.hasTenantData = true) →
    ∀ segment ∈ chain, segment.hasTenantData = false →
      ∀ term ∈ terms, segment.postings term = []

theorem hasV4_iff (chain : List TenantSegment) : hasV4 chain = true ↔
    ∃ segment ∈ chain, segment.terms ≠ [] ∧ segment.hasTenantData = true := by
  simp [hasV4, List.length_pos_iff]

/-- The two counts of one chain. -/
theorem chain_counts (chain : List TenantSegment) (term : CString) (tenantId : Nat) :
    (if hasV4 chain then (chain.map (segmentTenantCount term tenantId)).sum
        else (chain.map (segmentCount term tenantId)).sum) ≤
      (chain.map (segmentCount term tenantId)).sum ∧
    ((if hasV4 chain then (chain.map (segmentTenantCount term tenantId)).sum
        else (chain.map (segmentCount term tenantId)).sum) =
      (chain.map (segmentCount term tenantId)).sum ↔
      (hasV4 chain = true → ∀ segment ∈ chain, segment.hasTenantData = false →
        segment.postings term = [])) := by
  have hle : ∀ segment ∈ chain,
      segmentTenantCount term tenantId segment ≤ segmentCount term tenantId segment := by
    intro segment _
    unfold segmentTenantCount segmentCount
    split
    · exact le_rfl
    · exact Nat.zero_le _
  cases hv4 : hasV4 chain with
  | false => simp
  | true =>
      simp only [if_true, forall_true_left]
      refine ⟨sum_map_le hle, ?_⟩
      rw [sum_map_eq_iff hle]
      apply forall₂_congr
      intro segment _
      unfold segmentTenantCount segmentCount
      cases segment.hasTenantData with
      | true => simp
      | false =>
          simp only [Bool.false_eq_true, if_false, forall_true_left]
          rw [eq_comm, List.length_eq_zero_iff]

/-- The documents of a tenant that contain a term. -/
def tenantDocuments (mt : Memtable CString) (levels : List (List TenantSegment))
    (term : CString) (tenantId : Nat) : Nat :=
  tenantCount (mt.postings term) tenantId +
    (levels.flatten.map fun segment => tenantCount (segment.postings term) tenantId).sum

/-- **The two lookups of a tenant's document frequencies** agree if and only if no chain is
mixed; where all segments have tenant data, they count the tenant's documents. -/
theorem tenantDocFreq_agree_iff (hs : HashSeq) (qs : Qsort) (mt : Memtable CString)
    (levels : List (List TenantSegment)) (terms : List CString) (tenantId : Nat)
    (hne : tenantId ≠ 0) :
    (tpBatchGetTenantDocFreq hs qs mt levels terms tenantId =
        (terms.map fun term => tpGetTenantDocFreq hs qs mt levels term tenantId) ∧
      ((∀ chain ∈ levels, ∀ segment ∈ chain, segment.hasTenantData = true) →
        ∀ term ∈ terms, tpGetTenantDocFreq hs qs mt levels term tenantId =
          tenantDocuments mt levels term tenantId)) ↔
      ∀ chain ∈ levels, Unmixed chain terms := by
  have hagree : tpBatchGetTenantDocFreq hs qs mt levels terms tenantId =
      (terms.map fun term => tpGetTenantDocFreq hs qs mt levels term tenantId) ↔
      ∀ chain ∈ levels, Unmixed chain terms := by
    rw [tpBatchGetTenantDocFreq_eq hs qs hne, List.map_inj_left]
    simp only [tpGetTenantDocFreq_eq hs qs hne, Nat.add_left_cancel_iff]
    constructor
    · intro hsums chain hchain hv4 segment hmem hdata term hterm
      have hall := (sum_map_eq_iff fun c _ => (chain_counts c term tenantId).1).1
        (hsums term hterm).symm chain hchain
      exact (chain_counts chain term tenantId).2.1 hall ((hasV4_iff chain).2 hv4) segment hmem
        hdata
    · intro hunmixed term hterm
      refine ((sum_map_eq_iff fun c _ => (chain_counts c term tenantId).1).2 ?_).symm
      intro chain hchain
      refine (chain_counts chain term tenantId).2.2 fun hv4 segment hmem hdata => ?_
      exact hunmixed chain hchain ((hasV4_iff chain).1 hv4) segment hmem hdata term hterm
  have hcount : (∀ chain ∈ levels, ∀ segment ∈ chain, segment.hasTenantData = true) →
      ∀ term ∈ terms, tpGetTenantDocFreq hs qs mt levels term tenantId =
        tenantDocuments mt levels term tenantId := by
    intro hdata term _
    rw [tpGetTenantDocFreq_eq hs qs hne, tenantDocuments, List.map_flatten, List.sum_flatten,
      List.map_map]
    congr 2
    apply List.map_congr_left
    intro chain hchain
    have hmap : ∀ f : CString → Nat → TenantSegment → Nat,
        (∀ segment, segment.hasTenantData = true → f term tenantId segment =
          tenantCount (segment.postings term) tenantId) →
        chain.map (f term tenantId) =
          chain.map fun segment => tenantCount (segment.postings term) tenantId := by
      intro f hf
      apply List.map_congr_left
      exact fun segment hmem => hf segment (hdata chain hchain segment hmem)
    have htenant := hmap segmentTenantCount fun segment htrue => by
      rw [segmentTenantCount, if_pos htrue]
    have hall := hmap segmentCount fun segment htrue => by
      rw [segmentCount, if_pos htrue]
    simp only [htenant, hall, ite_self, Function.comp_apply]
  rw [hagree]
  exact and_iff_left hcount

/-- A segment whose only term has the posting lists of two documents of tenant 1 and one of
tenant 2. -/
def sampleSegment (hasTenantData : Bool) : TenantSegment where
  terms := [⟨⟨[97], nul_free_a⟩, [⟨⟨0, 1⟩, 1, 1⟩, ⟨⟨0, 2⟩, 1, 1⟩, ⟨⟨0, 3⟩, 1, 2⟩]⟩]
  hasTenantData := hasTenantData
  sorted := List.pairwise_singleton _ _

theorem tenantDocFreq_agree_iff_unmixed :
    (tpBatchGetTenantDocFreq insertionHashSeq insertionQsort Memtable.empty
        [[sampleSegment true], [sampleSegment false]] [⟨[97], by decide⟩] 1 =
        ([⟨[97], by decide⟩].map fun term => tpGetTenantDocFreq insertionHashSeq insertionQsort
          Memtable.empty [[sampleSegment true], [sampleSegment false]] term 1) ∧
      ((∀ chain ∈ [[sampleSegment true], [sampleSegment false]], ∀ segment ∈ chain,
          segment.hasTenantData = true) →
        ∀ term ∈ [⟨[97], by decide⟩], tpGetTenantDocFreq insertionHashSeq insertionQsort
            Memtable.empty [[sampleSegment true], [sampleSegment false]] term 1 =
          tenantDocuments Memtable.empty [[sampleSegment true], [sampleSegment false]] term 1)) ↔
      ∀ chain ∈ [[sampleSegment true], [sampleSegment false]],
        Unmixed chain [⟨[97], by decide⟩] :=
  tenantDocFreq_agree_iff insertionHashSeq insertionQsort Memtable.empty
    [[sampleSegment true], [sampleSegment false]] [⟨[97], by decide⟩] 1 (by decide)

/-- In one chain, a segment with tenant data and one without: the single lookup counts two
documents, the batch lookup five. -/
theorem tenantDocFreq_mixed_chain :
    tpGetTenantDocFreq insertionHashSeq insertionQsort Memtable.empty
        [[sampleSegment true, sampleSegment false]] ⟨[97], by decide⟩ 1 = 2 ∧
      tpBatchGetTenantDocFreq insertionHashSeq insertionQsort Memtable.empty
        [[sampleSegment true, sampleSegment false]] [⟨[97], by decide⟩] 1 = [5] := by
  rw [tpGetTenantDocFreq_eq _ _ (by decide), tpBatchGetTenantDocFreq_eq _ _ (by decide)]
  decide

end PgTextsearch.Query.TenantDocFreq
