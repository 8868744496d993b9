import Mathlib.Algebra.GroupWithZero.Nat
import Mathlib.Data.List.AList
import Mathlib.Data.List.Count
import PgTextsearch.Postgres

/-!
# Memtable (`memtable/posting.c`, `memtable/stringtable.c`, `memtable/tenant_stats.c`)

The in-memory part of an index: a string table from terms to posting lists, a
document length table keyed by CTID, and per-tenant statistics that survive
spills.  Adding a document appends one posting for each of its terms and
overwrites the document length of its CTID.

## Main results

* `postings_addDocumentTerms` — adding a document appends its own postings to
  every list and nothing else.
* `Memtable.Covered.addDocumentTerms` — every posting has a document length.
-/

namespace PgTextsearch

open PgTextsearch.Postgres

/-- The terms of a document with their frequencies, as `tsvector` holds them:
every lexeme once, with at least one occurrence. -/
structure TermVector (Term : Type) where
  entries : List (Term × Nat)
  nodup : (entries.map Prod.fst).Nodup
  positive : ∀ e ∈ entries, 0 < e.2

/-- The document length: the sum of the frequencies. -/
def TermVector.docLength {Term : Type} (tv : TermVector Term) : Nat :=
  (tv.entries.map Prod.snd).sum

/-- `TpPostingEntry`. -/
structure MemPosting where
  ctid : ItemPointer
  frequency : Nat
  tenantId : Nat
  deriving DecidableEq, Repr

/-- `TpDocLengthEntry`, without the key. -/
structure DocLengthEntry where
  docLength : Nat
  tenantId : Nat
  deriving DecidableEq, Repr

/-- `TpTenantStatsEntry`, without the key. -/
structure TenantStatsEntry where
  docCount : Nat
  totalLen : Nat
  deriving DecidableEq, Repr

/-- `TpMemtable` with the tables its handles stand for. -/
structure Memtable (Term : Type) where
  stringTable : AList (fun _ : Term => List MemPosting)
  docLengths : AList (fun _ : ItemPointer => DocLengthEntry)
  tenantStats : AList (fun _ : Nat => TenantStatsEntry)
  totalPostings : Nat

variable {Term : Type}

/-- The memtable of a fresh shared state. -/
def Memtable.empty : Memtable Term := ⟨∅, ∅, ∅, 0⟩

/-- `tp_clear_memtable`, runtime mode: the tenant statistics stay. -/
def tpClearMemtable (mt : Memtable Term) : Memtable Term :=
  { mt with stringTable := ∅, docLengths := ∅, totalPostings := 0 }

variable [DecidableEq Term]

/-- The posting list of a term, empty when the string table does not have it. -/
def Memtable.postings (mt : Memtable Term) (term : Term) : List MemPosting :=
  (mt.stringTable.lookup term).getD []

/-- `tp_get_or_create_posting_list` and `tp_add_document_to_posting_list`. -/
def tpAddDocumentToPostingList (mt : Memtable Term) (term : Term) (posting : MemPosting) :
    Memtable Term :=
  { mt with
    stringTable := mt.stringTable.insert term (mt.postings term ++ [posting])
    totalPostings := mt.totalPostings + 1 }

omit [DecidableEq Term] in
/-- `tp_store_document_length`: insert or overwrite. -/
def tpStoreDocumentLength (mt : Memtable Term) (ctid : ItemPointer) (docLength tenantId : Nat) :
    Memtable Term :=
  { mt with docLengths := mt.docLengths.insert ctid ⟨docLength, tenantId⟩ }

/-- `tp_update_tenant_stats`. -/
def tpUpdateTenantStats (mt : Memtable Term) (tenantId docLength : Nat) : Memtable Term :=
  let entry :=
    match mt.tenantStats.lookup tenantId with
    | none => ⟨1, docLength⟩
    | some e => ⟨e.docCount + 1, e.totalLen + docLength⟩
  { mt with tenantStats := mt.tenantStats.insert tenantId entry }

/-- The loop of `tp_add_document_terms`. -/
def addTermEntries (ctid : ItemPointer) (tenantId : Nat) :
    Memtable Term → List (Term × Nat) → Memtable Term
  | mt, [] => mt
  | mt, (term, frequency) :: rest =>
      addTermEntries ctid tenantId
        (tpAddDocumentToPostingList mt term ⟨ctid, frequency, tenantId⟩) rest

/-- `tp_add_document_terms`, as far as the memtable goes. -/
def tpAddDocumentTerms (mt : Memtable Term) (ctid : ItemPointer) (tv : TermVector Term)
    (tenantId : Nat) : Memtable Term :=
  let mt := addTermEntries ctid tenantId mt tv.entries
  let mt := tpStoreDocumentLength mt ctid tv.docLength tenantId
  if tenantId ≠ 0 then tpUpdateTenantStats mt tenantId tv.docLength else mt

/-! ## What a document adds -/

/-- The postings a document adds to the list of one term. -/
def documentPostings (ctid : ItemPointer) (entries : List (Term × Nat)) (tenantId : Nat)
    (term : Term) : List MemPosting :=
  (entries.filter (fun e => e.1 = term)).map fun e => ⟨ctid, e.2, tenantId⟩

@[simp] theorem postings_empty (term : Term) :
    (Memtable.empty : Memtable Term).postings term = [] := by
  simp [Memtable.postings, Memtable.empty]

@[simp] theorem postings_clear (mt : Memtable Term) (term : Term) :
    (tpClearMemtable mt).postings term = [] := by
  simp [Memtable.postings, tpClearMemtable]

theorem postings_addDocumentToPostingList (mt : Memtable Term) (term term' : Term)
    (posting : MemPosting) :
    (tpAddDocumentToPostingList mt term posting).postings term' =
      if term' = term then mt.postings term' ++ [posting] else mt.postings term' := by
  by_cases h : term' = term
  · subst h
    simp [Memtable.postings, tpAddDocumentToPostingList]
  · simp [Memtable.postings, tpAddDocumentToPostingList, AList.lookup_insert_ne h, h]

theorem postings_addTermEntries (ctid : ItemPointer) (tenantId : Nat) (mt : Memtable Term)
    (entries : List (Term × Nat)) (term : Term) :
    (addTermEntries ctid tenantId mt entries).postings term =
      mt.postings term ++ documentPostings ctid entries tenantId term := by
  induction entries generalizing mt with
  | nil => simp [addTermEntries, documentPostings]
  | cons e rest ih =>
      obtain ⟨t, f⟩ := e
      rw [addTermEntries, ih, postings_addDocumentToPostingList]
      by_cases h : term = t
      · subst h
        simp [documentPostings]
      · simp [documentPostings, h, Ne.symm h]

theorem docLengths_addTermEntries (ctid : ItemPointer) (tenantId : Nat) (mt : Memtable Term)
    (entries : List (Term × Nat)) :
    (addTermEntries ctid tenantId mt entries).docLengths = mt.docLengths := by
  induction entries generalizing mt with
  | nil => rfl
  | cons e rest ih => rw [addTermEntries, ih, tpAddDocumentToPostingList]

theorem totalPostings_addTermEntries (ctid : ItemPointer) (tenantId : Nat) (mt : Memtable Term)
    (entries : List (Term × Nat)) :
    (addTermEntries ctid tenantId mt entries).totalPostings =
      mt.totalPostings + entries.length := by
  induction entries generalizing mt with
  | nil => rfl
  | cons e rest ih =>
      rw [addTermEntries, ih, List.length_cons]
      simp only [tpAddDocumentToPostingList]
      omega

theorem totalPostings_addDocumentTerms (mt : Memtable Term) (ctid : ItemPointer)
    (tv : TermVector Term) (tenantId : Nat) :
    (tpAddDocumentTerms mt ctid tv tenantId).totalPostings =
      mt.totalPostings + tv.entries.length := by
  rw [← totalPostings_addTermEntries ctid tenantId]
  unfold tpAddDocumentTerms
  split <;> rfl

/-- **Adding a document** appends its postings to the lists of its terms. -/
theorem postings_addDocumentTerms (mt : Memtable Term) (ctid : ItemPointer)
    (tv : TermVector Term) (tenantId : Nat) (term : Term) :
    (tpAddDocumentTerms mt ctid tv tenantId).postings term =
      mt.postings term ++ documentPostings ctid tv.entries tenantId term := by
  rw [← postings_addTermEntries]
  unfold tpAddDocumentTerms
  split <;> rfl

theorem docLengths_addDocumentTerms (mt : Memtable Term) (ctid : ItemPointer)
    (tv : TermVector Term) (tenantId : Nat) :
    (tpAddDocumentTerms mt ctid tv tenantId).docLengths =
      mt.docLengths.insert ctid ⟨tv.docLength, tenantId⟩ := by
  rw [← docLengths_addTermEntries ctid tenantId mt tv.entries]
  unfold tpAddDocumentTerms
  split <;> rfl

theorem mem_documentPostings {ctid : ItemPointer} {entries : List (Term × Nat)} {tenantId : Nat}
    {term : Term} {p : MemPosting} :
    p ∈ documentPostings ctid entries tenantId term ↔
      ∃ f, (term, f) ∈ entries ∧ p = ⟨ctid, f, tenantId⟩ := by
  unfold documentPostings
  rw [List.mem_map]
  constructor
  · rintro ⟨⟨t, f⟩, he, rfl⟩
    obtain ⟨hmem, ht⟩ := List.mem_filter.1 he
    rw [show t = term by simpa using ht] at hmem
    exact ⟨f, hmem, rfl⟩
  · rintro ⟨f, hmem, rfl⟩
    exact ⟨(term, f), List.mem_filter.2 ⟨hmem, by simp⟩, rfl⟩

/-- A term of the vector gets exactly one posting. -/
theorem length_documentPostings {tv : TermVector Term} {term : Term}
    (hmem : term ∈ tv.entries.map Prod.fst) (ctid : ItemPointer) (tenantId : Nat) :
    (documentPostings ctid tv.entries tenantId term).length = 1 := by
  have hcount : (tv.entries.map Prod.fst).count term = 1 :=
    List.count_eq_one_of_mem tv.nodup hmem
  rw [documentPostings, List.length_map, ← List.countP_eq_length_filter, ← hcount, List.count,
    List.countP_map]
  rfl

/-- A document adds at most one posting to a list. -/
theorem length_documentPostings_le (ctid : ItemPointer) (tv : TermVector Term) (tenantId : Nat)
    (term : Term) : (documentPostings ctid tv.entries tenantId term).length ≤ 1 := by
  by_cases hmem : term ∈ tv.entries.map Prod.fst
  · exact Nat.le_of_eq (length_documentPostings hmem ctid tenantId)
  · have hnil : documentPostings ctid tv.entries tenantId term = [] := by
      apply List.eq_nil_iff_forall_not_mem.2
      intro p hp
      obtain ⟨f, hf, -⟩ := mem_documentPostings.1 hp
      exact hmem (List.mem_map.2 ⟨(term, f), hf, rfl⟩)
    rw [hnil]
    exact Nat.zero_le 1

/-! ## Postings and document lengths -/

/-- The document lengths cover the postings: what `tp_write_segment` relies on
when it looks up the document id of a posting. -/
def Memtable.Covered (mt : Memtable Term) : Prop :=
  ∀ term, ∀ p ∈ mt.postings term, (mt.docLengths.lookup p.ctid).isSome

theorem Memtable.covered_empty : (Memtable.empty : Memtable Term).Covered := by
  intro term p hp
  simp at hp

theorem Memtable.covered_clear (mt : Memtable Term) : (tpClearMemtable mt).Covered := by
  intro term p hp
  simp at hp

theorem Memtable.Covered.addDocumentTerms {mt : Memtable Term} (h : mt.Covered)
    (ctid : ItemPointer) (tv : TermVector Term) (tenantId : Nat) :
    (tpAddDocumentTerms mt ctid tv tenantId).Covered := by
  intro term p hp
  rw [postings_addDocumentTerms, List.mem_append] at hp
  rw [docLengths_addDocumentTerms]
  by_cases hc : p.ctid = ctid
  · rw [hc, AList.lookup_insert]
    rfl
  · rw [AList.lookup_insert_ne hc]
    rcases hp with hp | hp
    · exact h term p hp
    · obtain ⟨f, -, rfl⟩ := mem_documentPostings.1 hp
      exact absurd rfl hc

end PgTextsearch
