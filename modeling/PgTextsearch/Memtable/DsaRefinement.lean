import Mathlib.Algebra.BigOperators.Fin
import Mathlib.Data.Multiset.Bind
import PgTextsearch.Memtable.Dsa
import PgTextsearch.Verified.Ends
import PgTextsearch.Verified.OwnedHeap
import PgTextsearch.Verified.Runs

/-!
# The memtables of an area refine the abstract memtable

A memtable in an area owns the blocks of its terms: the string, the posting list and the list's
array.  `Stands` says that these blocks, and no others of its own, are in the heap and that the
three hash tables hold the abstract memtable.  Each function is specified by what it leaves when
it returns and what it leaves when it raises an error.

## Main results

* `tpGetOrCreatePostingList_spec`, `tpAddDocumentToPostingList_spec` — a term gets its blocks once,
  and its array is moved when it is full.
* `addTerms_spec` — a document's terms, with an error after any of them.
* `tpClearMemtable_spec` — clearing gives every block back.
-/

namespace PgTextsearch.Dsa

open PgTextsearch.Postgres PgTextsearch.Segment PgTextsearch.Verified

/-! ## Blocks -/

section Blocks

variable {alloc : DsaAllocator} {s : LocalState} {m : Multiset (Nat × Block)} {dp size : Nat}
  {block : Block}

/-- An allocation returns a new block or raises an error and changes nothing. -/
theorem dsaAllocate_spec (h : Owns s.heap m) :
    Ends (dsaAllocate alloc size) s
      (fun dp s' => s'.memtable = s.memtable ∧ dp ≠ 0 ∧ size ≤ maxAllocSize ∧
        Owns s'.heap ({(dp, ⟨size, .raw⟩)} + m))
      (fun e s' => e = .raised ∧ s' = s) := by
  apply Ends.get_bind
  by_cases hsize : maxAllocSize < size
  · rw [if_pos hsize]
    exact Ends.raise ⟨rfl, rfl⟩
  rw [if_neg hsize]
  cases hdp : alloc.allocate s.heap size with
  | none => exact Ends.raise ⟨rfl, rfl⟩
  | some dp =>
      apply Ends.modify_bind
      exact Ends.ret ⟨rfl, alloc.valid_of_allocate hdp, not_lt.1 hsize,
        h.alloc (alloc.free_of_allocate hdp) _⟩

theorem dsaGetAddress_spec (h : s.heap dp = some block) :
    Ends (dsaGetAddress dp) s (fun b s' => b = block ∧ s' = s) (fun _ _ => False) := by
  apply Ends.get_bind
  rw [h]
  exact Ends.ret ⟨rfl, rfl⟩

theorem dsaWrite_spec {contents : Contents} (h : Owns s.heap ({(dp, block)} + m))
    (hsize : contents.size ≤ block.size) :
    Ends (dsaWrite dp contents) s
      (fun _ s' => s'.memtable = s.memtable ∧
        Owns s'.heap ({(dp, ⟨block.size, contents⟩)} + m))
      (fun _ _ => False) := by
  apply (dsaGetAddress_spec h.read).bind_total
  rintro b s' ⟨rfl, rfl⟩
  rw [if_neg (not_lt.2 hsize)]
  exact Ends.modify ⟨rfl, h.write _⟩

theorem dsaFree_spec (h : Owns s.heap ({(dp, block)} + m)) :
    Ends (dsaFree dp) s (fun _ s' => s'.memtable = s.memtable ∧ Owns s'.heap m)
      (fun _ _ => False) := by
  apply (dsaGetAddress_spec h.read).bind_total
  rintro b s' ⟨rfl, rfl⟩
  exact Ends.modify ⟨rfl, h.free⟩

theorem readPostingList_spec {n : Nat} {list : TpPostingList}
    (h : s.heap dp = some ⟨n, .postingList list⟩) :
    Ends (readPostingList dp) s (fun l s' => l = list ∧ s' = s) (fun _ _ => False) := by
  apply (dsaGetAddress_spec h).bind_total
  rintro b s' ⟨rfl, rfl⟩
  exact Ends.ret ⟨rfl, rfl⟩

theorem tpGetPostingEntries_spec {n : Nat} {list : TpPostingList} {slots : List (Option MemPosting)}
    (hdp : list.entriesDp ≠ 0) (h : s.heap list.entriesDp = some ⟨n, .entries slots⟩) :
    Ends (tpGetPostingEntries list) s (fun l s' => l = slots ∧ s' = s) (fun _ _ => False) := by
  unfold tpGetPostingEntries
  rw [if_neg hdp]
  apply (dsaGetAddress_spec h).bind_total
  rintro b s' ⟨rfl, rfl⟩
  exact Ends.ret ⟨rfl, rfl⟩

/-- A stored term is read back, up to its terminator. -/
theorem readString_spec {n : Nat} {str : CString}
    (h : s.heap dp = some ⟨n, .chars (str.bytes ++ [0])⟩) :
    Ends (readString dp) s (fun bytes s' => bytes = str.bytes ∧ s' = s) (fun _ _ => False) := by
  apply (dsaGetAddress_spec h).bind_total
  rintro b s' ⟨rfl, rfl⟩
  have hterminated : (0 : Fin 256) ∈ str.bytes ++ [0] := by simp
  simp only [hterminated, if_true]
  refine Ends.ret ⟨?_, rfl⟩
  rw [List.takeWhile_append_of_pos (fun c hc => by
    simpa using fun h0 : c = 0 => str.nul_free (h0 ▸ hc))]
  simp

end Blocks

/-! ## What a table owns -/

/-- An entry of the string table with all it points to: the array has room for `spare` more. -/
structure TermCell where
  term : CString
  termDp : Nat
  listDp : Nat
  entriesDp : Nat
  postings : List MemPosting
  spare : Nat

namespace TermCell

variable (c : TermCell)

def entry : StringHashEntry := ⟨c.termDp, c.listDp⟩

def capacity : Nat := c.postings.length + c.spare

def list : TpPostingList := ⟨c.postings.length, c.capacity, false, c.postings.length, c.entriesDp⟩

def slots : List (Option MemPosting) := c.postings.map some ++ List.replicate c.spare none

def termBlock : Block := ⟨c.term.bytes.length + 1, .chars (c.term.bytes ++ [0])⟩

def listBlock : Block := ⟨postingListSize, .postingList c.list⟩

def arrayBlocks : Multiset (Nat × Block) :=
  if c.entriesDp = 0 then 0
  else {(c.entriesDp, ⟨c.capacity * postingEntrySize, .entries c.slots⟩)}

/-- What an addition of a posting works on. -/
def listBlocks : Multiset (Nat × Block) := {(c.listDp, c.listBlock)} + c.arrayBlocks

def blocks : Multiset (Nat × Block) := {(c.termDp, c.termBlock)} + c.listBlocks

/-- There is an array as soon as there is a capacity, and no array is larger than the area allows. -/
structure Valid : Prop where
  listDp_ne : c.listDp ≠ 0
  array_iff : c.entriesDp = 0 ↔ c.capacity = 0
  capacity_le : c.capacity * postingEntrySize ≤ maxAllocSize

end TermCell

/-- The blocks of a string table. -/
def blocksOf (cells : List TermCell) : Multiset (Nat × Block) :=
  (cells : Multiset TermCell).bind TermCell.blocks

@[simp] theorem blocksOf_nil : blocksOf [] = 0 := rfl

theorem blocksOf_cons (c : TermCell) (cells : List TermCell) :
    blocksOf (c :: cells) = c.blocks + blocksOf cells := by
  rw [blocksOf, ← Multiset.cons_coe, Multiset.cons_bind]
  rfl

theorem blocksOf_middle (before after : List TermCell) (c : TermCell) :
    blocksOf (before ++ c :: after) = c.blocks + blocksOf (before ++ after) := by
  rw [← blocksOf_cons]
  exact congrArg (Multiset.bind · TermCell.blocks) (Multiset.coe_eq_coe.2 List.perm_middle)

/-- The entries of a memtable are those of the cells, and no term has two. -/
structure TableHolds (cells : List TermCell) (mt : DsaMemtable) : Prop where
  entries_eq : mt.stringHash.getD [] = cells.map TermCell.entry
  distinct : (cells.map TermCell.term).Nodup
  valid : ∀ c ∈ cells, c.Valid

/-- The cells and the two value tables say what the abstract memtable says. -/
structure Agrees (cells : List TermCell) (abs : Memtable CString) (mt : DsaMemtable) : Prop where
  lookup_eq : ∀ term, abs.stringTable.lookup term =
    (cells.find? fun c => c.term = term).map TermCell.postings
  docLengths_eq : mt.docLengths.getD ∅ = abs.docLengths
  tenantStats_eq : mt.tenantStats.getD ∅ = abs.tenantStats
  totalPostings_eq : mt.totalPostings = abs.totalPostings

/-- A state whose memtable stands for `abs`, next to the blocks of others. -/
structure Stands (cells : List TermCell) (frame : Multiset (Nat × Block)) (abs : Memtable CString)
    (s : LocalState) : Prop where
  owns : Owns s.heap (blocksOf cells + frame)
  table : TableHolds cells s.memtable
  agrees : Agrees cells abs s.memtable

/-- A term whose insertion stopped before its posting list was there. -/
def Torn (mt : DsaMemtable) : Prop := ∃ e ∈ mt.stringHash.getD [], e.postingList = 0

theorem TableHolds.not_torn {cells : List TermCell} {mt : DsaMemtable} (h : TableHolds cells mt) :
    ¬Torn mt := by
  rintro ⟨e, he, hzero⟩
  rw [h.entries_eq] at he
  obtain ⟨c, hc, rfl⟩ := List.mem_map.1 he
  exact (h.valid c hc).listDp_ne hzero

section Reading

variable {cells : List TermCell} {frame : Multiset (Nat × Block)} {heap : Heap} {c : TermCell}

theorem owns_cell (h : Owns heap (blocksOf cells + frame)) (hc : c ∈ cells) :
    ∃ rest, Owns heap (c.blocks + rest) := by
  obtain ⟨before, after, rfl⟩ := List.append_of_mem hc
  rw [blocksOf_middle, add_assoc] at h
  exact ⟨_, h⟩

theorem read_term (h : Owns heap (blocksOf cells + frame)) (hc : c ∈ cells) :
    heap c.termDp = some c.termBlock := by
  obtain ⟨rest, howns⟩ := owns_cell h hc
  rw [TermCell.blocks, add_assoc] at howns
  exact howns.read

theorem read_list (h : Owns heap (blocksOf cells + frame)) (hc : c ∈ cells) :
    heap c.listDp = some c.listBlock := by
  obtain ⟨rest, howns⟩ := owns_cell h hc
  rw [TermCell.blocks, TermCell.listBlocks, add_comm {(c.termDp, _)}, add_assoc, add_assoc] at howns
  exact howns.read

theorem read_array (h : Owns heap (blocksOf cells + frame)) (hc : c ∈ cells)
    (hdp : c.entriesDp ≠ 0) :
    heap c.entriesDp = some ⟨c.capacity * postingEntrySize, .entries c.slots⟩ := by
  obtain ⟨rest, howns⟩ := owns_cell h hc
  rw [TermCell.blocks, TermCell.listBlocks, TermCell.arrayBlocks, if_neg hdp,
    add_comm {(c.listDp, _)}, add_left_comm, add_assoc] at howns
  exact howns.read

/-- **The comparison function** is zero on equal strings only. -/
theorem tpStringCompare_eq_zero_iff {a b : List (Fin 256)} : tpStringCompare a b = 0 ↔ a = b := by
  unfold tpStringCompare
  by_cases hlen : a.length = b.length
  · rw [if_neg (not_not.2 hlen), strcmp_eq_zero_iff]
  · rw [if_pos hlen]
    have hne : a ≠ b := fun h => hlen (congrArg List.length h)
    split <;> simp [hne]

/-- **The string table finds** the entry of a term. -/
theorem dshashFind_spec {s : LocalState} {str : CString}
    (hread : ∀ c ∈ cells, s.heap c.termDp = some c.termBlock) (hvalid : ∀ c ∈ cells, c.Valid) :
    Ends (dshashFind str (cells.map TermCell.entry)) s
      (fun r s' => r = (cells.find? fun c => c.term = str).map TermCell.entry ∧ s' = s)
      (fun _ _ => False) := by
  induction cells with
  | nil => exact Ends.ret ⟨rfl, rfl⟩
  | cons c cells ih =>
      have hkey : Ends (tpGetKeyStr c.entry) s (fun bytes s' => bytes = c.term.bytes ∧ s' = s)
          (fun _ _ => False) := by
        unfold tpGetKeyStr
        rw [if_neg (show c.entry.postingList ≠ 0 from (hvalid c List.mem_cons_self).listDp_ne)]
        exact readString_spec (hread c List.mem_cons_self)
      apply hkey.bind_total
      rintro bytes s' ⟨rfl, rfl⟩
      by_cases hterm : c.term = str
      · rw [if_pos (tpStringCompare_eq_zero_iff.2 (congrArg CString.bytes hterm.symm))]
        exact Ends.ret ⟨by rw [List.find?_cons_of_pos (by simpa using hterm)]; rfl, rfl⟩
      · rw [if_neg fun h => hterm (CString.ext_bytes (tpStringCompare_eq_zero_iff.1 h).symm),
          List.find?_cons_of_neg (by simpa using hterm)]
        exact ih (fun c hc => hread c (List.mem_cons_of_mem _ hc))
          fun c hc => hvalid c (List.mem_cons_of_mem _ hc)

end Reading

/-! ## Inserting a term -/

section Insertion

variable {alloc : DsaAllocator} {s : LocalState} {m frame : Multiset (Nat × Block)}
  {cells : List TermCell} {abs : Memtable CString} {term : CString}

theorem tpAllocStringDsa_spec (h : Owns s.heap m) (str : CString) :
    Ends (tpAllocStringDsa alloc str) s
      (fun dp s' => s'.memtable = s.memtable ∧
        Owns s'.heap ({(dp, ⟨str.bytes.length + 1, .chars (str.bytes ++ [0])⟩)} + m))
      (fun e s' => e = .raised ∧ s' = s) := by
  apply (dsaAllocate_spec h).bind
  · rintro dp s₁ ⟨hmem, -, -, hnew⟩
    apply (dsaWrite_spec hnew (by simp [Contents.size])).bind_total
    rintro - s₂ ⟨hsame, howns⟩
    exact Ends.ret ⟨hsame.trans hmem, howns⟩
  · exact fun e s' h => h

theorem tpAllocPostingList_spec (h : Owns s.heap m) :
    Ends (tpAllocPostingList alloc) s
      (fun dp s' => s'.memtable = s.memtable ∧ dp ≠ 0 ∧
        Owns s'.heap ({(dp, ⟨postingListSize, .postingList ⟨0, 0, false, 0, 0⟩⟩)} + m))
      (fun e s' => e = .raised ∧ s' = s) := by
  apply (dsaAllocate_spec h).bind
  · rintro dp s₁ ⟨hmem, hne, -, hnew⟩
    apply (dsaWrite_spec hnew (le_refl _)).bind_total
    rintro - s₂ ⟨hsame, howns⟩
    exact Ends.ret ⟨hsame.trans hmem, hne, howns⟩
  · exact fun e s' h => h

theorem requireRoom_spec :
    Ends (requireRoom alloc) s (fun _ s' => s' = s) (fun e s' => e = .raised ∧ s' = s) := by
  apply Ends.get_bind
  by_cases hroom : alloc.tableRoom s = true
  · rw [if_pos hroom]
    exact Ends.ret rfl
  · rw [if_neg hroom]
    exact Ends.raise ⟨rfl, rfl⟩

/-- The state with other entries in the string table. -/
def LocalState.withEntries (s : LocalState) (entries : List StringHashEntry) : LocalState :=
  { s with memtable := { s.memtable with stringHash := some entries } }

theorem setEntries_bind {α : Type} {f : Unit → DsaM α} {entries : List StringHashEntry}
    {Q : α → LocalState → Prop} {E : DsaError → LocalState → Prop}
    (h : Ends (f ()) (s.withEntries entries) Q E) : Ends (setEntries entries >>= f) s Q E := h

theorem torn_withEntries (s : LocalState) (dp : Nat) (entries : List StringHashEntry) :
    Torn (s.withEntries (⟨dp, 0⟩ :: entries)).memtable :=
  ⟨⟨dp, 0⟩, List.mem_cons_self, rfl⟩

/-- **A new term** gets an entry, a string and an empty list, or its entry is left torn. -/
theorem tpStringTableInsert_new (h : Owns s.heap m) {entries : List StringHashEntry}
    (hfind : Ends (dshashFind term entries) s (fun r s' => r = none ∧ s' = s)
      (fun _ _ => False)) :
    Ends (tpStringTableInsert alloc entries term) s
      (fun e s' => ∃ c : TermCell, e = c.entry ∧ c.term = term ∧ c.postings = [] ∧ c.Valid ∧
        s'.memtable = (s.withEntries (c.entry :: entries)).memtable ∧ Owns s'.heap (c.blocks + m))
      (fun e s' => e = .raised ∧ (s' = s ∨ Torn s'.memtable)) := by
  apply hfind.bind_total
  rintro r s' ⟨rfl, rfl⟩
  apply requireRoom_spec.bind
  · rintro - s₁ rfl
    apply setEntries_bind
    apply (tpAllocStringDsa_spec (s := s₁.withEntries _) h term).bind
    · rintro dp s₂ ⟨hmem₂, howns₂⟩
      apply setEntries_bind
      apply (tpAllocPostingList_spec (s := s₂.withEntries _) howns₂).bind
      · rintro list s₃ ⟨hmem₃, hne, howns₃⟩
        apply setEntries_bind
        refine Ends.ret ⟨⟨term, dp, list, 0, [], 0⟩, rfl, rfl, rfl, ⟨hne, by simp [TermCell.capacity],
          by simp [TermCell.capacity, maxAllocSize]⟩, ?_, ?_⟩
        · simp [LocalState.withEntries, hmem₃, hmem₂, TermCell.entry]
        · rw [add_left_comm, ← add_assoc] at howns₃
          exact howns₃
      · rintro e s₃ ⟨rfl, rfl⟩
        exact ⟨rfl, Or.inr (torn_withEntries s₂ dp entries)⟩
    · rintro e s₂ ⟨rfl, rfl⟩
      exact ⟨rfl, Or.inr (torn_withEntries s₁ 0 entries)⟩
  · rintro e s₁ ⟨rfl, rfl⟩
    exact ⟨rfl, Or.inl rfl⟩

/-- The memtable with a term, whose list is empty when it is new. -/
def withTerm (abs : Memtable CString) (term : CString) : Memtable CString :=
  if (abs.stringTable.lookup term).isSome then abs
  else { abs with stringTable := abs.stringTable.insert term [] }

theorem lookup_withTerm (abs : Memtable CString) (term t : CString) :
    (withTerm abs term).stringTable.lookup t =
      if t = term then some (abs.postings term) else abs.stringTable.lookup t := by
  unfold withTerm Memtable.postings
  by_cases hsome : (abs.stringTable.lookup term).isSome
  · rw [if_pos hsome]
    by_cases ht : t = term
    · subst ht
      rw [if_pos rfl]
      obtain ⟨postings, hpostings⟩ := Option.isSome_iff_exists.1 hsome
      rw [hpostings]
      rfl
    · rw [if_neg ht]
  · rw [if_neg hsome]
    have hnone : abs.stringTable.lookup term = none := by simpa using hsome
    by_cases ht : t = term
    · subst ht
      simp [hnone]
    · simp [ht, AList.lookup_insert_ne ht]

theorem docLengths_withTerm (abs : Memtable CString) (term : CString) :
    (withTerm abs term).docLengths = abs.docLengths := by
  unfold withTerm
  split <;> rfl

theorem tenantStats_withTerm (abs : Memtable CString) (term : CString) :
    (withTerm abs term).tenantStats = abs.tenantStats := by
  unfold withTerm
  split <;> rfl

theorem totalPostings_withTerm (abs : Memtable CString) (term : CString) :
    (withTerm abs term).totalPostings = abs.totalPostings := by
  unfold withTerm
  split <;> rfl

/-- The state stands for the memtable with the term, and `c` is the cell of the term. -/
def AtCell (frame : Multiset (Nat × Block)) (abs : Memtable CString) (term : CString)
    (c : TermCell) (s : LocalState) : Prop :=
  c.term = term ∧ ∃ before after, Stands (before ++ c :: after) frame (withTerm abs term) s

theorem find?_cell {c : TermCell} (h : TableHolds cells s.memtable) (hc : c ∈ cells) :
    cells.find? (fun c' => c'.term = c.term) = some c := by
  obtain ⟨before, after, rfl⟩ := List.append_of_mem hc
  have hdistinct := h.distinct
  rw [List.map_append, List.nodup_append] at hdistinct
  have hbefore : before.find? (fun c' => c'.term = c.term) = none := by
    rw [List.find?_eq_none]
    intro c' hc' heq
    exact hdistinct.2.2 _ (List.mem_map_of_mem hc') _ (List.mem_map_of_mem List.mem_cons_self)
      (by simpa using heq)
  rw [List.find?_append, hbefore, Option.none_or, List.find?_cons_of_pos (by simp)]

theorem atCell_of_mem {c : TermCell} (h : Stands cells frame abs s) (hc : c ∈ cells) :
    AtCell frame abs c.term c s := by
  have hlookup : abs.stringTable.lookup c.term = some c.postings := by
    rw [h.agrees.lookup_eq, find?_cell h.table hc]
    rfl
  refine ⟨rfl, ?_⟩
  rw [withTerm, hlookup, Option.isSome_some, if_pos rfl]
  obtain ⟨before, after, rfl⟩ := List.append_of_mem hc
  exact ⟨before, after, h⟩

/-- A new cell in front of the others. -/
theorem atCell_of_new {c : TermCell} (h : Stands cells frame abs s) (hnew : ∀ c' ∈ cells, c'.term ≠ c.term)
    (hpostings : c.postings = []) (hvalid : c.Valid) {s' : LocalState}
    (hmem : s'.memtable = (s.withEntries (c.entry :: cells.map TermCell.entry)).memtable)
    (howns : Owns s'.heap (c.blocks + (blocksOf cells + frame))) :
    AtCell frame abs c.term c s' := by
  have hnone : abs.stringTable.lookup c.term = none := by
    rw [h.agrees.lookup_eq, List.find?_eq_none.2 (by simpa using hnew)]
    rfl
  refine ⟨rfl, [], cells, ?_, ⟨?_, ?_, ?_⟩, ⟨?_, ?_, ?_, ?_⟩⟩
  · rwa [List.nil_append, blocksOf_cons, add_assoc]
  · rw [hmem]
    rfl
  · rw [List.nil_append, List.map_cons, List.nodup_cons]
    refine ⟨fun hin => ?_, h.table.distinct⟩
    obtain ⟨c', hc', heq⟩ := List.mem_map.1 hin
    exact hnew c' hc' heq
  · intro c' hc'
    cases List.mem_cons.1 hc' with
    | inl heq => rwa [heq]
    | inr hin => exact h.table.valid c' hin
  · intro t
    rw [lookup_withTerm, Memtable.postings, hnone, List.nil_append]
    by_cases ht : t = c.term
    · rw [if_pos ht, List.find?_cons_of_pos (by simpa using ht.symm), Option.map_some, hpostings]
      rfl
    · rw [if_neg ht, List.find?_cons_of_neg (by simpa using Ne.symm ht)]
      exact h.agrees.lookup_eq t
  · rw [hmem, docLengths_withTerm]
    exact h.agrees.docLengths_eq
  · rw [hmem, tenantStats_withTerm]
    exact h.agrees.tenantStats_eq
  · rw [hmem, totalPostings_withTerm]
    exact h.agrees.totalPostings_eq

/-- **The string table** finds the entry of a term that it has. -/
theorem dshashFind_stands (h : Stands cells frame abs s) (str : CString) :
    Ends (dshashFind str (cells.map TermCell.entry)) s
      (fun r s' => r = (cells.find? fun c => c.term = str).map TermCell.entry ∧ s' = s)
      (fun _ _ => False) :=
  dshashFind_spec (fun _ hc => read_term h.owns hc) h.table.valid

theorem tpStringTableInsert_spec (h : Stands cells frame abs s) :
    Ends (tpStringTableInsert alloc (cells.map TermCell.entry) term) s
      (fun e s' => ∃ c : TermCell, e = c.entry ∧ AtCell frame abs term c s')
      (fun e s' => e = .raised ∧ (Stands cells frame abs s' ∨ Torn s'.memtable)) := by
  have hfind := dshashFind_stands h term
  cases hcell : cells.find? (fun c => c.term = term) with
  | some c =>
      rw [hcell] at hfind
      apply hfind.bind_total
      rintro r s' ⟨rfl, rfl⟩
      obtain rfl : c.term = term := by simpa using List.find?_some hcell
      exact Ends.ret ⟨c, rfl, atCell_of_mem h (List.mem_of_find?_eq_some hcell)⟩
  | none =>
      rw [hcell] at hfind
      have hnew : ∀ c ∈ cells, c.term ≠ term := by simpa using List.find?_eq_none.1 hcell
      apply (tpStringTableInsert_new h.owns hfind).mono
      · rintro e s' ⟨c, rfl, rfl, hpostings, hvalid, hmem, howns⟩
        exact ⟨c, rfl, atCell_of_new h hnew hpostings hvalid hmem howns⟩
      · rintro e s' ⟨rfl, rfl | htorn⟩
        · exact ⟨rfl, Or.inl h⟩
        · exact ⟨rfl, Or.inr htorn⟩

theorem attachStringTable_spec (h : Stands cells frame abs s) :
    Ends (attachStringTable alloc) s
      (fun entries s' => entries = cells.map TermCell.entry ∧ Stands cells frame abs s')
      (fun e s' => e = .raised ∧ s' = s) := by
  apply Ends.get_bind
  have hentries := h.table.entries_eq
  cases hhash : s.memtable.stringHash with
  | some entries =>
      rw [hhash] at hentries
      exact Ends.ret ⟨hentries, h⟩
  | none =>
      rw [hhash] at hentries
      apply requireRoom_spec.bind
      · rintro - s' rfl
        apply setEntries_bind
        exact Ends.ret ⟨hentries, h.owns, ⟨hentries, h.table.distinct, h.table.valid⟩,
          ⟨h.agrees.lookup_eq, h.agrees.docLengths_eq, h.agrees.tenantStats_eq,
            h.agrees.totalPostings_eq⟩⟩
      · exact fun e s' h => h

theorem tpStringTableLookup_spec (h : Stands cells frame abs s) (term : CString) :
    Ends (tpStringTableLookup (cells.map TermCell.entry) term) s
      (fun r s' => s' = s ∧ ∀ e, r = some e → ∃ c, e = c.entry ∧ AtCell frame abs term c s)
      (fun _ _ => False) := by
  unfold tpStringTableLookup
  split
  · exact Ends.ret ⟨rfl, fun e he => by cases he⟩
  · apply (dshashFind_stands h term).mono
    · rintro r s' ⟨rfl, rfl⟩
      refine ⟨rfl, fun e he => ?_⟩
      obtain ⟨c, hc, rfl⟩ := Option.map_eq_some_iff.1 he
      obtain rfl : c.term = term := by simpa using List.find?_some hc
      exact ⟨c, rfl, atCell_of_mem h (List.mem_of_find?_eq_some hc)⟩
    · exact fun _ _ hfalse => hfalse

theorem lookupOrInsert_spec (h : Stands cells frame abs s) (term : CString) :
    Ends (lookupOrInsert alloc (cells.map TermCell.entry) term) s
      (fun e s' => ∃ c : TermCell, e = c.entry ∧ AtCell frame abs term c s')
      (fun e s' => e = .raised ∧ (Stands cells frame abs s' ∨ Torn s'.memtable)) := by
  apply (tpStringTableLookup_spec h term).bind_total
  rintro r s' ⟨rfl, hfound⟩
  cases r with
  | some e => exact Ends.ret (hfound e rfl)
  | none => exact tpStringTableInsert_spec h

/-- **The list of a term** is found or created. -/
theorem tpGetOrCreatePostingList_spec (h : Stands cells frame abs s) (term : CString) :
    Ends (tpGetOrCreatePostingList alloc term) s
      (fun dp s' => ∃ c : TermCell, dp = c.listDp ∧ AtCell frame abs term c s')
      (fun e s' => e = .raised ∧ (Stands cells frame abs s' ∨ Torn s'.memtable)) := by
  apply (attachStringTable_spec h).bind
  · rintro entries s₁ ⟨rfl, h₁⟩
    apply (lookupOrInsert_spec h₁ term).bind
    · rintro e s₂ ⟨c, rfl, hterm, before, after, hstands⟩
      have hvalid := hstands.table.valid c (by simp)
      rw [if_pos (show c.entry.postingList ≠ 0 from hvalid.listDp_ne)]
      exact Ends.ret ⟨c, rfl, hterm, before, after, hstands⟩
    · exact fun e s' h => h
  · rintro e s' ⟨rfl, rfl⟩
    exact ⟨rfl, Or.inl h⟩

end Insertion

/-! ## Adding a posting -/

section Adding

variable {alloc : DsaAllocator} {s : LocalState} {m frame : Multiset (Nat × Block)} {c : TermCell}
  {abs : Memtable CString} {term : CString}

/-- The cell with a larger array. -/
def TermCell.moved (c : TermCell) (newDp capacity : Nat) : TermCell :=
  { c with entriesDp := newDp, spare := capacity - c.postings.length }

/-- The cell with one more posting in its array. -/
def TermCell.push (c : TermCell) (p : MemPosting) : TermCell :=
  { c with postings := c.postings ++ [p], spare := c.spare - 1 }

theorem moveEntries_spec (hvalid : c.Valid) (hfull : c.spare = 0) {newDp capacity : Nat}
    (hmore : c.postings.length < capacity)
    (h : Owns s.heap ({(newDp, ⟨capacity * postingEntrySize, .raw⟩)} + (c.arrayBlocks + m))) :
    Ends (moveEntries c.list newDp capacity) s
      (fun _ s' => s'.memtable = s.memtable ∧
        Owns s'.heap ({(newDp, ⟨capacity * postingEntrySize,
          .entries (c.moved newDp capacity).slots⟩)} + m))
      (fun _ _ => False) := by
  have hcapacity : c.capacity = c.postings.length := by
    rw [TermCell.capacity, hfull, add_zero]
  unfold moveEntries
  by_cases harray : c.entriesDp = 0
  · have hempty : c.postings = [] := by
      rw [← List.length_eq_zero_iff, ← hcapacity]
      exact hvalid.array_iff.1 harray
    rw [if_neg (by simp [TermCell.list, harray])]
    rw [TermCell.arrayBlocks, if_pos harray, zero_add] at h
    have hslots : (c.moved newDp capacity).slots = List.replicate capacity none := by
      simp [TermCell.slots, TermCell.moved, hempty]
    rw [hslots]
    exact dsaWrite_spec h (by simp [Contents.size])
  · have hpos : 0 < c.postings.length := by
      rw [← hcapacity]
      exact Nat.pos_of_ne_zero fun hzero => harray (hvalid.array_iff.2 hzero)
    have hslots : c.slots = c.postings.map some := by simp [TermCell.slots, hfull]
    rw [if_pos ⟨hpos, harray⟩]
    rw [TermCell.arrayBlocks, if_neg harray] at h
    have hold : s.heap c.entriesDp = some ⟨c.capacity * postingEntrySize, .entries c.slots⟩ := by
      rw [add_left_comm] at h
      exact h.read
    apply (tpGetPostingEntries_spec harray hold).bind_total
    rintro old s₁ ⟨rfl, rfl⟩
    rw [if_neg (by simp [hslots, TermCell.list])]
    have hnew : c.slots.take c.list.docCount ++
        List.replicate (capacity - c.list.docCount) none = (c.moved newDp capacity).slots := by
      rw [hslots, TermCell.list, List.take_of_length_le (by simp)]
      rfl
    rw [hnew]
    have hsize : (c.moved newDp capacity).slots.length = capacity := by
      simp only [TermCell.slots, TermCell.moved, List.length_append, List.length_map,
        List.length_replicate]
      omega
    apply (dsaWrite_spec h (by simp [Contents.size, hsize])).bind_total
    rintro - s₂ ⟨hmem, howns⟩
    rw [add_left_comm] at howns
    apply (dsaFree_spec howns).mono
    · rintro - s₃ ⟨hmem₃, howns₃⟩
      exact ⟨hmem₃.trans hmem, howns₃⟩
    · exact fun _ _ hfalse => hfalse

/-- **A full array** makes room, and its block goes back to the area. -/
theorem expandIfNeeded_spec (hvalid : c.Valid) (h : Owns s.heap (c.listBlocks + m)) :
    Ends (expandIfNeeded alloc c.listDp c.list) s
      (fun l s' => ∃ c' : TermCell, l = c'.list ∧ c'.term = c.term ∧ c'.entry = c.entry ∧
        c'.termBlock = c.termBlock ∧ c'.postings = c.postings ∧ 0 < c'.spare ∧ c'.Valid ∧
        s'.memtable = s.memtable ∧ Owns s'.heap (c'.listBlocks + m))
      (fun e s' => e = .raised ∧ s' = s) := by
  unfold expandIfNeeded
  by_cases hfull : c.list.capacity ≤ c.list.docCount
  · have hspare : c.spare = 0 := by
      have := hfull
      simp only [TermCell.list, TermCell.capacity] at this
      omega
    have hcapacity : c.list.capacity = c.postings.length := by
      rw [TermCell.list, TermCell.capacity, hspare, add_zero]
    rw [if_pos hfull]
    set capacity := if c.list.capacity = 0 then 16 else c.list.capacity * 2 with hnew
    have hmore : c.postings.length < capacity := by
      rw [hnew, hcapacity]
      split <;> omega
    apply (dsaAllocate_spec h).bind
    · rintro newDp s₁ ⟨hmem₁, hne, hsize, howns₁⟩
      have hmove : Owns s₁.heap ({(newDp, ⟨capacity * postingEntrySize, .raw⟩)} +
          (c.arrayBlocks + ({(c.listDp, c.listBlock)} + m))) := by
        rwa [TermCell.listBlocks, add_comm {(c.listDp, _)}, add_assoc c.arrayBlocks] at howns₁
      apply (moveEntries_spec hvalid hspare hmore hmove).bind_total
      rintro - s₂ ⟨hmem₂, howns₂⟩
      rw [add_left_comm] at howns₂
      apply (dsaWrite_spec howns₂ (le_refl _)).bind_total
      rintro - s₃ ⟨hmem₃, howns₃⟩
      have hgrown : (c.moved newDp capacity).capacity = capacity := Nat.add_sub_of_le hmore.le
      have hlist : (c.moved newDp capacity).list =
          { c.list with entriesDp := newDp, capacity := capacity } := by
        rw [TermCell.list, hgrown]
        rfl
      have hdp : (c.moved newDp capacity).entriesDp ≠ 0 := hne
      refine Ends.ret ⟨c.moved newDp capacity, hlist.symm, rfl, rfl, rfl, rfl,
        Nat.sub_pos_of_lt hmore, ⟨hvalid.listDp_ne, ?_, ?_⟩,
        hmem₃.trans (hmem₂.trans hmem₁), ?_⟩
      · rw [hgrown]
        constructor
        · exact fun hzero => absurd hzero hdp
        · omega
      · rwa [hgrown]
      · rw [TermCell.listBlocks, TermCell.arrayBlocks, if_neg hdp, TermCell.listBlock, hlist,
          hgrown, add_assoc]
        exact howns₃
    · exact fun e s' h => h
  · have hspare : 0 < c.spare := by
      simp only [TermCell.list, TermCell.capacity] at hfull
      omega
    rw [if_neg hfull]
    exact Ends.ret ⟨c, rfl, rfl, rfl, rfl, rfl, hspare, hvalid, rfl, h⟩

/-- **A posting** goes behind the others of its list. -/
theorem addPosting_spec (hvalid : c.Valid) (h : Owns s.heap (c.listBlocks + m)) (p : MemPosting) :
    Ends (tpAddDocumentToPostingList alloc c.listDp p) s
      (fun _ s' => ∃ c' : TermCell, c'.term = c.term ∧ c'.entry = c.entry ∧
        c'.termBlock = c.termBlock ∧ c'.postings = c.postings ++ [p] ∧ c'.Valid ∧
        s'.memtable = { s.memtable with totalPostings := s.memtable.totalPostings + 1 } ∧
        Owns s'.heap (c'.listBlocks + m))
      (fun e s' => e = .raised ∧ s' = s) := by
  have hread : s.heap c.listDp = some c.listBlock := by
    rw [TermCell.listBlocks, add_assoc] at h
    exact h.read
  apply (readPostingList_spec hread).bind_total
  rintro l s₀ ⟨rfl, rfl⟩
  apply (expandIfNeeded_spec hvalid h).bind
  · rintro l s₁ ⟨g, rfl, hterm, hentry, hblock, hpostings, hspare, hgrown, hmem, howns⟩
    have hdp : g.entriesDp ≠ 0 := fun hzero => by
      have := hgrown.array_iff.1 hzero
      rw [TermCell.capacity] at this
      omega
    have hlength : g.slots.length = g.capacity := by simp [TermCell.slots, TermCell.capacity]
    rw [TermCell.listBlocks, TermCell.arrayBlocks, if_neg hdp, add_assoc] at howns
    rw [add_left_comm] at howns
    apply (tpGetPostingEntries_spec (show g.list.entriesDp ≠ 0 from hdp) howns.read).bind_total
    rintro slots s₂ ⟨rfl, rfl⟩
    have hroom : ¬g.slots.length ≤ g.list.docCount := by
      simp only [hlength, TermCell.list, TermCell.capacity]
      omega
    rw [if_neg hroom]
    have hset : g.slots.set g.list.docCount (some p) = (g.push p).slots := by
      obtain ⟨k, hk⟩ : ∃ k, g.spare = k + 1 := ⟨g.spare - 1, by omega⟩
      simp [TermCell.slots, TermCell.push, TermCell.list, hk, List.replicate_succ]
    have hcapacity : (g.push p).capacity = g.capacity := by
      simp only [TermCell.capacity, TermCell.push, List.length_append, List.length_singleton]
      omega
    rw [hset]
    apply (dsaWrite_spec howns (by
      simp [Contents.size, ← hset, hlength])).bind_total
    rintro - s₃ ⟨hmem₃, howns₃⟩
    rw [add_left_comm] at howns₃
    rw [← show g.listDp = c.listDp from congrArg StringHashEntry.postingList hentry]
    apply (dsaWrite_spec howns₃ (le_refl _)).bind_total
    rintro - s₄ ⟨hmem₄, howns₄⟩
    have hlist : (g.push p).list = { g.list with
        docCount := g.list.docCount + 1
        docFreq := g.list.docCount + 1
        isSorted := false } := by
      rw [TermCell.list, hcapacity]
      simp [TermCell.push, TermCell.list]
    have hpush : (g.push p).entriesDp ≠ 0 := hdp
    refine Ends.modify ⟨g.push p, hterm, hentry, hblock, ?_, ⟨hgrown.listDp_ne, ?_, ?_⟩, ?_, ?_⟩
    · rw [← hpostings]
      rfl
    · rw [hcapacity]
      exact hgrown.array_iff
    · rw [hcapacity]
      exact hgrown.capacity_le
    · rw [hmem₄, hmem₃, hmem]
    · rw [TermCell.listBlocks, TermCell.arrayBlocks, if_neg hpush, TermCell.listBlock, hlist,
        hcapacity, add_assoc]
      exact howns₄
  · exact fun e s' h => h

/-- One cell of a table gives way to another one for the same term. -/
theorem TableHolds.replace {before after : List TermCell} {c' : TermCell} {mt : DsaMemtable}
    (h : TableHolds (before ++ c :: after) mt) (hterm : c'.term = c.term)
    (hentry : c'.entry = c.entry) (hvalid : c'.Valid) :
    TableHolds (before ++ c' :: after) mt where
  entries_eq := by
    rw [h.entries_eq]
    simp [hentry]
  distinct := by
    have hdistinct := h.distinct
    rw [List.map_append, List.map_cons] at hdistinct ⊢
    rwa [hterm]
  valid := by
    intro d hd
    rw [List.mem_append, List.mem_cons] at hd
    rcases hd with hd | rfl | hd
    · exact h.valid d (by simp [hd])
    · exact hvalid
    · exact h.valid d (by simp [hd])

theorem find?_replace {before after : List TermCell} {c' : TermCell} (hterm : c'.term = c.term)
    {t : CString} (ht : t ≠ c.term) :
    (before ++ c' :: after).find? (fun d => d.term = t) =
      (before ++ c :: after).find? (fun d => d.term = t) := by
  have hskip : ∀ d : TermCell, d.term = c.term →
      (d :: after).find? (fun d => d.term = t) = after.find? (fun d => d.term = t) :=
    fun d hd => List.find?_cons_of_neg (by simpa [hd] using Ne.symm ht)
  rw [List.find?_append, List.find?_append, hskip c' hterm, hskip c rfl]

/-- The list of one cell and everything else. -/
theorem blocks_split (before after : List TermCell) (c : TermCell)
    (frame : Multiset (Nat × Block)) :
    blocksOf (before ++ c :: after) + frame =
      c.listBlocks + ({(c.termDp, c.termBlock)} + (blocksOf (before ++ after) + frame)) := by
  rw [blocksOf_middle, TermCell.blocks, add_comm {(c.termDp, _)}, add_assoc, add_assoc]

/-- **A posting is added** to the memtable that the blocks stand for. -/
theorem tpAddDocumentToPostingList_spec (hat : AtCell frame abs term c s) (p : MemPosting) :
    Ends (tpAddDocumentToPostingList alloc c.listDp p) s
      (fun _ s' => ∃ cells, Stands cells frame
        (PgTextsearch.tpAddDocumentToPostingList abs term p) s')
      (fun e s' => e = .raised ∧ s' = s) := by
  obtain ⟨rfl, before, after, h⟩ := hat
  have hcell := find?_cell h.table (show c ∈ before ++ c :: after by simp)
  have hold : abs.postings c.term = c.postings := by
    have hlookup := h.agrees.lookup_eq c.term
    rw [lookup_withTerm, if_pos rfl, hcell] at hlookup
    exact Option.some.inj hlookup
  have howns := h.owns
  rw [blocks_split] at howns
  apply (addPosting_spec (h.table.valid c (by simp)) howns p).mono
  · rintro - s' ⟨c', hterm, hentry, hblock, hpostings, hvalid', hmem, howns'⟩
    have htable := h.table.replace hterm hentry hvalid'
    have hcell' := find?_cell htable (show c' ∈ before ++ c' :: after by simp)
    refine ⟨before ++ c' :: after, ?_, ?_, ⟨?_, ?_, ?_, ?_⟩⟩
    · rw [blocks_split, hblock, show c'.termDp = c.termDp from
        congrArg StringHashEntry.termDp hentry]
      exact howns'
    · rw [hmem]
      exact ⟨htable.entries_eq, htable.distinct, htable.valid⟩
    · intro t
      by_cases ht : t = c.term
      · subst ht
        rw [← hterm, hcell', hterm, PgTextsearch.tpAddDocumentToPostingList, AList.lookup_insert,
          hold, Option.map_some, hpostings]
      · rw [PgTextsearch.tpAddDocumentToPostingList, AList.lookup_insert_ne ht,
          find?_replace hterm ht, ← h.agrees.lookup_eq, lookup_withTerm, if_neg ht]
    · rw [hmem]
      exact h.agrees.docLengths_eq.trans (docLengths_withTerm abs c.term)
    · rw [hmem]
      exact h.agrees.tenantStats_eq.trans (tenantStats_withTerm abs c.term)
    · rw [hmem]
      exact congrArg (· + 1) (h.agrees.totalPostings_eq.trans (totalPostings_withTerm abs c.term))
  · exact fun e s' h => h

end Adding

/-! ## Calls -/

/-- Some blocks next to those of others, and the memtable they stand for. -/
def StandsFor (frame : Multiset (Nat × Block)) (abs : Memtable CString) (s : LocalState) : Prop :=
  ∃ cells, Stands cells frame abs s

/-- How far the loop over the terms of a document got: the postings of the first few are there,
and possibly the list of the next one. -/
inductive AddedSome (ctid : ItemPointer) (tenantId : Nat) :
    Memtable CString → List (CString × Nat) → Memtable CString → Prop
  | stopped {abs : Memtable CString} {entries : List (CString × Nat)} :
      AddedSome ctid tenantId abs entries abs
  | created {abs : Memtable CString} {term : CString} {frequency : Nat}
      {rest : List (CString × Nat)} :
      AddedSome ctid tenantId abs ((term, frequency) :: rest) (withTerm abs term)
  | added {abs abs' : Memtable CString} {term : CString} {frequency : Nat}
      {rest : List (CString × Nat)}
      (later : AddedSome ctid tenantId
        (PgTextsearch.tpAddDocumentToPostingList abs term ⟨ctid, frequency, tenantId⟩) rest abs') :
      AddedSome ctid tenantId abs ((term, frequency) :: rest) abs'

section Calls

variable {alloc : DsaAllocator} {s : LocalState} {frame : Multiset (Nat × Block)}
  {abs : Memtable CString} {cells : List TermCell}

/-- **The loop over the terms.** -/
theorem addTerms_spec (h : StandsFor frame abs s) (ctid : ItemPointer) (tenantId : Nat)
    (entries : List (CString × Nat)) :
    Ends (addTerms alloc ctid tenantId entries) s
      (fun _ s' => StandsFor frame (addTermEntries ctid tenantId abs entries) s')
      (fun e s' => e = .raised ∧ ((∃ abs', AddedSome ctid tenantId abs entries abs' ∧
        StandsFor frame abs' s') ∨ Torn s'.memtable)) := by
  induction entries generalizing abs s with
  | nil => exact Ends.ret h
  | cons entry rest ih =>
      obtain ⟨term, frequency⟩ := entry
      obtain ⟨cells, hcells⟩ := h
      apply (tpGetOrCreatePostingList_spec hcells term).bind
      · rintro dp s₁ ⟨c, rfl, hat⟩
        apply (tpAddDocumentToPostingList_spec hat ⟨ctid, frequency, tenantId⟩).bind
        · rintro - s₂ hstands
          apply (ih hstands).mono
          · exact fun _ _ hdone => hdone
          · rintro e s₃ ⟨rfl, ⟨abs', hsome, hstands'⟩ | htorn⟩
            · exact ⟨rfl, Or.inl ⟨abs', AddedSome.added hsome, hstands'⟩⟩
            · exact ⟨rfl, Or.inr htorn⟩
        · rintro e s₂ ⟨rfl, rfl⟩
          obtain ⟨-, before, after, hstands⟩ := hat
          exact ⟨rfl, Or.inl ⟨_, AddedSome.created, _, hstands⟩⟩
      · rintro e s₁ ⟨rfl, hstands | htorn⟩
        · exact ⟨rfl, Or.inl ⟨abs, AddedSome.stopped, cells, hstands⟩⟩
        · exact ⟨rfl, Or.inr htorn⟩

theorem requireRoomIfNone_spec {β : Type} (found : Option β) :
    Ends (requireRoomIfNone alloc found) s (fun _ s' => s' = s)
      (fun e s' => e = .raised ∧ s' = s) := by
  cases found with
  | some value => exact Ends.ret rfl
  | none => exact requireRoom_spec

/-- The two value tables change, and the blocks stay. -/
theorem Stands.withTables (h : Stands cells frame abs s) {abs' : Memtable CString}
    {docLengths : Option (AList fun _ : ItemPointer => DocLengthEntry)}
    {tenantStats : Option (AList fun _ : Nat => TenantStatsEntry)}
    (hstrings : abs'.stringTable = abs.stringTable)
    (htotal : abs'.totalPostings = abs.totalPostings)
    (hlengths : docLengths.getD ∅ = abs'.docLengths)
    (htenants : tenantStats.getD ∅ = abs'.tenantStats) :
    Stands cells frame abs' { s with
      memtable := { s.memtable with docLengths := docLengths, tenantStats := tenantStats } } where
  owns := h.owns
  table := ⟨h.table.entries_eq, h.table.distinct, h.table.valid⟩
  agrees := ⟨hstrings ▸ h.agrees.lookup_eq, hlengths, htenants,
    h.agrees.totalPostings_eq.trans htotal.symm⟩

/-- **The document length.** -/
theorem tpStoreDocumentLength_spec (h : Stands cells frame abs s) (ctid : ItemPointer)
    (docLength tenantId : Nat) :
    Ends (tpStoreDocumentLength alloc ctid docLength tenantId) s
      (fun _ s' => Stands cells frame
        (PgTextsearch.tpStoreDocumentLength abs ctid docLength tenantId) s')
      (fun e s' => e = .raised ∧ Stands cells frame abs s') := by
  apply Ends.get_bind
  apply (requireRoomIfNone_spec _).bind
  · rintro - s' rfl
    apply Ends.modify_bind
    apply (requireRoomIfNone_spec _).bind
    · rintro - s₁ rfl
      refine Ends.modify (h.withTables rfl rfl ?_ h.agrees.tenantStats_eq)
      rw [PgTextsearch.tpStoreDocumentLength, ← h.agrees.docLengths_eq]
      rfl
    · rintro e s₁ ⟨rfl, rfl⟩
      exact ⟨rfl, h.withTables rfl rfl h.agrees.docLengths_eq h.agrees.tenantStats_eq⟩
  · rintro e s' ⟨rfl, rfl⟩
    exact ⟨rfl, h⟩

/-- **The statistics of a tenant.** -/
theorem tpUpdateTenantStats_spec (h : Stands cells frame abs s) (tenantId docLength : Nat) :
    Ends (tpUpdateTenantStats alloc tenantId docLength) s
      (fun _ s' => Stands cells frame
        (PgTextsearch.tpUpdateTenantStats abs tenantId docLength) s')
      (fun e s' => e = .raised ∧ Stands cells frame abs s') := by
  apply Ends.get_bind
  apply (requireRoomIfNone_spec _).bind
  · rintro - s' rfl
    apply Ends.modify_bind
    apply (requireRoomIfNone_spec _).bind
    · rintro - s₁ rfl
      refine Ends.modify (h.withTables rfl rfl h.agrees.docLengths_eq ?_)
      rw [PgTextsearch.tpUpdateTenantStats, ← h.agrees.tenantStats_eq]
      rfl
    · rintro e s₁ ⟨rfl, rfl⟩
      exact ⟨rfl, h.withTables rfl rfl h.agrees.docLengths_eq h.agrees.tenantStats_eq⟩
  · rintro e s' ⟨rfl, rfl⟩
    exact ⟨rfl, h⟩

/-- **Giving back** the blocks of a list. -/
theorem tpFreePostingList_spec {c : TermCell} {m : Multiset (Nat × Block)} (hvalid : c.Valid)
    (h : Owns s.heap (c.listBlocks + m)) :
    Ends (tpFreePostingList c.listDp) s (fun _ s' => s'.memtable = s.memtable ∧ Owns s'.heap m)
      (fun _ _ => False) := by
  rw [TermCell.listBlocks, add_assoc] at h
  unfold tpFreePostingList
  rw [if_neg hvalid.listDp_ne]
  apply (readPostingList_spec h.read).bind_total
  rintro l s₀ ⟨rfl, rfl⟩
  have hentries : Ends (freeEntries c.list) s₀
      (fun _ s' => s'.memtable = s₀.memtable ∧ Owns s'.heap ({(c.listDp, c.listBlock)} + m))
      (fun _ _ => False) := by
    unfold freeEntries
    by_cases harray : c.entriesDp = 0
    · rw [if_neg (not_not.2 (show c.list.entriesDp = 0 from harray))]
      rw [TermCell.arrayBlocks, if_pos harray, zero_add] at h
      exact Ends.ret ⟨rfl, h⟩
    · rw [if_pos (show c.list.entriesDp ≠ 0 from harray)]
      rw [TermCell.arrayBlocks, if_neg harray, add_left_comm] at h
      exact dsaFree_spec h
  apply hentries.bind_total
  rintro - s₁ ⟨hmem, howns⟩
  apply (dsaFree_spec howns).mono
  · rintro - s₂ ⟨hmem₂, howns₂⟩
    exact ⟨hmem₂.trans hmem, howns₂⟩
  · exact fun _ _ hfalse => hfalse

/-- **Clearing** a string table gives back all its blocks. -/
theorem tpStringTableClear_spec (hvalid : ∀ c ∈ cells, c.Valid)
    (h : Owns s.heap (blocksOf cells + frame)) :
    Ends (tpStringTableClear (cells.map TermCell.entry)) s
      (fun _ s' => s'.memtable.tenantStats = s.memtable.tenantStats ∧ Owns s'.heap frame)
      (fun _ _ => False) := by
  induction cells generalizing s with
  | nil =>
      rw [blocksOf_nil, zero_add] at h
      exact Ends.ret ⟨rfl, h⟩
  | cons c cells ih =>
      rw [blocksOf_cons, TermCell.blocks, add_assoc, add_assoc] at h
      apply (dsaFree_spec h).bind_total
      rintro - s₁ ⟨hmem₁, howns₁⟩
      apply (tpFreePostingList_spec (hvalid c List.mem_cons_self) howns₁).bind_total
      rintro - s₂ ⟨hmem₂, howns₂⟩
      apply setEntries_bind
      apply (ih (s := s₂.withEntries _) (fun d hd => hvalid d (List.mem_cons_of_mem _ hd))
        howns₂).mono
      · rintro - s₃ ⟨htenants, howns₃⟩
        refine ⟨htenants.trans ?_, howns₃⟩
        rw [LocalState.withEntries, hmem₂, hmem₁]
      · exact fun _ _ hfalse => hfalse

/-- **Clearing** a memtable. -/
theorem tpClearMemtable_spec (h : Stands cells frame abs s) :
    Ends tpClearMemtable s (fun _ s' => Stands [] frame (PgTextsearch.tpClearMemtable abs) s')
      (fun _ _ => False) := by
  apply Ends.get_bind
  rw [h.table.entries_eq]
  apply (tpStringTableClear_spec h.table.valid h.owns).bind_total
  rintro - s₁ ⟨htenants, howns⟩
  refine Ends.modify ⟨?_, ⟨rfl, List.nodup_nil, fun c hc => absurd hc List.not_mem_nil⟩,
    ⟨fun term => rfl, rfl, ?_, rfl⟩⟩
  · rwa [blocksOf_nil, zero_add]
  · exact (congrArg (·.getD ∅) htenants).trans h.agrees.tenantStats_eq

end Calls

end PgTextsearch.Dsa
