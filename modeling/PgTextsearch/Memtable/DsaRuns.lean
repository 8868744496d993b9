import PgTextsearch.Memtable.DsaRefinement

/-!
# Runs of several memtables in one area

The memtables of all indexes take their blocks from one area, and a call on one index may raise an
error wherever it needs a block.  A run is a list of calls, each on one of the indexes and with
an allocator of its own; the calls of different indexes come in any order.

## Main results

* `run_spec` — what a call does to the memtable of its index, when it returns and when it raises an
  error.
* `memtables_of_run` — every index reads what its own calls have written, no call reaches outside
  the allocated blocks, and every allocated block has one place that leads to it.
-/

namespace PgTextsearch.Dsa

open PgTextsearch.Postgres PgTextsearch.Segment PgTextsearch.Verified

/-! ## Reading -/

section Reading

variable {s : LocalState} {frame : Multiset (Nat × Block)} {abs : Memtable CString}
  {cells : List TermCell}

theorem tpGetPostingList_spec (h : Stands cells frame abs s) {term : CString}
    (hterm : term.bytes ≠ []) :
    Ends (tpGetPostingList term) s
      (fun r s' => r = (cells.find? fun c => c.term = term).map TermCell.list ∧ s' = s)
      (fun _ _ => False) := by
  apply Ends.get_bind
  have hentries := h.table.entries_eq
  cases hhash : s.memtable.stringHash with
  | none =>
      rw [hhash] at hentries
      rw [List.map_eq_nil_iff.1 hentries.symm]
      exact Ends.ret ⟨rfl, rfl⟩
  | some entries =>
      rw [hhash] at hentries
      obtain rfl : entries = cells.map TermCell.entry := hentries
      have hlookup : Ends (tpStringTableLookup (cells.map TermCell.entry) term) s
          (fun r s' => r = (cells.find? fun c => c.term = term).map TermCell.entry ∧ s' = s)
          (fun _ _ => False) := by
        unfold tpStringTableLookup
        rw [if_neg (mt List.length_eq_zero_iff.1 hterm)]
        exact dshashFind_stands h term
      apply hlookup.bind_total
      rintro r s' ⟨rfl, rfl⟩
      cases hcell : cells.find? (fun c => c.term = term) with
      | none => exact Ends.ret ⟨rfl, rfl⟩
      | some c =>
          have hc := List.mem_of_find?_eq_some hcell
          have hdp : c.entry.postingList ≠ 0 := (h.table.valid c hc).listDp_ne
          simp only [Option.map_some, hdp, if_false]
          apply (readPostingList_spec (read_list h.owns hc)).bind_total
          rintro l s'' ⟨rfl, rfl⟩
          exact Ends.ret ⟨rfl, rfl⟩

theorem mapM_id_map_some {α : Type} (l : List α) : (l.map some).mapM id = some l := by
  induction l with
  | nil => rfl
  | cons a l ih => simp [ih]

theorem readEntries_spec (h : Stands cells frame abs s) {c : TermCell} (hc : c ∈ cells) :
    Ends (readEntries c.list) s (fun r s' => r = c.postings ∧ s' = s) (fun _ _ => False) := by
  unfold readEntries
  by_cases hcount : c.list.docCount = 0
  · rw [if_pos hcount]
    exact Ends.ret ⟨(List.length_eq_zero_iff.1 hcount).symm, rfl⟩
  · have hdp : c.entriesDp ≠ 0 := fun hzero => by
      have hcapacity := (h.table.valid c hc).array_iff.1 hzero
      exact hcount (Nat.eq_zero_of_add_eq_zero_right hcapacity)
    rw [if_neg hcount]
    apply (tpGetPostingEntries_spec (show c.list.entriesDp ≠ 0 from hdp)
      (read_array h.owns hc hdp)).bind_total
    rintro slots s' ⟨rfl, rfl⟩
    have htake : (c.slots.take c.list.docCount).mapM id = some c.postings := by
      rw [TermCell.slots, TermCell.list, List.take_append_of_le_length (by simp),
        List.take_of_length_le (by simp), mapM_id_map_some]
    rw [htake]
    simp only [TermCell.list, lt_irrefl, if_false]
    exact Ends.ret ⟨rfl, rfl⟩

/-- **The postings of a term** are those that the memtable stands for. -/
theorem readPostings_spec (h : Stands cells frame abs s) {term : CString}
    (hterm : term.bytes ≠ []) :
    Ends (readPostings term) s (fun r s' => r = abs.stringTable.lookup term ∧ s' = s)
      (fun _ _ => False) := by
  apply (tpGetPostingList_spec h hterm).bind_total
  rintro r s' ⟨rfl, rfl⟩
  rw [h.agrees.lookup_eq]
  cases hcell : cells.find? (fun c => c.term = term) with
  | none => exact Ends.ret ⟨rfl, rfl⟩
  | some c =>
      apply (readEntries_spec h (List.mem_of_find?_eq_some hcell)).bind_total
      rintro postings s'' ⟨rfl, rfl⟩
      exact Ends.ret ⟨rfl, rfl⟩

end Reading

/-! ## Calls -/

/-- A call on the memtable of an index. -/
inductive MemtableCall where
  | add (ctid : ItemPointer) (tv : TermVector CString) (tenantId : Nat)
  | clear

def MemtableCall.run (alloc : DsaAllocator) : MemtableCall → DsaM Unit
  | add ctid tv tenantId => tpAddDocumentTerms alloc ctid tv tenantId
  | clear => tpClearMemtable

/-- What a call does to the memtable, by whether it returned.  The call that raises an error has
added postings for some of the terms, or it has missed the statistics of the tenant only. -/
inductive CallEffect : MemtableCall → Bool → Memtable CString → Memtable CString → Prop
  | added {ctid : ItemPointer} {tv : TermVector CString} {tenantId : Nat} {abs : Memtable CString} :
      CallEffect (.add ctid tv tenantId) true abs
        (PgTextsearch.tpAddDocumentTerms abs ctid tv tenantId)
  | cleared {abs : Memtable CString} :
      CallEffect .clear true abs (PgTextsearch.tpClearMemtable abs)
  | stopped {ctid : ItemPointer} {tv : TermVector CString} {tenantId : Nat}
      {abs abs' : Memtable CString} (part : AddedSome ctid tenantId abs tv.entries abs') :
      CallEffect (.add ctid tv tenantId) false abs abs'
  | unaccounted {ctid : ItemPointer} {tv : TermVector CString} {tenantId : Nat}
      {abs : Memtable CString} (tenant : tenantId ≠ 0) :
      CallEffect (.add ctid tv tenantId) false abs
        (PgTextsearch.tpStoreDocumentLength (addTermEntries ctid tenantId abs tv.entries) ctid
          tv.docLength tenantId)

theorem addedSome_all (ctid : ItemPointer) (tenantId : Nat) (abs : Memtable CString)
    (entries : List (CString × Nat)) :
    AddedSome ctid tenantId abs entries (addTermEntries ctid tenantId abs entries) := by
  induction entries generalizing abs with
  | nil => exact AddedSome.stopped
  | cons entry rest ih => exact AddedSome.added (ih _)

section Calls

variable {alloc : DsaAllocator} {s : LocalState} {frame : Multiset (Nat × Block)}
  {abs : Memtable CString}

theorem tpAddDocumentTerms_spec (h : StandsFor frame abs s) (ctid : ItemPointer)
    (tv : TermVector CString) (tenantId : Nat) :
    Ends (tpAddDocumentTerms alloc ctid tv tenantId) s
      (fun _ s' => StandsFor frame (PgTextsearch.tpAddDocumentTerms abs ctid tv tenantId) s')
      (fun e s' => e = .raised ∧ ((∃ abs', CallEffect (.add ctid tv tenantId) false abs abs' ∧
        StandsFor frame abs' s') ∨ Torn s'.memtable)) := by
  apply (addTerms_spec h ctid tenantId tv.entries).bind
  · rintro - s₁ ⟨cells, h₁⟩
    apply (tpStoreDocumentLength_spec h₁ ctid tv.docLength tenantId).bind
    · rintro - s₂ h₂
      unfold PgTextsearch.tpAddDocumentTerms
      by_cases htenant : tenantId ≠ 0
      · rw [if_pos htenant]
        apply (tpUpdateTenantStats_spec h₂ tenantId tv.docLength).mono
        · rintro - s₃ h₃
          rw [if_pos htenant]
          exact ⟨cells, h₃⟩
        · rintro e s₃ ⟨rfl, h₃⟩
          exact ⟨rfl, Or.inl ⟨_, CallEffect.unaccounted htenant, cells, h₃⟩⟩
      · rw [if_neg htenant]
        refine Ends.ret ?_
        rw [if_neg htenant]
        exact ⟨cells, h₂⟩
    · rintro e s₂ ⟨rfl, h₂⟩
      exact ⟨rfl, Or.inl ⟨_, CallEffect.stopped (addedSome_all ctid tenantId abs tv.entries), cells,
        h₂⟩⟩
  · rintro e s₁ ⟨rfl, ⟨abs', hsome, hstands⟩ | htorn⟩
    · exact ⟨rfl, Or.inl ⟨abs', CallEffect.stopped hsome, hstands⟩⟩
    · exact ⟨rfl, Or.inr htorn⟩

/-- **A call** has its effect on the memtable, raises an error on the way, or leaves an entry torn. -/
theorem run_spec (alloc : DsaAllocator) (h : StandsFor frame abs s) (call : MemtableCall) :
    Ends (call.run alloc) s
      (fun _ s' => ∃ abs', CallEffect call true abs abs' ∧ StandsFor frame abs' s')
      (fun e s' => e = .raised ∧ ((∃ abs', CallEffect call false abs abs' ∧
        StandsFor frame abs' s') ∨ Torn s'.memtable)) := by
  cases call with
  | add ctid tv tenantId =>
      apply (tpAddDocumentTerms_spec h ctid tv tenantId).mono
      · exact fun _ s' h' => ⟨_, CallEffect.added, h'⟩
      · exact fun _ _ h' => h'
  | clear =>
      obtain ⟨cells, hcells⟩ := h
      apply (tpClearMemtable_spec hcells).mono
      · exact fun _ s' h' => ⟨_, CallEffect.cleared, [], h'⟩
      · exact fun _ _ hfalse => hfalse.elim

end Calls

/-! ## The area -/

/-- The area with the memtables of `n` indexes. -/
structure DsaArea (n : Nat) where
  heap : Heap
  tables : Fin n → DsaMemtable

/-- A call on one index, with the allocator as it behaves during the call, and whether the call
returned. -/
structure DsaCall (n : Nat) where
  index : Fin n
  alloc : DsaAllocator
  call : MemtableCall
  returned : Bool

namespace DsaArea

variable {n : Nat}

def init : DsaArea n := ⟨fun _ => none, fun _ => DsaMemtable.empty⟩

/-- What a call on an index works on. -/
def localState (s : DsaArea n) (i : Fin n) : LocalState := ⟨s.heap, s.tables i⟩

def put (s : DsaArea n) (i : Fin n) (l : LocalState) : DsaArea n :=
  ⟨l.heap, Function.update s.tables i l.memtable⟩

/-- The addresses that the memtable of an index leads to, one for each way there. -/
def addresses (s : DsaArea n) (i : Fin n) : List Nat :=
  ((s.tables i).stringHash.getD []).flatMap fun e =>
    e.termDp :: e.postingList ::
      match s.heap e.postingList with
      | some ⟨_, .postingList list⟩ => if list.entriesDp = 0 then [] else [list.entriesDp]
      | _ => []

end DsaArea

/-- One call.  An access outside the allocated blocks is no step. -/
def dsaStep {n : Nat} (s : DsaArea n) (c : DsaCall n) : Option (DsaArea n) :=
  match c.call.run c.alloc (s.localState c.index) with
  | .ok _ l => if c.returned then some (s.put c.index l) else none
  | .error .raised l => if c.returned then none else some (s.put c.index l)
  | .error .fault _ => none

/-- No call ends between the two allocations of a new term. -/
def LeavesWhole {n : Nat} (_ : List (DsaCall n)) (s : DsaArea n) (c : DsaCall n) : Prop :=
  ∀ s', dsaStep s c = some s' → ¬Torn (s'.tables c.index)

/-- The calls on one index, and which of them returned. -/
def callsOn {n : Nat} (i : Fin n) (hist : List (DsaCall n)) : List (MemtableCall × Bool) :=
  (hist.filter (·.index = i)).map fun c => (c.call, c.returned)

/-- What the calls on one index make of its memtable. -/
inductive Effects : List (MemtableCall × Bool) → Memtable CString → Prop
  | nil : Effects [] Memtable.empty
  | snoc {hist : List (MemtableCall × Bool)} {abs abs' : Memtable CString} {call : MemtableCall}
      {returned : Bool} (before : Effects hist abs) (effect : CallEffect call returned abs abs') :
      Effects (hist ++ [(call, returned)]) abs'

/-- The area stands for one memtable for each index. -/
structure AreaInv {n : Nat} (cells : Fin n → List TermCell) (abs : Fin n → Memtable CString)
    (s : DsaArea n) : Prop where
  owns : Owns s.heap (∑ i, blocksOf (cells i))
  table : ∀ i, TableHolds (cells i) (s.tables i)
  agrees : ∀ i, Agrees (cells i) (abs i) (s.tables i)

section Area

variable {n : Nat} {s s' : DsaArea n} {cells : Fin n → List TermCell}
  {abs : Fin n → Memtable CString} {hist : List (DsaCall n)} {c : DsaCall n}

theorem areaInv_init : AreaInv (fun _ => []) (fun _ => Memtable.empty) (DsaArea.init : DsaArea n) where
  owns := by
    simp only [blocksOf_nil, Finset.sum_const_zero]
    exact Owns.empty
  table := fun i => ⟨rfl, List.nodup_nil, fun c hc => absurd hc List.not_mem_nil⟩
  agrees := fun i => ⟨fun term => rfl, rfl, rfl, rfl⟩

/-- The blocks of the other indexes are the frame of a call. -/
theorem AreaInv.stands (h : AreaInv cells abs s) (i : Fin n) :
    Stands (cells i) (∑ j ∈ Finset.univ.erase i, blocksOf (cells j)) (abs i) (s.localState i) where
  owns := by
    rw [Finset.add_sum_erase _ (fun j => blocksOf (cells j)) (Finset.mem_univ i)]
    exact h.owns
  table := h.table i
  agrees := h.agrees i

theorem AreaInv.put (h : AreaInv cells abs s) {i : Fin n} {l : LocalState} {abs' : Memtable CString}
    (hl : StandsFor (∑ j ∈ Finset.univ.erase i, blocksOf (cells j)) abs' l) :
    ∃ cells', AreaInv (Function.update cells i cells') (Function.update abs i abs') (s.put i l) := by
  obtain ⟨cells', hcells'⟩ := hl
  refine ⟨cells', ?_, ?_, ?_⟩
  · rw [sum_update]
    exact hcells'.owns
  · intro j
    by_cases hj : j = i
    · subst hj
      simpa [DsaArea.put] using hcells'.table
    · simpa [DsaArea.put, Function.update_of_ne hj] using h.table j
  · intro j
    by_cases hj : j = i
    · subst hj
      simpa [DsaArea.put] using hcells'.agrees
    · simpa [DsaArea.put, Function.update_of_ne hj] using h.agrees j

/-- **No call reaches outside** the allocated blocks. -/
theorem dsaStep_total (h : AreaInv cells abs s) (i : Fin n) (alloc : DsaAllocator)
    (call : MemtableCall) : ∃ returned s', dsaStep s ⟨i, alloc, call, returned⟩ = some s' := by
  have hspec := run_spec alloc ⟨_, h.stands i⟩ call
  unfold dsaStep
  cases hrun : call.run alloc (s.localState i) with
  | ok u l => exact ⟨true, s.put i l, by simp only [hrun, if_true]⟩
  | error e l =>
      obtain ⟨rfl, -⟩ := hspec.of_error hrun
      exact ⟨false, s.put i l, by simp only [hrun, Bool.false_eq_true, if_false]⟩

/-- **One call** of an area that stays whole. -/
theorem areaInv_step (h : AreaInv cells abs s) (hwhole : LeavesWhole hist s c)
    (hstep : dsaStep s c = some s') :
    ∃ cells' abs', CallEffect c.call c.returned (abs c.index) abs' ∧
      AreaInv cells' (Function.update abs c.index abs') s' := by
  have hspec := run_spec c.alloc ⟨_, h.stands c.index⟩ c.call
  have hnot := hwhole s' hstep
  unfold dsaStep at hstep
  cases hrun : c.call.run c.alloc (s.localState c.index) with
  | ok u l =>
      obtain ⟨abs', heffect, hstands⟩ := hspec.of_ok hrun
      rw [hrun] at hstep
      cases hreturned : c.returned with
      | false => simp [hreturned] at hstep
      | true =>
          obtain rfl : s.put c.index l = s' := by simpa [hreturned] using hstep
          obtain ⟨cells', hinv⟩ := h.put hstands
          exact ⟨_, abs', heffect, hinv⟩
  | error e l =>
      obtain ⟨rfl, hend⟩ := hspec.of_error hrun
      rw [hrun] at hstep
      cases hreturned : c.returned with
      | true => simp [hreturned] at hstep
      | false =>
          obtain rfl : s.put c.index l = s' := by simpa [hreturned] using hstep
          cases hend with
          | inl hpart =>
              obtain ⟨abs', heffect, hstands⟩ := hpart
              obtain ⟨cells', hinv⟩ := h.put hstands
              exact ⟨_, abs', heffect, hinv⟩
          | inr htorn => exact absurd (by simpa [DsaArea.put] using htorn) hnot

theorem callsOn_snoc (i : Fin n) (hist : List (DsaCall n)) (c : DsaCall n) :
    callsOn i (hist ++ [c]) =
      if c.index = i then callsOn i hist ++ [(c.call, c.returned)] else callsOn i hist := by
  unfold callsOn
  by_cases hc : c.index = i
  · simp [hc]
  · simp [hc]

/-- **Every run.** -/
theorem areaInv_of_run (hrun : Reaches dsaStep LeavesWhole DsaArea.init hist s) :
    ∃ cells abs, AreaInv cells abs s ∧ ∀ i, Effects (callsOn i hist) (abs i) := by
  apply hrun.invariant
  · exact ⟨_, _, areaInv_init, fun i => Effects.nil⟩
  · rintro hist s c s' ⟨cells, abs, hinv, heffects⟩ hwhole hstep
    obtain ⟨cells', abs', heffect, hinv'⟩ := areaInv_step hinv hwhole hstep
    refine ⟨cells', _, hinv', fun i => ?_⟩
    rw [callsOn_snoc]
    by_cases hc : c.index = i
    · subst hc
      rw [if_pos rfl, Function.update_self]
      exact Effects.snoc (heffects c.index) heffect
    · rw [if_neg hc, Function.update_of_ne (Ne.symm hc)]
      exact heffects i

theorem TermCell.addresses_eq (c : TermCell) :
    c.blocks.map Prod.fst = ((c.termDp :: c.listDp ::
      if c.entriesDp = 0 then [] else [c.entriesDp] : List Nat) : Multiset Nat) := by
  unfold TermCell.blocks TermCell.listBlocks TermCell.arrayBlocks
  split <;> rfl

/-- The addresses of an index are those of its blocks. -/
theorem AreaInv.addresses_eq (h : AreaInv cells abs s) (i : Fin n) :
    ((s.addresses i : List Nat) : Multiset Nat) = (blocksOf (cells i)).map Prod.fst := by
  have hread : ∀ c ∈ cells i, s.heap c.listDp = some c.listBlock :=
    fun c hc => read_list (h.stands i).owns hc
  rw [DsaArea.addresses, (h.table i).entries_eq]
  generalize cells i = l at hread
  induction l with
  | nil => rfl
  | cons c l ih =>
      rw [List.map_cons, List.flatMap_cons, ← Multiset.coe_add, blocksOf_cons, Multiset.map_add,
        ih fun d hd => hread d (List.mem_cons_of_mem _ hd)]
      congr 1
      have hlist : s.heap c.entry.postingList = some ⟨postingListSize, .postingList c.list⟩ :=
        hread c List.mem_cons_self
      rw [hlist, c.addresses_eq]
      rfl

/-- What a reader of a memtable sees is what `abs` says. -/
structure ReadsAs (l : LocalState) (abs : Memtable CString) : Prop where
  postings : ∀ term, term.bytes ≠ [] →
    readPostings term l = .ok (abs.stringTable.lookup term) l
  docLengths : l.memtable.docLengths.getD ∅ = abs.docLengths
  tenantStats : l.memtable.tenantStats.getD ∅ = abs.tenantStats
  totalPostings : l.memtable.totalPostings = abs.totalPostings

theorem Stands.readsAs {l : LocalState} {frame : Multiset (Nat × Block)} {own : List TermCell}
    {mt : Memtable CString} (h : Stands own frame mt l) : ReadsAs l mt where
  postings := by
    intro term hterm
    have hspec := readPostings_spec h hterm
    cases hrun : readPostings term l with
    | ok r l' =>
        obtain ⟨rfl, rfl⟩ := hspec.of_ok hrun
        rfl
    | error e l' => exact (hspec.of_error hrun).elim
  docLengths := h.agrees.docLengths_eq
  tenantStats := h.agrees.tenantStats_eq
  totalPostings := h.agrees.totalPostings_eq

/-- Every allocated block is one that some memtable leads to, and there is one way there. -/
theorem AreaInv.no_leak (h : AreaInv cells abs s) :
    ((List.finRange n).flatMap s.addresses).Nodup ∧
      ∀ dp, (s.heap dp).isSome ↔ ∃ i, dp ∈ s.addresses i := by
  have hall : (((List.finRange n).flatMap s.addresses : List Nat) : Multiset Nat) =
      (∑ i, blocksOf (cells i)).map Prod.fst := by
    rw [Fin.sum_univ_def, ← Multiset.coe_mapAddMonoidHom, map_list_sum, List.map_map]
    generalize List.finRange n = indexes
    induction indexes with
    | nil => rfl
    | cons i rest ih =>
        rw [List.flatMap_cons, ← Multiset.coe_add, ih, h.addresses_eq, List.map_cons, List.sum_cons]
        rfl
  constructor
  · rw [← Multiset.coe_nodup, hall]
    exact h.owns.distinct
  · intro dp
    rw [h.owns.isSome_iff, ← hall, Multiset.mem_coe, List.mem_flatMap]
    simp

/-- **A torn entry** in front of the table makes the next call that adds a document reach for the
`char *` of the call that failed. -/
theorem dsaStep_of_torn {i : Fin n} {e : StringHashEntry} {rest : List StringHashEntry}
    (hhash : (s.tables i).stringHash = some (e :: rest)) (htorn : e.postingList = 0)
    {tv : TermVector CString} {term : CString} {frequency : Nat} {more : List (CString × Nat)}
    (htv : tv.entries = (term, frequency) :: more) (hterm : term.bytes ≠ []) (alloc : DsaAllocator)
    (ctid : ItemPointer) (tenantId : Nat) (returned : Bool) :
    dsaStep s ⟨i, alloc, .add ctid tv tenantId, returned⟩ = none := by
  have hattach : Ends (attachStringTable alloc) (s.localState i)
      (fun entries s' => entries = e :: rest ∧ s' = s.localState i) (fun _ _ => False) := by
    apply Ends.get_bind
    rw [show (s.localState i).memtable.stringHash = some (e :: rest) from hhash]
    exact Ends.ret ⟨rfl, rfl⟩
  have hlookup : Ends (tpStringTableLookup (e :: rest) term) (s.localState i) (fun _ _ => False)
      (fun error _ => error = .fault) := by
    unfold tpStringTableLookup
    rw [if_neg (mt List.length_eq_zero_iff.1 hterm)]
    have hkey : Ends (tpGetKeyStr e) (s.localState i) (fun _ _ => False)
        (fun error _ => error = .fault) := by
      unfold tpGetKeyStr
      rw [if_pos htorn]
      exact Ends.raise rfl
    exact hkey.bind (fun _ _ hfalse => hfalse.elim) fun _ _ h => h
  have hcreate : Ends (tpGetOrCreatePostingList alloc term) (s.localState i) (fun _ _ => False)
      (fun error _ => error = .fault) := by
    apply hattach.bind_total
    rintro entries s' ⟨rfl, rfl⟩
    have hinsert : Ends (lookupOrInsert alloc (e :: rest) term) (s.localState i)
        (fun _ _ => False) (fun error _ => error = .fault) :=
      hlookup.bind (fun _ _ hfalse => hfalse.elim) fun _ _ h => h
    exact hinsert.bind (fun _ _ hfalse => hfalse.elim) fun _ _ h => h
  have hterms : Ends (addTerms alloc ctid tenantId tv.entries) (s.localState i)
      (fun _ _ => False) (fun error _ => error = .fault) := by
    rw [htv]
    exact hcreate.bind (fun _ _ hfalse => hfalse.elim) fun _ _ h => h
  have hadd : Ends (tpAddDocumentTerms alloc ctid tv tenantId) (s.localState i)
      (fun _ _ => False) (fun error _ => error = .fault) :=
    hterms.bind (fun _ _ hfalse => hfalse.elim) fun _ _ h => h
  unfold dsaStep MemtableCall.run
  cases hrun : tpAddDocumentTerms alloc ctid tv tenantId (s.localState i) with
  | ok u l => exact (hadd.of_ok hrun).elim
  | error error l =>
      obtain rfl := hadd.of_error hrun
      simp only [hrun]

end Area

/-! ## Two indexes -/

section TwoIndexes

/-- The lowest free address. -/
def lowestFree : DsaAllocator where
  allocate heap _ := ((List.range 16).map (· + 1)).find? fun dp => (heap dp).isNone
  tableRoom _ := true
  free_of_allocate h := by simpa using List.find?_some h
  valid_of_allocate h := by
    obtain ⟨k, -, rfl⟩ := List.mem_map.1 (List.mem_of_find?_eq_some h)
    exact Nat.succ_ne_zero k

/-- Nothing is left. -/
def noneFree : DsaAllocator where
  allocate _ _ := none
  tableRoom _ := false
  free_of_allocate h := by cases h
  valid_of_allocate h := by cases h

def oneTerm : TermVector CString where
  entries := [(⟨[97], nul_free_a⟩, 1)]
  nodup := List.nodup_singleton _
  positive := by simp

/-- Two documents of the first index and one of the second; the last call on the second finds the
area full, and the first index is cleared. -/
def twoIndexRun : List (DsaCall 2) :=
  [⟨0, lowestFree, .add ⟨0, 1⟩ oneTerm 0, true⟩, ⟨1, lowestFree, .add ⟨0, 1⟩ oneTerm 7, true⟩,
    ⟨0, lowestFree, .add ⟨0, 2⟩ oneTerm 0, true⟩, ⟨1, noneFree, .add ⟨0, 2⟩ oneTerm 7, false⟩,
    ⟨0, lowestFree, .clear, true⟩]

/-- `LeavesWhole`, computed. -/
def leavesWhole {n : Nat} (_ : List (DsaCall n)) (s : DsaArea n) (c : DsaCall n) : Bool :=
  match dsaStep s c with
  | none => true
  | some s' => ((s'.tables c.index).stringHash.getD []).all fun e => e.postingList ≠ 0

theorem leavesWhole_sound {n : Nat} (hist : List (DsaCall n)) (s : DsaArea n) (c : DsaCall n)
    (h : leavesWhole hist s c = true) : LeavesWhole hist s c := by
  rintro s' hstep ⟨e, he, hzero⟩
  rw [leavesWhole, hstep] at h
  exact absurd hzero (by simpa using List.all_eq_true.1 h e he)

end TwoIndexes

end PgTextsearch.Dsa
