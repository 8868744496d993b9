import Mathlib.Data.Prod.Lex
import Mathlib.Order.OrderDual
import PgTextsearch.Query.SingleTerm

/-!
# Runs of the top-k heap (`query/bmw.c`)

The heap under any sequence of additions, memtable and segment entries mixed.  The two kinds
break ties by different rules, which fit into one linear order: among equal scores, segment
entries with a positive document id are the weakest, then come the memtable entries, and
segment entries with document id zero are the strongest (`weakness`).

## Main results

* `heapLess_iff_weakness` — `heap_less` is that order on the entries callers add.
* `runCalls_weaknessValid`, `runCalls_spec` — what holds of the array after any calls.
* `topkHeap_correct` — heap order, kept scores, threshold, dominated entries, extraction.
-/

namespace PgTextsearch.Query

open PgTextsearch.Postgres PgTextsearch.Segment PgTextsearch.Verified

/-! ## Calls -/

/-- One addition of a query. -/
inductive HeapCall where
  | memtable (ctid : ItemPointer) (score : ℚ)
  | segment (segBlock docId : Nat) (score : ℚ)
  deriving DecidableEq, Repr

namespace HeapCall

/-- The score added. -/
def score : HeapCall → ℚ
  | memtable _ score => score
  | segment _ _ score => score

/-- The entry stored. -/
def entry : HeapCall → HeapEntry
  | memtable ctid score => memtableEntry ctid score
  | segment segBlock docId score => segmentEntry segBlock docId score

/-- The call. -/
def apply (h : TopKHeap) : HeapCall → TopKHeap
  | memtable ctid score => tpTopkAddMemtable h ctid score
  | segment segBlock docId score => tpTopkAddSegment h segBlock docId score

/-- What identifies a row to its caller: the CTID of a heap tuple, or a segment's block. -/
def Names : HeapCall → Prop
  | memtable ctid _ => ctid.isValid = true
  | segment segBlock _ _ => segBlock < invalidBlockNumber

instance (call : HeapCall) : Decidable call.Names := by
  cases call <;> unfold Names <;> infer_instance

@[simp] theorem score_entry (call : HeapCall) : call.entry.score = call.score := by
  cases call <;> rfl

end HeapCall

/-- A heap of capacity `k` after the calls, first call first. -/
def runCalls (k : Nat) (calls : List HeapCall) : TopKHeap :=
  calls.foldl HeapCall.apply (tpTopkInit k)

theorem runCalls_append (k : Nat) (calls : List HeapCall) (call : HeapCall) :
    runCalls k (calls ++ [call]) = call.apply (runCalls k calls) := by
  simp [runCalls]

/-! ## One order for both tie rules -/

/-- The place of an entry among entries of its score: segment entries with a positive document
id by document id and block, then memtable entries by CTID, then segment entries with
document id zero by block; within each group the larger is the weaker. -/
def tieRank (e : HeapEntry) : ℕ ×ₗ ℕᵒᵈ ×ₗ ℕᵒᵈ :=
  if e.ctid.isValid then
    toLex (1, toLex (OrderDual.toDual e.ctid.blkid, OrderDual.toDual e.ctid.posid))
  else if 0 < e.docId then
    toLex (0, toLex (OrderDual.toDual e.docId, OrderDual.toDual e.segBlock))
  else toLex (2, toLex (OrderDual.toDual 0, OrderDual.toDual e.segBlock))

/-- Weakest first. -/
def weakness (e : HeapEntry) : ℚ ×ₗ (ℕ ×ₗ ℕᵒᵈ ×ₗ ℕᵒᵈ) :=
  toLex (e.score, tieRank e)

/-- The two shapes of an entry before its CTID is resolved. -/
def HeapEntry.Unresolved (e : HeapEntry) : Prop :=
  e.ctid.isValid = true ∧ e.segBlock = invalidBlockNumber ∧ e.docId = 0 ∨
    e.ctid.isValid = false ∧ e.segBlock < invalidBlockNumber

theorem HeapCall.Names.unresolved {call : HeapCall} (hnames : call.Names) :
    call.entry.Unresolved := by
  cases call with
  | memtable ctid score => exact Or.inl ⟨hnames, rfl, rfl⟩
  | segment segBlock docId score => exact Or.inr ⟨rfl, hnames⟩

/-- **`heap_less` is a linear order** on the entries callers add, up to entries that name the
same row. -/
theorem heapLess_iff_weakness {a b : HeapEntry} (ha : a.Unresolved) (hb : b.Unresolved) :
    heapLess a b = true ↔ weakness a < weakness b := by
  unfold weakness
  rw [Prod.Lex.toLex_lt_toLex]
  unfold heapLess
  rcases lt_trichotomy a.score b.score with hlt | heq | hgt
  · simp [hlt]
  · simp only [heq, lt_irrefl, if_false, gt_iff_lt, false_or, true_and, tieRank]
    rcases ha with ⟨hca, hsa, hda⟩ | ⟨hca, hsa⟩ <;> rcases hb with ⟨hcb, hsb, hdb⟩ | ⟨hcb, hsb⟩
    · simp only [hca, hcb, Bool.and_self, if_true, decide_eq_true_eq,
        ItemPointer.compare_pos_iff, ItemPointer.lt_iff, Prod.Lex.toLex_lt_toLex, lt_irrefl,
        false_or, true_and, OrderDual.toDual_lt_toDual, OrderDual.toDual_inj]
      omega
    · by_cases hdb : 0 < b.docId
      · simp [hca, hcb, hda, hdb, Prod.Lex.toLex_lt_toLex, hdb.ne]
      · have hdb0 : b.docId = 0 := by omega
        simp [hca, hcb, hda, hdb0, Prod.Lex.toLex_lt_toLex, hsa, hsb]
    · by_cases hda : 0 < a.docId
      · simp [hca, hcb, hda, hdb, Prod.Lex.toLex_lt_toLex, hda.ne']
      · have hda0 : a.docId = 0 := by omega
        simp [hca, hcb, hdb, hda0, Prod.Lex.toLex_lt_toLex, hsb, hsa.le]
    · by_cases hda : 0 < a.docId <;> by_cases hdb : 0 < b.docId
      · simp only [hca, hcb, Bool.and_self, Bool.false_eq_true, if_false, hda, hdb, if_true,
          Prod.Lex.toLex_lt_toLex, lt_irrefl, false_or, true_and, OrderDual.toDual_lt_toDual,
          OrderDual.toDual_inj]
        split_ifs <;> simp <;> omega
      · have hdb0 : b.docId = 0 := by omega
        simp [hca, hcb, hda, hdb0, hda.ne', Prod.Lex.toLex_lt_toLex]
      · have hda0 : a.docId = 0 := by omega
        simp [hca, hcb, hdb, hda0, hdb.ne, Prod.Lex.toLex_lt_toLex]
      · have hda0 : a.docId = 0 := by omega
        have hdb0 : b.docId = 0 := by omega
        simp [hca, hcb, hda0, hdb0, Prod.Lex.toLex_lt_toLex]
  · simp [hgt, not_lt.2 hgt.le, hgt.ne']

/-! ## One call -/

/-- One call keeps the score order, the largest scores, and adds nothing but its entry. -/
theorem HeapCall.apply_spec {h : TopKHeap} (hv : h.ScoreValid) (call : HeapCall) :
    (call.apply h).ScoreValid ∧
      (call.apply h).scores = kLargest h.capacity (call.score ::ₘ h.scores) ∧
      ((call.apply h).entries : Multiset HeapEntry) ≤
        call.entry ::ₘ (h.entries : Multiset HeapEntry) := by
  cases call with
  | memtable ctid score => exact tpTopkAddMemtable_spec hv ctid score
  | segment segBlock docId score => exact tpTopkAddSegment_spec hv segBlock docId score

@[simp] theorem HeapCall.apply_capacity (h : TopKHeap) (call : HeapCall) :
    (call.apply h).capacity = h.capacity := by
  cases call with
  | memtable ctid score => exact tpTopkAdd_capacity _ _ _
  | segment segBlock docId score => exact tpTopkAdd_capacity _ _ _

theorem heapLess_respects_weakness {l : List HeapEntry} (hl : ∀ e ∈ l, e.Unresolved) :
    MinHeap.Respects heapLess weakness l := by
  intro a ha b hb
  have hiff := heapLess_iff_weakness (hl a ha) (hl b hb)
  constructor
  · exact fun hless => (hiff.1 hless).le
  · intro hless
    apply not_lt.1
    intro hlt
    rw [hiff.2 hlt] at hless
    exact absurd hless (by decide)

/-- One call keeps the order of `heap_less` among unresolved entries. -/
theorem HeapCall.apply_weaknessValid {h : TopKHeap} (hv : h.Valid weakness)
    (hh : ∀ e ∈ h.entries, e.Unresolved) {call : HeapCall} (hnames : call.Names) :
    (call.apply h).Valid weakness := by
  have hr : MinHeap.Respects heapLess weakness (call.entry :: h.entries) := by
    apply heapLess_respects_weakness
    intro e he
    cases List.mem_cons.1 he with
    | inl heq => exact heq ▸ hnames.unresolved
    | inr hold => exact hh e hold
  cases call with
  | memtable ctid score => exact tpTopkAdd_valid hv _ _ hr
  | segment segBlock docId score => exact tpTopkAdd_valid hv _ _ hr

/-- The smallest score of a full heap never decreases. -/
theorem HeapCall.root_score_le {h : TopKHeap} (hv : h.ScoreValid) (hfull : h.Full)
    (call : HeapCall) : (call.apply h).Full ∧ h.root.score ≤ (call.apply h).root.score := by
  obtain ⟨hvalid, hscores, -⟩ := call.apply_spec hv
  obtain ⟨hfull', hall⟩ := TopKHeap.le_of_scores hfull (fun e he => hv.root_le he) hv.size_le
    (call.apply_capacity h) hscores
  exact ⟨hfull', hall _ (hvalid.root_mem hfull')⟩

/-- Without negative scores the threshold never decreases. -/
theorem HeapCall.threshold_le {h : TopKHeap} (hv : h.ScoreValid)
    (hpos : ∀ e ∈ h.entries, 0 ≤ e.score) {call : HeapCall} (hcall : 0 ≤ call.score) :
    tpTopkThreshold h ≤ tpTopkThreshold (call.apply h) := by
  obtain ⟨hvalid, -, hle⟩ := call.apply_spec hv
  unfold tpTopkThreshold
  by_cases hfull : h.entries.length ≥ h.capacity
  · obtain ⟨hfull', hroot⟩ := call.root_score_le hv hfull
    rw [if_pos hfull, if_pos (show _ ≥ _ from hfull')]
    exact hroot
  · rw [if_neg hfull]
    split
    case isTrue hfull' =>
      have hmem := Multiset.mem_of_le hle (Multiset.mem_coe.2 (hvalid.root_mem hfull'))
      cases Multiset.mem_cons.1 hmem with
      | inl heq => rw [heq, HeapCall.score_entry]; exact hcall
      | inr hold => exact hpos _ hold
    case isFalse => exact le_rfl

/-! ## The array after any calls -/

section Runs

variable {k : Nat} {calls : List HeapCall}

/-- **Runs**: the array is in score order and holds the largest scores, in entries that were
added. -/
theorem runCalls_spec (hk : 1 ≤ k) (calls : List HeapCall) :
    (runCalls k calls).ScoreValid ∧ (runCalls k calls).capacity = k ∧
      (runCalls k calls).scores = kLargest k (calls.map HeapCall.score : List ℚ) ∧
      ∀ e ∈ (runCalls k calls).entries, ∃ call ∈ calls, e = call.entry := by
  induction calls using List.reverseRecOn with
  | nil =>
      refine ⟨tpTopkInit_valid hk, rfl, ?_, fun e he => nomatch he⟩
      exact (kLargest_of_card_le (Nat.zero_le k)).symm
  | append_singleton calls call ih =>
      obtain ⟨hv, hcap, hscores, hadded⟩ := ih
      obtain ⟨hv', hscores', hle⟩ := call.apply_spec hv
      rw [runCalls_append]
      refine ⟨hv', by rw [HeapCall.apply_capacity, hcap], ?_, ?_⟩
      · rw [hscores', hcap, hscores, ← Multiset.singleton_add, add_comm, kLargest_kLargest_add,
          List.map_append]
        rfl
      · intro e he
        cases Multiset.mem_cons.1 (Multiset.mem_of_le hle (Multiset.mem_coe.2 he)) with
        | inl heq => exact ⟨call, by simp, heq⟩
        | inr hold =>
            obtain ⟨c, hc, heq⟩ := hadded e hold
            exact ⟨c, List.mem_append_left _ hc, heq⟩

theorem runCalls_unresolved (hk : 1 ≤ k) (hnames : ∀ call ∈ calls, call.Names) :
    ∀ e ∈ (runCalls k calls).entries, e.Unresolved := by
  intro e he
  obtain ⟨call, hcall, rfl⟩ := (runCalls_spec hk calls).2.2.2 e he
  exact (hnames call hcall).unresolved

/-- Runs keep the order of `heap_less`. -/
theorem runCalls_weaknessValid (hk : 1 ≤ k) (hnames : ∀ call ∈ calls, call.Names) :
    (runCalls k calls).Valid weakness := by
  induction calls using List.reverseRecOn with
  | nil => exact tpTopkInit_valid hk
  | append_singleton calls call ih =>
      have hbefore : ∀ c ∈ calls, c.Names := fun c hc => hnames c (List.mem_append_left _ hc)
      rw [runCalls_append]
      exact HeapCall.apply_weaknessValid (ih hbefore) (runCalls_unresolved hk hbefore)
        (hnames call (by simp))

end Runs

/-- `heap_less` on unresolved entries is a strict weak order. -/
theorem heapLess_isStrictWeakOrder {l : List HeapEntry} (hl : ∀ e ∈ l, e.Unresolved) :
    IsStrictWeakOrder {e // e ∈ l} fun a b => heapLess a.1 b.1 = true where
  irrefl := by
    intro a
    rw [heapLess_iff_weakness (hl _ a.2) (hl _ a.2)]
    exact lt_irrefl _
  trans := by
    intro a b c
    rw [heapLess_iff_weakness (hl _ a.2) (hl _ b.2), heapLess_iff_weakness (hl _ b.2) (hl _ c.2),
      heapLess_iff_weakness (hl _ a.2) (hl _ c.2)]
    exact lt_trans
  incomp_trans := by
    intro a b c
    rw [heapLess_iff_weakness (hl _ a.2) (hl _ b.2), heapLess_iff_weakness (hl _ b.2) (hl _ a.2),
      heapLess_iff_weakness (hl _ b.2) (hl _ c.2), heapLess_iff_weakness (hl _ c.2) (hl _ b.2),
      heapLess_iff_weakness (hl _ a.2) (hl _ c.2), heapLess_iff_weakness (hl _ c.2) (hl _ a.2)]
    intro hab hbc
    have heq : weakness a.1 = weakness b.1 :=
      le_antisymm (not_lt.1 hab.2) (not_lt.1 hab.1)
    rw [heq]
    exact hbc

/-! ## The collector -/

/-- Resolving CTIDs leaves the scores alone. -/
theorem map_score_tpTopkResolveCtids {Term : Type}
    (openSegment : Nat → Option (SegmentReader Term)) (h : TopKHeap) :
    (tpTopkResolveCtids openSegment h).entries.map HeapEntry.score =
      h.entries.map HeapEntry.score := by
  unfold tpTopkResolveCtids
  rw [List.map_map]
  apply List.map_congr_left
  intro e _
  simp only [Function.comp_apply]
  split
  · rfl
  · split <;> rfl

/-- Extraction puts the entries in result order. -/
theorem tpTopkExtract_spec (qs : Qsort) (h : TopKHeap) :
    (tpTopkExtract qs h).Pairwise RanksBefore ∧
      (tpTopkExtract qs h).Perm (h.entries.map fun e => (e.ctid, e.score)) := by
  unfold tpTopkExtract
  constructor
  · rw [List.pairwise_map]
    exact (qs.sorted _ _ compareHeapEntries_isComparator).imp
      fun {a b} hab => (compareHeapEntries_nonpos_iff a b).1 hab
  · exact (qs.perm _ _).map _

/-- What the heap is after the calls, and what one more call does to it. -/
structure Collects (k : Nat) (calls : List HeapCall) (h : TopKHeap) : Prop where
  /-- `heap_less` orders the entries, and no entry is weaker than its parent. -/
  ordered : (∀ call ∈ calls, call.Names) →
    IsStrictWeakOrder {e // e ∈ h.entries} (fun a b => heapLess a.1 b.1 = true) ∧
      ∀ c, 0 < c → c < h.entries.length →
        heapLess (MinHeap.slot h.entries c) (MinHeap.slot h.entries ((c - 1) / 2)) = false
  size : h.entries.length = min k calls.length
  largest : h.scores = kLargest k (calls.map HeapCall.score : List ℚ)
  threshold_full : ∀ call : HeapCall, h.Full →
    tpTopkThreshold h ≤ tpTopkThreshold (call.apply h)
  threshold : ∀ call : HeapCall, (∀ c ∈ call :: calls, 0 ≤ c.score) →
    tpTopkThreshold h ≤ tpTopkThreshold (call.apply h)
  dominated : ∀ call : HeapCall, tpTopkDominated h call.score = true →
    (call.apply h).scores = h.scores
  extract : ∀ (qs : Qsort) (Term : Type) (openSegment : Nat → Option (SegmentReader Term)),
    (tpTopkExtract qs (tpTopkResolveCtids openSegment h)).Pairwise RanksBefore ∧
      (tpTopkExtract qs (tpTopkResolveCtids openSegment h)).Perm
        ((tpTopkResolveCtids openSegment h).entries.map fun e => (e.ctid, e.score)) ∧
      (((tpTopkExtract qs (tpTopkResolveCtids openSegment h)).map Prod.snd : List ℚ) :
        Multiset ℚ) = h.scores

/-- **The top-k heap**, after any calls and for any capacity. -/
theorem topkHeap_correct (k : Nat) (hk : 1 ≤ k) (calls : List HeapCall) :
    Collects k calls (runCalls k calls) := by
  obtain ⟨hv, hcap, hscores, hadded⟩ := runCalls_spec hk calls
  constructor
  case ordered =>
    intro hnames
    have hl := runCalls_unresolved hk hnames
    refine ⟨heapLess_isStrictWeakOrder hl, fun c hc hlen => ?_⟩
    have hle := (runCalls_weaknessValid hk hnames).ordered c hc hlen
    rw [← Bool.not_eq_true, heapLess_iff_weakness (hl _ (MinHeap.slot_mem hlen))
      (hl _ (MinHeap.slot_mem (by omega)))]
    exact not_lt.2 hle
  case size =>
    have hcard := congrArg Multiset.card hscores
    simpa [TopKHeap.scores, TopKHeap.keys] using hcard
  case largest => exact hscores
  case threshold_full =>
    intro call hfull
    obtain ⟨hfull', hroot⟩ := call.root_score_le hv hfull
    rw [tpTopkThreshold, tpTopkThreshold, if_pos (show _ ≥ _ from hfull),
      if_pos (show _ ≥ _ from hfull')]
    exact hroot
  case threshold =>
    intro call hpos
    apply HeapCall.threshold_le hv _ (hpos call List.mem_cons_self)
    intro e he
    obtain ⟨c, hc, rfl⟩ := hadded e he
    rw [HeapCall.score_entry]
    exact hpos c (List.mem_cons_of_mem _ hc)
  case dominated =>
    intro call hdom
    obtain ⟨hfull, hlt⟩ := of_decide_eq_true hdom
    rw [(call.apply_spec hv).2.1]
    exact hv.kLargest_cons_of_le hfull hlt.le
  case extract =>
    intro qs Term openSegment
    obtain ⟨hsorted, hperm⟩ := tpTopkExtract_spec qs (tpTopkResolveCtids openSegment
      (runCalls k calls))
    refine ⟨hsorted, hperm, ?_⟩
    have hsnd := hperm.map Prod.snd
    rw [List.map_map] at hsnd
    exact (Multiset.coe_eq_coe.2 hsnd).trans
      (congrArg _ (map_score_tpTopkResolveCtids openSegment (runCalls k calls)))

/-- Three calls on a heap of two: the tie of the memtable row with the segment row is kept. -/
theorem topkHeap_correct_three :
    Collects 2 [.memtable ⟨4, 1⟩ 3, .segment 7 5 3, .memtable ⟨4, 2⟩ 9]
      (runCalls 2 [.memtable ⟨4, 1⟩ 3, .segment 7 5 3, .memtable ⟨4, 2⟩ 9]) :=
  topkHeap_correct 2 (by decide) [.memtable ⟨4, 1⟩ 3, .segment 7 5 3, .memtable ⟨4, 2⟩ 9]

/-- A negative score lowers the threshold of a heap that is not full, and a memtable entry
without a valid CTID is incomparable with two entries that are comparable. -/
theorem topkHeap_not_for_all_calls :
    ¬ tpTopkThreshold (runCalls 1 []) ≤
        tpTopkThreshold (runCalls 1 [.memtable ⟨4, 1⟩ (-1)]) ∧
      ¬ IsStrictWeakOrder
        {e // e ∈ (runCalls 3 [.memtable ⟨4, 1⟩ 1, .memtable ⟨4, 0⟩ 1, .memtable ⟨4, 2⟩ 1]).entries}
        (fun a b => heapLess a.1 b.1 = true) := by
  constructor
  · decide
  · intro horder
    have hincomp := horder.incomp_trans ⟨memtableEntry ⟨4, 1⟩ 1, by decide⟩
      ⟨memtableEntry ⟨4, 0⟩ 1, by decide⟩ ⟨memtableEntry ⟨4, 2⟩ 1, by decide⟩
      (by decide) (by decide)
    exact absurd hincomp (by decide)

end PgTextsearch.Query
