import Mathlib.Algebra.Order.Field.Rat
import PgTextsearch.Segment.PostingIterator
import PgTextsearch.Verified.BoundedHeap

/-!
# Top-k min-heap (`query/bmw.c`)

The bounded result heap of a query.  Memtable entries carry their CTID; segment
entries carry the segment and the document id, and their CTID is resolved after
the search.

The heap is specified against a `key` into a linear order that the comparison
`heap_less` respects (`Valid key`).  With `key` the score this holds always, so
the scores kept are the `k` largest of all scores offered, whatever the
tie-breaking does.

## Main results

* `tpTopkAdd_spec` — one addition keeps the order and the `k` largest keys.
* `offer_spec` — so does offering an entry only when it is not dominated.
* `TopKHeap.Settles.of_scores` — a score ruled out by a heap stays ruled out.
-/

namespace PgTextsearch.Query

open PgTextsearch.Postgres PgTextsearch.Segment PgTextsearch.Verified

/-- One slot of the parallel arrays of `TpTopKHeap`. -/
structure HeapEntry where
  ctid : ItemPointer
  segBlock : Nat
  docId : Nat
  score : ℚ
  deriving DecidableEq, Repr, Inhabited

/-- `TpTopKHeap`: capacity and the live entries in array order. -/
structure TopKHeap where
  capacity : Nat
  entries : List HeapEntry
  deriving DecidableEq, Repr

/-- `tp_topk_init`. -/
def tpTopkInit (k : Nat) : TopKHeap := ⟨k, []⟩

/-- The weakest entry, `entries[0]`. -/
def TopKHeap.root (h : TopKHeap) : HeapEntry := MinHeap.slot h.entries 0

/-- `heap_less`: the weaker entry is closer to the root.  Equal scores are
ordered by CTID when both are known and by document id otherwise. -/
def heapLess (a b : HeapEntry) : Bool :=
  if a.score < b.score then true
  else if a.score > b.score then false
  else if a.ctid.isValid && b.ctid.isValid then decide (0 < ItemPointer.compare a.ctid b.ctid)
  else if a.docId ≠ b.docId then decide (a.docId > b.docId)
  else decide (a.segBlock > b.segBlock)

/-- `heap_beats_root`; the candidate's CTID is `none` for segment entries. -/
def heapBeatsRoot (h : TopKHeap) (score : ℚ) (ctid : Option ItemPointer) (docId : Nat) : Bool :=
  if score > h.root.score then true
  else if score < h.root.score then false
  else
    match ctid with
    | some c =>
        if c.isValid && h.root.ctid.isValid then decide (ItemPointer.compare c h.root.ctid < 0)
        else false
    | none => if !h.root.ctid.isValid then decide (docId < h.root.docId) else false

/-- The array after storing `e` behind the last slot and `heap_sift_up`. -/
def pushEntry (h : TopKHeap) (e : HeapEntry) : List HeapEntry :=
  MinHeap.siftUp heapLess h.entries.length (h.entries ++ [e]) h.entries.length

/-- The array after overwriting the root with `e` and `heap_sift_down`. -/
def replaceRoot (h : TopKHeap) (e : HeapEntry) : List HeapEntry :=
  MinHeap.siftDown heapLess h.entries.length (h.entries.set 0 e) 0

/-- The body shared by `tp_topk_add_memtable` and `tp_topk_add_segment`: push
while there is room, otherwise replace the root if the candidate beats it. -/
def tpTopkAdd (h : TopKHeap) (e : HeapEntry) (beats : Bool) : TopKHeap :=
  if h.entries.length < h.capacity then ⟨h.capacity, pushEntry h e⟩
  else if beats then ⟨h.capacity, replaceRoot h e⟩
  else h

/-- The entry `tp_topk_add_memtable` stores. -/
def memtableEntry (ctid : ItemPointer) (score : ℚ) : HeapEntry :=
  ⟨ctid, invalidBlockNumber, 0, score⟩

/-- The entry `tp_topk_add_segment` stores. -/
def segmentEntry (segBlock docId : Nat) (score : ℚ) : HeapEntry :=
  ⟨ItemPointer.invalid, segBlock, docId, score⟩

/-- `tp_topk_add_memtable`. -/
def tpTopkAddMemtable (h : TopKHeap) (ctid : ItemPointer) (score : ℚ) : TopKHeap :=
  tpTopkAdd h (memtableEntry ctid score) (heapBeatsRoot h score (some ctid) 0)

/-- `tp_topk_add_segment`. -/
def tpTopkAddSegment (h : TopKHeap) (segBlock docId : Nat) (score : ℚ) : TopKHeap :=
  tpTopkAdd h (segmentEntry segBlock docId score) (heapBeatsRoot h score none docId)

/-- `tp_topk_threshold`. -/
def tpTopkThreshold (h : TopKHeap) : ℚ :=
  if h.entries.length ≥ h.capacity then h.root.score else 0

/-- `tp_topk_dominated`. -/
def tpTopkDominated (h : TopKHeap) (score : ℚ) : Bool :=
  decide (h.entries.length ≥ h.capacity ∧ score < h.root.score)

/-- `tp_topk_resolve_ctids`: every entry of a segment that can be opened gets
its CTID and is marked resolved. -/
def tpTopkResolveCtids {Term : Type} (openSegment : Nat → Option (SegmentReader Term))
    (h : TopKHeap) : TopKHeap :=
  { h with entries := h.entries.map fun e =>
      if e.segBlock = invalidBlockNumber then e
      else
        match openSegment e.segBlock with
        | none => e
        | some reader =>
            { e with
              ctid := tpSegmentLookupCtid reader e.docId
              segBlock := invalidBlockNumber } }

/-- `compare_heap_entries`: score descending, then CTID ascending. -/
def compareHeapEntries (a b : HeapEntry) : Int :=
  if a.score > b.score then -1
  else if a.score < b.score then 1
  else ItemPointer.compare a.ctid b.ctid

/-- `tp_topk_extract`: CTIDs and scores in result order. -/
def tpTopkExtract (qs : Qsort) (h : TopKHeap) : List (ItemPointer × ℚ) :=
  (qs.sort compareHeapEntries h.entries).map fun e => (e.ctid, e.score)

/-! ## One addition -/

section Spec

variable {κ : Type*} [LinearOrder κ] {key : HeapEntry → κ}

/-- A heap that holds at most `capacity ≥ 1` entries in min-heap order of
`key`. -/
structure TopKHeap.Valid (key : HeapEntry → κ) (h : TopKHeap) : Prop where
  capacity_pos : 0 < h.capacity
  size_le : h.entries.length ≤ h.capacity
  ordered : MinHeap.Ordered key h.entries

/-- No room left. -/
def TopKHeap.Full (h : TopKHeap) : Prop := h.capacity ≤ h.entries.length

instance (h : TopKHeap) : Decidable h.Full := by
  unfold TopKHeap.Full
  infer_instance

/-- The keys held, with multiplicity. -/
def TopKHeap.keys (key : HeapEntry → κ) (h : TopKHeap) : Multiset κ :=
  (h.entries.map key : List κ)

theorem tpTopkInit_valid {k : Nat} (hk : 0 < k) : (tpTopkInit k).Valid key :=
  ⟨hk, Nat.zero_le _, fun _ _ hlen => absurd hlen (Nat.not_lt_zero _)⟩

theorem TopKHeap.Valid.entries_ne_nil {h : TopKHeap} (hv : h.Valid key) (hfull : h.Full) :
    h.entries ≠ [] := by
  intro hnil
  have := hv.capacity_pos
  simp only [TopKHeap.Full, hnil, List.length_nil] at hfull
  omega

theorem TopKHeap.Valid.root_mem {h : TopKHeap} (hv : h.Valid key) (hfull : h.Full) :
    h.root ∈ h.entries :=
  MinHeap.slot_mem (List.length_pos_of_ne_nil (hv.entries_ne_nil hfull))

theorem TopKHeap.Valid.root_le {h : TopKHeap} (hv : h.Valid key) {e : HeapEntry}
    (he : e ∈ h.entries) : key h.root ≤ key e :=
  hv.ordered.root_le_of_mem he

@[simp] theorem tpTopkAdd_capacity (h : TopKHeap) (e : HeapEntry) (beats : Bool) :
    (tpTopkAdd h e beats).capacity = h.capacity := by
  unfold tpTopkAdd
  split_ifs <;> rfl

/-- The heap is a bounded heap under `heap_less`. -/
theorem TopKHeap.valid_iff {h : TopKHeap} :
    h.Valid key ↔ BoundedHeap.Valid key h.capacity h.entries :=
  ⟨fun hv => ⟨hv.capacity_pos, hv.size_le, hv.ordered⟩,
    fun hv => ⟨hv.capacity_pos, hv.size_le, hv.ordered⟩⟩

theorem tpTopkAdd_entries (h : TopKHeap) (e : HeapEntry) (beats : Bool) :
    (tpTopkAdd h e beats).entries = BoundedHeap.add heapLess h.capacity h.entries e beats := by
  unfold tpTopkAdd BoundedHeap.add
  split_ifs <;> rfl

/-- An addition keeps the order of any key that `heap_less` respects, whatever `beats` says. -/
theorem tpTopkAdd_valid {h : TopKHeap} (hv : h.Valid key) (e : HeapEntry) (beats : Bool)
    (hr : MinHeap.Respects heapLess key (e :: h.entries)) : (tpTopkAdd h e beats).Valid key := by
  rw [TopKHeap.valid_iff, tpTopkAdd_capacity, tpTopkAdd_entries]
  exact BoundedHeap.add_valid (TopKHeap.valid_iff.1 hv) e beats hr

/-- **One addition.**  If `heap_less` respects the key on the entries involved
and `beats` compares the candidate with the root by it, then the heap stays
valid, keeps the `capacity` largest keys, and holds nothing but old entries and
the candidate. -/
theorem tpTopkAdd_spec {h : TopKHeap} (hv : h.Valid key) (e : HeapEntry) (beats : Bool)
    (hr : MinHeap.Respects heapLess key (e :: h.entries))
    (hyes : h.Full → beats = true → key h.root ≤ key e)
    (hno : h.Full → beats = false → key e ≤ key h.root) :
    (tpTopkAdd h e beats).Valid key ∧
      (tpTopkAdd h e beats).keys key = kLargest h.capacity (key e ::ₘ h.keys key) ∧
      ((tpTopkAdd h e beats).entries : Multiset HeapEntry) ≤
        e ::ₘ (h.entries : Multiset HeapEntry) := by
  have hiff : ∀ {Q : Prop}, (h.Full → Q) → (¬ h.entries.length < h.capacity → Q) :=
    fun hq hroom => hq (not_lt.1 hroom)
  rw [TopKHeap.valid_iff, TopKHeap.keys, tpTopkAdd_capacity, tpTopkAdd_entries]
  exact BoundedHeap.add_spec (TopKHeap.valid_iff.1 hv) e beats hr (hiff hyes) (hiff hno)

/-- A candidate below every key of a full heap changes no largest key. -/
theorem TopKHeap.Valid.kLargest_cons_of_le {h : TopKHeap} (hv : h.Valid key) (hfull : h.Full)
    {x : κ} (hx : x ≤ key h.root) : kLargest h.capacity (x ::ₘ h.keys key) = h.keys key :=
  (TopKHeap.valid_iff.1 hv).kLargest_cons_of_le (not_lt.2 hfull) hx

end Spec

/-! ## Keys that refine the score -/

section Key

variable {κ : Type*} [LinearOrder κ] {key : HeapEntry → κ}

/-- The key compares scores first. -/
def RefinesScore (key : HeapEntry → κ) : Prop :=
  ∀ a b, key a ≤ key b → a.score ≤ b.score

theorem RefinesScore.lt (hk : RefinesScore key) {a b : HeapEntry} (h : a.score < b.score) :
    key a < key b := by
  by_contra hge
  exact absurd (hk b a (not_lt.1 hge)) (not_le.2 h)

/-- What a query loop does with a scored document: one that a full heap dominates
is not added. -/
def offer (h : TopKHeap) (e : HeapEntry) (beats : Bool) : TopKHeap :=
  if tpTopkDominated h e.score then h else tpTopkAdd h e beats

@[simp] theorem offer_capacity (h : TopKHeap) (e : HeapEntry) (beats : Bool) :
    (offer h e beats).capacity = h.capacity := by
  unfold offer
  split
  · rfl
  · exact tpTopkAdd_capacity _ _ _

/-- The comparisons that decide about the entry agree with the key. -/
structure Admits (key : HeapEntry → κ) (h : TopKHeap) (e : HeapEntry) (beats : Bool) : Prop where
  respects : MinHeap.Respects heapLess key (e :: h.entries)
  yes : h.Full → beats = true → key h.root ≤ key e
  no : h.Full → beats = false → key e ≤ key h.root

/-- **One offer** keeps the `capacity` largest keys, dominated or not. -/
theorem offer_spec {h : TopKHeap} (hk : RefinesScore key) (hv : h.Valid key) {e : HeapEntry}
    {beats : Bool} (ha : Admits key h e beats) :
    (offer h e beats).Valid key ∧
      (offer h e beats).keys key = kLargest h.capacity (key e ::ₘ h.keys key) ∧
      ((offer h e beats).entries : Multiset HeapEntry) ≤
        e ::ₘ (h.entries : Multiset HeapEntry) := by
  cases hdom : tpTopkDominated h e.score with
  | false =>
      have heq : offer h e beats = tpTopkAdd h e beats := by simp [offer, hdom]
      rw [heq]
      exact tpTopkAdd_spec hv e beats ha.respects ha.yes ha.no
  | true =>
      have heq : offer h e beats = h := by simp [offer, hdom]
      obtain ⟨hfull, hlt⟩ : h.entries.length ≥ h.capacity ∧ e.score < h.root.score :=
        of_decide_eq_true hdom
      rw [heq]
      exact ⟨hv, (hv.kLargest_cons_of_le hfull (hk.lt hlt).le).symm, Multiset.le_cons_self _ _⟩

end Key

/-! ## Scores kept -/

/-- A heap in score order, the order every query heap is in. -/
abbrev TopKHeap.ScoreValid (h : TopKHeap) : Prop := h.Valid HeapEntry.score

/-- The scores held, with multiplicity. -/
abbrev TopKHeap.scores (h : TopKHeap) : Multiset ℚ := h.keys HeapEntry.score

/-- `heap_less` never contradicts the scores. -/
theorem heapLess_respects_score (l : List HeapEntry) :
    MinHeap.Respects heapLess HeapEntry.score l := by
  intro a _ b _
  constructor
  · intro hless
    by_contra hgt
    push Not at hgt
    simp [heapLess, hgt, not_lt.2 hgt.le] at hless
  · intro hless
    by_contra hlt
    push Not at hlt
    simp [heapLess, hlt] at hless

theorem score_of_beats {h : TopKHeap} {score : ℚ} {ctid : Option ItemPointer} {docId : Nat}
    (hb : heapBeatsRoot h score ctid docId = true) : h.root.score ≤ score := by
  by_contra hlt
  push Not at hlt
  simp [heapBeatsRoot, hlt, not_lt.2 hlt.le] at hb

theorem score_of_not_beats {h : TopKHeap} {score : ℚ} {ctid : Option ItemPointer} {docId : Nat}
    (hb : heapBeatsRoot h score ctid docId = false) : score ≤ h.root.score := by
  by_contra hgt
  push Not at hgt
  simp [heapBeatsRoot, hgt] at hb

/-- The heap rules out a document of score `x`: the score is not positive, or
the heap is full and nothing in it is smaller. -/
def TopKHeap.Settles (h : TopKHeap) (x : ℚ) : Prop :=
  x ≤ 0 ∨ h.Full ∧ ∀ e ∈ h.entries, x ≤ e.score

theorem TopKHeap.ScoreValid.settles_of_le_threshold {h : TopKHeap} (hv : h.ScoreValid) {x : ℚ}
    (hx : x ≤ tpTopkThreshold h) : h.Settles x := by
  unfold tpTopkThreshold at hx
  split_ifs at hx with hfull
  · exact Or.inr ⟨hfull, fun e he => hx.trans (hv.root_le he)⟩
  · exact Or.inl hx

theorem TopKHeap.Settles.mono {h : TopKHeap} {x y : ℚ} (hs : h.Settles y) (hxy : x ≤ y) :
    h.Settles x := by
  rcases hs with h0 | ⟨hfull, hall⟩
  · exact Or.inl (hxy.trans h0)
  · exact Or.inr ⟨hfull, fun e he => hxy.trans (hall e he)⟩

/-- Additions by score: what a score comparison with the root entails is all
that is used of the tie-breaking. -/
private theorem tpTopkAdd_scores {h : TopKHeap} (hv : h.ScoreValid) (e : HeapEntry)
    {ctid : Option ItemPointer} {docId : Nat} :
    (tpTopkAdd h e (heapBeatsRoot h e.score ctid docId)).ScoreValid ∧
      (tpTopkAdd h e (heapBeatsRoot h e.score ctid docId)).scores =
        kLargest h.capacity (e.score ::ₘ h.scores) ∧
      ((tpTopkAdd h e (heapBeatsRoot h e.score ctid docId)).entries : Multiset HeapEntry) ≤
        e ::ₘ (h.entries : Multiset HeapEntry) :=
  tpTopkAdd_spec hv e _ (heapLess_respects_score _) (fun _ => score_of_beats)
    (fun _ => score_of_not_beats)

theorem tpTopkAddSegment_spec {h : TopKHeap} (hv : h.ScoreValid) (segBlock docId : Nat) (s : ℚ) :
    (tpTopkAddSegment h segBlock docId s).ScoreValid ∧
      (tpTopkAddSegment h segBlock docId s).scores = kLargest h.capacity (s ::ₘ h.scores) ∧
      ((tpTopkAddSegment h segBlock docId s).entries : Multiset HeapEntry) ≤
        segmentEntry segBlock docId s ::ₘ (h.entries : Multiset HeapEntry) :=
  tpTopkAdd_scores hv (segmentEntry segBlock docId s)

theorem tpTopkAddMemtable_spec {h : TopKHeap} (hv : h.ScoreValid) (ctid : ItemPointer) (s : ℚ) :
    (tpTopkAddMemtable h ctid s).ScoreValid ∧
      (tpTopkAddMemtable h ctid s).scores = kLargest h.capacity (s ::ₘ h.scores) ∧
      ((tpTopkAddMemtable h ctid s).entries : Multiset HeapEntry) ≤
        memtableEntry ctid s ::ₘ (h.entries : Multiset HeapEntry) :=
  tpTopkAdd_scores hv (memtableEntry ctid s)

/-- The number of entries after keeping the `capacity` largest of one more. -/
private theorem full_of_scores {h h' : TopKHeap} {s : ℚ} (hcap : h'.capacity = h.capacity)
    (hscores : h'.scores = kLargest h.capacity (s ::ₘ h.scores)) (hfull : h.Full) : h'.Full := by
  have hcard := congrArg Multiset.card hscores
  simp only [TopKHeap.scores, TopKHeap.keys, Multiset.coe_card, List.length_map,
    card_kLargest, Multiset.card_cons] at hcard
  unfold TopKHeap.Full at hfull ⊢
  omega

/-- Keeping the largest scores never lowers the smallest of a full heap. -/
theorem TopKHeap.le_of_scores {h h' : TopKHeap} {s x : ℚ} (hfull : h.Full)
    (hall : ∀ e ∈ h.entries, x ≤ e.score) (hsize : h.entries.length ≤ h.capacity)
    (hcap : h'.capacity = h.capacity)
    (hscores : h'.scores = kLargest h.capacity (s ::ₘ h.scores)) :
    h'.Full ∧ ∀ e ∈ h'.entries, x ≤ e.score := by
  refine ⟨full_of_scores hcap hscores hfull, fun e he => ?_⟩
  have hallKeys : ∀ y ∈ h.scores, x ≤ y := by
    intro y hy
    obtain ⟨a, ha, rfl⟩ := List.mem_map.1 (Multiset.mem_coe.1 hy)
    exact hall a ha
  have hmem : e.score ∈ kLargest h.capacity (s ::ₘ h.scores) := by
    rw [← hscores]
    exact Multiset.mem_coe.2 (List.mem_map_of_mem he)
  have hcard : Multiset.card h.scores = h.capacity := by
    simp only [TopKHeap.scores, TopKHeap.keys, Multiset.coe_card, List.length_map]
    exact le_antisymm hsize hfull
  by_contra hlt
  push Not at hlt
  -- only the newcomer can be below `x`, and it is dropped in favour of the rest
  have hes : e.score = s := by
    rcases Multiset.mem_cons.1 (mem_of_mem_kLargest hmem) with heq | hold
    · exact heq
    · exact absurd (hallKeys _ hold) (not_le.2 hlt)
  have hkeep : kLargest h.capacity (s ::ₘ h.scores) = h.scores := by
    rw [← Multiset.singleton_add, add_comm, kLargest_add_of_le hcard.ge,
      kLargest_of_card_le hcard.le]
    intro y hy z hz
    rw [Multiset.mem_singleton] at hy
    subst hy
    exact (hes ▸ hlt).le.trans (hallKeys z (mem_of_mem_kLargest hz))
  rw [hkeep] at hmem
  exact absurd (hallKeys _ hmem) (not_le.2 hlt)

/-- **A score ruled out stays ruled out.** -/
theorem TopKHeap.Settles.of_scores {h h' : TopKHeap} {s x : ℚ} (hs : h.Settles x)
    (hsize : h.entries.length ≤ h.capacity) (hcap : h'.capacity = h.capacity)
    (hscores : h'.scores = kLargest h.capacity (s ::ₘ h.scores)) : h'.Settles x := by
  rcases hs with h0 | ⟨hfull, hall⟩
  · exact Or.inl h0
  · exact Or.inr (TopKHeap.le_of_scores hfull hall hsize hcap hscores)

/-- What a query loop does with a scored segment document: documents without a
positive score, and documents a full heap dominates, are not offered. -/
def offerSegment (h : TopKHeap) (segBlock docId : Nat) (score : ℚ) : TopKHeap :=
  if score > 0 ∧ !tpTopkDominated h score then tpTopkAddSegment h segBlock docId score else h

@[simp] theorem offerSegment_capacity (h : TopKHeap) (segBlock docId : Nat) (score : ℚ) :
    (offerSegment h segBlock docId score).capacity = h.capacity := by
  unfold offerSegment tpTopkAddSegment
  split_ifs
  · exact tpTopkAdd_capacity _ _ _
  · rfl

/-- Offering a positive score keeps the `capacity` largest scores, dominated or
not; other scores change nothing. -/
theorem offerSegment_spec {h : TopKHeap} (hv : h.ScoreValid) (segBlock docId : Nat) (s : ℚ) :
    (offerSegment h segBlock docId s).ScoreValid ∧
      (0 < s → (offerSegment h segBlock docId s).scores =
        kLargest h.capacity (s ::ₘ h.scores)) ∧
      (¬ 0 < s → offerSegment h segBlock docId s = h) ∧
      ((offerSegment h segBlock docId s).entries : Multiset HeapEntry) ≤
        segmentEntry segBlock docId s ::ₘ (h.entries : Multiset HeapEntry) := by
  by_cases hadd : s > 0 ∧ !tpTopkDominated h s
  · have heq : offerSegment h segBlock docId s = tpTopkAddSegment h segBlock docId s := by
      simp only [offerSegment, if_pos hadd]
    obtain ⟨h1, h2, h3⟩ := tpTopkAddSegment_spec hv segBlock docId s
    rw [heq]
    exact ⟨h1, fun _ => h2, fun hs => absurd hadd.1 hs, h3⟩
  · have heq : offerSegment h segBlock docId s = h := by
      simp only [offerSegment, if_neg hadd]
    rw [heq]
    refine ⟨hv, fun hs => ?_, fun _ => rfl, Multiset.le_cons_self _ _⟩
    have hdom : h.entries.length ≥ h.capacity ∧ s < h.root.score := by
      by_contra hnot
      exact hadd ⟨hs, by rw [tpTopkDominated, decide_eq_false hnot]; rfl⟩
    exact (hv.kLargest_cons_of_le hdom.1 hdom.2.le).symm

theorem offerSegment_settles {h : TopKHeap} (hv : h.ScoreValid) (segBlock docId : Nat) (s : ℚ)
    {x : ℚ} (hs : h.Settles x) : (offerSegment h segBlock docId s).Settles x := by
  obtain ⟨-, hpos, hneg, -⟩ := offerSegment_spec hv segBlock docId s
  by_cases h0 : 0 < s
  · exact hs.of_scores hv.size_le (offerSegment_capacity _ _ _ _) (hpos h0)
  · rw [hneg h0]
    exact hs

end PgTextsearch.Query
