import Mathlib.Data.Finset.Dedup
import Mathlib.Data.List.Infix
import Mathlib.Data.Prod.Lex
import Mathlib.Order.OrderDual
import PgTextsearch.Query.TopKHeap

/-!
# The Rust top-k heap (`rust/src/bmw/mod.rs`)

The port of the result heap, compared with the C one on results of one segment.  The two
always hold the same scores, and so have the same threshold.  They differ in what they do
about equal scores: the C heap orders them by document id, both in `heap_less` and in the test
against the root, while the port compares CTIDs, which are `(0, 0)` until they are resolved,
and lets a tie with the root lose.

## Main results

* `threshold_eq` — the thresholds agree after any additions.
* `refines_iff` — the kept entries agree as long as every addition is settled by scores or
  falls on the entry the C heap would drop.
* `refines_of_distinct_scores` — results without ties are kept alike.
-/

namespace PgTextsearch.Rust

open PgTextsearch.Query PgTextsearch.Verified

/-- `ScoredDoc`. -/
structure ScoredDoc where
  ctidPage : Nat
  ctidOffset : Nat
  segBlock : Nat
  docId : Nat
  score : ℚ
  deriving DecidableEq, Repr, Inhabited

/-- `TopKHeap`. -/
structure TopKHeap where
  entries : List ScoredDoc
  capacity : Nat
  deriving DecidableEq, Repr

namespace TopKHeap

/-- `TopKHeap::new`. -/
def new (k : Nat) : TopKHeap := ⟨[], k⟩

/-- The weakest entry, `self.entries[0]`. -/
def root (h : TopKHeap) : ScoredDoc := MinHeap.slot h.entries 0

/-- `threshold`. -/
def threshold (h : TopKHeap) : ℚ :=
  if h.entries.length ≥ h.capacity then h.root.score else 0

/-- `dominated`. -/
def dominated (h : TopKHeap) (score : ℚ) : Bool :=
  decide (h.entries.length ≥ h.capacity ∧ score < h.root.score)

/-- `heap_less`: scores first, then the higher CTID is the weaker. -/
def heapLess (a b : ScoredDoc) : Bool :=
  if a.score ≠ b.score then decide (a.score < b.score)
  else decide (a.ctidPage > b.ctidPage ∨ a.ctidPage = b.ctidPage ∧ a.ctidOffset > b.ctidOffset)

/-- `sift_up`. -/
def siftUp (entries : List ScoredDoc) (idx : Nat) : List ScoredDoc :=
  MinHeap.siftUp heapLess idx entries idx

/-- `sift_down`. -/
def siftDown (entries : List ScoredDoc) (idx : Nat) : List ScoredDoc :=
  MinHeap.siftDown heapLess entries.length entries idx

/-- `beats_root`; the document itself is not looked at. -/
def beatsRoot (h : TopKHeap) (score : ℚ) (_doc : ScoredDoc) : Bool :=
  if h.entries.isEmpty then false else decide (score > h.root.score)

/-- `add`. -/
def add (h : TopKHeap) (doc : ScoredDoc) : TopKHeap :=
  if h.entries.length < h.capacity then
    let entries := h.entries ++ [doc]
    { h with entries := siftUp entries (entries.length - 1) }
  else if h.beatsRoot doc.score doc then
    { h with entries := siftDown (h.entries.set 0 doc) 0 }
  else h

/-- The document `add_segment` stores. -/
def segmentDoc (segBlock docId : Nat) (score : ℚ) : ScoredDoc :=
  { ctidPage := 0, ctidOffset := 0, segBlock, docId, score }

/-- `add_segment`. -/
def addSegment (h : TopKHeap) (segBlock docId : Nat) (score : ℚ) : TopKHeap :=
  h.add (segmentDoc segBlock docId score)

/-- `add_memtable`. -/
def addMemtable (h : TopKHeap) (ctidPage ctidOffset : Nat) (score : ℚ) : TopKHeap :=
  h.add { ctidPage, ctidOffset, segBlock := 2 ^ 32 - 1, docId := 0, score }

/-! ## One addition -/

@[simp] theorem add_capacity (h : TopKHeap) (doc : ScoredDoc) :
    (h.add doc).capacity = h.capacity := by
  unfold add
  split_ifs <;> rfl

/-- The heap is a bounded heap under `heap_less`. -/
theorem add_entries (h : TopKHeap) (doc : ScoredDoc) :
    (h.add doc).entries =
      BoundedHeap.add heapLess h.capacity h.entries doc (h.beatsRoot doc.score doc) := by
  unfold add BoundedHeap.add BoundedHeap.push BoundedHeap.replace siftUp siftDown
  split_ifs <;> simp

/-- `heap_less` never contradicts the scores. -/
theorem heapLess_respects_score (l : List ScoredDoc) :
    MinHeap.Respects heapLess ScoredDoc.score l := by
  intro a _ b _
  unfold heapLess
  split_ifs with hne
  · simp only [decide_eq_true_eq, decide_eq_false_iff_not, not_lt]
    exact ⟨le_of_lt, id⟩
  · have heq : a.score = b.score := not_not.1 hne
    exact ⟨fun _ => heq.le, fun _ => heq.ge⟩

/-- A valid heap in score order. -/
abbrev Valid (h : TopKHeap) : Prop := BoundedHeap.Valid ScoredDoc.score h.capacity h.entries

theorem beatsRoot_iff {h : TopKHeap} (hv : h.Valid) (hfull : ¬ h.entries.length < h.capacity)
    (score : ℚ) (doc : ScoredDoc) :
    h.beatsRoot score doc = true ↔ h.root.score < score := by
  have hne : h.entries.isEmpty = false := by
    simpa using hv.ne_nil hfull
  simp [beatsRoot, hne]

/-- **One addition** keeps the score order and the `capacity` largest scores. -/
theorem add_spec {h : TopKHeap} (hv : h.Valid) (doc : ScoredDoc) :
    (h.add doc).Valid ∧
      (((h.add doc).entries.map ScoredDoc.score : List ℚ) : Multiset ℚ) =
        kLargest h.capacity (doc.score ::ₘ (h.entries.map ScoredDoc.score : List ℚ)) := by
  have hspec := BoundedHeap.add_spec hv doc (h.beatsRoot doc.score doc)
    (heapLess_respects_score _)
    (fun hfull hbeats => ((beatsRoot_iff hv hfull _ _).1 hbeats).le)
    (fun hfull hbeats => not_lt.1 fun hlt => by
      rw [(beatsRoot_iff hv hfull _ _).2 hlt] at hbeats
      exact Bool.noConfusion hbeats)
  unfold Valid
  rw [add_capacity, add_entries]
  exact ⟨hspec.1, hspec.2.1⟩

end TopKHeap

/-! ## Runs of both heaps -/

/-- A result of one segment: document id and score. -/
abbrev Result := Nat × ℚ

/-- The port's heap after adding the results, first result first. -/
def rustHeap (k segBlock : Nat) (results : List Result) : TopKHeap :=
  results.foldl (fun h r => h.addSegment segBlock r.1 r.2) (TopKHeap.new k)

/-- The C heap after the corresponding `tp_topk_add_segment` calls. -/
def cHeap (k segBlock : Nat) (results : List Result) : Query.TopKHeap :=
  results.foldl (fun h r => tpTopkAddSegment h segBlock r.1 r.2) (tpTopkInit k)

theorem rustHeap_append (k segBlock : Nat) (results : List Result) (x : Result) :
    rustHeap k segBlock (results ++ [x]) =
      (rustHeap k segBlock results).addSegment segBlock x.1 x.2 := by
  simp [rustHeap]

theorem cHeap_append (k segBlock : Nat) (results : List Result) (x : Result) :
    cHeap k segBlock (results ++ [x]) =
      tpTopkAddSegment (cHeap k segBlock results) segBlock x.1 x.2 := by
  simp [cHeap]

/-- The entries of the port's heap, as results. -/
def TopKHeap.results (h : TopKHeap) : List Result :=
  h.entries.map fun e => (e.docId, e.score)

/-- The entries of the C heap, as results. -/
def cResults (h : Query.TopKHeap) : List Result :=
  h.entries.map fun e => (e.docId, e.score)

/-- The set of kept entries and the threshold are the same after every result of the
sequence. -/
def Refines (k segBlock : Nat) (results : List Result) : Prop :=
  ∀ before, before <+: results →
    (rustHeap k segBlock before).results.toFinset = (cResults (cHeap k segBlock before)).toFinset ∧
      (rustHeap k segBlock before).threshold = tpTopkThreshold (cHeap k segBlock before)

instance (k segBlock : Nat) (results : List Result) : Decidable (Refines k segBlock results) :=
  decidable_of_iff
    (∀ before ∈ results.inits,
      (rustHeap k segBlock before).results.toFinset =
          (cResults (cHeap k segBlock before)).toFinset ∧
        (rustHeap k segBlock before).threshold = tpTopkThreshold (cHeap k segBlock before))
    (by simp only [List.mem_inits]; rfl)

/-- The addition is settled alike under both tie rules: there is room, the score is below
the root's, or it ties with the root and the document id is above those of the entries with
that score, or it is above the root's and the root has the largest document id among the
entries with its score. -/
def TopKHeap.SettledAlike (h : TopKHeap) (r : Result) : Prop :=
  h.entries.length < h.capacity ∨ r.2 < h.root.score ∨
    r.2 = h.root.score ∧ (∀ e ∈ h.entries, e.score = h.root.score → e.docId < r.1) ∨
    h.root.score < r.2 ∧ ∀ e ∈ h.entries, e.score = h.root.score → e.docId ≤ h.root.docId

instance (h : TopKHeap) (r : Result) : Decidable (h.SettledAlike r) := by
  unfold TopKHeap.SettledAlike
  infer_instance

/-! ## The order of the C heap on one segment -/

/-- The entry is an unresolved one of the segment. -/
def OfSegment (segBlock : Nat) (e : HeapEntry) : Prop :=
  e.ctid.isValid = false ∧ e.segBlock = segBlock

/-- Weakest first: by score, and among equal scores the larger document id first. -/
def docOrder (e : HeapEntry) : ℚ ×ₗ ℕᵒᵈ := toLex (e.score, OrderDual.toDual e.docId)

theorem docOrder_le_iff {a b : HeapEntry} :
    docOrder a ≤ docOrder b ↔ a.score < b.score ∨ a.score = b.score ∧ b.docId ≤ a.docId := by
  unfold docOrder
  rw [Prod.Lex.toLex_le_toLex]
  rfl

/-- On one segment `heap_less` is that order. -/
theorem heapLess_respects_docOrder {segBlock : Nat} {l : List HeapEntry}
    (hl : ∀ e ∈ l, OfSegment segBlock e) : MinHeap.Respects Query.heapLess docOrder l := by
  intro a ha b hb
  obtain ⟨hca, hsa⟩ := hl a ha
  obtain ⟨hcb, hsb⟩ := hl b hb
  rw [docOrder_le_iff, docOrder_le_iff]
  rcases lt_trichotomy a.score b.score with hlt | heq | hgt
  · simp [Query.heapLess, hlt]
  · have hless : Query.heapLess a b = decide (b.docId < a.docId) := by
      by_cases hdoc : a.docId = b.docId
      · simp [Query.heapLess, heq, hca, hsa, hsb, hdoc]
      · simp [Query.heapLess, heq, hca, hdoc]
    rw [hless, decide_eq_true_eq, decide_eq_false_iff_not]
    exact ⟨fun hlt => Or.inr ⟨heq, hlt.le⟩, fun hle => Or.inr ⟨heq.symm, not_lt.1 hle⟩⟩
  · simp [Query.heapLess, hgt, not_lt.2 hgt.le]

theorem score_le_of_docOrder {a b : HeapEntry} (h : docOrder a ≤ docOrder b) :
    a.score ≤ b.score := by
  cases docOrder_le_iff.1 h with
  | inl hlt => exact hlt.le
  | inr htie => exact htie.1.le

/-! ## What both runs keep -/

/-- What relates the two heaps after the same results. -/
structure Related (k segBlock : Nat) (results : List Result) (r : TopKHeap)
    (c : Query.TopKHeap) : Prop where
  rust_capacity : r.capacity = k
  rust_valid : BoundedHeap.Valid ScoredDoc.score k r.entries
  rust_sub : (r.results : Multiset Result) ≤ results
  c_capacity : c.capacity = k
  c_valid : BoundedHeap.Valid docOrder k c.entries
  c_sub : (cResults c : Multiset Result) ≤ results
  c_segment : ∀ e ∈ c.entries, OfSegment segBlock e
  scores : ((r.entries.map ScoredDoc.score : List ℚ) : Multiset ℚ) =
    (c.entries.map HeapEntry.score : List ℚ)

/-! ## One result added to both -/

/-- What the port keeps after one more result. -/
theorem TopKHeap.coe_results_addSegment {h : TopKHeap} (hv : h.Valid) (segBlock : Nat)
    (x : Result) :
    ((h.addSegment segBlock x.1 x.2).results : Multiset Result) =
      if h.entries.length < h.capacity then x ::ₘ (h.results : Multiset Result)
      else if h.root.score < x.2 then
        x ::ₘ (h.results : Multiset Result).erase (h.root.docId, h.root.score)
      else h.results := by
  unfold TopKHeap.results TopKHeap.addSegment
  rw [add_entries, BoundedHeap.coe_map_add _ _ hv.capacity_pos]
  split_ifs with hroom hbeats hlt hlt
  · rfl
  · rfl
  · exact absurd ((beatsRoot_iff hv hroom _ _).1 hbeats) hlt
  · exact absurd ((beatsRoot_iff hv hroom _ _).2 hlt) hbeats
  · rfl

/-- What the C heap keeps after one more result of its segment. -/
theorem coe_cResults_add {k segBlock : Nat} {c : Query.TopKHeap} (hcap : c.capacity = k)
    (hv : BoundedHeap.Valid docOrder k c.entries) (hseg : ∀ e ∈ c.entries, OfSegment segBlock e)
    (x : Result) :
    (cResults (tpTopkAddSegment c segBlock x.1 x.2) : Multiset Result) =
      if c.entries.length < k then x ::ₘ (cResults c : Multiset Result)
      else if c.root.score < x.2 ∨ x.2 = c.root.score ∧ x.1 < c.root.docId then
        x ::ₘ (cResults c : Multiset Result).erase (c.root.docId, c.root.score)
      else cResults c := by
  unfold cResults tpTopkAddSegment
  rw [tpTopkAdd_entries, BoundedHeap.coe_map_add _ _ (hcap ▸ hv.capacity_pos), hcap]
  by_cases hroom : c.entries.length < k
  · rw [if_pos hroom, if_pos hroom]
    rfl
  · have hroot : c.root.ctid.isValid = false := (hseg _ (hv.root_mem hroom)).1
    have hbeats : heapBeatsRoot c x.2 none x.1 = true ↔
        c.root.score < x.2 ∨ x.2 = c.root.score ∧ x.1 < c.root.docId := by
      rcases lt_trichotomy x.2 c.root.score with hlt | heq | hgt
      · simp [heapBeatsRoot, not_lt.2 hlt.le, hlt, hlt.ne]
      · simp [heapBeatsRoot, heq, hroot]
      · simp [heapBeatsRoot, hgt]
    rw [if_neg hroom, if_neg hroom]
    exact if_congr hbeats rfl rfl

/-- The heaps start related. -/
theorem Related.nil {k : Nat} (hk : 1 ≤ k) (segBlock : Nat) :
    Related k segBlock [] (TopKHeap.new k) (tpTopkInit k) where
  rust_capacity := rfl
  rust_valid := .nil hk
  rust_sub := le_rfl
  c_capacity := rfl
  c_valid := .nil hk
  c_sub := le_rfl
  c_segment := fun _ he => nomatch he
  scores := rfl

/-- Score order follows from the order of the C heap. -/
theorem scoreValid_of_docOrder {k : Nat} {c : Query.TopKHeap} (hcap : c.capacity = k)
    (hv : BoundedHeap.Valid docOrder k c.entries) : c.ScoreValid :=
  ⟨hcap ▸ hv.capacity_pos, hcap ▸ hv.size_le,
    fun i hi hlen => score_le_of_docOrder (hv.ordered i hi hlen)⟩

section Step

variable {k segBlock : Nat} {results : List Result} {r : TopKHeap} {c : Query.TopKHeap}

theorem Related.valid (hrel : Related k segBlock results r c) : r.Valid := by
  unfold TopKHeap.Valid
  rw [hrel.rust_capacity]
  exact hrel.rust_valid

/-- Both heaps are full together. -/
theorem Related.length_eq (hrel : Related k segBlock results r c) :
    c.entries.length = r.entries.length := by
  have hcard := congrArg Multiset.card hrel.scores
  simpa using hcard.symm

/-- The roots of full heaps have the same score. -/
theorem Related.root_score (hrel : Related k segBlock results r c)
    (hfull : ¬ r.entries.length < k) : c.root.score = r.root.score := by
  have hvalid := TopKHeap.valid_iff.1 (scoreValid_of_docOrder hrel.c_capacity hrel.c_valid)
  rw [hrel.c_capacity] at hvalid
  exact (hrel.rust_valid.root_key_eq hvalid hfull hrel.scores).symm

theorem Related.threshold (hrel : Related k segBlock results r c) :
    r.threshold = tpTopkThreshold c := by
  unfold TopKHeap.threshold tpTopkThreshold
  rw [hrel.rust_capacity, hrel.c_capacity, hrel.length_eq]
  split_ifs with hfull
  · exact (hrel.root_score (not_lt.2 hfull)).symm
  · rfl

/-- **Step**: one more result keeps the heaps related. -/
theorem Related.add (hrel : Related k segBlock results r c) (x : Result) :
    Related k segBlock (results ++ [x]) (r.addSegment segBlock x.1 x.2)
      (tpTopkAddSegment c segBlock x.1 x.2) := by
  have happend : ((results ++ [x] : List Result) : Multiset Result) =
      x ::ₘ (results : Multiset Result) :=
    Multiset.coe_eq_coe.2 (List.perm_append_singleton x results)
  have hscoreValid := scoreValid_of_docOrder hrel.c_capacity hrel.c_valid
  have hentries : (tpTopkAddSegment c segBlock x.1 x.2).entries =
      BoundedHeap.add Query.heapLess k c.entries (segmentEntry segBlock x.1 x.2)
        (heapBeatsRoot c x.2 none x.1) := by
    rw [← hrel.c_capacity]
    exact tpTopkAdd_entries _ _ _
  have hsub : ∀ e ∈ (tpTopkAddSegment c segBlock x.1 x.2).entries,
      e = segmentEntry segBlock x.1 x.2 ∨ e ∈ c.entries := fun e he =>
    Multiset.mem_cons.1 (Multiset.mem_of_le (tpTopkAddSegment_spec hscoreValid _ _ _).2.2
      (Multiset.mem_coe.2 he))
  constructor
  case rust_capacity => exact (r.add_capacity _).trans hrel.rust_capacity
  case rust_valid =>
    have hvalid := (TopKHeap.add_spec hrel.valid (TopKHeap.segmentDoc segBlock x.1 x.2)).1
    unfold TopKHeap.Valid at hvalid
    rwa [TopKHeap.add_capacity, hrel.rust_capacity] at hvalid
  case rust_sub =>
    rw [TopKHeap.coe_results_addSegment hrel.valid, happend]
    split_ifs
    · exact Multiset.cons_le_cons _ hrel.rust_sub
    · exact Multiset.cons_le_cons _ ((Multiset.erase_le _ _).trans hrel.rust_sub)
    · exact hrel.rust_sub.trans (Multiset.le_cons_self _ _)
  case c_capacity => exact (tpTopkAdd_capacity _ _ _).trans hrel.c_capacity
  case c_valid =>
    rw [hentries]
    have hseg : ∀ e ∈ segmentEntry segBlock x.1 x.2 :: c.entries, OfSegment segBlock e := by
      intro e he
      cases List.mem_cons.1 he with
      | inl heq => exact heq ▸ ⟨rfl, rfl⟩
      | inr hold => exact hrel.c_segment e hold
    exact BoundedHeap.add_valid hrel.c_valid _ _ (heapLess_respects_docOrder hseg)
  case c_sub =>
    rw [coe_cResults_add hrel.c_capacity hrel.c_valid hrel.c_segment, happend]
    split_ifs
    · exact Multiset.cons_le_cons _ hrel.c_sub
    · exact Multiset.cons_le_cons _ ((Multiset.erase_le _ _).trans hrel.c_sub)
    · exact hrel.c_sub.trans (Multiset.le_cons_self _ _)
  case c_segment =>
    intro e he
    cases hsub e he with
    | inl heq => exact heq ▸ ⟨rfl, rfl⟩
    | inr hold => exact hrel.c_segment e hold
  case scores =>
    have hrust := (TopKHeap.add_spec hrel.valid (TopKHeap.segmentDoc segBlock x.1 x.2)).2
    have hc := (tpTopkAddSegment_spec hscoreValid segBlock x.1 x.2).2.1
    rw [hrel.rust_capacity, hrel.scores] at hrust
    rw [hrel.c_capacity] at hc
    exact hrust.trans hc.symm

end Step

/-- **Runs** keep the heaps related. -/
theorem related_run {k : Nat} (hk : 1 ≤ k) (segBlock : Nat) (results : List Result) :
    Related k segBlock results (rustHeap k segBlock results) (cHeap k segBlock results) := by
  induction results using List.reverseRecOn with
  | nil => exact .nil hk segBlock
  | append_singleton results x ih =>
      rw [rustHeap_append, cHeap_append]
      exact ih.add x

/-- **The thresholds agree**, ties included. -/
theorem threshold_eq {k : Nat} (hk : 1 ≤ k) (segBlock : Nat) (results : List Result) :
    (rustHeap k segBlock results).threshold = tpTopkThreshold (cHeap k segBlock results) :=
  (related_run hk segBlock results).threshold

/-! ## When the kept entries agree -/

section Agree

variable {k segBlock : Nat} {results : List Result} {r : TopKHeap} {c : Query.TopKHeap}

/-- Sub-multisets of results with distinct document ids are equal when they are equal as sets. -/
theorem coe_eq_of_toFinset_eq {a b : List Result} (hnodup : (results.map Prod.fst).Nodup)
    (ha : (a : Multiset Result) ≤ results) (hb : (b : Multiset Result) ≤ results)
    (heq : a.toFinset = b.toFinset) : (a : Multiset Result) = b := by
  have hresults : (results : Multiset Result).Nodup := Multiset.coe_nodup.2 hnodup.of_map
  exact Multiset.coe_eq_coe.2 (List.perm_of_nodup_nodup_toFinset_eq
    (Multiset.coe_nodup.1 (Multiset.nodup_of_le ha hresults))
    (Multiset.coe_nodup.1 (Multiset.nodup_of_le hb hresults)) heq)

theorem toFinset_eq_of_coe_eq {a b : List Result} (heq : (a : Multiset Result) = b) :
    a.toFinset = b.toFinset :=
  List.toFinset_eq_of_perm _ _ (Multiset.coe_eq_coe.1 heq)

/-- The port's root, as a result the C heap keeps too. -/
theorem Related.rust_root_mem (hrel : Related k segBlock results r c)
    (hfull : ¬ r.entries.length < k) : (r.root.docId, r.root.score) ∈ r.results :=
  List.mem_map.2 ⟨r.root, hrel.rust_valid.root_mem hfull, rfl⟩

theorem Related.c_root_mem (hrel : Related k segBlock results r c)
    (hfull : ¬ r.entries.length < k) : (c.root.docId, c.root.score) ∈ cResults c :=
  List.mem_map.2 ⟨c.root, hrel.c_valid.root_mem (hrel.length_eq ▸ hfull), rfl⟩

/-- The C root has the largest document id among the kept results of its score. -/
theorem Related.le_c_root (hrel : Related k segBlock results r c) {p : Result}
    (hp : p ∈ cResults c) (hscore : p.2 = c.root.score) : p.1 ≤ c.root.docId := by
  obtain ⟨e, he, rfl⟩ := List.mem_map.1 hp
  cases docOrder_le_iff.1 (hrel.c_valid.root_le he) with
  | inl hlt => exact absurd hscore (ne_of_gt hlt)
  | inr htie => exact htie.2

/-- **One result**, on heaps that keep the same entries: they keep the same entries again
exactly if the result is settled alike. -/
theorem Related.add_agree_iff (hrel : Related k segBlock results r c)
    (heq : (r.results : Multiset Result) = cResults c) {x : Result}
    (hx : x.1 ∉ results.map Prod.fst) :
    ((r.addSegment segBlock x.1 x.2).results : Multiset Result) =
        cResults (tpTopkAddSegment c segBlock x.1 x.2) ↔ r.SettledAlike x := by
  rw [TopKHeap.coe_results_addSegment hrel.valid,
    coe_cResults_add hrel.c_capacity hrel.c_valid hrel.c_segment, hrel.length_eq, ← heq,
    hrel.rust_capacity]
  unfold TopKHeap.SettledAlike
  rw [hrel.rust_capacity]
  by_cases hroom : r.entries.length < k
  · simp [hroom]
  have hmemOf : ∀ p ∈ r.results, p ∈ results := fun p hp =>
    Multiset.mem_coe.1 (Multiset.mem_of_le hrel.rust_sub (Multiset.mem_coe.2 hp))
  have hfresh : ∀ p ∈ r.results, p.1 ≠ x.1 := fun p hp hpx =>
    hx (hpx ▸ List.mem_map_of_mem (hmemOf p hp))
  have hxK : x ∉ (r.results : Multiset Result) := fun hmem => hfresh x (Multiset.mem_coe.1 hmem) rfl
  have hscore := hrel.root_score hroom
  have hrmem := hrel.rust_root_mem hroom
  have hcmem : (c.root.docId, c.root.score) ∈ r.results := by
    rw [← Multiset.mem_coe, heq]
    exact Multiset.mem_coe.2 (hrel.c_root_mem hroom)
  have hmax : ∀ e ∈ r.entries, e.score = r.root.score → e.docId ≤ c.root.docId := by
    intro e he hes
    have hmem : (e.docId, e.score) ∈ cResults c := by
      rw [← Multiset.mem_coe, ← heq]
      exact Multiset.mem_coe.2 (List.mem_map.2 ⟨e, he, rfl⟩)
    exact hrel.le_c_root hmem (hes.trans hscore.symm)
  obtain ⟨w, hw, hwp⟩ := List.mem_map.1 hcmem
  obtain ⟨hwdoc, hwscore⟩ : w.docId = c.root.docId ∧ w.score = c.root.score :=
    Prod.mk.injEq .. ▸ hwp
  rw [hscore] at hwscore
  simp only [hroom, false_or, hscore]
  rcases lt_trichotomy x.2 r.root.score with hlt | htie | hgt
  · simp [hlt, hlt.ne, not_lt.2 hlt.le]
  · -- the port drops a tie; the C heap drops it exactly if its document id is the largest
    simp only [htie, lt_irrefl, if_false, false_or, true_and, false_and, or_false]
    split_ifs with hdoc
    · constructor
      · intro hsame
        exact absurd (hsame ▸ Multiset.mem_cons_self x _) hxK
      · intro hall
        exact absurd (hall w hw hwscore) (by omega)
    · refine ⟨fun _ e he hes => ?_, fun _ => rfl⟩
      have hne := hfresh _ hcmem
      exact lt_of_le_of_lt (hmax e he hes) (lt_of_le_of_ne (not_lt.1 hdoc) hne)
  · -- both replace their roots
    simp only [hgt, if_true, true_or, not_lt.2 hgt.le, hgt.ne', false_and, false_or, true_and,
      if_false]
    rw [Multiset.cons_inj_right]
    constructor
    · intro hsame e he hes
      have hroot : (r.root.docId, r.root.score) = (c.root.docId, r.root.score) := by
        by_contra hne
        have hcount := congrArg (Multiset.count (r.root.docId, r.root.score)) hsame
        rw [Multiset.count_erase_self, Multiset.count_erase_of_ne hne] at hcount
        have hpos := Multiset.count_pos.2 (Multiset.mem_coe.2 hrmem)
        omega
      exact (hmax e he hes).trans_eq (congrArg Prod.fst hroot).symm
    · intro hall
      have hroot : r.root.docId = c.root.docId :=
        le_antisymm (hmax _ (hrel.rust_valid.root_mem hroom) rfl) (hwdoc ▸ hall w hw hwscore)
      rw [hroot]

end Agree

/-- The additions that come after a prefix are settled alike, one by one. -/
theorem refines_append_iff {k : Nat} (hk : 1 ≤ k) (segBlock : Nat) (results : List Result)
    (x : Result) (hnodup : ((results ++ [x]).map Prod.fst).Nodup) :
    Refines k segBlock (results ++ [x]) ↔
      Refines k segBlock results ∧ (rustHeap k segBlock results).SettledAlike x := by
  have hrel := related_run hk segBlock results
  have hnext := related_run hk segBlock (results ++ [x])
  have hdistinct : (results.map Prod.fst).Nodup ∧ x.1 ∉ results.map Prod.fst := by
    rw [List.map_append] at hnodup
    refine ⟨(List.nodup_append.1 hnodup).1, fun hmem => ?_⟩
    exact (List.nodup_append.1 hnodup).2.2 _ hmem _ (by simp) rfl
  constructor
  · intro href
    have hbefore : Refines k segBlock results := fun before hpre =>
      href before (hpre.trans (List.prefix_append _ _))
    have hsame := coe_eq_of_toFinset_eq hdistinct.1 hrel.rust_sub hrel.c_sub
      (hbefore results (List.prefix_refl _)).1
    refine ⟨hbefore, (hrel.add_agree_iff hsame hdistinct.2).1 ?_⟩
    have hafter := coe_eq_of_toFinset_eq hnodup hnext.rust_sub hnext.c_sub
      (href _ (List.prefix_refl _)).1
    rwa [rustHeap_append, cHeap_append] at hafter
  · rintro ⟨hbefore, hsettled⟩ before hpre
    refine ⟨?_, (related_run hk segBlock before).threshold⟩
    cases List.prefix_concat_iff.1 hpre with
    | inr hold => exact (hbefore before hold).1
    | inl heq =>
        have hsame := coe_eq_of_toFinset_eq hdistinct.1 hrel.rust_sub hrel.c_sub
          (hbefore results (List.prefix_refl _)).1
        rw [heq, rustHeap_append, cHeap_append]
        exact toFinset_eq_of_coe_eq ((hrel.add_agree_iff hsame hdistinct.2).2 hsettled)

/-- **The port refines the C heap** on a sequence of results of one segment, distinct document
ids, exactly if every result is settled alike when it arrives. -/
theorem refines_iff (k : Nat) (hk : 1 ≤ k) (segBlock : Nat) (results : List Result)
    (hnodup : (results.map Prod.fst).Nodup) :
    Refines k segBlock results ↔
      ∀ before x, before ++ [x] <+: results → (rustHeap k segBlock before).SettledAlike x := by
  induction results using List.reverseRecOn with
  | nil =>
      constructor
      · intro _ before x hpre
        simp at hpre
      · intro _ before hpre
        rw [List.prefix_nil.1 hpre]
        exact ⟨rfl, (related_run hk segBlock []).threshold⟩
  | append_singleton results y ih =>
      have hbefore : (results.map Prod.fst).Nodup := by
        rw [List.map_append] at hnodup
        exact (List.nodup_append.1 hnodup).1
      rw [refines_append_iff hk segBlock results y hnodup, ih hbefore]
      constructor
      · rintro ⟨hall, hlast⟩ before x hpre
        cases List.prefix_concat_iff.1 hpre with
        | inr hold => exact hall before x hold
        | inl heq =>
            obtain ⟨hb, hx⟩ := List.append_inj' heq rfl
            rw [hb, List.singleton_inj.1 hx]
            exact hlast
      · intro hall
        exact ⟨fun before x hpre => hall before x (hpre.trans (List.prefix_append _ _)),
          hall results y (List.prefix_refl _)⟩

/-- Without ties the heaps agree. -/
theorem refines_of_distinct_scores {k : Nat} (hk : 1 ≤ k) (segBlock : Nat)
    {results : List Result} (hnodup : (results.map Prod.fst).Nodup)
    (hscores : (results.map Prod.snd).Nodup) : Refines k segBlock results := by
  rw [refines_iff k hk segBlock results hnodup]
  intro before x hpre
  have hrel := related_run hk segBlock before
  generalize rustHeap k segBlock before = h at hrel
  by_cases hroom : h.entries.length < k
  · exact Or.inl (hrel.rust_capacity.symm ▸ hroom)
  have hnew : ((before ++ [x]).map Prod.snd).Nodup := (hpre.map Prod.snd).sublist.nodup hscores
  rw [List.map_append, List.nodup_append] at hnew
  have hmem : ∀ e ∈ h.entries, (e.docId, e.score) ∈ before := fun e he =>
    Multiset.mem_coe.1 (Multiset.mem_of_le hrel.rust_sub
      (Multiset.mem_coe.2 (List.mem_map.2 ⟨e, he, rfl⟩)))
  have hroot := hrel.rust_valid.root_mem hroom
  rcases lt_trichotomy x.2 h.root.score with hlt | heq | hgt
  · exact Or.inr (Or.inl hlt)
  · have hold : h.root.score ∈ before.map Prod.snd := List.mem_map.2 ⟨_, hmem _ hroot, rfl⟩
    exact absurd heq.symm (hnew.2.2 _ hold _ (by simp))
  · refine Or.inr (Or.inr (Or.inr ⟨hgt, fun e he hes => ?_⟩))
    have hsame := List.inj_on_of_nodup_map hnew.1 (hmem e he) (hmem _ hroot) hes
    exact (congrArg Prod.fst hsame).le

/-- Two results that tie for one place, the larger document id second. -/
theorem refines_iff_two :
    Refines 1 7 [(3, 1), (5, 1)] ↔
      ∀ before x, before ++ [x] <+: [(3, 1), (5, 1)] → (rustHeap 1 7 before).SettledAlike x :=
  refines_iff 1 (by decide) 7 [(3, 1), (5, 1)] (by decide)

/-- The other way round the C heap takes the smaller document id, the port keeps the first. -/
theorem not_refines_tie : ¬ Refines 1 7 [(5, 1), (3, 1)] := by
  intro href
  exact absurd (href [(5, 1), (3, 1)] (List.prefix_refl _)).1 (by decide)

end PgTextsearch.Rust
