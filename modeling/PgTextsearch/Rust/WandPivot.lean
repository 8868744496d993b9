import Mathlib.Algebra.Order.BigOperators.Group.List
import Mathlib.Algebra.Order.Field.Rat
import Mathlib.Tactic.Linarith
import PgTextsearch.Rust.TermState

/-!
# The Rust WAND pivot (`rust/src/bmw/mod.rs`)

`find_wand_pivot` sums the maximal contributions of the terms in the order of their current
documents and stops where the sum exceeds the threshold.  It is compared with the scores the
remaining postings can still add up to.

## Main results

* `findWandPivotFrom_none`, `findWandPivotFrom_some` — what the loop guarantees from any point.
* `findWandPivot_safe` — no remaining document that the pivot skips can beat the threshold, and
  the order survives advancing a term.
-/

namespace PgTextsearch.Rust

open PgTextsearch.Postgres PgTextsearch.Verified

/-- The inner loop of `find_wand_pivot`: include the subsequent terms at the same document. -/
def pivotLenFrom (pivotDoc : Nat) : Nat → List TermState → Nat
  | pivotLen, [] => pivotLen
  | pivotLen, t :: rest =>
      if t.currentDocId = pivotDoc then pivotLenFrom pivotDoc (pivotLen + 1) rest else pivotLen

/-- The outer loop of `find_wand_pivot` at index `i`. -/
def findWandPivotFrom (threshold : ℚ) : Nat → ℚ → List TermState → Option (Nat × Nat)
  | _, _, [] => none
  | i, accumulated, term :: rest =>
      let docId := term.currentDocId
      if docId = uint32Max then none
      else if accumulated + term.maxScore > threshold then
        some (pivotLenFrom docId (i + 1) rest, docId)
      else findWandPivotFrom threshold (i + 1) (accumulated + term.maxScore) rest

/-- `find_wand_pivot`. -/
def findWandPivot (terms : List TermState) (threshold : ℚ) : Option (Nat × Nat) :=
  findWandPivotFrom threshold 0 0 terms

/-! ## Remaining postings -/

/-- A term state with the postings it has still to visit, the current one first. -/
structure Cursor where
  state : TermState
  remaining : List BlockPosting

/-- The state stands on the first remaining posting; document ids increase and stay below the
sentinel, which stands for "none remaining". -/
structure Cursor.Positioned (c : Cursor) : Prop where
  sorted : c.remaining.Pairwise (·.docId < ·.docId)
  below : ∀ p ∈ c.remaining, p.docId < uint32Max
  current : c.state.currentDocId = (c.remaining.head?.map BlockPosting.docId).getD uint32Max

/-- What the remaining postings of a term contribute to a document. -/
def Cursor.contributes (contribution : TermState → BlockPosting → ℚ) (c : Cursor)
    (docId : Nat) : ℚ :=
  match c.remaining.find? fun p => p.docId == docId with
  | some p => contribution c.state p
  | none => 0

/-- The total score the remaining postings give a document. -/
def remainingScore (contribution : TermState → BlockPosting → ℚ) (cursors : List Cursor)
    (docId : Nat) : ℚ :=
  (cursors.map fun c => c.contributes contribution docId).sum

/-- Contributions are not negative and bounded by the term's maximal score. -/
def Cursor.Bounded (contribution : TermState → BlockPosting → ℚ) (c : Cursor) : Prop :=
  ∀ p ∈ c.remaining, 0 ≤ contribution c.state p ∧ contribution c.state p ≤ c.state.maxScore

section Cursor

variable {contribution : TermState → BlockPosting → ℚ} {c : Cursor}

/-- No document before the current one remains. -/
theorem Cursor.Positioned.currentDocId_le (hc : c.Positioned) {p : BlockPosting}
    (hp : p ∈ c.remaining) : c.state.currentDocId ≤ p.docId := by
  rw [hc.current]
  cases hrem : c.remaining with
  | nil => simp [hrem] at hp
  | cons q rest =>
      have hsorted := hc.sorted
      rw [hrem] at hp hsorted
      cases List.mem_cons.1 hp with
      | inl heq => exact heq ▸ le_rfl
      | inr hrest => exact ((List.pairwise_cons.1 hsorted).1 p hrest).le

/-- A document the term stands behind gets nothing from it. -/
theorem Cursor.Positioned.contributes_of_lt (hc : c.Positioned) {docId : Nat}
    (hlt : docId < c.state.currentDocId) : c.contributes contribution docId = 0 := by
  have hnone : c.remaining.find? (fun p => p.docId == docId) = none := by
    rw [List.find?_eq_none]
    intro p hp heq
    have hle := hc.currentDocId_le hp
    rw [eq_of_beq heq] at hle
    omega
  rw [contributes, hnone]

/-- An exhausted term contributes to no document. -/
theorem Cursor.Positioned.contributes_of_exhausted (hc : c.Positioned)
    (hmax : c.state.currentDocId = uint32Max) (docId : Nat) :
    c.contributes contribution docId = 0 := by
  have hnone : c.remaining.find? (fun p => p.docId == docId) = none := by
    rw [List.find?_eq_none]
    intro p hp _
    exact absurd (hc.below p hp) (not_lt.2 (hmax ▸ hc.currentDocId_le hp))
  rw [contributes, hnone]

/-- A term with a current document contributes at most its maximal score. -/
theorem Cursor.Positioned.contributes_le (hc : c.Positioned) (hb : c.Bounded contribution)
    (hne : c.state.currentDocId ≠ uint32Max) (docId : Nat) :
    c.contributes contribution docId ≤ c.state.maxScore := by
  unfold contributes
  cases hfind : c.remaining.find? (fun p => p.docId == docId) with
  | some p => exact (hb p (List.mem_of_find?_eq_some hfind)).2
  | none =>
      cases hrem : c.remaining with
      | nil => exact absurd (by rw [hc.current, hrem]; rfl) hne
      | cons q rest =>
          have hq := hb q (by rw [hrem]; exact List.mem_cons_self)
          exact hq.1.trans hq.2

end Cursor

/-! ## The loop -/

section Loop

variable {contribution : TermState → BlockPosting → ℚ}

/-- The terms of a list of cursors. -/
abbrev states (cursors : List Cursor) : List TermState := cursors.map Cursor.state

theorem states_cons (c : Cursor) (rest : List Cursor) :
    states (c :: rest) = c.state :: states rest := rfl

/-- Documents before all current documents get nothing. -/
theorem remainingScore_of_lt {cursors : List Cursor} (hc : ∀ c ∈ cursors, c.Positioned)
    {docId : Nat} (hlt : ∀ c ∈ cursors, docId < c.state.currentDocId) :
    remainingScore contribution cursors docId = 0 := by
  apply List.sum_eq_zero
  intro x hx
  obtain ⟨c, hmem, rfl⟩ := List.mem_map.1 hx
  exact (hc c hmem).contributes_of_lt (hlt c hmem)

/-- Exhausted terms give nothing. -/
theorem remainingScore_of_exhausted {cursors : List Cursor} (hc : ∀ c ∈ cursors, c.Positioned)
    (hmax : ∀ c ∈ cursors, uint32Max ≤ c.state.currentDocId) (docId : Nat) :
    remainingScore contribution cursors docId = 0 := by
  apply List.sum_eq_zero
  intro x hx
  obtain ⟨c, hmem, rfl⟩ := List.mem_map.1 hx
  by_cases heq : c.state.currentDocId = uint32Max
  · exact (hc c hmem).contributes_of_exhausted heq docId
  · -- above the sentinel nothing remains either
    unfold Cursor.contributes
    have hnone : c.remaining.find? (fun p => p.docId == docId) = none := by
      rw [List.find?_eq_none]
      intro p hp _
      exact absurd ((hc c hmem).below p hp)
        (not_lt.2 ((hmax c hmem).trans ((hc c hmem).currentDocId_le hp)))
    rw [hnone]

/-- If the loop finds no pivot, no document beats the threshold with what has been summed up
and what remains. -/
theorem findWandPivotFrom_none {cursors : List Cursor} {threshold : ℚ}
    (hc : ∀ c ∈ cursors, c.Positioned) (hb : ∀ c ∈ cursors, c.Bounded contribution)
    (hsorted : SortedByDoc (states cursors)) (i : Nat) {accumulated : ℚ}
    (hacc : accumulated ≤ threshold)
    (hnone : findWandPivotFrom threshold i accumulated (states cursors) = none) (docId : Nat) :
    accumulated + remainingScore contribution cursors docId ≤ threshold := by
  induction cursors generalizing i accumulated with
  | nil => simpa [remainingScore] using hacc
  | cons c rest ih =>
      simp only [states_cons, findWandPivotFrom] at hnone
      have htail := List.pairwise_cons.1 hsorted
      split_ifs at hnone with hmax hbeats
      · have hexhausted : ∀ d ∈ c :: rest, uint32Max ≤ d.state.currentDocId := by
          intro d hd
          cases List.mem_cons.1 hd with
          | inl heq => exact heq ▸ hmax.ge
          | inr hrest => exact hmax ▸ htail.1 d.state (List.mem_map_of_mem hrest)
        rwa [remainingScore_of_exhausted hc hexhausted, add_zero]
      · have hle := (hc c List.mem_cons_self).contributes_le (hb c List.mem_cons_self) hmax docId
        have hrest := ih (fun d hd => hc d (List.mem_cons_of_mem _ hd))
          (fun d hd => hb d (List.mem_cons_of_mem _ hd)) htail.2 (i + 1) (not_lt.1 hbeats) hnone
        have hsum : remainingScore contribution (c :: rest) docId =
            c.contributes contribution docId + remainingScore contribution rest docId :=
          List.sum_cons
        rw [hsum]
        linarith

/-- The inner loop counts the terms at the pivot document, in a sorted list behind it. -/
theorem pivotLenFrom_eq {pivotDoc : Nat} {rest : List TermState} (hsorted : SortedByDoc rest)
    (hge : ∀ t ∈ rest, pivotDoc ≤ t.currentDocId) (pivotLen : Nat) :
    pivotLenFrom pivotDoc pivotLen rest =
      pivotLen + (rest.filter (·.currentDocId ≤ pivotDoc)).length := by
  induction rest generalizing pivotLen with
  | nil => rfl
  | cons t rest ih =>
      obtain ⟨hfirst, htail⟩ := List.pairwise_cons.1 hsorted
      unfold pivotLenFrom
      by_cases heq : t.currentDocId = pivotDoc
      · rw [if_pos heq, ih htail fun u hu => hge u (List.mem_cons_of_mem _ hu),
          List.filter_cons_of_pos (by simp [heq]), List.length_cons]
        omega
      · have hgt : pivotDoc < t.currentDocId :=
          lt_of_le_of_ne (hge t List.mem_cons_self) (Ne.symm heq)
        have hnil : (t :: rest).filter (·.currentDocId ≤ pivotDoc) = [] := by
          rw [List.filter_eq_nil_iff]
          intro u hu
          simp only [decide_eq_true_eq, not_le]
          cases List.mem_cons.1 hu with
          | inl hut => exact hut ▸ hgt
          | inr hur => exact hgt.trans_le (hfirst u hur)
        rw [if_neg heq, hnil]
        rfl

/-- If the loop finds a pivot, no document before it beats the threshold, and the counted terms
are those at or before it. -/
theorem findWandPivotFrom_some {cursors : List Cursor} {threshold : ℚ}
    (hc : ∀ c ∈ cursors, c.Positioned) (hb : ∀ c ∈ cursors, c.Bounded contribution)
    (hsorted : SortedByDoc (states cursors)) {i n d : Nat} {accumulated : ℚ}
    (hacc : accumulated ≤ threshold)
    (hsome : findWandPivotFrom threshold i accumulated (states cursors) = some (n, d)) :
    (∀ docId < d, accumulated + remainingScore contribution cursors docId ≤ threshold) ∧
      n = i + ((states cursors).filter (·.currentDocId ≤ d)).length ∧
      d ∈ (states cursors).map TermState.currentDocId := by
  induction cursors generalizing i accumulated with
  | nil => simp [findWandPivotFrom] at hsome
  | cons c rest ih =>
      simp only [states_cons, findWandPivotFrom] at hsome
      rw [states_cons] at hsorted
      obtain ⟨hfirst, htail⟩ := List.pairwise_cons.1 hsorted
      split_ifs at hsome with hmax hbeats
      · obtain ⟨hn, hd⟩ := Prod.mk.injEq .. ▸ Option.some.inj hsome
        have hge : ∀ e ∈ c :: rest, d ≤ e.state.currentDocId := by
          intro e he
          cases List.mem_cons.1 he with
          | inl heq => exact heq ▸ hd.ge
          | inr hrest => exact hd ▸ hfirst e.state (List.mem_map_of_mem hrest)
        refine ⟨fun docId hlt => ?_, ?_, ?_⟩
        · rwa [remainingScore_of_lt hc fun e he => hlt.trans_le (hge e he), add_zero]
        · have hbehind : ∀ t ∈ states rest, d ≤ t.currentDocId := by
            intro t ht
            obtain ⟨e, he, rfl⟩ := List.mem_map.1 ht
            exact hge e (List.mem_cons_of_mem _ he)
          rw [hd, pivotLenFrom_eq htail hbehind] at hn
          rw [← hn, states_cons, List.filter_cons_of_pos (by simp [hd]), List.length_cons]
          omega
        · rw [states_cons, List.map_cons]
          exact hd ▸ List.mem_cons_self
      · obtain ⟨hbelow, hn, hmem⟩ := ih (fun e he => hc e (List.mem_cons_of_mem _ he))
          (fun e he => hb e (List.mem_cons_of_mem _ he)) htail (not_lt.1 hbeats) hsome
        have hcd : c.state.currentDocId ≤ d := by
          obtain ⟨t, ht, rfl⟩ := List.mem_map.1 hmem
          exact hfirst t ht
        refine ⟨fun docId hlt => ?_, ?_, ?_⟩
        · have hle := (hc c List.mem_cons_self).contributes_le (hb c List.mem_cons_self) hmax docId
          have hrest := hbelow docId hlt
          have hsum : remainingScore contribution (c :: rest) docId =
              c.contributes contribution docId + remainingScore contribution rest docId :=
            List.sum_cons
          rw [hsum]
          linarith
        · rw [hn, states_cons, List.filter_cons_of_pos (by simpa using hcd), List.length_cons]
          omega
        · rw [states_cons, List.map_cons]
          exact List.mem_cons_of_mem _ hmem

end Loop

/-- In a sorted array the terms at or before a document come first. -/
theorem take_eq_filter {terms : List TermState} (hsorted : SortedByDoc terms) (d : Nat) :
    terms.take (terms.filter (·.currentDocId ≤ d)).length = terms.filter (·.currentDocId ≤ d) := by
  induction terms with
  | nil => rfl
  | cons t rest ih =>
      obtain ⟨hfirst, htail⟩ := List.pairwise_cons.1 hsorted
      by_cases hle : t.currentDocId ≤ d
      · rw [List.filter_cons_of_pos (by simpa using hle), List.length_cons, List.take_succ_cons,
          ih htail]
      · have hnil : (t :: rest).filter (·.currentDocId ≤ d) = [] := by
          rw [List.filter_eq_nil_iff]
          intro u hu
          simp only [decide_eq_true_eq, not_le]
          cases List.mem_cons.1 hu with
          | inl hut => exact hut ▸ not_le.1 hle
          | inr hur => exact (not_le.1 hle).trans_le (hfirst u hur)
        rw [hnil]
        rfl

/-- What a pivot search and the reordering after an advance guarantee. -/
structure PivotSafe (contribution : TermState → BlockPosting → ℚ) (cursors : List Cursor)
    (threshold : ℚ) : Prop where
  none : findWandPivot (states cursors) threshold = none →
    ∀ docId, remainingScore contribution cursors docId ≤ threshold
  below : ∀ n d, findWandPivot (states cursors) threshold = some (n, d) →
    ∀ docId < d, remainingScore contribution cursors docId ≤ threshold
  pivotTerms : ∀ n d, findWandPivot (states cursors) threshold = some (n, d) →
    n ≤ (states cursors).length ∧
      (states cursors).take n = (states cursors).filter (·.currentDocId ≤ d)
  pivotDoc : ∀ n d, findWandPivot (states cursors) threshold = some (n, d) →
    d ∈ (states cursors).map TermState.currentDocId
  restored : ∀ ord t advanced, (states cursors)[ord]? = some t →
    t.currentDocId ≤ advanced.currentDocId →
    ∃ terms, restoreOrdering ((states cursors).set ord advanced) ord = some terms ∧
      terms.Perm ((states cursors).set ord advanced) ∧ SortedByDoc terms
  restoredInBlock : ∀ ord t, (states cursors)[ord]? = some t →
    t.currentPostings.Pairwise (·.docId < ·.docId) →
    (∀ p ∈ t.currentPostings, p.docId ≤ uint32Max) →
    ∃ terms, restoreOrdering ((states cursors).set ord t.advanceInBlock.2) ord = some terms ∧
      terms.Perm ((states cursors).set ord t.advanceInBlock.2) ∧ SortedByDoc terms

/-- **The pivot is safe** for any term states sorted by current document, any postings they
have still to visit, contributions bounded by the maximal scores, and threshold. -/
theorem findWandPivot_safe (contribution : TermState → BlockPosting → ℚ) (cursors : List Cursor)
    (threshold : ℚ) (hc : ∀ c ∈ cursors, c.Positioned)
    (hb : ∀ c ∈ cursors, c.Bounded contribution) (hsorted : SortedByDoc (states cursors))
    (h0 : 0 ≤ threshold) : PivotSafe contribution cursors threshold := by
  constructor
  case none =>
    intro hnone docId
    have hle := findWandPivotFrom_none hc hb hsorted 0 h0 hnone docId
    rwa [zero_add] at hle
  case below =>
    intro n d hsome docId hlt
    have hle := (findWandPivotFrom_some hc hb hsorted h0 hsome).1 docId hlt
    rwa [zero_add] at hle
  case pivotTerms =>
    intro n d hsome
    have hn := (findWandPivotFrom_some hc hb hsorted h0 hsome).2.1
    rw [Nat.zero_add] at hn
    rw [hn]
    exact ⟨List.length_filter_le _ _, take_eq_filter hsorted d⟩
  case pivotDoc =>
    intro n d hsome
    exact (findWandPivotFrom_some hc hb hsorted h0 hsome).2.2
  case restored => exact fun ord t advanced hord hle => restoreOrdering_spec hsorted hord hle
  case restoredInBlock =>
    intro ord t hord hblock hwidth
    exact restoreOrdering_spec hsorted hord (TermState.currentDocId_le_advanceInBlock hblock hwidth)

/-- A state on the first of the given postings, with one decoded block. -/
def stateOn (maxScore : ℚ) (postings : List BlockPosting) : TermState where
  idf := 1
  queryFreq := 1
  maxScore := maxScore
  found := true
  finished := false
  blockMaxScores := [maxScore]
  blockLastDocIds := [uint32Max]
  currentBlock := 0
  currentInBlock := 0
  blockCount := 1
  currentPostings := postings

/-- Three terms at documents 10, 20 and 30, each posting worth the maximal score. -/
theorem findWandPivot_safe_three :
    PivotSafe (fun t _ => t.maxScore)
      [⟨stateOn 3 [⟨10, 1, 42⟩], [⟨10, 1, 42⟩]⟩, ⟨stateOn 2 [⟨20, 1, 42⟩], [⟨20, 1, 42⟩]⟩,
        ⟨stateOn 1 [⟨30, 1, 42⟩], [⟨30, 1, 42⟩]⟩] 4 := by
  apply findWandPivot_safe
  · intro c hc
    simp only [List.mem_cons, List.not_mem_nil, or_false] at hc
    rcases hc with rfl | rfl | rfl <;> exact ⟨by simp, by decide, by decide⟩
  · intro c hc
    simp only [List.mem_cons, List.not_mem_nil, or_false] at hc
    rcases hc with rfl | rfl | rfl <;> exact fun _ _ => ⟨by simp [stateOn], le_rfl⟩
  · decide
  · decide

end PgTextsearch.Rust
