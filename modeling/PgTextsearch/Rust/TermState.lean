import Mathlib.Data.List.GetD
import Mathlib.Data.Rat.Defs
import PgTextsearch.Postgres
import PgTextsearch.Verified.BinarySearch
import PgTextsearch.Verified.MoveRight
import PgTextsearch.Verified.SortedUnion

/-!
# Term states of the Rust WAND (`rust/src/bmw/term_state.rs`)

One state per query term: a cursor in the decoded postings of its current block, and the
cached last document ids of all its blocks.

## Main results

* `currentDocId_le_advanceInBlock` — advancing inside a block never lowers the document.
* `findBlockForDoc_spec` — the block search finds the first block that reaches the target.
* `sortTermsByDocId_spec`, `restoreOrdering_spec` — the array is kept sorted.
-/

namespace PgTextsearch.Rust

open PgTextsearch.Postgres PgTextsearch.Verified

/-- `BlockPosting`. -/
structure BlockPosting where
  docId : Nat
  frequency : Nat
  fieldnorm : Nat
  deriving DecidableEq, Repr

/-- `TermState`. -/
structure TermState where
  idf : ℚ
  queryFreq : Int
  maxScore : ℚ
  found : Bool
  finished : Bool
  blockMaxScores : List ℚ
  blockLastDocIds : List Nat
  currentBlock : Nat
  currentInBlock : Nat
  blockCount : Nat
  currentPostings : List BlockPosting
  deriving DecidableEq, Repr

namespace TermState

/-- `current_doc_id`: `u32::MAX` when there is no current posting. -/
def currentDocId (t : TermState) : Nat :=
  if t.finished || t.currentPostings.isEmpty then uint32Max
  else
    match t.currentPostings[t.currentInBlock]? with
    | some p => p.docId
    | none => uint32Max

/-- `current_posting`. -/
def currentPosting (t : TermState) : Option BlockPosting :=
  if t.finished then none else t.currentPostings[t.currentInBlock]?

/-- `advance_in_block`; the position is a 16-bit counter, blocks are far shorter. -/
def advanceInBlock (t : TermState) : Bool × TermState :=
  let position := t.currentInBlock + 1
  (decide (position < t.currentPostings.length), { t with currentInBlock := position })

/-- `find_block_for_doc`. -/
def findBlockForDoc (t : TermState) (targetDocId : Nat) : Option Nat :=
  if t.blockLastDocIds.isEmpty then none
  else
    let left := lowerBound (fun mid => decide (t.blockLastDocIds.getD mid 0 < targetDocId))
      t.blockLastDocIds.length t.currentBlock t.blockLastDocIds.length
    if left < t.blockLastDocIds.length then some left else none

end TermState

/-- `sort_terms_by_doc_id`, a stable sort by the current document. -/
def sortTermsByDocId (terms : List TermState) : List TermState :=
  terms.mergeSort fun a b => decide (a.currentDocId ≤ b.currentDocId)

/-- The loop of `restore_ordering` that looks for the new place from `target` on, over the
terms from there on. -/
def restoreTarget (docId : Nat) : Nat → List TermState → Nat
  | target, [] => target
  | target, t :: rest =>
      if t.currentDocId < docId then restoreTarget docId (target + 1) rest else target

/-- `restore_ordering`; `none` is the panic of an index past the end. -/
def restoreOrdering (terms : List TermState) (ord : Nat) : Option (List TermState) :=
  match terms[ord]? with
  | none => none
  | some term =>
      let target := restoreTarget term.currentDocId (ord + 1) (terms.drop (ord + 1))
      if target > ord + 1 then
        some (terms.take ord ++ ((terms.drop ord).take (target - ord)).rotateLeft 1 ++
          terms.drop target)
      else some terms

/-! ## Advancing -/

/-- The current document is that of the current posting. -/
theorem TermState.currentDocId_eq (t : TermState) :
    t.currentDocId = (t.currentPosting.map BlockPosting.docId).getD uint32Max := by
  unfold currentDocId currentPosting
  cases t.finished with
  | true => rfl
  | false =>
      cases hnil : t.currentPostings with
      | nil => rfl
      | cons p ps =>
          simp only [Bool.false_or, List.isEmpty_cons, Bool.false_eq_true, if_false]
          cases (p :: ps)[t.currentInBlock]? <;> rfl

/-- **Advancing inside a block** never lowers the current document, when the postings of the
block increase and have 32-bit document ids. -/
theorem TermState.currentDocId_le_advanceInBlock {t : TermState}
    (hsorted : t.currentPostings.Pairwise (·.docId < ·.docId))
    (hwidth : ∀ p ∈ t.currentPostings, p.docId ≤ uint32Max) :
    t.currentDocId ≤ t.advanceInBlock.2.currentDocId := by
  rw [currentDocId_eq, currentDocId_eq]
  unfold currentPosting advanceInBlock
  cases t.finished with
  | true => exact le_rfl
  | false =>
      simp only [Bool.false_eq_true, if_false]
      cases hnext : t.currentPostings[t.currentInBlock + 1]? with
      | none =>
          cases hcur : t.currentPostings[t.currentInBlock]? with
          | none => exact le_rfl
          | some p => exact hwidth p (List.mem_of_getElem? hcur)
      | some q =>
          obtain ⟨hlen, hq⟩ := List.getElem?_eq_some_iff.1 hnext
          have hcur : t.currentInBlock < t.currentPostings.length := by omega
          rw [List.getElem?_eq_getElem hcur, ← hq]
          exact (List.pairwise_iff_getElem.1 hsorted _ _ hcur hlen (Nat.lt_succ_self _)).le

/-! ## Block search -/

/-- **Block search**: the first block from the current one on whose last document reaches the
target, if there is one. -/
theorem TermState.findBlockForDoc_spec {t : TermState} (targetDocId : Nat)
    (hsorted : t.blockLastDocIds.Pairwise (· < ·))
    (hcur : t.currentBlock ≤ t.blockLastDocIds.length) :
    match t.findBlockForDoc targetDocId with
    | some b => t.currentBlock ≤ b ∧ b < t.blockLastDocIds.length ∧
        targetDocId ≤ t.blockLastDocIds.getD b 0 ∧
        ∀ i, t.currentBlock ≤ i → i < b → t.blockLastDocIds.getD i 0 < targetDocId
    | none => ∀ i, t.currentBlock ≤ i → i < t.blockLastDocIds.length →
        t.blockLastDocIds.getD i 0 < targetDocId := by
  have hmono : ∀ i j, t.currentBlock ≤ i → i ≤ j → j < t.blockLastDocIds.length →
      decide (t.blockLastDocIds.getD j 0 < targetDocId) = true →
      decide (t.blockLastDocIds.getD i 0 < targetDocId) = true := by
    intro i j _ hij hj hbelow
    rw [decide_eq_true_eq] at hbelow ⊢
    rw [List.getD_eq_getElem _ _ (by omega)]
    rw [List.getD_eq_getElem _ _ hj] at hbelow
    cases Nat.lt_or_eq_of_le hij with
    | inl hlt => exact lt_trans (List.pairwise_iff_getElem.1 hsorted i j (by omega) hj hlt) hbelow
    | inr heq =>
        subst heq
        exact hbelow
  obtain ⟨hge, hle, hbefore, hat⟩ := lowerBound_spec
    (fun mid => decide (t.blockLastDocIds.getD mid 0 < targetDocId)) t.blockLastDocIds.length
    t.currentBlock t.blockLastDocIds.length hmono hcur (Nat.sub_le _ _)
  unfold findBlockForDoc
  by_cases hnil : t.blockLastDocIds.isEmpty = true
  · rw [if_pos hnil]
    intro i _ hi
    rw [List.isEmpty_iff.1 hnil] at hi
    exact absurd hi (Nat.not_lt_zero _)
  · rw [if_neg hnil]
    by_cases hfound : lowerBound (fun mid => decide (t.blockLastDocIds.getD mid 0 < targetDocId))
        t.blockLastDocIds.length t.currentBlock t.blockLastDocIds.length < t.blockLastDocIds.length
    · simp only [hfound, if_true]
      exact ⟨hge, trivial, by simpa using hat hfound,
        fun i hi hib => by simpa using hbefore i hi hib⟩
    · simp only [hfound, if_false]
      intro i hi hlen
      simpa using hbefore i hi (by omega)

/-! ## The sorted array -/

/-- Sorted by current document. -/
abbrev SortedByDoc (terms : List TermState) : Prop :=
  terms.Pairwise fun a b => a.currentDocId ≤ b.currentDocId

theorem sortTermsByDocId_spec (terms : List TermState) :
    (sortTermsByDocId terms).Perm terms ∧ SortedByDoc (sortTermsByDocId terms) := by
  exact ⟨List.mergeSort_perm _ _, mergeSort_pairwise_key TermState.currentDocId terms⟩

theorem restoreTarget_eq (docId target : Nat) (rest : List TermState) :
    restoreTarget docId target rest =
      target + (rest.takeWhile (·.currentDocId < docId)).length := by
  induction rest generalizing target with
  | nil => rfl
  | cons t rest ih =>
      unfold restoreTarget
      by_cases hlt : t.currentDocId < docId
      · rw [if_pos hlt, ih, List.takeWhile_cons_of_pos (by simpa using hlt), List.length_cons]
        omega
      · rw [if_neg hlt, List.takeWhile_cons_of_neg (by simpa using hlt)]
        rfl

/-- The rotation moves the term right past the smaller ones. -/
theorem restoreOrdering_eq {terms : List TermState} {ord : Nat} (hord : ord < terms.length) :
    restoreOrdering terms ord = some (moveRight TermState.currentDocId terms ord) := by
  unfold restoreOrdering
  rw [List.getElem?_eq_getElem hord, moveRight_eq (List.getElem?_eq_getElem hord)]
  simp only [restoreTarget_eq]
  generalize hdoc : terms[ord].currentDocId = docId
  have hdrop : terms.drop ord = terms[ord] :: terms.drop (ord + 1) :=
    List.drop_eq_getElem_cons hord
  have hparts := List.takeWhile_append_dropWhile
    (p := fun t : TermState => decide (t.currentDocId < docId)) (l := terms.drop (ord + 1))
  generalize (terms.drop (ord + 1)).takeWhile (fun t => decide (t.currentDocId < docId)) = small
    at hparts ⊢
  generalize (terms.drop (ord + 1)).dropWhile (fun t => decide (t.currentDocId < docId)) = large
    at hparts ⊢
  have hrest : terms.drop (ord + 1 + small.length) = large := by
    rw [← List.drop_drop, ← hparts, List.drop_left]
  by_cases hmove : ord + 1 + small.length > ord + 1
  · have hslice : (terms.drop ord).take (ord + 1 + small.length - ord) = terms[ord] :: small := by
      rw [hdrop, show ord + 1 + small.length - ord = small.length + 1 by omega,
        List.take_succ_cons, ← hparts, List.take_left]
    rw [if_pos hmove, hslice, hrest]
    have hrotate : (terms[ord] :: small).rotateLeft 1 = small ++ [terms[ord]] := by
      cases small with
      | nil => exact absurd hmove (lt_irrefl _)
      | cons s ss => simp [List.rotateLeft]
    rw [hrotate]
    simp
  · have hnil : small = [] := List.eq_nil_of_length_eq_zero (by omega)
    rw [if_neg hmove, hnil, List.nil_append]
    rw [hnil, List.nil_append] at hparts
    rw [hparts, ← hdrop, List.take_append_drop]

/-- **Restoring the order** after the term at `ord` advanced. -/
theorem restoreOrdering_spec {terms : List TermState} {ord : Nat} {t t' : TermState}
    (hsorted : SortedByDoc terms) (hord : terms[ord]? = some t)
    (hle : t.currentDocId ≤ t'.currentDocId) :
    ∃ restored, restoreOrdering (terms.set ord t') ord = some restored ∧
      restored.Perm (terms.set ord t') ∧ SortedByDoc restored := by
  obtain ⟨hlt, -⟩ := List.getElem?_eq_some_iff.1 hord
  exact ⟨_, restoreOrdering_eq (by rwa [List.length_set]), moveRight_perm _ _,
    moveRight_sorted hsorted hord hle⟩

end PgTextsearch.Rust
