import Mathlib.Algebra.Order.Field.Rat
import PgTextsearch.Postgres
import PgTextsearch.Verified.PartialSort

/-!
# Sorting the top documents (`query/score.c`)

The exhaustive search collects its documents in an array and sorts as many of them as the
query asks for: score descending, then CTID ascending.

## Main results

* `docScoreGreater_iff` — the comparison is that of a linear order.
* `sortTopKDocs_correct` — the sort terminates in bounds, permutes the array, and its first
  `k` elements are those of a full sort.
-/

namespace PgTextsearch.Query

open PgTextsearch.Postgres PgTextsearch.Verified

/-- `DocumentScoreEntry`. -/
structure DocumentScoreEntry where
  ctid : ItemPointer
  score : ℚ
  docLength : ℚ
  deriving DecidableEq, Repr

/-- `doc_score_greater`. -/
def docScoreGreater (a b : DocumentScoreEntry) : Bool :=
  if a.score ≠ b.score then decide (a.score > b.score)
  else decide (ItemPointer.compare a.ctid b.ctid < 0)

/-- `insertion_sort_docs`, of the `n` elements from `arr` on. -/
def insertionSortDocs (arr n : Nat) (docs : List DocumentScoreEntry) :
    Option (List DocumentScoreEntry) :=
  PartialSort.insertionSort docScoreGreater arr n docs

/-- `partition_docs`. -/
def partitionDocs (left right : Nat) (docs : List DocumentScoreEntry) :
    Option (List DocumentScoreEntry × Nat) :=
  PartialSort.partition docScoreGreater left right docs

/-- `partial_quicksort_docs`, with fuel for its loop and recursion. -/
def partialQuicksortDocs (fuel left right k : Nat) (docs : List DocumentScoreEntry) :
    Option (List DocumentScoreEntry) :=
  PartialSort.partialQuicksort docScoreGreater 16 fuel left right k docs

/-- `sort_top_k_docs`. -/
def sortTopKDocs (fuel : Nat) (docs : List DocumentScoreEntry) (k : Int) :
    Option (List DocumentScoreEntry) :=
  if docs.length ≤ 1 ∨ k ≤ 0 then some docs
  else
    let k := if k ≥ docs.length then docs.length else k.toNat
    partialQuicksortDocs fuel 0 (docs.length - 1) k docs

/-! ## The order of the documents -/

/-- Score descending, then CTID ascending. -/
def rankOf (doc : DocumentScoreEntry) : ℚᵒᵈ ×ₗ ItemPointer :=
  toLex (OrderDual.toDual doc.score, doc.ctid)

theorem docScoreGreater_iff (a b : DocumentScoreEntry) :
    docScoreGreater a b = true ↔ rankOf a < rankOf b := by
  unfold docScoreGreater rankOf
  rw [Prod.Lex.toLex_lt_toLex, OrderDual.toDual_lt_toDual, OrderDual.toDual_inj]
  by_cases heq : a.score = b.score
  · simp [heq, ItemPointer.compare_neg_iff]
  · simp [heq]

/-- **The sort of the top documents**: with fuel for the length of the array it returns, without
an access out of range; the result is a permutation, and its first `k` elements are those of
a full sort by score descending and CTID ascending. -/
theorem sortTopKDocs_correct (docs : List DocumentScoreEntry) (k : Int) :
    ∃ result, (∀ fuel, docs.length ≤ fuel → sortTopKDocs fuel docs k = some result) ∧
      result.Perm docs ∧
      ∃ full : List DocumentScoreEntry, full.Perm docs ∧
        full.Pairwise (fun a b => docScoreGreater b a = false) ∧
        result.take (min k.toNat docs.length) = full.take (min k.toNat docs.length) := by
  have hsorted : ∃ result, (∀ fuel, docs.length ≤ fuel → sortTopKDocs fuel docs k = some result) ∧
      result.Perm docs ∧ PartialSort.TopSorted rankOf (min k.toNat docs.length) result := by
    unfold sortTopKDocs
    by_cases hstop : docs.length ≤ 1 ∨ k ≤ 0
    · refine ⟨docs, fun fuel _ => if_pos hstop, List.Perm.refl docs, ?_⟩
      cases hstop with
      | inl hshort => exact PartialSort.TopSorted.of_length_le_one hshort _
      | inr hk =>
          rw [Int.toNat_of_nonpos hk, Nat.zero_min]
          trivial
    · push Not at hstop
      have hcount : (if k ≥ docs.length then docs.length else k.toNat) =
          min k.toNat docs.length := by
        split <;> omega
      have hspec := PartialSort.partialQuicksort_spec docScoreGreater_iff [] [] 16
        (min k.toNat docs.length) (by omega) docs.length docs le_rfl
        (show docs.length - 1 + 1 = [].length + docs.length by simp; omega)
      obtain ⟨result, hrun, hperm, htop⟩ := hspec
      simp only [List.nil_append, List.append_nil, List.length_nil, Nat.sub_zero] at hrun htop
      refine ⟨result, fun fuel hfuel => ?_, hperm, htop⟩
      rw [if_neg (by omega), hcount]
      exact PartialSort.partialQuicksort_mono _ hfuel hrun
  obtain ⟨result, hrun, hperm, htop⟩ := hsorted
  obtain ⟨full, hpermFull, hfull, htake⟩ := htop.take_eq
  refine ⟨result, hrun, hperm, full, hpermFull.trans hperm, hfull.imp ?_, htake⟩
  intro a b hab
  exact (PartialSort.key_le_iff docScoreGreater_iff a b).2 hab

end PgTextsearch.Query
