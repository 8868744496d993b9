import Mathlib.Data.List.Sort

/-!
# Union of lists by sorting and dropping repetitions

Sorting puts equal elements next to each other; dropping the repetitions within each run then
leaves every element once.

## Main results

* `sortedUnion_pairwise` — the result increases strictly.
* `mem_sortedUnion` — it has the elements of the list.
-/

namespace PgTextsearch.Verified

variable {α : Type*}

/-- Drop an element that equals the one before it. -/
def dedupRuns [DecidableEq α] : List α → List α
  | [] => []
  | [a] => [a]
  | a :: b :: rest => if a = b then dedupRuns (b :: rest) else a :: dedupRuns (b :: rest)

theorem mem_dedupRuns [DecidableEq α] (l : List α) (x : α) : x ∈ dedupRuns l ↔ x ∈ l := by
  induction l using dedupRuns.induct with
  | case1 => rfl
  | case2 a => rfl
  | case3 b rest ih =>
      rw [dedupRuns, if_pos rfl, ih]
      simp
  | case4 a b rest hne ih =>
      rw [dedupRuns, if_neg hne, List.mem_cons, ih]
      simp only [List.mem_cons]

variable [LinearOrder α]

theorem dedupRuns_pairwise {l : List α} (hsorted : l.Pairwise (· ≤ ·)) :
    (dedupRuns l).Pairwise (· < ·) := by
  induction l using dedupRuns.induct with
  | case1 => exact .nil
  | case2 a => exact List.pairwise_singleton _ _
  | case3 b rest ih =>
      rw [dedupRuns, if_pos rfl]
      exact ih (List.pairwise_cons.1 hsorted).2
  | case4 a b rest hne ih =>
      obtain ⟨hfirst, htail⟩ := List.pairwise_cons.1 hsorted
      rw [dedupRuns, if_neg hne]
      refine List.pairwise_cons.2 ⟨fun x hx => ?_, ih htail⟩
      have hab : a < b := lt_of_le_of_ne (hfirst b List.mem_cons_self) hne
      cases List.mem_cons.1 ((mem_dedupRuns _ x).1 hx) with
      | inl heq => exact heq ▸ hab
      | inr hrest => exact hab.trans_le ((List.pairwise_cons.1 htail).1 x hrest)

/-- Sorting by a key. -/
theorem mergeSort_pairwise_key {β : Type*} (key : β → α) (l : List β) :
    (l.mergeSort fun a b => decide (key a ≤ key b)).Pairwise fun a b => key a ≤ key b := by
  have htrans : ∀ a b c : β, decide (key a ≤ key b) = true → decide (key b ≤ key c) = true →
      decide (key a ≤ key c) = true := by
    intro a b c hab hbc
    rw [decide_eq_true_eq] at *
    exact hab.trans hbc
  have htotal : ∀ a b : β, (decide (key a ≤ key b) || decide (key b ≤ key a)) = true := by
    intro a b
    simpa using le_total (key a) (key b)
  exact (List.pairwise_mergeSort htrans htotal l).imp fun h => of_decide_eq_true h

/-- Sort, then drop repetitions. -/
def sortedUnion (l : List α) : List α := dedupRuns (l.mergeSort (· ≤ ·))

theorem sortedUnion_pairwise (l : List α) : (sortedUnion l).Pairwise (· < ·) :=
  dedupRuns_pairwise (mergeSort_pairwise_key id l)

@[simp] theorem mem_sortedUnion (l : List α) (x : α) : x ∈ sortedUnion l ↔ x ∈ l := by
  rw [sortedUnion, mem_dedupRuns, (List.mergeSort_perm _ _).mem_iff]

end PgTextsearch.Verified
