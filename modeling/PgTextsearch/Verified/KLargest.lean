import Mathlib.Algebra.Order.Group.Multiset
import Mathlib.Algebra.Order.Sub.Basic
import Mathlib.Data.Multiset.OrderedMonoid
import Mathlib.Data.Multiset.Sort

/-!
# The `k` largest elements of a multiset

A bounded top-`k` collector is specified by one multiset function: the `k`
largest elements of everything it was offered.  This module defines it over an
arbitrary linear order and proves the three facts a collector's correctness
proof needs: a characterisation (`kLargest_eq_of`), that offering an element
below the current cut changes nothing (`kLargest_add_of_le`), and that the
collector may forget what it already dropped (`kLargest_kLargest_add`).

Nothing here mentions scores, documents or heaps.
-/

namespace PgTextsearch.Verified

open Multiset

variable {α : Type*} [LinearOrder α]

/-- The `k` largest elements of `s`, with multiplicity; all of `s` when it has
at most `k` elements. -/
def kLargest (k : ℕ) (s : Multiset α) : Multiset α :=
  ((s.sort (fun a b => b ≤ a)).take k : List α)

theorem kLargest_le (k : ℕ) (s : Multiset α) : kLargest k s ≤ s := by
  conv_rhs => rw [← s.sort_eq (fun a b => b ≤ a)]
  exact coe_le.2 (List.take_sublist k _).subperm

theorem mem_of_mem_kLargest {k : ℕ} {s : Multiset α} {x : α}
    (h : x ∈ kLargest k s) : x ∈ s :=
  mem_of_le (kLargest_le k s) h

@[simp] theorem card_kLargest (k : ℕ) (s : Multiset α) :
    card (kLargest k s) = min k (card s) := by
  simp [kLargest]

theorem kLargest_of_card_le {k : ℕ} {s : Multiset α} (h : card s ≤ k) :
    kLargest k s = s :=
  eq_of_le_of_card_le (kLargest_le k s) (by simp [h])

/-- **Characterisation.**  A sub-multiset of the right size whose elements
dominate everything left out is the multiset of `k` largest elements. -/
theorem kLargest_eq_of {k : ℕ} {s t : Multiset α} (hle : t ≤ s)
    (hcard : card t = min k (card s)) (hdom : ∀ x ∈ t, ∀ y ∈ s - t, y ≤ x) :
    kLargest k s = t := by
  -- sorting `s` splits into the sorted kept part followed by the sorted rest
  have hsplit : s.sort (fun a b => b ≤ a) =
      t.sort (fun a b => b ≤ a) ++ (s - t).sort (fun a b => b ≤ a) := by
    refine List.Perm.eq_of_pairwise' (r := fun a b => b ≤ a)
      (pairwise_sort s _) ?_ ?_
    · refine List.pairwise_append.2 ⟨pairwise_sort t _, pairwise_sort _ _, ?_⟩
      intro x hx y hy
      exact hdom x ((mem_sort _).1 hx) y ((mem_sort _).1 hy)
    · rw [← coe_eq_coe, ← coe_add, sort_eq, sort_eq, sort_eq,
        add_tsub_cancel_of_le hle]
  have hlen : (t.sort (fun a b => b ≤ a)).length = card t := length_sort _
  by_cases hk : k ≤ card s
  · have htk : card t = k := by omega
    rw [kLargest, hsplit, List.take_append_of_le_length (by omega),
      List.take_of_length_le (by omega), sort_eq]
  · have hts : t = s := eq_of_le_of_card_le hle (by omega)
    rw [hts]
    exact kLargest_of_card_le (by omega)

/-- Everything the collector keeps dominates everything it drops. -/
theorem le_of_mem_kLargest_of_mem_sub {k : ℕ} {s : Multiset α} {x y : α}
    (hx : x ∈ kLargest k s) (hy : y ∈ s - kLargest k s) : y ≤ x := by
  have hsub : s - kLargest k s = ((s.sort (fun a b => b ≤ a)).drop k : List α) := by
    have hadd : kLargest k s + ((s.sort (fun a b => b ≤ a)).drop k : List α) = s := by
      rw [kLargest, coe_add, List.take_append_drop, sort_eq]
    nth_rewrite 1 [← hadd]
    exact add_tsub_cancel_left _ _
  rw [hsub] at hy
  have hpw := pairwise_sort s (fun a b : α => b ≤ a)
  rw [← List.take_append_drop k (s.sort _), List.pairwise_append] at hpw
  exact hpw.2.2 x hx y hy

/-- Offering elements that the current top `k` all dominate changes nothing
once `k` elements are held. -/
theorem kLargest_add_of_le {k : ℕ} {s r : Multiset α} (hk : k ≤ card s)
    (h : ∀ y ∈ r, ∀ x ∈ kLargest k s, y ≤ x) :
    kLargest k (s + r) = kLargest k s := by
  refine kLargest_eq_of ((kLargest_le k s).trans (Multiset.le_add_right s r)) ?_ ?_
  · simp only [card_kLargest, card_add]
    omega
  · intro x hx y hy
    rw [← tsub_add_eq_add_tsub (kLargest_le k s)] at hy
    rcases Multiset.mem_add.1 hy with hys | hyr
    · exact le_of_mem_kLargest_of_mem_sub hx hys
    · exact h y hyr x hx

/-- A collector may forget what it dropped: keeping the `k` largest of a part
before adding the rest loses nothing. -/
theorem kLargest_kLargest_add (k : ℕ) (s r : Multiset α) :
    kLargest k (kLargest k s + r) = kLargest k (s + r) := by
  symm
  have hle : kLargest k s + r ≤ s + r := add_le_add_left (kLargest_le k s) r
  refine kLargest_eq_of ((kLargest_le k _).trans hle) ?_ ?_
  · simp only [card_kLargest, card_add]
    omega
  · intro x hx y hy
    have hsplit : s + r - kLargest k (kLargest k s + r) =
        (kLargest k s + r - kLargest k (kLargest k s + r)) + (s - kLargest k s) := by
      have hs : s + r = (kLargest k s + r) + (s - kLargest k s) := by
        rw [add_right_comm, add_tsub_cancel_of_le (kLargest_le k s)]
      conv_lhs => rw [hs]
      exact (tsub_add_eq_add_tsub (kLargest_le k _)).symm
    rw [hsplit] at hy
    rcases Multiset.mem_add.1 hy with hkept | hdrop
    · exact le_of_mem_kLargest_of_mem_sub hx hkept
    · -- `y` was dropped from `s`, so `k` kept elements are at least `y`
      by_contra hlt
      push Not at hlt
      have hcards : k < card s := by
        by_contra hge
        rw [kLargest_of_card_le (by omega), tsub_self s] at hdrop
        exact absurd hdrop (notMem_zero y)
      have hall : ∀ z ∈ kLargest k s, y ≤ z := fun z hz =>
        le_of_mem_kLargest_of_mem_sub hz hdrop
      have hmany : k ≤ card (filter (y ≤ ·) (kLargest k s + r)) := by
        rw [filter_add, filter_eq_self.2 hall, card_add, card_kLargest]
        omega
      have hfew : card (filter (y ≤ ·) (kLargest k (kLargest k s + r))) < k := by
        refine lt_of_lt_of_le (card_lt_card ?_)
          (show card (kLargest k (kLargest k s + r)) ≤ k by simp)
        refine lt_of_le_of_ne (filter_le _ _) fun heq => ?_
        have := filter_eq_self.1 heq x hx
        exact absurd this (not_le.2 hlt)
      have hrest : 0 < card (filter (y ≤ ·)
          (kLargest k s + r - kLargest k (kLargest k s + r))) := by
        rw [← add_tsub_cancel_of_le (kLargest_le k (kLargest k s + r)),
          filter_add, card_add] at hmany
        omega
      obtain ⟨z, hz⟩ := card_pos_iff_exists_mem.1 hrest
      have hzmem := (mem_filter.1 hz).1
      have hyz := (mem_filter.1 hz).2
      exact absurd (le_of_mem_kLargest_of_mem_sub hx hzmem)
        (not_le.2 (lt_of_lt_of_le hlt hyz))

/-- With room left, the collector keeps the newcomer. -/
theorem kLargest_cons_of_card_lt {k : ℕ} {s : Multiset α} (x : α) (h : card s < k) :
    kLargest k (x ::ₘ s) = x ::ₘ s :=
  kLargest_of_card_le (by rw [card_cons]; omega)

/-- A full collector whose smallest element `m` is beaten by `x` swaps the two. -/
theorem kLargest_cons_swap {k : ℕ} {s : Multiset α} {m x : α}
    (hk : card (m ::ₘ s) = k) (hmin : ∀ y ∈ s, m ≤ y) (hx : m ≤ x) :
    kLargest k (x ::ₘ m ::ₘ s) = x ::ₘ s := by
  refine kLargest_eq_of ?_ ?_ ?_
  · rw [cons_swap]
    exact le_cons_self _ _
  · simp only [card_cons] at hk ⊢
    omega
  · intro y hy z hz
    have hrest : x ::ₘ m ::ₘ s - (x ::ₘ s) = {m} := by
      rw [cons_swap, ← singleton_add m, add_tsub_cancel_right]
    rw [hrest, mem_singleton] at hz
    subst hz
    rcases mem_cons.1 hy with rfl | hys
    · exact hx
    · exact hmin y hys

/-- A full collector whose smallest element is not beaten stays as it is. -/
theorem kLargest_cons_keep {k : ℕ} {s : Multiset α} {m x : α}
    (hk : card (m ::ₘ s) = k) (hmin : ∀ y ∈ s, m ≤ y) (hx : x ≤ m) :
    kLargest k (x ::ₘ m ::ₘ s) = m ::ₘ s := by
  refine kLargest_eq_of (le_cons_self _ _) ?_ ?_
  · rw [card_cons x, hk]
    omega
  · intro y hy z hz
    have hrest : x ::ₘ m ::ₘ s - (m ::ₘ s) = {x} := by
      rw [← singleton_add x, add_tsub_cancel_right]
    rw [hrest, mem_singleton] at hz
    subst hz
    rcases mem_cons.1 hy with rfl | hys
    · exact hx
    · exact hx.trans (hmin y hys)

end PgTextsearch.Verified
