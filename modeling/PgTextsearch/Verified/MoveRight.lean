import Mathlib.Data.List.Perm.Basic
import Mathlib.Data.List.TakeWhile
import Mathlib.Order.Basic
import Mathlib.Order.Lattice

/-!
# Restoring a sorted list after one key grew

One step of insertion sort from the left: the element at position `i`, whose key may have
grown, moves right past the elements with a smaller key.

## Main results

* `moveRight_perm` — the result is a permutation.
* `moveRight_sorted` — replacing an element of a sorted list by one with a key that is not
  smaller and moving it right gives a sorted list.
-/

namespace PgTextsearch.Verified

variable {α κ : Type*} [LinearOrder κ] (key : α → κ)

/-- Move the element at position `i` behind the following elements with a smaller key. -/
def moveRight (l : List α) (i : Nat) : List α :=
  match l.drop i with
  | [] => l
  | t :: rest =>
      l.take i ++ (rest.takeWhile (key · < key t) ++ t :: rest.dropWhile (key · < key t))

variable {key}

theorem moveRight_eq {l : List α} {i : Nat} {t : α} (h : l[i]? = some t) :
    moveRight key l i = l.take i ++ ((l.drop (i + 1)).takeWhile (key · < key t) ++
      t :: (l.drop (i + 1)).dropWhile (key · < key t)) := by
  obtain ⟨hi, rfl⟩ := List.getElem?_eq_some_iff.1 h
  simp only [moveRight, List.drop_eq_getElem_cons hi]

theorem moveRight_perm (l : List α) (i : Nat) : (moveRight key l i).Perm l := by
  cases h : l[i]? with
  | none =>
      have hnil : l.drop i = [] := List.drop_eq_nil_of_le (List.getElem?_eq_none_iff.1 h)
      simp [moveRight, hnil]
  | some t =>
      obtain ⟨hi, rfl⟩ := List.getElem?_eq_some_iff.1 h
      rw [moveRight_eq h]
      have hsplit : l = l.take i ++ l[i] :: l.drop (i + 1) := by
        conv_lhs => rw [← List.take_append_drop i l, List.drop_eq_getElem_cons hi]
      conv_rhs => rw [hsplit]
      apply List.Perm.append_left
      refine List.perm_middle.trans (List.Perm.cons _ ?_)
      rw [List.takeWhile_append_dropWhile]

/-- What is left behind the elements below `k` is not below `k`, in a sorted list. -/
theorem le_of_mem_dropWhile_lt {l : List α} {k : κ} (hsorted : l.Pairwise (key · ≤ key ·)) {b : α}
    (hb : b ∈ l.dropWhile (key · < k)) : k ≤ key b := by
  have hsuffix := hsorted.sublist (List.dropWhile_suffix (fun x => decide (key x < k))).sublist
  cases hl : l.dropWhile (key · < k) with
  | nil => simp [hl] at hb
  | cons c rest =>
      have hhead : k ≤ key c := by
        have hnot := List.head?_dropWhile_not (fun x : α => decide (key x < k)) l
        rw [hl] at hnot
        simpa using hnot
      rw [hl] at hb hsuffix
      cases List.mem_cons.1 hb with
      | inl heq => exact heq ▸ hhead
      | inr hrest => exact hhead.trans ((List.pairwise_cons.1 hsuffix).1 b hrest)

/-- An element whose key only grew finds its place to the right. -/
theorem moveRight_sorted {l : List α} {i : Nat} {t t' : α} (hsorted : l.Pairwise (key · ≤ key ·))
    (hi : l[i]? = some t) (hle : key t ≤ key t') :
    (moveRight key (l.set i t') i).Pairwise (key · ≤ key ·) := by
  obtain ⟨hlt, rfl⟩ := List.getElem?_eq_some_iff.1 hi
  have hset : (l.set i t')[i]? = some t' := by simp [hlt]
  have hsplit : l = l.take i ++ l[i] :: l.drop (i + 1) := by
    conv_lhs => rw [← List.take_append_drop i l, List.drop_eq_getElem_cons hlt]
  rw [moveRight_eq hset, List.take_set_of_le (Nat.le_refl i),
    List.drop_set_of_lt (Nat.lt_succ_self i)]
  rw [hsplit, List.pairwise_append, List.pairwise_cons] at hsorted
  obtain ⟨hpre, ⟨hmid, hpost⟩, hcross⟩ := hsorted
  have hsmallLt : ∀ a ∈ (l.drop (i + 1)).takeWhile (key · < key t'), key a < key t' := by
    intro a ha
    simpa using List.mem_takeWhile_imp ha
  have hlargeGe : ∀ b ∈ (l.drop (i + 1)).dropWhile (key · < key t'), key t' ≤ key b := fun b hb =>
    le_of_mem_dropWhile_lt hpost hb
  generalize hsmall : (l.drop (i + 1)).takeWhile (key · < key t') = small at hsmallLt ⊢
  generalize hlarge : (l.drop (i + 1)).dropWhile (key · < key t') = large at hlargeGe ⊢
  have hparts : l.drop (i + 1) = small ++ large := by
    rw [← hsmall, ← hlarge, List.takeWhile_append_dropWhile]
  rw [hparts] at hpost hcross hmid
  obtain ⟨hps, hpl, hsl⟩ := List.pairwise_append.1 hpost
  refine List.pairwise_append.2 ⟨hpre, ?_, ?_⟩
  · refine List.pairwise_append.2 ⟨hps, List.pairwise_cons.2 ⟨hlargeGe, hpl⟩, ?_⟩
    intro a ha b hb
    cases List.mem_cons.1 hb with
    | inl heq => exact heq ▸ (hsmallLt a ha).le
    | inr hbl => exact hsl a ha b hbl
  · intro a ha b hb
    cases List.mem_append.1 hb with
    | inl hbs => exact hcross a ha b (List.mem_cons_of_mem _ (List.mem_append_left _ hbs))
    | inr hbc =>
        cases List.mem_cons.1 hbc with
        | inl heq => exact heq ▸ (hcross a ha _ List.mem_cons_self).trans hle
        | inr hbl => exact hcross a ha b (List.mem_cons_of_mem _ (List.mem_append_right _ hbl))

end PgTextsearch.Verified
