import Mathlib.Algebra.Order.BigOperators.Group.List
import Mathlib.Algebra.Order.Ring.Nat

/-!
# Counting with carries

A row of levels with a count each.  Something new is counted at level 0; a level that has
`base` of them is emptied and passes one on to the next level, except the level `top`, which
keeps what it gets.  After `n` increments the counts are the digits of `n` in the base, and the
top level has what is left.

## Main results

* `Carrying.carry` — passing one on moves the carry to the next level.
* `Carrying.done_of_lt`, `Carrying.done_of_top` — where nothing is passed on, the increment is
  done.
* `sum_levelDigit_le` — a bound on the sum of the counts.
-/

namespace PgTextsearch.Verified

variable {base top n level : Nat} {counts : Nat → Nat}

/-- The count of a level after `n` increments. -/
def levelDigit (base top n level : Nat) : Nat :=
  if level < top then n / base ^ level % base else if level = top then n / base ^ top else 0

/-- The counts in the middle of increment `n + 1`: the levels below `level` are done, and
`level` has one more than before. -/
structure Carrying (base top n level : Nat) (counts : Nat → Nat) : Prop where
  level_le : level ≤ top
  dvd : base ^ level ∣ n + 1
  below : ∀ l < level, counts l = levelDigit base top (n + 1) l
  here : counts level = levelDigit base top n level + 1
  above : ∀ l, level < l → counts l = levelDigit base top n l

/-- A level whose weight does not divide the new number keeps its count. -/
theorem levelDigit_succ_of_not_dvd (h : ¬ base ^ level ∣ n + 1) :
    levelDigit base top (n + 1) level = levelDigit base top n level := by
  have hdiv : (n + 1) / base ^ level = n / base ^ level := Nat.succ_div_of_not_dvd h
  unfold levelDigit
  split
  · rw [hdiv]
  split
  · rename_i htop
    rw [← htop, hdiv]
  · rfl

/-- **Increment** of the first level. -/
theorem carrying_zero (h : ∀ l, l ≠ 0 → counts l = levelDigit base top n l)
    (hzero : counts 0 = levelDigit base top n 0 + 1) : Carrying base top n 0 counts where
  level_le := Nat.zero_le _
  dvd := by rw [Nat.pow_zero]; exact Nat.one_dvd _
  below := fun _ hl => absurd hl (Nat.not_lt_zero _)
  here := hzero
  above := fun l hl => h l hl.ne'

namespace Carrying

/-- **A level that is not full** ends the increment. -/
theorem done_of_lt (h : Carrying base top n level counts) (hlevel : level < top)
    (hcount : counts level < base) (l : Nat) : counts l = levelDigit base top (n + 1) l := by
  have hdigit : levelDigit base top n level = n / base ^ level % base := if_pos hlevel
  have hsucc : (n + 1) / base ^ level = n / base ^ level + 1 := Nat.succ_div_of_dvd h.dvd
  have hroom : n / base ^ level % base + 1 < base := by
    rw [← hdigit, ← h.here]
    exact hcount
  have hmod : (n / base ^ level + 1) % base = n / base ^ level % base + 1 := by
    rw [Nat.add_mod, Nat.mod_eq_of_lt (show 1 < base by omega), Nat.mod_eq_of_lt hroom]
  have hnot : ¬ base ^ (level + 1) ∣ n + 1 := by
    intro hdvd
    obtain ⟨c, hc⟩ := hdvd
    have hpos : 0 < base ^ level := Nat.pow_pos (by omega)
    have hquot : n / base ^ level + 1 = base * c := by
      rw [← hsucc, hc, Nat.pow_succ, Nat.mul_assoc, Nat.mul_div_cancel_left _ hpos]
    rw [hquot, Nat.mul_mod_right] at hmod
    omega
  rcases lt_trichotomy l level with hlt | rfl | hgt
  · exact h.below l hlt
  · rw [h.here, hdigit, levelDigit, if_pos hlevel, hsucc, hmod]
  · rw [h.above l hgt, levelDigit_succ_of_not_dvd fun hdvd =>
      hnot ((Nat.pow_dvd_pow base hgt).trans hdvd)]

/-- **The top level** ends the increment. -/
theorem done_of_top (h : Carrying base top n top counts) (l : Nat) :
    counts l = levelDigit base top (n + 1) l := by
  rcases lt_trichotomy l top with hlt | rfl | hgt
  · exact h.below l hlt
  · have hsucc : (n + 1) / base ^ l = n / base ^ l + 1 := Nat.succ_div_of_dvd h.dvd
    simp only [h.here, levelDigit, lt_irrefl, if_false, if_true, hsucc]
  · simp only [h.above l hgt, levelDigit, if_neg hgt.not_gt, if_neg hgt.ne']

/-- **A full level** is emptied and passes one on. -/
theorem carry (h : Carrying base top n level counts) (hbase : 0 < base) (hlevel : level < top)
    (hfull : base ≤ counts level) {counts' : Nat → Nat} (hhere : counts' level = 0)
    (hnext : counts' (level + 1) = counts (level + 1) + 1)
    (hother : ∀ l, l ≠ level → l ≠ level + 1 → counts' l = counts l) :
    Carrying base top n (level + 1) counts' := by
  have hdigit : levelDigit base top n level = n / base ^ level % base := if_pos hlevel
  have hsucc : (n + 1) / base ^ level = n / base ^ level + 1 := Nat.succ_div_of_dvd h.dvd
  have hquot : base ∣ n / base ^ level + 1 := by
    have hlast : n / base ^ level % base + 1 = base := by
      have hlt := Nat.mod_lt (n / base ^ level) hbase
      have hcount := h.here
      omega
    refine ⟨n / base ^ level / base + 1, ?_⟩
    calc n / base ^ level + 1
        = base * (n / base ^ level / base) + n / base ^ level % base + 1 := by
          rw [Nat.div_add_mod]
      _ = base * (n / base ^ level / base + 1) := by
          rw [Nat.add_assoc, hlast, Nat.mul_succ]
  have hdvd : base ^ (level + 1) ∣ n + 1 := by
    rw [← Nat.div_mul_cancel h.dvd, hsucc, Nat.pow_succ, Nat.mul_comm]
    exact Nat.mul_dvd_mul hquot (dvd_refl _)
  refine ⟨hlevel, hdvd, ?_, ?_, ?_⟩
  · intro l hl
    rcases Nat.lt_succ_iff_lt_or_eq.1 hl with hlt | rfl
    · rw [hother l hlt.ne (by omega), h.below l hlt]
    · rw [hhere, levelDigit, if_pos hlevel, hsucc, Nat.mod_eq_zero_of_dvd hquot]
  · rw [hnext, h.above _ (Nat.lt_succ_self level)]
  · intro l hl
    rw [hother l (by omega) (by omega), h.above l (by omega)]

end Carrying

/-- **The sum of the counts** is at most that of full levels, and what the top level has. -/
theorem sum_levelDigit_le (hbase : 0 < base) (top n : Nat) :
    ((List.range (top + 1)).map (levelDigit base top n)).sum ≤
      top * (base - 1) + n / base ^ top := by
  rw [List.range_succ, List.map_append, List.sum_append, List.map_singleton, List.sum_singleton,
    levelDigit, if_neg (lt_irrefl top), if_pos rfl]
  have hlevels : ((List.range top).map (levelDigit base top n)).sum ≤
      (List.range top).length • (base - 1) := by
    rw [← List.length_map (levelDigit base top n)]
    refine List.sum_le_card_nsmul _ _ fun x hx => ?_
    obtain ⟨level, hlevel, rfl⟩ := List.mem_map.1 hx
    rw [levelDigit, if_pos (List.mem_range.1 hlevel)]
    exact Nat.le_sub_one_of_lt (Nat.mod_lt _ hbase)
  rw [List.length_range, Nat.nsmul_eq_mul] at hlevels
  exact Nat.add_le_add_right hlevels _

end PgTextsearch.Verified
