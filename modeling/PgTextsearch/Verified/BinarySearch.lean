import Mathlib.Order.Basic

/-!
# Binary search

The half-open search loop `while (left < right)` that keeps the first index not
`below` the target between `left` and `right`, and the closed one
`while (left <= right)` that stops at an equal element.

## Main results

* `lowerBound_spec` — the first index that is not below the target.
* `threeWaySearch_found`, `threeWaySearch_none` — the index of an equal element.
* `searchList_bind` — the equal element of a sorted list.
-/

namespace PgTextsearch.Verified

/-- The search loop.  The interval at least halves, so `fuel = right - left`
never runs out. -/
def lowerBound (below : Nat → Bool) : Nat → Nat → Nat → Nat
  | 0, left, _ => left
  | fuel + 1, left, right =>
      if left < right then
        let mid := left + (right - left) / 2
        if below mid then lowerBound below fuel (mid + 1) right
        else lowerBound below fuel left mid
      else left

/-- An empty interval is answered by its left end. -/
theorem lowerBound_of_le (below : Nat → Bool) (fuel : Nat) {left right : Nat}
    (h : right ≤ left) : lowerBound below fuel left right = left := by
  cases fuel with
  | zero => rfl
  | succ fuel => simp [lowerBound, Nat.not_lt.2 h]

/-- **Specification.**  Over a predicate that is closed downwards on the
interval, everything left of the result is below the target, and the result is
not, unless it is the right end. -/
theorem lowerBound_spec (below : Nat → Bool) (fuel left right : Nat)
    (hmono : ∀ i j, left ≤ i → i ≤ j → j < right → below j = true → below i = true)
    (hle : left ≤ right) (hfuel : right - left ≤ fuel) :
    left ≤ lowerBound below fuel left right ∧
      lowerBound below fuel left right ≤ right ∧
      (∀ i, left ≤ i → i < lowerBound below fuel left right → below i = true) ∧
      (lowerBound below fuel left right < right →
        below (lowerBound below fuel left right) = false) := by
  induction fuel generalizing left right with
  | zero =>
      have heq : left = right := by omega
      subst heq
      simp only [lowerBound]
      exact ⟨Nat.le_refl _, Nat.le_refl _, by omega, by omega⟩
  | succ fuel ih =>
      by_cases hlt : left < right
      · obtain ⟨mid, hmid⟩ : ∃ mid, mid = left + (right - left) / 2 := ⟨_, rfl⟩
        have hml : left ≤ mid := by omega
        have hmr : mid < right := by omega
        have hunfold : lowerBound below (fuel + 1) left right =
            if below mid then lowerBound below fuel (mid + 1) right
            else lowerBound below fuel left mid := by
          simp [lowerBound, hlt, hmid]
        rw [hunfold]
        cases hb : below mid with
        | true =>
            simp only [if_true]
            have hmono' : ∀ i j, mid + 1 ≤ i → i ≤ j → j < right → below j = true →
                below i = true := fun i j hi hij hj => hmono i j (by omega) hij hj
            obtain ⟨h1, h2, h3, h4⟩ := ih (mid + 1) right hmono' (by omega) (by omega)
            refine ⟨by omega, h2, ?_, h4⟩
            intro i hi hir
            by_cases him : i ≤ mid
            · exact hmono i mid hi him hmr hb
            · exact h3 i (by omega) hir
        | false =>
            simp only [Bool.false_eq_true, if_false]
            have hmono' : ∀ i j, left ≤ i → i ≤ j → j < mid → below j = true →
                below i = true := fun i j hi hij hj => hmono i j hi hij (by omega)
            obtain ⟨h1, h2, h3, h4⟩ := ih left mid hmono' hml (by omega)
            refine ⟨h1, by omega, h3, ?_⟩
            intro _
            by_cases hend : lowerBound below fuel left mid < mid
            · exact h4 hend
            · rw [show lowerBound below fuel left mid = mid by omega]
              exact hb
      · have heq : left = right := by omega
        rw [lowerBound_of_le below _ (by omega)]
        exact ⟨Nat.le_refl _, hle, by omega, by omega⟩

/-! ## Search for an equal element -/

/-- The search loop with a three-way comparison of the target with the element at an
index; fetching the element may fail. -/
def threeWaySearch {ε : Type} (cmp : Nat → Except ε Int) :
    Nat → Int → Int → Except ε (Option Nat)
  | 0, _, _ => .ok none
  | fuel + 1, left, right =>
      if left ≤ right then do
        let mid := left + (right - left) / 2
        let c ← cmp mid.toNat
        if c = 0 then return some mid.toNat
        else if c < 0 then threeWaySearch cmp fuel left (mid - 1)
        else threeWaySearch cmp fuel (mid + 1) right
      else return none

section ThreeWay

variable {ε : Type} {fetch : Nat → Except ε Int} {cmp : Nat → Int} {count : Nat}

/-- The loop, when the elements outside of the interval are known to differ from the
target. -/
private theorem threeWaySearch_spec (hfetch : ∀ i < count, fetch i = .ok (cmp i))
    (hmono : ∀ i j, i < j → j < count → cmp i ≤ 0 → cmp j < 0) (fuel : Nat) {left right : Int}
    (hleft : 0 ≤ left) (hright : right < count) (hfuel : right - left < fuel)
    (hbelow : ∀ i : Nat, (i : Int) < left → 0 < cmp i)
    (habove : ∀ i : Nat, right < i → i < count → cmp i < 0) :
    (∀ i < count, cmp i = 0 → threeWaySearch fetch fuel left right = .ok (some i)) ∧
      ((∀ i < count, cmp i ≠ 0) → threeWaySearch fetch fuel left right = .ok none) := by
  have hinside : ∀ i : Nat, i < count → cmp i = 0 → left ≤ i ∧ (i : Int) ≤ right := by
    intro i hi hzero
    constructor
    · by_contra hlt
      have := hbelow i (by omega)
      omega
    · by_contra hlt
      have := habove i (by omega) hi
      omega
  induction fuel generalizing left right with
  | zero =>
      refine ⟨fun i hi hzero => ?_, fun _ => rfl⟩
      have := hinside i hi hzero
      omega
  | succ fuel ih =>
      unfold threeWaySearch
      by_cases hle : left ≤ right
      · rw [if_pos hle]
        obtain ⟨mid, hmid⟩ : ∃ mid, mid = left + (right - left) / 2 := ⟨_, rfl⟩
        obtain ⟨m, hm⟩ : ∃ m : Nat, mid = m := Int.eq_ofNat_of_zero_le (by omega)
        simp only [← hmid]
        rw [hm, Int.toNat_natCast, hfetch m (by omega)]
        show (∀ i < count, cmp i = 0 →
            (if cmp m = 0 then Except.ok (some m)
              else if cmp m < 0 then threeWaySearch fetch fuel left (m - 1)
              else threeWaySearch fetch fuel (m + 1) right) = Except.ok (some i)) ∧ (_ →
            (if cmp m = 0 then Except.ok (some m)
              else if cmp m < 0 then threeWaySearch fetch fuel left (m - 1)
              else threeWaySearch fetch fuel (m + 1) right) = Except.ok none)
        by_cases hzero : cmp m = 0
        · rw [if_pos hzero]
          refine ⟨fun i hi hi0 => ?_, fun hnone => absurd hzero (hnone m (by omega))⟩
          -- two equal elements would have to be ordered
          have heq : i = m := by
            by_contra hne
            rcases Nat.lt_or_gt_of_ne hne with hlt | hlt
            · have := hmono i m hlt (by omega) (by omega)
              omega
            · have := hmono m i hlt hi (by omega)
              omega
          rw [heq]
        · rw [if_neg hzero]
          by_cases hneg : cmp m < 0
          · rw [if_pos hneg]
            refine ih hleft (by omega) (by omega) hbelow ?_ ?_
            · intro i hi hcount
              rcases Nat.lt_or_ge m i with hlt | hge
              · exact hmono m i hlt hcount (by omega)
              · rw [show i = m by omega]
                exact hneg
            · intro i hi hi0
              have hin := hinside i hi hi0
              refine ⟨hin.1, ?_⟩
              by_contra hlt
              rcases Nat.lt_or_ge m i with hlt' | hge
              · have := hmono m i hlt' hi (by omega)
                omega
              · rw [show i = m by omega] at hi0
                omega
          · rw [if_neg hneg]
            have hbelow' : ∀ i : Nat, (i : Int) < m + 1 → 0 < cmp i := by
              intro i hi
              by_contra hle'
              rcases Nat.lt_or_ge i m with hlt | hge
              · have := hmono i m hlt (by omega) (by omega)
                omega
              · rw [show i = m by omega] at hle'
                omega
            refine ih (by omega) hright (by omega) hbelow' habove ?_
            intro i hi hi0
            refine ⟨?_, (hinside i hi hi0).2⟩
            by_contra hlt
            have := hbelow' i (by omega)
            omega
      · rw [if_neg hle]
        refine ⟨fun i hi hzero => ?_, fun _ => rfl⟩
        have := hinside i hi hzero
        omega

/-- **The element is found**, wherever it is. -/
theorem threeWaySearch_found (hfetch : ∀ i < count, fetch i = .ok (cmp i))
    (hmono : ∀ i j, i < j → j < count → cmp i ≤ 0 → cmp j < 0) {i : Nat} (hi : i < count)
    (hzero : cmp i = 0) : threeWaySearch fetch count 0 (count - 1) = .ok (some i) :=
  (threeWaySearch_spec hfetch hmono count (by omega) (by omega) (by omega)
    (fun i hi => by omega) (fun i h1 h2 => by omega)).1 i hi hzero

/-- **Nothing is found** when no element equals the target. -/
theorem threeWaySearch_none (hfetch : ∀ i < count, fetch i = .ok (cmp i))
    (hmono : ∀ i j, i < j → j < count → cmp i ≤ 0 → cmp j < 0) (hne : ∀ i < count, cmp i ≠ 0) :
    threeWaySearch fetch count 0 (count - 1) = .ok none :=
  (threeWaySearch_spec hfetch hmono count (by omega) (by omega) (by omega)
    (fun i hi => by omega) (fun i h1 h2 => by omega)).2 hne

end ThreeWay

/-! ## Search in a list -/

section InList

variable {α : Type}

/-- The closed loop over a list; the comparison is of the target with an element. -/
def searchList (cmp : α → Int) (l : List α) : Option Nat :=
  let fetch := fun i => match l[i]? with
    | some a => Except.ok (cmp a)
    | none => Except.error ()
  match threeWaySearch fetch l.length 0 (l.length - 1) with
  | .ok found => found
  | .error _ => none

/-- **Search in a sorted list** finds the only element that equals the target. -/
theorem searchList_bind (cmp : α → Int) (l : List α)
    (hsorted : l.Pairwise fun a b => cmp a ≤ 0 → cmp b < 0) :
    (searchList cmp l).bind (fun i => l[i]?) = l.find? fun a => cmp a = 0 := by
  have hfetch : ∀ i < l.length, (match l[i]? with
      | some a => Except.ok (cmp a)
      | none => Except.error ()) = Except.ok ((l[i]?.map cmp).getD 0) := by
    intro i hi
    rw [List.getElem?_eq_getElem hi]
    rfl
  have hcmp : ∀ i (hi : i < l.length), (l[i]?.map cmp).getD 0 = cmp l[i] := by
    intro i hi
    rw [List.getElem?_eq_getElem hi]
    rfl
  have hmono : ∀ i j, i < j → j < l.length → (l[i]?.map cmp).getD 0 ≤ 0 →
      (l[j]?.map cmp).getD 0 < 0 := by
    intro i j hij hj
    have hi := Nat.lt_trans hij hj
    rw [hcmp i hi, hcmp j hj]
    exact List.pairwise_iff_getElem.1 hsorted i j hi hj hij
  unfold searchList
  cases hfind : l.find? fun a => cmp a = 0 with
  | none =>
      have hne : ∀ i < l.length, (l[i]?.map cmp).getD 0 ≠ 0 := by
        intro i hi
        rw [hcmp i hi]
        simpa using List.find?_eq_none.1 hfind l[i] (List.getElem_mem hi)
      simp only [threeWaySearch_none hfetch hmono hne, Option.bind_none]
  | some a =>
      obtain ⟨i, hi, rfl⟩ := List.getElem_of_mem (List.mem_of_find?_eq_some hfind)
      have hzero : (l[i]?.map cmp).getD 0 = 0 := by
        rw [hcmp i hi]
        simpa using List.find?_some hfind
      simp only [threeWaySearch_found hfetch hmono hi hzero, Option.bind_some,
        List.getElem?_eq_getElem hi]

end InList

end PgTextsearch.Verified
