import Mathlib.Data.List.Induction
import Mathlib.Data.List.Sort
import Mathlib.Order.Basic

/-!
# Partial quicksort of an array

A quicksort in place that stops where only the first `k` positions matter: median of
three, a partition loop, insertion sort below a cut-over, and no descent into a part that
lies behind position `k`.  Every read and write is checked against the bounds of the array
(`none` is an access out of range), and the loop has fuel.

The comparison `before` is that of a `key` into a linear order.

## Main results

* `insertionSort_spec` — insertion sort of a segment of the array.
* `partition_spec` — the partition step.
* `partialQuicksort_spec` — the first `k` positions of the segment, with fuel for its length.
* `TopSorted.take_eq` — what being sorted up to `k` says about a full sort.
-/

namespace PgTextsearch.Verified.PartialSort

variable {α : Type} (before : α → α → Bool)

/-! ## The algorithm -/

/-- Checked write. -/
def write (arr : List α) (i : Nat) (x : α) : Option (List α) :=
  if i < arr.length then some (arr.set i x) else none

/-- Checked exchange. -/
def swap (arr : List α) (i j : Nat) : Option (List α) := do
  let x ← arr[i]?
  let y ← arr[j]?
  let arr ← write arr i y
  write arr j x

/-- The inner loop of insertion sort: elements that `key` comes before move up by one.  The
hole is at `base + hole`. -/
def shiftUp (base : Nat) (key : α) : Nat → List α → Option (List α)
  | 0, arr => write arr base key
  | hole + 1, arr => do
      let x ← arr[base + hole]?
      if before key x then do
        let arr ← write arr (base + (hole + 1)) x
        shiftUp base key hole arr
      else write arr (base + (hole + 1)) key

/-- The outer loop of insertion sort, with the number of elements still to insert. -/
def insertionLoop (base : Nat) : Nat → Nat → List α → Option (List α)
  | 0, _, arr => some arr
  | todo + 1, i, arr => do
      let key ← arr[base + i]?
      let arr ← shiftUp before base key i arr
      insertionLoop base todo (i + 1) arr

/-- Insertion sort of the `n` elements from `base` on. -/
def insertionSort (base n : Nat) (arr : List α) : Option (List α) :=
  insertionLoop before base (n - 1) 1 arr

/-- Exchange two elements if the first comes before the second. -/
def swapIfBefore (arr : List α) (i j : Nat) : Option (List α) := do
  let x ← arr[i]?
  let y ← arr[j]?
  if before x y then swap arr i j else some arr

/-- The loop of the partition step, with the number of elements still to look at. -/
def partitionLoop (pivot : α) : Nat → Nat → Nat → List α → Option (List α × Nat)
  | 0, _, store, arr => some (arr, store)
  | todo + 1, i, store, arr => do
      let x ← arr[i]?
      if before x pivot then do
        let arr ← swap arr store i
        partitionLoop pivot todo (i + 1) (store + 1) arr
      else partitionLoop pivot todo (i + 1) store arr

/-- Partition of the segment from `left` to `right`: median of three, then the loop; the
result is the array and where the pivot is. -/
def partition (left right : Nat) (arr : List α) : Option (List α × Nat) := do
  let mid := left + (right - left) / 2
  let arr ← swapIfBefore before arr mid left
  let arr ← swapIfBefore before arr right left
  let arr ← swapIfBefore before arr mid right
  let pivot ← arr[right]?
  let (arr, store) ← partitionLoop before pivot (right - left) left left arr
  let arr ← swap arr store right
  return (arr, store)

/-- The partial quicksort of the segment from `left` to `right`. -/
def partialQuicksort (cutover : Nat) : Nat → Nat → Nat → Nat → List α → Option (List α)
  | 0, left, right, _, arr => if left < right then none else some arr
  | fuel + 1, left, right, k, arr =>
      if left < right then
        if right - left < cutover then insertionSort before left (right - left + 1) arr
        else do
          let (arr, pivotIdx) ← partition before left right arr
          if pivotIdx ≥ k then partialQuicksort cutover fuel left (pivotIdx - 1) k arr
          else do
            let arr ←
              if pivotIdx > left then partialQuicksort cutover fuel left (pivotIdx - 1) k arr
              else some arr
            partialQuicksort cutover fuel (pivotIdx + 1) right k arr
      else some arr

/-- More fuel changes nothing once a run returns. -/
theorem partialQuicksort_succ (cutover fuel : Nat) {left right k : Nat} {arr result : List α}
    (hrun : partialQuicksort before cutover fuel left right k arr = some result) :
    partialQuicksort before cutover (fuel + 1) left right k arr = some result := by
  induction fuel generalizing left right arr result with
  | zero =>
      by_cases hgo : left < right
      · rw [partialQuicksort, if_pos hgo] at hrun
        exact absurd hrun (by simp)
      · rw [partialQuicksort, if_neg hgo] at hrun
        rw [partialQuicksort, if_neg hgo, hrun]
  | succ fuel ih =>
      rw [partialQuicksort] at hrun ⊢
      by_cases hgo : left < right
      · rw [if_pos hgo] at hrun ⊢
        by_cases hsmall : right - left < cutover
        · rw [if_pos hsmall] at hrun ⊢
          exact hrun
        · rw [if_neg hsmall] at hrun ⊢
          rw [Option.bind_eq_bind, Option.bind_eq_some_iff] at hrun ⊢
          obtain ⟨⟨arr', pivotIdx⟩, hpart, hrest⟩ := hrun
          refine ⟨(arr', pivotIdx), hpart, ?_⟩
          simp only at hrest ⊢
          by_cases hcut : pivotIdx ≥ k
          · rw [if_pos hcut] at hrest ⊢
            exact ih hrest
          · rw [if_neg hcut] at hrest ⊢
            by_cases hleft : pivotIdx > left
            · rw [if_pos hleft, Option.bind_eq_bind, Option.bind_eq_some_iff] at hrest ⊢
              obtain ⟨sorted, hsorted, hright⟩ := hrest
              exact ⟨sorted, ih hsorted, ih hright⟩
            · rw [if_neg hleft] at hrest ⊢
              exact ih hrest
      · rw [if_neg hgo] at hrun ⊢
        exact hrun

theorem partialQuicksort_mono {cutover fuel fuel' : Nat} (hle : fuel ≤ fuel')
    {left right k : Nat} {arr result : List α}
    (hrun : partialQuicksort before cutover fuel left right k arr = some result) :
    partialQuicksort before cutover fuel' left right k arr = some result := by
  induction hle with
  | refl => exact hrun
  | step _ ih => exact partialQuicksort_succ before cutover _ ih

/-! ## Reads and writes in a segment -/

section Access

variable (pre post : List α)

theorem getElem?_segment (mid : List α) (x : α) (rest : List α) {i : Nat}
    (hi : i = pre.length + mid.length) : (pre ++ (mid ++ x :: rest))[i]? = some x := by
  subst hi
  simp

theorem write_segment (mid : List α) (x y : α) (rest : List α) {i : Nat}
    (hi : i = pre.length + mid.length) :
    write (pre ++ (mid ++ x :: rest)) i y = some (pre ++ (mid ++ y :: rest)) := by
  subst hi
  simp [write]

/-- An exchange of two different elements. -/
theorem swap_segment (a : List α) (x : α) (b : List α) (y : α) (c : List α) {i j : Nat}
    (hi : i = pre.length + a.length) (hj : j = pre.length + a.length + 1 + b.length) :
    swap (pre ++ (a ++ x :: (b ++ y :: c))) i j = some (pre ++ (a ++ y :: (b ++ x :: c))) := by
  have hy : (pre ++ (a ++ x :: (b ++ y :: c)))[j]? = some y := by
    have h := getElem?_segment pre (a ++ x :: b) y c (i := j) (by simp; omega)
    simpa using h
  have hw : write (pre ++ (a ++ y :: (b ++ y :: c))) j x =
      some (pre ++ (a ++ y :: (b ++ x :: c))) := by
    have h := write_segment pre (a ++ y :: b) y x c (i := j) (by simp; omega)
    simpa using h
  simp only [swap, getElem?_segment pre a x _ hi, hy, write_segment pre a x y _ hi, hw,
    Option.bind_eq_bind, Option.bind_some]

/-- An exchange of an element with itself. -/
theorem swap_self (a : List α) (x : α) (b : List α) {i : Nat} (hi : i = pre.length + a.length) :
    swap (pre ++ (a ++ x :: b)) i i = some (pre ++ (a ++ x :: b)) := by
  simp only [swap, getElem?_segment pre a x b hi, write_segment pre a x x b hi,
    Option.bind_eq_bind, Option.bind_some]

theorem getElem?_offset (mid : List α) {i : Nat} (hi : i < mid.length) :
    (pre ++ (mid ++ post))[pre.length + i]? = some mid[i] := by
  rw [List.getElem?_append_right (Nat.le_add_right _ _), Nat.add_sub_cancel_left,
    List.getElem?_append_left hi, List.getElem?_eq_getElem hi]

theorem write_offset (mid : List α) {i : Nat} (hi : i < mid.length) (x : α) :
    write (pre ++ (mid ++ post)) (pre.length + i) x = some (pre ++ (mid.set i x ++ post)) := by
  have hlen : pre.length + i < (pre ++ (mid ++ post)).length := by
    simp only [List.length_append]
    omega
  rw [write, if_pos hlen, List.set_append_right _ _ (Nat.le_add_right _ _),
    Nat.add_sub_cancel_left, List.set_append_left _ _ hi]

/-- An exchange within a segment permutes it. -/
theorem swap_offset (mid : List α) {i j : Nat} (hi : i < mid.length) (hj : j < mid.length) :
    ∃ mid', swap (pre ++ (mid ++ post)) (pre.length + i) (pre.length + j) =
      some (pre ++ (mid' ++ post)) ∧ mid'.Perm mid := by
  have hj' : j < (mid.set i mid[j]).length := by rwa [List.length_set]
  refine ⟨(mid.set i mid[j]).set j mid[i], ?_, List.set_set_perm hi hj⟩
  simp only [swap, getElem?_offset pre post mid hi, getElem?_offset pre post mid hj,
    write_offset pre post mid hi, write_offset pre post _ hj', Option.bind_eq_bind,
    Option.bind_some]

theorem swapIfBefore_offset (mid : List α) {i j : Nat} (hi : i < mid.length)
    (hj : j < mid.length) :
    ∃ mid', swapIfBefore before (pre ++ (mid ++ post)) (pre.length + i) (pre.length + j) =
      some (pre ++ (mid' ++ post)) ∧ mid'.Perm mid := by
  simp only [swapIfBefore, getElem?_offset pre post mid hi, getElem?_offset pre post mid hj,
    Option.bind_eq_bind, Option.bind_some]
  by_cases hbefore : before mid[i] mid[j] = true
  · rw [if_pos hbefore]
    exact swap_offset pre post mid hi hj
  · rw [if_neg hbefore]
    exact ⟨mid, rfl, List.Perm.refl mid⟩

end Access

/-! ## The partition step -/

section Partition

variable (pre post : List α)

/-- **The partition loop**: `lo` comes before the pivot, `hi` does not, `rest` is still to be
looked at. -/
theorem partitionLoop_spec (pivot : α) (rest lo hi : List α) {i store : Nat}
    (hstore : store = pre.length + lo.length) (hi' : i = store + hi.length)
    (hlo : ∀ x ∈ lo, before x pivot = true) (hhi : ∀ x ∈ hi, before x pivot = false) :
    ∃ lo' hi', partitionLoop before pivot rest.length i store
        (pre ++ (lo ++ (hi ++ (rest ++ post)))) =
        some (pre ++ (lo' ++ (hi' ++ post)), pre.length + lo'.length) ∧
      (lo' ++ hi').Perm (lo ++ hi ++ rest) ∧
      (∀ x ∈ lo', before x pivot = true) ∧ ∀ x ∈ hi', before x pivot = false := by
  induction rest generalizing lo hi i store with
  | nil =>
      refine ⟨lo, hi, ?_, by simp, hlo, hhi⟩
      rw [hstore]
      rfl
  | cons x rest ih =>
      have hread : (pre ++ (lo ++ (hi ++ (x :: rest ++ post))))[i]? = some x := by
        have h := getElem?_segment pre (lo ++ hi) x (rest ++ post) (i := i)
          (by simp only [List.length_append]; omega)
        simpa using h
      simp only [List.length_cons, partitionLoop, hread, Option.bind_eq_bind, Option.bind_some]
      cases hx : before x pivot with
      | false =>
          have hhi' : ∀ y ∈ hi ++ [x], before y pivot = false := by
            intro y hy
            cases List.mem_append.1 hy with
            | inl hold => exact hhi y hold
            | inr hnew => exact List.mem_singleton.1 hnew ▸ hx
          have h := @ih lo (hi ++ [x]) (i + 1) store hstore
            (by simp only [List.length_append, List.length_singleton]; omega) hlo hhi'
          simp only [List.append_assoc, List.singleton_append] at h
          simp only [Bool.false_eq_true, if_false, List.append_assoc, List.cons_append]
          exact h
      | true =>
          have hlo' : ∀ y ∈ lo ++ [x], before y pivot = true := by
            intro y hy
            cases List.mem_append.1 hy with
            | inl hold => exact hlo y hold
            | inr hnew => exact List.mem_singleton.1 hnew ▸ hx
          simp only [if_true]
          cases hi with
          | nil =>
              have hself : i = store := by simpa using hi'
              have hswap := swap_self pre lo x (rest ++ post) hstore
              have h := @ih (lo ++ [x]) [] (i + 1) (store + 1)
                (by simp only [List.length_append, List.length_singleton]; omega)
                (by simp only [List.length_nil]; omega) hlo' hhi
              simp only [List.append_assoc, List.singleton_append, List.nil_append] at h
              simp only [List.nil_append, List.append_nil, List.cons_append, hself, hswap,
                Option.bind_some]
              rw [hself] at h
              exact h
          | cons y hi =>
              have hswap := swap_segment pre lo y hi x (rest ++ post) hstore
                (show i = pre.length + lo.length + 1 + hi.length by
                  rw [List.length_cons] at hi'
                  omega)
              have hhi' : ∀ z ∈ hi ++ [y], before z pivot = false := by
                intro z hz
                cases List.mem_append.1 hz with
                | inl hold => exact hhi z (List.mem_cons_of_mem _ hold)
                | inr hnew => exact List.mem_singleton.1 hnew ▸ hhi y List.mem_cons_self
              have h := @ih (lo ++ [x]) (hi ++ [y]) (i + 1) (store + 1)
                (by simp only [List.length_append, List.length_singleton]; omega)
                (by
                  rw [List.length_cons] at hi'
                  simp only [List.length_append, List.length_singleton]
                  omega) hlo' hhi'
              obtain ⟨lo', hi'', hrun, hperm, hlo'', hhi''⟩ := h
              simp only [List.append_assoc, List.singleton_append] at hrun
              refine ⟨lo', hi'', ?_, hperm.trans ?_, hlo'', hhi''⟩
              · simp only [List.cons_append, hswap, Option.bind_some]
                exact hrun
              · classical
                rw [List.perm_iff_count]
                intro z
                simp only [List.count_append, List.count_cons, List.count_nil]
                omega

/-- **The partition step** of a segment with at least two elements. -/
theorem partition_spec (mid : List α) (hlen : 2 ≤ mid.length) :
    ∃ lo pivot hi, partition before pre.length (pre.length + (mid.length - 1))
        (pre ++ (mid ++ post)) =
        some (pre ++ (lo ++ pivot :: hi ++ post), pre.length + lo.length) ∧
      (lo ++ pivot :: hi).Perm mid ∧
      (∀ x ∈ lo, before x pivot = true) ∧ ∀ x ∈ hi, before x pivot = false := by
  -- the median of three permutes the segment
  have hn : pre.length + (mid.length - 1) - pre.length = mid.length - 1 :=
    Nat.add_sub_cancel_left _ _
  have h1 := swapIfBefore_offset before pre post mid
    (show (mid.length - 1) / 2 < mid.length by omega) (show 0 < mid.length by omega)
  obtain ⟨mid1, hrun1, hperm1⟩ := h1
  have hlen1 := hperm1.length_eq
  have h2 := swapIfBefore_offset before pre post mid1
    (show mid.length - 1 < mid1.length by omega) (show 0 < mid1.length by omega)
  obtain ⟨mid2, hrun2, hperm2⟩ := h2
  have hlen2 := hperm2.length_eq
  have h3 := swapIfBefore_offset before pre post mid2
    (show (mid.length - 1) / 2 < mid2.length by omega)
    (show mid.length - 1 < mid2.length by omega)
  obtain ⟨mid3, hrun3, hperm3⟩ := h3
  have hlen3 := hperm3.length_eq
  have hperm := hperm3.trans (hperm2.trans hperm1)
  rw [Nat.add_zero] at hrun1 hrun2
  -- the loop over all but the last element
  obtain ⟨rest, pivot, rfl⟩ := (List.eq_nil_or_concat' mid3).resolve_left
    (List.ne_nil_of_length_pos (by omega))
  have hrest : mid.length - 1 = rest.length := by
    simp only [List.length_append, List.length_singleton] at hlen3
    omega
  have hread : (pre ++ (rest ++ pivot :: post))[pre.length + rest.length]? = some pivot :=
    getElem?_segment pre rest pivot post rfl
  have hloopSpec := @partitionLoop_spec α before pre (pivot :: post) pivot rest [] [] pre.length
    pre.length (by simp) (by simp) (fun x hx => nomatch hx) (fun x hx => nomatch hx)
  obtain ⟨lo, hi, hloop, hpermLoop, hlo, hhi⟩ := hloopSpec
  simp only [List.nil_append] at hloop hpermLoop
  simp only [partition, hn, hrun1, hrun2, hrun3, Option.bind_eq_bind, Option.bind_some]
  rw [hrest]
  simp only [List.append_assoc, List.singleton_append, hread, Option.bind_some, hloop]
  have hlens := hpermLoop.length_eq
  rw [List.length_append] at hlens
  have hback : (lo ++ pivot :: hi).Perm mid := by
    have hmiddle : (lo ++ pivot :: hi).Perm (rest ++ [pivot]) :=
      List.perm_middle.trans ((hpermLoop.cons pivot).trans
        (List.perm_append_singleton pivot rest).symm)
    exact hmiddle.trans hperm
  cases hi with
  | nil =>
      have hself : pre.length + rest.length = pre.length + lo.length := by
        rw [List.length_nil] at hlens
        omega
      refine ⟨lo, pivot, [], ?_, hback, hlo, fun x hx => nomatch hx⟩
      simp only [List.nil_append, hself, swap_self pre lo pivot post rfl, Option.bind_some]
      rfl
  | cons y hi =>
      have hfar : pre.length + rest.length = pre.length + lo.length + 1 + hi.length := by
        rw [List.length_cons] at hlens
        omega
      refine ⟨lo, pivot, hi ++ [y], ?_, ?_, hlo, ?_⟩
      · simp only [List.cons_append, swap_segment pre lo y hi pivot post rfl hfar,
          Option.bind_some, List.append_assoc, List.nil_append]
        rfl
      · exact (List.Perm.append_left lo
          ((List.perm_append_singleton y hi).cons pivot)).trans hback
      · intro x hx
        cases List.mem_append.1 hx with
        | inl hold => exact hhi x (List.mem_cons_of_mem _ hold)
        | inr hnew => exact List.mem_singleton.1 hnew ▸ hhi y List.mem_cons_self

end Partition

/-! ## Insertion sort -/

section Order

variable {κ : Type*} [LinearOrder κ] {before} {key : α → κ}
  (hkey : ∀ a b, before a b = true ↔ key a < key b) (pre post : List α)

include hkey

theorem key_le_iff (a b : α) : before b a = false ↔ key a ≤ key b := by
  rw [← Bool.not_eq_true, hkey, not_lt]

/-- **The inner loop** puts the key behind the last element it does not come before. -/
theorem shiftUp_spec (s : List α) (x key' : α) :
    ∃ s1 s2, shiftUp before pre.length key' s.length (pre ++ (s ++ x :: post)) =
        some (pre ++ (s1 ++ key' :: s2 ++ post)) ∧ s = s1 ++ s2 ∧
      (∀ y ∈ s2, key key' ≤ key y) ∧ ∀ y ∈ s1.getLast?, key y ≤ key key' := by
  induction s using List.reverseRecOn generalizing x post with
  | nil =>
      have hw := write_segment pre [] x key' post (i := pre.length) (by simp)
      exact ⟨[], [], hw, rfl, by simp, by simp⟩
  | append_singleton s y ih =>
      have hread : (pre ++ (s ++ [y] ++ x :: post))[pre.length + s.length]? = some y := by
        rw [List.append_assoc]
        exact getElem?_segment pre s y (x :: post) rfl
      have hwrite : ∀ z, write (pre ++ (s ++ [y] ++ x :: post)) (pre.length + (s.length + 1)) z =
          some (pre ++ (s ++ y :: z :: post)) := by
        intro z
        have h := write_segment pre (s ++ [y]) x z post (i := pre.length + (s.length + 1))
          (by simp only [List.length_append, List.length_singleton])
        simpa using h
      rw [List.length_append, List.length_singleton]
      simp only [shiftUp, hread, Option.bind_eq_bind, Option.bind_some, hwrite]
      cases hbefore : before key' y with
      | true =>
          obtain ⟨s1, s2, hrun, hsplit, hs2, hs1⟩ := ih (y :: post) y
          refine ⟨s1, s2 ++ [y], ?_, by rw [hsplit, List.append_assoc], ?_, hs1⟩
          · simp only [if_true, hrun]
            simp
          · intro z hz
            cases List.mem_append.1 hz with
            | inl hold => exact hs2 z hold
            | inr hnew => exact List.mem_singleton.1 hnew ▸ ((hkey _ _).1 hbefore).le
      | false =>
          refine ⟨s ++ [y], [], by simp, by simp, fun z hz => (nomatch hz), ?_⟩
          intro z hz
          have heq : y = z := by simpa using hz
          exact heq ▸ (key_le_iff hkey y key').1 hbefore

/-- **The outer loop** keeps a sorted prefix. -/
theorem insertionLoop_spec (rest s : List α) (hs : s.Pairwise fun a b => key a ≤ key b) :
    ∃ mid', insertionLoop before pre.length rest.length s.length
        (pre ++ (s ++ (rest ++ post))) = some (pre ++ (mid' ++ post)) ∧
      mid'.Perm (s ++ rest) ∧ mid'.Pairwise fun a b => key a ≤ key b := by
  induction rest generalizing s with
  | nil => exact ⟨s, rfl, by simp, hs⟩
  | cons x rest ih =>
      have hread : (pre ++ (s ++ (x :: rest ++ post)))[pre.length + s.length]? = some x :=
        getElem?_segment pre s x (rest ++ post) rfl
      obtain ⟨s1, s2, hrun, rfl, hs2, hs1⟩ := shiftUp_spec hkey pre (rest ++ post) s x x
      have hsorted : (s1 ++ x :: s2).Pairwise fun a b => key a ≤ key b := by
        rw [List.pairwise_append] at hs ⊢
        refine ⟨hs.1, List.pairwise_cons.2 ⟨hs2, hs.2.1⟩, ?_⟩
        intro a ha b hb
        have hax : key a ≤ key x := by
          obtain ⟨front, z, rfl⟩ := (List.eq_nil_or_concat' s1).resolve_left
            (List.ne_nil_of_mem ha)
          have hz : key z ≤ key x := hs1 z (by simp)
          cases List.mem_append.1 ha with
          | inl hfront =>
              have hpre := hs.1
              rw [List.pairwise_append] at hpre
              exact (hpre.2.2 a hfront z (by simp)).trans hz
          | inr hlast => exact List.mem_singleton.1 hlast ▸ hz
        cases List.mem_cons.1 hb with
        | inl heq => exact heq ▸ hax
        | inr hin => exact hax.trans (hs2 b hin)
      have hlen : (s1 ++ s2).length + 1 = (s1 ++ x :: s2).length := by
        simp only [List.length_append, List.length_cons]
        omega
      obtain ⟨mid', hloop, hperm, hmid⟩ := ih (s1 ++ x :: s2) hsorted
      refine ⟨mid', ?_, hperm.trans ?_, hmid⟩
      · simp only [List.length_cons, insertionLoop, hread, Option.bind_eq_bind, Option.bind_some]
        rw [List.cons_append, hrun, Option.bind_some, hlen, hloop]
      · classical
        rw [List.perm_iff_count]
        intro z
        simp only [List.count_append, List.count_cons]
        omega

/-- **Insertion sort** of a segment. -/
theorem insertionSort_spec (mid : List α) (hne : mid ≠ []) :
    ∃ mid', insertionSort before pre.length mid.length (pre ++ (mid ++ post)) =
        some (pre ++ (mid' ++ post)) ∧ mid'.Perm mid ∧
      mid'.Pairwise fun a b => key a ≤ key b := by
  obtain ⟨x, rest, rfl⟩ := List.exists_cons_of_ne_nil hne
  exact insertionLoop_spec hkey pre post rest [x] (List.pairwise_singleton _ _)

/-! ## Sorted up to a position -/

omit hkey in
/-- The first `k` elements are in order, and nothing behind them comes before one of them. -/
def TopSorted (key : α → κ) : Nat → List α → Prop
  | 0, _ => True
  | _ + 1, [] => True
  | k + 1, x :: rest => (∀ y ∈ rest, key x ≤ key y) ∧ TopSorted key k rest

omit hkey in
theorem TopSorted.append {k : Nat} {lo hi : List α} (hlo : TopSorted key k lo)
    (hhi : TopSorted key (k - lo.length) hi) (hle : ∀ x ∈ lo, ∀ y ∈ hi, key x ≤ key y) :
    TopSorted key k (lo ++ hi) := by
  induction lo generalizing k with
  | nil => exact hhi
  | cons x lo ih =>
      cases k with
      | zero => trivial
      | succ k =>
          refine ⟨?_, ih hlo.2 ?_ fun z hz => hle z (List.mem_cons_of_mem _ hz)⟩
          · intro y hy
            cases List.mem_append.1 hy with
            | inl hin => exact hlo.1 y hin
            | inr hin => exact hle x List.mem_cons_self y hin
          · rwa [List.length_cons, Nat.add_sub_add_right] at hhi

omit hkey in
theorem TopSorted.of_pairwise {l : List α} (hl : l.Pairwise fun a b => key a ≤ key b) (k : Nat) :
    TopSorted key k l := by
  induction l generalizing k with
  | nil => cases k <;> trivial
  | cons x l ih =>
      rw [List.pairwise_cons] at hl
      cases k with
      | zero => trivial
      | succ k => exact ⟨hl.1, ih hl.2 k⟩

omit hkey in
theorem TopSorted.of_length_le_one {l : List α} (hl : l.length ≤ 1) (k : Nat) :
    TopSorted key k l := by
  apply TopSorted.of_pairwise
  cases l with
  | nil => exact List.Pairwise.nil
  | cons x rest =>
      have hnil : rest = [] := by
        rw [List.length_cons] at hl
        exact List.eq_nil_of_length_eq_zero (by omega)
      exact hnil ▸ List.pairwise_singleton _ _

omit hkey in
/-- **Sorted up to `k`** means that a full sort has the same first `k` elements. -/
theorem TopSorted.take_eq {k : Nat} {l : List α} (hl : TopSorted key k l) :
    ∃ full : List α, full.Perm l ∧ full.Pairwise (fun a b => key a ≤ key b) ∧
      l.take k = full.take k := by
  induction l generalizing k with
  | nil => exact ⟨[], List.Perm.refl _, List.Pairwise.nil, rfl⟩
  | cons x rest ih =>
      cases k with
      | zero =>
          have htotal : Std.Total fun a b : α => key a ≤ key b := ⟨fun a b => le_total _ _⟩
          have htrans : IsTrans α fun a b => key a ≤ key b := ⟨fun a b c => le_trans⟩
          exact ⟨(x :: rest).insertionSort fun a b => key a ≤ key b,
            List.perm_insertionSort _ _, List.pairwise_insertionSort _ _, rfl⟩
      | succ k =>
          obtain ⟨full, hperm, hsorted, htake⟩ := ih hl.2
          refine ⟨x :: full, hperm.cons x, List.pairwise_cons.2 ⟨?_, hsorted⟩, ?_⟩
          · exact fun y hy => hl.1 y (hperm.mem_iff.1 hy)
          · rw [List.take_succ_cons, List.take_succ_cons, htake]

/-! ## The partial quicksort -/

/-- What the partial quicksort does to a segment. -/
def SortsSegment (before : α → α → Bool) (key : α → κ) (cutover k fuel : Nat) (pre post : List α)
    (mid : List α) (right : Nat) : Prop :=
  ∃ mid', partialQuicksort before cutover fuel pre.length right k (pre ++ (mid ++ post)) =
      some (pre ++ (mid' ++ post)) ∧ mid'.Perm mid ∧ TopSorted key (k - pre.length) mid'

omit hkey in
/-- The descent into the part in front of the pivot, which may be empty. -/
theorem descendLeft {cutover k fuel : Nat} {lo : List α} (rest : List α)
    (ih : 0 < lo.length →
      SortsSegment before key cutover k fuel pre rest lo (pre.length + lo.length - 1)) :
    ∃ lo', (∀ next : List α → Option (List α),
        (if pre.length + lo.length > pre.length then
          (partialQuicksort before cutover fuel pre.length (pre.length + lo.length - 1) k
            (pre ++ (lo ++ rest))).bind next
        else next (pre ++ (lo ++ rest))) = next (pre ++ (lo' ++ rest))) ∧ lo'.Perm lo ∧
      TopSorted key (k - pre.length) lo' := by
  by_cases hpos : 0 < lo.length
  · obtain ⟨lo', hrun, hperm, hsorted⟩ := ih hpos
    refine ⟨lo', fun next => ?_, hperm, hsorted⟩
    rw [if_pos (by omega), hrun, Option.bind_some]
  · have hnil : lo = [] := List.eq_nil_of_length_eq_zero (by omega)
    subst hnil
    refine ⟨[], fun next => ?_, List.Perm.refl _, TopSorted.of_pairwise List.Pairwise.nil _⟩
    rw [if_neg (by simp)]

/-- **The partial quicksort** of a segment, with fuel for its length. -/
theorem partialQuicksort_spec (cutover k : Nat) (hk : 1 ≤ k) (fuel : Nat) (mid : List α)
    (hfuel : mid.length ≤ fuel) {right : Nat} (hright : right + 1 = pre.length + mid.length) :
    SortsSegment before key cutover k fuel pre post mid right := by
  induction fuel generalizing pre post mid right with
  | zero =>
      have hnil : mid = [] := List.eq_nil_of_length_eq_zero (Nat.le_zero.1 hfuel)
      subst hnil
      have hstop : ¬ pre.length < right := by
        rw [List.length_nil] at hright
        omega
      refine ⟨[], ?_, List.Perm.refl _, TopSorted.of_pairwise List.Pairwise.nil _⟩
      rw [partialQuicksort, if_neg hstop]
  | succ fuel ih =>
      unfold SortsSegment partialQuicksort
      by_cases hgo : pre.length < right
      · have hlen : 2 ≤ mid.length := by omega
        have hsize : right - pre.length + 1 = mid.length := by omega
        rw [if_pos hgo]
        by_cases hsmall : right - pre.length < cutover
        · obtain ⟨mid', hrun, hperm, hsorted⟩ := insertionSort_spec hkey pre post mid
            (List.ne_nil_of_length_pos (by omega))
          rw [if_pos hsmall, hsize]
          exact ⟨mid', hrun, hperm, TopSorted.of_pairwise hsorted _⟩
        · obtain ⟨lo, pivot, hi, hrun, hperm, hlo, hhi⟩ := partition_spec before pre post mid hlen
          have hlens := hperm.length_eq
          rw [List.length_append, List.length_cons] at hlens
          have hright' : pre.length + (mid.length - 1) = right := by omega
          rw [hright'] at hrun
          simp only [if_neg hsmall, hrun, Option.bind_eq_bind, Option.bind_some]
          have hcross : ∀ x ∈ lo, ∀ y ∈ pivot :: hi, key x ≤ key y := by
            intro x hx y hy
            have hxp := (hkey x pivot).1 (hlo x hx)
            cases List.mem_cons.1 hy with
            | inl heq => exact heq ▸ hxp.le
            | inr hin => exact hxp.le.trans ((key_le_iff hkey pivot y).1 (hhi y hin))
          by_cases hcut : pre.length + lo.length ≥ k
          · -- nothing behind the pivot matters
            obtain ⟨lo', hrunLo, hpermLo, hsortedLo⟩ := ih pre (pivot :: hi ++ post) lo (by omega)
              (show pre.length + lo.length - 1 + 1 = pre.length + lo.length by omega)
            refine ⟨lo' ++ pivot :: hi, ?_, (hpermLo.append_right _).trans hperm, ?_⟩
            · rw [if_pos hcut, List.append_assoc, hrunLo, List.append_assoc]
            · apply TopSorted.append hsortedLo
              · rw [hpermLo.length_eq, show k - pre.length - lo.length = 0 by omega]
                trivial
              · exact fun x hx => hcross x (hpermLo.mem_iff.1 hx)
          · obtain ⟨lo', hrunLo, hpermLo, hsortedLo⟩ := descendLeft pre (pivot :: hi ++ post)
              fun hpos => ih pre (pivot :: hi ++ post) lo (by omega)
                (show pre.length + lo.length - 1 + 1 = pre.length + lo.length by omega)
            have hlenLo := hpermLo.length_eq
            have hshift : (pre ++ lo' ++ [pivot]).length = pre.length + lo.length + 1 := by
              simp only [List.length_append, List.length_singleton, hlenLo]
            obtain ⟨hi', hrunHi, hpermHi, hsortedHi⟩ := ih (pre ++ lo' ++ [pivot]) post hi
              (by omega) (show right + 1 = (pre ++ lo' ++ [pivot]).length + hi.length by omega)
            rw [hshift] at hrunHi hsortedHi
            refine ⟨lo' ++ pivot :: hi', ?_, ?_, ?_⟩
            · rw [if_neg hcut, List.append_assoc, hrunLo]
              simpa only [List.append_assoc, List.singleton_append, List.cons_append,
                List.nil_append] using hrunHi
            · exact (hpermLo.append (hpermHi.cons pivot)).trans hperm
            · apply TopSorted.append hsortedLo
              · rw [hlenLo, show k - pre.length - lo.length =
                  (k - (pre.length + lo.length + 1)) + 1 by omega]
                exact ⟨fun y hy => (key_le_iff hkey pivot y).1 (hhi y (hpermHi.mem_iff.1 hy)),
                  hsortedHi⟩
              · intro x hx y hy
                apply hcross x (hpermLo.mem_iff.1 hx)
                cases List.mem_cons.1 hy with
                | inl heq => exact heq ▸ List.mem_cons_self
                | inr hin => exact List.mem_cons_of_mem _ (hpermHi.mem_iff.1 hin)
      · have hshort : mid.length ≤ 1 := by omega
        exact ⟨mid, by rw [if_neg hgo], List.Perm.refl _, TopSorted.of_length_le_one hshort _⟩

end Order

end PgTextsearch.Verified.PartialSort
