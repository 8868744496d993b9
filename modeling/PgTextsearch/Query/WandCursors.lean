import Mathlib.Algebra.BigOperators.Group.List.Basic
import Mathlib.Algebra.Order.BigOperators.Group.List
import PgTextsearch.Query.Wand
import PgTextsearch.Verified.MoveRight

/-!
# Cursor invariant of the WAND loop

What holds of the cursor array at every point of the loop (`Cursors`): all
cursors are ready, they are the cursors the loop started with up to order and
position, they are sorted by current document, and `active_count` counts the
ones not exhausted.  Every change of the array in the loop is one cursor moved
to a target followed by `restore_ordering`, so one lemma (`Cursors.move`) keeps
the invariant and says which documents the move passes over.

## Main results

* `Cursors.move` — one move keeps the invariant and shortens the rest.
* `findWandPivot_spec` — what the pivot guarantees.
* `Cursors.docBound_le_of_lt_pivot`, `Cursors.docBound_le_of_lt_skip` — documents
  before the pivot, and documents a block-max skip jumps over, are not allowed more
  than the respective bound.
-/

namespace PgTextsearch.Query

open PgTextsearch.Postgres PgTextsearch.Segment PgTextsearch.Verified

variable {Term : Type} {P : ScoreParams}

/-- The full score of a document: the sum of all contributions. -/
def termsDocScore (P : ScoreParams) (terms : List (TermState Term)) (docId : Nat) : ℚ :=
  (terms.map fun ts => ts.contrib P docId).sum

/-- What the block maxima allow a document that scores at all: the sum of the bounds. -/
def termsDocBound (P : ScoreParams) (terms : List (TermState Term)) (docId : Nat) : ℚ :=
  if 0 < termsDocScore P terms docId then (terms.map fun ts => ts.docBound P docId).sum else 0

/-- No cursor has passed the document: every posting of it is still to come. -/
def Unpassed (terms : List (TermState Term)) (docId : Nat) : Prop :=
  ∀ ts ∈ terms, ∀ p ∈ ts.postings, p.docId = docId → p ∈ ts.rem

/-- The number of postings still to come, the measure of the loop. -/
def totalRem (terms : List (TermState Term)) : Nat :=
  (terms.map fun ts => ts.rem.length).sum

/-- The cursor array of a running query: sorted by current document, with the
cursors that are not exhausted counted. -/
structure PlacedCursors (terms : List (TermState Term)) (activeCount : Int) : Prop where
  placed : ∀ ts ∈ terms, ts.Placed
  sorted : terms.Pairwise (fun a b => a.currentDocId ≤ b.currentDocId)
  active : activeCount = terms.countP (fun ts => ts.currentDocId ≠ uint32Max)

/-- The same with the cursors' bounds in place; `ref` are the cursors the query started with,
without their positions. -/
structure Cursors (P : ScoreParams) (ref : List (TermState Term))
    (terms : List (TermState Term)) (activeCount : Int) : Prop
    extends PlacedCursors terms activeCount where
  ready : ∀ ts ∈ terms, ts.Ready P
  static_perm : (terms.map TermState.static).Perm ref

/-! ## Restoring the order -/

theorem restoreOrdering_eq_moveRight (terms : List (TermState Term)) (ord : Nat) :
    restoreOrdering terms ord = moveRight TermState.currentDocId terms ord := by
  unfold restoreOrdering moveRight
  cases terms.drop ord <;> rfl

theorem restoreOrdering_eq {terms : List (TermState Term)} {ord : Nat} {t : TermState Term}
    (h : terms[ord]? = some t) :
    restoreOrdering terms ord = terms.take ord ++
      ((terms.drop (ord + 1)).takeWhile (·.currentDocId < t.currentDocId) ++
        t :: (terms.drop (ord + 1)).dropWhile (·.currentDocId < t.currentDocId)) :=
  (restoreOrdering_eq_moveRight terms ord).trans (moveRight_eq h)

theorem restoreOrdering_perm (terms : List (TermState Term)) (ord : Nat) :
    (restoreOrdering terms ord).Perm terms := by
  rw [restoreOrdering_eq_moveRight]
  exact moveRight_perm terms ord

/-- A term that only moved forward finds its place to the right. -/
theorem restoreOrdering_sorted {terms : List (TermState Term)} {i : Nat} {ts ts' : TermState Term}
    (hsorted : terms.Pairwise (fun a b => a.currentDocId ≤ b.currentDocId))
    (hi : terms[i]? = some ts) (hle : ts.currentDocId ≤ ts'.currentDocId) :
    (restoreOrdering (terms.set i ts') i).Pairwise
      (fun a b => a.currentDocId ≤ b.currentDocId) := by
  rw [restoreOrdering_eq_moveRight]
  exact moveRight_sorted hsorted hi hle

/-! ## Moving one cursor -/

/-- What is at or after the target is kept. -/
theorem mem_dropWhile_of_le {l : List BlockPosting} {target : Nat} {p : BlockPosting} (hp : p ∈ l)
    (hge : target ≤ p.docId) : p ∈ l.dropWhile (·.docId < target) := by
  rw [← List.takeWhile_append_dropWhile (p := fun q : BlockPosting => decide (q.docId < target))
    (l := l), List.mem_append] at hp
  rcases hp with htake | hdrop
  · have := List.mem_takeWhile_imp htake
    simp only [decide_eq_true_eq] at this
    omega
  · exact hdrop

/-- Nothing before the target is, in a sorted list. -/
theorem le_of_mem_dropWhile {l : List BlockPosting} {target : Nat}
    (hsorted : (l.dropWhile (·.docId < target)).Pairwise fun p q => p.docId < q.docId)
    {p : BlockPosting} (hp : p ∈ l.dropWhile (·.docId < target)) : target ≤ p.docId := by
  cases hrest : l.dropWhile (·.docId < target) with
  | nil =>
      rw [hrest] at hp
      exact nomatch hp
  | cons q rest =>
      have hq : target ≤ q.docId := by
        have hhead := List.head?_dropWhile_not
          (fun q : BlockPosting => decide (q.docId < target)) l
        rw [hrest] at hhead
        simpa using hhead
      rw [hrest] at hp hsorted
      rcases List.mem_cons.1 hp with rfl | hmem
      · exact hq
      · exact hq.trans ((List.pairwise_cons.1 hsorted).1 p hmem).le

/-- `r` is the outcome of moving `ts` forward to the first posting at or after
`target`, with the flag that says whether one is left. -/
structure MovesTo (ts : TermState Term) (target : Nat) (r : Bool × TermState Term) : Prop where
  placed : r.2.Placed
  static : r.2.static = ts.static
  rem : r.2.rem = ts.rem.dropWhile (·.docId < target)
  flag : r.1 = true ↔ r.2.rem ≠ []

theorem seekTermToDoc_movesTo {ts : TermState Term} (hr : ts.Placed) (target : Nat) :
    MovesTo ts target (seekTermToDoc ts target) := by
  obtain ⟨h1, h2, h3, h4⟩ := seekTermToDoc_spec hr target
  exact ⟨h1, h2, h3, h4⟩

/-- Advancing by one posting is seeking the next document id. -/
theorem advanceTermIterator_movesTo {ts : TermState Term} (hr : ts.Placed) (hne : ts.rem ≠ []) :
    MovesTo ts (ts.currentDocId + 1) (advanceTermIterator ts) := by
  obtain ⟨h1, h2, h3, h4⟩ := advanceTermIterator_spec hr hne
  refine ⟨h1, h2, ?_, h4⟩
  rw [h3]
  cases hrem : ts.rem with
  | nil => exact absurd hrem hne
  | cons p rest =>
      have hsorted := hr.sorted.sublist ts.rem_suffix.sublist
      rw [hrem] at hsorted
      have hcur := hr.currentDocId_cons hrem
      rw [hcur, List.tail_cons, List.dropWhile_cons_of_pos (by simp)]
      cases rest with
      | nil => rfl
      | cons q l =>
          have hpq := (List.pairwise_cons.1 hsorted).1 q List.mem_cons_self
          rw [List.dropWhile_cons_of_neg (by simp only [decide_eq_true_eq]; omega)]

namespace MovesTo

variable {ts : TermState Term} {target : Nat} {r : Bool × TermState Term}

theorem ready (h : MovesTo ts target r) (hr : ts.Ready P) : r.2.Ready P :=
  hr.of_static h.placed h.static

theorem postings (h : MovesTo ts target r) : r.2.postings = ts.postings :=
  show r.2.static.postings = ts.static.postings by rw [h.static]

theorem rem_suffix (h : MovesTo ts target r) : r.2.rem <:+ ts.rem := by
  rw [h.rem]
  exact List.dropWhile_suffix _

theorem rem_subset (h : MovesTo ts target r) {p : BlockPosting} (hp : p ∈ r.2.rem) :
    p ∈ ts.rem :=
  h.rem_suffix.subset hp

/-- What is at or after the target is kept. -/
theorem mem_rem (h : MovesTo ts target r) {p : BlockPosting} (hp : p ∈ ts.rem)
    (hge : target ≤ p.docId) : p ∈ r.2.rem := by
  rw [h.rem]
  exact mem_dropWhile_of_le hp hge

theorem le_of_mem (h : MovesTo ts target r) {p : BlockPosting} (hp : p ∈ r.2.rem) :
    target ≤ p.docId := by
  have hsorted := h.placed.sorted.sublist r.2.rem_suffix.sublist
  rw [h.rem] at hp hsorted
  exact le_of_mem_dropWhile hsorted hp

theorem le_currentDocId (h : MovesTo ts target r) (htarget : target ≤ uint32Max) :
    target ≤ r.2.currentDocId := by
  cases hrem : r.2.rem with
  | nil =>
      rw [h.placed.currentDocId_nil hrem]
      exact htarget
  | cons q rest =>
      rw [h.placed.currentDocId_cons hrem]
      exact h.le_of_mem (by rw [hrem]; exact List.mem_cons_self)

theorem currentDocId_mono (h : MovesTo ts target r) (hr : ts.Placed) :
    ts.currentDocId ≤ r.2.currentDocId := by
  cases hrem : r.2.rem with
  | nil =>
      rw [h.placed.currentDocId_nil hrem]
      exact hr.currentDocId_le
  | cons q rest =>
      rw [h.placed.currentDocId_cons hrem]
      exact hr.currentDocId_le_of_mem (h.rem_subset (by rw [hrem]; exact List.mem_cons_self))

theorem length_le (h : MovesTo ts target r) : r.2.rem.length ≤ ts.rem.length :=
  h.rem_suffix.sublist.length_le

/-- A cursor before the target gives up at least one posting. -/
theorem length_lt (h : MovesTo ts target r) (hr : ts.Placed) (hne : ts.rem ≠ [])
    (hlt : ts.currentDocId < target) : r.2.rem.length < ts.rem.length := by
  cases hrem : ts.rem with
  | nil => exact absurd hrem hne
  | cons p rest =>
      have hcur := hr.currentDocId_cons hrem
      rw [h.rem, hrem, List.dropWhile_cons_of_pos (by simp only [decide_eq_true_eq]; omega)]
      exact Nat.lt_succ_of_le (List.dropWhile_sublist _).length_le

end MovesTo

/-- The array after one move. -/
def moveCursor (terms : List (TermState Term)) (i : Nat) (ts' : TermState Term) :
    List (TermState Term) :=
  restoreOrdering (terms.set i ts') i

theorem exists_split {terms : List (TermState Term)} {i : Nat} {ts : TermState Term}
    (h : terms[i]? = some ts) : ∃ pre post, terms = pre ++ ts :: post ∧ pre.length = i ∧
      ∀ ts', (moveCursor terms i ts').Perm (pre ++ ts' :: post) := by
  obtain ⟨hlt, rfl⟩ := List.getElem?_eq_some_iff.1 h
  have hsplit : terms = terms.take i ++ terms[i] :: terms.drop (i + 1) := by
    conv_lhs => rw [← List.take_append_drop i terms, List.drop_eq_getElem_cons hlt]
  refine ⟨terms.take i, terms.drop (i + 1), hsplit, by simp; omega, fun ts' => ?_⟩
  have hset : terms.set i ts' = terms.take i ++ ts' :: terms.drop (i + 1) := by
    rw [List.set_eq_take_append_cons_drop, if_pos hlt]
  exact (restoreOrdering_perm _ _).trans (by rw [hset])

section Move

variable {ref terms : List (TermState Term)} {n : Int} {i target : Nat} {ts : TermState Term}
  {r : Bool × TermState Term}

/-- Members of the array after a move. -/
theorem mem_moveCursor (hi : terms[i]? = some ts) {ts' x : TermState Term}
    (hx : x ∈ moveCursor terms i ts') : x = ts' ∨ x ∈ terms := by
  obtain ⟨pre, post, heq, -, hperm⟩ := exists_split hi
  have hx' := (hperm ts').mem_iff.1 hx
  rw [heq]
  rcases List.mem_append.1 hx' with hpre | hpost
  · exact Or.inr (List.mem_append_left _ hpre)
  · rcases List.mem_cons.1 hpost with rfl | hpost
    · exact Or.inl rfl
    · exact Or.inr (List.mem_append_right _ (List.mem_cons_of_mem _ hpost))

/-- **One move** keeps the order and the count. -/
theorem PlacedCursors.move (hc : PlacedCursors terms n) (hi : terms[i]? = some ts)
    (hact : ts.rem ≠ []) (hm : MovesTo ts target r) :
    PlacedCursors (moveCursor terms i r.2) (if r.1 then n else n - 1) := by
  obtain ⟨pre, post, heq, -, hperm⟩ := exists_split hi
  have htsr : ts.Placed := hc.placed ts (List.mem_of_getElem? hi)
  constructor
  · intro x hx
    rcases mem_moveCursor hi hx with rfl | hx
    · exact hm.placed
    · exact hc.placed x hx
  · exact restoreOrdering_sorted hc.sorted hi (hm.currentDocId_mono htsr)
  · have hcount := (hperm r.2).countP_eq (fun x => decide (x.currentDocId ≠ uint32Max))
    have hold := hc.active
    rw [heq] at hold
    have hts : ts.currentDocId ≠ uint32Max := fun h => hact (htsr.rem_eq_nil_iff.2 h)
    simp only [List.countP_append, List.countP_cons] at hcount hold
    rw [hcount]
    cases hflag : r.1 with
    | true =>
        have hne : r.2.currentDocId ≠ uint32Max := fun h =>
          (hm.flag.1 hflag) (hm.placed.rem_eq_nil_iff.2 h)
        simp only [hts, hne, ne_eq, not_false_eq_true, decide_true, if_true] at hold ⊢
        omega
    | false =>
        have hend : r.2.currentDocId = uint32Max := by
          rw [← hm.placed.rem_eq_nil_iff]
          by_contra hne
          rw [hm.flag.2 hne] at hflag
          cases hflag
        simp only [hts, hend, ne_eq, not_true_eq_false, decide_false, if_true,
          Bool.false_eq_true, if_false, not_false_eq_true, decide_true] at hold ⊢
        omega

theorem totalRem_move (hi : terms[i]? = some ts) (ts' : TermState Term) :
    totalRem (moveCursor terms i ts') + ts.rem.length = totalRem terms + ts'.rem.length := by
  obtain ⟨pre, post, heq, -, hperm⟩ := exists_split hi
  have hsum := ((hperm ts').map fun x => x.rem.length).sum_eq
  unfold totalRem
  rw [hsum, heq]
  simp only [List.map_append, List.map_cons, List.sum_append, List.sum_cons]
  omega

end Move

namespace Cursors

variable {ref terms : List (TermState Term)} {n : Int} {i target : Nat} {ts : TermState Term}
  {r : Bool × TermState Term}

/-- One move keeps the cursors ready. -/
theorem move (hc : Cursors P ref terms n) (hi : terms[i]? = some ts) (hact : ts.rem ≠ [])
    (hm : MovesTo ts target r) :
    Cursors P ref (moveCursor terms i r.2) (if r.1 then n else n - 1) where
  toPlacedCursors := hc.toPlacedCursors.move hi hact hm
  ready := by
    intro x hx
    rcases mem_moveCursor hi hx with rfl | hx
    · exact hm.ready (hc.ready ts (List.mem_of_getElem? hi))
    · exact hc.ready x hx
  static_perm := by
    obtain ⟨pre, post, heq, -, hperm⟩ := exists_split hi
    refine ((hperm r.2).map TermState.static).trans ?_
    have := hc.static_perm
    rw [heq] at this
    simpa [hm.static] using this

/-- A move never brings a passed document back. -/
theorem unpassed_of_move (hi : terms[i]? = some ts) (hm : MovesTo ts target r) {d : Nat}
    (h : Unpassed (moveCursor terms i r.2) d) : Unpassed terms d := by
  obtain ⟨pre, post, heq, -, hperm⟩ := exists_split hi
  intro x hx p hp hpd
  have hin : ∀ y ∈ pre ++ r.2 :: post, ∀ p ∈ y.postings, p.docId = d → p ∈ y.rem :=
    fun y hy => h y ((hperm r.2).mem_iff.2 hy)
  rw [heq] at hx
  rcases List.mem_append.1 hx with hpre | hpost
  · exact hin x (List.mem_append_left _ hpre) p hp hpd
  · rcases List.mem_cons.1 hpost with rfl | hpost
    · exact hm.rem_subset (hin r.2 (List.mem_append_right _ List.mem_cons_self) p
        (by rw [hm.postings]; exact hp) hpd)
    · exact hin x (List.mem_append_right _ (List.mem_cons_of_mem _ hpost)) p hp hpd

/-- A move to `target` passes no document at or after `target`. -/
theorem unpassed_move (hi : terms[i]? = some ts) (hm : MovesTo ts target r) {d : Nat}
    (hd : target ≤ d) (h : Unpassed terms d) : Unpassed (moveCursor terms i r.2) d := by
  intro x hx p hp hpd
  rcases mem_moveCursor hi hx with rfl | hx
  · have hpm := h ts (List.mem_of_getElem? hi) p (by rw [← hm.postings]; exact hp) hpd
    exact hm.mem_rem hpm (by omega)
  · exact h x hx p hp hpd

/-- The score of a document does not depend on the cursor positions. -/
theorem docScore_eq (hc : Cursors P ref terms n) (d : Nat) :
    termsDocScore P terms d = termsDocScore P ref d := by
  have hperm := hc.static_perm.map fun ts => ts.contrib P d
  unfold termsDocScore
  rw [← hperm.sum_eq, List.map_map]
  rfl

/-- Neither does what it is allowed. -/
theorem docBound_sum (hc : Cursors P ref terms n) (d : Nat) :
    (terms.map fun ts => ts.docBound P d).sum = (ref.map fun ts => ts.docBound P d).sum := by
  have hperm := hc.static_perm.map fun ts => ts.docBound P d
  rw [← hperm.sum_eq, List.map_map]
  rfl

theorem docBound_le_sum (hc : Cursors P ref terms n) (d : Nat) :
    termsDocBound P ref d ≤ (terms.map fun ts => ts.docBound P d).sum := by
  rw [termsDocBound]
  split_ifs
  · rw [hc.docBound_sum]
  · apply List.sum_nonneg
    intro x hx
    obtain ⟨t, ht, rfl⟩ := List.mem_map.1 hx
    exact (hc.ready t ht).docBound_nonneg d

/-- A document that scores is allowed something. -/
theorem docBound_pos (hc : Cursors P ref terms n) {d : Nat} (hpos : 0 < termsDocScore P ref d) :
    0 < termsDocBound P ref d := by
  -- some term scores it, and that term's bound is positive
  obtain ⟨t, ht, htpos⟩ : ∃ t ∈ terms, 0 < t.contrib P d := by
    by_contra hnone
    push Not at hnone
    have hle : termsDocScore P terms d ≤ (terms.map fun _ => (0 : ℚ)).sum :=
      List.sum_le_sum hnone
    rw [hc.docScore_eq] at hle
    simp at hle
    linarith
  rw [termsDocBound, if_pos hpos, ← hc.docBound_sum]
  refine lt_of_lt_of_le ((hc.ready t ht).docBound_pos htpos) ?_
  apply List.single_le_sum
  · intro y hy
    obtain ⟨u, hu, rfl⟩ := List.mem_map.1 hy
    exact (hc.ready u hu).docBound_nonneg d
  · exact List.mem_map_of_mem ht

end Cursors

/-! ## The pivot -/

/-- A sum is bounded through the summands that matter, the others being
non-positive. -/
private theorem sum_map_le_sum_filter {α : Type} (l : List α) (p : α → Bool) (f g : α → ℚ)
    (hp : ∀ x ∈ l, p x = true → f x ≤ g x) (hn : ∀ x ∈ l, p x = false → f x ≤ 0) :
    (l.map f).sum ≤ ((l.filter p).map g).sum := by
  induction l with
  | nil => simp
  | cons x l ih =>
      have htail := ih (fun y hy => hp y (List.mem_cons_of_mem _ hy))
        (fun y hy => hn y (List.mem_cons_of_mem _ hy))
      cases hx : p x with
      | true =>
          have := hp x List.mem_cons_self hx
          simp only [List.map_cons, List.sum_cons, List.filter_cons, hx, if_true]
          linarith
      | false =>
          have := hn x List.mem_cons_self hx
          simp only [List.map_cons, List.sum_cons, List.filter_cons, hx, Bool.false_eq_true,
            if_false]
          linarith

/-- What `find_wand_pivot` promises about a pivot of `n` terms at document `d`:
the pivot terms are those standing at or before it, one of them stands on it,
and the terms standing before it cannot reach the threshold together. -/
structure IsPivot (terms : List (TermState Term)) (bound : ℚ) (n d : Nat) : Prop where
  doc_ne : d ≠ uint32Max
  pos : 0 < n
  le_length : n ≤ terms.length
  take_le : ∀ t ∈ terms.take n, t.currentDocId ≤ d
  exists_eq : ∃ t ∈ terms.take n, t.currentDocId = d
  drop_gt : ∀ t ∈ terms.drop n, d < t.currentDocId
  sum_le : ((terms.filter (fun t => decide (t.currentDocId < d))).map TermState.maxScore).sum ≤
    bound

private theorem filter_lt_eq_nil {terms : List (TermState Term)} {d : Nat}
    (h : ∀ t ∈ terms, d ≤ t.currentDocId) :
    terms.filter (fun t => decide (t.currentDocId < d)) = [] := by
  rw [List.filter_eq_nil_iff]
  intro t ht
  have := h t ht
  simp only [decide_eq_true_eq]
  omega

/-- The terms standing on the head's document form the front of a sorted list. -/
private theorem lt_of_mem_dropWhile {rest : List (TermState Term)} {d : Nat}
    (hge : ∀ t ∈ rest, d ≤ t.currentDocId)
    (hsorted : rest.Pairwise (fun a b => a.currentDocId ≤ b.currentDocId)) :
    ∀ t ∈ rest.dropWhile (fun x => decide (x.currentDocId = d)), d < t.currentDocId := by
  induction rest with
  | nil => simp
  | cons a l ih =>
      obtain ⟨hal, hl⟩ := List.pairwise_cons.1 hsorted
      by_cases ha : a.currentDocId = d
      · rw [List.dropWhile_cons_of_pos (by simpa using ha)]
        exact ih (fun t ht => hge t (List.mem_cons_of_mem _ ht)) hl
      · rw [List.dropWhile_cons_of_neg (by simpa using ha)]
        have hda : d < a.currentDocId := lt_of_le_of_ne (hge a List.mem_cons_self) (Ne.symm ha)
        intro t ht
        rcases List.mem_cons.1 ht with rfl | htl
        · exact hda
        · exact lt_of_lt_of_le hda (hal t htl)

/-- The loop with `acc` accumulated so far: a pivot for the remaining terms
against what is left of the bound, or no remaining active term can matter. -/
private theorem findWandPivotLoop_spec (θ : ℚ) (l : List (TermState Term)) (i : Nat) (acc : ℚ)
    (hplaced : ∀ t ∈ l, t.Placed)
    (hsorted : l.Pairwise (fun a b => a.currentDocId ≤ b.currentDocId))
    (hacc : acc ≤ max θ 0) :
    (∃ n d, findWandPivotLoop θ i acc l = some (i + n, d) ∧ IsPivot l (max θ 0 - acc) n d) ∨
      (findWandPivotLoop θ i acc l = none ∧
        acc + ((l.filter (fun t => decide (t.currentDocId < uint32Max))).map
          TermState.maxScore).sum ≤ max θ 0) := by
  induction l generalizing i acc with
  | nil => exact Or.inr ⟨rfl, by simpa using hacc⟩
  | cons t rest ih =>
      obtain ⟨hle, hrest⟩ := List.pairwise_cons.1 hsorted
      have hplacedRest : ∀ x ∈ rest, x.Placed := fun x hx =>
        hplaced x (List.mem_cons_of_mem _ hx)
      have htr := hplaced t List.mem_cons_self
      by_cases hmax : t.currentDocId = uint32Max
      · -- all remaining terms are exhausted
        right
        refine ⟨by simp [findWandPivotLoop, hmax], ?_⟩
        rw [filter_lt_eq_nil]
        · simpa using hacc
        · intro x hx
          rcases List.mem_cons.1 hx with rfl | hx
          · exact hmax.ge
          · exact hmax ▸ hle x hx
      · by_cases hhit : acc + t.maxScore > θ
        · -- the pivot term
          left
          refine ⟨1 + (rest.takeWhile (fun x => decide (x.currentDocId = t.currentDocId))).length,
            t.currentDocId, ?_, ?_⟩
          · simp only [findWandPivotLoop, if_neg hmax, if_pos hhit, Nat.add_assoc]
          · have htake : (t :: rest).take
                (1 + (rest.takeWhile (fun x => decide (x.currentDocId = t.currentDocId))).length) =
                t :: rest.takeWhile (fun x => decide (x.currentDocId = t.currentDocId)) := by
              rw [Nat.add_comm, List.take_succ_cons,
                ← List.prefix_iff_eq_take.1 (List.takeWhile_prefix _)]
            have hdrop : (t :: rest).drop
                (1 + (rest.takeWhile (fun x => decide (x.currentDocId = t.currentDocId))).length) =
                rest.dropWhile (fun x => decide (x.currentDocId = t.currentDocId)) := by
              rw [Nat.add_comm, List.drop_succ_cons, drop_length_takeWhile]
            refine ⟨hmax, by omega, ?_, ?_, ?_, ?_, ?_⟩
            · have := (rest.takeWhile_sublist
                (fun x => decide (x.currentDocId = t.currentDocId))).length_le
              simp only [List.length_cons]
              omega
            · rw [htake]
              intro x hx
              rcases List.mem_cons.1 hx with rfl | hx
              · exact le_refl _
              · have := List.mem_takeWhile_imp hx
                simp only [decide_eq_true_eq] at this
                exact this.le
            · exact ⟨t, by rw [htake]; exact List.mem_cons_self, rfl⟩
            · rw [hdrop]
              exact lt_of_mem_dropWhile hle hrest
            · rw [filter_lt_eq_nil]
              · simpa using hacc
              · intro x hx
                rcases List.mem_cons.1 hx with rfl | hx
                · exact le_refl _
                · exact hle x hx
        · -- not yet: go on with one more maximum accumulated
          have hunfold : findWandPivotLoop θ i acc (t :: rest) =
              findWandPivotLoop θ (i + 1) (acc + t.maxScore) rest := by
            simp only [findWandPivotLoop, if_neg hmax, if_neg hhit]
          have hacc' : acc + t.maxScore ≤ max θ 0 := (not_lt.1 hhit).trans (le_max_left _ _)
          rw [hunfold]
          rcases ih (i + 1) (acc + t.maxScore) hplacedRest hrest hacc' with
            ⟨n, d, heq, hpiv⟩ | ⟨heq, hsum⟩
          · left
            refine ⟨n + 1, d, by rw [heq]; congr 2; omega, ?_⟩
            obtain ⟨x, hx, hxd⟩ := hpiv.exists_eq
            have htd : t.currentDocId ≤ d := hxd ▸ hle x (List.mem_of_mem_take hx)
            refine ⟨hpiv.doc_ne, by omega, by simp [hpiv.le_length], ?_, ?_, ?_, ?_⟩
            · intro y hy
              rw [List.take_succ_cons] at hy
              rcases List.mem_cons.1 hy with rfl | hy
              · exact htd
              · exact hpiv.take_le y hy
            · exact ⟨x, by rw [List.take_succ_cons]; exact List.mem_cons_of_mem _ hx, hxd⟩
            · rw [List.drop_succ_cons]
              exact hpiv.drop_gt
            · have hs := hpiv.sum_le
              have hnn := htr.maxScore_nonneg
              rw [List.filter_cons]
              split_ifs
              · simp only [List.map_cons, List.sum_cons]
                linarith
              · linarith
          · right
            refine ⟨heq, ?_⟩
            have hlt : t.currentDocId < uint32Max := lt_of_le_of_ne htr.currentDocId_le hmax
            simp only [List.filter_cons, decide_eq_true hlt, if_true, List.map_cons,
              List.sum_cons]
            linarith

/-- **The pivot.**  A pivot found is one; with no pivot the active terms
together do not exceed the threshold. -/
theorem findWandPivot_spec (θ : ℚ) {terms : List (TermState Term)}
    (hplaced : ∀ t ∈ terms, t.Placed)
    (hsorted : terms.Pairwise (fun a b => a.currentDocId ≤ b.currentDocId)) :
    (∃ n d, findWandPivot terms θ = some (n, d) ∧ IsPivot terms (max θ 0) n d) ∨
      (findWandPivot terms θ = none ∧
        ((terms.filter (fun t => decide (t.currentDocId < uint32Max))).map
          TermState.maxScore).sum ≤ max θ 0) := by
  have h := findWandPivotLoop_spec θ terms 0 0 hplaced hsorted (le_max_right _ _)
  simpa only [findWandPivot, Nat.zero_add, sub_zero, zero_add] using h

namespace Cursors

variable {ref terms : List (TermState Term)} {n : Int}

/-- A term standing behind an unpassed document does not contain it. -/
theorem forall_ne_of_lt (hc : Cursors P ref terms n) {d : Nat} (hu : Unpassed terms d)
    {t : TermState Term} (ht : t ∈ terms) (hlt : d < t.currentDocId) :
    ∀ p ∈ t.postings, p.docId ≠ d := by
  intro p hp hpd
  have := (hc.ready t ht).currentDocId_le_of_mem (hu t ht p hp hpd)
  omega

/-- **Before the pivot.**  An unpassed document before `d` is allowed at most what
the terms standing before `d` can reach together. -/
theorem docBound_le_of_lt_pivot (hc : Cursors P ref terms n) {d e : Nat} (he : e < d)
    (hu : Unpassed terms e) :
    termsDocBound P ref e ≤
      ((terms.filter (fun t => decide (t.currentDocId < d))).map TermState.maxScore).sum := by
  refine (hc.docBound_le_sum e).trans ?_
  apply sum_map_le_sum_filter
  · intro t ht _
    exact (hc.ready t ht).docBound_le_maxScore e
  · intro t ht hge
    simp only [decide_eq_false_iff_not, Nat.not_lt] at hge
    exact (TermState.docBound_of_forall_ne (hc.forall_ne_of_lt hu ht (by omega))).le

end Cursors

/-! ## Block-max skipping -/

/-- The scan over active pivot terms: the block end is a lower bound of all
block ends and, once lowered, attained; some pivot term is selected. -/
private theorem skipScan_spec (l : List (TermState Term)) (i : Nat) (s : SkipScan)
    (hplaced : ∀ t ∈ l, t.Placed) (hactive : ∀ t ∈ l, t.rem ≠ []) :
    (skipScan l i s).minBlockEnd ≤ s.minBlockEnd ∧
      (∀ t ∈ l, (skipScan l i s).minBlockEnd ≤ t.blockLastDocId t.iter.currentBlock) ∧
      ((skipScan l i s).minBlockEnd = s.minBlockEnd ∨
        ∃ t ∈ l, (skipScan l i s).minBlockEnd = t.blockLastDocId t.iter.currentBlock) ∧
      ((skipScan l i s).bestScorer = s.bestScorer ∨
        ∃ j < l.length, (skipScan l i s).bestScorer = some (i + j)) ∧
      (l ≠ [] → s.bestMaxScore < 0 → ∃ j < l.length,
        (skipScan l i s).bestScorer = some (i + j)) := by
  induction l generalizing i s with
  | nil => simp [skipScan]
  | cons t rest ih =>
      have htr := hplaced t List.mem_cons_self
      have hta := hactive t List.mem_cons_self
      obtain ⟨-, -, blk, -, hlast, hcount, hsome, -, -, -⟩ := htr.exists_currentBlock hta
      have hcur : t.currentDocId ≠ uint32Max := fun h => hta (htr.rem_eq_nil_iff.2 h)
      obtain ⟨s', hs'⟩ : ∃ s', s' = s.step i t := ⟨_, rfl⟩
      have hmin : s'.minBlockEnd = min s.minBlockEnd (t.blockLastDocId t.iter.currentBlock) := by
        rw [hs', SkipScan.step, if_neg hcur]
        simp only [hsome, hcount, true_and]
        by_cases hbest : t.maxScore > s.bestMaxScore <;>
          by_cases hlt : t.blockLastDocId t.iter.currentBlock < s.minBlockEnd <;>
          simp [hbest, hlt] <;> omega
      have hbest : (s.bestMaxScore < t.maxScore ∧ s'.bestScorer = some i) ∨
          (t.maxScore ≤ s.bestMaxScore ∧ s'.bestScorer = s.bestScorer) := by
        rw [hs', SkipScan.step, if_neg hcur]
        by_cases hb : t.maxScore > s.bestMaxScore
        · left
          refine ⟨hb, ?_⟩
          simp only [hb, if_true]
          split_ifs <;> rfl
        · right
          refine ⟨not_lt.1 hb, ?_⟩
          simp only [hb, if_false]
          split_ifs <;> rfl
      have hrec := ih (i + 1) s' (fun x hx => hplaced x (List.mem_cons_of_mem _ hx))
        (fun x hx => hactive x (List.mem_cons_of_mem _ hx))
      rw [skipScan, ← hs']
      obtain ⟨h1, h2, h3, h4, h5⟩ := hrec
      have hshift : ∀ j, i + 1 + j = i + (j + 1) := fun j => by omega
      refine ⟨by omega, ?_, ?_, ?_, ?_⟩
      · intro x hx
        rcases List.mem_cons.1 hx with rfl | hx
        · omega
        · exact h2 x hx
      · rcases h3 with h3 | ⟨x, hx, h3⟩
        · rcases le_total s.minBlockEnd (t.blockLastDocId t.iter.currentBlock) with hle | hle
          · exact Or.inl (by omega)
          · exact Or.inr ⟨t, List.mem_cons_self, by omega⟩
        · exact Or.inr ⟨x, List.mem_cons_of_mem _ hx, h3⟩
      · rcases h4 with h4 | ⟨j, hj, h4⟩
        · rcases hbest with ⟨-, hb⟩ | ⟨-, hb⟩
          · exact Or.inr ⟨0, by simp, by rw [h4, hb]; rfl⟩
          · exact Or.inl (h4.trans hb)
        · exact Or.inr ⟨j + 1, by simpa using hj, by rw [h4, hshift]⟩
      · intro _ hneg
        have hpos : s'.bestScorer = some i := by
          rcases hbest with ⟨-, hb⟩ | ⟨hle, -⟩
          · exact hb
          · have := htr.maxScore_nonneg
            linarith
        rcases h4 with h4 | ⟨j, hj, h4⟩
        · exact ⟨0, by simp, by rw [h4, hpos]; rfl⟩
        · exact ⟨j + 1, by simpa using hj, by rw [h4, hshift]⟩

/-- **The skip.**  One pivot term is moved to a target that lies in no pivot
term's later block and behind no other term, and beyond every document that is
inside all current blocks and before the other terms. -/
theorem blockMaxSkipAdvance_spec {st : WandState Term}
    (hc : PlacedCursors st.terms st.activeCount) {pivotLen : Nat} (hpos : 0 < pivotLen)
    (hlen : pivotLen ≤ st.terms.length)
    (hactive : ∀ t ∈ st.terms.take pivotLen, t.rem ≠ []) :
    ∃ best ts target, st.terms[best]? = some ts ∧ ts ∈ st.terms.take pivotLen ∧
      (∀ t ∈ st.terms.take pivotLen, target ≤ t.blockLastDocId t.iter.currentBlock + 1) ∧
      (∀ t ∈ st.terms.drop pivotLen, target ≤ t.currentDocId) ∧
      (∀ d, (∀ t ∈ st.terms.take pivotLen, d ≤ t.blockLastDocId t.iter.currentBlock) →
        (∀ t ∈ st.terms.drop pivotLen, d < t.currentDocId) → d < target) ∧
      blockMaxSkipAdvance st pivotLen =
        { st with
          terms := moveCursor st.terms best (seekTermToDoc ts target).2
          activeCount := if (seekTermToDoc ts target).1 then st.activeCount
            else st.activeCount - 1 } := by
  obtain ⟨s, hs⟩ : ∃ s, s = skipScan (st.terms.take pivotLen) 0 ⟨none, -1, uint32Max⟩ := ⟨_, rfl⟩
  have hplaced : ∀ t ∈ st.terms.take pivotLen, t.Placed := fun t ht =>
    hc.placed t (List.mem_of_mem_take ht)
  have hne : st.terms.take pivotLen ≠ [] := by
    apply List.ne_nil_of_length_pos
    rw [List.length_take]
    omega
  obtain ⟨-, hmin, hatt, -, hbest⟩ := skipScan_spec (st.terms.take pivotLen) 0
    ⟨none, -1, uint32Max⟩ hplaced hactive
  rw [← hs] at hmin hatt hbest
  obtain ⟨best, hbl, hbest⟩ := hbest hne (by norm_num)
  rw [Nat.zero_add] at hbest
  -- the nearest block end belongs to a pivot term, so it is not the sentinel
  obtain ⟨t0, ht0⟩ := List.exists_mem_of_ne_nil _ hne
  have hendLt : s.minBlockEnd < uint32Max := by
    obtain ⟨-, -, blk, -, hlast, -, -, -, hlt, -⟩ :=
      (hplaced t0 ht0).exists_currentBlock (hactive t0 ht0)
    have := hmin t0 ht0
    omega
  obtain ⟨tb, htb, htbe⟩ := hatt.resolve_left (by simp only; omega)
  obtain ⟨ts, hts⟩ : ∃ ts, (st.terms.take pivotLen)[best]? = some ts :=
    ⟨_, List.getElem?_eq_getElem hbl⟩
  have hts' : st.terms[best]? = some ts := by
    rw [List.getElem?_take] at hts
    split at hts
    · exact hts
    · cases hts
  obtain ⟨target, htarget⟩ : ∃ target,
    target = capSeekTarget (s.minBlockEnd + 1) st.terms[pivotLen]? := ⟨_, rfl⟩
  have hle : target ≤ s.minBlockEnd + 1 := by
    rw [htarget]
    cases st.terms[pivotLen]? with
    | none => exact le_refl _
    | some next =>
        simp only [capSeekTarget]
        split_ifs <;> omega
  refine ⟨best, ts, target, hts', List.mem_of_getElem? hts, ?_, ?_, ?_, ?_⟩
  · intro t ht
    have := hmin t ht
    omega
  · intro t ht
    cases hnext : st.terms[pivotLen]? with
    | none =>
        rw [List.drop_eq_nil_of_le (List.getElem?_eq_none_iff.1 hnext)] at ht
        simp at ht
    | some next =>
        have hnextLe : next.currentDocId ≤ t.currentDocId := by
          obtain ⟨hi, rfl⟩ := List.getElem?_eq_some_iff.1 hnext
          rw [List.drop_eq_getElem_cons hi] at ht
          rcases List.mem_cons.1 ht with rfl | ht
          · exact le_refl _
          · have hsub := hc.sorted.sublist (List.drop_sublist pivotLen st.terms)
            rw [List.drop_eq_getElem_cons hi] at hsub
            exact (List.pairwise_cons.1 hsub).1 t ht
        rw [htarget, hnext]
        simp only [capSeekTarget]
        split_ifs <;> omega
  · intro d hd hdrop
    have hdend : d ≤ s.minBlockEnd := by
      rw [htbe]
      exact hd tb htb
    cases hnext : st.terms[pivotLen]? with
    | none =>
        rw [htarget, hnext]
        simp only [capSeekTarget]
        omega
    | some next =>
        have hnextLt : d < next.currentDocId := by
          obtain ⟨hi, rfl⟩ := List.getElem?_eq_some_iff.1 hnext
          exact hdrop _ (by rw [List.drop_eq_getElem_cons hi]; exact List.mem_cons_self)
        rw [htarget, hnext]
        simp only [capSeekTarget]
        split_ifs <;> omega
  · have hnotMax : s.minBlockEnd ≠ uint32Max := by omega
    simp only [blockMaxSkipAdvance, ← hs, hbest, hts', if_neg hnotMax, moveCursor, htarget]

namespace Cursors

variable {ref terms : List (TermState Term)} {n : Int}

/-- **Inside the skip.**  An unpassed document before a target that respects
the current blocks of the pivot terms and the other terms' positions is allowed at
most the pivot terms' block maxima. -/
theorem docBound_le_of_lt_skip (hc : Cursors P ref terms n) {pivotLen target e : Nat}
    (htake : ∀ t ∈ terms.take pivotLen, target ≤ t.blockLastDocId t.iter.currentBlock + 1)
    (hdrop : ∀ t ∈ terms.drop pivotLen, target ≤ t.currentDocId) (he : e < target)
    (hu : Unpassed terms e) : termsDocBound P ref e ≤ computeBlockMaxAtPivot terms pivotLen := by
  refine (hc.docBound_le_sum e).trans ?_
  unfold computeBlockMaxAtPivot
  conv_lhs => rw [← List.take_append_drop pivotLen terms]
  rw [List.map_append, List.sum_append]
  have hzero : ((terms.drop pivotLen).map fun ts => ts.docBound P e).sum = 0 := by
    apply List.sum_eq_zero
    intro x hx
    obtain ⟨t, ht, rfl⟩ := List.mem_map.1 hx
    have := hdrop t ht
    exact TermState.docBound_of_forall_ne
      (hc.forall_ne_of_lt hu (List.mem_of_mem_drop ht) (by omega))
  have hle : ((terms.take pivotLen).map fun ts => ts.docBound P e).sum ≤
      ((terms.take pivotLen).map TermState.blockUpper).sum := by
    apply List.sum_le_sum
    intro t ht
    have htm := List.mem_of_mem_take ht
    have htr := hc.ready t htm
    by_cases hex : ∃ p ∈ t.postings, p.docId = e
    · obtain ⟨p, hp, hpe⟩ := hex
      have hrem := hu t htm p hp hpe
      have := htake t ht
      rw [← hpe]
      exact (htr.docBound_eq_blockUpper hrem (by omega)).le
    · push Not at hex
      rw [TermState.docBound_of_forall_ne hex]
      exact htr.blockUpper_nonneg
  linarith

end Cursors

end PgTextsearch.Query
