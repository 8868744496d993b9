import Mathlib.Logic.Relation
import PgTextsearch.Query.WandCursors

/-!
# Progress of the WAND loop

What the main loop of `score_segment_multi_term_bmw` does to its cursors, whatever
the block maxima say: `active_count` counts the cursors that are not exhausted, they
stand in front, sorted by current document, and every iteration that goes on uses up
postings.  Nothing here looks at scores, so it holds from any threshold and also
where block maxima are wrong.

## Main results

* `seekToPivotLoop_rule`, `movePivotTerms_rule` — the two inner loops keep whatever
  single moves keep.
* `wandStep_progress` — one iteration.
* `wandLoop_progress` — every iteration of a search, and the search ends.
-/

namespace PgTextsearch.Query

open PgTextsearch.Postgres PgTextsearch.Segment PgTextsearch.Verified

variable {Term : Type} {P : ScoreParams}

/-! ## Positions in a sorted array -/

/-- The first `activeCount` slots of a sorted array hold active cursors. -/
theorem PlacedCursors.exists_active {terms : List (TermState Term)} {n : Int}
    (hc : PlacedCursors terms n) {i : Nat} (hi : (i : Int) < n) :
    ∃ t, terms[i]? = some t ∧ t.currentDocId ≠ uint32Max := by
  have hcount : i < terms.countP (fun t => decide (t.currentDocId ≠ uint32Max)) := by
    have := hc.active
    omega
  have hle : ∀ t ∈ terms, t.currentDocId ≤ uint32Max := fun t ht =>
    (hc.placed t ht).currentDocId_le
  have hsorted := hc.sorted
  clear hi hc
  induction terms generalizing i with
  | nil => simp at hcount
  | cons a l ih =>
      obtain ⟨hal, hl⟩ := List.pairwise_cons.1 hsorted
      by_cases ha : a.currentDocId = uint32Max
      · -- the head is exhausted, hence so is everything behind it
        exfalso
        have hzero : (a :: l).countP (fun t => decide (t.currentDocId ≠ uint32Max)) = 0 := by
          rw [List.countP_eq_zero]
          intro t ht
          have : t.currentDocId = uint32Max := by
            rcases List.mem_cons.1 ht with rfl | htl
            · exact ha
            · exact le_antisymm (hle t ht) (ha ▸ hal t htl)
          simp [this]
        omega
      · cases i with
        | zero => exact ⟨a, rfl, ha⟩
        | succ i =>
            rw [List.countP_cons_of_pos (by simpa using ha)] at hcount
            exact ih (by omega) (fun t ht => hle t (List.mem_cons_of_mem _ ht)) hl

/-- A move leaves the slots before it alone. -/
theorem moveCursor_getElem?_of_lt {terms : List (TermState Term)} {i j : Nat}
    {ts ts' : TermState Term} (hi : terms[i]? = some ts) (hj : j < i) :
    (moveCursor terms i ts')[j]? = terms[j]? := by
  obtain ⟨hlt, rfl⟩ := List.getElem?_eq_some_iff.1 hi
  have hset : (terms.set i ts')[i]? = some ts' := by simp [hlt]
  rw [moveCursor, restoreOrdering_eq hset, List.take_set_of_le (le_refl i),
    List.getElem?_append_left (by rw [List.length_take]; omega), List.getElem?_take_of_lt hj]

/-- The slots from the moved one on hold the moved cursor and the ones behind
it. -/
theorem mem_drop_moveCursor {terms : List (TermState Term)} {i : Nat} {ts ts' t : TermState Term}
    (hi : terms[i]? = some ts) (ht : t ∈ (moveCursor terms i ts').drop i) :
    t = ts' ∨ t ∈ terms.drop (i + 1) := by
  obtain ⟨hlt, rfl⟩ := List.getElem?_eq_some_iff.1 hi
  have hset : (terms.set i ts')[i]? = some ts' := by simp [hlt]
  have hlen : (terms.take i).length = i := by rw [List.length_take]; omega
  rw [moveCursor, restoreOrdering_eq hset, List.take_set_of_le (le_refl i),
    List.drop_append_of_le_length hlen.ge, List.drop_eq_nil_of_le hlen.le, List.nil_append,
    List.drop_set_of_lt (Nat.lt_succ_self i)] at ht
  rcases List.mem_append.1 ht with hsmall | hrest
  · exact Or.inr ((List.takeWhile_sublist _).subset hsmall)
  · rcases List.mem_cons.1 hrest with rfl | hlarge
    · exact Or.inl rfl
    · exact Or.inr ((List.dropWhile_sublist _).subset hlarge)

/-- Slots below `activeCount` are active, as members of the front of the array. -/
theorem PlacedCursors.active_of_mem_take {terms : List (TermState Term)} {n : Int}
    (hc : PlacedCursors terms n) {k : Nat} (hk : (k : Int) ≤ n) {t : TermState Term}
    (ht : t ∈ terms.take k) : t.rem ≠ [] := by
  obtain ⟨j, hj, hjt⟩ := List.getElem_of_mem ht
  rw [List.length_take] at hj
  obtain ⟨x, hx, hxa⟩ := hc.exists_active (i := j) (by omega)
  have htx : t = x := by
    rw [List.getElem_take] at hjt
    rw [List.getElem?_eq_getElem (by omega), hjt] at hx
    exact Option.some.inj hx
  subst htx
  intro hrem
  exact hxa ((hc.placed t (List.mem_of_mem_take ht)).rem_eq_nil_iff.1 hrem)

theorem le_of_mem_take {terms : List (TermState Term)} {k d : Nat}
    (h : ∀ j < k, ∀ t, terms[j]? = some t → d ≤ t.currentDocId) {t : TermState Term}
    (ht : t ∈ terms.take k) : d ≤ t.currentDocId := by
  obtain ⟨j, hj, hjt⟩ := List.getElem_of_mem ht
  rw [List.length_take] at hj
  rw [List.getElem_take] at hjt
  exact h j (by omega) t (by rw [List.getElem?_eq_getElem (by omega), hjt])

/-- The pivot terms are all active, and no further term stands at or before the
pivot. -/
theorem PlacedCursors.pivot_counts {terms : List (TermState Term)} {n : Int} {bound : ℚ}
    (hc : PlacedCursors terms n) {k d : Nat} (hp : IsPivot terms bound k d) :
    d < uint32Max ∧ (k : Int) ≤ n ∧
      terms.countP (fun t => decide (t.currentDocId ≤ d)) ≤ k := by
  obtain ⟨x, hx, hxd⟩ := hp.exists_eq
  have hxle := (hc.placed x (List.mem_of_mem_take hx)).currentDocId_le
  have hne := hp.doc_ne
  have hlen : (terms.take k).length = k := by
    rw [List.length_take]
    exact min_eq_left hp.le_length
  refine ⟨by omega, ?_, ?_⟩
  · have hall : (terms.take k).countP (fun t => decide (t.currentDocId ≠ uint32Max)) = k := by
      rw [List.countP_eq_length.2, hlen]
      intro t ht
      have := hp.take_le t ht
      simp only [decide_eq_true_eq]
      omega
    have hsplit : terms.countP (fun t => decide (t.currentDocId ≠ uint32Max)) =
        (terms.take k).countP (fun t => decide (t.currentDocId ≠ uint32Max)) +
        (terms.drop k).countP (fun t => decide (t.currentDocId ≠ uint32Max)) := by
      rw [← List.countP_append, List.take_append_drop]
    have := hc.active
    omega
  · have hzero : (terms.drop k).countP (fun t => decide (t.currentDocId ≤ d)) = 0 := by
      rw [List.countP_eq_zero]
      intro t ht
      have := hp.drop_gt t ht
      simp only [decide_eq_true_eq]
      omega
    have hsplit : terms.countP (fun t => decide (t.currentDocId ≤ d)) =
        (terms.take k).countP (fun t => decide (t.currentDocId ≤ d)) +
        (terms.drop k).countP (fun t => decide (t.currentDocId ≤ d)) := by
      rw [← List.countP_append, List.take_append_drop]
    have hle : (terms.take k).countP (fun t => decide (t.currentDocId ≤ d)) ≤
        (terms.take k).length := List.countP_le_length
    omega

/-! ## Seeking to the pivot -/

/-- A seek takes one cursor out of those before the pivot. -/
private theorem countP_move_lt {terms : List (TermState Term)} {i d : Nat}
    {ts ts' : TermState Term} (hi : terms[i]? = some ts) (hts : ts.currentDocId < d)
    (hts' : d ≤ ts'.currentDocId) :
    (moveCursor terms i ts').countP (fun t => decide (t.currentDocId < d)) <
      terms.countP (fun t => decide (t.currentDocId < d)) := by
  obtain ⟨pre, post, heq, -, hperm⟩ := exists_split hi
  rw [(hperm ts').countP_eq, heq]
  simp only [List.countP_append, List.countP_cons, decide_eq_true hts,
    decide_eq_false (Nat.not_lt.2 hts'), if_true, Bool.false_eq_true, if_false]
  omega

/-- A move never adds to the cursors standing at or before a document. -/
private theorem countP_move_le {terms : List (TermState Term)} {i : Nat} (d : Nat)
    {ts ts' : TermState Term} (hi : terms[i]? = some ts)
    (hle : ts.currentDocId ≤ ts'.currentDocId) :
    (moveCursor terms i ts').countP (fun t => decide (t.currentDocId ≤ d)) ≤
      terms.countP (fun t => decide (t.currentDocId ≤ d)) := by
  obtain ⟨pre, post, heq, -, hperm⟩ := exists_split hi
  rw [(hperm ts').countP_eq, heq]
  simp only [List.countP_append, List.countP_cons, decide_eq_true_eq]
  split_ifs <;> omega

/-- In a sorted array with at most `n` cursors at or before `d`, all slots from
`n` on stand behind `d`. -/
private theorem lt_of_countP_le {terms : List (TermState Term)} {n d : Nat}
    (hsorted : terms.Pairwise (fun a b => a.currentDocId ≤ b.currentDocId))
    (hcount : terms.countP (fun t => decide (t.currentDocId ≤ d)) ≤ n) :
    ∀ t ∈ terms.drop n, d < t.currentDocId := by
  induction terms generalizing n with
  | nil => simp
  | cons a l ih =>
      obtain ⟨hal, hl⟩ := List.pairwise_cons.1 hsorted
      by_cases ha : a.currentDocId ≤ d
      · rw [List.countP_cons_of_pos (by simpa using ha)] at hcount
        obtain ⟨m, rfl⟩ : ∃ m, n = m + 1 := ⟨n - 1, by omega⟩
        rw [List.drop_succ_cons]
        exact ih hl (by omega)
      · intro t ht
        rcases List.mem_cons.1 (List.mem_of_mem_drop ht) with rfl | htl
        · exact Nat.not_le.1 ha
        · exact lt_of_lt_of_le (Nat.not_le.1 ha) (hal t htl)

/-- **`seek_to_pivot`** from slot `i` on: it returns, keeps the cursors placed and
whatever seeks to the pivot keep, and either nothing moved or postings were used up;
on success all pivot slots stand at or after the pivot. -/
theorem seekToPivotLoop_rule {Inv : List (TermState Term) → Prop} {pivotLen d : Nat}
    (hmove : ∀ terms i (ts : TermState Term), Inv terms → terms[i]? = some ts → ts.rem ≠ [] →
      ts.Placed → MovesTo ts d (seekTermToDoc ts d) →
      Inv (moveCursor terms i (seekTermToDoc ts d).2))
    (hd : d < uint32Max) (fuel i : Nat) (st : WandState Term)
    (hc : PlacedCursors st.terms st.activeCount) (hinv : Inv st.terms)
    (hlen : (pivotLen : Int) ≤ st.activeCount) (hi : i ≤ pivotLen)
    (hcnt : st.terms.countP (fun t => decide (t.currentDocId ≤ d)) ≤ pivotLen)
    (hpre : ∀ j < i, ∀ t, st.terms[j]? = some t → d ≤ t.currentDocId)
    (hfuel : st.terms.countP (fun t => decide (t.currentDocId < d)) + (pivotLen - i) < fuel) :
    ∃ b st', seekToPivotLoop pivotLen d fuel i st = some (b, st') ∧ st'.heap = st.heap ∧
      PlacedCursors st'.terms st'.activeCount ∧ Inv st'.terms ∧
      (totalRem st'.terms < totalRem st.terms ∨ (st' = st ∧ b = true)) ∧
      (b = true → (pivotLen : Int) ≤ st'.activeCount ∧
        (∀ t ∈ st'.terms.drop pivotLen, d < t.currentDocId) ∧
        ∀ j < pivotLen, ∀ t, st'.terms[j]? = some t → d ≤ t.currentDocId) := by
  induction fuel generalizing i st with
  | zero => omega
  | succ fuel ih =>
      by_cases hend : i < pivotLen
      · obtain ⟨ts, hts, hact⟩ := hc.exists_active (i := i) (by omega)
        have htsr := hc.placed ts (List.mem_of_getElem? hts)
        have hrem : ts.rem ≠ [] := fun h => hact (htsr.rem_eq_nil_iff.1 h)
        by_cases hlt : ts.currentDocId < d
        · -- a cursor before the pivot: seek it
          have hm := seekTermToDoc_movesTo htsr d
          have hcm := hc.move hts hrem hm
          have hinvm := hmove st.terms i ts hinv hts hrem htsr hm
          have hdec := hm.length_lt htsr hrem hlt
          have htot := totalRem_move hts (seekTermToDoc ts d).2
          cases hflag : (seekTermToDoc ts d).1 with
          | true =>
              have hunfold : seekToPivotLoop pivotLen d (fuel + 1) i st =
                  seekToPivotLoop pivotLen d fuel i
                    { st with terms := moveCursor st.terms i (seekTermToDoc ts d).2 } := by
                simp only [seekToPivotLoop, if_pos hend, hts, if_neg hact, if_pos hlt, hflag,
                  if_true, moveCursor]
              rw [hflag, if_pos rfl] at hcm
              have hcount := countP_move_lt hts hlt (hm.le_currentDocId hd.le)
              obtain ⟨b, st', hrun, hheap, h1, h2, h5, h6⟩ := ih i
                { st with terms := moveCursor st.terms i (seekTermToDoc ts d).2 } hcm hinvm hlen hi
                ((countP_move_le d hts (hm.currentDocId_mono htsr)).trans hcnt)
                (fun j hj t ht => hpre j hj t (by
                  rw [← moveCursor_getElem?_of_lt hts hj]; exact ht))
                (by simp only; omega)
              refine ⟨b, st', by rw [hunfold]; exact hrun, hheap, h1, h2, Or.inl ?_, h6⟩
              simp only at h5
              rcases h5 with h5 | ⟨rfl, -⟩
              · omega
              · simp only; omega
          | false =>
              refine ⟨false, { st with
                terms := moveCursor st.terms i (seekTermToDoc ts d).2
                activeCount := st.activeCount - 1 }, ?_, rfl, ?_, hinvm,
                Or.inl (by simp only; omega), by simp⟩
              · simp only [seekToPivotLoop, if_pos hend, hts, if_neg hact, if_pos hlt, hflag,
                  moveCursor]
                simp
              · rw [hflag] at hcm
                simpa using hcm
        · -- already at the pivot: next slot
          have hunfold : seekToPivotLoop pivotLen d (fuel + 1) i st =
              seekToPivotLoop pivotLen d fuel (i + 1) st := by
            simp only [seekToPivotLoop, if_pos hend, hts, if_neg hact, if_neg hlt]
          rw [hunfold]
          apply ih (i + 1) st hc hinv hlen hend hcnt
          · intro j hj t ht
            by_cases hji : j < i
            · exact hpre j hji t ht
            · have : j = i := by omega
              subst this
              rw [hts] at ht
              cases ht
              exact Nat.not_lt.1 hlt
          · omega
      · have heq : i = pivotLen := by omega
        subst heq
        exact ⟨true, st, by simp [seekToPivotLoop], rfl, hc, hinv, Or.inr ⟨rfl, rfl⟩,
          fun _ => ⟨hlen, lt_of_countP_le hc.sorted hcnt, hpre⟩⟩

/-! ## Moving the pivot terms -/

theorem MovesTo.lt_currentDocId {ts : TermState Term} {target d : Nat}
    {r : Bool × TermState Term} (h : MovesTo ts target r) (hd : d < uint32Max)
    (hlt : d < target) : d < r.2.currentDocId := by
  cases hrem : r.2.rem with
  | nil =>
      rw [h.placed.currentDocId_nil hrem]
      exact hd
  | cons q rest =>
      rw [h.placed.currentDocId_cons hrem]
      exact lt_of_lt_of_le hlt (h.le_of_mem (by rw [hrem]; exact List.mem_cons_self))

/-- **The backward loop over the pivot terms.**  Slots below the current one are
not touched by earlier rounds, so every pivot term is moved past the pivot
exactly once. -/
theorem movePivotTerms_rule {Inv : List (TermState Term) → Prop}
    {allowed : TermState Term → Nat → Prop} {d : Nat}
    (op : TermState Term → Bool × TermState Term)
    (hop : ∀ ts : TermState Term, ts.Placed → ts.rem ≠ [] → ts.currentDocId = d →
      ∃ target, allowed ts target ∧ d < target ∧ MovesTo ts target (op ts))
    (hmove : ∀ terms i target (ts : TermState Term), Inv terms → allowed ts target →
      terms[i]? = some ts → ts.rem ≠ [] → ts.Placed → MovesTo ts target (op ts) →
      Inv (moveCursor terms i (op ts).2))
    (hd : d < uint32Max) (i : Nat) (st : WandState Term)
    (hc : PlacedCursors st.terms st.activeCount) (hinv : Inv st.terms)
    (hi : i ≤ st.terms.length)
    (hpre : ∀ j < i, ∀ t, st.terms[j]? = some t → t.currentDocId = d)
    (hpost : ∀ t ∈ st.terms.drop i, d < t.currentDocId) :
    (movePivotTerms op d i st).heap = st.heap ∧
      PlacedCursors (movePivotTerms op d i st).terms (movePivotTerms op d i st).activeCount ∧
      Inv (movePivotTerms op d i st).terms ∧
      (∀ t ∈ (movePivotTerms op d i st).terms, d < t.currentDocId) ∧
      totalRem (movePivotTerms op d i st).terms + i ≤ totalRem st.terms := by
  induction i generalizing st with
  | zero =>
      refine ⟨rfl, hc, hinv, ?_, le_refl _⟩
      simpa [movePivotTerms] using hpost
  | succ i ih =>
      obtain ⟨ts, hts⟩ : ∃ ts, st.terms[i]? = some ts := ⟨_, List.getElem?_eq_getElem hi⟩
      have hcur := hpre i (Nat.lt_succ_self i) ts hts
      have htsr := hc.placed ts (List.mem_of_getElem? hts)
      have hrem : ts.rem ≠ [] := by
        intro h
        rw [htsr.currentDocId_nil h] at hcur
        omega
      obtain ⟨target, hallowed, htarget, hm⟩ := hop ts htsr hrem hcur
      obtain ⟨st', hst'⟩ : ∃ st' : WandState Term, st' = { st with
        terms := moveCursor st.terms i (op ts).2
        activeCount := if (op ts).1 then st.activeCount else st.activeCount - 1 } := ⟨_, rfl⟩
      have hunfold : movePivotTerms op d (i + 1) st = movePivotTerms op d i st' := by
        simp only [movePivotTerms, hts, if_pos hcur, hst', moveCursor]
      have hheap : st'.heap = st.heap := by rw [hst']
      have htot := totalRem_move hts (op ts).2
      have hlt := hm.length_lt htsr hrem (by omega)
      have hlen : (moveCursor st.terms i (op ts).2).length = st.terms.length := by
        rw [moveCursor, (restoreOrdering_perm _ _).length_eq, List.length_set]
      rw [hunfold]
      obtain ⟨h1, h2, h3, h5, h6⟩ := ih st'
        (by rw [hst']; exact hc.move hts hrem hm)
        (by rw [hst']; exact hmove st.terms i target ts hinv hallowed hts hrem htsr hm)
        (by rw [hst']; simp only [hlen]; omega)
        (by
          rw [hst']
          intro j hj t ht
          rw [moveCursor_getElem?_of_lt hts hj] at ht
          exact hpre j (by omega) t ht)
        (by
          rw [hst']
          intro t ht
          rcases mem_drop_moveCursor hts ht with rfl | ht
          · exact hm.lt_currentDocId hd htarget
          · exact hpost t ht)
      refine ⟨h1.trans hheap, h2, h3, h5, ?_⟩
      rw [hst'] at h6
      simp only at h6
      rw [hst']
      omega

/-! ## The block-max skip -/

/-- **The block-max skip** moves one cursor; it uses up postings when all pivot terms
stand on one document. -/
theorem blockMaxSkipAdvance_rule {Inv : List (TermState Term) → Prop} {st : WandState Term}
    (hmove : ∀ i target (ts : TermState Term), st.terms[i]? = some ts → ts.rem ≠ [] →
      ts.Placed → MovesTo ts target (seekTermToDoc ts target) →
      Inv (moveCursor st.terms i (seekTermToDoc ts target).2))
    (hc : PlacedCursors st.terms st.activeCount) {pivotLen : Nat} (hpos : 0 < pivotLen)
    (hlen : pivotLen ≤ st.terms.length) (hact : (pivotLen : Int) ≤ st.activeCount) :
    PlacedCursors (blockMaxSkipAdvance st pivotLen).terms
        (blockMaxSkipAdvance st pivotLen).activeCount ∧
      Inv (blockMaxSkipAdvance st pivotLen).terms ∧
      totalRem (blockMaxSkipAdvance st pivotLen).terms ≤ totalRem st.terms ∧
      ∀ d, (∀ t ∈ st.terms.take pivotLen, t.currentDocId = d) →
        (∀ t ∈ st.terms.drop pivotLen, d < t.currentDocId) →
        totalRem (blockMaxSkipAdvance st pivotLen).terms < totalRem st.terms := by
  have hactive : ∀ t ∈ st.terms.take pivotLen, t.rem ≠ [] := fun t ht =>
    hc.active_of_mem_take hact ht
  obtain ⟨best, ts, target, hts, htsm, htake, hdrop, hbeyond, heq⟩ :=
    blockMaxSkipAdvance_spec hc hpos hlen hactive
  have htsr := hc.placed ts (List.mem_of_getElem? hts)
  have hm := seekTermToDoc_movesTo htsr target
  have htot := totalRem_move hts (seekTermToDoc ts target).2
  have hle := hm.length_le
  rw [heq]
  refine ⟨hc.move hts (hactive ts htsm) hm, hmove best target ts hts (hactive ts htsm) htsr hm,
    by simp only; omega, ?_⟩
  intro d htaked hdropd
  have hlt : d < target := by
    apply hbeyond d _ hdropd
    intro t ht
    obtain ⟨-, -, blk, -, hlast, -, -, hcur, -, -⟩ :=
      (hc.placed t (List.mem_of_mem_take ht)).exists_currentBlock (hactive t ht)
    rw [hlast, ← htaked t ht]
    exact hcur
  have hdec := hm.length_lt htsr (hactive ts htsm) (by rw [htaked ts htsm]; exact hlt)
  simp only
  omega

/-! ## Cursors move forward only -/

/-- One cursor is moved to a later posting or to its end, then the order is restored. -/
inductive ForwardMove (terms : List (TermState Term)) : List (TermState Term) → Prop where
  | move {i : Nat} {ts ts' : TermState Term} (slot : terms[i]? = some ts)
      (static : ts'.static = ts.static) (rest : ts'.rem <:+ ts.rem)
      (forward : ts.currentDocId ≤ ts'.currentDocId) :
      ForwardMove terms (moveCursor terms i ts')

/-- The cursors get from one array to the other by forward moves. -/
def Forward : List (TermState Term) → List (TermState Term) → Prop :=
  Relation.ReflTransGen ForwardMove

theorem Forward.move {start terms : List (TermState Term)} (h : Forward start terms) {i : Nat}
    {ts : TermState Term} (hi : terms[i]? = some ts) (hr : ts.Placed) {target : Nat}
    {r : Bool × TermState Term} (hm : MovesTo ts target r) :
    Forward start (moveCursor terms i r.2) :=
  Relation.ReflTransGen.tail h
    (ForwardMove.move hi hm.static hm.rem_suffix (hm.currentDocId_mono hr))

/-- Leaving a document of another tenant passes this document, or a block whose tenant
bytes differ from the tenant's. -/
def LeavesForeign (tenantId : Nat) (ts : TermState Term) (target : Nat) : Prop :=
  ∀ p ∈ ts.rem, p.docId < target → p.docId ≤ ts.currentDocId ∨
    ∃ blk ∈ ts.blocks, p ∈ blk.postings ∧ blk.skip.tenantMode = .single ∧
      blk.skip.tenantIdLow ≠ tenantId % 65536

/-- Leaving a document of another tenant goes past it. -/
theorem leaveForeignDocument_movesTo (tenantId : Nat) {ts : TermState Term} (hr : ts.Placed)
    (hne : ts.rem ≠ []) : ∃ target, ts.currentDocId < target ∧
      LeavesForeign tenantId ts target ∧
      MovesTo ts target (leaveForeignDocument tenantId ts) := by
  unfold leaveForeignDocument
  simp only
  split
  case isTrue hforeign =>
    obtain ⟨hfound, -, blk, hblk, hlast, -, -, hcur, -, hin⟩ := hr.exists_currentBlock hne
    have hget : ts.iter.dictEntry.blocks.getD ts.iter.currentBlock default = blk := by
      rw [TermState.blocks, if_pos hfound] at hblk
      rw [List.getD_eq_getElem?_getD, hblk]
      rfl
    simp only [hget, Bool.and_eq_true, beq_iff_eq, bne_iff_ne] at hforeign
    refine ⟨ts.blockLastDocId ts.iter.currentBlock + 1, by omega, ?_, seekTermToDoc_movesTo hr _⟩
    intro p hp hlt
    exact Or.inr ⟨blk, List.mem_of_getElem? hblk, hin p hp (by omega), hforeign.1.2, hforeign.2⟩
  case isFalse =>
    refine ⟨ts.currentDocId + 1, Nat.lt_succ_self _, ?_, advanceTermIterator_movesTo hr hne⟩
    exact fun p _ hlt => Or.inl (Nat.le_of_lt_succ hlt)

/-! ## One iteration -/

/-- The outcome of one iteration: the cursors are placed, they only moved forward, and
if the loop goes on postings were used up. -/
structure Progresses (st : WandState Term) (goesOn : Bool) (st' : WandState Term) : Prop where
  cursors : PlacedCursors st'.terms st'.activeCount
  forward : Forward st.terms st'.terms
  decreases : goesOn = true → totalRem st'.terms < totalRem st.terms

/-- Moving all pivot terms off the pivot. -/
private theorem progresses_movePivotTerms {st st₁ : WandState Term} {pivotLen d : Nat}
    (op : TermState Term → Bool × TermState Term)
    (hop : ∀ ts : TermState Term, ts.Placed → ts.rem ≠ [] → ∃ target, ts.currentDocId < target ∧
      MovesTo ts target (op ts))
    (hd : d < uint32Max) (hc : PlacedCursors st₁.terms st₁.activeCount)
    (hforward : Forward st.terms st₁.terms) (hle : totalRem st₁.terms ≤ totalRem st.terms)
    (hpos : 0 < pivotLen) (hlen : pivotLen ≤ st₁.terms.length)
    (htake : ∀ t ∈ st₁.terms.take pivotLen, t.currentDocId = d)
    (hdrop : ∀ t ∈ st₁.terms.drop pivotLen, d < t.currentDocId) :
    Progresses st true (movePivotTerms op d pivotLen st₁) := by
  obtain ⟨-, hplaced, hinv, -, htotal⟩ := @movePivotTerms_rule _ _ (fun _ _ => True) d op
    (fun ts hr hne hcur => by
      obtain ⟨target, hlt, hm⟩ := hop ts hr hne
      exact ⟨target, trivial, hcur ▸ hlt, hm⟩)
    (fun terms i target ts hinv _ hts _ hr hm => Forward.move hinv hts hr hm) hd pivotLen st₁ hc
    hforward
    hlen (fun j hj t ht => htake t (List.mem_of_getElem? (by
      rw [List.getElem?_take_of_lt hj]; exact ht))) hdrop
  exact ⟨hplaced, hinv, fun _ => by omega⟩

/-- **One iteration** of the main loop returns and makes progress. -/
theorem wandStep_progress (P : ScoreParams) (reader : SegmentReader Term)
    (tenantId maxDocId : Nat) {st : WandState Term}
    (hc : PlacedCursors st.terms st.activeCount) :
    ∃ goesOn st', wandStep P reader tenantId maxDocId st = some (goesOn, st') ∧
      Progresses st goesOn st' := by
  have hstop : Progresses st false st := ⟨hc, Relation.ReflTransGen.refl, fun h => by cases h⟩
  unfold wandStep
  split
  case isFalse => exact ⟨false, st, rfl, hstop⟩
  case isTrue =>
    simp only
    rcases findWandPivot_spec (tpTopkThreshold st.heap) hc.placed hc.sorted with
      ⟨k, d, hfind, hpiv⟩ | ⟨hfind, -⟩
    · obtain ⟨hd, hk, hcnt⟩ := hc.pivot_counts hpiv
      rw [hfind]
      simp only
      split
      case isTrue => exact ⟨false, st, rfl, hstop⟩
      case isFalse =>
        have hle : st.terms.countP (fun t => decide (t.currentDocId < d)) ≤ st.terms.length :=
          List.countP_le_length
        obtain ⟨b, st₁, hseek, -, hc₁, hforward, hprog, hok⟩ := seekToPivotLoop_rule
          (fun terms i ts hinv hts _ hr hm => Forward.move hinv hts hr hm) hd
          (k + st.terms.length + 1) 0 st hc Relation.ReflTransGen.refl hk (Nat.zero_le k) hcnt
          (fun j hj => absurd hj (Nat.not_lt_zero j)) (by omega)
        have hseek' : seekToPivot st k d = some (b, st₁) := hseek
        have hle₁ : totalRem st₁.terms ≤ totalRem st.terms := by
          rcases hprog with h | ⟨rfl, -⟩
          · exact h.le
          · exact le_refl _
        rw [hseek']
        cases b with
        | false =>
            refine ⟨true, st₁, rfl, hc₁, hforward, fun _ => ?_⟩
            rcases hprog with h | ⟨-, h⟩
            · exact h
            · cases h
        | true =>
            obtain ⟨hact₁, hdrop₁, hpre₁⟩ := hok rfl
            have hlen₁ : k ≤ st₁.terms.length := by
              have hcount : st₁.terms.countP (fun t => decide (t.currentDocId ≠ uint32Max)) ≤
                st₁.terms.length := List.countP_le_length
              have := hc₁.active
              omega
            -- if nothing moved, the pivot terms stand exactly on the pivot
            have hstill : st₁ = st → ∀ t ∈ st₁.terms.take k, t.currentDocId = d := by
              intro hsame t ht
              exact le_antisymm (hpiv.take_le t (hsame ▸ ht)) (le_of_mem_take hpre₁ ht)
            simp only
            split
            case isTrue =>
              obtain ⟨hc₂, hforward₂, hle₂, hlt₂⟩ := blockMaxSkipAdvance_rule
                (fun i target ts hts _ hr hm => Forward.move hforward hts hr hm) hc₁ hpiv.pos hlen₁
                hact₁
              refine ⟨true, _, rfl, hc₂, hforward₂, fun _ => ?_⟩
              rcases hprog with h | ⟨hsame, -⟩
              · omega
              · have := hlt₂ d (hstill hsame) hdrop₁
                omega
            case isFalse =>
              split
              case isTrue hverify =>
                refine ⟨true, st₁, rfl, hc₁, hforward, fun _ => ?_⟩
                rcases hprog with h | ⟨hsame, -⟩
                · exact h
                · exfalso
                  rw [Bool.not_eq_true', verifyPivotAlignment, List.all_eq_false] at hverify
                  obtain ⟨t, ht, hne⟩ := hverify
                  exact hne (by simpa using hstill hsame t ht)
              case isFalse hverify =>
                have htake₁ : ∀ t ∈ st₁.terms.take k, t.currentDocId = d := by
                  intro t ht
                  rw [Bool.not_eq_true', Bool.not_eq_false, verifyPivotAlignment,
                    List.all_eq_true] at hverify
                  simpa using hverify t ht
                split
                · exact ⟨true, _, rfl, progresses_movePivotTerms _
                    (fun ts hr hne => by
                      obtain ⟨target, hlt, -, hm⟩ := leaveForeignDocument_movesTo tenantId hr hne
                      exact ⟨target, hlt, hm⟩) hd hc₁ hforward
                    hle₁ hpiv.pos hlen₁ htake₁ hdrop₁⟩
                · exact ⟨true, _, rfl, progresses_movePivotTerms _
                    (fun ts hr hne => ⟨_, Nat.lt_succ_self _, advanceTermIterator_movesTo hr hne⟩)
                    hd hc₁ hforward hle₁ hpiv.pos hlen₁ htake₁ hdrop₁⟩
    · rw [hfind]
      exact ⟨false, st, rfl, hstop⟩

/-! ## The cursors at the start -/

theorem compareTermDocId_isComparator : IsComparator
    (compareTermDocId : TermState Term → TermState Term → Int) where
  total := by
    intro a b
    simp only [compareTermDocId]
    split_ifs <;> omega
  trans := by
    intro a b c
    simp only [compareTermDocId]
    split_ifs <;> omega

/-- Sorting placed cursors. -/
theorem placedCursors_sort (qs : Qsort) {terms : List (TermState Term)} {n : Int}
    (hplaced : ∀ ts ∈ terms, ts.Placed)
    (hactive : n = terms.countP (fun ts => ts.currentDocId ≠ uint32Max)) :
    PlacedCursors (qs.sort compareTermDocId terms) n where
  placed := fun ts hts => hplaced ts ((qs.perm _ _).mem_iff.1 hts)
  sorted := by
    refine (qs.sorted _ _ compareTermDocId_isComparator).imp ?_
    intro a b hab
    simp only [compareTermDocId] at hab
    split_ifs at hab <;> omega
  active := by
    rw [hactive, (qs.perm _ _).countP_eq]

section Search

variable [DecidableEq Term] {query : List (TermState Term)}

/-- The cursors after initialisation, in query order. -/
def initCursors (P : ScoreParams) (reader : SegmentReader Term) (query : List (TermState Term)) :
    List (TermState Term) :=
  query.map fun q => (initTermState P reader q).2

/-- The cursors after initialisation and sorting. -/
theorem placedCursors_init (qs : Qsort) (P : ScoreParams) (reader : SegmentReader Term)
    (hqf : ∀ q ∈ query, 0 ≤ q.queryFreq)
    (hwf : ∀ q ∈ query, ∀ e, reader.findTerm q.term = some e → e.WellFormed) :
    PlacedCursors (qs.sort compareTermDocId (initCursors P reader query))
      ((query.map (initTermState P reader)).countP (·.1) : Nat) := by
  have hinit : ∀ q ∈ query, Initialised P reader q (initTermState P reader q) := fun q hq =>
    initTermState_initialised P reader q (hqf q hq) (hwf q hq)
  apply placedCursors_sort
  · intro ts hts
    obtain ⟨q, hq, rfl⟩ := List.mem_map.1 hts
    exact (hinit q hq).placed
  · rw [initCursors, List.countP_map, List.countP_map]
    congr 1
    apply List.countP_congr
    intro q hq
    simp only [Function.comp_apply]
    rw [(hinit q hq).flag, ne_eq, (hinit q hq).placed.rem_eq_nil_iff]
    simp

omit [DecidableEq Term] in
/-- One iteration of the loop that seeks the cursors to the first document of a range. -/
def seekToMin (minDocId : Nat) (ts : TermState Term) : Bool × TermState Term :=
  if !ts.found || ts.iter.finished then (true, ts)
  else if ts.currentDocId < minDocId then seekTermToDoc ts minDocId
  else (true, ts)

omit [DecidableEq Term] in
/-- It gives up the postings before the range. -/
theorem seekToMin_spec (minDocId : Nat) {ts : TermState Term} (hr : ts.Placed) :
    (seekToMin minDocId ts).2.Placed ∧ (seekToMin minDocId ts).2.static = ts.static ∧
      (seekToMin minDocId ts).2.rem = ts.rem.dropWhile (·.docId < minDocId) := by
  -- nothing is before a cursor that stays
  have hstay : minDocId ≤ ts.currentDocId ∨ ts.rem = [] →
      ts.rem = ts.rem.dropWhile (·.docId < minDocId) := by
    intro hcur
    cases hrem : ts.rem with
    | nil => rfl
    | cons p rest =>
        have hp := hr.currentDocId_cons hrem
        rw [hrem, or_iff_left (List.cons_ne_nil p rest)] at hcur
        rw [List.dropWhile_cons_of_neg (by simp only [decide_eq_true_eq]; omega)]
  unfold seekToMin
  split
  case isTrue hexhausted =>
    refine ⟨hr, rfl, hstay (Or.inr ?_)⟩
    rw [hr.rem_eq_nil_iff, TermState.currentDocId, if_pos hexhausted]
  case isFalse =>
    split
    · have hm := seekTermToDoc_movesTo hr minDocId
      exact ⟨hm.placed, hm.static, hm.rem⟩
    case isFalse hge => exact ⟨hr, rfl, hstay (Or.inl (Nat.not_lt.1 hge))⟩

omit [DecidableEq Term] in
theorem seekTermsToMin_eq (minDocId : Nat) (terms : List (TermState Term)) (n : Int) :
    seekTermsToMin minDocId terms n = (terms.map fun ts => (seekToMin minDocId ts).2,
      n - (terms.map (seekToMin minDocId)).countP (fun m => !m.1)) := by
  have hmoved : terms.map (fun ts => (seekToMin minDocId ts).2) =
      (terms.map (seekToMin minDocId)).map (·.2) := by
    rw [List.map_map]
    rfl
  rw [hmoved]
  rfl

omit [DecidableEq Term] in
/-- Seeking all cursors to the first document of a range. -/
theorem placedCursors_seekTermsToMin (qs : Qsort) (minDocId : Nat) {terms : List (TermState Term)}
    {n : Int} (hc : PlacedCursors terms n) :
    PlacedCursors (qs.sort compareTermDocId (seekTermsToMin minDocId terms n).1)
      (seekTermsToMin minDocId terms n).2 := by
  -- a cursor that is given up is one that was counted
  have hone : ∀ ts : TermState Term, ts.Placed →
      ((seekToMin minDocId ts).2.currentDocId ≠ uint32Max ↔
        ts.currentDocId ≠ uint32Max ∧ (seekToMin minDocId ts).1 = true) ∧
      ((seekToMin minDocId ts).1 = false → ts.currentDocId ≠ uint32Max) := by
    intro ts hr
    unfold seekToMin
    split
    case isTrue hexhausted =>
      exact ⟨by simp, by simp⟩
    case isFalse hlive =>
      have hcur : ts.currentDocId ≠ uint32Max := by
        rw [ne_eq, ← hr.rem_eq_nil_iff]
        simp only [Bool.or_eq_true, Bool.not_eq_true', not_or, Bool.not_eq_false,
          Bool.not_eq_true] at hlive
        rw [TermState.rem, if_pos hlive.1]
        exact (hr.positioned hlive.1).rem_ne_nil hlive.2
      split
      · have hm := seekTermToDoc_movesTo hr minDocId
        refine ⟨?_, fun _ => hcur⟩
        rw [ne_eq, ← hm.placed.rem_eq_nil_iff, ← ne_eq, ← hm.flag]
        exact ⟨fun h => ⟨hcur, h⟩, fun h => h.2⟩
      · exact ⟨by simp, fun _ => hcur⟩
  rw [seekTermsToMin_eq]
  have hplaced := hc.placed
  apply placedCursors_sort
  · intro ts hts
    obtain ⟨ts', hin, rfl⟩ := List.mem_map.1 hts
    exact (seekToMin_spec minDocId (hplaced ts' hin)).1
  · rw [hc.active]
    clear hc
    induction terms with
    | nil => rfl
    | cons ts rest ih =>
        have hrest := ih fun t ht => hplaced t (List.mem_cons_of_mem _ ht)
        obtain ⟨hlive, hgone⟩ := hone ts (hplaced ts List.mem_cons_self)
        simp only [List.map_cons, List.countP_cons, hlive]
        simp only [List.countP_map] at hrest ⊢
        by_cases hcur : ts.currentDocId = uint32Max <;> cases hflag : (seekToMin minDocId ts).1
        · exact absurd hcur (hgone hflag)
        · simp [hcur] at hrest ⊢
          omega
        · simp [hcur] at hrest ⊢
          omega
        · simp [hcur] at hrest ⊢
          omega

/-- The variables of the main loop when it is first reached. -/
def wandStart (qs : Qsort) (P : ScoreParams) (reader : SegmentReader Term) (heap : TopKHeap)
    (query : List (TermState Term)) (minDocId : Nat) : WandState Term :=
  let sorted := qs.sort compareTermDocId (initCursors P reader query)
  let activeCount : Int := (query.map (initTermState P reader)).countP (·.1)
  if minDocId > 0 then
    let moved := seekTermsToMin minDocId sorted activeCount
    ⟨heap, qs.sort compareTermDocId moved.1, moved.2⟩
  else ⟨heap, sorted, activeCount⟩

/-- The cursors of the main loop, up to order: sought to the range. -/
theorem wandStart_terms (qs : Qsort) (P : ScoreParams) (reader : SegmentReader Term)
    (heap : TopKHeap) (query : List (TermState Term)) (minDocId : Nat) :
    (wandStart qs P reader heap query minDocId).terms.Perm
      ((qs.sort compareTermDocId (initCursors P reader query)).map fun ts =>
        (seekToMin minDocId ts).2) := by
  unfold wandStart
  simp only
  split
  case isTrue =>
    rw [seekTermsToMin_eq]
    exact qs.perm _ _
  case isFalse hzero =>
    have hstay : ∀ ts : TermState Term, (seekToMin minDocId ts).2 = ts := by
      intro ts
      unfold seekToMin
      rw [if_neg (show ¬ ts.currentDocId < minDocId by omega)]
      split <;> rfl
    simp only [hstay, List.map_id']
    exact List.Perm.refl _

theorem scoreSegmentMultiTermBmw_eq (qs : Qsort) (P : ScoreParams) (reader : SegmentReader Term)
    (heap : TopKHeap) (query : List (TermState Term)) (tenantId minDocId maxDocId : Nat) :
    scoreSegmentMultiTermBmw qs P reader heap query tenantId minDocId maxDocId =
      if (query.map (initTermState P reader)).countP (·.1) = 0 then some heap
      else (wandLoop P reader tenantId maxDocId
        (totalRem (wandStart qs P reader heap query minDocId).terms + 1)
        (wandStart qs P reader heap query minDocId)).map (·.heap) := by
  have hinits : (query.map (initTermState P reader)).map (·.2) = initCursors P reader query := by
    simp [initCursors, List.map_map, Function.comp_def]
  simp only [scoreSegmentMultiTermBmw, wandStart, hinits, totalRem, Nat.cast_eq_zero]
  split
  · rfl
  · split <;> rfl

theorem placedCursors_wandStart (qs : Qsort) (P : ScoreParams) (reader : SegmentReader Term)
    (heap : TopKHeap) (minDocId : Nat) (hqf : ∀ q ∈ query, 0 ≤ q.queryFreq)
    (hwf : ∀ q ∈ query, ∀ e, reader.findTerm q.term = some e → e.WellFormed) :
    PlacedCursors (wandStart qs P reader heap query minDocId).terms
      (wandStart qs P reader heap query minDocId).activeCount := by
  have hinit := placedCursors_init qs P reader hqf hwf
  unfold wandStart
  simp only
  split
  · exact placedCursors_seekTermsToMin qs minDocId hinit
  · exact hinit

omit [DecidableEq Term] in
/-- The main loop ends from placed cursors. -/
theorem wandLoop_isSome (P : ScoreParams) (reader : SegmentReader Term)
    (tenantId maxDocId fuel : Nat) {st : WandState Term}
    (hc : PlacedCursors st.terms st.activeCount) (hfuel : totalRem st.terms < fuel) :
    (wandLoop P reader tenantId maxDocId fuel st).isSome := by
  induction fuel generalizing st with
  | zero => omega
  | succ fuel ih =>
      obtain ⟨goesOn, st', hstep, hprog⟩ := wandStep_progress P reader tenantId maxDocId hc
      cases goesOn with
      | false => simp [wandLoop, hstep]
      | true =>
          have := hprog.decreases rfl
          simp only [wandLoop, hstep]
          exact ih hprog.cursors (by omega)

/-! ## The loop heads -/

omit [DecidableEq Term] in
/-- The cursor has no posting left. -/
def TermState.exhausted (ts : TermState Term) : Bool := !ts.found || ts.iter.finished

omit [DecidableEq Term] in
theorem TermState.Placed.exhausted_iff {ts : TermState Term} (hr : ts.Placed) :
    ts.exhausted = true ↔ ts.currentDocId = uint32Max := by
  constructor
  · intro h
    rw [TermState.exhausted] at h
    rw [TermState.currentDocId, if_pos h]
  · intro h
    have hnil := hr.rem_eq_nil_iff.2 h
    by_contra hlive
    simp only [TermState.exhausted, Bool.or_eq_true, Bool.not_eq_true', not_or, Bool.not_eq_false,
      Bool.not_eq_true] at hlive
    rw [TermState.rem, if_pos hlive.1] at hnil
    exact (hr.positioned hlive.1).rem_ne_nil hlive.2 hnil

omit [DecidableEq Term] in
/-- The state at the head of some iteration. -/
def LoopHead (P : ScoreParams) (reader : SegmentReader Term) (tenantId maxDocId : Nat) :
    WandState Term → WandState Term → Prop :=
  Relation.ReflTransGen fun st st' => wandStep P reader tenantId maxDocId st = some (true, st')

omit [DecidableEq Term] in
/-- **The cursor invariant**: `active_count` counts the cursors that are not exhausted,
these are in the first slots, and the slots are sorted by current document. -/
structure HeadInvariant (st : WandState Term) : Prop where
  count : st.activeCount = st.terms.countP (fun ts => !ts.exhausted)
  front : ∀ (i : Nat) (ts : TermState Term), st.terms[i]? = some ts →
    (ts.exhausted = false ↔ (i : Int) < st.activeCount)
  sorted : st.terms.Pairwise (fun a b => a.currentDocId ≤ b.currentDocId)

omit [DecidableEq Term] in
theorem headInvariant_of_placed {st : WandState Term}
    (hc : PlacedCursors st.terms st.activeCount) : HeadInvariant st where
  count := by
    rw [hc.active]
    congr 1
    apply List.countP_congr
    intro ts hts
    have hiff := (hc.placed ts hts).exhausted_iff
    rw [decide_eq_true_eq, Bool.not_eq_true', ne_eq, ← hiff, Bool.not_eq_true]
  front := by
    intro i ts hi
    have hmem := List.mem_of_getElem? hi
    have hiff := (hc.placed ts hmem).exhausted_iff
    rw [← Bool.not_eq_true, hiff]
    constructor
    · intro hlive
      by_contra hge
      -- the slots in front of it would all be active too
      obtain ⟨hlt, hts⟩ := List.getElem?_eq_some_iff.1 hi
      have hall : ∀ t ∈ st.terms.take (i + 1), decide (t.currentDocId ≠ uint32Max) = true := by
        intro t ht
        obtain ⟨j, hj, rfl⟩ := List.getElem_of_mem ht
        rw [List.length_take] at hj
        rw [List.getElem_take, decide_eq_true_eq]
        have hle : st.terms[j].currentDocId ≤ st.terms[i].currentDocId := by
          rcases Nat.lt_or_ge j i with hji | hji
          · exact List.pairwise_iff_getElem.1 hc.sorted j i (by omega) hlt hji
          · have : j = i := by omega
            subst this
            exact le_refl _
        rw [hts] at hle
        have := (hc.placed ts hmem).currentDocId_le
        omega
      have hfront := List.countP_eq_length.2 hall
      rw [List.length_take] at hfront
      have hsub : (st.terms.take (i + 1)).countP (fun t => decide (t.currentDocId ≠ uint32Max)) ≤
          st.terms.countP (fun t => decide (t.currentDocId ≠ uint32Max)) :=
        (List.take_sublist (i + 1) st.terms).countP_le
      have := hc.active
      omega
    · intro hlt
      obtain ⟨t, ht, hlive⟩ := hc.exists_active hlt
      rw [hi] at ht
      cases ht
      exact hlive
  sorted := hc.sorted

/-- **The WAND loop makes progress.**  For well-formed posting lists, whatever their
block maxima, any query frequencies that are not negative, any starting heap and any
tenant range, the search ends; at the head of every iteration the cursor invariant
holds, and the iteration returns, moves cursors forward only, and uses up postings
unless it is the last. -/
theorem wandLoop_progress (qs : Qsort) (P : ScoreParams) (reader : SegmentReader Term)
    (heap : TopKHeap) (query : List (TermState Term)) (tenantId minDocId maxDocId : Nat)
    (hqf : ∀ q ∈ query, 0 ≤ q.queryFreq)
    (hwf : ∀ q ∈ query, ∀ e, reader.findTerm q.term = some e → e.WellFormed) :
    (scoreSegmentMultiTermBmw qs P reader heap query tenantId minDocId maxDocId).isSome ∧
      ∀ st, LoopHead P reader tenantId maxDocId (wandStart qs P reader heap query minDocId) st →
        HeadInvariant st ∧ ∃ goesOn st', wandStep P reader tenantId maxDocId st =
            some (goesOn, st') ∧ Forward st.terms st'.terms ∧
          (goesOn = true → totalRem st'.terms < totalRem st.terms) := by
  have hstart := placedCursors_wandStart qs P reader heap minDocId hqf hwf
  constructor
  · rw [scoreSegmentMultiTermBmw_eq]
    split
    · rfl
    · rw [Option.isSome_map]
      exact wandLoop_isSome P reader tenantId maxDocId _ hstart (Nat.lt_succ_self _)
  · intro st hhead
    have hc : PlacedCursors st.terms st.activeCount := by
      induction hhead with
      | refl => exact hstart
      | tail _ hstep ih =>
          obtain ⟨goesOn, st', hstep', hprog⟩ := wandStep_progress P reader tenantId maxDocId ih
          rw [hstep] at hstep'
          cases hstep'
          exact hprog.cursors
    obtain ⟨goesOn, st', hstep, hprog⟩ := wandStep_progress P reader tenantId maxDocId hc
    exact ⟨headInvariant_of_placed hc, goesOn, st', hstep, hprog.forward, hprog.decreases⟩

end Search

/-! ### A segment of two terms -/

/-- A block with a single posting. -/
def singletonBlock (docId frequency : Nat) (fieldnorm : Fin 256) : Block :=
  ⟨⟨docId, 1, frequency, fieldnorm, .none, 0⟩, [⟨docId, frequency, fieldnorm⟩]⟩

/-- Two terms over the documents 0 and 3; the first has two blocks. -/
def twoTermReader : SegmentReader String where
  rootBlock := 7
  dictionary :=
    [("cat", ⟨2, 2, [singletonBlock 0 2 5, singletonBlock 3 1 7]⟩),
      ("dog", ⟨1, 1, [singletonBlock 3 1 7]⟩)]
  numDocs := 4
  ctids := [⟨0, 1⟩, ⟨0, 2⟩, ⟨0, 3⟩, ⟨0, 4⟩]
  tenantIds := none

/-- A term state as the caller fills it in. -/
def freshTermState (term : String) (idf : ℚ) (queryFreq : Int) : TermState String :=
  ⟨term, idf, queryFreq, 0, false, absentIterator, none, none⟩

/-- The query "cat dog dog". -/
def twoTermQuery : List (TermState String) :=
  [freshTermState "cat" (1 / 2) 1, freshTermState "dog" 1 2]

theorem twoTermQuery_entries (q : TermState String) (hq : q ∈ twoTermQuery)
    (e : DictEntry) (he : twoTermReader.findTerm q.term = some e) :
    e = ⟨2, 2, [singletonBlock 0 2 5, singletonBlock 3 1 7]⟩ ∨
      e = ⟨1, 1, [singletonBlock 3 1 7]⟩ := by
  have hcat : twoTermReader.findTerm "cat" =
      some ⟨2, 2, [singletonBlock 0 2 5, singletonBlock 3 1 7]⟩ := by decide
  have hdog : twoTermReader.findTerm "dog" = some ⟨1, 1, [singletonBlock 3 1 7]⟩ := by decide
  simp only [twoTermQuery, List.mem_cons, List.not_mem_nil, or_false] at hq
  rcases hq with rfl | rfl
  · exact Or.inl (Option.some.inj (he.symm.trans hcat))
  · exact Or.inr (Option.some.inj (he.symm.trans hdog))

theorem twoTermQuery_wellFormed (q : TermState String) (hq : q ∈ twoTermQuery)
    (e : DictEntry) (he : twoTermReader.findTerm q.term = some e) : e.WellFormed := by
  rcases twoTermQuery_entries q hq e he with rfl | rfl <;>
    exact ⟨rfl, by decide, by decide, by
      simp [singletonBlock, List.getLast?_singleton], by decide, by decide⟩

/-- A search for the documents 1 and later of tenant 5, none of which exists. -/
theorem wandLoop_progress_twoTermQuery :
    (scoreSegmentMultiTermBmw insertionQsort mixedLengthParams twoTermReader (tpTopkInit 1)
        twoTermQuery 5 1 uint32Max).isSome ∧
      ∀ st, LoopHead mixedLengthParams twoTermReader 5 uint32Max
          (wandStart insertionQsort mixedLengthParams twoTermReader (tpTopkInit 1)
            twoTermQuery 1) st →
        HeadInvariant st ∧ ∃ goesOn st', wandStep mixedLengthParams twoTermReader 5 uint32Max st =
            some (goesOn, st') ∧ Forward st.terms st'.terms ∧
          (goesOn = true → totalRem st'.terms < totalRem st.terms) :=
  wandLoop_progress insertionQsort mixedLengthParams twoTermReader (tpTopkInit 1) twoTermQuery
    5 1 uint32Max (by
      intro q hq
      simp only [twoTermQuery, List.mem_cons, List.not_mem_nil, or_false] at hq
      rcases hq with rfl | rfl <;> decide)
    twoTermQuery_wellFormed

end PgTextsearch.Query
