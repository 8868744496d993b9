import PgTextsearch.Query.TenantFilter
import PgTextsearch.Query.WandProgress

/-!
# Correctness of Block-Max WAND

The loop invariant adds to the cursor invariant what has happened so far: the
list of documents scored with their full sum, that the heap holds the largest
scores among the starting heap and those documents, and that every document a
cursor has passed was either scored or the heap rules out what the block maxima
allow it (`WandInv.settled`).  The block maxima need not be sound for that: a
document is never scored with less than its full sum.

All of it is relative to a tenant filter: only the documents it keeps are scored, and
nothing is owed to the others (`DocFilter.allowed`).

## Main results

* `seekToPivotLoop_spec`, `movePivotTerms_spec` — the two inner loops keep the
  invariant.
* `wandStep_spec` — one iteration keeps it and uses up postings, or ends with
  every document accounted for.
* `searchFiltered_scored`, `searchSegment_scored` — whatever the block maxima, a
  search scores documents with their full sums only, and leaves out none that its
  block maxima allow into the heap.
* `scoreSegmentMultiTermBmw_correct` — over sound block maxima the search equals
  exhaustive scoring.
-/

namespace PgTextsearch.Query

open PgTextsearch.Postgres PgTextsearch.Segment PgTextsearch.Verified

variable {Term : Type} {P : ScoreParams}

/-! ## Coverage -/

/-- Every document before `target` that no cursor has passed was scored or is
ruled out. -/
def SafeBelow (h : TopKHeap) (scored : List Nat) (full : Nat → ℚ)
    (terms : List (TermState Term)) (target : Nat) : Prop :=
  ∀ d < target, Unpassed terms d → d ∈ scored ∨ h.Settles (full d)

/-- Every document some cursor has passed was scored or is ruled out. -/
def SettledPassed (h : TopKHeap) (scored : List Nat) (full : Nat → ℚ)
    (terms : List (TermState Term)) : Prop :=
  ∀ d, ¬ Unpassed terms d → d ∈ scored ∨ h.Settles (full d)

/-- Scored documents have no postings left, so none is scored twice. -/
def ScoredClear (scored : List Nat) (terms : List (TermState Term)) : Prop :=
  ∀ d ∈ scored, ∀ t ∈ terms, ∀ p ∈ t.rem, p.docId ≠ d

/-- No posting before `first` is left. -/
def Ahead (first : Nat) (terms : List (TermState Term)) : Prop :=
  ∀ t ∈ terms, ∀ p ∈ t.rem, first ≤ p.docId

section Move

variable {h : TopKHeap} {scored : List Nat} {full : Nat → ℚ} {terms : List (TermState Term)}
  {i target : Nat} {ts : TermState Term} {r : Bool × TermState Term}

theorem SafeBelow.move {bound : Nat} (hs : SafeBelow h scored full terms bound)
    (hi : terms[i]? = some ts) (hm : MovesTo ts target r) :
    SafeBelow h scored full (moveCursor terms i r.2) bound :=
  fun d hd hu => hs d hd (Cursors.unpassed_of_move hi hm hu)

/-- A move keeps the passed documents accounted for if those it passes are. -/
theorem SettledPassed.move (hset : SettledPassed h scored full terms)
    (hi : terms[i]? = some ts) (hm : MovesTo ts target r)
    (hpassed : ∀ p ∈ ts.rem, p.docId < target → Unpassed terms p.docId →
      p.docId ∈ scored ∨ h.Settles (full p.docId)) :
    SettledPassed h scored full (moveCursor terms i r.2) := by
  intro d hd
  by_cases hu : Unpassed terms d
  · by_cases hleft : ∃ p ∈ ts.rem, p.docId < target ∧ p.docId = d
    · obtain ⟨p, hp, hlt, rfl⟩ := hleft
      exact hpassed p hp hlt hu
    · -- the cursor keeps its posting of the document
      push Not at hleft
      refine absurd ?_ hd
      intro x hx p hp hpd
      rcases mem_moveCursor hi hx with rfl | hx
      · have hpm := hu ts (List.mem_of_getElem? hi) p (by rw [← hm.postings]; exact hp) hpd
        exact hm.mem_rem hpm (Nat.not_lt.1 fun hlt => hleft p hpm hlt hpd)
      · exact hu x hx p hp hpd
  · exact hset d hu

theorem ScoredClear.move (hcl : ScoredClear scored terms) (hi : terms[i]? = some ts)
    (hm : MovesTo ts target r) : ScoredClear scored (moveCursor terms i r.2) := by
  intro d hd t ht p hp
  rcases mem_moveCursor hi ht with rfl | htm
  · exact hcl d hd ts (List.mem_of_getElem? hi) p (hm.rem_subset hp)
  · exact hcl d hd t htm p hp

theorem Ahead.move {first : Nat} (ha : Ahead first terms) (hi : terms[i]? = some ts)
    (hm : MovesTo ts target r) : Ahead first (moveCursor terms i r.2) := by
  intro t ht p hp
  rcases mem_moveCursor hi ht with rfl | htm
  · exact ha ts (List.mem_of_getElem? hi) p (hm.rem_subset hp)
  · exact ha t htm p hp

end Move

/-! ## The two inner loops -/

/-- What a move in the search keeps: the cursors, and that every document is
accounted for. -/
structure Searching (P : ScoreParams) (ref : List (TermState Term)) (h : TopKHeap)
    (scored clear : List Nat) (full : Nat → ℚ) (first bound : Nat)
    (terms : List (TermState Term)) : Prop where
  cursors : ∃ n, Cursors P ref terms n
  settled : SettledPassed h scored full terms
  safe : SafeBelow h scored full terms bound
  clear : ScoredClear clear terms
  ahead : Ahead first terms

theorem Searching.move {ref terms : List (TermState Term)} {h : TopKHeap}
    {scored clear : List Nat} {full : Nat → ℚ} {first bound target i : Nat} {ts : TermState Term}
    {r : Bool × TermState Term} (hs : Searching P ref h scored clear full first bound terms)
    (hi : terms[i]? = some ts) (hact : ts.rem ≠ []) (hm : MovesTo ts target r)
    (hpassed : ∀ p ∈ ts.rem, p.docId < target → p.docId < bound ∨ h.Settles (full p.docId)) :
    Searching P ref h scored clear full first bound (moveCursor terms i r.2) where
  cursors := by
    obtain ⟨n, hc⟩ := hs.cursors
    exact ⟨_, hc.move hi hact hm⟩
  settled := by
    refine hs.settled.move hi hm fun p hp hlt hu => ?_
    cases hpassed p hp hlt with
    | inl hbefore => exact hs.safe p.docId hbefore hu
    | inr hsettled => exact Or.inr hsettled
  safe := hs.safe.move hi hm
  clear := hs.clear.move hi hm
  ahead := hs.ahead.move hi hm

/-- The count of a search is that of its cursors. -/
theorem Searching.cursors_of_placed {ref terms : List (TermState Term)} {h : TopKHeap}
    {scored clear : List Nat} {full : Nat → ℚ} {first bound : Nat} {n : Int}
    (hs : Searching P ref h scored clear full first bound terms) (hc : PlacedCursors terms n) :
    Cursors P ref terms n := by
  obtain ⟨m, hm⟩ := hs.cursors
  rw [hc.active, ← hm.active]
  exact hm

/-- **`seek_to_pivot`** from slot `i` on: it returns, keeps the invariants, and
either nothing moved or postings were used up; on success all pivot slots stand
at or after the pivot. -/
theorem seekToPivotLoop_spec {ref : List (TermState Term)} {scored : List Nat} {full : Nat → ℚ}
    {first pivotLen d : Nat} (hd : d < uint32Max) (fuel i : Nat) (st : WandState Term)
    (hc : PlacedCursors st.terms st.activeCount)
    (hs : Searching P ref st.heap scored scored full first d st.terms)
    (hlen : (pivotLen : Int) ≤ st.activeCount) (hi : i ≤ pivotLen)
    (hcnt : st.terms.countP (fun t => decide (t.currentDocId ≤ d)) ≤ pivotLen)
    (hpre : ∀ j < i, ∀ t, st.terms[j]? = some t → d ≤ t.currentDocId)
    (hfuel : st.terms.countP (fun t => decide (t.currentDocId < d)) + (pivotLen - i) < fuel) :
    ∃ b st', seekToPivotLoop pivotLen d fuel i st = some (b, st') ∧ st'.heap = st.heap ∧
      Cursors P ref st'.terms st'.activeCount ∧
      Searching P ref st.heap scored scored full first d st'.terms ∧
      (totalRem st'.terms < totalRem st.terms ∨ (st' = st ∧ b = true)) ∧
      (b = true → (pivotLen : Int) ≤ st'.activeCount ∧
        (∀ t ∈ st'.terms.drop pivotLen, d < t.currentDocId) ∧
        ∀ j < pivotLen, ∀ t, st'.terms[j]? = some t → d ≤ t.currentDocId) := by
  have hmove : ∀ terms i (ts : TermState Term),
      Searching P ref st.heap scored scored full first d terms → terms[i]? = some ts →
        ts.rem ≠ [] → ts.Placed → MovesTo ts d (seekTermToDoc ts d) →
        Searching P ref st.heap scored scored full first d
          (moveCursor terms i (seekTermToDoc ts d).2) :=
    fun _ _ _ hs hts hrem _ hm => hs.move hts hrem hm fun _ _ hlt => Or.inl hlt
  obtain ⟨b, st', hrun, hheap, hplaced, hs', hprog, hok⟩ := seekToPivotLoop_rule hmove hd fuel i st
    hc hs hlen hi hcnt hpre hfuel
  exact ⟨b, st', hrun, hheap, hs'.cursors_of_placed hplaced, hs', hprog, hok⟩

/-- **The backward loop over the pivot terms** keeps the invariants and leaves every
cursor behind the pivot; what it passes behind the pivot has to be ruled out. -/
theorem movePivotTerms_spec {ref : List (TermState Term)} {scored clear : List Nat}
    {full : Nat → ℚ} {first d : Nat} {allowed : TermState Term → Nat → Prop}
    (op : TermState Term → Bool × TermState Term)
    (hop : ∀ ts : TermState Term, ts.Placed → ts.rem ≠ [] → ts.currentDocId = d →
      ∃ target, allowed ts target ∧ d < target ∧ MovesTo ts target (op ts))
    (hd : d < uint32Max) (i : Nat) (st : WandState Term)
    (hpassed : ∀ (ts : TermState Term) target, ts.static ∈ ref → allowed ts target →
      ∀ p ∈ ts.rem, p.docId < target → p.docId < d + 1 ∨ st.heap.Settles (full p.docId))
    (hc : PlacedCursors st.terms st.activeCount)
    (hs : Searching P ref st.heap scored clear full first (d + 1) st.terms)
    (hi : i ≤ st.terms.length)
    (hpre : ∀ j < i, ∀ t, st.terms[j]? = some t → t.currentDocId = d)
    (hpost : ∀ t ∈ st.terms.drop i, d < t.currentDocId) :
    (movePivotTerms op d i st).heap = st.heap ∧
      Cursors P ref (movePivotTerms op d i st).terms (movePivotTerms op d i st).activeCount ∧
      Searching P ref st.heap scored clear full first (d + 1) (movePivotTerms op d i st).terms ∧
      (∀ t ∈ (movePivotTerms op d i st).terms, d < t.currentDocId) ∧
      totalRem (movePivotTerms op d i st).terms + i ≤ totalRem st.terms := by
  have hmove : ∀ terms i target (ts : TermState Term),
      Searching P ref st.heap scored clear full first (d + 1) terms → allowed ts target →
        terms[i]? = some ts → ts.rem ≠ [] → ts.Placed → MovesTo ts target (op ts) →
        Searching P ref st.heap scored clear full first (d + 1) (moveCursor terms i (op ts).2) := by
    intro terms i target ts hs hallowed hts hrem _ hm
    obtain ⟨n, hcursors⟩ := hs.cursors
    have hin : ts.static ∈ ref :=
      hcursors.static_perm.subset (List.mem_map_of_mem (List.mem_of_getElem? hts))
    exact hs.move hts hrem hm (hpassed ts target hin hallowed)
  obtain ⟨hheap, hplaced, hs', hbehind, htotal⟩ := movePivotTerms_rule op hop hmove hd i st
    hc hs hi hpre hpost
  exact ⟨hheap, hs'.cursors_of_placed hplaced, hs', hbehind, htotal⟩

/-! ## Scoring the pivot -/

section Score

variable {ref terms : List (TermState Term)} {n : Int} {pivotLen d : Nat}

/-- The sum over the aligned cursors is the sum of their contributions. -/
theorem scorePivotDocument_eq (hc : Cursors P ref terms n) (hd : d < uint32Max)
    (htake : ∀ t ∈ terms.take pivotLen, t.currentDocId = d) :
    scorePivotDocument P terms pivotLen =
      ((terms.take pivotLen).map fun ts => ts.contrib P d).sum := by
  unfold scorePivotDocument
  congr 1
  apply List.map_congr_left
  intro ts hts
  have htsr := hc.ready ts (List.mem_of_mem_take hts)
  have hcur := htake ts hts
  have hrem : ts.rem ≠ [] := by
    intro h
    rw [htsr.currentDocId_nil h] at hcur
    omega
  have hfound : ts.found = true := by
    by_contra hf
    exact hrem (by simp [TermState.rem, hf])
  have hp := htsr.positioned hfound
  have hfin : ts.iter.finished = false := by
    by_contra hf
    exact hrem (by simp [TermState.rem, hfound, PostingIterator.rem_finished (by simpa using hf)])
  have hhead : ts.rem.head? = some ts.iter.current := by
    simpa [TermState.rem, hfound] using hp.head?_rem hfin
  have hmem : ts.iter.current ∈ ts.rem := List.mem_of_head? hhead
  have hdoc : ts.iter.current.docId = d := by
    rw [htsr.currentDocId_eq, hhead] at hcur
    exact hcur
  rw [← hdoc, htsr.contrib_of_mem (ts.rem_suffix.subset hmem)]
  simp [hfound, hfin]

/-- It never exceeds the full score, and equals it while the document is
unpassed and only aligned cursors stand at or before it. -/
theorem scorePivotDocument_le (hc : Cursors P ref terms n) (hd : d < uint32Max)
    (htake : ∀ t ∈ terms.take pivotLen, t.currentDocId = d) :
    scorePivotDocument P terms pivotLen ≤ termsDocScore P ref d := by
  rw [scorePivotDocument_eq hc hd htake, ← hc.docScore_eq]
  unfold termsDocScore
  conv_rhs => rw [← List.take_append_drop pivotLen terms]
  rw [List.map_append, List.sum_append]
  have hnn : 0 ≤ ((terms.drop pivotLen).map fun ts => ts.contrib P d).sum := by
    apply List.sum_nonneg
    intro x hx
    obtain ⟨t, ht, rfl⟩ := List.mem_map.1 hx
    exact (hc.ready t (List.mem_of_mem_drop ht)).contrib_nonneg d
  linarith

theorem scorePivotDocument_of_unpassed (hc : Cursors P ref terms n) (hd : d < uint32Max)
    (htake : ∀ t ∈ terms.take pivotLen, t.currentDocId = d)
    (hdrop : ∀ t ∈ terms.drop pivotLen, d < t.currentDocId) (hu : Unpassed terms d) :
    scorePivotDocument P terms pivotLen = termsDocScore P ref d := by
  rw [scorePivotDocument_eq hc hd htake, ← hc.docScore_eq]
  unfold termsDocScore
  conv_rhs => rw [← List.take_append_drop pivotLen terms]
  rw [List.map_append, List.sum_append]
  have hzero : ((terms.drop pivotLen).map fun ts => ts.contrib P d).sum = 0 := by
    apply List.sum_eq_zero
    intro x hx
    obtain ⟨t, ht, rfl⟩ := List.mem_map.1 hx
    exact TermState.contrib_of_forall_ne
      (hc.forall_ne_of_lt hu (List.mem_of_mem_drop ht) (hdrop t ht))
  rw [hzero, add_zero]

/-- The block maxima the pivot is tested with are part of what they allow it. -/
theorem computeBlockMaxAtPivot_le (hc : Cursors P ref terms n) (hd : d < uint32Max)
    (htake : ∀ t ∈ terms.take pivotLen, t.currentDocId = d) :
    computeBlockMaxAtPivot terms pivotLen ≤ (terms.map fun ts => ts.docBound P d).sum := by
  have heq : computeBlockMaxAtPivot terms pivotLen =
      ((terms.take pivotLen).map fun ts => ts.docBound P d).sum := by
    unfold computeBlockMaxAtPivot
    congr 1
    apply List.map_congr_left
    intro ts hts
    have htsr := hc.ready ts (List.mem_of_mem_take hts)
    have hcur := htake ts hts
    cases hrem : ts.rem with
    | nil =>
        rw [htsr.currentDocId_nil hrem] at hcur
        omega
    | cons p rest =>
        have hp : p ∈ ts.rem := by rw [hrem]; exact List.mem_cons_self
        have hpd : p.docId = d := (htsr.currentDocId_cons hrem).symm.trans hcur
        obtain ⟨-, -, blk, -, hlast, -, -, hle, -, -⟩ :=
          htsr.exists_currentBlock (List.ne_nil_of_mem hp)
        rw [← hpd]
        exact (htsr.docBound_eq_blockUpper hp (by omega)).symm
  rw [heq]
  conv_rhs => rw [← List.take_append_drop pivotLen terms]
  rw [List.map_append, List.sum_append]
  have hnn : 0 ≤ ((terms.drop pivotLen).map fun ts => ts.docBound P d).sum := by
    apply List.sum_nonneg
    intro x hx
    obtain ⟨t, ht, rfl⟩ := List.mem_map.1 hx
    exact (hc.ready t (List.mem_of_mem_drop ht)).docBound_nonneg d
  linarith

end Score

/-! ## The loop invariant -/

/-- What the block maxima allow a document the filter keeps; the others are owed nothing. -/
def DocFilter.allowed (f : DocFilter Term) (P : ScoreParams) (ref : List (TermState Term))
    (docId : Nat) : ℚ :=
  if f.Keeps docId then termsDocBound P ref docId else 0

theorem DocFilter.settles_allowed {f : DocFilter Term} {h : TopKHeap} {ref : List (TermState Term)}
    {d : Nat} (hs : f.Keeps d → h.Settles (termsDocBound P ref d)) :
    h.Settles (f.allowed P ref d) := by
  unfold DocFilter.allowed
  split
  case isTrue hkeep => exact hs hkeep
  case isFalse => exact Or.inl le_rfl

/-- The state of the main loop after scoring the documents `scored`, started
with the heap `start` and the cursors `ref`. -/
structure WandInv (P : ScoreParams) (f : DocFilter Term) (start : TopKHeap)
    (ref : List (TermState Term)) (scored : List Nat) (st : WandState Term) : Prop where
  cursors : Cursors P ref st.terms st.activeCount
  valid : st.heap.ScoreValid
  capacity : st.heap.capacity = start.capacity
  scores : st.heap.scores = kLargest start.capacity
    (start.scores + (scored : Multiset Nat).map (termsDocScore P ref))
  entries : (st.heap.entries : Multiset HeapEntry) ≤ (start.entries : Multiset HeapEntry) +
    (scored : Multiset Nat).map fun d => segmentEntry f.reader.rootBlock d (termsDocScore P ref d)
  nodup : scored.Nodup
  scored_pos : ∀ d ∈ scored, 0 < termsDocScore P ref d
  kept : ∀ d ∈ scored, f.Keeps d
  settled : SettledPassed st.heap scored (f.allowed P ref) st.terms
  clear : ScoredClear scored st.terms
  ahead : Ahead f.minDocId st.terms

/-- Nothing is left to do: every document was scored or is ruled out. -/
def AllSettled (h : TopKHeap) (scored : List Nat) (full : Nat → ℚ) : Prop :=
  ∀ d, d ∈ scored ∨ h.Settles (full d)

section Step

variable {f : DocFilter Term} {start : TopKHeap} {ref : List (TermState Term)} {scored : List Nat}
  {st : WandState Term}

theorem settles_of_le_max {h : TopKHeap} (hv : h.ScoreValid) {x : ℚ}
    (hx : x ≤ max (tpTopkThreshold h) 0) : h.Settles x := by
  rcases le_max_iff.1 hx with hθ | h0
  · exact hv.settles_of_le_threshold hθ
  · exact Or.inl h0

/-- With no active cursor every document is accounted for. -/
theorem WandInv.allSettled_of_inactive (hinv : WandInv P f start ref scored st)
    (hact : ¬ st.activeCount > 0) : AllSettled st.heap scored (f.allowed P ref) := by
  have hnone : ∀ t ∈ st.terms, t.rem = [] := by
    intro t ht
    have hzero : st.terms.countP (fun t => decide (t.currentDocId ≠ uint32Max)) = 0 := by
      have := hinv.cursors.active
      omega
    rw [List.countP_eq_zero] at hzero
    have := hzero t ht
    rw [(hinv.cursors.ready t ht).rem_eq_nil_iff]
    simpa using this
  intro d
  by_cases hu : Unpassed st.terms d
  · right
    refine DocFilter.settles_allowed fun _ => ?_
    refine Or.inl ((hinv.cursors.docBound_le_sum d).trans (le_of_eq ?_))
    apply List.sum_eq_zero
    intro x hx
    obtain ⟨t, ht, rfl⟩ := List.mem_map.1 hx
    apply TermState.docBound_of_forall_ne
    intro p hp hpd
    have := hu t ht p hp hpd
    rw [hnone t ht] at this
    simp at this
  · exact hinv.settled d hu

/-- With no pivot every document is accounted for. -/
theorem WandInv.allSettled_of_no_pivot (hinv : WandInv P f start ref scored st)
    (hsum : ((st.terms.filter (fun t => decide (t.currentDocId < uint32Max))).map
      TermState.maxScore).sum ≤ max (tpTopkThreshold st.heap) 0) :
    AllSettled st.heap scored (f.allowed P ref) := by
  intro d
  by_cases hu : Unpassed st.terms d
  · right
    refine DocFilter.settles_allowed fun _ => ?_
    by_cases hd : d < uint32Max
    · exact settles_of_le_max hinv.valid
        ((hinv.cursors.docBound_le_of_lt_pivot hd hu).trans hsum)
    · refine Or.inl ((hinv.cursors.docBound_le_sum d).trans (le_of_eq ?_))
      apply List.sum_eq_zero
      intro x hx
      obtain ⟨t, ht, rfl⟩ := List.mem_map.1 hx
      apply TermState.docBound_of_forall_ne
      intro p hp hpd
      have := (hinv.cursors.ready t ht).docId_lt hp
      omega
  · exact hinv.settled d hu

/-- With the pivot behind the range every document is accounted for. -/
theorem WandInv.allSettled_of_beyond (hinv : WandInv P f start ref scored st) {d : Nat}
    (hsafe : SafeBelow st.heap scored (f.allowed P ref) st.terms d) (hmax : f.maxDocId < d) :
    AllSettled st.heap scored (f.allowed P ref) := by
  intro e
  by_cases hu : Unpassed st.terms e
  · by_cases hlt : e < d
    · exact hsafe e hlt hu
    · refine Or.inr (DocFilter.settles_allowed fun hkeep => ?_)
      have := hkeep.2.1
      omega
  · exact hinv.settled e hu

/-- The part of the invariant that moves keep, before a document `bound`. -/
theorem WandInv.searching (hinv : WandInv P f start ref scored st) {bound : Nat}
    (hsafe : SafeBelow st.heap scored (f.allowed P ref) st.terms bound) :
    Searching P ref st.heap scored scored (f.allowed P ref) f.minDocId bound st.terms :=
  ⟨⟨_, hinv.cursors⟩, hinv.settled, hsafe, hinv.clear, hinv.ahead⟩

/-- The invariant looks at the cursors through that part only. -/
theorem WandInv.of_searching (hinv : WandInv P f start ref scored st) {st' : WandState Term}
    {bound : Nat} (hheap : st'.heap = st.heap) (hc : Cursors P ref st'.terms st'.activeCount)
    (hs : Searching P ref st.heap scored scored (f.allowed P ref) f.minDocId bound st'.terms) :
    WandInv P f start ref scored st' where
  cursors := hc
  valid := hheap ▸ hinv.valid
  capacity := hheap ▸ hinv.capacity
  scores := hheap ▸ hinv.scores
  entries := hheap ▸ hinv.entries
  nodup := hinv.nodup
  scored_pos := hinv.scored_pos
  kept := hinv.kept
  settled := hheap ▸ hs.settled
  clear := hs.clear
  ahead := hs.ahead

/-- One more document scored with its full sum. -/
private theorem heap_after_offer (hinv : WandInv P f start ref scored st) {d : Nat}
    (hpos : 0 < termsDocScore P ref d) :
    (offerSegment st.heap f.reader.rootBlock d (termsDocScore P ref d)).scores =
        kLargest start.capacity (start.scores +
          ((d :: scored : List Nat) : Multiset Nat).map (termsDocScore P ref)) ∧
      ((offerSegment st.heap f.reader.rootBlock d (termsDocScore P ref d)).entries :
          Multiset HeapEntry) ≤
        (start.entries : Multiset HeapEntry) + ((d :: scored : List Nat) : Multiset Nat).map
          fun d => segmentEntry f.reader.rootBlock d (termsDocScore P ref d) := by
  obtain ⟨-, hscores, -, hentries⟩ := offerSegment_spec hinv.valid f.reader.rootBlock d
    (termsDocScore P ref d)
  constructor
  · rw [hscores hpos, hinv.capacity, hinv.scores, ← Multiset.singleton_add, add_comm,
      kLargest_kLargest_add, add_assoc]
    congr 2
    rw [← Multiset.cons_coe, Multiset.map_cons, ← Multiset.singleton_add, add_comm]
  · refine hentries.trans ?_
    rw [← Multiset.cons_coe, Multiset.map_cons, Multiset.add_cons]
    exact Multiset.cons_le_cons _ hinv.entries

/-- Slots before the pivot's end stand on the pivot when the taken terms do. -/
private theorem current_of_take {terms : List (TermState Term)} {pivotLen d : Nat}
    (htake : ∀ t ∈ terms.take pivotLen, t.currentDocId = d) :
    ∀ j < pivotLen, ∀ t, terms[j]? = some t → t.currentDocId = d := by
  intro j hj t ht
  apply htake t
  exact List.mem_of_getElem? (by rw [List.getElem?_take_of_lt hj]; exact ht)

/-- A pivot with aligned terms heads the rest of one of them. -/
private theorem exists_pivot_posting (hc : Cursors P ref st.terms st.activeCount)
    {pivotLen d : Nat} (hd : d < uint32Max) (hpos : 0 < pivotLen)
    (hlen : pivotLen ≤ st.terms.length)
    (htake : ∀ t ∈ st.terms.take pivotLen, t.currentDocId = d) :
    ∃ t ∈ st.terms, ∃ p ∈ t.rem, p.docId = d := by
  obtain ⟨t, ht⟩ : ∃ t, t ∈ st.terms.take pivotLen := by
    apply List.exists_mem_of_ne_nil
    apply List.ne_nil_of_length_pos
    rw [List.length_take]
    omega
  have htm := List.mem_of_mem_take ht
  have htr := hc.ready t htm
  have hcur := htake t ht
  cases hrem : t.rem with
  | nil =>
      rw [htr.currentDocId_nil hrem] at hcur
      omega
  | cons p rest =>
      rw [htr.currentDocId_cons hrem] at hcur
      exact ⟨t, htm, p, by rw [hrem]; exact List.mem_cons_self, hcur⟩

/-- **Scoring the pivot.**  With the cursors aligned, offering a pivot the filter keeps
and moving the pivot terms past it keeps the invariant, with the pivot counted as
scored unless the heap rules it out. -/
theorem WandInv.score_pivot (hinv : WandInv P f start ref scored st) {pivotLen d : Nat}
    (hd : d < uint32Max) (hkeep : f.Keeps d) (hpos : 0 < pivotLen)
    (hlen : pivotLen ≤ st.terms.length)
    (htake : ∀ t ∈ st.terms.take pivotLen, t.currentDocId = d)
    (hdrop : ∀ t ∈ st.terms.drop pivotLen, d < t.currentDocId)
    (hsafe : SafeBelow st.heap scored (f.allowed P ref) st.terms d)
    (hupper : tpTopkThreshold st.heap < computeBlockMaxAtPivot st.terms pivotLen)
    {st' : WandState Term}
    (hst' : st' = movePivotTerms advanceTermIterator d pivotLen
      ⟨offerSegment st.heap f.reader.rootBlock d (scorePivotDocument P st.terms pivotLen), st.terms,
        st.activeCount⟩) :
    ∃ scored', WandInv P f start ref scored' st' ∧
      totalRem st'.terms < totalRem st.terms := by
  have hc := hinv.cursors
  have hallowed : f.allowed P ref d = termsDocBound P ref d := if_pos hkeep
  -- the pivot itself has not been scored: its postings are still there
  have hnotScored : d ∉ scored := by
    intro hmem
    obtain ⟨t, ht, p, hp, hpd⟩ := exists_pivot_posting hc hd hpos hlen htake
    exact hinv.clear d hmem t ht p hp hpd
  obtain ⟨s, hs⟩ : ∃ s, s = scorePivotDocument P st.terms pivotLen := ⟨_, rfl⟩
  obtain ⟨heap', hheap'⟩ : ∃ heap', heap' = offerSegment st.heap f.reader.rootBlock d s := ⟨_, rfl⟩
  -- a pivot the heap rules out scores nothing; any other is offered with its full score
  have hcases : (heap' = st.heap ∧ st.heap.Settles (f.allowed P ref d)) ∨
      (s = termsDocScore P ref d ∧ 0 < termsDocScore P ref d) := by
    rw [hallowed]
    by_cases hfullPos : 0 < termsDocScore P ref d
    · right
      have hbound : tpTopkThreshold st.heap < termsDocBound P ref d := by
        rw [termsDocBound, if_pos hfullPos, ← hc.docBound_sum]
        exact lt_of_lt_of_le hupper (computeBlockMaxAtPivot_le hc hd htake)
      have hu : Unpassed st.terms d := by
        by_contra hpassed
        have hsettled := (hinv.settled d hpassed).resolve_left hnotScored
        rw [hallowed] at hsettled
        -- a passed document would be ruled out, but the block maxima let this one in
        rcases hsettled with h0 | ⟨hfull, hall⟩
        · exact absurd (hc.docBound_pos hfullPos) (not_lt.2 h0)
        · have hroot := hall _ (hinv.valid.root_mem hfull)
          rw [tpTopkThreshold, if_pos (show st.heap.entries.length ≥ st.heap.capacity from hfull)]
            at hbound
          exact absurd hbound (not_lt.2 hroot)
      exact ⟨by rw [hs, scorePivotDocument_of_unpassed hc hd htake hdrop hu], hfullPos⟩
    · left
      have hset : st.heap.Settles (termsDocBound P ref d) := by
        rw [termsDocBound, if_neg hfullPos]
        exact Or.inl (le_refl _)
      have hneg : ¬ 0 < s := by
        have := scorePivotDocument_le hc hd htake
        rw [← hs] at this
        exact fun h => hfullPos (lt_of_lt_of_le h this)
      exact ⟨hheap'.trans ((offerSegment_spec hinv.valid f.reader.rootBlock d s).2.2.1 hneg), hset⟩
  have hsettle : ∀ x, st.heap.Settles x → heap'.Settles x := by
    intro x hx
    rw [hheap']
    exact offerSegment_settles hinv.valid f.reader.rootBlock d s hx
  -- run the backward loop with the new list of scored documents
  have hrun : ∀ scored', (∀ e, e ∈ scored → e ∈ scored') →
      (d ∈ scored' ∨ heap'.Settles (f.allowed P ref d)) →
      st'.heap = heap' ∧ Cursors P ref st'.terms st'.activeCount ∧
      Searching P ref heap' scored' scored (f.allowed P ref) f.minDocId (d + 1) st'.terms ∧
      (∀ t ∈ st'.terms, d < t.currentDocId) ∧
      totalRem st'.terms + pivotLen ≤ totalRem st.terms := by
    intro scored' hsub hdset
    rw [hst', ← hs, ← hheap']
    refine @movePivotTerms_spec _ P ref scored' scored (f.allowed P ref) f.minDocId d
      (fun _ target => target = d + 1) advanceTermIterator (fun ts htr hne hcur => ?_) hd pivotLen
      ⟨heap', st.terms, st.activeCount⟩ (fun _ _ _ htarget _ _ hlt => Or.inl (htarget ▸ hlt))
      hc.toPlacedCursors ⟨⟨_, hc⟩, ?_, ?_, hinv.clear, hinv.ahead⟩ hlen (current_of_take htake)
      hdrop
    · exact ⟨d + 1, rfl, Nat.lt_succ_self d, hcur ▸ advanceTermIterator_movesTo htr hne⟩
    · intro e he
      rcases hinv.settled e he with hm | hm
      · exact Or.inl (hsub e hm)
      · exact Or.inr (hsettle _ hm)
    · intro e he hu
      rcases Nat.lt_succ_iff_lt_or_eq.1 he with hlt | rfl
      · rcases hsafe e hlt hu with hm | hm
        · exact Or.inl (hsub e hm)
        · exact Or.inr (hsettle _ hm)
      · exact hdset
  rcases hcases with ⟨hsame, hset⟩ | ⟨hfull, hfullPos⟩
  · -- the pivot is ruled out
    obtain ⟨h1, h2, h3, -, h6⟩ := hrun scored (fun e he => he) (Or.inr (hsettle _ hset))
    rw [hsame] at h1 h3
    exact ⟨scored, hinv.of_searching h1 h2 h3, by omega⟩
  · -- the pivot is scored with its full sum
    obtain ⟨h1, h2, h3, h5, h6⟩ := hrun (d :: scored)
      (fun e he => List.mem_cons_of_mem _ he) (Or.inl List.mem_cons_self)
    obtain ⟨hscores, hentries⟩ := heap_after_offer hinv hfullPos
    rw [← hfull, ← hheap'] at hscores hentries
    refine ⟨d :: scored, ⟨h2, ?_, ?_, ?_, ?_, ?_, ?_, ?_, ?_, ?_, h3.ahead⟩, by omega⟩
    · rw [h1, hheap']
      exact (offerSegment_spec hinv.valid f.reader.rootBlock d s).1
    · rw [h1, hheap', offerSegment_capacity]
      exact hinv.capacity
    · rw [h1]
      exact hscores
    · rw [h1]
      exact hentries
    · exact List.nodup_cons.2 ⟨hnotScored, hinv.nodup⟩
    · intro e he
      rcases List.mem_cons.1 he with rfl | he
      · exact hfullPos
      · exact hinv.scored_pos e he
    · intro e he
      rcases List.mem_cons.1 he with rfl | he
      · exact hkeep
      · exact hinv.kept e he
    · rw [h1]
      exact h3.settled
    · intro e he t ht p hp
      rcases List.mem_cons.1 he with rfl | he
      · have := h5 t ht
        have := (h2.ready t ht).currentDocId_le_of_mem hp
        omega
      · exact h3.clear e he t ht p hp

/-- **Leaving the pivot.**  Moving the pivot terms past a pivot the filter does not keep,
or past the rest of a block of another tenant, keeps the invariant. -/
theorem WandInv.leave_pivot (hinv : WandInv P f start ref scored st) {pivotLen d : Nat}
    (hd : d < uint32Max) (hforeign : ¬ f.Keeps d) (htenant : f.tenantId ≠ 0)
    (hbytes : ∀ t ∈ ref, ∀ blk ∈ t.blocks, f.BytesSound blk) (hpos : 0 < pivotLen)
    (hlen : pivotLen ≤ st.terms.length)
    (htake : ∀ t ∈ st.terms.take pivotLen, t.currentDocId = d)
    (hdrop : ∀ t ∈ st.terms.drop pivotLen, d < t.currentDocId)
    (hsafe : SafeBelow st.heap scored (f.allowed P ref) st.terms d) :
    WandInv P f start ref scored
        (movePivotTerms (leaveForeignDocument f.tenantId) d pivotLen st) ∧
      totalRem (movePivotTerms (leaveForeignDocument f.tenantId) d pivotLen st).terms <
        totalRem st.terms := by
  have hnot : ∀ e, ¬ f.Keeps e → st.heap.Settles (f.allowed P ref e) := fun e he =>
    DocFilter.settles_allowed fun hkeep => absurd hkeep he
  have hsafe' : SafeBelow st.heap scored (f.allowed P ref) st.terms (d + 1) := by
    intro e he hu
    rcases Nat.lt_succ_iff_lt_or_eq.1 he with hlt | rfl
    · exact hsafe e hlt hu
    · exact Or.inr (hnot _ hforeign)
  have hpassed : ∀ (ts : TermState Term) target, ts.static ∈ ref →
      ts.currentDocId = d ∧ LeavesForeign f.tenantId ts target → ∀ p ∈ ts.rem,
        p.docId < target → p.docId < d + 1 ∨ st.heap.Settles (f.allowed P ref p.docId) := by
    intro ts target hts hleaves p hp hlt
    rcases hleaves.2 p hp hlt with hle | ⟨blk, hblk, hin, hmode, hlow⟩
    · exact Or.inl (by omega)
    · exact Or.inr (hnot _ ((hbytes ts.static hts blk hblk).not_keeps htenant hmode hlow hin))
  obtain ⟨h1, h2, h3, -, h6⟩ := @movePivotTerms_spec _ P ref scored scored (f.allowed P ref)
    f.minDocId d (fun ts target => ts.currentDocId = d ∧ LeavesForeign f.tenantId ts target)
    (leaveForeignDocument f.tenantId)
    (fun ts htr hne hcur => by
      obtain ⟨target, hlt, hleaves, hm⟩ := leaveForeignDocument_movesTo f.tenantId htr hne
      exact ⟨target, ⟨hcur, hleaves⟩, hcur ▸ hlt, hm⟩) hd pivotLen st hpassed
    hinv.cursors.toPlacedCursors (hinv.searching hsafe') hlen (current_of_take htake) hdrop
  exact ⟨hinv.of_searching h1 h2 h3, by omega⟩

/-- **The block-max skip** keeps the invariant; it uses up postings when some
pivot term still stands on the pivot. -/
theorem WandInv.skip (hinv : WandInv P f start ref scored st) {pivotLen : Nat}
    (hpos : 0 < pivotLen) (hlen : pivotLen ≤ st.terms.length)
    (hact : (pivotLen : Int) ≤ st.activeCount)
    (hupper : computeBlockMaxAtPivot st.terms pivotLen ≤ tpTopkThreshold st.heap) :
    WandInv P f start ref scored (blockMaxSkipAdvance st pivotLen) ∧
      totalRem (blockMaxSkipAdvance st pivotLen).terms ≤ totalRem st.terms ∧
      ∀ d, (∀ t ∈ st.terms.take pivotLen, t.currentDocId = d) →
        (∀ t ∈ st.terms.drop pivotLen, d < t.currentDocId) →
        totalRem (blockMaxSkipAdvance st pivotLen).terms < totalRem st.terms := by
  have hc := hinv.cursors
  have hactive : ∀ t ∈ st.terms.take pivotLen, t.rem ≠ [] := fun t ht =>
    hc.active_of_mem_take hact ht
  obtain ⟨best, ts, target, hts, htsm, htake, hdrop, hbeyond, heq⟩ :=
    blockMaxSkipAdvance_spec hc.toPlacedCursors hpos hlen hactive
  have htsr := hc.ready ts (List.mem_of_getElem? hts)
  have hm := seekTermToDoc_movesTo htsr.toPlaced target
  have hsafe : SafeBelow st.heap scored (f.allowed P ref) st.terms target :=
    fun e he hu => Or.inr (DocFilter.settles_allowed fun _ =>
      hinv.valid.settles_of_le_threshold
        ((hc.docBound_le_of_lt_skip htake hdrop he hu).trans hupper))
  have htot := totalRem_move hts (seekTermToDoc ts target).2
  have hdec := hm.length_le
  rw [heq]
  refine ⟨hinv.of_searching rfl (hc.move hts (hactive ts htsm) hm)
    ((hinv.searching hsafe).move hts (hactive ts htsm) hm fun _ _ hlt => Or.inl hlt),
    by simp only; omega, ?_⟩
  intro d htaked hdropd
  have hlt : d < target := by
    apply hbeyond d _ hdropd
    intro t ht
    obtain ⟨-, -, blk, -, hlast, -, -, hcur, -, -⟩ :=
      (hc.ready t (List.mem_of_mem_take ht)).exists_currentBlock (hactive t ht)
    rw [hlast, ← htaked t ht]
    exact hcur
  have hdec := hm.length_lt htsr.toPlaced (hactive ts htsm) (by rw [htaked ts htsm]; exact hlt)
  simp only
  omega

end Step

/-! ## One iteration and the whole run -/

section Run

variable [DecidableEq Term] {f : DocFilter Term} {start : TopKHeap} {ref : List (TermState Term)}
  {scored : List Nat}

/-- **One iteration** of the main loop returns, keeps the invariant and uses up postings,
or leaves every document accounted for. -/
theorem wandStep_spec (hf : f.Sound) (hbytes : ∀ t ∈ ref, ∀ blk ∈ t.blocks, f.BytesSound blk)
    {st : WandState Term} (hinv : WandInv P f start ref scored st) :
    ∃ b st' scored', wandStep P f.reader f.tenantId f.maxDocId st = some (b, st') ∧
      WandInv P f start ref scored' st' ∧
      (b = true → totalRem st'.terms < totalRem st.terms) ∧
      (b = false → AllSettled st'.heap scored' (f.allowed P ref)) := by
  have hc := hinv.cursors
  by_cases hactive : st.activeCount > 0
  · rcases findWandPivot_spec (tpTopkThreshold st.heap) hc.placed hc.sorted with
      ⟨k, d, hfind, hpiv⟩ | ⟨hfind, hsum⟩
    · obtain ⟨hd, hk, hcnt⟩ := hc.pivot_counts hpiv
      have hsafe : SafeBelow st.heap scored (f.allowed P ref) st.terms d := fun e he hu =>
        Or.inr (DocFilter.settles_allowed fun _ => settles_of_le_max hinv.valid
          ((hc.docBound_le_of_lt_pivot he hu).trans hpiv.sum_le))
      by_cases hbeyond : d > f.maxDocId
      · refine ⟨false, st, scored, ?_, hinv, by simp,
          fun _ => hinv.allSettled_of_beyond hsafe hbeyond⟩
        simp [wandStep, hactive, hfind, hbeyond]
      have hle : ∀ l : List (TermState Term),
          l.countP (fun t => decide (t.currentDocId < d)) ≤ l.length := fun l =>
        List.countP_le_length
      obtain ⟨b, st1, hseek, hheap, hc1, hs1, hprog, hok⟩ :=
        seekToPivotLoop_spec (P := P) hd (k + st.terms.length + 1) 0 st hc.toPlacedCursors
          (hinv.searching hsafe) hk (Nat.zero_le k) hcnt
          (fun j hj => absurd hj (Nat.not_lt_zero j)) (by have := hle st.terms; omega)
      have hseek' : seekToPivot st k d = some (b, st1) := hseek
      have hinv1 : WandInv P f start ref scored st1 := hinv.of_searching hheap hc1 hs1
      cases b with
      | false =>
          refine ⟨true, st1, scored, ?_, hinv1, fun _ => ?_, by simp⟩
          · simp [wandStep, hactive, hfind, hseek', hbeyond]
          · rcases hprog with h | ⟨-, h⟩
            · exact h
            · cases h
      | true =>
          obtain ⟨hact1, hdrop1, hpre1⟩ := hok rfl
          have hlen1 : k ≤ st1.terms.length := by
            have hcount : st1.terms.countP (fun t => decide (t.currentDocId ≠ uint32Max)) ≤
              st1.terms.length := List.countP_le_length
            have := hc1.active
            omega
          -- if nothing moved, the pivot terms stand exactly on the pivot
          have hstill : st1 = st → ∀ t ∈ st1.terms.take k, t.currentDocId = d := by
            intro hsame t ht
            exact le_antisymm (hpiv.take_le t (hsame ▸ ht)) (le_of_mem_take hpre1 ht)
          by_cases hupper : computeBlockMaxAtPivot st1.terms k ≤ tpTopkThreshold st.heap
          · obtain ⟨hinv2, hle2, hlt2⟩ := hinv1.skip hpiv.pos hlen1 hact1 (hheap ▸ hupper)
            refine ⟨true, blockMaxSkipAdvance st1 k, scored, ?_, hinv2, fun _ => ?_, by simp⟩
            · simp [wandStep, hactive, hfind, hseek', hbeyond, hupper]
            · rcases hprog with h | ⟨hsame, -⟩
              · omega
              · have := hlt2 d (hstill hsame) hdrop1
                rw [hsame] at this ⊢
                exact this
          · by_cases hverify : verifyPivotAlignment st1.terms k d = true
            · have htake1 : ∀ t ∈ st1.terms.take k, t.currentDocId = d := by
                intro t ht
                have := List.all_eq_true.1 hverify t ht
                simpa using this
              have hsafe1 : SafeBelow st1.heap scored (f.allowed P ref) st1.terms d :=
                hheap ▸ hs1.safe
              have hupper1 : tpTopkThreshold st1.heap < computeBlockMaxAtPivot st1.terms k :=
                hheap ▸ not_le.1 hupper
              have hfewer : ∀ st2 : WandState Term, totalRem st2.terms < totalRem st1.terms →
                  totalRem st2.terms < totalRem st.terms := by
                intro st2 hlt2
                rcases hprog with h | ⟨rfl, -⟩
                · omega
                · exact hlt2
              -- the cursors are inside of the range, so only the tenant is left to look at
              obtain ⟨t, ht, p, hp, hpd⟩ := exists_pivot_posting hc1 hd hpiv.pos hlen1 htake1
              have hmin : f.minDocId ≤ d := hpd ▸ hinv1.ahead t ht p hp
              have hkeeps := hf.keeps_iff hmin (Nat.not_lt.1 hbeyond)
              by_cases hkeep : f.Keeps d
              · obtain ⟨scored', hinv2, hlt2⟩ := hinv1.score_pivot hd hkeep hpiv.pos hlen1 htake1
                  hdrop1 hsafe1 hupper1 rfl
                refine ⟨true, _, scored', ?_, hinv2, fun _ => hfewer _ hlt2, by simp⟩
                simp only [wandStep, hactive, if_true, hfind, hseek', hbeyond, if_false, hupper,
                  hverify, Bool.not_true, Bool.false_eq_true, if_neg (hkeeps.1 hkeep)]
              · have hcheck := not_not.1 (mt hkeeps.2 hkeep)
                obtain ⟨hinv2, hlt2⟩ := hinv1.leave_pivot hd hkeep hcheck.1 hbytes hpiv.pos hlen1
                  htake1 hdrop1 hsafe1
                refine ⟨true, _, scored, ?_, hinv2, fun _ => hfewer _ hlt2, by simp⟩
                simp only [wandStep, hactive, if_true, hfind, hseek', hbeyond, if_false, hupper,
                  hverify, Bool.not_true, Bool.false_eq_true, if_pos hcheck]
            · refine ⟨true, st1, scored, ?_, hinv1, fun _ => ?_, by simp⟩
              · simp [wandStep, hactive, hfind, hseek', hbeyond, hupper, hverify]
              · rcases hprog with h | ⟨hsame, -⟩
                · exact h
                · exfalso
                  apply hverify
                  rw [verifyPivotAlignment, List.all_eq_true]
                  intro t ht
                  simpa using hstill hsame t ht
    · refine ⟨false, st, scored, ?_, hinv, by simp, fun _ => hinv.allSettled_of_no_pivot hsum⟩
      simp [wandStep, hactive, hfind]
  · refine ⟨false, st, scored, ?_, hinv, by simp, fun _ => hinv.allSettled_of_inactive hactive⟩
    simp [wandStep, hactive]

/-- **The whole run** ends, with every document accounted for. -/
theorem wandLoop_spec (hf : f.Sound) (hbytes : ∀ t ∈ ref, ∀ blk ∈ t.blocks, f.BytesSound blk)
    (fuel : Nat) {st : WandState Term} (hinv : WandInv P f start ref scored st)
    (hfuel : totalRem st.terms < fuel) :
    ∃ st' scored', wandLoop P f.reader f.tenantId f.maxDocId fuel st = some st' ∧
      WandInv P f start ref scored' st' ∧
      AllSettled st'.heap scored' (f.allowed P ref) := by
  induction fuel generalizing st scored with
  | zero => omega
  | succ fuel ih =>
      obtain ⟨b, st1, scored1, hstep, hinv1, hgo, hstop⟩ := wandStep_spec hf hbytes hinv
      cases b with
      | false => exact ⟨st1, scored1, by simp [wandLoop, hstep], hinv1, hstop rfl⟩
      | true =>
          have := hgo rfl
          obtain ⟨st', scored', hrun, hinv', hall⟩ := ih hinv1 (by omega)
          exact ⟨st', scored', by simp [wandLoop, hstep, hrun], hinv', hall⟩

end Run

/-! ## The search as a whole -/

section Segment

variable [DecidableEq Term]

/-- The postings of a query term in the segment. -/
def termPostings (reader : SegmentReader Term) (q : TermState Term) : List BlockPosting :=
  ((reader.findTerm q.term).map DictEntry.postings).getD []

/-- What a query term adds to the score of a document of the segment: the BM25
score of its posting, times its frequency in the query. -/
def termContribution (P : ScoreParams) (reader : SegmentReader Term) (q : TermState Term)
    (docId : Nat) : ℚ :=
  (((termPostings reader q).find? (·.docId = docId)).map (q.postingScore P)).getD 0

/-- The full score of a document of the segment. -/
def segmentDocScore (P : ScoreParams) (reader : SegmentReader Term) (query : List (TermState Term))
    (docId : Nat) : ℚ :=
  (query.map fun q => termContribution P reader q docId).sum

/-- The documents of the segment that contain at least one query term. -/
def matchingDocs (reader : SegmentReader Term) (query : List (TermState Term)) : List Nat :=
  (query.flatMap fun q =>
    ((termPostings reader q).filter (fun p => decide (0 < p.frequency))).map
      BlockPosting.docId).dedup

/-- What the block maxima allow a query term to add to the score of a document. -/
def termBound (P : ScoreParams) (reader : SegmentReader Term) (q : TermState Term)
    (docId : Nat) : ℚ :=
  ((((reader.findTerm q.term).map DictEntry.blocks).getD []).find?
    (fun blk => blk.postings.any (·.docId = docId))).elim 0 (q.blockBound P)

/-- What the block maxima allow a document of the segment to score. -/
def segmentDocBound (P : ScoreParams) (reader : SegmentReader Term) (query : List (TermState Term))
    (docId : Nat) : ℚ :=
  (query.map fun q => termBound P reader q docId).sum

/-- What every search relies on: weights that are not negative, and for every query term
found in the segment a well-formed posting list in which a block with an occurrence has a
positive maximal frequency. -/
structure Scorable (reader : SegmentReader Term) (query : List (TermState Term)) : Prop where
  idf_nonneg : ∀ q ∈ query, 0 ≤ q.idf
  queryFreq_pos : ∀ q ∈ query, 0 < q.queryFreq
  wellFormed : ∀ q ∈ query, ∀ e, reader.findTerm q.term = some e → e.WellFormed
  positive : ∀ q ∈ query, ∀ e, reader.findTerm q.term = some e → ∀ blk ∈ e.blocks,
    ∀ p ∈ blk.postings, 0 < p.frequency → 0 < blk.skip.blockMaxTf

/-- The same with weights that are positive for the terms found, so that every occurrence
scores. -/
structure Rankable (reader : SegmentReader Term) (query : List (TermState Term)) : Prop
    extends Scorable reader query where
  idf_pos : ∀ q ∈ query, ∀ e, reader.findTerm q.term = some e → e.blocks ≠ [] → 0 < q.idf

/-- What the search asks of its input: positive weights, and for every query
term found in the segment a well-formed posting list with sound block maxima. -/
structure Searchable (P : ScoreParams) (reader : SegmentReader Term)
    (query : List (TermState Term)) : Prop where
  idf_pos : ∀ q ∈ query, 0 < q.idf
  queryFreq_pos : ∀ q ∈ query, 0 < q.queryFreq
  wellFormed : ∀ q ∈ query, ∀ e, reader.findTerm q.term = some e → e.WellFormed
  sound : ∀ q ∈ query, ∀ e, reader.findTerm q.term = some e → ∀ blk ∈ e.blocks,
    BlockMaxSound P q.idf blk

theorem mem_matchingDocs {reader : SegmentReader Term} {query : List (TermState Term)} {d : Nat} :
    d ∈ matchingDocs reader query ↔
      ∃ q ∈ query, ∃ p ∈ termPostings reader q, 0 < p.frequency ∧ p.docId = d := by
  simp only [matchingDocs, List.mem_dedup, List.mem_flatMap, List.mem_map, List.mem_filter,
    decide_eq_true_eq, and_assoc]

variable {reader : SegmentReader Term} {query : List (TermState Term)}

/-- A sound bound on a block with an occurrence is positive, and so is its maximal
frequency. -/
theorem Searchable.rankable (hs : Searchable P reader query) : Rankable reader query where
  idf_nonneg := fun q hq => (hs.idf_pos q hq).le
  idf_pos := fun q hq _ _ _ => hs.idf_pos q hq
  queryFreq_pos := hs.queryFreq_pos
  wellFormed := hs.wellFormed
  positive := by
    intro q hq e he blk hblk p hp hfreq
    have hscore := P.score_pos (hs.idf_pos q hq) p.docLength hfreq
    have hle := hs.sound q hq e he blk hblk p hp
    by_contra hzero
    have htf : blk.skip.blockMaxTf = 0 := by omega
    rw [P.blockMax_eq_score, htf] at hle
    simp only [Nat.cast_zero, ScoreParams.score_zero_tf] at hle
    exact absurd hscore (not_lt.2 hle)

theorem Scorable.initialised (hs : Scorable reader query) (P : ScoreParams) {q : TermState Term}
    (hq : q ∈ query) : Initialised P reader q (initTermState P reader q) :=
  initTermState_initialised P reader q (hs.queryFreq_pos q hq).le (hs.wellFormed q hq)

theorem Scorable.ready_init (hs : Scorable reader query) (P : ScoreParams) {q : TermState Term}
    (hq : q ∈ query) : (initTermState P reader q).2.Ready P :=
  initTermState_spec P reader q (hs.idf_nonneg q hq) (hs.queryFreq_pos q hq)
    (hs.wellFormed q hq) (hs.positive q hq)

theorem Scorable.postings_init (hs : Scorable reader query) (P : ScoreParams) {q : TermState Term}
    (hq : q ∈ query) : (initTermState P reader q).2.postings = termPostings reader q := by
  rw [TermState.postings, (hs.initialised P hq).blocks, termPostings]
  cases reader.findTerm q.term <;> rfl

/-- A cursor contributes what its query term does. -/
theorem Scorable.contrib_init (hs : Scorable reader query) (P : ScoreParams) {q : TermState Term}
    (hq : q ∈ query) (d : Nat) :
    (initTermState P reader q).2.contrib P d = termContribution P reader q d := by
  have hinit := hs.initialised P hq
  have hscore : (initTermState P reader q).2.postingScore P = q.postingScore P := by
    funext p
    simp [TermState.postingScore, hinit.idf, hinit.queryFreq]
  unfold TermState.contrib termContribution
  rw [hs.postings_init P hq, hscore]

/-- It is allowed what its query term is. -/
theorem Scorable.docBound_init (hs : Scorable reader query) (P : ScoreParams) {q : TermState Term}
    (hq : q ∈ query) (d : Nat) :
    (initTermState P reader q).2.docBound P d = termBound P reader q d := by
  have hinit := hs.initialised P hq
  have hblock : (initTermState P reader q).2.blockBound P = q.blockBound P := by
    funext blk
    simp [TermState.blockBound, hinit.idf, hinit.queryFreq]
  unfold TermState.docBound termBound
  rw [hinit.blocks, hblock]
  cases List.find? _ _ <;> rfl

theorem Scorable.docScore_eq (hs : Scorable reader query) (P : ScoreParams)
    {ref : List (TermState Term)}
    (hperm : ((initCursors P reader query).map TermState.static).Perm ref) (d : Nat) :
    termsDocScore P ref d = segmentDocScore P reader query d := by
  have hsum := (hperm.map fun ts => ts.contrib P d).sum_eq
  unfold termsDocScore segmentDocScore
  rw [← hsum, initCursors, List.map_map, List.map_map]
  congr 1
  apply List.map_congr_left
  intro q hq
  exact hs.contrib_init P hq d

theorem Scorable.docBound_eq (hs : Scorable reader query) (P : ScoreParams)
    {ref : List (TermState Term)}
    (hperm : ((initCursors P reader query).map TermState.static).Perm ref) (d : Nat) :
    (ref.map fun ts => ts.docBound P d).sum = segmentDocBound P reader query d := by
  have hsum := (hperm.map fun ts => ts.docBound P d).sum_eq
  unfold segmentDocBound
  rw [← hsum, initCursors, List.map_map, List.map_map]
  congr 1
  apply List.map_congr_left
  intro q hq
  exact hs.docBound_init P hq d

/-- What a query term adds is the score of its posting, or nothing. -/
theorem Scorable.contribution_cases (hs : Scorable reader query) (P : ScoreParams)
    {q : TermState Term} (hq : q ∈ query) (d : Nat) :
    termContribution P reader q d = 0 ∨ ∃ p ∈ termPostings reader q, p.docId = d ∧
      termContribution P reader q d = q.postingScore P p ∧
      (0 < q.postingScore P p ↔ 0 < q.idf ∧ 0 < p.frequency) := by
  have hinit := hs.initialised P hq
  have hr := hs.ready_init P hq
  have hscore : (initTermState P reader q).2.postingScore P = q.postingScore P := by
    funext p
    simp [TermState.postingScore, hinit.idf, hinit.queryFreq]
  rw [← hs.contrib_init P hq, ← hs.postings_init P hq, ← hscore, ← hinit.idf]
  rcases hr.contrib_cases d with ⟨-, h0⟩ | ⟨p, hp, hpd, hps⟩
  · exact Or.inl h0
  · exact Or.inr ⟨p, hp, hpd, hps, hr.of_postingScore_pos,
      fun h => hr.postingScore_pos h.1 h.2⟩

theorem Scorable.contribution_nonneg (hs : Scorable reader query) (P : ScoreParams)
    {q : TermState Term} (hq : q ∈ query) (d : Nat) : 0 ≤ termContribution P reader q d := by
  rw [← hs.contrib_init P hq]
  exact (hs.ready_init P hq).contrib_nonneg d

/-- Only matching documents score above zero. -/
theorem Scorable.matching_of_docScore_pos (hs : Scorable reader query) {d : Nat}
    (hpos : 0 < segmentDocScore P reader query d) : d ∈ matchingDocs reader query := by
  rw [mem_matchingDocs]
  by_contra hnone
  push Not at hnone
  refine absurd hpos (not_lt.2 (List.sum_eq_zero ?_).le)
  intro x hx
  obtain ⟨q, hq, rfl⟩ := List.mem_map.1 hx
  rcases hs.contribution_cases P hq d with h0 | ⟨p, hp, hpd, heq, hiff⟩
  · exact h0
  · have hscore : ¬ 0 < q.postingScore P p := fun h => hnone q hq p hp (hiff.1 h).2 hpd
    exact le_antisymm (heq ▸ not_lt.1 hscore) (hs.contribution_nonneg P hq d)

/-- A document with an occurrence of a term that has a weight scores. -/
theorem Scorable.docScore_pos (hs : Scorable reader query) (P : ScoreParams) {q : TermState Term}
    (hq : q ∈ query) (hidf : 0 < q.idf) {p : BlockPosting} (hp : p ∈ termPostings reader q)
    (hfreq : 0 < p.frequency) : 0 < segmentDocScore P reader query p.docId := by
  have hr := hs.ready_init P hq
  have hmem : p ∈ (initTermState P reader q).2.postings := by
    rw [hs.postings_init P hq]
    exact hp
  have hcontrib : 0 < termContribution P reader q p.docId := by
    rw [← hs.contrib_init P hq, hr.contrib_of_mem hmem]
    exact hr.postingScore_pos ((hs.initialised P hq).idf ▸ hidf) hfreq
  refine lt_of_lt_of_le hcontrib ?_
  apply List.single_le_sum
  · intro x hx
    obtain ⟨q', hq', rfl⟩ := List.mem_map.1 hx
    exact hs.contribution_nonneg P hq' _
  · exact List.mem_map_of_mem hq

/-- Exactly the matching documents score above zero. -/
theorem Rankable.docScore_pos_iff (hs : Rankable reader query) (P : ScoreParams) (d : Nat) :
    0 < segmentDocScore P reader query d ↔ d ∈ matchingDocs reader query := by
  refine ⟨hs.toScorable.matching_of_docScore_pos, fun hd => ?_⟩
  obtain ⟨q, hq, p, hp, hfreq, rfl⟩ := mem_matchingDocs.1 hd
  refine hs.toScorable.docScore_pos P hq ?_ hp hfreq
  cases hfind : reader.findTerm q.term with
  | none =>
      simp only [termPostings, hfind] at hp
      cases hp
  | some e =>
      refine hs.idf_pos q hq e hfind fun hnil => ?_
      simp only [termPostings, hfind, Option.map_some, Option.getD_some, DictEntry.postings,
        hnil] at hp
      cases hp

/-- Over sound block maxima a document scores at most what they allow it. -/
theorem Scorable.docScore_le_docBound (hs : Scorable reader query)
    (hsound : ∀ q ∈ query, ∀ e, reader.findTerm q.term = some e → ∀ blk ∈ e.blocks,
      BlockMaxSound P q.idf blk) (d : Nat) :
    segmentDocScore P reader query d ≤ segmentDocBound P reader query d := by
  apply List.sum_le_sum
  intro q hq
  have hinit := hs.initialised P hq
  rw [← hs.contrib_init P hq, ← hs.docBound_init P hq]
  apply (hs.ready_init P hq).contrib_le_docBound
  rw [hinit.blocks, hinit.idf]
  cases hfind : reader.findTerm q.term with
  | none => exact fun blk hblk => (List.not_mem_nil hblk).elim
  | some e => exact hsound q hq e hfind

theorem Searchable.docScore_le_docBound (hs : Searchable P reader query) (d : Nat) :
    segmentDocScore P reader query d ≤ segmentDocBound P reader query d :=
  hs.rankable.docScore_le_docBound hs.sound d

/-- The documents of the segment that match and that the filter keeps. -/
def keptDocs (f : DocFilter Term) (query : List (TermState Term)) : List Nat :=
  (matchingDocs f.reader query).filter fun d => decide (f.Keeps d)

/-- The cursors the loop starts with satisfy the cursor invariant. -/
theorem Scorable.cursors (hs : Scorable reader query) (P : ScoreParams) (qs : Qsort)
    (heap : TopKHeap) (minDocId : Nat) :
    Cursors P ((qs.sort compareTermDocId (initCursors P reader query)).map TermState.static)
      (wandStart qs P reader heap query minDocId).terms
      (wandStart qs P reader heap query minDocId).activeCount := by
  have hplaced : ∀ t ∈ qs.sort compareTermDocId (initCursors P reader query), t.Ready P := by
    intro t ht
    obtain ⟨q, hq, rfl⟩ := List.mem_map.1 ((qs.perm _ _).mem_iff.1 ht)
    exact hs.ready_init P hq
  have hstart := placedCursors_wandStart qs P reader heap minDocId
    (fun q hq => (hs.queryFreq_pos q hq).le) hs.wellFormed
  have hterms := wandStart_terms qs P reader heap query minDocId
  refine ⟨hstart, ?_, ?_⟩
  · intro t ht
    obtain ⟨t', ht', rfl⟩ := List.mem_map.1 (hterms.subset ht)
    have hspec := seekToMin_spec minDocId (hplaced t' ht').toPlaced
    exact (hplaced t' ht').of_static hspec.1 hspec.2.1
  · refine (hterms.map _).trans ?_
    rw [List.map_map]
    apply List.Perm.of_eq
    apply List.map_congr_left
    intro t ht
    exact (seekToMin_spec minDocId (hplaced t ht).toPlaced).2.1

/-- What is left of a posting list at the start: everything from the range on. -/
theorem Scorable.rem_start (hs : Scorable reader query) (P : ScoreParams) (qs : Qsort)
    (heap : TopKHeap) (minDocId : Nat) {t : TermState Term}
    (ht : t ∈ (wandStart qs P reader heap query minDocId).terms) :
    t.rem = t.postings.dropWhile (·.docId < minDocId) := by
  obtain ⟨t', ht', rfl⟩ :=
    List.mem_map.1 ((wandStart_terms qs P reader heap query minDocId).subset ht)
  obtain ⟨q, hq, rfl⟩ := List.mem_map.1 ((qs.perm _ _).mem_iff.1 ht')
  have hinit := hs.initialised P hq
  obtain ⟨-, hstatic, hrem⟩ := seekToMin_spec minDocId hinit.placed
  rw [hrem, hinit.rem]
  congr 1
  exact (congrArg TermState.postings hstatic).symm

/-- What a search of the segment has done to the heap once it has scored the
documents `scored` of `docs`: it holds the largest scores, nothing but starting entries
and scored documents with their full sums, and every document of `docs` left out is
ruled out by what the block maxima allow it. -/
structure ScoredAmong (P : ScoreParams) (reader : SegmentReader Term)
    (query : List (TermState Term)) (docs : List Nat) (heap heap' : TopKHeap)
    (scored : List Nat) : Prop where
  valid : heap'.ScoreValid
  capacity : heap'.capacity = heap.capacity
  nodup : scored.Nodup
  matching : ∀ d ∈ scored, d ∈ docs
  scores : heap'.scores = kLargest heap.capacity
    (heap.scores + (scored : Multiset Nat).map (segmentDocScore P reader query))
  entries : (heap'.entries : Multiset HeapEntry) ≤ (heap.entries : Multiset HeapEntry) +
    (scored : Multiset Nat).map fun d =>
      segmentEntry reader.rootBlock d (segmentDocScore P reader query d)
  omitted : ∀ d ∈ docs, d ∉ scored →
    heap'.Full ∧ ∀ e ∈ heap'.entries, segmentDocBound P reader query d ≤ e.score

/-- The same for a search without a filter. -/
def Scored (P : ScoreParams) (reader : SegmentReader Term) (query : List (TermState Term))
    (heap heap' : TopKHeap) (scored : List Nat) : Prop :=
  ScoredAmong P reader query (matchingDocs reader query) heap heap' scored

/-- The query term a cursor stands for. -/
def TermState.queryTerm (ts : TermState Term) : Term × ℚ × Int := (ts.term, ts.idf, ts.queryFreq)

/-- `score_segment_multi_term_bmw` with the array of cursors it leaves behind: the search
of the next segment starts from them. -/
def searchFiltered (qs : Qsort) (P : ScoreParams) (f : DocFilter Term) (heap : TopKHeap)
    (query : List (TermState Term)) : Option (WandState Term) :=
  if (query.map (initTermState P f.reader)).countP (·.1) = 0 then
    some ⟨heap, initCursors P f.reader query, 0⟩
  else
    let start := wandStart qs P f.reader heap query f.minDocId
    wandLoop P f.reader f.tenantId f.maxDocId (totalRem start.terms + 1) start

/-- The same without a tenant filter. -/
def searchSegment (qs : Qsort) (P : ScoreParams) (reader : SegmentReader Term) (heap : TopKHeap)
    (query : List (TermState Term)) : Option (WandState Term) :=
  if (query.map (initTermState P reader)).countP (·.1) = 0 then
    some ⟨heap, initCursors P reader query, 0⟩
  else
    let start := wandStart qs P reader heap query 0
    wandLoop P reader 0 uint32Max (totalRem start.terms + 1) start

theorem searchFiltered_heap (qs : Qsort) (P : ScoreParams) (f : DocFilter Term) (heap : TopKHeap)
    (query : List (TermState Term)) :
    (searchFiltered qs P f heap query).map (·.heap) =
      scoreSegmentMultiTermBmw qs P f.reader heap query f.tenantId f.minDocId f.maxDocId := by
  rw [scoreSegmentMultiTermBmw_eq, searchFiltered]
  split
  · rfl
  · rfl

theorem searchFiltered_unfiltered (qs : Qsort) (P : ScoreParams) (reader : SegmentReader Term)
    (heap : TopKHeap) (query : List (TermState Term)) :
    searchFiltered qs P (DocFilter.unfiltered reader) heap query =
      searchSegment qs P reader heap query := rfl

theorem searchSegment_heap (qs : Qsort) (P : ScoreParams) (reader : SegmentReader Term)
    (heap : TopKHeap) (query : List (TermState Term)) :
    (searchSegment qs P reader heap query).map (·.heap) =
      scoreSegmentMultiTermBmw qs P reader heap query 0 0 uint32Max :=
  searchFiltered_heap qs P (DocFilter.unfiltered reader) heap query

/-- **A search with a filter** under which every matching document it keeps scores, from any
score-ordered heap and over any block maxima, also keeps the query terms. -/
theorem searchFiltered_scored (qs : Qsort) (P : ScoreParams) {f : DocFilter Term} (hf : f.Sound)
    (heap : TopKHeap) (query : List (TermState Term)) (hs : Scorable f.reader query)
    (hpositive : ∀ d ∈ keptDocs f query, 0 < segmentDocScore P f.reader query d)
    (hheap : heap.ScoreValid) :
    ∃ st scored, searchFiltered qs P f heap query = some st ∧
      (st.terms.map TermState.queryTerm).Perm (query.map TermState.queryTerm) ∧
        ScoredAmong P f.reader query (keptDocs f query) heap st.heap scored := by
  have hinit : (initCursors P f.reader query).map TermState.queryTerm =
      query.map TermState.queryTerm := by
    rw [initCursors, List.map_map]
    apply List.map_congr_left
    intro q hq
    have h := hs.initialised P hq
    simp only [Function.comp_apply, TermState.queryTerm, h.term, h.idf, h.queryFreq]
  have hc := hs.cursors P qs heap f.minDocId
  obtain ⟨ref, href⟩ : ∃ ref, ref =
    (qs.sort compareTermDocId (initCursors P f.reader query)).map TermState.static := ⟨_, rfl⟩
  have hperm : ((initCursors P f.reader query).map TermState.static).Perm ref := by
    rw [href]
    exact ((qs.perm _ _).map _).symm
  have hfull : termsDocScore P ref = segmentDocScore P f.reader query := by
    funext d
    exact hs.docScore_eq P hperm d
  have hbytes : ∀ t ∈ ref, ∀ blk ∈ t.blocks, f.BytesSound blk := by
    intro t ht blk hblk
    obtain ⟨t', ht', rfl⟩ := List.mem_map.1 (hperm.symm.subset ht)
    obtain ⟨q, hq, rfl⟩ := List.mem_map.1 ht'
    have hblocks : blk ∈ (initTermState P f.reader q).2.blocks := hblk
    rw [(hs.initialised P hq).blocks] at hblocks
    cases hfind : f.reader.findTerm q.term with
    | none =>
        rw [hfind] at hblocks
        cases hblocks
    | some e =>
        rw [hfind] at hblocks
        exact hf.bytes q.term e hfind blk hblocks
  rw [← href] at hc
  have hheapStart : (wandStart qs P f.reader heap query f.minDocId).heap = heap := by
    unfold wandStart
    simp only
    split <;> rfl
  -- the initial state satisfies the loop invariant with nothing scored
  have hstart : WandInv P f heap ref [] (wandStart qs P f.reader heap query f.minDocId) := by
    have hcardle : Multiset.card heap.scores ≤ heap.capacity := by
      simpa [TopKHeap.scores, TopKHeap.keys] using hheap.size_le
    refine ⟨hc, ?_, ?_, ?_, ?_, List.nodup_nil, by simp, by simp, ?_, ?_, ?_⟩
    · rw [hheapStart]
      exact hheap
    · rw [hheapStart]
    · simp [hheapStart, kLargest_of_card_le hcardle]
    · simp [hheapStart]
    · intro d hd
      refine Or.inr (DocFilter.settles_allowed fun hkeep => absurd ?_ hd)
      -- the cursors have passed no document of the range
      intro t ht p hp hpd
      rw [hs.rem_start P qs heap f.minDocId ht]
      exact mem_dropWhile_of_le hp (hpd ▸ hkeep.1)
    · intro d hd
      cases hd
    · intro t ht p hp
      have hsorted := (hc.ready t ht).sorted.sublist t.rem_suffix.sublist
      rw [hs.rem_start P qs heap f.minDocId ht] at hp hsorted
      exact le_of_mem_dropWhile hsorted hp
  have hfinish : ∀ {scored : List Nat} {st : WandState Term},
      WandInv P f heap ref scored st → AllSettled st.heap scored (f.allowed P ref) →
      ScoredAmong P f.reader query (keptDocs f query) heap st.heap scored := by
    intro scored st hinv hall
    have hscores := hinv.scores
    have hentries := hinv.entries
    rw [hfull] at hscores hentries
    refine ⟨hinv.valid, hinv.capacity, hinv.nodup, ?_, hscores, hentries, ?_⟩
    · intro d hd
      have hpos := hinv.scored_pos d hd
      rw [hfull] at hpos
      exact List.mem_filter.2 ⟨hs.matching_of_docScore_pos hpos, decide_eq_true (hinv.kept d hd)⟩
    · intro d hd hnot
      have hkeep : f.Keeps d := of_decide_eq_true (List.mem_filter.1 hd).2
      have hpos : 0 < termsDocScore P ref d := by
        rw [hfull]
        exact hpositive d hd
      have hbound : termsDocBound P ref d = segmentDocBound P f.reader query d := by
        rw [termsDocBound, if_pos hpos, hs.docBound_eq P hperm]
      have hset := (hall d).resolve_left hnot
      have hbpos := hc.docBound_pos hpos
      rw [DocFilter.allowed, if_pos hkeep, hbound] at hset
      rw [hbound] at hbpos
      exact hset.resolve_left (not_le.2 hbpos)
  by_cases hactive : (query.map (initTermState P f.reader)).countP (·.1) = 0
  · -- no query term occurs in the segment
    refine ⟨⟨heap, initCursors P f.reader query, 0⟩, [], by simp [searchFiltered, hactive], ?_, ?_⟩
    · simp only [hinit]
      exact List.Perm.refl _
    · have hnone : ¬ (wandStart qs P f.reader heap query f.minDocId).activeCount > 0 := by
        unfold wandStart
        simp only [hactive]
        split
        · simp only [seekTermsToMin_eq]
          omega
        · simp
      have hleft := hfinish hstart (hstart.allSettled_of_inactive hnone)
      rw [hheapStart] at hleft
      exact hleft
  · obtain ⟨st', scored', hrun, hinv', hall⟩ := wandLoop_spec hf hbytes
      (totalRem (wandStart qs P f.reader heap query f.minDocId).terms + 1) hstart
      (Nat.lt_succ_self _)
    refine ⟨st', scored', by rw [searchFiltered, if_neg hactive]; exact hrun, ?_,
      hfinish hinv' hall⟩
    -- moving the cursors keeps the query terms
    have hstatic := (hinv'.cursors.static_perm.trans hperm.symm).map TermState.queryTerm
    simp only [List.map_map] at hstatic
    rw [← hinit]
    exact hstatic

/-- **A search without a tenant filter** scores every matching document its block maxima
allow into the heap. -/
theorem searchSegment_scored (qs : Qsort) (P : ScoreParams)
    (reader : SegmentReader Term) (heap : TopKHeap) (query : List (TermState Term))
    (hs : Rankable reader query) (hheap : heap.ScoreValid) :
    ∃ st scored, searchSegment qs P reader heap query = some st ∧
      (st.terms.map TermState.queryTerm).Perm (query.map TermState.queryTerm) ∧
        Scored P reader query heap st.heap scored := by
  have hdocs : keptDocs (DocFilter.unfiltered reader) query = matchingDocs reader query := by
    refine List.filter_eq_self.2 fun d hd => decide_eq_true ?_
    obtain ⟨q, hq, p, hp, -, rfl⟩ := mem_matchingDocs.1 hd
    replace hp : p ∈ termPostings reader q := hp
    rw [← hs.toScorable.postings_init P hq] at hp
    exact DocFilter.keeps_unfiltered.2 ((hs.toScorable.ready_init P hq).docId_lt hp).le
  have h := searchFiltered_scored qs P (DocFilter.sound_unfiltered reader) heap query
    hs.toScorable (fun d hd => (hs.docScore_pos_iff P d).2 (hdocs ▸ hd)) hheap
  rw [hdocs] at h
  exact h

/-- All documents accounted for: adding the ruled-out matching documents to the
scored ones does not change the largest scores. -/
theorem scores_of_allSettled {heap heap' : TopKHeap} {scored : List Nat} {full : Nat → ℚ}
    {docs : List Nat} (hdocs : docs.Nodup) (hscored : scored.Nodup)
    (hsub : ∀ d ∈ scored, d ∈ docs) (hcap : heap'.capacity = heap.capacity)
    (hscores : heap'.scores = kLargest heap.capacity
      (heap.scores + (scored : Multiset Nat).map full))
    (hall : ∀ d ∈ docs, d ∉ scored → heap'.Full ∧ ∀ e ∈ heap'.entries, full d ≤ e.score) :
    heap'.scores = kLargest heap.capacity (heap.scores + (docs : Multiset Nat).map full) := by
  have hle : (scored : Multiset Nat) ≤ (docs : Multiset Nat) :=
    (Multiset.le_iff_subset (Multiset.coe_nodup.2 hscored)).2 fun d hd => hsub d hd
  obtain ⟨rest, hrest⟩ := Multiset.le_iff_exists_add.1 hle
  have hruled : ∀ d ∈ rest, heap'.Full ∧ ∀ e ∈ heap'.entries, full d ≤ e.score := by
    intro d hd
    have hdocsd : d ∈ docs := by
      rw [← Multiset.mem_coe, hrest]
      exact Multiset.mem_add.2 (Or.inr hd)
    have hnot : d ∉ scored := by
      intro hmem
      have hnd := Multiset.coe_nodup.2 hdocs
      rw [hrest, Multiset.nodup_add] at hnd
      exact (Multiset.disjoint_left.1 hnd.2.2) hmem hd
    exact hall d hdocsd hnot
  rw [hrest, Multiset.map_add, ← add_assoc]
  by_cases hempty : rest = 0
  · simp [hempty, hscores]
  · obtain ⟨d, hd⟩ := Multiset.exists_mem_of_ne_zero hempty
    have hfull := (hruled d hd).1
    have hcard := congrArg Multiset.card hscores
    rw [card_kLargest] at hcard
    have hsize : Multiset.card heap'.scores = heap'.entries.length := by
      simp [TopKHeap.scores, TopKHeap.keys]
    rw [kLargest_add_of_le, hscores]
    · unfold TopKHeap.Full at hfull
      omega
    · intro y hy z hz
      obtain ⟨d', hd', rfl⟩ := Multiset.mem_map.1 hy
      rw [← hscores] at hz
      obtain ⟨e, he, rfl⟩ := List.mem_map.1 (Multiset.mem_coe.1 hz)
      exact (hruled d' hd').2 e he

/-- **Block-Max WAND equals exhaustive scoring.**  On a searchable segment,
without a tenant filter and from any score-ordered heap of capacity at least
one, the search ends with a heap that holds the `capacity` largest among the
starting scores and the full scores of all matching documents; and it holds
nothing but starting entries and matching documents with exactly their full
score, each at most once. -/
theorem scoreSegmentMultiTermBmw_correct (qs : Qsort) (P : ScoreParams)
    (reader : SegmentReader Term) (heap : TopKHeap) (query : List (TermState Term))
    (hs : Searchable P reader query) (hheap : heap.ScoreValid) :
    ∃ heap', scoreSegmentMultiTermBmw qs P reader heap query 0 0 uint32Max = some heap' ∧
      heap'.scores = kLargest heap.capacity (heap.scores +
        (matchingDocs reader query : Multiset Nat).map (segmentDocScore P reader query)) ∧
      (heap'.entries : Multiset HeapEntry) ≤ (heap.entries : Multiset HeapEntry) +
        (matchingDocs reader query : Multiset Nat).map fun d =>
          segmentEntry reader.rootBlock d (segmentDocScore P reader query d) := by
  obtain ⟨st, scored, hrun, -, hsc⟩ :=
    searchSegment_scored qs P reader heap query hs.rankable hheap
  have hnodup : (matchingDocs reader query).Nodup := List.nodup_dedup _
  refine ⟨st.heap, by rw [← searchSegment_heap, hrun]; rfl,
    scores_of_allSettled hnodup hsc.nodup hsc.matching hsc.capacity hsc.scores
    ?_, hsc.entries.trans ?_⟩
  · intro d hd hnot
    obtain ⟨hfull, hall⟩ := hsc.omitted d hd hnot
    exact ⟨hfull, fun e he => (hs.docScore_le_docBound d).trans (hall e he)⟩
  · have hle : (scored : Multiset Nat) ≤ (matchingDocs reader query : Multiset Nat) :=
      (Multiset.le_iff_subset (Multiset.coe_nodup.2 hsc.nodup)).2 fun d hd => hsc.matching d hd
    exact add_le_add_right (Multiset.map_le_map hle) _

end Segment

/-! ### A segment of two terms -/

private theorem singletonBlock_sound (P : ScoreParams) (idf : ℚ) (docId frequency : Nat)
    (fieldnorm : Fin 256) : BlockMaxSound P idf (singletonBlock docId frequency fieldnorm) := by
  intro p hp
  obtain rfl := List.mem_singleton.1 hp
  exact le_refl _

theorem twoTermQuery_searchable (P : ScoreParams) : Searchable P twoTermReader twoTermQuery := by
  constructor
  · intro q hq
    simp only [twoTermQuery, List.mem_cons, List.not_mem_nil, or_false] at hq
    rcases hq with rfl | rfl
    · norm_num [freshTermState]
    · norm_num [freshTermState]
  · intro q hq
    simp only [twoTermQuery, List.mem_cons, List.not_mem_nil, or_false] at hq
    rcases hq with rfl | rfl <;> decide
  · exact twoTermQuery_wellFormed
  · intro q hq e he blk hblk
    rcases twoTermQuery_entries q hq e he with rfl | rfl
    · simp only [List.mem_cons, List.not_mem_nil, or_false] at hblk
      rcases hblk with rfl | rfl
      · exact singletonBlock_sound P _ 0 2 5
      · exact singletonBlock_sound P _ 3 1 7
    · obtain rfl := List.mem_singleton.1 hblk
      exact singletonBlock_sound P _ 3 1 7

theorem scoreSegmentMultiTermBmw_correct_twoTermQuery :
    ∃ heap', scoreSegmentMultiTermBmw insertionQsort mixedLengthParams twoTermReader
        (tpTopkInit 1) twoTermQuery 0 0 uint32Max = some heap' ∧
      heap'.scores = kLargest 1 ((tpTopkInit 1).scores +
        (matchingDocs twoTermReader twoTermQuery : Multiset Nat).map
          (segmentDocScore mixedLengthParams twoTermReader twoTermQuery)) := by
  obtain ⟨heap', hrun, hscores, -⟩ := scoreSegmentMultiTermBmw_correct insertionQsort
    mixedLengthParams twoTermReader (tpTopkInit 1) twoTermQuery (twoTermQuery_searchable _)
    ⟨by decide, by decide, fun c _ hc => by simp [tpTopkInit] at hc⟩
  exact ⟨heap', hrun, hscores⟩

end PgTextsearch.Query
