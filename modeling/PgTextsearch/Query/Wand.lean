import PgTextsearch.Query.TermState

/-!
# Block-Max WAND over one segment (`query/bmw.c`)

`score_segment_multi_term_bmw`: the cursors of the query terms are kept sorted
by current document; each iteration picks a pivot by the terms' global maxima,
aligns the cursors before it, refines with the block maxima, and then skips,
re-pivots, or scores the pivot document.

The counters of `TpBMWStats` only feed a debug log and are left out.  Loops
carry fuel; running out of it is `none`, and the correctness module shows that
the fuel given is enough.
-/

namespace PgTextsearch.Query

open PgTextsearch.Postgres PgTextsearch.Segment PgTextsearch.Verified

variable {Term : Type}

/-- The variables of the main loop. -/
structure WandState (Term : Type) where
  heap : TopKHeap
  terms : List (TermState Term)
  activeCount : Int

/-- `compare_term_doc_id`. -/
def compareTermDocId (a b : TermState Term) : Int :=
  if a.currentDocId < b.currentDocId then -1
  else if a.currentDocId > b.currentDocId then 1
  else 0

/-- `restore_ordering`: move the term at `ord` right, behind the terms with a
smaller current document. -/
def restoreOrdering (terms : List (TermState Term)) (ord : Nat) : List (TermState Term) :=
  match terms.drop ord with
  | [] => terms
  | t :: rest =>
      terms.take ord ++ (rest.takeWhile (·.currentDocId < t.currentDocId) ++
        t :: rest.dropWhile (·.currentDocId < t.currentDocId))

/-- The loop of `find_wand_pivot`; `i` terms have been passed and `accumulated`
is the sum of their maxima. -/
def findWandPivotLoop (threshold : ℚ) : Nat → ℚ → List (TermState Term) → Option (Nat × Nat)
  | _, _, [] => none
  | i, accumulated, t :: rest =>
      let docId := t.currentDocId
      if docId = uint32Max then none
      else if accumulated + t.maxScore > threshold then
        -- include the following terms that stand on the same document
        some (i + 1 + (rest.takeWhile (·.currentDocId = docId)).length, docId)
      else findWandPivotLoop threshold (i + 1) (accumulated + t.maxScore) rest

/-- `find_wand_pivot`: number of pivot terms and pivot document. -/
def findWandPivot (terms : List (TermState Term)) (threshold : ℚ) : Option (Nat × Nat) :=
  findWandPivotLoop threshold 0 0 terms

/-- `compute_block_max_at_pivot`. -/
def computeBlockMaxAtPivot (terms : List (TermState Term)) (pivotLen : Nat) : ℚ :=
  ((terms.take pivotLen).map TermState.blockUpper).sum

/-- The running values of the scan in `block_max_skip_advance`. -/
structure SkipScan where
  bestScorer : Option Nat
  bestMaxScore : ℚ
  minBlockEnd : Nat

/-- One iteration of that scan. -/
def SkipScan.step (s : SkipScan) (i : Nat) (ts : TermState Term) : SkipScan :=
  if ts.currentDocId = uint32Max then s
  else
    let s := if ts.maxScore > s.bestMaxScore then
        { s with bestMaxScore := ts.maxScore, bestScorer := some i }
      else s
    if ts.blockLastDocIds.isSome ∧ ts.iter.currentBlock < ts.iter.dictEntry.blockCount ∧
        ts.blockLastDocId ts.iter.currentBlock < s.minBlockEnd then
      { s with minBlockEnd := ts.blockLastDocId ts.iter.currentBlock }
    else s

/-- The scan over the pivot terms from position `i` on. -/
def skipScan : List (TermState Term) → Nat → SkipScan → SkipScan
  | [], _, s => s
  | ts :: rest, i, s => skipScan rest (i + 1) (s.step i ts)

/-- A seek target capped by the first non-pivot term, if there is one. -/
def capSeekTarget (seekTarget : Nat) (next : Option (TermState Term)) : Nat :=
  match next with
  | none => seekTarget
  | some n => if n.currentDocId < seekTarget then n.currentDocId else seekTarget

/-- `block_max_skip_advance`: seek the strongest pivot term past the nearest
block end, but not past the first non-pivot term. -/
def blockMaxSkipAdvance (st : WandState Term) (pivotLen : Nat) : WandState Term :=
  let s := skipScan (st.terms.take pivotLen) 0 ⟨none, -1, uint32Max⟩
  match s.bestScorer with
  | none => st
  | some best =>
      match st.terms[best]? with
      | none => st
      | some ts =>
          let seekTarget :=
            if s.minBlockEnd = uint32Max then ts.currentDocId + 1 else s.minBlockEnd + 1
          let r := seekTermToDoc ts (capSeekTarget seekTarget st.terms[pivotLen]?)
          { st with
            terms := restoreOrdering (st.terms.set best r.2) best
            activeCount := if r.1 then st.activeCount else st.activeCount - 1 }

/-- The loop of `seek_to_pivot` at position `i`; after a seek the same position
is examined again, since another term slid into it. -/
def seekToPivotLoop (pivotLen pivotDocId : Nat) :
    Nat → Nat → WandState Term → Option (Bool × WandState Term)
  | 0, _, _ => none
  | fuel + 1, i, st =>
      if i < pivotLen then
        match st.terms[i]? with
        | none => some (true, st)
        | some ts =>
            if ts.currentDocId = uint32Max then
              some (false, { st with activeCount := st.activeCount - 1 })
            else if ts.currentDocId < pivotDocId then
              let r := seekTermToDoc ts pivotDocId
              let terms := restoreOrdering (st.terms.set i r.2) i
              if r.1 then seekToPivotLoop pivotLen pivotDocId fuel i { st with terms := terms }
              else some (false, { st with terms := terms, activeCount := st.activeCount - 1 })
            else seekToPivotLoop pivotLen pivotDocId fuel (i + 1) st
      else some (true, st)

/-- `seek_to_pivot`. -/
def seekToPivot (st : WandState Term) (pivotLen pivotDocId : Nat) :
    Option (Bool × WandState Term) :=
  seekToPivotLoop pivotLen pivotDocId (pivotLen + st.terms.length + 1) 0 st

/-- `verify_pivot_alignment`. -/
def verifyPivotAlignment (terms : List (TermState Term)) (pivotLen pivotDocId : Nat) : Bool :=
  (terms.take pivotLen).all (·.currentDocId = pivotDocId)

/-- `score_pivot_document`. -/
def scorePivotDocument (P : ScoreParams) (terms : List (TermState Term)) (pivotLen : Nat) : ℚ :=
  ((terms.take pivotLen).map fun ts =>
    if !ts.found || ts.iter.finished then 0 else ts.postingScore P ts.iter.current).sum

/-- The backward loop over the pivot terms that moves each one standing on the
pivot document with `op` and restores the order. -/
def movePivotTerms (op : TermState Term → Bool × TermState Term) (pivotDocId : Nat) :
    Nat → WandState Term → WandState Term
  | 0, st => st
  | i + 1, st =>
      match st.terms[i]? with
      | none => movePivotTerms op pivotDocId i st
      | some ts =>
          if ts.currentDocId = pivotDocId then
            let r := op ts
            movePivotTerms op pivotDocId i
              { st with
                terms := restoreOrdering (st.terms.set i r.2) i
                activeCount := if r.1 then st.activeCount else st.activeCount - 1 }
          else movePivotTerms op pivotDocId i st

/-- How a cursor leaves a document of another tenant: past the whole block when
the block belongs to one other tenant, otherwise by one posting.  Only the low
16 bits of the tenant id are kept per block. -/
def leaveForeignDocument (tenantId : Nat) (ts : TermState Term) : Bool × TermState Term :=
  let block := ts.iter.currentBlock
  let skip := (ts.iter.dictEntry.blocks.getD block default).skip
  if ts.found && !ts.iter.finished && ts.blockLastDocIds.isSome &&
      decide (block < ts.iter.dictEntry.blockCount) && skip.tenantMode == .single &&
      skip.tenantIdLow != tenantId % 65536 then
    seekTermToDoc ts (ts.blockLastDocId block + 1)
  else advanceTermIterator ts

/-- One iteration of the main loop; the flag says whether the loop goes on. -/
def wandStep (P : ScoreParams) (reader : SegmentReader Term) (tenantId maxDocId : Nat)
    (st : WandState Term) : Option (Bool × WandState Term) :=
  if st.activeCount > 0 then
    let threshold := tpTopkThreshold st.heap
    match findWandPivot st.terms threshold with
    | none => some (false, st)
    | some (pivotLen, pivotDocId) =>
        if pivotDocId > maxDocId then some (false, st)
        else
          match seekToPivot st pivotLen pivotDocId with
          | none => none
          | some (false, st) => some (true, st)
          | some (true, st) =>
              if computeBlockMaxAtPivot st.terms pivotLen ≤ threshold then
                some (true, blockMaxSkipAdvance st pivotLen)
              else if !verifyPivotAlignment st.terms pivotLen pivotDocId then some (true, st)
              else if tenantId ≠ 0 ∧ maxDocId = uint32Max ∧
                  tpSegmentGetTenantId reader pivotDocId ≠ tenantId then
                some (true, movePivotTerms (leaveForeignDocument tenantId) pivotDocId pivotLen st)
              else
                let docScore := scorePivotDocument P st.terms pivotLen
                let heap := offerSegment st.heap reader.rootBlock pivotDocId docScore
                some (true, movePivotTerms advanceTermIterator pivotDocId pivotLen
                  { st with heap := heap })
  else some (false, st)

/-- The main loop. -/
def wandLoop (P : ScoreParams) (reader : SegmentReader Term) (tenantId maxDocId : Nat) :
    Nat → WandState Term → Option (WandState Term)
  | 0, _ => none
  | fuel + 1, st =>
      match wandStep P reader tenantId maxDocId st with
      | none => none
      | some (false, st) => some st
      | some (true, st) => wandLoop P reader tenantId maxDocId fuel st

/-- Seeking all active terms to the first document of a tenant range. -/
def seekTermsToMin (minDocId : Nat) (terms : List (TermState Term)) (activeCount : Int) :
    List (TermState Term) × Int :=
  let moved := terms.map fun ts =>
    if !ts.found || ts.iter.finished then (true, ts)
    else if ts.currentDocId < minDocId then seekTermToDoc ts minDocId
    else (true, ts)
  (moved.map (·.2), activeCount - moved.countP (fun m => !m.1))

/-- `score_segment_multi_term_bmw`: `minDocId`/`maxDocId` delimit the document
range of a tenant in a tenant-ordered segment, `0` and `UINT32_MAX` otherwise. -/
def scoreSegmentMultiTermBmw [DecidableEq Term] (qs : Qsort) (P : ScoreParams)
    (reader : SegmentReader Term) (heap : TopKHeap) (terms : List (TermState Term))
    (tenantId minDocId maxDocId : Nat) : Option TopKHeap :=
  let inits := terms.map (initTermState P reader)
  let activeCount : Int := inits.countP (·.1)
  if activeCount = 0 then some heap
  else
    let sorted := qs.sort compareTermDocId (inits.map (·.2))
    let start :=
      if minDocId > 0 then
        let moved := seekTermsToMin minDocId sorted activeCount
        (qs.sort compareTermDocId moved.1, moved.2)
      else (sorted, activeCount)
    let fuel := (start.1.map fun ts => ts.rem.length).sum + 1
    (wandLoop P reader tenantId maxDocId fuel ⟨heap, start.1, start.2⟩).map (·.heap)

end PgTextsearch.Query
