import Mathlib.Data.Rat.Defs
import Mathlib.Algebra.Order.Ring.Unbundled.Rat
import Mathlib.Data.List.Basic
import Mathlib.Logic.Function.Iterate
import PgTextsearch.Postgres

/-!
# Index scan (`am/scan.c`, `memtable/scan.c`)

`tp_gettuple` hands out the entries of a ranking one by one.  The ranking is
computed for a limit; when all its entries are handed out and it is as long as the
limit, the query runs again with twice the limit, and the scan goes on behind the
entries already returned.  An entry whose block number is above
`TP_MAX_BLOCK_NUMBER` is passed over.

## Main results

* `tpGettuple_skip` — passing over an entry is a call from the next position.
* `emits_every_result_iff` — the scan ends, and it has emitted the whole ranking
  exactly when no entry lies beyond block `TP_MAX_BLOCK_NUMBER` and a ranking
  shorter than its limit is complete.
-/

namespace PgTextsearch.Am

open PgTextsearch.Postgres

/-- `TP_MAX_QUERY_LIMIT`. -/
def tpMaxQueryLimit : Nat := 100000

/-- `TP_MAX_BLOCK_NUMBER`. -/
def tpMaxBlockNumber : Nat := 1000000

/-- An entry of `result_ctids` and `result_scores`. -/
structure ScanResult where
  ctid : ItemPointer
  score : ℚ
  deriving DecidableEq

/-- The rankings that `tp_score_documents` yields for a scan, one for each limit:
it fills at most `max_results` entries, and a larger limit extends the ranking. -/
structure Rankings where
  results : Nat → List ScanResult
  length_le : ∀ limit, (results limit).length ≤ limit
  grows : ∀ {limit limit' : Nat}, limit ≤ limit' → results limit <+: results limit'

/-- `tp_default_limit`, within the bounds of the setting. -/
structure DefaultLimit where
  value : Nat
  pos : 1 ≤ value
  le_max : value ≤ tpMaxQueryLimit

/-- `TpScanOpaqueData`: the results (`none` is the null pointer) and the position. -/
structure TpScanOpaque where
  results : Option (List ScanResult)
  resultCount : Nat
  currentPos : Nat
  eofReached : Bool
  limit : Int
  maxResultsUsed : Nat
  deriving DecidableEq

/-- What `tp_gettuple` returns: `xs_heaptid` and `xs_orderbyvals[0]`. -/
structure EmittedTuple where
  heaptid : ItemPointer
  orderbyval : ℚ
  deriving DecidableEq

/-- After `tp_rescan`: `queryLimit` is the limit stored by the planner, and the
number of documents of the metapage is left in `result_count`. -/
def tpRescan (queryLimit : Int) (totalDocs : Nat) : TpScanOpaque where
  results := none
  resultCount := totalDocs
  currentPos := 0
  eofReached := false
  limit := if queryLimit > 0 then queryLimit else -1
  maxResultsUsed := 0

section Functions

variable (dl : DefaultLimit) (r : Rankings)

/-- `tp_memtable_search`. -/
def tpMemtableSearch (so : TpScanOpaque) : Bool × TpScanOpaque :=
  let maxResults := if so.limit > 0 then so.limit.toNat else dl.value
  let found := r.results maxResults
  (decide (found.length > 0),
    { so with
      results := some found
      resultCount := found.length
      currentPos := 0
      maxResultsUsed := maxResults })

/-- `tp_execute_scoring_query`: drop the previous results, search again. -/
def tpExecuteScoringQuery (so : TpScanOpaque) : Bool × TpScanOpaque :=
  tpMemtableSearch dl r { so with results := none, resultCount := 0, currentPos := 0 }

/-- At the end of the results: search with twice the limit, or give up. -/
def growResults (so : TpScanOpaque) : Bool × TpScanOpaque :=
  if so.currentPos ≥ so.resultCount ∨ so.eofReached then
    if ¬ so.eofReached ∧ so.resultCount > 0 ∧ so.resultCount ≥ so.maxResultsUsed ∧
        so.maxResultsUsed < tpMaxQueryLimit then
      let oldCount := so.resultCount
      let doubled := so.maxResultsUsed * 2
      let newLimit := if doubled > tpMaxQueryLimit then tpMaxQueryLimit else doubled
      let again := tpExecuteScoringQuery dl r { so with limit := newLimit }
      if again.1 ∧ again.2.resultCount > oldCount then
        (true, { again.2 with currentPos := oldCount })
      else (false, { again.2 with eofReached := true })
    else (false, so)
  else (true, so)

/-- The part of `tp_gettuple` that sees to a result at the current position. -/
def ensureResult (so : TpScanOpaque) : Bool × TpScanOpaque :=
  if so.results.isNone ∧ ¬ so.eofReached then
    let first := tpExecuteScoringQuery dl r so
    if ¬ first.1 ∨ first.2.results.isNone then (false, { first.2 with eofReached := true })
    else growResults dl r first.2
  else growResults dl r so

/-- `blknum == InvalidBlockNumber || blknum > TP_MAX_BLOCK_NUMBER`. -/
def suspicious (e : ScanResult) : Bool :=
  e.ctid.blkid == invalidBlockNumber || e.ctid.blkid > tpMaxBlockNumber

/-- The tuple for an entry; the score is made negative for an ascending order. -/
def emitted (e : ScanResult) : EmittedTuple where
  heaptid := e.ctid
  orderbyval := if e.score > 0 then -e.score else e.score

/-- The rest of `tp_gettuple`, on the entries from the current position on.  The
recursive call for a suspicious entry comes back here (`tpGettuple_skip`). -/
def emitResult (so : TpScanOpaque) : List ScanResult → Option EmittedTuple × TpScanOpaque
  | [] => (none, so)
  | e :: rest =>
      let so' := { so with currentPos := so.currentPos + 1 }
      if suspicious e then
        if so'.currentPos ≥ so'.resultCount then (none, so') else emitResult so' rest
      else (some (emitted e), so')

/-- `tp_gettuple`: `none` is the return value false. -/
def tpGettuple (so : TpScanOpaque) : Option EmittedTuple × TpScanOpaque :=
  let ready := ensureResult dl r so
  if ready.1 then emitResult ready.2 ((ready.2.results.getD []).drop ready.2.currentPos)
  else (none, ready.2)

/-- Calling `tp_gettuple` until it returns false: the tuples emitted, and the state
it is left in. -/
inductive Emits : TpScanOpaque → List EmittedTuple → TpScanOpaque → Prop
  | stop {so : TpScanOpaque} : (tpGettuple dl r so).1 = none → Emits so [] (tpGettuple dl r so).2
  | next {so last : TpScanOpaque} {t : EmittedTuple} {out : List EmittedTuple} :
      (tpGettuple dl r so).1 = some t → Emits (tpGettuple dl r so).2 out last →
      Emits so (t :: out) last

end Functions

/-! ## The successive limits -/

/-- The limit after the given one. -/
def nextLimit (limit : Nat) : Nat :=
  if limit < tpMaxQueryLimit then min (limit * 2) tpMaxQueryLimit else limit

theorem lt_nextLimit {limit : Nat} (hpos : 1 ≤ limit) (hlt : limit < tpMaxQueryLimit) :
    limit < nextLimit limit := by
  rw [nextLimit, if_pos hlt]
  omega

theorem le_nextLimit {limit : Nat} (hpos : 1 ≤ limit) : limit ≤ nextLimit limit := by
  unfold nextLimit
  split <;> omega

theorem nextLimit_le_max (limit : Nat) :
    nextLimit limit ≤ max limit tpMaxQueryLimit := by
  unfold nextLimit
  split <;> omega

/-- The limit of the `n`-th search, when the first one is `first`. -/
def searchLimit (first n : Nat) : Nat := nextLimit^[n] first

theorem searchLimit_succ (first n : Nat) :
    searchLimit first (n + 1) = nextLimit (searchLimit first n) :=
  Function.iterate_succ_apply' nextLimit n first

theorem searchLimit_next (first n : Nat) :
    searchLimit (nextLimit first) n = searchLimit first (n + 1) :=
  (Function.iterate_succ_apply nextLimit n first).symm

theorem searchLimit_bounds {first : Nat} (hpos : 1 ≤ first) (n : Nat) :
    1 ≤ searchLimit first n ∧ searchLimit first n ≤ max first tpMaxQueryLimit := by
  induction n with
  | zero => exact ⟨hpos, Nat.le_max_left _ _⟩
  | succ n ih =>
      rw [searchLimit_succ]
      have hle := le_nextLimit ih.1
      have hmax := nextLimit_le_max (searchLimit first n)
      omega

theorem le_searchLimit {first : Nat} (hpos : 1 ≤ first) (n : Nat) :
    first ≤ searchLimit first n := by
  induction n with
  | zero => exact Nat.le_refl _
  | succ n ih =>
      rw [searchLimit_succ]
      exact Nat.le_trans ih (le_nextLimit (searchLimit_bounds hpos n).1)

theorem searchLimit_mono {first : Nat} (hpos : 1 ≤ first) {m n : Nat} (hmn : m ≤ n) :
    searchLimit first m ≤ searchLimit first n := by
  induction n, hmn using Nat.le_induction with
  | base => exact Nat.le_refl _
  | succ n hmn ih =>
      rw [searchLimit_succ]
      exact Nat.le_trans ih (le_nextLimit (searchLimit_bounds hpos n).1)

namespace Rankings

variable (r : Rankings)

/-- The scan gets from one limit to another: all limits in between are used up. -/
def Reaches (limit limit' : Nat) : Prop :=
  ∃ n, limit' = searchLimit limit n ∧
    ∀ k < n, searchLimit limit k ≤ (r.results (searchLimit limit k)).length

theorem Reaches.refl (limit : Nat) : r.Reaches limit limit :=
  ⟨0, rfl, fun k hk => absurd hk (Nat.not_lt_zero k)⟩

variable {r}

theorem Reaches.head {limit limit' : Nat} (hfull : limit ≤ (r.results limit).length)
    (h : r.Reaches (nextLimit limit) limit') : r.Reaches limit limit' := by
  obtain ⟨n, rfl, hall⟩ := h
  refine ⟨n + 1, searchLimit_next limit n, fun k hk => ?_⟩
  cases k with
  | zero => exact hfull
  | succ k =>
      rw [← searchLimit_next]
      exact hall k (by omega)

theorem Reaches.step {limit : Nat} (hfull : limit ≤ (r.results limit).length) :
    r.Reaches limit (nextLimit limit) :=
  Reaches.head hfull (Reaches.refl r _)

theorem Reaches.trans {limit limit' limit'' : Nat} (h : r.Reaches limit limit')
    (h' : r.Reaches limit' limit'') : r.Reaches limit limit'' := by
  obtain ⟨n, rfl, hall⟩ := h
  induction n generalizing limit with
  | zero => exact h'
  | succ n ih =>
      apply Reaches.head (hall 0 (by omega))
      rw [← searchLimit_next] at h'
      refine ih ?_ h'
      intro k hk
      rw [searchLimit_next]
      exact hall (k + 1) (by omega)

theorem Reaches.le {limit limit' : Nat} (hpos : 1 ≤ limit) (h : r.Reaches limit limit') :
    limit ≤ limit' := by
  obtain ⟨n, rfl, -⟩ := h
  exact le_searchLimit hpos n

end Rankings

/-! ## One call -/

section Call

variable {dl : DefaultLimit} {r : Rankings}

/-- The scan stands at a position of the ranking for a limit. -/
structure ScanAt (r : Rankings) (limit pos : Nat) (so : TpScanOpaque) : Prop where
  limitPos : 1 ≤ limit
  results : so.results = some (r.results limit)
  count : so.resultCount = (r.results limit).length
  eof : so.eofReached = false
  used : so.maxResultsUsed = limit
  current : so.currentPos = pos
  inside : pos ≤ (r.results limit).length

/-- The entries that are emitted. -/
def kept (l : List ScanResult) : List ScanResult := l.filter fun e => !suspicious e

/-- The scan has ended with the ranking for a limit; `pos` is where it was. -/
structure ScanEnd (r : Rankings) (limit pos : Nat) (so : TpScanOpaque) : Prop where
  results : so.results = some (r.results limit)
  used : so.maxResultsUsed = limit
  nothingLeft : kept ((r.results limit).drop pos) = []
  reason : (r.results limit).length < limit ∨ tpMaxQueryLimit ≤ limit ∨
    ∃ e ∈ r.results limit, suspicious e = true

theorem emitResult_spec {limit : Nat} (rest : List ScanResult) :
    ∀ {pos : Nat} {so : TpScanOpaque}, ScanAt r limit pos so → rest ≠ [] →
      (r.results limit).drop pos = rest →
      (∃ e pos', (emitResult so rest).1 = some (emitted e) ∧
          ScanAt r limit pos' (emitResult so rest).2 ∧ pos < pos' ∧
          kept rest = e :: kept ((r.results limit).drop pos')) ∨
        ((emitResult so rest).1 = none ∧ ScanEnd r limit pos (emitResult so rest).2) := by
  induction rest with
  | nil => exact fun _ hne => absurd rfl hne
  | cons e rest ih =>
      intro pos so h _ hdrop
      have hlen := congrArg List.length hdrop
      rw [List.length_drop, List.length_cons] at hlen
      have hrest : (r.results limit).drop (pos + 1) = rest := by
        rw [← List.drop_drop, hdrop, List.drop_one, List.tail_cons]
      have hnext : ScanAt r limit (pos + 1) { so with currentPos := so.currentPos + 1 } :=
        { h with current := by rw [h.current], inside := by omega }
      have hmem : e ∈ r.results limit :=
        List.mem_of_mem_drop (i := pos) (by rw [hdrop]; exact List.mem_cons_self)
      cases hs : suspicious e with
      | false =>
          left
          refine ⟨e, pos + 1, ?_, ?_, Nat.lt_succ_self pos, ?_⟩
          · simp [emitResult, hs]
          · simpa [emitResult, hs] using hnext
          · simp [kept, hs, hrest]
      | true =>
          have hkept : kept (e :: rest) = kept rest := by simp [kept, hs]
          by_cases hend : rest = []
          · subst hend
            right
            rw [List.length_nil] at hlen
            have hstop : so.currentPos + 1 ≥ so.resultCount := by
              rw [h.current, h.count]
              omega
            refine ⟨by simp [emitResult, hs, hstop], ?_⟩
            simp only [emitResult, hs, hstop, if_true]
            exact
              { results := h.results
                used := h.used
                nothingLeft := by rw [hdrop, hkept]; rfl
                reason := Or.inr (Or.inr ⟨e, hmem, hs⟩) }
          · have hpos : 0 < rest.length := List.length_pos_iff.2 hend
            have hgo : ¬ so.currentPos + 1 ≥ so.resultCount := by
              rw [h.current, h.count]
              omega
            have hcall : emitResult so (e :: rest) =
                emitResult { so with currentPos := so.currentPos + 1 } rest := by
              simp [emitResult, hs, hgo]
            rw [hcall, hkept]
            rcases ih hnext hend hrest with ⟨e', pos', hout, hat, hlt, hk⟩ | ⟨hout, hlast⟩
            · exact Or.inl ⟨e', pos', hout, hat, by omega, hk⟩
            · refine Or.inr ⟨hout, { hlast with nothingLeft := ?_ }⟩
              rw [hdrop, hkept, ← hrest]
              exact hlast.nothingLeft

/-- A search with a given limit. -/
theorem tpExecuteScoringQuery_of_limit (so : TpScanOpaque) {limit : Nat} (hpos : 0 < limit) :
    tpExecuteScoringQuery dl r { so with limit := (limit : Int) } =
      (decide ((r.results limit).length > 0),
        { so with
          results := some (r.results limit)
          resultCount := (r.results limit).length
          currentPos := 0
          limit := limit
          maxResultsUsed := limit }) := by
  have hz : (limit : Int) > 0 := Int.natCast_pos.2 hpos
  simp only [tpExecuteScoringQuery, tpMemtableSearch, if_pos hz, Int.toNat_natCast]

theorem growResults_spec {limit pos : Nat} {so : TpScanOpaque} (h : ScanAt r limit pos so) :
    (pos < (r.results limit).length ∧ growResults dl r so = (true, so)) ∨
      (∃ so', growResults dl r so = (true, so') ∧ limit ≤ (r.results limit).length ∧
        ScanAt r (nextLimit limit) pos so' ∧ pos < (r.results (nextLimit limit)).length) ∨
      ∃ so' limit', growResults dl r so = (false, so') ∧ r.Reaches limit limit' ∧
        ScanEnd r limit' pos so' := by
  by_cases hin : pos < (r.results limit).length
  · left
    refine ⟨hin, ?_⟩
    rw [growResults, if_neg]
    rw [h.current, h.count, h.eof]
    simp only [Bool.false_eq_true, or_false]
    omega
  · right
    have hpos : pos = (r.results limit).length := Nat.le_antisymm h.inside (by omega)
    have hend : so.currentPos ≥ so.resultCount ∨ so.eofReached = true := by
      rw [h.current, h.count]
      omega
    have hlimit := r.length_le limit
    have hone := h.limitPos
    by_cases hgrow : limit ≤ (r.results limit).length ∧ limit < tpMaxQueryLimit
    · have hcond : ¬ so.eofReached = true ∧ so.resultCount > 0 ∧
          so.resultCount ≥ so.maxResultsUsed ∧ so.maxResultsUsed < tpMaxQueryLimit := by
        rw [h.eof, h.count, h.used]
        refine ⟨by simp, ?_, hgrow⟩
        omega
      have hnew : (if so.maxResultsUsed * 2 > tpMaxQueryLimit then tpMaxQueryLimit
          else so.maxResultsUsed * 2) = nextLimit limit := by
        rw [h.used, nextLimit, if_pos hgrow.2]
        split <;> omega
      have hlt := lt_nextLimit hone hgrow.2
      rw [growResults, if_pos hend, if_pos hcond]
      simp only [hnew, tpExecuteScoringQuery_of_limit so (Nat.lt_trans hone hlt)]
      simp only [h.count, decide_eq_true_eq]
      by_cases hmore : (r.results (nextLimit limit)).length > (r.results limit).length
      · left
        refine ⟨_, if_pos ⟨by omega, hmore⟩, hgrow.1, ?_, by omega⟩
        exact
          { limitPos := by omega
            results := rfl
            count := rfl
            eof := h.eof
            used := rfl
            current := hpos.symm
            inside := by omega }
      · right
        refine ⟨_, nextLimit limit, if_neg (fun hc => hmore hc.2),
          Rankings.Reaches.step hgrow.1, ?_⟩
        exact
          { results := rfl
            used := rfl
            nothingLeft := by rw [List.drop_eq_nil_of_le (by omega)]; rfl
            reason := Or.inl (by omega) }
    · right
      have hcond : ¬ (¬ so.eofReached = true ∧ so.resultCount > 0 ∧
          so.resultCount ≥ so.maxResultsUsed ∧ so.maxResultsUsed < tpMaxQueryLimit) := by
        rw [h.count, h.used]
        exact fun hc => hgrow hc.2.2
      refine ⟨so, limit, ?_, Rankings.Reaches.refl r limit, ?_⟩
      · rw [growResults, if_pos hend, if_neg hcond]
      · exact
          { results := h.results
            used := h.used
            nothingLeft := by rw [List.drop_eq_nil_of_le (by omega)]; rfl
            reason := by omega }

theorem ensureResult_of_some {so : TpScanOpaque} {l : List ScanResult}
    (h : so.results = some l) : ensureResult dl r so = growResults dl r so := by
  rw [ensureResult, if_neg]
  simp [h]

/-- What one call does: it emits the next entry that is kept, or the scan ends. -/
theorem tpGettuple_spec (dl : DefaultLimit) {limit pos : Nat} {so : TpScanOpaque}
    (h : ScanAt r limit pos so) :
    (∃ e limit' pos', (tpGettuple dl r so).1 = some (emitted e) ∧ r.Reaches limit limit' ∧
        ScanAt r limit' pos' (tpGettuple dl r so).2 ∧ pos < pos' ∧
        kept ((r.results limit').drop pos) = e :: kept ((r.results limit').drop pos')) ∨
      ((tpGettuple dl r so).1 = none ∧ ∃ limit', r.Reaches limit limit' ∧
        ScanEnd r limit' pos (tpGettuple dl r so).2) := by
  have hemit : ∀ {limit' : Nat} {so' : TpScanOpaque}, growResults dl r so = (true, so') →
      r.Reaches limit limit' → ScanAt r limit' pos so' → pos < (r.results limit').length →
      (∃ e limit' pos', (tpGettuple dl r so).1 = some (emitted e) ∧ r.Reaches limit limit' ∧
          ScanAt r limit' pos' (tpGettuple dl r so).2 ∧ pos < pos' ∧
          kept ((r.results limit').drop pos) = e :: kept ((r.results limit').drop pos')) ∨
        ((tpGettuple dl r so).1 = none ∧ ∃ limit', r.Reaches limit limit' ∧
          ScanEnd r limit' pos (tpGettuple dl r so).2) := by
    intro limit' so' hgrow hreach hat hlt
    have hcall : tpGettuple dl r so = emitResult so' ((r.results limit').drop pos) := by
      rw [tpGettuple, ensureResult_of_some h.results, hgrow]
      simp [hat.results, hat.current]
    have hne : (r.results limit').drop pos ≠ [] := by
      rw [Ne, List.drop_eq_nil_iff]
      omega
    rw [hcall]
    rcases emitResult_spec _ hat hne rfl with ⟨e, pos', hout, hat', hlt', hk⟩ | ⟨hout, hlast⟩
    · exact Or.inl ⟨e, limit', pos', hout, hreach, hat', hlt', hk⟩
    · exact Or.inr ⟨hout, limit', hreach, hlast⟩
  rcases @growResults_spec dl r limit pos so h with
    ⟨hlt, hgrow⟩ | ⟨so', hgrow, hfull, hat, hlt⟩ | ⟨so', limit', hgrow, hreach, hlast⟩
  · exact hemit hgrow (Rankings.Reaches.refl r limit) h hlt
  · exact hemit hgrow (Rankings.Reaches.step hfull) hat hlt
  · right
    have hcall : tpGettuple dl r so = (none, so') := by
      rw [tpGettuple, ensureResult_of_some h.results, hgrow]
      rfl
    rw [hcall]
    exact ⟨rfl, limit', hreach, hlast⟩

end Call

/-! ## The whole scan -/

section Scan

variable {dl : DefaultLimit} {r : Rankings}

/-- Passing over a suspicious entry that is not the last one is the recursive call
of `tp_gettuple`. -/
theorem tpGettuple_skip {limit pos : Nat} {so : TpScanOpaque} (h : ScanAt r limit pos so)
    {e : ScanResult} (he : (r.results limit)[pos]? = some e) (hs : suspicious e = true)
    (hlt : pos + 1 < (r.results limit).length) :
    tpGettuple dl r so = tpGettuple dl r { so with currentPos := so.currentPos + 1 } := by
  have hready : ∀ {p : Nat} {so : TpScanOpaque}, ScanAt r limit p so →
      p < (r.results limit).length →
      tpGettuple dl r so = emitResult so ((r.results limit).drop p) := by
    intro p so hat hin
    have hgrow : growResults dl r so = (true, so) := by
      rw [growResults, if_neg]
      rw [hat.current, hat.count, hat.eof]
      simp only [Bool.false_eq_true, or_false]
      omega
    rw [tpGettuple, ensureResult_of_some hat.results, hgrow]
    simp [hat.results, hat.current]
  have hnext : ScanAt r limit (pos + 1) { so with currentPos := so.currentPos + 1 } :=
    { h with current := by rw [h.current], inside := by omega }
  have hgo : ¬ so.currentPos + 1 ≥ so.resultCount := by
    rw [h.current, h.count]
    omega
  obtain ⟨hin, hget⟩ := List.getElem?_eq_some_iff.1 he
  rw [hready h hin, hready hnext hlt, List.drop_eq_getElem_cons hin, hget]
  simp [emitResult, hs, hgo]

/-- The run ends: each call gets further into the longest ranking. -/
private theorem exists_emits (dl : DefaultLimit) {limit pos : Nat} {so : TpScanOpaque}
    (h : ScanAt r limit pos so) {top : Nat} (htop : max limit tpMaxQueryLimit ≤ top) :
    ∀ left : Nat, (r.results top).length - pos ≤ left → ∃ out last, Emits dl r so out last := by
  intro left
  induction left generalizing limit pos so with
  | zero =>
      intro hleft
      rcases tpGettuple_spec dl h with ⟨e, limit', pos', -, hreach, hat, hlt, -⟩ | ⟨hnone, -⟩
      · obtain ⟨n, rfl, -⟩ := hreach
        have hmax := (searchLimit_bounds h.limitPos n).2
        have hlen := (r.grows (Nat.le_trans hmax htop)).length_le
        have hin := hat.inside
        omega
      · exact ⟨[], _, Emits.stop hnone⟩
  | succ left ih =>
      intro hleft
      rcases tpGettuple_spec dl h with ⟨e, limit', pos', hsome, hreach, hat, hlt, -⟩ | ⟨hnone, -⟩
      · obtain ⟨n, rfl, -⟩ := hreach
        have hmax := (searchLimit_bounds h.limitPos n).2
        obtain ⟨out, last, hrun⟩ := ih hat (by omega) (by omega)
        exact ⟨_, last, Emits.next hsome hrun⟩
      · exact ⟨[], _, Emits.stop hnone⟩

/-- What the prefix of a ranking has kept, every extension of it has kept. -/
private theorem kept_drop_extends {l l' : List ScanResult} (hpre : l <+: l') {e : ScanResult}
    {pos pos' : Nat} (hpos : pos ≤ l.length) (hpos' : pos' ≤ l.length)
    (h : kept (l.drop pos) = e :: kept (l.drop pos')) :
    kept (l'.drop pos) = e :: kept (l'.drop pos') := by
  obtain ⟨t, rfl⟩ := hpre
  rw [List.drop_append_of_le_length hpos, List.drop_append_of_le_length hpos', kept,
    List.filter_append]
  show kept (l.drop pos) ++ kept t = e :: List.filter _ (_ ++ _)
  rw [h, List.filter_append]
  rfl

/-- What a run from a position emits. -/
private theorem emits_spec {so last : TpScanOpaque} {out : List EmittedTuple}
    (hrun : Emits dl r so out last) :
    ∀ {limit pos : Nat}, ScanAt r limit pos so → ∃ limit' pos', r.Reaches limit limit' ∧
      ScanEnd r limit' pos' last ∧ out = (kept ((r.results limit').drop pos)).map emitted := by
  induction hrun with
  | stop hnone =>
      intro limit pos h
      rcases tpGettuple_spec dl h with ⟨e, limit', pos', hsome, -⟩ | ⟨-, limit', hreach, hend⟩
      · rw [hnone] at hsome
        cases hsome
      · exact ⟨limit', pos, hreach, hend, by rw [hend.nothingLeft]; rfl⟩
  | @next so last t out hsome hrest ih =>
      intro limit pos h
      rcases tpGettuple_spec dl h with
        ⟨e, limit', pos', hsome', hreach, hat, hlt, hk⟩ | ⟨hnone, -⟩
      · rw [hsome'] at hsome
        cases hsome
        obtain ⟨limit'', pos'', hreach', hend, rfl⟩ := ih hat
        refine ⟨limit'', pos'', hreach.trans hreach', hend, ?_⟩
        have hpre := r.grows (hreach'.le hat.limitPos)
        have hin := hat.inside
        rw [kept_drop_extends hpre (by omega) hin hk]
        rfl
      · rw [hnone] at hsome
        cases hsome

/-- **Every entry is emitted**: the tuples are those of the last ranking, in order and
with their own scores, and no larger limit has more. -/
def EmitsAll (r : Rankings) (out : List EmittedTuple) (last : TpScanOpaque) : Prop :=
  ∃ ranking, last.results = some ranking ∧ out = ranking.map emitted ∧
    ∀ limit, last.maxResultsUsed ≤ limit → limit ≤ tpMaxQueryLimit → r.results limit = ranking

/-- The limit of the first search. -/
def firstLimit (dl : DefaultLimit) (queryLimit : Int) : Nat :=
  if queryLimit > 0 then queryLimit.toNat else dl.value

theorem firstLimit_pos (dl : DefaultLimit) (queryLimit : Int) : 1 ≤ firstLimit dl queryLimit := by
  have hpos := dl.pos
  unfold firstLimit
  split <;> omega

/-- All entries at the largest limit are in blocks up to `TP_MAX_BLOCK_NUMBER`, and a
search that finds fewer entries than its limit has found all of them. -/
structure ScanFits (r : Rankings) (first : Nat) : Prop where
  blocks : ∀ e ∈ r.results (max first tpMaxQueryLimit), e.ctid.blkid ≤ tpMaxBlockNumber
  complete : ∀ n, (r.results (searchLimit first n)).length < searchLimit first n →
    r.results (searchLimit first n) = r.results (max first tpMaxQueryLimit)

theorem suspicious_eq_false_iff (e : ScanResult) :
    suspicious e = false ↔ e.ctid.blkid ≤ tpMaxBlockNumber := by
  rw [suspicious, Bool.or_eq_false_iff, beq_eq_false_iff_ne, decide_eq_false_iff_not]
  simp only [invalidBlockNumber, tpMaxBlockNumber]
  omega

theorem kept_eq_self_iff (l : List ScanResult) :
    kept l = l ↔ ∀ e ∈ l, e.ctid.blkid ≤ tpMaxBlockNumber := by
  rw [kept, List.filter_eq_self]
  simp only [Bool.not_eq_true', suspicious_eq_false_iff]

/-- The scan that ended with the ranking for a reached limit has emitted everything
exactly when it meets the condition. -/
private theorem emitsAll_iff {first limit' pos : Nat} (hpos : 1 ≤ first)
    (hreach : r.Reaches first limit') {last : TpScanOpaque} (hend : ScanEnd r limit' pos last) :
    EmitsAll r ((kept (r.results limit')).map emitted) last ↔ ScanFits r first := by
  obtain ⟨n, rfl, hall⟩ := hreach
  have hmax := (searchLimit_bounds hpos n).2
  have hpre := r.grows hmax
  constructor
  · rintro ⟨ranking, hranking, hout, hmore⟩
    rw [hend.results] at hranking
    cases hranking
    rw [hend.used] at hmore
    have hfirst := le_searchLimit hpos n
    have htop : r.results (max first tpMaxQueryLimit) = r.results (searchLimit first n) := by
      by_cases hlt : searchLimit first n < tpMaxQueryLimit
      · rw [Nat.max_eq_right (Nat.le_of_lt (Nat.lt_of_le_of_lt hfirst hlt))]
        exact hmore _ (Nat.le_of_lt hlt) (Nat.le_refl _)
      · have hmaxEq : max first tpMaxQueryLimit = searchLimit first n := by omega
        rw [hmaxEq]
    have hself : kept (r.results (searchLimit first n)) = r.results (searchLimit first n) := by
      refine List.Sublist.eq_of_length List.filter_sublist ?_
      simpa using congrArg List.length hout
    refine ⟨?_, fun m hshort => ?_⟩
    · rw [htop]
      exact (kept_eq_self_iff _).1 hself
    · by_cases hmn : m < n
      · exact absurd hshort (Nat.not_lt.2 (hall m hmn))
      · -- between the last ranking and the longest one
        have hlow := r.grows (searchLimit_mono hpos (Nat.le_of_not_lt hmn))
        have hhigh := r.grows (searchLimit_bounds hpos m).2
        rw [htop] at hhigh ⊢
        exact List.IsPrefix.eq_of_length_le hhigh hlow.length_le
  · rintro ⟨hblocks, hcomplete⟩
    have hself : kept (r.results (searchLimit first n)) = r.results (searchLimit first n) :=
      (kept_eq_self_iff _).2 fun e he => hblocks e (hpre.subset he)
    refine ⟨_, hend.results, by rw [hself], fun limit hle hlimit => ?_⟩
    rw [hend.used] at hle
    rcases hend.reason with hshort | hbig | ⟨e, he, hs⟩
    · have hfull := hcomplete n hshort
      have hlow := r.grows hle
      have hhigh := r.grows (Nat.le_trans hlimit (Nat.le_max_right first tpMaxQueryLimit))
      rw [← hfull] at hhigh
      exact List.IsPrefix.eq_of_length_le hhigh hlow.length_le
    · rw [Nat.le_antisymm (Nat.le_trans hlimit hbig) hle]
    · have hok := (suspicious_eq_false_iff e).2 (hblocks e (hpre.subset he))
      rw [hs] at hok
      cases hok

/-- The first call either finds nothing, or goes on from the start of the ranking. -/
private theorem tpGettuple_first (dl : DefaultLimit) (r : Rankings) (queryLimit : Int)
    (totalDocs : Nat) :
    (∃ last, tpGettuple dl r (tpRescan queryLimit totalDocs) = (none, last) ∧
        ScanEnd r (firstLimit dl queryLimit) 0 last) ∨
      ∃ so, tpGettuple dl r (tpRescan queryLimit totalDocs) = tpGettuple dl r so ∧
        ScanAt r (firstLimit dl queryLimit) 0 so := by
  have hlimit : (if (tpRescan queryLimit totalDocs).limit > 0
      then (tpRescan queryLimit totalDocs).limit.toNat else dl.value) =
        firstLimit dl queryLimit := by
    simp only [tpRescan, firstLimit]
    split <;> simp_all
  have hpos := firstLimit_pos dl queryLimit
  obtain ⟨so, hso⟩ : ∃ so, so = (tpExecuteScoringQuery dl r (tpRescan queryLimit totalDocs)).2 :=
    ⟨_, rfl⟩
  have hres : so.results = some (r.results (firstLimit dl queryLimit)) := by
    rw [hso, ← hlimit]
    rfl
  have hat : ScanAt r (firstLimit dl queryLimit) 0 so :=
    { limitPos := hpos
      results := hres
      count := by rw [hso, ← hlimit]; rfl
      eof := by rw [hso]; rfl
      used := by rw [hso, ← hlimit]; rfl
      current := by rw [hso]; rfl
      inside := Nat.zero_le _ }
  have hfound : (tpExecuteScoringQuery dl r (tpRescan queryLimit totalDocs)).1 =
      decide ((r.results (firstLimit dl queryLimit)).length > 0) := by
    rw [← hlimit]
    rfl
  have hsearch : (tpRescan queryLimit totalDocs).results.isNone = true ∧
      ¬ (tpRescan queryLimit totalDocs).eofReached = true := by simp [tpRescan]
  by_cases hempty : (r.results (firstLimit dl queryLimit)).length > 0
  · right
    refine ⟨so, ?_, hat⟩
    have hensure : ensureResult dl r (tpRescan queryLimit totalDocs) = ensureResult dl r so := by
      rw [ensureResult_of_some hres, ensureResult, if_pos hsearch]
      rw [if_neg, ← hso]
      rw [hfound, ← hso, hres]
      simp [hempty]
    rw [tpGettuple, hensure]
    rfl
  · left
    have hnil : r.results (firstLimit dl queryLimit) = [] :=
      List.eq_nil_of_length_eq_zero (by omega)
    refine ⟨{ so with eofReached := true }, ?_, ?_⟩
    · have hensure : ensureResult dl r (tpRescan queryLimit totalDocs) =
          (false, { so with eofReached := true }) := by
        rw [ensureResult, if_pos hsearch]
        rw [if_pos, ← hso]
        exact Or.inl (by simp [hfound, hempty])
      rw [tpGettuple, hensure]
      rfl
    · exact
        { results := hres
          used := hat.used
          nothingLeft := by rw [hnil]; rfl
          reason := Or.inl (by omega) }

/-- **Every scored result is emitted**: the scan ends, and it has emitted the whole
ranking exactly when the ranking meets the condition. -/
theorem emits_every_result_iff (dl : DefaultLimit) (r : Rankings) (queryLimit : Int)
    (totalDocs : Nat) :
    (∃ out last, Emits dl r (tpRescan queryLimit totalDocs) out last) ∧
      ∀ out last, Emits dl r (tpRescan queryLimit totalDocs) out last →
        (EmitsAll r out last ↔ ScanFits r (firstLimit dl queryLimit)) := by
  have hpos := firstLimit_pos dl queryLimit
  rcases tpGettuple_first dl r queryLimit totalDocs with
    ⟨last, hcall, hend⟩ | ⟨so, hcall, hat⟩
  · constructor
    · exact ⟨[], _, Emits.stop (by rw [hcall])⟩
    · intro out last' hrun
      cases hrun with
      | stop =>
          rw [hcall]
          have hnone : kept (r.results (firstLimit dl queryLimit)) = [] := hend.nothingLeft
          have hiff := emitsAll_iff hpos (Rankings.Reaches.refl r _) hend
          rwa [hnone] at hiff
      | next hsome =>
          rw [hcall] at hsome
          cases hsome
  · have hsame : ∀ out last, Emits dl r (tpRescan queryLimit totalDocs) out last ↔
        Emits dl r so out last := by
      intro out last
      constructor
      · intro hrun
        cases hrun with
        | stop hnone =>
            rw [hcall] at hnone ⊢
            exact Emits.stop hnone
        | next hsome hrest =>
            rw [hcall] at hsome hrest
            exact Emits.next hsome hrest
      · intro hrun
        cases hrun with
        | stop hnone =>
            rw [← hcall] at hnone ⊢
            exact Emits.stop hnone
        | next hsome hrest =>
            rw [← hcall] at hsome hrest
            exact Emits.next hsome hrest
    constructor
    · obtain ⟨out, last, hrun⟩ := exists_emits dl hat (Nat.le_refl _) _ (Nat.le_refl _)
      exact ⟨out, last, (hsame out last).2 hrun⟩
    · intro out last hrun
      obtain ⟨limit', pos', hreach, hend, rfl⟩ := emits_spec ((hsame out last).1 hrun) hat
      exact emitsAll_iff hpos hreach hend

/-- Two documents, the better one in a block beyond `TP_MAX_BLOCK_NUMBER`. -/
def highBlockRankings : Rankings where
  results := fun limit => [⟨⟨1000001, 1⟩, 2⟩, ⟨⟨0, 1⟩, 1⟩].take limit
  length_le := fun limit => List.length_take_le limit _
  grows := fun h => List.take_prefix_take_left h

/-- The batch of one entry ends with a skipped one, and the scan ends with it. -/
theorem high_block_lost :
    ∃ last, Emits ⟨1, by decide, by decide⟩ highBlockRankings (tpRescan (-1) 2) [] last ∧
      ¬ EmitsAll highBlockRankings [] last := by
  refine ⟨_, Emits.stop rfl, ?_⟩
  rintro ⟨ranking, hranking, hout, -⟩
  have hlen := congrArg List.length hout
  have hone : some ranking = some [⟨⟨1000001, 1⟩, 2⟩] := hranking.symm
  cases hone
  simp at hlen

end Scan

end PgTextsearch.Am
