import PgTextsearch.Query.Operator

/-!
# Runs of the IDF cache (`types/query.c`)

While one cache is in use, the operator looks up every query term that a document has, and
after a miss it stores what it has computed.  A run keeps, beside the cache, the calls of
`cache_term_idf` in their order: the slots hold the first of them, each term cut to its slot,
and the count of terms tells them apart up to one past the slots.

## Main results

* `CacheRun.Tracks.answerTerm` — what a cache holds after any run.
* `soundLookup_iff` — a lookup is sound exactly when there is no stray read and the slot
  that answers was not cut.
* `idfCache_sound_iff` — the same for all lookups of a run.
-/

namespace PgTextsearch.Query

open PgTextsearch.Postgres PgTextsearch.Segment

/-- A term that is looked up, with the document frequency and the IDF that the index has for
it at that time. -/
structure TermRequest where
  term : CString
  docFreq : Nat
  idf : ℚ

/-- What the loop over the query terms does to the cache. -/
def answerTerm (cache : QueryScoreCache) (r : TermRequest) : QueryScoreCache :=
  if (lookupCachedIdf cache r.term).1 < 0 then
    if r.docFreq = 0 then cache else cacheTermIdf cache r.term r.docFreq r.idf
  else cache

/-- The operator's loop uses its cache so. -/
theorem scoreQueryTerm_cache (log : LogFunction) (view : IndexView CString)
    (tsvector : TermVector CString) (docLength : Nat) (acc : ℚ × QueryScoreCache)
    (entry : CString × Nat) :
    (scoreQueryTerm log view tsvector docLength acc entry).2 =
      if findTermFrequency tsvector entry.1 = 0 then acc.2
      else answerTerm acc.2 ⟨entry.1, tpGetUnifiedDocFreq view entry.1,
        tpCalculateIdf log (tpGetUnifiedDocFreq view entry.1) view.totalDocs⟩ := by
  unfold scoreQueryTerm answerTerm
  dsimp only
  split_ifs <;> rfl

/-! ## Indices -/

/-- Where the loop of `lookup_cached_idf` stops. -/
def lookupIndex (cache : QueryScoreCache) (term : CString) : Option Nat :=
  (List.range cache.numTerms).find? fun i => (cache.slot i).term = term

/-- The indices at which `lookup_cached_idf` reads the array. -/
def lookupReads (cache : QueryScoreCache) (term : CString) : List Nat :=
  match lookupIndex cache term with
  | some i => List.range (i + 1)
  | none => List.range cache.numTerms

/-- The indices at which `cache_term_idf` writes the array. -/
def cacheWrites (cache : QueryScoreCache) : List Nat :=
  if cache.numTerms ≥ maxCachedTerms then [] else [cache.numTerms]

theorem lookupCachedIdf_eq (cache : QueryScoreCache) (term : CString) :
    lookupCachedIdf cache term =
      match lookupIndex cache term with
      | some i => ((cache.slot i).idf, (cache.slot i).docFreq)
      | none => (-1, 0) := rfl

/-! ## Runs -/

/-- A cache in use, with the calls of `cache_term_idf` so far. -/
structure CacheRun where
  cache : QueryScoreCache
  calls : List TermRequest

/-- The cache as the operator allocates it. -/
def CacheRun.start (indexOid firstSegment totalDocs : Nat) (avgDocLen : ℚ)
    (behind : TermIdfEntry) : CacheRun :=
  ⟨⟨indexOid, firstSegment, totalDocs, avgDocLen, 0, [], behind⟩, []⟩

/-- One more term. -/
def CacheRun.step (run : CacheRun) (r : TermRequest) : CacheRun where
  cache := answerTerm run.cache r
  calls :=
    if (lookupCachedIdf run.cache r.term).1 < 0 ∧ r.docFreq ≠ 0 then run.calls ++ [r]
    else run.calls

/-- The run before the `n`-th of the requests. -/
def CacheRun.before (start : CacheRun) (requests : List TermRequest) (n : Nat) : CacheRun :=
  (requests.take n).foldl CacheRun.step start

/-- What a lookup is required to do: no array index is out of bounds, and the slot that answers
a hit was stored for exactly that term, with this IDF and document frequency. -/
structure SoundLookup (run : CacheRun) (r : TermRequest) : Prop where
  inBounds : ∀ i ∈ lookupReads run.cache r.term ++ cacheWrites run.cache, i < maxCachedTerms
  exact : 0 ≤ (lookupCachedIdf run.cache r.term).1 → ∀ i,
    lookupIndex run.cache r.term = some i → ∃ s, run.calls[i]? = some s ∧ s.term = r.term ∧
      lookupCachedIdf run.cache r.term = (s.idf, s.docFreq)

/-- The call that filled the first slot with the bytes of the term. -/
def slotCall (calls : List TermRequest) (term : CString) : Option TermRequest :=
  (calls.take maxCachedTerms).find? fun s => strlcpy s.term nameDataLen = term

/-- The condition on a term and the calls before it: there were no more calls than slots, or a
slot has the term; and a slot that answers was filled for a term that fits it. -/
structure Answerable (calls : List TermRequest) (term : CString) : Prop where
  room : calls.length ≤ maxCachedTerms ∨ (slotCall calls term).isSome
  uncut : ∀ s, slotCall calls term = some s → 0 ≤ s.idf → FitsSlot s.term

/-- The slot that a call fills. -/
def TermRequest.entry (s : TermRequest) : TermIdfEntry :=
  ⟨strlcpy s.term nameDataLen, s.docFreq, s.idf⟩

/-- **The invariant of runs**: the slots hold the first calls, and the count goes one past
the slots. -/
structure CacheRun.Tracks (run : CacheRun) : Prop where
  terms_eq : run.cache.terms = (run.calls.take maxCachedTerms).map TermRequest.entry
  numTerms_eq : run.cache.numTerms = min run.calls.length (maxCachedTerms + 1)

theorem CacheRun.tracks_start (indexOid firstSegment totalDocs : Nat) (avgDocLen : ℚ)
    (behind : TermIdfEntry) :
    (CacheRun.start indexOid firstSegment totalDocs avgDocLen behind).Tracks :=
  ⟨rfl, rfl⟩

/-- **Storing** a term keeps the invariant. -/
theorem CacheRun.Tracks.store {run : CacheRun} (h : run.Tracks) (r : TermRequest) :
    CacheRun.Tracks ⟨cacheTermIdf run.cache r.term r.docFreq r.idf, run.calls ++ [r]⟩ := by
  have hnum := h.numTerms_eq
  unfold cacheTermIdf
  by_cases hroom : run.calls.length < maxCachedTerms
  · rw [if_neg (by omega)]
    constructor
    · show run.cache.terms ++ [r.entry] = _
      rw [h.terms_eq, List.take_of_length_le hroom.le, List.take_of_length_le
        (by rw [List.length_append, List.length_singleton]; omega), List.map_append]
      rfl
    · show run.cache.numTerms + 1 = min (run.calls ++ [r]).length _
      rw [List.length_append, List.length_singleton]
      omega
  · have hfull : run.cache.terms =
        ((run.calls ++ [r]).take maxCachedTerms).map TermRequest.entry := by
      rw [h.terms_eq, List.take_append_of_le_length (by omega)]
    rw [if_pos (by omega)]
    split
    case isTrue hfirst =>
      refine ⟨hfull, ?_⟩
      show run.cache.numTerms + 1 = min (run.calls ++ [r]).length _
      rw [List.length_append, List.length_singleton]
      omega
    case isFalse hlater =>
      refine ⟨hfull, ?_⟩
      show run.cache.numTerms = min (run.calls ++ [r]).length _
      rw [List.length_append, List.length_singleton]
      omega

/-- **One more term** keeps the invariant. -/
theorem CacheRun.Tracks.step {run : CacheRun} (h : run.Tracks) (r : TermRequest) :
    (run.step r).Tracks := by
  unfold CacheRun.step answerTerm
  by_cases hmiss : (lookupCachedIdf run.cache r.term).1 < 0
  · by_cases hfreq : r.docFreq = 0
    · rw [if_pos hmiss, if_pos hfreq, if_neg (fun hand => hand.2 hfreq)]
      exact h
    · rw [if_pos hmiss, if_neg hfreq, if_pos ⟨hmiss, hfreq⟩]
      exact h.store r
  · rw [if_neg hmiss, if_neg (fun hand => hmiss hand.1)]
    exact h

/-- **Any run** keeps the invariant. -/
theorem CacheRun.Tracks.before {start : CacheRun} (h : start.Tracks)
    (requests : List TermRequest) (n : Nat) : (start.before requests n).Tracks := by
  unfold CacheRun.before
  generalize requests.take n = past
  induction past generalizing start with
  | nil => exact h
  | cons r past ih => exact ih (h.step r)

/-! ## Lookups -/

section Lookup

variable {run : CacheRun} (h : run.Tracks)
include h

/-- The slots that were filled. -/
theorem CacheRun.Tracks.slot_eq {i : Nat} {s : TermRequest}
    (hs : (run.calls.take maxCachedTerms)[i]? = some s) :
    i < run.cache.numTerms ∧ i < maxCachedTerms ∧ run.cache.slot i = s.entry := by
  obtain ⟨hi, rfl⟩ := List.getElem?_eq_some_iff.1 hs
  have hnum := h.numTerms_eq
  rw [List.length_take] at hi
  refine ⟨by omega, by omega, ?_⟩
  rw [QueryScoreCache.slot, if_pos (by omega), h.terms_eq, List.getD_eq_getElem?_getD,
    List.getElem?_map, hs]
  rfl

/-- **A hit**: the loop stops at the first slot that has the term. -/
theorem CacheRun.Tracks.lookupIndex_of_slotCall {term : CString} {s : TermRequest}
    (hs : slotCall run.calls term = some s) :
    strlcpy s.term nameDataLen = term ∧ ∃ i < maxCachedTerms,
      lookupIndex run.cache term = some i ∧ run.calls[i]? = some s ∧
        lookupCachedIdf run.cache term = (s.idf, s.docFreq) := by
  obtain ⟨hterm, i, hi, hget, hbefore⟩ := List.find?_eq_some_iff_getElem.1 hs
  replace hterm : strlcpy s.term nameDataLen = term := by simpa using hterm
  have hcall : (run.calls.take maxCachedTerms)[i]? = some s := by
    rw [List.getElem?_eq_getElem hi, hget]
  obtain ⟨hnum, hmax, hslot⟩ := h.slot_eq hcall
  have hindex : lookupIndex run.cache term = some i := by
    refine List.find?_eq_some_iff_getElem.2
      ⟨?_, i, by rwa [List.length_range], List.getElem_range _,
      fun j hj => ?_⟩
    · rw [hslot]
      exact decide_eq_true hterm
    · have hj' : j < (run.calls.take maxCachedTerms).length := hj.trans hi
      obtain ⟨-, -, hslotj⟩ := h.slot_eq (List.getElem?_eq_getElem hj')
      rw [List.getElem_range, hslotj]
      exact hbefore j hj
  refine ⟨hterm, i, hmax, hindex, ?_, ?_⟩
  · rwa [List.getElem?_take_of_lt hmax] at hcall
  · rw [lookupCachedIdf_eq, hindex]
    simp only [hslot]
    rfl

/-- **A miss**: without a slot for the term, the loop reads all of the slots, and behind them when
the count is past them. -/
theorem CacheRun.Tracks.lookupIndex_of_slotCall_none {term : CString}
    (hs : slotCall run.calls term = none) :
    (run.calls.length ≤ maxCachedTerms → lookupIndex run.cache term = none ∧
        ∀ i ∈ lookupReads run.cache term, i < maxCachedTerms) ∧
      (maxCachedTerms < run.calls.length → maxCachedTerms ∈ lookupReads run.cache term) := by
  have hnum := h.numTerms_eq
  -- no slot in front of the end has the term
  have hmiss : ∀ i < run.cache.numTerms, i < maxCachedTerms → (run.cache.slot i).term ≠ term := by
    intro i hi hmax
    have hlen : i < (run.calls.take maxCachedTerms).length := by
      rw [List.length_take]
      omega
    obtain ⟨-, -, hslot⟩ := h.slot_eq (List.getElem?_eq_getElem hlen)
    rw [hslot]
    exact fun heq => List.find?_eq_none.1 hs _ (List.getElem_mem hlen) (decide_eq_true heq)
  constructor
  · intro hfew
    have hnone : lookupIndex run.cache term = none := by
      refine List.find?_eq_none.2 fun i hi => ?_
      rw [List.mem_range] at hi
      simpa using hmiss i hi (by omega)
    refine ⟨hnone, fun i hi => ?_⟩
    rw [lookupReads, hnone, List.mem_range] at hi
    omega
  · intro hmany
    unfold lookupReads
    cases hindex : lookupIndex run.cache term with
    | none =>
        rw [List.mem_range]
        omega
    | some i =>
        have hi : i < run.cache.numTerms := List.mem_range.1 (List.mem_of_find?_eq_some hindex)
        have hterm : (run.cache.slot i).term = term := by simpa using List.find?_some hindex
        have hge : ¬ i < maxCachedTerms := fun hlt => hmiss i hi hlt hterm
        rw [List.mem_range]
        omega

omit h in
/-- A cut term differs from the slot it is kept in. -/
theorem fitsSlot_iff_strlcpy (term : CString) :
    FitsSlot term ↔ strlcpy term nameDataLen = term := by
  refine ⟨strlcpy_of_fits, fun heq => ?_⟩
  have hlen := congrArg (fun t : CString => t.bytes.length) heq
  simp only [strlcpy, List.length_take] at hlen
  unfold FitsSlot nameDataLen at *
  omega

/-- **A lookup** is sound exactly when the condition holds of the calls before it. -/
theorem soundLookup_iff (r : TermRequest) :
    SoundLookup run r ↔ Answerable run.calls r.term := by
  have hwrites : ∀ i ∈ cacheWrites run.cache, i < maxCachedTerms := by
    intro i hi
    unfold cacheWrites at hi
    split at hi
    case isTrue => exact nomatch hi
    case isFalse hlt => exact List.mem_singleton.1 hi ▸ Nat.not_le.1 hlt
  cases hslot : slotCall run.calls r.term with
  | none =>
      obtain ⟨hfew, hmany⟩ := h.lookupIndex_of_slotCall_none hslot
      constructor
      · intro hsound
        refine ⟨Or.inl (not_lt.1 fun hlt => ?_), fun s hs => nomatch hslot.symm.trans hs⟩
        exact lt_irrefl _ (hsound.inBounds _ (List.mem_append_left _ (hmany hlt)))
      · intro hcond
        have hle : run.calls.length ≤ maxCachedTerms := by
          cases hcond.room with
          | inl hle => exact hle
          | inr hsome =>
              rw [hslot] at hsome
              exact nomatch hsome
        obtain ⟨hindex, hreads⟩ := hfew hle
        refine ⟨fun i hi => ?_, fun _ i hi => nomatch hindex.symm.trans hi⟩
        cases List.mem_append.1 hi with
        | inl hread => exact hreads i hread
        | inr hwrite => exact hwrites i hwrite
  | some s =>
      obtain ⟨hterm, i, hi, hindex, hcall, hvalue⟩ := h.lookupIndex_of_slotCall hslot
      constructor
      · intro hsound
        refine ⟨Or.inr (by rw [hslot]; rfl), fun s' hs' hidf => ?_⟩
        cases hslot.symm.trans hs'
        obtain ⟨s', hs', hexact, -⟩ := hsound.exact (by rw [hvalue]; exact hidf) i hindex
        cases hcall.symm.trans hs'
        exact (fitsSlot_iff_strlcpy s.term).2 (hterm.trans hexact.symm)
      · intro hcond
        refine ⟨fun j hj => ?_, fun hhit j hj => ?_⟩
        · cases List.mem_append.1 hj with
          | inl hread =>
              rw [lookupReads, hindex, List.mem_range] at hread
              omega
          | inr hwrite => exact hwrites j hwrite
        · cases hindex.symm.trans hj
          rw [hvalue] at hhit
          have hfits := hcond.uncut s hslot hhit
          exact ⟨s, hcall, (strlcpy_of_fits hfits).symm.trans hterm, hvalue⟩

end Lookup

/-- **The cache of a query is sound** exactly when the condition holds at every lookup. -/
theorem idfCache_sound_iff (indexOid firstSegment totalDocs : Nat) (avgDocLen : ℚ)
    (behind : TermIdfEntry) (requests : List TermRequest) :
    (∀ n r, requests[n]? = some r → SoundLookup
        ((CacheRun.start indexOid firstSegment totalDocs avgDocLen behind).before requests n) r) ↔
      ∀ n r, requests[n]? = some r → Answerable
        ((CacheRun.start indexOid firstSegment totalDocs avgDocLen behind).before requests n).calls
        r.term := by
  have hstart := CacheRun.tracks_start indexOid firstSegment totalDocs avgDocLen behind
  constructor
  · intro hsound n r hr
    exact (soundLookup_iff (hstart.before requests n) r).1 (hsound n r hr)
  · intro hcond n r hr
    exact (soundLookup_iff (hstart.before requests n) r).2 (hcond n r hr)

theorem nul_free_replicate (n : Nat) : (0 : Fin 256) ∉ List.replicate n 97 :=
  fun hmem => absurd (List.eq_of_mem_replicate hmem) (by decide)

/-- A term of 64 bytes, and its first 63. -/
def longLexeme (n : Nat) : CString where
  bytes := List.replicate n 97
  nul_free := nul_free_replicate n

/-- The longer term is stored under the shorter one, which then hits. -/
theorem idfCache_confuses_longLexemes :
    ¬∀ (behind : TermIdfEntry) (requests : List TermRequest),
      ∀ n r, requests[n]? = some r →
        SoundLookup ((CacheRun.start 1 1 10 5 behind).before requests n) r := by
  intro h
  obtain ⟨requests, hrequests⟩ : ∃ requests : List TermRequest,
    requests = [⟨longLexeme 64, 1, 2⟩, ⟨longLexeme 63, 4, 1⟩] := ⟨_, rfl⟩
  have hstart := CacheRun.tracks_start 1 1 10 5 ⟨longLexeme 0, 0, 0⟩
  have hsound := h ⟨longLexeme 0, 0, 0⟩ requests 1 ⟨longLexeme 63, 4, 1⟩ (by rw [hrequests]; rfl)
  have hcond := (soundLookup_iff (hstart.before requests 1) _).1 hsound
  have hcalls : ((CacheRun.start 1 1 10 5 ⟨longLexeme 0, 0, 0⟩).before requests 1).calls =
      [⟨longLexeme 64, 1, 2⟩] := by
    rw [hrequests]
    have hneg : ((-1 : ℚ) < 0) := by norm_num
    simp [CacheRun.before, CacheRun.step, CacheRun.start, lookupCachedIdf, hneg]
  rw [hcalls] at hcond
  have hslot : slotCall [⟨longLexeme 64, 1, 2⟩] (longLexeme 63) = some ⟨longLexeme 64, 1, 2⟩ := by
    have hcut : strlcpy (longLexeme 64) nameDataLen = longLexeme 63 := by decide
    simp [slotCall, maxCachedTerms, hcut]
  exact absurd (hcond.uncut _ hslot (by norm_num)) (by unfold FitsSlot; decide)

end PgTextsearch.Query
