import PgTextsearch.Query.ScoreDocuments
import PgTextsearch.Segment.Dictionary

/-!
# IDF cache of the scoring operator (`types/query.c`)

The operator keeps the IDF of every query term in `fn_extra` from row to row.  A slot
holds a term cut to `NAMEDATALEN - 1` bytes, there are `MAX_CACHED_TERMS` slots, and the
count of terms goes one past the slots once the cache has overflowed.  For terms that fit
a slot, and no more of them than there are slots, the cache answers for exactly the terms
that were stored (`IdfCache.Answers`).

## Main results

* `lookupCachedIdf_spec` — a lookup in such a cache.
* `Answers.cacheTermIdf` — storing a term after a miss keeps the invariant.
-/

namespace PgTextsearch.Query

open PgTextsearch.Postgres PgTextsearch.Segment

/-- `NAMEDATALEN`. -/
def nameDataLen : Nat := 64

/-- `MAX_CACHED_TERMS`. -/
def maxCachedTerms : Nat := 64

theorem nul_free_take (source : CString) (size : Nat) : 0 ∉ source.bytes.take (size - 1) :=
  fun h => source.nul_free (List.mem_of_mem_take h)

/-- `strlcpy` into a buffer of `size` bytes. -/
def strlcpy (source : CString) (size : Nat) : CString :=
  ⟨source.bytes.take (size - 1), nul_free_take source size⟩

/-- `TermIdfEntry`. -/
structure TermIdfEntry where
  term : CString
  docFreq : Nat
  idf : ℚ

/-- `QueryScoreCache`: `terms` are the slots filled so far, and `behind` is what the memory
behind the last slot happens to hold. -/
structure QueryScoreCache where
  indexOid : Nat
  firstSegment : Nat
  totalDocs : Nat
  avgDocLen : ℚ
  numTerms : Nat
  terms : List TermIdfEntry
  behind : TermIdfEntry

/-- A read of `terms[i]`. -/
def QueryScoreCache.slot (cache : QueryScoreCache) (i : Nat) : TermIdfEntry :=
  if i < maxCachedTerms then cache.terms.getD i cache.behind else cache.behind

/-- `lookup_cached_idf`: the IDF with the document frequency, or -1. -/
def lookupCachedIdf (cache : QueryScoreCache) (term : CString) : ℚ × Nat :=
  match (List.range cache.numTerms).find? (fun i => (cache.slot i).term = term) with
  | some i => ((cache.slot i).idf, (cache.slot i).docFreq)
  | none => (-1, 0)

/-- `cache_term_idf`. -/
def cacheTermIdf (cache : QueryScoreCache) (term : CString) (docFreq : Nat) (idf : ℚ) :
    QueryScoreCache :=
  if cache.numTerms ≥ maxCachedTerms then
    -- the warning is given once: the count moves past the slots
    if cache.numTerms = maxCachedTerms then { cache with numTerms := cache.numTerms + 1 }
    else cache
  else
    { cache with
      terms := cache.terms ++ [⟨strlcpy term nameDataLen, docFreq, idf⟩]
      numTerms := cache.numTerms + 1 }

/-- `cache_is_valid`. -/
def cacheIsValid (cache : QueryScoreCache) (indexOid firstSegment totalDocs : Nat) : Bool :=
  cache.indexOid == indexOid && cache.firstSegment == firstSegment &&
    cache.totalDocs == totalDocs

/-! ## A cache that neither cuts nor overflows -/

/-- The term fits a slot. -/
def FitsSlot (term : CString) : Prop := term.bytes.length < nameDataLen

theorem strlcpy_of_fits {term : CString} (h : FitsSlot term) : strlcpy term nameDataLen = term := by
  apply CString.ext_bytes
  unfold FitsSlot at h
  exact List.take_of_length_le (by omega)

/-- **The cache invariant**: the slots hold distinct terms among `names`, each with the
IDF and the document frequency that `answer` gives it, and the count is that of the
slots. -/
structure Answers (names : List CString) (answer : CString → ℚ × Nat)
    (cache : QueryScoreCache) : Prop where
  count : cache.numTerms = cache.terms.length
  nodup : (cache.terms.map (·.term)).Nodup
  known : ∀ e ∈ cache.terms, e.term ∈ names
  right : ∀ e ∈ cache.terms, (e.idf, e.docFreq) = answer e.term

/-- A fresh cache. -/
theorem Answers.fresh {names : List CString} {answer : CString → ℚ × Nat}
    {cache : QueryScoreCache} (hcount : cache.numTerms = 0) (hterms : cache.terms = []) :
    Answers names answer cache := by
  constructor
  · rw [hcount, hterms]
    rfl
  · simp [hterms]
  · simp [hterms]
  · simp [hterms]

section

variable {names : List CString} {answer : CString → ℚ × Nat} {cache : QueryScoreCache}

/-- There are no more slots in use than names. -/
theorem Answers.length_le (h : Answers names answer cache) :
    cache.terms.length ≤ names.length := by
  have hsub : (cache.terms.map (·.term)).Subperm names := by
    apply List.subperm_of_subset h.nodup
    intro t ht
    obtain ⟨e, he, rfl⟩ := List.mem_map.1 ht
    exact h.known e he
  simpa using hsub.length_le

/-- **A lookup** hits a stored term only, with its answer; a term that is not stored is
a miss. -/
theorem lookupCachedIdf_spec (h : Answers names answer cache)
    (hnames : names.length ≤ maxCachedTerms) (term : CString) :
    lookupCachedIdf cache term = answer term ∨
      (lookupCachedIdf cache term = (-1, 0) ∧ ∀ e ∈ cache.terms, e.term ≠ term) := by
  have hlen := h.length_le
  have hslot : ∀ i, (hi : i < cache.terms.length) → cache.slot i = cache.terms[i] := by
    intro i hi
    rw [QueryScoreCache.slot, if_pos (by omega), List.getD_eq_getElem?_getD,
      List.getElem?_eq_getElem hi, Option.getD_some]
  unfold lookupCachedIdf
  rw [h.count]
  cases hfind : (List.range cache.terms.length).find? (fun i => (cache.slot i).term = term) with
  | some i =>
      left
      have hi : i < cache.terms.length := List.mem_range.1 (List.mem_of_find?_eq_some hfind)
      have hterm : (cache.slot i).term = term := by
        simpa using List.find?_some hfind
      rw [hslot i hi] at hterm
      simp only [hslot i hi]
      rw [h.right _ (List.getElem_mem hi), hterm]
  | none =>
      refine Or.inr ⟨rfl, ?_⟩
      intro e he heq
      obtain ⟨i, hi, rfl⟩ := List.getElem_of_mem he
      have hnone := List.find?_eq_none.1 hfind i (List.mem_range.2 hi)
      rw [hslot i hi] at hnone
      exact hnone (by simpa using heq)

/-- **Storing** a term that was missed keeps the invariant. -/
theorem Answers.cacheTermIdf (h : Answers names answer cache)
    (hnames : names.length ≤ maxCachedTerms) {term : CString} (hfits : FitsSlot term)
    (hmem : term ∈ names) (hmiss : ∀ e ∈ cache.terms, e.term ≠ term) :
    Answers names answer (cacheTermIdf cache term (answer term).2 (answer term).1) := by
  have hnew : term ∉ cache.terms.map (·.term) := by
    intro hin
    obtain ⟨e, he, heq⟩ := List.mem_map.1 hin
    exact hmiss e he heq
  have hroom : cache.terms.length < maxCachedTerms := by
    have hsub : (term :: cache.terms.map (·.term)).Subperm names := by
      apply List.subperm_of_subset (List.nodup_cons.2 ⟨hnew, h.nodup⟩)
      intro t ht
      rcases List.mem_cons.1 ht with rfl | ht
      · exact hmem
      · obtain ⟨e, he, rfl⟩ := List.mem_map.1 ht
        exact h.known e he
    have hlen := hsub.length_le
    simp only [List.length_cons, List.length_map] at hlen
    omega
  have heq : Query.cacheTermIdf cache term (answer term).2 (answer term).1 =
      { cache with
        terms := cache.terms ++ [⟨term, (answer term).2, (answer term).1⟩]
        numTerms := cache.numTerms + 1 } := by
    rw [Query.cacheTermIdf, h.count, if_neg (by omega), strlcpy_of_fits hfits]
  rw [heq]
  constructor
  · simp [h.count]
  · simp only [List.map_append, List.map_cons, List.map_nil]
    exact List.nodup_append.2 ⟨h.nodup, List.nodup_singleton _, by
      intro a ha b hb hab
      rw [List.mem_singleton] at hb
      exact hnew (hb ▸ hab ▸ ha)⟩
  · intro e he
    rcases List.mem_append.1 he with he | he
    · exact h.known e he
    · rw [List.mem_singleton.1 he]
      exact hmem
  · intro e he
    rcases List.mem_append.1 he with he | he
    · exact h.right e he
    · rw [List.mem_singleton.1 he]

end

end PgTextsearch.Query
