import PgTextsearch.Query.Candidates
import PgTextsearch.Query.IdfCache

/-!
# The scoring operator (`types/query.c`)

`text <@> bm25query` tokenizes the document text again and scores it on its own, with
the IDF cache of the function call; the index scan returns the scores of the Block-Max
WAND search.  The operator quantises the document length as segments do, and weighs every
term by its frequency in the query.

## Main results

* `scoreQueryTerms_spec` — the loop over the query terms keeps the cache and adds up the
  scores of the terms.
* `bm25TextBm25queryScore_eq` — what the operator computes for an indexed document,
  whatever rows it saw before.
-/

namespace PgTextsearch.Query

open PgTextsearch.Postgres PgTextsearch.Segment PgTextsearch.Verified

/-! ## The operator -/

/-- `calculate_doc_length`. -/
def calculateDocLength (tsvector : TermVector CString) : Nat :=
  (tsvector.entries.map Prod.snd).sum

/-- `find_term_frequency`. -/
def findTermFrequency (tsvector : TermVector CString) (term : CString) : Nat :=
  ((tsvector.entries.find? (·.1 = term)).map Prod.snd).getD 0

/-- `calculate_term_score`. -/
def calculateTermScore (tf : Nat) (idf : ℚ) (docLength : Nat) (avgDocLen k1 b : ℚ)
    (queryFreq : Nat) : ℚ :=
  let numerator := (tf : ℚ) * (k1 + 1)
  let denominator :=
    if avgDocLen > 0 then (tf : ℚ) + k1 * (1 - b + b * ((docLength : ℚ) / avgDocLen))
    else (tf : ℚ) + k1
  idf * (numerator / denominator) * queryFreq

/-- A `bm25query`: the query text and the language it may override the index's with. -/
structure Bm25Query (Config Text : Type) where
  queryText : Text
  queryConfig : Option Config

/-- What the operator reads of the index besides what a search does. -/
structure OperatorIndex (Config : Type) where
  indexOid : Nat
  textConfig : Config
  view : IndexView CString

/-- `level_heads[0]`. -/
def IndexView.firstSegment {Term : Type} (view : IndexView Term) : Nat :=
  ((view.levels.head?.bind List.head?).map (·.rootBlock)).getD invalidBlockNumber

/-- The average document length of the shared statistics. -/
def IndexView.avgDocLen {Term : Type} (view : IndexView Term) : ℚ :=
  if view.totalDocs > 0 then (view.totalLen : ℚ) / view.totalDocs else 0

/-- One round of the loop over the query terms: the score so far and the cache. -/
def scoreQueryTerm (log : LogFunction) (view : IndexView CString) (tsvector : TermVector CString)
    (docLength : Nat) (acc : ℚ × QueryScoreCache) (entry : CString × Nat) :
    ℚ × QueryScoreCache :=
  let tf := findTermFrequency tsvector entry.1
  if tf = 0 then acc
  else
    let score := fun idf => calculateTermScore tf idf docLength view.avgDocLen view.options.k1
      view.options.b entry.2
    let idf := (lookupCachedIdf acc.2 entry.1).1
    if idf < 0 then
      let docFreq := tpGetUnifiedDocFreq view entry.1
      if docFreq = 0 then acc
      else
        let idf := tpCalculateIdf log docFreq view.totalDocs
        (acc.1 + score idf, cacheTermIdf acc.2 entry.1 docFreq idf)
    else (acc.1 + score idf, acc.2)

section Operator

variable {Config Text : Type} (toTsvector : Config → Text → TermVector CString)
  (log : LogFunction) (index : OperatorIndex Config)

/-- The query text under the configuration of the query, or of the index. -/
def queryVector (query : Bm25Query Config Text) : TermVector CString :=
  toTsvector (query.queryConfig.getD index.textConfig) query.queryText

/-- `bm25_text_bm25query_score` of a row: the value and the cache in `fn_extra`. -/
def bm25TextBm25queryScore (behind : TermIdfEntry) (query : Bm25Query Config Text)
    (fnExtra : Option QueryScoreCache) (textArg : Text) : ℚ × QueryScoreCache :=
  let view := index.view
  let fresh : QueryScoreCache :=
    { indexOid := index.indexOid
      firstSegment := view.firstSegment
      totalDocs := view.totalDocs
      avgDocLen := view.avgDocLen
      numTerms := 0
      terms := []
      behind := behind }
  let cache :=
    match fnExtra with
    | none => fresh
    | some cache =>
        if cacheIsValid cache index.indexOid view.firstSegment view.totalDocs then cache else fresh
  let tsvector := toTsvector index.textConfig textArg
  let docLength := decodeFieldnorm (encodeFieldnorm (calculateDocLength tsvector))
  let result := (queryVector toTsvector index query).entries.foldl
    (scoreQueryTerm log view tsvector docLength) (0, cache)
  (if result.1 > 0 then -result.1 else result.1, result.2)

/-- `fn_extra` after the rows of one statement so far. -/
def fnExtraAfter (behind : TermIdfEntry) (query : Bm25Query Config Text) (rows : List Text) :
    Option QueryScoreCache :=
  rows.foldl (fun fnExtra row =>
    some (bm25TextBm25queryScore toTsvector log index behind query fnExtra row).2) none

/-- The distance `tp_gettuple` reports for a result. -/
def orderByValue (rawScore : ℚ) : ℚ := if rawScore > 0 then -rawScore else rawScore

end Operator

/-! ## The value of the operator -/

/-- The score of a document vector of length `docLength`, every query term weighed by its
frequency in the query. -/
def vectorScore (P : ScoreParams) (idf : CString → ℚ) (query : List (CString × Nat))
    (tsvector : TermVector CString) (docLength : Nat) : ℚ :=
  (query.map fun q => P.score (idf q.1) (findTermFrequency tsvector q.1) docLength * q.2).sum

/-- The IDF of a term in the whole index. -/
def indexIdf (log : LogFunction) (view : IndexView CString) (term : CString) : ℚ :=
  tpCalculateIdf log (tpGetUnifiedDocFreq view term) view.totalDocs

/-- The query neither cuts a term of the cache nor fills it: at most `MAX_CACHED_TERMS`
terms, each shorter than `NAMEDATALEN`. -/
structure FitsCache (query : List (CString × Nat)) : Prop where
  count : query.length ≤ maxCachedTerms
  fits : ∀ q ∈ query, FitsSlot q.1

theorem tpCalculateIdf_pos (log : LogFunction) {docFreq totalDocs : Nat}
    (h : docFreq ≤ totalDocs) : 0 < tpCalculateIdf log docFreq totalDocs := by
  apply log.pos
  have hsub : (0 : ℚ) ≤ (((totalDocs : Int) - docFreq : Int) : ℚ) := by
    exact_mod_cast Int.sub_nonneg.2 (Int.ofNat_le.2 h)
  have hnum : (0 : ℚ) < (((totalDocs : Int) - docFreq : Int) : ℚ) + 1 / 2 := by linarith
  have hden : (0 : ℚ) < (docFreq : ℚ) + 1 / 2 := by positivity
  have := div_pos hnum hden
  linarith

theorem calculateTermScore_eq (P : ScoreParams) (tf : Nat) (idf : ℚ) (docLength queryFreq : Nat) :
    calculateTermScore tf idf docLength P.avgDocLen P.k1 P.b queryFreq =
      P.score idf tf docLength * queryFreq := by
  simp only [calculateTermScore, gt_iff_lt, P.avg_pos, if_true, ScoreParams.score, bm25Score,
    Int.cast_natCast]

section Value

variable {log : LogFunction} {view : IndexView CString} {P : ScoreParams}

/-- What `scoreParams` holds. -/
theorem scoreParams_fields (hP : view.scoreParams = some P) :
    P.avgDocLen = view.avgDocLen ∧ P.k1 = view.options.k1 ∧ P.b = view.options.b ∧
      0 < view.totalDocs := by
  unfold IndexView.scoreParams at hP
  split at hP
  · rename_i h
    cases hP
    simp only [IndexView.avgDocLen, gt_iff_lt, h.1, if_true, and_self]
  · cases hP

/-- The entries of a term vector are found under their terms. -/
theorem findTermFrequency_of_mem {tv : TermVector CString} {e : CString × Nat}
    (he : e ∈ tv.entries) : findTermFrequency tv e.1 = e.2 := by
  have hfind : tv.entries.find? (·.1 = e.1) = some e :=
    DistinctKeys.find?_eq_some tv.nodup he rfl
  simp [findTermFrequency, hfind]

/-- The answers the cache should give. -/
def cacheAnswer (log : LogFunction) (view : IndexView CString) (term : CString) : ℚ × Nat :=
  (indexIdf log view term, tpGetUnifiedDocFreq view term)

/-- **The loop over the query terms**, on a document whose terms the index counts. -/
theorem scoreQueryTerms_spec (hP : view.scoreParams = some P)
    (hcounted : ∀ term, tpGetUnifiedDocFreq view term ≤ view.totalDocs)
    {names : List CString} (hnames : names.length ≤ maxCachedTerms)
    (hfits : ∀ term ∈ names, FitsSlot term) (tv : TermVector CString) (docLength : Nat)
    (l : List (CString × Nat)) (hl : ∀ q ∈ l, q.1 ∈ names) (acc : ℚ × QueryScoreCache)
    (hcache : Answers names (cacheAnswer log view) acc.2) :
    Answers names (cacheAnswer log view)
        (l.foldl (scoreQueryTerm log view tv docLength) acc).2 ∧
      ((∀ q ∈ l, 0 < findTermFrequency tv q.1 → 0 < tpGetUnifiedDocFreq view q.1) →
        (l.foldl (scoreQueryTerm log view tv docLength) acc).1 =
          acc.1 + vectorScore P (indexIdf log view) l tv docLength) := by
  obtain ⟨havg, hk1, hb, -⟩ := scoreParams_fields hP
  induction l generalizing acc with
  | nil => exact ⟨hcache, fun _ => by simp [vectorScore]⟩
  | cons q l ih =>
      have hidf : 0 < indexIdf log view q.1 := tpCalculateIdf_pos log (hcounted q.1)
      have hmem := hl q List.mem_cons_self
      -- one round keeps the cache and adds the term's score
      have hround : Answers names (cacheAnswer log view)
          (scoreQueryTerm log view tv docLength acc q).2 ∧
          ((0 < findTermFrequency tv q.1 → 0 < tpGetUnifiedDocFreq view q.1) →
            (scoreQueryTerm log view tv docLength acc q).1 = acc.1 +
              P.score (indexIdf log view q.1) (findTermFrequency tv q.1) docLength * q.2) := by
        by_cases htf : findTermFrequency tv q.1 = 0
        · have heq : scoreQueryTerm log view tv docLength acc q = acc := by
            simp [scoreQueryTerm, htf]
          rw [heq]
          exact ⟨hcache, fun _ => by simp [htf]⟩
        · have hscore : ∀ idf, calculateTermScore (findTermFrequency tv q.1) idf docLength
              view.avgDocLen view.options.k1 view.options.b q.2 =
              P.score idf (findTermFrequency tv q.1) docLength * q.2 := by
            intro idf
            rw [← havg, ← hk1, ← hb]
            exact calculateTermScore_eq P _ _ _ _
          rcases lookupCachedIdf_spec hcache hnames q.1 with hhit | ⟨hmiss, hnew⟩
          · have hval : (lookupCachedIdf acc.2 q.1).1 = indexIdf log view q.1 := by
              rw [hhit]
              rfl
            have heq : scoreQueryTerm log view tv docLength acc q =
                (acc.1 + P.score (indexIdf log view q.1) (findTermFrequency tv q.1) docLength *
                  q.2, acc.2) := by
              simp only [scoreQueryTerm, htf, if_false, hval, not_lt.2 hidf.le, hscore]
            rw [heq]
            exact ⟨hcache, fun _ => rfl⟩
          · by_cases hdf : tpGetUnifiedDocFreq view q.1 = 0
            · have heq : scoreQueryTerm log view tv docLength acc q = acc := by
                simp [scoreQueryTerm, htf, hmiss, hdf]
              rw [heq]
              exact ⟨hcache, fun h => absurd (h (Nat.pos_of_ne_zero htf)) (by omega)⟩
            · have heq : scoreQueryTerm log view tv docLength acc q =
                  (acc.1 + P.score (indexIdf log view q.1) (findTermFrequency tv q.1) docLength *
                    q.2, cacheTermIdf acc.2 q.1 (cacheAnswer log view q.1).2
                      (cacheAnswer log view q.1).1) := by
                have hneg : ((-1 : ℚ) < 0) := by norm_num
                simp only [scoreQueryTerm, htf, if_false, hmiss, hneg, if_true, hdf, hscore]
                rfl
              rw [heq]
              exact ⟨hcache.cacheTermIdf hnames (hfits q.1 hmem) hmem hnew, fun _ => rfl⟩
      obtain ⟨hrest, hsum⟩ := ih (fun q' hq' => hl q' (List.mem_cons_of_mem _ hq')) _ hround.1
      rw [List.foldl_cons]
      refine ⟨hrest, fun hall => ?_⟩
      rw [hsum fun q' hq' => hall q' (List.mem_cons_of_mem _ hq'),
        hround.2 (hall q List.mem_cons_self)]
      simp [vectorScore, add_assoc]

end Value

section Rows

variable {Config Text : Type} {toTsvector : Config → Text → TermVector CString}
  {log : LogFunction} {index : OperatorIndex Config} {behind : TermIdfEntry}
  {query : Bm25Query Config Text} {P : ScoreParams}

/-- The terms of the query. -/
def queryNames (toTsvector : Config → Text → TermVector CString) (index : OperatorIndex Config)
    (query : Bm25Query Config Text) : List CString :=
  (queryVector toTsvector index query).entries.map Prod.fst

/-- The cache in `fn_extra`, if there is one, answers for the terms of the query. -/
def ExtraAnswers (names : List CString) (answer : CString → ℚ × Nat) :
    Option QueryScoreCache → Prop
  | none => True
  | some cache => Answers names answer cache

/-- **One row**: the operator keeps the cache right, and its value is the score of the
document's vector under the quantised length. -/
theorem bm25TextBm25queryScore_eq (hP : index.view.scoreParams = some P)
    (hcounted : ∀ term, tpGetUnifiedDocFreq index.view term ≤ index.view.totalDocs)
    (hfits : FitsCache (queryVector toTsvector index query).entries)
    {fnExtra : Option QueryScoreCache}
    (hextra : ExtraAnswers (queryNames toTsvector index query) (cacheAnswer log index.view) fnExtra)
    (row : Text) :
    Answers (queryNames toTsvector index query) (cacheAnswer log index.view)
        (bm25TextBm25queryScore toTsvector log index behind query fnExtra row).2 ∧
      ((∀ q ∈ (queryVector toTsvector index query).entries,
          0 < findTermFrequency (toTsvector index.textConfig row) q.1 →
            0 < tpGetUnifiedDocFreq index.view q.1) →
        (bm25TextBm25queryScore toTsvector log index behind query fnExtra row).1 =
          orderByValue (vectorScore P (indexIdf log index.view)
            (queryVector toTsvector index query).entries (toTsvector index.textConfig row)
            (decodeFieldnorm (encodeFieldnorm (toTsvector index.textConfig row).docLength)))) := by
  have hnames : (queryNames toTsvector index query).length ≤ maxCachedTerms := by
    rw [queryNames, List.length_map]
    exact hfits.count
  have hslots : ∀ term ∈ queryNames toTsvector index query, FitsSlot term := by
    intro term hterm
    obtain ⟨q, hq, rfl⟩ := List.mem_map.1 hterm
    exact hfits.fits q hq
  -- the cache the row starts with is fresh, or the one the last row left
  obtain ⟨start, hstart, hrow⟩ : ∃ start, Answers (queryNames toTsvector index query)
      (cacheAnswer log index.view) start ∧
      bm25TextBm25queryScore toTsvector log index behind query fnExtra row =
        (orderByValue ((queryVector toTsvector index query).entries.foldl
          (scoreQueryTerm log index.view (toTsvector index.textConfig row)
            (decodeFieldnorm (encodeFieldnorm (toTsvector index.textConfig row).docLength)))
          (0, start)).1,
        ((queryVector toTsvector index query).entries.foldl
          (scoreQueryTerm log index.view (toTsvector index.textConfig row)
            (decodeFieldnorm (encodeFieldnorm (toTsvector index.textConfig row).docLength)))
          (0, start)).2) := by
    cases fnExtra with
    | none =>
        refine ⟨_, ?_, rfl⟩
        exact Answers.fresh rfl rfl
    | some cache =>
        by_cases hvalid : cacheIsValid cache index.indexOid index.view.firstSegment
            index.view.totalDocs
        · refine ⟨cache, hextra, ?_⟩
          simp only [bm25TextBm25queryScore, hvalid, if_true]
          rfl
        · simp only [bm25TextBm25queryScore, hvalid]
          refine ⟨_, ?_, rfl⟩
          exact Answers.fresh rfl rfl
  have hloop := scoreQueryTerms_spec hP hcounted hnames hslots (toTsvector index.textConfig row)
    (decodeFieldnorm (encodeFieldnorm (toTsvector index.textConfig row).docLength))
    (queryVector toTsvector index query).entries (fun q hq => List.mem_map_of_mem hq)
    (0, start) hstart
  rw [hrow]
  refine ⟨hloop.1, fun hpresent => ?_⟩
  simp only [hloop.2 hpresent, zero_add]

/-- The cache after any rows answers for the terms of the query. -/
theorem fnExtraAfter_answers (hP : index.view.scoreParams = some P)
    (hcounted : ∀ term, tpGetUnifiedDocFreq index.view term ≤ index.view.totalDocs)
    (hfits : FitsCache (queryVector toTsvector index query).entries) (rows : List Text) :
    ExtraAnswers (queryNames toTsvector index query) (cacheAnswer log index.view)
      (fnExtraAfter toTsvector log index behind query rows) := by
  have hfold : ∀ (l : List Text) (fnExtra : Option QueryScoreCache),
      ExtraAnswers (queryNames toTsvector index query) (cacheAnswer log index.view) fnExtra →
      ExtraAnswers (queryNames toTsvector index query) (cacheAnswer log index.view)
        (l.foldl (fun fnExtra row =>
          some (bm25TextBm25queryScore toTsvector log index behind query fnExtra row).2)
          fnExtra) := by
    intro l
    induction l with
    | nil => exact fun fnExtra hextra => hextra
    | cons row rest ih =>
        intro fnExtra hextra
        exact ih _ (bm25TextBm25queryScore_eq hP hcounted hfits hextra row).1
  exact hfold rows none trivial

end Rows

end PgTextsearch.Query
