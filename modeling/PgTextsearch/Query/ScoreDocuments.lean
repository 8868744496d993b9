import PgTextsearch.Memtable.Posting
import PgTextsearch.Query.SingleTerm
import PgTextsearch.Query.WandCorrect

/-!
# Scoring a query (`query/score.c`, `query/bmw.c`)

The Block-Max WAND path of `tp_score_documents` over a whole index, without a tenant
filter: the document frequency of a query term is summed over the memtable and all
segments first, then the memtable and every segment in chain order add their documents
to one result heap.

Each source offers the heap a list of candidates, CTIDs with scores.

## Main results

* `tpBatchGetUnifiedDocFreq_eq` — the batch lookup of document frequencies agrees with the
  single ones.
* `tpGetUnifiedDocFreq_eq` — a document frequency is a sum over the memtable and the segments.
-/

namespace PgTextsearch.Query

open PgTextsearch.Postgres PgTextsearch.Segment PgTextsearch.Verified

/-! ## What a query reads -/

/-- The ranking reloptions: `k1` in `[0.1, 10]` and `b` in `[0, 1]`. -/
structure RankOptions where
  k1 : ℚ
  b : ℚ
  k1_pos : 0 < k1
  b_nonneg : 0 ≤ b
  b_le_one : b ≤ 1

/-- What `tp_score_documents` reads of an index: the memtable, the segment chain of
every level, the corpus statistics of the shared state and the reloptions. -/
structure IndexView (Term : Type) where
  memtable : Memtable Term
  levels : List (List (SegmentReader Term))
  totalDocs : Nat
  totalLen : Nat
  options : RankOptions

/-- The natural logarithm of the C library, as far as scoring depends on it. -/
structure LogFunction where
  ln : ℚ → ℚ
  pos : ∀ x, 1 < x → 0 < ln x
  strictMono : ∀ x y, 1 < x → x < y → ln x < ln y

/-- `calculate_idf`. -/
def tpCalculateIdf (log : LogFunction) (docFreq totalDocs : Nat) : ℚ :=
  let numerator := (((totalDocs : Int) - docFreq : Int) : ℚ) + 1 / 2
  let denominator := (docFreq : ℚ) + 1 / 2
  log.ln (1 + numerator / denominator)

namespace IndexView

variable {Term : Type}

/-- The segments in the order a query visits them. -/
def segments (view : IndexView Term) : List (SegmentReader Term) := view.levels.flatten

/-- `tp_segment_open` on a root block of the index. -/
def openSegment (view : IndexView Term) (root : Nat) : Option (SegmentReader Term) :=
  view.segments.find? (·.rootBlock = root)

/-- The scoring parameters, unless the statistics make the query return at once: no
documents, or an average length of zero. -/
def scoreParams (view : IndexView Term) : Option ScoreParams :=
  if h : 0 < view.totalDocs ∧ 0 < view.totalLen then
    some
      { k1 := view.options.k1
        b := view.options.b
        avgDocLen := (view.totalLen : ℚ) / view.totalDocs
        k1_pos := view.options.k1_pos
        b_nonneg := view.options.b_nonneg
        b_le_one := view.options.b_le_one
        avg_pos := div_pos (Nat.cast_pos.2 h.2) (Nat.cast_pos.2 h.1) }
  else none

end IndexView

section DocFreq

variable {Term : Type} [DecidableEq Term]

/-- The document frequency a segment stores for a term, 0 if it does not have it. -/
def segmentDocFreq (reader : SegmentReader Term) (term : Term) : Nat :=
  ((reader.findTerm term).map DictEntry.docFreq).getD 0

/-- `tp_segment_get_doc_freq`: summed along one chain. -/
def tpSegmentGetDocFreq (chain : List (SegmentReader Term)) (term : Term) : Nat :=
  (chain.map fun reader => segmentDocFreq reader term).sum

/-- `tp_get_unified_doc_freq`. -/
def tpGetUnifiedDocFreq (view : IndexView Term) (term : Term) : Nat :=
  (view.memtable.postings term).length +
    (view.levels.map fun chain => tpSegmentGetDocFreq chain term).sum

/-- `tp_batch_get_segment_doc_freq`: every segment is opened once for all terms. -/
def tpBatchGetSegmentDocFreq (terms : List Term) (docFreqs : List Nat)
    (chain : List (SegmentReader Term)) : List Nat :=
  chain.foldl (fun docFreqs reader =>
    List.zipWith (fun term docFreq => docFreq + segmentDocFreq reader term) terms docFreqs)
    docFreqs

/-- `tp_batch_get_unified_doc_freq`. -/
def tpBatchGetUnifiedDocFreq (view : IndexView Term) (terms : List Term) : List Nat :=
  view.levels.foldl (tpBatchGetSegmentDocFreq terms)
    (terms.map fun term => (view.memtable.postings term).length)

theorem tpBatchGetSegmentDocFreq_map (terms : List Term) (f : Term → Nat)
    (chain : List (SegmentReader Term)) :
    tpBatchGetSegmentDocFreq terms (terms.map f) chain =
      terms.map fun term => f term + tpSegmentGetDocFreq chain term := by
  induction chain generalizing f with
  | nil => simp [tpBatchGetSegmentDocFreq, tpSegmentGetDocFreq]
  | cons reader rest ih =>
      have hzip : List.zipWith (fun term docFreq => docFreq + segmentDocFreq reader term) terms
          (terms.map f) = terms.map fun term => f term + segmentDocFreq reader term := by
        rw [List.zipWith_map_right, List.zipWith_self]
      have hrest := ih fun term => f term + segmentDocFreq reader term
      simp only [tpBatchGetSegmentDocFreq, List.foldl_cons, hzip] at hrest ⊢
      rw [hrest]
      simp [tpSegmentGetDocFreq, Nat.add_assoc]

/-- The batch lookup agrees with the single ones. -/
theorem tpBatchGetUnifiedDocFreq_eq (view : IndexView Term) (terms : List Term) :
    tpBatchGetUnifiedDocFreq view terms = terms.map (tpGetUnifiedDocFreq view) := by
  have hfold : ∀ (levels : List (List (SegmentReader Term))) (f : Term → Nat),
      levels.foldl (tpBatchGetSegmentDocFreq terms) (terms.map f) = terms.map fun term =>
        f term + (levels.map fun chain => tpSegmentGetDocFreq chain term).sum := by
    intro levels
    induction levels with
    | nil => simp
    | cons chain rest ih =>
        intro f
        rw [List.foldl_cons, tpBatchGetSegmentDocFreq_map, ih]
        simp [Nat.add_assoc]
  exact hfold view.levels _

theorem tpGetUnifiedDocFreq_eq (view : IndexView Term) (term : Term) :
    tpGetUnifiedDocFreq view term = (view.memtable.postings term).length +
      (view.segments.map fun reader => segmentDocFreq reader term).sum := by
  have hlevels : ∀ levels : List (List (SegmentReader Term)),
      (levels.map fun chain => tpSegmentGetDocFreq chain term).sum =
        (levels.flatten.map fun reader => segmentDocFreq reader term).sum := by
    intro levels
    induction levels with
    | nil => rfl
    | cons chain rest ih =>
        rw [List.map_cons, List.sum_cons, ih, List.flatten_cons, List.map_append,
          List.sum_append, tpSegmentGetDocFreq]
  rw [tpGetUnifiedDocFreq, hlevels, IndexView.segments]

end DocFreq

/-! ## The memtable source -/

/-- `memtable_get_doc_length`. -/
def tpSourceGetDocLength {Term : Type} (mt : Memtable Term) (ctid : ItemPointer) : Int :=
  match mt.docLengths.lookup ctid with
  | none => -1
  | some entry => entry.docLength

/-- The length the memtable passes of a BMW search score a posting with: an entry
that is missing counts as length 1. -/
def memtableDocLength {Term : Type} (mt : Memtable Term) (ctid : ItemPointer) : Int :=
  let docLen := tpSourceGetDocLength mt ctid
  if docLen ≤ 0 then 1 else docLen

/-- A scored memtable document is added unless the heap dominates it. -/
def addMemtableUndominated (h : TopKHeap) (ctid : ItemPointer) (score : ℚ) : TopKHeap :=
  if !tpTopkDominated h score then tpTopkAddMemtable h ctid score else h

section Memtable

variable {Term : Type} [DecidableEq Term]

/-- `score_memtable_single_term`. -/
def scoreMemtableSingleTerm (P : ScoreParams) (mt : Memtable Term) (heap : TopKHeap)
    (term : Term) (idf : ℚ) : TopKHeap :=
  (mt.postings term).foldl (fun heap posting =>
    addMemtableUndominated heap posting.ctid
      (P.score idf posting.frequency (memtableDocLength mt posting.ctid))) heap

/-- `hash_search` with `HASH_ENTER` on a table of document scores. -/
def accumulateScore (table : AList fun _ : ItemPointer => ℚ) (ctid : ItemPointer)
    (termScore : ℚ) : AList fun _ : ItemPointer => ℚ :=
  match table.lookup ctid with
  | none => table.insert ctid termScore
  | some score => table.insert ctid (score + termScore)

/-- The accumulation of `score_memtable_multi_term`. -/
def accumulateMemtable (P : ScoreParams) (mt : Memtable Term)
    (terms : List (TermState Term)) : AList fun _ : ItemPointer => ℚ :=
  terms.foldl (fun table ts =>
    (mt.postings ts.term).foldl (fun table posting =>
      accumulateScore table posting.ctid
        (P.score ts.idf posting.frequency (memtableDocLength mt posting.ctid) *
          ts.queryFreq)) table) ∅

/-- `score_memtable_multi_term`. -/
def scoreMemtableMultiTerm (hs : HashSeq) (P : ScoreParams) (mt : Memtable Term)
    (heap : TopKHeap) (terms : List (TermState Term)) : TopKHeap :=
  (hs.scan (accumulateMemtable P mt terms).entries).foldl
    (fun heap entry => addMemtableUndominated heap entry.1 entry.2) heap

end Memtable

/-! ## The two searches -/

section Search

variable {Term : Type} [DecidableEq Term]

/-- `tp_score_single_term_bmw`. -/
def tpScoreSingleTermBmw (qs : Qsort) (P : ScoreParams) (view : IndexView Term) (term : Term)
    (idf : ℚ) (maxResults : Nat) : List (ItemPointer × ℚ) :=
  let heap := scoreMemtableSingleTerm P view.memtable (tpTopkInit maxResults) term idf
  let heap := view.segments.foldl (fun heap reader =>
    scoreSegmentSingleTermBmw P reader heap term idf 0 0 uint32Max) heap
  tpTopkExtract qs (tpTopkResolveCtids view.openSegment heap)

/-- A term state as `tp_score_multi_term_bmw` fills it in; the rest is set per segment. -/
def newTermState (term : Term) (idf : ℚ) (queryFreq : Nat) : TermState Term :=
  ⟨term, idf, queryFreq, 0, false, absentIterator, none, none⟩

/-- The loop over the segments of `tp_score_multi_term_bmw`; every segment starts from
the term states the one before it left. -/
def searchSegments (qs : Qsort) (P : ScoreParams) :
    List (SegmentReader Term) → TopKHeap → List (TermState Term) → Option TopKHeap
  | [], heap, _ => some heap
  | reader :: rest, heap, terms =>
      match searchSegment qs P reader heap terms with
      | none => none
      | some st => searchSegments qs P rest st.heap st.terms

/-- `tp_score_multi_term_bmw`. -/
def tpScoreMultiTermBmw (qs : Qsort) (hs : HashSeq) (P : ScoreParams) (view : IndexView Term)
    (terms : List (TermState Term)) (maxResults : Nat) : Option (List (ItemPointer × ℚ)) :=
  let heap := scoreMemtableMultiTerm hs P view.memtable (tpTopkInit maxResults) terms
  (searchSegments qs P view.segments heap terms).map fun heap =>
    tpTopkExtract qs (tpTopkResolveCtids view.openSegment heap)

/-- The term states of a query: a term no source has gets IDF 0. -/
def queryTermStates (log : LogFunction) (view : IndexView Term) (query : List (Term × Nat)) :
    List (TermState Term) :=
  List.zipWith (fun q docFreq =>
    newTermState q.1 (if docFreq > 0 then tpCalculateIdf log docFreq view.totalDocs else 0) q.2)
    query (tpBatchGetUnifiedDocFreq view (query.map Prod.fst))

/-- `tp_score_documents` with `tp_enable_bmw` on and no tenant filter. -/
def tpScoreDocumentsBmw (qs : Qsort) (hs : HashSeq) (log : LogFunction) (view : IndexView Term)
    (query : List (Term × Nat)) (maxResults : Nat) : Option (List (ItemPointer × ℚ)) :=
  if query.length = 0 ∨ maxResults = 0 then some []
  else
    match view.scoreParams with
    | none => some []
    | some P =>
        match query with
        | [(term, _)] =>
            let docFreq := tpGetUnifiedDocFreq view term
            if docFreq = 0 then some []
            else
              some (tpScoreSingleTermBmw qs P view term
                (tpCalculateIdf log docFreq view.totalDocs) maxResults)
        | query =>
            if (tpBatchGetUnifiedDocFreq view (query.map Prod.fst)).all (· = 0) then some []
            else tpScoreMultiTermBmw qs hs P view (queryTermStates log view query) maxResults

end Search

end PgTextsearch.Query
