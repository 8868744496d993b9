import PgTextsearch.Query.PartialSort
import PgTextsearch.Query.TenantSearch
import PgTextsearch.Query.TopKSearch

/-!
# The exhaustive search (`query/score.c`, `segment/scan.c`)

With block-max search switched off, `tp_score_documents` adds up the scores of all postings of
the query terms in one hash table keyed by CTID: the memtable first, then every segment in
chain order.  The document frequencies are not looked up first.  They grow with every source,
and a posting is weighed with the frequency its term has reached when its source is scored.

## Main results

* `scoreTermPostings_eq` — the loop over the cursor is a loop over the postings.
* `exhaustiveTable_lookup` — the table holds, for every CTID, the sum of what was added for it.
* `exhaustiveSearch_eq` — the search returns the first documents of the exact ranking.
-/

namespace PgTextsearch.Query

open PgTextsearch.Postgres PgTextsearch.Segment PgTextsearch.Verified

/-! ## The table of scores -/

/-- The hash table of `tp_create_doc_scores_hash`. -/
abbrev ScoreTable := AList fun _ : ItemPointer => DocumentScoreEntry

/-- `hash_search` with `HASH_ENTER`: a new document starts with the score of the term, one
in the table gains it. -/
def addTermScore (table : ScoreTable) (ctid : ItemPointer) (termScore docLen : ℚ) : ScoreTable :=
  match table.lookup ctid with
  | none => table.insert ctid ⟨ctid, termScore, docLen⟩
  | some entry => table.insert ctid { entry with score := entry.score + termScore }

section Search

variable {Term : Type} [DecidableEq Term]

/-! ## The memtable -/

/-- The body of the memtable loop of `tp_score_documents`. -/
def scoreMemtablePosting (P : ScoreParams) (mt : Memtable Term) (idf : ℚ)
    (queryFrequency tenantId : Nat) (table : ScoreTable) (posting : MemPosting) : ScoreTable :=
  if OtherTenant tenantId posting then table
  else if !posting.ctid.isValid then table
  else
    let docLen := tpSourceGetDocLength mt posting.ctid
    if docLen ≤ 0 then table
    else
      addTermScore table posting.ctid (P.score idf posting.frequency docLen * queryFrequency) docLen

/-- The memtable loop of `tp_score_documents`, with the document frequencies it records. -/
def scoreMemtableTerms (log : LogFunction) (P : ScoreParams) (totalDocs : Nat) (mt : Memtable Term)
    (tenantId : Nat) : List (Term × Nat) → ScoreTable → List Nat × ScoreTable
  | [], table => ([], table)
  | (term, queryFrequency) :: query, table =>
      let postings := mt.postings term
      if postings.length = 0 then
        let rest := scoreMemtableTerms log P totalDocs mt tenantId query table
        (0 :: rest.1, rest.2)
      else
        let docFreq := postings.length
        let idf := tpCalculateIdf log docFreq totalDocs
        let table :=
          postings.foldl (scoreMemtablePosting P mt idf queryFrequency tenantId) table
        let rest := scoreMemtableTerms log P totalDocs mt tenantId query table
        (docFreq :: rest.1, rest.2)

/-! ## The segments -/

/-- `process_posting`; the cursor of a segment opened with its CTIDs looks them up. -/
def processPosting (P : ScoreParams) (reader : SegmentReader Term) (idf : ℚ) (queryFrequency : Nat)
    (table : ScoreTable) (posting : SegmentPosting) : ScoreTable :=
  let ctid := tpSegmentLookupCtid reader posting.docId
  if posting.docLength = 0 then table
  else if !ctid.isValid then table
  else
    addTermScore table ctid (P.score idf posting.frequency posting.docLength * queryFrequency)
      posting.docLength

/-- The tenant filter of `score_term_postings`, then `process_posting`. -/
def processTenantPosting (P : ScoreParams) (reader : SegmentReader Term) (idf : ℚ)
    (queryFrequency tenantId : Nat) (table : ScoreTable) (posting : SegmentPosting) : ScoreTable :=
  if tenantId ≠ 0 ∧ tpSegmentGetTenantId reader posting.docId ≠ tenantId then table
  else processPosting P reader idf queryFrequency table posting

/-- `score_term_postings`: until the cursor has no more postings. -/
def scoreTermPostings (P : ScoreParams) (reader : SegmentReader Term) (idf : ℚ)
    (queryFrequency tenantId : Nat) : Nat → PostingIterator → ScoreTable → ScoreTable
  | 0, _, table => table
  | fuel + 1, iter, table =>
      match iter.next with
      | (none, _) => table
      | (some posting, iter) =>
          scoreTermPostings P reader idf queryFrequency tenantId fuel iter
            (processTenantPosting P reader idf queryFrequency tenantId table posting)

/-- `score_segment_for_all_terms`: the document frequencies go on growing. -/
def scoreSegmentForAllTerms (log : LogFunction) (P : ScoreParams) (totalDocs : Nat)
    (reader : SegmentReader Term) (tenantId : Nat) :
    List (Term × Nat) → List Nat → ScoreTable → List Nat × ScoreTable
  | (term, queryFrequency) :: query, docFreq :: docFreqs, table =>
      match tpSegmentPostingIteratorInit reader term with
      | none =>
          let rest := scoreSegmentForAllTerms log P totalDocs reader tenantId query docFreqs table
          (docFreq :: rest.1, rest.2)
      | some iter =>
          let docFreq := docFreq + iter.dictEntry.docFreq
          let idf := tpCalculateIdf log docFreq totalDocs
          let table := scoreTermPostings P reader idf queryFrequency tenantId
            (iter.dictEntry.postings.length + 1) iter table
          let rest := scoreSegmentForAllTerms log P totalDocs reader tenantId query docFreqs table
          (docFreq :: rest.1, rest.2)
  | _, docFreqs, table => (docFreqs, table)

/-- `tp_score_all_terms_in_segment_chain`. -/
def tpScoreAllTermsInSegmentChain (log : LogFunction) (P : ScoreParams) (totalDocs : Nat)
    (query : List (Term × Nat)) (tenantId : Nat) (s : List Nat × ScoreTable)
    (chain : List (SegmentReader Term)) : List Nat × ScoreTable :=
  chain.foldl (fun s reader =>
    scoreSegmentForAllTerms log P totalDocs reader tenantId query s.1 s.2) s

/-! ## The search -/

/-- The table `tp_score_documents` has filled when all levels are scored. -/
def exhaustiveTable (log : LogFunction) (P : ScoreParams) (totalDocs : Nat) (view : IndexView Term)
    (query : List (Term × Nat)) (tenantId : Nat) : ScoreTable :=
  (view.levels.foldl (tpScoreAllTermsInSegmentChain log P totalDocs query tenantId)
    (scoreMemtableTerms log P totalDocs view.memtable tenantId query ∅)).2

omit [DecidableEq Term] in
/-- `tp_extract_and_sort_documents`. -/
def tpExtractAndSortDocuments (hs : HashSeq) (table : ScoreTable) (maxResults : Nat) :
    Option (List DocumentScoreEntry) :=
  let allDocs := hs.scan (table.entries.map fun e => e.2)
  if allDocs.length = 0 then some []
  else
    let resultCount := if allDocs.length < maxResults then allDocs.length else maxResults
    (sortTopKDocs allDocs.length allDocs resultCount).map (List.take resultCount)

/-- The exhaustive path of `tp_score_documents`, from the statistics on. -/
def exhaustiveSearch (hs : HashSeq) (log : LogFunction) (P : ScoreParams) (totalDocs : Nat)
    (view : IndexView Term) (query : List (Term × Nat)) (maxResults tenantId : Nat) :
    Option (List (ItemPointer × ℚ)) :=
  (tpExtractAndSortDocuments hs (exhaustiveTable log P totalDocs view query tenantId)
    maxResults).map fun docs => docs.map fun doc => (doc.ctid, doc.score)

/-- `tp_score_documents` with `tp_enable_bmw` off and no tenant filter. -/
def tpScoreDocumentsExhaustive (hs : HashSeq) (log : LogFunction) (view : IndexView Term)
    (query : List (Term × Nat)) (maxResults : Nat) : Option (List (ItemPointer × ℚ)) :=
  if query.length = 0 ∨ maxResults = 0 then some []
  else
    match view.scoreParams with
    | none => some []
    | some P => exhaustiveSearch hs log P view.totalDocs view query maxResults 0

end Search

/-! ## What the table holds -/

/-- The CTIDs something was added for, each with its sum. -/
def summedScores (added : List (ItemPointer × ℚ)) : List (ItemPointer × ℚ) :=
  (added.map Prod.fst).dedup.map fun ctid => (ctid, addedScore added ctid)

theorem mem_summedScores {added : List (ItemPointer × ℚ)} {ctid : ItemPointer} {score : ℚ} :
    (ctid, score) ∈ summedScores added ↔
      (∃ c ∈ added, c.1 = ctid) ∧ score = addedScore added ctid := by
  simp only [summedScores, List.mem_map, List.mem_dedup, Prod.mk.injEq]
  constructor
  · rintro ⟨_, ⟨c, hc, rfl⟩, rfl, rfl⟩
    exact ⟨⟨c, hc, rfl⟩, rfl⟩
  · rintro ⟨⟨c, hc, rfl⟩, rfl⟩
    exact ⟨c.1, ⟨c, hc, rfl⟩, rfl, rfl⟩

theorem summedScores_nodup (added : List (ItemPointer × ℚ)) :
    ((summedScores added).map Prod.fst).Nodup := by
  rw [summedScores, List.map_map]
  exact (List.nodup_dedup _).map fun _ _ h => h

@[simp] theorem addedScore_append (l l' : List (ItemPointer × ℚ)) (ctid : ItemPointer) :
    addedScore (l ++ l') ctid = addedScore l ctid + addedScore l' ctid := by
  simp [addedScore]

theorem addedScore_eq_zero {l : List (ItemPointer × ℚ)} {ctid : ItemPointer}
    (hnone : ∀ c ∈ l, c.1 ≠ ctid) : addedScore l ctid = 0 := by
  have hnil : l.filter (·.1 = ctid) = [] := by
    rw [List.filter_eq_nil_iff]
    intro c hc
    simpa using hnone c hc
  rw [addedScore, hnil]
  rfl

/-- The table holds the sums of what was added, every entry under its own CTID. -/
structure Holds (table : ScoreTable) (added : List (ItemPointer × ℚ)) : Prop where
  keyed : ∀ ctid entry, table.lookup ctid = some entry → entry.ctid = ctid
  score_iff : ∀ ctid score, (table.lookup ctid).map (·.score) = some score ↔
    (ctid, score) ∈ summedScores added

theorem holds_empty : Holds ∅ [] where
  keyed := by simp
  score_iff := by simp [summedScores]

theorem lookup_addTermScore (table : ScoreTable) (ctid : ItemPointer) (termScore docLen : ℚ) :
    ∃ entry, (addTermScore table ctid termScore docLen).lookup ctid = some entry ∧
      entry.score = ((table.lookup ctid).map (·.score)).getD 0 + termScore ∧
      ((∀ old, table.lookup ctid = some old → old.ctid = ctid) → entry.ctid = ctid) := by
  unfold addTermScore
  cases hlookup : table.lookup ctid with
  | none => exact ⟨_, AList.lookup_insert _, by simp, fun _ => rfl⟩
  | some old => exact ⟨_, AList.lookup_insert _, by simp, fun hold => hold old rfl⟩

theorem lookup_addTermScore_ne (table : ScoreTable) {ctid ctid' : ItemPointer} (hne : ctid' ≠ ctid)
    (termScore docLen : ℚ) :
    (addTermScore table ctid termScore docLen).lookup ctid' = table.lookup ctid' := by
  unfold addTermScore
  cases table.lookup ctid <;> exact AList.lookup_insert_ne hne

/-- **One addition** to the table. -/
theorem Holds.add {table : ScoreTable} {added : List (ItemPointer × ℚ)} (h : Holds table added)
    (ctid : ItemPointer) (termScore docLen : ℚ) :
    Holds (addTermScore table ctid termScore docLen) (added ++ [(ctid, termScore)]) := by
  obtain ⟨entry, hentry, hscore, hctid⟩ := lookup_addTermScore table ctid termScore docLen
  have hold : ((table.lookup ctid).map (·.score)).getD 0 = addedScore added ctid := by
    cases hmap : (table.lookup ctid).map (·.score) with
    | some score => exact (mem_summedScores.1 ((h.score_iff ctid score).1 hmap)).2
    | none =>
        refine (addedScore_eq_zero fun c hc heq => ?_).symm
        have hmem := (h.score_iff ctid _).2 (mem_summedScores.2 ⟨⟨c, hc, heq⟩, rfl⟩)
        rw [hmap] at hmem
        cases hmem
  constructor
  · intro ctid' entry' hlookup
    by_cases hsame : ctid' = ctid
    · subst hsame
      rw [hentry] at hlookup
      cases hlookup
      exact hctid fun old => h.keyed ctid' old
    · rw [lookup_addTermScore_ne table hsame] at hlookup
      exact h.keyed ctid' entry' hlookup
  · intro ctid' score
    rw [mem_summedScores, addedScore_append]
    by_cases hsame : ctid' = ctid
    · subst hsame
      have hsum : addedScore [(ctid', termScore)] ctid' = termScore := by simp [addedScore]
      rw [hentry, Option.map_some, Option.some.injEq, hscore, hold, hsum]
      have hsome : ∃ c ∈ added ++ [(ctid', termScore)], c.1 = ctid' :=
        ⟨(ctid', termScore), by simp, rfl⟩
      exact ⟨fun heq => ⟨hsome, heq.symm⟩, fun heq => heq.2.symm⟩
    · have hother : addedScore [(ctid, termScore)] ctid' = 0 :=
        addedScore_eq_zero fun c hc => by
          rw [List.mem_singleton.1 hc]
          exact Ne.symm hsame
      rw [lookup_addTermScore_ne table hsame, h.score_iff, mem_summedScores, hother, add_zero]
      simp [Ne.symm hsame]

/-- A loop whose body adds what a list says. -/
theorem Holds.foldl {α : Type} {f : ScoreTable → α → ScoreTable} {g : α → List (ItemPointer × ℚ)}
    (hf : ∀ table added x, Holds table added → Holds (f table x) (added ++ g x)) {l : List α}
    {table : ScoreTable} {added : List (ItemPointer × ℚ)} (h : Holds table added) :
    Holds (l.foldl f table) (added ++ l.flatMap g) := by
  induction l generalizing table added with
  | nil => simpa using h
  | cons x l ih =>
      have hrest := ih (hf table added x h)
      rwa [List.append_assoc, ← List.flatMap_cons] at hrest

section Search

variable {Term : Type} [DecidableEq Term]

/-! ## The postings of a source -/

/-- What a memtable posting adds: nothing if it is of another tenant, has no valid CTID or no
document length. -/
def memtablePostingAdds (P : ScoreParams) (mt : Memtable Term) (idf : ℚ)
    (queryFrequency tenantId : Nat) (posting : MemPosting) : List (ItemPointer × ℚ) :=
  if OtherTenant tenantId posting ∨ posting.ctid.isValid = false ∨
      tpSourceGetDocLength mt posting.ctid ≤ 0 then []
  else
    [(posting.ctid, P.score idf posting.frequency (tpSourceGetDocLength mt posting.ctid) *
      queryFrequency)]

omit [DecidableEq Term] in
theorem scoreMemtablePosting_holds (P : ScoreParams) (mt : Memtable Term) (idf : ℚ)
    (queryFrequency tenantId : Nat) (table : ScoreTable) (added : List (ItemPointer × ℚ))
    (posting : MemPosting) (h : Holds table added) :
    Holds (scoreMemtablePosting P mt idf queryFrequency tenantId table posting)
      (added ++ memtablePostingAdds P mt idf queryFrequency tenantId posting) := by
  unfold scoreMemtablePosting memtablePostingAdds
  by_cases htenant : OtherTenant tenantId posting
  · simpa [htenant] using h
  by_cases hvalid : posting.ctid.isValid = false
  · simpa [htenant, hvalid] using h
  by_cases hlen : tpSourceGetDocLength mt posting.ctid ≤ 0
  · simpa [htenant, hvalid, hlen] using h
  · simp only [htenant, hvalid, hlen, if_false, Bool.not_eq_true']
    exact h.add _ _ _

/-- What a segment posting adds. -/
def segmentPostingAdds (P : ScoreParams) (reader : SegmentReader Term) (idf : ℚ)
    (queryFrequency tenantId : Nat) (posting : BlockPosting) : List (ItemPointer × ℚ) :=
  if (tenantId ≠ 0 ∧ tpSegmentGetTenantId reader posting.docId ≠ tenantId) ∨
      posting.output.docLength = 0 ∨
      (tpSegmentLookupCtid reader posting.docId).isValid = false then []
  else
    [(tpSegmentLookupCtid reader posting.docId,
      P.score idf posting.frequency posting.output.docLength * queryFrequency)]

omit [DecidableEq Term] in
theorem processTenantPosting_holds (P : ScoreParams) (reader : SegmentReader Term) (idf : ℚ)
    (queryFrequency tenantId : Nat) (table : ScoreTable) (added : List (ItemPointer × ℚ))
    (posting : BlockPosting) (h : Holds table added) :
    Holds (processTenantPosting P reader idf queryFrequency tenantId table posting.output)
      (added ++ segmentPostingAdds P reader idf queryFrequency tenantId posting) := by
  unfold processTenantPosting segmentPostingAdds processPosting
  have hdoc : posting.output.docId = posting.docId := rfl
  rw [hdoc]
  by_cases htenant : tenantId ≠ 0 ∧ tpSegmentGetTenantId reader posting.docId ≠ tenantId
  · simpa [htenant] using h
  by_cases hlen : posting.output.docLength = 0
  · simpa [htenant, hlen] using h
  by_cases hvalid : (tpSegmentLookupCtid reader posting.docId).isValid = false
  · simpa [htenant, hlen, hvalid] using h
  · simp only [htenant, hvalid, hlen, if_false, Bool.not_eq_true']
    exact h.add _ _ _

omit [DecidableEq Term] in
/-- A loaded cursor feeds the postings still to come to the loop. -/
theorem scoreTermPostings_loaded (P : ScoreParams) (reader : SegmentReader Term) (idf : ℚ)
    (queryFrequency tenantId : Nat) {fuel : Nat} {iter : PostingIterator} {blk : Block}
    (hl : iter.Loaded blk) (hfuel : iter.rem.length < fuel) (table : ScoreTable) :
    scoreTermPostings P reader idf queryFrequency tenantId fuel iter table =
      iter.rem.foldl (fun table posting =>
        processTenantPosting P reader idf queryFrequency tenantId table posting.output) table := by
  induction fuel generalizing iter blk table with
  | zero => omega
  | succ fuel ih =>
      rcases hl.next_rem with ⟨hrem, hnext⟩ | ⟨p, iter', blk', hnext, hrem, hl'⟩
      · obtain ⟨iter', hiter'⟩ : ∃ iter', iter.next = (none, iter') := ⟨_, Prod.ext hnext rfl⟩
        rw [hrem, scoreTermPostings, hiter']
        rfl
      · rw [hrem, List.length_cons] at hfuel
        rw [hrem, scoreTermPostings, hnext, List.foldl_cons]
        exact ih hl' (by omega) _

omit [DecidableEq Term] in
/-- **The loop over a fresh cursor** is a loop over all postings of the entry. -/
theorem scoreTermPostings_eq (P : ScoreParams) (reader : SegmentReader Term) (idf : ℚ)
    (queryFrequency tenantId : Nat) {e : DictEntry} (hwf : e.WellFormed) {iter : PostingIterator}
    (hfresh : iter.Fresh e) (table : ScoreTable) :
    scoreTermPostings P reader idf queryFrequency tenantId (e.postings.length + 1) iter table =
      e.postings.foldl (fun table posting =>
        processTenantPosting P reader idf queryFrequency tenantId table posting.output) table := by
  rcases hfresh.next_cases hwf with ⟨hnil, hnext⟩ | ⟨iter', blk, hl, hrem, hnext⟩
  · rw [hnil, scoreTermPostings, hnext]
    rfl
  · have hloaded := scoreTermPostings_loaded P reader idf queryFrequency tenantId hl
      (by rw [hrem]; exact Nat.lt_succ_self _) table
    rw [hrem] at hloaded
    rw [← hloaded, scoreTermPostings, hnext, scoreTermPostings]

/-! ## The terms of a source -/

/-- What the memtable adds: the document frequency of a term is the length of its list. -/
def memtableAdds (log : LogFunction) (P : ScoreParams) (totalDocs : Nat) (mt : Memtable Term)
    (tenantId : Nat) (query : List (Term × Nat)) : List (ItemPointer × ℚ) :=
  query.flatMap fun q => (mt.postings q.1).flatMap (memtablePostingAdds P mt
    (tpCalculateIdf log (mt.postings q.1).length totalDocs) q.2 tenantId)

theorem scoreMemtableTerms_spec (log : LogFunction) (P : ScoreParams) (totalDocs : Nat)
    (mt : Memtable Term) (tenantId : Nat) (query : List (Term × Nat)) {table : ScoreTable}
    {added : List (ItemPointer × ℚ)} (h : Holds table added) :
    (scoreMemtableTerms log P totalDocs mt tenantId query table).1 =
        query.map (fun q => (mt.postings q.1).length) ∧
      Holds (scoreMemtableTerms log P totalDocs mt tenantId query table).2
        (added ++ memtableAdds log P totalDocs mt tenantId query) := by
  induction query generalizing table added with
  | nil => exact ⟨rfl, by simpa [memtableAdds, scoreMemtableTerms] using h⟩
  | cons q query ih =>
      rw [memtableAdds, List.flatMap_cons, ← memtableAdds, ← List.append_assoc, List.map_cons,
        scoreMemtableTerms]
      by_cases hnil : (mt.postings q.1).length = 0
      · have hempty := List.eq_nil_of_length_eq_zero hnil
        obtain ⟨hfreqs, hholds⟩ := ih h
        simp only [hempty, List.length_nil, if_true, List.flatMap_nil, List.append_nil]
        exact ⟨by rw [hfreqs], hholds⟩
      · have hterm := Holds.foldl (l := mt.postings q.1) (scoreMemtablePosting_holds P mt
          (tpCalculateIdf log (mt.postings q.1).length totalDocs) q.2 tenantId) h
        obtain ⟨hfreqs, hholds⟩ := ih hterm
        simp only [if_neg hnil]
        exact ⟨by rw [hfreqs], hholds⟩

/-- What a segment adds when the terms have reached the document frequencies given. -/
def segmentAdds (log : LogFunction) (P : ScoreParams) (totalDocs : Nat)
    (reader : SegmentReader Term) (tenantId : Nat) (docFreq : Term → Nat)
    (query : List (Term × Nat)) : List (ItemPointer × ℚ) :=
  query.flatMap fun q => (((reader.findTerm q.1).map DictEntry.postings).getD []).flatMap
    (segmentPostingAdds P reader (tpCalculateIdf log (docFreq q.1) totalDocs) q.2 tenantId)

theorem segmentAdds_cons (log : LogFunction) (P : ScoreParams) (totalDocs : Nat)
    (reader : SegmentReader Term) (tenantId : Nat) (docFreq : Term → Nat) (q : Term × Nat)
    (query : List (Term × Nat)) :
    segmentAdds log P totalDocs reader tenantId docFreq (q :: query) =
      (((reader.findTerm q.1).map DictEntry.postings).getD []).flatMap
        (segmentPostingAdds P reader (tpCalculateIdf log (docFreq q.1) totalDocs) q.2 tenantId) ++
      segmentAdds log P totalDocs reader tenantId docFreq query :=
  List.flatMap_cons

theorem scoreSegmentForAllTerms_spec (log : LogFunction) (P : ScoreParams) (totalDocs : Nat)
    {reader : SegmentReader Term} (tenantId : Nat) (docFreq : Term → Nat)
    {query : List (Term × Nat)}
    (hwf : ∀ q ∈ query, ∀ e, reader.findTerm q.1 = some e → e.WellFormed) {table : ScoreTable}
    {added : List (ItemPointer × ℚ)} (h : Holds table added) :
    (scoreSegmentForAllTerms log P totalDocs reader tenantId query
        (query.map fun q => docFreq q.1) table).1 =
        query.map (fun q => docFreq q.1 + segmentDocFreq reader q.1) ∧
      Holds (scoreSegmentForAllTerms log P totalDocs reader tenantId query
          (query.map fun q => docFreq q.1) table).2
        (added ++ segmentAdds log P totalDocs reader tenantId
          (fun term => docFreq term + segmentDocFreq reader term) query) := by
  induction query generalizing table added with
  | nil => exact ⟨rfl, by simpa [segmentAdds, scoreSegmentForAllTerms] using h⟩
  | cons q query ih =>
      have hrest : ∀ q' ∈ query, ∀ e, reader.findTerm q'.1 = some e → e.WellFormed :=
        fun q' hq' => hwf q' (List.mem_cons_of_mem q hq')
      rw [segmentAdds_cons, ← List.append_assoc, List.map_cons, List.map_cons,
        scoreSegmentForAllTerms]
      cases hinit : tpSegmentPostingIteratorInit reader q.1 with
      | none =>
          have hfind : reader.findTerm q.1 = none := by
            unfold tpSegmentPostingIteratorInit at hinit
            cases hfind : reader.findTerm q.1 with
            | none => rfl
            | some e => simp [hfind] at hinit
          obtain ⟨hfreqs, hholds⟩ := ih hrest h
          simp only [hfind, segmentDocFreq, Option.map_none, Option.getD_none, Nat.add_zero,
            List.flatMap_nil, List.append_nil] at hfreqs hholds ⊢
          exact ⟨by rw [hfreqs], hholds⟩
      | some iter =>
          obtain ⟨e, hfind, hfresh⟩ := PostingIterator.fresh_init hinit
          have hdf : segmentDocFreq reader q.1 = e.docFreq := by
            rw [segmentDocFreq, hfind]
            rfl
          have hterm := Holds.foldl (l := e.postings) (processTenantPosting_holds P reader
            (tpCalculateIdf log (docFreq q.1 + segmentDocFreq reader q.1) totalDocs) q.2 tenantId) h
          rw [← scoreTermPostings_eq P reader _ q.2 tenantId
            (hwf q List.mem_cons_self e hfind) hfresh] at hterm
          obtain ⟨hfreqs, hholds⟩ := ih hrest hterm
          rw [hdf] at hfreqs hholds ⊢
          simp only [hfind, hfresh.dictEntry, Option.map_some, Option.getD_some]
          exact ⟨by rw [hfreqs], hholds⟩

/-! ## All sources -/

/-- What the segments add, one after the other: each weighs its postings with what the
document frequencies have grown to. -/
def segmentsAdd (log : LogFunction) (P : ScoreParams) (totalDocs tenantId : Nat)
    (query : List (Term × Nat)) :
    List (SegmentReader Term) → (Term → Nat) → List (ItemPointer × ℚ)
  | [], _ => []
  | reader :: rest, docFreq =>
      let docFreq := fun term => docFreq term + segmentDocFreq reader term
      segmentAdds log P totalDocs reader tenantId docFreq query ++
        segmentsAdd log P totalDocs tenantId query rest docFreq

/-- Everything an exhaustive search adds to its table. -/
def exhaustiveAdds (log : LogFunction) (P : ScoreParams) (totalDocs : Nat) (view : IndexView Term)
    (query : List (Term × Nat)) (tenantId : Nat) : List (ItemPointer × ℚ) :=
  memtableAdds log P totalDocs view.memtable tenantId query ++
    segmentsAdd log P totalDocs tenantId query view.segments
      fun term => (view.memtable.postings term).length

theorem tpScoreAllTermsInSegmentChain_spec (log : LogFunction) (P : ScoreParams) (totalDocs : Nat)
    {query : List (Term × Nat)} (tenantId : Nat) (segments : List (SegmentReader Term))
    (hwf : ∀ r ∈ segments, ∀ q ∈ query, ∀ e, r.findTerm q.1 = some e → e.WellFormed)
    (docFreq : Term → Nat) {table : ScoreTable} {added : List (ItemPointer × ℚ)}
    (h : Holds table added) :
    Holds (tpScoreAllTermsInSegmentChain log P totalDocs query tenantId
        (query.map (fun q => docFreq q.1), table) segments).2
      (added ++ segmentsAdd log P totalDocs tenantId query segments docFreq) := by
  induction segments generalizing docFreq table added with
  | nil => simpa [tpScoreAllTermsInSegmentChain, segmentsAdd] using h
  | cons reader rest ih =>
      obtain ⟨hfreqs, hholds⟩ := scoreSegmentForAllTerms_spec log P totalDocs tenantId docFreq
        (hwf reader List.mem_cons_self) h
      have hstep : tpScoreAllTermsInSegmentChain log P totalDocs query tenantId
          (query.map (fun q => docFreq q.1), table) (reader :: rest) =
          tpScoreAllTermsInSegmentChain log P totalDocs query tenantId
            (query.map (fun q => docFreq q.1 + segmentDocFreq reader q.1),
              (scoreSegmentForAllTerms log P totalDocs reader tenantId query
                (query.map fun q => docFreq q.1) table).2) rest := by
        rw [← hfreqs]
        rfl
      have hrest := ih (fun r hr => hwf r (List.mem_cons_of_mem _ hr))
        (fun term => docFreq term + segmentDocFreq reader term) hholds
      rw [hstep, segmentsAdd, ← List.append_assoc]
      exact hrest

/-- The levels are scored like one chain. -/
theorem exhaustiveTable_eq (log : LogFunction) (P : ScoreParams) (totalDocs : Nat)
    (view : IndexView Term) (query : List (Term × Nat)) (tenantId : Nat) :
    exhaustiveTable log P totalDocs view query tenantId =
      (tpScoreAllTermsInSegmentChain log P totalDocs query tenantId
        (scoreMemtableTerms log P totalDocs view.memtable tenantId query ∅) view.segments).2 := by
  rw [exhaustiveTable, tpScoreAllTermsInSegmentChain, IndexView.segments, List.foldl_flatten]
  rfl

/-- **The table** holds the sum of what all sources add. -/
theorem exhaustiveTable_holds (log : LogFunction) (P : ScoreParams) (totalDocs : Nat)
    (view : IndexView Term) {query : List (Term × Nat)} (tenantId : Nat)
    (hwf : ∀ r ∈ view.segments, ∀ q ∈ query, ∀ e, r.findTerm q.1 = some e → e.WellFormed) :
    Holds (exhaustiveTable log P totalDocs view query tenantId)
      (exhaustiveAdds log P totalDocs view query tenantId) := by
  obtain ⟨hfreqs, hholds⟩ :=
    scoreMemtableTerms_spec log P totalDocs view.memtable tenantId query holds_empty
  have hall := tpScoreAllTermsInSegmentChain_spec log P totalDocs tenantId view.segments hwf
    (fun term => (view.memtable.postings term).length) hholds
  rw [List.nil_append, ← hfreqs] at hall
  rw [exhaustiveTable_eq]
  exact hall

/-! ## Extraction -/

omit [DecidableEq Term] in
/-- The entries of the table are the documents with their sums. -/
theorem Holds.entries_perm {table : ScoreTable} {added : List (ItemPointer × ℚ)}
    (h : Holds table added) :
    (table.entries.map fun e => (e.2.ctid, e.2.score)).Perm (summedScores added) := by
  have hkeyed : (table.entries.map fun e => (e.2.ctid, e.2.score)).map Prod.fst =
      table.entries.map Sigma.fst := by
    rw [List.map_map]
    apply List.map_congr_left
    intro e he
    exact h.keyed e.1 e.2 (AList.mem_lookup_iff.2 he)
  have hnodup : (table.entries.map fun e => (e.2.ctid, e.2.score)).Nodup := by
    apply List.Nodup.of_map Prod.fst
    rw [hkeyed]
    exact table.nodupKeys
  rw [List.perm_ext_iff_of_nodup hnodup (List.Nodup.of_map _ (summedScores_nodup added))]
  intro ⟨ctid, score⟩
  rw [← h.score_iff, Option.map_eq_some_iff, List.mem_map]
  constructor
  · rintro ⟨e, he, heq⟩
    have hlookup := AList.mem_lookup_iff.2 he
    have hctid := h.keyed e.1 e.2 hlookup
    have hsame : e.1 = ctid := hctid.symm.trans (congrArg Prod.fst heq)
    exact ⟨e.2, hsame ▸ hlookup, congrArg Prod.snd heq⟩
  · rintro ⟨entry, hlookup, rfl⟩
    exact ⟨⟨ctid, entry⟩, AList.mem_lookup_iff.1 hlookup, by rw [h.keyed ctid entry hlookup]⟩

/-- A list sorted up to `k` starts with the first `k` of the ranking. -/
theorem take_ranking {k : Nat} {docs : List DocumentScoreEntry}
    (htop : PartialSort.TopSorted rankOf k docs) :
    (docs.take k).map (fun doc => (doc.ctid, doc.score)) =
      (ranking (docs.map fun doc => (doc.ctid, doc.score))).take k := by
  obtain ⟨full, hperm, hsorted, htake⟩ := htop.take_eq
  rw [htake, List.map_take]
  congr 1
  apply eq_ranking (hperm.map _)
  rw [List.pairwise_map]
  refine hsorted.imp ?_
  intro a b hab
  rw [rankOf, rankOf, Prod.Lex.toLex_le_toLex, OrderDual.toDual_lt_toDual,
    OrderDual.toDual_inj] at hab
  exact hab

/-- **The sort of a call** that asks for documents there are, in terms of the ranking. -/
theorem sortTopKDocs_ranking {docs : List DocumentScoreEntry} {k : Nat} (hk : k ≤ docs.length) :
    ∃ result, sortTopKDocs docs.length docs k = some result ∧
      (result.take k).map (fun doc => (doc.ctid, doc.score)) =
        (ranking (docs.map fun doc => (doc.ctid, doc.score))).take k := by
  by_cases hstop : docs.length ≤ 1 ∨ (k : Int) ≤ 0
  · refine ⟨docs, by rw [sortTopKDocs, if_pos hstop], take_ranking ?_⟩
    cases hstop with
    | inl hshort => exact PartialSort.TopSorted.of_length_le_one hshort k
    | inr hzero =>
        have hk0 : k = 0 := by omega
        rw [hk0]
        trivial
  · have hcount : (if (k : Int) ≥ docs.length then docs.length else (k : Int).toNat) = k := by
      split <;> omega
    obtain ⟨result, hrun, hperm, htop⟩ := PartialSort.partialQuicksort_spec docScoreGreater_iff
      [] [] 16 k (by omega) docs.length docs le_rfl
      (show docs.length - 1 + 1 = [].length + docs.length by rw [List.length_nil]; omega)
    simp only [List.nil_append, List.append_nil, List.length_nil, Nat.sub_zero] at hrun htop
    refine ⟨result, by rw [sortTopKDocs, if_neg hstop, hcount]; exact hrun, ?_⟩
    rw [take_ranking htop]
    congr 1
    obtain ⟨hsorted, hall⟩ := ranking_spec (result.map fun doc => (doc.ctid, doc.score))
    exact eq_ranking (hall.trans (hperm.map _)) hsorted

omit [DecidableEq Term] in
/-- **Extraction** returns the first documents of the ranking of the table. -/
theorem tpExtractAndSortDocuments_eq (hs : HashSeq) {table : ScoreTable}
    {added : List (ItemPointer × ℚ)} (h : Holds table added) (maxResults : Nat) :
    (tpExtractAndSortDocuments hs table maxResults).map
        (fun docs => docs.map fun doc => (doc.ctid, doc.score)) =
      some ((ranking (summedScores added)).take maxResults) := by
  obtain ⟨docs, hdocs⟩ : ∃ docs, docs = hs.scan (table.entries.map fun e => e.2) := ⟨_, rfl⟩
  have hperm : (docs.map fun doc => (doc.ctid, doc.score)).Perm (summedScores added) := by
    have hscan := (hs.perm (table.entries.map fun e => e.2)).map
      fun doc : DocumentScoreEntry => (doc.ctid, doc.score)
    rw [List.map_map] at hscan
    rw [hdocs]
    exact hscan.trans h.entries_perm
  have hranking : ranking (docs.map fun doc => (doc.ctid, doc.score)) =
      ranking (summedScores added) := by
    obtain ⟨hsorted, hall⟩ := ranking_spec (docs.map fun doc => (doc.ctid, doc.score))
    exact eq_ranking (hall.trans hperm) hsorted
  have hlen : (ranking (summedScores added)).length = docs.length := by
    rw [← hranking, (ranking_spec _).2.length_eq, List.length_map]
  rw [tpExtractAndSortDocuments, ← hdocs]
  by_cases hempty : docs.length = 0
  · have hnil : ranking (summedScores added) = [] :=
      List.eq_nil_of_length_eq_zero (hlen.trans hempty)
    simp [hempty, hnil]
  · obtain ⟨resultCount, hcount⟩ : ∃ resultCount, resultCount =
      if docs.length < maxResults then docs.length else maxResults := ⟨_, rfl⟩
    have hle : resultCount ≤ docs.length := by
      rw [hcount]
      split <;> omega
    obtain ⟨result, hrun, htake⟩ := sortTopKDocs_ranking hle
    have hfirst : (ranking (summedScores added)).take resultCount =
        (ranking (summedScores added)).take maxResults := by
      rw [hcount]
      split
      · rw [List.take_of_length_le (by omega), List.take_of_length_le (by omega)]
      · rfl
    simp only [hempty, if_false, ← hcount, hrun, Option.map_some, htake, hranking, hfirst]

/-- **The exhaustive search**, for any tenant and any limit: it returns the first documents of
the ranking of all documents by their sums, whatever order the table is scanned in. -/
theorem exhaustiveSearch_eq (hs : HashSeq) (log : LogFunction) (P : ScoreParams) (totalDocs : Nat)
    (view : IndexView Term) (query : List (Term × Nat)) (maxResults tenantId : Nat)
    (hwf : ∀ r ∈ view.segments, ∀ q ∈ query, ∀ e, r.findTerm q.1 = some e → e.WellFormed) :
    exhaustiveSearch hs log P totalDocs view query maxResults tenantId =
      some ((ranking (summedScores (exhaustiveAdds log P totalDocs view query tenantId))).take
        maxResults) :=
  tpExtractAndSortDocuments_eq hs (exhaustiveTable_holds log P totalDocs view tenantId hwf)
    maxResults

end Search

theorem exhaustiveSearch_eq_twoSources :
    exhaustiveSearch insertionHashSeq linearLog twoSourceParams 2 twoSourceView
        [(catTerm, 1), (dogTerm, 2)] 1 0 =
      some ((ranking (summedScores (exhaustiveAdds linearLog twoSourceParams 2 twoSourceView
        [(catTerm, 1), (dogTerm, 2)] 0))).take 1) :=
  exhaustiveSearch_eq insertionHashSeq linearLog twoSourceParams 2 twoSourceView
    [(catTerm, 1), (dogTerm, 2)] 1 0
    fun r hr q _ e hfind => (twoSourceView_wellFormed.usable r hr q.1 e hfind).wellFormed

end PgTextsearch.Query
