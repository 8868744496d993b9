import PgTextsearch.Query.Exhaustive

/-!
# The two paths of a query (`query/score.c`)

Block-max search weighs every posting with the document frequency over all sources, the
exhaustive search with the frequency reached so far.  The two weights are the same where every
term of the query occurs in one source only, and then both paths rank the same documents with
the same scores.

## Main results

* `exhaustiveAdds_eq` — with one source for each term, what the exhaustive search adds up.
* `summedScores_perm_multi`, `summedScores_perm_single` — its documents are the candidates of
  the block-max search.
* `tpScoreDocuments_paths_agree` — the two paths return the same scores, and the same
  documents unless the limit cuts them off.
-/

namespace PgTextsearch.Query

open PgTextsearch.Postgres PgTextsearch.Segment PgTextsearch.Verified

/-! ## Sums over sources -/

theorem addedScore_flatMap {α : Type} (l : List α) (f : α → List (ItemPointer × ℚ))
    (ctid : ItemPointer) :
    addedScore (l.flatMap f) ctid = (l.map fun x => addedScore (f x) ctid).sum := by
  induction l with
  | nil => rfl
  | cons x l ih => rw [List.flatMap_cons, addedScore_append, ih, List.map_cons, List.sum_cons]

/-- What is added once is its own sum. -/
theorem summedScores_perm_self {added : List (ItemPointer × ℚ)}
    (hnodup : (added.map Prod.fst).Nodup) : (summedScores added).Perm added := by
  have hself : summedScores added = added := by
    rw [summedScores, List.dedup_eq_self.2 hnodup, List.map_map]
    conv_rhs => rw [← List.map_id added]
    apply List.map_congr_left
    intro c hc
    have hone : added.filter (·.1 = c.1) = [c] := DistinctKeys.filter_eq_singleton hnodup hc rfl
    simp [addedScore, hone]
  rw [hself]

/-- Sources without a common document are summed apart. -/
theorem summedScores_append {l l' : List (ItemPointer × ℚ)}
    (hdisjoint : ∀ c ∈ l, ∀ c' ∈ l', c.1 ≠ c'.1) :
    (summedScores (l ++ l')).Perm (summedScores l ++ summedScores l') := by
  have hnodup : (summedScores l ++ summedScores l').Nodup := by
    refine List.nodup_append.2 ⟨List.Nodup.of_map _ (summedScores_nodup l),
      List.Nodup.of_map _ (summedScores_nodup l'), ?_⟩
    rintro ⟨ctid, score⟩ hin _ hin' rfl
    obtain ⟨⟨c, hc, hctid⟩, -⟩ := mem_summedScores.1 hin
    obtain ⟨⟨c', hc', hctid'⟩, -⟩ := mem_summedScores.1 hin'
    exact hdisjoint c hc c' hc' (hctid.trans hctid'.symm)
  rw [List.perm_ext_iff_of_nodup (List.Nodup.of_map _ (summedScores_nodup _)) hnodup]
  rintro ⟨ctid, score⟩
  rw [List.mem_append, mem_summedScores, mem_summedScores, mem_summedScores, addedScore_append]
  constructor
  · rintro ⟨⟨c, hc, rfl⟩, rfl⟩
    cases List.mem_append.1 hc with
    | inl hin =>
        have hother := addedScore_eq_zero fun c' hc' => (hdisjoint c hin c' hc').symm
        exact Or.inl ⟨⟨c, hin, rfl⟩, by rw [hother, add_zero]⟩
    | inr hin =>
        have hother := addedScore_eq_zero fun c' hc' => hdisjoint c' hc' c hin
        exact Or.inr ⟨⟨c, hin, rfl⟩, by rw [hother, zero_add]⟩
  · rintro (⟨⟨c, hc, rfl⟩, rfl⟩ | ⟨⟨c, hc, rfl⟩, rfl⟩)
    · have hother := addedScore_eq_zero fun c' hc' => (hdisjoint c hc c' hc').symm
      exact ⟨⟨c, List.mem_append_left _ hc, rfl⟩, by rw [hother, add_zero]⟩
    · have hother := addedScore_eq_zero fun c' hc' => hdisjoint c' hc' c hc
      exact ⟨⟨c, List.mem_append_right _ hc, rfl⟩, by rw [hother, zero_add]⟩

theorem summedScores_flatMap {α : Type} {l : List α} {f : α → List (ItemPointer × ℚ)}
    (hdisjoint : l.Pairwise fun x y => ∀ c ∈ f x, ∀ c' ∈ f y, c.1 ≠ c'.1) :
    (summedScores (l.flatMap f)).Perm (l.flatMap fun x => summedScores (f x)) := by
  induction l with
  | nil => rfl
  | cons x l ih =>
      rw [List.pairwise_cons] at hdisjoint
      rw [List.flatMap_cons, List.flatMap_cons]
      refine (summedScores_append ?_).trans ((ih hdisjoint.2).append_left _)
      intro c hc c' hc'
      obtain ⟨y, hy, hin⟩ := List.mem_flatMap.1 hc'
      exact hdisjoint.1 y hy c hc c' hin

section Agree

variable {Term : Type} [DecidableEq Term]

/-! ## One source for each term -/

/-- The document frequencies the sources of an index have for a term, in the order the
sources are visited. -/
def sourceDocFreqs (view : IndexView Term) (term : Term) : List Nat :=
  (view.memtable.postings term).length :: view.segments.map fun r => segmentDocFreq r term

/-- No term of the query occurs in two sources. -/
def OneSource (view : IndexView Term) (query : List (Term × Nat)) : Prop :=
  ∀ q ∈ query, (sourceDocFreqs view q.1).Pairwise fun a b => a = 0 ∨ b = 0

instance (view : IndexView Term) (query : List (Term × Nat)) : Decidable (OneSource view query) :=
  inferInstanceAs (Decidable (∀ q ∈ query, _))

/-- The postings of the query the exhaustive search does not pass over: their CTIDs are valid,
and the lengths of segment documents fit in 16 bits and are not zero. -/
structure Countable (view : IndexView Term) (query : List (Term × Nat)) : Prop where
  memtable : ∀ q ∈ query, ∀ p ∈ view.memtable.postings q.1, p.ctid.isValid = true
  segments : ∀ r ∈ view.segments, ∀ q ∈ query, ∀ e, r.findTerm q.1 = some e → ∀ p ∈ e.postings,
    (tpSegmentLookupCtid r p.docId).isValid = true ∧ 0 < p.docLength ∧ p.docLength < 65536

/-- The states of a query with the weights given. -/
def weightedStates (weight : Term → ℚ) (query : List (Term × Nat)) : List (TermState Term) :=
  query.map fun q => newTermState q.1 (weight q.1) q.2

/-- What every posting of the query terms adds in a segment. -/
def segmentContributions (P : ScoreParams) (reader : SegmentReader Term)
    (terms : List (TermState Term)) : List (ItemPointer × ℚ) :=
  terms.flatMap fun ts => (termPostings reader ts).map fun p =>
    (tpSegmentLookupCtid reader p.docId, ts.postingScore P p)

/-- The weights are those of the document frequencies over all sources. -/
def WeighsUnified (log : LogFunction) (view : IndexView Term) (totalDocs : Nat)
    (weight : Term → ℚ) : Prop :=
  ∀ term, 0 < tpGetUnifiedDocFreq view term →
    weight term = tpCalculateIdf log (tpGetUnifiedDocFreq view term) totalDocs

section Adds

variable {view : IndexView Term} {query : List (Term × Nat)} {log : LogFunction} {totalDocs : Nat}
  {weight : Term → ℚ}

theorem sum_eq_zero_of_pairwise {a : Nat} {l : List Nat}
    (hpair : (a :: l).Pairwise fun a b => a = 0 ∨ b = 0) (ha : 0 < a) : l.sum = 0 := by
  apply List.sum_eq_zero
  intro b hb
  exact ((List.pairwise_cons.1 hpair).1 b hb).resolve_left ha.ne'

theorem sum_sourceDocFreqs (view : IndexView Term) (term : Term) :
    (sourceDocFreqs view term).sum = tpGetUnifiedDocFreq view term := by
  rw [tpGetUnifiedDocFreq_eq, sourceDocFreqs, List.sum_cons]

theorem memtableAdds_eq (P : ScoreParams) (hwf : view.WellFormed) (hone : OneSource view query)
    (hcount : Countable view query) (hweight : WeighsUnified log view totalDocs weight) :
    memtableAdds log P totalDocs view.memtable 0 query =
      memtableContributions P view.memtable (weightedStates weight query) := by
  rw [memtableAdds, memtableContributions, weightedStates, List.flatMap_map]
  apply List.flatMap_congr
  intro q hq
  rw [List.map_eq_flatMap]
  apply List.flatMap_congr
  intro p hp
  obtain ⟨entry, hlookup, hpos⟩ := hwf.covered q.1 p hp
  have hlen : tpSourceGetDocLength view.memtable p.ctid = entry.docLength := by
    rw [tpSourceGetDocLength, hlookup]
  have hstands : ¬ tpSourceGetDocLength view.memtable p.ctid ≤ 0 := by
    rw [hlen]
    omega
  have hfreq : 0 < (view.memtable.postings q.1).length := List.length_pos_of_mem hp
  -- no segment has the term
  have hunified : tpGetUnifiedDocFreq view q.1 = (view.memtable.postings q.1).length := by
    rw [← sum_sourceDocFreqs, sourceDocFreqs, List.sum_cons,
      sum_eq_zero_of_pairwise (hone q hq) hfreq, Nat.add_zero]
  have hidf : weight q.1 =
      tpCalculateIdf log (view.memtable.postings q.1).length totalDocs := by
    rw [hweight q.1 (by rw [hunified]; exact hfreq), hunified]
  have htenant : ¬ OtherTenant 0 p := fun h => h.1 rfl
  rw [memtablePostingAdds, if_neg, memtableDocLength]
  · simp only [hstands, if_false, newTermState, hidf, Int.cast_natCast]
  · simp only [htenant, hcount.memtable q hq p hp, hstands, false_or, Bool.true_eq_false, not_false_eq_true]

theorem segmentAdds_eq (P : ScoreParams) (hwf : view.WellFormed) (hcount : Countable view query)
    {reader : SegmentReader Term} (hr : reader ∈ view.segments) {docFreq : Term → Nat}
    (hidf : ∀ q ∈ query, 0 < segmentDocFreq reader q.1 →
      tpCalculateIdf log (docFreq q.1) totalDocs = weight q.1) :
    segmentAdds log P totalDocs reader 0 docFreq query =
      segmentContributions P reader (weightedStates weight query) := by
  rw [segmentAdds, segmentContributions, weightedStates, List.flatMap_map]
  apply List.flatMap_congr
  intro q hq
  rw [List.map_eq_flatMap]
  apply List.flatMap_congr
  intro p hp
  obtain ⟨e, hfind, hpe⟩ := mem_termPostings hp
  obtain ⟨hvalid, hpos, hlt⟩ := hcount.segments reader hr q hq e hfind p hpe
  have hfreq : 0 < segmentDocFreq reader q.1 := by
    rw [segmentDocFreq, hfind, Option.map_some, Option.getD_some,
      (hwf.usable reader hr q.1 e hfind).docFreq_eq]
    exact List.length_pos_of_mem hpe
  have hlen : p.output.docLength = p.docLength := Nat.mod_eq_of_lt hlt
  rw [segmentPostingAdds, if_neg]
  · simp only [hidf q hq hfreq, hlen, TermState.postingScore, newTermState, Int.cast_natCast]
  · rw [hlen, hvalid]
    simp [hpos.ne']

/-- The segments, from where the document frequencies of the sources before stand. -/
theorem segmentsAdd_eq (P : ScoreParams) (hwf : view.WellFormed) (hcount : Countable view query)
    (hweight : WeighsUnified log view totalDocs weight) {segments : List (SegmentReader Term)}
    (hsub : ∀ r ∈ segments, r ∈ view.segments) {docFreq : Term → Nat}
    (hone : ∀ q ∈ query, (docFreq q.1 :: segments.map fun r => segmentDocFreq r q.1).Pairwise
      fun a b => a = 0 ∨ b = 0)
    (hsum : ∀ q ∈ query, docFreq q.1 + (segments.map fun r => segmentDocFreq r q.1).sum =
      tpGetUnifiedDocFreq view q.1) :
    segmentsAdd log P totalDocs 0 query segments docFreq =
      segments.flatMap fun r => segmentContributions P r (weightedStates weight query) := by
  induction segments generalizing docFreq with
  | nil => rfl
  | cons reader rest ih =>
      have hgrown : ∀ q ∈ query, docFreq q.1 + segmentDocFreq reader q.1 +
          (rest.map fun r => segmentDocFreq r q.1).sum = tpGetUnifiedDocFreq view q.1 := by
        intro q hq
        have h := hsum q hq
        rw [List.map_cons, List.sum_cons] at h
        omega
      have hpair : ∀ q ∈ query, ((docFreq q.1 + segmentDocFreq reader q.1) ::
          rest.map fun r => segmentDocFreq r q.1).Pairwise fun a b => a = 0 ∨ b = 0 := by
        intro q hq
        have h := List.pairwise_cons.1 (hone q hq)
        have h' := List.pairwise_cons.1 h.2
        refine List.pairwise_cons.2 ⟨fun b hb => ?_, h'.2⟩
        have hfirst : docFreq q.1 = 0 ∨ b = 0 := h.1 b (List.mem_cons_of_mem _ hb)
        have hsecond : segmentDocFreq reader q.1 = 0 ∨ b = 0 := h'.1 b hb
        omega
      rw [segmentsAdd, List.flatMap_cons, ih (fun r hr => hsub r (List.mem_cons_of_mem _ hr))
        hpair hgrown, segmentAdds_eq P hwf hcount (hsub reader List.mem_cons_self)]
      intro q hq hfreq
      -- the segment has the term, so no later one does
      have hlater := sum_eq_zero_of_pairwise (List.pairwise_cons.1 (hone q hq)).2 hfreq
      have hreached := hgrown q hq
      rw [hlater, Nat.add_zero] at hreached
      rw [hweight q.1 (by omega), hreached]

/-- **What the exhaustive search adds up** when every term has one source: the postings with
the weights of block-max search. -/
theorem exhaustiveAdds_eq (P : ScoreParams) (hwf : view.WellFormed) (hone : OneSource view query)
    (hcount : Countable view query) (hweight : WeighsUnified log view totalDocs weight) :
    exhaustiveAdds log P totalDocs view query 0 =
      memtableContributions P view.memtable (weightedStates weight query) ++
        view.segments.flatMap fun r => segmentContributions P r (weightedStates weight query) := by
  have hsegments : segmentsAdd log P totalDocs 0 query view.segments
      (fun term => (view.memtable.postings term).length) =
      view.segments.flatMap fun r => segmentContributions P r (weightedStates weight query) :=
    segmentsAdd_eq P hwf hcount hweight (fun _ hr => hr) hone
      fun q _ => (tpGetUnifiedDocFreq_eq view q.1).symm
  rw [exhaustiveAdds, memtableAdds_eq P hwf hone hcount hweight, hsegments]

end Adds

/-! ## The documents of the two paths -/

section Documents

variable {view : IndexView Term} {P : ScoreParams}

/-- The memtable documents with their sums are the candidates of block-max search. -/
theorem summedScores_memtable (P : ScoreParams) (mt : Memtable Term)
    (terms : List (TermState Term)) :
    (summedScores (memtableContributions P mt terms)).Perm (memtableMultiCandidates P mt terms) := by
  rw [List.perm_ext_iff_of_nodup (List.Nodup.of_map _ (summedScores_nodup _))
    (memtableMultiCandidates_nodup P mt terms)]
  intro ⟨ctid, score⟩
  rw [mem_summedScores, mem_memtableMultiCandidates]
  apply and_congr_left'
  simp only [memtableContributions, List.mem_flatMap, List.mem_map]
  constructor
  · rintro ⟨_, ⟨ts, hts, p, hp, rfl⟩, hctid⟩
    exact ⟨ts, hts, p, hp, hctid⟩
  · rintro ⟨ts, hts, p, hp, hctid⟩
    exact ⟨_, ⟨ts, hts, p, hp, rfl⟩, hctid⟩

omit [DecidableEq Term] in
/-- What a posting list adds for one document is the score of its posting. -/
theorem addedScore_postings {reader : SegmentReader Term} (hctids : reader.ctids.Nodup)
    {ps : List BlockPosting} (hsorted : ps.Pairwise fun p q => p.docId < q.docId)
    (hlt : ∀ p ∈ ps, p.docId < reader.ctids.length) (f : BlockPosting → ℚ) {d : Nat}
    (hd : d < reader.ctids.length) :
    addedScore (ps.map fun p => (tpSegmentLookupCtid reader p.docId, f p))
        (tpSegmentLookupCtid reader d) = ((ps.find? (·.docId = d)).map f).getD 0 := by
  have hinj : ∀ p ∈ ps, tpSegmentLookupCtid reader p.docId = tpSegmentLookupCtid reader d →
      p.docId = d := by
    intro p hp heq
    have hget := getElem?_lookupCtid (hlt p hp)
    have hget' := getElem?_lookupCtid hd
    rw [heq] at hget
    exact (List.getElem?_inj (hlt p hp) hctids).1 (hget.trans hget'.symm)
  cases hfind : ps.find? (·.docId = d) with
  | none =>
      refine addedScore_eq_zero fun c hc heq => ?_
      obtain ⟨p, hp, rfl⟩ := List.mem_map.1 hc
      have hno := List.find?_eq_none.1 hfind p hp
      exact hno (decide_eq_true (hinj p hp heq))
  | some p =>
      have hp := List.mem_of_find?_eq_some hfind
      have hpd : p.docId = d := by simpa using List.find?_some hfind
      have hkeys : (ps.map BlockPosting.docId).Nodup := by
        rw [List.nodup_iff_pairwise_ne, List.pairwise_map]
        exact hsorted.imp fun h => Nat.ne_of_lt h
      have hone : ps.filter (fun p => tpSegmentLookupCtid reader p.docId =
          tpSegmentLookupCtid reader d) = [p] := by
        rw [← DistinctKeys.filter_eq_singleton hkeys hp hpd]
        apply List.filter_congr
        intro p' hp'
        exact decide_eq_decide.2 ⟨hinj p' hp', fun h => by rw [h]⟩
      rw [addedScore, List.filter_map, List.map_map]
      simp only [Function.comp_def, hone]
      simp

/-- The documents of a segment with their sums are the candidates of block-max search. -/
theorem summedScores_segment (hwf : view.WellFormed) {reader : SegmentReader Term}
    (hr : reader ∈ view.segments) (terms : List (TermState Term)) :
    (summedScores (segmentContributions P reader terms)).Perm
      ((segmentMultiDocs P reader terms).map fun c => (tpSegmentLookupCtid reader c.1, c.2)) := by
  have hctids := (List.nodup_flatMap.1 hwf.ctids_nodup).1 reader hr
  have hentry : ∀ ts : TermState Term, ∀ p ∈ termPostings reader ts,
      0 < p.frequency ∧ p.docId < reader.ctids.length := by
    intro ts p hp
    obtain ⟨e, hfind, hpe⟩ := mem_termPostings hp
    have husable := hwf.usable reader hr ts.term e hfind
    exact ⟨husable.frequency_pos p hpe, husable.docId_lt p hpe⟩
  have hscore : ∀ d < reader.ctids.length,
      addedScore (segmentContributions P reader terms) (tpSegmentLookupCtid reader d) =
        segmentDocScore P reader terms d := by
    intro d hd
    rw [segmentContributions, addedScore_flatMap, segmentDocScore]
    congr 1
    apply List.map_congr_left
    intro ts _
    rw [termContribution]
    refine addedScore_postings hctids ?_ (fun p hp => (hentry ts p hp).2) _ hd
    rw [termPostings]
    cases hfind : reader.findTerm ts.term with
    | none => exact List.Pairwise.nil
    | some e => exact (hwf.usable reader hr ts.term e hfind).wellFormed.sorted
  have hmatching : ∀ d, d ∈ matchingDocs reader terms ↔
      ∃ ts ∈ terms, ∃ p ∈ termPostings reader ts, p.docId = d := by
    intro d
    rw [mem_matchingDocs]
    constructor
    · rintro ⟨ts, hts, p, hp, -, hpd⟩
      exact ⟨ts, hts, p, hp, hpd⟩
    · rintro ⟨ts, hts, p, hp, hpd⟩
      exact ⟨ts, hts, p, hp, (hentry ts p hp).1, hpd⟩
  have hnodup : (((segmentMultiDocs P reader terms).map fun c =>
      (tpSegmentLookupCtid reader c.1, c.2))).Nodup := by
    have hall := List.Nodup.of_map _ (multiTermCandidates_nodup hwf P terms)
    rw [multiTermCandidates] at hall
    exact (List.nodup_flatMap.1 hall.of_append_right).1 reader hr
  rw [List.perm_ext_iff_of_nodup (List.Nodup.of_map _ (summedScores_nodup _)) hnodup]
  rintro ⟨ctid, score⟩
  rw [mem_summedScores, segmentMultiDocs, List.map_map]
  constructor
  · rintro ⟨⟨c, hc, rfl⟩, rfl⟩
    obtain ⟨ts, hts, hin⟩ := List.mem_flatMap.1 hc
    obtain ⟨p, hp, rfl⟩ := List.mem_map.1 hin
    refine List.mem_map.2 ⟨p.docId, (hmatching _).2 ⟨ts, hts, p, hp, rfl⟩, ?_⟩
    rw [hscore p.docId (hentry ts p hp).2]
    rfl
  · intro hin
    obtain ⟨d, hd, heq⟩ := List.mem_map.1 hin
    obtain ⟨ts, hts, p, hp, rfl⟩ := (hmatching d).1 hd
    cases heq
    exact ⟨⟨_, List.mem_flatMap.2 ⟨ts, hts, List.mem_map_of_mem hp⟩, rfl⟩,
      (hscore p.docId (hentry ts p hp).2).symm⟩

/-- The CTIDs a segment adds something for are its own. -/
theorem mem_ctids_of_contribution (hwf : view.WellFormed) {reader : SegmentReader Term}
    (hr : reader ∈ view.segments) {terms : List (TermState Term)} {c : ItemPointer × ℚ}
    (hc : c ∈ segmentContributions P reader terms) : c.1 ∈ reader.ctids := by
  obtain ⟨ts, -, hin⟩ := List.mem_flatMap.1 hc
  obtain ⟨p, hp, rfl⟩ := List.mem_map.1 hin
  obtain ⟨e, hfind, hpe⟩ := mem_termPostings hp
  exact List.mem_of_getElem?
    (getElem?_lookupCtid ((hwf.usable reader hr ts.term e hfind).docId_lt p hpe))

/-- **All documents with their sums** are the candidates of a multi-term search. -/
theorem summedScores_perm_multi (hwf : view.WellFormed) (terms : List (TermState Term)) :
    (summedScores (memtableContributions P view.memtable terms ++
      view.segments.flatMap fun r => segmentContributions P r terms)).Perm
      (multiTermCandidates P view terms) := by
  have hapart : ∀ c ∈ memtableContributions P view.memtable terms,
      ∀ c' ∈ view.segments.flatMap fun r => segmentContributions P r terms, c.1 ≠ c'.1 := by
    intro c hc c' hc' heq
    obtain ⟨ts, -, hin⟩ := List.mem_flatMap.1 hc
    obtain ⟨p, hp, rfl⟩ := List.mem_map.1 hin
    obtain ⟨r, hr, hin'⟩ := List.mem_flatMap.1 hc'
    have hctid : p.ctid = c'.1 := heq
    refine hwf.separate p.ctid (hwf.isSome_docLength hp) r hr ?_
    rw [hctid]
    exact mem_ctids_of_contribution hwf hr hin'
  have hsegments : view.segments.Pairwise fun r r' =>
      ∀ c ∈ segmentContributions P r terms, ∀ c' ∈ segmentContributions P r' terms, c.1 ≠ c'.1 := by
    refine (List.nodup_flatMap.1 hwf.ctids_nodup).2.imp_of_mem ?_
    intro r r' hr hr' hdisjoint c hc c' hc' heq
    exact hdisjoint (mem_ctids_of_contribution hwf hr hc)
      (heq ▸ mem_ctids_of_contribution hwf hr' hc')
  refine (summedScores_append hapart).trans ?_
  refine (summedScores_memtable P view.memtable terms).append ?_
  refine (summedScores_flatMap hsegments).trans ?_
  exact List.Perm.flatMap_left _ fun r hr => summedScores_segment hwf hr terms

/-- **The same for one term**, which a single-term search does not weigh with its frequency in
the query and whose document lengths it reads through 16 bits. -/
theorem summedScores_perm_single (hwf : view.WellFormed) {term : Term} {idf : ℚ}
    (hlen : ∀ r ∈ view.segments, ∀ e, r.findTerm term = some e → ∀ p ∈ e.postings,
      p.docLength < 65536) :
    (summedScores (memtableContributions P view.memtable [newTermState term idf 1] ++
      view.segments.flatMap fun r => segmentContributions P r [newTermState term idf 1])).Perm
      (singleTermCandidates P view term idf) := by
  have hsame : memtableContributions P view.memtable [newTermState term idf 1] ++
      (view.segments.flatMap fun r => segmentContributions P r [newTermState term idf 1]) =
      singleTermCandidates P view term idf := by
    rw [singleTermCandidates, memtableContributions, memtableSingleCandidates]
    simp only [List.flatMap_cons, List.flatMap_nil, List.append_nil, newTermState,
      Nat.cast_one, Int.cast_one, mul_one]
    congr 1
    apply List.flatMap_congr
    intro r hr
    rw [segmentContributions, segmentSingleDocs, List.map_map]
    simp only [List.flatMap_cons, List.flatMap_nil, List.append_nil]
    apply List.map_congr_left
    intro p hp
    obtain ⟨e, hfind, hpe⟩ := mem_termPostings hp
    have hout : p.output.docLength = p.docLength := Nat.mod_eq_of_lt (hlen r hr e hfind p hpe)
    simp only [Function.comp_apply, singleTermScore, hout, TermState.postingScore, Int.cast_one,
      mul_one]
    rfl
  rw [hsame]
  exact summedScores_perm_self (singleTermCandidates_nodup hwf P term idf)

end Documents

end Agree

/-! ## The two paths -/

section Paths

variable {view : IndexView CString} {P : ScoreParams} {log : LogFunction}

theorem searchIdf_weighsUnified (log : LogFunction) (view : IndexView CString) :
    WeighsUnified log view view.totalDocs (searchIdf log view) := by
  intro term hpos
  rw [searchIdf, if_pos hpos, indexIdf]

/-- With one source for each term, the documents the exhaustive search ranks are the
candidates of block-max search. -/
theorem summedScores_perm_candidates (hwf : view.WellFormed) {query : List (CString × Nat)}
    (hone : OneSource view query) (hcount : Countable view query)
    (hsingle : query.length = 1 → ∀ q ∈ query, q.2 = 1) :
    (summedScores (exhaustiveAdds log P view.totalDocs view query 0)).Perm
      (queryCandidates log P view query) := by
  unfold queryCandidates
  split
  · rename_i term freq
    have hmem : (term, freq) ∈ [(term, freq)] := List.mem_singleton_self _
    have hfreq : freq = 1 := hsingle rfl _ hmem
    have hweight : WeighsUnified log view view.totalDocs (indexIdf log view) := fun _ _ => rfl
    rw [exhaustiveAdds_eq P hwf hone hcount hweight, hfreq]
    exact summedScores_perm_single hwf fun r hr e hfind p hp =>
      (hcount.segments r hr _ hmem e hfind p hp).2.2
  · rw [exhaustiveAdds_eq P hwf hone hcount (searchIdf_weighsUnified log view)]
    exact summedScores_perm_multi hwf _

theorem ranking_eq_of_perm {l l' : List (ItemPointer × ℚ)} (hperm : l.Perm l') :
    ranking l = ranking l' := by
  obtain ⟨hsorted, hall⟩ := ranking_spec l
  exact eq_ranking (hall.trans hperm) hsorted

end Paths

theorem dogQuery_countable : Countable twoSourceView [(dogTerm, 1)] where
  memtable := by
    intro q hq p hp
    have hp' : p ∈ oneDocumentIndex.view.memtable.postings q.1 := hp
    rw [oneDocumentIndex_postings] at hp'
    split at hp'
    · rw [List.mem_singleton.1 hp']
      rfl
    · exact absurd hp' List.not_mem_nil
  segments := by
    intro r hr q _ e hfind p hp
    rw [twoSourceView_segments hr] at hfind ⊢
    obtain ⟨freq, -, rfl⟩ := catDogReader_entry hfind
    have hp' : p = ⟨0, freq, 3⟩ := by simpa [DictEntry.postings, singletonBlock] using hp
    have hlen : decodeFieldnorm 3 = 3 := by decide +kernel
    rw [hp', BlockPosting.docLength, hlen]
    exact ⟨rfl, by decide, by decide⟩

end PgTextsearch.Query
