import PgTextsearch.Query.Operator

/-!
# The operator against the scan

For every document of the index, in the memtable or in a segment, the score the Block-Max
WAND search returns is one formula of the document's vector and length, and so is the value
of the operator.  They differ in the length: the operator uses the quantised one, the
memtable the exact one, and a single-term search of a segment passes the quantised one
through 16 bits; and a single-term search leaves out the frequency of the term in the query.

## Main results

* `memtable_single_score`, `memtable_multi_score`, `segment_single_score`,
  `segment_multi_score` — what the scan returns for a document.
* `agreesOn_memtable_iff`, `agreesOn_segment_iff` — when the two agree on a document.
* `operator_agrees_iff` — when they agree on every document.
-/

namespace PgTextsearch.Query

open PgTextsearch.Postgres PgTextsearch.Segment PgTextsearch.Verified

/-! ## Documents of the index -/

/-- The memtable holds the document: a posting for each of its terms and its length. -/
structure MemtableDocument (view : IndexView CString) (ctid : ItemPointer)
    (tv : TermVector CString) : Prop where
  frequency : ∀ term, (((view.memtable.postings term).find? (·.ctid = ctid)).map
    (·.frequency)).getD 0 = findTermFrequency tv term
  length : (view.memtable.docLengths.lookup ctid).map (·.docLength) = some tv.docLength

/-- The segment holds the document: a posting for each of its terms, with the fieldnorm
of its length. -/
structure SegmentDocument (view : IndexView CString) (reader : SegmentReader CString)
    (docId : Nat) (ctid : ItemPointer) (tv : TermVector CString) : Prop where
  mem : reader ∈ view.segments
  ctid_eq : reader.ctids[docId]? = some ctid
  frequency : ∀ term, (((((reader.findTerm term).map DictEntry.postings).getD []).find?
    (·.docId = docId)).map (·.frequency)).getD 0 = findTermFrequency tv term
  fieldnorm : ∀ term, ∀ p ∈ ((reader.findTerm term).map DictEntry.postings).getD [],
    p.docId = docId → p.fieldnorm = encodeFieldnorm tv.docLength

/-- The length segments and the operator score a document with. -/
def quantisedLength (tv : TermVector CString) : Nat :=
  decodeFieldnorm (encodeFieldnorm tv.docLength)

section Documents

variable {view : IndexView CString} {ctid : ItemPointer} {tv : TermVector CString}

/-- The posting of a document in a list without repetitions. -/
theorem MemtableDocument.frequency_of_mem (hd : MemtableDocument view ctid tv)
    (hwf : view.WellFormed) {term : CString} {p : MemPosting}
    (hp : p ∈ view.memtable.postings term) (hc : p.ctid = ctid) :
    p.frequency = findTermFrequency tv term := by
  rw [← hd.frequency term]
  have hfind : (view.memtable.postings term).find? (·.ctid = ctid) = some p :=
    DistinctKeys.find?_eq_some (hwf.postings_nodup term) hp hc
  rw [hfind]
  rfl

theorem MemtableDocument.exists_posting (hd : MemtableDocument view ctid tv) {term : CString}
    (htf : 0 < findTermFrequency tv term) :
    ∃ p ∈ view.memtable.postings term, p.ctid = ctid := by
  rw [← hd.frequency term] at htf
  cases hfind : (view.memtable.postings term).find? (·.ctid = ctid) with
  | none =>
      rw [hfind] at htf
      exact absurd htf (lt_irrefl 0)
  | some p => exact ⟨p, List.mem_of_find?_eq_some hfind, by simpa using List.find?_some hfind⟩

/-- No segment has a document of the memtable. -/
theorem MemtableDocument.not_mem_segment (hd : MemtableDocument view ctid tv)
    (hwf : view.WellFormed) {r : SegmentReader CString} (hr : r ∈ view.segments) :
    ctid ∉ r.ctids := by
  apply hwf.separate ctid _ r hr
  have hlen := hd.length
  cases h : view.memtable.docLengths.lookup ctid with
  | none =>
      rw [h] at hlen
      cases hlen
  | some entry => rfl

theorem MemtableDocument.docLength_eq (hd : MemtableDocument view ctid tv)
    (hwf : view.WellFormed) {term : CString} {p : MemPosting}
    (hp : p ∈ view.memtable.postings term) (hc : p.ctid = ctid) :
    memtableDocLength view.memtable ctid = tv.docLength := by
  obtain ⟨entry, hlookup, hpos⟩ := hwf.covered term p hp
  have hlen := hd.length
  rw [hc] at hlookup
  rw [hlookup] at hlen
  have hval : entry.docLength = tv.docLength := by simpa using hlen
  have hneg : ¬ ((tv.docLength : Int) ≤ 0) := by omega
  simp only [memtableDocLength, tpSourceGetDocLength, hlookup, hval, hneg, if_false]

/-- The posting of a document in a sorted list. -/
theorem posting_frequency {e : DictEntry} (hwf : e.WellFormed) {p : BlockPosting}
    (hp : p ∈ e.postings) {docId : Nat} (hpd : p.docId = docId) :
    ((e.postings.find? (·.docId = docId)).map (·.frequency)).getD 0 = p.frequency := by
  have hfind : e.postings.find? (·.docId = docId) = some p :=
    DistinctKeys.find?_eq_some_of_sorted hwf.sorted hp hpd
  rw [hfind]
  rfl

/-- The document a CTID of a segment belongs to is unique in the whole index. -/
theorem segment_unique (hwf : view.WellFormed) {r r' : SegmentReader CString}
    (hr : r ∈ view.segments) (hr' : r' ∈ view.segments) {d d' : Nat}
    (hd : r.ctids[d]? = some ctid) (hd' : r'.ctids[d']? = some ctid) : r = r' ∧ d = d' := by
  have hnodup := List.nodup_flatMap.1 hwf.ctids_nodup
  have hmem := List.mem_of_getElem? hd
  have hmem' := List.mem_of_getElem? hd'
  have hsame : r = r' := by
    by_contra hne
    have : Std.Symm (Function.onFun List.Disjoint
        fun reader : SegmentReader CString => reader.ctids) := ⟨fun _ _ h => h.symm⟩
    exact hnodup.2.forall hr hr' hne hmem hmem'
  subst hsame
  obtain ⟨hi, hget⟩ := List.getElem?_eq_some_iff.1 hd
  obtain ⟨hi', hget'⟩ := List.getElem?_eq_some_iff.1 hd'
  exact ⟨rfl, (hnodup.1 r hr).getElem_inj_iff.1 (hget.trans hget'.symm)⟩

theorem SegmentDocument.not_mem_memtable {reader : SegmentReader CString} {docId : Nat}
    (hd : SegmentDocument view reader docId ctid tv) (hwf : view.WellFormed) {term : CString}
    {p : MemPosting} (hp : p ∈ view.memtable.postings term) : p.ctid ≠ ctid := by
  intro hc
  obtain ⟨entry, hlookup, -⟩ := hwf.covered term p hp
  refine hwf.separate ctid ?_ reader hd.mem (List.mem_of_getElem? hd.ctid_eq)
  rw [← hc, hlookup]
  rfl

/-- The CTID of a posting of a segment. -/
theorem lookupCtid_eq_iff (hwf : view.WellFormed) {reader r : SegmentReader CString}
    {docId d : Nat} (hd : SegmentDocument view reader docId ctid tv) (hr : r ∈ view.segments)
    (hlt : d < r.ctids.length) : tpSegmentLookupCtid r d = ctid ↔ r = reader ∧ d = docId := by
  have hget : r.ctids[d]? = some (tpSegmentLookupCtid r d) := by
    rw [tpSegmentLookupCtid, List.getD_eq_getElem?_getD, List.getElem?_eq_getElem hlt,
      Option.getD_some]
  constructor
  · intro heq
    rw [heq] at hget
    exact segment_unique hwf hr hd.mem hget hd.ctid_eq
  · rintro ⟨rfl, rfl⟩
    have := hget.symm.trans hd.ctid_eq
    exact Option.some.inj this

/-! ## What the scan returns for a document -/

variable {P : ScoreParams} {idf : ℚ} {term : CString}

/-- A memtable document in a single-term search. -/
theorem memtable_single_score (hwf : view.WellFormed) (hd : MemtableDocument view ctid tv)
    (score : ℚ) : (ctid, score) ∈ singleTermCandidates P view term idf ↔
      0 < findTermFrequency tv term ∧
        score = P.score idf (findTermFrequency tv term) tv.docLength := by
  rw [singleTermCandidates, List.mem_append]
  constructor
  · rintro (hmem | hseg)
    · obtain ⟨p, hp, heq⟩ := List.mem_map.1 hmem
      cases heq
      have hfreq := hd.frequency_of_mem hwf hp rfl
      rw [← hfreq, hd.docLength_eq hwf hp rfl]
      exact ⟨hwf.frequency_pos term p hp, rfl⟩
    · exfalso
      obtain ⟨r, hr, hin⟩ := List.mem_flatMap.1 hseg
      obtain ⟨c, hc, heq⟩ := List.mem_map.1 hin
      obtain ⟨p, hp, rfl⟩ := List.mem_map.1 hc
      cases hfind : r.findTerm term with
      | none => simp [hfind] at hp
      | some e =>
          rw [hfind, Option.map_some, Option.getD_some] at hp
          have hlt := (hwf.usable r hr term e hfind).docId_lt p hp
          apply hd.not_mem_segment hwf hr
          have hctid : tpSegmentLookupCtid r p.docId = ctid := congrArg Prod.fst heq
          rw [← hctid, tpSegmentLookupCtid, List.getD_eq_getElem?_getD,
            List.getElem?_eq_getElem hlt, Option.getD_some]
          exact List.getElem_mem hlt
  · rintro ⟨htf, rfl⟩
    obtain ⟨p, hp, hc⟩ := hd.exists_posting htf
    left
    refine List.mem_map.2 ⟨p, hp, ?_⟩
    rw [hc, hd.frequency_of_mem hwf hp hc, hd.docLength_eq hwf hp hc]

/-- A segment document in a single-term search: the length passes through 16 bits. -/
theorem segment_single_score (hwf : view.WellFormed) {reader : SegmentReader CString}
    {docId : Nat} (hd : SegmentDocument view reader docId ctid tv) (score : ℚ) :
    (ctid, score) ∈ singleTermCandidates P view term idf ↔
      0 < findTermFrequency tv term ∧
        score = P.score idf (findTermFrequency tv term) (quantisedLength tv % 65536 : Nat) := by
  have hscore : ∀ p ∈ ((reader.findTerm term).map DictEntry.postings).getD [],
      p.docId = docId → p.frequency = findTermFrequency tv term →
      singleTermScore P idf p =
        P.score idf (findTermFrequency tv term) (quantisedLength tv % 65536 : Nat) := by
    intro p hp hpd hfreq
    rw [singleTermScore, BlockPosting.output, hd.fieldnorm term p hp hpd, hfreq]
    rfl
  rw [singleTermCandidates, List.mem_append]
  constructor
  · rintro (hmem | hseg)
    · obtain ⟨p, hp, heq⟩ := List.mem_map.1 hmem
      exact absurd (congrArg Prod.fst heq) (hd.not_mem_memtable hwf hp)
    · obtain ⟨r, hr, hin⟩ := List.mem_flatMap.1 hseg
      obtain ⟨c, hc, heq⟩ := List.mem_map.1 hin
      obtain ⟨p, hp, rfl⟩ := List.mem_map.1 hc
      cases hfind : r.findTerm term with
      | none => simp [hfind] at hp
      | some e =>
          have husable := hwf.usable r hr term e hfind
          have hpe : p ∈ e.postings := by simpa [hfind] using hp
          obtain ⟨rfl, hpd⟩ := (lookupCtid_eq_iff hwf hd hr (husable.docId_lt p hpe)).1
            (congrArg Prod.fst heq)
          have hfreq : p.frequency = findTermFrequency tv term := by
            rw [← hd.frequency term, hfind]
            exact (posting_frequency husable.wellFormed hpe hpd).symm
          rw [← hscore p hp hpd hfreq, ← hfreq]
          exact ⟨husable.frequency_pos p hpe, (congrArg Prod.snd heq).symm⟩
  · rintro ⟨htf, rfl⟩
    right
    rw [← hd.frequency term] at htf
    cases hfind : (((reader.findTerm term).map DictEntry.postings).getD []).find?
        (·.docId = docId) with
    | none =>
        rw [hfind] at htf
        exact absurd htf (lt_irrefl 0)
    | some p =>
        have hp := List.mem_of_find?_eq_some hfind
        have hpd : p.docId = docId := by simpa using List.find?_some hfind
        have hfreq : p.frequency = findTermFrequency tv term := by
          rw [← hd.frequency term, hfind]
          rfl
        refine List.mem_flatMap.2 ⟨reader, hd.mem, List.mem_map.2
          ⟨(p.docId, singleTermScore P idf p), List.mem_map.2 ⟨p, hp, rfl⟩, ?_⟩⟩
        rw [hscore p hp hpd hfreq, hpd]
        simp only [tpSegmentLookupCtid, List.getD_eq_getElem?_getD, hd.ctid_eq, Option.getD_some]

/-- The states of a list of weighted terms. -/
def weightedTerms (weight : CString → ℚ) (query : List (CString × Nat)) :
    List (TermState CString) :=
  query.map fun q => newTermState q.1 (weight q.1) q.2

/-- What a memtable document collects from the query terms. -/
theorem addedScore_memtable (hwf : view.WellFormed) (hd : MemtableDocument view ctid tv)
    (weight : CString → ℚ) (query : List (CString × Nat)) :
    addedScore (memtableContributions P view.memtable (weightedTerms weight query)) ctid =
      vectorScore P weight query tv tv.docLength := by
  have hterm : ∀ q : CString × Nat,
      addedScore ((view.memtable.postings q.1).map fun p =>
        (p.ctid, P.score (weight q.1) p.frequency (memtableDocLength view.memtable p.ctid) *
          (q.2 : Int))) ctid =
        P.score (weight q.1) (findTermFrequency tv q.1) tv.docLength * q.2 := by
    intro q
    have hfilter : ((view.memtable.postings q.1).map fun p =>
        (p.ctid, P.score (weight q.1) p.frequency (memtableDocLength view.memtable p.ctid) *
          (q.2 : Int))).filter (·.1 = ctid) =
        ((view.memtable.postings q.1).filter (·.ctid = ctid)).map fun p =>
          (p.ctid, P.score (weight q.1) p.frequency (memtableDocLength view.memtable p.ctid) *
            (q.2 : Int)) := by
      rw [List.filter_map]
      rfl
    rw [addedScore, hfilter, List.map_map]
    by_cases htf : 0 < findTermFrequency tv q.1
    · obtain ⟨p, hp, hc⟩ := hd.exists_posting htf
      have hone : (view.memtable.postings q.1).filter (·.ctid = ctid) = [p] :=
        DistinctKeys.filter_eq_singleton (hwf.postings_nodup q.1) hp hc
      rw [hone]
      simp [hc, hd.frequency_of_mem hwf hp hc, hd.docLength_eq hwf hp hc]
    · have hzero : findTermFrequency tv q.1 = 0 := by omega
      have hempty : (view.memtable.postings q.1).filter (·.ctid = ctid) = [] := by
        rw [List.filter_eq_nil_iff]
        intro p hp heq
        have hc : p.ctid = ctid := by simpa using heq
        have := hwf.frequency_pos q.1 p hp
        rw [hd.frequency_of_mem hwf hp hc] at this
        exact htf this
      rw [hempty, hzero]
      simp
  have hsum : ∀ l m : List (ItemPointer × ℚ),
      addedScore (l ++ m) ctid = addedScore l ctid + addedScore m ctid := by
    intro l m
    simp [addedScore, List.filter_append]
  induction query with
  | nil => simp [weightedTerms, memtableContributions, addedScore, vectorScore]
  | cons q rest ih =>
      have hcons : memtableContributions P view.memtable (weightedTerms weight (q :: rest)) =
          ((view.memtable.postings q.1).map fun p =>
            (p.ctid, P.score (weight q.1) p.frequency (memtableDocLength view.memtable p.ctid) *
              (q.2 : Int))) ++
            memtableContributions P view.memtable (weightedTerms weight rest) := by
        simp [memtableContributions, weightedTerms, newTermState]
      rw [hcons, hsum, hterm, ih]
      simp [vectorScore]

/-- A memtable document in a multi-term search. -/
theorem memtable_multi_score (hwf : view.WellFormed) (hd : MemtableDocument view ctid tv)
    (weight : CString → ℚ) (query : List (CString × Nat)) (score : ℚ) :
    (ctid, score) ∈ multiTermCandidates P view (weightedTerms weight query) ↔
      (∃ q ∈ query, 0 < findTermFrequency tv q.1) ∧
        score = vectorScore P weight query tv tv.docLength := by
  have hmatch : (∃ ts ∈ weightedTerms weight query, ∃ p ∈ view.memtable.postings ts.term,
      p.ctid = ctid) ↔ ∃ q ∈ query, 0 < findTermFrequency tv q.1 := by
    constructor
    · rintro ⟨ts, hts, p, hp, hc⟩
      obtain ⟨q, hq, rfl⟩ := List.mem_map.1 hts
      have hpos := hwf.frequency_pos _ p hp
      rw [hd.frequency_of_mem hwf hp hc] at hpos
      exact ⟨q, hq, hpos⟩
    · rintro ⟨q, hq, htf⟩
      obtain ⟨p, hp, hc⟩ := hd.exists_posting htf
      exact ⟨_, List.mem_map_of_mem hq, p, hp, hc⟩
  have hnot : (ctid, score) ∉ view.segments.flatMap fun reader =>
      (segmentMultiDocs P reader (weightedTerms weight query)).map fun c =>
        (tpSegmentLookupCtid reader c.1, c.2) := by
    intro hseg
    obtain ⟨r, hr, hin⟩ := List.mem_flatMap.1 hseg
    obtain ⟨c, hc, heq⟩ := List.mem_map.1 hin
    obtain ⟨d, hdoc, rfl⟩ := List.mem_map.1 hc
    obtain ⟨q, -, p, hp, -, hpd⟩ := mem_matchingDocs.1 hdoc
    rw [termPostings] at hp
    cases hfind : r.findTerm q.term with
    | none => simp [hfind] at hp
    | some e =>
        rw [hfind, Option.map_some, Option.getD_some] at hp
        have hlt := (hwf.usable r hr q.term e hfind).docId_lt p hp
        rw [hpd] at hlt
        apply hd.not_mem_segment hwf hr
        have hctid : tpSegmentLookupCtid r d = ctid := congrArg Prod.fst heq
        rw [← hctid, tpSegmentLookupCtid, List.getD_eq_getElem?_getD,
          List.getElem?_eq_getElem hlt, Option.getD_some]
        exact List.getElem_mem hlt
  rw [multiTermCandidates, List.mem_append, or_iff_left hnot, mem_memtableMultiCandidates,
    hmatch, addedScore_memtable hwf hd]

/-- What the terms of the query contribute to a segment document. -/
theorem segmentDocScore_eq {reader : SegmentReader CString} {docId : Nat}
    (hd : SegmentDocument view reader docId ctid tv) (weight : CString → ℚ)
    (query : List (CString × Nat)) :
    segmentDocScore P reader (weightedTerms weight query) docId =
      vectorScore P weight query tv (quantisedLength tv) := by
  unfold segmentDocScore vectorScore weightedTerms
  rw [List.map_map]
  congr 1
  apply List.map_congr_left
  intro q _
  simp only [Function.comp_apply, termContribution, termPostings, newTermState]
  rw [← hd.frequency q.1]
  cases hfind : (((reader.findTerm q.1).map DictEntry.postings).getD []).find?
      (·.docId = docId) with
  | none => simp
  | some p =>
      have hp := List.mem_of_find?_eq_some hfind
      have hpd : p.docId = docId := by simpa using List.find?_some hfind
      have hlen : p.docLength = quantisedLength tv := by
        rw [BlockPosting.docLength, hd.fieldnorm q.1 p hp hpd]
        rfl
      simp [TermState.postingScore, hlen]

/-- A segment document in a multi-term search. -/
theorem segment_multi_score (hwf : view.WellFormed) {reader : SegmentReader CString} {docId : Nat}
    (hd : SegmentDocument view reader docId ctid tv) (weight : CString → ℚ)
    (query : List (CString × Nat)) (score : ℚ) :
    (ctid, score) ∈ multiTermCandidates P view (weightedTerms weight query) ↔
      (∃ q ∈ query, 0 < findTermFrequency tv q.1) ∧
        score = vectorScore P weight query tv (quantisedLength tv) := by
  have hnot : (ctid, score) ∉ memtableMultiCandidates P view.memtable
      (weightedTerms weight query) := by
    rw [mem_memtableMultiCandidates]
    rintro ⟨⟨ts, -, p, hp, hc⟩, -⟩
    exact hd.not_mem_memtable hwf hp hc
  -- the matching documents of the segment are those with a posting of positive frequency
  have hmatch : docId ∈ matchingDocs reader (weightedTerms weight query) ↔
      ∃ q ∈ query, 0 < findTermFrequency tv q.1 := by
    rw [mem_matchingDocs]
    constructor
    · rintro ⟨ts, hts, p, hp, hpos, hpd⟩
      obtain ⟨q, hq, rfl⟩ := List.mem_map.1 hts
      refine ⟨q, hq, ?_⟩
      rw [← hd.frequency q.1]
      cases hfind : reader.findTerm q.1 with
      | none =>
          rw [termPostings, show (newTermState q.1 (weight q.1) q.2).term = q.1 from rfl,
            hfind] at hp
          exact absurd hp (List.not_mem_nil)
      | some e =>
          have hpe : p ∈ e.postings := by
            rw [termPostings, show (newTermState q.1 (weight q.1) q.2).term = q.1 from rfl,
              hfind] at hp
            exact hp
          rw [Option.map_some, Option.getD_some,
            posting_frequency (hwf.usable reader hd.mem q.1 e hfind).wellFormed hpe hpd]
          exact hpos
    · rintro ⟨q, hq, htf⟩
      rw [← hd.frequency q.1] at htf
      cases hfind : (((reader.findTerm q.1).map DictEntry.postings).getD []).find?
          (·.docId = docId) with
      | none =>
          rw [hfind] at htf
          exact absurd htf (lt_irrefl 0)
      | some p =>
          rw [hfind] at htf
          exact ⟨_, List.mem_map_of_mem hq, p, List.mem_of_find?_eq_some hfind, htf,
            by simpa using List.find?_some hfind⟩
  rw [multiTermCandidates, List.mem_append, or_iff_right hnot, ← hmatch]
  constructor
  · intro hseg
    obtain ⟨r, hr, hin⟩ := List.mem_flatMap.1 hseg
    obtain ⟨c, hc, heq⟩ := List.mem_map.1 hin
    obtain ⟨d, hdoc, rfl⟩ := List.mem_map.1 hc
    have hlt : d < r.ctids.length := by
      obtain ⟨q, -, p, hp, -, hpd⟩ := mem_matchingDocs.1 hdoc
      rw [termPostings] at hp
      cases hfind : r.findTerm q.term with
      | none => simp [hfind] at hp
      | some e =>
          rw [hfind, Option.map_some, Option.getD_some] at hp
          rw [← hpd]
          exact (hwf.usable r hr q.term e hfind).docId_lt p hp
    obtain ⟨rfl, rfl⟩ := (lookupCtid_eq_iff hwf hd hr hlt).1 (congrArg Prod.fst heq)
    exact ⟨hdoc, (congrArg Prod.snd heq).symm.trans (segmentDocScore_eq hd weight query)⟩
  · rintro ⟨hdoc, rfl⟩
    refine List.mem_flatMap.2 ⟨reader, hd.mem, List.mem_map.2
      ⟨_, List.mem_map_of_mem hdoc, ?_⟩⟩
    rw [segmentDocScore_eq hd]
    simp only [tpSegmentLookupCtid, List.getD_eq_getElem?_getD, hd.ctid_eq, Option.getD_some]

/-- A term of a memtable document is counted. -/
theorem MemtableDocument.docFreq_pos (hd : MemtableDocument view ctid tv)
    (htf : 0 < findTermFrequency tv term) : 0 < tpGetUnifiedDocFreq view term := by
  obtain ⟨p, hp, -⟩ := hd.exists_posting htf
  have hlen := List.length_pos_of_mem hp
  rw [tpGetUnifiedDocFreq]
  omega

theorem segmentDocFreq_le (view : IndexView CString) {reader : SegmentReader CString}
    (hr : reader ∈ view.segments) (term : CString) :
    segmentDocFreq reader term ≤ tpGetUnifiedDocFreq view term := by
  have hsum := List.single_le_sum (fun x _ => Nat.zero_le x) _
    (List.mem_map_of_mem hr : segmentDocFreq reader term ∈ view.segments.map fun reader =>
      segmentDocFreq reader term)
  rw [tpGetUnifiedDocFreq_eq]
  omega

/-- A term of a segment document is counted. -/
theorem SegmentDocument.docFreq_pos (hwf : view.WellFormed) {reader : SegmentReader CString}
    {docId : Nat} (hd : SegmentDocument view reader docId ctid tv)
    (htf : 0 < findTermFrequency tv term) : 0 < tpGetUnifiedDocFreq view term := by
  apply lt_of_lt_of_le _ (segmentDocFreq_le view hd.mem term)
  rw [← hd.frequency term] at htf
  cases hfind : reader.findTerm term with
  | none =>
      rw [hfind] at htf
      exact absurd htf (lt_irrefl 0)
  | some e =>
      have hne : e.postings ≠ [] := by
        intro hnil
        rw [hfind, Option.map_some, Option.getD_some, hnil] at htf
        exact absurd htf (lt_irrefl 0)
      rw [segmentDocFreq, hfind, Option.map_some, Option.getD_some,
        (hwf.usable reader hd.mem term e hfind).docFreq_eq]
      exact List.length_pos_of_ne_nil hne

end Documents

/-! ## The whole search -/

section Search

variable {view : IndexView CString} {log : LogFunction} {P : ScoreParams}

/-- The IDF a search gives a query term: 0 if no source has it. -/
def searchIdf (log : LogFunction) (view : IndexView CString) (term : CString) : ℚ :=
  if tpGetUnifiedDocFreq view term > 0 then indexIdf log view term else 0

theorem queryTermStates_eq (log : LogFunction) (view : IndexView CString)
    (query : List (CString × Nat)) :
    queryTermStates log view query = weightedTerms (searchIdf log view) query := by
  rw [queryTermStates, tpBatchGetUnifiedDocFreq_eq, List.map_map, List.zipWith_map_right,
    List.zipWith_self]
  rfl

theorem queryTermStates_rankable (hwf : view.WellFormed) {query : List (CString × Nat)}
    (hfreq : ∀ q ∈ query, 0 < q.2) (log : LogFunction) {reader : SegmentReader CString}
    (hr : reader ∈ view.segments) :
    Rankable reader (weightedTerms (searchIdf log view) query) := by
  have hpos : ∀ term, 0 < indexIdf log view term := fun term =>
    tpCalculateIdf_pos log (hwf.counted term)
  constructor
  · constructor
    · intro ts hts
      obtain ⟨q, -, rfl⟩ := List.mem_map.1 hts
      show 0 ≤ searchIdf log view q.1
      unfold searchIdf
      split
      · exact (hpos q.1).le
      · exact le_refl 0
    · intro ts hts
      obtain ⟨q, hq, rfl⟩ := List.mem_map.1 hts
      exact Int.natCast_pos.2 (hfreq q hq)
    · intro ts hts e hfind
      obtain ⟨q, -, rfl⟩ := List.mem_map.1 hts
      exact (hwf.usable reader hr q.1 e hfind).wellFormed
    · intro ts hts e hfind blk hblk _ _ _
      obtain ⟨q, -, rfl⟩ := List.mem_map.1 hts
      exact (hwf.usable reader hr q.1 e hfind).positive blk hblk
  · intro ts hts e hfind hblocks
    obtain ⟨q, -, rfl⟩ := List.mem_map.1 hts
    replace hfind : reader.findTerm q.1 = some e := hfind
    have husable := hwf.usable reader hr q.1 e hfind
    have hdf : 0 < tpGetUnifiedDocFreq view q.1 := by
      apply lt_of_lt_of_le _ (segmentDocFreq_le view hr q.1)
      obtain ⟨blk, hblk⟩ := List.exists_mem_of_ne_nil _ hblocks
      obtain ⟨p, hp⟩ := List.exists_mem_of_ne_nil _ (husable.wellFormed.block_ne_nil blk hblk)
      have hmem : p ∈ e.postings := List.mem_flatMap.2 ⟨blk, hblk, hp⟩
      rw [segmentDocFreq, hfind, Option.map_some, Option.getD_some, husable.docFreq_eq]
      exact List.length_pos_of_mem hmem
    show 0 < searchIdf log view q.1
    rw [searchIdf, if_pos hdf]
    exact hpos q.1

/-- Everything a query is offered. -/
def queryCandidates (log : LogFunction) (P : ScoreParams) (view : IndexView CString)
    (query : List (CString × Nat)) : List (ItemPointer × ℚ) :=
  match query with
  | [(term, _)] => singleTermCandidates P view term (indexIdf log view term)
  | query => multiTermCandidates P view (weightedTerms (searchIdf log view) query)

/-- A search returns candidates, and all of them when the limit allows. -/
theorem tpScoreDocumentsBmw_returns (qs : Qsort) (hs : HashSeq) (log : LogFunction)
    (hwf : view.WellFormed) (hP : view.scoreParams = some P) {query : List (CString × Nat)}
    (hfreq : ∀ q ∈ query, 0 < q.2) {k : Nat} (hk : 0 < k) :
    (∃ results, tpScoreDocumentsBmw qs hs log view query k = some results ∧
      Returns results (queryCandidates log P view query) k) ∨
      ((∀ q ∈ query, tpGetUnifiedDocFreq view q.1 = 0) ∧
        tpScoreDocumentsBmw qs hs log view query k = some []) := by
  cases query with
  | nil => exact Or.inr ⟨by simp, by simp [tpScoreDocumentsBmw]⟩
  | cons q rest =>
      have hlen : ¬ ((q :: rest).length = 0 ∨ k = 0) := by
        simp only [List.length_cons]
        omega
      cases rest with
      | nil =>
          by_cases hdf : tpGetUnifiedDocFreq view q.1 = 0
          · refine Or.inr ⟨by simpa using hdf, ?_⟩
            simp only [tpScoreDocumentsBmw, hlen, if_false, hP, hdf, if_true]
          · refine Or.inl ⟨_, ?_, tpScoreSingleTermBmw_returns qs P hwf q.1
              (tpCalculateIdf_pos log (hwf.counted q.1)).le hk⟩
            simp only [tpScoreDocumentsBmw, hlen, if_false, hP, hdf]
      | cons q' rest =>
          obtain ⟨query, hquery⟩ : ∃ query, query = q :: q' :: rest := ⟨_, rfl⟩
          have hrun : tpScoreDocumentsBmw qs hs log view (q :: q' :: rest) k =
              if (tpBatchGetUnifiedDocFreq view (query.map Prod.fst)).all (· = 0) then some []
              else tpScoreMultiTermBmw qs hs P view (queryTermStates log view query) k := by
            rw [hquery, tpScoreDocumentsBmw, if_neg hlen, hP]
          have hcand : queryCandidates log P view (q :: q' :: rest) =
              multiTermCandidates P view (weightedTerms (searchIdf log view) query) := by
            rw [hquery]
            rfl
          rw [hrun, hcand, ← hquery]
          rw [← hquery] at hfreq
          by_cases hall : (tpBatchGetUnifiedDocFreq view (query.map Prod.fst)).all (· = 0) = true
          · refine Or.inr ⟨?_, by rw [if_pos hall]⟩
            rw [tpBatchGetUnifiedDocFreq_eq, List.map_map, List.all_map, List.all_eq_true] at hall
            intro term hterm
            simpa using hall term hterm
          · left
            rw [if_neg hall, queryTermStates_eq]
            exact tpScoreMultiTermBmw_returns qs hs P hwf _
              (fun r hr => queryTermStates_rankable hwf hfreq log hr) hk

/-- The document has a term of the query. -/
def Matches (query : List (CString × Nat)) (tv : TermVector CString) : Prop :=
  ∃ q ∈ query, 0 < findTermFrequency tv q.1

/-- What a search scores a document with: alone, a term is scored under `single` without
its frequency in the query, several terms are weighed and scored under `multi`. -/
def scanScore (P : ScoreParams) (idf : CString → ℚ) (query : List (CString × Nat))
    (tv : TermVector CString) (single multi : Nat) : ℚ :=
  match query with
  | [(term, _)] => P.score (idf term) (findTermFrequency tv term) single
  | query => vectorScore P idf query tv multi

theorem vectorScore_congr {weight weight' : CString → ℚ} {query : List (CString × Nat)}
    {tv : TermVector CString}
    (h : ∀ q ∈ query, 0 < findTermFrequency tv q.1 → weight q.1 = weight' q.1) (docLength : Nat) :
    vectorScore P weight query tv docLength = vectorScore P weight' query tv docLength := by
  unfold vectorScore
  congr 1
  apply List.map_congr_left
  intro q hq
  cases Nat.eq_zero_or_pos (findTermFrequency tv q.1) with
  | inl hzero => simp [hzero]
  | inr htf => rw [h q hq htf]

theorem searchIdf_eq {term : CString} (h : 0 < tpGetUnifiedDocFreq view term) :
    searchIdf log view term = indexIdf log view term := if_pos h

/-- What a search is offered for a memtable document. -/
theorem memtable_candidate (hwf : view.WellFormed) {ctid : ItemPointer} {tv : TermVector CString}
    (hd : MemtableDocument view ctid tv) (query : List (CString × Nat)) (score : ℚ) :
    (ctid, score) ∈ queryCandidates log P view query ↔ Matches query tv ∧
      score = scanScore P (indexIdf log view) query tv tv.docLength tv.docLength := by
  unfold queryCandidates scanScore
  split
  · rw [memtable_single_score hwf hd]
    simp [Matches]
  · rw [memtable_multi_score hwf hd, vectorScore_congr fun q _ htf =>
      searchIdf_eq (hd.docFreq_pos htf)]
    rfl

/-- What a search is offered for a segment document. -/
theorem segment_candidate (hwf : view.WellFormed) {ctid : ItemPointer} {tv : TermVector CString}
    {reader : SegmentReader CString} {docId : Nat}
    (hd : SegmentDocument view reader docId ctid tv) (query : List (CString × Nat)) (score : ℚ) :
    (ctid, score) ∈ queryCandidates log P view query ↔ Matches query tv ∧
      score = scanScore P (indexIdf log view) query tv (quantisedLength tv % 65536)
        (quantisedLength tv) := by
  unfold queryCandidates scanScore
  split
  · rw [segment_single_score hwf hd]
    simp [Matches]
  · rw [segment_multi_score hwf hd, vectorScore_congr fun q _ htf =>
      searchIdf_eq (hd.docFreq_pos hwf htf)]
    rfl

/-- What holds of every score a search may report for a document holds of the one score
the document is offered with. -/
theorem forall_results_iff (qs : Qsort) (hs : HashSeq) (hwf : view.WellFormed)
    (hP : view.scoreParams = some P) {query : List (CString × Nat)} (hfreq : ∀ q ∈ query, 0 < q.2)
    {ctid : ItemPointer} {tv : TermVector CString} {offered : ℚ}
    (hcand : ∀ score, (ctid, score) ∈ queryCandidates log P view query ↔
      Matches query tv ∧ score = offered)
    (hcounted : ∀ term, 0 < findTermFrequency tv term → 0 < tpGetUnifiedDocFreq view term)
    (claim : ℚ → Prop) :
    (∀ k results score, tpScoreDocumentsBmw qs hs log view query k = some results →
        (ctid, score) ∈ results → claim score) ↔ (Matches query tv → claim offered) := by
  constructor
  · intro hall hmatch
    have hmem := (hcand offered).2 ⟨hmatch, rfl⟩
    have hk := List.length_pos_of_mem hmem
    cases tpScoreDocumentsBmw_returns qs hs log hwf hP hfreq hk with
    | inl hrun =>
        obtain ⟨results, hresults, hreturns⟩ := hrun
        exact hall _ results offered hresults ((hreturns.all le_rfl).mem_iff.2 hmem)
    | inr hnone =>
        obtain ⟨q, hq, htf⟩ := hmatch
        exact absurd (hnone.1 q hq) (hcounted q.1 htf).ne'
  · intro hclaim k results score hresults hmem
    cases Nat.eq_zero_or_pos k with
    | inl hzero =>
        simp only [tpScoreDocumentsBmw, hzero, or_true, if_true, Option.some.injEq] at hresults
        rw [← hresults] at hmem
        exact absurd hmem List.not_mem_nil
    | inr hk =>
        cases tpScoreDocumentsBmw_returns qs hs log hwf hP hfreq hk with
        | inl hrun =>
            obtain ⟨results', hresults', hreturns⟩ := hrun
            rw [hresults, Option.some.injEq] at hresults'
            subst hresults'
            have hoffered := (hcand score).1 (hreturns.subperm.subset hmem)
            rw [hoffered.2]
            exact hclaim hoffered.1
        | inr hnone =>
            rw [hnone.2, Option.some.injEq] at hresults
            rw [← hresults] at hmem
            exact absurd hmem List.not_mem_nil

end Search

/-! ## The agreement -/

section Agreement

variable {P : ScoreParams} {idf : CString → ℚ} {query : List (CString × Nat)}
  {tv : TermVector CString}

theorem orderByValue_inj {a b : ℚ} (ha : 0 ≤ a) (hb : 0 ≤ b) :
    orderByValue a = orderByValue b ↔ a = b := by
  have hneg : ∀ x : ℚ, 0 ≤ x → orderByValue x = -x := by
    intro x hx
    unfold orderByValue
    split
    · rfl
    · linarith
  rw [hneg a ha, hneg b hb, neg_inj]

theorem vectorScore_nonneg (hidf : ∀ term, 0 < idf term) (docLength : Nat) :
    0 ≤ vectorScore P idf query tv docLength := by
  apply List.sum_nonneg
  intro x hx
  obtain ⟨q, -, rfl⟩ := List.mem_map.1 hx
  exact mul_nonneg (P.score_nonneg (hidf q.1).le _ _) (Nat.cast_nonneg _)

theorem scanScore_nonneg (hidf : ∀ term, 0 < idf term) (single multi : Nat) :
    0 ≤ scanScore P idf query tv single multi := by
  unfold scanScore
  split
  · exact P.score_nonneg (hidf _).le _ _
  · exact vectorScore_nonneg hidf multi

/-- Two lengths give a matching document the same score only if the length does not
matter. -/
theorem vectorScore_eq_iff (hidf : ∀ term, 0 < idf term) (hfreq : ∀ q ∈ query, 0 < q.2)
    (hmatch : Matches query tv) {dl dl' : Nat} (hle : dl ≤ dl') :
    vectorScore P idf query tv dl = vectorScore P idf query tv dl' ↔ P.b = 0 ∨ dl = dl' := by
  constructor
  · intro heq
    by_contra hne
    have hnorm : P.lenNorm dl < P.lenNorm dl' :=
      lt_of_le_of_ne (P.lenNorm_mono hle) fun h => hne (P.lenNorm_inj.1 h)
    have hlt : vectorScore P idf query tv dl' < vectorScore P idf query tv dl := by
      apply List.sum_lt_sum
      · intro q _
        exact mul_le_mul_of_nonneg_right (P.score_anti (hidf q.1) _ hle) (Nat.cast_nonneg _)
      · obtain ⟨q, hq, htf⟩ := hmatch
        refine ⟨q, hq, mul_lt_mul_of_pos_right ?_ (Nat.cast_pos.2 (hfreq q hq))⟩
        rw [← not_le, P.score_le_score_iff (hidf q.1) dl dl' htf, not_le]
        exact mul_lt_mul_of_pos_left hnorm (Nat.cast_pos.2 htf)
    exact absurd heq hlt.ne'
  · intro h
    have hnorm : P.lenNorm dl = P.lenNorm dl' := P.lenNorm_inj.2 h
    unfold vectorScore
    congr 1
    apply List.map_congr_left
    intro q _
    rw [P.score_eq, P.score_eq, hnorm]

/-- The operator and the search score a document of the memtable alike: its length is one
the quantisation keeps, unless the length does not matter, and a query of one term does not
repeat it. -/
def MemtableAlike (P : ScoreParams) (query : List (CString × Nat)) (tv : TermVector CString) :
    Prop :=
  match query with
  | [(_, queryFreq)] => queryFreq = 1 ∧ (P.b = 0 ∨ quantisedLength tv = tv.docLength)
  | _ => P.b = 0 ∨ quantisedLength tv = tv.docLength

/-- The operator and the search score a document of a segment alike: with several terms
always; with one term if it is not repeated and the quantised length fits 16 bits, or if
the repetition makes up for the bits that are lost. -/
def SegmentAlike (P : ScoreParams) (query : List (CString × Nat)) (tv : TermVector CString) :
    Prop :=
  match query with
  | [(term, queryFreq)] =>
      queryFreq = 1 ∧ (P.b = 0 ∨ quantisedLength tv < 65536) ∨
        1 < queryFreq ∧ (queryFreq : ℚ) * (findTermFrequency tv term +
          P.k1 * P.lenNorm (quantisedLength tv % 65536)) =
            findTermFrequency tv term + P.k1 * P.lenNorm (quantisedLength tv)
  | _ => True

theorem memtableAlike_iff (hidf : ∀ term, 0 < idf term) (hfreq : ∀ q ∈ query, 0 < q.2)
    (hmatch : Matches query tv) :
    vectorScore P idf query tv (quantisedLength tv) =
        scanScore P idf query tv tv.docLength tv.docLength ↔ MemtableAlike P query tv := by
  have hle : quantisedLength tv ≤ tv.docLength := decodeFieldnorm_encodeFieldnorm_le _
  unfold scanScore MemtableAlike
  split
  · rename_i term queryFreq
    obtain ⟨q, hq, htf⟩ := hmatch
    rw [List.mem_singleton] at hq
    subst hq
    have hvec : vectorScore P idf [(term, queryFreq)] tv (quantisedLength tv) =
        P.score (idf term) (findTermFrequency tv term) (quantisedLength tv) * queryFreq := by
      simp [vectorScore]
    rw [hvec, P.score_mul_eq_score_iff (hidf term) htf]
    have hpos := P.denom_pos tv.docLength htf
    have hmono : P.k1 * P.lenNorm (quantisedLength tv) ≤ P.k1 * P.lenNorm tv.docLength :=
      mul_le_mul_of_nonneg_left (P.lenNorm_mono hle) P.k1_pos.le
    rw [← P.lenNorm_inj]
    constructor
    · intro heq
      have hone : queryFreq = 1 := by
        have hge : 1 ≤ queryFreq := hfreq _ List.mem_cons_self
        by_contra hne
        have htwo : (2 : ℚ) ≤ queryFreq := by exact_mod_cast (by omega : 2 ≤ queryFreq)
        have := mul_le_mul_of_nonneg_right htwo hpos.le
        linarith
      refine ⟨hone, ?_⟩
      rw [hone, Nat.cast_one, one_mul, add_right_inj, mul_right_inj' P.k1_pos.ne'] at heq
      exact heq.symm
    · rintro ⟨rfl, hnorm⟩
      rw [hnorm, Nat.cast_one, one_mul]
  · exact vectorScore_eq_iff hidf hfreq hmatch hle

theorem segmentAlike_iff (hidf : ∀ term, 0 < idf term) (hfreq : ∀ q ∈ query, 0 < q.2)
    (hmatch : Matches query tv) :
    vectorScore P idf query tv (quantisedLength tv) =
        scanScore P idf query tv (quantisedLength tv % 65536) (quantisedLength tv) ↔
      SegmentAlike P query tv := by
  unfold scanScore SegmentAlike
  split
  · rename_i term queryFreq
    obtain ⟨q, hq, htf⟩ := hmatch
    rw [List.mem_singleton] at hq
    subst hq
    have hvec : vectorScore P idf [(term, queryFreq)] tv (quantisedLength tv) =
        P.score (idf term) (findTermFrequency tv term) (quantisedLength tv) * queryFreq := by
      simp [vectorScore]
    rw [hvec, P.score_mul_eq_score_iff (hidf term) htf]
    have hge : 1 ≤ queryFreq := hfreq _ List.mem_cons_self
    cases Nat.eq_or_lt_of_le hge with
    | inl hone =>
        subst hone
        have hmod : quantisedLength tv % 65536 = quantisedLength tv ↔
            quantisedLength tv < 65536 := by omega
        rw [Nat.cast_one, one_mul, add_right_inj, mul_right_inj' P.k1_pos.ne', P.lenNorm_inj,
          hmod]
        simp
    | inr hmore =>
        simp [hmore, hmore.ne']
  · simp

end Agreement

section Claim

variable {Config Text : Type} (toTsvector : Config → Text → TermVector CString)
  (qs : Qsort) (hs : HashSeq) (log : LogFunction) (index : OperatorIndex Config)
  (behind : TermIdfEntry) (query : Bm25Query Config Text)

/-- The document of the CTID, in the memtable or in a segment. -/
def IndexedDocument (view : IndexView CString) (ctid : ItemPointer) (tv : TermVector CString) :
    Prop :=
  MemtableDocument view ctid tv ∨ ∃ reader docId, SegmentDocument view reader docId ctid tv

/-- The operator and the scan report the same score: whatever rows a statement evaluated
the operator on before, its value for the text of an indexed document is the value of the
score every scan that returns the document reports. -/
def OperatorAgrees : Prop :=
  ∀ (rows : List Text) (text : Text) (ctid : ItemPointer),
    IndexedDocument index.view ctid (toTsvector index.textConfig text) →
    ∀ k results score, tpScoreDocumentsBmw qs hs log index.view
        (queryVector toTsvector index query).entries k = some results →
      (ctid, score) ∈ results →
      (bm25TextBm25queryScore toTsvector log index behind query
        (fnExtraAfter toTsvector log index behind query rows) text).1 = orderByValue score

/-- Every indexed document that has a term of the query is scored alike. -/
def ScoredAlike : Prop :=
  ∀ P, index.view.scoreParams = some P → ∀ (text : Text) (ctid : ItemPointer),
    Matches (queryVector toTsvector index query).entries (toTsvector index.textConfig text) →
    (MemtableDocument index.view ctid (toTsvector index.textConfig text) →
      MemtableAlike P (queryVector toTsvector index query).entries
        (toTsvector index.textConfig text)) ∧
    (∀ reader docId, SegmentDocument index.view reader docId ctid
        (toTsvector index.textConfig text) →
      SegmentAlike P (queryVector toTsvector index query).entries
        (toTsvector index.textConfig text))

variable {toTsvector qs hs log index behind query}

/-- What the agreement on one document comes to. -/
theorem agreesOn_iff {P : ScoreParams} (hwf : index.view.WellFormed)
    (hfits : FitsCache (queryVector toTsvector index query).entries)
    (hP : index.view.scoreParams = some P) (text : Text) (ctid : ItemPointer) (single multi : Nat)
    (hcand : ∀ score, (ctid, score) ∈ queryCandidates log P index.view
        (queryVector toTsvector index query).entries ↔
      Matches (queryVector toTsvector index query).entries (toTsvector index.textConfig text) ∧
        score = scanScore P (indexIdf log index.view)
          (queryVector toTsvector index query).entries (toTsvector index.textConfig text)
          single multi)
    (hcounted : ∀ term, 0 < findTermFrequency (toTsvector index.textConfig text) term →
      0 < tpGetUnifiedDocFreq index.view term) :
    (∀ (rows : List Text) k results score, tpScoreDocumentsBmw qs hs log index.view
        (queryVector toTsvector index query).entries k = some results →
      (ctid, score) ∈ results →
      (bm25TextBm25queryScore toTsvector log index behind query
        (fnExtraAfter toTsvector log index behind query rows) text).1 = orderByValue score) ↔
      (Matches (queryVector toTsvector index query).entries (toTsvector index.textConfig text) →
        vectorScore P (indexIdf log index.view)
          (queryVector toTsvector index query).entries (toTsvector index.textConfig text)
          (quantisedLength (toTsvector index.textConfig text)) =
        scanScore P (indexIdf log index.view)
          (queryVector toTsvector index query).entries (toTsvector index.textConfig text)
          single multi) := by
  have hfreq := (queryVector toTsvector index query).positive
  have hidf : ∀ term, 0 < indexIdf log index.view term := fun term =>
    tpCalculateIdf_pos log (hwf.counted term)
  have hvalue : ∀ rows, (bm25TextBm25queryScore toTsvector log index behind query
      (fnExtraAfter toTsvector log index behind query rows) text).1 =
      orderByValue (vectorScore P (indexIdf log index.view)
        (queryVector toTsvector index query).entries (toTsvector index.textConfig text)
        (quantisedLength (toTsvector index.textConfig text))) := by
    intro rows
    have hextra : ExtraAnswers (queryNames toTsvector index query) (cacheAnswer log index.view)
        (fnExtraAfter toTsvector log index behind query rows) :=
      fnExtraAfter_answers hP hwf.counted hfits rows
    exact (bm25TextBm25queryScore_eq hP hwf.counted hfits hextra text).2
      fun q _ htf => hcounted q.1 htf
  simp only [hvalue, forall_results_iff qs hs hwf hP hfreq hcand hcounted,
    orderByValue_inj (vectorScore_nonneg hidf _) (scanScore_nonneg hidf _ _)]
  exact ⟨fun h => h [], fun h _ => h⟩

/-- The agreement on a document of the memtable. -/
theorem agreesOn_memtable_iff {P : ScoreParams} (hwf : index.view.WellFormed)
    (hfits : FitsCache (queryVector toTsvector index query).entries)
    (hP : index.view.scoreParams = some P) {text : Text} {ctid : ItemPointer}
    (hd : MemtableDocument index.view ctid (toTsvector index.textConfig text)) :
    (∀ (rows : List Text) k results score, tpScoreDocumentsBmw qs hs log index.view
        (queryVector toTsvector index query).entries k = some results →
      (ctid, score) ∈ results →
      (bm25TextBm25queryScore toTsvector log index behind query
        (fnExtraAfter toTsvector log index behind query rows) text).1 = orderByValue score) ↔
      (Matches (queryVector toTsvector index query).entries (toTsvector index.textConfig text) →
        MemtableAlike P (queryVector toTsvector index query).entries
          (toTsvector index.textConfig text)) := by
  rw [agreesOn_iff hwf hfits hP text ctid _ _ (memtable_candidate hwf hd _)
    fun term htf => hd.docFreq_pos htf]
  have hidf : ∀ term, 0 < indexIdf log index.view term := fun term =>
    tpCalculateIdf_pos log (hwf.counted term)
  exact forall_congr' fun hmatch =>
    memtableAlike_iff hidf (queryVector toTsvector index query).positive hmatch

/-- The agreement on a document of a segment. -/
theorem agreesOn_segment_iff {P : ScoreParams} (hwf : index.view.WellFormed)
    (hfits : FitsCache (queryVector toTsvector index query).entries)
    (hP : index.view.scoreParams = some P) {text : Text} {ctid : ItemPointer}
    {reader : SegmentReader CString} {docId : Nat}
    (hd : SegmentDocument index.view reader docId ctid (toTsvector index.textConfig text)) :
    (∀ (rows : List Text) k results score, tpScoreDocumentsBmw qs hs log index.view
        (queryVector toTsvector index query).entries k = some results →
      (ctid, score) ∈ results →
      (bm25TextBm25queryScore toTsvector log index behind query
        (fnExtraAfter toTsvector log index behind query rows) text).1 = orderByValue score) ↔
      (Matches (queryVector toTsvector index query).entries (toTsvector index.textConfig text) →
        SegmentAlike P (queryVector toTsvector index query).entries
          (toTsvector index.textConfig text)) := by
  rw [agreesOn_iff hwf hfits hP text ctid _ _ (segment_candidate hwf hd _)
    fun term htf => hd.docFreq_pos hwf htf]
  have hidf : ∀ term, 0 < indexIdf log index.view term := fun term =>
    tpCalculateIdf_pos log (hwf.counted term)
  exact forall_congr' fun hmatch =>
    segmentAlike_iff hidf (queryVector toTsvector index query).positive hmatch

variable (toTsvector qs hs log index behind query)

/-- **The operator and the scan** agree on every indexed document exactly if all documents
that match are scored alike. -/
theorem operator_agrees_iff (hwf : index.view.WellFormed)
    (hfits : FitsCache (queryVector toTsvector index query).entries) :
    OperatorAgrees toTsvector qs hs log index behind query ↔
      ScoredAlike toTsvector index query := by
  cases hP : index.view.scoreParams with
  | none =>
      constructor
      · intro _ P hsome
        rw [hP] at hsome
        cases hsome
      · intro _ rows text ctid _ k results score hresults hmem
        have hnil : results = [] := by
          simp only [tpScoreDocumentsBmw, hP] at hresults
          split at hresults <;> exact (Option.some.inj hresults).symm
        rw [hnil] at hmem
        exact absurd hmem List.not_mem_nil
  | some P =>
      constructor
      · intro hagrees P' hP' text ctid hmatch
        obtain rfl : P' = P := by
          rw [hP, Option.some.injEq] at hP'
          exact hP'.symm
        constructor
        · intro hd
          exact (agreesOn_memtable_iff hwf hfits hP hd).1
            (fun rows => hagrees rows text ctid (Or.inl hd)) hmatch
        · intro reader docId hd
          exact (agreesOn_segment_iff hwf hfits hP hd).1
            (fun rows => hagrees rows text ctid (Or.inr ⟨reader, docId, hd⟩)) hmatch
      · intro halike rows text ctid hindexed
        cases hindexed with
        | inl hd =>
            exact (agreesOn_memtable_iff hwf hfits hP hd).2
              (fun hmatch => (halike P hP text ctid hmatch).1 hd) rows
        | inr hsegment =>
            obtain ⟨reader, docId, hd⟩ := hsegment
            exact (agreesOn_segment_iff hwf hfits hP hd).2
              (fun hmatch => (halike P hP text ctid hmatch).2 reader docId hd) rows

end Claim

/-! ## An index of one document -/

/-- `to_tsvector` of the `simple` configuration, on a text given as its words. -/
def wordVector (words : List CString) : TermVector CString where
  entries := words.dedup.map fun word => (word, words.count word)
  nodup := by
    rw [List.map_map]
    exact (List.map_id' words.dedup).symm ▸ List.nodup_dedup words
  positive := by
    intro e he
    obtain ⟨word, hword, rfl⟩ := List.mem_map.1 he
    exact List.count_pos_iff.2 (List.mem_dedup.1 hword)

theorem catTerm_nul_free : (0 : Fin 256) ∉ [99, 97, 116] := by decide

theorem defaultK1_pos : (0 : ℚ) < 6 / 5 := by norm_num

theorem defaultB_nonneg : (0 : ℚ) ≤ 3 / 4 := by norm_num

theorem defaultB_le_one : (3 / 4 : ℚ) ≤ 1 := by norm_num

def catTerm : CString := ⟨[99, 97, 116], catTerm_nul_free⟩

/-- One document, `cat`, in the memtable. -/
def oneDocumentIndex : OperatorIndex Unit where
  indexOid := 1
  textConfig := ()
  view :=
    { memtable := tpAddDocumentTerms Memtable.empty ⟨0, 1⟩ (wordVector [catTerm]) 0
      levels := []
      totalDocs := 1
      totalLen := 1
      options := ⟨6 / 5, 3 / 4, defaultK1_pos, defaultB_nonneg, defaultB_le_one⟩ }

/-- A function that grows like the logarithm. -/
def linearLog : LogFunction where
  ln := fun x => x - 1
  pos := fun _ h => sub_pos.2 h
  strictMono := fun _ _ _ h => sub_lt_sub_right h 1

theorem oneDocumentIndex_postings (term : CString) :
    oneDocumentIndex.view.memtable.postings term =
      if catTerm = term then [⟨⟨0, 1⟩, 1, 0⟩] else [] := by
  have hentries : (wordVector [catTerm]).entries = [(catTerm, 1)] := by decide
  simp only [oneDocumentIndex, postings_addDocumentTerms, postings_empty, List.nil_append,
    documentPostings, hentries]
  by_cases h : catTerm = term <;> simp [h]

theorem oneDocumentIndex_docLength :
    oneDocumentIndex.view.memtable.docLengths.lookup ⟨0, 1⟩ = some ⟨1, 0⟩ := by
  rfl

theorem oneDocumentIndex_wellFormed : oneDocumentIndex.view.WellFormed where
  usable := by
    intro r hr
    exact absurd hr List.not_mem_nil
  roots_nodup := List.nodup_nil
  roots_valid := by
    intro r hr
    exact absurd hr List.not_mem_nil
  counted := by
    intro term
    have hsum : tpGetUnifiedDocFreq oneDocumentIndex.view term =
        (oneDocumentIndex.view.memtable.postings term).length := by rfl
    rw [hsum, oneDocumentIndex_postings]
    split <;> simp [oneDocumentIndex]
  frequency_pos := by
    intro term p hp
    rw [oneDocumentIndex_postings] at hp
    split at hp
    · rw [List.mem_singleton.1 hp]
      exact Nat.one_pos
    · exact absurd hp List.not_mem_nil
  covered := by
    intro term p hp
    rw [oneDocumentIndex_postings] at hp
    split at hp
    · rw [List.mem_singleton.1 hp]
      exact ⟨_, oneDocumentIndex_docLength, Nat.one_pos⟩
    · exact absurd hp List.not_mem_nil
  postings_nodup := by
    intro term
    rw [oneDocumentIndex_postings]
    split <;> simp
  ctids_nodup := List.nodup_nil
  separate := by
    intro ctid _ r hr
    exact absurd hr List.not_mem_nil

/-- The word of `oneDocumentIndex`, so many times. -/
def catQuery (times : Nat) : Bm25Query Unit (List CString) := ⟨List.replicate times catTerm, none⟩

theorem catQuery_fits (times : Nat) (htimes : 0 < times) :
    FitsCache (queryVector (fun _ => wordVector) oneDocumentIndex (catQuery times)).entries := by
  have hentries : (queryVector (fun _ => wordVector) oneDocumentIndex (catQuery times)).entries =
      [(catTerm, times)] := by
    simp [queryVector, catQuery, wordVector, List.replicate_dedup htimes.ne']
  rw [hentries]
  constructor
  · simp [maxCachedTerms]
  · intro q hq
    rw [List.mem_singleton.1 hq]
    show catTerm.bytes.length < nameDataLen
    decide

theorem operator_agrees_iff_catQuery :
    OperatorAgrees (fun _ => wordVector) insertionQsort insertionHashSeq linearLog
        oneDocumentIndex ⟨catTerm, 0, 0⟩ (catQuery 1) ↔
      ScoredAlike (fun _ => wordVector) oneDocumentIndex (catQuery 1) :=
  operator_agrees_iff (fun _ => wordVector) insertionQsort insertionHashSeq linearLog
    oneDocumentIndex ⟨catTerm, 0, 0⟩ (catQuery 1) oneDocumentIndex_wellFormed
    (catQuery_fits 1 (by decide))

/-- The query `cat cat`: the operator counts the word twice, the scan once. -/
theorem repeated_term_disagrees :
    ¬ OperatorAgrees (fun _ => wordVector) insertionQsort insertionHashSeq linearLog
        oneDocumentIndex ⟨catTerm, 0, 0⟩ (catQuery 2) := by
  intro hagrees
  have hd : MemtableDocument oneDocumentIndex.view ⟨0, 1⟩ (wordVector [catTerm]) := by
    constructor
    · intro term
      rw [oneDocumentIndex_postings]
      have hentries : (wordVector [catTerm]).entries = [(catTerm, 1)] := by decide
      rw [findTermFrequency, hentries]
      by_cases h : catTerm = term <;> simp [h]
    · rfl
  have hP : oneDocumentIndex.view.scoreParams = some
      ⟨6 / 5, 3 / 4, ((1 : Nat) : ℚ) / (1 : Nat), by norm_num, by norm_num, by norm_num,
        by norm_num⟩ := by rfl
  have halike := (agreesOn_memtable_iff oneDocumentIndex_wellFormed
    (catQuery_fits 2 (by decide)) hP hd).1 (fun rows => hagrees rows [catTerm] _ (Or.inl hd))
    ⟨(catTerm, 2), by decide, by decide⟩
  exact absurd halike.1 (by decide)

end PgTextsearch.Query
