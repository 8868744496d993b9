import PgTextsearch.Query.Compaction
import PgTextsearch.Segment.Spill

/-!
# The search of a corpus

What the index is for: a corpus of documents, and for a query the ranking of the documents that
have a term of it.  A corpus knows no memtable, segments or levels; of the way a document is
stored it only keeps whether it has been spilled, since from then on its length is the
quantised one.

An index represents a corpus when memtable and segments together have the postings of its
documents (`Represents`).  It then offers a search the candidates of the corpus, and the search
returns their ranking.

## Main results

* `Represents.wellFormed` — an index that represents a corpus can be queried and compacted.
* `Represents.candidates_perm`, `Represents.search_eq` — the search of the index is the search
  of the corpus.
-/

namespace PgTextsearch.Query

open PgTextsearch.Postgres PgTextsearch.Segment PgTextsearch.Segment.Merge PgTextsearch.Verified
open scoped Strcmp

/-! ## The corpus -/

/-- A document of the corpus. -/
structure CorpusDoc where
  ctid : ItemPointer
  tv : TermVector CString
  tenantId : Nat
  spilled : Bool

namespace CorpusDoc

/-- The length a document is scored with. -/
def length (d : CorpusDoc) : Nat := if d.spilled then quantisedLength d.tv else d.tv.docLength

/-- The length a query of one term reads: that of a segment document through 16 bits. -/
def singleLength (d : CorpusDoc) : Nat :=
  if d.spilled then quantisedLength d.tv % 65536 else d.tv.docLength

/-- The document, once it has been spilled. -/
def spill (d : CorpusDoc) : CorpusDoc := { d with spilled := true }

end CorpusDoc

instance (query : List (CString × Nat)) (tv : TermVector CString) : Decidable (Matches query tv) :=
  inferInstanceAs (Decidable (∃ q ∈ query, _))

/-- The number of documents with a term. -/
def corpusDocFreq (docs : List CorpusDoc) (term : CString) : Nat :=
  (docs.filter fun d => 0 < findTermFrequency d.tv term).length

def corpusIdf (log : LogFunction) (docs : List CorpusDoc) (term : CString) : ℚ :=
  tpCalculateIdf log (corpusDocFreq docs term) docs.length

theorem corpusDocFreq_le (docs : List CorpusDoc) (term : CString) :
    corpusDocFreq docs term ≤ docs.length :=
  List.length_filter_le _ _

/-- The tokens of the corpus. -/
def corpusLength (docs : List CorpusDoc) : Nat := (docs.map fun d => d.tv.docLength).sum

/-- The scoring parameters of a corpus that is not empty. -/
def corpusParams (options : RankOptions) (docs : List CorpusDoc) : Option ScoreParams :=
  if h : 0 < docs.length ∧ 0 < corpusLength docs then
    some
      { k1 := options.k1
        b := options.b
        avgDocLen := (corpusLength docs : ℚ) / docs.length
        k1_pos := options.k1_pos
        b_nonneg := options.b_nonneg
        b_le_one := options.b_le_one
        avg_pos := div_pos (Nat.cast_pos.2 h.2) (Nat.cast_pos.2 h.1) }
  else none

/-- The documents with a term of the query, with their scores. -/
def corpusCandidates (log : LogFunction) (P : ScoreParams) (docs : List CorpusDoc)
    (query : List (CString × Nat)) : List (ItemPointer × ℚ) :=
  (docs.filter fun d => Matches query d.tv).map fun d =>
    (d.ctid, scanScore P (corpusIdf log docs) query d.tv d.singleLength d.length)

/-- **The search of a corpus**: all documents with a term of the query, ranked. -/
def corpusSearch (log : LogFunction) (options : RankOptions) (docs : List CorpusDoc)
    (query : List (CString × Nat)) : List (ItemPointer × ℚ) :=
  match corpusParams options docs with
  | none => []
  | some P => ranking (corpusCandidates log P docs query)

/-- A corpus an index can hold: distinct CTIDs, no document without terms, and everything
within the widths of the stored fields. -/
structure CorpusFits (docs : List CorpusDoc) : Prop where
  ctids_nodup : (docs.map CorpusDoc.ctid).Nodup
  nonempty : ∀ d ∈ docs, d.tv.entries ≠ []
  ctid_lt : ∀ d ∈ docs, d.ctid.blkid < 2 ^ 32 ∧ d.ctid.posid < 2 ^ 16
  frequency_lt : ∀ d ∈ docs, ∀ e ∈ d.tv.entries, e.2 < 2 ^ 16
  documents_lt : docs.length < uint32Max
  postings_le : ∀ term, corpusDocFreq docs term ≤ 65535 * tpBlockSize
  terms_lt : (docs.map fun d => d.tv.entries.length).sum < 2 ^ 32

/-! ## Documents and their postings -/

/-- The rows of a term in a document that has been spilled. -/
def docRows (term : CString) (d : CorpusDoc) : List PostingRow :=
  (documentPostings d.ctid d.tv.entries d.tenantId term).map fun p =>
    ⟨p.ctid, p.frequency, encodeFieldnorm d.tv.docLength⟩

/-- A document has one posting for a term it has, and none for another. -/
theorem documentPostings_eq (ctid : ItemPointer) (tv : TermVector CString) (tenantId : Nat)
    (term : CString) : documentPostings ctid tv.entries tenantId term =
      if 0 < findTermFrequency tv term then [⟨ctid, findTermFrequency tv term, tenantId⟩] else [] := by
  unfold documentPostings
  by_cases hterm : ∃ e ∈ tv.entries, e.1 = term
  · obtain ⟨e, he, rfl⟩ := hterm
    have hone : tv.entries.filter (fun e' => e'.1 = e.1) = [e] :=
      DistinctKeys.filter_eq_singleton tv.nodup he rfl
    rw [findTermFrequency_of_mem he, if_pos (tv.positive e he), hone]
    rfl
  · have hnone : tv.entries.filter (fun e => e.1 = term) = [] := by
      rw [List.filter_eq_nil_iff]
      intro e he hterm'
      exact hterm ⟨e, he, by simpa using hterm'⟩
    have hzero : findTermFrequency tv term = 0 := by
      rw [findTermFrequency, List.find?_eq_none.2 fun e he hterm' =>
        hterm ⟨e, he, by simpa using hterm'⟩]
      rfl
    rw [hnone, hzero, if_neg (lt_irrefl 0)]
    rfl

theorem docRows_eq (term : CString) (d : CorpusDoc) : docRows term d =
    if 0 < findTermFrequency d.tv term then
      [⟨d.ctid, findTermFrequency d.tv term, encodeFieldnorm d.tv.docLength⟩] else [] := by
  rw [docRows, documentPostings_eq]
  split <;> rfl

theorem docLength_pos {tv : TermVector CString} (h : tv.entries ≠ []) : 0 < tv.docLength := by
  obtain ⟨e, he⟩ := List.exists_mem_of_ne_nil _ h
  have hle : e.2 ≤ tv.docLength := List.le_sum_of_mem (List.mem_map_of_mem he)
  exact (tv.positive e he).trans_le hle

/-! ## Representation -/

/-- The documents that are in the memtable. -/
def unspilled (docs : List CorpusDoc) : List CorpusDoc := docs.filter fun d => !d.spilled

/-- The documents that are in segments. -/
def inSegments (docs : List CorpusDoc) : List CorpusDoc := docs.filter fun d => d.spilled

theorem mem_unspilled {docs : List CorpusDoc} {d : CorpusDoc} :
    d ∈ unspilled docs ↔ d ∈ docs ∧ d.spilled = false := by
  simp [unspilled]

theorem mem_inSegments {docs : List CorpusDoc} {d : CorpusDoc} :
    d ∈ inSegments docs ↔ d ∈ docs ∧ d.spilled = true := by
  simp [inSegments]

/-- Every document is in one of the two places. -/
theorem unspilled_append_inSegments (docs : List CorpusDoc) :
    (unspilled docs ++ inSegments docs).Perm docs := by
  have hsplit := List.filter_append_perm (fun d : CorpusDoc => !d.spilled) docs
  simpa [unspilled, inSegments] using hsplit

/-- **The index represents the corpus.** -/
structure Represents (ix : StoredIndex CString) (docs : List CorpusDoc) : Prop where
  postings : ∀ term, ix.memtable.postings term =
    (unspilled docs).flatMap fun d => documentPostings d.ctid d.tv.entries d.tenantId term
  terms : ∀ term, (ix.memtable.stringTable.lookup term).isSome →
    ∃ d ∈ unspilled docs, term ∈ d.tv.entries.map Prod.fst
  lengths : ∀ ctid e, ix.memtable.docLengths.lookup ctid = some e ↔
    ∃ d ∈ unspilled docs, d.ctid = ctid ∧ e = ⟨d.tv.docLength, d.tenantId⟩
  rows : ∀ term, (segmentRows ix.view term).Perm ((inSegments docs).flatMap (docRows term))
  ctids : ∀ s ∈ ix.stored, ∀ ctid ∈ s.2.ctids, ∃ d ∈ inSegments docs, d.ctid = ctid
  totalDocs : ix.totalDocs = docs.length
  totalLen : ix.totalLen = corpusLength docs
  stored : ∀ s ∈ ix.stored, s.2.WellFormed
  disjoint : ix.stored.Pairwise fun s s' => List.Disjoint s.2.ctids s'.2.ctids
  usable : ∀ s ∈ ix.stored, ∀ term d, (openStored s).findTerm term = some d →
    EntryUsable (openStored s) d
  roots_nodup : (ix.stored.map Prod.fst).Nodup
  roots_valid : ∀ root ∈ ix.stored.map Prod.fst, root ≠ invalidBlockNumber
  numDocs_le : ((ix.stored.map Prod.snd).map StoredSegment.numDocs).sum ≤ (inSegments docs).length
  terms_le : ((ix.stored.map Prod.snd).map fun seg => seg.dictionary.length).sum ≤
    ((inSegments docs).map fun d => d.tv.entries.length).sum

/-- A loop that keeps some elements. -/
theorem flatMap_ite_singleton {α β : Type} (l : List α) (p : α → Prop) [DecidablePred p]
    (f : α → β) : (l.flatMap fun x => if p x then [f x] else []) =
      (l.filter fun x => decide (p x)).map f := by
  induction l with
  | nil => rfl
  | cons x l ih =>
      rw [List.flatMap_cons, ih, List.filter_cons]
      by_cases hx : p x
      · simp [hx]
      · simp [hx]

/-- The stored document frequency is what a reader of the segment finds. -/
theorem docFreqOf_eq {s : Nat × StoredSegment CString} (hseg : s.2.WellFormed) (term : CString) :
    docFreqOf s.2 term = segmentDocFreq (openStored s) term := by
  unfold docFreqOf segmentDocFreq
  cases hlook : s.2.dictionary.lookup term with
  | none =>
      cases hfind : (openStored s).findTerm term with
      | none => rfl
      | some d =>
          obtain ⟨e, hmem, -⟩ := (findTerm_openStored hseg).1 hfind
          rw [hseg.sorted.lookup_eq_some_iff.2 hmem] at hlook
          cases hlook
  | some e =>
      have hmem := hseg.sorted.lookup_eq_some_iff.1 hlook
      obtain ⟨d, hd⟩ := hseg.entries term e hmem
      rw [(findTerm_openStored hseg).2 ⟨e, hmem, hd⟩]
      obtain ⟨blocks, -, rfl⟩ := Option.map_eq_some_iff.1 hd.decode_eq
      rfl

/-- The length of a memtable document. -/
theorem length_unspilled {docs : List CorpusDoc} {d : CorpusDoc} (hd : d ∈ unspilled docs) :
    d.length = d.tv.docLength := by
  rw [CorpusDoc.length, (mem_unspilled.1 hd).2, if_neg Bool.false_ne_true]

theorem singleLength_unspilled {docs : List CorpusDoc} {d : CorpusDoc} (hd : d ∈ unspilled docs) :
    d.singleLength = d.tv.docLength := by
  rw [CorpusDoc.singleLength, (mem_unspilled.1 hd).2, if_neg Bool.false_ne_true]

/-- The length of a segment document. -/
theorem length_inSegments {docs : List CorpusDoc} {d : CorpusDoc} (hd : d ∈ inSegments docs) :
    d.length = quantisedLength d.tv := by
  rw [CorpusDoc.length, (mem_inSegments.1 hd).2, if_pos rfl]

theorem singleLength_inSegments {docs : List CorpusDoc} {d : CorpusDoc}
    (hd : d ∈ inSegments docs) : d.singleLength = quantisedLength d.tv % 65536 := by
  rw [CorpusDoc.singleLength, (mem_inSegments.1 hd).2, if_pos rfl]

/-! ## What a document adds to the scores -/

section Contributions

variable (P : ScoreParams) (weight : CString → ℚ) (query : List (CString × Nat)) (d : CorpusDoc)

/-- What a document adds, term by term. -/
def docContributions : List (ItemPointer × ℚ) :=
  query.flatMap fun q => if 0 < findTermFrequency d.tv q.1 then
    [(d.ctid, P.score (weight q.1) (findTermFrequency d.tv q.1) d.length * (q.2 : Int))] else []

variable {P weight query d}

theorem ctid_of_mem_docContributions {c : ItemPointer × ℚ}
    (hc : c ∈ docContributions P weight query d) : c.1 = d.ctid := by
  obtain ⟨q, -, hin⟩ := List.mem_flatMap.1 hc
  split at hin
  · rw [List.mem_singleton.1 hin]
  · exact absurd hin List.not_mem_nil

/-- What is added to one document only is one sum. -/
theorem summedScores_of_ctid {l : List (ItemPointer × ℚ)} {ctid : ItemPointer} (hne : l ≠ [])
    (hctid : ∀ c ∈ l, c.1 = ctid) : summedScores l = [(ctid, (l.map Prod.snd).sum)] := by
  have hkeys : l.map Prod.fst = List.replicate l.length ctid :=
    List.eq_replicate_iff.2 ⟨List.length_map _, by simpa using hctid⟩
  have hall : l.filter (·.1 = ctid) = l :=
    List.filter_eq_self.2 fun c hc => decide_eq_true (hctid c hc)
  rw [summedScores, hkeys, List.replicate_dedup (by simpa using hne), List.map_singleton,
    addedScore, hall]

theorem sum_docContributions :
    ((docContributions P weight query d).map Prod.snd).sum =
      vectorScore P weight query d.tv d.length := by
  unfold docContributions vectorScore
  induction query with
  | nil => rfl
  | cons q query ih =>
      rw [List.flatMap_cons, List.map_append, List.sum_append, ih, List.map_cons, List.sum_cons]
      congr 1
      by_cases htf : 0 < findTermFrequency d.tv q.1
      · simp [htf]
      · have hzero : findTermFrequency d.tv q.1 = 0 := by omega
        simp [hzero]

theorem docContributions_ne_nil :
    docContributions P weight query d ≠ [] ↔ Matches query d.tv := by
  unfold docContributions Matches
  simp [List.flatMap_eq_nil_iff, Nat.pos_iff_ne_zero]

variable (P weight query d)

theorem summedScores_docContributions : summedScores (docContributions P weight query d) =
    if Matches query d.tv then [(d.ctid, vectorScore P weight query d.tv d.length)] else [] := by
  by_cases hmatch : Matches query d.tv
  · rw [if_pos hmatch, ← sum_docContributions]
    exact summedScores_of_ctid (docContributions_ne_nil.2 hmatch)
      fun c hc => ctid_of_mem_docContributions hc
  · have hnil : docContributions P weight query d = [] := by
      by_contra hne
      exact hmatch (docContributions_ne_nil.1 hne)
    rw [if_neg hmatch, hnil]
    rfl

end Contributions

/-- Best candidates do not depend on the order of the candidates. -/
theorem BestOf.of_perm {results candidates candidates' : List (ItemPointer × ℚ)} {k : Nat}
    (h : BestOf results candidates k) (hperm : candidates.Perm candidates') :
    BestOf results candidates' k where
  subperm := h.subperm.trans hperm.subperm
  sorted := h.sorted
  scores := by rw [h.scores, ranking_eq_of_perm hperm]
  omitted := fun c hc => h.omitted c (hperm.symm.subset hc)

namespace Represents

variable {ix : StoredIndex CString} {docs : List CorpusDoc} (h : Represents ix docs)
include h

/-- The postings of the memtable, document by document. -/
theorem postings_eq (term : CString) : ix.memtable.postings term =
    ((unspilled docs).filter fun d => decide (0 < findTermFrequency d.tv term)).map fun d =>
      ⟨d.ctid, findTermFrequency d.tv term, d.tenantId⟩ := by
  rw [h.postings, ← flatMap_ite_singleton]
  exact List.flatMap_congr fun d _ => documentPostings_eq d.ctid d.tv d.tenantId term

/-- The rows of the segments, document by document. -/
theorem rows_perm (term : CString) : (segmentRows ix.view term).Perm
    (((inSegments docs).filter fun d => decide (0 < findTermFrequency d.tv term)).map fun d =>
      ⟨d.ctid, findTermFrequency d.tv term, encodeFieldnorm d.tv.docLength⟩) := by
  rw [← flatMap_ite_singleton]
  refine (h.rows term).trans ?_
  rw [List.flatMap_congr fun d _ => docRows_eq term d]

theorem exists_doc_of_posting {term : CString} {p : MemPosting}
    (hp : p ∈ ix.memtable.postings term) :
    ∃ d ∈ unspilled docs, 0 < findTermFrequency d.tv term ∧
      p = ⟨d.ctid, findTermFrequency d.tv term, d.tenantId⟩ := by
  rw [h.postings_eq] at hp
  obtain ⟨d, hd, rfl⟩ := List.mem_map.1 hp
  obtain ⟨hmem, hpos⟩ := List.mem_filter.1 hd
  exact ⟨d, hmem, of_decide_eq_true hpos, rfl⟩

/-- **Document frequencies** are those of the corpus. -/
theorem docFreq_eq (term : CString) :
    (ix.memtable.postings term).length + (segmentRows ix.view term).length =
      corpusDocFreq docs term := by
  rw [h.postings_eq, (h.rows_perm term).length_eq, List.length_map, List.length_map,
    ← List.length_append, ← List.filter_append, corpusDocFreq]
  exact ((unspilled_append_inSegments docs).filter _).length_eq

theorem segments_usable : ∀ r ∈ ix.view.segments, ∀ term e, r.findTerm term = some e →
    EntryUsable r e := by
  intro r hr
  rw [ix.segments_view] at hr
  obtain ⟨s, hs, rfl⟩ := List.mem_map.1 hr
  exact h.usable s hs

theorem unifiedDocFreq_eq (term : CString) :
    tpGetUnifiedDocFreq ix.view term = corpusDocFreq docs term := by
  rw [tpGetUnifiedDocFreq_eq, sum_segmentDocFreq h.segments_usable]
  exact h.docFreq_eq term

variable (hfits : CorpusFits docs)
include hfits

omit h in
/-- The document of a CTID. -/
theorem doc_unique {d d' : CorpusDoc} (hd : d ∈ docs) (hd' : d' ∈ docs) (hctid : d.ctid = d'.ctid) :
    d = d' :=
  List.inj_on_of_nodup_map hfits.ctids_nodup hd hd' hctid

omit h in
theorem unspilled_ctids_nodup : ((unspilled docs).map CorpusDoc.ctid).Nodup :=
  hfits.ctids_nodup.sublist (List.filter_sublist.map _)

/-- The segments can be merged in any way. -/
theorem mergeable : Mergeable (ix.stored.map Prod.snd) where
  wellFormed := by
    intro seg hseg
    obtain ⟨s, hs, rfl⟩ := List.mem_map.1 hseg
    exact h.stored s hs
  disjoint := List.pairwise_map.2 h.disjoint
  numDocs_lt := by
    have hle := h.numDocs_le.trans (List.length_filter_le _ docs)
    have hlt := hfits.documents_lt
    unfold uint32Max at hlt
    omega
  blocks_le := by
    intro term
    have hsum : ((ix.stored.map Prod.snd).map fun seg => docFreqOf seg term).sum =
        (segmentRows ix.view term).length := by
      rw [← sum_segmentDocFreq h.segments_usable, ix.segments_view, List.map_map, List.map_map]
      congr 1
      exact List.map_congr_left fun s hs => docFreqOf_eq (h.stored s hs) term
    have hle := hfits.postings_le term
    rw [← h.docFreq_eq term] at hle
    rw [hsum]
    unfold tpBlockSize at hle ⊢
    omega

/-- What queries rely on. -/
theorem view_wellFormed : ix.view.WellFormed where
  usable := h.segments_usable
  roots_nodup := by
    rw [ix.segments_view, List.map_map]
    exact h.roots_nodup
  roots_valid := by
    intro r hr
    rw [ix.segments_view] at hr
    obtain ⟨s, hs, rfl⟩ := List.mem_map.1 hr
    exact h.roots_valid s.1 (List.mem_map_of_mem hs)
  counted := by
    intro term
    rw [h.unifiedDocFreq_eq]
    exact (corpusDocFreq_le docs term).trans_eq h.totalDocs.symm
  frequency_pos := by
    intro term p hp
    obtain ⟨d, -, hpos, rfl⟩ := h.exists_doc_of_posting hp
    exact hpos
  covered := by
    intro term p hp
    obtain ⟨d, hd, -, rfl⟩ := h.exists_doc_of_posting hp
    exact ⟨_, (h.lengths d.ctid _).2 ⟨d, hd, rfl, rfl⟩,
      docLength_pos (hfits.nonempty d (mem_unspilled.1 hd).1)⟩
  postings_nodup := by
    intro term
    show ((ix.memtable.postings term).map (·.ctid)).Nodup
    rw [h.postings_eq, List.map_map]
    exact (unspilled_ctids_nodup hfits).sublist (List.filter_sublist.map _)
  ctids_nodup := by
    rw [ix.segments_view, List.flatMap_map, List.nodup_flatMap]
    exact ⟨fun s hs => (h.stored s hs).ctids_nodup, h.disjoint⟩
  separate := by
    intro ctid hlookup r hr hin
    obtain ⟨e, he⟩ := Option.isSome_iff_exists.1 hlookup
    obtain ⟨d, hd, hctid, -⟩ := (h.lengths ctid e).1 he
    rw [ix.segments_view] at hr
    obtain ⟨s, hs, rfl⟩ := List.mem_map.1 hr
    obtain ⟨d', hd', hctid'⟩ := h.ctids s hs ctid hin
    obtain ⟨hmem, hno⟩ := mem_unspilled.1 hd
    obtain ⟨hmem', hyes⟩ := mem_inSegments.1 hd'
    -- a document is in one place only
    rw [doc_unique hfits hmem hmem' (hctid.trans hctid'.symm), hyes] at hno
    cases hno

/-- **An index that represents a corpus** can be queried and compacted. -/
theorem wellFormed : ix.WellFormed where
  mergeable := h.mergeable hfits
  numDocs_lt :=
    (h.numDocs_le.trans (List.length_filter_le _ docs)).trans_lt hfits.documents_lt
  terms_lt := by
    refine (h.terms_le.trans ?_).trans_lt hfits.terms_lt
    exact (List.filter_sublist.map _).sum_le_sum fun _ _ => Nat.zero_le _
  view := h.view_wellFormed hfits

/-! ### What a search is offered -/

variable {P : ScoreParams}

omit hfits in
theorem scoreParams_eq : ix.view.scoreParams = corpusParams ix.options docs := by
  have hdocs : ix.view.totalDocs = docs.length := h.totalDocs
  have hlen : ix.view.totalLen = corpusLength docs := h.totalLen
  unfold IndexView.scoreParams corpusParams
  simp only [hdocs, hlen]
  rfl

theorem memtableDocLength_eq {d : CorpusDoc} (hd : d ∈ unspilled docs) :
    memtableDocLength ix.memtable d.ctid = d.tv.docLength := by
  have hlookup := (h.lengths d.ctid _).2 ⟨d, hd, rfl, rfl⟩
  have hpos := docLength_pos (hfits.nonempty d (mem_unspilled.1 hd).1)
  have hneg : ¬ ((d.tv.docLength : Int) ≤ 0) := by omega
  simp only [memtableDocLength, tpSourceGetDocLength, hlookup, hneg, if_false]

omit hfits in
/-- What memtable and segments make of the postings of a term, document by document. -/
theorem sources_perm {β : Type} (term : CString) {fromMemtable : MemPosting → β}
    {fromRow : PostingRow → β} {fromDoc : CorpusDoc → β}
    (hmemtable : ∀ d ∈ unspilled docs,
      fromMemtable ⟨d.ctid, findTermFrequency d.tv term, d.tenantId⟩ = fromDoc d)
    (hrow : ∀ d ∈ inSegments docs,
      fromRow ⟨d.ctid, findTermFrequency d.tv term, encodeFieldnorm d.tv.docLength⟩ = fromDoc d) :
    ((ix.memtable.postings term).map fromMemtable ++ (segmentRows ix.view term).map fromRow).Perm
      ((docs.filter fun d => decide (0 < findTermFrequency d.tv term)).map fromDoc) := by
  have hpostings : (ix.memtable.postings term).map fromMemtable =
      ((unspilled docs).filter fun d => decide (0 < findTermFrequency d.tv term)).map fromDoc := by
    rw [h.postings_eq, List.map_map]
    exact List.map_congr_left fun d hd => hmemtable d (List.mem_filter.1 hd).1
  have hrows : ((segmentRows ix.view term).map fromRow).Perm
      (((inSegments docs).filter fun d => decide (0 < findTermFrequency d.tv term)).map
        fromDoc) := by
    refine ((h.rows_perm term).map _).trans (List.Perm.of_eq ?_)
    rw [List.map_map]
    exact List.map_congr_left fun d hd => hrow d (List.mem_filter.1 hd).1
  refine ((List.Perm.of_eq hpostings).append hrows).trans ?_
  rw [← List.map_append, ← List.filter_append]
  exact ((unspilled_append_inSegments docs).filter _).map _

/-- The candidates of one term are the documents that have it. -/
theorem singleCandidates_perm (term : CString) (idf : ℚ) :
    (singleTermCandidates P ix.view term idf).Perm
      ((docs.filter fun d => decide (0 < findTermFrequency d.tv term)).map fun d =>
        (d.ctid, P.score idf (findTermFrequency d.tv term) d.singleLength)) := by
  unfold singleTermCandidates
  simp only [singleDocs_eq_rows, ← List.map_flatMap]
  refine h.sources_perm term ?_ ?_
  · intro d hd
    have hlen : memtableDocLength ix.view.memtable d.ctid = d.tv.docLength :=
      h.memtableDocLength_eq hfits hd
    simp only [hlen, singleLength_unspilled hd]
  · intro d hd
    rw [singleLength_inSegments hd]
    rfl

/-- What memtable and segments add to the scores for one term of a query. -/
theorem contributions_perm (term : CString) (idf : ℚ) (queryFreq : Int) :
    (((ix.memtable.postings term).map fun p =>
        (p.ctid, P.score idf p.frequency (memtableDocLength ix.memtable p.ctid) * queryFreq)) ++
      (segmentRows ix.view term).map fun row =>
        (row.ctid, P.score idf row.posting.frequency row.posting.docLength * queryFreq)).Perm
      (docs.flatMap fun d => if 0 < findTermFrequency d.tv term then
        [(d.ctid, P.score idf (findTermFrequency d.tv term) d.length * queryFreq)] else []) := by
  rw [flatMap_ite_singleton]
  refine h.sources_perm term ?_ ?_
  · intro d hd
    simp only [h.memtableDocLength_eq hfits hd, length_unspilled hd]
  · intro d hd
    rw [length_inSegments hd]
    rfl

/-- The documents with a term of a query of several terms, each with the sum of its terms. -/
theorem multiCandidates_perm (weight : CString → ℚ) (query : List (CString × Nat)) :
    (multiTermCandidates P ix.view (weightedTerms weight query)).Perm
      ((docs.filter fun d => decide (Matches query d.tv)).map fun d =>
        (d.ctid, vectorScore P weight query d.tv d.length)) := by
  have hsources : (memtableContributions P ix.memtable (weightedTerms weight query) ++
      ix.view.segments.flatMap fun r =>
        segmentContributions P r (weightedTerms weight query)).Perm
      (docs.flatMap fun d => docContributions P weight query d) := by
    refine ((contributions_perm_rows P ix.view _).append_left _).trans ?_
    refine (List.flatMap_append_perm _ _ _).trans ?_
    unfold weightedTerms
    rw [List.flatMap_map]
    refine (List.Perm.flatMap_left _ fun q _ =>
      h.contributions_perm hfits q.1 (weight q.1) q.2).trans ?_
    exact flatMap_flatMap_perm _ _ _
  have hapart : docs.Pairwise fun d d' => ∀ c ∈ docContributions P weight query d,
      ∀ c' ∈ docContributions P weight query d', c.1 ≠ c'.1 := by
    have hctids : docs.Pairwise fun d d' => d.ctid ≠ d'.ctid := List.pairwise_map.1 hfits.ctids_nodup
    refine hctids.imp fun hne c hc c' hc' => ?_
    rw [ctid_of_mem_docContributions hc, ctid_of_mem_docContributions hc']
    exact hne
  refine (summedScores_perm_multi (h.view_wellFormed hfits) _).symm.trans ?_
  refine (summedScores_perm hsources).trans ?_
  refine (summedScores_flatMap hapart).trans ?_
  rw [List.flatMap_congr fun d _ => summedScores_docContributions P weight query d,
    flatMap_ite_singleton]

omit hfits in
theorem indexIdf_eq (log : LogFunction) : indexIdf log ix.view = corpusIdf log docs := by
  funext term
  have hdocs : ix.view.totalDocs = docs.length := h.totalDocs
  rw [indexIdf, h.unifiedDocFreq_eq, hdocs, corpusIdf]

/-- **The candidates** of a search of the index are those of the corpus. -/
theorem candidates_perm (log : LogFunction) (query : List (CString × Nat)) :
    (queryCandidates log P ix.view query).Perm (corpusCandidates log P docs query) := by
  unfold queryCandidates corpusCandidates scanScore
  split
  · rename_i term freq
    rw [h.indexIdf_eq]
    simpa [Matches] using h.singleCandidates_perm hfits (P := P) term (corpusIdf log docs term)
  · refine (h.multiCandidates_perm hfits (P := P) _ query).trans (List.Perm.of_eq ?_)
    apply List.map_congr_left
    intro d hd
    have hin := (List.mem_filter.1 hd).1
    rw [← h.indexIdf_eq]
    congr 1
    refine vectorScore_congr (fun q _ htf => searchIdf_eq ?_) _
    rw [h.unifiedDocFreq_eq]
    exact List.length_pos_of_mem (List.mem_filter.2 ⟨hin, decide_eq_true htf⟩)

/-- **The search of the index is the search of the corpus**, when the limit leaves room for
every document that matches. -/
theorem search_eq (qs : Qsort) (hs : HashSeq) (log : LogFunction) {query : List (CString × Nat)}
    (hfreq : ∀ q ∈ query, 0 < q.2) {k : Nat}
    (hk : (docs.filter fun d => decide (Matches query d.tv)).length ≤ k) :
    tpScoreDocumentsBmw qs hs log ix.view query k =
      some (corpusSearch log ix.options docs query) := by
  have hparams := h.scoreParams_eq
  unfold corpusSearch
  cases hP : corpusParams ix.options docs with
  | none =>
      rw [hP] at hparams
      unfold tpScoreDocumentsBmw
      rw [hparams]
      exact ite_self _
  | some P =>
      have hperm := h.candidates_perm hfits (P := P) log query
      have hroom : (queryCandidates log P ix.view query).length ≤ k := by
        rw [hperm.length_eq, corpusCandidates, List.length_map]
        exact hk
      rw [tpScoreDocumentsBmw_all qs hs (h.view_wellFormed hfits) (hparams.trans hP) hfreq hroom,
        ranking_eq_of_perm hperm]

/-- **For any limit**, over sound block maxima, the search of the index returns best documents
of the corpus. -/
theorem search_best (qs : Qsort) (hs : HashSeq) (log : LogFunction)
    (hP : corpusParams ix.options docs = some P) {query : List (CString × Nat)}
    (hfreq : ∀ q ∈ query, 0 < q.2) (hsound : ix.view.BoundsSound log P query) (k : Nat) :
    ∃ results, tpScoreDocumentsBmw qs hs log ix.view query k = some results ∧
      BestOf results (corpusCandidates log P docs query) k := by
  obtain ⟨results, hrun, hbest⟩ := tpScoreDocumentsBmw_best qs hs log (h.view_wellFormed hfits)
    (h.scoreParams_eq.trans hP) hfreq hsound k
  exact ⟨results, hrun, hbest.of_perm (h.candidates_perm hfits log query)⟩

end Represents

end PgTextsearch.Query
