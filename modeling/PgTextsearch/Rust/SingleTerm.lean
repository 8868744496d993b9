import PgTextsearch.Query.Scoring
import PgTextsearch.Rust.SegmentReader
import PgTextsearch.Rust.TermState
import PgTextsearch.Rust.TopKHeap

/-!
# The Rust single-term search (`rust/src/bmw/mod.rs`)

The port scores one posting list block by block.  A block whose maximum does not beat the
threshold of the heap is not loaded; every other posting is offered to the heap unless its score
is not positive or the heap is full of better ones.

## Main results

* `scoreBlock_spec`, `scoreSingleTermBmw_spec` — over sound block maxima a skipped block changes
  nothing, and the heap ends with the largest scores.
* `mem_scoreSingleTermBmw` — whatever the maxima, what is kept is a posting with its score.
* `scoreSingleTermBmw_stats` — every block is counted as scanned or as skipped.
* `scoreSingleTermBmw_of_segment` — the search of a term of a built segment.
-/

namespace PgTextsearch.Rust

open PgTextsearch.Query PgTextsearch.Verified
open PgTextsearch.Segment (decodeFieldnorm)

/-- `BlockInfo`. -/
structure BlockInfo where
  lastDocId : Nat
  docCount : Nat
  blockMaxTf : Nat
  blockMaxNorm : Fin 256
  postingOffset : Nat
  flags : Nat
  tenantMode : Nat
  tenantIdLow16 : Nat
  deriving DecidableEq, Repr

/-- `BMWStats`. -/
structure BMWStats where
  blocksScanned : Nat
  blocksSkipped : Nat
  memtableDocs : Nat
  segmentDocsScored : Nat
  docsInResults : Nat
  seeksPerformed : Nat
  deriving DecidableEq, Repr

/-- The parameters of a search: the IDF of the term, `k1`, `b` and the average length. -/
structure SearchParams where
  idf : ℚ
  k1 : ℚ
  b : ℚ
  avgdl : ℚ

namespace SearchParams

variable (P : SearchParams)

/-- The score of a posting. -/
def score (p : BlockPosting) : ℚ :=
  bm25Score P.idf p.frequency (decodeFieldnorm (Fin.ofNat 256 p.fieldnorm)) P.k1 P.b P.avgdl

/-- The maximum of a block. -/
def blockMax (info : BlockInfo) : ℚ :=
  blockMaxScore info.blockMaxTf info.blockMaxNorm P.idf P.k1 P.b P.avgdl

end SearchParams

/-! ## The search -/

/-- One round of the loop over the postings of a block. -/
def scorePosting (P : SearchParams) (segBlock : Nat) (s : TopKHeap × BMWStats)
    (posting : BlockPosting) : TopKHeap × BMWStats :=
  let score := P.score posting
  (if score > 0 ∧ s.1.dominated score = false then s.1.addSegment segBlock posting.docId score
    else s.1,
    { s.2 with segmentDocsScored := s.2.segmentDocsScored + 1 })

/-- One round of the loop over the blocks. -/
def scoreBlock (P : SearchParams) (segBlock : Nat) (loadBlock : Nat → List BlockPosting)
    (s : TopKHeap × BMWStats) (block : BlockInfo × Nat) : TopKHeap × BMWStats :=
  if P.blockMax block.1 ≤ s.1.threshold then
    (s.1, { s.2 with blocksSkipped := s.2.blocksSkipped + 1 })
  else
    (loadBlock block.2).foldl (scorePosting P segBlock)
      (s.1, { s.2 with blocksScanned := s.2.blocksScanned + 1 })

/-- `score_single_term_bmw`. -/
def scoreSingleTermBmw (P : SearchParams) (heap : TopKHeap) (blocks : List BlockInfo)
    (segBlock : Nat) (loadBlock : Nat → List BlockPosting) (stats : BMWStats) :
    TopKHeap × BMWStats :=
  blocks.zipIdx.foldl (scoreBlock P segBlock loadBlock) (heap, stats)

/-- The order of `extract_sorted`: descending scores, then ascending CTIDs. -/
def sortsBefore (a b : ScoredDoc) : Bool :=
  if a.score ≠ b.score then decide (b.score < a.score)
  else decide (a.ctidPage < b.ctidPage ∨ a.ctidPage = b.ctidPage ∧ a.ctidOffset ≤ b.ctidOffset)

/-- `extract_sorted`; the sort is stable. -/
def TopKHeap.extractSorted (h : TopKHeap) : List ScoredDoc × TopKHeap :=
  (h.entries.mergeSort sortsBefore, { h with entries := [] })

/-! ## The heap over the blocks -/

/-- The scores of the heap. -/
def TopKHeap.scores (h : TopKHeap) : Multiset ℚ := (h.entries.map ScoredDoc.score : List ℚ)

/-- The scores that postings offer. -/
def offeredScores (P : SearchParams) (ps : List BlockPosting) : Multiset ℚ :=
  ((ps.map P.score).filter fun score => decide (0 < score) : List ℚ)

@[simp] theorem offeredScores_nil (P : SearchParams) : offeredScores P [] = 0 := rfl

theorem offeredScores_append (P : SearchParams) (ps qs : List BlockPosting) :
    offeredScores P (ps ++ qs) = offeredScores P ps + offeredScores P qs := by
  rw [offeredScores, List.map_append, List.filter_append, ← Multiset.coe_add]
  rfl

theorem mem_offeredScores {P : SearchParams} {ps : List BlockPosting} {x : ℚ} :
    x ∈ offeredScores P ps ↔ (∃ p ∈ ps, P.score p = x) ∧ 0 < x := by
  rw [offeredScores, Multiset.mem_coe, List.mem_filter, List.mem_map, decide_eq_true_iff]

/-- A heap after postings were offered to it. -/
structure Offered (P : SearchParams) (h : TopKHeap) (ps : List BlockPosting) (h' : TopKHeap) :
    Prop where
  valid : h'.Valid
  capacity_eq : h'.capacity = h.capacity
  scores_eq : h'.scores = kLargest h.capacity (h.scores + offeredScores P ps)

section Heap

variable {P : SearchParams} {h h' h'' : TopKHeap} {ps qs : List BlockPosting} {segBlock : Nat}

theorem kLargest_scores (hv : h.Valid) : kLargest h.capacity h.scores = h.scores := by
  refine kLargest_of_card_le ?_
  rw [TopKHeap.scores, Multiset.coe_card, List.length_map]
  exact hv.size_le

/-- Scores that do not beat a full heap leave it as it is. -/
theorem kLargest_scores_add (hv : h.Valid) {r : Multiset ℚ}
    (hr : ∀ x ∈ r, ¬ h.entries.length < h.capacity ∧ x ≤ h.root.score) :
    kLargest h.capacity (h.scores + r) = h.scores := by
  rcases r.empty_or_exists_mem with rfl | ⟨x, hx⟩
  · rw [add_zero, kLargest_scores hv]
  have hcard : Multiset.card h.scores = h.capacity := hv.card_keys (hr x hx).1
  rw [kLargest_add_of_le hcard.ge, kLargest_scores hv]
  intro y hy z hz
  obtain ⟨e, he, rfl⟩ := List.mem_map.1 (Multiset.mem_coe.1 (mem_of_mem_kLargest hz))
  exact (hr y hy).2.trans (hv.root_le he)

namespace Offered

theorem refl (hv : h.Valid) : Offered P h [] h :=
  ⟨hv, rfl, by rw [offeredScores_nil, add_zero, kLargest_scores hv]⟩

theorem trans (h₁ : Offered P h ps h') (h₂ : Offered P h' qs h'') : Offered P h (ps ++ qs) h'' where
  valid := h₂.valid
  capacity_eq := h₂.capacity_eq.trans h₁.capacity_eq
  scores_eq := by
    rw [h₂.scores_eq, h₁.capacity_eq, h₁.scores_eq, kLargest_kLargest_add, offeredScores_append,
      add_assoc]

end Offered

/-- **One posting.** -/
theorem scorePosting_offered (hv : h.Valid) (stats : BMWStats) (p : BlockPosting) :
    Offered P h [p] (scorePosting P segBlock (h, stats) p).1 := by
  unfold scorePosting
  dsimp only
  by_cases hpos : 0 < P.score p
  · have hoffered : offeredScores P [p] = {P.score p} := by simp [offeredScores, hpos]
    by_cases hdom : h.dominated (P.score p) = true
    · rw [if_neg (by simp [hdom])]
      obtain ⟨hfull, hlt⟩ := of_decide_eq_true hdom
      refine ⟨hv, rfl, (kLargest_scores_add hv ?_).symm⟩
      intro x hx
      rw [hoffered, Multiset.mem_singleton] at hx
      exact ⟨not_lt.2 hfull, hx.trans_le hlt.le⟩
    · rw [if_pos ⟨hpos, by simpa using hdom⟩]
      obtain ⟨hvalid, hscores⟩ := TopKHeap.add_spec hv
        (TopKHeap.segmentDoc segBlock p.docId (P.score p))
      refine ⟨hvalid, TopKHeap.add_capacity _ _, hscores.trans ?_⟩
      rw [hoffered, add_comm, Multiset.singleton_add]
      rfl
  · rw [if_neg (by simp [hpos])]
    have hoffered : offeredScores P [p] = 0 := by simp [offeredScores, hpos]
    refine ⟨hv, rfl, ?_⟩
    rw [hoffered, add_zero, kLargest_scores hv]

/-- **The postings of a block.** -/
theorem foldl_scorePosting_offered (hv : h.Valid) (stats : BMWStats) (ps : List BlockPosting) :
    Offered P h ps (ps.foldl (scorePosting P segBlock) (h, stats)).1 := by
  induction ps generalizing h stats with
  | nil => exact Offered.refl hv
  | cons p ps ih =>
      have hfirst : Offered P h [p] (scorePosting P segBlock (h, stats) p).1 :=
        scorePosting_offered hv stats p
      exact hfirst.trans (ih hfirst.valid _)

/-- **One block**: a block that is skipped has nothing to offer. -/
theorem scoreBlock_spec (hv : h.Valid) (stats : BMWStats) {loadBlock : Nat → List BlockPosting}
    {block : BlockInfo × Nat} (hsound : ∀ p ∈ loadBlock block.2, P.score p ≤ P.blockMax block.1) :
    Offered P h (loadBlock block.2) (scoreBlock P segBlock loadBlock (h, stats) block).1 := by
  unfold scoreBlock
  dsimp only
  split
  · rename_i hskip
    refine ⟨hv, rfl, (kLargest_scores_add hv ?_).symm⟩
    intro x hx
    obtain ⟨⟨p, hp, rfl⟩, hpos⟩ := mem_offeredScores.1 hx
    have hle := (hsound p hp).trans hskip
    unfold TopKHeap.threshold at hle
    split at hle
    · rename_i hfull
      exact ⟨not_lt.2 hfull, hle⟩
    · exact absurd hpos (not_lt.2 hle)
  · exact foldl_scorePosting_offered hv _ _

/-- **The search** of blocks with sound maxima. -/
theorem scoreSingleTermBmw_spec (hv : h.Valid) {blocks : List BlockInfo}
    {loadBlock : Nat → List BlockPosting}
    (hsound : ∀ block ∈ blocks.zipIdx, ∀ p ∈ loadBlock block.2, P.score p ≤ P.blockMax block.1)
    (stats : BMWStats) :
    Offered P h ((List.range blocks.length).flatMap loadBlock)
      (scoreSingleTermBmw P h blocks segBlock loadBlock stats).1 := by
  have hrun : ∀ (l : List (BlockInfo × Nat)) (s : TopKHeap × BMWStats), s.1.Valid →
      (∀ block ∈ l, ∀ p ∈ loadBlock block.2, P.score p ≤ P.blockMax block.1) →
      Offered P s.1 (l.flatMap fun block => loadBlock block.2)
        (l.foldl (scoreBlock P segBlock loadBlock) s).1 := by
    intro l
    induction l with
    | nil => exact fun s hv _ => Offered.refl hv
    | cons block l ih =>
        intro s hv hsound
        have hfirst : Offered P s.1 (loadBlock block.2)
            (scoreBlock P segBlock loadBlock s block).1 :=
          scoreBlock_spec hv s.2 (hsound block List.mem_cons_self)
        exact hfirst.trans (ih _ hfirst.valid fun b hb => hsound b (List.mem_cons_of_mem _ hb))
  have hindex : (blocks.zipIdx.flatMap fun block => loadBlock block.2) =
      (List.range blocks.length).flatMap loadBlock := by
    rw [List.range_eq_range', ← List.zipIdx_map_snd, List.flatMap_map]
  rw [← hindex]
  exact hrun blocks.zipIdx (h, stats) hv hsound

end Heap

/-! ## What is kept, and the counters -/

section Kept

variable {P : SearchParams} {segBlock : Nat} {loadBlock : Nat → List BlockPosting}

/-- The entry of a posting. -/
def ofPosting (P : SearchParams) (segBlock : Nat) (p : BlockPosting) : ScoredDoc :=
  TopKHeap.segmentDoc segBlock p.docId (P.score p)

theorem mem_add {h : TopKHeap} {doc e : ScoredDoc} (he : e ∈ (h.add doc).entries) :
    e = doc ∨ e ∈ h.entries := by
  rw [TopKHeap.add_entries] at he
  unfold BoundedHeap.add at he
  split at he
  · exact List.mem_cons.1 ((BoundedHeap.push_perm _ _ _).mem_iff.1 he)
  split at he
  · rename_i hbeats
    have hne : h.entries ≠ [] := by
      intro hnil
      simp [TopKHeap.beatsRoot, hnil] at hbeats
    obtain ⟨tail, htail, hperm⟩ := BoundedHeap.replace_perm TopKHeap.heapLess doc hne
    cases List.mem_cons.1 (hperm.mem_iff.1 he) with
    | inl heq => exact Or.inl heq
    | inr hin => exact Or.inr (htail ▸ List.mem_cons_of_mem _ hin)
  · exact Or.inr he

theorem mem_scorePosting {s : TopKHeap × BMWStats} {p : BlockPosting} {e : ScoredDoc}
    (he : e ∈ (scorePosting P segBlock s p).1.entries) :
    e ∈ s.1.entries ∨ 0 < P.score p ∧ e = ofPosting P segBlock p := by
  unfold scorePosting at he
  dsimp only at he
  split at he
  · rename_i hoffer
    cases mem_add he with
    | inl heq => exact Or.inr ⟨hoffer.1, heq⟩
    | inr hin => exact Or.inl hin
  · exact Or.inl he

/-- **What is kept** was there before or is a loaded posting with its own score. -/
theorem mem_scoreSingleTermBmw {h : TopKHeap} {blocks : List BlockInfo} {stats : BMWStats}
    {e : ScoredDoc}
    (he : e ∈ (scoreSingleTermBmw P h blocks segBlock loadBlock stats).1.entries) :
    e ∈ h.entries ∨ ∃ p ∈ (List.range blocks.length).flatMap loadBlock,
      0 < P.score p ∧ e = ofPosting P segBlock p := by
  have hblock : ∀ (ps : List BlockPosting) (s : TopKHeap × BMWStats),
      e ∈ (ps.foldl (scorePosting P segBlock) s).1.entries →
        e ∈ s.1.entries ∨ ∃ p ∈ ps, 0 < P.score p ∧ e = ofPosting P segBlock p := by
    intro ps
    induction ps with
    | nil => exact fun s he => Or.inl he
    | cons p ps ih =>
        intro s he
        rcases ih _ he with hin | ⟨q, hq, hkept⟩
        · cases mem_scorePosting hin with
          | inl hin => exact Or.inl hin
          | inr hkept => exact Or.inr ⟨p, List.mem_cons_self, hkept⟩
        · exact Or.inr ⟨q, List.mem_cons_of_mem _ hq, hkept⟩
  have hrun : ∀ (l : List (BlockInfo × Nat)) (s : TopKHeap × BMWStats),
      (∀ block ∈ l, block.2 < blocks.length) →
      e ∈ (l.foldl (scoreBlock P segBlock loadBlock) s).1.entries →
        e ∈ s.1.entries ∨ ∃ p ∈ (List.range blocks.length).flatMap loadBlock,
          0 < P.score p ∧ e = ofPosting P segBlock p := by
    intro l
    induction l with
    | nil => exact fun s _ he => Or.inl he
    | cons block l ih =>
        intro s hlt he
        rcases ih _ (fun b hb => hlt b (List.mem_cons_of_mem _ hb)) he with hin | hkept
        · unfold scoreBlock at hin
          split at hin
          · exact Or.inl hin
          · rcases hblock _ _ hin with hin | ⟨p, hp, hkept⟩
            · exact Or.inl hin
            · exact Or.inr ⟨p, List.mem_flatMap.2 ⟨block.2,
                List.mem_range.2 (hlt block List.mem_cons_self), hp⟩, hkept⟩
        · exact Or.inr hkept
  refine hrun blocks.zipIdx (h, stats) (fun block hb => ?_) he
  have hlt := (List.mem_zipIdx hb).2.1
  omega

/-- **The counters**: every block is scanned or skipped, and other counters stay. -/
theorem scoreSingleTermBmw_stats (h : TopKHeap) (blocks : List BlockInfo) (stats : BMWStats) :
    ∃ scanned skipped scored, scanned + skipped = blocks.length ∧
      (scoreSingleTermBmw P h blocks segBlock loadBlock stats).2 =
        { stats with
          blocksScanned := stats.blocksScanned + scanned
          blocksSkipped := stats.blocksSkipped + skipped
          segmentDocsScored := stats.segmentDocsScored + scored } := by
  have hblock : ∀ (ps : List BlockPosting) (s : TopKHeap × BMWStats),
      (ps.foldl (scorePosting P segBlock) s).2 =
        { s.2 with segmentDocsScored := s.2.segmentDocsScored + ps.length } := by
    intro ps
    induction ps with
    | nil => exact fun _ => rfl
    | cons p ps ih =>
        intro s
        rw [List.foldl_cons, ih, List.length_cons, Nat.add_comm ps.length 1, ← Nat.add_assoc]
        rfl
  have hrun : ∀ (l : List (BlockInfo × Nat)) (s : TopKHeap × BMWStats),
      ∃ scanned skipped scored, scanned + skipped = l.length ∧
        (l.foldl (scoreBlock P segBlock loadBlock) s).2 =
          { s.2 with
            blocksScanned := s.2.blocksScanned + scanned
            blocksSkipped := s.2.blocksSkipped + skipped
            segmentDocsScored := s.2.segmentDocsScored + scored } := by
    intro l
    induction l with
    | nil => exact fun s => ⟨0, 0, 0, rfl, rfl⟩
    | cons block l ih =>
        intro s
        obtain ⟨scanned, skipped, scored, hsum, hrest⟩ := ih (scoreBlock P segBlock loadBlock s block)
        by_cases hskip : P.blockMax block.1 ≤ s.1.threshold
        · refine ⟨scanned, skipped + 1, scored, by rw [List.length_cons]; omega, ?_⟩
          rw [List.foldl_cons, hrest, scoreBlock, if_pos hskip, Nat.add_comm skipped 1,
            ← Nat.add_assoc]
        · refine ⟨scanned + 1, skipped, (loadBlock block.2).length + scored,
            by rw [List.length_cons]; omega, ?_⟩
          rw [List.foldl_cons, hrest, scoreBlock, if_neg hskip, hblock, Nat.add_comm scanned 1,
            ← Nat.add_assoc, ← Nat.add_assoc]
  obtain ⟨scanned, skipped, scored, hsum, hrest⟩ := hrun blocks.zipIdx (h, stats)
  exact ⟨scanned, skipped, scored, hsum.trans List.length_zipIdx, hrest⟩

end Kept

/-! ## Extraction -/

theorem sortsBefore_iff (a b : ScoredDoc) : sortsBefore a b = true ↔
    b.score < a.score ∨ a.score = b.score ∧
      (a.ctidPage < b.ctidPage ∨ a.ctidPage = b.ctidPage ∧ a.ctidOffset ≤ b.ctidOffset) := by
  unfold sortsBefore
  split
  · rename_i hne
    rw [decide_eq_true_iff]
    exact ⟨Or.inl, fun h => h.resolve_right fun h => hne h.1⟩
  · rename_i heq
    have hsame : a.score = b.score := not_not.1 heq
    rw [decide_eq_true_iff]
    exact ⟨fun h => Or.inr ⟨hsame, h⟩, fun h => (h.resolve_left hsame.symm.not_lt).2⟩

/-- **Extraction** gives the entries in descending order of their scores. -/
theorem extractSorted_spec (h : TopKHeap) :
    h.extractSorted.1.Perm h.entries ∧
      h.extractSorted.1.Pairwise (fun a b => b.score ≤ a.score) := by
  refine ⟨List.mergeSort_perm _ _, ?_⟩
  have hsorted : h.extractSorted.1.Pairwise fun a b => sortsBefore a b = true := by
    refine List.pairwise_mergeSort ?_ ?_ h.entries
    · intro a b c hab hbc
      rw [sortsBefore_iff] at hab hbc ⊢
      grind
    · intro a b
      rw [Bool.or_eq_true, sortsBefore_iff, sortsBefore_iff]
      grind
  refine hsorted.imp fun {a b} hab => ?_
  cases (sortsBefore_iff a b).1 hab with
  | inl hlt => exact hlt.le
  | inr heq => exact heq.1.ge

/-! ## A term of a built segment -/

section Segment

open PgTextsearch.RustSegment PgTextsearch.Segment.File

/-- The posting that a decoded block has. -/
def BlockPosting.ofBlock (p : Segment.BlockPosting) : BlockPosting :=
  ⟨p.docId, p.frequency, p.fieldnorm⟩

/-- What the search takes from a skip entry. -/
def BlockInfo.ofSkip (skip : SkipRecord) : BlockInfo where
  lastDocId := skip.skip.lastDocId
  docCount := skip.skip.docCount
  blockMaxTf := skip.skip.blockMaxTf
  blockMaxNorm := skip.skip.blockMaxNorm
  postingOffset := skip.postingOffset
  flags := skip.flags
  tenantMode := tenantModeByte skip.skip.tenantMode
  tenantIdLow16 := skip.skip.tenantIdLow

/-- The blocks of a search are those of a term in a segment: the skip entries that its
dictionary entry points to, and the postings read at the offsets they give. -/
def ReadsTerm (data : List (Fin 256)) (header : TpSegmentHeader) (term : List (Fin 256))
    (blocks : List BlockInfo) (loadBlock : Nat → List BlockPosting) : Prop :=
  ∃ entry, lookupTerm data header.dictionaryOffset header.stringsOffset header.entriesOffset term =
      .ok (some entry) ∧ blocks.length = entry.blockCount ∧
    ∀ j info, blocks[j]? = some info → ∃ skip block,
      readSkipEntry data (header.skipIndexOffset + entry.skipIndexOffset + j * skipEntrySize) =
          some skip ∧
        info = BlockInfo.ofSkip skip ∧
        readPostingBlock (data.drop skip.postingOffset) skip = some block ∧
        loadBlock j = block.map BlockPosting.ofBlock

/-- The blocks that are read are the postings of the term, in order. -/
theorem ReadsTerm.postings_eq {data : List (Fin 256)} {header : TpSegmentHeader}
    {term : List (Fin 256)} {blocks : List BlockInfo} {loadBlock : Nat → List BlockPosting}
    {postings : List RustSegment.PostingEntry} (hreads : ReadsTerm data header term blocks loadBlock)
    (hfinds : FindsTerm data header term postings) :
    (List.range blocks.length).flatMap loadBlock =
      postings.map fun p => BlockPosting.ofBlock p.block := by
  obtain ⟨entry, hlookup, hlen, hblocks⟩ := hreads
  obtain ⟨entry', stored, hlookup', -, hcount, hflat, hstored⟩ := hfinds
  rw [hlookup] at hlookup'
  cases hlookup'
  have hsame : stored.length = blocks.length := hcount.symm.trans hlen.symm
  have hload : (List.range blocks.length).map loadBlock =
      stored.map fun block => block.map BlockPosting.ofBlock := by
    apply List.ext_getElem
    · rw [List.length_map, List.length_range, List.length_map, hsame]
    · intro j hj hj'
      rw [List.length_map, List.length_range] at hj
      rw [List.length_map] at hj'
      obtain ⟨skip, block, hskip, -, hread, hload⟩ := hblocks j _ (List.getElem?_eq_getElem hj)
      obtain ⟨skip', hskip', -, hread'⟩ := hstored j _ (List.getElem?_eq_getElem hj')
      rw [hskip] at hskip'
      cases hskip'
      rw [hread] at hread'
      cases hread'
      rw [List.getElem_map, List.getElem_range, List.getElem_map, hload]
  calc (List.range blocks.length).flatMap loadBlock
      = (stored.map fun block => block.map BlockPosting.ofBlock).flatten := by
        rw [List.flatMap_def, hload]
    _ = stored.flatten.map BlockPosting.ofBlock := List.map_flatten.symm
    _ = postings.map fun p => BlockPosting.ofBlock p.block := by
        rw [hflat, List.map_map]
        rfl

/-- **Searching a built segment.**  The blocks of a term of a built segment are given to the
search, with whatever results the heap has from before.  Every entry that is extracted was there
before or is a posting of the term with its score.  If the stored maxima bound the scores of
their blocks, the extracted scores are, in descending order, the largest of those from before
and the positive ones of all postings of the term. -/
theorem scoreSingleTermBmw_of_segment (env : BuildEnv) {terms : List (List (Fin 256))}
    {lists : List (List RustSegment.PostingEntry)} (hlists : ∀ postings ∈ lists, ValidList postings)
    (hlen : lists.length = terms.length) (hsorted : terms.Pairwise (· < ·))
    {data : List (Fin 256)} (hbuild : buildSegment env terms lists = some data)
    (hsmall : data.length < 2 ^ 32) {header : TpSegmentHeader}
    (hheader : readHeader data = some header) {n : Nat} {term : List (Fin 256)}
    {postings : List RustSegment.PostingEntry} (hterm : terms[n]? = some term)
    (hpostings : lists[n]? = some postings) {blocks : List BlockInfo}
    {loadBlock : Nat → List BlockPosting} (hreads : ReadsTerm data header term blocks loadBlock)
    (P : SearchParams) {h : TopKHeap} (hv : h.Valid) (segBlock : Nat) (stats : BMWStats) :
    (∀ e ∈ (scoreSingleTermBmw P h blocks segBlock loadBlock stats).1.extractSorted.1,
        e ∈ h.entries ∨ ∃ p ∈ postings, e = ofPosting P segBlock (BlockPosting.ofBlock p.block)) ∧
      ((∀ block ∈ blocks.zipIdx, ∀ p ∈ loadBlock block.2, P.score p ≤ P.blockMax block.1) →
        (scoreSingleTermBmw P h blocks segBlock loadBlock stats).1.extractSorted.1.map
            ScoredDoc.score =
          (kLargest h.capacity (h.scores + offeredScores P
            (postings.map fun p => BlockPosting.ofBlock p.block))).sort (fun a b => b ≤ a)) := by
  obtain ⟨header', hheader', hfound, -⟩ :=
    image_reads_back env hlists hlen hsorted hbuild hsmall
  rw [hheader] at hheader'
  cases hheader'
  have hposted := hreads.postings_eq (hfound n term postings hterm hpostings)
  have hextract := extractSorted_spec
    (scoreSingleTermBmw P h blocks segBlock loadBlock stats).1
  constructor
  · intro e he
    rcases mem_scoreSingleTermBmw (hextract.1.mem_iff.1 he) with hin | ⟨q, hq, -, hkept⟩
    · exact Or.inl hin
    · rw [hposted] at hq
      obtain ⟨p, hp, rfl⟩ := List.mem_map.1 hq
      exact Or.inr ⟨p, hp, hkept⟩
  · intro hsound
    have hoffered : Offered P h ((List.range blocks.length).flatMap loadBlock)
        (scoreSingleTermBmw P h blocks segBlock loadBlock stats).1 :=
      scoreSingleTermBmw_spec hv hsound stats
    have hscores := hoffered.scores_eq
    rw [hposted] at hscores
    rw [← hscores]
    refine List.Perm.eq_of_pairwise' (r := fun a b => b ≤ a)
      (List.pairwise_map.2 hextract.2) (Multiset.pairwise_sort _ _) ?_
    rw [← Multiset.coe_eq_coe, Multiset.sort_eq, TopKHeap.scores]
    exact Multiset.coe_eq_coe.2 (hextract.1.map ScoredDoc.score)

end Segment

/-! ### A term with two documents -/

section TwoTerms

open PgTextsearch.RustSegment

/-- The blocks of a term, as a caller reads them. -/
theorem exists_readsTerm {data : List (Fin 256)} {header : TpSegmentHeader}
    {term : List (Fin 256)} {postings : List RustSegment.PostingEntry}
    (hfinds : FindsTerm data header term postings) :
    ∃ blocks loadBlock, ReadsTerm data header term blocks loadBlock ∧
      ∀ block ∈ blocks.zipIdx, ∀ p ∈ loadBlock block.2, p.frequency ≤ block.1.blockMaxTf := by
  obtain ⟨entry, stored, hlookup, -, hcount, -, hstored⟩ := hfinds
  have hskip : ∀ j : Fin stored.length, ∃ skip,
      readSkipEntry data (header.skipIndexOffset + entry.skipIndexOffset +
          j * Segment.File.skipEntrySize) = some skip ∧
        Describes skip.skip stored[j] ∧
        readPostingBlock (data.drop skip.postingOffset) skip = some stored[j] :=
    fun j => hstored j _ (List.getElem?_eq_getElem j.isLt)
  choose skip hread hdescribes hblock using hskip
  refine ⟨List.ofFn fun j => BlockInfo.ofSkip (skip j),
    fun j => (stored.getD j []).map BlockPosting.ofBlock,
    ⟨entry, hlookup, by rw [List.length_ofFn, hcount], ?_⟩, ?_⟩
  · intro j info hinfo
    obtain ⟨hj, rfl⟩ := List.getElem?_eq_some_iff.1 hinfo
    rw [List.length_ofFn] at hj
    refine ⟨skip ⟨j, hj⟩, stored[j], hread ⟨j, hj⟩, by rw [List.getElem_ofFn], hblock ⟨j, hj⟩, ?_⟩
    dsimp only
    rw [List.getD_eq_getElem _ _ hj]
  · intro block hblock p hp
    obtain ⟨-, hlt, hget⟩ := List.mem_zipIdx hblock
    rw [List.length_ofFn, Nat.zero_add] at hlt
    dsimp only at hp
    rw [List.getD_eq_getElem _ _ hlt] at hp
    obtain ⟨q, hq, rfl⟩ := List.mem_map.1 hp
    rw [hget, List.getElem_ofFn]
    exact (hdescribes ⟨block.2, hlt⟩).frequency_le q hq

/-- Without length normalisation the stored maxima are bounds. -/
theorem score_le_blockMax (Q : ScoreParams) (hb : Q.b = 0) {idf : ℚ} (hidf : 0 < idf)
    {p : BlockPosting} {info : BlockInfo} (hfreq : p.frequency ≤ info.blockMaxTf) :
    (SearchParams.mk idf Q.k1 Q.b Q.avgDocLen).score p ≤
      (SearchParams.mk idf Q.k1 Q.b Q.avgDocLen).blockMax info := by
  rcases Nat.eq_zero_or_pos info.blockMaxTf with hzero | hpos
  · have hnone : p.frequency = 0 := by omega
    simp [SearchParams.score, SearchParams.blockMax, bm25Score, blockMaxScore, hzero, hnone]
  · refine (Q.score_le_score_iff hidf (decodeFieldnorm (Fin.ofNat 256 p.fieldnorm))
      (decodeFieldnorm info.blockMaxNorm) hpos).2 ?_
    simp only [ScoreParams.lenNorm, hb, zero_mul, sub_zero, add_zero, mul_one]
    exact Nat.cast_le.2 hfreq

theorem unit_pos : (0 : ℚ) < 1 := zero_lt_one

theorem unit_nonneg : (0 : ℚ) ≤ 1 := zero_le_one

theorem zero_nonneg : (0 : ℚ) ≤ 0 := le_refl 0

/-- `k1 = 1`, and no length normalisation. -/
def plainParams : ScoreParams where
  k1 := 1
  b := 0
  avgDocLen := 1
  k1_pos := unit_pos
  b_nonneg := zero_nonneg
  b_le_one := unit_nonneg
  avg_pos := unit_pos

theorem scoreSingleTermBmw_of_segment_twoTerms :
    ∃ data header blocks loadBlock,
      buildSegment twoTermEnv [[97], [97, 98]] twoTermLists = some data ∧
      readHeader data = some header ∧ ReadsTerm data header [97] blocks loadBlock ∧
      (scoreSingleTermBmw ⟨1, plainParams.k1, plainParams.b, plainParams.avgDocLen⟩
          (TopKHeap.new 1) blocks 7 loadBlock ⟨0, 0, 0, 0, 0, 0⟩).1.extractSorted.1.map
            ScoredDoc.score =
        (kLargest 1 ((TopKHeap.new 1).scores +
          offeredScores ⟨1, plainParams.k1, plainParams.b, plainParams.avgDocLen⟩
            [⟨0, 1, 1⟩, ⟨1, 3, 3⟩])).sort (fun a b => b ≤ a) := by
  obtain ⟨data, hbuild, -⟩ := buildSegment_spec twoTermEnv twoTermLists_valid
    (show twoTermLists.length = [[97], [97, 98]].length from rfl)
  obtain ⟨header, hheader, hfound, -⟩ := image_reads_back twoTermEnv twoTermLists_valid rfl
    twoTerms_sorted hbuild (twoTerms_small hbuild)
  obtain ⟨blocks, loadBlock, hreads, hfreq⟩ := exists_readsTerm (hfound 0 _ _ rfl rfl)
  refine ⟨data, header, blocks, loadBlock, hbuild, hheader, hreads, ?_⟩
  exact (scoreSingleTermBmw_of_segment twoTermEnv twoTermLists_valid rfl twoTerms_sorted
    hbuild (twoTerms_small hbuild) hheader (n := 0) rfl rfl hreads
    ⟨1, plainParams.k1, plainParams.b, plainParams.avgDocLen⟩ (BoundedHeap.Valid.nil (by decide))
    7 ⟨0, 0, 0, 0, 0, 0⟩).2
    fun block hblock p hp => score_le_blockMax plainParams rfl (by decide) (hfreq block hblock p hp)

end TwoTerms

end PgTextsearch.Rust
