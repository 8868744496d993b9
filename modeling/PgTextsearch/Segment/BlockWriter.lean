import Mathlib.Tactic.NormNum
import Mathlib.Tactic.Ring
import PgTextsearch.Query.Scoring
import PgTextsearch.Segment.Docmap
import PgTextsearch.Segment.Format

/-!
# Posting block writers and the block-max bound

The three segment writers convert one term's postings to block format, sort
them by document id, cut them into blocks of 128 and store per block the
maximum frequency and the maximum fieldnorm.  The conversion differs from
writer to writer; the block loop is the same text three times.

## Main results

* `written_stats` — what a written block's skip entry holds.
* `blockMax_sound_iff` — the block-max score dominates the scores of the block
  exactly when, against the *longest* document's length, no posting's frequency
  outweighs every frequency of the block.
-/

namespace PgTextsearch.Segment

open PgTextsearch.Postgres PgTextsearch.Query

/-! ## Block loop -/

/-- The running maxima of the "Calculate block stats" loop. -/
structure BlockStats where
  lastDocId : Nat
  maxTf : Nat
  maxNorm : Fin 256
  deriving DecidableEq, Repr

/-- One iteration of the stats loop. -/
def BlockStats.step (s : BlockStats) (p : BlockPosting) : BlockStats where
  lastDocId := if p.docId > s.lastDocId then p.docId else s.lastDocId
  maxTf := if p.frequency > s.maxTf then p.frequency else s.maxTf
  maxNorm := if p.fieldnorm > s.maxNorm then p.fieldnorm else s.maxNorm

/-- The stats loop over one block. -/
def blockStats (ps : List BlockPosting) : BlockStats :=
  ps.foldl BlockStats.step ⟨0, 0, 0⟩

/-- The per-block tenant bytes: nothing without a tenant array, otherwise the
common tenant of the block, or the mixed marker. -/
def blockTenantMode (tenantIds : Option (List Nat)) (ps : List BlockPosting) :
    TenantMode × Nat :=
  match tenantIds, ps with
  | some tids, p :: rest =>
      let firstTid := tids.getD p.docId 0
      let allSame := rest.all fun q => tids.getD q.docId 0 == firstTid
      if firstTid ≠ 0 ∧ allSame then (.single, firstTid % 65536)
      else if !allSame then (.mixed, 0)
      else (.none, 0)
  | _, _ => (.none, 0)

/-- One iteration of the block loop: stats, tenant bytes and the skip entry. -/
def buildBlock (tenantIds : Option (List Nat)) (ps : List BlockPosting) : Block :=
  let stats := blockStats ps
  let tenant := blockTenantMode tenantIds ps
  { skip :=
      { lastDocId := stats.lastDocId
        docCount := ps.length % 256
        blockMaxTf := stats.maxTf
        blockMaxNorm := stats.maxNorm
        tenantMode := tenant.1
        tenantIdLow := tenant.2 }
    postings := ps }

/-- `cmp_block_posting_by_doc_id`; the merge and the parallel build have their
own copies with the same body. -/
def cmpBlockPostingByDocId (a b : BlockPosting) : Int :=
  if a.docId < b.docId then -1 else if a.docId > b.docId then 1 else 0

/-- Sort and cut: the part of the term loop that is common to all writers.  The
number of blocks is stored in 16 bits. -/
def writeTermBlocks (qs : Qsort) (tenantIds : Option (List Nat)) (docFreq : Nat)
    (blockPostings : List BlockPosting) : DictEntry :=
  let sorted := qs.sort cmpBlockPostingByDocId blockPostings
  let numBlocks := (sorted.length + tpBlockSize - 1) / tpBlockSize
  { blockCount := numBlocks % 65536
    docFreq := docFreq
    blocks := (List.range numBlocks).map fun blockIdx =>
      buildBlock tenantIds ((sorted.drop (blockIdx * tpBlockSize)).take tpBlockSize) }

/-! ## Conversions of the three writers -/

/-- `TpPostingEntry`: one memtable posting; `frequency` is an `int32`. -/
structure PostingEntry where
  ctid : ItemPointer
  frequency : Int
  tenantId : Nat
  deriving DecidableEq, Repr, Inhabited

/-- `CollectedPosting`: one posting gathered by the merge. -/
structure CollectedPosting where
  ctid : ItemPointer
  sourceIdx : Nat
  oldDocId : Nat
  frequency : Nat
  fieldnorm : Fin 256
  tenantId : Nat
  deriving DecidableEq, Repr, Inhabited

/-- `TpCollectedBufferPosting`: one posting gathered from the worker buffers;
the collection has already narrowed the frequency to 16 bits. -/
structure CollectedBufferPosting where
  ctid : ItemPointer
  frequency : Nat
  tenantId : Nat
  deriving DecidableEq, Repr, Inhabited

/-- Document id and fieldnorm come from the docmap, a CTID it does not know is
an error: the conversion shared by the memtable and the parallel writer. -/
def blockPostingOfCtid (docmap : DocMapBuilder) (ctid : ItemPointer) (frequency : Nat) :
    Except SegmentError BlockPosting :=
  let docId := tpDocmapLookup docmap ctid
  if docId = uint32Max then .error (.ctidNotInDocmap ctid)
  else .ok ⟨docId, frequency, tpDocmapGetFieldnorm docmap docId⟩

/-- The term loop body of `tp_write_segment`: the `int32` frequency is cast to
`uint16`, and tenant bytes need both tenant statistics and a tenant array. -/
def tpWriteSegmentTerm (qs : Qsort) (docmap : DocMapBuilder) (hasTenantData : Bool)
    (docFreq : Nat) (entries : List PostingEntry) : Except SegmentError DictEntry := do
  let blockPostings ← entries.mapM fun e =>
    blockPostingOfCtid docmap e.ctid (e.frequency % 65536).toNat
  return writeTermBlocks qs (if hasTenantData then docmap.tenantIds else none) docFreq
    blockPostings

/-- The term loop body of `write_merged_segment`: document ids go through the
direct mapping, fieldnorms are copied from the source segments. -/
def writeMergedSegmentTerm (qs : Qsort) (docmap : DocMapBuilder)
    (oldToNew : Nat → Nat → Nat) (postings : List CollectedPosting) : DictEntry :=
  writeTermBlocks qs docmap.tenantIds postings.length
    (postings.map fun p => ⟨oldToNew p.sourceIdx p.oldDocId, p.frequency, p.fieldnorm⟩)

/-- The term loop body of `tp_merge_worker_buffers_to_segment`. -/
def tpMergeWorkerBuffersTerm (qs : Qsort) (docmap : DocMapBuilder) (hasTenantData : Bool)
    (postings : List CollectedBufferPosting) : Except SegmentError DictEntry := do
  let blockPostings ← postings.mapM fun p => blockPostingOfCtid docmap p.ctid p.frequency
  return writeTermBlocks qs (if hasTenantData then docmap.tenantIds else none)
    postings.length blockPostings

/-- `block` is a posting block that one of the segment writers wrote. -/
inductive Written (qs : Qsort) (block : Block) : Prop where
  | memtable (docmap : DocMapBuilder) (hasTenantData : Bool) (docFreq : Nat)
      (entries : List PostingEntry) (entry : DictEntry)
      (run : tpWriteSegmentTerm qs docmap hasTenantData docFreq entries = .ok entry)
      (mem : block ∈ entry.blocks)
  | merge (docmap : DocMapBuilder) (oldToNew : Nat → Nat → Nat)
      (postings : List CollectedPosting)
      (mem : block ∈ (writeMergedSegmentTerm qs docmap oldToNew postings).blocks)
  | parallel (docmap : DocMapBuilder) (hasTenantData : Bool)
      (postings : List CollectedBufferPosting) (entry : DictEntry)
      (run : tpMergeWorkerBuffersTerm qs docmap hasTenantData postings = .ok entry)
      (mem : block ∈ entry.blocks)

/-! ## What the skip entry of a written block holds -/

section RunningMax

variable {α κ : Type*} [LinearOrder κ]

/-- The C idiom `if (x > max) max = x;` over a list. -/
theorem runningMax_spec (f : α → κ) (ps : List α) (init : κ) :
    init ≤ ps.foldl (fun m p => if f p > m then f p else m) init ∧
      (∀ p ∈ ps, f p ≤ ps.foldl (fun m p => if f p > m then f p else m) init) ∧
      (ps.foldl (fun m p => if f p > m then f p else m) init = init ∨
        ∃ p ∈ ps, f p = ps.foldl (fun m p => if f p > m then f p else m) init) := by
  induction ps generalizing init with
  | nil => simp
  | cons p ps ih =>
      simp only [List.foldl_cons, List.mem_cons, forall_eq_or_imp, exists_eq_or_imp]
      obtain ⟨hinit, hmem, hatt⟩ := ih (if f p > init then f p else init)
      by_cases hp : f p > init
      · rw [if_pos hp] at hinit hmem hatt ⊢
        refine ⟨hp.le.trans hinit, ⟨hinit, hmem⟩, Or.inr ?_⟩
        rcases hatt with heq | hex
        · exact Or.inl heq.symm
        · exact Or.inr hex
      · rw [if_neg hp] at hinit hmem hatt ⊢
        refine ⟨hinit, ⟨(not_lt.1 hp).trans hinit, hmem⟩, ?_⟩
        rcases hatt with heq | hex
        · exact Or.inl heq
        · exact Or.inr (Or.inr hex)

/-- On a non-empty list, starting at the bottom element, the running maximum is
attained. -/
private theorem runningMax_attained (f : α → κ) {ps : List α} (hne : ps ≠ []) (bot : κ)
    (hbot : ∀ p ∈ ps, bot ≤ f p) :
    ∃ p ∈ ps, f p = ps.foldl (fun m p => if f p > m then f p else m) bot := by
  obtain ⟨-, hmem, hatt⟩ := runningMax_spec f ps bot
  rcases hatt with heq | hex
  · obtain ⟨p, hp⟩ := List.exists_mem_of_ne_nil ps hne
    exact ⟨p, hp, le_antisymm (hmem p hp) (heq.le.trans (hbot p hp))⟩
  · exact hex

end RunningMax

theorem blockStats_lastDocId (ps : List BlockPosting) : (blockStats ps).lastDocId =
    ps.foldl (fun m p => if p.docId > m then p.docId else m) 0 :=
  (List.foldl_hom BlockStats.lastDocId (fun _ _ => rfl)).symm

theorem blockStats_maxTf (ps : List BlockPosting) : (blockStats ps).maxTf =
    ps.foldl (fun m p => if p.frequency > m then p.frequency else m) 0 :=
  (List.foldl_hom BlockStats.maxTf (fun _ _ => rfl)).symm

theorem blockStats_maxNorm (ps : List BlockPosting) : (blockStats ps).maxNorm =
    ps.foldl (fun m p => if p.fieldnorm > m then p.fieldnorm else m) 0 :=
  (List.foldl_hom BlockStats.maxNorm (fun _ _ => rfl)).symm

/-- The contents of a well-built block: its skip entry stores the largest
document id, the largest frequency and the largest fieldnorm of its postings,
each of them attained by some posting. -/
structure HasBlockStats (block : Block) : Prop where
  ne_nil : block.postings ≠ []
  docId_le : ∀ p ∈ block.postings, p.docId ≤ block.skip.lastDocId
  docId_attained : ∃ p ∈ block.postings, p.docId = block.skip.lastDocId
  tf_le : ∀ p ∈ block.postings, p.frequency ≤ block.skip.blockMaxTf
  tf_attained : ∃ p ∈ block.postings, p.frequency = block.skip.blockMaxTf
  norm_le : ∀ p ∈ block.postings, p.fieldnorm ≤ block.skip.blockMaxNorm
  norm_attained : ∃ p ∈ block.postings, p.fieldnorm = block.skip.blockMaxNorm

theorem buildBlock_stats (tenantIds : Option (List Nat)) {ps : List BlockPosting}
    (hne : ps ≠ []) : HasBlockStats (buildBlock tenantIds ps) where
  ne_nil := hne
  docId_le := by
    simp only [buildBlock, blockStats_lastDocId]
    exact (runningMax_spec BlockPosting.docId ps 0).2.1
  docId_attained := by
    simp only [buildBlock, blockStats_lastDocId]
    exact runningMax_attained BlockPosting.docId hne 0 fun _ _ => Nat.zero_le _
  tf_le := by
    simp only [buildBlock, blockStats_maxTf]
    exact (runningMax_spec BlockPosting.frequency ps 0).2.1
  tf_attained := by
    simp only [buildBlock, blockStats_maxTf]
    exact runningMax_attained BlockPosting.frequency hne 0 fun _ _ => Nat.zero_le _
  norm_le := by
    simp only [buildBlock, blockStats_maxNorm]
    exact (runningMax_spec BlockPosting.fieldnorm ps 0).2.1
  norm_attained := by
    simp only [buildBlock, blockStats_maxNorm]
    exact runningMax_attained BlockPosting.fieldnorm hne 0 fun _ _ => Fin.zero_le _

/-- Every block of the block loop is built from a non-empty run of postings. -/
theorem exists_buildBlock_of_mem {qs : Qsort} {tenantIds : Option (List Nat)} {docFreq : Nat}
    {ps : List BlockPosting} {block : Block}
    (h : block ∈ (writeTermBlocks qs tenantIds docFreq ps).blocks) :
    ∃ run, run ≠ [] ∧ block = buildBlock tenantIds run := by
  simp only [writeTermBlocks, List.mem_map, List.mem_range] at h
  obtain ⟨blockIdx, hidx, rfl⟩ := h
  refine ⟨_, ?_, rfl⟩
  have hstart : blockIdx * tpBlockSize < (qs.sort cmpBlockPostingByDocId ps).length := by
    simp only [tpBlockSize] at hidx ⊢
    omega
  apply List.ne_nil_of_length_pos
  simp only [List.length_take, List.length_drop, tpBlockSize] at hstart ⊢
  omega

/-- The three writers differ in the conversion only: what they write is built
by the common block loop. -/
theorem Written.exists_buildBlock {qs : Qsort} {block : Block} (h : Written qs block) :
    ∃ tenantIds run, run ≠ [] ∧ block = buildBlock tenantIds run := by
  cases h with
  | memtable docmap hasTenantData docFreq entries entry run mem =>
      simp only [tpWriteSegmentTerm, bind, Except.bind] at run
      split at run
      · cases run
      · cases run
        obtain ⟨ps, hps⟩ := exists_buildBlock_of_mem mem
        exact ⟨_, ps, hps⟩
  | merge docmap oldToNew postings mem =>
      obtain ⟨ps, hps⟩ := exists_buildBlock_of_mem mem
      exact ⟨_, ps, hps⟩
  | parallel docmap hasTenantData postings entry run mem =>
      simp only [tpMergeWorkerBuffersTerm, bind, Except.bind] at run
      split at run
      · cases run
      · cases run
        obtain ⟨ps, hps⟩ := exists_buildBlock_of_mem mem
        exact ⟨_, ps, hps⟩

/-- **What the writers store.**  Every written block carries its maxima. -/
theorem Written.stats {qs : Qsort} {block : Block} (h : Written qs block) :
    HasBlockStats block := by
  obtain ⟨tenantIds, run, hne, rfl⟩ := h.exists_buildBlock
  exact buildBlock_stats tenantIds hne

/-! ## The block-max bound -/

/-- The block-max score of the skip entry dominates every posting of the block. -/
def BlockMaxSound (P : ScoreParams) (idf : ℚ) (block : Block) : Prop :=
  ∀ p ∈ block.postings, P.score idf p.frequency p.docLength ≤
    P.blockMax idf block.skip.blockMaxTf block.skip.blockMaxNorm

/-- With the maxima stored, the bound holds for a posting exactly when its
frequency, weighed against the longest document, does not exceed the largest
frequency, weighed against its own length. -/
theorem HasBlockStats.sound_iff {block : Block} (hs : HasBlockStats block) (P : ScoreParams)
    {idf : ℚ} (hidf : 0 < idf) :
    BlockMaxSound P idf block ↔ ∀ p ∈ block.postings,
      (p.frequency : ℚ) * P.lenNorm (decodeFieldnorm block.skip.blockMaxNorm) ≤
        (block.skip.blockMaxTf : ℚ) * P.lenNorm p.docLength := by
  unfold BlockMaxSound
  rcases Nat.eq_zero_or_pos block.skip.blockMaxTf with h0 | hpos
  · -- every frequency is zero: all scores and both sides vanish
    have hz : ∀ p ∈ block.postings, p.frequency = 0 := fun p hp =>
      Nat.le_zero.1 (h0 ▸ hs.tf_le p hp)
    constructor
    · intro _ p hp
      simp [hz p hp, h0]
    · intro _ p hp
      rw [P.blockMax_eq_score]
      simp [hz p hp, h0]
  · refine forall₂_congr fun p hp => ?_
    rw [P.blockMax_eq_score, P.score_le_score_iff hidf _ _ hpos]

/-- The same condition over the postings alone. -/
theorem HasBlockStats.maxima_iff {block : Block} (hs : HasBlockStats block) (w : Nat → ℚ)
    (hw : ∀ n, 0 ≤ w n) (hmono : ∀ m n, m ≤ n → w m ≤ w n) :
    (∀ p ∈ block.postings, (p.frequency : ℚ) * w (decodeFieldnorm block.skip.blockMaxNorm) ≤
        (block.skip.blockMaxTf : ℚ) * w p.docLength) ↔
      ∀ p ∈ block.postings, ∀ q ∈ block.postings, ∃ r ∈ block.postings,
        (p.frequency : ℚ) * w q.docLength ≤ (r.frequency : ℚ) * w p.docLength := by
  constructor
  · intro h p hp q hq
    obtain ⟨r, hr, hrtf⟩ := hs.tf_attained
    have hlen : q.docLength ≤ decodeFieldnorm block.skip.blockMaxNorm :=
      decodeFieldnorm_mono (hs.norm_le q hq)
    refine ⟨r, hr, ?_⟩
    calc (p.frequency : ℚ) * w q.docLength
        ≤ (p.frequency : ℚ) * w (decodeFieldnorm block.skip.blockMaxNorm) :=
          mul_le_mul_of_nonneg_left (hmono _ _ hlen) (Nat.cast_nonneg _)
      _ ≤ (block.skip.blockMaxTf : ℚ) * w p.docLength := h p hp
      _ = (r.frequency : ℚ) * w p.docLength := by rw [hrtf]
  · intro h p hp
    obtain ⟨q, hq, hqn⟩ := hs.norm_attained
    obtain ⟨r, hr, hle⟩ := h p hp q hq
    have hqlen : q.docLength = decodeFieldnorm block.skip.blockMaxNorm := by
      unfold BlockPosting.docLength
      rw [hqn]
    have hrtf : (r.frequency : ℚ) ≤ (block.skip.blockMaxTf : ℚ) :=
      Nat.cast_le.2 (hs.tf_le r hr)
    calc (p.frequency : ℚ) * w (decodeFieldnorm block.skip.blockMaxNorm)
        = (p.frequency : ℚ) * w q.docLength := by rw [hqlen]
      _ ≤ (r.frequency : ℚ) * w p.docLength := hle
      _ ≤ (block.skip.blockMaxTf : ℚ) * w p.docLength :=
          mul_le_mul_of_nonneg_right hrtf (hw _)

private theorem lenNorm_mono (P : ScoreParams) (m n : Nat) (h : m ≤ n) :
    P.lenNorm m ≤ P.lenNorm n := by
  unfold ScoreParams.lenNorm
  have hdiv : (m : ℚ) / P.avgDocLen ≤ (n : ℚ) / P.avgDocLen :=
    div_le_div_of_nonneg_right (Nat.cast_le.2 h) P.avg_pos.le
  have hmul := mul_le_mul_of_nonneg_left hdiv P.b_nonneg
  linarith

/-- At `b = 1` the length normaliser is proportional to the length, which makes
the all-parameters condition necessary. -/
private def pureLengthParams : ScoreParams where
  k1 := 1
  b := 1
  avgDocLen := 1
  k1_pos := by norm_num
  b_nonneg := by norm_num
  b_le_one := by norm_num
  avg_pos := by norm_num

private theorem lenNorm_pureLengthParams (n : Nat) : pureLengthParams.lenNorm n = n := by
  simp [ScoreParams.lenNorm, pureLengthParams]

theorem HasBlockStats.sound_at_iff {block : Block} (hs : HasBlockStats block) (P : ScoreParams)
    {idf : ℚ} (hidf : 0 ≤ idf) :
    BlockMaxSound P idf block ↔ idf = 0 ∨ ∀ p ∈ block.postings, ∀ q ∈ block.postings,
      ∃ r ∈ block.postings,
        (p.frequency : ℚ) * P.lenNorm q.docLength ≤ (r.frequency : ℚ) * P.lenNorm p.docLength := by
  rcases hidf.eq_or_lt with h0 | hpos
  · subst h0
    refine ⟨fun _ => Or.inl rfl, fun _ p _ => ?_⟩
    simp [ScoreParams.score, ScoreParams.blockMax, bm25Score, blockMaxScore]
  · rw [hs.sound_iff P hpos, hs.maxima_iff P.lenNorm P.lenNorm_nonneg (lenNorm_mono P)]
    simp [hpos.ne']

theorem HasBlockStats.sound_for_all_iff {block : Block} (hs : HasBlockStats block) :
    (∀ (P : ScoreParams) (idf : ℚ), 0 ≤ idf → BlockMaxSound P idf block) ↔
      ∀ p ∈ block.postings, ∀ q ∈ block.postings, ∃ r ∈ block.postings,
        p.frequency * q.docLength ≤ r.frequency * p.docLength := by
  have hcast := hs.maxima_iff (fun n => (n : ℚ)) (fun n => Nat.cast_nonneg n)
    (fun m n h => Nat.cast_le.2 h)
  have hnat : (∀ p ∈ block.postings, ∀ q ∈ block.postings, ∃ r ∈ block.postings,
        p.frequency * q.docLength ≤ r.frequency * p.docLength) ↔
      ∀ p ∈ block.postings, ∀ q ∈ block.postings, ∃ r ∈ block.postings,
        (p.frequency : ℚ) * (q.docLength : ℚ) ≤ (r.frequency : ℚ) * (p.docLength : ℚ) := by
    simp only [← Nat.cast_mul, Nat.cast_le]
  rw [hnat, ← hcast]
  constructor
  · intro h p hp
    have := (hs.sound_iff pureLengthParams zero_lt_one).1 (h pureLengthParams 1 zero_le_one) p hp
    simpa only [lenNorm_pureLengthParams] using this
  · intro h P idf hidf
    rcases hidf.eq_or_lt with h0 | hpos
    · exact (hs.sound_at_iff P hidf).2 (Or.inl h0.symm)
    · rw [hs.sound_iff P hpos]
      intro p hp
      -- split the normaliser into its constant part and its length part
      have htf : (p.frequency : ℚ) ≤ (block.skip.blockMaxTf : ℚ) :=
        Nat.cast_le.2 (hs.tf_le p hp)
      have hconst := mul_le_mul_of_nonneg_right htf
        (show 0 ≤ 1 - P.b by linarith [P.b_le_one])
      have hlen := mul_le_mul_of_nonneg_right (h p hp)
        (div_nonneg P.b_nonneg P.avg_pos.le)
      unfold ScoreParams.lenNorm
      calc (p.frequency : ℚ) * (1 - P.b + P.b *
            ((decodeFieldnorm block.skip.blockMaxNorm : ℚ) / P.avgDocLen))
          = (p.frequency : ℚ) * (1 - P.b) + (p.frequency : ℚ) *
              (decodeFieldnorm block.skip.blockMaxNorm : ℚ) * (P.b / P.avgDocLen) := by ring
        _ ≤ (block.skip.blockMaxTf : ℚ) * (1 - P.b) +
              (block.skip.blockMaxTf : ℚ) * (p.docLength : ℚ) * (P.b / P.avgDocLen) :=
            add_le_add hconst hlen
        _ = (block.skip.blockMaxTf : ℚ) * (1 - P.b + P.b *
              ((p.docLength : ℚ) / P.avgDocLen)) := by ring

/-! ## A block whose bound is too low -/

/-- The docmap of two documents of one heap page, 10 and 1000 words long. -/
def mixedLengthDocmap : Except SegmentError DocMapBuilder := do
  let builder ← tpDocmapAdd tpDocmapCreate ⟨0, 1⟩ 10 0
  let builder ← tpDocmapAdd builder ⟨0, 2⟩ 1000 0
  return tpDocmapFinalize insertionHashSeq insertionQsort builder

/-- The block of a term that the short document holds five times and the long
one once. -/
def mixedLengthBlock : Block :=
  ⟨⟨1, 2, 5, 87, .none, 0⟩, [⟨0, 5, 10⟩, ⟨1, 1, 87⟩]⟩

theorem mixedLengthBlock_written : Written insertionQsort mixedLengthBlock := by
  have hdoc : ∃ docmap, mixedLengthDocmap = .ok docmap ∧
      (tpWriteSegmentTerm insertionQsort docmap false 2
        [⟨⟨0, 1⟩, 5, 0⟩, ⟨⟨0, 2⟩, 1, 0⟩]) = .ok ⟨1, 2, [mixedLengthBlock]⟩ := ⟨_, rfl, rfl⟩
  obtain ⟨docmap, -, hrun⟩ := hdoc
  exact Written.memtable docmap false 2 _ _ hrun (List.mem_singleton.2 rfl)

/-- The default ranking parameters at the average length of the two documents. -/
def mixedLengthParams : ScoreParams where
  k1 := 6 / 5
  b := 3 / 4
  avgDocLen := 505
  k1_pos := by norm_num
  b_nonneg := by norm_num
  b_le_one := by norm_num
  avg_pos := by norm_num

/-- The short document scores above the block's stored maximum, because the
maximum is computed with the long document's length. -/
theorem mixedLengthBlock_unsound : ¬ ∀ (qs : Qsort) (block : Block), Written qs block →
    ∀ (P : ScoreParams) (idf : ℚ), 0 ≤ idf → BlockMaxSound P idf block := by
  intro hall
  have hsound := hall insertionQsort mixedLengthBlock mixedLengthBlock_written
    mixedLengthParams 1 zero_le_one
  have hshort : (⟨0, 5, 10⟩ : BlockPosting) ∈ mixedLengthBlock.postings := by decide
  have hle := hsound _ hshort
  have hlen : (⟨0, 5, 10⟩ : BlockPosting).docLength = 10 := by decide +kernel
  have hmax : decodeFieldnorm mixedLengthBlock.skip.blockMaxNorm = 984 := by decide +kernel
  rw [ScoreParams.blockMax_eq_score, hmax, hlen] at hle
  simp only [ScoreParams.score, bm25Score, mixedLengthParams, mixedLengthBlock] at hle
  norm_num at hle

/-- **Exactly when the stored bound is sound.**  For a block written by any of
the three writers and fixed ranking parameters, the block-max score dominates
the block if and only if the term's IDF vanishes or every posting's frequency,
weighed against any other posting's length, is matched by some frequency of the
block weighed against its own length; it is so for all parameters at once if
and only if the same holds of the plain products of frequency and length. -/
theorem blockMax_sound_iff (qs : Qsort) (block : Block) (hw : Written qs block) :
    (∀ (P : ScoreParams) (idf : ℚ), 0 ≤ idf →
      (BlockMaxSound P idf block ↔ idf = 0 ∨ ∀ p ∈ block.postings, ∀ q ∈ block.postings,
        ∃ r ∈ block.postings, (p.frequency : ℚ) * P.lenNorm q.docLength ≤
          (r.frequency : ℚ) * P.lenNorm p.docLength)) ∧
    ((∀ (P : ScoreParams) (idf : ℚ), 0 ≤ idf → BlockMaxSound P idf block) ↔
      ∀ p ∈ block.postings, ∀ q ∈ block.postings, ∃ r ∈ block.postings,
        p.frequency * q.docLength ≤ r.frequency * p.docLength) := by
  have hs := hw.stats
  constructor
  · intro P idf hidf
    exact hs.sound_at_iff P hidf
  · exact hs.sound_for_all_iff

theorem blockMax_sound_iff_mixedLengthBlock : Written insertionQsort mixedLengthBlock ∧
    ¬ ∀ (P : ScoreParams) (idf : ℚ), 0 ≤ idf → BlockMaxSound P idf mixedLengthBlock := by
  refine ⟨mixedLengthBlock_written, ?_⟩
  rw [(blockMax_sound_iff insertionQsort mixedLengthBlock mixedLengthBlock_written).2]
  decide +kernel

end PgTextsearch.Segment
