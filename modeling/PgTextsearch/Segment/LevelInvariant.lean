import PgTextsearch.Segment.LevelChains

/-!
# Counters, chains and pages in every run

One invariant carries both results of this module: `Chained` says which segments the
chains consist of, that the counters are the lengths of the chains in 16 bits, and
that the pages of these segments are their own.  It holds in every run; as long as no
counter overflows, the chains hold every segment there is.

## Main results

* `level_invariant` — in every run in which no counter overflows, counters, chains and
  the segments written agree.
* `page_ownership` — in every run no page belongs to two live segments or is recorded
  as free while a segment uses it, every page recorded as free exists, and no
  operation fails.
* `overflowing_build_miscounts` — a parallel build that writes 65536 segments.
-/

namespace PgTextsearch.Segment.Pages

open PgTextsearch.Verified

/-! ## Chains of segments -/

/-- The pages of a chain. -/
def chainPages (chain : List SegmentPages) : List Nat := chain.flatMap SegmentPages.all

/-- The block a pointer to the chain holds. -/
def nextRoot (chain : List SegmentPages) : Option Nat := chain.head?.map SegmentPages.root

/-- The segments are on disk, each pointing to the next. -/
def ChainWritten (content : Nat → PageContent) : List SegmentPages → Prop
  | [] => True
  | seg :: rest => WrittenAt content seg (nextRoot rest) ∧ ChainWritten content rest

theorem mem_chainPages {chain : List SegmentPages} {b : Nat} :
    b ∈ chainPages chain ↔ ∃ seg ∈ chain, b ∈ seg.all := List.mem_flatMap

theorem chainPages_cons (seg : SegmentPages) (rest : List SegmentPages) :
    chainPages (seg :: rest) = seg.all ++ chainPages rest := List.flatMap_cons

theorem root_mem_all (seg : SegmentPages) : seg.root ∈ seg.all :=
  List.mem_append_left _ List.mem_cons_self

theorem ChainWritten.congr {content content' : Nat → PageContent} {chain : List SegmentPages}
    (h : ChainWritten content chain) (heq : ∀ b ∈ chainPages chain, content' b = content b) :
    ChainWritten content' chain := by
  induction chain with
  | nil => trivial
  | cons seg rest ih =>
      rw [chainPages_cons] at heq
      exact ⟨h.1.congr fun b hb => heq b (List.mem_append_left _ hb),
        ih h.2 fun b hb => heq b (List.mem_append_right _ hb)⟩

theorem ChainWritten.isChain {content : Nat → PageContent} {chain : List SegmentPages}
    (h : ChainWritten content chain) :
    IsChain content (nextRoot chain) (chain.map SegmentPages.root) := by
  induction chain with
  | nil => exact IsChain.nil
  | cons seg rest ih =>
      obtain ⟨numTerms, -, hroot⟩ := h.1.header
      exact IsChain.cons hroot (ih h.2)

theorem IsChain.unique {content : Nat → PageContent} {head : Option Nat} {roots roots' : List Nat}
    (h : IsChain content head roots) (h' : IsChain content head roots') : roots = roots' := by
  induction h generalizing roots' with
  | nil => cases h'; rfl
  | cons hhere _ ih =>
      cases h' with
      | cons hhere' hnext' =>
          cases hhere.symm.trans hhere'
          rw [ih hnext']

theorem nodup_roots {chain : List SegmentPages} (h : (chainPages chain).Nodup) :
    (chain.map SegmentPages.root).Nodup := by
  induction chain with
  | nil => exact List.nodup_nil
  | cons seg rest ih =>
      rw [chainPages_cons] at h
      rw [List.map_cons, List.nodup_cons]
      refine ⟨?_, ih h.of_append_right⟩
      intro hmem
      obtain ⟨seg', hseg', hroot⟩ := List.mem_map.1 hmem
      have hin : seg.root ∈ chainPages rest :=
        mem_chainPages.2 ⟨seg', hseg', hroot ▸ root_mem_all seg'⟩
      exact (List.nodup_append'.1 h).2.2 (root_mem_all seg) hin

/-- A chain in the relation has no more segments than the relation has blocks. -/
theorem length_chain_le {chain : List SegmentPages} {n : Nat} (h : (chainPages chain).Nodup)
    (hlt : ∀ b ∈ chainPages chain, b < n) : chain.length ≤ n := by
  rw [← List.length_map SegmentPages.root]
  refine length_le_of_nodup (nodup_roots h) ?_
  intro b hb
  obtain ⟨seg, hseg, rfl⟩ := List.mem_map.1 hb
  exact hlt _ (mem_chainPages.2 ⟨seg, hseg, root_mem_all seg⟩)

/-- Setting the next segment in the header of a written segment. -/
theorem setNextSegment_spec {content : Nat → PageContent} {seg : SegmentPages}
    {old : Option Nat} (h : WrittenAt content seg old) (hnodup : seg.all.Nodup)
    (next : Option Nat) :
    WrittenAt (setNextSegment content seg.root next) seg next ∧
      ∀ b, b ≠ seg.root → setNextSegment content seg.root next b = content b := by
  obtain ⟨numTerms, hpos, hroot⟩ := h.header
  have hset : setNextSegment content seg.root next = Function.update content seg.root
      (.segmentHeader ⟨numTerms, seg.dataPages.length, seg.indexPages.head?, next⟩) := by
    rw [setNextSegment, hroot]
  rw [hset]
  have hframe : ∀ b, b ≠ seg.root → Function.update content seg.root
      (.segmentHeader ⟨numTerms, seg.dataPages.length, seg.indexPages.head?, next⟩) b =
      content b := fun b hb => Function.update_of_ne hb _ _
  refine ⟨⟨⟨numTerms, hpos, Function.update_self _ _ _⟩, h.index.congr ?_⟩, hframe⟩
  intro b hb
  apply hframe
  rintro rfl
  exact (List.nodup_append'.1 hnodup).2.2 List.mem_cons_self hb

/-! ## The invariant -/

/-- The pages of all chains. -/
def owned (chains : Nat → List SegmentPages) : Set Nat := {b | ∃ l, b ∈ chainPages (chains l)}

/-- The chains of the levels are `chains`, and their pages are their own. -/
structure Chained (s : IndexPages) (chains : Nat → List SegmentPages) : Prop where
  heads : ∀ l, s.levelHeads l = nextRoot (chains l)
  counts : ∀ l, s.levelCounts l = (chains l).length % 2 ^ 16
  onDisk : ∀ l, ChainWritten s.storage.content (chains l)
  nodup : ∀ l, (chainPages (chains l)).Nodup
  apart : ∀ l l', l ≠ l' → (chainPages (chains l)).Disjoint (chainPages (chains l'))
  top : ∀ l, tpMaxLevels ≤ l → chains l = []
  recorded : ∀ l, ∀ seg ∈ chains l, seg ∈ s.written
  sound : Sound s.storage (owned chains)

/-- No segment is missing from the chains, and no chain is longer than its counter can
count. -/
structure Complete (s : IndexPages) (chains : Nat → List SegmentPages) : Prop where
  length_lt : ∀ l, (chains l).length < 2 ^ 16
  covers : ∀ seg ∈ s.written, ∃ l, seg ∈ chains l

theorem chained_fresh : Chained IndexPages.fresh (fun _ => []) where
  heads := fun _ => rfl
  counts := fun _ => rfl
  onDisk := fun _ => trivial
  nodup := fun _ => List.nodup_nil
  apart := fun _ _ _ => List.disjoint_nil_left _
  top := fun _ _ => rfl
  recorded := fun _ seg hseg => absurd hseg List.not_mem_nil
  sound := by
    refine ⟨Nat.one_pos, ?_, ?_, ?_, ?_, ?_⟩
    · rintro b ⟨l, hb⟩
      cases hb
    · rintro b ⟨l, hb⟩
      cases hb
    · rintro b ⟨l, hb⟩
      cases hb
    · intro b hb
      cases hb
    · intro b hb
      cases hb

theorem complete_fresh : Complete IndexPages.fresh (fun _ => []) where
  length_lt := fun _ => by decide
  covers := fun seg hseg => absurd hseg List.not_mem_nil

theorem Chained.lt {s : IndexPages} {chains : Nat → List SegmentPages} (h : Chained s chains)
    (l : Nat) : ∀ b ∈ chainPages (chains l), b < s.storage.nblocks :=
  fun b hb => h.sound.owned_lt b ⟨l, hb⟩

/-- Changing the storage outside the pages of the chains. -/
theorem Chained.storage {s : IndexPages} {chains : Nat → List SegmentPages} (h : Chained s chains)
    {st : Storage} (hsound : Sound st (owned chains))
    (hcontent : ∀ b ∈ owned chains, st.content b = s.storage.content b) :
    Chained { s with storage := st } chains where
  heads := h.heads
  counts := h.counts
  onDisk := fun l => (h.onDisk l).congr fun b hb => hcontent b ⟨l, hb⟩
  nodup := h.nodup
  apart := h.apart
  top := h.top
  recorded := h.recorded
  sound := hsound

theorem Chained.addPages {s : IndexPages} {chains : Nat → List SegmentPages} (h : Chained s chains)
    (count : Nat) : Chained { s with storage := s.storage.extend count } chains :=
  h.storage (h.sound.extend count) fun _ _ => rfl

theorem owned_update_subset (chains : Nat → List SegmentPages) (level : Nat) :
    owned (Function.update chains level []) ⊆ owned chains := by
  rintro b ⟨l, hb⟩
  by_cases hl : l = level
  · subst hl
    rw [Function.update_self] at hb
    cases hb
  · rw [Function.update_of_ne hl] at hb
    exact ⟨l, hb⟩

theorem owned_update_cons (chains : Nat → List SegmentPages) (level : Nat) (seg : SegmentPages) :
    owned (Function.update chains level (seg :: chains level)) =
      owned chains ∪ {b | b ∈ seg.all} := by
  ext b
  constructor
  · rintro ⟨l, hb⟩
    by_cases hl : l = level
    · subst hl
      rw [Function.update_self, chainPages_cons, List.mem_append] at hb
      rcases hb with hb | hb
      · exact Or.inr hb
      · exact Or.inl ⟨l, hb⟩
    · rw [Function.update_of_ne hl] at hb
      exact Or.inl ⟨l, hb⟩
  · rintro (⟨l, hb⟩ | hb)
    · by_cases hl : l = level
      · subst hl
        refine ⟨l, ?_⟩
        rw [Function.update_self, chainPages_cons]
        exact List.mem_append_right _ hb
      · refine ⟨l, ?_⟩
        rw [Function.update_of_ne hl]
        exact hb
    · refine ⟨level, ?_⟩
      rw [Function.update_self, chainPages_cons]
      exact List.mem_append_left _ hb

/-- Emptying a level. -/
theorem Chained.clear {s : IndexPages} {chains : Nat → List SegmentPages} (h : Chained s chains)
    (level : Nat) :
    Chained { s with
      levelHeads := Function.update s.levelHeads level none
      levelCounts := Function.update s.levelCounts level 0 }
      (Function.update chains level []) where
  heads := by
    intro l
    by_cases hl : l = level
    · subst hl
      simp [nextRoot]
    · simp only [Function.update_of_ne hl, h.heads l]
  counts := by
    intro l
    by_cases hl : l = level
    · subst hl
      simp
    · simp only [Function.update_of_ne hl, h.counts l]
  onDisk := by
    intro l
    by_cases hl : l = level
    · subst hl
      rw [Function.update_self]
      trivial
    · rw [Function.update_of_ne hl]
      exact h.onDisk l
  nodup := by
    intro l
    by_cases hl : l = level
    · subst hl
      rw [Function.update_self]
      exact List.nodup_nil
    · rw [Function.update_of_ne hl]
      exact h.nodup l
  apart := by
    intro l l' hne b hb hb'
    by_cases hl : l = level
    · subst hl
      rw [Function.update_self] at hb
      cases hb
    · by_cases hl' : l' = level
      · subst hl'
        rw [Function.update_self] at hb'
        cases hb'
      · rw [Function.update_of_ne hl] at hb
        rw [Function.update_of_ne hl'] at hb'
        exact h.apart l l' hne hb hb'
  top := by
    intro l hl
    by_cases heq : l = level
    · subst heq
      exact Function.update_self _ _ _
    · rw [Function.update_of_ne heq]
      exact h.top l hl
  recorded := by
    intro l seg hseg
    by_cases hl : l = level
    · subst hl
      rw [Function.update_self] at hseg
      cases hseg
    · rw [Function.update_of_ne hl] at hseg
      exact h.recorded l seg hseg
  sound := h.sound.mono (owned_update_subset chains level)

theorem linkSegment_storage (s : IndexPages) (level root : Nat) :
    (linkSegment s level root).storage.nblocks = s.storage.nblocks ∧
      (linkSegment s level root).storage.freePages = s.storage.freePages := by
  unfold linkSegment
  cases s.levelHeads level <;> exact ⟨rfl, rfl⟩

theorem Takes.mono {st st' : Storage} {own own' : Set Nat} {blocks : List Nat}
    (h : Takes st st' own blocks) (hsub : own' ⊆ own) : Takes st st' own' blocks where
  toAllocated := h.toAllocated
  fresh := fun b hb howned => h.fresh b hb (hsub howned)
  sound := h.sound.mono (Set.union_subset_union_left _ hsub)

/-- The header of the new segment gets the old head of the level. -/
theorem linkSegment_content {s : IndexPages} {level : Nat} {chain : List SegmentPages}
    {seg : SegmentPages} (hhead : s.levelHeads level = nextRoot chain)
    (hdisk : WrittenAt s.storage.content seg none) (hnodup : seg.all.Nodup) :
    WrittenAt (linkSegment s level seg.root).storage.content seg (nextRoot chain) ∧
      ∀ b, b ∉ seg.all →
        (linkSegment s level seg.root).storage.content b = s.storage.content b := by
  unfold linkSegment
  rw [hhead]
  cases hnext : nextRoot chain with
  | none => exact ⟨hdisk, fun _ _ => rfl⟩
  | some head =>
      obtain ⟨hwritten, hframe⟩ := setNextSegment_spec hdisk hnodup (some head)
      refine ⟨hwritten, ?_⟩
      intro b hb
      exact hframe b fun heq => hb (heq ▸ root_mem_all seg)

/-- **Linking a new segment** keeps the invariant. -/
theorem Chained.link {s : IndexPages} {chains : Nat → List SegmentPages} (h : Chained s chains)
    {level : Nat} (hlevel : level < tpMaxLevels) {seg : SegmentPages} {st : Storage}
    (htakes : Takes s.storage st (owned chains) seg.all) (hdisk : WrittenAt st.content seg none)
    {written : List SegmentPages} (hseg : seg ∈ written)
    (hrecorded : ∀ l, ∀ seg ∈ chains l, seg ∈ written) :
    Chained (linkSegment { s with storage := st, written := written } level seg.root)
      (Function.update chains level (seg :: chains level)) := by
  obtain ⟨hwritten, hframe⟩ := linkSegment_content
    (s := { s with storage := st, written := written }) (h.heads level) hdisk htakes.nodup
  obtain ⟨hn, hfree⟩ := linkSegment_storage
    { s with storage := st, written := written } level seg.root
  have hfresh : ∀ l, ∀ b ∈ chainPages (chains l), b ∉ seg.all :=
    fun l b hb hmem => htakes.fresh b hmem ⟨l, hb⟩
  have hold : ∀ l, ChainWritten
      (linkSegment { s with storage := st, written := written } level seg.root).storage.content
      (chains l) := by
    intro l
    refine (h.onDisk l).congr ?_
    intro b hb
    rw [hframe b (hfresh l b hb)]
    exact htakes.frame b (hfresh l b hb)
  refine
    { heads := ?_
      counts := ?_
      onDisk := ?_
      nodup := ?_
      apart := ?_
      top := ?_
      recorded := ?_
      sound := ?_ }
  · intro l
    by_cases hl : l = level
    · subst hl
      simp [linkSegment, nextRoot]
    · simp only [linkSegment, Function.update_of_ne hl, h.heads l]
  · intro l
    by_cases hl : l = level
    · subst hl
      simp only [linkSegment, Function.update_self, h.counts l, List.length_cons]
      omega
    · simp only [linkSegment, Function.update_of_ne hl, h.counts l]
  · intro l
    by_cases hl : l = level
    · subst hl
      rw [Function.update_self]
      exact ⟨hwritten, hold l⟩
    · rw [Function.update_of_ne hl]
      exact hold l
  · intro l
    by_cases hl : l = level
    · subst hl
      rw [Function.update_self, chainPages_cons]
      exact List.nodup_append'.2
        ⟨htakes.nodup, h.nodup l, fun b hb hb' => hfresh l b hb' hb⟩
    · rw [Function.update_of_ne hl]
      exact h.nodup l
  · intro l l' hne b hb hb'
    by_cases hl : l = level
    · subst hl
      rw [Function.update_of_ne (Ne.symm hne)] at hb'
      rw [Function.update_self, chainPages_cons, List.mem_append] at hb
      rcases hb with hb | hb
      · exact hfresh l' b hb' hb
      · exact h.apart l l' hne hb hb'
    · rw [Function.update_of_ne hl] at hb
      by_cases hl' : l' = level
      · subst hl'
        rw [Function.update_self, chainPages_cons, List.mem_append] at hb'
        rcases hb' with hb' | hb'
        · exact hfresh l b hb hb'
        · exact h.apart l l' hne hb hb'
      · rw [Function.update_of_ne hl'] at hb'
        exact h.apart l l' hne hb hb'
  · intro l hl
    rw [Function.update_of_ne (by omega)]
    exact h.top l hl
  · intro l seg' hseg'
    by_cases hl : l = level
    · subst hl
      rw [Function.update_self] at hseg'
      rcases List.mem_cons.1 hseg' with rfl | hseg'
      · exact hseg
      · exact hrecorded l seg' hseg'
    · rw [Function.update_of_ne hl] at hseg'
      exact hrecorded l seg' hseg'
  · rw [owned_update_cons]
    exact htakes.sound.of_eq hn hfree

/-! ## Merges -/

/-- The sources a merge finds in segments with terms. -/
def sourcesOf (chain : List SegmentPages) : List MergeSource :=
  chain.map fun seg => ⟨seg.root, seg.all, true⟩

theorem roots_sourcesOf (chain : List SegmentPages) :
    (sourcesOf chain).map MergeSource.root = chain.map SegmentPages.root := by
  rw [sourcesOf, List.map_map]
  rfl

theorem pages_sourcesOf (chain : List SegmentPages) :
    (sourcesOf chain).flatMap MergeSource.pages = chainPages chain := by
  rw [sourcesOf, List.flatMap_map]
  rfl

theorem hasTerms_sourcesOf {chain : List SegmentPages} (h : chain ≠ []) :
    (sourcesOf chain).all (fun src => !src.hasTerms) = false := by
  obtain ⟨seg, hseg⟩ := List.exists_mem_of_ne_nil _ h
  rw [List.all_eq_false]
  exact ⟨_, List.mem_map.2 ⟨seg, hseg, rfl⟩, by simp⟩

theorem collectSources_of_chainWritten {st : Storage} {chain : List SegmentPages}
    (hdisk : ChainWritten st.content chain) (hnodup : (chainPages chain).Nodup)
    (hlt : ∀ b ∈ chainPages chain, b < st.nblocks) {fuel : Nat} (hfuel : chain.length ≤ fuel)
    (wanted : Nat) :
    collectSources st fuel wanted (nextRoot chain) = .ok (sourcesOf (chain.take wanted)) := by
  induction chain generalizing fuel wanted with
  | nil =>
      rw [collectSources.eq_def]
      simp only [nextRoot, List.head?_nil, Option.map_none, List.take_nil]
      rfl
  | cons seg rest ih =>
      cases wanted with
      | zero =>
          rw [collectSources.eq_def]
          rfl
      | succ wanted =>
          obtain ⟨fuel, rfl⟩ := Nat.exists_eq_succ_of_ne_zero
            (show fuel ≠ 0 by rw [List.length_cons] at hfuel; omega)
          rw [chainPages_cons] at hnodup hlt
          have hown : seg.all.Nodup := hnodup.of_append_left
          have hlown : ∀ b ∈ seg.all, b < st.nblocks :=
            fun b hb => hlt b (List.mem_append_left _ hb)
          obtain ⟨numTerms, hpos, hopen⟩ := tpSegmentOpen_of_writtenAt hdisk.1 hown hlown
          have hcollect := tpSegmentCollectPages_of_writtenAt hdisk.1 hown hlown
          have hrest := ih hdisk.2 hnodup.of_append_right
            (fun b hb => hlt b (List.mem_append_right _ hb)) (Nat.le_of_succ_le_succ hfuel) wanted
          rw [nextRoot] at hrest
          rw [collectSources.eq_def]
          simp only [nextRoot, List.head?_cons, Option.map_some, hopen, hcollect, bind,
            Except.bind, hpos, decide_true, if_true, hrest]
          rfl

/-- The chains after a merge of a level into a new segment. -/
def mergedChains (chains : Nat → List SegmentPages) (level : Nat) (seg : SegmentPages) :
    Nat → List SegmentPages :=
  Function.update (Function.update chains level []) (level + 1) (seg :: chains (level + 1))

theorem mergedChains_eq (chains : Nat → List SegmentPages) (level : Nat) (seg : SegmentPages) :
    mergedChains chains level seg = Function.update (Function.update chains level []) (level + 1)
      (seg :: (Function.update chains level []) (level + 1)) := by
  rw [mergedChains, Function.update_of_ne (Nat.succ_ne_self level)]

theorem owned_mergedChains (chains : Nat → List SegmentPages) (level : Nat) (seg : SegmentPages) :
    owned (mergedChains chains level seg) =
      owned (Function.update chains level []) ∪ {b | b ∈ seg.all} := by
  rw [mergedChains_eq, owned_update_cons]

theorem chainPages_take {chain : List SegmentPages} {n b : Nat}
    (h : b ∈ chainPages (chain.take n)) : b ∈ chainPages chain := by
  obtain ⟨seg, hseg, hb⟩ := mem_chainPages.1 h
  exact mem_chainPages.2 ⟨seg, List.mem_of_mem_take hseg, hb⟩

/-- Publishing a merge: the pages of the sources are then nobody's. -/
theorem Chained.linkMerged {s : IndexPages} {chains : Nat → List SegmentPages}
    (h : Chained s chains) {level : Nat} (hlevel : level < tpMaxLevels - 1) {seg : SegmentPages}
    {st : Storage} (htakes : Takes s.storage st (owned chains) seg.all)
    (hdisk : WrittenAt st.content seg none) (n : Nat) :
    Chained (linkMerged s level (sourcesOf ((chains level).take n)) seg st)
        (mergedChains chains level seg) ∧
      Sound (linkMerged s level (sourcesOf ((chains level).take n)) seg st).storage
        (owned (mergedChains chains level seg) ∪ {b | b ∈ chainPages ((chains level).take n)}) ∧
      ∀ b ∈ chainPages ((chains level).take n), b ∉ owned (mergedChains chains level seg) := by
  have hsub := owned_update_subset chains level
  refine ⟨?_, ?_, ?_⟩
  · have hrecorded : ∀ l, ∀ w ∈ Function.update chains level [] l,
        w ∈ seg :: s.written.filter
          (fun w => w.root ∉ (sourcesOf ((chains level).take n)).map MergeSource.root) := by
      intro l w hw
      by_cases hl : l = level
      · subst hl
        rw [Function.update_self] at hw
        cases hw
      · rw [Function.update_of_ne hl] at hw
        refine List.mem_cons_of_mem _ (List.mem_filter.2 ⟨h.recorded l w hw, ?_⟩)
        rw [decide_eq_true_iff, roots_sourcesOf]
        intro hmem
        obtain ⟨w', hw', hroot⟩ := List.mem_map.1 hmem
        have hin : w.root ∈ chainPages (chains level) :=
          mem_chainPages.2 ⟨w', List.mem_of_mem_take hw', hroot ▸ root_mem_all w'⟩
        exact h.apart l level hl (mem_chainPages.2 ⟨w, hw, root_mem_all w⟩) hin
    have hlinked := (h.clear level).link (show level + 1 < tpMaxLevels by omega)
      (htakes.mono hsub) hdisk List.mem_cons_self hrecorded
    rw [← mergedChains_eq] at hlinked
    exact hlinked
  · obtain ⟨hn, hfree⟩ := linkSegment_storage
      { s with
        storage := st
        levelHeads := Function.update s.levelHeads level none
        levelCounts := Function.update s.levelCounts level 0
        written := seg :: s.written.filter
          (fun w => w.root ∉ (sourcesOf ((chains level).take n)).map MergeSource.root) }
      (level + 1) seg.root
    have hsound := htakes.sound.mono (show owned (mergedChains chains level seg) ∪
        {b | b ∈ chainPages ((chains level).take n)} ⊆ owned chains ∪ {b | b ∈ seg.all} by
      rw [owned_mergedChains]
      refine Set.union_subset (Set.union_subset_union_left _ hsub) ?_
      exact fun b hb => Or.inl ⟨level, chainPages_take hb⟩)
    exact hsound.of_eq hn hfree
  · intro b hb hmem
    rw [owned_mergedChains] at hmem
    rcases hmem with ⟨l, hl⟩ | hseg
    · by_cases heq : l = level
      · subst heq
        rw [Function.update_self] at hl
        cases hl
      · rw [Function.update_of_ne heq] at hl
        exact h.apart l level heq hl (chainPages_take hb)
    · exact htakes.fresh b hseg ⟨level, chainPages_take hb⟩

/-- What a merge leads to. -/
structure Merged (s s' : IndexPages) (chains : Nat → List SegmentPages) (level : Nat)
    (seg : SegmentPages) : Prop where
  chained : Chained s' (mergedChains chains level seg)
  counts : s'.levelCounts = Function.update (Function.update s.levelCounts level 0) (level + 1)
    ((s.levelCounts (level + 1) + 1) % 2 ^ 16)
  written : ∀ w ∈ s'.written, w = seg ∨ w ∈ s.written ∧
    w.root ∉ ((chains level).take (s.levelCounts level)).map SegmentPages.root
  last : s.storage.freePages = [] → s'.storage.nblocks - 1 ∈ seg.all

theorem last_mem_of_takes {st st' : Storage} {own : Set Nat} {seg : SegmentPages}
    (h : Takes st st' own seg.all) (hnone : st.freePages = []) : st'.nblocks - 1 ∈ seg.all := by
  obtain ⟨-, hrange, hn⟩ := h.no_free hnone
  have hpos : 0 < seg.all.length := List.length_pos_of_mem (root_mem_all seg)
  rw [hrange, List.mem_range'_1, hn]
  omega

/-- **A merge** of a level with a counter that is not zero succeeds. -/
theorem tpMergeLevelSegments_spec (fsm : FreeSpaceMap) (size : SegmentSize) {s : IndexPages}
    {chains : Nat → List SegmentPages} (h : Chained s chains) {level : Nat}
    (hlevel : level < tpMaxLevels - 1) (hcount : s.levelCounts level ≠ 0) :
    ∃ s' seg, tpMergeLevelSegments fsm size s level = .ok (some s') ∧
      Merged s s' chains level seg := by
  have hne : chains level ≠ [] := by
    intro hnil
    rw [h.counts, hnil] at hcount
    exact hcount rfl
  have hhead : nextRoot (chains level) ≠ none := by
    rw [nextRoot]
    simpa using hne
  have hconsumed : (chains level).take (s.levelCounts level) ≠ [] := by
    intro hnil
    rcases List.take_eq_nil_iff.1 hnil with hzero | hnil
    · exact hcount hzero
    · exact hne hnil
  have hcollect := collectSources_of_chainWritten (h.onDisk level) (h.nodup level) (h.lt level)
    (length_chain_le (h.nodup level) (h.lt level)) (s.levelCounts level)
  obtain ⟨seg, st, hwrite, hdisk, htakes⟩ := writeSegment_spec fsm size h.sound
  obtain ⟨hchained, hsound, hapart⟩ := h.linkMerged hlevel htakes hdisk (s.levelCounts level)
  obtain ⟨st', hfreed, hsound', hcontent, hn⟩ := tpSegmentFreePages_spec hsound hapart
  refine ⟨{ linkMerged s level (sourcesOf ((chains level).take (s.levelCounts level))) seg st with
    storage := st' }, seg, ?_, ?_⟩
  · unfold tpMergeLevelSegments
    rw [if_neg (by omega), h.heads level, if_neg (by simp [hhead, hcount]), hcollect]
    simp only [bind, Except.bind, hasTerms_sourcesOf hconsumed, hwrite, pages_sourcesOf, hfreed,
      Bool.false_eq_true, if_false]
    rfl
  · refine
      { chained := hchained.storage hsound' fun b _ => congrFun hcontent b
        counts := ?_
        written := ?_
        last := ?_ }
    · show (linkSegment _ (level + 1) seg.root).levelCounts = _
      simp only [linkSegment, Function.update_of_ne (Nat.succ_ne_self level)]
    · intro w hw
      rcases List.mem_cons.1 hw with rfl | hw
      · exact Or.inl rfl
      · obtain ⟨hin, hnot⟩ := List.mem_filter.1 hw
        rw [decide_eq_true_iff, roots_sourcesOf] at hnot
        exact Or.inr ⟨hin, hnot⟩
    · intro hnone
      have hblocks : st'.nblocks = st.nblocks := hn.trans (linkSegment_storage _ _ _).1
      show st'.nblocks - 1 ∈ seg.all
      rw [hblocks]
      exact last_mem_of_takes htakes hnone

/-- A merge keeps the chains complete when the counter is right and the next level's
counter has room. -/
theorem Merged.complete {s s' : IndexPages} {chains : Nat → List SegmentPages} {level : Nat}
    {seg : SegmentPages} (hm : Merged s s' chains level seg) (hchained : Chained s chains)
    (h : Complete s chains) (hroom : s.levelCounts (level + 1) < 2 ^ 16 - 1) :
    Complete s' (mergedChains chains level seg) where
  length_lt := by
    intro l
    unfold mergedChains
    by_cases hl : l = level + 1
    · subst hl
      rw [Function.update_self, List.length_cons]
      rw [hchained.counts, Nat.mod_eq_of_lt (h.length_lt _)] at hroom
      omega
    · rw [Function.update_of_ne hl]
      by_cases hl' : l = level
      · subst hl'
        rw [Function.update_self]
        decide
      · rw [Function.update_of_ne hl']
        exact h.length_lt l
  covers := by
    intro w hw
    unfold mergedChains
    rcases hm.written w hw with rfl | ⟨hin, hnot⟩
    · exact ⟨level + 1, by rw [Function.update_self]; exact List.mem_cons_self⟩
    · obtain ⟨l, hl⟩ := h.covers w hin
      rw [hchained.counts, Nat.mod_eq_of_lt (h.length_lt level), List.take_length] at hnot
      have hne : l ≠ level := fun heq => hnot (List.mem_map.2 ⟨w, heq ▸ hl, rfl⟩)
      by_cases hl' : l = level + 1
      · subst hl'
        exact ⟨level + 1, by rw [Function.update_self]; exact List.mem_cons_of_mem _ hl⟩
      · refine ⟨l, ?_⟩
        rw [Function.update_of_ne hl', Function.update_of_ne hne]
        exact hl

/-! ## Compaction and spills -/

/-- The counters below the level a compaction starts at have room for the segments it
links: `tp_maybe_compact_level` on the counters. -/
def CompactRoom (perLevel : SegmentsPerLevel) : Nat → (Nat → Nat) → Nat → Prop
  | 0, _, _ => True
  | fuel + 1, counts, level =>
      level < tpMaxLevels - 1 → perLevel.value ≤ counts level →
        counts (level + 1) < 2 ^ 16 - 1 ∧
          CompactRoom perLevel fuel (Function.update counts (level + 1) (counts (level + 1) + 1))
            (level + 1)

theorem CompactRoom.congr {perLevel : SegmentsPerLevel} {fuel level : Nat}
    {counts counts' : Nat → Nat} (h : CompactRoom perLevel fuel counts level)
    (heq : ∀ l, level ≤ l → counts' l = counts l) : CompactRoom perLevel fuel counts' level := by
  induction fuel generalizing counts counts' level with
  | zero => trivial
  | succ fuel ih =>
      intro hlevel hcount
      rw [heq level (Nat.le_refl _)] at hcount
      obtain ⟨hroom, hrest⟩ := h hlevel hcount
      rw [← heq (level + 1) (Nat.le_succ level)] at hroom
      refine ⟨hroom, ih hrest ?_⟩
      intro l hl
      by_cases hl' : l = level + 1
      · subst hl'
        rw [Function.update_self, Function.update_self, heq _ (Nat.le_succ level)]
      · rw [Function.update_of_ne hl', Function.update_of_ne hl', heq l (by omega)]

/-- **Compaction** succeeds; it keeps the chains complete if there is room. -/
theorem tpMaybeCompactLevel_spec (fsm : FreeSpaceMap) (perLevel : SegmentsPerLevel)
    (sizes : Nat → SegmentSize) (fuel : Nat) {s : IndexPages} {chains : Nat → List SegmentPages}
    (h : Chained s chains) (level : Nat) :
    ∃ s' chains', tpMaybeCompactLevel fsm perLevel sizes fuel s level = .ok s' ∧
      Chained s' chains' ∧
      (Complete s chains → CompactRoom perLevel fuel s.levelCounts level →
        Complete s' chains') := by
  induction fuel generalizing s chains level with
  | zero => exact ⟨s, chains, rfl, h, fun hc _ => hc⟩
  | succ fuel ih =>
      unfold tpMaybeCompactLevel
      by_cases hlevel : level ≥ tpMaxLevels - 1
      · exact ⟨s, chains, if_pos hlevel, h, fun hc _ => hc⟩
      rw [if_neg hlevel]
      by_cases hcount : s.levelCounts level < perLevel.value
      · exact ⟨s, chains, if_pos hcount, h, fun hc _ => hc⟩
      rw [if_neg hcount]
      have hmin := perLevel.min_le
      obtain ⟨s₁, seg, hmerge, hmerged⟩ := tpMergeLevelSegments_spec fsm (sizes (level + 1)) h
        (show level < tpMaxLevels - 1 by omega) (show s.levelCounts level ≠ 0 by omega)
      obtain ⟨s', chains', hcompact, hchained, hkeeps⟩ := ih hmerged.chained (level + 1)
      refine ⟨s', chains', ?_, hchained, ?_⟩
      · rw [hmerge]
        exact hcompact
      · intro hc hroom
        obtain ⟨hnext, hrest⟩ := hroom (by omega) (by omega)
        refine hkeeps (hmerged.complete h hc hnext) (hrest.congr ?_)
        intro l hl
        rw [hmerged.counts]
        by_cases hl' : l = level + 1
        · subst hl'
          rw [Function.update_self, Function.update_self, Nat.mod_eq_of_lt (by omega)]
        · rw [Function.update_of_ne hl', Function.update_of_ne hl',
            Function.update_of_ne (by omega)]

/-- The pages written by `writeAndRecord`. -/
theorem writeAndRecord_spec (fsm : FreeSpaceMap) (size : SegmentSize) {s : IndexPages}
    {own : Set Nat} (h : Sound s.storage own) :
    ∃ seg st, writeAndRecord fsm size s =
        .ok (seg, { s with storage := st, written := seg :: s.written }) ∧
      WrittenAt st.content seg none ∧ Takes s.storage st own seg.all := by
  obtain ⟨seg, st, hwrite, hdisk, htakes⟩ := writeSegment_spec fsm size h
  refine ⟨seg, st, ?_, hdisk, htakes⟩
  rw [writeAndRecord, hwrite]
  rfl

/-- Writing a segment and linking it at level 0. -/
theorem writeAndLink_spec (fsm : FreeSpaceMap) (size : SegmentSize) {s : IndexPages}
    {chains : Nat → List SegmentPages} (h : Chained s chains) :
    ∃ seg s₁, writeAndRecord fsm size s = .ok (seg, s₁) ∧
      Chained (linkSegment s₁ 0 seg.root) (Function.update chains 0 (seg :: chains 0)) ∧
      (linkSegment s₁ 0 seg.root).levelCounts =
        Function.update s.levelCounts 0 ((s.levelCounts 0 + 1) % 2 ^ 16) ∧
      (Complete s chains → s.levelCounts 0 < 2 ^ 16 - 1 →
        Complete (linkSegment s₁ 0 seg.root) (Function.update chains 0 (seg :: chains 0))) := by
  obtain ⟨seg, st, hwrite, hdisk, htakes⟩ := writeAndRecord_spec fsm size h.sound
  refine ⟨seg, _, hwrite, h.link (by decide) htakes hdisk List.mem_cons_self
    fun l w hw => List.mem_cons_of_mem _ (h.recorded l w hw), rfl, ?_⟩
  intro hc hroom
  rw [h.counts, Nat.mod_eq_of_lt (hc.length_lt 0)] at hroom
  constructor
  · intro l
    by_cases hl : l = 0
    · subst hl
      rw [Function.update_self, List.length_cons]
      omega
    · rw [Function.update_of_ne hl]
      exact hc.length_lt l
  · intro w hw
    rcases List.mem_cons.1 hw with rfl | hw
    · exact ⟨0, by rw [Function.update_self]; exact List.mem_cons_self⟩
    · obtain ⟨l, hl⟩ := hc.covers w hw
      by_cases hl0 : l = 0
      · subst hl0
        exact ⟨0, by rw [Function.update_self]; exact List.mem_cons_of_mem _ hl⟩
      · exact ⟨l, by rw [Function.update_of_ne hl0]; exact hl⟩

/-- The counters have room for a spill. -/
def SpillRoom (perLevel : SegmentsPerLevel) (counts : Nat → Nat) : Prop :=
  counts 0 < 2 ^ 16 - 1 ∧
    CompactRoom perLevel tpMaxLevels (Function.update counts 0 (counts 0 + 1)) 0

theorem spill_spec (fsm : FreeSpaceMap) (perLevel : SegmentsPerLevel) (size : SegmentSize)
    (sizes : Nat → SegmentSize) (statsPages : Nat) {s : IndexPages}
    {chains : Nat → List SegmentPages} (h : Chained s chains) :
    ∃ s' chains', spill fsm perLevel size sizes statsPages s = .ok s' ∧ Chained s' chains' ∧
      (Complete s chains → SpillRoom perLevel s.levelCounts → Complete s' chains') := by
  obtain ⟨seg, s₁, hwrite, hlinked, hcounts, hcomplete⟩ := writeAndLink_spec fsm size h
  obtain ⟨s', chains', hcompact, hchained, hkeeps⟩ :=
    tpMaybeCompactLevel_spec fsm perLevel sizes tpMaxLevels (hlinked.addPages statsPages) 0
  refine ⟨s', chains', ?_, hchained, ?_⟩
  · rw [spill, hwrite]
    exact hcompact
  · rintro hc ⟨hroom, hrest⟩
    obtain ⟨hlen, hcovers⟩ := hcomplete hc hroom
    refine hkeeps ⟨hlen, hcovers⟩ (hrest.congr ?_)
    intro l _
    show (linkSegment s₁ 0 seg.root).levelCounts l = _
    rw [hcounts, Nat.mod_eq_of_lt (by omega)]

theorem finalSpill_spec (fsm : FreeSpaceMap) (size : SegmentSize) {s : IndexPages}
    {chains : Nat → List SegmentPages} (h : Chained s chains) :
    ∃ s' chains', finalSpill fsm size s = .ok s' ∧ Chained s' chains' ∧
      (Complete s chains → s.levelCounts 0 < 2 ^ 16 - 1 → Complete s' chains') := by
  obtain ⟨seg, s₁, hwrite, hlinked, -, hcomplete⟩ := writeAndLink_spec fsm size h
  refine ⟨linkSegment s₁ 0 seg.root, _, ?_, hlinked, hcomplete⟩
  rw [finalSpill, hwrite]
  rfl

/-! ## The leader of a parallel build -/

/-- Appending a segment to a chain: the last header gets the new block. -/
theorem ChainWritten.snoc {content : Nat → PageContent} {chain : List SegmentPages}
    {last seg : SegmentPages} (h : ChainWritten content (chain ++ [last]))
    (hseg : WrittenAt content seg none)
    (hnodup : (chainPages (chain ++ [last] ++ [seg])).Nodup) :
    ChainWritten (setNextSegment content last.root (some seg.root)) (chain ++ [last] ++ [seg]) := by
  induction chain with
  | nil =>
      have hpages : (last.all ++ seg.all).Nodup := by
        simpa [chainPages] using hnodup
      obtain ⟨hwritten, hframe⟩ :=
        setNextSegment_spec h.1 hpages.of_append_left (some seg.root)
      refine ⟨hwritten, hseg.congr ?_, trivial⟩
      intro b hb
      apply hframe
      rintro rfl
      exact (List.nodup_append'.1 hpages).2.2 (root_mem_all last) hb
  | cons first rest ih =>
      rw [List.cons_append, List.cons_append, chainPages_cons] at hnodup
      have hrest := ih h.2 hnodup.of_append_right
      refine ⟨?_, hrest⟩
      have hnext : nextRoot (rest ++ [last] ++ [seg]) = nextRoot (rest ++ [last]) := by
        cases rest <;> rfl
      show WrittenAt _ first (nextRoot (rest ++ [last] ++ [seg]))
      rw [hnext]
      refine h.1.congr ?_
      intro b hb
      have hlast : WrittenAt content last none := by
        have hdisk := h.2
        clear ih hnodup hrest hnext h hb
        induction rest with
        | nil => exact hdisk.1
        | cons _ _ ih => exact ih hdisk.2
      have hlastNodup : last.all.Nodup := by
        have hall := hnodup.of_append_right
        rw [chainPages, List.nodup_flatMap] at hall
        exact hall.1 last (by simp)
      refine (setNextSegment_spec hlast hlastNodup (some seg.root)).2 b ?_
      rintro rfl
      refine (List.nodup_append'.1 hnodup).2.2 hb ?_
      exact mem_chainPages.2 ⟨last, by simp, root_mem_all last⟩

/-- The leader's chain, before the metapage knows of it.  Nothing has been freed yet,
so the file ends with a page of the last segment. -/
structure LeaderInv (chain : List SegmentPages) (leader : LeaderChain) (s : IndexPages) :
    Prop where
  head : leader.segmentHead = nextRoot chain
  tail : leader.segmentTail = chain.getLast?.map SegmentPages.root
  count : leader.segmentCount = chain.length
  onDisk : ChainWritten s.storage.content chain
  nodup : (chainPages chain).Nodup
  sound : Sound s.storage {b | b ∈ chainPages chain}
  no_free : s.storage.freePages = []
  last : s.storage.nblocks = 1 ∨ s.storage.nblocks - 1 ∈ chainPages chain
  heads : s.levelHeads = fun _ => none
  counts : s.levelCounts = fun _ => 0
  recorded : ∀ seg, seg ∈ s.written ↔ seg ∈ chain

theorem leaderInv_fresh : LeaderInv [] ⟨none, none, 0⟩ IndexPages.fresh where
  head := rfl
  tail := rfl
  count := rfl
  onDisk := trivial
  nodup := List.nodup_nil
  sound := chained_fresh.sound.mono fun _ hb => absurd hb List.not_mem_nil
  no_free := rfl
  last := Or.inl rfl
  heads := rfl
  counts := rfl
  recorded := fun _ => Iff.rfl

private theorem chainPages_snoc (chain : List SegmentPages) (seg : SegmentPages) :
    chainPages (chain ++ [seg]) = chainPages chain ++ seg.all := by
  simp [chainPages]

/-- The chain grows by one segment. -/
theorem LeaderInv.step {chain : List SegmentPages} {leader : LeaderChain} {s : IndexPages}
    (h : LeaderInv chain leader s) {seg : SegmentPages} {st : Storage}
    (htakes : Takes s.storage st {b | b ∈ chainPages chain} seg.all)
    {content : Nat → PageContent}
    (hcontent : ChainWritten content (chain ++ [seg])) :
    LeaderInv (chain ++ [seg])
      ⟨some ((leader.segmentHead).getD seg.root), some seg.root, leader.segmentCount + 1⟩
      { s with storage := { st with content := content }, written := seg :: s.written } where
  head := by
    rw [h.head]
    cases chain <;> rfl
  tail := by simp
  count := by rw [h.count, List.length_append, List.length_singleton]
  onDisk := hcontent
  nodup := by
    rw [chainPages_snoc]
    exact List.nodup_append'.2
      ⟨h.nodup, htakes.nodup, fun b hb hb' => htakes.fresh b hb' hb⟩
  sound := by
    refine (htakes.sound.mono ?_).of_eq rfl rfl
    intro b hb
    have hmem : b ∈ chainPages (chain ++ [seg]) := hb
    rw [chainPages_snoc, List.mem_append] at hmem
    exact hmem
  no_free := (htakes.no_free h.no_free).1
  last := by
    have hlast := last_mem_of_takes htakes h.no_free
    refine Or.inr ?_
    rw [chainPages_snoc]
    exact List.mem_append_right _ hlast
  heads := h.heads
  counts := h.counts
  recorded := by
    intro w
    rw [List.mem_cons, h.recorded w, List.mem_append, List.mem_singleton, or_comm]

theorem leaderWriteSegments_spec (fsm : FreeSpaceMap) (sizes : List SegmentSize)
    {chain : List SegmentPages} {leader : LeaderChain} {s : IndexPages}
    (h : LeaderInv chain leader s) :
    ∃ chain' leader' s', leaderWriteSegments fsm sizes leader s = .ok (leader', s') ∧
      LeaderInv chain' leader' s' ∧ chain'.length = chain.length + sizes.length := by
  induction sizes generalizing chain leader s with
  | nil => exact ⟨chain, leader, s, rfl, h, rfl⟩
  | cons size sizes ih =>
      obtain ⟨seg, st, hwrite, hdisk, htakes⟩ := writeAndRecord_spec fsm size h.sound
      have hframe : ∀ b ∈ chainPages chain, st.content b = s.storage.content b :=
        fun b hb => htakes.frame b fun hmem => htakes.fresh b hmem hb
      rcases List.eq_nil_or_concat' chain with rfl | ⟨front, last, rfl⟩
      · have hone : ChainWritten st.content ([] ++ [seg]) := ⟨hdisk, trivial⟩
        obtain ⟨chain', leader', s', hok, hinv, hlen⟩ := ih (h.step htakes hone)
        refine ⟨chain', leader', s', ?_, hinv, ?_⟩
        · rw [leaderWriteSegments, hwrite]
          simp only [bind, Except.bind, h.head, nextRoot, List.head?_nil, Option.map_none]
          rw [h.head] at hok
          exact hok
        · rw [hlen, List.length_append, List.length_singleton, List.length_cons]
          omega
      · have hnodup : (chainPages (front ++ [last] ++ [seg])).Nodup := by
          rw [chainPages_snoc]
          exact List.nodup_append'.2
            ⟨h.nodup, htakes.nodup, fun b hb hb' => htakes.fresh b hb' hb⟩
        have hmore := (h.onDisk.congr hframe).snoc hdisk hnodup
        obtain ⟨chain', leader', s', hok, hinv, hlen⟩ := ih (h.step htakes hmore)
        refine ⟨chain', leader', s', ?_, hinv, ?_⟩
        · obtain ⟨head, hhead⟩ : ∃ head, leader.segmentHead = some head := by
            rw [h.head]
            cases front <;> exact ⟨_, rfl⟩
          have htail : leader.segmentTail = some last.root := by
            rw [h.tail]
            simp
          rw [hhead] at hok
          rw [leaderWriteSegments, hwrite]
          simp only [bind, Except.bind, hhead, htail]
          exact hok
        · rw [hlen, List.length_append, List.length_singleton, List.length_cons]
          omega

/-! ## The final truncation -/

private theorem foldl_maxUsed (pages : List Nat) (maxUsed : Nat) :
    maxUsed ≤ pages.foldl (fun used page => max used (page + 1)) maxUsed ∧
      ∀ b ∈ pages, b < pages.foldl (fun used page => max used (page + 1)) maxUsed := by
  induction pages generalizing maxUsed with
  | nil => exact ⟨Nat.le_refl _, fun b hb => absurd hb List.not_mem_nil⟩
  | cons page rest ih =>
      obtain ⟨hle, hlt⟩ := ih (max maxUsed (page + 1))
      rw [List.foldl_cons]
      refine ⟨by omega, ?_⟩
      intro b hb
      rcases List.mem_cons.1 hb with rfl | hb
      · omega
      · exact hlt b hb

theorem maxUsedOfChain_spec {st : Storage} {chain : List SegmentPages}
    (hdisk : ChainWritten st.content chain) (hnodup : (chainPages chain).Nodup)
    (hlt : ∀ b ∈ chainPages chain, b < st.nblocks) {fuel : Nat} (hfuel : chain.length ≤ fuel)
    (maxUsed : Nat) :
    ∃ used, maxUsedOfChain st fuel (nextRoot chain) maxUsed = .ok used ∧ maxUsed ≤ used ∧
      ∀ b ∈ chainPages chain, b < used := by
  induction chain generalizing fuel maxUsed with
  | nil =>
      refine ⟨maxUsed, ?_, Nat.le_refl _, fun b hb => absurd hb List.not_mem_nil⟩
      cases fuel <;> rfl
  | cons seg rest ih =>
      obtain ⟨fuel, rfl⟩ := Nat.exists_eq_succ_of_ne_zero
        (show fuel ≠ 0 by rw [List.length_cons] at hfuel; omega)
      rw [chainPages_cons] at hnodup hlt
      have hown : seg.all.Nodup := hnodup.of_append_left
      have hlown : ∀ b ∈ seg.all, b < st.nblocks := fun b hb => hlt b (List.mem_append_left _ hb)
      obtain ⟨numTerms, -, hopen⟩ := tpSegmentOpen_of_writtenAt hdisk.1 hown hlown
      have hcollect := tpSegmentCollectPages_of_writtenAt hdisk.1 hown hlown
      obtain ⟨hle, hmem⟩ := foldl_maxUsed seg.all maxUsed
      obtain ⟨used, hrest, hle', hmem'⟩ := ih hdisk.2 hnodup.of_append_right
        (fun b hb => hlt b (List.mem_append_right _ hb)) (Nat.le_of_succ_le_succ hfuel)
        (seg.all.foldl (fun used page => max used (page + 1)) maxUsed)
      refine ⟨used, ?_, Nat.le_trans hle hle', ?_⟩
      · simp only [nextRoot, List.head?_cons, Option.map_some, maxUsedOfChain, hcollect, hopen,
          bind, Except.bind]
        exact hrest
      · intro b hb
        rw [chainPages_cons, List.mem_append] at hb
        rcases hb with hb | hb
        · exact Nat.lt_of_lt_of_le (hmem b hb) hle'
        · exact hmem' b hb

theorem maxUsedOfLevels_spec {s : IndexPages} {chains : Nat → List SegmentPages}
    (h : Chained s chains) (levels : List Nat) (maxUsed : Nat) :
    ∃ used, maxUsedOfLevels s.storage s.levelHeads levels maxUsed = .ok used ∧ maxUsed ≤ used ∧
      ∀ l ∈ levels, ∀ b ∈ chainPages (chains l), b < used := by
  induction levels generalizing maxUsed with
  | nil => exact ⟨maxUsed, rfl, Nat.le_refl _, fun l hl => absurd hl List.not_mem_nil⟩
  | cons level levels ih =>
      obtain ⟨used₁, hchain, hle₁, hmem₁⟩ := maxUsedOfChain_spec (h.onDisk level) (h.nodup level)
        (h.lt level) (length_chain_le (h.nodup level) (h.lt level)) maxUsed
      obtain ⟨used, hrest, hle, hmem⟩ := ih used₁
      refine ⟨used, ?_, Nat.le_trans hle₁ hle, ?_⟩
      · rw [maxUsedOfLevels, h.heads level, hchain]
        exact hrest
      · intro l hl b hb
        rcases List.mem_cons.1 hl with rfl | hl
        · exact Nat.lt_of_lt_of_le (hmem₁ b hb) hle
        · exact hmem l hl b hb

/-- **The truncation has nothing to cut off** when the last page of the file belongs to a
segment. -/
theorem finalTruncation_of_last {s : IndexPages} {chains : Nat → List SegmentPages}
    (h : Chained s chains)
    (hlast : s.storage.nblocks = 1 ∨ s.storage.nblocks - 1 ∈ owned chains) :
    finalTruncation s = .ok s := by
  obtain ⟨used, hused, hle, hmem⟩ := maxUsedOfLevels_spec h (List.range tpMaxLevels) 1
  have hcover : s.storage.nblocks ≤ used := by
    rcases hlast with hone | ⟨l, hb⟩
    · omega
    · have hl : l < tpMaxLevels := by
        by_contra hge
        rw [h.top l (by omega)] at hb
        cases hb
      have := hmem l (List.mem_range.2 hl) _ hb
      omega
  unfold finalTruncation
  rw [hused]
  simp only [bind, Except.bind, if_neg (Nat.not_lt.2 hcover)]
  rfl

/-! ## Parallel builds -/

/-- The levels of a new index with one chain. -/
def firstLevel (chain : List SegmentPages) : Nat → List SegmentPages :=
  Function.update (fun _ => []) 0 chain

theorem owned_firstLevel (chain : List SegmentPages) :
    owned (firstLevel chain) = {b | b ∈ chainPages chain} := by
  ext b
  constructor
  · rintro ⟨l, hb⟩
    by_cases hl : l = 0
    · subst hl
      exact hb
    · rw [firstLevel, Function.update_of_ne hl] at hb
      cases hb
  · intro hb
    exact ⟨0, hb⟩

/-- The metapage takes the leader's chain over. -/
theorem LeaderInv.chained {chain : List SegmentPages} {leader : LeaderChain} {s : IndexPages}
    (h : LeaderInv chain leader s) :
    Chained { s with
      levelHeads := Function.update s.levelHeads 0 leader.segmentHead
      levelCounts := Function.update s.levelCounts 0 (leader.segmentCount % 2 ^ 16) }
      (firstLevel chain) := by
  have hother : ∀ l, l ≠ 0 → firstLevel chain l = [] :=
    fun l hl => Function.update_of_ne hl _ _
  refine
    { heads := ?_
      counts := ?_
      onDisk := ?_
      nodup := ?_
      apart := ?_
      top := ?_
      recorded := ?_
      sound := ?_ }
  · intro l
    by_cases hl : l = 0
    · subst hl
      simp only [Function.update_self, h.head, firstLevel]
    · rw [hother l hl]
      simp only [Function.update_of_ne hl, h.heads]
      rfl
  · intro l
    by_cases hl : l = 0
    · subst hl
      simp only [Function.update_self, h.count, firstLevel]
    · rw [hother l hl]
      simp only [Function.update_of_ne hl, h.counts]
      rfl
  · intro l
    by_cases hl : l = 0
    · subst hl
      exact h.onDisk
    · rw [hother l hl]
      trivial
  · intro l
    by_cases hl : l = 0
    · subst hl
      exact h.nodup
    · rw [hother l hl]
      exact List.nodup_nil
  · intro l l' hne b hb hb'
    by_cases hl : l = 0
    · rw [hother l' fun hl' => hne (hl.trans hl'.symm)] at hb'
      cases hb'
    · rw [hother l hl] at hb
      cases hb
  · exact fun l hl => hother l (by simp only [tpMaxLevels] at hl; omega)
  · intro l seg hseg
    by_cases hl : l = 0
    · subst hl
      exact (h.recorded seg).2 hseg
    · rw [hother l hl] at hseg
      cases hseg
  · rw [owned_firstLevel]
    exact h.sound.of_eq rfl rfl

theorem LeaderInv.complete {chain : List SegmentPages} {leader : LeaderChain} {s : IndexPages}
    (h : LeaderInv chain leader s) (hlen : chain.length < 2 ^ 16) :
    Complete { s with
      levelHeads := Function.update s.levelHeads 0 leader.segmentHead
      levelCounts := Function.update s.levelCounts 0 (leader.segmentCount % 2 ^ 16) }
      (firstLevel chain) where
  length_lt := by
    intro l
    by_cases hl : l = 0
    · subst hl
      exact hlen
    · rw [firstLevel, Function.update_of_ne hl]
      decide
  covers := fun seg hseg => ⟨0, (h.recorded seg).1 hseg⟩

/-- On a new file a compaction merges at most once, and then the file ends with a page
of the merged segment. -/
theorem compact_firstLevel (fsm : FreeSpaceMap) (perLevel : SegmentsPerLevel)
    (sizes : Nat → SegmentSize) {s : IndexPages} {chain : List SegmentPages}
    (h : Chained s (firstLevel chain)) (hfree : s.storage.freePages = [])
    (hlast : s.storage.nblocks = 1 ∨ s.storage.nblocks - 1 ∈ owned (firstLevel chain)) :
    ∃ s' chains', tpMaybeCompactLevel fsm perLevel sizes tpMaxLevels s 0 = .ok s' ∧
      Chained s' chains' ∧
      (s'.storage.nblocks = 1 ∨ s'.storage.nblocks - 1 ∈ owned chains') ∧
      (Complete s (firstLevel chain) → Complete s' chains') ∧
      (s.levelCounts 0 < perLevel.value → s' = s ∧ chains' = firstLevel chain) := by
  rw [show tpMaxLevels = 6 + 1 + 1 from rfl, tpMaybeCompactLevel, if_neg (by decide)]
  by_cases hcount : s.levelCounts 0 < perLevel.value
  · exact ⟨s, firstLevel chain, if_pos hcount, h, hlast, id, fun _ => ⟨rfl, rfl⟩⟩
  rw [if_neg hcount]
  have hmin := perLevel.min_le
  obtain ⟨s₁, seg, hmerge, hmerged⟩ := tpMergeLevelSegments_spec fsm (sizes (0 + 1)) h
    (by decide) (show s.levelCounts 0 ≠ 0 by omega)
  have hzero : s.levelCounts 1 = 0 := by
    rw [h.counts]
    rfl
  have hone : s₁.levelCounts 1 = 1 := by
    rw [hmerged.counts, Nat.zero_add, Function.update_self, hzero]
    decide
  refine ⟨s₁, mergedChains (firstLevel chain) 0 seg, ?_, hmerged.chained, Or.inr ?_, ?_, ?_⟩
  · rw [hmerge]
    show tpMaybeCompactLevel fsm perLevel sizes (6 + 1) s₁ (0 + 1) = _
    rw [tpMaybeCompactLevel, if_neg (by decide), Nat.zero_add, if_pos (by omega)]
    rfl
  · rw [owned_mergedChains]
    exact Or.inr (hmerged.last hfree)
  · intro hc
    refine hmerged.complete h hc ?_
    rw [Nat.zero_add, hzero]
    decide
  · exact fun hlt => absurd hlt hcount

/-- **A parallel build** succeeds.  Its chains are complete if the leader writes fewer
than 65536 segments; if the counter stays below the limit there is no merge. -/
theorem tpBuildParallel_spec (fsm : FreeSpaceMap) (perLevel : SegmentsPerLevel)
    (segments : List SegmentSize) (sizes : Nat → SegmentSize) (statsPages : Nat) :
    ∃ s chains, tpBuildParallel fsm perLevel segments sizes statsPages = .ok s ∧
      Chained s chains ∧ (segments.length < 2 ^ 16 → Complete s chains) ∧
      (segments.length % 2 ^ 16 < perLevel.value → (chains 0).length = segments.length) := by
  obtain ⟨chain, leader, s₁, hleader, hinv, hlen⟩ :=
    leaderWriteSegments_spec fsm segments leaderInv_fresh
  rw [List.length_nil, Nat.zero_add] at hlen
  have hlast : s₁.storage.nblocks = 1 ∨ s₁.storage.nblocks - 1 ∈ owned (firstLevel chain) := by
    rw [owned_firstLevel]
    exact hinv.last
  obtain ⟨s₂, chains, hcompact, hchained, hlast', hcomplete, hsame⟩ :=
    compact_firstLevel fsm perLevel sizes hinv.chained hinv.no_free hlast
  refine ⟨{ s₂ with storage := s₂.storage.extend statsPages }, chains, ?_,
    hchained.addPages statsPages, ?_, ?_⟩
  · unfold tpBuildParallel
    rw [hleader]
    simp only [bind, Except.bind, hcompact, finalTruncation_of_last hchained hlast']
    rfl
  · intro hlt
    obtain ⟨hlens, hcovers⟩ := hcomplete (hinv.complete (by omega))
    exact ⟨hlens, hcovers⟩
  · intro hlt
    have hcount : leader.segmentCount % 2 ^ 16 < perLevel.value := by
      rw [hinv.count, hlen]
      exact hlt
    obtain ⟨-, rfl⟩ := hsame (by simpa using hcount)
    exact hlen

/-! ## Runs -/

/-- The counters have room for the segments that an operation links. -/
def CounterRoom (s : IndexPages) : PageOp → Prop
  | .addPages _ => True
  | .spill perLevel _ _ _ => SpillRoom perLevel s.levelCounts
  | .beginBuild => True
  | .finalSpill _ => s.levelCounts 0 < 2 ^ 16 - 1
  | .buildParallel _ segments _ _ => segments.length < 2 ^ 16

/-- **Every operation succeeds** and keeps the invariant. -/
theorem pageOp_spec (fsm : FreeSpaceMap) {s : IndexPages} {chains : Nat → List SegmentPages}
    (h : Chained s chains) (op : PageOp) :
    ∃ s' chains', pageOp fsm s op = .ok s' ∧ Chained s' chains' ∧
      (Complete s chains → CounterRoom s op → Complete s' chains') := by
  cases op with
  | addPages count =>
      exact ⟨_, chains, rfl, h.addPages count, fun hc _ => ⟨hc.length_lt, hc.covers⟩⟩
  | spill perLevel size sizes statsPages => exact spill_spec fsm perLevel size sizes statsPages h
  | beginBuild => exact ⟨_, _, rfl, chained_fresh, fun _ _ => complete_fresh⟩
  | finalSpill size => exact finalSpill_spec fsm size h
  | buildParallel perLevel segments sizes statsPages =>
      obtain ⟨s', chains', hok, hchained, hcomplete, -⟩ :=
        tpBuildParallel_spec fsm perLevel segments sizes statsPages
      exact ⟨s', chains', hok, hchained, fun _ hroom => hcomplete hroom⟩

theorem pageStep_spec (fsm : FreeSpaceMap) {s s' : IndexPages}
    {chains : Nat → List SegmentPages} (h : Chained s chains) {op : PageOp}
    (hstep : pageStep fsm s op = some s') :
    ∃ chains', Chained s' chains' ∧
      (Complete s chains → CounterRoom s op → Complete s' chains') := by
  obtain ⟨s'', chains', hok, hchained, hcomplete⟩ := pageOp_spec fsm h op
  rw [pageStep, hok] at hstep
  cases hstep
  exact ⟨chains', hchained, hcomplete⟩

theorem chained_of_reaches {fsm : FreeSpaceMap} {hist : List PageOp} {s : IndexPages}
    (h : Reaches (pageStep fsm) (fun _ _ _ => True) IndexPages.fresh hist s) :
    ∃ chains, Chained s chains := by
  apply h.invariant
  · exact ⟨_, chained_fresh⟩
  rintro hist s op s' ⟨chains, hchained⟩ - hstep
  obtain ⟨chains', hchained', -⟩ := pageStep_spec fsm hchained hstep
  exact ⟨chains', hchained'⟩

theorem complete_of_reaches {fsm : FreeSpaceMap} {hist : List PageOp} {s : IndexPages}
    (h : Reaches (pageStep fsm) (fun _ => CounterRoom) IndexPages.fresh hist s) :
    ∃ chains, Chained s chains ∧ Complete s chains := by
  apply h.invariant
  · exact ⟨_, chained_fresh, complete_fresh⟩
  rintro hist s op s' ⟨chains, hchained, hcomplete⟩ hroom hstep
  obtain ⟨chains', hchained', hkeeps⟩ := pageStep_spec fsm hchained hstep
  exact ⟨chains', hchained', hkeeps hcomplete hroom⟩

/-! ## The level invariant -/

theorem Chained.disjoint_roots {s : IndexPages} {chains : Nat → List SegmentPages}
    (h : Chained s chains) {l l' : Nat} (hne : l ≠ l') :
    ((chains l).map SegmentPages.root).Disjoint ((chains l').map SegmentPages.root) := by
  intro b hb hb'
  obtain ⟨seg, hseg, rfl⟩ := List.mem_map.1 hb
  obtain ⟨seg', hseg', hroot⟩ := List.mem_map.1 hb'
  exact h.apart l l' hne (mem_chainPages.2 ⟨seg, hseg, root_mem_all seg⟩)
    (mem_chainPages.2 ⟨seg', hseg', hroot ▸ root_mem_all seg'⟩)

theorem Complete.levelInvariant {s : IndexPages} {chains : Nat → List SegmentPages}
    (hc : Complete s chains) (h : Chained s chains) : LevelInvariant s := by
  refine ⟨fun l => (chains l).map SegmentPages.root, ?_, ?_, ?_⟩
  · intro l _
    refine ⟨?_, ?_, nodup_roots (h.nodup l)⟩
    · rw [h.heads l]
      exact (h.onDisk l).isChain
    · rw [h.counts l, Nat.mod_eq_of_lt (hc.length_lt l), List.length_map]
  · exact fun l _ l' _ hne => h.disjoint_roots hne
  · intro seg hseg
    obtain ⟨l, hl⟩ := hc.covers seg hseg
    have hlt : l < tpMaxLevels := by
      by_contra hge
      rw [h.top l (by omega)] at hl
      cases hl
    have hroot : seg.root ∈ (chains l).map SegmentPages.root := List.mem_map.2 ⟨seg, hl, rfl⟩
    refine ⟨l, ⟨hlt, hroot⟩, ?_⟩
    rintro l' ⟨-, hl'⟩
    by_contra hne
    exact h.disjoint_roots hne hl' hroot

/-- **The level invariant** holds in every state that is reached by operations that find
room in the counters. -/
theorem level_invariant (fsm : FreeSpaceMap) {hist : List PageOp} {s : IndexPages}
    (h : Reaches (pageStep fsm) (fun _ => CounterRoom) IndexPages.fresh hist s) :
    LevelInvariant s := by
  obtain ⟨chains, hchained, hcomplete⟩ := complete_of_reaches h
  exact hcomplete.levelInvariant hchained

/-- A free space map that answers with the page recorded last. -/
def latestFirst : FreeSpaceMap where
  search := fun _ pages => pages.head?
  recorded := fun h => List.mem_of_head? h

/-- Segments of one data page and one term. -/
def smallSegment : SegmentSize := ⟨0, 1, Nat.one_pos⟩

/-- Two segments are merged when they are on one level. -/
def mergePairs : SegmentsPerLevel := ⟨2, by decide, by decide⟩

/-- Two spills, of which the second compacts. -/
def twoSpills : List PageOp :=
  [.spill mergePairs smallSegment (fun _ => smallSegment) 0,
    .spill mergePairs smallSegment (fun _ => smallSegment) 0]

instance decidableCompactRoom (perLevel : SegmentsPerLevel) (fuel : Nat) (counts : Nat → Nat)
    (level : Nat) : Decidable (CompactRoom perLevel fuel counts level) :=
  match fuel with
  | 0 => .isTrue trivial
  | fuel + 1 =>
      have := decidableCompactRoom perLevel fuel
        (Function.update counts (level + 1) (counts (level + 1) + 1)) (level + 1)
      inferInstanceAs (Decidable (_ → _ → _ ∧ _))

instance (s : IndexPages) (op : PageOp) : Decidable (CounterRoom s op) :=
  match op with
  | .addPages _ => .isTrue trivial
  | .spill perLevel _ _ _ => inferInstanceAs (Decidable (_ ∧ CompactRoom perLevel _ _ _))
  | .beginBuild => .isTrue trivial
  | .finalSpill _ => inferInstanceAs (Decidable (_ < _))
  | .buildParallel _ _ _ _ => inferInstanceAs (Decidable (_ < _))

theorem level_invariant_twoSpills :
    ∃ s, Reaches (pageStep latestFirst) (fun _ => CounterRoom) IndexPages.fresh twoSpills s ∧
      LevelInvariant s ∧ s.levelCounts 0 = 0 ∧ s.levelCounts 1 = 1 := by
  have hrun : Reaches (pageStep latestFirst) (fun _ => CounterRoom) IndexPages.fresh twoSpills _ :=
    reaches_of_runChecked (fun _ s op => decide (CounterRoom s op))
      (fun _ _ _ h => of_decide_eq_true h) rfl
  exact ⟨_, hrun, level_invariant latestFirst hrun, rfl, rfl⟩

/-- A parallel build in which the leader writes 65536 segments. -/
def overflowingBuild : PageOp :=
  .buildParallel ⟨8, by decide, by decide⟩ (List.replicate (2 ^ 16) smallSegment)
    (fun _ => smallSegment) 0

/-- **The counter overflows**: the chain of level 0 has 65536 segments and its counter
is zero. -/
theorem overflowing_build_miscounts :
    ∃ s, Reaches (pageStep latestFirst) (fun _ _ _ => True) IndexPages.fresh
        [overflowingBuild] s ∧ ¬ LevelInvariant s := by
  obtain ⟨s, chains, hok, hchained, -, hlen⟩ := tpBuildParallel_spec latestFirst
    ⟨8, by decide, by decide⟩ (List.replicate (2 ^ 16) smallSegment) (fun _ => smallSegment) 0
  rw [List.length_replicate] at hlen
  have hstep : pageStep latestFirst IndexPages.fresh overflowingBuild = some s := by
    rw [pageStep, overflowingBuild, pageOp, hok]
    rfl
  refine ⟨s, Reaches.snoc Reaches.nil trivial hstep, ?_⟩
  rintro ⟨chain, hlevels, -, -⟩
  obtain ⟨hchain, hcount, -⟩ := hlevels 0 (by decide)
  have hroots := (hchained.onDisk 0).isChain
  rw [← hchained.heads 0] at hroots
  rw [hchain.unique hroots, hchained.counts 0, List.length_map, hlen (by decide)] at hcount
  exact absurd hcount (by decide)

/-! ## Page ownership -/

theorem Chained.pageOwnership {s : IndexPages} {chains : Nat → List SegmentPages}
    (h : Chained s chains) : PageOwnership s := by
  refine ⟨chains, ?_, ?_, ?_, ?_⟩
  · intro l _
    refine ⟨?_, h.recorded l⟩
    rw [h.heads l]
    exact (h.onDisk l).isChain
  · rw [List.nodup_flatMap]
    refine ⟨fun l _ => h.nodup l, ?_⟩
    exact List.nodup_range.imp fun hne => h.apart _ _ hne
  · intro block hfree
    refine ⟨h.sound.free_pos block hfree, h.sound.free_lt block hfree, ?_⟩
    intro l _ seg hseg hmem
    exact h.sound.owned_not_free block ⟨l, mem_chainPages.2 ⟨seg, hseg, hmem⟩⟩ hfree
  · intro l _ seg hseg
    have hdisk : ∃ next, WrittenAt s.storage.content seg next := by
      have hchain := h.onDisk l
      generalize chains l = chain at hchain hseg
      induction chain with
      | nil => cases hseg
      | cons first rest ih =>
          rcases List.mem_cons.1 hseg with rfl | hseg
          · exact ⟨_, hchain.1⟩
          · exact ih hchain.2 hseg
    obtain ⟨next, hdisk⟩ := hdisk
    have hnodup : seg.all.Nodup := (List.nodup_flatMap.1 (h.nodup l)).1 seg hseg
    exact tpSegmentCollectPages_of_writtenAt hdisk hnodup
      fun b hb => h.lt l b (mem_chainPages.2 ⟨seg, hseg, hb⟩)

/-- **Page ownership** holds in every state of every run, and no operation fails there
(so every allocation finds the page it takes from the free space map). -/
theorem page_ownership (fsm : FreeSpaceMap) {hist : List PageOp} {s : IndexPages}
    (h : Reaches (pageStep fsm) (fun _ _ _ => True) IndexPages.fresh hist s) :
    PageOwnership s ∧ ∀ op, ∃ s', pageOp fsm s op = .ok s' := by
  obtain ⟨chains, hchained⟩ := chained_of_reaches h
  refine ⟨hchained.pageOwnership, ?_⟩
  intro op
  obtain ⟨s', chains', hok, -, -⟩ := pageOp_spec fsm hchained op
  exact ⟨s', hok⟩

theorem page_ownership_twoSpills :
    ∃ s, Reaches (pageStep latestFirst) (fun _ _ _ => True) IndexPages.fresh twoSpills s ∧
      (PageOwnership s ∧ ∀ op, ∃ s', pageOp latestFirst s op = .ok s') ∧
      s.storage.freePages = [2, 1, 4, 3] := by
  have hrun : Reaches (pageStep latestFirst) (fun _ _ _ => True) IndexPages.fresh twoSpills _ :=
    reaches_of_run rfl
  exact ⟨_, hrun, page_ownership latestFirst hrun, rfl⟩

end PgTextsearch.Segment.Pages
