import Mathlib.Algebra.BigOperators.Group.List.Basic
import Mathlib.Algebra.Group.Int.Defs
import PgTextsearch.Segment.LevelInvariant

/-!
# Where the pages of an index file are

Every page that an index file has grown by is still accounted for: it is the metapage, a docid or
tenant statistics page, a page of a segment on a chain, or recorded as free.  The count of the
pages in use follows the segments through writes, links, merges and builds; a merge gives back as
many pages as its sources had.

## Main results

* `writeSegment_inUse`, `tpSegmentFreePages_inUse` — what a writer takes and what freeing returns.
* `tpMergeLevelSegments_balanced` — a merge keeps the books.
* `pages_accounted` — in every run in which no counter overflows, no page is lost.
-/

namespace PgTextsearch.Segment.Pages

open PgTextsearch.Verified

/-! ## Pages in use -/

/-- The blocks of the file that are not recorded as free. -/
def Storage.inUse (st : Storage) : ℤ := st.nblocks - st.freePages.length

/-- The free space map has every page once, and `count` pages more are in use than before. -/
structure TakesCount (st st' : Storage) (count : Nat) : Prop where
  nodup : st'.freePages.Nodup
  inUse_eq : st'.inUse = st.inUse + count

theorem TakesCount.refl {st : Storage} (h : st.freePages.Nodup) : TakesCount st st 0 :=
  ⟨h, by simp⟩

theorem TakesCount.trans {st st' st'' : Storage} {m n : Nat} (h : TakesCount st st' m)
    (h' : TakesCount st' st'' n) : TakesCount st st'' (m + n) where
  nodup := h'.nodup
  inUse_eq := by
    rw [h'.inUse_eq, h.inUse_eq]
    push_cast
    ring

/-- Writing into pages takes none. -/
theorem TakesCount.rewrite {st st' st'' : Storage} {n : Nat} (h : TakesCount st st' n)
    (hn : st''.nblocks = st'.nblocks) (hfree : st''.freePages = st'.freePages) :
    TakesCount st st'' n where
  nodup := hfree ▸ h.nodup
  inUse_eq := by rw [← h.inUse_eq, Storage.inUse, Storage.inUse, hn, hfree]

theorem length_filter_ne {l : List Nat} (hnodup : l.Nodup) {b : Nat} (hb : b ∈ l) :
    (l.filter (· ≠ b)).length + 1 = l.length := by
  have hcount : l.count b = 1 := List.count_eq_one_of_mem hnodup hb
  have hsplit := List.length_eq_countP_add_countP (fun c => decide (c = b)) (l := l)
  rw [List.count, show (fun c => c == b) = fun c => decide (c = b) from rfl] at hcount
  rw [hcount, List.countP_eq_length_filter] at hsplit
  rw [hsplit, add_comm]
  congr 2
  apply List.filter_congr
  intro c _
  simp

theorem allocateSegmentPage_inUse {fsm : FreeSpaceMap} {st st' : Storage} {block : Nat}
    (hfree : st.freePages.Nodup) (h : allocateSegmentPage fsm st = .ok (block, st')) :
    TakesCount st st' 1 := by
  unfold allocateSegmentPage at h
  cases hsearch : fsm.search st.searches st.freePages with
  | some b =>
      simp only [hsearch] at h
      split at h
      · cases h
        have hlen := length_filter_ne hfree (fsm.recorded hsearch)
        refine ⟨hfree.filter _, ?_⟩
        simp only [Storage.inUse, Storage.write]
        omega
      · cases h
  | none =>
      simp only [hsearch] at h
      cases h
      refine ⟨hfree, ?_⟩
      simp only [Storage.inUse, Storage.write]
      omega

theorem allocatePages_inUse {fsm : FreeSpaceMap} {n : Nat} {st st' : Storage} {blocks : List Nat}
    (hfree : st.freePages.Nodup) (h : allocatePages fsm n st = .ok (blocks, st')) :
    TakesCount st st' blocks.length := by
  induction n generalizing st blocks with
  | zero =>
      cases h
      exact TakesCount.refl hfree
  | succ n ih =>
      obtain ⟨⟨block, st₁⟩, hblock, h⟩ := bind_eq_ok h
      obtain ⟨⟨more, st₂⟩, hrest, h⟩ := bind_eq_ok h
      cases h
      have hone := allocateSegmentPage_inUse hfree hblock
      rw [List.length_cons, add_comm]
      exact hone.trans (ih hone.nodup hrest)

/-- **A segment writer** takes the pages of its segment. -/
theorem writeSegment_inUse {fsm : FreeSpaceMap} {size : SegmentSize} {st st' : Storage}
    {seg : SegmentPages} (hfree : st.freePages.Nodup)
    (h : writeSegment fsm size st = .ok (seg, st')) : TakesCount st st' seg.all.length := by
  obtain ⟨⟨root, st₁⟩, hroot, h⟩ := bind_eq_ok h
  obtain ⟨⟨more, st₂⟩, hmore, h⟩ := bind_eq_ok h
  obtain ⟨⟨indexPages, st₃⟩, hindex, h⟩ := bind_eq_ok h
  obtain ⟨⟨indexPages', st₄⟩, halloc, hwritten⟩ := bind_eq_ok hindex
  cases hwritten
  cases h
  have hone := allocateSegmentPage_inUse hfree hroot
  have hdata := hone.trans (allocatePages_inUse hone.nodup hmore)
  have hall := hdata.trans (allocatePages_inUse hdata.nodup halloc)
  obtain ⟨hn, hfrees, -⟩ := writeIndexPages_frame indexPages (root :: more) st₄
  have hlen : (SegmentPages.all ⟨root, more, indexPages⟩).length =
      1 + more.length + indexPages.length := by
    simp only [SegmentPages.all, SegmentPages.dataPages, List.length_append, List.length_cons]
    omega
  rw [hlen]
  exact hall.rewrite hn hfrees

/-- **Freeing pages** that are not free yet. -/
theorem tpSegmentFreePages_inUse {pages : List Nat} {st st' : Storage}
    (hfree : st.freePages.Nodup) (hpages : pages.Nodup) (hapart : ∀ b ∈ pages, b ∉ st.freePages)
    (h : tpSegmentFreePages pages st = .ok st') : TakesCount st' st pages.length ∧
      st'.freePages.Nodup := by
  induction pages generalizing st with
  | nil =>
      cases h
      exact ⟨TakesCount.refl hfree, hfree⟩
  | cons page rest ih =>
      rw [List.nodup_cons] at hpages
      have hnot := hapart page List.mem_cons_self
      have hsame : (recordFreeIndexPage st page).freePages = page :: st.freePages := by
        rw [recordFreeIndexPage, List.filter_eq_self.2]
        intro b hb
        exact decide_eq_true fun heq => hnot (heq ▸ hb)
      unfold tpSegmentFreePages at h
      split at h
      · cases h
      · have hnodup : (recordFreeIndexPage st page).freePages.Nodup := by
          rw [hsame, List.nodup_cons]
          exact ⟨hnot, hfree⟩
        obtain ⟨htakes, hnodup'⟩ := ih hnodup hpages.2 (by
          intro b hb
          rw [hsame, List.mem_cons, not_or]
          exact ⟨fun heq => hpages.1 (heq ▸ hb), hapart b (List.mem_cons_of_mem _ hb)⟩) h
        refine ⟨⟨hfree, ?_⟩, hnodup'⟩
        have hstep : st.inUse = (recordFreeIndexPage st page).inUse + 1 := by
          rw [Storage.inUse, Storage.inUse, hsame, List.length_cons]
          simp only [recordFreeIndexPage]
          omega
        rw [hstep, htakes.inUse_eq, List.length_cons]
        push_cast
        ring

/-! ## The books -/

/-- The pages in use are the metapage, `extra` pages of other kinds and the pages of the segments
that were written and not merged. -/
structure Balanced (extra : Nat) (s : IndexPages) : Prop where
  free_nodup : s.storage.freePages.Nodup
  pages_nodup : (chainPages s.written).Nodup
  sound : Sound s.storage {b | b ∈ chainPages s.written}
  inUse_eq : s.storage.inUse = 1 + extra + (chainPages s.written).length

section Books

variable {fsm : FreeSpaceMap} {extra : Nat} {s s' : IndexPages}

theorem balanced_fresh : Balanced 0 IndexPages.fresh where
  free_nodup := List.nodup_nil
  pages_nodup := List.nodup_nil
  sound := chained_fresh.sound.mono fun _ hb => absurd hb List.not_mem_nil
  inUse_eq := rfl

/-- Changing contents, heads and counters. -/
theorem Balanced.congr (h : Balanced extra s) (hwritten : s'.written = s.written)
    (hn : s'.storage.nblocks = s.storage.nblocks)
    (hfree : s'.storage.freePages = s.storage.freePages) : Balanced extra s' where
  free_nodup := hfree ▸ h.free_nodup
  pages_nodup := hwritten ▸ h.pages_nodup
  sound := by
    rw [hwritten]
    exact h.sound.of_eq hn hfree
  inUse_eq := by rw [hwritten, ← h.inUse_eq, Storage.inUse, Storage.inUse, hn, hfree]

theorem Balanced.link (h : Balanced extra s) (level root : Nat) :
    Balanced extra (linkSegment s level root) :=
  h.congr rfl (linkSegment_storage s level root).1 (linkSegment_storage s level root).2

theorem Balanced.addPages (h : Balanced extra s) (count : Nat) :
    Balanced (extra + count) { s with storage := s.storage.extend count } where
  free_nodup := h.free_nodup
  pages_nodup := h.pages_nodup
  sound := h.sound.extend count
  inUse_eq := by
    have heq := h.inUse_eq
    simp only [Storage.inUse, Storage.extend] at heq ⊢
    push_cast
    omega

/-- **Writing a segment** keeps the books. -/
theorem Balanced.write (h : Balanced extra s) {size : SegmentSize} {seg : SegmentPages}
    {st : Storage} (hwrite : writeSegment fsm size s.storage = .ok (seg, st)) :
    Balanced extra { s with storage := st, written := seg :: s.written } := by
  have hcount := writeSegment_inUse h.free_nodup hwrite
  obtain ⟨seg', st', hwrite', -, htakes⟩ := writeSegment_spec fsm size h.sound
  rw [hwrite] at hwrite'
  cases hwrite'
  refine ⟨hcount.nodup, ?_, ?_, ?_⟩
  · rw [chainPages_cons]
    exact List.nodup_append'.2
      ⟨htakes.nodup, h.pages_nodup, fun b hb hb' => htakes.fresh b hb hb'⟩
  · refine htakes.sound.mono ?_
    intro b hb
    have hmem : b ∈ chainPages (seg :: s.written) := hb
    rw [chainPages_cons, List.mem_append] at hmem
    exact hmem.symm
  · rw [hcount.inUse_eq, h.inUse_eq, chainPages_cons, List.length_append]
    push_cast
    ring

theorem Balanced.writeAndRecord (h : Balanced extra s) {size : SegmentSize} {seg : SegmentPages}
    (hwrite : writeAndRecord fsm size s = .ok (seg, s')) : Balanced extra s' := by
  obtain ⟨⟨seg', st⟩, hseg, hrecord⟩ := bind_eq_ok hwrite
  cases hrecord
  exact h.write hseg

/-- The segments that a merge leaves are the ones it did not take. -/
theorem written_perm {written taken : List SegmentPages} (hnodup : (chainPages written).Nodup)
    (htaken : (chainPages taken).Nodup) (hsub : ∀ seg ∈ taken, seg ∈ written) :
    (taken ++ written.filter fun w => w.root ∉ taken.map SegmentPages.root).Perm written := by
  have hroots := nodup_roots hnodup
  have hin : (written.filter fun w => w.root ∈ taken.map SegmentPages.root).Perm taken := by
    rw [List.perm_ext_iff_of_nodup ((List.Nodup.of_map _ hroots).filter _)
      (List.Nodup.of_map _ (nodup_roots htaken))]
    intro w
    rw [List.mem_filter, decide_eq_true_iff, List.mem_map]
    constructor
    · rintro ⟨hw, t, ht, hroot⟩
      rwa [← List.inj_on_of_nodup_map hroots (hsub t ht) hw hroot]
    · exact fun hw => ⟨hsub w hw, w, hw, rfl⟩
  have hsplit := List.filter_append_perm
    (fun w : SegmentPages => decide (w.root ∈ taken.map SegmentPages.root)) written
  simp only [← decide_not] at hsplit
  exact (hin.symm.append_right _).trans hsplit

theorem chainPages_append (chain chain' : List SegmentPages) :
    chainPages (chain ++ chain') = chainPages chain ++ chainPages chain' :=
  List.flatMap_append

theorem chainPages_perm {chain chain' : List SegmentPages} (h : chain.Perm chain') :
    (chainPages chain).Perm (chainPages chain') :=
  h.flatMap_right SegmentPages.all

/-- **Giving back the pages** of segments that are no longer recorded. -/
theorem Balanced.free (h : Balanced extra s) {taken rest : List SegmentPages}
    (hperm : (chainPages taken ++ chainPages rest).Perm (chainPages s.written)) {st : Storage}
    (hfreed : tpSegmentFreePages (chainPages taken) s.storage = .ok st) :
    Balanced extra { s with storage := st, written := rest } := by
  have hall := hperm.nodup_iff.2 h.pages_nodup
  have hsub : ∀ b ∈ chainPages taken, b ∈ chainPages s.written :=
    fun b hb => hperm.subset (List.mem_append_left _ hb)
  obtain ⟨hcount, hfreeNodup⟩ := tpSegmentFreePages_inUse h.free_nodup hall.of_append_left
    (fun b hb => h.sound.owned_not_free b (hsub b hb)) hfreed
  have hboth : Sound s.storage ({b | b ∈ chainPages rest} ∪ {b | b ∈ chainPages taken}) :=
    h.sound.mono (Set.union_subset (fun b hb => hperm.subset (List.mem_append_right _ hb)) hsub)
  obtain ⟨st', hfreed', hsound, -, -⟩ := tpSegmentFreePages_spec hboth
    fun b hb hrest => (List.nodup_append'.1 hall).2.2 hb hrest
  rw [hfreed] at hfreed'
  cases hfreed'
  refine ⟨hfreeNodup, hall.of_append_right, hsound, ?_⟩
  have hlen := hperm.length_eq
  have huse := hcount.inUse_eq
  rw [List.length_append] at hlen
  rw [h.inUse_eq] at huse
  show st.inUse = 1 + extra + (chainPages rest).length
  omega

/-- **A merge** keeps the books. -/
theorem tpMergeLevelSegments_balanced {chains : Nat → List SegmentPages} (h : Chained s chains)
    (hb : Balanced extra s) {size : SegmentSize} {level : Nat}
    (hmerge : tpMergeLevelSegments fsm size s level = .ok (some s')) : Balanced extra s' := by
  unfold tpMergeLevelSegments at hmerge
  split at hmerge
  · cases hmerge
  split at hmerge
  · cases hmerge
  have hcollect := collectSources_of_chainWritten (h.onDisk level) (h.nodup level) (h.lt level)
    (length_chain_le (h.nodup level) (h.lt level)) (s.levelCounts level)
  obtain ⟨sources, hsources, hmerge⟩ := bind_eq_ok hmerge
  rw [h.heads level, hcollect] at hsources
  cases hsources
  split at hmerge
  · cases hmerge
  obtain ⟨⟨seg, st⟩, hwrite, hmerge⟩ := bind_eq_ok hmerge
  obtain ⟨st', hfreed, hmerge⟩ := bind_eq_ok hmerge
  cases hmerge
  rw [pages_sourcesOf] at hfreed
  have hlinked : Balanced extra
      { linkMerged s level (sourcesOf ((chains level).take (s.levelCounts level))) seg st with
        written := seg :: s.written } :=
    (hb.write hwrite).congr rfl (linkSegment_storage _ _ _).1 (linkSegment_storage _ _ _).2
  have htaken : (chainPages ((chains level).take (s.levelCounts level))).Nodup :=
    (h.nodup level).sublist ((List.take_sublist _ _).flatMap SegmentPages.all)
  have hperm := written_perm hb.pages_nodup htaken
    fun seg hseg => h.recorded level seg (List.mem_of_mem_take hseg)
  rw [← roots_sourcesOf] at hperm
  refine hlinked.free ?_ hfreed
  rw [← chainPages_append]
  exact chainPages_perm (List.perm_middle.trans (hperm.cons seg))

/-- **A compaction** keeps the books. -/
theorem tpMaybeCompactLevel_balanced {perLevel : SegmentsPerLevel} {sizes : Nat → SegmentSize}
    {fuel level : Nat} {chains : Nat → List SegmentPages} (h : Chained s chains)
    (hb : Balanced extra s)
    (hcompact : tpMaybeCompactLevel fsm perLevel sizes fuel s level = .ok s') :
    Balanced extra s' := by
  induction fuel generalizing s chains level with
  | zero =>
      cases hcompact
      exact hb
  | succ fuel ih =>
      unfold tpMaybeCompactLevel at hcompact
      split at hcompact
      · cases hcompact
        exact hb
      split at hcompact
      · cases hcompact
        exact hb
      have hmin := perLevel.min_le
      obtain ⟨s₁, seg, hmerge, hmerged⟩ := tpMergeLevelSegments_spec fsm (sizes (level + 1)) h
        (show level < tpMaxLevels - 1 by omega) (show s.levelCounts level ≠ 0 by omega)
      rw [hmerge] at hcompact
      exact ih hmerged.chained (tpMergeLevelSegments_balanced h hb hmerge) hcompact

theorem spill_balanced {perLevel : SegmentsPerLevel} {size : SegmentSize}
    {sizes : Nat → SegmentSize} {statsPages : Nat} {chains : Nat → List SegmentPages}
    (h : Chained s chains) (hb : Balanced extra s)
    (hspill : spill fsm perLevel size sizes statsPages s = .ok s') :
    Balanced (extra + statsPages) s' := by
  obtain ⟨seg, s₁, hwrite, hlinked, -, -⟩ := writeAndLink_spec fsm size h
  rw [spill, hwrite] at hspill
  exact tpMaybeCompactLevel_balanced (hlinked.addPages statsPages)
    (((hb.writeAndRecord hwrite).link 0 seg.root).addPages statsPages) hspill

theorem finalSpill_balanced {size : SegmentSize} (hb : Balanced extra s)
    (hspill : finalSpill fsm size s = .ok s') : Balanced extra s' := by
  obtain ⟨⟨seg, s₁⟩, hwrite, hlink⟩ := bind_eq_ok hspill
  cases hlink
  exact (hb.writeAndRecord hwrite).link 0 seg.root

theorem leaderWriteSegments_balanced {sizes : List SegmentSize} {leader leader' : LeaderChain}
    (hb : Balanced extra s)
    (hleader : leaderWriteSegments fsm sizes leader s = .ok (leader', s')) :
    Balanced extra s' := by
  induction sizes generalizing leader s with
  | nil =>
      cases hleader
      exact hb
  | cons size sizes ih =>
      obtain ⟨⟨seg, s₁⟩, hwrite, hrest⟩ := bind_eq_ok hleader
      have hone := hb.writeAndRecord hwrite
      dsimp only at hrest
      split at hrest
      · refine ih ?_ hrest
        exact hone.congr rfl rfl rfl
      · exact ih hone hrest

theorem tpBuildParallel_balanced {perLevel : SegmentsPerLevel} {segments : List SegmentSize}
    {sizes : Nat → SegmentSize} {statsPages : Nat}
    (hbuild : tpBuildParallel fsm perLevel segments sizes statsPages = .ok s') :
    Balanced statsPages s' := by
  obtain ⟨chain, leader, s₁, hleader, hinv, -⟩ :=
    leaderWriteSegments_spec fsm segments leaderInv_fresh
  have hlast : s₁.storage.nblocks = 1 ∨ s₁.storage.nblocks - 1 ∈ owned (firstLevel chain) := by
    rw [owned_firstLevel]
    exact hinv.last
  obtain ⟨s₂, chains, hcompact, hchained, hlast', -, -⟩ :=
    compact_firstLevel fsm perLevel sizes hinv.chained hinv.no_free hlast
  have hb := tpMaybeCompactLevel_balanced hinv.chained
    ((leaderWriteSegments_balanced balanced_fresh hleader).congr rfl rfl rfl) hcompact
  unfold tpBuildParallel at hbuild
  rw [hleader] at hbuild
  simp only [bind, Except.bind, hcompact, finalTruncation_of_last hchained hlast'] at hbuild
  cases hbuild
  have hmore := hb.addPages statsPages
  rwa [Nat.zero_add] at hmore

/-! ## Runs -/

/-- The docid and tenant statistics pages that an index file has after an operation. -/
def extraPagesAfter (extra : Nat) : PageOp → Nat
  | .addPages count => extra + count
  | .spill _ _ _ statsPages => extra + statsPages
  | .beginBuild => 0
  | .finalSpill _ => extra
  | .buildParallel _ _ _ statsPages => statsPages

/-- The docid and tenant statistics pages that a run leaves in the index file. -/
def extraPages (hist : List PageOp) : Nat := hist.foldl extraPagesAfter 0

/-- **Every operation** keeps the books. -/
theorem pageOp_balanced {chains : Nat → List SegmentPages} (h : Chained s chains)
    (hb : Balanced extra s) {op : PageOp} (hop : pageOp fsm s op = .ok s') :
    Balanced (extraPagesAfter extra op) s' := by
  cases op with
  | addPages count =>
      cases hop
      exact hb.addPages count
  | spill perLevel size sizes statsPages => exact spill_balanced h hb hop
  | beginBuild =>
      cases hop
      exact balanced_fresh
  | finalSpill size => exact finalSpill_balanced hb hop
  | buildParallel perLevel segments sizes statsPages => exact tpBuildParallel_balanced hop

end Books

theorem balanced_of_reaches {fsm : FreeSpaceMap} {hist : List PageOp} {s : IndexPages}
    (h : Reaches (pageStep fsm) (fun _ => CounterRoom) IndexPages.fresh hist s) :
    ∃ chains, Chained s chains ∧ Complete s chains ∧ Balanced (extraPages hist) s := by
  apply h.invariant
  · exact ⟨_, chained_fresh, complete_fresh, balanced_fresh⟩
  intro hist s op s' hinv hroom hstep
  obtain ⟨chains, hchained, hcomplete, hb⟩ := hinv
  obtain ⟨s₁, chains', hok, hchained', hkeeps⟩ := pageOp_spec fsm hchained op
  rw [pageStep, hok] at hstep
  cases hstep
  refine ⟨chains', hchained', hkeeps hcomplete hroom, ?_⟩
  rw [extraPages, List.foldl_append]
  exact pageOp_balanced hchained hb hok

/-- The pages of the segments on the levels. -/
def livePages (chains : Nat → List SegmentPages) : List Nat :=
  (List.range tpMaxLevels).flatMap fun l => chainPages (chains l)

theorem mem_livePages {s : IndexPages} {chains : Nat → List SegmentPages} (h : Chained s chains)
    {b : Nat} : b ∈ livePages chains ↔ b ∈ owned chains := by
  rw [livePages, List.mem_flatMap]
  constructor
  · rintro ⟨l, -, hb⟩
    exact ⟨l, hb⟩
  · rintro ⟨l, hb⟩
    refine ⟨l, ?_, hb⟩
    rw [List.mem_range]
    by_contra hge
    rw [h.top l (Nat.le_of_not_lt hge)] at hb
    cases hb

theorem livePages_nodup {s : IndexPages} {chains : Nat → List SegmentPages}
    (h : Chained s chains) : (livePages chains).Nodup := by
  rw [livePages, List.nodup_flatMap]
  exact ⟨fun l _ => h.nodup l, List.nodup_range.imp fun hne => h.apart _ _ hne⟩

/-- Without overflows the segments on the levels are those that were written and not merged. -/
theorem livePages_perm {extra : Nat} {s : IndexPages} {chains : Nat → List SegmentPages}
    (h : Chained s chains) (hc : Complete s chains) (hb : Balanced extra s) :
    (livePages chains).Perm (chainPages s.written) := by
  rw [List.perm_ext_iff_of_nodup (livePages_nodup h) hb.pages_nodup]
  intro b
  rw [mem_livePages h]
  constructor
  · rintro ⟨l, hl⟩
    obtain ⟨seg, hseg, hmem⟩ := mem_chainPages.1 hl
    exact mem_chainPages.2 ⟨seg, h.recorded l seg hseg, hmem⟩
  · intro hwritten
    obtain ⟨seg, hseg, hmem⟩ := mem_chainPages.1 hwritten
    obtain ⟨l, hl⟩ := hc.covers seg hseg
    exact ⟨l, mem_chainPages.2 ⟨seg, hl, hmem⟩⟩

theorem ChainWritten.writtenAt {content : Nat → PageContent} {chain : List SegmentPages}
    (h : ChainWritten content chain) {seg : SegmentPages} (hseg : seg ∈ chain) :
    ∃ next, WrittenAt content seg next := by
  induction chain with
  | nil => cases hseg
  | cons first rest ih =>
      rcases List.mem_cons.1 hseg with rfl | hseg
      · exact ⟨_, h.1⟩
      · exact ih h.2 hseg

/-- Collecting the pages of a segment on a level. -/
theorem Chained.collectPages {s : IndexPages} {chains : Nat → List SegmentPages}
    (h : Chained s chains) {l : Nat} {seg : SegmentPages} (hseg : seg ∈ chains l) :
    tpSegmentCollectPages s.storage seg.root = .ok seg.all := by
  obtain ⟨next, hdisk⟩ := (h.onDisk l).writtenAt hseg
  have hnodup : seg.all.Nodup := (List.nodup_flatMap.1 (h.nodup l)).1 seg hseg
  exact tpSegmentCollectPages_of_writtenAt hdisk hnodup
    fun b hb => h.lt l b (mem_chainPages.2 ⟨seg, hseg, hb⟩)

/-- **Page accounting**: the pages of the segments on the levels and the pages recorded as free
are distinct pages of the file, and its other pages are the metapage and `extra` more. -/
def PagesAccounted (extra : Nat) (s : IndexPages) : Prop :=
  ∃ live : Nat → List SegmentPages,
    (∀ l < tpMaxLevels,
      IsChain s.storage.content (s.levelHeads l) ((live l).map SegmentPages.root) ∧
      ∀ seg ∈ live l, tpSegmentCollectPages s.storage seg.root = .ok seg.all) ∧
    (livePages live ++ s.storage.freePages).Nodup ∧
    (∀ b ∈ livePages live ++ s.storage.freePages, 0 < b ∧ b < s.storage.nblocks) ∧
    s.storage.nblocks = 1 + extra + (livePages live ++ s.storage.freePages).length

theorem Balanced.accounted {extra : Nat} {s : IndexPages} {chains : Nat → List SegmentPages}
    (hb : Balanced extra s) (h : Chained s chains) (hc : Complete s chains) :
    PagesAccounted extra s := by
  refine ⟨chains, ?_, ?_, ?_, ?_⟩
  · intro l _
    rw [h.heads l]
    exact ⟨(h.onDisk l).isChain, fun seg => h.collectPages⟩
  · refine List.nodup_append'.2 ⟨livePages_nodup h, hb.free_nodup, ?_⟩
    intro b hlive
    exact h.sound.owned_not_free b ((mem_livePages h).1 hlive)
  · intro b hmem
    rcases List.mem_append.1 hmem with hlive | hfree
    · have howned := (mem_livePages h).1 hlive
      exact ⟨h.sound.owned_pos b howned, h.sound.owned_lt b howned⟩
    · exact ⟨h.sound.free_pos b hfree, h.sound.free_lt b hfree⟩
  · have huse := hb.inUse_eq
    rw [← (livePages_perm h hc hb).length_eq, Storage.inUse] at huse
    rw [List.length_append]
    omega

/-- **No page is lost** in a run whose operations find room in the counters. -/
theorem pages_accounted (fsm : FreeSpaceMap) {hist : List PageOp} {s : IndexPages}
    (h : Reaches (pageStep fsm) (fun _ => CounterRoom) IndexPages.fresh hist s) :
    PagesAccounted (extraPages hist) s := by
  obtain ⟨chains, hchained, hcomplete, hb⟩ := balanced_of_reaches h
  exact hb.accounted hchained hcomplete

theorem pages_accounted_twoSpills :
    ∃ s, Reaches (pageStep latestFirst) (fun _ => CounterRoom) IndexPages.fresh twoSpills s ∧
      PagesAccounted (extraPages twoSpills) s ∧
      s.storage.nblocks = 7 ∧ s.storage.freePages = [2, 1, 4, 3] := by
  have hrun : Reaches (pageStep latestFirst) (fun _ => CounterRoom) IndexPages.fresh twoSpills _ :=
    reaches_of_runChecked (fun _ s op => decide (CounterRoom s op))
      (fun _ _ _ h => of_decide_eq_true h) rfl
  exact ⟨_, hrun, pages_accounted latestFirst hrun, rfl, rfl⟩

end PgTextsearch.Segment.Pages
