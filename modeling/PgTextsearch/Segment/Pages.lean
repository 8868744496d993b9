import Mathlib.Data.Finset.Card
import Mathlib.Data.Set.Insert
import Mathlib.Logic.Function.Basic

/-!
# Pages of segments (`segment/segment.c`)

The pages of one index relation: a segment takes its data pages and then the pages
of its page index from the free space map or from the end of the file.  The page
index is a chain of pages that lists the data pages in order; opening a segment
reads it back, and `tp_segment_collect_pages` adds the chain's own pages.  What the
data pages hold beyond the header is not represented.

## Main results

* `writeSegment_spec` — writing a segment takes pages that nobody owned.
* `tpSegmentCollectPages_of_writtenAt` — collecting the pages of a written segment
  returns exactly its data pages and the pages of its page index.
-/

namespace PgTextsearch.Segment.Pages

/-- A page of the page index: `TpPageIndexSpecial` and the block numbers it lists. -/
structure PageIndexPage where
  entries : List Nat
  nextPage : Option Nat
  deriving DecidableEq, Repr

/-- The fields of `TpSegmentHeader` that lead to other pages, and `num_terms`. -/
structure Header where
  numTerms : Nat
  numPages : Nat
  pageIndex : Option Nat
  nextSegment : Option Nat
  deriving DecidableEq, Repr

/-- What a page holds, as far as it matters here. -/
inductive PageContent where
  | other
  | segmentHeader (header : Header)
  | pageIndex (page : PageIndexPage)
  deriving DecidableEq, Repr

/-- `GetFreeIndexPage`: the answer of each search is a page that is recorded as free,
or none.  Which one is up to the server, and it may depend on the search. -/
structure FreeSpaceMap where
  search : Nat → List Nat → Option Nat
  recorded : ∀ {call pages block}, search call pages = some block → block ∈ pages

/-- The index relation: the file, and the pages recorded in its free space map. -/
structure Storage where
  nblocks : Nat
  content : Nat → PageContent
  freePages : List Nat
  searches : Nat

/-- What reading and allocating pages can raise; `loopLimit` marks a chain that does
not end. -/
inductive PageError where
  | readFailed (block : Nat)
  | invalidSegmentHeader (block : Nat)
  | invalidPageIndex (block : Nat)
  | invalidPageBlock (block : Nat)
  | pageIndexIncomplete (loaded expected : Nat)
  | freeMetapage
  | loopLimit
  deriving DecidableEq, Repr

/-- `ReadBuffer`. -/
def Storage.read (st : Storage) (block : Nat) : Except PageError PageContent :=
  if block < st.nblocks then .ok (st.content block) else .error (.readFailed block)

/-- Overwrite a page. -/
def Storage.write (st : Storage) (block : Nat) (content : PageContent) : Storage :=
  { st with content := Function.update st.content block content }

/-! ## Allocation -/

/-- `allocate_segment_page`: a recycled page, else a new one. -/
def allocateSegmentPage (fsm : FreeSpaceMap) (st : Storage) : Except PageError (Nat × Storage) :=
  match fsm.search st.searches st.freePages with
  | some block =>
      let st := { st with
        freePages := st.freePages.filter (· ≠ block), searches := st.searches + 1 }
      if block < st.nblocks then .ok (block, st.write block .other)
      else .error (.readFailed block)
  | none =>
      let st := { st with searches := st.searches + 1 }
      .ok (st.nblocks, { st.write st.nblocks .other with nblocks := st.nblocks + 1 })

/-- Page after page. -/
def allocatePages (fsm : FreeSpaceMap) : Nat → Storage → Except PageError (List Nat × Storage)
  | 0, st => .ok ([], st)
  | n + 1, st => do
      let (block, st) ← allocateSegmentPage fsm st
      let (blocks, st) ← allocatePages fsm n st
      return (block :: blocks, st)

/-- `P_NEW`, as the docid pages and the tenant statistics pages are allocated. -/
def Storage.extend (st : Storage) (count : Nat) : Storage :=
  { st with nblocks := st.nblocks + count }

/-- `BLCKSZ` less page header and aligned special area, in block numbers. -/
def entriesPerPage : Nat := (8192 - 24 - 16) / 4

/-- The loop of `write_page_index` over its pages, last page first. -/
def writeIndexPages : List Nat → List Nat → Storage → Storage
  | [], _, st => st
  | block :: blocks, pages, st =>
      (writeIndexPages blocks (pages.drop entriesPerPage) st).write block
        (.pageIndex ⟨pages.take entriesPerPage, blocks.head?⟩)

/-- `write_page_index`. -/
def writePageIndex (fsm : FreeSpaceMap) (pages : List Nat) (st : Storage) :
    Except PageError (List Nat × Storage) := do
  let (indexPages, st) ←
    allocatePages fsm ((pages.length + entriesPerPage - 1) / entriesPerPage) st
  return (indexPages, writeIndexPages indexPages pages st)

/-- The size of a segment: the pages beyond the first, and the number of terms.
Segments without terms are not written. -/
structure SegmentSize where
  morePages : Nat
  numTerms : Nat
  numTerms_pos : 0 < numTerms

/-- The pages a segment consists of: the first data page (the root), the other data
pages and the pages of the page index. -/
structure SegmentPages where
  root : Nat
  more : List Nat
  indexPages : List Nat
  deriving DecidableEq, Repr

/-- The data pages in order. -/
def SegmentPages.dataPages (seg : SegmentPages) : List Nat := seg.root :: seg.more

/-- All pages of the segment. -/
def SegmentPages.all (seg : SegmentPages) : List Nat := seg.dataPages ++ seg.indexPages

/-- The page allocations of a segment writer, then the page index and the header. -/
def writeSegment (fsm : FreeSpaceMap) (size : SegmentSize) (st : Storage) :
    Except PageError (SegmentPages × Storage) := do
  let (root, st) ← allocateSegmentPage fsm st
  let (more, st) ← allocatePages fsm size.morePages st
  let (indexPages, st) ← writePageIndex fsm (root :: more) st
  let header := ⟨size.numTerms, more.length + 1, indexPages.head?, none⟩
  return (⟨root, more, indexPages⟩, st.write root (.segmentHeader header))

/-! ## Reading -/

/-- `TpSegmentReader`: header and page map. -/
structure Reader where
  header : Header
  pageMap : List Nat
  deriving DecidableEq, Repr

/-- The loop of `tp_segment_open_ex` over the page index.  The fuel bounds the number
of pages of the chain. -/
def loadPageMap (st : Storage) (numPages : Nat) :
    Nat → Option Nat → List Nat → Except PageError (List Nat)
  | fuel, pageIndexBlock, loaded =>
      match pageIndexBlock, decide (loaded.length < numPages) with
      | some block, true =>
          match fuel with
          | 0 => .error .loopLimit
          | fuel + 1 => do
              match ← st.read block with
              | .pageIndex page =>
                  let entries := page.entries.take (numPages - loaded.length)
                  match entries.find? (fun b => st.nblocks ≤ b) with
                  | some bad => .error (.invalidPageBlock bad)
                  | none => loadPageMap st numPages fuel page.nextPage (loaded ++ entries)
              | _ => .error (.invalidPageIndex block)
      | _, _ =>
          if loaded.length = numPages then .ok loaded
          else .error (.pageIndexIncomplete loaded.length numPages)

/-- `tp_segment_open`: no reader for a block beyond the relation. -/
def tpSegmentOpen (st : Storage) (rootBlock : Nat) : Except PageError (Option Reader) :=
  if rootBlock ≥ st.nblocks then .ok none
  else
    match st.content rootBlock with
    | .segmentHeader header => do
        let pageMap ← loadPageMap st header.numPages st.nblocks header.pageIndex []
        return some ⟨header, pageMap⟩
    | _ => .error (.invalidSegmentHeader rootBlock)

/-- The loop of `tp_segment_collect_pages` over the page index. -/
def collectIndexPages (st : Storage) : Nat → Option Nat → Except PageError (List Nat)
  | _, none => .ok []
  | 0, some _ => .error .loopLimit
  | fuel + 1, some block => do
      match ← st.read block with
      | .pageIndex page =>
          let rest ← collectIndexPages st fuel page.nextPage
          return block :: rest
      | _ => return [block]

/-- `tp_segment_collect_pages`. -/
def tpSegmentCollectPages (st : Storage) (rootBlock : Nat) : Except PageError (List Nat) := do
  match ← tpSegmentOpen st rootBlock with
  | none => return []
  | some reader =>
      let indexPages ← collectIndexPages st st.nblocks reader.header.pageIndex
      return reader.pageMap ++ indexPages

/-- `RecordFreeIndexPage`. -/
def recordFreeIndexPage (st : Storage) (page : Nat) : Storage :=
  { st with freePages := page :: st.freePages.filter (· ≠ page) }

/-- `tp_segment_free_pages`. -/
def tpSegmentFreePages : List Nat → Storage → Except PageError Storage
  | [], st => .ok st
  | page :: pages, st =>
      if page = 0 then .error .freeMetapage
      else tpSegmentFreePages pages (recordFreeIndexPage st page)

/-! ## Ownership -/

/-- The relation keeps its metapage; the owned pages lie in the relation and are not
free; the free pages lie in the relation. -/
structure Sound (st : Storage) (owned : Set Nat) : Prop where
  metapage : 0 < st.nblocks
  owned_pos : ∀ b ∈ owned, 0 < b
  owned_lt : ∀ b ∈ owned, b < st.nblocks
  owned_not_free : ∀ b ∈ owned, b ∉ st.freePages
  free_pos : ∀ b ∈ st.freePages, 0 < b
  free_lt : ∀ b ∈ st.freePages, b < st.nblocks

theorem Sound.mono {st : Storage} {owned owned' : Set Nat} (h : Sound st owned)
    (hsub : owned' ⊆ owned) : Sound st owned' where
  metapage := h.metapage
  owned_pos := fun b hb => h.owned_pos b (hsub hb)
  owned_lt := fun b hb => h.owned_lt b (hsub hb)
  owned_not_free := fun b hb => h.owned_not_free b (hsub hb)
  free_pos := h.free_pos
  free_lt := h.free_lt

theorem Sound.of_eq {st st' : Storage} {owned : Set Nat} (h : Sound st owned)
    (hn : st'.nblocks = st.nblocks) (hfree : st'.freePages = st.freePages) :
    Sound st' owned where
  metapage := hn ▸ h.metapage
  owned_pos := h.owned_pos
  owned_lt := hn ▸ h.owned_lt
  owned_not_free := hfree ▸ h.owned_not_free
  free_pos := hfree ▸ h.free_pos
  free_lt := hn ▸ hfree ▸ h.free_lt

theorem Sound.extend {st : Storage} {owned : Set Nat} (h : Sound st owned) (count : Nat) :
    Sound (st.extend count) owned where
  metapage := Nat.lt_add_right count h.metapage
  owned_pos := h.owned_pos
  owned_lt := fun b hb => Nat.lt_add_right count (h.owned_lt b hb)
  owned_not_free := h.owned_not_free
  free_pos := h.free_pos
  free_lt := fun b hb => Nat.lt_add_right count (h.free_lt b hb)

/-- What an allocation may change: the content of the new pages, and the free space
map and the end of the file.  Without free pages the new pages are the next blocks. -/
structure Allocated (st st' : Storage) (blocks : List Nat) : Prop where
  nodup : blocks.Nodup
  frame : ∀ b, b ∉ blocks → st'.content b = st.content b
  nblocks_le : st.nblocks ≤ st'.nblocks
  no_free : st.freePages = [] → st'.freePages = [] ∧
    blocks = List.range' st.nblocks blocks.length ∧ st'.nblocks = st.nblocks + blocks.length

/-- The pages are taken from those nobody owns. -/
structure Takes (st st' : Storage) (owned : Set Nat) (blocks : List Nat) : Prop
    extends Allocated st st' blocks where
  fresh : ∀ b ∈ blocks, b ∉ owned
  sound : Sound st' (owned ∪ {b | b ∈ blocks})

theorem allocateSegmentPage_spec (fsm : FreeSpaceMap) {st : Storage} {owned : Set Nat}
    (h : Sound st owned) :
    ∃ block st', allocateSegmentPage fsm st = .ok (block, st') ∧ Takes st st' owned [block] := by
  unfold allocateSegmentPage
  cases hsearch : fsm.search st.searches st.freePages with
  | some block =>
      have hfree := fsm.recorded hsearch
      have hlt := h.free_lt block hfree
      refine ⟨block, _, if_pos hlt, ?_⟩
      refine
        { nodup := List.nodup_singleton block
          frame := ?_
          nblocks_le := Nat.le_refl _
          no_free := ?_
          fresh := ?_
          sound := ?_ }
      · intro b hb
        exact Function.update_of_ne (by simpa using hb) _ _
      · intro hnone
        rw [hnone] at hfree
        cases hfree
      · intro b hb
        rw [List.mem_singleton.1 hb]
        exact fun howned => h.owned_not_free block howned hfree
      · refine ⟨h.metapage, ?_, ?_, ?_, ?_, ?_⟩
        · rintro b (hb | hb)
          · exact h.owned_pos b hb
          · rw [List.mem_singleton.1 hb]
            exact h.free_pos block hfree
        · rintro b (hb | hb)
          · exact h.owned_lt b hb
          · rw [List.mem_singleton.1 hb]
            exact hlt
        · rintro b (hb | hb) hmem
          · exact h.owned_not_free b hb (List.mem_filter.1 hmem).1
          · rw [List.mem_singleton.1 hb] at hmem
            simpa using (List.mem_filter.1 hmem).2
        · exact fun b hb => h.free_pos b (List.mem_filter.1 hb).1
        · exact fun b hb => h.free_lt b (List.mem_filter.1 hb).1
  | none =>
      refine ⟨st.nblocks, _, rfl, ?_⟩
      refine
        { nodup := List.nodup_singleton _
          frame := ?_
          nblocks_le := Nat.le_succ _
          no_free := fun hnone => ⟨hnone, rfl, rfl⟩
          fresh := ?_
          sound := ?_ }
      · intro b hb
        exact Function.update_of_ne (by simpa using hb) _ _
      · intro b hb howned
        rw [List.mem_singleton.1 hb] at howned
        exact Nat.lt_irrefl _ (h.owned_lt _ howned)
      · refine ⟨Nat.succ_pos _, ?_, ?_, ?_, ?_, ?_⟩
        · rintro b (hb | hb)
          · exact h.owned_pos b hb
          · rw [List.mem_singleton.1 hb]
            exact h.metapage
        · rintro b (hb | hb)
          · exact Nat.lt_succ_of_lt (h.owned_lt b hb)
          · rw [List.mem_singleton.1 hb]
            exact Nat.lt_succ_self _
        · rintro b (hb | hb) hmem
          · exact h.owned_not_free b hb hmem
          · rw [List.mem_singleton.1 hb] at hmem
            exact Nat.lt_irrefl _ (h.free_lt _ hmem)
        · exact h.free_pos
        · exact fun b hb => Nat.lt_succ_of_lt (h.free_lt b hb)

theorem Takes.trans {st st' st'' : Storage} {owned : Set Nat} {blocks blocks' : List Nat}
    (h : Takes st st' owned blocks)
    (h' : Takes st' st'' (owned ∪ {b | b ∈ blocks}) blocks') :
    Takes st st'' owned (blocks ++ blocks') where
  nodup := by
    refine List.nodup_append'.2 ⟨h.nodup, h'.nodup, ?_⟩
    intro b hb hb'
    exact h'.fresh b hb' (Or.inr hb)
  frame := by
    intro b hb
    rw [List.mem_append, not_or] at hb
    rw [h'.frame b hb.2, h.frame b hb.1]
  nblocks_le := Nat.le_trans h.nblocks_le h'.nblocks_le
  no_free := by
    intro hnone
    obtain ⟨hfree, hrange, hn⟩ := h.no_free hnone
    obtain ⟨hfree', hrange', hn'⟩ := h'.no_free hfree
    refine ⟨hfree', ?_, ?_⟩
    · rw [List.length_append, ← List.range'_append_1, ← hrange, ← hn, ← hrange']
    · rw [hn', hn, List.length_append]
      omega
  fresh := by
    intro b hb
    rcases List.mem_append.1 hb with hb | hb
    · exact h.fresh b hb
    · exact fun howned => h'.fresh b hb (Or.inl howned)
  sound := by
    refine h'.sound.mono ?_
    rintro b (hb | hb)
    · exact Or.inl (Or.inl hb)
    · rcases List.mem_append.1 hb with hb | hb
      · exact Or.inl (Or.inr hb)
      · exact Or.inr hb

theorem allocatePages_spec (fsm : FreeSpaceMap) (n : Nat) {st : Storage} {owned : Set Nat}
    (h : Sound st owned) :
    ∃ blocks st', allocatePages fsm n st = .ok (blocks, st') ∧ blocks.length = n ∧
      Takes st st' owned blocks := by
  induction n generalizing st owned with
  | zero =>
      refine ⟨[], st, rfl, rfl, ?_⟩
      refine
        { nodup := List.nodup_nil
          frame := fun _ _ => rfl
          nblocks_le := Nat.le_refl _
          no_free := fun hnone => ⟨hnone, rfl, rfl⟩
          fresh := fun b hb => absurd hb List.not_mem_nil
          sound := h.mono ?_ }
      rintro b (hb | hb)
      · exact hb
      · exact absurd hb List.not_mem_nil
  | succ n ih =>
      obtain ⟨block, st₁, hblock, htake⟩ := allocateSegmentPage_spec fsm h
      obtain ⟨blocks, st₂, hblocks, hlen, htakes⟩ := ih htake.sound
      refine ⟨block :: blocks, st₂, ?_, by rw [List.length_cons, hlen], htake.trans htakes⟩
      simp only [allocatePages, hblock, bind, Except.bind, hblocks]
      rfl

/-! ## The page index -/

/-- The pages of the page index list the data pages, in order. -/
def IndexChain (content : Nat → PageContent) : List Nat → List Nat → Prop
  | [], pages => pages = []
  | block :: blocks, pages =>
      content block = .pageIndex ⟨pages.take entriesPerPage, blocks.head?⟩ ∧
        IndexChain content blocks (pages.drop entriesPerPage)

theorem IndexChain.congr {content content' : Nat → PageContent} {blocks pages : List Nat}
    (h : IndexChain content blocks pages) (heq : ∀ b ∈ blocks, content' b = content b) :
    IndexChain content' blocks pages := by
  induction blocks generalizing pages with
  | nil => exact h
  | cons block blocks ih =>
      refine ⟨?_, ih h.2 fun b hb => heq b (List.mem_cons_of_mem _ hb)⟩
      rw [heq block List.mem_cons_self]
      exact h.1

theorem writeIndexPages_frame (blocks pages : List Nat) (st : Storage) :
    (writeIndexPages blocks pages st).nblocks = st.nblocks ∧
      (writeIndexPages blocks pages st).freePages = st.freePages ∧
      ∀ b, b ∉ blocks → (writeIndexPages blocks pages st).content b = st.content b := by
  induction blocks generalizing pages with
  | nil => exact ⟨rfl, rfl, fun _ _ => rfl⟩
  | cons block blocks ih =>
      obtain ⟨hn, hfree, hframe⟩ := ih (pages.drop entriesPerPage)
      refine ⟨hn, hfree, ?_⟩
      intro b hb
      rw [List.mem_cons, not_or] at hb
      rw [← hframe b hb.2]
      exact Function.update_of_ne hb.1 _ _

theorem indexChain_writeIndexPages {blocks pages : List Nat} (st : Storage)
    (hnodup : blocks.Nodup)
    (hlen : blocks.length = (pages.length + entriesPerPage - 1) / entriesPerPage) :
    IndexChain (writeIndexPages blocks pages st).content blocks pages := by
  have hpos : 0 < entriesPerPage := by decide
  induction blocks generalizing pages with
  | nil =>
      have hzero : pages.length + entriesPerPage - 1 < entriesPerPage :=
        (Nat.div_eq_zero_iff_lt hpos).1 hlen.symm
      exact List.length_eq_zero_iff.1 (by omega)
  | cons block blocks ih =>
      rw [List.nodup_cons] at hnodup
      refine ⟨Function.update_self _ _ _, ?_⟩
      have hrest : blocks.length =
          ((pages.drop entriesPerPage).length + entriesPerPage - 1) / entriesPerPage := by
        rw [List.length_drop]
        rw [List.length_cons] at hlen
        by_cases hle : entriesPerPage ≤ pages.length
        · have hsplit : pages.length + entriesPerPage - 1 =
              (pages.length - entriesPerPage + entriesPerPage - 1) + entriesPerPage := by omega
          rw [hsplit, Nat.add_div_right _ hpos] at hlen
          omega
        · have hone : pages.length + entriesPerPage - 1 < 2 * entriesPerPage := by omega
          have hle1 := Nat.div_lt_of_lt_mul (Nat.mul_comm 2 _ ▸ hone)
          have hdrop : pages.length - entriesPerPage = 0 := by omega
          have hlast : (0 + entriesPerPage - 1) / entriesPerPage = 0 := by decide
          rw [hdrop, hlast]
          omega
      refine (ih hnodup.2 hrest).congr ?_
      intro b hb
      have hne : b ≠ block := fun heq => hnodup.1 (heq ▸ hb)
      exact Function.update_of_ne hne _ _

/-! ## Writing a segment -/

/-- The pages of the segment hold what its writer put there, and the next segment of
its chain is `next`. -/
structure WrittenAt (content : Nat → PageContent) (seg : SegmentPages) (next : Option Nat) :
    Prop where
  header : ∃ numTerms, 0 < numTerms ∧ content seg.root =
    .segmentHeader ⟨numTerms, seg.dataPages.length, seg.indexPages.head?, next⟩
  index : IndexChain content seg.indexPages seg.dataPages

theorem WrittenAt.congr {content content' : Nat → PageContent} {seg : SegmentPages}
    {next : Option Nat} (h : WrittenAt content seg next)
    (heq : ∀ b ∈ seg.all, content' b = content b) : WrittenAt content' seg next where
  header := by
    obtain ⟨numTerms, hpos, hroot⟩ := h.header
    refine ⟨numTerms, hpos, ?_⟩
    rw [heq seg.root (List.mem_append_left _ List.mem_cons_self)]
    exact hroot
  index := h.index.congr fun b hb => heq b (List.mem_append_right _ hb)

private theorem Takes.rewrite {st st' : Storage} {owned : Set Nat} {blocks : List Nat}
    (h : Takes st st' owned blocks) {st'' : Storage} (hn : st''.nblocks = st'.nblocks)
    (hfree : st''.freePages = st'.freePages)
    (hframe : ∀ b, b ∉ blocks → st''.content b = st'.content b) : Takes st st'' owned blocks where
  nodup := h.nodup
  frame := fun b hb => (hframe b hb).trans (h.frame b hb)
  nblocks_le := hn ▸ h.nblocks_le
  no_free := by rw [hn, hfree]; exact h.no_free
  fresh := h.fresh
  sound := h.sound.of_eq hn hfree

theorem writePageIndex_spec (fsm : FreeSpaceMap) (pages : List Nat) {st : Storage}
    {owned : Set Nat} (h : Sound st owned) :
    ∃ blocks st', writePageIndex fsm pages st = .ok (blocks, st') ∧
      IndexChain st'.content blocks pages ∧ Takes st st' owned blocks := by
  obtain ⟨blocks, st₁, halloc, hlen, htakes⟩ :=
    allocatePages_spec fsm ((pages.length + entriesPerPage - 1) / entriesPerPage) h
  obtain ⟨hn, hfree, hframe⟩ := writeIndexPages_frame blocks pages st₁
  refine ⟨blocks, writeIndexPages blocks pages st₁, ?_,
    indexChain_writeIndexPages st₁ htakes.nodup hlen, htakes.rewrite hn hfree hframe⟩
  simp only [writePageIndex, halloc, bind, Except.bind]
  rfl

/-- **Writing a segment** succeeds and takes pages that nobody owned. -/
theorem writeSegment_spec (fsm : FreeSpaceMap) (size : SegmentSize) {st : Storage}
    {owned : Set Nat} (h : Sound st owned) :
    ∃ seg st', writeSegment fsm size st = .ok (seg, st') ∧ WrittenAt st'.content seg none ∧
      Takes st st' owned seg.all := by
  obtain ⟨root, st₁, hroot, htake₁⟩ := allocateSegmentPage_spec fsm h
  obtain ⟨more, st₂, hmore, hlen, htake₂⟩ := allocatePages_spec fsm size.morePages htake₁.sound
  have htake₁₂ := htake₁.trans htake₂
  obtain ⟨indexPages, st₃, hindex, hchain, htake₃⟩ :=
    writePageIndex_spec fsm (root :: more) htake₁₂.sound
  have htake := htake₁₂.trans htake₃
  have hroot_not : root ∉ indexPages :=
    fun hmem => htake₃.fresh root hmem (Or.inr List.mem_cons_self)
  refine ⟨⟨root, more, indexPages⟩,
    st₃.write root (.segmentHeader ⟨size.numTerms, more.length + 1, indexPages.head?, none⟩),
    ?_, ?_, htake.rewrite rfl rfl ?_⟩
  · simp only [writeSegment, hroot, bind, Except.bind, hmore, hindex]
    rfl
  · refine ⟨⟨size.numTerms, size.numTerms_pos, Function.update_self _ _ _⟩, hchain.congr ?_⟩
    intro b hb
    have hne : b ≠ root := fun heq => hroot_not (heq ▸ hb)
    exact Function.update_of_ne hne _ _
  · intro b hb
    have hne : b ≠ root := fun heq => hb (heq ▸ List.mem_cons_self)
    exact Function.update_of_ne hne _ _

/-! ## Reading a segment -/

theorem read_of_lt {st : Storage} {block : Nat} (h : block < st.nblocks) :
    st.read block = .ok (st.content block) := if_pos h

theorem loadPageMap_of_indexChain {st : Storage} {blocks pages : List Nat}
    (hchain : IndexChain st.content blocks pages) (hblocks : ∀ b ∈ blocks, b < st.nblocks)
    (hpages : ∀ b ∈ pages, b < st.nblocks) {fuel : Nat} (hfuel : blocks.length ≤ fuel)
    (loaded : List Nat) :
    loadPageMap st (loaded.length + pages.length) fuel blocks.head? loaded =
      .ok (loaded ++ pages) := by
  induction blocks generalizing pages fuel loaded with
  | nil =>
      have hnil : pages = [] := hchain
      subst hnil
      simp [loadPageMap]
  | cons block blocks ih =>
      by_cases hmore : pages = []
      · subst hmore
        simp [loadPageMap]
      · have hlt : loaded.length < loaded.length + pages.length :=
          Nat.lt_add_of_pos_right (List.length_pos_iff.2 hmore)
        obtain ⟨fuel, rfl⟩ := Nat.exists_eq_succ_of_ne_zero
          (show fuel ≠ 0 by rw [List.length_cons] at hfuel; omega)
        have htake : (pages.take entriesPerPage).take (loaded.length + pages.length - loaded.length)
            = pages.take entriesPerPage := by
          rw [Nat.add_sub_cancel_left, List.take_take]
          exact List.take_eq_take_iff.2 (by omega)
        have hfind : (pages.take entriesPerPage).find? (fun b => st.nblocks ≤ b) = none := by
          rw [List.find?_eq_none]
          intro b hb
          simpa using hpages b (List.mem_of_mem_take hb)
        have hrest := ih hchain.2 (fun b hb => hblocks b (List.mem_cons_of_mem _ hb))
          (fun b hb => hpages b (List.mem_of_mem_drop hb))
          (Nat.le_of_succ_le_succ hfuel) (loaded ++ pages.take entriesPerPage)
        have hlen : (loaded ++ pages.take entriesPerPage).length +
            (pages.drop entriesPerPage).length = loaded.length + pages.length := by
          rw [List.length_append, List.length_take, List.length_drop]
          omega
        rw [hlen, List.append_assoc, List.take_append_drop] at hrest
        rw [List.head?_cons, loadPageMap.eq_def]
        simp only [hlt, decide_true, read_of_lt (hblocks block List.mem_cons_self), hchain.1,
          bind, Except.bind, htake, hfind]
        exact hrest

theorem collectIndexPages_of_indexChain {st : Storage} {blocks pages : List Nat}
    (hchain : IndexChain st.content blocks pages) (hblocks : ∀ b ∈ blocks, b < st.nblocks)
    {fuel : Nat} (hfuel : blocks.length ≤ fuel) :
    collectIndexPages st fuel blocks.head? = .ok blocks := by
  induction blocks generalizing pages fuel with
  | nil => cases fuel <;> rfl
  | cons block blocks ih =>
      obtain ⟨fuel, rfl⟩ := Nat.exists_eq_succ_of_ne_zero
        (show fuel ≠ 0 by rw [List.length_cons] at hfuel; omega)
      have hrest := ih hchain.2 (fun b hb => hblocks b (List.mem_cons_of_mem _ hb))
        (Nat.le_of_succ_le_succ hfuel)
      simp only [List.head?_cons, collectIndexPages, hchain.1, bind, Except.bind, hrest,
        read_of_lt (hblocks block List.mem_cons_self)]
      rfl

theorem length_le_of_nodup {blocks : List Nat} {n : Nat} (hnodup : blocks.Nodup)
    (hlt : ∀ b ∈ blocks, b < n) : blocks.length ≤ n := by
  rw [← List.toFinset_card_of_nodup hnodup, ← Finset.card_range n]
  apply Finset.card_le_card
  intro b hb
  exact Finset.mem_range.2 (hlt b (List.mem_toFinset.1 hb))

/-- Opening a written segment returns its header and its data pages. -/
theorem tpSegmentOpen_of_writtenAt {st : Storage} {seg : SegmentPages} {next : Option Nat}
    (h : WrittenAt st.content seg next) (hnodup : seg.all.Nodup)
    (hlt : ∀ b ∈ seg.all, b < st.nblocks) :
    ∃ numTerms, 0 < numTerms ∧ tpSegmentOpen st seg.root =
      .ok (some ⟨⟨numTerms, seg.dataPages.length, seg.indexPages.head?, next⟩,
        seg.dataPages⟩) := by
  obtain ⟨numTerms, hpos, hroot⟩ := h.header
  refine ⟨numTerms, hpos, ?_⟩
  have hrootlt : seg.root < st.nblocks := hlt _ (List.mem_append_left _ List.mem_cons_self)
  have hindex : ∀ b ∈ seg.indexPages, b < st.nblocks :=
    fun b hb => hlt b (List.mem_append_right _ hb)
  have hfuel := length_le_of_nodup hnodup.of_append_right hindex
  have hload := loadPageMap_of_indexChain h.index hindex
    (fun b hb => hlt b (List.mem_append_left _ hb)) hfuel []
  rw [List.length_nil, Nat.zero_add] at hload
  rw [tpSegmentOpen, if_neg (Nat.not_le.2 hrootlt), hroot]
  simp only [hload, bind, Except.bind]
  rfl

/-- **Collecting the pages of a written segment** returns its data pages and the pages
of its page index. -/
theorem tpSegmentCollectPages_of_writtenAt {st : Storage} {seg : SegmentPages}
    {next : Option Nat} (h : WrittenAt st.content seg next) (hnodup : seg.all.Nodup)
    (hlt : ∀ b ∈ seg.all, b < st.nblocks) : tpSegmentCollectPages st seg.root = .ok seg.all := by
  obtain ⟨numTerms, -, hopen⟩ := tpSegmentOpen_of_writtenAt h hnodup hlt
  have hindex : ∀ b ∈ seg.indexPages, b < st.nblocks :=
    fun b hb => hlt b (List.mem_append_right _ hb)
  have hcollect := collectIndexPages_of_indexChain h.index hindex
    (length_le_of_nodup hnodup.of_append_right hindex)
  simp only [tpSegmentCollectPages, hopen, bind, Except.bind, hcollect]
  rfl

/-! ## Freeing pages -/

/-- Freeing pages that nobody owns any more. -/
theorem tpSegmentFreePages_spec {pages : List Nat} {st : Storage} {owned : Set Nat}
    (h : Sound st (owned ∪ {b | b ∈ pages})) (hapart : ∀ b ∈ pages, b ∉ owned) :
    ∃ st', tpSegmentFreePages pages st = .ok st' ∧ Sound st' owned ∧
      st'.content = st.content ∧ st'.nblocks = st.nblocks := by
  have hgen : ∀ (todo : List Nat) (st : Storage), Sound st owned →
      (∀ b ∈ todo, 0 < b ∧ b < st.nblocks ∧ b ∉ owned) →
      ∃ st', tpSegmentFreePages todo st = .ok st' ∧ Sound st' owned ∧
        st'.content = st.content ∧ st'.nblocks = st.nblocks := by
    intro todo
    induction todo with
    | nil => exact fun st hst _ => ⟨st, rfl, hst, rfl, rfl⟩
    | cons page rest ih =>
        intro st hst htodo
        obtain ⟨hpos, hlt, hnot⟩ := htodo page List.mem_cons_self
        have hsound : Sound (recordFreeIndexPage st page) owned := by
          refine ⟨hst.metapage, hst.owned_pos, hst.owned_lt, ?_, ?_, ?_⟩
          · intro b hb hmem
            rcases List.mem_cons.1 hmem with rfl | hmem
            · exact hnot hb
            · exact hst.owned_not_free b hb (List.mem_filter.1 hmem).1
          · intro b hmem
            rcases List.mem_cons.1 hmem with rfl | hmem
            · exact hpos
            · exact hst.free_pos b (List.mem_filter.1 hmem).1
          · intro b hmem
            rcases List.mem_cons.1 hmem with rfl | hmem
            · exact hlt
            · exact hst.free_lt b (List.mem_filter.1 hmem).1
        obtain ⟨st', hok, hsound', hcontent, hn⟩ :=
          ih (recordFreeIndexPage st page) hsound fun b hb => htodo b (List.mem_cons_of_mem _ hb)
        refine ⟨st', ?_, hsound', hcontent, hn⟩
        rw [tpSegmentFreePages, if_neg (Nat.pos_iff_ne_zero.1 hpos)]
        exact hok
  refine hgen pages st (h.mono Set.subset_union_left) ?_
  intro b hb
  exact ⟨h.owned_pos b (Or.inr hb), h.owned_lt b (Or.inr hb), hapart b hb⟩

end PgTextsearch.Segment.Pages
