import Mathlib.Data.List.Basic
import Mathlib.Data.List.Pairwise
import Mathlib.Logic.Function.Basic
import PgTextsearch.Postgres
import PgTextsearch.Verified.Runs

/-!
# Docid page chain (`state/metapage.c`)

For crash recovery every inserted CTID is appended to a chain of pages that
starts at `metap->first_docid_page`.  A backend remembers the last page it
wrote to and appends there without looking at the metapage; clearing the chain
resets the metapage pointer and the cache of the clearing backend only.

## Main results

* `tpAddDocidToPages_chain` — what one append does to the chain, on either path.
* `chain_complete` — in every run in which no append goes through a cached page
  after another backend's clear, the chain of every index holds exactly the
  CTIDs added since the last clear, in order.
* `stale_append_lost` — without that condition an append is lost.
-/

namespace PgTextsearch.State

open PgTextsearch.Postgres PgTextsearch.Verified

/-- `TP_DOCIDS_PER_PAGE`: what is left of an 8 kB page after the page header
(24 bytes) and the docid page header (16 bytes), in CTIDs of 6 bytes. -/
def tpDocidsPerPage : Nat := (8192 - 24 - 16) / 6

/-- A page with the docid page magic: its CTIDs and `next_page`. -/
structure DocidPage where
  docids : List ItemPointer
  nextPage : Option Nat
  deriving DecidableEq, Repr

/-- The part of an index relation the docid chain lives in.  Blocks that are
not docid pages are `none`; `P_NEW` extends the relation by one block. -/
structure IndexPages where
  nblocks : Nat
  firstDocidPage : Option Nat
  pages : Nat → Option DocidPage

/-- `TpDocidWriterState`. -/
structure DocidWriterCache where
  indexOid : Nat
  lastPage : Option Nat
  numDocids : Nat
  valid : Bool
  deriving DecidableEq, Repr

/-- All indexes, and the writer cache of every backend. -/
structure DocidState where
  indexes : Nat → IndexPages
  caches : Nat → DocidWriterCache

/-- Freshly created indexes (the metapage is block 0) and backends. -/
def DocidState.init : DocidState where
  indexes := fun _ => ⟨1, none, fun _ => none⟩
  caches := fun _ => ⟨0, none, 0, false⟩

/-- The cached page may be used: the cache entry is for this index and not full,
and the page is still a docid page with room. -/
def DocidState.cacheUsable (s : DocidState) (backend oid : Nat) : Bool :=
  let cache := s.caches backend
  cache.valid && decide (cache.indexOid = oid) && decide (cache.numDocids < tpDocidsPerPage) &&
    match cache.lastPage with
    | none => false
    | some page =>
        match (s.indexes oid).pages page with
        | none => false
        | some p => decide (p.docids.length < tpDocidsPerPage)

/-- The walk to the last page of the chain; the chain ascends, so as many steps
as there are blocks are enough. -/
def lastDocidPage (pages : Nat → Option DocidPage) : Nat → Nat → Nat
  | 0, page => page
  | fuel + 1, page =>
      match pages page with
      | none => page
      | some p =>
          match p.nextPage with
          | none => page
          | some next => lastDocidPage pages fuel next

/-- Write `page` at block `n`. -/
def IndexPages.setPage (ix : IndexPages) (n : Nat) (page : DocidPage) : IndexPages :=
  { ix with pages := Function.update ix.pages n (some page) }

/-- `ReadBuffer(P_NEW)` and `PageInit`: an empty docid page behind the last
block. -/
def IndexPages.newPage (ix : IndexPages) : IndexPages :=
  { ix with
    nblocks := ix.nblocks + 1
    pages := Function.update ix.pages ix.nblocks (some ⟨[], none⟩) }

/-- The slow path: the last page of the chain, creating the first one if the
chain is empty. -/
def findTargetPage (ix : IndexPages) : IndexPages × Nat :=
  match ix.firstDocidPage with
  | none => ({ ix.newPage with firstDocidPage := some ix.nblocks }, ix.nblocks)
  | some first => (ix, lastDocidPage ix.pages ix.nblocks first)

/-- The end of `tp_add_docid_to_pages`: store the CTID on the target page, or on
a new page linked behind it when it is full.  Returns the page written and its
new count. -/
def appendDocid (ix : IndexPages) (target : Nat) (ctid : ItemPointer) :
    IndexPages × Nat × Nat :=
  let page := (ix.pages target).getD ⟨[], none⟩
  if page.docids.length ≥ tpDocidsPerPage then
    let ix' := ix.newPage.setPage target { page with nextPage := some ix.nblocks }
    (ix'.setPage ix.nblocks ⟨[ctid], none⟩, ix.nblocks, 1)
  else
    (ix.setPage target { page with docids := page.docids ++ [ctid] }, target,
      page.docids.length + 1)

/-- `tp_add_docid_to_pages`. -/
def tpAddDocidToPages (s : DocidState) (backend oid : Nat) (ctid : ItemPointer) : DocidState :=
  let located :=
    if s.cacheUsable backend oid then
      (s.indexes oid, ((s.caches backend).lastPage).getD 0)
    else findTargetPage (s.indexes oid)
  let written := appendDocid located.1 located.2 ctid
  { indexes := Function.update s.indexes oid written.1
    caches := Function.update s.caches backend ⟨oid, some written.2.1, written.2.2, true⟩ }

/-- `tp_clear_docid_pages`: reset the chain pointer of the index and the cache
of the calling backend. -/
def tpClearDocidPages (s : DocidState) (backend oid : Nat) : DocidState where
  indexes := Function.update s.indexes oid { s.indexes oid with firstDocidPage := none }
  caches := Function.update s.caches backend { s.caches backend with valid := false }

/-- The calls of several backends on several indexes. -/
inductive DocidOp where
  | add (backend oid : Nat) (ctid : ItemPointer)
  | clear (backend oid : Nat)
  deriving DecidableEq, Repr

/-- One atomic call. -/
def docidStep (s : DocidState) : DocidOp → Option DocidState
  | .add backend oid ctid => some (tpAddDocidToPages s backend oid ctid)
  | .clear backend oid => some (tpClearDocidPages s backend oid)

/-- Walking the chain as recovery does: all CTIDs from `start` on. -/
def walkDocids (pages : Nat → Option DocidPage) : Nat → Option Nat → List ItemPointer
  | 0, _ => []
  | _ + 1, none => []
  | fuel + 1, some page =>
      match pages page with
      | none => []
      | some p => p.docids ++ walkDocids pages fuel p.nextPage

/-- The CTIDs reachable from `metap->first_docid_page`. -/
def IndexPages.chainDocids (ix : IndexPages) : List ItemPointer :=
  walkDocids ix.pages (ix.nblocks + 1) ix.firstDocidPage

/-- The CTIDs added to an index since its most recent clear, oldest first. -/
def addedSinceClear (oid : Nat) (hist : List DocidOp) : List ItemPointer :=
  hist.foldl (fun acc op =>
    match op with
    | .add _ oid' ctid => if oid' = oid then acc ++ [ctid] else acc
    | .clear _ oid' => if oid' = oid then [] else acc) []

/-- Another backend cleared the index since this backend's latest call. -/
def clearedByOther (backend oid : Nat) (hist : List DocidOp) : Bool :=
  hist.foldl (fun acc op =>
    match op with
    | .add b _ _ => if b = backend then false else acc
    | .clear b oid' => if b = backend then false else acc || decide (oid' = oid)) false

/-- No append uses a page that was cached before another backend's clear. -/
def FreshAppend (hist : List DocidOp) (s : DocidState) : DocidOp → Prop
  | .add backend oid _ => s.cacheUsable backend oid = true →
      clearedByOther backend oid hist = false
  | .clear _ _ => True

/-! ## The chain as a list of blocks -/

/-- The CTIDs stored on a block. -/
def docidsAt (pages : Nat → Option DocidPage) (block : Nat) : List ItemPointer :=
  ((pages block).map DocidPage.docids).getD []

/-- The chain of an index consists of `blocks`, in ascending order below the end
of the relation; all but the last are full, and together they hold `docs`. -/
structure IsDocidChain (ix : IndexPages) (blocks : List Nat) (docs : List ItemPointer) :
    Prop where
  first : ix.firstDocidPage = blocks[0]?
  links : ∀ i b, blocks[i]? = some b → ∃ p, ix.pages b = some p ∧ p.nextPage = blocks[i + 1]?
  ascending : blocks.Pairwise (· < ·)
  bounded : ∀ b ∈ blocks, b < ix.nblocks
  full : ∀ b ∈ blocks.dropLast, ∀ p, ix.pages b = some p → tpDocidsPerPage ≤ p.docids.length
  contents : blocks.flatMap (docidsAt ix.pages) = docs

namespace IsDocidChain

variable {ix : IndexPages} {blocks : List Nat} {docs : List ItemPointer}

theorem length_le (h : IsDocidChain ix blocks docs) : blocks.length ≤ ix.nblocks := by
  have hnodup : blocks.Nodup := h.ascending.imp fun hlt => Nat.ne_of_lt hlt
  have hsub : blocks ⊆ List.range ix.nblocks := fun b hb => List.mem_range.2 (h.bounded b hb)
  have := (List.subperm_of_subset hnodup hsub).length_le
  rwa [List.length_range] at this

theorem walk_eq (h : IsDocidChain ix blocks docs) (fuel i : Nat)
    (hfuel : blocks.length < fuel + i) :
    walkDocids ix.pages fuel blocks[i]? = (blocks.drop i).flatMap (docidsAt ix.pages) := by
  induction fuel generalizing i with
  | zero => simp [walkDocids, List.drop_eq_nil_of_le (by omega : blocks.length ≤ i)]
  | succ fuel ih =>
      cases hb : blocks[i]? with
      | none => simp [walkDocids, List.drop_eq_nil_of_le (List.getElem?_eq_none_iff.1 hb)]
      | some b =>
          obtain ⟨hi, hbi⟩ := List.getElem?_eq_some_iff.1 hb
          obtain ⟨p, hp, hnext⟩ := h.links i b hb
          rw [List.drop_eq_getElem_cons hi, List.flatMap_cons, hbi, ← ih (i + 1) (by omega)]
          simp [walkDocids, hp, hnext, docidsAt]

/-- **Recovery reads the chain.** -/
theorem chainDocids_eq (h : IsDocidChain ix blocks docs) : ix.chainDocids = docs := by
  have hlen := h.length_le
  rw [IndexPages.chainDocids, h.first, h.walk_eq (ix.nblocks + 1) 0 (by omega), List.drop_zero,
    h.contents]

theorem lastDocidPage_eq (h : IsDocidChain ix blocks docs) {last : Nat}
    (hlast : blocks.getLast? = some last) (fuel i b : Nat) (hb : blocks[i]? = some b)
    (hfuel : blocks.length ≤ fuel + i + 1) : lastDocidPage ix.pages fuel b = last := by
  have hend : ∀ j c, blocks[j]? = some c → blocks.length ≤ j + 1 → c = last := by
    intro j c hc hj
    have hjl := (List.getElem?_eq_some_iff.1 hc).1
    rw [List.getLast?_eq_getElem?, show blocks.length - 1 = j by omega, hc] at hlast
    exact Option.some.inj hlast
  induction fuel generalizing i b with
  | zero => exact hend i b hb (by omega)
  | succ fuel ih =>
      obtain ⟨p, hp, hnext⟩ := h.links i b hb
      cases hn : blocks[i + 1]? with
      | none =>
          have heq : lastDocidPage ix.pages (fuel + 1) b = b := by
            simp [lastDocidPage, hp, hnext, hn]
          rw [heq]
          exact hend i b hb (List.getElem?_eq_none_iff.1 hn)
      | some c =>
          have heq : lastDocidPage ix.pages (fuel + 1) b = lastDocidPage ix.pages fuel c := by
            simp [lastDocidPage, hp, hnext, hn]
          rw [heq]
          exact ih (i + 1) c hn (by omega)

/-- A page of the chain with room is its last page. -/
theorem eq_last_of_room (h : IsDocidChain ix blocks docs) {b last : Nat} (hb : b ∈ blocks)
    (hlast : blocks.getLast? = some last) {p : DocidPage} (hp : ix.pages b = some p)
    (hroom : p.docids.length < tpDocidsPerPage) : b = last := by
  obtain ⟨init, rfl⟩ : ∃ init, blocks = init ++ [last] :=
    ⟨blocks.dropLast, (List.dropLast_append_getLast? last hlast).symm⟩
  rcases List.mem_append.1 hb with hin | hin
  · have := h.full b (by rw [List.dropLast_concat]; exact hin) p hp
    omega
  · exact List.mem_singleton.1 hin

/-- The first page of an empty chain. -/
theorem create (h : IsDocidChain ix [] docs) :
    IsDocidChain { ix.newPage with firstDocidPage := some ix.nblocks } [ix.nblocks] docs where
  first := rfl
  links := by
    intro i b hb
    cases i with
    | zero =>
        cases hb
        exact ⟨⟨[], none⟩, by simp [IndexPages.newPage], rfl⟩
    | succ i => simp at hb
  ascending := List.pairwise_singleton _ _
  bounded := by simp [IndexPages.newPage]
  full := by simp
  contents := by
    rw [← h.contents]
    simp [docidsAt, IndexPages.newPage]

/-- **Appending to the last page** extends the contents by the CTID; the page
written belongs to the chain, which only grows. -/
theorem append (h : IsDocidChain ix blocks docs) {last : Nat}
    (hlast : blocks.getLast? = some last) (ctid : ItemPointer) :
    ∃ blocks', IsDocidChain (appendDocid ix last ctid).1 blocks' (docs ++ [ctid]) ∧
      (appendDocid ix last ctid).2.1 ∈ blocks' ∧ ∀ b ∈ blocks, b ∈ blocks' := by
  obtain ⟨init, rfl⟩ : ∃ init, blocks = init ++ [last] :=
    ⟨blocks.dropLast, (List.dropLast_append_getLast? last hlast).symm⟩
  obtain ⟨page, hpage, hnext⟩ := h.links init.length last (by simp)
  have hasc := List.pairwise_append.1 h.ascending
  have hinitLt : ∀ b ∈ init, b < last := fun b hb => hasc.2.2 b hb last (List.mem_singleton.2 rfl)
  have hlastLt : last < ix.nblocks := h.bounded last (by simp)
  have hcontents := h.contents
  have hinitFull := h.full
  rw [List.flatMap_append] at hcontents
  rw [List.dropLast_concat] at hinitFull
  have hlastDocs : docidsAt ix.pages last = page.docids := by simp [docidsAt, hpage]
  simp only [List.flatMap_cons, List.flatMap_nil, List.append_nil, hlastDocs] at hcontents
  by_cases hfull : page.docids.length ≥ tpDocidsPerPage
  · -- a new page behind the last one
    obtain ⟨pages', hpages'⟩ : ∃ pages', pages' = Function.update (Function.update
      (Function.update ix.pages ix.nblocks (some ⟨[], none⟩)) last
      (some { page with nextPage := some ix.nblocks })) ix.nblocks (some ⟨[ctid], none⟩) := ⟨_, rfl⟩
    have heq : appendDocid ix last ctid =
        (⟨ix.nblocks + 1, ix.firstDocidPage, pages'⟩, ix.nblocks, 1) := by
      simp only [appendDocid, hpage, Option.getD_some, if_pos hfull, IndexPages.setPage,
        IndexPages.newPage, hpages']
    have hnew : pages' ix.nblocks = some ⟨[ctid], none⟩ := by simp [hpages']
    have hlastp : pages' last = some { page with nextPage := some ix.nblocks } := by
      simp [hpages', Function.update_of_ne (Nat.ne_of_lt hlastLt)]
    have hother : ∀ b ∈ init, pages' b = ix.pages b := by
      intro b hb
      have := hinitLt b hb
      simp [hpages', Function.update_of_ne (show b ≠ ix.nblocks by omega),
        Function.update_of_ne (show b ≠ last by omega)]
    refine ⟨init ++ [last] ++ [ix.nblocks], ?_, ?_, fun b hb => List.mem_append_left _ hb⟩
    · rw [heq]
      refine ⟨?_, ?_, ?_, ?_, ?_, ?_⟩
      · rw [h.first]
        cases init <;> rfl
      · intro i b hb
        by_cases hi : i < init.length
        · rw [List.append_assoc, List.getElem?_append_left hi] at hb
          have hold : (init ++ [last])[i]? = some b := by
            rw [List.getElem?_append_left hi]; exact hb
          obtain ⟨p, hp, hpn⟩ := h.links i b hold
          refine ⟨p, by rw [← hp]; exact hother b (List.mem_of_getElem? hb), ?_⟩
          have hlt : i + 1 < (init ++ [last]).length := by
            rw [List.length_append, List.length_singleton]
            omega
          rw [hpn, List.getElem?_append_left hlt]
        · by_cases hil : i = init.length
          · subst hil
            have hbl : b = last := by simpa using hb.symm
            subst hbl
            exact ⟨_, hlastp, by simp⟩
          · have hin : i = init.length + 1 := by
              have := (List.getElem?_eq_some_iff.1 hb).1
              simp only [List.length_append, List.length_singleton] at this
              omega
            subst hin
            have hbn : b = ix.nblocks := by simpa using hb.symm
            subst hbn
            exact ⟨_, hnew, by simp⟩
      · refine List.pairwise_append.2 ⟨h.ascending, List.pairwise_singleton _ _, ?_⟩
        intro a ha b hb
        rw [List.mem_singleton.1 hb]
        exact h.bounded a ha
      · intro b hb
        simp only
        rcases List.mem_append.1 hb with hb | hb
        · have := h.bounded b hb
          omega
        · rw [List.mem_singleton.1 hb]
          omega
      · rw [List.dropLast_concat]
        intro b hb p hp
        simp only at hp
        rcases List.mem_append.1 hb with hb | hb
        · exact hinitFull b hb p (by rw [← hother b hb]; exact hp)
        · rw [List.mem_singleton.1 hb, hlastp] at hp
          cases hp
          exact hfull
      · rw [List.flatMap_append, List.flatMap_append]
        have hinitc : init.flatMap (docidsAt pages') = init.flatMap (docidsAt ix.pages) := by
          apply List.flatMap_congr
          intro b hb
          rw [docidsAt, docidsAt, hother b hb]
        simp only [List.flatMap_cons, List.flatMap_nil, List.append_nil, hinitc]
        rw [show docidsAt pages' last = page.docids by simp [docidsAt, hlastp],
          show docidsAt pages' ix.nblocks = [ctid] by simp [docidsAt, hnew], hcontents]
    · rw [heq]
      simp
  · -- room on the last page
    obtain ⟨pages', hpages'⟩ : ∃ pages', pages' = Function.update ix.pages last
      (some { page with docids := page.docids ++ [ctid] }) := ⟨_, rfl⟩
    have heq : appendDocid ix last ctid =
        (⟨ix.nblocks, ix.firstDocidPage, pages'⟩, last, page.docids.length + 1) := by
      simp only [appendDocid, hpage, Option.getD_some, if_neg hfull, IndexPages.setPage, hpages']
    have hlastp : pages' last = some { page with docids := page.docids ++ [ctid] } := by
      simp [hpages']
    have hother : ∀ b ∈ init, pages' b = ix.pages b := by
      intro b hb
      have := hinitLt b hb
      simp [hpages', Function.update_of_ne (show b ≠ last by omega)]
    refine ⟨init ++ [last], ?_, ?_, fun b hb => hb⟩
    · rw [heq]
      refine ⟨h.first, ?_, h.ascending, h.bounded, ?_, ?_⟩
      · intro i b hb
        obtain ⟨p, hp, hpn⟩ := h.links i b hb
        by_cases hi : i < init.length
        · rw [List.getElem?_append_left hi] at hb
          exact ⟨p, by rw [← hp]; exact hother b (List.mem_of_getElem? hb), hpn⟩
        · have hil : i = init.length := by
            have := (List.getElem?_eq_some_iff.1 hb).1
            simp only [List.length_append, List.length_singleton] at this
            omega
          subst hil
          have hbl : b = last := by simpa using hb.symm
          subst hbl
          exact ⟨_, hlastp, hnext⟩
      · rw [List.dropLast_concat]
        intro b hb p hp
        exact hinitFull b hb p (by rw [← hother b hb]; exact hp)
      · rw [List.flatMap_append]
        have hinitc : init.flatMap (docidsAt pages') = init.flatMap (docidsAt ix.pages) := by
          apply List.flatMap_congr
          intro b hb
          rw [docidsAt, docidsAt, hother b hb]
        simp only [List.flatMap_cons, List.flatMap_nil, List.append_nil, hinitc]
        rw [show docidsAt pages' last = page.docids ++ [ctid] by simp [docidsAt, hlastp],
          ← List.append_assoc, hcontents]
    · rw [heq]
      simp

end IsDocidChain

/-! ## One call -/

/-- A usable cache names a docid page with room. -/
theorem cacheUsable_page {s : DocidState} {backend oid : Nat}
    (h : s.cacheUsable backend oid = true) :
    (s.caches backend).valid = true ∧ (s.caches backend).indexOid = oid ∧
      ∃ page p, (s.caches backend).lastPage = some page ∧ (s.indexes oid).pages page = some p ∧
        p.docids.length < tpDocidsPerPage := by
  unfold DocidState.cacheUsable at h
  simp only [Bool.and_eq_true, decide_eq_true_eq] at h
  obtain ⟨⟨⟨hvalid, hoid⟩, -⟩, hpage⟩ := h
  refine ⟨hvalid, hoid, ?_⟩
  cases hl : (s.caches backend).lastPage with
  | none => simp [hl] at hpage
  | some page =>
      cases hp : (s.indexes oid).pages page with
      | none => simp [hl, hp] at hpage
      | some p => exact ⟨page, p, rfl, hp, by simpa [hl, hp] using hpage⟩

/-- The slow path finds the last page of the chain, after creating the first
page of an empty one. -/
theorem findTargetPage_spec {ix : IndexPages} {blocks : List Nat} {docs : List ItemPointer}
    (h : IsDocidChain ix blocks docs) :
    ∃ blocks', IsDocidChain (findTargetPage ix).1 blocks' docs ∧
      blocks'.getLast? = some (findTargetPage ix).2 ∧ ∀ b ∈ blocks, b ∈ blocks' := by
  unfold findTargetPage
  cases blocks with
  | nil =>
      have hfirst : ix.firstDocidPage = none := h.first
      rw [hfirst]
      exact ⟨[ix.nblocks], h.create, rfl, fun b hb => absurd hb List.not_mem_nil⟩
  | cons first rest =>
      have hfirst : ix.firstDocidPage = some first := h.first
      obtain ⟨last, hlast⟩ : ∃ last, (first :: rest).getLast? = some last :=
        ⟨_, List.getLast?_eq_some_getLast (List.cons_ne_nil first rest)⟩
      have hlen := h.length_le
      rw [hfirst]
      refine ⟨first :: rest, h, ?_, fun b hb => hb⟩
      rw [hlast]
      exact congrArg some
        (h.lastDocidPage_eq hlast ix.nblocks 0 first rfl (by omega)).symm

/-- **One append.**  If the cached page, when it is used, belongs to the chain,
the CTID is appended to the contents, the page written belongs to the new chain,
and every page of the old chain still does. -/
theorem tpAddDocidToPages_chain {s : DocidState} {backend oid : Nat} {blocks : List Nat}
    {docs : List ItemPointer} (h : IsDocidChain (s.indexes oid) blocks docs)
    (hcache : s.cacheUsable backend oid = true →
      ∃ page, (s.caches backend).lastPage = some page ∧ page ∈ blocks) (ctid : ItemPointer) :
    ∃ blocks' page numDocids,
      IsDocidChain ((tpAddDocidToPages s backend oid ctid).indexes oid) blocks' (docs ++ [ctid]) ∧
      (tpAddDocidToPages s backend oid ctid).caches backend = ⟨oid, some page, numDocids, true⟩ ∧
      page ∈ blocks' ∧ ∀ b ∈ blocks, b ∈ blocks' := by
  unfold tpAddDocidToPages
  by_cases husable : s.cacheUsable backend oid = true
  · obtain ⟨page, hpage, hmem⟩ := hcache husable
    obtain ⟨-, -, page', p, hpage', hp, hroom⟩ := cacheUsable_page husable
    obtain rfl : page' = page := Option.some.inj (hpage'.symm.trans hpage)
    obtain ⟨last, hlast⟩ : ∃ last, blocks.getLast? = some last :=
      ⟨_, List.getLast?_eq_some_getLast (List.ne_nil_of_mem hmem)⟩
    obtain rfl := h.eq_last_of_room hmem hlast hp hroom
    obtain ⟨blocks', hchain, hwritten, hsub⟩ := h.append hlast ctid
    refine ⟨blocks', _, (appendDocid (s.indexes oid) page' ctid).2.2, ?_, ?_, hwritten, hsub⟩
    · simpa [husable, hpage] using hchain
    · simp [husable, hpage]
  · obtain ⟨blocks₁, hchain₁, hlast, hsub₁⟩ := findTargetPage_spec h
    obtain ⟨blocks', hchain, hwritten, hsub⟩ := hchain₁.append hlast ctid
    refine ⟨blocks', _, (appendDocid (findTargetPage (s.indexes oid)).1
      (findTargetPage (s.indexes oid)).2 ctid).2.2, ?_, ?_, hwritten,
      fun b hb => hsub b (hsub₁ b hb)⟩
    · simpa [husable] using hchain
    · simp [husable]

/-- A cleared index has the empty chain. -/
theorem tpClearDocidPages_chain (s : DocidState) (backend oid : Nat) :
    IsDocidChain ((tpClearDocidPages s backend oid).indexes oid) [] [] where
  first := by simp [tpClearDocidPages]
  links := by simp
  ascending := List.Pairwise.nil
  bounded := by simp
  full := by simp
  contents := rfl

/-! ## Whole runs -/

@[simp] theorem addedSinceClear_add (oid b oid' : Nat) (ctid : ItemPointer)
    (hist : List DocidOp) :
    addedSinceClear oid (hist ++ [.add b oid' ctid]) =
      if oid' = oid then addedSinceClear oid hist ++ [ctid] else addedSinceClear oid hist := by
  simp [addedSinceClear, List.foldl_append]

@[simp] theorem addedSinceClear_clear (oid b oid' : Nat) (hist : List DocidOp) :
    addedSinceClear oid (hist ++ [.clear b oid']) =
      if oid' = oid then [] else addedSinceClear oid hist := by
  simp [addedSinceClear, List.foldl_append]

@[simp] theorem clearedByOther_add (backend oid b oid' : Nat) (ctid : ItemPointer)
    (hist : List DocidOp) :
    clearedByOther backend oid (hist ++ [.add b oid' ctid]) =
      if b = backend then false else clearedByOther backend oid hist := by
  simp [clearedByOther, List.foldl_append]

@[simp] theorem clearedByOther_clear (backend oid b oid' : Nat) (hist : List DocidOp) :
    clearedByOther backend oid (hist ++ [.clear b oid']) =
      if b = backend then false else clearedByOther backend oid hist || decide (oid' = oid) := by
  simp [clearedByOther, List.foldl_append]

/-- The invariant of a run: the chain of every index holds what was added since
the last clear, and a valid cache that no other backend's clear has overtaken
names a page of that chain. -/
def DocidInv (hist : List DocidOp) (s : DocidState) : Prop :=
  ∀ oid, ∃ blocks, IsDocidChain (s.indexes oid) blocks (addedSinceClear oid hist) ∧
    ∀ backend, (s.caches backend).valid = true → (s.caches backend).indexOid = oid →
      clearedByOther backend oid hist = false →
      ∃ page, (s.caches backend).lastPage = some page ∧ page ∈ blocks

theorem docidInv_init : DocidInv [] DocidState.init := by
  intro oid
  refine ⟨[], ⟨rfl, by simp, List.Pairwise.nil, by simp, by simp, rfl⟩, ?_⟩
  intro backend hvalid
  exact absurd hvalid (by simp [DocidState.init])

theorem docidInv_add {hist : List DocidOp} {s : DocidState} (hinv : DocidInv hist s)
    {backend oid : Nat} (ctid : ItemPointer)
    (hfresh : s.cacheUsable backend oid = true → clearedByOther backend oid hist = false) :
    DocidInv (hist ++ [.add backend oid ctid]) (tpAddDocidToPages s backend oid ctid) := by
  intro oid'
  by_cases hoid : oid' = oid
  · subst hoid
    obtain ⟨blocks, hchain, hcaches⟩ := hinv oid'
    have hcache : s.cacheUsable backend oid' = true →
        ∃ page, (s.caches backend).lastPage = some page ∧ page ∈ blocks := by
      intro husable
      obtain ⟨hvalid, hindex, -⟩ := cacheUsable_page husable
      exact hcaches backend hvalid hindex (hfresh husable)
    obtain ⟨blocks', page, n, hchain', hwritten, hmem, hsub⟩ :=
      tpAddDocidToPages_chain hchain hcache ctid
    refine ⟨blocks', by simpa using hchain', ?_⟩
    intro b hvalid hindex hclear
    by_cases hb : b = backend
    · subst hb
      exact ⟨page, by rw [hwritten], hmem⟩
    · have hsame : (tpAddDocidToPages s backend oid' ctid).caches b = s.caches b := by
        simp [tpAddDocidToPages, Function.update_of_ne hb]
      rw [hsame] at hvalid hindex ⊢
      rw [clearedByOther_add, if_neg (Ne.symm hb)] at hclear
      obtain ⟨pg, hpg, hin⟩ := hcaches b hvalid hindex hclear
      exact ⟨pg, hpg, hsub pg hin⟩
  · obtain ⟨blocks, hchain, hcaches⟩ := hinv oid'
    have hix : (tpAddDocidToPages s backend oid ctid).indexes oid' = s.indexes oid' := by
      simp [tpAddDocidToPages, Function.update_of_ne hoid]
    refine ⟨blocks, by simpa [hix, Ne.symm hoid] using hchain, ?_⟩
    intro b hvalid hindex hclear
    by_cases hb : b = backend
    · subst hb
      simp only [tpAddDocidToPages, Function.update_self] at hindex
      exact absurd hindex.symm hoid
    · have hsame : (tpAddDocidToPages s backend oid ctid).caches b = s.caches b := by
        simp [tpAddDocidToPages, Function.update_of_ne hb]
      rw [hsame] at hvalid hindex ⊢
      rw [clearedByOther_add, if_neg (Ne.symm hb)] at hclear
      exact hcaches b hvalid hindex hclear

theorem docidInv_clear {hist : List DocidOp} {s : DocidState} (hinv : DocidInv hist s)
    (backend oid : Nat) :
    DocidInv (hist ++ [.clear backend oid]) (tpClearDocidPages s backend oid) := by
  -- the clearing backend's own cache is invalid; any other one counts as overtaken
  have hcache : ∀ b, b ≠ backend →
      (tpClearDocidPages s backend oid).caches b = s.caches b := by
    intro b hb
    simp [tpClearDocidPages, Function.update_of_ne hb]
  have hself : ((tpClearDocidPages s backend oid).caches backend).valid = false := by
    simp [tpClearDocidPages]
  intro oid'
  by_cases hoid : oid' = oid
  · subst hoid
    refine ⟨[], by simpa using tpClearDocidPages_chain s backend oid', ?_⟩
    intro b hvalid hindex hclear
    by_cases hb : b = backend
    · subst hb
      rw [hself] at hvalid
      cases hvalid
    · simp [Ne.symm hb] at hclear
  · obtain ⟨blocks, hchain, hcaches⟩ := hinv oid'
    have hix : (tpClearDocidPages s backend oid).indexes oid' = s.indexes oid' := by
      simp [tpClearDocidPages, Function.update_of_ne hoid]
    refine ⟨blocks, by simpa [hix, Ne.symm hoid] using hchain, ?_⟩
    intro b hvalid hindex hclear
    by_cases hb : b = backend
    · subst hb
      rw [hself] at hvalid
      cases hvalid
    · rw [hcache b hb] at hvalid hindex ⊢
      rw [clearedByOther_clear, if_neg (Ne.symm hb), Bool.or_eq_false_iff] at hclear
      exact hcaches b hvalid hindex hclear.1

theorem docidInv_step {hist : List DocidOp} {s s' : DocidState} {op : DocidOp}
    (hinv : DocidInv hist s) (hfresh : FreshAppend hist s op) (hstep : docidStep s op = some s') :
    DocidInv (hist ++ [op]) s' := by
  cases op with
  | add backend oid ctid =>
      cases hstep
      exact docidInv_add hinv ctid hfresh
  | clear backend oid =>
      cases hstep
      exact docidInv_clear hinv backend oid

theorem docidInv_of_reaches {hist : List DocidOp} {s : DocidState}
    (h : Reaches docidStep FreshAppend DocidState.init hist s) : DocidInv hist s :=
  h.invariant docidInv_init fun _ _ _ _ hinv hfresh hstep => docidInv_step hinv hfresh hstep

/-- **The docid chain is complete** in every run without stale appends: walking
the chain of any index gives the CTIDs added since its last clear, each once for
each time it was added. -/
theorem chain_complete {hist : List DocidOp} {s : DocidState}
    (h : Reaches docidStep FreshAppend DocidState.init hist s) (oid : Nat) :
    (s.indexes oid).chainDocids = addedSinceClear oid hist := by
  obtain ⟨blocks, hchain, -⟩ := docidInv_of_reaches h oid
  exact hchain.chainDocids_eq

/-- Two backends append to index 7, the second one clears it and goes on. -/
def sharedIndexRun : List DocidOp :=
  [.add 1 7 ⟨0, 1⟩, .add 2 7 ⟨0, 2⟩, .clear 2 7, .add 2 7 ⟨0, 3⟩]

theorem chain_complete_sharedIndexRun :
    ∃ s, Reaches docidStep FreshAppend DocidState.init sharedIndexRun s ∧
      (s.indexes 7).chainDocids = [⟨0, 3⟩] := by
  have h₁ : Reaches docidStep FreshAppend DocidState.init [.add 1 7 ⟨0, 1⟩] _ :=
    Reaches.nil.snoc (fun _ => rfl) rfl
  have h₂ : Reaches docidStep FreshAppend DocidState.init [.add 1 7 ⟨0, 1⟩, .add 2 7 ⟨0, 2⟩] _ :=
    h₁.snoc (fun _ => rfl) rfl
  have h₃ : Reaches docidStep FreshAppend DocidState.init
      [.add 1 7 ⟨0, 1⟩, .add 2 7 ⟨0, 2⟩, .clear 2 7] _ := h₂.snoc trivial rfl
  have h₄ : Reaches docidStep FreshAppend DocidState.init sharedIndexRun _ :=
    h₃.snoc (fun _ => rfl) rfl
  exact ⟨_, h₄, chain_complete h₄ 7⟩

/-- **A stale append is lost.**  Backend 1 appends, backend 2 clears, and backend
1 appends again to its cached page, which no longer belongs to the chain. -/
theorem stale_append_lost :
    ¬ ∀ hist s, Reaches docidStep (fun _ _ _ => True) DocidState.init hist s →
      ∀ oid, ∀ ctid ∈ addedSinceClear oid hist, ((s.indexes oid).chainDocids).count ctid = 1 := by
  intro hall
  have hrun : Reaches docidStep (fun _ _ _ => True) DocidState.init
      [.add 1 7 ⟨0, 1⟩, .clear 2 7, .add 1 7 ⟨0, 2⟩] _ := reaches_of_run rfl
  have := hall _ _ hrun 7 ⟨0, 2⟩ (by decide)
  exact absurd this (by decide)

end PgTextsearch.State
