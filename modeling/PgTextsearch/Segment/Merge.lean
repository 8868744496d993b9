import PgTextsearch.Segment.Stored

/-!
# Merging segments (`segment/merge.c`)

A merge opens the segments of a level as sources, merges their dictionaries term by term,
builds one document map for the documents of all sources, and writes for every merged term
the postings of the sources that have it, with the document ids of the new map.

The loops over the dictionaries and over the postings of a term are those of
`Verified.NWayMerge`, with the sources of this module as cursors.

## Main results

* `mergeTerms_spec` — the merged dictionary.
* `collectTermPostings_perm` — collecting a term takes the postings of every source.
* `buildMergedDocmap_spec` — the new numbering of the documents.
-/

namespace PgTextsearch.Segment.Merge

open PgTextsearch.Postgres PgTextsearch.Verified

variable {Term : Type}

/-- Errors of a merge: the document map refuses a document, or a source is read outside of
its sections. -/
inductive MergeError where
  | docmap (e : SegmentError)
  | unreadable
  deriving DecidableEq, Repr

/-- A read of a source. -/
def readSource {α : Type} : Option α → Except MergeError α
  | none => .error .unreadable
  | some a => .ok a

/-- A document map operation. -/
def liftDocmap {α : Type} : Except SegmentError α → Except MergeError α
  | .error e => .error (.docmap e)
  | .ok a => .ok a

/-! ## Dictionaries -/

/-- `TpMergeSource`: the position in the dictionary of a source, with the term and the
entry there. -/
structure MergeSource (Term : Type) where
  reader : StoredSegment Term
  currentIdx : Nat
  current : Option (Term × StoredEntry)
  exhausted : Bool

/-- `merge_source_advance`.  The index is a `uint32` and wraps from its initial value. -/
def mergeSourceAdvance (source : MergeSource Term) : MergeSource Term :=
  if source.exhausted then source
  else
    let idx := (source.currentIdx + 1) % 2 ^ 32
    match source.reader.dictionary[idx]? with
    | none => { source with currentIdx := idx, current := none, exhausted := true }
    | some e => { source with currentIdx := idx, current := some e }

/-- `merge_source_init`; a segment without terms is no source. -/
def mergeSourceInit (seg : StoredSegment Term) : Option (MergeSource Term) :=
  if seg.dictionary.length = 0 then none
  else
    let source := mergeSourceAdvance ⟨seg, uint32Max, none, false⟩
    if source.exhausted then none else some source

/-- The term a source shows. -/
def MergeSource.head (source : MergeSource Term) : Option (Term × StoredEntry) :=
  if source.exhausted then none else source.current

/-- The term merge loop of `tp_merge_level_segments`: every merged term with the
`TpTermSegmentRef`s of the sources that have it.  A round uses up a term of some source. -/
def mergeTerms [LinearOrder Term] (sources : List (MergeSource Term)) :
    Option (List (Term × List (Nat × StoredEntry))) :=
  mergeKeyed (fun a b => decide (a < b)) MergeSource.head (fun s => some (mergeSourceAdvance s))
    ((sources.map fun s => s.reader.dictionary.length).sum + 1) sources

/-! ## Postings -/

/-- `TpMergePostingInfo`. -/
structure MergePostingInfo where
  ctid : ItemPointer
  oldDocId : Nat
  frequency : Nat
  fieldnorm : Fin 256
  deriving DecidableEq, Repr, Inhabited

/-- `TpPostingMergeSource`; `blocks` are the skip entries at `skip_index_offset` with their
blocks, `docCount` is the field of the current skip entry. -/
structure PostingMergeSource (Term : Type) where
  reader : StoredSegment Term
  blocks : List StoredBlock
  blockCount : Nat
  currentBlock : Nat
  currentInBlock : Nat
  docCount : Nat
  blockPostings : List BlockPosting
  current : MergePostingInfo
  exhausted : Bool

/-- `posting_source_load_block`, for a block below the block count. -/
def postingSourceLoadBlock (ps : PostingMergeSource Term) : Option (PostingMergeSource Term) := do
  let block ← ps.blocks[ps.currentBlock]?
  let postings ← block.read
  return { ps with
    docCount := block.skip.docCount, blockPostings := postings, currentInBlock := 0 }

/-- The posting of a block with the CTID of its document. -/
def postingInfo (reader : StoredSegment Term) (p : BlockPosting) : MergePostingInfo :=
  ⟨reader.lookupCtid p.docId, p.docId, p.frequency, p.fieldnorm⟩

/-- `posting_source_convert_current`. -/
def postingSourceConvertCurrent (ps : PostingMergeSource Term) : PostingMergeSource Term :=
  { ps with current := postingInfo ps.reader (ps.blockPostings.getD ps.currentInBlock default) }

/-- `posting_source_init`. -/
def postingSourceInit (reader : StoredSegment Term) (entry : StoredEntry) :
    Option (PostingMergeSource Term) :=
  let ps : PostingMergeSource Term :=
    ⟨reader, entry.blocks, entry.blockCount, 0, 0, 0, [], default, decide (entry.blockCount = 0)⟩
  if ps.exhausted then some ps
  else (postingSourceLoadBlock ps).map postingSourceConvertCurrent

/-- The loop of `posting_source_advance` that leaves used-up blocks; each round moves to
another block, so that the block count bounds the rounds. -/
def advanceBlocks : Nat → PostingMergeSource Term → Option (PostingMergeSource Term)
  | 0, _ => none
  | fuel + 1, ps =>
      if ps.currentInBlock ≥ ps.docCount then
        let ps := { ps with currentBlock := ps.currentBlock + 1 }
        if ps.currentBlock ≥ ps.blockCount then some { ps with exhausted := true }
        else do advanceBlocks fuel (← postingSourceLoadBlock ps)
      else some (postingSourceConvertCurrent ps)

/-- `posting_source_advance`. -/
def postingSourceAdvance (ps : PostingMergeSource Term) : Option (PostingMergeSource Term) :=
  if ps.exhausted then some ps
  else advanceBlocks (ps.blockCount + 1) { ps with currentInBlock := ps.currentInBlock + 1 }

/-- The posting a source shows. -/
def PostingMergeSource.head (ps : PostingMergeSource Term) : Option MergePostingInfo :=
  if ps.exhausted then none else some ps.current

/-- The comparison of `find_min_posting_source`. -/
def ctidLess (a b : ItemPointer) : Bool := decide (ItemPointer.compare a b < 0)

theorem ctidLess_iff (a b : ItemPointer) : ctidLess a b = true ↔ a < b := by
  rw [ctidLess, decide_eq_true_iff, ItemPointer.compare_neg_iff]

/-- The entry of `collect_term_postings` for a posting of the source `i`. -/
def collectedPosting (sources : List (MergeSource Term)) (i : Nat) (info : MergePostingInfo) :
    CollectedPosting where
  ctid := info.ctid
  sourceIdx := i
  oldDocId := info.oldDocId
  frequency := info.frequency
  fieldnorm := info.fieldnorm
  tenantId := (sources[i]?.map fun s => s.reader.getTenantId info.oldDocId).getD 0

/-- The number of postings the skip entries of an entry announce. -/
def announced (entry : StoredEntry) : Nat :=
  (entry.blocks.map fun b => b.skip.docCount).sum

/-- `collect_term_postings`: the source with the smallest CTID gives the next posting. -/
def collectTermPostings (sources : List (MergeSource Term)) (refs : List (Nat × StoredEntry)) :
    Option (List CollectedPosting) := do
  let psources ← refs.mapM fun ref => do postingSourceInit (← sources[ref.1]?).reader ref.2
  let drained ← drainMin ctidLess MergePostingInfo.ctid
    PostingMergeSource.head postingSourceAdvance
    ((refs.map fun ref => announced ref.2).sum + 1) psources
  return drained.map fun (i, info) => collectedPosting sources ((refs.map Prod.fst).getD i 0) info

/-! ## Documents -/

/-- The row that the first pass of `build_merged_docmap` adds for a document: its length
is read back from the fieldnorm. -/
def docRow (seg : StoredSegment Term) (docId : Nat) : ItemPointer × Nat × Nat :=
  (seg.lookupCtid docId, decodeFieldnorm (seg.getFieldnorm docId), seg.getTenantId docId)

/-- The rows of a segment. -/
def docRows (seg : StoredSegment Term) : List (ItemPointer × Nat × Nat) :=
  (List.range seg.numDocs).map (docRow seg)

/-- `build_merged_docmap`. -/
def buildMergedDocmap (hs : HashSeq) (qs : Qsort) (sources : List (MergeSource Term)) :
    Except SegmentError DocMapBuilder := do
  let docmap ← tpDocmapAddAll id tpDocmapCreate (sources.flatMap fun s => docRows s.reader)
  return tpDocmapFinalize hs qs docmap

/-- `mapping->old_to_new`, the second pass of `build_merged_docmap`. -/
def oldToNew (docmap : DocMapBuilder) (sources : List (MergeSource Term)) (sourceIdx : Nat)
    (oldDocId : Nat) : Nat :=
  match sources[sourceIdx]? with
  | none => uint32Max
  | some s => tpDocmapLookup docmap (s.reader.lookupCtid oldDocId)

/-! ## The merged segment -/

/-- The streaming pass of `write_merged_segment` for one term. -/
def writeMergedTerm (qs : Qsort) (compress : Bool) (docmap : DocMapBuilder)
    (sources : List (MergeSource Term)) (term : Term × List (Nat × StoredEntry)) :
    Except MergeError (Term × StoredEntry) := do
  let postings ← readSource (collectTermPostings sources term.2)
  return (term.1, storeEntry compress
    (writeMergedSegmentTerm qs docmap (oldToNew docmap sources) postings))

/-- `write_merged_segment`. -/
def writeMergedSegment (hs : HashSeq) (qs : Qsort) (compress : Bool)
    (terms : List (Term × List (Nat × StoredEntry))) (sources : List (MergeSource Term)) :
    Except MergeError (StoredSegment Term) := do
  let docmap ← liftDocmap (buildMergedDocmap hs qs sources)
  let dictionary ← terms.mapM (writeMergedTerm qs compress docmap sources)
  return {
    dictionary := dictionary
    numDocs := docmap.numDocs
    fieldnorms := docmap.fieldnorms
    ctids := docmap.ctids
    tenantMap := if 0 < docmap.numDocs then docmap.tenantIds else none
    hasTenantData := sources.any fun s => s.reader.hasTenantData }

/-- `tp_merge_level_segments`, for the segments of the level in the order of the chain and
up to the metapage update; no result stands for `InvalidBlockNumber`. -/
def tpMergeLevelSegments [LinearOrder Term] (hs : HashSeq) (qs : Qsort) (compress : Bool)
    (chain : List (StoredSegment Term)) : Except MergeError (Option (StoredSegment Term)) :=
  let sources := chain.filterMap mergeSourceInit
  if sources.isEmpty then return none
  else do
    let terms ← readSource (mergeTerms sources)
    if terms.isEmpty then return none
    else return some (← writeMergedSegment hs qs compress terms sources)

/-! ## The merged dictionary -/

section Dictionaries

/-- `s` has the terms `l` of its dictionary still to show. -/
def MergeSource.Shows (s : MergeSource Term) (l : List (Term × StoredEntry)) : Prop :=
  s.reader.dictionary.length < 2 ^ 32 ∧
    (s.exhausted = true ∧ l = [] ∨
      s.exhausted = false ∧ s.currentIdx < s.reader.dictionary.length ∧
        l = s.reader.dictionary.drop s.currentIdx ∧ s.current = l.head?)

/-- **Advancing a source** moves to the next term of its dictionary. -/
theorem delivers_mergeSource : Delivers (fun s : MergeSource Term => s.head)
    (fun s => some (mergeSourceAdvance s)) MergeSource.Shows where
  head_nil := by
    rintro s ⟨-, ⟨hex, -⟩ | ⟨-, hlt, hnil, -⟩⟩
    · simp [MergeSource.head, hex]
    · have := congrArg List.length hnil
      simp only [List.length_nil, List.length_drop] at this
      omega
  head_cons := by
    rintro s a l ⟨-, ⟨-, hl⟩ | ⟨hex, -, -, hcur⟩⟩
    · cases hl
    · simp [MergeSource.head, hex, hcur]
  advance_cons := by
    rintro s a l ⟨hsize, ⟨-, hl⟩ | ⟨hex, hlt, hdrop, -⟩⟩
    · cases hl
    · refine ⟨_, rfl, ?_⟩
      have hidx : (s.currentIdx + 1) % 2 ^ 32 = s.currentIdx + 1 := Nat.mod_eq_of_lt (by omega)
      have htail : l = s.reader.dictionary.drop (s.currentIdx + 1) := by
        rw [← List.tail_drop, ← hdrop]
        rfl
      unfold mergeSourceAdvance
      simp only [hex, Bool.false_eq_true, if_false, hidx]
      cases hnext : s.reader.dictionary[s.currentIdx + 1]? with
      | none =>
          refine ⟨hsize, Or.inl ⟨rfl, ?_⟩⟩
          rw [htail, List.drop_eq_nil_iff]
          exact List.getElem?_eq_none_iff.1 hnext
      | some e =>
          refine ⟨hsize, Or.inr ⟨rfl, (List.getElem?_eq_some_iff.1 hnext).1, htail, ?_⟩⟩
          rw [htail, List.head?_drop, hnext]

/-- A source before its first term. -/
def MergeSource.start (seg : StoredSegment Term) : MergeSource Term :=
  ⟨seg, 0, seg.dictionary.head?, false⟩

@[simp] theorem MergeSource.start_reader (seg : StoredSegment Term) :
    (MergeSource.start seg).reader = seg := rfl

/-- The sources of a merge: the segments that have terms, each before its first term. -/
theorem filterMap_mergeSourceInit (chain : List (StoredSegment Term)) :
    chain.filterMap mergeSourceInit =
      (chain.filter fun seg => !seg.dictionary.isEmpty).map MergeSource.start := by
  induction chain with
  | nil => rfl
  | cons seg rest ih =>
      rw [List.filterMap_cons]
      cases hdict : seg.dictionary with
      | nil =>
          have hnone : mergeSourceInit seg = none := by simp [mergeSourceInit, hdict]
          simp [hnone, hdict, ih]
      | cons e l =>
          have hsome : mergeSourceInit seg = some ⟨seg, 0, some e, false⟩ := by
            simp [mergeSourceInit, mergeSourceAdvance, hdict, uint32Max]
          simp [hsome, hdict, ih, MergeSource.start]

/-- **The merged dictionary**: every term of the sources once, in order, with the entries
of all sources that have it. -/
theorem mergeTerms_spec [LinearOrder Term] {segs : List (StoredSegment Term)}
    (hne : ∀ seg ∈ segs, seg.dictionary ≠ []) (hsize : ∀ seg ∈ segs, seg.dictionary.length < 2 ^ 32)
    (hsorted : ∀ seg ∈ segs, KeysIncrease seg.dictionary) :
    ∃ terms, mergeTerms (segs.map MergeSource.start) = some terms ∧
      MergedKeys (segs.map StoredSegment.dictionary) terms := by
  have hR : List.Forall₂ MergeSource.Shows (segs.map MergeSource.start)
      (segs.map StoredSegment.dictionary) := by
    rw [List.forall₂_map_left_iff, List.forall₂_map_right_iff, List.forall₂_same]
    intro seg hseg
    exact ⟨hsize seg hseg, Or.inr ⟨rfl, List.length_pos_of_ne_nil (hne seg hseg), rfl, rfl⟩⟩
  refine mergeKeyed_spec (fun a b => by simp) delivers_mergeSource _ hR ?_ ?_
  · intro l hl
    obtain ⟨seg, hseg, rfl⟩ := List.mem_map.1 hl
    exact hsorted seg hseg
  · rw [List.map_map, List.map_map]
    exact Nat.lt_succ_self _

end Dictionaries

/-! ## Collecting the postings of a term -/

section Postings

/-- The blocks and their decoding go together. -/
private theorem forall₂_of_mapM_some {α β : Type} {f : α → Option β} {xs : List α} {ys : List β}
    (h : xs.mapM f = some ys) : List.Forall₂ (fun x y => f x = some y) xs ys := by
  induction xs generalizing ys with
  | nil =>
      cases h
      exact List.Forall₂.nil
  | cons x xs ih =>
      rw [List.mapM_cons] at h
      obtain ⟨y, hy, h⟩ := Option.bind_eq_some_iff.1 h
      obtain ⟨zs, hzs, h⟩ := Option.bind_eq_some_iff.1 h
      cases h
      exact List.Forall₂.cons hy (ih hzs)

/-- A stored block that decodes to a block with as many postings as it announces. -/
def DecodesTo (b : StoredBlock) (blk : Block) : Prop :=
  b.decode = some blk ∧ blk.skip.docCount = blk.postings.length ∧ blk.postings ≠ []

theorem DecodesTo.read_eq {b : StoredBlock} {blk : Block} (h : DecodesTo b blk) :
    b.read = some blk.postings ∧ b.skip.docCount = blk.postings.length := by
  obtain ⟨hdec, hcount, -⟩ := h
  unfold StoredBlock.decode at hdec
  obtain ⟨postings, hread, rfl⟩ := Option.map_eq_some_iff.1 hdec
  exact ⟨hread, hcount⟩

private theorem forall₂_decodesTo_of_valid {stored : List StoredBlock} {blocks : List Block}
    (h : List.Forall₂ (fun b blk => b.decode = some blk) stored blocks)
    (hvalid : ∀ blk ∈ blocks, blk.skip.docCount = blk.postings.length ∧ blk.postings ≠ []) :
    List.Forall₂ DecodesTo stored blocks := by
  induction h with
  | nil => exact List.Forall₂.nil
  | cons hb _ ih =>
      refine List.Forall₂.cons ⟨hb, hvalid _ List.mem_cons_self⟩ (ih ?_)
      exact fun blk hblk => hvalid blk (List.mem_cons_of_mem _ hblk)

/-- The blocks of a well-formed entry. -/
theorem forall₂_decodesTo {e : StoredEntry} {d : DictEntry} (hdec : e.decode = some d)
    (hd : d.WellFormed) : List.Forall₂ DecodesTo e.blocks d.blocks := by
  unfold StoredEntry.decode at hdec
  obtain ⟨blocks, hblocks, rfl⟩ := Option.map_eq_some_iff.1 hdec
  refine forall₂_decodesTo_of_valid (forall₂_of_mapM_some hblocks) ?_
  exact fun blk hblk => ⟨hd.docCount_eq blk hblk, hd.block_ne_nil blk hblk⟩

/-- `ps` has the postings `rest` still to show: the rest of the cached block, and the blocks
after it. -/
def PostingMergeSource.Reads (reader : StoredSegment Term) (ps : PostingMergeSource Term)
    (rest : List MergePostingInfo) : Prop :=
  ps.reader = reader ∧
    (ps.exhausted = true ∧ rest = [] ∨
      ps.exhausted = false ∧ ps.blockCount = ps.blocks.length ∧ ps.currentBlock < ps.blockCount ∧
        ps.docCount = ps.blockPostings.length ∧
        ∃ p tail later, ps.blockPostings.drop ps.currentInBlock = p :: tail ∧
          ps.current = postingInfo reader p ∧
          List.Forall₂ DecodesTo (ps.blocks.drop (ps.currentBlock + 1)) later ∧
          rest = (p :: tail ++ later.flatMap Block.postings).map (postingInfo reader))

/-- Loading the block after the current one. -/
private theorem load_next {reader : StoredSegment Term} (ps : PostingMergeSource Term)
    {later : List Block} (hreader : ps.reader = reader)
    (hlater : List.Forall₂ DecodesTo (ps.blocks.drop ps.currentBlock) later)
    (hcount : ps.blockCount = ps.blocks.length) (hlt : ps.currentBlock < ps.blockCount)
    (hex : ps.exhausted = false) :
    ∃ ps', postingSourceLoadBlock ps = some ps' ∧ ps'.currentInBlock < ps'.docCount ∧
      (postingSourceConvertCurrent ps').Reads reader
        ((later.flatMap Block.postings).map (postingInfo reader)) := by
  rw [List.drop_eq_getElem_cons (by omega)] at hlater
  obtain ⟨blk, later, hblk, hrest, rfl⟩ := List.forall₂_cons_left_iff.1 hlater
  obtain ⟨hread, hdoc⟩ := hblk.read_eq
  have hget : ps.blocks[ps.currentBlock]? = some ps.blocks[ps.currentBlock] :=
    List.getElem?_eq_getElem (by omega)
  obtain ⟨p, tail, hpost⟩ := List.exists_cons_of_ne_nil hblk.2.2
  refine ⟨{ ps with
      docCount := ps.blocks[ps.currentBlock].skip.docCount
      blockPostings := blk.postings
      currentInBlock := 0 }, ?_, ?_, ?_⟩
  · unfold postingSourceLoadBlock
    rw [hget]
    simp only [Option.bind_eq_bind, Option.bind_some, hread]
    rfl
  · show 0 < ps.blocks[ps.currentBlock].skip.docCount
    rw [hdoc, hpost, List.length_cons]
    omega
  · refine ⟨hreader, Or.inr ⟨hex, hcount, hlt, hdoc, p, tail, later, hpost, ?_, hrest, ?_⟩⟩
    · show postingInfo ps.reader (blk.postings.getD 0 default) = _
      rw [hreader, hpost]
      rfl
    · rw [List.flatMap_cons, hpost]

/-- **The first posting** of an entry. -/
theorem postingSourceInit_reads (reader : StoredSegment Term) {e : StoredEntry} {d : DictEntry}
    (hdec : e.decode = some d) (hd : d.WellFormed) :
    ∃ ps, postingSourceInit reader e = some ps ∧
      ps.Reads reader (d.postings.map (postingInfo reader)) := by
  have hblocks := forall₂_decodesTo hdec hd
  have hcount : e.blockCount = e.blocks.length := by
    rw [hblocks.length_eq, ← hd.blockCount_eq]
    unfold StoredEntry.decode at hdec
    obtain ⟨blocks, -, rfl⟩ := Option.map_eq_some_iff.1 hdec
    rfl
  unfold postingSourceInit
  by_cases hzero : e.blockCount = 0
  · have hnil : e.blocks = [] := List.length_eq_zero_iff.1 (hcount ▸ hzero)
    rw [hnil] at hblocks
    have hdnil : d.blocks = [] := List.forall₂_nil_left_iff.1 hblocks
    simp only [hzero, decide_true, if_true]
    refine ⟨_, rfl, rfl, Or.inl ⟨rfl, ?_⟩⟩
    simp [DictEntry.postings, hdnil]
  · simp only [hzero, decide_false, Bool.false_eq_true, if_false]
    obtain ⟨ps, hload, -, hreads⟩ := load_next
      ⟨reader, e.blocks, e.blockCount, 0, 0, 0, [], default, false⟩ rfl hblocks hcount
      (Nat.pos_of_ne_zero hzero) rfl
    exact ⟨postingSourceConvertCurrent ps, by rw [hload]; rfl, hreads⟩

/-- **Advancing a posting source** moves to the next posting, in the block or in the next
one. -/
theorem delivers_postingSource (reader : StoredSegment Term) :
    Delivers (fun ps : PostingMergeSource Term => ps.head) postingSourceAdvance
      (PostingMergeSource.Reads reader) where
  head_nil := by
    rintro ps ⟨-, ⟨hex, -⟩ | ⟨-, -, -, -, p, tail, later, -, -, -, hrest⟩⟩
    · simp [PostingMergeSource.head, hex]
    · cases hrest
  head_cons := by
    rintro ps a l ⟨-, ⟨-, hl⟩ | ⟨hex, -, -, -, p, tail, later, -, hcur, -, hrest⟩⟩
    · cases hl
    · simp only [List.cons_append, List.map_cons, List.cons.injEq] at hrest
      simp [PostingMergeSource.head, hex, hcur, hrest.1]
  advance_cons := by
    rintro ps a l ⟨hreader, ⟨-, hl⟩ | ⟨hex, hcount, hlt, hdoc, p, tail, later, hdrop, -, hlater,
      hrest⟩⟩
    · cases hl
    · simp only [List.cons_append, List.map_cons, List.cons.injEq] at hrest
      have htail : ps.blockPostings.drop (ps.currentInBlock + 1) = tail := by
        rw [← List.tail_drop, hdrop]
        rfl
      have hlen := congrArg List.length htail
      rw [List.length_drop] at hlen
      unfold postingSourceAdvance
      rw [if_neg (by simp [hex])]
      unfold advanceBlocks
      cases tail with
      | cons q tail =>
          -- another posting in the cached block
          rw [List.length_cons] at hlen
          have hin : ¬ ps.currentInBlock + 1 ≥ ps.docCount := by omega
          rw [if_neg hin]
          refine ⟨_, rfl, hreader, Or.inr ⟨hex, hcount, hlt, hdoc, q, tail, later, htail, ?_,
            hlater, hrest.2⟩⟩
          have hget : ps.blockPostings[ps.currentInBlock + 1]? = some q := by
            rw [← List.head?_drop, htail]
            rfl
          show postingInfo ps.reader (ps.blockPostings.getD (ps.currentInBlock + 1) default) = _
          rw [hreader, List.getD_eq_getElem?_getD, hget]
          rfl
      | nil =>
          rw [List.length_nil] at hlen
          have hpos : ps.currentInBlock < ps.blockPostings.length := by
            have := congrArg List.length hdrop
            rw [List.length_drop, List.length_cons] at this
            omega
          have hout : ps.currentInBlock + 1 ≥ ps.docCount := by omega
          rw [if_pos hout]
          by_cases hlast : ps.currentBlock + 1 ≥ ps.blockCount
          · -- no block left
            have hnil : ps.blocks.drop (ps.currentBlock + 1) = [] :=
              List.drop_eq_nil_iff.2 (by omega)
            rw [hnil] at hlater
            rw [List.forall₂_nil_left_iff.1 hlater] at hrest
            simp only [hlast, if_true]
            exact ⟨_, rfl, hreader, Or.inl ⟨rfl, hrest.2.symm.trans (by simp) |>.symm⟩⟩
          · simp only [hlast, if_false]
            obtain ⟨ps', hload, hin, hreads⟩ := load_next
              { ps with
                currentInBlock := ps.currentInBlock + 1, currentBlock := ps.currentBlock + 1 }
              hreader hlater hcount (not_le.1 hlast) hex
            rw [hload]
            obtain ⟨n, hn⟩ := Nat.exists_eq_succ_of_ne_zero (show ps.blockCount ≠ 0 by omega)
            refine ⟨postingSourceConvertCurrent ps', ?_, ?_⟩
            · show advanceBlocks ps.blockCount ps' = _
              rw [hn, advanceBlocks, if_neg (not_le.2 hin)]
            · rw [hrest.2]
              exact hreads

/-- A well-formed entry announces the postings it has. -/
theorem announced_eq {e : StoredEntry} {d : DictEntry} (hdec : e.decode = some d)
    (hd : d.WellFormed) : announced e = d.postings.length := by
  have hblocks := forall₂_decodesTo hdec hd
  unfold announced DictEntry.postings
  generalize e.blocks = stored at hblocks
  generalize d.blocks = blocks at hblocks
  induction hblocks with
  | nil => rfl
  | cons hb _ ih =>
      rw [List.map_cons, List.sum_cons, ih, hb.read_eq.2, List.flatMap_cons, List.length_append]

/-- The postings of an entry. -/
def entryPostings (e : StoredEntry) : List BlockPosting :=
  (e.decode.map DictEntry.postings).getD []

theorem entryPostings_eq {e : StoredEntry} {d : DictEntry} (hdec : e.decode = some d) :
    entryPostings e = d.postings := by
  rw [entryPostings, hdec]
  rfl

/-- The posting sources of any segments. -/
theorem delivers_postingSources : Delivers (fun ps : PostingMergeSource Term => ps.head)
    postingSourceAdvance fun ps rest => ∃ reader, ps.Reads reader rest where
  head_nil := fun ps ⟨reader, h⟩ => (delivers_postingSource reader).head_nil ps h
  head_cons := fun ps a l ⟨reader, h⟩ => (delivers_postingSource reader).head_cons ps a l h
  advance_cons := fun ps a l ⟨reader, h⟩ => by
    obtain ⟨ps', hadv, h'⟩ := (delivers_postingSource reader).advance_cons ps a l h
    exact ⟨ps', hadv, reader, h'⟩

/-- A reference of a merged term: the source is there, and its entry can be read. -/
def ValidRef (sources : List (MergeSource Term)) (ref : Nat × StoredEntry) : Prop :=
  ∃ s d, sources[ref.1]? = some s ∧ ref.2.decode = some d ∧ d.WellFormed

/-- The postings of a reference, as its posting source shows them. -/
def refInfos (sources : List (MergeSource Term)) (ref : Nat × StoredEntry) :
    List MergePostingInfo :=
  match sources[ref.1]? with
  | none => []
  | some s => (entryPostings ref.2).map (postingInfo s.reader)

/-- What the reference adds to the collected postings. -/
def refPostings (sources : List (MergeSource Term)) (ref : Nat × StoredEntry) :
    List CollectedPosting :=
  (refInfos sources ref).map (collectedPosting sources ref.1)

/-- The posting sources of a term. -/
private theorem mapM_postingSourceInit {sources : List (MergeSource Term)}
    {refs : List (Nat × StoredEntry)} (hrefs : ∀ ref ∈ refs, ValidRef sources ref) :
    ∃ psources, (refs.mapM fun ref => do postingSourceInit (← sources[ref.1]?).reader ref.2) =
        some psources ∧
      List.Forall₂ (fun ps rest => ∃ reader, ps.Reads reader rest) psources
        (refs.map (refInfos sources)) := by
  induction refs with
  | nil => exact ⟨[], rfl, List.Forall₂.nil⟩
  | cons ref refs ih =>
      obtain ⟨psources, hmap, hreads⟩ := ih fun r hr => hrefs r (List.mem_cons_of_mem _ hr)
      obtain ⟨s, d, hs, hdec, hd⟩ := hrefs ref List.mem_cons_self
      obtain ⟨ps, hinit, hps⟩ := postingSourceInit_reads s.reader hdec hd
      refine ⟨ps :: psources, ?_, List.Forall₂.cons ⟨s.reader, ?_⟩ hreads⟩
      · rw [List.mapM_cons, hs, hmap]
        simp [hinit]
      · rw [refInfos, hs]
        simpa [entryPostings_eq hdec] using hps

private theorem sum_announced {sources : List (MergeSource Term)}
    {refs : List (Nat × StoredEntry)} (hrefs : ∀ ref ∈ refs, ValidRef sources ref) :
    ((refs.map (refInfos sources)).map List.length).sum =
      (refs.map fun ref => announced ref.2).sum := by
  induction refs with
  | nil => rfl
  | cons ref refs ih =>
      obtain ⟨s, d, hs, hdec, hd⟩ := hrefs ref List.mem_cons_self
      have hlen : (refInfos sources ref).length = announced ref.2 := by
        rw [refInfos, hs, announced_eq hdec hd]
        simp [entryPostings_eq hdec]
      rw [List.map_cons, List.map_cons, List.sum_cons, List.map_cons, List.sum_cons, hlen,
        ih fun r hr => hrefs r (List.mem_cons_of_mem _ hr)]

/-- **Collecting a term** takes the postings of every source that has it, each once. -/
theorem collectTermPostings_perm {sources : List (MergeSource Term)}
    {refs : List (Nat × StoredEntry)} (hrefs : ∀ ref ∈ refs, ValidRef sources ref) :
    ∃ out, collectTermPostings sources refs = some out ∧
      out.Perm (refs.flatMap (refPostings sources)) := by
  obtain ⟨psources, hmap, hreads⟩ := mapM_postingSourceInit hrefs
  obtain ⟨drained, hdrain, hperm⟩ := drainMin_perm MergePostingInfo.ctid ctidLess_iff
    delivers_postingSources ((refs.map fun ref => announced ref.2).sum + 1) hreads
    (by rw [sum_announced hrefs]; exact Nat.lt_succ_self _)
  refine ⟨drained.map fun t =>
    collectedPosting sources ((refs.map Prod.fst).getD t.1 0) t.2, ?_, ?_⟩
  · unfold collectTermPostings
    rw [hmap]
    simp only [Option.bind_eq_bind, Option.bind_some]
    rw [hdrain]
    rfl
  · refine (hperm.map _).trans ?_
    rw [map_tagged refs (refInfos sources)
      (fun i info => collectedPosting sources ((refs.map Prod.fst).getD i 0) info)
      (fun ref => collectedPosting sources ref.1) 0]
    · exact List.Perm.refl _
    · intro n ref hn info
      rw [Nat.zero_add, List.getD_eq_getElem?_getD, List.getElem?_map, hn]
      rfl

end Postings

/-! ## The merged document map -/

section Documents

theorem length_docRows (seg : StoredSegment Term) : (docRows seg).length = seg.numDocs := by
  rw [docRows, List.length_map, List.length_range]

/-- The CTIDs of the rows are the CTID arrays. -/
theorem docRows_ctids {seg : StoredSegment Term} (h : seg.ctids.length = seg.numDocs) :
    ((docRows seg).map fun r => r.1) = seg.ctids := by
  apply List.ext_getElem
  · simp [docRows, h]
  · intro n hn hn'
    simp only [docRows, docRow, List.getElem_map, List.getElem_range, StoredSegment.lookupCtid]
    exact List.getD_eq_getElem _ _ hn'

section Numbering

variable {sources : List (MergeSource Term)}
  (hctids : ∀ s ∈ sources, s.reader.ctids.length = s.reader.numDocs)
  (hnodup : (sources.flatMap fun s => s.reader.ctids).Nodup)
include hctids hnodup

private theorem nodup_rows :
    ((sources.flatMap fun s => docRows s.reader).map fun r => r.1).Nodup := by
  rw [List.map_flatMap]
  have hsame : (sources.flatMap fun s => (docRows s.reader).map fun r => r.1) =
      sources.flatMap fun s => s.reader.ctids :=
    List.flatMap_congr fun s hsrc => docRows_ctids (hctids s hsrc)
  rw [hsame]
  exact hnodup

/-- **The new numbering**: the documents of all sources, each once. -/
theorem buildMergedDocmap_spec (hs : HashSeq) (qs : Qsort) {docmap : DocMapBuilder}
    (h : buildMergedDocmap hs qs sources = .ok docmap) :
    ∃ order, order.Perm (sources.flatMap fun s => docRows s.reader) ∧ Numbers docmap order := by
  obtain ⟨added, hadded, h⟩ := bind_eq_ok h
  cases h
  have hrows := nodup_rows hctids hnodup
  obtain ⟨htable, hnum, hfields⟩ :=
    tpDocmapAdd_rows id hadded (by simpa [tpDocmapCreate] using hrows)
  refine tpDocmapFinalize_numbers hs qs ?_ ?_ ?_ hrows
  · simpa [tpDocmapCreate] using htable
  · simpa [tpDocmapCreate] using hnum
  · rw [hfields]
    exact ⟨rfl, rfl, rfl⟩

/-- The document map takes the documents of the sources if there are fewer than
`UINT32_MAX`. -/
theorem buildMergedDocmap_total (hs : HashSeq) (qs : Qsort) :
    if (sources.map fun s => s.reader.numDocs).sum < uint32Max then
      ∃ docmap, buildMergedDocmap hs qs sources = .ok docmap
    else buildMergedDocmap hs qs sources = .error .tooManyDocuments := by
  have hlen : (sources.flatMap fun s => docRows s.reader).length =
      (sources.map fun s => s.reader.numDocs).sum := by
    simp only [List.length_flatMap, length_docRows]
  split
  case isTrue hlt =>
    obtain ⟨added, hadded⟩ := tpDocmapAdd_rows_ok id
      (sources.flatMap fun s => docRows s.reader) tpDocmapCreate (by
        rw [hlen]
        simpa [tpDocmapCreate] using hlt)
    refine ⟨tpDocmapFinalize hs qs added, ?_⟩
    rw [buildMergedDocmap, hadded]
    rfl
  case isFalse hge =>
    have herror := tpDocmapAdd_rows_error id (sources.flatMap fun s => docRows s.reader)
      tpDocmapCreate (by simpa [tpDocmapCreate] using nodup_rows hctids hnodup)
      (Nat.zero_le _) (by
        rw [hlen]
        simpa [tpDocmapCreate] using hge)
    rw [buildMergedDocmap, herror]
    rfl

end Numbering

end Documents

end PgTextsearch.Segment.Merge
