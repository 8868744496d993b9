import Mathlib.Data.Set.Basic
import PgTextsearch.Segment.Compression
import PgTextsearch.Segment.PostingIterator
import PgTextsearch.Verified.NWayMerge

/-!
# Segments with stored blocks (`segment/segment.h`)

A segment as it lies on disk, section by section: the dictionary with the posting blocks
of its terms, each plain or compressed, the fieldnorm table, the CTID arrays and the
tenant map.

## Main results

* `decode_storeBlock`, `decode_storeEntry` — reading what was stored, with and without
  compression.
* `writeTermBlocks_wellFormed` — postings with different document ids are cut into a
  well-formed entry that holds all of them.
-/

namespace PgTextsearch.Segment

open PgTextsearch.Postgres PgTextsearch.Verified

/-! ## Stored blocks -/

/-- The data of a posting block; the constructor stands for `skip.flags`.  Readers take
`TP_MAX_COMPRESSED_BLOCK_SIZE` bytes of a compressed block, what follows it does not
matter (`decompressBlock_compressBlock`). -/
inductive BlockData where
  | uncompressed (postings : List BlockPosting)
  | delta (bytes : List (Fin 256))
  deriving DecidableEq, Repr

/-- A skip entry with the data at its posting offset. -/
structure StoredBlock where
  skip : SkipEntry
  data : BlockData
  deriving DecidableEq, Repr

/-- `TpDictEntry` with the skip entries at its offset. -/
structure StoredEntry where
  blockCount : Nat
  docFreq : Nat
  blocks : List StoredBlock
  deriving DecidableEq, Repr

/-- Read the postings of a block; `none` is a read outside of the block. -/
def StoredBlock.read (b : StoredBlock) : Option (List BlockPosting) :=
  match b.data with
  | .uncompressed postings =>
      if b.skip.docCount ≤ postings.length then some (postings.take b.skip.docCount) else none
  | .delta bytes => decompressBlock bytes b.skip.docCount 0

/-- A block with its postings. -/
def StoredBlock.decode (b : StoredBlock) : Option Block :=
  b.read.map fun postings => ⟨b.skip, postings⟩

/-- A dictionary entry with its postings. -/
def StoredEntry.decode (e : StoredEntry) : Option DictEntry :=
  (e.blocks.mapM StoredBlock.decode).map fun blocks => ⟨e.blockCount, e.docFreq, blocks⟩

/-- Write a block, compressed when `pg_textsearch.compress_segments` is on. -/
def storeBlock (compress : Bool) (b : Block) : StoredBlock where
  skip := b.skip
  data := if compress then .delta (compressBlock b.postings) else .uncompressed b.postings

/-- Write the blocks of a dictionary entry. -/
def storeEntry (compress : Bool) (e : DictEntry) : StoredEntry where
  blockCount := e.blockCount
  docFreq := e.docFreq
  blocks := e.blocks.map (storeBlock compress)

/-- Document ids and frequencies that fit the fields of `TpBlockPosting`. -/
def BlockPosting.Fits (p : BlockPosting) : Prop :=
  p.docId < 2 ^ 32 ∧ p.frequency < 2 ^ 16

/-- **Reading a stored block.** -/
theorem decode_storeBlock (compress : Bool) {b : Block}
    (hcount : b.skip.docCount = b.postings.length) (hfits : ∀ p ∈ b.postings, p.Fits) :
    (storeBlock compress b).decode = some b := by
  have hread : (storeBlock compress b).read = some b.postings := by
    unfold StoredBlock.read storeBlock
    cases compress with
    | false => simp [hcount]
    | true =>
        have hround := decompressBlock_compressBlock (fun p hp => (hfits p hp).1)
          (fun p hp => (hfits p hp).2) []
        rw [List.append_nil] at hround
        simpa [hcount] using hround
  rw [StoredBlock.decode, hread]
  rfl

private theorem mapM_some_of_forall {α β : Type} {f : α → Option β} {g : β → α} {ys : List β}
    (h : ∀ y ∈ ys, f (g y) = some y) : (ys.map g).mapM f = some ys := by
  induction ys with
  | nil => rfl
  | cons y ys ih =>
      rw [List.map_cons, List.mapM_cons, h y List.mem_cons_self,
        ih fun z hz => h z (List.mem_cons_of_mem _ hz)]
      rfl

/-- **Reading a stored entry.** -/
theorem decode_storeEntry (compress : Bool) {e : DictEntry} (he : e.WellFormed)
    (hfits : ∀ p ∈ e.postings, p.Fits) : (storeEntry compress e).decode = some e := by
  have hblocks : (storeEntry compress e).blocks.mapM StoredBlock.decode = some e.blocks := by
    apply mapM_some_of_forall
    intro b hb
    exact decode_storeBlock compress (he.docCount_eq b hb)
      fun p hp => hfits p (List.mem_flatMap.2 ⟨b, hb, hp⟩)
  rw [StoredEntry.decode, hblocks]
  rfl

/-! ## Segments -/

/-- The sections of a segment.  `hasTenantData` is `TP_FLAG_HAS_TENANT_DATA`, and
`tenantMap` the section at `tenant_map_offset`, when that is set.  The CTID arrays are
always there: the writers set `ctid_pages_offset` for every segment. -/
structure StoredSegment (Term : Type) where
  dictionary : List (Term × StoredEntry)
  numDocs : Nat
  fieldnorms : List (Fin 256)
  ctids : List ItemPointer
  tenantMap : Option (List Nat)
  hasTenantData : Bool
  deriving Repr

namespace StoredSegment

variable {Term : Type}

/-- `tp_segment_lookup_ctid`. -/
def lookupCtid (seg : StoredSegment Term) (docId : Nat) : ItemPointer :=
  seg.ctids.getD docId ItemPointer.invalid

/-- `tp_segment_load_tenant_ids`. -/
def loadTenantIds (seg : StoredSegment Term) : Option (List Nat) :=
  if seg.numDocs = 0 ∨ seg.hasTenantData = false then none else seg.tenantMap

/-- `tp_segment_get_tenant_id`. -/
def getTenantId (seg : StoredSegment Term) (docId : Nat) : Nat :=
  match seg.loadTenantIds with
  | none => 0
  | some tids => if docId ≥ seg.numDocs then 0 else tids.getD docId 0

/-- The fieldnorm of a document. -/
def getFieldnorm (seg : StoredSegment Term) (docId : Nat) : Fin 256 :=
  seg.fieldnorms.getD docId 0

end StoredSegment

/-- The postings that a reader of an entry visits. -/
def DictEntry.visible (e : DictEntry) : List BlockPosting :=
  (e.blocks.take e.blockCount).flatMap Block.postings

theorem DictEntry.WellFormed.visible_eq {e : DictEntry} (h : e.WellFormed) :
    e.visible = e.postings := by
  rw [DictEntry.visible, h.blockCount_eq, List.take_length]
  rfl

/-- A row of the index relation. -/
structure IndexRow (Term : Type) where
  term : Term
  ctid : ItemPointer
  frequency : Nat
  fieldnorm : Fin 256
  tenantId : Nat
  deriving DecidableEq, Repr

/-- The row of a posting. -/
def StoredSegment.row {Term : Type} (seg : StoredSegment Term) (term : Term)
    (p : BlockPosting) : IndexRow Term :=
  ⟨term, seg.lookupCtid p.docId, p.frequency, p.fieldnorm, seg.getTenantId p.docId⟩

/-- **The index relation** of a segment: a row for every posting that a reader visits. -/
def StoredSegment.relation {Term : Type} (seg : StoredSegment Term) : Set (IndexRow Term) :=
  { r | ∃ e d p, (r.term, e) ∈ seg.dictionary ∧ e.decode = some d ∧ p ∈ d.visible ∧
    r = seg.row r.term p }

/-- `d` is what the entry `e` of the segment decodes to: counts are right, and the
postings are about documents of the segment, with their fieldnorms. -/
structure StoredSegment.ValidEntry {Term : Type} (seg : StoredSegment Term) (e : StoredEntry)
    (d : DictEntry) : Prop where
  decode_eq : e.decode = some d
  wellFormed : d.WellFormed
  docFreq_eq : e.docFreq = d.postings.length
  docId_lt : ∀ p ∈ d.postings, p.docId < seg.numDocs
  fieldnorm_eq : ∀ p ∈ d.postings, p.fieldnorm = seg.getFieldnorm p.docId
  frequency_lt : ∀ p ∈ d.postings, p.frequency < 2 ^ 16

/-- A segment as a correct writer leaves it: the dictionary is strictly sorted, its
entries are valid, and the document sections have a row for every document, with
different CTIDs. -/
structure StoredSegment.WellFormed {Term : Type} [LinearOrder Term]
    (seg : StoredSegment Term) : Prop where
  numTerms_lt : seg.dictionary.length < 2 ^ 32
  sorted : KeysIncrease seg.dictionary
  entries : ∀ term e, (term, e) ∈ seg.dictionary → ∃ d, seg.ValidEntry e d
  ctids_length : seg.ctids.length = seg.numDocs
  fieldnorms_length : seg.fieldnorms.length = seg.numDocs
  tenantMap_length : ∀ tids, seg.tenantMap = some tids → tids.length = seg.numDocs
  ctids_nodup : seg.ctids.Nodup

/-! ## What the block loop writes -/

section BlockLoop

/-- Runs of 128 put together again. -/
private theorem flatMap_runs {α : Type} (l : List α) (n : Nat) :
    ((List.range n).flatMap fun i => (l.drop (i * tpBlockSize)).take tpBlockSize) =
      l.take (n * tpBlockSize) := by
  induction n with
  | zero => simp
  | succ n ih =>
      rw [List.range_succ, List.flatMap_append, ih, Nat.succ_mul, List.take_add]
      simp

/-- The block postings are the sorted postings. -/
theorem postings_writeTermBlocks (qs : Qsort) (tenantIds : Option (List Nat)) (docFreq : Nat)
    (ps : List BlockPosting) :
    (writeTermBlocks qs tenantIds docFreq ps).postings = qs.sort cmpBlockPostingByDocId ps := by
  unfold DictEntry.postings writeTermBlocks
  rw [List.flatMap_map]
  show ((List.range _).flatMap fun i =>
    ((qs.sort cmpBlockPostingByDocId ps).drop (i * tpBlockSize)).take tpBlockSize) = _
  rw [flatMap_runs]
  apply List.take_of_length_le
  unfold tpBlockSize
  omega

/-- What the block loop makes of the postings of a term. -/
theorem writeTermBlocks_counts (qs : Qsort) (tenantIds : Option (List Nat)) (docFreq : Nat)
    (ps : List BlockPosting) :
    (writeTermBlocks qs tenantIds docFreq ps).blocks.length =
        (ps.length + tpBlockSize - 1) / tpBlockSize ∧
      (writeTermBlocks qs tenantIds docFreq ps).blockCount =
        (ps.length + tpBlockSize - 1) / tpBlockSize % 65536 ∧
      (writeTermBlocks qs tenantIds docFreq ps).postings.length = ps.length := by
  have hsorted : (qs.sort cmpBlockPostingByDocId ps).length = ps.length := (qs.perm _ ps).length_eq
  refine ⟨?_, ?_, ?_⟩
  · rw [writeTermBlocks, List.length_map, List.length_range, hsorted]
  · rw [writeTermBlocks, hsorted]
  · rw [postings_writeTermBlocks, hsorted]

theorem isComparator_cmpBlockPostingByDocId : IsComparator cmpBlockPostingByDocId where
  total := by
    intro a b
    unfold cmpBlockPostingByDocId
    split_ifs <;> omega
  trans := by
    intro a b c
    unfold cmpBlockPostingByDocId
    split_ifs <;> omega

/-- Sorting postings with different document ids makes the ids strictly increase. -/
theorem sort_cmpBlockPostingByDocId (qs : Qsort) {ps : List BlockPosting}
    (hnodup : (ps.map BlockPosting.docId).Nodup) :
    (qs.sort cmpBlockPostingByDocId ps).Pairwise fun p q => p.docId < q.docId := by
  have hle : (qs.sort cmpBlockPostingByDocId ps).Pairwise fun p q => p.docId ≤ q.docId := by
    refine (qs.sorted _ ps isComparator_cmpBlockPostingByDocId).imp ?_
    intro a b hab
    unfold cmpBlockPostingByDocId at hab
    split_ifs at hab <;> omega
  have hne : (qs.sort cmpBlockPostingByDocId ps).Pairwise fun p q => p.docId ≠ q.docId :=
    List.pairwise_map.1 (((qs.perm _ ps).map BlockPosting.docId).symm.nodup hnodup)
  exact (hle.and hne).imp fun h => lt_of_le_of_ne h.1 h.2

/-- **The block loop** cuts postings with different document ids into a well-formed entry,
as long as the number of blocks fits its 16 bits. -/
theorem writeTermBlocks_wellFormed (qs : Qsort) (tenantIds : Option (List Nat)) (docFreq : Nat)
    {ps : List BlockPosting} (hnodup : (ps.map BlockPosting.docId).Nodup)
    (hlt : ∀ p ∈ ps, p.docId < uint32Max) (hblocks : ps.length ≤ 65535 * tpBlockSize) :
    (writeTermBlocks qs tenantIds docFreq ps).WellFormed := by
  have hsorted := sort_cmpBlockPostingByDocId qs hnodup
  have hlen := (qs.perm cmpBlockPostingByDocId ps).length_eq
  have hpost := postings_writeTermBlocks qs tenantIds docFreq ps
  -- every block is built from a run of the sorted postings
  have hrun : ∀ blk ∈ (writeTermBlocks qs tenantIds docFreq ps).blocks, ∃ i,
      blk = buildBlock tenantIds (((qs.sort cmpBlockPostingByDocId ps).drop
        (i * tpBlockSize)).take tpBlockSize) := by
    intro blk hblk
    obtain ⟨i, -, rfl⟩ := List.mem_map.1 hblk
    exact ⟨i, rfl⟩
  have hstats : ∀ blk ∈ (writeTermBlocks qs tenantIds docFreq ps).blocks, HasBlockStats blk := by
    intro blk hblk
    obtain ⟨run, hne, rfl⟩ := exists_buildBlock_of_mem hblk
    exact buildBlock_stats tenantIds hne
  have hincrease : ∀ blk ∈ (writeTermBlocks qs tenantIds docFreq ps).blocks,
      blk.postings.Pairwise fun p q => p.docId < q.docId := by
    intro blk hblk
    obtain ⟨i, rfl⟩ := hrun blk hblk
    exact (hsorted.sublist (List.drop_sublist _ _)).sublist (List.take_sublist _ _)
  exact
    { blockCount_eq := by
        unfold writeTermBlocks
        rw [List.length_map, List.length_range]
        apply Nat.mod_eq_of_lt
        unfold tpBlockSize at hblocks ⊢
        omega
      block_ne_nil := fun blk hblk => (hstats blk hblk).ne_nil
      docCount_eq := by
        intro blk hblk
        obtain ⟨i, rfl⟩ := hrun blk hblk
        apply Nat.mod_eq_of_lt
        rw [List.length_take]
        unfold tpBlockSize
        omega
      lastDocId_eq := by
        intro blk hblk p hlast
        obtain ⟨q, hq, heq⟩ := (hstats blk hblk).docId_attained
        have hp := List.mem_of_getLast? hlast
        refine le_antisymm ?_ ((hstats blk hblk).docId_le p hp)
        -- the last posting has the largest id
        rw [← heq]
        obtain ⟨init, hinit⟩ := List.getLast?_eq_some_iff.1 hlast
        have hinc := hincrease blk hblk
        rw [hinit] at hq hinc
        rcases List.mem_append.1 hq with hq | hq
        · exact ((List.pairwise_append.1 hinc).2.2 q hq p (List.mem_singleton.2 rfl)).le
        · rw [List.mem_singleton.1 hq]
      sorted := by
        show (writeTermBlocks qs tenantIds docFreq ps).postings.Pairwise _
        rw [hpost]
        exact hsorted
      docId_lt := by
        show ∀ p ∈ (writeTermBlocks qs tenantIds docFreq ps).postings, _
        rw [hpost]
        intro p hp
        exact hlt p ((qs.perm _ ps).subset hp) }

end BlockLoop

end PgTextsearch.Segment
