import PgTextsearch.Rust.Dictionary
import PgTextsearch.Segment.CompressionChecks

/-!
# The Rust segment builder (`rust/src/segment/writer.rs`, `format.rs`)

The builder appends section after section to a byte buffer and comes back at the end to fill in
the dictionary entries and the header.  Lengths and offsets are cut to 32 bits, block counts to
16; `none` is a panic, of a slice out of bounds or in the compression of a block.

## Main results

* `writeAllPostings_spec` — what the calls for the posting lists append.
* `buildSegment_spec` — the image: its sections, one behind the other.
-/

namespace PgTextsearch.RustSegment

open PgTextsearch.Postgres PgTextsearch.Segment PgTextsearch.Segment.File PgTextsearch.Verified

/-! ## Structures -/

/-- `TpSegmentHeader` of the Rust side; it has no `tenant_ranges_offset`. -/
structure TpSegmentHeader where
  magic : Nat
  version : Nat
  createdAt : Nat
  numPages : Nat
  dataSize : Nat
  level : Nat
  nextSegment : Nat
  dictionaryOffset : Nat
  stringsOffset : Nat
  entriesOffset : Nat
  postingsOffset : Nat
  skipIndexOffset : Nat
  fieldnormOffset : Nat
  ctidPagesOffset : Nat
  ctidOffsetsOffset : Nat
  numTerms : Nat
  numDocs : Nat
  totalTokens : Nat
  pageIndex : Nat
  tenantMapOffset : Nat
  tenantStatsOffset : Nat
  tenantDocfreqOffset : Nat
  flags : Nat
  deriving DecidableEq, Repr

/-- The widths of its fields; four bytes of padding follow, for the alignment of the 64-bit
fields. -/
def headerWidths : List Nat :=
  [4, 4, 8, 4, 4, 4, 4, 4, 4, 4, 4, 4, 4, 4, 4, 4, 4, 8, 4, 4, 4, 4, 4]

/-- `size_of::<TpSegmentHeader>()`. -/
def sizeOfHeader : Nat := 104

namespace TpSegmentHeader

def fields (h : TpSegmentHeader) : List Nat :=
  [h.magic, h.version, h.createdAt, h.numPages, h.dataSize, h.level, h.nextSegment,
    h.dictionaryOffset, h.stringsOffset, h.entriesOffset, h.postingsOffset, h.skipIndexOffset,
    h.fieldnormOffset, h.ctidPagesOffset, h.ctidOffsetsOffset, h.numTerms, h.numDocs,
    h.totalTokens, h.pageIndex, h.tenantMapOffset, h.tenantStatsOffset, h.tenantDocfreqOffset,
    h.flags]

def ofFields (v : List Nat) : TpSegmentHeader where
  magic := v.getD 0 0
  version := v.getD 1 0
  createdAt := v.getD 2 0
  numPages := v.getD 3 0
  dataSize := v.getD 4 0
  level := v.getD 5 0
  nextSegment := v.getD 6 0
  dictionaryOffset := v.getD 7 0
  stringsOffset := v.getD 8 0
  entriesOffset := v.getD 9 0
  postingsOffset := v.getD 10 0
  skipIndexOffset := v.getD 11 0
  fieldnormOffset := v.getD 12 0
  ctidPagesOffset := v.getD 13 0
  ctidOffsetsOffset := v.getD 14 0
  numTerms := v.getD 15 0
  numDocs := v.getD 16 0
  totalTokens := v.getD 17 0
  pageIndex := v.getD 18 0
  tenantMapOffset := v.getD 19 0
  tenantStatsOffset := v.getD 20 0
  tenantDocfreqOffset := v.getD 21 0
  flags := v.getD 22 0

/-- The header in memory.  What the padding holds is not determined by the fields. -/
def bytes (h : TpSegmentHeader) (padding : Nat) : List (Fin 256) :=
  packStruct headerWidths h.fields ++ leBytes 4 padding

/-- The header the bytes begin with. -/
def ofBytes (bytes : List (Fin 256)) : TpSegmentHeader :=
  ofFields (unpackStruct headerWidths bytes)

theorem length_bytes (h : TpSegmentHeader) (padding : Nat) :
    (h.bytes padding).length = sizeOfHeader := by
  rw [bytes, List.length_append, length_leBytes]
  exact congrArg (· + 4) (length_packStruct (show headerWidths.length = h.fields.length from rfl))

/-- The header with every field cut to its width. -/
def cut (h : TpSegmentHeader) : TpSegmentHeader :=
  ofFields (List.zipWith (fun width value => value % 256 ^ width) headerWidths h.fields)

/-- **The header read back.** -/
theorem ofBytes_bytes (h : TpSegmentHeader) (padding : Nat) (rest : List (Fin 256)) :
    ofBytes (h.bytes padding ++ rest) = h.cut := by
  rw [bytes, List.append_assoc, ofBytes,
    unpackStruct_packStruct (show headerWidths.length = h.fields.length from rfl)]
  rfl

/-- `has_tenant_data`. -/
def hasTenantData (h : TpSegmentHeader) : Bool := h.flags &&& tpFlagHasTenantData != 0

end TpSegmentHeader

/-- `PostingEntry`. -/
structure PostingEntry where
  docId : Nat
  frequency : Nat
  fieldnorm : Fin 256
  tenantId : Nat
  deriving DecidableEq, Repr

/-- The `TpBlockPosting` of an entry. -/
def PostingEntry.block (p : PostingEntry) : BlockPosting := ⟨p.docId, p.frequency, p.fieldnorm⟩

/-- `SegmentBuilder`.  Skip entries and dictionary entries have the layout of the C structures. -/
structure SegmentBuilder where
  buffer : List (Fin 256)
  skipEntries : List SkipRecord
  dictEntries : List DictRecord
  numTerms : Nat
  numDocs : Nat
  totalTokens : Nat
  compress : Bool
  dictionaryOffset : Nat
  stringsOffset : Nat
  entriesOffset : Nat
  postingsOffset : Nat

/-- `Vec::resize`, with zeros. -/
def resize (l : List (Fin 256)) (size : Nat) : List (Fin 256) :=
  l.take size ++ List.replicate (size - l.length) 0

namespace SegmentBuilder

/-- `new`. -/
def new (compress : Bool) : SegmentBuilder := ⟨[], [], [], 0, 0, 0, compress, 0, 0, 0, 0⟩

/-- `buffer.len() as u32`. -/
def offset (b : SegmentBuilder) : Nat := b.buffer.length % 2 ^ 32

/-- `extend_from_slice`. -/
def extend (b : SegmentBuilder) (data : List (Fin 256)) : SegmentBuilder :=
  { b with buffer := b.buffer ++ data }

/-- `write_header_placeholder`. -/
def writeHeaderPlaceholder (b : SegmentBuilder) : SegmentBuilder :=
  { b with buffer := resize b.buffer sizeOfHeader }

/-- The loop of `write_dictionary`. -/
def stringOffsets : Nat → List (List (Fin 256)) → List (Fin 256)
  | _, [] => []
  | stringOffset, term :: rest =>
      leBytes 4 stringOffset ++ stringOffsets ((stringOffset + (4 + term.length + 4)) % 2 ^ 32) rest

/-- `write_dictionary`. -/
def writeDictionary (b : SegmentBuilder) (terms : List (List (Fin 256))) : SegmentBuilder :=
  let b := { b with
    dictionaryOffset := b.offset
    numTerms := terms.length % 2 ^ 32 }
  b.extend (leBytes 4 b.numTerms ++ stringOffsets 0 terms)

/-- The loop of `write_strings`. -/
def stringEntries : Nat → List (List (Fin 256)) → List (Fin 256)
  | _, [] => []
  | i, term :: rest =>
      leBytes 4 term.length ++ term ++ leBytes 4 (i * dictEntrySize) ++ stringEntries (i + 1) rest

/-- `write_strings`. -/
def writeStrings (b : SegmentBuilder) (terms : List (List (Fin 256))) : SegmentBuilder :=
  let b := { b with stringsOffset := b.offset }
  b.extend (stringEntries 0 terms)

/-- `reserve_entries`. -/
def reserveEntries (b : SegmentBuilder) (numTerms : Nat) : SegmentBuilder :=
  let b := { b with entriesOffset := b.offset }
  { b with buffer := resize b.buffer (b.buffer.length + numTerms * dictEntrySize) }

/-! ### Postings -/

/-- One round of the statistics of `flush_block`: the last document, the maximal frequency and
the maximal fieldnorm. -/
def blockStats (s : Nat × Nat × Fin 256) (p : BlockPosting) : Nat × Nat × Fin 256 :=
  (p.docId, if p.frequency > s.2.1 then p.frequency else s.2.1,
    if p.fieldnorm > s.2.2 then p.fieldnorm else s.2.2)

/-- The skip entry of `flush_block`. -/
def skipEntry (block : List BlockPosting) (postingOffset flags : Nat) : SkipRecord :=
  let stats := block.foldl blockStats (0, 0, 0)
  ⟨⟨stats.1, block.length % 256, stats.2.1, stats.2.2, .none, 0⟩, postingOffset, flags⟩

/-- `flush_block`: a block of one posting is never compressed. -/
def flushBlock (b : SegmentBuilder) (block : List BlockPosting) : Option SegmentBuilder :=
  let push := fun (flags : Nat) (b' : SegmentBuilder) =>
    { b' with skipEntries := b'.skipEntries ++ [skipEntry block b.offset flags] }
  if b.compress ∧ block.length > 1 then do
    let compressed ← compressBlockChecked block tpMaxCompressedBlockSize
    return push tpBlockFlagDelta (b.extend compressed)
  else some (push tpBlockFlagUncompressed (b.extend (postingsBytes block)))

/-- The loop of `write_term_postings`, and the partial block behind it; the result has the number
of blocks. -/
def writeBlocks : SegmentBuilder → List BlockPosting → Nat → List PostingEntry →
    Option (SegmentBuilder × Nat)
  | b, block, blockCount, [] =>
      if block.isEmpty then some (b, blockCount)
      else do
        let b ← b.flushBlock block
        return (b, (blockCount + 1) % 2 ^ 16)
  | b, block, blockCount, posting :: rest =>
      let block := block ++ [posting.block]
      if block.length = tpBlockSize then do
        let b ← b.flushBlock block
        writeBlocks b [] ((blockCount + 1) % 2 ^ 16) rest
      else writeBlocks b block blockCount rest

/-- `write_term_postings`; its result, a copy of the entry with an offset, is not used. -/
def writeTermPostings (b : SegmentBuilder) (postings : List PostingEntry) :
    Option SegmentBuilder := do
  let b := if b.postingsOffset = 0 then { b with postingsOffset := b.offset } else b
  let (b, blockCount) ← writeBlocks b [] 0 postings
  return { b with dictEntries := b.dictEntries ++ [⟨0, blockCount, postings.length % 2 ^ 32⟩] }

/-- The calls for the terms, in order. -/
def writeAllPostings : SegmentBuilder → List (List PostingEntry) → Option SegmentBuilder
  | b, [] => some b
  | b, postings :: rest => do
      let b ← b.writeTermPostings postings
      writeAllPostings b rest

/-- `write_skip_index`. -/
def writeSkipIndex (b : SegmentBuilder) : SegmentBuilder :=
  b.extend (b.skipEntries.map SkipRecord.bytes).flatten

/-! ### Tables -/

/-- `write_fieldnorms`. -/
def writeFieldnorms (b : SegmentBuilder) (fieldnorms : List (Fin 256)) : SegmentBuilder :=
  b.extend fieldnorms

/-- `write_ctid_pages`. -/
def writeCtidPages (b : SegmentBuilder) (pages : List Nat) : SegmentBuilder :=
  b.extend (pages.map (leBytes 4)).flatten

/-- `write_ctid_offsets`. -/
def writeCtidOffsets (b : SegmentBuilder) (offsets : List Nat) : SegmentBuilder :=
  b.extend (offsets.map (leBytes 2)).flatten

/-- `write_tenant_map`. -/
def writeTenantMap (b : SegmentBuilder) (tenantIds : List Nat) : SegmentBuilder :=
  b.extend (tenantIds.map (leBytes 4)).flatten

/-- `write_tenant_stats`: tenant, documents, tokens. -/
def writeTenantStats (b : SegmentBuilder) (stats : List (Nat × Nat × Nat)) : SegmentBuilder :=
  b.extend (leBytes 4 stats.length ++
    (stats.map fun s => packStruct [4, 4, 8] [s.1, s.2.1, s.2.2]).flatten)

/-- `write_tenant_docfreqs`: for each term a count of 16 bits and the pairs of tenant and
document frequency. -/
def writeTenantDocfreqs (b : SegmentBuilder) (perTermEntries : List (List (Nat × Nat))) :
    SegmentBuilder :=
  b.extend (perTermEntries.map fun entries => leBytes 2 entries.length ++
    (entries.map fun e => packStruct [4, 4] [e.1, e.2]).flatten).flatten

/-! ### Finishing -/

/-- `copy_from_slice` into a range of the buffer. -/
def copyAt (buffer : List (Fin 256)) (pos : Nat) (data : List (Fin 256)) :
    Option (List (Fin 256)) :=
  if pos + data.length ≤ buffer.length then some (overwrite buffer pos data) else none

/-- The loop of `finish`. -/
def fillEntries (entriesOff : Nat) : Nat → Nat → List DictRecord → List (Fin 256) →
    Option (List (Fin 256))
  | _, _, [], buffer => some buffer
  | i, skipOffset, entry :: rest, buffer => do
      let buffer ← copyAt buffer (entriesOff + i * dictEntrySize)
        { entry with skipIndexOffset := skipOffset }.bytes
      fillEntries entriesOff (i + 1) ((skipOffset + entry.blockCount * skipEntrySize) % 2 ^ 32)
        rest buffer

/-- The header of `finish`; the tenant fields stay zero. -/
def finishedHeader (b : SegmentBuilder) (dataSize level nextSegment skipIndexOffset fieldnormOffset
    ctidPagesOffset ctidOffsetsOffset : Nat) : TpSegmentHeader where
  magic := tpSegmentMagic
  version := tpSegmentFormatVersion
  createdAt := 0
  numPages := 0
  dataSize := dataSize
  level := level
  nextSegment := nextSegment
  dictionaryOffset := b.dictionaryOffset
  stringsOffset := b.stringsOffset
  entriesOffset := b.entriesOffset
  postingsOffset := b.postingsOffset
  skipIndexOffset := skipIndexOffset
  fieldnormOffset := fieldnormOffset
  ctidPagesOffset := ctidPagesOffset
  ctidOffsetsOffset := ctidOffsetsOffset
  numTerms := b.numTerms
  numDocs := b.numDocs
  totalTokens := b.totalTokens
  pageIndex := 0
  tenantMapOffset := 0
  tenantStatsOffset := 0
  tenantDocfreqOffset := 0
  flags := 0

/-- `finish`: the image.  The header is copied with its padding. -/
def finish (b : SegmentBuilder) (padding level nextSegment skipIndexOffset fieldnormOffset
    ctidPagesOffset ctidOffsetsOffset : Nat) : Option (List (Fin 256)) := do
  let buffer ← fillEntries b.entriesOffset 0 0 b.dictEntries b.buffer
  let header := b.finishedHeader (buffer.length % 2 ^ 32) level nextSegment skipIndexOffset
    fieldnormOffset ctidPagesOffset ctidOffsetsOffset
  copyAt buffer 0 (header.bytes padding)

end SegmentBuilder

/-! ## A whole build -/

/-- The tables behind the skip index; the tenant tables are optional. -/
structure Tables where
  fieldnorms : List (Fin 256)
  ctidPages : List Nat
  ctidOffsets : List Nat
  tenantMap : Option (List Nat)
  tenantStats : Option (List (Nat × Nat × Nat))
  tenantDocfreqs : Option (List (List (Nat × Nat)))

/-- Write the tables: the offsets of fieldnorms, CTID pages and CTID offsets. -/
def writeTables (b : SegmentBuilder) (t : Tables) : SegmentBuilder × Nat × Nat × Nat :=
  let b₁ := b.writeFieldnorms t.fieldnorms
  let b₂ := b₁.writeCtidPages t.ctidPages
  let b₃ := b₂.writeCtidOffsets t.ctidOffsets
  let b₄ := (t.tenantMap.map b₃.writeTenantMap).getD b₃
  let b₅ := (t.tenantStats.map b₄.writeTenantStats).getD b₄
  ((t.tenantDocfreqs.map b₅.writeTenantDocfreqs).getD b₅, b.offset, b₁.offset, b₂.offset)

/-- What the caller decides: compression, statistics, place in the index, the padding of the
header, and the tables. -/
structure BuildEnv where
  compress : Bool
  numDocs : Nat
  totalTokens : Nat
  level : Nat
  nextSegment : Nat
  padding : Nat
  tables : Tables

/-- A build: header, dictionary, strings, entries, the postings of every term in order, skip
index, tables, `finish`. -/
def buildSegment (env : BuildEnv) (terms : List (List (Fin 256)))
    (lists : List (List PostingEntry)) : Option (List (Fin 256)) := do
  let b := (SegmentBuilder.new env.compress).writeHeaderPlaceholder
  let b := ((b.writeDictionary terms).writeStrings terms).reserveEntries terms.length
  let b := { b with numDocs := env.numDocs, totalTokens := env.totalTokens }
  let b ← b.writeAllPostings lists
  let skipIndexOffset := b.offset
  let (b, fieldnormOffset, ctidPagesOffset, ctidOffsetsOffset) :=
    writeTables b.writeSkipIndex env.tables
  b.finish env.padding env.level env.nextSegment skipIndexOffset fieldnormOffset ctidPagesOffset
    ctidOffsetsOffset

/-! ## Strings -/

namespace SegmentBuilder

/-- The string offsets are those of the C dictionary, cut to 32 bits. -/
theorem stringOffsets_eq (terms : List (List (Fin 256))) (n : Nat) :
    stringOffsets (n % 2 ^ 32) terms =
      ((runningOffsets n (terms.map textSize)).map (leBytes 4)).flatten := by
  induction terms generalizing n with
  | nil => rfl
  | cons term rest ih =>
      rw [stringOffsets, Nat.mod_add_mod, ih, List.map_cons, runningOffsets, List.map_cons,
        List.flatten_cons]
      exact congrArg (· ++ _) (leBytes_mod 4 n)

/-- The dictionary written is that of the texts. -/
theorem buffer_writeDictionary (b : SegmentBuilder) (terms : List (List (Fin 256))) :
    (b.writeDictionary terms).buffer = b.buffer ++ textDictionary terms := by
  have hcount : leBytes 4 (terms.length % 2 ^ 32) = leBytes 4 terms.length :=
    leBytes_mod 4 terms.length
  have hoffsets := stringOffsets_eq terms 0
  rw [Nat.zero_mod] at hoffsets
  show b.buffer ++ (leBytes 4 (terms.length % 2 ^ 32) ++ stringOffsets 0 terms) = _
  rw [hcount, hoffsets]
  rfl

theorem stringEntries_eq (terms : List (List (Fin 256))) (i : Nat) :
    stringEntries i terms = ((terms.zipIdx i).map fun p => textRecord p.1 p.2).flatten := by
  induction terms generalizing i with
  | nil => rfl
  | cons term rest ih =>
      rw [stringEntries, ih, List.zipIdx_cons, List.map_cons, List.flatten_cons]
      rfl

/-- The strings written are those of the texts. -/
theorem buffer_writeStrings (b : SegmentBuilder) (terms : List (List (Fin 256))) :
    (b.writeStrings terms).buffer = b.buffer ++ textPool terms :=
  congrArg (b.buffer ++ ·) (stringEntries_eq terms 0)

theorem resize_of_le {l : List (Fin 256)} (n : Nat) :
    resize l (l.length + n) = l ++ List.replicate n 0 := by
  rw [resize, List.take_of_length_le (Nat.le_add_right _ _), Nat.add_sub_cancel_left]

end SegmentBuilder

/-! ## Blocks -/

/-- The data of a block. -/
def blockData (compress : Bool) (block : List BlockPosting) : List (Fin 256) :=
  if compress ∧ block.length > 1 then compressBlock block else postingsBytes block

/-- The flags of a block. -/
def blockFlag (compress : Bool) (block : List BlockPosting) : Nat :=
  if compress ∧ block.length > 1 then tpBlockFlagDelta else tpBlockFlagUncompressed

/-- The data of the blocks. -/
def blocksData (compress : Bool) (blocks : List (List BlockPosting)) : List (Fin 256) :=
  (blocks.map (blockData compress)).flatten

/-- The skip entries of blocks whose data begin at the offset. -/
def skipsAt (compress : Bool) : Nat → List (List BlockPosting) → List SkipRecord
  | _, [] => []
  | offset, block :: rest =>
      SegmentBuilder.skipEntry block (offset % 2 ^ 32) (blockFlag compress block) ::
        skipsAt compress (offset + (blockData compress block).length) rest

/-- Postings of one block: in document order, and within the widths of the fields. -/
structure ValidBlock (block : List BlockPosting) : Prop where
  ne_nil : block ≠ []
  length_le : block.length ≤ tpBlockSize
  docId_lt : ∀ p ∈ block, p.docId < 2 ^ 32
  frequency_lt : ∀ p ∈ block, p.frequency < 2 ^ 16
  sorted : block.Pairwise fun p q => p.docId ≤ q.docId

namespace SegmentBuilder

/-- The builder with the blocks written. -/
def withBlocks (b : SegmentBuilder) (blocks : List (List BlockPosting)) : SegmentBuilder :=
  { b with
    buffer := b.buffer ++ blocksData b.compress blocks
    skipEntries := b.skipEntries ++ skipsAt b.compress b.buffer.length blocks }

theorem withBlocks_nil (b : SegmentBuilder) : b.withBlocks [] = b := by
  unfold withBlocks blocksData skipsAt
  simp

theorem withBlocks_withBlocks (b : SegmentBuilder) (block : List BlockPosting)
    (blocks : List (List BlockPosting)) :
    (b.withBlocks [block]).withBlocks blocks = b.withBlocks (block :: blocks) := by
  simp [withBlocks, blocksData, skipsAt, List.length_append]

/-- **Flushing a block** appends its data and its skip entry. -/
theorem flushBlock_eq (b : SegmentBuilder) {block : List BlockPosting} (h : ValidBlock block) :
    b.flushBlock block = some (b.withBlocks [block]) := by
  unfold flushBlock withBlocks blocksData skipsAt blockFlag blockData
  by_cases hdelta : b.compress ∧ block.length > 1
  · have hcompressed := compressBlockChecked_eq h.length_le h.docId_lt h.frequency_lt h.sorted
      (length_compressBlock_le h.length_le h.frequency_lt)
    simp only [if_pos hdelta, hcompressed]
    simp [extend, offset, skipsAt, hdelta.1, hdelta.2]
  · simp only [if_neg hdelta]
    simp [extend, offset, skipsAt, hdelta]

end SegmentBuilder

/-- The blocks that the loop cuts the postings into, behind the block it has begun. -/
def cutBlocks : List BlockPosting → List BlockPosting → List (List BlockPosting)
  | block, [] => if block.isEmpty then [] else [block]
  | block, p :: rest =>
      if (block ++ [p]).length = tpBlockSize then (block ++ [p]) :: cutBlocks [] rest
      else cutBlocks (block ++ [p]) rest

/-- Put together, the blocks are the postings. -/
theorem cutBlocks_flatten (block rest : List BlockPosting) :
    (cutBlocks block rest).flatten = block ++ rest := by
  induction rest generalizing block with
  | nil =>
      unfold cutBlocks
      by_cases hempty : block.isEmpty
      · rw [if_pos hempty, List.isEmpty_iff.1 hempty]
        rfl
      · rw [if_neg hempty, List.flatten_cons, List.flatten_nil]
  | cons p rest ih =>
      unfold cutBlocks
      split_ifs
      · rw [List.flatten_cons, ih, List.nil_append, List.append_assoc]
        rfl
      · rw [ih, List.append_assoc]
        rfl

/-- Blocks are neither empty nor too long, and all but the last are full. -/
theorem cutBlocks_spec (rest : List BlockPosting) {block : List BlockPosting}
    (hblock : block.length < tpBlockSize) :
    (∀ blk ∈ cutBlocks block rest, blk ≠ [] ∧ blk.length ≤ tpBlockSize) ∧
      (cutBlocks block rest).length * tpBlockSize < (block ++ rest).length + tpBlockSize := by
  induction rest generalizing block with
  | nil =>
      unfold cutBlocks
      by_cases hempty : block.isEmpty
      · rw [if_pos hempty]
        refine ⟨fun _ h => absurd h List.not_mem_nil, ?_⟩
        simp only [List.length_nil, List.length_append, Nat.zero_mul]
        unfold tpBlockSize
        omega
      · rw [if_neg hempty]
        have hpos : 0 < block.length := by
          rw [List.isEmpty_iff] at hempty
          exact List.length_pos_of_ne_nil hempty
        refine ⟨?_, ?_⟩
        · intro blk hblk
          rw [List.mem_singleton.1 hblk]
          exact ⟨List.ne_nil_of_length_pos hpos, hblock.le⟩
        · simp only [List.length_cons, List.length_nil, List.append_nil]
          omega
  | cons p rest ih =>
      unfold cutBlocks
      split_ifs with hfull
      · have hempty : ([] : List BlockPosting).length < tpBlockSize := by decide
        obtain ⟨hblocks, hcount⟩ := ih hempty
        refine ⟨?_, ?_⟩
        · intro blk hblk
          cases List.mem_cons.1 hblk with
          | inl heq =>
              rw [heq]
              exact ⟨by simp, hfull.le⟩
          | inr hrest => exact hblocks blk hrest
        · simp only [List.length_append, List.length_cons, List.length_nil] at hfull hcount ⊢
          unfold tpBlockSize at *
          omega
      · have hshort : (block ++ [p]).length < tpBlockSize := by
          simp only [List.length_append, List.length_cons, List.length_nil] at hfull ⊢
          omega
        obtain ⟨hblocks, hcount⟩ := ih hshort
        refine ⟨hblocks, ?_⟩
        simp only [List.length_append, List.length_cons, List.length_nil] at hcount ⊢
        omega

/-- The postings of a list: in document order, and within the widths of the fields. -/
structure ValidList (postings : List PostingEntry) : Prop where
  docId_lt : ∀ p ∈ postings, p.docId < 2 ^ 32
  frequency_lt : ∀ p ∈ postings, p.frequency < 2 ^ 16
  sorted : postings.Pairwise fun p q => p.docId < q.docId
  blocks : postings.length ≤ 65535 * tpBlockSize

/-- The blocks of a list. -/
def blocksOf (postings : List PostingEntry) : List (List BlockPosting) :=
  cutBlocks [] (postings.map PostingEntry.block)

theorem blocksOf_flatten (postings : List PostingEntry) :
    (blocksOf postings).flatten = postings.map PostingEntry.block :=
  cutBlocks_flatten [] _

/-- The blocks of a valid list. -/
theorem ValidList.blocksOf {postings : List PostingEntry} (h : ValidList postings) :
    (∀ block ∈ RustSegment.blocksOf postings, ValidBlock block) ∧
      (RustSegment.blocksOf postings).length < 2 ^ 16 := by
  obtain ⟨hblocks, hcount⟩ := cutBlocks_spec (postings.map PostingEntry.block)
    (show ([] : List BlockPosting).length < tpBlockSize by decide)
  have hsub : ∀ block ∈ RustSegment.blocksOf postings,
      block.Sublist (postings.map PostingEntry.block) := by
    intro block hblock
    rw [← blocksOf_flatten]
    exact List.sublist_flatten_of_mem hblock
  have hsorted : (postings.map PostingEntry.block).Pairwise fun p q => p.docId ≤ q.docId :=
    List.pairwise_map.2 (h.sorted.imp fun hlt => Nat.le_of_lt hlt)
  refine ⟨?_, ?_⟩
  · intro block hblock
    have hmem : ∀ p ∈ block, p ∈ postings.map PostingEntry.block :=
      fun p hp => (hsub block hblock).subset hp
    refine ⟨(hblocks block hblock).1, (hblocks block hblock).2, ?_, ?_,
      hsorted.sublist (hsub block hblock)⟩
    · intro p hp
      obtain ⟨q, hq, rfl⟩ := List.mem_map.1 (hmem p hp)
      exact h.docId_lt q hq
    · intro p hp
      obtain ⟨q, hq, rfl⟩ := List.mem_map.1 (hmem p hp)
      exact h.frequency_lt q hq
  · have hle := h.blocks
    rw [List.nil_append, List.length_map] at hcount
    show (cutBlocks [] (postings.map PostingEntry.block)).length < 2 ^ 16
    unfold tpBlockSize at hcount hle
    omega

namespace SegmentBuilder

/-- **The block loop** writes the blocks it cuts. -/
theorem writeBlocks_eq (rest : List PostingEntry) {b : SegmentBuilder} {block : List BlockPosting}
    {blockCount : Nat} (hcount : blockCount < 2 ^ 16)
    (hvalid : ∀ blk ∈ cutBlocks block (rest.map PostingEntry.block), ValidBlock blk) :
    writeBlocks b block blockCount rest =
      some (b.withBlocks (cutBlocks block (rest.map PostingEntry.block)),
        (blockCount + (cutBlocks block (rest.map PostingEntry.block)).length) % 2 ^ 16) := by
  induction rest generalizing b block blockCount with
  | nil =>
      unfold writeBlocks
      simp only [List.map_nil, cutBlocks] at hvalid ⊢
      by_cases hempty : block.isEmpty
      · simp only [if_pos hempty, withBlocks_nil, List.length_nil, Nat.add_zero,
          Nat.mod_eq_of_lt hcount]
      · simp only [if_neg hempty] at hvalid ⊢
        rw [flushBlock_eq b (hvalid block (List.mem_singleton.2 rfl))]
        rfl
  | cons posting rest ih =>
      unfold writeBlocks
      simp only [List.map_cons, cutBlocks] at hvalid ⊢
      split_ifs at hvalid ⊢ with hfull
      · rw [flushBlock_eq b (hvalid _ List.mem_cons_self)]
        show writeBlocks (b.withBlocks [block ++ [posting.block]]) []
          ((blockCount + 1) % 2 ^ 16) rest = _
        rw [ih (Nat.mod_lt _ (by decide)) fun blk hblk => hvalid blk (List.mem_cons_of_mem _ hblk),
          withBlocks_withBlocks, List.length_cons, Nat.mod_add_mod]
        congr 2
        omega
      · exact ih hcount hvalid

/-- The builder after a list, up to the offset of the postings section. -/
theorem writeTermPostings_eq (b : SegmentBuilder) {postings : List PostingEntry}
    (h : ValidList postings) :
    ∃ postingsOffset, b.writeTermPostings postings =
      some { b.withBlocks (blocksOf postings) with
        postingsOffset := postingsOffset
        dictEntries := b.dictEntries ++
          [⟨0, (blocksOf postings).length, postings.length % 2 ^ 32⟩] } := by
  obtain ⟨hvalid, hcount⟩ := h.blocksOf
  unfold writeTermPostings
  have hmod : (0 + (cutBlocks [] (postings.map PostingEntry.block)).length) % 2 ^ 16 =
      (blocksOf postings).length := by
    rw [Nat.zero_add]
    exact Nat.mod_eq_of_lt hcount
  split_ifs
  · refine ⟨b.offset, ?_⟩
    dsimp only
    rw [writeBlocks_eq postings (by decide) hvalid, hmod]
    rfl
  · refine ⟨b.postingsOffset, ?_⟩
    dsimp only
    rw [writeBlocks_eq postings (by decide) hvalid, hmod]
    rfl

end SegmentBuilder

/-- The dictionary entry of a list, before its offset is known. -/
def listEntry (postings : List PostingEntry) : DictRecord :=
  ⟨0, (blocksOf postings).length, postings.length % 2 ^ 32⟩

namespace SegmentBuilder

theorem withBlocks_append (b : SegmentBuilder) (xs ys : List (List BlockPosting)) :
    (b.withBlocks xs).withBlocks ys = b.withBlocks (xs ++ ys) := by
  induction xs generalizing b with
  | nil => rw [withBlocks_nil, List.nil_append]
  | cons block xs ih =>
      rw [← withBlocks_withBlocks, ih, withBlocks_withBlocks, List.cons_append]

/-- **The posting lists** are written block after block. -/
theorem writeAllPostings_spec (lists : List (List PostingEntry)) (b : SegmentBuilder)
    (h : ∀ postings ∈ lists, ValidList postings) :
    ∃ postingsOffset, b.writeAllPostings lists =
      some { b.withBlocks (lists.flatMap blocksOf) with
        postingsOffset := postingsOffset
        dictEntries := b.dictEntries ++ lists.map listEntry } := by
  induction lists generalizing b with
  | nil =>
      refine ⟨b.postingsOffset, ?_⟩
      rw [List.flatMap_nil, withBlocks_nil, List.map_nil, List.append_nil]
      rfl
  | cons postings lists ih =>
      obtain ⟨first, hfirst⟩ := b.writeTermPostings_eq (h postings List.mem_cons_self)
      obtain ⟨last, hlast⟩ := ih { b.withBlocks (blocksOf postings) with
        postingsOffset := first
        dictEntries := b.dictEntries ++ [listEntry postings] }
        fun l hl => h l (List.mem_cons_of_mem _ hl)
      refine ⟨last, ?_⟩
      rw [writeAllPostings, hfirst]
      refine hlast.trans ?_
      rw [List.flatMap_cons, ← withBlocks_append, List.map_cons]
      simp [withBlocks]

/-! ## Finishing -/

/-- The entries with their offsets in the skip index. -/
def placedEntries : Nat → List DictRecord → List DictRecord
  | _, [] => []
  | skipOffset, entry :: rest =>
      { entry with skipIndexOffset := skipOffset } ::
        placedEntries ((skipOffset + entry.blockCount * skipEntrySize) % 2 ^ 32) rest

theorem copyAt_middle (front old behind : List (Fin 256)) {data : List (Fin 256)} {pos : Nat}
    (hpos : front.length = pos) (hlen : data.length = old.length) :
    copyAt (front ++ old ++ behind) pos data = some (front ++ data ++ behind) := by
  rw [copyAt, ← hpos, if_pos (by simp only [List.length_append]; omega),
    overwrite_middle front old behind hlen]

/-- **Filling in the entries** where they were reserved. -/
theorem fillEntries_spec (entries : List DictRecord) (entriesOff i skipOffset : Nat)
    {front old : List (Fin 256)} (behind : List (Fin 256))
    (hfront : front.length = entriesOff + i * dictEntrySize)
    (hold : old.length = entries.length * dictEntrySize) :
    fillEntries entriesOff i skipOffset entries (front ++ old ++ behind) =
      some (front ++ entriesImage (placedEntries skipOffset entries) ++ behind) := by
  induction entries generalizing i skipOffset front old with
  | nil =>
      have hnil : old = [] := List.eq_nil_of_length_eq_zero (by simpa using hold)
      rw [hnil]
      rfl
  | cons entry entries ih =>
      have hsize := DictRecord.length_bytes { entry with skipIndexOffset := skipOffset }
      rw [List.length_cons, Nat.succ_mul] at hold
      have hsplit : front ++ old ++ behind =
          front ++ old.take dictEntrySize ++ (old.drop dictEntrySize ++ behind) := by
        rw [List.append_assoc, List.append_assoc, ← List.append_assoc (old.take _),
          List.take_append_drop]
      have hcopy := copyAt_middle front (old.take dictEntrySize)
        (old.drop dictEntrySize ++ behind) hfront
        (hsize.trans (show dictEntrySize = (old.take dictEntrySize).length by
          rw [List.length_take]
          omega))
      rw [fillEntries, hsplit, hcopy]
      have hrest := ih (i + 1) ((skipOffset + entry.blockCount * skipEntrySize) % 2 ^ 32)
        (show (front ++ DictRecord.bytes { entry with skipIndexOffset := skipOffset }).length =
            entriesOff + (i + 1) * dictEntrySize by
          rw [List.length_append, hfront, hsize, Nat.succ_mul]
          omega)
        (show (old.drop dictEntrySize).length = entries.length * dictEntrySize by
          rw [List.length_drop]
          omega)
      rw [List.append_assoc _ (old.drop dictEntrySize) behind] at hrest
      refine Eq.trans ?_ (hrest.trans ?_)
      · rfl
      · rw [placedEntries, entriesImage, entriesImage, List.map_cons, List.flatten_cons]
        simp only [List.append_assoc]

/-- Filling in the entries keeps the length, wherever they go. -/
theorem fillEntries_length (entries : List DictRecord) {entriesOff i : Nat} (skipOffset : Nat)
    {buffer : List (Fin 256)}
    (h : entriesOff + (i + entries.length) * dictEntrySize ≤ buffer.length) :
    ∃ filled, fillEntries entriesOff i skipOffset entries buffer = some filled ∧
      filled.length = buffer.length := by
  induction entries generalizing i skipOffset buffer with
  | nil => exact ⟨buffer, rfl, rfl⟩
  | cons entry entries ih =>
      have hsize := DictRecord.length_bytes { entry with skipIndexOffset := skipOffset }
      rw [List.length_cons, Nat.add_mul] at h
      rw [Nat.succ_mul] at h
      have hfit : entriesOff + i * dictEntrySize +
          (DictRecord.bytes { entry with skipIndexOffset := skipOffset }).length ≤
            buffer.length := by
        omega
      have hlen := length_overwrite hfit
      have hnext : entriesOff + (i + 1 + entries.length) * dictEntrySize ≤
          (overwrite buffer (entriesOff + i * dictEntrySize)
            (DictRecord.bytes { entry with skipIndexOffset := skipOffset })).length := by
        rw [hlen, Nat.add_mul, Nat.succ_mul]
        omega
      obtain ⟨filled, hfilled, hfilledLen⟩ :=
        ih ((skipOffset + entry.blockCount * skipEntrySize) % 2 ^ 32) hnext
      refine ⟨filled, ?_, hfilledLen.trans hlen⟩
      rw [fillEntries, copyAt, if_pos hfit]
      exact hfilled

end SegmentBuilder

/-- The tables are bytes behind what is there. -/
theorem writeTables_fst (b : SegmentBuilder) (t : Tables) :
    ∃ tables, (writeTables b t).1 = b.extend tables := by
  have hextend : ∀ x y : List (Fin 256), (b.extend x).extend y = b.extend (x ++ y) := by
    intro x y
    unfold SegmentBuilder.extend
    rw [List.append_assoc]
  have hoption : ∀ {α : Type} (o : Option α) (f : α → List (Fin 256)) (x : List (Fin 256)),
      (o.map fun a => b.extend (x ++ f a)).getD (b.extend x) =
        b.extend (x ++ (o.map f).getD []) := by
    intro α o f x
    cases o with
    | some a => rfl
    | none =>
        show b.extend x = b.extend (x ++ [])
        rw [List.append_nil]
  unfold writeTables SegmentBuilder.writeFieldnorms SegmentBuilder.writeCtidPages
    SegmentBuilder.writeCtidOffsets SegmentBuilder.writeTenantMap SegmentBuilder.writeTenantStats
    SegmentBuilder.writeTenantDocfreqs
  simp only [hextend, hoption]
  exact ⟨_, rfl⟩

/-! ## The image -/

/-- Where the sections are. -/
def stringsAt (terms : List (List (Fin 256))) : Nat :=
  sizeOfHeader + (textDictionary terms).length

def entriesAt (terms : List (List (Fin 256))) : Nat := stringsAt terms + (textPool terms).length

def postingsAt (terms : List (List (Fin 256))) : Nat :=
  entriesAt terms + terms.length * dictEntrySize

def skipIndexAt (compress : Bool) (terms : List (List (Fin 256)))
    (lists : List (List PostingEntry)) : Nat :=
  postingsAt terms + (blocksData compress (lists.flatMap blocksOf)).length

/-- The skip index. -/
def skipIndexImage (compress : Bool) (terms : List (List (Fin 256)))
    (lists : List (List PostingEntry)) : List (Fin 256) :=
  ((skipsAt compress (postingsAt terms) (lists.flatMap blocksOf)).map SkipRecord.bytes).flatten

/-- The sections behind the entries. -/
def behindEntries (compress : Bool) (terms : List (List (Fin 256)))
    (lists : List (List PostingEntry)) (tables : List (Fin 256)) : List (Fin 256) :=
  blocksData compress (lists.flatMap blocksOf) ++ skipIndexImage compress terms lists ++ tables

/-- The builder before the postings. -/
def startedBuilder (env : BuildEnv) (terms : List (List (Fin 256))) : SegmentBuilder where
  buffer := List.replicate sizeOfHeader 0 ++ textDictionary terms ++ textPool terms ++
    List.replicate (terms.length * dictEntrySize) 0
  skipEntries := []
  dictEntries := []
  numTerms := terms.length % 2 ^ 32
  numDocs := env.numDocs
  totalTokens := env.totalTokens
  compress := env.compress
  dictionaryOffset := sizeOfHeader
  stringsOffset := stringsAt terms % 2 ^ 32
  entriesOffset := entriesAt terms % 2 ^ 32
  postingsOffset := 0

/-- The builder before `finish`. -/
def filledBuilder (env : BuildEnv) (terms : List (List (Fin 256)))
    (lists : List (List PostingEntry)) (postingsOffset : Nat) (tables : List (Fin 256)) :
    SegmentBuilder :=
  { startedBuilder env terms with
    buffer := (startedBuilder env terms).buffer ++ behindEntries env.compress terms lists tables
    skipEntries := skipsAt env.compress (postingsAt terms) (lists.flatMap blocksOf)
    dictEntries := lists.map listEntry
    postingsOffset := postingsOffset }

theorem length_startedBuilder (env : BuildEnv) (terms : List (List (Fin 256))) :
    (startedBuilder env terms).buffer.length = postingsAt terms := by
  simp only [startedBuilder, List.length_append, List.length_replicate]
  rfl

/-- Header, dictionary, strings and reserved entries. -/
theorem startedBuilder_eq (env : BuildEnv) (terms : List (List (Fin 256))) :
    { (((SegmentBuilder.new env.compress).writeHeaderPlaceholder.writeDictionary
      terms).writeStrings terms).reserveEntries terms.length with
        numDocs := env.numDocs, totalTokens := env.totalTokens } = startedBuilder env terms := by
  obtain ⟨b₀, hb₀⟩ : ∃ b₀, b₀ = (SegmentBuilder.new env.compress).writeHeaderPlaceholder := ⟨_, rfl⟩
  obtain ⟨b₁, hb₁⟩ : ∃ b₁, b₁ = b₀.writeDictionary terms := ⟨_, rfl⟩
  obtain ⟨b₂, hb₂⟩ : ∃ b₂, b₂ = b₁.writeStrings terms := ⟨_, rfl⟩
  have hbuffer₁ : b₁.buffer = List.replicate sizeOfHeader 0 ++ textDictionary terms := by
    rw [hb₁, SegmentBuilder.buffer_writeDictionary, hb₀]
    rfl
  have hbuffer₂ : b₂.buffer =
      List.replicate sizeOfHeader 0 ++ textDictionary terms ++ textPool terms := by
    rw [hb₂, SegmentBuilder.buffer_writeStrings, hbuffer₁]
  have hstrings : b₁.offset = stringsAt terms % 2 ^ 32 := by
    rw [SegmentBuilder.offset, hbuffer₁, List.length_append, List.length_replicate]
    rfl
  have hentries : b₂.offset = entriesAt terms % 2 ^ 32 := by
    rw [SegmentBuilder.offset, hbuffer₂, List.length_append, List.length_append,
      List.length_replicate]
    rfl
  have hbuffer : (b₂.reserveEntries terms.length).buffer = (startedBuilder env terms).buffer := by
    refine (SegmentBuilder.resize_of_le _).trans ?_
    rw [hbuffer₂]
    rfl
  rw [← hb₀, ← hb₁, ← hb₂, SegmentBuilder.mk.injEq]
  refine ⟨hbuffer, ?_, ?_, ?_, rfl, rfl, ?_, ?_, ?strings, hentries, ?_⟩
  case strings =>
    rw [hb₂]
    exact hstrings
  all_goals
    rw [hb₂, hb₁, hb₀]
    rfl

/-- Up to `finish`, the build fills the builder with the sections. -/
theorem buildSegment_eq (env : BuildEnv) (terms : List (List (Fin 256)))
    {lists : List (List PostingEntry)} (h : ∀ postings ∈ lists, ValidList postings) :
    ∃ postingsOffset tables fieldnormOffset ctidPagesOffset ctidOffsetsOffset,
      buildSegment env terms lists =
        (filledBuilder env terms lists postingsOffset tables).finish env.padding env.level
          env.nextSegment (skipIndexAt env.compress terms lists % 2 ^ 32) fieldnormOffset
          ctidPagesOffset ctidOffsetsOffset := by
  obtain ⟨postingsOffset, hpostings⟩ :=
    SegmentBuilder.writeAllPostings_spec lists (startedBuilder env terms) h
  obtain ⟨b₁, hb₁⟩ : ∃ b₁ : SegmentBuilder, b₁ = { startedBuilder env terms with
      buffer := (startedBuilder env terms).buffer ++
        blocksData env.compress (lists.flatMap blocksOf)
      skipEntries := skipsAt env.compress (postingsAt terms) (lists.flatMap blocksOf)
      postingsOffset := postingsOffset
      dictEntries := lists.map listEntry } := ⟨_, rfl⟩
  have hlists : (startedBuilder env terms).writeAllPostings lists = some b₁ := by
    rw [hpostings, hb₁, SegmentBuilder.withBlocks, length_startedBuilder]
    rfl
  have hoffset : b₁.offset = skipIndexAt env.compress terms lists % 2 ^ 32 := by
    rw [SegmentBuilder.offset, hb₁, List.length_append, length_startedBuilder]
    rfl
  obtain ⟨tables, htables⟩ := writeTables_fst b₁.writeSkipIndex env.tables
  have hfilled : b₁.writeSkipIndex.extend tables =
      filledBuilder env terms lists postingsOffset tables := by
    rw [filledBuilder, behindEntries, ← List.append_assoc, ← List.append_assoc, hb₁]
    rfl
  refine ⟨postingsOffset, tables, (writeTables b₁.writeSkipIndex env.tables).2.1,
    (writeTables b₁.writeSkipIndex env.tables).2.2.1,
    (writeTables b₁.writeSkipIndex env.tables).2.2.2, ?_⟩
  rw [← hfilled, ← htables, ← hoffset, buildSegment]
  show (do
    let b ← SegmentBuilder.writeAllPostings { (((SegmentBuilder.new
      env.compress).writeHeaderPlaceholder.writeDictionary terms).writeStrings terms).reserveEntries
        terms.length with numDocs := env.numDocs, totalTokens := env.totalTokens } lists
    _) = _
  rw [startedBuilder_eq, hlists]
  rfl

/-- `finish` keeps the length. -/
theorem finish_length {b : SegmentBuilder} (hheader : sizeOfHeader ≤ b.buffer.length)
    (hentries : b.entriesOffset + b.dictEntries.length * dictEntrySize ≤ b.buffer.length)
    (padding level nextSegment skipIndexOffset fieldnormOffset ctidPagesOffset
      ctidOffsetsOffset : Nat) :
    ∃ data, b.finish padding level nextSegment skipIndexOffset fieldnormOffset ctidPagesOffset
      ctidOffsetsOffset = some data ∧ data.length = b.buffer.length := by
  have hfit : b.entriesOffset + (0 + b.dictEntries.length) * dictEntrySize ≤ b.buffer.length := by
    rwa [Nat.zero_add]
  obtain ⟨filled, hfilled, hlen⟩ := SegmentBuilder.fillEntries_length b.dictEntries 0 hfit
  have hcopy : 0 + ((b.finishedHeader (filled.length % 2 ^ 32) level nextSegment skipIndexOffset
      fieldnormOffset ctidPagesOffset ctidOffsetsOffset).bytes padding).length ≤ filled.length := by
    rw [TpSegmentHeader.length_bytes, hlen]
    omega
  refine ⟨_, ?_, (length_overwrite hcopy).trans hlen⟩
  rw [SegmentBuilder.finish, hfilled]
  exact if_pos hcopy

/-- What the header says of the sections. -/
structure PlacedHeader (compress : Bool) (terms : List (List (Fin 256)))
    (lists : List (List PostingEntry)) (h : TpSegmentHeader) : Prop where
  magic_eq : h.magic = tpSegmentMagic
  version_eq : h.version = tpSegmentFormatVersion
  dictionaryOffset_eq : h.dictionaryOffset = sizeOfHeader
  stringsOffset_eq : h.stringsOffset = stringsAt terms % 2 ^ 32
  entriesOffset_eq : h.entriesOffset = entriesAt terms % 2 ^ 32
  skipIndexOffset_eq : h.skipIndexOffset = skipIndexAt compress terms lists % 2 ^ 32
  numTerms_eq : h.numTerms = terms.length % 2 ^ 32
  tenantMapOffset_eq : h.tenantMapOffset = 0
  tenantStatsOffset_eq : h.tenantStatsOffset = 0
  tenantDocfreqOffset_eq : h.tenantDocfreqOffset = 0
  flags_eq : h.flags = 0

/-- The image: the sections, one behind the other. -/
def image (env : BuildEnv) (terms : List (List (Fin 256))) (lists : List (List PostingEntry))
    (header : TpSegmentHeader) (tables : List (Fin 256)) : List (Fin 256) :=
  header.bytes env.padding ++ textDictionary terms ++ textPool terms ++
    entriesImage (SegmentBuilder.placedEntries 0 (lists.map listEntry)) ++
      behindEntries env.compress terms lists tables

/-- **A build does not panic**, and within 32 bits its result is the image. -/
theorem buildSegment_spec (env : BuildEnv) {terms : List (List (Fin 256))}
    {lists : List (List PostingEntry)} (h : ∀ postings ∈ lists, ValidList postings)
    (hlen : lists.length = terms.length) :
    ∃ data, buildSegment env terms lists = some data ∧ (data.length < 2 ^ 32 →
      ∃ header tables, PlacedHeader env.compress terms lists header ∧
        data = image env terms lists header tables) := by
  obtain ⟨postingsOffset, tables, fieldnormOffset, ctidPagesOffset, ctidOffsetsOffset, heq⟩ :=
    buildSegment_eq env terms h
  have hsize : (filledBuilder env terms lists postingsOffset tables).buffer.length =
      postingsAt terms + (behindEntries env.compress terms lists tables).length := by
    rw [filledBuilder, List.length_append, length_startedBuilder]
  have hpostings : postingsAt terms = entriesAt terms + terms.length * dictEntrySize := rfl
  have hheader : sizeOfHeader ≤ entriesAt terms := by
    unfold entriesAt stringsAt
    omega
  have hcount : (filledBuilder env terms lists postingsOffset tables).dictEntries.length =
      terms.length := by
    rw [filledBuilder, List.length_map, hlen]
  obtain ⟨data, hdata, hdataLen⟩ := finish_length (by rw [hsize]; omega) (by
      rw [hsize, hcount]
      show entriesAt terms % 2 ^ 32 + _ ≤ _
      have := Nat.mod_le (entriesAt terms) (2 ^ 32)
      omega) env.padding env.level env.nextSegment
    (skipIndexAt env.compress terms lists % 2 ^ 32) fieldnormOffset ctidPagesOffset
    ctidOffsetsOffset
  refine ⟨data, heq.trans hdata, ?_⟩
  intro hsmall
  have hoffset : (filledBuilder env terms lists postingsOffset tables).entriesOffset =
      entriesAt terms := Nat.mod_eq_of_lt (by omega)
  have hfill := SegmentBuilder.fillEntries_spec (lists.map listEntry) (entriesAt terms) 0 0
    (behindEntries env.compress terms lists tables)
    (show (List.replicate sizeOfHeader (0 : Fin 256) ++ textDictionary terms ++
        textPool terms).length = entriesAt terms + 0 * dictEntrySize by
      simp only [List.length_append, List.length_replicate, Nat.zero_mul]
      rfl)
    (show (List.replicate (terms.length * dictEntrySize) (0 : Fin 256)).length =
        (lists.map listEntry).length * dictEntrySize by
      rw [List.length_replicate, List.length_map, hlen])
  obtain ⟨behind, hbehind⟩ : ∃ behind, behind = textDictionary terms ++ (textPool terms ++
      (entriesImage (SegmentBuilder.placedEntries 0 (lists.map listEntry)) ++
        behindEntries env.compress terms lists tables)) := ⟨_, rfl⟩
  obtain ⟨header, hplaced⟩ : ∃ header, header =
      (filledBuilder env terms lists postingsOffset tables).finishedHeader
        (([] ++ List.replicate sizeOfHeader 0 ++ behind).length % 2 ^ 32) env.level
        env.nextSegment (skipIndexAt env.compress terms lists % 2 ^ 32) fieldnormOffset
        ctidPagesOffset ctidOffsetsOffset := ⟨_, rfl⟩
  have hcopy := SegmentBuilder.copyAt_middle [] (List.replicate sizeOfHeader 0) behind rfl
    ((header.length_bytes env.padding).trans List.length_replicate.symm)
  have hfilled : SegmentBuilder.fillEntries
      (filledBuilder env terms lists postingsOffset tables).entriesOffset 0 0
      (filledBuilder env terms lists postingsOffset tables).dictEntries
      (filledBuilder env terms lists postingsOffset tables).buffer =
        some ([] ++ List.replicate sizeOfHeader 0 ++ behind) := by
    rw [hoffset, hbehind]
    refine hfill.trans ?_
    simp only [List.append_assoc, List.nil_append]
  rw [SegmentBuilder.finish, hfilled] at hdata
  have himage : some data = some ([] ++ header.bytes env.padding ++ behind) := by
    rw [← hdata, ← hcopy, hplaced]
    rfl
  refine ⟨header, tables, ?_, (Option.some.inj himage).trans ?_⟩
  · rw [hplaced]
    constructor <;> rfl
  · rw [image, hbehind]
    simp only [List.append_assoc, List.nil_append]

end PgTextsearch.RustSegment
