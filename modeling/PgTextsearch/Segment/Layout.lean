import PgTextsearch.Segment.Format
import PgTextsearch.Verified.LittleEndian

/-!
# On-disk structs (`segment/segment.h`, `segment/pagemapper.h`)

The structs of a segment file in bytes, with the widths and the padding of their C
declarations.  A field read back is cut to its width; the records whose fields fit are
read back as they are.

## Main results

* `Header.ofBytes_bytes` — the header read back, field by field.
* `DictRecord.ofBytes_bytes`, `SkipRecord.ofBytes_bytes`, `postingsOfBytes_bytes` — the
  records of the dictionary, the skip index and the plain posting blocks.
-/

namespace PgTextsearch.Segment.File

open PgTextsearch.Verified

/-- `SEGMENT_DATA_PER_PAGE`: `BLCKSZ` less the page header. -/
def segmentDataPerPage : Nat := 8192 - 24

/-- `TP_SEGMENT_MAGIC`. -/
def tpSegmentMagic : Nat := 0x54505347

/-- `TP_SEGMENT_FORMAT_VERSION`. -/
def tpSegmentFormatVersion : Nat := 4

/-- `TP_BLOCK_FLAG_UNCOMPRESSED`. -/
def tpBlockFlagUncompressed : Nat := 0

/-- `TP_BLOCK_FLAG_DELTA`. -/
def tpBlockFlagDelta : Nat := 1

/-- `TP_FLAG_HAS_TENANT_DATA`. -/
def tpFlagHasTenantData : Nat := 1

/-- `TP_FLAG_TENANT_ORDERED`. -/
def tpFlagTenantOrdered : Nat := 2

/-- `TP_TENANT_MODE_*`. -/
def tenantModeByte : TenantMode → Nat
  | .none => 0
  | .single => 1
  | .mixed => 2

/-- The tenant mode a byte stands for. -/
def tenantModeOfByte : Nat → TenantMode
  | 1 => .single
  | 2 => .mixed
  | _ => .none

theorem tenantModeOfByte_byte (mode : TenantMode) :
    tenantModeOfByte (tenantModeByte mode % 256) = mode := by
  cases mode <;> rfl

/-! ## The header -/

/-- `TpSegmentHeader`. -/
structure Header where
  magic : Nat
  version : Nat
  createdAt : Nat
  numPages : Nat
  dataSize : Nat
  level : Nat
  nextSegment : Nat
  dictionaryOffset : Nat
  stringsOffset : Nat
  entriesOffset : Nat
  postingsOffset : Nat
  skipIndexOffset : Nat
  fieldnormOffset : Nat
  ctidPagesOffset : Nat
  ctidOffsetsOffset : Nat
  numTerms : Nat
  numDocs : Nat
  totalTokens : Nat
  pageIndex : Nat
  tenantMapOffset : Nat
  tenantStatsOffset : Nat
  tenantDocfreqOffset : Nat
  tenantRangesOffset : Nat
  flags : Nat
  deriving DecidableEq, Repr

/-- The widths of the header's fields; there is no padding between them. -/
def headerWidths : List Nat :=
  [4, 4, 8, 4, 4, 4, 4, 4, 4, 4, 4, 4, 4, 4, 4, 4, 4, 8, 4, 4, 4, 4, 4, 4]

/-- `sizeof(TpSegmentHeader)`. -/
def headerSize : Nat := 104

namespace Header

def fields (h : Header) : List Nat :=
  [h.magic, h.version, h.createdAt, h.numPages, h.dataSize, h.level, h.nextSegment,
    h.dictionaryOffset, h.stringsOffset, h.entriesOffset, h.postingsOffset, h.skipIndexOffset,
    h.fieldnormOffset, h.ctidPagesOffset, h.ctidOffsetsOffset, h.numTerms, h.numDocs,
    h.totalTokens, h.pageIndex, h.tenantMapOffset, h.tenantStatsOffset, h.tenantDocfreqOffset,
    h.tenantRangesOffset, h.flags]

def ofFields (v : List Nat) : Header where
  magic := v.getD 0 0
  version := v.getD 1 0
  createdAt := v.getD 2 0
  numPages := v.getD 3 0
  dataSize := v.getD 4 0
  level := v.getD 5 0
  nextSegment := v.getD 6 0
  dictionaryOffset := v.getD 7 0
  stringsOffset := v.getD 8 0
  entriesOffset := v.getD 9 0
  postingsOffset := v.getD 10 0
  skipIndexOffset := v.getD 11 0
  fieldnormOffset := v.getD 12 0
  ctidPagesOffset := v.getD 13 0
  ctidOffsetsOffset := v.getD 14 0
  numTerms := v.getD 15 0
  numDocs := v.getD 16 0
  totalTokens := v.getD 17 0
  pageIndex := v.getD 18 0
  tenantMapOffset := v.getD 19 0
  tenantStatsOffset := v.getD 20 0
  tenantDocfreqOffset := v.getD 21 0
  tenantRangesOffset := v.getD 22 0
  flags := v.getD 23 0

/-- The header in bytes. -/
def bytes (h : Header) : List (Fin 256) := packStruct headerWidths h.fields

/-- The header the bytes begin with. -/
def ofBytes (bytes : List (Fin 256)) : Header := ofFields (unpackStruct headerWidths bytes)

theorem length_bytes (h : Header) : h.bytes.length = headerSize :=
  length_packStruct rfl

/-- The header with every field cut to its width. -/
def cut (h : Header) : Header :=
  ofFields (List.zipWith (fun width value => value % 256 ^ width) headerWidths h.fields)

/-- **The header read back.** -/
theorem ofBytes_bytes (h : Header) (rest : List (Fin 256)) : ofBytes (h.bytes ++ rest) = h.cut := by
  rw [ofBytes, bytes, unpackStruct_packStruct (by rfl)]
  rfl

end Header

/-! ## Dictionary entries -/

/-- `TpDictEntry`, less its padding. -/
structure DictRecord where
  skipIndexOffset : Nat
  blockCount : Nat
  docFreq : Nat
  deriving DecidableEq, Repr, Inhabited

/-- `sizeof(TpDictEntry)`. -/
def dictEntrySize : Nat := 12

namespace DictRecord

def bytes (e : DictRecord) : List (Fin 256) :=
  packStruct [4, 2, 2, 4] [e.skipIndexOffset, e.blockCount, 0, e.docFreq]

def ofBytes (bytes : List (Fin 256)) : DictRecord :=
  let v := unpackStruct [4, 2, 2, 4] bytes
  ⟨v.getD 0 0, v.getD 1 0, v.getD 3 0⟩

theorem length_bytes (e : DictRecord) : e.bytes.length = dictEntrySize :=
  length_packStruct rfl

theorem ofBytes_bytes {e : DictRecord} (hoffset : e.skipIndexOffset < 2 ^ 32)
    (hcount : e.blockCount < 2 ^ 16) (hfreq : e.docFreq < 2 ^ 32) (rest : List (Fin 256)) :
    ofBytes (e.bytes ++ rest) = e := by
  rw [ofBytes, bytes, unpackStruct_packStruct (by rfl)]
  show DictRecord.mk (e.skipIndexOffset % 256 ^ 4) (e.blockCount % 256 ^ 2)
    (e.docFreq % 256 ^ 4) = e
  rw [Nat.mod_eq_of_lt (by omega), Nat.mod_eq_of_lt (by omega), Nat.mod_eq_of_lt (by omega)]

end DictRecord

/-! ## Skip entries -/

/-- `TpSkipEntry` with its posting offset and flags. -/
structure SkipRecord where
  skip : SkipEntry
  postingOffset : Nat
  flags : Nat
  deriving DecidableEq, Repr, Inhabited

/-- `sizeof(TpSkipEntry)`. -/
def skipEntrySize : Nat := 16

/-- A skip entry whose values fit their fields. -/
structure SkipRecord.Fits (s : SkipRecord) : Prop where
  lastDocId_lt : s.skip.lastDocId < 2 ^ 32
  docCount_lt : s.skip.docCount < 2 ^ 8
  blockMaxTf_lt : s.skip.blockMaxTf < 2 ^ 16
  tenantIdLow_lt : s.skip.tenantIdLow < 2 ^ 16
  postingOffset_lt : s.postingOffset < 2 ^ 32
  flags_lt : s.flags < 2 ^ 8

namespace SkipRecord

def bytes (s : SkipRecord) : List (Fin 256) :=
  packStruct [4, 1, 2, 1, 4, 1, 1, 1, 1]
    [s.skip.lastDocId, s.skip.docCount, s.skip.blockMaxTf, s.skip.blockMaxNorm.val,
      s.postingOffset, s.flags, tenantModeByte s.skip.tenantMode, s.skip.tenantIdLow % 256,
      s.skip.tenantIdLow / 256]

def ofBytes (bytes : List (Fin 256)) : SkipRecord :=
  let v := unpackStruct [4, 1, 2, 1, 4, 1, 1, 1, 1] bytes
  { skip :=
      { lastDocId := v.getD 0 0
        docCount := v.getD 1 0
        blockMaxTf := v.getD 2 0
        blockMaxNorm := Fin.ofNat 256 (v.getD 3 0)
        tenantMode := tenantModeOfByte (v.getD 6 0)
        tenantIdLow := v.getD 7 0 + 256 * v.getD 8 0 }
    postingOffset := v.getD 4 0
    flags := v.getD 5 0 }

theorem length_bytes (s : SkipRecord) : s.bytes.length = skipEntrySize :=
  length_packStruct rfl

theorem ofBytes_bytes {s : SkipRecord} (h : s.Fits) (rest : List (Fin 256)) :
    ofBytes (s.bytes ++ rest) = s := by
  obtain ⟨hlast, hcount, htf, htenant, hoffset, hflags⟩ := h
  rw [ofBytes, bytes, unpackStruct_packStruct (by rfl)]
  show SkipRecord.mk
    ⟨s.skip.lastDocId % 256 ^ 4, s.skip.docCount % 256 ^ 1, s.skip.blockMaxTf % 256 ^ 2,
      Fin.ofNat 256 (s.skip.blockMaxNorm.val % 256 ^ 1),
      tenantModeOfByte (tenantModeByte s.skip.tenantMode % 256 ^ 1),
      s.skip.tenantIdLow % 256 % 256 ^ 1 + 256 * (s.skip.tenantIdLow / 256 % 256 ^ 1)⟩
    (s.postingOffset % 256 ^ 4) (s.flags % 256 ^ 1) = s
  have hnorm : Fin.ofNat 256 (s.skip.blockMaxNorm.val % 256 ^ 1) = s.skip.blockMaxNorm := by
    apply Fin.ext
    show s.skip.blockMaxNorm.val % 256 ^ 1 % 256 = s.skip.blockMaxNorm.val
    omega
  have hlow : s.skip.tenantIdLow % 256 % 256 ^ 1 + 256 * (s.skip.tenantIdLow / 256 % 256 ^ 1) =
      s.skip.tenantIdLow := by omega
  rw [hnorm, hlow, Nat.pow_one, tenantModeOfByte_byte, Nat.mod_eq_of_lt (by omega),
    Nat.mod_eq_of_lt (by omega), Nat.mod_eq_of_lt (by omega), Nat.mod_eq_of_lt (by omega),
    Nat.mod_eq_of_lt (by omega)]

end SkipRecord

/-! ## Plain posting blocks -/

/-- `sizeof(TpBlockPosting)`. -/
def blockPostingSize : Nat := 8

/-- `TpBlockPosting`, with its padding. -/
def postingBytes (p : BlockPosting) : List (Fin 256) :=
  packStruct [4, 2, 1, 1] [p.docId, p.frequency, p.fieldnorm.val, 0]

def postingOfBytes (bytes : List (Fin 256)) : BlockPosting :=
  let v := unpackStruct [4, 2, 1, 1] bytes
  ⟨v.getD 0 0, v.getD 1 0, Fin.ofNat 256 (v.getD 2 0)⟩

/-- An array of postings. -/
def postingsBytes (ps : List BlockPosting) : List (Fin 256) := (ps.map postingBytes).flatten

/-- The first `count` postings of an array. -/
def postingsOfBytes (count : Nat) (bytes : List (Fin 256)) : List BlockPosting :=
  (chunks blockPostingSize count bytes).map postingOfBytes

theorem length_postingBytes (p : BlockPosting) : (postingBytes p).length = blockPostingSize :=
  length_packStruct rfl

theorem postingOfBytes_bytes {p : BlockPosting} (hid : p.docId < 2 ^ 32)
    (hfreq : p.frequency < 2 ^ 16) : postingOfBytes (postingBytes p) = p := by
  have hfields : unpackStruct [4, 2, 1, 1] (postingBytes p ++ []) =
      [p.docId % 256 ^ 4, p.frequency % 256 ^ 2, p.fieldnorm.val % 256 ^ 1, 0 % 256 ^ 1] := by
    rw [postingBytes, unpackStruct_packStruct (by rfl)]
    rfl
  rw [List.append_nil] at hfields
  rw [postingOfBytes, hfields]
  show BlockPosting.mk (p.docId % 256 ^ 4) (p.frequency % 256 ^ 2)
    (Fin.ofNat 256 (p.fieldnorm.val % 256 ^ 1)) = p
  have hnorm : Fin.ofNat 256 (p.fieldnorm.val % 256 ^ 1) = p.fieldnorm := by
    apply Fin.ext
    show p.fieldnorm.val % 256 ^ 1 % 256 = p.fieldnorm.val
    omega
  rw [hnorm, Nat.mod_eq_of_lt (by omega), Nat.mod_eq_of_lt (by omega)]

theorem length_postingsBytes (ps : List BlockPosting) :
    (postingsBytes ps).length = ps.length * blockPostingSize := by
  induction ps with
  | nil => rfl
  | cons p ps ih =>
      show (postingBytes p ++ postingsBytes ps).length = _
      rw [List.length_append, length_postingBytes, ih, List.length_cons, Nat.succ_mul, Nat.add_comm]

/-- **A plain block read back**, whatever follows it. -/
theorem postingsOfBytes_bytes {ps : List BlockPosting} (hid : ∀ p ∈ ps, p.docId < 2 ^ 32)
    (hfreq : ∀ p ∈ ps, p.frequency < 2 ^ 16) (rest : List (Fin 256)) :
    postingsOfBytes ps.length (postingsBytes ps ++ rest) = ps := by
  have hsize : ∀ r ∈ ps.map postingBytes, r.length = blockPostingSize := by
    intro r hr
    obtain ⟨p, -, rfl⟩ := List.mem_map.1 hr
    exact length_postingBytes p
  have hchunks := chunks_flatten hsize rest
  rw [List.length_map] at hchunks
  rw [postingsOfBytes, postingsBytes, hchunks, List.map_map]
  conv_rhs => rw [← List.map_id ps]
  apply List.map_congr_left
  intro p hp
  exact postingOfBytes_bytes (hid p hp) (hfreq p hp)

end PgTextsearch.Segment.File
