import PgTextsearch.Postgres
import PgTextsearch.Segment.Fieldnorm

/-!
# Segment contents (`segment/segment.h`)

The on-disk structures as the readers see them, above the byte layout: posting
blocks with their skip entries, the dictionary entry of a term, and the CTID
array that resolves segment-local document ids.
-/

namespace PgTextsearch.Segment

open PgTextsearch.Postgres

/-- `TP_BLOCK_SIZE`. -/
def tpBlockSize : Nat := 128

/-- `TpBlockPosting`. -/
structure BlockPosting where
  docId : Nat
  frequency : Nat
  fieldnorm : Fin 256
  deriving DecidableEq, Repr, Inhabited

/-- The decoded length a reader scores the posting with. -/
def BlockPosting.docLength (p : BlockPosting) : Nat := decodeFieldnorm p.fieldnorm

/-- `TP_TENANT_MODE_*`, the first reserved byte of a skip entry. -/
inductive TenantMode where
  | none
  | single
  | mixed
  deriving DecidableEq, Repr, Inhabited

/-- `TpSkipEntry`.  `tenantIdLow` are the low 16 bits of the tenant id kept in
the second and third reserved byte. -/
structure SkipEntry where
  lastDocId : Nat
  docCount : Nat
  blockMaxTf : Nat
  blockMaxNorm : Fin 256
  tenantMode : TenantMode
  tenantIdLow : Nat
  deriving DecidableEq, Repr, Inhabited

/-- A skip entry together with the posting block it points to. -/
structure Block where
  skip : SkipEntry
  postings : List BlockPosting
  deriving DecidableEq, Repr, Inhabited

/-- `TpDictEntry` with the blocks found at its skip index offset.  A reader
visits the first `blockCount` of them. -/
structure DictEntry where
  blockCount : Nat
  docFreq : Nat
  blocks : List Block
  deriving DecidableEq, Repr, Inhabited

end PgTextsearch.Segment
