import Mathlib.Data.List.TakeWhile
import PgTextsearch.Types.Vector
import PgTextsearch.Verified.LittleEndian

/-!
# The external forms of a query (`types/query.c`, `types/query.h`)

A `bm25query` is a query text with an optional index, tenant and text configuration.
`tpquery_send` writes all of it in network byte order, and `tpquery_recv` reads four versions
of that form; `tpquery_out` prints index, text and configuration with `:` between them, and
`tpquery_in` takes what stands in front of the first `:` for the name of the index.

Texts are those of `text` values, without NUL and below 1 GB.  Catalog lookups are those of a
parameter, and the memory limits of the server are left out.

## Main results

* `tpqueryRecv_send` — what becomes of a query in the binary form.
* `tpqueryIn_out` — the text form keeps a query without a configuration.
* `tpquery_external_forms` — both, for all queries that can be constructed.
-/

namespace PgTextsearch.Types

open PgTextsearch.Postgres PgTextsearch.Verified PgTextsearch.Verified.Decimal

/-! ## Queries -/

/-- `TPQUERY_VERSION`. -/
def tpqueryVersion : Nat := 4

/-- `TPQUERY_FLAG_EXPLICIT_INDEX`. -/
def tpqueryFlagExplicitIndex : Nat := 1

/-- `InvalidOid`. -/
def invalidOid : UInt32 := 0

/-- The text of a `text` value: no NUL, and below 1 GB. -/
structure QueryText where
  bytes : CString
  nul_free : 0 ∉ bytes
  length_lt : bytes.length < 2 ^ 30

/-- `TpQuery`, less the size in front of it; `data` goes up to the terminator. -/
structure TpQuery where
  version : Nat
  flags : Nat
  indexOid : UInt32
  queryTextLen : Int32
  tenantId : UInt32
  queryConfigOid : UInt32
  data : CString
  deriving DecidableEq, Repr

/-- What the functions of the type raise. -/
inductive QueryError where
  | indexDoesNotExist (indexName : CString)
  | unsupportedVersion (version : Nat)
  | invalidQueryTextLength (queryTextLen : Int32)
  | insufficientData
  deriving DecidableEq, Repr

/-- `errmsg`. -/
def QueryError.errmsg : QueryError → CString
  | indexDoesNotExist indexName =>
      bytesOf "index \"" ++ indexName ++ bytesOf "\" does not exist"
  | unsupportedVersion version =>
      bytesOf "unsupported bm25query binary format version " ++ formatNat version
  | invalidQueryTextLength queryTextLen =>
      bytesOf "invalid query text length: " ++ formatInt queryTextLen
  | insufficientData => bytesOf "insufficient data left in message"

/-- `errhint`. -/
def QueryError.errhint : QueryError → Option String
  | unsupportedVersion _ =>
      some ("Expected version 1-4. This may indicate data from an incompatible " ++
        "pg_textsearch version.")
  | _ => none

/-- The catalog: `tp_resolve_index_name_shared`, `get_rel_name` and `regconfigout`.  Names of
relations are not empty. -/
structure QueryCatalog where
  resolveIndexName : CString → UInt32
  getRelName : UInt32 → Option CString
  regconfigOut : UInt32 → CString
  relName_ne_nil : ∀ oid, getRelName oid ≠ some []

/-- `create_tpquery_explicit`. -/
def createTpqueryExplicit (queryText : CString) (indexOid : UInt32) (explicitIndex : Bool) :
    TpQuery :=
  { version := tpqueryVersion
    flags := if explicitIndex then tpqueryFlagExplicitIndex else 0
    indexOid := indexOid
    queryTextLen := Int32.ofNat queryText.length
    tenantId := 0
    queryConfigOid := invalidOid
    data := queryText }

/-- `create_tpquery`. -/
def createTpquery (queryText : CString) (indexOid : UInt32) : TpQuery :=
  createTpqueryExplicit queryText indexOid false

/-- `create_tpquery_from_name`. -/
def createTpqueryFromName (catalog : QueryCatalog) (queryText indexName : CString) :
    Except QueryError TpQuery :=
  let indexOid := catalog.resolveIndexName indexName
  if indexOid = invalidOid then .error (.indexDoesNotExist indexName)
  else .ok (createTpqueryExplicit queryText indexOid true)

/-- `create_tpquery_with_tenant`. -/
def createTpqueryWithTenant (original : TpQuery) (tenantId : UInt32) : TpQuery :=
  { original with tenantId := tenantId }

/-- `get_tpquery_config_oid`. -/
def getTpqueryConfigOid (q : TpQuery) : UInt32 :=
  if q.version < 4 then invalidOid else q.queryConfigOid

/-- The last step of `to_tpquery_text_index_language`. -/
def setQueryConfig (q : TpQuery) (configOid : UInt32) : TpQuery :=
  { q with queryConfigOid := configOid }

/-- The queries that the constructors of the type build. -/
inductive Constructed : TpQuery → Prop where
  | explicit (text : QueryText) (indexOid : UInt32) (explicitIndex : Bool) :
      Constructed (createTpqueryExplicit text.bytes indexOid explicitIndex)
  | withTenant {q : TpQuery} (h : Constructed q) (tenantId : UInt32) :
      Constructed (createTpqueryWithTenant q tenantId)
  | withConfig {q : TpQuery} (h : Constructed q) (configOid : UInt32) :
      Constructed (setQueryConfig q configOid)

/-! ## The binary form -/

/-- `pq_sendint32`: network byte order. -/
def pqSendint32 (n : UInt32) : List (Fin 256) := (leBytes 4 n.toNat).reverse

/-- `pq_sendint8`. -/
def pqSendint8 (n : Nat) : List (Fin 256) := [Fin.ofNat 256 n]

/-- `pq_copymsgbytes`: the bytes, and what is left of the message. -/
def pqCopymsgbytes (buf : List (Fin 256)) (len : Nat) :
    Except QueryError (List (Fin 256) × List (Fin 256)) :=
  if buf.length < len then .error .insufficientData else .ok (buf.take len, buf.drop len)

/-- `pq_getmsgint` of four bytes. -/
def pqGetmsgint (buf : List (Fin 256)) : Except QueryError (UInt32 × List (Fin 256)) := do
  let (bytes, buf) ← pqCopymsgbytes buf 4
  return (UInt32.ofNat (byteValue bytes.reverse), buf)

/-- `pq_getmsgbyte`. -/
def pqGetmsgbyte (buf : List (Fin 256)) : Except QueryError (Nat × List (Fin 256)) := do
  let (bytes, buf) ← pqCopymsgbytes buf 1
  return (byteValue bytes, buf)

/-- `tpquery_send`. -/
def tpquerySend (q : TpQuery) : List (Fin 256) :=
  pqSendint8 tpqueryVersion ++ (pqSendint8 q.flags ++ (pqSendint32 q.indexOid ++
    (pqSendint32 q.queryTextLen.toUInt32 ++ (pqSendint32 q.tenantId ++
      (pqSendint32 q.queryConfigOid ++ q.data.take q.queryTextLen.toInt.toNat)))))

/-- The characters in front of the first NUL. -/
def cStringOf (buffer : List (Fin 256)) : CString := buffer.takeWhile (· ≠ 0)

/-- A field that the form has from version `since` on. -/
def readSince {α : Type} (since version : Nat) (read : List (Fin 256) →
    Except QueryError (α × List (Fin 256))) (absent : α) (buf : List (Fin 256)) :
    Except QueryError (α × List (Fin 256)) :=
  if version ≥ since then read buf else .ok (absent, buf)

/-- `tpquery_recv`. -/
def tpqueryRecv (buf : List (Fin 256)) : Except QueryError TpQuery := do
  let (version, buf) ← pqGetmsgbyte buf
  if version < 1 ∨ version > 4 then .error (.unsupportedVersion version)
  else do
    let (flags, buf) ← readSince 2 version pqGetmsgbyte 0 buf
    let (indexOid, buf) ← pqGetmsgint buf
    let (textLen, buf) ← pqGetmsgint buf
    let queryTextLen := textLen.toInt32
    let (tenantId, buf) ← readSince 3 version pqGetmsgint 0 buf
    let (queryConfigOid, buf) ← readSince 4 version pqGetmsgint invalidOid buf
    if queryTextLen < 0 ∨ queryTextLen > 1000000 then
      .error (.invalidQueryTextLength queryTextLen)
    else do
      let (queryText, _) ← pqCopymsgbytes buf queryTextLen.toInt.toNat
      let explicitIndex := flags &&& tpqueryFlagExplicitIndex != 0
      return { createTpqueryExplicit (cStringOf queryText) indexOid explicitIndex with
        tenantId := tenantId
        queryConfigOid := queryConfigOid }

/-! ## The text form -/

/-- `tpquery_out`. -/
def tpqueryOut (catalog : QueryCatalog) (q : TpQuery) : CString :=
  if q.indexOid ≠ invalidOid then
    let cfgOid := getTpqueryConfigOid q
    let str := match catalog.getRelName q.indexOid with
      | some indexName => indexName ++ colon :: q.data
      | none => bytesOf "[oid=" ++ formatNat q.indexOid.toNat ++ bytesOf "]:" ++ q.data
    if cfgOid ≠ invalidOid then str ++ colon :: catalog.regconfigOut cfgOid else str
  else q.data

/-- `tpquery_in`. -/
def tpqueryIn (catalog : QueryCatalog) (str : CString) : Except QueryError TpQuery :=
  match strchr str colon with
  | some colonPos =>
      if colonPos ≠ 0 then
        createTpqueryFromName catalog (str.drop (colonPos + 1)) (str.take colonPos)
      else .ok (createTpquery str invalidOid)
  | none => .ok (createTpquery str invalidOid)

/-! ## What is constructed -/

/-- What all constructors leave: the current version, at most the one flag, and the length of
the text. -/
structure Built (q : TpQuery) : Prop where
  version_eq : q.version = tpqueryVersion
  flags_eq : ∃ explicitIndex : Bool, q.flags = if explicitIndex then tpqueryFlagExplicitIndex else 0
  queryTextLen_eq : q.queryTextLen = Int32.ofNat q.data.length
  nul_free : 0 ∉ q.data
  length_lt : q.data.length < 2 ^ 30

theorem Constructed.built {q : TpQuery} (h : Constructed q) : Built q := by
  induction h with
  | explicit text indexOid explicitIndex =>
      exact ⟨rfl, ⟨explicitIndex, rfl⟩, rfl, text.nul_free, text.length_lt⟩
  | withTenant _ tenantId ih =>
      exact ⟨ih.version_eq, ih.flags_eq, ih.queryTextLen_eq, ih.nul_free, ih.length_lt⟩
  | withConfig _ configOid ih =>
      exact ⟨ih.version_eq, ih.flags_eq, ih.queryTextLen_eq, ih.nul_free, ih.length_lt⟩

/-- The length of a text does not wrap. -/
theorem Built.toInt_queryTextLen {q : TpQuery} (h : Built q) :
    q.queryTextLen.toInt = q.data.length := by
  have hlt := h.length_lt
  rw [h.queryTextLen_eq]
  exact Int32.toInt_ofNat_of_lt (by omega)

/-! ## Reading what was sent -/

theorem pqCopymsgbytes_append {bytes : List (Fin 256)} {len : Nat} (hlen : bytes.length = len)
    (rest : List (Fin 256)) : pqCopymsgbytes (bytes ++ rest) len = .ok (bytes, rest) := by
  subst hlen
  rw [pqCopymsgbytes, if_neg (by rw [List.length_append]; omega), List.take_left, List.drop_left]

/-- **Reading a number** that was sent. -/
theorem pqGetmsgint_send (n : UInt32) (rest : List (Fin 256)) :
    pqGetmsgint (pqSendint32 n ++ rest) = .ok (n, rest) := by
  have hlen : (pqSendint32 n).length = 4 := by
    rw [pqSendint32, List.length_reverse, length_leBytes]
  have hvalue : UInt32.ofNat (byteValue (pqSendint32 n).reverse) = n := by
    rw [pqSendint32, List.reverse_reverse, byteValue_leBytes, 
      Nat.mod_eq_of_lt (show n.toNat < 256 ^ 4 from n.toNat_lt)]
    exact UInt32.ofNat_toNat
  rw [pqGetmsgint, bind_of_eq_ok (pqCopymsgbytes_append hlen rest)]
  show Except.ok (UInt32.ofNat (byteValue (pqSendint32 n).reverse), rest) = _
  rw [hvalue]

/-- **Reading a byte** that was sent. -/
theorem pqGetmsgbyte_send {n : Nat} (hn : n < 256) (rest : List (Fin 256)) :
    pqGetmsgbyte (pqSendint8 n ++ rest) = .ok (n, rest) := by
  have hvalue : byteValue (pqSendint8 n) = n := by
    simp [byteValue, byteDigits, pqSendint8, Nat.mod_eq_of_lt hn]
  rw [pqGetmsgbyte, bind_of_eq_ok (pqCopymsgbytes_append (show (pqSendint8 n).length = 1 from rfl)
    rest)]
  show Except.ok (byteValue (pqSendint8 n), rest) = _
  rw [hvalue]

theorem cStringOf_of_nul_free {text : CString} (hfree : 0 ∉ text) : cStringOf text = text := by
  rw [cStringOf, List.takeWhile_eq_self_iff]
  intro b hb
  have hne : b ≠ 0 := fun heq => hfree (heq ▸ hb)
  simpa using hne

/-- **The binary form** of a query is read back, unless its text is too long for the reader. -/
theorem tpqueryRecv_send {q : TpQuery} (h : Built q) :
    tpqueryRecv (tpquerySend q) =
      if q.data.length ≤ 1000000 then .ok q
      else .error (.invalidQueryTextLength q.queryTextLen) := by
  obtain ⟨explicitIndex, hflags⟩ := h.flags_eq
  have hlen := h.toInt_queryTextLen
  have hbyte : q.flags < 256 := by
    rw [hflags]
    cases explicitIndex <;> decide
  have hflag : (q.flags &&& tpqueryFlagExplicitIndex != 0) = explicitIndex := by
    rw [hflags]
    cases explicitIndex <;> rfl
  have htext : q.data.take q.queryTextLen.toInt.toNat = q.data := by
    rw [hlen, Int.toNat_natCast, List.take_length]
  have hguard : (q.queryTextLen < 0 ∨ q.queryTextLen > 1000000) ↔ ¬ q.data.length ≤ 1000000 := by
    rw [gt_iff_lt, Int32.lt_iff_toInt_lt, Int32.lt_iff_toInt_lt, hlen]
    have hzero : Int32.toInt 0 = 0 := rfl
    have hmax : Int32.toInt 1000000 = 1000000 := by decide
    omega
  have hcopy : pqCopymsgbytes q.data q.queryTextLen.toInt.toNat = .ok (q.data, []) := by
    have happend := pqCopymsgbytes_append (show q.data.length = q.queryTextLen.toInt.toNat by
      rw [hlen, Int.toNat_natCast]) []
    rwa [List.append_nil] at happend
  have hq : ({ createTpqueryExplicit q.data q.indexOid explicitIndex with
      tenantId := q.tenantId, queryConfigOid := q.queryConfigOid } : TpQuery) = q := by
    cases q
    simp only [createTpqueryExplicit, TpQuery.mk.injEq, and_true, true_and]
    exact ⟨h.version_eq.symm, hflags.symm, h.queryTextLen_eq.symm⟩
  have hflagsRead : ∀ rest, readSince 2 tpqueryVersion pqGetmsgbyte 0 (pqSendint8 q.flags ++ rest) =
      .ok (q.flags, rest) := fun rest => pqGetmsgbyte_send hbyte rest
  have htenantRead : ∀ rest, readSince 3 tpqueryVersion pqGetmsgint 0
      (pqSendint32 q.tenantId ++ rest) = .ok (q.tenantId, rest) :=
    fun rest => pqGetmsgint_send q.tenantId rest
  have hconfigRead : ∀ rest, readSince 4 tpqueryVersion pqGetmsgint invalidOid
      (pqSendint32 q.queryConfigOid ++ rest) = .ok (q.queryConfigOid, rest) :=
    fun rest => pqGetmsgint_send q.queryConfigOid rest
  rw [tpquerySend, htext, tpqueryRecv, bind_of_eq_ok (pqGetmsgbyte_send (by decide) _)]
  show (if tpqueryVersion < 1 ∨ tpqueryVersion > 4 then _ else _) = _
  rw [if_neg (by decide), bind_of_eq_ok (hflagsRead _)]
  show (pqGetmsgint _ >>= _) = _
  rw [bind_of_eq_ok (pqGetmsgint_send _ _)]
  show (pqGetmsgint _ >>= _) = _
  rw [bind_of_eq_ok (pqGetmsgint_send _ _)]
  show (readSince 3 tpqueryVersion pqGetmsgint 0 _ >>= _) = _
  rw [bind_of_eq_ok (htenantRead _)]
  show (readSince 4 tpqueryVersion pqGetmsgint invalidOid _ >>= _) = _
  rw [bind_of_eq_ok (hconfigRead _)]
  simp only [Int32.toInt32_toUInt32, hguard, ite_not]
  split
  case isTrue =>
    rw [bind_of_eq_ok hcopy]
    simp only [hflag, cStringOf_of_nul_free h.nul_free]
    exact congrArg Except.ok hq
  case isFalse => rfl

/-! ## Reading what was printed -/

/-- The index of a query, if it has one, has a name without `:` that resolves back to it. -/
def NameResolvesBack (catalog : QueryCatalog) (q : TpQuery) : Prop :=
  q.indexOid ≠ invalidOid → ∃ indexName, catalog.getRelName q.indexOid = some indexName ∧
    colon ∉ indexName ∧ catalog.resolveIndexName indexName = q.indexOid

/-- Reading the printed query gives one with the same index, text and configuration. -/
def TextFormKeeps (catalog : QueryCatalog) (q : TpQuery) : Prop :=
  ∃ q', tpqueryIn catalog (tpqueryOut catalog q) = .ok q' ∧ q'.indexOid = q.indexOid ∧
    q'.data = q.data ∧ q'.queryConfigOid = q.queryConfigOid

theorem tpqueryIn_of_colon_notMem {catalog : QueryCatalog} {str : CString} (h : colon ∉ str) :
    tpqueryIn catalog str = .ok (createTpquery str invalidOid) := by
  rw [tpqueryIn, strchr_eq_none.2 h]

/-- Reading a name and a text. -/
theorem tpqueryIn_name {catalog : QueryCatalog} {indexName : CString} (hne : indexName ≠ [])
    (hcolon : colon ∉ indexName) (text : CString) :
    tpqueryIn catalog (indexName ++ colon :: text) =
      createTpqueryFromName catalog text indexName := by
  have hpos : indexName.length ≠ 0 := fun hzero => hne (List.length_eq_zero_iff.1 hzero)
  have hdrop : (indexName ++ colon :: text).drop (indexName.length + 1) = text := by
    rw [List.drop_append, List.drop_of_length_le (by omega)]
    simp
  rw [tpqueryIn, strchr_append hcolon]
  simp only [hpos, ne_eq, not_false_eq_true, if_true, hdrop, List.take_left]

/-- **The text form** keeps a query without a configuration of its own. -/
theorem tpqueryIn_out {catalog : QueryCatalog} {q : TpQuery}
    (hconfig : q.queryConfigOid = invalidOid) (hcolon : colon ∉ q.data)
    (hname : NameResolvesBack catalog q) : TextFormKeeps catalog q := by
  have hcfg : getTpqueryConfigOid q = invalidOid := by
    unfold getTpqueryConfigOid
    split
    · rfl
    · exact hconfig
  by_cases hindex : q.indexOid = invalidOid
  · refine ⟨createTpquery q.data invalidOid, ?_, hindex.symm, rfl, hconfig.symm⟩
    rw [tpqueryOut, if_neg (not_not.2 hindex)]
    exact tpqueryIn_of_colon_notMem hcolon
  · obtain ⟨indexName, hrel, hfree, hresolve⟩ := hname hindex
    have hne : indexName ≠ [] := fun hnil => catalog.relName_ne_nil q.indexOid (hnil ▸ hrel)
    refine ⟨createTpqueryExplicit q.data q.indexOid true, ?_, rfl, rfl, hconfig.symm⟩
    have hout : tpqueryOut catalog q = indexName ++ colon :: q.data := by
      rw [tpqueryOut, if_pos hindex]
      simp only [hcfg, hrel, ne_eq, not_true_eq_false, if_false]
    rw [hout, tpqueryIn_name hne hfree, createTpqueryFromName, hresolve]
    simp only [hindex, if_false]

/-- **External forms**: the binary form of every query that can be constructed is read back, if its
text has at most 1000000 bytes, and refused otherwise; the text form keeps index, text and
configuration of a query without a configuration of its own. -/
theorem tpquery_external_forms (catalog : QueryCatalog) (q : TpQuery) (h : Constructed q) :
    (q.data.length ≤ 1000000 → tpqueryRecv (tpquerySend q) = .ok q) ∧
      (1000000 < q.data.length →
        tpqueryRecv (tpquerySend q) = .error (.invalidQueryTextLength q.queryTextLen)) ∧
      (q.queryConfigOid = invalidOid → colon ∉ q.data → NameResolvesBack catalog q →
        TextFormKeeps catalog q) := by
  have hrecv := tpqueryRecv_send h.built
  refine ⟨fun hle => ?_, fun hlt => ?_, tpqueryIn_out⟩
  · rwa [if_pos hle] at hrecv
  · rwa [if_neg (not_le.2 hlt)] at hrecv

/-- A catalog of one index. -/
def oneIndexCatalog : QueryCatalog where
  resolveIndexName := fun name => if name = bytesOf "docs_idx" then 16384 else 0
  getRelName := fun oid => if oid = 16384 then some (bytesOf "docs_idx") else none
  regconfigOut := fun _ => bytesOf "german"
  relName_ne_nil := by
    intro oid h
    split at h
    · exact absurd (Option.some.inj h) (by decide)
    · exact nomatch h

/-- The query `web` on that index, for tenant 7. -/
theorem tpquery_external_forms_web :
    tpqueryRecv (tpquerySend (createTpqueryWithTenant
        (createTpqueryExplicit (bytesOf "web") 16384 true) 7)) =
        .ok (createTpqueryWithTenant (createTpqueryExplicit (bytesOf "web") 16384 true) 7) ∧
      TextFormKeeps oneIndexCatalog (createTpqueryWithTenant
        (createTpqueryExplicit (bytesOf "web") 16384 true) 7) := by
  have hforms := tpquery_external_forms oneIndexCatalog _
    (Constructed.withTenant
      (Constructed.explicit ⟨bytesOf "web", by decide, by decide⟩ 16384 true) 7)
  exact ⟨hforms.1 (by decide), hforms.2.2 rfl (by decide)
    fun _ => ⟨bytesOf "docs_idx", by decide, by decide, by decide⟩⟩

/-- A text of 1000001 bytes. -/
def longText : QueryText where
  bytes := List.replicate 1000001 97
  nul_free := fun hmem => absurd (List.eq_of_mem_replicate hmem) (by decide)
  length_lt := by
    rw [List.length_replicate]
    decide

/-- The query of that text is sent, but not received. -/
theorem tpqueryRecv_refuses_longText :
    ¬∀ catalog q, Constructed q → tpqueryRecv (tpquerySend q) = .ok q ∧
      (colon ∉ q.data → NameResolvesBack catalog q → TextFormKeeps catalog q) := by
  intro h
  have hbuilt := Constructed.explicit longText invalidOid false
  have hlong : ¬ (createTpqueryExplicit longText.bytes invalidOid false).data.length ≤ 1000000 := by
    show ¬ (List.replicate 1000001 (97 : Fin 256)).length ≤ 1000000
    rw [List.length_replicate]
    decide
  have hrefused := tpqueryRecv_send hbuilt.built
  rw [if_neg hlong, (h oneIndexCatalog _ hbuilt).1] at hrefused
  exact nomatch hrefused

end PgTextsearch.Types
