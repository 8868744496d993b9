import Mathlib.Logic.Function.Basic
import PgTextsearch.Segment.Dictionary
import PgTextsearch.Verified.LittleEndian

/-!
# The memtable in dynamic shared memory

The string table holds no terms and no postings: an entry is a pointer to a term and a pointer to
a posting list, which points to an array of entries in turn.  All of them are blocks of a DSA area
that every index of the database allocates from.  Errors do not roll the area back: what a call
has written before it raises one stays.

An access outside an allocated block is the error `fault`.  The three hash tables are `dshash`
tables; their own blocks are not part of the heap here, and a call that needs a new one may fail.

## Main results

* `tpAddDocumentTerms`, `tpClearMemtable`, `readPostings` — what writes and reads the blocks.
-/

namespace PgTextsearch.Dsa

open PgTextsearch.Postgres PgTextsearch.Segment

/-- `TpPostingList`. -/
structure TpPostingList where
  docCount : Nat
  capacity : Nat
  isSorted : Bool
  docFreq : Nat
  entriesDp : Nat
  deriving DecidableEq

/-- What a block is used for.  A slot of an array that was never written is `none`. -/
inductive Contents where
  | raw
  | chars (bytes : List (Fin 256))
  | postingList (list : TpPostingList)
  | entries (slots : List (Option MemPosting))
  deriving DecidableEq

/-- `sizeof(TpPostingList)`. -/
def postingListSize : Nat := 24

/-- `sizeof(TpPostingEntry)`. -/
def postingEntrySize : Nat := 16

def Contents.size : Contents → Nat
  | raw => 0
  | chars bytes => bytes.length
  | postingList _ => postingListSize
  | entries slots => slots.length * postingEntrySize

structure Block where
  size : Nat
  contents : Contents
  deriving DecidableEq

/-- The area, from `dsa_pointer` to block.  `InvalidDsaPointer` is 0. -/
abbrev Heap := Nat → Option Block

/-- `TpStringHashEntry`: `key.term.dp` and `key.posting_list`. -/
structure StringHashEntry where
  termDp : Nat
  postingList : Nat
  deriving DecidableEq

/-- `TpMemtable` with the tables its handles stand for; `none` is `DSHASH_HANDLE_INVALID`. -/
structure DsaMemtable where
  stringHash : Option (List StringHashEntry)
  docLengths : Option (AList fun _ : ItemPointer => DocLengthEntry)
  tenantStats : Option (AList fun _ : Nat => TenantStatsEntry)
  totalPostings : Nat

def DsaMemtable.empty : DsaMemtable := ⟨none, none, none, 0⟩

/-- What a call on one index works on: the area and the memtable of the index. -/
structure LocalState where
  heap : Heap
  memtable : DsaMemtable

/-- `raised` is `ereport(ERROR)`; `fault` is an access outside the allocated blocks. -/
inductive DsaError where
  | raised
  | fault
  deriving DecidableEq

abbrev DsaM := EStateM DsaError LocalState

/-- The allocator during one call: where a block of a size goes, if anywhere, and whether there is
room for what a hash table needs. -/
structure DsaAllocator where
  allocate : Heap → Nat → Option Nat
  tableRoom : LocalState → Bool
  free_of_allocate : ∀ {heap size dp}, allocate heap size = some dp → heap dp = none
  valid_of_allocate : ∀ {heap size dp}, allocate heap size = some dp → dp ≠ 0

/-- `MaxAllocSize`. -/
def maxAllocSize : Nat := 0x3fffffff

variable (alloc : DsaAllocator)

/-! ## Blocks -/

/-- `dsa_allocate`, which raises an error instead of returning `InvalidDsaPointer`. -/
def dsaAllocate (size : Nat) : DsaM Nat := do
  let s ← get
  if maxAllocSize < size then throw .raised
  else
    match alloc.allocate s.heap size with
    | none => throw .raised
    | some dp => do
        modify fun s => { s with heap := Function.update s.heap dp (some ⟨size, .raw⟩) }
        pure dp

/-- `dsa_get_address`, and the block at the address. -/
def dsaGetAddress (dp : Nat) : DsaM Block := do
  let s ← get
  match s.heap dp with
  | none => throw .fault
  | some block => pure block

/-- A write through the address of a block. -/
def dsaWrite (dp : Nat) (contents : Contents) : DsaM Unit := do
  let block ← dsaGetAddress dp
  if block.size < contents.size then throw .fault
  else modify fun s => { s with heap := Function.update s.heap dp (some ⟨block.size, contents⟩) }

/-- `dsa_free`. -/
def dsaFree (dp : Nat) : DsaM Unit := do
  let _ ← dsaGetAddress dp
  modify fun s => { s with heap := Function.update s.heap dp none }

/-- The bytes in front of the terminator. -/
def readString (dp : Nat) : DsaM (List (Fin 256)) := do
  let block ← dsaGetAddress dp
  match block.contents with
  | .chars bytes => if 0 ∈ bytes then pure (bytes.takeWhile (· ≠ 0)) else throw .fault
  | _ => throw .fault

def readPostingList (dp : Nat) : DsaM TpPostingList := do
  let block ← dsaGetAddress dp
  match block.contents with
  | .postingList list => pure list
  | _ => throw .fault

/-- `tp_get_posting_entries`; the caller goes through a null pointer when there is no array. -/
def tpGetPostingEntries (list : TpPostingList) : DsaM (List (Option MemPosting)) := do
  if list.entriesDp = 0 then throw .fault
  else
    let block ← dsaGetAddress list.entriesDp
    match block.contents with
    | .entries slots => pure slots
    | _ => throw .fault

/-! ## The string table (`memtable/stringtable.c`) -/

/-- `tp_alloc_string_dsa`. -/
def tpAllocStringDsa (str : CString) : DsaM Nat := do
  let dp ← dsaAllocate alloc (str.bytes.length + 1)
  dsaWrite dp (.chars (str.bytes ++ [0]))
  pure dp

/-- `tp_alloc_posting_list`. -/
def tpAllocPostingList : DsaM Nat := do
  let dp ← dsaAllocate alloc postingListSize
  dsaWrite dp (.postingList ⟨0, 0, false, 0, 0⟩)
  pure dp

/-- `tp_get_key_str` of a stored key.  Without a posting list the key counts as a lookup key: its
`char *` is the one of the call that inserted it, and that call has failed. -/
def tpGetKeyStr (entry : StringHashEntry) : DsaM (List (Fin 256)) :=
  if entry.postingList = 0 then throw .fault else readString entry.termDp

/-- `tp_string_compare_function`: by length, then by `memcmp`. -/
def tpStringCompare (a b : List (Fin 256)) : Int :=
  if a.length ≠ b.length then (if a.length < b.length then -1 else 1) else strcmp a b

/-- `dshash_find`.  A table compares the keys of one bucket only; equal keys are in one bucket. -/
def dshashFind (str : CString) : List StringHashEntry → DsaM (Option StringHashEntry)
  | [] => pure none
  | entry :: rest => do
      let stored ← tpGetKeyStr entry
      if tpStringCompare str.bytes stored = 0 then pure (some entry) else dshashFind str rest

/-- The entries of the string table, and its handle. -/
def setEntries (entries : List StringHashEntry) : DsaM Unit :=
  modify fun s => { s with memtable := { s.memtable with stringHash := some entries } }

/-- `tp_string_table_lookup`. -/
def tpStringTableLookup (entries : List StringHashEntry) (str : CString) :
    DsaM (Option StringHashEntry) :=
  if str.bytes.length = 0 then pure none else dshashFind str entries

/-- Room for what a `dshash` table allocates. -/
def requireRoom : DsaM Unit := do
  let s ← get
  if alloc.tableRoom s then pure () else throw .raised

/-- A table allocates when it has no block of the kind yet. -/
def requireRoomIfNone {β : Type} : Option β → DsaM Unit
  | some _ => pure ()
  | none => requireRoom alloc

/-- `tp_string_table_insert`.  The new entry is in the table before its two blocks are there. -/
def tpStringTableInsert (entries : List StringHashEntry) (str : CString) :
    DsaM StringHashEntry := do
  let found ← dshashFind str entries
  match found with
  | some entry => pure entry
  | none => do
      requireRoom alloc
      setEntries (⟨0, 0⟩ :: entries)
      let dp ← tpAllocStringDsa alloc str
      setEntries (⟨dp, 0⟩ :: entries)
      let list ← tpAllocPostingList alloc
      setEntries (⟨dp, list⟩ :: entries)
      pure ⟨dp, list⟩

/-- The handle of the string table, created when it is not there yet. -/
def attachStringTable : DsaM (List StringHashEntry) := do
  let s ← get
  match s.memtable.stringHash with
  | some entries => pure entries
  | none => do
      requireRoom alloc
      setEntries []
      pure []

/-- "Look up or insert the term in the string table". -/
def lookupOrInsert (entries : List StringHashEntry) (term : CString) : DsaM StringHashEntry := do
  let found ← tpStringTableLookup entries term
  match found with
  | some entry => pure entry
  | none => tpStringTableInsert alloc entries term

/-- `tp_get_or_create_posting_list`, up to the address of the list. -/
def tpGetOrCreatePostingList (term : CString) : DsaM Nat := do
  let entries ← attachStringTable alloc
  let entry ← lookupOrInsert alloc entries term
  if entry.postingList ≠ 0 then pure entry.postingList
  else do
    let list ← tpAllocPostingList alloc
    let s ← get
    setEntries ((s.memtable.stringHash.getD []).map fun e =>
      if e = entry then { e with postingList := list } else e)
    pure list

/-! ## Posting lists (`memtable/posting.c`) -/

/-- "Copy existing entries if any", and free their array. -/
def moveEntries (list : TpPostingList) (newDp capacity : Nat) : DsaM Unit :=
  if 0 < list.docCount ∧ list.entriesDp ≠ 0 then do
    let old ← tpGetPostingEntries list
    if old.length < list.docCount then throw .fault
    else do
      dsaWrite newDp (.entries (old.take list.docCount ++
        List.replicate (capacity - list.docCount) none))
      dsaFree list.entriesDp
  else dsaWrite newDp (.entries (List.replicate capacity none))

/-- "Expand array if needed". -/
def expandIfNeeded (dp : Nat) (list : TpPostingList) : DsaM TpPostingList :=
  if list.capacity ≤ list.docCount then do
    let capacity := if list.capacity = 0 then 16 else list.capacity * 2
    let newDp ← dsaAllocate alloc (capacity * postingEntrySize)
    moveEntries list newDp capacity
    dsaWrite dp (.postingList { list with entriesDp := newDp, capacity := capacity })
    pure { list with entriesDp := newDp, capacity := capacity }
  else pure list

/-- `tp_add_document_to_posting_list`.  No capacity reaches `2 ^ 26`, since the area refuses such
an array, so the 32-bit arithmetic on capacities does not wrap. -/
def tpAddDocumentToPostingList (dp : Nat) (posting : MemPosting) : DsaM Unit := do
  let found ← readPostingList dp
  let list ← expandIfNeeded alloc dp found
  let slots ← tpGetPostingEntries list
  if slots.length ≤ list.docCount then throw .fault
  else do
    dsaWrite list.entriesDp (.entries (slots.set list.docCount (some posting)))
    dsaWrite dp (.postingList { list with
      docCount := list.docCount + 1
      docFreq := list.docCount + 1
      isSorted := false })
    modify fun s =>
      { s with memtable := { s.memtable with totalPostings := s.memtable.totalPostings + 1 } }

/-- `tp_store_document_length`. -/
def tpStoreDocumentLength (ctid : ItemPointer) (docLength tenantId : Nat) : DsaM Unit := do
  let s ← get
  requireRoomIfNone alloc s.memtable.docLengths
  let table := s.memtable.docLengths.getD ∅
  modify fun s => { s with memtable := { s.memtable with docLengths := some table } }
  requireRoomIfNone alloc (table.lookup ctid)
  modify fun s => { s with
    memtable := { s.memtable with
      docLengths := some (table.insert ctid ⟨docLength, tenantId⟩) } }

/-- `tp_update_tenant_stats` (`memtable/tenant_stats.c`). -/
def tpUpdateTenantStats (tenantId docLength : Nat) : DsaM Unit := do
  let s ← get
  requireRoomIfNone alloc s.memtable.tenantStats
  let table := s.memtable.tenantStats.getD ∅
  modify fun s => { s with memtable := { s.memtable with tenantStats := some table } }
  requireRoomIfNone alloc (table.lookup tenantId)
  let entry :=
    match table.lookup tenantId with
    | none => ⟨1, docLength⟩
    | some e => ⟨e.docCount + 1, e.totalLen + docLength⟩
  modify fun s => { s with
    memtable := { s.memtable with tenantStats := some (table.insert tenantId entry) } }

/-- The loop of `tp_add_document_terms`. -/
def addTerms (ctid : ItemPointer) (tenantId : Nat) : List (CString × Nat) → DsaM Unit
  | [] => pure ()
  | (term, frequency) :: rest => do
      let dp ← tpGetOrCreatePostingList alloc term
      tpAddDocumentToPostingList alloc dp ⟨ctid, frequency, tenantId⟩
      addTerms ctid tenantId rest

/-- `tp_add_document_terms`. -/
def tpAddDocumentTerms (ctid : ItemPointer) (tv : TermVector CString) (tenantId : Nat) :
    DsaM Unit := do
  addTerms alloc ctid tenantId tv.entries
  tpStoreDocumentLength alloc ctid tv.docLength tenantId
  if tenantId ≠ 0 then tpUpdateTenantStats alloc tenantId tv.docLength

/-! ## Giving the blocks back -/

/-- "Free entries array if it exists". -/
def freeEntries (list : TpPostingList) : DsaM Unit :=
  if list.entriesDp ≠ 0 then dsaFree list.entriesDp else pure ()

/-- `tp_free_posting_list`. -/
def tpFreePostingList (dp : Nat) : DsaM Unit :=
  if dp = 0 then pure ()
  else do
    let list ← readPostingList dp
    freeEntries list
    dsaFree dp

/-- `tp_string_table_clear`. -/
def tpStringTableClear : List StringHashEntry → DsaM Unit
  | [] => pure ()
  | entry :: rest => do
      dsaFree entry.termDp
      tpFreePostingList entry.postingList
      setEntries rest
      tpStringTableClear rest

/-- `tp_clear_memtable`, runtime mode. -/
def tpClearMemtable : DsaM Unit := do
  let s ← get
  tpStringTableClear (s.memtable.stringHash.getD [])
  modify fun s => { s with
    memtable := { s.memtable with stringHash := none, docLengths := none, totalPostings := 0 } }

/-! ## Reading -/

/-- `tp_get_posting_list`. -/
def tpGetPostingList (term : CString) : DsaM (Option TpPostingList) := do
  let s ← get
  match s.memtable.stringHash with
  | none => pure none
  | some entries => do
      let found ← tpStringTableLookup entries term
      match found with
      | none => pure none
      | some entry =>
          if entry.postingList = 0 then pure none
          else do
            let list ← readPostingList entry.postingList
            pure (some list)

/-- The entries that a reader of a list loops over. -/
def readEntries (list : TpPostingList) : DsaM (List MemPosting) := do
  if list.docCount = 0 then pure []
  else do
    let slots ← tpGetPostingEntries list
    match (slots.take list.docCount).mapM id with
    | some postings => if postings.length < list.docCount then throw .fault else pure postings
    | none => throw .fault

/-- The postings of a term. -/
def readPostings (term : CString) : DsaM (Option (List MemPosting)) := do
  let found ← tpGetPostingList term
  match found with
  | none => pure none
  | some list => do
      let postings ← readEntries list
      pure (some postings)

end PgTextsearch.Dsa
