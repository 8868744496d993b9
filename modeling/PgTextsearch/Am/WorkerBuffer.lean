import Mathlib.Data.List.Perm.Subperm
import PgTextsearch.State.Recovery

/-!
# Worker buffers of a parallel build (`am/build_parallel.c`)

A worker of a parallel build puts documents into the tables of a buffer; the
leader merges the buffers that are ready into one segment and clears them.

## Main results

* `Holds.putDocument`, `holds_clearWorkerBuffer` — which documents a buffer holds.
* `tpMergeWorkerBuffersToSegment_spec` — the merged segment holds the documents of
  the buffers; nothing is written only when there are none.
* `SegHolds.contains`, `SegHolds.not_mentions` — a segment contains its documents
  and no other CTID.
-/

namespace PgTextsearch.Am

open PgTextsearch.Postgres PgTextsearch.Segment PgTextsearch.State

/-- `TpWorkerBufferStatus`; `TP_BUFFER_DONE` is never written. -/
inductive BufferStatus where
  | empty
  | filling
  | ready
  | done
  deriving DecidableEq, Repr

/-- `TpWorkerMemtableBuffer` with the tables its handles stand for;
`total_postings` is the counter of the tables. -/
structure WorkerBuffer (Term : Type) where
  status : BufferStatus
  tables : Memtable Term
  numDocs : Nat
  totalLen : Nat

/-- A document as `tp_worker_process_document` puts it into a buffer.
`lengthTenantId` is what the tenant field of the document length entry holds: the
function never writes it, so nothing is assumed about it. -/
structure WorkerDoc (Term : Type) where
  ctid : ItemPointer
  terms : TermVector Term
  tenantId : Nat
  lengthTenantId : Nat
  nonempty : terms.entries ≠ []

variable {Value Term : Type}

/-- A buffer as `tp_init_parallel_shared` sets it up. -/
def WorkerBuffer.init : WorkerBuffer Term := ⟨.empty, Memtable.empty, 0, 0⟩

/-- `clear_worker_buffer`: fresh tables, the tenant statistics included. -/
def clearWorkerBuffer (buffer : WorkerBuffer Term) : WorkerBuffer Term :=
  { buffer with tables := Memtable.empty, numDocs := 0, totalLen := 0 }

/-- The early returns of `tp_worker_process_document`: a NULL column, an invalid
CTID and a document without terms put nothing into the buffer. -/
def workerDocument (cfg : Config) (an : Analyzer Value Term) (ctid : ItemPointer)
    (tuple : HeapTuple Value) (lengthTenantId : Nat) : Option (WorkerDoc Term) :=
  match tuple.value with
  | none => none
  | some value =>
      if ctid.isValid then
        if h : (an.insertTerms value).entries = [] then none
        else some ⟨ctid, an.insertTerms value, cfg.tenantIdOf tuple, lengthTenantId, h⟩
      else none

variable [DecidableEq Term]

/-- The rest of `tp_worker_process_document`. -/
def putDocument (buffer : WorkerBuffer Term) (doc : WorkerDoc Term) : WorkerBuffer Term :=
  let tables := addTermEntries doc.ctid doc.tenantId buffer.tables doc.terms.entries
  let tables := tpStoreDocumentLength tables doc.ctid doc.terms.docLength doc.lengthTenantId
  { buffer with
    tables := if doc.tenantId ≠ 0 then tpUpdateTenantStats tables doc.tenantId doc.terms.docLength
      else tables
    numDocs := buffer.numDocs + 1
    totalLen := buffer.totalLen + doc.terms.docLength }

omit [DecidableEq Term] in
/-- `worker_merge_source_init`: a buffer without documents or terms is no source. -/
def workerMergeSourceInit (buffer : WorkerBuffer Term) : Bool :=
  buffer.numDocs ≠ 0 && !buffer.tables.stringTable.entries.isEmpty

omit [DecidableEq Term] in
/-- `build_merged_docmap_from_buffers`. -/
def buildMergedDocmapFromBuffers (sources : List (WorkerBuffer Term)) :
    Except SegmentError DocMapBuilder :=
  (sources.flatMap fun b => b.tables.docLengths.entries).foldlM
    (fun docmap e => tpDocmapAdd docmap e.1 e.2.docLength e.2.tenantId) tpDocmapCreate

/-- One posting of the streaming pass: the document id comes from the document
map, and the frequency is cut to 16 bits. -/
def convertBufferPosting (docmap : DocMapBuilder) (p : MemPosting) :
    Except SegmentError SegPosting :=
  match docmap.ctidToId.find? (·.ctid = p.ctid) with
  | none => .error (.ctidNotInDocmap p.ctid)
  | some e => .ok ⟨p.ctid, p.frequency % 2 ^ 16, encodeFieldnorm e.docLength⟩

/-- The N-way merge of the sorted dictionaries: every term once. -/
def mergedBufferTerms (sources : List (WorkerBuffer Term)) : List Term :=
  (sources.flatMap fun b => b.tables.stringTable.entries.map Sigma.fst).dedup

/-- `collect_buffer_term_postings` and the conversion to block format. -/
def writeMergedTerm (docmap : DocMapBuilder) (sources : List (WorkerBuffer Term)) (term : Term) :
    Except SegmentError (Term × List SegPosting) := do
  let postings ←
    (sources.flatMap fun b => b.tables.postings term).mapM (convertBufferPosting docmap)
  return (term, postings)

/-- `tp_merge_worker_buffers_to_segment`; `none` is `InvalidBlockNumber`. -/
def tpMergeWorkerBuffersToSegment (buffers : List (WorkerBuffer Term)) :
    Except SegmentError (Option (SegmentContents Term)) :=
  let sources := buffers.filter workerMergeSourceInit
  if sources.isEmpty then .ok none
  else do
    let docmap ← buildMergedDocmapFromBuffers sources
    if (mergedBufferTerms sources).isEmpty then return none
    let terms ← (mergedBufferTerms sources).mapM (writeMergedTerm docmap sources)
    return some ⟨terms, docmap.ctidToId.map fun e =>
      ⟨e.ctid, encodeFieldnorm e.docLength, e.tenantId⟩⟩

/-! ## The documents of a buffer -/

/-- The postings of the document for a term. -/
def WorkerDoc.postings (doc : WorkerDoc Term) (term : Term) : List MemPosting :=
  documentPostings doc.ctid doc.terms.entries doc.tenantId term

/-- The tables hold the documents. -/
structure TablesHold (tables : Memtable Term) (docs : List (WorkerDoc Term)) : Prop where
  postings : ∀ term, tables.postings term = docs.flatMap fun d => d.postings term
  lengths : (tables.docLengths.entries.map fun e => (e.1, e.2.docLength, e.2.tenantId)).Perm
    (docs.map fun d => (d.ctid, d.terms.docLength, d.lengthTenantId))

/-- The buffer holds the documents. -/
structure Holds (buffer : WorkerBuffer Term) (docs : List (WorkerDoc Term)) : Prop
    extends TablesHold buffer.tables docs where
  numDocs : buffer.numDocs = docs.length
  totalLen : buffer.totalLen = (docs.map fun d => d.terms.docLength).sum

theorem holds_init : Holds (WorkerBuffer.init : WorkerBuffer Term) [] where
  postings := fun term => by simp [WorkerBuffer.init]
  lengths := List.Perm.nil
  numDocs := rfl
  totalLen := rfl

theorem holds_clearWorkerBuffer (buffer : WorkerBuffer Term) :
    Holds (clearWorkerBuffer buffer) [] where
  postings := fun term => by simp [clearWorkerBuffer]
  lengths := List.Perm.nil
  numDocs := rfl
  totalLen := rfl

theorem holds_setStatus {buffer : WorkerBuffer Term} {docs : List (WorkerDoc Term)}
    (h : Holds buffer docs) (status : BufferStatus) : Holds { buffer with status := status } docs :=
  ⟨h.toTablesHold, h.numDocs, h.totalLen⟩

theorem tablesHold_empty : TablesHold (Memtable.empty : Memtable Term) [] where
  postings := fun term => by simp
  lengths := List.Perm.nil

/-- Adding a document whose CTID is new to the tables. -/
theorem TablesHold.add {tables tables' : Memtable Term} {docs : List (WorkerDoc Term)}
    (h : TablesHold tables docs) {doc : WorkerDoc Term}
    (hnew : doc.ctid ∉ docs.map WorkerDoc.ctid)
    (hpostings : ∀ term, tables'.postings term = tables.postings term ++ doc.postings term)
    (hlengths : tables'.docLengths =
      tables.docLengths.insert doc.ctid ⟨doc.terms.docLength, doc.lengthTenantId⟩) :
    TablesHold tables' (docs ++ [doc]) where
  postings := fun term => by
    rw [hpostings, h.postings, List.flatMap_append, List.flatMap_singleton]
  lengths := by
    have hkeys : doc.ctid ∉ tables.docLengths := by
      intro hmem
      obtain ⟨e, he, heq⟩ := List.mem_map.1 hmem
      have hin := h.lengths.subset (List.mem_map.2 ⟨e, he, rfl⟩)
      obtain ⟨d, hd, hde⟩ := List.mem_map.1 hin
      exact hnew (List.mem_map.2 ⟨d, hd, (congrArg Prod.fst hde).trans heq⟩)
    rw [hlengths, AList.entries_insert_of_notMem hkeys, List.map_cons, List.map_append]
    refine (List.Perm.cons _ h.lengths).trans ?_
    exact (List.perm_append_singleton _ _).symm

theorem postings_putDocument (buffer : WorkerBuffer Term) (doc : WorkerDoc Term) (term : Term) :
    (putDocument buffer doc).tables.postings term =
      buffer.tables.postings term ++ doc.postings term := by
  rw [WorkerDoc.postings, ← postings_addTermEntries]
  simp only [putDocument]
  split <;> rfl

theorem docLengths_putDocument (buffer : WorkerBuffer Term) (doc : WorkerDoc Term) :
    (putDocument buffer doc).tables.docLengths =
      buffer.tables.docLengths.insert doc.ctid ⟨doc.terms.docLength, doc.lengthTenantId⟩ := by
  rw [← docLengths_addTermEntries doc.ctid doc.tenantId buffer.tables doc.terms.entries]
  simp only [putDocument]
  split <;> rfl

/-- **Putting a document** whose CTID is new to the buffer. -/
theorem Holds.putDocument {buffer : WorkerBuffer Term} {docs : List (WorkerDoc Term)}
    (h : Holds buffer docs) {doc : WorkerDoc Term} (hnew : doc.ctid ∉ docs.map WorkerDoc.ctid) :
    Holds (putDocument buffer doc) (docs ++ [doc]) where
  toTablesHold := h.toTablesHold.add hnew (postings_putDocument buffer doc)
    (docLengths_putDocument buffer doc)
  numDocs := by simp [Am.putDocument, h.numDocs]
  totalLen := by simp [Am.putDocument, h.totalLen]

/-- A document has a posting. -/
theorem WorkerDoc.exists_postings_ne_nil (doc : WorkerDoc Term) :
    ∃ term, doc.postings term ≠ [] := by
  obtain ⟨e, rest, he⟩ := List.exists_cons_of_ne_nil doc.nonempty
  refine ⟨e.1, List.ne_nil_of_mem (a := ⟨doc.ctid, e.2, doc.tenantId⟩) ?_⟩
  exact mem_documentPostings.2 ⟨e.2, by rw [he]; exact List.mem_cons_self, rfl⟩

omit [DecidableEq Term] in
theorem mem_terms_of_postings_ne_nil [DecidableEq Term] {tables : Memtable Term} {term : Term}
    (h : tables.postings term ≠ []) : term ∈ tables.stringTable.entries.map Sigma.fst := by
  by_contra hmem
  apply h
  have hnone : tables.stringTable.lookup term = none := AList.lookup_eq_none.2 hmem
  rw [Memtable.postings, hnone]
  rfl

/-- A buffer that is no merge source holds no document. -/
theorem Holds.eq_nil_of_not_source {buffer : WorkerBuffer Term} {docs : List (WorkerDoc Term)}
    (h : Holds buffer docs) (hsrc : workerMergeSourceInit buffer = false) : docs = [] := by
  rw [workerMergeSourceInit, Bool.and_eq_false_iff] at hsrc
  rcases hsrc with hnum | hterms
  · exact List.length_eq_zero_iff.1 (h.numDocs.symm.trans (by simpa using hnum))
  · cases docs with
    | nil => rfl
    | cons d rest =>
        obtain ⟨term, hne⟩ := d.exists_postings_ne_nil
        have hpost : buffer.tables.postings term ≠ [] := by
          rw [h.postings, List.flatMap_cons]
          exact List.append_ne_nil_of_left_ne_nil hne _
        have hmem := mem_terms_of_postings_ne_nil hpost
        have hempty : buffer.tables.stringTable.entries = [] := by simpa using hterms
        rw [hempty] at hmem
        cases hmem

/-! ## The merged segment -/

/-- The postings of the document in a segment. -/
def WorkerDoc.segPostings (doc : WorkerDoc Term) (term : Term) : List SegPosting :=
  (doc.postings term).map fun p =>
    ⟨p.ctid, p.frequency % 2 ^ 16, encodeFieldnorm doc.terms.docLength⟩

omit [DecidableEq Term] in
/-- The row of the document in a segment's document map. -/
def WorkerDoc.segDoc (doc : WorkerDoc Term) : SegDoc :=
  ⟨doc.ctid, encodeFieldnorm doc.terms.docLength, doc.lengthTenantId⟩

omit [DecidableEq Term] in
@[simp] theorem WorkerDoc.segDoc_ctid (doc : WorkerDoc Term) : doc.segDoc.ctid = doc.ctid := rfl

/-- The segment holds the documents and nothing else. -/
structure SegHolds (seg : SegmentContents Term) (docs : List (WorkerDoc Term)) : Prop where
  rows : seg.docs.Perm (docs.map WorkerDoc.segDoc)
  postings : ∀ term, seg.postings term = docs.flatMap fun d => d.segPostings term

private theorem mapM_eq_ok_map {ε α β : Type} {f : α → Except ε β} {g : α → β} {xs : List α}
    (h : ∀ x ∈ xs, f x = .ok (g x)) : xs.mapM f = .ok (xs.map g) := by
  induction xs with
  | nil => rfl
  | cons x xs ih =>
      rw [List.mapM_cons, h x List.mem_cons_self, ih fun y hy => h y (List.mem_cons_of_mem _ hy)]
      rfl

/-- The document map of the sources has the length of each of their documents. -/
private theorem convertBufferPosting_eq {docmap : DocMapBuilder} {docs : List (WorkerDoc Term)}
    (hrows : (docmap.ctidToId.map docmapRow).Perm
      (docs.map fun d => (d.ctid, d.terms.docLength, d.lengthTenantId)))
    (hnodup : (docs.map WorkerDoc.ctid).Nodup) {d : WorkerDoc Term} (hd : d ∈ docs) {term : Term}
    {p : MemPosting} (hp : p ∈ d.postings term) :
    convertBufferPosting docmap p =
      .ok ⟨p.ctid, p.frequency % 2 ^ 16, encodeFieldnorm d.terms.docLength⟩ := by
  have hctid : p.ctid = d.ctid := by
    obtain ⟨f, -, rfl⟩ := mem_documentPostings.1 hp
    rfl
  obtain ⟨e, he, hrow⟩ := List.mem_map.1
    (hrows.symm.subset (List.mem_map.2 ⟨d, hd, rfl⟩))
  unfold convertBufferPosting
  cases hfind : docmap.ctidToId.find? (·.ctid = p.ctid) with
  | none =>
      have hne : e.ctid ≠ p.ctid := by simpa using List.find?_eq_none.1 hfind e he
      exact absurd ((congrArg Prod.fst hrow).trans hctid.symm) hne
  | some e' =>
      have heq : e'.ctid = p.ctid := by simpa using List.find?_some hfind
      obtain ⟨d', hd', hrow'⟩ := List.mem_map.1
        (hrows.subset (List.mem_map.2 ⟨e', List.mem_of_find?_eq_some hfind, rfl⟩))
      have hsame : d' = d := by
        apply List.inj_on_of_nodup_map hnodup hd' hd
        exact (congrArg Prod.fst hrow').trans (heq.trans hctid)
      have hlen : d.terms.docLength = e'.docLength := by
        rw [hsame] at hrow'
        exact congrArg (fun r => r.2.1) hrow'
      rw [hlen]

private theorem mapM_flatMap_postings {docmap : DocMapBuilder} {docs : List (WorkerDoc Term)}
    (term : Term) (h : ∀ d ∈ docs, ∀ p ∈ d.postings term, convertBufferPosting docmap p =
      .ok ⟨p.ctid, p.frequency % 2 ^ 16, encodeFieldnorm d.terms.docLength⟩) :
    (docs.flatMap fun d => d.postings term).mapM (convertBufferPosting docmap) =
      .ok (docs.flatMap fun d => d.segPostings term) := by
  induction docs with
  | nil => rfl
  | cons d docs ih =>
      rw [List.flatMap_cons, List.mapM_append,
        mapM_eq_ok_map fun p hp => h d List.mem_cons_self p hp,
        ih fun d' hd' => h d' (List.mem_cons_of_mem _ hd')]
      rfl

private theorem postings_flatMap_of_holds {sources : List (WorkerBuffer Term)}
    {docs : List (List (WorkerDoc Term))} (h : List.Forall₂ Holds sources docs) (term : Term) :
    (sources.flatMap fun b => b.tables.postings term) =
      docs.flatten.flatMap fun d => d.postings term := by
  induction h with
  | nil => rfl
  | cons hb _ ih =>
      rw [List.flatMap_cons, hb.postings, ih, List.flatten_cons, List.flatMap_append]

private theorem lengths_flatMap_of_holds {sources : List (WorkerBuffer Term)}
    {docs : List (List (WorkerDoc Term))} (h : List.Forall₂ Holds sources docs) :
    ((sources.flatMap fun b => b.tables.docLengths.entries).map fun e =>
      (e.1, e.2.docLength, e.2.tenantId)).Perm
      (docs.flatten.map fun d => (d.ctid, d.terms.docLength, d.lengthTenantId)) := by
  induction h with
  | nil => exact List.Perm.nil
  | cons hb _ ih =>
      rw [List.flatMap_cons, List.map_append, List.flatten_cons, List.map_append]
      exact hb.lengths.append ih

/-- The buffers that are no sources hold nothing. -/
private theorem forall₂_sources {buffers : List (WorkerBuffer Term)}
    {docs : List (List (WorkerDoc Term))} (h : List.Forall₂ Holds buffers docs) :
    ∃ docs', List.Forall₂ Holds (buffers.filter workerMergeSourceInit) docs' ∧
      docs'.flatten = docs.flatten := by
  induction h with
  | nil => exact ⟨[], List.Forall₂.nil, rfl⟩
  | @cons b d bs ds hb _ ih =>
      obtain ⟨docs', hdocs, hflat⟩ := ih
      cases hsrc : workerMergeSourceInit b with
      | true =>
          rw [List.filter_cons_of_pos hsrc]
          exact ⟨d :: docs', List.Forall₂.cons hb hdocs, by rw [List.flatten_cons, hflat,
            List.flatten_cons]⟩
      | false =>
          rw [List.filter_cons_of_neg (by simp [hsrc])]
          refine ⟨docs', hdocs, ?_⟩
          rw [hflat, List.flatten_cons, hb.eq_nil_of_not_source hsrc, List.nil_append]

/-- The row a document length entry adds to a document map. -/
private def docLengthRow (e : Sigma fun _ : ItemPointer => DocLengthEntry) :
    ItemPointer × Nat × Nat :=
  (e.1, e.2.docLength, e.2.tenantId)

/-- The document map has the documents of the sources. -/
private theorem docmapRows_of_sources {sources : List (WorkerBuffer Term)}
    {docs : List (List (WorkerDoc Term))} (hsources : List.Forall₂ Holds sources docs)
    (hnodup : (docs.flatten.map WorkerDoc.ctid).Nodup) {docmap : DocMapBuilder}
    (hdocmap : buildMergedDocmapFromBuffers sources = .ok docmap) :
    (docmap.ctidToId.map docmapRow).Perm
      (docs.flatten.map fun d => (d.ctid, d.terms.docLength, d.lengthTenantId)) := by
  have hlengths := lengths_flatMap_of_holds hsources
  have hdistinct := (hlengths.map Prod.fst).symm.nodup (by simpa [Function.comp_def] using hnodup)
  have hadded := tpDocmapAdd_rows docLengthRow hdocmap
    (by simpa [tpDocmapCreate, docLengthRow, Function.comp_def] using hdistinct)
  rw [hadded.1]
  exact hlengths

/-- The streaming pass finds every posting in the document map. -/
private theorem mapM_writeMergedTerm {sources : List (WorkerBuffer Term)}
    {docs : List (List (WorkerDoc Term))} (hsources : List.Forall₂ Holds sources docs)
    (hnodup : (docs.flatten.map WorkerDoc.ctid).Nodup) {docmap : DocMapBuilder}
    (hdocmap : buildMergedDocmapFromBuffers sources = .ok docmap) :
    (mergedBufferTerms sources).mapM (writeMergedTerm docmap sources) =
      .ok ((mergedBufferTerms sources).map fun term =>
        (term, docs.flatten.flatMap fun d => d.segPostings term)) := by
  have hrows := docmapRows_of_sources hsources hnodup hdocmap
  apply mapM_eq_ok_map
  intro term _
  rw [writeMergedTerm, postings_flatMap_of_holds hsources,
    mapM_flatMap_postings term fun d hd p hp => convertBufferPosting_eq hrows hnodup hd hp]
  rfl

/-- **The merge succeeds** for fewer than `UINT32_MAX` documents. -/
theorem tpMergeWorkerBuffersToSegment_ok {buffers : List (WorkerBuffer Term)}
    {docs : List (List (WorkerDoc Term))} (hold : List.Forall₂ Holds buffers docs)
    (hnodup : (docs.flatten.map WorkerDoc.ctid).Nodup) (hcount : docs.flatten.length < uint32Max) :
    ∃ result, tpMergeWorkerBuffersToSegment buffers = .ok result := by
  obtain ⟨docs', hsources, hflat⟩ := forall₂_sources hold
  rw [← hflat] at hnodup hcount
  simp only [tpMergeWorkerBuffersToSegment]
  generalize buffers.filter workerMergeSourceInit = sources at hsources ⊢
  have hlength := (lengths_flatMap_of_holds hsources).length_eq
  rw [List.length_map, List.length_map] at hlength
  obtain ⟨docmap, hdocmap⟩ := tpDocmapAdd_rows_ok docLengthRow
    (sources.flatMap fun b => b.tables.docLengths.entries) tpDocmapCreate (by
      rw [hlength]
      simpa [tpDocmapCreate] using hcount)
  have hbuilt : buildMergedDocmapFromBuffers sources = .ok docmap := hdocmap
  have hwrite := mapM_writeMergedTerm hsources hnodup hbuilt
  split
  · exact ⟨none, rfl⟩
  · rw [hbuilt]
    simp only [bind, Except.bind]
    split
    · exact ⟨none, rfl⟩
    · rw [hwrite]
      exact ⟨_, rfl⟩

/-- **The merge of worker buffers** writes a segment with the documents of the
buffers; it writes none only when the buffers hold no document. -/
theorem tpMergeWorkerBuffersToSegment_spec {buffers : List (WorkerBuffer Term)}
    {docs : List (List (WorkerDoc Term))} (hold : List.Forall₂ Holds buffers docs)
    (hnodup : (docs.flatten.map WorkerDoc.ctid).Nodup) {result : Option (SegmentContents Term)}
    (h : tpMergeWorkerBuffersToSegment buffers = .ok result) :
    (result = none → docs.flatten = []) ∧ ∀ seg, result = some seg → SegHolds seg docs.flatten := by
  obtain ⟨docs', hsources, hflat⟩ := forall₂_sources hold
  rw [← hflat] at hnodup ⊢
  simp only [tpMergeWorkerBuffersToSegment] at h
  generalize buffers.filter workerMergeSourceInit = sources at h hsources
  have hterms : ∀ term, (docs'.flatten.flatMap fun d => d.postings term) ≠ [] →
      term ∈ mergedBufferTerms sources := by
    intro term hne
    rw [← postings_flatMap_of_holds hsources] at hne
    obtain ⟨p, hp⟩ := List.exists_mem_of_ne_nil _ hne
    obtain ⟨b, hb, hpb⟩ := List.mem_flatMap.1 hp
    exact List.mem_dedup.2 (List.mem_flatMap.2
      ⟨b, hb, mem_terms_of_postings_ne_nil (List.ne_nil_of_mem hpb)⟩)
  split at h
  case isTrue hnil =>
    cases h
    rw [List.isEmpty_iff.1 hnil] at hsources
    cases hsources
    exact ⟨fun _ => rfl, fun _ hseg => nomatch hseg⟩
  case isFalse =>
    obtain ⟨docmap, hdocmap, h⟩ := bind_eq_ok h
    have hrows := docmapRows_of_sources hsources hnodup hdocmap
    split at h
    case isTrue hnoterms =>
      cases h
      refine ⟨fun _ => ?_, fun _ hseg => nomatch hseg⟩
      cases hdocs : docs'.flatten with
      | nil => rfl
      | cons d rest =>
          obtain ⟨term, hne⟩ := d.exists_postings_ne_nil
          have hmem := hterms term (by
            rw [hdocs, List.flatMap_cons]
            exact List.append_ne_nil_of_left_ne_nil hne _)
          rw [List.isEmpty_iff.1 hnoterms] at hmem
          cases hmem
    case isFalse =>
      have hwrite := mapM_writeMergedTerm hsources hnodup hdocmap
      rw [hwrite] at h
      cases h
      refine ⟨fun hnone => (nomatch hnone), fun seg hseg => ?_⟩
      cases hseg
      constructor
      · have := hrows.map fun r : ItemPointer × Nat × Nat =>
          (⟨r.1, encodeFieldnorm r.2.1, r.2.2⟩ : SegDoc)
        rw [List.map_map, List.map_map] at this
        exact this
      · intro term
        rw [SegmentContents.postings, lookup_map_pair]
        split
        · rfl
        case isFalse hmem =>
          have hnil := not_not.1 (mt (hterms term) hmem)
          symm
          rw [List.flatMap_eq_nil_iff] at hnil
          rw [Option.getD_none, List.flatMap_eq_nil_iff]
          intro d hd
          rw [WorkerDoc.segPostings, hnil d hd, List.map_nil]

/-! ## Containing a document -/

/-- The segment contains the document: one row with its fieldnorm, and for each of
its terms one posting with its frequency. -/
structure Contains (seg : SegmentContents Term) (doc : WorkerDoc Term) : Prop where
  row : seg.docs.filter (fun d => d.ctid = doc.ctid) = [doc.segDoc]
  posting : ∀ term frequency, (term, frequency) ∈ doc.terms.entries →
    (seg.postings term).filter (fun q => q.ctid = doc.ctid) =
      [⟨doc.ctid, frequency % 2 ^ 16, encodeFieldnorm doc.terms.docLength⟩]

omit [DecidableEq Term] in
theorem ctid_of_mem_segPostings [DecidableEq Term] {doc : WorkerDoc Term} {term : Term}
    {q : SegPosting} (h : q ∈ doc.segPostings term) : q.ctid = doc.ctid := by
  obtain ⟨p, hp, rfl⟩ := List.mem_map.1 h
  obtain ⟨f, -, rfl⟩ := mem_documentPostings.1 hp
  rfl

private theorem segPostings_eq_singleton {doc : WorkerDoc Term} {term : Term} {frequency : Nat}
    (h : (term, frequency) ∈ doc.terms.entries) : doc.segPostings term =
      [⟨doc.ctid, frequency % 2 ^ 16, encodeFieldnorm doc.terms.docLength⟩] := by
  have hone : (doc.postings term).length = 1 :=
    length_documentPostings (List.mem_map.2 ⟨_, h, rfl⟩) doc.ctid doc.tenantId
  obtain ⟨p, hp⟩ := List.length_eq_one_iff.1 hone
  have hmem : (⟨doc.ctid, frequency, doc.tenantId⟩ : MemPosting) ∈ doc.postings term :=
    mem_documentPostings.2 ⟨frequency, h, rfl⟩
  rw [hp, List.mem_singleton] at hmem
  rw [WorkerDoc.segPostings, hp, ← hmem]
  rfl

/-- **A segment contains the documents it holds.** -/
theorem SegHolds.contains {seg : SegmentContents Term} {docs : List (WorkerDoc Term)}
    (h : SegHolds seg docs) (hnodup : (docs.map WorkerDoc.ctid).Nodup) {doc : WorkerDoc Term}
    (hmem : doc ∈ docs) : Contains seg doc := by
  obtain ⟨before, after, rfl⟩ := List.append_of_mem hmem
  have hother : ∀ d ∈ before ++ after, d.ctid ≠ doc.ctid := by
    intro d hd heq
    rw [List.map_append, List.map_cons] at hnodup
    have hnot := (List.nodup_cons.1 (List.nodup_middle.1 hnodup)).1
    rw [← List.map_append] at hnot
    exact hnot (List.mem_map.2 ⟨d, hd, heq⟩)
  constructor
  · have hperm := h.rows.filter (fun d => d.ctid = doc.ctid)
    have hnil : ∀ part ⊆ before ++ after,
        (part.map WorkerDoc.segDoc).filter (fun d => d.ctid = doc.ctid) = [] := by
      intro part hpart
      rw [List.filter_eq_nil_iff]
      intro row hrow
      obtain ⟨d, hd, rfl⟩ := List.mem_map.1 hrow
      simp [hother d (hpart hd)]
    rw [List.map_append, List.map_cons, List.filter_append, List.filter_cons_of_pos (by
      simp [WorkerDoc.segDoc]), hnil before (List.subset_append_left _ _),
      hnil after (List.subset_append_right _ _)] at hperm
    exact List.perm_singleton.1 hperm
  · intro term frequency hentry
    have hnil : ∀ part ⊆ before ++ after,
        (part.flatMap fun d => d.segPostings term).filter (fun q => q.ctid = doc.ctid) = [] := by
      intro part hpart
      rw [List.filter_eq_nil_iff]
      intro q hq
      obtain ⟨d, hd, hqd⟩ := List.mem_flatMap.1 hq
      rw [ctid_of_mem_segPostings hqd]
      simpa using hother d (hpart hd)
    rw [h.postings, List.flatMap_append, List.flatMap_cons, List.filter_append, List.filter_append,
      hnil before (List.subset_append_left _ _), hnil after (List.subset_append_right _ _),
      segPostings_eq_singleton hentry]
    simp

/-- A segment mentions only the documents it holds. -/
theorem SegHolds.not_mentions {seg : SegmentContents Term} {docs : List (WorkerDoc Term)}
    (h : SegHolds seg docs) {ctid : ItemPointer} (hnot : ctid ∉ docs.map WorkerDoc.ctid) :
    ¬ SegMentions seg ctid := by
  rintro (⟨row, hrow, rfl⟩ | ⟨term, q, hq, rfl⟩)
  · obtain ⟨d, hd, rfl⟩ := List.mem_map.1 (h.rows.subset hrow)
    exact hnot (List.mem_map.2 ⟨d, hd, rfl⟩)
  · rw [h.postings] at hq
    obtain ⟨d, hd, hqd⟩ := List.mem_flatMap.1 hq
    exact hnot (List.mem_map.2 ⟨d, hd, (ctid_of_mem_segPostings hqd).symm⟩)

end PgTextsearch.Am
