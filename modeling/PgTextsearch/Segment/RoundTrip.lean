import PgTextsearch.Segment.CompressedReads
import PgTextsearch.Segment.Stored

/-!
# Segments read back (`segment/segment.c`, `segment/scan.c`)

What the segment of a memtable says about a term: the pages are opened, the term is looked up,
its postings are iterated until exhaustion, and their document ids are mapped to CTIDs.

## Main results

* `reports_found_iff`, `reports_missing_iff` — what a file reports about a term.
* `write_read_round_trip_iff` — the segment reports the memtable, compressed or not, exactly when
  the quantised lengths fit into 16 bits and compressed blocks have room behind them.
-/

namespace PgTextsearch.Segment.File

open PgTextsearch.Postgres PgTextsearch.Verified

/-! ## Reports -/

/-- A posting with the CTID in place of the document id. -/
structure PostingRow where
  ctid : ItemPointer
  frequency : Nat
  docLength : Nat
  deriving DecidableEq, Repr

/-- What is reported about a term: not found, or its document frequency and its postings. -/
abbrev Report := Option (Nat × List PostingRow)

/-- A posting of the iterator with its document id mapped to a CTID. -/
def rowOf (reader : FileReader) (p : SegmentPosting) : Except ReadError PostingRow := do
  let ctid ← tpSegmentLookupCtid reader p.docId
  return ⟨ctid, p.frequency, p.docLength⟩

/-- Opening the pages, looking the term up and iterating until exhaustion reports this. -/
def Reports (pages : List (List (Fin 256))) (term : CString) (report : Report) : Prop :=
  ∃ reader, tpSegmentOpen pages = .ok reader ∧
    match report with
    | none => tpSegmentPostingIteratorInit reader term = .ok none
    | some (docFreq, rows) => ∃ it out,
        tpSegmentPostingIteratorInit reader term = .ok (some it) ∧
          it.dictEntry.docFreq = docFreq ∧ Yields it out ∧ out.mapM (rowOf reader) = .ok rows

/-- The length of a document, as its fieldnorm has it. -/
def quantisedLength (mt : Memtable CString) (ctid : ItemPointer) : Nat :=
  decodeFieldnorm
    (encodeFieldnorm (((mt.docLengths.lookup ctid).map DocLengthEntry.docLength).getD 0))

/-- The postings of a term with the quantised lengths of their documents. -/
def quantisedPostings (mt : Memtable CString) (term : CString) : List PostingRow :=
  (mt.postings term).map fun p => ⟨p.ctid, p.frequency, quantisedLength mt p.ctid⟩

/-- The report agrees with the memtable: the postings of the term, each of them once, and their
number; a term that the memtable does not have is not found. -/
def Faithful (mt : Memtable CString) (term : CString) : Report → Prop
  | none => mt.stringTable.lookup term = none
  | some (docFreq, rows) => (mt.stringTable.lookup term).isSome ∧
      docFreq = (mt.postings term).length ∧ rows.Perm (quantisedPostings mt term)

/-- **The round trip.**  Unless the memtable has no terms, its segment is written, and reports the
memtable; the reports do not depend on compression.  Without terms, no segment is written. -/
def RoundTrips (hs : HashSeq) (qs : Qsort) (hasTenantData : Bool) (mt : Memtable CString) : Prop :=
  ∃ report : CString → Report, (∀ term, Faithful mt term (report term)) ∧
    (mt.stringTable.entries ≠ [] → ∀ compress env, ∃ pages,
      tpWriteSegment hs qs compress hasTenantData env mt = .ok (some pages) ∧
        ∀ term, Reports pages term (report term))

/-- A memtable within the field widths of the on-disk structures.  Its document lengths cover its
postings, as `tp_add_document_terms` keeps them. -/
structure WithinWidths (hs : HashSeq) (qs : Qsort) (hasTenantData : Bool)
    (mt : Memtable CString) : Prop where
  covered : mt.Covered
  documents : mt.docLengths.entries.length < uint32Max
  ctids : ∀ e ∈ mt.docLengths.entries, e.1.blkid < 2 ^ 32 ∧ e.1.posid < 2 ^ 16
  frequencies : ∀ term, ∀ p ∈ mt.postings term, p.frequency < 2 ^ 16
  blocks : ∀ term, (mt.postings term).length ≤ 65535 * tpBlockSize
  file : ∀ compress f, fileParts hs qs compress hasTenantData mt = .ok (some f) →
    f.numPages * segmentDataPerPage ≤ 2 ^ 32

/-! ## What a file reports -/

/-- The row of a stored posting; the length has 16 bits in the output of the iterator. -/
def Parts.row (f : Parts) (p : BlockPosting) : PostingRow :=
  ⟨f.ctids.getD p.docId ItemPointer.invalid, p.frequency, decodeFieldnorm p.fieldnorm % 65536⟩

section Reading

variable {f : Parts} {pages : List (List (Fin 256))} {reader : FileReader}
variable {bytes : List (Fin 256)} (hopen : tpSegmentOpen pages = .ok reader)
variable (h : Reads reader f bytes) (hfits : f.Fits)
include h hfits

/-- Mapping document ids to CTIDs. -/
theorem mapM_rowOf {ps : List BlockPosting} (hids : ∀ p ∈ ps, p.docId < f.ctids.length) :
    (ps.map BlockPosting.output).mapM (rowOf reader) = .ok (ps.map f.row) := by
  induction ps with
  | nil => rfl
  | cons p ps ih =>
      have hp := hids p List.mem_cons_self
      have hctid := h.lookupCtid_eq hfits (List.getElem?_eq_getElem hp)
      have hrow : rowOf reader p.output = .ok (f.row p) := by
        unfold rowOf
        rw [show p.output.docId = p.docId from rfl, bind_of_eq_ok hctid, Parts.row,
          List.getD_eq_getElem _ _ hp]
        rfl
      rw [List.map_cons, List.mapM_cons, bind_of_eq_ok hrow,
        bind_of_eq_ok (ih fun q hq => hids q (List.mem_cons_of_mem p hq))]
      rfl

include hopen

/-- **A term of the file** is reported with its postings, provided that its blocks have room. -/
theorem reports_found_iff {term : CString} {n : Nat} {e : DictEntry}
    (ht : f.terms[n]? = some term) (he : f.entries[n]? = some e)
    (hids : ∀ p ∈ e.postings, p.docId < f.ctids.length) (report : Report) :
    Reports pages term report ↔ (∀ j < e.blocks.length, HasRoom f (Reads.blockIndex f n j)) ∧
      report = some (e.docFreq, e.postings.map f.row) := by
  have hinit := h.init_found hfits ht he
  unfold Reports
  constructor
  · rintro ⟨reader', hreader, hreport⟩
    cases hopen.symm.trans hreader
    cases report with
    | none => cases hinit.symm.trans hreport
    | some found =>
        obtain ⟨it, out, hit, hfreq, hyields, hrows⟩ := hreport
        cases hinit.symm.trans hit
        obtain ⟨hroom, rfl⟩ := (yields_term h hfits he out).1 hyields
        rw [mapM_rowOf h hfits hids] at hrows
        refine ⟨hroom, congrArg some (Prod.ext hfreq.symm ?_)⟩
        exact (Except.ok.inj hrows).symm
  · rintro ⟨hroom, rfl⟩
    exact ⟨reader, hopen, _, _, hinit, rfl, (yields_term h hfits he _).2 ⟨hroom, rfl⟩,
      mapM_rowOf h hfits hids⟩

/-- **Any other term** is reported as not found. -/
theorem reports_missing_iff {term : CString} (hterm : term ∉ f.terms) (report : Report) :
    Reports pages term report ↔ report = none := by
  have hinit := h.init_none hfits hterm
  unfold Reports
  constructor
  · rintro ⟨reader', hreader, hreport⟩
    cases hopen.symm.trans hreader
    cases report with
    | none => rfl
    | some found =>
        obtain ⟨it, out, hit, -⟩ := hreport
        cases hinit.symm.trans hit
  · rintro rfl
    exact ⟨reader, hopen, hinit⟩

end Reading

/-! ## What the writer converts -/

/-- The stored posting stands for the posting of the memtable. -/
structure StandsFor (mt : Memtable CString) (docmap : DocMapBuilder) (p : MemPosting)
    (q : BlockPosting) : Prop where
  ctid_eq : docmap.ctids[q.docId]? = some p.ctid
  docId_lt : q.docId < uint32Max
  frequency_eq : q.frequency = p.frequency
  frequency_lt : q.frequency < 2 ^ 16
  length_eq : decodeFieldnorm q.fieldnorm = quantisedLength mt p.ctid

/-- The document map and the entries of a memtable, before they become a file. -/
structure Converted (hs : HashSeq) (qs : Qsort) (hasTenantData : Bool) (mt : Memtable CString)
    (docmap : DocMapBuilder) (order : List (ItemPointer × Nat × Nat))
    (entries : List DictEntry) : Prop where
  docmap_eq : buildDocmapFromMemtable hs qs mt = .ok docmap
  order_perm : order.Perm
    ((hs.scan mt.docLengths.entries).map fun e => (e.1, e.2.docLength, e.2.tenantId))
  numbers : Numbers docmap order
  entries_eq : termEntries qs docmap hasTenantData (tpBuildDictionary hs qs mt) = .ok entries

/-! ### Dictionary -/

section Dictionary

variable (hs : HashSeq) (qs : Qsort) {mt : Memtable CString}

theorem tpBuildDictionary_eq_nil (hterms : mt.stringTable.entries = []) :
    tpBuildDictionary hs qs mt = [] := by
  have hperm := tpBuildDictionary_perm hs qs mt
  rw [hterms, List.map_nil] at hperm
  exact hperm.eq_nil

/-- A term of the memtable has a place in the dictionary. -/
theorem exists_getElem?_of_lookup {term : CString} (hterm : mt.stringTable.lookup term ≠ none) :
    ∃ (n : Nat) (t : TermInfo), (tpBuildDictionary hs qs mt)[n]? = some t ∧ t.term = term := by
  obtain ⟨postings, hpostings⟩ := Option.ne_none_iff_exists'.1 hterm
  have hmem : (⟨term, postings⟩ : TermInfo) ∈ tpBuildDictionary hs qs mt :=
    (mem_tpBuildDictionary hs qs mt).2 hpostings
  obtain ⟨n, hn⟩ := List.mem_iff_getElem?.1 hmem
  exact ⟨n, _, hn, rfl⟩

omit hs qs in
theorem lookup_eq_none (hterms : mt.stringTable.entries = []) (term : CString) :
    mt.stringTable.lookup term = none := by
  rw [AList.lookup_eq_none, AList.mem_keys]
  show term ∉ mt.stringTable.entries.keys
  rw [hterms]
  exact List.not_mem_nil

/-- The postings of a term of the dictionary. -/
theorem postings_of_mem {t : TermInfo} (ht : t ∈ tpBuildDictionary hs qs mt) :
    mt.postings t.term = t.postings := by
  rw [Memtable.postings, (mem_tpBuildDictionary hs qs mt).1 ht]
  rfl

end Dictionary

/-! ### Postings -/

section Converting

variable {hs : HashSeq} {qs : Qsort} {hasTenantData : Bool} {mt : Memtable CString}
variable (hwidths : WithinWidths hs qs hasTenantData mt)
variable {docmap : DocMapBuilder} {order : List (ItemPointer × Nat × Nat)}
variable (hperm : order.Perm
  ((hs.scan mt.docLengths.entries).map fun e => (e.1, e.2.docLength, e.2.tenantId)))
include hwidths

section Documents

include hperm

/-- The rows of the document map are those of the document lengths. -/
theorem order_spec : order.length < uint32Max ∧
    (∀ r ∈ order, r.1.blkid < 2 ^ 32 ∧ r.1.posid < 2 ^ 16) ∧
    ∀ ctid e, mt.docLengths.lookup ctid = some e →
      (ctid, e.docLength, e.tenantId) ∈ order := by
  have hscan := hs.perm mt.docLengths.entries
  refine ⟨?_, ?_, ?_⟩
  · rw [hperm.length_eq, List.length_map, hscan.length_eq]
    exact hwidths.documents
  · intro r hr
    obtain ⟨e, he, rfl⟩ := List.mem_map.1 (hperm.mem_iff.1 hr)
    exact hwidths.ctids e (hscan.mem_iff.1 he)
  · intro ctid e he
    have hmem := AList.mem_lookup_iff.1 (Option.mem_def.2 he)
    exact hperm.mem_iff.2 (List.mem_map.2 ⟨⟨ctid, e⟩, hscan.mem_iff.2 hmem, rfl⟩)

variable (hnumbers : Numbers docmap order)
include hnumbers

/-- **A posting is converted** to one that stands for it. -/
theorem blockPostingOfCtid_spec {term : CString} {p : MemPosting} (hp : p ∈ mt.postings term) :
    ∃ q, blockPostingOfCtid docmap (MemPosting.entry p).ctid
        ((MemPosting.entry p).frequency % 65536).toNat = .ok q ∧
      StandsFor mt docmap p q := by
  obtain ⟨hlength, -, hlookup⟩ := order_spec hwidths hperm
  obtain ⟨e, he⟩ := Option.isSome_iff_exists.1 (hwidths.covered term p hp)
  obtain ⟨n, hn⟩ := List.mem_iff_getElem?.1 (hlookup p.ctid e he)
  have hlt := (List.getElem?_eq_some_iff.1 hn).1
  have hid : tpDocmapLookup docmap p.ctid = n := hnumbers.lookup_eq n _ hn
  have hne : n ≠ uint32Max := by omega
  have hfreq := hwidths.frequencies term p hp
  have hcast : ((MemPosting.entry p).frequency % 65536).toNat = p.frequency := by
    show ((p.frequency : Int) % 65536).toNat = p.frequency
    omega
  refine ⟨⟨n, p.frequency, tpDocmapGetFieldnorm docmap n⟩, ?_, ?_⟩
  · unfold blockPostingOfCtid
    rw [show (MemPosting.entry p).ctid = p.ctid from rfl, hid, hcast]
    exact if_neg hne
  · refine ⟨?_, hlt.trans hlength, rfl, hfreq, ?_⟩
    · rw [hnumbers.ctids_eq, List.getElem?_map, hn]
      rfl
    · have hnorm : tpDocmapGetFieldnorm docmap n = encodeFieldnorm e.docLength := by
        rw [tpDocmapGetFieldnorm, hnumbers.fieldnorms_eq, List.getD_eq_getElem?_getD,
          List.getElem?_map, hn]
        rfl
      rw [hnorm, quantisedLength, he]
      rfl

/-- The postings of a list are converted one by one. -/
theorem mapM_blockPostingOfCtid {term : CString} {l : List MemPosting}
    (hl : ∀ p ∈ l, p ∈ mt.postings term) :
    ∃ ps, (l.map MemPosting.entry).mapM (fun e =>
        blockPostingOfCtid docmap e.ctid (e.frequency % 65536).toNat) = .ok ps ∧
      List.Forall₂ (StandsFor mt docmap) l ps := by
  induction l with
  | nil => exact ⟨[], rfl, .nil⟩
  | cons p l ih =>
      obtain ⟨q, hq, hstands⟩ :=
        blockPostingOfCtid_spec hwidths hperm hnumbers (hl p List.mem_cons_self)
      obtain ⟨ps, hps, hall⟩ := ih fun r hr => hl r (List.mem_cons_of_mem p hr)
      refine ⟨q :: ps, ?_, .cons hstands hall⟩
      rw [List.map_cons, List.mapM_cons, bind_of_eq_ok hq, bind_of_eq_ok hps]
      rfl

/-- **The entry of a term**: its postings, cut into blocks. -/
theorem tpWriteSegmentTerm_spec {t : TermInfo} (ht : t ∈ tpBuildDictionary hs qs mt) :
    ∃ tenantIds ps, List.Forall₂ (StandsFor mt docmap) t.postings ps ∧
      tpWriteSegmentTerm qs docmap hasTenantData t.postings.length
        (t.postings.map MemPosting.entry) =
          .ok (writeTermBlocks qs tenantIds t.postings.length ps) := by
  obtain ⟨ps, hps, hall⟩ := mapM_blockPostingOfCtid hwidths hperm hnumbers
    (show ∀ p ∈ t.postings, p ∈ mt.postings t.term by
      rw [postings_of_mem hs qs ht]
      exact fun _ h => h)
  refine ⟨if hasTenantData then docmap.tenantIds else none, ps, hall, ?_⟩
  unfold tpWriteSegmentTerm
  rw [bind_of_eq_ok hps]
  rfl

end Documents

/-- **The conversion** of a memtable within the widths succeeds. -/
theorem exists_converted : ∃ docmap order entries,
    Converted hs qs hasTenantData mt docmap order entries := by
  obtain ⟨filled, hfilled⟩ := tpDocmapAdd_rows_ok
    (fun e : (_ : ItemPointer) × DocLengthEntry => (e.1, e.2.docLength, e.2.tenantId))
    (hs.scan mt.docLengths.entries) tpDocmapCreate (by
      rw [(hs.perm mt.docLengths.entries).length_eq]
      exact (Nat.zero_add _).trans_lt hwidths.documents)
  have hdocmap : buildDocmapFromMemtable hs qs mt = .ok (tpDocmapFinalize hs qs filled) := by
    unfold buildDocmapFromMemtable
    rw [bind_of_eq_ok hfilled]
    rfl
  obtain ⟨order, hperm, hnumbers⟩ := buildDocmapFromMemtable_numbers hs qs mt hdocmap
  obtain ⟨entries, hentries⟩ := exists_mapM_ok fun t ht => by
    obtain ⟨tenantIds, ps, -, hrun⟩ := tpWriteSegmentTerm_spec hwidths hperm hnumbers ht
    exact ⟨_, hrun⟩
  exact ⟨_, order, entries, hdocmap, hperm, hnumbers, hentries⟩

end Converting

/-! ## The file of a memtable -/

section Files

variable {hs : HashSeq} {qs : Qsort} {hasTenantData : Bool} {mt : Memtable CString}
variable (hwidths : WithinWidths hs qs hasTenantData mt)
variable {docmap : DocMapBuilder} {order : List (ItemPointer × Nat × Nat)}
variable {entries : List DictEntry}
variable (hconv : Converted hs qs hasTenantData mt docmap order entries)

/-- What the file says, compressed or not. -/
def fileOf (hs : HashSeq) (qs : Qsort) (hasTenantData : Bool) (mt : Memtable CString)
    (docmap : DocMapBuilder) (entries : List DictEntry) (compress : Bool) : Parts :=
  partsOf compress (tpBuildDictionary hs qs mt) entries docmap
    (tenantBytes hs qs hasTenantData mt (tpBuildDictionary hs qs mt) docmap)

include hconv in
/-- The file is the one that is written, if the memtable has terms. -/
theorem fileParts_eq (hterms : mt.stringTable.entries ≠ []) (compress : Bool) :
    fileParts hs qs compress hasTenantData mt =
      .ok (some (fileOf hs qs hasTenantData mt docmap entries compress)) := by
  have hne : ¬ (tpBuildDictionary hs qs mt).isEmpty := by
    rw [List.isEmpty_iff]
    intro hnil
    have hperm := tpBuildDictionary_perm hs qs mt
    rw [hnil] at hperm
    exact hterms (List.map_eq_nil_iff.1 hperm.nil_eq.symm)
  have hdocmap : (liftSegment (buildDocmapFromMemtable hs qs mt) : Except WriteError _) =
      .ok docmap := by
    rw [hconv.docmap_eq]
    rfl
  have hentries : (liftSegment (termEntries qs docmap hasTenantData (tpBuildDictionary hs qs mt)) :
      Except WriteError _) = .ok entries := by
    rw [hconv.entries_eq]
    rfl
  unfold fileParts
  rw [bind_of_eq_ok hdocmap]
  dsimp only
  rw [if_neg hne, bind_of_eq_ok hentries]
  rfl

/-- Without terms there is no file. -/
theorem fileParts_ne_some (hterms : mt.stringTable.entries = []) (compress : Bool) (f : Parts) :
    fileParts hs qs compress hasTenantData mt ≠ .ok (some f) := by
  intro h
  obtain ⟨docmap, -, hrest⟩ := bind_eq_ok h
  dsimp only at hrest
  rw [tpBuildDictionary_eq_nil hs qs hterms] at hrest
  cases hrest

include hwidths hconv

/-- The entry of a term, and its postings. -/
theorem entry_spec {n : Nat} {t : TermInfo} (ht : (tpBuildDictionary hs qs mt)[n]? = some t) :
    ∃ tenantIds ps, List.Forall₂ (StandsFor mt docmap) (mt.postings t.term) ps ∧
      entries[n]? = some (writeTermBlocks qs tenantIds (mt.postings t.term).length ps) := by
  have hmem := List.mem_of_getElem? ht
  obtain ⟨tenantIds, ps, hall, hrun⟩ :=
    tpWriteSegmentTerm_spec hwidths hconv.order_perm hconv.numbers hmem
  have hforall := forall₂_of_mapM_ok hconv.entries_eq
  have hn := (List.getElem?_eq_some_iff.1 ht).1
  have hn' : n < entries.length := by rwa [← hforall.length_eq]
  have hget := hforall.get hn hn'
  have hterm : (tpBuildDictionary hs qs mt).get ⟨n, hn⟩ = t := (List.getElem?_eq_some_iff.1 ht).2
  rw [hterm, hrun] at hget
  rw [postings_of_mem hs qs hmem]
  exact ⟨tenantIds, ps, hall, List.getElem?_eq_some_iff.2 ⟨hn', (Except.ok.inj hget).symm⟩⟩

/-- Every entry belongs to a term. -/
theorem exists_term {e : DictEntry} (he : e ∈ entries) :
    ∃ term tenantIds ps, List.Forall₂ (StandsFor mt docmap) (mt.postings term) ps ∧
      e = writeTermBlocks qs tenantIds (mt.postings term).length ps := by
  obtain ⟨n, hn⟩ := List.mem_iff_getElem?.1 he
  have hforall := forall₂_of_mapM_ok hconv.entries_eq
  have hlt : n < (tpBuildDictionary hs qs mt).length := by
    rw [hforall.length_eq]
    exact (List.getElem?_eq_some_iff.1 hn).1
  obtain ⟨tenantIds, ps, hall, he'⟩ :=
    entry_spec hwidths hconv (List.getElem?_eq_getElem hlt)
  exact ⟨_, tenantIds, ps, hall, Option.some.inj (hn.symm.trans he')⟩

omit hwidths hconv in
/-- A stored posting stands for one of the list. -/
theorem exists_standsFor {l : List MemPosting} {ps : List BlockPosting}
    (hall : List.Forall₂ (StandsFor mt docmap) l ps) {q : BlockPosting} (hq : q ∈ ps) :
    ∃ p, StandsFor mt docmap p q := by
  induction hall with
  | nil => cases hq
  | cons hstands _ ih =>
      cases List.mem_cons.1 hq with
      | inl heq => exact ⟨_, heq ▸ hstands⟩
      | inr hrest => exact ih hrest

omit hwidths hconv in
/-- The rows of the stored postings are those of the list, with lengths of 16 bits. -/
theorem map_row_eq {f : Parts} (hctids : f.ctids = docmap.ctids) {l : List MemPosting}
    {ps : List BlockPosting} (hall : List.Forall₂ (StandsFor mt docmap) l ps) :
    ps.map f.row =
      l.map fun p => ⟨p.ctid, p.frequency, quantisedLength mt p.ctid % 65536⟩ := by
  induction hall with
  | nil => rfl
  | cons hstands _ ih =>
      rw [List.map_cons, List.map_cons, ih, Parts.row, hctids, List.getD_eq_getElem?_getD,
        hstands.ctid_eq, hstands.frequency_eq, hstands.length_eq]
      rfl

omit hwidths hconv in
/-- A block has some of the postings of its term, and not too many of them. -/
theorem exists_run_of_mem {tenantIds : Option (List Nat)} {docFreq : Nat}
    {ps : List BlockPosting} {b : Block}
    (hb : b ∈ (writeTermBlocks qs tenantIds docFreq ps).blocks) :
    ∃ run, run ≠ [] ∧ run.length ≤ tpBlockSize ∧ (∀ q ∈ run, q ∈ ps) ∧
      b = buildBlock tenantIds run := by
  obtain ⟨i, -, hi⟩ := List.mem_map.1 hb
  obtain ⟨run, hne, hrun⟩ := exists_buildBlock_of_mem hb
  have hpostings : run = ((qs.sort cmpBlockPostingByDocId ps).drop (i * tpBlockSize)).take
      tpBlockSize := congrArg Block.postings (hrun.symm.trans hi.symm)
  refine ⟨run, hne, ?_, ?_, hrun⟩
  · rw [hpostings, List.length_take]
    exact Nat.min_le_left _ _
  · intro q hq
    rw [hpostings] at hq
    exact (qs.perm _ ps).mem_iff.1 (List.mem_of_mem_drop (List.mem_of_mem_take hq))

omit hwidths hconv in
theorem tenantIdLow_buildBlock (tenantIds : Option (List Nat)) (run : List BlockPosting) :
    (buildBlock tenantIds run).skip.tenantIdLow < 2 ^ 16 := by
  show (blockTenantMode tenantIds run).2 < 2 ^ 16
  unfold blockTenantMode
  split
  · dsimp only
    split_ifs
    · exact Nat.mod_lt _ (by decide)
    · exact Nat.two_pow_pos 16
    · exact Nat.two_pow_pos 16
  · exact Nat.two_pow_pos 16

/-- Every block of the file is built from postings that stand for those of the memtable. -/
theorem block_spec {compress : Bool} {b : Block}
    (hb : b ∈ (fileOf hs qs hasTenantData mt docmap entries compress).blocks) :
    ∃ tenantIds run, run ≠ [] ∧ run.length ≤ tpBlockSize ∧
      (∀ q ∈ run, ∃ p, StandsFor mt docmap p q) ∧ b = buildBlock tenantIds run := by
  obtain ⟨e, he, hbe⟩ := List.mem_flatMap.1 hb
  obtain ⟨term, tenantIds, ps, hall, rfl⟩ := exists_term hwidths hconv he
  obtain ⟨run, hne, hle, hmem, hrun⟩ := exists_run_of_mem hbe
  exact ⟨tenantIds, run, hne, hle, fun q hq => exists_standsFor hall (hmem q hq), hrun⟩

/-- **The file fits** its fields. -/
theorem fileOf_fits (hterms : mt.stringTable.entries ≠ []) (compress : Bool) :
    (fileOf hs qs hasTenantData mt docmap entries compress).Fits := by
  have hlength := (forall₂_of_mapM_ok hconv.entries_eq).length_eq
  -- the counts of an entry
  have hcounts : ∀ e ∈ entries, e.blockCount = e.blocks.length ∧ e.blocks.length < 2 ^ 16 ∧
      e.docFreq < 2 ^ 32 := by
    intro e he
    obtain ⟨term, tenantIds, ps, hall, rfl⟩ := exists_term hwidths hconv he
    obtain ⟨hblocks, hcount, -⟩ :=
      writeTermBlocks_counts qs tenantIds (mt.postings term).length ps
    have hle := hwidths.blocks term
    rw [hall.length_eq] at hle
    rw [hblocks, hcount]
    refine ⟨?_, ?_, ?_⟩
    · unfold tpBlockSize at hle ⊢
      omega
    · unfold tpBlockSize at hle ⊢
      omega
    · show (mt.postings term).length < 2 ^ 32
      rw [hall.length_eq]
      unfold tpBlockSize at hle
      omega
  -- the statistics of a block are attained by its postings
  have hstats : ∀ b ∈ (fileOf hs qs hasTenantData mt docmap entries compress).blocks,
      HasBlockStats b ∧ ∀ q ∈ b.postings, ∃ p, StandsFor mt docmap p q := by
    intro b hb
    obtain ⟨tenantIds, run, hne, -, hstands, rfl⟩ := block_spec hwidths hconv hb
    exact ⟨buildBlock_stats tenantIds hne, hstands⟩
  have hdocId : ∀ {p q}, StandsFor mt docmap p q → q.docId < 2 ^ 32 := by
    intro p q hstands
    exact hstands.docId_lt.trans (by decide)
  exact
    { addressable := hwidths.file compress _ (fileParts_eq hconv hterms compress)
      sorted := List.pairwise_map.2 (tpBuildDictionary_sorted hs qs mt)
      entries_length := hlength.symm.trans (List.length_map _).symm
      blockCount_eq := fun e he => (hcounts e he).1
      blockCount_lt := fun e he => (hcounts e he).2.1
      docFreq_lt := fun e he => (hcounts e he).2.2
      block_ne_nil := fun b hb => (hstats b hb).1.ne_nil
      docCount_eq := by
        intro b hb
        obtain ⟨tenantIds, run, -, hle, -, rfl⟩ := block_spec hwidths hconv hb
        apply Nat.mod_eq_of_lt
        exact hle.trans_lt (by decide)
      block_le := by
        intro b hb
        obtain ⟨tenantIds, run, -, hle, -, rfl⟩ := block_spec hwidths hconv hb
        exact hle
      lastDocId_lt := by
        intro b hb
        obtain ⟨q, hq, heq⟩ := (hstats b hb).1.docId_attained
        obtain ⟨p, hstands⟩ := (hstats b hb).2 q hq
        rw [← heq]
        exact hdocId hstands
      blockMaxTf_lt := by
        intro b hb
        obtain ⟨q, hq, heq⟩ := (hstats b hb).1.tf_attained
        obtain ⟨p, hstands⟩ := (hstats b hb).2 q hq
        rw [← heq]
        exact hstands.frequency_lt
      tenantIdLow_lt := by
        intro b hb
        obtain ⟨tenantIds, run, -, -, -, rfl⟩ := block_spec hwidths hconv hb
        exact tenantIdLow_buildBlock tenantIds run
      posting_fits := by
        intro b hb q hq
        obtain ⟨p, hstands⟩ := (hstats b hb).2 q hq
        exact ⟨hdocId hstands, hstands.frequency_lt⟩
      ctid_fits := by
        intro c hc
        have hc' : c ∈ order.map fun r => r.1 := by
          rw [← hconv.numbers.ctids_eq]
          exact hc
        obtain ⟨r, hr, rfl⟩ := List.mem_map.1 hc'
        exact (order_spec hwidths hconv.order_perm).2.1 r hr }

/-- The postings of a term as they are read back. -/
def readRows (f : Parts) (n : Nat) : List PostingRow :=
  match f.entries[n]? with
  | none => []
  | some e => e.postings.map f.row

/-- **What the segment of a memtable reports** about the terms, and about other texts. -/
theorem reports_iff (hterms : mt.stringTable.entries ≠ []) (compress : Bool) (env : WriteEnv) :
    ∃ pages, tpWriteSegment hs qs compress hasTenantData env mt = .ok (some pages) ∧
      (∀ n t, (tpBuildDictionary hs qs mt)[n]? = some t → ∀ report,
        Reports pages t.term report ↔
          (∀ e, entries[n]? = some e → ∀ j < e.blocks.length,
            HasRoom (fileOf hs qs hasTenantData mt docmap entries compress)
              (Reads.blockIndex (fileOf hs qs hasTenantData mt docmap entries compress) n j)) ∧
            report = some ((mt.postings t.term).length,
              readRows (fileOf hs qs hasTenantData mt docmap entries compress) n)) ∧
      ∀ term, mt.stringTable.lookup term = none → ∀ report,
        Reports pages term report ↔ report = none := by
  obtain ⟨f, hf⟩ : ∃ f, f = fileOf hs qs hasTenantData mt docmap entries compress := ⟨_, rfl⟩
  have hparts := fileParts_eq hconv hterms compress
  have hfits := fileOf_fits hwidths hconv hterms compress
  have hentries : f.entries = entries := by rw [hf]; rfl
  rw [← hf] at hparts hfits ⊢
  obtain ⟨pages, header, padding, hrun, hpages, hheader, hpaged⟩ :=
    tpWriteSegment_spec hs qs compress hasTenantData env mt hparts
  obtain ⟨reader, hopen, hreads⟩ := tpSegmentOpen_spec hfits hpaged hpages hheader
  refine ⟨pages, hrun, ?_, ?_⟩
  · intro n t ht report
    obtain ⟨tenantIds, ps, hall, he⟩ := entry_spec hwidths hconv ht
    have hterm : f.terms[n]? = some t.term := by
      rw [hf]
      show ((tpBuildDictionary hs qs mt).map TermInfo.term)[n]? = _
      rw [List.getElem?_map, ht]
      rfl
    have he' : f.entries[n]? =
        some (writeTermBlocks qs tenantIds (mt.postings t.term).length ps) := by
      rw [hentries]
      exact he
    have hids : ∀ q ∈ (writeTermBlocks qs tenantIds (mt.postings t.term).length ps).postings,
        q.docId < f.ctids.length := by
      intro q hq
      rw [postings_writeTermBlocks, (qs.perm _ ps).mem_iff] at hq
      obtain ⟨p, hstands⟩ := exists_standsFor hall hq
      rw [hf]
      exact (List.getElem?_eq_some_iff.1 hstands.ctid_eq).1
    rw [reports_found_iff hopen hreads hfits hterm he' hids, readRows, he', he]
    simp only [Option.some.injEq, forall_eq']
    rfl
  · intro term hnone report
    have hmissing : term ∉ f.terms := by
      rw [hf]
      intro hmem
      obtain ⟨t, ht, rfl⟩ := List.mem_map.1 hmem
      cases hnone.symm.trans ((mem_tpBuildDictionary hs qs mt).1 ht)
    exact reports_missing_iff hopen hreads hfits hmissing report

/-- The rows that are read back are the postings of the term, with lengths of 16 bits. -/
theorem readRows_perm {n : Nat} {t : TermInfo}
    (ht : (tpBuildDictionary hs qs mt)[n]? = some t) (compress : Bool) :
    (readRows (fileOf hs qs hasTenantData mt docmap entries compress) n).Perm
      ((mt.postings t.term).map fun p =>
        ⟨p.ctid, p.frequency, quantisedLength mt p.ctid % 65536⟩) := by
  obtain ⟨tenantIds, ps, hall, he⟩ := entry_spec hwidths hconv ht
  have he' : (fileOf hs qs hasTenantData mt docmap entries compress).entries[n]? =
    some (writeTermBlocks qs tenantIds (mt.postings t.term).length ps) := he
  rw [readRows, he', ← map_row_eq (show
    (fileOf hs qs hasTenantData mt docmap entries compress).ctids = docmap.ctids from rfl) hall]
  dsimp only
  rw [postings_writeTermBlocks]
  exact (qs.perm _ ps).map _

end Files

/-! ## The round trip -/

/-- Lengths of 16 bits are those of the memtable when no length needs more. -/
theorem perm_quantisedPostings_iff (mt : Memtable CString) (term : CString) :
    ((mt.postings term).map fun p =>
        (⟨p.ctid, p.frequency, quantisedLength mt p.ctid % 65536⟩ : PostingRow)).Perm
        (quantisedPostings mt term) ↔
      ∀ p ∈ mt.postings term, quantisedLength mt p.ctid < 65536 := by
  constructor
  · intro hperm p hp
    have hmem : (⟨p.ctid, p.frequency, quantisedLength mt p.ctid⟩ : PostingRow) ∈
      quantisedPostings mt term := List.mem_map.2 ⟨p, hp, rfl⟩
    obtain ⟨q, -, hq⟩ := List.mem_map.1 (hperm.mem_iff.2 hmem)
    have hlen : quantisedLength mt q.ctid % 65536 = quantisedLength mt p.ctid :=
      congrArg PostingRow.docLength hq
    rw [← hlen]
    exact Nat.mod_lt _ (by decide)
  · intro hlt
    rw [quantisedPostings, List.map_congr_left fun p hp => by
      rw [Nat.mod_eq_of_lt (hlt p hp)]]

/-- With 32-bit offsets, compressed blocks have room when every read of the maximal size stays in
the pages. -/
theorem blocksHaveRoom_iff {f : Parts} (hfits : f.Fits) (hcompress : f.compress = true) :
    f.BlocksHaveRoom ↔ ∀ n e, f.entries[n]? = some e → ∀ j < e.blocks.length,
      HasRoom f (Reads.blockIndex f n j) := by
  have hfew : ¬ addressedPages ≤ f.numPages := by
    intro hmany
    have hle := Nat.mul_le_mul_right segmentDataPerPage hmany
    have hmax : 2 ^ 32 < addressedPages * segmentDataPerPage := by decide
    have haddr := hfits.addressable
    omega
  have hcount : ∀ {n : Nat} {e : DictEntry}, f.entries[n]? = some e →
      e.blockCount = e.blocks.length :=
    fun he => hfits.blockCount_eq _ (List.mem_of_getElem? he)
  constructor
  · intro hroom n e he j hj _
    exact (hroom.resolve_left hfew) n e j _ he (by rwa [hcount he])
      (List.getElem?_eq_getElem hj)
  · intro hroom
    refine Or.inr ?_
    intro n e j b he hj _
    exact hroom n e he j (by rwa [← hcount he]) hcompress

/-- **Writing and reading a segment.**  The segment of a memtable reports its terms, their document
frequencies and their postings with quantised lengths, and compression makes no difference, exactly
when the quantised lengths fit into 16 bits and the blocks of the compressed segment have room. -/
theorem write_read_round_trip_iff (hs : HashSeq) (qs : Qsort) (hasTenantData : Bool)
    {mt : Memtable CString} (h : WithinWidths hs qs hasTenantData mt) :
    RoundTrips hs qs hasTenantData mt ↔
      (∀ term, ∀ p ∈ mt.postings term, quantisedLength mt p.ctid < 65536) ∧
        ∀ f, fileParts hs qs true hasTenantData mt = .ok (some f) → f.BlocksHaveRoom := by
  by_cases hterms : mt.stringTable.entries = []
  · have hnone := lookup_eq_none hterms
    refine iff_of_true ⟨fun _ => none, hnone, fun hne => absurd hterms hne⟩ ⟨?_, ?_⟩
    · intro term p hp
      rw [Memtable.postings, hnone term] at hp
      cases hp
    · intro f hf
      exact absurd hf (fileParts_ne_some hterms true f)
  obtain ⟨docmap, order, entries, hconv⟩ := exists_converted h
  have hlength := (forall₂_of_mapM_ok hconv.entries_eq).length_eq
  have hfile := fileParts_eq hconv hterms true
  have hroom := blocksHaveRoom_iff (fileOf_fits h hconv hterms true) rfl
  constructor
  · rintro ⟨report, hfaithful, hwritten⟩
    -- the report of a term is what the segment says
    have hreport : ∀ compress n t, (tpBuildDictionary hs qs mt)[n]? = some t →
        (∀ e, entries[n]? = some e → ∀ j < e.blocks.length,
          HasRoom (fileOf hs qs hasTenantData mt docmap entries compress)
            (Reads.blockIndex (fileOf hs qs hasTenantData mt docmap entries compress) n j)) ∧
          report t.term = some ((mt.postings t.term).length,
            readRows (fileOf hs qs hasTenantData mt docmap entries compress) n) := by
      intro compress n t ht
      obtain ⟨pages, hrun, hfound, -⟩ := reports_iff h hconv hterms compress ⟨0, 0, 0, 0⟩
      obtain ⟨pages', hrun', hreports⟩ := hwritten hterms compress ⟨0, 0, 0, 0⟩
      cases hrun.symm.trans hrun'
      exact (hfound n t ht _).1 (hreports t.term)
    constructor
    · intro term p hp
      obtain ⟨n, t, ht, rfl⟩ := exists_getElem?_of_lookup hs qs (show
          mt.stringTable.lookup term ≠ none by
        intro hnone
        rw [Memtable.postings, hnone] at hp
        cases hp)
      have hrows := hfaithful t.term
      rw [(hreport false n t ht).2] at hrows
      have hperm := (readRows_perm h hconv ht false).symm.trans hrows.2.2
      exact (perm_quantisedPostings_iff mt t.term).1 hperm p hp
    · intro f hf
      cases hfile.symm.trans hf
      rw [hroom]
      intro n e he
      have hn : n < (tpBuildDictionary hs qs mt).length := by
        rw [hlength]
        exact (List.getElem?_eq_some_iff.1 he).1
      exact (hreport true n _ (List.getElem?_eq_getElem hn)).1 e he
  · rintro ⟨hlengths, hblocks⟩
    have hplaces := hroom.1 (hblocks _ hfile)
    have hexists : ∀ term, ∃ report, Faithful mt term report ∧ ∀ compress env pages,
        tpWriteSegment hs qs compress hasTenantData env mt = .ok (some pages) →
          Reports pages term report := by
      intro term
      cases hterm : mt.stringTable.lookup term with
      | none =>
          refine ⟨none, hterm, ?_⟩
          intro compress env pages hpages
          obtain ⟨pages', hrun, -, hmissing⟩ := reports_iff h hconv hterms compress env
          cases hrun.symm.trans hpages
          exact (hmissing term hterm none).2 rfl
      | some postings =>
          have hne : mt.stringTable.lookup term ≠ none := by
            rw [hterm]
            exact Option.some_ne_none postings
          obtain ⟨n, t, ht, rfl⟩ := exists_getElem?_of_lookup hs qs hne
          refine ⟨some ((mt.postings t.term).length,
            readRows (fileOf hs qs hasTenantData mt docmap entries true) n), ⟨?_, rfl, ?_⟩, ?_⟩
          · exact Option.isSome_iff_ne_none.2 hne
          · exact (readRows_perm h hconv ht true).trans
              ((perm_quantisedPostings_iff mt t.term).2 (hlengths t.term))
          · intro compress env pages hpages
            obtain ⟨pages', hrun, hfound, -⟩ := reports_iff h hconv hterms compress env
            cases hrun.symm.trans hpages
            refine (hfound n t ht _).2 ⟨?_, rfl⟩
            intro e he j hj hcompress
            cases hcompress.symm.trans (show
              (fileOf hs qs hasTenantData mt docmap entries compress).compress = compress from rfl)
            exact hplaces n e he j hj rfl
    choose report hfaithful hreports using hexists
    refine ⟨report, hfaithful, ?_⟩
    intro _ compress env
    obtain ⟨pages, hrun, -⟩ := reports_iff h hconv hterms compress env
    exact ⟨pages, hrun, fun term => hreports term compress env pages hrun⟩

/-! ### The document with long terms -/

/-- The string table of the document. -/
theorem mem_postings_longTermMemtable {n : Nat} {term : CString} {p : MemPosting}
    (hp : p ∈ (longTermMemtable n).postings term) :
    (longTermMemtable n).postings term = [⟨⟨0, 1⟩, 1, 0⟩] ∧ p = ⟨⟨0, 1⟩, 1, 0⟩ := by
  cases hlookup : (longTermMemtable n).stringTable.lookup term with
  | none =>
      rw [Memtable.postings, hlookup] at hp
      cases hp
  | some postings =>
      have hmem : (⟨term, postings⟩ : Sigma fun _ : CString => List MemPosting) ∈
          (longTermMemtable n).stringTable.entries :=
        AList.mem_lookup_iff.1 (Option.mem_def.2 hlookup)
      have hall : ∀ e ∈ (longTermMemtable n).stringTable.entries, e.2 = [⟨⟨0, 1⟩, 1, 0⟩] := by
        intro e he
        have hentries : (longTermMemtable n).stringTable.entries =
          [⟨longTerm 100 (by decide) n, [⟨⟨0, 1⟩, 1, 0⟩]⟩,
            ⟨longTerm 99 (by decide) n, [⟨⟨0, 1⟩, 1, 0⟩]⟩,
            ⟨longTerm 98 (by decide) n, [⟨⟨0, 1⟩, 1, 0⟩]⟩,
            ⟨longTerm 97 (by decide) n, [⟨⟨0, 1⟩, 1, 0⟩]⟩] := rfl
        rw [hentries] at he
        simp only [List.mem_cons, List.not_mem_nil, or_false] at he
        rcases he with rfl | rfl | rfl | rfl <;> rfl
      have hpostings : postings = [⟨⟨0, 1⟩, 1, 0⟩] := hall _ hmem
      rw [Memtable.postings, hlookup, Option.getD_some, hpostings] at hp ⊢
      exact ⟨rfl, List.mem_singleton.1 hp⟩

/-- The size of its segment, compressed or not. -/
theorem size_longTermParts_le (n : Nat) (compress : Bool) :
    ({ longTermParts n with compress := compress } : Parts).size ≤ 311 + 4 * n := by
  have hoffset : ({ longTermParts n with compress := compress } : Parts).postingsOffset =
    208 + 4 * n := postingsOffset_longTermParts n
  have himages : ({ longTermParts n with compress := compress } : Parts).blockImages.flatten.length
      ≤ 32 := by
    have hconst : ({ longTermParts n with compress := compress } : Parts).blockImages =
      ({ longTermParts 0 with compress := compress } : Parts).blockImages := rfl
    rw [hconst]
    cases compress <;> decide
  unfold Parts.size Parts.tenantOffset Parts.ctidOffsetsOffset Parts.ctidPagesOffset
    Parts.fieldnormOffset Parts.skipIndexOffset
  rw [hoffset]
  show 208 + 4 * n + _ + 4 * skipEntrySize + 1 + 1 * 4 + 1 * 2 + 0 ≤ 311 + 4 * n
  unfold skipEntrySize
  omega

theorem fileParts_longTermMemtable_compress (n : Nat) (compress : Bool) :
    fileParts insertionHashSeq insertionQsort compress false (longTermMemtable n) =
      .ok (some { longTermParts n with compress := compress }) := rfl

/-- It is within the widths, if its terms are not too long. -/
theorem withinWidths_longTermMemtable {n : Nat} (hn : n ≤ 2 ^ 20) :
    WithinWidths insertionHashSeq insertionQsort false (longTermMemtable n) where
  covered := by
    intro term p hp
    rw [(mem_postings_longTermMemtable hp).2]
    rfl
  documents := by
    show 1 < uint32Max
    decide
  ctids := by
    intro e he
    cases List.mem_singleton.1 he
    decide
  frequencies := by
    intro term p hp
    rw [(mem_postings_longTermMemtable hp).2]
    decide
  blocks := by
    intro term
    cases hpostings : (longTermMemtable n).postings term with
    | nil => exact Nat.zero_le _
    | cons p ps =>
        have hp : p ∈ (longTermMemtable n).postings term := by
          rw [hpostings]
          exact List.mem_cons_self
        rw [← hpostings, (mem_postings_longTermMemtable hp).1]
        decide
  file := by
    intro compress f hf
    cases (fileParts_longTermMemtable_compress n compress).symm.trans hf
    have hsize := size_longTermParts_le n compress
    unfold Parts.numPages segmentDataPerPage
    omega

theorem write_read_round_trip_iff_shortTerms :
    RoundTrips insertionHashSeq insertionQsort false (longTermMemtable 0) := by
  refine (write_read_round_trip_iff insertionHashSeq insertionQsort false
    (withinWidths_longTermMemtable (by decide))).2 ⟨?_, ?_⟩
  · intro term p hp
    rw [(mem_postings_longTermMemtable hp).2]
    decide +kernel
  · intro f hf
    cases (fileParts_longTermMemtable 0).symm.trans hf
    exact longTermParts_haveRoom

/-- With four terms of 1901 bytes, the compressed segment does not report the last of them. -/
theorem longTerm_not_reported :
    ¬ RoundTrips insertionHashSeq insertionQsort false (longTermMemtable 1900) := by
  rintro ⟨report, hfaithful, hwritten⟩
  have hwidths : WithinWidths insertionHashSeq insertionQsort false (longTermMemtable 1900) :=
    withinWidths_longTermMemtable (by decide)
  have hterms : (longTermMemtable 1900).stringTable.entries ≠ [] := List.cons_ne_nil _ _
  obtain ⟨docmap, order, entries, hconv⟩ := exists_converted hwidths
  have hfile : fileOf insertionHashSeq insertionQsort false (longTermMemtable 1900) docmap entries
      true = longTermParts 1900 := by
    have heq := (fileParts_eq hconv hterms true).symm.trans (fileParts_longTermMemtable 1900)
    exact Option.some.inj (Except.ok.inj heq)
  obtain ⟨pages, hrun, hfound, -⟩ := reports_iff hwidths hconv hterms true ⟨0, 1, 4, 0⟩
  obtain ⟨pages', hrun', hreports⟩ := hwritten hterms true ⟨0, 1, 4, 0⟩
  cases hrun.symm.trans hrun'
  obtain ⟨hentry, hindex⟩ := longTermParts_block 1900 3 (by decide)
  have hentries : entries = (longTermParts 1900).entries := congrArg Parts.entries hfile
  obtain ⟨hroom, -⟩ := (hfound 3 _ rfl _).1 (hreports (longTerm 100 (by decide) 1900))
  have hplace := hroom _ (by rw [hentries]; exact hentry) 0 (by decide)
  rw [hfile, hindex] at hplace
  obtain ⟨hoffsets, hsize⟩ := longTermParts_sizes 1900
  have hle := hplace rfl
  rw [hoffsets 3 (by decide), Parts.numPages, hsize] at hle
  exact absurd hle (by decide)

end PgTextsearch.Segment.File
