import PgTextsearch.State.Index

/-!
# The terms of a heap tuple (`am/build.c`, `types/vector.c`, `state/state.c`)

`tp_insert` and recovery each extract the terms of a document on a path of their
own.  For a text column `tp_insert` spells the name of the index out and hands it
to `to_tpvector`, which parses the name, looks the index up again and tokenises
with the configuration it finds there; for a `tsvector` column it takes the lexemes
as they are.  Recovery tokenises the datum as text, whatever the column holds, with
the configuration of the index itself.

## Main results

* `recovery_reindexes_iff` — the two paths agree for every tokeniser exactly when
  the column is a text column and the name leads to the same configuration.
* `insertTerms_analyzer` — there the run model's `Analyzer` gives the terms that
  `tp_insert` extracts.
-/

namespace PgTextsearch.State

open PgTextsearch.Postgres

/-- `InvalidOid`. -/
def invalidOid : Nat := 0

/-- What the two paths can raise. -/
inductive ExtractError where
  | invalidNameSyntax
  | indexNotFound (name : String)
  | notABm25Index (oid : Nat)
  | cacheLookupFailed (config : Nat)
  deriving DecidableEq, Repr

/-- The fields of `TpIndexMetaPageData` that extraction reads. -/
structure IndexMeta where
  indexedType : IndexedType
  textConfigOid : Nat
  deriving DecidableEq, Repr

/-- An index: the names of its schema and of the index, and its metapage. -/
structure IndexRelation where
  schemaName : String
  relName : String
  metap : IndexMeta
  deriving DecidableEq, Repr

/-- The system catalogs.  `stringToQualifiedNameList` splits a name at its dots and
folds unquoted parts to lower case; `relid` is `get_namespace_oid` followed by
`get_relname_relid`, `searchPathRelid` is `RelnameGetRelid`; `metapage` is
`index_open` followed by `tp_get_metapage`. -/
structure Catalog where
  stringToQualifiedNameList : String → Except ExtractError (List String)
  relid : String → String → Option Nat
  searchPathRelid : String → Option Nat
  metapage : Nat → Except ExtractError IndexMeta
  tsCurrentConfig : Nat

/-- A non-NULL datum of the indexed column. -/
inductive Datum (Term : Type) where
  | text (document : String)
  | tsvector (tv : TermVector Term)

/-- The column type a datum comes from. -/
def Datum.indexedType {Term : Type} : Datum Term → IndexedType
  | .text _ => .text
  | .tsvector _ => .tsvector

/-- `to_tsvector_byid`, any function of configuration and text; `tsvectorBytes` is
the stored form of a `tsvector`, which `DatumGetTextPP` takes for a text. -/
structure Tokenizer (Term : Type) where
  toTsvectorById : Nat → String → Except ExtractError (TermVector Term)
  tsvectorBytes : TermVector Term → String
  strcmp : Term → Term → Int
  qsort : Qsort

/-- What an extraction adds to the memtable: the terms with their frequencies, and
the document length. -/
structure AddedDocument (Term : Type) where
  terms : List (Term × Nat)
  docLength : Nat
  deriving DecidableEq, Repr

variable {Term : Type}

/-- The same pairs and the same length. -/
def AddedDocument.Same (d d' : AddedDocument Term) : Prop :=
  d.terms.Perm d'.terms ∧ d.docLength = d'.docLength

/-! ## The two paths -/

/-- `tp_resolve_index_name_shared`. -/
def tpResolveIndexNameShared (cat : Catalog) (indexName : String) :
    Except ExtractError (Option Nat) :=
  if indexName.toList.contains '.' then do
    match ← cat.stringToQualifiedNameList indexName with
    | [schemaName, relName] =>
        if schemaName = "" then return none else return cat.relid schemaName relName
    | _ => return none
  else return cat.searchPathRelid indexName

/-- The configuration and the text that `to_tpvector` hands to `to_tsvector_byid`.
Without a valid configuration it calls `to_tsvector` with the configuration's name
in the place of the document. -/
def tokenizerCall (cat : Catalog) (metap : IndexMeta) (document : String) : Nat × String :=
  if metap.textConfigOid ≠ invalidOid then (metap.textConfigOid, document)
  else (cat.tsCurrentConfig, "english")

/-- The metapage of the index a name leads to. -/
def lookupMetapage (cat : Catalog) (indexName : String) : Except ExtractError IndexMeta := do
  match ← tpResolveIndexNameShared cat indexName with
  | none => throw (.indexNotFound indexName)
  | some oid => cat.metapage oid

/-- `to_tpvector`: the entries of the `tpvector`, sorted by lexeme. -/
def toTpvector (cat : Catalog) (tok : Tokenizer Term) (document indexName : String) :
    Except ExtractError (List (Term × Nat)) := do
  let metap ← lookupMetapage cat indexName
  let call := tokenizerCall cat metap document
  let tsvector ← tok.toTsvectorById call.1 call.2
  return tok.qsort.sort (fun a b => tok.strcmp a.1 b.1) tsvector.entries

/-- `psprintf("%s.%s", schema_name, index_name)`, without quoting. -/
def IndexRelation.qualifiedName (idx : IndexRelation) : String :=
  idx.schemaName ++ "." ++ idx.relName

/-- The document length that is added up over the terms. -/
def addedDocument (terms : List (Term × Nat)) : AddedDocument Term :=
  ⟨terms, (terms.map Prod.snd).sum⟩

/-- The extraction of `tp_insert`. -/
def insertDocument (cat : Catalog) (tok : Tokenizer Term) (idx : IndexRelation) :
    Datum Term → Except ExtractError (AddedDocument Term)
  | .tsvector tv => return addedDocument tv.entries
  | .text document => do
      let terms ← toTpvector cat tok document idx.qualifiedName
      return addedDocument terms

/-- `DatumGetTextPP`: a cast. -/
def Tokenizer.datumGetTextPP (tok : Tokenizer Term) : Datum Term → String
  | .text document => document
  | .tsvector tv => tok.tsvectorBytes tv

/-- The extraction of `tp_rebuild_posting_lists_from_docids`, through
`tp_process_document_text`. -/
def recoverDocument (tok : Tokenizer Term) (idx : IndexRelation) (datum : Datum Term) :
    Except ExtractError (AddedDocument Term) := do
  let tsvector ← tok.toTsvectorById idx.metap.textConfigOid (tok.datumGetTextPP datum)
  return addedDocument tsvector.entries

/-- **Recovery re-indexes what insert indexed**: a document that `tp_insert` took
into the index (and then recorded) is extracted alike by recovery. -/
def RecoversInserted (cat : Catalog) (tok : Tokenizer Term) (idx : IndexRelation) : Prop :=
  ∀ datum : Datum Term, datum.indexedType = idx.metap.indexedType →
    ∀ added, insertDocument cat tok idx datum = .ok added →
      ∃ recovered, recoverDocument tok idx datum = .ok recovered ∧ recovered.Same added

/-- The unquoted name of the index leads nowhere, or to an index that is tokenised
with the same, valid configuration. -/
def NameKeepsConfig (cat : Catalog) (idx : IndexRelation) : Prop :=
  ∀ metap, lookupMetapage cat idx.qualifiedName = .ok metap →
    metap.textConfigOid = idx.metap.textConfigOid ∧ metap.textConfigOid ≠ invalidOid

/-! ## When the paths agree -/

theorem toTpvector_eq_ok {cat : Catalog} {tok : Tokenizer Term} {document indexName : String}
    {terms : List (Term × Nat)} (h : toTpvector cat tok document indexName = .ok terms) :
    ∃ metap tsvector, lookupMetapage cat indexName = .ok metap ∧
      tok.toTsvectorById (tokenizerCall cat metap document).1
        (tokenizerCall cat metap document).2 = .ok tsvector ∧
      terms.Perm tsvector.entries := by
  obtain ⟨metap, hmeta, h⟩ := bind_eq_ok h
  obtain ⟨tsvector, htok, h⟩ := bind_eq_ok h
  cases h
  exact ⟨metap, tsvector, hmeta, htok, tok.qsort.perm _ _⟩

theorem toTpvector_of_ok {cat : Catalog} {tok : Tokenizer Term} {document indexName : String}
    {metap : IndexMeta} {tsvector : TermVector Term}
    (hmeta : lookupMetapage cat indexName = .ok metap)
    (htok : tok.toTsvectorById (tokenizerCall cat metap document).1
      (tokenizerCall cat metap document).2 = .ok tsvector) :
    toTpvector cat tok document indexName =
      .ok (tok.qsort.sort (fun a b => tok.strcmp a.1 b.1) tsvector.entries) := by
  unfold toTpvector
  rw [hmeta]
  simp only [bind, Except.bind, htok]
  rfl

theorem same_of_perm {terms terms' : List (Term × Nat)} (h : terms.Perm terms') :
    (addedDocument terms').Same (addedDocument terms) :=
  ⟨h.symm, (h.map Prod.snd).sum_eq.symm⟩

/-- A text column under a name that keeps the configuration is recovered as it was
inserted. -/
theorem recoversInserted_of_text {cat : Catalog} {idx : IndexRelation}
    (htext : idx.metap.indexedType = .text) (hname : NameKeepsConfig cat idx)
    (tok : Tokenizer Term) : RecoversInserted cat tok idx := by
  intro datum hdatum added hinsert
  cases datum with
  | tsvector tv =>
      rw [htext] at hdatum
      cases hdatum
  | text document =>
      obtain ⟨terms, hterms, h⟩ := bind_eq_ok hinsert
      cases h
      obtain ⟨metap, tsvector, hmeta, htok, hperm⟩ := toTpvector_eq_ok hterms
      obtain ⟨hconfig, hvalid⟩ := hname metap hmeta
      have hcall : tokenizerCall cat metap document = (idx.metap.textConfigOid, document) := by
        rw [tokenizerCall, if_pos hvalid, hconfig]
      rw [hcall] at htok
      refine ⟨addedDocument tsvector.entries, ?_, same_of_perm hperm⟩
      show (tok.toTsvectorById idx.metap.textConfigOid document >>= _) = _
      rw [htok]
      rfl

/-! ## When they do not -/

section Separating

variable [Inhabited Term]

/-- A document of one word. -/
def singleWord : TermVector Term where
  entries := [(default, 1)]
  nodup := List.nodup_singleton _
  positive := by simp

omit [Inhabited Term] in
/-- A document without words. -/
def noWords : TermVector Term where
  entries := []
  nodup := List.nodup_nil
  positive := by simp

/-- A tokeniser that finds a word exactly where `finds` says so. -/
def findingTokenizer (Term : Type) [Inhabited Term] (finds : Nat → String → Bool) :
    Tokenizer Term where
  toTsvectorById := fun config document =>
    .ok (if finds config document then singleWord else noWords)
  tsvectorBytes := fun _ => ""
  strcmp := fun _ _ => 0
  qsort := insertionQsort

private theorem not_same_word :
    ¬ (addedDocument ([] : List (Term × Nat))).Same (addedDocument [(default, 1)]) :=
  fun hsame => Nat.zero_ne_one hsame.2

/-- A `tsvector` column is not recovered by a tokeniser that finds no words. -/
theorem not_recoversInserted_of_tsvector {cat : Catalog} {idx : IndexRelation}
    (h : idx.metap.indexedType = .tsvector) :
    ¬ RecoversInserted cat (findingTokenizer Term fun _ _ => false) idx := by
  intro hrec
  obtain ⟨recovered, hrecover, hsame⟩ := hrec (.tsvector singleWord) h.symm _ rfl
  cases hrecover
  exact not_same_word hsame

/-- Where the tokeniser finds a word in the call `tp_insert` makes but none in the
call recovery makes, the two differ. -/
theorem not_recoversInserted_of_call {cat : Catalog} {idx : IndexRelation} {metap : IndexMeta}
    (document : String) (finds : Nat → String → Bool)
    (htext : idx.metap.indexedType = .text)
    (hmeta : lookupMetapage cat idx.qualifiedName = .ok metap)
    (hinsert : finds (tokenizerCall cat metap document).1
      (tokenizerCall cat metap document).2 = true)
    (hrecover : finds idx.metap.textConfigOid document = false) :
    ¬ RecoversInserted cat (findingTokenizer Term finds) idx := by
  intro hrec
  have hword : (findingTokenizer Term finds).toTsvectorById (tokenizerCall cat metap document).1
      (tokenizerCall cat metap document).2 = .ok singleWord := by
    simp [findingTokenizer, hinsert]
  have hadded : insertDocument cat (findingTokenizer Term finds) idx (.text document) =
      .ok (addedDocument [(default, 1)]) := by
    rw [insertDocument, toTpvector_of_ok hmeta hword]
    rfl
  obtain ⟨recovered, hok, hsame⟩ := hrec (.text document) htext.symm _ hadded
  have hnone : recoverDocument (findingTokenizer Term finds) idx (.text document) =
      .ok (addedDocument []) := by
    show Except.ok (addedDocument (if finds idx.metap.textConfigOid document = true then
      singleWord else noWords).entries) = _
    rw [hrecover]
    rfl
  cases hok.symm.trans hnone
  exact not_same_word hsame

/-- **The exact condition**: whatever the tokeniser, recovery re-indexes what insert
indexed, if and only if the column is a text column and the unquoted name of the
index does not lead to an index with another configuration or none. -/
theorem recovery_reindexes_iff (cat : Catalog) (idx : IndexRelation) :
    (∀ tok : Tokenizer Term, RecoversInserted cat tok idx) ↔
      idx.metap.indexedType = .text ∧ NameKeepsConfig cat idx := by
  constructor
  · intro h
    have htext : idx.metap.indexedType = .text := by
      cases htype : idx.metap.indexedType with
      | text => rfl
      | tsvector => exact absurd (h _) (not_recoversInserted_of_tsvector htype)
    refine ⟨htext, ?_⟩
    intro metap hmeta
    by_cases hvalid : metap.textConfigOid = invalidOid
    · -- the call is made with the word "english" in place of the document
      have hcall : tokenizerCall cat metap "" = (cat.tsCurrentConfig, "english") := by
        rw [tokenizerCall, if_neg (not_not.2 hvalid)]
      exact absurd (h _) (not_recoversInserted_of_call ""
        (fun _ document => document = "english") htext hmeta (by simp [hcall]) (by decide))
    · refine ⟨?_, hvalid⟩
      by_contra hconfig
      have hcall : tokenizerCall cat metap "" = (metap.textConfigOid, "") := by
        rw [tokenizerCall, if_pos hvalid]
      exact absurd (h _) (not_recoversInserted_of_call ""
        (fun config _ => config = metap.textConfigOid) htext hmeta (by simp [hcall])
        (by simpa using Ne.symm hconfig))
  · rintro ⟨htext, hname⟩ tok
    exact recoversInserted_of_text htext hname tok

end Separating

/-! ## Two indexes that are not recovered -/

/-- The catalog of a database with two indexes on text columns, `public."Docs"`
(configuration 100) and `public.docs` (configuration 200), and one on a `tsvector`
column without configuration, `public.vecs`. -/
def twoCaseCatalog : Catalog where
  stringToQualifiedNameList := fun name =>
    if name = "public.Docs" ∨ name = "public.docs" then .ok ["public", "docs"]
    else if name = "public.vecs" then .ok ["public", "vecs"]
    else .error .invalidNameSyntax
  relid := fun schemaName relName =>
    if schemaName ≠ "public" then none
    else if relName = "Docs" then some 1
    else if relName = "docs" then some 2
    else if relName = "vecs" then some 3
    else none
  searchPathRelid := fun _ => none
  metapage := fun oid =>
    if oid = 1 then .ok ⟨.text, 100⟩
    else if oid = 2 then .ok ⟨.text, 200⟩
    else if oid = 3 then .ok ⟨.tsvector, invalidOid⟩
    else .error (.notABm25Index oid)
  tsCurrentConfig := 200

/-- Configuration 100 drops the word, 200 keeps it; there is no other. -/
def stopWordTokenizer : Tokenizer String where
  toTsvectorById := fun config document =>
    if config = 100 then .ok noWords
    else if config = 200 then
      if document = "the" then .ok ⟨[("the", 1)], by decide, by decide⟩ else .ok noWords
    else .error (.cacheLookupFailed config)
  tsvectorBytes := fun _ => "\x01\x00\x00\x00\x06\x00\x00\x00the"
  strcmp := fun a b => if a < b then -1 else if b < a then 1 else 0
  qsort := insertionQsort

/-- Recovery of a `tsvector` column without configuration raises an error, and a
mixed-case index name makes `tp_insert` tokenise with another index's configuration. -/
theorem unrecovered_columns :
    ¬ RecoversInserted twoCaseCatalog stopWordTokenizer
      ⟨"public", "vecs", ⟨.tsvector, invalidOid⟩⟩ ∧
    ¬ RecoversInserted twoCaseCatalog stopWordTokenizer ⟨"public", "Docs", ⟨.text, 100⟩⟩ := by
  constructor
  · intro hrec
    have hword := hrec (.tsvector ⟨[("the", 1)], by decide, by decide⟩) rfl _ rfl
    obtain ⟨recovered, hrecover, -⟩ := hword
    cases hrecover
  · intro hrec
    have hadded : insertDocument twoCaseCatalog stopWordTokenizer
        ⟨"public", "Docs", ⟨.text, 100⟩⟩ (.text "the") = .ok ⟨[("the", 1)], 1⟩ := by
      decide
    obtain ⟨recovered, hrecover, hsame⟩ := hrec (.text "the") rfl _ hadded
    cases hrecover
    exact absurd hsame.1.length_eq (by decide)

/-! ## The run model's analyzer -/

/-- The analyzer of an index, where tokenising does not fail. -/
def analyzer (tok : Tokenizer Term) (idx : IndexRelation) : Analyzer (Datum Term) Term where
  indexedType := idx.metap.indexedType
  toTsvector := fun datum =>
    match tok.toTsvectorById idx.metap.textConfigOid (tok.datumGetTextPP datum) with
    | .ok tv => tv
    | .error _ => noWords
  tsvectorTerms := fun datum =>
    match datum with
    | .tsvector tv => tv
    | .text _ => noWords

/-- **Where the name keeps the configuration**, the terms the run model inserts are
those that `tp_insert` extracts, for text and `tsvector` columns. -/
theorem insertTerms_analyzer {cat : Catalog} {tok : Tokenizer Term} {idx : IndexRelation}
    (hname : NameKeepsConfig cat idx) {datum : Datum Term}
    (htype : datum.indexedType = idx.metap.indexedType) {added : AddedDocument Term}
    (hinsert : insertDocument cat tok idx datum = .ok added) :
    (addedDocument ((analyzer tok idx).insertTerms datum).entries).Same added := by
  cases datum with
  | tsvector tv =>
      cases hinsert
      have hterms : (analyzer tok idx).insertTerms (.tsvector tv) = tv := by
        simp [Analyzer.insertTerms, analyzer, ← htype, Datum.indexedType]
      rw [hterms]
      exact same_of_perm (List.Perm.refl _)
  | text document =>
      obtain ⟨recovered, hrecover, hsame⟩ :=
        recoversInserted_of_text htype.symm hname tok (.text document) htype added hinsert
      obtain ⟨tsvector, htok, h⟩ := bind_eq_ok hrecover
      cases h
      have hterms : (analyzer tok idx).insertTerms (.text document) = tsvector := by
        simp [Analyzer.insertTerms, analyzer, ← htype, Datum.indexedType, htok]
      rw [hterms]
      exact hsame

end PgTextsearch.State
