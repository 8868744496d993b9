import PgTextsearch.Segment.FileReader

/-!
# Dictionary lookup by its sections (`segment/scan.c`)

The lookup of `tp_segment_posting_iterator_init` over any way of reading bytes: what it
answers follows from the bytes of the dictionary, the string pool and the dictionary entries
alone.  Run with a reader that refuses every range outside of these sections, it answers the
same.

## Main results

* `tpSegmentPostingIteratorInit_eq` — the lookup of a segment is this one.
* `Serves.of_sections` — what reading ranges of the sections answers.
* `Serves.findEntry_eq` — the lookup is exact.
-/

namespace PgTextsearch.Segment.File

open PgTextsearch.Postgres PgTextsearch.Verified

/-! ## The sections -/

/-- The dictionary: the number of terms and the offsets in the string pool. -/
def dictionaryImage (terms : List CString) : List (Fin 256) :=
  leBytes 4 terms.length ++ ((runningOffsets 0 (terms.map stringSize)).map (leBytes 4)).flatten

/-- The string pool. -/
def stringPoolImage (terms : List CString) : List (Fin 256) :=
  (terms.zipIdx.map fun p => stringRecord p.1 p.2).flatten

/-- The dictionary entries. -/
def entriesImage (records : List DictRecord) : List (Fin 256) :=
  (records.map DictRecord.bytes).flatten

/-- These are the sections of a segment file. -/
theorem Parts.sections_eq (f : Parts) :
    f.dictionarySection = dictionaryImage f.terms ∧
      f.stringRecords.flatten = stringPoolImage f.terms ∧
      f.entriesSection = entriesImage f.dictRecords :=
  ⟨rfl, rfl, rfl⟩

/-- A dictionary entry whose values fit their fields. -/
structure DictRecord.Fits (e : DictRecord) : Prop where
  skipIndexOffset_lt : e.skipIndexOffset < 2 ^ 32
  blockCount_lt : e.blockCount < 2 ^ 16
  docFreq_lt : e.docFreq < 2 ^ 32

/-- Where the string of a term begins in the pool. -/
def stringOffsetAt (terms : List CString) (i : Nat) : Nat := ((terms.map stringSize).take i).sum

/-! ## The lookup, over any reads -/

/-- Reading a range of bytes. -/
abbrev ReadAt (ε : Type) := Nat → Nat → Except ε (List (Fin 256))

section Lookup

variable {ε : Type} (read : ReadAt ε) (header : Header) (term : CString)

/-- Read a `uint32`. -/
def readNumber (offset : Nat) : Except ε Nat := do
  let bytes ← read offset 4
  return byteValue bytes

/-- One round of the binary search. -/
def compareBy (mid : Nat) : Except ε Int := do
  let stringOffsetValue ← readNumber read (header.dictionaryOffset + 4 + mid * 4)
  let stringOffset := header.stringsOffset + stringOffsetValue
  let length ← readNumber read stringOffset
  let text ← read (stringOffset + 4) length
  return strcmp term.bytes (cString text)

/-- The binary search. -/
def searchBy : Except ε (Option Nat) := do
  let numTerms ← readNumber read header.dictionaryOffset
  threeWaySearch (compareBy read header term) numTerms 0 (numTerms - 1)

/-- The entry that was found. -/
def entryBy (mid : Nat) : Except ε DictRecord := do
  let bytes ← read (header.entriesOffset + mid * dictEntrySize) dictEntrySize
  return DictRecord.ofBytes bytes

/-- The lookup: the index of the term and its dictionary entry. -/
def findEntryBy : Except ε (Option (Nat × DictRecord)) :=
  if header.numTerms = 0 ∨ header.dictionaryOffset = 0 then .ok none
  else do
    match ← searchBy read header term with
    | none => return none
    | some mid =>
        let entry ← entryBy read header mid
        return some (mid, entry)

end Lookup

/-- **The lookup of a segment** is the lookup over the reads of the segment. -/
theorem tpSegmentPostingIteratorInit_eq (reader : FileReader) (term : CString) :
    tpSegmentPostingIteratorInit reader term =
      (findEntryBy (tpSegmentRead reader) reader.header term).map (Option.map fun found =>
        ⟨reader, found.1, found.2, true, found.2.blockCount == 0, 0, 0, default, none⟩) := by
  unfold tpSegmentPostingIteratorInit findEntryBy
  split_ifs
  · rfl
  · have hsearch : searchDictionary reader term =
        searchBy (tpSegmentRead reader) reader.header term := rfl
    rw [hsearch]
    cases searchBy (tpSegmentRead reader) reader.header term with
    | error err => rfl
    | ok found =>
        cases found with
        | none => rfl
        | some mid =>
            show (do
              let it ← iteratorAt reader mid
              return some it) = Except.map _ (do
                let entry ← entryBy (tpSegmentRead reader) reader.header mid
                return some (mid, entry))
            unfold iteratorAt entryBy
            cases tpSegmentRead reader (reader.header.entriesOffset + mid * dictEntrySize)
              dictEntrySize <;> rfl

/-! ## What the reads answer -/

/-- What reading the sections answers, record by record. -/
structure Serves {ε : Type} (read : ReadAt ε) (d s e : Nat) (terms : List CString)
    (records : List DictRecord) : Prop where
  numTerms : readNumber read d = .ok terms.length
  stringOffset : ∀ i < terms.length,
    readNumber read (d + 4 + i * 4) = .ok (stringOffsetAt terms i)
  stringLength : ∀ i t, terms[i]? = some t →
    readNumber read (s + stringOffsetAt terms i) = .ok t.bytes.length
  stringText : ∀ i t, terms[i]? = some t →
    read (s + stringOffsetAt terms i + 4) t.bytes.length = .ok t.bytes
  entryOffset : ∀ i t, terms[i]? = some t →
    readNumber read (s + stringOffsetAt terms i + 4 + t.bytes.length) = .ok (i * dictEntrySize)
  entry : ∀ i r, records[i]? = some r → read (e + i * dictEntrySize) dictEntrySize = .ok r.bytes

/-- Ranges of a section that begins at `start` are answered. -/
def Answers {ε : Type} (read : ReadAt ε) (start : Nat) (bytes : List (Fin 256)) : Prop :=
  ∀ o part, LiesAt bytes o part → read (start + o) part.length = .ok part

theorem Answers.number {ε : Type} {read : ReadAt ε} {start : Nat} {bytes : List (Fin 256)}
    (h : Answers read start bytes) {o n : Nat} (hlies : LiesAt bytes o (leBytes 4 n))
    (hn : n < 2 ^ 32) : readNumber read (start + o) = .ok n := by
  have hread := h o _ hlies
  rw [length_leBytes] at hread
  rw [readNumber, hread]
  show Except.ok (byteValue (leBytes 4 n)) = _
  rw [byteValue_leBytes, Nat.mod_eq_of_lt (by omega)]

/-! ### Texts

The sections of any texts: the strings of other writers may contain NUL. -/

/-- The size of a string in the pool. -/
def textSize (text : List (Fin 256)) : Nat := 4 + text.length + 4

/-- A string of the pool: length, text, and the offset of the dictionary entry. -/
def textRecord (text : List (Fin 256)) (index : Nat) : List (Fin 256) :=
  leBytes 4 text.length ++ text ++ leBytes 4 (index * dictEntrySize)

/-- The dictionary of texts. -/
def textDictionary (texts : List (List (Fin 256))) : List (Fin 256) :=
  leBytes 4 texts.length ++ ((runningOffsets 0 (texts.map textSize)).map (leBytes 4)).flatten

/-- The string pool of texts. -/
def textPool (texts : List (List (Fin 256))) : List (Fin 256) :=
  (texts.zipIdx.map fun p => textRecord p.1 p.2).flatten

/-- Where the string of a text begins in the pool. -/
def textOffsetAt (texts : List (List (Fin 256))) (i : Nat) : Nat :=
  ((texts.map textSize).take i).sum

/-- What reading the sections of texts answers. -/
structure ServesTexts {ε : Type} (read : ReadAt ε) (d s e : Nat)
    (texts : List (List (Fin 256))) (records : List DictRecord) : Prop where
  numTexts : readNumber read d = .ok texts.length
  stringOffset : ∀ i < texts.length, readNumber read (d + 4 + i * 4) = .ok (textOffsetAt texts i)
  stringLength : ∀ i t, texts[i]? = some t →
    readNumber read (s + textOffsetAt texts i) = .ok t.length
  stringText : ∀ i t, texts[i]? = some t → read (s + textOffsetAt texts i + 4) t.length = .ok t
  entryOffset : ∀ i t, texts[i]? = some t →
    readNumber read (s + textOffsetAt texts i + 4 + t.length) = .ok (i * dictEntrySize)
  entry : ∀ i r, records[i]? = some r → read (e + i * dictEntrySize) dictEntrySize = .ok r.bytes

theorem length_textRecord (text : List (Fin 256)) (index : Nat) :
    (textRecord text index).length = textSize text := by
  rw [textRecord, List.length_append, List.length_append, length_leBytes, length_leBytes]
  rfl

/-- The string of a text in the pool. -/
theorem liesAt_textRecord {texts : List (List (Fin 256))} {i : Nat} {t : List (Fin 256)}
    (ht : texts[i]? = some t) :
    LiesAt (textPool texts) (textOffsetAt texts i) (textRecord t i) := by
  have hrecord :
    (texts.zipIdx.map fun p => textRecord p.1 p.2)[i]? = some (textRecord t i) := by
    rw [List.getElem?_map, List.getElem?_zipIdx, ht]
    simp
  have hlies := (LiesAt.refl (textPool texts)).record hrecord
  have hsizes : ∀ l : List (List (Fin 256) × Nat),
      (l.map fun p => textRecord p.1 p.2).map List.length = l.map fun p => textSize p.1 := by
    intro l
    rw [List.map_map]
    exact List.map_congr_left fun p _ => length_textRecord p.1 p.2
  have hmap : texts.zipIdx.map (fun p => textSize p.1) = texts.map textSize := by
    rw [← Function.comp_def textSize Prod.fst, ← List.map_map, List.zipIdx_map_fst]
  rwa [Nat.zero_add, List.length_flatten, List.map_take, hsizes, hmap] at hlies

/-- **Reading ranges of the sections** answers the records of the texts. -/
theorem ServesTexts.of_sections {ε : Type} {read : ReadAt ε} {d s e : Nat}
    {texts : List (List (Fin 256))} {records : List DictRecord}
    (hdict : Answers read d (textDictionary texts))
    (hstrings : Answers read s (textPool texts))
    (hentries : Answers read e (entriesImage records))
    (hlen : records.length = texts.length)
    (hdictLen : (textDictionary texts).length ≤ 2 ^ 32)
    (hstringsLen : (textPool texts).length ≤ 2 ^ 32)
    (hentriesLen : (entriesImage records).length ≤ 2 ^ 32) :
    ServesTexts read d s e texts records := by
  have hoffsetWidth : ∀ p ∈ (runningOffsets 0 (texts.map textSize)).map (leBytes 4),
      p.length = 4 := by
    intro p hp
    obtain ⟨n, -, rfl⟩ := List.mem_map.1 hp
    exact length_leBytes 4 n
  have hcount : texts.length < 2 ^ 32 := by
    unfold textDictionary at hdictLen
    rw [List.length_append, length_leBytes, length_flatten_pages hoffsetWidth, List.length_map,
      length_runningOffsets, List.length_map] at hdictLen
    omega
  have hwidth : ∀ r ∈ records.map DictRecord.bytes, r.length = dictEntrySize := by
    intro r hr
    obtain ⟨record, -, rfl⟩ := List.mem_map.1 hr
    exact record.length_bytes
  have hentriesSize : texts.length * dictEntrySize ≤ 2 ^ 32 := by
    rw [entriesImage, length_flatten_pages hwidth, List.length_map, hlen] at hentriesLen
    exact hentriesLen
  have hrecord : ∀ i t, texts[i]? = some t → textOffsetAt texts i + textSize t ≤ 2 ^ 32 := by
    intro i t ht
    have hle := (liesAt_textRecord ht).length_le
    rw [length_textRecord] at hle
    omega
  constructor
  case numTexts => exact hdict.number (LiesAt.refl (textDictionary texts)).left hcount
  case stringOffset =>
    intro i hi
    have hlies := (LiesAt.refl (textDictionary texts)).right
    rw [length_leBytes, Nat.zero_add] at hlies
    have hrow : ((runningOffsets 0 (texts.map textSize)).map (leBytes 4))[i]? =
        some (leBytes 4 (textOffsetAt texts i)) := by
      rw [List.getElem?_map, getElem?_runningOffsets 0 (by rwa [List.length_map]), Nat.zero_add]
      rfl
    have hoffset := hlies.fixedRecord hoffsetWidth hrow
    have hbound := hrecord i _ (List.getElem?_eq_getElem hi)
    have hread := hdict.number hoffset (by unfold textSize at hbound; omega)
    rwa [← Nat.add_assoc] at hread
  case stringLength =>
    intro i t ht
    have hbound := hrecord i t ht
    have hlies := liesAt_textRecord ht
    unfold textRecord at hlies
    exact hstrings.number hlies.left.left (by unfold textSize at hbound; omega)
  case stringText =>
    intro i t ht
    have hlies := liesAt_textRecord ht
    unfold textRecord at hlies
    have htext := hlies.left.right
    rw [length_leBytes] at htext
    have hread := hstrings _ _ htext
    rwa [← Nat.add_assoc] at hread
  case entryOffset =>
    intro i t ht
    have hi := (List.getElem?_eq_some_iff.1 ht).1
    have hlies := liesAt_textRecord ht
    unfold textRecord at hlies
    have hoffset := hlies.right
    rw [List.length_append, length_leBytes] at hoffset
    have hread := hstrings.number hoffset (by
      have := Nat.mul_lt_mul_of_pos_right hi (show 0 < dictEntrySize by decide)
      omega)
    rwa [← Nat.add_assoc, ← Nat.add_assoc] at hread
  case entry =>
    intro i r hr
    have hlies := (LiesAt.refl (entriesImage records)).fixedRecord hwidth (n := i) (r := r.bytes)
      (by rw [List.getElem?_map, hr]; rfl)
    rw [Nat.zero_add] at hlies
    have hread := hentries _ _ hlies
    rwa [r.length_bytes] at hread

/-! ### Terms -/

section Sections

variable {ε : Type} {read : ReadAt ε} {d s e : Nat} {terms : List CString}
  {records : List DictRecord}

/-- The sections of terms are those of their texts. -/
theorem dictionaryImage_eq (terms : List CString) :
    dictionaryImage terms = textDictionary (terms.map CString.bytes) := by
  rw [dictionaryImage, textDictionary, List.length_map, List.map_map]
  rfl

theorem stringPoolImage_eq (terms : List CString) :
    stringPoolImage terms = textPool (terms.map CString.bytes) := by
  rw [stringPoolImage, textPool, List.zipIdx_map, List.map_map]
  rfl

theorem stringOffsetAt_eq (terms : List CString) (i : Nat) :
    stringOffsetAt terms i = textOffsetAt (terms.map CString.bytes) i := by
  rw [stringOffsetAt, textOffsetAt, List.map_map]
  rfl

theorem getElem?_texts {i : Nat} {t : CString} (ht : terms[i]? = some t) :
    (terms.map CString.bytes)[i]? = some t.bytes := by
  rw [List.getElem?_map, ht]
  rfl

/-- Answers about the texts of terms are answers about the terms. -/
theorem ServesTexts.serves (h : ServesTexts read d s e (terms.map CString.bytes) records) :
    Serves read d s e terms records where
  numTerms := by
    rw [h.numTexts, List.length_map]
  stringOffset := by
    intro i hi
    rw [stringOffsetAt_eq]
    exact h.stringOffset i (by rwa [List.length_map])
  stringLength := by
    intro i t ht
    rw [stringOffsetAt_eq]
    exact h.stringLength i _ (getElem?_texts ht)
  stringText := by
    intro i t ht
    rw [stringOffsetAt_eq]
    exact h.stringText i _ (getElem?_texts ht)
  entryOffset := by
    intro i t ht
    rw [stringOffsetAt_eq]
    exact h.entryOffset i _ (getElem?_texts ht)
  entry := h.entry

/-- **Reading ranges of the sections** answers the records of the terms. -/
theorem Serves.of_sections (hdict : Answers read d (dictionaryImage terms))
    (hstrings : Answers read s (stringPoolImage terms))
    (hentries : Answers read e (entriesImage records))
    (hlen : records.length = terms.length)
    (hdictLen : (dictionaryImage terms).length ≤ 2 ^ 32)
    (hstringsLen : (stringPoolImage terms).length ≤ 2 ^ 32)
    (hentriesLen : (entriesImage records).length ≤ 2 ^ 32) :
    Serves read d s e terms records := by
  rw [dictionaryImage_eq] at hdict hdictLen
  rw [stringPoolImage_eq] at hstrings hstringsLen
  exact (ServesTexts.of_sections hdict hstrings hentries (by rw [hlen, List.length_map]) hdictLen
    hstringsLen hentriesLen).serves

end Sections

/-! ## The lookup is exact -/

/-- A range in the bounds of a list. -/
def inRange (sections : List (Nat × Nat)) (offset len : Nat) : Bool :=
  sections.any fun sec => decide (sec.1 ≤ offset ∧ offset + len ≤ sec.1 + sec.2)

/-- A reader that has nothing but some sections of the data, each given by its offset and its
length: every other range is an error. -/
def sectionRead (data : List (Fin 256)) (sections : List (Nat × Nat)) : ReadAt Unit :=
  fun offset len => if inRange sections offset len then .ok (slice data offset len) else .error ()

theorem answers_sectionRead {data bytes : List (Fin 256)} {start : Nat}
    (hlies : LiesAt data start bytes) {sections : List (Nat × Nat)}
    (hsec : (start, bytes.length) ∈ sections) :
    Answers (sectionRead data sections) start bytes := by
  intro o part hpart
  have hin : inRange sections (start + o) part.length = true := by
    have hle := hpart.length_le
    exact List.any_eq_true.2 ⟨_, hsec, by simp only [decide_eq_true_eq]; omega⟩
  rw [sectionRead, if_pos hin, (hlies.trans hpart).slice_eq]

theorem answers_tpSegmentRead {reader : FileReader} {data bytes : List (Fin 256)} {start : Nat}
    (hpaged : Paged segmentDataPerPage reader.pages data) (hlies : LiesAt data start bytes) :
    Answers (tpSegmentRead reader) start bytes := by
  intro o part hpart
  rw [tpSegmentRead, readPages_part (by decide) hpaged (hlies.trans hpart)]

/-- How the target compares with the text at an index. -/
def compareTexts (texts : List (List (Fin 256))) (text : List (Fin 256)) (i : Nat) : Int :=
  ((texts[i]?).map fun t => strcmp text t).getD 0

section Texts

variable {texts : List (List (Fin 256))}

theorem compareTexts_eq {i : Nat} {t : List (Fin 256)} (ht : texts[i]? = some t)
    (text : List (Fin 256)) : compareTexts texts text i = strcmp text t := by
  rw [compareTexts, ht]
  rfl

/-- The comparisons of a sorted dictionary change the sign once. -/
theorem compareTexts_mono (hsorted : texts.Pairwise (· < ·)) (text : List (Fin 256)) (i j : Nat)
    (hij : i < j) (hj : j < texts.length) (hle : compareTexts texts text i ≤ 0) :
    compareTexts texts text j < 0 := by
  rw [compareTexts_eq (List.getElem?_eq_getElem (hij.trans hj)), ← not_lt, strcmp_pos_iff,
    not_lt] at hle
  rw [compareTexts_eq (List.getElem?_eq_getElem hj), strcmp_neg_iff]
  exact hle.trans_lt (List.pairwise_iff_getElem.1 hsorted i j (hij.trans hj) hj hij)

theorem compareTexts_eq_zero {text : List (Fin 256)} {i : Nat} (ht : texts[i]? = some text) :
    compareTexts texts text i = 0 := by
  rw [compareTexts_eq ht]
  exact (strcmp_eq_zero_iff _ _).2 rfl

theorem compareTexts_ne_zero {text : List (Fin 256)} (htext : text ∉ texts) (i : Nat)
    (hi : i < texts.length) : compareTexts texts text i ≠ 0 := by
  intro hzero
  rw [compareTexts_eq (List.getElem?_eq_getElem hi)] at hzero
  have heq := (strcmp_eq_zero_iff _ _).1 hzero
  exact htext (heq ▸ List.getElem_mem hi)

end Texts

section Exact

variable {ε : Type} {read : ReadAt ε} {d s e : Nat} {terms : List CString}
  {records : List DictRecord}

/-- How the target compares with the term at an index. -/
def compareWith (terms : List CString) (text : List (Fin 256)) (i : Nat) : Int :=
  ((terms[i]?).map fun t => strcmp text t.bytes).getD 0

/-- It compares with the text of the term. -/
theorem compareWith_eq_compareTexts (terms : List CString) (text : List (Fin 256)) (i : Nat) :
    compareWith terms text i = compareTexts (terms.map CString.bytes) text i := by
  rw [compareWith, compareTexts, List.getElem?_map, Option.map_map]
  rfl

theorem compareWith_eq {terms : List CString} {i : Nat} {t : CString} (ht : terms[i]? = some t)
    (text : List (Fin 256)) : compareWith terms text i = strcmp text t.bytes := by
  rw [compareWith, ht]
  rfl

/-- The comparisons of a sorted dictionary change the sign once. -/
theorem compareWith_mono (hsorted : terms.Pairwise fun a b => a.bytes < b.bytes)
    (text : List (Fin 256)) (i j : Nat) (hij : i < j) (hj : j < terms.length)
    (hle : compareWith terms text i ≤ 0) : compareWith terms text j < 0 := by
  rw [compareWith_eq_compareTexts] at hle ⊢
  exact compareTexts_mono (List.pairwise_map.2 hsorted) text i j hij (by rwa [List.length_map]) hle

theorem compareWith_eq_zero {term : CString} {i : Nat} (ht : terms[i]? = some term) :
    compareWith terms term.bytes i = 0 := by
  rw [compareWith_eq_compareTexts]
  exact compareTexts_eq_zero (getElem?_texts ht)

/-- A term is in the list exactly when its text is. -/
theorem mem_texts {term : CString} : term.bytes ∈ terms.map CString.bytes ↔ term ∈ terms := by
  constructor
  · intro hmem
    obtain ⟨t, ht, heq⟩ := List.mem_map.1 hmem
    rwa [← CString.ext_bytes heq]
  · exact List.mem_map_of_mem

theorem compareWith_ne_zero {term : CString} (hterm : term ∉ terms) (i : Nat)
    (hi : i < terms.length) : compareWith terms term.bytes i ≠ 0 := by
  rw [compareWith_eq_compareTexts]
  exact compareTexts_ne_zero (mt mem_texts.1 hterm) i (by rwa [List.length_map])

/-- One round compares with the term at the index. -/
theorem Serves.compareBy_eq (hserves : Serves read d s e terms records) {header : Header}
    (hd : header.dictionaryOffset = d) (hs : header.stringsOffset = s) (term : CString) {i : Nat}
    (hi : i < terms.length) :
    compareBy read header term i = .ok (compareWith terms term.bytes i) := by
  have ht := List.getElem?_eq_getElem hi
  rw [compareBy, hd, hs, bind_of_eq_ok (hserves.stringOffset i hi),
    bind_of_eq_ok (hserves.stringLength i _ ht), bind_of_eq_ok (hserves.stringText i _ ht),
    Reads.cString_of_nul_free (terms[i]).nul_free, compareWith_eq ht]
  rfl

/-- **The lookup is exact**: over a sorted dictionary it finds the index and the entry of the
term, and nothing for a term that is not there. -/
theorem Serves.findEntry_eq (hserves : Serves read d s e terms records)
    (hsorted : terms.Pairwise fun a b => a.bytes < b.bytes) (hfits : ∀ r ∈ records, r.Fits)
    {header : Header} (hnum : header.numTerms = terms.length)
    (hd : header.dictionaryOffset = d) (hs : header.stringsOffset = s)
    (he : header.entriesOffset = e) (hpos : 0 < d) (term : CString) :
    (∀ i r, terms[i]? = some term → records[i]? = some r →
        findEntryBy read header term = .ok (some (i, r))) ∧
      (term ∉ terms → findEntryBy read header term = .ok none) := by
  have hfetch : ∀ i < terms.length, compareBy read header term i =
      .ok (compareWith terms term.bytes i) := fun i hi => hserves.compareBy_eq hd hs term hi
  have hmono := compareWith_mono hsorted term.bytes
  constructor
  · intro i r ht hr
    have hi := (List.getElem?_eq_some_iff.1 ht).1
    have hsearch : searchBy read header term = .ok (some i) := by
      rw [searchBy, hd, bind_of_eq_ok hserves.numTerms]
      exact threeWaySearch_found hfetch hmono hi (compareWith_eq_zero ht)
    have hentry : entryBy read header i = .ok r := by
      have hr' := hfits r (List.mem_of_getElem? hr)
      have hbytes := DictRecord.ofBytes_bytes hr'.skipIndexOffset_lt hr'.blockCount_lt
        hr'.docFreq_lt []
      rw [List.append_nil] at hbytes
      rw [entryBy, he, bind_of_eq_ok (hserves.entry i r hr), hbytes]
      rfl
    rw [findEntryBy, if_neg (by omega), bind_of_eq_ok hsearch]
    show (do
      let entry ← entryBy read header i
      return some (i, entry)) = _
    rw [bind_of_eq_ok hentry]
    rfl
  · intro hterm
    have hsearch : searchBy read header term = .ok none := by
      rw [searchBy, hd, bind_of_eq_ok hserves.numTerms]
      exact threeWaySearch_none hfetch hmono (compareWith_ne_zero hterm)
    unfold findEntryBy
    split_ifs
    · rfl
    · rw [bind_of_eq_ok hsearch]
      rfl

end Exact

end PgTextsearch.Segment.File
