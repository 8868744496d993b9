import PgTextsearch.Segment.DictionaryLookup

/-!
# The Rust dictionary (`rust/src/segment/dictionary.rs`)

`encode_dictionary` writes the sections the C writer writes, and `lookup_term` searches them in
place.  Both lookups compare strings as byte strings, a string before its extensions, which is
the order the terms are sorted in.

## Main results

* `encodeDictionary_eq` — the sections written are those of the C format.
* `lookupTermBy_eq` — the Rust lookup is exact, over any reads that answer the sections.
* `dictionaryLookup_exact` — both lookups find a term exactly if it is in the set, with its
  entry, and read nothing but the sections.
-/

namespace PgTextsearch.Rust

open PgTextsearch.Postgres PgTextsearch.Segment PgTextsearch.Segment.File PgTextsearch.Verified

/-! ## Encoding -/

/-- The loop of `encode_dictionary` at index `i`: the string offsets and the string pool. -/
def encodeLoop : Nat → List Nat → List (Fin 256) → List (List (Fin 256)) →
    List Nat × List (Fin 256)
  | _, stringOffsets, stringsBytes, [] => (stringOffsets, stringsBytes)
  | i, stringOffsets, stringsBytes, term :: rest =>
      let entryOffset := i * dictEntrySize
      encodeLoop (i + 1) (stringOffsets ++ [stringsBytes.length])
        (stringsBytes ++ leBytes 4 term.length ++ term ++ leBytes 4 entryOffset) rest

/-- `encode_dictionary`: dictionary, strings, and placeholder entries. -/
def encodeDictionary (terms : List (List (Fin 256))) :
    List (Fin 256) × List (Fin 256) × List (Fin 256) :=
  let strings := encodeLoop 0 [] [] terms
  (leBytes 4 terms.length ++ (strings.1.map (leBytes 4)).flatten, strings.2,
    List.replicate (terms.length * dictEntrySize) 0)

theorem encodeLoop_eq (i : Nat) (stringOffsets : List Nat) (stringsBytes : List (Fin 256))
    (terms : List CString) :
    encodeLoop i stringOffsets stringsBytes (terms.map CString.bytes) =
      (stringOffsets ++ runningOffsets stringsBytes.length (terms.map stringSize),
        stringsBytes ++ ((terms.zipIdx i).map fun p => stringRecord p.1 p.2).flatten) := by
  induction terms generalizing i stringOffsets stringsBytes with
  | nil => simp [encodeLoop, runningOffsets]
  | cons t rest ih =>
      have hlen : (stringsBytes ++ leBytes 4 t.bytes.length ++ t.bytes ++
          leBytes 4 (i * dictEntrySize)).length = stringsBytes.length + stringSize t := by
        simp only [List.length_append, length_leBytes]
        unfold stringSize
        omega
      rw [List.map_cons, encodeLoop, ih, hlen]
      simp [runningOffsets, stringRecord, List.zipIdx_cons]

/-- **The sections written** are those of the C format. -/
theorem encodeDictionary_eq (terms : List CString) :
    encodeDictionary (terms.map CString.bytes) =
      (dictionaryImage terms, stringPoolImage terms,
        List.replicate (terms.length * dictEntrySize) 0) := by
  unfold encodeDictionary
  rw [encodeLoop_eq]
  simp [dictionaryImage, stringPoolImage]

/-! ## Lookup -/

/-- The order of byte slices: byte by byte, a slice before its extensions. -/
def sliceCmp : List (Fin 256) → List (Fin 256) → Ordering
  | [], [] => .eq
  | [], _ :: _ => .lt
  | _ :: _, [] => .gt
  | a :: as, b :: bs => if a < b then .lt else if b < a then .gt else sliceCmp as bs

section Lookup

variable {ε : Type} (read : ReadAt ε) (dataLen offsetsStart stringsOff entriesOff : Nat)
  (term : List (Fin 256))

/-- The search loop of `lookup_term`; the interval shrinks, so `fuel = num_terms` never runs
out. -/
def lookupLoop : Nat → Nat → Nat → Except ε (Option DictRecord)
  | 0, _, _ => .ok none
  | fuel + 1, lo, hi =>
      if lo ≤ hi then do
        let mid := lo + (hi - lo) / 2
        let strRelOff ← readNumber read (offsetsStart + mid * 4)
        let strPos := stringsOff + strRelOff
        let strLen ← readNumber read strPos
        let strData ← read (strPos + 4) strLen
        match sliceCmp strData term with
        | .eq =>
            let entryRelOff ← readNumber read (strPos + 4 + strLen)
            let entryPos := entriesOff + entryRelOff
            if entryPos + dictEntrySize > dataLen then return none
            else
              let entryBytes ← read entryPos dictEntrySize
              return some (DictRecord.ofBytes entryBytes)
        | .lt => lookupLoop fuel (mid + 1) hi
        | .gt => if mid = 0 then return none else lookupLoop fuel lo (mid - 1)
      else return none

/-- `lookup_term` over any reads. -/
def lookupTermBy (dictOffset : Nat) : Except ε (Option DictRecord) :=
  if dictOffset + 4 > dataLen then .ok none
  else do
    let numTerms ← readNumber read dictOffset
    if numTerms = 0 then return none
    else
      lookupLoop read dataLen (dictOffset + 4) stringsOff entriesOff term numTerms 0
        (numTerms - 1)

end Lookup

/-- A slice of the data; `none` past the end is a panic. -/
def sliceRead (data : List (Fin 256)) : ReadAt Unit :=
  fun offset len => if offset + len ≤ data.length then .ok (slice data offset len) else .error ()

/-- `lookup_term`. -/
def lookupTerm (data : List (Fin 256)) (dictOffset stringsOffset entriesOffset : Nat)
    (term : List (Fin 256)) : Except Unit (Option DictRecord) :=
  lookupTermBy (sliceRead data) data.length stringsOffset entriesOffset term dictOffset

/-! ## The lookup is exact -/

/-- The order of slices is that of `strcmp`, the other way round. -/
theorem sliceCmp_eq (a b : List (Fin 256)) :
    sliceCmp a b = if strcmp b a = 0 then .eq else if strcmp b a < 0 then .gt else .lt := by
  induction a generalizing b with
  | nil =>
      cases b with
      | nil => rfl
      | cons x xs => rfl
  | cons x xs ih =>
      cases b with
      | nil => rfl
      | cons y ys =>
          unfold sliceCmp strcmp
          by_cases hxy : x < y
          · simp [hxy, not_lt.2 hxy.le]
          · by_cases hyx : y < x
            · simp [hxy, hyx]
            · simp only [hxy, hyx, if_false]
              exact ih ys

section Exact

variable {ε : Type} {read : ReadAt ε} {d s e dataLen : Nat} {records : List DictRecord}

section Texts

variable {texts : List (List (Fin 256))}

/-- The loop is the closed binary search, followed by reading the entry that was found. -/
theorem lookupLoop_eq (hserves : ServesTexts read d s e texts records)
    (hlen : records.length = texts.length) (hfits : ∀ r ∈ records, r.Fits)
    (hdata : e + records.length * dictEntrySize ≤ dataLen) (term : List (Fin 256)) (fuel : Nat)
    {lo hi : Nat} (hhi : hi < texts.length) :
    lookupLoop read dataLen (d + 4) s e term fuel lo hi =
      (threeWaySearch (fun i => (Except.ok (compareTexts texts term i) : Except ε Int))
        fuel lo hi).map (fun found => found.bind fun i => records[i]?) := by
  induction fuel generalizing lo hi with
  | zero => rfl
  | succ fuel ih =>
      unfold lookupLoop threeWaySearch
      by_cases hle : lo ≤ hi
      · obtain ⟨mid, hmid⟩ : ∃ mid, mid = lo + (hi - lo) / 2 := ⟨_, rfl⟩
        have hlt : mid < texts.length := by omega
        have hcast : (lo : Int) + ((hi : Int) - lo) / 2 = (mid : Int) := by omega
        have ht := List.getElem?_eq_getElem hlt
        have hr := List.getElem?_eq_getElem (show mid < records.length by omega)
        rw [if_pos hle, if_pos (by omega)]
        simp only [← hmid, hcast, Int.toNat_natCast]
        rw [bind_of_eq_ok (hserves.stringOffset mid hlt),
          bind_of_eq_ok (hserves.stringLength mid _ ht),
          bind_of_eq_ok (hserves.stringText mid _ ht),
          bind_of_eq_ok rfl, sliceCmp_eq, compareTexts_eq ht]
        by_cases hzero : strcmp term texts[mid] = 0
        · -- the entry lies behind the string, and within the data
          have hfit : ¬ e + mid * dictEntrySize + dictEntrySize > dataLen := by
            have hmul := Nat.mul_le_mul_right dictEntrySize (show mid + 1 ≤ records.length by omega)
            rw [Nat.succ_mul] at hmul
            omega
          have hrec := hfits _ (List.getElem_mem (show mid < records.length by omega))
          have hbytes := DictRecord.ofBytes_bytes hrec.skipIndexOffset_lt hrec.blockCount_lt
            hrec.docFreq_lt []
          rw [List.append_nil] at hbytes
          simp only [hzero, if_true]
          rw [bind_of_eq_ok (hserves.entryOffset mid _ ht), if_neg hfit,
            bind_of_eq_ok (hserves.entry mid _ hr), hbytes]
          show Except.ok _ = Except.ok (records[mid]?)
          rw [hr]
        · by_cases hneg : strcmp term texts[mid] < 0
          · simp only [if_neg hzero, if_pos hneg]
            by_cases hmid0 : mid = 0
            · -- the unsigned index cannot go below zero: the interval is empty
              rw [if_pos hmid0, hmid0]
              cases fuel with
              | zero => rfl
              | succ fuel =>
                  unfold threeWaySearch
                  rw [if_neg (by omega)]
                  rfl
            · rw [if_neg hmid0, ih (by omega)]
              congr 2
              omega
          · simp only [if_neg hzero, if_neg hneg]
            rw [ih hhi]
            rfl
      · rw [if_neg hle, if_neg (by omega)]
        rfl

/-- **The Rust lookup is exact** over sorted texts. -/
theorem lookupTermBy_texts (hserves : ServesTexts read d s e texts records)
    (hsorted : texts.Pairwise (· < ·)) (hlen : records.length = texts.length)
    (hfits : ∀ r ∈ records, r.Fits) (hdict : d + 4 ≤ dataLen)
    (hdata : e + records.length * dictEntrySize ≤ dataLen) (term : List (Fin 256)) :
    (∀ (i : Nat) (r : DictRecord), texts[i]? = some term → records[i]? = some r →
        lookupTermBy read dataLen s e term d = .ok (some r)) ∧
      (term ∉ texts → lookupTermBy read dataLen s e term d = .ok none) := by
  have hunfold : lookupTermBy read dataLen s e term d =
      if texts.length = 0 then .ok none
      else lookupLoop read dataLen (d + 4) s e term texts.length 0 (texts.length - 1) := by
    rw [lookupTermBy, if_neg (by omega), bind_of_eq_ok hserves.numTexts]
    rfl
  have hmono := compareTexts_mono hsorted term
  constructor
  · intro i r ht hr
    have hi := (List.getElem?_eq_some_iff.1 ht).1
    have hsearch := threeWaySearch_found (ε := ε) (fun i _ => rfl) hmono hi
      (compareTexts_eq_zero ht)
    rw [hunfold, if_neg (by omega), lookupLoop_eq hserves hlen hfits hdata _ _ (by omega),
      show ((texts.length - 1 : Nat) : Int) = (texts.length : Int) - 1 by omega]
    refine (congrArg (Except.map _) hsearch).trans ?_
    exact congrArg Except.ok hr
  · intro hterm
    rw [hunfold]
    split_ifs with hnil
    · rfl
    · have hsearch := threeWaySearch_none (ε := ε) (fun i _ => rfl) hmono
        (compareTexts_ne_zero hterm)
      rw [lookupLoop_eq hserves hlen hfits hdata _ _ (by omega),
        show ((texts.length - 1 : Nat) : Int) = (texts.length : Int) - 1 by omega]
      exact (congrArg (Except.map _) hsearch).trans rfl

end Texts

variable {terms : List CString}

/-- **The Rust lookup is exact** over a sorted dictionary. -/
theorem lookupTermBy_eq (hserves : ServesTexts read d s e (terms.map CString.bytes) records)
    (hsorted : terms.Pairwise fun a b => a.bytes < b.bytes) (hlen : records.length = terms.length)
    (hfits : ∀ r ∈ records, r.Fits) (hdict : d + 4 ≤ dataLen)
    (hdata : e + records.length * dictEntrySize ≤ dataLen) (term : CString) :
    (∀ (i : Nat) (r : DictRecord), terms[i]? = some term → records[i]? = some r →
        lookupTermBy read dataLen s e term.bytes d = .ok (some r)) ∧
      (term ∉ terms → lookupTermBy read dataLen s e term.bytes d = .ok none) := by
  obtain ⟨hfound, hnone⟩ := lookupTermBy_texts hserves (List.pairwise_map.2 hsorted)
    (by rw [hlen, List.length_map]) hfits hdict hdata term.bytes
  refine ⟨fun i r ht hr => hfound i r (getElem?_texts ht) hr, fun hterm => hnone ?_⟩
  rwa [mem_texts]

theorem answers_sliceRead {data bytes : List (Fin 256)} {start : Nat}
    (hlies : LiesAt data start bytes) : Answers (sliceRead data) start bytes := by
  intro o part hpart
  have hlie := hlies.trans hpart
  rw [sliceRead, if_pos hlie.length_le, hlie.slice_eq]

end Exact

/-! ## A set of terms in the order of `strcmp` -/

/-- The terms in the order of `strcmp`. -/
def sortTerms (qs : Qsort) (terms : List CString) : List CString :=
  qs.sort (fun a b => strcmp a.bytes b.bytes) terms

theorem isComparator_strcmp : IsComparator fun a b : CString => strcmp a.bytes b.bytes where
  total := by
    intro a b
    rw [← not_lt, ← not_lt, strcmp_pos_iff, strcmp_pos_iff, not_lt, not_lt]
    exact le_total _ _
  trans := by
    intro a b c hab hbc
    rw [← not_lt, strcmp_pos_iff, not_lt] at hab hbc ⊢
    exact hab.trans hbc

/-- Distinct terms increase strictly when sorted. -/
theorem sortTerms_sorted (qs : Qsort) {terms : List CString} (hdistinct : terms.Nodup) :
    (sortTerms qs terms).Pairwise fun a b => a.bytes < b.bytes := by
  have hle := qs.sorted _ terms isComparator_strcmp
  have hne : (sortTerms qs terms).Pairwise (· ≠ ·) :=
    List.nodup_iff_pairwise_ne.1 ((qs.perm _ terms).nodup_iff.2 hdistinct)
  refine (hle.and hne).imp fun {a b} h => lt_of_le_of_ne ?_ fun heq => h.2 (CString.ext_bytes heq)
  rw [← not_lt, ← strcmp_pos_iff, not_lt]
  exact h.1

theorem mem_sortTerms (qs : Qsort) (terms : List CString) (term : CString) :
    term ∈ sortTerms qs terms ↔ term ∈ terms :=
  (qs.perm _ terms).mem_iff

/-- The three sections of a dictionary, anywhere in data that 32-bit offsets reach. -/
structure DictionaryAt (data : List (Fin 256)) (d s e : Nat) (terms : List CString)
    (records : List DictRecord) : Prop where
  dictionary : LiesAt data d (dictionaryImage terms)
  strings : LiesAt data s (stringPoolImage terms)
  entries : LiesAt data e (entriesImage records)
  addressable : data.length ≤ 2 ^ 32

/-- Where the sections are: offset and length. -/
def sectionsOf (d s e : Nat) (terms : List CString) (records : List DictRecord) :
    List (Nat × Nat) :=
  [(d, (dictionaryImage terms).length), (s, (stringPoolImage terms).length),
    (e, (entriesImage records).length)]

/-- The header of a segment points to the sections. -/
structure PointsTo (header : Header) (d s e count : Nat) : Prop where
  numTerms_eq : header.numTerms = count
  dictionaryOffset_eq : header.dictionaryOffset = d
  dictionaryOffset_pos : 0 < d
  stringsOffset_eq : header.stringsOffset = s
  entriesOffset_eq : header.entriesOffset = e

/-- Both lookups answer with `expected`, also when they can read nothing but the sections, and
the sections are those both writers write. -/
structure LookupsAnswer (data : List (Fin 256)) (d s e : Nat) (terms : List CString)
    (records : List DictRecord) (term : CString) (expected : Option DictRecord) : Prop where
  encoded : encodeDictionary (terms.map CString.bytes) =
    (dictionaryImage terms, stringPoolImage terms, List.replicate (terms.length * dictEntrySize) 0)
  rust : lookupTerm data d s e term.bytes = .ok expected
  rustSections : lookupTermBy (sectionRead data (sectionsOf d s e terms records)) data.length s e
    term.bytes d = .ok expected
  c : ∀ reader : FileReader, Paged segmentDataPerPage reader.pages data →
    PointsTo reader.header d s e terms.length →
    (tpSegmentPostingIteratorInit reader term).map (Option.map FileIterator.dictEntry) =
      .ok expected
  cSections : ∀ header : Header, PointsTo header d s e terms.length →
    (findEntryBy (sectionRead data (sectionsOf d s e terms records)) header term).map
      (Option.map Prod.snd) = .ok expected

section Sections

variable {data : List (Fin 256)} {d s e : Nat} {terms : List CString} {records : List DictRecord}

/-- Reads that answer the sections of a dictionary answer its records. -/
theorem DictionaryAt.serves (hat : DictionaryAt data d s e terms records)
    (hlen : records.length = terms.length) {ε : Type} {read : ReadAt ε}
    (hread : ∀ start bytes, LiesAt data start bytes →
      (start, bytes.length) ∈ sectionsOf d s e terms records → Answers read start bytes) :
    ServesTexts read d s e (terms.map CString.bytes) records := by
  have hwidth : ∀ {start : Nat} {bytes : List (Fin 256)}, LiesAt data start bytes →
      bytes.length ≤ 2 ^ 32 := by
    intro start bytes hlies
    have := hlies.length_le
    have := hat.addressable
    omega
  have hdict := hread _ _ hat.dictionary (by simp [sectionsOf])
  have hstrings := hread _ _ hat.strings (by simp [sectionsOf])
  have hdictLen := hwidth hat.dictionary
  have hstringsLen := hwidth hat.strings
  rw [dictionaryImage_eq] at hdict hdictLen
  rw [stringPoolImage_eq] at hstrings hstringsLen
  refine ServesTexts.of_sections hdict hstrings
    (hread _ _ hat.entries (by simp [sectionsOf])) ?_ hdictLen hstringsLen (hwidth hat.entries)
  rw [hlen, List.length_map]

/-- The bounds that `lookup_term` checks. -/
theorem DictionaryAt.bounds (hat : DictionaryAt data d s e terms records) :
    d + 4 ≤ data.length ∧ e + records.length * dictEntrySize ≤ data.length := by
  have hdict := hat.dictionary.left.length_le
  have hentries := hat.entries.length_le
  rw [length_leBytes] at hdict
  rw [entriesImage, length_flatten_pages (by
    intro r hr
    obtain ⟨record, -, rfl⟩ := List.mem_map.1 hr
    exact record.length_bytes), List.length_map] at hentries
  exact ⟨hdict, hentries⟩

/-- Lookups over reads that answer the sections, for a term of the dictionary and any other. -/
theorem lookups_eq {ε : Type} {read : ReadAt ε}
    (hserves : ServesTexts read d s e (terms.map CString.bytes) records)
    (hat : DictionaryAt data d s e terms records)
    (hsorted : terms.Pairwise fun a b => a.bytes < b.bytes) (hlen : records.length = terms.length)
    (hfits : ∀ r ∈ records, r.Fits) (term : CString) {expected : Option DictRecord}
    (hin : ∀ i : Nat, terms[i]? = some term → expected = records[i]?)
    (hout : term ∉ terms → expected = none) :
    lookupTermBy read data.length s e term.bytes d = .ok expected ∧
      ∀ header : Header, PointsTo header d s e terms.length →
        (findEntryBy read header term).map (Option.map Prod.snd) = .ok expected := by
  obtain ⟨hdict, hdata⟩ := hat.bounds
  have hrust := lookupTermBy_eq hserves hsorted hlen hfits hdict hdata term
  by_cases hterm : term ∈ terms
  · obtain ⟨i, ht⟩ := List.mem_iff_getElem?.1 hterm
    have hi := (List.getElem?_eq_some_iff.1 ht).1
    have hr := List.getElem?_eq_getElem (show i < records.length by omega)
    rw [hin i ht, hr]
    refine ⟨hrust.1 i _ ht hr, fun header hp => ?_⟩
    rw [(hserves.serves.findEntry_eq hsorted hfits hp.numTerms_eq hp.dictionaryOffset_eq
      hp.stringsOffset_eq hp.entriesOffset_eq hp.dictionaryOffset_pos term).1 i _ ht hr]
    rfl
  · rw [hout hterm]
    refine ⟨hrust.2 hterm, fun header hp => ?_⟩
    rw [(hserves.serves.findEntry_eq hsorted hfits hp.numTerms_eq hp.dictionaryOffset_eq
      hp.stringsOffset_eq hp.entriesOffset_eq hp.dictionaryOffset_pos term).2 hterm]
    rfl

end Sections

/-- **Dictionary lookup is exact**: for every set of distinct terms, written in the order of
`strcmp` with an entry each, both lookups find the entry of exactly the searched term, and
nothing if it is not in the set. -/
theorem dictionaryLookup_exact (qs : Qsort) (terms : List CString) (hdistinct : terms.Nodup)
    (entryOf : CString → DictRecord) (hfits : ∀ t ∈ terms, (entryOf t).Fits)
    (data : List (Fin 256)) (d s e : Nat)
    (hat : DictionaryAt data d s e (sortTerms qs terms) ((sortTerms qs terms).map entryOf))
    (term : CString) :
    LookupsAnswer data d s e (sortTerms qs terms) ((sortTerms qs terms).map entryOf) term
      (if term ∈ terms then some (entryOf term) else none) := by
  have hlen : ((sortTerms qs terms).map entryOf).length = (sortTerms qs terms).length :=
    List.length_map _
  have hsorted := sortTerms_sorted qs hdistinct
  have hfits' : ∀ r ∈ (sortTerms qs terms).map entryOf, r.Fits := by
    intro r hr
    obtain ⟨t, ht, rfl⟩ := List.mem_map.1 hr
    exact hfits t ((mem_sortTerms qs terms t).1 ht)
  have hin : ∀ i : Nat, (sortTerms qs terms)[i]? = some term →
      (if term ∈ terms then some (entryOf term) else none) =
        ((sortTerms qs terms).map entryOf)[i]? := by
    intro i ht
    rw [List.getElem?_map, ht, if_pos ((mem_sortTerms qs terms term).1 (List.mem_of_getElem? ht))]
    rfl
  have hout : term ∉ sortTerms qs terms →
      (if term ∈ terms then some (entryOf term) else none) = none := by
    intro hterm
    rw [if_neg (mt (mem_sortTerms qs terms term).2 hterm)]
  have hsections := lookups_eq (hat.serves hlen fun _ _ hlies hsec =>
    answers_sectionRead hlies hsec) hat hsorted hlen hfits' term hin hout
  constructor
  case encoded => exact encodeDictionary_eq _
  case rust =>
    exact (lookups_eq (hat.serves hlen fun _ _ hlies _ => answers_sliceRead hlies) hat hsorted
      hlen hfits' term hin hout).1
  case rustSections => exact hsections.1
  case c =>
    intro reader hpaged hp
    have hfound := (lookups_eq (hat.serves hlen fun _ _ hlies _ =>
      answers_tpSegmentRead hpaged hlies) hat hsorted hlen hfits' term hin hout).2
      reader.header hp
    rw [tpSegmentPostingIteratorInit_eq]
    rw [← hfound]
    cases findEntryBy (tpSegmentRead reader) reader.header term with
    | error err => rfl
    | ok found => cases found <;> rfl
  case cSections => exact hsections.2

theorem nul_free_b : (0 : Fin 256) ∉ [98] := by decide

theorem nul_free_ab : (0 : Fin 256) ∉ [97, 98] := by decide

/-- Three terms, one of them a prefix of another, given out of order. -/
def threeTerms : List CString :=
  [⟨[98], nul_free_b⟩, ⟨[97, 98], nul_free_ab⟩, ⟨[97], nul_free_a⟩]

/-- An entry for a term, by its length. -/
def entryByLength (t : CString) : DictRecord := ⟨100 * t.bytes.length, 1, t.bytes.length⟩

theorem dictionaryLookup_exact_three :
    LookupsAnswer
      (leBytes 4 0 ++ dictionaryImage (sortTerms insertionQsort threeTerms) ++
        stringPoolImage (sortTerms insertionQsort threeTerms) ++
        entriesImage ((sortTerms insertionQsort threeTerms).map entryByLength))
      4 20 48 (sortTerms insertionQsort threeTerms)
      ((sortTerms insertionQsort threeTerms).map entryByLength) ⟨[97, 98], by decide⟩
      (some ⟨200, 1, 2⟩) := by
  have h := dictionaryLookup_exact insertionQsort threeTerms (by decide) entryByLength
    (by
      intro t ht
      simp only [threeTerms, List.mem_cons, List.not_mem_nil, or_false] at ht
      rcases ht with rfl | rfl | rfl <;> exact ⟨by decide, by decide, by decide⟩)
    (leBytes 4 0 ++ dictionaryImage (sortTerms insertionQsort threeTerms) ++
        stringPoolImage (sortTerms insertionQsort threeTerms) ++
        entriesImage ((sortTerms insertionQsort threeTerms).map entryByLength)) 4 20 48
    (by
      have hall := LiesAt.refl (leBytes 4 0 ++ dictionaryImage (sortTerms insertionQsort threeTerms)
        ++ stringPoolImage (sortTerms insertionQsort threeTerms) ++
        entriesImage ((sortTerms insertionQsort threeTerms).map entryByLength))
      exact ⟨hall.left.left.right, hall.left.right, hall.right, by decide⟩)
    ⟨[97, 98], by decide⟩
  exact h

end PgTextsearch.Rust
