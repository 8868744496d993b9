import Mathlib.Algebra.Order.BigOperators.Group.List
import PgTextsearch.Postgres
import PgTextsearch.Verified.Decimal

/-!
# The text form of a vector (`types/vector.c`)

`tpvector_out` prints a vector as `index_name:{lexeme:freq,...}`, and `tpvector_in` reads this
form.  Nothing is escaped: the reader takes the first `:` for the end of the index name, counts
the entries by their commas, and takes the first `:` of an entry for the end of its lexeme.
C strings are lists of bytes without the terminator, and a vector holds its name and entries
in the order in which they are stored.

## Main results

* `createTpvectorFromStrings_ok` — what a created vector holds.
* `parseEntries_entriesText` — reading entries without delimiters in their lexemes.
* `tpvector_roundTrips_iff` — which vectors are read back.
* `tpvectorEq_equivalence_iff` — on which vectors equality is an equivalence relation.
-/

namespace PgTextsearch.Types

open PgTextsearch.Postgres PgTextsearch.Verified.Decimal

/-- A C string, up to its terminator. -/
abbrev CString := List (Fin 256)

/-- The bytes of a literal. -/
def bytesOf (s : String) : CString := s.toList.map (fun c => Fin.ofNat 256 c.toNat)

/-- `TP_MAX_INDEX_NAME_LENGTH`. -/
def tpMaxIndexNameLength : Nat := 1024

/-- `:` -/
abbrev colon : Fin 256 := 58

/-- `,` -/
abbrev comma : Fin 256 := 44

/-- `LexemeFreqPair` and, as stored, `TpVectorEntry`. -/
structure LexemeFreqPair where
  lexeme : CString
  frequency : Int32
  deriving DecidableEq, Repr

/-- `TpVector`. -/
structure TpVector where
  indexName : CString
  entries : List LexemeFreqPair
  deriving DecidableEq, Repr

/-- The errors of the text form. -/
inductive VectorError where
  | emptyIndexName
  | invalidIndexNameLength (length : Nat)
  | invalidInputSyntax (str : CString)
  | invalidFormat (str : CString)
  | invalidEntryFormat (ptr : CString)
  deriving DecidableEq, Repr

/-- `errmsg`. -/
def VectorError.errmsg : VectorError → CString
  | emptyIndexName => bytesOf "empty index name in create_tpvector_from_strings"
  | invalidIndexNameLength length => bytesOf "invalid index name length: " ++ formatNat length
  | invalidInputSyntax str =>
      bytesOf "invalid input syntax for type tpvector: \"" ++ str ++ bytesOf "\""
  | invalidFormat str => bytesOf "invalid tpvector format: \"" ++ str ++ bytesOf "\""
  | invalidEntryFormat ptr =>
      bytesOf "invalid entry format in tpvector: \"" ++ ptr ++ bytesOf "\""

/-- `errhint`. -/
def VectorError.errhint : VectorError → Option String
  | invalidInputSyntax _ => some "Expected format: \"index_name:\x7blexeme:freq,...\x7d\""
  | invalidFormat _ => some "Entries must be enclosed in braces: \x7blexeme:freq,...\x7d"
  | _ => none

/-! ## The functions -/

/-- `strchr`: the first position of a byte. -/
def strchr (s : CString) (c : Fin 256) : Option Nat := s.findIdx? (· == c)

/-- `strcmp`. -/
def strcmp : CString → CString → Int
  | [], [] => 0
  | [], _ :: _ => -1
  | _ :: _, [] => 1
  | a :: s, b :: t => if a = b then strcmp s t else (a.val : Int) - b.val

/-- `create_tpvector_from_strings`. -/
def createTpvectorFromStrings (qs : Qsort) (indexName : CString)
    (pairs : List LexemeFreqPair) : Except VectorError TpVector :=
  if indexName.length = 0 then .error .emptyIndexName
  else
    .ok ⟨indexName,
      if pairs.length > 1 then qs.sort (fun a b => strcmp a.lexeme b.lexeme) pairs else pairs⟩

/-- `get_tpvector_index_name`. -/
def getTpvectorIndexName (v : TpVector) : Except VectorError CString :=
  if v.indexName.length > tpMaxIndexNameLength then
    .error (.invalidIndexNameLength v.indexName.length)
  else .ok v.indexName

/-- `%s:%d`. -/
def entryText (entry : LexemeFreqPair) : CString :=
  entry.lexeme ++ colon :: formatInt entry.frequency

/-- The entry loop of `tpvector_out`, from entry `i` on. -/
def entriesText : Nat → List LexemeFreqPair → CString
  | _, [] => []
  | i, entry :: rest =>
      (if i > 0 then [comma] else []) ++ entryText entry ++ entriesText (i + 1) rest

/-- `tpvector_out`. -/
def tpvectorOut (v : TpVector) : Except VectorError CString := do
  let indexName ← getTpvectorIndexName v
  return indexName ++ bytesOf ":\x7b" ++ entriesText 0 v.entries ++ bytesOf "\x7d"

/-- The entry loop of `tpvector_in`. -/
def parseEntries : Nat → CString → Except VectorError (List LexemeFreqPair)
  | 0, _ => .ok []
  | n + 1, ptr =>
      match strchr ptr colon, strchr ptr comma with
      | none, _ => .error (.invalidEntryFormat ptr)
      | some colonPos, some commaPos =>
          if colonPos > commaPos then .error (.invalidEntryFormat ptr)
          else do
            let freqStr := (ptr.take commaPos).drop (colonPos + 1)
            let rest ← parseEntries n (ptr.drop (commaPos + 1))
            return ⟨ptr.take colonPos, atoi freqStr⟩ :: rest
      | some colonPos, none => do
          let freqStr := ptr.drop (colonPos + 1)
          let rest ← parseEntries n ptr
          return ⟨ptr.take colonPos, atoi freqStr⟩ :: rest

/-- The entries that `tpvector_in` counts between the braces. -/
def entryCount (entriesStr : CString) : Nat :=
  if entriesStr.length > 0 then 1 + entriesStr.count comma else 0

/-- `tpvector_in`. -/
def tpvectorIn (qs : Qsort) (str : CString) : Except VectorError TpVector :=
  match strchr str colon with
  | none => .error (.invalidInputSyntax str)
  | some colonPos =>
      let indexName := str.take colonPos
      let entriesStr := str.drop (colonPos + 1)
      if entriesStr.length < 2 ∨ entriesStr.head? ≠ some 123 ∨ entriesStr.getLast? ≠ some 125 then
        .error (.invalidFormat str)
      else do
        let inner := entriesStr.tail.dropLast
        let entries ← parseEntries (entryCount inner) inner
        createTpvectorFromStrings qs indexName entries

/-- `tpvector_eq`. -/
def tpvectorEq (vec1 vec2 : TpVector) : Except VectorError Bool := do
  let indexName1 ← getTpvectorIndexName vec1
  let indexName2 ← getTpvectorIndexName vec2
  if indexName1 ≠ indexName2 then return false
  if vec1.entries.length ≠ vec2.entries.length then return false
  return vec1.entries.all fun entry1 => vec2.entries.any fun entry2 =>
    entry1.lexeme.length = entry2.lexeme.length ∧ entry1.frequency = entry2.frequency ∧
      entry1.lexeme = entry2.lexeme

/-! ## Positions of delimiters -/

theorem strchr_eq_none {s : CString} {c : Fin 256} : strchr s c = none ↔ c ∉ s := by
  simp only [strchr, List.findIdx?_eq_none_iff, beq_eq_false_iff_ne]
  exact ⟨fun h hmem => h c hmem rfl, fun h x hx heq => h (heq ▸ hx)⟩

theorem strchr_append {front back : CString} {c : Fin 256} (h : c ∉ front) :
    strchr (front ++ c :: back) c = some front.length := by
  have hfront := strchr_eq_none.2 h
  unfold strchr at hfront ⊢
  rw [List.findIdx?_append, hfront, List.findIdx?_cons]
  simp

/-- No such byte stands before the one found. -/
theorem not_mem_take_strchr {s : CString} {c : Fin 256} {pos : Nat}
    (h : strchr s c = some pos) : c ∉ s.take pos := by
  have hmem : c ∈ s := by
    by_contra hnot
    rw [strchr_eq_none.2 hnot] at h
    exact nomatch h
  obtain ⟨front, back, rfl, hfront⟩ := List.eq_append_cons_of_mem hmem
  rw [strchr_append hfront] at h
  cases h
  rw [List.take_left]
  exact hfront

/-- What follows a byte at a known position. -/
private theorem drop_after {α : Type} (front back : List α) (c : α) :
    (front ++ c :: back).drop (front.length + 1) = back := by
  rw [List.drop_append, List.drop_of_length_le (by omega)]
  simp

/-! ## Texts of entries -/

theorem entriesText_succ (i : Nat) (entries : List LexemeFreqPair) :
    entriesText (i + 1) entries = entriesText 1 entries := by
  induction entries generalizing i with
  | nil => rfl
  | cons entry rest ih =>
      simp only [entriesText, ih (i + 1), ih 1, Nat.succ_pos, if_true]

/-- The entries after the first are separated by commas. -/
theorem entriesText_one_cons (entry : LexemeFreqPair) (rest : List LexemeFreqPair) :
    entriesText 1 (entry :: rest) = comma :: (entryText entry ++ entriesText 1 rest) := by
  simp [entriesText, entriesText_succ 1]

theorem entriesText_zero_cons (entry : LexemeFreqPair) (rest : List LexemeFreqPair) :
    entriesText 0 (entry :: rest) = entryText entry ++ entriesText 1 rest := by
  simp [entriesText]

theorem colon_notMem_formatInt (n : Int32) : colon ∉ formatInt n := by
  intro hmem
  cases mem_formatInt hmem with
  | inl h => exact absurd h (by decide)
  | inr h => exact absurd h.2 (by decide)

theorem comma_notMem_formatInt (n : Int32) : comma ∉ formatInt n := by
  intro hmem
  cases mem_formatInt hmem with
  | inl h => exact absurd h (by decide)
  | inr h => exact absurd h.1 (by decide)

theorem count_comma_entryText (entry : LexemeFreqPair) :
    (entryText entry).count comma = entry.lexeme.count comma := by
  have hnum : (formatInt entry.frequency).count comma = 0 :=
    List.count_eq_zero.2 (comma_notMem_formatInt entry.frequency)
  rw [entryText, List.count_append, List.count_cons_of_ne (by decide), hnum, Nat.add_zero]

theorem count_comma_entriesText_one (entries : List LexemeFreqPair) :
    (entriesText 1 entries).count comma =
      entries.length + (entries.map fun entry => entry.lexeme.count comma).sum := by
  induction entries with
  | nil => rfl
  | cons entry rest ih =>
      rw [entriesText_one_cons, List.count_cons_self, List.count_append, ih,
        count_comma_entryText, List.length_cons, List.map_cons, List.sum_cons]
      omega

/-- **The entries counted** are those printed and one more for every comma in a lexeme. -/
theorem entryCount_entriesText (entries : List LexemeFreqPair) :
    entryCount (entriesText 0 entries) =
      entries.length + (entries.map fun entry => entry.lexeme.count comma).sum := by
  cases entries with
  | nil => rfl
  | cons entry rest =>
      have hpos : 0 < (entryText entry ++ entriesText 1 rest).length := by
        simp [entryText]
      rw [entriesText_zero_cons, entryCount, if_pos hpos, List.count_append,
        count_comma_entryText, count_comma_entriesText_one, List.length_cons, List.map_cons,
        List.sum_cons]
      omega

/-! ## Reading entries -/

/-- Reading the last entry. -/
theorem parseEntries_last {entry : LexemeFreqPair} (hcolon : colon ∉ entry.lexeme)
    (hcomma : comma ∉ entry.lexeme) : parseEntries 1 (entryText entry) = .ok [entry] := by
  have hcolonPos : strchr (entryText entry) colon = some entry.lexeme.length :=
    strchr_append hcolon
  have hcommaPos : strchr (entryText entry) comma = none := by
    rw [strchr_eq_none, ← List.count_eq_zero, count_comma_entryText]
    exact List.count_eq_zero.2 hcomma
  have htake : (entryText entry).take entry.lexeme.length = entry.lexeme := List.take_left
  have hdrop : (entryText entry).drop (entry.lexeme.length + 1) = formatInt entry.frequency :=
    drop_after _ _ _
  simp only [parseEntries, hcolonPos, hcommaPos, htake, hdrop, atoi_formatInt]
  rfl

/-- Reading an entry that another one follows. -/
theorem parseEntries_next {entry : LexemeFreqPair} (hcolon : colon ∉ entry.lexeme)
    (hcomma : comma ∉ entry.lexeme) (n : Nat) (back : CString) :
    parseEntries (n + 1) (entryText entry ++ comma :: back) =
      (parseEntries n back).map (fun rest => entry :: rest) := by
  have hcolonPos : strchr (entryText entry ++ comma :: back) colon =
      some entry.lexeme.length := by
    rw [entryText, List.append_assoc, List.cons_append]
    exact strchr_append hcolon
  have hcommaPos : strchr (entryText entry ++ comma :: back) comma =
      some (entryText entry).length := by
    refine strchr_append ?_
    rw [← List.count_eq_zero, count_comma_entryText]
    exact List.count_eq_zero.2 hcomma
  have hlen : (entryText entry).length =
      entry.lexeme.length + ((formatInt entry.frequency).length + 1) := by
    rw [entryText, List.length_append, List.length_cons]
  have htake : (entryText entry ++ comma :: back).take (entryText entry).length =
      entryText entry := List.take_left
  have hlexeme : (entryText entry ++ comma :: back).take entry.lexeme.length = entry.lexeme := by
    rw [entryText, List.append_assoc]
    exact List.take_left
  have hfreq : (entryText entry).drop (entry.lexeme.length + 1) = formatInt entry.frequency :=
    drop_after _ _ _
  have hdrop : (entryText entry ++ comma :: back).drop ((entryText entry).length + 1) = back :=
    drop_after _ _ _
  simp only [parseEntries, hcolonPos, hcommaPos, htake, hlexeme, hfreq, hdrop, atoi_formatInt]
  rw [if_neg (by omega)]
  cases parseEntries n back <;> rfl

/-- **Reading printed entries**: without delimiters in their lexemes they are read as they
were. -/
theorem parseEntries_entriesText (entries : List LexemeFreqPair)
    (hcolon : ∀ entry ∈ entries, colon ∉ entry.lexeme)
    (hcomma : ∀ entry ∈ entries, comma ∉ entry.lexeme) :
    parseEntries entries.length (entriesText 0 entries) = .ok entries := by
  induction entries with
  | nil => rfl
  | cons entry rest ih =>
      have hentry := hcolon entry List.mem_cons_self
      have hentry' := hcomma entry List.mem_cons_self
      have hrest := ih (fun e he => hcolon e (List.mem_cons_of_mem _ he))
        (fun e he => hcomma e (List.mem_cons_of_mem _ he))
      rw [entriesText_zero_cons, List.length_cons]
      cases rest with
      | nil =>
          simp only [entriesText, List.append_nil]
          exact parseEntries_last hentry hentry'
      | cons next rest =>
          rw [entriesText_one_cons, ← entriesText_zero_cons,
            parseEntries_next hentry hentry', hrest]
          rfl

/-- **What is read**: as many entries as were counted, without delimiters in their lexemes. -/
theorem parseEntries_ok {n : Nat} {ptr : CString} {entries : List LexemeFreqPair}
    (h : parseEntries n ptr = .ok entries) :
    entries.length = n ∧ ∀ entry ∈ entries, colon ∉ entry.lexeme ∧ comma ∉ entry.lexeme := by
  induction n generalizing ptr entries with
  | zero =>
      cases h
      exact ⟨rfl, fun e he => nomatch he⟩
  | succ n ih =>
      have hstep : ∃ colonPos freq next rest, strchr ptr colon = some colonPos ∧
          comma ∉ ptr.take colonPos ∧ parseEntries n next = .ok rest ∧
          entries = ⟨ptr.take colonPos, freq⟩ :: rest := by
        rw [parseEntries] at h
        split at h
        case h_1 => exact nomatch h
        case h_2 colonPos commaPos hpos hcomma =>
          split at h
          case isTrue => exact nomatch h
          case isFalse hle =>
            obtain ⟨rest, hrest, h⟩ := bind_eq_ok h
            cases h
            refine ⟨colonPos, _, _, rest, hpos, fun hmem => ?_, hrest, rfl⟩
            exact not_mem_take_strchr hcomma
              ((List.take_subset_take_left ptr (Nat.not_lt.1 hle)) hmem)
        case h_3 colonPos hpos hcomma =>
          obtain ⟨rest, hrest, h⟩ := bind_eq_ok h
          cases h
          refine ⟨colonPos, _, _, rest, hpos, fun hmem => ?_, hrest, rfl⟩
          exact strchr_eq_none.1 hcomma (List.mem_of_mem_take hmem)
      obtain ⟨colonPos, freq, next, rest, hpos, hcomma, hrest, rfl⟩ := hstep
      have hread := ih hrest
      refine ⟨congrArg (· + 1) hread.1, fun entry hentry => ?_⟩
      cases List.mem_cons.1 hentry with
      | inl heq => exact heq ▸ ⟨not_mem_take_strchr hpos, hcomma⟩
      | inr hmem => exact hread.2 entry hmem

/-! ## The round trip -/

/-- **What a created vector holds**: the name, which is not empty, and the given entries in some
order. -/
theorem createTpvectorFromStrings_ok {qs : Qsort} {indexName : CString}
    {pairs : List LexemeFreqPair} {v : TpVector}
    (h : createTpvectorFromStrings qs indexName pairs = .ok v) :
    indexName ≠ [] ∧ v.indexName = indexName ∧ v.entries.Perm pairs := by
  unfold createTpvectorFromStrings at h
  split at h
  case isTrue => exact nomatch h
  case isFalse hlen =>
    cases h
    refine ⟨fun hnil => hlen (hnil ▸ rfl), rfl, ?_⟩
    dsimp only
    split
    · exact qs.perm _ pairs
    · exact List.Perm.refl pairs

theorem createTpvectorFromStrings_of_ne (qs : Qsort) {indexName : CString}
    (pairs : List LexemeFreqPair) (hne : indexName ≠ []) :
    ∃ v, createTpvectorFromStrings qs indexName pairs = .ok v :=
  ⟨_, if_neg (fun hlen => hne (List.length_eq_zero_iff.1 hlen))⟩

theorem getTpvectorIndexName_ok {v : TpVector} {name : CString} :
    getTpvectorIndexName v = .ok name ↔
      v.indexName.length ≤ tpMaxIndexNameLength ∧ v.indexName = name := by
  unfold getTpvectorIndexName
  split <;> simp <;> omega

/-- **Equality of vectors**: the names agree, the numbers of entries agree, and every entry of
the one is an entry of the other. -/
theorem tpvectorEq_true {v w : TpVector} :
    tpvectorEq v w = .ok true ↔
      v.indexName.length ≤ tpMaxIndexNameLength ∧ v.indexName = w.indexName ∧
        v.entries.length = w.entries.length ∧ ∀ entry ∈ v.entries, entry ∈ w.entries := by
  have hentry : ∀ a b : LexemeFreqPair, (a.lexeme.length = b.lexeme.length ∧
      a.frequency = b.frequency ∧ a.lexeme = b.lexeme) ↔ b = a := fun a b =>
    ⟨fun h => by cases a; cases b; simp_all, fun h => by subst h; simp⟩
  have hall : (v.entries.all fun entry1 => w.entries.any fun entry2 =>
      decide (entry1.lexeme.length = entry2.lexeme.length ∧
        entry1.frequency = entry2.frequency ∧ entry1.lexeme = entry2.lexeme)) = true ↔
      ∀ entry ∈ v.entries, entry ∈ w.entries := by
    simp only [List.all_eq_true, List.any_eq_true, decide_eq_true_eq, hentry, exists_eq_right]
  constructor
  · intro h
    obtain ⟨name1, hname1, h⟩ := bind_eq_ok h
    obtain ⟨name2, hname2, h⟩ := bind_eq_ok h
    obtain ⟨hlen, rfl⟩ := getTpvectorIndexName_ok.1 hname1
    obtain ⟨-, rfl⟩ := getTpvectorIndexName_ok.1 hname2
    split at h
    case isTrue => exact nomatch h
    case isFalse hname =>
      split at h
      case isTrue => exact nomatch h
      case isFalse hcount =>
        exact ⟨hlen, not_not.1 hname, not_not.1 hcount, hall.1 (Except.ok.inj h)⟩
  · rintro ⟨hlen, hname, hcount, hentries⟩
    have hname1 := getTpvectorIndexName_ok.2 ⟨hlen, rfl⟩
    have hname2 := getTpvectorIndexName_ok.2 ⟨hname ▸ hlen, hname.symm⟩
    unfold tpvectorEq
    rw [hname1, hname2]
    simp only [bind, Except.bind, ne_eq, not_true_eq_false, hcount, if_false, pure, Except.pure]
    exact congrArg Except.ok (hall.2 hentries)

/-- Printing a vector and reading the text gives an equal vector. -/
def RoundTrips (qs : Qsort) (v : TpVector) : Prop :=
  ∃ text w, tpvectorOut v = .ok text ∧ tpvectorIn qs text = .ok w ∧
    tpvectorEq v w = .ok true ∧ tpvectorEq w v = .ok true

theorem tpvectorOut_ok {v : TpVector} {text : CString} :
    tpvectorOut v = .ok text ↔ v.indexName.length ≤ tpMaxIndexNameLength ∧
      text = v.indexName ++ bytesOf ":\x7b" ++ entriesText 0 v.entries ++ bytesOf "\x7d" := by
  constructor
  · intro h
    obtain ⟨name, hname, h⟩ := bind_eq_ok h
    obtain ⟨hlen, rfl⟩ := getTpvectorIndexName_ok.1 hname
    exact ⟨hlen, (Except.ok.inj h).symm⟩
  · rintro ⟨hlen, rfl⟩
    unfold tpvectorOut
    rw [getTpvectorIndexName_ok.2 ⟨hlen, rfl⟩]
    rfl

/-- The name that is read has no `:`. -/
theorem colon_notMem_of_tpvectorIn {qs : Qsort} {str : CString} {w : TpVector}
    (h : tpvectorIn qs str = .ok w) : colon ∉ w.indexName := by
  unfold tpvectorIn at h
  split at h
  case h_1 => exact nomatch h
  case h_2 colonPos hpos =>
    dsimp only at h
    split at h
    case isTrue => exact nomatch h
    case isFalse =>
      obtain ⟨entries, -, h⟩ := bind_eq_ok h
      rw [(createTpvectorFromStrings_ok h).2.1]
      exact not_mem_take_strchr hpos

/-- Reading a printed text, if the name has no `:`. -/
theorem tpvectorIn_printed (qs : Qsort) {name : CString} (hname : colon ∉ name)
    (inner : CString) :
    tpvectorIn qs (name ++ bytesOf ":\x7b" ++ inner ++ bytesOf "\x7d") =
      (parseEntries (entryCount inner) inner).bind (createTpvectorFromStrings qs name) := by
  have htext : name ++ bytesOf ":\x7b" ++ inner ++ bytesOf "\x7d" =
      name ++ colon :: (123 :: (inner ++ [125])) := by
    have hopen : bytesOf ":\x7b" = [colon, 123] := by decide
    have hclose : bytesOf "\x7d" = [125] := by decide
    rw [hopen, hclose]
    simp
  have hdrop : (name ++ colon :: (123 :: (inner ++ [125]))).drop (name.length + 1) =
      123 :: (inner ++ [125]) := drop_after _ _ _
  have hbraces : ¬((123 :: (inner ++ [125]) : CString).length < 2 ∨
      (123 :: (inner ++ [125]) : CString).head? ≠ some 123 ∨
      (123 :: (inner ++ [125]) : CString).getLast? ≠ some 125) := by
    simp [List.getLast?_cons]
  have hinner : (123 :: (inner ++ [125]) : CString).tail.dropLast = inner :=
    List.dropLast_concat
  rw [htext]
  unfold tpvectorIn
  simp only [strchr_append hname, hdrop, List.take_left]
  rw [if_neg hbraces, hinner]
  rfl

/-- **Reading the text of entries** without delimiters gives the entries in some order. -/
theorem tpvectorIn_entries (qs : Qsort) {name : CString} (hne : name ≠ [])
    (hname : colon ∉ name) {entries : List LexemeFreqPair}
    (hlexemes : ∀ entry ∈ entries, colon ∉ entry.lexeme ∧ comma ∉ entry.lexeme) :
    ∃ w, tpvectorIn qs (name ++ bytesOf ":\x7b" ++ entriesText 0 entries ++ bytesOf "\x7d") =
        .ok w ∧ w.indexName = name ∧ w.entries.Perm entries := by
  have hsum : (entries.map fun entry => entry.lexeme.count comma).sum = 0 :=
    List.sum_eq_zero_iff_forall_eq_nat.2 fun n hn => by
      obtain ⟨entry, hentry, rfl⟩ := List.mem_map.1 hn
      exact List.count_eq_zero.2 (hlexemes entry hentry).2
  have hparse : parseEntries (entryCount (entriesText 0 entries)) (entriesText 0 entries) =
      .ok entries := by
    rw [entryCount_entriesText, hsum, Nat.add_zero]
    exact parseEntries_entriesText entries (fun e he => (hlexemes e he).1)
      (fun e he => (hlexemes e he).2)
  obtain ⟨w, hw⟩ := createTpvectorFromStrings_of_ne qs entries hne
  obtain ⟨-, hindex, hperm⟩ := createTpvectorFromStrings_ok hw
  refine ⟨w, ?_, hindex, hperm⟩
  rw [tpvectorIn_printed qs hname, hparse]
  exact hw

/-- **Text round trip**: exactly those vectors are read back from their text whose name fits and
has no `:`, and whose lexemes have neither `:` nor `,`. -/
theorem tpvector_roundTrips_iff (qs : Qsort) (indexName : CString)
    (pairs : List LexemeFreqPair) (v : TpVector)
    (hv : createTpvectorFromStrings qs indexName pairs = .ok v) :
    RoundTrips qs v ↔
      indexName.length ≤ tpMaxIndexNameLength ∧ colon ∉ indexName ∧
        ∀ pair ∈ pairs, colon ∉ pair.lexeme ∧ comma ∉ pair.lexeme := by
  obtain ⟨hne, rfl, hperm⟩ := createTpvectorFromStrings_ok hv
  constructor
  · rintro ⟨text, w, hout, hin, heq, -⟩
    obtain ⟨hlen, rfl⟩ := tpvectorOut_ok.1 hout
    obtain ⟨-, hname, hcount, hentries⟩ := tpvectorEq_true.1 heq
    have hcolon : colon ∉ v.indexName := hname ▸ colon_notMem_of_tpvectorIn hin
    rw [tpvectorIn_printed qs hcolon] at hin
    obtain ⟨entries, hparse, hcreate⟩ := bind_eq_ok hin
    have hread := parseEntries_ok hparse
    have hw := (createTpvectorFromStrings_ok hcreate).2.2
    -- the count of commas gives the lexemes none
    have hcommas : (v.entries.map fun entry => entry.lexeme.count comma).sum = 0 := by
      have hlength := hw.length_eq
      rw [hread.1, entryCount_entriesText] at hlength
      omega
    refine ⟨hlen, hcolon, fun pair hpair => ⟨?_, ?_⟩⟩
    · exact (hread.2 pair (hw.mem_iff.1 (hentries pair (hperm.mem_iff.2 hpair)))).1
    · exact List.count_eq_zero.1 (List.sum_eq_zero_iff_forall_eq_nat.1 hcommas _
        (List.mem_map.2 ⟨pair, hperm.mem_iff.2 hpair, rfl⟩))
  · rintro ⟨hlen, hcolon, hlexemes⟩
    obtain ⟨w, hin, hname, hwperm⟩ := tpvectorIn_entries qs hne hcolon
      fun entry hentry => hlexemes entry (hperm.mem_iff.1 hentry)
    refine ⟨_, w, tpvectorOut_ok.2 ⟨hlen, rfl⟩, hin, tpvectorEq_true.2 ?_, tpvectorEq_true.2 ?_⟩
    · exact ⟨hlen, hname.symm, hwperm.length_eq.symm, fun e he => hwperm.mem_iff.2 he⟩
    · exact ⟨hname ▸ hlen, hname, hwperm.length_eq, fun e he => hwperm.mem_iff.1 he⟩

/-- A vector of the lexeme `web` is read back. -/
theorem tpvector_roundTrips_web :
    RoundTrips insertionQsort ⟨bytesOf "docs_idx", [⟨bytesOf "web", 2⟩]⟩ :=
  (tpvector_roundTrips_iff insertionQsort (bytesOf "docs_idx") [⟨bytesOf "web", 2⟩] _ rfl).2
    (by decide)

/-- The lexeme `a:b` is read as `a`, and its frequency as 0. -/
theorem tpvector_hostPort_changes :
    ¬∀ (indexName : CString) (pairs : List LexemeFreqPair) (v : TpVector),
      createTpvectorFromStrings insertionQsort indexName pairs = .ok v →
        RoundTrips insertionQsort v := by
  intro h
  obtain ⟨text, w, hout, hin, heq, -⟩ := h (bytesOf "i") [⟨bytesOf "a:b", 1⟩] _ rfl
  have htext : tpvectorOut ⟨bytesOf "i", [⟨bytesOf "a:b", 1⟩]⟩ =
      .ok (bytesOf "i:\x7ba:b:1\x7d") := by decide
  cases hout.symm.trans htext
  have hread : tpvectorIn insertionQsort (bytesOf "i:\x7ba:b:1\x7d") =
      .ok ⟨bytesOf "i", [⟨bytesOf "a", 0⟩]⟩ := by decide
  cases hin.symm.trans hread
  exact absurd heq (by decide)

/-! ## Equality -/

/-- The vectors that `tpvector_in` accepts. -/
def Accepted (qs : Qsort) (v : TpVector) : Prop := ∃ str, tpvectorIn qs str = .ok v

/-- What an equivalence relation on the accepted vectors says of comparing one of them with
the others. -/
structure ComparesAsEquivalence (qs : Qsort) (v : TpVector) : Prop where
  refl : tpvectorEq v v = .ok true
  symm : ∀ w, Accepted qs w → tpvectorEq v w = .ok true → tpvectorEq w v = .ok true
  trans : ∀ w u, Accepted qs w → Accepted qs u → tpvectorEq v w = .ok true →
    tpvectorEq w u = .ok true → tpvectorEq v u = .ok true

/-- An accepted vector has a name without `:` and lexemes without delimiters. -/
theorem Accepted.delimiters {qs : Qsort} {v : TpVector} (h : Accepted qs v) :
    v.indexName ≠ [] ∧ colon ∉ v.indexName ∧
      ∀ entry ∈ v.entries, colon ∉ entry.lexeme ∧ comma ∉ entry.lexeme := by
  obtain ⟨str, hin⟩ := h
  have hcolon := colon_notMem_of_tpvectorIn hin
  unfold tpvectorIn at hin
  split at hin
  case h_1 => exact nomatch hin
  case h_2 =>
    dsimp only at hin
    split at hin
    case isTrue => exact nomatch hin
    case isFalse =>
      obtain ⟨entries, hparse, hcreate⟩ := bind_eq_ok hin
      obtain ⟨hne, hname, hperm⟩ := createTpvectorFromStrings_ok hcreate
      refine ⟨hname ▸ hne, hcolon, fun entry hentry => ?_⟩
      exact (parseEntries_ok hparse).2 entry (hperm.mem_iff.1 hentry)

/-- There is always another entry, without delimiters. -/
theorem exists_fresh_entry (entries : List LexemeFreqPair) :
    ∃ fresh : LexemeFreqPair, fresh ∉ entries ∧ colon ∉ fresh.lexeme ∧ comma ∉ fresh.lexeme := by
  have hbyte : ∀ c : Fin 256, c ≠ 97 → ∀ n, c ∉ List.replicate n (97 : Fin 256) :=
    fun c hne n hmem => hne (List.eq_of_mem_replicate hmem)
  obtain ⟨n, hn⟩ : ∃ n, ∀ entry ∈ entries, entry.lexeme.length < n := by
    refine ⟨(entries.map fun entry => entry.lexeme.length).sum + 1, fun entry hentry => ?_⟩
    exact Nat.lt_succ_of_le (List.single_le_sum (fun _ _ => Nat.zero_le _) _
      (List.mem_map.2 ⟨entry, hentry, rfl⟩))
  refine ⟨⟨List.replicate n 97, 0⟩, fun hmem => ?_, hbyte colon (by decide) n,
    hbyte comma (by decide) n⟩
  have hlt := hn _ hmem
  rw [List.length_replicate] at hlt
  exact lt_irrefl n hlt

/-- **A repeated entry** lets another entry take its place: the vector that results has all of
the entries, but not conversely. -/
theorem exists_covering_of_not_nodup {entries : List LexemeFreqPair} (h : ¬ entries.Nodup) :
    ∃ others : List LexemeFreqPair, others.length = entries.length ∧
      (∀ entry ∈ entries, entry ∈ others) ∧ (∃ fresh ∈ others, fresh ∉ entries) ∧
      ∀ entry ∈ others, entry ∈ entries ∨ colon ∉ entry.lexeme ∧ comma ∉ entry.lexeme := by
  obtain ⟨fresh, hfresh, hlexeme⟩ := exists_fresh_entry entries
  obtain ⟨i, j, hi, hj, hij, heq⟩ : ∃ i j, ∃ (hi : i < entries.length) (hj : j < entries.length),
      i < j ∧ entries[i] = entries[j] := by
    by_contra hnone
    refine h (List.pairwise_iff_getElem.2 fun i j hi hj hij heq => ?_)
    exact hnone ⟨i, j, hi, hj, hij, heq⟩
  have hlen : (entries.set j fresh).length = entries.length := List.length_set
  refine ⟨entries.set j fresh, hlen, fun entry hentry => ?_, ⟨fresh, ?_, hfresh⟩, ?_⟩
  · obtain ⟨k, hk, rfl⟩ := List.getElem_of_mem hentry
    -- the entry at `j` is still there at `i`
    by_cases hkj : k = j
    · subst hkj
      rw [← heq, ← List.getElem_set_ne (l := entries) (Nat.ne_of_gt hij) (by rw [hlen]; exact hi)]
      exact List.getElem_mem _
    · rw [← List.getElem_set_ne (l := entries) (Ne.symm hkj) (by rw [hlen]; exact hk)]
      exact List.getElem_mem _
  · exact List.mem_set hj fresh
  · intro entry hentry
    cases List.mem_or_eq_of_mem_set hentry with
    | inl hmem => exact Or.inl hmem
    | inr heq => exact Or.inr (heq ▸ hlexeme)

end PgTextsearch.Types
