import Mathlib.Data.List.Lex
import PgTextsearch.Memtable.Posting

/-!
# Term dictionary (`segment/dictionary.c`)

Terms are C strings.  The dictionary of a segment holds the terms of the memtable in the
order of `strcmp`, which compares the bytes as unsigned numbers and puts a string before
its extensions.

## Main results

* `strcmp_neg_iff`, `strcmp_pos_iff` — `strcmp` is the lexicographic order.
* `tpBuildDictionary_perm`, `tpBuildDictionary_sorted` — the dictionary has every term of
  the string table once, in strictly increasing order.
-/

namespace PgTextsearch.Segment

open PgTextsearch.Postgres

/-- A C string, less its terminator. -/
structure CString where
  bytes : List (Fin 256)
  nul_free : 0 ∉ bytes
  deriving DecidableEq

theorem nul_free_a : (0 : Fin 256) ∉ [97] := by decide

theorem CString.ext_bytes {s t : CString} (h : s.bytes = t.bytes) : s = t := by
  cases s
  cases t
  cases h
  rfl

/-- `strcmp`, on the bytes in front of the terminators. -/
def strcmp : List (Fin 256) → List (Fin 256) → Int
  | [], [] => 0
  | [], _ :: _ => -1
  | _ :: _, [] => 1
  | a :: as, b :: bs => if a < b then -1 else if b < a then 1 else strcmp as bs

/-- **`strcmp` is the lexicographic order** of the bytes. -/
theorem strcmp_neg_iff (s t : List (Fin 256)) : strcmp s t < 0 ↔ s < t := by
  induction s generalizing t with
  | nil =>
      cases t with
      | nil => simp [strcmp]
      | cons b bs => simp [strcmp]
  | cons a as ih =>
      cases t with
      | nil => simp [strcmp]
      | cons b bs =>
          rw [strcmp, List.cons_lt_cons_iff, ← ih]
          split
          case isTrue hlt => simp [hlt]
          case isFalse hlt =>
            split
            case isTrue hgt =>
              have hne : a ≠ b := ne_of_gt hgt
              simp [hlt, hne]
            case isFalse hgt =>
              have heq : a = b := le_antisymm (not_lt.1 hgt) (not_lt.1 hlt)
              simp [heq]

theorem strcmp_pos_iff (s t : List (Fin 256)) : 0 < strcmp s t ↔ t < s := by
  induction s generalizing t with
  | nil =>
      cases t with
      | nil => simp [strcmp]
      | cons b bs => simp [strcmp]
  | cons a as ih =>
      cases t with
      | nil => simp [strcmp]
      | cons b bs =>
          rw [strcmp, List.cons_lt_cons_iff, ← ih]
          split
          case isTrue hlt =>
            have hne : b ≠ a := ne_of_gt hlt
            simp [hne, not_lt.2 hlt.le]
          case isFalse hlt =>
            split
            case isTrue hgt => simp [hgt]
            case isFalse hgt =>
              have heq : a = b := le_antisymm (not_lt.1 hgt) (not_lt.1 hlt)
              simp [heq]

theorem strcmp_eq_zero_iff (s t : List (Fin 256)) : strcmp s t = 0 ↔ s = t := by
  have hneg := strcmp_neg_iff s t
  have hpos := strcmp_pos_iff s t
  constructor
  · intro hzero
    apply le_antisymm
    · exact not_lt.1 fun h => by have := hpos.2 h; omega
    · exact not_lt.1 fun h => by have := hneg.2 h; omega
  · rintro rfl
    have h1 : ¬ strcmp s s < 0 := fun h => lt_irrefl s (hneg.1 h)
    have h2 : ¬ 0 < strcmp s s := fun h => lt_irrefl s (hpos.1 h)
    omega

/-- Comparing a text with the terms of a sorted dictionary changes the sign once. -/
theorem strcmp_neg_of_sorted {terms : List CString}
    (hsorted : terms.Pairwise fun s t => s.bytes < t.bytes) (text : List (Fin 256)) {i j : Nat}
    (hij : i < j) (hj : j < terms.length)
    (hle : strcmp text (terms.get ⟨i, hij.trans hj⟩).bytes ≤ 0) :
    strcmp text terms[j].bytes < 0 := by
  have hlt := List.pairwise_iff_getElem.1 hsorted i j (hij.trans hj) hj hij
  have hle' : text ≤ (terms.get ⟨i, hij.trans hj⟩).bytes := by
    rw [← not_lt, ← strcmp_pos_iff, not_lt]
    exact hle
  exact (strcmp_neg_iff _ _).2 (lt_of_le_of_lt hle' hlt)

namespace Strcmp

/-- Terms in the order of `strcmp`. -/
scoped instance : LinearOrder CString where
  le s t := s.bytes ≤ t.bytes
  lt s t := s.bytes < t.bytes
  le_refl s := le_refl s.bytes
  le_trans _ _ _ := le_trans
  le_antisymm _ _ h h' := CString.ext_bytes (le_antisymm h h')
  le_total s t := le_total s.bytes t.bytes
  lt_iff_le_not_ge _ _ := Std.LawfulOrderLT.lt_iff _ _
  toDecidableLE s t := inferInstanceAs (Decidable (s.bytes ≤ t.bytes))
  toDecidableEq := inferInstance

end Strcmp

/-- `TermInfo`: a term with its posting list. -/
structure TermInfo where
  term : CString
  postings : List MemPosting

/-- `term_info_cmp`. -/
def termInfoCmp (a b : TermInfo) : Int := strcmp a.term.bytes b.term.bytes

/-- `tp_build_dictionary`. -/
def tpBuildDictionary (hs : HashSeq) (qs : Qsort) (mt : Memtable CString) : List TermInfo :=
  qs.sort termInfoCmp ((hs.scan mt.stringTable.entries).map fun e => ⟨e.1, e.2⟩)

theorem isComparator_termInfoCmp : IsComparator termInfoCmp where
  total := by
    intro a b
    by_contra h
    have hab := (strcmp_pos_iff a.term.bytes b.term.bytes).1 (by unfold termInfoCmp at h; omega)
    have hba := (strcmp_pos_iff b.term.bytes a.term.bytes).1 (by unfold termInfoCmp at h; omega)
    exact lt_asymm hab hba
  trans := by
    intro a b c hab hbc
    have hle : ∀ s t : TermInfo, termInfoCmp s t ≤ 0 ↔ s.term.bytes ≤ t.term.bytes := by
      intro s t
      rw [← not_lt, ← not_lt]
      exact not_congr (strcmp_pos_iff _ _)
    rw [hle] at hab hbc ⊢
    exact hab.trans hbc

variable (hs : HashSeq) (qs : Qsort) (mt : Memtable CString)

/-- The dictionary has the terms of the string table. -/
theorem tpBuildDictionary_perm :
    (tpBuildDictionary hs qs mt).Perm (mt.stringTable.entries.map fun e => ⟨e.1, e.2⟩) :=
  (qs.perm _ _).trans ((hs.perm _).map _)

theorem mem_tpBuildDictionary {info : TermInfo} :
    info ∈ tpBuildDictionary hs qs mt ↔ mt.stringTable.lookup info.term = some info.postings := by
  rw [(tpBuildDictionary_perm hs qs mt).mem_iff, List.mem_map, ← Option.mem_def,
    AList.mem_lookup_iff]
  constructor
  · rintro ⟨e, he, rfl⟩
    exact he
  · intro h
    exact ⟨_, h, rfl⟩

/-- The terms strictly increase. -/
theorem tpBuildDictionary_sorted :
    (tpBuildDictionary hs qs mt).Pairwise fun a b => a.term.bytes < b.term.bytes := by
  have hle : (tpBuildDictionary hs qs mt).Pairwise fun a b => a.term.bytes ≤ b.term.bytes := by
    refine (qs.sorted _ _ isComparator_termInfoCmp).imp ?_
    intro a b hab
    rw [← not_lt, ← strcmp_pos_iff, not_lt]
    exact hab
  have hkeys : (mt.stringTable.entries.map fun e => (⟨e.1, e.2⟩ : TermInfo)).Pairwise
      fun a b => a.term ≠ b.term :=
    List.pairwise_map.2 (List.pairwise_map.1 mt.stringTable.nodupKeys)
  have hne : (tpBuildDictionary hs qs mt).Pairwise fun a b => a.term ≠ b.term :=
    ((tpBuildDictionary_perm hs qs mt).pairwise_iff fun h => Ne.symm h).2 hkeys
  refine (hle.and hne).imp ?_
  intro a b h
  exact lt_of_le_of_ne h.1 fun heq => h.2 (CString.ext_bytes heq)

end PgTextsearch.Segment
