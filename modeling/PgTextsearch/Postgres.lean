import Mathlib.Data.List.Sort
import Mathlib.Data.Prod.Lex
import Mathlib.Order.Lattice

/-!
# What the extension uses of PostgreSQL

Heap tuple identifiers, block numbers, and the two library routines whose
documented contract leaves something open: `qsort` (the order of equal elements
is unspecified) and the sequential scan of a hash table (the order of the
entries is unspecified).  Both are structures that carry their contract, so
every result below holds for whatever order the server happens to produce.
-/

namespace PgTextsearch.Postgres

/-- `InvalidBlockNumber`: the largest 32-bit block number. -/
def invalidBlockNumber : Nat := 0xFFFFFFFF

/-- `UINT32_MAX`, the sentinel document id of an exhausted cursor. -/
def uint32Max : Nat := 0xFFFFFFFF

/-- `ItemPointerData`: heap block and line pointer (offset 0 is invalid). -/
structure ItemPointer where
  blkid : Nat
  posid : Nat
  deriving DecidableEq, Repr, Inhabited

namespace ItemPointer

/-- `ItemPointerIsValid`: the offset is not `InvalidOffsetNumber`. -/
def isValid (p : ItemPointer) : Bool := p.posid != 0

/-- `ItemPointerSetInvalid`. -/
def invalid : ItemPointer := ⟨invalidBlockNumber, 0⟩

@[simp] theorem isValid_invalid : invalid.isValid = false := rfl

/-- Heap order: by block, then by offset. -/
instance : LinearOrder ItemPointer :=
  LinearOrder.lift' (fun p => toLex (p.blkid, p.posid)) fun p q h => by
    cases p; cases q; simpa using h

theorem lt_iff (p q : ItemPointer) :
    p < q ↔ p.blkid < q.blkid ∨ p.blkid = q.blkid ∧ p.posid < q.posid := by
  change toLex (p.blkid, p.posid) < toLex (q.blkid, q.posid) ↔ _
  rw [Prod.Lex.toLex_lt_toLex]

/-- `ItemPointerCompare`: negative, zero or positive. -/
def compare (p q : ItemPointer) : Int :=
  if p.blkid < q.blkid then -1
  else if p.blkid > q.blkid then 1
  else if p.posid < q.posid then -1
  else if p.posid > q.posid then 1
  else 0

theorem compare_neg_iff (p q : ItemPointer) : compare p q < 0 ↔ p < q := by
  rw [lt_iff, compare]
  split_ifs <;> omega

theorem compare_pos_iff (p q : ItemPointer) : 0 < compare p q ↔ q < p := by
  rw [lt_iff, compare]
  split_ifs <;> omega

theorem compare_nonpos_iff (p q : ItemPointer) : compare p q ≤ 0 ↔ p ≤ q := by
  rw [← not_lt, ← not_lt, compare_pos_iff]

end ItemPointer

/-- A three-way comparator in C style that orders all its arguments. -/
structure IsComparator {α : Type} (cmp : α → α → Int) : Prop where
  total : ∀ a b, cmp a b ≤ 0 ∨ cmp b a ≤ 0
  trans : ∀ a b c, cmp a b ≤ 0 → cmp b c ≤ 0 → cmp a c ≤ 0

/-- `qsort`/`qsort_arg`: returns the elements in comparator order.  The order of
elements that compare equal is unspecified, so nothing is said about it. -/
structure Qsort where
  sort : {α : Type} → (α → α → Int) → List α → List α
  perm : ∀ {α : Type} (cmp : α → α → Int) (l : List α), (sort cmp l).Perm l
  sorted : ∀ {α : Type} (cmp : α → α → Int) (l : List α), IsComparator cmp →
    (sort cmp l).Pairwise (fun a b => cmp a b ≤ 0)

/-- One admissible `qsort`: stable insertion. -/
def insertionQsort : Qsort where
  sort := fun cmp l => l.insertionSort (fun a b => cmp a b ≤ 0)
  perm := fun cmp l => List.perm_insertionSort (fun a b => cmp a b ≤ 0) l
  sorted := fun cmp l hc => by
    have : Std.Total (fun a b => cmp a b ≤ 0) := ⟨hc.total⟩
    have : IsTrans _ (fun a b => cmp a b ≤ 0) := ⟨hc.trans⟩
    exact List.pairwise_insertionSort (fun a b => cmp a b ≤ 0) l

/-- `hash_seq_search`: a sequential scan returns every entry once, in an
unspecified order. -/
structure HashSeq where
  scan : {α : Type} → List α → List α
  perm : ∀ {α : Type} (l : List α), (scan l).Perm l

/-- One admissible scan order: insertion order. -/
def insertionHashSeq : HashSeq where
  scan := fun l => l
  perm := fun l => List.Perm.refl l

end PgTextsearch.Postgres

namespace PgTextsearch

/-! ## Fallible functions -/

theorem bind_eq_ok {ε α β : Type} {x : Except ε α} {f : α → Except ε β} {b : β}
    (h : x >>= f = .ok b) : ∃ a, x = .ok a ∧ f a = .ok b := by
  cases x with
  | error e => cases h
  | ok a => exact ⟨a, rfl, h⟩

theorem bind_of_eq_ok {ε α β : Type} {x : Except ε α} {a : α} (h : x = .ok a)
    (f : α → Except ε β) : x >>= f = f a := by
  rw [h]
  rfl

end PgTextsearch
