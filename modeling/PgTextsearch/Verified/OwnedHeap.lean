import Mathlib.Algebra.BigOperators.Group.Finset.Basic
import Mathlib.Data.Multiset.MapFold
import Mathlib.Data.Multiset.UnionInter
import Mathlib.Logic.Function.Basic

/-!
# Heaps and their owners

A heap is a partial map from addresses to blocks.  `Owns heap m` says that the blocks of the
multiset `m` are all there is in the heap, each at an address of its own.  What one part of a
program owns and what the rest owns are summands of `m`: a lemma about a program that is proved
for every summand `frame` says that the program leaves the rest of the heap alone.

## Main results

* `Owns.read` — an owned block is found at its address.
* `Owns.alloc`, `Owns.write`, `Owns.free` — the three changes of a heap.
* `Owns.of_zero` — nothing is left of a heap without owners.
-/

namespace PgTextsearch.Verified

variable {A V : Type*}

/-- The blocks of `m` are the heap, and no address holds two of them. -/
structure Owns (heap : A → Option V) (m : Multiset (A × V)) : Prop where
  distinct : (m.map Prod.fst).Nodup
  block_iff : ∀ a v, heap a = some v ↔ (a, v) ∈ m

variable {heap : A → Option V} {m : Multiset (A × V)} {a : A} {v w : V}

namespace Owns

theorem empty : Owns (fun _ : A => (none : Option V)) 0 :=
  ⟨Multiset.nodup_zero, fun a v => by simp⟩

/-- An owned block is found at its address. -/
theorem read (h : Owns heap ({(a, v)} + m)) : heap a = some v :=
  (h.block_iff a v).2 (Multiset.mem_add.2 (Or.inl (Multiset.mem_singleton_self _)))

theorem notMem_of_free (h : Owns heap m) (hfree : heap a = none) : a ∉ m.map Prod.fst := by
  intro hmem
  obtain ⟨⟨a', v'⟩, hin, rfl⟩ := Multiset.mem_map.1 hmem
  rw [(h.block_iff a' v').2 hin] at hfree
  cases hfree

theorem notMem_rest (h : Owns heap ({(a, v)} + m)) : a ∉ m.map Prod.fst := by
  have hnodup := h.distinct
  rw [Multiset.singleton_add, Multiset.map_cons, Multiset.nodup_cons] at hnodup
  exact hnodup.1

/-- An address is in use when one of the owned blocks lies there. -/
theorem isSome_iff (h : Owns heap m) : (heap a).isSome ↔ a ∈ m.map Prod.fst := by
  constructor
  · intro hsome
    obtain ⟨v, hv⟩ := Option.isSome_iff_exists.1 hsome
    exact Multiset.mem_map.2 ⟨(a, v), (h.block_iff a v).1 hv, rfl⟩
  · intro hmem
    cases hfree : heap a with
    | none => exact absurd hmem (h.notMem_of_free hfree)
    | some v => rfl

/-- Nothing is left of a heap without owners. -/
theorem of_zero (h : Owns heap 0) : heap = fun _ => none := by
  funext a
  cases hv : heap a with
  | none => rfl
  | some v => exact absurd ((h.block_iff a v).1 hv) (Multiset.notMem_zero _)

variable [DecidableEq A]

/-- A block at a free address. -/
theorem alloc (h : Owns heap m) (hfree : heap a = none) (v : V) :
    Owns (Function.update heap a (some v)) ({(a, v)} + m) where
  distinct := by
    rw [Multiset.singleton_add, Multiset.map_cons, Multiset.nodup_cons]
    exact ⟨h.notMem_of_free hfree, h.distinct⟩
  block_iff := by
    intro b u
    rw [Multiset.singleton_add, Multiset.mem_cons, Prod.mk.injEq]
    by_cases hb : b = a
    · subst hb
      have hnone : (b, u) ∉ m := fun hin =>
        h.notMem_of_free hfree (Multiset.mem_map.2 ⟨(b, u), hin, rfl⟩)
      simp [hnone, eq_comm]
    · simp [hb, h.block_iff]

/-- The block at an address is given back. -/
theorem free (h : Owns heap ({(a, v)} + m)) : Owns (Function.update heap a none) m where
  distinct := by
    have hnodup := h.distinct
    rw [Multiset.singleton_add, Multiset.map_cons, Multiset.nodup_cons] at hnodup
    exact hnodup.2
  block_iff := by
    intro b u
    by_cases hb : b = a
    · subst hb
      have hnone : (b, u) ∉ m := fun hin =>
        h.notMem_rest (Multiset.mem_map.2 ⟨(b, u), hin, rfl⟩)
      simp [hnone]
    · rw [Function.update_of_ne hb, h.block_iff, Multiset.singleton_add, Multiset.mem_cons,
        Prod.mk.injEq]
      simp [hb]

/-- The block at an address is overwritten. -/
theorem write (h : Owns heap ({(a, v)} + m)) (w : V) :
    Owns (Function.update heap a (some w)) ({(a, w)} + m) := by
  have hmoved := h.free.alloc (Function.update_self a none heap) w
  rwa [Function.update_idem] at hmoved

end Owns

/-- What the owners of a family own together, when one of them has changed. -/
theorem sum_update {ι M : Type*} [AddCommMonoid M] [Fintype ι] [DecidableEq ι] {X : Type*}
    (blocks : X → M) (owner : ι → X) (i : ι) (x : X) :
    ∑ j, blocks (Function.update owner i x j) =
      blocks x + ∑ j ∈ Finset.univ.erase i, blocks (owner j) := by
  rw [← Finset.add_sum_erase _ _ (Finset.mem_univ i), Function.update_self]
  congr 1
  apply Finset.sum_congr rfl
  intro j hj
  rw [Function.update_of_ne (Finset.ne_of_mem_erase hj)]

end PgTextsearch.Verified
