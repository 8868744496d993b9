import Mathlib.Data.Multiset.AddSub
import PgTextsearch.Verified.KLargest
import PgTextsearch.Verified.MinHeap

/-!
# Bounded min-heap

A heap of at most `capacity` entries that keeps the strongest ones offered: a newcomer is
pushed while there is room, and otherwise overwrites the root if the caller finds that it
beats the root.  The comparison and the caller's test may break ties in any way, even in two
different ways; what is proved is relative to a `key` that neither contradicts.

## Main results

* `coe_map_add` — the entries after one addition, as a multiset.
* `add_valid`, `add_spec` — one addition keeps the order and the largest keys.
* `Valid.root_key_eq` — heaps with the same keys have roots of the same key.
-/

namespace PgTextsearch.Verified.BoundedHeap

variable {α : Type*} [Inhabited α]

/-- The array after storing `e` behind the last slot and sifting it up. -/
def push (less : α → α → Bool) (h : List α) (e : α) : List α :=
  MinHeap.siftUp less h.length (h ++ [e]) h.length

/-- The array after overwriting the root with `e` and sifting it down. -/
def replace (less : α → α → Bool) (h : List α) (e : α) : List α :=
  MinHeap.siftDown less h.length (h.set 0 e) 0

/-- Push while there is room, otherwise replace the root if the newcomer beats it. -/
def add (less : α → α → Bool) (capacity : Nat) (h : List α) (e : α) (beats : Bool) : List α :=
  if h.length < capacity then push less h e
  else if beats then replace less h e
  else h

/-! ## Entries -/

/-- Pushing permutes the entries with the newcomer in front. -/
theorem push_perm (less : α → α → Bool) (h : List α) (e : α) :
    (push less h e).Perm (e :: h) :=
  (MinHeap.siftUp_perm less _ _ _ (by simp)).trans (List.perm_append_singleton e h)

/-- Replacing permutes the tail with the newcomer in front. -/
theorem replace_perm (less : α → α → Bool) {h : List α} (e : α) (hne : h ≠ []) :
    ∃ tail, h = MinHeap.slot h 0 :: tail ∧ (replace less h e).Perm (e :: tail) := by
  cases hent : h with
  | nil => exact absurd hent hne
  | cons r tail =>
      refine ⟨tail, by simp [MinHeap.slot], ?_⟩
      unfold replace
      exact MinHeap.siftDown_perm less _ _ 0 (by simp)

/-- **One addition**, seen through a function of the entries. -/
theorem coe_map_add {β : Type*} [DecidableEq β] (less : α → α → Bool) (f : α → β) {capacity : Nat}
    (hc : 0 < capacity) (h : List α) (e : α) (beats : Bool) :
    (((add less capacity h e beats).map f : List β) : Multiset β) =
      if h.length < capacity then f e ::ₘ (h.map f : List β)
      else if beats then f e ::ₘ ((h.map f : List β) : Multiset β).erase (f (MinHeap.slot h 0))
      else (h.map f : List β) := by
  unfold add
  split_ifs with hroom hbeats
  · exact Multiset.coe_eq_coe.2 ((push_perm less h e).map f)
  · have hne : h ≠ [] := by
      intro hnil
      rw [hnil] at hroom
      exact hroom hc
    obtain ⟨tail, hent, hperm⟩ := replace_perm less e hne
    have herase : ((h.map f : List β) : Multiset β).erase (f (MinHeap.slot h 0)) =
        (tail.map f : List β) := by
      rw [Multiset.coe_erase, Multiset.coe_eq_coe]
      nth_rewrite 1 [hent]
      rw [List.map_cons, List.erase_cons_head]
    rw [herase]
    exact Multiset.coe_eq_coe.2 (hperm.map f)
  · rfl

/-! ## Order and kept keys -/

section Key

variable {κ : Type*} [LinearOrder κ] {less : α → α → Bool} {key : α → κ} {capacity : Nat}

/-- At most `capacity ≥ 1` entries in min-heap order of `key`. -/
structure Valid (key : α → κ) (capacity : Nat) (h : List α) : Prop where
  capacity_pos : 0 < capacity
  size_le : h.length ≤ capacity
  ordered : MinHeap.Ordered key h

theorem Valid.nil (hc : 0 < capacity) : Valid key capacity ([] : List α) :=
  ⟨hc, Nat.zero_le _, fun _ _ hlen => absurd hlen (Nat.not_lt_zero _)⟩

variable {h : List α}

theorem Valid.ne_nil (hv : Valid key capacity h) (hfull : ¬ h.length < capacity) : h ≠ [] := by
  intro hnil
  rw [hnil] at hfull
  exact hfull hv.capacity_pos

theorem Valid.root_mem (hv : Valid key capacity h) (hfull : ¬ h.length < capacity) :
    MinHeap.slot h 0 ∈ h :=
  MinHeap.slot_mem (List.length_pos_of_ne_nil (hv.ne_nil hfull))

theorem Valid.root_le (hv : Valid key capacity h) {e : α} (he : e ∈ h) :
    key (MinHeap.slot h 0) ≤ key e :=
  hv.ordered.root_le_of_mem he

/-- A full heap holds `capacity` keys. -/
theorem Valid.card_keys (hv : Valid key capacity h) (hfull : ¬ h.length < capacity) :
    Multiset.card ((h.map key : List κ) : Multiset κ) = capacity := by
  rw [Multiset.coe_card, List.length_map]
  exact le_antisymm hv.size_le (not_lt.1 hfull)

/-- An addition keeps the order of any key the comparison respects, whatever `beats` says. -/
theorem add_valid (hv : Valid key capacity h) (e : α) (beats : Bool)
    (hr : MinHeap.Respects less key (e :: h)) :
    Valid key capacity (add less capacity h e beats) := by
  unfold add
  split_ifs with hroom hbeats
  · -- room left: the newcomer is pushed
    refine ⟨hv.capacity_pos, ?_, ?_⟩
    · rw [(push_perm less h e).length_eq, List.length_cons]
      omega
    · exact MinHeap.siftUp_ordered e hv.ordered
        (hr.of_perm (List.perm_append_singleton e h))
  · have hne := hv.ne_nil hroom
    obtain ⟨tail, hent, hperm⟩ := replace_perm less e hne
    have hset : h.set 0 e = e :: tail := by rw [hent]; rfl
    refine ⟨hv.capacity_pos, ?_, ?_⟩
    · have hlen := hperm.length_eq
      have htail := congrArg List.length hent
      have hsize := hv.size_le
      simp only [List.length_cons] at hlen htail
      omega
    · refine MinHeap.siftDown_ordered e (List.length_pos_of_ne_nil hne) hv.ordered ?_
      rw [hset]
      intro a ha b hb
      have hsub : ∀ x ∈ e :: tail, x ∈ e :: h := by
        intro x hx
        cases List.mem_cons.1 hx with
        | inl heq => exact heq ▸ List.mem_cons_self
        | inr htl =>
            rw [hent]
            exact List.mem_cons_of_mem _ (List.mem_cons_of_mem _ htl)
      exact hr a (hsub a ha) b (hsub b hb)
  · exact hv

/-- **One addition.**  If the comparison respects the key on the entries involved and `beats`
compares the newcomer with the root by it, the heap stays valid, keeps the `capacity` largest
keys, and holds nothing but old entries and the newcomer. -/
theorem add_spec (hv : Valid key capacity h) (e : α) (beats : Bool)
    (hr : MinHeap.Respects less key (e :: h))
    (hyes : ¬ h.length < capacity → beats = true → key (MinHeap.slot h 0) ≤ key e)
    (hno : ¬ h.length < capacity → beats = false → key e ≤ key (MinHeap.slot h 0)) :
    Valid key capacity (add less capacity h e beats) ∧
      (((add less capacity h e beats).map key : List κ) : Multiset κ) =
        kLargest capacity (key e ::ₘ (h.map key : List κ)) ∧
      (add less capacity h e beats : Multiset α) ≤ e ::ₘ (h : Multiset α) := by
  refine ⟨add_valid hv e beats hr, ?_⟩
  by_cases hroom : h.length < capacity
  · have heq : add less capacity h e beats = push less h e := by simp [add, hroom]
    have hperm := push_perm less h e
    rw [heq]
    constructor
    · rw [kLargest_cons_of_card_lt _ (by simpa using hroom)]
      exact Multiset.coe_eq_coe.2 (by simpa using hperm.map key)
    · exact (Multiset.coe_eq_coe.2 hperm).le
  · obtain ⟨tail, hent, hperm⟩ := replace_perm less e (hv.ne_nil hroom)
    have hkeys : ((h.map key : List κ) : Multiset κ) =
        key (MinHeap.slot h 0) ::ₘ (tail.map key : List κ) := by
      nth_rewrite 1 [hent]
      rfl
    have hmin : ∀ y ∈ ((tail.map key : List κ) : Multiset κ), key (MinHeap.slot h 0) ≤ y := by
      intro y hy
      obtain ⟨a, ha, rfl⟩ := List.mem_map.1 (Multiset.mem_coe.1 hy)
      exact hv.root_le (by rw [hent]; exact List.mem_cons_of_mem _ ha)
    have hcard : Multiset.card (key (MinHeap.slot h 0) ::ₘ ((tail.map key : List κ) : Multiset κ)) =
        capacity := by
      rw [← hkeys]
      exact hv.card_keys hroom
    cases beats with
    | true =>
        have heq : add less capacity h e true = replace less h e := by simp [add, hroom]
        rw [heq]
        constructor
        · have hnew : (((replace less h e).map key : List κ) : Multiset κ) =
              key e ::ₘ ((tail.map key : List κ) : Multiset κ) :=
            Multiset.coe_eq_coe.2 (by simpa using hperm.map key)
          rw [hnew, hkeys]
          exact (kLargest_cons_swap hcard hmin (hyes hroom rfl)).symm
        · have hle : (e ::ₘ (tail : Multiset α)) ≤ e ::ₘ (h : Multiset α) := by
            apply Multiset.cons_le_cons
            rw [hent]
            exact Multiset.coe_le.2 (List.sublist_cons_self _ _).subperm
          exact (Multiset.coe_eq_coe.2 hperm).le.trans hle
    | false =>
        have heq : add less capacity h e false = h := by simp [add, hroom]
        rw [heq]
        refine ⟨?_, Multiset.le_cons_self _ _⟩
        rw [hkeys]
        exact (kLargest_cons_keep hcard hmin (hno hroom rfl)).symm

/-- A newcomer below every key of a full heap changes no largest key. -/
theorem Valid.kLargest_cons_of_le (hv : Valid key capacity h) (hfull : ¬ h.length < capacity)
    {x : κ} (hx : x ≤ key (MinHeap.slot h 0)) :
    kLargest capacity (x ::ₘ (h.map key : List κ)) = (h.map key : List κ) := by
  have hcard := hv.card_keys hfull
  rw [← Multiset.singleton_add, add_comm, kLargest_add_of_le hcard.ge,
    kLargest_of_card_le hcard.le]
  intro y hy z hz
  obtain ⟨a, ha, rfl⟩ := List.mem_map.1 (Multiset.mem_coe.1 (mem_of_mem_kLargest hz))
  rw [Multiset.mem_singleton.1 hy]
  exact hx.trans (hv.root_le ha)

/-- Heaps with the same keys have roots of the same key, whatever their entries are. -/
theorem Valid.root_key_eq {β : Type*} [Inhabited β] {key' : β → κ} {h' : List β}
    (hv : Valid key capacity h) (hv' : Valid key' capacity h') (hfull : ¬ h.length < capacity)
    (hkeys : ((h.map key : List κ) : Multiset κ) = (h'.map key' : List κ)) :
    key (MinHeap.slot h 0) = key' (MinHeap.slot h' 0) := by
  have hfull' : ¬ h'.length < capacity := by
    have hcard := congrArg Multiset.card hkeys
    simp only [Multiset.coe_card, List.length_map] at hcard
    rwa [hcard] at hfull
  apply le_antisymm
  · have hmem : key' (MinHeap.slot h' 0) ∈ ((h.map key : List κ) : Multiset κ) := by
      rw [hkeys]
      exact Multiset.mem_coe.2 (List.mem_map_of_mem (hv'.root_mem hfull'))
    obtain ⟨a, ha, heq⟩ := List.mem_map.1 (Multiset.mem_coe.1 hmem)
    exact heq ▸ hv.root_le ha
  · have hmem : key (MinHeap.slot h 0) ∈ ((h'.map key' : List κ) : Multiset κ) := by
      rw [← hkeys]
      exact Multiset.mem_coe.2 (List.mem_map_of_mem (hv.root_mem hfull))
    obtain ⟨a, ha, heq⟩ := List.mem_map.1 (Multiset.mem_coe.1 hmem)
    exact heq ▸ hv'.root_le ha

end Key

end PgTextsearch.Verified.BoundedHeap
