import Mathlib.Data.Multiset.Basic
import Mathlib.Order.Basic
import Mathlib.Order.Lattice

/-!
# Array-based binary min-heap

The two sift loops of an implicit binary heap, over a list that stands for the
live part of the array and a Boolean comparison `less` that decides which of
two entries is closer to the root.

The comparison need not be a strict weak order.  What the proofs use is a `key`
into a linear order that `less` never contradicts (`Respects`): a comparison
may break ties of `key` in any way, even a non-transitive one, and the heap is
still ordered by `key`.

## Main results

* `siftUp_perm`, `siftDown_perm` — the loops permute the array.
* `siftUp_ordered` — after appending one entry, sifting up restores the order.
* `siftDown_ordered` — after replacing the root, sifting down restores it.
* `Ordered.root_le` — the root carries the smallest key.
-/

namespace PgTextsearch.Verified.MinHeap

variable {α : Type*} [Inhabited α]

/-- Read slot `i`; slots past the end are never read by the loops below. -/
def slot (h : List α) (i : Nat) : α := h.getD i default

/-- Exchange slots `i` and `j`. -/
def swap (h : List α) (i j : Nat) : List α :=
  (h.set i (slot h j)).set j (slot h i)

/-- Sift-up loop: exchange slot `i` with its parent while it is closer to the
root.  The index strictly decreases, so `fuel = i` never runs out. -/
def siftUp (less : α → α → Bool) : Nat → List α → Nat → List α
  | 0, h, _ => h
  | fuel + 1, h, i =>
      if 0 < i then
        let parent := (i - 1) / 2
        if less (slot h i) (slot h parent) then
          siftUp less fuel (swap h i parent) parent
        else h
      else h

/-- The child of `i` (or `i` itself) that the sift-down loop selects. -/
def smallest (less : α → α → Bool) (h : List α) (i : Nat) : Nat :=
  let left := 2 * i + 1
  let right := 2 * i + 2
  let s := if left < h.length ∧ less (slot h left) (slot h i) then left else i
  if right < h.length ∧ less (slot h right) (slot h s) then right else s

/-- Sift-down loop: exchange slot `i` with the selected child until none is
closer to the root.  The index strictly increases, so `fuel = h.length` never
runs out. -/
def siftDown (less : α → α → Bool) : Nat → List α → Nat → List α
  | 0, h, _ => h
  | fuel + 1, h, i =>
      if smallest less h i = i then h
      else siftDown less fuel (swap h i (smallest less h i)) (smallest less h i)

/-! ## Slots and permutations -/

theorem slot_eq_getElem {h : List α} {i : Nat} (hi : i < h.length) :
    slot h i = h[i] := by
  simp [slot, List.getD_eq_getElem?_getD, hi]

theorem slot_mem {h : List α} {i : Nat} (hi : i < h.length) : slot h i ∈ h := by
  rw [slot_eq_getElem hi]
  exact List.getElem_mem hi

@[simp] theorem length_swap (h : List α) (i j : Nat) :
    (swap h i j).length = h.length := by
  simp [swap]

theorem slot_swap {h : List α} {i j c : Nat} (hi : i < h.length) (hj : j < h.length) :
    slot (swap h i j) c =
      if c = j then slot h i else if c = i then slot h j else slot h c := by
  have hset : ∀ (l : List α) (n c : Nat) (a : α), n < l.length →
      slot (l.set n a) c = if c = n then a else slot l c := by
    intro l n c a hn
    by_cases hc : c = n
    · subst hc
      simp [slot, List.getD_eq_getElem?_getD, hn]
    · simp [slot, List.getD_eq_getElem?_getD, hc, List.getElem?_set_ne (Ne.symm hc)]
  rw [swap, hset _ j c _ (by simpa using hj), hset _ i c _ hi]

theorem swap_perm {h : List α} {i j : Nat} (hi : i < h.length) (hj : j < h.length) :
    (swap h i j).Perm h := by
  rw [swap, slot_eq_getElem hi, slot_eq_getElem hj]
  exact List.set_set_perm hi hj

theorem siftUp_perm (less : α → α → Bool) (fuel : Nat) (h : List α) (i : Nat)
    (hi : i < h.length) : (siftUp less fuel h i).Perm h := by
  induction fuel generalizing h i with
  | zero => exact List.Perm.refl h
  | succ fuel ih =>
      simp only [siftUp]
      split_ifs with hpos hless
      · have hp : (i - 1) / 2 < h.length := by omega
        exact (ih _ _ (by rw [length_swap]; exact hp)).trans (swap_perm hi hp)
      · exact List.Perm.refl h
      · exact List.Perm.refl h

/-- The selected slot is the slot itself or one of its live children. -/
theorem smallest_cases (less : α → α → Bool) (h : List α) (i : Nat) :
    smallest less h i = i ∨
      (smallest less h i < h.length ∧ (smallest less h i = 2 * i + 1 ∨
        smallest less h i = 2 * i + 2)) := by
  simp only [smallest]
  split_ifs <;> omega

theorem siftDown_perm (less : α → α → Bool) (fuel : Nat) (h : List α) (i : Nat)
    (hi : i < h.length) : (siftDown less fuel h i).Perm h := by
  induction fuel generalizing h i with
  | zero => exact List.Perm.refl h
  | succ fuel ih =>
      simp only [siftDown]
      split_ifs with hs
      · exact List.Perm.refl h
      · have hlt : smallest less h i < h.length := by
          rcases smallest_cases less h i with h0 | h0
          · exact absurd h0 hs
          · exact h0.1
        exact (ih _ _ (by rw [length_swap]; exact hlt)).trans (swap_perm hi hlt)

/-! ## Heap order by a key -/

section Order

variable {κ : Type*} [LinearOrder κ] (less : α → α → Bool) (key : α → κ)

/-- `less` never contradicts `key` on the entries of `h`. -/
def Respects (h : List α) : Prop :=
  ∀ a ∈ h, ∀ b ∈ h, (less a b = true → key a ≤ key b) ∧
    (less a b = false → key b ≤ key a)

/-- Min-heap order: no entry has a smaller key than its parent. -/
def Ordered (h : List α) : Prop :=
  ∀ c, 0 < c → c < h.length → key (slot h ((c - 1) / 2)) ≤ key (slot h c)

/-- Heap order everywhere except between `i` and its parent, with `i`'s
children already above `i`'s parent: the sift-up loop invariant. -/
structure UpOrdered (h : List α) (i : Nat) : Prop where
  except : ∀ c, 0 < c → c < h.length → c ≠ i →
    key (slot h ((c - 1) / 2)) ≤ key (slot h c)
  grand : 0 < i → ∀ c, c < h.length → 0 < c → (c - 1) / 2 = i →
    key (slot h ((i - 1) / 2)) ≤ key (slot h c)

/-- Heap order everywhere except between `i` and its children, with `i`'s
children already above `i`'s parent: the sift-down loop invariant. -/
structure DownOrdered (h : List α) (i : Nat) : Prop where
  except : ∀ c, 0 < c → c < h.length → (c - 1) / 2 ≠ i →
    key (slot h ((c - 1) / 2)) ≤ key (slot h c)
  grand : 0 < i → ∀ c, c < h.length → 0 < c → (c - 1) / 2 = i →
    key (slot h ((i - 1) / 2)) ≤ key (slot h c)

variable {less key}

omit [Inhabited α] in
theorem Respects.of_perm {h h' : List α} (hr : Respects less key h)
    (hp : h'.Perm h) : Respects less key h' := fun a ha b hb =>
  hr a (hp.mem_iff.1 ha) b (hp.mem_iff.1 hb)

/-- The root carries the smallest key of an ordered heap. -/
theorem Ordered.root_le {h : List α} (ho : Ordered key h) :
    ∀ i, i < h.length → key (slot h 0) ≤ key (slot h i) := by
  intro i
  induction i using Nat.strongRecOn with
  | ind i ih =>
      intro hi
      by_cases h0 : i = 0
      · subst h0
        exact le_refl _
      · exact (ih ((i - 1) / 2) (by omega) (by omega)).trans
          (ho i (by omega) hi)

theorem Ordered.root_le_of_mem {h : List α} (ho : Ordered key h) {a : α}
    (ha : a ∈ h) : key (slot h 0) ≤ key a := by
  obtain ⟨i, hi, rfl⟩ := List.getElem_of_mem ha
  rw [← slot_eq_getElem hi]
  exact ho.root_le i hi

/-- One exchange of the sift-up loop moves the exception to the parent. -/
theorem UpOrdered.move {h : List α} {i : Nat} (hu : UpOrdered key h i)
    (hpos : 0 < i) (hi : i < h.length)
    (hle : key (slot h i) ≤ key (slot h ((i - 1) / 2))) :
    UpOrdered key (swap h i ((i - 1) / 2)) ((i - 1) / 2) := by
  have hp : (i - 1) / 2 < h.length := by omega
  have hparent : 0 < (i - 1) / 2 →
      key (slot h (((i - 1) / 2 - 1) / 2)) ≤ key (slot h ((i - 1) / 2)) :=
    fun h0 => hu.except _ h0 hp (by omega)
  constructor
  · intro c hc hcl hcp
    rw [length_swap] at hcl
    rw [slot_swap hi hp, slot_swap hi hp]
    by_cases hci : c = i
    · subst hci
      simpa [show c ≠ (c - 1) / 2 by omega] using hle
    · by_cases hpi : (c - 1) / 2 = i
      · simpa [hpi, hcp, hci, show i ≠ (i - 1) / 2 by omega] using
          hu.grand hpos c hcl hc hpi
      · by_cases hpp : (c - 1) / 2 = (i - 1) / 2
        · have hsib := hu.except c hc hcl hci
          rw [hpp] at hsib
          simpa [hpp, hcp, hci] using hle.trans hsib
        · simpa [hpp, hpi, hcp, hci] using hu.except c hc hcl hci
  · intro h0 c hcl hc hcp
    rw [length_swap] at hcl
    have hgp : slot (swap h i ((i - 1) / 2)) (((i - 1) / 2 - 1) / 2) =
        slot h (((i - 1) / 2 - 1) / 2) := by
      rw [slot_swap hi hp, if_neg (by omega), if_neg (by omega)]
    rw [hgp, slot_swap hi hp, if_neg (by omega)]
    split_ifs with hci
    · exact hparent h0
    · have hsib := hu.except c hc hcl hci
      rw [hcp] at hsib
      exact (hparent h0).trans hsib

/-- When the loop stops, the exceptional pair is in order too. -/
theorem UpOrdered.finish {h : List α} {i : Nat} (hu : UpOrdered key h i)
    (hstop : 0 < i → key (slot h ((i - 1) / 2)) ≤ key (slot h i)) :
    Ordered key h := by
  intro c hc hcl
  by_cases hci : c = i
  · subst hci
    exact hstop hc
  · exact hu.except c hc hcl hci

theorem siftUp_ordered_aux (fuel : Nat) (h : List α) (i : Nat)
    (hr : Respects less key h) (hu : UpOrdered key h i) (hi : i < h.length)
    (hfuel : i ≤ fuel) : Ordered key (siftUp less fuel h i) := by
  induction fuel generalizing h i with
  | zero => exact hu.finish (by omega)
  | succ fuel ih =>
      simp only [siftUp]
      split_ifs with hpos hless
      · have hp : (i - 1) / 2 < h.length := by omega
        have hle := (hr _ (slot_mem hi) _ (slot_mem hp)).1 hless
        exact ih _ _ (hr.of_perm (swap_perm hi hp)) (hu.move hpos hi hle)
          (by rw [length_swap]; exact hp) (by omega)
      · have hp : (i - 1) / 2 < h.length := by omega
        exact hu.finish fun _ =>
          (hr _ (slot_mem hi) _ (slot_mem hp)).2 (by simpa using hless)
      · exact hu.finish (by omega)

/-- **Insertion.**  Appending one entry to an ordered heap and sifting it up
gives an ordered heap. -/
theorem siftUp_ordered {h : List α} (e : α) (ho : Ordered key h)
    (hr : Respects less key (h ++ [e])) :
    Ordered key (siftUp less h.length (h ++ [e]) h.length) := by
  refine siftUp_ordered_aux h.length (h ++ [e]) h.length hr ?_ (by simp) (le_refl _)
  have hslot : ∀ c, c < h.length → slot (h ++ [e]) c = slot h c := by
    intro c hc
    simp [slot, List.getD_eq_getElem?_getD, List.getElem?_append, hc]
  constructor
  · intro c hc hcl hne
    simp only [List.length_append, List.length_singleton] at hcl
    rw [hslot c (by omega), hslot _ (by omega)]
    exact ho c hc (by omega)
  · intro _ c hcl _ hpar
    simp only [List.length_append, List.length_singleton] at hcl
    omega

/-- The selected slot has the smallest key among `i` and its live children. -/
theorem smallest_le {h : List α} {i : Nat} (hr : Respects less key h)
    (hi : i < h.length) :
    key (slot h (smallest less h i)) ≤ key (slot h i) ∧
      ∀ c, c < h.length → 0 < c → (c - 1) / 2 = i →
        key (slot h (smallest less h i)) ≤ key (slot h c) := by
  have hcmp : ∀ {a b : Nat}, a < h.length → b < h.length →
      less (slot h a) (slot h b) = true → key (slot h a) ≤ key (slot h b) :=
    fun ha hb hl => (hr _ (slot_mem ha) _ (slot_mem hb)).1 hl
  have hncmp : ∀ {a b : Nat}, a < h.length → b < h.length →
      ¬ less (slot h a) (slot h b) = true → key (slot h b) ≤ key (slot h a) :=
    fun ha hb hl => (hr _ (slot_mem ha) _ (slot_mem hb)).2 (by simpa using hl)
  -- the first comparison picks the smaller of `i` and its left child
  obtain ⟨s, hsdef⟩ : ∃ s, s = if 2 * i + 1 < h.length ∧
      less (slot h (2 * i + 1)) (slot h i) = true then 2 * i + 1 else i := ⟨_, rfl⟩
  have hs : s < h.length ∧ key (slot h s) ≤ key (slot h i) ∧
      (2 * i + 1 < h.length → key (slot h s) ≤ key (slot h (2 * i + 1))) := by
    rw [hsdef]
    split_ifs with hl
    · exact ⟨hl.1, hcmp hl.1 hi hl.2, fun _ => le_refl _⟩
    · refine ⟨hi, le_refl _, fun hlen => ?_⟩
      exact hncmp hlen hi fun hless => hl ⟨hlen, hless⟩
  have hsm : smallest less h i = if 2 * i + 2 < h.length ∧
      less (slot h (2 * i + 2)) (slot h s) = true then 2 * i + 2 else s := by
    rw [hsdef]; rfl
  rw [hsm]
  split_ifs with hrt
  · have hle := hcmp hrt.1 hs.1 hrt.2
    refine ⟨hle.trans hs.2.1, fun c hc hc0 hpar => ?_⟩
    have : c = 2 * i + 1 ∨ c = 2 * i + 2 := by omega
    rcases this with rfl | rfl
    · exact hle.trans (hs.2.2 hc)
    · exact le_refl _
  · refine ⟨hs.2.1, fun c hc hc0 hpar => ?_⟩
    have : c = 2 * i + 1 ∨ c = 2 * i + 2 := by omega
    rcases this with rfl | rfl
    · exact hs.2.2 hc
    · exact hncmp hc hs.1 fun hless => hrt ⟨hc, hless⟩

/-- One exchange of the sift-down loop moves the exception to the child. -/
theorem DownOrdered.move {h : List α} {i s : Nat} (hd : DownOrdered key h i)
    (hi : i < h.length) (hs : s < h.length) (hs0 : 0 < s) (hpar : (s - 1) / 2 = i)
    (hmin : ∀ c, c < h.length → 0 < c → (c - 1) / 2 = i →
      key (slot h s) ≤ key (slot h c))
    (hle : key (slot h s) ≤ key (slot h i)) :
    DownOrdered key (swap h i s) s := by
  constructor
  · intro c hc hcl hcs
    rw [length_swap] at hcl
    rw [slot_swap hi hs, slot_swap hi hs, if_neg hcs]
    by_cases hci : (c - 1) / 2 = i
    · rw [if_pos hci]
      split_ifs with h1 h2
      · exact hle
      · omega
      · exact hmin c hcl hc hci
    · rw [if_neg hci]
      split_ifs with h1 h2
      · omega
      · subst h2
        have hg := hd.grand hc s hs hs0 hpar
        exact hg
      · exact hd.except c hc hcl hci
  · intro _ c hcl hc hcs
    rw [length_swap] at hcl
    rw [slot_swap hi hs, slot_swap hi hs, if_neg (by omega), if_pos hpar,
      if_neg (by omega), if_neg (by omega)]
    have := hd.except c hc hcl (by omega)
    rwa [hcs] at this

theorem siftDown_ordered_aux (fuel : Nat) (h : List α) (i : Nat)
    (hr : Respects less key h) (hd : DownOrdered key h i) (hi : i < h.length)
    (hfuel : h.length ≤ fuel + i) : Ordered key (siftDown less fuel h i) := by
  induction fuel generalizing h i with
  | zero => omega
  | succ fuel ih =>
      simp only [siftDown]
      have hsm := smallest_le hr hi
      split_ifs with hs
      · rw [hs] at hsm
        intro c hc hcl
        by_cases hpar : (c - 1) / 2 = i
        · rw [hpar]
          exact hsm.2 c hcl hc hpar
        · exact hd.except c hc hcl hpar
      · obtain ⟨hlt, hchild⟩ := (smallest_cases less h i).resolve_left hs
        have hmove := hd.move hi hlt (by omega) (by omega) hsm.2 hsm.1
        exact ih _ _ (hr.of_perm (swap_perm hi hlt)) hmove
          (by rw [length_swap]; exact hlt) (by rw [length_swap]; omega)

/-- **Replacement.**  Overwriting the root of an ordered heap and sifting it
down gives an ordered heap. -/
theorem siftDown_ordered {h : List α} (e : α) (hne : 0 < h.length)
    (ho : Ordered key h) (hr : Respects less key (h.set 0 e)) :
    Ordered key (siftDown less h.length (h.set 0 e) 0) := by
  refine siftDown_ordered_aux h.length (h.set 0 e) 0 hr ?_ (by simpa using hne) (by simp)
  have hslot : ∀ c, 0 < c → slot (h.set 0 e) c = slot h c := by
    intro c hc
    simp [slot, List.getD_eq_getElem?_getD, Nat.ne_of_lt hc]
  constructor
  · intro c hc hcl hpar
    rw [hslot c hc, hslot _ (by omega)]
    exact ho c hc (by simpa using hcl)
  · intro h0
    omega

end Order

end PgTextsearch.Verified.MinHeap
