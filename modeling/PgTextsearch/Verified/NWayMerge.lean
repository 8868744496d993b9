import Mathlib.Algebra.GroupWithZero.Nat
import Mathlib.Data.List.Forall2
import Mathlib.Data.List.Perm.Basic
import Mathlib.Order.Basic
import Mathlib.Order.Lattice

/-!
# Merging any number of cursors

A source is a cursor: it shows a head element or none, and can be advanced.  Both loops
here look for the first source with the smallest head.  `drainMin` takes the head of that
source and advances it, one element at a time; `mergeKeyed` takes the heads of all sources
that show the smallest key and advances all of them.

The results are about any relation between cursors and the lists they still have to
deliver that advancing follows (`Delivers`).

## Main results

* `firstMin_eq_none`, `firstMin_eq_some` — what the search for the smallest head finds.
* `drainMin_perm` — every element of every source is taken once, with its source.
* `mergeKeyed_spec` — over sources with strictly increasing keys, every key comes once,
  keys strictly increase, and each comes with the values of all sources that have it.
-/

namespace PgTextsearch.Verified

variable {σ α κ β : Type}

/-! ## The first smallest head -/

section FirstMin

/-- The search loop: the smallest key so far with its index, replaced when a later key is
smaller. -/
def firstMinLoop (less : κ → κ → Bool) : Nat → Option (Nat × κ) → List (Option κ) →
    Option (Nat × κ)
  | _, best, [] => best
  | i, best, none :: rest => firstMinLoop less (i + 1) best rest
  | i, none, some k :: rest => firstMinLoop less (i + 1) (some (i, k)) rest
  | i, some best, some k :: rest =>
      firstMinLoop less (i + 1) (if less k best.2 then some (i, k) else some best) rest

/-- The first of the smallest heads, with its index. -/
def firstMin (less : κ → κ → Bool) (heads : List (Option κ)) : Option (Nat × κ) :=
  firstMinLoop less 0 none heads

variable [LinearOrder κ] {less : κ → κ → Bool}

/-- Once a candidate is there, the loop ends with one: the candidate or a later head, and
smallest among both. -/
private theorem firstMinLoop_some (hless : ∀ a b, less a b = true ↔ a < b)
    (heads : List (Option κ)) (i : Nat) (best : Nat × κ) :
    ∃ r, firstMinLoop less i (some best) heads = some r ∧ r.2 ≤ best.2 ∧
      (∀ k, some k ∈ heads → r.2 ≤ k) ∧
      (r = best ∨ ∃ j, heads[j]? = some (some r.2) ∧ r.1 = i + j) := by
  induction heads generalizing i best with
  | nil => exact ⟨best, rfl, le_refl _, fun k hk => (nomatch hk), Or.inl rfl⟩
  | cons h rest ih =>
      cases h with
      | none =>
          obtain ⟨r, hr, hle, hmin, hat⟩ := ih (i + 1) best
          refine ⟨r, hr, hle, ?_, ?_⟩
          · intro k hk
            exact hmin k (by simpa using hk)
          · rcases hat with heq | ⟨j, hj, hidx⟩
            · exact Or.inl heq
            · exact Or.inr ⟨j + 1, hj, by omega⟩
      | some k =>
          unfold firstMinLoop
          by_cases hlt : less k best.2 = true
          · rw [if_pos hlt]
            obtain ⟨r, hr, hle, hmin, hat⟩ := ih (i + 1) (i, k)
            refine ⟨r, hr, hle.trans ((hless _ _).1 hlt).le, ?_, Or.inr ?_⟩
            · intro k' hk'
              rcases List.mem_cons.1 hk' with heq | hk'
              · rw [Option.some.inj heq]
                exact hle
              · exact hmin k' hk'
            · rcases hat with heq | ⟨j, hj, hidx⟩
              · exact ⟨0, by rw [heq]; rfl, by rw [heq]; rfl⟩
              · exact ⟨j + 1, hj, by omega⟩
          · rw [if_neg hlt]
            have hge : best.2 ≤ k := not_lt.1 fun h => hlt ((hless _ _).2 h)
            obtain ⟨r, hr, hle, hmin, hat⟩ := ih (i + 1) best
            refine ⟨r, hr, hle, ?_, ?_⟩
            · intro k' hk'
              rcases List.mem_cons.1 hk' with heq | hk'
              · rw [Option.some.inj heq]
                exact hle.trans hge
              · exact hmin k' hk'
            · rcases hat with heq | ⟨j, hj, hidx⟩
              · exact Or.inl heq
              · exact Or.inr ⟨j + 1, hj, by omega⟩

private theorem firstMinLoop_none (hless : ∀ a b, less a b = true ↔ a < b)
    (heads : List (Option κ)) (i : Nat) :
    (firstMinLoop less i none heads = none ∧ ∀ h ∈ heads, h = none) ∨
      ∃ r, firstMinLoop less i none heads = some r ∧ (∀ k, some k ∈ heads → r.2 ≤ k) ∧
        ∃ j, heads[j]? = some (some r.2) ∧ r.1 = i + j := by
  induction heads generalizing i with
  | nil => exact Or.inl ⟨rfl, fun h hh => (nomatch hh)⟩
  | cons h rest ih =>
      cases h with
      | none =>
          rcases ih (i + 1) with ⟨hnone, hall⟩ | ⟨r, hr, hmin, j, hj, hidx⟩
          · exact Or.inl ⟨hnone, by simpa using hall⟩
          · exact Or.inr ⟨r, hr, fun k hk => hmin k (by simpa using hk), j + 1, hj, by omega⟩
      | some k =>
          obtain ⟨r, hr, hle, hmin, hat⟩ := firstMinLoop_some hless rest (i + 1) (i, k)
          refine Or.inr ⟨r, hr, ?_, ?_⟩
          · intro k' hk'
            rcases List.mem_cons.1 hk' with heq | hk'
            · rw [Option.some.inj heq]
              exact hle
            · exact hmin k' hk'
          · rcases hat with heq | ⟨j, hj, hidx⟩
            · exact ⟨0, by rw [heq]; rfl, by rw [heq]; rfl⟩
            · exact ⟨j + 1, hj, by omega⟩

theorem firstMin_eq_none (hless : ∀ a b, less a b = true ↔ a < b) {heads : List (Option κ)}
    (h : firstMin less heads = none) : ∀ head ∈ heads, head = none := by
  rcases firstMinLoop_none hless heads 0 with ⟨-, hall⟩ | ⟨r, hr, -⟩
  · exact hall
  · rw [firstMin, hr] at h
    cases h

theorem firstMin_eq_some (hless : ∀ a b, less a b = true ↔ a < b) {heads : List (Option κ)}
    {i : Nat} {k : κ} (h : firstMin less heads = some (i, k)) :
    heads[i]? = some (some k) ∧ ∀ k', some k' ∈ heads → k ≤ k' := by
  rcases firstMinLoop_none hless heads 0 with ⟨hnone, -⟩ | ⟨r, hr, hmin, j, hj, hidx⟩
  · rw [firstMin, hnone] at h
    cases h
  · rw [firstMin, hr] at h
    cases h
    have hi : i = j := by simpa using hidx
    rw [hi]
    exact ⟨hj, hmin⟩

end FirstMin

/-! ## Cursors -/

/-- `R s l`: the cursor `s` delivers the list `l`. -/
structure Delivers (head : σ → Option α) (advance : σ → Option σ) (R : σ → List α → Prop) :
    Prop where
  head_nil : ∀ s, R s [] → head s = none
  head_cons : ∀ s a l, R s (a :: l) → head s = some a
  advance_cons : ∀ s a l, R s (a :: l) → ∃ s', advance s = some s' ∧ R s' l

/-- The elements of the lists, each with the index of its list. -/
def tagged : Nat → List (List α) → List (Nat × α)
  | _, [] => []
  | i, l :: rest => l.map (fun a => (i, a)) ++ tagged (i + 1) rest

theorem tagged_set_perm (lists : List (List α)) {i j : Nat} {a : α} {l : List α}
    (h : lists[j]? = some (a :: l)) :
    (tagged i lists).Perm ((i + j, a) :: tagged i (lists.set j l)) := by
  induction lists generalizing i j with
  | nil => cases h
  | cons l' rest ih =>
      cases j with
      | zero =>
          cases h
          exact List.Perm.refl _
      | succ j =>
          have htail := ih (i := i + 1) (j := j) h
          rw [Nat.add_right_comm] at htail
          exact (htail.append_left (l'.map fun a => (i, a))).trans List.perm_middle

theorem mem_tagged {lists : List (List α)} {i j : Nat} {a : α} :
    (j, a) ∈ tagged i lists ↔ ∃ n l, lists[n]? = some l ∧ j = i + n ∧ a ∈ l := by
  induction lists generalizing i with
  | nil => simp [tagged]
  | cons l rest ih =>
      rw [tagged, List.mem_append, ih]
      constructor
      · rintro (h | ⟨n, l', hn, hj, ha⟩)
        · obtain ⟨a', ha', heq⟩ := List.mem_map.1 h
          cases heq
          exact ⟨0, l, rfl, rfl, ha'⟩
        · exact ⟨n + 1, l', hn, by omega, ha⟩
      · rintro ⟨n, l', hn, hj, ha⟩
        cases n with
        | zero =>
            cases hn
            rw [hj]
            exact Or.inl (List.mem_map_of_mem ha)
        | succ n => exact Or.inr ⟨n, l', hn, by omega, ha⟩

theorem length_tagged (lists : List (List α)) (i : Nat) :
    (tagged i lists).length = (lists.map List.length).sum := by
  induction lists generalizing i with
  | nil => rfl
  | cons l rest ih => simp [tagged, ih]

/-- Tags that stand for the members of a list can be replaced by them. -/
theorem map_tagged {ρ γ : Type} (xs : List ρ) (h : ρ → List α) (f : Nat → α → γ)
    (g : ρ → α → γ) (i : Nat) (hfg : ∀ n x, xs[n]? = some x → ∀ a, f (i + n) a = g x a) :
    ((tagged i (xs.map h)).map fun t => f t.1 t.2) = xs.flatMap fun x => (h x).map (g x) := by
  induction xs generalizing i with
  | nil => rfl
  | cons x xs ih =>
      have hhead : ((h x).map fun a => f i a) = (h x).map (g x) :=
        List.map_congr_left fun a _ => hfg 0 x rfl a
      have htail := ih (i + 1) fun n y hy a => by
        rw [Nat.add_assoc, Nat.add_comm 1 n]
        exact hfg (n + 1) y hy a
      rw [List.map_cons, tagged, List.map_append, List.map_map, htail, List.flatMap_cons, ← hhead]
      rfl

/-! ## Taking one head at a time -/

section DrainMin

/-- The draining loop, with the number of elements still allowed.  `none` when it runs
out, or when a source cannot be advanced. -/
def drainMin (less : κ → κ → Bool) (key : α → κ) (head : σ → Option α)
    (advance : σ → Option σ) : Nat → List σ → Option (List (Nat × α))
  | 0, _ => none
  | fuel + 1, sources =>
      match firstMin less (sources.map fun s => (head s).map key) with
      | none => some []
      | some (i, _) => do
          let source ← sources[i]?
          let a ← head source
          let source' ← advance source
          let rest ← drainMin less key head advance fuel (sources.set i source')
          return (i, a) :: rest

variable [LinearOrder κ] {less : κ → κ → Bool} {head : σ → Option α}
  {advance : σ → Option σ} {R : σ → List α → Prop}

private theorem forall₂_getElem? {R : σ → List α → Prop} {sources : List σ}
    {lists : List (List α)} (h : List.Forall₂ R sources lists) {i : Nat} {s : σ}
    (hi : sources[i]? = some s) : ∃ l, lists[i]? = some l ∧ R s l := by
  induction h generalizing i with
  | nil => cases hi
  | cons hR _ ih =>
      cases i with
      | zero =>
          cases hi
          exact ⟨_, rfl, hR⟩
      | succ i => exact ih hi

private theorem forall₂_set {R : σ → List α → Prop} {sources : List σ}
    {lists : List (List α)} (h : List.Forall₂ R sources lists) (i : Nat) {s : σ} {l : List α}
    (hs : R s l) : List.Forall₂ R (sources.set i s) (lists.set i l) := by
  induction h generalizing i with
  | nil => exact List.Forall₂.nil
  | cons hR htail ih =>
      cases i with
      | zero => exact List.Forall₂.cons hs htail
      | succ i => exact List.Forall₂.cons hR (ih i)

/-- When no source shows a head, there is nothing left. -/
private theorem tagged_eq_nil (hd : Delivers head advance R) {sources : List σ}
    {lists : List (List α)} (hR : List.Forall₂ R sources lists)
    (hnone : ∀ s ∈ sources, head s = none) (i : Nat) : tagged i lists = [] := by
  induction hR generalizing i with
  | nil => rfl
  | @cons s l _ _ hs _ ih =>
      cases l with
      | nil => exact ih (fun s' hs' => hnone s' (List.mem_cons_of_mem _ hs')) (i + 1)
      | cons a l =>
          have hhead := hd.head_cons s a l hs
          rw [hnone s List.mem_cons_self] at hhead
          cases hhead

/-- **Draining takes every element of every source once.** -/
theorem drainMin_perm (key : α → κ) (hless : ∀ a b, less a b = true ↔ a < b)
    (hd : Delivers head advance R)
    (fuel : Nat) {sources : List σ} {lists : List (List α)}
    (hR : List.Forall₂ R sources lists) (hfuel : (lists.map List.length).sum < fuel) :
    ∃ out, drainMin less key head advance fuel sources = some out ∧
      out.Perm (tagged 0 lists) := by
  induction fuel generalizing sources lists with
  | zero => omega
  | succ fuel ih =>
      unfold drainMin
      cases hmin : firstMin less (sources.map fun s => (head s).map key) with
      | none =>
          have hall : ∀ s ∈ sources, head s = none := by
            intro s hs
            have := firstMin_eq_none hless hmin _ (List.mem_map_of_mem hs)
            simpa using this
          refine ⟨[], rfl, ?_⟩
          rw [tagged_eq_nil hd hR hall]
      | some r =>
          obtain ⟨i, k⟩ := r
          obtain ⟨hi, -⟩ := firstMin_eq_some hless hmin
          rw [List.getElem?_map, Option.map_eq_some_iff] at hi
          obtain ⟨s, hs, hk⟩ := hi
          obtain ⟨l, hl, hRs⟩ := forall₂_getElem? hR hs
          cases l with
          | nil =>
              rw [hd.head_nil s hRs] at hk
              cases hk
          | cons a l =>
              obtain ⟨s', hadv, hR'⟩ := hd.advance_cons s a l hRs
              have hperm := tagged_set_perm lists (i := 0) hl
              have hsum : ((lists.set i l).map List.length).sum < fuel := by
                have hlen := hperm.length_eq
                rw [List.length_cons, length_tagged, length_tagged] at hlen
                omega
              obtain ⟨out, hout, hrest⟩ := ih (forall₂_set hR i hR') hsum
              refine ⟨(i, a) :: out, ?_, ?_⟩
              · simp only [hs, hd.head_cons s a l hRs, hadv, hout, Option.bind_eq_bind,
                  Option.bind_some]
                rfl
              · rw [Nat.zero_add] at hperm
                exact (List.Perm.cons (i, a) hrest).trans hperm.symm

end DrainMin

/-! ## Taking all heads with the smallest key -/

section MergeKeyed

/-- The inner loop: every source that shows the key gives its value and is advanced. -/
def takeKey [DecidableEq κ] (head : σ → Option (κ × β)) (advance : σ → Option σ) (k : κ) :
    Nat → List σ → Option (List (Nat × β) × List σ)
  | _, [] => some ([], [])
  | i, source :: rest =>
      match head source with
      | none => do
          let (refs, sources) ← takeKey head advance k (i + 1) rest
          return (refs, source :: sources)
      | some (k', b) =>
          if k' = k then do
            let source' ← advance source
            let (refs, sources) ← takeKey head advance k (i + 1) rest
            return ((i, b) :: refs, source' :: sources)
          else do
            let (refs, sources) ← takeKey head advance k (i + 1) rest
            return (refs, source :: sources)

/-- The outer loop, with the number of rounds still allowed. -/
def mergeKeyed [DecidableEq κ] (less : κ → κ → Bool) (head : σ → Option (κ × β))
    (advance : σ → Option σ) : Nat → List σ → Option (List (κ × List (Nat × β)))
  | 0, _ => none
  | fuel + 1, sources =>
      match firstMin less (sources.map fun s => (head s).map Prod.fst) with
      | none => some []
      | some (_, k) => do
          let (refs, sources') ← takeKey head advance k 0 sources
          let rest ← mergeKeyed less head advance fuel sources'
          return (k, refs) :: rest

/-- The values the lists have for a key, each with the index of its list. -/
def refsOf [DecidableEq κ] (k : κ) : Nat → List (List (κ × β)) → List (Nat × β)
  | _, [] => []
  | i, l :: rest =>
      match l.lookup k with
      | none => refsOf k (i + 1) rest
      | some b => (i, b) :: refsOf k (i + 1) rest

/-- A list without its head when that has the key. -/
def dropKey [DecidableEq κ] (k : κ) : List (κ × β) → List (κ × β)
  | [] => []
  | p :: l => if p.1 = k then l else p :: l

variable [LinearOrder κ] {less : κ → κ → Bool} {head : σ → Option (κ × β)}
  {advance : σ → Option σ} {R : σ → List (κ × β) → Prop}

theorem dropKey_cons (k : κ) (p : κ × β) (l : List (κ × β)) :
    dropKey k (p :: l) = if p.1 = k then l else p :: l := rfl

/-- The keys of a list strictly increase. -/
def KeysIncrease (l : List (κ × β)) : Prop :=
  l.Pairwise fun p q => p.1 < q.1

theorem KeysIncrease.lookup_tail {k : κ} {b : β} {l : List (κ × β)}
    (h : KeysIncrease ((k, b) :: l)) : l.lookup k = none := by
  rw [List.lookup_eq_none_iff]
  intro p hp
  have hlt := (List.pairwise_cons.1 h).1 p hp
  simpa using hlt.ne

theorem KeysIncrease.lookup_eq_some_iff {l : List (κ × β)} (h : KeysIncrease l) {k : κ} {b : β} :
    l.lookup k = some b ↔ (k, b) ∈ l := by
  induction l with
  | nil => simp
  | cons p l ih =>
      obtain ⟨k', b'⟩ := p
      obtain ⟨hhead, htail⟩ := List.pairwise_cons.1 h
      rw [List.lookup_cons, List.mem_cons, Prod.mk.injEq]
      by_cases hk : k = k'
      · subst hk
        have hnot : (k, b) ∉ l := fun hmem => lt_irrefl k (hhead _ hmem)
        simp [hnot, eq_comm]
      · rw [beq_false_of_ne hk]
        simp [hk, ih htail]

theorem KeysIncrease.dropKey {l : List (κ × β)} (h : KeysIncrease l) (k : κ) :
    KeysIncrease (dropKey k l) := by
  cases l with
  | nil => exact h
  | cons p l =>
      rw [dropKey_cons]
      split
      · exact (List.pairwise_cons.1 h).2
      · exact h

/-- What is left after the smallest key has larger keys. -/
theorem KeysIncrease.lt_of_mem_dropKey {l : List (κ × β)} (h : KeysIncrease l) {k : κ}
    (hmin : ∀ p ∈ l, k ≤ p.1) {p : κ × β} (hp : p ∈ Verified.dropKey k l) : k < p.1 := by
  cases l with
  | nil => cases hp
  | cons q l =>
      obtain ⟨hhead, -⟩ := List.pairwise_cons.1 h
      rw [dropKey_cons] at hp
      split at hp
      case isTrue heq => exact heq ▸ hhead p hp
      case isFalse hne =>
        have hlt : k < q.1 := lt_of_le_of_ne (hmin q List.mem_cons_self) (Ne.symm hne)
        rcases List.mem_cons.1 hp with rfl | hp
        · exact hlt
        · exact hlt.trans (hhead p hp)

theorem mem_of_mem_dropKey {l : List (κ × β)} {k : κ} {p : κ × β} (hp : p ∈ dropKey k l) :
    p ∈ l := by
  cases l with
  | nil => exact hp
  | cons q l =>
      rw [dropKey_cons] at hp
      split at hp
      · exact List.mem_cons_of_mem _ hp
      · exact hp

theorem mem_dropKey_of_ne {l : List (κ × β)} {k : κ} {p : κ × β} (hp : p ∈ l) (hne : p.1 ≠ k) :
    p ∈ dropKey k l := by
  cases l with
  | nil => exact hp
  | cons q l =>
      rw [dropKey_cons]
      split
      case isTrue heq =>
        rcases List.mem_cons.1 hp with rfl | hp
        · exact absurd heq hne
        · exact hp
      case isFalse => exact hp

theorem lookup_dropKey {l : List (κ × β)} {k k' : κ} (hne : k' ≠ k) :
    (dropKey k l).lookup k' = l.lookup k' := by
  cases l with
  | nil => rfl
  | cons q l =>
      rw [dropKey_cons]
      split
      case isTrue heq =>
        rw [List.lookup_cons, beq_false_of_ne (heq ▸ hne)]
      case isFalse => rfl

theorem refsOf_map_dropKey {k k' : κ} (hne : k' ≠ k) (lists : List (List (κ × β))) (i : Nat) :
    refsOf k' i (lists.map (dropKey k)) = refsOf k' i lists := by
  induction lists generalizing i with
  | nil => rfl
  | cons l rest ih => simp only [List.map_cons, refsOf, lookup_dropKey hne, ih]

theorem mem_refsOf {lists : List (List (κ × β))} {k : κ} {i j : Nat} {b : β} :
    (j, b) ∈ refsOf k i lists ↔ ∃ n l, lists[n]? = some l ∧ j = i + n ∧ l.lookup k = some b := by
  induction lists generalizing i with
  | nil => simp [refsOf]
  | cons l rest ih =>
      have hstep : (∃ n l', (l :: rest)[n]? = some l' ∧ j = i + n ∧ l'.lookup k = some b) ↔
          (j = i ∧ l.lookup k = some b) ∨
            ∃ n l', rest[n]? = some l' ∧ j = i + 1 + n ∧ l'.lookup k = some b := by
        constructor
        · rintro ⟨n, l', hn, hj, hlook⟩
          cases n with
          | zero =>
              cases hn
              exact Or.inl ⟨hj, hlook⟩
          | succ n => exact Or.inr ⟨n, l', hn, by omega, hlook⟩
        · rintro (⟨hj, hlook⟩ | ⟨n, l', hn, hj, hlook⟩)
          · exact ⟨0, l, rfl, hj, hlook⟩
          · exact ⟨n + 1, l', hn, by omega, hlook⟩
      rw [hstep, ← ih, refsOf]
      cases hlook : l.lookup k with
      | none => simp
      | some b' =>
          simp only [List.mem_cons, Prod.mk.injEq, Option.some.injEq]
          rw [eq_comm (a := b)]

/-- The references of a key come in the order of the lists. -/
theorem refsOf_increase (lists : List (List (κ × β))) (k : κ) (i : Nat) :
    (refsOf k i lists).Pairwise fun a b => a.1 < b.1 := by
  induction lists generalizing i with
  | nil => exact List.Pairwise.nil
  | cons l rest ih =>
      rw [refsOf]
      cases l.lookup k with
      | none => exact ih (i + 1)
      | some b =>
          refine List.pairwise_cons.2 ⟨?_, ih (i + 1)⟩
          rintro ⟨j, b'⟩ hj
          obtain ⟨n, -, -, hidx, -⟩ := mem_refsOf.1 hj
          show i < j
          omega

/-- **The inner loop** at the smallest key. -/
theorem takeKey_spec (hd : Delivers head advance R) {k : κ} {sources : List σ}
    {lists : List (List (κ × β))} (hR : List.Forall₂ R sources lists)
    (hsorted : ∀ l ∈ lists, KeysIncrease l) (hmin : ∀ l ∈ lists, ∀ p ∈ l, k ≤ p.1) (i : Nat) :
    ∃ sources', takeKey head advance k i sources = some (refsOf k i lists, sources') ∧
      List.Forall₂ R sources' (lists.map (dropKey k)) := by
  induction hR generalizing i with
  | nil => exact ⟨[], rfl, List.Forall₂.nil⟩
  | @cons s l sources lists hs _ ih =>
      obtain ⟨sources', htake, hR'⟩ := ih
        (fun l' hl' => hsorted l' (List.mem_cons_of_mem _ hl'))
        (fun l' hl' => hmin l' (List.mem_cons_of_mem _ hl')) (i + 1)
      unfold takeKey
      cases l with
      | nil =>
          refine ⟨s :: sources', ?_, List.Forall₂.cons hs hR'⟩
          simp [hd.head_nil s hs, htake, refsOf]
      | cons p l =>
          obtain ⟨k', b⟩ := p
          have hinc := hsorted _ List.mem_cons_self
          by_cases hk : k' = k
          · subst hk
            obtain ⟨s', hadv, hs'⟩ := hd.advance_cons s (k', b) l hs
            refine ⟨s' :: sources', ?_, ?_⟩
            · simp [hd.head_cons s _ l hs, htake, hadv, refsOf]
            · simpa [dropKey] using List.Forall₂.cons hs' hR'
          · have hlt : k < k' :=
              lt_of_le_of_ne (hmin _ List.mem_cons_self _ List.mem_cons_self) (Ne.symm hk)
            have hlook : ((k', b) :: l).lookup k = none := by
              rw [List.lookup_eq_none_iff]
              intro q hq
              rcases List.mem_cons.1 hq with rfl | hq
              · simpa using hlt.ne
              · simpa using (hlt.trans ((List.pairwise_cons.1 hinc).1 q hq)).ne
            refine ⟨s :: sources', ?_, ?_⟩
            · simp [hd.head_cons s _ l hs, htake, hk, refsOf, hlook]
            · simpa [dropKey, hk] using List.Forall₂.cons hs hR'

/-- What a merge of keyed lists yields. -/
structure MergedKeys (lists : List (List (κ × β))) (out : List (κ × List (Nat × β))) : Prop where
  increase : out.Pairwise fun p q => p.1 < q.1
  mem_iff : ∀ k, (∃ refs, (k, refs) ∈ out) ↔ ∃ l ∈ lists, ∃ b, (k, b) ∈ l
  refs_eq : ∀ k refs, (k, refs) ∈ out → refs = refsOf k 0 lists

/-- The lists behind the sources that show the smallest key lose an element. -/
private theorem sum_length_dropKey_lt {lists : List (List (κ × β))} {k : κ} {i : Nat} {b : β}
    {l : List (κ × β)} (h : lists[i]? = some ((k, b) :: l)) :
    ((lists.map (dropKey k)).map List.length).sum < (lists.map List.length).sum := by
  have hle : ∀ l : List (κ × β), (dropKey k l).length ≤ l.length := by
    intro l
    cases l with
    | nil => exact Nat.le_refl _
    | cons p l =>
        rw [dropKey_cons]
        split
        · exact Nat.le_succ _
        · exact Nat.le_refl _
  have hsum : ∀ lists : List (List (κ × β)),
      ((lists.map (dropKey k)).map List.length).sum ≤ (lists.map List.length).sum := by
    intro lists
    induction lists with
    | nil => exact Nat.le_refl _
    | cons l rest ih =>
        simp only [List.map_cons, List.sum_cons]
        exact Nat.add_le_add (hle l) ih
  induction lists generalizing i with
  | nil => cases h
  | cons l' rest ih =>
      simp only [List.map_cons, List.sum_cons]
      cases i with
      | zero =>
          cases h
          have hrest := hsum rest
          simp only [dropKey, if_true, List.length_cons]
          omega
      | succ i => exact Nat.add_lt_add_of_le_of_lt (hle l') (ih h)

/-- **Merging by key.** -/
theorem mergeKeyed_spec (hless : ∀ a b, less a b = true ↔ a < b) (hd : Delivers head advance R)
    (fuel : Nat) {sources : List σ} {lists : List (List (κ × β))}
    (hR : List.Forall₂ R sources lists) (hsorted : ∀ l ∈ lists, KeysIncrease l)
    (hfuel : (lists.map List.length).sum < fuel) :
    ∃ out, mergeKeyed less head advance fuel sources = some out ∧ MergedKeys lists out := by
  induction fuel generalizing sources lists with
  | zero => omega
  | succ fuel ih =>
      unfold mergeKeyed
      -- the heads of the sources are the heads of the lists
      have hheads : (sources.map fun s => (head s).map Prod.fst) =
          lists.map fun l => l.head?.map Prod.fst := by
        clear ih hsorted hfuel
        induction hR with
        | nil => rfl
        | @cons s l _ _ hs _ ih =>
            rw [List.map_cons, List.map_cons, ih]
            cases l with
            | nil => rw [hd.head_nil s hs]; rfl
            | cons p l => rw [hd.head_cons s p l hs]; rfl
      rw [hheads]
      cases hmin : firstMin less (lists.map fun l => l.head?.map Prod.fst) with
      | none =>
          have hempty : ∀ l ∈ lists, l = [] := by
            intro l hl
            have := firstMin_eq_none hless hmin _ (List.mem_map_of_mem hl)
            simpa using this
          refine ⟨[], rfl, List.Pairwise.nil, ?_, fun k refs h => (nomatch h)⟩
          intro k
          constructor
          · rintro ⟨refs, h⟩
            cases h
          · rintro ⟨l, hl, b, hb⟩
            rw [hempty l hl] at hb
            cases hb
      | some r =>
          obtain ⟨i, k⟩ := r
          obtain ⟨hi, hle⟩ := firstMin_eq_some hless hmin
          rw [List.getElem?_map, Option.map_eq_some_iff] at hi
          obtain ⟨lmin, hlmin, hkmin⟩ := hi
          have hbound : ∀ l ∈ lists, ∀ p ∈ l, k ≤ p.1 := by
            intro l hl p hp
            cases l with
            | nil => cases hp
            | cons q l =>
                have hq : k ≤ q.1 := hle q.1 (List.mem_map.2 ⟨q :: l, hl, rfl⟩)
                rcases List.mem_cons.1 hp with rfl | hp
                · exact hq
                · exact hq.trans ((List.pairwise_cons.1 (hsorted _ hl)).1 p hp).le
          cases lmin with
          | nil => cases hkmin
          | cons q lmin =>
          obtain ⟨k', b⟩ := q
          have hkk : k' = k := by simpa using hkmin
          subst hkk
          have hmem : ((k', b) :: lmin) ∈ lists := List.mem_of_getElem? hlmin
          obtain ⟨sources', htake, hR'⟩ := takeKey_spec hd hR hsorted hbound 0
          have hsorted' : ∀ l ∈ lists.map (dropKey k'), KeysIncrease l := by
            intro l hl
            obtain ⟨l', hl', rfl⟩ := List.mem_map.1 hl
            exact (hsorted l' hl').dropKey k'
          have hdecr := sum_length_dropKey_lt hlmin
          obtain ⟨out, hout, hspec⟩ := ih hR' hsorted' (by omega)
          have hlater : ∀ p ∈ out, k' < p.1 := by
            intro p hp
            obtain ⟨l, hl, b', hb'⟩ := (hspec.mem_iff p.1).1 ⟨p.2, hp⟩
            obtain ⟨l', hl', rfl⟩ := List.mem_map.1 hl
            exact (hsorted l' hl').lt_of_mem_dropKey (hbound l' hl') hb'
          refine ⟨(k', refsOf k' 0 lists) :: out, ?_, ?_, ?_, ?_⟩
          · simp [htake, hout]
          · exact List.pairwise_cons.2 ⟨hlater, hspec.increase⟩
          · intro key
            constructor
            · rintro ⟨refs, hrefs⟩
              rcases List.mem_cons.1 hrefs with heq | hrefs
              · cases heq
                exact ⟨_, hmem, b, List.mem_cons_self⟩
              · obtain ⟨l, hl, b', hb'⟩ := (hspec.mem_iff key).1 ⟨refs, hrefs⟩
                obtain ⟨l', hl', rfl⟩ := List.mem_map.1 hl
                exact ⟨l', hl', b', mem_of_mem_dropKey hb'⟩
            · rintro ⟨l, hl, b', hb'⟩
              by_cases hkey : key = k'
              · rw [hkey]
                exact ⟨_, List.mem_cons_self⟩
              · obtain ⟨refs, hrefs⟩ := (hspec.mem_iff key).2
                  ⟨_, List.mem_map_of_mem hl, b', mem_dropKey_of_ne hb' hkey⟩
                exact ⟨refs, List.mem_cons_of_mem _ hrefs⟩
          · intro key refs hrefs
            rcases List.mem_cons.1 hrefs with heq | hrefs
            · cases heq
              rfl
            · rw [hspec.refs_eq key refs hrefs]
              exact refsOf_map_dropKey (hlater _ hrefs).ne' lists 0

end MergeKeyed

end PgTextsearch.Verified
