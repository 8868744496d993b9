import Mathlib.Data.List.Nodup
import Mathlib.Data.List.Pairwise

/-!
# Records with distinct keys

A list of records whose keys do not repeat is a finite map: looking for a key finds the
one record that has it, and selecting by a key leaves that record alone.

## Main results

* `find?_eq_some`, `filter_eq_singleton` — the record of a key.
* `find?_eq_some_of_sorted` — the same for records sorted by a numeric key.
-/

namespace PgTextsearch.Verified.DistinctKeys

variable {α β : Type} [DecidableEq β] {key : α → β} {l : List α} {a : α}

/-- Looking for the key of a record finds the record. -/
theorem find?_eq_some (hnodup : (l.map key).Nodup) (ha : a ∈ l) {k : β} (hk : key a = k) :
    l.find? (fun x => key x = k) = some a := by
  subst hk
  induction l with
  | nil => simp at ha
  | cons x l ih =>
      rw [List.map_cons, List.nodup_cons] at hnodup
      cases List.mem_cons.1 ha with
      | inl hhead =>
          subst hhead
          simp
      | inr htail =>
          have hne : key x ≠ key a := by
            intro heq
            exact hnodup.1 (heq ▸ List.mem_map_of_mem htail)
          rw [List.find?_cons_of_neg (by simpa using hne)]
          exact ih hnodup.2 htail

/-- Selecting the records of a key leaves the one record that has it. -/
theorem filter_eq_singleton (hnodup : (l.map key).Nodup) (ha : a ∈ l) {k : β} (hk : key a = k) :
    l.filter (fun x => key x = k) = [a] := by
  subst hk
  induction l with
  | nil => simp at ha
  | cons x l ih =>
      rw [List.map_cons, List.nodup_cons] at hnodup
      cases List.mem_cons.1 ha with
      | inl hhead =>
          subst hhead
          have hrest : l.filter (fun x => key x = key a) = [] := by
            rw [List.filter_eq_nil_iff]
            intro y hy heq
            have hkey : key y = key a := by simpa using heq
            exact hnodup.1 (hkey ▸ List.mem_map_of_mem hy)
          simp [hrest]
      | inr htail =>
          have hne : key x ≠ key a := by
            intro heq
            exact hnodup.1 (heq ▸ List.mem_map_of_mem htail)
          rw [List.filter_cons_of_neg (by simpa using hne)]
          exact ih hnodup.2 htail

/-- Records sorted by a numeric key have distinct keys. -/
theorem find?_eq_some_of_sorted {key : α → Nat} (hsorted : l.Pairwise fun x y => key x < key y)
    (ha : a ∈ l) {k : Nat} (hk : key a = k) : l.find? (fun x => key x = k) = some a := by
  apply find?_eq_some _ ha hk
  rw [List.nodup_iff_pairwise_ne, List.pairwise_map]
  exact hsorted.imp fun h => Nat.ne_of_lt h

end PgTextsearch.Verified.DistinctKeys
