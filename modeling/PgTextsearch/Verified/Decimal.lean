import Mathlib.Data.Nat.Digits.Defs
import Mathlib.Tactic.Ring
import PgTextsearch.Verified.LittleEndian

/-!
# Decimal numerals in text

Numbers as C writes them with `%d` and reads them back with `atoi`, over lists of bytes.

## Main results

* `atoi_formatInt` — reading a numeral back, for all 32-bit numbers.
* `mem_formatInt` — the bytes of a numeral.
-/

namespace PgTextsearch.Verified.Decimal

/-- The digits of a number, last digit first; `n + 1` rounds are enough for `n`. -/
def digitsOf : Nat → Nat → List Nat
  | 0, _ => []
  | fuel + 1, n => n % 10 :: if n / 10 = 0 then [] else digitsOf fuel (n / 10)

/-- The character of a digit. -/
def digitByte (d : Nat) : Fin 256 := Fin.ofNat 256 (48 + d)

/-- `%u`. -/
def formatNat (n : Nat) : List (Fin 256) := (digitsOf (n + 1) n).reverse.map digitByte

/-- `%d`. -/
def formatInt (n : Int32) : List (Fin 256) :=
  if n.toInt < 0 then 45 :: formatNat n.toInt.natAbs else formatNat n.toInt.natAbs

/-- `isspace`. -/
def isSpace (b : Fin 256) : Bool := b = 32 || decide (9 ≤ b.val ∧ b.val ≤ 13)

/-- The digits at the front of a text, read from a start value. -/
def readDigits : Nat → List (Fin 256) → Nat
  | acc, [] => acc
  | acc, b :: rest =>
      if 48 ≤ b.val ∧ b.val ≤ 57 then readDigits (acc * 10 + (b.val - 48)) rest else acc

/-- `strtol` to base 10, on 64 bits. -/
def strtol (s : List (Fin 256)) : Int :=
  let value := match s.dropWhile isSpace with
    | [] => 0
    | b :: rest =>
        if b = 45 then -(readDigits 0 rest : Int)
        else if b = 43 then (readDigits 0 rest : Int)
        else (readDigits 0 (b :: rest) : Int)
  max (-2 ^ 63) (min (2 ^ 63 - 1) value)

/-- `atoi`. -/
def atoi (s : List (Fin 256)) : Int32 := Int32.ofInt (strtol s)

/-! ## Digits -/

theorem digitsOf_lt (fuel n : Nat) : ∀ d ∈ digitsOf fuel n, d < 10 := by
  induction fuel generalizing n with
  | zero => exact fun d hd => nomatch hd
  | succ fuel ih =>
      intro d hd
      cases List.mem_cons.1 hd with
      | inl heq => exact heq ▸ Nat.mod_lt n (by omega)
      | inr hrest =>
          split at hrest
          · exact nomatch hrest
          · exact ih (n / 10) d hrest

theorem ofDigits_digitsOf (fuel : Nat) {n : Nat} (hfuel : n < fuel) :
    Nat.ofDigits 10 (digitsOf fuel n) = n := by
  induction fuel generalizing n with
  | zero => omega
  | succ fuel ih =>
      rw [digitsOf, Nat.ofDigits_cons]
      split
      case isTrue hzero =>
        rw [Nat.ofDigits_nil]
        omega
      case isFalse hne =>
        rw [ih (show n / 10 < fuel by omega)]
        omega

theorem digitByte_val {d : Nat} (hd : d < 10) : (digitByte d).val = 48 + d :=
  Nat.mod_eq_of_lt (show 48 + d < 256 by omega)

/-- **Reading digits** adds them up. -/
theorem readDigits_digits (digits : List Nat) (hd : ∀ d ∈ digits, d < 10) (acc : Nat) :
    readDigits acc (digits.reverse.map digitByte) =
      acc * 10 ^ digits.length + Nat.ofDigits 10 digits := by
  have happend : ∀ (front : List Nat) (d acc : Nat), (∀ x ∈ front, x < 10) → d < 10 →
      readDigits acc (front.map digitByte ++ [digitByte d]) =
        readDigits acc (front.map digitByte) * 10 + d := by
    intro front d
    induction front with
    | nil =>
        intro acc _ hd
        simp only [List.map_nil, List.nil_append, readDigits, digitByte_val hd]
        rw [if_pos (by omega)]
        omega
    | cons x front ih =>
        intro acc hfront hd
        have hx := hfront x List.mem_cons_self
        simp only [List.map_cons, List.cons_append, readDigits, digitByte_val hx]
        rw [if_pos (by omega), if_pos (by omega)]
        exact ih _ (fun y hy => hfront y (List.mem_cons_of_mem _ hy)) hd
  induction digits with
  | nil => simp [readDigits]
  | cons d rest ih =>
      have hrest : ∀ x ∈ rest, x < 10 := fun x hx => hd x (List.mem_cons_of_mem _ hx)
      rw [List.reverse_cons, List.map_append, List.map_singleton,
        happend _ _ _ (fun x hx => hrest x (List.mem_reverse.1 hx)) (hd d List.mem_cons_self),
        ih hrest, Nat.ofDigits_cons, List.length_cons, Nat.pow_succ]
      ring

/-! ## Numerals -/

theorem readDigits_formatNat (n : Nat) : readDigits 0 (formatNat n) = n := by
  rw [formatNat, readDigits_digits _ (digitsOf_lt _ _), ofDigits_digitsOf _ (Nat.lt_succ_self n)]
  simp

/-- The bytes of an unsigned numeral are digits. -/
theorem mem_formatNat {n : Nat} {b : Fin 256} (hb : b ∈ formatNat n) :
    48 ≤ b.val ∧ b.val ≤ 57 := by
  obtain ⟨d, hd, rfl⟩ := List.mem_map.1 hb
  have hlt := digitsOf_lt _ _ d (List.mem_reverse.1 hd)
  rw [digitByte_val hlt]
  omega

theorem formatNat_ne_nil (n : Nat) : formatNat n ≠ [] := by
  simp [formatNat, digitsOf]

/-- The bytes of a numeral are digits or the minus sign. -/
theorem mem_formatInt {n : Int32} {b : Fin 256} (hb : b ∈ formatInt n) :
    b = 45 ∨ 48 ≤ b.val ∧ b.val ≤ 57 := by
  unfold formatInt at hb
  split at hb
  · cases List.mem_cons.1 hb with
    | inl heq => exact Or.inl heq
    | inr hrest => exact Or.inr (mem_formatNat hrest)
  · exact Or.inr (mem_formatNat hb)

private theorem dropWhile_digit {b : Fin 256} (hb : 48 ≤ b.val ∧ b.val ≤ 57)
    (rest : List (Fin 256)) : (b :: rest).dropWhile isSpace = b :: rest := by
  have hspace : isSpace b = false := by
    have hne : b ≠ 32 := fun h => by subst h; exact absurd hb.1 (by decide)
    simp only [isSpace, decide_eq_false hne, Bool.false_or, decide_eq_false_iff_not]
    omega
  rw [List.dropWhile_cons, hspace]
  rfl

/-- **Reading a numeral back.** -/
theorem atoi_formatInt (n : Int32) : atoi (formatInt n) = n := by
  have hlow := n.le_toInt
  have hhigh := n.toInt_lt
  have hvalue : strtol (formatInt n) = n.toInt := by
    unfold strtol formatInt
    by_cases hneg : n.toInt < 0
    · rw [if_pos hneg]
      have hminus : (45 :: formatNat n.toInt.natAbs).dropWhile isSpace =
          45 :: formatNat n.toInt.natAbs := rfl
      rw [hminus]
      simp only [if_true, readDigits_formatNat]
      omega
    · rw [if_neg hneg]
      cases hnum : formatNat n.toInt.natAbs with
      | nil => exact absurd hnum (formatNat_ne_nil _)
      | cons b rest =>
          have hb := mem_formatNat (hnum ▸ List.mem_cons_self : b ∈ formatNat n.toInt.natAbs)
          rw [dropWhile_digit hb]
          have hminus : b ≠ 45 := fun h => by subst h; exact absurd hb.1 (by decide)
          have hplus : b ≠ 43 := fun h => by subst h; exact absurd hb.1 (by decide)
          simp only [if_neg hminus, if_neg hplus, ← hnum, readDigits_formatNat]
          omega
  rw [atoi, hvalue, Int32.ofInt_toInt]

end PgTextsearch.Verified.Decimal
