import Mathlib.Data.Nat.Digits.Defs

/-!
# Numbers and structs in bytes

Little-endian numbers of a fixed width, structs as the sequence of their fields, and
arrays of records of one size.

## Main results

* `byteValue_leBytes` — a number read back is cut to its width.
* `unpackStruct_packStruct` — the fields of a struct read back.
* `chunks_flatten` — the records of an array read back.
-/

namespace PgTextsearch.Verified

open Nat (ofDigits)

/-! ## Numbers -/

/-- Bytes have a zero, so numerals are bytes. -/
instance neZeroByteSize : NeZero 256 := ⟨by decide⟩

/-- Bytes as digits. -/
def byteDigits (bytes : List (Fin 256)) : List Nat := bytes.map Fin.val

/-- The number the bytes stand for. -/
def byteValue (bytes : List (Fin 256)) : Nat := ofDigits 256 (byteDigits bytes)

/-- The number in `width` bytes, lowest byte first. -/
def leBytes : Nat → Nat → List (Fin 256)
  | 0, _ => []
  | width + 1, n => Fin.ofNat 256 n :: leBytes width (n / 256)

@[simp] theorem byteValue_nil : byteValue [] = 0 := rfl

@[simp] theorem byteValue_cons (b : Fin 256) (rest : List (Fin 256)) :
    byteValue (b :: rest) = b.val + 256 * byteValue rest :=
  Nat.ofDigits_cons ..

theorem byteValue_append (xs ys : List (Fin 256)) :
    byteValue (xs ++ ys) = byteValue xs + 256 ^ xs.length * byteValue ys := by
  rw [byteValue, byteDigits, List.map_append, Nat.ofDigits_append, List.length_map]
  rfl

@[simp] theorem length_leBytes (width n : Nat) : (leBytes width n).length = width := by
  induction width generalizing n with
  | zero => rfl
  | succ width ih => rw [leBytes, List.length_cons, ih]

/-- **Reading a number back** cuts it to its width. -/
theorem byteValue_leBytes (width n : Nat) : byteValue (leBytes width n) = n % 256 ^ width := by
  induction width generalizing n with
  | zero =>
      show 0 = n % 1
      omega
  | succ width ih =>
      rw [leBytes, byteValue_cons, ih, Nat.pow_succ, Nat.mul_comm _ 256, Nat.mod_mul]
      rfl

/-- Only the part of a number that fits is written. -/
theorem leBytes_mod (width n : Nat) : leBytes width (n % 256 ^ width) = leBytes width n := by
  induction width generalizing n with
  | zero => rfl
  | succ width ih =>
      have hrest : n % 256 ^ (width + 1) / 256 = n / 256 % 256 ^ width := by
        rw [Nat.pow_succ, Nat.mul_comm, Nat.mod_mul_right_div_self]
      have hfirst : n % 256 ^ (width + 1) % 256 = n % 256 := by
        rw [Nat.pow_succ, Nat.mul_comm, Nat.mod_mul_right_mod]
      rw [leBytes, leBytes, hrest, ih]
      exact congrArg (· :: leBytes width (n / 256)) (Fin.ext hfirst)

/-! ## Structs -/

/-- The fields one after the other, with their widths. -/
def packStruct : List Nat → List Nat → List (Fin 256)
  | width :: widths, value :: values => leBytes width value ++ packStruct widths values
  | _, _ => []

/-- The fields of the struct the bytes begin with. -/
def unpackStruct : List Nat → List (Fin 256) → List Nat
  | [], _ => []
  | width :: widths, bytes =>
      byteValue (bytes.take width) :: unpackStruct widths (bytes.drop width)

theorem length_packStruct {widths values : List Nat} (h : widths.length = values.length) :
    (packStruct widths values).length = widths.sum := by
  induction widths generalizing values with
  | nil => rfl
  | cons width widths ih =>
      cases values with
      | nil => cases h
      | cons value values =>
          rw [packStruct, List.length_append, length_leBytes, ih (Nat.succ.inj h), List.sum_cons]

/-- **Reading a struct back** cuts its fields to their widths. -/
theorem unpackStruct_packStruct {widths values : List Nat} (h : widths.length = values.length)
    (rest : List (Fin 256)) :
    unpackStruct widths (packStruct widths values ++ rest) =
      List.zipWith (fun width value => value % 256 ^ width) widths values := by
  induction widths generalizing values with
  | nil => rfl
  | cons width widths ih =>
      cases values with
      | nil => cases h
      | cons value values =>
          have hlen := length_leBytes width value
          rw [packStruct, unpackStruct, List.append_assoc, List.take_left' hlen,
            List.drop_left' hlen, byteValue_leBytes, ih (Nat.succ.inj h), List.zipWith_cons_cons]

/-! ## Arrays -/

/-- The first `count` records of `width` elements each. -/
def chunks {β : Type} (width : Nat) : Nat → List β → List (List β)
  | 0, _ => []
  | count + 1, l => l.take width :: chunks width count (l.drop width)

/-- **Reading an array back.** -/
theorem chunks_flatten {β : Type} {width : Nat} {records : List (List β)}
    (h : ∀ r ∈ records, r.length = width) (rest : List β) :
    chunks width records.length (records.flatten ++ rest) = records := by
  induction records with
  | nil => rfl
  | cons r records ih =>
      have hr := h r List.mem_cons_self
      rw [List.length_cons, chunks, List.flatten_cons, List.append_assoc, List.take_left' hr,
        List.drop_left' hr, ih fun q hq => h q (List.mem_cons_of_mem _ hq)]

end PgTextsearch.Verified
