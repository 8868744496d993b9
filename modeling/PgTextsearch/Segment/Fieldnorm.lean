import Mathlib.Data.Fin.Basic
import Mathlib.Data.List.GetD
import Mathlib.Data.List.Pairwise
import Mathlib.Logic.Function.Iterate
import Mathlib.Order.Bounds.Defs
import Mathlib.Order.Fin.Basic
import PgTextsearch.Verified.LittleEndian

/-!
# Document length quantisation (`rust/src/fieldnorm.rs`)

Document lengths are stored in one byte.  `decodeFieldnorm` reads the
precomputed 256-entry table; `encodeFieldnorm` is the binary search for the
largest index whose table entry does not exceed the length.

## Main results

* `le_encodeFieldnorm_iff` — decoding and encoding form a Galois connection.
* `fieldnorm_quantisation` — encoding finds the largest index, is monotone, and
  leaves stored bytes as they are, however often they are re-encoded.
-/

namespace PgTextsearch.Segment

/-- `FIELDNORM_DECODE_TABLE`. -/
def fieldnormDecodeTable : List Nat :=
  [ 0, 1, 2, 3, 4, 5, 6, 7, 8, 9, 10, 11, 12, 13, 14, 15,
    16, 17, 18, 19, 20, 21, 22, 23, 24, 25, 26, 27, 28, 29, 30, 31,
    32, 33, 34, 35, 36, 37, 38, 39,
    40, 42, 44, 46, 48, 50, 52, 54,
    56, 60, 64, 68, 72, 76, 80, 84,
    88, 96, 104, 112, 120, 128, 136, 144,
    152, 168, 184, 200, 216, 232, 248, 264,
    280, 312, 344, 376, 408, 440, 472, 504,
    536, 600, 664, 728, 792, 856, 920, 984,
    1048, 1176, 1304, 1432, 1560, 1688, 1816, 1944,
    2072, 2328, 2584, 2840, 3096, 3352, 3608, 3864,
    4120, 4632, 5144, 5656, 6168, 6680, 7192, 7704,
    8216, 9240, 10264, 11288, 12312, 13336, 14360, 15384,
    16408, 18456, 20504, 22552, 24600, 26648, 28696, 30744,
    32792, 36888, 40984, 45080, 49176, 53272, 57368, 61464,
    65560, 73752, 81944, 90136, 98328, 106520, 114712, 122904,
    131096, 147480, 163864, 180248, 196632, 213016, 229400, 245784,
    262168, 294936, 327704, 360472, 393240, 426008, 458776, 491544,
    524312, 589848, 655384, 720920, 786456, 851992, 917528, 983064,
    1048600, 1179672, 1310744, 1441816, 1572888, 1703960, 1835032, 1966104,
    2097176, 2359320, 2621464, 2883608, 3145752, 3407896, 3670040, 3932184,
    4194328, 4718616, 5242904, 5767192, 6291480, 6815768, 7340056, 7864344,
    8388632, 9437208, 10485784, 11534360, 12582936, 13631512, 14680088, 15728664,
    16777240, 18874392, 20971544, 23068696, 25165848, 27263000, 29360152, 31457304,
    33554456, 37748760, 41943064, 46137368, 50331672, 54525976, 58720280, 62914584,
    67108888, 75497496, 83886104, 92274712, 100663320, 109051928, 117440536, 125829144,
    134217752, 150994968, 167772184, 184549400, 201326616, 218103832, 234881048, 251658264,
    268435480, 301989912, 335544344, 369098776, 402653208, 436207640, 469762072, 503316504,
    536870936, 603979800, 671088664, 738197528, 805306392, 872415256, 939524120, 1006632984,
    1073741848, 1207959576, 1342177304, 1476395032, 1610612760, 1744830488, 1879048216,
    2013265944 ]

/-- `decode_fieldnorm`: the approximate document length of a stored byte. -/
def decodeFieldnorm (normId : Fin 256) : Nat :=
  fieldnormDecodeTable.getD normId.val 0

/-- The `while lo < hi` loop of `encode_fieldnorm`; `hi - lo` at least halves,
so `fuel = hi - lo` never runs out. -/
def encodeFieldnormLoop (length : Nat) : Nat → Nat → Nat → Nat
  | 0, lo, _ => lo
  | fuel + 1, lo, hi =>
      if lo < hi then
        let mid := lo + (hi - lo + 1) / 2
        if fieldnormDecodeTable.getD mid 0 ≤ length then
          encodeFieldnormLoop length fuel mid hi
        else encodeFieldnormLoop length fuel lo (mid - 1)
      else lo

/-- `encode_fieldnorm`. -/
def encodeFieldnorm (length : Nat) : Fin 256 :=
  Fin.ofNat 256 (encodeFieldnormLoop length 255 0 255)

/-- The table is non-decreasing. -/
theorem fieldnormDecodeTable_sorted : fieldnormDecodeTable.Pairwise (· ≤ ·) := by
  apply List.isChain_iff_pairwise.1
  decide +kernel

theorem length_fieldnormDecodeTable : fieldnormDecodeTable.length = 256 := by
  decide +kernel

/-- Re-encoding a stored byte gives the byte back. -/
theorem encodeFieldnorm_decodeFieldnorm (normId : Fin 256) :
    encodeFieldnorm (decodeFieldnorm normId) = normId := by
  revert normId
  decide +kernel

/-- Later table entries are not smaller. -/
theorem getD_fieldnormDecodeTable_mono {m n : Nat} (h : m ≤ n)
    (hn : n < fieldnormDecodeTable.length) :
    fieldnormDecodeTable.getD m 0 ≤ fieldnormDecodeTable.getD n 0 := by
  rcases Nat.eq_or_lt_of_le h with heq | hlt
  · rw [heq]
  · have hm : m < fieldnormDecodeTable.length := hlt.trans hn
    rw [List.getD_eq_getElem _ _ hm, List.getD_eq_getElem _ _ hn]
    exact List.pairwise_iff_getElem.1 fieldnormDecodeTable_sorted _ _ hm hn hlt

/-- Decoding is monotone. -/
theorem decodeFieldnorm_mono {m n : Fin 256} (h : m ≤ n) :
    decodeFieldnorm m ≤ decodeFieldnorm n := by
  refine getD_fieldnormDecodeTable_mono h ?_
  rw [length_fieldnormDecodeTable]
  exact n.isLt

/-- The search only ever keeps an index whose table entry does not exceed the length. -/
theorem encodeFieldnormLoop_le (length fuel lo hi : Nat)
    (h : fieldnormDecodeTable.getD lo 0 ≤ length) :
    fieldnormDecodeTable.getD (encodeFieldnormLoop length fuel lo hi) 0 ≤ length := by
  induction fuel generalizing lo hi with
  | zero => exact h
  | succ fuel ih =>
      simp only [encodeFieldnormLoop]
      split
      · split
        · rename_i hmid
          exact ih _ _ hmid
        · exact ih _ _ h
      · exact h

/-- The search stays within its bounds. -/
theorem encodeFieldnormLoop_bound (length fuel lo hi : Nat) (h : lo ≤ hi) :
    encodeFieldnormLoop length fuel lo hi ≤ hi := by
  induction fuel generalizing lo hi with
  | zero => exact h
  | succ fuel ih =>
      simp only [encodeFieldnormLoop]
      split
      · split
        · exact ih _ _ (by omega)
        · exact (ih _ _ (by omega)).trans (by omega)
      · exact h

/-- The search never goes back. -/
theorem encodeFieldnormLoop_ge (length fuel lo hi : Nat) :
    lo ≤ encodeFieldnormLoop length fuel lo hi := by
  induction fuel generalizing lo hi with
  | zero => exact Nat.le_refl lo
  | succ fuel ih =>
      simp only [encodeFieldnormLoop]
      split
      · split
        · exact (Nat.le_add_right _ _).trans (ih _ _)
        · exact ih _ _
      · exact Nat.le_refl lo

/-- The search stays below an index only when the table entry there exceeds the length. -/
theorem lt_of_encodeFieldnormLoop_lt (length fuel lo hi : Nat) (hfuel : hi - lo ≤ fuel)
    (hhi : hi < fieldnormDecodeTable.length) {i : Nat} (hle : i ≤ hi)
    (h : encodeFieldnormLoop length fuel lo hi < i) : length < fieldnormDecodeTable.getD i 0 := by
  induction fuel generalizing lo hi with
  | zero =>
      have hlt : lo < i := h
      omega
  | succ fuel ih =>
      have hlo : lo < hi := by
        have hge := encodeFieldnormLoop_ge length (fuel + 1) lo hi
        omega
      simp only [encodeFieldnormLoop, if_pos hlo] at h
      split at h
      case isTrue => exact ih _ hi (by omega) hhi hle h
      case isFalse hgt =>
        have hexceeds := Nat.not_le.1 hgt
        by_cases hbelow : i ≤ lo + (hi - lo + 1) / 2 - 1
        · exact ih lo _ (by omega) (by omega) hbelow h
        · -- everything from the middle on exceeds the length
          have hmono := getD_fieldnormDecodeTable_mono
            (show lo + (hi - lo + 1) / 2 ≤ i by omega) (by omega)
          exact lt_of_lt_of_le hexceeds hmono

/-- Quantising rounds down. -/
theorem decodeFieldnorm_encodeFieldnorm_le (length : Nat) :
    decodeFieldnorm (encodeFieldnorm length) ≤ length := by
  have hbound := encodeFieldnormLoop_bound length 255 0 255 (by omega)
  have hle := encodeFieldnormLoop_le length 255 0 255 (Nat.zero_le length)
  rw [decodeFieldnorm, encodeFieldnorm, Fin.val_ofNat, Nat.mod_eq_of_lt (by omega)]
  exact hle

/-- **Galois connection**: a stored byte is at most the code of a length exactly when it
decodes to at most that length. -/
theorem le_encodeFieldnorm_iff (normId : Fin 256) (length : Nat) :
    normId ≤ encodeFieldnorm length ↔ decodeFieldnorm normId ≤ length := by
  constructor
  · intro hle
    exact (decodeFieldnorm_mono hle).trans (decodeFieldnorm_encodeFieldnorm_le length)
  · intro hle
    by_contra hlt
    have hbound := encodeFieldnormLoop_bound length 255 0 255 (by omega)
    have hcode : encodeFieldnormLoop length 255 0 255 < normId.val := by
      have hval := Fin.lt_def.1 (not_le.1 hlt)
      rwa [encodeFieldnorm, Fin.val_ofNat, Nat.mod_eq_of_lt (by omega)] at hval
    have hpassed := lt_of_encodeFieldnormLoop_lt length 255 0 255 (by omega)
      (by rw [length_fieldnormDecodeTable]; omega) (show normId.val ≤ 255 by omega) hcode
    exact not_lt.2 hle hpassed

theorem encodeFieldnorm_mono {m n : Nat} (h : m ≤ n) : encodeFieldnorm m ≤ encodeFieldnorm n :=
  (le_encodeFieldnorm_iff _ n).2 ((decodeFieldnorm_encodeFieldnorm_le m).trans h)

/-- **Quantisation**: the code of a length is the largest byte that decodes to at most that
length; encoding is monotone and rounds down, and a stored byte survives any number of
re-encodings. -/
theorem fieldnorm_quantisation :
    (∀ length, IsGreatest {normId | decodeFieldnorm normId ≤ length} (encodeFieldnorm length)) ∧
      Monotone encodeFieldnorm ∧
      (∀ length, decodeFieldnorm (encodeFieldnorm length) ≤ length) ∧
      (∀ normId, encodeFieldnorm (decodeFieldnorm normId) = normId) ∧
      ∀ merges normId, (fun i => encodeFieldnorm (decodeFieldnorm i))^[merges] normId = normId := by
  refine ⟨fun length => ⟨decodeFieldnorm_encodeFieldnorm_le length, ?_⟩,
    fun m n h => encodeFieldnorm_mono h, decodeFieldnorm_encodeFieldnorm_le,
    encodeFieldnorm_decodeFieldnorm, ?_⟩
  · intro normId hle
    exact (le_encodeFieldnorm_iff normId length).2 hle
  · intro merges normId
    induction merges with
    | zero => rfl
    | succ merges ih =>
        rw [Function.iterate_succ_apply, encodeFieldnorm_decodeFieldnorm, ih]

end PgTextsearch.Segment
