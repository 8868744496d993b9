import Mathlib.Tactic.Ring
import PgTextsearch.Segment.BlockWriter
import PgTextsearch.Verified.LittleEndian

/-!
# Block compression (`rust/src/compression.rs`, `segment/compression.c`)

A block of postings is stored as two bit widths, the document id deltas and the
frequencies packed with these widths, and the fieldnorms.  Packing goes through a bit
buffer, least significant bit first: read as numbers, the packed bytes are the digits to
base 256 of the number whose digits to base `2 ^ bits` are the values.

## Main results

* `byteValue_bitpackEncode`, `length_bitpackEncode` — what packing writes.
* `bitpackDecode_bitpackEncode` — unpacking reads the values back, whatever follows them.
* `decompressBlock_compressBlock` — the round trip of a block.
* `length_compressBlock_le` — a block fits the buffer it is read into.
-/

namespace PgTextsearch.Segment

open Nat (ofDigits)
open PgTextsearch.Verified

/-! ## The bit buffer -/

/-- The `mask` of both loops. -/
def bitMask (bits : Nat) : Nat :=
  if bits = 32 then 2 ^ 32 - 1 else (1 <<< bits) - 1

/-- The inner loop of `bitpack_encode`; each round takes eight bits, so that `bufBits`
rounds are enough.  Result: the bytes, and what stays in the buffer. -/
def drainBytes : Nat → Nat → Nat → List (Fin 256) × Nat × Nat
  | 0, buffer, bufBits => ([], buffer, bufBits)
  | fuel + 1, buffer, bufBits =>
      if 8 ≤ bufBits then
        let rest := drainBytes fuel (buffer >>> 8) (bufBits - 8)
        (Fin.ofNat 256 buffer :: rest.1, rest.2)
      else ([], buffer, bufBits)

/-- The outer loop of `bitpack_encode`.  The buffer never has more than 39 bits, so the
64 bits it has in the source do not overflow. -/
def packLoop (bits : Nat) : List Nat → Nat → Nat → List (Fin 256)
  | [], buffer, bufBits => if 0 < bufBits then [Fin.ofNat 256 buffer] else []
  | val :: rest, buffer, bufBits =>
      let filled := buffer ||| ((val &&& bitMask bits) <<< bufBits)
      let drained := drainBytes (bufBits + bits) filled (bufBits + bits)
      drained.1 ++ packLoop bits rest drained.2.1 drained.2.2

/-- `bitpack_encode`. -/
def bitpackEncode (values : List Nat) (bits : Nat) : List (Fin 256) :=
  packLoop bits values 0 0

/-- The inner loop of `bitpack_decode`; `none` is an index out of bounds. -/
def refillBuffer (bits : Nat) :
    List (Fin 256) → Nat → Nat → Option (List (Fin 256) × Nat × Nat)
  | [], buffer, bufBits => if bufBits < bits then none else some ([], buffer, bufBits)
  | b :: rest, buffer, bufBits =>
      if bufBits < bits then refillBuffer bits rest (buffer ||| (b.val <<< bufBits)) (bufBits + 8)
      else some (b :: rest, buffer, bufBits)

/-- The outer loop of `bitpack_decode`. -/
def unpackLoop (bits : Nat) : Nat → List (Fin 256) → Nat → Nat → Option (List Nat)
  | 0, _, _, _ => some []
  | count + 1, input, buffer, bufBits => do
      let filled ← refillBuffer bits input buffer bufBits
      let rest ← unpackLoop bits count filled.1 (filled.2.1 >>> bits) (filled.2.2 - bits)
      return ((filled.2.1 % 2 ^ 32) &&& bitMask bits) :: rest

/-- `bitpack_decode`. -/
def bitpackDecode (input : List (Fin 256)) (count bits : Nat) : Option (List Nat) :=
  unpackLoop bits count input 0 0

/-! ## Blocks -/

/-- The loop of `compute_bit_width`. -/
def bitWidthLoop : Nat → Nat → Nat → Nat
  | 0, bits, _ => bits
  | fuel + 1, bits, maxValue =>
      if bits < 32 ∧ 1 <<< bits ≤ maxValue then bitWidthLoop fuel (bits + 1) maxValue else bits

/-- `compute_bit_width`. -/
def computeBitWidth (maxValue : Nat) : Nat :=
  if maxValue = 0 then 1 else bitWidthLoop 32 1 maxValue

/-- The deltas `compress_block` takes; the subtraction is one of 32 bits. -/
def docDeltas : Nat → List BlockPosting → List Nat
  | _, [] => []
  | prevDoc, p :: rest => (p.docId + 2 ^ 32 - prevDoc) % 2 ^ 32 :: docDeltas p.docId rest

/-- The running maximum of `compress_block`. -/
def maxOf (values : List Nat) : Nat :=
  values.foldl (fun m v => if v > m then v else m) 0

/-- `compress_block`. -/
def compressBlock (postings : List BlockPosting) : List (Fin 256) :=
  if postings = [] then []
  else
    let deltas := docDeltas 0 postings
    let frequencies := postings.map BlockPosting.frequency
    let docIdBits := computeBitWidth (maxOf deltas)
    let freqBits := computeBitWidth (maxOf frequencies)
    [Fin.ofNat 256 docIdBits, Fin.ofNat 256 freqBits] ++ bitpackEncode deltas docIdBits ++
      bitpackEncode frequencies freqBits ++ postings.map BlockPosting.fieldnorm

/-- The last loop of `decompress_block`; `none` is an index out of bounds. -/
def rebuildPostings : Nat → List Nat → List Nat → List (Fin 256) → Option (List BlockPosting)
  | _, [], _, _ => some []
  | prevDoc, delta :: deltas, frequency :: frequencies, fieldnorm :: fieldnorms => do
      let docId := (prevDoc + delta) % 2 ^ 32
      let rest ← rebuildPostings docId deltas frequencies fieldnorms
      return ⟨docId, frequency % 2 ^ 16, fieldnorm⟩ :: rest
  | _, _, _, _ => none

/-- `decompress_block`. -/
def decompressBlock (compressed : List (Fin 256)) (count firstDocId : Nat) :
    Option (List BlockPosting) :=
  if count = 0 then some []
  else
    match compressed with
    | docIdBits :: freqBits :: packed => do
        let docIdBytes := (count * docIdBits.val + 7) / 8
        let freqBytes := (count * freqBits.val + 7) / 8
        let deltas ← bitpackDecode packed count docIdBits.val
        let frequencies ← bitpackDecode (packed.drop docIdBytes) count freqBits.val
        rebuildPostings firstDocId deltas frequencies (packed.drop (docIdBytes + freqBytes))
    | _ => none

/-! ## The bit buffer as a number -/

theorem bitMask_eq (bits : Nat) : bitMask bits = 2 ^ bits - 1 := by
  unfold bitMask
  split
  case isTrue heq => rw [heq]
  case isFalse => rw [Nat.shiftLeft_eq, one_mul]

theorem and_bitMask (bits n : Nat) : n &&& bitMask bits = n % 2 ^ bits := by
  rw [bitMask_eq, Nat.and_two_pow_sub_one_eq_mod]

/-- Putting bits above the used ones is an addition. -/
theorem or_shiftLeft {buffer bufBits : Nat} (h : buffer < 2 ^ bufBits) (n : Nat) :
    buffer ||| (n <<< bufBits) = buffer + 2 ^ bufBits * n := by
  rw [Nat.or_comm, ← Nat.shiftLeft_add_eq_or_of_lt h, Nat.shiftLeft_eq, Nat.mul_comm, Nat.add_comm]

/-- **Draining** moves whole bytes out of the buffer. -/
theorem drainBytes_spec (fuel : Nat) {buffer bufBits : Nat} (hfuel : bufBits ≤ fuel)
    (h : buffer < 2 ^ bufBits) :
    (drainBytes fuel buffer bufBits).2.2 < 8 ∧
      (drainBytes fuel buffer bufBits).2.1 < 2 ^ (drainBytes fuel buffer bufBits).2.2 ∧
      bufBits = 8 * (drainBytes fuel buffer bufBits).1.length +
        (drainBytes fuel buffer bufBits).2.2 ∧
      buffer = byteValue (drainBytes fuel buffer bufBits).1 +
        256 ^ (drainBytes fuel buffer bufBits).1.length *
          (drainBytes fuel buffer bufBits).2.1 := by
  induction fuel generalizing buffer bufBits with
  | zero =>
      have hzero : bufBits = 0 := by omega
      subst hzero
      simp only [drainBytes]
      exact ⟨by omega, h, by simp, by simp⟩
  | succ fuel ih =>
      unfold drainBytes
      by_cases hbits : 8 ≤ bufBits
      · have hpow : 2 ^ bufBits = 256 * 2 ^ (bufBits - 8) := by
          rw [show (256 : Nat) = 2 ^ 8 from rfl, ← Nat.pow_add]
          congr 1
          omega
        have hshift : buffer >>> 8 = buffer / 256 := Nat.shiftRight_eq_div_pow ..
        have hsmall : buffer >>> 8 < 2 ^ (bufBits - 8) := by
          rw [hshift]
          exact Nat.div_lt_of_lt_mul (hpow ▸ h)
        obtain ⟨hn, hb, hlen, hval⟩ := ih (by omega) hsmall
        simp only [hbits, if_true]
        refine ⟨hn, hb, ?_, ?_⟩
        · rw [List.length_cons]
          omega
        · rw [byteValue_cons, List.length_cons, Nat.pow_succ]
          have hdiv : buffer = buffer % 256 + 256 * (buffer >>> 8) := by
            rw [hshift]
            exact (Nat.mod_add_div buffer 256).symm
          calc buffer = buffer % 256 + 256 * (buffer >>> 8) := hdiv
            _ = buffer % 256 + 256 * (byteValue (drainBytes fuel (buffer >>> 8) (bufBits - 8)).1 +
                  256 ^ (drainBytes fuel (buffer >>> 8) (bufBits - 8)).1.length *
                    (drainBytes fuel (buffer >>> 8) (bufBits - 8)).2.1) := by rw [← hval]
            _ = _ := by
              simp only [Fin.ofNat]
              ring
      · simp only [hbits, if_false]
        exact ⟨by omega, h, by simp, by simp⟩

/-- Whole bytes and the bits after them. -/
private theorem two_pow_bytes (k n : Nat) : 2 ^ (8 * k + n) = 256 ^ k * 2 ^ n := by
  rw [Nat.pow_add, Nat.pow_mul]

/-! ## Packing -/

section Packing

variable {bits : Nat} {values : List Nat}

/-- **What the packing loop writes**, from any state of the buffer. -/
theorem packLoop_spec (hv : ∀ v ∈ values, v < 2 ^ bits) (buffer bufBits : Nat)
    (hbits : bufBits < 8) (hbuf : buffer < 2 ^ bufBits) :
    byteValue (packLoop bits values buffer bufBits) =
        buffer + 2 ^ bufBits * ofDigits (2 ^ bits) values ∧
      (packLoop bits values buffer bufBits).length =
        (bufBits + values.length * bits + 7) / 8 := by
  induction values generalizing buffer bufBits with
  | nil =>
      unfold packLoop
      have hsmall : buffer < 256 :=
        hbuf.trans_le (Nat.pow_le_pow_right (by omega) hbits.le)
      by_cases hpos : 0 < bufBits
      · rw [if_pos hpos]
        constructor
        · simp [Fin.ofNat, Nat.mod_eq_of_lt hsmall]
        · simp only [List.length_cons, List.length_nil, Nat.zero_mul]
          omega
      · have hzero : bufBits = 0 := by omega
        subst hzero
        constructor
        · have hzero : buffer = 0 := by simpa using hbuf
          simp [hzero]
        · simp
  | cons v rest ih =>
      have hval : v % 2 ^ bits = v := Nat.mod_eq_of_lt (hv v List.mem_cons_self)
      have hfill : buffer ||| ((v &&& bitMask bits) <<< bufBits) = buffer + 2 ^ bufBits * v := by
        rw [and_bitMask, hval, or_shiftLeft hbuf]
      have hlt : buffer + 2 ^ bufBits * v < 2 ^ (bufBits + bits) := by
        have hstep : 2 ^ bufBits * (v + 1) ≤ 2 ^ bufBits * 2 ^ bits :=
          Nat.mul_le_mul_left _ (hv v List.mem_cons_self)
        rw [Nat.pow_add]
        rw [Nat.mul_succ] at hstep
        omega
      have hspec := drainBytes_spec (bufBits + bits) le_rfl hlt
      simp only [packLoop, hfill]
      generalize drainBytes (bufBits + bits) (buffer + 2 ^ bufBits * v) (bufBits + bits) = d
        at hspec ⊢
      obtain ⟨bytes, left, n⟩ := d
      simp only at hspec
      obtain ⟨hn, hleft, hlen, hdrain⟩ := hspec
      obtain ⟨hvalue, hlength⟩ := ih (fun w hw => hv w (List.mem_cons_of_mem _ hw)) left n hn hleft
      constructor
      · rw [byteValue_append, hvalue, Nat.ofDigits_cons]
        have hpow : 2 ^ bufBits * 2 ^ bits = 256 ^ bytes.length * 2 ^ n := by
          rw [← Nat.pow_add, hlen, two_pow_bytes]
        calc byteValue bytes + 256 ^ bytes.length * (left + 2 ^ n * ofDigits (2 ^ bits) rest)
            = (byteValue bytes + 256 ^ bytes.length * left) +
                256 ^ bytes.length * 2 ^ n * ofDigits (2 ^ bits) rest := by ring
          _ = (buffer + 2 ^ bufBits * v) +
                2 ^ bufBits * 2 ^ bits * ofDigits (2 ^ bits) rest := by rw [← hdrain, ← hpow]
          _ = buffer + 2 ^ bufBits * (v + 2 ^ bits * ofDigits (2 ^ bits) rest) := by ring
      · show (bytes ++ packLoop bits rest left n).length = _
        rw [List.length_append, hlength, List.length_cons, Nat.succ_mul]
        omega

theorem byteValue_bitpackEncode (hv : ∀ v ∈ values, v < 2 ^ bits) :
    byteValue (bitpackEncode values bits) = ofDigits (2 ^ bits) values := by
  have h := (packLoop_spec hv 0 0 (by omega) (by simp)).1
  simpa [bitpackEncode] using h

theorem length_bitpackEncode (hv : ∀ v ∈ values, v < 2 ^ bits) :
    (bitpackEncode values bits).length = (values.length * bits + 7) / 8 := by
  have h := (packLoop_spec hv 0 0 (by omega) (by simp)).2
  simpa [bitpackEncode] using h

end Packing

/-! ## Unpacking -/

section Unpacking

variable {bits : Nat} {values : List Nat}

/-- **Refilling** moves bytes into the buffer: the number that buffer and input stand for
together stays, and the buffer has the bits that were asked for. -/
theorem refillBuffer_spec (bits : Nat) (input : List (Fin 256)) {buffer bufBits : Nat}
    (hbuf : buffer < 2 ^ bufBits) (henough : bits ≤ bufBits + 8 * input.length) :
    ∃ input' buffer' bufBits', refillBuffer bits input buffer bufBits =
        some (input', buffer', bufBits') ∧
      bits ≤ bufBits' ∧ buffer' < 2 ^ bufBits' ∧
      bufBits' + 8 * input'.length = bufBits + 8 * input.length ∧
      buffer' + 2 ^ bufBits' * byteValue input' = buffer + 2 ^ bufBits * byteValue input := by
  induction input generalizing buffer bufBits with
  | nil =>
      have hle : bits ≤ bufBits := by simpa using henough
      exact ⟨[], buffer, bufBits, by simp [refillBuffer, hle], hle, hbuf, rfl, rfl⟩
  | cons b rest ih =>
      unfold refillBuffer
      by_cases hlt : bufBits < bits
      · rw [if_pos hlt, or_shiftLeft hbuf]
        have hgrow : buffer + 2 ^ bufBits * b.val < 2 ^ (bufBits + 8) := by
          have hstep : 2 ^ bufBits * (b.val + 1) ≤ 2 ^ bufBits * 2 ^ 8 :=
            Nat.mul_le_mul_left _ b.isLt
          rw [Nat.pow_add]
          rw [Nat.mul_succ] at hstep
          omega
        rw [List.length_cons] at henough
        obtain ⟨input', buffer', bufBits', hrun, hbits, hbuf', hlen, hval⟩ :=
          ih hgrow (by omega)
        refine ⟨input', buffer', bufBits', hrun, hbits, hbuf', ?_, ?_⟩
        · rw [hlen, List.length_cons]
          omega
        · rw [hval, byteValue_cons, Nat.pow_add]
          ring
      · rw [if_neg hlt]
        exact ⟨b :: rest, buffer, bufBits, rfl, not_lt.1 hlt, hbuf, rfl, rfl⟩

/-- **What the unpacking loop reads**: the low digits of the number that buffer and input
stand for. -/
theorem unpackLoop_spec (hbits : bits ≤ 32) (hv : ∀ v ∈ values, v < 2 ^ bits)
    (high : Nat) (input : List (Fin 256)) {buffer bufBits : Nat} (hbuf : buffer < 2 ^ bufBits)
    (henough : values.length * bits ≤ bufBits + 8 * input.length)
    (hval : buffer + 2 ^ bufBits * byteValue input =
      ofDigits (2 ^ bits) values + (2 ^ bits) ^ values.length * high) :
    unpackLoop bits values.length input buffer bufBits = some values := by
  induction values generalizing input buffer bufBits with
  | nil => rfl
  | cons v rest ih =>
      rw [List.length_cons, Nat.succ_mul] at henough
      obtain ⟨input', buffer', bufBits', hrun, hle, hbuf', hlen, hval'⟩ :=
        refillBuffer_spec bits input hbuf (by omega)
      have hsplit : 2 ^ bufBits' = 2 ^ bits * 2 ^ (bufBits' - bits) := by
        rw [← Nat.pow_add, Nat.add_sub_cancel' hle]
      have hvlt : v < 2 ^ bits := hv v List.mem_cons_self
      -- the number, split at the first `bits` bits on both sides
      have hnum : buffer' % 2 ^ bits + 2 ^ bits * (buffer' / 2 ^ bits +
            2 ^ (bufBits' - bits) * byteValue input') =
          v + 2 ^ bits * (ofDigits (2 ^ bits) rest + (2 ^ bits) ^ rest.length * high) := by
        calc buffer' % 2 ^ bits + 2 ^ bits * (buffer' / 2 ^ bits +
              2 ^ (bufBits' - bits) * byteValue input')
            = (buffer' % 2 ^ bits + 2 ^ bits * (buffer' / 2 ^ bits)) +
                2 ^ bits * 2 ^ (bufBits' - bits) * byteValue input' := by ring
          _ = buffer' + 2 ^ bufBits' * byteValue input' := by
              rw [Nat.mod_add_div, ← hsplit]
          _ = ofDigits (2 ^ bits) (v :: rest) + (2 ^ bits) ^ (v :: rest).length * high := by
              rw [hval', hval]
          _ = v + 2 ^ bits * (ofDigits (2 ^ bits) rest + (2 ^ bits) ^ rest.length * high) := by
              rw [Nat.ofDigits_cons, List.length_cons, Nat.pow_succ]
              ring
      have hpos : 0 < 2 ^ bits := Nat.two_pow_pos bits
      have hlow : buffer' % 2 ^ bits = v := by
        have hmod := congrArg (· % 2 ^ bits) hnum
        simpa [Nat.add_mul_mod_self_left, Nat.mod_eq_of_lt hvlt] using hmod
      have hhigh : buffer' / 2 ^ bits + 2 ^ (bufBits' - bits) * byteValue input' =
          ofDigits (2 ^ bits) rest + (2 ^ bits) ^ rest.length * high := by
        rw [hlow] at hnum
        exact Nat.eq_of_mul_eq_mul_left hpos (Nat.add_left_cancel hnum)
      have hshift : buffer' >>> bits = buffer' / 2 ^ bits := Nat.shiftRight_eq_div_pow ..
      have hsmall : buffer' >>> bits < 2 ^ (bufBits' - bits) := by
        rw [hshift]
        exact Nat.div_lt_of_lt_mul (hsplit ▸ hbuf')
      have hrest : unpackLoop bits rest.length input' (buffer' >>> bits) (bufBits' - bits) =
          some rest :=
        ih (fun w hw => hv w (List.mem_cons_of_mem _ hw)) input' hsmall (by omega)
          (by rw [hshift]; exact hhigh)
      have hvalue : buffer' % 2 ^ 32 &&& bitMask bits = v := by
        rw [and_bitMask, Nat.mod_mod_of_dvd _ (Nat.pow_dvd_pow 2 hbits), hlow]
      rw [List.length_cons]
      simp only [unpackLoop, hrun, Option.bind_eq_bind, Option.bind_some, hrest, hvalue]
      rfl

/-- **Unpacking** reads the values back, whatever follows them. -/
theorem bitpackDecode_bitpackEncode (hbits : bits ≤ 32) (hv : ∀ v ∈ values, v < 2 ^ bits)
    (trailing : List (Fin 256)) :
    bitpackDecode (bitpackEncode values bits ++ trailing) values.length bits = some values := by
  have hlen := length_bitpackEncode hv
  refine unpackLoop_spec hbits hv
    (2 ^ (8 * (bitpackEncode values bits).length - values.length * bits) * byteValue trailing)
    _ (by simp) ?_ ?_
  · rw [List.length_append]
    omega
  · have hpow : 256 ^ (bitpackEncode values bits).length = (2 ^ bits) ^ values.length *
        2 ^ (8 * (bitpackEncode values bits).length - values.length * bits) := by
      have hbytes := two_pow_bytes (bitpackEncode values bits).length 0
      rw [Nat.pow_zero, Nat.mul_one, Nat.add_zero] at hbytes
      rw [← hbytes, ← Nat.pow_mul, ← Nat.pow_add]
      congr 1
      rw [Nat.mul_comm bits]
      omega
    rw [byteValue_append, byteValue_bitpackEncode hv, hpow]
    ring

end Unpacking

/-! ## Blocks -/

/-- **The loop of `compute_bit_width`** stops at a width that holds the value. -/
private theorem bitWidthLoop_spec (fuel : Nat) {bits maxValue k : Nat}
    (hfuel : 32 ≤ bits + fuel) (hbits : bits ≤ 32) (hmax : maxValue < 2 ^ 32)
    (hk : bits ≤ k) (hmaxk : maxValue < 2 ^ k) :
    bits ≤ bitWidthLoop fuel bits maxValue ∧ bitWidthLoop fuel bits maxValue ≤ min 32 k ∧
      maxValue < 2 ^ bitWidthLoop fuel bits maxValue := by
  induction fuel generalizing bits with
  | zero =>
      have h32 : bits = 32 := by omega
      exact ⟨le_rfl, le_min hbits hk, by rw [bitWidthLoop, h32]; exact hmax⟩
  | succ fuel ih =>
      unfold bitWidthLoop
      rw [Nat.shiftLeft_eq, one_mul]
      by_cases hgo : bits < 32 ∧ 2 ^ bits ≤ maxValue
      · rw [if_pos hgo]
        have hlt : bits < k := by
          by_contra hge
          have hpow : 2 ^ k ≤ 2 ^ bits := Nat.pow_le_pow_right (by omega) (not_lt.1 hge)
          omega
        obtain ⟨hle, hmin, hval⟩ := @ih (bits + 1) (by omega) hgo.1 hlt
        exact ⟨by omega, hmin, hval⟩
      · rw [if_neg hgo]
        refine ⟨le_rfl, le_min hbits hk, ?_⟩
        by_cases h32 : bits < 32
        · exact not_le.1 fun hle => hgo ⟨h32, hle⟩
        · have heq : bits = 32 := by omega
          rw [heq]
          exact hmax

/-- **The width chosen for a block** holds every value and is no larger than needed. -/
theorem computeBitWidth_spec {maxValue k : Nat} (hk : 1 ≤ k) (hk32 : k ≤ 32)
    (hmax : maxValue < 2 ^ k) :
    computeBitWidth maxValue ≤ k ∧ maxValue < 2 ^ computeBitWidth maxValue := by
  unfold computeBitWidth
  by_cases hzero : maxValue = 0
  · rw [if_pos hzero, hzero]
    exact ⟨hk, by norm_num⟩
  · rw [if_neg hzero]
    have hmax32 : maxValue < 2 ^ 32 := hmax.trans_le (Nat.pow_le_pow_right (by omega) hk32)
    obtain ⟨-, hmin, hval⟩ := bitWidthLoop_spec 32 (by omega) (by omega) hmax32 hk hmax
    exact ⟨hmin.trans (min_le_right _ _), hval⟩

private theorem maxOf_spec {values : List Nat} {k : Nat} (hk : 0 < k)
    (h : ∀ v ∈ values, v < k) : maxOf values < k ∧ ∀ v ∈ values, v ≤ maxOf values := by
  obtain ⟨-, hle, hatt⟩ := runningMax_spec id values 0
  refine ⟨?_, hle⟩
  rcases hatt with hzero | ⟨v, hv, heq⟩
  · exact (show maxOf values = 0 from hzero) ▸ hk
  · exact (show v = maxOf values from heq) ▸ h v hv

/-- The width a list of values is packed with. -/
theorem width_spec (values : List Nat) {k : Nat} (hk : 1 ≤ k) (hk32 : k ≤ 32)
    (h : ∀ v ∈ values, v < 2 ^ k) :
    computeBitWidth (maxOf values) ≤ k ∧
      ∀ v ∈ values, v < 2 ^ computeBitWidth (maxOf values) := by
  obtain ⟨hmax, hle⟩ := maxOf_spec (Nat.two_pow_pos k) h
  obtain ⟨hwidth, hfits⟩ := computeBitWidth_spec hk hk32 hmax
  exact ⟨hwidth, fun v hv => (hle v hv).trans_lt hfits⟩

theorem length_docDeltas (prevDoc : Nat) (ps : List BlockPosting) :
    (docDeltas prevDoc ps).length = ps.length := by
  induction ps generalizing prevDoc with
  | nil => rfl
  | cons p rest ih => simp [docDeltas, ih]

theorem docDeltas_lt (prevDoc : Nat) (ps : List BlockPosting) :
    ∀ v ∈ docDeltas prevDoc ps, v < 2 ^ 32 := by
  induction ps generalizing prevDoc with
  | nil => exact fun v hv => (nomatch hv)
  | cons p rest ih =>
      intro v hv
      rcases List.mem_cons.1 hv with rfl | hv
      · exact Nat.mod_lt _ (by norm_num)
      · exact ih _ v hv

/-- Adding up the deltas gives the document ids back, also where they decrease. -/
private theorem rebuildPostings_docDeltas {ps : List BlockPosting}
    (hid : ∀ p ∈ ps, p.docId < 2 ^ 32) (hfreq : ∀ p ∈ ps, p.frequency < 2 ^ 16)
    (prevDoc : Nat) (hprev : prevDoc < 2 ^ 32) (trailing : List (Fin 256)) :
    rebuildPostings prevDoc (docDeltas prevDoc ps) (ps.map BlockPosting.frequency)
      (ps.map BlockPosting.fieldnorm ++ trailing) = some ps := by
  induction ps generalizing prevDoc with
  | nil => rfl
  | cons p rest ih =>
      have hp := hid p List.mem_cons_self
      have hdoc : (prevDoc + (p.docId + 2 ^ 32 - prevDoc) % 2 ^ 32) % 2 ^ 32 = p.docId := by
        omega
      have hcut : p.frequency % 2 ^ 16 = p.frequency :=
        Nat.mod_eq_of_lt (hfreq p List.mem_cons_self)
      have hrest := ih (fun q hq => hid q (List.mem_cons_of_mem _ hq))
        (fun q hq => hfreq q (List.mem_cons_of_mem _ hq)) p.docId hp
      simp only [docDeltas, List.map_cons, List.cons_append, rebuildPostings, hdoc, hcut, hrest]
      rfl

section RoundTrip

variable {ps : List BlockPosting}

/-- `TP_MAX_COMPRESSED_BLOCK_SIZE`: the bytes a reader takes from a block's offset. -/
def tpMaxCompressedBlockSize : Nat := 898

/-- A full block fits the reader's buffer. -/
theorem length_compressBlock_le (hsize : ps.length ≤ tpBlockSize)
    (hfreq : ∀ p ∈ ps, p.frequency < 2 ^ 16) :
    (compressBlock ps).length ≤ tpMaxCompressedBlockSize := by
  unfold compressBlock
  split
  · exact Nat.zero_le _
  · obtain ⟨hdoc, hdocFits⟩ := width_spec _ (by omega) le_rfl (docDeltas_lt 0 ps)
    obtain ⟨hfr, hfrFits⟩ := width_spec (ps.map BlockPosting.frequency)
      (show 1 ≤ 16 by omega) (by omega) (by simpa using hfreq)
    simp only [List.length_append, List.length_cons, List.length_nil,
      length_bitpackEncode hdocFits, length_bitpackEncode hfrFits, List.length_map,
      length_docDeltas]
    have hmulDoc : ps.length * computeBitWidth (maxOf (docDeltas 0 ps)) ≤ 128 * 32 :=
      Nat.mul_le_mul hsize hdoc
    have hmulFreq : ps.length * computeBitWidth (maxOf (ps.map BlockPosting.frequency)) ≤
        128 * 16 := Nat.mul_le_mul hsize hfr
    unfold tpBlockSize at hsize
    unfold tpMaxCompressedBlockSize
    omega

/-- **The round trip of a block**, whatever bytes follow it. -/
theorem decompressBlock_compressBlock (hid : ∀ p ∈ ps, p.docId < 2 ^ 32)
    (hfreq : ∀ p ∈ ps, p.frequency < 2 ^ 16) (trailing : List (Fin 256)) :
    decompressBlock (compressBlock ps ++ trailing) ps.length 0 = some ps := by
  by_cases hne : ps = []
  · subst hne
    rfl
  · obtain ⟨hdoc, hdocFits⟩ := width_spec _ (by omega) le_rfl (docDeltas_lt 0 ps)
    obtain ⟨hfr, hfrFits⟩ := width_spec (ps.map BlockPosting.frequency)
      (show 1 ≤ 16 by omega) (by omega) (by simpa using hfreq)
    have hlen : ps.length ≠ 0 := by simpa using hne
    have hdocLen := length_bitpackEncode hdocFits
    have hfreqLen := length_bitpackEncode hfrFits
    rw [length_docDeltas] at hdocLen
    rw [List.length_map] at hfreqLen
    generalize hdw : computeBitWidth (maxOf (docDeltas 0 ps)) = docIdBits at *
    generalize hfw : computeBitWidth (maxOf (ps.map BlockPosting.frequency)) = freqBits at *
    have hdocByte : (Fin.ofNat 256 docIdBits).val = docIdBits :=
      Nat.mod_eq_of_lt (show docIdBits < 256 by omega)
    have hfreqByte : (Fin.ofNat 256 freqBits).val = freqBits :=
      Nat.mod_eq_of_lt (show freqBits < 256 by omega)
    have hdocs := bitpackDecode_bitpackEncode hdoc hdocFits
      (bitpackEncode (ps.map BlockPosting.frequency) freqBits ++
        (ps.map BlockPosting.fieldnorm ++ trailing))
    have hfreqs := bitpackDecode_bitpackEncode (by omega) hfrFits
      (ps.map BlockPosting.fieldnorm ++ trailing)
    rw [length_docDeltas] at hdocs
    rw [List.length_map] at hfreqs
    have hrebuild := rebuildPostings_docDeltas hid hfreq 0 (by norm_num) trailing
    simp only [compressBlock, if_neg hne, decompressBlock, if_neg hlen, hdw, hfw, List.cons_append,
      List.nil_append, List.append_assoc, hdocByte, hfreqByte, ← hdocLen, ← hfreqLen,
      ← List.drop_drop, List.drop_left, hdocs, hfreqs, Option.bind_eq_bind, Option.bind_some,
      hrebuild]

end RoundTrip

end PgTextsearch.Segment
