import PgTextsearch.Segment.Compression

/-!
# The block codec with every check (`rust/src/compression.rs`)

The codec as Rust runs it with overflow checks: a shift by the width of its operand or
more, an index out of bounds, a subtraction below zero, an addition past 32 bits and a
failed assertion end the run (`none`), and the bit buffer has 64 bits.  On blocks of
postings in document order no check ever fails, so that the run is that of the plain codec.

## Main results

* `packChecked_eq`, `unpackChecked_eq` — the two bit streams with and without checks.
* `blockCodec_round_trip` — compressing a block and reading it back from what follows.
-/

namespace PgTextsearch.Segment

open PgTextsearch.Verified

/-! ## Checked steps -/

/-- `value << bits` on 64 bits. -/
def shiftLeft64 (value bits : Nat) : Option Nat :=
  if bits < 64 then some ((value <<< bits) % 2 ^ 64) else none

/-- `value >> bits` on 64 bits. -/
def shiftRight64 (value bits : Nat) : Option Nat :=
  if bits < 64 then some (value >>> bits) else none

/-- The mask of both loops. -/
def maskChecked (bits : Nat) : Option Nat :=
  if bits = 32 then some (2 ^ 32 - 1)
  else if bits < 32 then some ((1 <<< bits) - 1)
  else none

/-- The inner loop of `bitpack_encode`, with `room` bytes left in the output. -/
def drainChecked : Nat → Nat → Nat → Nat → Option (List (Fin 256) × Nat × Nat)
  | 0, _, buffer, bufBits => some ([], buffer, bufBits)
  | fuel + 1, room, buffer, bufBits =>
      if 8 ≤ bufBits then
        if room = 0 then none
        else do
          let shifted ← shiftRight64 buffer 8
          let rest ← drainChecked fuel (room - 1) shifted (bufBits - 8)
          return (Fin.ofNat 256 buffer :: rest.1, rest.2)
      else some ([], buffer, bufBits)

/-- The outer loop of `bitpack_encode`. -/
def packChecked (bits : Nat) : List Nat → Nat → Nat → Nat → Option (List (Fin 256))
  | [], room, buffer, bufBits =>
      if 0 < bufBits then if room = 0 then none else some [Fin.ofNat 256 buffer] else some []
  | val :: rest, room, buffer, bufBits => do
      let mask ← maskChecked bits
      let shifted ← shiftLeft64 (val &&& mask) bufBits
      let drained ← drainChecked (bufBits + bits) room (buffer ||| shifted) (bufBits + bits)
      let packed ← packChecked bits rest (room - drained.1.length) drained.2.1 drained.2.2
      return drained.1 ++ packed

/-- The inner loop of `bitpack_decode`. -/
def refillChecked (bits : Nat) :
    List (Fin 256) → Nat → Nat → Option (List (Fin 256) × Nat × Nat)
  | [], buffer, bufBits => if bufBits < bits then none else some ([], buffer, bufBits)
  | b :: rest, buffer, bufBits =>
      if bufBits < bits then do
        let shifted ← shiftLeft64 b.val bufBits
        refillChecked bits rest (buffer ||| shifted) (bufBits + 8)
      else some (b :: rest, buffer, bufBits)

/-- The outer loop of `bitpack_decode`. -/
def unpackChecked (bits : Nat) : Nat → List (Fin 256) → Nat → Nat → Option (List Nat)
  | 0, _, _, _ => some []
  | count + 1, input, buffer, bufBits => do
      let filled ← refillChecked bits input buffer bufBits
      let mask ← maskChecked bits
      let shifted ← shiftRight64 filled.2.1 bits
      let rest ← unpackChecked bits count filled.1 shifted (filled.2.2 - bits)
      return ((filled.2.1 % 2 ^ 32) &&& mask) :: rest

/-- The loop of `compute_bit_width`; the shift is one of 32 bits. -/
def bitWidthChecked : Nat → Nat → Nat → Option Nat
  | 0, bits, _ => some bits
  | fuel + 1, bits, maxValue =>
      if bits < 32 then
        if (1 <<< bits) % 2 ^ 32 ≤ maxValue then bitWidthChecked fuel (bits + 1) maxValue
        else some bits
      else some bits

/-- `compute_bit_width`. -/
def computeBitWidthChecked (maxValue : Nat) : Option Nat :=
  if maxValue = 0 then some 1 else bitWidthChecked 32 1 maxValue

/-- The deltas of `compress_block`, with the checked subtraction. -/
def deltasChecked : Nat → List BlockPosting → Option (List Nat)
  | _, [] => some []
  | prevDoc, p :: rest =>
      if prevDoc ≤ p.docId then do
        let deltas ← deltasChecked p.docId rest
        return (p.docId - prevDoc) :: deltas
      else none

/-- `compress_block` into a buffer of `room` bytes. -/
def compressBlockChecked (postings : List BlockPosting) (room : Nat) :
    Option (List (Fin 256)) :=
  if tpBlockSize < postings.length then none
  else if postings = [] then some []
  else do
    let deltas ← deltasChecked 0 postings
    let docIdBits ← computeBitWidthChecked (maxOf deltas)
    let freqBits ← computeBitWidthChecked (maxOf (postings.map BlockPosting.frequency))
    if room < 2 then none
    else do
      let docs ← packChecked docIdBits deltas (room - 2) 0 0
      let freqs ← packChecked freqBits (postings.map BlockPosting.frequency)
        (room - 2 - docs.length) 0 0
      if room - 2 - docs.length - freqs.length < postings.length then none
      else
        return [Fin.ofNat 256 docIdBits, Fin.ofNat 256 freqBits] ++ docs ++ freqs ++
          postings.map BlockPosting.fieldnorm

/-- The last loop of `decompress_block`, with the checked addition. -/
def rebuildChecked : Nat → List Nat → List Nat → List (Fin 256) → Option (List BlockPosting)
  | _, [], _, _ => some []
  | prevDoc, delta :: deltas, frequency :: frequencies, fieldnorm :: fieldnorms =>
      if prevDoc + delta < 2 ^ 32 then do
        let rest ← rebuildChecked (prevDoc + delta) deltas frequencies fieldnorms
        return ⟨prevDoc + delta, frequency % 2 ^ 16, fieldnorm⟩ :: rest
      else none
  | _, _, _, _ => none

/-- `decompress_block`. -/
def decompressBlockChecked (compressed : List (Fin 256)) (count firstDocId : Nat) :
    Option (List BlockPosting) :=
  if tpBlockSize < count then none
  else if count = 0 then some []
  else
    match compressed with
    | docIdBits :: freqBits :: packed =>
        if 1 ≤ docIdBits.val ∧ docIdBits.val ≤ 32 ∧ 1 ≤ freqBits.val ∧ freqBits.val ≤ 16 then do
          let docIdBytes := (count * docIdBits.val + 7) / 8
          let freqBytes := (count * freqBits.val + 7) / 8
          let deltas ← unpackChecked docIdBits.val count packed 0 0
          if packed.length < docIdBytes then none
          else do
            let frequencies ← unpackChecked freqBits.val count (packed.drop docIdBytes) 0 0
            rebuildChecked firstDocId deltas frequencies (packed.drop (docIdBytes + freqBytes))
        else none
    | _ => none

/-- `compressed_block_size`. -/
def compressedBlockSize (compressed : List (Fin 256)) (count : Nat) : Option Nat :=
  if count = 0 then some 0
  else
    match compressed with
    | docIdBits :: freqBits :: _ =>
        some (2 + (count * docIdBits.val + 7) / 8 + (count * freqBits.val + 7) / 8 + count)
    | _ => none

/-! ## No check fails -/

theorem shiftLeft64_eq {value bits width : Nat} (hbits : bits < 64) (hvalue : value < 2 ^ width)
    (hwidth : width + bits ≤ 64) : shiftLeft64 value bits = some (value <<< bits) := by
  have hlt : value <<< bits < 2 ^ 64 := by
    rw [Nat.shiftLeft_eq]
    calc value * 2 ^ bits < 2 ^ width * 2 ^ bits :=
          Nat.mul_lt_mul_of_pos_right hvalue (Nat.two_pow_pos bits)
      _ = 2 ^ (width + bits) := (Nat.pow_add ..).symm
      _ ≤ 2 ^ 64 := Nat.pow_le_pow_right (by omega) hwidth
  rw [shiftLeft64, if_pos hbits, Nat.mod_eq_of_lt hlt]

theorem maskChecked_eq {bits : Nat} (hbits : bits ≤ 32) :
    maskChecked bits = some (bitMask bits) := by
  unfold maskChecked bitMask
  by_cases h32 : bits = 32
  · simp only [h32, if_true]
  · have hlt : bits < 32 := by omega
    simp only [h32, hlt, if_false, if_true]

/-- Draining needs room for the bytes it writes, and nothing else. -/
theorem drainChecked_eq (fuel : Nat) {room buffer bufBits : Nat}
    (hroom : (drainBytes fuel buffer bufBits).1.length ≤ room) :
    drainChecked fuel room buffer bufBits = some (drainBytes fuel buffer bufBits) := by
  induction fuel generalizing room buffer bufBits with
  | zero => rfl
  | succ fuel ih =>
      unfold drainBytes at hroom ⊢
      unfold drainChecked
      by_cases hbits : 8 ≤ bufBits
      · simp only [hbits, if_true, List.length_cons] at hroom ⊢
        have hne : room ≠ 0 := by omega
        have hrest := @ih (room - 1) (buffer >>> 8) (bufBits - 8) (by omega)
        simp only [hne, if_false, shiftRight64, show (8 : Nat) < 64 by omega, if_true,
          Option.bind_eq_bind, Option.bind_some, hrest]
        rfl
      · simp only [hbits, if_false]

/-- Draining leaves less than a byte in the buffer. -/
theorem drainBytes_bits (fuel buffer : Nat) {bufBits : Nat} (hfuel : bufBits ≤ fuel) :
    (drainBytes fuel buffer bufBits).2.2 < 8 := by
  induction fuel generalizing buffer bufBits with
  | zero =>
      simp only [drainBytes]
      omega
  | succ fuel ih =>
      unfold drainBytes
      by_cases hbits : 8 ≤ bufBits
      · rw [if_pos hbits]
        exact ih (buffer >>> 8) (show bufBits - 8 ≤ fuel by omega)
      · rw [if_neg hbits]
        exact not_le.1 hbits

/-- **Packing** with checks writes the same bytes, given room for them. -/
theorem packChecked_eq {bits : Nat} (hbits : bits ≤ 32) (values : List Nat)
    {room buffer bufBits : Nat} (hbuf : bufBits < 8)
    (hroom : (packLoop bits values buffer bufBits).length ≤ room) :
    packChecked bits values room buffer bufBits = some (packLoop bits values buffer bufBits) := by
  induction values generalizing room buffer bufBits with
  | nil =>
      unfold packLoop at hroom ⊢
      unfold packChecked
      by_cases hpos : 0 < bufBits
      · simp only [hpos, if_true, List.length_cons, List.length_nil] at hroom ⊢
        have hne : room ≠ 0 := by omega
        simp only [hne, if_false]
      · simp only [hpos, if_false]
  | cons val rest ih =>
      have hmasked : val &&& bitMask bits < 2 ^ bits := by
        rw [and_bitMask]
        exact Nat.mod_lt _ (Nat.two_pow_pos bits)
      have hshift : shiftLeft64 (val &&& bitMask bits) bufBits =
          some ((val &&& bitMask bits) <<< bufBits) :=
        shiftLeft64_eq (by omega) hmasked (by omega)
      simp only [packLoop, List.length_append] at hroom ⊢
      have hbits' := drainBytes_bits (bufBits + bits)
        (buffer ||| ((val &&& bitMask bits) <<< bufBits)) (le_refl (bufBits + bits))
      generalize hd : drainBytes (bufBits + bits)
        (buffer ||| ((val &&& bitMask bits) <<< bufBits)) (bufBits + bits) = drained at hroom ⊢
      have hn : drained.2.2 < 8 := hd ▸ hbits'
      have hdrain : drainChecked (bufBits + bits) room
          (buffer ||| ((val &&& bitMask bits) <<< bufBits)) (bufBits + bits) = some drained := by
        rw [← hd]
        apply drainChecked_eq
        rw [hd]
        omega
      have hrest := @ih (room - drained.1.length) drained.2.1 drained.2.2 hn (by omega)
      simp only [packChecked, maskChecked_eq hbits, hshift, hdrain, hrest, Option.bind_eq_bind,
        Option.bind_some]
      rfl

/-- Refilling never shifts out of the buffer. -/
theorem refillChecked_eq {bits : Nat} (hbits : bits ≤ 32) (input : List (Fin 256))
    (buffer bufBits : Nat) :
    refillChecked bits input buffer bufBits = refillBuffer bits input buffer bufBits := by
  induction input generalizing buffer bufBits with
  | nil => rfl
  | cons b rest ih =>
      unfold refillChecked refillBuffer
      by_cases hlt : bufBits < bits
      · have hb : b.val < 2 ^ 8 := b.isLt
        have hshift : shiftLeft64 b.val bufBits = some (b.val <<< bufBits) :=
          shiftLeft64_eq (by omega) hb (by omega)
        simp only [hlt, if_true, hshift, Option.bind_eq_bind, Option.bind_some, ih]
      · simp only [hlt, if_false]

/-- **Unpacking** with checks reads the same values. -/
theorem unpackChecked_eq {bits : Nat} (hbits : bits ≤ 32) (count : Nat) (input : List (Fin 256))
    (buffer bufBits : Nat) :
    unpackChecked bits count input buffer bufBits = unpackLoop bits count input buffer bufBits := by
  induction count generalizing input buffer bufBits with
  | zero => rfl
  | succ count ih =>
      have hshift : ∀ value, shiftRight64 value bits = some (value >>> bits) := by
        intro value
        rw [shiftRight64, if_pos (by omega)]
      simp only [unpackChecked, unpackLoop, refillChecked_eq hbits, maskChecked_eq hbits, hshift,
        Option.bind_eq_bind, Option.bind_some, ih]

theorem bitWidthChecked_eq (fuel bits maxValue : Nat) :
    bitWidthChecked fuel bits maxValue = some (bitWidthLoop fuel bits maxValue) := by
  induction fuel generalizing bits with
  | zero => rfl
  | succ fuel ih =>
      unfold bitWidthChecked bitWidthLoop
      by_cases hlt : bits < 32
      · have hmod : (1 <<< bits) % 2 ^ 32 = 1 <<< bits := by
          rw [Nat.shiftLeft_eq, one_mul]
          exact Nat.mod_eq_of_lt (Nat.pow_lt_pow_right (by omega) hlt)
        by_cases hle : 1 <<< bits ≤ maxValue
        · simp only [hlt, hmod, hle, and_self, if_true, ih]
        · simp only [hlt, hmod, hle, and_false, if_true, if_false]
      · simp only [hlt, false_and, if_false]

theorem computeBitWidthChecked_eq (maxValue : Nat) :
    computeBitWidthChecked maxValue = some (computeBitWidth maxValue) := by
  unfold computeBitWidthChecked computeBitWidth
  split
  · rfl
  · exact bitWidthChecked_eq 32 1 maxValue

/-- In document order no subtraction goes below zero. -/
theorem deltasChecked_eq {ps : List BlockPosting} (hid : ∀ p ∈ ps, p.docId < 2 ^ 32)
    (prevDoc : Nat) (hfirst : ∀ p ∈ ps, prevDoc ≤ p.docId)
    (hsorted : ps.Pairwise fun p q => p.docId ≤ q.docId) :
    deltasChecked prevDoc ps = some (docDeltas prevDoc ps) := by
  induction ps generalizing prevDoc with
  | nil => rfl
  | cons p rest ih =>
      have hle := hfirst p List.mem_cons_self
      have hlt := hid p List.mem_cons_self
      have hdelta : (p.docId + 2 ^ 32 - prevDoc) % 2 ^ 32 = p.docId - prevDoc := by omega
      rw [List.pairwise_cons] at hsorted
      have hrest := ih (fun q hq => hid q (List.mem_cons_of_mem _ hq)) p.docId hsorted.1 hsorted.2
      simp only [deltasChecked, docDeltas, hle, if_true, hrest, hdelta, Option.bind_eq_bind,
        Option.bind_some]
      rfl

/-- In document order no addition passes 32 bits. -/
theorem rebuildChecked_docDeltas {ps : List BlockPosting} (hid : ∀ p ∈ ps, p.docId < 2 ^ 32)
    (hfreq : ∀ p ∈ ps, p.frequency < 2 ^ 16) (prevDoc : Nat)
    (hfirst : ∀ p ∈ ps, prevDoc ≤ p.docId)
    (hsorted : ps.Pairwise fun p q => p.docId ≤ q.docId) (trailing : List (Fin 256)) :
    rebuildChecked prevDoc (docDeltas prevDoc ps) (ps.map BlockPosting.frequency)
      (ps.map BlockPosting.fieldnorm ++ trailing) = some ps := by
  induction ps generalizing prevDoc with
  | nil => rfl
  | cons p rest ih =>
      have hle := hfirst p List.mem_cons_self
      have hlt := hid p List.mem_cons_self
      have hdelta : prevDoc + (p.docId + 2 ^ 32 - prevDoc) % 2 ^ 32 = p.docId := by omega
      have hcut : p.frequency % 2 ^ 16 = p.frequency :=
        Nat.mod_eq_of_lt (hfreq p List.mem_cons_self)
      rw [List.pairwise_cons] at hsorted
      have hrest := ih (fun q hq => hid q (List.mem_cons_of_mem _ hq))
        (fun q hq => hfreq q (List.mem_cons_of_mem _ hq)) p.docId hsorted.1 hsorted.2
      simp only [docDeltas, List.map_cons, List.cons_append, rebuildChecked, hdelta, hlt, if_true,
        hcut, hrest, Option.bind_eq_bind, Option.bind_some]
      rfl

/-! ## The round trip -/

/-- A width is at least one bit. -/
theorem one_le_computeBitWidth (maxValue : Nat) : 1 ≤ computeBitWidth maxValue := by
  have hloop : ∀ fuel bits, bits ≤ bitWidthLoop fuel bits maxValue := by
    intro fuel
    induction fuel with
    | zero => exact fun bits => le_rfl
    | succ fuel ih =>
        intro bits
        unfold bitWidthLoop
        split
        · exact (Nat.le_succ bits).trans (ih (bits + 1))
        · exact le_rfl
  unfold computeBitWidth
  split
  · exact le_rfl
  · exact hloop 32 1

section RoundTrip

variable {ps : List BlockPosting}

/-- **Compressing** with checks writes the same block, given room for it. -/
theorem compressBlockChecked_eq (hsize : ps.length ≤ tpBlockSize)
    (hid : ∀ p ∈ ps, p.docId < 2 ^ 32) (hfreq : ∀ p ∈ ps, p.frequency < 2 ^ 16)
    (hsorted : ps.Pairwise fun p q => p.docId ≤ q.docId) {room : Nat}
    (hroom : (compressBlock ps).length ≤ room) :
    compressBlockChecked ps room = some (compressBlock ps) := by
  unfold compressBlockChecked
  rw [if_neg (not_lt.2 hsize)]
  by_cases hne : ps = []
  · rw [if_pos hne, compressBlock, if_pos hne]
  · have hdoc := (width_spec _ (by omega) le_rfl (docDeltas_lt 0 ps)).1
    have hfr := (width_spec (ps.map BlockPosting.frequency) (show 1 ≤ 16 by omega) (by omega)
      (by simpa using hfreq)).1
    have hdeltas := deltasChecked_eq hid 0 (fun p _ => Nat.zero_le p.docId) hsorted
    unfold compressBlock at hroom ⊢
    rw [if_neg hne] at hroom ⊢
    simp only [List.length_append, List.length_cons, List.length_nil, List.length_map] at hroom ⊢
    have hdocs : packChecked (computeBitWidth (maxOf (docDeltas 0 ps))) (docDeltas 0 ps)
        (room - 2) 0 0 =
        some (bitpackEncode (docDeltas 0 ps) (computeBitWidth (maxOf (docDeltas 0 ps)))) := by
      apply packChecked_eq hdoc _ (by omega)
      show (bitpackEncode (docDeltas 0 ps) _).length ≤ room - 2
      omega
    generalize bitpackEncode (docDeltas 0 ps) (computeBitWidth (maxOf (docDeltas 0 ps))) = docs
      at hroom hdocs ⊢
    have hfreqs : packChecked (computeBitWidth (maxOf (ps.map BlockPosting.frequency)))
        (ps.map BlockPosting.frequency) (room - 2 - docs.length) 0 0 =
        some (bitpackEncode (ps.map BlockPosting.frequency)
          (computeBitWidth (maxOf (ps.map BlockPosting.frequency)))) := by
      apply packChecked_eq (by omega) _ (by omega)
      show (bitpackEncode (ps.map BlockPosting.frequency) _).length ≤ room - 2 - docs.length
      omega
    generalize bitpackEncode (ps.map BlockPosting.frequency) _ = freqs at hroom hfreqs ⊢
    have hheader : ¬ room < 2 := by omega
    have htail : ¬ room - 2 - docs.length - freqs.length < ps.length := by omega
    simp only [hne, if_false, hdeltas, computeBitWidthChecked_eq, Option.bind_eq_bind,
      Option.bind_some, hheader, hdocs, hfreqs, htail]
    rfl

/-- **The layout of a block**: two widths that hold the values, and three streams. -/
theorem compressBlock_layout (hne : ps ≠ []) (hfreq : ∀ p ∈ ps, p.frequency < 2 ^ 16) :
    ∃ docIdBits freqBits : Fin 256,
      (1 ≤ docIdBits.val ∧ docIdBits.val ≤ 32 ∧ 1 ≤ freqBits.val ∧ freqBits.val ≤ 16) ∧
      (∀ v ∈ docDeltas 0 ps, v < 2 ^ docIdBits.val) ∧
      (∀ v ∈ ps.map BlockPosting.frequency, v < 2 ^ freqBits.val) ∧
      compressBlock ps = docIdBits :: freqBits :: (bitpackEncode (docDeltas 0 ps) docIdBits.val ++
        (bitpackEncode (ps.map BlockPosting.frequency) freqBits.val ++
          ps.map BlockPosting.fieldnorm)) := by
  obtain ⟨hdoc, hdocFits⟩ := width_spec _ (by omega) le_rfl (docDeltas_lt 0 ps)
  obtain ⟨hfr, hfrFits⟩ := width_spec (ps.map BlockPosting.frequency)
    (show 1 ≤ 16 by omega) (by omega) (by simpa using hfreq)
  have hdocPos := one_le_computeBitWidth (maxOf (docDeltas 0 ps))
  have hfrPos := one_le_computeBitWidth (maxOf (ps.map BlockPosting.frequency))
  have hdocByte := Nat.mod_eq_of_lt (show computeBitWidth (maxOf (docDeltas 0 ps)) < 256 by omega)
  have hfrByte := Nat.mod_eq_of_lt
    (show computeBitWidth (maxOf (ps.map BlockPosting.frequency)) < 256 by omega)
  refine ⟨Fin.ofNat 256 (computeBitWidth (maxOf (docDeltas 0 ps))),
    Fin.ofNat 256 (computeBitWidth (maxOf (ps.map BlockPosting.frequency))), ?_, ?_, ?_, ?_⟩
  · simp only [Fin.ofNat, hdocByte, hfrByte]
    exact ⟨hdocPos, hdoc, hfrPos, hfr⟩
  · simpa only [Fin.ofNat, hdocByte] using hdocFits
  · simpa only [Fin.ofNat, hfrByte] using hfrFits
  · simp only [compressBlock, if_neg hne, Fin.ofNat, hdocByte, hfrByte, List.cons_append,
      List.nil_append, List.append_assoc]

/-- The length of a block, as its header says it. -/
theorem compressedBlockSize_compressBlock (hne : ps ≠ [])
    (hfreq : ∀ p ∈ ps, p.frequency < 2 ^ 16) (trailing : List (Fin 256)) :
    compressedBlockSize (compressBlock ps ++ trailing) ps.length =
      some (compressBlock ps).length := by
  obtain ⟨docIdBits, freqBits, -, hdocFits, hfrFits, hlayout⟩ := compressBlock_layout hne hfreq
  have hlen : ps.length ≠ 0 := by simpa using hne
  rw [hlayout]
  simp only [compressedBlockSize, hlen, if_false, List.cons_append, List.length_cons,
    List.length_append, length_bitpackEncode hdocFits, length_bitpackEncode hfrFits,
    length_docDeltas, List.length_map]
  congr 1
  omega

/-- **Decompressing** with checks reads the postings, whatever bytes follow the block. -/
theorem decompressBlockChecked_compressBlock (hne : ps ≠ []) (hsize : ps.length ≤ tpBlockSize)
    (hid : ∀ p ∈ ps, p.docId < 2 ^ 32) (hfreq : ∀ p ∈ ps, p.frequency < 2 ^ 16)
    (hsorted : ps.Pairwise fun p q => p.docId ≤ q.docId) (trailing : List (Fin 256)) :
    decompressBlockChecked (compressBlock ps ++ trailing) ps.length 0 = some ps := by
  obtain ⟨docIdBits, freqBits, hwidths, hdocFits, hfrFits, hlayout⟩ :=
    compressBlock_layout hne hfreq
  have hlen : ps.length ≠ 0 := by simpa using hne
  have hdocLen := length_bitpackEncode hdocFits
  have hfreqLen := length_bitpackEncode hfrFits
  rw [length_docDeltas] at hdocLen
  rw [List.length_map] at hfreqLen
  have hdocs := bitpackDecode_bitpackEncode hwidths.2.1 hdocFits
    (bitpackEncode (ps.map BlockPosting.frequency) freqBits.val ++
      (ps.map BlockPosting.fieldnorm ++ trailing))
  have hfreqs := bitpackDecode_bitpackEncode (by omega) hfrFits
    (ps.map BlockPosting.fieldnorm ++ trailing)
  rw [length_docDeltas, bitpackDecode, ← unpackChecked_eq hwidths.2.1] at hdocs
  rw [List.length_map, bitpackDecode, ← unpackChecked_eq (by omega)] at hfreqs
  have hrebuild := rebuildChecked_docDeltas hid hfreq 0 (fun p _ => Nat.zero_le p.docId) hsorted
    trailing
  have hshort : ¬ (bitpackEncode (docDeltas 0 ps) docIdBits.val ++
      (bitpackEncode (ps.map BlockPosting.frequency) freqBits.val ++
        (ps.map BlockPosting.fieldnorm ++ trailing))).length <
      (bitpackEncode (docDeltas 0 ps) docIdBits.val).length := by
    rw [List.length_append]
    omega
  rw [hlayout]
  simp only [decompressBlockChecked, if_neg (not_lt.2 hsize), if_neg hlen, List.cons_append,
    List.append_assoc, hwidths, and_self, if_true, ← hdocLen, ← hfreqLen, hdocs,
    Option.bind_eq_bind, Option.bind_some, hshort, if_false, List.drop_left, hfreqs,
    ← List.drop_drop, hrebuild]

/-- **The round trip of the block codec**: with every check on, a block compresses into the
buffer it is given, its length is the one computed from its header and at most the declared
maximum, and reading it back, whatever bytes follow, gives the postings. -/
theorem blockCodec_round_trip (ps : List BlockPosting) (hpos : 1 ≤ ps.length)
    (hsize : ps.length ≤ tpBlockSize) (hid : ∀ p ∈ ps, p.docId < 2 ^ 32)
    (hfreq : ∀ p ∈ ps, p.frequency < 2 ^ 16)
    (hsorted : ps.Pairwise fun p q => p.docId ≤ q.docId) (trailing : List (Fin 256)) :
    ∃ bytes, compressBlockChecked ps tpMaxCompressedBlockSize = some bytes ∧
      compressedBlockSize (bytes ++ trailing) ps.length = some bytes.length ∧
      bytes.length ≤ tpMaxCompressedBlockSize ∧
      decompressBlockChecked (bytes ++ trailing) ps.length 0 = some ps := by
  have hne : ps ≠ [] := List.ne_nil_of_length_pos hpos
  have hle := length_compressBlock_le hsize hfreq
  exact ⟨compressBlock ps, compressBlockChecked_eq hsize hid hfreq hsorted hle,
    compressedBlockSize_compressBlock hne hfreq trailing, hle,
    decompressBlockChecked_compressBlock hne hsize hid hfreq hsorted trailing⟩

/-- Two postings whose widths are the extreme ones, followed by two more bytes. -/
theorem blockCodec_round_trip_two :
    ∃ bytes, compressBlockChecked [⟨0, 1, 3⟩, ⟨2 ^ 32 - 1, 2 ^ 16 - 1, 255⟩]
        tpMaxCompressedBlockSize = some bytes ∧
      compressedBlockSize (bytes ++ [7, 9]) 2 = some bytes.length ∧
      bytes.length ≤ tpMaxCompressedBlockSize ∧
      decompressBlockChecked (bytes ++ [7, 9]) 2 0 =
        some [⟨0, 1, 3⟩, ⟨2 ^ 32 - 1, 2 ^ 16 - 1, 255⟩] :=
  blockCodec_round_trip [⟨0, 1, 3⟩, ⟨2 ^ 32 - 1, 2 ^ 16 - 1, 255⟩] (by decide) (by decide)
    (by decide) (by decide) (by decide) [7, 9]

end RoundTrip

end PgTextsearch.Segment
