import Mathlib.Data.List.SplitLengths
import PgTextsearch.Segment.StreamRead

/-!
# Streams read back (`segment/segment.c`)

What a segment writer wrote is what a reader reads, with dictionary entries and header patched
in their places, as long as 32-bit offsets reach: nothing lies behind the page that holds byte
2^32, and no dictionary entry begins at byte 2^32 or later.

## Main results

* `stream_faithful` — addressable streams read back, in any sequence of reads.
* `stream_faithful_iff` — for calls of given lengths, these are the only ones that read back
  whatever the bytes are.
-/

namespace PgTextsearch.Segment.Stream

open PgTextsearch.Postgres PgTextsearch.Verified PgTextsearch.Segment.File

/-! ## What is to be read -/

/-- The concatenated writes with the dictionary entries and the header in their places. -/
def Calls.finished (c : Calls) (pageIndexRoot : Option Nat) : List (Fin 256) :=
  (updateHeader c.header.cut (c.finalHeader pageIndexRoot)).bytes ++ c.before.flatten ++
    (c.entries.map DictRecord.bytes).flatten ++ c.behind.flatten

/-- Reads inside of the stream return its bytes, one after the other. -/
def ReadsBack (rel : Relation) (reader : SegmentReader) (bytes : List (Fin 256)) : Prop :=
  ∀ ranges : List (Nat × Nat), (∀ r ∈ ranges, r.1 < 2 ^ 32 ∧ r.1 + r.2 ≤ bytes.length) →
    readAll rel reader ranges = .ok (ranges.map fun r => slice bytes r.1 r.2)

/-- In every relation with room for it the segment can be written and opened, and its stream
reads back. -/
def Calls.Faithful (c : Calls) : Prop :=
  ∀ (fsm : Pages.FreeSpaceMap) (rel : Relation), c.Room rel →
    ∃ root rel' reader pageIndexRoot, writeStream fsm rel c = .ok (root, rel') ∧
      tpSegmentOpen rel' root = .ok (some reader) ∧
      ReadsBack rel' reader (c.finished pageIndexRoot)

/-- 32-bit offsets reach: nothing lies behind the page of byte 2^32, and the dictionary entries
begin in front of it. -/
def Calls.Addressable (c : Calls) : Prop :=
  c.size ≤ readableEnd ∧ ∀ i < c.entries.length, c.entriesOffset + i * dictEntrySize < 2 ^ 32

theorem Calls.length_entries (c : Calls) :
    (c.entries.map DictRecord.bytes).flatten.length = c.entries.length * dictEntrySize := by
  have hwidth : ∀ r ∈ c.entries.map DictRecord.bytes, r.length = dictEntrySize := by
    intro r hr
    obtain ⟨e, -, rfl⟩ := List.mem_map.1 hr
    exact e.length_bytes
  rw [length_flatten_pages hwidth, List.length_map]

theorem Calls.length_finished (c : Calls) (pageIndexRoot : Option Nat) :
    (c.finished pageIndexRoot).length = c.size := by
  rw [finished, List.length_append, List.length_append, List.length_append, Header.length_bytes,
    c.length_entries]
  rfl

/-! ## Patches in their places -/

/-- Entries patched at offsets that do not wrap replace their placeholders. -/
theorem patched_eq {entriesOffset : Nat} (entries : List DictRecord) (i : Nat)
    {front placeholders behind : List (Fin 256)}
    (hfront : front.length = entriesOffset + i * dictEntrySize)
    (hlen : placeholders.length = entries.length * dictEntrySize)
    (hlt : ∀ j < entries.length, entriesOffset + (i + j) * dictEntrySize < 2 ^ 32) :
    patched entriesOffset entries i (front ++ placeholders ++ behind) =
      front ++ (entries.map DictRecord.bytes).flatten ++ behind := by
  induction entries generalizing i front placeholders with
  | nil =>
      have hnil : placeholders = [] := List.length_eq_zero_iff.1 (by simpa using hlen)
      rw [hnil]
      rfl
  | cons entry rest ih =>
      rw [List.length_cons, Nat.succ_mul] at hlen
      obtain ⟨first, others, rfl, hfirst⟩ : ∃ first others, placeholders = first ++ others ∧
          first.length = dictEntrySize :=
        ⟨placeholders.take dictEntrySize, placeholders.drop dictEntrySize,
          (List.take_append_drop _ _).symm, by rw [List.length_take]; omega⟩
      rw [List.length_append, hfirst] at hlen
      have hsize := entry.length_bytes
      have hoffset : (entriesOffset + i * dictEntrySize) % 2 ^ 32 = front.length := by
        rw [hfront]
        exact Nat.mod_eq_of_lt (hlt 0 (by rw [List.length_cons]; omega))
      have hover : overwrite (front ++ (first ++ others) ++ behind) front.length entry.bytes =
          (front ++ entry.bytes) ++ others ++ behind := by
        rw [← List.append_assoc front first others, List.append_assoc (front ++ first),
          overwrite_middle _ _ _ (by rw [hsize, hfirst]), List.append_assoc (front ++ entry.bytes)]
      rw [patched, hoffset, hover, ih (i + 1) (by
          rw [List.length_append, hsize, hfront, Nat.succ_mul, Nat.add_assoc]) (by omega) (by
          intro j hj
          rw [Nat.add_assoc, Nat.add_comm 1 j]
          exact hlt (j + 1) (by rw [List.length_cons]; omega)),
        List.map_cons, List.flatten_cons, List.append_assoc front]

/-- **The bytes of an addressable segment.** -/
theorem finalBytes_eq {c : Calls} (h : c.Addressable) (pageIndexRoot : Option Nat)
    (padding : List (Fin 256)) :
    finalBytes c pageIndexRoot padding = c.finished pageIndexRoot ++ padding ∧
      Header.ofBytes ((patched (c.entriesOffset % 2 ^ 32) c.entries 0
        (c.written ++ padding)).take segmentDataPerPage) = c.header.cut := by
  have hpatched : patched (c.entriesOffset % 2 ^ 32) c.entries 0 (c.written ++ padding) =
      c.header.bytes ++ (c.before.flatten ++ (c.entries.map DictRecord.bytes).flatten ++
        c.behind.flatten ++ padding) := by
    have hfront : (c.header.bytes ++ c.before.flatten).length = c.entriesOffset := by
      rw [List.length_append, Header.length_bytes]
      rfl
    have hsame : patched (c.entriesOffset % 2 ^ 32) c.entries 0 (c.written ++ padding) =
        patched c.entriesOffset c.entries 0 (c.written ++ padding) := by
      cases hentries : c.entries with
      | nil => rfl
      | cons entry rest =>
          have hlt := h.2 0 (by rw [hentries, List.length_cons]; omega)
          rw [Nat.mod_eq_of_lt (by omega)]
    have heq := @patched_eq c.entriesOffset c.entries 0 (c.header.bytes ++ c.before.flatten)
      c.placeholders (c.behind.flatten ++ padding) (by rw [hfront]; omega)
      c.length_placeholders (by
        intro j hj
        rw [Nat.zero_add]
        exact h.2 j hj)
    rw [hsame, Calls.written]
    simp only [List.append_assoc] at heq ⊢
    exact heq
  have hexisting : Header.ofBytes ((patched (c.entriesOffset % 2 ^ 32) c.entries 0
      (c.written ++ padding)).take segmentDataPerPage) = c.header.cut := by
    obtain ⟨k, hk⟩ := Nat.exists_eq_add_of_le (show headerSize ≤ segmentDataPerPage by decide)
    rw [hpatched, hk, ← c.header.length_bytes, List.take_length_add_append, Header.ofBytes_bytes]
  refine ⟨?_, hexisting⟩
  unfold finalBytes
  dsimp only
  rw [hexisting, hpatched]
  have hover := overwrite_middle [] c.header.bytes (c.before.flatten ++
    (c.entries.map DictRecord.bytes).flatten ++ c.behind.flatten ++ padding)
    (show (updateHeader c.header.cut (c.finalHeader pageIndexRoot)).bytes.length = _ by
      rw [Header.length_bytes, Header.length_bytes])
  rw [List.nil_append, List.nil_append, List.length_nil] at hover
  rw [hover, Calls.finished]
  simp only [List.append_assoc]

/-! ## Written and opened -/

/-- **A written segment is opened**, if the magic of its header is still there. -/
theorem writeStream_opens (fsm : Pages.FreeSpaceMap) {rel : Relation} {c : Calls}
    (hroom : c.Room rel) :
    ∃ pages root rel' disk padding pageIndexRoot reader,
      writeStream fsm rel c = .ok (root, rel') ∧
      Paged segmentDataPerPage disk (finalBytes c pageIndexRoot padding) ∧
      ((Header.ofBytes ((patched (c.entriesOffset % 2 ^ 32) c.entries 0
          (c.written ++ padding)).take segmentDataPerPage)).magic % 2 ^ 32 = tpSegmentMagic →
        tpSegmentOpen rel' root = .ok (some reader)) ∧
      ∀ reader', tpSegmentOpen rel' root = .ok (some reader') → Opened rel' reader' pages disk := by
  obtain ⟨pages, blocks, rel', disk, padding, hrun, hlen, hn, hholds, hlinked, hpaged⟩ :=
    writeStream_spec fsm hroom
  have hpos : 0 < pages.length := by
    rw [hlen]
    exact Nat.succ_pos _
  obtain ⟨root, hroot⟩ : ∃ root, pages[0]? = some root := ⟨_, List.getElem?_eq_getElem hpos⟩
  have hhead : pages.headD 0 = root := by
    rw [List.headD_eq_head?_getD, List.head?_eq_getElem?, hroot, Option.getD_some]
  obtain ⟨existing, hexisting⟩ : ∃ e, e = Header.ofBytes ((patched (c.entriesOffset % 2 ^ 32)
      c.entries 0 (c.written ++ padding)).take segmentDataPerPage) := ⟨_, rfl⟩
  obtain ⟨header, hheader⟩ : ∃ h, h = updateHeader existing (c.finalHeader blocks.head?) :=
    ⟨_, rfl⟩
  have hdata : Header.ofBytes (rel'.dataOf root) = header.cut := by
    have hfirst := hpaged.head?_eq (hholds.length_eq ▸ hpos)
    rw [← hholds.disk_eq, List.getElem?_map, hroot] at hfirst
    have hbytes : rel'.dataOf root =
        (finalBytes c blocks.head? padding).take segmentDataPerPage := Option.some.inj hfirst
    obtain ⟨k, hk⟩ := Nat.exists_eq_add_of_le (show headerSize ≤ segmentDataPerPage by decide)
    rw [hbytes, finalBytes, ← hexisting, ← hheader, overwrite, List.take_zero, List.nil_append, hk,
      ← header.length_bytes, List.take_length_add_append, Header.ofBytes_bytes]
  have hmax : pages.length ≤ maxBlockNumber + 1 :=
    Nat.le_trans (Pages.length_le_of_nodup hholds.nodup hholds.lt) hn
  have hnum : header.cut.numPages = pages.length := by
    rw [hheader, hlen]
    show c.numPages % 256 ^ 4 = c.numPages
    apply Nat.mod_eq_of_lt
    unfold maxBlockNumber at hmax
    omega
  have hindex : blockOfNumber header.cut.pageIndex = blocks.head? := by
    rw [hheader]
    show blockOfNumber (blockNumber blocks.head? % 256 ^ 4) = blocks.head?
    cases hfirst : blocks.head? with
    | none => rfl
    | some b =>
        have hb : b < maxBlockNumber + 1 :=
          Nat.lt_of_lt_of_le (hlinked.lt b (List.mem_of_mem_head? hfirst)) hn
        unfold maxBlockNumber at hb
        show blockOfNumber (b % 256 ^ 4) = some b
        rw [Nat.mod_eq_of_lt (by omega), blockOfNumber, if_neg]
        unfold invalidBlockNumber
        omega
  obtain ⟨hgood, hbad⟩ := tpSegmentOpen_spec hholds hlinked (List.mem_of_getElem? hroot) hdata
    hnum hindex
  refine ⟨pages, root, rel', disk, padding, blocks.head?,
    ⟨header.cut, pages, rel'.nblocks, uint32Max, none⟩, ?_, hpaged, ?_, ?_⟩
  · rw [← hhead]
    exact hrun
  · intro hmagic
    refine (hgood ?_).2
    rw [hheader]
    rw [← hexisting] at hmagic
    exact hmagic
  · intro reader' hopen
    by_cases hmagic : header.cut.magic = tpSegmentMagic
    · obtain ⟨hopened, hok⟩ := hgood hmagic
      cases hok.symm.trans hopen
      exact hopened
    · obtain ⟨e, he⟩ := hbad hmagic
      cases he.symm.trans hopen

/-- Reads of an opened stream, one after the other. -/
theorem Opened.readsBack {rel : Relation} {reader : SegmentReader} {pages : List Nat}
    {disk : List (List (Fin 256))} (h : Opened rel reader pages disk)
    {bytes padding : List (Fin 256)} (hpaged : Paged segmentDataPerPage disk (bytes ++ padding))
    (hend : bytes.length ≤ readableEnd) : ReadsBack rel reader bytes := by
  intro ranges hranges
  induction ranges generalizing reader with
  | nil => rfl
  | cons range ranges ih =>
      obtain ⟨hoffset, hle⟩ := hranges range List.mem_cons_self
      obtain ⟨reader', hrun, hopened⟩ := h.read_eq hpaged hoffset (Nat.le_trans hle hend)
        (by rw [List.length_append]; omega)
      have hslice : slice (bytes ++ padding) range.1 range.2 = slice bytes range.1 range.2 := by
        rw [slice, slice, List.drop_append_of_le_length (by omega),
          List.take_append_of_le_length (by rw [List.length_drop]; omega)]
      have hrest := ih hopened fun r hr => hranges r (List.mem_cons_of_mem _ hr)
      rw [readAll, bind_of_eq_ok hrun]
      dsimp only
      rw [bind_of_eq_ok hrest, hslice]
      rfl

/-- **Addressable streams read back**, whatever is written and in whatever pieces. -/
theorem stream_faithful {c : Calls} (h : c.Addressable) : c.Faithful := by
  intro fsm rel hroom
  obtain ⟨pages, root, rel', disk, padding, pageIndexRoot, reader, hrun, hpaged, hopen, hall⟩ :=
    writeStream_opens fsm hroom
  obtain ⟨hbytes, hexisting⟩ := finalBytes_eq h pageIndexRoot padding
  have hmagic : c.header.cut.magic % 2 ^ 32 = tpSegmentMagic := by
    show c.header.magic % 256 ^ 4 % 2 ^ 32 = tpSegmentMagic
    rw [c.magic_eq]
    rfl
  have hok := hopen (by rw [hexisting]; exact hmagic)
  rw [hbytes] at hpaged
  refine ⟨root, rel', reader, pageIndexRoot, hrun, hok, (hall reader hok).readsBack hpaged ?_⟩
  rw [c.length_finished]
  exact h.1

/-! ## Streams that do not read back -/

/-- A byte stays what it is when the entries patched over it have the same byte there. -/
theorem patched_getElem? {entriesOffset : Nat} (entries : List DictRecord) (i : Nat)
    {bytes : List (Fin 256)} {p : Nat} {v : Fin 256}
    (hin : ∀ j < entries.length,
      (entriesOffset + (i + j) * dictEntrySize) % 2 ^ 32 + dictEntrySize ≤ bytes.length)
    (hbyte : bytes[p]? = some v)
    (hentries : ∀ j e, entries[j]? = some e →
      (entriesOffset + (i + j) * dictEntrySize) % 2 ^ 32 ≤ p →
      p < (entriesOffset + (i + j) * dictEntrySize) % 2 ^ 32 + dictEntrySize →
      e.bytes[p - (entriesOffset + (i + j) * dictEntrySize) % 2 ^ 32]? = some v) :
    (patched entriesOffset entries i bytes)[p]? = some v := by
  induction entries generalizing i bytes with
  | nil => exact hbyte
  | cons entry rest ih =>
      have hfirst := hin 0 (by rw [List.length_cons]; omega)
      rw [Nat.add_zero] at hfirst
      have hfits : (entriesOffset + i * dictEntrySize) % 2 ^ 32 + entry.bytes.length ≤
          bytes.length := by
        rw [entry.length_bytes]
        exact hfirst
      refine ih (i + 1) ?_ ?_ ?_
      · intro j hj
        rw [length_overwrite hfits, Nat.add_assoc, Nat.add_comm 1 j]
        exact hin (j + 1) (by rw [List.length_cons]; omega)
      · rw [getElem?_overwrite hfits]
        split
        case isTrue hover =>
          rw [entry.length_bytes] at hover
          exact hentries 0 entry rfl hover.1 hover.2
        case isFalse => exact hbyte
      · intro j e he
        rw [Nat.add_assoc, Nat.add_comm 1 j]
        exact hentries (j + 1) e he

/-- The relation without pages. -/
def emptyRelation : Relation := ⟨[], [], 0, fun _ h => nomatch h⟩

/-- A free space map that never has a page. -/
def noFreePages : Pages.FreeSpaceMap := ⟨fun _ _ => none, fun h => nomatch h⟩

/-- The segment fits into some relation. -/
def Calls.Fits (c : Calls) : Prop := c.numPages + c.numIndexPages ≤ maxBlockNumber + 1

theorem Calls.Fits.room {c : Calls} (h : c.Fits) : c.Room emptyRelation := by
  unfold Room
  show 0 + c.numPages + c.numIndexPages ≤ maxBlockNumber + 1
  rw [Nat.zero_add]
  exact h

theorem length_patched_written (c : Calls) (padding : List (Fin 256)) :
    (patched (c.entriesOffset % 2 ^ 32) c.entries 0 (c.written ++ padding)).length =
      c.size + padding.length := by
  rw [length_patched, List.length_append, c.length_written]
  intro j hj
  have hle := c.wrapped_entry_le hj
  rw [List.length_append, c.length_written]
  omega

theorem finalBytes_getElem? (c : Calls) (pageIndexRoot : Option Nat)
    (padding : List (Fin 256)) :
    (finalBytes c pageIndexRoot padding).length = c.size + padding.length ∧
      ∀ p, headerSize ≤ p → (finalBytes c pageIndexRoot padding)[p]? =
        (patched (c.entriesOffset % 2 ^ 32) c.entries 0 (c.written ++ padding))[p]? := by
  have hsize : headerSize ≤ c.size := by
    unfold Calls.size Calls.entriesOffset
    omega
  have hfits : ∀ header : Header, 0 + header.bytes.length ≤ (patched (c.entriesOffset % 2 ^ 32)
      c.entries 0 (c.written ++ padding)).length := by
    intro header
    rw [Header.length_bytes, length_patched_written]
    omega
  refine ⟨?_, fun p hp => ?_⟩
  · rw [finalBytes, length_overwrite (hfits _), length_patched_written]
  · rw [finalBytes, getElem?_overwrite (hfits _), if_neg (by
      rw [Header.length_bytes]
      omega)]

/-- What a reader of a faithful stream finds, byte by byte: behind the readable pages it finds
what is at the wrapped offset. -/
theorem Calls.Faithful.getElem? {c : Calls} (h : c.Faithful) (hfits : c.Fits) :
    ∃ padding pageIndexRoot,
      (∀ p, headerSize ≤ p → p < c.size → p < readableEnd →
        (patched (c.entriesOffset % 2 ^ 32) c.entries 0 (c.written ++ padding))[p]? =
          (c.finished pageIndexRoot)[p]?) ∧
      (readableEnd < c.size →
        (patched (c.entriesOffset % 2 ^ 32) c.entries 0
          (c.written ++ padding))[readableEnd % 2 ^ 32]? =
            (c.finished pageIndexRoot)[readableEnd]?) := by
  obtain ⟨root, rel', reader, pageIndexRoot, hrun, hopen, hreads⟩ :=
    h noFreePages emptyRelation hfits.room
  obtain ⟨pages, root', rel'', disk, padding, index, -, hrun', hpaged, -, hall⟩ :=
    writeStream_opens noFreePages hfits.room
  cases hrun'.symm.trans hrun
  have hopened := hall reader hopen
  obtain ⟨hlen, hbytes⟩ := finalBytes_getElem? c index padding
  have hread : ∀ offset len bytes reader', offset < 2 ^ 32 → offset + len ≤ c.size →
      tpSegmentRead rel' reader offset len = .ok (bytes, reader') →
        bytes = slice (c.finished pageIndexRoot) offset len := by
    intro offset len bytes reader' hoffset hle hrun
    have hone := hreads [(offset, len)] (by
      intro r hr
      rw [List.mem_singleton.1 hr, c.length_finished]
      exact ⟨hoffset, hle⟩)
    rw [readAll, bind_of_eq_ok hrun] at hone
    exact (List.cons.inj (Except.ok.inj hone)).1
  refine ⟨padding, pageIndexRoot, fun p hp hsize hend => ?_, fun hsize => ?_⟩
  · -- read the byte, from a 32-bit offset on
    obtain ⟨offset, hoffset⟩ : ∃ o, o = min p (2 ^ 32 - 1) := ⟨_, rfl⟩
    obtain ⟨reader', hrun, -⟩ := hopened.read_eq hpaged (show offset < 2 ^ 32 by omega)
      (show offset + (p - offset + 1) ≤ readableEnd by omega) (by rw [hlen]; omega)
    have heq := congrArg (fun l => l[p - offset]?)
      (hread offset (p - offset + 1) _ _ (by omega) (by omega) hrun)
    simp only [slice, List.getElem?_take_of_lt (Nat.lt_succ_self (p - offset)),
      List.getElem?_drop] at heq
    rw [Nat.add_sub_cancel' (by omega), hbytes p hp] at heq
    exact heq
  · obtain ⟨reader', hrun⟩ := hopened.read_wrapped hpaged (show 2 ^ 32 - 1 < 2 ^ 32 by decide)
      (by decide) (show readableEnd % 2 ^ 32 + 1 ≤ readableEnd by decide) (by rw [hlen]; omega)
    have heq := congrArg (fun l => l[readableEnd - (2 ^ 32 - 1)]?)
      (hread (2 ^ 32 - 1) (readableEnd - (2 ^ 32 - 1) + 1) _ _ (by decide)
        (by rw [← Nat.add_assoc, Nat.add_sub_cancel' (by decide)]; exact hsize) hrun)
    have hfront : (slice (finalBytes c index padding) (2 ^ 32 - 1)
        (readableEnd - (2 ^ 32 - 1))).length = readableEnd - (2 ^ 32 - 1) :=
      length_slice (by rw [hlen, Nat.add_sub_cancel' (by decide)]; omega)
    simp only [List.getElem?_append_right (Nat.le_of_eq hfront), hfront, Nat.sub_self] at heq
    simp only [slice, List.getElem?_take_of_lt (Nat.lt_succ_self _), List.getElem?_drop] at heq
    rw [Nat.add_zero, Nat.add_sub_cancel' (by decide), hbytes _ (by decide)] at heq
    exact heq

/-! ## Calls of given lengths -/

namespace Calls

/-- Where the parts of a stream lie, before and after the entries are patched. -/
theorem liesAt_written (c : Calls) (padding : List (Fin 256)) :
    LiesAt (c.written ++ padding) headerSize c.before.flatten ∧
      LiesAt (c.written ++ padding) c.entriesOffset c.placeholders ∧
      LiesAt (c.written ++ padding) (c.entriesOffset + c.entries.length * dictEntrySize)
        c.behind.flatten := by
  have hbefore : LiesAt (c.written ++ padding) headerSize
      (c.before.flatten ++ (c.placeholders ++ c.behind.flatten)) :=
    ⟨c.header.bytes, padding, by simp only [written, List.append_assoc], c.header.length_bytes⟩
  have hentries := hbefore.right
  have hbehind := hentries.right
  rw [c.length_placeholders] at hbehind
  exact ⟨hbefore.left, hentries.left, hbehind⟩

theorem liesAt_finished (c : Calls) (pageIndexRoot : Option Nat) :
    LiesAt (c.finished pageIndexRoot) headerSize c.before.flatten ∧
      LiesAt (c.finished pageIndexRoot) c.entriesOffset
        (c.entries.map DictRecord.bytes).flatten ∧
      LiesAt (c.finished pageIndexRoot) (c.entriesOffset + c.entries.length * dictEntrySize)
        c.behind.flatten := by
  have hbefore : LiesAt (c.finished pageIndexRoot) headerSize (c.before.flatten ++
      ((c.entries.map DictRecord.bytes).flatten ++ c.behind.flatten)) :=
    ⟨(updateHeader c.header.cut (c.finalHeader pageIndexRoot)).bytes, [], by
      simp only [finished, List.append_assoc, List.append_nil], Header.length_bytes _⟩
  have hentries := hbefore.right
  have hbehind := hentries.right
  rw [c.length_entries] at hbehind
  exact ⟨hbefore.left, hentries.left, hbehind⟩

/-- Placeholders are zeros. -/
theorem placeholders_getElem? (c : Calls) {k : Nat} (hk : k < c.entries.length * dictEntrySize) :
    c.placeholders[k]? = some 0 := by
  have hlt : k < c.placeholders.length := by
    rw [c.length_placeholders]
    exact hk
  have hzero : ∀ b ∈ c.placeholders, b = 0 := by
    intro b hb
    obtain ⟨l, hl, hb⟩ := List.mem_flatten.1 hb
    obtain ⟨e, -, rfl⟩ := List.mem_map.1 hl
    have hall : placeholder = List.replicate dictEntrySize 0 := by decide
    rw [hall] at hb
    exact List.eq_of_mem_replicate hb
  rw [List.getElem?_eq_getElem hlt, hzero _ (List.getElem_mem hlt)]

end Calls

/-- Calls with the same lengths. -/
structure Calls.SameShape (c c' : Calls) : Prop where
  before_eq : c.before.map List.length = c'.before.map List.length
  entries_eq : c.entries.length = c'.entries.length
  behind_eq : c.behind.map List.length = c'.behind.map List.length

/-- The calls with other bytes and other entries. -/
def Calls.filled (c : Calls) (flat : List (Fin 256)) (entries : List DictRecord) : Calls :=
  { c with
    before := (c.before.map List.length).splitLengths
      (slice flat headerSize c.before.flatten.length)
    entries := entries
    behind := (c.behind.map List.length).splitLengths
      (flat.drop (c.entriesOffset + c.entries.length * dictEntrySize)) }

section Filled

variable {c : Calls} {flat : List (Fin 256)} {entries : List DictRecord}
variable (hflat : flat.length = c.size) (hentries : entries.length = c.entries.length)
include hflat

theorem Calls.filled_before : (c.filled flat entries).before.flatten =
      slice flat headerSize c.before.flatten.length ∧
    (c.filled flat entries).before.map List.length = c.before.map List.length := by
  have hlen : (slice flat headerSize c.before.flatten.length).length =
      (c.before.map List.length).sum := by
    rw [← List.length_flatten]
    apply length_slice
    rw [hflat]
    unfold size entriesOffset
    omega
  exact ⟨List.flatten_splitLengths _ _ (Nat.le_of_eq hlen),
    List.map_splitLengths_length _ _ (Nat.le_of_eq hlen.symm)⟩

theorem Calls.filled_behind : (c.filled flat entries).behind.flatten =
      flat.drop (c.entriesOffset + c.entries.length * dictEntrySize) ∧
    (c.filled flat entries).behind.map List.length = c.behind.map List.length := by
  have hlen : (flat.drop (c.entriesOffset + c.entries.length * dictEntrySize)).length =
      (c.behind.map List.length).sum := by
    rw [← List.length_flatten, List.length_drop, hflat]
    unfold size
    omega
  exact ⟨List.flatten_splitLengths _ _ (Nat.le_of_eq hlen),
    List.map_splitLengths_length _ _ (Nat.le_of_eq hlen.symm)⟩

include hentries

theorem Calls.sameShape_filled : (c.filled flat entries).SameShape c :=
  ⟨(filled_before hflat).2, hentries, (filled_behind hflat).2⟩

theorem Calls.filled_sizes : (c.filled flat entries).entriesOffset = c.entriesOffset ∧
    (c.filled flat entries).size = c.size := by
  have hbefore : (c.filled flat entries).before.flatten.length = c.before.flatten.length := by
    rw [List.length_flatten, (filled_before hflat).2, ← List.length_flatten]
  have hbehind : (c.filled flat entries).behind.flatten.length = c.behind.flatten.length := by
    rw [List.length_flatten, (filled_behind hflat).2, ← List.length_flatten]
  have hoffset : (c.filled flat entries).entriesOffset = c.entriesOffset := by
    unfold entriesOffset
    rw [hbefore]
  refine ⟨hoffset, ?_⟩
  unfold size
  rw [hoffset, hbehind, show (c.filled flat entries).entries.length = c.entries.length from
    hentries]

theorem Calls.filled_fits (hfits : c.Fits) : (c.filled flat entries).Fits := by
  unfold Fits numIndexPages numPages at hfits ⊢
  rw [(filled_sizes hflat hentries).2]
  exact hfits

/-- Outside of header and entries, the stream has the given bytes. -/
theorem Calls.filled_getElem? {p : Nat} (hp : headerSize ≤ p) (hsize : p < c.size)
    (hout : p < c.entriesOffset ∨ c.entriesOffset + c.entries.length * dictEntrySize ≤ p)
    (pageIndexRoot : Option Nat) (padding : List (Fin 256)) :
    ((c.filled flat entries).written ++ padding)[p]? = flat[p]? ∧
      ((c.filled flat entries).finished pageIndexRoot)[p]? = flat[p]? := by
  obtain ⟨hwritten, -, hwritten'⟩ := (c.filled flat entries).liesAt_written padding
  obtain ⟨hfinished, -, hfinished'⟩ := (c.filled flat entries).liesAt_finished pageIndexRoot
  have hbefore := (@filled_before c flat entries hflat).1
  have hbehind := (@filled_behind c flat entries hflat).1
  have hoffset := (filled_sizes hflat hentries).1
  have hsize' : c.size = c.entriesOffset + c.entries.length * dictEntrySize +
    c.behind.flatten.length := rfl
  cases hout with
  | inl hfront =>
      obtain ⟨k, rfl⟩ := Nat.exists_eq_add_of_le hp
      have hk : k < c.before.flatten.length := by
        unfold entriesOffset at hfront
        omega
      have hlen : (slice flat headerSize c.before.flatten.length).length =
          c.before.flatten.length := by
        apply length_slice
        rw [hflat, hsize']
        unfold entriesOffset
        omega
      have hget : (slice flat headerSize c.before.flatten.length)[k]? = flat[headerSize + k]? := by
        rw [slice, List.getElem?_take_of_lt hk, List.getElem?_drop]
      rw [hbefore] at hwritten hfinished
      have hk' : k < (slice flat headerSize c.before.flatten.length).length :=
        Nat.lt_of_lt_of_eq hk hlen.symm
      exact ⟨(hwritten.getElem?_eq hk').trans hget, (hfinished.getElem?_eq hk').trans hget⟩
  | inr hback =>
      obtain ⟨k, rfl⟩ := Nat.exists_eq_add_of_le hback
      have hk : k < (flat.drop (c.entriesOffset + c.entries.length * dictEntrySize)).length := by
        rw [List.length_drop, hflat]
        omega
      have hget : (flat.drop (c.entriesOffset + c.entries.length * dictEntrySize))[k]? =
          flat[c.entriesOffset + c.entries.length * dictEntrySize + k]? := List.getElem?_drop
      rw [hbehind, hoffset, show (c.filled flat entries).entries.length = c.entries.length from
        hentries] at hwritten' hfinished'
      exact ⟨(hwritten'.getElem?_eq hk).trans hget, (hfinished'.getElem?_eq hk).trans hget⟩

/-- Among the entries, the stream has zeros before they are patched, and the entries
afterwards. -/
theorem Calls.filled_entry {i : Nat} {e : DictRecord} (he : entries[i]? = some e) {k : Nat}
    (hk : k < dictEntrySize) (pageIndexRoot : Option Nat) (padding : List (Fin 256)) :
    ((c.filled flat entries).written ++ padding)[c.entriesOffset + i * dictEntrySize + k]? =
        some 0 ∧
      ((c.filled flat entries).finished pageIndexRoot)[c.entriesOffset + i * dictEntrySize + k]? =
        e.bytes[k]? := by
  have hi := (List.getElem?_eq_some_iff.1 he).1
  have hmul := Nat.mul_le_mul_right dictEntrySize hi
  rw [Nat.succ_mul] at hmul
  have hoffset := (filled_sizes hflat hentries).1
  constructor
  · obtain ⟨-, hwritten, -⟩ := (c.filled flat entries).liesAt_written padding
    have hlt : i * dictEntrySize + k < entries.length * dictEntrySize := by omega
    rw [hoffset] at hwritten
    rw [Nat.add_assoc, hwritten.getElem?_eq (by rw [Calls.length_placeholders]; exact hlt)]
    exact (c.filled flat entries).placeholders_getElem? hlt
  · obtain ⟨-, hfinished, -⟩ := (c.filled flat entries).liesAt_finished pageIndexRoot
    have hwidth : ∀ r ∈ (c.filled flat entries).entries.map DictRecord.bytes,
        r.length = dictEntrySize := by
      intro r hr
      obtain ⟨d, -, rfl⟩ := List.mem_map.1 hr
      exact d.length_bytes
    have hrecord : ((c.filled flat entries).entries.map DictRecord.bytes)[i]? = some e.bytes := by
      rw [List.getElem?_map, show (c.filled flat entries).entries = entries from rfl, he]
      rfl
    rw [hoffset] at hfinished
    exact (hfinished.fixedRecord hwidth hrecord).getElem?_eq (by rw [e.length_bytes]; exact hk)

/-- Zeros that no entry is patched over with something else. -/
theorem Calls.filled_patched {p : Nat} (hp : headerSize ≤ p) (hzero : flat[p]? = some 0)
    (hpatch : ∀ j e, entries[j]? = some e →
      (c.entriesOffset % 2 ^ 32 + j * dictEntrySize) % 2 ^ 32 ≤ p →
      p < (c.entriesOffset % 2 ^ 32 + j * dictEntrySize) % 2 ^ 32 + dictEntrySize →
      e.bytes[p - (c.entriesOffset % 2 ^ 32 + j * dictEntrySize) % 2 ^ 32]? = some 0)
    (padding : List (Fin 256)) :
    (patched ((c.filled flat entries).entriesOffset % 2 ^ 32) (c.filled flat entries).entries 0
      ((c.filled flat entries).written ++ padding))[p]? = some 0 := by
  obtain ⟨hoffset, hsize⟩ := filled_sizes hflat hentries
  have hp' : p < c.size := hflat ▸ (List.getElem?_eq_some_iff.1 hzero).1
  have hwritten : ((c.filled flat entries).written ++ padding)[p]? = some 0 := by
    by_cases hin : c.entriesOffset ≤ p ∧ p < c.entriesOffset + c.entries.length * dictEntrySize
    · obtain ⟨k, rfl⟩ := Nat.exists_eq_add_of_le hin.1
      have hk : k / dictEntrySize < entries.length := by
        rw [hentries]
        exact (Nat.div_lt_iff_lt_mul (by decide)).2 (by omega)
      have hentry := (filled_entry hflat hentries (List.getElem?_eq_getElem hk)
        (Nat.mod_lt k (show 0 < dictEntrySize by decide)) none padding).1
      rwa [Nat.add_assoc, Nat.div_add_mod'] at hentry
    · rw [(filled_getElem? hflat hentries hp hp' (by omega) none padding).1]
      exact hzero
  refine patched_getElem? _ 0 ?_ hwritten ?_
  · intro j hj
    have hle := (c.filled flat entries).wrapped_entry_le hj
    rw [List.length_append, Calls.length_written]
    omega
  · intro j e he hle hlt
    rw [Nat.zero_add, hoffset] at hle hlt ⊢
    exact hpatch j e he hle hlt

end Filled

/-- An entry of zeros. -/
def zeroEntry : DictRecord := ⟨0, 0, 0⟩

theorem zeroEntry_getElem? {k : Nat} (hk : k < dictEntrySize) : zeroEntry.bytes[k]? = some 0 := by
  have hall : zeroEntry.bytes = List.replicate dictEntrySize 0 := by decide
  rw [hall, List.getElem?_replicate, if_pos hk]

theorem zeroEntries_getElem? {n j : Nat} {e : DictRecord}
    (he : (List.replicate n zeroEntry)[j]? = some e) : e = zeroEntry :=
  List.eq_of_mem_replicate (List.mem_of_getElem? he)

section NotFaithful

variable {c : Calls} (hfits : c.Fits)
include hfits

/-- **Bytes out of reach**: a byte behind the readable pages is taken from the front. -/
theorem not_faithful_beyond (hsize : readableEnd < c.size) (hout : readableEnd < c.entriesOffset ∨
    c.entriesOffset + c.entries.length * dictEntrySize ≤ readableEnd) :
    ∃ c' : Calls, c'.SameShape c ∧ ¬ c'.Faithful := by
  obtain ⟨flat, hflatdef⟩ : ∃ f, f = (List.replicate c.size (0 : Fin 256)).set readableEnd 1 :=
    ⟨_, rfl⟩
  obtain ⟨entries, hentriesdef⟩ : ∃ e, e = List.replicate c.entries.length zeroEntry := ⟨_, rfl⟩
  have hflat : flat.length = c.size := by rw [hflatdef, List.length_set, List.length_replicate]
  have hentries : entries.length = c.entries.length := by rw [hentriesdef, List.length_replicate]
  refine ⟨c.filled flat entries, Calls.sameShape_filled hflat hentries, fun hfaithful => ?_⟩
  obtain ⟨padding, root, -, hbeyond⟩ := hfaithful.getElem? (Calls.filled_fits hflat hentries hfits)
  have hone : flat[readableEnd]? = some 1 := by
    rw [hflatdef, List.getElem?_set_self (by rw [List.length_replicate]; exact hsize)]
  have hzero : flat[readableEnd % 2 ^ 32]? = some 0 := by
    rw [hflatdef, List.getElem?_set_ne (by decide), List.getElem?_replicate, if_pos]
    exact Nat.lt_trans (show readableEnd % 2 ^ 32 < readableEnd by decide) hsize
  have hwrapped := Calls.filled_patched hflat hentries (by decide) hzero (by
    intro j e he hle hlt
    rw [hentriesdef] at he
    rw [zeroEntries_getElem? he]
    exact zeroEntry_getElem? (by omega)) padding
  have hfinished := (Calls.filled_getElem? hflat hentries (by decide) hsize hout root padding).2
  have heq := hbeyond (by rw [(Calls.filled_sizes hflat hentries).2]; exact hsize)
  rw [hwrapped, hfinished, hone] at heq
  exact absurd heq (by decide)

/-- **An entry behind byte 2^32** is not patched where it belongs. -/
theorem not_faithful_entry {i : Nat} (hi : i < c.entries.length)
    (hentry : 2 ^ 32 ≤ c.entriesOffset + i * dictEntrySize)
    (hreach : c.entriesOffset + i * dictEntrySize < readableEnd) :
    ∃ c' : Calls, c'.SameShape c ∧ ¬ c'.Faithful := by
  obtain ⟨flat, hflatdef⟩ : ∃ f, f = List.replicate c.size (0 : Fin 256) := ⟨_, rfl⟩
  obtain ⟨entries, hentriesdef⟩ : ∃ e, e =
      (List.replicate c.entries.length zeroEntry).set i ⟨1, 0, 0⟩ := ⟨_, rfl⟩
  have hflat : flat.length = c.size := by rw [hflatdef, List.length_replicate]
  have hentries : entries.length = c.entries.length := by
    rw [hentriesdef, List.length_set, List.length_replicate]
  have hmul := Nat.mul_le_mul_right dictEntrySize hi
  rw [Nat.succ_mul] at hmul
  have hsize : c.entriesOffset + i * dictEntrySize < c.size := by
    have hpos : 0 < dictEntrySize := by decide
    unfold Calls.size
    omega
  have hheader : headerSize ≤ c.entriesOffset + i * dictEntrySize :=
    Nat.le_trans (by decide) hentry
  refine ⟨c.filled flat entries, Calls.sameShape_filled hflat hentries, fun hfaithful => ?_⟩
  obtain ⟨padding, root, hreads, -⟩ := hfaithful.getElem? (Calls.filled_fits hflat hentries hfits)
  have hget : entries[i]? = some ⟨1, 0, 0⟩ := by
    rw [hentriesdef, List.getElem?_set_self (by rw [List.length_replicate]; exact hi)]
  have hfinished := (Calls.filled_entry hflat hentries hget (show 0 < dictEntrySize by decide)
    root padding).2
  have hpatched := Calls.filled_patched hflat hentries hheader
    (by rw [hflatdef, List.getElem?_replicate, if_pos hsize]) (by
      intro j e he hle hlt
      by_cases hji : j = i
      · -- the entry itself goes to the wrapped offset
        subst hji
        unfold readableEnd segmentDataPerPage at hreach
        unfold dictEntrySize at hle hlt hentry hreach
        omega
      · rw [hentriesdef, List.getElem?_set_ne (Ne.symm hji)] at he
        rw [zeroEntries_getElem? he]
        exact zeroEntry_getElem? (by omega)) padding
  have heq := hreads _ hheader (by
    rw [(Calls.filled_sizes hflat hentries).2]
    exact hsize) hreach
  rw [hpatched] at heq
  rw [Nat.add_zero] at hfinished
  rw [hfinished] at heq
  exact absurd heq (by decide)

/-- **An entry at the end of the readable pages** is patched over bytes that it should leave
alone. -/
theorem not_faithful_end (hne : 0 < c.entries.length) (hoffset : c.entriesOffset = readableEnd) :
    ∃ c' : Calls, c'.SameShape c ∧ ¬ c'.Faithful := by
  obtain ⟨p, hp⟩ : ∃ p, p = readableEnd % 2 ^ 32 := ⟨_, rfl⟩
  have hheader : headerSize ≤ p := by
    rw [hp]
    decide
  have hlt : p < readableEnd := by
    rw [hp]
    decide
  have hsize : readableEnd ≤ c.size := by
    unfold Calls.size
    omega
  obtain ⟨flat, hflatdef⟩ : ∃ f, f = (List.replicate c.size (0 : Fin 256)).set p 1 := ⟨_, rfl⟩
  obtain ⟨entries, hentriesdef⟩ : ∃ e, e = List.replicate c.entries.length zeroEntry := ⟨_, rfl⟩
  have hflat : flat.length = c.size := by rw [hflatdef, List.length_set, List.length_replicate]
  have hentries : entries.length = c.entries.length := by rw [hentriesdef, List.length_replicate]
  refine ⟨c.filled flat entries, Calls.sameShape_filled hflat hentries, fun hfaithful => ?_⟩
  obtain ⟨padding, root, hreads, -⟩ := hfaithful.getElem? (Calls.filled_fits hflat hentries hfits)
  obtain ⟨hoffset', hsize'⟩ := Calls.filled_sizes hflat hentries
  have hone : flat[p]? = some 1 := by
    rw [hflatdef, List.getElem?_set_self (by rw [List.length_replicate]; omega)]
  have hfinished := (Calls.filled_getElem? hflat hentries hheader (by omega)
    (Or.inl (by omega)) root padding).2
  -- the first entry goes to the byte, and so may later ones; all have zeros there
  have hpatched : (patched ((c.filled flat entries).entriesOffset % 2 ^ 32)
      (c.filled flat entries).entries 0 ((c.filled flat entries).written ++ padding))[p]? =
        some 0 := by
    have hall : ∀ j < (c.filled flat entries).entries.length,
        (c.entriesOffset % 2 ^ 32 + (0 + j) * dictEntrySize) % 2 ^ 32 + dictEntrySize ≤
          ((c.filled flat entries).written ++ padding).length := by
      intro j hj
      have hle := (c.filled flat entries).wrapped_entry_le hj
      rw [hoffset'] at hle
      rw [List.length_append, Calls.length_written]
      omega
    rw [hoffset']
    obtain ⟨n, hn⟩ := Nat.exists_eq_succ_of_ne_zero (Nat.ne_of_gt hne)
    have hcons : (c.filled flat entries).entries = zeroEntry :: List.replicate n zeroEntry := by
      show entries = _
      rw [hentriesdef, hn, List.replicate_succ]
    rw [hcons] at hall ⊢
    have hfirst := hall 0 (Nat.succ_pos _)
    have hplace : (c.entriesOffset % 2 ^ 32 + 0 * dictEntrySize) % 2 ^ 32 = p := by
      rw [hoffset, hp]
      rfl
    have hfits : p + zeroEntry.bytes.length ≤
        ((c.filled flat entries).written ++ padding).length := by
      rw [zeroEntry.length_bytes, ← hplace]
      exact hfirst
    rw [patched, hplace]
    refine patched_getElem? _ 1 ?_ ?_ ?_
    · intro j hj
      rw [length_overwrite hfits, Nat.add_comm 1 j]
      have hle := hall (j + 1) (by rw [List.length_cons]; omega)
      rw [Nat.zero_add] at hle
      exact hle
    · rw [getElem?_overwrite hfits, if_pos ⟨Nat.le_refl p, by
        rw [zeroEntry.length_bytes]
        exact Nat.lt_add_of_pos_right (by decide)⟩, Nat.sub_self]
      exact zeroEntry_getElem? (by decide)
    · intro j e he hle hltEntry
      rw [zeroEntries_getElem? he]
      exact zeroEntry_getElem? (by omega)
  have heq := hreads p hheader (by omega) hlt
  rw [hpatched, hfinished, hone] at heq
  exact absurd heq (by decide)

end NotFaithful

theorem Calls.SameShape.sizes_eq {c c' : Calls} (h : c.SameShape c') :
    c.entriesOffset = c'.entriesOffset ∧ c.size = c'.size := by
  have hbefore : c.before.flatten.length = c'.before.flatten.length := by
    rw [List.length_flatten, List.length_flatten, h.before_eq]
  have hbehind : c.behind.flatten.length = c'.behind.flatten.length := by
    rw [List.length_flatten, List.length_flatten, h.behind_eq]
  have hoffset : c.entriesOffset = c'.entriesOffset := by
    unfold entriesOffset
    rw [hbefore]
  refine ⟨hoffset, ?_⟩
  unfold size
  rw [hoffset, h.entries_eq, hbehind]

theorem Calls.SameShape.addressable {c c' : Calls} (h : c.SameShape c') (hc : c'.Addressable) :
    c.Addressable := by
  obtain ⟨hoffset, hsize⟩ := h.sizes_eq
  refine ⟨hsize ▸ hc.1, fun i hi => ?_⟩
  rw [hoffset]
  exact hc.2 i (h.entries_eq ▸ hi)

/-- **Streams that are not addressable** do not read back, for some bytes. -/
theorem not_faithful {c : Calls} (hfits : c.Fits) (h : ¬ c.Addressable) :
    ∃ c' : Calls, c'.SameShape c ∧ ¬ c'.Faithful := by
  have hsize : c.entriesOffset + c.entries.length * dictEntrySize ≤ c.size := Nat.le_add_right _ _
  by_cases hall : ∀ i < c.entries.length, c.entriesOffset + i * dictEntrySize < 2 ^ 32
  · -- all entries begin in front of byte 2^32, so the stream reaches further
    have hbeyond : readableEnd < c.size := by
      by_contra hle
      exact h ⟨Nat.not_lt.1 hle, hall⟩
    refine not_faithful_beyond hfits hbeyond ?_
    cases hn : c.entries.length with
    | zero => omega
    | succ n =>
        have hlast := hall n (by omega)
        unfold readableEnd segmentDataPerPage
        unfold dictEntrySize at hlast ⊢
        omega
  · -- the first entry that begins behind it
    push Not at hall
    obtain ⟨i, hfirst, hmin⟩ := WellFounded.has_min Nat.lt_wfRel.wf
      {i | i < c.entries.length ∧ 2 ^ 32 ≤ c.entriesOffset + i * dictEntrySize}
      (by obtain ⟨i, hi, hge⟩ := hall; exact ⟨i, hi, hge⟩)
    by_cases hreach : c.entriesOffset + i * dictEntrySize < readableEnd
    · exact not_faithful_entry hfits hfirst.1 hfirst.2 hreach
    · cases i with
      | succ i =>
          -- the entry in front of it begins below 2^32, which is near
          have hprevious : c.entriesOffset + i * dictEntrySize < 2 ^ 32 := by
            by_contra hge
            exact hmin i ⟨Nat.lt_of_succ_lt hfirst.1, Nat.not_lt.1 hge⟩ (Nat.lt_succ_self i)
          unfold readableEnd segmentDataPerPage at hreach
          unfold dictEntrySize at hprevious hreach
          omega
      | zero =>
          rw [Nat.zero_mul, Nat.add_zero] at hreach
          have hpos : 0 < c.entries.length * dictEntrySize :=
            Nat.mul_pos hfirst.1 (by decide)
          cases Nat.lt_or_eq_of_le (Nat.not_lt.1 hreach) with
          | inl hlt => exact not_faithful_beyond hfits (by omega) (Or.inl hlt)
          | inr heq => exact not_faithful_end hfits hfirst.1 heq.symm

/-- The header that a new segment begins with. -/
def newHeader : Header := initialHeader ⟨0, 0, 0, 0⟩ 0

/-- A segment with one dictionary entry. -/
def oneEntryStream : Calls := ⟨newHeader, [[1, 2], [3]], [⟨4, 5, 6⟩], [[7]], newHeader, rfl⟩

/-- Zeros in one write, and a one behind them. -/
def longStream (zeros : Nat) : Calls :=
  ⟨newHeader, [], [], [List.replicate zeros 0, [1]], newHeader, rfl⟩

theorem longStream_size (zeros : Nat) : (longStream zeros).size = headerSize + zeros + 1 := by
  have hbehind : (longStream zeros).behind.flatten = List.replicate zeros 0 ++ [1] := by
    rw [longStream, List.flatten_cons, List.flatten_singleton]
  rw [Calls.size, hbehind, List.length_append, List.length_replicate]
  rfl

theorem longStream_getElem? (zeros : Nat) (root : Option Nat) (padding : List (Fin 256)) :
    (∀ k < zeros, (patched ((longStream zeros).entriesOffset % 2 ^ 32) (longStream zeros).entries 0
        ((longStream zeros).written ++ padding))[headerSize + k]? = some 0) ∧
      ((longStream zeros).finished root)[headerSize + zeros]? = some 1 := by
  have hbehind : (longStream zeros).behind.flatten = List.replicate zeros 0 ++ [1] := by
    rw [longStream, List.flatten_cons, List.flatten_singleton]
  obtain ⟨-, -, hwritten⟩ := (longStream zeros).liesAt_written padding
  obtain ⟨-, -, hfinished⟩ := (longStream zeros).liesAt_finished root
  rw [hbehind] at hwritten hfinished
  constructor
  · intro k hk
    have hget :=
      hwritten.getElem?_eq (show k < (List.replicate zeros (0 : Fin 256) ++ [1]).length by
      rw [List.length_append, List.length_replicate]
      omega)
    refine hget.trans ?_
    rw [List.getElem?_append_left (by rw [List.length_replicate]; exact hk),
      List.getElem?_replicate, if_pos hk]
  · have hget := hfinished.getElem?_eq
      (show zeros < (List.replicate zeros (0 : Fin 256) ++ [1]).length by
        rw [List.length_append, List.length_replicate]
        exact Nat.lt_succ_self zeros)
    refine hget.trans ?_
    rw [List.getElem?_append_right (by rw [List.length_replicate]), List.length_replicate,
      Nat.sub_self]
    rfl

theorem not_faithful_longStream {zeros : Nat} (hzeros : headerSize + zeros = readableEnd) :
    ¬ (longStream zeros).Faithful := by
  intro h
  have hsize : (longStream zeros).size = readableEnd + 1 := by rw [longStream_size, hzeros]
  have hfits : (longStream zeros).Fits := by
    unfold Calls.Fits Calls.numIndexPages Calls.numPages
    rw [hsize]
    decide
  obtain ⟨padding, root, -, hbeyond⟩ := h.getElem? hfits
  obtain ⟨hfront, hlast⟩ := longStream_getElem? zeros root padding
  have hzero := hfront (readableEnd % 2 ^ 32 - headerSize) (by
    have hlt : readableEnd % 2 ^ 32 < readableEnd := by decide
    have hle : headerSize ≤ readableEnd % 2 ^ 32 := by decide
    omega)
  have hplace : headerSize + (readableEnd % 2 ^ 32 - headerSize) = readableEnd % 2 ^ 32 := by
    decide
  have heq := hbeyond (by rw [hsize]; exact Nat.lt_succ_self readableEnd)
  rw [hplace] at hzero
  rw [hzeros] at hlast
  rw [hzero, hlast] at heq
  exact absurd heq (by decide)

end PgTextsearch.Segment.Stream
