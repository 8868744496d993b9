import Mathlib.Algebra.GroupWithZero.Nat
import Mathlib.Data.List.Basic
import Mathlib.Order.Basic

/-!
# Byte streams in pages

A stream is written through a buffer of one page: full pages go to disk, and the next
page is begun when there is more to write.  It is read, and patched in place, by logical
offsets, which are split into a page and an offset in the page.

`Streams` relates a writer to the bytes written so far; the pages of a finished stream are
those bytes, with the last page filled up.

## Main results

* `Streams.write` — writing appends, wherever the pages end.
* `Streams.finish` — the pages of a finished stream and their number.
* `readPages_eq`, `readPages_error` — a read returns the bytes of its range, and fails
  exactly when the range ends behind the last page.
* `Paged.patchPages` — a patch replaces the bytes of its range.
-/

namespace PgTextsearch.Verified

variable {β : Type}

/-- Pages of one size, one after the other. -/
theorem length_flatten_pages {size : Nat} {pages : List (List β)}
    (h : ∀ p ∈ pages, p.length = size) : pages.flatten.length = pages.length * size := by
  induction pages with
  | nil => simp
  | cons p rest ih =>
      rw [List.flatten_cons, List.length_append, h p List.mem_cons_self,
        ih fun q hq => h q (List.mem_cons_of_mem _ hq), List.length_cons, Nat.succ_mul]
      exact Nat.add_comm _ _

/-! ## Writing -/

/-- A stream under construction: the pages on disk, the page in the buffer with what is
written to it, and the number of bytes written. -/
structure PageWriter (β : Type) where
  disk : List (List β)
  bufferPage : Nat
  buffer : List β
  currentOffset : Nat

section Writer

variable (size : Nat) (fill : β)

/-- The contents of a page: what is written to it, filled up. -/
def padPage (l : List β) : List β := l ++ List.replicate (size - l.length) fill

namespace PageWriter

/-- A writer with its first page. -/
def start : PageWriter β := ⟨[List.replicate size fill], 0, [], 0⟩

/-- Write the buffer to its page. -/
def flush (w : PageWriter β) : PageWriter β :=
  if w.bufferPage ≥ w.disk.length then w
  else { w with disk := w.disk.set w.bufferPage (padPage size fill w.buffer) }

/-- Begin the next page; a page is allocated when there is none. -/
def nextPage (w : PageWriter β) : PageWriter β :=
  { w with
    bufferPage := w.bufferPage + 1
    buffer := []
    disk :=
      if w.bufferPage + 1 ≥ w.disk.length then w.disk ++ [List.replicate size fill] else w.disk }

/-- Copy as much as fits to the buffer. -/
def fillBuffer (w : PageWriter β) (data : List β) : PageWriter β :=
  { w with
    buffer := w.buffer ++ data.take (size - w.buffer.length)
    currentOffset := w.currentOffset + (data.take (size - w.buffer.length)).length }

/-- The writing loop, with the rounds still allowed: only the first round may find the
buffer full. -/
def writeLoop : Nat → PageWriter β → List β → PageWriter β
  | 0, w, _ => w
  | fuel + 1, w, data =>
      if data.isEmpty then w
      else
        let rest := data.drop (size - w.buffer.length)
        let w := w.fillBuffer size data
        if w.buffer.length ≥ size then
          let w := w.flush size fill
          if rest.isEmpty then w else writeLoop fuel (w.nextPage size fill) rest
        else writeLoop fuel w rest

/-- Append data to the stream. -/
def write (w : PageWriter β) (data : List β) : PageWriter β :=
  writeLoop size fill (data.length + 1) w data

/-- Append one piece of data after the other. -/
def writeAll (w : PageWriter β) (pieces : List (List β)) : PageWriter β :=
  pieces.foldl (fun w data => w.write size fill data) w

/-! ### Pages are only added -/

variable {size fill}

theorem length_disk_flush (w : PageWriter β) : (w.flush size fill).disk.length = w.disk.length := by
  unfold flush
  split
  · rfl
  · exact List.length_set

theorem length_disk_nextPage (w : PageWriter β) :
    w.disk.length ≤ (w.nextPage size fill).disk.length := by
  unfold nextPage
  dsimp only
  split
  · rw [List.length_append]
    omega
  · exact Nat.le_refl _

theorem length_disk_writeLoop (fuel : Nat) (w : PageWriter β) (data : List β) :
    w.disk.length ≤ (writeLoop size fill fuel w data).disk.length := by
  induction fuel generalizing w data with
  | zero => exact Nat.le_refl _
  | succ fuel ih =>
      have hfill : (w.fillBuffer size data).disk.length = w.disk.length := rfl
      have hflush := @length_disk_flush β size fill (w.fillBuffer size data)
      have hnext := @length_disk_nextPage β size fill ((w.fillBuffer size data).flush size fill)
      have hrest := ih (((w.fillBuffer size data).flush size fill).nextPage size fill)
        (data.drop (size - w.buffer.length))
      have hmore := ih (w.fillBuffer size data) (data.drop (size - w.buffer.length))
      unfold writeLoop
      dsimp only
      split
      · exact Nat.le_refl _
      split
      · split
        · omega
        · omega
      · omega

theorem length_disk_writeAll (w : PageWriter β) (pieces : List (List β)) :
    w.disk.length ≤ (w.writeAll size fill pieces).disk.length := by
  induction pieces generalizing w with
  | nil => exact Nat.le_refl _
  | cons data pieces ih =>
      exact Nat.le_trans (length_disk_writeLoop _ w data) (ih (w.write size fill data))

end PageWriter

/-- The writer has written the bytes. -/
structure Streams (w : PageWriter β) (bytes : List β) : Prop where
  pages_eq : w.disk.length = w.bufferPage + 1
  size_eq : ∀ p ∈ w.disk, p.length = size
  bytes_eq : (w.disk.take w.bufferPage).flatten ++ w.buffer = bytes
  buffer_le : w.buffer.length ≤ size
  offset_eq : w.currentOffset = bytes.length

/-- A page is begun only when something is written to it. -/
def PageWriter.Tight (w : PageWriter β) : Prop := w.bufferPage = 0 ∨ w.buffer ≠ []

variable {size}

theorem length_padPage {l : List β} (h : l.length ≤ size) :
    (padPage size fill l).length = size := by
  rw [padPage, List.length_append, List.length_replicate]
  omega

theorem padPage_of_full {l : List β} (h : l.length = size) : padPage size fill l = l := by
  rw [padPage, h, Nat.sub_self, List.replicate_zero, List.append_nil]

theorem streams_start : Streams size (PageWriter.start size fill) ([] : List β) where
  pages_eq := rfl
  size_eq := by
    intro p hp
    rw [List.mem_singleton.1 hp, List.length_replicate]
  bytes_eq := rfl
  buffer_le := Nat.zero_le _
  offset_eq := rfl

namespace Streams

variable {w : PageWriter β} {bytes : List β}

/-- The pages of a flushed writer. -/
theorem disk_flush (h : Streams size w bytes) :
    (w.flush size fill).disk = w.disk.take w.bufferPage ++ [padPage size fill w.buffer] := by
  have hpages := h.pages_eq
  have hnot : ¬ w.bufferPage ≥ w.disk.length := by omega
  unfold PageWriter.flush
  rw [if_neg hnot]
  show w.disk.set w.bufferPage (padPage size fill w.buffer) = _
  rw [List.set_eq_take_append_cons_drop, if_pos (by omega),
    List.drop_eq_nil_of_le (by omega)]

variable (size) in
/-- Flushing changes nothing but the page on disk. -/
theorem flush_frame (w : PageWriter β) :
    (w.flush size fill).bufferPage = w.bufferPage ∧ (w.flush size fill).buffer = w.buffer ∧
      (w.flush size fill).currentOffset = w.currentOffset := by
  unfold PageWriter.flush
  split
  · exact ⟨rfl, rfl, rfl⟩
  · exact ⟨rfl, rfl, rfl⟩

theorem flush (h : Streams size w bytes) : Streams size (w.flush size fill) bytes := by
  have hdisk := h.disk_flush fill
  obtain ⟨hpage, hbuffer, hoffset⟩ := flush_frame size fill w
  have hpages := h.pages_eq
  have htake : (w.disk.take w.bufferPage).length = w.bufferPage := by
    rw [List.length_take]
    omega
  exact
    { pages_eq := by
        rw [hdisk, hpage, List.length_append, htake]
        rfl
      size_eq := by
        intro p hp
        rw [hdisk] at hp
        rcases List.mem_append.1 hp with hp | hp
        · exact h.size_eq p (List.mem_of_mem_take hp)
        · rw [List.mem_singleton.1 hp]
          exact length_padPage fill h.buffer_le
      bytes_eq := by
        rw [hdisk, hpage, hbuffer, List.take_append_of_le_length (by omega),
          List.take_of_length_le (by omega)]
        exact h.bytes_eq
      buffer_le := by
        rw [hbuffer]
        exact h.buffer_le
      offset_eq := by
        rw [hoffset]
        exact h.offset_eq }

/-- Filling the buffer appends what fits. -/
theorem fillBuffer (h : Streams size w bytes) (data : List β) :
    Streams size (w.fillBuffer size data)
      (bytes ++ data.take (size - w.buffer.length)) where
  pages_eq := h.pages_eq
  size_eq := h.size_eq
  bytes_eq := by
    show (w.disk.take w.bufferPage).flatten ++ (w.buffer ++ _) = _
    rw [← List.append_assoc, h.bytes_eq]
  buffer_le := by
    show (w.buffer ++ _).length ≤ size
    have hle := h.buffer_le
    rw [List.length_append, List.length_take]
    omega
  offset_eq := by
    show w.currentOffset + _ = _
    rw [h.offset_eq, List.length_append]

/-- Beginning the page after a full one. -/
theorem nextPage (h : Streams size w bytes) (hfull : w.buffer.length = size) :
    Streams size ((w.flush size fill).nextPage size fill) bytes := by
  have hdisk := h.disk_flush fill
  have hoffset := (flush_frame size fill w).2.2
  have hflush := h.flush fill
  have hpages := hflush.pages_eq
  have hnew : ((w.flush size fill).nextPage size fill).disk =
      (w.flush size fill).disk ++ [List.replicate size fill] := by
    unfold PageWriter.nextPage
    exact if_pos (by omega)
  exact
    { pages_eq := by
        rw [hnew, List.length_append, hpages]
        rfl
      size_eq := by
        intro p hp
        rw [hnew] at hp
        rcases List.mem_append.1 hp with hp | hp
        · exact hflush.size_eq p hp
        · rw [List.mem_singleton.1 hp, List.length_replicate]
      bytes_eq := by
        show ((((w.flush size fill).nextPage size fill).disk).take
          ((w.flush size fill).bufferPage + 1)).flatten ++ [] = _
        rw [hnew, List.append_nil, List.take_append_of_le_length (by omega),
          List.take_of_length_le (by omega), hdisk, padPage_of_full fill hfull,
          List.flatten_append, List.flatten_cons, List.flatten_nil, List.append_nil, h.bytes_eq]
      buffer_le := Nat.zero_le _
      offset_eq := by
        show (w.flush size fill).currentOffset = _
        rw [hoffset, h.offset_eq] }

/-- **The writing loop.** -/
theorem writeLoop (hpos : 0 < size) (fuel : Nat) (h : Streams size w bytes) {data : List β}
    (htight : w.Tight ∨ data ≠ [])
    (hfuel : data.length < fuel ∨ data.length ≤ fuel ∧ w.buffer.length < size) :
    Streams size (PageWriter.writeLoop size fill fuel w data) (bytes ++ data) ∧
      (PageWriter.writeLoop size fill fuel w data).Tight := by
  induction fuel generalizing w bytes data with
  | zero =>
      have hnil : data = [] := List.length_eq_zero_iff.1 (by omega)
      subst hnil
      rw [List.append_nil]
      exact ⟨h, htight.resolve_right (by simp)⟩
  | succ fuel ih =>
      unfold PageWriter.writeLoop
      by_cases hempty : data = []
      · subst hempty
        rw [if_pos (show ([] : List β).isEmpty = true from rfl), List.append_nil]
        exact ⟨h, htight.resolve_right (by simp)⟩
      · rw [if_neg (by simpa using hempty)]
        have hfill := h.fillBuffer data
        have hle := h.buffer_le
        have hdpos : 0 < data.length := List.length_pos_of_ne_nil hempty
        have hsplit : bytes ++ data = bytes ++ data.take (size - w.buffer.length) ++
            data.drop (size - w.buffer.length) := by
          rw [List.append_assoc, List.take_append_drop]
        have hlen : (w.fillBuffer size data).buffer.length =
            w.buffer.length + min (size - w.buffer.length) data.length := by
          show (w.buffer ++ _).length = _
          rw [List.length_append, List.length_take]
        have hrest : (data.drop (size - w.buffer.length)).length =
            data.length - (size - w.buffer.length) := List.length_drop
        -- the buffer has something once the data does
        have htight' : w.buffer.length < size → (w.fillBuffer size data).Tight := by
          intro hlt
          right
          apply List.ne_nil_of_length_pos
          omega
        simp only
        by_cases hfull : (w.fillBuffer size data).buffer.length ≥ size
        · rw [if_pos hfull]
          have hfull' : (w.fillBuffer size data).buffer.length = size :=
            Nat.le_antisymm hfill.buffer_le hfull
          by_cases hdone : data.drop (size - w.buffer.length) = []
          · rw [if_pos (by simpa using hdone), hsplit, hdone, List.append_nil]
            refine ⟨hfill.flush fill, ?_⟩
            obtain ⟨hpage, hbuffer, -⟩ := flush_frame size fill (w.fillBuffer size data)
            unfold PageWriter.Tight
            rw [hpage, hbuffer]
            right
            apply List.ne_nil_of_length_pos
            omega
          · rw [if_neg (by simpa using hdone), hsplit]
            refine ih (hfill.nextPage fill hfull') (Or.inr hdone) (Or.inr ⟨?_, hpos⟩)
            omega
        · rw [if_neg hfull, hsplit]
          refine ih hfill (Or.inl (htight' (by omega))) (Or.inr ⟨?_, by omega⟩)
          omega

/-- **Writing appends.** -/
theorem write (hpos : 0 < size) (h : Streams size w bytes) (htight : w.Tight) (data : List β) :
    Streams size (w.write size fill data) (bytes ++ data) ∧ (w.write size fill data).Tight :=
  writeLoop fill hpos (data.length + 1) h (Or.inl htight) (Or.inl (Nat.lt_succ_self _))

/-- Writing in pieces. -/
theorem writeAll (hpos : 0 < size) (pieces : List (List β)) (h : Streams size w bytes)
    (htight : w.Tight) : Streams size (w.writeAll size fill pieces) (bytes ++ pieces.flatten) ∧
      (w.writeAll size fill pieces).Tight := by
  induction pieces generalizing w bytes with
  | nil =>
      rw [List.flatten_nil, List.append_nil]
      exact ⟨h, htight⟩
  | cons data pieces ih =>
      obtain ⟨hdata, hdata'⟩ := h.write fill hpos htight data
      rw [List.flatten_cons, ← List.append_assoc]
      exact ih hdata hdata'

/-- The number of pages of a finished stream. -/
theorem length_pages (h : Streams size w bytes) (htight : w.Tight) (hpos : 0 < size)
    (hne : bytes ≠ []) : (w.flush size fill).disk.length = (bytes.length - 1) / size + 1 := by
  have hpages := h.pages_eq
  have hflat : (w.disk.take w.bufferPage).flatten.length = w.bufferPage * size := by
    have hall : ∀ p ∈ w.disk.take w.bufferPage, p.length = size :=
      fun p hp => h.size_eq p (List.mem_of_mem_take hp)
    rw [length_flatten_pages hall, List.length_take]
    congr 1
    omega
  have hlen := congrArg List.length h.bytes_eq
  rw [List.length_append, hflat] at hlen
  have hbuffer : 0 < w.buffer.length := by
    rcases htight with hzero | hne'
    · have hb := List.length_pos_of_ne_nil hne
      rw [hzero, Nat.zero_mul] at hlen
      omega
    · exact List.length_pos_of_ne_nil hne'
  have hle := h.buffer_le
  have hdiv : (bytes.length - 1) / size = w.bufferPage := by
    rw [Nat.div_eq_iff hpos]
    constructor
    · omega
    · rw [Nat.add_comm] at *
      omega
  rw [h.disk_flush fill, List.length_append, List.length_take, hdiv]
  show min _ _ + 1 = _
  omega

end Streams

end Writer

/-- Pages of one size whose bytes are the list. -/
structure Paged (size : Nat) (pages : List (List β)) (bytes : List β) : Prop where
  size_eq : ∀ p ∈ pages, p.length = size
  flatten_eq : pages.flatten = bytes

theorem Paged.length_eq {size : Nat} {pages : List (List β)} {bytes : List β}
    (h : Paged size pages bytes) : bytes.length = pages.length * size := by
  rw [← h.flatten_eq, length_flatten_pages h.size_eq]

/-- The first page. -/
theorem Paged.head?_eq {size : Nat} {pages : List (List β)} {bytes : List β}
    (h : Paged size pages bytes) (hpos : 0 < pages.length) :
    pages[0]? = some (bytes.take size) := by
  obtain ⟨page, rest, rfl⟩ := List.exists_cons_of_length_pos hpos
  rw [← h.flatten_eq, List.flatten_cons, List.take_left' (h.size_eq page List.mem_cons_self)]
  rfl

/-- **The pages of a finished stream**: its bytes, with the last page filled up. -/
theorem Streams.finish {size : Nat} (fill : β) {w : PageWriter β} {bytes : List β}
    (h : Streams size w bytes) :
    ∃ n, Paged size (w.flush size fill).disk (bytes ++ List.replicate n fill) := by
  refine ⟨size - w.buffer.length, (h.flush fill).size_eq, ?_⟩
  rw [h.disk_flush fill, List.flatten_append, List.flatten_cons, List.flatten_nil, List.append_nil,
    padPage, ← List.append_assoc, h.bytes_eq]

/-! ## Ranges of a list -/

/-- The elements `offset .. offset + len`. -/
def slice (l : List β) (offset len : Nat) : List β := (l.drop offset).take len

/-- Put data in the place of the elements `offset .. offset + data.length`. -/
def overwrite (l : List β) (offset : Nat) (data : List β) : List β :=
  l.take offset ++ data ++ l.drop (offset + data.length)

theorem length_slice {l : List β} {offset len : Nat} (h : offset + len ≤ l.length) :
    (slice l offset len).length = len := by
  rw [slice, List.length_take, List.length_drop]
  omega

theorem slice_add (l : List β) (offset m n : Nat) :
    slice l offset (m + n) = slice l offset m ++ slice l (offset + m) n := by
  rw [slice, slice, slice, List.take_add, List.drop_drop]

/-- A range inside of a part. -/
theorem slice_append_middle (a b c : List β) {o len : Nat} (h : o + len ≤ b.length) :
    slice (a ++ b ++ c) (a.length + o) len = slice b o len := by
  rw [slice, slice, List.append_assoc, List.drop_length_add_append,
    List.drop_append_of_le_length (by omega), List.take_append_of_le_length]
  rw [List.length_drop]
  omega

/-- A part as a range. -/
theorem slice_middle (a b c : List β) : slice (a ++ b ++ c) a.length b.length = b := by
  have h := slice_append_middle a b c (show 0 + b.length ≤ b.length by omega)
  rw [Nat.add_zero] at h
  rw [h, slice, List.drop_zero, List.take_length]

theorem length_overwrite {l data : List β} {offset : Nat} (h : offset + data.length ≤ l.length) :
    (overwrite l offset data).length = l.length := by
  rw [overwrite, List.length_append, List.length_append, List.length_take, List.length_drop]
  omega

/-- Overwriting, element by element. -/
theorem getElem?_overwrite {l data : List β} {offset : Nat}
    (h : offset + data.length ≤ l.length) (p : Nat) :
    (overwrite l offset data)[p]? =
      if offset ≤ p ∧ p < offset + data.length then data[p - offset]? else l[p]? := by
  have hfront : (l.take offset).length = offset := by
    rw [List.length_take]
    omega
  have hmiddle : (l.take offset ++ data).length = offset + data.length := by
    rw [List.length_append, hfront]
  rw [overwrite]
  by_cases hin : p < offset + data.length
  · rw [List.getElem?_append_left (by omega)]
    by_cases hbefore : p < offset
    · rw [List.getElem?_append_left (by omega), List.getElem?_take_of_lt hbefore,
        if_neg (by omega)]
    · rw [List.getElem?_append_right (by omega), hfront, if_pos (by omega)]
  · rw [List.getElem?_append_right (by omega), hmiddle, List.getElem?_drop, if_neg (by omega)]
    congr 1
    omega

/-- Overwriting inside of a part. -/
theorem overwrite_append_middle (a b c data : List β) {o : Nat} (h : o + data.length ≤ b.length) :
    overwrite (a ++ b ++ c) (a.length + o) data = a ++ overwrite b o data ++ c := by
  rw [overwrite, overwrite, List.append_assoc a b c, List.take_length_add_append,
    List.take_append_of_le_length (by omega), Nat.add_assoc, List.drop_length_add_append,
    List.drop_append_of_le_length h]
  simp only [List.append_assoc]

/-- Overwriting a part. -/
theorem overwrite_middle (a b c : List β) {data : List β} (h : data.length = b.length) :
    overwrite (a ++ b ++ c) a.length data = a ++ data ++ c := by
  have ho := overwrite_append_middle a b c data (show 0 + data.length ≤ b.length by omega)
  rw [Nat.add_zero] at ho
  rw [ho, overwrite, Nat.zero_add, h, List.drop_length, List.take_zero, List.nil_append,
    List.append_nil]

/-- Overwriting in two steps. -/
theorem overwrite_overwrite {l : List β} {offset : Nat} (data more : List β)
    (h : offset + data.length ≤ l.length) :
    overwrite (overwrite l offset data) (offset + data.length) more =
      overwrite l offset (data ++ more) := by
  have hlen : (l.take offset ++ data).length = offset + data.length := by
    rw [List.length_append, List.length_take]
    omega
  have hend : offset + (data ++ more).length = offset + data.length + more.length := by
    rw [List.length_append, Nat.add_assoc]
  rw [overwrite, overwrite, ← hlen, List.take_left, List.drop_length_add_append, List.drop_drop,
    hlen, overwrite, hend]
  simp only [List.append_assoc]

/-! ## Parts in their places -/

/-- The part begins at the offset. -/
def LiesAt (bytes : List β) (offset : Nat) (part : List β) : Prop :=
  ∃ before behind, bytes = before ++ part ++ behind ∧ before.length = offset

namespace LiesAt

variable {bytes part : List β} {offset : Nat}

theorem length_le (h : LiesAt bytes offset part) : offset + part.length ≤ bytes.length := by
  obtain ⟨before, behind, rfl, rfl⟩ := h
  rw [List.length_append, List.length_append]
  omega

/-- The bytes themselves. -/
theorem refl (bytes : List β) : LiesAt bytes 0 bytes := ⟨[], [], by simp, rfl⟩

/-- A part of a part. -/
theorem trans {o : Nat} {sub : List β} (h : LiesAt bytes offset part) (hsub : LiesAt part o sub) :
    LiesAt bytes (offset + o) sub := by
  obtain ⟨before, behind, rfl, rfl⟩ := h
  obtain ⟨before', behind', rfl, rfl⟩ := hsub
  exact ⟨before ++ before', behind' ++ behind, by simp only [List.append_assoc],
    by rw [List.length_append]⟩

theorem slice_eq (h : LiesAt bytes offset part) : slice bytes offset part.length = part := by
  obtain ⟨before, behind, rfl, rfl⟩ := h
  exact slice_middle before part behind

/-- An element of the part. -/
theorem getElem?_eq (h : LiesAt bytes offset part) {k : Nat} (hk : k < part.length) :
    bytes[offset + k]? = part[k]? := by
  obtain ⟨before, behind, rfl, rfl⟩ := h
  rw [List.append_assoc, List.getElem?_append_right (by omega), Nat.add_sub_cancel_left,
    List.getElem?_append_left hk]

/-- A longer range begins with the part. -/
theorem slice_prefix (h : LiesAt bytes offset part) {len : Nat} (hlen : part.length ≤ len) :
    ∃ rest, slice bytes offset len = part ++ rest := by
  obtain ⟨k, rfl⟩ := Nat.exists_eq_add_of_le hlen
  exact ⟨_, by rw [slice_add, h.slice_eq]⟩

theorem left {a b : List β} (h : LiesAt bytes offset (a ++ b)) : LiesAt bytes offset a := by
  obtain ⟨before, behind, rfl, rfl⟩ := h
  exact ⟨before, b ++ behind, by simp only [List.append_assoc], rfl⟩

theorem right {a b : List β} (h : LiesAt bytes offset (a ++ b)) :
    LiesAt bytes (offset + a.length) b := by
  obtain ⟨before, behind, rfl, rfl⟩ := h
  exact ⟨before ++ a, behind, by simp only [List.append_assoc], by rw [List.length_append]⟩

/-- A record among records. -/
theorem record {records : List (List β)} (h : LiesAt bytes offset records.flatten) {n : Nat}
    {r : List β} (hr : records[n]? = some r) :
    LiesAt bytes (offset + (records.take n).flatten.length) r := by
  have hn := (List.getElem?_eq_some_iff.1 hr).1
  have hget := (List.getElem?_eq_some_iff.1 hr).2
  rw [← List.take_append_drop n records, List.drop_eq_getElem_cons hn, hget, List.flatten_append,
    List.flatten_cons] at h
  exact h.right.left

/-- A record among records of one size. -/
theorem fixedRecord {records : List (List β)} {width : Nat}
    (h : LiesAt bytes offset records.flatten) (hwidth : ∀ r ∈ records, r.length = width) {n : Nat}
    {r : List β} (hr : records[n]? = some r) : LiesAt bytes (offset + n * width) r := by
  have hn := (List.getElem?_eq_some_iff.1 hr).1
  have hlen : (records.take n).flatten.length = n * width := by
    rw [length_flatten_pages fun p hp => hwidth p (List.mem_of_mem_take hp), List.length_take,
      Nat.min_eq_left (Nat.le_of_lt hn)]
  have hrecord := h.record hr
  rwa [hlen] at hrecord

/-- What is behind the bytes does not matter. -/
theorem append (h : LiesAt bytes offset part) (more : List β) :
    LiesAt (bytes ++ more) offset part := by
  obtain ⟨before, behind, rfl, rfl⟩ := h
  exact ⟨before, behind ++ more, by simp only [List.append_assoc], rfl⟩

end LiesAt

/-! ## Running offsets -/

/-- Where records of the given sizes begin, one after the other. -/
def runningOffsets : Nat → List Nat → List Nat
  | _, [] => []
  | offset, len :: lens => offset :: runningOffsets (offset + len) lens

@[simp] theorem length_runningOffsets (offset : Nat) (lens : List Nat) :
    (runningOffsets offset lens).length = lens.length := by
  induction lens generalizing offset with
  | nil => rfl
  | cons len lens ih => rw [runningOffsets, List.length_cons, ih, List.length_cons]

theorem getElem?_runningOffsets (offset : Nat) {lens : List Nat} {n : Nat}
    (hn : n < lens.length) :
    (runningOffsets offset lens)[n]? = some (offset + (lens.take n).sum) := by
  induction lens generalizing offset n with
  | nil => exact absurd hn (Nat.not_lt_zero n)
  | cons len lens ih =>
      cases n with
      | zero => simp [runningOffsets]
      | succ n =>
          rw [runningOffsets, List.getElem?_cons_succ, ih _ (Nat.lt_of_succ_lt_succ hn),
            List.take_succ_cons, List.sum_cons, Nat.add_assoc]

theorem runningOffsets_append (offset : Nat) (lens more : List Nat) :
    runningOffsets offset (lens ++ more) =
      runningOffsets offset lens ++ runningOffsets (offset + lens.sum) more := by
  induction lens generalizing offset with
  | nil => rfl
  | cons len lens ih =>
      rw [List.cons_append, runningOffsets, ih, runningOffsets, List.sum_cons, Nat.add_assoc]
      rfl

/-! ## Reading -/

section Pages

variable (size : Nat)

/-- The reading loop; the error is the offset that lies behind the last page. -/
def readLoop (pages : List (List β)) : Nat → Nat → Nat → Except Nat (List β)
  | 0, _, _ => .ok []
  | fuel + 1, offset, len =>
      if len = 0 then .ok []
      else
        match pages[offset / size]? with
        | none => .error offset
        | some page => do
            let toRead := min len (size - offset % size)
            let rest ← readLoop pages fuel (offset + toRead) (len - toRead)
            return slice page (offset % size) toRead ++ rest

/-- Read `len` elements from a logical offset; every round reads at least one. -/
def readPages (pages : List (List β)) (offset len : Nat) : Except Nat (List β) :=
  readLoop size pages len offset len

variable {size} {pages : List (List β)}

/-- The page in its place. -/
private theorem flatten_eq_around {n : Nat} {page : List β} (h : pages[n]? = some page) :
    pages.flatten = (pages.take n).flatten ++ page ++ (pages.drop (n + 1)).flatten := by
  obtain ⟨hn, rfl⟩ := List.getElem?_eq_some_iff.1 h
  conv_lhs => rw [← List.take_append_drop n pages, List.drop_eq_getElem_cons hn]
  rw [List.flatten_append, List.flatten_cons, List.append_assoc]

private theorem length_flatten_take (hpages : ∀ p ∈ pages, p.length = size) {n : Nat}
    (hn : n < pages.length) : (pages.take n).flatten.length = n * size := by
  rw [length_flatten_pages fun p hp => hpages p (List.mem_of_mem_take hp), List.length_take]
  congr 1
  omega

/-- A range inside of a page. -/
theorem slice_page (hpages : ∀ p ∈ pages, p.length = size) {n o len : Nat} {page : List β}
    (h : pages[n]? = some page) (hlen : o + len ≤ size) :
    slice pages.flatten (n * size + o) len = slice page o len := by
  have hn : n < pages.length := (List.getElem?_eq_some_iff.1 h).1
  have hpage := hpages page (List.mem_of_getElem? h)
  rw [flatten_eq_around h, ← length_flatten_take hpages hn, slice_append_middle _ _ _ (by omega)]

/-- The reading loop, with more rounds than it needs. -/
theorem readLoop_eq (hpos : 0 < size) (hpages : ∀ p ∈ pages, p.length = size)
    (fuel : Nat) {offset len : Nat} (hfuel : len ≤ fuel) :
    (len = 0 ∨ offset + len ≤ pages.length * size →
        readLoop size pages fuel offset len = .ok (slice pages.flatten offset len)) ∧
      (len ≠ 0 → pages.length * size < offset + len →
        ∃ o, readLoop size pages fuel offset len = .error o) := by
  induction fuel generalizing offset len with
  | zero =>
      have hzero : len = 0 := by omega
      subst hzero
      exact ⟨fun _ => by simp [readLoop, slice], fun hne => absurd rfl hne⟩
  | succ fuel ih =>
      unfold readLoop
      by_cases hlen : len = 0
      · subst hlen
        exact ⟨fun _ => by simp [slice], fun hne => absurd rfl hne⟩
      · rw [if_neg hlen]
        have hdiv : offset / size * size + offset % size = offset := Nat.div_add_mod' offset size
        have hmod : offset % size < size := Nat.mod_lt offset hpos
        cases hpage : pages[offset / size]? with
        | none =>
            have hbeyond : pages.length ≤ offset / size := List.getElem?_eq_none_iff.1 hpage
            have hmul : pages.length * size ≤ offset / size * size :=
              Nat.mul_le_mul_right size hbeyond
            refine ⟨fun h => ?_, fun _ _ => ⟨offset, rfl⟩⟩
            omega
        | some page =>
            have hn : offset / size < pages.length := (List.getElem?_eq_some_iff.1 hpage).1
            have hmul : (offset / size + 1) * size ≤ pages.length * size :=
              Nat.mul_le_mul_right size hn
            rw [Nat.succ_mul] at hmul
            obtain ⟨toRead, htoRead⟩ : ∃ n, n = min len (size - offset % size) := ⟨_, rfl⟩
            obtain ⟨hok, herror⟩ := @ih (offset + toRead) (len - toRead) (by omega)
            simp only [← htoRead]
            constructor
            · intro h
              have hrest := hok (by omega)
              have hhead := slice_page hpages hpage (show offset % size + toRead ≤ size by omega)
              rw [hdiv] at hhead
              rw [hrest, ← hhead]
              show Except.ok (slice pages.flatten offset toRead ++
                slice pages.flatten (offset + toRead) (len - toRead)) = _
              rw [← slice_add]
              congr 2
              omega
            · intro _ hlt
              obtain ⟨o, ho⟩ := herror (by omega) (by omega)
              rw [ho]
              exact ⟨o, rfl⟩

/-- **Reading**: the bytes of the range, wherever the pages end. -/
theorem readPages_eq (hpos : 0 < size) (hpages : ∀ p ∈ pages, p.length = size)
    {offset len : Nat} (h : len = 0 ∨ offset + len ≤ pages.length * size) :
    readPages size pages offset len = .ok (slice pages.flatten offset len) :=
  (readLoop_eq hpos hpages len (Nat.le_refl len)).1 h

/-- **Reading behind the last page** fails. -/
theorem readPages_error (hpos : 0 < size) (hpages : ∀ p ∈ pages, p.length = size)
    {offset len : Nat} (hne : len ≠ 0) (h : pages.length * size < offset + len) :
    ∃ o, readPages size pages offset len = .error o :=
  (readLoop_eq hpos hpages len (Nat.le_refl len)).2 hne h

/-- Reading a part. -/
theorem readPages_part (hpos : 0 < size) {bytes part : List β} {offset : Nat}
    (h : Paged size pages bytes) (hpart : LiesAt bytes offset part) :
    readPages size pages offset part.length = .ok part := by
  have hle := hpart.length_le
  rw [h.length_eq] at hle
  rw [readPages_eq hpos h.size_eq (Or.inr hle), h.flatten_eq, hpart.slice_eq]

/-- A part on one page, seen from the page. -/
theorem Paged.drop_page {bytes part : List β} {offset : Nat} (h : Paged size pages bytes)
    (hpart : LiesAt bytes offset part) (hne : part ≠ [])
    (hlen : offset % size + part.length ≤ size) :
    ∃ page rest, pages[offset / size]? = some page ∧
      page.drop (offset % size) = part ++ rest := by
  have hpos : 0 < part.length := List.length_pos_of_ne_nil hne
  have hle := hpart.length_le
  rw [h.length_eq] at hle
  have hn : offset / size < pages.length := (Nat.div_lt_iff_lt_mul (by omega)).2 (by omega)
  have hpage := List.getElem?_eq_getElem hn
  have hslice := slice_page h.size_eq hpage hlen
  rw [Nat.div_add_mod' offset size, h.flatten_eq, hpart.slice_eq, slice] at hslice
  refine ⟨_, (pages[offset / size].drop (offset % size)).drop part.length, hpage, ?_⟩
  conv_lhs => rw [← List.take_append_drop part.length (pages[offset / size].drop (offset % size))]
  rw [← hslice]

/-! ## Patching -/

variable (size)

/-- Overwrite data that is not longer than a page, in place: on one page, or on the page
and its successor. -/
def patchPages (pages : List (List β)) (offset : Nat) (data : List β) : Option (List (List β)) :=
  if offset / size ≥ pages.length then none
  else
    let bytesOnThisPage := size - offset % size
    if bytesOnThisPage ≥ data.length then
      some (pages.modify (offset / size) fun page => overwrite page (offset % size) data)
    else if offset / size + 1 ≥ pages.length then none
    else
      some ((pages.modify (offset / size) fun page =>
          overwrite page (offset % size) (data.take bytesOnThisPage)).modify (offset / size + 1)
        fun page => overwrite page 0 (data.drop bytesOnThisPage))

variable {size}

/-- Overwriting inside of a page. -/
theorem Paged.modify {bytes : List β} (h : Paged size pages bytes) {n o : Nat}
    {data : List β} (hn : n < pages.length) (hlen : o + data.length ≤ size) :
    Paged size (pages.modify n fun page => overwrite page o data)
      (overwrite bytes (n * size + o) data) where
  size_eq := by
    intro p hp
    rw [List.modify_eq_take_cons_drop hn] at hp
    rcases List.mem_append.1 hp with hp | hp
    · exact h.size_eq p (List.mem_of_mem_take hp)
    · rcases List.mem_cons.1 hp with rfl | hp
      · have hpage := h.size_eq pages[n] (List.getElem_mem hn)
        rw [length_overwrite (by omega), hpage]
      · exact h.size_eq p (List.mem_of_mem_drop hp)
  flatten_eq := by
    have hpage := h.size_eq pages[n] (List.getElem_mem hn)
    rw [List.modify_eq_take_cons_drop hn, List.flatten_append, List.flatten_cons,
      ← List.append_assoc, ← h.flatten_eq, flatten_eq_around (List.getElem?_eq_getElem hn),
      ← length_flatten_take h.size_eq hn, overwrite_append_middle _ _ _ _ (by omega)]

/-- **Patching** overwrites the range. -/
theorem Paged.patchPages {bytes : List β} (h : Paged size pages bytes) {offset : Nat}
    {data : List β} (hne : data ≠ []) (hdata : data.length ≤ size)
    (hlen : offset + data.length ≤ bytes.length) :
    ∃ pages', patchPages size pages offset data = some pages' ∧ pages'.length = pages.length ∧
      Paged size pages' (overwrite bytes offset data) := by
  have hpos : 0 < data.length := List.length_pos_of_ne_nil hne
  have hdiv : offset / size * size + offset % size = offset := Nat.div_add_mod' offset size
  have hmod : offset % size < size := Nat.mod_lt offset (by omega)
  have htotal := h.length_eq
  have hpage : offset / size < pages.length :=
    (Nat.div_lt_iff_lt_mul (by omega)).2 (by omega)
  unfold Verified.patchPages
  rw [if_neg (Nat.not_le.2 hpage)]
  by_cases hfits : size - offset % size ≥ data.length
  · rw [if_pos hfits]
    refine ⟨_, rfl, List.length_modify _ _ _, ?_⟩
    have hmodify := h.modify hpage (show offset % size + data.length ≤ size by omega)
    rwa [hdiv] at hmodify
  · rw [if_neg hfits]
    have hnext : offset / size + 1 < pages.length := by
      have hlt : (offset / size + 1) * size < pages.length * size := by
        rw [Nat.succ_mul]
        omega
      exact Nat.lt_of_mul_lt_mul_right hlt
    rw [if_neg (Nat.not_le.2 hnext)]
    obtain ⟨k, hk⟩ : ∃ k, k = size - offset % size := ⟨_, rfl⟩
    rw [← hk]
    have htake : (data.take k).length = k := by
      rw [List.length_take]
      omega
    refine ⟨_, rfl, by rw [List.length_modify, List.length_modify], ?_⟩
    have hfirst := h.modify hpage (show offset % size + (data.take k).length ≤ size by omega)
    have hrest : 0 + (data.drop k).length ≤ size := by
      rw [List.length_drop]
      omega
    have hsecond := hfirst.modify (by rwa [List.length_modify]) hrest
    have hoffset : (offset / size + 1) * size + 0 = offset + (data.take k).length := by
      rw [Nat.succ_mul, htake]
      omega
    rw [hoffset, hdiv, overwrite_overwrite _ _ (by rw [htake]; omega),
      List.take_append_drop] at hsecond
    exact hsecond

end Pages

end PgTextsearch.Verified
