/-
**Regular files under `open`, `read`, `write`, `lseek` and `ftruncate`.**

A file is a list of bytes.  A descriptor of it has an offset, at which `write` puts its bytes,
unless it was opened with `O_APPEND`: then they go to the end.  Where a write or a new length leaves
a gap, the gap reads as null bytes.  What `read` returns from a stream is a sequence of pieces, none
of them empty or longer than asked for, that make up the stream.

Main definitions:

* `ByteFile.resize`, `ByteFile.writeAt` — a new length, and bytes at an offset;
* `ByteFile.Desc`, `ByteFile.openFile`, `ByteFile.Desc.write`, `ByteFile.Desc.seekCur`;
* `ByteFile.Cut` — the results of `read` on a stream.

Main results:

* `ByteFile.writeAt_length` — **writing at the end appends**;
* `ByteFile.writeAt_zero` — writing over a file of the same length;
* `ByteFile.Cut.length_le_one_iff` — when the first result is the whole stream.
-/

import NetSysProg.CString

set_option relaxedAutoImplicit false
set_option autoImplicit false

namespace ByteFile

open CString

/-! ### Contents -/

/-- The content with the length `n`. -/
def resize (n : ℕ) (c : List Byte) : List Byte := c.take n ++ List.replicate (n - c.length) nul

/-- The content after the bytes `bs` have been written at the offset `off`. -/
def writeAt (off : ℕ) (bs c : List Byte) : List Byte :=
  if bs = [] then c else resize off c ++ bs ++ c.drop (off + bs.length)

theorem length_resize (n : ℕ) (c : List Byte) : (resize n c).length = n := by
  rw [resize, List.length_append, List.length_take, List.length_replicate]
  omega

theorem resize_length (c : List Byte) : resize c.length c = c := by
  rw [resize, List.take_length, Nat.sub_self, List.replicate_zero, List.append_nil]

/-- **Writing at the end appends.** -/
theorem writeAt_length (bs c : List Byte) : writeAt c.length bs c = c ++ bs := by
  unfold writeAt
  split
  · next h => rw [h, List.append_nil]
  · rw [resize_length, List.drop_eq_nil_of_le (Nat.le_add_right _ _), List.append_nil]

/-- Writing over the whole of a file. -/
theorem writeAt_zero {bs c : List Byte} (h : c.length ≤ bs.length) (hne : bs ≠ []) :
    writeAt 0 bs c = bs := by
  rw [writeAt, if_neg hne, Nat.zero_add, List.drop_eq_nil_of_le h, List.append_nil, resize,
    List.take_zero, Nat.zero_sub, List.replicate_zero, List.nil_append, List.nil_append]

/-! ### Descriptors -/

/-- A descriptor of a file, with the content of the file. -/
structure Desc where
  content : List Byte
  offset : ℕ
  append : Bool

/-- `open` with `O_CREAT`, for a file with the given content or none: with `O_TRUNC`, with
`O_APPEND`. -/
def openFile (trunc append : Bool) (old : Option (List Byte)) : Desc :=
  ⟨if trunc then [] else old.getD [], 0, append⟩

namespace Desc

/-- `write` -/
def write (d : Desc) (bs : List Byte) : Desc :=
  let off := if d.append then d.content.length else d.offset
  { d with content := writeAt off bs d.content, offset := off + bs.length }

/-- `lseek` with `SEEK_CUR`, forward. -/
def seekCur (d : Desc) (n : ℕ) : Desc := { d with offset := d.offset + n }

/-- `ftruncate` -/
def ftruncate (d : Desc) (n : ℕ) : Desc := { d with content := resize n d.content }

/-- Writing at the end of a file that has been written from its start. -/
theorem write_atEnd (c bs : List Byte) (append : Bool) :
    write ⟨c, c.length, append⟩ bs = ⟨c ++ bs, (c ++ bs).length, append⟩ := by
  simp only [write, ite_self, writeAt_length, List.length_append]

end Desc

/-- One `write` to a file that has just been opened with `O_TRUNC` or with `O_APPEND`. -/
theorem openFile_write (append : Bool) (old : Option (List Byte)) (bs : List Byte) :
    ((openFile (!append) append old).write bs).content =
      if append then old.getD [] ++ bs else bs := by
  cases append with
  | true => exact writeAt_length bs (old.getD [])
  | false => exact (writeAt_length bs []).trans (List.nil_append bs)

/-! ### What `read` returns -/

/-- The results that are not empty of calls of `read` for `size` bytes, on the stream `bs`. -/
structure Cut (size : ℕ) (bs : List Byte) where
  pieces : List (List Byte)
  flatten_eq : pieces.flatten = bs
  ne_nil : ∀ c ∈ pieces, c ≠ []
  length_le : ∀ c ∈ pieces, c.length ≤ size

namespace Cut

variable {size : ℕ} {bs : List Byte}

/-- The first result is everything exactly if there is no second one. -/
theorem length_le_one_iff (cut : Cut size bs) :
    cut.pieces.headD [] = bs ↔ cut.pieces.length ≤ 1 := by
  obtain ⟨pieces, rfl, hne, -⟩ := cut
  cases pieces with
  | nil => simp
  | cons c cs =>
      cases cs with
      | nil => simp
      | cons c' cs =>
          refine iff_of_false (fun h => ?_) (by simp)
          have hpos : 0 < c'.length := List.length_pos_iff.2 (hne c' (by simp))
          have hlen := congrArg List.length h
          simp only [List.headD_cons, List.flatten_cons, List.length_append] at hlen
          omega

end Cut

end ByteFile
