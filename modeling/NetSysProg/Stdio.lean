/-
**Reading a file through `stdio`.**

An open stream is the content of the file, a position in it and the end-of-file indicator.  `fgets`
reads up to the end of a line or until its buffer is full; it sets the indicator only when it looks
for a byte and finds none, and when there is nothing to read it leaves the buffer as it was.  No
read from a file fails here.

Main definitions:

* `Stdio.Stream`, `Stdio.fopen`, `Stdio.rewind`, `Stdio.fseekCur`, `Stdio.fgets`;
* `Stdio.Stream.rest` — what is left to be read.

Main results:

* `Stdio.fgets_line` — **a whole line is read** when it fits into the buffer;
* `Stdio.fgets_end` — at the end of the file nothing is read;
* `Stdio.fseekCur_advance` — a relative seek after reading.
-/

import NetSysProg.CString

set_option relaxedAutoImplicit false
set_option autoImplicit false

namespace Stdio

open CString

structure Stream where
  content : List Byte
  pos : ℕ
  eof : Bool

/-- A file that has just been opened for reading. -/
def fopen (content : List Byte) : Stream := ⟨content, 0, false⟩

namespace Stream

/-- The bytes that have not been read yet. -/
def rest (s : Stream) : List Byte := s.content.drop s.pos

/-- The position `k` bytes further. -/
def advance (s : Stream) (k : ℕ) : Stream := { s with pos := s.pos + k }

@[simp] theorem advance_eof (s : Stream) (k : ℕ) : (s.advance k).eof = s.eof := rfl

@[simp] theorem advance_content (s : Stream) (k : ℕ) : (s.advance k).content = s.content := rfl

@[simp] theorem advance_advance (s : Stream) (k l : ℕ) :
    (s.advance k).advance l = s.advance (k + l) := by
  simp only [advance, Nat.add_assoc]

theorem rest_advance {s : Stream} {l t : List Byte} (h : s.rest = l ++ t) :
    (s.advance l.length).rest = t := by
  rw [rest, advance, ← List.drop_drop, ← rest, h, List.drop_left]

end Stream

def feof (s : Stream) : Bool := s.eof

def rewind (s : Stream) : Stream := { s with pos := 0, eof := false }

/-- `fseek` with `SEEK_CUR`; a position before the start of the file is refused. -/
def fseekCur (s : Stream) (offset : ℤ) : Stream :=
  if s.pos + offset < 0 then s
  else { s with pos := (s.pos + offset).toNat, eof := false }

/-- The bytes up to the end of the first line, and no more than `n`. -/
def lineUpTo : ℕ → List Byte → List Byte
  | 0, _ => []
  | _ + 1, [] => []
  | n + 1, b :: bs => if b = newline then [b] else b :: lineUpTo n bs

/-- What a call of `fgets` leaves behind: whether its result is not null, the buffer and the
stream. -/
structure Gets where
  nonNull : Bool
  buf : List Byte
  stream : Stream

/-- `fgets` with a buffer of `size ≥ 2` bytes. -/
def fgets (size : ℕ) (buf : List Byte) (s : Stream) : Gets :=
  let got := lineUpTo (size - 1) s.rest
  -- neither a full buffer nor the end of a line stopped it
  let hitEnd := decide (got.length < size - 1 ∧ got.getLast? ≠ some newline)
  let s' := { s with pos := s.pos + got.length, eof := s.eof || hitEnd }
  if got = [] then ⟨false, buf, s'⟩ else ⟨true, got ++ nul :: buf.drop (got.length + 1), s'⟩

theorem lineUpTo_nil (n : ℕ) : lineUpTo n [] = [] := by
  cases n <;> rfl

/-- Bytes without a newline are read as far as there is room. -/
theorem lineUpTo_append {n : ℕ} {l : List Byte} (hl : newline ∉ l) (t : List Byte)
    (hn : l.length ≤ n) : lineUpTo n (l ++ t) = l ++ lineUpTo (n - l.length) t := by
  induction l generalizing n with
  | nil => rfl
  | cons b l ih =>
      rw [List.mem_cons, not_or] at hl
      rw [List.length_cons] at hn
      obtain ⟨m, rfl⟩ : ∃ m, n = m + 1 := ⟨n - 1, by omega⟩
      rw [List.cons_append, lineUpTo, if_neg (Ne.symm hl.1), ih hl.2 (by omega), List.length_cons,
        Nat.add_sub_add_right, List.cons_append]

theorem lineUpTo_line {n : ℕ} {l : List Byte} (hl : newline ∉ l) (hn : l.length < n)
    (t : List Byte) : lineUpTo n (l ++ newline :: t) = l ++ [newline] := by
  obtain ⟨k, rfl⟩ := Nat.exists_eq_add_of_lt hn
  rw [lineUpTo_append hl _ hn.le, Nat.add_assoc, Nat.add_sub_cancel_left, lineUpTo, if_pos rfl]

/-- A buffer that is full before the line ends. -/
theorem lineUpTo_long {n : ℕ} {l : List Byte} (hl : newline ∉ l) (hn : n ≤ l.length)
    (t : List Byte) :
    lineUpTo n (l ++ t) = l.take n := by
  have htake : newline ∉ l.take n := fun h => hl (List.mem_of_mem_take h)
  have hlen : (l.take n).length = n := List.length_take_of_le hn
  have hsplit : l ++ t = l.take n ++ (l.drop n ++ t) := by
    rw [← List.append_assoc, List.take_append_drop]
  rw [hsplit, lineUpTo_append htake _ hlen.le, hlen, Nat.sub_self, lineUpTo, List.append_nil]

/-- A line without a newline at its end. -/
theorem lineUpTo_short {n : ℕ} {l : List Byte} (hl : newline ∉ l) (hn : l.length ≤ n) :
    lineUpTo n l = l := by
  have happend := lineUpTo_append hl [] hn
  rwa [lineUpTo_nil, List.append_nil] at happend

/-- What is read is what comes first. -/
theorem lineUpTo_prefix_take (n : ℕ) (bs : List Byte) : lineUpTo n bs <+: bs.take n := by
  induction n generalizing bs with
  | zero => exact List.nil_prefix
  | succ n ih =>
      cases bs with
      | nil => exact List.nil_prefix
      | cons b bs =>
          rw [lineUpTo, List.take_succ_cons]
          split
          · exact List.cons_prefix_cons.2 ⟨rfl, List.nil_prefix⟩
          · exact List.cons_prefix_cons.2 ⟨rfl, ih bs⟩

theorem length_lineUpTo_le (n : ℕ) (bs : List Byte) : (lineUpTo n bs).length ≤ min n bs.length := by
  rw [← List.length_take]
  exact (lineUpTo_prefix_take n bs).length_le

/-- **`fgets` reads a whole line** together with its newline when both fit into the buffer. -/
theorem fgets_line {size : ℕ} {s : Stream} {l t : List Byte} (h : s.rest = l ++ newline :: t)
    (hl : newline ∉ l) (hs : l.length + 1 < size) (buf : List Byte) :
    fgets size buf s =
      ⟨true, l ++ newline :: nul :: buf.drop (l.length + 2), s.advance (l.length + 1)⟩ := by
  have hgot : lineUpTo (size - 1) s.rest = l ++ [newline] := by
    rw [h, lineUpTo_line hl (by omega)]
  simp [fgets, hgot, Stream.advance]

/-- **A last line without a newline** is read up to the end of the file. -/
theorem fgets_last {size : ℕ} {s : Stream} {l : List Byte} (h : s.rest = l) (hl : newline ∉ l)
    (hne : l ≠ []) (hs : l.length + 1 < size) (buf : List Byte) :
    fgets size buf s =
      ⟨true, l ++ nul :: buf.drop (l.length + 1), { s.advance l.length with eof := true }⟩ := by
  have hgot : lineUpTo (size - 1) s.rest = l := by
    rw [h, lineUpTo_short hl (by omega)]
  have hlast : l.getLast? ≠ some newline := fun h' => hl (List.mem_of_getLast? h')
  have hlen : l.length < size - 1 := by omega
  simp [fgets, hgot, hne, hlast, hlen, Stream.advance]

/-- **At the end of the file** `fgets` leaves the buffer as it is. -/
theorem fgets_end {size : ℕ} {s : Stream} (h : s.rest = []) (hs : 1 < size) (buf : List Byte) :
    fgets size buf s = ⟨false, buf, { s with eof := true }⟩ := by
  have hgot : lineUpTo (size - 1) s.rest = [] := by
    obtain ⟨n, hn⟩ : ∃ n, size - 1 = n + 1 := ⟨size - 2, by omega⟩
    rw [h, hn, lineUpTo]
  simp only [fgets, hgot]
  simp
  omega

theorem length_line_buffer {l buf : List Byte} (h : l.length + 2 ≤ buf.length) :
    (l ++ newline :: nul :: buf.drop (l.length + 2)).length = buf.length := by
  simp only [List.length_append, List.length_cons, List.length_drop]
  omega

/-- A seek that ends `b` bytes after the position from which `a` bytes were read. -/
theorem fseekCur_advance {s : Stream} {a b : ℕ} {offset : ℤ} (h : s.eof = false)
    (hab : (a : ℤ) + offset = b) : fseekCur (s.advance a) offset = s.advance b := by
  have hpos : ((s.advance a).pos : ℤ) + offset = (s.pos + b : ℕ) := by
    simp only [Stream.advance]
    push_cast
    omega
  rw [fseekCur, hpos, if_neg (by omega), Int.toNat_natCast]
  simp only [Stream.advance, h]

end Stdio
