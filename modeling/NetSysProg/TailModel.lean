/-
**The `tail` command (`HW2/hw2_tail.c`).**

The command prints the last lines of a file.  It reads the file backwards in blocks of `BUF_SIZE`
bytes, counts newlines from the end of each block to its start, and adds up in `offset` how far it
has got; when it has seen one newline more than there are lines to print it seeks to `offset` bytes
before the end and copies the rest of the file to its output.

The model starts behind the scan of the options, with the number of lines and the content of the
file.  A read returns all bytes asked for up to the end of the file, and a write writes all it is
given.  `int` arithmetic wraps around in 32 bits.  Both loops take a bound on the number of
iterations.

Main definitions:

* `Tail.Fd` — the open file, with the targets of the seeks made so far;
* `Tail.countLoop` — the inner loop over one block;
* `Tail.scanLoop`, `Tail.scanFile` — the backward scan;
* `Tail.tail` — the whole command, with what it writes.
-/

import NetSysProg.CInt
import NetSysProg.CString

set_option relaxedAutoImplicit false
set_option autoImplicit false

namespace Tail

open CString

def BUF_SIZE : ℕ := 4096

/-- `errExit`: the message goes to the standard error output. -/
def errExit {α : Type} (message : String) : Outcome α := .exit 1 message

/-! ### The open file -/

structure Fd where
  content : List Byte
  pos : ℕ
  /-- The targets of all seeks, also of those that have failed. -/
  seeks : List ℤ
  deriving DecidableEq

/-- The origin of a seek. -/
inductive Whence
  | cur
  | fromEnd

/-- The position that a seek asks for. -/
def Fd.target (fd : Fd) (offset : ℤ) : Whence → ℤ
  | .cur => fd.pos + offset
  | .fromEnd => fd.content.length + offset

/-- `lseek`; a position before the start of the file is refused, and the command then ends with the
message. -/
def lseek (fd : Fd) (offset : ℤ) (whence : Whence) (message : String) : Outcome Fd :=
  let t := fd.target offset whence
  if t < 0 then errExit message else .ok { fd with pos := t.toNat, seeks := t :: fd.seeks }

/-- The bytes that `read` puts into the buffer. -/
def Fd.readBytes (fd : Fd) : List Byte := (fd.content.drop fd.pos).take BUF_SIZE

/-- The file after `read`. -/
def Fd.afterRead (fd : Fd) : Fd := { fd with pos := fd.pos + fd.readBytes.length }

/-! ### The scan -/

/-- The inner loop from index `i` down to index `1`: `line_count` and `offset` after it. -/
def countLoop (buffer : List Byte) (lineNum : ℕ) : ℕ → ℕ → ℤ → ℕ × ℤ
  | 0, lineCount, offset => (lineCount, offset)
  | i + 1, lineCount, offset =>
      let lineCount := if buffer[i + 1]? = some newline then lineCount + 1 else lineCount
      if lineCount = lineNum then
        (lineCount, CInt.wrap (offset + ((buffer.length : ℤ) - (i + 1 : ℕ))))
      else countLoop buffer lineNum i lineCount offset

/-- The variables of the backward scan. -/
structure Scan where
  fd : Fd
  lineCount : ℕ
  offset : ℤ
  seekSize : ℤ
  deriving DecidableEq

/-- `(BUF_SIZE < cur) ? (seek_size = BUF_SIZE) : (seek_size = cur)` -/
def seekSizeOf (cur : ℕ) : ℤ := if BUF_SIZE < cur then BUF_SIZE else CInt.wrap cur

/-- The backward scan. -/
def scanLoop (lineNum fileSize : ℕ) : ℕ → Scan → Outcome Scan
  | 0, _ => .timeout
  | fuel + 1, s =>
      if s.lineCount < lineNum then do
        let buffer := s.fd.readBytes
        let fd := s.fd.afterRead
        let (lineCount, offset) :=
          countLoop buffer lineNum (buffer.length - 1) s.lineCount s.offset
        if lineCount = lineNum then
          return ⟨fd, lineCount, CInt.wrap (offset - 1), s.seekSize⟩
        else if buffer.length < BUF_SIZE then
          return ⟨fd, lineCount, CInt.wrap fileSize, s.seekSize⟩
        else do
          let offset := CInt.wrap (offset + s.seekSize)
          let fd ← lseek fd (CInt.wrap (-1 * s.seekSize)) .cur
            "error when lseek (back to cur before read)\n"
          let seekSize := seekSizeOf fd.pos
          let fd ← lseek fd (CInt.wrap (-1 * seekSize)) .cur
            "error when lseek (read next part from end)\n"
          scanLoop lineNum fileSize fuel ⟨fd, lineCount, offset, seekSize⟩
      else return s

/-- From the opened file to the end of the backward scan; `line_num` is one more than the number of
lines to print. -/
def scanFile (fuel n : ℕ) (content : List Byte) : Outcome Scan := do
  let fd ← lseek ⟨content, 0, []⟩ 0 .fromEnd "error when lseek\n"
  let fileSize := fd.pos
  let seekSize := seekSizeOf fileSize
  let fd ← lseek fd (CInt.wrap (-1 * seekSize)) .fromEnd "error when calling lseek\n"
  scanLoop (n + 1) fileSize fuel ⟨fd, 0, 0, seekSize⟩

/-- Copying the rest of the file; `out` is what has been written. -/
def copyLoop : ℕ → Fd → List Byte → Outcome (List Byte)
  | 0, _, _ => .timeout
  | fuel + 1, fd, out =>
      if 0 < fd.readBytes.length then copyLoop fuel fd.afterRead (out ++ fd.readBytes)
      else .ok out

/-- The command: what it writes to its standard output. -/
def tail (fuel n : ℕ) (content : List Byte) : Outcome (List Byte) := do
  let s ← scanFile fuel n content
  let fd ← lseek s.fd (CInt.wrap (-1 * s.offset)) .fromEnd "error when lseek (print to stdout)\n"
  copyLoop fuel fd []

end Tail
