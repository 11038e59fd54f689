/-
**The dictionary of fixed-length records (`HW5/part3`).**

`convert.c` turns a text of words, each followed by the lines of its definition and a blank line,
into a file of records of `WORD + TEXT` bytes; `lookup1.c` searches such a file from its top for a
word.  The two programs share the header `dict.h` and no code: `convert` pads both fields of a
record with null bytes and marks the end of a definition by one more newline, and `lookup` finds its
way by reading lines and seeking relative to what it has read.

The buffers are the `char` arrays of the source, so that a store outside of one has no defined
meaning; what a local array contains before anything is stored in it is an argument.  The loops are
driven by the input, and the first argument of each bounds the number of iterations.

Main definitions:

* `Dict.Dictrec` — a record;
* `Dict.convert` — the main reading loop of `convert.c`, from the opened input to the file written;
* `Dict.lookup` — the search, with the two `static` variables as its state.
-/

import NetSysProg.Stdio

set_option relaxedAutoImplicit false
set_option autoImplicit false

namespace Dict

open CString Stdio

def WORD : ℕ := 32

def TEXT : ℕ := 480

def BIGLINE : ℕ := 512

theorem sizes : WORD = 32 ∧ TEXT = 480 ∧ BIGLINE = 512 := ⟨rfl, rfl, rfl⟩

/-- `Dictrec`, the fields being arrays of `WORD` and of `TEXT` bytes. -/
structure Dictrec where
  word : List Byte
  text : List Byte
  deriving DecidableEq

/-- Both fields filled with null bytes. -/
def blank : Dictrec := ⟨List.replicate WORD nul, List.replicate TEXT nul⟩

/-! ### `convert.c` -/

/-- The inner loop: the lines up to a blank one go to `text`, from `count` on. -/
def defLoop : ℕ → Stream → List Byte → List Byte → ℕ →
    Outcome (Stream × List Byte × List Byte × ℕ)
  | 0, _, _, _, _ => .timeout
  | fuel + 1, input, line, text, count =>
      if line.head? = some newline then .ok (input, line, text, count)
      else do
        let s ← str line
        let text ← copyAt text count s
        -- at the end of the file the buffer still holds the line before
        let r := fgets BIGLINE line input
        defLoop fuel r.stream r.buf text (count + s.length)

/-- The main reading loop; `out` is what has been written. -/
def convertLoop : ℕ → Stream → List Byte → Dictrec → List Byte → Outcome (List Byte)
  | 0, _, _, _, _ => .timeout
  | fuel + 1, input, line, dr, out =>
      if feof input then .ok out
      else
        let r := fgets BIGLINE line input
        if r.buf.head? = some newline then convertLoop fuel r.stream r.buf dr out
        else do
          let s ← str r.buf
          let word ← copyAt dr.word 0 s
          let r := fgets BIGLINE r.buf r.stream
          let (input, line, text, count) ← defLoop fuel r.stream r.buf dr.text 0
          let text ← store text count newline
          convertLoop fuel input line blank (out ++ (word ++ text))

/-- `convert` once both files are open: the file it writes.  `line` is what the array of that name
contains at the start. -/
def convert (fuel : ℕ) (line content : List Byte) : Outcome (List Byte) :=
  convertLoop fuel (fopen content) line blank []

/-! ### `lookup1.c` -/

/-- `FOUND` and `NOTFOUND`. -/
inductive Status
  | found
  | notFound
  deriving DecidableEq

/-- The `static` variables `first_time` and `in` of `lookup`. -/
structure Statics where
  firstTime : Bool
  input : Option Stream

/-- Their values before the first call. -/
def Statics.initial : Statics := ⟨true, none⟩

/-- The lines up to one that starts with a newline are appended to `text`. -/
def collectLoop : ℕ → Stream → List Byte → List Byte → Outcome (Stream × List Byte)
  | 0, _, _, _ => .timeout
  | fuel + 1, input, line, text =>
      if line.head? = some newline then .ok (input, text)
      else do
        let text ← strcat text line
        let r := fgets BIGLINE line input
        collectLoop fuel r.stream r.buf text

/-- The branch of the search for a word that is the one sought: its definition goes to `text`. -/
def readText (fuel : ℕ) (input : Stream) (line : List Byte) (sought : Dictrec) :
    Outcome (Status × Dictrec × Stream) := do
  let len ← strlen line
  let r := fgets BIGLINE line (fseekCur input ((WORD : ℤ) - len - 1))
  let (input, text) ← collectLoop fuel r.stream r.buf sought.text
  -- the last newline is removed
  let find ← Outcome.deref (← strrchr text newline)
  let text ← store text find nul
  return (.found, { sought with text := text }, input)

/-- The search through the file. -/
def searchLoop : ℕ → Stream → List Byte → Dictrec → Outcome (Status × Dictrec × Stream)
  | 0, _, _, _ => .timeout
  | fuel + 1, input, line, sought =>
      let r := fgets BIGLINE line input
      if r.nonNull then do
        let line ← store r.buf (← strcspn r.buf newline) nul
        let result ← strcmp line sought.word
        if result = 0 then readText fuel r.stream line sought
        else do
          let len ← strlen line
          searchLoop fuel (fseekCur r.stream ((WORD + TEXT : ℕ) - len - 1)) line sought
      else return (.notFound, sought, r.stream)

/-- The stream that a call of `lookup` searches; the first call opens it.  `file` is what there is
under the name `resource`. -/
def openInput (resource : String) (file : Option (List Byte)) (statics : Statics) :
    Outcome Stream :=
  if statics.firstTime then
    match file with
    | some content => .ok (fopen content)
    | none => .exit 1 resource
  else Outcome.deref statics.input

/-- `lookup`.  `line` is what the array of that name contains at the start. -/
def lookup (fuel : ℕ) (resource : String) (file : Option (List Byte)) (line : List Byte)
    (statics : Statics) (sought : Dictrec) : Outcome (Status × Dictrec × Statics) := do
  let input ← openInput resource file statics
  let sought := { sought with text := List.replicate TEXT nul }
  let (status, sought, input) ← searchLoop fuel (rewind input) line sought
  return (status, sought, ⟨false, some input⟩)

/-- A sequence of calls of `lookup`: for each its argument and what `line` contains at its start. -/
def lookups (fuel : ℕ) (resource : String) (file : Option (List Byte)) :
    Statics → List (Dictrec × List Byte) → Outcome (List (Status × Dictrec))
  | _, [] => .ok []
  | statics, (sought, line) :: calls => do
      let (status, sought, statics) ← lookup fuel resource file line statics sought
      let answers ← lookups fuel resource file statics calls
      return (status, sought) :: answers

end Dict
