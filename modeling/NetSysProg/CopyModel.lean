/-
**Two programs that copy a file (`HW1/hw1_cp.c` and `HW9/49_1`).**

The first reads the source in pieces and writes each of them to a destination that it has truncated.
Its comment speaks of holes, and its loop has a branch that moves the offset instead of writing; the
test of that branch compares the places of two arrays, which are never the same.  The second maps
the source and the destination, which it has given the length of the source, and copies from one
mapping to the other; a mapping of length zero is refused.

Main definitions:

* `Copy.cp` — the first program, with its calls on the destination in order;
* `Copy.mmapCp` — the second program.

Main results:

* `Copy.cp_eq` — **the first program writes every piece**, and the destination is the source;
* `Copy.mmapCp_eq`, `Copy.mmapCp_nil` — **the second program copies every source but the empty
  one**;
* `Copy.copies_agree_iff`, `Copy.keepsHoles_iff` — the exact conditions under which the two agree,
  and under which the holes of the source are skipped.
-/

import NetSysProg.ByteFile
import Mathlib.Data.List.Forall2

set_option relaxedAutoImplicit false
set_option autoImplicit false

namespace Copy

open CString ByteFile

/-! ### Reading and writing -/

/-- `READ_SIZE` -/
def readSize : ℕ := 1024

/-- A call on the destination. -/
inductive OutCall
  | write (bs : List Byte)
  | lseek (n : ℕ)
  deriving DecidableEq

/-- The destination, and the calls on it so far. -/
structure Output where
  desc : Desc
  calls : List OutCall

/-- The arrays of `main`; the comparison of two of them compares where they are. -/
inductive Local
  | buffer
  | nullCh
  deriving DecidableEq

/-- The body of the loop, for the piece that `read` has put into `buffer`. -/
def cpBody (out : Output) (piece : List Byte) : Output :=
  if Local.buffer = Local.nullCh then
    ⟨out.desc.seekCur piece.length, out.calls ++ [.lseek piece.length]⟩
  else ⟨out.desc.write piece, out.calls ++ [.write piece]⟩

/-- `main` of `hw1_cp.c`, for the results of `read` on the source and the old destination. -/
def cp (reads : List (List Byte)) (old : Option (List Byte)) : Outcome Output :=
  .ok (reads.foldl cpBody ⟨openFile true false old, []⟩)

theorem cpBody_eq (out : Output) (piece : List Byte) :
    cpBody out piece = ⟨out.desc.write piece, out.calls ++ [.write piece]⟩ := rfl

/-- The loop, from a destination that has been written up to its end. -/
theorem foldl_cpBody (reads : List (List Byte)) (c : List Byte) (calls : List OutCall) :
    reads.foldl cpBody ⟨⟨c, c.length, false⟩, calls⟩ =
      ⟨⟨c ++ reads.flatten, (c ++ reads.flatten).length, false⟩, calls ++ reads.map .write⟩ := by
  induction reads generalizing c calls with
  | nil => simp
  | cons piece reads ih =>
      rw [List.foldl_cons, cpBody_eq, Desc.write_atEnd, ih]
      simp

/-- **Every piece is written**, and the destination is the source. -/
theorem cp_eq {src : List Byte} (reads : Cut readSize src) (old : Option (List Byte)) :
    cp reads.pieces old = .ok ⟨⟨src, src.length, false⟩, reads.pieces.map .write⟩ := by
  have hloop := foldl_cpBody reads.pieces [] []
  simp only [List.nil_append, reads.flatten_eq] at hloop
  exact congrArg Outcome.ok hloop

/-! ### Mapping -/

/-- `mmap` of the first `length` bytes of a file with the given content; a length of zero is refused
with `EINVAL`. -/
def mmap (content : List Byte) (length : ℕ) : Option (List Byte) :=
  if length = 0 then none else some (content.take length)

/-- The result of a call that can fail. -/
def orExit {α : Type} (message : String) : Option α → Outcome α
  | some a => .ok a
  | none => .exit 1 message

/-- `main` of `49_1.c`, for the source and the old destination.  The destination is opened after the
source has been mapped. -/
def mmapCp (src : List Byte) (old : Option (List Byte)) : Outcome Desc := do
  let size := src.length
  let srcMap ← orExit "mmap src" (mmap src size)
  let des := (openFile false false old).ftruncate size
  let _ ← orExit "mmap des" (mmap des.content size)
  -- the second mapping is shared with the file
  return { des with content := writeAt 0 (srcMap.take size) des.content }

/-- **A source that is not empty is copied**, whatever the destination was. -/
theorem mmapCp_eq {src : List Byte} (h : src ≠ []) (old : Option (List Byte)) :
    mmapCp src old = .ok ⟨src, 0, false⟩ := by
  have hpos : src.length ≠ 0 := fun h0 => h (List.eq_nil_of_length_eq_zero h0)
  have hlen : (resize src.length (openFile false false old).content).length ≤ src.length := by
    rw [length_resize]
  simp only [mmapCp, mmap, if_neg hpos, orExit, Outcome.bind_ok, Desc.ftruncate, List.take_length,
    writeAt_zero hlen h, Outcome.pure_eq]
  rfl

/-- An empty source is refused before the destination is opened. -/
theorem mmapCp_nil (old : Option (List Byte)) : mmapCp [] old = .exit 1 "mmap src" := rfl

/-! ### The same copies -/

/-- Both programs exit successfully, and both destinations are the source. -/
def BothCopy (src : List Byte) (reads : Cut readSize src) (old : Option (List Byte)) : Prop :=
  (∃ out, cp reads.pieces old = .ok out ∧ out.desc.content = src) ∧
    ∃ des, mmapCp src old = .ok des ∧ des.content = src

/-- **The two programs agree exactly on the sources that are not empty.** -/
theorem copies_agree_iff (src : List Byte) (reads : Cut readSize src) (old : Option (List Byte)) :
    BothCopy src reads old ↔ src ≠ [] := by
  constructor
  · rintro ⟨-, des, hdes, -⟩ rfl
    rw [mmapCp_nil] at hdes
    cases hdes
  · intro h
    exact ⟨⟨_, cp_eq reads old, rfl⟩, ⟨_, mmapCp_eq h old, rfl⟩⟩

/-- An empty source has no results of `read`. -/
def noReads : Cut readSize [] := ⟨[], rfl, by simp, by simp⟩

/-- **The second program refuses an empty file**, and the destination is left as it was. -/
theorem copies_differ_empty : ¬ BothCopy [] noReads (some (lit "old")) := by
  rintro ⟨-, des, hdes, -⟩
  rw [mmapCp_nil] at hdes
  cases hdes

/-! ### Holes -/

/-- A piece of null bytes only. -/
def IsHole (piece : List Byte) : Prop := ∀ b ∈ piece, b = nul

instance (piece : List Byte) : Decidable (IsHole piece) :=
  inferInstanceAs (Decidable (∀ b ∈ piece, b = nul))

/-- The destination is the source, and each piece of null bytes is skipped. -/
def KeepsHoles (src : List Byte) (reads : Cut readSize src) (old : Option (List Byte)) : Prop :=
  ∃ out, cp reads.pieces old = .ok out ∧ out.desc.content = src ∧
    List.Forall₂ (fun piece call => IsHole piece → call = .lseek piece.length)
      reads.pieces out.calls

/-- A call for every piece, of which none is a `write` for a piece of null bytes. -/
theorem forall₂_map_write_iff (pieces : List (List Byte)) :
    List.Forall₂ (fun piece call => IsHole piece → call = OutCall.lseek piece.length) pieces
      (pieces.map .write) ↔ ∀ piece ∈ pieces, ¬ IsHole piece := by
  rw [List.forall₂_map_right_iff, List.forall₂_same]
  refine forall₂_congr fun piece _ => ?_
  simp only [reduceCtorEq, imp_false]

/-- **The holes are kept exactly if there are none.** -/
theorem keepsHoles_iff (src : List Byte) (reads : Cut readSize src) (old : Option (List Byte)) :
    KeepsHoles src reads old ↔ ∀ piece ∈ reads.pieces, ¬ IsHole piece := by
  rw [← forall₂_map_write_iff]
  constructor
  · rintro ⟨out, hout, -, hcalls⟩
    rw [cp_eq] at hout
    cases hout
    exact hcalls
  · intro hcalls
    exact ⟨_, cp_eq reads old, rfl, hcalls⟩

/-- Two null bytes, read at once. -/
def nullRead : Cut readSize [nul, nul] := ⟨[[nul, nul]], rfl, by simp, by simp [readSize]⟩

/-- **A hole is written.** -/
theorem not_keepsHoles_nullRead : ¬ KeepsHoles [nul, nul] nullRead none := by
  rintro ⟨out, hout, -, hcalls⟩
  rw [cp_eq] at hout
  cases hout
  have hhole := (forall₂_map_write_iff nullRead.pieces).1 hcalls [nul, nul]
    (List.mem_singleton_self _)
  refine hhole fun b hb => ?_
  simpa using hb

end Copy
