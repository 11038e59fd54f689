/-
**`tee` (`HW1/hw1_tee.c`).**

`tee` reads its standard input once and writes what it got to its standard output and to the files
that it is given, which it opens one after the other, truncated or, with `-a`, at their ends.  Two
arguments can name the same file.

Main definitions:

* `Tee.getopt` — the options, and the arguments behind them;
* `Tee.tee` — the standard output and the files at the end;
* `Tee.CopiesAll` — each output has received the whole input.

Main results:

* `Tee.foldl_teeFile` — **what each file contains in the end**;
* `Tee.copiesAll_iff` — the exact condition under which the whole input is copied.
-/

import NetSysProg.ByteFile
import Mathlib.Data.List.Nodup
import Mathlib.Logic.Function.Basic

set_option relaxedAutoImplicit false
set_option autoImplicit false

namespace Tee

open CString ByteFile

/-! ### The program -/

/-- `READ_BUF` -/
def readBuf : ℕ := 1024

/-- `getopt(argc, argv, "+a")` until it returns `-1`: whether `-a` is among the options, and the
arguments from `optind` on.  It stops at the first argument that is no option; options that it does
not know change nothing. -/
def getopt : List (List Byte) → Bool × List (List Byte)
  | [] => (false, [])
  | arg :: args =>
      if arg = lit "--" then (false, args)
      else
        match arg with
        | 45 :: c :: cs =>
            let r := getopt args
            (decide ((97 : Byte) ∈ c :: cs) || r.1, r.2)
        | _ => (false, arg :: args)

section

variable {ι : Type*} [DecidableEq ι]

/-- `open`, `write` and `close` of one file, for the bytes that have been read. -/
def teeFile (append : Bool) (got : List Byte) (fs : ι → Option (List Byte)) (i : ι) :
    ι → Option (List Byte) :=
  Function.update fs i (some ((openFile (!append) append (fs i)).write got).content)

/-- `main`: what is written to the standard output, and the files at the end.  The name of a file
leads to it through `inode`, and every file can be opened. -/
def tee (argv : List (List Byte)) (reads : List (List Byte)) (inode : List Byte → ι)
    (fs : ι → Option (List Byte)) : List Byte × (ι → Option (List Byte)) :=
  let opts := getopt argv
  -- one call of `read`
  let got := reads.headD []
  (got, (opts.2.map inode).foldl (teeFile opts.1 got) fs)

/-! ### The files at the end -/

theorem teeFile_self (append : Bool) (got : List Byte) (fs : ι → Option (List Byte)) (i : ι) :
    teeFile append got fs i i = some (if append then (fs i).getD [] ++ got else got) := by
  rw [teeFile, Function.update_self, openFile_write]

theorem teeFile_of_ne (append : Bool) (got : List Byte) (fs : ι → Option (List Byte)) {i j : ι}
    (h : j ≠ i) : teeFile append got fs i j = fs j := by
  rw [teeFile, Function.update_of_ne h]

/-- What is in a file that has been named `n` times. -/
def after (append : Bool) (got : List Byte) (n : ℕ) (old : Option (List Byte)) :
    Option (List Byte) :=
  if n = 0 then old
  else some (if append then old.getD [] ++ (List.replicate n got).flatten else got)

/-- **What each file contains in the end.** -/
theorem foldl_teeFile (append : Bool) (got : List Byte) (is : List ι) (fs : ι → Option (List Byte))
    (j : ι) : is.foldl (teeFile append got) fs j = after append got (is.count j) (fs j) := by
  induction is generalizing fs with
  | nil => rfl
  | cons i is ih =>
      rw [List.foldl_cons, ih]
      by_cases h : i = j
      · subst h
        rw [teeFile_self, List.count_cons_self, after, after, if_neg (Nat.succ_ne_zero _)]
        cases append with
        | true =>
            simp only [if_true, Option.getD_some, List.replicate_succ, List.flatten_cons,
              List.append_assoc]
            split
            · next hcount => simp [hcount]
            · rfl
        | false => simp
      · rw [teeFile_of_ne _ _ _ (Ne.symm h), List.count_cons_of_ne h]

/-! ### The whole input -/

/-- The standard output has received the input, and each file that is named contains it, behind what
it contained before if `-a` is given. -/
def CopiesAll (argv : List (List Byte)) (input : List Byte) (reads : Cut readBuf input)
    (inode : List Byte → ι) (fs : ι → Option (List Byte)) : Prop :=
  let r := tee argv reads.pieces inode fs
  r.1 = input ∧
    ∀ name ∈ (getopt argv).2, r.2 (inode name) =
      some (if (getopt argv).1 then (fs (inode name)).getD [] ++ input else input)

/-- When a file contains what it should, for an input that was read at once. -/
theorem after_eq_iff {append : Bool} {input : List Byte} {n : ℕ} (hn : 0 < n)
    (old : Option (List Byte)) :
    after append input n old = some (if append then old.getD [] ++ input else input) ↔
      append = false ∨ input = [] ∨ n = 1 := by
  rw [after, if_neg (Nat.ne_of_gt hn)]
  cases append with
  | false => simp
  | true =>
      simp only [if_true, Option.some.injEq, List.append_cancel_left_eq,
        Bool.true_eq_false, false_or]
      constructor
      · intro h
        have hlen := congrArg List.length h
        rw [List.length_flatten, List.map_replicate, List.sum_replicate_nat] at hlen
        rcases Nat.eq_zero_or_pos input.length with h0 | hpos
        · exact Or.inl (List.eq_nil_of_length_eq_zero h0)
        · exact Or.inr (Nat.eq_of_mul_eq_mul_right hpos (hlen.trans (Nat.one_mul _).symm))
      · rintro (rfl | rfl)
        · simp
        · simp

/-- Every file is named once. -/
theorem forall_count_eq_one_iff (is : List ι) : (∀ i ∈ is, is.count i = 1) ↔ is.Nodup := by
  rw [List.nodup_iff_count_le_one]
  constructor
  · intro h i
    by_cases hi : i ∈ is
    · exact Nat.le_of_eq (h i hi)
    · rw [List.count_eq_zero_of_not_mem hi]
      exact Nat.zero_le 1
  · intro h i hi
    exact Nat.le_antisymm (h i) (List.count_pos_iff.2 hi)

/-- **When the whole input is copied**: if one `read` returns it, and if, with `-a`, no file that
bytes are appended to is named twice. -/
theorem copiesAll_iff (argv : List (List Byte)) (input : List Byte) (reads : Cut readBuf input)
    (inode : List Byte → ι) (fs : ι → Option (List Byte)) :
    CopiesAll argv input reads inode fs ↔
      reads.pieces.length ≤ 1 ∧
      ((getopt argv).1 = false ∨ input = [] ∨ ((getopt argv).2.map inode).Nodup) := by
  simp only [CopiesAll, tee]
  rw [← reads.length_le_one_iff]
  refine and_congr_right fun hgot => ?_
  have hfile : ∀ name ∈ (getopt argv).2,
      ((getopt argv).2.map inode).foldl (teeFile (getopt argv).1 (reads.pieces.headD [])) fs
          (inode name) = some (if (getopt argv).1 then
            (fs (inode name)).getD [] ++ input else input) ↔
        (getopt argv).1 = false ∨ input = [] ∨
          ((getopt argv).2.map inode).count (inode name) = 1 := by
    intro name hname
    rw [foldl_teeFile, hgot]
    exact after_eq_iff (List.count_pos_iff.2 (List.mem_map_of_mem hname)) _
  rw [forall₂_congr hfile, ← forall_count_eq_one_iff, List.forall_mem_map]
  by_cases happend : (getopt argv).1 = false
  · simp [happend]
  · by_cases hinput : input = []
    · simp [hinput]
    · simp [happend, hinput]

/-- The lines `a` and `b`, read one after the other. -/
def twoReads : Cut readBuf (lit "a\nb\n") :=
  ⟨[lit "a\n", lit "b\n"], by decide, by decide, by decide⟩

/-- **The second of two lines is lost.** -/
theorem not_copiesAll_twoReads :
    ¬ CopiesAll [lit "f"] (lit "a\nb\n") twoReads id (fun _ => none) := by
  rintro ⟨hout, -⟩
  revert hout
  decide

end

end Tee
