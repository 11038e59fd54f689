/-
**The argument of `tail -n` (`HW2/hw2_tail.c`).**

The command reads the number of lines with `strtol`, stores it in an `int`, and looks at `errno`, at
the byte where `strtol` has stopped, and at the sign of the `int`.  Later it adds one.

Main definitions:

* `Tail.lineNum` — the branch `case 'n'`;
* `Tail.Counts` — what is expected of an argument that is accepted.

Main results:

* `Tail.lineNum_eq_ok_iff` — **the arguments that are accepted**;
* `Tail.counts_iff` — those that are accepted and stand for the number of lines.
-/

import NetSysProg.Strtol
import NetSysProg.TailModel

set_option relaxedAutoImplicit false
set_option autoImplicit false

namespace Tail

open CString Numerals

/-- `case 'n'`: the value of `line_num`. -/
def lineNum (einval : Bool) (optarg : List Byte) : Outcome ℤ :=
  let lineNum := CInt.wrap (strtol optarg)
  if Fails einval optarg then errExit "error in strtol\n"
  else if restOf optarg ≠ [] then errExit "error in strtol: detect additional character\n"
  else if lineNum < 0 then errExit "line num must grater than 0\n"
  else .ok lineNum

/-- When the argument is accepted, it is the numeral of a number that is not negative, `line_num` is
this number, and one can be added to it. -/
def Counts (einval : Bool) (optarg : List Byte) : Prop :=
  ∀ v, lineNum einval optarg = .ok v →
    ∃ n, IsNumeral optarg n ∧ 0 ≤ n ∧ v = n ∧ v + 1 ≤ CInt.intMax

/-- **What is accepted**: the empty string, if `strtol` takes it for no error, and the numerals of a
`long` whose lower half is not negative as an `int`. -/
theorem lineNum_eq_ok_iff {einval : Bool} {optarg : List Byte} {v : ℤ} :
    lineNum einval optarg = .ok v ↔
      (optarg = [] ∧ einval = false ∧ v = 0) ∨
      ∃ n, IsNumeral optarg n ∧ longMin ≤ n ∧ n ≤ longMax ∧ 0 ≤ CInt.wrap n ∧ v = CInt.wrap n := by
  have hempty : digitsOf [] = [] := rfl
  constructor
  · intro h
    unfold lineNum at h
    dsimp only at h
    split at h
    · cases h
    · next hfails =>
        split at h
        · cases h
        · next hrest =>
            split at h
            · cases h
            · next hneg =>
                cases h
                rw [Fails, not_or, not_or, Int.not_lt, Int.not_lt] at hfails
                obtain ⟨hmin, hmax, heinval⟩ := hfails
                rw [strtol_of_mem hmin hmax] at hneg ⊢
                rcases (restOf_eq_nil_iff optarg).1 (not_not.1 hrest) with rfl | ⟨n, hn⟩
                · refine Or.inl ⟨rfl, ?_, rfl⟩
                  rw [← Bool.not_eq_true]
                  exact fun he => heinval ⟨hempty, he⟩
                · rw [hn.number_eq] at hmin hmax hneg ⊢
                  exact Or.inr ⟨n, hn, hmin, hmax, by omega, rfl⟩
  · rintro (⟨rfl, rfl, rfl⟩ | ⟨n, hn, hmin, hmax, hwrap, rfl⟩)
    · rfl
    · have hnumber := hn.number_eq
      have hfails : ¬ Fails einval optarg := by
        rintro (h | h | ⟨h, -⟩)
        · omega
        · omega
        · exact hn.digitsOf_ne_nil h
      have hrest : restOf optarg = [] := (restOf_eq_nil_iff optarg).2 (Or.inr ⟨n, hn⟩)
      have hvalue : strtol optarg = n := by
        rw [strtol_of_mem (by omega) (by omega), hnumber]
      rw [lineNum, if_neg hfails, if_neg (not_not.2 hrest), hvalue, if_neg (by omega)]

/-- **The arguments that stand for the number of lines**, if they are accepted: none is the empty
string, and a numeral is that of a number from `0` to `INT_MAX - 1`, unless it is rejected. -/
theorem counts_iff (einval : Bool) (optarg : List Byte) :
    Counts einval optarg ↔
      (optarg = [] → einval = true) ∧
        ∀ n, IsNumeral optarg n → n < longMin ∨ longMax < n ∨ CInt.wrap n < 0 ∨
          (0 ≤ n ∧ n < CInt.intMax) := by
  constructor
  · intro h
    constructor
    · rintro rfl
      by_contra heinval
      obtain ⟨n, hn, -⟩ := h 0 (lineNum_eq_ok_iff.2
        (Or.inl ⟨rfl, Bool.eq_false_iff.2 heinval, rfl⟩))
      exact hn.digitsOf_ne_nil rfl
    · intro n hn
      by_contra hnot
      simp only [not_or, Int.not_lt] at hnot
      obtain ⟨hmin, hmax, hwrap, hrange⟩ := hnot
      obtain ⟨m, hm, hpos, hv, hone⟩ := h _ (lineNum_eq_ok_iff.2
        (Or.inr ⟨n, hn, hmin, hmax, hwrap, rfl⟩))
      have hmn : m = n := hm.number_eq.symm.trans hn.number_eq
      omega
  · rintro ⟨hempty, hnumeral⟩ v hv
    rcases lineNum_eq_ok_iff.1 hv with ⟨hnil, heinval, -⟩ | ⟨n, hn, hmin, hmax, hwrap, rfl⟩
    · rw [hempty hnil] at heinval
      cases heinval
    · rcases hnumeral n hn with h | h | h | ⟨hpos, hlt⟩
      · omega
      · omega
      · omega
      · have hself := CInt.wrap_of_nonneg hpos (Int.le_of_lt hlt)
        exact ⟨n, hn, hpos, hself, by omega⟩

/-- **Three arguments that are accepted**: the empty string counts for no lines, `4294967306` for
ten, and one cannot be added to `2147483647`. -/
theorem not_counts_wrapped :
    (lineNum false [] = .ok 0 ∧ ¬ Counts false []) ∧
    (lineNum false (lit "4294967306") = .ok 10 ∧ ¬ Counts false (lit "4294967306")) ∧
    (lineNum false (lit "2147483647") = .ok 2147483647 ∧ ¬ Counts false (lit "2147483647")) := by
  have hwrapped : lineNum false (lit "4294967306") = .ok 10 := by decide
  have hlast : lineNum false (lit "2147483647") = .ok 2147483647 := by decide
  refine ⟨⟨rfl, fun h => ?_⟩, ⟨hwrapped, fun h => ?_⟩, ⟨hlast, fun h => ?_⟩⟩
  · obtain ⟨n, hn, -⟩ := h 0 rfl
    exact hn.digitsOf_ne_nil rfl
  · obtain ⟨n, hn, -, hv, -⟩ := h 10 hwrapped
    have hnumber : number (lit "4294967306") = 4294967306 := by decide
    rw [hn.number_eq] at hnumber
    omega
  · obtain ⟨n, -, -, -, hone⟩ := h 2147483647 hlast
    exact absurd hone (by decide)

end Tail
