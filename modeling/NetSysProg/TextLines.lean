/-
**The lines of a text.**

A line is a maximal run of symbols that ends with the separator, or the rest of the text behind the
last separator when that is not empty.  The last `n` lines of a text are a suffix of it, the longest
one with at most `n` lines.

Main definitions:

* `TextLines.lines` — the lines of a text, each with its separator;
* `TextLines.lastLines` — the end of the text from its `n`-th line from the end on;
* `TextLines.Unterminated` — the last line has no separator.

Main results:

* `TextLines.lines_append_sep`, `TextLines.lines_of_notMem` — **the first line ends at the first
  separator**, and without one it is the whole text;
* `TextLines.length_lines` — the number of lines is the number of separators, or one more;
* `TextLines.lastLines_suffix` — the last lines are a suffix of the text;
* `TextLines.drop_eq_lastLines_iff` — **a suffix is made of the last `n` lines** exactly when it has
  no more than `n` lines and cannot be extended.
-/

import Mathlib.Data.List.Basic
import Mathlib.Data.List.Infix
import Mathlib.Tactic.Common

set_option relaxedAutoImplicit false
set_option autoImplicit false

namespace TextLines

variable {α : Type*} [DecidableEq α] (sep : α)

/-- The lines of a text, each with its separator. -/
def lines : List α → List (List α)
  | [] => []
  | a :: as =>
      if a = sep then [a] :: lines as
      else
        match lines as with
        | [] => [[a]]
        | l :: ls => (a :: l) :: ls

/-- The last `n` lines, or all of them when there are no more. -/
def lastLines (n : ℕ) (as : List α) : List α :=
  ((lines sep as).drop ((lines sep as).length - n)).flatten

/-- There is a last line and it has no separator. -/
def Unterminated (as : List α) : Prop := as ≠ [] ∧ as.getLast? ≠ some sep

instance (as : List α) : Decidable (Unterminated sep as) :=
  inferInstanceAs (Decidable (_ ∧ _))

theorem lines_eq_nil {as : List α} : lines sep as = [] ↔ as = [] := by
  cases as with
  | nil => simp [lines]
  | cons a as =>
      unfold lines
      split
      · simp
      · split <;> simp

theorem flatten_lines (as : List α) : (lines sep as).flatten = as := by
  induction as with
  | nil => rfl
  | cons a as ih =>
      unfold lines
      split
      · rw [List.flatten_cons, ih, List.singleton_append]
      · split
        · rename_i h
          rw [(lines_eq_nil sep).1 h]
          rfl
        · rename_i h
          rw [h] at ih
          rw [List.flatten_cons, List.cons_append, ← List.flatten_cons, ih]

/-- **The first line** ends at the first separator. -/
theorem lines_append_sep {l : List α} (hl : sep ∉ l) (t : List α) :
    lines sep (l ++ sep :: t) = (l ++ [sep]) :: lines sep t := by
  induction l with
  | nil => rw [List.nil_append, lines, if_pos rfl, List.nil_append]
  | cons a l ih =>
      rw [List.mem_cons, not_or] at hl
      rw [List.cons_append, lines, if_neg (Ne.symm hl.1), ih hl.2, List.cons_append]

/-- A text without separators is one line. -/
theorem lines_of_notMem {l : List α} (hl : sep ∉ l) (hne : l ≠ []) : lines sep l = [l] := by
  induction l with
  | nil => exact absurd rfl hne
  | cons a l ih =>
      rw [List.mem_cons, not_or] at hl
      rw [lines, if_neg (Ne.symm hl.1)]
      cases l with
      | nil => rfl
      | cons b l => rw [ih hl.2 (List.cons_ne_nil b l)]

omit [DecidableEq α] in
theorem unterminated_cons {a : α} {as : List α} (h : as ≠ []) :
    Unterminated sep (a :: as) ↔ Unterminated sep as := by
  simp [Unterminated, h, List.getLast?_cons, List.getLast?_eq_getLast_of_ne_nil h]

/-- **The number of lines** is the number of separators, and one more when the last line has
none. -/
theorem length_lines (as : List α) :
    (lines sep as).length = as.count sep + if Unterminated sep as then 1 else 0 := by
  induction as with
  | nil => rfl
  | cons a as ih =>
      by_cases has : as = []
      · subst has
        by_cases ha : a = sep <;> simp [lines, Unterminated, ha]
      · have hne : lines sep as ≠ [] := fun h => has ((lines_eq_nil sep).1 h)
        simp only [unterminated_cons sep has, List.count_cons, lines]
        by_cases ha : a = sep
        · simp only [ha, if_true, List.length_cons, ih, beq_self_eq_true]
          omega
        · cases hl : lines sep as with
          | nil => exact absurd hl hne
          | cons l ls =>
              rw [hl] at ih
              simp [ha, ← ih]

/-- The last lines of a text with one more symbol in front. -/
theorem lastLines_cons (n : ℕ) (a : α) (as : List α) :
    lastLines sep n (a :: as) =
      if (lines sep (a :: as)).length ≤ n then a :: as else lastLines sep n as := by
  split
  · rename_i h
    rw [lastLines, Nat.sub_eq_zero_of_le h, List.drop_zero, flatten_lines]
  · rename_i h
    rw [not_le] at h
    unfold lastLines
    by_cases ha : a = sep
    · rw [lines, if_pos ha, List.length_cons] at h ⊢
      rw [Nat.succ_sub (Nat.le_of_lt_succ h), List.drop_succ_cons]
    · rw [lines, if_neg ha] at h ⊢
      cases hl : lines sep as with
      | nil =>
          rw [hl] at h
          simp only [List.length_singleton, Nat.lt_one_iff] at h
          simp [h]
      | cons l ls =>
          rw [hl] at h
          simp only [List.length_cons] at h ⊢
          obtain ⟨k, hk⟩ : ∃ k, ls.length + 1 - n = k + 1 := ⟨ls.length - n, by omega⟩
          rw [hk, List.drop_succ_cons, List.drop_succ_cons]

theorem lastLines_suffix (n : ℕ) (as : List α) : lastLines sep n as <:+ as := by
  induction as with
  | nil => simp [lastLines, lines]
  | cons a as ih =>
      rw [lastLines_cons]
      split
      · exact List.suffix_refl _
      · exact ih.trans (List.suffix_cons a as)

theorem length_lines_le_cons (a : α) (as : List α) :
    (lines sep as).length ≤ (lines sep (a :: as)).length := by
  rw [lines]
  split
  · exact Nat.le_succ _
  · split <;> simp_all

/-- A suffix has no more lines than the text. -/
theorem length_lines_le_of_suffix {bs as : List α} (h : bs <:+ as) :
    (lines sep bs).length ≤ (lines sep as).length := by
  induction as with
  | nil => rw [List.suffix_nil.1 h]
  | cons a as ih =>
      rcases List.suffix_cons_iff.1 h with rfl | h
      · exact le_rfl
      · exact (ih h).trans (length_lines_le_cons sep a as)

/-- **A suffix is made of the last `n` lines** when it has no more than `n` lines and the suffix
with one more symbol has. -/
theorem drop_eq_lastLines_iff (n : ℕ) {t : ℕ} {as : List α} (ht : t ≤ as.length) :
    as.drop t = lastLines sep n as ↔
      (lines sep (as.drop t)).length ≤ n ∧
        (t = 0 ∨ n < (lines sep (as.drop (t - 1))).length) := by
  induction as generalizing t with
  | nil =>
      obtain rfl : t = 0 := by simpa using ht
      simp [lastLines, lines]
  | cons a as ih =>
      rw [lastLines_cons]
      cases t with
      | zero =>
          split
          · rename_i h
            simpa using h
          · rename_i h
            have hne : a :: as ≠ lastLines sep n as := by
              intro heq
              have hlen := (lastLines_suffix sep n as).length_le
              rw [← heq, List.length_cons] at hlen
              omega
            simp [hne, h]
      | succ t =>
          rw [List.length_cons] at ht
          have hdrop : (a :: as).drop (t + 1) = as.drop t := rfl
          rw [hdrop, Nat.add_sub_cancel]
          split
          · rename_i h
            have hne : as.drop t ≠ a :: as := by
              intro heq
              have hlen := congrArg List.length heq
              rw [List.length_drop, List.length_cons] at hlen
              omega
            have hle := length_lines_le_of_suffix sep (List.drop_suffix t (a :: as))
            simp only [hne, false_iff, not_and, not_or]
            intro _
            exact ⟨Nat.succ_ne_zero t, by omega⟩
          · rename_i h
            rw [ih (by omega)]
            cases t with
            | zero => simpa using fun _ => h
            | succ t => simp

/-- No line is left only of an empty text or when none is asked for. -/
theorem lastLines_eq_nil_iff {n : ℕ} {as : List α} (h : as ≠ []) :
    lastLines sep n as = [] ↔ n = 0 := by
  have hpos : 0 < as.length := List.length_pos_iff.2 h
  have hlast : (lines sep (as.drop (as.length - 1))).length = 1 := by
    have hlen : (as.drop (as.length - 1)).length = 1 := by
      rw [List.length_drop]
      omega
    obtain ⟨a, ha⟩ := List.length_eq_one_iff.1 hlen
    rw [ha, lines]
    split <;> rfl
  have hiff := drop_eq_lastLines_iff sep n (le_refl as.length)
  rw [List.drop_length, hlast] at hiff
  rw [eq_comm, hiff]
  simp only [lines, List.length_nil]
  omega

end TextLines
