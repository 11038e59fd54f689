/-
**Decimal numerals as bytes.**

`printf` writes a number as decimal digits and `strtol` reads one back: it skips white space, takes
a sign, reads as many digits as there are and keeps the result within the range of a `long`;
whatever follows the digits is ignored.  `atoi` stores what `strtol` returns in an `int`.

Main definitions:

* `Numerals.decimal`, `Numerals.printInt` — the digits of a number, and an `int` with its sign;
* `Numerals.value`, `Numerals.signed`, `Numerals.strtol`, `Numerals.atoi` — the number a text starts
  with.

Main results:

* `Numerals.length_decimal_le_iff` — the length of a numeral;
* `Numerals.value_decimal` — **a numeral is read back**, whatever follows it;
* `Numerals.atoi_decimal` — reading behind white space.
-/

import NetSysProg.CInt
import NetSysProg.CString
import Mathlib.Algebra.Group.Nat.Defs

set_option relaxedAutoImplicit false
set_option autoImplicit false

namespace Numerals

open CString

/-! ### Writing -/

/-- The digits of `n`. -/
def decimal (n : ℕ) : List Byte := (Nat.toDigits 10 n).map fun c => UInt8.ofNat c.toNat

/-- What `"%d"` writes for the `int` `x`. -/
def printInt (x : ℤ) : List Byte := if x < 0 then 45 :: decimal x.natAbs else decimal x.natAbs

/-- `isdigit` -/
def isDigit (b : Byte) : Bool := 48 ≤ b ∧ b ≤ 57

/-- `isspace` -/
def isSpace (b : Byte) : Bool := b = 32 ∨ (9 ≤ b ∧ b ≤ 13)

/-- The digit `d` as a byte. -/
def digit (d : ℕ) : Byte := UInt8.ofNat (48 + d)

theorem decimal_of_lt {n : ℕ} (h : n < 10) : decimal n = [digit n] := by
  rw [decimal, Nat.toDigits_of_lt_base h, List.map_singleton,
    Nat.toNat_digitChar_of_lt_ten h, digit]

theorem decimal_of_ge {n : ℕ} (h : 10 ≤ n) : decimal n = decimal (n / 10) ++ [digit (n % 10)] := by
  have hlt : n % 10 < 10 := Nat.mod_lt _ (by omega)
  rw [decimal, Nat.toDigits_of_base_le (by omega) h, List.map_append, List.map_singleton,
    Nat.toNat_digitChar_of_lt_ten hlt]
  rfl

theorem toNat_digit {d : ℕ} (h : d < 10) : (digit d).toNat = 48 + d := by
  rw [digit, UInt8.toNat_ofNat']
  omega

theorem isDigit_digit {d : ℕ} (h : d < 10) : isDigit (digit d) = true := by
  have hd := toNat_digit h
  simp only [isDigit, decide_eq_true_eq, UInt8.le_iff_toNat_le, hd, UInt8.reduceToNat]
  omega

theorem isDigit_of_mem_decimal {n : ℕ} {b : Byte} (hb : b ∈ decimal n) : isDigit b = true := by
  induction n using Nat.strong_induction_on with
  | h n ih =>
      by_cases h : n < 10
      · rw [decimal_of_lt h, List.mem_singleton] at hb
        rw [hb]
        exact isDigit_digit h
      · rw [decimal_of_ge (by omega), List.mem_append, List.mem_singleton] at hb
        rcases hb with hb | rfl
        · exact ih (n / 10) (by omega) hb
        · exact isDigit_digit (Nat.mod_lt _ (by omega))

theorem length_decimal_pos (n : ℕ) : 0 < (decimal n).length := by
  rw [decimal, List.length_map]
  exact Nat.length_toDigits_pos

theorem length_decimal_le_iff {n k : ℕ} (hk : 0 < k) : (decimal n).length ≤ k ↔ n < 10 ^ k := by
  rw [decimal, List.length_map]
  exact Nat.length_toDigits_le_iff (by omega) hk

/-! ### Reading -/

/-- The number that digits spell, with `n` in front of them. -/
def spelled (n : ℕ) (digits : List Byte) : ℕ := digits.foldl (fun n b => 10 * n + (b.toNat - 48)) n

/-- The number that the digits at the start of `s` spell. -/
def value (s : List Byte) : ℕ := spelled 0 (s.takeWhile isDigit)

/-- `LONG_MAX` -/
def longMax : ℤ := 9223372036854775807

/-- `LONG_MIN` -/
def longMin : ℤ := -9223372036854775808

/-- The number that a sign and digits spell, or the nearest `long`. -/
def signed : List Byte → ℤ
  | 45 :: t => max longMin (-(value t : ℤ))
  | 43 :: t => min longMax (value t)
  | t => min longMax (value t)

/-- `strtol` with base ten, on the string `s`. -/
def strtol (s : List Byte) : ℤ := signed (s.dropWhile isSpace)

/-- `atoi`: the result of `strtol` as an `int`. -/
def atoi (s : List Byte) : ℤ := CInt.wrap (strtol s)

theorem spelled_decimal (n : ℕ) : spelled 0 (decimal n) = n := by
  induction n using Nat.strong_induction_on with
  | h n ih =>
      by_cases h : n < 10
      · rw [decimal_of_lt h, spelled, List.foldl_cons, List.foldl_nil, toNat_digit h]
        omega
      · have hlt : n % 10 < 10 := Nat.mod_lt _ (by omega)
        have hprev := ih (n / 10) (by omega)
        rw [spelled] at hprev
        rw [decimal_of_ge (by omega), spelled, List.foldl_append, hprev, List.foldl_cons,
          List.foldl_nil, toNat_digit hlt]
        omega

/-- What is behind a number ends it: there is nothing, or no digit. -/
def Ends (t : List Byte) : Prop := ∀ b ∈ t.head?, isDigit b = false

theorem ends_nil : Ends [] := by simp [Ends]

theorem takeWhile_decimal (n : ℕ) {t : List Byte} (ht : Ends t) :
    (decimal n ++ t).takeWhile isDigit = decimal n := by
  rw [List.takeWhile_append_of_pos fun b hb => isDigit_of_mem_decimal hb]
  cases t with
  | nil => rw [List.takeWhile_nil, List.append_nil]
  | cons b t =>
      have hb : isDigit b = false := ht b (by simp)
      rw [List.takeWhile_cons_of_neg (by simp [hb]), List.append_nil]

/-- **A numeral is read back.** -/
theorem value_decimal (n : ℕ) {t : List Byte} (ht : Ends t) : value (decimal n ++ t) = n := by
  rw [value, takeWhile_decimal n ht, spelled_decimal]

/-- A digit is neither white space nor a sign. -/
theorem of_isDigit {b : Byte} (h : isDigit b = true) : isSpace b = false ∧ b ≠ 45 ∧ b ≠ 43 := by
  simp only [isDigit, decide_eq_true_eq, UInt8.le_iff_toNat_le, UInt8.reduceToNat] at h
  refine ⟨?_, ?_, ?_⟩
  · simp only [isSpace, decide_eq_false_iff_not, UInt8.le_iff_toNat_le, ← UInt8.toNat_inj,
      UInt8.reduceToNat]
    omega
  · rintro rfl
    simp at h
  · rintro rfl
    simp at h

/-- `strtol` on digits, behind white space. -/
theorem strtol_of_isDigit {w s : List Byte} (hw : ∀ b ∈ w, isSpace b = true) {b : Byte}
    (hb : isDigit b = true) : strtol (w ++ b :: s) = min longMax (value (b :: s)) := by
  obtain ⟨hspace, hminus, hplus⟩ := of_isDigit hb
  have hdrop : (w ++ b :: s).dropWhile isSpace = b :: s := by
    rw [List.dropWhile_append_of_pos hw, List.dropWhile_cons_of_neg (by simp [hspace])]
  rw [strtol, hdrop]
  unfold signed
  split
  · next h => exact absurd (List.cons.inj h).1 hminus
  · next h => exact absurd (List.cons.inj h).1 hplus
  · rfl

theorem strtol_decimal {w : List Byte} (hw : ∀ b ∈ w, isSpace b = true) {n : ℕ} (hn : n ≤ longMax)
    {t : List Byte} (ht : Ends t) : strtol (w ++ (decimal n ++ t)) = n := by
  obtain ⟨b, s, hbs⟩ := List.exists_cons_of_length_pos (length_decimal_pos n)
  have hb : isDigit b = true := isDigit_of_mem_decimal (n := n) (by rw [hbs]; simp)
  have hval := value_decimal n ht
  rw [hbs, List.cons_append] at hval ⊢
  rw [strtol_of_isDigit hw hb, hval]
  exact Int.min_eq_right hn

/-- A byte that is no digit, behind the digits. -/
theorem value_append {b : Byte} (hb : isDigit b = false) (s : List Byte) :
    value (s ++ [b]) = value s := by
  have hend : [b].takeWhile isDigit = [] := List.takeWhile_cons_of_neg (by simp [hb])
  rw [value, value, List.takeWhile_append, hend, List.append_nil]
  split
  · next hall => rw [(List.takeWhile_prefix isDigit).eq_of_length hall]
  · rfl

theorem signed_append {s : List Byte} (hs : s ≠ []) {b : Byte} (hb : isDigit b = false) :
    signed (s ++ [b]) = signed s := by
  cases s with
  | nil => exact absurd rfl hs
  | cons a s =>
      have hval := value_append hb (a :: s)
      rw [List.cons_append] at hval ⊢
      by_cases hminus : a = 45
      · rw [hminus, signed, signed, value_append hb]
      · by_cases hplus : a = 43
        · rw [hplus, signed, signed, value_append hb]
        · rw [signed, signed, hval]
          · exact fun t h => hminus (List.cons.inj h).1
          · exact fun t h => hplus (List.cons.inj h).1
          · exact fun t h => hminus (List.cons.inj h).1
          · exact fun t h => hplus (List.cons.inj h).1

/-- White space behind the number changes nothing. -/
theorem atoi_append {b : Byte} (hspace : isSpace b = true) (hb : isDigit b = false)
    (s : List Byte) :
    atoi (s ++ [b]) = atoi s := by
  have hend : [b].dropWhile isSpace = [] := List.dropWhile_cons_of_pos hspace
  rw [atoi, atoi, strtol, strtol, List.dropWhile_append, hend]
  split
  · next hempty => rw [List.isEmpty_iff.1 hempty]
  · next hempty => rw [signed_append (by simpa using hempty) hb]

/-- **`atoi` reads a numeral behind white space**, whatever follows it. -/
theorem atoi_decimal {w : List Byte} (hw : ∀ b ∈ w, isSpace b = true) {n : ℕ} (hn : n ≤ CInt.intMax)
    {t : List Byte} (ht : Ends t) : atoi (w ++ (decimal n ++ t)) = n := by
  have hlong : (n : ℤ) ≤ longMax := Int.le_trans hn (by decide)
  rw [atoi, strtol_decimal hw hlong ht, CInt.wrap_of_nonneg (Int.natCast_nonneg n) hn]

end Numerals
