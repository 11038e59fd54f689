/-
**What `strtol` reports besides the number.**

`strtol` stores in `endptr` where it has stopped: behind the last digit, or at the start of the
string when there is no digit.  It sets `errno` to `ERANGE` for a number that is no `long`, and some
versions set it to `EINVAL` when there is no digit.

Main definitions:

* `Numerals.number`, `Numerals.restOf`, `Numerals.Fails` — the number, the string at `endptr`, and
  whether `errno` is set;
* `Numerals.IsNumeral` — white space, a sign and digits.

Main results:

* `Numerals.restOf_eq_nil_iff` — **the strings of which nothing is left**;
* `Numerals.IsNumeral.number_eq`, `Numerals.strtol_of_mem` — the number of such a string.
-/

import NetSysProg.Numerals

set_option relaxedAutoImplicit false
set_option autoImplicit false

namespace Numerals

open CString

/-- What is behind the sign, if there is one. -/
def behindSign : List Byte → List Byte
  | 45 :: t => t
  | 43 :: t => t
  | t => t

/-- The number that a sign and digits spell. -/
def withSign : List Byte → ℤ
  | 45 :: t => -(value t : ℤ)
  | 43 :: t => value t
  | t => value t

/-- The number at the start of the string. -/
def number (s : List Byte) : ℤ := withSign (s.dropWhile isSpace)

/-- Its digits. -/
def digitsOf (s : List Byte) : List Byte := (behindSign (s.dropWhile isSpace)).takeWhile isDigit

/-- The string at `endptr`. -/
def restOf (s : List Byte) : List Byte :=
  if digitsOf s = [] then s else (behindSign (s.dropWhile isSpace)).dropWhile isDigit

/-- `errno` is not zero; `einval` says whether a string without a number is an error. -/
def Fails (einval : Bool) (s : List Byte) : Prop :=
  number s < longMin ∨ longMax < number s ∨ (digitsOf s = [] ∧ einval = true)

instance (einval : Bool) (s : List Byte) : Decidable (Fails einval s) :=
  inferInstanceAs (Decidable (_ ∨ _ ∨ _))

/-- A decimal numeral of `n`, with white space and a sign in front. -/
def IsNumeral (s : List Byte) (n : ℤ) : Prop :=
  ∃ space sign digits : List Byte, s = space ++ (sign ++ digits) ∧ (∀ b ∈ space, isSpace b = true) ∧
    digits ≠ [] ∧ (∀ b ∈ digits, isDigit b = true) ∧
    ((sign = [45] ∧ n = -(spelled 0 digits : ℤ)) ∨
      ((sign = [43] ∨ sign = []) ∧ n = (spelled 0 digits : ℤ)))

theorem withSign_of_ne {t : List Byte} (hminus : ∀ t', t ≠ 45 :: t') (hplus : ∀ t', t ≠ 43 :: t') :
    withSign t = value t := by
  unfold withSign
  split
  · exact absurd rfl (hminus _)
  · exact absurd rfl (hplus _)
  · rfl

theorem behindSign_of_ne {t : List Byte} (hminus : ∀ t', t ≠ 45 :: t')
    (hplus : ∀ t', t ≠ 43 :: t') :
    behindSign t = t := by
  unfold behindSign
  split
  · exact absurd rfl (hminus _)
  · exact absurd rfl (hplus _)
  · rfl

/-- `strtol` returns the number, if it is a `long`. -/
theorem strtol_of_mem {s : List Byte} (hmin : longMin ≤ number s) (hmax : number s ≤ longMax) :
    strtol s = number s := by
  unfold number at *
  unfold strtol
  generalize s.dropWhile isSpace = t at *
  unfold signed
  split
  · exact Int.max_eq_right hmin
  · exact Int.min_eq_right hmax
  · next hminus hplus =>
      rw [withSign_of_ne hminus hplus] at hmax ⊢
      exact Int.min_eq_right hmax

theorem takeWhile_digits {digits : List Byte} (h : ∀ b ∈ digits, isDigit b = true) :
    digits.takeWhile isDigit = digits := List.takeWhile_eq_self_iff.2 h

/-- Behind white space and a sign there are the digits. -/
theorem exists_behindSign {s : List Byte} {n : ℤ} (h : IsNumeral s n) :
    ∃ digits, behindSign (s.dropWhile isSpace) = digits ∧ digits ≠ [] ∧
      (∀ b ∈ digits, isDigit b = true) ∧ number s = n := by
  obtain ⟨space, sign, digits, rfl, hspace, hne, hdigits, hsign⟩ := h
  have hvalue : value digits = spelled 0 digits := by rw [value, takeWhile_digits hdigits]
  obtain ⟨b, bs, hcons⟩ := List.exists_cons_of_ne_nil hne
  obtain ⟨hb, hminus, hplus⟩ := of_isDigit (hdigits b (by rw [hcons]; exact List.mem_cons_self))
  unfold number
  rw [List.dropWhile_append_of_pos hspace]
  rcases hsign with ⟨rfl, rfl⟩ | ⟨rfl | rfl, rfl⟩
  · rw [List.singleton_append, List.dropWhile_cons_of_neg (by decide)]
    exact ⟨digits, rfl, hne, hdigits, by rw [withSign, hvalue]⟩
  · rw [List.singleton_append, List.dropWhile_cons_of_neg (by decide)]
    exact ⟨digits, rfl, hne, hdigits, by rw [withSign, hvalue]⟩
  · -- a digit is no sign
    have hminus' : ∀ t', digits ≠ 45 :: t' := fun t' h =>
      hminus (List.cons.inj (hcons.symm.trans h)).1
    have hplus' : ∀ t', digits ≠ 43 :: t' := fun t' h =>
      hplus (List.cons.inj (hcons.symm.trans h)).1
    rw [List.nil_append, hcons, List.dropWhile_cons_of_neg (by simp [hb]), ← hcons]
    refine ⟨digits, behindSign_of_ne hminus' hplus', hne, hdigits, ?_⟩
    rw [withSign_of_ne hminus' hplus', hvalue]

/-- **The number of a numeral.** -/
theorem IsNumeral.number_eq {s : List Byte} {n : ℤ} (h : IsNumeral s n) : number s = n := by
  obtain ⟨_, -, -, -, hnumber⟩ := exists_behindSign h
  exact hnumber

theorem IsNumeral.digitsOf_ne_nil {s : List Byte} {n : ℤ} (h : IsNumeral s n) :
    digitsOf s ≠ [] := by
  obtain ⟨digits, hdigits, hne, hall, -⟩ := exists_behindSign h
  rw [digitsOf, hdigits, takeWhile_digits hall]
  exact hne

/-- What is behind white space, taken apart at the sign. -/
theorem exists_sign (t : List Byte) :
    ∃ sign, t = sign ++ behindSign t ∧
      ((sign = [45] ∧ withSign t = -(value (behindSign t) : ℤ)) ∨
        ((sign = [43] ∨ sign = []) ∧ withSign t = (value (behindSign t) : ℤ))) := by
  unfold behindSign withSign
  split
  · exact ⟨[45], rfl, Or.inl ⟨rfl, rfl⟩⟩
  · exact ⟨[43], rfl, Or.inr ⟨Or.inl rfl, rfl⟩⟩
  · exact ⟨[], rfl, Or.inr ⟨Or.inr rfl, rfl⟩⟩

/-- **Nothing is left** of the empty string and of numerals. -/
theorem restOf_eq_nil_iff (s : List Byte) : restOf s = [] ↔ s = [] ∨ ∃ n, IsNumeral s n := by
  constructor
  · intro h
    unfold restOf at h
    split at h
    · exact Or.inl h
    · next hdigits =>
        obtain ⟨sign, hsplit, hsign⟩ := exists_sign (s.dropWhile isSpace)
        have hall : ∀ b ∈ behindSign (s.dropWhile isSpace), isDigit b = true := by
          simpa using List.dropWhile_eq_nil_iff.1 h
        rw [digitsOf, takeWhile_digits hall] at hdigits
        refine Or.inr ⟨withSign (s.dropWhile isSpace), s.takeWhile isSpace, sign,
          behindSign (s.dropWhile isSpace), ?_, fun b hb => List.mem_takeWhile_imp hb,
          hdigits, hall, ?_⟩
        · rw [← hsplit, List.takeWhile_append_dropWhile]
        · rwa [value, takeWhile_digits hall] at hsign
  · rintro (rfl | ⟨n, hn⟩)
    · rfl
    · obtain ⟨digits, hdigits, -, hall, -⟩ := exists_behindSign hn
      rw [restOf, if_neg hn.digitsOf_ne_nil, hdigits]
      exact List.dropWhile_eq_nil_iff.2 hall

end Numerals
