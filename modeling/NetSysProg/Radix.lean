/-
**Numerals in any base.**

`strtol` reads a number in the base that it is given: behind white space and a sign, with `0x` in
front when the base is sixteen.  When the base is zero the numeral itself says which base it is in:
hexadecimal behind `0x`, octal behind `0`, decimal otherwise.  A mark `0x` that no hexadecimal digit
follows is the digit `0` with something behind it.

Main definitions:

* `Radix.start` — the base in which a number is read, and where its digits start;
* `Radix.number`, `Radix.restOf`, `Radix.strtol` — the number, the string at `endptr`, and the
  number as a `long`;
* `Radix.Spells`, `Radix.IsNumeral` — the grammar of numerals.

Main results:

* `Radix.restOf_eq_nil_iff` — **nothing is left exactly of the numerals**;
* `Radix.IsNumeral.number_eq` — the number of a numeral;
* `Radix.isNumeral_printInt` — what `printf` writes for an `int` is a numeral in base ten.
-/

import NetSysProg.Strtol

set_option relaxedAutoImplicit false
set_option autoImplicit false

namespace Radix

open CString

/-! ### Digits -/

/-- The value of a digit: after `9` come the letters, in either case. -/
def digitVal (b : Byte) : Option ℕ :=
  if 48 ≤ b ∧ b ≤ 57 then some (b.toNat - 48)
  else if 65 ≤ b ∧ b ≤ 90 then some (b.toNat - 55)
  else if 97 ≤ b ∧ b ≤ 122 then some (b.toNat - 87)
  else none

def isDigit (base : ℕ) (b : Byte) : Bool := (digitVal b).any fun d => d < base

/-- The number that digits spell. -/
def spelled (base : ℕ) (digits : List Byte) : ℕ :=
  digits.foldl (fun n b => base * n + (digitVal b).getD 0) 0

/-- White space and signs are no digits. -/
theorem of_isDigit {base : ℕ} {b : Byte} (h : isDigit base b = true) :
    Numerals.isSpace b = false ∧ b ≠ 45 ∧ b ≠ 43 := by
  have hval : digitVal b ≠ none := by
    intro hnone
    rw [isDigit, hnone] at h
    cases h
  have hrange : 48 ≤ b.toNat := by
    by_contra hlow
    apply hval
    simp only [digitVal, UInt8.le_iff_toNat_le, UInt8.reduceToNat]
    rw [if_neg (by omega), if_neg (by omega), if_neg (by omega)]
  refine ⟨?_, ?_, ?_⟩
  · simp only [Numerals.isSpace, decide_eq_false_iff_not, UInt8.le_iff_toNat_le, ← UInt8.toNat_inj,
      UInt8.reduceToNat]
    omega
  · rintro rfl
    simp at hrange
  · rintro rfl
    simp at hrange

/-- The letter of the mark `0x` is no hexadecimal digit. -/
theorem not_isDigit_mark {base : ℕ} (hbase : base ≤ 16) {x : Byte} (hx : x = 120 ∨ x = 88) :
    isDigit base x = false := by
  have hval : digitVal x = some 33 := by
    rcases hx with rfl | rfl <;> rfl
  rw [isDigit, hval]
  simp only [Option.any_some, decide_eq_false_iff_not]
  omega

/-! ### Reading -/

/-- The string starts with `0x` and a hexadecimal digit. -/
def hexMark : List Byte → Bool
  | z :: x :: b :: _ => z = 48 && (x = 120 || x = 88) && isDigit 16 b
  | _ => false

/-- The base in which what is behind the sign is read, and where its digits start. -/
def start (base : ℕ) (t : List Byte) : ℕ × List Byte :=
  if (base = 16 ∨ base = 0) ∧ hexMark t = true then (16, t.drop 2)
  else if base = 0 then (if t.head? = some 48 then 8 else 10, t)
  else (base, t)

/-- What is behind white space and a sign. -/
def body (s : List Byte) : List Byte := Numerals.behindSign (s.dropWhile Numerals.isSpace)

/-- The digits of the number. -/
def digitsOf (base : ℕ) (s : List Byte) : List Byte :=
  (start base (body s)).2.takeWhile (isDigit (start base (body s)).1)

/-- The number at the start of the string. -/
def number (base : ℕ) (s : List Byte) : ℤ :=
  let n : ℤ := spelled (start base (body s)).1 (digitsOf base s)
  if (s.dropWhile Numerals.isSpace).head? = some 45 then -n else n

/-- The string at `endptr`. -/
def restOf (base : ℕ) (s : List Byte) : List Byte :=
  if digitsOf base s = [] then s
  else (start base (body s)).2.dropWhile (isDigit (start base (body s)).1)

/-- The number, or the nearest `long`. -/
def strtol (base : ℕ) (s : List Byte) :
    ℤ := max Numerals.longMin (min Numerals.longMax (number base s))

/-- `errno` is not zero; `einval` says whether a string without a number is an error. -/
def Fails (einval : Bool) (base : ℕ) (s : List Byte) : Prop :=
  number base s < Numerals.longMin ∨ Numerals.longMax < number base s ∨
    (digitsOf base s = [] ∧ einval = true)

instance (einval : Bool) (base : ℕ) (s : List Byte) : Decidable (Fails einval base s) :=
  inferInstanceAs (Decidable (_ ∨ _ ∨ _))

theorem strtol_of_mem {base : ℕ} {s : List Byte} (hmin : Numerals.longMin ≤ number base s)
    (hmax : number base s ≤ Numerals.longMax) : strtol base s = number base s := by
  rw [strtol, Int.min_eq_right hmax, Int.max_eq_right hmin]

/-! ### Numerals -/

/-- A numeral of `n` without a sign. -/
inductive Spells (base : ℕ) (t : List Byte) (n : ℕ) : Prop
  | plain (hbase : base ≠ 0) (hne : t ≠ []) (hdigits : ∀ b ∈ t, isDigit base b = true)
      (hn : n = spelled base t)
  | hex {x : Byte} {digits : List Byte} (hbase : base = 16 ∨ base = 0) (hx : x = 120 ∨ x = 88)
      (ht : t = 48 :: x :: digits) (hne : digits ≠ []) (hdigits : ∀ b ∈ digits, isDigit 16 b = true)
      (hn : n = spelled 16 digits)
  | octal (hbase : base = 0) (hhead : t.head? = some 48) (hdigits : ∀ b ∈ t, isDigit 8 b = true)
      (hn : n = spelled 8 t)
  | decimal (hbase : base = 0) (hhead : t.head? ≠ some 48) (hne : t ≠ [])
      (hdigits : ∀ b ∈ t, isDigit 10 b = true) (hn : n = spelled 10 t)

/-- A numeral of `n`, with white space and a sign in front. -/
def IsNumeral (base : ℕ) (s : List Byte) (n : ℤ) : Prop :=
  ∃ (space sign t : List Byte) (m : ℕ), s = space ++ (sign ++ t) ∧
    (∀ b ∈ space, Numerals.isSpace b = true) ∧ Spells base t m ∧
    (sign = [45] ∨ sign = [43] ∨ sign = []) ∧ n = if sign = [45] then -(m : ℤ) else (m : ℤ)

/-- Digits of a base up to sixteen have no mark in front. -/
theorem hexMark_of_isDigit {base : ℕ} (hbase : base ≤ 16) {t : List Byte}
    (h : ∀ b ∈ t, isDigit base b = true) : hexMark t = false := by
  unfold hexMark
  split
  · next z x b _ =>
      have hx : isDigit base x = true := h x (by simp)
      have hmark : ¬ (x = 120 ∨ x = 88) := by
        intro hmark
        rw [not_isDigit_mark hbase hmark] at hx
        cases hx
      simp only [not_or] at hmark
      simp [hmark.1, hmark.2]
  · rfl

/-- **A numeral is read to its end**, in its own base. -/
theorem Spells.start_eq {base : ℕ} {t : List Byte} {n : ℕ} (h : Spells base t n) :
    ∃ b digits, start base t = (b, digits) ∧ digits ≠ [] ∧ (∀ d ∈ digits, isDigit b d = true) ∧
      n = spelled b digits := by
  cases h with
  | plain hbase hne hdigits hn =>
      refine ⟨base, t, ?_, hne, hdigits, hn⟩
      have hmark : ¬ ((base = 16 ∨ base = 0) ∧ hexMark t = true) := by
        rintro ⟨hsixteen | hzero, hmark⟩
        · rw [hexMark_of_isDigit hsixteen.le hdigits] at hmark
          cases hmark
        · exact hbase hzero
      rw [start, if_neg hmark, if_neg hbase]
  | @hex x digits hbase hx ht hne hdigits hn =>
      refine ⟨16, digits, ?_, hne, hdigits, hn⟩
      obtain ⟨b, bs, hcons⟩ := List.exists_cons_of_ne_nil hne
      have hb : isDigit 16 b = true := hdigits b (by rw [hcons]; exact List.mem_cons_self)
      have hmark : hexMark t = true := by
        rw [ht, hcons]
        rcases hx with rfl | rfl <;> simp [hexMark, hb]
      rw [start, if_pos ⟨hbase, hmark⟩, ht]
      rfl
  | octal hbase hhead hdigits hn =>
      refine ⟨8, t, ?_, ?_, hdigits, hn⟩
      · have hmark : ¬ ((base = 16 ∨ base = 0) ∧ hexMark t = true) := by
          rw [hexMark_of_isDigit (by decide) hdigits]
          simp
        rw [start, if_neg hmark, if_pos hbase, if_pos hhead]
      · rintro rfl
        cases hhead
  | decimal hbase hhead hne hdigits hn =>
      refine ⟨10, t, ?_, hne, hdigits, hn⟩
      have hmark : ¬ ((base = 16 ∨ base = 0) ∧ hexMark t = true) := by
        rw [hexMark_of_isDigit (by decide) hdigits]
        simp
      rw [start, if_neg hmark, if_pos hbase, if_neg hhead]

/-- What is read to its end is a numeral. -/
theorem spells_of_start {base : ℕ} {t : List Byte} (hne : (start base t).2 ≠ [])
    (hdigits : ∀ d ∈ (start base t).2, isDigit (start base t).1 d = true) :
    Spells base t (spelled (start base t).1 (start base t).2) := by
  unfold start at hne hdigits ⊢
  split at hne
  · next hmark =>
      rw [if_pos hmark] at hdigits ⊢
      have hcons : ∃ x b bs, t = 48 :: x :: b :: bs ∧ (x = 120 ∨ x = 88) := by
        have hm := hmark.2
        unfold hexMark at hm
        split at hm
        · next z x b bs =>
            simp only [Bool.and_eq_true, Bool.or_eq_true, decide_eq_true_eq] at hm
            exact ⟨x, b, bs, by rw [hm.1.1], hm.1.2⟩
        · cases hm
      obtain ⟨x, b, bs, rfl, hx⟩ := hcons
      exact .hex hmark.1 hx rfl hne hdigits rfl
  · next hmark =>
      rw [if_neg hmark] at hdigits ⊢
      split at hne
      · next hzero =>
          rw [if_pos hzero] at hdigits ⊢
          by_cases hhead : t.head? = some 48
          · simp only [if_pos hhead] at hdigits ⊢
            exact .octal hzero hhead hdigits rfl
          · simp only [if_neg hhead] at hdigits ⊢
            exact .decimal hzero hhead hne hdigits rfl
      · next hzero =>
          rw [if_neg hzero] at hdigits ⊢
          exact .plain hzero hne hdigits rfl

/-- The first byte of a numeral without a sign is a digit of some base. -/
theorem Spells.exists_cons {base : ℕ} {t : List Byte} {n : ℕ} (h : Spells base t n) :
    ∃ b bs k, t = b :: bs ∧ isDigit k b = true := by
  cases h with
  | plain _ hne hdigits _ =>
      obtain ⟨b, bs, rfl⟩ := List.exists_cons_of_ne_nil hne
      exact ⟨b, bs, base, rfl, hdigits b List.mem_cons_self⟩
  | @hex x digits _ _ ht _ _ _ => exact ⟨48, x :: digits, 10, ht, by decide⟩
  | octal _ hhead hdigits _ =>
      obtain ⟨bs, rfl⟩ : ∃ bs, t = 48 :: bs := ⟨t.tail, (List.eq_cons_of_mem_head? hhead)⟩
      exact ⟨48, bs, 8, rfl, hdigits 48 List.mem_cons_self⟩
  | decimal _ _ hne hdigits _ =>
      obtain ⟨b, bs, rfl⟩ := List.exists_cons_of_ne_nil hne
      exact ⟨b, bs, 10, rfl, hdigits b List.mem_cons_self⟩

/-- What is behind white space and the sign of a numeral, and its sign. -/
theorem IsNumeral.body_eq {base : ℕ} {s : List Byte} {n : ℤ} (h : IsNumeral base s n) :
    ∃ m : ℕ, Spells base (body s) m ∧
      n = if (s.dropWhile Numerals.isSpace).head? = some 45 then -(m : ℤ) else (m : ℤ) := by
  obtain ⟨space, sign, t, m, rfl, hspace, hspells, hsign, rfl⟩ := h
  obtain ⟨b, bs, k, rfl, hb⟩ := hspells.exists_cons
  obtain ⟨hnospace, hminus, hplus⟩ := of_isDigit hb
  refine ⟨m, ?_⟩
  unfold body
  rw [List.dropWhile_append_of_pos hspace]
  rcases hsign with rfl | rfl | rfl
  · rw [List.singleton_append, List.dropWhile_cons_of_neg (by decide)]
    exact ⟨hspells, by simp⟩
  · rw [List.singleton_append, List.dropWhile_cons_of_neg (by decide)]
    exact ⟨hspells, by simp⟩
  · rw [List.nil_append, List.dropWhile_cons_of_neg (by simp [hnospace]),
      Numerals.behindSign_of_ne (fun t' h => hminus (List.cons.inj h).1)
        (fun t' h => hplus (List.cons.inj h).1)]
    exact ⟨hspells, by simp [hminus]⟩

theorem IsNumeral.ne_nil {base : ℕ} {s : List Byte} {n : ℤ} (h : IsNumeral base s n) : s ≠ [] := by
  rintro rfl
  obtain ⟨m, hspells, -⟩ := h.body_eq
  obtain ⟨b, bs, k, hcons, -⟩ := hspells.exists_cons
  cases hcons

/-- The digits that are read of a numeral. -/
theorem IsNumeral.read {base : ℕ} {s : List Byte} {n : ℤ} (h : IsNumeral base s n) :
    digitsOf base s ≠ [] ∧ restOf base s = [] ∧ number base s = n := by
  obtain ⟨m, hspells, hn⟩ := h.body_eq
  obtain ⟨b, digits, hstart, hne, hall, hm⟩ := hspells.start_eq
  have hdigits : digitsOf base s = digits := by
    rw [digitsOf, hstart]
    exact List.takeWhile_eq_self_iff.2 hall
  refine ⟨hdigits ▸ hne, ?_, ?_⟩
  · rw [restOf, hdigits, if_neg hne, hstart]
    exact List.dropWhile_eq_nil_iff.2 hall
  · rw [number, hdigits, hstart, hn, hm]

/-- **The number of a numeral.** -/
theorem IsNumeral.number_eq {base : ℕ} {s : List Byte} {n : ℤ} (h : IsNumeral base s n) :
    number base s = n := h.read.2.2

/-- **Nothing is left exactly of the numerals**, and of the empty string. -/
theorem restOf_eq_nil_iff {base : ℕ} {s : List Byte} (hs : s ≠ []) :
    restOf base s = [] ↔ ∃ n, IsNumeral base s n := by
  constructor
  · intro h
    unfold restOf at h
    split at h
    · exact absurd h hs
    · next hdigits =>
        have hall : ∀ d ∈ (start base (body s)).2, isDigit (start base (body s)).1 d = true := by
          simpa using List.dropWhile_eq_nil_iff.1 h
        have hne : (start base (body s)).2 ≠ [] := by
          intro hnil
          rw [digitsOf, hnil] at hdigits
          exact hdigits rfl
        have hspells := spells_of_start hne hall
        obtain ⟨sign, hsplit, hsign⟩ := Numerals.exists_sign (s.dropWhile Numerals.isSpace)
        refine ⟨_, s.takeWhile Numerals.isSpace, sign, body s, _, ?_,
          fun b hb => List.mem_takeWhile_imp hb, hspells, ?_, rfl⟩
        · rw [body, ← hsplit, List.takeWhile_append_dropWhile]
        · rcases hsign with ⟨hminus, -⟩ | ⟨hplus | hnone, -⟩
          · exact Or.inl hminus
          · exact Or.inr (Or.inl hplus)
          · exact Or.inr (Or.inr hnone)
  · rintro ⟨n, hn⟩
    exact hn.read.2.1

/-! ### Decimal numerals -/

theorem isDigit_ten (b : Byte) (h : Numerals.isDigit b = true) :
    isDigit 10 b = true ∧ (digitVal b).getD 0 = b.toNat - 48 := by
  rw [Numerals.isDigit, decide_eq_true_eq] at h
  have hval : digitVal b = some (b.toNat - 48) := if_pos h
  rw [isDigit, hval]
  have hlow := UInt8.le_iff_toNat_le.1 h.1
  have hhigh := UInt8.le_iff_toNat_le.1 h.2
  simp only [UInt8.reduceToNat] at hlow hhigh
  refine ⟨?_, rfl⟩
  simp only [Option.any_some, decide_eq_true_eq]
  omega

theorem spelled_ten {digits : List Byte} (h : ∀ b ∈ digits, Numerals.isDigit b = true) :
    spelled 10 digits = Numerals.spelled 0 digits := by
  unfold spelled Numerals.spelled
  refine List.foldl_ext _ _ _ fun n b hb => ?_
  rw [(isDigit_ten b (h b hb)).2]

/-- **What `printf` writes for an `int` is a numeral in base ten.** -/
theorem isNumeral_printInt (x : ℤ) : IsNumeral 10 (Numerals.printInt x) x := by
  have hdigits : ∀ b ∈ Numerals.decimal x.natAbs, Numerals.isDigit b = true :=
    fun b hb => Numerals.isDigit_of_mem_decimal hb
  have hspells : Spells 10 (Numerals.decimal x.natAbs) x.natAbs := by
    refine .plain (by decide) (List.ne_nil_of_length_pos (Numerals.length_decimal_pos _))
      (fun b hb => (isDigit_ten b (hdigits b hb)).1) ?_
    rw [spelled_ten hdigits, Numerals.spelled_decimal]
  unfold Numerals.printInt
  split
  · exact ⟨[], [45], _, x.natAbs, rfl, by simp, hspells, Or.inl rfl, by rw [if_pos rfl]; omega⟩
  · exact ⟨[], [], _, x.natAbs, rfl, by simp, hspells, Or.inr (Or.inr rfl),
      by rw [if_neg (by decide)]; omega⟩

end Radix
