/-
**Numeric arguments of a command (`HW8/44_6/get_num.c`).**

`getLong` and `getInt` convert an argument with `strtol` and end the program when the argument is no
number, or not a number that the flags allow.  The flags select the base as well.

Main definitions:

* `GetNum.getLong`, `GetNum.getInt` — the two functions, on top of `GetNum.getNum`;
* `GetNum.Admits` — the numbers that an argument stands for under given flags.

Main results:

* `GetNum.getNum_eq_ok_iff` — what `getNum` accepts;
* `GetNum.accepts_iff` — **what the two functions accept**, and with which result: the numerals of
  the numbers that the flags and the type allow, and nothing else.
-/

import NetSysProg.Radix

set_option relaxedAutoImplicit false
set_option autoImplicit false

namespace GetNum

open CString Radix

/-! ### Flags -/

/-- `GN_NONNEG` -/
def nonneg : ℕ := 1

/-- `GN_GT_0` -/
def gt0 : ℕ := 2

/-- `GN_ANY_BASE` -/
def anyBase : ℕ := 64

/-- `GN_BASE_8` -/
def base8 : ℕ := 128

/-- `GN_BASE_16` -/
def base16 : ℕ := 256

/-- A flag is set. -/
def Has (flags flag : ℕ) : Prop := flags &&& flag ≠ 0

instance (flags flag : ℕ) : Decidable (Has flags flag) := inferInstanceAs (Decidable (¬ _))

/-- The base that is handed to `strtol`. -/
def baseOf (flags : ℕ) : ℕ :=
  if Has flags anyBase then 0 else if Has flags base8 then
    8 else if Has flags base16 then 16 else 10

/-! ### Conversion -/

/-- What `gnFail` prints before it ends the program. -/
def gnFail (fname msg : String) (arg : Option (List Byte)) (name : Option String) : List Byte :=
  lit fname ++ lit " error" ++ name.elim [] (fun name => lit " (in " ++ lit name ++ lit ")") ++
    lit ": " ++ lit msg ++ [newline] ++
    arg.elim [] (fun arg => if arg = [] then
      [] else lit "        offending text: " ++ arg ++ [newline])

/-- The number, or what is printed to the standard error output; `einval` says whether `strtol`
takes a string without a number for an error. -/
def getNum (einval : Bool) (fname : String) (arg : Option (List Byte)) (flags : ℕ)
    (name : Option String) :
    Except (List Byte) ℤ :=
  match arg with
  | none => .error (gnFail fname "null or empty string" none name)
  | some s =>
      if s = [] then .error (gnFail fname "null or empty string" (some s) name)
      else
        let base := baseOf flags
        let res := strtol base s
        if Fails einval base s then .error (gnFail fname "strtol() failed" (some s) name)
        else if restOf base s ≠ [] then .error (gnFail fname "nonnumeric characters" (some s) name)
        else if Has flags nonneg ∧ res < 0 then
          .error (gnFail fname "negative value not allowed" (some s) name)
        else if Has flags gt0 ∧ res ≤ 0 then .error (gnFail fname "value must be > 0" (some s) name)
        else .ok res

def getLong (einval : Bool) (arg : Option (List Byte)) (flags : ℕ) (name : Option String) :
    Except (List Byte) ℤ := getNum einval "getLong" arg flags name

def getInt (einval : Bool) (arg : Option (List Byte)) (flags : ℕ) (name : Option String) :
    Except (List Byte) ℤ := do
  let res ← getNum einval "getInt" arg flags name
  if res > CInt.intMax ∨ res < CInt.intMin then
    .error (gnFail "getInt" "integer out of range" arg name)
  else return res

/-! ### What is accepted -/

/-- The argument is a numeral of `n`, in the base that the flags select, and they allow this
number. -/
def Admits (flags : ℕ) (arg : Option (List Byte)) (n : ℤ) : Prop :=
  ∃ s, arg = some s ∧ IsNumeral (baseOf flags) s n ∧ (Has flags nonneg → 0 ≤ n) ∧
    (Has flags gt0 → 0 < n)

theorem getNum_eq_ok_iff {einval : Bool} {fname : String} {arg : Option (List Byte)} {flags : ℕ}
    {name : Option String} {v : ℤ} :
    getNum einval fname arg flags name = .ok v ↔
      Admits flags arg v ∧ Numerals.longMin ≤ v ∧ v ≤ Numerals.longMax := by
  constructor
  · intro h
    unfold getNum at h
    split at h
    · cases h
    · next s =>
        dsimp only at h
        split_ifs at h with hempty hfails hrest hneg hpos
        cases h
        rw [Fails, not_or, not_or, Int.not_lt, Int.not_lt] at hfails
        obtain ⟨n, hn⟩ := (restOf_eq_nil_iff hempty).1 (not_not.1 hrest)
        have hvalue : strtol (baseOf flags) s = n := by
          rw [strtol_of_mem hfails.1 hfails.2.1, hn.number_eq]
        rw [hn.number_eq] at hfails
        rw [hvalue] at hneg hpos ⊢
        refine ⟨⟨s, rfl, hn, fun hflag => ?_, fun hflag => ?_⟩, hfails.1, hfails.2.1⟩
        · by_contra hlt
          exact hneg ⟨hflag, by omega⟩
        · by_contra hle
          exact hpos ⟨hflag, by omega⟩
  · rintro ⟨⟨s, rfl, hn, hneg, hpos⟩, hmin, hmax⟩
    obtain ⟨hdigits, hrest, hnumber⟩ := hn.read
    have hfails : ¬ Fails einval (baseOf flags) s := by
      rintro (h | h | h)
      · omega
      · omega
      · exact hdigits h.1
    have hvalue : strtol (baseOf flags) s = v := by
      rw [strtol_of_mem (by omega) (by omega), hnumber]
    have hneg' : ¬ (Has flags nonneg ∧ v < 0) := by
      rintro ⟨hflag, hlt⟩
      have hle := hneg hflag
      omega
    have hpos' : ¬ (Has flags gt0 ∧ v ≤ 0) := by
      rintro ⟨hflag, hle⟩
      have hlt := hpos hflag
      omega
    simp only [getNum, if_neg hn.ne_nil, if_neg hfails, if_neg (not_not.2 hrest),
      hvalue, if_neg hneg', if_neg hpos']

/-- **What `getLong` and `getInt` accept**: exactly the numerals, in the base that the flags select,
of the numbers that the flags and the type of the result allow; and that number is the result. -/
theorem accepts_iff (einval : Bool) (arg : Option (List Byte)) (flags : ℕ)
    (name : Option String) (v : ℤ) :
    (getLong einval arg flags name = .ok v ↔
      Admits flags arg v ∧ Numerals.longMin ≤ v ∧ v ≤ Numerals.longMax) ∧
    (getInt einval arg flags name = .ok v ↔
      Admits flags arg v ∧ CInt.intMin ≤ v ∧ v ≤ CInt.intMax) := by
  refine ⟨getNum_eq_ok_iff, ?_⟩
  constructor
  · intro h
    unfold getInt at h
    cases hnum : getNum einval "getInt" arg flags name with
    | error text =>
        rw [hnum] at h
        cases h
    | ok res =>
        rw [hnum] at h
        change (if res > CInt.intMax ∨ res < CInt.intMin then _ else _) = _ at h
        split_ifs at h with hrange
        cases h
        have hadmits := (getNum_eq_ok_iff.1 hnum).1
        exact ⟨hadmits, by omega, by omega⟩
  · rintro ⟨hadmits, hmin, hmax⟩
    have hlong : Numerals.longMin ≤ v ∧ v ≤ Numerals.longMax := by
      unfold CInt.intMin at hmin
      unfold CInt.intMax at hmax
      unfold Numerals.longMin Numerals.longMax
      omega
    have hrange : ¬ (v > CInt.intMax ∨ v < CInt.intMin) := by omega
    rw [getInt, getNum_eq_ok_iff.2 ⟨hadmits, hlong⟩]
    exact if_neg hrange

/-- **A number that is written in decimal is read back** by `getInt`, if the flags allow it. -/
theorem getInt_printInt (einval : Bool) {flags : ℕ} (name : Option String) {v : ℤ}
    (hbase : baseOf flags = 10)
    (hneg : Has flags nonneg → 0 ≤ v) (hpos : Has flags gt0 → 0 < v) (hmin : CInt.intMin ≤ v)
    (hmax : v ≤ CInt.intMax) : getInt einval (some (Numerals.printInt v)) flags name = .ok v := by
  have hadmits : Admits flags (some (Numerals.printInt v)) v :=
    ⟨_, rfl, hbase ▸ isNumeral_printInt v, hneg, hpos⟩
  exact (accepts_iff einval _ flags name v).2.2 ⟨hadmits, hmin, hmax⟩

end GetNum
