/-
**Thirty-two bit `int` arithmetic.**

An `int` is an integer between `CInt.intMin` and `CInt.intMax`.  The machine's sums and products are
the mathematical ones wrapped around into that range, and storing a wider integer in an `int` wraps
it in the same way, so one function serves for both.

* `CInt.wrap` — the `int` that an integer becomes;
* `CInt.wrap_of_mem` — nothing happens to an integer that is already in the range;
* `CInt.wrap_wrap_add` — wrapping after every addition of a sum is wrapping once at its end.
-/

import Mathlib.Data.Int.Init
import Mathlib.Tactic.Common

set_option relaxedAutoImplicit false
set_option autoImplicit false

namespace CInt

/-- `INT_MAX`. -/
def intMax : ℤ := 2147483647

/-- `INT_MIN`. -/
def intMin : ℤ := -2147483648

/-- The `int` that the integer `x` becomes, in two's complement. -/
def wrap (x : ℤ) : ℤ := (x + 2147483648) % 4294967296 - 2147483648

theorem wrap_mem (x : ℤ) : intMin ≤ wrap x ∧ wrap x ≤ intMax := by
  unfold wrap intMin intMax
  omega

theorem wrap_of_mem {x : ℤ} (h : intMin ≤ x) (h' : x ≤ intMax) : wrap x = x := by
  unfold intMin at h
  unfold intMax at h'
  unfold wrap
  omega

/-- An integer between `0` and `INT_MAX` is its own `int`. -/
theorem wrap_of_nonneg {x : ℤ} (h : 0 ≤ x) (h' : x ≤ intMax) : wrap x = x :=
  wrap_of_mem (by unfold intMin; omega) h'

theorem wrap_wrap_add (x y : ℤ) : wrap (wrap x + y) = wrap (x + y) := by
  unfold wrap
  omega

end CInt
