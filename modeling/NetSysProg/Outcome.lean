/-
**How a C function ends.**

A function either returns, or ends the process through `exit`, or does something that has no defined
meaning, such as following a null pointer.  A loop is unrolled a given number of times; when that
number runs out the outcome is none of these, and what is proved about such a loop says how many
times are enough.

* `Outcome` — the four ways, with the status and the message of an `exit`;
* `Outcome.deref` — following a pointer;
* `Outcome.bind_eq_ok` — **a computation returns when each of its parts does**, which is how a
  function that returns is taken apart;
* `Outcome.Upto` — the outcome of a loop compared with what comes of more iterations;
* `Outcome.Alike`, `Outcome.Alike.bind` — **two computations side by side**, with results that are
  related.
-/

import Mathlib.Data.Int.Init
import Mathlib.Tactic.Common

set_option relaxedAutoImplicit false
set_option autoImplicit false

universe u

/-- How a C function ends. -/
inductive Outcome (α : Type u)
  /-- It returns. -/
  | ok (a : α)
  /-- It prints the message and ends the process. -/
  | exit (status : ℤ) (message : String)
  /-- It has no defined meaning. -/
  | fault
  /-- It has not ended in the number of iterations given. -/
  | timeout
  deriving DecidableEq

namespace Outcome

variable {α β : Type u}

/-- Sequencing. -/
def bind (x : Outcome α) (f : α → Outcome β) : Outcome β :=
  match x with
  | ok a => f a
  | exit status message => exit status message
  | fault => fault
  | timeout => timeout

instance : Monad Outcome where
  pure := ok
  bind := bind

@[simp] theorem pure_eq (a : α) : (pure a : Outcome α) = ok a := rfl

@[simp] theorem bind_ok (a : α) (f : α → Outcome β) : (ok a >>= f) = f a := rfl

@[simp] theorem bind_exit (status : ℤ) (message : String) (f : α → Outcome β) :
    (exit status message >>= f) = exit status message := rfl

@[simp] theorem bind_fault (f : α → Outcome β) : (fault >>= f) = fault := rfl

@[simp] theorem bind_timeout (f : α → Outcome β) : (timeout >>= f) = timeout := rfl

theorem bind_assoc {γ : Type u} (x : Outcome α) (f : α → Outcome β) (g : β → Outcome γ) :
    (x >>= f) >>= g = x >>= fun a => f a >>= g := by
  cases x <;> rfl

/-- **A sequence returns when both of its parts do.** -/
theorem bind_eq_ok {x : Outcome α} {f : α → Outcome β} {b : β} :
    (x >>= f) = ok b ↔ ∃ a, x = ok a ∧ f a = ok b := by
  cases x with
  | ok a => simp
  | exit status message => simp
  | fault => simp
  | timeout => simp

/-- Following a pointer; the null pointer and a pointer to freed memory lead nowhere. -/
def deref : Option α → Outcome α
  | some a => ok a
  | none => fault

@[simp] theorem deref_some (a : α) : deref (some a) = ok a := rfl

/-! ### More iterations -/

/-- `x` is `y`, or the number of iterations given was too small to tell. -/
def Upto (x y : Outcome α) : Prop := x = timeout ∨ x = y

theorem Upto.refl (x : Outcome α) : Upto x x := Or.inr rfl

theorem Upto.trans {x y z : Outcome α} (h : Upto x y) (h' : Upto y z) : Upto x z := by
  rcases h with h | rfl
  · exact Or.inl h
  · exact h'

theorem Upto.bind {x y : Outcome α} {f g : α → Outcome β} (h : Upto x y)
    (hfg : ∀ a, Upto (f a) (g a)) : Upto (x >>= f) (y >>= g) := by
  rcases h with rfl | rfl
  · exact Or.inl rfl
  · cases x with
    | ok a => exact hfg a
    | exit status message => exact .refl _
    | fault => exact .refl _
    | timeout => exact .refl _

/-! ### Two computations side by side -/

/-- Both computations return, with results in the relation, or both end in the same other way. -/
inductive Alike (R : α → β → Prop) : Outcome α → Outcome β → Prop
  | ok {a : α} {b : β} (h : R a b) : Alike R (ok a) (ok b)
  | exit (status : ℤ) (message : String) : Alike R (exit status message) (exit status message)
  | fault : Alike R fault fault
  | timeout : Alike R timeout timeout

theorem Alike.mono {R S : α → β → Prop} {x : Outcome α} {y : Outcome β} (h : Alike R x y)
    (hRS : ∀ a b, R a b → S a b) : Alike S x y := by
  cases h with
  | ok hab => exact .ok (hRS _ _ hab)
  | exit status message => exact .exit status message
  | fault => exact .fault
  | timeout => exact .timeout

/-- **Sequences are alike when their parts are.** -/
theorem Alike.bind {α' β' : Type u} {R : α → β → Prop} {S : α' → β' → Prop} {x : Outcome α}
    {y : Outcome β}
    {f : α → Outcome α'} {g : β → Outcome β'} (h : Alike R x y)
    (hfg : ∀ a b, R a b → Alike S (f a) (g b)) :
    Alike S (x >>= f) (y >>= g) := by
  cases h with
  | ok hab => exact hfg _ _ hab
  | exit status message => exact .exit status message
  | fault => exact .fault
  | timeout => exact .timeout

end Outcome
