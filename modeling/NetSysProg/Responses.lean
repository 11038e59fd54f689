/-
**Machines that answer every input.**

A function `step : σ → α → β × σ` takes a state and an input to an answer and the next state.  What
can be seen of such a machine is, for every input of a sequence, the answer and the state it leaves.
One machine is compared with another through a map of the states; when the states always correspond,
the two machines show the same exactly if each single answer is the same.

* `Responses.responses` — the answers to a sequence of inputs, each with the state it leaves;
* `Responses.AtEach` — a condition on every input and the state it meets;
* `Responses.responses_eq_iff` — **the comparison of two machines**;
* `Responses.atEach_map_iff` — a condition that speaks of the other machine's states.
-/

import Mathlib.Data.List.Basic
import Mathlib.Tactic.Common

set_option relaxedAutoImplicit false
set_option autoImplicit false

namespace Responses

variable {σ τ α γ β : Type*}

/-- The answers to a sequence of inputs, each with the state it leaves. -/
def responses (step : σ → α → β × σ) (s : σ) : List α → List (β × σ)
  | [] => []
  | a :: as => step s a :: responses step (step s a).2 as

/-- Every input of the sequence meets a state with which it satisfies `ok`. -/
def AtEach (step : σ → α → β × σ) (ok : σ → α → Prop) (s : σ) : List α → Prop
  | [] => True
  | a :: as => ok s a ∧ AtEach step ok (step s a).2 as

theorem atEach_congr {step : σ → α → β × σ} {ok ok' : σ → α → Prop}
    (h : ∀ s a, ok s a ↔ ok' s a) (s : σ) (as : List α) :
    AtEach step ok s as ↔ AtEach step ok' s as := by
  induction as generalizing s with
  | nil => exact Iff.rfl
  | cons a as ih => exact and_congr (h s a) (ih _)

section Comparison

variable {step : σ → α → β × σ} {step' : τ → γ → β × τ} (f : σ → τ) (g : α → γ)

/-- **The comparison of two machines** whose states correspond through `f`, on inputs that
correspond through `g`. -/
theorem responses_eq_iff (hstate : ∀ s a, f (step s a).2 = (step' (f s) (g a)).2) (s : σ)
    (as : List α) :
    (responses step s as).map (Prod.map id f) = responses step' (f s) (as.map g) ↔
      AtEach step (fun s a => (step s a).1 = (step' (f s) (g a)).1) s as := by
  induction as generalizing s with
  | nil => exact iff_of_true rfl trivial
  | cons a as ih =>
      simp only [responses, AtEach, List.map_cons, List.cons.injEq, ← ih, hstate]
      refine and_congr_left fun _ => ?_
      constructor
      · intro h
        exact congrArg Prod.fst h
      · intro h
        exact Prod.ext h (hstate s a)

/-- A condition on the states and inputs that correspond. -/
theorem atEach_map_iff (hstate : ∀ s a, f (step s a).2 = (step' (f s) (g a)).2)
    (ok : τ → γ → Prop) (s : σ) (as : List α) :
    AtEach step (fun s a => ok (f s) (g a)) s as ↔ AtEach step' ok (f s) (as.map g) := by
  induction as generalizing s with
  | nil => exact Iff.rfl
  | cons a as ih =>
      rw [AtEach, List.map_cons, AtEach, ih, hstate]

end Comparison

end Responses
