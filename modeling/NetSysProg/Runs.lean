/-
**Runs of a system that takes one action at a time.**

A concurrent program is modelled as a partial step function: `step s a` is the state after the
action `a` in the state `s`, and `none` when the process that would perform `a` is blocked, has
finished or does not exist.  An interleaving is a list of actions, and everything that is claimed
for every interleaving is claimed for every state some list of actions leads to.

Main definitions:

* `Runs.run` — performing a list of actions;
* `Runs.Reachable` — the states that some list of actions leads to;
* `Runs.ReachableVia` — the states reached when every step of the run meets a condition;
* `Runs.Stuck` — no action is possible;
* `Runs.trace` — what the steps of a run show;
* `Runs.Throughout`, `Runs.EachStep` — a property of every state, and a condition on every step.

Main results:

* `Runs.Reachable.invariant`, `Runs.ReachableVia.invariant` — **the invariant rule**: what holds
  initially and is preserved by every step holds of every state reached;
* `Runs.Reachable.history` — the two-state form of the rule, for a relation with a fixed start;
* `Runs.run_append` — running a concatenation;
* `Runs.invariant_trace` — the invariant rule for the trace and the state together;
* `Runs.throughout_iff` — **exact conditions**: when the condition says of every step whether it
  keeps the property, it says so of every run.
-/

import Mathlib.Data.List.Basic
import Mathlib.Tactic.Common

set_option relaxedAutoImplicit false
set_option autoImplicit false

namespace Runs

variable {σ α : Type*} {step : σ → α → Option σ}

/-- The state after a list of actions, performed from left to right. -/
def run (step : σ → α → Option σ) (s : σ) : List α → Option σ
  | [] => some s
  | a :: as => (step s a).bind fun s' => run step s' as

@[simp] theorem run_nil (s : σ) : run step s [] = some s := rfl

theorem run_cons (s : σ) (a : α) (as : List α) :
    run step s (a :: as) = (step s a).bind fun s' => run step s' as := rfl

theorem run_cons_of_step {s s' : σ} {a : α} (h : step s a = some s') (as : List α) :
    run step s (a :: as) = run step s' as := by
  rw [run_cons, h, Option.bind_some]

theorem run_append (s : σ) (as bs : List α) :
    run step s (as ++ bs) = (run step s as).bind fun s' => run step s' bs := by
  induction as generalizing s with
  | nil => rfl
  | cons a as ih =>
      rw [List.cons_append, run_cons, run_cons]
      cases step s a with
      | none => rfl
      | some s' => exact ih s'

theorem run_append_of_run {s s' : σ} {as : List α} (h : run step s as = some s') (bs : List α) :
    run step s (as ++ bs) = run step s' bs := by
  rw [run_append, h, Option.bind_some]

/-- The states that some interleaving leads to. -/
def Reachable (step : σ → α → Option σ) (s₀ s : σ) : Prop := ∃ as, run step s₀ as = some s

namespace Reachable

theorem refl (s : σ) : Reachable step s s := ⟨[], rfl⟩

theorem of_run {s s' : σ} {as : List α} (h : run step s as = some s') : Reachable step s s' :=
  ⟨as, h⟩

theorem trans {s s' s'' : σ} (h : Reachable step s s') (h' : Reachable step s' s'') :
    Reachable step s s'' := by
  obtain ⟨as, has⟩ := h
  obtain ⟨bs, hbs⟩ := h'
  exact ⟨as ++ bs, by rw [run_append_of_run has, hbs]⟩

theorem single {s s' : σ} {a : α} (h : step s a = some s') : Reachable step s s' :=
  ⟨[a], by rw [run_cons_of_step h, run_nil]⟩

theorem tail {s s' s'' : σ} {a : α} (h : Reachable step s s') (ha : step s' a = some s'') :
    Reachable step s s'' := h.trans (single ha)

/-- **The invariant rule.** -/
theorem invariant {I : σ → Prop} (hstep : ∀ s a s', I s → step s a = some s' → I s') {s₀ s : σ}
    (h₀ : I s₀) (h : Reachable step s₀ s) : I s := by
  obtain ⟨as, has⟩ := h
  induction as generalizing s₀ with
  | nil =>
      obtain rfl : s₀ = s := by simpa using has
      exact h₀
  | cons a as ih =>
      cases hs : step s₀ a with
      | none => simp [run_cons, hs] at has
      | some s₁ =>
          rw [run_cons_of_step hs] at has
          exact ih (hstep _ _ _ h₀ hs) has

/-- A relation that every step extends holds between the start of a run and its end. -/
theorem history (R : σ → σ → Prop) {s₀ s : σ} (h : Reachable step s₀ s) (hrefl : ∀ s, R s s)
    (hstep : ∀ s₀ s a s', R s₀ s → step s a = some s' → R s₀ s') : R s₀ s :=
  h.invariant (hstep s₀) (hrefl s₀)

end Reachable

/-- The states reached by runs each of whose steps meets the condition `ok`, which may look at the
state before the step and at the action. -/
inductive ReachableVia (step : σ → α → Option σ) (ok : σ → α → Prop) (s₀ : σ) : σ → Prop
  | refl : ReachableVia step ok s₀ s₀
  | tail {s s' : σ} {a : α} : ReachableVia step ok s₀ s → ok s a → step s a = some s' →
      ReachableVia step ok s₀ s'

namespace ReachableVia

variable {ok : σ → α → Prop}

/-- **The invariant rule for runs under a condition.** -/
theorem invariant {I : σ → Prop} (hstep : ∀ s a s', I s → ok s a → step s a = some s' → I s')
    {s₀ s : σ} (h₀ : I s₀) (h : ReachableVia step ok s₀ s) : I s := by
  induction h with
  | refl => exact h₀
  | tail _ ha hs ih => exact hstep _ _ _ ih ha hs

theorem trans {s s' s'' : σ} (h : ReachableVia step ok s s') (h' : ReachableVia step ok s' s'') :
    ReachableVia step ok s s'' := by
  induction h' with
  | refl => exact h
  | tail _ ha hs ih => exact ih.tail ha hs

/-- A run under a condition is a run. -/
theorem reachable {s₀ s : σ} (h : ReachableVia step ok s₀ s) : Reachable step s₀ s := by
  induction h with
  | refl => exact .refl _
  | tail _ _ hs ih => exact ih.tail hs

/-- A run that checks the condition before every step. -/
theorem of_run [∀ s a, Decidable (ok s a)] {s s' : σ} {as : List α}
    (h : run (fun s a => if ok s a then step s a else none) s as = some s') :
    ReachableVia step ok s s' := by
  induction as generalizing s with
  | nil =>
      obtain rfl : s = s' := by simpa using h
      exact .refl
  | cons a as ih =>
      rw [run_cons] at h
      obtain ⟨s₁, hs, hrun⟩ := Option.bind_eq_some_iff.1 h
      split at hs
      · next ha => exact (ReachableVia.refl.tail ha hs).trans (ih hrun)
      · simp at hs

end ReachableVia

/-- No process can take a step. -/
def Stuck (step : σ → α → Option σ) (s : σ) : Prop := ∀ a, step s a = none

theorem not_stuck_of_step {s s' : σ} {a : α} (h : step s a = some s') : ¬ Stuck step s := by
  intro hs
  rw [hs a] at h
  exact absurd h (by simp)

/-- A run from a state where no process can take a step does not get away from it. -/
theorem Stuck.eq_of_run {s s' : σ} (hs : Stuck step s) {as : List α} (h : run step s as = some s') :
    s' = s := by
  cases as with
  | nil => simpa using h.symm
  | cons a as => simp [run_cons, hs a] at h

/-! ### Traces -/

section Trace

variable {ε : Type*} {event : σ → α → List ε}

/-- What the steps of a run show, in order; the action `a` shows `event s a` in the state `s`. -/
def trace (step : σ → α → Option σ) (event : σ → α → List ε) (s : σ) : List α → List ε
  | [] => []
  | a :: as => event s a ++ (step s a).elim [] fun s' => trace step event s' as

/-- **The invariant rule for the trace and the state together.** -/
theorem invariant_trace {I : List ε → σ → Prop}
    (hstep : ∀ log s a s', I log s → step s a = some s' → I (log ++ event s a) s') {s₀ s : σ}
    {as : List α} (h₀ : I [] s₀) (h : run step s₀ as = some s) : I (trace step event s₀ as) s := by
  have hlog : ∀ (as : List α) (log : List ε) (s₀ : σ), I log s₀ → run step s₀ as = some s →
      I (log ++ trace step event s₀ as) s := by
    intro as
    induction as with
    | nil =>
        intro log s₀ hi hrun
        obtain rfl : s₀ = s := by simpa using hrun
        rwa [trace, List.append_nil]
    | cons a as ih =>
        intro log s₀ hi hrun
        rw [run_cons] at hrun
        obtain ⟨s₁, hs, hrest⟩ := Option.bind_eq_some_iff.1 hrun
        rw [trace, hs, Option.elim_some, ← List.append_assoc]
        exact ih _ _ (hstep _ _ _ _ hi hs) hrest
  exact hlog as [] s₀ h₀ h

end Trace

/-! ### Exact conditions -/

/-- `P` holds of every state of a run. -/
def Throughout (step : σ → α → Option σ) (P : σ → Prop) (s : σ) : List α → Prop
  | [] => P s
  | a :: as => P s ∧ ∀ s', step s a = some s' → Throughout step P s' as

/-- Every step of a run meets the condition `ok`, which may look at the state before the step and at
the action. -/
def EachStep (step : σ → α → Option σ) (ok : σ → α → Prop) (s : σ) : List α → Prop
  | [] => True
  | a :: as => ∀ s', step s a = some s' → ok s a ∧ EachStep step ok s' as

theorem Throughout.head {P : σ → Prop} {s : σ} {as : List α} (h : Throughout step P s as) :
    P s := by
  cases as with
  | nil => exact h
  | cons a as => exact h.1

/-- **Exact conditions.**  When a step from a state with the property leads to a state with it
exactly if the condition is met, a run that starts with the property keeps it exactly if all its
steps meet the condition.  The invariant `I` is there for the step lemma. -/
theorem throughout_iff {P I : σ → Prop} {ok : σ → α → Prop}
    (hstep : ∀ s a s', I s → step s a = some s' → I s')
    (hexact : ∀ s a s', I s → P s → step s a = some s' → (P s' ↔ ok s a)) {s₀ : σ} (h₀ : I s₀)
    (hP : P s₀) (as : List α) : Throughout step P s₀ as ↔ EachStep step ok s₀ as := by
  induction as generalizing s₀ with
  | nil => exact iff_of_true hP trivial
  | cons a as ih =>
      constructor
      · rintro ⟨-, hrest⟩ s' hs
        have hP' : P s' := (hrest s' hs).head
        exact ⟨(hexact _ _ _ h₀ hP hs).1 hP', (ih (hstep _ _ _ h₀ hs) hP').1 (hrest s' hs)⟩
      · intro h
        refine ⟨hP, fun s' hs => ?_⟩
        obtain ⟨hok, hrest⟩ := h s' hs
        have hP' : P s' := (hexact _ _ _ h₀ hP hs).2 hok
        exact (ih (hstep _ _ _ h₀ hs) hP').2 hrest

end Runs
