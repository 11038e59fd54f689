/-
**Runs that come to an end.**

A system of processes completes when no run of it goes on for ever and every run that cannot go on
has come to a good end.  Together these say that nothing the scheduler does keeps the system from
its end: there is no deadlock on the way, and no fairness is needed.

Main definitions:

* `Runs.Completes` — every run is bounded, and every state in which no process can take a step is
  good;
* `Runs.guard` — the system whose steps are restricted by a condition.

Main results:

* `Runs.Completes.of_measure` — **the completion rule**: an invariant, a measure that every step
  lowers, and a good end wherever the invariant holds and no step is possible;
* `Runs.Completes.exists_run` — from every state on the way a good end is reached;
* `Runs.sum_map_set`, `Runs.sum_update` — the weight of a pool, and of a family, of processes after
  one of them has taken a step.
-/

import NetSysProg.Runs
import Mathlib.Algebra.BigOperators.Group.Finset.Basic
import Mathlib.Algebra.BigOperators.Group.List.Basic
import Mathlib.Algebra.GroupWithZero.Nat

set_option relaxedAutoImplicit false
set_option autoImplicit false

namespace Runs

variable {σ α : Type*} {step : σ → α → Option σ}

/-! ### Completion -/

/-- Every run from `s₀` is finite, with one bound for all of them, and every run that cannot be
continued ends in a state with the property `P`. -/
def Completes (step : σ → α → Option σ) (s₀ : σ) (P : σ → Prop) : Prop :=
  (∃ n, ∀ as s, run step s₀ as = some s → as.length ≤ n) ∧
    ∀ s, Reachable step s₀ s → Stuck step s → P s

/-- A measure that every step lowers bounds the length of a run. -/
theorem length_add_measure_le {I : σ → Prop} {m : σ → ℕ}
    (hstep : ∀ s a s', I s → step s a = some s' → I s')
    (hlower : ∀ s a s', I s → step s a = some s' → m s' < m s) {s₀ s : σ} {as : List α} (h₀ : I s₀)
    (h : run step s₀ as = some s) : as.length + m s ≤ m s₀ := by
  induction as generalizing s₀ with
  | nil =>
      obtain rfl : s₀ = s := by simpa using h
      exact Nat.le_of_eq (Nat.zero_add _)
  | cons a as ih =>
      rw [run_cons] at h
      obtain ⟨s₁, hs, hrest⟩ := Option.bind_eq_some_iff.1 h
      have hlt : m s₁ < m s₀ := hlower _ _ _ h₀ hs
      have hle : as.length + m s ≤ m s₁ := ih (hstep _ _ _ h₀ hs) hrest
      rw [List.length_cons]
      omega

namespace Completes

/-- **The completion rule.** -/
theorem of_measure {I P : σ → Prop} (m : σ → ℕ) (hstep : ∀ s a s', I s → step s a = some s' → I s')
    (hlower : ∀ s a s', I s → step s a = some s' → m s' < m s)
    (hstuck : ∀ s, I s → Stuck step s → P s)
    {s₀ : σ} (h₀ : I s₀) : Completes step s₀ P := by
  constructor
  · refine ⟨m s₀, fun as s h => ?_⟩
    have hle : as.length + m s ≤ m s₀ := length_add_measure_le hstep hlower h₀ h
    omega
  · intro s hs
    exact hstuck s (hs.invariant hstep h₀)

variable {s₀ : σ} {P Q : σ → Prop}

theorem mono (h : Completes step s₀ P) (hPQ : ∀ s, P s → Q s) : Completes step s₀ Q :=
  ⟨h.1, fun s hs hstuck => hPQ s (h.2 s hs hstuck)⟩

/-- What has completed so far can still complete. -/
theorem of_reachable {s : σ} (h : Completes step s₀ P) (hs : Reachable step s₀ s) :
    Completes step s P := by
  obtain ⟨⟨n, hn⟩, hgood⟩ := h
  constructor
  · obtain ⟨as, has⟩ := hs
    refine ⟨n, fun bs s' hbs => ?_⟩
    have hle : (as ++ bs).length ≤ n := hn (as ++ bs) s' (by rw [run_append_of_run has, hbs])
    rw [List.length_append] at hle
    omega
  · intro s' hs'
    exact hgood s' (hs.trans hs')

/-- **From every state on the way a good end is reached**, whatever the processes have done so
far. -/
theorem exists_run {s : σ} (h : Completes step s₀ P) (hs : Reachable step s₀ s) :
    ∃ as s', run step s as = some s' ∧ Stuck step s' ∧ P s' := by
  obtain ⟨⟨n, hn⟩, hgood⟩ := h.of_reachable hs
  by_contra hnone
  have hlong : ∀ k, ∃ as s', run step s as = some s' ∧ as.length = k := by
    intro k
    induction k with
    | zero => exact ⟨[], s, rfl, rfl⟩
    | succ k ih =>
        obtain ⟨as, s', has, hlen⟩ := ih
        have hmove : ¬ Stuck step s' := by
          intro hstuck
          exact hnone ⟨as, s', has, hstuck, hgood s' ⟨as, has⟩ hstuck⟩
        obtain ⟨a, ha⟩ := not_forall.1 hmove
        obtain ⟨s'', hs''⟩ := Option.ne_none_iff_exists'.1 ha
        refine ⟨as ++ [a], s'', ?_, ?_⟩
        · rw [run_append_of_run has, run_cons_of_step hs'', run_nil]
        · rw [List.length_append, List.length_singleton, hlen]
  obtain ⟨as, s', has, hlen⟩ := hlong (n + 1)
  have hle : as.length ≤ n := hn as s' has
  omega

end Completes

/-! ### Restricted steps -/

/-- Only the steps that meet the condition `ok`, which may look at the state before the step and at
the action. -/
def guard (step : σ → α → Option σ) (ok : σ → α → Prop) [∀ s a, Decidable (ok s a)]
    (s : σ) (a : α) :
    Option σ :=
  if ok s a then step s a else none

section Guard

variable {ok : σ → α → Prop} [∀ s a, Decidable (ok s a)]

theorem guard_eq_some {s s' : σ} {a : α} : guard step ok s a = some s' ↔
    ok s a ∧ step s a = some s' := by
  unfold guard
  split
  · next hok => exact (and_iff_right hok).symm
  · next hok => exact iff_of_false (by simp) fun h => hok h.1

end Guard

/-! ### Pools of processes -/

/-- One process of a pool gets another weight. -/
theorem sum_map_set (w : σ → ℕ) {pool : List σ} {i : ℕ} {x : σ} (h : pool[i]? = some x) (y : σ) :
    ((pool.set i y).map w).sum + w x = (pool.map w).sum + w y := by
  induction pool generalizing i with
  | nil => simp at h
  | cons z pool ih =>
      cases i with
      | zero =>
          obtain rfl : z = x := by simpa using h
          simp only [List.set_cons_zero, List.map_cons, List.sum_cons]
          omega
      | succ i =>
          have hrest := ih (i := i) (by simpa using h)
          simp only [List.set_cons_succ, List.map_cons, List.sum_cons]
          omega

/-- One process of a family gets another weight. -/
theorem sum_update {ι : Type*} [Fintype ι] [DecidableEq ι] (w : ι → σ → ℕ) (f : ι → σ)
    (i : ι) (x : σ) :
    ∑ j, w j (Function.update f i x j) + w i (f i) = ∑ j, w j (f j) + w i x := by
  have hrest : ∑ j ∈ Finset.univ.erase i, w j (Function.update f i x j) =
      ∑ j ∈ Finset.univ.erase i, w j (f j) := by
    refine Finset.sum_congr rfl fun j hj => ?_
    rw [Function.update_of_ne (Finset.ne_of_mem_erase hj)]
  rw [← Finset.add_sum_erase Finset.univ _ (Finset.mem_univ i),
    ← Finset.add_sum_erase Finset.univ (fun j => w j (f j)) (Finset.mem_univ i), hrest,
    Function.update_self]
  omega

end Runs
