/-
**The System V signal calls and their reference model (`HW7/22_4.c`).**

The reference model keeps a mask and a disposition for every signal, and each call changes what its
manual page says.  The functions of the program change the mask and the dispositions in the same
way, whatever is on their stack.  They differ in one value: `mySigset` returns the old disposition
where the reference, and the comment in the function, have `SIG_HOLD`.

Main definitions:

* `Sysv.Reference`, `Sysv.Reference.perform` — the reference model;
* `Sysv.Kernel.view` — the state of the reference model that a state of the kernel stands for.

Main results:

* `Sysv.view_perform` — **the states always correspond**;
* `Sysv.perform_fst_iff` — when a single call returns the same;
* `Sysv.sysv_agrees_iff` — the exact condition for a whole sequence of calls.
-/

import NetSysProg.Responses
import NetSysProg.SigsetModel

set_option relaxedAutoImplicit false
set_option autoImplicit false

namespace Sysv

open Responses

/-! ### The reference model -/

/-- The signals that are blocked, and the dispositions. -/
structure Reference where
  blocked : ℕ → Bool
  disposition : ℕ → Disposition

/-- What a call does according to the manual page, and what it returns. -/
def Reference.perform (r : Reference) : Call → Answer × Reference
  | .sigset sig handler =>
      (.sighandler (if r.blocked sig then .hold else .disposition (r.disposition sig)),
        { blocked := Function.update r.blocked sig false
          disposition := Function.update r.disposition sig handler })
  | .sighold sig => (.int 0, { r with blocked := Function.update r.blocked sig true })
  | .sigrelse sig => (.int 0, { r with blocked := Function.update r.blocked sig false })
  | .sigignore sig => (.int 0, { r with disposition := Function.update r.disposition sig .ign })

/-- The part of the kernel's state that the reference model speaks of. -/
def Kernel.view (k : Kernel) : Reference := ⟨k.mask, fun sig => (k.action sig).handler⟩

theorem view_update_action (k : Kernel) (sig : ℕ) (sa : SigAction) :
    (fun s => (Function.update k.action sig sa s).handler) =
      Function.update k.view.disposition sig sa.handler := by
  funext s
  by_cases hs : s = sig
  · subst hs
    simp
  · simp [hs, Kernel.view]

/-! ### The simulation -/

/-- **The states always correspond.** -/
theorem view_perform (k : Kernel) (c : Call × Garbage) :
    (Call.perform k c).2.view = (k.view.perform c.1).2 := by
  obtain ⟨c, g⟩ := c
  cases c with
  | sigset sig handler =>
      simp only [Call.perform, mySigset_eq k sig.2, Kernel.view, Reference.perform,
        view_update_action, newAction_handler]
  | sighold sig => simp only [Call.perform, mySighold_eq k sig.2, Kernel.view, Reference.perform]
  | sigrelse sig => simp only [Call.perform, mySigrelse_eq k sig.2, Kernel.view, Reference.perform]
  | sigignore sig =>
      simp only [Call.perform, mySigignore_eq k sig.2, Kernel.view, Reference.perform,
        view_update_action]

/-- The call is not a `mySigset` of a signal that is blocked. -/
def NotOnBlocked (r : Reference) (c : Call) : Prop :=
  ∀ sig handler, c = .sigset sig handler → r.blocked sig = false

/-- **When a call returns what the reference model returns.** -/
theorem perform_fst_iff (k : Kernel) (c : Call × Garbage) :
    (Call.perform k c).1 = (k.view.perform c.1).1 ↔ NotOnBlocked k.view c.1 := by
  obtain ⟨c, g⟩ := c
  cases c with
  | sigset sig handler =>
      have hcond : NotOnBlocked k.view (.sigset sig handler) ↔ k.mask sig = false := by
        constructor
        · intro h
          exact h sig handler rfl
        · intro h sig' handler' heq
          cases heq
          exact h
      rw [hcond]
      simp only [Call.perform, mySigset_eq k sig.2, Reference.perform, Answer.sighandler.injEq,
        Kernel.view]
      by_cases hmask : k.mask sig = true
      · simp [hmask]
      · simp [hmask]
  | sighold sig =>
      simp [Call.perform, mySighold_eq k sig.2, Reference.perform, NotOnBlocked]
  | sigrelse sig =>
      simp [Call.perform, mySigrelse_eq k sig.2, Reference.perform, NotOnBlocked]
  | sigignore sig =>
      simp [Call.perform, mySigignore_eq k sig.2, Reference.perform, NotOnBlocked]

/-- **The exact condition.**  After every call of a sequence, the mask, the dispositions and the
returned value are those of the reference model exactly if no `mySigset` of the sequence meets its
signal blocked. -/
theorem sysv_agrees_iff (k : Kernel) (cs : List (Call × Garbage)) :
    (responses Call.perform k cs).map (Prod.map id Kernel.view) =
        responses Reference.perform k.view (cs.map Prod.fst) ↔
      AtEach Reference.perform NotOnBlocked k.view (cs.map Prod.fst) := by
  rw [responses_eq_iff Kernel.view Prod.fst view_perform, ← atEach_map_iff Kernel.view Prod.fst
    view_perform]
  exact atEach_congr perform_fst_iff k cs

/-- `SIGINT` -/
def sigint : Signal := ⟨2, by decide⟩

/-- A process that has just started: nothing is blocked, and every disposition is the default. -/
def Kernel.fresh : Kernel := ⟨sigemptyset, fun _ => ⟨.dfl, 0, sigemptyset⟩⟩

/-- `mySighold(SIGINT)`, and then `mySigset(SIGINT, handler)`. -/
def holdThenSet : List (Call × Garbage) :=
  [(.sighold sigint, ⟨0, sigemptyset⟩), (.sigset sigint (.handler 1), ⟨0, sigemptyset⟩)]

/-- **`mySigset` of a signal that is on hold returns the old disposition**, not `SIG_HOLD`. -/
theorem sysv_differs_holdThenSet :
    (responses Call.perform Kernel.fresh holdThenSet).map (Prod.map id Kernel.view) ≠
      responses Reference.perform Kernel.fresh.view (holdThenSet.map Prod.fst) := by
  have hcode : (responses Call.perform Kernel.fresh holdThenSet).map Prod.fst =
      [.int 0, .sighandler (.disposition .dfl)] := rfl
  have href : (responses Reference.perform Kernel.fresh.view (holdThenSet.map Prod.fst)).map
    Prod.fst =
      [.int 0, .sighandler .hold] := rfl
  intro h
  have hfst := congrArg (List.map Prod.fst) h
  rw [List.map_map, href] at hfst
  have heq := hcode.symm.trans hfst
  simp at heq

end Sysv
