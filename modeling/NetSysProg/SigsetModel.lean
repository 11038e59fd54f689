/-
**System V signal calls on top of the POSIX ones (`HW7/22_4.c`).**

The kernel keeps a mask of blocked signals and, for every signal, an action: the disposition, flags,
and the signals that are blocked while a handler runs.  `sigprocmask` and `sigaction` change them,
and `mySighold`, `mySigrelse`, `mySigset` and `mySigignore` are written with these two.  They leave
fields of their `struct sigaction` unset, so what is on the stack becomes part of the action.

Main definitions:

* `Sysv.Kernel`, `Sysv.sigprocmask`, `Sysv.sigaction` — the kernel;
* `Sysv.mySighold`, `Sysv.mySigrelse`, `Sysv.mySigset`, `Sysv.mySigignore` — the four functions;
* `Sysv.Call`, `Sysv.Call.perform` — a call with the contents of its stack.

Main results:

* `Sysv.mySighold_eq`, `Sysv.mySigrelse_eq`, `Sysv.mySigignore_eq`, `Sysv.mySigset_eq` — **what each
  function does** for a signal that can be caught.
-/

import Mathlib.Data.Int.Init
import Mathlib.Logic.Function.Basic
import Mathlib.Tactic.Common

set_option relaxedAutoImplicit false
set_option autoImplicit false

namespace Sysv

/-! ### The kernel -/

/-- `SIGKILL` -/
def sigkill : ℕ := 9

/-- `SIGSTOP` -/
def sigstop : ℕ := 19

/-- A number that `sigaddset` accepts: the signals `1` to `64`, without the two that the C library
keeps for itself. -/
def IsSignal (sig : ℕ) : Prop := 0 < sig ∧ sig < 65 ∧ sig ≠ 32 ∧ sig ≠ 33

instance (sig : ℕ) : Decidable (IsSignal sig) :=
  inferInstanceAs (Decidable (_ ∧ _ ∧ _ ∧ _))

/-- A signal whose disposition can be set. -/
def Catchable (sig : ℕ) : Prop := IsSignal sig ∧ sig ≠ sigkill ∧ sig ≠ sigstop

instance (sig : ℕ) : Decidable (Catchable sig) :=
  inferInstanceAs (Decidable (_ ∧ _ ∧ _))

/-- A signal that can be caught. -/
abbrev Signal := { sig : ℕ // Catchable sig }

/-- `SIG_DFL`, `SIG_IGN`, or the address of a handler. -/
inductive Disposition
  | dfl
  | ign
  | handler (address : ℕ)
  deriving DecidableEq

/-- A `sighandler_t` that a function returns: a disposition, `SIG_HOLD`, or `(sighandler_t) -1`. -/
inductive Sighandler
  | disposition (d : Disposition)
  | hold
  | err
  deriving DecidableEq

/-- `sigset_t` -/
abbrev SigSet := ℕ → Bool

def sigemptyset : SigSet := fun _ => false

/-- `sigaddset`; a number that it refuses leaves the set as it is. -/
def sigaddset (set : SigSet) (sig : ℕ) : SigSet :=
  if IsSignal sig then Function.update set sig true else set

def sigismember (set : SigSet) (sig : ℕ) : Bool := set sig

/-- `SA_RESETHAND` -/
def saResethand : ℕ := 0x80000000

/-- `struct sigaction` -/
structure SigAction where
  handler : Disposition
  flags : ℕ
  mask : SigSet

/-- The mask of blocked signals, and the actions. -/
structure Kernel where
  mask : SigSet
  action : ℕ → SigAction

/-- The first argument of `sigprocmask`. -/
inductive How
  | block
  | unblock
  | setmask
  deriving DecidableEq

/-- `sigprocmask`: the mask before the call, and what becomes of the kernel.  The call does not
fail, and it blocks neither `SIGKILL` nor `SIGSTOP`. -/
def sigprocmask (how : How) (set : Option SigSet) (k : Kernel) : SigSet × Kernel :=
  match set with
  | none => (k.mask, k)
  | some set =>
      let allowed : SigSet := fun sig => set sig && decide (sig ≠ sigkill ∧ sig ≠ sigstop)
      match how with
      | .block => (k.mask, { k with mask := fun sig => k.mask sig || allowed sig })
      | .unblock => (k.mask, { k with mask := fun sig => k.mask sig && !allowed sig })
      | .setmask => (k.mask, { k with mask := allowed })

/-- `sigaction` with a new action: the old one, and what becomes of the kernel; it fails for a
signal that cannot be caught. -/
def sigaction (sig : ℕ) (sa : SigAction) (k : Kernel) : Option (SigAction × Kernel) :=
  if Catchable sig then
    some (k.action sig, { k with action := Function.update k.action sig sa })
  else none

/-! ### The functions -/

/-- What a call finds in the fields of its `struct sigaction` that it does not set. -/
structure Garbage where
  flags : ℕ
  mask : SigSet

def mySighold (sig : ℕ) (k : Kernel) : ℤ × Kernel :=
  (0, (sigprocmask .block (some (sigaddset sigemptyset sig)) k).2)

def mySigrelse (sig : ℕ) (k : Kernel) : ℤ × Kernel :=
  (0, (sigprocmask .unblock (some (sigaddset sigemptyset sig)) k).2)

/-- The `struct sigaction` that `mySigset` fills in, in one of its three branches. -/
def newAction (handler : Disposition) (g : Garbage) : SigAction :=
  match handler with
  -- reset the disposition to default
  | .dfl => ⟨.dfl, saResethand, g.mask⟩
  | .ign => ⟨.ign, g.flags, g.mask⟩
  | .handler address => ⟨.handler address, g.flags, g.mask⟩

/-- `mySigset`; the branch for `SIG_HOLD` is commented out. -/
def mySigset (sig : ℕ) (handler : Disposition) (g : Garbage) (k : Kernel) : Sighandler × Kernel :=
  match sigaction sig (newAction handler g) k with
  | none => (.err, k)
  | some (oldSa, k) =>
      let blockSig := (sigprocmask .block none k).1
      if sigismember blockSig sig then
        -- `return SIG_HOLD` is commented out
        (.disposition oldSa.handler, (mySigrelse sig k).2)
      else (.disposition oldSa.handler, k)

def mySigignore (sig : ℕ) (g : Garbage) (k : Kernel) : ℤ × Kernel :=
  match sigaction sig ⟨.ign, g.flags, g.mask⟩ k with
  | none => (-1, k)
  | some (_, k) => (0, k)

/-! ### What they do -/

@[simp] theorem newAction_handler (handler : Disposition) (g : Garbage) :
    (newAction handler g).handler = handler := by
  cases handler <;> rfl

/-- The set of one signal that can be caught, as `sigprocmask` takes it. -/
theorem allowed_single {sig : ℕ} (h : Catchable sig) (s : ℕ) :
    (sigaddset sigemptyset sig s && decide (s ≠ sigkill ∧ s ≠ sigstop)) = decide (s = sig) := by
  rw [sigaddset, if_pos h.1]
  by_cases hs : s = sig
  · subst hs
    simp [h.2.1, h.2.2]
  · simp [hs, sigemptyset]

section

variable {sig : ℕ} (k : Kernel)

/-- Holding a signal adds it to the mask. -/
theorem mySighold_eq (h : Catchable sig) :
    mySighold sig k = (0, { k with mask := Function.update k.mask sig true }) := by
  simp only [mySighold, sigprocmask, allowed_single h]
  congr 2
  funext s
  by_cases hs : s = sig
  · subst hs
    simp
  · simp [hs]

/-- Releasing a signal removes it from the mask. -/
theorem mySigrelse_eq (h : Catchable sig) :
    mySigrelse sig k = (0, { k with mask := Function.update k.mask sig false }) := by
  simp only [mySigrelse, sigprocmask, allowed_single h]
  congr 2
  funext s
  by_cases hs : s = sig
  · subst hs
    simp
  · simp [hs]

/-- Ignoring a signal sets its action. -/
theorem mySigignore_eq (h : Catchable sig) (g : Garbage) :
    mySigignore sig g k =
      (0, { k with action := Function.update k.action sig ⟨.ign, g.flags, g.mask⟩ }) := by
  rw [mySigignore, sigaction, if_pos h]

/-- **`mySigset` sets the action and removes the signal from the mask**; it returns the disposition
before the call in either case. -/
theorem mySigset_eq (h : Catchable sig) (handler : Disposition) (g : Garbage) :
    mySigset sig handler g k =
      (.disposition (k.action sig).handler,
        { mask := Function.update k.mask sig false
          action := Function.update k.action sig (newAction handler g) }) := by
  have hsa : sigaction sig (newAction handler g) k =
      some (k.action sig,
        { k with action := Function.update k.action sig (newAction handler g) }) := by
    rw [sigaction, if_pos h]
  rw [mySigset, hsa]
  simp only [sigprocmask, sigismember, mySigrelse_eq _ h]
  split
  · rfl
  · next hmem =>
      have hfalse : k.mask sig = false := by simpa using hmem
      have hmask : Function.update k.mask sig false = k.mask := by
        rw [← hfalse, Function.update_eq_self]
      rw [hmask]

end

/-! ### Calls -/

/-- A call of one of the functions, for a signal that can be caught. -/
inductive Call
  | sigset (sig : Signal) (handler : Disposition)
  | sighold (sig : Signal)
  | sigrelse (sig : Signal)
  | sigignore (sig : Signal)

/-- What a call returns. -/
inductive Answer
  | int (result : ℤ)
  | sighandler (result : Sighandler)
  deriving DecidableEq

/-- A call, with the contents of its stack. -/
def Call.perform (k : Kernel) (c : Call × Garbage) : Answer × Kernel :=
  match c.1 with
  | .sigset sig handler =>
      let r := mySigset sig handler c.2 k
      (.sighandler r.1, r.2)
  | .sighold sig =>
      let r := mySighold sig k
      (.int r.1, r.2)
  | .sigrelse sig =>
      let r := mySigrelse sig k
      (.int r.1, r.2)
  | .sigignore sig =>
      let r := mySigignore sig c.2 k
      (.int r.1, r.2)

end Sysv
