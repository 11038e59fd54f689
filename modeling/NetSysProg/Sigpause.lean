/-
**Waiting for a signal without losing it (`HW7/22_4.c`).**

`mySigpause` reads the mask, takes one signal out of its copy, and calls `sigsuspend`, which sets
that mask and waits in one step.  Between the two calls signals come in as at any other time.  If
the signal is on hold all the while, it stays pending until `sigsuspend` lets it through; otherwise
it may be handled too early, and the process sleeps with nobody left to wake it.

Signals are raised by others at any time.  The kernel delivers a pending signal that is not blocked:
a handler begins to run, on top of the ones that are interrupted, and with its return the mask from
before is back.  Job control is left out: nobody raises `SIGCONT` or a signal that stops.

Main definitions:

* `Sysv.Proc`, `Sysv.deliver` — a process with its pending signals and the handlers that run;
* `Sysv.step` — one step of `mySigpause`, of a handler, of the kernel, or of those who raise
  signals;
* `Sysv.Masks`, `Sysv.Held` — what is true of the masks, and of a signal that is on hold.

Main results:

* `Sysv.Masks.of_step` — **handlers may nest, and the masks still come back in order**;
* `Sysv.Held.of_step` — a signal that is on hold is not delivered before `sigsuspend`;
* `Sysv.sigpause_wakes_iff` — **the wake-up cannot get lost exactly if the signal is on hold**, and
  the mask is always restored.
-/

import NetSysProg.Runs
import NetSysProg.SigsetModel

set_option relaxedAutoImplicit false
set_option autoImplicit false

namespace Sysv

/-! ### The process -/

/-- `SA_NODEFER` -/
def saNodefer : ℕ := 0x40000000

/-- The flag is among the flags. -/
def hasFlag (flags flag : ℕ) : Bool := flags &&& flag != 0

/-- `sigdelset` -/
def sigdelset (set : SigSet) (sig : ℕ) : SigSet :=
  if IsSignal sig then Function.update set sig false else set

/-- `SIGCONT`, and the signals that stop a process. -/
def JobControl (sig : ℕ) : Prop := 18 ≤ sig ∧ sig ≤ 22

instance (sig : ℕ) : Decidable (JobControl sig) := inferInstanceAs (Decidable (_ ∧ _))

/-- `SIGCHLD`, `SIGURG` and `SIGWINCH`, which are ignored by default; the others end the process. -/
def IgnoredByDefault (sig : ℕ) : Prop := sig = 17 ∨ sig = 23 ∨ sig = 28

instance (sig : ℕ) : Decidable (IgnoredByDefault sig) := inferInstanceAs (Decidable (_ ∨ _ ∨ _))

/-- Where the process is in `mySigpause`. -/
inductive Pc
  /-- `sigprocmask(SIG_SETMASK, NULL, &curr_mask)`, and `sigdelset`. -/
  | sigprocmask
  /-- `sigsuspend(&curr_mask)`. -/
  | sigsuspend (currMask : SigSet)
  /-- In `sigsuspend`, with the mask from before the call. -/
  | suspended (oldMask : SigSet)
  /-- `sigsuspend` has returned. -/
  | returned
  /-- The process has exited, or a signal has ended it. -/
  | ended

/-- The process has not ended. -/
def Pc.alive : Pc → Bool
  | .ended => false
  | _ => true

/-- The process waits in `sigsuspend`. -/
def Pc.IsSuspended (pc : Pc) : Prop := ∃ oldMask, pc = .suspended oldMask

/-- A process: its mask and its actions, how often each signal is pending, the handlers that run,
innermost first, with the masks that come back when they return, and where it is in `mySigpause`. -/
structure Proc where
  kernel : Kernel
  pending : ℕ → ℕ
  frames : List (ℕ × SigSet)
  pc : Pc

/-- A process that calls `mySigpause`. -/
def start (k : Kernel) (pending : ℕ → ℕ) : Proc := ⟨k, pending, [], .sigprocmask⟩

/-- The mask that comes back after a handler that begins now. -/
def Proc.savedMask (p : Proc) : SigSet :=
  match p.pc with
  | .suspended oldMask => oldMask
  | _ => p.kernel.mask

/-- Where the process is when a handler begins: it comes back from `sigsuspend`. -/
def Pc.interrupted : Pc → Pc
  | .suspended _ => .returned
  | pc => pc

/-- The mask and the actions while the handler of a signal runs. -/
def Kernel.enter (k : Kernel) (sig : ℕ) : Kernel where
  mask := fun n => k.mask n || ((k.action sig).mask n && decide (n ≠ sigkill ∧ n ≠ sigstop)) ||
    (decide (n = sig) && !hasFlag (k.action sig).flags saNodefer)
  action := if hasFlag (k.action sig).flags saResethand then
    Function.update k.action sig { k.action sig with handler := .dfl } else k.action

/-- The kernel delivers a signal. -/
def deliver (sig : ℕ) (p : Proc) : Proc :=
  let pending := Function.update p.pending sig (p.pending sig - 1)
  match (p.kernel.action sig).handler with
  | .ign => { p with pending := pending }
  | .dfl =>
      if IgnoredByDefault sig then { p with pending := pending }
      else { p with pending := pending, pc := .ended }
  | .handler address =>
      { kernel := p.kernel.enter sig
        pending := pending
        frames := (address, p.savedMask) :: p.frames
        pc := p.pc.interrupted }

/-- Who takes the next step. -/
inductive Act
  /-- Somebody sends the signal to the process. -/
  | raise (sig : ℕ)
  /-- The kernel delivers a signal. -/
  | deliver (sig : ℕ)
  /-- The process goes on, in the innermost handler or in `mySigpause`. -/
  | run

section Step

variable (exits : ℕ → Bool) (sig : ℕ)

/-- The process goes on; a handler either exits or returns. -/
def runStep (p : Proc) : Option Proc :=
  match p.frames with
  | (address, mask) :: frames =>
      if exits address then some { p with pc := .ended }
      else some { p with kernel := { p.kernel with mask := mask }, frames := frames }
  | [] =>
      match p.pc with
      | .sigprocmask =>
          let currMask := (Sysv.sigprocmask .setmask none p.kernel).1
          some { p with pc := .sigsuspend (sigdelset currMask sig) }
      | .sigsuspend currMask =>
          let r := Sysv.sigprocmask .setmask (some currMask) p.kernel
          some { p with kernel := r.2, pc := .suspended r.1 }
      | .suspended _ => none
      | .returned => none
      | .ended => none

/-- One step of the system.  A standard signal is pending at most once. -/
def step (p : Proc) : Act → Option Proc
  | .raise n =>
      if IsSignal n ∧ ¬ JobControl n then
        some
          { p with pending := Function.update p.pending n (if n < 32 then 1 else p.pending n + 1) }
      else none
  | .deliver n =>
      if p.pc.alive ∧ 0 < p.pending n ∧ p.kernel.mask n = false then some (deliver n p) else none
  | .run => if p.pc.alive then runStep exits sig p else none

/-- Nothing happens any more unless somebody raises a signal. -/
def Quiet (p : Proc) : Prop := step exits sig p .run = none ∧
    ∀ n, step exits sig p (.deliver n) = none

end Step

/-! ### What a step can do -/

/-- Everything a step can do. -/
inductive Move (exits : ℕ → Bool) (sig : ℕ) (p : Proc) : Act → Proc → Prop
  | raise {n count : ℕ} (hcount : 0 < count) :
      Move exits sig p (.raise n) { p with pending := Function.update p.pending n count }
  | discard {n : ℕ} (hhandler : ∀ address, (p.kernel.action n).handler ≠ .handler address) :
      Move exits sig p (.deliver n)
        { p with pending := Function.update p.pending n (p.pending n - 1) }
  | finish {a : Act} {pending : ℕ → ℕ} : Move exits sig p a
    { p with pending := pending, pc := .ended }
  | enter {n address : ℕ} (halive : p.pc.alive = true) (hmask : p.kernel.mask n = false) :
      Move exits sig p (.deliver n)
        { kernel := p.kernel.enter n
          pending := Function.update p.pending n (p.pending n - 1)
          frames := (address, p.savedMask) :: p.frames
          pc := p.pc.interrupted }
  | leave {address : ℕ} {mask : SigSet} {frames : List (ℕ × SigSet)}
      (hframes : p.frames = (address, mask) :: frames) :
      Move exits sig p .run { p with kernel := { p.kernel with mask := mask }, frames := frames }
  | read (hframes : p.frames = []) (hpc : p.pc = .sigprocmask) :
      Move exits sig p .run { p with pc := .sigsuspend (sigdelset p.kernel.mask sig) }
  | suspend {currMask : SigSet} (hframes : p.frames = []) (hpc : p.pc = .sigsuspend currMask) :
      Move exits sig p .run { p with
        kernel := (Sysv.sigprocmask .setmask (some currMask) p.kernel).2
        pc := .suspended p.kernel.mask }

variable {exits : ℕ → Bool} {sig : ℕ}

/-- What the kernel does with a signal that is not blocked. -/
theorem Move.of_deliver {p : Proc} {n : ℕ} (halive : p.pc.alive = true)
    (hmask : p.kernel.mask n = false) :
    Move exits sig p (.deliver n) (deliver n p) := by
  unfold deliver
  cases hhandler : (p.kernel.action n).handler with
  | ign => exact .discard fun address => by rw [hhandler]; simp
  | dfl =>
      dsimp only
      split
      · exact .discard fun address => by rw [hhandler]; simp
      · exact .finish
  | handler address => exact .enter halive hmask

/-- What the process does when it goes on. -/
theorem Move.of_runStep {p p' : Proc} (h : runStep exits sig p = some p') :
    Move exits sig p .run p' := by
  unfold runStep at h
  split at h
  · next address mask frames hframes =>
      split at h
      · obtain rfl := Option.some.inj h
        exact .finish
      · obtain rfl := Option.some.inj h
        exact .leave hframes
  · next hframes =>
      split at h
      · next hpc =>
          obtain rfl := Option.some.inj h
          exact .read hframes hpc
      · next currMask hpc =>
          obtain rfl := Option.some.inj h
          exact .suspend hframes hpc
      · cases h
      · cases h
      · cases h

/-- **Every step is one of the moves.** -/
theorem Move.of_step {p p' : Proc} {a : Act} (h : step exits sig p a = some p') :
    Move exits sig p a p' := by
  cases a with
  | raise n =>
      simp only [step] at h
      split at h
      · obtain rfl := Option.some.inj h
        exact .raise (by split <;> omega)
      · cases h
  | deliver n =>
      simp only [step] at h
      split at h
      · next hok =>
          obtain rfl := Option.some.inj h
          exact .of_deliver hok.1 hok.2.2
      · cases h
  | run =>
      simp only [step] at h
      split at h
      · exact .of_runStep h
      · cases h

/-! ### The masks come back in order -/

/-- **What is true of the masks**, for a call of `mySigpause` with the mask `mask`. -/
structure Masks (mask : SigSet) (p : Proc) : Prop where
  /-- `mySigpause` runs with that mask, before it waits and after. -/
  base : p.frames = [] → p.pc.alive = true → ¬ p.pc.IsSuspended → p.kernel.mask = mask
  /-- That mask comes back last. -/
  frames : ∀ f, p.frames.getLast? = some f → f.2 = mask
  /-- A process that waits runs no handler, and the mask is to come back. -/
  suspended : ∀ oldMask, p.pc = .suspended oldMask → p.frames = [] ∧ oldMask = mask

theorem Masks.start (k : Kernel) (pending : ℕ → ℕ) : Masks k.mask (start k pending) where
  base := fun _ _ _ => rfl
  frames := by simp [Sysv.start]
  suspended := by simp [Sysv.start]

/-- The last of the masks is the one that comes back when no handler ran before. -/
theorem Masks.savedMask {mask : SigSet} {p : Proc} (h : Masks mask p) (hframes : p.frames = [])
    (halive : p.pc.alive = true) : p.savedMask = mask := by
  unfold Proc.savedMask
  split
  · next oldMask hpc => exact (h.suspended oldMask hpc).2
  · next hpc =>
      refine h.base hframes halive ?_
      rintro ⟨oldMask, heq⟩
      exact hpc oldMask heq

/-- **Handlers may nest, and the masks still come back in order.** -/
theorem Masks.of_move {mask : SigSet} {p p' : Proc} {a : Act} (h : Masks mask p)
    (hm : Move exits sig p a p') :
    Masks mask p' := by
  cases hm with
  | raise hcount => exact ⟨h.base, h.frames, h.suspended⟩
  | discard hhandler => exact ⟨h.base, h.frames, h.suspended⟩
  | finish => exact ⟨by simp [Pc.alive], h.frames, by simp⟩
  | enter halive hmask =>
      refine ⟨by simp, ?_, ?_⟩
      · intro f hf
        rw [List.getLast?_cons] at hf
        obtain rfl := Option.some.inj hf
        cases hlast : p.frames.getLast? with
        | none => exact h.savedMask (List.getLast?_eq_none_iff.1 hlast) halive
        | some f => exact h.frames f hlast
      · intro oldMask hpc
        cases hold : p.pc <;> rw [hold] at hpc <;> cases hpc
  | @leave address saved frames hframes =>
      refine ⟨?_, ?_, ?_⟩
      · rintro rfl _ _
        exact h.frames (address, saved) (by rw [hframes]; rfl)
      · intro f hf
        refine h.frames f ?_
        rw [hframes, List.getLast?_cons, hf, Option.getD_some]
      · intro oldMask hpc
        rw [(h.suspended oldMask hpc).1] at hframes
        cases hframes
  | read hframes hpc =>
      refine ⟨fun _ _ _ => h.base hframes (by rw [hpc]; rfl) ?_, h.frames, by simp⟩
      rintro ⟨oldMask, heq⟩
      cases hpc.symm.trans heq
  | @suspend currMask hframes hpc =>
      refine ⟨fun _ _ hnot => absurd ⟨_, rfl⟩ hnot, h.frames, ?_⟩
      intro oldMask heq
      refine ⟨hframes, ?_⟩
      obtain rfl : p.kernel.mask = oldMask := by simpa using heq
      refine h.base hframes (by rw [hpc]; rfl) ?_
      rintro ⟨oldMask, heq⟩
      cases hpc.symm.trans heq

/-! ### A signal that is on hold -/

/-- The process has not come back from `sigsuspend`. -/
def Pc.waits : Pc → Bool
  | .returned | .ended => false
  | _ => true

/-- The process has not called `sigsuspend`. -/
def Pc.before : Pc → Bool
  | .sigprocmask | .sigsuspend _ => true
  | _ => false

/-- **What is true of a signal with a handler that is on hold when `mySigpause` is called**;
`raised` says that somebody has raised it. -/
structure Held (sig address : ℕ) (raised : Prop) (p : Proc) : Prop where
  /-- Until `sigsuspend` it is blocked, in the handlers of other signals, too. -/
  blocked : p.pc.before = true → p.kernel.mask sig = true ∧ ∀ f ∈ p.frames, f.2 sig = true
  /-- It is not in the mask for `sigsuspend`. -/
  copy : ∀ currMask, p.pc = .sigsuspend currMask → currMask sig = false
  suspended : p.pc.IsSuspended → p.kernel.mask sig = false
  /-- It keeps its handler until the handler runs. -/
  handler : p.pc.waits = true → (p.kernel.action sig).handler = .handler address
  /-- It stays pending. -/
  pending : p.pc.waits = true → raised → 0 < p.pending sig

variable {address : ℕ}

theorem Held.start {k : Kernel} {pending : ℕ → ℕ} (hmask : k.mask sig = true)
    (hhandler : (k.action sig).handler = .handler address) :
    Held sig address (0 < pending sig) (start k pending) where
  blocked := fun _ => ⟨hmask, by simp [Sysv.start]⟩
  copy := by simp [Sysv.start]
  suspended := by simp [Sysv.start, Pc.IsSuspended]
  handler := fun _ => hhandler
  pending := fun _ h => h

/-- A process that has come back, or ended, owes nothing. -/
theorem Held.of_over {raised : Prop} {p : Proc} (hpc : p.pc.waits = false) :
    Held sig address raised p := by
  refine ⟨?_, ?_, ?_, ?_, ?_⟩
  · intro hbefore
    cases heq : p.pc <;> simp_all [Pc.waits, Pc.before]
  · intro currMask heq
    rw [heq] at hpc
    cases hpc
  · rintro ⟨oldMask, heq⟩
    rw [heq] at hpc
    cases hpc
  · intro hwaits
    cases hpc.symm.trans hwaits
  · intro hwaits
    cases hpc.symm.trans hwaits

/-- **A signal that is on hold stays pending until `sigsuspend` lets it through.** -/
theorem Held.of_move {mask : SigSet} {raised : Prop} {p p' : Proc} {a : Act} (hsig : IsSignal sig)
    (hmasks : Masks mask p) (h : Held sig address raised p) (hm : Move exits sig p a p') :
    Held sig address (raised ∨ a = .raise sig) p' := by
  cases hm with
  | @raise n count hcount =>
      refine ⟨h.blocked, h.copy, h.suspended, h.handler, fun hwaits hraised => ?_⟩
      by_cases hn : n = sig
      · subst hn
        simpa using hcount
      · simp only [Function.update_of_ne (Ne.symm hn)]
        refine h.pending hwaits (hraised.resolve_right fun heq => hn ?_)
        exact Act.raise.inj heq
  | @discard n hhandler =>
      refine ⟨h.blocked, h.copy, h.suspended, h.handler, fun hwaits hraised => ?_⟩
      have hne : sig ≠ n := by
        rintro rfl
        exact hhandler address (h.handler hwaits)
      simp only [Function.update_of_ne hne]
      exact h.pending hwaits (hraised.resolve_right (by simp))
  | finish => exact .of_over rfl
  | @enter n begun halive hmask =>
      cases hwaits : p.pc.interrupted.waits with
      | false => exact .of_over hwaits
      | true =>
          -- the process has not called `sigsuspend`, so it is another signal
          have hbefore : p.pc.before = true ∧ p.pc.waits = true ∧ p.pc.interrupted = p.pc := by
            cases hpc : p.pc <;> simp_all [Pc.interrupted, Pc.waits, Pc.before]
          obtain ⟨hblocked, hframes⟩ := h.blocked hbefore.1
          have hne : sig ≠ n := by
            rintro rfl
            cases hblocked.symm.trans hmask
          have hsaved : p.savedMask = p.kernel.mask := by
            unfold Proc.savedMask
            split
            · next oldMask hpc =>
                rw [hpc] at hbefore
                cases hbefore.1
            · rfl
          refine ⟨fun _ => ⟨?_, ?_⟩, ?_, ?_, fun _ => ?_, fun _ hraised => ?_⟩
          · simp [Kernel.enter, hblocked]
          · intro f hf
            rcases List.mem_cons.1 hf with rfl | hf
            · exact hsaved ▸ hblocked
            · exact hframes f hf
          · intro currMask hpc
            exact h.copy currMask (hbefore.2.2.symm.trans hpc)
          · rintro ⟨oldMask, hpc⟩
            change p.pc.interrupted = _ at hpc
            rw [hbefore.2.2] at hpc
            rw [hpc] at hbefore
            cases hbefore.1
          · have haction : (p.kernel.enter n).action sig = p.kernel.action sig := by
              unfold Kernel.enter
              dsimp only
              split
              · exact Function.update_of_ne hne ..
              · rfl
            rw [haction]
            exact h.handler hbefore.2.1
          · simp only [Function.update_of_ne hne]
            exact h.pending hbefore.2.1 (hraised.resolve_right (by simp))
  | @leave begun saved frames hframes =>
      refine ⟨fun hbefore => ?_, h.copy, ?_, h.handler, fun hwaits hraised => ?_⟩
      · have hall := (h.blocked hbefore).2
        rw [hframes] at hall
        exact ⟨hall _ List.mem_cons_self, fun f hf => hall f (List.mem_cons_of_mem _ hf)⟩
      · rintro ⟨oldMask, hpc⟩
        rw [(hmasks.suspended oldMask hpc).1] at hframes
        cases hframes
      · exact h.pending hwaits (hraised.resolve_right (by simp))
  | read hframes hpc =>
      have hwaits : p.pc.waits = true := by rw [hpc]; rfl
      refine ⟨fun _ => h.blocked (by rw [hpc]; rfl), ?_, ?_, fun _ => h.handler hwaits,
        fun _ hraised => h.pending hwaits (hraised.resolve_right (by simp))⟩
      · intro currMask heq
        obtain rfl := Pc.sigsuspend.inj heq
        simp [sigdelset, hsig]
      · rintro ⟨oldMask, heq⟩
        cases heq
  | @suspend currMask hframes hpc =>
      have hwaits : p.pc.waits = true := by rw [hpc]; rfl
      refine ⟨by simp [Pc.before], by simp, fun _ => ?_, fun _ => h.handler hwaits,
        fun _ hraised => h.pending hwaits (hraised.resolve_right (by simp))⟩
      simp [Sysv.sigprocmask, h.copy currMask hpc]

theorem Held.mono {raised raised' : Prop} {p : Proc} (h : Held sig address raised p)
    (hr : raised' → raised) :
    Held sig address raised' p :=
  ⟨h.blocked, h.copy, h.suspended, h.handler, fun hwaits hraised => h.pending hwaits (hr hraised)⟩

/-- **In a whole run** the masks come back in order, and a signal that is on hold stays pending. -/
theorem Held.of_run {mask : SigSet} {raised : Prop} {p p' : Proc} {as : List Act}
    (hsig : IsSignal sig)
    (hmasks : Masks mask p) (h : Held sig address raised p)
    (hrun : Runs.run (step exits sig) p as = some p') :
    Held sig address (raised ∨ .raise sig ∈ as) p' := by
  induction as generalizing p raised with
  | nil =>
      obtain rfl : p = p' := by simpa using hrun
      exact h.mono fun hr => hr.resolve_right (by simp)
  | cons a as ih =>
      rw [Runs.run_cons] at hrun
      obtain ⟨p₁, hs, hrest⟩ := Option.bind_eq_some_iff.1 hrun
      have hm : Move exits sig p a p₁ := .of_step hs
      have hheld := ih (hmasks.of_move hm) (h.of_move hsig hmasks hm) hrest
      refine hheld.mono fun hr => ?_
      rw [List.mem_cons, eq_comm, ← or_assoc] at hr
      exact hr

/-! ### Whether the wake-up can get lost -/

/-- A process that sleeps although a signal with a handler is pending, and not blocked, is about to
wake up. -/
theorem not_quiet_of_pending {p : Proc} (halive : p.pc.alive = true) (hpending : 0 < p.pending sig)
    (hmask : p.kernel.mask sig = false) : ¬ Quiet exits sig p := by
  rintro ⟨-, hdeliver⟩
  have hnone := hdeliver sig
  simp only [step] at hnone
  rw [if_pos ⟨halive, hpending, hmask⟩] at hnone
  cases hnone

/-- **A signal that is not on hold can be handled too early**: it comes in before `mySigpause` has
read the mask, and then the process waits for one that has come. -/
theorem exists_lost {k : Kernel} {pending : ℕ → ℕ} (hsig : Catchable sig) (hjob : ¬ JobControl sig)
    (hkill : k.mask sigkill = false) (hstop : k.mask sigstop = false)
    (hidle : ∀ n, 0 < pending n → k.mask n = true) (hmask : k.mask sig = false)
    (hhandler : (k.action sig).handler = .handler address) (hreturns : exits address = false) :
    ∃ as p, Runs.run (step exits sig) (start k pending) as = some p ∧ .raise sig ∈ as ∧
      Quiet exits sig p ∧ p.pc.IsSuspended := by
  have hnone : pending sig = 0 := by
    by_contra hne
    cases (hidle sig (Nat.pos_of_ne_zero hne)).symm.trans hmask
  let p₁ : Proc := { start k pending with pending := Function.update pending sig 1 }
  let p₂ : Proc :=
    { kernel := k.enter sig, pending := pending, frames := [(address, k.mask)], pc := .sigprocmask }
  let p₃ : Proc :=
    { kernel := { k.enter sig with mask := k.mask }, pending := pending, frames := [],
      pc := .sigprocmask }
  let p₄ : Proc := { p₃ with pc := .sigsuspend (sigdelset k.mask sig) }
  let p₅ : Proc := { p₃ with
    kernel := (sigprocmask .setmask (some (sigdelset k.mask sig)) p₃.kernel).2
    pc := .suspended k.mask }
  have h₁ : step exits sig (start k pending) (.raise sig) = some p₁ := by
    have hone : (if sig < 32 then 1 else pending sig + 1) = 1 := by
      rw [hnone]
      split <;> rfl
    simp only [step, if_pos (And.intro hsig.1 hjob), start, hone, p₁]
  have h₂ : step exits sig p₁ (.deliver sig) = some p₂ := by
    have hback : Function.update (Function.update pending sig 1) sig 0 = pending := by
      rw [Function.update_idem, ← hnone, Function.update_eq_self]
    have hdeliver : deliver sig p₁ = p₂ := by
      simp only [deliver, p₁, p₂, start, hhandler, Function.update_self, hback, Nat.sub_self,
        Proc.savedMask, Pc.interrupted]
    have hok : p₁.pc.alive = true ∧ 0 < p₁.pending sig ∧ p₁.kernel.mask sig = false :=
      ⟨rfl, by simp [p₁], hmask⟩
    simp only [step]
    rw [if_pos hok, hdeliver]
  have h₃ : step exits sig p₂ .run = some p₃ := by
    simp only [step, runStep, Pc.alive, if_true, hreturns, p₂, p₃, Bool.false_eq_true, if_false]
  have h₄ : step exits sig p₃ .run = some p₄ := rfl
  have h₅ : step exits sig p₄ .run = some p₅ := rfl
  refine ⟨[.raise sig, .deliver sig, .run, .run, .run], p₅, ?_, List.mem_cons_self,
    ⟨rfl, fun n => ?_⟩, k.mask, rfl⟩
  · rw [Runs.run_cons_of_step h₁, Runs.run_cons_of_step h₂, Runs.run_cons_of_step h₃,
      Runs.run_cons_of_step h₄, Runs.run_cons_of_step h₅, Runs.run_nil]
  · have hnot : ¬ (p₅.pc.alive = true ∧ 0 < p₅.pending n ∧ p₅.kernel.mask n = false) := by
      rintro ⟨-, hpos, hopen⟩
      have hblocked : k.mask n = true := hidle n hpos
      have hne : n ≠ sig := by
        rintro rfl
        cases hblocked.symm.trans hmask
      have hnkill : n ≠ sigkill := by
        rintro rfl
        cases hblocked.symm.trans hkill
      have hnstop : n ≠ sigstop := by
        rintro rfl
        cases hblocked.symm.trans hstop
      simp [p₅, p₃, sigprocmask, sigdelset, hsig.1, hne, hblocked, hnkill, hnstop] at hopen
    simp only [step, if_neg hnot]

/-- **When a wake-up cannot get lost.**  `mySigpause` is called for a signal with a handler that
returns, with nothing to be delivered.  In every interleaving with those who raise signals, of this
number or of others, and however the handlers nest, the process does not go on waiting once the
signal has been raised, exactly if the signal is on hold at the call.  And the mask with which
`mySigpause` returns is the one with which it was called. -/
theorem sigpause_wakes_iff {k : Kernel} {pending : ℕ → ℕ} (hsig : Catchable sig)
    (hjob : ¬ JobControl sig)
    (hkill : k.mask sigkill = false) (hstop : k.mask sigstop = false)
    (hidle : ∀ n, 0 < pending n → k.mask n = true)
    (hhandler : (k.action sig).handler = .handler address) (hreturns : exits address = false) :
    ((∀ as p, Runs.run (step exits sig) (start k pending) as = some p →
        (0 < pending sig ∨ .raise sig ∈ as) → Quiet exits sig p → ¬ p.pc.IsSuspended) ↔
      k.mask sig = true) ∧
    ∀ p, Runs.Reachable (step exits sig) (start k pending) p → p.pc = .returned → p.frames = [] →
      p.kernel.mask = k.mask := by
  have hmasks : ∀ p, Runs.Reachable (step exits sig) (start k pending) p →
    Masks k.mask p := fun p hp =>
    hp.invariant (fun _ _ _ h hs => h.of_move (.of_step hs)) (Masks.start k pending)
  refine ⟨⟨?_, ?_⟩, ?_⟩
  · intro hwakes
    by_contra hmask
    obtain ⟨as, p, hrun, hraise, hquiet, hsuspended⟩ := exists_lost hsig hjob hkill hstop hidle
      (by simpa using hmask) hhandler hreturns
    exact hwakes as p hrun (Or.inr hraise) hquiet hsuspended
  · intro hmask as p hrun hraised hquiet hsuspended
    have hheld := Held.of_run hsig.1 (Masks.start k pending) (Held.start hmask hhandler) hrun
    obtain ⟨oldMask, hpc⟩ := hsuspended
    have hpos : 0 < p.pending sig := hheld.pending (by rw [hpc]; rfl) hraised
    exact not_quiet_of_pending (by rw [hpc]; rfl) hpos (hheld.suspended ⟨oldMask, hpc⟩) hquiet
  · intro p hp hpc hframes
    refine (hmasks p hp).base hframes (by rw [hpc]; rfl) ?_
    rintro ⟨oldMask, heq⟩
    cases hpc.symm.trans heq

/-- `SIGINT` with a handler, as in `main`, and nothing on hold. -/
def interruptible : Kernel where
  mask := sigemptyset
  action := fun _ => ⟨.handler 1, 0, sigemptyset⟩

/-- **In `main` the wake-up can get lost**: `SIGINT` is not on hold when `mySigpause` is called;
after `mySighold(SIGINT)` it would be safe. -/
theorem sigpause_wakes_iff_main :
    ¬ (∀ as p, Runs.run (step (fun _ => false) 2) (start interruptible fun _ => 0) as = some p →
        (0 < 0 ∨ .raise 2 ∈ as) → Quiet (fun _ => false) 2 p → ¬ p.pc.IsSuspended) ∧
    ∀ as p, Runs.run (step (fun _ => false) 2) (start (mySighold 2 interruptible).2 fun _ => 0) as =
      some p →
        (0 < 0 ∨ .raise 2 ∈ as) → Quiet (fun _ => false) 2 p → ¬ p.pc.IsSuspended := by
  constructor
  · intro hwakes
    have hheld : interruptible.mask 2 = true :=
      (@sigpause_wakes_iff (fun _ => false) 2 1 interruptible (fun _ => 0) (by decide)
        (by decide) rfl rfl
        (by simp) rfl rfl).1.1 hwakes
    cases hheld
  · exact (@sigpause_wakes_iff (fun _ => false) 2 1 (mySighold 2 interruptible).2
      (fun _ => 0) (by decide)
      (by decide) (by decide) (by decide) (by simp) rfl rfl).1.2 (by decide)

end Sysv
