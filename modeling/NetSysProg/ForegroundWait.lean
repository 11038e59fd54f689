/-
**Which child the first shell waits for (`HW3`).**

`run_command` forks a child for the command line and, unless the line has a `&`, calls
`waitpid(-1, &stat, 0)`.  That call returns for any child that has terminated, so a background child
of an earlier line that has terminated in the meantime is taken for the one just forked.

Reading a line and forking, the test for `&`, and the wait are one step each, and between them the
children terminate in any order and with any status.

Main definitions:

* `ForegroundWait.step` — one step of the shell, or the termination of a child;
* `ForegroundWait.Return.Own` — a call that has waited for the child it forked;
* `ForegroundWait.Alone` — the condition on a step: no other child has terminated.

Main results:

* `ForegroundWait.Move.of_step` — what a step does;
* `ForegroundWait.own_of_alone` — **every wait is for the child just forked, exactly while no other
  child has terminated unnoticed**;
* `ForegroundWait.exists_not_own_background` — one background line is enough for the wrong child.
-/

import NetSysProg.Runs
import NetSysProg.ShellModel
import Mathlib.Data.List.Nodup

set_option relaxedAutoImplicit false
set_option autoImplicit false

namespace ForegroundWait

open Shell (Argv isBackground)

/-! ### The shell and its children -/

/-- The vector that the child executes: a null pointer is written over the first `&`. -/
def childArgv : Argv → Argv
  | [] => []
  | none :: argv => none :: argv
  | some t :: argv => if t = "&" then none :: argv else some t :: childArgv argv

/-- What the macros of `<sys/wait.h>` make of a status. -/
inductive Status
  | signaled (sig : ℕ)
  | exited (code : ℕ)
  | stopped (sig : ℕ)
  | other
  deriving DecidableEq

/-- What `run_command` prints for a status. -/
def Status.report : Status → String
  | .signaled sig => "terminated by signal " ++ toString sig ++ "\n"
  | .exited code => "exited with status " ++ toString code ++ "\n"
  | .stopped sig => "stopped by signal " ++ toString sig ++ "\n"
  | .other => ""

/-- The status of a process that has terminated. -/
def Status.final : Status → Bool
  | .signaled _ | .exited _ => true
  | .stopped _ | .other => false

/-- A child that the shell has not waited for, with its status once it has terminated. -/
structure Child where
  pid : ℕ
  argv : Argv
  status : Option Status
  deriving DecidableEq

/-- Where the shell is. -/
inductive ShellPc
  /-- In its main loop. -/
  | prompt
  /-- In `run_command`, past the `fork`. -/
  | forked (argv : Argv) (pid : ℕ)
  /-- In the `waitpid` of `run_command`. -/
  | waiting (pid : ℕ)
  | exited (status : ℕ)
  deriving DecidableEq

/-- A return of `run_command` for a line without `&`: the child it forked, the child that `waitpid`
returned, the status of the former at that moment, and the status that is reported. -/
structure Return where
  forked : ℕ
  reaped : ℕ
  ended : Option Status
  stat : Status
  deriving DecidableEq

/-- **The call has waited for its own child**: the child has terminated, and the status is the
child's. -/
def Return.Own (r : Return) : Prop := r.reaped = r.forked ∧ r.ended = some r.stat

/-- The shell, its children, what it has printed, and the returns so far. -/
structure State where
  shell : ShellPc
  children : List Child
  printed : List String
  log : List Return
  deriving DecidableEq

def init : State where
  shell := .prompt
  children := []
  printed := []
  log := []

/-- The child with a process id. -/
def State.child (s : State) (pid : ℕ) : Option Child := s.children.find? (·.pid = pid)

/-- What happens next. -/
inductive Act
  /-- The shell calls `run_command`; `fork` returns the process id of the new child, or fails with
  an error. -/
  | command (argv : Argv) (fork : ℕ ⊕ ℕ)
  /-- The test for `&`; `stat` is not initialised when nobody is waited for. -/
  | test (stat : Status)
  /-- `waitpid` returns this child. -/
  | waitpid (pid : ℕ)
  /-- The child terminates. -/
  | terminate (pid : ℕ) (status : Status)
  deriving DecidableEq

/-- A child terminates. -/
def Child.terminate (pid : ℕ) (status : Status) (c : Child) : Child :=
  if c.pid = pid ∧ c.status = none then { c with status := some status } else c

/-- One step. -/
def step (s : State) : Act → Option State
  | .command argv fork =>
      if s.shell = .prompt then
        match fork with
        | .inr errno => some { s with shell := .exited errno }
        | .inl pid =>
            -- the process id of a new child is in use nowhere else
            if (s.child pid).isSome then none
            else some { s with
              shell := .forked argv pid
              children := s.children ++ [⟨pid, childArgv argv, none⟩] }
      else none
  | .test stat =>
      match s.shell with
      | .forked argv pid =>
          if isBackground argv then
            some { s with shell := .prompt, printed := s.printed ++ [stat.report] }
          else some { s with shell := .waiting pid }
      | _ => none
  | .waitpid pid =>
      match s.shell with
      | .waiting own =>
          if s.children = [] then some { s with shell := .exited 1 }
          else
            match (s.child pid).bind Child.status with
            | none => none
            | some stat => some {
                shell := .prompt
                children := s.children.eraseP (·.pid = pid)
                printed := s.printed ++ [stat.report]
                log := s.log ++ [⟨own, pid, (s.child own).bind Child.status, stat⟩] }
      | _ => none
  | .terminate pid status =>
      if status.final then some { s with children := s.children.map (Child.terminate pid status) }
      else none

/-! ### The condition -/

/-- The child that a waiting shell has just forked. -/
def ShellPc.own : ShellPc → Option ℕ
  | .waiting pid => some pid
  | _ => none

/-- **The condition on a step**: when `waitpid` returns, no child but the one just forked has
terminated without being waited for. -/
def Alone (s : State) : Act → Prop
  | .waitpid _ => ∀ own ∈ s.shell.own, ∀ c ∈ s.children, c.status ≠ none → c.pid = own
  | _ => True

instance (s : State) (a : Act) : Decidable (Alone s a) :=
  match a with
  | .waitpid _ => inferInstanceAs (Decidable
      (∀ own ∈ s.shell.own, ∀ c ∈ s.children, c.status ≠ none → c.pid = own))
  | .command _ _ | .test _ | .terminate _ _ => inferInstanceAs (Decidable True)

/-- **What a step does.** -/
inductive Move (s s' : State) : Act → Prop
  | forkFails {argv : Argv} {errno : ℕ} : s' = { s with shell := .exited errno } →
      Move s s' (.command argv (.inr errno))
  | fork {argv : Argv} {pid : ℕ} : s.child pid = none →
      s' = { s with
        shell := .forked argv pid
        children := s.children ++ [⟨pid, childArgv argv, none⟩] } →
      Move s s' (.command argv (.inl pid))
  | background {stat : Status} :
      s' = { s with shell := .prompt, printed := s.printed ++ [stat.report] } →
        Move s s' (.test stat)
  | foreground {stat : Status} (pid : ℕ) : s' = { s with shell := .waiting pid } →
      Move s s' (.test stat)
  | noChild {pid : ℕ} : s' = { s with shell := .exited 1 } → Move s s' (.waitpid pid)
  | reap {pid : ℕ} (own : ℕ) (c : Child) (stat : Status) : s.shell = .waiting own →
      s.child pid = some c → c.status = some stat →
      s' = {
        shell := .prompt
        children := s.children.eraseP (·.pid = pid)
        printed := s.printed ++ [stat.report]
        log := s.log ++ [⟨own, pid, (s.child own).bind Child.status, stat⟩] } →
      Move s s' (.waitpid pid)
  | terminate {pid : ℕ} {status : Status} :
      s' = { s with children := s.children.map (Child.terminate pid status) } →
      Move s s' (.terminate pid status)

theorem Move.of_step {s s' : State} {a : Act} (hs : step s a = some s') : Move s s' a := by
  cases a with
  | command argv fork =>
      simp only [step] at hs
      split at hs
      · split at hs
        · exact .forkFails (Option.some.inj hs).symm
        · split at hs
          · cases hs
          · next hfree => exact .fork (by simpa using hfree) (Option.some.inj hs).symm
      · cases hs
  | test stat =>
      simp only [step] at hs
      split at hs
      · split at hs
        · exact .background (Option.some.inj hs).symm
        · exact .foreground _ (Option.some.inj hs).symm
      · cases hs
  | waitpid pid =>
      simp only [step] at hs
      split at hs
      · next own hpc =>
          split at hs
          · exact .noChild (Option.some.inj hs).symm
          · split at hs
            · cases hs
            · next stat hstat =>
                obtain ⟨c, hc, hcstat⟩ := Option.bind_eq_some_iff.1 hstat
                exact .reap own c stat hpc hc hcstat (Option.some.inj hs).symm
      · cases hs
  | terminate pid status =>
      simp only [step] at hs
      split at hs
      · exact .terminate (Option.some.inj hs).symm
      · cases hs

theorem child_eq_some {s : State} {pid : ℕ} {c : Child} (h : s.child pid = some c) :
    c ∈ s.children ∧ c.pid = pid :=
  ⟨List.mem_of_find?_eq_some h, by simpa using List.find?_some h⟩

/-- **A step that meets the condition** logs the return of a call that has waited for its own
child. -/
theorem own_of_step {s s' : State} {a : Act} (hown : ∀ r ∈ s.log, r.Own) (hok : Alone s a)
    (hs : step s a = some s') : ∀ r ∈ s'.log, r.Own := by
  cases Move.of_step hs with
  | forkFails heq => exact heq ▸ hown
  | fork _ heq => exact heq ▸ hown
  | background heq => exact heq ▸ hown
  | foreground _ heq => exact heq ▸ hown
  | noChild heq => exact heq ▸ hown
  | terminate heq => exact heq ▸ hown
  | @reap pid own c stat hpc hc hstat heq =>
      obtain ⟨hmem, hpid⟩ := child_eq_some hc
      obtain rfl : pid = own := hpid ▸ hok own (by simp [hpc, ShellPc.own]) c hmem (by simp [hstat])
      subst heq
      intro r hr
      rcases List.mem_append.1 hr with hr | hr
      · exact hown r hr
      · obtain rfl := List.mem_singleton.1 hr
        exact ⟨rfl, by simp [hc, hstat]⟩

/-! ### The kernel's choice -/

@[simp] theorem terminate_pid (pid : ℕ) (status : Status) (c : Child) :
    (c.terminate pid status).pid = c.pid := by
  unfold Child.terminate
  split <;> rfl

/-- The children have different process ids. -/
def Distinct (s : State) : Prop := (s.children.map Child.pid).Nodup

theorem Distinct.of_step {s s' : State} {a : Act} (h : Distinct s) (hs : step s a = some s') :
    Distinct s' := by
  cases Move.of_step hs with
  | forkFails heq => exact heq ▸ h
  | @fork argv pid hfree heq =>
      subst heq
      rw [Distinct, List.map_append, List.nodup_append]
      refine ⟨h, by simp, ?_⟩
      rintro p hp q hq rfl
      obtain ⟨c, hc, hpid⟩ := List.mem_map.1 hp
      obtain rfl : p = pid := by simpa using hq
      exact List.find?_eq_none.1 hfree c hc (by simpa using hpid)
  | background heq => exact heq ▸ h
  | foreground _ heq => exact heq ▸ h
  | noChild heq => exact heq ▸ h
  | reap _ _ _ _ _ _ heq =>
      subst heq
      exact List.Nodup.sublist (List.eraseP_sublist.map _) h
  | terminate heq =>
      subst heq
      unfold Distinct at h ⊢
      simpa [Function.comp_def] using h

theorem Distinct.of_reachable {s : State} (h : Runs.Reachable step init s) : Distinct s :=
  h.invariant (fun _ _ _ hd hs => hd.of_step hs) (by simp [Distinct, init])

/-- A child is found by its process id. -/
theorem Distinct.child_eq {s : State} (h : Distinct s) {c : Child} (hc : c ∈ s.children) :
    s.child c.pid = some c := by
  cases hfind : s.child c.pid with
  | none => exact absurd (List.find?_eq_none.1 hfind c hc) (by simp)
  | some d =>
      obtain ⟨hd, hpid⟩ := child_eq_some hfind
      rw [List.inj_on_of_nodup_map h hd hc hpid]

/-- **Another child that has terminated can be the one `waitpid` returns.** -/
theorem exists_not_own_of_not_alone {s : State} (hdistinct : Distinct s) {pid : ℕ}
    (hbreak : ¬ Alone s (.waitpid pid)) :
    ∃ pid' s', step s (.waitpid pid') = some s' ∧ ∃ r ∈ s'.log, ¬ r.Own := by
  simp only [Alone] at hbreak
  push Not at hbreak
  obtain ⟨own, hown, c, hc, hstatus, hne⟩ := hbreak
  have hpc : s.shell = .waiting own := by
    cases hshell : s.shell <;> simp_all [ShellPc.own]
  obtain ⟨stat, hstat⟩ := Option.ne_none_iff_exists'.1 hstatus
  have hchildren : s.children ≠ [] := List.ne_nil_of_mem hc
  have hfound : (s.child c.pid).bind Child.status = some stat := by
    rw [hdistinct.child_eq hc, Option.bind_some, hstat]
  refine ⟨c.pid, _, by simp only [step, hpc, if_neg hchildren, hfound]; rfl, ?_⟩
  exact ⟨⟨own, c.pid, (s.child own).bind Child.status, stat⟩, by simp, fun hown => hne hown.1⟩

/-- **Every wait for a foreground line is for its own child** in a run that meets the condition; and
where the next step breaks it, `waitpid` can return for another child. -/
theorem own_of_alone {s : State} (hs : Runs.ReachableVia step Alone init s) :
    (∀ r ∈ s.log, r.Own) ∧
      ∀ a, ¬ Alone s a → ∃ pid s', step s (.waitpid pid) = some s' ∧ ∃ r ∈ s'.log, ¬ r.Own := by
  constructor
  · exact hs.invariant (fun _ _ _ hown hok hstep => own_of_step hown hok hstep) (by simp [init])
  · intro a hbreak
    cases a with
    | waitpid pid => exact exists_not_own_of_not_alone (.of_reachable hs.reachable) hbreak
    | command argv fork => exact absurd trivial hbreak
    | test stat => exact absurd trivial hbreak
    | terminate pid status => exact absurd trivial hbreak

/-- A background child that is still running, and a foreground line that waits for its own child. -/
theorem own_of_alone_running :
    ∃ s, Runs.ReachableVia step Alone init s ∧ s.log = [⟨101, 101, some (.exited 0), .exited 0⟩] ∧
      ∀ r ∈ s.log, r.Own := by
  let sleep : Argv := [some "sleep", some "9", some "&", none]
  let acts : List Act :=
    [.command sleep (.inl 100), .test .other, .command [some "ls", none] (.inl 101), .test .other,
      .terminate 101 (.exited 0), .waitpid 101]
  have hrun : ∃ s, Runs.run (fun s a => if Alone s a then step s a else none) init acts = some s ∧
      s.log = [⟨101, 101, some (.exited 0), .exited 0⟩] := ⟨_, rfl, rfl⟩
  obtain ⟨s, hs, hlog⟩ := hrun
  have hreach : Runs.ReachableVia step Alone init s := .of_run hs
  exact ⟨s, hreach, hlog, (own_of_alone hreach).1⟩

/-- **The wrong child**: the background child terminates while the shell waits for the next line's
child, which goes on running. -/
theorem exists_not_own_background :
    ∃ s, Runs.Reachable step init s ∧ ∃ r ∈ s.log, r.ended = none ∧ ¬ r.Own := by
  let sleep : Argv := [some "sleep", some "1", some "&", none]
  let acts : List Act :=
    [.command sleep (.inl 100), .test .other, .command [some "cat", none] (.inl 101), .test .other,
      .terminate 100 (.exited 0), .waitpid 100]
  have hrun : ∃ s, Runs.run step init acts = some s ∧
      s.log = [⟨101, 100, none, .exited 0⟩] := ⟨_, rfl, rfl⟩
  obtain ⟨s, hs, hlog⟩ := hrun
  refine ⟨s, .of_run hs, ⟨101, 100, none, .exited 0⟩, by simp [hlog], rfl, ?_⟩
  rintro ⟨heq, -⟩
  simp at heq

end ForegroundWait
