/-
**Processes that fork, and their descriptors.**

A program is a tree: each node is a system call, with the program that goes on for each result of
the call.  A process runs such a program with a table of descriptors of its own.  `fork` makes two
processes out of one, with a copy of the table, and `execvp` ends the part of a process that is
modelled.  Processes run concurrently, one call at a time in any order.

A process is named by its way down the tree of forks, and a pipe by the process that has created it.
So the names do not depend on the order, and neither does what comes of the processes: that is the
main result, and it reduces a statement about every interleaving to the evaluation of a program.

Main definitions:

* `Processes.Table` — a table of descriptors, with the lowest free one;
* `Processes.Prog` — the programs;
* `Processes.move` — one system call of one process;
* `Processes.leaves` — how the processes that come of a program end;
* `Processes.step` — one call of one of the running processes.

Main results:

* `Processes.run_outcome` — **in every interleaving the same processes end in the same way**;
* `Processes.run_calls`, `Processes.exists_complete` — every interleaving comes to an end.
-/

import NetSysProg.Runs
import Mathlib.Algebra.GroupWithZero.Nat
import Mathlib.Data.List.Perm.Basic
import Mathlib.Algebra.BigOperators.Group.List.Basic
import Mathlib.Tactic.SplitIfs

set_option relaxedAutoImplicit false
set_option autoImplicit false

namespace Processes

/-- The way down the tree of forks: the number of each fork among those of its process. -/
abbrev Name := List ℕ

/-! ### Descriptors -/

inductive Mode
  | read
  | writeTruncate
  deriving DecidableEq

/-- What a descriptor refers to. -/
inductive FileObj
  /-- What was open under this descriptor from the beginning. -/
  | inherited (fd : ℕ)
  | file (path : String) (mode : Mode)
  /-- The two ends of the pipe with this number among those of its creator. -/
  | readEnd (creator : Name) (number : ℕ)
  | writeEnd (creator : Name) (number : ℕ)
  deriving DecidableEq

/-- A table of descriptors. -/
abbrev Table := List (Option FileObj)

namespace Table

def get (t : Table) (fd : ℕ) : Option FileObj := (t[fd]?).join

/-- The lowest descriptor that is not open. -/
def free (t : Table) : ℕ := t.idxOf none

def put (t : Table) (fd : ℕ) (o : FileObj) : Table :=
  (t ++ List.replicate (fd + 1 - t.length) none).set fd (some o)

def remove (t : Table) (fd : ℕ) : Table := t.set fd none

@[simp] theorem get_put (t : Table) (fd fd' : ℕ) (o : FileObj) :
    (t.put fd o).get fd' = if fd' = fd then some o else t.get fd' := by
  unfold get put
  rw [List.getElem?_set]
  split
  · rename_i h
    subst h
    rw [if_pos (by simp; omega), if_pos rfl]
    rfl
  · rename_i h
    rw [if_neg (Ne.symm h)]
    by_cases hlt : fd' < t.length
    · rw [List.getElem?_append_left hlt]
    · rw [List.getElem?_append_right (by omega), List.getElem?_replicate,
        List.getElem?_eq_none (by omega : t.length ≤ fd')]
      split <;> rfl

@[simp] theorem get_remove (t : Table) (fd fd' : ℕ) :
    (t.remove fd).get fd' = if fd' = fd then none else t.get fd' := by
  unfold get remove
  rw [List.getElem?_set]
  split
  · rename_i h
    subst h
    split
    · rw [if_pos rfl]
      rfl
    · rw [if_pos rfl]
      rfl
  · rename_i h
    rw [if_neg (Ne.symm h)]

/-- The lowest free descriptor is free. -/
theorem get_free (t : Table) : t.get t.free = none := by
  unfold get free
  by_cases h : none ∈ t
  · rw [List.getElem?_eq_getElem (List.idxOf_lt_length_of_mem h), List.getElem_idxOf]
    rfl
  · rw [List.getElem?_eq_none (Nat.le_of_eq (List.idxOf_eq_length h).symm)]
    rfl

theorem free_ne_of_get {t : Table} {fd : ℕ} {o : FileObj} (h : t.get fd = some o) :
    t.free ≠ fd := by
  rintro rfl
  rw [get_free] at h
  cases h

/-- The next descriptor that is not open is another one. -/
theorem free_put_free {t : Table} (o : FileObj) {fd : ℕ} (h : t.get fd ≠ none) :
    (t.put t.free o).free ≠ t.free ∧ (t.put t.free o).free ≠ fd := by
  have hfree := get_free (t.put t.free o)
  rw [get_put] at hfree
  split at hfree
  · cases hfree
  · rename_i hne
    refine ⟨hne, fun heq => h ?_⟩
    rwa [heq] at hfree

/-- What opening a file and duplicating its descriptor over `n` leaves behind. -/
def redirect (t : Table) (n : ℕ) (o : FileObj) : Table := ((t.put t.free o).put n o).remove t.free

theorem get_redirect {t : Table} {n : ℕ} (h : t.get n ≠ none) (o : FileObj) (fd : ℕ) :
    (t.redirect n o).get fd = if fd = n then some o else t.get fd := by
  obtain ⟨o', ho'⟩ := Option.ne_none_iff_exists'.1 h
  have hne : t.free ≠ n := free_ne_of_get ho'
  have hfree := get_free t
  simp only [redirect, get_remove, get_put]
  split_ifs <;> simp_all

end Table

/-! ### Programs -/

/-- Programs, as trees of system calls. -/
inductive Prog
  | openFile (path : Option String) (mode : Mode) (next : ℤ → Prog)
  | dup2 (oldfd newfd : ℤ) (next : ℤ → Prog)
  | close (fd : ℤ) (next : Prog)
  | pipe (next : Option (ℕ × ℕ) → Prog)
  | fork (failed parent child : Prog)
  | execvp (file : Option String) (argv : List String) (failed : Prog)
  /-- Printing to the standard error output, by `fputs` or `perror`. -/
  | message (text : String) (next : Prog)
  | setErrno (errno : ℤ) (next : Prog)
  | exit (status : ℤ)
  /-- `exit(errno)` -/
  | exitErrno

/-- Which calls fail, and with which error. -/
structure Env where
  openErr : String → Mode → Option ℤ
  pipeErr : Name → Option ℤ
  forkErr : Name → Option ℤ
  execErr : List String → Option ℤ

/-- No pipe, fork or exec fails. -/
structure Env.NoFailure (env : Env) : Prop where
  pipe_ok : ∀ name, env.pipeErr name = none
  fork_ok : ∀ name, env.forkErr name = none
  exec_ok : ∀ argv, env.execErr argv = none

/-- The state of a process beside its program. -/
structure Ctx where
  name : Name
  forks : ℕ
  pipes : ℕ
  table : Table
  errno : ℤ
  deriving DecidableEq

/-- `EBADF` and `EFAULT` -/
def EBADF : ℤ := 9

def EFAULT : ℤ := 14

namespace Ctx

/-- `open`; the null pointer is no path. -/
def openFile (env : Env) (path : Option String) (mode : Mode) (c : Ctx) : ℤ × Ctx :=
  match path with
  | none => (-1, { c with errno := EFAULT })
  | some path =>
      match env.openErr path mode with
      | some e => (-1, { c with errno := e })
      | none => (c.table.free, { c with table := c.table.put c.table.free (.file path mode) })

def dup2 (oldfd newfd : ℤ) (c : Ctx) : ℤ × Ctx :=
  if oldfd < 0 ∨ newfd < 0 then (-1, { c with errno := EBADF })
  else
    match c.table.get oldfd.toNat with
    | none => (-1, { c with errno := EBADF })
    | some o => (newfd, { c with table := c.table.put newfd.toNat o })

def close (fd : ℤ) (c : Ctx) : Ctx :=
  if fd < 0 ∨ c.table.get fd.toNat = none then { c with errno := EBADF }
  else { c with table := c.table.remove fd.toNat }

/-- `pipe`: the read end gets the lowest free descriptor and the write end the next one. -/
def pipe (env : Env) (c : Ctx) : Option (ℕ × ℕ) × Ctx :=
  match env.pipeErr c.name with
  | some e => (none, { c with errno := e })
  | none =>
      let r := c.table.free
      let table := c.table.put r (.readEnd c.name c.pipes)
      let w := table.free
      (some (r, w),
        { c with table := table.put w (.writeEnd c.name c.pipes), pipes := c.pipes + 1 })

theorem dup2_of_open {c : Ctx} {oldfd : ℕ} {o : FileObj} (h : c.table.get oldfd = some o)
    (newfd : ℕ) : c.dup2 oldfd newfd = ((newfd : ℤ), { c with table := c.table.put newfd o }) := by
  rw [dup2, if_neg (by omega), Int.toNat_natCast, h]
  rfl

theorem close_of_open {c : Ctx} {fd : ℕ} {o : FileObj} (h : c.table.get fd = some o) :
    c.close fd = { c with table := c.table.remove fd } := by
  rw [close, if_neg (by rw [Int.toNat_natCast, h]; simp), Int.toNat_natCast]

theorem pipe_of_ok {env : Env} {c : Ctx} (h : env.pipeErr c.name = none) :
    c.pipe env = (some (c.table.free, (c.table.put c.table.free (.readEnd c.name c.pipes)).free),
      { c with
        table := (c.table.put c.table.free (.readEnd c.name c.pipes)).put
          (c.table.put c.table.free (.readEnd c.name c.pipes)).free (.writeEnd c.name c.pipes)
        pipes := c.pipes + 1 }) := by
  rw [pipe, h]

/-- The child of a `fork`. -/
def child (c : Ctx) : Ctx :=
  { c with name := c.name ++ [c.forks], forks := 0, pipes := 0 }

end Ctx

/-- How the modelled part of a process ends. -/
inductive Ended
  | execed (name : Name) (argv : List String) (table : Table)
  | exited (name : Name) (status : ℤ)
  deriving DecidableEq

/-- The processes that a call leaves running, and those it ends. -/
structure Pool where
  running : List (Prog × Ctx)
  ended : List Ended

/-- **One system call** of a process. -/
def move (env : Env) (p : Prog) (c : Ctx) : Pool :=
  match p with
  | .openFile path mode next =>
      let r := c.openFile env path mode
      ⟨[(next r.1, r.2)], []⟩
  | .dup2 oldfd newfd next =>
      let r := c.dup2 oldfd newfd
      ⟨[(next r.1, r.2)], []⟩
  | .close fd next => ⟨[(next, c.close fd)], []⟩
  | .pipe next =>
      let r := c.pipe env
      ⟨[(next r.1, r.2)], []⟩
  | .fork failed parent child =>
      match env.forkErr c.name with
      | some e => ⟨[(failed, { c with errno := e })], []⟩
      | none => ⟨[(parent, { c with forks := c.forks + 1 }), (child, c.child)], []⟩
  | .execvp file argv failed =>
      match file, env.execErr argv with
      | none, _ => ⟨[(failed, { c with errno := EFAULT })], []⟩
      | some _, some e => ⟨[(failed, { c with errno := e })], []⟩
      | some _, none => ⟨[], [.execed c.name argv c.table]⟩
  | .message _ next => ⟨[(next, c)], []⟩
  | .setErrno e next => ⟨[(next, { c with errno := e })], []⟩
  | .exit status => ⟨[], [.exited c.name status]⟩
  | .exitErrno => ⟨[], [.exited c.name c.errno]⟩

/-- **How the processes that come of a program end**, without an order between processes. -/
def leaves (env : Env) : Prog → Ctx → List Ended
  | .openFile path mode next, c =>
      let r := c.openFile env path mode
      leaves env (next r.1) r.2
  | .dup2 oldfd newfd next, c =>
      let r := c.dup2 oldfd newfd
      leaves env (next r.1) r.2
  | .close fd next, c => leaves env next (c.close fd)
  | .pipe next, c =>
      let r := c.pipe env
      leaves env (next r.1) r.2
  | .fork failed parent child, c =>
      match env.forkErr c.name with
      | some e => leaves env failed { c with errno := e }
      | none => leaves env parent { c with forks := c.forks + 1 } ++ leaves env child c.child
  | .execvp file argv failed, c =>
      match file, env.execErr argv with
      | none, _ => leaves env failed { c with errno := EFAULT }
      | some _, some e => leaves env failed { c with errno := e }
      | some _, none => [.execed c.name argv c.table]
  | .message _ next, c => leaves env next c
  | .setErrno e next, c => leaves env next { c with errno := e }
  | .exit status, c => [.exited c.name status]
  | .exitErrno, c => [.exited c.name c.errno]

theorem leaves_close_of_open {env : Env} {c : Ctx} {fd : ℕ} {o : FileObj}
    (h : c.table.get fd = some o) (next : Prog) :
    leaves env (.close fd next) c = leaves env next { c with table := c.table.remove fd } := by
  rw [leaves, Ctx.close_of_open h]

theorem leaves_dup2_of_open {env : Env} {c : Ctx} {oldfd : ℕ} {o : FileObj}
    (h : c.table.get oldfd = some o) (newfd : ℕ) (next : ℤ → Prog) :
    leaves env (.dup2 oldfd newfd next) c =
      leaves env (next newfd) { c with table := c.table.put newfd o } := by
  rw [leaves, Ctx.dup2_of_open h]

theorem leaves_openFile {env : Env} {path : String} {mode : Mode} (h : env.openErr path mode = none)
    (next : ℤ → Prog) (c : Ctx) :
    leaves env (.openFile (some path) mode next) c =
      leaves env (next c.table.free)
        { c with table := c.table.put c.table.free (.file path mode) } := by
  simp only [leaves, Ctx.openFile, h]

theorem leaves_fork {env : Env} (h : env.NoFailure) (failed parent child : Prog) (c : Ctx) :
    leaves env (.fork failed parent child) c =
      leaves env parent { c with forks := c.forks + 1 } ++ leaves env child c.child := by
  simp only [leaves, h.fork_ok]

theorem leaves_exec {env : Env} (h : env.NoFailure) {file : Option String} (hfile : file ≠ none)
    (argv : List String) (failed : Prog) (c : Ctx) :
    leaves env (.execvp file argv failed) c = [.execed c.name argv c.table] := by
  obtain ⟨path, rfl⟩ := Option.ne_none_iff_exists'.1 hfile
  simp only [leaves, h.exec_ok]

/-- The number of calls that the processes of a program make. -/
def calls (env : Env) : Prog → Ctx → ℕ
  | .openFile path mode next, c =>
      let r := c.openFile env path mode
      calls env (next r.1) r.2 + 1
  | .dup2 oldfd newfd next, c =>
      let r := c.dup2 oldfd newfd
      calls env (next r.1) r.2 + 1
  | .close fd next, c => calls env next (c.close fd) + 1
  | .pipe next, c =>
      let r := c.pipe env
      calls env (next r.1) r.2 + 1
  | .fork failed parent child, c =>
      match env.forkErr c.name with
      | some e => calls env failed { c with errno := e } + 1
      | none => calls env parent { c with forks := c.forks + 1 } + calls env child c.child + 1
  | .execvp file argv failed, c =>
      match file, env.execErr argv with
      | none, _ => calls env failed { c with errno := EFAULT } + 1
      | some _, some e => calls env failed { c with errno := e } + 1
      | some _, none => 1
  | .message _ next, c => calls env next c + 1
  | .setErrno e next, c => calls env next { c with errno := e } + 1
  | .exit _, _ => 1
  | .exitErrno, _ => 1

/-- What has ended and what will have ended. -/
def outcome (env : Env) (s : Pool) : List Ended :=
  s.running.flatMap (fun p => leaves env p.1 p.2) ++ s.ended

/-- The number of calls that are still to be made. -/
def remaining (env : Env) (s : Pool) : ℕ := (s.running.map fun p => calls env p.1 p.2).sum

/-- One call settles nothing about how its process and those that come of it end. -/
theorem outcome_move (env : Env) (p : Prog) (c : Ctx) :
    outcome env (move env p c) = leaves env p c := by
  cases p with
  | fork failed parent child =>
      simp only [move, leaves]
      cases env.forkErr c.name <;> simp [outcome]
  | execvp file argv failed =>
      simp only [move, leaves]
      cases file <;> cases env.execErr argv <;> simp [outcome]
  | _ => simp [outcome, move, leaves]

theorem remaining_move (env : Env) (p : Prog) (c : Ctx) :
    remaining env (move env p c) + 1 = calls env p c := by
  cases p with
  | fork failed parent child =>
      simp only [move, calls]
      cases env.forkErr c.name <;> simp [remaining]
  | execvp file argv failed =>
      simp only [move, calls]
      cases file <;> cases env.execErr argv <;> simp [remaining]
  | _ => simp [remaining, move, calls]

/-! ### Interleavings -/

/-- One call of the `i`-th of the running processes. -/
def step (env : Env) (s : Pool) (i : ℕ) : Option Pool :=
  match s.running[i]? with
  | none => none
  | some p =>
      let m := move env p.1 p.2
      some ⟨s.running.eraseIdx i ++ m.running, s.ended ++ m.ended⟩

theorem perm_eraseIdx {α : Type*} {l : List α} {i : ℕ} {a : α} (h : l[i]? = some a) :
    l.Perm (a :: l.eraseIdx i) := by
  obtain ⟨hi, rfl⟩ := List.getElem?_eq_some_iff.1 h
  exact (List.getElem_cons_eraseIdx_perm hi).symm

/-- **One call changes nothing about the outcome.** -/
theorem step_outcome {env : Env} {s s' : Pool} {i : ℕ} (h : step env s i = some s') :
    (outcome env s').Perm (outcome env s) := by
  unfold step at h
  split at h
  · cases h
  · rename_i p hp
    cases h
    have hmove := outcome_move env p.1 p.2
    have hperm : (s.running.flatMap fun p => leaves env p.1 p.2).Perm
        ((p :: s.running.eraseIdx i).flatMap fun p => leaves env p.1 p.2) :=
      (perm_eraseIdx hp).flatMap_right _
    rw [List.flatMap_cons, ← hmove] at hperm
    refine List.perm_iff_count.2 ?_
    intro e
    have hcount := List.perm_iff_count.1 hperm e
    simp only [outcome, List.flatMap_append, List.count_append] at hcount ⊢
    omega

theorem step_remaining {env : Env} {s s' : Pool} {i : ℕ} (h : step env s i = some s') :
    remaining env s' + 1 = remaining env s := by
  unfold step at h
  split at h
  · cases h
  · rename_i p hp
    cases h
    have hmove := remaining_move env p.1 p.2
    have hsum := ((perm_eraseIdx hp).map fun p => calls env p.1 p.2).sum_eq
    simp only [remaining, List.map_append, List.sum_append, List.map_cons, List.sum_cons]
      at hmove hsum ⊢
    omega

/-- **In every interleaving the same processes end in the same way.** -/
theorem run_outcome {env : Env} {s s' : Pool} {is : List ℕ}
    (h : Runs.run (step env) s is = some s') : (outcome env s').Perm (outcome env s) :=
  Runs.Reachable.history (fun s s' => (outcome env s').Perm (outcome env s))
    (Runs.Reachable.of_run h) (fun _ => .refl _)
    fun _ _ _ _ hperm hstep => (step_outcome hstep).trans hperm

/-- Every call of an interleaving is one of those that are to be made. -/
theorem run_calls {env : Env} {s s' : Pool} {is : List ℕ}
    (h : Runs.run (step env) s is = some s') : remaining env s' + is.length = remaining env s := by
  induction is generalizing s with
  | nil =>
      cases h
      rfl
  | cons i is ih =>
      rw [Runs.run_cons, Option.bind_eq_some_iff] at h
      obtain ⟨t, hstep, h⟩ := h
      have hrest := ih h
      have hfirst := step_remaining hstep
      rw [List.length_cons]
      omega

/-- As long as a process is running there is a call to be made. -/
theorem exists_step {env : Env} {s : Pool} (h : s.running ≠ []) : ∃ s', step env s 0 = some s' := by
  obtain ⟨p, ps, hp⟩ := List.exists_cons_of_ne_nil h
  rw [step, hp]
  exact ⟨_, rfl⟩

/-- **Every state can be run to its end.** -/
theorem exists_complete (env : Env) (s : Pool) :
    ∃ is s', Runs.run (step env) s is = some s' ∧ s'.running = [] := by
  obtain ⟨n, hn⟩ : ∃ n, remaining env s = n := ⟨_, rfl⟩
  induction n generalizing s with
  | zero =>
      refine ⟨[], s, rfl, ?_⟩
      by_contra h
      obtain ⟨s', hstep⟩ := @exists_step env s h
      have hrem := step_remaining hstep
      omega
  | succ n ih =>
      by_cases h : s.running = []
      · exact ⟨[], s, rfl, h⟩
      · obtain ⟨s', hstep⟩ := @exists_step env s h
        have hrem := step_remaining hstep
        obtain ⟨is, s'', hrun, hdone⟩ := ih s' (by omega)
        exact ⟨0 :: is, s'', (Runs.run_cons_of_step hstep is).trans hrun, hdone⟩

/-- A process that is about to run a program on its own. -/
def start (p : Prog) (table : Table) : Pool := ⟨[(p, ⟨[], 0, 0, table, 0⟩)], []⟩

/-- **What has ended** when nothing is running any more. -/
theorem ended_perm_leaves {env : Env} {p : Prog} {table : Table} {is : List ℕ} {s : Pool}
    (h : Runs.run (step env) (start p table) is = some s) (hdone : s.running = []) :
    s.ended.Perm (leaves env p ⟨[], 0, 0, table, 0⟩) := by
  have hperm := run_outcome h
  simpa [outcome, start, hdone] using hperm

end Processes
