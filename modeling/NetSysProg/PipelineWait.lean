/-
**Which process of a pipeline the shell waits for (`HW5/part2`).**

`run_command` waits for the process it has forked.  In a pipeline that process goes on to execute
the leftmost stage, and the other stages run in children and grandchildren of it, which nobody waits
for: the prompt comes back when the leftmost command has terminated, whatever the others do.

The system calls of the processes of the line, the termination of a program that one of them has
executed, and the `fork` and the `waitpid` of the shell are one step each.

Main definitions:

* `Shell.Wait.step` — one step of the shell or of the processes of the line;
* `Shell.Wait.State.alive` — the processes of the line that have not terminated;
* `Shell.leftmost` — the tokens of the leftmost stage.

Main results:

* `Shell.ownExecs_commandChild` — the process that is forked executes the leftmost stage or nothing;
* `Shell.Wait.returns_after_leftmost` — **when `run_command` returns, the process it forked has
  terminated**, and for a line without `|` nothing else is left;
* `Shell.Wait.exists_alive_pipe` — with a second stage something can be left.
-/

import NetSysProg.ShellMalformed

set_option relaxedAutoImplicit false
set_option autoImplicit false

namespace Shell

open Processes

/-! ### What the forked process executes -/

/-- Whatever the process itself executes, and not a child of it, has the property. -/
def OwnExecs (P : List String → Prop) : Prog → Prop
  | .openFile _ _ next => ∀ r, OwnExecs P (next r)
  | .dup2 _ _ next => ∀ r, OwnExecs P (next r)
  | .close _ next => OwnExecs P next
  | .pipe next => ∀ r, OwnExecs P (next r)
  | .fork failed parent _ => OwnExecs P failed ∧ OwnExecs P parent
  | .execvp _ argv failed => P argv ∧ OwnExecs P failed
  | .message _ next => OwnExecs P next
  | .setErrno _ next => OwnExecs P next
  | .exit _ => True
  | .exitErrno => True

/-- The program does not fork. -/
def Forkless : Prog → Prop
  | .openFile _ _ next => ∀ r, Forkless (next r)
  | .dup2 _ _ next => ∀ r, Forkless (next r)
  | .close _ next => Forkless next
  | .pipe next => ∀ r, Forkless (next r)
  | .fork _ _ _ => False
  | .execvp _ _ failed => Forkless failed
  | .message _ next => Forkless next
  | .setErrno _ next => Forkless next
  | .exit _ => True
  | .exitErrno => True

/-- The tokens of the leftmost stage, up to its first redirection. -/
def leftmost (ts : List String) : List String := (seen ts).takeWhile (· ≠ "|")

/-- A property of programs that looks through the calls of the two redirections. -/
structure LooksThrough (H : Prog → Prop) : Prop where
  openFile : ∀ path mode next, (∀ r, H (next r)) → H (.openFile path mode next)
  dup2 : ∀ oldfd newfd next, (∀ r, H (next r)) → H (.dup2 oldfd newfd next)
  close : ∀ fd next, H next → H (.close fd next)
  setErrno : ∀ e next, H next → H (.setErrno e next)
  exit : ∀ text status, H (.message text <| .exit status)

theorem looksThrough_ownExecs (P : List String → Prop) : LooksThrough (OwnExecs P) :=
  ⟨fun _ _ _ h => h, fun _ _ _ h => h, fun _ _ h => h, fun _ _ h => h, fun _ _ => trivial⟩

theorem looksThrough_forkless : LooksThrough Forkless :=
  ⟨fun _ _ _ h => h, fun _ _ _ h => h, fun _ _ h => h, fun _ _ h => h, fun _ _ => trivial⟩

theorem LooksThrough.redirectIn {H : Prog → Prop} (hH : LooksThrough H) {argv : Argv}
    {next : ℤ → Argv → Prog}
    (h : ∀ r argv', tokens argv' = (tokens argv).takeWhile (· ≠ "<") → H (next r argv')) :
    H (redirectIn argv next) := by
  by_cases hnone : cell argv (search "<" argv) = none
  · simp only [Shell.redirectIn, if_pos hnone]
    refine hH.setErrno _ _ (h _ _ ?_)
    exact (takeWhile_tokens hnone).symm
  · simp only [Shell.redirectIn, if_neg hnone]
    refine hH.setErrno _ _ <| hH.setErrno _ _ <| hH.openFile _ _ _ fun fd => ?_
    exact hH.dup2 _ _ _ fun _ => hH.close _ _ (h _ _ (tokens_cut "<" argv))

theorem LooksThrough.redirectOut {H : Prog → Prop} (hH : LooksThrough H) {argv : Argv}
    {next : ℤ → Argv → Prog}
    (h : ∀ r argv', tokens argv' = (tokens argv).takeWhile (· ≠ ">") → H (next r argv')) :
    H (redirectOut argv next) := by
  by_cases hnone : cell argv (search ">" argv) = none
  · simp only [Shell.redirectOut, if_pos hnone]
    refine hH.setErrno _ _ (h _ _ ?_)
    exact (takeWhile_tokens hnone).symm
  · simp only [Shell.redirectOut, if_neg hnone]
    refine hH.setErrno _ _ <| hH.setErrno _ _ <| hH.openFile _ _ _ fun fd => ?_
    split
    · exact hH.exit _ _
    · refine hH.dup2 _ _ _ fun r => ?_
      split
      · exact hH.exit _ _
      · exact hH.close _ _ (h _ _ (tokens_cut ">" argv))

/-- What holds of `pipe_and_exec`, whatever its vector is called, holds of the whole child. -/
theorem LooksThrough.commandChild {H : Prog → Prop} (hH : LooksThrough H) {argv : Argv}
    (h : ∀ argv', tokens argv' = seen (tokens argv) → H (pipeAndExec argv')) :
    H (commandChild argv) := by
  refine hH.redirectIn fun _ argv₁ h₁ => hH.redirectOut fun _ argv₂ h₂ => h argv₂ ?_
  rw [h₂, h₁]
  rfl

theorem ownExecs_couldNotExec (P : List String → Prop) : OwnExecs P couldNotExec := trivial

/-- `pipe_and_exec` executes what is in front of the first `|`. -/
theorem ownExecs_pipeAndExec {P : List String → Prop} {argv : Argv}
    (h : P ((tokens argv).takeWhile (· ≠ "|"))) : OwnExecs P (pipeAndExec argv) := by
  by_cases hmem : "|" ∈ tokens argv
  · by_cases hedge : AtEdge (tokens argv)
    · rw [pipeAndExec, if_pos (by rw [pipePresent_eq, if_neg (by simpa using hmem), if_pos hedge])]
      exact ownExecs_couldNotExec P
    · obtain ⟨hindex, hpos⟩ := pipePresent_middle hmem hedge
      rw [pipeAndExec, hindex, if_neg (by omega), dif_neg (by omega)]
      intro fds
      cases fds with
      | none => trivial
      | some fds =>
          refine ⟨ownExecs_couldNotExec P, ?_⟩
          have hleft : tokens (argv.take ((tokens argv).idxOf "|" : ℤ).toNat) =
              (tokens argv).takeWhile (· ≠ "|") := by
            rw [Int.toNat_natCast, tokens_take, take_idxOf]
          simp only [OwnExecs]
          rw [hleft]
          split
          · exact fun _ => ⟨h, ownExecs_couldNotExec P⟩
          · exact ⟨h, ownExecs_couldNotExec P⟩
  · rw [pipeAndExec, pipePresent_last hmem, if_neg (by decide), dif_pos rfl]
    rw [takeWhile_of_notMem hmem] at h
    exact ⟨h, ownExecs_couldNotExec P⟩

/-- **The process that `run_command` forks executes the leftmost stage or nothing.** -/
theorem ownExecs_commandChild (argv : Argv) :
    OwnExecs (· = leftmost (tokens argv)) (commandChild argv) := by
  refine (looksThrough_ownExecs _).commandChild fun argv' h => ownExecs_pipeAndExec ?_
  rw [h]
  rfl

/-- A line without `|` is executed without a fork. -/
theorem forkless_commandChild {argv : Argv} (h : "|" ∉ tokens argv) :
    Forkless (commandChild argv) := by
  refine looksThrough_forkless.commandChild fun argv' htokens => ?_
  have hnot : "|" ∉ tokens argv' := by
    rw [htokens]
    intro hmem
    exact h (List.takeWhile_subset _ (List.takeWhile_subset _ hmem))
  rw [pipeAndExec, pipePresent_last hnot, if_neg (by decide), dif_pos rfl]
  trivial

/-! ### What a call makes of it -/

/-- The forked process, named `[]`, and its children, which have other names. -/
theorem move_ownExecs {env : Env} {P : List String → Prop} {p : Prog} {c : Ctx}
    (h : c.name = [] → OwnExecs P p) :
    (∀ x ∈ (move env p c).running, x.2.name = [] → OwnExecs P x.1) ∧
      ∀ e ∈ (move env p c).ended, ∀ args table, e = .execed [] args table → P args := by
  cases p with
  | fork failed parent child =>
      simp only [move]
      cases env.forkErr c.name with
      | some e => simpa using fun hname => (h hname).1
      | none =>
          refine ⟨?_, by simp⟩
          intro x hx hname
          simp only [List.mem_cons, List.not_mem_nil, or_false] at hx
          rcases hx with rfl | rfl
          · exact (h hname).2
          · simp [Ctx.child] at hname
  | execvp file argv failed =>
      simp only [move]
      cases file with
      | none => simpa using fun hname => (h hname).2
      | some file =>
          cases env.execErr argv with
          | some e => simpa using fun hname => (h hname).2
          | none =>
              refine ⟨by simp, ?_⟩
              rintro e he args table rfl
              obtain ⟨hname, rfl, -⟩ : [] = c.name ∧ args = argv ∧ table = c.table := by
                simpa using he
              exact (h hname.symm).1
  | openFile path mode next => simpa [move] using fun hname => h hname _
  | dup2 oldfd newfd next => simpa [move] using fun hname => h hname _
  | close fd next => simpa [move, OwnExecs] using h
  | pipe next => simpa [move] using fun hname => h hname _
  | message text next => simpa [move, OwnExecs] using h
  | setErrno e next => simpa [move, OwnExecs] using h
  | exit status => simp [move]
  | exitErrno => simp [move]

/-- A process that does not fork stays one process until it ends. -/
theorem move_forkless {env : Env} {p : Prog} {c : Ctx} (h : c.name = [] ∧ Forkless p) :
    ((∀ x ∈ (move env p c).running, x.2.name = [] ∧ Forkless x.1) ∧
      ∀ e ∈ (move env p c).ended, e.name = []) ∧
    (move env p c).running.length + (move env p c).ended.length = 1 := by
  obtain ⟨hname, hforkless⟩ := h
  cases p with
  | fork failed parent child => exact absurd hforkless id
  | execvp file argv failed =>
      simp only [move]
      cases file with
      | none => simpa [hname, Forkless] using hforkless
      | some file =>
          cases env.execErr argv with
          | some e => simpa [hname, Forkless] using hforkless
          | none => simp [hname, Ended.name]
  | openFile path mode next => simpa [move, hname] using hforkless _
  | dup2 oldfd newfd next => simpa [move, hname] using hforkless _
  | close fd next => simpa [move, hname, Forkless] using hforkless
  | pipe next => simpa [move, hname] using hforkless _
  | message text next => simpa [move, hname, Forkless] using hforkless
  | setErrno e next => simpa [move, hname, Forkless] using hforkless
  | exit status => simp [move, hname, Ended.name]
  | exitErrno => simp [move, hname, Ended.name]

namespace Wait

/-! ### The shell -/

/-- Where `run_command` is. -/
inductive ShellPc
  | fork
  | waitpid
  | returned
  /-- The shell has exited. -/
  | exited (status : ℤ)
  deriving DecidableEq

/-- The shell, the processes of the line up to what they execute, and those whose program has
terminated. -/
structure State where
  shell : ShellPc
  pool : Pool
  terminated : List Name

def init : State := ⟨.fork, ⟨[], []⟩, []⟩

/-- What happens next. -/
inductive Act
  /-- `fork`, which may fail with an error. -/
  | fork (error : Option ℤ)
  /-- A system call of the `i`-th of the processes of the line. -/
  | call (i : ℕ)
  /-- The program that the process has executed terminates. -/
  | terminate (name : Name)
  | waitpid
  deriving DecidableEq

/-- The processes of the line that have terminated. -/
def State.gone (s : State) : List Name :=
  (s.pool.ended.filter (! ·.isExec)).map Ended.name ++ s.terminated

/-- **The processes of the line that have not terminated.** -/
def State.alive (s : State) : List Name :=
  s.pool.running.map (·.2.name) ++
    ((s.pool.ended.filter (·.isExec)).map Ended.name).filter (· ∉ s.terminated)

/-- One step. -/
def step (env : Env) (table : Table) (argv : Argv) (s : State) : Act → Option State
  | .fork error =>
      if s.shell = .fork then
        match error with
        | some e => some { s with shell := .exited e }
        | none => some { s with
            shell := if isBackground argv then .returned else .waitpid
            pool := start (commandChild argv) table }
      else none
  | .call i => (Processes.step env s.pool i).map fun pool => { s with pool := pool }
  | .terminate name =>
      if name ∈ (s.pool.ended.filter (·.isExec)).map Ended.name ∧ name ∉ s.terminated then
        some { s with terminated := name :: s.terminated }
      else none
  | .waitpid =>
      -- the process that was forked is the one named `[]`
      if s.shell = .waitpid ∧ [] ∈ s.gone then some { s with shell := .returned } else none

variable {env : Env} {table : Table} {argv : Argv}

/-- What the processes of the line have in common, and that `run_command` waits. -/
structure Inv (argv : Argv) (s : State) : Prop where
  running : ∀ x ∈ s.pool.running, x.2.name = [] → OwnExecs (· = leftmost (tokens argv)) x.1
  execed : ∀ e ∈ s.pool.ended, ∀ args t, e = .execed [] args t → args = leftmost (tokens argv)
  waited : isBackground argv = false → s.shell = .returned → [] ∈ s.gone

/-- Once terminated, always terminated. -/
theorem gone_mono {s s' : State} {a : Act} (hs : step env table argv s a = some s')
    (hfork : s.shell ≠ .fork) {name : Name} (h : name ∈ s.gone) : name ∈ s'.gone := by
  cases a with
  | fork error => simp [step, hfork] at hs
  | call i =>
      simp only [step, Option.map_eq_some_iff] at hs
      obtain ⟨pool, hpool, rfl⟩ := hs
      unfold Processes.step at hpool
      split at hpool
      · simp at hpool
      · cases hpool
        simp only [State.gone, List.filter_append, List.map_append, List.mem_append] at h ⊢
        rcases h with h | h
        · exact Or.inl (Or.inl h)
        · exact Or.inr h
  | terminate n =>
      simp only [step] at hs
      split at hs
      · cases hs
        simp only [State.gone, List.mem_append, List.mem_cons] at h ⊢
        rcases h with h | h
        · exact Or.inl h
        · exact Or.inr (Or.inr h)
      · simp at hs
  | waitpid =>
      simp only [step] at hs
      split at hs
      · cases hs
        exact h
      · simp at hs

theorem Inv.of_step {s s' : State} {a : Act} (h : Inv argv s)
    (hs : step env table argv s a = some s') : Inv argv s' := by
  have hmono := @gone_mono env table argv s s' a hs
  cases a with
  | fork error =>
      simp only [step] at hs
      split at hs
      · cases error with
        | some e =>
            cases hs
            exact ⟨h.running, h.execed, fun _ hshell => by simp at hshell⟩
        | none =>
            cases hs
            refine ⟨?_, by simp [start], fun hfg hshell => ?_⟩
            · intro x hx _
              obtain rfl := List.mem_singleton.1 hx
              exact ownExecs_commandChild argv
            · simp [hfg] at hshell
      · simp at hs
  | call i =>
      simp only [step, Option.map_eq_some_iff] at hs
      obtain ⟨pool, hpool, rfl⟩ := hs
      obtain ⟨hrunning, hexeced⟩ :=
        forall_of_step (fun _ _ => move_ownExecs) ⟨h.running, h.execed⟩ hpool
      exact ⟨hrunning, hexeced, fun hfg hshell =>
        hmono (fun hpc => by simp [hpc] at hshell) (h.waited hfg hshell)⟩
  | terminate name =>
      simp only [step] at hs
      split at hs
      · cases hs
        exact ⟨h.running, h.execed, fun hfg hshell =>
          hmono (fun hpc => by simp [hpc] at hshell) (h.waited hfg hshell)⟩
      · simp at hs
  | waitpid =>
      simp only [step] at hs
      split at hs
      · next hgone =>
          cases hs
          exact ⟨h.running, h.execed, fun _ _ => hgone.2⟩
      · simp at hs

theorem Inv.of_reachable {s : State} (h : Runs.Reachable (step env table argv) init s) :
    Inv argv s :=
  h.invariant (fun _ _ _ hinv hs => hinv.of_step hs)
    ⟨by simp [init], by simp [init], by simp [init]⟩

/-- The calls of the processes of the line, one after the other. -/
theorem run_call {is : List ℕ} {s : State} {pool : Pool}
    (h : Runs.run (Processes.step env) s.pool is = some pool) :
    Runs.run (step env table argv) s (is.map .call) = some { s with pool := pool } := by
  induction is generalizing s with
  | nil =>
      cases h
      rfl
  | cons i is ih =>
      rw [Runs.run_cons, Option.bind_eq_some_iff] at h
      obtain ⟨pool₁, hstep, h⟩ := h
      have hcall : step env table argv s (.call i) = some { s with pool := pool₁ } := by
        simp only [step, hstep, Option.map_some]
      rw [List.map_cons, Runs.run_cons_of_step hcall]
      exact @ih { s with pool := pool₁ } h

/-! ### Lines without a pipe -/

/-- There is at most one process, the one that was forked. -/
structure Single (s : State) : Prop where
  running : ∀ x ∈ s.pool.running, x.2.name = [] ∧ Forkless x.1
  ended : ∀ e ∈ s.pool.ended, e.name = []
  length : s.pool.running.length + s.pool.ended.length ≤ 1
  terminated : ∀ name ∈ s.terminated, name ∈ (s.pool.ended.filter (·.isExec)).map Ended.name
  fork : s.shell = .fork → s.pool = ⟨[], []⟩ ∧ s.terminated = []

theorem single_init : Single init :=
  ⟨by simp [init], by simp [init], by simp [init], by simp [init], by simp [init]⟩

/-- A system call of the one process. -/
theorem Single.call {s : State} (h : Single s) {i : ℕ} {pool : Pool}
    (hpool : Processes.step env s.pool i = some pool) : Single { s with pool := pool } := by
  obtain ⟨hrunning, hended⟩ := forall_of_step (Q := fun p c => c.name = [] ∧ Forkless p)
    (fun _ _ hp => (move_forkless hp).1) ⟨h.running, h.ended⟩ hpool
  refine ⟨hrunning, hended, ?_, ?_, fun hshell => ?_⟩
  · unfold Processes.step at hpool
    split at hpool
    · simp at hpool
    · next p hp =>
        cases hpool
        have hone := (@move_forkless env p.1 p.2 (h.running p (List.mem_of_getElem? hp))).2
        have herase := (perm_eraseIdx hp).length_eq
        have hlen := h.length
        simp only [List.length_append, List.length_cons] at herase ⊢
        omega
  · intro name hname
    unfold Processes.step at hpool
    split at hpool
    · simp at hpool
    · cases hpool
      rw [List.filter_append, List.map_append]
      exact List.mem_append_left _ (h.terminated name hname)
  · rw [(h.fork hshell).1] at hpool
    simp [Processes.step] at hpool

theorem Single.of_step (hone : "|" ∉ tokens argv) {s s' : State} {a : Act} (h : Single s)
    (hs : step env table argv s a = some s') : Single s' := by
  cases a with
  | fork error =>
      simp only [step] at hs
      split at hs
      · next hshell =>
          cases error with
          | some e =>
              cases hs
              exact ⟨h.running, h.ended, h.length, h.terminated, by simp⟩
          | none =>
              cases hs
              refine ⟨?_, by simp [start], by simp [start], by simp [(h.fork hshell).2],
                fun hpc => ?_⟩
              · intro x hx
                obtain rfl := List.mem_singleton.1 hx
                exact ⟨rfl, forkless_commandChild hone⟩
              · revert hpc
                cases isBackground argv <;> simp
      · simp at hs
  | call i =>
      simp only [step, Option.map_eq_some_iff] at hs
      obtain ⟨pool, hpool, rfl⟩ := hs
      exact h.call hpool
  | terminate name =>
      simp only [step] at hs
      split at hs
      · next hname =>
          cases hs
          refine ⟨h.running, h.ended, h.length, ?_, fun hshell => ?_⟩
          · intro n hn
            rcases List.mem_cons.1 hn with rfl | hn
            · exact hname.1
            · exact h.terminated n hn
          · have hnone := hname.1
            rw [(h.fork hshell).1] at hnone
            simp at hnone
      · simp at hs
  | waitpid =>
      simp only [step] at hs
      split at hs
      · cases hs
        exact ⟨h.running, h.ended, h.length, h.terminated, by simp⟩
      · simp at hs

/-- When the one process has terminated nothing is alive. -/
theorem Single.alive_eq_nil {s : State} (h : Single s) (hgone : [] ∈ s.gone) : s.alive = [] := by
  have hlen := h.length
  -- it is the only element of the list of those that have ended
  have hended : s.pool.ended ≠ [] := by
    intro hnil
    rcases List.mem_append.1 hgone with hexited | hterminated
    · simp [hnil] at hexited
    · simpa [hnil] using h.terminated _ hterminated
  obtain ⟨e, es, hes⟩ := List.exists_cons_of_ne_nil hended
  rw [hes, List.length_cons] at hlen
  have hrunning : s.pool.running = [] := List.length_eq_zero_iff.1 (by omega)
  obtain rfl : es = [] := List.length_eq_zero_iff.1 (by omega)
  have hname : e.name = [] := h.ended e (by simp [hes])
  simp only [State.alive, hrunning, hes, List.map_nil, List.nil_append]
  cases e with
  | exited name status => rfl
  | execed name args t =>
      obtain rfl : name = [] := hname
      have hterminated : [] ∈ s.terminated := by
        rcases List.mem_append.1 hgone with hexited | hterminated
        · simp [hes, Ended.isExec] at hexited
        · exact hterminated
      simp [Ended.isExec, Ended.name, hterminated]

/-- **When `run_command` returns for a line without `&`**, in whatever order the processes of the
line make their calls and terminate: the process it forked has terminated; that process has executed
the leftmost stage, if anything; and when the line has no `|`, no process of the line is left. -/
theorem returns_after_leftmost (hfg : isBackground argv = false) {s : State}
    (h : Runs.Reachable (step env table argv) init s) (hreturned : s.shell = .returned) :
    [] ∈ s.gone ∧
      (∀ args t, .execed [] args t ∈ s.pool.ended → args = leftmost (tokens argv)) ∧
      ("|" ∉ tokens argv → s.alive = []) := by
  have hinv := Inv.of_reachable h
  have hgone := hinv.waited hfg hreturned
  refine ⟨hgone, fun args t hmem => hinv.execed _ hmem args t rfl, fun hone => ?_⟩
  have hsingle : Single s :=
    h.invariant (fun _ _ _ hsingle hs => hsingle.of_step hone hs) single_init
  exact hsingle.alive_eq_nil hgone

/-- The line `a | b`: the first command terminates, and the prompt comes back while the process of
the second one has not made a call yet. -/
theorem reachable_pipe :
    ∃ s, Runs.Reachable (step calm (inheritedTable [true, true, true]) (vector ["a", "|", "b"]))
      init s ∧
      s.shell = .returned ∧ s.alive = [[0]] ∧ ∃ t, .execed [] ["a"] t ∈ s.pool.ended := by
  obtain ⟨right, hchild⟩ : ∃ right : ℕ → ℕ → Prog, commandChild (vector ["a", "|", "b"]) =
      .setErrno 1 (.setErrno 1 (.pipe fun fds =>
        fds.elim (.message "pipe" <| .exit 1) fun p => .fork couldNotExec
          (.close p.1 <|
            (if p.2 ≠ 1 then fun next => .dup2 p.2 1 fun _ => .close p.2 next else id) <|
              .execvp (some "a") ["a"] couldNotExec)
          (right p.1 p.2))) := by
    have hindex : pipePresent (vector ["a", "|", "b"]) = 1 := by decide
    refine ⟨fun p0 p1 => .close p1 <|
      (if p0 ≠ 0 then fun next => .dup2 p0 0 fun _ => .close p0 next else id) <|
        pipeAndExec ((vector ["a", "|", "b"]).drop 2), ?_⟩
    simp only [commandChild, redirectIn, redirectOut]
    rw [if_pos (by decide), if_pos (by decide), pipeAndExec, if_neg (by rw [hindex]; decide),
      dif_neg (by rw [hindex]; decide), hindex]
    refine congrArg (fun k => Prog.setErrno 1 (.setErrno 1 (.pipe k))) (funext fun fds => ?_)
    cases fds with
    | none => rfl
    | some p => rfl
  let table := inheritedTable [true, true, true]
  have hfork : step calm table (vector ["a", "|", "b"]) init (.fork none) = some
      ⟨.waitpid, start (commandChild (vector ["a", "|", "b"])) table, []⟩ := by
    simp [step, init, isBackground, vector]
  -- up to the fork, and from there the parent up to its `execvp`
  let forked : Table := [some (.inherited 0), some (.inherited 1), some (.inherited 2),
    some (.readEnd [] 0), some (.writeEnd [] 0)]
  let parent : Prog := .close 3 <| .dup2 4 1 fun _ =>
    .close 4 <| .execvp (some "a") ["a"] couldNotExec
  let pool₁ : Pool := ⟨[(parent, ⟨[], 1, 1, forked, 1⟩), (right 3 4, ⟨[0], 0, 0, forked, 1⟩)], []⟩
  have hcalls₁ : Runs.run (Processes.step calm)
    (start (commandChild (vector ["a", "|", "b"])) table)
      [0, 0, 0, 0] = some pool₁ := by
    rw [hchild]
    rfl
  have hcalls₂ : ∃ t, Runs.run (Processes.step calm) pool₁ [0, 1, 1, 1] =
      some ⟨[(right 3 4, ⟨[0], 0, 0, forked, 1⟩)], [.execed [] ["a"] t]⟩ := ⟨_, rfl⟩
  obtain ⟨t, hcalls₂⟩ := hcalls₂
  have hcalls := (Runs.run_append_of_run hcalls₁ _).trans hcalls₂
  have hrun := (Runs.run_cons_of_step hfork _).trans <|
    (Runs.run_append_of_run (run_call hcalls) [.terminate [], .waitpid]).trans rfl
  exact ⟨_, .of_run hrun, rfl, rfl, t, List.mem_singleton_self _⟩

/-- The process of `a | b` that the shell has forked has executed `a`, and it has terminated. -/
theorem returns_after_leftmost_pipe :
    isBackground (vector ["a", "|", "b"]) = false ∧
    ∃ s, Runs.Reachable (step calm (inheritedTable [true, true, true]) (vector ["a", "|", "b"]))
      init s ∧
      s.shell = .returned ∧ [] ∈ s.gone ∧ (∃ t, .execed [] ["a"] t ∈ s.pool.ended) ∧
      ∀ args t, .execed [] args t ∈ s.pool.ended → args = ["a"] := by
  obtain ⟨s, hs, hreturned, -, hexec⟩ := reachable_pipe
  obtain ⟨hgone, hleft, -⟩ := returns_after_leftmost rfl hs hreturned
  exact ⟨rfl, s, hs, hreturned, hgone, hexec, hleft⟩

/-- **Of `a | b` the second process can be left**: the first command terminates, and the prompt
comes back while the other process is still there. -/
theorem exists_alive_pipe :
    isBackground (vector ["a", "|", "b"]) = false ∧
    ∃ s, Runs.Reachable (step calm (inheritedTable [true, true, true]) (vector ["a", "|", "b"]))
      init s ∧ s.shell = .returned ∧ s.alive = [[0]] := by
  obtain ⟨s, hs, hreturned, halive, -⟩ := reachable_pipe
  exact ⟨rfl, s, hs, hreturned, halive⟩

end Wait

end Shell
