/-
**Pipelines and redirections of the shell (`HW5/part2`).**

The child that `run_command` forks for a command line runs `redirect_in`, `redirect_out` and
`pipe_and_exec` on the vector of the line's tokens.  Each of the first two looks for its operator up
to the first null pointer of the vector, opens the file behind it and writes a null pointer over the
operator.  `pipe_and_exec` splits the vector at the first `|`, creates a pipe and forks; the parent
executes the left half, and the child goes on with the right half in the same way.

A vector is a list of cells, and behind its last cell there are null pointers.  What is copied is
copied without a bound, and no call of `malloc` fails; the copy that `pipe_and_exec` makes of the
tokens to the right of the `|` is never used and has been left out.

Main definitions:

* `Shell.tokens` — the tokens of a vector, up to its first null pointer;
* `Shell.isBackground` — `is_background.c`;
* `Shell.pipePresent`, `Shell.pipeAndExec` — `pipe_present.c` and `pipe_command.c`;
* `Shell.redirectIn`, `Shell.redirectOut` — `redirect_in.c` and `redirect_out.c`;
* `Shell.commandChild` — the child that `run_command` forks;
* `Shell.report`, `Shell.afterFork` — what the shell makes of the way in which that child ends.
-/

import NetSysProg.Outcome
import NetSysProg.Processes

set_option relaxedAutoImplicit false
set_option autoImplicit false

namespace Shell

open Processes

/-! ### Vectors of tokens -/

/-- A `char **`; the null pointer is `none`. -/
abbrev Argv := List (Option String)

/-- `argv[i]` -/
def cell (argv : Argv) (i : ℕ) : Option String := (argv[i]?).join

/-- The tokens up to the first null pointer. -/
def tokens : Argv → List String
  | [] => []
  | none :: _ => []
  | some t :: argv => t :: tokens argv

/-- A null-terminated vector. -/
def vector (ts : List String) : Argv := ts.map some ++ [none]

/-- The index of the first `token`, or else of the first null pointer. -/
def search (token : String) : Argv → ℕ
  | [] => 0
  | none :: _ => 0
  | some t :: argv => if t = token then 0 else search token argv + 1

/-- `is_background`, the same in both shells: whether there is a `&` before the null pointer. -/
def isBackground : Argv → Bool
  | [] => false
  | none :: _ => false
  | some t :: argv => if t = "&" then true else isBackground argv

/-! ### Pipelines -/

/-- `pipe_present`: the index of the first `|`, or `0` if there is none, or `-1` if it is the first
or the last token. -/
def pipePresent (argv : Argv) : ℤ :=
  let index := search "|" argv
  if cell argv index = none then 0
  else if index = 0 ∨ cell argv (index + 1) = none then -1
  else index

theorem pipePresent_nil : pipePresent [] = 0 := rfl

def EINVAL : ℤ := 22

/-- What every branch of `pipe_and_exec` comes to when it has not become another program. -/
def couldNotExec : Prog := .message "Couldn't fork or exec child process" .exitErrno

/-- `pipe_and_exec` -/
def pipeAndExec (argv : Argv) : Prog :=
  if pipePresent argv = -1 then
    .message "Missing command next to pipe in commandline.\n" <| .setErrno EINVAL couldNotExec
  else if _h : pipePresent argv = 0 then
    .execvp (cell argv 0) (tokens argv) couldNotExec
  else
    let pipeArgvIndex := (pipePresent argv).toNat
    let leftArgv := tokens (argv.take pipeArgvIndex)
    .pipe fun pipefds =>
      match pipefds with
      | none => .message "pipe" <| .exit 1
      | some (p0, p1) =>
          .fork couldNotExec
            (.close p0 <|
              (if p1 ≠ 1 then fun next => .dup2 p1 1 fun _ => .close p1 next else id) <|
                .execvp leftArgv.head? leftArgv couldNotExec)
            (.close p1 <|
              (if p0 ≠ 0 then fun next => .dup2 p0 0 fun _ => .close p0 next else id) <|
                pipeAndExec (argv.drop (pipeArgvIndex + 1)))
  termination_by argv.length
  decreasing_by
    have hpos : 0 < argv.length := by
      rw [List.length_pos_iff]
      rintro rfl
      exact _h pipePresent_nil
    rw [List.length_drop]
    omega

/-! ### Redirections -/

/-- `redirect_in`: its result and the vector after it. -/
def redirectIn (argv : Argv) (next : ℤ → Argv → Prog) : Prog :=
  let i := search "<" argv
  .setErrno 1 <|
    if cell argv i = none then next (-1) argv
    else
      .setErrno 0 <| .openFile (cell argv (i + 1)) .read fun fd =>
        .dup2 fd 0 fun _ => .close fd <| next 0 (argv.set i none)

/-- `redirect_out`: its result and the vector after it. -/
def redirectOut (argv : Argv) (next : ℤ → Argv → Prog) : Prog :=
  let i := search ">" argv
  .setErrno 1 <|
    if cell argv i = none then next (-1) argv
    else
      .setErrno 0 <| .openFile (cell argv (i + 1)) .writeTruncate fun fd =>
        if fd = -1 then .message "open" <| .exit 1
        else
          .dup2 fd 1 fun r =>
            if r = -1 then .message "dup2" <| .exit 1
            else .close fd <| next 0 (argv.set i none)

/-! ### `run_command` -/

/-- The child that `run_command` forks for a command line. -/
def commandChild (argv : Argv) : Prog :=
  redirectIn argv fun _ argv => redirectOut argv fun _ argv => pipeAndExec argv

/-- How a child ends. -/
inductive Status
  | exited (code : ℕ)
  | signaled (sig : ℕ)
  deriving DecidableEq

/-- What `run_command` does with the status of the child that it has waited for.  For any status but
`0` it calls `strerror` or `strsignal`, which are not declared in `run_command.c`: what they return
is taken for an `int`, and what is made of that is not the address of a string. -/
def report : Status → Outcome Unit
  | .exited code => if code = 0 then .ok () else .fault
  | .signaled sig => if sig = 0 then .ok () else .fault

/-- `run_command` behind the `fork`, in the shell, when the child ends with the status. -/
def afterFork (argv : Argv) (stat : Status) : Outcome Unit :=
  if isBackground argv then .ok () else report stat

/-- There is nothing to report. -/
def Status.Quiet (stat : Status) : Prop := stat = .exited 0 ∨ stat = .signaled 0

instance (stat : Status) : Decidable stat.Quiet := inferInstanceAs (Decidable (_ ∨ _))

/-- **The shell survives the report** only if there is nothing to report. -/
theorem report_eq_ok_iff (stat : Status) : report stat = .ok () ↔ stat.Quiet := by
  cases stat with
  | exited code => by_cases hcode : code = 0 <;> simp [report, Status.Quiet, hcode]
  | signaled sig => by_cases hsig : sig = 0 <;> simp [report, Status.Quiet, hsig]

end Shell
