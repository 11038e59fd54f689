/-
**Two filters on one pipe (`HW8/44_6/pipe_ls_wc.c`).**

The parent makes a pipe and two children.  The first closes the read end, puts the write end in the
place of its standard output, and becomes `ls`; the second does the same with the read end and its
standard input, and becomes `wc -l`; the parent closes both ends and waits for the two.  Which
numbers the ends get depends on the descriptors that are open when the program starts, and nothing
is known about these: also the standard input or the standard output may be closed, and then an end
is already in its place.

A process that sets itself up runs a list of calls, each of which is checked.  What runs afterwards
in the children is not part of the repository: `ls` is a program that writes some bytes to its
standard output, and `wc -l` one that reads its standard input to the end and prints the number of
newlines, if its standard output is open.  `pipe`, `fork` and `execlp` do not fail.

Main definitions:

* `LsWc.Call`, `LsWc.Call.exec`, `LsWc.runCalls` — the checked calls of a process on its
  descriptors;
* `LsWc.lsCalls`, `LsWc.wcCalls`, `LsWc.parentCalls` — what the three processes do;
* `LsWc.prints` — what comes of the output of `wc`;
* `LsWc.step` — one call of one of the processes.

Main results:

* `LsWc.leads_ls`, `LsWc.leads_wc`, `LsWc.leads_parent` — **whatever is open at the start, no call
  fails**, the children have one more descriptor than the program was started with, and the parent
  has none;
* `LsWc.Leads.mem` — an end that a process has after its calls it has had all the time.
-/

import NetSysProg.CString
import NetSysProg.Pipes
import NetSysProg.Processes

set_option relaxedAutoImplicit false
set_option autoImplicit false

namespace LsWc

open CString Pipes Processes

/-! ### Descriptors -/

/-- The read end of the pipe. -/
def readEnd : FileObj := .readEnd [] 0

/-- The write end of the pipe. -/
def writeEnd : FileObj := .writeEnd [] 0

/-- A descriptor refers to the object. -/
def holds (o : FileObj) (t : Table) : Bool := t.contains (some o)

theorem holds_iff {o : FileObj} {t : Table} : holds o t = true ↔ ∃ fd, t.get fd = some o := by
  rw [holds, List.contains_iff_mem, List.mem_iff_getElem?]
  constructor
  · rintro ⟨fd, hfd⟩
    exact ⟨fd, by rw [Table.get, hfd]; rfl⟩
  · rintro ⟨fd, hfd⟩
    refine ⟨fd, ?_⟩
    unfold Table.get at hfd
    cases h : t[fd]? with
    | none => rw [h] at hfd; cases hfd
    | some x => rw [h] at hfd; exact congrArg some hfd

/-- A call with which a process sets itself up. -/
inductive Call
  | close (fd : ℕ)
  | dup2 (oldfd newfd : ℕ)
  deriving DecidableEq

/-- The descriptors after a call; a call fails for a descriptor that is not open. -/
def Call.exec (t : Table) : Call → Option Table
  | .close fd => if t.get fd = none then none else some (t.remove fd)
  | .dup2 oldfd newfd => (t.get oldfd).map fun o => t.put newfd o

/-- The descriptors after a list of calls, none of which fails. -/
def runCalls : Table → List Call → Option Table
  | t, [] => some t
  | t, c :: cs => (c.exec t).bind fun t => runCalls t cs

/-! ### The calls of the program -/

section Calls

variable (t : Table)

/-- `pfd[0]` -/
def pfd0 : ℕ := t.free

/-- `pfd[1]` -/
def pfd1 : ℕ := (t.put (pfd0 t) readEnd).free

/-- The descriptors after `pipe`. -/
def piped : Table := (t.put (pfd0 t) readEnd).put (pfd1 t) writeEnd

/-- The first child, up to `execlp("ls", ..)`. -/
def lsCalls : List Call :=
  .close (pfd0 t) :: if pfd1 t ≠ 1 then [.dup2 (pfd1 t) 1, .close (pfd1 t)] else []

/-- The second child, up to `execlp("wc", ..)`. -/
def wcCalls : List Call :=
  .close (pfd1 t) :: if pfd0 t ≠ 0 then [.dup2 (pfd0 t) 0, .close (pfd0 t)] else []

/-- The parent, after both forks. -/
def parentCalls : List Call := [.close (pfd0 t), .close (pfd1 t)]

theorem get_pfd0 : t.get (pfd0 t) = none := t.get_free

theorem pfd1_ne : pfd1 t ≠ pfd0 t := by
  have hfree : (t.put (pfd0 t) readEnd).get (pfd1 t) = none := Table.get_free _
  intro heq
  rw [heq, Table.get_put, if_pos rfl] at hfree
  cases hfree

theorem get_pfd1 : t.get (pfd1 t) = none := by
  have hfree : (t.put (pfd0 t) readEnd).get (pfd1 t) = none := Table.get_free _
  rwa [Table.get_put, if_neg (pfd1_ne t)] at hfree

/-- What is open after `pipe`. -/
theorem get_piped (fd : ℕ) :
    (piped t).get fd = if fd = pfd1 t then some writeEnd else if fd = pfd0 t then
      some readEnd else t.get fd := by
  rw [piped, Table.get_put, Table.get_put]

end Calls

/-! ### Where the calls lead -/

/-- The calls that are left do not fail, and then the descriptors are as `target` says. -/
def Leads (t : Table) (cs : List Call) (target : ℕ → Option FileObj) : Prop :=
  ∃ t', runCalls t cs = some t' ∧ ∀ fd, t'.get fd = target fd

/-- **No call fails on the way.** -/
theorem Leads.step {t : Table} {c : Call} {cs : List Call} {target : ℕ → Option FileObj}
    (h : Leads t (c :: cs) target) : ∃ t', c.exec t = some t' ∧ Leads t' cs target := by
  obtain ⟨t', hrun, htarget⟩ := h
  obtain ⟨t₁, hc, hcs⟩ := Option.bind_eq_some_iff.1 hrun
  exact ⟨t₁, hc, t', hcs, htarget⟩

theorem Leads.nil {t : Table} {target : ℕ → Option FileObj} (h : Leads t [] target) (fd : ℕ) :
    t.get fd = target fd := by
  obtain ⟨t', hrun, htarget⟩ := h
  obtain rfl := Option.some.inj hrun
  exact htarget fd

/-- A call makes nothing that was not there. -/
theorem Call.holds_of_exec {t t' : Table} {c : Call} {o : FileObj} (h : c.exec t = some t')
    (ho : holds o t' = true) : holds o t = true := by
  obtain ⟨fd, hfd⟩ := holds_iff.1 ho
  refine holds_iff.2 ?_
  cases c with
  | close n =>
      simp only [Call.exec] at h
      split at h
      · cases h
      · obtain rfl := Option.some.inj h
        rw [Table.get_remove] at hfd
        split at hfd
        · cases hfd
        · exact ⟨fd, hfd⟩
  | dup2 oldfd newfd =>
      obtain ⟨o', hold, rfl⟩ := Option.map_eq_some_iff.1 h
      rw [Table.get_put] at hfd
      split at hfd
      · exact ⟨oldfd, hold.trans hfd⟩
      · exact ⟨fd, hfd⟩

/-- **What a process has after its calls it has had all the time.** -/
theorem Leads.mem {t : Table} {cs : List Call} {target : ℕ → Option FileObj} (h : Leads t cs target)
    {o : FileObj} {fd : ℕ} (ho : target fd = some o) : holds o t = true := by
  induction cs generalizing t with
  | nil => exact holds_iff.2 ⟨fd, (h.nil fd).trans ho⟩
  | cons c cs ih =>
      obtain ⟨t', hc, hrest⟩ := h.step
      exact Call.holds_of_exec hc (ih hrest)

/-- The descriptors of `ls`: the write end in the place of the standard output, and what was open
before. -/
def lsTarget (t : Table) (fd : ℕ) : Option FileObj := if fd = 1 then some writeEnd else t.get fd

/-- The descriptors of `wc`: the read end in the place of the standard input, and what was open
before. -/
def wcTarget (t : Table) (fd : ℕ) : Option FileObj := if fd = 0 then some readEnd else t.get fd

/-- **The first child is wired as intended**, whatever was open. -/
theorem leads_ls (t : Table) : Leads (piped t) (lsCalls t) (lsTarget t) := by
  have hne := pfd1_ne t
  have h0 := get_pfd0 t
  have h1 := get_pfd1 t
  have hr : (piped t).get (pfd0 t) = some readEnd := by rw [get_piped, if_neg hne.symm, if_pos rfl]
  have hw : ((piped t).remove (pfd0 t)).get (pfd1 t) = some writeEnd := by
    rw [Table.get_remove, if_neg hne, get_piped, if_pos rfl]
  unfold lsCalls
  by_cases hone : pfd1 t = 1
  · rw [if_neg (not_not_intro hone)]
    refine ⟨(piped t).remove (pfd0 t), by simp [runCalls, Call.exec, hr], fun fd => ?_⟩
    rw [Table.get_remove, get_piped, lsTarget, hone]
    split_ifs <;> simp_all
  · rw [if_pos hone]
    have hc : (((piped t).remove (pfd0 t)).put 1 writeEnd).get (pfd1 t) = some writeEnd := by
      rw [Table.get_put, if_neg hone, hw]
    refine ⟨(((piped t).remove (pfd0 t)).put 1 writeEnd).remove (pfd1 t),
      by simp [runCalls, Call.exec, hr, hw, hc], fun fd => ?_⟩
    rw [Table.get_remove, Table.get_put, Table.get_remove, get_piped, lsTarget]
    split_ifs <;> simp_all

/-- **The second child is wired as intended**, whatever was open. -/
theorem leads_wc (t : Table) : Leads (piped t) (wcCalls t) (wcTarget t) := by
  have hne := pfd1_ne t
  have h0 := get_pfd0 t
  have h1 := get_pfd1 t
  have hw : (piped t).get (pfd1 t) = some writeEnd := by rw [get_piped, if_pos rfl]
  have hr : ((piped t).remove (pfd1 t)).get (pfd0 t) = some readEnd := by
    rw [Table.get_remove, if_neg hne.symm, get_piped, if_neg hne.symm, if_pos rfl]
  unfold wcCalls
  by_cases hzero : pfd0 t = 0
  · rw [if_neg (not_not_intro hzero)]
    refine ⟨(piped t).remove (pfd1 t), by simp [runCalls, Call.exec, hw], fun fd => ?_⟩
    rw [Table.get_remove, get_piped, wcTarget, hzero]
    split_ifs <;> simp_all
  · rw [if_pos hzero]
    have hc : (((piped t).remove (pfd1 t)).put 0 readEnd).get (pfd0 t) = some readEnd := by
      rw [Table.get_put, if_neg hzero, hr]
    refine ⟨(((piped t).remove (pfd1 t)).put 0 readEnd).remove (pfd0 t),
      by simp [runCalls, Call.exec, hr, hw, hc], fun fd => ?_⟩
    rw [Table.get_remove, Table.get_put, Table.get_remove, get_piped, wcTarget]
    split_ifs <;> simp_all

/-- **The parent is left with what was open before.** -/
theorem leads_parent (t : Table) : Leads (piped t) (parentCalls t) t.get := by
  have hne := pfd1_ne t
  have h0 := get_pfd0 t
  have h1 := get_pfd1 t
  have hr : (piped t).get (pfd0 t) = some readEnd := by rw [get_piped, if_neg hne.symm, if_pos rfl]
  have hw : ((piped t).remove (pfd0 t)).get (pfd1 t) = some writeEnd := by
    rw [Table.get_remove, if_neg hne, get_piped, if_pos rfl]
  refine ⟨((piped t).remove (pfd0 t)).remove
    (pfd1 t), by simp [parentCalls, runCalls, Call.exec, hr, hw], fun fd => ?_⟩
  rw [Table.get_remove, Table.get_remove, get_piped]
  split_ifs <;> simp_all

/-! ### The system -/

/-- The call at which the parent is, after `pipe`. -/
inductive ParentPc
  | fork1
  | fork2
  /-- Closing the ends of the pipe. -/
  | setup (calls : List Call)
  | wait1
  | wait2
  | exited (status : ℕ)
  deriving DecidableEq

/-- The call at which a child is. -/
inductive ChildPc
  | unborn
  /-- Before its `execlp`. -/
  | setup (calls : List Call)
  /-- The program that it has become. -/
  | running
  | exited
  deriving DecidableEq

/-- A child and its descriptors. -/
structure Child where
  pc : ChildPc
  table : Table
  deriving DecidableEq

/-- A process that has ended has nothing open. -/
def Child.gone : Child := ⟨.exited, []⟩

/-- One of the checked calls of a child, or its `execlp`. -/
def Child.setupStep (c : Child) : List Call → Child
  | [] => { c with pc := .running }
  | call :: calls =>
      match call.exec c.table with
      | some table => ⟨.setup calls, table⟩
      -- `errExit`
      | none => .gone

/-- The three processes, the pipe, what `ls` has still to write, what `wc` has read, and what it has
printed. -/
structure State (cap : ℕ) where
  parent : ParentPc
  table : Table
  ls : Child
  wc : Child
  pipe : Pipe Byte cap
  rest : List Byte
  got : List Byte
  printed : Option ℕ
  deriving DecidableEq

variable {cap : ℕ}

/-- A live process has the end open. -/
def State.holds (s : State cap) (o : FileObj) : Bool :=
  LsWc.holds o s.table || LsWc.holds o s.ls.table || LsWc.holds o s.wc.table

/-- The parent after `pipe`, when `t` was open at the start. -/
def init (cap : ℕ) (t : Table) (output : List Byte) : State cap where
  parent := .fork1
  table := piped t
  ls := ⟨.unborn, []⟩
  wc := ⟨.unborn, []⟩
  pipe := Pipe.empty Byte cap
  rest := output
  got := []
  printed := none

/-- One step; `n` is how many bytes a `read` or a `write` moves. -/
inductive Act
  | parent
  | ls (n : ℕ)
  | wc (n : ℕ)
  deriving DecidableEq

def parentStep (t : Table) (s : State cap) : Option (State cap) :=
  match s.parent with
  | .fork1 => some { s with parent := .fork2, ls := ⟨.setup (lsCalls t), s.table⟩ }
  | .fork2 => some { s with parent := .setup (parentCalls t), wc := ⟨.setup (wcCalls t), s.table⟩ }
  | .setup [] => some { s with parent := .wait1 }
  | .setup (call :: calls) =>
      match call.exec s.table with
      | some table => some { s with parent := .setup calls, table := table }
      -- `errExit`
      | none => some { s with parent := .exited 1, table := [] }
  | .wait1 => if s.ls.pc = .exited ∨ s.wc.pc = .exited then
    some { s with parent := .wait2 } else none
  | .wait2 =>
      if s.ls.pc = .exited ∧ s.wc.pc = .exited then
        some { s with parent := .exited 0, table := [] } else none
  | .exited _ => none

def lsStep (s : State cap) (n : ℕ) : Option (State cap) :=
  match s.ls.pc with
  | .unborn => none
  | .setup calls => some { s with ls := s.ls.setupStep calls }
  | .running =>
      if s.rest = [] then some { s with ls := .gone }
      else if s.ls.table.get 1 ≠ some writeEnd then some { s with rest := [] }
      -- without a reader it is killed by `SIGPIPE`
      else if s.holds readEnd = false then some { s with ls := .gone }
      else if 1 ≤ n ∧ n ≤ s.rest.length then
        (s.pipe.write (s.rest.take n)).map fun pipe =>
          { s with pipe := pipe, rest := s.rest.drop n }
      else none
  | .exited => none

/-- What becomes of a line that a process writes to its standard output, when `t` is open. -/
def prints (t : Table) (count : ℕ) : Option ℕ := if t.get 1 = none then none else some count

def wcStep (s : State cap) (n : ℕ) : Option (State cap) :=
  match s.wc.pc with
  | .unborn => none
  | .setup calls => some { s with wc := s.wc.setupStep calls }
  | .running =>
      if s.wc.table.get 0 ≠ some readEnd then some { s with wc := .gone }
      else if s.pipe.content = [] then
        if s.holds writeEnd then none
        else some { s with wc := .gone, printed := prints s.wc.table (s.got.count newline) }
      else if 1 ≤ n then
        (s.pipe.read n).map fun r => { s with pipe := r.2, got := s.got ++ r.1 }
      else none
  | .exited => none

/-- **One step of the system.** -/
def step (t : Table) (s : State cap) : Act → Option (State cap)
  | .parent => parentStep t s
  | .ls n => lsStep s n
  | .wc n => wcStep s n

end LsWc
