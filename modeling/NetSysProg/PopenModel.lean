/-
**`my_popen` and `my_pclose` (`HW6/44_2.c`).**

`my_popen` makes a pipe and a child process, which runs a shell with one end of the pipe as its
standard input or output, and hands out the other end as a stream.  It stores the number of the
child in `fd_array` under the descriptor of the stream, where `my_pclose` looks for the child it has
to wait for.

The process around the two functions also opens and closes files of its own.  The kernel gives out
the lowest free descriptor; which number a child gets, and which calls fail, comes from outside.  A
child keeps the descriptors it has at its `execl` until it exits.

Main definitions:

* `Popen.myPopen` — `my_popen`, in the parent and in the child;
* `Popen.myPclose` — `my_pclose` up to its `waitpid`;
* `Popen.step` — the calls of the process, and a child that exits;
* `Popen.eofStep` — the same with children that read to the end of their standard input.

Main results:

* `Popen.myPopen_frame`, `Popen.myPopen_cases` — what `my_popen` leaves alone, and what it does when
  it hands out a stream;
* `Popen.myPopen_children` — what its child has open;
* `Popen.Move.of_step` — everything a step can do.
-/

import NetSysProg.Processes
import Mathlib.Logic.Function.Basic

set_option relaxedAutoImplicit false
set_option autoImplicit false

namespace Popen

open Processes (Table FileObj)

/-! ### `my_popen` -/

/-- `FD_SIZE` -/
def fdSize : ℕ := 1024

/-- The argument `type`. -/
inductive PopenType
  | r
  | w
  deriving DecidableEq

/-- The standard descriptor that becomes the child's end of the pipe. -/
def PopenType.target : PopenType → ℕ
  | .r => 1
  | .w => 0

/-- The child's end of the pipe. -/
def PopenType.childEnd (pipe : ℕ) : PopenType → FileObj
  | .r => .writeEnd [] pipe
  | .w => .readEnd [] pipe

/-- The end of the pipe that the stream gets. -/
def PopenType.streamEnd (pipe : ℕ) : PopenType → FileObj
  | .r => .readEnd [] pipe
  | .w => .writeEnd [] pipe

/-- Which of the calls in `my_popen` fail, in the parent and in the child. -/
structure Fails where
  pipe : Bool
  fork : Bool
  close : Bool
  childCloseOther : Bool
  childDup2 : Bool
  childCloseOwn : Bool
  childExecl : Bool
  deriving DecidableEq

/-- No call fails. -/
def Fails.none : Fails := ⟨false, false, false, false, false, false, false⟩

/-- A child of the process that it has not waited for, with the pipe that was made for it. -/
structure Child where
  pid : ℤ
  type : PopenType
  pipe : ℕ
  /-- The descriptors that it has open. -/
  table : Table
  /-- Its `execl` has succeeded; otherwise `my_popen` has returned in the child. -/
  execed : Bool
  exited : Bool
  deriving DecidableEq

/-- The process: its descriptors, `fd_array`, how many pipes it has made, and its children. -/
structure Proc where
  table : Table
  fdArray : Fin fdSize → ℤ
  pipes : ℕ
  children : List Child

/-- The parent's branches: `keep` is the end of the pipe for the stream. -/
def parentSide (keep drop : ℕ) (pid : ℤ) (fails : Fails) (p : Proc) : Option ℕ × Proc :=
  if fails.close then (none, p)
  else if h : keep < fdSize then
    (some keep, { p with
      table := p.table.remove drop
      fdArray := Function.update p.fdArray ⟨keep, h⟩ pid })
  else (none, { p with table := p.table.remove drop })

/-- The child's branches: `own` is its end of the pipe, and `obj` what it refers to.  The first
component says whether the child gets past its `execl`. -/
def childSide (own other target : ℕ) (obj : FileObj) (fails : Fails) (t : Table) : Bool × Table :=
  if fails.childCloseOther then (false, t)
  -- defensive check for `dup2`
  else if own ≠ target then
    if fails.childDup2 then (false, t.remove other)
    else if fails.childCloseOwn then (false, (t.remove other).put target obj)
    else (!fails.childExecl, ((t.remove other).put target obj).remove own)
  else (!fails.childExecl, t.remove other)

/-- `my_popen`, when `fork` returns `pid`: the descriptor of the stream, if it is not `NULL`, and
what has become of the process. -/
def myPopen (type : PopenType) (pid : ℤ) (fails : Fails) (p : Proc) : Option ℕ × Proc :=
  if fails.pipe then (none, p)
  else
    let pfd0 := p.table.free
    let t := p.table.put pfd0 (.readEnd [] p.pipes)
    let pfd1 := t.free
    let t := t.put pfd1 (.writeEnd [] p.pipes)
    if fails.fork then (none, { p with table := t, pipes := p.pipes + 1 })
    else
      match type with
      | .r =>
          let c := childSide pfd1 pfd0 1 (.writeEnd [] p.pipes) fails t
          parentSide pfd0 pfd1 pid fails { p with
            table := t
            pipes := p.pipes + 1
            children := ⟨pid, .r, p.pipes, c.2, c.1, false⟩ :: p.children }
      | .w =>
          let c := childSide pfd0 pfd1 0 (.readEnd [] p.pipes) fails t
          parentSide pfd1 pfd0 pid fails { p with
            table := t
            pipes := p.pipes + 1
            children := ⟨pid, .w, p.pipes, c.2, c.1, false⟩ :: p.children }

/-! ### What `my_popen` does -/

/-- Both ends of a new pipe get descriptors that were free. -/
theorem pipe_free (t : Table) (o : FileObj) :
    t.get (t.put t.free o).free = none ∧ (t.put t.free o).free ≠ t.free := by
  have hfree := Table.get_free (t.put t.free o)
  rw [Table.get_put] at hfree
  split at hfree
  · cases hfree
  · next hne => exact ⟨hfree, hne⟩

theorem childSide_none (target : ℕ) {own other : ℕ} {obj : FileObj} {t t₀ : Table}
    (hne : own ≠ other)
    (hown : t₀.get own = none) (hother : t₀.get other = none) (hobj : t.get own = some obj)
    (ht : ∀ fd, fd ≠ own → fd ≠ other → t.get fd = t₀.get fd) :
    (childSide own other target obj .none t).1 = true ∧
      ∀ fd, (childSide own other target obj .none t).2.get fd =
        if fd = target then some obj else t₀.get fd := by
  simp only [childSide, Fails.none, Bool.false_eq_true, if_false, Bool.not_false]
  split
  · next htarget =>
      refine ⟨rfl, fun fd => ?_⟩
      simp only [Table.get_remove, Table.get_put]
      split
      · next hfd =>
          subst hfd
          rw [if_neg htarget, hown]
      · next hfd =>
          split
          · rfl
          · split
            · next hfd' => rw [hfd', hother]
            · next hfd' => exact ht fd hfd hfd'
  · next htarget =>
      rw [not_not] at htarget
      subst htarget
      refine ⟨rfl, fun fd => ?_⟩
      simp only [Table.get_remove]
      split
      · next hfd =>
          subst hfd
          rw [if_neg (Ne.symm hne), hother]
      · next hfd =>
          split
          · next hfd' => rw [hfd', hobj]
          · next hfd' => exact ht fd hfd' hfd

/-- The parent's side leaves all but the end that it closes alone. -/
theorem parentSide_get {keep drop : ℕ} {pid : ℤ} {fails : Fails} {p : Proc} {fd : ℕ}
    (h : fd ≠ drop) : (parentSide keep drop pid fails p).2.table.get fd = p.table.get fd := by
  unfold parentSide
  split
  · rfl
  · split
    · exact (Table.get_remove ..).trans (if_neg h)
    · exact (Table.get_remove ..).trans (if_neg h)

/-- **A descriptor that is open stays what it is** during a call of `my_popen`. -/
theorem myPopen_frame {type : PopenType} {pid : ℤ} {fails : Fails} {p : Proc} {fd : ℕ}
    (h : p.table.get fd ≠ none) : (myPopen type pid fails p).2.table.get fd = p.table.get fd := by
  have hfd0 : fd ≠ p.table.free := fun heq => h (by rw [heq, Table.get_free])
  have hfd1 : fd ≠ (p.table.put p.table.free (.readEnd [] p.pipes)).free := fun heq =>
    h (by rw [heq, (pipe_free _ _).1])
  have hboth : ((p.table.put p.table.free (.readEnd [] p.pipes)).put
      (p.table.put p.table.free (.readEnd [] p.pipes)).free (.writeEnd [] p.pipes)).get fd =
        p.table.get fd := by
    rw [Table.get_put, if_neg hfd1, Table.get_put, if_neg hfd0]
  unfold myPopen
  split
  · rfl
  · dsimp only
    split
    · exact hboth
    · cases type with
      | r => exact (parentSide_get hfd1).trans hboth
      | w => exact (parentSide_get hfd0).trans hboth

/-- What a call of `my_popen` that hands out a stream with the descriptor `fd` has done. -/
structure Opened (type : PopenType) (pid : ℤ) (p : Proc) (fd : ℕ) (p' : Proc) : Prop where
  free : p.table.get fd = none
  table : ∀ fd', p'.table.get fd' =
    if fd' = fd then some (type.streamEnd p.pipes) else p.table.get fd'
  fdArray : ∃ h : fd < fdSize, p'.fdArray = Function.update p.fdArray ⟨fd, h⟩ pid
  pipes : p'.pipes = p.pipes + 1

/-- Either the parent's side hands out a stream, or it leaves `fd_array` alone. -/
theorem parentSide_cases (keep drop : ℕ) (pid : ℤ) (fails : Fails) (p : Proc) :
    (∃ h : keep < fdSize, parentSide keep drop pid fails p = (some keep, { p with
      table := p.table.remove drop
      fdArray := Function.update p.fdArray ⟨keep, h⟩ pid })) ∨
    (parentSide keep drop pid fails p).1 = none ∧
      (parentSide keep drop pid fails p).2.fdArray = p.fdArray := by
  unfold parentSide
  split
  · exact Or.inr ⟨rfl, rfl⟩
  · split
    · next h => exact Or.inl ⟨h, rfl⟩
    · exact Or.inr ⟨rfl, rfl⟩

/-- **A call of `my_popen`** hands out a stream, or it leaves `fd_array` alone. -/
theorem myPopen_cases (type : PopenType) (pid : ℤ) (fails : Fails) (p : Proc) :
    (∃ fd, (myPopen type pid fails p).1 = some fd ∧
      Opened type pid p fd (myPopen type pid fails p).2) ∨
    (myPopen type pid fails p).1 = none ∧ (myPopen type pid fails p).2.fdArray = p.fdArray := by
  have hfree0 := Table.get_free p.table
  obtain ⟨hfree1, hne⟩ := pipe_free p.table (.readEnd [] p.pipes)
  unfold myPopen
  split
  · exact Or.inr ⟨rfl, rfl⟩
  · dsimp only
    split
    · exact Or.inr ⟨rfl, rfl⟩
    · cases type with
      | r =>
          dsimp only
          rcases parentSide_cases _ _ _ _ _ with ⟨hlt, heq⟩ | hnone
          · refine Or.inl ⟨_, by rw [heq], ?_⟩
            rw [heq]
            refine ⟨hfree0, fun fd' => ?_, ⟨hlt, rfl⟩, rfl⟩
            simp only [Table.get_remove, Table.get_put]
            by_cases hdrop : fd' = (p.table.put p.table.free (.readEnd [] p.pipes)).free
            · rw [if_pos hdrop, if_neg (hdrop ▸ hne), hdrop, hfree1]
            · rw [if_neg hdrop, if_neg hdrop]
              rfl
          · exact Or.inr hnone
      | w =>
          dsimp only
          rcases parentSide_cases _ _ _ _ _ with ⟨hlt, heq⟩ | hnone
          · refine Or.inl ⟨_, by rw [heq], ?_⟩
            rw [heq]
            refine ⟨hfree1, fun fd' => ?_, ⟨hlt, rfl⟩, rfl⟩
            simp only [Table.get_remove, Table.get_put]
            by_cases hdrop : fd' = p.table.free
            · rw [if_pos hdrop, if_neg (hdrop ▸ hne.symm), hdrop, hfree0]
            · rw [if_neg hdrop, if_neg hdrop]
              rfl
          · exact Or.inr hnone

theorem parentSide_children (keep drop : ℕ) (pid : ℤ) (fails : Fails) (p : Proc) :
    (parentSide keep drop pid fails p).2.children = p.children := by
  unfold parentSide
  split
  · rfl
  · split <;> rfl

/-- **The child of a call of `my_popen` in which nothing fails** has the descriptors of the process,
with its own end of the pipe in the place of its standard input or output. -/
theorem myPopen_children (type : PopenType) (pid : ℤ) (p : Proc) :
    ∃ table, (myPopen type pid .none p).2.children =
        ⟨pid, type, p.pipes, table, true, false⟩ :: p.children ∧
      ∀ fd, table.get fd =
        if fd = type.target then some (type.childEnd p.pipes) else p.table.get fd := by
  have hfree0 := Table.get_free p.table
  obtain ⟨hfree1, hne⟩ := pipe_free p.table (.readEnd [] p.pipes)
  have hother : ∀ fd, fd ≠ (p.table.put p.table.free (.readEnd [] p.pipes)).free →
    fd ≠ p.table.free →
      ((p.table.put p.table.free (.readEnd [] p.pipes)).put
        (p.table.put p.table.free (.readEnd [] p.pipes)).free (.writeEnd [] p.pipes)).get fd =
          p.table.get fd := by
    intro fd h1 h0
    rw [Table.get_put, if_neg h1, Table.get_put, if_neg h0]
  unfold myPopen
  rw [if_neg (show ¬ Fails.none.pipe = true from Bool.false_ne_true)]
  dsimp only
  rw [if_neg (show ¬ Fails.none.fork = true from Bool.false_ne_true)]
  cases type with
  | r =>
      obtain ⟨hexec, htable⟩ := childSide_none 1 hne hfree1 hfree0
        (by rw [Table.get_put, if_pos rfl]) hother
      refine ⟨_, ?_, htable⟩
      dsimp only
      rw [parentSide_children, hexec]
  | w =>
      obtain ⟨hexec, htable⟩ := childSide_none 0 hne.symm hfree0 hfree1
        (by rw [Table.get_put, if_neg hne.symm, Table.get_put, if_pos rfl])
        (fun fd h0 h1 => hother fd h1 h0)
      refine ⟨_, ?_, htable⟩
      dsimp only
      rw [parentSide_children, hexec]

/-! ### `my_pclose` -/

/-- Where `my_pclose` gets to: `fd_array` is read out of its bounds; the stream has no child, and it
returns `-1`; `close` fails, and the process exits; or it waits for a child. -/
inductive Pclosed
  | fault
  | notFound
  | exit
  | wait (pid : ℤ) (p : Proc)

/-- `my_pclose` of a stream with the descriptor `fd`, up to its `waitpid`. -/
def myPclose (fd : ℕ) (p : Proc) : Pclosed :=
  if h : fd < fdSize then
    if p.fdArray ⟨fd, h⟩ = -1 then .notFound
    else
      match p.table.get fd with
      | none => .exit
      | some _ => .wait (p.fdArray ⟨fd, h⟩) { p with table := p.table.remove fd }
  else .fault

theorem myPclose_of_not_lt {fd : ℕ} {p : Proc} (h : ¬ fd < fdSize) : myPclose fd p = .fault := by
  rw [myPclose, dif_neg h]

theorem myPclose_of_entry {fd : ℕ} {p : Proc} {h : fd < fdSize} (hentry : p.fdArray ⟨fd, h⟩ = -1) :
    myPclose fd p = .notFound := by
  rw [myPclose, dif_pos h, if_pos hentry]

/-! ### The process and its children -/

/-- What `my_popen` has made for a stream. -/
structure Origin where
  type : PopenType
  pid : ℤ
  pipe : ℕ
  deriving DecidableEq

/-- A `FILE`: its descriptor; where it comes from, if it is one of `my_popen`'s; whether it has been
passed to `my_pclose`, and to `fclose`. -/
structure Stream where
  fd : ℕ
  origin : Option Origin
  passed : Bool
  freed : Bool
  deriving DecidableEq

namespace Stream

/-- A stream of `my_popen` that has not been closed. -/
def IsPopen (st : Stream) : Prop := st.origin ≠ none ∧ st.passed = false ∧ st.freed = false

/-- A stream whose descriptor is open. -/
def IsOpen (st : Stream) : Prop := st.freed = false ∧ (st.origin ≠ none → st.passed = false)

instance (st : Stream) : Decidable st.IsPopen :=
  inferInstanceAs (Decidable (_ ∧ _ ∧ _))

instance (st : Stream) : Decidable st.IsOpen :=
  inferInstanceAs (Decidable (_ ∧ (_ → _)))

theorem IsPopen.isOpen {st : Stream} (h : st.IsPopen) : st.IsOpen := ⟨h.2.2, fun _ => h.2.1⟩

end Stream

/-- What the process is doing. -/
inductive Control
  | ready
  /-- `waitpid` in `my_pclose` -/
  | wait (pid : ℤ)
  | exited
  | fault
  deriving DecidableEq

structure State where
  proc : Proc
  streams : List Stream
  control : Control

/-- The process after `init_fd_array`, with the given descriptors open. -/
def init (isOpen : List Bool) : State where
  proc := ⟨isOpen.mapIdx fun fd b => if b then some (.inherited fd) else none, fun _ => -1, 0, []⟩
  streams := []
  control := .ready

inductive Act
  /-- `my_popen`, when `fork` returns `pid`. -/
  | popen (type : PopenType) (pid : ℤ) (fails : Fails)
  | fopen (path : String)
  | fclose (i : ℕ)
  /-- `my_pclose` up to its `waitpid`. -/
  | pclose (i : ℕ)
  /-- `waitpid` returns. -/
  | wait
  /-- The child exits, and its descriptors are closed. -/
  | exit (pid : ℤ)

/-- A stream that is still there can be used. -/
def State.stream (s : State) (i : ℕ) : Option Stream :=
  (s.streams[i]?).filter fun st => !st.freed

/-- One call of the process, or the exit of a child. -/
def step (s : State) : Act → Option State
  | .popen type pid fails =>
      if s.control = .ready ∧ 0 < pid ∧ ∀ ch ∈ s.proc.children, ch.pid ≠ pid then
        let r := myPopen type pid fails s.proc
        some { s with
          proc := r.2
          streams := s.streams ++
            (r.1.map fun fd => ⟨fd, some ⟨type, pid, s.proc.pipes⟩, false, false⟩).toList }
      else none
  | .fopen path =>
      if s.control = .ready then
        some { s with
          proc := { s.proc with table := s.proc.table.put s.proc.table.free (.file path .read) }
          streams := s.streams ++ [⟨s.proc.table.free, none, false, false⟩] }
      else none
  | .fclose i =>
      if s.control = .ready then
        (s.stream i).map fun st => { s with
          proc := { s.proc with table := s.proc.table.remove st.fd }
          streams := s.streams.set i { st with freed := true } }
      else none
  | .pclose i =>
      if s.control = .ready then
        (s.stream i).map fun st =>
          let s := { s with streams := s.streams.set i { st with passed := true } }
          match myPclose st.fd s.proc with
          | .fault => { s with control := .fault }
          | .notFound => s
          | .exit => { s with control := .exited }
          | .wait pid p => { s with proc := p, control := .wait pid }
      else none
  | .wait =>
      match s.control with
      | .wait pid =>
          match s.proc.children.find? (·.pid = pid) with
          -- there is no such child, and `waitpid` fails
          | none => some { s with control := .ready }
          | some ch =>
              if ch.exited then
                some { s with
                  proc := { s.proc with children := s.proc.children.filter (·.pid ≠ pid) }
                  control := .ready }
              else none
      | _ => none
  | .exit pid =>
      if ∃ ch ∈ s.proc.children, ch.pid = pid ∧ ch.exited = false then
        some { s with
          proc := { s.proc with
            children := s.proc.children.map fun ch =>
              if ch.pid = pid then { ch with table := [], exited := true } else ch } }
      else none

/-- No process holds the write end of the pipe. -/
def State.AtEof (s : State) (pipe : ℕ) : Prop :=
  some (.writeEnd [] pipe) ∉ s.proc.table ∧
    ∀ ch ∈ s.proc.children, some (.writeEnd [] pipe) ∉ ch.table

instance (s : State) (pipe : ℕ) : Decidable (s.AtEof pipe) :=
  inferInstanceAs (Decidable (_ ∧ _))

/-- A child that reads its standard input to the end may exit. -/
def State.MayExit (s : State) (pid : ℤ) : Prop :=
  ∀ ch ∈ s.proc.children, ch.pid = pid → ch.type = .w → s.AtEof ch.pipe

instance (s : State) (pid : ℤ) : Decidable (s.MayExit pid) :=
  inferInstanceAs (Decidable (∀ ch ∈ s.proc.children, _ → _ → _))

/-- One step, where a child that reads from its pipe exits at the end of file only. -/
def eofStep (s : State) : Act → Option State
  | .exit pid => if s.MayExit pid then step s (.exit pid) else none
  | a => step s a

/-! ### What a step can do -/

theorem State.stream_eq_some {s : State} {i : ℕ} {st : Stream} :
    s.stream i = some st ↔ s.streams[i]? = some st ∧ st.freed = false := by
  simp [State.stream, Option.filter_eq_some_iff]

/-- The state after `my_pclose` has closed the descriptor of the stream `st`. -/
def State.pclosed (s : State) (i : ℕ) (st : Stream) (pid : ℤ) : State :=
  { s with
    proc := { s.proc with table := s.proc.table.remove st.fd }
    streams := s.streams.set i { st with passed := true }
    control := .wait pid }

/-- Everything a step can do. -/
inductive Move (s : State) : Act → State → Prop
  | popenNull {type : PopenType} {pid : ℤ} {fails : Fails} (hctl : s.control = .ready)
      (hnull : (myPopen type pid fails s.proc).1 = none)
      (hfd : (myPopen type pid fails s.proc).2.fdArray = s.proc.fdArray) :
      Move s (.popen type pid fails) { s with proc := (myPopen type pid fails s.proc).2 }
  | popen {type : PopenType} {pid : ℤ} {fails : Fails} {fd : ℕ} (hctl : s.control = .ready)
      (hpid : 0 < pid) (hnew : ∀ ch ∈ s.proc.children, ch.pid ≠ pid)
      (hopen : Opened type pid s.proc fd (myPopen type pid fails s.proc).2) :
      Move s (.popen type pid fails) { s with
        proc := (myPopen type pid fails s.proc).2
        streams := s.streams ++ [⟨fd, some ⟨type, pid, s.proc.pipes⟩, false, false⟩] }
  | fopen {path : String} (hctl : s.control = .ready) :
      Move s (.fopen path) { s with
        proc := { s.proc with table := s.proc.table.put s.proc.table.free (.file path .read) }
        streams := s.streams ++ [⟨s.proc.table.free, none, false, false⟩] }
  | fclose {i : ℕ} {st : Stream} (hctl : s.control = .ready) (hst : s.stream i = some st) :
      Move s (.fclose i) { s with
        proc := { s.proc with table := s.proc.table.remove st.fd }
        streams := s.streams.set i { st with freed := true } }
  | pcloseFault {i : ℕ} {st : Stream} (hctl : s.control = .ready) (hst : s.stream i = some st)
      (hfd : ¬ st.fd < fdSize) :
      Move s (.pclose i) { s with
        streams := s.streams.set i { st with passed := true }
        control := .fault }
  | pcloseNotFound {i : ℕ} {st : Stream} (hctl : s.control = .ready) (hst : s.stream i = some st)
      (hfd : st.fd < fdSize) (hentry : s.proc.fdArray ⟨st.fd, hfd⟩ = -1) :
      Move s (.pclose i) { s with streams := s.streams.set i { st with passed := true } }
  | pcloseExit {i : ℕ} {st : Stream} (hctl : s.control = .ready) (hst : s.stream i = some st)
      (hfd : st.fd < fdSize) (hentry : s.proc.fdArray ⟨st.fd, hfd⟩ ≠ -1)
      (hclosed : s.proc.table.get st.fd = none) :
      Move s (.pclose i) { s with
        streams := s.streams.set i { st with passed := true }
        control := .exited }
  | pcloseWait {i : ℕ} {st : Stream} (hctl : s.control = .ready) (hst : s.stream i = some st)
      (hfd : st.fd < fdSize) (hentry : s.proc.fdArray ⟨st.fd, hfd⟩ ≠ -1) :
      Move s (.pclose i) (s.pclosed i st (s.proc.fdArray ⟨st.fd, hfd⟩))
  | waitFail {pid : ℤ} (hctl : s.control = .wait pid)
      (hnone : s.proc.children.find? (·.pid = pid) = none) :
      Move s .wait { s with control := .ready }
  | reap {pid : ℤ} (hctl : s.control = .wait pid) :
      Move s .wait { s with
        proc := { s.proc with children := s.proc.children.filter (·.pid ≠ pid) }
        control := .ready }
  | exit {pid : ℤ} :
      Move s (.exit pid) { s with
        proc := { s.proc with
          children := s.proc.children.map fun ch =>
            if ch.pid = pid then { ch with table := [], exited := true } else ch } }

/-- **Every step is one of the moves.** -/
theorem Move.of_step {s s' : State} {a : Act} (h : step s a = some s') : Move s a s' := by
  cases a with
  | popen type pid fails =>
      simp only [step] at h
      split at h
      · next hok =>
          obtain ⟨hctl, hpid, hnew⟩ := hok
          obtain rfl := Option.some.inj h
          rcases myPopen_cases type pid fails s.proc with ⟨fd, hsome, hopen⟩ | ⟨hnone, hfd⟩
          · rw [hsome]
            exact .popen hctl hpid hnew hopen
          · rw [hnone]
            simpa using Move.popenNull hctl hnone hfd
      · cases h
  | fopen path =>
      simp only [step] at h
      split at h
      · next hctl =>
          obtain rfl := Option.some.inj h
          exact .fopen hctl
      · cases h
  | fclose i =>
      simp only [step] at h
      split at h
      · next hctl =>
          obtain ⟨st, hst, rfl⟩ := Option.map_eq_some_iff.1 h
          exact .fclose hctl hst
      · cases h
  | pclose i =>
      simp only [step] at h
      split at h
      · next hctl =>
          obtain ⟨st, hst, rfl⟩ := Option.map_eq_some_iff.1 h
          by_cases hfd : st.fd < fdSize
          · by_cases hentry : s.proc.fdArray ⟨st.fd, hfd⟩ = -1
            · simp only [myPclose_of_entry hentry]
              exact .pcloseNotFound hctl hst hfd hentry
            · cases hget : s.proc.table.get st.fd with
              | none =>
                  have hpclose : myPclose st.fd s.proc = .exit := by
                    rw [myPclose, dif_pos hfd, if_neg hentry, hget]
                  simp only [hpclose]
                  exact .pcloseExit hctl hst hfd hentry hget
              | some o =>
                  have hpclose : myPclose st.fd s.proc = .wait (s.proc.fdArray ⟨st.fd, hfd⟩)
                      { s.proc with table := s.proc.table.remove st.fd } := by
                    rw [myPclose, dif_pos hfd, if_neg hentry, hget]
                  simp only [hpclose]
                  exact .pcloseWait hctl hst hfd hentry
          · simp only [myPclose_of_not_lt hfd]
            exact .pcloseFault hctl hst hfd
      · cases h
  | wait =>
      simp only [step] at h
      split at h
      · next hctl =>
          split at h
          · next hnone =>
              obtain rfl := Option.some.inj h
              exact .waitFail hctl hnone
          · split at h
            · obtain rfl := Option.some.inj h
              exact .reap hctl
            · cases h
      · cases h
  | exit pid =>
      simp only [step] at h
      split at h
      · obtain rfl := Option.some.inj h
        exact .exit
      · cases h

end Popen
