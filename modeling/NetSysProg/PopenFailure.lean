/-
**What a failing `my_popen` leaves behind (`HW6/44_2.c`).**

`my_popen` returns `NULL` as soon as one of its calls fails, and undoes nothing of what it has done
until then: the ends of the pipe stay open, the child keeps running, and nothing in `fd_array` leads
to it.  The forked child returns from the function, too, instead of ending.

Main definitions:

* `Popen.AsBefore` — the same open descriptors, the same `fd_array`, the same children;
* `Popen.FailsCleanly` — a call that returns `NULL` has changed nothing, and its child has not
  returned.

Main results:

* `Popen.myPopen_forked` — a call with a child, for both types at once;
* `Popen.failsCleanly_iff` — **the exact condition**: `pipe` fails, or nothing does.
-/

import NetSysProg.PopenModel

set_option relaxedAutoImplicit false
set_option autoImplicit false

namespace Popen

open Processes (Table FileObj)

/-! ### The two ends of the pipe -/

/-- The descriptor of the read end. -/
def Proc.pfd0 (p : Proc) : ℕ := p.table.free

/-- The descriptor of the write end. -/
def Proc.pfd1 (p : Proc) : ℕ := (p.table.put p.pfd0 (.readEnd [] p.pipes)).free

/-- The descriptors after `pipe`. -/
def Proc.piped (p : Proc) : Table :=
  (p.table.put p.pfd0 (.readEnd [] p.pipes)).put p.pfd1 (.writeEnd [] p.pipes)

/-- The end of the pipe that the stream gets. -/
def PopenType.streamFd (p : Proc) : PopenType → ℕ
  | .r => p.pfd0
  | .w => p.pfd1

/-- The end of the pipe that the child keeps. -/
def PopenType.ownFd (p : Proc) : PopenType → ℕ
  | .r => p.pfd1
  | .w => p.pfd0

/-- The child's side of a call. -/
def childOf (type : PopenType) (fails : Fails) (p : Proc) : Bool × Table :=
  childSide (type.ownFd p) (type.streamFd p) type.target (type.childEnd p.pipes) fails p.piped

/-- The process after `fork`. -/
def Proc.forked (p : Proc) (type : PopenType) (pid : ℤ) (fails : Fails) : Proc :=
  { p with
    table := p.piped
    pipes := p.pipes + 1
    children := ⟨pid, type, p.pipes, (childOf type fails p).2, (childOf type fails p).1, false⟩ ::
      p.children }

section Cases

variable {type : PopenType} {pid : ℤ} {fails : Fails} {p : Proc}

theorem myPopen_of_pipe (h : fails.pipe = true) : myPopen type pid fails p = (none, p) := by
  rw [myPopen, if_pos h]

theorem myPopen_of_fork (h : fails.pipe = false) (hfork : fails.fork = true) :
    myPopen type pid fails p = (none, { p with table := p.piped, pipes := p.pipes + 1 }) := by
  rw [myPopen, if_neg (by simp [h])]
  exact if_pos hfork

/-- **A call with a child**, of either type. -/
theorem myPopen_forked (h : fails.pipe = false) (hfork : fails.fork = false) :
    myPopen type pid fails p =
      parentSide (type.streamFd p) (type.ownFd p) pid fails (p.forked type pid fails) := by
  rw [myPopen, if_neg (by simp [h])]
  dsimp only
  rw [if_neg (by simp [hfork])]
  cases type <;> rfl

/-- The child gets past its `execl` exactly if none of the calls that it makes fails. -/
theorem childSide_fst_iff (own other target : ℕ) (obj : FileObj) (fails : Fails) (t : Table) :
    (childSide own other target obj fails t).1 = true ↔
      fails.childCloseOther = false ∧
      (own ≠ target → fails.childDup2 = false ∧ fails.childCloseOwn = false) ∧
      fails.childExecl = false := by
  unfold childSide
  by_cases hother : fails.childCloseOther = true
  · simp [hother]
  · by_cases htarget : own = target
    · simp [hother, htarget]
    · by_cases hdup2 : fails.childDup2 = true
      · simp [hother, htarget, hdup2]
      · by_cases hown : fails.childCloseOwn = true
        · simp [hother, htarget, hdup2, hown]
        · simp [hother, htarget, hdup2, hown]

theorem parentSide_fst_iff (keep drop : ℕ) (pid : ℤ) (fails : Fails) (p : Proc) :
    (parentSide keep drop pid fails p).1 ≠ none ↔ fails.close = false ∧ keep < fdSize := by
  unfold parentSide
  by_cases hclose : fails.close = true
  · simp [hclose]
  · by_cases hkeep : keep < fdSize
    · simp [hclose, hkeep]
    · simp [hclose, hkeep]

/-- The read end of the pipe is a descriptor more than there was. -/
theorem Proc.piped_ne (p : Proc) : p.piped.get p.pfd0 ≠ p.table.get p.pfd0 := by
  have hfree : p.table.get p.pfd0 = none := Table.get_free p.table
  have hne : p.pfd0 ≠ p.pfd1 := (pipe_free p.table (.readEnd [] p.pipes)).2.symm
  rw [hfree, Proc.piped, Table.get_put, if_neg hne, Table.get_put, if_pos rfl]
  exact Option.some_ne_none _

end Cases

/-! ### Clean failures -/

/-- The process has the same descriptors open, the same `fd_array` and the same children. -/
structure AsBefore (p p' : Proc) : Prop where
  table : ∀ fd, p'.table.get fd = p.table.get fd
  fdArray : p'.fdArray = p.fdArray
  children : p'.children = p.children

/-- A call that returns `NULL` has left everything as it was, and a child of the call has not
returned from it. -/
structure FailsCleanly (type : PopenType) (pid : ℤ) (fails : Fails) (p : Proc) : Prop where
  parent : (myPopen type pid fails p).1 = none → AsBefore p (myPopen type pid fails p).2
  child : ∀ ch, (myPopen type pid fails p).2.children = ch :: p.children → ch.execed = true

/-- With a child, a call fails cleanly exactly if it does not fail and the child does not return. -/
theorem failsCleanly_forked_iff {type : PopenType} {pid : ℤ} {fails : Fails} {p : Proc}
    (hpipe : fails.pipe = false) (hfork : fails.fork = false) :
    FailsCleanly type pid fails p ↔
      (myPopen type pid fails p).1 ≠ none ∧ (childOf type fails p).1 = true := by
  have hchildren : (myPopen type pid fails p).2.children = (p.forked type pid fails).children := by
    rw [myPopen_forked hpipe hfork, parentSide_children]
  constructor
  · intro h
    refine ⟨fun hnull => ?_, h.child _ hchildren⟩
    -- the child is there, whether or not the call returns a stream
    have hsame := (h.parent hnull).children
    rw [hchildren] at hsame
    exact List.cons_ne_self _ _ hsame
  · rintro ⟨hsome, hret⟩
    refine ⟨fun hnull => absurd hnull hsome, fun ch hch => ?_⟩
    rw [hchildren] at hch
    rw [← (List.cons.inj hch).1]
    exact hret

/-- **When a call fails cleanly**: if `pipe` fails, or if neither `fork` nor the parent's `close`
fails, the stream's descriptor has an entry in `fd_array`, and the child's calls succeed. -/
theorem failsCleanly_iff (type : PopenType) (pid : ℤ) (fails : Fails) (p : Proc) :
    FailsCleanly type pid fails p ↔
      fails.pipe = true ∨
      (fails.fork = false ∧ fails.close = false ∧ type.streamFd p < fdSize ∧
        fails.childCloseOther = false ∧
        (type.ownFd p ≠ type.target → fails.childDup2 = false ∧ fails.childCloseOwn = false) ∧
        fails.childExecl = false) := by
  cases hpipe : fails.pipe with
  | true =>
      refine iff_of_true ⟨fun _ => ?_, fun ch hch => ?_⟩ (Or.inl rfl)
      · rw [myPopen_of_pipe hpipe]
        exact ⟨fun _ => rfl, rfl, rfl⟩
      · rw [myPopen_of_pipe hpipe] at hch
        exact absurd hch.symm (List.cons_ne_self ch p.children)
  | false =>
      cases hfork : fails.fork with
      | true =>
          -- both ends of the pipe stay open
          refine iff_of_false (fun h => ?_) (by simp)
          have hsame := h.parent (by rw [myPopen_of_fork hpipe hfork])
          rw [myPopen_of_fork hpipe hfork] at hsame
          exact p.piped_ne (hsame.table p.pfd0)
      | false =>
          have hcall : myPopen type pid fails p = _ := myPopen_forked hpipe hfork
          have hstream := parentSide_fst_iff (type.streamFd p) (type.ownFd p) pid fails
            (p.forked type pid fails)
          have hexec : (childOf type fails p).1 = true ↔ _ := childSide_fst_iff _ _ _ _ _ _
          rw [← hcall] at hstream
          rw [failsCleanly_forked_iff hpipe hfork, hstream, hexec]
          simp only [Bool.false_eq_true, false_or, true_and, and_assoc]

/-- A process with the standard descriptors open and no children. -/
def freshProc : Proc :=
  ⟨[some (.inherited 0), some (.inherited 1), some (.inherited 2)], fun _ => -1, 0, []⟩

/-- **Two failures that are not clean**: after a failed `fork` the pipe stays open, and after a
failed `execl` the child returns. -/
theorem not_failsCleanly_freshProc :
    ¬ FailsCleanly .r 100 { Fails.none with fork := true } freshProc ∧
    ¬ FailsCleanly .r 100 { Fails.none with childExecl := true } freshProc := by
  constructor
  · intro h
    have hsame := (h.parent (by decide)).table 3
    revert hsame
    decide
  · intro h
    have hret := h.child ⟨100, .r, 0, [some (.inherited 0), some (.writeEnd [] 0),
      some (.inherited 2), none, none], false, false⟩ (by decide)
    exact Bool.false_ne_true hret

end Popen
