/-
**A parent that waits for the work of its children (`HW8/44_6/pipe_sync.c`).**

The parent makes a pipe and a child for each of its arguments, closes its own write end and reads.
Nobody ever writes to the pipe: a child closes its write end when it has slept, or ends when its
argument is no number of seconds, and the `read` of the parent returns when no write end is open any
more.

Every call is a step, and the steps of the parent and of all children are interleaved in any order;
how long a child sleeps is up to the scheduler.  A `fork` may fail; `pipe` does not.

Main definitions:

* `PipeSync.step` — one step of the parent or of a child;
* `PipeSync.Inv` — the invariant;
* `PipeSync.Barrier` — a log in which every child has reported before the parent is ready.

Main results:

* `PipeSync.Inv.of_move` — **the invariant is kept by every step**;
* `PipeSync.barrier` — **the parent is ready only after all the children**, each child reports once,
  and every run comes to an end.
-/

import NetSysProg.GetNum
import NetSysProg.Completion
import Mathlib.Data.List.Nodup
import Mathlib.Data.List.Perm.Basic

set_option relaxedAutoImplicit false
set_option autoImplicit false

namespace PipeSync

open CString GetNum

/-! ### The processes -/

/-- The lines on the standard output, without the time of day. -/
inductive Line
  /-- `"Parent started"` -/
  | started
  /-- `"Child %d (PID=%ld) closing pipe"` -/
  | closing (j : ℕ)
  /-- `"Parent ready to go"` -/
  | ready
  deriving DecidableEq

/-- The call at which the parent is. -/
inductive ParentPc
  /-- The arguments are checked, and the first line is printed. -/
  | start
  /-- `fork`, in the loop over the arguments -/
  | fork
  /-- `close(pfd[1])` -/
  | closeWrite
  /-- `read(pfd[0], &dummy, 1)` -/
  | read
  /-- `printf` of the last line -/
  | ready
  | exited
  /-- `usageErr("%s sleep-time...\n", argv[0])` -/
  | usage
  /-- `errExit("fork %d", j)` -/
  | failed
  deriving DecidableEq

/-- The call at which a child is. -/
inductive ChildPc
  /-- `close(pfd[0])` -/
  | closeRead
  /-- `sleep(getInt(argv[j], GN_NONNEG, "sleep-time"))` -/
  | work
  /-- `printf` of its line -/
  | report
  /-- `close(pfd[1])` -/
  | closeWrite
  | exited
  /-- It has been ended by `getInt`. -/
  | failed
  deriving DecidableEq

structure State where
  parent : ParentPc
  /-- The children, in the order in which they have been made. -/
  children : List ChildPc
  log : List Line
  deriving DecidableEq

def init : State := ⟨.start, [], []⟩

/-- The child has the write end of the pipe open. -/
def ChildPc.holds : ChildPc → Bool
  | .exited | .failed => false
  | _ => true

/-- One step; a `fork` of the parent succeeds or fails. -/
inductive Act
  | parent (ok : Bool)
  | child (i : ℕ)
  deriving DecidableEq

section Steps

variable (einval : Bool) (args : List (List Byte))

/-- The argument of the child with the number `i` is a number of seconds. -/
def Sleeps (i : ℕ) : Bool :=
  match getInt einval args[i]? nonneg (some "sleep-time") with
  | .ok _ => true
  | .error _ => false

/-- The program is called as its usage says. -/
def Usable : Prop := args ≠ [] ∧ args.head? ≠ some (lit "--help")

instance : Decidable (Usable args) := inferInstanceAs (Decidable (_ ∧ _))

def parentStep (s : State) (ok : Bool) : Option State :=
  match s.parent with
  | .start =>
      if Usable args then some { s with log := s.log ++ [.started], parent := .fork }
      else some { s with parent := .usage }
  | .fork =>
      if s.children.length < args.length then
        if ok then some { s with children := s.children ++ [.closeRead] }
        else some { s with parent := .failed }
      else some { s with parent := .closeWrite }
  | .closeWrite => some { s with parent := .read }
  | .read => if s.children.any ChildPc.holds then none else some { s with parent := .ready }
  | .ready => some { s with log := s.log ++ [.ready], parent := .exited }
  | .exited => none
  | .usage => none
  | .failed => none

def childStep (s : State) (i : ℕ) : Option State :=
  match s.children[i]? with
  | some .closeRead => some { s with children := s.children.set i .work }
  | some .work =>
      if Sleeps einval args i then some { s with children := s.children.set i .report }
      else some { s with children := s.children.set i .failed }
  | some .report =>
      some { s with log := s.log ++ [.closing (i + 1)], children := s.children.set i .closeWrite }
  | some .closeWrite => some { s with children := s.children.set i .exited }
  | some .exited => none
  | some .failed => none
  | none => none

def step (s : State) : Act → Option State
  | .parent ok => parentStep args s ok
  | .child i => childStep einval args s i

end Steps

variable {einval : Bool} {args : List (List Byte)}

/-! ### What a step can do -/

/-- Everything a child does in one step: where it goes, and whether it prints its line. -/
inductive Child.Move (einval : Bool) (args : List (List Byte)) (i : ℕ) :
    ChildPc → ChildPc → List Line → Prop
  | closeRead : Child.Move einval args i .closeRead .work []
  | wake (hsleeps : Sleeps einval args i = true) : Child.Move einval args i .work .report []
  | fail (hsleeps : Sleeps einval args i = false) : Child.Move einval args i .work .failed []
  | report : Child.Move einval args i .report .closeWrite [.closing (i + 1)]
  | closeWrite : Child.Move einval args i .closeWrite .exited []

/-- Everything a step can do. -/
inductive Move (einval : Bool) (args : List (List Byte)) (s : State) : Act → State → Prop
  | start {ok : Bool} (hpc : s.parent = .start) (husable : Usable args) :
      Move einval args s (.parent ok) { s with log := s.log ++ [.started], parent := .fork }
  | usage {ok : Bool} (hpc : s.parent = .start) (husable : ¬ Usable args) :
      Move einval args s (.parent ok) { s with parent := .usage }
  | fork (hpc : s.parent = .fork) (hlt : s.children.length < args.length) :
      Move einval args s (.parent true) { s with children := s.children ++ [.closeRead] }
  | forkFails (hpc : s.parent = .fork) (hlt : s.children.length < args.length) :
      Move einval args s (.parent false) { s with parent := .failed }
  | forked {ok : Bool} (hpc : s.parent = .fork) (hge : args.length ≤ s.children.length) :
      Move einval args s (.parent ok) { s with parent := .closeWrite }
  | closeWrite {ok : Bool} (hpc : s.parent = .closeWrite) :
      Move einval args s (.parent ok) { s with parent := .read }
  | eof {ok : Bool} (hpc : s.parent = .read) (hholds : ∀ pc ∈ s.children, pc.holds = false) :
      Move einval args s (.parent ok) { s with parent := .ready }
  | ready {ok : Bool} (hpc : s.parent = .ready) :
      Move einval args s (.parent ok) { s with log := s.log ++ [.ready], parent := .exited }
  | child {i : ℕ} {pc pc' : ChildPc} {lines : List Line} (hi : s.children[i]? = some pc)
      (hmove : Child.Move einval args i pc pc' lines) :
      Move einval args s (.child i)
        { s with log := s.log ++ lines, children := s.children.set i pc' }

theorem Move.of_parentStep {s s' : State} {ok : Bool} (h : parentStep args s ok = some s') :
    Move einval args s (.parent ok) s' := by
  unfold parentStep at h
  split at h
  · next hpc =>
      split at h
      · next husable =>
          obtain rfl := Option.some.inj h
          exact .start hpc husable
      · next husable =>
          obtain rfl := Option.some.inj h
          exact .usage hpc husable
  · next hpc =>
      split at h
      · next hlt =>
          cases ok with
          | true =>
              obtain rfl := Option.some.inj h
              exact .fork hpc hlt
          | false =>
              obtain rfl := Option.some.inj h
              exact .forkFails hpc hlt
      · next hlt =>
          obtain rfl := Option.some.inj h
          exact .forked hpc (Nat.not_lt.1 hlt)
  · next hpc =>
      obtain rfl := Option.some.inj h
      exact .closeWrite hpc
  · next hpc =>
      split at h
      · cases h
      · next hany =>
          obtain rfl := Option.some.inj h
          exact .eof hpc (by simpa using hany)
  · next hpc =>
      obtain rfl := Option.some.inj h
      exact .ready hpc
  · cases h
  · cases h
  · cases h

theorem Move.of_childStep {s s' : State} {i : ℕ} (h : childStep einval args s i = some s') :
    Move einval args s (.child i) s' := by
  unfold childStep at h
  split at h
  · next hi =>
      obtain rfl := Option.some.inj h
      simpa using Move.child hi Child.Move.closeRead
  · next hi =>
      split at h
      · next hsleeps =>
          obtain rfl := Option.some.inj h
          simpa using Move.child hi (Child.Move.wake hsleeps)
      · next hsleeps =>
          obtain rfl := Option.some.inj h
          simpa using Move.child hi (Child.Move.fail (by simpa using hsleeps))
  · next hi =>
      obtain rfl := Option.some.inj h
      exact .child hi .report
  · next hi =>
      obtain rfl := Option.some.inj h
      simpa using Move.child hi (Child.Move.closeWrite : Child.Move einval args i _ _ _)
  · cases h
  · cases h
  · cases h

/-- **Every step is one of the moves.** -/
theorem Move.of_step {s s' : State} {a : Act} (h : step einval args s a = some s') :
    Move einval args s a s' := by
  cases a with
  | parent ok => exact Move.of_parentStep h
  | child i => exact Move.of_childStep h

/-! ### The invariant -/

/-- The child has printed its line. -/
def ChildPc.reported : ChildPc → Bool
  | .closeWrite | .exited => true
  | _ => false

/-- The child has got its number of seconds. -/
def ChildPc.slept : ChildPc → Bool
  | .report | .closeWrite | .exited => true
  | _ => false

/-- What the parent has printed before the first child can print. -/
def ParentPc.opening : ParentPc → List Line
  | .start | .usage => []
  | _ => [.started]

/-- What the parent has printed behind the lines of the children. -/
def ParentPc.ending : ParentPc → List Line
  | .exited => [.ready]
  | _ => []

/-- The parent has made all its children. -/
def ParentPc.forked : ParentPc → Bool
  | .closeWrite | .read | .ready | .exited => true
  | _ => false

/-- The parent has seen the end of the pipe. -/
def ParentPc.synced : ParentPc → Bool
  | .ready | .exited => true
  | _ => false

/-- The parent has not begun to make children. -/
def ParentPc.idle : ParentPc → Bool
  | .start | .usage => true
  | _ => false

/-- The children `js` have reported, each of them once. -/
def Reported (js : List ℕ) (children : List ChildPc) : Prop :=
  js.Nodup ∧ ∀ j, j ∈ js ↔ ∃ pc, children[j]? = some pc ∧ pc.reported = true

/-- **The invariant.** -/
structure Inv (einval : Bool) (args : List (List Byte)) (s : State) : Prop where
  count : s.children.length ≤ args.length
  none_yet : s.parent.idle = true → s.children = []
  all_made : s.parent.forked = true → s.children.length = args.length
  none_holds : s.parent.synced = true → ∀ pc ∈ s.children, pc.holds = false
  slept : ∀ i pc, s.children[i]? = some pc → pc.slept = true → Sleeps einval args i = true
  failed : ∀ i pc, s.children[i]? = some pc → pc = .failed → Sleeps einval args i = false
  log : ∃ js, Reported js s.children ∧
    s.log = s.parent.opening ++ js.map (fun j => Line.closing (j + 1)) ++ s.parent.ending

theorem Inv.init : Inv einval args init where
  count := Nat.zero_le _
  none_yet := fun _ => rfl
  all_made := fun h => by cases h
  none_holds := fun h => by cases h
  slept := fun i pc h => by cases h
  failed := fun i pc h => by cases h
  log := ⟨[], ⟨List.nodup_nil, by simp [PipeSync.init]⟩, rfl⟩

/-- Nobody has reported before there are children. -/
theorem Reported.eq_nil {js : List ℕ} (h : Reported js []) : js = [] := by
  rw [List.eq_nil_iff_forall_not_mem]
  intro j hj
  obtain ⟨pc, hpc, -⟩ := (h.2 j).1 hj
  cases hpc

/-- A new child has not reported. -/
theorem Reported.append {js : List ℕ} {children : List ChildPc}
    (h : Reported js children) {pc : ChildPc}
    (hpc : pc.reported = false) : Reported js (children ++ [pc]) := by
  refine ⟨h.1, fun j => (h.2 j).trans ?_⟩
  constructor
  · rintro ⟨pc', hj, hrep⟩
    exact ⟨pc', by rw [List.getElem?_append_left (List.getElem?_eq_some_iff.1 hj).1, hj], hrep⟩
  · rintro ⟨pc', hj, hrep⟩
    rw [List.getElem?_append] at hj
    split at hj
    · exact ⟨pc', hj, hrep⟩
    · rw [List.getElem?_singleton] at hj
      split at hj
      · obtain rfl := Option.some.inj hj
        rw [hpc] at hrep
        cases hrep
      · cases hj

/-- A child goes on without reporting. -/
theorem Reported.set {js : List ℕ} {children : List ChildPc} (h : Reported js children) {i : ℕ}
    {pc pc' : ChildPc} (hi : children[i]? = some pc) (hsame : pc'.reported = pc.reported) :
    Reported js (children.set i pc') := by
  refine ⟨h.1, fun j => (h.2 j).trans ?_⟩
  have hlt : i < children.length := (List.getElem?_eq_some_iff.1 hi).1
  by_cases hij : i = j
  · subst hij
    rw [hi, List.getElem?_set_self hlt]
    simp [hsame]
  · rw [List.getElem?_set_ne hij]

/-- A child reports. -/
theorem Reported.concat {js : List ℕ} {children : List ChildPc} (h : Reported js children) {i : ℕ}
    {pc pc' : ChildPc} (hi : children[i]? = some pc) (hbefore : pc.reported = false)
    (hafter : pc'.reported = true) : Reported (js ++ [i]) (children.set i pc') := by
  have hlt : i < children.length := (List.getElem?_eq_some_iff.1 hi).1
  have hnew : i ∉ js := by
    intro hmem
    obtain ⟨pc'', hpc'', hrep⟩ := (h.2 i).1 hmem
    rw [hi] at hpc''
    obtain rfl := Option.some.inj hpc''
    rw [hbefore] at hrep
    cases hrep
  refine ⟨?_, fun j => ?_⟩
  · rw [List.nodup_append]
    exact ⟨h.1, List.nodup_singleton i, fun a ha b hb => by
      rintro rfl
      exact hnew (List.mem_singleton.1 hb ▸ ha)⟩
  · rw [List.mem_append, List.mem_singleton]
    by_cases hij : i = j
    · subst hij
      rw [List.getElem?_set_self hlt]
      simp [hafter]
    · rw [List.getElem?_set_ne hij, h.2 j]
      exact or_iff_left (Ne.symm hij)

/-- What holds of every child after one of them has taken a step. -/
theorem forall_set {P : ℕ → ChildPc → Prop} {children : List ChildPc} {i : ℕ} {pc' : ChildPc}
    (h : ∀ j pc, children[j]? = some pc → P j pc) (hnew : P i pc') :
    ∀ j pc, (children.set i pc')[j]? = some pc → P j pc := by
  intro j pc hj
  by_cases hij : i = j
  · subst hij
    rw [List.getElem?_set, if_pos rfl] at hj
    split_ifs at hj
    obtain rfl := Option.some.inj hj
    exact hnew
  · rw [List.getElem?_set_ne hij] at hj
    exact h j pc hj

/-- What holds of every child after one more has been made. -/
theorem forall_append {P : ℕ → ChildPc → Prop} {children : List ChildPc} {pc' : ChildPc}
    (h : ∀ j pc, children[j]? = some pc → P j pc) (hnew : P children.length pc') :
    ∀ j pc, (children ++ [pc'])[j]? = some pc → P j pc := by
  intro j pc hj
  rw [List.getElem?_append] at hj
  split_ifs at hj with hlt
  · exact h j pc hj
  · rw [List.getElem?_singleton] at hj
    split_ifs at hj with hzero
    obtain rfl := Option.some.inj hj
    obtain rfl : j = children.length := by omega
    exact hnew

/-- A child that moves has the write end open, so that the parent is not past its `read`. -/
theorem Child.Move.holds {i : ℕ} {pc pc' : ChildPc} {lines : List Line}
    (h : Child.Move einval args i pc pc' lines) : pc.holds = true := by
  cases h <;> rfl

/-- **A step of a child keeps the invariant.** -/
theorem Inv.of_child {s : State} {i : ℕ} {pc pc' : ChildPc} {lines : List Line}
    (h : Inv einval args s)
    (hi : s.children[i]? = some pc) (hmove : Child.Move einval args i pc pc' lines) :
    Inv einval args { s with log := s.log ++ lines, children := s.children.set i pc' } := by
  have hmem : pc ∈ s.children := List.mem_of_getElem? hi
  have hsync : s.parent.synced ≠ true := by
    intro hsync
    have hnone := h.none_holds hsync pc hmem
    rw [hmove.holds] at hnone
    cases hnone
  have hidle : s.parent.idle ≠ true := by
    intro hidle
    rw [h.none_yet hidle] at hmem
    cases hmem
  have hending : s.parent.ending = [] := by
    cases hpc : s.parent with
    | exited => exact absurd (by rw [hpc]; rfl) hsync
    | _ => rfl
  refine ⟨?_, fun hyet => absurd hyet hidle, ?_, fun hs => absurd hs hsync, ?_, ?_, ?_⟩
  · rw [List.length_set]
    exact h.count
  · rw [List.length_set]
    exact h.all_made
  · refine forall_set h.slept fun hslept => ?_
    cases hmove with
    | closeRead => cases hslept
    | wake hsleeps => exact hsleeps
    | fail => cases hslept
    | report => exact h.slept i _ hi rfl
    | closeWrite => exact h.slept i _ hi rfl
  · refine forall_set h.failed fun hfailed => ?_
    cases hmove with
    | fail hsleeps => exact hsleeps
    | _ => cases hfailed
  · obtain ⟨js, hjs, hlog⟩ := h.log
    simp only [hending, List.append_nil] at hlog ⊢
    cases hmove with
    | report =>
        refine ⟨js ++ [i], hjs.concat hi rfl rfl, ?_⟩
        rw [hlog, List.map_append, List.map_singleton, List.append_assoc]
    | closeRead => exact ⟨js, hjs.set hi rfl, by rw [hlog, List.append_nil]⟩
    | wake => exact ⟨js, hjs.set hi rfl, by rw [hlog, List.append_nil]⟩
    | fail => exact ⟨js, hjs.set hi rfl, by rw [hlog, List.append_nil]⟩
    | closeWrite => exact ⟨js, hjs.set hi rfl, by rw [hlog, List.append_nil]⟩

/-- A step of the parent that prints nothing and makes no child. -/
theorem Inv.of_parent {s : State} {parent : ParentPc} (h : Inv einval args s)
    (hidle : parent.idle = true → s.parent.idle = true)
    (hforked : parent.forked = true → s.children.length = args.length)
    (hsynced : parent.synced = true → ∀ pc ∈ s.children, pc.holds = false)
    (hopening : parent.opening = s.parent.opening) (hending : parent.ending = s.parent.ending) :
    Inv einval args { s with parent } where
  count := h.count
  none_yet := fun hi => h.none_yet (hidle hi)
  all_made := hforked
  none_holds := hsynced
  slept := h.slept
  failed := h.failed
  log := by
    obtain ⟨js, hjs, hlog⟩ := h.log
    exact ⟨js, hjs, by simp only [hlog, hopening, hending]⟩

/-- **The invariant is kept by every step.** -/
theorem Inv.of_move {s s' : State} {a : Act} (h : Inv einval args s)
    (hs : Move einval args s a s') :
    Inv einval args s' := by
  cases hs with
  | start hpc husable =>
      have hnil : s.children = [] := h.none_yet (by rw [hpc]; rfl)
      obtain ⟨js, hjs, hlog⟩ := h.log
      refine ⟨h.count, fun hi => (by cases hi), fun hf => (by cases hf),
        fun hf => (by cases hf), h.slept, h.failed, js, hjs, ?_⟩
      obtain rfl : js = [] := Reported.eq_nil (hnil ▸ hjs)
      simp only [hlog, hpc, ParentPc.opening, ParentPc.ending, List.map_nil, List.append_nil,
        List.nil_append]
  | usage hpc husable =>
      exact h.of_parent (fun _ => by rw [hpc]; rfl) (fun hf => by cases hf) (fun hf => by cases hf)
        (by rw [hpc]; rfl) (by rw [hpc]; rfl)
  | fork hpc hlt =>
      obtain ⟨js, hjs, hlog⟩ := h.log
      refine ⟨?_, fun hi => ?_, fun hf => ?_, fun hf => ?_,
        forall_append h.slept fun hs => (by cases hs), forall_append h.failed fun hs =>
        (by cases hs), js, hjs.append rfl, hlog⟩
      · rw [List.length_append, List.length_singleton]
        exact hlt
      · rw [hpc] at hi
        cases hi
      · rw [hpc] at hf
        cases hf
      · rw [hpc] at hf
        cases hf
  | forkFails hpc hlt =>
      exact h.of_parent (fun hi => by cases hi) (fun hf => by cases hf) (fun hf => by cases hf)
        (by rw [hpc]; rfl) (by rw [hpc]; rfl)
  | forked hpc hge =>
      exact h.of_parent (fun hi => by cases hi) (fun _ => Nat.le_antisymm h.count hge)
        (fun hf => by cases hf)
        (by rw [hpc]; rfl) (by rw [hpc]; rfl)
  | closeWrite hpc =>
      exact h.of_parent (fun hi => by cases hi) (fun _ => h.all_made (by rw [hpc]; rfl))
        (fun hf => by cases hf) (by rw [hpc]; rfl) (by rw [hpc]; rfl)
  | eof hpc hholds =>
      exact h.of_parent (fun hi => by cases hi) (fun _ => h.all_made (by rw [hpc]; rfl))
        (fun _ => hholds)
        (by rw [hpc]; rfl) (by rw [hpc]; rfl)
  | ready hpc =>
      obtain ⟨js, hjs, hlog⟩ := h.log
      refine ⟨h.count, fun hi => (by cases hi), fun _ => h.all_made (by rw [hpc]; rfl),
        fun _ => h.none_holds (by rw [hpc]; rfl), h.slept, h.failed, js, hjs, ?_⟩
      simp only [hlog, hpc, ParentPc.opening, ParentPc.ending, List.append_nil]
  | child hi hmove => exact h.of_child hi hmove

theorem Inv.of_step {s s' : State} {a : Act} (h : Inv einval args s)
    (hs : step einval args s a = some s') :
    Inv einval args s' := h.of_move (Move.of_step hs)

/-! ### The barrier -/

/-- Every child whose argument is a number of seconds has reported once, in any order, between the
first and the last line of the parent. -/
def Barrier (einval : Bool) (args : List (List Byte)) (log : List Line) : Prop :=
  ∃ js : List ℕ, js.Perm ((List.range args.length).filter (Sleeps einval args)) ∧
    log = .started :: js.map (fun j => Line.closing (j + 1)) ++ [.ready]

/-- A child that has closed the pipe has reported if it has slept, and it has not if it has not. -/
theorem reported_iff_sleeps {s : State} (h : Inv einval args s) {i : ℕ} {pc : ChildPc}
    (hi : s.children[i]? = some pc) (hholds : pc.holds = false) :
    pc.reported = true ↔ Sleeps einval args i = true := by
  cases pc with
  | exited => exact iff_of_true rfl (h.slept i _ hi rfl)
  | failed =>
      refine iff_of_false (by decide) ?_
      rw [h.failed i _ hi rfl]
      decide
  | _ => cases hholds

/-- **A parent that has exited has waited for all its children.** -/
theorem Inv.barrier_of_exited {s : State} (h : Inv einval args s) (hpc : s.parent = .exited) :
    Barrier einval args s.log := by
  obtain ⟨js, hjs, hlog⟩ := h.log
  have hlen : s.children.length = args.length := h.all_made (by rw [hpc]; rfl)
  have hnone : ∀ pc ∈ s.children, pc.holds = false := h.none_holds (by rw [hpc]; rfl)
  refine ⟨js, ?_, by rw [hlog, hpc]; rfl⟩
  refine (List.perm_ext_iff_of_nodup hjs.1 (List.nodup_range.filter _)).2 fun j => ?_
  rw [hjs.2 j, List.mem_filter, List.mem_range]
  constructor
  · rintro ⟨pc, hj, hrep⟩
    have hlt : j < s.children.length := (List.getElem?_eq_some_iff.1 hj).1
    exact ⟨by omega, (reported_iff_sleeps h hj (hnone pc (List.mem_of_getElem? hj))).1 hrep⟩
  · rintro ⟨hlt, hsleeps⟩
    have hmade : j < s.children.length := by omega
    have hj : s.children[j]? = some s.children[j] := List.getElem?_eq_getElem hmade
    exact ⟨_, hj, (reported_iff_sleeps h hj (hnone _ (List.mem_of_getElem? hj))).2 hsleeps⟩

/-- The last line of the parent is in the log of a parent that has exited only. -/
theorem Inv.exited_of_mem {s : State} (h : Inv einval args s) (hmem : Line.ready ∈ s.log) :
    s.parent = .exited := by
  obtain ⟨js, -, hlog⟩ := h.log
  by_contra hpc
  have hending : s.parent.ending = [] := by
    cases hp : s.parent with
    | exited => exact absurd hp hpc
    | _ => rfl
  have hopening : Line.ready ∉ s.parent.opening := by
    cases s.parent <;> decide
  rw [hlog, hending, List.append_nil, List.mem_append] at hmem
  rcases hmem with hmem | hmem
  · exact hopening hmem
  · obtain ⟨j, -, hj⟩ := List.mem_map.1 hmem
    cases hj

/-! ### Every run ends -/

/-- The calls that a child still makes. -/
def ChildPc.weight : ChildPc → ℕ
  | .closeRead => 4
  | .work => 3
  | .report => 2
  | .closeWrite => 1
  | .exited => 0
  | .failed => 0

/-- The calls that the parent still makes, and those of the children that it still makes. -/
def ParentPc.weight (missing : ℕ) : ParentPc → ℕ
  | .start => 5 * missing + 5
  | .fork => 5 * missing + 4
  | .closeWrite => 3
  | .read => 2
  | .ready => 1
  | _ => 0

def weight (args : List (List Byte)) (s : State) : ℕ :=
  s.parent.weight (args.length - s.children.length) + (s.children.map ChildPc.weight).sum

/-- **Every step lowers the weight.** -/
theorem weight_lt_of_move {s s' : State} {a : Act} (hs : Move einval args s a s') :
    weight args s' < weight args s := by
  cases hs with
  | fork hpc hlt =>
      simp only [weight, hpc, ParentPc.weight, List.length_append, List.length_singleton,
        List.map_append, List.map_singleton, List.sum_append, List.sum_singleton, ChildPc.weight]
      omega
  | @child i pc pc' lines hi hmove =>
      have hsum := Runs.sum_map_set ChildPc.weight hi pc'
      have hlower : pc'.weight < pc.weight := by
        cases hmove <;> decide
      simp only [weight, List.length_set]
      omega
  | _ => simp_all [weight, ParentPc.weight]

/-! ### No deadlock -/

/-- The parent and all its children have ended. -/
def AllEnded (s : State) : Prop :=
  (s.parent = .exited ∨ s.parent = .usage ∨ s.parent = .failed) ∧
    ∀ pc ∈ s.children, pc.holds = false

/-- No `fork` fails. -/
def ForkSucceeds (_ : State) (a : Act) : Prop := a ≠ .parent false

instance (s : State) (a : Act) : Decidable (ForkSucceeds s a) := inferInstanceAs (Decidable (¬ _))

/-- A child that has the write end open can take a step. -/
theorem exists_childStep (einval : Bool) (args : List (List Byte)) {s : State} {pc : ChildPc}
    (hmem : pc ∈ s.children) (hholds : pc.holds = true) :
    ∃ i s', childStep einval args s i = some s' := by
  obtain ⟨i, hi⟩ := List.mem_iff_getElem?.1 hmem
  refine ⟨i, ?_⟩
  unfold childStep
  rw [hi]
  cases pc with
  | work =>
      cases hsleeps : Sleeps einval args i with
      | true => exact ⟨_, rfl⟩
      | false => exact ⟨_, rfl⟩
  | exited => cases hholds
  | failed => cases hholds
  | _ => exact ⟨_, rfl⟩

/-- **There is no deadlock**: as long as one of the processes has not ended, one of them can take a
step, also when no `fork` fails. -/
theorem exists_step (einval : Bool) (args : List (List Byte)) {s : State} (hlive : ¬ AllEnded s) :
    ∃ a s', ForkSucceeds s a ∧ step einval args s a = some s' := by
  by_cases hchild : ∃ pc ∈ s.children, pc.holds = true
  · obtain ⟨pc, hmem, hholds⟩ := hchild
    obtain ⟨i, s', hs⟩ := exists_childStep einval args hmem hholds
    exact ⟨.child i, s', by simp [ForkSucceeds], hs⟩
  · have hnone : ∀ pc ∈ s.children, pc.holds = false := by
      intro pc hmem
      rw [← Bool.not_eq_true]
      exact fun hholds => hchild ⟨pc, hmem, hholds⟩
    refine ⟨.parent true, ?_⟩
    have hok : ForkSucceeds s (.parent true) := by simp [ForkSucceeds]
    unfold step parentStep
    cases hpc : s.parent with
    | start =>
        by_cases husable : Usable args
        · exact ⟨_, hok, if_pos husable⟩
        · exact ⟨_, hok, if_neg husable⟩
    | fork =>
        by_cases hlt : s.children.length < args.length
        · exact ⟨_, hok, if_pos hlt⟩
        · exact ⟨_, hok, if_neg hlt⟩
    | closeWrite => exact ⟨_, hok, rfl⟩
    | read =>
        have hany : s.children.any ChildPc.holds = false := by simpa using hnone
        exact ⟨_, hok, by simp only [hany]; rfl⟩
    | ready => exact ⟨_, hok, rfl⟩
    | exited => exact absurd ⟨Or.inl hpc, hnone⟩ hlive
    | usage => exact absurd ⟨Or.inr (Or.inl hpc), hnone⟩ hlive
    | failed => exact absurd ⟨Or.inr (Or.inr hpc), hnone⟩ hlive

/-- Without a failing `fork` the parent ends in no other way than by `exit`, when its usage is
right. -/
def Regular (s : State) : Prop := s.parent ≠ .usage ∧ s.parent ≠ .failed

theorem Regular.of_move {s s' : State} {a : Act} (h : Regular s) (husable : Usable args)
    (hok : ForkSucceeds s a) (hs : Move einval args s a s') : Regular s' := by
  cases hs with
  | usage hpc hnot => exact absurd husable hnot
  | forkFails => exact absurd rfl hok
  | fork => exact h
  | child => exact h
  | _ => exact ⟨by simp, by simp⟩

/-- **The parent is ready only after its children.**  Whenever its last line has been printed, every
child with a number of seconds has reported before it, and each of them once.  No process waits for
ever; and if the program is called as its usage says and no `fork` fails, this is how every run
ends. -/
theorem barrier (einval : Bool) {args : List (List Byte)} (husable : Usable args) :
    (∀ s, Runs.Reachable (step einval args) init s → Line.ready ∈ s.log →
      Barrier einval args s.log) ∧
    Runs.Completes (step einval args) init AllEnded ∧
    Runs.Completes (Runs.guard (step einval args) ForkSucceeds) init
      (fun s => AllEnded s ∧ Barrier einval args s.log) := by
  refine ⟨fun s hs hmem => ?_, ?_, ?_⟩
  · have hinv : Inv einval args s := hs.invariant (fun _ _ _ h hs => h.of_step hs) Inv.init
    exact hinv.barrier_of_exited (hinv.exited_of_mem hmem)
  · refine Runs.Completes.of_measure (I := fun _ => True) (weight args) (fun _ _ _ _ _ => trivial)
      (fun _ _ _ _ hs => weight_lt_of_move (Move.of_step hs)) (fun s _ hstuck => ?_) trivial
    by_contra hlive
    obtain ⟨a, s', -, hs⟩ := exists_step einval args hlive
    exact Runs.not_stuck_of_step hs hstuck
  · refine Runs.Completes.of_measure (I := fun s => Inv einval args s ∧ Regular s) (weight args)
      (fun s a s' h hs => ?_) (fun s a s' _ hs => ?_) (fun s h hstuck => ?_)
      ⟨Inv.init, by simp [Regular, init]⟩
    · obtain ⟨hok, hs⟩ := Runs.guard_eq_some.1 hs
      exact ⟨h.1.of_step hs, h.2.of_move husable hok (Move.of_step hs)⟩
    · exact weight_lt_of_move (Move.of_step (Runs.guard_eq_some.1 hs).2)
    · have hended : AllEnded s := by
        by_contra hlive
        obtain ⟨a, s', hok, hs⟩ := exists_step einval args hlive
        exact Runs.not_stuck_of_step (Runs.guard_eq_some.2 ⟨hok, hs⟩) hstuck
      refine ⟨hended, h.1.barrier_of_exited ?_⟩
      rcases hended.1 with hpc | hpc | hpc
      · exact hpc
      · exact absurd hpc h.2.1
      · exact absurd hpc h.2.2

/-- Three children, one of them without a number of seconds. -/
theorem barrier_three :
    (∀ s, Runs.Reachable (step false [lit "2", lit "x", lit "0"]) init s → Line.ready ∈ s.log →
      Barrier false [lit "2", lit "x", lit "0"] s.log) ∧
    Runs.Completes (step false [lit "2", lit "x", lit "0"]) init AllEnded ∧
    Runs.Completes (Runs.guard (step false [lit "2", lit "x", lit "0"]) ForkSucceeds) init
      (fun s => AllEnded s ∧ Barrier false [lit "2", lit "x", lit "0"] s.log) :=
  barrier false (by decide)

end PipeSync
