/-
**A string from a parent to its child (`HW8/44_6/simple_pipe.c`).**

The parent writes its argument to a pipe, closes it and waits for the child.  The child reads at
most ten bytes at a time and writes them to its standard output until the pipe is at its end, and
then ends the line.  A `write` to the pipe that is longer than the room in it is passed on in parts,
and its process waits for the reader between them; a process that writes to a pipe without a reader
is killed.  What the standard output accepts of a `write` is up to the environment.

Every call is a step, and of the `write` to the pipe every part; the steps of the two processes are
interleaved in any order.

Main definitions:

* `SimplePipe.step` — one step of the parent or of the child;
* `SimplePipe.Inv` — the invariant;
* `SimplePipe.Printed` — both processes have ended, and the argument is on the standard output.

Main results:

* `SimplePipe.Inv.of_move` — **the invariant is kept by every step**;
* `SimplePipe.weight_lt_of_move` — every step lowers the weight of a state;
* `SimplePipe.delivers` — **the argument is printed whatever the interleaving and the capacity**,
  and as long as it is not, only a part of it is.
-/

import NetSysProg.CString
import NetSysProg.Completion
import NetSysProg.Pipes

set_option relaxedAutoImplicit false
set_option autoImplicit false

namespace SimplePipe

open CString Pipes

/-! ### The processes -/

/-- `BUF_SIZE` -/
def bufSize : ℕ := 10

/-- The call at which the parent is. -/
inductive ParentPc
  /-- `close(pfd[0])` -/
  | closeRead
  /-- `write(pfd[1], argv[1], strlen(argv[1]))`, with what is still to be passed on -/
  | write (rest : List Byte)
  /-- `close(pfd[1])` -/
  | closeWrite
  | wait
  | exited
  /-- It has been killed by `SIGPIPE`. -/
  | killed
  deriving DecidableEq

/-- The call at which the child is. -/
inductive ChildPc
  /-- `close(pfd[1])` -/
  | closeWrite
  /-- `read(pfd[0], buf, BUF_SIZE)` -/
  | read
  /-- `write(STDOUT_FILENO, buf, numRead)`, with the bytes in the buffer -/
  | write (buf : List Byte)
  /-- `write(STDOUT_FILENO, "\n", 1)` -/
  | newline
  /-- `close(pfd[0])` -/
  | closeRead
  | exited
  /-- `fatal("child - partial/failed write")` -/
  | fatal
  deriving DecidableEq

structure State (cap : ℕ) where
  parent : ParentPc
  child : ChildPc
  pipe : Pipe Byte cap
  stdout : List Byte
  deriving DecidableEq

variable {cap : ℕ}

/-- The state after `fork`. -/
def init (cap : ℕ) : State cap := ⟨.closeRead, .closeWrite, Pipe.empty Byte cap, []⟩

/-- The parent has the write end of the pipe open. -/
def ParentPc.writes : ParentPc → Bool
  | .closeRead | .write _ | .closeWrite => true
  | _ => false

/-- The parent has the read end open. -/
def ParentPc.reads : ParentPc → Bool
  | .closeRead => true
  | _ => false

def ParentPc.ended : ParentPc → Bool
  | .exited | .killed => true
  | _ => false

/-- The child has the write end of the pipe open. -/
def ChildPc.writes : ChildPc → Bool
  | .closeWrite => true
  | _ => false

/-- The child has the read end open. -/
def ChildPc.reads : ChildPc → Bool
  | .exited | .fatal => false
  | _ => true

def ChildPc.ended : ChildPc → Bool
  | .exited | .fatal => true
  | _ => false

/-- One step; `n` is how many bytes a call moves. -/
inductive Act
  | parent (n : ℕ)
  | child (n : ℕ)
  deriving DecidableEq

/-- One step of the parent, with the argument `arg`. -/
def parentStep (arg : List Byte) (s : State cap) (n : ℕ) : Option (State cap) :=
  match s.parent with
  | .closeRead => some { s with parent := .write arg }
  | .write rest =>
      if rest = [] then some { s with parent := .closeWrite }
      else if s.parent.reads || s.child.reads then
        if 1 ≤ n ∧ n ≤ rest.length then
          (s.pipe.write (rest.take n)).map fun pipe =>
            { s with pipe, parent := .write (rest.drop n) }
        else none
      else some { s with parent := .killed }
  | .closeWrite => some { s with parent := .wait }
  | .wait => if s.child.ended then some { s with parent := .exited } else none
  | .exited => none
  | .killed => none

def childStep (s : State cap) (n : ℕ) : Option (State cap) :=
  match s.child with
  | .closeWrite => some { s with child := .read }
  | .read =>
      if s.pipe.content = [] then
        if s.parent.writes || s.child.writes then none else some { s with child := .newline }
      else if 1 ≤ n ∧ n ≤ bufSize then
        (s.pipe.read n).map fun r => { s with pipe := r.2, child := .write r.1 }
      else none
  | .write buf =>
      if n = buf.length then some { s with stdout := s.stdout ++ buf, child := .read }
      else if n < buf.length then some { s with stdout := s.stdout ++ buf.take n, child := .fatal }
      else none
  | .newline => some { s with stdout := s.stdout ++ [CString.newline].take n, child := .closeRead }
  | .closeRead => some { s with child := .exited }
  | .exited => none
  | .fatal => none

def step (arg : List Byte) (s : State cap) : Act → Option (State cap)
  | .parent n => parentStep arg s n
  | .child n => childStep s n

/-! ### What a step can do -/

/-- Everything a step can do. -/
inductive Move (arg : List Byte) (s : State cap) : Act → State cap → Prop
  | parentClose {n : ℕ} (hpc : s.parent = .closeRead) :
      Move arg s (.parent n) { s with parent := .write arg }
  | written {n : ℕ} (hpc : s.parent = .write []) : Move arg s (.parent n)
    { s with parent := .closeWrite }
  | write {n : ℕ} {rest : List Byte} {pipe : Pipe Byte cap} (hpc : s.parent = .write rest)
      (hreads : s.child.reads = true) (hpos : 1 ≤ n) (hlen : n ≤ rest.length)
      (hwrite : s.pipe.write (rest.take n) = some pipe) :
      Move arg s (.parent n) { s with pipe, parent := .write (rest.drop n) }
  | sigpipe {n : ℕ} {rest : List Byte} (hpc : s.parent = .write rest) (hrest : rest ≠ [])
      (hreads : s.child.reads = false) : Move arg s (.parent n) { s with parent := .killed }
  | closeWrite {n : ℕ} (hpc : s.parent = .closeWrite) : Move arg s (.parent n)
    { s with parent := .wait }
  | wait {n : ℕ} (hpc : s.parent = .wait) (hended : s.child.ended = true) :
      Move arg s (.parent n) { s with parent := .exited }
  | childClose {n : ℕ} (hpc : s.child = .closeWrite) : Move arg s (.child n)
    { s with child := .read }
  | eof {n : ℕ} (hpc : s.child = .read) (hpipe : s.pipe.content = [])
    (hwrites : s.parent.writes = false) :
      Move arg s (.child n) { s with child := .newline }
  | read {n : ℕ} {bs : List Byte} {pipe : Pipe Byte cap} (hpc : s.child = .read) (hpos : 1 ≤ n)
      (hread : s.pipe.read n = some (bs, pipe)) :
      Move arg s (.child n) { s with pipe, child := .write bs }
  | echo {buf : List Byte} (hpc : s.child = .write buf) :
      Move arg s (.child buf.length) { s with stdout := s.stdout ++ buf, child := .read }
  | fail {n : ℕ} {buf : List Byte} (hpc : s.child = .write buf) (hn : n < buf.length) :
      Move arg s (.child n) { s with stdout := s.stdout ++ buf.take n, child := .fatal }
  | newline {n : ℕ} (hpc : s.child = .newline) :
      Move arg s (.child n)
        { s with stdout := s.stdout ++ [CString.newline].take n, child := .closeRead }
  | closeRead {n : ℕ} (hpc : s.child = .closeRead) : Move arg s (.child n)
    { s with child := .exited }

theorem Move.of_parentStep {arg : List Byte} {s s' : State cap} {n : ℕ}
    (h : parentStep arg s n = some s') : Move arg s (.parent n) s' := by
  unfold parentStep at h
  split at h
  · next hpc =>
      obtain rfl := Option.some.inj h
      exact .parentClose hpc
  · next rest hpc =>
      split at h
      · next hrest =>
          obtain rfl := Option.some.inj h
          exact .written (hrest ▸ hpc)
      · next hrest =>
          split at h
          · next hreads =>
              split at h
              · next hn =>
                  obtain ⟨pipe, hwrite, rfl⟩ := Option.map_eq_some_iff.1 h
                  have hreads' : s.child.reads = true := by simpa [hpc, ParentPc.reads] using hreads
                  exact .write hpc hreads' hn.1 hn.2 hwrite
              · cases h
          · next hreads =>
              obtain rfl := Option.some.inj h
              exact .sigpipe hpc hrest (by simpa [hpc, ParentPc.reads] using hreads)
  · next hpc =>
      obtain rfl := Option.some.inj h
      exact .closeWrite hpc
  · next hpc =>
      split at h
      · next hended =>
          obtain rfl := Option.some.inj h
          exact .wait hpc hended
      · cases h
  · cases h
  · cases h

theorem Move.of_childStep {arg : List Byte} {s s' : State cap} {n : ℕ}
    (h : childStep s n = some s') :
    Move arg s (.child n) s' := by
  unfold childStep at h
  split at h
  · next hpc =>
      obtain rfl := Option.some.inj h
      exact .childClose hpc
  · next hpc =>
      split at h
      · next hpipe =>
          split at h
          · cases h
          · next hwrites =>
              obtain rfl := Option.some.inj h
              exact .eof hpc hpipe (by simpa [hpc, ChildPc.writes] using hwrites)
      · split at h
        · next hn =>
            obtain ⟨r, hread, rfl⟩ := Option.map_eq_some_iff.1 h
            exact .read hpc hn.1 hread
        · cases h
  · next buf hpc =>
      split at h
      · next hn =>
          subst hn
          obtain rfl := Option.some.inj h
          exact .echo hpc
      · split at h
        · next hn =>
            obtain rfl := Option.some.inj h
            exact .fail hpc hn
        · cases h
  · next hpc =>
      obtain rfl := Option.some.inj h
      exact .newline hpc
  · next hpc =>
      obtain rfl := Option.some.inj h
      exact .closeRead hpc
  · cases h
  · cases h

/-- **Every step is one of the moves.** -/
theorem Move.of_step {arg : List Byte} {s s' : State cap} {a : Act} (h : step arg s a = some s') :
    Move arg s a s' := by
  cases a with
  | parent n => exact Move.of_parentStep h
  | child n => exact Move.of_childStep h

/-! ### The invariant -/

/-- What the parent has not written yet. -/
def ParentPc.rest (arg : List Byte) : ParentPc → List Byte
  | .closeRead => arg
  | .write rest => rest
  | _ => []

/-- **The invariant**, by the call at which the child is. -/
def Inv (arg : List Byte) (s : State cap) : Prop :=
  match s.child with
  | .closeWrite => s.parent.ended = false ∧ Carries arg s.stdout s.pipe (s.parent.rest arg)
  | .read => s.parent.ended = false ∧ Carries arg s.stdout s.pipe (s.parent.rest arg)
  | .write buf => s.parent.ended = false ∧ Carries arg (s.stdout ++ buf) s.pipe (s.parent.rest arg)
  | .newline => s.parent = .wait ∧ s.stdout = arg
  | .closeRead => s.parent = .wait ∧ (s.stdout = arg ∨ s.stdout = arg ++ [newline])
  | .exited => (s.parent = .wait ∨ s.parent = .exited) ∧
    (s.stdout = arg ∨ s.stdout = arg ++ [newline])
  | .fatal => s.stdout <+: arg

theorem Inv.init (cap : ℕ) (arg : List Byte) : Inv arg (init cap) := ⟨rfl, Carries.start arg⟩

/-- Whatever has been printed is a part of the line. -/
theorem Inv.prefixOf {arg : List Byte} {s : State cap} (h : Inv arg s) :
    s.stdout <+: arg ++ [newline] := by
  have hpart : arg <+: arg ++ [newline] := List.prefix_append _ _
  unfold Inv at h
  split at h
  · exact h.2.prefixOf.trans hpart
  · exact h.2.prefixOf.trans hpart
  · exact ((List.prefix_append _ _).trans h.2.prefixOf).trans hpart
  · rw [h.2]
    exact hpart
  · rcases h.2 with h | h
    · exact h ▸ hpart
    · exact h ▸ List.prefix_refl _
  · rcases h.2 with h | h
    · exact h ▸ hpart
    · exact h ▸ List.prefix_refl _
  · exact h.trans hpart

/-- A step of the parent hands the invariant on when it keeps what the pipe carries. -/
theorem Inv.of_parent {arg : List Byte} {s : State cap} {parent : ParentPc} {pipe : Pipe Byte cap}
    (h : Inv arg s) (hlive : s.parent.writes = true) (hended : parent.ended = false)
    (hcarries : ∀ out, Carries arg out s.pipe (s.parent.rest arg) →
      Carries arg out pipe (parent.rest arg)) :
    Inv arg { s with parent, pipe } := by
  cases hpc : s.child with
  | closeWrite =>
      simp only [Inv, hpc] at h ⊢
      exact ⟨hended, hcarries _ h.2⟩
  | read =>
      simp only [Inv, hpc] at h ⊢
      exact ⟨hended, hcarries _ h.2⟩
  | write buf =>
      simp only [Inv, hpc] at h ⊢
      exact ⟨hended, hcarries _ h.2⟩
  | newline =>
      simp only [Inv, hpc] at h
      simp [h.1, ParentPc.writes] at hlive
  | closeRead =>
      simp only [Inv, hpc] at h
      simp [h.1, ParentPc.writes] at hlive
  | exited =>
      simp only [Inv, hpc] at h
      rcases h.1 with hparent | hparent <;> simp [hparent, ParentPc.writes] at hlive
  | fatal =>
      simp only [Inv, hpc] at h ⊢
      exact h

/-- **The invariant is kept by every step.** -/
theorem Inv.of_move {arg : List Byte} {s s' : State cap} {a : Act} (h : Inv arg s)
    (hs : Move arg s a s') :
    Inv arg s' := by
  cases hs with
  | parentClose hpc =>
      refine h.of_parent (by rw [hpc]; rfl) rfl fun out hout => ?_
      simpa only [hpc, ParentPc.rest] using hout
  | written hpc =>
      refine h.of_parent (by rw [hpc]; rfl) rfl fun out hout => ?_
      simpa only [hpc, ParentPc.rest] using hout
  | @write n rest pipe hpc _ _ _ hwrite =>
      refine h.of_parent (by rw [hpc]; rfl) rfl fun out hout => ?_
      rw [hpc, ParentPc.rest, ← List.take_append_drop n rest] at hout
      exact hout.write hwrite
  | @sigpipe n rest hpc _ hreads =>
      cases hchild : s.child with
      | exited =>
          simp only [Inv, hchild] at h
          rcases h.1 with hparent | hparent <;> simp [hpc] at hparent
      | fatal =>
          simp only [Inv, hchild] at h ⊢
          exact h
      | _ => simp [hchild, ChildPc.reads] at hreads
  | closeWrite hpc =>
      refine h.of_parent (by rw [hpc]; rfl) rfl fun out hout => ?_
      simpa only [hpc, ParentPc.rest] using hout
  | wait hpc hended =>
      cases hchild : s.child with
      | exited =>
          simp only [Inv, hchild] at h ⊢
          exact ⟨Or.inr trivial, h.2⟩
      | fatal =>
          simp only [Inv, hchild] at h ⊢
          exact h
      | _ => simp [hchild, ChildPc.ended] at hended
  | childClose hpc =>
      simp only [Inv, hpc] at h ⊢
      exact h
  | eof hpc hpipe hwrites =>
      simp only [Inv, hpc] at h ⊢
      have hwait : s.parent = .wait := by
        cases hparent : s.parent with
        | wait => rfl
        | exited => simp [hparent, ParentPc.ended] at h
        | killed => simp [hparent, ParentPc.ended] at h
        | _ => simp [hparent, ParentPc.writes] at hwrites
      rw [hwait] at h
      exact ⟨hwait, h.2.eq_of_empty hpipe⟩
  | read hpc _ hread =>
      simp only [Inv, hpc] at h ⊢
      exact ⟨h.1, h.2.read hread⟩
  | echo hpc =>
      simp only [Inv, hpc] at h ⊢
      exact h
  | @fail n buf hpc _ =>
      simp only [Inv, hpc] at h ⊢
      have hpart : s.stdout ++ buf.take n <+: s.stdout ++ buf :=
        (List.prefix_append_right_inj _).2 (List.take_prefix n buf)
      exact hpart.trans h.2.prefixOf
  | @newline n hpc =>
      simp only [Inv, hpc] at h ⊢
      refine ⟨h.1, ?_⟩
      rw [h.2]
      cases n with
      | zero => exact Or.inl (List.append_nil arg)
      | succ n => exact Or.inr (by rw [List.take_succ_cons, List.take_nil])
  | closeRead hpc =>
      simp only [Inv, hpc] at h ⊢
      exact ⟨Or.inl h.1, h.2⟩

theorem Inv.of_step {arg : List Byte} {s s' : State cap} {a : Act} (h : Inv arg s)
    (hs : step arg s a = some s') : Inv arg s' := h.of_move (Move.of_step hs)

/-! ### Every run ends -/

/-- The calls that the parent still makes, and the bytes that it still writes. -/
def ParentPc.weight (arg : List Byte) : ParentPc → ℕ
  | .closeRead => 3 * arg.length + 5
  | .write rest => 3 * rest.length + 4
  | .closeWrite => 3
  | .wait => 2
  | .exited => 0
  | .killed => 0

def ChildPc.weight : ChildPc → ℕ
  | .closeWrite => 5
  | .read => 3
  | .write _ => 4
  | .newline => 2
  | .closeRead => 1
  | .exited => 0
  | .fatal => 0

/-- The weight of a state: what is in the pipe has still to be read. -/
def weight (arg : List Byte) (s : State cap) : ℕ :=
  s.parent.weight arg + s.child.weight + 2 * s.pipe.content.length

/-- **Every step lowers the weight.** -/
theorem weight_lt_of_move {arg : List Byte} {s s' : State cap} {a : Act} (hs : Move arg s a s') :
    weight arg s' < weight arg s := by
  cases hs with
  | write hpc _ hpos hlen hwrite =>
      have hcontent := congrArg List.length (Pipe.write_eq_some hwrite)
      rw [List.length_append, List.length_take_of_le hlen] at hcontent
      simp only [weight, hpc, ParentPc.weight, List.length_drop]
      omega
  | read hpc hpos hread =>
      obtain ⟨hlen, hcontent⟩ := Pipe.read_eq_some hread
      have hsum := congrArg List.length hcontent
      rw [List.length_append] at hsum
      simp only [weight, hpc, ChildPc.weight]
      omega
  | _ => simp_all [weight, ParentPc.weight, ChildPc.weight]

/-! ### No deadlock -/

/-- The standard output accepts all of a `write`. -/
def TakesAll (s : State cap) : Act → Prop
  | .parent _ => True
  | .child n =>
      match s.child with
      | .write buf => n = buf.length
      | .newline => n = 1
      | _ => True

instance (s : State cap) (a : Act) : Decidable (TakesAll s a) := by
  unfold TakesAll
  split
  · infer_instance
  · split <;> infer_instance

/-- Both processes have ended. -/
def BothEnded (s : State cap) : Prop := s.parent.ended = true ∧ s.child.ended = true

/-- A parent that need not wait for room in the pipe or for the child. -/
theorem exists_parentStep (arg : List Byte) {s : State cap} (hcap : 0 < cap)
    (hlive : s.parent.writes = true) (hroom : s.pipe.content = [] ∨ s.child.reads = false) :
    ∃ s', parentStep arg s 1 = some s' := by
  cases hpc : s.parent with
  | closeRead => exact ⟨_, by rw [parentStep, hpc]⟩
  | write rest =>
      by_cases hrest : rest = []
      · exact ⟨_, by rw [parentStep, hpc]; exact if_pos hrest⟩
      · cases hreads : s.child.reads with
        | false =>
            exact ⟨_, by
              rw [parentStep, hpc]
              simp only [if_neg hrest, ParentPc.reads, hreads]
              rfl⟩
        | true =>
            have hempty : s.pipe.content = [] := by simpa [hreads] using hroom
            have hpos : 1 ≤ rest.length := List.length_pos_iff.2 hrest
            have hfits : (rest.take 1).length ≤ s.pipe.room := by
              rw [List.length_take_of_le hpos, Pipe.room_of_content_nil hempty]
              exact hcap
            obtain ⟨pipe, hwrite⟩ := Pipe.exists_write hfits
            refine ⟨{ s with pipe, parent := .write (rest.drop 1) }, ?_⟩
            simp only [parentStep, hpc, if_neg hrest, hreads, Bool.or_true, hpos, hwrite]
            rfl
  | closeWrite => exact ⟨_, by rw [parentStep, hpc]⟩
  | _ => simp [hpc, ParentPc.writes] at hlive

/-- A child that finds something in the pipe, or no writer. -/
theorem exists_read {s : State cap} (hpc : s.child = .read)
    (h : s.pipe.content ≠ [] ∨ s.parent.writes = false) : ∃ s', childStep s 1 = some s' := by
  by_cases hpipe : s.pipe.content = []
  · have hwrites : s.parent.writes = false := h.resolve_left (not_not_intro hpipe)
    refine ⟨{ s with child := .newline }, ?_⟩
    simp only [childStep, hpc, if_pos hpipe, hwrites]
    rfl
  · obtain ⟨bs, pipe, hread⟩ := Pipe.exists_read (p := s.pipe) (List.length_pos_iff.2 hpipe)
    refine ⟨{ s with pipe, child := .write bs }, ?_⟩
    simp only [childStep, hpc, if_neg hpipe, hread]
    rfl

/-- A parent that has nothing to write has ended, or waits. -/
theorem ParentPc.wait_or_ended {pc : ParentPc} (h : pc.writes = false) :
    pc = .wait ∨ pc.ended = true := by
  cases pc <;> simp_all [ParentPc.writes, ParentPc.ended]

/-- **There is no deadlock**: as long as one of the processes has not ended, one of them can take a
step, and one that the standard output does not keep from it. -/
theorem exists_step {arg : List Byte} {s : State cap} (hcap : 0 < cap) (h : Inv arg s)
    (hlive : ¬ BothEnded s) : ∃ a s', TakesAll s a ∧ step arg s a = some s' := by
  cases hchild : s.child with
  | closeWrite =>
    exact ⟨.child 0, _, by simp only [TakesAll, hchild], by rw [step, childStep, hchild]⟩
  | read =>
      by_cases hread : s.pipe.content ≠ [] ∨ s.parent.writes = false
      · obtain ⟨s', hs⟩ := exists_read hchild hread
        exact ⟨.child 1, s', by simp only [TakesAll, hchild], hs⟩
      · rw [not_or, not_not, Bool.not_eq_false] at hread
        obtain ⟨s', hs⟩ := exists_parentStep arg hcap hread.2 (Or.inl hread.1)
        exact ⟨.parent 1, s', trivial, hs⟩
  | write buf =>
      refine ⟨.child buf.length, { s with stdout := s.stdout ++ buf, child := .read },
        by simp only [TakesAll, hchild], ?_⟩
      rw [step, childStep, hchild]
      exact if_pos rfl
  | newline => exact ⟨.child 1, _, by simp only [TakesAll, hchild], by rw [step, childStep, hchild]⟩
  | closeRead =>
    exact ⟨.child 0, _, by simp only [TakesAll, hchild], by rw [step, childStep, hchild]⟩
  | exited =>
      simp only [Inv, hchild] at h
      rcases h.1 with hwait | hexited
      · refine ⟨.parent 0, { s with parent := .exited }, trivial, ?_⟩
        simp only [step, parentStep, hwait, hchild]
        rfl
      · exact absurd ⟨by rw [hexited]; rfl, by rw [hchild]; rfl⟩ hlive
  | fatal =>
      cases hwrites : s.parent.writes with
      | true =>
          obtain ⟨s', hs⟩ := exists_parentStep arg hcap hwrites (Or.inr (by rw [hchild]; rfl))
          exact ⟨.parent 1, s', trivial, hs⟩
      | false =>
          rcases ParentPc.wait_or_ended hwrites with hwait | hended
          · refine ⟨.parent 0, { s with parent := .exited }, trivial, ?_⟩
            simp only [step, parentStep, hwait, hchild]
            rfl
          · exact absurd ⟨hended, by rw [hchild]; rfl⟩ hlive

/-! ### What is printed -/

/-- Both processes have ended, and the argument is on the standard output. -/
def Printed (arg : List Byte) (s : State cap) : Prop :=
  s.parent = .exited ∧ s.child = .exited ∧ s.stdout = arg ++ [newline]

/-- As long as the standard output accepts everything, the child does not give up and ends the
line. -/
def Whole (arg : List Byte) (s : State cap) : Prop :=
  Inv arg s ∧ s.child ≠ .fatal ∧
    (s.child = .closeRead ∨ s.child = .exited → s.stdout = arg ++ [newline])

theorem Whole.of_move {arg : List Byte} {s s' : State cap} {a : Act} (h : Whole arg s)
    (hok : TakesAll s a)
    (hs : Move arg s a s') : Whole arg s' := by
  refine ⟨h.1.of_move hs, ?_⟩
  cases hs with
  | fail hpc hn =>
      simp only [TakesAll, hpc] at hok
      exact absurd hn (by omega)
  | newline hpc =>
      simp only [TakesAll, hpc] at hok
      have hinv := h.1
      simp only [Inv, hpc] at hinv
      subst hok
      exact ⟨by simp, fun _ => by rw [hinv.2]; rfl⟩
  | closeRead hpc => exact ⟨by simp, fun _ => h.2.2 (Or.inl hpc)⟩
  | childClose => exact ⟨by simp, by simp⟩
  | eof => exact ⟨by simp, by simp⟩
  | read => exact ⟨by simp, by simp⟩
  | echo => exact ⟨by simp, by simp⟩
  | _ => exact h.2

/-- **Where both have ended, the argument has been printed.** -/
theorem Whole.printed {arg : List Byte} {s : State cap} (h : Whole arg s) (hended : BothEnded s) :
    Printed arg s := by
  obtain ⟨hinv, hfatal, hline⟩ := h
  obtain ⟨hparent, hchild⟩ := hended
  cases hpc : s.child with
  | exited =>
      simp only [Inv, hpc] at hinv
      refine ⟨?_, hpc, hline (Or.inr hpc)⟩
      rcases hinv.1 with hwait | hexited
      · rw [hwait] at hparent
        cases hparent
      · exact hexited
  | fatal => exact absurd hpc hfatal
  | _ => simp [hpc, ChildPc.ended] at hchild

/-- **The argument is delivered**, in every interleaving and with a pipe of any capacity.  Whatever
the standard output accepts, what is on it is a part of the line and both processes come to their
end; if it accepts everything, both exit and the whole line is on it. -/
theorem delivers (hcap : 0 < cap) (arg : List Byte) :
    (∀ s, Runs.Reachable (step arg) (init cap) s → s.stdout <+: arg ++ [newline]) ∧
    Runs.Completes (step arg) (init cap) BothEnded ∧
    Runs.Completes (Runs.guard (step arg) TakesAll) (init cap) (Printed arg) := by
  refine ⟨fun s hs => ?_, ?_, ?_⟩
  · have hinv : Inv arg s := hs.invariant (fun _ _ _ h hs => h.of_step hs) (Inv.init cap arg)
    exact hinv.prefixOf
  · refine Runs.Completes.of_measure (weight arg) (fun _ _ _ h hs => h.of_step hs)
      (fun _ _ _ _ hs => weight_lt_of_move (Move.of_step hs)) (fun s h hstuck => ?_)
        (Inv.init cap arg)
    by_contra hlive
    obtain ⟨a, s', -, hs⟩ := exists_step hcap h hlive
    exact Runs.not_stuck_of_step hs hstuck
  · have hstart : Whole arg (init cap) := ⟨Inv.init cap arg, by simp [init], by simp [init]⟩
    refine Runs.Completes.of_measure (weight arg) (fun s a s' h hs => ?_) (fun s a s' _ hs => ?_)
      (fun s h hstuck => ?_) hstart
    · obtain ⟨hok, hs⟩ := Runs.guard_eq_some.1 hs
      exact h.of_move hok (Move.of_step hs)
    · exact weight_lt_of_move (Move.of_step (Runs.guard_eq_some.1 hs).2)
    · by_contra hprinted
      obtain ⟨a, s', hok, hs⟩ := exists_step hcap h.1 fun hended => hprinted (h.printed hended)
      exact Runs.not_stuck_of_step (Runs.guard_eq_some.2 ⟨hok, hs⟩) hstuck

/-- An argument longer than the pipe and the buffer. -/
theorem delivers_hello :
    (∀ s : State 3, Runs.Reachable (step (lit "hello, child!")) (init 3) s →
      s.stdout <+: lit "hello, child!" ++ [newline]) ∧
    Runs.Completes (step (lit "hello, child!")) (init 3) BothEnded ∧
    Runs.Completes (Runs.guard (step (lit "hello, child!")) TakesAll) (init 3)
      (Printed (lit "hello, child!")) := delivers (by decide) _

end SimplePipe
