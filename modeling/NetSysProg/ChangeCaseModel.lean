/-
**Text that a child turns into capitals (`HW8/44_6/change_case.c`).**

The parent reads its standard input in parts of at most a hundred bytes.  It sends each part through
the outbound pipe and prints what a `read` from the inbound pipe returns; the child reads from the
outbound pipe, converts the bytes and sends them back, until the outbound pipe is at its end.  A
part is no longer than `PIPE_BUF`, so that a `write` to a pipe passes on all of it at once, or
waits.

Every call is a step, with the conversion of the buffer as part of the `read` before it, and the
steps of the two processes are interleaved in any order.  A `read` may return any part of what is
there; how much the standard output accepts of a `write` is up to the environment.

Main definitions:

* `ChangeCase.step` — one step of the parent or of the child;
* `ChangeCase.Move` — everything a step can do.

Main results:

* `ChangeCase.Move.of_step` — every step is one of the moves;
* `ChangeCase.Flow.of_move` — **nothing is lost, doubled or reordered on the way**, however the
  reads are cut;
* `ChangeCase.Flow.prefixOf` — what is printed is a part of the converted input, in every run.
-/

import NetSysProg.CString
import NetSysProg.Runs
import NetSysProg.Pipes

set_option relaxedAutoImplicit false
set_option autoImplicit false

namespace ChangeCase

open CString Pipes

/-! ### The processes -/

/-- `BUF_SIZE` -/
def bufSize : ℕ := 100

/-- `toupper` in the locale that a program starts with. -/
def toupper (b : Byte) : Byte := if 97 ≤ b ∧ b ≤ 122 then b - 32 else b

/-- The call at which the parent is. -/
inductive ParentPc
  /-- `close(outbound[0])` -/
  | closeOutbound
  /-- `close(inbound[1])` -/
  | closeInbound
  /-- `read(STDIN_FILENO, buf, BUF_SIZE)` -/
  | input
  /-- `write(outbound[1], buf, cnt)` -/
  | send (buf : List Byte)
  /-- `read(inbound[0], buf, BUF_SIZE)` -/
  | receive
  /-- `write(STDOUT_FILENO, buf, cnt)` -/
  | output (buf : List Byte)
  | exited
  /-- `fatal("failed/partial write(): STDOUT_FILENO")` -/
  | fatal
  /-- It has been killed by `SIGPIPE`. -/
  | killed
  deriving DecidableEq

/-- The call at which the child is. -/
inductive ChildPc
  /-- `close(outbound[1])` -/
  | closeOutbound
  /-- `close(inbound[0])` -/
  | closeInbound
  /-- `read(outbound[0], buf, BUF_SIZE)` -/
  | receive
  /-- `write(inbound[1], buf, cnt)`, with the converted bytes -/
  | send (buf : List Byte)
  | exited
  /-- It has been killed by `SIGPIPE`. -/
  | killed
  deriving DecidableEq

structure State (cap : ℕ) where
  /-- What is left of the standard input. -/
  stdin : List Byte
  stdout : List Byte
  parent : ParentPc
  child : ChildPc
  outbound : Pipe Byte cap
  inbound : Pipe Byte cap
  deriving DecidableEq

variable {cap : ℕ}

/-- The state after `fork`. -/
def init (cap : ℕ) (stdin : List Byte) : State cap :=
  ⟨stdin, [], .closeOutbound, .closeOutbound, Pipe.empty Byte cap, Pipe.empty Byte cap⟩

/-- The parent has ended, and its ends of the pipes are closed. -/
def ParentPc.ended : ParentPc → Bool
  | .exited | .fatal | .killed => true
  | _ => false

def ChildPc.ended : ChildPc → Bool
  | .exited | .killed => true
  | _ => false

/-- Some process has the write end of the outbound pipe open. -/
def State.outboundWriter (s : State cap) : Bool := !s.parent.ended || s.child = .closeOutbound

/-- Some process has the read end of the outbound pipe open. -/
def State.outboundReader (s : State cap) : Bool := s.parent = .closeOutbound || !s.child.ended

/-- Some process has the write end of the inbound pipe open. -/
def State.inboundWriter (s : State cap) : Bool :=
  s.parent = .closeOutbound || s.parent = .closeInbound || !s.child.ended

/-- Some process has the read end of the inbound pipe open. -/
def State.inboundReader (s : State cap) : Bool :=
  !s.parent.ended || s.child = .closeOutbound || s.child = .closeInbound

/-- One step; `n` is how many bytes a call moves. -/
inductive Act
  | parent (n : ℕ)
  | child (n : ℕ)
  deriving DecidableEq

def parentStep (s : State cap) (n : ℕ) : Option (State cap) :=
  match s.parent with
  | .closeOutbound => some { s with parent := .closeInbound }
  | .closeInbound => some { s with parent := .input }
  | .input =>
      if s.stdin = [] then some { s with parent := .exited }
      else if 1 ≤ n ∧ n ≤ bufSize ∧ n ≤ s.stdin.length then
        some { s with stdin := s.stdin.drop n, parent := .send (s.stdin.take n) }
      else none
  | .send buf =>
      if s.outboundReader then
        (s.outbound.write buf).map fun outbound => { s with outbound, parent := .receive }
      else some { s with parent := .killed }
  | .receive =>
      if s.inbound.content = [] then
        -- `cnt` is zero at the end of the pipe, and the loop goes on
        if s.inboundWriter then none else some { s with parent := .input }
      else if 1 ≤ n ∧ n ≤ bufSize then
        (s.inbound.read n).map fun r => { s with inbound := r.2, parent := .output r.1 }
      else none
  | .output buf =>
      if n = buf.length then some { s with stdout := s.stdout ++ buf, parent := .input }
      else if n < buf.length then some { s with stdout := s.stdout ++ buf.take n, parent := .fatal }
      else none
  | .exited => none
  | .fatal => none
  | .killed => none

def childStep (s : State cap) (n : ℕ) : Option (State cap) :=
  match s.child with
  | .closeOutbound => some { s with child := .closeInbound }
  | .closeInbound => some { s with child := .receive }
  | .receive =>
      if s.outbound.content = [] then
        if s.outboundWriter then none else some { s with child := .exited }
      else if 1 ≤ n ∧ n ≤ bufSize then
        (s.outbound.read n).map fun r =>
          { s with outbound := r.2, child := .send (r.1.map toupper) }
      else none
  | .send buf =>
      if s.inboundReader then
        (s.inbound.write buf).map fun inbound => { s with inbound, child := .receive }
      else some { s with child := .killed }
  | .exited => none
  | .killed => none

def step (s : State cap) : Act → Option (State cap)
  | .parent n => parentStep s n
  | .child n => childStep s n

/-! ### What a step can do -/

/-- Everything a step can do. -/
inductive Move (s : State cap) : Act → State cap → Prop
  | closeOutbound {n : ℕ} (hpc : s.parent = .closeOutbound) :
      Move s (.parent n) { s with parent := .closeInbound }
  | closeInbound {n : ℕ} (hpc : s.parent = .closeInbound) : Move s (.parent n)
    { s with parent := .input }
  | exit {n : ℕ} (hpc : s.parent = .input) (hstdin : s.stdin = []) :
      Move s (.parent n) { s with parent := .exited }
  | input {n : ℕ} (hpc : s.parent = .input) (hpos : 1 ≤ n) (hsize : n ≤ bufSize)
      (hlen : n ≤ s.stdin.length) :
      Move s (.parent n) { s with stdin := s.stdin.drop n, parent := .send (s.stdin.take n) }
  | send {n : ℕ} {buf : List Byte} {outbound : Pipe Byte cap} (hpc : s.parent = .send buf)
      (hwrite : s.outbound.write buf = some outbound) :
      Move s (.parent n) { s with outbound, parent := .receive }
  | sigpipe {n : ℕ} {buf : List Byte} (hpc : s.parent = .send buf) (hended : s.child.ended = true) :
      Move s (.parent n) { s with parent := .killed }
  | eof {n : ℕ} (hpc : s.parent = .receive) (hended : s.child.ended = true) :
      Move s (.parent n) { s with parent := .input }
  | receive {n : ℕ} {bs : List Byte} {inbound : Pipe Byte cap}
    (hpc : s.parent = .receive) (hpos : 1 ≤ n)
      (hread : s.inbound.read n = some (bs, inbound)) :
      Move s (.parent n) { s with inbound, parent := .output bs }
  | output {buf : List Byte} (hpc : s.parent = .output buf) :
      Move s (.parent buf.length) { s with stdout := s.stdout ++ buf, parent := .input }
  | fail {n : ℕ} {buf : List Byte} (hpc : s.parent = .output buf) (hn : n < buf.length) :
      Move s (.parent n) { s with stdout := s.stdout ++ buf.take n, parent := .fatal }
  | childCloseOutbound {n : ℕ} (hpc : s.child = .closeOutbound) :
      Move s (.child n) { s with child := .closeInbound }
  | childCloseInbound {n : ℕ} (hpc : s.child = .closeInbound) :
      Move s (.child n) { s with child := .receive }
  | childExit {n : ℕ} (hpc : s.child = .receive) (hpipe : s.outbound.content = [])
      (hended : s.parent.ended = true) : Move s (.child n) { s with child := .exited }
  | childReceive {n : ℕ} {bs : List Byte} {outbound : Pipe Byte cap} (hpc : s.child = .receive)
      (hpos : 1 ≤ n) (hread : s.outbound.read n = some (bs, outbound)) :
      Move s (.child n) { s with outbound, child := .send (bs.map toupper) }
  | childSend {n : ℕ} {buf : List Byte} {inbound : Pipe Byte cap} (hpc : s.child = .send buf)
      (hwrite : s.inbound.write buf = some inbound) :
      Move s (.child n) { s with inbound, child := .receive }
  | childSigpipe {n : ℕ} {buf : List Byte} (hpc : s.child = .send buf)
    (hended : s.parent.ended = true) :
      Move s (.child n) { s with child := .killed }

theorem Move.of_parentStep {s s' : State cap} {n : ℕ} (h : parentStep s n = some s') :
    Move s (.parent n) s' := by
  unfold parentStep at h
  split at h
  · next hpc =>
      obtain rfl := Option.some.inj h
      exact .closeOutbound hpc
  · next hpc =>
      obtain rfl := Option.some.inj h
      exact .closeInbound hpc
  · next hpc =>
      split at h
      · next hstdin =>
          obtain rfl := Option.some.inj h
          exact .exit hpc hstdin
      · split at h
        · next hn =>
            obtain rfl := Option.some.inj h
            exact .input hpc hn.1 hn.2.1 hn.2.2
        · cases h
  · next buf hpc =>
      split at h
      · obtain ⟨outbound, hwrite, rfl⟩ := Option.map_eq_some_iff.1 h
        exact .send hpc hwrite
      · next hreader =>
          obtain rfl := Option.some.inj h
          exact .sigpipe hpc (by simpa [State.outboundReader, hpc] using hreader)
  · next hpc =>
      split at h
      · split at h
        · cases h
        · next hwriter =>
            obtain rfl := Option.some.inj h
            exact .eof hpc (by simpa [State.inboundWriter, hpc] using hwriter)
      · split at h
        · next hn =>
            obtain ⟨r, hread, rfl⟩ := Option.map_eq_some_iff.1 h
            exact .receive hpc hn.1 hread
        · cases h
  · next buf hpc =>
      split at h
      · next hn =>
          subst hn
          obtain rfl := Option.some.inj h
          exact .output hpc
      · split at h
        · next hn =>
            obtain rfl := Option.some.inj h
            exact .fail hpc hn
        · cases h
  · cases h
  · cases h
  · cases h

theorem Move.of_childStep {s s' : State cap} {n : ℕ} (h : childStep s n = some s') :
    Move s (.child n) s' := by
  unfold childStep at h
  split at h
  · next hpc =>
      obtain rfl := Option.some.inj h
      exact .childCloseOutbound hpc
  · next hpc =>
      obtain rfl := Option.some.inj h
      exact .childCloseInbound hpc
  · next hpc =>
      split at h
      · next hpipe =>
          split at h
          · cases h
          · next hwriter =>
              obtain rfl := Option.some.inj h
              exact .childExit hpc hpipe (by simpa [State.outboundWriter, hpc] using hwriter)
      · split at h
        · next hn =>
            obtain ⟨r, hread, rfl⟩ := Option.map_eq_some_iff.1 h
            exact .childReceive hpc hn.1 hread
        · cases h
  · next buf hpc =>
      split at h
      · obtain ⟨inbound, hwrite, rfl⟩ := Option.map_eq_some_iff.1 h
        exact .childSend hpc hwrite
      · next hreader =>
          obtain rfl := Option.some.inj h
          exact .childSigpipe hpc (by simpa [State.inboundReader, hpc] using hreader)
  · cases h
  · cases h

/-- **Every step is one of the moves.** -/
theorem Move.of_step {s s' : State cap} {a : Act} (h : step s a = some s') : Move s a s' := by
  cases a with
  | parent n => exact Move.of_parentStep h
  | child n => exact Move.of_childStep h

/-! ### What is on its way -/

/-- What the parent is about to send. -/
def ParentPc.toSend : ParentPc → List Byte
  | .send buf => buf
  | _ => []

/-- What the parent is about to print. -/
def ParentPc.toPrint : ParentPc → List Byte
  | .output buf => buf
  | _ => []

/-- What the child is about to send. -/
def ChildPc.toSend : ChildPc → List Byte
  | .send buf => buf
  | _ => []

/-- Everything between the standard input and the standard output, converted, in the order in which
it will be printed. -/
def pending (s : State cap) : List Byte :=
  s.parent.toPrint ++ s.inbound.content ++ s.child.toSend ++
    (s.outbound.content ++ s.parent.toSend ++ s.stdin).map toupper

/-- **The invariant of every run**: as long as the parent runs, the child has not been killed, and
what is printed and what is on its way are the converted input; and what is printed is a part of
it. -/
def Flow (input : List Byte) (s : State cap) : Prop :=
  s.stdout <+: input.map toupper ∧
    (s.parent.ended = false → s.child.ended = false ∧ s.stdout ++ pending s = input.map toupper)

theorem Flow.init (cap : ℕ) (input : List Byte) : Flow input (init cap input) :=
  ⟨List.nil_prefix, fun _ => ⟨rfl, rfl⟩⟩

theorem Flow.prefixOf {input : List Byte} {s : State cap} (h : Flow input s) :
    s.stdout <+: input.map toupper := h.1

/-- A step that only moves what is on its way. -/
theorem Flow.of_pending {input : List Byte} {s s' : State cap} (h : Flow input s)
    (hlive : s.parent.ended = false) (hchild : s'.child.ended = false)
    (hsame : s'.stdout ++ pending s' = s.stdout ++ pending s) : Flow input s' := by
  have hall : s'.stdout ++ pending s' = input.map toupper := hsame.trans (h.2 hlive).2
  exact ⟨⟨pending s', hall⟩, fun _ => ⟨hchild, hall⟩⟩

/-- **The invariant is kept by every step**, however the reads are cut. -/
theorem Flow.of_move {input : List Byte} {s s' : State cap} {a : Act} (h : Flow input s)
    (hs : Move s a s') : Flow input s' := by
  cases hs with
  | closeOutbound hpc =>
      have hlive : s.parent.ended = false := by rw [hpc]; rfl
      exact h.of_pending hlive (h.2 hlive).1
        (by simp only [pending, hpc, ParentPc.toPrint, ParentPc.toSend])
  | closeInbound hpc =>
      have hlive : s.parent.ended = false := by rw [hpc]; rfl
      exact h.of_pending hlive (h.2 hlive).1
        (by simp only [pending, hpc, ParentPc.toPrint, ParentPc.toSend])
  | exit hpc hstdin => exact ⟨h.1, by simp [ParentPc.ended]⟩
  | @input n hpc hpos hsize hlen =>
      have hlive : s.parent.ended = false := by rw [hpc]; rfl
      refine h.of_pending hlive (h.2 hlive).1 ?_
      simp only [pending, hpc, ParentPc.toPrint, ParentPc.toSend, List.append_nil,
        List.append_assoc, List.take_append_drop]
  | send hpc hwrite =>
      have hlive : s.parent.ended = false := by rw [hpc]; rfl
      refine h.of_pending hlive (h.2 hlive).1 ?_
      simp only [pending, hpc, ParentPc.toPrint, ParentPc.toSend, Pipe.write_eq_some hwrite,
        List.append_nil]
  | sigpipe hpc hended => exact ⟨h.1, by simp [ParentPc.ended]⟩
  | eof hpc hended =>
      have hlive : s.parent.ended = false := by rw [hpc]; rfl
      rw [(h.2 hlive).1] at hended
      cases hended
  | receive hpc hpos hread =>
      have hlive : s.parent.ended = false := by rw [hpc]; rfl
      refine h.of_pending hlive (h.2 hlive).1 ?_
      simp only [pending, hpc, ParentPc.toPrint, ParentPc.toSend, ← (Pipe.read_eq_some hread).2,
        List.nil_append]
  | output hpc =>
      have hlive : s.parent.ended = false := by rw [hpc]; rfl
      refine h.of_pending hlive (h.2 hlive).1 ?_
      simp only [pending, hpc, ParentPc.toPrint, ParentPc.toSend, List.nil_append,
        List.append_assoc]
  | @fail n buf hpc hn =>
      have hlive : s.parent.ended = false := by rw [hpc]; rfl
      refine ⟨?_, by simp [ParentPc.ended]⟩
      have hall := (h.2 hlive).2
      simp only [pending, hpc, ParentPc.toPrint] at hall
      have hpart : s.stdout ++ buf.take n <+: s.stdout ++ buf :=
        (List.prefix_append_right_inj _).2 (List.take_prefix n buf)
      refine hpart.trans ⟨s.inbound.content ++ (s.child.toSend ++
        (s.outbound.content ++ ((ParentPc.output buf).toSend ++ s.stdin)).map toupper), ?_⟩
      simpa only [List.append_assoc] using hall
  | childCloseOutbound hpc =>
      refine ⟨h.1, fun hlive => ⟨rfl, ?_⟩⟩
      have hall := (h.2 hlive).2
      simpa only [pending, hpc, ChildPc.toSend] using hall
  | childCloseInbound hpc =>
      refine ⟨h.1, fun hlive => ⟨rfl, ?_⟩⟩
      have hall := (h.2 hlive).2
      simpa only [pending, hpc, ChildPc.toSend] using hall
  | childExit hpc hpipe hended =>
      refine ⟨h.1, fun hlive => ?_⟩
      simp only [hended] at hlive
      cases hlive
  | childReceive hpc hpos hread =>
      refine ⟨h.1, fun hlive => ⟨rfl, ?_⟩⟩
      have hall := (h.2 hlive).2
      simp only [pending, hpc, ChildPc.toSend, ← (Pipe.read_eq_some hread).2,
        List.append_nil] at hall ⊢
      rw [← hall]
      simp only [List.map_append, List.append_assoc]
  | childSend hpc hwrite =>
      refine ⟨h.1, fun hlive => ⟨rfl, ?_⟩⟩
      have hall := (h.2 hlive).2
      simp only [pending, hpc, ChildPc.toSend, Pipe.write_eq_some hwrite, List.append_nil] at hall ⊢
      rw [← hall]
      simp only [List.append_assoc]
  | childSigpipe hpc hended =>
      refine ⟨h.1, fun hlive => ?_⟩
      simp only [hended] at hlive
      cases hlive

theorem Flow.of_step {input : List Byte} {s s' : State cap} {a : Act} (h : Flow input s)
    (hs : step s a = some s') : Flow input s' := h.of_move (Move.of_step hs)

end ChangeCase
