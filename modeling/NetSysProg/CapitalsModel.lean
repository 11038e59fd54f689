/-
**Two processes that capitalise a line (`HW6/44_1.c`).**

The parent reads its standard input once, sends what it got through a pipe to its child, and prints
what comes back through a second pipe.  The child replaces lower-case letters by capitals until the
first pipe is at its end.  Each process keeps the bytes in one buffer, and what it sends is the
string in this buffer, not the bytes that its `read` has returned.

Every `read`, every `write` and every change to a buffer is one step.  Each process starts behind
the calls of `close` for the ends of the pipes that it does not use.  A `read` returns any part of
what is there, at least one byte; it blocks on an empty pipe whose other end is open.

Main definitions:

* `Capitals.convert` — the loop over the string in the buffer;
* `Capitals.step` — one step of the parent or of the child.

Main results:

* `Capitals.convert_pad` — **the loop capitalises the string** and leaves the rest of the buffer;
* `Capitals.readInto_pad` — what a `read` leaves of an earlier string;
* `Capitals.Move.of_step` — everything a step can do.
-/

import NetSysProg.CString
import NetSysProg.Runs

set_option relaxedAutoImplicit false
set_option autoImplicit false

namespace Capitals

open CString

/-! ### Buffers -/

/-- `BUFFER_SIZE` -/
def bufferSize : ℕ := 128

/-- A letter from `a` to `z`. -/
def IsLower (b : Byte) : Prop := 97 ≤ b ∧ b ≤ 122

instance (b : Byte) : Decidable (IsLower b) :=
  inferInstanceAs (Decidable (_ ∧ _))

/-- The capital of a lower-case letter; every other byte is left as it is. -/
def capital (b : Byte) : Byte := if IsLower b then b - 97 + 65 else b

/-- `for(i = 0; i < strlen(buf); i++)`, from the index `i` on, for at most `fuel` iterations. -/
def convertFrom : ℕ → ℕ → List Byte → Outcome (List Byte)
  | 0, _, _ => .timeout
  | fuel + 1, i, buf => do
      let len ← strlen buf
      if i < len then convertFrom fuel (i + 1) (buf.modify i capital) else return buf

/-- The loop of the child; more iterations than there are bytes in the buffer are never made. -/
def convert (buf : List Byte) : Outcome (List Byte) := convertFrom (bufferSize + 1) 0 buf

/-- What `read` leaves in the buffer when it returns the bytes `bs`. -/
def readInto (buf bs : List Byte) : List Byte := bs ++ buf.drop bs.length

theorem capital_ne_nul {b : Byte} (h : b ≠ nul) : capital b ≠ nul := by
  unfold capital
  split
  · next hb =>
      have h1 := UInt8.le_iff_toNat_le.1 hb.1
      have h2 := UInt8.le_iff_toNat_le.1 hb.2
      simp only [UInt8.reduceToNat] at h1 h2
      intro hnul
      have hnat := congrArg UInt8.toNat hnul
      simp only [UInt8.toNat_add, UInt8.toNat_sub, nul, UInt8.reduceToNat] at hnat
      omega
  · exact h

theorem nul_notMem_map_capital {s : List Byte} (h : nul ∉ s) : nul ∉ s.map capital := by
  intro hmem
  obtain ⟨b, hb, hnul⟩ := List.mem_map.1 hmem
  exact capital_ne_nul (fun h0 => h (h0 ▸ hb)) hnul

theorem capital_of_not_isLower {b : Byte} (h : ¬ IsLower b) : capital b = b := if_neg h

/-- The loop from the index behind `pre` on. -/
theorem convertFrom_append (pre : List Byte) {s : List Byte} (t : List Byte) (hpre : nul ∉ pre)
    (hs : nul ∉ s) {fuel : ℕ} (hfuel : s.length < fuel) :
    convertFrom fuel pre.length (pre ++ (s ++ nul :: t)) =
      .ok (pre ++ (s.map capital ++ nul :: t)) := by
  induction s generalizing pre fuel with
  | nil =>
      obtain ⟨fuel, rfl⟩ := Nat.exists_eq_add_of_lt hfuel
      rw [List.length_nil, Nat.zero_add, convertFrom, List.nil_append, strlen, str_append hpre,
        Outcome.bind_ok, Outcome.pure_eq, Outcome.bind_ok, if_neg (Nat.lt_irrefl _)]
      rfl
  | cons b s ih =>
      obtain ⟨fuel, rfl⟩ : ∃ k, fuel = k + 1 := ⟨fuel - 1, by omega⟩
      rw [List.mem_cons, not_or] at hs
      have hlen : strlen (pre ++ (b :: s ++ nul :: t)) = .ok (pre ++ b :: s).length := by
        have hmem : nul ∉ pre ++ b :: s := by simp [hpre, hs.1, hs.2]
        rw [strlen, ← List.append_assoc, str_append hmem]
        rfl
      have hmod : (pre ++ (b :: s ++ nul :: t)).modify pre.length capital =
          (pre ++ [capital b]) ++ (s ++ nul :: t) := by
        rw [List.modify_eq_take_cons_drop (by simp)]
        simp
      have hpre' : nul ∉ pre ++ [capital b] := by
        simp [hpre, (capital_ne_nul (Ne.symm hs.1)).symm]
      have hfuel' : s.length < fuel := Nat.lt_of_succ_lt_succ hfuel
      have hih := ih (pre ++ [capital b]) hpre' hs.2 hfuel'
      rw [List.length_append, List.length_singleton] at hih
      rw [convertFrom, hlen, Outcome.bind_ok, if_pos (by simp), hmod, hih]
      simp

/-- **The loop capitalises the string in the buffer.** -/
theorem convert_pad {s : List Byte} (hlen : s.length < bufferSize) (hs : nul ∉ s) :
    convert (pad bufferSize s) = .ok (pad bufferSize (s.map capital)) := by
  have hfuel : s.length < bufferSize + 1 := Nat.lt_succ_of_lt hlen
  have hloop := convertFrom_append [] (List.replicate (bufferSize - s.length - 1) nul)
    (by simp) hs hfuel
  rw [pad_eq_cons hlen, pad_eq_cons (by rwa [List.length_map]), List.length_map]
  exact hloop

/-- **What is left of an earlier string**: whatever is longer than the bytes that have been read. -/
theorem readInto_pad {n : ℕ} {s bs : List Byte} (hs : s.length ≤ n) (hbs : bs.length ≤ n) :
    readInto (pad n s) bs = pad n (bs ++ s.drop bs.length) := by
  rw [readInto, pad, pad, List.drop_append, List.drop_replicate, List.append_assoc]
  congr 3
  simp only [List.length_append, List.length_drop]
  omega

/-- Nothing is left of a string that is not longer. -/
theorem readInto_pad_of_le {n : ℕ} {s bs : List Byte} (h : s.length ≤ bs.length)
    (hbs : bs.length ≤ n) : readInto (pad n s) bs = pad n bs := by
  rw [readInto_pad (h.trans hbs) hbs, List.drop_eq_nil_of_le h, List.append_nil]

/-! ### The processes -/

/-- `"Enter the input:"` -/
def prompt : List Byte := lit "Enter the input:"

/-- The call at which the parent is. -/
inductive ParentPc
  /-- `write` of the prompt -/
  | prompt
  /-- `read` from the standard input -/
  | input
  /-- `write` to the first pipe -/
  | send
  /-- `close` of the first pipe -/
  | closeSend
  /-- `read` from the second pipe -/
  | receive
  /-- `write` to the standard output -/
  | output
  /-- `close` of the second pipe -/
  | closeReceive
  | wait
  | exited
  | fault
  deriving DecidableEq

/-- The call, or the loop, at which the child is. -/
inductive ChildPc
  /-- `read` from the first pipe -/
  | receive
  | convert
  /-- `write` to the second pipe -/
  | send
  /-- `close` of both pipes -/
  | close
  | exited
  /-- It has been killed by `SIGPIPE`. -/
  | killed
  | fault
  deriving DecidableEq

structure State where
  /-- What is left of the standard input. -/
  stdin : List Byte
  stdout : List Byte
  parent : ParentPc
  parentBuf : List Byte
  child : ChildPc
  childBuf : List Byte
  pipe1 : List Byte
  pipe2 : List Byte
  deriving DecidableEq

/-- The state after `fork`. -/
def init (stdin : List Byte) : State :=
  ⟨stdin, [], .prompt, pad bufferSize [], .receive, pad bufferSize [], [], []⟩

/-- The parent has the write end of the first pipe open. -/
def ParentPc.holds1 : ParentPc → Bool
  | .prompt | .input | .send | .closeSend => true
  | _ => false

/-- The parent has the read end of the second pipe open. -/
def ParentPc.holds2 : ParentPc → Bool
  | .wait | .exited => false
  | _ => true

/-- The child has ended, and its ends of the pipes are closed. -/
def ChildPc.ended : ChildPc → Bool
  | .exited | .killed => true
  | _ => false

/-- A `read` that returns `n` of the bytes `avail`; when there are none it returns `0` at the end of
the stream. -/
def CanRead (avail : List Byte) (atEnd : Bool) (n : ℕ) : Prop :=
  if avail = [] then atEnd = true ∧ n = 0 else 1 ≤ n ∧ n ≤ bufferSize ∧ n ≤ avail.length

instance (avail : List Byte) (atEnd : Bool) (n : ℕ) : Decidable (CanRead avail atEnd n) :=
  inferInstanceAs (Decidable
    (if avail = [] then atEnd = true ∧ n = 0 else 1 ≤ n ∧ n ≤ bufferSize ∧ n ≤ avail.length))

/-- One step; `n` is what a `read` returns. -/
inductive Act
  | parent (n : ℕ)
  | child (n : ℕ)
  deriving DecidableEq

def parentStep (s : State) (n : ℕ) : Option State :=
  match s.parent with
  | .prompt => some { s with stdout := s.stdout ++ prompt, parent := .input }
  | .input =>
      if CanRead s.stdin true n then
        some { s with
          stdin := s.stdin.drop n
          parentBuf := readInto s.parentBuf (s.stdin.take n)
          parent := .send }
      else none
  | .send =>
      match str s.parentBuf with
      | .ok bs => some { s with pipe1 := s.pipe1 ++ bs, parent := .closeSend }
      | _ => some { s with parent := .fault }
  | .closeSend => some { s with parent := .receive }
  | .receive =>
      if CanRead s.pipe2 s.child.ended n then
        some { s with
          pipe2 := s.pipe2.drop n
          parentBuf := readInto s.parentBuf (s.pipe2.take n)
          parent := .output }
      else none
  | .output =>
      match str s.parentBuf with
      | .ok bs => some { s with stdout := s.stdout ++ bs, parent := .closeReceive }
      | _ => some { s with parent := .fault }
  | .closeReceive => some { s with parent := .wait }
  | .wait => if s.child.ended then some { s with parent := .exited } else none
  | .exited => none
  | .fault => none

def childStep (s : State) (n : ℕ) : Option State :=
  match s.child with
  | .receive =>
      if CanRead s.pipe1 (!s.parent.holds1) n then
        if n = 0 then some { s with child := .close }
        else
          some { s with
            pipe1 := s.pipe1.drop n
            childBuf := readInto s.childBuf (s.pipe1.take n)
            child := .convert }
      else none
  | .convert =>
      match convert s.childBuf with
      | .ok buf => some { s with childBuf := buf, child := .send }
      | _ => some { s with child := .fault }
  | .send =>
      if s.parent.holds2 then
        match str s.childBuf with
        | .ok bs => some { s with pipe2 := s.pipe2 ++ bs, child := .receive }
        | _ => some { s with child := .fault }
      else some { s with child := .killed }
  | .close => some { s with child := .exited }
  | .exited => none
  | .killed => none
  | .fault => none

def step (s : State) : Act → Option State
  | .parent n => parentStep s n
  | .child n => childStep s n

/-! ### What a step can do -/

/-- Everything a step can do. -/
inductive Move (s : State) : Act → State → Prop
  | prompt {n : ℕ} (hpc : s.parent = .prompt) :
      Move s (.parent n) { s with stdout := s.stdout ++ Capitals.prompt, parent := .input }
  | input {n : ℕ} (hpc : s.parent = .input) (hread : CanRead s.stdin true n) :
      Move s (.parent n) { s with
        stdin := s.stdin.drop n
        parentBuf := readInto s.parentBuf (s.stdin.take n)
        parent := .send }
  | send {n : ℕ} {bs : List Byte} (hpc : s.parent = .send) (hstr : str s.parentBuf = .ok bs) :
      Move s (.parent n) { s with pipe1 := s.pipe1 ++ bs, parent := .closeSend }
  | closeSend {n : ℕ} (hpc : s.parent = .closeSend) :
      Move s (.parent n) { s with parent := .receive }
  | receive {n : ℕ} (hpc : s.parent = .receive) (hread : CanRead s.pipe2 s.child.ended n) :
      Move s (.parent n) { s with
        pipe2 := s.pipe2.drop n
        parentBuf := readInto s.parentBuf (s.pipe2.take n)
        parent := .output }
  | output {n : ℕ} {bs : List Byte} (hpc : s.parent = .output) (hstr : str s.parentBuf = .ok bs) :
      Move s (.parent n) { s with stdout := s.stdout ++ bs, parent := .closeReceive }
  | parentFault {n : ℕ} (hpc : s.parent = .send ∨ s.parent = .output)
      (hstr : ∀ bs, str s.parentBuf ≠ .ok bs) :
      Move s (.parent n) { s with parent := .fault }
  | closeReceive {n : ℕ} (hpc : s.parent = .closeReceive) :
      Move s (.parent n) { s with parent := .wait }
  | wait {n : ℕ} (hpc : s.parent = .wait) (hended : s.child.ended = true) :
      Move s (.parent n) { s with parent := .exited }
  | childEof {n : ℕ} (hpc : s.child = .receive) (hpipe : s.pipe1 = [])
      (hclosed : s.parent.holds1 = false) : Move s (.child n) { s with child := .close }
  | childReceive {n : ℕ} (hpc : s.child = .receive) (hpipe : s.pipe1 ≠ []) (hsize : n ≤ bufferSize)
      (hlen : n ≤ s.pipe1.length) :
      Move s (.child n) { s with
        pipe1 := s.pipe1.drop n
        childBuf := readInto s.childBuf (s.pipe1.take n)
        child := .convert }
  | childConvert {n : ℕ} {buf : List Byte} (hpc : s.child = .convert)
      (hconv : convert s.childBuf = .ok buf) :
      Move s (.child n) { s with childBuf := buf, child := .send }
  | childSend {n : ℕ} {bs : List Byte} (hpc : s.child = .send) (hholds : s.parent.holds2 = true)
      (hstr : str s.childBuf = .ok bs) :
      Move s (.child n) { s with pipe2 := s.pipe2 ++ bs, child := .receive }
  | childKilled {n : ℕ} (hpc : s.child = .send) (hholds : s.parent.holds2 = false) :
      Move s (.child n) { s with child := .killed }
  | childFault {n : ℕ} (hfault : s.child = .convert ∧ (∀ buf, convert s.childBuf ≠ .ok buf) ∨
        s.child = .send ∧ s.parent.holds2 = true ∧ ∀ bs, str s.childBuf ≠ .ok bs) :
      Move s (.child n) { s with child := .fault }
  | childClose {n : ℕ} (hpc : s.child = .close) : Move s (.child n) { s with child := .exited }

theorem Move.of_parentStep {s s' : State} {n : ℕ} (h : parentStep s n = some s') :
    Move s (.parent n) s' := by
  unfold parentStep at h
  split at h
  · next hpc =>
      obtain rfl := Option.some.inj h
      exact .prompt hpc
  · next hpc =>
      split at h
      · next hread =>
          obtain rfl := Option.some.inj h
          exact .input hpc hread
      · cases h
  · next hpc =>
      split at h
      · next bs hstr =>
          obtain rfl := Option.some.inj h
          exact .send hpc hstr
      · next hstr =>
          obtain rfl := Option.some.inj h
          exact .parentFault (Or.inl hpc) hstr
  · next hpc =>
      obtain rfl := Option.some.inj h
      exact .closeSend hpc
  · next hpc =>
      split at h
      · next hread =>
          obtain rfl := Option.some.inj h
          exact .receive hpc hread
      · cases h
  · next hpc =>
      split at h
      · next bs hstr =>
          obtain rfl := Option.some.inj h
          exact .output hpc hstr
      · next hstr =>
          obtain rfl := Option.some.inj h
          exact .parentFault (Or.inr hpc) hstr
  · next hpc =>
      obtain rfl := Option.some.inj h
      exact .closeReceive hpc
  · next hpc =>
      split at h
      · next hended =>
          obtain rfl := Option.some.inj h
          exact .wait hpc hended
      · cases h
  · cases h
  · cases h

theorem Move.of_childStep {s s' : State} {n : ℕ} (h : childStep s n = some s') :
    Move s (.child n) s' := by
  unfold childStep at h
  split at h
  · next hpc =>
      split at h
      · next hread =>
          unfold CanRead at hread
          split at hread
          · next hpipe =>
              rw [if_pos hread.2] at h
              obtain rfl := Option.some.inj h
              exact .childEof hpc hpipe (by simpa using hread.1)
          · next hpipe =>
              rw [if_neg (by omega)] at h
              obtain rfl := Option.some.inj h
              exact .childReceive hpc hpipe hread.2.1 hread.2.2
      · cases h
  · next hpc =>
      split at h
      · next buf hconv =>
          obtain rfl := Option.some.inj h
          exact .childConvert hpc hconv
      · next hconv =>
          obtain rfl := Option.some.inj h
          exact .childFault (Or.inl ⟨hpc, hconv⟩)
  · next hpc =>
      split at h
      · next hholds =>
          split at h
          · next bs hstr =>
              obtain rfl := Option.some.inj h
              exact .childSend hpc hholds hstr
          · next hstr =>
              obtain rfl := Option.some.inj h
              exact .childFault (Or.inr ⟨hpc, hholds, hstr⟩)
      · next hholds =>
          obtain rfl := Option.some.inj h
          exact .childKilled hpc (by simpa using hholds)
  · next hpc =>
      obtain rfl := Option.some.inj h
      exact .childClose hpc
  · cases h
  · cases h
  · cases h

/-- **Every step is one of the moves.** -/
theorem Move.of_step {s s' : State} {a : Act} (h : step s a = some s') : Move s a s' := by
  cases a with
  | parent n => exact Move.of_parentStep h
  | child n => exact Move.of_childStep h

end Capitals
