/-
**Pipes of bounded capacity.**

A pipe holds what has been written and not yet read, in order.  It has a capacity, and a value of
the type never exceeds it: a `write` that does not fit is not possible, and its process waits.  What
a process can read and what becomes of the order of the elements is said here once, for elements of
any type; which processes have the ends of a pipe open is for the system to say that uses it.

Main definitions:

* `Pipes.Pipe` — a pipe;
* `Pipes.Pipe.write`, `Pipes.Pipe.read` — moving elements into it and out of it;
* `Pipes.Carries` — what has come out, what is in the pipe and what is still to be written are,
  together, what there was to send.

Main results:

* `Pipes.Carries.write`, `Pipes.Carries.read` — **nothing is lost, doubled or reordered**;
* `Pipes.Carries.prefixOf`, `Pipes.Carries.eq_of_empty` — what has come out is always a prefix of
  what is sent, and all of it when the pipe is empty and nothing is left to write;
* `Pipes.Pipe.exists_write`, `Pipes.Pipe.exists_read` — when a process need not wait.
-/

import Mathlib.Data.List.Basic
import Mathlib.Tactic.Common

set_option relaxedAutoImplicit false
set_option autoImplicit false

namespace Pipes

variable {α : Type*} {cap : ℕ}

/-- A pipe of the capacity `cap`. -/
structure Pipe (α : Type*) (cap : ℕ) where
  content : List α
  length_le : content.length ≤ cap
  deriving DecidableEq

namespace Pipe

@[ext] theorem ext {p q : Pipe α cap} (h : p.content = q.content) : p = q := by
  cases p
  cases q
  cases h
  rfl

/-- A new pipe. -/
def empty (α : Type*) (cap : ℕ) : Pipe α cap := ⟨[], Nat.zero_le _⟩

@[simp] theorem content_empty : (empty α cap).content = [] := rfl

/-- How many elements still fit. -/
def room (p : Pipe α cap) : ℕ := cap - p.content.length

theorem length_append_le {p : Pipe α cap} {bs : List α} (h : bs.length ≤ p.room) :
    (p.content ++ bs).length ≤ cap := by
  have hcap := p.length_le
  rw [List.length_append]
  unfold room at h
  omega

theorem length_drop_le (p : Pipe α cap) (n : ℕ) : (p.content.drop n).length ≤ cap := by
  have hcap := p.length_le
  rw [List.length_drop]
  omega

/-- The elements `bs` are written at once; `none` when they do not fit. -/
def write (p : Pipe α cap) (bs : List α) : Option (Pipe α cap) :=
  if h : bs.length ≤ p.room then some ⟨p.content ++ bs, length_append_le h⟩ else none

/-- The first `n` elements, and the pipe without them; `none` when there are not so many. -/
def read (p : Pipe α cap) (n : ℕ) : Option (List α × Pipe α cap) :=
  if n ≤ p.content.length then
    some (p.content.take n, ⟨p.content.drop n, length_drop_le p n⟩) else none

theorem write_eq_some {p p' : Pipe α cap} {bs : List α} (h : p.write bs = some p') :
    p'.content = p.content ++ bs := by
  unfold write at h
  split at h
  · obtain rfl := Option.some.inj h
    rfl
  · cases h

theorem read_eq_some {p p' : Pipe α cap} {n : ℕ} {bs : List α} (h : p.read n = some (bs, p')) :
    bs.length = n ∧ bs ++ p'.content = p.content := by
  unfold read at h
  split at h
  · next hn =>
      cases h
      exact ⟨List.length_take_of_le hn, List.take_append_drop n p.content⟩
  · cases h

/-- Where there is room, a process can write. -/
theorem exists_write {p : Pipe α cap} {bs : List α} (h : bs.length ≤ p.room) :
    ∃ p', p.write bs = some p' := ⟨_, dif_pos h⟩

/-- Where there is something, a process can read. -/
theorem exists_read {p : Pipe α cap} {n : ℕ} (h : n ≤ p.content.length) :
    ∃ bs p', p.read n = some (bs, p') := ⟨_, _, if_pos h⟩

theorem room_of_content_nil {p : Pipe α cap} (h : p.content = []) : p.room = cap := by
  rw [room, h, List.length_nil, Nat.sub_zero]

end Pipe

/-! ### What a pipe carries -/

/-- Of `all`, the part `out` has come out of the pipe, and `rest` has not been written yet. -/
def Carries (all out : List α) (p : Pipe α cap) (rest : List α) : Prop :=
  out ++ p.content ++ rest = all

namespace Carries

variable {all out rest : List α} {p p' : Pipe α cap}

theorem start (all : List α) : Carries all [] (Pipe.empty α cap) all := rfl

/-- **Writing keeps the order**: what has been written is what is no longer to be written. -/
theorem write {bs : List α} (h : Carries all out p (bs ++ rest)) (hw : p.write bs = some p') :
    Carries all out p' rest := by
  rw [Carries, Pipe.write_eq_some hw]
  rw [Carries] at h
  rw [← h]
  simp only [List.append_assoc]

/-- **Reading keeps the order.** -/
theorem read {n : ℕ} {bs : List α} (h : Carries all out p rest) (hr : p.read n = some (bs, p')) :
    Carries all (out ++ bs) p' rest := by
  rw [Carries] at h ⊢
  rw [← h, ← (Pipe.read_eq_some hr).2]
  simp only [List.append_assoc]

/-- What has come out is a prefix of what is sent. -/
theorem prefixOf (h : Carries all out p rest) : out <+: all :=
  ⟨p.content ++ rest, by rw [← List.append_assoc]; exact h⟩

/-- **All of it has come out** when the pipe is empty and nothing is left to write. -/
theorem eq_of_empty (h : Carries all out p []) (hp : p.content = []) : out = all := by
  rw [Carries, hp, List.append_nil, List.append_nil] at h
  exact h

end Carries

end Pipes
