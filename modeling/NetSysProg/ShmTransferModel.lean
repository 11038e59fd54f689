/-
**A stream through a shared-memory segment (`HW9/54_1`).**

The writer copies its standard input, one chunk at a time, into a segment that the reader copies to
its standard output.  Two semaphores pass the segment back and forth: the writer reserves
`WRITE_SEM` before it fills the segment and releases `READ_SEM` after, the reader the other way
around.  A chunk of no bytes tells the reader that the input has ended; the writer then waits for
the reader once more before it removes the semaphores.

Every operation on a semaphore, every `read` into the buffer and `write` from it, and every access
to `shmp->cnt` is one step, in the order of the program.  The writer looks at `shmp->cnt` twice
after it has released `READ_SEM`, while the segment already belongs to the reader.

Main definitions:

* `ShmTransfer.ShmSeg` — the segment, with the size of its buffer;
* `ShmTransfer.WriterPc`, `ShmTransfer.ReaderPc` — where the two processes are;
* `ShmTransfer.step` — one step of one of them.

Main results:

* `ShmTransfer.readerStep_seg`, `ShmTransfer.writerStep_seg` — only the two storing steps of the
  writer change the segment.
-/

import NetSysProg.CInt
import NetSysProg.Runs

set_option relaxedAutoImplicit false
set_option autoImplicit false

namespace ShmTransfer

/-! ### The segment and the semaphores -/

/-- `BUF_SIZE`. -/
def bufSize : ℕ := 1024

/-- `struct shmseg`. -/
structure ShmSeg where
  cnt : ℤ
  buf : List UInt8
  buf_length : buf.length = bufSize

/-- The segment after `bs` has been stored at the start of `buf`. -/
def ShmSeg.fill (seg : ShmSeg) (bs : List UInt8) : ShmSeg where
  cnt := seg.cnt
  buf := (bs ++ seg.buf.drop bs.length).take bufSize
  buf_length := by
    have := seg.buf_length
    simp only [List.length_take, List.length_append, List.length_drop]
    omega

/-- What was stored can be read back. -/
theorem ShmSeg.take_fill (seg : ShmSeg) (bs : List UInt8) (h : bs.length ≤ bufSize) :
    (seg.fill bs).buf.take bs.length = bs := by
  simp only [ShmSeg.fill, List.take_take, Nat.min_eq_left h]
  exact List.take_left

/-- The values of the two semaphores of the set. -/
structure Sems where
  write : ℕ
  read : ℕ
  deriving DecidableEq

/-! ### The processes -/

/-- The next operation of the writer. -/
inductive WriterPc
  /-- `reserveSem(semid, WRITE_SEM)` at the head of the loop. -/
  | reserve
  /-- `read(STDIN_FILENO, shmp->buf, BUF_SIZE)`. -/
  | read
  /-- The store of what `read` returned to `shmp->cnt`. -/
  | storeCnt (n : ℤ)
  /-- `if (shmp->cnt == -1)`. -/
  | testErr
  /-- `releaseSem(semid, READ_SEM)`. -/
  | release
  /-- `if (shmp->cnt == 0)`. -/
  | testEnd
  /-- `xfrs++, bytes += shmp->cnt`. -/
  | advance
  /-- `reserveSem(semid, WRITE_SEM)` after the loop. -/
  | reserveEnd
  /-- `semctl(semid, 0, IPC_RMID, dummy)`. -/
  | rmid
  /-- `munmap`. -/
  | unmap
  /-- `shm_unlink`. -/
  | unlink
  /-- The totals have been printed. -/
  | done
  /-- `exit(1)`. -/
  | failed
  deriving DecidableEq

/-- The next operation of the reader. -/
inductive ReaderPc
  /-- `reserveSem(semid, READ_SEM)`. -/
  | reserve
  /-- `if(shmp->cnt == 0)`. -/
  | testEnd
  /-- `bytes += shmp->cnt`. -/
  | addBytes
  /-- The load of `shmp->cnt` for the third argument of `write`. -/
  | loadLen
  /-- `write(STDOUT_FILENO, shmp->buf, n)`. -/
  | write (n : ℤ)
  /-- The comparison of what `write` returned with `shmp->cnt`. -/
  | compare (n : ℤ)
  /-- `releaseSem(semid, WRITE_SEM)` in the loop. -/
  | release
  /-- `xfrs++`. -/
  | advance
  /-- `munmap`. -/
  | unmap
  /-- `releaseSem(semid, WRITE_SEM)` after the loop. -/
  | releaseEnd
  /-- The totals have been printed. -/
  | done
  /-- `exit(1)`. -/
  | failed
  deriving DecidableEq

/-- The shared objects, the local variables of the two processes, what is left of the input and
what has been written.  There is no semaphore set once it has been removed. -/
structure State where
  seg : ShmSeg
  sems : Option Sems
  wpc : WriterPc
  wbytes : ℤ
  wxfrs : ℤ
  stdin : List UInt8
  rpc : ReaderPc
  rbytes : ℤ
  rxfrs : ℤ
  stdout : List UInt8

/-- Both processes are at the head of their loop, and the segment holds whatever it held. -/
def init (input : List UInt8) (seg : ShmSeg) : State where
  seg := seg
  sems := some ⟨1, 0⟩
  wpc := .reserve
  wbytes := 0
  wxfrs := 0
  stdin := input
  rpc := .reserve
  rbytes := 0
  rxfrs := 0
  stdout := []

/-- One step of the writer.  The number `k` is how many bytes a `read` returns: at least one and at
most `BUF_SIZE` while there is input, and none at its end. -/
def writerStep (s : State) (k : ℕ) : Option State :=
  match s.wpc with
  | .reserve =>
      match s.sems with
      | none => some { s with wpc := .failed }
      | some v =>
          if 0 < v.write then
            some { s with sems := some { v with write := v.write - 1 }, wpc := .read }
          else none
  | .read =>
      if (s.stdin = [] ∧ k = 0) ∨ (0 < k ∧ k ≤ bufSize ∧ k ≤ s.stdin.length) then
        some { s with
          seg := s.seg.fill (s.stdin.take k)
          stdin := s.stdin.drop k
          wpc := .storeCnt k }
      else none
  | .storeCnt n => some { s with seg := { s.seg with cnt := n }, wpc := .testErr }
  | .testErr => some { s with wpc := if s.seg.cnt = -1 then .failed else .release }
  | .release =>
      match s.sems with
      | none => some { s with wpc := .failed }
      | some v => some { s with sems := some { v with read := v.read + 1 }, wpc := .testEnd }
  | .testEnd => some { s with wpc := if s.seg.cnt = 0 then .reserveEnd else .advance }
  | .advance =>
      some { s with
        wxfrs := CInt.wrap (s.wxfrs + 1)
        wbytes := CInt.wrap (s.wbytes + s.seg.cnt)
        wpc := .reserve }
  | .reserveEnd =>
      match s.sems with
      | none => some { s with wpc := .failed }
      | some v =>
          if 0 < v.write then
            some { s with sems := some { v with write := v.write - 1 }, wpc := .rmid }
          else none
  | .rmid => some { s with sems := none, wpc := .unmap }
  | .unmap => some { s with wpc := .unlink }
  | .unlink => some { s with wpc := .done }
  | .done => none
  | .failed => none

/-- One step of the reader. -/
def readerStep (s : State) : Option State :=
  match s.rpc with
  | .reserve =>
      match s.sems with
      | none => some { s with rpc := .failed }
      | some v =>
          if 0 < v.read then
            some { s with sems := some { v with read := v.read - 1 }, rpc := .testEnd }
          else none
  | .testEnd => some { s with rpc := if s.seg.cnt = 0 then .unmap else .addBytes }
  | .addBytes => some { s with rbytes := CInt.wrap (s.rbytes + s.seg.cnt), rpc := .loadLen }
  | .loadLen => some { s with rpc := .write s.seg.cnt }
  | .write n => some { s with stdout := s.stdout ++ s.seg.buf.take n.toNat, rpc := .compare n }
  | .compare n => some { s with rpc := if n ≠ s.seg.cnt then .failed else .release }
  | .release =>
      match s.sems with
      | none => some { s with rpc := .failed }
      | some v => some { s with sems := some { v with write := v.write + 1 }, rpc := .advance }
  | .advance => some { s with rxfrs := CInt.wrap (s.rxfrs + 1), rpc := .reserve }
  | .unmap => some { s with rpc := .releaseEnd }
  | .releaseEnd =>
      match s.sems with
      | none => some { s with rpc := .failed }
      | some v => some { s with sems := some { v with write := v.write + 1 }, rpc := .done }
  | .done => none
  | .failed => none

/-- Which process takes the next step, and how much a `read` returns. -/
inductive Act
  | writer (k : ℕ)
  | reader

/-- One step of the system. -/
def step (s : State) : Act → Option State
  | .writer k => writerStep s k
  | .reader => readerStep s

/-! ### Who changes the segment -/

/-- The operations of the writer that store to the segment. -/
def WriterPc.Stores : WriterPc → Prop
  | .read => True
  | .storeCnt _ => True
  | _ => False

/-- The reader is between its `reserveSem(READ_SEM)` and the `releaseSem(WRITE_SEM)` that
follows it. -/
def ReaderPc.Critical : ReaderPc → Prop
  | .reserve => False
  | .advance => False
  | .done => False
  | .failed => False
  | _ => True

/-- The reader never changes the segment. -/
theorem readerStep_seg {s s' : State} (h : readerStep s = some s') : s'.seg = s.seg := by
  unfold readerStep at h
  split at h <;> (try split at h) <;> (try split at h) <;> first
    | (obtain rfl := Option.some.inj h; rfl)
    | simp at h

/-- The writer changes the segment in its storing steps only. -/
theorem writerStep_seg {s s' : State} {k : ℕ} (h : writerStep s k = some s')
    (hs : ¬ s.wpc.Stores) : s'.seg = s.seg := by
  unfold writerStep at h
  split at h <;> (try split at h) <;> (try split at h) <;> first
    | (obtain rfl := Option.some.inj h; rfl)
    | (obtain rfl := Option.some.inj h; simp_all [WriterPc.Stores])
    | simp at h

end ShmTransfer
