/-
**The shared-memory transfer comes to an end (`HW9/54_1`).**

`NetSysProg/ShmTransfer.lean` says what has been delivered once both programs have finished, and
`NetSysProg/ShmTransferShutdown.lean` that one of them can go on until then.  Neither keeps the two
from passing the segment back and forth for ever.  What does is that every round but the last takes
a byte from the input: the operations that a process still has to make are bounded by the bytes it
has not dealt with.  For the writer these are the bytes it has not read, for the reader those it has
not written.

Main definitions:

* `ShmTransfer.WriterPc.weight`, `ShmTransfer.ReaderPc.weight` — the operations up to the next
  `reserveSem` of the loop, or to the end;
* `ShmTransfer.left` — what bounds the operations of both processes from a state on.

Main results:

* `ShmTransfer.left_lt_of_step` — **every operation lowers the bound**;
* `ShmTransfer.completes` — **every run ends, with the whole input delivered**.
-/

import NetSysProg.Completion
import NetSysProg.ShmTransferShutdown

set_option relaxedAutoImplicit false
set_option autoImplicit false

namespace ShmTransfer

/-! ### What is left to be done -/

/-- The operations of the writer in the round that it is in.  A chunk in the segment that is not
empty means one more round. -/
def WriterPc.weight (cnt : ℤ) : WriterPc → ℕ
  | .reserve => 10
  | .read => 9
  | .storeCnt n => if n = 0 then 8 else 15
  | .testErr => if cnt = 0 then 7 else 14
  | .release => if cnt = 0 then 6 else 13
  | .testEnd => if cnt = 0 then 5 else 12
  | .advance => 11
  | .reserveEnd => 4
  | .rmid => 3
  | .unmap => 2
  | .unlink => 1
  | .done => 0
  | .failed => 0

/-- The operations of the reader in the round that it is in. -/
def ReaderPc.weight : ReaderPc → ℕ
  | .reserve => 4
  | .testEnd => 3
  | .addBytes => 2
  | .loadLen => 1
  | .write _ => 0
  | .compare _ => 7
  | .release => 6
  | .advance => 5
  | .unmap => 2
  | .releaseEnd => 1
  | .done => 0
  | .failed => 0

/-- **What is left to be done**: a round of the writer for each byte of `stdin` and one of the
reader for each byte of the input that has not been written. -/
def left (input : List UInt8) (s : State) : ℕ :=
  7 * s.stdin.length + s.wpc.weight s.seg.cnt +
    (8 * (input.length - s.stdout.length) + s.rpc.weight)

section Steps

variable {s s' : State}

/-- Every operation of the writer lowers its part, and leaves the reader and the output alone. -/
theorem weight_lt_of_writerStep {k : ℕ} (h : writerStep s k = some s') :
    7 * s'.stdin.length + s'.wpc.weight s'.seg.cnt < 7 * s.stdin.length + s.wpc.weight s.seg.cnt ∧
      s'.stdout = s.stdout ∧ s'.rpc = s.rpc := by
  unfold writerStep at h
  cases hpc : s.wpc with
  | reserve | reserveEnd =>
      rw [hpc] at h
      dsimp only at h
      split at h
      · obtain rfl := Option.some.inj h
        exact ⟨by simp only [WriterPc.weight]; omega, rfl, rfl⟩
      · split at h
        · obtain rfl := Option.some.inj h
          exact ⟨by simp only [WriterPc.weight]; omega, rfl, rfl⟩
        · cases h
  | read =>
      rw [hpc] at h
      dsimp only at h
      split at h
      · next hk =>
          obtain rfl := Option.some.inj h
          refine ⟨?_, rfl, rfl⟩
          simp only [WriterPc.weight, List.length_drop]
          rcases hk with ⟨hnil, rfl⟩ | ⟨hpos, -, hle⟩
          · -- the end of the input: no round follows
            rw [if_pos Int.natCast_zero]
            omega
          · have hne : (k : ℤ) ≠ 0 := by omega
            rw [if_neg hne]
            omega
      · cases h
  | release =>
      rw [hpc] at h
      dsimp only at h
      split at h <;>
      · obtain rfl := Option.some.inj h
        exact ⟨by simp only [WriterPc.weight]; split <;> omega, rfl, rfl⟩
  | testErr | testEnd =>
      rw [hpc] at h
      obtain rfl := Option.some.inj h
      refine ⟨?_, rfl, rfl⟩
      dsimp only
      split_ifs <;> simp only [WriterPc.weight] <;> split_ifs <;> omega
  | storeCnt n =>
      rw [hpc] at h
      obtain rfl := Option.some.inj h
      refine ⟨?_, rfl, rfl⟩
      simp only [WriterPc.weight]
      split_ifs <;> omega
  | advance | rmid | unmap | unlink =>
      rw [hpc] at h
      obtain rfl := Option.some.inj h
      exact ⟨by simp only [WriterPc.weight]; omega, rfl, rfl⟩
  | done | failed =>
      rw [hpc] at h
      cases h

/-- Every operation of the reader but the `write` lowers its part, and leaves the writer and the
output alone. -/
theorem weight_lt_of_readerStep (hwrite : ∀ n, s.rpc ≠ .write n) (h : readerStep s = some s') :
    s'.rpc.weight < s.rpc.weight ∧ s'.stdout = s.stdout ∧ s'.stdin = s.stdin ∧ s'.wpc = s.wpc := by
  unfold readerStep at h
  cases hpc : s.rpc with
  | write n => exact absurd hpc (hwrite n)
  | reserve =>
      rw [hpc] at h
      dsimp only at h
      split at h
      · obtain rfl := Option.some.inj h
        exact ⟨by simp only [ReaderPc.weight]; omega, rfl, rfl, rfl⟩
      · split at h
        · obtain rfl := Option.some.inj h
          exact ⟨by simp only [ReaderPc.weight]; omega, rfl, rfl, rfl⟩
        · cases h
  | release | releaseEnd =>
      rw [hpc] at h
      dsimp only at h
      split at h <;>
      · obtain rfl := Option.some.inj h
        exact ⟨by simp only [ReaderPc.weight]; omega, rfl, rfl, rfl⟩
  | testEnd | compare n =>
      rw [hpc] at h
      obtain rfl := Option.some.inj h
      refine ⟨?_, rfl, rfl, rfl⟩
      dsimp only
      split_ifs <;> simp only [ReaderPc.weight] <;> omega
  | addBytes | loadLen | advance | unmap =>
      rw [hpc] at h
      obtain rfl := Option.some.inj h
      exact ⟨by simp only [ReaderPc.weight]; omega, rfl, rfl, rfl⟩
  | done | failed =>
      rw [hpc] at h
      cases h

/-- The writer takes from its input with its `read` only. -/
theorem writerStep_stdin {k : ℕ} (h : writerStep s k = some s') (hread : s.wpc ≠ .read) :
    s'.stdin = s.stdin := by
  unfold writerStep at h
  cases hpc : s.wpc with
  | read => exact absurd hpc hread
  | reserve | reserveEnd =>
      rw [hpc] at h
      dsimp only at h
      split at h
      · obtain rfl := Option.some.inj h
        rfl
      · split at h
        · obtain rfl := Option.some.inj h
          rfl
        · cases h
  | release =>
      rw [hpc] at h
      dsimp only at h
      split at h <;>
      · obtain rfl := Option.some.inj h
        rfl
  | storeCnt n | testErr | testEnd | advance | rmid | unmap | unlink =>
      rw [hpc] at h
      obtain rfl := Option.some.inj h
      rfl
  | done | failed =>
      rw [hpc] at h
      cases h

end Steps

/-! ### The end -/

/-- The state is in one of the phases, and every byte of the input is on its way. -/
def Delivers (input : List UInt8) (s : State) : Prop :=
  ∃ pending, Phase s pending ∧ input = s.stdout ++ pending ++ s.stdin

section Delivers

variable {input : List UInt8} {s s' : State}

/-- **An operation neither loses nor doubles a byte**, whatever the totals are. -/
theorem Delivers.of_step {a : Act} (h : Delivers input s) (hs : step s a = some s') :
    Delivers input s' := by
  obtain ⟨pending, hphase, hsplit⟩ := h
  cases a with
  | writer k =>
      rcases hphase.wpc_cases with ⟨hw, rfl, hsems, hr⟩ | ⟨hread, -⟩
      · obtain ⟨-, hphase', rfl⟩ := Phase.of_read hsems hw hr hs
        refine ⟨_, hphase', ?_⟩
        rw [hsplit, List.append_nil, List.append_assoc, List.take_append_drop]
      · refine ⟨pending, hphase.of_writerStep hread hs, ?_⟩
        rw [(weight_lt_of_writerStep hs).2.1, writerStep_stdin hs hread]
        exact hsplit
  | reader =>
      have hother : (∀ n, s.rpc ≠ .write n) → Delivers input s' := by
        intro hwrite
        obtain ⟨-, hout, hin, -⟩ := weight_lt_of_readerStep hwrite hs
        exact ⟨pending, hphase.of_readerStep hwrite hs, by rw [hout, hin]; exact hsplit⟩
      rcases hphase.rpc_cases with ⟨n, hr | hr, hne, -, hcnt, hpending, hsems, hw⟩ | ⟨-, hwrite⟩
      · exact hother (by simp [hr])
      · obtain ⟨hphase', rfl⟩ := Phase.of_write hsems hw hr hne hcnt hs
        refine ⟨[], hphase', ?_⟩
        rw [hsplit, hpending, List.append_nil]
      · exact hother hwrite

/-- **Every operation lowers the bound.** -/
theorem left_lt_of_step {a : Act} (h : Delivers input s) (hs : step s a = some s') :
    left input s' < left input s := by
  obtain ⟨pending, hphase, hsplit⟩ := h
  cases a with
  | writer k =>
      obtain ⟨hlt, hout, hrpc⟩ := weight_lt_of_writerStep hs
      unfold left
      rw [hout, hrpc]
      exact Nat.add_lt_add_right hlt _
  | reader =>
      have hother : (∀ n, s.rpc ≠ .write n) → left input s' < left input s := by
        intro hwrite
        obtain ⟨hlt, hout, hin, hwpc⟩ := weight_lt_of_readerStep hwrite hs
        unfold left
        rw [hout, hin, hwpc, readerStep_seg hs]
        exact Nat.add_lt_add_left (Nat.add_lt_add_left hlt _) _
      rcases hphase.rpc_cases with ⟨n, hr | hr, hne, hsize, hcnt, hpending, hsems, hw⟩ | ⟨-, hwrite⟩
      · exact hother (by simp [hr])
      · -- the bytes that are written are none of those that were left
        have hlen : (s.seg.buf.take n).length = n :=
          List.length_take_of_le (by rw [s.seg.buf_length]; exact hsize)
        have htotal : input.length = s.stdout.length + n + s.stdin.length := by
          rw [hsplit, hpending, List.length_append, List.length_append, hlen]
        obtain ⟨-, rfl⟩ := Phase.of_write hsems hw hr hne hcnt hs
        simp only [left, hr, ReaderPc.weight, List.length_append, hlen]
        omega
      · exact hother hwrite

end Delivers

/-- The writer prints its totals after it has removed the semaphores. -/
theorem Phase.sems_of_done {s : State} {pending : List UInt8} (h : Phase s pending)
    (hw : s.wpc = .done) : s.sems = none := by
  have hbetween : ∀ {pc : WriterPc} {cnt : ℤ}, pc.Between cnt → pc ≠ .done := by
    rintro pc cnt (rfl | ⟨-, rfl | rfl⟩ | ⟨-, rfl⟩) <;> simp
  cases h with
  | removed hsems => exact hsems
  | idle _ hpc => rcases hpc with hpc | ⟨-, hpc | hpc⟩ <;> simp [hpc] at hw
  | reading _ hpc => simp [hpc] at hw
  | storing _ _ hpc => simp [hpc] at hw
  | loaded _ _ hpc => rcases hpc with hpc | hpc <;> simp [hpc] at hw
  | sent _ _ hpc => exact absurd hw (hbetween hpc)
  | received _ _ hpc => exact absurd hw (hbetween hpc)
  | delivered _ hpc => exact absurd hw (hbetween hpc)
  | closed _ hpc => rcases hpc with hpc | hpc <;> simp [hpc] at hw
  | removing _ hpc => simp [hpc] at hw

/-- **The transfer completes.**  Whatever the input, the chunks in which it is read and the order in
which the two processes run, the processes make at most `15 * n + 14` operations for an input of `n`
bytes; and when neither can make another one both have finished, the semaphores are gone and the
whole input, which may be longer than an `int` can count, has been written. -/
theorem completes (input : List UInt8) (seg : ShmSeg) :
    (∀ as s, Runs.run step (init input seg) as = some s → as.length ≤ 15 * input.length + 14) ∧
    Runs.Completes step (init input seg)
      fun s => s.wpc = .done ∧ s.rpc = .done ∧ s.sems = none ∧ s.stdout = input := by
  have hinit : Delivers input (init input seg) := ⟨[], (Inv.init input seg).phase, rfl⟩
  have hstep : ∀ s a s', Delivers input s → step s a = some s' → Delivers input s' :=
    fun s a s' h hs => h.of_step hs
  have hlower : ∀ s a s', Delivers input s → step s a = some s' → left input s' < left input s :=
    fun s a s' h hs => left_lt_of_step h hs
  constructor
  · intro as s hs
    have hle : as.length + left input s ≤ left input (init input seg) :=
      Runs.length_add_measure_le hstep hlower hinit hs
    have hleft : left input (init input seg) = 15 * input.length + 14 := by
      simp only [left, ShmTransfer.init, WriterPc.weight, ReaderPc.weight, List.length_nil]
      omega
    omega
  · refine Runs.Completes.of_measure (left input) hstep hlower ?_ hinit
    rintro s ⟨pending, hphase, hsplit⟩ hstuck
    have hdone : s.wpc = .done ∧ s.rpc = .done := by
      by_contra hnot
      obtain ⟨a, s', hs⟩ := hphase.can_step hnot
      rw [hstuck a] at hs
      cases hs
    obtain ⟨rfl, hstdin⟩ := hphase.of_done hdone.1
    refine ⟨hdone.1, hdone.2, ?_, ?_⟩
    · exact hphase.sems_of_done hdone.1
    · rw [hsplit, hstdin, List.append_nil, List.append_nil]

end ShmTransfer
