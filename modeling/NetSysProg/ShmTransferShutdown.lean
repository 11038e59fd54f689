/-
**The shared-memory transfer shuts down safely (`HW9/54_1`).**

After the chunk of no bytes the reader releases `WRITE_SEM` once more, outside its loop, and the
writer reserves it once more before it removes the semaphores.  The phases of a round show that the
two pair up: the writer gets past its last `reserveSem` only when the reader has made its last
`releaseSem`, and in no phase are both of them blocked.  Nothing here looks at the totals, so the
length of the input is not bounded.

Main results:

* `ShmTransfer.Phase.can_step` — in every phase one of the processes can go on or both have
  finished;
* `ShmTransfer.shutdown_safe` — **no deadlock, and no early removal of the semaphores**.
-/

import NetSysProg.ShmTransfer

set_option relaxedAutoImplicit false
set_option autoImplicit false

namespace ShmTransfer

/-! ### What the phases say about the end -/

/-- The state is in one of the phases. -/
def InPhase (s : State) : Prop := ∃ pending, Phase s pending

theorem InPhase.of_reachable {input : List UInt8} {seg : ShmSeg} {s : State}
    (h : Runs.Reachable step (ShmTransfer.init input seg) s) : InPhase s := by
  have hstep : ∀ s a s', InPhase s → step s a = some s' → InPhase s' := by
    rintro s a s' ⟨pending, hphase⟩ hs
    exact hphase.of_step hs
  exact h.invariant hstep ⟨[], .idle rfl (Or.inl rfl) (Or.inl rfl)⟩

/-- A `read` returns something at every moment. -/
theorem exists_read {s : State} (hw : s.wpc = .read) : ∃ k s', writerStep s k = some s' := by
  rcases Nat.eq_zero_or_pos s.stdin.length with hlen | hlen
  · refine ⟨0, ?_⟩
    have hnil : s.stdin = [] := List.length_eq_zero_iff.1 hlen
    simp [writerStep, hw, hnil]
  · refine ⟨1, ?_⟩
    have hbuf : 1 ≤ bufSize := by decide
    have hk : (s.stdin = [] ∧ 1 = 0) ∨ (0 < 1 ∧ 1 ≤ bufSize ∧ 1 ≤ s.stdin.length) :=
      Or.inr ⟨Nat.one_pos, hbuf, hlen⟩
    simp only [writerStep, hw, if_pos hk, Option.some.injEq, exists_eq']

/-- **In every phase one of the processes can go on**, unless both have finished. -/
theorem Phase.can_step {s : State} {pending : List UInt8} (h : Phase s pending)
    (hdone : ¬ (s.wpc = .done ∧ s.rpc = .done)) : ∃ a s', step s a = some s' := by
  have hwriter : (∃ k s', writerStep s k = some s') → ∃ a s', step s a = some s' := by
    rintro ⟨k, s', hs⟩
    exact ⟨.writer k, s', hs⟩
  have hreader : (∃ s', readerStep s = some s') → ∃ a s', step s a = some s' := by
    rintro ⟨s', hs⟩
    exact ⟨.reader, s', hs⟩
  cases h with
  | idle hsems hw hr =>
      refine hwriter ⟨0, ?_⟩
      rcases hw with hw | ⟨-, hw | hw⟩ <;> simp [writerStep, hw, hsems]
  | reading hsems hw hr => exact hwriter (exists_read hw)
  | storing n hsems hw hr => exact hwriter ⟨0, by simp [writerStep, hw]⟩
  | loaded n hsems hw hr =>
      refine hwriter ⟨0, ?_⟩
      rcases hw with hw | hw <;> simp [writerStep, hw, hsems]
  | sent n hsems hw hr =>
      refine hreader ?_
      rcases hr with hr | hr <;> simp [readerStep, hr, hsems]
  | received n hsems hw hr =>
      refine hreader ?_
      rcases hr with hr | ⟨-, hr | hr | hr⟩ | ⟨-, hr | hr⟩ <;> simp [readerStep, hr, hsems]
  | delivered hsems hw hr =>
      refine hreader ?_
      rcases hr with hr | hr <;> simp [readerStep, hr, hsems]
  | closed hsems hw hr =>
      refine hwriter ⟨0, ?_⟩
      rcases hw with hw | hw <;> simp [writerStep, hw, hsems]
  | removing hsems hw hr => exact hwriter ⟨0, by simp [writerStep, hw]⟩
  | removed hsems hw hr =>
      refine hwriter ⟨0, ?_⟩
      rcases hw with hw | hw | hw
      · simp [writerStep, hw]
      · simp [writerStep, hw]
      · exact absurd ⟨hw, hr⟩ hdone

/-- The writer comes to the removal of the semaphores, and past it, only when the reader has made
its last `releaseSem`. -/
theorem Phase.reader_done {s : State} {pending : List UInt8} (h : Phase s pending)
    (hrm : s.wpc = .rmid ∨ s.sems = none) : s.rpc = .done := by
  cases h with
  | closed _ _ hr => exact hr
  | removing _ _ hr => exact hr
  | removed _ _ hr => exact hr
  | idle hsems hw => rcases hw with hw | ⟨-, hw | hw⟩ <;> simp [hw, hsems] at hrm
  | reading hsems hw => simp [hw, hsems] at hrm
  | storing n hsems hw => simp [hw, hsems] at hrm
  | loaded n hsems hw => rcases hw with hw | hw <;> simp [hw, hsems] at hrm
  | sent n hsems hw => rcases hw with hw | ⟨-, hw | hw⟩ | ⟨-, hw⟩ <;> simp [hw, hsems] at hrm
  | received n hsems hw => rcases hw with hw | ⟨-, hw | hw⟩ | ⟨-, hw⟩ <;> simp [hw, hsems] at hrm
  | delivered hsems hw => rcases hw with hw | ⟨-, hw | hw⟩ | ⟨-, hw⟩ <;> simp [hw, hsems] at hrm

/-- **The transfer shuts down safely.**  In every state of every interleaving, for every input and
every way in which `read` cuts it: one of the processes can take a step unless both have finished;
when the writer is about to remove the semaphores, or has removed them, the reader has made its last
operation on them; and no call of either process has failed. -/
theorem shutdown_safe {input : List UInt8} {seg : ShmSeg} {s : State}
    (h : Runs.Reachable step (init input seg) s) :
    (¬ (s.wpc = .done ∧ s.rpc = .done) → ∃ a s', step s a = some s') ∧
    (s.wpc = .rmid ∨ s.sems = none → s.rpc = .done) ∧
    s.wpc ≠ .failed ∧ s.rpc ≠ .failed := by
  obtain ⟨pending, hphase⟩ := InPhase.of_reachable h
  exact ⟨hphase.can_step, hphase.reader_done, hphase.not_failed⟩

/-- An empty input: the writer waits at its last `reserveSem` until the reader is through. -/
def emptyInput : List Act :=
  List.replicate 6 (Act.writer 0) ++ List.replicate 4 .reader ++ [.writer 0]

theorem shutdown_safe_emptyInput :
    ∃ s, Runs.run step (init [] zeroSeg) emptyInput = some s ∧ s.wpc = .rmid ∧ s.rpc = .done ∧
      ∃ a s', step s a = some s' := by
  have hend : (Runs.run step (init [] zeroSeg) emptyInput).map (fun s => s.wpc) =
      some .rmid := by decide
  obtain ⟨s, hs, hw⟩ := Option.map_eq_some_iff.1 hend
  obtain ⟨hcan, hrm, -⟩ := shutdown_safe (Runs.Reachable.of_run hs)
  exact ⟨s, hs, hw, hrm (Or.inl hw), hcan (by rw [hw]; simp)⟩

end ShmTransfer
