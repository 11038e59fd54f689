/-
**The shared-memory transfer delivers the input (`HW9/54_1`).**

`NetSysProg/ShmTransferPhase.lean` shows that every reachable state of the writer and the reader is
in one of the phases of a round.  What is promised about the two programs is read off the phases:
the output is always a prefix of the input, the writer keeps off the segment while the reader holds
it, and once both have finished nothing is missing and both report the same totals.

Main results:

* `ShmTransfer.Phase.not_stores` — the writer does not store while the reader holds the segment;
* `ShmTransfer.transfer_correct` — **the transfer is correct in every interleaving**.
-/

import NetSysProg.ShmTransferPhase

set_option relaxedAutoImplicit false
set_option autoImplicit false

namespace ShmTransfer

/-- While the writer is between two rounds, its next operation does not store to the segment. -/
theorem WriterPc.Between.not_stores {pc : WriterPc} {cnt : ℤ} (h : pc.Between cnt) :
    ¬ pc.Stores := by
  rcases h with rfl | ⟨-, rfl | rfl⟩ | ⟨-, rfl⟩ <;> exact id

/-- The writer does not store while the reader holds the segment. -/
theorem Phase.not_stores {s : State} {pending : List UInt8} (h : Phase s pending)
    (hr : s.rpc.Critical) : ¬ s.wpc.Stores := by
  have hwaits : ∀ {pc : ReaderPc}, pc.Waits → pc.Critical → False := by
    rintro pc (rfl | rfl) hc <;> exact hc
  have hdone : s.rpc = .done → False := fun hpc => by rw [hpc] at hr; exact hr
  cases h with
  | idle _ _ hpc => exact (hwaits hpc hr).elim
  | reading _ _ hpc => exact (hwaits hpc hr).elim
  | storing _ _ _ hpc => exact (hwaits hpc hr).elim
  | loaded _ _ _ hpc => exact (hwaits hpc hr).elim
  | sent _ _ _ hpc => exact (hwaits hpc hr).elim
  | received _ _ hw => exact hw.not_stores
  | delivered _ hw => exact hw.not_stores
  | closed _ _ hpc => exact (hdone hpc).elim
  | removing _ _ hpc => exact (hdone hpc).elim
  | removed _ _ hpc => exact (hdone hpc).elim

/-- Once the writer has printed its totals, everything has been read and delivered. -/
theorem Phase.of_done {s : State} {pending : List UInt8} (h : Phase s pending)
    (hw : s.wpc = .done) : pending = [] ∧ s.stdin = [] := by
  cases h with
  | idle _ hpc => rcases hpc with hpc | ⟨-, hpc | hpc⟩ <;> simp [hpc] at hw
  | reading _ hpc => simp [hpc] at hw
  | storing _ _ hpc => simp [hpc] at hw
  | loaded _ _ hpc => rcases hpc with hpc | hpc <;> simp [hpc] at hw
  | sent _ _ hpc => rcases hpc with hpc | ⟨-, hpc | hpc⟩ | ⟨-, hpc⟩ <;> simp [hpc] at hw
  | received _ _ hpc => rcases hpc with hpc | ⟨-, hpc | hpc⟩ | ⟨-, hpc⟩ <;> simp [hpc] at hw
  | delivered _ hpc => rcases hpc with hpc | ⟨-, hpc | hpc⟩ | ⟨-, hpc⟩ <;> simp [hpc] at hw
  | closed _ hpc => rcases hpc with hpc | hpc <;> simp [hpc] at hw
  | removing _ hpc => simp [hpc] at hw
  | removed _ _ _ _ hend => exact ⟨rfl, hend⟩

/-- **The transfer is correct.**  In every state of every interleaving, for every input of fewer
than `2 ^ 31` bytes and every way in which `read` cuts it into chunks: what the reader has written
is a prefix of the input; while the reader holds the segment, the next operation of the writer is
not a store to it and no step changes it; and once both processes have finished, the output is the
input and the totals agree. -/
theorem transfer_correct {input : List UInt8} {seg : ShmSeg} {s : State}
    (hmax : input.length ≤ CInt.intMax) (h : Runs.Reachable step (init input seg) s) :
    s.stdout <+: input ∧
    (s.rpc.Critical → ¬ s.wpc.Stores ∧ ∀ a s', step s a = some s' → s'.seg = s.seg) ∧
    (s.wpc = .done → s.rpc = .done →
      s.stdout = input ∧ s.wbytes = s.rbytes ∧ s.wxfrs = s.rxfrs ∧ s.rbytes = input.length) := by
  obtain ⟨pending, hi⟩ := Inv.of_reachable hmax h
  refine ⟨?_, fun hr => ?_, fun hw hr => ?_⟩
  · rw [hi.split, List.append_assoc]
    exact List.prefix_append _ _
  · have hstores := hi.phase.not_stores hr
    refine ⟨hstores, ?_⟩
    intro a s' hs
    cases a with
    | writer k => exact writerStep_seg hs hstores
    | reader => exact readerStep_seg hs
  · obtain ⟨rfl, hstdin⟩ := hi.phase.of_done hw
    have hout : s.stdout = input := by simpa [hstdin] using hi.split.symm
    have hwb := hi.wbytes
    have hrb := hi.rbytes
    have hx := hi.xfrs
    simp only [hw, hr, WriterPc.bytesAhead, WriterPc.xfrsAhead, ReaderPc.bytesAhead,
      ReaderPc.xfrsAhead, hout, List.length_nil, if_true] at hwb hrb hx
    exact ⟨hout, by omega, by omega, by omega⟩

/-- A segment full of zeros. -/
def zeroSeg : ShmSeg := ⟨0, List.replicate bufSize 0, List.length_replicate⟩

/-- Three bytes in chunks of two and one, the reader overtaking the writer's second look at the
length. -/
def threeBytes : List Act :=
  let chunk (k : ℕ) := List.replicate 5 (Act.writer k)
  let deliver := List.replicate 7 Act.reader
  let settle := List.replicate 2 (Act.writer 0)
  chunk 2 ++ deliver ++ settle ++ [.reader] ++ chunk 1 ++ deliver ++ settle ++ [.reader] ++
    chunk 0 ++ List.replicate 4 .reader ++ List.replicate 5 (.writer 0)

theorem transfer_correct_threeBytes :
    ∃ s, Runs.run step (init [104, 105, 10] zeroSeg) threeBytes = some s ∧
      s.stdout = [104, 105, 10] ∧ s.wbytes = 3 ∧ s.rbytes = 3 ∧ s.wxfrs = 2 ∧ s.rxfrs = 2 := by
  have hend : (Runs.run step (init [104, 105, 10] zeroSeg) threeBytes).map
      (fun s => (s.wpc, s.rpc, s.rxfrs)) = some (.done, .done, 2) := by decide
  obtain ⟨s, hs, hpcs⟩ := Option.map_eq_some_iff.1 hend
  obtain ⟨hw, hr, hx⟩ : s.wpc = .done ∧ s.rpc = .done ∧ s.rxfrs = 2 := by simpa using hpcs
  have hlen : (([104, 105, 10] : List UInt8).length : ℤ) ≤ CInt.intMax := by decide
  obtain ⟨hout, hb, hxfrs, hbytes⟩ := (transfer_correct hlen (Runs.Reachable.of_run hs)).2.2 hw hr
  exact ⟨s, hs, hout, by rw [hb, hbytes]; rfl, by rw [hbytes]; rfl, by rw [hxfrs, hx], hx⟩

end ShmTransfer
