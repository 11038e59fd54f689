/-
**The phases of the shared-memory transfer (`HW9/54_1`).**

At every moment exactly one party holds the segment: the semaphore `WRITE_SEM`, the writer, the
semaphore `READ_SEM` or the reader.  `ShmTransfer.Phase` lists the moments of a round, for each the
places the two processes may be at and the bytes that are in the segment and still have to be
written by the reader.  A step of either process leads from one phase to the next.

Main definitions:

* `ShmTransfer.WriterPc.Between` — the writer has handed the segment over and is on its way to the
  next `reserveSem(WRITE_SEM)`, which is where it looks at `shmp->cnt` again;
* `ShmTransfer.Phase` — the moments of a round;
* `ShmTransfer.Quiet` — a step that changes neither the streams nor the totals;
* `ShmTransfer.Inv` — the phase together with what has been read, written and counted so far.

Main results:

* `ShmTransfer.Phase.of_step` — a step leads from one phase to the next, whatever the totals;
* `ShmTransfer.Inv.of_writerStep`, `ShmTransfer.Inv.of_readerStep` — a step keeps the totals right;
* `ShmTransfer.Inv.of_reachable` — **every reachable state is in one of the phases**.
-/

import NetSysProg.ShmTransferModel

set_option relaxedAutoImplicit false
set_option autoImplicit false

namespace ShmTransfer

/-! ### Places in the two loops -/

/-- The reader is on its way to `reserveSem(READ_SEM)`. -/
def ReaderPc.Waits (pc : ReaderPc) : Prop := pc = .reserve ∨ pc = .advance

/-- The writer is between `releaseSem(READ_SEM)` and the `reserveSem(WRITE_SEM)` that follows it;
`cnt` is what it finds in the segment. -/
def WriterPc.Between (pc : WriterPc) (cnt : ℤ) : Prop :=
  pc = .testEnd ∨ (cnt ≠ 0 ∧ (pc = .advance ∨ pc = .reserve)) ∨ (cnt = 0 ∧ pc = .reserveEnd)

/-- The bytes the writer has read but not yet added to `bytes`. -/
def WriterPc.bytesAhead (cnt : ℤ) : WriterPc → ℤ
  | .storeCnt n => n
  | .testErr => cnt
  | .release => cnt
  | .testEnd => cnt
  | .advance => cnt
  | _ => 0

/-- The non-empty chunks the writer has read but not yet counted in `xfrs`. -/
def WriterPc.xfrsAhead (cnt : ℤ) : WriterPc → ℤ
  | .storeCnt n => if n = 0 then 0 else 1
  | .testErr => if cnt = 0 then 0 else 1
  | .release => if cnt = 0 then 0 else 1
  | .testEnd => if cnt = 0 then 0 else 1
  | .advance => if cnt = 0 then 0 else 1
  | _ => 0

/-- The bytes the reader has added to `bytes` but not yet written. -/
def ReaderPc.bytesAhead (cnt : ℤ) : ReaderPc → ℤ
  | .loadLen => cnt
  | .write _ => cnt
  | _ => 0

/-- The chunks the reader has written but not yet counted in `xfrs`. -/
def ReaderPc.xfrsAhead : ReaderPc → ℤ
  | .compare _ => 1
  | .release => 1
  | .advance => 1
  | _ => 0

/-! ### The phases of a round -/

/-- The places of the reader while it holds a chunk it has not written. -/
def ReaderPc.Holds (pc : ReaderPc) (cnt : ℤ) : Prop :=
  pc = .testEnd ∨ (cnt ≠ 0 ∧ (pc = .addBytes ∨ pc = .loadLen ∨ pc = .write cnt)) ∨
    (cnt = 0 ∧ (pc = .unmap ∨ pc = .releaseEnd))

/-- The moments of a round, with the bytes the segment still has to deliver. -/
inductive Phase (s : State) : List UInt8 → Prop
  /-- The segment is free. -/
  | idle (hsems : s.sems = some ⟨1, 0⟩) (hw : s.wpc = .reserve ∨ s.seg.cnt ≠ 0 ∧
      (s.wpc = .testEnd ∨ s.wpc = .advance)) (hr : s.rpc.Waits) : Phase s []
  /-- The writer is about to read into the segment. -/
  | reading (hsems : s.sems = some ⟨0, 0⟩) (hw : s.wpc = .read) (hr : s.rpc.Waits) : Phase s []
  /-- The writer has read a chunk of `n` bytes into the segment. -/
  | storing (n : ℕ) (hsems : s.sems = some ⟨0, 0⟩) (hw : s.wpc = .storeCnt n) (hr : s.rpc.Waits)
      (hn : n ≤ bufSize) (hend : n = 0 → s.stdin = []) : Phase s (s.seg.buf.take n)
  /-- The chunk and its length are in the segment. -/
  | loaded (n : ℕ) (hsems : s.sems = some ⟨0, 0⟩) (hw : s.wpc = .testErr ∨ s.wpc = .release)
      (hr : s.rpc.Waits) (hcnt : s.seg.cnt = n) (hn : n ≤ bufSize) (hend : n = 0 → s.stdin = []) :
      Phase s (s.seg.buf.take n)
  /-- The writer has handed the segment over. -/
  | sent (n : ℕ) (hsems : s.sems = some ⟨0, 1⟩) (hw : s.wpc.Between n) (hr : s.rpc.Waits)
      (hcnt : s.seg.cnt = n) (hn : n ≤ bufSize) (hend : n = 0 → s.stdin = []) :
      Phase s (s.seg.buf.take n)
  /-- The reader holds the segment. -/
  | received (n : ℕ) (hsems : s.sems = some ⟨0, 0⟩) (hw : s.wpc.Between n) (hr : s.rpc.Holds n)
      (hcnt : s.seg.cnt = n) (hn : n ≤ bufSize) (hend : n = 0 → s.stdin = []) :
      Phase s (s.seg.buf.take n)
  /-- The reader has written the chunk. -/
  | delivered (hsems : s.sems = some ⟨0, 0⟩) (hw : s.wpc.Between s.seg.cnt)
      (hr : s.rpc = .compare s.seg.cnt ∨ s.rpc = .release) (hcnt : s.seg.cnt ≠ 0) : Phase s []
  /-- The reader has seen the end of the input and finished. -/
  | closed (hsems : s.sems = some ⟨1, 0⟩) (hw : s.wpc = .testEnd ∨ s.wpc = .reserveEnd)
      (hr : s.rpc = .done) (hcnt : s.seg.cnt = 0) (hend : s.stdin = []) : Phase s []
  /-- The writer is about to remove the semaphores. -/
  | removing (hsems : s.sems = some ⟨0, 0⟩) (hw : s.wpc = .rmid) (hr : s.rpc = .done)
      (hcnt : s.seg.cnt = 0) (hend : s.stdin = []) : Phase s []
  /-- The semaphores are gone. -/
  | removed (hsems : s.sems = none) (hw : s.wpc = .unmap ∨ s.wpc = .unlink ∨ s.wpc = .done)
      (hr : s.rpc = .done) (hcnt : s.seg.cnt = 0) (hend : s.stdin = []) : Phase s []

/-- The phase, and what it says about the streams and the totals. -/
structure Inv (input : List UInt8) (s : State) (pending : List UInt8) : Prop where
  phase : Phase s pending
  /-- Every byte of the input is delivered, in the segment, or still to be read. -/
  split : input = s.stdout ++ pending ++ s.stdin
  wbytes : s.wbytes + s.wpc.bytesAhead s.seg.cnt = s.stdout.length + pending.length
  rbytes : s.rbytes = s.stdout.length + s.rpc.bytesAhead s.seg.cnt
  xfrs : s.wxfrs + s.wpc.xfrsAhead s.seg.cnt =
    s.rxfrs + s.rpc.xfrsAhead + if pending = [] then 0 else 1
  rxfrs_nonneg : 0 ≤ s.rxfrs
  rxfrs_le : s.rxfrs + s.rpc.xfrsAhead ≤ s.stdout.length
  wxfrs_nonneg : 0 ≤ s.wxfrs

theorem Inv.init (input : List UInt8) (seg : ShmSeg) : Inv input (init input seg) [] where
  phase := .idle rfl (Or.inl rfl) (Or.inl rfl)
  split := rfl
  wbytes := rfl
  rbytes := rfl
  xfrs := rfl
  rxfrs_nonneg := Int.le_refl 0
  rxfrs_le := Int.le_refl 0
  wxfrs_nonneg := Int.le_refl 0

section Steps

variable {input : List UInt8} {s s' : State} {pending : List UInt8}

/-! ### The phase after a step of the writer -/

/-- Between two rounds the writer is blocked, or it moves on to another place between two rounds,
and nothing changes but its totals. -/
theorem WriterPc.Between.of_step {k r : ℕ} (hsems : s.sems = some ⟨0, r⟩)
    (hw : s.wpc.Between s.seg.cnt) (hs : writerStep s k = some s') :
    ∃ pc b x, s' = { s with wpc := pc, wbytes := b, wxfrs := x } ∧ pc.Between s.seg.cnt := by
  rcases hw with hpc | ⟨hcnt, hpc | hpc⟩ | ⟨-, hpc⟩
  · simp only [writerStep, hpc, Option.some.injEq] at hs
    subst hs
    refine ⟨_, s.wbytes, s.wxfrs, rfl, ?_⟩
    by_cases hcnt : s.seg.cnt = 0
    · rw [if_pos hcnt]
      exact Or.inr (Or.inr ⟨hcnt, rfl⟩)
    · rw [if_neg hcnt]
      exact Or.inr (Or.inl ⟨hcnt, Or.inl rfl⟩)
  · simp only [writerStep, hpc, Option.some.injEq] at hs
    subst hs
    exact ⟨_, _, _, rfl, Or.inr (Or.inl ⟨hcnt, Or.inr rfl⟩)⟩
  · simp [writerStep, hpc, hsems] at hs
  · simp [writerStep, hpc, hsems] at hs

/-- The writer while the segment is free. -/
theorem Phase.of_idle {k : ℕ} (hsems : s.sems = some ⟨1, 0⟩)
    (hw : s.wpc = .reserve ∨ s.seg.cnt ≠ 0 ∧ (s.wpc = .testEnd ∨ s.wpc = .advance))
    (hr : s.rpc.Waits) (hs : writerStep s k = some s') : Phase s' [] := by
  rcases hw with hw | ⟨hcnt, hw | hw⟩
  · simp [writerStep, hw, hsems] at hs
    subst hs
    exact .reading rfl rfl hr
  · simp only [writerStep, hw, if_neg hcnt, Option.some.injEq] at hs
    subst hs
    exact .idle hsems (Or.inr ⟨hcnt, Or.inr rfl⟩) hr
  · simp only [writerStep, hw, Option.some.injEq] at hs
    subst hs
    exact .idle hsems (Or.inl rfl) hr

/-- The writer is about to read only while it holds the segment, and it comes to the update of its
totals only behind a chunk that is not empty. -/
theorem Phase.wpc_cases (h : Phase s pending) :
    s.wpc = .read ∧ pending = [] ∧ s.sems = some ⟨0, 0⟩ ∧ s.rpc.Waits ∨
    s.wpc ≠ .read ∧ (s.wpc = .advance → s.seg.cnt ≠ 0) ∧ ∀ n, s.wpc = .storeCnt n →
      s.rpc.Waits := by
  have hbetween : ∀ {cnt : ℤ}, s.wpc.Between cnt → s.seg.cnt = cnt →
      s.wpc ≠ .read ∧ (s.wpc = .advance → s.seg.cnt ≠ 0) ∧ ∀ n, s.wpc = .storeCnt n →
        s.rpc.Waits := by
    rintro cnt hw rfl
    rcases hw with hw | ⟨hcnt, hw | hw⟩ | ⟨-, hw⟩ <;> simp [*]
  cases h with
  | reading hsems hw hr => exact Or.inl ⟨hw, rfl, hsems, hr⟩
  | idle hsems hw hr =>
      refine Or.inr ?_
      rcases hw with hw | ⟨hcnt, hw | hw⟩ <;> simp [*]
  | storing n hsems hw hr => exact Or.inr (by simp [hw, hr])
  | loaded n hsems hw => exact Or.inr (by rcases hw with hw | hw <;> simp [hw])
  | sent n hsems hw hr hcnt => exact Or.inr (hbetween hw hcnt)
  | received n hsems hw hr hcnt => exact Or.inr (hbetween hw hcnt)
  | delivered hsems hw hr => exact Or.inr (hbetween hw rfl)
  | closed hsems hw => exact Or.inr (by rcases hw with hw | hw <;> simp [hw])
  | removing hsems hw => exact Or.inr (by simp [hw])
  | removed hsems hw => exact Or.inr (by rcases hw with hw | hw | hw <;> simp [hw])

/-- What `read` has returned is in the segment. -/
theorem Phase.of_read {k : ℕ} (hsems : s.sems = some ⟨0, 0⟩) (hw : s.wpc = .read)
    (hr : s.rpc.Waits) (hs : writerStep s k = some s') :
    (s.stdin.take k).length = k ∧ Phase s' (s.stdin.take k) ∧
      s' = { s with
        seg := s.seg.fill (s.stdin.take k)
        stdin := s.stdin.drop k
        wpc := .storeCnt k } := by
  simp only [writerStep, hw] at hs
  split at hs
  · next hk =>
      obtain rfl := Option.some.inj hs
      have hlen : (s.stdin.take k).length = k := by
        rw [List.length_take]
        rcases hk with ⟨-, rfl⟩ | hk <;> omega
      have hbuf : (s.seg.fill (s.stdin.take k)).buf.take k = s.stdin.take k := by
        have htake := s.seg.take_fill (s.stdin.take k) (by omega)
        rwa [hlen] at htake
      have hend : k = 0 → s.stdin.drop k = [] := by
        rintro rfl
        rcases hk with ⟨hnil, -⟩ | ⟨hpos, -⟩
        · simp [hnil]
        · omega
      refine ⟨hlen, ?_, rfl⟩
      have hphase : Phase { s with
          seg := s.seg.fill (s.stdin.take k)
          stdin := s.stdin.drop k
          wpc := .storeCnt k } ((s.seg.fill (s.stdin.take k)).buf.take k) :=
        .storing k hsems rfl hr (by omega) hend
      rwa [hbuf] at hphase
  · simp at hs

/-- **Any other step of the writer** leads to a phase with the same bytes to be delivered. -/
theorem Phase.of_writerStep {k : ℕ} (h : Phase s pending) (hread : s.wpc ≠ .read)
    (hs : writerStep s k = some s') : Phase s' pending := by
  cases h with
  | idle hsems hw hr => exact .of_idle hsems hw hr hs
  | reading hsems hw hr => exact absurd hw hread
  | storing n hsems hw hr hn hend =>
      simp only [writerStep, hw, Option.some.injEq] at hs
      subst hs
      exact .loaded n hsems (Or.inl rfl) hr rfl hn hend
  | loaded n hsems hw hr hcnt hn hend =>
      rcases hw with hw | hw
      · -- `read` has not failed
        have hne : s.seg.cnt ≠ -1 := by omega
        simp only [writerStep, hw, if_neg hne, Option.some.injEq] at hs
        subst hs
        exact .loaded n hsems (Or.inr rfl) hr hcnt hn hend
      · -- the writer hands the segment over
        simp only [writerStep, hw, hsems, Option.some.injEq] at hs
        subst hs
        exact .sent n rfl (Or.inl rfl) hr hcnt hn hend
  | sent n hsems hw hr hcnt hn hend =>
      obtain ⟨pc, b, x, rfl, hpc⟩ := WriterPc.Between.of_step hsems (hcnt ▸ hw) hs
      exact .sent n hsems (hcnt ▸ hpc) hr hcnt hn hend
  | received n hsems hw hr hcnt hn hend =>
      obtain ⟨pc, b, x, rfl, hpc⟩ := WriterPc.Between.of_step hsems (hcnt ▸ hw) hs
      exact .received n hsems (hcnt ▸ hpc) hr hcnt hn hend
  | delivered hsems hw hr hcnt =>
      obtain ⟨pc, b, x, rfl, hpc⟩ := WriterPc.Between.of_step hsems hw hs
      exact .delivered hsems hpc hr hcnt
  | closed hsems hw hr hcnt hend =>
      rcases hw with hw | hw
      · simp only [writerStep, hw, if_pos hcnt, Option.some.injEq] at hs
        subst hs
        exact .closed hsems (Or.inr rfl) hr hcnt hend
      · -- the last `reserveSem` pairs up with the reader's last `releaseSem`
        simp [writerStep, hw, hsems] at hs
        subst hs
        exact .removing rfl rfl hr hcnt hend
  | removing hsems hw hr hcnt hend =>
      simp only [writerStep, hw, Option.some.injEq] at hs
      subst hs
      exact .removed rfl (Or.inl rfl) hr hcnt hend
  | removed hsems hw hr hcnt hend =>
      rcases hw with hw | hw | hw <;> simp only [writerStep, hw, Option.some.injEq] at hs
      · subst hs
        exact .removed hsems (Or.inr (Or.inl rfl)) hr hcnt hend
      · subst hs
        exact .removed hsems (Or.inr (Or.inr rfl)) hr hcnt hend
      · simp at hs

/-! ### The phase after a step of the reader -/

/-- While it waits and `READ_SEM` is taken, the reader is blocked or counts a chunk. -/
theorem ReaderPc.Waits.of_step {w : ℕ} (hsems : s.sems = some ⟨w, 0⟩) (hr : s.rpc.Waits)
    (hs : readerStep s = some s') : ∃ x, s' = { s with rxfrs := x, rpc := .reserve } := by
  rcases hr with hr | hr
  · simp [readerStep, hr, hsems] at hs
  · simp only [readerStep, hr, Option.some.injEq] at hs
    exact ⟨_, hs.symm⟩

/-- The reader adds to its total, and writes, what the segment still has to deliver. -/
theorem Phase.rpc_cases (h : Phase s pending) :
    (∃ n : ℕ, (s.rpc = .addBytes ∨ s.rpc = .write n) ∧ n ≠ 0 ∧ n ≤ bufSize ∧ s.seg.cnt = n ∧
      pending = s.seg.buf.take n ∧ s.sems = some ⟨0, 0⟩ ∧ s.wpc.Between n) ∨
    s.rpc ≠ .addBytes ∧ ∀ n, s.rpc ≠ .write n := by
  have hwaits : s.rpc.Waits → s.rpc ≠ .addBytes ∧ ∀ n, s.rpc ≠ .write n := by
    rintro (hr | hr) <;> simp [hr]
  have hdone : s.rpc = .done → s.rpc ≠ .addBytes ∧ ∀ n, s.rpc ≠ .write n := by
    intro hr
    simp [hr]
  cases h with
  | idle _ _ hr => exact Or.inr (hwaits hr)
  | reading _ _ hr => exact Or.inr (hwaits hr)
  | storing _ _ _ hr => exact Or.inr (hwaits hr)
  | loaded _ _ _ hr => exact Or.inr (hwaits hr)
  | sent _ _ _ hr => exact Or.inr (hwaits hr)
  | received n hsems hw hr hcnt hn =>
      rcases hr with hr | ⟨hne, hr | hr | hr⟩ | ⟨-, hr | hr⟩
      · exact Or.inr (by simp [hr])
      · exact Or.inl ⟨n, Or.inl hr, by omega, hn, hcnt, rfl, hsems, hw⟩
      · exact Or.inr (by simp [hr])
      · exact Or.inl ⟨n, Or.inr hr, by omega, hn, hcnt, rfl, hsems, hw⟩
      · exact Or.inr (by simp [hr])
      · exact Or.inr (by simp [hr])
  | delivered _ _ hr => exact Or.inr (by rcases hr with hr | hr <;> simp [hr])
  | closed _ _ hr => exact Or.inr (hdone hr)
  | removing _ _ hr => exact Or.inr (hdone hr)
  | removed _ _ hr => exact Or.inr (hdone hr)

/-- What the reader does with a chunk before it writes it. -/
theorem Phase.of_holds {n : ℕ} (hsems : s.sems = some ⟨0, 0⟩) (hw : s.wpc.Between n)
    (hr : s.rpc.Holds n) (hcnt : s.seg.cnt = n) (hn : n ≤ bufSize) (hend : n = 0 → s.stdin = [])
    (hwrite : ∀ m, s.rpc ≠ .write m) (hs : readerStep s = some s') :
    Phase s' (s.seg.buf.take n) := by
  rcases hr with hr | ⟨hne, hr | hr | hr⟩ | ⟨hzero, hr | hr⟩
  · -- the test that ends the loop
    simp only [readerStep, hr, Option.some.injEq] at hs
    subst hs
    refine .received n hsems hw ?_ hcnt hn hend
    by_cases hzero : s.seg.cnt = 0
    · exact Or.inr (Or.inr ⟨hcnt ▸ hzero, Or.inl (if_pos hzero)⟩)
    · exact Or.inr (Or.inl ⟨hcnt ▸ hzero, Or.inl (if_neg hzero)⟩)
  · simp only [readerStep, hr, Option.some.injEq] at hs
    subst hs
    exact .received n hsems hw (Or.inr (Or.inl ⟨hne, Or.inr (Or.inl rfl)⟩)) hcnt hn hend
  · -- the load of the length
    simp only [readerStep, hr, Option.some.injEq] at hs
    subst hs
    exact .received n hsems hw (Or.inr (Or.inl ⟨hne, Or.inr (Or.inr (congrArg _ hcnt))⟩)) hcnt hn
      hend
  · exact absurd hr (hwrite n)
  · simp only [readerStep, hr, Option.some.injEq] at hs
    subst hs
    exact .received n hsems hw (Or.inr (Or.inr ⟨hzero, Or.inr rfl⟩)) hcnt hn hend
  · -- the last release: the writer may take the segment back
    simp only [readerStep, hr, hsems, Option.some.injEq] at hs
    subst hs
    obtain rfl : n = 0 := by omega
    have hpc : s.wpc = .testEnd ∨ s.wpc = .reserveEnd := by
      rcases hw with hw | ⟨hne, -⟩ | ⟨-, hw⟩
      · exact Or.inl hw
      · exact absurd rfl hne
      · exact Or.inr hw
    exact .closed rfl hpc rfl hcnt (hend rfl)

/-- The `write` of the chunk. -/
theorem Phase.of_write {n : ℕ} (hsems : s.sems = some ⟨0, 0⟩) (hw : s.wpc.Between n)
    (hr : s.rpc = .write n) (hne : n ≠ 0) (hcnt : s.seg.cnt = n) (hs : readerStep s = some s') :
    Phase s' [] ∧ s' = { s with stdout := s.stdout ++ s.seg.buf.take n, rpc := .compare n } := by
  simp only [readerStep, hr, Option.some.injEq, Int.toNat_natCast] at hs
  subst hs
  exact ⟨.delivered hsems (hcnt ▸ hw) (Or.inl (congrArg _ hcnt.symm)) (by rw [hcnt]; omega), rfl⟩

/-- **Any other step of the reader** leads to a phase with the same bytes to be delivered. -/
theorem Phase.of_readerStep (h : Phase s pending) (hwrite : ∀ n, s.rpc ≠ .write n)
    (hs : readerStep s = some s') : Phase s' pending := by
  cases h with
  | idle hsems hw hr =>
      obtain ⟨x, rfl⟩ := hr.of_step hsems hs
      exact .idle hsems hw (Or.inl rfl)
  | reading hsems hw hr =>
      obtain ⟨x, rfl⟩ := hr.of_step hsems hs
      exact .reading hsems hw (Or.inl rfl)
  | storing n hsems hw hr hn hend =>
      obtain ⟨x, rfl⟩ := hr.of_step hsems hs
      exact .storing n hsems hw (Or.inl rfl) hn hend
  | loaded n hsems hw hr hcnt hn hend =>
      obtain ⟨x, rfl⟩ := hr.of_step hsems hs
      exact .loaded n hsems hw (Or.inl rfl) hcnt hn hend
  | sent n hsems hw hr hcnt hn hend =>
      rcases hr with hr | hr
      · -- the reader takes the segment
        simp [readerStep, hr, hsems] at hs
        subst hs
        exact .received n rfl hw (Or.inl rfl) hcnt hn hend
      · simp only [readerStep, hr, Option.some.injEq] at hs
        subst hs
        exact .sent n hsems hw (Or.inl rfl) hcnt hn hend
  | received n hsems hw hr hcnt hn hend => exact .of_holds hsems hw hr hcnt hn hend hwrite hs
  | delivered hsems hw hr hcnt =>
      rcases hr with hr | hr
      · simp only [readerStep, hr, ne_eq, not_true_eq_false, if_false, Option.some.injEq] at hs
        subst hs
        exact .delivered hsems hw (Or.inr rfl) hcnt
      · -- the reader hands the segment back
        simp only [readerStep, hr, hsems, Option.some.injEq] at hs
        subst hs
        have hpc : s.wpc = .reserve ∨ s.seg.cnt ≠ 0 ∧ (s.wpc = .testEnd ∨ s.wpc = .advance) := by
          rcases hw with hw | ⟨-, hw | hw⟩ | ⟨hzero, -⟩
          · exact Or.inr ⟨hcnt, Or.inl hw⟩
          · exact Or.inr ⟨hcnt, Or.inr hw⟩
          · exact Or.inl hw
          · exact absurd hzero hcnt
        exact .idle rfl hpc (Or.inr rfl)
  | closed hsems hw hr hcnt hend => simp [readerStep, hr] at hs
  | removing hsems hw hr hcnt hend => simp [readerStep, hr] at hs
  | removed hsems hw hr hcnt hend => simp [readerStep, hr] at hs

/-- **A step leads from one phase to the next.** -/
theorem Phase.of_step {a : Act} (h : Phase s pending) (hs : step s a = some s') :
    ∃ pending', Phase s' pending' := by
  cases a with
  | writer k =>
      rcases h.wpc_cases with ⟨hw, -, hsems, hr⟩ | ⟨hread, -⟩
      · exact ⟨_, (Phase.of_read hsems hw hr hs).2.1⟩
      · exact ⟨_, h.of_writerStep hread hs⟩
  | reader =>
      rcases h.rpc_cases with ⟨n, hr | hr, hne, -, hcnt, -, hsems, hw⟩ | ⟨-, hwrite⟩
      · exact ⟨_, h.of_readerStep (by simp [hr]) hs⟩
      · exact ⟨_, (Phase.of_write hsems hw hr hne hcnt hs).1⟩
      · exact ⟨_, h.of_readerStep hwrite hs⟩

/-- Neither process has ended through `exit(1)`. -/
theorem Phase.not_failed (h : Phase s pending) : s.wpc ≠ .failed ∧ s.rpc ≠ .failed := by
  have hbetween : ∀ {pc : WriterPc} {cnt : ℤ}, pc.Between cnt → pc ≠ .failed := by
    rintro pc cnt (rfl | ⟨-, rfl | rfl⟩ | ⟨-, rfl⟩) <;> simp
  have hwaits : ∀ {pc : ReaderPc}, pc.Waits → pc ≠ .failed := by
    rintro pc (rfl | rfl) <;> simp
  have hholds : ∀ {pc : ReaderPc} {cnt : ℤ}, pc.Holds cnt → pc ≠ .failed := by
    rintro pc cnt (rfl | ⟨-, rfl | rfl | rfl⟩ | ⟨-, rfl | rfl⟩) <;> simp
  cases h with
  | idle _ hw hr => exact ⟨by rcases hw with hw | ⟨-, hw | hw⟩ <;> simp [hw], hwaits hr⟩
  | reading _ hw hr => exact ⟨by simp [hw], hwaits hr⟩
  | storing _ _ hw hr => exact ⟨by simp [hw], hwaits hr⟩
  | loaded _ _ hw hr => exact ⟨by rcases hw with hw | hw <;> simp [hw], hwaits hr⟩
  | sent _ _ hw hr => exact ⟨hbetween hw, hwaits hr⟩
  | received _ _ hw hr => exact ⟨hbetween hw, hholds hr⟩
  | delivered _ hw hr => exact ⟨hbetween hw, by rcases hr with hr | hr <;> simp [hr]⟩
  | closed _ hw hr => exact ⟨by rcases hw with hw | hw <;> simp [hw], by simp [hr]⟩
  | removing _ hw hr => exact ⟨by simp [hw], by simp [hr]⟩
  | removed _ hw hr => exact ⟨by rcases hw with hw | hw | hw <;> simp [hw], by simp [hr]⟩

/-! ### The totals -/

/-- Neither the streams nor the totals change, nor what is still to be added to these. -/
structure Quiet (s s' : State) : Prop where
  stdin : s'.stdin = s.stdin
  stdout : s'.stdout = s.stdout
  wbytes : s'.wbytes = s.wbytes
  rbytes : s'.rbytes = s.rbytes
  wxfrs : s'.wxfrs = s.wxfrs
  rxfrs : s'.rxfrs = s.rxfrs
  writerBytes : s'.wpc.bytesAhead s'.seg.cnt = s.wpc.bytesAhead s.seg.cnt
  writerXfrs : s'.wpc.xfrsAhead s'.seg.cnt = s.wpc.xfrsAhead s.seg.cnt
  readerBytes : s'.rpc.bytesAhead s'.seg.cnt = s.rpc.bytesAhead s.seg.cnt
  readerXfrs : s'.rpc.xfrsAhead = s.rpc.xfrsAhead

theorem ReaderPc.Waits.bytesAhead {pc : ReaderPc} (h : pc.Waits) (cnt : ℤ) :
    pc.bytesAhead cnt = 0 := by
  rcases h with rfl | rfl <;> rfl

/-- A move of the writer. -/
theorem Quiet.writer_moves {sems : Option Sems} {pc : WriterPc}
    (hb : pc.bytesAhead s.seg.cnt = s.wpc.bytesAhead s.seg.cnt)
    (hx : pc.xfrsAhead s.seg.cnt = s.wpc.xfrsAhead s.seg.cnt) :
    Quiet s { s with sems := sems, wpc := pc } :=
  ⟨rfl, rfl, rfl, rfl, rfl, rfl, hb, hx, rfl, rfl⟩

/-- A move of the reader. -/
theorem Quiet.reader_moves {sems : Option Sems} {pc : ReaderPc}
    (hb : pc.bytesAhead s.seg.cnt = s.rpc.bytesAhead s.seg.cnt)
    (hx : pc.xfrsAhead = s.rpc.xfrsAhead) : Quiet s { s with sems := sems, rpc := pc } :=
  ⟨rfl, rfl, rfl, rfl, rfl, rfl, rfl, rfl, hb, hx⟩

/-- The writer changes its totals only behind its `read` and where it adds to them. -/
theorem Quiet.of_writerStep {k : ℕ} (hs : writerStep s k = some s') (hread : s.wpc ≠ .read)
    (hadvance : s.wpc ≠ .advance) (hfail : s'.wpc ≠ .failed)
    (hstore : ∀ n, s.wpc = .storeCnt n → s.rpc.Waits) : Quiet s s' := by
  cases hw : s.wpc <;> simp only [writerStep, hw] at hs
  case read => exact absurd hw hread
  case advance => exact absurd hw hadvance
  case storeCnt n =>
      -- the reader does not look at the length yet
      have hwaits := hstore n hw
      obtain rfl := Option.some.inj hs
      refine ⟨rfl, rfl, rfl, rfl, rfl, rfl, ?_, ?_, ?_, rfl⟩
      · simp [hw, WriterPc.bytesAhead]
      · simp [hw, WriterPc.xfrsAhead]
      · rw [hwaits.bytesAhead, hwaits.bytesAhead]
  case testErr =>
      obtain rfl := Option.some.inj hs
      split at hfail
      · exact absurd rfl hfail
      · next hcnt =>
          rw [if_neg hcnt]
          exact writer_moves (by simp [hw, WriterPc.bytesAhead]) (by simp [hw, WriterPc.xfrsAhead])
  case testEnd =>
      obtain rfl := Option.some.inj hs
      refine writer_moves ?_ ?_ <;> split
      · next hcnt => simp [hw, hcnt, WriterPc.bytesAhead]
      · simp [hw, WriterPc.bytesAhead]
      · next hcnt => simp [hw, hcnt, WriterPc.xfrsAhead]
      · simp [hw, WriterPc.xfrsAhead]
  case reserve | reserveEnd =>
      split at hs
      · obtain rfl := Option.some.inj hs
        exact absurd rfl hfail
      · split at hs
        · obtain rfl := Option.some.inj hs
          exact writer_moves (by simp [hw, WriterPc.bytesAhead]) (by simp [hw, WriterPc.xfrsAhead])
        · simp at hs
  case release =>
      split at hs
      · obtain rfl := Option.some.inj hs
        exact absurd rfl hfail
      · obtain rfl := Option.some.inj hs
        exact writer_moves (by simp [hw, WriterPc.bytesAhead]) (by simp [hw, WriterPc.xfrsAhead])
  case rmid | unmap | unlink =>
      obtain rfl := Option.some.inj hs
      exact writer_moves (by simp [hw, WriterPc.bytesAhead]) (by simp [hw, WriterPc.xfrsAhead])
  case done | failed => simp at hs

/-- The reader changes its totals and its output where it adds to them and where it writes. -/
theorem Quiet.of_readerStep (hs : readerStep s = some s') (hadd : s.rpc ≠ .addBytes)
    (hwrite : ∀ n, s.rpc ≠ .write n) (hadvance : s.rpc ≠ .advance) (hfail : s'.rpc ≠ .failed) :
    Quiet s s' := by
  cases hr : s.rpc <;> simp only [readerStep, hr] at hs
  case addBytes => exact absurd hr hadd
  case write n => exact absurd hr (hwrite n)
  case advance => exact absurd hr hadvance
  case testEnd =>
      obtain rfl := Option.some.inj hs
      refine reader_moves ?_ ?_ <;> split <;> simp [hr, ReaderPc.bytesAhead, ReaderPc.xfrsAhead]
  case compare n =>
      obtain rfl := Option.some.inj hs
      split at hfail
      · exact absurd rfl hfail
      · next hcnt =>
          rw [if_neg hcnt]
          exact reader_moves (by simp [hr, ReaderPc.bytesAhead]) (by simp [hr, ReaderPc.xfrsAhead])
  case reserve =>
      split at hs
      · obtain rfl := Option.some.inj hs
        exact absurd rfl hfail
      · split at hs
        · obtain rfl := Option.some.inj hs
          exact reader_moves (by simp [hr, ReaderPc.bytesAhead]) (by simp [hr, ReaderPc.xfrsAhead])
        · simp at hs
  case release | releaseEnd =>
      split at hs
      · obtain rfl := Option.some.inj hs
        exact absurd rfl hfail
      · obtain rfl := Option.some.inj hs
        exact reader_moves (by simp [hr, ReaderPc.bytesAhead]) (by simp [hr, ReaderPc.xfrsAhead])
  case loadLen | unmap =>
      obtain rfl := Option.some.inj hs
      exact reader_moves (by simp [hr, ReaderPc.bytesAhead]) (by simp [hr, ReaderPc.xfrsAhead])
  case done | failed => simp at hs

/-! ### The invariant -/

/-- What the writer has read fits in an `int` when the input does. -/
theorem Inv.length_le (h : Inv input s pending) (hmax : input.length ≤ CInt.intMax) :
    (s.stdout.length : ℤ) + pending.length ≤ CInt.intMax := by
  have hlen := congrArg List.length h.split
  simp only [List.length_append] at hlen
  omega

/-- A step that changes neither the streams nor the totals. -/
theorem Inv.of_quiet (h : Inv input s pending) (hq : Quiet s s') (hphase : Phase s' pending) :
    Inv input s' pending where
  phase := hphase
  split := by rw [hq.stdout, hq.stdin]; exact h.split
  wbytes := by rw [hq.wbytes, hq.writerBytes, hq.stdout]; exact h.wbytes
  rbytes := by rw [hq.rbytes, hq.stdout, hq.readerBytes]; exact h.rbytes
  xfrs := by rw [hq.wxfrs, hq.writerXfrs, hq.rxfrs, hq.readerXfrs]; exact h.xfrs
  rxfrs_nonneg := by rw [hq.rxfrs]; exact h.rxfrs_nonneg
  rxfrs_le := by rw [hq.rxfrs, hq.readerXfrs, hq.stdout]; exact h.rxfrs_le
  wxfrs_nonneg := by rw [hq.wxfrs]; exact h.wxfrs_nonneg

/-- The `read` into the segment. -/
theorem Inv.read (h : Inv input s []) {k : ℕ} (hsems : s.sems = some ⟨0, 0⟩) (hw : s.wpc = .read)
    (hr : s.rpc.Waits) (hs : writerStep s k = some s') : Inv input s' (s.stdin.take k) := by
  obtain ⟨hlen, hphase, rfl⟩ := Phase.of_read hsems hw hr hs
  have hw' := h.wbytes
  have hr' := h.rbytes
  have hx' := h.xfrs
  simp only [hw, WriterPc.bytesAhead, WriterPc.xfrsAhead, List.length_nil, if_true] at hw' hx'
  refine ⟨hphase, by simpa using h.split, ?_, ?_, ?_, h.rxfrs_nonneg, h.rxfrs_le, h.wxfrs_nonneg⟩
  · simp only [WriterPc.bytesAhead, hlen]
    omega
  · rw [hr.bytesAhead] at hr' ⊢
    exact hr'
  · have hempty : s.stdin.take k = [] ↔ (k : ℤ) = 0 := by
      rw [← List.length_eq_zero_iff, hlen]
      omega
    simp only [WriterPc.xfrsAhead, hempty]
    split <;> omega

/-- `xfrs++, bytes += shmp->cnt` -/
theorem Inv.advance (h : Inv input s pending) (hmax : input.length ≤ CInt.intMax) {k : ℕ}
    (hpc : s.wpc = .advance) (hcnt : s.seg.cnt ≠ 0) (hs : writerStep s k = some s')
    (hphase : Phase s' pending) : Inv input s' pending := by
  have hw := h.wbytes
  have hx := h.xfrs
  have hle := h.length_le hmax
  have hrx := h.rxfrs_le
  have hwx := h.wxfrs_nonneg
  simp only [writerStep, hpc, Option.some.injEq] at hs
  subst hs
  simp only [hpc, WriterPc.bytesAhead, WriterPc.xfrsAhead, if_neg hcnt] at hw hx
  -- neither total leaves the range of an `int`
  have hpend : (if pending = [] then 0 else 1 : ℤ) ≤ pending.length := by
    split
    · omega
    · next hne =>
        have := List.length_pos_of_ne_nil hne
        omega
  have hbytes : CInt.wrap (s.wbytes + s.seg.cnt) = s.wbytes + s.seg.cnt :=
    CInt.wrap_of_nonneg (by omega) (by omega)
  have hxfrs : CInt.wrap (s.wxfrs + 1) = s.wxfrs + 1 :=
    CInt.wrap_of_nonneg (by omega) (by omega)
  refine ⟨hphase, h.split, ?_, h.rbytes, ?_, h.rxfrs_nonneg, h.rxfrs_le, ?_⟩
  · simpa only [hbytes, WriterPc.bytesAhead, Int.add_zero] using hw
  · simpa only [hxfrs, WriterPc.xfrsAhead, Int.add_zero] using hx
  · show 0 ≤ CInt.wrap (s.wxfrs + 1)
    omega

/-- The update of `xfrs` at the end of a round of the reader. -/
theorem Inv.count (h : Inv input s pending) (hmax : input.length ≤ CInt.intMax)
    (hr : s.rpc = .advance) (hs : readerStep s = some s') (hphase : Phase s' pending) :
    Inv input s' pending := by
  have hr' := h.rbytes
  have hx := h.xfrs
  have hpos := h.rxfrs_nonneg
  have hle := h.rxfrs_le
  have hlen := h.length_le hmax
  simp only [readerStep, hr, Option.some.injEq] at hs
  subst hs
  simp only [hr, ReaderPc.bytesAhead, ReaderPc.xfrsAhead] at hr' hx hle
  have hxfrs : CInt.wrap (s.rxfrs + 1) = s.rxfrs + 1 :=
    CInt.wrap_of_nonneg (by omega) (by omega)
  refine ⟨hphase, h.split, h.wbytes, ?_, ?_, ?_, ?_, h.wxfrs_nonneg⟩
  · simpa only [ReaderPc.bytesAhead] using hr'
  · simpa only [ReaderPc.xfrsAhead, hxfrs, Int.add_zero] using hx
  · show 0 ≤ CInt.wrap (s.rxfrs + 1)
    omega
  · simpa only [ReaderPc.xfrsAhead, hxfrs, Int.add_zero] using hle

/-- `bytes += shmp->cnt` -/
theorem Inv.addBytes {n : ℕ} (h : Inv input s (s.seg.buf.take n))
    (hmax : input.length ≤ CInt.intMax)
    (hr : s.rpc = .addBytes) (hcnt : s.seg.cnt = n) (hn : n ≤ bufSize)
    (hs : readerStep s = some s') (hphase : Phase s' (s.seg.buf.take n)) :
    Inv input s' (s.seg.buf.take n) := by
  have hr' := h.rbytes
  have hx := h.xfrs
  have hle := h.rxfrs_le
  have hlen := h.length_le hmax
  have hchunk : (s.seg.buf.take n).length = n := by
    rw [List.length_take, s.seg.buf_length]
    omega
  simp only [readerStep, hr, Option.some.injEq] at hs
  subst hs
  simp only [hr, ReaderPc.bytesAhead, ReaderPc.xfrsAhead] at hr' hx hle
  have hbytes : CInt.wrap (s.rbytes + s.seg.cnt) = s.rbytes + s.seg.cnt :=
    CInt.wrap_of_nonneg (by omega) (by omega)
  refine ⟨hphase, h.split, h.wbytes, ?_, ?_, h.rxfrs_nonneg, ?_, h.wxfrs_nonneg⟩
  · simp only [ReaderPc.bytesAhead, hbytes]
    omega
  · simpa only [ReaderPc.xfrsAhead] using hx
  · simpa only [ReaderPc.xfrsAhead] using hle

/-- The `write` of the chunk. -/
theorem Inv.writeChunk {n : ℕ} (h : Inv input s (s.seg.buf.take n)) (hsems : s.sems = some ⟨0, 0⟩)
    (hw : s.wpc.Between n) (hr : s.rpc = .write n) (hne : n ≠ 0) (hcnt : s.seg.cnt = n)
    (hn : n ≤ bufSize) (hs : readerStep s = some s') : Inv input s' [] := by
  obtain ⟨hphase, rfl⟩ := Phase.of_write hsems hw hr hne hcnt hs
  have hr' := h.rbytes
  have hx := h.xfrs
  have hle := h.rxfrs_le
  have hw' := h.wbytes
  have hchunk : (s.seg.buf.take n).length = n := by
    rw [List.length_take, s.seg.buf_length]
    omega
  have hnonempty : s.seg.buf.take n ≠ [] := by
    rw [← List.length_pos_iff, hchunk]
    omega
  simp only [hr, ReaderPc.bytesAhead, ReaderPc.xfrsAhead, if_neg hnonempty] at hr' hx hle
  refine ⟨hphase, by simpa using h.split, ?_, ?_, ?_, h.rxfrs_nonneg, ?_, h.wxfrs_nonneg⟩
  · simp only [List.length_append, List.length_nil]
    omega
  · simp only [ReaderPc.bytesAhead, List.length_append, hchunk]
    omega
  · simp only [ReaderPc.xfrsAhead, if_true]
    omega
  · simp only [ReaderPc.xfrsAhead, List.length_append, hchunk]
    omega

/-- **A step of the writer keeps the invariant.** -/
theorem Inv.of_writerStep (h : Inv input s pending) (hmax : input.length ≤ CInt.intMax) {k : ℕ}
    (hs : writerStep s k = some s') : ∃ pending', Inv input s' pending' := by
  rcases h.phase.wpc_cases with ⟨hw, rfl, hsems, hr⟩ | ⟨hread, hcnt, hstore⟩
  · exact ⟨_, h.read hsems hw hr hs⟩
  · have hphase := h.phase.of_writerStep hread hs
    by_cases hadvance : s.wpc = .advance
    · exact ⟨pending, h.advance hmax hadvance (hcnt hadvance) hs hphase⟩
    · have hq := Quiet.of_writerStep hs hread hadvance hphase.not_failed.1 hstore
      exact ⟨pending, h.of_quiet hq hphase⟩

/-- **A step of the reader keeps the invariant.** -/
theorem Inv.of_readerStep (h : Inv input s pending) (hmax : input.length ≤ CInt.intMax)
    (hs : readerStep s = some s') : ∃ pending', Inv input s' pending' := by
  rcases h.phase.rpc_cases with ⟨n, hr | hr, hne, hn, hcnt, rfl, hsems, hw⟩ | ⟨hadd, hwrite⟩
  · exact ⟨_, h.addBytes hmax hr hcnt hn hs (h.phase.of_readerStep (by simp [hr]) hs)⟩
  · exact ⟨[], h.writeChunk hsems hw hr hne hcnt hn hs⟩
  · have hphase := h.phase.of_readerStep hwrite hs
    by_cases hadvance : s.rpc = .advance
    · exact ⟨pending, h.count hmax hadvance hs hphase⟩
    · have hq := Quiet.of_readerStep hs hadd hwrite hadvance hphase.not_failed.2
      exact ⟨pending, h.of_quiet hq hphase⟩

end Steps

/-- **Every reachable state is in one of the phases.** -/
theorem Inv.of_reachable {input : List UInt8} {seg : ShmSeg} {s : State}
    (hmax : input.length ≤ CInt.intMax) (h : Runs.Reachable step (ShmTransfer.init input seg) s) :
    ∃ pending, Inv input s pending := by
  let I : State → Prop := fun s => ∃ pending, Inv input s pending
  have hstep : ∀ s a s', I s → step s a = some s' → I s' := by
    rintro s a s' ⟨pending, hi⟩ hs
    cases a with
    | writer k => exact hi.of_writerStep hmax hs
    | reader => exact hi.of_readerStep hmax hs
  exact h.invariant hstep ⟨[], Inv.init input seg⟩

end ShmTransfer
