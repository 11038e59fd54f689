/-
**The rounds of signals come to an end (`HW7/22_3`).**

`NetSysProg/SignalPingPong.lean` shows that no signal is lost and that one of the two processes can
always go on.  Each passes through its loop `sig_num` times and makes at most four steps in a round,
so the two also come to the end of their loops, in every order in which they run.

Main definitions:

* `SignalPingPong.left` — the steps that the two processes can still make.

Main results:

* `SignalPingPong.left_lt_of_step` — **every step lowers it**, also a `kill` that finds nobody;
* `SignalPingPong.both_exit` — **every run ends with both processes through all rounds**.
-/

import NetSysProg.Completion
import NetSysProg.SignalPingPong

set_option relaxedAutoImplicit false
set_option autoImplicit false

namespace SignalPingPong

/-- The steps of the parent: three in a round, and the last test. -/
def ParentPc.left (sigNum : ℕ) : ParentPc → ℕ
  | .test scnt => 3 * (sigNum - scnt) + 1
  | .sigwaitinfo scnt => 3 * (sigNum - (scnt + 1)) + 3
  | .kill scnt => 3 * (sigNum - (scnt + 1)) + 2
  | .exited _ => 0

/-- The steps of the child: four in a round, and the last test. -/
def ChildPc.left (sigNum : ℕ) : ChildPc → ℕ
  | .test scnt => 4 * (sigNum - scnt) + 1
  | .getppid scnt => 4 * (sigNum - (scnt + 1)) + 4
  | .kill scnt _ => 4 * (sigNum - (scnt + 1)) + 3
  | .sigwaitinfo scnt => 4 * (sigNum - (scnt + 1)) + 2
  | .exited _ => 0

/-- **The steps that the two processes can still make.** -/
def left (sigNum : ℕ) (s : State) : ℕ := s.parent.left sigNum + s.child.left sigNum

variable {sigNum : ℕ} {s s' : State}

/-- Every step of the parent lowers its part. -/
theorem left_lt_of_parentStep (h : parentStep sigNum s = some s') :
    s'.parent.left sigNum < s.parent.left sigNum ∧ s'.child = s.child := by
  unfold parentStep at h
  cases hpc : s.parent with
  | test scnt =>
      rw [hpc] at h
      dsimp only at h
      split at h
      · obtain rfl := Option.some.inj h
        exact ⟨by simp only [ParentPc.left]; omega, rfl⟩
      · obtain rfl := Option.some.inj h
        exact ⟨by simp only [ParentPc.left]; omega, rfl⟩
  | sigwaitinfo scnt =>
      rw [hpc] at h
      dsimp only at h
      split at h
      · obtain rfl := Option.some.inj h
        exact ⟨by simp only [ParentPc.left]; omega, rfl⟩
      · cases h
  | kill scnt =>
      rw [hpc] at h
      obtain rfl := Option.some.inj h
      exact ⟨by simp only [ParentPc.left]; omega, rfl⟩
  | exited status =>
      rw [hpc] at h
      cases h

/-- Every step of the child lowers its part, also a `kill` that does not find the parent. -/
theorem left_lt_of_childStep {refused : Bool} (h : childStep sigNum s refused = some s') :
    s'.child.left sigNum < s.child.left sigNum ∧ s'.parent = s.parent := by
  unfold childStep at h
  cases hpc : s.child with
  | test scnt =>
      rw [hpc] at h
      dsimp only at h
      split at h
      · obtain rfl := Option.some.inj h
        exact ⟨by simp only [ChildPc.left]; omega, rfl⟩
      · obtain rfl := Option.some.inj h
        exact ⟨by simp only [ChildPc.left]; omega, rfl⟩
  | getppid scnt =>
      rw [hpc] at h
      obtain rfl := Option.some.inj h
      exact ⟨by simp only [ChildPc.left]; omega, rfl⟩
  | kill scnt ppid =>
      rw [hpc] at h
      dsimp only at h
      split at h
      · obtain rfl := Option.some.inj h
        exact ⟨by simp only [ChildPc.left]; omega, rfl⟩
      · obtain rfl := Option.some.inj h
        refine ⟨?_, rfl⟩
        cases refused
        · simp only [ChildPc.left, Bool.false_eq_true, if_false]
          omega
        · simp only [ChildPc.left, if_true]
          omega
  | sigwaitinfo scnt =>
      rw [hpc] at h
      dsimp only at h
      split at h
      · obtain rfl := Option.some.inj h
        exact ⟨by simp only [ChildPc.left]; omega, rfl⟩
      · cases h
  | exited status =>
      rw [hpc] at h
      cases h

/-- **Every step lowers the number of steps that are left.** -/
theorem left_lt_of_step {a : Act} (h : step sigNum s a = some s') :
    left sigNum s' < left sigNum s := by
  cases a with
  | parent =>
      obtain ⟨hlt, hchild⟩ := left_lt_of_parentStep h
      unfold left
      rw [hchild]
      omega
  | child refused =>
      obtain ⟨hlt, hparent⟩ := left_lt_of_childStep h
      unfold left
      rw [hparent]
      omega

/-- What both processes have done once the child has exited with success. -/
theorem Phase.counts_of_exited {n : ℕ} (h : Phase sigNum n s) (hchild : s.child = .exited 0) :
    Counts s sigNum sigNum sigNum := by
  cases h with
  | child _ hat _ _ hcounts =>
      rw [hchild] at hat
      cases hat with
      | exited hn => exact hn ▸ hcounts
  | toParent _ _ hwaits =>
      rw [hchild] at hwaits
      cases hwaits
  | parent _ _ hwaits =>
      rw [hchild] at hwaits
      cases hwaits
  | toChild _ _ hwaits =>
      rw [hchild] at hwaits
      cases hwaits

/-- **Every run ends.**  For any number of rounds and in every interleaving, the two processes make
at most `7 * n + 2` steps for `n` rounds; and when neither can step both have exited with success,
each has received `n` signals, and the parent has sent `n`. -/
theorem both_exit (sigNum : ℕ) :
    (∀ as s, Runs.run (step sigNum) init as = some s → as.length ≤ 7 * sigNum + 2) ∧
    Runs.Completes (step sigNum) init fun s =>
      s.parent = .exited 0 ∧ s.child = .exited 0 ∧ receipts .parent s.log = sigNum ∧
        receipts .child s.log = sigNum ∧ kills .parent s.log = sigNum := by
  have hstep : ∀ s a s', Runs.Reachable (step sigNum) init s → step sigNum s a = some s' →
      Runs.Reachable (step sigNum) init s' := fun s a s' hreach hs => hreach.tail hs
  have hlower : ∀ s a s', Runs.Reachable (step sigNum) init s → step sigNum s a = some s' →
      left sigNum s' < left sigNum s := fun s a s' _ hs => left_lt_of_step hs
  constructor
  · intro as s hs
    have hle : as.length + left sigNum s ≤ left sigNum init :=
      Runs.length_add_measure_le hstep hlower (Runs.Reachable.refl _) hs
    have hinit : left sigNum init = 7 * sigNum + 2 := by
      simp only [left, init, ParentPc.left, ChildPc.left]
      omega
    omega
  · refine Runs.Completes.of_measure (left sigNum) hstep hlower ?_ (Runs.Reachable.refl _)
    intro s hreach hstuck
    obtain ⟨hparent, hchild⟩ := exited_of_stuck hreach hstuck
    obtain ⟨n, hphase⟩ := (Inv.of_reachable hreach).phase
    have hcounts : Counts s sigNum sigNum sigNum := hphase.counts_of_exited hchild
    exact ⟨hparent, hchild, hcounts.received, hcounts.answered, hcounts.sent⟩

end SignalPingPong
