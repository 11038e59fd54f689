/-
**The signals that two processes send each other in turn (`HW7/22_3`).**

After `fork` the child sends `SIGUSR1` to its parent and waits for one, `sig_num` times; the parent
waits for one and sends one, `sig_num` times.  The signal is blocked in both processes, so a process
holds at most one pending instance of it, and a `kill` that finds one pending is lost.  Nothing is
lost, because there is only one token in the system: the right to send is with one process or
pending at one process, in every interleaving and for any number of rounds.

Every loop test, every `getppid`, `kill` and `sigwaitinfo` and the end of the parent is one step.

Main definitions:

* `SignalPingPong.step` — one step of the parent or of the child;
* `SignalPingPong.Event` — what the log records: each `kill` with what it found, and each receipt;
* `SignalPingPong.Phase` — where the token is.

Main results:

* `SignalPingPong.Inv.of_reachable` — the token is in one place in every reachable state;
* `SignalPingPong.exited_of_stuck` — when neither process can step, both have exited with success;
* `SignalPingPong.no_signal_lost` — **no signal is merged, the two processes keep in turn, the
  parent outlives the child's `kill`s, and nobody is stranded**.
-/

import NetSysProg.History
import NetSysProg.Runs

set_option relaxedAutoImplicit false
set_option autoImplicit false

namespace SignalPingPong

/-! ### The processes -/

/-- The two processes. -/
inductive Proc
  | parent
  | child
  deriving DecidableEq

/-- Where the parent is; `scnt` is the counter of its loop. -/
inductive ParentPc
  /-- `scnt < sig_num`. -/
  | test (scnt : ℕ)
  | sigwaitinfo (scnt : ℕ)
  /-- `kill(child_pid, SIGUSR1)`. -/
  | kill (scnt : ℕ)
  | exited (status : ℕ)
  deriving DecidableEq

/-- The process whose id `getppid()` returns: the parent, or the process that takes over the orphans
once the parent has exited. -/
inductive Ppid
  | parent
  | reaper
  deriving DecidableEq

/-- Where the child is; `scnt` is the counter of its loop. -/
inductive ChildPc
  /-- `scnt < sig_num`. -/
  | test (scnt : ℕ)
  | getppid (scnt : ℕ)
  /-- `kill(ppid, SIGUSR1)`. -/
  | kill (scnt : ℕ) (ppid : Ppid)
  | sigwaitinfo (scnt : ℕ)
  | exited (status : ℕ)
  deriving DecidableEq

/-- What the log records. -/
inductive Event
  /-- The process called `kill`: whether `SIGUSR1` was pending at the other process, and whether the
  call was for the other process and found it alive. -/
  | kill (sender : Proc) (pending alive : Bool)
  /-- The process returned from `sigwaitinfo`. -/
  | receipt (p : Proc)
  deriving DecidableEq

/-- The two processes, whether `SIGUSR1` is pending at them, and the log. -/
structure State where
  parent : ParentPc
  child : ChildPc
  parentPending : Bool
  childPending : Bool
  log : List Event
  deriving DecidableEq

/-- After `fork`: both processes are at the head of their loops. -/
def init : State where
  parent := .test 0
  child := .test 0
  parentPending := false
  childPending := false
  log := []

/-- The parent has exited. -/
def ParentPc.hasExited : ParentPc → Bool
  | .exited _ => true
  | _ => false

/-- The child has exited. -/
def ChildPc.hasExited : ChildPc → Bool
  | .exited _ => true
  | _ => false

/-- Who takes the next step.  A `kill` of the child that is not for a live parent may be refused. -/
inductive Act
  | parent
  | child (refused : Bool)
  deriving DecidableEq

/-- One step of the parent.  `sigwaitinfo` blocks while nothing is pending; the child is not waited
for, so `kill` finds it, if only as a zombie. -/
def parentStep (sigNum : ℕ) (s : State) : Option State :=
  match s.parent with
  | .test scnt =>
      if scnt < sigNum then some { s with parent := .sigwaitinfo scnt }
      else some { s with parent := .exited 0 }
  | .sigwaitinfo scnt =>
      if s.parentPending then some { s with
        parent := .kill scnt
        parentPending := false
        log := s.log ++ [.receipt .parent] }
      else none
  | .kill scnt =>
      some { s with
        parent := .test (scnt + 1)
        childPending := !s.child.hasExited
        log := s.log ++ [.kill .parent s.childPending !s.child.hasExited] }
  | .exited _ => none

/-- One step of the child. -/
def childStep (sigNum : ℕ) (s : State) (refused : Bool) : Option State :=
  match s.child with
  | .test scnt =>
      if scnt < sigNum then some { s with child := .getppid scnt }
      else some { s with child := .exited 0 }
  | .getppid scnt =>
      some { s with child := .kill scnt (if s.parent.hasExited then .reaper else .parent) }
  | .kill scnt ppid =>
      if ppid = .parent ∧ s.parent.hasExited = false then
        some { s with
          child := .sigwaitinfo scnt
          parentPending := true
          log := s.log ++ [.kill .child s.parentPending true] }
      else
        -- the parent is gone: its id is free, or a zombie's, or belongs to the new parent
        some { s with
          child := if refused then .exited 1 else .sigwaitinfo scnt
          log := s.log ++ [.kill .child s.parentPending false] }
  | .sigwaitinfo scnt =>
      if s.childPending then some { s with
        child := .test (scnt + 1)
        childPending := false
        log := s.log ++ [.receipt .child] }
      else none
  | .exited _ => none

/-- One step of one of the processes. -/
def step (sigNum : ℕ) (s : State) : Act → Option State
  | .parent => parentStep sigNum s
  | .child refused => childStep sigNum s refused

/-! ### The history -/

/-- How often the process has returned from `sigwaitinfo`. -/
def receipts (p : Proc) (log : List Event) : ℕ := log.countP (· = .receipt p)

/-- How often the process has called `kill`. -/
def kills (p : Proc) (log : List Event) : ℕ :=
  log.countP fun e => match e with
    | .kill q _ _ => q = p
    | .receipt _ => false

/-- The rounds a process has completed: a round of the parent ends with its `kill`, a round of the
child with its `sigwaitinfo`. -/
def State.rounds (s : State) : Proc → ℕ
  | .parent => kills .parent s.log
  | .child => receipts .child s.log

/-- The law of the history: a `kill` never finds the signal pending, the child's always finds the
parent alive, and the child's `k`-th receipt comes after the parent's `k`-th. -/
def InTurn (pre : List Event) : Event → Prop
  | .kill sender pending alive => pending = false ∧ (sender = .child → alive = true)
  | .receipt .parent => True
  | .receipt .child => receipts .child pre + 1 ≤ receipts .parent pre

/-! ### The token -/

/-- The parent is about to begin round `n`, waits in it, or has exited after the last one. -/
inductive ParentAt (sigNum n : ℕ) : ParentPc → Prop
  | test (h : n ≤ sigNum) : ParentAt sigNum n (.test n)
  | waiting (h : n < sigNum) : ParentAt sigNum n (.sigwaitinfo n)
  | exited (h : n = sigNum) : ParentAt sigNum n (.exited 0)

/-- The child is about to begin round `n`, to send in it, or has exited after the last one. -/
inductive ChildAt (sigNum n : ℕ) : ChildPc → Prop
  | test (h : n ≤ sigNum) : ChildAt sigNum n (.test n)
  | getppid (h : n < sigNum) : ChildAt sigNum n (.getppid n)
  | kill (h : n < sigNum) : ChildAt sigNum n (.kill n .parent)
  | exited (h : n = sigNum) : ChildAt sigNum n (.exited 0)

/-- What the log counts: the receipts and the `kill`s of the parent, the receipts of the child. -/
structure Counts (s : State) (received sent answered : ℕ) : Prop where
  received : receipts .parent s.log = received
  sent : kills .parent s.log = sent
  answered : receipts .child s.log = answered

/-- **Where the token is** after `n` rounds. -/
inductive Phase (sigNum n : ℕ) (s : State) : Prop
  /-- With the child, which has not sent in this round. -/
  | child (parent : ParentAt sigNum n s.parent) (child : ChildAt sigNum n s.child)
      (noParent : s.parentPending = false) (noChild : s.childPending = false)
      (counts : Counts s n n n)
  /-- Pending at the parent. -/
  | toParent (lt : n < sigNum) (parent : ParentAt sigNum n s.parent)
      (child : s.child = .sigwaitinfo n)
      (pending : s.parentPending = true) (noChild : s.childPending = false)
      (counts : Counts s n n n)
  /-- With the parent, which has not sent in this round. -/
  | parent (lt : n < sigNum) (parent : s.parent = .kill n) (child : s.child = .sigwaitinfo n)
      (noParent : s.parentPending = false) (noChild : s.childPending = false)
      (counts : Counts s (n + 1) n n)
  /-- Pending at the child. -/
  | toChild (lt : n < sigNum) (parent : ParentAt sigNum (n + 1) s.parent)
      (child : s.child = .sigwaitinfo n)
      (noParent : s.parentPending = false) (pending : s.childPending = true)
      (counts : Counts s (n + 1) (n + 1) n)

/-- The token is somewhere, and the history so far obeys the law. -/
structure Inv (sigNum : ℕ) (s : State) : Prop where
  phase : ∃ n, Phase sigNum n s
  inTurn : History.Each InTurn s.log

theorem inv_init (sigNum : ℕ) : Inv sigNum init :=
  ⟨⟨0, .child (.test (Nat.zero_le _)) (.test (Nat.zero_le _)) rfl rfl ⟨rfl, rfl, rfl⟩⟩,
    History.each_nil⟩

@[simp] theorem receipts_append (p : Proc) (log : List Event) (e : Event) :
    receipts p (log ++ [e]) = receipts p log + if e = .receipt p then 1 else 0 := by
  simp [receipts, List.countP_append]

@[simp] theorem kills_append_kill (p q : Proc) (log : List Event) (pending alive : Bool) :
    kills p (log ++ [.kill q pending alive]) = kills p log + if q = p then 1 else 0 := by
  simp [kills, List.countP_append]

@[simp] theorem kills_append_receipt (p q : Proc) (log : List Event) :
    kills p (log ++ [.receipt q]) = kills p log := by
  simp [kills, List.countP_append]

/-- A parent between two rounds has not exited before the last one. -/
theorem ParentAt.hasExited {sigNum n : ℕ} {pc : ParentPc} (h : ParentAt sigNum n pc)
    (hlt : n < sigNum) : pc.hasExited = false := by
  cases h with
  | test => rfl
  | waiting => rfl
  | exited h => omega

/-- What a parent between two rounds does: it moves on by itself, or takes a pending signal. -/
theorem ParentAt.step {sigNum n : ℕ} {s s' : State} (h : ParentAt sigNum n s.parent)
    (hs : parentStep sigNum s = some s') :
    (∃ pc, ParentAt sigNum n pc ∧ s' = { s with parent := pc }) ∨
      (n < sigNum ∧ s.parentPending = true ∧ s' = { s with
        parent := .kill n
        parentPending := false
        log := s.log ++ [.receipt .parent] }) := by
  generalize hpc : s.parent = pc at h
  cases h with
  | test hle =>
      simp only [parentStep, hpc] at hs
      split at hs
      · next hlt =>
          cases hs
          exact Or.inl ⟨_, .waiting hlt, rfl⟩
      · next hge =>
          cases hs
          exact Or.inl ⟨_, .exited (by omega), rfl⟩
  | waiting hlt =>
      simp only [parentStep, hpc] at hs
      split at hs
      · next hpending =>
          cases hs
          exact Or.inr ⟨hlt, hpending, rfl⟩
      · simp at hs
  | exited _ => simp [parentStep, hpc] at hs

/-- What a child that has not sent in this round does: it moves on by itself, or sends to the live
parent. -/
theorem ChildAt.step {sigNum n : ℕ} {s s' : State} {refused : Bool} (h : ChildAt sigNum n s.child)
    (hparent : ParentAt sigNum n s.parent) (hs : childStep sigNum s refused = some s') :
    (∃ pc, ChildAt sigNum n pc ∧ s' = { s with child := pc }) ∨
      (n < sigNum ∧ s' = { s with
        child := .sigwaitinfo n
        parentPending := true
        log := s.log ++ [.kill .child s.parentPending true] }) := by
  generalize hpc : s.child = pc at h
  cases h with
  | test hle =>
      simp only [childStep, hpc] at hs
      split at hs
      · next hlt =>
          cases hs
          exact Or.inl ⟨_, .getppid hlt, rfl⟩
      · next hge =>
          cases hs
          exact Or.inl ⟨_, .exited (by omega), rfl⟩
  | getppid hlt =>
      simp only [childStep, hpc, hparent.hasExited hlt, Bool.false_eq_true, if_false] at hs
      cases hs
      exact Or.inl ⟨_, .kill hlt, rfl⟩
  | kill hlt =>
      have halive := hparent.hasExited hlt
      simp only [childStep, hpc, halive, and_self, if_true] at hs
      cases hs
      exact Or.inr ⟨hlt, rfl⟩
  | exited _ => simp [childStep, hpc] at hs

/-- A parent's step keeps the invariant. -/
theorem Inv.parentStep {sigNum : ℕ} {s s' : State} (hinv : Inv sigNum s)
    (hs : parentStep sigNum s = some s') : Inv sigNum s' := by
  obtain ⟨⟨n, hphase⟩, hturn⟩ := hinv
  cases hphase with
  | child hparent hchild hnoParent hnoChild hcounts =>
      rcases hparent.step hs with ⟨pc, hpc, rfl⟩ | ⟨-, hpending, -⟩
      · exact ⟨⟨n, .child hpc hchild hnoParent hnoChild ⟨hcounts.1, hcounts.2, hcounts.3⟩⟩, hturn⟩
      · simp [hnoParent] at hpending
  | toParent hlt hparent hchild hpending hnoChild hcounts =>
      rcases hparent.step hs with ⟨pc, hpc, rfl⟩ | ⟨-, -, rfl⟩
      · exact ⟨⟨n, .toParent hlt hpc hchild hpending hnoChild ⟨hcounts.1, hcounts.2, hcounts.3⟩⟩,
          hturn⟩
      · refine ⟨⟨n, .parent hlt rfl hchild rfl hnoChild ⟨?_, ?_, ?_⟩⟩, ?_⟩
        · simp [hcounts.received]
        · simp [hcounts.sent]
        · simp [hcounts.answered]
        · exact History.each_append_singleton.2 ⟨hturn, trivial⟩
  | parent hlt hparent hchild hnoParent hnoChild hcounts =>
      have halive : s.child.hasExited = false := by rw [hchild]; rfl
      simp only [SignalPingPong.parentStep, hparent, halive, Bool.not_false] at hs
      cases hs
      refine ⟨⟨n, .toChild hlt (.test hlt) hchild hnoParent rfl ⟨?_, ?_, ?_⟩⟩, ?_⟩
      · simp [hcounts.received]
      · simp [hcounts.sent]
      · simp [hcounts.answered]
      · exact History.each_append_singleton.2 ⟨hturn, hnoChild, by simp⟩
  | toChild hlt hparent hchild hnoParent hpending hcounts =>
      rcases hparent.step hs with ⟨pc, hpc, rfl⟩ | ⟨-, hparentPending, -⟩
      · exact ⟨⟨n, .toChild hlt hpc hchild hnoParent hpending ⟨hcounts.1, hcounts.2, hcounts.3⟩⟩,
          hturn⟩
      · simp [hnoParent] at hparentPending

/-- A child's step keeps the invariant. -/
theorem Inv.childStep {sigNum : ℕ} {s s' : State} {refused : Bool} (hinv : Inv sigNum s)
    (hs : childStep sigNum s refused = some s') : Inv sigNum s' := by
  obtain ⟨⟨n, hphase⟩, hturn⟩ := hinv
  cases hphase with
  | child hparent hchild hnoParent hnoChild hcounts =>
      rcases hchild.step hparent hs with ⟨pc, hpc, rfl⟩ | ⟨hlt, rfl⟩
      · exact ⟨⟨n, .child hparent hpc hnoParent hnoChild ⟨hcounts.1, hcounts.2, hcounts.3⟩⟩, hturn⟩
      · refine ⟨⟨n, .toParent hlt hparent rfl rfl hnoChild ⟨?_, ?_, ?_⟩⟩, ?_⟩
        · simp [hcounts.received]
        · simp [hcounts.sent]
        · simp [hcounts.answered]
        · exact History.each_append_singleton.2 ⟨hturn, hnoParent, by simp⟩
  | toParent _ _ hchild _ hnoChild _ =>
      simp [SignalPingPong.childStep, hchild, hnoChild] at hs
  | parent _ _ hchild _ hnoChild _ =>
      simp [SignalPingPong.childStep, hchild, hnoChild] at hs
  | toChild hlt hparent hchild hnoParent hpending hcounts =>
      simp only [SignalPingPong.childStep, hchild, hpending, if_true] at hs
      cases hs
      refine ⟨⟨n + 1, .child hparent (.test hlt) hnoParent rfl ⟨?_, ?_, ?_⟩⟩, ?_⟩
      · simp [hcounts.received]
      · simp [hcounts.sent]
      · simp [hcounts.answered]
      · refine History.each_append_singleton.2 ⟨hturn, ?_⟩
        have hreceived := hcounts.received
        have hanswered := hcounts.answered
        simp only [InTurn]
        omega

/-- **The invariant holds in every reachable state.** -/
theorem Inv.of_reachable {sigNum : ℕ} {s : State} (h : Runs.Reachable (step sigNum) init s) :
    Inv sigNum s := by
  refine h.invariant ?_ (inv_init sigNum)
  intro s a s' hinv hs
  cases a with
  | parent => exact hinv.parentStep hs
  | child refused => exact hinv.childStep hs

/-! ### Progress -/

/-- A parent between two rounds can go on unless it waits for a signal or has exited. -/
theorem ParentAt.exists_step {sigNum n : ℕ} {s : State} (h : ParentAt sigNum n s.parent)
    (hpending : s.parentPending = true) (hlt : n < sigNum) :
    ∃ s', parentStep sigNum s = some s' := by
  generalize hpc : s.parent = pc at h
  cases h with
  | test hle => simp [parentStep, hpc, hlt]
  | waiting _ => simp [parentStep, hpc, hpending]
  | exited h => omega

/-- A child that has not sent in this round can go on unless it has exited. -/
theorem ChildAt.exists_step {sigNum n : ℕ} {s : State} (h : ChildAt sigNum n s.child)
    (hlt : n < sigNum) : ∃ s', childStep sigNum s false = some s' := by
  generalize hpc : s.child = pc at h
  cases h with
  | test hle => simp [childStep, hpc, hlt]
  | getppid _ => simp [childStep, hpc]
  | kill _ =>
      by_cases halive : s.parent.hasExited = false
      · simp [childStep, hpc, halive]
      · simp [childStep, hpc, halive]
  | exited h => omega

/-- **The holder of the token can step** until both processes have completed their rounds. -/
theorem Phase.exists_step {sigNum n : ℕ} {s : State} (h : Phase sigNum n s)
    (hrounds : ¬ (s.rounds .parent = sigNum ∧ s.rounds .child = sigNum)) :
    ∃ a s', step sigNum s a = some s' := by
  cases h with
  | child hparent hchild _ _ hcounts =>
      have hsent : s.rounds .parent = n := hcounts.sent
      have hanswered : s.rounds .child = n := hcounts.answered
      have hle : n ≤ sigNum := by
        generalize s.child = pc at hchild
        cases hchild <;> omega
      obtain ⟨s', hs'⟩ := hchild.exists_step (by omega)
      exact ⟨.child false, s', hs'⟩
  | toParent hlt hparent _ hpending _ _ =>
      obtain ⟨s', hs'⟩ := hparent.exists_step hpending hlt
      exact ⟨.parent, s', hs'⟩
  | parent _ hparent _ _ _ _ => exact ⟨.parent, by simp [step, parentStep, hparent]⟩
  | toChild _ _ hchild _ hpending _ =>
      exact ⟨.child false, by simp [step, childStep, hchild, hpending]⟩

/-- A state in which neither process can step is the end of both: each has completed its rounds and
exited with success. -/
theorem exited_of_stuck {sigNum : ℕ} {s : State} (h : Runs.Reachable (step sigNum) init s)
    (hstuck : Runs.Stuck (step sigNum) s) : s.parent = .exited 0 ∧ s.child = .exited 0 := by
  obtain ⟨n, hphase⟩ := (Inv.of_reachable h).phase
  by_cases hrounds : s.rounds .parent = sigNum ∧ s.rounds .child = sigNum
  · have hparentStep : SignalPingPong.parentStep sigNum s = none := hstuck .parent
    have hchildStep : SignalPingPong.childStep sigNum s false = none := hstuck (.child false)
    cases hphase with
    | child hparent hchild _ _ hcounts =>
        have hlast : n = sigNum := hcounts.answered.symm.trans hrounds.2
        generalize hpc : s.parent = pc at hparent
        generalize hcc : s.child = cc at hchild
        have hp : pc = .exited 0 := by
          cases hparent with
          | test _ => simp [parentStep, hpc, hlast] at hparentStep
          | waiting hlt => omega
          | exited _ => rfl
        have hc : cc = .exited 0 := by
          cases hchild with
          | test _ => simp [childStep, hcc, hlast] at hchildStep
          | getppid hlt => omega
          | kill hlt => omega
          | exited _ => rfl
        exact ⟨hp, hc⟩
    | toParent hlt _ _ _ _ hcounts =>
        have hanswered : s.rounds .child = n := hcounts.answered
        omega
    | parent hlt _ _ _ _ hcounts =>
        have hanswered : s.rounds .child = n := hcounts.answered
        omega
    | toChild hlt _ _ _ _ hcounts =>
        have hanswered : s.rounds .child = n := hcounts.answered
        omega
  · obtain ⟨a, s', hs'⟩ := hphase.exists_step hrounds
    exact absurd hstuck (Runs.not_stuck_of_step hs')

/-- **No signal is lost.**  In every reachable state of the two processes, for any number of rounds:
no `kill` found the signal pending, every `kill` of the child was for the parent and found it alive,
the child's `k`-th receipt came after the parent's `k`-th, and unless both have completed their
rounds one of them can step. -/
theorem no_signal_lost {sigNum : ℕ} {s : State}
    (h : Runs.Reachable (step sigNum) init s) :
    History.Each InTurn s.log ∧
      (¬ (s.rounds .parent = sigNum ∧ s.rounds .child = sigNum) →
        ∃ a s', step sigNum s a = some s') := by
  have hinv := Inv.of_reachable h
  obtain ⟨n, hphase⟩ := hinv.phase
  exact ⟨hinv.inTurn, hphase.exists_step⟩

/-- The parent has completed its one round, and the child can go on. -/
theorem no_signal_lost_one :
    ∃ s, Runs.Reachable (step 1) init s ∧ s.rounds .parent = 1 ∧ s.rounds .child = 0 ∧
      History.Each InTurn s.log ∧ ∃ a s', step 1 s a = some s' := by
  let acts : List Act := [.child false, .child false, .child false, .parent, .parent, .parent]
  have hrun : ∃ s : State, Runs.run (step 1) init acts = some s ∧
      s.rounds .parent = 1 ∧ s.rounds .child = 0 := ⟨_, rfl, rfl, rfl⟩
  obtain ⟨s, hs, hparent, hchild⟩ := hrun
  have hreach : Runs.Reachable (step 1) init s := .of_run hs
  obtain ⟨hturn, hlive⟩ := no_signal_lost hreach
  exact ⟨s, hreach, hparent, hchild, hturn, hlive (by omega)⟩

end SignalPingPong
