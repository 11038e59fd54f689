/-
**What the producer of the ring reports (`HW10`).**

The consumers add to the shared counter by a load and a store, without a semaphore, and the producer
reads the counter as soon as one of them has ended.  So an addition is lost when another one comes
in between, and it is missed when it comes after the report.  `Ring.Recorded` names what a step has
to avoid, and in the runs that do the counter plus the additions under way is the number of messages
received.

Main definitions:

* `Ring.State.unrecorded` — the consumers that have received a message and not counted it yet;
* `Ring.Consumer.Settled` — the consumer has counted what it has received and receives no more;
* `Ring.Recorded` — the step loses no addition, and reports after the last of them.

Main results:

* `Ring.report_eq_hits` — **in every run of such steps the report is the number of messages received
  in the lifetime of all consumers**;
* `Ring.exists_lost_together` — two consumers that receive one message at the same time.
-/

import NetSysProg.Completion
import NetSysProg.RingModel
import Mathlib.Algebra.BigOperators.Fin

set_option relaxedAutoImplicit false
set_option autoImplicit false

namespace Ring

open Finset

variable {p : Params}

/-! ### Additions under way -/

/-- Whether the consumer has received a message that it has not counted. -/
def Consumer.unrecorded (k : Consumer) : ℕ :=
  match k.pc with
  | .loadCnt _ => 1
  | .storeCnt _ _ => 1
  | _ => 0

/-- The number of consumers that have received a message that they have not counted. -/
def State.unrecorded (s : State p) : ℕ := ∑ c, (s.consumer c).unrecorded

/-- A consumer at `pc` has counted what it has received, and does not receive what it is
handling. -/
def ConsumerPc.Misses (p : Params) (shmp : ℕ → Shmseg) : ConsumerPc → Prop
  | .load v => (v : ℤ) ≠ (shmp (v % p.b)).msgNum
  | .test v msgNum => (v : ℤ) ≠ msgNum
  | .loadCnt _ => False
  | .storeCnt _ _ => False
  | _ => True

/-- The consumer has counted what it has received, and with the ring `shmp` it receives no more. -/
def Consumer.Settled (p : Params) (shmp : ℕ → Shmseg) (k : Consumer) : Prop :=
  (∀ v ∈ k.pending, (v : ℤ) ≠ (shmp (v % p.b)).msgNum) ∧ k.pc.Misses p shmp

theorem Consumer.Settled.unrecorded {shmp : ℕ → Shmseg} {k : Consumer} (h : k.Settled p shmp) :
    k.unrecorded = 0 := by
  obtain ⟨-, hpc⟩ := h
  unfold Consumer.unrecorded
  split
  · next v hv => simp only [hv, ConsumerPc.Misses] at hpc
  · next v x hv => simp only [hv, ConsumerPc.Misses] at hpc
  · rfl

/-- A settled consumer stays settled, counts nothing and receives nothing. -/
theorem Consumer.Settled.move {sh : Shared} {k : Consumer} {r : Moved} (h : k.Settled p sh.shmp)
    (hr : consumerMove p sh k = some r) :
    r.consumer.Settled p sh.shmp ∧ r.shared.cnt = sh.cnt ∧ r.hit = false := by
  obtain ⟨hpend, hmiss⟩ := h
  cases ConsumerMove.of_move hr with
  | @take v hpc hv => exact ⟨⟨by simp, hpend v hv⟩, rfl, rfl⟩
  | load hpc =>
      rw [hpc] at hmiss
      exact ⟨⟨hpend, hmiss⟩, rfl, rfl⟩
  | hit hpc heq =>
      rw [hpc] at hmiss
      exact absurd heq hmiss
  | loadCnt hpc | storeCnt hpc =>
      rw [hpc] at hmiss
      cases hmiss
  | miss | loadLoss | storeLoss | again | leave | exit => exact ⟨⟨hpend, trivial⟩, rfl, rfl⟩

/-! ### The condition and the invariant -/

/-- A consumer at `pc` stores the new value of the counter only while the counter has the value it
has loaded, which is below `INT_MAX`. -/
def ConsumerPc.Keeps (cnt : ℤ) : ConsumerPc → Prop
  | .storeCnt _ x => cnt = x ∧ x < CInt.intMax
  | _ => True

/-- The next operation of the producer reads the counter for its report. -/
def ProducerPc.Reads : ProducerPc → Prop
  | .loadRate => True
  | .loadReport _ => True
  | _ => False

/-- **The condition on a step.**  No addition to the counter is lost, and the producer reads the
counter for its report only when every consumer is settled. -/
def Recorded (s : State p) : Act p → Prop
  | .consumer c => (s.consumer c).pc.Keeps s.shared.cnt
  | .producer _ => s.producer.Reads → ∀ c, (s.consumer c).Settled p s.shared.shmp

/-- Every consumer is settled. -/
def State.Settled (s : State p) : Prop := ∀ c, (s.consumer c).Settled p s.shared.shmp

/-- What the producer has read is the number of messages received, and no more will be. -/
def ProducerPc.Reported (s : State p) : ProducerPc → Prop
  | .loadReport rate => rate = s.hits ∧ s.Settled
  | .done rate report => rate = s.hits ∧ report = s.hits ∧ s.Settled
  | _ => True

/-- The counter with the additions under way, and the report. -/
structure Counted (s : State p) : Prop where
  nonneg : 0 ≤ s.shared.cnt
  total : s.shared.cnt + s.unrecorded = s.hits
  reported : s.producer.Reported s

theorem State.Settled.unrecorded {s : State p} (h : s.Settled) : s.unrecorded = 0 :=
  Finset.sum_eq_zero fun c _ => (h c).unrecorded

/-- A step of a consumer when all are settled. -/
theorem State.Settled.consumerStep {s s' : State p} {c : Fin p.n} (h : s.Settled)
    (hs : consumerStep s c = some s') : s'.Settled ∧ s'.hits = s.hits := by
  obtain ⟨r, hr, rfl⟩ := consumerStep_eq_some hs
  obtain ⟨hsettled, -, hhit⟩ := (h c).move hr
  refine ⟨?_, by rw [State.moved_hits, hhit]; rfl⟩
  intro d
  rw [State.moved_shared, consumerMove_shmp hr, State.moved_consumer]
  by_cases hd : d = c
  · subst hd
    rw [Function.update_self]
    exact hsettled
  · rw [Function.update_of_ne hd]
    exact h d

/-- The counter with the additions under way grows with every message received. -/
theorem Counted.move {sh : Shared} {k : Consumer} {r : Moved} (hnonneg : 0 ≤ sh.cnt)
    (hkeep : k.pc.Keeps sh.cnt) (hr : consumerMove p sh k = some r) :
    0 ≤ r.shared.cnt ∧ r.shared.cnt + r.consumer.unrecorded =
      sh.cnt + k.unrecorded + if r.hit then 1 else 0 := by
  cases ConsumerMove.of_move hr with
  | @storeCnt v x hpc =>
      -- the counter still has the value that was loaded
      rw [hpc] at hkeep
      obtain ⟨hcnt, hmax⟩ := hkeep
      have hwrap : CInt.wrap (x + 1) = x + 1 := CInt.wrap_of_nonneg (by omega) (by omega)
      simp [Consumer.unrecorded, hpc, hwrap]
      omega
  | take hpc | load hpc | hit hpc | miss hpc | loadCnt hpc | loadLoss hpc | storeLoss hpc
  | again hpc
  | leave hpc | exit hpc => simp [Consumer.unrecorded, hpc, hnonneg]

theorem Counted.of_consumerStep {s s' : State p} {c : Fin p.n} (h : Counted s)
    (hok : Recorded s (.consumer c)) (hs : consumerStep s c = some s') : Counted s' := by
  have hreported : s'.producer.Reported s' := by
    have hrep := h.reported
    obtain ⟨r, -, hs'⟩ := consumerStep_eq_some hs
    have hprod : s'.producer = s.producer := by rw [hs', State.moved_producer]
    rw [hprod]
    unfold ProducerPc.Reported at hrep ⊢
    split at hrep
    · obtain ⟨hsettled, hhits⟩ := hrep.2.consumerStep hs
      exact ⟨hhits ▸ hrep.1, hsettled⟩
    · obtain ⟨hsettled, hhits⟩ := hrep.2.2.consumerStep hs
      exact ⟨hhits ▸ hrep.1, hhits ▸ hrep.2.1, hsettled⟩
    · trivial
  obtain ⟨r, hr, rfl⟩ := consumerStep_eq_some hs
  obtain ⟨hnonneg, hcnt⟩ := Counted.move h.nonneg hok hr
  have hun : (s.moved c r).unrecorded + (s.consumer c).unrecorded =
      s.unrecorded + r.consumer.unrecorded :=
    Runs.sum_update (fun _ => Consumer.unrecorded) s.consumer c r.consumer
  have htotal := h.total
  refine ⟨hnonneg, ?_, hreported⟩
  rw [State.moved_shared, State.moved_hits]
  cases hhit : r.hit <;> simp only [hhit, if_true, Bool.false_eq_true, if_false] at hcnt ⊢ <;> omega

theorem Consumer.unrecorded_sigqueue (k : Consumer) (v : ℕ) :
    (k.sigqueue v).unrecorded = k.unrecorded := by
  unfold Consumer.sigqueue
  split <;> rfl

/-- A step of the producer that leaves the counter and the additions under way alone. -/
theorem Counted.keep {s s' : State p} (h : Counted s) (hcnt : s'.shared.cnt = s.shared.cnt)
    (hun : s'.unrecorded = s.unrecorded) (hhits : s'.hits = s.hits)
    (hrep : s'.producer.Reported s') : Counted s' :=
  ⟨hcnt ▸ h.nonneg, by rw [hcnt, hun, hhits]; exact h.total, hrep⟩

theorem Counted.of_producerStep {s s' : State p} {late : Bool} (h : Counted s)
    (hok : Recorded s (.producer late)) (hs : producerStep s late = some s') : Counted s' := by
  have hread : s.producer.Reads → s.shared.cnt = s.hits ∧ s.Settled := by
    intro hr
    have hsettled : s.Settled := hok hr
    have htotal := h.total
    rw [hsettled.unrecorded] at htotal
    exact ⟨by omega, hsettled⟩
  cases ProducerMove.of_step hs with
  | @sigqueue _ i k hpc hk =>
      refine h.keep rfl ?_ rfl trivial
      have hsum := Runs.sum_update (fun _ => Consumer.unrecorded) s.consumer ⟨k, hk⟩
        ((s.consumer ⟨k, hk⟩).sigqueue i)
      rw [Consumer.unrecorded_sigqueue] at hsum
      exact Nat.add_right_cancel hsum
  | loadRate hpc =>
      have hcnt := hread (by rw [hpc]; trivial)
      exact h.keep rfl rfl rfl hcnt
  | loadReport hpc =>
      have hcnt := hread (by rw [hpc]; trivial)
      have hrep := h.reported
      rw [hpc] at hrep
      exact h.keep rfl rfl rfl ⟨hrep.1, hcnt⟩
  | _ => exact h.keep rfl rfl rfl trivial

/-- **In a run of such steps the report is true.**  Both values of the counter that the producer
reads, for the loss rate and for the sum it prints, are the number of times that the test of a
consumer has succeeded, then and at the end of any run that follows. -/
theorem report_eq_hits {shmp : ℕ → Shmseg} {s s' : State p} {rate report : ℤ}
    (h : Runs.ReachableVia step Recorded (init p shmp) s) (hdone : s.producer = .done rate report)
    (hrest : Runs.Reachable step s s') : report = s'.hits ∧ rate = s'.hits := by
  have hstep : ∀ (s : State p) a s', Counted s → Recorded s a → step s a = some s' →
      Counted s' := by
    intro s a s' hi hok hs
    cases a with
    | producer late => exact hi.of_producerStep hok hs
    | consumer c => exact hi.of_consumerStep hok hs
  have hinit : Counted (init p shmp) :=
    ⟨le_rfl, by simp [State.unrecorded, init, Consumer.unrecorded], trivial⟩
  have hrep := (h.invariant hstep hinit).reported
  rw [hdone] at hrep
  obtain ⟨hrate, hreport, hsettled⟩ := hrep
  -- nothing is received after the report
  let I : State p → Prop := fun t => t.Settled ∧ t.hits = s.hits ∧ t.producer = s.producer
  have hrest' : I s' := by
    refine hrest.invariant ?_ ⟨hsettled, rfl, rfl⟩
    rintro t a t' ⟨ht, hhits, hprod⟩ hs
    cases a with
    | producer late => simp [step, producerStep, hprod, hdone] at hs
    | consumer c =>
        obtain ⟨ht', hhits'⟩ := ht.consumerStep hs
        obtain ⟨r, -, rfl⟩ := consumerStep_eq_some hs
        exact ⟨ht', hhits'.trans hhits, hprod⟩
  obtain ⟨-, hhits, -⟩ := hrest'
  exact ⟨by rw [hhits]; exact hreport, by rw [hhits]; exact hrate⟩

instance (shmp : ℕ → Shmseg) (pc : ConsumerPc) : Decidable (pc.Misses p shmp) :=
  match pc with
  | .load v => inferInstanceAs (Decidable ((v : ℤ) ≠ (shmp (v % p.b)).msgNum))
  | .test v msgNum => inferInstanceAs (Decidable ((v : ℤ) ≠ msgNum))
  | .loadCnt _ | .storeCnt _ _ => inferInstanceAs (Decidable False)
  | .wait | .loadLoss _ | .storeLoss _ _ | .testEnd _ | .left | .exited =>
      inferInstanceAs (Decidable True)

instance (shmp : ℕ → Shmseg) (k : Consumer) : Decidable (k.Settled p shmp) :=
  inferInstanceAs (Decidable ((∀ v ∈ k.pending, (v : ℤ) ≠ (shmp (v % p.b)).msgNum) ∧
    k.pc.Misses p shmp))

instance (cnt : ℤ) (pc : ConsumerPc) : Decidable (pc.Keeps cnt) :=
  match pc with
  | .storeCnt _ x => inferInstanceAs (Decidable (cnt = x ∧ x < CInt.intMax))
  | .wait | .load _ | .test _ _ | .loadCnt _ | .loadLoss _ | .storeLoss _ _ | .testEnd _ | .left
  | .exited => inferInstanceAs (Decidable True)

instance (pc : ProducerPc) : Decidable pc.Reads :=
  match pc with
  | .loadRate | .loadReport _ => inferInstanceAs (Decidable True)
  | .head _ | .storeBuf _ | .storeNum _ | .send _ _ | .clock _ _ | .sleep _ | .wait | .done _ _
  | .fault => inferInstanceAs (Decidable False)

instance (s : State p) (a : Act p) : Decidable (Recorded s a) :=
  match a with
  | .consumer c => inferInstanceAs (Decidable ((s.consumer c).pc.Keeps s.shared.cnt))
  | .producer _ => inferInstanceAs (Decidable (s.producer.Reads →
      ∀ c, (s.consumer c).Settled p s.shared.shmp))

/-! ### Runs -/

/-- One message for two consumers over a ring of one slot. -/
def twoConsumers : Params := ⟨1, 2, 1, by decide, by decide, by decide⟩

/-- Its consumers. -/
def firstConsumer : Fin twoConsumers.n := ⟨0, by decide⟩

def secondConsumer : Fin twoConsumers.n := ⟨1, by decide⟩

/-- The producer sends its message to both. -/
def sendToBoth : List (Act twoConsumers) := List.replicate 10 (.producer false)

/-- The two consumers receive the message one after the other. -/
def inTurn : List (Act twoConsumers) :=
  sendToBoth ++ List.replicate 7 (.consumer firstConsumer) ++
    List.replicate 7 (.consumer secondConsumer) ++ List.replicate 3 (.producer false)

theorem report_eq_hits_inTurn :
    ∃ s, Runs.ReachableVia step Recorded (init twoConsumers emptyRing) s ∧
      s.producer = .done 2 2 ∧ s.hits = 2 := by
  have hend : (Runs.run (fun s a => if Recorded s a then step s a else none)
      (init twoConsumers emptyRing) inTurn).map (fun s => s.producer) = some (.done 2 2) := by
    decide
  obtain ⟨s, hs, hdone⟩ := Option.map_eq_some_iff.1 hend
  have hvia := Runs.ReachableVia.of_run hs
  obtain ⟨hreport, -⟩ := report_eq_hits hvia hdone (.refl s)
  exact ⟨s, hvia, hdone, by omega⟩

/-- The two consumers load the counter before either of them stores it. -/
def together : List (Act twoConsumers) :=
  sendToBoth ++ List.replicate 4 (.consumer firstConsumer) ++
    List.replicate 7 (.consumer secondConsumer) ++ List.replicate 3 (.consumer firstConsumer) ++
    List.replicate 3 (.producer false)

/-- **An addition is lost**: two consumers have received the message, and the report is one. -/
theorem exists_lost_together :
    ∃ s, Runs.Reachable step (init twoConsumers emptyRing) s ∧ s.producer = .done 1 1 ∧
      s.hits = 2 := by
  have hend : (Runs.run step (init twoConsumers emptyRing) together).map
      (fun s => (s.producer, s.hits)) = some (.done 1 1, 2) := by decide
  obtain ⟨s, hs, heq⟩ := Option.map_eq_some_iff.1 hend
  obtain ⟨hdone, hhits⟩ : s.producer = .done 1 1 ∧ s.hits = 2 := by simpa using heq
  exact ⟨s, .of_run hs, hdone, hhits⟩

end Ring
