/-
**When a consumer of the ring waits for ever (`HW10`).**

A consumer leaves its loop only on the signal of message `M - 1`.  That signal is discarded when an
earlier one is still pending for the consumer, and it is never sent to the consumers that the
producer has not come to when it gives up on the last message.  These are the only two ways in which
a consumer can be left behind.

Main definitions:

* `Ring.Consumer.Served` — the last message is pending for the consumer or has been seen by it;
* `Ring.LastArrives` — the step neither discards the last message nor gives up on it early.

Main results:

* `Ring.not_stranded_of_lastArrives` — **in every run in which the last message arrives, no consumer
  is left behind**;
* `Ring.exists_stranded_slowConsumer` — a consumer that is one message late is left behind.
-/

import NetSysProg.RingModel

set_option relaxedAutoImplicit false
set_option autoImplicit false

namespace Ring

variable {p : Params}

/-! ### The last message -/

/-- The value of the signal that a consumer is handling. -/
def ConsumerPc.handled : ConsumerPc → Option ℕ
  | .load v => some v
  | .test v _ => some v
  | .loadCnt v => some v
  | .storeCnt v _ => some v
  | .loadLoss v => some v
  | .storeLoss v _ => some v
  | .testEnd v => some v
  | _ => none

/-- The consumer has seen message `M - 1`: it is handling it, or it has left its loop. -/
def Consumer.SeenLast (p : Params) (k : Consumer) : Prop :=
  k.pc.handled = some (p.m - 1) ∨ k.pc = .left ∨ k.pc = .exited

/-- The consumer has seen message `M - 1`, or its signal is pending. -/
def Consumer.Served (p : Params) (k : Consumer) : Prop :=
  k.pending = some (p.m - 1) ∨ k.SeenLast p

/-- The consumer waits for a signal, and none is pending. -/
def Consumer.Stranded (k : Consumer) : Prop := k.pc = .wait ∧ k.pending = none

theorem Consumer.Served.not_stranded {k : Consumer} (h : k.Served p) : ¬ k.Stranded := by
  rintro ⟨hpc, hnone⟩
  rcases h with h | h | h | h <;> simp_all [ConsumerPc.handled]

/-- A step of the consumer that has seen the last message. -/
theorem Consumer.SeenLast.move {sh : Shared} {k : Consumer} {r : Moved} (h : k.SeenLast p)
    (hr : consumerMove p sh k = some r) : r.consumer.SeenLast p := by
  rcases h with hv | hpc | hpc
  · cases ConsumerMove.of_move hr with
    | take hpc _ | exit hpc =>
        rw [hpc] at hv
        cases hv
    | load hpc | hit hpc _ | miss hpc _ | loadCnt hpc | storeCnt hpc | loadLoss hpc
    | storeLoss hpc =>
        rw [hpc] at hv
        exact Or.inl hv
    | again hpc hne =>
        -- the value of the last message ends the loop
        rw [hpc] at hv
        exact absurd (Option.some.inj hv) hne
    | leave => exact Or.inr (Or.inl rfl)
  · simp only [consumerMove, hpc, Option.some.injEq] at hr
    subst hr
    exact Or.inr (Or.inr rfl)
  · simp [consumerMove, hpc] at hr

/-- A step of the consumer keeps it served. -/
theorem Consumer.Served.move {sh : Shared} {k : Consumer} {r : Moved} (h : k.Served p)
    (hr : consumerMove p sh k = some r) : r.consumer.Served p := by
  rcases h with hpend | hseen
  · cases ConsumerMove.of_move hr with
    | @take v _ hv =>
        -- the pending signal is taken
        obtain rfl : v = p.m - 1 := Option.some.inj (hv.symm.trans hpend)
        exact Or.inr (Or.inl rfl)
    | _ => exact Or.inl hpend
  · exact Or.inr (hseen.move hr)

/-- A signal takes nothing away. -/
theorem Consumer.Served.sigqueue {k : Consumer} (h : k.Served p) (v : ℕ) :
    (k.sigqueue v).Served p := by
  unfold Consumer.sigqueue
  split
  · next hnone =>
      rcases h with hpend | hseen
      · simp [hnone] at hpend
      · exact Or.inr hseen
  · exact h

/-- The last message is not discarded when nothing is pending. -/
theorem Consumer.served_sigqueue {k : Consumer} (h : k.pending = none) :
    (k.sigqueue (p.m - 1)).Served p := by
  refine Or.inl ?_
  simp only [Consumer.sigqueue, h]

/-! ### The condition and the invariant -/

/-- The producer at `pc` neither discards the signal of message `M - 1` nor gives up on that message
before its last consumer. -/
def ProducerPc.LastArrives (consumer : Fin p.n → Consumer) (late : Bool) : ProducerPc → Prop
  | .send i sigIndex =>
      i + 1 = p.m → ∀ h : sigIndex < p.n, (consumer ⟨sigIndex, h⟩).pending = none
  | .clock i sigIndex => late = true → i + 1 = p.m → sigIndex + 1 = p.n
  | _ => True

instance (consumer : Fin p.n → Consumer) (late : Bool) (pc : ProducerPc) :
    Decidable (pc.LastArrives consumer late) :=
  match pc with
  | .send i sigIndex => inferInstanceAs (Decidable (i + 1 = p.m → ∀ h : sigIndex < p.n,
      (consumer ⟨sigIndex, h⟩).pending = none))
  | .clock i sigIndex =>
      inferInstanceAs (Decidable (late = true → i + 1 = p.m → sigIndex + 1 = p.n))
  | .head _ | .storeBuf _ | .storeNum _ | .sleep _ | .wait | .loadRate | .loadReport _ | .done _ _
  | .fault => inferInstanceAs (Decidable True)

/-- **The condition on a step**: the last message arrives. -/
def LastArrives (s : State p) : Act p → Prop
  | .producer late => s.producer.LastArrives s.consumer late
  | .consumer _ => True

instance (s : State p) (a : Act p) : Decidable (LastArrives s a) :=
  match a with
  | .producer late => inferInstanceAs (Decidable (s.producer.LastArrives s.consumer late))
  | .consumer _ => inferInstanceAs (Decidable True)

/-- To how many of the consumers message `M - 1` has been sent. -/
def ProducerPc.served (p : Params) : ProducerPc → ℕ
  | .send i sigIndex => if i + 1 = p.m then sigIndex else 0
  | .clock i sigIndex => if i + 1 = p.m then sigIndex + 1 else 0
  | .sleep i => if i + 1 = p.m then p.n else 0
  | .head i => if p.m ≤ i then p.n else 0
  | .wait => p.n
  | .loadRate => p.n
  | .loadReport _ => p.n
  | .done _ _ => p.n
  | _ => 0

theorem ProducerPc.Finished.served {pc : ProducerPc} (h : pc.Finished) : pc.served p = p.n := by
  cases pc <;> first | rfl | exact h.elim

/-- Every consumer the last message has been sent to has been served. -/
def ServedSoFar (s : State p) : Prop :=
  ∀ c : Fin p.n, c.val < s.producer.served p → (s.consumer c).Served p

/-- A producer that has sent nothing more keeps everybody served. -/
theorem ServedSoFar.of_le {s s' : State p} (h : ServedSoFar s) (hc : s'.consumer = s.consumer)
    (hle : s'.producer.served p ≤ s.producer.served p) : ServedSoFar s' := by
  intro c hlt
  rw [hc]
  exact h c (by omega)

/-- The signal of a message is sent to one more consumer. -/
theorem ServedSoFar.sigqueue {s : State p} (h : ServedSoFar s) {i k : ℕ}
    (hpc : s.producer = .send i k) (hk : k < p.n)
    (hok : i + 1 = p.m → (s.consumer ⟨k, hk⟩).pending = none) :
    ServedSoFar { s with
      consumer := Function.update s.consumer ⟨k, hk⟩ ((s.consumer ⟨k, hk⟩).sigqueue i)
      producer := .clock i k } := by
  intro c hlt
  simp only [ProducerPc.served] at hlt
  split at hlt
  · next hlast =>
      obtain rfl : i = p.m - 1 := by omega
      by_cases hc : c = ⟨k, hk⟩
      · subst hc
        simp only [Function.update_self]
        exact Consumer.served_sigqueue (hok hlast)
      · have hne : c.val ≠ k := fun heq => hc (Fin.ext heq)
        simp only [Function.update_of_ne hc]
        refine h c ?_
        simp only [hpc, ProducerPc.served, if_pos hlast]
        omega
  · omega

theorem ServedSoFar.of_producerStep {s s' : State p} {late : Bool} (h : ServedSoFar s)
    (hmsg : ∀ i, s.producer.message = some i → i < p.m) (hok : LastArrives s (.producer late))
    (hs : producerStep s late = some s') : ServedSoFar s' := by
  change s.producer.LastArrives s.consumer late at hok
  cases ProducerMove.of_step hs with
  | enter hpc => exact h.of_le rfl (Nat.zero_le _)
  | finish hpc hge => exact h.of_le rfl (by simp [hpc, ProducerPc.served, hge])
  | storeBuf hpc => exact h.of_le rfl (Nat.zero_le _)
  | storeNum hpc => exact h.of_le rfl (by simp [ProducerPc.served])
  | sigqueue hpc hk =>
      rw [hpc] at hok
      exact h.sigqueue hpc hk fun hlast => hok hlast hk
  | sent hpc hge =>
      refine h.of_le rfl ?_
      simp only [hpc, ProducerPc.served]
      split <;> omega
  | giveUp hpc =>
      refine h.of_le rfl ?_
      rw [hpc] at hok
      simp only [hpc, ProducerPc.served]
      split
      · next hlast => exact (hok rfl hlast).ge
      · exact Nat.le_refl 0
  | goOn hpc => exact h.of_le rfl (by simp [hpc, ProducerPc.served])
  | @next _ i hpc =>
      have hlt : i < p.m := hmsg i (by rw [hpc]; rfl)
      refine h.of_le rfl ?_
      simp only [hpc, ProducerPc.served]
      split <;> split <;> omega
  | overflow hpc => exact h.of_le rfl (Nat.zero_le _)
  | reap hpc => exact h.of_le rfl (by simp [hpc, ProducerPc.served])
  | loadRate hpc => exact h.of_le rfl (by simp [hpc, ProducerPc.served])
  | loadReport hpc => exact h.of_le rfl (by simp [hpc, ProducerPc.served])

theorem ServedSoFar.of_consumerStep {s s' : State p} {c : Fin p.n} (h : ServedSoFar s)
    (hs : consumerStep s c = some s') : ServedSoFar s' := by
  obtain ⟨r, hr, rfl⟩ := consumerStep_eq_some hs
  intro d hlt
  rw [State.moved_consumer]
  by_cases hd : d = c
  · subst hd
    rw [Function.update_self]
    exact (h d hlt).move hr
  · rw [Function.update_of_ne hd]
    exact h d hlt

/-- **No consumer is left behind in a run in which the last message arrives.**  Once the producer
has finished its loop, every consumer has the signal of message `M - 1` pending, is handling it or
has left its loop; none waits with nothing pending. -/
theorem not_stranded_of_lastArrives {shmp : ℕ → Shmseg} {s : State p}
    (h : Runs.ReachableVia step LastArrives (init p shmp) s) (hfin : s.producer.Finished)
    (c : Fin p.n) :
    ((s.consumer c).pending = some (p.m - 1) ∨ (s.consumer c).SeenLast p) ∧
      ¬ (s.consumer c).Stranded := by
  let I : State p → Prop := fun s => Runs.Reachable step (init p shmp) s ∧ ServedSoFar s
  have hstep : ∀ s a s', I s → LastArrives s a → step s a = some s' → I s' := by
    rintro s a s' ⟨hreach, hi⟩ hok hs
    refine ⟨hreach.tail hs, ?_⟩
    cases a with
    | producer late => exact hi.of_producerStep (message_lt hreach) hok hs
    | consumer c => exact hi.of_consumerStep hs
  have hinit : ServedSoFar (init p shmp) := by
    intro c hlt
    have hpos := p.m_pos
    simp only [init, ProducerPc.served, if_neg (Nat.not_le.2 hpos)] at hlt
    omega
  have hserved := (h.invariant hstep ⟨.refl _, hinit⟩).2 c (by rw [hfin.served]; exact c.isLt)
  exact ⟨hserved, hserved.not_stranded⟩

/-! ### Runs -/

/-- Two messages for one consumer over a ring of one slot. -/
def twoMessages : Params := ⟨2, 1, 1, Nat.two_pos, Nat.one_pos, Nat.one_pos⟩

/-- Its consumer. -/
def theConsumer : Fin twoMessages.n := ⟨0, by decide⟩

/-- The producer sends one message to the one consumer. -/
def sendOne : List (Act twoMessages) := List.replicate 7 (.producer false)

/-- The consumer takes the first signal before the second is sent. -/
def promptConsumer : List (Act twoMessages) :=
  sendOne ++ [.consumer theConsumer] ++ sendOne ++ [.producer false]

theorem not_stranded_of_lastArrives_prompt :
    ∃ s, Runs.ReachableVia step LastArrives (init twoMessages emptyRing) s ∧
      s.producer = .wait ∧ ¬ (s.consumer theConsumer).Stranded := by
  have hend : (Runs.run (fun s a => if LastArrives s a then step s a else none)
      (init twoMessages emptyRing) promptConsumer).map (fun s => s.producer) = some .wait := by
    decide
  obtain ⟨s, hs, hpc⟩ := Option.map_eq_some_iff.1 hend
  have hvia := Runs.ReachableVia.of_run hs
  have hfin : s.producer.Finished := by
    rw [hpc]
    trivial
  exact ⟨s, hvia, hpc, (not_stranded_of_lastArrives hvia hfin theConsumer).2⟩

/-- The consumer takes no step before the producer has finished its loop. -/
def slowConsumer : List (Act twoMessages) :=
  sendOne ++ sendOne ++ [.producer false] ++ List.replicate 6 (.consumer theConsumer)

/-- **A consumer that is one message late is left behind**: the signal of the last message is
discarded while the first one is pending. -/
theorem exists_stranded_slowConsumer :
    ∃ s, Runs.Reachable step (init twoMessages emptyRing) s ∧ s.producer.Finished ∧
      (s.consumer theConsumer).Stranded ∧ ¬ (s.consumer theConsumer).SeenLast twoMessages := by
  have hend : (Runs.run step (init twoMessages emptyRing) slowConsumer).map
      (fun s => (s.producer, s.consumer theConsumer)) = some (.wait, ⟨.wait, none⟩) := by decide
  obtain ⟨s, hs, hpcs⟩ := Option.map_eq_some_iff.1 hend
  obtain ⟨hpc, hk⟩ : s.producer = .wait ∧ s.consumer theConsumer = ⟨.wait, none⟩ := by
    simpa using hpcs
  refine ⟨s, .of_run hs, by rw [hpc]; trivial, by rw [hk]; exact ⟨rfl, rfl⟩, ?_⟩
  rw [hk]
  rintro (h | h | h) <;> cases h

end Ring
