/-
**Whether a received message is intact (`HW10`).**

The producer stores the text of a message in front of its number, and nothing keeps it from the slot
that a consumer is looking at.  So a consumer can find the number of message `v` in the slot when
the text of message `v + B` is there already, or it can be so by the time it tests the number.  The
two orders of steps in which that happens are named by `Ring.Exclusive`.

Main definitions:

* `Ring.Intact` — a slot whose test succeeds has the text of the message;
* `Ring.Exclusive` — the step puts no store of the producer between the accesses of a consumer, and
  no load of a consumer between the two stores of the producer.

Main results:

* `Ring.Slots.intact_iff_le` — a received message is intact until the text `B` places behind it is
  stored;
* `Ring.intact_iff` — **in a run every received message is intact exactly when its steps are
  exclusive**;
* `Ring.exists_overwritten` — a consumer that loads the number just before the text is overwritten.
-/

import NetSysProg.RingSlots

set_option relaxedAutoImplicit false
set_option autoImplicit false

namespace Ring

variable {p : Params}

/-! ### The property and the condition -/

/-- **A received message is intact**: when the next operation of a consumer is a test that succeeds
for the value `v`, the slot has the text of message `v`. -/
def Intact (s : State p) : Prop :=
  ∀ c v, (s.consumer c).pc = .test v v → (s.shared.shmp (v % p.b)).buf = msgText v

/-- **The condition on a step.**  The producer does not store the text of message `v + B` while a
consumer that has loaded the number `v` for the signal `v` has still to test it; and no consumer
loads the number for the signal `v` when the producer has stored the text of message `v + B` and not
its number. -/
def Exclusive (s : State p) : Act p → Prop
  | .producer _ => ∀ c v, s.producer = .storeBuf (v + p.b) → (s.consumer c).pc ≠ .test v v
  | .consumer c => ∀ v, (s.consumer c).pc = .load v → s.producer ≠ .storeNum (v + p.b)

/-! ### Texts and numbers -/

/-- Different messages have different texts. -/
theorem msgText_inj {i j : ℕ} : msgText i = msgText j ↔ i = j := by
  refine ⟨fun h => ?_, congrArg msgText⟩
  have hdigits : Nat.toDigits 10 i = Nat.toDigits 10 j :=
    String.ofList_injective ((String.append_right_inj _).1 h)
  rw [← Nat.ofDigitChars_ten_toDigits (n := i), hdigits, Nat.ofDigitChars_ten_toDigits]

/-- The text of message `v` is in its slot until that of message `v + B` is stored. -/
theorem Slots.text_iff {k l v : ℕ} {s : State p} (h : Slots k l s) (hv : v < l) :
    (s.shared.shmp (v % p.b)).buf = msgText v ↔ l ≤ v + p.b := by
  have hread : (s.shared.shmp (v % p.b)).buf = msgText (Circular.latest p.b l v) :=
    h.bufs.read p.b_pos hv
  rw [hread, msgText_inj, Circular.latest_eq_self_iff p.b_pos hv]

/-- The number of message `v` is in its slot until that of message `v + B` is stored. -/
theorem Slots.num_iff {k l v : ℕ} {s : State p} (h : Slots k l s) (hv : v < k) :
    (s.shared.shmp (v % p.b)).msgNum = v ↔ k ≤ v + p.b := by
  have hread : (s.shared.shmp (v % p.b)).msgNum = (Circular.latest p.b k v : ℕ) :=
    h.nums.read p.b_pos hv
  rw [hread, Int.natCast_inj, Circular.latest_eq_self_iff p.b_pos hv]

/-- The text of a message is stored just before its number. -/
theorem Slots.texts_cases {k l : ℕ} {s : State p} (h : Slots k l s) :
    (l = k ∧ ∀ i, s.producer ≠ .storeNum i) ∨ (l = k + 1 ∧ s.producer = .storeNum k) := by
  have hat := h.producer_at
  cases hpc : s.producer <;> simp only [hpc, ProducerPc.At] at hat
  case storeNum i =>
      obtain ⟨rfl, rfl⟩ := hat
      exact Or.inr ⟨rfl, rfl⟩
  all_goals exact Or.inl ⟨by omega, by simp⟩

theorem Slots.le {k l : ℕ} {s : State p} (h : Slots k l s) : k ≤ l := by
  rcases h.texts_cases with ⟨rfl, -⟩ | ⟨rfl, -⟩ <;> omega

/-- **A received message is intact** until the text `B` places behind it is stored. -/
theorem Slots.intact_iff_le {k l : ℕ} {s : State p} (h : Slots k l s) :
    Intact s ↔ ∀ c v, (s.consumer c).pc = .test v v → l ≤ v + p.b := by
  have hlt : ∀ c v, (s.consumer c).pc = .test v v → v < l := fun c v hpc =>
    ((h.sent c).handled_lt v (by rw [hpc]; rfl)).trans_le h.le
  constructor
  · intro hintact c v hpc
    exact (h.text_iff (hlt c v hpc)).1 (hintact c v hpc)
  · intro hle c v hpc
    exact (h.text_iff (hlt c v hpc)).2 (hle c v hpc)

/-! ### Steps -/

/-- A step of the producer keeps the received messages intact exactly if it is not the store of a
text over the message of a consumer that is about to test its number. -/
theorem Slots.exclusive_of_producerStep {k l : ℕ} {s s' : State p} {late : Bool} (h : Slots k l s)
    (hintact : Intact s) (hs : producerStep s late = some s') :
    Intact s' ↔ Exclusive s (.producer late) := by
  have hpcs : ∀ c, (s'.consumer c).pc = (s.consumer c).pc := fun c =>
    @pc_of_run _ c [.producer late] _ _ (by simp) (Runs.run_cons_of_step hs [])
  rw [h.intact_iff_le] at hintact
  rw [(h.of_producerStep hs).intact_iff_le, Exclusive]
  simp only [hpcs]
  cases hpc : s.producer with
  | storeBuf i =>
      have hat := h.producer_at
      rw [hpc] at hat
      obtain ⟨-, rfl⟩ := hat
      constructor
      · rintro hle c v ⟨⟩ htest
        have hle' := hle c v htest
        simp only [ProducerPc.texts, List.length_singleton] at hle'
        omega
      · intro hne c v htest
        have hle := hintact c v htest
        have hlast : l ≠ v + p.b := by
          rintro rfl
          exact hne c v rfl htest
        simp only [ProducerPc.texts, List.length_singleton]
        omega
  | _ => exact iff_of_true hintact (by simp)

/-- A consumer comes to its test by the load of the number. -/
theorem consumerMove_test {sh : Shared} {k : Consumer} {r : Moved} {v : ℕ} {x : ℤ}
    (hr : consumerMove p sh k = some r) :
    r.consumer.pc = .test v x ↔ k.pc = .load v ∧ (sh.shmp (v % p.b)).msgNum = x := by
  cases ConsumerMove.of_move hr with
  | @load w hpc =>
      rw [hpc, ConsumerPc.test.injEq, ConsumerPc.load.injEq]
      constructor
      · rintro ⟨rfl, rfl⟩
        exact ⟨rfl, rfl⟩
      · rintro ⟨rfl, rfl⟩
        exact ⟨rfl, rfl⟩
  | take hpc | hit hpc | miss hpc | loadCnt hpc | storeCnt hpc | loadLoss hpc | storeLoss hpc
  | again hpc | leave hpc | exit hpc => simp [hpc]

/-- A step of a consumer keeps the received messages intact exactly if it is not the load of a
number between the two stores over the message. -/
theorem Slots.exclusive_of_consumerStep {k l : ℕ} {s s' : State p} {c : Fin p.n} (h : Slots k l s)
    (hintact : Intact s) (hs : consumerStep s c = some s') :
    Intact s' ↔ Exclusive s (.consumer c) := by
  have hv : ∀ v, (s.consumer c).pc = .load v → v < k := fun v hpc =>
    (h.sent c).handled_lt v (by rw [hpc]; rfl)
  rw [h.intact_iff_le] at hintact
  rw [(h.of_consumerStep hs).intact_iff_le, Exclusive]
  obtain ⟨r, hr, rfl⟩ := consumerStep_eq_some hs
  rw [State.moved_consumer]
  constructor
  · -- the number of message `v` is still in the slot
    intro hle v hpc hbetween
    rcases h.texts_cases with ⟨-, hno⟩ | ⟨rfl, hat⟩
    · exact hno _ hbetween
    · obtain rfl : v + p.b = k := by simpa using hbetween.symm.trans hat
      have hnum := (h.num_iff (hv v hpc)).2 (Nat.le_refl _)
      have hle' :=
        hle c v (by rw [Function.update_self]; exact (consumerMove_test hr).2 ⟨hpc, hnum⟩)
      omega
  · intro hne d v htest
    by_cases hd : d = c
    · subst hd
      rw [Function.update_self] at htest
      obtain ⟨hpc, hnum⟩ := (consumerMove_test hr).1 htest
      have hk := (h.num_iff (hv v hpc)).1 hnum
      rcases h.texts_cases with ⟨rfl, -⟩ | ⟨rfl, hat⟩
      · exact hk
      · have hlast : k ≠ v + p.b := by
          rintro rfl
          exact hne v hpc hat
        omega
    · rw [Function.update_of_ne hd] at htest
      exact hintact d v htest

/-! ### Runs -/

/-- **A received message is intact** in every state of a run exactly when all steps of the run are
exclusive. -/
theorem intact_iff (shmp : ℕ → Shmseg) (as : List (Act p)) :
    Runs.Throughout step Intact (init p shmp) as ↔
      Runs.EachStep step Exclusive (init p shmp) as := by
  let I : State p → Prop := fun s => ∃ k l, Slots k l s
  have hstep : ∀ s a s', I s → step s a = some s' → I s' := by
    rintro s a s' ⟨k, l, h⟩ hs
    exact ⟨_, h.of_step hs⟩
  have hexact : ∀ s a s', I s → Intact s → step s a = some s' → (Intact s' ↔ Exclusive s a) := by
    rintro s a s' ⟨k, l, h⟩ hintact hs
    cases a with
    | producer late => exact h.exclusive_of_producerStep hintact hs
    | consumer c => exact h.exclusive_of_consumerStep hintact hs
  have hinit : Intact (init p shmp) := by
    rintro c v ⟨⟩
  exact Runs.throughout_iff hstep hexact ⟨0, 0, slots_init shmp⟩ hinit as

/-- The consumer loads the number of the first message; then the producer stores the text of the
second one. -/
def overwritten : List (Act twoMessages) :=
  sendOne ++ [.producer false] ++ List.replicate 2 (.consumer theConsumer) ++ [.producer false]

/-- **A received message that is overwritten**: the test succeeds for the first message, and the
slot has the text of the second. -/
theorem exists_overwritten :
    ∃ s, Runs.run step (init twoMessages emptyRing) overwritten = some s ∧
      (s.consumer theConsumer).pc = .test 0 0 ∧ (s.shared.shmp 0).buf = msgText 1 ∧ ¬ Intact s := by
  have hend : (Runs.run step (init twoMessages emptyRing) overwritten).map
      (fun s => ((s.consumer theConsumer).pc, (s.shared.shmp 0).buf)) =
        some (.test 0 0, msgText 1) := by rfl
  obtain ⟨s, hs, heq⟩ := Option.map_eq_some_iff.1 hend
  obtain ⟨hpc, hbuf⟩ := Prod.mk.inj heq
  refine ⟨s, hs, hpc, hbuf, fun hintact => ?_⟩
  have htext : msgText 0 = msgText 1 := (hintact theConsumer 0 hpc).symm.trans hbuf
  simp [msgText_inj] at htext

end Ring
