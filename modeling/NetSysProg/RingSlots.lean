/-
**What a consumer of the ring finds in a slot (`HW10`).**

The producer stores the text and then the number of message `i` into slot `i % B`, and sends the
signal after both.  So the number that a consumer loads for the signal `v` is that of message `v` or
of a later one that has the same slot, however many messages the consumer is behind.

Main definitions:

* `Ring.stores`, `Ring.Stored` — the messages whose numbers a run stores;
* `Ring.ProducerPc.At` — how many numbers and how many texts have been stored at a point of the
  loop;
* `Ring.Slots` — what is in the ring then, and which signals are on their way.

Main results:

* `Ring.Slots.of_step` — **every step keeps the ring in order**;
* `Ring.slots_of_run` — the messages are stored in order, each of them once;
* `Ring.load_slot` — **what a consumer loads**, and when it judges the message received.
-/

import NetSysProg.Circular
import NetSysProg.RingStranded

set_option relaxedAutoImplicit false
set_option autoImplicit false

namespace Ring

variable {p : Params}

/-! ### The messages stored -/

/-- The message whose number the next operation of the producer stores. -/
def ProducerPc.stores : ProducerPc → List ℕ
  | .storeNum i => [i]
  | _ => []

/-- The message whose text it stores. -/
def ProducerPc.texts : ProducerPc → List ℕ
  | .storeBuf i => [i]
  | _ => []

/-- The message whose number the step stores. -/
def stores (s : State p) : Act p → List ℕ
  | .producer _ => s.producer.stores
  | .consumer _ => []

/-- The number of message `i` has been stored in the run. -/
def Stored (shmp : ℕ → Shmseg) (as : List (Act p)) (i : ℕ) : Prop :=
  i ∈ Runs.trace step stores (init p shmp) as

/-! ### The invariant -/

/-- The numbers of `k` messages and the texts of `l` have been stored when the producer is there. -/
def ProducerPc.At (k l : ℕ) : ProducerPc → Prop
  | .head i => k = i ∧ l = i
  | .storeBuf i => k = i ∧ l = i
  | .storeNum i => k = i ∧ l = i + 1
  | .send i _ => k = i + 1 ∧ l = i + 1
  | .clock i _ => k = i + 1 ∧ l = i + 1
  | .sleep i => k = i + 1 ∧ l = i + 1
  | _ => l = k

/-- The signals that are pending for the consumer and that it handles are about the first `k`
messages. -/
structure Consumer.Sent (k : ℕ) (consumer : Consumer) : Prop where
  pending_lt : ∀ v, consumer.pending = some v → v < k
  handled_lt : ∀ v, consumer.pc.handled = some v → v < k

/-- **The ring** after the numbers of `k` messages and the texts of `l`. -/
structure Slots (k l : ℕ) (s : State p) : Prop where
  producer_at : s.producer.At k l
  nums : Circular.Holds p.b k (fun i => (i : ℤ)) (Shmseg.msgNum ∘ s.shared.shmp)
  bufs : Circular.Holds p.b l msgText (Shmseg.buf ∘ s.shared.shmp)
  sent : ∀ c, (s.consumer c).Sent k

/-! ### Steps -/

theorem Consumer.Sent.mono {k k' : ℕ} {consumer : Consumer} (h : consumer.Sent k) (hk : k ≤ k') :
    consumer.Sent k' :=
  ⟨fun v hv => (h.pending_lt v hv).trans_le hk, fun v hv => (h.handled_lt v hv).trans_le hk⟩

theorem Consumer.Sent.sigqueue {k v : ℕ} {consumer : Consumer} (h : consumer.Sent k) (hv : v < k) :
    (consumer.sigqueue v).Sent k := by
  unfold Consumer.sigqueue
  split
  · refine ⟨fun w hw => ?_, h.handled_lt⟩
    obtain rfl : v = w := by simpa using hw
    exact hv
  · exact h

/-- A step of the consumer takes its signal or goes on with the one it handles. -/
theorem Consumer.Sent.move {k : ℕ} {sh : Shared} {consumer : Consumer} {r : Moved}
    (h : consumer.Sent k) (hr : consumerMove p sh consumer = some r) : r.consumer.Sent k := by
  obtain ⟨hpend, hhandled⟩ := h
  cases ConsumerMove.of_move hr with
  | @take v _ hv =>
      refine ⟨by simp, fun w hw => ?_⟩
      obtain rfl : v = w := by simpa [ConsumerPc.handled] using hw
      exact hpend v hv
  | load hpc | hit hpc | miss hpc | loadCnt hpc | storeCnt hpc | loadLoss hpc | storeLoss hpc =>
      rw [hpc] at hhandled
      exact ⟨hpend, hhandled⟩
  | again | leave | exit => exact ⟨hpend, by simp [ConsumerPc.handled]⟩

theorem Slots.of_consumerStep {k l : ℕ} {s s' : State p} {c : Fin p.n} (h : Slots k l s)
    (hs : consumerStep s c = some s') : Slots k l s' := by
  obtain ⟨r, hr, rfl⟩ := consumerStep_eq_some hs
  refine ⟨h.producer_at, ?_, ?_, fun d => ?_⟩
  · rw [State.moved_shared, consumerMove_shmp hr]
    exact h.nums
  · rw [State.moved_shared, consumerMove_shmp hr]
    exact h.bufs
  · rw [State.moved_consumer]
    by_cases hd : d = c
    · subst hd
      rw [Function.update_self]
      exact (h.sent d).move hr
    · rw [Function.update_of_ne hd]
      exact h.sent d

/-- A store of the text leaves the numbers alone. -/
theorem msgNum_store_buf (sh : Shared) (j : ℕ) (text : String) :
    Shmseg.msgNum ∘ (sh.store j { sh.shmp j with buf := text }).shmp = Shmseg.msgNum ∘ sh.shmp := by
  rw [Shared.store, Function.comp_update]
  exact Function.update_eq_self j _

/-- A store of the number leaves the texts alone. -/
theorem buf_store_msgNum (sh : Shared) (j : ℕ) (x : ℤ) :
    Shmseg.buf ∘ (sh.store j { sh.shmp j with msgNum := x }).shmp = Shmseg.buf ∘ sh.shmp := by
  rw [Shared.store, Function.comp_update]
  exact Function.update_eq_self j _

/-- A step of the producer that stores nothing and sends nothing. -/
theorem Slots.keep {k l : ℕ} {s : State p} (h : Slots k l s) {pc : ProducerPc} (hpc : pc.At k l)
    (hnums : s.producer.stores = []) (htexts : s.producer.texts = []) :
    Slots (k + s.producer.stores.length) (l + s.producer.texts.length)
      { s with producer := pc } := by
  rw [hnums, htexts]
  exact ⟨hpc, h.nums, h.bufs, h.sent⟩

/-- **A step of the producer** stores at most one text or one number. -/
theorem Slots.of_producerStep {k l : ℕ} {s s' : State p} {late : Bool} (h : Slots k l s)
    (hs : producerStep s late = some s') :
    Slots (k + s.producer.stores.length) (l + s.producer.texts.length) s' := by
  have hat := h.producer_at
  cases ProducerMove.of_step hs with
  | @storeBuf _ i hpc =>
      rw [hpc] at hat ⊢
      obtain ⟨rfl, rfl⟩ := hat
      refine ⟨⟨rfl, rfl⟩, ?_, ?_, h.sent⟩
      · rw [msgNum_store_buf]
        exact h.nums
      · rw [Shared.store, Function.comp_update]
        exact h.bufs.store
  | @storeNum _ i hpc =>
      rw [hpc] at hat ⊢
      obtain ⟨rfl, rfl⟩ := hat
      refine ⟨⟨rfl, rfl⟩, ?_, ?_, fun c => (h.sent c).mono (Nat.le_succ k)⟩
      · rw [Shared.store, Function.comp_update]
        exact h.nums.store
      · rw [buf_store_msgNum]
        exact h.bufs
  | @sigqueue _ i sigIndex hpc hlt =>
      rw [hpc] at hat ⊢
      obtain ⟨rfl, rfl⟩ := hat
      refine ⟨⟨rfl, rfl⟩, h.nums, h.bufs, fun c => ?_⟩
      by_cases hc : c = ⟨sigIndex, hlt⟩
      · subst hc
        simp only [Function.update_self]
        exact (h.sent _).sigqueue (Nat.lt_add_one i)
      · simp only [Function.update_of_ne hc]
        exact h.sent c
  | overflow hpc =>
      rcases hpc with ⟨i, hpc⟩ | ⟨i, j, hpc⟩ <;>
        (rw [hpc] at hat; exact h.keep (hat.2.trans hat.1.symm) (by rw [hpc]; rfl)
          (by rw [hpc]; rfl))
  | finish hpc =>
      rw [hpc] at hat
      exact h.keep (hat.2.trans hat.1.symm) (by rw [hpc]; rfl) (by rw [hpc]; rfl)
  | enter hpc | sent hpc | giveUp hpc | goOn hpc | next hpc | reap hpc | loadRate hpc
  | loadReport hpc =>
      rw [hpc] at hat
      exact h.keep hat (by rw [hpc]; rfl) (by rw [hpc]; rfl)

/-- **Every step keeps the ring in order.** -/
theorem Slots.of_step {k l : ℕ} {s s' : State p} {a : Act p} (h : Slots k l s)
    (hs : step s a = some s') : ∃ l', Slots (k + (stores s a).length) l' s' := by
  cases a with
  | producer late => exact ⟨_, h.of_producerStep hs⟩
  | consumer c => exact ⟨l, h.of_consumerStep hs⟩

/-- The number that the producer stores is that of the next message. -/
theorem Slots.range_stores {k l : ℕ} {s : State p} (h : Slots k l s) (a : Act p) :
    List.range (k + (stores s a).length) = List.range k ++ stores s a := by
  cases a with
  | producer late =>
      have hat := h.producer_at
      rw [stores]
      cases hpc : s.producer with
      | storeNum i =>
          rw [hpc] at hat
          obtain ⟨rfl, -⟩ := hat
          exact List.range_succ
      | _ => exact (List.append_nil _).symm
  | consumer c => exact (List.append_nil _).symm

theorem slots_init (shmp : ℕ → Shmseg) : Slots 0 0 (init p shmp) where
  producer_at := ⟨rfl, rfl⟩
  nums := Circular.holds_zero
  bufs := Circular.holds_zero
  sent := by
    intro c
    constructor <;> rintro v ⟨⟩

/-! ### Runs -/

/-- **The messages are stored in order**, each of them once, and the ring is in order. -/
theorem slots_of_run {shmp : ℕ → Shmseg} {as : List (Act p)} {s : State p}
    (h : Runs.run step (init p shmp) as = some s) :
    ∃ k l, Slots k l s ∧ Runs.trace step stores (init p shmp) as = List.range k := by
  let I : List ℕ → State p → Prop := fun log s => ∃ k l, Slots k l s ∧ log = List.range k
  refine Runs.invariant_trace (I := I) ?_ ⟨0, 0, slots_init shmp, rfl⟩ h
  rintro log s a s' ⟨k, l, hslots, rfl⟩ hs
  obtain ⟨l', hslots'⟩ := hslots.of_step hs
  exact ⟨_, l', hslots', (hslots.range_stores a).symm⟩

/-- While the others move, a consumer stays where it is. -/
theorem pc_of_run {c : Fin p.n} {bs : List (Act p)} {s s' : State p} (hc : Act.consumer c ∉ bs)
    (h : Runs.run step s bs = some s') : (s'.consumer c).pc = (s.consumer c).pc := by
  induction bs generalizing s with
  | nil =>
      obtain rfl : s = s' := by simpa using h
      rfl
  | cons b bs ih =>
      rw [List.mem_cons, not_or] at hc
      obtain ⟨s₁, hs, hrest⟩ := Option.bind_eq_some_iff.1 h
      rw [ih hc.2 hrest]
      cases b with
      | producer late =>
          cases ProducerMove.of_step hs with
          | @sigqueue _ i sigIndex hpc hlt =>
              by_cases heq : c = ⟨sigIndex, hlt⟩
              · subst heq
                simp only [Function.update_self, Consumer.sigqueue]
                split <;> rfl
              · simp only [Function.update_of_ne heq]
          | _ => rfl
      | consumer d =>
          obtain ⟨r, -, rfl⟩ := consumerStep_eq_some hs
          have hne : c ≠ d := fun heq => hc.1 (congrArg Act.consumer heq)
          rw [State.moved_consumer, Function.update_of_ne hne]

/-- The load can always be made. -/
theorem consumerStep_load {s : State p} {c : Fin p.n} {v : ℕ} (hpc : (s.consumer c).pc = .load v) :
    step s (.consumer c) = some (s.moved c
      ⟨{ s.consumer c with pc := .test v (s.shared.shmp (v % p.b)).msgNum }, s.shared, false⟩) := by
  simp only [step, consumerStep, consumerMove, hpc, Option.map_some]

/-- So can the test. -/
theorem exists_consumerStep_test {s : State p} {c : Fin p.n} {v : ℕ} {x : ℤ}
    (hpc : (s.consumer c).pc = .test v x) : ∃ s', step s (.consumer c) = some s' := by
  simp only [step, consumerStep, consumerMove, hpc]
  split
  · exact ⟨_, rfl⟩
  · exact ⟨_, rfl⟩

/-- **What a consumer loads.**  The number is that of message `v` or of a later one with the same
slot.  The consumer can load it, and it can test it, whatever the others have done since; then it
judges the message received exactly if message `v + B` had not been stored at the time of the load,
and lost otherwise. -/
theorem load_slot {shmp : ℕ → Shmseg} {as : List (Act p)} {s : State p} {c : Fin p.n} {v : ℕ}
    (hrun : Runs.run step (init p shmp) as = some s) (hpc : (s.consumer c).pc = .load v) :
    ∃ j : ℕ, (s.shared.shmp (v % p.b)).msgNum = j ∧ j % p.b = v % p.b ∧ v ≤ j ∧
      (∃ s₁, step s (.consumer c) = some s₁) ∧
      ∀ bs s₁ s₂, step s (.consumer c) = some s₁ → Act.consumer c ∉ bs →
        Runs.run step s₁ bs = some s₂ →
        (∃ s₃, step s₂ (.consumer c) = some s₃) ∧
        ∀ s₃, step s₂ (.consumer c) = some s₃ →
          ((s₃.consumer c).pc = .loadCnt v ↔ ¬ Stored shmp as (v + p.b)) ∧
            ((s₃.consumer c).pc = .loadLoss v ↔ Stored shmp as (v + p.b)) := by
  obtain ⟨k, l, hslots, hlog⟩ := slots_of_run hrun
  have hv : v < k := (hslots.sent c).handled_lt v (by rw [hpc]; rfl)
  have hread : (s.shared.shmp (v % p.b)).msgNum = (Circular.latest p.b k v : ℕ) :=
    hslots.nums.read p.b_pos hv
  have hstored : Stored shmp as (v + p.b) ↔ v + p.b < k := by
    rw [Stored, hlog, List.mem_range]
  refine ⟨Circular.latest p.b k v, hread, Circular.latest_mod, Circular.le_latest,
    ⟨_, consumerStep_load hpc⟩, ?_⟩
  intro bs s₁ s₂ hload hbs hothers
  have htested : (s₂.consumer c).pc = .test v (Circular.latest p.b k v : ℕ) := by
    rw [pc_of_run hbs hothers]
    obtain ⟨r, hr, rfl⟩ := consumerStep_eq_some hload
    simp only [consumerMove, hpc, Option.some.injEq, hread] at hr
    rw [State.moved_consumer, Function.update_self, ← hr]
  refine ⟨exists_consumerStep_test htested, fun s₃ htest => ?_⟩
  obtain ⟨r, hr, rfl⟩ := consumerStep_eq_some htest
  rw [State.moved_consumer, Function.update_self, hstored]
  simp only [consumerMove, htested, Int.natCast_inj] at hr
  by_cases heq : Circular.latest p.b k v = v
  · have hle := (Circular.latest_eq_self_iff p.b_pos hv).1 heq
    rw [if_pos heq.symm] at hr
    obtain rfl := Option.some.inj hr
    simp only [reduceCtorEq, true_iff, false_iff]
    omega
  · have hlt : ¬ k ≤ v + p.b := fun hle => heq ((Circular.latest_eq_self_iff p.b_pos hv).2 hle)
    rw [if_neg (Ne.symm heq)] at hr
    obtain rfl := Option.some.inj hr
    simp only [reduceCtorEq, true_iff, false_iff]
    omega

/-- The consumer takes the first signal when the number of the second message has been stored. -/
def lateLoad : List (Act twoMessages) :=
  sendOne ++ List.replicate 3 (.producer false) ++ [.consumer theConsumer]

/-- Both messages share the one slot, so the first one is lost. -/
theorem load_slot_lateLoad :
    ∃ s s₁ s₃, Runs.run step (init twoMessages emptyRing) lateLoad = some s ∧
      (s.consumer theConsumer).pc = .load 0 ∧ step s (.consumer theConsumer) = some s₁ ∧
      step s₁ (.consumer theConsumer) = some s₃ ∧ (s₃.consumer theConsumer).pc = .loadLoss 0 := by
  have hend : (Runs.run step (init twoMessages emptyRing) lateLoad).map
      (fun s => (s.consumer theConsumer).pc) = some (.load 0) := by decide
  have hstored : Stored emptyRing lateLoad 1 := by
    unfold Stored
    decide
  obtain ⟨s, hs, hpc⟩ := Option.map_eq_some_iff.1 hend
  obtain ⟨j, -, -, -, ⟨s₁, hload⟩, hjudged⟩ := load_slot hs hpc
  obtain ⟨⟨s₃, htest⟩, hjudged⟩ := hjudged [] s₁ s₁ hload (by simp) rfl
  exact ⟨s, s₁, s₃, hs, hpc, hload, htest, (hjudged s₃ htest).2.2 hstored⟩

end Ring
