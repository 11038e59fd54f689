/-
**A producer, a ring of slots and signalled consumers (`HW10`).**

The producer writes message `i` into slot `i % B` of a shared ring and sends every consumer a
`SIGUSR1` that carries `i`; a consumer that takes the signal looks whether the slot still holds that
message, counts it as received or as lost in two shared counters, and leaves its loop after message
`M - 1`.  At most one instance of the signal is pending for a process, and another one sent to it is
discarded.  The producer stops sending a message when it has taken too long, and reports the first
counter once one of the consumers has ended.

Every access to the shared memory, every `sigqueue` and `sigwaitinfo`, `wait` and every look at the
clock is one step, and a process that has to wait for something has no step.  Whether the time is up
is left open at every look at the clock.  An `int` that would exceed `INT_MAX` as a loop counter has
no defined meaning; a shared counter wraps around.

Main definitions:

* `Ring.Params` — `M`, `N` and `B`;
* `Ring.Shmseg`, `Ring.Shared` — the shared memory;
* `Ring.ConsumerPc`, `Ring.consumerMove` — the loop of a consumer;
* `Ring.ProducerPc`, `Ring.producerStep` — the loop of the producer and its report;
* `Ring.step` — one step of the system.

Main results:

* `Ring.ProducerMove.of_step`, `Ring.ConsumerMove.of_move` — what a step can do;
* `Ring.message_lt` — the loop of the producer is about the messages below `M`.
-/

import NetSysProg.CInt
import NetSysProg.Runs
import Mathlib.Logic.Function.Basic
import Mathlib.Data.Fintype.Basic

set_option relaxedAutoImplicit false
set_option autoImplicit false

namespace Ring

/-! ### The shared memory -/

/-- The numbers `M` of messages, `N` of consumers and `B` of slots. -/
structure Params where
  m : ℕ
  n : ℕ
  b : ℕ
  m_pos : 0 < m
  n_pos : 0 < n
  b_pos : 0 < b

/-- `struct shmseg`, the buffer as the string in it. -/
structure Shmseg where
  msgNum : ℤ
  buf : String
  deriving DecidableEq

/-- The text of message `i`. -/
def msgText (i : ℕ) : String := "This is message " ++ toString i

/-- The ring, of which the slots below `B` are used, and the two counters of `struct shmseg_cnt`. -/
structure Shared where
  shmp : ℕ → Shmseg
  cnt : ℤ
  lossCnt : ℤ

/-! ### The consumers -/

/-- The next operation of a consumer.  The value `v` is `si.si_value.sival_int`. -/
inductive ConsumerPc
  /-- `sigwaitinfo(&block_mask, &si)` -/
  | wait
  /-- `int msg_num = shmp[message_index].msg_num` -/
  | load (v : ℕ)
  /-- `if(si.si_value.sival_int == msg_num)` -/
  | test (v : ℕ) (msgNum : ℤ)
  /-- The load and the store of `shmp_cnt->cnt += 1`. -/
  | loadCnt (v : ℕ)
  | storeCnt (v : ℕ) (x : ℤ)
  /-- The load and the store of `shmp_cnt->loss_cnt += 1`. -/
  | loadLoss (v : ℕ)
  | storeLoss (v : ℕ) (x : ℤ)
  /-- `if(si.si_value.sival_int == m - 1) break` -/
  | testEnd (v : ℕ)
  /-- Behind the loop, before `exit(EXIT_SUCCESS)`. -/
  | left
  | exited
  deriving DecidableEq

/-- A consumer, with the value of its pending `SIGUSR1` if there is one. -/
structure Consumer where
  pc : ConsumerPc
  pending : Option ℕ
  deriving DecidableEq

/-- `sigqueue`: a second instance of a pending signal is discarded. -/
def Consumer.sigqueue (k : Consumer) (v : ℕ) : Consumer :=
  match k.pending with
  | none => { k with pending := some v }
  | some _ => k

/-- What one step of a consumer leaves behind; `hit` says whether its test succeeded. -/
structure Moved where
  consumer : Consumer
  shared : Shared
  hit : Bool

/-- One step of a consumer. -/
def consumerMove (p : Params) (sh : Shared) (k : Consumer) : Option Moved :=
  match k.pc with
  | .wait => k.pending.map fun v => ⟨⟨.load v, none⟩, sh, false⟩
  | .load v => some ⟨{ k with pc := .test v (sh.shmp (v % p.b)).msgNum }, sh, false⟩
  | .test v msgNum =>
      if (v : ℤ) = msgNum then some ⟨{ k with pc := .loadCnt v }, sh, true⟩
      else some ⟨{ k with pc := .loadLoss v }, sh, false⟩
  | .loadCnt v => some ⟨{ k with pc := .storeCnt v sh.cnt }, sh, false⟩
  | .storeCnt v x => some ⟨{ k with pc := .testEnd v }, { sh with cnt := CInt.wrap (x + 1) }, false⟩
  | .loadLoss v => some ⟨{ k with pc := .storeLoss v sh.lossCnt }, sh, false⟩
  | .storeLoss v x =>
      some ⟨{ k with pc := .testEnd v }, { sh with lossCnt := CInt.wrap (x + 1) }, false⟩
  | .testEnd v => some ⟨{ k with pc := if v = p.m - 1 then .left else .wait }, sh, false⟩
  | .left => some ⟨{ k with pc := .exited }, sh, false⟩
  | .exited => none

/-! ### The producer -/

/-- The next operation of the producer. -/
inductive ProducerPc
  /-- `i < m` -/
  | head (i : ℕ)
  /-- `snprintf(shmp[(i%b)].buf, ...)` -/
  | storeBuf (i : ℕ)
  /-- `shmp[(i%b)].msg_num = i` -/
  | storeNum (i : ℕ)
  /-- `sig_index < n` and `sigqueue(pid_array[sig_index], SIGUSR1, mysigval)` -/
  | send (i sigIndex : ℕ)
  /-- `if(ms > r)` -/
  | clock (i sigIndex : ℕ)
  /-- `if(ms < r) usleep(r - ms)` and `i++` -/
  | sleep (i : ℕ)
  /-- `wait()` behind the loop. -/
  | wait
  /-- The load of `shmp_cnt->cnt` for the loss rate. -/
  | loadRate
  /-- The load of `shmp_cnt->cnt` for the report. -/
  | loadReport (rate : ℤ)
  /-- The report has been printed. -/
  | done (rate report : ℤ)
  /-- Something without a defined meaning has been done. -/
  | fault
  deriving DecidableEq

/-- The producer has finished its message loop. -/
def ProducerPc.Finished : ProducerPc → Prop
  | .wait => True
  | .loadRate => True
  | .loadReport _ => True
  | .done _ _ => True
  | _ => False

/-- The processes and the shared memory.  `hits` counts how often the test of a consumer has
succeeded; no step looks at it. -/
structure State (p : Params) where
  shared : Shared
  producer : ProducerPc
  consumer : Fin p.n → Consumer
  hits : ℕ

/-- The consumers have been forked and the counters are zero; the ring may hold anything. -/
def init (p : Params) (shmp : ℕ → Shmseg) : State p where
  shared := ⟨shmp, 0, 0⟩
  producer := .head 0
  consumer := fun _ => ⟨.wait, none⟩
  hits := 0

/-- A ring of empty slots. -/
def emptyRing : ℕ → Shmseg := fun _ => ⟨0, ""⟩

/-- Who takes the next step, and whether the producer finds that the time is up. -/
inductive Act (p : Params)
  | producer (late : Bool)
  | consumer (c : Fin p.n)

section Step

variable {p : Params}

/-- One more of an `int` loop counter. -/
def increment (i : ℕ) (next : ℕ → ProducerPc) : ProducerPc :=
  if (i : ℤ) < CInt.intMax then next (i + 1) else .fault

/-- The ring after a store to one of its slots. -/
def Shared.store (sh : Shared) (j : ℕ) (seg : Shmseg) : Shared :=
  { sh with shmp := Function.update sh.shmp j seg }

/-- One step of the producer. -/
def producerStep (s : State p) (late : Bool) : Option (State p) :=
  match s.producer with
  | .head i => some { s with producer := if i < p.m then .storeBuf i else .wait }
  | .storeBuf i =>
      let seg := s.shared.shmp (i % p.b)
      some { s with
        shared := s.shared.store (i % p.b) { seg with buf := msgText i }
        producer := .storeNum i }
  | .storeNum i =>
      let seg := s.shared.shmp (i % p.b)
      some { s with
        shared := s.shared.store (i % p.b) { seg with msgNum := i }
        producer := .send i 0 }
  | .send i sigIndex =>
      if h : sigIndex < p.n then
        some { s with
          consumer :=
            Function.update s.consumer ⟨sigIndex, h⟩ ((s.consumer ⟨sigIndex, h⟩).sigqueue i)
          producer := .clock i sigIndex }
      else some { s with producer := .sleep i }
  | .clock i sigIndex =>
      some { s with producer := if late then .sleep i else increment sigIndex (.send i) }
  | .sleep i => some { s with producer := increment i .head }
  | .wait =>
      if ∃ c, (s.consumer c).pc = .exited then some { s with producer := .loadRate } else none
  | .loadRate => some { s with producer := .loadReport s.shared.cnt }
  | .loadReport rate => some { s with producer := .done rate s.shared.cnt }
  | .done _ _ => none
  | .fault => none

/-- The state after a consumer has moved. -/
def State.moved (s : State p) (c : Fin p.n) (r : Moved) : State p :=
  { s with
    shared := r.shared
    consumer := Function.update s.consumer c r.consumer
    hits := if r.hit then s.hits + 1 else s.hits }

/-- One step of the consumer `c`. -/
def consumerStep (s : State p) (c : Fin p.n) : Option (State p) :=
  (consumerMove p s.shared (s.consumer c)).map (s.moved c)

/-- One step of the system. -/
def step (s : State p) : Act p → Option (State p)
  | .producer late => producerStep s late
  | .consumer c => consumerStep s c

/-! ### What a step can do -/

@[simp] theorem State.moved_producer (s : State p) (c : Fin p.n) (r : Moved) :
    (s.moved c r).producer = s.producer := rfl

@[simp] theorem State.moved_shared (s : State p) (c : Fin p.n) (r : Moved) :
    (s.moved c r).shared = r.shared := rfl

@[simp] theorem State.moved_consumer (s : State p) (c : Fin p.n) (r : Moved) :
    (s.moved c r).consumer = Function.update s.consumer c r.consumer := rfl

@[simp] theorem State.moved_hits (s : State p) (c : Fin p.n) (r : Moved) :
    (s.moved c r).hits = if r.hit then s.hits + 1 else s.hits := rfl

theorem consumerStep_eq_some {s s' : State p} {c : Fin p.n} (h : consumerStep s c = some s') :
    ∃ r, consumerMove p s.shared (s.consumer c) = some r ∧ s' = s.moved c r := by
  obtain ⟨r, hr, rfl⟩ := Option.map_eq_some_iff.1 h
  exact ⟨r, hr, rfl⟩

/-- Everything a step of a consumer can do. -/
inductive ConsumerMove (p : Params) (sh : Shared) (k : Consumer) : Moved → Prop
  | take {v : ℕ} (hpc : k.pc = .wait) (hv : k.pending = some v) :
      ConsumerMove p sh k ⟨⟨.load v, none⟩, sh, false⟩
  | load {v : ℕ} (hpc : k.pc = .load v) :
      ConsumerMove p sh k ⟨{ k with pc := .test v (sh.shmp (v % p.b)).msgNum }, sh, false⟩
  | hit {v : ℕ} {x : ℤ} (hpc : k.pc = .test v x) (heq : (v : ℤ) = x) :
      ConsumerMove p sh k ⟨{ k with pc := .loadCnt v }, sh, true⟩
  | miss {v : ℕ} {x : ℤ} (hpc : k.pc = .test v x) (hne : (v : ℤ) ≠ x) :
      ConsumerMove p sh k ⟨{ k with pc := .loadLoss v }, sh, false⟩
  | loadCnt {v : ℕ} (hpc : k.pc = .loadCnt v) :
      ConsumerMove p sh k ⟨{ k with pc := .storeCnt v sh.cnt }, sh, false⟩
  | storeCnt {v : ℕ} {x : ℤ} (hpc : k.pc = .storeCnt v x) :
      ConsumerMove p sh k ⟨{ k with pc := .testEnd v }, { sh with cnt := CInt.wrap (x + 1) }, false⟩
  | loadLoss {v : ℕ} (hpc : k.pc = .loadLoss v) :
      ConsumerMove p sh k ⟨{ k with pc := .storeLoss v sh.lossCnt }, sh, false⟩
  | storeLoss {v : ℕ} {x : ℤ} (hpc : k.pc = .storeLoss v x) :
      ConsumerMove p sh k
        ⟨{ k with pc := .testEnd v }, { sh with lossCnt := CInt.wrap (x + 1) }, false⟩
  | again {v : ℕ} (hpc : k.pc = .testEnd v) (hv : v ≠ p.m - 1) :
      ConsumerMove p sh k ⟨{ k with pc := .wait }, sh, false⟩
  | leave {v : ℕ} (hpc : k.pc = .testEnd v) (hv : v = p.m - 1) :
      ConsumerMove p sh k ⟨{ k with pc := .left }, sh, false⟩
  | exit (hpc : k.pc = .left) : ConsumerMove p sh k ⟨{ k with pc := .exited }, sh, false⟩

/-- **Every step of a consumer is one of the moves.** -/
theorem ConsumerMove.of_move {sh : Shared} {k : Consumer} {r : Moved}
    (h : consumerMove p sh k = some r) : ConsumerMove p sh k r := by
  unfold consumerMove at h
  split at h
  · next hpc =>
      obtain ⟨v, hv, rfl⟩ := Option.map_eq_some_iff.1 h
      exact .take hpc hv
  · next v hpc =>
      obtain rfl := Option.some.inj h
      exact .load hpc
  · next v x hpc =>
      split at h
      · next heq =>
          obtain rfl := Option.some.inj h
          exact .hit hpc heq
      · next hne =>
          obtain rfl := Option.some.inj h
          exact .miss hpc hne
  · next v hpc =>
      obtain rfl := Option.some.inj h
      exact .loadCnt hpc
  · next v x hpc =>
      obtain rfl := Option.some.inj h
      exact .storeCnt hpc
  · next v hpc =>
      obtain rfl := Option.some.inj h
      exact .loadLoss hpc
  · next v x hpc =>
      obtain rfl := Option.some.inj h
      exact .storeLoss hpc
  · next v hpc =>
      obtain rfl := Option.some.inj h
      by_cases hv : v = p.m - 1
      · rw [if_pos hv]
        exact .leave hpc hv
      · rw [if_neg hv]
        exact .again hpc hv
  · next hpc =>
      obtain rfl := Option.some.inj h
      exact .exit hpc
  · cases h

/-- A consumer changes nothing of the ring. -/
theorem consumerMove_shmp {sh : Shared} {k : Consumer} {r : Moved}
    (h : consumerMove p sh k = some r) : r.shared.shmp = sh.shmp := by
  cases ConsumerMove.of_move h <;> rfl

/-- Everything a step of the producer can do. -/
inductive ProducerMove (s : State p) : Bool → State p → Prop
  | enter {late : Bool} {i : ℕ} (hpc : s.producer = .head i) (hi : i < p.m) :
      ProducerMove s late { s with producer := .storeBuf i }
  | finish {late : Bool} {i : ℕ} (hpc : s.producer = .head i) (hi : p.m ≤ i) :
      ProducerMove s late { s with producer := .wait }
  | storeBuf {late : Bool} {i : ℕ} (hpc : s.producer = .storeBuf i) :
      ProducerMove s late { s with
        shared := s.shared.store (i % p.b)
          { s.shared.shmp (i % p.b) with buf := msgText i }
        producer := .storeNum i }
  | storeNum {late : Bool} {i : ℕ} (hpc : s.producer = .storeNum i) :
      ProducerMove s late { s with
        shared := s.shared.store (i % p.b) { s.shared.shmp (i % p.b) with msgNum := i }
        producer := .send i 0 }
  | sigqueue {late : Bool} {i sigIndex : ℕ} (hpc : s.producer = .send i sigIndex)
      (h : sigIndex < p.n) :
      ProducerMove s late { s with
        consumer := Function.update s.consumer ⟨sigIndex, h⟩ ((s.consumer ⟨sigIndex, h⟩).sigqueue i)
        producer := .clock i sigIndex }
  | sent {late : Bool} {i sigIndex : ℕ} (hpc : s.producer = .send i sigIndex) (h : p.n ≤ sigIndex) :
      ProducerMove s late { s with producer := .sleep i }
  | giveUp {i sigIndex : ℕ} (hpc : s.producer = .clock i sigIndex) :
      ProducerMove s true { s with producer := .sleep i }
  | goOn {i sigIndex : ℕ} (hpc : s.producer = .clock i sigIndex)
      (hmax : (sigIndex : ℤ) < CInt.intMax) :
      ProducerMove s false { s with producer := .send i (sigIndex + 1) }
  | next {late : Bool} {i : ℕ} (hpc : s.producer = .sleep i) (hmax : (i : ℤ) < CInt.intMax) :
      ProducerMove s late { s with producer := .head (i + 1) }
  | overflow {late : Bool} (hpc : (∃ i, s.producer = .sleep i) ∨ ∃ i j, s.producer = .clock i j) :
      ProducerMove s late { s with producer := .fault }
  | reap {late : Bool} (hpc : s.producer = .wait) (h : ∃ c, (s.consumer c).pc = .exited) :
      ProducerMove s late { s with producer := .loadRate }
  | loadRate {late : Bool} (hpc : s.producer = .loadRate) :
      ProducerMove s late { s with producer := .loadReport s.shared.cnt }
  | loadReport {late : Bool} {rate : ℤ} (hpc : s.producer = .loadReport rate) :
      ProducerMove s late { s with producer := .done rate s.shared.cnt }

/-- **Every step of the producer is one of the moves.** -/
theorem ProducerMove.of_step {s s' : State p} {late : Bool} (h : producerStep s late = some s') :
    ProducerMove s late s' := by
  unfold producerStep at h
  split at h
  · next i hpc =>
      obtain rfl := Option.some.inj h
      by_cases hi : i < p.m
      · rw [if_pos hi]
        exact .enter hpc hi
      · rw [if_neg hi]
        exact .finish hpc (by omega)
  · next i hpc =>
      obtain rfl := Option.some.inj h
      exact .storeBuf hpc
  · next i hpc =>
      obtain rfl := Option.some.inj h
      exact .storeNum hpc
  · next i sigIndex hpc =>
      split at h
      · next hlt =>
          obtain rfl := Option.some.inj h
          exact .sigqueue hpc hlt
      · next hge =>
          obtain rfl := Option.some.inj h
          exact .sent hpc (by omega)
  · next i sigIndex hpc =>
      obtain rfl := Option.some.inj h
      cases late with
      | true => exact .giveUp hpc
      | false =>
          unfold increment
          by_cases hmax : (sigIndex : ℤ) < CInt.intMax
          · rw [if_pos hmax]
            exact .goOn hpc hmax
          · rw [if_neg hmax]
            exact .overflow (Or.inr ⟨i, sigIndex, hpc⟩)
  · next i hpc =>
      obtain rfl := Option.some.inj h
      unfold increment
      by_cases hmax : (i : ℤ) < CInt.intMax
      · rw [if_pos hmax]
        exact .next hpc hmax
      · rw [if_neg hmax]
        exact .overflow (Or.inl ⟨i, hpc⟩)
  · next hpc =>
      split at h
      · next hex =>
          obtain rfl := Option.some.inj h
          exact .reap hpc hex
      · simp at h
  · next hpc =>
      obtain rfl := Option.some.inj h
      exact .loadRate hpc
  · next rate hpc =>
      obtain rfl := Option.some.inj h
      exact .loadReport hpc
  · simp at h
  · simp at h

/-- The message that the body of the producer's loop is about. -/
def ProducerPc.message : ProducerPc → Option ℕ
  | .storeBuf i => some i
  | .storeNum i => some i
  | .send i _ => some i
  | .clock i _ => some i
  | .sleep i => some i
  | _ => none

/-- The body of the loop is only entered for the `M` messages. -/
theorem message_lt {shmp : ℕ → Shmseg} {s : State p} (h : Runs.Reachable step (init p shmp) s) :
    ∀ i, s.producer.message = some i → i < p.m := by
  let I : State p → Prop := fun s => ∀ i, s.producer.message = some i → i < p.m
  have hstep : ∀ s a s', I s → step s a = some s' → I s' := by
    intro s a s' hi hs
    cases a with
    | producer late =>
        have hkeep : ∀ {i : ℕ}, s.producer.message = some i →
            ∀ j, some i = some j → j < p.m := by
          rintro i hi' j ⟨⟩
          exact hi i hi'
        cases ProducerMove.of_step hs with
        | enter hpc hlt =>
            rintro j ⟨⟩
            exact hlt
        | storeBuf hpc => exact hkeep (by rw [hpc]; rfl)
        | storeNum hpc => exact hkeep (by rw [hpc]; rfl)
        | sigqueue hpc => exact hkeep (by rw [hpc]; rfl)
        | sent hpc => exact hkeep (by rw [hpc]; rfl)
        | giveUp hpc => exact hkeep (by rw [hpc]; rfl)
        | goOn hpc => exact hkeep (by rw [hpc]; rfl)
        | finish | next | overflow | reap | loadRate | loadReport =>
            rintro j ⟨⟩
    | consumer c =>
        obtain ⟨r, -, rfl⟩ := consumerStep_eq_some hs
        exact hi
  refine h.invariant hstep ?_
  rintro j ⟨⟩

end Step

end Ring
