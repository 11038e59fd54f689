/-
**How the producer of the ring keeps its period (`HW10`).**

The producer gives `R` milliseconds to every message: it stops sending when more have elapsed since
it started the message, and sleeps for what is left.  The elapsed time is computed from the
nanosecond fields of the two times alone, and what is left is passed to `usleep`, which takes
microseconds.

Here the looks at the clock are values, where the steps of the ring leave open what the producer
finds there.

Main definitions:

* `Ring.Timespec` — `struct timespec`;
* `Ring.ms`, `Ring.sendLoop`, `Ring.usleepTime`, `Ring.pace` — the loop over the consumers and the
  sleep behind it;
* `Ring.elapsed`, `Ring.Paced`, `Ring.period` — the time that has elapsed, and what the producer
  would make of it.

Main results:

* `Ring.ms_eq_elapsed_iff` — the milliseconds are right within one second, and only there;
* `Ring.paced_iff` — **the producer keeps its period** when there is nothing to sleep for in it;
* `Ring.pace_eq_period_iff` — the same for the whole loop;
* `Ring.run_sendLoop` — the loop as steps of the ring.
-/

import NetSysProg.RingModel

set_option relaxedAutoImplicit false
set_option autoImplicit false

namespace Ring

/-! ### The code -/

/-- `LONG_MAX`. -/
def longMax : ℤ := 9223372036854775807

/-- `struct timespec`. -/
structure Timespec where
  tvSec : ℤ
  tvNsec : ℤ
  nsec_nonneg : 0 ≤ tvNsec
  nsec_lt : tvNsec < 1000000000

/-- `ms = ((end.tv_nsec - start.tv_nsec) / 1.0e6)`, with an exact division: the conversion to `long`
drops the fraction. -/
def ms (start stop : Timespec) : ℤ := (stop.tvNsec - start.tvNsec).tdiv 1000000

/-- The values of `ms` in the loop over the consumers, for the times that the clock has after each
`sigqueue`.  The loop is left when `ms > r`. -/
def sendLoop (r : ℤ) (ms : Timespec → ℤ) : List Timespec → List ℤ
  | [] => []
  | stop :: stops => if ms stop > r then [ms stop] else ms stop :: sendLoop r ms stops

/-- `if(ms < r) usleep(r - ms)`: the microseconds, as an `unsigned int`, and zero without a call.
There is none when the difference is not a `long`. -/
def usleepTime (r ms : ℤ) : Option ℤ :=
  if ms < r then if r - ms ≤ longMax then some ((r - ms) % 4294967296) else none else some 0

/-- One message: the values of `ms`, of which the last one is left behind the loop, and the
sleep. -/
def pace (r : ℤ) (start : Timespec) (stops : List Timespec) : List ℤ × Option ℤ :=
  (sendLoop r (ms start) stops, usleepTime r ((sendLoop r (ms start) stops).getLastD 0))

/-! ### The period -/

/-- The time in nanoseconds. -/
def Timespec.nanos (t : Timespec) : ℤ := t.tvSec * 1000000000 + t.tvNsec

/-- The whole milliseconds from one time to another. -/
def elapsed (start stop : Timespec) : ℤ := (stop.nanos - start.nanos) / 1000000

/-- **What the pacing is for**: the milliseconds are those elapsed, the producer gives up exactly
when there are more than `r`, and otherwise sleeps for the microseconds of the rest. -/
structure Paced (r : ℤ) (start stop : Timespec) : Prop where
  ms_eq : ms start stop = elapsed start stop
  givesUp_iff : ms start stop > r ↔ elapsed start stop > r
  usleep_eq : ¬ elapsed start stop > r →
    usleepTime r (ms start stop) = some ((r - elapsed start stop) * 1000)

/-- The whole loop, with the milliseconds elapsed and a sleep in microseconds. -/
def period (r : ℤ) (start : Timespec) (stops : List Timespec) : List ℤ × Option ℤ :=
  let last := (sendLoop r (elapsed start) stops).getLastD 0
  (sendLoop r (elapsed start) stops, some (if last > r then 0 else (r - last) * 1000))

/-! ### One pair of times -/

/-- **The milliseconds are right within one second**, and only there. -/
theorem ms_eq_elapsed_iff {start stop : Timespec} (hle : start.nanos ≤ stop.nanos) :
    ms start stop = elapsed start stop ↔ start.tvSec = stop.tvSec := by
  have hstart := start.nsec_nonneg
  have hstart' := start.nsec_lt
  have hstop := stop.nsec_nonneg
  have hstop' := stop.nsec_lt
  unfold Timespec.nanos at hle
  unfold ms elapsed Timespec.nanos
  by_cases hd : 0 ≤ stop.tvNsec - start.tvNsec
  · rw [Int.tdiv_eq_ediv_of_nonneg hd]
    omega
  · -- a second boundary in between
    have hneg : (stop.tvNsec - start.tvNsec).tdiv 1000000 =
        -((start.tvNsec - stop.tvNsec) / 1000000) := by
      rw [← Int.tdiv_eq_ediv_of_nonneg (by omega), ← Int.neg_tdiv, Int.neg_sub]
    rw [hneg]
    omega

/-- The sleep is right when there is nothing to sleep for, and only then. -/
theorem usleepTime_eq_iff {r ms : ℤ} (hle : ms ≤ r) :
    usleepTime r ms = some ((r - ms) * 1000) ↔ r = ms := by
  unfold usleepTime
  constructor
  · intro h
    by_contra hne
    rw [if_pos (by omega)] at h
    split at h
    · have heq := Option.some.inj h
      omega
    · cases h
  · rintro rfl
    rw [if_neg (Int.lt_irrefl r), Int.sub_self, Int.zero_mul]

/-- **The producer keeps its period** exactly when the two times lie in the same second and at least
the whole period has elapsed. -/
theorem paced_iff {r : ℤ} {start stop : Timespec} (hle : start.nanos ≤ stop.nanos) :
    Paced r start stop ↔ start.tvSec = stop.tvSec ∧ r ≤ elapsed start stop := by
  constructor
  · rintro ⟨hms, -, husleep⟩
    refine ⟨(ms_eq_elapsed_iff hle).1 hms, ?_⟩
    by_contra hlt
    have hsleep := husleep (by omega)
    rw [hms, usleepTime_eq_iff (by omega)] at hsleep
    omega
  · rintro ⟨hsec, hr⟩
    have hms := (ms_eq_elapsed_iff hle).2 hsec
    refine ⟨hms, by rw [hms], fun hno => ?_⟩
    rw [hms]
    exact (usleepTime_eq_iff (by omega)).2 (by omega)

/-- A time in the first seconds. -/
def atNanos (sec nsec : ℕ) (h : nsec < 1000000000) : Timespec :=
  ⟨sec, nsec, Int.natCast_nonneg nsec, by omega⟩

/-- Five milliseconds of a period of five. -/
theorem paced_fiveMs :
    (atNanos 0 0 (by decide)).nanos ≤ (atNanos 0 5000000 (by decide)).nanos ∧
      Paced 5 (atNanos 0 0 (by decide)) (atNanos 0 5000000 (by decide)) := by
  have hle : (atNanos 0 0 (by decide)).nanos ≤ (atNanos 0 5000000 (by decide)).nanos := by decide
  exact ⟨hle, (paced_iff hle).2 ⟨rfl, by decide⟩⟩

/-- **Across a second boundary** two milliseconds of a period of ten become `-998`, and `usleep` is
called for `1008` microseconds. -/
theorem not_paced_boundary :
    ms (atNanos 0 999000000 (by decide)) (atNanos 1 1000000 (by decide)) = -998 ∧
      elapsed (atNanos 0 999000000 (by decide)) (atNanos 1 1000000 (by decide)) = 2 ∧
      usleepTime 10 (-998) = some 1008 ∧
      ¬ Paced 10 (atNanos 0 999000000 (by decide)) (atNanos 1 1000000 (by decide)) := by
  refine ⟨rfl, rfl, rfl, fun h => ?_⟩
  have hms : (-998 : ℤ) = 2 := h.ms_eq
  omega

/-! ### The whole loop -/

theorem head?_sendLoop (r : ℤ) (ms : Timespec → ℤ) (stop : Timespec) (stops : List Timespec) :
    (sendLoop r ms (stop :: stops)).head? = some (ms stop) := by
  rw [sendLoop]
  split <;> rfl

/-- Two ways of computing the milliseconds make the same of the loop exactly when they agree on the
times that the loop looks at. -/
theorem sendLoop_eq_iff {r : ℤ} {f g : Timespec → ℤ} {stops : List Timespec} :
    sendLoop r f stops = sendLoop r g stops ↔
      ∀ stop ∈ stops.take (sendLoop r g stops).length, f stop = g stop := by
  induction stops with
  | nil => simp [sendLoop]
  | cons stop stops ih =>
      by_cases hhead : f stop = g stop
      · rw [sendLoop, sendLoop, hhead]
        split
        · simp [hhead]
        · rw [List.cons.injEq, and_iff_right rfl, ih]
          simp [hhead]
      · refine iff_of_false (fun heq => hhead ?_) fun h => hhead (h stop ?_)
        · have hfirst := congrArg List.head? heq
          rw [head?_sendLoop, head?_sendLoop] at hfirst
          exact Option.some.inj hfirst
        · rw [sendLoop]
          split <;> simp

/-- **The whole loop** keeps the period exactly when every look at the clock, up to the one that
ends the loop, is in the second of the start, and nothing is left of the period at the last one. -/
theorem pace_eq_period_iff {r : ℤ} {start : Timespec} {stops : List Timespec}
    (hle : ∀ stop ∈ stops, start.nanos ≤ stop.nanos) :
    pace r start stops = period r start stops ↔
      (∀ stop ∈ stops.take (sendLoop r (elapsed start) stops).length, start.tvSec = stop.tvSec) ∧
        r ≤ (sendLoop r (elapsed start) stops).getLastD 0 := by
  have hloop : sendLoop r (ms start) stops = sendLoop r (elapsed start) stops ↔
      ∀ stop ∈ stops.take (sendLoop r (elapsed start) stops).length, start.tvSec = stop.tvSec := by
    rw [sendLoop_eq_iff]
    exact forall₂_congr fun stop hstop => ms_eq_elapsed_iff (hle stop (List.mem_of_mem_take hstop))
  rw [pace, period, Prod.mk.injEq, ← hloop]
  refine and_congr_right fun heq => ?_
  rw [heq]
  generalize (sendLoop r (elapsed start) stops).getLastD 0 = last
  by_cases hlast : last > r
  · rw [if_pos hlast, usleepTime, if_neg (by omega)]
    exact iff_of_true rfl (by omega)
  · rw [if_neg hlast, usleepTime_eq_iff (by omega)]
    omega

/-! ### The loop as steps of the ring -/

section Acts

variable {p : Params}

/-- The steps of the producer for these looks at the clock. -/
def sendActs (r : ℤ) (ms : Timespec → ℤ) : List Timespec → List (Act p)
  | [] => [.producer false]
  | stop :: stops => .producer false :: .producer (decide (ms stop > r)) ::
      if ms stop > r then [] else sendActs r ms stops

/-- **The loop as steps of the ring**: for every value of `ms` one more consumer is sent the signal,
and then the producer comes to its sleep. -/
theorem run_sendLoop {r : ℤ} {ms : Timespec → ℤ} {stops : List Timespec} {s : State p} {i j : ℕ}
    (hpc : s.producer = .send i j) (hlen : j + stops.length = p.n)
    (hmax : (p.n : ℤ) ≤ CInt.intMax) :
    ∃ s', Runs.run step s (sendActs r ms stops) = some s' ∧ s'.producer = .sleep i ∧
      ∀ c, s'.consumer c = if j ≤ c.val ∧ c.val < j + (sendLoop r ms stops).length then
        (s.consumer c).sigqueue i else s.consumer c := by
  induction stops generalizing s j with
  | nil =>
      have hend : ¬ j < p.n := by
        rw [List.length_nil] at hlen
        omega
      refine ⟨{ s with producer := .sleep i }, ?_, rfl, fun c => ?_⟩
      · simp [sendActs, Runs.run, step, producerStep, hpc, hend]
      · rw [if_neg (by simp [sendLoop])]
  | cons stop stops ih =>
      rw [List.length_cons] at hlen
      have hj : j < p.n := by omega
      let s₁ : State p := { s with
        consumer := Function.update s.consumer ⟨j, hj⟩ ((s.consumer ⟨j, hj⟩).sigqueue i)
        producer := .clock i j }
      have hsend : step s (.producer false) = some s₁ := by simp [step, producerStep, hpc, hj, s₁]
      have hsent : ∀ c, s₁.consumer c =
          if c.val = j then (s.consumer c).sigqueue i else s.consumer c := by
        intro c
        by_cases hc : c = ⟨j, hj⟩
        · rw [if_pos (by rw [hc]), hc]
          exact Function.update_self ..
        · rw [if_neg fun hval => hc (Fin.ext hval)]
          exact Function.update_of_ne hc ..
      rw [sendActs, sendLoop, Runs.run_cons_of_step hsend]
      by_cases hlate : ms stop > r
      · rw [if_pos hlate, if_pos hlate, decide_eq_true hlate]
        refine ⟨{ s₁ with producer := .sleep i }, rfl, rfl, fun c => ?_⟩
        have hiff : c.val = j ↔ j ≤ c.val ∧ c.val < j + 1 := by omega
        rw [List.length_singleton, ← if_congr hiff rfl rfl]
        exact hsent c
      · rw [if_neg hlate, if_neg hlate, decide_eq_false hlate]
        have hclock : step s₁ (.producer false) = some { s₁ with producer := .send i (j + 1) } := by
          simp only [step, producerStep, s₁, increment]
          rw [if_neg Bool.false_ne_true, if_pos (by omega)]
        obtain ⟨s', hrun, hsleep, hconsumer⟩ :=
          @ih { s₁ with producer := .send i (j + 1) } (j + 1) rfl (by omega)
        refine ⟨s', by rw [Runs.run_cons_of_step hclock]; exact hrun, hsleep, fun c => ?_⟩
        rw [hconsumer c]
        simp only [hsent, List.length_cons]
        by_cases hc : c.val = j
        · rw [if_neg (by omega), if_pos hc, if_pos (by omega)]
        · rw [if_neg hc]
          exact if_congr (by omega) rfl rfl

end Acts

end Ring
