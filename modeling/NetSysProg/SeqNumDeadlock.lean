/-
**When the sequence-number service can deadlock (`HW8/46_2`).**

Requests and responses compete for the room on one queue.  The server is the only reader of
requests, and between its `msgrcv` and its `msgsnd` it reads nothing; if the clients fill the queue
with requests in that gap, the server waits for room that only the server could make.  A client puts
at most one message on the queue, so this takes one client more than the queue has room for, and
with that many clients it can always happen.

Main definitions:

* `SeqNum.DeadlockFree` — in every reachable state in which a client is still without its response,
  some process can take a step.

Main results:

* `SeqNum.not_stuck_of_card_le` — with no more clients than room on the queue somebody can always
  take a step;
* `SeqNum.exists_stuck_of_lt_card` — with more clients than room, filling the queue behind the
  server's back leads to a state in which nobody can;
* `SeqNum.deadlockFree_iff` — **the service is free of deadlock exactly when the queue has room for
  a message of every client**.
-/

import NetSysProg.SeqNumService
import Mathlib.Data.Fintype.Card
import Mathlib.Data.Fintype.Fin

set_option relaxedAutoImplicit false
set_option autoImplicit false

namespace SeqNum

variable {ι : Type*} [DecidableEq ι] (K : Clients ι) (cap : ℕ)

/-- The client has its response. -/
def State.obtained (s : State ι) (c : ι) : Prop := ∃ n, s.client c = .done n

/-- No interleaving leads to a state in which a client is without its response and no process can
take a step. -/
def DeadlockFree (req : ServerReq) : Prop :=
  ∀ s, Runs.Reachable (step K cap) (init req) s → (∃ c, ¬ s.obtained c) →
    ¬ Runs.Stuck (step K cap) s

/-! ### Enough room -/

variable {K} in
/-- A client whose response is on the queue can take it. -/
theorem client_can_obtain {s : State ι} (ht : Traffic K s) {m : Msg ι} (hm : m ∈ s.queue)
    {n : ℤ} (hres : m = responseTo K m.cause n) :
    ∃ s', step K cap s (.client m.cause) = some s' := by
  have howed : m.cause ∈ s.owed := by
    simp only [State.owed, List.mem_append]
    exact Or.inl (List.mem_map_of_mem hm)
  have hpc := (ht.owed_iff m.cause).1 howed
  have htyp : m.mtype = K.pid m.cause := by rw [hres]; rfl
  obtain ⟨x, q, hx⟩ := exists_msgrcv ⟨m, hm, htyp⟩
  simp only [step, clientStep, hpc, hx, Option.map_some]
  exact ⟨_, rfl⟩

/-- **With no more clients than the queue has room for messages, nobody is stranded.** -/
theorem not_stuck_of_card_le [Fintype ι] (hcap : 1 ≤ cap) (hcard : Fintype.card ι ≤ cap)
    {s : State ι} (ht : Traffic K s) {c : ι} (hc : ¬ s.obtained c) :
    ¬ Runs.Stuck (step K cap) s := by
  intro hstuck
  have hserver := hstuck .server
  cases hpc : s.server with
  | rcv =>
      simp only [step, serverStep, hpc, Option.map_eq_none_iff] at hserver
      -- nothing is left on the queue: a request would wake the server, a response its client
      have hempty : s.queue = [] := by
        refine List.eq_nil_iff_forall_not_mem.2 ?_
        intro m hm
        rcases ht.queue m hm with hreq | ⟨n, hres⟩
        · have htyp : m.mtype = msgType := by rw [hreq]; rfl
          obtain ⟨x, q, hx⟩ := exists_msgrcv ⟨m, hm, htyp⟩
          rw [hx] at hserver
          simp at hserver
        · obtain ⟨s', hs'⟩ := client_can_obtain cap ht hm hres
          exact Runs.not_stuck_of_step hs' hstuck
      have hclient := hstuck (.client c)
      cases hcpc : s.client c with
      | snd =>
          simp only [step, clientStep, hcpc, hempty, List.length_nil] at hclient
          rw [if_pos (by omega)] at hclient
          simp at hclient
      | rcv =>
          have := (ht.owed_iff c).2 hcpc
          simp [State.owed, hempty, hpc, ServerPc.held] at this
      | done n => exact hc ⟨n, hcpc⟩
      | failed => exact ht.client_alive c hcpc
  | snd d =>
      -- the clients with a message on the queue and the one being served are all different
      have hle := ht.nodup.length_le_card
      simp only [State.owed, hpc, ServerPc.held, List.length_append, List.length_map,
        List.length_singleton] at hle
      simp only [step, serverStep, hpc] at hserver
      split at hserver
      · simp at hserver
      · rw [if_pos (by omega)] at hserver
        simp at hserver
  | add => simp [step, serverStep, hpc] at hserver
  | failed => exact ht.server_alive hpc

/-! ### Too little room -/

/-- A client that has not sent its request can send it while there is room. -/
theorem client_can_send {s : State ι} {c : ι} (hpc : s.client c = .snd)
    (hroom : s.queue.length < cap) :
    step K cap s (.client c) = some { s with
      queue := s.queue ++ [requestOf K c]
      client := Function.update s.client c .rcv } := by
  simp only [step, clientStep, hpc, if_pos hroom]
  rfl

/-- Clients that have not sent anything can fill the room that is left on the queue. -/
theorem fill (cs : List ι) (hnodup : cs.Nodup) (s : State ι)
    (hsnd : ∀ c ∈ cs, s.client c = .snd) (hroom : s.queue.length + cs.length ≤ cap) :
    ∃ s', Runs.run (step K cap) s (cs.map .client) = some s' ∧ s'.server = s.server ∧
      s'.serverReq = s.serverReq ∧ s'.queue = s.queue ++ cs.map (requestOf K) ∧
      ∀ c, s'.client c = if c ∈ cs then .rcv else s.client c := by
  induction cs generalizing s with
  | nil => exact ⟨s, rfl, rfl, rfl, by simp, by simp⟩
  | cons c cs ih =>
      obtain ⟨hc, hcs⟩ := List.nodup_cons.1 hnodup
      simp only [List.length_cons] at hroom
      have hpc := hsnd c (List.mem_cons_self ..)
      let s₁ : State ι := { s with
        queue := s.queue ++ [requestOf K c]
        client := Function.update s.client c .rcv }
      have hstep : step K cap s (.client c) = some s₁ := client_can_send K cap hpc (by omega)
      have hsnd₁ : ∀ d ∈ cs, s₁.client d = .snd := by
        intro d hd
        have hne : d ≠ c := by rintro rfl; exact hc hd
        simpa [s₁, hne] using hsnd d (List.mem_cons_of_mem _ hd)
      obtain ⟨s', hrun, hsrv, hreq, hqueue, hclient⟩ :=
        ih hcs s₁ hsnd₁ (by simp [s₁]; omega)
      refine ⟨s', ?_, hsrv, hreq, by simp [hqueue, s₁], fun d => ?_⟩
      · rw [List.map_cons, Runs.run_cons_of_step hstep, hrun]
      · rw [hclient d]
        rcases eq_or_ne d c with rfl | hne
        · simp [s₁]
        · simp [s₁, hne]

/-- A server that holds a request in front of a queue full of requests is stuck, and so is
everybody else. -/
theorem stuck_of_full {s : State ι} {c : ι} {cs : List ι} (hpc : s.server = .snd c)
    (hreq : s.serverReq.clientId = K.pid c) (hqueue : s.queue = cs.map (requestOf K))
    (hlen : cs.length = cap) (hclient : ∀ d, s.client d = .snd ∨ s.client d = .rcv) :
    Runs.Stuck (step K cap) s := by
  have hpos := K.pid_pos c
  have hfull : ¬ s.queue.length < cap := by
    rw [hqueue, List.length_map]
    omega
  intro a
  cases a with
  | server =>
      simp only [step, serverStep, hpc]
      rw [if_neg (by omega), if_neg hfull]
  | client d =>
      rcases hclient d with hd | hd
      · simp only [step, clientStep, hd]
        rw [if_neg hfull]
      · have hnone : msgrcv (K.pid d) s.queue = none := by
          refine msgrcv_eq_none ?_
          intro m hm
          rw [hqueue] at hm
          obtain ⟨e, -, rfl⟩ := List.mem_map.1 hm
          exact (K.pid_ne d).symm
        simp only [step, clientStep, hd, hnone, Option.map_none]

/-- **With more clients than room, the clients can fill the queue while the server is busy.** -/
theorem exists_stuck_of_lt_card [Fintype ι] (hcap : 1 ≤ cap) (hcard : cap < Fintype.card ι)
    (req : ServerReq) :
    ∃ s, Runs.Reachable (step K cap) (init req) s ∧ (∃ c, ¬ s.obtained c) ∧
      Runs.Stuck (step K cap) s := by
  obtain ⟨l, hl, hlen⟩ : ∃ l : List ι, l.Nodup ∧ l.length = cap + 1 := by
    refine ⟨Finset.univ.toList.take (cap + 1), (Finset.nodup_toList _).take, ?_⟩
    rw [List.length_take, Finset.length_toList, Finset.card_univ]
    omega
  match l, hl, hlen with
  | c :: cs, hl, hlen =>
      obtain ⟨hc, hcs⟩ := List.nodup_cons.1 hl
      -- the first client sends, and the server takes its request
      let s₁ : State ι := { (init req : State ι) with
        queue := [requestOf K c]
        client := Function.update (fun _ => .snd) c .rcv }
      let s₂ : State ι := { s₁ with
        queue := []
        serverReq := req.load (requestOf K c).payload
        server := .snd c
        log := [.accepted (requestOf K c)] }
      have h₁ : step K cap (init req) (.client c) = some s₁ :=
        client_can_send K cap rfl hcap
      have h₂ : step K cap s₁ .server = some s₂ := rfl
      -- the others fill the queue
      have hsnd : ∀ d ∈ cs, s₂.client d = .snd := by
        intro d hd
        have hne : d ≠ c := by rintro rfl; exact hc hd
        simp [s₂, s₁, hne]
      obtain ⟨s, hrun, hserver, hreq, hqueue, hclient⟩ :=
        fill K cap cs hcs s₂ hsnd (by simp [s₂] at hlen ⊢; omega)
      have hphase : ∀ d, s.client d = .snd ∨ s.client d = .rcv := by
        intro d
        rw [hclient d]
        rcases eq_or_ne d c with rfl | hne
        · simp [s₂, s₁]
        · by_cases hd : d ∈ cs <;> simp [hd, s₂, s₁, hne]
      refine ⟨s, ((Runs.Reachable.single h₁).tail h₂).trans (.of_run hrun), ⟨c, ?_⟩, ?_⟩
      · rintro ⟨n, hn⟩
        rcases hphase c with h | h <;> simp [h] at hn
      · exact stuck_of_full K cap hserver (by rw [hreq]; rfl) (by simpa [s₂] using hqueue)
          (by simpa using hlen) hphase

/-! ### The condition -/

/-- **The service is free of deadlock exactly when the queue has room for a message of every
client.** -/
theorem deadlockFree_iff [Fintype ι] (hcap : 1 ≤ cap) (req : ServerReq) :
    DeadlockFree K cap req ↔ Fintype.card ι ≤ cap := by
  constructor
  · intro hfree
    by_contra hlt
    obtain ⟨s, hs, hc, hstuck⟩ := exists_stuck_of_lt_card K cap hcap (by omega) req
    exact hfree s hs hc hstuck
  · rintro hcard s hs ⟨c, hc⟩
    exact not_stuck_of_card_le K cap hcap hcard (Traffic.of_reachable K cap hs) hc

/-- Room for two messages is enough for two clients, and room for one is not. -/
theorem deadlockFree_iff_twoClients :
    DeadlockFree twoClients 2 ⟨0, 0⟩ ∧ ¬ DeadlockFree twoClients 1 ⟨0, 0⟩ :=
  ⟨(deadlockFree_iff twoClients 2 (by decide) ⟨0, 0⟩).2 (by decide),
    fun h => absurd ((deadlockFree_iff twoClients 1 (by decide) ⟨0, 0⟩).1 h) (by decide)⟩

/-- Two clients and room for one message: the first client sends, the server takes the request, the
second client sends, and nobody can go on. -/
theorem deadlock_twoClients :
    ∃ s, Runs.run (step twoClients 1) (init ⟨0, 0⟩) [.client 0, .server, .client 1] = some s ∧
      ¬ s.obtained 0 ∧ ¬ s.obtained 1 ∧ Runs.Stuck (step twoClients 1) s := by
  refine ⟨_, rfl, ?_, ?_, ?_⟩
  · rintro ⟨n, hn⟩
    simp [init] at hn
  · rintro ⟨n, hn⟩
    simp at hn
  · intro a
    cases a with
    | server => decide
    | client c => revert c; decide

end SeqNum
