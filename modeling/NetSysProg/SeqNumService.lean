/-
**The sequence-number service hands every client its own range (`HW8/46_2`).**

`NetSysProg/SeqNumModel.lean` settles which messages are on the queue.  This module follows the
numbers: the log of a run lists the ranges the server has handed out, and what a client receives is
compared with that list.  The counter is an `int`, so the numbers are the ones intended only as long
as the lengths asked for do not add up to more than `INT_MAX`; that is the one hypothesis.

Main definitions:

* `SeqNum.State.served` — the requests answered so far, in order, with the start and the length of
  the range each was given;
* `SeqNum.Ledger` — the invariant that ties the log to the counter, the queue and the clients.

Main results:

* `SeqNum.Ledger.of_reachable` — the ledger is kept by every interleaving;
* `SeqNum.service_correct` — **the service is correct**: responses reach the clients that caused
  them and nobody else, the server takes requests only, a client receives the sum of the lengths
  served before its own, and the ranges handed out tile an initial segment of the integers.
-/

import NetSysProg.Intervals
import NetSysProg.SeqNumModel

set_option relaxedAutoImplicit false
set_option autoImplicit false

namespace SeqNum

variable {ι : Type*}

/-! ### What the log says -/

/-- A range handed out: the client, the first number and the length. -/
def Event.handed? : Event ι → Option (ι × ℤ × ℤ)
  | .handed c start len => some (c, start, len)
  | _ => none

/-- The ranges handed out in a log, in order. -/
def served (log : List (Event ι)) : List (ι × ℤ × ℤ) := log.filterMap Event.handed?

@[simp] theorem served_nil : served ([] : List (Event ι)) = [] := rfl

@[simp] theorem served_accepted (log : List (Event ι)) (m : Msg ι) :
    served (log ++ [.accepted m]) = served log := by
  simp [served, Event.handed?]

@[simp] theorem served_obtained (log : List (Event ι)) (c : ι) (m : Msg ι) :
    served (log ++ [.obtained c m]) = served log := by
  simp [served, Event.handed?]

@[simp] theorem served_handed (log : List (Event ι)) (c : ι) (start len : ℤ) :
    served (log ++ [.handed c start len]) = served log ++ [(c, start, len)] := by
  simp [served, Event.handed?]

/-- The requests answered so far, in the order of the answers. -/
def State.served (s : State ι) : List (ι × ℤ × ℤ) := SeqNum.served s.log

/-- The ranges handed out so far. -/
def State.ranges (s : State ι) : List (ℤ × ℤ) := s.served.map Prod.snd

/-- The sum of the lengths of the requests answered so far. -/
def State.lengths (s : State ι) : ℤ := (s.ranges.map Prod.snd).sum

/-- The event is the receipt of a message by the client `c`. -/
def Event.obtainedBy [DecidableEq ι] (c : ι) : Event ι → Bool
  | .obtained d _ => d = c
  | _ => false

/-- The number the next request to be served will be given, once the server is done with the one
at hand. -/
def State.next (s : State ι) : ℤ :=
  match s.server with
  | .add => s.seqNum + s.serverReq.seqLen
  | _ => s.seqNum

/-! ### The ledger -/

section Ledger

variable [DecidableEq ι] (K : Clients ι) (cap : ℕ)

/-- What ties the log to the counter, to the queue and to the clients. -/
structure Ledger (s : State ι) : Prop where
  /-- Ranges have the length their client asked for. -/
  len : ∀ r ∈ s.served, r.2.2 = K.seqLen r.1
  /-- A client that has not sent its request has not been served. -/
  not_sent : ∀ c, s.client c = .snd → ∀ r ∈ s.served, r.1 ≠ c
  /-- A client whose request is on the queue has not been served. -/
  not_taken : ∀ m ∈ s.queue, m = requestOf K m.cause → ∀ r ∈ s.served, r.1 ≠ m.cause
  /-- The client whose request is being answered has not been served. -/
  not_answered : ∀ c, s.server = .snd c → ∀ r ∈ s.served, r.1 ≠ c
  /-- No client is served twice. -/
  once : (s.served.map Prod.fst).Nodup
  /-- A response on the queue carries the start of the range of its client. -/
  response : ∀ m ∈ s.queue, ∀ n, m.payload = .response n →
    (m.cause, n, K.seqLen m.cause) ∈ s.served
  /-- The server has taken requests only. -/
  accepted : ∀ m, .accepted m ∈ s.log → m = requestOf K m.cause
  /-- A client has taken its own response only. -/
  obtained : ∀ c m, .obtained c m ∈ s.log → ∃ n, m = responseTo K c n ∧ s.client c = .done n
  /-- A client has taken at most one message. -/
  obtained_once : ∀ c, (s.log.filter (Event.obtainedBy c)).length ≤ 1
  /-- A client that is done has the start of its range. -/
  done : ∀ c n, s.client c = .done n → (c, n, K.seqLen c) ∈ s.served
  /-- The ranges follow one another from `0` to the next number. -/
  chain : s.lengths ≤ CInt.intMax → Intervals.Chain 0 s.ranges s.next

theorem Ledger.init (req : ServerReq) : Ledger K (init req : State ι) where
  len := by simp [SeqNum.init, State.served]
  not_sent := by simp [SeqNum.init, State.served]
  not_taken := by simp [SeqNum.init]
  not_answered := by simp [SeqNum.init]
  once := by simp [SeqNum.init, State.served]
  response := by simp [SeqNum.init]
  accepted := by simp [SeqNum.init]
  obtained := by simp [SeqNum.init]
  obtained_once := by simp [SeqNum.init]
  done := by simp [SeqNum.init]
  chain := by simp [SeqNum.init, State.ranges, State.served, State.next]

variable {K}

/-- A client that is not done has taken no message. -/
theorem Ledger.obtained_none {s : State ι} (h : Ledger K s) {c : ι}
    (hc : ∀ n, s.client c ≠ .done n) : s.log.filter (Event.obtainedBy c) = [] := by
  rw [List.filter_eq_nil_iff]
  intro e he hobt
  cases e with
  | accepted m => simp [Event.obtainedBy] at hobt
  | handed d a n => simp [Event.obtainedBy] at hobt
  | obtained d m =>
      obtain rfl : d = c := by simpa [Event.obtainedBy] using hobt
      obtain ⟨n, -, hn⟩ := h.obtained d m he
      exact hc n hn

variable (K)

theorem Ledger.accept {s : State ι} (ht : Traffic K s) (h : Ledger K s) {m : Msg ι}
    {q : List (Msg ι)} (hpc : s.server = .rcv) (hm : msgrcv msgType s.queue = some (m, q)) :
    Ledger K { s with
      queue := q
      serverReq := s.serverReq.load m.payload
      server := .snd m.cause
      log := s.log ++ [.accepted m] } := by
  obtain ⟨htyp, pre, post, hq, rfl⟩ := msgrcv_eq_some hm
  have hmem : m ∈ s.queue := by simp [hq]
  have hreq := ht.eq_requestOf hmem htyp
  have hsub : ∀ x ∈ pre ++ post, x ∈ s.queue := fun x => mem_of_split hq
  constructor <;> simp only [State.lengths, State.ranges, State.served, served_accepted, State.next]
  · exact h.len
  · exact h.not_sent
  · intro x hx
    exact h.not_taken x (hsub x hx)
  · intro c hc
    obtain rfl : m.cause = c := by simpa using hc
    exact h.not_taken m hmem hreq
  · exact h.once
  · intro x hx
    exact h.response x (hsub x hx)
  · intro x hx
    rcases List.mem_append.1 hx with hx | hx
    · exact h.accepted x hx
    · obtain rfl : x = m := by simpa using hx
      exact hreq
  · intro c x hx
    exact h.obtained c x (by simpa using hx)
  · exact fun c => by simpa [Event.obtainedBy] using h.obtained_once c
  · exact h.done
  · simpa only [State.lengths, State.ranges, State.served, State.next, hpc] using h.chain

theorem Ledger.respond {s : State ι} (ht : Traffic K s) (h : Ledger K s) {c : ι}
    (hpc : s.server = .snd c) :
    Ledger K { s with
      queue := s.queue ++ [⟨s.serverReq.clientId, .response s.seqNum, c⟩]
      server := .add
      log := s.log ++ [.handed c s.seqNum s.serverReq.seqLen] } := by
  have hreq := ht.req c hpc
  have hlen : s.serverReq.seqLen = K.seqLen c := by rw [hreq]
  have hid : s.serverReq.clientId = K.pid c := by rw [hreq]
  have hnew := h.not_answered c hpc
  -- the client being answered waits, and nothing of its own is on the queue
  have hwait : s.client c = .rcv := (ht.owed_iff c).1 (by simp [State.owed, hpc, ServerPc.held])
  have hother : ∀ m ∈ s.queue, m.cause ≠ c := by
    have hnodup := ht.nodup
    simp only [State.owed, hpc, ServerPc.held] at hnodup
    intro m hm
    exact (List.nodup_append.1 hnodup).2.2 _ (List.mem_map_of_mem hm) c (by simp)
  have hmem : ∀ r, r ∈ served s.log ++ [(c, s.seqNum, K.seqLen c)] ↔
      r ∈ s.served ∨ r = (c, s.seqNum, K.seqLen c) := by
    simp [State.served]
  constructor <;>
    simp only [State.lengths, State.ranges, State.served, served_handed, State.next, hlen, hmem]
  · rintro r (hr | rfl)
    · exact h.len r hr
    · rfl
  · rintro d hd r (hr | rfl)
    · exact h.not_sent d hd r hr
    · rintro rfl
      exact absurd (hwait.symm.trans hd) (by simp)
  · intro m hm hmreq r hr
    rcases List.mem_append.1 hm with hm | hm
    · rcases hr with hr | rfl
      · exact h.not_taken m hm hmreq r hr
      · exact (hother m hm).symm
    · obtain rfl := List.mem_singleton.1 hm
      simp [requestOf] at hmreq
  · simp
  · rw [List.map_append, List.nodup_append]
    refine ⟨h.once, by simp, ?_⟩
    intro d hd e he
    obtain ⟨r, hr, rfl⟩ := List.mem_map.1 hd
    obtain rfl : e = c := by simpa using he
    exact hnew r hr
  · intro m hm n hn
    rcases List.mem_append.1 hm with hm | hm
    · exact Or.inl (h.response m hm n hn)
    · obtain rfl := List.mem_singleton.1 hm
      obtain rfl : s.seqNum = n := by simpa using hn
      exact Or.inr rfl
  · intro x hx
    exact h.accepted x (by simpa using hx)
  · intro d x hx
    exact h.obtained d x (by simpa using hx)
  · exact fun d => by simpa [Event.obtainedBy] using h.obtained_once d
  · intro d n hd
    exact Or.inl (h.done d n hd)
  · intro hsum
    have hpos := K.seqLen_nonneg c
    simp only [List.map_append, List.map_cons, List.map_nil, List.sum_append,
      List.sum_singleton] at hsum ⊢
    have hchain := h.chain (by simp only [State.lengths, State.ranges, State.served]; omega)
    simp only [State.next, hpc] at hchain
    exact hchain.append hpos

theorem Ledger.advance {s : State ι} (h : Ledger K s) (hpc : s.server = .add) :
    Ledger K { s with
      seqNum := CInt.wrap (s.seqNum + s.serverReq.seqLen)
      server := .rcv } where
  len := h.len
  not_sent := h.not_sent
  not_taken := h.not_taken
  not_answered := by simp
  once := h.once
  response := h.response
  accepted := h.accepted
  obtained := h.obtained
  obtained_once := h.obtained_once
  done := h.done
  chain hsum := by
    have hchain := h.chain hsum
    have hend := hchain.end_eq
    have hle := hchain.le
    simp only [State.next, hpc] at hchain hend hle
    -- the sum of the lengths is in the range of an `int`, so the counter does not wrap
    have hmax : s.seqNum + s.serverReq.seqLen ≤ CInt.intMax := by
      rw [hend, zero_add]
      exact hsum
    simp only [State.next, CInt.wrap_of_nonneg hle hmax]
    exact hchain

theorem Ledger.request {s : State ι} (h : Ledger K s) {c : ι} (hpc : s.client c = .snd) :
    Ledger K { s with
      queue := s.queue ++ [requestOf K c]
      client := Function.update s.client c .rcv } where
  len := h.len
  not_sent d hd := by
    have hne : d ≠ c := by rintro rfl; simp at hd
    exact h.not_sent d (by simpa [hne] using hd)
  not_taken m hm hmreq := by
    rcases List.mem_append.1 hm with hm | hm
    · exact h.not_taken m hm hmreq
    · obtain rfl := List.mem_singleton.1 hm
      exact h.not_sent c hpc
  not_answered := h.not_answered
  once := h.once
  response m hm n hn := by
    rcases List.mem_append.1 hm with hm | hm
    · exact h.response m hm n hn
    · obtain rfl := List.mem_singleton.1 hm
      simp [requestOf] at hn
  accepted := h.accepted
  obtained d m hm := by
    obtain ⟨n, hn, hdone⟩ := h.obtained d m hm
    have hne : d ≠ c := by rintro rfl; rw [hpc] at hdone; simp at hdone
    exact ⟨n, hn, by simpa [hne] using hdone⟩
  obtained_once := h.obtained_once
  done d n hd := by
    have hne : d ≠ c := by rintro rfl; simp at hd
    exact h.done d n (by simpa [hne] using hd)
  chain := h.chain

theorem Ledger.obtain {s : State ι} (ht : Traffic K s) (h : Ledger K s) {c : ι} {m : Msg ι}
    {q : List (Msg ι)} {n : ℤ} (hpc : s.client c = .rcv)
    (hm : msgrcv (K.pid c) s.queue = some (m, q)) (hn : m.payload = .response n) :
    Ledger K { s with
      queue := q
      client := Function.update s.client c (.done n)
      log := s.log ++ [.obtained c m] } := by
  obtain ⟨htyp, pre, post, hq, rfl⟩ := msgrcv_eq_some hm
  have hmem : m ∈ s.queue := by simp [hq]
  obtain ⟨k, rfl⟩ := ht.eq_responseTo hmem htyp
  obtain rfl : k = n := by simpa [responseTo] using hn
  have hsub : ∀ x ∈ pre ++ post, x ∈ s.queue := fun x => mem_of_split hq
  constructor <;> simp only [State.lengths, State.ranges, State.served, served_obtained, State.next]
  · exact h.len
  · intro d hd
    have hne : d ≠ c := by rintro rfl; simp at hd
    exact h.not_sent d (by simpa [hne] using hd)
  · intro x hx
    exact h.not_taken x (hsub x hx)
  · exact h.not_answered
  · exact h.once
  · intro x hx
    exact h.response x (hsub x hx)
  · intro x hx
    exact h.accepted x (by simpa using hx)
  · intro d x hx
    rcases List.mem_append.1 hx with hx | hx
    · obtain ⟨j, hj, hdone⟩ := h.obtained d x hx
      have hne : d ≠ c := by rintro rfl; rw [hpc] at hdone; simp at hdone
      exact ⟨j, hj, by simpa [hne] using hdone⟩
    · obtain ⟨rfl, rfl⟩ : d = c ∧ x = responseTo K c k := by simpa using hx
      exact ⟨k, rfl, by simp⟩
  · intro d
    rw [List.filter_append]
    rcases eq_or_ne d c with rfl | hne
    · -- the client was waiting, so this is its first message
      rw [h.obtained_none fun j hj => by rw [hpc] at hj; simp at hj]
      exact (List.length_filter_le _ _)
    · simpa [Event.obtainedBy, hne.symm] using h.obtained_once d
  · intro d j hd
    rcases eq_or_ne d c with rfl | hne
    · obtain rfl : k = j := by simpa using hd
      exact h.response _ hmem k rfl
    · exact h.done d j (by simpa [hne] using hd)
  · exact h.chain

/-- **The ledger is kept by every step.** -/
theorem Ledger.of_move {s s' : State ι} {a : Act ι} (ht : Traffic K s) (h : Ledger K s)
    (hs : Move K cap s a s') : Ledger K s' := by
  cases hs with
  | accept hpc hm => exact h.accept K ht hpc hm
  | refuse hpc hid => exact absurd hid (ht.clientId_pos hpc)
  | respond hpc _ => exact h.respond K ht hpc
  | advance hpc => exact h.advance K hpc
  | request hpc _ => exact h.request K hpc
  | obtain hpc hm hn => exact h.obtain K ht hpc hm hn
  | tooBig _ hm hn => exact absurd hn (ht.payload_ne_request hm _ _)

/-- **The ledger is kept by every interleaving.** -/
theorem Ledger.of_reachable {req : ServerReq} {s : State ι}
    (h : Runs.Reachable (step K cap) (SeqNum.init req) s) : Ledger K s := by
  let I : State ι → Prop := fun s => Traffic K s ∧ Ledger K s
  have hstep : ∀ s a s', I s → step K cap s a = some s' → I s' := by
    intro s a s' hi hs
    have hm := Move.of_step K cap hs
    exact ⟨hi.1.of_move K cap hm, hi.2.of_move K cap hi.1 hm⟩
  exact (h.invariant hstep ⟨Traffic.init K req, Ledger.init K req⟩).2

end Ledger

/-! ### The service -/

section Service

variable [DecidableEq ι] (K : Clients ι) (cap : ℕ)

/-- **The sequence-number service is correct.**  In every state of every interleaving in which the
lengths served so far add up to at most `INT_MAX`: whatever a client has taken is the response to
its own request, and it has taken at most one message; whatever the server has taken is a request;
a client that is done received the sum of the lengths served before its own; and while the server
is at the head of its loop, the ranges handed out are pairwise disjoint and cover exactly the
numbers below the counter. -/
theorem service_correct {req : ServerReq} {s : State ι}
    (h : Runs.Reachable (step K cap) (init req) s) (hsum : s.lengths ≤ CInt.intMax) :
    (∀ c m, .obtained c m ∈ s.log → ∃ n, m = responseTo K c n) ∧
    (∀ c, (s.log.filter (Event.obtainedBy c)).length ≤ 1) ∧
    (∀ m, .accepted m ∈ s.log → m = requestOf K m.cause) ∧
    (∀ c n, s.client c = .done n →
      (s.served.map Prod.fst).Nodup ∧ ∃ pre post, s.served = pre ++ (c, n, K.seqLen c) :: post ∧
        n = (pre.map fun r => K.seqLen r.1).sum) ∧
    (s.server = .rcv →
      (s.ranges.Pairwise fun r r' => Disjoint (Intervals.span r) (Intervals.span r')) ∧
      ⋃ r ∈ s.ranges, Intervals.span r = Set.Ico 0 s.seqNum) := by
  have hl := Ledger.of_reachable K cap h
  have hchain := hl.chain hsum
  refine ⟨fun c m hm => ?_, hl.obtained_once, hl.accepted, fun c n hc => ?_, fun hpc => ?_⟩
  · obtain ⟨n, hn, -⟩ := hl.obtained c m hm
    exact ⟨n, hn⟩
  · refine ⟨hl.once, ?_⟩
    obtain ⟨pre, post, hsplit⟩ := List.append_of_mem (hl.done c n hc)
    refine ⟨pre, post, hsplit, ?_⟩
    have hranges : s.ranges = pre.map Prod.snd ++ (n, K.seqLen c) :: post.map Prod.snd := by
      simp [State.ranges, hsplit]
    have hlen : pre.map (fun r => r.2.2) = pre.map fun r => K.seqLen r.1 :=
      List.map_congr_left fun r hr => hl.len r (by rw [hsplit]; simp [hr])
    rw [hranges] at hchain
    have hstart := hchain.start_eq
    rw [List.map_map, zero_add] at hstart
    exact hstart.trans (congrArg List.sum hlen)
  · simp only [State.next, hpc] at hchain
    exact ⟨hchain.pairwise_disjoint, hchain.iUnion_span⟩

/-- Two clients, with process ids `41` and `42`, that ask for three and for four numbers. -/
def twoClients : Clients (Fin 2) where
  pid c := 41 + (c.val : ℤ)
  seqLen c := 3 + (c.val : ℤ)
  pid_pos := by decide
  pid_ne := by decide
  pid_inj c d h := by
    have hval : 41 + (c.val : ℤ) = 41 + (d.val : ℤ) := h
    exact Fin.ext (by omega)
  seqLen_nonneg := by decide

/-- Both clients send before the server wakes up, and then both are served. -/
def twoClientsRun : List (Act (Fin 2)) :=
  [.client 0, .client 1, .server, .server, .server, .client 0, .server, .server, .server, .client 1]

theorem service_correct_twoClients :
    ∃ s, Runs.run (step twoClients 2) (init ⟨0, 0⟩) twoClientsRun = some s ∧
      s.lengths = 7 ∧ s.client 0 = .done 0 ∧ s.client 1 = .done 3 ∧
      ⋃ r ∈ s.ranges, Intervals.span r = Set.Ico 0 7 := by
  obtain ⟨s, hs⟩ : ∃ s, Runs.run (step twoClients 2) (init ⟨0, 0⟩) twoClientsRun = some s :=
    ⟨_, rfl⟩
  have hend : (Runs.run (step twoClients 2) (init ⟨0, 0⟩) twoClientsRun).map
      (fun s => (s.lengths, s.client 0, s.client 1, s.server, s.seqNum)) =
        some (7, .done 0, .done 3, .rcv, 7) := by decide
  rw [hs] at hend
  obtain ⟨hlen, h₀, h₁, hpc, hnum⟩ : s.lengths = 7 ∧ s.client 0 = .done 0 ∧ s.client 1 = .done 3 ∧
      s.server = .rcv ∧ s.seqNum = 7 := by simpa using hend
  have hmax : s.lengths ≤ CInt.intMax := by rw [hlen]; decide
  have hall := service_correct twoClients 2 (Runs.Reachable.of_run hs) hmax
  exact ⟨s, hs, hlen, h₀, h₁, hnum ▸ (hall.2.2.2.2 hpc).2⟩

end Service

end SeqNum
