/-
**Every client gets its own numbers (`HW8/46_2`).**

`NetSysProg/SeqNumDeadlock.lean` shows that with room on the queue for a message of every client
some process can always go on, and `NetSysProg/SeqNumService.lean` that what is handed out does not
overlap.  Here the two are put together.  A request costs five steps, two of its client and three of
the server, whatever the others do in between; so every interleaving comes to an end, and at the end
there is nobody without an answer.

Main definitions:

* `SeqNum.toDo` — the steps that the processes can still make.

Main results:

* `SeqNum.toDo_lt_of_move` — **every step lowers it**;
* `SeqNum.Ledger.sum_served` — once everybody is served, the lengths handed out are those of all
  clients;
* `SeqNum.all_served` — **every interleaving ends with all clients served**, each with a range of
  its own, and the ranges are together the numbers from `0` to the sum of the lengths.
-/

import NetSysProg.Completion
import NetSysProg.SeqNumDeadlock
import NetSysProg.SeqNumRepeat

set_option relaxedAutoImplicit false
set_option autoImplicit false

namespace SeqNum

/-! ### The measure -/

/-- The steps of a client, and of the server for its request, from where the client is. -/
def ClientPc.weight : ClientPc → ℕ
  | .snd => 5
  | .rcv => 1
  | .done _ => 0
  | .failed => 0

/-- The steps of the server up to the head of its loop. -/
def ServerPc.weight {ι : Type*} : ServerPc ι → ℕ
  | .rcv => 0
  | .snd _ => 2
  | .add => 1
  | .failed => 0

/-- The steps of the server for a message on the queue. -/
def Payload.weight : Payload → ℕ
  | .request _ _ => 3
  | .response _ => 0

variable {ι : Type*}

/-- The steps that the server will make for what is on the queue. -/
def queued (q : List (Msg ι)) : ℕ := (q.map fun m => m.payload.weight).sum

@[simp] theorem queued_append (q q' : List (Msg ι)) : queued (q ++ q') = queued q + queued q' := by
  simp [queued]

@[simp] theorem queued_cons (m : Msg ι) (q : List (Msg ι)) :
    queued (m :: q) = m.payload.weight + queued q := by
  simp [queued]

@[simp] theorem queued_nil : queued ([] : List (Msg ι)) = 0 := rfl

/-- What `msgrcv` takes away. -/
theorem queued_msgrcv {msgtyp : ℤ} {q q' : List (Msg ι)} {m : Msg ι}
    (h : msgrcv msgtyp q = some (m, q')) :
    queued q = queued q' + m.payload.weight := by
  obtain ⟨-, pre, post, rfl, rfl⟩ := msgrcv_eq_some h
  simp only [queued_append, queued_cons]
  omega

variable [Fintype ι]

/-- **The steps that the processes can still make.** -/
def toDo (s : State ι) : ℕ := ∑ c, (s.client c).weight + queued s.queue + s.server.weight

theorem toDo_init (req : ServerReq) : toDo (init req : State ι) = 5 * Fintype.card ι := by
  simp only [toDo, init, ClientPc.weight, ServerPc.weight, queued_nil, Finset.sum_const,
    Finset.card_univ, smul_eq_mul]
  omega

variable [DecidableEq ι] {K : Clients ι} {cap : ℕ}

/-- **Every step of a process is one step less to do.** -/
theorem toDo_lt_of_move {s s' : State ι} {a : Act ι} (ht : Traffic K s) (hs : Move K cap s a s') :
    toDo s' < toDo s := by
  cases hs with
  | @accept m q hpc hm =>
      obtain ⟨htyp, pre, post, hq, -⟩ := msgrcv_eq_some hm
      have hreq : m = requestOf K m.cause := ht.eq_requestOf (by simp [hq]) htyp
      have hthree : m.payload.weight = 3 := by rw [hreq]; rfl
      have hqueue := queued_msgrcv hm
      simp only [toDo, hpc, ServerPc.weight]
      omega
  | refuse hpc hid => exact absurd hid (ht.clientId_pos hpc)
  | respond hpc hroom =>
      simp only [toDo, hpc, ServerPc.weight, queued_append, queued_cons, queued_nil, Payload.weight]
      omega
  | advance hpc =>
      simp only [toDo, hpc, ServerPc.weight]
      omega
  | @request c hpc hroom =>
      have hsum : ∑ d, (Function.update s.client c .rcv d).weight + 5 =
        ∑ d, (s.client d).weight + 1 := by
        have h := Runs.sum_update (fun _ => ClientPc.weight) s.client c .rcv
        rwa [hpc] at h
      simp only [toDo, queued_append, queued_cons, queued_nil, requestOf, Payload.weight]
      omega
  | @obtain c m q n hpc hm hn =>
      have hsum : ∑ d, (Function.update s.client c (.done n) d).weight + 1 =
          ∑ d, (s.client d).weight + 0 := by
        have h := Runs.sum_update (fun _ => ClientPc.weight) s.client c (.done n)
        rwa [hpc] at h
      have hqueue := queued_msgrcv hm
      simp only [toDo]
      omega
  | tooBig hpc hm hn => exact absurd hn (ht.payload_ne_request hm _ _)

/-! ### When nothing is left to do -/

/-- **With room for everybody, the processes stop only when every client has its response**: then
the server waits at the head of its loop and nothing is on the queue. -/
theorem Traffic.settled_of_stuck {s : State ι} (ht : Traffic K s) (hcard : Fintype.card ι ≤ cap)
    (hstuck : Runs.Stuck (step K cap) s) :
    (∀ c, s.obtained c) ∧ s.server = .rcv ∧ s.queue = [] := by
  have hall : ∀ c, s.obtained c := by
    intro c
    by_contra hc
    have hpos : 0 < Fintype.card ι := Fintype.card_pos_iff.2 ⟨c⟩
    exact not_stuck_of_card_le K cap (by omega) hcard ht hc hstuck
  have hnone : ∀ c, c ∉ s.owed := by
    intro c hc
    obtain ⟨n, hn⟩ := hall c
    rw [(ht.owed_iff c).1 hc] at hn
    cases hn
  refine ⟨hall, ?_, ?_⟩
  · have hserver := hstuck .server
    cases hpc : s.server with
    | rcv => rfl
    | snd c => exact absurd (by simp [State.owed, hpc, ServerPc.held]) (hnone c)
    | add => simp [step, serverStep, hpc] at hserver
    | failed => exact absurd hpc ht.server_alive
  · refine List.eq_nil_iff_forall_not_mem.2 ?_
    intro m hm
    exact hnone m.cause (List.mem_append.2 (Or.inl (List.mem_map_of_mem hm)))

/-- Once everybody has been served, the lengths handed out are those of all clients. -/
theorem Ledger.sum_served {s : State ι} (hl : Ledger K s) (hall : ∀ c, s.obtained c) :
    s.lengths = ∑ c, K.seqLen c := by
  have hmem : ∀ c, c ∈ s.served.map Prod.fst := by
    intro c
    obtain ⟨n, hn⟩ := hall c
    exact List.mem_map_of_mem (f := Prod.fst) (hl.done c n hn)
  have huniv : (s.served.map Prod.fst).toFinset = Finset.univ :=
    Finset.eq_univ_iff_forall.2 fun c => List.mem_toFinset.2 (hmem c)
  calc s.lengths = (s.served.map fun r => K.seqLen r.1).sum := hl.lengths_eq
    _ = ((s.served.map Prod.fst).map K.seqLen).sum := by rw [List.map_map]; rfl
    _ = ∑ c ∈ (s.served.map Prod.fst).toFinset, K.seqLen c := (List.sum_toFinset _ hl.once).symm
    _ = ∑ c, K.seqLen c := by rw [huniv]

omit [Fintype ι] in
/-- Two clients that have been served were given different numbers. -/
theorem Ledger.disjoint_of_ne {s : State ι} (hl : Ledger K s) (hsum : s.lengths ≤ CInt.intMax)
    {c d : ι} {n k : ℤ} (hc : s.client c = .done n) (hd : s.client d = .done k) (hne : c ≠ d) :
    Disjoint (Intervals.span (n, K.seqLen c)) (Intervals.span (k, K.seqLen d)) := by
  have hpair := List.pairwise_map.1 (hl.chain hsum).pairwise_disjoint
  have hsymm : Std.Symm fun r r' : ι × ℤ × ℤ =>
    Disjoint (Intervals.span r.2) (Intervals.span r'.2) :=
    ⟨fun _ _ h => h.symm⟩
  refine hpair.forall (hl.done c n hc) (hl.done d k hd) ?_
  intro heq
  exact hne (Prod.mk.inj heq).1

/-! ### The service comes to an end -/

variable (K cap)

/-- **Every client gets its own numbers.**  With room on the queue for a message of every client and
lengths that do not add up to more than `INT_MAX`, the processes make at most five steps for each
client, in every interleaving; and when none of them can step, the server waits for requests at the
head of its loop, the queue is empty, and there are numbers that the clients have received such that
their ranges do not overlap and cover exactly what is below the sum of all lengths, which is the
counter. -/
theorem all_served (hcard : Fintype.card ι ≤ cap) (hsum : ∑ c, K.seqLen c ≤ CInt.intMax)
    (req : ServerReq) :
    (∀ as s, Runs.run (step K cap) (init req) as = some s → as.length ≤ 5 * Fintype.card ι) ∧
    Runs.Completes (step K cap) (init req) fun s =>
      s.server = .rcv ∧ s.queue = [] ∧ s.seqNum = ∑ c, K.seqLen c ∧
      ∃ num : ι → ℤ, (∀ c, s.client c = .done (num c)) ∧
        (∀ c d, c ≠ d →
          Disjoint (Intervals.span (num c, K.seqLen c)) (Intervals.span (num d, K.seqLen d))) ∧
        ⋃ c, Intervals.span (num c, K.seqLen c) = Set.Ico 0 (∑ c, K.seqLen c) := by
  have hstep : ∀ s a s', Traffic K s ∧ Ledger K s → step K cap s a = some s' → Traffic K s' ∧
    Ledger K s' := by
    intro s a s' hi hs
    have hm := Move.of_step K cap hs
    exact ⟨hi.1.of_move K cap hm, hi.2.of_move K cap hi.1 hm⟩
  have hlower : ∀ s a s', Traffic K s ∧ Ledger K s → step K cap s a = some s' →
    toDo s' < toDo s := by
    intro s a s' hi hs
    exact toDo_lt_of_move hi.1 (Move.of_step K cap hs)
  have hinit : Traffic K (init req : State ι) ∧ Ledger K (init req : State ι) :=
    ⟨Traffic.init K req, Ledger.init K req⟩
  constructor
  · intro as s hs
    have hle : as.length + toDo s ≤ toDo (init req : State ι) :=
      Runs.length_add_measure_le hstep hlower hinit hs
    rw [toDo_init] at hle
    omega
  · refine Runs.Completes.of_measure toDo hstep hlower ?_ hinit
    rintro s ⟨ht, hl⟩ hstuck
    obtain ⟨hall, hserver, hqueue⟩ := ht.settled_of_stuck hcard hstuck
    have hlengths : s.lengths = ∑ c, K.seqLen c := hl.sum_served hall
    have hmax : s.lengths ≤ CInt.intMax := by rw [hlengths]; exact hsum
    have hnext : s.seqNum = s.lengths := by
      have h := hl.next_eq hmax
      simpa only [State.next, hserver] using h
    refine ⟨hserver, hqueue, hnext.trans hlengths, ?_⟩
    choose num hnum using hall
    refine ⟨num, hnum, fun c d hne => hl.disjoint_of_ne hmax (hnum c) (hnum d) hne, ?_⟩
    have hcover : ⋃ r ∈ s.ranges, Intervals.span r = Set.Ico 0 (∑ c, K.seqLen c) := by
      have h := (hl.chain hmax).iUnion_span
      rwa [hl.next_eq hmax, hlengths] at h
    -- what was handed out is what the clients received
    rw [← hcover]
    ext x
    simp only [Set.mem_iUnion]
    constructor
    · rintro ⟨c, hx⟩
      exact ⟨(num c, K.seqLen c), List.mem_map_of_mem (f := Prod.snd) (hl.done c _ (hnum c)), hx⟩
    · rintro ⟨r, hr, hx⟩
      obtain ⟨⟨c, n, len⟩, hmem, rfl⟩ := List.mem_map.1 hr
      obtain rfl : len = K.seqLen c := hl.len _ hmem
      have hnum' : (c, num c, K.seqLen c) ∈ s.served := hl.done c _ (hnum c)
      obtain rfl : n = num c := by
        have heq := List.inj_on_of_nodup_map hl.once hmem hnum' rfl
        exact (Prod.mk.inj (Prod.mk.inj heq).2).1
      exact ⟨c, hx⟩

/-- Two clients, and room for two messages. -/
theorem all_served_twoClients :
    Fintype.card (Fin 2) ≤ 2 ∧ ∑ c, twoClients.seqLen c ≤ CInt.intMax ∧
      Runs.Completes (step twoClients 2) (init ⟨0, 0⟩) fun s => s.server = .rcv ∧
        ∀ c, s.obtained c := by
  have hsum : ∑ c, twoClients.seqLen c ≤ CInt.intMax := by decide
  refine ⟨le_of_eq (Fintype.card_fin 2), hsum, ?_⟩
  have hserved := all_served twoClients 2 (le_of_eq (Fintype.card_fin 2)) hsum ⟨0, 0⟩
  refine hserved.2.mono ?_
  rintro s ⟨hserver, -, -, num, hnum, -⟩
  exact ⟨hserver, fun c => ⟨num c, hnum c⟩⟩

end SeqNum
