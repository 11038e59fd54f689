/-
**The FIFO service hands out every number once (`HW8/44_6`).**

`NetSysProg/FifoDropped.lean` settles who gets no response.  This module follows the numbers.  The
server answers through the FIFO that it finds under the process id in the request, and a process id
may be used again; so what is proved here holds when no two clients have the same id.  The counter
is an `int`: the numbers are the ones intended as long as the lengths handed out do not add up to
more than `INT_MAX`.

Main definitions:

* `Fifo.Event`, `Fifo.event` — what a step shows: a range that is handed out, or a number that a
  client prints;
* `Fifo.Book` — the invariant that ties what has been shown to the state.

Main results:

* `Fifo.Book.of_step` — **the book is kept by every step**;
* `Fifo.numbers_once` — **what a client prints is the start of its own range**, no client prints
  twice, and the ranges are disjoint and cover everything below the counter.
-/

import NetSysProg.FifoDropped
import NetSysProg.Intervals

set_option relaxedAutoImplicit false
set_option autoImplicit false

namespace Fifo

variable {ι : Type*}

/-! ### What a run shows -/

/-- What a step shows. -/
inductive Event (ι : Type*)
  /-- The server writes the first number of a range for the sender of a request. -/
  | granted (c : ι) (start len : ℤ)
  /-- A client prints the number that it has read. -/
  | printed (c : ι) (n : ℤ)
  deriving DecidableEq

/-- What the step `a` shows in the state `s`. -/
def event (s : State ι) : Act ι → List (Event ι)
  | .server =>
      match s.server with
      | .write req _ => [.granted req.sender s.seqNum req.seqLen]
      | _ => []
  | .client c =>
      match s.client c with
      | .read => (s.buffer c).head?.elim [] fun n => [.printed c n]
      | _ => []

def Event.granted? : Event ι → Option (ι × ℤ × ℤ)
  | .granted c start len => some (c, start, len)
  | .printed _ _ => none

def Event.printed? : Event ι → Option (ι × ℤ)
  | .granted _ _ _ => none
  | .printed c n => some (c, n)

/-- The ranges that have been handed out, in order, with the clients that they are for. -/
def granted (log : List (Event ι)) : List (ι × ℤ × ℤ) := log.filterMap Event.granted?

/-- The numbers that have been printed, with the clients that have printed them. -/
def printed (log : List (Event ι)) : List (ι × ℤ) := log.filterMap Event.printed?

/-- The ranges alone. -/
def ranges (log : List (Event ι)) : List (ℤ × ℤ) := (granted log).map Prod.snd

/-- The sum of the lengths that have been handed out. -/
def total (log : List (Event ι)) : ℤ := ((ranges log).map Prod.snd).sum

@[simp] theorem granted_append_granted (log : List (Event ι)) (c : ι) (start len : ℤ) :
    granted (log ++ [.granted c start len]) = granted log ++ [(c, start, len)] := by
  simp [granted, Event.granted?]

@[simp] theorem granted_append_printed (log : List (Event ι)) (c : ι) (n : ℤ) :
    granted (log ++ [.printed c n]) = granted log := by
  simp [granted, Event.granted?]

@[simp] theorem printed_append_granted (log : List (Event ι)) (c : ι) (start len : ℤ) :
    printed (log ++ [.granted c start len]) = printed log := by
  simp [printed, Event.printed?]

@[simp] theorem printed_append_printed (log : List (Event ι)) (c : ι) (n : ℤ) :
    printed (log ++ [.printed c n]) = printed log ++ [(c, n)] := by
  simp [printed, Event.printed?]

/-- The requests that have been sent and have not been answered or given up. -/
def State.waiting (s : State ι) : List (Request ι) :=
  match s.server with
  | .openFifo req => req :: s.queue
  | .write req _ => req :: s.queue
  | _ => s.queue

/-- The number that the next request will be given. -/
def State.next (s : State ι) : ℤ :=
  match s.server with
  | .close req _ => s.seqNum + req.seqLen
  | _ => s.seqNum

/-! ### The book -/

variable [DecidableEq ι] {K : Clients ι} {cap : ℕ}

/-- What ties the log to the state. -/
structure Book (K : Clients ι) (log : List (Event ι)) (s : State ι) : Prop where
  owned : Owned K s
  /-- A process has the id under which it is found. -/
  named : ∀ p c, s.process p = some c → K.pid c = p
  /-- The server has the FIFO of the sender open. -/
  holds : ∀ c req, s.server.holds = some c → s.server.request = some req → c = req.sender
  /-- A request asks for what its sender wants. -/
  asks : ∀ req ∈ s.requests, req.seqLen = K.seqLen req.sender
  /-- No client is answered twice. -/
  once : ((s.waiting.map Request.sender) ++ (granted log).map Prod.fst).Nodup
  /-- Ranges are handed out to clients that have asked for them. -/
  sent : ∀ r ∈ granted log, (s.client r.1).sent = true
  /-- A range has the length that its client has asked for. -/
  length : ∀ r ∈ granted log, r.2.2 = K.seqLen r.1
  /-- What is in the FIFO of a client is the start of its range. -/
  response : ∀ c, ∀ n ∈ s.buffer c, (c, n, K.seqLen c) ∈ granted log
  /-- What a client has printed is the start of its range, and it will not print again. -/
  prints : ∀ r ∈ printed log, (r.1, r.2, K.seqLen r.1) ∈ granted log ∧
    (s.client r.1).finished = true
  /-- No client has printed twice. -/
  prints_once : ((printed log).map Prod.fst).Nodup
  /-- The ranges follow one another from `0` to the next number. -/
  chain : total log ≤ CInt.intMax → Intervals.Chain 0 (ranges log) s.next

omit [DecidableEq ι] in
theorem Book.init : Book K [] (init : State ι) where
  owned := owned_init
  named := by simp [Fifo.init]
  holds := by simp [Fifo.init, ServerPc.holds]
  asks := by simp [State.requests, Fifo.init, ServerPc.request]
  once := by simp [State.waiting, Fifo.init, granted]
  sent := by simp [granted]
  length := by simp [granted]
  response := by simp [Fifo.init]
  prints := by simp [printed]
  prints_once := by simp [printed]
  chain := fun _ => rfl

omit [DecidableEq ι] in
/-- What a client does without writing, reading or changing its FIFO. -/
theorem Book.of_client {log : List (Event ι)} {s s' : State ι} (h : Book K log s)
    (howned : Owned K s')
    (hnamed : ∀ p c, s'.process p = some c → K.pid c = p) (hqueue : s'.queue = s.queue)
    (hserver : s'.server = s.server) (hnum : s'.seqNum = s.seqNum) (hbuffer : s'.buffer = s.buffer)
    (hsent : ∀ c, (s.client c).sent = true → (s'.client c).sent = true)
    (hfinished : ∀ c, (s.client c).finished = true → (s'.client c).finished = true) :
    Book K log s' where
  owned := howned
  named := hnamed
  holds := by rw [hserver]; exact h.holds
  asks := by
    simp only [State.requests, hserver, hqueue]
    exact h.asks
  once := by
    simp only [State.waiting, hserver, hqueue]
    exact h.once
  sent := fun r hr => hsent _ (h.sent r hr)
  length := h.length
  response := by rw [hbuffer]; exact h.response
  prints := fun r hr => ⟨(h.prints r hr).1, hfinished _ (h.prints r hr).2⟩
  prints_once := h.prints_once
  chain := by
    simp only [State.next, hserver, hnum]
    exact h.chain

/-- A client goes on without touching the queue or its FIFO. -/
theorem Book.goto {log : List (Event ι)} {s : State ι} (h : Book K log s) {c : ι} {pc : ClientPc}
    (howned : Owned K (s.goto c pc)) (hsent : (s.client c).sent = true → pc.sent = true)
    (hfinished : (s.client c).finished = true → pc.finished = true) : Book K log (s.goto c pc) := by
  refine h.of_client howned h.named rfl rfl rfl rfl (fun d hd => ?_) (fun d hd => ?_)
  · rw [goto_client]
    split
    · next hdc => exact hsent (hdc ▸ hd)
    · exact hd
  · rw [goto_client]
    split
    · next hdc => exact hfinished (hdc ▸ hd)
    · exact hd

/-- A client begins or ends: its id is given to it, or is free again. -/
theorem Book.process {log : List (Event ι)} {s : State ι} (h : Book K log s) {c : ι} {pc : ClientPc}
    {owner : Option ι}
    (howned : Owned K { s.goto c pc with process := Function.update s.process (K.pid c) owner })
    (howner : ∀ d, owner = some d → d = c) (hsent : (s.client c).sent = true → pc.sent = true)
    (hfinished : (s.client c).finished = true → pc.finished = true) :
    Book K log { s.goto c pc with process := Function.update s.process (K.pid c) owner } := by
  refine h.of_client howned (fun p d hd => ?_) rfl rfl rfl rfl (fun d hd => ?_) (fun d hd => ?_)
  · change Function.update s.process (K.pid c) owner p = some d at hd
    by_cases hp : p = K.pid c
    · subst hp
      rw [Function.update_self] at hd
      rw [howner d hd]
    · rw [Function.update_of_ne hp] at hd
      exact h.named p d hd
  · simp only [goto_client]
    split
    · next hdc => exact hsent (hdc ▸ hd)
    · exact hd
  · simp only [goto_client]
    split
    · next hdc => exact hfinished (hdc ▸ hd)
    · exact hd

omit [DecidableEq ι] in
theorem mem_requests_of_waiting {s : State ι} {req : Request ι} (h : req ∈ s.waiting) :
    req ∈ s.requests := by
  unfold State.waiting at h
  unfold State.requests
  split at h
  · next hpc => simpa [hpc, ServerPc.request] using h
  · next hpc => simpa [hpc, ServerPc.request] using h
  · exact List.mem_append.2 (Or.inr h)

omit [DecidableEq ι] in
/-- One more request at the end of the queue. -/
theorem waiting_append (s : State ι) (req : Request ι) (client : ι → ClientPc) :
    ({ s with client, queue := s.queue ++ [req] } : State ι).waiting = s.waiting ++ [req] := by
  unfold State.waiting
  cases s.server <;> rfl

/-- **A request is sent.** -/
theorem Book.request {log : List (Event ι)} {s : State ι} (h : Book K log s) {c : ι} {pc : ClientPc}
    (hpc : s.client c = .write) (hsent : pc.sent = true)
    (howned : Owned K { s.goto c pc with queue := s.queue ++ [⟨K.pid c, K.seqLen c, c⟩] }) :
    Book K log { s.goto c pc with queue := s.queue ++ [⟨K.pid c, K.seqLen c, c⟩] } where
  owned := howned
  named := h.named
  holds := h.holds
  asks := by
    intro req hreq
    simp only [State.requests, State.goto, ← List.append_assoc, List.mem_append,
      List.mem_singleton] at hreq
    rcases hreq with hreq | rfl
    · exact h.asks req (List.mem_append.2 hreq)
    · rfl
  once := by
    have hnotsent : (s.client c).sent = false := by rw [hpc]; rfl
    have hnew : c ∉ s.waiting.map Request.sender ++ (granted log).map Prod.fst := by
      rw [List.mem_append, not_or]
      constructor
      · intro hmem
        obtain ⟨req, hreq, rfl⟩ := List.mem_map.1 hmem
        have hs := (h.owned.request req (mem_requests_of_waiting hreq)).2
        rw [hnotsent] at hs
        cases hs
      · intro hmem
        obtain ⟨r, hr, rfl⟩ := List.mem_map.1 hmem
        have hs := h.sent r hr
        rw [hnotsent] at hs
        cases hs
    have hwaiting := waiting_append s ⟨K.pid c, K.seqLen c, c⟩ (s.goto c pc).client
    change (List.map Request.sender
      ({ s with client := (s.goto c pc).client, queue := s.queue ++ [⟨K.pid c, K.seqLen c, c⟩] } :
        State ι).waiting ++ _).Nodup
    rw [hwaiting, List.map_append, List.map_singleton, List.append_assoc, List.nodup_append_comm,
      List.append_assoc, List.singleton_append, List.nodup_cons, List.mem_append, or_comm,
      ← List.mem_append]
    exact ⟨hnew, (List.nodup_append_comm).1 h.once⟩
  sent := by
    intro r hr
    simp only [goto_client]
    split
    · exact hsent
    · exact h.sent r hr
  length := h.length
  response := h.response
  prints := by
    intro r hr
    obtain ⟨hmem, hfin⟩ := h.prints r hr
    refine ⟨hmem, ?_⟩
    simp only [goto_client]
    split
    · next hrc =>
        rw [hrc, hpc] at hfin
        cases hfin
    · exact hfin
  prints_once := h.prints_once
  chain := h.chain

/-- **A client prints what it has read.** -/
theorem Book.print {log : List (Event ι)} {s : State ι} (h : Book K log s) {c : ι} {n : ℤ}
    {rest : List ℤ}
    (hpc : s.client c = .read) (hbuffer : s.buffer c = n :: rest)
    (howned : Owned K { s.goto c .unlink with buffer := Function.update s.buffer c rest }) :
    Book K (log ++ [.printed c n])
      { s.goto c .unlink with buffer := Function.update s.buffer c rest } := by
  have hnew : ∀ r ∈ printed log, r.1 ≠ c := by
    rintro r hr rfl
    have hfin := (h.prints r hr).2
    rw [hpc] at hfin
    cases hfin
  have hfinish : ∀ d, (s.client d).finished = true →
    ((s.goto c .unlink).client d).finished = true := by
    intro d hd
    rw [goto_client]
    split
    · rfl
    · exact hd
  refine ⟨howned, h.named, h.holds, h.asks, ?_, ?_, ?_, ?_, ?_, ?_, ?_⟩
  · rw [granted_append_printed]
    exact h.once
  · intro r hr
    rw [granted_append_printed] at hr
    simp only [goto_client]
    split
    · rfl
    · exact h.sent r hr
  · rw [granted_append_printed]
    exact h.length
  · intro d m hm
    rw [granted_append_printed]
    refine h.response d m ?_
    by_cases hdc : d = c
    · subst hdc
      rw [hbuffer]
      exact List.mem_cons_of_mem n (by simpa using hm)
    · simpa [hdc] using hm
  · intro r hr
    rw [granted_append_printed]
    rw [printed_append_printed, List.mem_append, List.mem_singleton] at hr
    rcases hr with hr | rfl
    · exact ⟨(h.prints r hr).1, hfinish _ (h.prints r hr).2⟩
    · refine ⟨h.response c n (by rw [hbuffer]; exact List.mem_cons_self), ?_⟩
      change ((s.goto c .unlink).client c).finished = true
      rw [goto_client, if_pos rfl]
      rfl
  · rw [printed_append_printed, List.map_append, List.nodup_append]
    refine ⟨h.prints_once, List.nodup_singleton c, ?_⟩
    intro d hd e he
    obtain ⟨r, hr, rfl⟩ := List.mem_map.1 hd
    obtain rfl : e = c := by simpa using he
    exact hnew r hr
  · simp only [total, ranges, granted_append_printed]
    exact h.chain

/-- **A step of a client keeps the book.** -/
theorem Book.of_clientStep {log : List (Event ι)} {s s' : State ι} (h : Book K log s) {c : ι}
    (hs : clientStep K cap s c = some s') : Book K (log ++ event s (.client c)) s' := by
  have howned := h.owned.clientStep hs
  have hquiet : s.client c ≠ .read ∨ s.buffer c = [] → log ++ event s (.client c) = log := by
    intro hq
    unfold event
    cases hpc : s.client c <;> simp_all
  cases hpc : s.client c with
  | fork =>
      rw [hquiet (Or.inl (by rw [hpc]; decide))]
      simp only [clientStep, hpc] at hs
      split at hs
      · cases hs
        exact h.process howned (fun d hd => (Option.some.inj hd).symm) (by rw [hpc]; decide)
          (by rw [hpc]; decide)
      · cases hs
  | mkfifo =>
      rw [hquiet (Or.inl (by rw [hpc]; decide))]
      simp only [clientStep, hpc, Option.some.injEq] at hs
      subst hs
      exact h.goto howned (by rw [hpc]; decide) (by rw [hpc]; decide)
  | openServer =>
      rw [hquiet (Or.inl (by rw [hpc]; decide))]
      simp only [clientStep, hpc, Option.some.injEq] at hs
      subst hs
      exact h.goto howned (by rw [hpc]; decide) (by rw [hpc]; decide)
  | write =>
      rw [hquiet (Or.inl (by rw [hpc]; decide))]
      simp only [clientStep, hpc] at hs
      split at hs
      · cases hs
        exact h.request hpc (by split <;> rfl) howned
      · cases hs
  | openFifo =>
      rw [hquiet (Or.inl (by rw [hpc]; decide))]
      simp only [clientStep, hpc, Option.some.injEq] at hs
      subst hs
      refine h.goto howned (fun _ => by split <;> rfl) fun hf => ?_
      rw [hpc] at hf
      cases hf
  | opening => simp [clientStep, hpc] at hs
  | read =>
      simp only [clientStep, hpc] at hs
      split at hs
      · next n rest hbuffer =>
          cases hs
          have hevent : event s (.client c) = [.printed c n] := by simp [event, hpc, hbuffer]
          rw [hevent]
          exact h.print hpc hbuffer howned
      · next hbuffer =>
          split at hs
          · cases hs
          · cases hs
            rw [hquiet (Or.inr hbuffer)]
            exact h.goto howned (fun _ => rfl) (by rw [hpc]; decide)
  | unlink =>
      rw [hquiet (Or.inl (by rw [hpc]; decide))]
      simp only [clientStep, hpc, Option.some.injEq] at hs
      subst hs
      exact h.goto howned (fun _ => rfl) (fun _ => rfl)
  | exit =>
      rw [hquiet (Or.inl (by rw [hpc]; decide))]
      simp only [clientStep, hpc, Option.some.injEq] at hs
      subst hs
      exact h.process howned (fun d hd => by cases hd) (fun _ => rfl) (fun _ => rfl)
  | ended => simp [clientStep, hpc] at hs

/-! ### The server -/

omit [DecidableEq ι] in
/-- The server takes a request, or gives one up, or is done with one. -/
theorem Book.of_server {log : List (Event ι)} {s s' : State ι} (h : Book K log s)
    (howned : Owned K s')
    (hprocess : s'.process = s.process) (hclient : s'.client = s.client)
    (hbuffer : s'.buffer = s.buffer)
    (hholds : s'.server.holds = none) (hrequests : ∀ req ∈ s'.requests, req ∈ s.requests)
    (hwaiting : s'.waiting.Sublist s.waiting)
    (hnext : total log ≤ CInt.intMax → Intervals.Chain 0 (ranges log) s'.next) : Book K log s' where
  owned := howned
  named := by rw [hprocess]; exact h.named
  holds := by
    intro c req hc
    rw [hholds] at hc
    cases hc
  asks := fun req hreq => h.asks req (hrequests req hreq)
  once := h.once.sublist ((hwaiting.map _).append_right _)
  sent := by rw [hclient]; exact h.sent
  length := h.length
  response := by rw [hbuffer]; exact h.response
  prints := by rw [hclient]; exact h.prints
  prints_once := h.prints_once
  chain := hnext

omit [DecidableEq ι] in
/-- With distinct process ids the FIFO that the server finds is that of the sender. -/
theorem Book.lookup_sender {log : List (Event ι)} {s : State ι} (h : Book K log s)
    (hpid : Function.Injective K.pid) {req : Request ι} {c : ι} (hreq : req ∈ s.requests)
    (hlookup : s.lookup req.pid = some c) : c = req.sender := by
  have hprocess : s.process req.pid = some c := (Option.filter_eq_some_iff.1 hlookup).1
  apply hpid
  rw [h.named _ _ hprocess, (h.owned.request req hreq).1]

/-- **The server opens the FIFO of the sender.** -/
theorem Book.openFifo {log : List (Event ι)} {s : State ι} (h : Book K log s)
    {req : Request ι} {c : ι}
    (hpc : s.server = .openFifo req) (hc : c = req.sender)
    (hreading : (s.client c).reading (K.reads c) = true)
    (howned : Owned K { s.goto c (if s.client c = .opening then .read else s.client c) with
      server := .write req c }) :
    Book K log { s.goto c (if s.client c = .opening then .read else s.client c) with
      server := .write req c } := by
  have hkeeps : ∀ (P : ClientPc → Bool), P .opening = P .read → ∀ d,
      P ((s.goto c (if s.client c = .opening then .read else s.client c)).client d) =
      P (s.client d) := by
    intro P hP d
    rw [goto_client]
    split
    · next hdc =>
        subst hdc
        split
        · next hopening => rw [hopening, hP]
        · rfl
    · rfl
  refine ⟨howned, h.named, ?_, ?_, ?_, ?_, h.length, h.response, ?_, h.prints_once, ?_⟩
  · intro d r hd hr
    obtain rfl : c = d := Option.some.inj hd
    obtain rfl : req = r := Option.some.inj hr
    exact hc
  · have hasks := h.asks
    simpa only [State.requests, State.goto, hpc, ServerPc.request] using hasks
  · have honce := h.once
    simpa only [State.waiting, State.goto, hpc] using honce
  · intro r hr
    exact (hkeeps ClientPc.sent rfl r.1).trans (h.sent r hr)
  · intro r hr
    exact ⟨(h.prints r hr).1, (hkeeps ClientPc.finished rfl r.1).trans (h.prints r hr).2⟩
  · have hchain := h.chain
    simpa only [State.next, State.goto, hpc] using hchain

omit [DecidableEq ι] in
/-- **The server hands a range out.** -/
theorem Book.grant {log : List (Event ι)} {s : State ι} (h : Book K log s)
    (hlen : ∀ c, 0 ≤ K.seqLen c) {req : Request ι} {c : ι} (hpc : s.server = .write req c)
    {buffer : ι → List ℤ}
    (hbuffer : ∀ d, ∀ n ∈ buffer d, n ∈ s.buffer d ∨ (d = c ∧ n = s.seqNum))
    (howned : Owned K { s with server := .close req c, buffer := buffer }) :
    Book K (log ++ [.granted req.sender s.seqNum req.seqLen])
      { s with server := .close req c, buffer := buffer } := by
  have hmem : req ∈ s.requests := by simp [State.requests, hpc, ServerPc.request]
  have hasks : req.seqLen = K.seqLen req.sender := h.asks req hmem
  have hc : c = req.sender := h.holds c req (by rw [hpc]; rfl) (by rw [hpc]; rfl)
  refine ⟨howned, h.named, ?_, ?_, ?_, ?_, ?_, ?_, ?_, ?_, ?_⟩
  · intro d r hd hr
    obtain rfl : c = d := Option.some.inj hd
    obtain rfl : req = r := Option.some.inj hr
    exact hc
  · have hreqs := h.asks
    simpa only [State.requests, hpc, ServerPc.request] using hreqs
  · have honce := h.once
    simp only [State.waiting, hpc, List.map_cons, List.cons_append] at honce
    simp only [State.waiting, granted_append_granted, List.map_append, List.map_singleton]
    rw [← List.append_assoc, List.nodup_append_comm, List.singleton_append]
    exact honce
  · intro r hr
    rw [granted_append_granted, List.mem_append, List.mem_singleton] at hr
    rcases hr with hr | rfl
    · exact h.sent r hr
    · exact (h.owned.request req hmem).2
  · intro r hr
    rw [granted_append_granted, List.mem_append, List.mem_singleton] at hr
    rcases hr with hr | rfl
    · exact h.length r hr
    · exact hasks
  · intro d n hn
    rw [granted_append_granted, List.mem_append, List.mem_singleton]
    rcases hbuffer d n hn with hold | ⟨rfl, rfl⟩
    · exact Or.inl (h.response d n hold)
    · exact Or.inr (by rw [hc, hasks])
  · intro r hr
    rw [printed_append_granted] at hr
    rw [granted_append_granted, List.mem_append]
    exact ⟨Or.inl (h.prints r hr).1, (h.prints r hr).2⟩
  · rw [printed_append_granted]
    exact h.prints_once
  · intro hsum
    have hpos : 0 ≤ req.seqLen := hasks ▸ hlen req.sender
    simp only [total, ranges, granted_append_granted, List.map_append, List.map_singleton,
      List.sum_append, List.sum_singleton] at hsum ⊢
    have hchain := h.chain (by simp only [total, ranges]; omega)
    simp only [State.next, hpc] at hchain
    exact hchain.append hpos

/-- **A step of the server keeps the book.** -/
theorem Book.of_serverStep {log : List (Event ι)} {s s' : State ι} (h : Book K log s)
    (hpid : Function.Injective K.pid) (hlen : ∀ c, 0 ≤ K.seqLen c) (hs : serverStep K s = some s') :
    Book K (log ++ event s .server) s' := by
  have howned := h.owned.serverStep hs
  cases hpc : s.server with
  | read =>
      have hevent : log ++ event s .server = log := by simp [event, hpc]
      rw [hevent]
      simp only [serverStep, hpc] at hs
      split at hs
      · cases hs
      · next req queue hqueue =>
          cases hs
          refine h.of_server howned rfl rfl rfl rfl (fun r hr => ?_) ?_ ?_
          · simpa [State.requests, hpc, hqueue, ServerPc.request] using hr
          · simp only [State.waiting, hpc, hqueue]
            exact List.Sublist.refl _
          · have hchain := h.chain
            simpa only [State.next, hpc] using hchain
  | openFifo req =>
      have hevent : log ++ event s .server = log := by simp [event, hpc]
      rw [hevent]
      have hmem : req ∈ s.requests := by simp [State.requests, hpc, ServerPc.request]
      have hgiveUp : ∀ givenUp, Owned K { s with server := .read, givenUp := givenUp } →
          Book K log { s with server := .read, givenUp := givenUp } := by
        intro givenUp hown
        refine h.of_server hown rfl rfl rfl rfl (fun r hr => List.mem_append.2 (Or.inr hr)) ?_ ?_
        · simp only [State.waiting, hpc]
          exact List.sublist_cons_self _ _
        · have hchain := h.chain
          simpa only [State.next, hpc] using hchain
      simp only [serverStep, hpc] at hs
      split at hs
      · cases hs
        exact hgiveUp _ howned
      · next c hlookup =>
          split at hs
          · next hreading =>
              cases hs
              exact h.openFifo hpc (h.lookup_sender hpid hmem hlookup) hreading howned
          · cases hs
            exact hgiveUp _ howned
  | write req c =>
      have hevent : event s .server = [.granted req.sender s.seqNum req.seqLen] := by
        simp [event, hpc]
      rw [hevent]
      simp only [serverStep, hpc] at hs
      split at hs
      · cases hs
        refine h.grant hlen hpc (fun d n hn => ?_) howned
        by_cases hdc : d = c
        · subst hdc
          rw [Function.update_self, List.mem_append, List.mem_singleton] at hn
          exact hn.imp_right fun hn => ⟨rfl, hn⟩
        · rw [Function.update_of_ne hdc] at hn
          exact Or.inl hn
      · cases hs
        exact h.grant hlen hpc (fun d n hn => Or.inl hn) howned
  | close req c =>
      have hevent : log ++ event s .server = log := by simp [event, hpc]
      rw [hevent]
      simp only [serverStep, hpc, Option.some.injEq] at hs
      subst hs
      refine h.of_server howned rfl rfl rfl rfl (fun r hr => List.mem_append.2 (Or.inr hr)) ?_ ?_
      · simp only [State.waiting, hpc]
        exact List.Sublist.refl _
      · intro hsum
        have hchain := h.chain hsum
        have hend := hchain.end_eq
        have hle := hchain.le
        simp only [State.next, hpc] at hchain hend hle
        -- the sum of the lengths is in the range of an `int`, so the counter does not wrap
        have hmax : s.seqNum + req.seqLen ≤ CInt.intMax := by
          rw [hend, zero_add]
          exact hsum
        simp only [State.next, CInt.wrap_of_nonneg hle hmax]
        exact hchain

/-- **The book is kept by every step.** -/
theorem Book.of_step {log : List (Event ι)} {s s' : State ι} {a : Act ι} (h : Book K log s)
    (hpid : Function.Injective K.pid) (hlen : ∀ c, 0 ≤ K.seqLen c) (hs : step K cap s a = some s') :
    Book K (log ++ event s a) s' := by
  cases a with
  | server => exact h.of_serverStep hpid hlen hs
  | client c => exact h.of_clientStep hs

/-! ### The service -/

omit [DecidableEq ι] in
/-- Two ranges that have been handed out are the same, or they are disjoint. -/
theorem disjoint_of_mem {log : List (Event ι)} {b : ℤ} (hchain : Intervals.Chain 0 (ranges log) b)
    {r r' : ι × ℤ × ℤ} (hr : r ∈ granted log) (hr' : r' ∈ granted log) (hne : r ≠ r') :
    Disjoint (Intervals.span r.2) (Intervals.span r'.2) := by
  have hpair : (granted log).Pairwise fun r r' =>
    Disjoint (Intervals.span r.2) (Intervals.span r'.2) :=
    (List.pairwise_map (f := Prod.snd)
      (R := fun r r' => Disjoint (Intervals.span r) (Intervals.span r'))).1
      hchain.pairwise_disjoint
  have : Std.Symm fun r r' : ι × ℤ × ℤ => Disjoint (Intervals.span r.2) (Intervals.span r'.2) :=
    ⟨fun _ _ h => h.symm⟩
  exact hpair.forall hr hr' hne

/-- **Every number is handed out once.**  When no two clients have the same process id and the
lengths that have been handed out add up to at most `INT_MAX`, what a client prints is the sum of
the lengths handed out before its own range; no client prints twice; the ranges of two clients that
have printed are disjoint; and all the ranges cover exactly the numbers below the counter. -/
theorem numbers_once (hpid : Function.Injective K.pid) (hlen : ∀ c, 0 ≤ K.seqLen c)
    {as : List (Act ι)}
    {s : State ι} (h : Runs.run (step K cap) init as = some s)
    (hsum : total (Runs.trace (step K cap) event init as) ≤ CInt.intMax) :
    let log := Runs.trace (step K cap) event init as
    (∀ c n, (c, n) ∈ printed log → ∃ pre post, granted log = pre ++ (c, n, K.seqLen c) :: post ∧
      n = (pre.map fun r => K.seqLen r.1).sum) ∧
    ((printed log).map Prod.fst).Nodup ∧
    (∀ c d n m, (c, n) ∈ printed log → (d, m) ∈ printed log → c ≠ d →
      Disjoint (Intervals.span (n, K.seqLen c)) (Intervals.span (m, K.seqLen d))) ∧
    ⋃ r ∈ ranges log, Intervals.span r = Set.Ico 0 s.next := by
  intro log
  have hbook : Book K log s :=
    Runs.invariant_trace (fun _ _ _ _ hb hs => hb.of_step hpid hlen hs) Book.init h
  have hchain := hbook.chain hsum
  refine ⟨fun c n hprinted => ?_, hbook.prints_once, fun c d n m hc hd hne => ?_,
    hchain.iUnion_span⟩
  · obtain ⟨pre, post, hsplit⟩ := List.append_of_mem (hbook.prints _ hprinted).1
    refine ⟨pre, post, hsplit, ?_⟩
    have hlengths : pre.map (fun r => r.2.2) = pre.map fun r => K.seqLen r.1 :=
      List.map_congr_left fun r hr => hbook.length r (by rw [hsplit]; simp [hr])
    rw [ranges, hsplit, List.map_append, List.map_cons] at hchain
    have hstart := hchain.start_eq
    rw [List.map_map, zero_add] at hstart
    exact hstart.trans (congrArg List.sum hlengths)
  · refine disjoint_of_mem hchain (hbook.prints _ hc).1 (hbook.prints _ hd).1 fun heq => hne ?_
    exact congrArg Prod.fst heq

/-- Two clients, with process ids `41` and `42`, that ask for three and for four numbers. -/
def countingClients : Clients Bool where
  pid c := bif c then 42 else 41
  seqLen c := bif c then 4 else 3
  reads _ := true

/-- Both clients send before the server reads, and then both are answered. -/
def countingRun : List (Act Bool) :=
  List.replicate 4 (.client false) ++ List.replicate 4 (.client true) ++
    [.client false, .client true, .server, .server, .server, .client false, .server,
      .server, .server, .server, .client true, .server]

theorem numbers_once_countingRun :
    ∃ s, Runs.run (step countingClients 2) init countingRun = some s ∧
      printed (Runs.trace (step countingClients 2) event init countingRun) =
        [(false, 0), (true, 3)] ∧
      Disjoint (Intervals.span (0, 3)) (Intervals.span (3, 4)) := by
  obtain ⟨s, hs⟩ : ∃ s, Runs.run (step countingClients 2) init countingRun = some s := ⟨_, rfl⟩
  have hpid : Function.Injective countingClients.pid := by
    intro c d hcd
    cases c <;> cases d <;> first | rfl | exact absurd hcd (by decide)
  have hlog : Runs.trace (step countingClients 2) event init countingRun =
      [.granted false 0 3, .printed false 0, .granted true 3 4, .printed true 3] := by decide
  have hall := numbers_once hpid (by decide) hs (by rw [hlog]; decide)
  rw [hlog] at hall
  exact ⟨s, hs, by rw [hlog]; decide,
    hall.2.2.1 false true 0 3 (by decide) (by decide) (by decide)⟩

end Fifo
