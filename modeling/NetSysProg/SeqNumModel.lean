/-
**The sequence-number service over one System V message queue (`HW8/46_2`).**

A server and any number of clients share one message queue.  A client sends a request of type
`MSG_TYPE` that carries its process id and a length, and then waits for a message whose type is its
own process id; the server answers every request with the current value of a counter and advances
the counter by the length asked for.  Requests and responses travel in the same queue and are told
apart by their type alone.

Every `msgsnd` and every `msgrcv` is one step.  A message also carries the client whose request
caused it, and the state keeps a log of what was taken and what was handed out; both are there to
state the results and no step looks at them.

Main definitions:

* `SeqNum.msgrcv` — the first message of a type, and the queue without it;
* `SeqNum.Clients` — the process ids and the lengths of the clients;
* `SeqNum.step` — one step of the server or of a client;
* `SeqNum.Move` — the steps by name, with everything a step can do.

Main results:

* `SeqNum.Move.of_step` — a step of the system is one of the named moves;
* `SeqNum.Traffic.of_reachable` — **the queue and the phases of the processes in every reachable
  state**: every client that waits for a response is owed exactly one message, a request or the
  response to it.
-/

import NetSysProg.CInt
import NetSysProg.Runs
import Mathlib.Data.List.Nodup
import Mathlib.Logic.Function.Basic

set_option relaxedAutoImplicit false
set_option autoImplicit false

namespace SeqNum

variable {ι : Type*}

/-! ### Messages -/

/-- `MSG_TYPE`, the type of every request. -/
def msgType : ℤ := 1

/-- What follows the type in a message. -/
inductive Payload
  | request (clientId seqLen : ℤ)
  | response (seqNum : ℤ)
  deriving DecidableEq

/-- A message on the queue, together with the client whose request caused it. -/
structure Msg (ι : Type*) where
  mtype : ℤ
  payload : Payload
  cause : ι
  deriving DecidableEq

/-- `msgrcv` with a positive message type: the first message of that type, and the queue that is
left.  There is no such message while the call blocks. -/
def msgrcv (msgtyp : ℤ) : List (Msg ι) → Option (Msg ι × List (Msg ι))
  | [] => none
  | m :: q =>
      if m.mtype = msgtyp then some (m, q)
      else (msgrcv msgtyp q).map fun r => (r.1, m :: r.2)

/-- What `msgrcv` returns, and what it leaves. -/
theorem msgrcv_eq_some {msgtyp : ℤ} {q q' : List (Msg ι)} {m : Msg ι}
    (h : msgrcv msgtyp q = some (m, q')) :
    m.mtype = msgtyp ∧ ∃ pre post, q = pre ++ m :: post ∧ q' = pre ++ post := by
  induction q generalizing q' with
  | nil => simp [msgrcv] at h
  | cons x q ih =>
      rw [msgrcv] at h
      split at h
      · next hx =>
          obtain ⟨rfl, rfl⟩ : x = m ∧ q = q' := by simpa using h
          exact ⟨hx, [], q, rfl, rfl⟩
      · obtain ⟨⟨y, q''⟩, hy, hyq⟩ := Option.map_eq_some_iff.1 h
        obtain ⟨rfl, rfl⟩ : y = m ∧ x :: q'' = q' := by simpa using hyq
        obtain ⟨htyp, pre, post, rfl, rfl⟩ := ih hy
        exact ⟨htyp, x :: pre, post, rfl, rfl⟩

/-- `msgrcv` does not block while a message of the type is on the queue. -/
theorem exists_msgrcv {msgtyp : ℤ} {q : List (Msg ι)} (h : ∃ m ∈ q, m.mtype = msgtyp) :
    ∃ m q', msgrcv msgtyp q = some (m, q') := by
  induction q with
  | nil => obtain ⟨m, hm, -⟩ := h; simp at hm
  | cons x q ih =>
      by_cases hx : x.mtype = msgtyp
      · exact ⟨x, q, by rw [msgrcv, if_pos hx]⟩
      · obtain ⟨m, hm, hmt⟩ := h
        have hq : m ∈ q := (List.mem_cons.1 hm).resolve_left (by rintro rfl; exact hx hmt)
        obtain ⟨y, q', hy⟩ := ih ⟨m, hq, hmt⟩
        exact ⟨y, x :: q', by rw [msgrcv, if_neg hx, hy]; rfl⟩

theorem msgrcv_eq_none {msgtyp : ℤ} {q : List (Msg ι)} (h : ∀ m ∈ q, m.mtype ≠ msgtyp) :
    msgrcv msgtyp q = none := by
  induction q with
  | nil => rfl
  | cons x q ih =>
      rw [msgrcv, if_neg (h x (List.mem_cons_self ..)),
        ih fun m hm => h m (List.mem_cons_of_mem _ hm)]
      rfl

/-! ### The processes -/

/-- The clients that are started: their process ids, which are positive, distinct and not
`MSG_TYPE`, and the lengths they ask for, which the client program has checked to be no less than
`0`. -/
structure Clients (ι : Type*) where
  pid : ι → ℤ
  seqLen : ι → ℤ
  pid_pos : ∀ c, 0 < pid c
  pid_ne : ∀ c, pid c ≠ msgType
  pid_inj : Function.Injective pid
  seqLen_nonneg : ∀ c, 0 ≤ seqLen c

/-- Where a client is: before its `msgsnd`, before its `msgrcv`, past it with the number received,
or ended by a call that failed. -/
inductive ClientPc
  | snd
  | rcv
  | done (seqNum : ℤ)
  | failed
  deriving DecidableEq

/-- Where the server is: at the `msgrcv` at the head of its loop, at the `msgsnd` of the response to
a request of the given client, at the update of `seq_num`, or ended by a call that failed. -/
inductive ServerPc (ι : Type*)
  | rcv
  | snd (cause : ι)
  | add
  | failed
  deriving DecidableEq

/-- `server_req` without its type: the two fields the server uses. -/
structure ServerReq where
  clientId : ℤ
  seqLen : ℤ
  deriving DecidableEq

/-- What `msgrcv` leaves in `server_req`: a shorter message overwrites the first field only. -/
def ServerReq.load (r : ServerReq) : Payload → ServerReq
  | .request clientId seqLen => ⟨clientId, seqLen⟩
  | .response seqNum => { r with clientId := seqNum }

/-- What the log records. -/
inductive Event (ι : Type*)
  /-- The server's `msgrcv` returned the message. -/
  | accepted (m : Msg ι)
  /-- The server's `msgsnd` answered the client: the first number, and how many were asked for. -/
  | handed (cause : ι) (start len : ℤ)
  /-- The `msgrcv` of the client returned the message. -/
  | obtained (c : ι) (m : Msg ι)
  deriving DecidableEq

/-- The queue, the variables of the server, the clients, and the log. -/
structure State (ι : Type*) where
  queue : List (Msg ι)
  server : ServerPc ι
  serverReq : ServerReq
  seqNum : ℤ
  client : ι → ClientPc
  log : List (Event ι)

/-- The state in which the server reaches its loop and no client has sent anything.  The contents
of `server_req` are whatever was on the stack. -/
def init (req : ServerReq) : State ι where
  queue := []
  server := .rcv
  serverReq := req
  seqNum := 0
  client := fun _ => .snd
  log := []

/-- Who takes the next step. -/
inductive Act (ι : Type*)
  | server
  | client (c : ι)

section Step

variable [DecidableEq ι] (K : Clients ι) (cap : ℕ)

/-- One step of the loop of the server on a queue with room for `cap` messages. -/
def serverStep (s : State ι) : Option (State ι) :=
  match s.server with
  | .rcv =>
      (msgrcv msgType s.queue).map fun r =>
        { s with
          queue := r.2
          serverReq := s.serverReq.load r.1.payload
          server := .snd r.1.cause
          log := s.log ++ [.accepted r.1] }
  | .snd c =>
      -- a message type below one is refused with `EINVAL`
      if s.serverReq.clientId < 1 then some { s with server := .failed }
      else if s.queue.length < cap then
        some { s with
          queue := s.queue ++ [⟨s.serverReq.clientId, .response s.seqNum, c⟩]
          server := .add
          log := s.log ++ [.handed c s.seqNum s.serverReq.seqLen] }
      else none
  | .add =>
      some { s with
        seqNum := CInt.wrap (s.seqNum + s.serverReq.seqLen)
        server := .rcv }
  | .failed => none

/-- One step of the client `c`. -/
def clientStep (s : State ι) (c : ι) : Option (State ι) :=
  match s.client c with
  | .snd =>
      if s.queue.length < cap then
        some { s with
          queue := s.queue ++ [⟨msgType, .request (K.pid c) (K.seqLen c), c⟩]
          client := Function.update s.client c .rcv }
      else none
  | .rcv =>
      (msgrcv (K.pid c) s.queue).map fun r =>
        match r.1.payload with
        | .response n =>
            { s with
              queue := r.2
              client := Function.update s.client c (.done n)
              log := s.log ++ [.obtained c r.1] }
        -- more than `RES_SIZE` bytes: `E2BIG`, and the message stays where it is
        | .request _ _ => { s with client := Function.update s.client c .failed }
  | .done _ => none
  | .failed => none

/-- One step of the system. -/
def step (s : State ι) : Act ι → Option (State ι)
  | .server => serverStep cap s
  | .client c => clientStep K cap s c

end Step

/-! ### The moves of the system -/

section Moves

variable [DecidableEq ι] (K : Clients ι) (cap : ℕ)

/-- The request of the client `c`. -/
def requestOf (c : ι) : Msg ι := ⟨msgType, .request (K.pid c) (K.seqLen c), c⟩

/-- The response to the client `c` that carries the number `n`. -/
def responseTo (c : ι) (n : ℤ) : Msg ι := ⟨K.pid c, .response n, c⟩

/-- Everything a step can do. -/
inductive Move (s : State ι) : Act ι → State ι → Prop
  | accept {m : Msg ι} {q : List (Msg ι)} (hpc : s.server = .rcv)
      (hm : msgrcv msgType s.queue = some (m, q)) :
      Move s .server { s with
        queue := q
        serverReq := s.serverReq.load m.payload
        server := .snd m.cause
        log := s.log ++ [.accepted m] }
  | refuse {c : ι} (hpc : s.server = .snd c) (hid : s.serverReq.clientId < 1) :
      Move s .server { s with server := .failed }
  | respond {c : ι} (hpc : s.server = .snd c) (hroom : s.queue.length < cap) :
      Move s .server { s with
        queue := s.queue ++ [⟨s.serverReq.clientId, .response s.seqNum, c⟩]
        server := .add
        log := s.log ++ [.handed c s.seqNum s.serverReq.seqLen] }
  | advance (hpc : s.server = .add) :
      Move s .server { s with
        seqNum := CInt.wrap (s.seqNum + s.serverReq.seqLen)
        server := .rcv }
  | request {c : ι} (hpc : s.client c = .snd) (hroom : s.queue.length < cap) :
      Move s (.client c) { s with
        queue := s.queue ++ [requestOf K c]
        client := Function.update s.client c .rcv }
  | obtain {c : ι} {m : Msg ι} {q : List (Msg ι)} {n : ℤ} (hpc : s.client c = .rcv)
      (hm : msgrcv (K.pid c) s.queue = some (m, q)) (hn : m.payload = .response n) :
      Move s (.client c) { s with
        queue := q
        client := Function.update s.client c (.done n)
        log := s.log ++ [.obtained c m] }
  | tooBig {c : ι} {m : Msg ι} {q : List (Msg ι)} {a b : ℤ} (hpc : s.client c = .rcv)
      (hm : msgrcv (K.pid c) s.queue = some (m, q)) (hn : m.payload = .request a b) :
      Move s (.client c) { s with client := Function.update s.client c .failed }

theorem Move.of_serverStep {s s' : State ι} (h : serverStep cap s = some s') :
    Move K cap s .server s' := by
  unfold serverStep at h
  split at h
  · next hpc =>
      obtain ⟨⟨m, q⟩, hm, rfl⟩ := Option.map_eq_some_iff.1 h
      exact .accept hpc hm
  · next c hpc =>
      split at h
      · next hid =>
          obtain rfl := Option.some.inj h
          exact .refuse hpc hid
      · split at h
        · next hroom =>
            obtain rfl := Option.some.inj h
            exact .respond hpc hroom
        · simp at h
  · next hpc =>
      obtain rfl := Option.some.inj h
      exact .advance hpc
  · simp at h

theorem Move.of_clientStep {s s' : State ι} {c : ι} (h : clientStep K cap s c = some s') :
    Move K cap s (.client c) s' := by
  unfold clientStep at h
  split at h
  · next hpc =>
      split at h
      · next hroom =>
          obtain rfl := Option.some.inj h
          exact .request hpc hroom
      · simp at h
  · next hpc =>
      obtain ⟨⟨m, q⟩, hm, rfl⟩ := Option.map_eq_some_iff.1 h
      cases hp : m.payload with
      | response n => exact .obtain hpc hm hp
      | request a b => exact .tooBig hpc hm hp
  · simp at h
  · simp at h

/-- **Every step of the system is one of the moves.** -/
theorem Move.of_step {s s' : State ι} {a : Act ι} (h : step K cap s a = some s') :
    Move K cap s a s' := by
  cases a with
  | server => exact Move.of_serverStep K cap h
  | client c => exact Move.of_clientStep K cap h

end Moves

/-! ### The messages on the queue -/

section Traffic

variable (K : Clients ι)

/-- The client whose request the server holds between its `msgrcv` and its `msgsnd`. -/
def ServerPc.held : ServerPc ι → List ι
  | .snd c => [c]
  | _ => []

/-- The clients whose request or response is on the queue or in the hands of the server. -/
def State.owed (s : State ι) : List ι := s.queue.map Msg.cause ++ s.server.held

/-- What ties the queue to the phases of the processes. -/
structure Traffic (s : State ι) : Prop where
  /-- Only requests of clients and responses to them are on the queue. -/
  queue : ∀ m ∈ s.queue, m = requestOf K m.cause ∨ ∃ n, m = responseTo K m.cause n
  /-- No client is owed two messages. -/
  nodup : s.owed.Nodup
  /-- The clients that are owed a message are those that wait for one. -/
  owed_iff : ∀ c, c ∈ s.owed ↔ s.client c = .rcv
  /-- `server_req` holds the request that is being answered. -/
  req : ∀ c, s.server = .snd c → s.serverReq = ⟨K.pid c, K.seqLen c⟩
  /-- No call of the server has failed. -/
  server_alive : s.server ≠ .failed
  /-- No call of a client has failed. -/
  client_alive : ∀ c, s.client c ≠ .failed

/-- The two facts about the owed clients, read off any rearrangement of them. -/
theorem Traffic.of_perm {s : State ι} (l : List ι) (hperm : s.owed.Perm l) (hnodup : l.Nodup)
    (hiff : ∀ c, c ∈ l ↔ s.client c = .rcv)
    (hqueue : ∀ m ∈ s.queue, m = requestOf K m.cause ∨ ∃ n, m = responseTo K m.cause n)
    (hreq : ∀ c, s.server = .snd c → s.serverReq = ⟨K.pid c, K.seqLen c⟩)
    (hserver : s.server ≠ .failed) (hclient : ∀ c, s.client c ≠ .failed) : Traffic K s where
  queue := hqueue
  nodup := hperm.nodup_iff.2 hnodup
  owed_iff c := hperm.mem_iff.trans (hiff c)
  req := hreq
  server_alive := hserver
  client_alive := hclient

theorem Traffic.init (req : ServerReq) : Traffic K (init req : State ι) :=
  Traffic.of_perm K [] (List.Perm.refl _) List.nodup_nil (by simp [SeqNum.init])
    (by simp [SeqNum.init]) (by simp [SeqNum.init]) (by simp [SeqNum.init]) (by simp [SeqNum.init])

variable {K}

/-- A message of type `MSG_TYPE` is a request. -/
theorem Traffic.eq_requestOf {s : State ι} (h : Traffic K s) {m : Msg ι} (hm : m ∈ s.queue)
    (ht : m.mtype = msgType) : m = requestOf K m.cause := by
  rcases h.queue m hm with hreq | ⟨n, hres⟩
  · exact hreq
  · rw [hres] at ht
    exact absurd ht (K.pid_ne m.cause)

/-- A message whose type is the process id of a client is a response to that client. -/
theorem Traffic.eq_responseTo {s : State ι} (h : Traffic K s) {m : Msg ι} (hm : m ∈ s.queue)
    {c : ι} (ht : m.mtype = K.pid c) : ∃ n, m = responseTo K c n := by
  rcases h.queue m hm with hreq | ⟨n, hres⟩
  · rw [hreq] at ht
    exact absurd ht.symm (K.pid_ne c)
  · rw [hres] at ht
    obtain rfl := K.pid_inj ht
    exact ⟨n, hres⟩

/-- The server does not refuse a request: it carries the process id of its client. -/
theorem Traffic.clientId_pos {s : State ι} (h : Traffic K s) {c : ι} (hpc : s.server = .snd c) :
    ¬ s.serverReq.clientId < 1 := by
  have hpos := K.pid_pos c
  rw [h.req c hpc]
  exact Int.not_lt.2 hpos

/-- A client does not take a request from the queue. -/
theorem Traffic.payload_ne_request {s : State ι} (h : Traffic K s) {c : ι} {m : Msg ι}
    {q : List (Msg ι)} (hm : msgrcv (K.pid c) s.queue = some (m, q)) (a b : ℤ) :
    m.payload ≠ .request a b := by
  obtain ⟨ht, pre, post, hq, -⟩ := msgrcv_eq_some hm
  obtain ⟨n, rfl⟩ := h.eq_responseTo (by simp [hq]) ht
  simp [responseTo]

/-- What is left of the queue was there before. -/
theorem mem_of_split {q pre post : List (Msg ι)} {m x : Msg ι} (hq : q = pre ++ m :: post)
    (hx : x ∈ pre ++ post) : x ∈ q := by
  rw [hq]
  rcases List.mem_append.1 hx with hx | hx <;> simp [hx]

/-- The request moves from the queue into the hands of the server. -/
theorem Traffic.accept {s : State ι} (h : Traffic K s) {m : Msg ι} {q : List (Msg ι)}
    (hpc : s.server = .rcv) (hm : msgrcv msgType s.queue = some (m, q)) :
    Traffic K { s with
      queue := q
      serverReq := s.serverReq.load m.payload
      server := .snd m.cause
      log := s.log ++ [.accepted m] } := by
  obtain ⟨ht, pre, post, hq, rfl⟩ := msgrcv_eq_some hm
  have hreq := h.eq_requestOf (by simp [hq]) ht
  have hperm : ((pre ++ post).map Msg.cause ++ [m.cause]).Perm s.owed := by
    simp only [State.owed, hpc, ServerPc.held, hq, List.append_nil, List.map_append,
      List.map_cons]
    exact (List.perm_append_singleton _ _).trans List.perm_middle.symm
  refine Traffic.of_perm K s.owed hperm h.nodup h.owed_iff
    (fun x hx => h.queue x (mem_of_split hq hx)) (fun c hc => ?_) (by simp) h.client_alive
  obtain rfl : m.cause = c := by simpa using hc
  rw [hreq]
  rfl

/-- The server puts the response to the request it holds on the queue. -/
theorem Traffic.respond {s : State ι} (h : Traffic K s) {c : ι} (hpc : s.server = .snd c) :
    Traffic K { s with
      queue := s.queue ++ [⟨s.serverReq.clientId, .response s.seqNum, c⟩]
      server := .add
      log := s.log ++ [.handed c s.seqNum s.serverReq.seqLen] } := by
  refine Traffic.of_perm K s.owed (List.Perm.of_eq ?_) h.nodup h.owed_iff (fun x hx => ?_)
    (by simp) (by simp) h.client_alive
  · simp [State.owed, hpc, ServerPc.held]
  · rcases List.mem_append.1 hx with hx | hx
    · exact h.queue x hx
    · obtain rfl := List.mem_singleton.1 hx
      exact Or.inr ⟨s.seqNum, by rw [h.req c hpc]; rfl⟩

variable [DecidableEq ι]

/-- A client puts its request on the queue, and from then on it is owed a message. -/
theorem Traffic.request {s : State ι} (h : Traffic K s) {c : ι} (hpc : s.client c = .snd) :
    Traffic K { s with
      queue := s.queue ++ [requestOf K c]
      client := Function.update s.client c .rcv } := by
  have hperm : ((s.queue ++ [requestOf K c]).map Msg.cause ++ s.server.held).Perm
      (c :: s.owed) := by
    simp only [State.owed, List.map_append, List.append_assoc]
    exact List.perm_middle
  have hnew : c ∉ s.owed := by rw [h.owed_iff c, hpc]; simp
  refine Traffic.of_perm K (c :: s.owed) hperm (List.nodup_cons.2 ⟨hnew, h.nodup⟩)
    (fun d => ?_) (fun x hx => ?_) h.req h.server_alive (fun d => ?_)
  · rcases eq_or_ne d c with rfl | hd
    · simp
    · simp [hd, h.owed_iff d]
  · rcases List.mem_append.1 hx with hx | hx
    · exact h.queue x hx
    · obtain rfl := List.mem_singleton.1 hx
      exact Or.inl rfl
  · rcases eq_or_ne d c with rfl | hd
    · simp
    · simpa [hd] using h.client_alive d

/-- The response leaves the queue, and its client is no longer owed anything. -/
theorem Traffic.obtain {s : State ι} (h : Traffic K s) {c : ι} {m : Msg ι} {q : List (Msg ι)}
    {n : ℤ} (hm : msgrcv (K.pid c) s.queue = some (m, q)) :
    Traffic K { s with
      queue := q
      client := Function.update s.client c (.done n)
      log := s.log ++ [.obtained c m] } := by
  obtain ⟨ht, pre, post, hq, rfl⟩ := msgrcv_eq_some hm
  obtain ⟨k, hk⟩ := h.eq_responseTo (by simp [hq]) ht
  have hcause : m.cause = c := by rw [hk]; rfl
  have hperm : s.owed.Perm (c :: ((pre ++ post).map Msg.cause ++ s.server.held)) := by
    simp only [State.owed, hq, List.map_append, List.map_cons, hcause, List.append_assoc,
      List.cons_append]
    exact List.perm_middle
  have hnodup := List.nodup_cons.1 (hperm.nodup_iff.1 h.nodup)
  refine Traffic.of_perm K ((pre ++ post).map Msg.cause ++ s.server.held) (List.Perm.refl _)
    hnodup.2 (fun d => ?_) (fun x hx => h.queue x (mem_of_split hq hx)) h.req h.server_alive
    (fun d => ?_)
  · rcases eq_or_ne d c with rfl | hd
    · exact ⟨fun hmem => absurd hmem hnodup.1, fun hpc' => by simp at hpc'⟩
    · have hold := (hperm.mem_iff.symm.trans (h.owed_iff d))
      rw [List.mem_cons, or_iff_right hd] at hold
      simpa only [Function.update_of_ne hd] using hold
  · rcases eq_or_ne d c with rfl | hd
    · simp
    · simpa [hd] using h.client_alive d

variable (K) (cap : ℕ)

/-- **The traffic invariant is preserved by every step.** -/
theorem Traffic.of_move {s s' : State ι} {a : Act ι} (h : Traffic K s) (hs : Move K cap s a s') :
    Traffic K s' := by
  cases hs with
  | accept hpc hm => exact h.accept hpc hm
  | refuse hpc hid => exact absurd hid (h.clientId_pos hpc)
  | respond hpc => exact h.respond hpc
  | advance hpc =>
      refine Traffic.of_perm K s.owed (List.Perm.of_eq ?_) h.nodup h.owed_iff h.queue (by simp)
        (by simp) h.client_alive
      simp [State.owed, hpc, ServerPc.held]
  | request hpc => exact h.request hpc
  | obtain _ hm => exact h.obtain hm
  | tooBig _ hm hn => exact absurd hn (h.payload_ne_request hm _ _)

/-- **The traffic invariant holds in every reachable state.** -/
theorem Traffic.of_reachable {req : ServerReq} {s : State ι}
    (h : Runs.Reachable (step K cap) (SeqNum.init req) s) : Traffic K s :=
  h.invariant (fun _ _ _ hi hs => hi.of_move K cap (Move.of_step K cap hs)) (Traffic.init K req)

end Traffic

end SeqNum
