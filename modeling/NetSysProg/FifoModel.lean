/-
**The sequence-number service over FIFOs (`HW8/44_6`).**

Clients write their requests to the FIFO of the server, and each reads its response from a FIFO of
its own, whose name is made from its process id.  A client creates its FIFO before it sends its
request and opens it after; the server opens it with `O_WRONLY | O_NONBLOCK`, so that a client which
never reads cannot hold the server up, and gives up on the client when the open fails.

Every call that another process can notice is one step.  A FIFO belongs to the client that created
it: its name is looked up through the process that has the id in the name, so an id can be used
again once its process has ended.  No call fails for want of resources and no process is killed.

Main definitions:

* `Fifo.ClientPc`, `Fifo.ServerPc` — where the processes are;
* `Fifo.clientStep`, `Fifo.serverStep`, `Fifo.step` — one step of one of them;
* `Fifo.Blocked` — a client that waits in `open` or in `read` on its own FIFO.

Main results:

* `Fifo.Owned.of_reachable` — a live client is the process with its id, and a request that was sent
  carries the id of its sender, which is past its `write`.
-/

import NetSysProg.CInt
import NetSysProg.Runs
import Mathlib.Logic.Function.Basic

set_option relaxedAutoImplicit false
set_option autoImplicit false

namespace Fifo

variable {ι : Type*}

/-! ### The processes -/

/-- The clients that are started: their process ids, the lengths they ask for, and whether they are
`fifo_seqnum_client` (`true`) or `fifo_seqnum_client_misbehave`. -/
structure Clients (ι : Type*) where
  pid : ι → ℤ
  seqLen : ι → ℤ
  reads : ι → Bool

/-- `struct request`, together with the client that has sent it. -/
structure Request (ι : Type*) where
  pid : ℤ
  seqLen : ℤ
  sender : ι
  deriving DecidableEq

/-- The next call of a client. -/
inductive ClientPc
  /-- The process does not exist yet. -/
  | fork
  | mkfifo
  /-- `open(SERVER_FIFO, O_WRONLY)`. -/
  | openServer
  /-- `write(serverFd, &req, sizeof(struct request))`. -/
  | write
  /-- `open(clientFifo, O_RDONLY)`, not yet entered. -/
  | openFifo
  /-- In that `open`, waiting for a process that opens the FIFO for writing. -/
  | opening
  /-- `read(clientFd, &resp, sizeof(struct response))`. -/
  | read
  /-- `removeFifo`, on the way out. -/
  | unlink
  /-- The end of the process. -/
  | exit
  | ended
  deriving DecidableEq

/-- The process exists. -/
def ClientPc.live : ClientPc → Bool
  | .fork | .ended => false
  | _ => true

/-- The FIFO of the client can be found under its name. -/
def ClientPc.named : ClientPc → Bool
  | .fork | .mkfifo | .exit | .ended => false
  | _ => true

/-- The client has its FIFO open for reading, or waits in the `open` that does it. -/
def ClientPc.reading (reads : Bool) : ClientPc → Bool
  | .opening | .read => true
  | .unlink | .exit => reads
  | _ => false

/-- The client has written its request. -/
def ClientPc.sent : ClientPc → Bool
  | .fork | .mkfifo | .openServer | .write => false
  | _ => true

/-- The next call of the server, with the request it handles and the client whose FIFO it has
open. -/
inductive ServerPc (ι : Type*)
  | read
  /-- `open(clientFifo, O_WRONLY | O_NONBLOCK)`. -/
  | openFifo (req : Request ι)
  /-- `write(clientFd, &resp, sizeof(struct response))`. -/
  | write (req : Request ι) (fifo : ι)
  /-- `close(clientFd)` and `seqNum += req.seqLen`. -/
  | close (req : Request ι) (fifo : ι)
  deriving DecidableEq

/-- The request the server handles. -/
def ServerPc.request : ServerPc ι → Option (Request ι)
  | .read => none
  | .openFifo req | .write req _ | .close req _ => some req

/-- The FIFO the server has open for writing. -/
def ServerPc.holds : ServerPc ι → Option ι
  | .read | .openFifo _ => none
  | .write _ fifo | .close _ fifo => some fifo

/-- The requests in the FIFO of the server, the server, its counter, the process that has a process
id, the clients, the responses in their FIFOs, and the senders of the requests that the server has
given up. -/
structure State (ι : Type*) where
  queue : List (Request ι)
  server : ServerPc ι
  seqNum : ℤ
  process : ℤ → Option ι
  client : ι → ClientPc
  buffer : ι → List ℤ
  givenUp : List ι

/-- The server is at the head of its loop and no client has been started. -/
def init : State ι where
  queue := []
  server := .read
  seqNum := 0
  process := fun _ => none
  client := fun _ => .fork
  buffer := fun _ => []
  givenUp := []

/-- Who takes the next step. -/
inductive Act (ι : Type*)
  | server
  | client (c : ι)
  deriving DecidableEq

section Step

variable [DecidableEq ι] (K : Clients ι) (cap : ℕ)

/-- The state after the client has gone to `pc`. -/
def State.goto (s : State ι) (c : ι) (pc : ClientPc) : State ι :=
  { s with client := Function.update s.client c pc }

/-- One step of a client; `cap` requests fit into the FIFO of the server. -/
def clientStep (s : State ι) (c : ι) : Option (State ι) :=
  match s.client c with
  | .fork =>
      -- the kernel gives a new process an id that no live process has
      if s.process (K.pid c) = none then
        some { s.goto c .mkfifo with process := Function.update s.process (K.pid c) (some c) }
      else none
  | .mkfifo => some (s.goto c .openServer)
  | .openServer => some (s.goto c .write)
  | .write =>
      if s.queue.length < cap then
        some { s.goto c (if K.reads c then .openFifo else .unlink) with
          queue := s.queue ++ [⟨K.pid c, K.seqLen c, c⟩] }
      else none
  | .openFifo => some (s.goto c (if s.server.holds = some c then .read else .opening))
  | .opening => none
  | .read =>
      match s.buffer c with
      | _ :: rest => some { s.goto c .unlink with buffer := Function.update s.buffer c rest }
      | [] =>
          -- end of file when nobody has the FIFO open for writing
          if s.server.holds = some c then none else some (s.goto c .unlink)
  | .unlink => some (s.goto c .exit)
  | .exit => some { s.goto c .ended with process := Function.update s.process (K.pid c) none }
  | .ended => none

/-- The client whose FIFO an `open` for writing finds under the name made from `pid`. -/
def State.lookup (s : State ι) (pid : ℤ) : Option ι :=
  (s.process pid).filter fun c => (s.client c).named

/-- One step of the loop of the server. -/
def serverStep (s : State ι) : Option (State ι) :=
  match s.server with
  | .read =>
      match s.queue with
      | [] => none
      | req :: queue => some { s with server := .openFifo req, queue := queue }
  | .openFifo req =>
      match s.lookup req.pid with
      | none => some { s with server := .read, givenUp := req.sender :: s.givenUp }
      | some c =>
          if (s.client c).reading (K.reads c) then
            -- a client that waits in its open comes back from it
            some { s.goto c (if s.client c = .opening then .read else s.client c) with
              server := .write req c }
          else some { s with server := .read, givenUp := req.sender :: s.givenUp }
  | .write req c =>
      if (s.client c).reading (K.reads c) then
        some { s with
          server := .close req c
          buffer := Function.update s.buffer c (s.buffer c ++ [s.seqNum]) }
      else some { s with server := .close req c }
  | .close req _ => some { s with server := .read, seqNum := CInt.wrap (s.seqNum + req.seqLen) }

/-- One step of the system. -/
def step (s : State ι) : Act ι → Option (State ι)
  | .server => serverStep K s
  | .client c => clientStep K cap s c

end Step

/-- The client waits on its own FIFO: in `open`, or in `read` with nothing to read and the server
holding the other end. -/
def Blocked (s : State ι) (c : ι) : Prop :=
  s.client c = .opening ∨ (s.client c = .read ∧ s.buffer c = [] ∧ s.server.holds = some c)

/-! ### Whose FIFO it is -/

section Owned

variable [DecidableEq ι] {K : Clients ι} {cap : ℕ}

@[simp] theorem goto_client (s : State ι) (c d : ι) (pc : ClientPc) :
    (s.goto c pc).client d = if d = c then pc else s.client d := by
  simp [State.goto, Function.update_apply]

/-- The requests that the server has not finished with. -/
def State.requests (s : State ι) : List (Request ι) := s.server.request.toList ++ s.queue

/-- A live client is the process with its id, and a request on its way names its sender. -/
structure Owned (K : Clients ι) (s : State ι) : Prop where
  process : ∀ c, (s.client c).live = true → s.process (K.pid c) = some c
  request : ∀ req ∈ s.requests, req.pid = K.pid req.sender ∧ (s.client req.sender).sent = true

omit [DecidableEq ι] in
theorem owned_init : Owned K (init : State ι) where
  process := by simp [init, ClientPc.live]
  request := by simp [State.requests, init, ServerPc.request]

/-- A client that moves on without changing the processes and the requests. -/
theorem Owned.goto {s : State ι} (h : Owned K s) {c : ι} {pc : ClientPc}
    (hlive : (s.client c).live = true)
    (hsent : (s.client c).sent = true → pc.sent = true) : Owned K (s.goto c pc) where
  process := by
    intro d hd
    rw [goto_client] at hd
    split at hd
    · next hdc => exact hdc ▸ h.process c hlive
    · exact h.process d hd
  request := by
    intro req hreq
    obtain ⟨hpid, hs⟩ := h.request req hreq
    refine ⟨hpid, ?_⟩
    rw [goto_client]
    split
    · next hdc => exact hsent (hdc ▸ hs)
    · exact hs

omit [DecidableEq ι] in
theorem Owned.congr {s s' : State ι} (h : Owned K s) (hprocess : s'.process = s.process)
    (hclient : s'.client = s.client) (hreq : ∀ req ∈ s'.requests, req ∈ s.requests) :
    Owned K s' where
  process := by rw [hprocess, hclient]; exact h.process
  request := fun req hm => by rw [hclient]; exact h.request req (hreq req hm)

/-- A process begins with an id that no live process has. -/
theorem Owned.start {s : State ι} (h : Owned K s) {c : ι} (hpc : s.client c = .fork)
    (hfree : s.process (K.pid c) = none) :
    Owned K { s.goto c .mkfifo with process := Function.update s.process (K.pid c) (some c) } where
  process := by
    intro d hd
    change Function.update s.process (K.pid c) (some c) (K.pid d) = some d
    simp only [goto_client] at hd
    split at hd
    · next hdc => rw [hdc, Function.update_self]
    · have howns := h.process d hd
      have hne : K.pid d ≠ K.pid c := by
        intro heq
        rw [heq, hfree] at howns
        simp at howns
      rw [Function.update_of_ne hne, howns]
  request := by
    intro req hreq
    obtain ⟨hpid, hsent⟩ := h.request req hreq
    have hne : req.sender ≠ c := by
      rintro rfl
      rw [hpc] at hsent
      simp [ClientPc.sent] at hsent
    exact ⟨hpid, by simpa [hne] using hsent⟩

/-- A process ends, and its id is free. -/
theorem Owned.finish {s : State ι} (h : Owned K s) {c : ι} (hpc : s.client c = .exit) :
    Owned K { s.goto c .ended with process := Function.update s.process (K.pid c) none } where
  process := by
    intro d hd
    change Function.update s.process (K.pid c) none (K.pid d) = some d
    simp only [goto_client] at hd
    split at hd
    · simp [ClientPc.live] at hd
    · next hdc =>
        have howns := h.process d hd
        have hown := h.process c (by rw [hpc]; rfl)
        have hne : K.pid d ≠ K.pid c := by
          intro heq
          rw [heq, hown] at howns
          exact hdc (Option.some.inj howns).symm
        rw [Function.update_of_ne hne, howns]
  request := (h.goto (by rw [hpc]; rfl) fun _ => rfl).request

/-- A client's step keeps it. -/
theorem Owned.clientStep {s s' : State ι} (h : Owned K s) {c : ι}
    (hs : clientStep K cap s c = some s') : Owned K s' := by
  cases hpc : s.client c with
  | fork =>
      simp only [Fifo.clientStep, hpc] at hs
      split at hs
      · next hfree => exact Option.some.inj hs ▸ h.start hpc hfree
      · simp at hs
  | mkfifo =>
      simp only [Fifo.clientStep, hpc, Option.some.injEq] at hs
      exact hs ▸ h.goto (by rw [hpc]; rfl) (by rw [hpc]; simp [ClientPc.sent])
  | openServer =>
      simp only [Fifo.clientStep, hpc, Option.some.injEq] at hs
      exact hs ▸ h.goto (by rw [hpc]; rfl) (by rw [hpc]; simp [ClientPc.sent])
  | write =>
      simp only [Fifo.clientStep, hpc] at hs
      split at hs
      · cases hs
        have hpast : (if K.reads c then ClientPc.openFifo else .unlink).sent = true := by
          split <;> rfl
        have hgoto := h.goto (by rw [hpc]; rfl) fun _ => hpast
        refine ⟨hgoto.process, ?_⟩
        intro req hreq
        simp only [State.requests, ← List.append_assoc, List.mem_append, List.mem_singleton] at hreq
        rcases hreq with hreq | rfl
        · exact hgoto.request req (List.mem_append.2 hreq)
        · exact ⟨rfl, by simpa using hpast⟩
      · simp at hs
  | openFifo =>
      simp only [Fifo.clientStep, hpc, Option.some.injEq] at hs
      exact hs ▸ h.goto (by rw [hpc]; rfl) fun _ => by split <;> rfl
  | opening => simp [Fifo.clientStep, hpc] at hs
  | read =>
      have hgoto : Owned K (s.goto c .unlink) := h.goto (by rw [hpc]; rfl) fun _ => rfl
      simp only [Fifo.clientStep, hpc] at hs
      split at hs
      · cases hs
        exact hgoto.congr rfl rfl fun _ hreq => hreq
      · split at hs
        · simp at hs
        · cases hs
          exact hgoto
  | unlink =>
      simp only [Fifo.clientStep, hpc, Option.some.injEq] at hs
      exact hs ▸ h.goto (by rw [hpc]; rfl) fun _ => rfl
  | exit =>
      simp only [Fifo.clientStep, hpc, Option.some.injEq] at hs
      exact hs ▸ h.finish hpc
  | ended => simp [Fifo.clientStep, hpc] at hs

/-- A step of the server keeps it. -/
theorem Owned.serverStep {s s' : State ι} (h : Owned K s) (hs : serverStep K s = some s') :
    Owned K s' := by
  cases hpc : s.server with
  | read =>
      simp only [Fifo.serverStep, hpc] at hs
      split at hs
      · simp at hs
      · next req queue hqueue =>
          cases hs
          refine h.congr rfl rfl fun r hr => ?_
          simpa [State.requests, hpc, hqueue, ServerPc.request] using hr
  | openFifo req =>
      have hless : ∀ r ∈ s.queue, r ∈ s.requests := fun r hr => List.mem_append.2 (.inr hr)
      simp only [Fifo.serverStep, hpc] at hs
      split at hs
      · cases hs
        exact h.congr rfl rfl hless
      · next c hlookup =>
          split at hs
          · next hreading =>
              cases hs
              have hlive : (s.client c).live = true := by
                cases hc : s.client c <;> simp_all [ClientPc.reading, ClientPc.live]
              have hgoto : Owned K
                  (s.goto c (if s.client c = .opening then .read else s.client c)) :=
                h.goto hlive fun hsent => by split <;> [rfl; exact hsent]
              refine hgoto.congr rfl rfl fun r hr => ?_
              simpa [State.requests, State.goto, hpc, ServerPc.request] using hr
          · cases hs
            exact h.congr rfl rfl hless
  | write req c =>
      simp only [Fifo.serverStep, hpc] at hs
      split at hs <;>
      · cases hs
        refine h.congr rfl rfl fun r hr => ?_
        simpa [State.requests, hpc, ServerPc.request] using hr
  | close req c =>
      simp only [Fifo.serverStep, hpc] at hs
      cases hs
      exact h.congr rfl rfl fun r hr => List.mem_append.2 (.inr hr)

/-- **Whose FIFO and whose request it is**, in every reachable state. -/
theorem Owned.of_reachable {s : State ι} (h : Runs.Reachable (step K cap) init s) : Owned K s := by
  refine h.invariant ?_ owned_init
  intro s a s' hown hs
  cases a with
  | server => exact hown.serverStep hs
  | client c => exact hown.clientStep hs

end Owned

end Fifo
