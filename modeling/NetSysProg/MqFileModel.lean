/-
**A file over POSIX message queues (`HW9/52_3`).**

A client puts a request with the path of a file into the server's queue, and the server puts the
content of the file into the client's own queue, in messages of a fixed size.  No message carries a
length: the client takes the string at the start of a message for its content, and a message that
starts with a null byte for the end.  The server's message is filled by `read`, set to zero after it
has been sent, and sent once more as the end marker after its first byte has been set to zero.

Every system call is one step.  The result of a call of the server is a parameter of the step: how
much was read, which free descriptor was given out, or that the call has failed.  A `mq_send` to a
full queue and a `mq_receive` from an empty one have to wait, and so does nobody else.

The state also says which chunk of the file a message carries, which messages the server has put
into the queue of each client, and whose queues it has opened.  No step looks at these.

Main definitions:

* `MqFile.Response` — `struct response_msg`;
* `MqFile.serverStep` — one call of the server;
* `MqFile.clientStep` — one call of a client;
* `MqFile.step`, `MqFile.openStep` — the server with clients that run the client program, and the
  server with any processes around it.

Main results:

* `MqFile.ServerMove.of_step`, `MqFile.ClientMove.of_step` — what a call of the server, and of a
  client, can do.
-/

import NetSysProg.CInt
import NetSysProg.CString
import NetSysProg.Runs
import Mathlib.Data.Finset.Insert
import Mathlib.Data.Finset.Erase
import Mathlib.Logic.Function.Basic

set_option relaxedAutoImplicit false
set_option autoImplicit false

namespace MqFile

open CString

/-! ### Messages -/

/-- `MSG_SIZE` -/
def msgSize : ℕ := 2048

/-- `mq_maxmsg` of either queue. -/
def maxMsg : ℕ := 4

/-- `struct response_msg` -/
structure Response where
  data : List Byte
  data_length : data.length = msgSize

namespace Response

/-- The message after `bs` has been read into it. -/
def fill (r : Response) (bs : List Byte) : Response where
  data := (bs ++ r.data.drop bs.length).take msgSize
  data_length := by
    have := r.data_length
    simp only [List.length_take, List.length_append, List.length_drop]
    omega

/-- `server_res.data[0] = '\0'` -/
def mark (r : Response) : Response where
  data := r.data.set 0 nul
  data_length := by rw [List.length_set, r.data_length]

/-- `memset(&server_res, 0, sizeof(struct response_msg))` -/
def zero : Response := ⟨List.replicate msgSize nul, List.length_replicate⟩

theorem head?_mark (r : Response) : r.mark.data.head? = some nul := by
  obtain ⟨data, hlen⟩ := r
  cases data with
  | nil => exact absurd hlen (by decide)
  | cons a data => rfl

end Response

/-- A message in the queue of a client, with the chunk of the file that was read into it; the end
marker carries none. -/
structure Msg where
  res : Response
  chunk : Option (List Byte)

/-! ### The processes -/

variable {ι : Type*}

/-- The next call of the server, with the client it serves and the descriptors `mq_client` and
`req_file_fd`. -/
inductive ServerPc (ι : Type*)
  /-- `mq_receive(mq_server, ...)` -/
  | receive
  /-- `mq_open(mq_client_name, O_WRONLY)` -/
  | openQueue (c : ι)
  /-- `open(server_req.pathname, O_RDONLY)` -/
  | openFile (c : ι) (mq : ℕ)
  /-- `read(req_file_fd, server_res.data, MSG_SIZE - 1)` -/
  | read (c : ι) (mq fd : ℕ)
  /-- `mq_send` of the chunk that has been read. -/
  | send (c : ι) (mq fd : ℕ) (chunk : List Byte)
  /-- `memset` -/
  | clear (c : ι) (mq fd : ℕ)
  /-- `close(req_file_fd)` -/
  | close (c : ι) (mq fd : ℕ)
  /-- `server_res.data[0] = '\0'` -/
  | mark (c : ι) (mq : ℕ)
  /-- `mq_send` of the end marker. -/
  | sendMark (c : ι) (mq : ℕ)
  /-- `mq_close(mq_client)` -/
  | closeQueue (c : ι) (mq : ℕ)
  /-- `exit(1)` -/
  | exited
  deriving DecidableEq

/-- Where a client is: at the `mq_send` of its request, in its loop with `receive_byte_num` and
`receive_msg_num`, behind it (and whether it was the end marker that has ended the loop), or past
something without a defined meaning. -/
inductive ClientPc
  | send
  | recv (byteNum msgNum : ℤ)
  | done (byteNum msgNum : ℤ) (marker : Bool)
  | fault
  deriving DecidableEq

/-- What a call of the server returns: success, with a number where there is one, or `-1`. -/
inductive Result
  | ok (n : ℕ)
  | fail
  deriving DecidableEq

/-- The server with `server_res`, its descriptors and what is left of the open file; the requests in
its queue; the queues of the clients, and the clients. -/
structure State (ι : Type*) where
  server : ServerPc ι
  res : Response
  fds : Finset ℕ
  left : List Byte
  requests : List ι
  queue : ι → List Msg
  client : ι → ClientPc
  /-- The messages that the server has put into the queue of each client. -/
  put : ι → List Msg
  /-- The clients whose queue the server has opened. -/
  served : List ι

/-- The server reaches its loop; `server_res` contains whatever was on the stack. -/
def init (res : Response) (fds : Finset ℕ) : State ι where
  server := .receive
  res := res
  fds := fds
  left := []
  requests := []
  queue := fun _ => []
  client := fun _ => .send
  put := fun _ => []
  served := []

section Step

variable [DecidableEq ι]

/-- The server puts a message into the queue of a client. -/
def State.sent (s : State ι) (c : ι) (m : Msg) (pc : ServerPc ι) : State ι :=
  { s with
    queue := Function.update s.queue c (s.queue c ++ [m])
    put := Function.update s.put c (s.put c ++ [m])
    server := pc }

/-- One call of the server; `file c` is the content of the file that the client `c` asks for. -/
def serverStep (file : ι → List Byte) (s : State ι) (r : Result) : Option (State ι) :=
  match s.server, r with
  | .receive, .fail => some { s with server := .exited }
  | .receive, .ok _ =>
      match s.requests with
      | [] => none
      | c :: cs => some { s with requests := cs, server := .openQueue c }
  | .openQueue _, .fail => some { s with server := .receive }
  | .openQueue c, .ok mq =>
      if mq ∈ s.fds then none
      else some { s with
        fds := insert mq s.fds
        served := s.served ++ [c]
        server := .openFile c mq }
  | .openFile _ _, .fail => some { s with server := .receive }
  | .openFile c mq, .ok fd =>
      if fd ∈ s.fds then none
      else some { s with
        fds := insert fd s.fds
        left := file c
        server := .read c mq fd }
  | .read c mq fd, .fail => some { s with server := .close c mq fd }
  | .read c mq fd, .ok k =>
      if s.left = [] ∧ k = 0 then some { s with server := .close c mq fd }
      else if 0 < k ∧ k ≤ msgSize - 1 ∧ k ≤ s.left.length then
        some { s with
          res := s.res.fill (s.left.take k)
          left := s.left.drop k
          server := .send c mq fd (s.left.take k) }
      else none
  | .send c mq fd _, .fail => some { s with server := .close c mq fd }
  | .send c mq fd chunk, .ok _ =>
      if (s.queue c).length < maxMsg then
        some (s.sent c ⟨s.res, some chunk⟩ (.clear c mq fd))
      else none
  | .clear c mq fd, _ => some { s with res := .zero, server := .read c mq fd }
  | .close _ _ _, .fail => some { s with server := .exited }
  | .close c mq fd, .ok _ => some { s with fds := s.fds.erase fd, server := .mark c mq }
  | .mark c mq, _ => some { s with res := s.res.mark, server := .sendMark c mq }
  | .sendMark _ _, .fail => some { s with server := .receive }
  | .sendMark c mq, .ok _ =>
      if (s.queue c).length < maxMsg then some (s.sent c ⟨s.res, none⟩ (.closeQueue c mq))
      else none
  -- `mq_close` of an open descriptor succeeds
  | .closeQueue _ mq, _ => some { s with fds := s.fds.erase mq, server := .receive }
  | .exited, _ => none

/-- Where a client is after it has received `m` in its loop: a message that starts with a null byte
ends the loop, and of any other the string at its start is counted. -/
def Msg.received (m : Msg) (byteNum msgNum : ℤ) : ClientPc :=
  if m.res.data.head? = some nul then .done byteNum msgNum m.chunk.isNone
  else
    match strlen m.res.data with
    | .ok len => .recv (CInt.wrap (byteNum + len)) (CInt.wrap (msgNum + 1))
    | _ => .fault

/-- One call of the client `c`. -/
def clientStep (s : State ι) (c : ι) : Option (State ι) :=
  match s.client c with
  | .send =>
      if s.requests.length < maxMsg then
        some { s with
          requests := s.requests ++ [c]
          client := Function.update s.client c (.recv 0 0) }
      else none
  | .recv byteNum msgNum =>
      match s.queue c with
      | [] => none
      | m :: ms =>
          some { s with
            queue := Function.update s.queue c ms
            client := Function.update s.client c (m.received byteNum msgNum) }
  | .done _ _ _ => none
  | .fault => none

/-- Who takes the next step of the server with its clients. -/
inductive Act (ι : Type*)
  | server (r : Result)
  | client (c : ι)

/-- One step of the server with clients that run the client program. -/
def step (file : ι → List Byte) (s : State ι) : Act ι → Option (State ι)
  | .server r => serverStep file s r
  | .client c => clientStep s c

/-- What happens around the server when nothing is known of the other processes. -/
inductive OpenAct (ι : Type*)
  | server (r : Result)
  /-- Somebody puts a request of `c` into the server's queue. -/
  | request (c : ι)
  /-- Somebody takes a message from the queue of `c`. -/
  | drain (c : ι)

/-- One step of the server with any processes around it. -/
def openStep (file : ι → List Byte) (s : State ι) : OpenAct ι → Option (State ι)
  | .server r => serverStep file s r
  | .request c =>
      if s.requests.length < maxMsg then some { s with requests := s.requests ++ [c] } else none
  | .drain c => some { s with queue := Function.update s.queue c (s.queue c).tail }

/-! ### What a call can do -/

/-- Everything a call of the server can do. -/
inductive ServerMove (file : ι → List Byte) (s : State ι) : Result → State ι → Prop
  | receiveFail (hpc : s.server = .receive) :
      ServerMove file s .fail { s with server := .exited }
  | receive {n : ℕ} {c : ι} {cs : List ι} (hpc : s.server = .receive)
    (hreq : s.requests = c :: cs) :
      ServerMove file s (.ok n) { s with requests := cs, server := .openQueue c }
  | openQueueFail {c : ι} (hpc : s.server = .openQueue c) :
      ServerMove file s .fail { s with server := .receive }
  | openQueue {c : ι} {mq : ℕ} (hpc : s.server = .openQueue c) (hmq : mq ∉ s.fds) :
      ServerMove file s (.ok mq) { s with
        fds := insert mq s.fds
        served := s.served ++ [c]
        server := .openFile c mq }
  | openFileFail {c : ι} {mq : ℕ} (hpc : s.server = .openFile c mq) :
      ServerMove file s .fail { s with server := .receive }
  | openFile {c : ι} {mq fd : ℕ} (hpc : s.server = .openFile c mq) (hfd : fd ∉ s.fds) :
      ServerMove file s (.ok fd) { s with
        fds := insert fd s.fds
        left := file c
        server := .read c mq fd }
  | readFail {c : ι} {mq fd : ℕ} (hpc : s.server = .read c mq fd) :
      ServerMove file s .fail { s with server := .close c mq fd }
  | readEnd {c : ι} {mq fd : ℕ} (hpc : s.server = .read c mq fd) (hleft : s.left = []) :
      ServerMove file s (.ok 0) { s with server := .close c mq fd }
  | read {c : ι} {mq fd k : ℕ} (hpc : s.server = .read c mq fd) (hpos : 0 < k)
      (hsize : k ≤ msgSize - 1) (hleft : k ≤ s.left.length) :
      ServerMove file s (.ok k) { s with
        res := s.res.fill (s.left.take k)
        left := s.left.drop k
        server := .send c mq fd (s.left.take k) }
  | sendFail {c : ι} {mq fd : ℕ} {chunk : List Byte} (hpc : s.server = .send c mq fd chunk) :
      ServerMove file s .fail { s with server := .close c mq fd }
  | send {n : ℕ} {c : ι} {mq fd : ℕ} {chunk : List Byte} (hpc : s.server = .send c mq fd chunk) :
      ServerMove file s (.ok n) (s.sent c ⟨s.res, some chunk⟩ (.clear c mq fd))
  | clear {r : Result} {c : ι} {mq fd : ℕ} (hpc : s.server = .clear c mq fd) :
      ServerMove file s r { s with res := .zero, server := .read c mq fd }
  | closeFail {c : ι} {mq fd : ℕ} (hpc : s.server = .close c mq fd) :
      ServerMove file s .fail { s with server := .exited }
  | close {n : ℕ} {c : ι} {mq fd : ℕ} (hpc : s.server = .close c mq fd) :
      ServerMove file s (.ok n) { s with fds := s.fds.erase fd, server := .mark c mq }
  | mark {r : Result} {c : ι} {mq : ℕ} (hpc : s.server = .mark c mq) :
      ServerMove file s r { s with res := s.res.mark, server := .sendMark c mq }
  | sendMarkFail {c : ι} {mq : ℕ} (hpc : s.server = .sendMark c mq) :
      ServerMove file s .fail { s with server := .receive }
  | sendMark {n : ℕ} {c : ι} {mq : ℕ} (hpc : s.server = .sendMark c mq) :
      ServerMove file s (.ok n) (s.sent c ⟨s.res, none⟩ (.closeQueue c mq))
  | closeQueue {r : Result} {c : ι} {mq : ℕ} (hpc : s.server = .closeQueue c mq) :
      ServerMove file s r { s with fds := s.fds.erase mq, server := .receive }

/-- **Every call of the server is one of the moves.** -/
theorem ServerMove.of_step {file : ι → List Byte} {s s' : State ι} {r : Result}
    (h : serverStep file s r = some s') : ServerMove file s r s' := by
  unfold serverStep at h
  split at h
  · next hpc =>
      obtain rfl := Option.some.inj h
      exact .receiveFail hpc
  · next hpc =>
      split at h
      · cases h
      · next hreq =>
          obtain rfl := Option.some.inj h
          exact .receive hpc hreq
  · next hpc =>
      obtain rfl := Option.some.inj h
      exact .openQueueFail hpc
  · next hpc =>
      split at h
      · cases h
      · next hmq =>
          obtain rfl := Option.some.inj h
          exact .openQueue hpc hmq
  · next hpc =>
      obtain rfl := Option.some.inj h
      exact .openFileFail hpc
  · next hpc =>
      split at h
      · cases h
      · next hfd =>
          obtain rfl := Option.some.inj h
          exact .openFile hpc hfd
  · next hpc =>
      obtain rfl := Option.some.inj h
      exact .readFail hpc
  · next hpc =>
      split at h
      · next hend =>
          obtain ⟨hleft, rfl⟩ := hend
          obtain rfl := Option.some.inj h
          exact .readEnd hpc hleft
      · split at h
        · next hk =>
            obtain rfl := Option.some.inj h
            exact .read hpc hk.1 hk.2.1 hk.2.2
        · cases h
  · next hpc =>
      obtain rfl := Option.some.inj h
      exact .sendFail hpc
  · next hpc =>
      split at h
      · obtain rfl := Option.some.inj h
        exact .send hpc
      · cases h
  · next hpc =>
      obtain rfl := Option.some.inj h
      exact .clear hpc
  · next hpc =>
      obtain rfl := Option.some.inj h
      exact .closeFail hpc
  · next hpc =>
      obtain rfl := Option.some.inj h
      exact .close hpc
  · next hpc =>
      obtain rfl := Option.some.inj h
      exact .mark hpc
  · next hpc =>
      obtain rfl := Option.some.inj h
      exact .sendMarkFail hpc
  · next hpc =>
      split at h
      · obtain rfl := Option.some.inj h
        exact .sendMark hpc
      · cases h
  · next hpc =>
      obtain rfl := Option.some.inj h
      exact .closeQueue hpc
  · cases h

/-- A call of the server leaves the clients alone; at most it puts a message into a queue. -/
theorem ServerMove.client_queue {file : ι → List Byte} {s s' : State ι} {r : Result}
    (h : ServerMove file s r s') : s'.client = s.client ∧
      (s'.queue = s.queue ∧ s'.put = s.put ∨ ∃ c m,
        s'.queue = Function.update s.queue c (s.queue c ++ [m]) ∧
          s'.put = Function.update s.put c (s.put c ++ [m])) := by
  cases h with
  | send hpc => exact ⟨rfl, Or.inr ⟨_, _, rfl, rfl⟩⟩
  | sendMark hpc => exact ⟨rfl, Or.inr ⟨_, _, rfl, rfl⟩⟩
  | _ => exact ⟨rfl, Or.inl ⟨rfl, rfl⟩⟩

/-- Everything a call of the client `c` can do. -/
inductive ClientMove (s : State ι) (c : ι) : State ι → Prop
  | send (hpc : s.client c = .send) :
      ClientMove s c { s with
        requests := s.requests ++ [c]
        client := Function.update s.client c (.recv 0 0) }
  | receive {byteNum msgNum : ℤ} {m : Msg} {ms : List Msg} (hpc : s.client c = .recv byteNum msgNum)
      (hq : s.queue c = m :: ms) :
      ClientMove s c { s with
        queue := Function.update s.queue c ms
        client := Function.update s.client c (m.received byteNum msgNum) }

/-- **Every call of a client is one of the moves.** -/
theorem ClientMove.of_step {s s' : State ι} {c : ι} (h : clientStep s c = some s') :
    ClientMove s c s' := by
  unfold clientStep at h
  split at h
  · next hpc =>
      split at h
      · obtain rfl := Option.some.inj h
        exact .send hpc
      · cases h
  · next hpc =>
      split at h
      · cases h
      · next hq =>
          obtain rfl := Option.some.inj h
          exact .receive hpc hq
  · cases h
  · cases h

end Step

end MqFile
