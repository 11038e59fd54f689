/-
**The file service serves everybody (`HW9/52_3`).**

`NetSysProg/MqFileAccount.lean` and `NetSysProg/MqFileRelease.lean` say what holds when a client has
left its loop, and when the server is back at the head of its own.  Here is that both get there.  A
queue takes four messages, so the server waits for the client that it serves, the clients wait for
their turn, and those that have not asked yet wait for room in the server's queue; but the server
serves one request after the other to its end, and the client that it serves is in its loop.  When
no call fails, no file contains a null byte and the buffer of the server is zero at the start,
nothing can go wrong with the end markers, and the calls that are still to be made are bounded by
the bytes of the files.

Main definitions:

* `MqFile.Succeeds` — the call is none that fails;
* `MqFile.toDo` — what bounds the calls of all processes from a state on;
* `MqFile.Serving` — what holds in all states of such a run.

Main results:

* `MqFile.toDo_lt_of_step` — **every call lowers the bound**, also one that fails;
* `MqFile.serves_everybody` — **every run ends with every client served**.
-/

import NetSysProg.Completion
import NetSysProg.MqFileAccount
import NetSysProg.MqFileRelease
import Mathlib.Data.Fintype.EquivFin

set_option relaxedAutoImplicit false
set_option autoImplicit false

namespace MqFile

open CString

variable {ι : Type*} {file : ι → List Byte}

/-! ### What is left to be done -/

/-- The calls for a request from the moment it is in the queue: four for each byte, counting the one
of the client that receives it. -/
def cost (file : ι → List Byte) (c : ι) : ℕ := 4 * (file c).length + 9

/-- The calls of the server until it is back at the head of its loop, and those of the client that
receive what it sends. -/
def ServerPc.weight (file : ι → List Byte) (left : ℕ) : ServerPc ι → ℕ
  | .receive => 1
  | .openQueue c => 4 * (file c).length + 9
  | .openFile c _ => 4 * (file c).length + 8
  | .read _ _ _ => 4 * left + 7
  | .send _ _ _ _ => 4 * left + 10
  | .clear _ _ _ => 4 * left + 8
  | .close _ _ _ => 6
  | .mark _ _ => 5
  | .sendMark _ _ => 4
  | .closeQueue _ _ => 2
  | .exited => 0

/-- A client that has not sent its request still sends it. -/
def ClientPc.weight (cost : ℕ) : ClientPc → ℕ
  | .send => cost + 1
  | .recv _ _ => 0
  | .done _ _ _ => 0
  | .fault => 0

theorem Msg.weight_received (m : Msg) (byteNum msgNum : ℤ) (n : ℕ) :
    (m.received byteNum msgNum).weight n = 0 := by
  have hne : m.received byteNum msgNum ≠ .send := m.received_ne_send byteNum msgNum
  cases hpc : m.received byteNum msgNum with
  | send => exact absurd hpc hne
  | _ => rfl

section Bound

variable [Fintype ι]

/-- **What is left to be done** for the clients that have not asked, for the messages that have not
been received, for the requests in the queue and for the one that is served. -/
def toDo (file : ι → List Byte) (s : State ι) : ℕ :=
  ∑ c, (s.client c).weight (cost file c) + ∑ c,
    (s.queue c).length + (s.requests.map (cost file)).sum +
    s.server.weight file s.left.length

variable [DecidableEq ι] {s s' : State ι}

/-- A message more in a queue. -/
theorem sum_queue_put (s : State ι) (c : ι) (m : Msg) :
    ∑ d, (Function.update s.queue c (s.queue c ++ [m]) d).length = ∑ d, (s.queue d).length + 1 := by
  have hsum := Runs.sum_update (fun _ => List.length) s.queue c (s.queue c ++ [m])
  rw [List.length_append, List.length_singleton] at hsum
  omega

theorem toDo_lt_of_serverStep {r : Result} (h : serverStep file s r = some s') :
    toDo file s' < toDo file s := by
  cases ServerMove.of_step h with
  | receiveFail hpc | openQueueFail hpc | openQueue hpc hmq | openFileFail hpc | openFile hpc hfd
  | readFail hpc | sendFail hpc | clear hpc | closeFail hpc | close hpc | mark hpc
  | sendMarkFail hpc | closeQueue hpc =>
      simp only [toDo, hpc, ServerPc.weight]
      omega
  | receive hpc hreq =>
      simp only [toDo, hpc, hreq, ServerPc.weight, List.map_cons, List.sum_cons, cost]
      omega
  | readEnd hpc hleft =>
      simp only [toDo, hpc, ServerPc.weight]
      omega
  | read hpc hpos hsize hleft =>
      simp only [toDo, hpc, ServerPc.weight, List.length_drop]
      omega
  | send hpc | sendMark hpc =>
      simp only [toDo, hpc, State.sent, ServerPc.weight, sum_queue_put]
      omega

/-- **Every call lowers the bound**, also one that fails. -/
theorem toDo_lt_of_step {a : Act ι} (h : step file s a = some s') : toDo file s' < toDo file s := by
  cases a with
  | server r => exact toDo_lt_of_serverStep h
  | client c =>
      cases ClientMove.of_step h with
      | send hpc =>
          have hsum : ∑ d, (Function.update s.client c (.recv 0 0) d).weight (cost file d) +
              (cost file c + 1) = ∑ d, (s.client d).weight (cost file d) + 0 := by
            have hsum := Runs.sum_update (fun d pc => ClientPc.weight (cost file d) pc)
              s.client c (.recv 0 0)
            rw [hpc] at hsum
            exact hsum
          simp only [toDo, List.map_append, List.map_singleton, List.sum_append, List.sum_singleton]
          omega
      | @receive byteNum msgNum m ms hpc hq =>
          have hsum := Runs.sum_update (fun d pc => ClientPc.weight (cost file d) pc) s.client c
            (m.received byteNum msgNum)
          rw [hpc, Msg.weight_received] at hsum
          have hqueue := Runs.sum_update (fun _ => List.length) s.queue c ms
          rw [hq, List.length_cons] at hqueue
          simp only [toDo]
          omega

end Bound

/-! ### Runs without a failing call -/

/-- The call is none that fails. -/
def Succeeds : Act ι → Prop
  | .server .fail => False
  | .server (.ok _) => True
  | .client _ => True

instance (a : Act ι) : Decidable (Succeeds a) :=
  match a with
  | .server .fail => inferInstanceAs (Decidable False)
  | .server (.ok _) | .client _ => inferInstanceAs (Decidable True)

/-- The buffer of the server is zero, except between a `read` and the `memset` behind it. -/
def ServerPc.Cleared (res : Response) : ServerPc ι → Prop
  | .send _ _ _ _ => True
  | .clear _ _ _ => True
  | _ => res.data = Response.zero.data

/-- What holds in every state of a run in which no call fails. -/
structure Serving (file : ι → List Byte) (F₀ : Finset ℕ) (s : State ι) : Prop where
  serves : Serves file s
  reads : ∀ c, Reads file s c
  keeps : Keeps F₀ s
  cleared : s.server.Cleared s.res
  running : s.server ≠ .exited
  attended : ∀ c, s.client c = .send ∨ c ∈ s.owed ∨ s.put c ≠ []

section Serving

variable {F₀ : Finset ℕ} {s s' : State ι}

theorem Serving.init (fds : Finset ℕ) : Serving file fds (init .zero fds : State ι) where
  serves := Serves.init _ fds
  reads := Reads.init _ fds
  keeps := Keeps.init _
  cleared := rfl
  running := nofun
  attended := fun _ => Or.inl rfl

/-- A client that has asked and is not owed anything has got all that there is. -/
theorem Serving.whole (h : Serving file F₀ s) {c : ι} (hsent : s.client c ≠ .send)
    (howed : c ∉ s.owed) :
    Whole (file c) (s.put c) := by
  have hserves : s.server.serves ≠ some c := by
    intro hc
    exact howed (by rw [State.owed, hc]; exact List.mem_cons_self)
  rcases h.serves.settled c hserves with hnil | ⟨-, hwhole⟩
  · rcases h.attended c with hsend | hmem | hne
    · exact absurd hsend hsent
    · exact absurd hmem howed
    · exact absurd hnil hne
  · exact hwhole

/-- In the zero buffer every chunk is followed by a null byte. -/
theorem zero_getElem? {k : ℕ} (h : k < msgSize) : Response.zero.data[k]? = some nul :=
  List.getElem?_replicate_of_lt h

variable [DecidableEq ι]

/-- **A call that does not fail is one that is counted**, when there are no null bytes in the
files. -/
theorem Serving.counted (h : Serving file F₀ s) (hnul : ∀ c, nul ∉ file c)
    (hsmall : ∀ c, Small file c) {a : Act ι} (hok : Succeeds a) (hs : step file s a = some s') :
    Counted file s a := by
  cases a with
  | client c => trivial
  | server r =>
      have hsends := h.serves.sends
      have hcleared := h.cleared
      cases ServerMove.of_step hs with
      | receiveFail hpc | openQueueFail hpc | openFileFail hpc | readFail hpc | sendFail hpc
      | closeFail hpc | sendMarkFail hpc => exact hok.elim
      | receive hpc hreq | openQueue hpc hmq | send hpc | close hpc | sendMark hpc =>
          simp only [Counted, hpc, ServerPc.Counted]
      | clear hpc | mark hpc | closeQueue hpc =>
          cases r with
          | fail => exact hok
          | ok k => simp only [Counted, hpc, ServerPc.Counted]
      | openFile hpc hfd =>
          simp only [Counted, hpc, ServerPc.Counted]
          exact hsmall _
      | readEnd hpc hleft =>
          simp only [Counted, hpc, ServerPc.Counted]
          exact fun hpos => absurd hpos (Nat.lt_irrefl 0)
      | @read c mq fd k hpc hpos hsize hleft =>
          rw [State.Sends, hpc] at hsends
          obtain ⟨-, bs, -, hfile⟩ := hsends
          rw [hpc] at hcleared
          simp only [Counted, hpc, ServerPc.Counted]
          intro _
          constructor
          · intro hmem
            exact hnul c (by rw [hfile]; exact List.mem_append_right _ (List.mem_of_mem_take hmem))
          · rw [show s.res.data = Response.zero.data from hcleared]
            exact zero_getElem? (Nat.lt_of_le_of_lt hsize (by decide))

/-- A call of the server that does not fail leaves its buffer zero where it has to be, and does not
end the server. -/
theorem Serving.cleared_of_serverStep (h : Serving file F₀ s) {r : Result}
    (hok : Succeeds (.server r : Act ι))
    (hs : serverStep file s r = some s') : s'.server.Cleared s'.res ∧ s'.server ≠ .exited := by
  have hcleared := h.cleared
  cases ServerMove.of_step hs with
  | receiveFail hpc | openQueueFail hpc | openFileFail hpc | readFail hpc | sendFail hpc
  | closeFail hpc | sendMarkFail hpc => exact hok.elim
  | receive hpc hreq | openQueue hpc hmq | openFile hpc hfd | readEnd hpc hleft | close hpc
  | sendMark hpc | closeQueue hpc =>
      rw [hpc] at hcleared
      exact ⟨hcleared, nofun⟩
  | read hpc hpos hsize hleft | send hpc => exact ⟨trivial, nofun⟩
  | clear hpc => exact ⟨rfl, nofun⟩
  | mark hpc =>
      rw [hpc] at hcleared
      have hres : s.res.data = Response.zero.data := hcleared
      refine ⟨?_, nofun⟩
      show s.res.data.set 0 nul = Response.zero.data
      rw [hres]
      rfl

/-- Whom the server owes something, it goes on owing it, until the end marker has been sent. -/
theorem Serving.attended_of_serverStep (h : Serving file F₀ s) {r : Result}
    (hok : Succeeds (.server r : Act ι)) (hs : serverStep file s r = some s') (c : ι) :
    s'.client c = .send ∨ c ∈ s'.owed ∨ s'.put c ≠ [] := by
  have hclient : s'.client c = s.client c := by rw [(ServerMove.of_step hs).client_queue.1]
  have hput : s.put c ≠ [] → s'.put c ≠ [] := by
    intro hne
    obtain ⟨-, ⟨-, hput⟩ | ⟨d, m, -, hput⟩⟩ := (ServerMove.of_step hs).client_queue
    · rw [hput]
      exact hne
    · rw [hput]
      by_cases hcd : c = d
      · subst hcd
        rw [Function.update_self]
        exact List.append_ne_nil_of_right_ne_nil _ (List.cons_ne_nil _ _)
      · rw [Function.update_of_ne hcd]
        exact hne
  have howed : c ∈ s.owed → c ∈ s'.owed ∨ s'.put c ≠ [] := by
    intro hmem
    cases ServerMove.of_step hs with
    | receiveFail hpc | openQueueFail hpc | openFileFail hpc | readFail hpc | sendFail hpc
    | closeFail hpc | sendMarkFail hpc => exact hok.elim
    | receive hpc hreq =>
        rw [State.owed, hpc, hreq] at hmem
        exact Or.inl hmem
    | openQueue hpc hmq | openFile hpc hfd | readEnd hpc hleft | read hpc hpos hsize hleft
    | send hpc
    | clear hpc | close hpc | mark hpc | closeQueue hpc =>
        rw [State.owed, hpc] at hmem
        exact Or.inl hmem
    | @sendMark _ d mq hpc =>
        rw [State.owed, hpc] at hmem
        rcases List.mem_cons.1 hmem with rfl | hmem
        · right
          simp only [State.sent, Function.update_self]
          exact List.append_ne_nil_of_right_ne_nil _ (List.cons_ne_nil _ _)
        · exact Or.inl hmem
  rcases h.attended c with hsend | hmem | hne
  · exact Or.inl (hclient.trans hsend)
  · exact Or.inr (howed hmem)
  · exact Or.inr (Or.inr (hput hne))

/-- **One call.** -/
theorem Serving.of_step (h : Serving file F₀ s) (hnul : ∀ c, nul ∉ file c)
    (hsmall : ∀ c, Small file c)
    {a : Act ι} (hok : Succeeds a) (hs : step file s a = some s') : Serving file F₀ s' := by
  have hserves : Serves file s' := h.serves.of_step (h.counted hnul hsmall hok hs) hs
  have hreads : ∀ c, Reads file s' c := Reads.of_step h.reads h.serves hs
  have hreleases : ActReleases s a := by
    cases a with
    | client c => trivial
    | server r => exact fun _ hfail => by rw [hfail] at hok; exact hok
  have hkeeps : Keeps F₀ s' := h.keeps.of_step hreleases hs
  cases a with
  | server r =>
      obtain ⟨hcleared, hrunning⟩ := h.cleared_of_serverStep hok hs
      exact ⟨hserves, hreads, hkeeps, hcleared, hrunning, h.attended_of_serverStep hok hs⟩
  | client c =>
      cases ClientMove.of_step hs with
      | send hpc =>
          refine ⟨hserves, hreads, hkeeps, h.cleared, h.running, fun d => ?_⟩
          by_cases hdc : d = c
          · refine Or.inr (Or.inl (List.mem_append_right _ (List.mem_append_right _ ?_)))
            rw [hdc]
            exact List.mem_singleton_self c
          · dsimp only
            rw [Function.update_of_ne hdc]
            refine (h.attended d).imp_right (Or.imp_left fun hmem => ?_)
            rw [State.owed, ← List.append_assoc]
            exact List.mem_append_left _ hmem
      | receive hpc hq =>
          refine ⟨hserves, hreads, hkeeps, h.cleared, h.running, fun d => ?_⟩
          by_cases hdc : d = c
          · have hattended := h.attended d
            rw [hdc, hpc] at hattended
            rw [hdc]
            exact Or.inr (hattended.resolve_left fun hsend => by cases hsend)
          · dsimp only
            rw [Function.update_of_ne hdc]
            exact h.attended d

/-! ### Nobody waits for ever -/

/-- The client that is served receives what is in its queue. -/
theorem Serving.exists_receive (h : Serving file F₀ s) {c : ι} (hserves : s.server.serves = some c)
    (hwhole : ¬ Whole (file c) (s.put c)) (hqueue : s.queue c ≠ []) :
    ∃ s', clientStep s c = some s' := by
  have hsent : s.client c ≠ .send :=
    h.serves.sent c (by rw [State.owed, hserves]; exact List.mem_cons_self)
  have hread := (h.reads c).1
  obtain ⟨m, ms, hq⟩ := List.exists_cons_of_ne_nil hqueue
  cases hpc : s.client c with
  | send => exact absurd hpc hsent
  | recv byteNum msgNum =>
      rw [clientStep, hpc, hq]
      exact ⟨_, rfl⟩
  | done byteNum msgNum marker =>
      rw [hpc] at hread
      exact absurd hread.1 hwhole
  | fault =>
      rw [hpc] at hread
      exact hread.elim

/-- Where the server sends, either there is room in the queue or the client can make some. -/
theorem Serving.exists_put (h : Serving file F₀ s) {c : ι} (hserves : s.server.serves = some c)
    (hwhole : ¬ Whole (file c) (s.put c)) (hsend : (s.queue c).length < maxMsg →
      ∃ s', serverStep file s (.ok 0) = some s') : ∃ a s', Succeeds a ∧
        step file s a = some s' := by
  by_cases hroom : (s.queue c).length < maxMsg
  · obtain ⟨s', hs⟩ := hsend hroom
    exact ⟨.server (.ok 0), s', trivial, hs⟩
  · have hne : s.queue c ≠ [] := by
      intro hnil
      rw [hnil] at hroom
      exact hroom (by decide)
    obtain ⟨s', hs⟩ := h.exists_receive hserves hwhole hne
    exact ⟨.client c, s', trivial, hs⟩

/-- **The server goes on**, or it makes way for the client that it serves, unless nobody has asked
for anything. -/
theorem Serving.exists_step_of_busy (h : Serving file F₀ s)
    (hbusy : s.server ≠ .receive ∨ s.requests ≠ []) :
    ∃ a s', Succeeds a ∧ step file s a = some s' := by
  have hgo : (∃ k s', serverStep file s (.ok k) = some s') → ∃ a s', Succeeds a ∧
    step file s a = some s' := by
    rintro ⟨k, s', hs⟩
    exact ⟨.server (.ok k), s', trivial, hs⟩
  have hsends := h.serves.sends
  obtain ⟨new, hnew⟩ := Infinite.exists_notMem_finset s.fds
  cases hpc : s.server with
  | exited => exact absurd hpc h.running
  | receive =>
      obtain ⟨c, cs, hreq⟩ := List.exists_cons_of_ne_nil (hbusy.resolve_left fun hne => hne hpc)
      refine hgo ⟨0, ?_⟩
      simp only [serverStep, hpc, hreq]
      exact ⟨_, rfl⟩
  | openQueue c | openFile c mq =>
      refine hgo ⟨new, ?_⟩
      simp only [serverStep, hpc]
      exact ⟨_, if_neg hnew⟩
  | read c mq fd =>
      by_cases hleft : s.left = []
      · refine hgo ⟨0, ?_⟩
        simp only [serverStep, hpc]
        exact ⟨_, if_pos ⟨hleft, trivial⟩⟩
      · have hpos : 1 ≤ s.left.length := List.length_pos_iff.2 hleft
        refine hgo ⟨1, ?_⟩
        simp only [serverStep, hpc]
        rw [if_neg (fun hend => hleft hend.1), if_pos ⟨Nat.one_pos, by decide, hpos⟩]
        exact ⟨_, rfl⟩
  | send c mq fd chunk =>
      rw [State.Sends, hpc] at hsends
      obtain ⟨-, -, bs, hbs, -⟩ := hsends
      refine h.exists_put (by rw [hpc]; rfl) hbs.not_whole fun hroom => ?_
      simp only [serverStep, hpc]
      exact ⟨_, if_pos hroom⟩
  | sendMark c mq =>
      rw [State.Sends, hpc] at hsends
      refine h.exists_put (by rw [hpc]; rfl) hsends.2.1.not_whole fun hroom => ?_
      simp only [serverStep, hpc]
      exact ⟨_, if_pos hroom⟩
  | clear c mq fd | close c mq fd | mark c mq | closeQueue c mq =>
      refine hgo ⟨0, ?_⟩
      simp only [serverStep, hpc]
      exact ⟨_, rfl⟩

/-- The client has counted its file, and the messages in which it came, up to the end marker. -/
def Got (file : ι → List Byte) (s : State ι) (c : ι) : Prop :=
  s.client c = .done (file c).length (chunks (s.put c)).length true ∧ s.queue c = [] ∧
    (chunks (s.put c)).flatten = file c

/-- **A client that is not owed anything goes on** until it has its file. -/
theorem Serving.got_of_idle (h : Serving file F₀ s) (hserver : s.server = .receive)
    (hreq : s.requests = []) {c : ι} (hstuck : clientStep s c = none) : Got file s c := by
  have howed : s.owed = [] := by rw [State.owed, hserver, hreq]; rfl
  have hread := (h.reads c).1
  cases hpc : s.client c with
  | send =>
      rw [clientStep, hpc, hreq] at hstuck
      cases hstuck
  | recv byteNum msgNum =>
      rw [hpc] at hread
      obtain ⟨taken, bs, hput, htaken, -, -⟩ := hread
      have hwhole : Whole (file c) (s.put c) :=
        h.whole (by rw [hpc]; simp) (by rw [howed]; exact List.not_mem_nil)
      cases hq : s.queue c with
      | nil =>
          rw [hq, List.append_nil] at hput
          rw [hput] at hwhole
          exact absurd hwhole htaken.not_whole
      | cons m ms =>
          rw [clientStep, hpc, hq] at hstuck
          cases hstuck
  | done byteNum msgNum marker =>
      rw [hpc] at hread
      obtain ⟨⟨ds, m, hput, hcarries, hmark⟩, hqueue, rfl, rfl, rfl⟩ := hread
      refine ⟨hpc, hqueue, ?_⟩
      rw [hput, chunks_append, List.flatten_append, hcarries.2]
      simp [chunks, hmark.chunk_eq]
  | fault =>
      rw [hpc] at hread
      exact hread.elim

/-- **The service completes.**  Any number of clients ask for their files at the same time.  When no
call of the server fails, no file contains a null byte or is too long for an `int`, and the buffer
of the server is zero at the start, no run goes on for ever; and when no call can be made any more,
every client has left its loop on the end marker with the bytes of its file counted, nothing is left
in any queue, and the server waits for the next request with the descriptors of its start. -/
theorem serves_everybody [Fintype ι] (hnul : ∀ c, nul ∉ file c)
    (hsmall : ∀ c, ((file c).length : ℤ) ≤ CInt.intMax) (fds : Finset ℕ) :
    Runs.Completes (Runs.guard (step file) fun _ a => Succeeds a)
      (init .zero fds : State ι) fun s =>
      s.server = .receive ∧ s.requests = [] ∧ s.fds = fds ∧ ∀ c, Got file s c := by
  refine Runs.Completes.of_measure (I := Serving file fds) (toDo file) ?_ ?_ ?_ (Serving.init fds)
  · intro s a s' h hs
    obtain ⟨hok, hs⟩ := Runs.guard_eq_some.1 hs
    exact h.of_step hnul hsmall hok hs
  · intro s a s' _ hs
    exact toDo_lt_of_step (Runs.guard_eq_some.1 hs).2
  · intro s h hstuck
    have hnone : ¬ ∃ a s', Succeeds a ∧ step file s a = some s' := by
      rintro ⟨a, s', hok, hs⟩
      have hgo : Runs.guard (step file) (fun _ a => Succeeds a) s a = some s' :=
        Runs.guard_eq_some.2 ⟨hok, hs⟩
      rw [hstuck a] at hgo
      cases hgo
    have hidle : s.server = .receive ∧ s.requests = [] := by
      by_contra hnot
      refine hnone (h.exists_step_of_busy ?_)
      by_cases hpc : s.server = .receive
      · exact Or.inr fun hreq => hnot ⟨hpc, hreq⟩
      · exact Or.inl hpc
    refine ⟨hidle.1, hidle.2, (h.keeps.released hidle.1).1,
      fun c => h.got_of_idle hidle.1 hidle.2 ?_⟩
    cases hs : clientStep s c with
    | none => rfl
    | some s' => exact absurd ⟨.client c, s', trivial, hs⟩ hnone

end Serving

/-- Two clients, one of which asks for an empty file. -/
def twoFiles (c : Bool) : List Byte := bif c then [97, 98] else []

theorem serves_everybody_twoFiles : ∃ as s,
    Runs.run (Runs.guard (step twoFiles) fun _ a => Succeeds a) (init .zero {0, 1, 2, 3}) as =
      some s ∧
      s.fds = {0, 1, 2, 3} ∧ s.client false = .done 0 (chunks (s.put false)).length true ∧
        s.client true = .done 2 (chunks (s.put true)).length true := by
  have hnul : ∀ c, nul ∉ twoFiles c := by decide
  have hsmall : ∀ c, ((twoFiles c).length : ℤ) ≤ CInt.intMax := by decide
  obtain ⟨as, s, hs, -, -, -, hfds, hgot⟩ :=
    (serves_everybody hnul hsmall {0, 1, 2, 3}).exists_run (Runs.Reachable.refl _)
  exact ⟨as, s, hs, hfds, (hgot false).1, (hgot true).1⟩

end MqFile
