/-
**The FIFO service comes to an end (`HW8/44_6`).**

The server opens the FIFO of a client without waiting for the client, so nobody can hold it up, not
even a client that never opens its FIFO.  It follows that every interleaving ends, with all requests
dealt with: a client that reads has printed its number, or waits in its `open` because the server
has given it up, and one that misbehaves is gone.  What becomes of one client does not depend on the
others, but for the process id: a client that waits for ever keeps its own.

Main definitions:

* `Fifo.Move` — the steps by name, with everything a step can do;
* `Fifo.Answers` — what is settled for every client: its request is pending, given up or answered;
* `Fifo.toDo` — the steps that the processes can still make.

Main results:

* `Fifo.Move.of_step` — a step of the system is one of the named moves;
* `Fifo.Answers.of_step` — **every step keeps what is settled**;
* `Fifo.service_ends` — **every interleaving ends**, and what each client has got at the end.
-/

import NetSysProg.Completion
import NetSysProg.FifoService

set_option relaxedAutoImplicit false
set_option autoImplicit false

namespace Fifo

variable {ι : Type*}

/-! ### The moves -/

/-- The client has come back from its `open`. -/
def ClientPc.opened : ClientPc → Bool
  | .read | .unlink | .exit | .ended => true
  | _ => false

/-- The client is at a call on its own FIFO. -/
def ClientPc.atFifo : ClientPc → Bool
  | .openFifo | .opening | .read => true
  | _ => false

/-- A step of a client that nobody notices, and where it leads. -/
inductive ClientPc.Quiet : ClientPc → ClientPc → Prop
  | mkfifo : Quiet .mkfifo .openServer
  | openServer : Quiet .openServer .write
  | unlink : Quiet .unlink .exit

variable [DecidableEq ι] {K : Clients ι} {cap : ℕ}

/-- Everything a step can do. -/
inductive Move (K : Clients ι) (s : State ι) : Act ι → State ι → Prop
  | fork {c : ι} (hpc : s.client c = .fork) :
      Move K s (.client c)
        { s.goto c .mkfifo with process := Function.update s.process (K.pid c) (some c) }
  | quiet {c : ι} {pc : ClientPc} (hpc : (s.client c).Quiet pc) : Move K s (.client c) (s.goto c pc)
  | request {c : ι} (hpc : s.client c = .write) :
      Move K s (.client c) { s.goto c (if K.reads c then .openFifo else .unlink) with
        queue := s.queue ++ [⟨K.pid c, K.seqLen c, c⟩] }
  | openFifo {c : ι} (hpc : s.client c = .openFifo) :
      Move K s (.client c) (s.goto c (if s.server.holds = some c then .read else .opening))
  | print {c : ι} {n : ℤ} {rest : List ℤ} (hpc : s.client c = .read)
    (hbuffer : s.buffer c = n :: rest) :
      Move K s (.client c) { s.goto c .unlink with buffer := Function.update s.buffer c rest }
  | eof {c : ι} (hpc : s.client c = .read) (hbuffer : s.buffer c = [])
    (hholds : s.server.holds ≠ some c) :
      Move K s (.client c) (s.goto c .unlink)
  | exit {c : ι} (hpc : s.client c = .exit) :
      Move K s (.client c)
        { s.goto c .ended with process := Function.update s.process (K.pid c) none }
  | take {req : Request ι} {queue : List (Request ι)} (hpc : s.server = .read)
      (hqueue : s.queue = req :: queue) :
      Move K s .server { s with server := .openFifo req, queue := queue }
  | giveUp {req : Request ι} (hpc : s.server = .openFifo req) :
      Move K s .server { s with server := .read, givenUp := req.sender :: s.givenUp }
  | connect {req : Request ι} {c : ι} (hpc : s.server = .openFifo req)
    (hlookup : s.lookup req.pid = some c)
      (hreading : (s.client c).reading (K.reads c) = true) :
      Move K s .server { s.goto c (if s.client c = .opening then .read else s.client c) with
        server := .write req c }
  | respond {req : Request ι} {c : ι} {buffer : ι → List ℤ} (hpc : s.server = .write req c)
      (hothers : ∀ d, d ≠ c → buffer d = s.buffer d) (hfull : s.client c = .read → buffer c ≠ []) :
      Move K s .server { s with server := .close req c, buffer := buffer }
  | close {req : Request ι} {c : ι} (hpc : s.server = .close req c) :
      Move K s .server { s with server := .read, seqNum := CInt.wrap (s.seqNum + req.seqLen) }

theorem Move.of_clientStep {s s' : State ι} {c : ι} (h : clientStep K cap s c = some s') :
    Move K s (.client c) s' := by
  cases hpc : s.client c with
  | fork =>
      simp only [clientStep, hpc] at h
      split at h
      · cases h
        exact .fork hpc
      · cases h
  | mkfifo =>
      simp only [clientStep, hpc, Option.some.injEq] at h
      exact h ▸ .quiet (hpc ▸ .mkfifo)
  | openServer =>
      simp only [clientStep, hpc, Option.some.injEq] at h
      exact h ▸ .quiet (hpc ▸ .openServer)
  | write =>
      simp only [clientStep, hpc] at h
      split at h
      · cases h
        exact .request hpc
      · cases h
  | openFifo =>
      simp only [clientStep, hpc, Option.some.injEq] at h
      exact h ▸ .openFifo hpc
  | opening => simp [clientStep, hpc] at h
  | read =>
      simp only [clientStep, hpc] at h
      split at h
      · next n rest hbuffer =>
          cases h
          exact .print hpc hbuffer
      · next hbuffer =>
          split at h
          · cases h
          · next hholds =>
              cases h
              exact .eof hpc hbuffer hholds
  | unlink =>
      simp only [clientStep, hpc, Option.some.injEq] at h
      exact h ▸ .quiet (hpc ▸ .unlink)
  | exit =>
      simp only [clientStep, hpc, Option.some.injEq] at h
      exact h ▸ .exit hpc
  | ended => simp [clientStep, hpc] at h

theorem Move.of_serverStep {s s' : State ι} (h : serverStep K s = some s') :
    Move K s .server s' := by
  cases hpc : s.server with
  | read =>
      simp only [serverStep, hpc] at h
      split at h
      · cases h
      · next req queue hqueue =>
          cases h
          exact .take hpc hqueue
  | openFifo req =>
      simp only [serverStep, hpc] at h
      split at h
      · cases h
        exact .giveUp hpc
      · next c hlookup =>
          split at h
          · next hreading =>
              cases h
              exact .connect hpc hlookup hreading
          · cases h
            exact .giveUp hpc
  | write req c =>
      simp only [serverStep, hpc] at h
      split at h
      · cases h
        refine .respond hpc (fun d hd => Function.update_of_ne hd ..) fun _ => ?_
        simp
      · next hreading =>
          cases h
          refine .respond hpc (fun _ _ => rfl) fun hread => ?_
          rw [hread] at hreading
          exact absurd rfl hreading
  | close req c =>
      simp only [serverStep, hpc, Option.some.injEq] at h
      exact h ▸ .close hpc

/-- **Every step of the system is one of the moves.** -/
theorem Move.of_step {s s' : State ι} {a : Act ι} (h : step K cap s a = some s') :
    Move K s a s' := by
  cases a with
  | server => exact .of_serverStep h
  | client c => exact .of_clientStep h

/-! ### What is settled for every client -/

/-- The requests for which the server has not tried to open a FIFO. -/
def State.pending (s : State ι) : List (Request ι) :=
  match s.server with
  | .openFifo req => req :: s.queue
  | _ => s.queue

omit [DecidableEq ι] in
theorem printed_append (log log' : List (Event ι)) :
    printed (log ++ log') = printed log ++ printed log' := by
  simp [printed]

/-- What is settled for every client. -/
structure Answers (K : Clients ι) (log : List (Event ι)) (s : State ι) : Prop where
  owned : Owned K s
  /-- An id is that of a live process. -/
  live : ∀ p c, s.process p = some c → K.pid c = p ∧ (s.client c).live = true
  /-- The server has the FIFO of a client open that has opened it, too. -/
  holds : ∀ c, s.server.holds = some c → (s.client c).opened = true
  /-- Only clients that read come to their own FIFO. -/
  reader : ∀ c, (s.client c).atFifo = true → K.reads c = true
  /-- A client that has not opened its FIFO waits for its request to be handled, or has been given
  up. -/
  awaits : ∀ c, s.client c = .openFifo ∨ s.client c = .opening →
    c ∈ s.pending.map Request.sender ∨ c ∈ s.givenUp
  /-- A client that has opened its FIFO has a response there, or is about to get one. -/
  read : ∀ c, s.client c = .read → s.buffer c ≠ [] ∨ ∃ req, s.server = .write req c
  /-- A reader that is done has printed a number. -/
  prints : ∀ c, K.reads c = true → (s.client c).finished = true → ∃ n, (c, n) ∈ printed log

omit [DecidableEq ι] in
theorem Answers.init : Answers K [] (init : State ι) where
  owned := owned_init
  live := by simp [Fifo.init]
  holds := by simp [Fifo.init, ServerPc.holds]
  reader := by simp [Fifo.init, ClientPc.atFifo]
  awaits := by simp [Fifo.init]
  read := by simp [Fifo.init]
  prints := by simp [Fifo.init, ClientPc.finished]

/-- **What a step of one client leaves to be checked**: where the client goes, and whose the ids
are. -/
theorem Answers.of_client {log log' : List (Event ι)} {s s' : State ι} {c : ι} {pc : ClientPc}
    (h : Answers K log s) (howned : Owned K s') (hclient : s'.client = (s.goto c pc).client)
    (hserver : s'.server = s.server) (hup : s'.givenUp = s.givenUp)
    (hpending : ∀ req ∈ s.pending, req ∈ s'.pending)
    (hbuffer : ∀ d, d ≠ c → s'.buffer d = s.buffer d)
    (hlog : ∀ r ∈ printed log, r ∈ printed log')
    (hprocess : ∀ p d, s'.process p = some d → (d = c ∧ K.pid c = p ∧ pc.live = true) ∨
      (d ≠ c ∧ s.process p = some d))
    (hopened : (s.client c).opened = true → pc.opened = true)
    (hreader : pc.atFifo = true → K.reads c = true)
    (hawaits : pc = .openFifo ∨ pc = .opening → c ∈ s'.pending.map Request.sender ∨ c ∈ s.givenUp)
    (hread : pc = .read → s'.buffer c ≠ [] ∨ ∃ req, s.server = .write req c)
    (hprints : K.reads c = true → pc.finished = true → ∃ n, (c, n) ∈ printed log') :
    Answers K log' s' := by
  have hself : s'.client c = pc := by rw [hclient, goto_client, if_pos rfl]
  have hother : ∀ d, d ≠ c → s'.client d = s.client d := by
    intro d hd
    rw [hclient, goto_client, if_neg hd]
  refine ⟨howned, ?_, ?_, ?_, ?_, ?_, ?_⟩
  · intro p d hd
    rcases hprocess p d hd with ⟨rfl, hp, hpc⟩ | ⟨hdc, hold⟩
    · exact ⟨hp, by rw [hself, hpc]⟩
    · rw [hother d hdc]
      exact h.live p d hold
  · intro d hd
    rw [hserver] at hd
    by_cases hdc : d = c
    · subst hdc
      rw [hself]
      exact hopened (h.holds d hd)
    · rw [hother d hdc]
      exact h.holds d hd
  · intro d hd
    by_cases hdc : d = c
    · subst hdc
      exact hreader (hself ▸ hd)
    · exact h.reader d (hother d hdc ▸ hd)
  · intro d hd
    rw [hup]
    by_cases hdc : d = c
    · subst hdc
      exact hawaits (hself ▸ hd)
    · rw [hother d hdc] at hd
      refine (h.awaits d hd).imp_left fun hmem => ?_
      obtain ⟨req, hreq, hsender⟩ := List.mem_map.1 hmem
      exact List.mem_map.2 ⟨req, hpending req hreq, hsender⟩
  · intro d hd
    rw [hserver]
    by_cases hdc : d = c
    · subst hdc
      exact hread (hself.symm.trans hd)
    · rw [hbuffer d hdc]
      exact h.read d ((hother d hdc).symm.trans hd)
  · intro d hreads hd
    by_cases hdc : d = c
    · subst hdc
      exact hprints hreads (hself ▸ hd)
    · obtain ⟨n, hn⟩ := h.prints d hreads (hother d hdc ▸ hd)
      exact ⟨n, hlog _ hn⟩

/-- A client that goes on and stays alive changes nothing about the ids. -/
theorem Answers.process_kept {log : List (Event ι)} {s : State ι} (h : Answers K log s) {c : ι}
    {pc : ClientPc}
    (hpc : pc.live = true) (p : ℤ) (d : ι) (hd : s.process p = some d) :
    (d = c ∧ K.pid c = p ∧ pc.live = true) ∨ (d ≠ c ∧ s.process p = some d) := by
  by_cases hdc : d = c
  · subst hdc
    exact Or.inl ⟨rfl, (h.live p d hd).1, hpc⟩
  · exact Or.inr ⟨hdc, hd⟩

/-- **A step of a client keeps what is settled.** -/
theorem Answers.of_clientStep {log : List (Event ι)} {s s' : State ι} (h : Answers K log s) {c : ι}
    (hs : clientStep K cap s c = some s') : Answers K (log ++ event s (.client c)) s' := by
  have howned := h.owned.clientStep hs
  have hlog : ∀ r ∈ printed log, r ∈ printed (log ++ event s (.client c)) := by
    intro r hr
    rw [printed_append]
    exact List.mem_append.2 (Or.inl hr)
  cases Move.of_clientStep hs with
  | fork hpc =>
      refine h.of_client howned rfl rfl rfl (fun _ hr => hr) (fun _ _ => rfl) hlog ?_
        (by simp [hpc, ClientPc.opened])
        (by simp [ClientPc.atFifo]) (by simp) (by simp) (by simp [ClientPc.finished])
      intro p d hd
      change Function.update s.process (K.pid c) (some c) p = some d at hd
      by_cases hp : p = K.pid c
      · subst hp
        rw [Function.update_self] at hd
        exact Or.inl ⟨(Option.some.inj hd).symm, rfl, rfl⟩
      · rw [Function.update_of_ne hp] at hd
        refine Or.inr ⟨?_, hd⟩
        rintro rfl
        exact hp (h.live p d hd).1.symm
  | @quiet _ pc hpc =>
      have hlive : pc.live = true := by generalize s.client c = p at hpc; cases hpc <;> rfl
      have hfifo : pc.atFifo = false ∧ pc.opened = (s.client c).opened ∧
          pc.finished = (s.client c).finished := by
        generalize s.client c = p at hpc
        cases hpc <;> exact ⟨rfl, rfl, rfl⟩
      refine h.of_client howned rfl rfl rfl (fun _ hr => hr) (fun _ _ => rfl) hlog
        (h.process_kept hlive)
        (fun hopened => hfifo.2.1.trans hopened) (by simp [hfifo.1]) ?_ ?_ ?_
      · rintro (rfl | rfl) <;> exact absurd hfifo.1 (by decide)
      · rintro rfl
        exact absurd hfifo.1 (by decide)
      · intro hreads hfin
        obtain ⟨n, hn⟩ := h.prints c hreads (hfifo.2.2.symm.trans hfin)
        exact ⟨n, hlog _ hn⟩
  | request hpc =>
      have hpending : ∀ req ∈ s.pending, req ∈
        ({ s.goto c (if K.reads c then .openFifo else .unlink) with
          queue := s.queue ++ [⟨K.pid c, K.seqLen c, c⟩] } : State ι).pending := by
        intro req hreq
        unfold State.pending at hreq ⊢
        cases hserver : s.server <;> simp_all [State.goto]
        tauto
      cases hreads : K.reads c with
      | true =>
          simp only [hreads, if_true] at howned hpending ⊢
          refine h.of_client howned rfl rfl rfl hpending (fun _ _ => rfl) hlog (h.process_kept rfl)
            (by simp [hpc, ClientPc.opened]) (fun _ => hreads) (fun _ => Or.inl ?_) (by simp)
            (by simp [ClientPc.finished])
          refine List.mem_map.2 ⟨⟨K.pid c, K.seqLen c, c⟩, ?_, rfl⟩
          unfold State.pending
          split <;> simp
      | false =>
          simp only [hreads, Bool.false_eq_true, if_false] at howned hpending ⊢
          exact h.of_client howned rfl rfl rfl hpending (fun _ _ => rfl) hlog (h.process_kept rfl)
            (by simp [hpc, ClientPc.opened]) (by simp [ClientPc.atFifo]) (by simp) (by simp)
            (by simp [hreads])
  | openFifo hpc =>
      -- the server cannot have the FIFO open
      have hholds : s.server.holds ≠ some c := by
        intro hc
        have hopened := h.holds c hc
        rw [hpc] at hopened
        cases hopened
      rw [if_neg hholds] at howned ⊢
      exact h.of_client howned rfl rfl rfl (fun _ hr => hr) (fun _ _ => rfl) hlog
        (h.process_kept rfl)
        (by simp [hpc, ClientPc.opened]) (fun _ => h.reader c (by rw [hpc]; rfl))
        (fun _ => h.awaits c (Or.inl hpc)) (by simp) (by simp [ClientPc.finished])
  | @print _ n rest hpc hbuffer =>
      have hevent : event s (.client c) = [.printed c n] := by simp [event, hpc, hbuffer]
      refine h.of_client howned rfl rfl rfl (fun _ hr => hr)
        (fun d hd => Function.update_of_ne hd ..) hlog
        (h.process_kept rfl) (fun _ => rfl) (by simp [ClientPc.atFifo]) (by simp) (by simp)
          fun _ _ => ⟨n, ?_⟩
      rw [hevent, printed_append_printed]
      exact List.mem_append.2 (Or.inr (List.mem_singleton_self _))
  | eof hpc hbuffer hholds =>
      -- there is something to read, or the server is about to write it
      rcases h.read c hpc with hne | ⟨req, hserver⟩
      · exact absurd hbuffer hne
      · exact absurd (by rw [hserver]; rfl) hholds
  | exit hpc =>
      refine h.of_client howned rfl rfl rfl (fun _ hr => hr) (fun _ _ => rfl) hlog ?_ (fun _ => rfl)
        (by simp [ClientPc.atFifo]) (by simp) (by simp) ?_
      · intro p d hd
        change Function.update s.process (K.pid c) none p = some d at hd
        by_cases hp : p = K.pid c
        · subst hp
          rw [Function.update_self] at hd
          cases hd
        · rw [Function.update_of_ne hp] at hd
          refine Or.inr ⟨?_, hd⟩
          rintro rfl
          exact hp (h.live p d hd).1.symm
      · intro hreads _
        obtain ⟨n, hn⟩ := h.prints c hreads (by rw [hpc]; rfl)
        exact ⟨n, hlog _ hn⟩

omit [DecidableEq ι] in
/-- **What a step of the server that moves no client leaves to be checked.** -/
theorem Answers.of_server {log log' : List (Event ι)} {s s' : State ι} (h : Answers K log s)
    (howned : Owned K s') (hprocess : s'.process = s.process) (hclient : s'.client = s.client)
    (hlog : ∀ r ∈ printed log, r ∈ printed log')
    (hholds : ∀ c, s'.server.holds = some c → s.server.holds = some c)
    (hpending : ∀ req ∈ s.pending, req ∈ s'.pending ∨ req.sender ∈ s'.givenUp)
    (hup : ∀ c ∈ s.givenUp, c ∈ s'.givenUp)
    (hread : ∀ c, s.client c = .read → s'.buffer c ≠ [] ∨ ∃ req, s'.server = .write req c) :
    Answers K log' s' where
  owned := howned
  live := by rw [hprocess, hclient]; exact h.live
  holds := by
    intro c hc
    rw [hclient]
    exact h.holds c (hholds c hc)
  reader := by rw [hclient]; exact h.reader
  awaits := by
    intro c hc
    rw [hclient] at hc
    rcases h.awaits c hc with hmem | hmem
    · obtain ⟨req, hreq, rfl⟩ := List.mem_map.1 hmem
      exact (hpending req hreq).imp_left fun hp => List.mem_map_of_mem hp
    · exact Or.inr (hup c hmem)
  read := by rw [hclient]; exact hread
  prints := by
    intro c hreads hc
    rw [hclient] at hc
    obtain ⟨n, hn⟩ := h.prints c hreads hc
    exact ⟨n, hlog _ hn⟩

omit [DecidableEq ι] in
/-- Unless the server is about to write, a client at its `read` has something to read. -/
theorem Answers.full {log : List (Event ι)} {s : State ι} (h : Answers K log s) {c : ι}
    (hc : s.client c = .read) (hserver : ∀ req, s.server ≠ .write req c) : s.buffer c ≠ [] := by
  rcases h.read c hc with hne | ⟨req, hwrite⟩
  · exact hne
  · exact absurd hwrite (hserver req)

omit [DecidableEq ι] in
/-- A live client that has its FIFO under its name is found by the server. -/
theorem Owned.lookup_of_named {s : State ι} (h : Owned K s) {c : ι}
    (hpc : s.client c = .openFifo ∨ s.client c = .opening) : s.lookup (K.pid c) = some c := by
  have hlive : (s.client c).live = true := by rcases hpc with hpc | hpc <;> rw [hpc] <;> rfl
  have hnamed : (s.client c).named = true := by rcases hpc with hpc | hpc <;> rw [hpc] <;> rfl
  simp only [State.lookup, h.process c hlive, Option.filter_some, hnamed, if_true]

/-- **The server opens a FIFO**: whoever waited in the `open` of it comes back. -/
theorem Answers.connect {log log' : List (Event ι)} {s : State ι} (h : Answers K log s)
    {req : Request ι}
    {c : ι} (hpc : s.server = .openFifo req) (hlookup : s.lookup req.pid = some c)
    (hreading : (s.client c).reading (K.reads c) = true)
    (hlog : ∀ r ∈ printed log, r ∈ printed log')
    (howned : Owned K { s.goto c (if s.client c = .opening then .read else s.client c) with
      server := .write req c }) :
    Answers K log' { s.goto c (if s.client c = .opening then .read else s.client c) with
      server := .write req c } := by
  -- a client is where it was, or comes back from its `open`
  have hmoves : ∀ d, (s.goto c (if s.client c = .opening then .read else s.client c)).client d =
    s.client d ∨
      (d = c ∧ s.client d = .opening ∧
        (s.goto c (if s.client c = .opening then .read else s.client c)).client d = .read) := by
    intro d
    rw [goto_client]
    split
    · next hdc =>
        subst hdc
        split
        · next hopening => exact Or.inr ⟨rfl, hopening, rfl⟩
        · exact Or.inl rfl
    · exact Or.inl rfl
  have hnot : (s.goto c (if s.client c = .opening then .read else s.client c)).client
    c ≠ .openFifo ∧
      (s.goto c (if s.client c = .opening then .read else s.client c)).client c ≠ .opening := by
    rw [goto_client, if_pos rfl]
    generalize s.client c = pc at hreading
    cases pc <;> simp_all [ClientPc.reading]
  refine ⟨howned, ?_, ?_, ?_, ?_, ?_, ?_⟩
  · intro p d hd
    refine ⟨(h.live p d hd).1, ?_⟩
    rcases hmoves d with heq | ⟨-, -, heq⟩
    · exact (congrArg ClientPc.live heq).trans (h.live p d hd).2
    · exact congrArg ClientPc.live heq
  · intro d hd
    obtain rfl : c = d := Option.some.inj hd
    change ((s.goto c _).client c).opened = true
    rw [goto_client, if_pos rfl]
    generalize s.client c = pc at hreading
    cases pc <;> simp_all [ClientPc.reading, ClientPc.opened]
  · intro d hd
    rcases hmoves d with heq | ⟨-, hopening, -⟩
    · exact h.reader d (by rw [← heq]; exact hd)
    · exact h.reader d (by rw [hopening]; rfl)
  · intro d hd
    rcases hmoves d with heq | ⟨-, -, heq⟩
    · have hold : s.client d = .openFifo ∨ s.client d = .opening :=
        hd.imp (fun hd => heq.symm.trans hd) fun hd => heq.symm.trans hd
      refine (h.awaits d hold).imp_left fun hmem => ?_
      obtain ⟨r, hr, rfl⟩ := List.mem_map.1 hmem
      simp only [State.pending, hpc, List.mem_cons] at hr
      rcases hr with rfl | hr
      · -- its own request: then it is its own FIFO that has been opened
        have hpid : r.pid = K.pid r.sender :=
          (h.owned.request r (by simp [State.requests, hpc, ServerPc.request])).1
        rw [hpid, h.owned.lookup_of_named hold] at hlookup
        obtain rfl := Option.some.inj hlookup
        exact absurd hd (not_or.2 hnot)
      · exact List.mem_map_of_mem hr
    · rcases hd with hd | hd <;> cases heq.symm.trans hd
  · intro d hd
    rcases hmoves d with heq | ⟨rfl, -, -⟩
    · rcases h.read d (heq.symm.trans hd) with hne | ⟨r, hserver⟩
      · exact Or.inl hne
      · rw [hpc] at hserver
        cases hserver
    · exact Or.inr ⟨req, rfl⟩
  · intro d hreads hd
    rcases hmoves d with heq | ⟨-, -, heq⟩
    · obtain ⟨n, hn⟩ := h.prints d hreads (by rw [← heq]; exact hd)
      exact ⟨n, hlog _ hn⟩
    · cases (congrArg ClientPc.finished heq).symm.trans hd

/-- **A step of the server keeps what is settled.** -/
theorem Answers.of_serverStep {log : List (Event ι)} {s s' : State ι} (h : Answers K log s)
    (hs : serverStep K s = some s') : Answers K (log ++ event s .server) s' := by
  have howned := h.owned.serverStep hs
  have hlog : ∀ r ∈ printed log, r ∈ printed (log ++ event s .server) := by
    intro r hr
    rw [printed_append]
    exact List.mem_append.2 (Or.inl hr)
  cases Move.of_serverStep hs with
  | take hpc hqueue =>
      refine h.of_server howned rfl rfl hlog (by simp [ServerPc.holds]) ?_ (fun _ hc => hc) ?_
      · intro r hr
        exact Or.inl (by simpa [State.pending, hpc, hqueue] using hr)
      · intro c hc
        exact Or.inl (h.full hc (by simp [hpc]))
  | @giveUp req hpc =>
      refine h.of_server howned rfl rfl hlog (by simp [ServerPc.holds]) ?_
        (fun _ hc => List.mem_cons_of_mem _ hc) ?_
      · intro r hr
        simp only [State.pending, hpc, List.mem_cons] at hr
        rcases hr with rfl | hr
        · exact Or.inr (List.mem_cons_self ..)
        · exact Or.inl hr
      · intro c hc
        exact Or.inl (h.full hc (by simp [hpc]))
  | connect hpc hlookup hreading => exact h.connect hpc hlookup hreading hlog howned
  | @respond req c buffer hpc hothers hfull =>
      refine h.of_server howned rfl rfl hlog (fun d hd => by rw [hpc]; exact hd) ?_
        (fun _ hc => hc) ?_
      · intro r hr
        exact Or.inl (by simpa [State.pending, hpc] using hr)
      · intro d hd
        refine Or.inl ?_
        by_cases hdc : d = c
        · subst hdc
          exact hfull hd
        · have hne : s.buffer d ≠ [] := by
            refine h.full hd fun r hr => hdc ?_
            rw [hpc] at hr
            cases hr
            rfl
          exact fun hnil => hne ((hothers d hdc).symm.trans hnil)
  | close hpc =>
      refine h.of_server howned rfl rfl hlog (by simp [ServerPc.holds]) ?_ (fun _ hc => hc) ?_
      · intro r hr
        exact Or.inl (by simpa [State.pending, hpc] using hr)
      · intro c hc
        exact Or.inl (h.full hc (by simp [hpc]))

/-- **Every step keeps what is settled.** -/
theorem Answers.of_step {log : List (Event ι)} {s s' : State ι} {a : Act ι} (h : Answers K log s)
    (hs : step K cap s a = some s') : Answers K (log ++ event s a) s' := by
  cases a with
  | server => exact h.of_serverStep hs
  | client c => exact h.of_clientStep hs

/-! ### The measure -/

/-- The steps of a client, and of the server for its request, from where the client is. -/
def ClientPc.weight : ClientPc → ℕ
  | .fork => 12
  | .mkfifo => 11
  | .openServer => 10
  | .write => 9
  | .openFifo => 4
  | .opening => 3
  | .read => 3
  | .unlink => 2
  | .exit => 1
  | .ended => 0

/-- The steps of the server up to the head of its loop. -/
def ServerPc.weight : ServerPc ι → ℕ
  | .read => 0
  | .openFifo _ => 3
  | .write _ _ => 2
  | .close _ _ => 1

/-- **The steps that the processes can still make**: the server makes four for each request in its
FIFO. -/
def toDo [Fintype ι] (s : State ι) : ℕ :=
  ∑ c, (s.client c).weight + 4 * s.queue.length + s.server.weight

omit [DecidableEq ι] in
theorem toDo_init [Fintype ι] : toDo (init : State ι) = 12 * Fintype.card ι := by
  simp only [toDo, init, ClientPc.weight, ServerPc.weight, List.length_nil, Finset.sum_const,
    Finset.card_univ, smul_eq_mul]
  omega

/-- What the clients weigh after one of them has gone somewhere. -/
theorem sum_goto [Fintype ι] (s : State ι) (c : ι) (pc : ClientPc) :
    ∑ d, ((s.goto c pc).client d).weight + (s.client c).weight =
      ∑ d, (s.client d).weight + pc.weight :=
  Runs.sum_update (fun _ => ClientPc.weight) s.client c pc

/-- A step of a client that goes to `pc` lowers the measure if it puts no more than the difference
on the queue. -/
theorem toDo_lt_of_goto [Fintype ι] {s s' : State ι} {c : ι} {pc : ClientPc}
    (hclient : s'.client = (s.goto c pc).client) (hserver : s'.server = s.server)
    (hlt : pc.weight + 4 * s'.queue.length < (s.client c).weight + 4 * s.queue.length) :
    toDo s' < toDo s := by
  have hsum := sum_goto s c pc
  unfold toDo
  rw [hclient, hserver]
  omega

/-- **Every step of a process is one step less to do.** -/
theorem toDo_lt_of_move [Fintype ι] {s s' : State ι} {a : Act ι} (hs : Move K s a s') :
    toDo s' < toDo s := by
  cases hs with
  | fork hpc =>
    exact toDo_lt_of_goto rfl rfl (by rw [hpc]; exact Nat.add_lt_add_right (by decide) _)
  | @quiet c pc hpc =>
      have hlt : pc.weight < (s.client c).weight := by
        generalize s.client c = p at hpc; cases hpc <;> decide
      exact toDo_lt_of_goto rfl rfl (Nat.add_lt_add_right hlt _)
  | @request c hpc =>
      refine toDo_lt_of_goto rfl rfl ?_
      have hle : (if K.reads c then ClientPc.openFifo else .unlink).weight ≤ 4 := by
        split <;> decide
      have hnine : (s.client c).weight = 9 := by rw [hpc]; rfl
      simp only [List.length_append, List.length_singleton]
      omega
  | @openFifo c hpc =>
      have hle : (if s.server.holds = some c then ClientPc.read else .opening).weight ≤ 3 := by
        split <;> decide
      have hfour : (s.client c).weight = 4 := by rw [hpc]; rfl
      exact toDo_lt_of_goto rfl rfl (Nat.add_lt_add_right (by omega) _)
  | print hpc _ =>
    exact toDo_lt_of_goto rfl rfl (by rw [hpc]; exact Nat.add_lt_add_right (by decide) _)
  | eof hpc _ _ =>
    exact toDo_lt_of_goto rfl rfl (by rw [hpc]; exact Nat.add_lt_add_right (by decide) _)
  | exit hpc =>
    exact toDo_lt_of_goto rfl rfl (by rw [hpc]; exact Nat.add_lt_add_right (by decide) _)
  | take hpc hqueue =>
      simp only [toDo, hpc, hqueue, ServerPc.weight, List.length_cons]
      omega
  | giveUp hpc =>
      simp only [toDo, hpc, ServerPc.weight]
      omega
  | @connect req c hpc hlookup hreading =>
      -- a client that comes back from its `open` has as much before it as in the `open`
      have hsum := sum_goto s c (if s.client c = .opening then .read else s.client c)
      have hweight : (if s.client c = .opening then ClientPc.read else s.client c).weight =
          (s.client c).weight := by
        split
        · next hopening => rw [hopening]; rfl
        · rfl
      change ∑ d, ((s.goto c _).client d).weight + 4 * s.queue.length + 2 < toDo s
      have hserver : s.server.weight = 3 := by rw [hpc]; rfl
      unfold toDo
      omega
  | respond hpc _ _ =>
      simp only [toDo, hpc, ServerPc.weight]
      omega
  | close hpc =>
      simp only [toDo, hpc, ServerPc.weight]
      omega

/-! ### The end -/

/-- A server that cannot step waits for a request. -/
theorem server_of_stuck {s : State ι} (hstuck : serverStep K s = none) :
    s.server = .read ∧ s.queue = [] := by
  cases hpc : s.server with
  | read =>
      simp only [serverStep, hpc] at hstuck
      split at hstuck
      · next hqueue => exact ⟨rfl, hqueue⟩
      · cases hstuck
  | openFifo req =>
      simp only [serverStep, hpc] at hstuck
      split at hstuck
      · cases hstuck
      · split at hstuck <;> cases hstuck
  | write req c =>
      simp only [serverStep, hpc] at hstuck
      split at hstuck <;> cases hstuck
  | close req c => simp [serverStep, hpc] at hstuck

/-- A client that cannot step has ended or waits in its `open`, or its process id is in use, or it
waits for the server. -/
theorem client_of_stuck {s : State ι} {c : ι} (hstuck : clientStep K cap s c = none) :
    s.client c = .ended ∨ s.client c = .opening ∨
      (s.client c = .fork ∧ s.process (K.pid c) ≠ none) ∨
      (s.client c = .write ∧ cap ≤ s.queue.length) ∨
      (s.client c = .read ∧ s.server.holds = some c) := by
  cases hpc : s.client c with
  | fork =>
      simp only [clientStep, hpc] at hstuck
      split at hstuck
      · cases hstuck
      · next hused => exact Or.inr (Or.inr (Or.inl ⟨rfl, hused⟩))
  | mkfifo => simp [clientStep, hpc] at hstuck
  | openServer => simp [clientStep, hpc] at hstuck
  | write =>
      simp only [clientStep, hpc] at hstuck
      split at hstuck
      · cases hstuck
      · next hfull => exact Or.inr (Or.inr (Or.inr (Or.inl ⟨rfl, Nat.not_lt.1 hfull⟩)))
  | openFifo => simp [clientStep, hpc] at hstuck
  | opening => exact Or.inr (Or.inl rfl)
  | read =>
      simp only [clientStep, hpc] at hstuck
      split at hstuck
      · cases hstuck
      · split at hstuck
        · next hholds => exact Or.inr (Or.inr (Or.inr (Or.inr ⟨rfl, hholds⟩)))
        · cases hstuck
  | unlink => simp [clientStep, hpc] at hstuck
  | exit => simp [clientStep, hpc] at hstuck
  | ended => exact Or.inl rfl

/-- With the server at rest a client that cannot step has ended or waits in its `open`, or somebody
else has its process id. -/
theorem client_of_rest {s : State ι} (hcap : 0 < cap) (hserver : s.server = .read)
    (hqueue : s.queue = [])
    {c : ι} (hstuck : clientStep K cap s c = none) :
    s.client c = .ended ∨ s.client c = .opening ∨
      (s.client c = .fork ∧ s.process (K.pid c) ≠ none) := by
  rcases client_of_stuck hstuck with h | h | h | ⟨-, hfull⟩ | ⟨-, hholds⟩
  · exact Or.inl h
  · exact Or.inr (Or.inl h)
  · exact Or.inr (Or.inr h)
  · rw [hqueue, List.length_nil] at hfull
    omega
  · rw [hserver] at hholds
    cases hholds

/-- **The FIFO service comes to an end.**  With any number of clients, of which any may misbehave,
the processes make at most twelve steps for each client, in every interleaving.  When none of them
can step, the server waits for requests and has handled all of them, and every client has ended, and
has printed a number if it is one that reads; or it is a reader that has been given up and waits in
its `open`; or it could not be started, because its process id is that of such a reader. -/
theorem service_ends [Fintype ι] (K : Clients ι) (hcap : 0 < cap) :
    (∀ as s, Runs.run (step K cap) init as = some s → as.length ≤ 12 * Fintype.card ι) ∧
    ∀ as s, Runs.run (step K cap) init as = some s → Runs.Stuck (step K cap) s →
      s.server = .read ∧ s.queue = [] ∧ ∀ c,
        (s.client c = .ended ∧
          (K.reads c = true → ∃ n, (c, n) ∈ printed (Runs.trace (step K cap) event init as))) ∨
        (s.client c = .opening ∧ K.reads c = true ∧ c ∈ s.givenUp) ∨
        (s.client c = .fork ∧ ∃ d, s.client d = .opening ∧ K.pid d = K.pid c) := by
  constructor
  · intro as s hs
    have hle : as.length + toDo s ≤ toDo (init : State ι) :=
      Runs.length_add_measure_le (I := fun _ => True) (fun _ _ _ _ _ => trivial)
        (fun _ _ _ _ hs => toDo_lt_of_move (Move.of_step hs)) trivial hs
    rw [toDo_init] at hle
    omega
  · intro as s hs hstuck
    have hanswers : Answers K (Runs.trace (step K cap) event init as) s :=
      Runs.invariant_trace (fun _ _ _ _ h hs => h.of_step hs) Answers.init hs
    obtain ⟨hserver, hqueue⟩ := server_of_stuck (hstuck .server)
    refine ⟨hserver, hqueue, fun c => ?_⟩
    rcases client_of_rest hcap hserver hqueue (hstuck (.client c)) with hpc | hpc | ⟨hpc, hused⟩
    · exact Or.inl ⟨hpc, fun hreads => hanswers.prints c hreads (by rw [hpc]; rfl)⟩
    · refine Or.inr (Or.inl ⟨hpc, hanswers.reader c (by rw [hpc]; rfl), ?_⟩)
      rcases hanswers.awaits c (Or.inr hpc) with hmem | hmem
      · simp [State.pending, hserver, hqueue] at hmem
      · exact hmem
    · obtain ⟨d, hd⟩ := Option.ne_none_iff_exists'.1 hused
      obtain ⟨hpid, hlive⟩ := hanswers.live _ d hd
      refine Or.inr (Or.inr ⟨hpc, d, ?_, hpid⟩)
      rcases client_of_rest hcap hserver hqueue (hstuck (.client d)) with hd | hd | ⟨hd, -⟩
      · rw [hd] at hlive
        cases hlive
      · exact hd
      · rw [hd] at hlive
        cases hlive

/-- A reader is served, and a client that misbehaves is given up. -/
def servedRun : List (Act Bool) :=
  List.replicate 5 (.client true) ++ List.replicate 4 .server ++ List.replicate 3 (.client true) ++
    List.replicate 6 (.client false) ++ List.replicate 2 .server

theorem service_ends_servedRun :
    ∃ s, Runs.run (step twoClients 1) init servedRun = some s ∧ Runs.Stuck (step twoClients 1) s ∧
      servedRun.length ≤ 24 ∧
      ∃ n, (true, n) ∈ printed (Runs.trace (step twoClients 1) event init servedRun) := by
  obtain ⟨s, hs⟩ : ∃ s, Runs.run (step twoClients 1) init servedRun = some s := ⟨_, rfl⟩
  have hend : (Runs.run (step twoClients 1) init servedRun).map
      (fun s => (s.server, s.queue, s.client true, s.client false)) =
        some (.read, [], .ended, .ended) := by
    decide
  rw [hs] at hend
  obtain ⟨hserver, hqueue, htrue, hfalse⟩ :
      s.server = .read ∧ s.queue = [] ∧ s.client true = .ended ∧ s.client false = .ended := by
    simpa using hend
  have hstuck : Runs.Stuck (step twoClients 1) s := by
    intro a
    cases a with
    | server => simp [step, serverStep, hserver, hqueue]
    | client c => cases c <;> simp [step, clientStep, htrue, hfalse]
  have hends := service_ends twoClients (Nat.zero_lt_one)
  refine ⟨s, hs, hstuck, hends.1 _ s hs, ?_⟩
  rcases (hends.2 _ s hs hstuck).2.2 true with ⟨-, hprinted⟩ | ⟨hpc, -⟩ | ⟨hpc, -⟩
  · exact hprinted rfl
  · cases htrue.symm.trans hpc
  · cases htrue.symm.trans hpc

end Fifo
