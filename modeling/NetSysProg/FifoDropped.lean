/-
**Which clients of the FIFO service are dropped (`HW8/44_6`).**

The client creates its FIFO before it sends its request, "to avoid a race"; but the server's `open`
does not wait for a reader, so the client would have to be in its own `open` by then.  A client that
the server comes to between its `write` and its `open` is given up, and nobody will ever open its
FIFO for writing while it waits.  No other order of steps has this effect, whatever the other
clients do.

Main definitions:

* `Fifo.Entered` — the condition on a step: the server does not open the FIFO of a client that is
  about to open it itself.

Main results:

* `Fifo.Passed.of_reachableVia` — in a run that meets the condition every reading client whose
  request was given up is on its way out;
* `Fifo.not_dropped_of_entered` — **no client waits for a response that was given up, exactly while
  the condition is met**;
* `Fifo.exists_dropped_single` — one client and one unlucky step.
-/

import NetSysProg.FifoModel

set_option relaxedAutoImplicit false
set_option autoImplicit false

namespace Fifo

variable {ι : Type*} [DecidableEq ι] {K : Clients ι} {cap : ℕ}

/-- The client waits on its own FIFO, and the server has given its request up. -/
def Dropped (s : State ι) (c : ι) : Prop := Blocked s c ∧ c ∈ s.givenUp

/-- **The condition on a step**: the server, about to open the FIFO for the request of a reading
client, does not find that client before its own `open`. -/
def Entered (K : Clients ι) (s : State ι) : Act ι → Prop
  | .client _ => True
  | .server =>
      match s.server with
      | .openFifo req => K.reads req.sender = true → s.client req.sender ≠ .openFifo
      | _ => True

instance (s : State ι) (a : Act ι) : Decidable (Entered K s a) :=
  match a with
  | .client _ => inferInstanceAs (Decidable True)
  | .server =>
      match hpc : s.server with
      | .openFifo req => decidable_of_iff
          (K.reads req.sender = true → s.client req.sender ≠ .openFifo) (by simp [Entered, hpc])
      | .read => isTrue (by simp [Entered, hpc])
      | .write _ _ => isTrue (by simp [Entered, hpc])
      | .close _ _ => isTrue (by simp [Entered, hpc])

/-! ### Runs that meet the condition -/

/-- The client is past its last call on its FIFO. -/
def ClientPc.finished : ClientPc → Bool
  | .unlink | .exit | .ended => true
  | _ => false

/-- Every reading client whose request was given up is past its last call on its FIFO. -/
def Passed (K : Clients ι) (s : State ι) : Prop :=
  ∀ c ∈ s.givenUp, K.reads c = true → (s.client c).finished = true

omit [DecidableEq ι] in
theorem Passed.not_dropped {s : State ι} (h : Passed K s) {c : ι} (hc : K.reads c = true) :
    ¬ Dropped s c := by
  rintro ⟨hblocked, hup⟩
  have hfinished := h c hup hc
  rcases hblocked with hpc | ⟨hpc, -, -⟩ <;>
  · rw [hpc] at hfinished
    simp [ClientPc.finished] at hfinished

/-- What a client's step leaves alone. -/
theorem clientStep_frame {s s' : State ι} {c : ι} (hs : clientStep K cap s c = some s') :
    s'.givenUp = s.givenUp ∧ s'.server = s.server ∧
      (∀ d, d ≠ c → s'.client d = s.client d) ∧
      ((s.client c).finished = true → (s'.client c).finished = true) := by
  cases hpc : s.client c <;> simp only [clientStep, hpc] at hs
  case fork | write =>
    split at hs
    · cases hs
      exact ⟨rfl, rfl, fun d hd => by simp [hd], by simp [ClientPc.finished]⟩
    · simp at hs
  case opening | ended => simp at hs
  case read =>
    split at hs
    · cases hs
      exact ⟨rfl, rfl, fun d hd => by simp [hd], by simp [ClientPc.finished]⟩
    · split at hs
      · simp at hs
      · cases hs
        exact ⟨rfl, rfl, fun d hd => by simp [hd], by simp [ClientPc.finished]⟩
  all_goals
    cases hs
    exact ⟨rfl, rfl, fun d hd => by simp [hd], by simp [ClientPc.finished]⟩

omit [DecidableEq ι] in
/-- A reading client in its `open` or `read` is found by the server's `open`. -/
theorem Owned.lookup_of_waiting {s : State ι} (h : Owned K s) {c : ι}
    (hpc : s.client c = .opening ∨ s.client c = .read) : s.lookup (K.pid c) = some c := by
  have hlive : (s.client c).live = true := by rcases hpc with hpc | hpc <;> rw [hpc] <;> rfl
  have hnamed : (s.client c).named = true := by rcases hpc with hpc | hpc <;> rw [hpc] <;> rfl
  simp only [State.lookup, h.process c hlive, Option.filter_some, hnamed, if_true]

/-- What the server's `open` does: it finds a reader, who comes back from its own `open`, or gives
the client up, who then is not waiting. -/
theorem serverStep_openFifo {s s' : State ι} {req : Request ι} (h : Owned K s)
    (hpc : s.server = .openFifo req) (hs : serverStep K s = some s') :
    (s'.givenUp = s.givenUp ∧
      ∀ d, s'.client d = s.client d ∨ (s.client d = .opening ∧ s'.client d = .read)) ∨
    (s' = { s with server := .read, givenUp := req.sender :: s.givenUp } ∧
      s.client req.sender ≠ .opening ∧ s.client req.sender ≠ .read) := by
  have hpid : req.pid = K.pid req.sender :=
    (h.request req (by simp [State.requests, hpc, ServerPc.request])).1
  simp only [serverStep, hpc] at hs
  split at hs
  · next hlookup =>
      cases hs
      refine Or.inr ⟨rfl, ?_, ?_⟩ <;>
      · intro hwait
        rw [hpid, h.lookup_of_waiting (by simp [hwait])] at hlookup
        simp at hlookup
  · next c hlookup =>
      split at hs
      · cases hs
        refine Or.inl ⟨rfl, fun d => ?_⟩
        simp only [goto_client]
        split
        · next hdc =>
            subst hdc
            split
            · next hopening => exact Or.inr ⟨hopening, rfl⟩
            · exact Or.inl rfl
        · exact Or.inl rfl
      · next hreading =>
          cases hs
          refine Or.inr ⟨rfl, ?_, ?_⟩ <;>
          · intro hwait
            rw [hpid, h.lookup_of_waiting (by simp [hwait])] at hlookup
            obtain rfl := Option.some.inj hlookup
            rw [hwait] at hreading
            simp [ClientPc.reading] at hreading

/-- The server's other steps touch neither the clients nor the list of those given up. -/
theorem serverStep_frame {s s' : State ι} (hs : serverStep K s = some s')
    (hpc : ∀ req, s.server ≠ .openFifo req) :
    s'.givenUp = s.givenUp ∧ s'.client = s.client := by
  cases hserver : s.server with
  | read =>
      simp only [serverStep, hserver] at hs
      split at hs
      · simp at hs
      · cases hs
        exact ⟨rfl, rfl⟩
  | openFifo req => exact absurd hserver (hpc req)
  | write req c =>
      simp only [serverStep, hserver] at hs
      split at hs <;>
      · cases hs
        exact ⟨rfl, rfl⟩
  | close req c =>
      simp only [serverStep, hserver] at hs
      cases hs
      exact ⟨rfl, rfl⟩

/-- A step that meets the condition keeps the invariant. -/
theorem Passed.of_step {s s' : State ι} (h : Passed K s) (hown : Owned K s) {a : Act ι}
    (hok : Entered K s a) (hs : step K cap s a = some s') : Passed K s' := by
  intro d hd hreads
  cases a with
  | client c =>
      obtain ⟨hup, -, hothers, hfinished⟩ := clientStep_frame hs
      have hpast := h d (hup ▸ hd) hreads
      by_cases hdc : d = c
      · subst hdc
        exact hfinished hpast
      · rw [hothers d hdc]
        exact hpast
  | server =>
      by_cases hopen : ∃ req, s.server = .openFifo req
      · obtain ⟨req, hpc⟩ := hopen
        rcases serverStep_openFifo hown hpc hs with ⟨hup, hclient⟩ | ⟨rfl, hopening, hread⟩
        · have hpast := h d (hup ▸ hd) hreads
          rcases hclient d with heq | ⟨hwait, -⟩
          · rw [heq]
            exact hpast
          · rw [hwait] at hpast
            simp [ClientPc.finished] at hpast
        · rcases List.mem_cons.1 hd with rfl | hd
          · -- it has sent its request, is past its `open` and does not wait any more
            have hsent := (hown.request req (by simp [State.requests, hpc, ServerPc.request])).2
            have hentered : s.client req.sender ≠ .openFifo := by
              simp only [Entered, hpc] at hok
              exact hok hreads
            change (s.client req.sender).finished = true
            generalize s.client req.sender = pc at *
            cases pc <;> simp_all [ClientPc.finished, ClientPc.sent]
          · exact h d hd hreads
      · obtain ⟨hup, hclient⟩ := serverStep_frame hs fun req hpc => hopen ⟨req, hpc⟩
        rw [hclient]
        exact h d (hup ▸ hd) hreads

/-- **In a run that meets the condition every reading client whose request was given up is past its
last call on its FIFO.** -/
theorem Passed.of_reachableVia {s : State ι}
    (h : Runs.ReachableVia (step K cap) (Entered K) init s) : Passed K s := by
  have hinv : Owned K s ∧ Passed K s := by
    refine h.invariant (I := fun s => Owned K s ∧ Passed K s) ?_
      ⟨owned_init, by simp [Passed, init]⟩
    rintro s a s' ⟨hown, hpassed⟩ hok hs
    refine ⟨?_, hpassed.of_step hown hok hs⟩
    cases a with
    | server => exact hown.serverStep hs
    | client c => exact hown.clientStep hs
  exact hinv.2

/-! ### The step that breaks the condition -/

/-- **Whoever is found before its `open` is dropped**: the server gives the request up, and the
client's next step takes it into an `open` that waits. -/
theorem exists_dropped_of_not_entered {s s' : State ι} (hown : Owned K s) {a : Act ι}
    (hbreak : ¬ Entered K s a) (hs : step K cap s a = some s') :
    ∃ c s'', K.reads c = true ∧ step K cap s' (.client c) = some s'' ∧ Dropped s'' c := by
  cases a with
  | client c => exact absurd trivial hbreak
  | server =>
      cases hpc : s.server with
      | openFifo req =>
          obtain ⟨hreads, hclient⟩ :
              K.reads req.sender = true ∧ s.client req.sender = .openFifo := by
            simpa [Entered, hpc] using hbreak
          have hpid : req.pid = K.pid req.sender :=
            (hown.request req (by simp [State.requests, hpc, ServerPc.request])).1
          have hlookup : s.lookup req.pid = some req.sender := by
            have hprocess := hown.process req.sender (by rw [hclient]; rfl)
            simp [State.lookup, hpid, hprocess, hclient, ClientPc.named]
          -- its FIFO exists, but nobody has it open for reading
          simp only [step, serverStep, hpc, hlookup, hclient, ClientPc.reading, Bool.false_eq_true,
            if_false, Option.some.injEq] at hs
          subst hs
          refine ⟨req.sender, _, hreads, by simp only [step, clientStep, hclient]; rfl, ?_⟩
          exact ⟨Or.inl (by simp [ServerPc.holds]), List.mem_cons_self ..⟩
      | read => simp [Entered, hpc] at hbreak
      | write req c => simp [Entered, hpc] at hbreak
      | close req c => simp [Entered, hpc] at hbreak

/-- **No reading client waits for a response that the server has given up** in any state of a run
that meets the condition; and the first step of a run that breaks it leads to a client that does. -/
theorem not_dropped_of_entered (K : Clients ι) (cap : ℕ) :
    (∀ s, Runs.ReachableVia (step K cap) (Entered K) init s →
      ∀ c, K.reads c = true → ¬ Dropped s c) ∧
    (∀ s a s', Runs.ReachableVia (step K cap) (Entered K) init s → ¬ Entered K s a →
      step K cap s a = some s' →
      ∃ c s'', K.reads c = true ∧ step K cap s' (.client c) = some s'' ∧ Dropped s'' c) := by
  constructor
  · intro s hs c hc
    exact (Passed.of_reachableVia hs).not_dropped hc
  · intro s a s' hs hbreak hstep
    exact exists_dropped_of_not_entered (Owned.of_reachable hs.reachable) hbreak hstep

/-- A reading client and one that misbehaves, with the ids 41 and 42. -/
def twoClients : Clients Bool where
  pid c := if c then 41 else 42
  seqLen c := if c then 1 else 5
  reads c := c

/-- The misbehaving client is given up, then the reading one is in its `open` in time. -/
theorem not_dropped_of_entered_inTime :
    ∃ s, Runs.ReachableVia (step twoClients 8) (Entered twoClients) init s ∧
      s.givenUp = [false] ∧ s.client true = .read ∧ ¬ Dropped s true := by
  let acts : List (Act Bool) :=
    [.client true, .client true, .client false, .client false, .client false, .client false,
      .server, .server, .client true, .client true, .client true, .server, .server, .server]
  have hrun : ∃ s, Runs.run (fun s a => if Entered twoClients s a then
    step twoClients 8 s a else none)
      init acts = some s ∧ s.givenUp = [false] ∧ s.client true = .read := ⟨_, rfl, rfl, rfl⟩
  obtain ⟨s, hs, hup, hread⟩ := hrun
  have hvia : Runs.ReachableVia (step twoClients 8) (Entered twoClients) init s := .of_run hs
  exact ⟨s, hvia, hup, hread, (not_dropped_of_entered twoClients 8).1 s hvia true rfl⟩

/-- One reading client, with the id 41. -/
def oneClient : Clients Unit where
  pid _ := 41
  seqLen _ := 1
  reads _ := true

/-- **A single client can be dropped**: the server takes its request and comes to its FIFO before it
does.  Nobody can take a step any more. -/
theorem exists_dropped_single :
    ∃ s, Runs.Reachable (step oneClient 8) init s ∧ Dropped s () ∧
      Runs.Stuck (step oneClient 8) s := by
  let acts : List (Act Unit) :=
    [.client (), .client (), .client (), .client (), .server, .server, .client ()]
  have hrun : ∃ s, Runs.run (step oneClient 8) init acts = some s ∧ s.client () = .opening ∧
      s.givenUp = [()] ∧ s.server = .read ∧ s.queue = [] := ⟨_, rfl, rfl, rfl, rfl, rfl⟩
  obtain ⟨s, hs, hopening, hup, hserver, hqueue⟩ := hrun
  refine ⟨s, .of_run hs, ⟨Or.inl hopening, by simp [hup]⟩, ?_⟩
  intro a
  cases a with
  | server => simp [step, serverStep, hserver, hqueue]
  | client c => simp [step, clientStep, hopening]

end Fifo
