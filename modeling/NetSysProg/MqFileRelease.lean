/-
**When the server lets go of a client (`HW9/52_3`).**

Two of the `continue` statements in the server's loop are too early.  When the requested file cannot
be opened, and when the end marker cannot be sent, the server goes back to `mq_receive` without
having put an end marker into the client's queue and with that queue still open.  A failure of
`read` or of the `mq_send` of a chunk only shortens the answer, and a failure of `close` ends the
server.

Main definitions:

* `MqFile.State.Released` — at the head of the server's loop, the descriptors are those of its
  start, and the last message for every client that has been served is an end marker;
* `MqFile.Releases` — the call is neither an `open` of the file nor an `mq_send` of the end marker
  that fails.

Main results:

* `MqFile.released_of_releases` — **in every run in which these two succeed, every client is let
  go**, and the first of them to fail leaves a descriptor behind;
* `MqFile.exists_unreleased_missingFile` — a client that asks for a missing file waits for ever.
-/

import NetSysProg.MqFileModel
import Mathlib.Data.Finset.Basic

set_option relaxedAutoImplicit false
set_option autoImplicit false

namespace MqFile

open CString

variable {ι : Type*} {F₀ : Finset ℕ}

/-! ### The condition and what it keeps -/

/-- The last of the messages is an end marker. -/
def Marked (ms : List Msg) : Prop := ∃ m, ms.getLast? = some m ∧ m.res.data.head? = some nul

theorem not_marked_nil : ¬ Marked [] := by
  rintro ⟨m, h, -⟩
  cases h

theorem marked_concat (ms : List Msg) {m : Msg} (h : m.res.data.head? = some nul) :
    Marked (ms ++ [m]) :=
  ⟨m, List.getLast?_concat, h⟩

/-- At the head of its loop the server holds the descriptors `F₀`, and the last message that it has
put into the queue of a client it has served is an end marker. -/
def State.Released (F₀ : Finset ℕ) (s : State ι) : Prop :=
  s.server = .receive → s.fds = F₀ ∧ ∀ c ∈ s.served, Marked (s.put c)

/-- The calls whose failure takes the server back to the head of its loop too early. -/
def ServerPc.mustSucceed : ServerPc ι → Bool
  | .openFile _ _ => true
  | .sendMark _ _ => true
  | _ => false

/-- **The condition on a call of the server**: it is neither an `open` of the requested file nor an
`mq_send` of the end marker that fails. -/
def Releases (s : State ι) (r : Result) : Prop := s.server.mustSucceed = true → r ≠ .fail

instance (s : State ι) (r : Result) : Decidable (Releases s r) :=
  inferInstanceAs (Decidable (s.server.mustSucceed = true → r ≠ .fail))

/-- The condition on a step of the server among other processes. -/
def OpenReleases (s : State ι) : OpenAct ι → Prop
  | .server r => Releases s r
  | .request _ => True
  | .drain _ => True

instance (s : State ι) (a : OpenAct ι) : Decidable (OpenReleases s a) :=
  match a with
  | .server r => inferInstanceAs (Decidable (Releases s r))
  | .request _ | .drain _ => inferInstanceAs (Decidable True)

/-- The condition on a step of the server with its clients. -/
def ActReleases (s : State ι) : Act ι → Prop
  | .server r => Releases s r
  | .client _ => True

instance (s : State ι) (a : Act ι) : Decidable (ActReleases s a) :=
  match a with
  | .server r => inferInstanceAs (Decidable (Releases s r))
  | .client _ => inferInstanceAs (Decidable True)

/-- The descriptors of the server at each of its calls, beside those of its start. -/
def ServerPc.Holds (F₀ : Finset ℕ) : ServerPc ι → Finset ℕ → Prop
  | .receive, fds => fds = F₀
  | .openQueue _, fds => fds = F₀
  | .openFile _ mq, fds => mq ∉ F₀ ∧ fds = insert mq F₀
  | .read _ mq fd, fds => mq ∉ F₀ ∧ fd ∉ insert mq F₀ ∧ fds = insert fd (insert mq F₀)
  | .send _ mq fd _, fds => mq ∉ F₀ ∧ fd ∉ insert mq F₀ ∧ fds = insert fd (insert mq F₀)
  | .clear _ mq fd, fds => mq ∉ F₀ ∧ fd ∉ insert mq F₀ ∧ fds = insert fd (insert mq F₀)
  | .close _ mq fd, fds => mq ∉ F₀ ∧ fd ∉ insert mq F₀ ∧ fds = insert fd (insert mq F₀)
  | .mark _ mq, fds => mq ∉ F₀ ∧ fds = insert mq F₀
  | .sendMark _ mq, fds => mq ∉ F₀ ∧ fds = insert mq F₀
  | .closeQueue _ mq, fds => mq ∉ F₀ ∧ fds = insert mq F₀
  | .exited, _ => True

/-- The client that the server is about to send something to. -/
def ServerPc.owes : ServerPc ι → Option ι
  | .openFile c _ => some c
  | .read c _ _ => some c
  | .send c _ _ _ => some c
  | .clear c _ _ => some c
  | .close c _ _ => some c
  | .mark c _ => some c
  | .sendMark c _ => some c
  | _ => none

/-- What a server that meets the condition keeps. -/
structure Keeps (F₀ : Finset ℕ) (s : State ι) : Prop where
  holds : s.server.Holds F₀ s.fds
  marked : s.server ≠ .exited → ∀ c ∈ s.served, s.server.owes = some c ∨ Marked (s.put c)
  isMark : ∀ c mq, s.server = .sendMark c mq → s.res.data.head? = some nul

namespace Keeps

theorem init (res : Response) : Keeps F₀ (init res F₀ : State ι) where
  holds := rfl
  marked := fun _ _ hc => absurd hc List.not_mem_nil
  isMark := fun _ _ h => nomatch h

theorem released {s : State ι} (h : Keeps F₀ s) : s.Released F₀ := by
  intro hpc
  refine ⟨?_, fun c hc => ?_⟩
  · have hheld := h.holds
    rw [hpc] at hheld
    exact hheld
  · rcases h.marked (by rw [hpc]; exact nofun) c hc with howes | hmark
    · rw [hpc] at howes
      exact nomatch howes
    · exact hmark

/-- What other processes do is not kept. -/
theorem congr {s s' : State ι} (h : Keeps F₀ s) (hserver : s'.server = s.server)
    (hres : s'.res = s.res) (hfds : s'.fds = s.fds) (hput : s'.put = s.put)
    (hserved : s'.served = s.served) : Keeps F₀ s' where
  holds := by rw [hserver, hfds]; exact h.holds
  marked := by rw [hserver, hserved, hput]; exact h.marked
  isMark := by rw [hserver, hres]; exact h.isMark

/-- A call of the server that goes on with the same client. -/
theorem goOn {s s' : State ι} (h : Keeps F₀ s) (hne : s.server ≠ .exited)
    (howes : s'.server.owes = s.server.owes) (hput : s'.put = s.put)
    (hserved : s'.served = s.served) (hholds : s'.server.Holds F₀ s'.fds)
    (hmark : ∀ c mq, s'.server = .sendMark c mq → s'.res.data.head? = some nul) : Keeps F₀ s' where
  holds := hholds
  marked := by
    intro _
    rw [howes, hput, hserved]
    exact h.marked hne
  isMark := hmark

variable [DecidableEq ι] {file : ι → List Byte}

/-- After the end marker nothing is owed to the client any more. -/
theorem sendMark {s : State ι} {c : ι} {mq : ℕ} (h : Keeps F₀ s) (hpc : s.server = .sendMark c mq) :
    Keeps F₀ (s.sent c ⟨s.res, none⟩ (.closeQueue c mq)) where
  holds := by
    have hheld := h.holds
    rw [hpc] at hheld
    exact hheld
  marked := by
    intro _ d hd
    refine Or.inr ?_
    have hres : s.res.data.head? = some nul := h.isMark c mq hpc
    by_cases hdc : d = c
    · subst hdc
      simp only [State.sent, Function.update_self]
      exact marked_concat _ hres
    · simp only [State.sent, Function.update_of_ne hdc]
      rcases h.marked (by rw [hpc]; exact nofun) d hd with howes | hmark
      · rw [hpc] at howes
        exact absurd (Option.some.inj howes).symm hdc
      · exact hmark
  isMark := fun _ _ h => nomatch h

/-- **One call of the server keeps it**, unless one of the two that must succeed fails. -/
theorem of_serverStep {s s' : State ι} {r : Result} (h : Keeps F₀ s) (hok : Releases s r)
    (hs : serverStep file s r = some s') : Keeps F₀ s' := by
  have hheld := h.holds
  cases ServerMove.of_step hs with
  | receiveFail hpc => exact ⟨trivial, fun hne => absurd rfl hne, fun _ _ h => nomatch h⟩
  | receive hpc hreq =>
      rw [hpc] at hheld
      exact h.goOn (by rw [hpc]; exact nofun) (by rw [hpc]; rfl) rfl rfl hheld
        (fun _ _ h => nomatch h)
  | openQueueFail hpc =>
      rw [hpc] at hheld
      exact h.goOn (by rw [hpc]; exact nofun) (by rw [hpc]; rfl) rfl rfl hheld
        (fun _ _ h => nomatch h)
  | @openQueue c mq hpc hmq =>
      rw [hpc] at hheld
      have hF : s.fds = F₀ := hheld
      rw [hF] at hmq
      refine ⟨⟨hmq, by rw [hF]⟩, fun _ d hd => ?_, fun _ _ h => nomatch h⟩
      rcases List.mem_append.1 hd with hd | hd
      · rcases h.marked (by rw [hpc]; exact nofun) d hd with howes | hmark
        · rw [hpc] at howes
          exact nomatch howes
        · exact Or.inr hmark
      · obtain rfl := List.mem_singleton.1 hd
        exact Or.inl rfl
  | openFileFail hpc => exact absurd rfl (hok (by rw [hpc]; rfl))
  | openFile hpc hfd =>
      rw [hpc] at hheld
      obtain ⟨hmq, hF⟩ := hheld
      rw [hF] at hfd
      exact h.goOn (by rw [hpc]; exact nofun) (by rw [hpc]; rfl) rfl rfl ⟨hmq, hfd, by rw [hF]⟩
        (fun _ _ h => nomatch h)
  | readFail hpc | readEnd hpc hleft | read hpc hpos hsize hleft | sendFail hpc | clear hpc =>
      rw [hpc] at hheld
      exact h.goOn (by rw [hpc]; exact nofun) (by rw [hpc]; rfl) rfl rfl hheld
        (fun _ _ h => nomatch h)
  | @send _ c mq fd chunk hpc =>
      rw [hpc] at hheld
      refine ⟨hheld, fun _ d hd => ?_, fun _ _ h => nomatch h⟩
      by_cases hdc : d = c
      · exact Or.inl (by rw [hdc]; rfl)
      · simp only [State.sent, Function.update_of_ne hdc]
        have hmarked := h.marked (by rw [hpc]; exact nofun) d hd
        rw [hpc] at hmarked
        exact hmarked
  | closeFail hpc => exact ⟨trivial, fun hne => absurd rfl hne, fun _ _ h => nomatch h⟩
  | close hpc =>
      rw [hpc] at hheld
      obtain ⟨hmq, hfd, hF⟩ := hheld
      exact h.goOn (by rw [hpc]; exact nofun) (by rw [hpc]; rfl) rfl rfl
        ⟨hmq, by rw [hF, Finset.erase_insert hfd]⟩ (fun _ _ h => nomatch h)
  | mark hpc =>
      rw [hpc] at hheld
      exact h.goOn (by rw [hpc]; exact nofun) (by rw [hpc]; rfl) rfl rfl hheld
        (fun _ _ _ => Response.head?_mark _)
  | sendMarkFail hpc => exact absurd rfl (hok (by rw [hpc]; rfl))
  | sendMark hpc => exact h.sendMark hpc
  | closeQueue hpc =>
      rw [hpc] at hheld
      obtain ⟨hmq, hF⟩ := hheld
      exact h.goOn (by rw [hpc]; exact nofun) (by rw [hpc]; rfl) rfl rfl
        (by rw [hF, Finset.erase_insert hmq]; rfl) (fun _ _ h => nomatch h)

/-- The first call to break the condition leaves the descriptor of the client's queue behind. -/
theorem not_released_of_serverStep {s s' : State ι} {r : Result} (h : Keeps F₀ s)
    (hbad : ¬ Releases s r) (hs : serverStep file s r = some s') : ¬ s'.Released F₀ := by
  have hheld := h.holds
  have hmust : s.server.mustSucceed = true ∧ r = .fail := by
    simpa only [Releases, Classical.not_imp, not_not] using hbad
  -- the queue's descriptor is none of `F₀`
  have hleak : ∀ mq : ℕ, mq ∉ F₀ → s'.server = .receive → s'.fds = insert mq F₀ →
      ¬ s'.Released F₀ := by
    intro mq hmq hpc hF hrel
    rw [← (hrel hpc).1, hF] at hmq
    exact hmq (Finset.mem_insert_self mq F₀)
  obtain ⟨hmust, rfl⟩ := hmust
  cases ServerMove.of_step hs with
  | openFileFail hpc | sendMarkFail hpc =>
      rw [hpc] at hheld
      exact hleak _ hheld.1 rfl hheld.2
  | receiveFail hpc | openQueueFail hpc | readFail hpc | sendFail hpc | clear hpc | closeFail hpc
  | mark hpc | closeQueue hpc =>
      rw [hpc] at hmust
      exact nomatch hmust

theorem of_openStep {s s' : State ι} {a : OpenAct ι} (h : Keeps F₀ s) (hok : OpenReleases s a)
    (hs : openStep file s a = some s') : Keeps F₀ s' := by
  cases a with
  | server r => exact h.of_serverStep hok hs
  | request c =>
      simp only [openStep] at hs
      split at hs
      · obtain rfl := Option.some.inj hs
        exact h.congr rfl rfl rfl rfl rfl
      · cases hs
  | drain c =>
      obtain rfl := Option.some.inj hs
      exact h.congr rfl rfl rfl rfl rfl

theorem of_step {s s' : State ι} {a : Act ι} (h : Keeps F₀ s) (hok : ActReleases s a)
    (hs : step file s a = some s') : Keeps F₀ s' := by
  cases a with
  | server r => exact h.of_serverStep hok hs
  | client c => cases ClientMove.of_step hs <;> exact h.congr rfl rfl rfl rfl rfl

end Keeps

/-! ### The clients -/

/-- The client has not left its loop. -/
def ClientPc.waiting : ClientPc → Bool
  | .send => true
  | .recv _ _ => true
  | _ => false

/-- The queue of a client ends with what the server has put into it last, and a client that waits
has not taken an end marker. -/
structure Waits (s : State ι) (c : ι) : Prop where
  suffix : s.queue c <:+ s.put c
  unmarked : (s.client c).waiting = true → s.queue c = [] → ¬ Marked (s.put c)

/-- A message that has not ended the loop is no end marker. -/
theorem head?_ne_of_waiting {m : Msg} {byteNum msgNum : ℤ}
    (h : (m.received byteNum msgNum).waiting = true) : m.res.data.head? ≠ some nul := by
  intro hnul
  rw [Msg.received, if_pos hnul] at h
  exact nomatch h

namespace Waits

theorem of_step [DecidableEq ι] {file : ι → List Byte} {s s' : State ι} {a : Act ι}
    (h : ∀ c, Waits s c) (hs : step file s a = some s')
    (c : ι) : Waits s' c := by
  cases a with
  | server r =>
      obtain ⟨hclient, ⟨hqueue, hput⟩ | ⟨d, m, hqueue, hput⟩⟩ :=
        (ServerMove.of_step hs).client_queue
      · exact ⟨by rw [hqueue, hput]; exact (h c).suffix,
          by rw [hclient, hqueue, hput]; exact (h c).unmarked⟩
      · by_cases hcd : c = d
        · subst hcd
          have hq : s'.queue c = s.queue c ++ [m] := by rw [hqueue, Function.update_self]
          have hp : s'.put c = s.put c ++ [m] := by rw [hput, Function.update_self]
          obtain ⟨taken, htaken⟩ := (h c).suffix
          exact ⟨⟨taken, by rw [hq, hp, ← htaken, List.append_assoc]⟩,
            fun _ hnil => absurd (hq.symm.trans hnil) (List.append_ne_nil_of_right_ne_nil _ nofun)⟩
        · have hq : s'.queue c = s.queue c := by rw [hqueue, Function.update_of_ne hcd]
          have hp : s'.put c = s.put c := by rw [hput, Function.update_of_ne hcd]
          exact ⟨by rw [hq, hp]; exact (h c).suffix,
            by rw [hclient, hq, hp]; exact (h c).unmarked⟩
  | client d =>
      cases ClientMove.of_step hs with
      | send hpc =>
          refine ⟨(h c).suffix, fun hwait => (h c).unmarked ?_⟩
          by_cases hcd : c = d
          · rw [hcd, hpc]
            rfl
          · simpa only [Function.update_of_ne hcd] using hwait
      | @receive byteNum msgNum m ms hpc hq =>
          by_cases hcd : c = d
          · subst hcd
            obtain ⟨taken, htaken⟩ := (h c).suffix
            rw [hq] at htaken
            refine ⟨⟨taken ++ [m], ?_⟩, fun hwait hnil => ?_⟩
            · simp only [Function.update_self, ← htaken, List.append_assoc, List.cons_append,
                List.nil_append]
            · -- the message taken was the last one, and it has not ended the loop
              simp only [Function.update_self] at hwait hnil
              rw [hnil] at htaken
              rintro ⟨last, hlast, hnul⟩
              rw [← htaken, List.getLast?_concat, Option.some.injEq] at hlast
              exact head?_ne_of_waiting hwait (hlast ▸ hnul)
          · refine ⟨?_, fun hwait => ?_⟩
            · simp only [Function.update_of_ne hcd]
              exact (h c).suffix
            · simp only [Function.update_of_ne hcd] at hwait ⊢
              exact (h c).unmarked hwait

theorem init (res : Response) (c : ι) : Waits (init res F₀ : State ι) c :=
  ⟨List.nil_suffix, fun _ _ => not_marked_nil⟩

end Waits

/-! ### Every run -/

variable [DecidableEq ι]

/-- **The server lets go of every client in a run in which the requested file can be opened and the
end marker can be sent.**  This is so whatever else fails and whatever the other processes do, and
the first of the two calls to fail leaves a descriptor behind; with clients that run the client
program, a client that is served has something in its queue while it waits. -/
theorem released_of_releases (file : ι → List Byte) (res : Response) (F₀ : Finset ℕ) :
    (∀ s, Runs.ReachableVia (openStep file) OpenReleases (init res F₀) s →
      s.Released F₀ ∧ ∀ a s', openStep file s a = some s' → ¬ OpenReleases s a → ¬ s'.Released F₀) ∧
    ∀ s, Runs.ReachableVia (step file) ActReleases (init res F₀) s → s.Released F₀ ∧
      (s.server = .receive → ∀ c ∈ s.served, (s.client c).waiting = true → s.queue c ≠ []) := by
  refine ⟨fun s h => ?_, fun s h => ?_⟩
  · have hkeeps : Keeps F₀ s :=
      h.invariant (fun _ _ _ hi hok hs => hi.of_openStep hok hs) (Keeps.init res)
    refine ⟨hkeeps.released, fun a s' hs hbad => ?_⟩
    cases a with
    | server r => exact hkeeps.not_released_of_serverStep hbad hs
    | request c => exact absurd trivial hbad
    | drain c => exact absurd trivial hbad
  · have hkeeps : Keeps F₀ s :=
      h.invariant (fun _ _ _ hi hok hs => hi.of_step hok hs) (Keeps.init res)
    have hwaits : ∀ c, Waits s c :=
      h.reachable.invariant (fun _ _ _ hi hs => Waits.of_step hi hs) (Waits.init res)
    refine ⟨hkeeps.released, fun hpc c hc hwait hnil => ?_⟩
    exact (hwaits c).unmarked hwait hnil ((hkeeps.released hpc).2 c hc)

/-- One request for a file of one byte. -/
def smallFile : Unit → List Byte := fun _ => [97]

/-- The client asks, and the server does the whole of its loop. -/
def served : List (Act Unit) :=
  [.client (), .server (.ok 0), .server (.ok 4), .server (.ok 5), .server (.ok 1), .server (.ok 0),
    .server (.ok 0), .server (.ok 0), .server (.ok 0), .server (.ok 0), .server (.ok 0),
    .server (.ok 0)]

theorem released_of_releases_smallFile :
    ∃ s, Runs.ReachableVia (step smallFile) ActReleases (init .zero {0, 1, 2, 3}) s ∧
      s.server = .receive ∧ s.fds = {0, 1, 2, 3} ∧ Marked (s.put ()) ∧ s.queue () ≠ [] := by
  have hend : (Runs.run (fun s a => if ActReleases s a then step smallFile s a else none)
      (init .zero {0, 1, 2, 3}) served).map (fun s => (s.server, s.served, s.client ())) =
        some (.receive, [()], .recv 0 0) := by
    decide
  obtain ⟨s, hs, hpcs⟩ := Option.map_eq_some_iff.1 hend
  obtain ⟨hpc, hserved, hclient⟩ : s.server = .receive ∧ s.served = [()] ∧
    s.client () = .recv 0 0 := by
    simpa using hpcs
  have hvia := Runs.ReachableVia.of_run hs
  obtain ⟨hrel, hqueue⟩ := (released_of_releases smallFile .zero {0, 1, 2, 3}).2 s hvia
  have hmem : () ∈ s.served := by rw [hserved]; exact List.mem_singleton_self ()
  exact ⟨s, hvia, hpc, (hrel hpc).1, (hrel hpc).2 () hmem,
    hqueue hpc () hmem (by rw [hclient]; rfl)⟩

/-- The client asks, and the `open` of the file it has asked for fails. -/
def missingFile : List (Act Unit) :=
  [.client (), .server (.ok 0), .server (.ok 4), .server .fail]

/-- **A client that asks for a missing file waits for ever**: nothing was put into its queue, its
queue is still open in the server, and neither of the two can take a step. -/
theorem exists_unreleased_missingFile :
    ∃ s, Runs.Reachable (step smallFile) (init .zero {0, 1, 2, 3}) s ∧ s.server = .receive ∧
      () ∈ s.served ∧ s.put () = [] ∧ s.fds = {0, 1, 2, 3, 4} ∧ s.client () = .recv 0 0 ∧
      ¬ s.Released {0, 1, 2, 3} := by
  have hend : (Runs.run (step smallFile) (init .zero {0, 1, 2, 3}) missingFile).map
      (fun s => (s.server, s.served, (s.put ()).length, s.fds, s.client ())) =
        some (.receive, [()], 0, {0, 1, 2, 3, 4}, .recv 0 0) := by
    decide
  obtain ⟨s, hs, hpcs⟩ := Option.map_eq_some_iff.1 hend
  obtain ⟨hpc, hserved, hput, hfds, hclient⟩ : s.server = .receive ∧ s.served = [()] ∧
    s.put () = [] ∧
      s.fds = {0, 1, 2, 3, 4} ∧ s.client () = .recv 0 0 := by simpa using hpcs
  refine ⟨s, .of_run hs,
    hpc, by rw [hserved]; exact List.mem_singleton_self (), hput, hfds, hclient, ?_⟩
  intro hrel
  rw [(hrel hpc).1] at hfds
  exact absurd hfds (by decide)

end MqFile
