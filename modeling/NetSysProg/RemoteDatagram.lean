/-
**Lookups by datagrams (`HW11/part3`).**

`lookup9` sends its query to `udp_server` and takes the next datagram that arrives for the answer.
The network delivers datagrams in any order and after any time, and it may duplicate them; it loses
and corrupts none here.  A datagram carries nothing that ties it to a call of `lookup`, so an answer
that has been duplicated, or the answer to a duplicated query, is taken for the answer to a later
query, even one about another word.

One client makes any number of lookups.  Every `sendto` and `recvfrom` is one step, and so is every
duplication in the network.  The log records what every call of `lookup` has returned; no step looks
at it.

Main definitions:

* `Remote.NetState`, `Remote.netStep` — the network, the server and the client;
* `Remote.IsAnswer` — a record is the server's answer to a query;
* `Remote.AsksAlone` — a lookup begins when nothing about another word is on its way.

Main results:

* `Remote.isAnswer_of_asksAlone` — **in every run whose lookups begin so, every lookup returns the
  answer to its own query**;
* `Remote.exists_foreign_answer` — a duplicated query is enough for a wrong answer.
-/

import NetSysProg.RemoteLookup
import NetSysProg.Runs

set_option relaxedAutoImplicit false
set_option autoImplicit false

namespace Remote

open CString
open Dict (Dictrec WORD TEXT Status)

/-! ### The network, the server and the client -/

/-- The next operation of `udp_server`. -/
inductive ServerPc
  /-- The `recvfrom` of the outer loop. -/
  | outer
  /-- `lookup` and the `sendto` of the answer. -/
  | serve
  /-- The `recvfrom` at the end of the inner loop. -/
  | inner
  deriving DecidableEq

/-- A record with a word in it, as the client's `main` reads it. -/
abbrev Query := { q : Dictrec // IsQuery q }

/-- What a call of `lookup` was asked, and what it has returned. -/
structure Returned where
  query : Dictrec
  status : Status
  record : Dictrec

/-- The datagrams in flight, the server with its record `dr`, and the query of the client's lookup
while it waits for an answer. -/
structure NetState where
  toServer : List (List Byte)
  toClient : List (List Byte)
  server : ServerPc
  dr : Dictrec
  client : Option Query
  log : List Returned

/-- Nothing has been sent; the server's record contains anything. -/
def NetState.initial (dr : Dictrec) : NetState where
  toServer := []
  toClient := []
  server := .outer
  dr := dr
  client := none
  log := []

inductive NetAct
  /-- The client begins a lookup. -/
  | call (q : Query)
  /-- A query, or an answer, is duplicated in the network. -/
  | duplicateQuery (i : ℕ)
  | duplicateAnswer (i : ℕ)
  /-- The server receives one of the queries in flight. -/
  | serverReceive (i : ℕ)
  | serverSend
  /-- The client receives one of the answers in flight, and its lookup returns. -/
  | clientReceive (i : ℕ)

/-- `memset(&dr, 0, sizeof(Dictrec))` -/
def zeroRecord : Dictrec := ⟨List.replicate WORD nul, List.replicate TEXT nul⟩

/-- The record of the server when it is about to receive. -/
def NetState.cleared (s : NetState) : Dictrec :=
  match s.server with
  | .outer => { s.dr with word := List.replicate WORD nul }
  | _ => s.dr

/-- One step. -/
def netStep (table : List Dictrec) (s : NetState) : NetAct → Option NetState
  | .call q =>
      match s.client with
      | none => some { s with toServer := s.toServer ++ [bytes q.1], client := some q }
      | some _ => none
  | .duplicateQuery i => (s.toServer[i]?).map fun d => { s with toServer := s.toServer ++ [d] }
  | .duplicateAnswer i => (s.toClient[i]?).map fun d => { s with toClient := s.toClient ++ [d] }
  | .serverReceive i =>
      match s.server, s.toServer[i]? with
      | .serve, _ => none
      | _, none => none
      | _, some d => some { s with
          toServer := s.toServer.eraseIdx i
          dr := receive s.cleared d
          server := .serve }
  | .serverSend =>
      match s.server, respond table s.dr with
      | .serve, .ok r => some { s with
          toClient := s.toClient ++ [bytes r]
          dr := zeroRecord
          server := .inner }
      | _, _ => none
  | .clientReceive i =>
      match s.client, s.toClient[i]? with
      | some q, some d =>
          match decode (receive q.1 d) with
          | .ok (status, r) => some { s with
              toClient := s.toClient.eraseIdx i
              client := none
              log := s.log ++ [⟨q.1, status, r⟩] }
          | _ => none
      | _, _ => none

/-! ### Answers and the condition -/

/-- The record `r` is the server's answer to the word of `q`. -/
def IsAnswer (table : List Dictrec) (q r : Dictrec) : Prop :=
  str r.word = str q.word ∧ ∃ t, answerText table q = .ok t ∧ str r.text = .ok t

/-- The datagrams in flight, and the query that the server is working on. -/
def NetState.underWay (s : NetState) : List (List Byte) :=
  s.toServer ++ s.toClient ++ if s.server = .serve then [bytes s.dr] else []

/-- **The condition on a step**: a lookup begins only when nothing about another word is under
way. -/
def AsksAlone (s : NetState) : NetAct → Prop
  | .call q => ∀ d ∈ s.underWay, str (ofBytes d).word = str q.1.word
  | _ => True

theorem ofBytes_bytes {q : Dictrec} (h : IsQuery q) : ofBytes (bytes q) = q := by
  have hrec := receive_bytes h (ofBytes [])
  simpa [receive, ofBytes, bytes] using hrec

/-- The text of the answer depends on the word of the query only. -/
theorem answerText_congr (table : List Dictrec) {q q' : Dictrec} (h : str q.word = str q'.word) :
    answerText table q = answerText table q' := by
  simp only [answerText, found, search_congr table h]

/-- The datagram is a query about the word `w`. -/
def Asks (w : List Byte) (d : List Byte) : Prop :=
  ∃ q, IsQuery q ∧ d = bytes q ∧ str q.word = .ok w

/-- The datagram is an answer about the word `w`. -/
def Answers (table : List Dictrec) (w : List Byte) (d : List Byte) : Prop :=
  ∃ r, IsQuery r ∧ d = bytes r ∧ str r.word = .ok w ∧ IsAnswer table r r

/-- Everything under way is about the word `w`, and what has been returned is right. -/
structure About (table : List Dictrec) (w : List Byte) (s : NetState) : Prop where
  queries : ∀ d ∈ s.toServer, Asks w d
  answers : ∀ d ∈ s.toClient, Answers table w d
  serving : s.server = .serve → IsQuery s.dr ∧ str s.dr.word = .ok w
  waiting : ∀ q ∈ s.client, str q.1.word = .ok w
  returned : ∀ e ∈ s.log, IsAnswer table e.query e.record

/-- What holds of everything in flight still holds when a datagram joins it. -/
theorem forall_mem_concat {α : Type} {p : α → Prop} {l : List α} {x : α} (h : ∀ y ∈ l, p y)
    (hx : p x) : ∀ y ∈ l ++ [x], p y :=
  List.forall_mem_append.2 ⟨h, List.forall_mem_singleton.2 hx⟩

/-- A lookup begins when everything under way is about its word. -/
theorem About.call {table : List Dictrec} {w : List Byte} {s : NetState} (h : About table w s)
    {q : Query} (hok : AsksAlone s (.call q)) {v : List Byte} (hv : str q.1.word = .ok v) :
    About table v { s with toServer := s.toServer ++ [bytes q.1], client := some q } := by
  have hword : ∀ {r : Dictrec}, IsQuery r → bytes r ∈ s.underWay → str r.word = .ok v := by
    intro r hr hmem
    rw [← hv, ← hok _ hmem, ofBytes_bytes hr]
  refine ⟨?_, ?_, ?_, ?_, h.returned⟩
  · refine forall_mem_concat (fun d hd => ?_) ⟨q.1, q.2, rfl, hv⟩
    obtain ⟨r, hr, rfl, -⟩ := h.queries d hd
    exact ⟨r, hr, rfl, hword hr (by simp [NetState.underWay, hd])⟩
  · intro d hd
    obtain ⟨r, hr, rfl, -, hans⟩ := h.answers d hd
    exact ⟨r, hr, rfl, hword hr (by simp [NetState.underWay, hd]), hans⟩
  · intro hserve
    change s.server = .serve at hserve
    have hdr := (h.serving hserve).1
    exact ⟨hdr, hword hdr (by simp [NetState.underWay, hserve])⟩
  · rintro q' ⟨⟩
    exact hv

/-- The server answers the query that it has received. -/
theorem answers_of_respond {table : List Dictrec} (htable : IsTable table) {w : List Byte}
    {q r : Dictrec} (hq : IsQuery q) (hw : str q.word = .ok w) (hr : respond table q = .ok r) :
    Answers table w (bytes r) := by
  obtain ⟨t, ht, hnul, hlt, hrespond⟩ := respond_of_query htable hq
  rw [hrespond] at hr
  cases hr
  have hsame : str (withText q t).word = str q.word := rfl
  have htext : answerText table (withText q t) = .ok t := by rw [answerText_congr table hsame, ht]
  exact ⟨withText q t, hq.withText hlt, rfl, hw, rfl, t, htext, str_withText hnul⟩

/-- What the client receives is an answer to its query. -/
theorem isAnswer_of_answers {table : List Dictrec} {w : List Byte} {q r : Dictrec} {d : List Byte}
    {status : Status} (hd : Answers table w d) (hq : str q.word = .ok w)
    (hr : decode (receive q d) = .ok (status, r)) : IsAnswer table q r := by
  obtain ⟨a, ha, rfl, hw, -, t, ht, htext⟩ := hd
  rw [receive_bytes ha] at hr
  obtain ⟨result, -, hres⟩ := Outcome.bind_eq_ok.1 hr
  cases hres
  have hword : str r.word = str q.word := by rw [hw, hq]
  exact ⟨hword, t, by rw [← answerText_congr table hword, ht], htext⟩

/-- **A step keeps everything about one word.** -/
theorem About.of_netStep {table : List Dictrec} (htable : IsTable table) {w : List Byte}
    {s s' : NetState} {a : NetAct} (h : About table w s) (hok : AsksAlone s a)
    (hs : netStep table s a = some s') : ∃ v, About table v s' := by
  cases a with
  | call q =>
      obtain ⟨v, hv⟩ := q.2.word
      simp only [netStep] at hs
      split at hs
      · cases hs
        exact ⟨v, h.call hok hv⟩
      · cases hs
  | duplicateQuery i =>
      obtain ⟨d, hd, rfl⟩ := Option.map_eq_some_iff.1 hs
      have hqueries := forall_mem_concat h.queries (h.queries d (List.mem_of_getElem? hd))
      exact ⟨w, hqueries, h.answers, h.serving, h.waiting, h.returned⟩
  | duplicateAnswer i =>
      obtain ⟨d, hd, rfl⟩ := Option.map_eq_some_iff.1 hs
      have hanswers := forall_mem_concat h.answers (h.answers d (List.mem_of_getElem? hd))
      exact ⟨w, h.queries, hanswers, h.serving, h.waiting, h.returned⟩
  | serverReceive i =>
      simp only [netStep] at hs
      split at hs
      · cases hs
      · cases hs
      · next d hd _ =>
          cases hs
          obtain ⟨q, hq, rfl, hw⟩ := h.queries d (List.mem_of_getElem? hd)
          refine ⟨w, fun d hd => h.queries d (List.mem_of_mem_eraseIdx hd),
            h.answers, ?_, h.waiting, h.returned⟩
          intro _
          simp only [receive_bytes hq]
          exact ⟨hq, hw⟩
  | serverSend =>
      simp only [netStep] at hs
      split at hs
      · next r hserve hr =>
          cases hs
          obtain ⟨hq, hw⟩ := h.serving hserve
          have hanswers := forall_mem_concat h.answers (answers_of_respond htable hq hw hr)
          exact ⟨w, h.queries, hanswers, by simp, h.waiting, h.returned⟩
      · cases hs
  | clientReceive i =>
      simp only [netStep] at hs
      split at hs
      · next q d hq hd =>
          split at hs
          · next status r hr =>
              cases hs
              have hright : IsAnswer table q.1 r :=
                isAnswer_of_answers (h.answers d (List.mem_of_getElem? hd)) (h.waiting q hq) hr
              exact ⟨w, h.queries, fun d hd => h.answers d (List.mem_of_mem_eraseIdx hd), h.serving,
                by simp, forall_mem_concat h.returned hright⟩
          · cases hs
      · cases hs

/-- **Every lookup returns the answer to its own query** in a run whose lookups begin when nothing
about another word is under way; for every table, and whatever the server's record contains at
first. -/
theorem isAnswer_of_asksAlone {table : List Dictrec} (htable : IsTable table) {dr : Dictrec}
    {s : NetState} (h : Runs.ReachableVia (netStep table) AsksAlone (.initial dr) s) :
    ∀ e ∈ s.log, IsAnswer table e.query e.record := by
  let I : NetState → Prop := fun s => ∃ w, About table w s
  have hstep : ∀ s a s', I s → AsksAlone s a → netStep table s a = some s' → I s' := by
    rintro s a s' ⟨w, hw⟩ hok hs
    exact hw.of_netStep htable hok hs
  have hinit : I (.initial dr) :=
    ⟨[], by simp [NetState.initial], by simp [NetState.initial], by simp [NetState.initial],
      by simp [NetState.initial], by simp [NetState.initial]⟩
  obtain ⟨w, hw⟩ := h.invariant hstep hinit
  exact hw.returned

instance (s : NetState) (a : NetAct) : Decidable (AsksAlone s a) :=
  match a with
  | .call q =>
      inferInstanceAs (Decidable (∀ d ∈ s.underWay, str (ofBytes d).word = str q.1.word))
  | .duplicateQuery _ | .duplicateAnswer _ | .serverReceive _ | .serverSend | .clientReceive _ =>
      inferInstanceAs (Decidable True)

/-! ### Two lookups -/

/-- The word `b`. -/
def wordB : List Byte := [98]

/-- A lookup of the word `a`, and one of the word `b`. -/
def askA : Query :=
  ⟨entry wordA [], (isEntry_entry (by decide) (by decide) (by decide) (by decide)).toIsQuery⟩

def askB : Query :=
  ⟨entry wordB [], (isEntry_entry (by decide) (by decide) (by decide) (by decide)).toIsQuery⟩

/-- The server receives and answers, and the client receives. -/
def answered : List NetAct := [.serverReceive 0, .serverSend, .clientReceive 0]

set_option maxRecDepth 2000 in
/-- Two lookups, one after the other. -/
theorem isAnswer_of_asksAlone_twice :
    ∃ s, Runs.ReachableVia (netStep []) AsksAlone (.initial zeroRecord) s ∧ s.log.length = 2 ∧
      ∀ e ∈ s.log, IsAnswer [] e.query e.record := by
  have hend : (Runs.run (fun s a => if AsksAlone s a then netStep [] s a else none)
      (.initial zeroRecord) ([.call askA] ++ answered ++ [.call askB] ++ answered)).map
      (fun s => s.log.length) = some 2 := by decide
  obtain ⟨s, hs, hlen⟩ := Option.map_eq_some_iff.1 hend
  have hvia := Runs.ReachableVia.of_run hs
  exact ⟨s, hvia, hlen, isAnswer_of_asksAlone (by simp [IsTable]) hvia⟩

set_option maxRecDepth 2000 in
/-- **A duplicated query is enough for a wrong answer**: the second answer to the first query is
taken for the answer to the second. -/
theorem exists_foreign_answer :
    ∃ s, Runs.Reachable (netStep []) (.initial zeroRecord) s ∧
      ∃ e ∈ s.log, ¬ IsAnswer [] e.query e.record := by
  have hend : (Runs.run (netStep []) (.initial zeroRecord)
      ([.call askA, .duplicateQuery 0] ++ answered ++ [.call askB] ++ answered)).map
      (fun s => s.log.map fun e => (str e.query.word, str e.record.word)) =
      some [(.ok wordA, .ok wordA), (.ok wordB, .ok wordA)] := by decide
  obtain ⟨s, hs, hlog⟩ := Option.map_eq_some_iff.1 hend
  have hmem : (Outcome.ok wordB, Outcome.ok wordA) ∈
      s.log.map fun e => (str e.query.word, str e.record.word) := by
    rw [hlog]
    decide
  obtain ⟨e, he, heq⟩ := List.mem_map.1 hmem
  obtain ⟨hquery, hrecord⟩ := Prod.mk.inj heq
  refine ⟨s, .of_run hs, e, he, ?_⟩
  rintro ⟨hword, -⟩
  rw [hquery, hrecord] at hword
  exact absurd hword (by decide)

end Remote
