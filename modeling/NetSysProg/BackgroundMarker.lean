/-
**The `&` of a command line (`HW3` and `HW5/part2`).**

`is_background` is the same in both shells: it looks for a `&` anywhere in the line.  What becomes
of the `&` differs.  The child of the first shell writes a null pointer over the first one, so that
it executes what is in front of it; the second shell, contrary to the comment in its `run_command`,
leaves the vector as it is and passes every `&` on as an argument.

Main definitions:

* `Marker.Law` — a `&` at the end, and only there, is taken off and makes the shell go on;
* `Marker.SkipsHW3`, `Marker.ExecsHW3`, `Marker.SkipsHW5`, `Marker.ExecsHW5` — what the two shells
  do with a line;
* `Marker.SameArgv` — both execute the same vector.

Main results:

* `Marker.execsHW3_iff`, `Marker.execsHW5_iff` — **what the two shells execute**;
* `Marker.law_iff` — **the law holds of the first shell for the lines without a `&` in front of the
  last token, and of the second one for the lines without any `&`**.
-/

import NetSysProg.ForegroundWait
import NetSysProg.PipelineWait
import Mathlib.Data.List.TakeWhile

set_option relaxedAutoImplicit false
set_option autoImplicit false

namespace Marker

open Processes Shell

/-! ### The law -/

/-- The tokens without a `&` at the end. -/
def withoutMarker (ts : List String) : List String :=
  if ts.getLast? = some "&" then ts.dropLast else ts

/-- **The law of the marker**, for a shell that goes on without waiting when `skips` holds and whose
child executes the vectors for which `execs` does. -/
structure Law (skips : Prop) (execs : List String → Prop) (ts : List String) : Prop where
  skips_iff : skips ↔ ts.getLast? = some "&"
  execs_tokens : execs (withoutMarker ts)

/-- The first shell goes on to its prompt when it has forked a child for the line. -/
def SkipsHW3 (ts : List String) : Prop :=
  ∀ (s s' : ForegroundWait.State) pid stat, s.shell = .forked (vector ts) pid →
    ForegroundWait.step s (.test stat) = some s' → s'.shell = .prompt

/-- The child that the first shell forks for the line executes `args`. -/
def ExecsHW3 (ts args : List String) : Prop :=
  ∀ (s s' : ForegroundWait.State) pid,
    ForegroundWait.step s (.command (vector ts) (.inl pid)) = some s' →
      ∃ c, s'.child pid = some c ∧ tokens c.argv = args

/-- The second shell returns from `run_command` when it has forked a child for the line. -/
def SkipsHW5 (ts : List String) : Prop :=
  ∀ env table (s s' : Wait.State), Wait.step env table (vector ts) s (.fork none) = some s' →
    s'.shell = .returned

/-- When no call fails, the child that the second shell forks for the line executes `args`, in every
order of the calls, and nothing else is executed. -/
def ExecsHW5 (ts args : List String) : Prop :=
  ∀ env table is s, env.NoFailure →
    Runs.run (Processes.step env) (start (commandChild (vector ts)) table) is = some s →
      s.running = [] → s.ended = [.execed [] args table]

/-- Both shells execute the same vector. -/
def SameArgv (ts : List String) : Prop := ∃ args, ExecsHW3 ts args ∧ ExecsHW5 ts args

/-! ### Tokens -/

/-- **`is_background`** finds a `&` anywhere. -/
theorem isBackground_vector (ts : List String) : isBackground (vector ts) = true ↔ "&" ∈ ts := by
  induction ts with
  | nil => simp [vector, isBackground]
  | cons t ts ih =>
      rw [vector, List.map_cons, List.cons_append, isBackground, List.mem_cons]
      by_cases ht : t = "&"
      · simp [ht]
      · rw [if_neg ht, ← vector, ih]
        exact (or_iff_right (Ne.symm ht)).symm

theorem isBackground_eq_false {ts : List String} (h : "&" ∉ ts) :
    isBackground (vector ts) = false := by
  rw [← Bool.not_eq_true, isBackground_vector]
  exact h

/-- The child of the first shell sees the tokens in front of the first `&`. -/
theorem tokens_childArgv (ts : List String) :
    tokens (ForegroundWait.childArgv (vector ts)) = ts.takeWhile (· ≠ "&") := by
  induction ts with
  | nil => rfl
  | cons t ts ih =>
      rw [vector, List.map_cons, List.cons_append, ForegroundWait.childArgv]
      by_cases ht : t = "&"
      · rw [if_pos ht, List.takeWhile_cons_of_neg (by simp [ht])]
        rfl
      · rw [if_neg ht, tokens, ← vector, ih, List.takeWhile_cons_of_pos (by simp [ht])]

/-- Whether there is a `&` in front of the last token decides what is left of a line with one. -/
theorem takeWhile_eq_withoutMarker {ts : List String} :
    ("&" ∈ ts ↔ ts.getLast? = some "&") ∧ ts.takeWhile (· ≠ "&") = withoutMarker ts ↔
      "&" ∉ ts.dropLast := by
  rcases List.eq_nil_or_concat ts with rfl | ⟨front, last, rfl⟩
  · simp [withoutMarker]
  · rw [List.concat_eq_append, List.dropLast_concat, List.getLast?_concat, withoutMarker,
      List.getLast?_concat, List.dropLast_concat]
    constructor
    · rintro ⟨hiff, hsame⟩ hmem
      have hlast : last = "&" := by simpa using hiff.1 (List.mem_append_left _ hmem)
      rw [if_pos (by rw [hlast]), List.takeWhile_append, if_neg] at hsame
      · have hno : "&" ∉ front.takeWhile (· ≠ "&") := fun h => by
          simpa using List.mem_takeWhile_imp h
        refine hno ?_
        rw [hsame]
        exact hmem
      · intro hlen
        have hfull : front.takeWhile (· ≠ "&") = front :=
          (List.takeWhile_prefix _).eq_of_length hlen
        have h := List.mem_takeWhile_imp (hfull.symm ▸ hmem)
        simp at h
    · intro hnot
      refine ⟨by simp [hnot, eq_comm], ?_⟩
      by_cases hlast : last = "&"
      · rw [if_pos (by rw [hlast]), hlast, List.takeWhile_append_of_pos]
        · simp
        · intro t ht
          rw [decide_eq_true_eq]
          rintro rfl
          exact hnot ht
      · rw [if_neg (by simpa using hlast), List.takeWhile_eq_self_iff]
        intro t ht
        rw [decide_eq_true_eq]
        rintro rfl
        rcases List.mem_append.1 ht with ht | ht
        · exact hnot ht
        · exact hlast (List.mem_singleton.1 ht).symm

/-! ### The first shell -/

/-- **The first shell does not wait** when there is a `&` anywhere. -/
theorem skipsHW3_iff (ts : List String) : SkipsHW3 ts ↔ "&" ∈ ts := by
  constructor
  · intro h
    by_contra hnot
    have hfg := isBackground_eq_false hnot
    have hprompt := h { ForegroundWait.init with shell := .forked (vector ts) 0 } _ 0 .other rfl
      (by simp only [ForegroundWait.step, hfg]; rfl)
    cases hprompt
  · intro h s s' pid stat hforked hstep
    simp only [ForegroundWait.step, hforked, (isBackground_vector ts).2 h, if_true] at hstep
    cases hstep
    rfl

/-- **The child of the first shell** executes the tokens in front of the first `&`. -/
theorem execsHW3_iff (ts args : List String) :
    ExecsHW3 ts args ↔ args = ts.takeWhile (· ≠ "&") := by
  constructor
  · intro h
    obtain ⟨c, hc, htokens⟩ := h ForegroundWait.init
      { ForegroundWait.init with
        shell := .forked (vector ts) 0
        children := [⟨0, ForegroundWait.childArgv (vector ts), none⟩] } 0 rfl
    obtain rfl : ⟨0, ForegroundWait.childArgv (vector ts), none⟩ = c := Option.some.inj hc
    rw [← htokens, tokens_childArgv]
  · rintro rfl s s' pid hstep
    cases ForegroundWait.Move.of_step hstep with
    | fork hfree heq =>
        refine ⟨⟨pid, ForegroundWait.childArgv (vector ts), none⟩, ?_, tokens_childArgv ts⟩
        have hnone : s.children.find? (·.pid = pid) = none := hfree
        rw [heq, ForegroundWait.State.child, List.find?_append, hnone]
        simp

/-! ### The second shell -/

theorem skipsHW5_iff (ts : List String) : SkipsHW5 ts ↔ "&" ∈ ts := by
  constructor
  · intro h
    by_contra hnot
    have hfg := isBackground_eq_false hnot
    have hreturned := h calm [] Wait.init _ (by simp only [Wait.step, Wait.init, hfg]; rfl)
    cases hreturned
  · intro h env table s s' hstep
    simp only [Wait.step, (isBackground_vector ts).2 h, if_true] at hstep
    split at hstep
    · cases hstep
      rfl
    · cases hstep

section HW5

variable {ts : List String} (hne : ts ≠ []) (hpipe : "|" ∉ ts) (hin : "<" ∉ ts) (hout : ">" ∉ ts)
include hne hpipe hin hout

/-- The child of the second shell, which neither redirects anything nor forks. -/
theorem leaves_commandChild {env : Env} (henv : env.NoFailure) (c : Ctx) :
    leaves env (commandChild (vector ts)) c = [.execed c.name ts c.table] := by
  have htokens := tokens_vector ts
  have hnone : ∀ t, t ∉ ts → cell (vector ts) (search t (vector ts)) = none :=
    fun t ht => cell_search_eq_none.2 (by rwa [htokens])
  have hfile : cell (vector ts) 0 ≠ none := by
    rw [cell_eq (Nat.zero_le _), htokens, ne_eq, List.getElem?_eq_none_iff]
    exact fun h => hne (List.length_eq_zero_iff.1 (Nat.le_zero.1 h))
  rw [commandChild, redirectIn, if_pos (hnone "<" hin), leaves, redirectOut,
    if_pos (hnone ">" hout), leaves, pipeAndExec, pipePresent_last (by rwa [htokens]),
    if_neg (by decide), dif_pos rfl, leaves_exec henv hfile, htokens]

/-- **The child of the second shell** executes all the tokens. -/
theorem execsHW5_iff (args : List String) : ExecsHW5 ts args ↔ args = ts := by
  constructor
  · intro h
    have hcalm : calm.NoFailure := ⟨fun _ => rfl, fun _ => rfl, fun _ => rfl⟩
    obtain ⟨is, s, hrun, hdone⟩ := exists_complete calm (start (commandChild (vector ts)) [])
    have hended := h calm [] is s hcalm hrun hdone
    have hperm := ended_perm_leaves hrun hdone
    rw [leaves_commandChild hne hpipe hin hout hcalm, hended] at hperm
    simpa using List.singleton_perm_singleton.1 hperm
  · rintro rfl env table is s henv hrun hdone
    have hperm := ended_perm_leaves hrun hdone
    rw [leaves_commandChild hne hpipe hin hout henv] at hperm
    exact List.perm_singleton.1 hperm

end HW5

/-! ### Both shells -/

/-- The first shell obeys the law exactly for the lines without a `&` in front of the last token. -/
theorem lawHW3_iff (ts : List String) :
    Law (SkipsHW3 ts) (ExecsHW3 ts) ts ↔ "&" ∉ ts.dropLast := by
  rw [← takeWhile_eq_withoutMarker]
  constructor
  · rintro ⟨hskips, hexecs⟩
    rw [skipsHW3_iff] at hskips
    exact ⟨hskips, ((execsHW3_iff ts _).1 hexecs).symm⟩
  · rintro ⟨hskips, hexecs⟩
    exact ⟨(skipsHW3_iff ts).trans hskips, (execsHW3_iff ts _).2 hexecs.symm⟩

/-- A line that loses nothing at its end does not end with a `&`. -/
theorem withoutMarker_eq_self {ts : List String} : withoutMarker ts = ts ↔
    ts.getLast? ≠ some "&" := by
  rw [withoutMarker]
  split
  · next h =>
      refine iff_of_false (fun heq => ?_) fun hne => hne h
      have hne : ts ≠ [] := by
        rintro rfl
        simp at h
      have hlen := congrArg List.length heq
      have hpos := List.length_pos_iff.2 hne
      rw [List.length_dropLast] at hlen
      omega
  · next h => exact iff_of_true rfl h

/-- The second shell obeys the law exactly for the lines without a `&`. -/
theorem lawHW5_iff {ts : List String} (hne : ts ≠ []) (hpipe : "|" ∉ ts) (hin : "<" ∉ ts)
    (hout : ">" ∉ ts) : Law (SkipsHW5 ts) (ExecsHW5 ts) ts ↔ "&" ∉ ts := by
  constructor
  · rintro ⟨hskips, hexecs⟩ hmem
    rw [execsHW5_iff hne hpipe hin hout, withoutMarker_eq_self] at hexecs
    exact hexecs (hskips.1 ((skipsHW5_iff ts).2 hmem))
  · intro hnot
    have hlast : ts.getLast? ≠ some "&" := fun h => hnot (List.mem_of_getLast? h)
    refine ⟨(skipsHW5_iff ts).trans (iff_of_false hnot hlast), ?_⟩
    rw [execsHW5_iff hne hpipe hin hout]
    exact withoutMarker_eq_self.2 hlast

theorem sameArgv_iff {ts : List String} (hne : ts ≠ []) (hpipe : "|" ∉ ts) (hin : "<" ∉ ts)
    (hout : ">" ∉ ts) : SameArgv ts ↔ "&" ∉ ts := by
  have hself : ts.takeWhile (· ≠ "&") = ts ↔ "&" ∉ ts := by
    rw [List.takeWhile_eq_self_iff]
    constructor
    · intro h hmem
      simpa using h "&" hmem
    · intro hnot t ht
      rw [decide_eq_true_eq]
      rintro rfl
      exact hnot ht
  rw [← hself]
  constructor
  · rintro ⟨args, h3, h5⟩
    exact ((execsHW3_iff ts args).1 h3).symm.trans ((execsHW5_iff hne hpipe hin hout args).1 h5)
  · intro h
    exact ⟨ts, (execsHW3_iff ts ts).2 h.symm, (execsHW5_iff hne hpipe hin hout ts).2 rfl⟩

/-- **The marker**: the shells obey the law and agree exactly on the lines without any `&`; the
first shell on its own obeys it when no `&` is in front of the last token. -/
theorem law_iff {cmd : String} {args : List String} (hpipe : "|" ∉ cmd :: args)
    (hin : "<" ∉ cmd :: args) (hout : ">" ∉ cmd :: args) (hcmd : cmd ≠ "&") :
    (Law (SkipsHW3 (cmd :: args)) (ExecsHW3 (cmd :: args)) (cmd :: args) ∧
        Law (SkipsHW5 (cmd :: args)) (ExecsHW5 (cmd :: args)) (cmd :: args) ∧
        SameArgv (cmd :: args) ↔ "&" ∉ args) ∧
      (Law (SkipsHW3 (cmd :: args)) (ExecsHW3 (cmd :: args)) (cmd :: args) ↔
        "&" ∉ (cmd :: args).dropLast) := by
  have hne : cmd :: args ≠ [] := List.cons_ne_nil cmd args
  have hmem : "&" ∉ cmd :: args ↔ "&" ∉ args := by
    rw [List.mem_cons, or_iff_right (Ne.symm hcmd)]
  rw [lawHW3_iff, lawHW5_iff hne hpipe hin hout, sameArgv_iff hne hpipe hin hout, hmem]
  refine ⟨⟨fun h => h.2.1, fun h => ⟨fun h' => ?_, h, h⟩⟩, Iff.rfl⟩
  exact hmem.2 h (List.dropLast_subset _ h')

/-- For `ls -l`, the shells obey the law and agree. -/
theorem law_ls :
    ("|" ∉ ["ls", "-l"] ∧ "<" ∉ ["ls", "-l"] ∧ ">" ∉ ["ls", "-l"] ∧ "ls" ≠ "&") ∧
      Law (SkipsHW3 ["ls", "-l"]) (ExecsHW3 ["ls", "-l"]) ["ls", "-l"] ∧
      Law (SkipsHW5 ["ls", "-l"]) (ExecsHW5 ["ls", "-l"]) ["ls", "-l"] ∧ SameArgv ["ls", "-l"] := by
  have hpipe : "|" ∉ ["ls", "-l"] := by simp
  have hin : "<" ∉ ["ls", "-l"] := by simp
  have hout : ">" ∉ ["ls", "-l"] := by simp
  have hcmd : "ls" ≠ "&" := by simp
  exact ⟨⟨hpipe, hin, hout, hcmd⟩, (law_iff hpipe hin hout hcmd).1.2 (by simp)⟩

/-- `sleep 1 &`: the second shell executes `sleep` with two arguments, the `&` among them. -/
theorem not_law_sleep :
    ExecsHW5 ["sleep", "1", "&"] ["sleep", "1", "&"] ∧
      ¬Law (SkipsHW5 ["sleep", "1", "&"]) (ExecsHW5 ["sleep", "1", "&"]) ["sleep", "1", "&"] ∧
      ¬SameArgv ["sleep", "1", "&"] := by
  have hne : ["sleep", "1", "&"] ≠ [] := List.cons_ne_nil _ _
  have hpipe : "|" ∉ ["sleep", "1", "&"] := by simp
  have hin : "<" ∉ ["sleep", "1", "&"] := by simp
  have hout : ">" ∉ ["sleep", "1", "&"] := by simp
  have hmem : ¬"&" ∉ ["sleep", "1", "&"] := by simp
  rw [execsHW5_iff hne hpipe hin hout, lawHW5_iff hne hpipe hin hout,
    sameArgv_iff hne hpipe hin hout]
  exact ⟨rfl, hmem, hmem⟩

end Marker
