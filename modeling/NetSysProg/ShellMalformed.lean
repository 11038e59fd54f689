/-
**Malformed pipelines: what is noticed before anything runs (`HW5/part2`).**

`pipe_present` looks at the first `|` only, and `pipe_and_exec` has forked and executed what is in
front of it by the time it looks at the next one.  So a missing command is reported before anything
runs just when it is next to the first `|` of what the redirections have left of the line: when that
`|` is the first or the last token.  A missing command further to the right is found by a process
whose ancestors are already running.

The child that notices it exits with `EINVAL`, and the shell, if it waits for the child, reports
that: it calls `strerror`, which is not declared in `run_command.c`, and does not survive printing
the result.  So `run_command` comes back from such a line only when it does not wait, that is when
there is a `&`.

Main definitions:

* `Shell.HasEmptyStage` — a line with a missing command next to a `|`;
* `Shell.Rejected` — in every interleaving nothing is executed, the missing command is reported and
  the shell comes back from `run_command`;
* `Shell.seen` — the tokens that `pipe_and_exec` gets to see;
* `Shell.AtEdge` — the first `|` is the first or the last token.

Main results:

* `Shell.pipePresent_eq` — `pipe_present` in terms of the tokens;
* `Shell.becomes_redirectIn`, `Shell.redirectOut_cases` — the two passes, whatever the line;
* `Shell.rejected_iff` — **when a line is rejected**, for every vector and whatever fails;
* `Shell.not_rejected_trailing` — an empty stage that is noticed too late.
-/

import NetSysProg.ProcessTraces
import NetSysProg.ShellPipeline

set_option relaxedAutoImplicit false
set_option autoImplicit false

namespace Shell

open Processes

/-! ### The property -/

/-- There is a `|` that is the first or the last token or in front of another `|`. -/
def HasEmptyStage (ts : List String) : Prop :=
  ∃ pre post, ts = pre ++ "|" :: post ∧ (pre = [] ∨ post = [] ∨ post.head? = some "|")

/-- What `pipe_and_exec` prints about a missing command. -/
def missingCommand : String := "Missing command next to pipe in commandline.\n"

/-- What `waitpid` says of a process that has called `exit(code)`: the low byte of the code. -/
def exitStatus (code : ℤ) : Status := .exited (code % 256).toNat

/-- **The line is rejected**: in no interleaving does a process call `execvp`, and in every complete
one the process of the line ends alone, with the error of a missing command, and the shell comes
back from `run_command`. -/
structure Rejected (env : Env) (table : Table) (argv : Argv) : Prop where
  runs_nothing : ∀ is s, Runs.run (step env) (start (commandChild argv) table) is = some s →
    ∀ x ∈ s.running, x.1.atExec = false
  reports : ∀ is s, Runs.run (step env) (start (commandChild argv) table) is = some s →
    s.running = [] → s.ended = [.exited [] EINVAL] ∧
      missingCommand ∈ printed env (start (commandChild argv) table) is
  comes_back : ∀ is s, Runs.run (step env) (start (commandChild argv) table) is = some s →
    s.running = [] → ∀ code, .exited [] code ∈ s.ended → afterFork argv (exitStatus code) = .ok ()

/-- What a rejected program comes to, without an order between its processes. -/
def Rejects (env : Env) (p : Prog) (c : Ctx) : Prop :=
  ¬ Comes env p c ∧ leaves env p c = [.exited c.name EINVAL] ∧ missingCommand ∈ messages env p c

/-- **The shell outlives the report of a missing command** only if it does not wait for the
child. -/
theorem afterFork_missing_command (argv : Argv) :
    afterFork argv (exitStatus EINVAL) = .ok () ↔ isBackground argv = true := by
  unfold afterFork
  split
  · rename_i hback
    exact iff_of_true rfl hback
  · rename_i hback
    refine iff_of_false ?_ hback
    rw [report_eq_ok_iff]
    decide

/-- It does not depend on the interleaving. -/
theorem rejected_iff_rejects {env : Env} {table : Table} {argv : Argv} :
    Rejected env table argv ↔
      Rejects env (commandChild argv) ⟨[], 0, 0, table, 0⟩ ∧ isBackground argv = true := by
  constructor
  · rintro ⟨hnothing, hreports, hback⟩
    obtain ⟨is, s, hrun, hdone⟩ := exists_complete env (start (commandChild argv) table)
    obtain ⟨hended, hprinted⟩ := hreports is s hrun hdone
    refine ⟨⟨fun hcomes => ?_, ?_⟩, ?_⟩
    · obtain ⟨is, s, hrun, x, hx, hat⟩ := exists_atExec_iff.2 hcomes
      rw [hnothing is s hrun x hx] at hat
      simp at hat
    · have hperm := ended_perm_leaves hrun hdone
      rw [hended] at hperm
      exact ⟨(List.singleton_perm.1 hperm).symm,
        (printed_perm_messages hrun hdone).mem_iff.1 hprinted⟩
    · refine (afterFork_missing_command argv).1 (hback is s hrun hdone EINVAL ?_)
      rw [hended]
      exact List.mem_singleton_self _
  · rintro ⟨⟨hcomes, hleaves, hmessages⟩, hback⟩
    have hends : ∀ is s, Runs.run (step env) (start (commandChild argv) table) is = some s →
        s.running = [] → s.ended = [.exited [] EINVAL] := by
      intro is s hrun hdone
      have hperm := ended_perm_leaves hrun hdone
      rw [hleaves] at hperm
      exact List.perm_singleton.1 hperm
    refine ⟨?_, ?_, ?_⟩
    · intro is s hrun x hx
      by_contra hat
      exact hcomes (exists_atExec_iff.1 ⟨is, s, hrun, x, hx, by simpa using hat⟩)
    · intro is s hrun hdone
      exact ⟨hends is s hrun hdone, (printed_perm_messages hrun hdone).mem_iff.2 hmessages⟩
    · intro is s hrun hdone code hcode
      rw [hends is s hrun hdone, List.mem_singleton] at hcode
      obtain rfl := (Ended.exited.inj hcode).2
      exact (afterFork_missing_command argv).2 hback

/-- What a process becomes is rejected exactly when it is. -/
theorem rejects_becomes {env : Env} {p q : Prog} {c d : Ctx} (h : Becomes env p c q d) :
    Rejects env p c ↔ Rejects env q d := by
  unfold Rejects
  rw [h.leaves, h.comes, h.messages, h.name]

/-! ### What the passes see -/

/-- The tokens in front of the first `t`. -/
theorem take_idxOf (t : String) (ts : List String) :
    ts.take (ts.idxOf t) = ts.takeWhile (· ≠ t) := by
  induction ts with
  | nil => rfl
  | cons a ts ih =>
      by_cases h : a = t
      · simp [h]
      · rw [List.idxOf_cons_ne _ h, List.take_succ_cons, ih,
          List.takeWhile_cons_of_pos (by simpa using h)]

theorem takeWhile_of_notMem {t : String} {ts : List String} (h : t ∉ ts) :
    ts.takeWhile (· ≠ t) = ts := by
  rw [← take_idxOf, List.idxOf_eq_length h, List.take_length]

/-- The cell at which a search ends is a null pointer when the token is not there. -/
theorem cell_search_eq_none {t : String} {argv : Argv} :
    cell argv (search t argv) = none ↔ t ∉ tokens argv := by
  rw [search_eq, cell_eq (List.idxOf_le_length), List.getElem?_eq_none_iff]
  constructor
  · intro hle hmem
    exact absurd (List.idxOf_lt_length_of_mem hmem) (by omega)
  · intro hnot
    exact Nat.le_of_eq (List.idxOf_eq_length hnot).symm

/-- A search that ends at a null pointer leaves the line as it is. -/
theorem takeWhile_tokens {t : String} {argv : Argv} (h : cell argv (search t argv) = none) :
    (tokens argv).takeWhile (· ≠ t) = tokens argv := takeWhile_of_notMem (cell_search_eq_none.1 h)

/-- A null pointer over the first `t` cuts the line there. -/
theorem tokens_cut (t : String) (argv : Argv) :
    tokens (argv.set (search t argv) none) = (tokens argv).takeWhile (· ≠ t) := by
  rw [tokens_set_none, search_eq, take_idxOf]

/-- **`redirect_in`** cuts the line at the first `<` and goes on, whether the file could be opened
or not. -/
theorem becomes_redirectIn (env : Env) (argv : Argv) (next : ℤ → Argv → Prog) (c : Ctx) :
    ∃ r argv' d, Becomes env (redirectIn argv next) c (next r argv') d ∧
      tokens argv' = (tokens argv).takeWhile (· ≠ "<") := by
  by_cases hnone : cell argv (search "<" argv) = none
  · refine ⟨-1, argv, { c with errno := 1 }, ?_, ?_⟩
    · simp only [redirectIn, if_pos hnone]
      exact .setErrno 1 _ c
    · rw [takeWhile_tokens hnone]
  · obtain ⟨d, hd⟩ : ∃ d, Becomes env (redirectIn argv next) c
        (next 0 (argv.set (search "<" argv) none)) d := by
      simp only [redirectIn, if_neg hnone]
      exact ⟨_, (Becomes.setErrno 1 _ c).trans <| (Becomes.setErrno 0 _ _).trans <|
        (Becomes.openFile _ .read _ _).trans <| (Becomes.dup2 _ 0 _ _).trans <| .close _ _ _⟩
    exact ⟨0, _, d, hd, tokens_cut "<" argv⟩

/-- The file behind the first `>`, if there is one, is there and can be opened. -/
def OutOpens (env : Env) (us : List String) : Prop :=
  ">" ∈ us → ∃ file, us[us.idxOf ">" + 1]? = some file ∧ env.openErr file .writeTruncate = none

/-- What `open` returns for the token behind the first `>`. -/
theorem openOut_cases (env : Env) {argv : Argv} (h : cell argv (search ">" argv) ≠ none) (c : Ctx) :
    (OutOpens env (tokens argv) ∧ ∃ file, cell argv (search ">" argv + 1) = some file ∧
      env.openErr file .writeTruncate = none) ∨
    (¬ OutOpens env (tokens argv) ∧
      (c.openFile env (cell argv (search ">" argv + 1)) .writeTruncate).1 = -1) := by
  have hmem : ">" ∈ tokens argv := by
    by_contra hnot
    exact h (cell_search_eq_none.2 hnot)
  have hlt := List.idxOf_lt_length_of_mem hmem
  have hfile : cell argv (search ">" argv + 1) = (tokens argv)[(tokens argv).idxOf ">" + 1]? := by
    rw [search_eq, cell_eq (by omega)]
  rw [OutOpens, imp_iff_right hmem, ← hfile]
  cases hcell : cell argv (search ">" argv + 1) with
  | none => exact Or.inr ⟨by simp, rfl⟩
  | some file =>
      cases herr : env.openErr file .writeTruncate with
      | some e =>
          refine Or.inr ⟨?_, by simp [Ctx.openFile, herr]⟩
          rintro ⟨file', hsome, hok⟩
          obtain rfl : file = file' := Option.some.inj hsome
          rw [herr] at hok
          cases hok
      | none => exact Or.inl ⟨⟨file, rfl, herr⟩, file, rfl, herr⟩

/-- The file behind the first `>` cannot be opened. -/
theorem becomes_redirectOut_exit {env : Env} {argv : Argv} (next : ℤ → Argv → Prog) (c : Ctx)
    (h : cell argv (search ">" argv) ≠ none)
    (hfail : (({ c with errno := 0 } : Ctx).openFile env (cell argv (search ">" argv + 1))
      .writeTruncate).1 = -1) :
    ∃ d, Becomes env (redirectOut argv next) c (.message "open" <| .exit 1) d := by
  refine ⟨(({ c with errno := 0 } : Ctx).openFile env (cell argv (search ">" argv + 1))
    .writeTruncate).2, ?_⟩
  simp only [redirectOut, if_neg h]
  refine (Becomes.setErrno 1 _ c).trans <| (Becomes.setErrno 0 _ _).trans <|
    (Becomes.openFile _ _ _ _).trans ?_
  rw [if_pos hfail]
  exact .refl _ _

/-- The file behind the first `>` can be opened. -/
theorem becomes_redirectOut {env : Env} {argv : Argv} (next : ℤ → Argv → Prog) (c : Ctx)
    (h : cell argv (search ">" argv) ≠ none) {file : String}
    (hfile : cell argv (search ">" argv + 1) = some file)
    (hopen : env.openErr file .writeTruncate = none) :
    ∃ d, Becomes env (redirectOut argv next) c (next 0 (argv.set (search ">" argv) none)) d := by
  set o : FileObj := .file file .writeTruncate
  set t := c.table.put c.table.free o with ht
  have hget : t.get c.table.free = some o := by simp [ht]
  have hfd : (c.table.free : ℤ) ≠ -1 := by omega
  have hreturns : ({ c with errno := 0 } : Ctx).openFile env (some file) .writeTruncate =
      ((c.table.free : ℤ), { c with table := t, errno := 0 }) := by
    simp only [Ctx.openFile, hopen]
    rfl
  have hdup : ({ c with table := t, errno := 0 } : Ctx).dup2 c.table.free 1 =
      (1, { c with table := t.put 1 o, errno := 0 }) := Ctx.dup2_of_open hget 1
  refine ⟨({ c with table := t.put 1 o, errno := 0 } : Ctx).close c.table.free, ?_⟩
  simp only [redirectOut, if_neg h, hfile]
  refine (Becomes.setErrno 1 _ c).trans <| (Becomes.setErrno 0 _ _).trans <|
    (Becomes.openFile _ _ _ _).trans ?_
  rw [hreturns]
  simp only [if_neg hfd]
  refine (Becomes.dup2 _ _ _ _).trans ?_
  rw [hdup, if_neg (by omega)]
  exact .close _ _ _

/-- **`redirect_out`** cuts the line at the first `>` and goes on, or it exits because the file is
not there or cannot be opened. -/
theorem redirectOut_cases (env : Env) (argv : Argv) (next : ℤ → Argv → Prog) (c : Ctx) :
    (OutOpens env (tokens argv) ∧ ∃ r argv' d,
      Becomes env (redirectOut argv next) c (next r argv') d ∧
      tokens argv' = (tokens argv).takeWhile (· ≠ ">")) ∨
    (¬ OutOpens env (tokens argv) ∧
      ∃ d, Becomes env (redirectOut argv next) c (.message "open" <| .exit 1) d) := by
  by_cases hnone : cell argv (search ">" argv) = none
  · have hnot := cell_search_eq_none.1 hnone
    refine Or.inl ⟨fun hmem => absurd hmem hnot, -1, argv, { c with errno := 1 }, ?_, ?_⟩
    · simp only [redirectOut, if_pos hnone]
      exact .setErrno 1 _ c
    · rw [takeWhile_tokens hnone]
  · rcases openOut_cases env hnone { c with errno := 0 } with ⟨hopens, file, hfile, hopen⟩ |
      ⟨hnot, hfail⟩
    · obtain ⟨d, hd⟩ := becomes_redirectOut next c hnone hfile hopen
      exact Or.inl ⟨hopens, 0, _, d, hd, tokens_cut ">" argv⟩
    · exact Or.inr ⟨hnot, becomes_redirectOut_exit next c hnone hfail⟩

/-! ### The first pipe -/

/-- The first `|` is the first or the last token. -/
def AtEdge (us : List String) : Prop :=
  "|" ∈ us ∧ (us.idxOf "|" = 0 ∨ us.idxOf "|" + 1 = us.length)

instance (us : List String) : Decidable (AtEdge us) := inferInstanceAs (Decidable (_ ∧ _))

/-- **`pipe_present`** in terms of the tokens. -/
theorem pipePresent_eq (argv : Argv) :
    pipePresent argv =
      if "|" ∉ tokens argv then 0
      else if AtEdge (tokens argv) then -1 else ((tokens argv).idxOf "|" : ℤ) := by
  by_cases hmem : "|" ∈ tokens argv
  · have hlt := List.idxOf_lt_length_of_mem hmem
    have hcell : cell argv ((tokens argv).idxOf "|") ≠ none := by
      rw [← search_eq]
      exact fun hnone => cell_search_eq_none.1 hnone hmem
    have hnext : cell argv ((tokens argv).idxOf "|" + 1) = none ↔
        (tokens argv).idxOf "|" + 1 = (tokens argv).length := by
      rw [cell_eq (by omega), List.getElem?_eq_none_iff]
      omega
    simp only [pipePresent, search_eq, hcell, hnext, AtEdge, hmem, not_true_eq_false, if_false,
      true_and]
  · simp only [hmem, not_false_eq_true, if_true]
    exact pipePresent_last hmem

/-- The pipe case of `pipe_and_exec`. -/
theorem pipePresent_middle {argv : Argv} (hmem : "|" ∈ tokens argv)
    (hedge : ¬ AtEdge (tokens argv)) :
    pipePresent argv = (tokens argv).idxOf "|" ∧ (tokens argv).idxOf "|" ≠ 0 := by
  rw [pipePresent_eq, if_neg (by simpa using hmem), if_neg hedge]
  exact ⟨rfl, fun hzero => hedge ⟨hmem, Or.inl hzero⟩⟩

/-- Next to the first `|` nothing is missing, and no call fails: the left command is executed. -/
theorem comes_pipe {env : Env} {argv : Argv} (hmem : "|" ∈ tokens argv)
    (hedge : ¬ AtEdge (tokens argv)) {c : Ctx} (hpipe : env.pipeErr c.name = none)
    (hfork : env.forkErr c.name = none) : Comes env (pipeAndExec argv) c := by
  obtain ⟨hindex, hpos⟩ := pipePresent_middle hmem hedge
  rw [pipeAndExec, hindex, if_neg (by omega), dif_neg (by omega)]
  simp only [Comes, Ctx.pipe, hpipe, hfork]
  refine Or.inl ?_
  split <;> trivial

/-- Next to the first `|` nothing is missing: a process calls `execvp`, or a call fails before. -/
theorem not_rejects_pipe {env : Env} {argv : Argv} (hmem : "|" ∈ tokens argv)
    (hedge : ¬ AtEdge (tokens argv)) (c : Ctx) : ¬ Rejects env (pipeAndExec argv) c := by
  obtain ⟨hindex, hpos⟩ := pipePresent_middle hmem hedge
  rintro ⟨hcomes, hleaves, hmessages⟩
  cases hpipe : env.pipeErr c.name with
  | some e =>
      rw [pipeAndExec, hindex, if_neg (by omega), dif_neg (by omega)] at hleaves
      simp only [leaves, Ctx.pipe, hpipe, List.cons.injEq, Ended.exited.injEq, EINVAL] at hleaves
      omega
  | none =>
      cases hfork : env.forkErr c.name with
      | some e =>
          rw [pipeAndExec, hindex, if_neg (by omega), dif_neg (by omega)] at hmessages
          simp only [messages, Ctx.pipe, hpipe, hfork, couldNotExec, missingCommand,
            List.mem_singleton] at hmessages
          exact absurd hmessages (by decide)
      | none => exact hcomes (comes_pipe hmem hedge hpipe hfork)

/-- **What `pipe_and_exec` rejects.** -/
theorem rejects_pipeAndExec {env : Env} {argv : Argv} {c : Ctx} :
    Rejects env (pipeAndExec argv) c ↔ AtEdge (tokens argv) := by
  by_cases hmem : "|" ∈ tokens argv
  · by_cases hedge : AtEdge (tokens argv)
    · have hindex : pipePresent argv = -1 := by
        rw [pipePresent_eq, if_neg (by simpa using hmem), if_pos hedge]
      refine iff_of_true ?_ hedge
      rw [pipeAndExec, if_pos hindex]
      exact ⟨fun h => h, rfl, List.mem_cons_self ..⟩
    · exact iff_of_false (not_rejects_pipe hmem hedge c) hedge
  · refine iff_of_false ?_ fun hedge => hmem hedge.1
    rintro ⟨hcomes, -, -⟩
    rw [pipeAndExec, pipePresent_last hmem, if_neg (by decide), dif_pos rfl] at hcomes
    exact hcomes trivial

/-! ### The whole line -/

/-- The tokens that `pipe_and_exec` gets to see: those in front of the first `<` and the first
`>`. -/
def seen (ts : List String) : List String := (ts.takeWhile (· ≠ "<")).takeWhile (· ≠ ">")

/-- What the two passes leave to `pipe_and_exec`. -/
theorem commandChild_cases (env : Env) (argv : Argv) (c : Ctx) :
    (OutOpens env ((tokens argv).takeWhile (· ≠ "<")) ∧
      ∃ argv' d, Becomes env (commandChild argv) c (pipeAndExec argv') d ∧
        tokens argv' = seen (tokens argv)) ∨
    (¬ OutOpens env ((tokens argv).takeWhile (· ≠ "<")) ∧
      ∃ d, Becomes env (commandChild argv) c (.message "open" <| .exit 1) d) := by
  obtain ⟨r, argv₁, c₁, hin, htokens₁⟩ := becomes_redirectIn env argv
    (fun _ argv => redirectOut argv fun _ argv => pipeAndExec argv) c
  rw [seen, ← htokens₁]
  rcases redirectOut_cases env argv₁ (fun _ argv => pipeAndExec argv) c₁ with
    ⟨hopens, r, argv₂, c₂, hout, htokens₂⟩ | ⟨hfails, d, hout⟩
  · exact Or.inl ⟨hopens, argv₂, c₂, hin.trans hout, htokens₂⟩
  · exact Or.inr ⟨hfails, d, hin.trans hout⟩

/-- What the child of a line rejects. -/
theorem rejects_commandChild (env : Env) (table : Table) (argv : Argv) :
    Rejects env (commandChild argv) ⟨[], 0, 0, table, 0⟩ ↔
      OutOpens env ((tokens argv).takeWhile (· ≠ "<")) ∧ AtEdge (seen (tokens argv)) := by
  rcases commandChild_cases env argv ⟨[], 0, 0, table, 0⟩ with
    ⟨hopens, argv', d, hbecomes, htokens⟩ | ⟨hfails, d, hbecomes⟩
  · rw [rejects_becomes hbecomes, rejects_pipeAndExec, htokens]
    exact (and_iff_right hopens).symm
  · rw [rejects_becomes hbecomes]
    refine iff_of_false ?_ fun h => hfails h.1
    rintro ⟨-, hleaves, -⟩
    simp only [leaves, List.cons.injEq, Ended.exited.injEq, EINVAL] at hleaves
    omega

/-- **A line is rejected before anything runs exactly when** the file of its `>` can be opened, the
first `|` in front of the redirections is the first or the last of the tokens there, and the shell
does not wait for the line. -/
theorem rejected_iff (env : Env) (table : Table) (argv : Argv) :
    Rejected env table argv ↔
      (OutOpens env ((tokens argv).takeWhile (· ≠ "<")) ∧ AtEdge (seen (tokens argv))) ∧
        isBackground argv = true := by
  rw [rejected_iff_rejects, rejects_commandChild]

/-- **The `|` at the end of `ls | wc |` is not noticed in time**: it is not the first one, and a
process calls `execvp`. -/
theorem not_rejected_trailing :
    HasEmptyStage (tokens (vector ["ls", "|", "wc", "|"])) ∧
      ∃ is s, Runs.run (step calm) (start (commandChild (vector ["ls", "|", "wc", "|"]))
        (inheritedTable [true, true, true])) is = some s ∧
        ∃ x ∈ s.running, x.1.atExec = true := by
  refine ⟨⟨["ls", "|", "wc"], [], rfl, Or.inr (Or.inl rfl)⟩, exists_atExec_iff.2 ?_⟩
  rcases commandChild_cases calm (vector ["ls", "|", "wc", "|"])
      ⟨[], 0, 0, inheritedTable [true, true, true], 0⟩ with
    ⟨-, argv', d, hbecomes, htokens⟩ | ⟨hfails, -⟩
  · have hseen : seen (tokens (vector ["ls", "|", "wc", "|"])) = ["ls", "|", "wc", "|"] := by decide
    rw [hseen] at htokens
    refine hbecomes.comes.2 (comes_pipe ?_ ?_ rfl rfl)
    · rw [htokens]
      decide
    · rw [htokens]
      decide
  · refine absurd ?_ hfails
    intro hmem
    exact absurd hmem (by decide)

end Shell
