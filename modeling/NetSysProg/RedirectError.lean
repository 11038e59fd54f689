/-
**An input file that cannot be opened (`HW5/part2`).**

`redirect_in` does not look at what `open` returns.  It duplicates and closes the descriptor `-1`,
which fails without consequences, and returns `0` like after a success; the `-1` of its comment is
what it returns when there is no `<` at all.  `run_command` does not look at either.  So the command
of the line is executed with the input that the shell has, unless something else stands in its way.

Main definitions:

* `Shell.InFails` — the file of the first `<` is missing or cannot be opened;
* `Shell.Returns` — the result of `redirect_in`, the vector and the process after it;
* `Shell.Reports` — the result is that of an error, and not that of a line without `<`;
* `Shell.StopsTheCommand` — the error is reported and in no interleaving is anything executed.

Main results:

* `Shell.returns_redirectIn_failed` — **`redirect_in` returns `0`** and leaves the input as it was;
* `Shell.comes_pipeAndExec` — when `pipe_and_exec` comes to an `execvp`;
* `Shell.not_stopsTheCommand` — **a failed redirection never stops the command**, and when something
  is executed.
-/

import NetSysProg.ShellMalformed

set_option relaxedAutoImplicit false
set_option autoImplicit false

namespace Shell

open Processes

/-- The file behind the first `<` is missing or cannot be opened. -/
def InFails (env : Env) (ts : List String) : Prop :=
  "<" ∈ ts ∧ ∀ file, ts[ts.idxOf "<" + 1]? = some file → env.openErr file .read ≠ none

/-- `redirect_in` returns `r`, with the vector `argv'` and the process `d` after it, whatever its
caller does then. -/
def Returns (env : Env) (argv : Argv) (c : Ctx) (r : ℤ) (argv' : Argv) (d : Ctx) : Prop :=
  ∀ next, Becomes env (redirectIn argv next) c (next r argv') d

/-- The result is that of an error, with an error number, and no line without `<` has it. -/
structure Reports (env : Env) (c : Ctx) (r : ℤ) (d : Ctx) : Prop where
  returned : r = -1
  errno_set : d.errno ≠ 0
  distinct : ∀ argv₀ r₀ argv₀' d₀, "<" ∉ tokens argv₀ → Returns env argv₀ c r₀ argv₀' d₀ →
    (r₀, d₀.errno) ≠ (r, d.errno)

/-- The process that `run_command` forks, at its start. -/
def atStart (table : Table) : Ctx := ⟨[], 0, 0, table, 0⟩

/-- In some interleaving of the processes that come of the line, one is about to call `execvp`. -/
def Executes (env : Env) (table : Table) (argv : Argv) : Prop :=
  ∃ is s, Runs.run (step env) (start (commandChild argv) table) is = some s ∧
    ∃ x ∈ s.running, x.1.atExec = true

/-- **The failed redirection stops the command**: `redirect_in` reports it and nothing is
executed. -/
def StopsTheCommand (env : Env) (table : Table) (argv : Argv) : Prop :=
  (∃ r argv' d, Returns env argv (atStart table) r argv' d ∧ Reports env (atStart table) r d) ∧
    ¬ Executes env table argv

/-! ### `redirect_in` -/

/-- The file behind the first `<`, as `redirect_in` finds it. -/
theorem openFile_of_inFails {env : Env} {argv : Argv} (h : InFails env (tokens argv)) (c : Ctx) :
    ∃ e, c.openFile env (cell argv (search "<" argv + 1)) .read = (-1, { c with errno := e }) := by
  obtain ⟨hmem, hfile⟩ := h
  have hlt := List.idxOf_lt_length_of_mem hmem
  have hcell : cell argv (search "<" argv + 1) = (tokens argv)[(tokens argv).idxOf "<" + 1]? := by
    rw [search_eq, cell_eq (by omega)]
  rw [← hcell] at hfile
  cases hname : cell argv (search "<" argv + 1) with
  | none => exact ⟨EFAULT, rfl⟩
  | some file =>
      obtain ⟨e, he⟩ := Option.ne_none_iff_exists'.1 (hfile file hname)
      exact ⟨e, by simp only [Ctx.openFile, he]⟩

/-- **`redirect_in` returns `0`** when it could not open the file, and nothing has changed but the
vector and `errno`. -/
theorem returns_redirectIn_failed {env : Env} {argv : Argv}
    (h : InFails env (tokens argv)) (c : Ctx) :
    Returns env argv c 0 (argv.set (search "<" argv) none) { c with errno := EBADF } := by
  intro next
  have hcell : cell argv (search "<" argv) ≠ none := fun hnone => cell_search_eq_none.1 hnone h.1
  obtain ⟨e, hopen⟩ := openFile_of_inFails h ({ c with errno := 0 } : Ctx)
  have hdup : ∀ c' : Ctx, c'.dup2 (-1) 0 = (-1, { c' with errno := EBADF }) :=
    fun c' => if_pos (Or.inl (by decide))
  have hclose : ∀ c' : Ctx, c'.close (-1) = { c' with errno := EBADF } :=
    fun c' => if_pos (Or.inl (by decide))
  simp only [redirectIn, if_neg hcell]
  refine (Becomes.setErrno 1 _ c).trans <| (Becomes.setErrno 0 _ _).trans <|
    (Becomes.openFile _ .read _ _).trans ?_
  rw [hopen]
  refine (Becomes.dup2 _ 0 _ _).trans ?_
  rw [hdup]
  have hlast := @Becomes.close env (-1) (next 0 (argv.set (search "<" argv) none))
    { c with errno := EBADF }
  rwa [hclose] at hlast

/-- The result of `redirect_in` is determined. -/
theorem Returns.unique {env : Env} {argv argv' argv'' : Argv} {c d d' : Ctx} {r r' : ℤ}
    (h : Returns env argv c r argv' d) (h' : Returns env argv c r' argv'' d') : r = r' := by
  have hleaves := (h fun r _ => .exit r).leaves.symm.trans (h' fun r _ => .exit r).leaves
  simp only [leaves, List.cons.injEq, Ended.exited.injEq] at hleaves
  exact hleaves.1.2

/-! ### `pipe_and_exec` -/

/-- **When `pipe_and_exec` comes to an `execvp`**: without a `|`, or when nothing is missing next to
the first one and neither `pipe` nor `fork` fails. -/
theorem comes_pipeAndExec {env : Env} {argv : Argv} {c : Ctx} :
    Comes env (pipeAndExec argv) c ↔
      "|" ∉ tokens argv ∨
        (¬ AtEdge (tokens argv) ∧ env.pipeErr c.name = none ∧ env.forkErr c.name = none) := by
  by_cases hmem : "|" ∈ tokens argv
  · by_cases hedge : AtEdge (tokens argv)
    · have hindex : pipePresent argv = -1 := by
        rw [pipePresent_eq, if_neg (by simpa using hmem), if_pos hedge]
      rw [pipeAndExec, if_pos hindex]
      exact iff_of_false (fun h => h) (by simp [hmem, hedge])
    · constructor
      · intro hcomes
        refine Or.inr ⟨hedge, ?_⟩
        obtain ⟨hindex, hpos⟩ := pipePresent_middle hmem hedge
        rw [pipeAndExec, hindex, if_neg (by omega), dif_neg (by omega)] at hcomes
        cases hpipe : env.pipeErr c.name with
        | some e => simp [Comes, Ctx.pipe, hpipe] at hcomes
        | none =>
            cases hfork : env.forkErr c.name with
            | some e => simp [Comes, Ctx.pipe, hpipe, hfork, couldNotExec] at hcomes
            | none => exact ⟨rfl, rfl⟩
      · rintro (h | ⟨-, hpipe, hfork⟩)
        · exact absurd hmem h
        · exact comes_pipe hmem hedge hpipe hfork
  · rw [pipeAndExec, pipePresent_last hmem, if_neg (by decide), dif_pos rfl]
    exact iff_of_true trivial (Or.inl hmem)

/-! ### The whole line -/

/-- **When something is executed**, whether the input could be opened or not. -/
theorem executes_iff (env : Env) (table : Table) (argv : Argv) :
    Executes env table argv ↔
      OutOpens env ((tokens argv).takeWhile (· ≠ "<")) ∧
        ("|" ∉ seen (tokens argv) ∨
          (¬ AtEdge (seen (tokens argv)) ∧ env.pipeErr [] = none ∧ env.forkErr [] = none)) := by
  rw [Executes, exists_atExec_iff]
  rcases commandChild_cases env argv ⟨[], 0, 0, table, 0⟩ with
    ⟨hopens, argv', d, hbecomes, htokens⟩ | ⟨hfails, d, hbecomes⟩
  · have hname : d.name = [] := hbecomes.name
    rw [hbecomes.comes, comes_pipeAndExec, htokens, hname]
    exact (and_iff_right hopens).symm
  · rw [hbecomes.comes]
    exact iff_of_false (fun h => h) fun h => hfails h.1

/-- **A failed redirection never stops the command.**  What it returns is not what an error should
return; and something is executed exactly when the output file in front of the `<` can be opened and
no missing command or failing call is next to the first `|` there. -/
theorem not_stopsTheCommand {env : Env} {argv : Argv} (h : InFails env (tokens argv))
    (table : Table) :
    ¬ StopsTheCommand env table argv ∧
      (Executes env table argv ↔
        OutOpens env ((tokens argv).takeWhile (· ≠ "<")) ∧
          ("|" ∉ seen (tokens argv) ∨
            (¬ AtEdge (seen (tokens argv)) ∧ env.pipeErr [] = none ∧ env.forkErr [] = none))) := by
  refine ⟨?_, executes_iff env table argv⟩
  rintro ⟨⟨r, argv', d, hreturns, hreports⟩, -⟩
  have hzero := (returns_redirectIn_failed h (atStart table)).unique hreturns
  have hminus := hreports.returned
  omega

/-- Nothing can be opened for reading: `ENOENT`. -/
def noInput : Env :=
  ⟨fun _ mode => if mode = .read then some 2 else none, fun _ => none, fun _ => none, fun _ => none⟩

theorem inFails_missing : InFails noInput (tokens (vector ["cat", "<", "missing"])) := by
  refine ⟨by decide, fun file _ => ?_⟩
  simp [noInput]

theorem not_stopsTheCommand_cat :
    ¬ StopsTheCommand noInput (inheritedTable [true, true, true])
      (vector ["cat", "<", "missing"]) :=
  (not_stopsTheCommand inFails_missing _).1

/-- **`cat < missing` is executed**, and `redirect_in` has returned `0`. -/
theorem executes_cat :
    InFails noInput (tokens (vector ["cat", "<", "missing"])) ∧
      (∃ argv' d, Returns noInput (vector ["cat", "<", "missing"])
        (atStart (inheritedTable [true, true, true])) 0 argv' d) ∧
      Executes noInput (inheritedTable [true, true, true]) (vector ["cat", "<", "missing"]) ∧
      ¬ StopsTheCommand noInput (inheritedTable [true, true, true])
        (vector ["cat", "<", "missing"]) := by
  have hexec : Executes noInput (inheritedTable [true, true, true])
      (vector ["cat", "<", "missing"]) := by
    rw [executes_iff]
    exact ⟨fun h => absurd h (by decide), Or.inl (by decide)⟩
  exact ⟨inFails_missing, ⟨_, _, returns_redirectIn_failed inFails_missing _⟩, hexec,
    fun h => h.2 hexec⟩

end Shell
