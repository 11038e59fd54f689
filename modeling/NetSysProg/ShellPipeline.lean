/-
**Pipelines are wired correctly.**

`pipe_and_exec` works on the tokens up to the first null pointer and takes them apart at the first
`|`.  The parent of each fork becomes the command on the left with its output redirected to the
write end of the pipe, and the child inherits the rest of the work with its input redirected to the
read end; both close what they do not need.  So every process differs from the one that was started
in its standard input and output only.

Main definitions:

* `Shell.pipeline` — the tokens of a sequence of stages;
* `Shell.StageOf` — the name and the descriptors of the process of a stage;
* `Shell.Wired` — how the processes of a pipeline have ended.

Main results:

* `Shell.leaves_pipeAndExec` — **what comes of the program**, by induction on the stages;
* `Shell.pipeline_wired` — every interleaving of the processes ends with the pipeline wired.
-/

import NetSysProg.ShellModel
import Mathlib.Data.List.Nodup

set_option relaxedAutoImplicit false
set_option autoImplicit false

namespace Shell

open Processes

/-! ### What the loops see of a vector -/

theorem tokens_vector (ts : List String) : tokens (vector ts) = ts := by
  induction ts with
  | nil => rfl
  | cons t ts ih => exact congrArg (t :: ·) ih

theorem search_eq (token : String) (argv : Argv) :
    search token argv = (tokens argv).idxOf token := by
  induction argv with
  | nil => rfl
  | cons a argv ih =>
      cases a with
      | none => rfl
      | some t =>
          rw [search, tokens, ih]
          by_cases h : t = token
          · simp [h]
          · rw [if_neg h, List.idxOf_cons_ne _ h]

theorem cell_eq {argv : Argv} {i : ℕ} (h : i ≤ (tokens argv).length) :
    cell argv i = (tokens argv)[i]? := by
  induction argv generalizing i with
  | nil => rfl
  | cons a argv ih =>
      cases a with
      | none =>
          obtain rfl : i = 0 := by simpa [tokens] using h
          rfl
      | some t =>
          cases i with
          | zero => rfl
          | succ i =>
              rw [tokens, List.length_cons] at h
              rw [tokens, List.getElem?_cons_succ, ← ih (by omega), cell, List.getElem?_cons_succ]
              rfl

theorem tokens_take (argv : Argv) (n : ℕ) : tokens (argv.take n) = (tokens argv).take n := by
  induction argv generalizing n with
  | nil => simp [tokens]
  | cons a argv ih =>
      cases n with
      | zero => simp [tokens]
      | succ n =>
          cases a with
          | none => rfl
          | some t => simp [tokens, ih]

theorem tokens_drop {argv : Argv} {n : ℕ} (h : n ≤ (tokens argv).length) :
    tokens (argv.drop n) = (tokens argv).drop n := by
  induction argv generalizing n with
  | nil => simp [tokens]
  | cons a argv ih =>
      cases n with
      | zero => rfl
      | succ n =>
          cases a with
          | none => simp [tokens] at h
          | some t =>
              rw [tokens, List.length_cons] at h
              simpa [tokens] using ih (by omega)

theorem tokens_set_none (argv : Argv) (i : ℕ) :
    tokens (argv.set i none) = (tokens argv).take i := by
  induction argv generalizing i with
  | nil => simp [tokens]
  | cons a argv ih =>
      cases i with
      | zero => simp [tokens]
      | succ i =>
          cases a with
          | none => rfl
          | some t => simp [tokens, ih]

/-! ### Stages -/

/-- The tokens of a pipeline: its stages with a `|` between any two of them. -/
def pipeline (stages : List (List String)) : List String := ["|"].intercalate stages

/-- A stage has a command word, and none of its tokens is a `|`. -/
def IsStage (s : List String) : Prop := s ≠ [] ∧ "|" ∉ s

theorem pipeline_singleton (s : List String) : pipeline [s] = s := by
  simp [pipeline]

theorem pipeline_cons (s s' : List String) (ss : List (List String)) :
    pipeline (s :: s' :: ss) = s ++ "|" :: pipeline (s' :: ss) := by
  simp [pipeline, List.intercalate]

theorem pipeline_ne_nil {s : List String} (h : s ≠ []) (ss : List (List String)) :
    pipeline (s :: ss) ≠ [] := by
  cases ss with
  | nil => rwa [pipeline_singleton]
  | cons s' ss =>
      rw [pipeline_cons]
      simp

/-- There is no `|` in the last stage. -/
theorem pipePresent_last {argv : Argv} (h : "|" ∉ tokens argv) : pipePresent argv = 0 := by
  have hidx := List.idxOf_eq_length h
  rw [pipePresent]
  simp only [search_eq, hidx]
  rw [if_pos]
  rw [cell_eq (Nat.le_refl _), List.getElem?_eq_none (Nat.le_refl _)]

/-- In front of another stage there is one. -/
theorem pipePresent_stage {argv : Argv} {s ts : List String} (h : tokens argv = s ++ "|" :: ts)
    (hs : IsStage s) (hts : ts ≠ []) : pipePresent argv = s.length := by
  have hidx : (tokens argv).idxOf "|" = s.length := by
    rw [h, List.idxOf_append_of_notMem hs.2, List.idxOf_cons_self, Nat.add_zero]
  have hlen : (tokens argv).length = s.length + (ts.length + 1) := by
    rw [h, List.length_append, List.length_cons]
  have hpos := List.length_pos_iff.2 hs.1
  have hpos' := List.length_pos_iff.2 hts
  rw [pipePresent]
  simp only [search_eq, hidx]
  rw [if_neg, if_neg]
  · rw [cell_eq (by omega), h, List.getElem?_append_right (by omega), not_or]
    refine ⟨by omega, ?_⟩
    rw [Nat.add_sub_cancel_left, List.getElem?_cons_succ, List.getElem?_eq_none_iff]
    omega
  · rw [cell_eq (by omega), h, List.getElem?_append_right (Nat.le_refl _)]
    simp

/-! ### The processes of a pipeline -/

/-- The process of the `i`-th stage: the child of the one before. -/
def stageName (name : Name) (i : ℕ) : Name := name ++ List.replicate i 0

theorem stageName_succ (name : Name) (i : ℕ) :
    stageName (name ++ [0]) i = stageName name (i + 1) := by
  rw [stageName, stageName, List.replicate_succ, List.append_assoc, List.singleton_append]

/-- **The process of the `i`-th of `n` stages**: its standard input and output are ends of the pipes
to the stages next to it, and everything else is as it was. -/
structure StageOf (name : Name) (table : Table) (n i : ℕ) (p : Name × Table) : Prop where
  name_eq : p.1 = stageName name i
  stdin_eq : p.2.get 0 = if i = 0 then table.get 0 else some (.readEnd (stageName name (i - 1)) 0)
  stdout_eq : p.2.get 1 = if i + 1 = n then table.get 1 else some (.writeEnd (stageName name i) 0)
  other_eq : ∀ fd, 2 ≤ fd → p.2.get fd = table.get fd

/-- The processes execute the stages. -/
def execs (procs : List (Name × Table)) (stages : List (List String)) : List Ended :=
  List.zipWith (fun p s => .execed p.1 s p.2) procs stages

/-- What `pipe` does to the descriptors, and what closing and duplicating makes of it on both sides
of the fork. -/
structure Bridge (c : Ctx) (left right : Table) : Prop where
  left_get : ∀ fd, left.get fd = if fd = 1 then some (.writeEnd c.name c.pipes) else c.table.get fd
  right_get : ∀ fd, right.get fd = if fd = 0 then some (.readEnd c.name c.pipes) else c.table.get fd

/-- The parent of the fork, which writes to the pipe. -/
theorem leaves_parent {env : Env} (henv : env.NoFailure) {c : Ctx} {r w : ℕ} {R W : FileObj}
    (hr : c.table.get r = some R) (hw : c.table.get w = some W) (hwr : w ≠ r) (hw1 : w ≠ 1)
    {s : List String} (hs : s.head? ≠ none) :
    leaves env (.close r <| .dup2 w 1 fun _ => .close w <| .execvp s.head? s couldNotExec) c =
      [.execed c.name s (((c.table.remove r).put 1 W).remove w)] := by
  have hopen : (c.table.remove r).get w = some W := by simp [hw, hwr]
  have hopen' : ((c.table.remove r).put 1 W).get w = some W := by simp [hw, hwr, hw1]
  refine (leaves_close_of_open hr _).trans ?_
  refine (leaves_dup2_of_open hopen 1 _).trans ?_
  exact (leaves_close_of_open hopen' _).trans (leaves_exec henv hs _ _ _)

/-- The child of the fork, which reads from the pipe. -/
theorem leaves_child {env : Env} {c : Ctx} {r w : ℕ} {R W : FileObj}
    (hr : c.table.get r = some R) (hw : c.table.get w = some W) (hwr : w ≠ r) (hr0 : r ≠ 0)
    (next : Prog) :
    leaves env (.close w <| .dup2 r 0 fun _ => .close r next) c =
      leaves env next { c with table := ((c.table.remove w).put 0 R).remove r } := by
  have hopen : (c.table.remove w).get r = some R := by simp [hr, hwr.symm]
  have hopen' : ((c.table.remove w).put 0 R).get r = some R := by simp [hr, hwr.symm, hr0]
  refine (leaves_close_of_open hw _).trans ?_
  exact (leaves_dup2_of_open hopen 0 _).trans (leaves_close_of_open hopen' _)

/-- **The pipe case of `pipe_and_exec`**: the parent executes the left stage, and the child goes on
with what is behind the `|`. -/
theorem leaves_pipe {env : Env} (henv : env.NoFailure) {argv : Argv} {s ts : List String}
    (h : tokens argv = s ++ "|" :: ts) (hs : IsStage s) (hts : ts ≠ []) (c : Ctx)
    (h0 : c.table.get 0 ≠ none) (h1 : c.table.get 1 ≠ none) :
    ∃ left right, Bridge c left right ∧
      leaves env (pipeAndExec argv) c =
        .execed c.name s left ::
          leaves env (pipeAndExec (argv.drop (s.length + 1)))
            { c with name := c.name ++ [c.forks], forks := 0, pipes := 0, table := right } := by
  obtain ⟨o, ho⟩ := Option.ne_none_iff_exists'.1 h0
  obtain ⟨o', ho'⟩ := Option.ne_none_iff_exists'.1 h1
  have hpos := List.length_pos_iff.2 hs.1
  have hindex := pipePresent_stage h hs hts
  have hneg : ¬((s.length : ℤ) = -1) := by omega
  have hzero : ¬((s.length : ℤ) = 0) := by omega
  have hleft : tokens (argv.take s.length) = s := by
    rw [tokens_take, h, List.take_left]
  have hhead : s.head? ≠ none := by simpa using hs.1
  set R : FileObj := .readEnd c.name c.pipes with hR
  set W : FileObj := .writeEnd c.name c.pipes with hW
  set r := c.table.free with hr
  set w := (c.table.put r R).free with hw
  set t := (c.table.put r R).put w W with ht
  -- both ends have got descriptors of their own, which were not open before
  have hr0 : r ≠ 0 := Table.free_ne_of_get ho
  have hr1 : r ≠ 1 := Table.free_ne_of_get ho'
  have hrfree : c.table.get r = none := Table.get_free _
  have hwfree := Table.get_free (c.table.put r R)
  obtain ⟨hwr, hw0⟩ := Table.free_put_free R h0
  obtain ⟨-, hw1⟩ := Table.free_put_free R h1
  rw [← hr, ← hw] at hwr hw0 hw1
  rw [← hw, Table.get_put, if_neg hwr] at hwfree
  have htr : t.get r = some R := by simp [ht, hwr.symm]
  have htw : t.get w = some W := by simp [ht]
  refine ⟨((((t.remove r).put 1 W).remove w)), ((t.remove w).put 0 R).remove r, ⟨?_, ?_⟩, ?_⟩
  · intro fd
    simp only [Table.get_remove, Table.get_put, ht]
    split_ifs <;> simp_all
  · intro fd
    simp only [Table.get_remove, Table.get_put, ht]
    split_ifs <;> simp_all
  · have hparent (c' : Ctx) (hc' : c'.table = t) := @leaves_parent env henv c' r w R W
      (hc' ▸ htr) (hc' ▸ htw) hwr hw1 s hhead
    have hchild (c' : Ctx) (hc' : c'.table = t) := @leaves_child env c' r w R W
      (hc' ▸ htr) (hc' ▸ htw) hwr hr0
    rw [pipeAndExec, hindex, if_neg hneg, dif_neg hzero, Int.toNat_natCast]
    dsimp only
    rw [hleft, leaves, Ctx.pipe_of_ok (henv.pipe_ok c.name)]
    dsimp only
    rw [← hR, ← hr, ← hw, ← hW, ← ht, leaves_fork henv, if_pos hw1, if_pos hr0,
      hparent _ rfl, hchild _ rfl, List.singleton_append]
    rfl

/-- **What comes of `pipe_and_exec`**: a process for each stage. -/
theorem leaves_pipeAndExec {env : Env} (henv : env.NoFailure) (stages : List (List String))
    (hne : stages ≠ []) (hstages : ∀ s ∈ stages, IsStage s) (argv : Argv)
    (htokens : tokens argv = pipeline stages) (c : Ctx) (hforks : c.forks = 0)
    (hpipes : c.pipes = 0)
    (h0 : c.table.get 0 ≠ none) (h1 : c.table.get 1 ≠ none) :
    ∃ procs : List (Name × Table), procs.length = stages.length ∧
      leaves env (pipeAndExec argv) c = execs procs stages ∧
      ∀ i p, procs[i]? = some p → StageOf c.name c.table stages.length i p := by
  induction stages generalizing argv c with
  | nil => exact absurd rfl hne
  | cons s ss ih =>
      have hs : IsStage s := hstages s (by simp)
      cases ss with
      | nil =>
          rw [pipeline_singleton] at htokens
          have hcell : cell argv 0 ≠ none := by
            rw [cell_eq (Nat.zero_le _), htokens]
            simpa [List.getElem?_eq_none_iff] using hs.1
          refine ⟨[(c.name, c.table)], rfl, ?_, fun i p hp => ?_⟩
          · rw [pipeAndExec, pipePresent_last (by rw [htokens]; exact hs.2), if_neg (by decide),
              dif_pos rfl, leaves_exec henv hcell, htokens]
            rfl
          · obtain ⟨rfl, rfl⟩ : i = 0 ∧ (c.name, c.table) = p := by
              cases i with
              | zero => exact ⟨rfl, by simpa using hp⟩
              | succ i => simp at hp
            exact ⟨by simp [stageName], by simp, by simp, fun fd _ => rfl⟩
      | cons s' ss =>
          rw [pipeline_cons] at htokens
          have hs' : IsStage s' := hstages s' (by simp)
          have hts := pipeline_ne_nil hs'.1 ss
          obtain ⟨left, right, hbridge, hleaves⟩ := leaves_pipe henv htokens hs hts c h0 h1
          have hdrop : tokens (argv.drop (s.length + 1)) = pipeline (s' :: ss) := by
            rw [tokens_drop (by rw [htokens, List.length_append, List.length_cons]; omega), htokens]
            simp
          have hright0 : right.get 0 ≠ none := by simp [hbridge.right_get]
          have hright1 : right.get 1 ≠ none := by simpa [hbridge.right_get] using h1
          obtain ⟨procs, hlen, hexecs, hprocs⟩ := ih (by simp)
            (fun x hx => hstages x (List.mem_cons_of_mem s hx)) (argv.drop (s.length + 1)) hdrop
            { c with name := c.name ++ [c.forks], forks := 0, pipes := 0, table := right } rfl rfl
            hright0 hright1
          refine ⟨(c.name, left) :: procs, by rw [List.length_cons, hlen]; rfl, ?_, ?_⟩
          · rw [hleaves, hexecs]
            rfl
          · intro i p hp
            cases i with
            | zero =>
                obtain rfl : (c.name, left) = p := by simpa using hp
                refine ⟨by simp [stageName], by simp [hbridge.left_get], ?_, fun fd hfd => ?_⟩
                · simp [hbridge.left_get, stageName, hpipes]
                · exact (hbridge.left_get fd).trans (if_neg (by omega))
            | succ i =>
                have hstage := hprocs i p hp
                rw [hforks] at hstage
                refine ⟨hstage.name_eq.trans (stageName_succ _ i), ?_, ?_, fun fd hfd => ?_⟩
                · rw [hstage.stdin_eq, if_neg (Nat.succ_ne_zero i), Nat.add_sub_cancel]
                  split
                  · rename_i hi
                    simp [hi, hbridge.right_get, stageName, hpipes]
                  · rename_i hi
                    rw [stageName_succ, Nat.sub_add_cancel (by omega)]
                · rw [hstage.stdout_eq, stageName_succ]
                  simp [hbridge.right_get]
                · rw [hstage.other_eq fd hfd]
                  exact (hbridge.right_get fd).trans (if_neg (by omega))

/-! ### Every interleaving -/

/-- The descriptors that are open at the start. -/
def inheritedTable (opened : List Bool) : Table :=
  opened.mapIdx fun fd b => if b then some (.inherited fd) else none

theorem get_inheritedTable {opened : List Bool} {fd : ℕ} (h : opened[fd]? = some true) :
    (inheritedTable opened).get fd = some (.inherited fd) := by
  simp [inheritedTable, Table.get, h]

/-- **A wired pipeline**: there is one process for each stage and no other; each has executed the
tokens of its stage, with its descriptors set up for that place in the pipeline. -/
def Wired (table : Table) (stages : List (List String)) (ended : List Ended) : Prop :=
  ∃ procs : List (Name × Table), procs.length = stages.length ∧
    ended.Perm (execs procs stages) ∧ (procs.map Prod.fst).Nodup ∧
    ∀ i p, procs[i]? = some p → StageOf [] table stages.length i p

theorem stageName_injective (name : Name) : Function.Injective (stageName name) := by
  intro i j h
  simpa [stageName] using congrArg List.length h

theorem nodup_names {table : Table} {n : ℕ} {procs : List (Name × Table)}
    (h : ∀ i p, procs[i]? = some p → StageOf [] table n i p) : (procs.map Prod.fst).Nodup := by
  have hmap : procs.map Prod.fst = (List.range procs.length).map (stageName []) := by
    refine List.ext_getElem? ?_
    intro i
    rw [List.getElem?_map, List.getElem?_map]
    by_cases hi : i < procs.length
    · rw [List.getElem?_eq_getElem hi, List.getElem?_range hi]
      exact congrArg some (h i _ (List.getElem?_eq_getElem hi)).name_eq
    · rw [List.getElem?_eq_none (by omega), List.getElem?_eq_none (by simpa using by omega)]
      rfl
  rw [hmap]
  exact List.Nodup.map (stageName_injective []) List.nodup_range

/-- **Pipelines are wired correctly.**  For every null-terminated vector of stages and every table
in which `0` and `1` are open, when no call fails: in every interleaving of the processes of
`pipe_and_exec` there is a bound on the number of calls, a process that is running can make its next
call, and when none is running any more the pipeline is wired. -/
theorem pipeline_wired {env : Env} (henv : env.NoFailure) {opened : List Bool}
    (h0 : opened[0]? = some true) (h1 : opened[1]? = some true) {stages : List (List String)}
    (hne : stages ≠ []) (hstages : ∀ s ∈ stages, IsStage s) {is : List ℕ} {s : Pool}
    (hrun : Runs.run (step env)
      (start (pipeAndExec (vector (pipeline stages))) (inheritedTable opened)) is = some s) :
    is.length ≤ remaining env
        (start (pipeAndExec (vector (pipeline stages))) (inheritedTable opened)) ∧
      (s.running ≠ [] → ∃ s', step env s 0 = some s') ∧
      (s.running = [] → Wired (inheritedTable opened) stages s.ended) := by
  have hcalls := run_calls hrun
  refine ⟨by omega, exists_step, ?_⟩
  intro hdone
  obtain ⟨procs, hlen, hexecs, hprocs⟩ := leaves_pipeAndExec henv stages hne hstages
    (vector (pipeline stages)) (tokens_vector _) ⟨[], 0, 0, inheritedTable opened, 0⟩ rfl rfl
    (by rw [get_inheritedTable h0]; simp) (by rw [get_inheritedTable h1]; simp)
  have hended := ended_perm_leaves hrun hdone
  rw [hexecs] at hended
  exact ⟨procs, hlen, hended, nodup_names hprocs, hprocs⟩

/-- The environment in which every call succeeds. -/
def calm : Env := ⟨fun _ _ => none, fun _ => none, fun _ => none, fun _ => none⟩

theorem calm_noFailure : calm.NoFailure := ⟨fun _ => rfl, fun _ => rfl, fun _ => rfl⟩

theorem pipeline_wired_twoStages :
    ∃ is s, Runs.run (step calm) (start (pipeAndExec (vector (pipeline [["ls", "-l"], ["wc"]])))
        (inheritedTable [true, true, true])) is = some s ∧
      Wired (inheritedTable [true, true, true]) [["ls", "-l"], ["wc"]] s.ended := by
  obtain ⟨is, s, hrun, hdone⟩ := exists_complete calm
    (start (pipeAndExec (vector (pipeline [["ls", "-l"], ["wc"]])))
      (inheritedTable [true, true, true]))
  have hstages : ∀ s ∈ [["ls", "-l"], ["wc"]], IsStage s := by
    intro s hs
    simp only [List.mem_cons, List.not_mem_nil, or_false] at hs
    rcases hs with rfl | rfl <;> exact ⟨by decide, by decide⟩
  exact ⟨is, s, hrun, (pipeline_wired calm_noFailure rfl rfl (by decide) hstages hrun).2.2 hdone⟩

end Shell
