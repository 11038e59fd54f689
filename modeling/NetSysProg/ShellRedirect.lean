/-
**What redirections do to a command line.**

`redirect_in` and `redirect_out` write a null pointer over their operator.  The passes that follow
stop at the first null pointer, so that everything from the operator on is gone, whatever it was:
the rest of the stage, the stages after it, the other operator.  This module computes what is left
of a command line and what comes of the child of `run_command`; when that is the line as it stands
is the subject of `NetSysProg/ShellRedirectExact.lean`.

Main definitions:

* `Shell.Item`, `Shell.Stage` — the stages of a command line, with redirections among their words;
* `Shell.WellFormed` — at most one redirection of each kind, where a pipeline has room for it;
* `Shell.cut` — what is left of a line in front of the first redirection of a kind.

Main results:

* `Shell.cut_cases` — where a line is cut;
* `Shell.leaves_redirectIn`, `Shell.leaves_redirectOut` — the two passes;
* `Shell.leaves_commandChild` — **what comes of the child of `run_command`**.
-/

import NetSysProg.ShellPipeline

set_option relaxedAutoImplicit false
set_option autoImplicit false

namespace Shell

open Processes

/-! ### Command lines -/

/-- The kinds of redirection. -/
inductive Op
  | input
  | output
  deriving DecidableEq

def Op.token : Op → String
  | .input => "<"
  | .output => ">"

/-- How the file of a redirection is opened. -/
def Op.mode : Op → Mode
  | .input => .read
  | .output => .writeTruncate

/-- A word, or an operator with its file. -/
inductive Item
  | word (w : String)
  | redirect (op : Op) (file : String)
  deriving DecidableEq

/-- The word, or the name of the file. -/
def Item.name : Item → String
  | .word w => w
  | .redirect _ file => file

def Item.tokens : Item → List String
  | .word w => [w]
  | .redirect op file => [op.token, file]

def Item.words : Item → List String
  | .word w => [w]
  | .redirect _ _ => []

/-- The file, if this is a redirection of the kind. -/
def Item.fileOf (op : Op) : Item → Option String
  | .word _ => none
  | .redirect op' file => if op' = op then some file else none

/-- A stage of a command line: the command word and what follows it. -/
structure Stage where
  command : String
  items : List Item

namespace Stage

/-- The tokens of a stage. -/
def tokens (s : Stage) : List String := s.command :: s.items.flatMap Item.tokens

/-- The tokens of a stage other than the operators and their file names. -/
def words (s : Stage) : List String := s.command :: s.items.flatMap Item.words

/-- There is no redirection of this kind in the stage. -/
def Without (op : Op) (s : Stage) : Prop := ∀ file, Item.redirect op file ∉ s.items

end Stage

/-- The vector of tokens of a command line. -/
def lineVector (stages : List Stage) : Argv := vector (pipeline (stages.map Stage.tokens))

def IsOperator (t : String) : Prop := t = "|" ∨ t = "<" ∨ t = ">"

/-- No word and no file name is an operator. -/
def Stage.Named (s : Stage) : Prop :=
  ¬IsOperator s.command ∧ ∀ it ∈ s.items, ¬IsOperator it.name

/-- The files of a command line can be opened. -/
def Openable (env : Env) (stages : List Stage) : Prop :=
  ∀ s ∈ stages, ∀ op file, Item.redirect op file ∈ s.items → env.openErr file op.mode = none

/-! ### Cutting a line at a redirection -/

/-- What is left of a line in front of the first redirection of a kind. -/
def cut (op : Op) : List Stage → List Stage
  | [] => []
  | s :: ss =>
      if (s.items.findSome? (Item.fileOf op)).isSome then
        [⟨s.command, s.items.takeWhile fun it => (it.fileOf op).isNone⟩]
      else s :: cut op ss

/-- The file of the first redirection of a kind. -/
def firstFile (op : Op) (stages : List Stage) : Option String :=
  (stages.flatMap Stage.items).findSome? (Item.fileOf op)

theorem fileOf_eq_some {op : Op} {it : Item} {file : String} :
    it.fileOf op = some file ↔ it = .redirect op file := by
  cases it with
  | word w => simp [Item.fileOf]
  | redirect op' file' => by_cases h : op' = op <;> simp [Item.fileOf, h]

theorem fileOf_eq_none {op : Op} {it : Item} :
    it.fileOf op = none ↔ ∀ file, it ≠ .redirect op file := by
  rw [Option.eq_none_iff_forall_ne_some]
  exact forall_congr' fun file => not_congr fileOf_eq_some

/-- A stage has no redirection of a kind, or it has a first one. -/
theorem without_or_split (op : Op) (items : List Item) :
    (∀ file, Item.redirect op file ∉ items) ∨
      ∃ a file c, items = a ++ .redirect op file :: c ∧ ∀ file', Item.redirect op file' ∉ a := by
  induction items with
  | nil => exact .inl fun file => List.not_mem_nil
  | cons it items ih =>
      by_cases hit : ∃ file, it = .redirect op file
      · obtain ⟨file, rfl⟩ := hit
        exact .inr ⟨[], file, items, rfl, fun _ => List.not_mem_nil⟩
      · rw [not_exists] at hit
        rcases ih with h | ⟨a, file, c, rfl, ha⟩
        · left
          intro file hmem
          rcases List.mem_cons.1 hmem with heq | hmem
          · exact hit file heq.symm
          · exact h file hmem
        · right
          refine ⟨it :: a, file, c, rfl, ?_⟩
          intro file' hmem
          rcases List.mem_cons.1 hmem with heq | hmem
          · exact hit file' heq.symm
          · exact ha file' hmem

theorem findSome_of_without {op : Op} {items : List Item}
    (h : ∀ file, Item.redirect op file ∉ items) : items.findSome? (Item.fileOf op) = none := by
  rw [List.findSome?_eq_none_iff]
  intro it hit
  rw [fileOf_eq_none]
  rintro file rfl
  exact h file hit

theorem findSome_of_split {op : Op} {a : List Item} {file : String} {c : List Item}
    (ha : ∀ file', Item.redirect op file' ∉ a) :
    (a ++ .redirect op file :: c).findSome? (Item.fileOf op) = some file := by
  rw [List.findSome?_append, findSome_of_without ha]
  simp [Item.fileOf]

theorem takeWhile_of_split {op : Op} {a : List Item} {file : String} {c : List Item}
    (ha : ∀ file', Item.redirect op file' ∉ a) :
    (a ++ .redirect op file :: c).takeWhile (fun it => (it.fileOf op).isNone) = a := by
  rw [List.takeWhile_append_of_pos, List.takeWhile_cons_of_neg (by simp [Item.fileOf]),
    List.append_nil]
  intro it hit
  rw [Option.isNone_iff_eq_none, fileOf_eq_none]
  rintro file' rfl
  exact ha file' hit

theorem cut_cons_of_without {op : Op} {s : Stage} (h : s.Without op) (ss : List Stage) :
    cut op (s :: ss) = s :: cut op ss ∧ firstFile op (s :: ss) = firstFile op ss := by
  have hnone := findSome_of_without h
  constructor
  · rw [cut, hnone]
    rfl
  · rw [firstFile, List.flatMap_cons, List.findSome?_append, hnone, Option.none_or]
    rfl

theorem cut_cons_of_split {op : Op} {command : String} {a : List Item}
    (ha : Stage.Without op ⟨command, a⟩) (file : String) (c : List Item) (ss : List Stage) :
    cut op (⟨command, a ++ .redirect op file :: c⟩ :: ss) = [⟨command, a⟩] ∧
      firstFile op (⟨command, a ++ .redirect op file :: c⟩ :: ss) = some file := by
  constructor
  · rw [cut, findSome_of_split ha, takeWhile_of_split ha]
    rfl
  · rw [firstFile, List.flatMap_cons, List.findSome?_append, findSome_of_split ha]
    rfl

/-- **The first redirection of a line**: there is none and nothing is cut off, or the line is cut in
the stage that it stands in. -/
theorem cut_cases (op : Op) (stages : List Stage) :
    ((∀ s ∈ stages, s.Without op) ∧ cut op stages = stages ∧ firstFile op stages = none) ∨
      ∃ init command a file c ss,
        stages = init ++ ⟨command, a ++ .redirect op file :: c⟩ :: ss ∧
          (∀ s ∈ init, s.Without op) ∧ Stage.Without op ⟨command, a⟩ ∧
          cut op stages = init ++ [⟨command, a⟩] ∧ firstFile op stages = some file := by
  induction stages with
  | nil => exact .inl ⟨by simp, rfl, rfl⟩
  | cons s ss ih =>
      rcases without_or_split op s.items with hs | ⟨a, file, c, hs, ha⟩
      · obtain ⟨hcut, hfile⟩ := cut_cons_of_without hs ss
        rw [hcut, hfile]
        rcases ih with ⟨h, hcut', hfile'⟩ | ⟨init, command, a, file, c, ss', rfl, h,
          ha, hcut', hfile'⟩
        · exact .inl ⟨List.forall_mem_cons.2 ⟨hs, h⟩, congrArg (s :: ·) hcut', hfile'⟩
        · exact .inr ⟨s :: init, command, a, file, c, ss', rfl, List.forall_mem_cons.2 ⟨hs, h⟩, ha,
            congrArg (s :: ·) hcut', hfile'⟩
      · obtain ⟨command, items⟩ := s
        subst hs
        obtain ⟨hcut, hfile⟩ := cut_cons_of_split ha file c ss
        exact .inr ⟨[], command, a, file, c, ss, rfl, by simp, ha, hcut, hfile⟩

/-- A stage that is left is a stage of the line, or the front of one. -/
theorem mem_cut {op : Op} {stages : List Stage} {s : Stage} (h : s ∈ cut op stages) :
    s.Without op ∧ ∃ s' ∈ stages, s.command = s'.command ∧ s.items ⊆ s'.items := by
  rcases cut_cases op stages with ⟨hnone, hcut, -⟩ |
    ⟨init, command, a, file, c, ss, rfl, hinit, ha, hcut, -⟩
  · rw [hcut] at h
    exact ⟨hnone s h, s, h, rfl, List.Subset.refl _⟩
  · rw [hcut, List.mem_append, List.mem_singleton] at h
    rcases h with h | rfl
    · exact ⟨hinit s h, s, by simp [h], rfl, List.Subset.refl _⟩
    · exact ⟨ha, _, List.mem_append_right _ List.mem_cons_self, rfl, List.subset_append_left _ _⟩

theorem named_cut {op : Op} {stages : List Stage} (h : ∀ s ∈ stages, s.Named) :
    ∀ s ∈ cut op stages, s.Named := by
  intro s hs
  obtain ⟨-, s', hs', hcommand, hitems⟩ := mem_cut hs
  exact ⟨hcommand ▸ (h s' hs').1, fun it hit => (h s' hs').2 it (hitems hit)⟩

/-- The file of the first redirection of a kind is one that the line names. -/
theorem mem_of_firstFile {op : Op} {stages : List Stage} {file : String}
    (h : firstFile op stages = some file) : ∃ s ∈ stages, Item.redirect op file ∈ s.items := by
  obtain ⟨it, hit, hfile⟩ := List.exists_of_findSome?_eq_some h
  obtain ⟨s, hs, hit⟩ := List.mem_flatMap.1 hit
  exact ⟨s, hs, fileOf_eq_some.1 hfile ▸ hit⟩

theorem openable_cut {env : Env} {stages : List Stage} (h : Openable env stages) (op : Op) :
    Openable env (cut op stages) := by
  intro s hs op' file hmem
  obtain ⟨-, s', hs', -, hitems⟩ := mem_cut hs
  exact h s' hs' op' file (hitems hmem)

theorem cut_ne_nil {op : Op} {stages : List Stage} (h : stages ≠ []) : cut op stages ≠ [] := by
  rcases cut_cases op stages with ⟨-, hcut, -⟩ | ⟨init, command, a, file, c, ss, -, -, -, hcut, -⟩
  · rwa [hcut]
  · rw [hcut]
    simp

/-! ### The tokens of a line -/

theorem pipeline_cons_of_ne_nil (s : List String) {ss : List (List String)} (h : ss ≠ []) :
    pipeline (s :: ss) = s ++ "|" :: pipeline ss := by
  obtain ⟨s', ss, rfl⟩ := List.exists_cons_of_ne_nil h
  exact pipeline_cons s s' ss

theorem mem_pipeline {t : String} {ss : List (List String)} (h : t ∈ pipeline ss) :
    t = "|" ∨ ∃ s ∈ ss, t ∈ s := by
  induction ss with
  | nil => simp [pipeline] at h
  | cons s ss ih =>
      by_cases hne : ss = []
      · subst hne
        rw [pipeline_singleton] at h
        exact .inr ⟨s, by simp, h⟩
      · rw [pipeline_cons_of_ne_nil s hne, List.mem_append, List.mem_cons] at h
        rcases h with h | rfl | h
        · exact .inr ⟨s, by simp, h⟩
        · exact .inl rfl
        · rcases ih h with h | ⟨s', hs', h⟩
          · exact .inl h
          · exact .inr ⟨s', by simp [hs'], h⟩

/-- The tokens up to a place inside of a stage are those of the stages up to there. -/
theorem pipeline_split (init : List (List String)) (x y : List String) (ss : List (List String)) :
    ∃ rest, pipeline (init ++ (x ++ y) :: ss) = pipeline (init ++ [x]) ++ (y ++ rest) := by
  induction init with
  | nil =>
      by_cases hss : ss = []
      · exact ⟨[], by simp [hss, pipeline_singleton]⟩
      · refine ⟨"|" :: pipeline ss, ?_⟩
        rw [List.nil_append, List.nil_append, pipeline_cons_of_ne_nil _ hss, pipeline_singleton,
          List.append_assoc]
  | cons s init ih =>
      obtain ⟨rest, hrest⟩ := ih
      refine ⟨rest, ?_⟩
      rw [List.cons_append, List.cons_append, pipeline_cons_of_ne_nil s (by simp),
        pipeline_cons_of_ne_nil s (by simp), hrest, List.append_assoc, List.cons_append]

theorem Op.token_injective : Function.Injective Op.token := by
  intro op op' h
  cases op <;> cases op' <;> first | rfl | exact absurd h (by decide)

theorem Op.isOperator (op : Op) : IsOperator op.token := by
  cases op
  · exact .inr (.inl rfl)
  · exact .inr (.inr rfl)

/-- A line without redirections of a kind does not have its operator among its tokens. -/
theorem token_notMem {op : Op} {stages : List Stage} (h : ∀ s ∈ stages, s.Without op)
    (hnamed : ∀ s ∈ stages, s.Named) : op.token ∉ pipeline (stages.map Stage.tokens) := by
  intro hmem
  rcases mem_pipeline hmem with hbar | ⟨ts, hts, hmem⟩
  · exact absurd hbar (by cases op <;> decide)
  · obtain ⟨s, hs, rfl⟩ := List.mem_map.1 hts
    obtain ⟨hcommand, hitems⟩ := hnamed s hs
    rcases List.mem_cons.1 hmem with heq | hmem
    · exact hcommand (heq ▸ op.isOperator)
    · obtain ⟨it, hit, hmem⟩ := List.mem_flatMap.1 hmem
      have hname := hitems it hit
      cases it with
      | word w =>
          obtain rfl : op.token = w := by simpa [Item.tokens] using hmem
          exact hname op.isOperator
      | redirect op' file =>
          have hcases : op.token = op'.token ∨ op.token = file := by
            simpa [Item.tokens] using hmem
          rcases hcases with heq | rfl
          · exact h s hs file (Op.token_injective heq ▸ hit)
          · exact hname op.isOperator

/-! ### One pass -/

/-- What one of the two passes makes of the vector and of the process. -/
structure Passed (op : Op) (fd : ℕ) (mode : Mode) (stages : List Stage) (argv : Argv)
    (c c' : Ctx) : Prop where
  tokens_eq : tokens argv = pipeline ((cut op stages).map Stage.tokens)
  name_eq : c'.name = c.name
  forks_eq : c'.forks = c.forks
  pipes_eq : c'.pipes = c.pipes
  get_target : c'.table.get fd =
    ((firstFile op stages).map fun file => FileObj.file file mode).or (c.table.get fd)
  get_other : ∀ fd', fd' ≠ fd → c'.table.get fd' = c.table.get fd'

/-- **What a pass finds**: no operator, or the tokens in front of the first one and its file. -/
theorem search_cases (op : Op) {stages : List Stage} (hnamed : ∀ s ∈ stages, s.Named) {argv : Argv}
    (htokens : tokens argv = pipeline (stages.map Stage.tokens)) :
    (cell argv (search op.token argv) = none ∧ cut op stages = stages ∧
      firstFile op stages = none) ∨
      ∃ file, cell argv (search op.token argv) ≠ none ∧
        cell argv (search op.token argv + 1) = some file ∧
        tokens (argv.set (search op.token argv) none) =
          pipeline ((cut op stages).map Stage.tokens) ∧
        firstFile op stages = some file := by
  rcases cut_cases op stages with ⟨hnone, hcut, hfile⟩ |
    ⟨init, command, a, file, c, ss, rfl, hinit, ha, hcut, hfile⟩
  · left
    have hnotMem := token_notMem hnone hnamed
    rw [← htokens] at hnotMem
    refine ⟨?_, hcut, hfile⟩
    rw [search_eq, List.idxOf_eq_length hnotMem, cell_eq (Nat.le_refl _),
      List.getElem?_eq_none (Nat.le_refl _)]
  · right
    have hsplit : Stage.tokens ⟨command, a ++ .redirect op file :: c⟩ =
        Stage.tokens ⟨command, a⟩ ++ op.token :: file :: c.flatMap Item.tokens := by
      simp [Stage.tokens, Item.tokens]
    obtain ⟨rest, hrest⟩ := pipeline_split (init.map Stage.tokens) (Stage.tokens ⟨command, a⟩)
      (op.token :: file :: c.flatMap Item.tokens) (ss.map Stage.tokens)
    have hfront : init.map Stage.tokens ++ [Stage.tokens ⟨command, a⟩] =
        (cut op (init ++ ⟨command, a ++ .redirect op file :: c⟩ :: ss)).map Stage.tokens := by
      rw [hcut, List.map_append]
      rfl
    rw [List.map_append, List.map_cons, hsplit, hrest, hfront] at htokens
    have hnotMem := token_notMem (fun s hs => (mem_cut hs).1) (@named_cut op _ hnamed)
    have hidx : search op.token argv = (pipeline ((cut op (init ++
        ⟨command, a ++ .redirect op file :: c⟩ :: ss)).map Stage.tokens)).length := by
      rw [search_eq, htokens, List.idxOf_append_of_notMem hnotMem, List.cons_append,
        List.idxOf_cons_self, Nat.add_zero]
    have hlen := congrArg List.length htokens
    rw [List.length_append, ← hidx, List.cons_append, List.cons_append, List.length_cons,
      List.length_cons] at hlen
    refine ⟨file, ?_, ?_, ?_, hfile⟩
    · rw [cell_eq (by omega), htokens, List.getElem?_append_right (by omega), hidx]
      simp
    · rw [cell_eq (by omega), htokens, List.getElem?_append_right (by omega), hidx]
      simp
    · rw [tokens_set_none, htokens, hidx, List.take_left]

/-- Without the operator nothing happens but to `errno`. -/
theorem passed_of_none {op : Op} {stages : List Stage} {argv : Argv}
    (htokens : tokens argv = pipeline (stages.map Stage.tokens)) (hcut : cut op stages = stages)
    (hfile : firstFile op stages = none) (fd : ℕ) (mode : Mode) (c : Ctx) (e : ℤ) :
    Passed op fd mode stages argv c { c with errno := e } := by
  refine ⟨?_, rfl, rfl, rfl, ?_, fun _ _ => rfl⟩
  · rw [hcut, htokens]
  · rw [hfile]
    rfl

/-- With the operator the descriptor is redirected. -/
theorem passed_of_some {op : Op} {stages : List Stage} {argv : Argv} {file : String}
    (htokens : tokens argv = pipeline ((cut op stages).map Stage.tokens))
    (hfile : firstFile op stages = some file) {fd : ℕ} (mode : Mode) {c : Ctx}
    (hfd : c.table.get fd ≠ none) (e : ℤ) :
    Passed op fd mode stages argv c
      { c with table := c.table.redirect fd (.file file mode), errno := e } := by
  have hget := Table.get_redirect hfd (.file file mode)
  refine ⟨htokens, rfl, rfl, rfl, ?_, fun fd' hne => (hget fd').trans (if_neg hne)⟩
  rw [hfile]
  exact (hget fd).trans (if_pos rfl)

/-- **`redirect_in`.** -/
theorem leaves_redirectIn {env : Env} {stages : List Stage} (hopen : Openable env stages)
    (hnamed : ∀ s ∈ stages, s.Named) {argv : Argv}
    (htokens : tokens argv = pipeline (stages.map Stage.tokens)) (c : Ctx)
    (h0 : c.table.get 0 ≠ none) (next : ℤ → Argv → Prog) :
    ∃ r argv' c', leaves env (redirectIn argv next) c = leaves env (next r argv') c' ∧
      Passed .input 0 .read stages argv' c c' := by
  rcases search_cases .input hnamed htokens with ⟨hcell, hcut, hfile⟩ |
    ⟨file, hcell, hpath, hset, hfile⟩
  · rw [Op.token] at hcell
    refine ⟨-1, argv, { c with errno := 1 }, ?_, passed_of_none htokens hcut hfile 0 .read c 1⟩
    rw [redirectIn, leaves, if_pos hcell]
  · rw [Op.token] at hcell hpath hset
    refine ⟨0, argv.set (search "<" argv) none, _, ?_, passed_of_some hset hfile .read h0 0⟩
    have hopened : (c.table.put c.table.free (.file file .read)).get c.table.free =
        some (.file file .read) := by simp
    have hopened' : ((c.table.put c.table.free (.file file .read)).put 0 (.file file .read)).get
        c.table.free = some (.file file .read) := by simp
    obtain ⟨s, hs, hmem⟩ := mem_of_firstFile hfile
    have hok : env.openErr file .read = none := hopen s hs .input file hmem
    rw [redirectIn, leaves, if_neg hcell, leaves, hpath, leaves_openFile hok]
    exact (leaves_dup2_of_open hopened 0 _).trans (leaves_close_of_open hopened' _)

/-- **`redirect_out`.** -/
theorem leaves_redirectOut {env : Env} {stages : List Stage} (hopen : Openable env stages)
    (hnamed : ∀ s ∈ stages, s.Named) {argv : Argv}
    (htokens : tokens argv = pipeline (stages.map Stage.tokens)) (c : Ctx)
    (h1 : c.table.get 1 ≠ none) (next : ℤ → Argv → Prog) :
    ∃ r argv' c', leaves env (redirectOut argv next) c = leaves env (next r argv') c' ∧
      Passed .output 1 .writeTruncate stages argv' c c' := by
  rcases search_cases .output hnamed htokens with ⟨hcell, hcut, hfile⟩ |
    ⟨file, hcell, hpath, hset, hfile⟩
  · rw [Op.token] at hcell
    refine ⟨-1, argv, { c with errno := 1 }, ?_,
      passed_of_none htokens hcut hfile 1 .writeTruncate c 1⟩
    rw [redirectOut, leaves, if_pos hcell]
  · rw [Op.token] at hcell hpath hset
    refine ⟨0, argv.set (search ">" argv) none, _, ?_,
      passed_of_some hset hfile .writeTruncate h1 0⟩
    have hopened : (c.table.put c.table.free (.file file .writeTruncate)).get c.table.free =
        some (.file file .writeTruncate) := by simp
    have hopened' : ((c.table.put c.table.free (.file file .writeTruncate)).put 1
        (.file file .writeTruncate)).get c.table.free = some (.file file .writeTruncate) := by simp
    have hfd : ¬(c.table.free : ℤ) = -1 := by omega
    obtain ⟨s, hs, hmem⟩ := mem_of_firstFile hfile
    have hok : env.openErr file .writeTruncate = none := hopen s hs .output file hmem
    rw [redirectOut, leaves, if_neg hcell, leaves, hpath, leaves_openFile hok, if_neg hfd]
    refine (leaves_dup2_of_open hopened 1 _).trans ?_
    rw [if_neg (by decide)]
    exact leaves_close_of_open hopened' _

/-- A stage without redirections has only words, and they are its tokens. -/
theorem tokens_eq_words {s : Stage} (h : ∀ op, s.Without op) : s.tokens = s.words := by
  rw [Stage.tokens, Stage.words]
  congr 1
  refine List.flatMap_congr ?_
  intro it hit
  cases it with
  | word w => rfl
  | redirect op file => exact absurd hit (h op file)

theorem isStage_words {s : Stage} (h : s.Named) : IsStage s.words := by
  refine ⟨by simp [Stage.words], ?_⟩
  intro hmem
  rcases List.mem_cons.1 hmem with heq | hmem
  · exact h.1 (.inl heq.symm)
  · obtain ⟨it, hit, hmem⟩ := List.mem_flatMap.1 hmem
    cases it with
    | word w =>
        obtain rfl : "|" = w := by simpa [Item.words] using hmem
        exact h.2 _ hit (.inl rfl)
    | redirect op file => simp [Item.words] at hmem

/-- The stages that are executed. -/
def executed (stages : List Stage) : List Stage := cut .output (cut .input stages)

/-- **What comes of the child of `run_command`**: what is left of the line after both cuts is
executed as a pipeline, between the files of the first redirections that were seen. -/
theorem leaves_commandChild {env : Env} (henv : env.NoFailure) {stages : List Stage}
    (hopen : Openable env stages) (hne : stages ≠ [])
    (hnamed : ∀ s ∈ stages, s.Named) {table : Table} (h0 : table.get 0 ≠ none)
    (h1 : table.get 1 ≠ none) :
    ∃ (table' : Table) (procs : List (Name × Table)), procs.length = (executed stages).length ∧
      leaves env (commandChild (lineVector stages)) ⟨[], 0, 0, table, 0⟩ =
        execs procs ((executed stages).map Stage.words) ∧
      (∀ i p, procs[i]? = some p → StageOf [] table' (executed stages).length i p) ∧
      table'.get 0 = ((firstFile .input stages).map fun f => FileObj.file f .read).or
        (table.get 0) ∧
      table'.get 1 = ((firstFile .output (cut .input stages)).map fun f =>
        FileObj.file f .writeTruncate).or (table.get 1) := by
  obtain ⟨r, argv, c, hleaves, hin⟩ := leaves_redirectIn hopen hnamed
    (tokens_vector (pipeline (stages.map Stage.tokens))) ⟨[], 0, 0, table, 0⟩ h0
    (fun _ argv => redirectOut argv fun _ argv => pipeAndExec argv)
  have hc1 : c.table.get 1 ≠ none := by
    rw [hin.get_other 1 (by decide)]
    exact h1
  obtain ⟨r', argv', c', hleaves', hout⟩ := leaves_redirectOut (openable_cut hopen .input)
    (named_cut hnamed) hin.tokens_eq c hc1 (fun _ argv => pipeAndExec argv)
  have hget0 : c'.table.get 0 =
      ((firstFile .input stages).map fun f => FileObj.file f .read).or (table.get 0) :=
    (hout.get_other 0 (by decide)).trans hin.get_target
  have hget1 : c'.table.get 1 = ((firstFile .output (cut .input stages)).map fun f =>
      FileObj.file f .writeTruncate).or (table.get 1) := by
    rw [hout.get_target, hin.get_other 1 (by decide)]
  have hwords : (executed stages).map Stage.tokens = (executed stages).map Stage.words := by
    refine List.map_congr_left fun s hs => tokens_eq_words ?_
    intro op
    obtain ⟨houtput, s', hs', -, hitems⟩ := mem_cut hs
    cases op with
    | input => exact fun file hmem => (mem_cut hs').1 file (hitems hmem)
    | output => exact houtput
  have hstages : ∀ ts ∈ (executed stages).map Stage.words, IsStage ts := by
    intro ts hts
    obtain ⟨s, hs, rfl⟩ := List.mem_map.1 hts
    exact isStage_words (named_cut (named_cut hnamed) s hs)
  have hne' : (executed stages).map Stage.words ≠ [] := by
    rw [ne_eq, List.map_eq_nil_iff]
    exact cut_ne_nil (cut_ne_nil hne)
  obtain ⟨procs, hlen, hexecs, hprocs⟩ := leaves_pipeAndExec henv _ hne' hstages argv'
    (hout.tokens_eq.trans (congrArg pipeline hwords)) c' (hout.forks_eq.trans hin.forks_eq)
    (hout.pipes_eq.trans hin.pipes_eq) (by rw [hget0]; simp [h0]) (by rw [hget1]; simp [h1])
  rw [List.length_map] at hlen hprocs
  rw [hout.name_eq, hin.name_eq] at hprocs
  exact ⟨c'.table, procs, hlen, (hleaves.trans hleaves').trans hexecs, hprocs, hget0, hget1⟩

end Shell
