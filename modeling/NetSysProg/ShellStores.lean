/-
**What the shell of `HW5/part2` stores, and where.**

`parse` copies each token into 100 bytes.  `pipe_and_exec` copies the tokens before the first `|`
into 400 bytes each, and the pointers to them with a null pointer behind them into as many slots as
there are tokens; the tokens behind it go into 20 slots.  `bi_pwd` and `bi_hostname` append a
newline to a string in an array of its own size.  None of them looks for room.  So a token of 100
bytes is too long, and each pipeline and each `pwd` or `hostname` stores one element too many.

The results of the calls of the system are parameters; no `malloc` fails.  What the calls of `fork`
return selects one process of a pipeline.  What happens to the descriptors is left out.

Main definitions:

* `ShellStores.redirectIn`, `ShellStores.redirectOut`, `ShellStores.pipePresent` — on tokens given
  by their bytes;
* `ShellStores.pipeAndExec`, `ShellStores.commandChild` — the processes of a command;
* `ShellStores.StoresFit` — every store for a line is inside its allocation;
* `ShellStores.Fitting` — the condition.

Main results:

* `ShellStores.fill_of_roomy` — a vector needs one slot more than it has tokens;
* `ShellStores.pipeAndExec_eq_fault_iff` — **a pipe in the middle is one too many**;
* `ShellStores.storesFit_iff` — **the stores fit exactly under the condition**;
* `ShellStores.not_storesFit_lines` — a pipeline, `pwd`, and a token of 100 bytes.
-/

import NetSysProg.ShellSurvives

set_option relaxedAutoImplicit false
set_option autoImplicit false

namespace ShellStores

open CString Stdio Words ShellInput ShellBuiltins

/-! ### The processes of a command -/

/-- What `fork` returns: an error, or to the parent, which talks, or to the child, which listens. -/
inductive Forked
  | failed (errno : ℕ)
  | talking
  | listening

/-- What the other calls return to the processes of a command. -/
structure Child where
  /-- Whether `open` gives a descriptor for the file behind `>`. -/
  openOut : List Byte → Bool
  /-- Whether `dup2` does in `redirect_out`. -/
  dup2 : Bool
  /-- Whether the first `pipe`, the second, and so on succeeds. -/
  pipe : ℕ → Bool
  /-- The error of `execvp`, if it returns. -/
  execvp : Command → Option ℕ

/-- The index of the first `token` of a vector, or else of the null pointer. -/
def search (token : List Byte) : Command → ℕ
  | [] => 0
  | t :: myArgv => if t = token then 0 else search token myArgv + 1

/-- `redirect_in`: its result and the vector after it. -/
def redirectIn (myArgv : Command) : ℤ × Command :=
  let i := search (lit "<") myArgv
  if myArgv[i]? = none then (-1, myArgv) else (0, myArgv.take i)

/-- `redirect_out`: its result and the vector after it; `open` fails for a null pointer. -/
def redirectOut (p : Child) (myArgv : Command) : Outcome (ℤ × Command) :=
  let i := search (lit ">") myArgv
  if myArgv[i]? = none then .ok (-1, myArgv)
  else
    match myArgv[i + 1]? with
    | none => .exit 1 "open"
    | some name =>
        if p.openOut name then
          if p.dup2 then .ok (0, myArgv.take i) else .exit 1 "dup2"
        else .exit 1 "open"

/-- `pipe_present` -/
def pipePresent (myCurrentArgv : Command) : ℤ :=
  let index := search (lit "|") myCurrentArgv
  if myCurrentArgv[index]? = none then 0
  else if index = 0 ∨ myCurrentArgv[index + 1]? = none then -1
  else index

/-- `strcpy` into the memory of `malloc(50 * sizeof(char *))`. -/
def copyToken (token : List Byte) : Outcome (List Byte) := do
  let space ← strcpy (pad 400 []) (token ++ [nul])
  str space

/-- The next pointer is stored in memory for `size` of them. -/
def storeSlot (size : ℕ) (slots : List (Option (List Byte))) (cell : Option (List Byte)) :
    Outcome (List (Option (List Byte))) :=
  if slots.length < size then .ok (slots ++ [cell]) else .fault

/-- The loops over `left_argv` and `right_argv`, and the null pointer behind the copies. -/
def fill (size : ℕ) : Command → List (Option (List Byte)) → Outcome (List (Option (List Byte)))
  | [], slots => storeSlot size slots none
  | token :: ts, slots => do
      let copy ← copyToken token
      let slots ← storeSlot size slots (some copy)
      fill size ts slots

/-- What every branch of `pipe_and_exec` comes to when it has not become another program. -/
def couldNotExec (errno : ℕ) : Outcome Command := .exit errno "Couldn't fork or exec child process"

/-- The process becomes another program, or it does not. -/
def exec (p : Child) (argv : Command) : Outcome Command :=
  match p.execvp argv with
  | none => .ok argv
  | some errno => couldNotExec errno

theorem pipePresent_nil : pipePresent [] = 0 := rfl

/-- `EINVAL` -/
def EINVAL : ℕ := 22

/-- **`pipe_and_exec`**, in the process that the results of `fork` lead to; `k` of them are
before. -/
def pipeAndExec (p : Child) (fork : ℕ → Forked) (k : ℕ) (myArgv : Command) : Outcome Command :=
  if pipePresent myArgv = -1 then couldNotExec EINVAL
  else if _h : pipePresent myArgv = 0 then exec p myArgv
  else do
    let pipeArgvIndex := (pipePresent myArgv).toNat
    let behind := myArgv.drop (pipeArgvIndex + 1)
    let leftArgv ← fill pipeArgvIndex (myArgv.take pipeArgvIndex) []
    -- The vector on the right is filled and not used.
    let _ ← fill 20 (behind.takeWhile (· ≠ lit "|")) []
    if p.pipe k then
      match fork k with
      | .failed errno => couldNotExec errno
      | .talking => exec p leftArgv.reduceOption
      | .listening => pipeAndExec p fork (k + 1) behind
    else .exit 1 "pipe"
  termination_by myArgv.length
  decreasing_by
    have hpos : 0 < myArgv.length := by
      rw [List.length_pos_iff]
      rintro rfl
      exact _h pipePresent_nil
    rw [List.length_drop]
    omega

/-- The child that `run_command` forks. -/
def commandChild (p : Child) (fork : ℕ → Forked) (myArgv : Command) : Outcome Command := do
  let out ← redirectOut p (redirectIn myArgv).2
  pipeAndExec p fork 0 out.2

/-! ### The condition -/

/-- **The stores for a line fit**: those of `parse`, those of `bi_hostname` and `bi_pwd`, and those
of `pipe_and_exec` in each process that is forked for the command. -/
structure StoresFit (c : Calls) (p : Child) (line : List Byte) : Prop where
  parse : parse .hw5 line ≠ .fault
  hostname : ∀ cmd argv, ShellInput.parse .hw5 line = .ok (some (cmd :: argv)) →
    isBuiltin cmd = some .hostname → biHostname c ≠ .fault
  pwd : ∀ cmd argv, ShellInput.parse .hw5 line = .ok (some (cmd :: argv)) →
    isBuiltin cmd = some .pwd → biPwd c ≠ .fault
  pipe : ∀ cmd argv, ShellInput.parse .hw5 line = .ok (some (cmd :: argv)) → isBuiltin cmd = none →
    c.fork.isLeft → ∀ fork, commandChild p fork (cmd :: argv) ≠ .fault

/-- The tokens before the first `token`. -/
def before (token : List Byte) (ts : Command) : Command := ts.takeWhile (· ≠ token)

/-- There is a `>`, and the child ends because no file can be opened for it. -/
def OutFails (p : Child) (us : Command) : Prop :=
  lit ">" ∈ us ∧ ∀ name, us[(before (lit ">") us).length + 1]? = some name →
    p.openOut name = false ∨ p.dup2 = false

/-- The first `|` has tokens on either side. -/
def Pipeline (us : Command) : Prop :=
  ∃ l r, us = l ++ lit "|" :: r ∧ lit "|" ∉ l ∧ l ≠ [] ∧ r ≠ []

/-- **The condition**: each token is shorter than 100 bytes, and the command is not `hostname` or
`pwd`, if the call of the system succeeds, and not a pipeline that comes to be executed. -/
def Fitting (c : Calls) (p : Child) (ts : Command) : Prop :=
  Roomy ts ∧
    match ts.head?.bind isBuiltin with
    | some .hostname => c.uname = none
    | some .pwd => c.getcwd = none
    | some _ => True
    | none => c.fork.isLeft → OutFails p (before (lit "<") ts) ∨
        ¬ Pipeline (before (lit ">") (before (lit "<") ts))

/-! ### Searching a vector -/

theorem search_eq (token : List Byte) (ts : Command) : search token ts =
    (before token ts).length := by
  induction ts with
  | nil => rfl
  | cons t ts ih =>
      rw [search, before]
      by_cases h : t = token
      · simp [h]
      · rw [if_neg h, List.takeWhile_cons_of_pos (by simpa using h), List.length_cons, ih, before]

theorem before_of_notMem {token : List Byte} {ts : Command} (h : token ∉ ts) :
    before token ts = ts := by
  rw [before, List.takeWhile_eq_self_iff]
  intro t ht
  simpa using fun heq : t = token => h (heq ▸ ht)

theorem before_append {token : List Byte} {l : Command} (h : token ∉ l) (r : Command) :
    before token (l ++ token :: r) = l := by
  have hall : ∀ t ∈ l, decide (t ≠ token) = true := by
    intro t ht
    simpa using fun heq : t = token => h (heq ▸ ht)
  rw [before, List.takeWhile_append_of_pos hall, List.takeWhile_cons_of_neg (by simp),
    List.append_nil]

/-- **`redirect_in`** leaves the tokens before the first `<`. -/
theorem redirectIn_eq (ts : Command) : (redirectIn ts).2 = before (lit "<") ts := by
  rw [redirectIn, search_eq]
  by_cases hmem : lit "<" ∈ ts
  · obtain ⟨l, r, rfl, hl⟩ := List.eq_append_cons_of_mem hmem
    rw [before_append hl]
    rw [if_neg (by simp), List.take_left]
  · rw [before_of_notMem hmem]
    rw [if_pos (by simp)]

/-- **`redirect_out`** leaves the tokens before the first `>`, or ends the child. -/
theorem redirectOut_cases (p : Child) (us : Command) :
    (OutFails p us ∧ ∃ message, redirectOut p us = .exit 1 message) ∨
      (¬ OutFails p us ∧ ∃ r, redirectOut p us = .ok (r, before (lit ">") us)) := by
  rw [redirectOut, search_eq]
  by_cases hmem : lit ">" ∈ us
  · obtain ⟨l, r, rfl, hl⟩ := List.eq_append_cons_of_mem hmem
    rw [OutFails, and_iff_right hmem, before_append hl]
    rw [if_neg (by simp), List.take_left]
    cases (l ++ lit ">" :: r)[l.length + 1]? with
    | none => exact .inl ⟨fun _ h => by simp at h, "open", rfl⟩
    | some name =>
        cases hopen : p.openOut name with
        | false => exact .inl ⟨fun _ h => .inl (Option.some.inj h ▸ hopen), "open", by simp [hopen]⟩
        | true =>
            cases hdup : p.dup2 with
            | false => exact .inl ⟨fun _ _ => .inr rfl, "dup2", by simp [hopen]⟩
            | true =>
                refine .inr ⟨fun hall => ?_, 0, by simp [hopen]⟩
                rcases hall name rfl with h | h
                · simp [hopen] at h
                · simp at h
  · refine .inr ⟨fun hfails => hmem hfails.1, -1, ?_⟩
    rw [before_of_notMem hmem, if_pos (by simp)]

/-- **`pipe_present`** is positive for a pipeline, and it is the number of tokens before the `|`. -/
theorem pipePresent_cases (us : Command) :
    (Pipeline us ∧ pipePresent us = (before (lit "|") us).length ∧ before (lit "|") us ≠ []) ∨
      (¬ Pipeline us ∧ (pipePresent us = -1 ∨ pipePresent us = 0)) := by
  rw [pipePresent, search_eq]
  by_cases hmem : lit "|" ∈ us
  · obtain ⟨l, r, rfl, hl⟩ := List.eq_append_cons_of_mem hmem
    have hpipeline : Pipeline (l ++ lit "|" :: r) ↔ l ≠ [] ∧ r ≠ [] := by
      constructor
      · rintro ⟨l', r', hus, hl', hne, hr⟩
        have hbefore := congrArg (before (lit "|")) hus
        rw [before_append hl, before_append hl'] at hbefore
        obtain rfl := hbefore
        obtain ⟨-, rfl⟩ := List.cons.inj (List.append_cancel_left hus)
        exact ⟨hne, hr⟩
      · rintro ⟨hne, hr⟩
        exact ⟨l, r, rfl, hl, hne, hr⟩
    have hnext : (l ++ lit "|" :: r)[l.length + 1]? = r[0]? := by
      rw [List.getElem?_append_right (Nat.le_add_right ..), Nat.add_sub_cancel_left,
        List.getElem?_cons_succ]
    have hedge : (l.length = 0 ∨ r[0]? = none) ↔ ¬ Pipeline (l ++ lit "|" :: r) := by
      rw [hpipeline, not_and_or, not_not, not_not, List.length_eq_zero_iff,
        List.getElem?_eq_none_iff, Nat.le_zero, List.length_eq_zero_iff]
    rw [before_append hl]
    rw [if_neg (by simp), hnext]
    by_cases hpipe : Pipeline (l ++ lit "|" :: r)
    · exact .inl ⟨hpipe, if_neg fun h => hedge.1 h hpipe, (hpipeline.1 hpipe).1⟩
    · exact .inr ⟨hpipe, .inl (if_pos (hedge.2 hpipe))⟩
  · refine .inr ⟨?_, .inr ?_⟩
    · rintro ⟨l, r, rfl, -⟩
      exact hmem (List.mem_append_right _ (List.mem_cons_self ..))
    · rw [before_of_notMem hmem, if_pos (by simp)]

/-! ### Filling a vector -/

theorem copyToken_eq {token : List Byte} (h : nul ∉ token) (hlen : token.length < 100) :
    copyToken token = .ok token := by
  have hroom : token.length < (pad 400 []).length := by
    rw [length_pad (Nat.zero_le _)]
    omega
  have hcopy := strcpy_of_str (str_append h []) hroom
  rw [copyToken, hcopy, Outcome.bind_ok, str_append h]

/-- **A vector needs one slot more than it has tokens**; tokens that `parse` has room for fit. -/
theorem fill_of_roomy {size : ℕ} {ts : Command} (hroomy : Roomy ts)
    (hnul : ∀ token ∈ ts, nul ∉ token)
    (slots : List (Option (List Byte))) :
    fill size ts slots =
      if slots.length + ts.length < size then .ok (slots ++ ts.map some ++ [none]) else .fault := by
  induction ts generalizing slots with
  | nil => simp [fill, storeSlot]
  | cons token ts ih =>
      obtain ⟨hlen, hroomy⟩ := List.forall_mem_cons.1 hroomy
      obtain ⟨hhead, htail⟩ := List.forall_mem_cons.1 hnul
      have hadd : slots.length + 1 + ts.length = slots.length + (ts.length + 1) := by omega
      rw [fill, copyToken_eq hhead hlen, Outcome.bind_ok, storeSlot]
      by_cases hroom : slots.length < size
      · rw [if_pos hroom, Outcome.bind_ok, ih hroomy htail]
        simp [hadd]
      · rw [if_neg hroom, Outcome.bind_fault, List.length_cons, if_neg (by omega)]

/-- **A pipe in the middle**: the null pointer behind the tokens on the left has no slot. -/
theorem pipeAndExec_eq_fault_iff (p : Child) (fork : ℕ → Forked) (k : ℕ) {us : Command}
    (hroomy : Roomy us) (hnul : ∀ token ∈ us, nul ∉ token) :
    pipeAndExec p fork k us = .fault ↔ Pipeline us := by
  have hexec (argv : Command) : exec p argv ≠ .fault := by
    rw [exec]
    cases p.execvp argv <;> simp [couldNotExec]
  rw [pipeAndExec]
  rcases pipePresent_cases us with ⟨hpipeline, hindex, hne⟩ | ⟨hpipeline, hindex | hindex⟩
  · have hpos := List.length_pos_iff.2 hne
    have hsub : us.take (before (lit "|") us).length <+: us := List.take_prefix _ us
    have hlen : (us.take (before (lit "|") us).length).length = (before (lit "|") us).length :=
      List.length_take_of_le (List.takeWhile_prefix _).length_le
    rw [if_neg (by omega), dif_neg (by omega), hindex]
    dsimp only
    rw [Int.toNat_natCast, fill_of_roomy (fun token h => hroomy token (hsub.mem h))
      (fun token h => hnul token (hsub.mem h)), hlen, List.length_nil, Nat.zero_add,
      if_neg (Nat.lt_irrefl _), Outcome.bind_fault]
    exact iff_of_true rfl hpipeline
  · rw [if_pos hindex]
    exact iff_of_false (by simp [couldNotExec]) hpipeline
  · rw [if_neg (by omega), dif_pos hindex]
    exact iff_of_false (hexec us) hpipeline

/-- **The child of a command**, whichever of its processes is looked at. -/
theorem commandChild_eq_fault_iff (p : Child) (fork : ℕ → Forked) {ts : Command} (hroomy : Roomy ts)
    (hnul : ∀ token ∈ ts, nul ∉ token) :
    commandChild p fork ts = .fault ↔ ¬ OutFails p (before (lit "<") ts) ∧
      Pipeline (before (lit ">") (before (lit "<") ts)) := by
  have hmem {token : List Byte} (h : token ∈ before (lit ">") (before (lit "<") ts)) : token ∈ ts :=
    (List.takeWhile_prefix _).mem ((List.takeWhile_prefix _).mem h)
  rw [commandChild, redirectIn_eq]
  rcases redirectOut_cases p (before (lit "<") ts) with ⟨hfails, message, hout⟩ | ⟨hopens, r, hout⟩
  · rw [hout, Outcome.bind_exit]
    exact iff_of_false (by simp) fun h => h.1 hfails
  · rw [hout, Outcome.bind_ok, and_iff_right hopens]
    exact pipeAndExec_eq_fault_iff p fork 0 (fun token h => hroomy token (hmem h))
      fun token h => hnul token (hmem h)

/-! ### A line -/

theorem biHostname_eq_fault_iff (c : Calls) : biHostname c = .fault ↔ c.uname ≠ none := by
  rw [biHostname]
  cases c.uname with
  | none => simp
  | some sysname => simp [addNewline_eq_fault]

theorem biPwd_eq_fault_iff (c : Calls) : biPwd c = .fault ↔ c.getcwd ≠ none := by
  rw [biPwd]
  cases c.getcwd with
  | none => simp
  | some dir => simp [addNewline_eq_fault]

/-- The tokens of a string have no null byte. -/
theorem nul_notMem_words {s : List Byte} (h : nul ∉ s) :
    ∀ token ∈ words isDelim s, nul ∉ token := by
  intro token htoken hmem
  have hflatten : nul ∈ (words isDelim s).flatten := List.mem_flatten.2 ⟨token, htoken, hmem⟩
  rw [flatten_words] at hflatten
  exact h (List.mem_of_mem_filter hflatten)

/-- **The stores for a string in the buffer.** -/
theorem storesFit_append_iff (c : Calls) (p : Child) {s : List Byte} (h : nul ∉ s)
    (back : List Byte) :
    StoresFit c p (s ++ nul :: back) ↔ Fitting c p (words isDelim s) := by
  have hparse := parse_eq .hw5 h back
  have hnul := nul_notMem_words h
  generalize words isDelim s = ts at hparse hnul ⊢
  cases ts with
  | nil =>
      rw [if_pos rfl] at hparse
      refine iff_of_true ⟨by simp [hparse], ?_, ?_, ?_⟩ ⟨by simp [Roomy], fun _ => .inr ?_⟩
      · simp [hparse]
      · simp [hparse]
      · simp [hparse]
      · rintro ⟨l, r, hsplit, -⟩
        simp [before] at hsplit
  | cons cmd argv =>
      rw [if_neg (List.cons_ne_nil cmd argv)] at hparse
      by_cases hroomy : Roomy (cmd :: argv)
      · rw [if_pos hroomy] at hparse
        have hfit : StoresFit c p (s ++ nul :: back) ↔
            (isBuiltin cmd = some .hostname → biHostname c ≠ .fault) ∧
            (isBuiltin cmd = some .pwd → biPwd c ≠ .fault) ∧
            (isBuiltin cmd = none → c.fork.isLeft →
              ∀ fork, commandChild p fork (cmd :: argv) ≠ .fault) := by
          constructor
          · rintro ⟨-, hhostname, hpwd, hpipe⟩
            exact ⟨hhostname cmd argv hparse, hpwd cmd argv hparse, hpipe cmd argv hparse⟩
          · rintro ⟨hhostname, hpwd, hpipe⟩
            refine ⟨by simp [hparse], ?_, ?_, ?_⟩ <;>
            · intro cmd' argv' hparse'
              obtain ⟨rfl, rfl⟩ : cmd = cmd' ∧ argv = argv' := by simpa [hparse] using hparse'
              assumption
        have hhead : (cmd :: argv).head?.bind isBuiltin = isBuiltin cmd := rfl
        have hchild : (∀ fork, commandChild p fork (cmd :: argv) ≠ .fault) ↔
            OutFails p (before (lit "<") (cmd :: argv)) ∨
              ¬ Pipeline (before (lit ">") (before (lit "<") (cmd :: argv))) := by
          simp only [ne_eq, commandChild_eq_fault_iff p _ hroomy hnul, not_and_or, not_not]
          exact ⟨fun h => h fun _ => .talking, fun h _ => h⟩
        rw [hfit, Fitting, and_iff_right hroomy, hhead, hchild]
        simp only [ne_eq, biHostname_eq_fault_iff, biPwd_eq_fault_iff, not_not]
        cases isBuiltin cmd with
        | none => simp
        | some doIt => cases doIt <;> simp
      · rw [if_neg hroomy] at hparse
        exact iff_of_false (fun hfit => hfit.parse hparse) fun hfitting => hroomy hfitting.1

/-- What a call of `fgets` gives to the shell: a line or a part of it, up to its first null byte. -/
def received (stdin : Stream) : List Byte := (lineUpTo 254 stdin.rest).takeWhile (· ≠ nul)

theorem nul_notMem_received (stdin : Stream) : nul ∉ received stdin := fun hmem => by
  simpa using List.mem_takeWhile_imp hmem

/-- A string that ends at its first null byte. -/
theorem exists_back (r back : List Byte) :
    ∃ back', r ++ nul :: back = r.takeWhile (· ≠ nul) ++ nul :: back' := by
  induction r with
  | nil => exact ⟨back, rfl⟩
  | cons b r ih =>
      by_cases hb : b = nul
      · exact ⟨r ++ nul :: back, by rw [hb, List.takeWhile_cons_of_neg (by simp)]; rfl⟩
      · obtain ⟨back', hback'⟩ := ih
        refine ⟨back', ?_⟩
        rw [List.takeWhile_cons_of_pos (by simpa using hb), List.cons_append,
          List.cons_append, hback']

/-- **The stores for a line fit exactly when** its tokens are shorter than 100 bytes, and it is
neither `hostname` nor `pwd` nor a pipeline that comes to be executed. -/
theorem storesFit_iff (c : Calls) (p : Child) {line : List Byte} {stdin : Stream}
    (h : (fgets longLine line stdin).nonNull = true) :
    StoresFit c p (fgets longLine line stdin).buf ↔
      Fitting c p (words isDelim (received stdin)) := by
  rcases fgets_cases line stdin with ⟨-, hnull⟩ | ⟨-, -, hbuf, -⟩
  · simp [hnull] at h
  · obtain ⟨back, hback⟩ := exists_back (lineUpTo 254 stdin.rest)
      (line.drop ((lineUpTo 254 stdin.rest).length + 1))
    rw [hbuf, hback]
    exact storesFit_append_iff c p (nul_notMem_received stdin) back

/-- Every call succeeds, and the parent of a `fork` is looked at. -/
def running : Child where
  openOut _ := true
  dup2 := true
  pipe _ := true
  execvp _ := none

theorem storesFit_iff_ls :
    StoresFit allSucceed running (fgets longLine [] (fopen (lit "ls\n"))).buf := by
  have hwords : words isDelim (received (fopen (lit "ls\n"))) = [lit "ls"] := by decide
  refine (storesFit_iff allSucceed running (by decide)).2 ?_
  rw [hwords]
  refine ⟨by decide, fun _ => .inr ?_⟩
  rintro ⟨l, r, hsplit, -⟩
  have hmem : lit "|" ∈ before (lit ">") (before (lit "<") [lit "ls"]) := by
    rw [hsplit]
    exact List.mem_append_right _ (List.mem_cons_self ..)
  revert hmem
  decide

/-- What is in the buffer after a short line. -/
theorem buf_fgets_line {l : List Byte} (hl : newline ∉ l) (hlen : l.length < 254) :
    (fgets longLine [] (fopen (l ++ [newline]))).buf = (l ++ [newline]) ++ nul :: [] := by
  have hrest : (fopen (l ++ [newline])).rest = l ++ [newline] := rfl
  have hne : l ++ [newline] ≠ [] := by simp
  rcases fgets_cases [] (fopen (l ++ [newline])) with ⟨hnil, -⟩ | ⟨-, -, hbuf, -⟩
  · exact absurd (hrest.symm.trans hnil) hne
  · rw [hbuf, hrest, lineUpTo_line hl hlen [], List.drop_nil]

/-- **A pipeline, `pwd`, and a token of 100 bytes.** -/
theorem not_storesFit_lines :
    ¬ StoresFit allSucceed running (fgets longLine [] (fopen (lit "a | b" ++ [newline]))).buf ∧
      ¬ StoresFit allSucceed running (fgets longLine [] (fopen (lit "pwd" ++ [newline]))).buf ∧
      ¬ StoresFit allSucceed running
        (fgets longLine [] (fopen (List.replicate 100 97 ++ [newline]))).buf := by
  have hfit {l : List Byte} (hl : newline ∉ l) (hlen : l.length < 254)
    (hnul : nul ∉ l ++ [newline]) :
      StoresFit allSucceed running (fgets longLine [] (fopen (l ++ [newline]))).buf ↔
        Fitting allSucceed running (words isDelim (l ++ [newline])) := by
    rw [buf_fgets_line hl hlen, storesFit_append_iff _ _ hnul]
  rw [hfit (by decide) (by decide) (by decide), hfit (by decide) (by decide) (by decide),
    hfit (by decide) (by decide) (by decide)]
  have hwords : words isDelim (lit "a | b" ++ [newline]) = [lit "a", lit "|", lit "b"] ∧
      words isDelim (lit "pwd" ++ [newline]) = [lit "pwd"] ∧
      words isDelim (List.replicate 100 97 ++ [newline]) = [List.replicate 100 97] := by decide
  rw [hwords.1, hwords.2.1, hwords.2.2]
  refine ⟨?_, ?_, ?_⟩
  · rintro ⟨-, h⟩
    rcases h rfl with ⟨hmem, -⟩ | hpipeline
    · revert hmem
      decide
    · exact hpipeline ⟨[lit "a"], [lit "b"], by decide, by decide, by decide, by decide⟩
  · rintro ⟨-, h⟩
    cases h
  · rintro ⟨h, -⟩
    revert h
    decide

end ShellStores
