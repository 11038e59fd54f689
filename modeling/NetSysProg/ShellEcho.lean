/-
**The two versions of `echo` (`HW3`, `HW5/part2`).**

The `bi_echo` of `HW3` copies each argument with a blank behind it into an array of 100 bytes and
writes what is in the array; with `-n` it writes one argument only, whose number is given.  The
`bi_echo` of `HW5/part2` writes the arguments as they are, but never gets beyond the first.  The
result of a call is the list of what its calls of `write` have written.

Main definitions:

* `ShellEcho.biEcho` — `HW3/builtin.c`;
* `ShellEcho.InFull` — every argument has been written, once and in order;
* `ShellEcho.BothEcho` — what both versions should do.

Main results:

* `ShellEcho.biEcho_eq` — **what is written by the version of `HW3`**;
* `ShellEcho.inFull_biEcho_iff` — it writes arguments of up to 99 bytes in full;
* `ShellEcho.echoLoop_eq_timeout` — the loop of `HW5/part2` writes the same argument again and
  again;
* `ShellEcho.not_bothEcho` — **no vector with an argument is echoed by both**.
-/

import NetSysProg.Numerals
import NetSysProg.ShellSurvives

set_option relaxedAutoImplicit false
set_option autoImplicit false

namespace ShellEcho

open CString Numerals ShellInput ShellBuiltins

/-! ### `HW3/builtin.c` -/

/-- `write(STDOUT_FILENO, …)`, the `k`-th of the command. -/
def put (write : ℕ → Bool) (k : ℕ) (output : List Byte) : Outcome (List Byte) :=
  if write k then .ok output else .exit 0 "write"

/-- The string that `snprintf` leaves in `buffer`. -/
def snprintf (output : List Byte) : List Byte := output.take 99

/-- `while(index < string_num && argv[index] != (char *)NULL)`: `argv[index]` behind the loop. -/
def skip (stringNum : ℤ) : Command → ℕ → Option (List Byte)
  | [], _ => none
  | token :: argv, index => if (index : ℤ) < stringNum then
    skip stringNum argv (index + 1) else some token

/-- `while(argv[index] != (char *)NULL)` -/
def echoLoop (write : ℕ → Bool) : Command → ℕ → Outcome (List (List Byte))
  | [], _ => .ok []
  | token :: argv, k => do
      let front ← put write k (snprintf (token ++ lit " "))
      let back ← echoLoop write argv (k + 1)
      return front :: back

def biEcho (write : ℕ → Bool) (argv : Command) : Outcome (List (List Byte)) := do
  let first ← Outcome.deref argv[1]?
  if first = lit "-n" then do
    let count ← Outcome.deref argv[2]?
    -- the sum is an `int`
    if CInt.intMax < atoi count + 2 then .fault
    else
      match skip (atoi count + 2) (argv.drop 3) 3 with
      | none => .exit 0 "-n value too big"
      | some token => do
          let line ← put write 0 (snprintf (token ++ [newline]))
          return [line]
  else do
    let lines ← echoLoop write (argv.drop 1) 0
    let line ← put write lines.length (snprintf [newline])
    return lines ++ [line]

/-! ### What `echo` should write -/

/-- The arguments have been written one after the other, each with a call of its own and perhaps
with a blank behind it, and then perhaps the end of the line. -/
def InFull (args : Command) (writes : List (List Byte)) : Prop :=
  ∃ lines, List.Forall₂ (fun arg line => line = arg ∨ line = arg ++ lit " ") args lines ∧
    (writes = lines ∨ writes = lines ++ [[newline]])

/-- Both versions come back, and each has written the arguments in full. -/
def BothEcho (c : Calls) (argv : Command) : Prop :=
  (∃ writes, biEcho c.write argv = .ok writes ∧ InFull (argv.drop 1) writes) ∧
  ∃ fuel out, ShellBuiltins.biEcho c fuel argv = .ok out ∧ out = (argv.drop 1).flatten

/-! ### The version of `HW3` -/

theorem put_eq_ok_iff {write : ℕ → Bool} {k : ℕ} {output line : List Byte} :
    put write k output = .ok line ↔ write k = true ∧ line = output := by
  unfold put
  cases write k with
  | false => simp
  | true => simp [eq_comm]

/-- The loop comes to its end when the calls of `write` succeed. -/
theorem echoLoop_eq_ok_iff {write : ℕ → Bool} {argv : Command} {k : ℕ} {lines : List (List Byte)} :
    echoLoop write argv k = .ok lines ↔
      (∀ i < argv.length, write (k + i) = true) ∧
        lines = argv.map fun token => snprintf (token ++ lit " ") := by
  induction argv generalizing k lines with
  | nil =>
      rw [echoLoop, Outcome.ok.injEq, List.map_nil, eq_comm]
      exact ⟨fun h => ⟨by simp, h⟩, fun h => h.2⟩
  | cons token argv ih =>
      rw [echoLoop, Outcome.bind_eq_ok, List.length_cons, List.map_cons]
      constructor
      · rintro ⟨front, hput, hrest⟩
        obtain ⟨back, hback, hlines⟩ := Outcome.bind_eq_ok.1 hrest
        obtain ⟨hfront, rfl⟩ := put_eq_ok_iff.1 hput
        obtain ⟨hwrite, rfl⟩ := ih.1 hback
        cases hlines
        refine ⟨fun i hi => ?_, rfl⟩
        cases i with
        | zero => exact hfront
        | succ i =>
            have hi' := hwrite i (by omega)
            rwa [Nat.add_assoc, Nat.add_comm 1] at hi'
      · rintro ⟨hwrite, rfl⟩
        have hback := ih.2 ⟨fun i hi => by
          have hi' := hwrite (i + 1) (by omega)
          rwa [Nat.add_comm i, ← Nat.add_assoc] at hi', rfl⟩
        refine ⟨_, put_eq_ok_iff.2 ⟨hwrite 0 (by omega), rfl⟩, ?_⟩
        rw [hback]
        rfl

/-- **What is written** without `-n`: each argument with a blank behind it, as far as there is room,
and the end of the line. -/
theorem biEcho_eq {write : ℕ → Bool} {cmd token : List Byte} {argv : Command}
    {writes : List (List Byte)} (htoken : token ≠ lit "-n") :
    biEcho write (cmd :: token :: argv) = .ok writes ↔
      (∀ i ≤ argv.length + 1, write i = true) ∧
        writes = ((token :: argv).map fun token => snprintf (token ++ lit " ")) ++ [[newline]] := by
  have hfirst : Outcome.deref (cmd :: token :: argv)[1]? = .ok token := rfl
  have hrest : (cmd :: token :: argv).drop 1 = token :: argv := rfl
  have hend : snprintf [newline] = [newline] := rfl
  rw [biEcho, hfirst, Outcome.bind_ok, if_neg htoken, hrest]
  rw [hend, Outcome.bind_eq_ok]
  constructor
  · rintro ⟨lines, hlines, hrest⟩
    obtain ⟨line, hput, hwrites⟩ := Outcome.bind_eq_ok.1 hrest
    obtain ⟨hlast, rfl⟩ := put_eq_ok_iff.1 hput
    obtain ⟨hwrite, rfl⟩ := echoLoop_eq_ok_iff.1 hlines
    cases hwrites
    rw [List.length_map, List.length_cons] at hlast
    refine ⟨fun i hi => ?_, rfl⟩
    rcases Nat.lt_or_eq_of_le hi with hlt | rfl
    · have hi' := hwrite i hlt
      rwa [Nat.zero_add] at hi'
    · exact hlast
  · rintro ⟨hwrite, rfl⟩
    have hlines : echoLoop write (token :: argv) 0 =
        .ok ((token :: argv).map fun token => snprintf (token ++ lit " ")) := by
      refine echoLoop_eq_ok_iff.2 ⟨fun i hi => ?_, rfl⟩
      rw [Nat.zero_add]
      exact hwrite i (Nat.le_of_lt hi)
    have hlast : put write ((token :: argv).map fun token => snprintf (token ++ lit " ")).length
        [newline] = .ok [newline] := by
      rw [List.length_map, List.length_cons]
      exact put_eq_ok_iff.2 ⟨hwrite _ le_rfl, rfl⟩
    refine ⟨_, hlines, ?_⟩
    rw [hlast]
    rfl

theorem length_blank : (lit " ").length = 1 := by decide

/-- A line that has been written is the argument exactly if it had room, with or without the
blank. -/
theorem snprintf_full_iff (token : List Byte) :
    (snprintf (token ++ lit " ") = token ∨ snprintf (token ++ lit " ") = token ++ lit " ") ↔
      token.length ≤ 99 := by
  have hlen : (snprintf (token ++ lit " ")).length = min 99 (token.length + 1) := by
    rw [snprintf, List.length_take, List.length_append, length_blank]
  constructor
  · rintro (h | h)
    · rw [h] at hlen
      omega
    · rw [h, List.length_append, length_blank] at hlen
      omega
  · intro h
    rcases Nat.lt_or_eq_of_le h with hlt | heq
    · exact Or.inr (List.take_of_length_le (by rw [List.length_append, length_blank]; exact hlt))
    · exact Or.inl (List.take_left' heq)

/-- **The version of `HW3`** writes the arguments in full exactly if none is longer than 99
bytes. -/
theorem inFull_biEcho_iff {write : ℕ → Bool} (hwrite : ∀ i, write i = true) (cmd : List Byte)
    {token : List Byte} (htoken : token ≠ lit "-n") (argv : Command) :
    (∃ writes, biEcho write (cmd :: token :: argv) = .ok writes ∧ InFull (token :: argv) writes) ↔
      ∀ arg ∈ token :: argv, arg.length ≤ 99 := by
  have hlines : ∀ args : Command,
      List.Forall₂ (fun arg line => line = arg ∨ line = arg ++ lit " ") args
        (args.map fun arg => snprintf (arg ++ lit " ")) ↔ ∀ arg ∈ args, arg.length ≤ 99 := by
    intro args
    rw [List.forall₂_map_right_iff, List.forall₂_same]
    simp only [snprintf_full_iff]
  constructor
  · rintro ⟨writes, hrun, lines, hfull, hwrites⟩
    obtain ⟨-, rfl⟩ := (biEcho_eq htoken).1 hrun
    have hlength := hfull.length_eq
    rcases hwrites with rfl | hwrites
    · rw [List.length_append, List.length_map, List.length_singleton] at hlength
      omega
    · rw [List.append_left_inj] at hwrites
      rw [← hlines, hwrites]
      exact hfull
  · intro h
    exact ⟨_, (biEcho_eq htoken).2 ⟨fun i _ => hwrite i, rfl⟩, _, (hlines _).2 h, Or.inr rfl⟩

/-! ### The version of `HW5/part2` -/

/-- **The loop of `HW5/part2`** writes the same argument again and again. -/
theorem echoLoop_eq_timeout {c : Calls} (hwrite : ∀ i, c.write i = true)
    {argv : Command} {index : ℕ}
    {token : List Byte} (h : argv[index]? = some token) (fuel k : ℕ) :
    ShellBuiltins.echoLoop c argv index fuel k = .timeout := by
  induction fuel generalizing k with
  | zero => rw [ShellBuiltins.echoLoop, h]
  | succ fuel ih =>
      rw [ShellBuiltins.echoLoop, h]
      dsimp only
      rw [ShellBuiltins.put, if_pos (hwrite k), Outcome.bind_ok, ih, Outcome.bind_timeout]

/-- **No vector with an argument is echoed by both versions**: that of `HW5/part2` does not come
back. -/
theorem not_bothEcho (c : Calls) (cmd token : List Byte) (argv : Command) :
    ¬ BothEcho c (cmd :: token :: argv) := by
  rintro ⟨-, fuel, out, hrun, -⟩
  exact echoLoop_ne_ok c rfl fuel 0 out hrun

/-- **`echo a`** does not come back from the loop of `HW5/part2`, and `HW3` cuts off an argument of
100 bytes. -/
theorem not_bothEcho_a :
    (∀ fuel, ShellBuiltins.biEcho allSucceed fuel [lit "echo", lit "a"] = .timeout) ∧
      ¬ BothEcho allSucceed [lit "echo", lit "a"] ∧
      ¬ ∃ writes, biEcho allSucceed.write [lit "echo", List.replicate 100 97] = .ok writes ∧
        InFull [List.replicate 100 97] writes := by
  refine ⟨fun fuel => echoLoop_eq_timeout (fun _ => rfl) rfl fuel 0, ?_, ?_⟩
  · rintro ⟨-, fuel, out, hrun, -⟩
    exact echoLoop_ne_ok allSucceed rfl fuel 0 out hrun
  · have hne : List.replicate 100 (97 : Byte) ≠ lit "-n" := by decide
    have hwrite : ∀ i, allSucceed.write i = true := fun _ => rfl
    rw [inFull_biEcho_iff hwrite _ hne, List.forall_mem_singleton, List.length_replicate]
    decide

end ShellEcho
