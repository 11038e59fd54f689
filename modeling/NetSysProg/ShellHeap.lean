/-
**The memory of the shells (`HW3`, `HW5/part2`).**

`parse` builds the vector of a command in memory from `malloc`: a block for the vector, which grows
with `realloc`, a block of 100 bytes for each token, and one more block whose address it stores in
the last place of the vector and at once overwrites with the null pointer.  `free_argv` walks the
vector up to this pointer.  `NetSysProg/ShellInput.lean` takes the vector for the list of its
tokens; here are the two functions and the main loop as they deal with the addresses, for any
allocator, as long as memory does not run out: the exits of `parse` after a `malloc` or `realloc`
that returns the null pointer are left out.

Main definitions:

* `ShellHeap.parse`, `ShellHeap.freeArgv` — the two functions of `parse.c`;
* `ShellHeap.mainLoop` — the loop of `shell.c`;
* `ShellHeap.Holds` — a vector in memory, and the command that it stands for.

Main results:

* `ShellHeap.parse_alike` — **`parse` puts the command into memory**, and a block that nobody can
  free;
* `ShellHeap.freeArgv_adds` — **`free_argv` frees every other block, each once**;
* `ShellHeap.one_block_per_command` — **over a whole session the shells behave as if there was no
  memory to be managed, and lose one block for each command**.
-/

import NetSysProg.Heap
import NetSysProg.ShellInput

set_option relaxedAutoImplicit false
set_option autoImplicit false

namespace ShellHeap

open CString Stdio ShellInput
open Heap (Allocator Adds)

/-! ### Blocks -/

/-- The contents of a block: the places of a vector, some of which have not been written yet, or
bytes. -/
inductive Block
  | pointers (places : List (Option (Option ℕ)))
  | text (bytes : List Byte)

/-- `argv[i]` -/
def loadPlace (h : Heap Block) (argv i : ℕ) : Outcome (Option ℕ) := do
  match ← h.load argv with
  | .pointers places =>
      match places[i]? with
      | some (some p) => .ok p
      | _ => .fault
  | .text _ => .fault

/-- `argv[i] = p` -/
def storePlace (h : Heap Block) (argv i : ℕ) (p : Option ℕ) : Outcome (Heap Block) := do
  match ← h.load argv with
  | .pointers places =>
      if i < places.length then h.store argv (.pointers (places.set i (some p))) else .fault
  | .text _ => .fault

/-- The bytes that a `char *` points to. -/
def loadText (h : Heap Block) (p : Option ℕ) : Outcome (List Byte) := do
  let p ← Outcome.deref p
  match ← h.load p with
  | .text bytes => .ok bytes
  | .pointers _ => .fault

/-- What `realloc` keeps of a vector when it is to have `n` places. -/
def resize (n : ℕ) : Block → Block
  | .pointers places => .pointers ((places ++ List.replicate n none).take n)
  | .text bytes => .text bytes

/-! ### `parse.c` -/

/-- The memory of a token: `malloc(100)`, the store of the address in the vector, and `strcpy`. -/
def installAt (A : Allocator Block) (h : Heap Block) (newArgv count : ℕ) (token : List Byte) :
    Outcome (Heap Block) := do
  let cell := A.malloc h (.text (pad 100 []))
  let h ← storePlace cell.2 newArgv count (some cell.1)
  let p ← loadPlace h newArgv count
  let dst ← loadText h p
  let dst ← strcpy dst (token ++ [nul])
  let p ← Outcome.deref p
  h.store p (.text dst)

/-- The loop of `parse`: the address of the vector and the number of its tokens when no more
come. -/
def parseLoop (A : Allocator Block) (s : List Byte) (newArgv count : ℕ) (h : Heap Block) :
    Outcome ((ℕ × ℕ) × Heap Block) :=
  match _h : strtok s with
  | none => .ok ((newArgv, count), h)
  | some (token, rest) => do
      let moved ← A.realloc h newArgv (resize (count + 1))
      let h ← installAt A moved.2 moved.1 count token
      parseLoop A rest moved.1 (count + 1) h
  termination_by s.length
  decreasing_by exact length_strtok _h

/-- The size of the block that `parse` allocates for the end of the vector. -/
def lastSize : Version → ℕ
  | .hw3 => 100
  | .hw5 => 1

/-- The end of `parse`: one place more, which gets the address of a block and then the null
pointer. -/
def terminate (v : Version) (A : Allocator Block) (newArgv count : ℕ) (h : Heap Block) :
    Outcome (ℕ × Heap Block) := do
  let moved ← A.realloc h newArgv (resize (count + 1))
  let cell := A.malloc moved.2 (.text (pad (lastSize v) []))
  let h ← storePlace cell.2 moved.1 count (some cell.1)
  let h ← storePlace h moved.1 count none
  return (moved.1, h)

/-- `parse`, from the first `strtok` on. -/
def parseString (v : Version) (A : Allocator Block) (s : List Byte) (h : Heap Block) :
    Outcome (Option ℕ × Heap Block) :=
  match strtok s with
  | none => .ok (none, h)
  | some (token, rest) => do
      let vector := A.malloc h (.pointers [none])
      let h ← installAt A vector.2 vector.1 0 token
      let filled ← parseLoop A rest vector.1 1 h
      let ended ← terminate v A filled.1.1 filled.1.2 filled.2
      return (some ended.1, ended.2)

/-- `parse`: the address of the vector, or the null pointer. -/
def parse (v : Version) (A : Allocator Block) (line : List Byte) (h : Heap Block) :
    Outcome (Option ℕ × Heap Block) := do
  let c ← match v with
    | .hw3 => .ok 1
    | .hw5 => strcmp line [newline, nul]
  if c = 0 then return (none, h)
  else
    let s ← str line
    parseString v A s h

/-- The loop of `free_argv`, for a vector that has `n` more places from `index` on. -/
def freeLoop (oldArgv : ℕ) : ℕ → ℕ → Heap Block → Outcome (Heap Block)
  | 0, _, _ => .fault
  | n + 1, index, h => do
      match ← loadPlace h oldArgv index with
      | none => return h
      | some p =>
          let h ← h.free p
          freeLoop oldArgv n (index + 1) h

/-- The number of places of a vector. -/
def places (h : Heap Block) (argv : ℕ) : Outcome ℕ := do
  match ← h.load argv with
  | .pointers places => .ok places.length
  | .text _ => .fault

/-- `free_argv` -/
def freeArgv (oldArgv : ℕ) (h : Heap Block) : Outcome (Heap Block) := do
  let n ← places h oldArgv
  let h ← freeLoop oldArgv n 0 h
  h.free oldArgv

/-! ### `shell.c` -/

/-- The tokens of a vector that has `n` more places from `index` on, up to the null pointer. -/
def tokensFrom (h : Heap Block) (myArgv : ℕ) : ℕ → ℕ → Outcome Command
  | 0, _ => .fault
  | n + 1, index => do
      match ← loadPlace h myArgv index with
      | none => return []
      | some p =>
          let bytes ← loadText h (some p)
          let token ← str bytes
          let rest ← tokensFrom h myArgv n (index + 1)
          return token :: rest

/-- What the functions of the shell see of a vector. -/
def commandAt (h : Heap Block) (myArgv : ℕ) : Outcome Command := do
  let n ← places h myArgv
  tokensFrom h myArgv n 0

/-- Nothing more is done when a function does not return. -/
def gone {α : Type} (done : List Command) : Outcome α → Session
  | .ok _ => ⟨done, .gone (.ok ())⟩
  | .exit status message => ⟨done, .gone (.exit status message)⟩
  | .fault => ⟨done, .gone .fault⟩
  | .timeout => ⟨done, .gone .timeout⟩

/-- **The main loop**, with the memory. -/
def mainLoop (v : Version) (A : Allocator Block) (handle : List Command → Outcome Unit)
    (left : List Command → List Byte → List Byte) :
    ℕ → List Byte → Stream → Heap Block → List Command → Option (Session × Heap Block)
  | 0, _, _, _, _ => none
  | fuel + 1, line, stdin, h, done =>
      let r := fgets longLine line stdin
      if r.nonNull then
        match parse v A r.buf h with
        | .ok (none, h) => mainLoop v A handle left fuel r.buf r.stream h done
        | .ok (some myArgv, h) =>
            match commandAt h myArgv with
            | .ok argv =>
                match handle (done ++ [argv]) with
                | .ok () =>
                    match freeArgv myArgv h with
                    | .ok h => mainLoop v A handle left fuel r.buf
                        (fopen (left (done ++ [argv]) r.stream.rest)) h (done ++ [argv])
                    | o => some (gone (done ++ [argv]) o, h)
                | o => some (gone (done ++ [argv]) o, h)
            | o => some (gone done o, h)
        | o => some (gone done o, h)
      else some (⟨done, .endOfInput⟩, h)

/-! ### One place and one block -/

section Access

variable {h₀ h : Heap Block} {argv p : ℕ} {front back : List (Option (Option ℕ))}
  {bs : List (ℕ × Block)}

theorem loadPlace_adds {place : Option ℕ}
    (hadds : Adds h₀ h ((argv, .pointers (front ++ some place :: back)) :: bs)) :
    loadPlace h argv front.length = .ok place := by
  have hplace : (front ++ some place :: back)[front.length]? = some (some place) := by simp
  rw [loadPlace, hadds.load, Outcome.bind_ok]
  simp only [hplace]

theorem storePlace_adds {old : Option (Option ℕ)}
    (hadds : Adds h₀ h ((argv, .pointers (front ++ old :: back)) :: bs)) (place : Option ℕ) :
    ∃ h', storePlace h argv front.length place = .ok h' ∧
      Adds h₀ h' ((argv, .pointers (front ++ some place :: back)) :: bs) := by
  have hset : (front ++ old :: back).set front.length (some place) =
    front ++ some place :: back := by
    simp
  have hlt : front.length < (front ++ old :: back).length := by simp
  obtain ⟨h', hstore, hadds'⟩ := hadds.store (.pointers (front ++ some place :: back))
  refine ⟨h', ?_, hadds'⟩
  rw [storePlace, hadds.load, Outcome.bind_ok]
  simp only [if_pos hlt, hset]
  exact hstore

theorem loadText_of_load {bytes : List Byte} (hload : h.load p = .ok (.text bytes)) :
    loadText h (some p) = .ok bytes := by
  rw [loadText, Outcome.deref_some, Outcome.bind_ok, hload, Outcome.bind_ok]

theorem places_adds (hadds : Adds h₀ h ((argv, .pointers front) :: bs)) :
    places h argv = .ok front.length := by
  rw [places, hadds.load, Outcome.bind_ok]

/-- One place more. -/
theorem resize_succ (front : List (Option (Option ℕ))) :
    resize (front.length + 1) (.pointers front) = .pointers (front ++ [none]) := by
  have htake : (front ++ List.replicate (front.length + 1) none).take (front.length + 1) =
    front ++ [none] := by
    rw [List.take_append, List.take_of_length_le (Nat.le_succ _), Nat.add_sub_cancel_left,
      List.take_replicate, Nat.min_eq_left (Nat.le_add_left _ _)]
    rfl
  rw [resize, htake]

/-- **A token gets its memory**, and there it is read back, as long as it fits. -/
theorem installAt_alike (A : Allocator Block) (token : List Byte)
    (hadds : Adds h₀ h ((argv, .pointers (front ++ [none])) :: bs)) :
    Outcome.Alike (fun h' token' => ∃ q bytes, str bytes = .ok token' ∧
        Adds h₀ h' ((argv, .pointers (front ++ [some (some q)])) :: (q, .text bytes) :: bs))
      (installAt A h argv front.length token) (install token) := by
  set q := (A.malloc h (.text (pad 100 []))).1
  have hmalloc := (hadds.malloc A (.text (pad 100 []))).perm (List.Perm.swap _ _ _)
  obtain ⟨h₁, hstore, hadds₁⟩ := storePlace_adds hmalloc (some q)
  have hload : loadPlace h₁ argv front.length = .ok (some q) := loadPlace_adds hadds₁
  have hswap := hadds₁.perm (List.Perm.swap _ _ _)
  have htext : loadText h₁ (some q) = .ok (pad 100 []) := loadText_of_load hswap.load
  have hinstall : installAt A h argv front.length token =
      strcpy (pad 100 []) (token ++ [nul]) >>= fun dst => h₁.store q (.text dst) := by
    simp only [installAt]
    rw [hstore, Outcome.bind_ok, hload, Outcome.bind_ok, htext, Outcome.bind_ok]
    rfl
  obtain ⟨s, hstr⟩ : ∃ s, str (token ++ [nul]) = .ok s := ⟨_, if_pos (by simp)⟩
  rw [hinstall, install]
  by_cases hroom : s.length < (pad 100 []).length
  · have hcopy := strcpy_of_str hstr hroom
    obtain ⟨h₂, hstore₂, hadds₂⟩ := hswap.store
      (.text (s ++ nul :: (pad 100 []).drop (s.length + 1)))
    have hback : str (s ++ nul :: (pad 100 []).drop (s.length + 1)) = .ok s :=
      str_append (nul_notMem_of_str hstr) _
    rw [hcopy, Outcome.bind_ok, Outcome.bind_ok, hback, hstore₂]
    exact .ok ⟨q, _, hback, hadds₂.perm (List.Perm.swap _ _ _)⟩
  · rw [strcpy_eq_fault hstr (by omega), Outcome.bind_fault, Outcome.bind_fault]
    exact .fault

end Access

/-! ### Vectors -/

/-- The places that point to the texts. -/
def pointersTo (texts : List (ℕ × List Byte)) : List (Option (Option ℕ)) :=
  texts.map fun t => some (some t.1)

/-- The blocks of the texts. -/
def textBlocks (texts : List (ℕ × List Byte)) : List (ℕ × Block) := texts.map fun t =>
    (t.1, .text t.2)

/-- The blocks added to `h₀` are those of a vector and of its texts, and the blocks `bs`.  Behind
the places of the texts the vector has the places `back`, and the strings of the texts are the
tokens of the command. -/
def Holds (h₀ h : Heap Block) (argv : ℕ) (back : List (Option (Option ℕ))) (command : Command)
    (bs : List (ℕ × Block)) : Prop :=
  ∃ texts, Adds h₀ h ((argv, .pointers (pointersTo texts ++ back)) :: (textBlocks texts ++ bs)) ∧
    List.Forall₂ (fun t token => str t.2 = .ok token) texts command

section Vectors

variable {h₀ h : Heap Block} {argv : ℕ} {command : Command}

/-- A vector with one more place gets one more token. -/
theorem installAt_holds (A : Allocator Block) (token : List Byte)
    (h' : Holds h₀ h argv [none] command []) :
    Outcome.Alike (fun h cell => Holds h₀ h argv [] (command ++ [cell]) [])
      (installAt A h argv command.length token) (install token) := by
  obtain ⟨texts, hadds, htexts⟩ := h'
  have hlen : (pointersTo texts).length = command.length := by
    rw [pointersTo, List.length_map, htexts.length_eq]
  have halike := installAt_alike A token hadds
  rw [hlen] at halike
  refine halike.mono ?_
  rintro h₁ cell ⟨q, bytes, hstr, hadds₁⟩
  refine ⟨texts ++ [(q, bytes)], ?_, List.rel_append htexts (.cons hstr .nil)⟩
  have hpointers : pointersTo (texts ++ [(q, bytes)]) ++ [] =
    pointersTo texts ++ [some (some q)] := by
    rw [List.append_nil, pointersTo, List.map_append]
    rfl
  have hblocks : ((q, Block.text bytes) :: (textBlocks texts ++ [])).Perm
      (textBlocks (texts ++ [(q, bytes)]) ++ []) := by
    rw [List.append_nil, List.append_nil, textBlocks, textBlocks, List.map_append]
    exact (List.perm_append_singleton _ _).symm
  rw [hpointers]
  exact hadds₁.perm (hblocks.cons _)

/-- `realloc` gives the vector one more place. -/
theorem realloc_holds (A : Allocator Block) (h' : Holds h₀ h argv [] command []) :
    ∃ moved h₁, A.realloc h argv (resize (command.length + 1)) = .ok (moved, h₁) ∧
      Holds h₀ h₁ moved [none] command [] := by
  obtain ⟨texts, hadds, htexts⟩ := h'
  have hlen : (pointersTo texts).length = command.length := by
    rw [pointersTo, List.length_map, htexts.length_eq]
  rw [List.append_nil] at hadds
  obtain ⟨moved, h₁, hrealloc, hadds₁⟩ := hadds.realloc A (resize (command.length + 1))
  rw [← hlen, resize_succ] at hadds₁
  exact ⟨moved, h₁, hrealloc, texts, hadds₁, htexts⟩

/-- A string with a token. -/
theorem installTokens_of_strtok {s token rest : List Byte} (h : strtok s = some (token, rest))
    (command : Command) : installTokens s command =
      install token >>= fun cell => installTokens rest (command ++ [cell]) := by
  rw [installTokens]
  split
  · next hnone => rw [hnone] at h; cases h
  · next token' rest' hsome =>
      obtain ⟨rfl, rfl⟩ : token' = token ∧ rest' = rest := by simpa using hsome.symm.trans h
      rfl

/-- A string with a token, in memory. -/
theorem parseLoop_of_strtok {s token rest : List Byte} (h : strtok s = some (token, rest))
    (A : Allocator Block) (newArgv count : ℕ) (m : Heap Block) : parseLoop A s newArgv count m =
      A.realloc m newArgv (resize (count + 1)) >>= fun moved =>
        installAt A moved.2 moved.1 count token >>= fun m =>
          parseLoop A rest moved.1 (count + 1) m := by
  rw [parseLoop]
  split
  · next hnone => rw [hnone] at h; cases h
  · next token' rest' hsome =>
      obtain ⟨rfl, rfl⟩ : token' = token ∧ rest' = rest := by simpa using hsome.symm.trans h
      rfl

/-- **The loop of `parse` puts the tokens into memory.** -/
theorem parseLoop_alike (A : Allocator Block) (s : List Byte) (h' : Holds h₀ h argv [] command []) :
    Outcome.Alike (fun r command' => r.1.2 = command'.length ∧ command.length ≤ command'.length ∧
        Holds h₀ r.2 r.1.1 [] command' [])
      (parseLoop A s argv command.length h) (installTokens s command) := by
  fun_induction installTokens s command generalizing argv h with
  | case1 s command hnone =>
      have hloop : parseLoop A s argv command.length h = .ok ((argv, command.length), h) := by
        rw [parseLoop]
        split
        · rfl
        · next token rest hsome => rw [hnone] at hsome; cases hsome
      rw [hloop]
      exact .ok ⟨rfl, Nat.le_refl _, h'⟩
  | case2 s command token rest hsome ih =>
      obtain ⟨moved, h₁, hrealloc, hholds⟩ := realloc_holds A h'
      rw [parseLoop_of_strtok hsome, hrealloc, Outcome.bind_ok]
      refine (installAt_holds A token hholds).bind fun h₂ cell hnext => ?_
      have hrest := ih cell hnext
      rw [List.length_append, List.length_singleton] at hrest
      exact hrest.mono fun r command' hr => ⟨hr.1, Nat.le_of_succ_le hr.2.1, hr.2.2⟩

/-- **The end of `parse`** stores the null pointer over the only pointer to the block that it has
just allocated. -/
theorem terminate_holds (v : Version) (A : Allocator Block) (h' : Holds h₀ h argv [] command []) :
    ∃ moved last h₁, terminate v A argv command.length h = .ok (moved, h₁) ∧
      Holds h₀ h₁ moved [some none] command [(last, .text (pad (lastSize v) []))] := by
  obtain ⟨moved, h₁, hrealloc, texts, hadds, htexts⟩ := realloc_holds A h'
  have hlen : (pointersTo texts).length = command.length := by
    rw [pointersTo, List.length_map, htexts.length_eq]
  set cell := A.malloc h₁ (.text (pad (lastSize v) []))
  have hmalloc := (hadds.malloc A (.text (pad (lastSize v) []))).perm (List.Perm.swap _ _ _)
  obtain ⟨h₂, hstore, hadds₂⟩ := storePlace_adds hmalloc (some cell.1)
  obtain ⟨h₃, hstore', hadds₃⟩ := storePlace_adds hadds₂ none
  rw [hlen] at hstore hstore'
  refine ⟨moved, cell.1, h₃, ?_, texts, ?_, htexts⟩
  · simp only [terminate]
    rw [hrealloc, Outcome.bind_ok, hstore, Outcome.bind_ok, hstore', Outcome.bind_ok]
    rfl
  · have hblocks : ((cell.1, Block.text (pad (lastSize v) [])) :: (textBlocks texts ++ [])).Perm
        (textBlocks texts ++ [(cell.1, Block.text (pad (lastSize v) []))]) := by
      rw [List.append_nil]
      exact (List.perm_append_singleton _ _).symm
    exact hadds₃.perm (hblocks.cons _)

/-- The vector of a command as `parse` leaves it, and the block that no pointer leads to. -/
def Parsed (v : Version) (h : Heap Block) (r : Option ℕ × Heap Block) : Option Command → Prop
  | none => r = (none, h)
  | some command => ∃ argv last, r.1 = some argv ∧
      Holds h r.2 argv [some none] command [(last, .text (pad (lastSize v) []))]

theorem parseString_alike (v : Version) (A : Allocator Block) (s : List Byte) (h : Heap Block) :
    Outcome.Alike (Parsed v h) (parseString v A s h) (do
      let newArgv ← installTokens s []
      return if newArgv = [] then none else some newArgv) := by
  cases hfirst : strtok s with
  | none =>
      have hnothing : installTokens s [] = .ok [] := by
        rw [installTokens]
        split
        · rfl
        · next token rest hsome => rw [hfirst] at hsome; cases hsome
      rw [parseString, hfirst, hnothing]
      exact .ok rfl
  | some first =>
      obtain ⟨token, rest⟩ := first
      have hvector : Holds h (A.malloc h (.pointers [none])).2 (A.malloc h (.pointers [none])).1
        [none] [] [] :=
        ⟨[], (Adds.refl h).malloc A _, .nil⟩
      rw [installTokens_of_strtok hfirst, Outcome.bind_assoc, parseString, hfirst]
      refine (installAt_holds A token hvector).bind fun h₁ cell hholds => ?_
      refine (parseLoop_alike A rest hholds).bind fun filled command hfilled => ?_
      obtain ⟨hcount, hlen, hholds⟩ := hfilled
      have hne : command ≠ [] := by
        rintro rfl
        exact absurd hlen (by simp)
      obtain ⟨moved, last, h₂, hended, hholds⟩ := terminate_holds v A hholds
      rw [hcount, hended, Outcome.bind_ok, if_neg hne]
      exact .ok ⟨moved, last, rfl, hholds⟩

/-- **`parse` puts the command into memory.** -/
theorem parse_alike (v : Version) (A : Allocator Block) (line : List Byte) (h : Heap Block) :
    Outcome.Alike (Parsed v h) (parse v A line h) (ShellInput.parse v line) := by
  have hline : ∀ c : ℤ, Outcome.Alike (Parsed v h)
      (if c = 0 then .ok (none, h) else str line >>= fun s => parseString v A s h)
      (if c = 0 then .ok none else str line >>= fun s => do
        let newArgv ← installTokens s []
        return if newArgv = [] then none else some newArgv) := by
    intro c
    split
    · exact .ok rfl
    · cases str line with
      | ok s => exact parseString_alike v A s h
      | exit status message => exact .exit status message
      | fault => exact .fault
      | timeout => exact .timeout
  cases v with
  | hw3 => exact hline 1
  | hw5 =>
      simp only [parse, ShellInput.parse]
      cases strcmp line [newline, nul] with
      | ok c => exact hline c
      | exit status message => exact .exit status message
      | fault => exact .fault
      | timeout => exact .timeout

/-! ### What is done with a vector -/

/-- The tokens of a vector are read place by place. -/
theorem tokensFrom_eq {texts : List (ℕ × List Byte)} (front : List (Option (Option ℕ)))
    {bs : List (ℕ × Block)}
    (hadds : Adds h₀ h ((argv, .pointers (front ++ (pointersTo texts ++ [some none]))) :: bs))
    (hload : ∀ t ∈ texts, h.load t.1 = .ok (.text t.2))
    (htexts : List.Forall₂ (fun t token => str t.2 = .ok token) texts command) :
    tokensFrom h argv (texts.length + 1) front.length = .ok command := by
  induction htexts generalizing front with
  | nil =>
      have hplace : loadPlace h argv front.length = .ok none := loadPlace_adds hadds
      rw [List.length_nil, tokensFrom, hplace]
      rfl
  | @cons t token texts command hstr htexts ih =>
      have hplace : loadPlace h argv front.length = .ok (some t.1) := loadPlace_adds hadds
      have hfront : front ++ (pointersTo (t :: texts) ++ [some none]) =
          (front ++ [some (some t.1)]) ++ (pointersTo texts ++ [some none]) := by
        rw [List.append_assoc]
        rfl
      rw [hfront] at hadds
      have hrest := ih _ hadds fun t' ht' => hload t' (List.mem_cons_of_mem _ ht')
      rw [List.length_append, List.length_singleton] at hrest
      have htext : loadText h (some t.1) = .ok t.2 := loadText_of_load (hload t List.mem_cons_self)
      rw [List.length_cons, tokensFrom, hplace, Outcome.bind_ok]
      dsimp only
      rw [htext, Outcome.bind_ok, hstr, Outcome.bind_ok, hrest]
      rfl

/-- **The functions of the shell see the command** that the vector stands for. -/
theorem commandAt_eq {bs : List (ℕ × Block)} (h' : Holds h₀ h argv [some none] command bs) :
    commandAt h argv = .ok command := by
  obtain ⟨texts, hadds, htexts⟩ := h'
  have hload : ∀ t ∈ texts, h.load t.1 = .ok (.text t.2) := by
    intro t ht
    refine hadds.load_of_mem (List.mem_cons_of_mem _ (List.mem_append_left _ ?_))
    exact List.mem_map.2 ⟨t, ht, rfl⟩
  have hplaces : (pointersTo texts ++ [some none]).length = texts.length + 1 := by
    rw [List.length_append, pointersTo, List.length_map, List.length_singleton]
  rw [commandAt, places_adds hadds, Outcome.bind_ok, hplaces]
  exact tokensFrom_eq [] hadds hload htexts

/-- The texts are freed one after the other. -/
theorem freeLoop_adds {texts : List (ℕ × List Byte)} (front : List (Option (Option ℕ)))
    {bs : List (ℕ × Block)} (hadds : Adds h₀ h
      ((argv, .pointers (front ++ (pointersTo texts ++ [some none]))) ::
        (textBlocks texts ++ bs))) :
    ∃ h', freeLoop argv (texts.length + 1) front.length h = .ok h' ∧
      Adds h₀ h' ((argv, .pointers (front ++ (pointersTo texts ++ [some none]))) :: bs) := by
  induction texts generalizing front h with
  | nil =>
      have hplace : loadPlace h argv front.length = .ok none := loadPlace_adds hadds
      refine ⟨h, ?_, hadds⟩
      rw [List.length_nil, freeLoop, hplace]
      rfl
  | cons t texts ih =>
      have hplace : loadPlace h argv front.length = .ok (some t.1) := loadPlace_adds hadds
      obtain ⟨h₁, hfree, hadds₁⟩ := (hadds.perm (List.Perm.swap _ _ _)).free
      have hfront : front ++ (pointersTo (t :: texts) ++ [some none]) =
          (front ++ [some (some t.1)]) ++ (pointersTo texts ++ [some none]) := by
        rw [List.append_assoc]
        rfl
      rw [hfront] at hadds₁ ⊢
      obtain ⟨h₂, hloop, hadds₂⟩ := ih _ hadds₁
      refine ⟨h₂, ?_, hadds₂⟩
      rw [List.length_append, List.length_singleton] at hloop
      rw [List.length_cons, freeLoop, hplace, Outcome.bind_ok]
      dsimp only
      rw [hfree, Outcome.bind_ok, hloop]

/-- **`free_argv` frees the vector and its texts, each once**, and nothing else. -/
theorem freeArgv_adds {bs : List (ℕ × Block)} (h' : Holds h₀ h argv [some none] command bs) :
    ∃ h', freeArgv argv h = .ok h' ∧ Adds h₀ h' bs := by
  obtain ⟨texts, hadds, -⟩ := h'
  have hplaces : (pointersTo texts ++ [some none]).length = texts.length + 1 := by
    rw [List.length_append, pointersTo, List.length_map, List.length_singleton]
  obtain ⟨h₁, hloop, hadds₁⟩ := freeLoop_adds [] hadds
  obtain ⟨h₂, hfree, hadds₂⟩ := hadds₁.free
  refine ⟨h₂, ?_, hadds₂⟩
  rw [freeArgv, places_adds hadds, Outcome.bind_ok, hplaces]
  rw [List.length_nil] at hloop
  rw [hloop, Outcome.bind_ok, hfree]

end Vectors

/-! ### A session -/

/-- The block that a command leaves behind at `p`. -/
def lost (v : Version) (p : ℕ) : ℕ × Block := (p, .text (pad (lastSize v) []))

section Session

variable {v : Version} (A : Allocator Block) (handle : List Command → Outcome Unit)
  (left : List Command → List Byte → List Byte) {line : List Byte} {stdin : Stream} (fuel : ℕ)
  (h : Heap Block) (done : List Command)

theorem mainLoop_of_none (hget : (fgets longLine line stdin).nonNull = true)
    (hparse : ShellInput.parse v (fgets longLine line stdin).buf = .ok none) :
    mainLoop v A handle left (fuel + 1) line stdin h done =
      mainLoop v A handle left fuel (fgets longLine line stdin).buf
        (fgets longLine line stdin).stream h
        done := by
  have halike := parse_alike v A (fgets longLine line stdin).buf h
  rw [hparse] at halike
  generalize hx : parse v A (fgets longLine line stdin).buf h = x at halike
  cases halike with
  | ok hr =>
      obtain rfl := hr
      simp only [mainLoop, hget, if_true, hx]

/-- **A command comes, is handled and goes**, and leaves a block behind. -/
theorem mainLoop_of_some (hget : (fgets longLine line stdin).nonNull = true) {argv : Command}
    (hparse : ShellInput.parse v (fgets longLine line stdin).buf = .ok (some argv)) :
    ∃ h₁ h₂ p, Adds h h₂ [lost v p] ∧ mainLoop v A handle left (fuel + 1) line stdin h done =
      match handle (done ++ [argv]) with
      | .ok () => mainLoop v A handle left fuel (fgets longLine line stdin).buf
          (fopen (left (done ++ [argv]) (fgets longLine line stdin).stream.rest)) h₂
          (done ++ [argv])
      | o => some (gone (done ++ [argv]) o, h₁) := by
  have halike := parse_alike v A (fgets longLine line stdin).buf h
  rw [hparse] at halike
  generalize hx : parse v A (fgets longLine line stdin).buf h = x at halike
  cases halike with
  | @ok r _ hr =>
      obtain ⟨myArgv, h₁⟩ := r
      obtain ⟨p, last, rfl, hholds⟩ := hr
      obtain ⟨h₂, hfree, hadds⟩ := freeArgv_adds hholds
      refine ⟨h₁, h₂, last, hadds, ?_⟩
      simp only [mainLoop, hget, if_true, hx, commandAt_eq hholds, hfree]

/-- A line that `parse` does not return from. -/
theorem mainLoop_of_gone (hget : (fgets longLine line stdin).nonNull = true) (hparse : ∀ r,
      ShellInput.parse v (fgets longLine line stdin).buf ≠ .ok r) :
    ∃ h', mainLoop v A handle left (fuel + 1) line stdin h done =
      some (gone done (ShellInput.parse v (fgets longLine line stdin).buf), h') := by
  have halike := parse_alike v A (fgets longLine line stdin).buf h
  generalize hx : parse v A (fgets longLine line stdin).buf h = x at halike
  generalize hy : ShellInput.parse v (fgets longLine line stdin).buf = y at halike hparse
  cases halike with
  | ok hr => exact absurd rfl (hparse _)
  | exit status message => exact ⟨h, by simp only [mainLoop, hget, if_true, hx]; rfl⟩
  | fault => exact ⟨h, by simp only [mainLoop, hget, if_true, hx]; rfl⟩
  | timeout => exact ⟨h, by simp only [mainLoop, hget, if_true, hx]; rfl⟩

end Session

/-- A session with the memory after it, and the same session without memory: at the end of the input
there is one block more for each command handled in between. -/
def Matches (v : Version) (h : Heap Block) (done : List Command) :
    Option (Session × Heap Block) → Option Session → Prop
  | none, none => True
  | some (session', h'), some session =>
      session' = session ∧ (session.ending = .endOfInput → ∃ ps : List ℕ,
        ps.length + done.length = session.commands.length ∧ Adds h h' (ps.map (lost v)))
  | _, _ => False

/-- The command before the others has left its block, too. -/
theorem Matches.of_command {v : Version} {h h₂ : Heap Block} {done : List Command}
    {argv : Command} {p : ℕ}
    {x : Option (Session × Heap Block)} {y : Option Session}
    (hmatches : Matches v h₂ (done ++ [argv]) x y)
    (hadds : Adds h h₂ [lost v p]) : Matches v h done x y := by
  cases x with
  | none =>
      cases y with
      | none => trivial
      | some session => exact hmatches
  | some x =>
      cases y with
      | none => exact hmatches
      | some session =>
          obtain ⟨hsession, hblocks⟩ := hmatches
          refine ⟨hsession, fun hend => ?_⟩
          obtain ⟨ps, hlen, hadds'⟩ := hblocks hend
          refine ⟨p :: ps, ?_, hadds.trans hadds'⟩
          rw [← hlen, List.length_append, List.length_cons, List.length_singleton]
          omega

/-- A session in which the shell is gone. -/
theorem matches_gone (v : Version) (h h' : Heap Block) (done : List Command) {session : Session}
    (hgone : session.ending ≠ .endOfInput) : Matches v h done (some (session, h')) (some session) :=
  ⟨rfl, fun hend => absurd hend hgone⟩

/-- **A session of a shell.**  For any input, whatever becomes of its offset, any allocator, any
memory in use before and any outcome of the commands, a shell that manages its memory handles the
commands and ends as `NetSysProg/ShellInput.lean` says of the one that does not: nothing is read or
freed that is not there, and a token reaches its function as it was stored.  At the end of the input
the memory is that of the beginning and one block for each command, which no pointer leads to. -/
theorem one_block_per_command (v : Version) (A : Allocator Block)
    (handle : List Command → Outcome Unit)
    (left : List Command → List Byte → List Byte) (fuel : ℕ) (line : List Byte) (stdin : Stream)
    (h : Heap Block) (done : List Command) :
    Matches v h done (mainLoop v A handle left fuel line stdin h done)
      (ShellInput.mainLoop v handle left fuel line stdin done) := by
  induction fuel generalizing line stdin h done with
  | zero => trivial
  | succ fuel ih =>
      by_cases hget : (fgets longLine line stdin).nonNull = true
      · cases hparse : ShellInput.parse v (fgets longLine line stdin).buf with
        | ok argv =>
            cases argv with
            | none =>
                rw [mainLoop_of_none A handle left fuel h done hget hparse]
                simp only [ShellInput.mainLoop, hget, if_true, hparse]
                exact ih _ _ h done
            | some argv =>
                obtain ⟨h₁, h₂, p, hadds, hmain⟩ :=
                  mainLoop_of_some A handle left fuel h done hget hparse
                rw [hmain]
                simp only [ShellInput.mainLoop, hget, if_true, hparse]
                cases handle (done ++ [argv]) with
                | ok _ => exact (ih _ _ h₂ (done ++ [argv])).of_command hadds
                | exit status message => exact matches_gone v h h₁ done (by simp [gone])
                | fault => exact matches_gone v h h₁ done (by simp [gone])
                | timeout => exact matches_gone v h h₁ done (by simp [gone])
        | exit status message | fault | timeout =>
            obtain ⟨h', hgone⟩ := mainLoop_of_gone A handle left fuel h done hget
              (fun r hr => by rw [hparse] at hr; cases hr)
            rw [hgone, hparse]
            simp only [ShellInput.mainLoop, hget, if_true, hparse]
            exact matches_gone v h h' done (by simp [gone])
      · simp only [mainLoop, ShellInput.mainLoop, hget]
        exact ⟨rfl, fun _ => ⟨[], Nat.zero_add _, Adds.refl h⟩⟩

end ShellHeap
