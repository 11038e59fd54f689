/-
**The process tree (`HW4/12_2.c`).**

`insert_node` puts a process in front of a linked list.  `build_pstree` goes through the list once,
looks up the parent of each process and appends the process to the parent's array of children, which
ends with a null pointer.  `print_pstree` goes through the list again and prints the tree below each
process that has no parent.

A node is known by its number, in the order of insertion; no call of `malloc` for a node fails.  The
memory of 10 bytes that each call of `print_pstree_recursive` gets for the indentation is not
initialised: what is in it, and whether the `write` of the call succeeds, is a parameter.  The
recursion is cut off at a given depth.  What is printed is recorded with the process and the level
of the call that prints it.

Main definitions:

* `PsTree.Process`, `PsTree.ProcNode`, `PsTree.State` — a process, a node, and the list;
* `PsTree.insertNode`, `PsTree.findNode`, `PsTree.buildPstree` — the tree;
* `PsTree.renderLine`, `PsTree.printRecursive`, `PsTree.printPstree` — what is printed;
* `PsTree.drawTree` — inserting, building and printing.
-/

import NetSysProg.CString

set_option relaxedAutoImplicit false
set_option autoImplicit false

namespace PsTree

open CString

/-! ### The list -/

/-- What `insert_node` is given: a name, which is a string, and two process ids. -/
structure Process where
  name : List Byte
  pid : ℤ
  ppid : ℤ
  nul_notMem : nul ∉ name
  deriving DecidableEq

abbrev Addr := ℕ

/-- `BUFFER_SIZE` -/
def bufferSize : ℕ := 1024

/-- `struct proc_node`; of the array of children the cells that have been written. -/
structure ProcNode extends Process where
  parent : Option Addr
  children : List (Option Addr)
  next : Option Addr
  deriving DecidableEq

/-- The nodes, and `list_root`. -/
structure State where
  nodes : List ProcNode
  listRoot : Option Addr
  deriving DecidableEq

def State.get (s : State) (a : Addr) : Outcome ProcNode := Outcome.deref s.nodes[a]?

def State.set (s : State) (a : Addr) (n : ProcNode) : State := { s with nodes := s.nodes.set a n }

/-- `insert_node`; the name is copied into an array of `BUFFER_SIZE` bytes. -/
def insertNode (p : Process) (s : State) : Outcome State :=
  if p.name.length < bufferSize then
    .ok ⟨s.nodes ++ [⟨p, none, [none], s.listRoot⟩], some s.nodes.length⟩
  else .fault

/-- The processes are inserted one after the other. -/
def insertAll : List Process → State → Outcome State
  | [], s => .ok s
  | p :: ps, s => do
      let s ← insertNode p s
      insertAll ps s

/-- The loop of `find_node`. -/
def findLoop (s : State) (pid : ℤ) : ℕ → Option Addr → Outcome (Option Addr)
  | 0, _ => .timeout
  | _ + 1, none => .ok none
  | fuel + 1, some curPtr => do
      let cur ← s.get curPtr
      if cur.pid = pid then return some curPtr else findLoop s pid fuel cur.next

/-- `find_node`; the list is as long as there are nodes. -/
def findNode (s : State) (pid : ℤ) : Outcome (Option Addr) :=
  findLoop s pid (s.nodes.length + 1) s.listRoot

/-! ### Building the tree -/

/-- `while(parent_ptr->children[child_index] != NULL) child_index++`; a cell that has not been
written must not be read. -/
def childIndex : List (Option Addr) → Outcome ℕ
  | [] => .fault
  | none :: _ => .ok 0
  | some _ :: cells => do
      let i ← childIndex cells
      return i + 1

/-- `children[i] = c`, in an array of 1024 cells. -/
def storeCell (cells : List (Option Addr)) (i : ℕ) (c : Option Addr) :
    Outcome (List (Option Addr)) :=
  if i < 1024 then .ok (cells.take i ++ c :: cells.drop (i + 1)) else .fault

/-- The child is appended, and the null pointer behind it. -/
def addChild (child : Addr) (cells : List (Option Addr)) : Outcome (List (Option Addr)) := do
  let i ← childIndex cells
  let cells ← storeCell cells i (some child)
  storeCell cells (i + 1) none

/-- The body of the loop of `build_pstree`. -/
def buildNode (curPtr : Addr) (s : State) : Outcome State := do
  let cur ← s.get curPtr
  let parentPtr ← findNode s cur.ppid
  match parentPtr with
  | none => return s
  | some parentPtr => do
      let s := s.set curPtr { cur with parent := some parentPtr }
      let parent ← s.get parentPtr
      let children ← addChild curPtr parent.children
      return s.set parentPtr { parent with children := children }

/-- The loop of `build_pstree`. -/
def buildLoop : ℕ → Option Addr → State → Outcome State
  | 0, _, _ => .timeout
  | _ + 1, none, s => .ok s
  | fuel + 1, some curPtr, s => do
      let s ← buildNode curPtr s
      let cur ← s.get curPtr
      buildLoop fuel cur.next s

/-- `build_pstree` -/
def buildPstree (s : State) : Outcome State := buildLoop (s.nodes.length + 1) s.listRoot s

/-! ### Printing -/

/-- What a call of `print_pstree_recursive` gets from `malloc`, and whether its `write` succeeds. -/
structure Call where
  space : List Byte
  length_space : space.length = 10
  write : Bool

/-- `for(i = 0; i < n; i++) strcat(space, " ")` -/
def indent (space : List Byte) : ℕ → Outcome (List Byte)
  | 0 => .ok space
  | n + 1 => do
      let space ← strcat space [32, nul]
      indent space n

/-- The arguments of `snprintf` behind the indentation. -/
def describe (p : Process) : List Byte :=
  lit "-command: " ++ p.name ++ lit ", pid: " ++ lit (toString p.pid) ++ lit ", ppid: " ++
    lit (toString p.ppid) ++ lit "\n"

/-- What a call writes for its node. -/
def renderLine (c : Call) (p : Process) (level : ℕ) : Outcome (List Byte) := do
  let space ← indent c.space (2 * level)
  let s ← str space
  let output := (s ++ describe p).take (bufferSize - 1)
  if c.write then return output else .exit 1 "write"

/-- What has been written, by the call for which process and which level. -/
structure Printed where
  proc : Process
  level : ℕ
  text : List Byte
  deriving DecidableEq

/-- The loop over the children; `k` is the number of calls so far. -/
def eachChild (print : Addr → ℕ → Outcome (List Printed)) :
    List (Option Addr) → ℕ → Outcome (List Printed)
  | [], _ => .fault
  | none :: _, _ => .ok []
  | some cnode :: cells, k => do
      let block ← print cnode k
      let rest ← eachChild print cells (k + block.length)
      return block ++ rest

/-- `print_pstree_recursive`, no deeper than `fuel` calls; `k` is the number of calls so far. -/
def printRecursive (env : ℕ → Call) (s : State) : ℕ → ℕ → Addr → ℕ → Outcome (List Printed)
  | 0, _, _, _ => .timeout
  | fuel + 1, level, nodePtr, k => do
      let node ← s.get nodePtr
      let text ← renderLine (env k) node.toProcess level
      let below ← eachChild (printRecursive env s fuel (level + 1)) node.children (k + 1)
      return ⟨node.toProcess, level, text⟩ :: below

/-- The loop of `print_pstree`. -/
def printLoop (env : ℕ → Call) (s : State) (depth : ℕ) :
    ℕ → Option Addr → ℕ → Outcome (List Printed)
  | 0, _, _ => .timeout
  | _ + 1, none, _ => .ok []
  | fuel + 1, some curPtr, k => do
      let cur ← s.get curPtr
      let block ← if cur.parent = none then printRecursive env s depth 0 curPtr k else .ok []
      let rest ← printLoop env s depth fuel cur.next (k + block.length)
      return block ++ rest

/-- `print_pstree` -/
def printPstree (env : ℕ → Call) (s : State) (depth : ℕ) : Outcome (List Printed) :=
  printLoop env s depth (s.nodes.length + 1) s.listRoot 0

/-- The processes are inserted, and the tree is built and printed. -/
def drawTree (env : ℕ → Call) (depth : ℕ) (procs : List Process) : Outcome (List Printed) := do
  let s ← insertAll procs ⟨[], none⟩
  let s ← buildPstree s
  printPstree env s depth

/-! ### The indentation -/

/-- A space is appended to the string in a buffer, if there is room. -/
theorem strcat_space {g : List Byte} (hg : nul ∉ g) (t : List Byte) :
    strcat (g ++ nul :: t) [32, nul] =
      if t = [] then .fault else .ok (g ++ 32 :: nul :: t.drop 1) := by
  have hspace : str [32, nul] = .ok [32] := rfl
  rw [strcat, str_append hg, Outcome.bind_ok, hspace, Outcome.bind_ok]
  cases t with
  | nil =>
      rw [if_pos rfl]
      exact copyAt_eq_fault (by simp) (by simp)
  | cons b t =>
      have hcopy : copyAt (g ++ nul :: b :: t) g.length [32, nul] = .ok (g ++ [32, nul] ++ t) :=
        copyAt_append g (by simp)
      rw [if_neg (List.cons_ne_nil b t)]
      simpa using hcopy

/-- **The indentation**: `n` spaces behind what was in the buffer, if there is room for them. -/
theorem indent_str {g : List Byte} (hg : nul ∉ g) (t : List Byte) (n : ℕ) :
    (do
      let space ← indent (g ++ nul :: t) n
      str space) = if n ≤ t.length then .ok (g ++ List.replicate n 32) else .fault := by
  induction n generalizing g t with
  | zero => rw [indent, Outcome.bind_ok, str_append hg, if_pos (Nat.zero_le _)]; simp
  | succ n ih =>
      rw [indent, strcat_space hg]
      cases t with
      | nil => simp
      | cons b t =>
          have hg' : nul ∉ g ++ [32] := by
            rw [List.mem_append, not_or]
            exact ⟨hg, by decide⟩
          have hsplit : g ++ 32 :: nul :: (b :: t).drop 1 = (g ++ [32]) ++ nul :: t := by simp
          rw [if_neg (List.cons_ne_nil b t), Outcome.bind_ok, hsplit, ih hg', List.length_cons]
          simp [List.replicate_succ]

/-- What a call for a process should write at a level. -/
def line (level : ℕ) (p : Process) : List Byte := List.replicate (2 * level) 32 ++ describe p

/-- The buffer that a call gets holds the empty string, and its `write` succeeds. -/
def Call.Clean (c : Call) : Prop := c.space.head? = some nul ∧ c.write = true

instance (c : Call) : Decidable c.Clean := inferInstanceAs (Decidable (_ ∧ _))

/-- **What a call writes.** -/
theorem renderLine_eq {c : Call} {g t : List Byte} (hg : nul ∉ g) (hspace : c.space = g ++ nul :: t)
    (p : Process) (level : ℕ) :
    renderLine c p level =
      if 2 * level ≤ t.length then
        if c.write then .ok ((g ++ line level p).take (bufferSize - 1)) else .exit 1 "write"
      else .fault := by
  have hassoc : renderLine c p level = (do
      let s ← (do
        let space ← indent c.space (2 * level)
        str space)
      let output := (s ++ describe p).take (bufferSize - 1)
      if c.write then return output else .exit 1 "write") := by
    rw [renderLine]
    cases indent c.space (2 * level) <;> rfl
  rw [hassoc, hspace, indent_str hg]
  by_cases hroom : 2 * level ≤ t.length
  · simp [hroom, line]
  · simp [hroom]

/-- A list that starts with `g` and goes on with its own beginning has the bytes of `g` only. -/
theorem subset_of_periodic {g u : List Byte} {m : ℕ} (h : u = g ++ u.take m) (hg : g ≠ []) :
    u ⊆ g := by
  have hpos := List.length_pos_iff.2 hg
  have htake (n : ℕ) : u.take n ⊆ g := by
    induction n using Nat.strongRecOn with
    | ind n ih =>
        cases n with
        | zero => simp
        | succ n =>
            intro b hb
            rw [h, List.take_append, List.mem_append] at hb
            rcases hb with hb | hb
            · exact List.mem_of_mem_take hb
            · rw [List.take_take] at hb
              exact ih (min (n + 1 - g.length) m) (by omega) hb
  have hall := htake u.length
  rwa [List.take_length] at hall

/-- There is no newline at the beginning of a line. -/
theorem newline_notMem_take (level : ℕ) (p : Process) : newline ∉ (line level p).take 9 := by
  have hsplit : ∃ rest, line level p = (List.replicate (2 * level) 32 ++ lit "-command: ") ++
    rest := by
    refine ⟨p.name ++ lit ", pid: " ++ lit (toString p.pid) ++ lit ", ppid: " ++
      lit (toString p.ppid) ++ lit "\n", ?_⟩
    simp [line, describe]
  obtain ⟨rest, hrest⟩ := hsplit
  have hlen : (List.replicate (2 * level) 32 ++ lit "-command: ").length = 2 * level + 10 := by
    rw [List.length_append, List.length_replicate]
    rfl
  rw [hrest, List.take_append_of_le_length (by omega)]
  intro hmem
  rcases List.mem_append.1 (List.mem_of_mem_take hmem) with hmem | hmem
  · exact absurd (List.eq_of_mem_replicate hmem) (by decide)
  · revert hmem
    decide

theorem newline_mem_line (level : ℕ) (p : Process) : newline ∈ line level p := by
  have hnewline : newline ∈ lit "\n" := by decide
  exact List.mem_append_right _ (List.mem_append_right _ hnewline)

/-- A line with something in front is not the line, even when it is cut off at the end. -/
theorem eq_nil_of_take_eq_line {g : List Byte} (hg : g.length ≤ 9) {level : ℕ} {p : Process}
    (h : (g ++ line level p).take (bufferSize - 1) = line level p) : g = [] := by
  by_contra hne
  have hperiodic : line level p = g ++ (line level p).take (bufferSize - 1 - g.length) := by
    rw [List.take_append, List.take_of_length_le (by rw [bufferSize]; omega)] at h
    exact h.symm
  have hmem := subset_of_periodic hperiodic hne (newline_mem_line level p)
  refine newline_notMem_take level p ?_
  rw [hperiodic, List.take_append, List.take_of_length_le hg]
  exact List.mem_append_left _ hmem

/-- Memory without a null byte does not hold a string. -/
theorem renderLine_eq_fault {c : Call} (h : nul ∉ c.space) (p : Process) (level : ℕ) :
    renderLine c p level = .fault := by
  have hstr : str c.space = .fault := if_neg h
  rw [renderLine]
  cases 2 * level with
  | zero => rw [indent, Outcome.bind_ok, hstr, Outcome.bind_fault]
  | succ n => rw [indent, strcat, hstr, Outcome.bind_fault, Outcome.bind_fault, Outcome.bind_fault]

/-- The string in the memory is empty when the memory starts with a null byte. -/
theorem head_eq_nul_iff {g t : List Byte} (hg : nul ∉ g) :
    (g ++ nul :: t).head? = some nul ↔ g = [] := by
  cases g with
  | nil => simp
  | cons b g =>
      rw [List.mem_cons, not_or] at hg
      simp [Ne.symm hg.1]

/-- **A call writes the right line** just when its buffer holds the empty string, there is room for
the indentation, the line is not cut off, and it can be written. -/
theorem renderLine_eq_line_iff (c : Call) (p : Process) (level : ℕ) :
    renderLine c p level = .ok (line level p) ↔
      c.Clean ∧ level ≤ 4 ∧ (line level p).length < bufferSize := by
  by_cases hnul : nul ∈ c.space
  · obtain ⟨g, t, hspace, hg⟩ := List.eq_append_cons_of_mem hnul
    have hlen := c.length_space
    rw [hspace, List.length_append, List.length_cons] at hlen
    rw [renderLine_eq hg hspace, Call.Clean, hspace, head_eq_nul_iff hg]
    constructor
    · intro h
      split at h
      · next hroom =>
          split at h
          · next hwrite =>
              have hcut := Outcome.ok.inj h
              obtain rfl := eq_nil_of_take_eq_line (by omega) hcut
              have hle := congrArg List.length hcut
              rw [List.nil_append, List.length_take, bufferSize] at hle
              rw [List.length_nil] at hlen
              refine ⟨⟨rfl, hwrite⟩, by omega, ?_⟩
              rw [bufferSize]
              omega
          · cases h
      · cases h
    · rintro ⟨⟨rfl, hwrite⟩, hlevel, hlt⟩
      rw [List.length_nil] at hlen
      rw [if_pos (by omega), if_pos hwrite, List.nil_append,
        List.take_of_length_le (Nat.le_sub_one_of_lt hlt)]
  · rw [renderLine_eq_fault hnul]
    refine iff_of_false (by simp) ?_
    rintro ⟨⟨hhead, -⟩, -⟩
    exact hnul (List.mem_of_mem_head? hhead)

end PsTree
