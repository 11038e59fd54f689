/-
**What processes do before they end.**

`NetSysProg/Processes.lean` computes how the processes that come of a program end.  Here it is
computed what they have done by then: whether one of them comes to an `execvp`, and what they print.
Neither depends on the order in which the processes make their calls.  The rest is the common shape
of an invariant of all processes, and the calls that only lead from one program to the next.

Main definitions:

* `Processes.Comes` — one of the processes that come of a program calls `execvp`;
* `Processes.messages` — what these processes print;
* `Processes.printed` — what an interleaving prints;
* `Processes.Becomes` — a process comes to another program without doing anything of interest.

Main results:

* `Processes.forall_of_step` — the invariant rule for a property of single processes;
* `Processes.exists_atExec_iff` — **`execvp` is called in some interleaving exactly when the program
  comes to one**;
* `Processes.printed_perm_messages` — **every complete interleaving prints the same messages**.
-/

import NetSysProg.Processes

set_option relaxedAutoImplicit false
set_option autoImplicit false

namespace Processes

variable {env : Env}

/-! ### Names -/

namespace Ctx

@[simp] theorem openFile_name (env : Env) (path : Option String) (mode : Mode) (c : Ctx) :
    (c.openFile env path mode).2.name = c.name := by
  unfold openFile
  split
  · rfl
  · split <;> rfl

@[simp] theorem dup2_name (oldfd newfd : ℤ) (c : Ctx) : (c.dup2 oldfd newfd).2.name = c.name := by
  unfold dup2
  split
  · rfl
  · split <;> rfl

@[simp] theorem close_name (fd : ℤ) (c : Ctx) : (c.close fd).name = c.name := by
  unfold close
  split <;> rfl

@[simp] theorem pipe_name (env : Env) (c : Ctx) : (c.pipe env).2.name = c.name := by
  unfold pipe
  split <;> rfl

end Ctx

/-- The process that has ended. -/
def Ended.name : Ended → Name
  | .execed name _ _ | .exited name _ => name

/-- It has gone on to another program. -/
def Ended.isExec : Ended → Bool
  | .execed _ _ _ => true
  | .exited _ _ => false

/-! ### Properties of single processes -/

/-- **A property of processes that every call hands on** is kept by every step of the pool. -/
theorem forall_of_step {Q : Prog → Ctx → Prop} {R : Ended → Prop}
    (hmove : ∀ p c, Q p c →
      (∀ x ∈ (move env p c).running, Q x.1 x.2) ∧ ∀ e ∈ (move env p c).ended, R e)
    {s s' : Pool} {i : ℕ} (hs : (∀ x ∈ s.running, Q x.1 x.2) ∧ ∀ e ∈ s.ended, R e)
    (h : step env s i = some s') : (∀ x ∈ s'.running, Q x.1 x.2) ∧ ∀ e ∈ s'.ended, R e := by
  unfold step at h
  split at h
  · simp at h
  · next p hp =>
      cases h
      obtain ⟨hrunning, hended⟩ := hs
      have hmem : p ∈ s.running := List.mem_of_getElem? hp
      obtain ⟨hnew, hover⟩ := hmove p.1 p.2 (hrunning p hmem)
      constructor
      · intro x hx
        rcases List.mem_append.1 hx with hx | hx
        · exact hrunning x (List.mem_of_mem_eraseIdx hx)
        · exact hnew x hx
      · intro e he
        rcases List.mem_append.1 he with he | he
        · exact hended e he
        · exact hover e he

/-- The step of a process that is running. -/
theorem exists_step_of_mem {s : Pool} {p : Prog} {c : Ctx} (h : (p, c) ∈ s.running) :
    ∃ i s', step env s i = some s' ∧ (∀ x ∈ (move env p c).running, x ∈ s'.running) := by
  obtain ⟨i, hi⟩ := List.mem_iff_getElem?.1 h
  refine ⟨i, _, by rw [step, hi], fun x hx => List.mem_append.2 (Or.inr hx)⟩

theorem calls_le_remaining {s : Pool} {x : Prog × Ctx} (h : x ∈ s.running) :
    calls env x.1 x.2 ≤ remaining env s := by
  obtain ⟨front, back, hsplit⟩ := List.append_of_mem h
  simp only [remaining, hsplit, List.map_append, List.map_cons, List.sum_append, List.sum_cons]
  omega

/-! ### Calls of `execvp` -/

/-- The next call is `execvp`. -/
def Prog.atExec : Prog → Bool
  | .execvp _ _ _ => true
  | _ => false

/-- One of the processes that come of the program calls `execvp`. -/
def Comes (env : Env) : Prog → Ctx → Prop
  | .openFile path mode next, c =>
      let r := c.openFile env path mode
      Comes env (next r.1) r.2
  | .dup2 oldfd newfd next, c =>
      let r := c.dup2 oldfd newfd
      Comes env (next r.1) r.2
  | .close fd next, c => Comes env next (c.close fd)
  | .pipe next, c =>
      let r := c.pipe env
      Comes env (next r.1) r.2
  | .fork failed parent child, c =>
      match env.forkErr c.name with
      | some e => Comes env failed { c with errno := e }
      | none => Comes env parent { c with forks := c.forks + 1 } ∨ Comes env child c.child
  | .execvp _ _ _, _ => True
  | .message _ next, c => Comes env next c
  | .setErrno e next, c => Comes env next { c with errno := e }
  | .exit _, _ => False
  | .exitErrno, _ => False

theorem comes_of_atExec {p : Prog} (h : p.atExec = true) (c : Ctx) : Comes env p c := by
  cases p with
  | execvp file argv failed => trivial
  | _ => simp [Prog.atExec] at h

/-- A program that comes to an `execvp` is at one, or a process that its next call leaves does. -/
theorem comes_move {p : Prog} {c : Ctx} (h : p.atExec = false) :
    Comes env p c ↔ ∃ x ∈ (move env p c).running, Comes env x.1 x.2 := by
  cases p with
  | fork failed parent child =>
      simp only [move, Comes]
      cases env.forkErr c.name <;> simp
  | execvp file argv failed => simp [Prog.atExec] at h
  | _ => simp [move, Comes]

/-- A running process that comes to an `execvp` can be brought there. -/
theorem exists_run_atExec {p : Prog} {c : Ctx} (h : Comes env p c) {s : Pool}
    (hmem : (p, c) ∈ s.running) :
    ∃ is s', Runs.run (step env) s is = some s' ∧ ∃ x ∈ s'.running, x.1.atExec = true := by
  obtain ⟨n, hn⟩ : ∃ n, calls env p c = n := ⟨_, rfl⟩
  induction n using Nat.strongRecOn generalizing p c s with
  | ind n ih =>
      by_cases hexec : p.atExec = true
      · exact ⟨[], s, rfl, (p, c), hmem, hexec⟩
      · obtain ⟨x, hx, hcomes⟩ := (comes_move (by simpa using hexec)).1 h
        obtain ⟨i, s₁, hstep, hnew⟩ := @exists_step_of_mem env _ _ _ hmem
        have hless : calls env x.1 x.2 < n := by
          have hmove := remaining_move env p c
          have hle := @calls_le_remaining env _ _ hx
          omega
        obtain ⟨is, s₂, hrun, hat⟩ := ih _ hless hcomes (hnew x hx) rfl
        exact ⟨i :: is, s₂, (Runs.run_cons_of_step hstep is).trans hrun, hat⟩

/-- **`execvp` is called in some interleaving exactly when the program comes to one.** -/
theorem exists_atExec_iff {p : Prog} {table : Table} :
    (∃ is s, Runs.run (step env) (start p table) is = some s ∧ ∃ x ∈ s.running, x.1.atExec = true) ↔
      Comes env p ⟨[], 0, 0, table, 0⟩ := by
  constructor
  · rintro ⟨is, s, hrun, x, hx, hat⟩
    by_contra hnot
    let Q : Prog → Ctx → Prop := fun p c => ¬ Comes env p c
    have hmove : ∀ p c, Q p c → (∀ x ∈ (move env p c).running, Q x.1 x.2) ∧
        ∀ e ∈ (move env p c).ended, True := by
      intro p c hp
      refine ⟨fun x hx hcomes => ?_, fun _ _ => trivial⟩
      have hexec : p.atExec = false := by
        by_contra hexec
        exact hp (comes_of_atExec (by simpa using hexec) c)
      exact hp ((comes_move hexec).2 ⟨x, hx, hcomes⟩)
    have hall : (∀ x ∈ s.running, Q x.1 x.2) ∧ ∀ e ∈ s.ended, True :=
      (Runs.Reachable.of_run hrun).invariant (fun _ _ _ hs hstep => forall_of_step hmove hs hstep)
        (by simpa [start, Q] using hnot)
    exact hall.1 x hx (comes_of_atExec hat x.2)
  · intro hcomes
    exact exists_run_atExec hcomes (List.mem_singleton.2 rfl)

/-! ### Messages -/

/-- What the next call prints. -/
def Prog.text : Prog → List String
  | .message text _ => [text]
  | _ => []

/-- What an interleaving prints. -/
def printed (env : Env) (s : Pool) : List ℕ → List String
  | [] => []
  | i :: is =>
      match s.running[i]?, step env s i with
      | some p, some s' => p.1.text ++ printed env s' is
      | _, _ => []

/-- What the processes that come of the program print, without an order between processes. -/
def messages (env : Env) : Prog → Ctx → List String
  | .openFile path mode next, c =>
      let r := c.openFile env path mode
      messages env (next r.1) r.2
  | .dup2 oldfd newfd next, c =>
      let r := c.dup2 oldfd newfd
      messages env (next r.1) r.2
  | .close fd next, c => messages env next (c.close fd)
  | .pipe next, c =>
      let r := c.pipe env
      messages env (next r.1) r.2
  | .fork failed parent child, c =>
      match env.forkErr c.name with
      | some e => messages env failed { c with errno := e }
      | none => messages env parent { c with forks := c.forks + 1 } ++ messages env child c.child
  | .execvp file argv failed, c =>
      match file, env.execErr argv with
      | none, _ => messages env failed { c with errno := EFAULT }
      | some _, some e => messages env failed { c with errno := e }
      | some _, none => []
  | .message text next, c => text :: messages env next c
  | .setErrno e next, c => messages env next { c with errno := e }
  | .exit _, _ => []
  | .exitErrno, _ => []

/-- What the running processes will print. -/
def toPrint (env : Env) (s : Pool) : List String :=
  s.running.flatMap fun p => messages env p.1 p.2

theorem messages_move (env : Env) (p : Prog) (c : Ctx) :
    messages env p c = p.text ++ toPrint env (move env p c) := by
  cases p with
  | fork failed parent child =>
      simp only [move, messages, Prog.text]
      cases env.forkErr c.name <;> simp [toPrint]
  | execvp file argv failed =>
      simp only [move, messages, Prog.text]
      cases file <;> cases env.execErr argv <;> simp [toPrint]
  | _ => simp [toPrint, move, messages, Prog.text]

/-- What is printed and what is still to be printed is the same throughout. -/
theorem printed_perm {s s' : Pool} {is : List ℕ} (h : Runs.run (step env) s is = some s') :
    (printed env s is ++ toPrint env s').Perm (toPrint env s) := by
  induction is generalizing s with
  | nil =>
      cases h
      exact .refl _
  | cons i is ih =>
      rw [Runs.run_cons, Option.bind_eq_some_iff] at h
      obtain ⟨t, hstep, h⟩ := h
      have hrest := ih h
      have ht := hstep
      unfold step at ht
      split at ht
      · simp at ht
      · next p hp =>
          cases ht
          have hsplit : (toPrint env s).Perm
              (messages env p.1 p.2 ++ (s.running.eraseIdx i).flatMap fun p =>
                messages env p.1 p.2) := by
            simpa [toPrint] using (perm_eraseIdx hp).flatMap_right fun p => messages env p.1 p.2
          rw [messages_move] at hsplit
          simp only [printed, hp, hstep]
          refine List.perm_iff_count.2 fun text => ?_
          have h₁ := List.perm_iff_count.1 hrest text
          have h₂ := List.perm_iff_count.1 hsplit text
          simp only [toPrint, List.flatMap_append, List.count_append] at h₁ h₂ ⊢
          omega

/-- **Every complete interleaving prints the same messages.** -/
theorem printed_perm_messages {p : Prog} {table : Table} {is : List ℕ} {s : Pool}
    (h : Runs.run (step env) (start p table) is = some s) (hdone : s.running = []) :
    (printed env (start p table) is).Perm (messages env p ⟨[], 0, 0, table, 0⟩) := by
  have hperm := printed_perm h
  simpa [toPrint, start, hdone] using hperm

/-! ### Calls that only lead on -/

/-- The process `p` in the state `c` comes to the program `q` in the state `d` and has till then
neither called `execvp` nor printed anything nor made another process. -/
structure Becomes (env : Env) (p : Prog) (c : Ctx) (q : Prog) (d : Ctx) : Prop where
  leaves : leaves env p c = leaves env q d
  comes : Comes env p c ↔ Comes env q d
  messages : messages env p c = messages env q d
  name : d.name = c.name

namespace Becomes

theorem refl (p : Prog) (c : Ctx) : Becomes env p c p c := ⟨rfl, .rfl, rfl, rfl⟩

theorem trans {p q r : Prog} {c d e : Ctx} (h : Becomes env p c q d) (h' : Becomes env q d r e) :
    Becomes env p c r e :=
  ⟨h.leaves.trans h'.leaves, h.comes.trans h'.comes, h.messages.trans h'.messages,
    h'.name.trans h.name⟩

theorem openFile (path : Option String) (mode : Mode) (next : ℤ → Prog) (c : Ctx) :
    Becomes env (.openFile path mode next) c (next (c.openFile env path mode).1)
      (c.openFile env path mode).2 := ⟨rfl, .rfl, rfl, c.openFile_name env path mode⟩

theorem dup2 (oldfd newfd : ℤ) (next : ℤ → Prog) (c : Ctx) :
    Becomes env (.dup2 oldfd newfd next) c (next (c.dup2 oldfd newfd).1) (c.dup2 oldfd newfd).2 :=
  ⟨rfl, .rfl, rfl, c.dup2_name oldfd newfd⟩

theorem close (fd : ℤ) (next : Prog) (c : Ctx) :
    Becomes env (.close fd next) c next (c.close fd) := ⟨rfl, .rfl, rfl, c.close_name fd⟩

theorem setErrno (e : ℤ) (next : Prog) (c : Ctx) :
    Becomes env (.setErrno e next) c next { c with errno := e } := ⟨rfl, .rfl, rfl, rfl⟩

end Becomes

end Processes
