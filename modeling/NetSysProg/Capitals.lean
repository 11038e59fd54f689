/-
**When the capitalised line is right (`HW6/44_1.c`).**

What the parent prints depends on how its input and the two pipes are cut into results of `read`.
It is right when the one `read` from the standard input returns all of it, without a null byte and
with room for the one that ends the string; when the child never reads less than the string that is
in its buffer already; and when the parent's one `read` from the second pipe leaves no lower-case
letter of its own input behind what it returns.

Main definitions:

* `Capitals.Whole` — this condition, on a single step;
* `Capitals.Correct` — what the parent has printed when it exits;
* `Capitals.Inv` — the invariant of the runs whose steps meet the condition.

Main results:

* `Capitals.Inv.of_move` — **the invariant is kept by every step that meets the condition**;
* `Capitals.correct_of_whole` — the parent prints its input with capitals, in every such run;
* `Capitals.exists_not_correct` — two runs in which it does not.
-/

import NetSysProg.CapitalsModel

set_option relaxedAutoImplicit false
set_option autoImplicit false

namespace Capitals

open CString

/-! ### The condition -/

/-- The parent has read from the second pipe. -/
def ParentPc.received : ParentPc → Bool
  | .output | .closeReceive | .wait | .exited => true
  | _ => false

/-- The `read` from the standard input returns everything, which is a string that fits into the
buffer; a `read` of the child, as long as the parent has not read its result, returns at least as
many bytes as the string in its buffer has; the parent's `read` of the result leaves no lower-case
letter behind it. -/
def Whole (s : State) : Act → Prop
  | .parent n =>
      (s.parent = .input → n = s.stdin.length ∧ n < bufferSize ∧ nul ∉ s.stdin) ∧
      (s.parent = .receive → ∀ b ∈ s.parentBuf.drop n, ¬ IsLower b)
  | .child n =>
      s.child = .receive → s.pipe1 ≠ [] → s.parent.received = false →
        (s.childBuf.takeWhile (· ≠ nul)).length ≤ n

instance (s : State) (a : Act) : Decidable (Whole s a) :=
  match a with
  | .parent _ => inferInstanceAs (Decidable ((_ → _ ∧ _ ∧ _) ∧ (_ → _)))
  | .child _ => inferInstanceAs (Decidable (_ → _ → _ → _))

/-- The parent has not read past its buffer, and when it exits it has printed the prompt and the
capitalised input. -/
def Correct (x : List Byte) (s : State) : Prop :=
  s.parent ≠ .fault ∧ (s.parent = .exited → s.stdout = prompt ++ x.map capital)

/-! ### The invariant -/

/-- A string that fits into the buffer. -/
def Fits (x : List Byte) : Prop := x.length < bufferSize ∧ nul ∉ x

theorem Fits.str_pad {x : List Byte} (h : Fits x) : str (pad bufferSize x) = .ok x :=
  CString.str_pad h.1 h.2

theorem Fits.map_capital {x : List Byte} (h : Fits x) : Fits (x.map capital) :=
  ⟨by rw [List.length_map]; exact h.1, nul_notMem_map_capital h.2⟩

/-- A part of a string that fits. -/
theorem Fits.of_append {a d r : List Byte} (h : Fits (a ++ d ++ r)) : Fits d := by
  have hlen := h.1
  have hnul := h.2
  simp only [List.length_append, List.mem_append, not_or] at hlen hnul
  exact ⟨by omega, hnul.1.2⟩

/-- The child waits for the first bytes. -/
def Idle (s : State) : Prop :=
  s.pipe1 = [] ∧ s.pipe2 = [] ∧ s.childBuf = pad bufferSize [] ∧ s.child = .receive

/-- How far the child is with the input `x`: it has sent the capitals of `a`, and `d` is in its
buffer. -/
def Follows (x : List Byte) (s : State) : Prop :=
  match s.child with
  | .receive => ∃ a d, x = a ++ s.pipe1 ∧ s.pipe2 = a.map capital ∧ Fits d ∧
      s.childBuf = pad bufferSize d
  | .convert => ∃ a d, x = a ++ d ++ s.pipe1 ∧ s.pipe2 = a.map capital ∧
    s.childBuf = pad bufferSize d
  | .send => ∃ a d, x = a ++ d ++ s.pipe1 ∧ s.pipe2 = a.map capital ∧
      s.childBuf = pad bufferSize (d.map capital)
  | .close => s.pipe1 = [] ∧ s.pipe2 = x.map capital
  | .exited => s.pipe1 = [] ∧ s.pipe2 = x.map capital
  | .killed => False
  | .fault => False

/-- **The invariant**, by the call at which the parent is. -/
def Inv (x : List Byte) (s : State) : Prop :=
  match s.parent with
  | .prompt => s.stdin = x ∧ s.parentBuf = pad bufferSize [] ∧ s.stdout = [] ∧ Idle s
  | .input => s.stdin = x ∧ s.parentBuf = pad bufferSize [] ∧ s.stdout = prompt ∧ Idle s
  | .send => Fits x ∧ s.parentBuf = pad bufferSize x ∧ s.stdout = prompt ∧ Idle s
  | .closeSend => Fits x ∧ s.parentBuf = pad bufferSize x ∧ s.stdout = prompt ∧ Follows x s
  | .receive => Fits x ∧ s.parentBuf = pad bufferSize x ∧ s.stdout = prompt ∧ Follows x s
  | .output => Fits x ∧ s.parentBuf = pad bufferSize (x.map capital) ∧ s.stdout = prompt
  | .closeReceive => s.stdout = prompt ++ x.map capital
  | .wait => s.stdout = prompt ++ x.map capital
  | .exited => s.stdout = prompt ++ x.map capital
  | .fault => False

theorem Inv.init (x : List Byte) : Inv x (init x) := ⟨rfl, rfl, rfl, rfl, rfl, rfl, rfl⟩

theorem Inv.correct {x : List Byte} {s : State} (h : Inv x s) : Correct x s := by
  constructor
  · intro hpc
    simp only [Inv, hpc] at h
  · intro hpc
    simp only [Inv, hpc] at h
    exact h

/-! ### The child -/

/-- The second pipe holds the capitals of a part of the input. -/
theorem Follows.pipe2 {x : List Byte} {s : State} (h : Follows x s) :
    ∃ a r, x = a ++ r ∧ s.pipe2 = a.map capital := by
  unfold Follows at h
  split at h
  · obtain ⟨a, d, hx, hpipe, -⟩ := h
    exact ⟨a, s.pipe1, hx, hpipe⟩
  · obtain ⟨a, d, hx, hpipe, -⟩ := h
    exact ⟨a, d ++ s.pipe1, by rw [hx, List.append_assoc], hpipe⟩
  · obtain ⟨a, d, hx, hpipe, -⟩ := h
    exact ⟨a, d ++ s.pipe1, by rw [hx, List.append_assoc], hpipe⟩
  · exact ⟨x, [], (List.append_nil x).symm, h.2⟩
  · exact ⟨x, [], (List.append_nil x).symm, h.2⟩
  · exact h.elim
  · exact h.elim

/-- **The steps of the child** while the parent waits for it. -/
theorem Follows.of_move {x : List Byte} {s s' : State} {n : ℕ} (hx : Fits x) (h : Follows x s)
    (hholds : s.parent.holds2 = true) (hrecv : s.parent.received = false)
    (hok : Whole s (.child n)) (hs : Move s (.child n) s') : Follows x s' := by
  cases hs with
  | childEof hpc hpipe hclosed =>
      simp only [Follows, hpc] at h
      obtain ⟨a, d, rfl, hpipe2, -⟩ := h
      exact ⟨hpipe, by rw [hpipe2, hpipe, List.append_nil]⟩
  | childReceive hpc hpipe hsize hlen =>
      have hstale := hok hpc hpipe hrecv
      simp only [Follows, hpc] at h
      obtain ⟨a, d, rfl, hpipe2, hd, hbuf⟩ := h
      -- the string in the buffer is no longer than the bytes read
      have hd' : d.length ≤ n := by
        rwa [hbuf, pad_eq_cons hd.1, takeWhile_append_cons hd.2] at hstale
      have htake : (s.pipe1.take n).length = n := by rw [List.length_take]; omega
      refine ⟨a, s.pipe1.take n, ?_, hpipe2, ?_⟩
      · rw [List.append_assoc, List.take_append_drop]
      · rw [hbuf, readInto_pad_of_le (by rw [htake]; exact hd') (by rw [htake]; exact hsize)]
  | childConvert hpc hconv =>
      simp only [Follows, hpc] at h
      obtain ⟨a, d, rfl, hpipe2, hbuf⟩ := h
      have hd := hx.of_append
      rw [hbuf, convert_pad hd.1 hd.2] at hconv
      cases hconv
      exact ⟨a, d, rfl, hpipe2, rfl⟩
  | childSend hpc _ hstr =>
      simp only [Follows, hpc] at h
      obtain ⟨a, d, rfl, hpipe2, hbuf⟩ := h
      have hd := hx.of_append.map_capital
      rw [hbuf, hd.str_pad] at hstr
      cases hstr
      exact ⟨a ++ d, d.map capital, rfl, by rw [hpipe2, List.map_append], hd, hbuf⟩
  | childKilled hpc hheld => exact absurd (hholds.symm.trans hheld) (by simp)
  | childFault hfault =>
      rcases hfault with ⟨hpc, hconv⟩ | ⟨hpc, -, hstr⟩
      · simp only [Follows, hpc] at h
        obtain ⟨a, d, rfl, -, hbuf⟩ := h
        have hd := hx.of_append
        exact absurd (hbuf ▸ convert_pad hd.1 hd.2) (hconv _)
      · simp only [Follows, hpc] at h
        obtain ⟨a, d, rfl, -, hbuf⟩ := h
        exact absurd (hbuf ▸ hx.of_append.map_capital.str_pad) (hstr _)
  | childClose hpc =>
      simp only [Follows, hpc] at h
      exact h

/-- The child does not move before the first bytes have been sent. -/
theorem Idle.not_move {s s' : State} {n : ℕ} (h : Idle s) (hholds : s.parent.holds1 = true) :
    ¬ Move s (.child n) s' := by
  obtain ⟨hpipe1, -, -, hchild⟩ := h
  intro hs
  cases hs with
  | childEof _ _ hclosed => exact absurd (hholds.symm.trans hclosed) (by simp)
  | childReceive _ hpipe => exact hpipe hpipe1
  | childConvert hpc => simp [hchild] at hpc
  | childSend hpc => simp [hchild] at hpc
  | childKilled hpc => simp [hchild] at hpc
  | childFault hfault => simp [hchild] at hfault
  | childClose hpc => simp [hchild] at hpc

/-! ### The run -/

/-- The bytes that the parent has behind what it receives are those of its input. -/
theorem readInto_capitals {x a r : List Byte} (hfits : Fits x) (hx : x = a ++ r) {n : ℕ}
    (hlow : ∀ b ∈ (pad bufferSize x).drop n, ¬ IsLower b) (hn : n ≤ a.length) :
    readInto (pad bufferSize x) ((a.map capital).take n) = pad bufferSize (x.map capital) := by
  have hlen : ((a.map capital).take n).length = n := by
    rw [List.length_take, List.length_map]
    omega
  have hnx : n ≤ x.length := by
    rw [hx, List.length_append]
    omega
  have hbound : ((a.map capital).take n).length ≤ bufferSize := by
    rw [hlen]
    exact hnx.trans hfits.1.le
  rw [readInto_pad hfits.1.le hbound, hlen]
  congr 1
  -- behind the bytes received there is nothing to capitalise
  have hrest : (x.drop n).map capital = x.drop n := by
    refine (List.map_congr_left fun b hb => ?_).trans (List.map_id _)
    refine capital_of_not_isLower (hlow b ?_)
    rw [pad, List.drop_append_of_le_length hnx]
    exact List.mem_append_left _ hb
  have htake : a.take n = x.take n := by rw [hx, List.take_append_of_le_length hn]
  rw [← List.map_take, htake, ← hrest, ← List.map_append, List.take_append_drop]

/-- A step of the child. -/
theorem Inv.of_childMove {x : List Byte} {s s' : State} {n : ℕ} (h : Inv x s)
    (hok : Whole s (.child n)) (hs : Move s (.child n) s') : Inv x s' := by
  -- the parent stays where it is
  have hkeep : s'.parent = s.parent ∧ s'.stdin = s.stdin ∧ s'.stdout = s.stdout ∧
      s'.parentBuf = s.parentBuf := by
    cases hs <;> exact ⟨rfl, rfl, rfl, rfl⟩
  obtain ⟨hpc, hin, hout, hbuf⟩ := hkeep
  unfold Inv at h ⊢
  rw [hpc, hin, hout, hbuf]
  split at h
  · next hpar => exact absurd hs (h.2.2.2.not_move (by rw [hpar]; rfl))
  · next hpar => exact absurd hs (h.2.2.2.not_move (by rw [hpar]; rfl))
  · next hpar => exact absurd hs (h.2.2.2.not_move (by rw [hpar]; rfl))
  · next hpar =>
      obtain ⟨hx, hb, ho, hf⟩ := h
      exact ⟨hx, hb, ho, hf.of_move hx (by rw [hpar]; rfl) (by rw [hpar]; rfl) hok hs⟩
  · next hpar =>
      obtain ⟨hx, hb, ho, hf⟩ := h
      exact ⟨hx, hb, ho, hf.of_move hx (by rw [hpar]; rfl) (by rw [hpar]; rfl) hok hs⟩
  · exact h
  · exact h
  · exact h
  · exact h
  · exact h.elim

/-- A step of the parent. -/
theorem Inv.of_parentMove {x : List Byte} {s s' : State} {n : ℕ} (h : Inv x s)
    (hok : Whole s (.parent n)) (hs : Move s (.parent n) s') : Inv x s' := by
  obtain ⟨hinput, hreceive⟩ := hok
  cases hs with
  | prompt hpc =>
      simp only [Inv, hpc] at h
      obtain ⟨hin, hbuf, hout, hidle⟩ := h
      exact ⟨hin, hbuf, by rw [hout, List.nil_append], hidle⟩
  | input hpc hread =>
      obtain ⟨rfl, hlt, hnul⟩ := hinput hpc
      simp only [Inv, hpc] at h
      obtain ⟨hin, hbuf, hout, hidle⟩ := h
      have hfits : Fits x := hin ▸ ⟨hlt, hnul⟩
      refine ⟨hfits, ?_, hout, hidle⟩
      rw [hbuf, List.take_length, hin, readInto_pad_of_le (Nat.zero_le _) hfits.1.le]
  | send hpc hstr =>
      simp only [Inv, hpc] at h
      obtain ⟨hfits, hbuf, hout, hpipe1, hpipe2, hchildBuf, hchild⟩ := h
      rw [hbuf, hfits.str_pad] at hstr
      cases hstr
      refine ⟨hfits, hbuf, hout, ?_⟩
      simp only [Follows, hchild]
      exact ⟨[], [], by rw [hpipe1]; rfl, hpipe2, ⟨by decide, by simp⟩, hchildBuf⟩
  | closeSend hpc =>
      simp only [Inv, hpc] at h
      exact h
  | receive hpc hread =>
      have hlow := hreceive hpc
      simp only [Inv, hpc] at h
      obtain ⟨hfits, hbuf, hout, hfollows⟩ := h
      obtain ⟨a, r, hx, hpipe2⟩ := hfollows.pipe2
      have hn : n ≤ a.length := by
        rw [CanRead, hpipe2] at hread
        split at hread
        · omega
        · simpa using hread.2.2
      refine ⟨hfits, ?_, hout⟩
      rw [hbuf] at hlow ⊢
      rw [hpipe2, readInto_capitals hfits hx hlow hn]
  | output hpc hstr =>
      simp only [Inv, hpc] at h
      obtain ⟨hfits, hbuf, hout⟩ := h
      rw [hbuf, hfits.map_capital.str_pad] at hstr
      cases hstr
      exact congrArg (· ++ x.map capital) hout
  | parentFault hpc hstr =>
      rcases hpc with hpc | hpc
      · simp only [Inv, hpc] at h
        exact absurd (h.2.1 ▸ h.1.str_pad) (hstr _)
      · simp only [Inv, hpc] at h
        exact absurd (h.2.1 ▸ h.1.map_capital.str_pad) (hstr _)
  | closeReceive hpc =>
      simp only [Inv, hpc] at h
      exact h
  | wait hpc _ =>
      simp only [Inv, hpc] at h
      exact h

/-- **The invariant is kept by every step that meets the condition.** -/
theorem Inv.of_move {x : List Byte} {s s' : State} {a : Act} (h : Inv x s) (hok : Whole s a)
    (hs : Move s a s') : Inv x s' := by
  cases a with
  | child n => exact h.of_childMove hok hs
  | parent n => exact h.of_parentMove hok hs

/-- **The capitals are right** in every state of every run whose steps meet the condition. -/
theorem correct_of_whole {x : List Byte} {s : State}
    (h : Runs.ReachableVia step Whole (init x) s) : Correct x s :=
  Inv.correct (h.invariant (fun _ _ _ hi hok hs => hi.of_move hok (Move.of_step hs)) (Inv.init x))

/-- The parent reads `ab` and a newline, the child reads them in one piece, and so does the
parent. -/
def wholeRun : List Act :=
  [.parent 0, .parent 3, .parent 0, .parent 0, .child 3, .child 0, .child 0, .child 0, .child 0,
    .parent 3, .parent 0, .parent 0, .parent 0]

set_option maxRecDepth 2000 in
theorem correct_of_whole_ab :
    ∃ s, Runs.ReachableVia step Whole (init (lit "ab\n")) s ∧ s.parent = .exited ∧
      s.stdout = lit "Enter the input:AB\n" := by
  have hend : (Runs.run (fun s a => if Whole s a then step s a else none) (init (lit "ab\n"))
      wholeRun).map State.parent = some .exited := by decide
  obtain ⟨s, hs, hpc⟩ := Option.map_eq_some_iff.1 hend
  have hvia := Runs.ReachableVia.of_run hs
  refine ⟨s, hvia, hpc, ?_⟩
  rw [(correct_of_whole hvia).2 hpc]
  decide

/-- **Two runs that end with other bytes**: a null byte of the input is not printed, and where the
child reads one byte at first and the parent receives its capital, the second letter is printed as
it was read. -/
theorem exists_not_correct :
    (∃ as s, Runs.run step (init [97, nul]) as = some s ∧ ¬ Correct [97, nul] s) ∧
    ∃ as s, Runs.run step (init (lit "ab")) as = some s ∧ ¬ Correct (lit "ab") s := by
  refine ⟨⟨[.parent 0, .parent 2, .parent 0, .parent 0, .child 1, .child 0, .child 0, .child 0,
    .child 0, .parent 1, .parent 0, .parent 0, .parent 0], ?_⟩, ⟨[.parent 0, .parent 2, .parent 0,
    .parent 0, .child 1, .child 0, .child 0, .parent 1, .parent 0, .child 1, .child 0, .child 0,
    .child 0, .child 0, .parent 0, .parent 0], ?_⟩⟩
  · refine ⟨_, rfl, ?_⟩
    rintro ⟨-, hout⟩
    exact absurd (hout rfl) (by decide)
  · refine ⟨_, rfl, ?_⟩
    rintro ⟨-, hout⟩
    exact absurd (hout rfl) (by decide)

end Capitals
