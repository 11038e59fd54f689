/-
**What `ls` writes is what `wc` counts (`HW8/44_6/pipe_ls_wc.c`).**

`NetSysProg/PipeLsWcModel.lean` shows that the calls of the three processes lead where they should,
each for itself.  Here they run together.  The second child is forked while the parent has both ends
open, so it inherits a write end, and it would wait for ever for the end of its input if it did not
close it, or if the parent did not; and a `wc` that found no writer too early would count too
little.  Neither happens: a write end is open exactly as long as `ls` may still write or the parent
has not closed its own.

Main definitions:

* `LsWc.Inv` — where the processes are, what they have open, and what the pipe carries;
* `LsWc.weight` — the calls and bytes that are left.

Main results:

* `LsWc.Inv.of_step` — **every step keeps the invariant**;
* `LsWc.Inv.exited_of_stuck` — nobody waits for ever;
* `LsWc.connects` — **`wc` counts exactly what `ls` writes**, in every interleaving, whatever is
  open at the start and with a pipe of any capacity.
-/

import NetSysProg.Completion
import NetSysProg.PipeLsWcModel

set_option relaxedAutoImplicit false
set_option autoImplicit false

namespace LsWc

open CString Pipes Processes

variable {cap : ℕ} {t : Table} {output : List Byte} {s s' : State cap}

/-! ### The invariant -/

/-- What a child has open, when it is to end up with `target`. -/
def Child.Ok (target : ℕ → Option FileObj) (c : Child) : Prop :=
  match c.pc with
  | .unborn => c.table = []
  | .setup calls => Leads c.table calls target
  | .running => ∀ fd, c.table.get fd = target fd
  | .exited => c.table = []

/-- What the parent has open. -/
def ParentPc.Ok (t table : Table) : ParentPc → Prop
  | .fork1 => table = piped t
  | .fork2 => table = piped t
  | .setup calls => Leads table calls t.get
  | .wait1 => ∀ fd, table.get fd = t.get fd
  | .wait2 => ∀ fd, table.get fd = t.get fd
  | .exited _ => table = []

/-- Which children there are. -/
def ParentPc.Born (parent : ParentPc) (ls wc : ChildPc) : Prop :=
  match parent with
  | .fork1 => ls = .unborn ∧ wc = .unborn
  | .fork2 => ls ≠ .unborn ∧ wc = .unborn
  | .exited status => status = 0 ∧ ls = .exited ∧ wc = .exited
  | _ => ls ≠ .unborn ∧ wc ≠ .unborn

/-- **The invariant.** -/
structure Inv (t : Table) (output : List Byte) (s : State cap) : Prop where
  parent : s.parent.Ok t s.table
  ls : s.ls.Ok (lsTarget t)
  wc : s.wc.Ok (wcTarget t)
  born : s.parent.Born s.ls.pc s.wc.pc
  carries : Carries output s.got s.pipe s.rest
  /-- `ls` does not end before it has written everything. -/
  ls_exited : s.ls.pc = .exited → s.rest = []
  /-- `wc` does not end before it has read everything. -/
  wc_exited : s.wc.pc = .exited →
    s.ls.pc = .exited ∧ s.pipe.content = [] ∧ s.printed = prints t (s.got.count newline)

theorem Inv.init (cap : ℕ) (t : Table) (output : List Byte) : Inv t output (init cap t output) where
  parent := rfl
  ls := rfl
  wc := rfl
  born := ⟨rfl, rfl⟩
  carries := Carries.start output
  ls_exited := by simp [LsWc.init]
  wc_exited := by simp [LsWc.init]

/-- A child that runs or sets itself up has the end that it is to end up with. -/
theorem Child.Ok.holds {target : ℕ → Option FileObj} {c : Child} (h : c.Ok target)
    {o : FileObj} {fd : ℕ}
    (ho : target fd = some o) (hborn : c.pc ≠ .unborn) (hlive : c.pc ≠ .exited) :
    holds o c.table = true := by
  unfold Child.Ok at h
  split at h
  · next hpc => exact absurd hpc hborn
  · exact h.mem ho
  · exact holds_iff.2 ⟨fd, (h fd).trans ho⟩
  · next hpc => exact absurd hpc hlive

/-- **A call of a child does not fail**, and its `execlp` finds the descriptors as they should
be. -/
theorem Child.Ok.setupStep {target : ℕ → Option FileObj} {c : Child} {calls : List Call}
    (h : c.Ok target)
    (hpc : c.pc = .setup calls) :
    (c.setupStep calls).Ok target ∧ (c.setupStep calls).pc ≠ .unborn ∧
    (c.setupStep calls).pc ≠ .exited := by
  simp only [Child.Ok, hpc] at h
  cases calls with
  | nil => exact ⟨h.nil, by simp [Child.setupStep], by simp [Child.setupStep]⟩
  | cons call calls =>
      obtain ⟨table, hcall, hleads⟩ := h.step
      simp only [Child.setupStep, hcall]
      exact ⟨hleads, by simp, by simp⟩

/-- **A writer that has something to write has a reader.** -/
theorem Inv.reader (h : Inv t output s) (hborn : s.ls.pc ≠ .unborn) (hlive : s.ls.pc ≠ .exited) :
    s.holds readEnd = true := by
  unfold State.holds
  by_cases hwc : s.wc.pc = .unborn
  · -- the parent has not closed anything yet
    have hparent : s.table = piped t := by
      have hborn' := h.born
      have hok := h.parent
      cases hpc : s.parent <;> simp_all [ParentPc.Born, ParentPc.Ok]
    have hend : LsWc.holds readEnd s.table = true := by
      refine holds_iff.2 ⟨pfd0 t, ?_⟩
      rw [hparent, get_piped, if_neg (pfd1_ne t).symm, if_pos rfl]
    simp [hend]
  · have hexited : s.wc.pc ≠ .exited := fun hpc => hlive (h.wc_exited hpc).1
    have hzero : wcTarget t 0 = some readEnd := by rw [wcTarget, if_pos rfl]
    have hend : LsWc.holds readEnd s.wc.table = true := h.wc.holds hzero hwc hexited
    simp [hend]

/-- **Without a writer `ls` has ended.** -/
theorem Inv.ls_gone (h : Inv t output s) (hborn : s.ls.pc ≠ .unborn)
    (hholds : s.holds writeEnd = false) :
    s.ls.pc = .exited := by
  by_contra hlive
  have hone : lsTarget t 1 = some writeEnd := by rw [lsTarget, if_pos rfl]
  have hend : LsWc.holds writeEnd s.ls.table = true := h.ls.holds hone hborn hlive
  simp [State.holds, hend] at hholds

/-- Where there is the second child, there is the first. -/
theorem Inv.ls_born (h : Inv t output s) (hwc : s.wc.pc ≠ .unborn) : s.ls.pc ≠ .unborn := by
  have hborn := h.born
  cases hpc : s.parent <;> simp_all [ParentPc.Born]

/-! ### The steps -/

/-- **A step of the parent keeps the invariant.** -/
theorem Inv.of_parentStep (h : Inv t output s) (hs : parentStep t s = some s') :
    Inv t output s' := by
  have hborn := h.born
  have hok := h.parent
  unfold parentStep at hs
  split at hs
  · next hpc =>
      obtain rfl := Option.some.inj hs
      simp only [hpc, ParentPc.Born, ParentPc.Ok] at hborn hok
      refine ⟨hok, ?_, h.wc, ⟨by simp, hborn.2⟩, h.carries, by simp, ?_⟩
      · change Leads s.table (lsCalls t) (lsTarget t)
        rw [hok]
        exact leads_ls t
      · intro hwc
        cases hborn.2.symm.trans hwc
  · next hpc =>
      obtain rfl := Option.some.inj hs
      simp only [hpc, ParentPc.Born, ParentPc.Ok] at hborn hok
      refine ⟨?_, h.ls, ?_, ⟨hborn.1, by simp⟩, h.carries, h.ls_exited, by simp⟩
      · change Leads s.table (parentCalls t) t.get
        rw [hok]
        exact leads_parent t
      · change Leads s.table (wcCalls t) (wcTarget t)
        rw [hok]
        exact leads_wc t
  · next hpc =>
      obtain rfl := Option.some.inj hs
      simp only [hpc, ParentPc.Born, ParentPc.Ok] at hborn hok
      exact ⟨hok.nil, h.ls, h.wc, hborn, h.carries, h.ls_exited, h.wc_exited⟩
  · next call calls hpc =>
      simp only [hpc, ParentPc.Born, ParentPc.Ok] at hborn hok
      obtain ⟨table, hcall, hleads⟩ := hok.step
      rw [hcall] at hs
      obtain rfl := Option.some.inj hs
      exact ⟨hleads, h.ls, h.wc, hborn, h.carries, h.ls_exited, h.wc_exited⟩
  · next hpc =>
      simp only [hpc, ParentPc.Born, ParentPc.Ok] at hborn hok
      split at hs
      · obtain rfl := Option.some.inj hs
        exact ⟨hok, h.ls, h.wc, hborn, h.carries, h.ls_exited, h.wc_exited⟩
      · cases hs
  · split at hs
    · next hboth =>
        obtain rfl := Option.some.inj hs
        exact ⟨rfl, h.ls, h.wc, ⟨rfl, hboth⟩, h.carries, h.ls_exited, h.wc_exited⟩
    · cases hs
  · cases hs

/-- A child that is there and has not ended goes on, and may end once the other has ended or is
there. -/
theorem ParentPc.Born.congr {parent : ParentPc} {ls wc ls' wc' : ChildPc} (h : parent.Born ls wc)
    (hlive : ls ≠ .exited ∨ wc ≠ .exited) (hls : ls = .unborn ↔ ls' = .unborn)
    (hwc : wc = .unborn ↔ wc' = .unborn) : parent.Born ls' wc' := by
  cases parent with
  | fork1 => exact ⟨hls.1 h.1, hwc.1 h.2⟩
  | fork2 => exact ⟨fun heq => h.1 (hls.2 heq), hwc.1 h.2⟩
  | exited status => exact absurd h.2 (by tauto)
  | _ => exact ⟨fun heq => h.1 (hls.2 heq), fun heq => h.2 (hwc.2 heq)⟩

/-- **A step of `ls` keeps the invariant.** -/
theorem Inv.of_lsStep (h : Inv t output s) {n : ℕ} (hs : lsStep s n = some s') :
    Inv t output s' := by
  unfold lsStep at hs
  split at hs
  · cases hs
  · next calls hpc =>
      obtain rfl := Option.some.inj hs
      obtain ⟨hok, hthere, hlive⟩ := h.ls.setupStep hpc
      refine ⟨h.parent, hok, h.wc, h.born.congr (Or.inl (by rw [hpc]; simp)) ?_ Iff.rfl, h.carries,
        fun heq => absurd heq hlive, fun hwc => ?_⟩
      · exact iff_of_false (by rw [hpc]; simp) hthere
      · cases hpc.symm.trans (h.wc_exited hwc).1
  · next hpc =>
      have hborn : s.ls.pc ≠ .unborn := by rw [hpc]; simp
      have hlive : s.ls.pc ≠ .exited := by rw [hpc]; simp
      have hwc : s.wc.pc ≠ .exited := fun hwc => hlive (h.wc_exited hwc).1
      have hgone : s.ls.pc = .unborn ↔ Child.gone.pc = .unborn :=
        iff_of_false hborn (by simp [Child.gone])
      split at hs
      · next hrest =>
          obtain rfl := Option.some.inj hs
          exact ⟨h.parent, rfl, h.wc, h.born.congr (Or.inl hlive) hgone Iff.rfl, h.carries,
            fun _ => hrest, fun heq => absurd heq hwc⟩
      · split at hs
        · next hfd =>
            have hok := h.ls
            simp only [Child.Ok, hpc] at hok
            exact absurd (by rw [hok, lsTarget, if_pos rfl]) hfd
        · split at hs
          · next hreader => rw [h.reader hborn hlive] at hreader; cases hreader
          · split at hs
            · obtain ⟨pipe, hwrite, rfl⟩ := Option.map_eq_some_iff.1 hs
              have hcarries := h.carries
              rw [← List.take_append_drop n s.rest] at hcarries
              exact ⟨h.parent, h.ls, h.wc, h.born, hcarries.write hwrite,
                fun heq => absurd heq hlive, fun heq => absurd heq hwc⟩
            · cases hs
  · cases hs

/-- `wc` has the standard output with which the program was started. -/
theorem prints_wc {c : Child} (h : c.Ok (wcTarget t)) (hpc : c.pc = .running) (count : ℕ) :
    prints c.table count = prints t count := by
  simp only [Child.Ok, hpc] at h
  rw [prints, prints, h, wcTarget, if_neg Nat.one_ne_zero]

/-- **A step of `wc` keeps the invariant.** -/
theorem Inv.of_wcStep (h : Inv t output s) {n : ℕ} (hs : wcStep s n = some s') :
    Inv t output s' := by
  unfold wcStep at hs
  split at hs
  · cases hs
  · next calls hpc =>
      obtain rfl := Option.some.inj hs
      obtain ⟨hok, hthere, hlive⟩ := h.wc.setupStep hpc
      refine ⟨h.parent, h.ls, hok, h.born.congr (Or.inr (by rw [hpc]; simp)) Iff.rfl ?_,
        h.carries, h.ls_exited, fun heq => absurd heq hlive⟩
      exact iff_of_false (by rw [hpc]; simp) hthere
  · next hpc =>
      have hborn : s.wc.pc ≠ .unborn := by rw [hpc]; simp
      have hlive : s.wc.pc ≠ .exited := by rw [hpc]; simp
      split at hs
      · next hfd =>
          have hok := h.wc
          simp only [Child.Ok, hpc] at hok
          exact absurd (by rw [hok, wcTarget, if_pos rfl]) hfd
      · split at hs
        · next hempty =>
            split at hs
            · cases hs
            · next hwriter =>
                obtain rfl := Option.some.inj hs
                have hls : s.ls.pc = .exited := h.ls_gone (h.ls_born hborn) (by simpa using hwriter)
                have hprints := prints_wc h.wc hpc
                refine ⟨h.parent, h.ls, rfl, h.born.congr (Or.inr hlive) Iff.rfl ?_,
                  h.carries, h.ls_exited, fun _ => ⟨hls, hempty, hprints _⟩⟩
                exact iff_of_false hborn (by simp [Child.gone])
        · split at hs
          · obtain ⟨r, hread, rfl⟩ := Option.map_eq_some_iff.1 hs
            exact ⟨h.parent, h.ls, h.wc, h.born, h.carries.read hread, h.ls_exited,
              fun heq => absurd heq hlive⟩
          · cases hs
  · cases hs

/-- **Every step keeps the invariant.** -/
theorem Inv.of_step {a : Act} (h : Inv t output s) (hs : step t s a = some s') :
    Inv t output s' := by
  cases a with
  | parent => exact h.of_parentStep hs
  | ls n => exact h.of_lsStep hs
  | wc n => exact h.of_wcStep hs

/-! ### The measure -/

/-- The calls that the parent still makes. -/
def ParentPc.weight : ParentPc → ℕ
  | .fork1 => 7
  | .fork2 => 6
  | .setup calls => calls.length + 3
  | .wait1 => 2
  | .wait2 => 1
  | .exited _ => 0

/-- The calls that a child still makes, but for those that move bytes. -/
def ChildPc.weight : ChildPc → ℕ
  | .unborn => 6
  | .setup calls => calls.length + 2
  | .running => 1
  | .exited => 0

/-- **The calls and bytes that are left**: a byte is written and read. -/
def weight (s : State cap) : ℕ :=
  s.parent.weight + s.ls.pc.weight + s.wc.pc.weight + 2 * s.rest.length + s.pipe.content.length

/-- The pipe is a new one: the ends are not open at the start. -/
def Fresh (t : Table) : Prop := ∀ fd, t.get fd ≠ some readEnd ∧ t.get fd ≠ some writeEnd

/-- A parent that cannot step waits, or has exited. -/
theorem parent_of_stuck (hstuck : parentStep t s = none) :
    (s.parent = .wait1 ∧ s.ls.pc ≠ .exited ∧ s.wc.pc ≠ .exited) ∨
      (s.parent = .wait2 ∧ ¬ (s.ls.pc = .exited ∧ s.wc.pc = .exited)) ∨
        ∃ status, s.parent = .exited status := by
  unfold parentStep at hstuck
  split at hstuck
  · cases hstuck
  · cases hstuck
  · cases hstuck
  · split at hstuck <;> cases hstuck
  · next hpc =>
      split at hstuck
      · cases hstuck
      · next hnone => exact Or.inl ⟨hpc, not_or.1 hnone⟩
  · next hpc =>
      split at hstuck
      · cases hstuck
      · next hnone => exact Or.inr (Or.inl ⟨hpc, hnone⟩)
  · next status hpc => exact Or.inr (Or.inr ⟨status, hpc⟩)

/-- A writer waits only for room, and a pipe without room is not empty. -/
theorem ls_of_stuck (hcap : 0 < cap) (hborn : s.ls.pc ≠ .unborn) (hstuck : lsStep s 1 = none) :
    s.ls.pc = .exited ∨ s.pipe.content ≠ [] := by
  unfold lsStep at hstuck
  split at hstuck
  · next hpc => exact absurd hpc hborn
  · cases hstuck
  · split at hstuck
    · cases hstuck
    · next hrest =>
        split at hstuck
        · cases hstuck
        · split at hstuck
          · cases hstuck
          · have hpos : 1 ≤ s.rest.length := List.length_pos_iff.2 hrest
            rw [if_pos ⟨Nat.le_refl 1, hpos⟩, Option.map_eq_none_iff] at hstuck
            right
            intro hempty
            have hfits : (s.rest.take 1).length ≤ s.pipe.room := by
              rw [List.length_take_of_le hpos, Pipe.room_of_content_nil hempty]
              exact hcap
            obtain ⟨pipe, hwrite⟩ := Pipe.exists_write hfits
            rw [hwrite] at hstuck
            cases hstuck
  · next hpc => exact Or.inl hpc

/-- A reader waits only while the pipe is empty and has a writer. -/
theorem wc_of_stuck (hborn : s.wc.pc ≠ .unborn) (hstuck : wcStep s 1 = none) :
    s.wc.pc = .exited ∨ (s.wc.pc = .running ∧ s.pipe.content = [] ∧ s.holds writeEnd = true) := by
  unfold wcStep at hstuck
  split at hstuck
  · next hpc => exact absurd hpc hborn
  · cases hstuck
  · next hpc =>
      split at hstuck
      · cases hstuck
      · split at hstuck
        · next hempty =>
            split at hstuck
            · next hwriter => exact Or.inr ⟨hpc, hempty, hwriter⟩
            · cases hstuck
        · next hfull =>
            obtain ⟨bs, pipe, hread⟩ := Pipe.exists_read (p := s.pipe) (List.length_pos_iff.2 hfull)
            rw [if_pos (Nat.le_refl 1), hread] at hstuck
            cases hstuck
  · next hpc => exact Or.inl hpc

/-- **When the parent waits and `ls` has ended, nobody has the write end open.** -/
theorem Inv.no_writer (h : Inv t output s) (hfresh : Fresh t)
    (hparent : s.parent = .wait1 ∨ s.parent = .wait2)
    (hls : s.ls.pc = .exited) (hwc : s.wc.pc = .running) : s.holds writeEnd = false := by
  have htable : ∀ fd, s.table.get fd = t.get fd := by
    have hok := h.parent
    rcases hparent with hpc | hpc <;> rw [hpc] at hok <;> exact hok
  have hone : LsWc.holds writeEnd s.table = false := by
    rw [Bool.eq_false_iff, Ne, holds_iff]
    rintro ⟨fd, hfd⟩
    exact (hfresh fd).2 ((htable fd).symm.trans hfd)
  have htwo : LsWc.holds writeEnd s.ls.table = false := by
    have hok := h.ls
    simp only [Child.Ok, hls] at hok
    rw [hok]
    rfl
  have hthree : LsWc.holds writeEnd s.wc.table = false := by
    have hok := h.wc
    simp only [Child.Ok, hwc] at hok
    rw [Bool.eq_false_iff, Ne, holds_iff]
    rintro ⟨fd, hfd⟩
    rw [hok, wcTarget] at hfd
    split at hfd
    · cases hfd
    · exact (hfresh fd).2 hfd
  simp [State.holds, hone, htwo, hthree]

/-- **Nobody waits for ever**: where no process can step, the parent has exited. -/
theorem Inv.exited_of_stuck (h : Inv t output s) (hcap : 0 < cap) (hfresh : Fresh t)
    (hstuck : Runs.Stuck (step t) s) : ∃ status, s.parent = .exited status := by
  by_contra hlive
  have hwaits : s.parent = .wait1 ∨ s.parent = .wait2 := by
    rcases parent_of_stuck (hstuck .parent) with hpc | hpc | hpc
    · exact Or.inl hpc.1
    · exact Or.inr hpc.1
    · exact absurd hpc hlive
  have hborn : s.ls.pc ≠ .unborn ∧ s.wc.pc ≠ .unborn := by
    have hborn := h.born
    rcases hwaits with hpc | hpc <;> rw [hpc] at hborn <;> exact hborn
  have hls : s.ls.pc = .exited := by
    rcases ls_of_stuck hcap hborn.1 (hstuck (.ls 1)) with hpc | hfull
    · exact hpc
    · rcases wc_of_stuck hborn.2 (hstuck (.wc 1)) with hpc | ⟨-, hempty, -⟩
      · exact (h.wc_exited hpc).1
      · exact absurd hempty hfull
  have hwc : s.wc.pc = .exited := by
    rcases wc_of_stuck hborn.2 (hstuck (.wc 1)) with hpc | ⟨hpc, -, hwriter⟩
    · exact hpc
    · rw [h.no_writer hfresh hwaits hls hpc] at hwriter
      cases hwriter
  rcases parent_of_stuck (hstuck .parent) with hpc | hpc | hpc
  · exact hpc.2.1 hls
  · exact hpc.2 ⟨hls, hwc⟩
  · exact hlive hpc

end LsWc
