/-
**The converted text comes back (`HW8/44_6/change_case.c`).**

A part of the input that is sent through the outbound pipe comes back through the inbound pipe as a
whole when a `read` from a pipe returns everything that is there, up to the size of the buffer, as
it does when no signal interrupts it.  Parent and child then go in lockstep: one part is on its way,
and it is in one place.  So the two never wait for each other, and the last part has been printed
when the parent exits.

Main definitions:

* `ChangeCase.WholeReads` — the condition on a single step;
* `ChangeCase.Lockstep` — where the part is that is on its way;
* `ChangeCase.Converted` — both processes have exited, and the converted input has been printed.

Main results:

* `ChangeCase.Lockstep.of_move` — **the lockstep is kept by every step that meets the condition**;
* `ChangeCase.exists_step` — there is no deadlock;
* `ChangeCase.converts` — **the whole input is converted**, and a part of it in every other run.
-/

import NetSysProg.ChangeCaseModel
import NetSysProg.Completion

set_option relaxedAutoImplicit false
set_option autoImplicit false

namespace ChangeCase

open CString Pipes

variable {cap : ℕ}

/-! ### The condition -/

/-- A `read` from a pipe returns what is there, up to the size of the buffer, and the standard
output accepts all of a `write`. -/
def WholeReads (s : State cap) : Act → Prop
  | .parent n =>
      match s.parent with
      | .receive => n = min s.inbound.content.length bufSize
      | .output buf => n = buf.length
      | _ => True
  | .child n =>
      match s.child with
      | .receive => n = min s.outbound.content.length bufSize
      | _ => True

instance (s : State cap) (a : Act) : Decidable (WholeReads s a) := by
  unfold WholeReads
  split
  · split <;> infer_instance
  · split <;> infer_instance

/-- What `read` returns when it returns as much as it can, of a part that fits into the buffer. -/
theorem eq_of_read_whole {p p' : Pipe Byte cap} {bs : List Byte} {n : ℕ}
    (hn : n = min p.content.length bufSize)
    (hfits : p.content.length ≤ bufSize) (hread : p.read n = some (bs, p')) :
    bs = p.content ∧ p'.content = [] := by
  obtain ⟨hlen, hcontent⟩ := Pipe.read_eq_some hread
  have hsum := congrArg List.length hcontent
  rw [List.length_append] at hsum
  have hnil : p'.content = [] := by
    rw [← List.length_eq_zero_iff]
    omega
  rw [hnil, List.append_nil] at hcontent
  exact ⟨hcontent, hnil⟩

/-! ### The lockstep -/

/-- One part of the input. -/
def Part (bs : List Byte) : Prop := bs ≠ [] ∧ bs.length ≤ bufSize

theorem Part.map {bs : List Byte} (h : Part bs) : Part (bs.map toupper) :=
  ⟨by simpa using h.1, by simpa using h.2⟩

theorem Part.take {bs : List Byte} {n : ℕ} (hpos : 1 ≤ n) (hsize : n ≤ bufSize)
    (hlen : n ≤ bs.length) :
    Part (bs.take n) := by
  have htake : (bs.take n).length = n := List.length_take_of_le hlen
  exact ⟨List.ne_nil_of_length_pos (by omega), by omega⟩

/-- The child has not read anything that it has not sent back. -/
def ChildPc.Waits (pc : ChildPc) : Prop := pc = .closeOutbound ∨ pc = .closeInbound ∨ pc = .receive

/-- Nothing is on its way. -/
def Idle (s : State cap) : Prop := s.outbound.content = [] ∧ s.inbound.content = [] ∧ s.child.Waits

/-- Where the part is that the parent waits for. -/
inductive Busy (s : State cap) : Prop
  | outbound (hpart : Part s.outbound.content) (hempty : s.inbound.content = [])
      (hchild : s.child.Waits)
  | child {buf : List Byte} (hpart : Part buf) (hchild : s.child = .send buf)
      (hout : s.outbound.content = []) (hin : s.inbound.content = [])
  | inbound (hpart : Part s.inbound.content) (hempty : s.outbound.content = [])
    (hchild : s.child.Waits)

/-- **The lockstep**, by the call at which the parent is. -/
def Lockstep (input : List Byte) (s : State cap) : Prop :=
  match s.parent with
  | .closeOutbound => Idle s
  | .closeInbound => Idle s
  | .input => Idle s
  | .send buf => Part buf ∧ Idle s
  | .receive => Busy s
  | .output buf => buf ≠ [] ∧ Idle s
  | .exited => s.outbound.content = [] ∧ (s.child.Waits ∨ s.child = .exited) ∧
    s.stdout = input.map toupper
  | .fatal => False
  | .killed => False

theorem Lockstep.init (cap : ℕ) (input : List Byte) : Lockstep input (init cap input) :=
  ⟨rfl, rfl, Or.inl rfl⟩

theorem ChildPc.Waits.not_ended {pc : ChildPc} (h : pc.Waits) : pc.ended = false := by
  rcases h with rfl | rfl | rfl <;> rfl

/-- A step of the child that keeps it waiting. -/
theorem Lockstep.of_waits {input : List Byte} {s : State cap} {child : ChildPc}
    (h : Lockstep input s)
    (hbefore : s.child.Waits) (hafter : child.Waits) : Lockstep input { s with child } := by
  cases hpc : s.parent with
  | closeOutbound | closeInbound | input =>
      simp only [Lockstep, hpc] at h ⊢
      exact ⟨h.1, h.2.1, hafter⟩
  | send buf | output buf =>
      simp only [Lockstep, hpc] at h ⊢
      exact ⟨h.1, h.2.1, h.2.2.1, hafter⟩
  | receive =>
      simp only [Lockstep, hpc] at h ⊢
      cases h with
      | outbound hpart hempty _ => exact .outbound hpart hempty hafter
      | child _ hchild _ _ =>
          rw [hchild] at hbefore
          rcases hbefore with hb | hb | hb <;> cases hb
      | inbound hpart hempty _ => exact .inbound hpart hempty hafter
  | exited =>
      simp only [Lockstep, hpc] at h ⊢
      exact ⟨h.1, Or.inl hafter, h.2.2⟩
  | fatal | killed =>
      simp only [Lockstep, hpc] at h

/-- The parent waits for its part whenever the child has something to do. -/
theorem Lockstep.receive_of_busy {input : List Byte} {s : State cap} (h : Lockstep input s)
    (hbusy : ¬ Idle s) (hlive : s.parent.ended = false) : s.parent = .receive := by
  cases hpc : s.parent with
  | receive => rfl
  | closeOutbound | closeInbound | input =>
      simp only [Lockstep, hpc] at h
      exact absurd h hbusy
  | send buf | output buf =>
      simp only [Lockstep, hpc] at h
      exact absurd h.2 hbusy
  | exited | fatal | killed =>
      rw [hpc] at hlive
      cases hlive

/-- A child that is about to send holds the only part that is on its way. -/
theorem Lockstep.of_childSend {input buf : List Byte} {s : State cap} (h : Lockstep input s)
    (hpc : s.child = .send buf) :
    s.parent = .receive ∧ Part buf ∧ s.outbound.content = [] ∧ s.inbound.content = [] := by
  have hnot : ¬ s.child.Waits := by
    rw [hpc]
    rintro (hb | hb | hb) <;> cases hb
  have hlive : s.parent.ended = false := by
    cases hparent : s.parent with
    | exited =>
        simp only [Lockstep, hparent] at h
        rcases h.2.1 with hb | hb
        · exact absurd hb hnot
        · rw [hpc] at hb
          cases hb
    | fatal | killed => simp only [Lockstep, hparent] at h
    | _ => rfl
  have hreceive := h.receive_of_busy (fun hidle => hnot hidle.2.2) hlive
  simp only [Lockstep, hreceive] at h
  cases h with
  | outbound _ _ hwaits => exact absurd hwaits hnot
  | child hpart hchild hout hin =>
      rw [hpc] at hchild
      cases hchild
      exact ⟨hreceive, hpart, hout, hin⟩
  | inbound _ _ hwaits => exact absurd hwaits hnot

/-- **The lockstep is kept by every step that meets the condition.** -/
theorem Lockstep.of_move {input : List Byte} {s s' : State cap} {a : Act} (hflow : Flow input s)
    (h : Lockstep input s) (hok : WholeReads s a) (hs : Move s a s') : Lockstep input s' := by
  cases hs with
  | closeOutbound hpc =>
      simp only [Lockstep, hpc] at h ⊢
      exact h
  | closeInbound hpc =>
      simp only [Lockstep, hpc] at h ⊢
      exact h
  | exit hpc hstdin =>
      have hall := (hflow.2 (by rw [hpc]; rfl)).2
      simp only [Lockstep, hpc] at h ⊢
      have hsend : s.child.toSend = [] := by
        rcases h.2.2 with hc | hc | hc <;> rw [hc] <;> rfl
      simp only [pending, hpc, ParentPc.toPrint, ParentPc.toSend, h.1, h.2.1, hsend, hstdin,
        List.append_nil, List.map_nil] at hall
      exact ⟨h.1, Or.inl h.2.2, hall⟩
  | input hpc hpos hsize hlen =>
      simp only [Lockstep, hpc] at h ⊢
      exact ⟨Part.take hpos hsize hlen, h⟩
  | send hpc hwrite =>
      simp only [Lockstep, hpc] at h ⊢
      obtain ⟨hpart, hout, hin, hwaits⟩ := h
      refine .outbound ?_ hin hwaits
      rw [Pipe.write_eq_some hwrite, hout]
      exact hpart
  | sigpipe hpc hended =>
      rw [(hflow.2 (by rw [hpc]; rfl)).1] at hended
      cases hended
  | eof hpc hended =>
      rw [(hflow.2 (by rw [hpc]; rfl)).1] at hended
      cases hended
  | receive hpc hpos hread =>
      simp only [WholeReads, hpc] at hok
      simp only [Lockstep, hpc] at h ⊢
      cases h with
      | outbound hpart hempty hwaits =>
          rw [hempty, List.length_nil, Nat.zero_min] at hok
          omega
      | child hpart hchild hout hin =>
          rw [hin, List.length_nil, Nat.zero_min] at hok
          omega
      | inbound hpart hempty hwaits =>
          obtain ⟨hbs, hnil⟩ := eq_of_read_whole hok hpart.2 hread
          exact ⟨hbs ▸ hpart.1, hempty, hnil, hwaits⟩
  | output hpc =>
      simp only [Lockstep, hpc] at h ⊢
      exact h.2
  | fail hpc hn =>
      simp only [WholeReads, hpc] at hok
      omega
  | childCloseOutbound hpc => exact h.of_waits (Or.inl hpc) (Or.inr (Or.inl rfl))
  | childCloseInbound hpc => exact h.of_waits (Or.inr (Or.inl hpc)) (Or.inr (Or.inr rfl))
  | childExit hpc hpipe hended =>
      cases hparent : s.parent with
      | exited =>
          simp only [Lockstep, hparent] at h ⊢
          exact ⟨h.1, Or.inr trivial, h.2.2⟩
      | fatal | killed => simp only [Lockstep, hparent] at h
      | _ => simp [hparent, ParentPc.ended] at hended
  | @childReceive n bs outbound hpc hpos hread =>
      simp only [WholeReads, hpc] at hok
      have hsome : s.outbound.content ≠ [] := by
        intro hnil
        rw [hnil, List.length_nil, Nat.zero_min] at hok
        omega
      have hlive : s.parent.ended = false := by
        cases hparent : s.parent with
        | exited =>
            simp only [Lockstep, hparent] at h
            exact absurd h.1 hsome
        | fatal | killed => simp only [Lockstep, hparent] at h
        | _ => rfl
      have hreceive := h.receive_of_busy (fun hidle => hsome hidle.1) hlive
      simp only [Lockstep, hreceive] at h ⊢
      cases h with
      | outbound hpart hempty hwaits =>
          obtain ⟨hbs, hnil⟩ := eq_of_read_whole hok hpart.2 hread
          exact .child (hbs ▸ hpart).map rfl hnil hempty
      | child hpart hchild hout hin => exact absurd hout hsome
      | inbound hpart hempty hwaits => exact absurd hempty hsome
  | childSend hpc hwrite =>
      obtain ⟨hreceive, hpart, hout, hin⟩ := h.of_childSend hpc
      simp only [Lockstep, hreceive]
      refine .inbound ?_ hout (Or.inr (Or.inr rfl))
      rw [Pipe.write_eq_some hwrite, hin]
      exact hpart
  | childSigpipe hpc hended =>
      rw [(h.of_childSend hpc).1] at hended
      cases hended

/-! ### Every run ends -/

/-- The calls that the parent still makes before and after its loop. -/
def ParentPc.calls : ParentPc → ℕ
  | .closeOutbound => 3
  | .closeInbound => 2
  | .exited | .fatal | .killed => 0
  | _ => 1

def ChildPc.calls : ChildPc → ℕ
  | .closeOutbound => 3
  | .closeInbound => 2
  | .exited | .killed => 0
  | _ => 1

/-- The weight of a state: each byte counts the calls that it has still to go through. -/
def weight (s : State cap) : ℕ :=
  s.parent.calls + s.child.calls + 6 * s.stdin.length + 5 * s.parent.toSend.length +
    4 * s.outbound.content.length + 3 * s.child.toSend.length + 2 * s.inbound.content.length +
    s.parent.toPrint.length

/-- **Every step lowers the weight**, as long as nothing ends before its time. -/
theorem weight_lt_of_move {input : List Byte} {s s' : State cap} {a : Act} (hflow : Flow input s)
    (h : Lockstep input s) (hs : Move s a s') : weight s' < weight s := by
  cases hs with
  | input hpc hpos hsize hlen =>
      simp only [weight, hpc, ParentPc.calls, ParentPc.toSend, ParentPc.toPrint, List.length_drop,
        List.length_take_of_le hlen, List.length_nil]
      omega
  | send hpc hwrite =>
      simp only [Lockstep, hpc] at h
      have hpos := List.length_pos_iff.2 h.1.1
      have hcontent := congrArg List.length (Pipe.write_eq_some hwrite)
      rw [List.length_append] at hcontent
      simp only [weight, hpc, ParentPc.calls, ParentPc.toSend, ParentPc.toPrint, List.length_nil]
      omega
  | eof hpc hended =>
      rw [(hflow.2 (by rw [hpc]; rfl)).1] at hended
      cases hended
  | receive hpc hpos hread =>
      obtain ⟨hlen, hcontent⟩ := Pipe.read_eq_some hread
      have hsum := congrArg List.length hcontent
      rw [List.length_append] at hsum
      simp only [weight, hpc, ParentPc.calls, ParentPc.toSend, ParentPc.toPrint, List.length_nil]
      omega
  | output hpc =>
      simp only [Lockstep, hpc] at h
      have hpos := List.length_pos_iff.2 h.1
      simp only [weight, hpc, ParentPc.calls, ParentPc.toSend, ParentPc.toPrint, List.length_nil]
      omega
  | fail hpc hn =>
      simp only [weight, hpc, ParentPc.calls, ParentPc.toSend, ParentPc.toPrint, List.length_nil]
      omega
  | childReceive hpc hpos hread =>
      obtain ⟨hlen, hcontent⟩ := Pipe.read_eq_some hread
      have hsum := congrArg List.length hcontent
      rw [List.length_append] at hsum
      simp only [weight, hpc, ChildPc.calls, ChildPc.toSend, List.length_map, List.length_nil]
      omega
  | childSend hpc hwrite =>
      have hpos := List.length_pos_iff.2 (h.of_childSend hpc).2.1.1
      have hcontent := congrArg List.length (Pipe.write_eq_some hwrite)
      rw [List.length_append] at hcontent
      simp only [weight, hpc, ChildPc.calls, ChildPc.toSend, List.length_nil]
      omega
  | sigpipe hpc hended =>
      rw [(hflow.2 (by rw [hpc]; rfl)).1] at hended
      cases hended
  | childSigpipe hpc hended =>
      rw [(h.of_childSend hpc).1] at hended
      cases hended
  | _ => simp_all [weight, ParentPc.calls, ChildPc.calls, ParentPc.toSend, ParentPc.toPrint,
    ChildPc.toSend]

/-! ### No deadlock -/

/-- Both processes have exited, and the converted input has been printed. -/
def Converted (input : List Byte) (s : State cap) : Prop :=
  s.parent = .exited ∧ s.child = .exited ∧ s.stdout = input.map toupper

/-- A child that waits can take a step when there is something for it to read, or no writer is
left. -/
theorem exists_childStep {s : State cap} (hwaits : s.child.Waits)
    (h : s.outbound.content ≠ [] ∨ s.parent.ended = true) :
    ∃ n s', WholeReads s (.child n) ∧ childStep s n = some s' := by
  rcases hwaits with hpc | hpc | hpc
  · exact ⟨0, _, by simp only [WholeReads, hpc], by rw [childStep, hpc]⟩
  · exact ⟨0, _, by simp only [WholeReads, hpc], by rw [childStep, hpc]⟩
  · refine ⟨min s.outbound.content.length bufSize, ?_⟩
    by_cases hnil : s.outbound.content = []
    · have hended : s.parent.ended = true := h.resolve_left (not_not_intro hnil)
      refine ⟨{ s with child := .exited }, by simp only [WholeReads, hpc], ?_⟩
      simp only [childStep, hpc, if_pos hnil, State.outboundWriter, hended]
      rfl
    · have hpos : 1 ≤ s.outbound.content.length := List.length_pos_iff.2 hnil
      have hn : 1 ≤ min s.outbound.content.length bufSize ∧
        min s.outbound.content.length bufSize ≤ bufSize := by
        unfold bufSize
        omega
      obtain ⟨bs, outbound, hread⟩ :=
        Pipe.exists_read (Nat.min_le_left s.outbound.content.length bufSize)
      refine
        ⟨{ s with outbound, child := .send (bs.map toupper) }, by simp only [WholeReads, hpc], ?_⟩
      simp only [childStep, hpc, if_neg hnil, if_pos hn, hread]
      rfl

/-- A pipe that has room for a part takes it when it is empty. -/
theorem exists_write_part {p : Pipe Byte cap} {bs : List Byte} (hcap : bufSize ≤ cap)
    (hpart : Part bs)
    (hnil : p.content = []) : ∃ p', p.write bs = some p' := by
  refine Pipe.exists_write ?_
  rw [Pipe.room_of_content_nil hnil]
  exact hpart.2.trans hcap

/-- **There is no deadlock**: as long as one of the processes has not exited, one of them can take a
step that meets the condition. -/
theorem exists_step {input : List Byte} {s : State cap} (hcap : bufSize ≤ cap)
    (h : Lockstep input s)
    (hlive : ¬ Converted input s) : ∃ a s', WholeReads s a ∧ step s a = some s' := by
  cases hpc : s.parent with
  | closeOutbound =>
    exact ⟨.parent 0, _, by simp only [WholeReads, hpc], by rw [step, parentStep, hpc]⟩
  | closeInbound =>
    exact ⟨.parent 0, _, by simp only [WholeReads, hpc], by rw [step, parentStep, hpc]⟩
  | input =>
      by_cases hnil : s.stdin = []
      · refine ⟨.parent 0, { s with parent := .exited }, by simp only [WholeReads, hpc], ?_⟩
        simp only [step, parentStep, hpc, if_pos hnil]
      · have hone : 1 ≤ 1 ∧ 1 ≤ bufSize ∧ 1 ≤ s.stdin.length :=
          ⟨le_rfl, by decide, List.length_pos_iff.2 hnil⟩
        refine ⟨.parent 1, { s with stdin := s.stdin.drop 1, parent := .send (s.stdin.take 1) },
          by simp only [WholeReads, hpc], ?_⟩
        simp only [step, parentStep, hpc, if_neg hnil, if_pos hone]
  | send buf =>
      simp only [Lockstep, hpc] at h
      obtain ⟨outbound, hwrite⟩ := exists_write_part hcap h.1 h.2.1
      refine ⟨.parent 0,
        { s with outbound, parent := .receive }, by simp only [WholeReads, hpc], ?_⟩
      simp only [step, parentStep, hpc, State.outboundReader, h.2.2.2.not_ended, hwrite]
      rfl
  | receive =>
      simp only [Lockstep, hpc] at h
      cases h with
      | outbound hpart hempty hwaits =>
          obtain ⟨n, s', hok, hs⟩ := exists_childStep hwaits (Or.inl hpart.1)
          exact ⟨.child n, s', hok, hs⟩
      | @child buf hpart hchild hout hin =>
          obtain ⟨inbound, hwrite⟩ := exists_write_part hcap hpart hin
          refine ⟨.child 0,
            { s with inbound, child := .receive }, by simp only [WholeReads, hchild], ?_⟩
          simp only [step, childStep, hchild, State.inboundReader, hpc, ParentPc.ended, hwrite]
          rfl
      | inbound hpart hempty hwaits =>
          have hn : 1 ≤ min s.inbound.content.length bufSize ∧
              min s.inbound.content.length bufSize ≤ bufSize := by
            have hpos := List.length_pos_iff.2 hpart.1
            unfold bufSize
            omega
          obtain ⟨bs, inbound, hread⟩ :=
            Pipe.exists_read (Nat.min_le_left s.inbound.content.length bufSize)
          refine ⟨.parent (min s.inbound.content.length bufSize),
            { s with inbound, parent := .output bs }, by simp only [WholeReads, hpc], ?_⟩
          simp only [step, parentStep, hpc, if_neg hpart.1, if_pos hn, hread]
          rfl
  | output buf =>
      refine ⟨.parent buf.length, { s with stdout := s.stdout ++ buf, parent := .input },
        by simp only [WholeReads, hpc], ?_⟩
      simp only [step, parentStep, hpc, if_true]
  | exited =>
      simp only [Lockstep, hpc] at h
      obtain ⟨-, hwaits | hexited, hout⟩ := h
      · obtain ⟨n, s', hok, hs⟩ := exists_childStep hwaits (Or.inr (by rw [hpc]; rfl))
        exact ⟨.child n, s', hok, hs⟩
      · exact absurd ⟨hpc, hexited, hout⟩ hlive
  | fatal | killed => simp only [Lockstep, hpc] at h

/-! ### The text is converted -/

/-- **The text is converted.**  What is printed is a part of the converted input in every run,
however the reads are cut and whatever the standard output accepts.  When the reads from the pipes
are whole and the standard output accepts everything, every run ends, and it ends with both
processes exited and the whole converted input on the standard output. -/
theorem converts (hcap : bufSize ≤ cap) (input : List Byte) :
    (∀ s, Runs.Reachable step (init cap input) s → s.stdout <+: input.map toupper) ∧
    Runs.Completes (Runs.guard step WholeReads) (init cap input) (Converted input) := by
  constructor
  · intro s hs
    have hflow : Flow input s := hs.invariant (fun _ _ _ h hs => h.of_step hs) (Flow.init cap input)
    exact hflow.prefixOf
  · refine Runs.Completes.of_measure (I := fun s => Flow input s ∧ Lockstep input s) weight
      (fun s a s' h hs => ?_) (fun s a s' h hs => ?_) (fun s h hstuck => ?_)
      ⟨Flow.init cap input, Lockstep.init cap input⟩
    · obtain ⟨hok, hs⟩ := Runs.guard_eq_some.1 hs
      exact ⟨h.1.of_step hs, h.2.of_move h.1 hok (Move.of_step hs)⟩
    · exact weight_lt_of_move h.1 h.2 (Move.of_step (Runs.guard_eq_some.1 hs).2)
    · by_contra hlive
      obtain ⟨a, s', hok, hs⟩ := exists_step hcap h.2 hlive
      exact Runs.not_stuck_of_step (Runs.guard_eq_some.2 ⟨hok, hs⟩) hstuck

/-- Two pipes of the smallest size that `PIPE_BUF` may have. -/
theorem converts_text :
    (∀ s : State 512, Runs.Reachable step (init 512 (lit "some text")) s →
      s.stdout <+: (lit "some text").map toupper) ∧
    Runs.Completes (Runs.guard step WholeReads) (init 512 (lit "some text"))
      (Converted (lit "some text")) :=
  converts (by decide) _

end ChangeCase
