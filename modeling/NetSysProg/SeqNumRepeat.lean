/-
**When the sequence numbers repeat (`HW8/46_2`).**

The counter of the server is an `int` and nothing bounds what is added to it: a client asks for
whatever `strtol` makes of its argument, as long as that is not negative once it has been stored in
an `int`.  This module determines the runs in which the counter does not overflow and no number is
handed out twice.  They are those whose answered requests ask for no more than `INT_MAX` numbers
together.

Main definitions:

* `SeqNum.seqLenOf` — the length that the client program makes of its argument;
* `SeqNum.NoOverflow` — the addition the server is about to make does not overflow;
* `SeqNum.handedOut`, `SeqNum.State.NeverRepeats` — the numbers of a range as `int` values, and that
  no two ranges share one.

Main results:

* `SeqNum.throughout_noOverflow_iff` — the counter stays within its type exactly as long as the
  lengths do;
* `SeqNum.neverRepeats_iff` — **the exact condition**, and `SeqNum.repeats_threeClients`, three
  clients that are handed the number `0` twice.
-/

import NetSysProg.Numerals
import NetSysProg.SeqNumService

set_option relaxedAutoImplicit false
set_option autoImplicit false

namespace SeqNum

variable {ι : Type*}

/-! ### What a client asks for -/

/-- The length a client asks for: `1` without an argument; with one, the `int` that `strtol` makes
of it, which is refused when it is negative. -/
def seqLenOf : Option (List CString.Byte) → Option ℤ
  | none => some 1
  | some arg =>
      let seqLen := CInt.wrap (Numerals.strtol arg)
      if seqLen < 0 then none else some seqLen

/-- What a client sends is an `int` that is not negative. -/
theorem seqLenOf_mem {arg : Option (List CString.Byte)} {n : ℤ} (h : seqLenOf arg = some n) :
    0 ≤ n ∧ n ≤ CInt.intMax := by
  cases arg with
  | none =>
      obtain rfl : 1 = n := by simpa [seqLenOf] using h
      exact ⟨by decide, by decide⟩
  | some arg =>
      simp only [seqLenOf] at h
      split at h
      · simp at h
      · next hneg =>
          obtain rfl := Option.some.inj h
          exact ⟨Int.not_lt.1 hneg, (CInt.wrap_mem _).2⟩

/-- Every `int` that is not negative can be asked for. -/
theorem seqLenOf_decimal {n : ℕ} (hn : n ≤ CInt.intMax) :
    seqLenOf (some (Numerals.decimal n)) = some (n : ℤ) := by
  have hlong : (n : ℤ) ≤ Numerals.longMax := Int.le_trans hn (by decide)
  have hread := Numerals.strtol_decimal (w := []) (by simp) hlong Numerals.ends_nil
  rw [List.nil_append, List.append_nil] at hread
  simp only [seqLenOf, hread, CInt.wrap_of_nonneg (Int.natCast_nonneg n) hn]
  rw [if_neg (Int.not_lt.2 (Int.natCast_nonneg n))]

/-! ### The counter -/

/-- The addition that the server is about to make stays within an `int`. -/
def NoOverflow (s : State ι) : Prop :=
  s.server = .add → s.seqNum + s.serverReq.seqLen ≤ CInt.intMax

/-- The numbers of a range, as `int` values. -/
def handedOut (r : ℤ × ℤ) : Set ℤ := CInt.wrap '' Intervals.span r

/-- No number is handed out twice. -/
def State.NeverRepeats (s : State ι) : Prop :=
  s.ranges.Pairwise fun r r' => Disjoint (handedOut r) (handedOut r')

/-- A range that ends within an `int` is handed out as it is. -/
theorem handedOut_eq_span {r : ℤ × ℤ} {n : ℤ} (h : Intervals.span r ⊆ Set.Ico 0 n)
    (hn : n ≤ CInt.intMax) : handedOut r = Intervals.span r := by
  have hid : ∀ x ∈ Intervals.span r, CInt.wrap x = x := by
    intro x hx
    obtain ⟨h0, hlt⟩ := h hx
    exact CInt.wrap_of_nonneg h0 (by omega)
  rw [handedOut, Set.image_congr hid, Set.image_id']

section Counter

variable [DecidableEq ι] {K : Clients ι} {cap : ℕ}

/-- The next number is the sum of the lengths handed out, as long as that is an `int`. -/
theorem Ledger.next_eq {s : State ι} (h : Ledger K s) (hsum : s.lengths ≤ CInt.intMax) :
    s.next = s.lengths := by
  rw [(h.chain hsum).end_eq, zero_add]
  rfl

theorem Ledger.noOverflow {s : State ι} (h : Ledger K s) (hsum : s.lengths ≤ CInt.intMax) :
    NoOverflow s := by
  intro hpc
  have hnext := h.next_eq hsum
  simp only [State.next, hpc] at hnext
  omega

/-- The lengths are those the clients asked for. -/
theorem Ledger.lengths_eq {s : State ι} (h : Ledger K s) :
    s.lengths = (s.served.map fun r => K.seqLen r.1).sum := by
  have hlen : s.served.map (fun r => r.2.2) = s.served.map fun r => K.seqLen r.1 :=
    List.map_congr_left h.len
  rw [State.lengths, State.ranges, List.map_map, ← hlen]
  rfl

theorem Ledger.neverRepeats {s : State ι} (h : Ledger K s) (hsum : s.lengths ≤ CInt.intMax) :
    s.NeverRepeats := by
  have hchain := h.chain hsum
  have hspan := hchain.span_subset
  have hnext : s.next ≤ CInt.intMax := by rw [h.next_eq hsum]; exact hsum
  refine hchain.pairwise_disjoint.imp_of_mem fun {r r'} hr hr' hdisj => ?_
  rwa [handedOut_eq_span (hspan r hr) hnext, handedOut_eq_span (hspan r' hr') hnext]

/-- The steps that answer no request leave the lengths alone; an answer adds the length asked
for. -/
theorem Move.lengths {s s' : State ι} {a : Act ι} (hs : Move K cap s a s') :
    s'.lengths = s.lengths ∨
      (s.server ≠ .add ∧ s'.server = .add ∧ s'.seqNum = s.seqNum ∧ s'.serverReq = s.serverReq ∧
        s'.lengths = s.lengths + s.serverReq.seqLen) := by
  cases hs with
  | accept hpc hm => exact Or.inl (by simp [State.lengths, State.ranges, State.served])
  | refuse hpc hid => exact Or.inl rfl
  | respond hpc hroom =>
      refine Or.inr ⟨by simp [hpc], rfl, rfl, rfl, ?_⟩
      simp [State.lengths, State.ranges, State.served]
  | advance hpc => exact Or.inl rfl
  | request hpc hroom => exact Or.inl rfl
  | obtain hpc hm hn => exact Or.inl (by simp [State.lengths, State.ranges, State.served])
  | tooBig hpc hm hn => exact Or.inl rfl

/-- **One step**: the lengths stay within an `int` if the counter does. -/
theorem Ledger.lengths_le_of_move {s s' : State ι} {a : Act ι} (h : Ledger K s)
    (hs : Move K cap s a s') (hsum : s.lengths ≤ CInt.intMax) (hno : NoOverflow s') :
    s'.lengths ≤ CInt.intMax := by
  rcases hs.lengths with heq | ⟨hpc, hpc', hseq, hreq, heq⟩
  · rwa [heq]
  · have hle := hno hpc'
    have hnext := h.next_eq hsum
    have hnow : s.next = s.seqNum := by
      unfold State.next
      split
      · next hadd => exact absurd hadd hpc
      · rfl
    rw [hseq, hreq] at hle
    omega

/-- The lengths never get less. -/
theorem Traffic.lengths_le_of_move {s s' : State ι} {a : Act ι} (h : Traffic K s)
    (hs : Move K cap s a s') : s.lengths ≤ s'.lengths := by
  cases hs with
  | @respond c hpc hroom =>
      have hpos := K.seqLen_nonneg c
      have hlen : s.serverReq.seqLen = K.seqLen c := by rw [h.req c hpc]
      simp only [State.lengths, State.ranges, State.served, served_handed, List.map_append,
        List.map_cons, List.map_nil, List.sum_append, List.sum_singleton]
      omega
  | accept hpc hm => simp [State.lengths, State.ranges, State.served]
  | refuse hpc hid => exact le_refl _
  | advance hpc => exact le_refl _
  | request hpc hroom => exact le_refl _
  | obtain hpc hm hn => simp [State.lengths, State.ranges, State.served]
  | tooBig hpc hm hn => exact le_refl _

theorem lengths_le_of_run {s₀ s : State ι} {as : List (Act ι)} (ht : Traffic K s₀)
    (h : Runs.run (step K cap) s₀ as = some s) : s₀.lengths ≤ s.lengths := by
  let I : State ι → Prop := fun s => Traffic K s ∧ s₀.lengths ≤ s.lengths
  have hstep : ∀ s a s', I s → step K cap s a = some s' → I s' := by
    intro s a s' hi hs
    have hm := Move.of_step K cap hs
    exact ⟨hi.1.of_move K cap hm, hi.2.trans (hi.1.lengths_le_of_move hm)⟩
  exact ((Runs.Reachable.of_run h).invariant hstep ⟨ht, le_refl _⟩).2

/-- **The counter stays within an `int` in every state of a run exactly if the lengths answered in
it do.** -/
theorem throughout_noOverflow_iff {s₀ s : State ι} {as : List (Act ι)} (ht : Traffic K s₀)
    (hl : Ledger K s₀) (hsum : s₀.lengths ≤ CInt.intMax)
    (h : Runs.run (step K cap) s₀ as = some s) :
    Runs.Throughout (step K cap) NoOverflow s₀ as ↔ s.lengths ≤ CInt.intMax := by
  induction as generalizing s₀ with
  | nil =>
      obtain rfl : s₀ = s := by simpa using h
      exact iff_of_true (hl.noOverflow hsum) hsum
  | cons a as ih =>
      rw [Runs.run_cons] at h
      obtain ⟨s₁, hs, hrun⟩ := Option.bind_eq_some_iff.1 h
      have hm := Move.of_step K cap hs
      have ht' := ht.of_move K cap hm
      have hl' := hl.of_move K cap ht hm
      constructor
      · rintro ⟨-, hrest⟩
        have hthrough := hrest s₁ hs
        have hsum' := hl.lengths_le_of_move hm hsum hthrough.head
        exact (ih ht' hl' hsum' hrun).1 hthrough
      · intro hend
        have hsum' : s₁.lengths ≤ CInt.intMax := (lengths_le_of_run ht' hrun).trans hend
        refine ⟨hl.noOverflow hsum, fun s' hs' => ?_⟩
        obtain rfl := Option.some.inj (hs.symm.trans hs')
        exact (ih ht' hl' hsum' hrun).2 hend

end Counter

/-! ### Repeated numbers -/

section Repeats

variable [DecidableEq ι] (K : Clients ι) (cap : ℕ)

/-- **When the numbers do not repeat.**  In a run of the service the counter overflows nowhere and
no two of the ranges handed out share an `int` value exactly if the clients that were answered asked
for no more than `INT_MAX` numbers together. -/
theorem neverRepeats_iff {req : ServerReq} {as : List (Act ι)} {s : State ι}
    (h : Runs.run (step K cap) (init req) as = some s) :
    (Runs.Throughout (step K cap) NoOverflow (init req) as ∧ s.NeverRepeats) ↔
      (s.served.map fun r => K.seqLen r.1).sum ≤ CInt.intMax := by
  have hl := Ledger.of_reachable K cap (Runs.Reachable.of_run h)
  have hzero : (init req : State ι).lengths = 0 := rfl
  have hmax : (init req : State ι).lengths ≤ CInt.intMax := by rw [hzero]; decide
  have hiff := throughout_noOverflow_iff (Traffic.init K req) (Ledger.init K req) hmax h
  rw [← hl.lengths_eq, hiff, and_iff_left_iff_imp]
  exact hl.neverRepeats

/-- Three clients, with process ids `41`, `42` and `43`. -/
def threeClients : Clients (Fin 3) where
  pid c := 41 + (c.val : ℤ)
  seqLen c := if c = 2 then 3 else 2147483647
  pid_pos := by decide
  pid_ne := by decide
  pid_inj c d h := by
    have hval : 41 + (c.val : ℤ) = 41 + (d.val : ℤ) := h
    exact Fin.ext (by omega)
  seqLen_nonneg := by decide

/-- The three clients are served one after the other, the last up to the response. -/
def threeClientsRun : List (Act (Fin 3)) :=
  [.client 0, .server, .server, .server, .client 0, .client 1, .server, .server, .server, .client 1,
    .client 2, .server, .server]

/-- **The number `0` is handed out twice**, to the first client and, after the counter has wrapped
around, to the third. -/
theorem repeats_threeClients :
    (∀ c, seqLenOf (some (if c = 2 then CString.lit "3" else CString.lit "2147483647")) =
      some (threeClients.seqLen c)) ∧
    ∃ s, Runs.run (step threeClients 2) (init ⟨0, 0⟩) threeClientsRun = some s ∧
      ¬ Runs.Throughout (step threeClients 2) NoOverflow (init ⟨0, 0⟩) threeClientsRun ∧
      ¬ s.NeverRepeats := by
  refine ⟨by decide, ?_⟩
  have hend : (Runs.run (step threeClients 2) (init ⟨0, 0⟩) threeClientsRun).map State.ranges =
      some [(0, 2147483647), (2147483647, 2147483647), (-2, 3)] := by decide
  obtain ⟨s, hs, hranges⟩ := Option.map_eq_some_iff.1 hend
  have hiff := throughout_noOverflow_iff (Traffic.init threeClients ⟨0, 0⟩)
    (Ledger.init threeClients ⟨0, 0⟩) (by decide) hs
  refine ⟨s, hs, ?_, ?_⟩
  · rw [hiff, State.lengths, hranges]
    decide
  · intro hrep
    rw [State.NeverRepeats, hranges] at hrep
    have hdisj : Disjoint (handedOut (0, 2147483647)) (handedOut (-2, 3)) :=
      List.rel_of_pairwise_cons hrep (by simp)
    have hfst : (0 : ℤ) ∈ handedOut (0, 2147483647) := ⟨0, by simp [Intervals.span], by decide⟩
    have hthd : (0 : ℤ) ∈ handedOut (-2, 3) := ⟨0, by simp [Intervals.span], by decide⟩
    exact Set.disjoint_left.1 hdisj hfst hthd

/-- The condition is met by the two clients that ask for three and for four numbers. -/
theorem neverRepeats_twoClients :
    ∃ s, Runs.run (step twoClients 2) (init ⟨0, 0⟩) twoClientsRun = some s ∧ s.NeverRepeats := by
  have hend : (Runs.run (step twoClients 2) (init ⟨0, 0⟩) twoClientsRun).map
      (fun s => (s.served.map fun r => twoClients.seqLen r.1).sum) = some 7 := by decide
  obtain ⟨s, hs, hsum⟩ := Option.map_eq_some_iff.1 hend
  exact ⟨s, hs, ((neverRepeats_iff twoClients 2 hs).2 (by rw [hsum]; decide)).2⟩

end Repeats

end SeqNum
