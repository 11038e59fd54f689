/-
**Ranges that follow one another.**

A dispenser that hands out consecutive half-open ranges of integers produces a list of pairs of a
start and a length.  `Intervals.Chain a rs b` says that the first range of `rs` starts at `a`, that
every later one starts where the one before it ends, and that the last one ends at `b`; it is the
invariant of such a dispenser, and what is usually promised about it follows from the chain alone.

* `Intervals.Chain.append` — one more range at the end;
* `Intervals.Chain.end_eq`, `Intervals.Chain.start_eq` — the starts are the sums of the lengths
  handed out before;
* `Intervals.Chain.pairwise_disjoint`, `Intervals.Chain.iUnion_span` — **the ranges are disjoint and
  together they are everything between the two ends**.
-/

import Mathlib

set_option relaxedAutoImplicit false
set_option autoImplicit false

namespace Intervals

/-- The integers of the range with start `r.1` and length `r.2`. -/
def span (r : ℤ × ℤ) : Set ℤ := Set.Ico r.1 (r.1 + r.2)

/-- The ranges of the list follow one another from `a` to `b`, and none has a negative length. -/
def Chain : ℤ → List (ℤ × ℤ) → ℤ → Prop
  | a, [], b => a = b
  | a, r :: rs, b => r.1 = a ∧ 0 ≤ r.2 ∧ Chain (a + r.2) rs b

@[simp] theorem chain_nil (a b : ℤ) : Chain a [] b ↔ a = b := Iff.rfl

theorem chain_cons (a : ℤ) (r : ℤ × ℤ) (rs : List (ℤ × ℤ)) (b : ℤ) :
    Chain a (r :: rs) b ↔ r.1 = a ∧ 0 ≤ r.2 ∧ Chain (a + r.2) rs b := Iff.rfl

namespace Chain

/-- One more range, starting where the chain ends. -/
theorem append {a b n : ℤ} {rs : List (ℤ × ℤ)} (h : Chain a rs b) (hn : 0 ≤ n) :
    Chain a (rs ++ [(b, n)]) (b + n) := by
  induction rs generalizing a with
  | nil =>
      obtain rfl : a = b := h
      exact ⟨rfl, hn, rfl⟩
  | cons r rs ih => exact ⟨h.1, h.2.1, ih h.2.2⟩

theorem end_eq {a b : ℤ} {rs : List (ℤ × ℤ)} (h : Chain a rs b) :
    b = a + (rs.map Prod.snd).sum := by
  induction rs generalizing a with
  | nil =>
      obtain rfl : a = b := h
      simp
  | cons r rs ih =>
      rw [ih h.2.2, List.map_cons, List.sum_cons]
      omega

theorem le {a b : ℤ} {rs : List (ℤ × ℤ)} (h : Chain a rs b) : a ≤ b := by
  induction rs generalizing a with
  | nil => exact le_of_eq h
  | cons r rs ih =>
      have := ih h.2.2
      have := h.2.1
      omega

/-- Each range starts at the sum of the lengths before it. -/
theorem start_eq {a b : ℤ} {pre post : List (ℤ × ℤ)} {r : ℤ × ℤ}
    (h : Chain a (pre ++ r :: post) b) : r.1 = a + (pre.map Prod.snd).sum := by
  induction pre generalizing a with
  | nil => simpa using h.1
  | cons q pre ih =>
      rw [ih h.2.2, List.map_cons, List.sum_cons]
      omega

/-- Every range of a chain lies between its ends. -/
theorem span_subset {a b : ℤ} {rs : List (ℤ × ℤ)} (h : Chain a rs b) :
    ∀ r ∈ rs, span r ⊆ Set.Ico a b := by
  induction rs generalizing a with
  | nil => intro r hr; simp at hr
  | cons q rs ih =>
      obtain ⟨hstart, hlen, htail⟩ := h
      have hle := htail.le
      intro r hr
      rcases List.mem_cons.1 hr with rfl | hr
      · exact Set.Ico_subset_Ico (le_of_eq hstart.symm) (by omega)
      · exact (ih htail r hr).trans (Set.Ico_subset_Ico_left (by omega))

/-- **The ranges of a chain are pairwise disjoint.** -/
theorem pairwise_disjoint {a b : ℤ} {rs : List (ℤ × ℤ)} (h : Chain a rs b) :
    rs.Pairwise fun r r' => Disjoint (span r) (span r') := by
  induction rs generalizing a with
  | nil => exact List.Pairwise.nil
  | cons q rs ih =>
      obtain ⟨hstart, _, htail⟩ := h
      refine List.Pairwise.cons (fun r hr => ?_) (ih htail)
      -- everything after `q` lies at or above the end of `q`
      have hsub := htail.span_subset r hr
      rw [Set.disjoint_left]
      intro x hx hxr
      have h₁ := hx.2
      have h₂ := (hsub hxr).1
      omega

/-- **The ranges of a chain cover everything between its ends.** -/
theorem iUnion_span {a b : ℤ} {rs : List (ℤ × ℤ)} (h : Chain a rs b) :
    ⋃ r ∈ rs, span r = Set.Ico a b := by
  induction rs generalizing a with
  | nil =>
      obtain rfl : a = b := h
      simp
  | cons q rs ih =>
      obtain ⟨hstart, hlen, htail⟩ := h
      have hle := htail.le
      have hq : span q = Set.Ico a (a + q.2) := by rw [span, hstart]
      calc ⋃ r ∈ q :: rs, span r
          = span q ∪ ⋃ r ∈ rs, span r := by
            simp only [List.mem_cons, Set.iUnion_iUnion_eq_or_left]
        _ = Set.Ico a (a + q.2) ∪ Set.Ico (a + q.2) b := by rw [ih htail, hq]
        _ = Set.Ico a b := Set.Ico_union_Ico_eq_Ico (by omega) hle

end Chain

end Intervals
