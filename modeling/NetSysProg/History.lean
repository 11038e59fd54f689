/-
**Histories: what is true of every event of a log, given the events before it.**

A run that keeps a log of what happened is judged by its log.  A law for a history says of each
event what may have gone before it, and a log that grows at its end keeps the law when the new event
obeys it.

Main definitions:

* `History.Each` — every event of the log obeys the law, given the events before it.

Main results:

* `History.each_append_singleton` — a log with one event more.
-/

import Mathlib.Data.List.Induction

set_option relaxedAutoImplicit false
set_option autoImplicit false

namespace History

variable {ε : Type*} {P : List ε → ε → Prop}

/-- Every event `e` of the log, with `pre` the events before it, satisfies `P pre e`. -/
def Each (P : List ε → ε → Prop) (log : List ε) : Prop :=
  ∀ pre e post, log = pre ++ e :: post → P pre e

theorem each_nil : Each P [] := by
  intro pre e post h
  simp at h

/-- **One event more.** -/
theorem each_append_singleton {log : List ε} {e : ε} :
    Each P (log ++ [e]) ↔ Each P log ∧ P log e := by
  constructor
  · intro h
    refine ⟨?_, h log e [] rfl⟩
    rintro pre e' post rfl
    exact h pre e' (post ++ [e]) (by simp)
  · rintro ⟨hlog, he⟩ pre e' post h
    induction post using List.reverseRecOn with
    | nil =>
        obtain ⟨rfl, hee⟩ := List.append_inj' h rfl
        obtain rfl : e = e' := by simpa using hee
        exact he
    | append_singleton post x _ =>
        have hsplit : log ++ [e] = (pre ++ e' :: post) ++ [x] := by simpa using h
        exact hlog pre e' post (List.append_inj' hsplit rfl).1

end History
