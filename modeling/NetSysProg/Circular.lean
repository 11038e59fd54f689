/-
**A circular store of the last messages of a sequence.**

Message `j` of a sequence is stored in slot `j % b`, over what the slot held before.  So after `k`
messages the store holds the last `b` of them, and what the slot of an earlier message holds is the
latest message that shares the slot with it.

Main definitions:

* `Circular.Holds` — the store after `k` messages;
* `Circular.latest` — the latest of `k` messages in the slot of message `v`.

Main results:

* `Circular.Holds.store` — one message more;
* `Circular.Holds.read` — what the slot of a message holds;
* `Circular.latest_eq_self_iff` — whether that is still the message itself.
-/

import Mathlib.Logic.Function.Basic
import Mathlib.Tactic.Common

set_option relaxedAutoImplicit false
set_option autoImplicit false

namespace Circular

variable {α : Type*} {b k v : ℕ} {f : ℕ → α} {slot : ℕ → α}

/-- The last `b` of the first `k` messages of `f` are in their slots. -/
def Holds (b k : ℕ) (f slot : ℕ → α) : Prop := ∀ j, j < k → k ≤ j + b → slot (j % b) = f j

theorem holds_zero : Holds b 0 f slot := by
  intro j hj
  omega

/-- Two different messages of the last `b` do not share a slot. -/
theorem mod_ne_of_lt {i j : ℕ} (hlt : i < j) (hwindow : j < i + b) : i % b ≠ j % b := by
  intro heq
  have hdvd : b ∣ j - i := Nat.dvd_of_mod_eq_zero (Nat.sub_mod_eq_zero_of_mod_eq heq.symm)
  have hle := Nat.le_of_dvd (by omega) hdvd
  omega

/-- **One message more.** -/
theorem Holds.store (h : Holds b k f slot) :
    Holds b (k + 1) f (Function.update slot (k % b) (f k)) := by
  intro j hj hwindow
  rcases Nat.lt_succ_iff_lt_or_eq.1 hj with hlt | rfl
  · rw [Function.update_of_ne (mod_ne_of_lt hlt (by omega))]
    exact h j hlt (by omega)
  · rw [Function.update_self]

/-- The latest of the first `k` messages that has the slot of message `v`. -/
def latest (b k v : ℕ) : ℕ := v + b * ((k - 1 - v) / b)

theorem le_latest : v ≤ latest b k v := Nat.le_add_right _ _

theorem latest_mod : latest b k v % b = v % b := Nat.add_mul_mod_self_left _ _ _

theorem latest_lt (hv : v < k) : latest b k v < k := by
  have hle := Nat.mul_div_le (k - 1 - v) b
  unfold latest
  omega

theorem le_latest_add (hb : 0 < b) (hv : v < k) : k ≤ latest b k v + b := by
  have hlt := Nat.lt_mul_div_succ (k - 1 - v) hb
  rw [Nat.mul_add_one] at hlt
  unfold latest
  omega

/-- **What the slot of a message holds.** -/
theorem Holds.read (h : Holds b k f slot) (hb : 0 < b) (hv : v < k) :
    slot (v % b) = f (latest b k v) := by
  rw [← latest_mod]
  exact h _ (latest_lt hv) (le_latest_add hb hv)

/-- **A message is in its slot** until the message `b` places behind it is stored. -/
theorem latest_eq_self_iff (hb : 0 < b) (hv : v < k) : latest b k v = v ↔ k ≤ v + b := by
  constructor
  · intro heq
    have hle := le_latest_add hb hv
    rwa [heq] at hle
  · intro hle
    rw [latest, Nat.div_eq_of_lt (by omega), Nat.mul_zero, Nat.add_zero]

end Circular
