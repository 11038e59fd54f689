/-
**The open descriptors of a process.**

A process may have no more descriptors open than its limit allows.  A call that opens a file takes
the lowest number that is free, and fails when there is none below the limit; `close` fails for a
number that is not open.

Main definitions:

* `Descriptors.Table` — the descriptors that are open, and the limit;
* `Descriptors.Table.opened`, `Descriptors.Table.close` — one call;
* `Descriptors.Table.room` — how many more files can be opened.

Main results:

* `Descriptors.Table.card_opened`, `Descriptors.Table.card_close` — **how many are open**
  afterwards;
* `Descriptors.Table.Bounded.card_le` — the limit is kept;
* `Descriptors.Table.opened_eq_none_iff`, `Descriptors.Table.room_opened` — **how long files can be
  opened**.
-/

import Mathlib.Data.Finset.Card
import Mathlib.Data.Finset.Range
import Mathlib.Tactic.Common

set_option relaxedAutoImplicit false
set_option autoImplicit false

namespace Descriptors

/-- The descriptors that are open, and the limit. -/
structure Table where
  fds : Finset ℕ
  limit : ℕ
  deriving DecidableEq

namespace Table

variable {t t' : Table}

/-- The lowest free number. -/
def free (t : Table) : Option ℕ := (List.range t.limit).find? fun fd => fd ∉ t.fds

/-- The table after `open`, `opendir` or `fopen`; without a free number the call fails with
`EMFILE`. -/
def opened (t : Table) : Option Table := t.free.map fun fd => { t with fds := insert fd t.fds }

/-- The table after `close`, which fails with `EBADF`. -/
def close (t : Table) (fd : ℤ) : Option Table :=
  if 0 ≤ fd ∧ fd.toNat ∈ t.fds then some { t with fds := t.fds.erase fd.toNat } else none

theorem limit_opened (h : t.opened = some t') : t'.limit = t.limit := by
  obtain ⟨fd, -, rfl⟩ := Option.map_eq_some_iff.1 h
  rfl

/-- **Opening** adds one. -/
theorem card_opened (h : t.opened = some t') : t'.fds.card = t.fds.card + 1 := by
  obtain ⟨fd, hfree, rfl⟩ := Option.map_eq_some_iff.1 h
  have hnot : fd ∉ t.fds := by simpa using List.find?_some hfree
  exact Finset.card_insert_of_notMem hnot

/-- **Closing** takes one away, whichever it is. -/
theorem card_close {fd : ℤ} (h : t.close fd = some t') : t'.fds.card + 1 = t.fds.card := by
  unfold close at h
  split at h
  · next hopen =>
      cases h
      exact Finset.card_erase_add_one hopen.2
  · cases h

/-- The numbers are below the limit. -/
def Bounded (t : Table) : Prop := ∀ fd ∈ t.fds, fd < t.limit

theorem Bounded.opened (h : t.Bounded) (hopen : t.opened = some t') : t'.Bounded := by
  obtain ⟨fd, hfree, rfl⟩ := Option.map_eq_some_iff.1 hopen
  intro x hx
  rcases Finset.mem_insert.1 hx with rfl | hx
  · exact List.mem_range.1 (List.mem_of_find?_eq_some hfree)
  · exact h x hx

theorem Bounded.card_le (h : t.Bounded) : t.fds.card ≤ t.limit := by
  have hsub : t.fds ⊆ Finset.range t.limit := fun fd hfd => Finset.mem_range.2 (h fd hfd)
  simpa using Finset.card_le_card hsub

/-- The number of files that can still be opened. -/
def room (t : Table) : ℕ := (Finset.range t.limit \ t.fds).card

/-- A call fails when there is no room left. -/
theorem opened_eq_none_iff : t.opened = none ↔ t.room = 0 := by
  unfold opened free room
  rw [Option.map_eq_none_iff, List.find?_eq_none, Finset.card_eq_zero,
    Finset.sdiff_eq_empty_iff_subset]
  constructor
  · intro hall fd hfd
    have hopen := hall fd (List.mem_range.2 (Finset.mem_range.1 hfd))
    simpa using hopen
  · intro hsub fd hfd
    have hopen := hsub (Finset.mem_range.2 (List.mem_range.1 hfd))
    simpa using hopen

/-- **Opening** takes room for one file. -/
theorem room_opened (h : t.opened = some t') : t'.room + 1 = t.room := by
  obtain ⟨fd, hfree, rfl⟩ := Option.map_eq_some_iff.1 h
  have hnot : fd ∉ t.fds := by simpa using List.find?_some hfree
  have hmem : fd ∈ Finset.range t.limit \ t.fds := by
    rw [Finset.mem_sdiff, Finset.mem_range]
    exact ⟨List.mem_range.1 (List.mem_of_find?_eq_some hfree), hnot⟩
  unfold room
  rw [Finset.sdiff_insert]
  exact Finset.card_erase_add_one hmem

end Table

end Descriptors
