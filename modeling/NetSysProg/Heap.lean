/-
**Memory from `malloc`.**

A heap gives the blocks that have been handed out and not been freed their contents.  Which address
the allocator picks is its own affair: it may depend on everything that has happened before, and all
that is known is that the address is not in use.  `realloc` may leave the block where it is or move
it.

What a piece of code does to a heap is told by the blocks that it has added, which is also what it
has still to free.  An access to any other address than that of a block, and with it a second
`free`, has no defined meaning.

Main definitions:

* `Heap`, `Heap.load`, `Heap.store`, `Heap.free`;
* `Heap.Allocator` — an allocator, with `malloc` and `realloc`;
* `Heap.Adds` — one heap is another one and some blocks more.

Main results:

* `Heap.Adds.malloc`, `Heap.Adds.realloc`, `Heap.Adds.load`, `Heap.Adds.store`, `Heap.Adds.free` —
  **what the operations do to the blocks that have been added**;
* `Heap.Adds.trans` — the blocks of two pieces of code add up.
-/

import NetSysProg.Outcome
import Mathlib.Data.List.Nodup
import Mathlib.Data.List.Perm.Basic
import Mathlib.Logic.Function.Basic

set_option relaxedAutoImplicit false
set_option autoImplicit false

universe u

/-- The contents of the blocks in use, none of which is at `bound` or above, and how often memory
has been asked for so far. -/
structure Heap (α : Type u) where
  cell : ℕ → Option α
  bound : ℕ
  cell_of_le : ∀ p, bound ≤ p → cell p = none
  calls : ℕ

namespace Heap

variable {α : Type u}

/-! ### Access -/

/-- Reading the block at `p`. -/
def load (h : Heap α) (p : ℕ) : Outcome α := Outcome.deref (h.cell p)

/-- The heap with the contents `x` at `p`. -/
def put (h : Heap α) (p : ℕ) (x : α) : Heap α where
  cell := Function.update h.cell p (some x)
  bound := max h.bound (p + 1)
  cell_of_le := by
    intro q hq
    rw [Function.update_of_ne (by omega)]
    exact h.cell_of_le q (by omega)
  calls := h.calls

/-- Writing to the block at `p`. -/
def store (h : Heap α) (p : ℕ) (x : α) : Outcome (Heap α) :=
  if h.cell p = none then .fault else .ok (h.put p x)

/-- The heap without the block at `p`. -/
def drop (h : Heap α) (p : ℕ) : Heap α where
  cell := Function.update h.cell p none
  bound := h.bound
  cell_of_le := by
    intro q hq
    by_cases hqp : q = p
    · rw [hqp, Function.update_self]
    · rw [Function.update_of_ne hqp]
      exact h.cell_of_le q hq
  calls := h.calls

/-- `free` -/
def free (h : Heap α) (p : ℕ) : Outcome (Heap α) :=
  if h.cell p = none then .fault else .ok (h.drop p)

/-! ### Allocation -/

/-- An allocator: where it finds room, which there always is. -/
structure Allocator (α : Type u) where
  place : Heap α → ℕ
  cell_place : ∀ h : Heap α, h.cell (place h) = none

namespace Allocator

variable (A : Allocator α)

/-- `malloc`, for a block with the contents `x`. -/
def malloc (h : Heap α) (x : α) : ℕ × Heap α :=
  (A.place h, { h.put (A.place h) x with calls := h.calls + 1 })

/-- `realloc` of the block at `p`, which keeps `f x` of its contents `x`. -/
def realloc (h : Heap α) (p : ℕ) (f : α → α) : Outcome (ℕ × Heap α) := do
  let x ← h.load p
  let h ← h.free p
  return A.malloc h (f x)

end Allocator

/-- There is an allocator: it takes the first address above all that are in use. -/
instance : Inhabited (Allocator α) where
  default :=
    { place := fun h => h.bound
      cell_place := fun h => h.cell_of_le _ (Nat.le_refl _) }

/-! ### Added blocks -/

/-- The heap `h'` is `h` and the blocks `bs`, at addresses that are free in `h`. -/
structure Adds (h h' : Heap α) (bs : List (ℕ × α)) : Prop where
  nodup : (bs.map Prod.fst).Nodup
  fresh : ∀ b ∈ bs, h.cell b.1 = none
  added : ∀ b ∈ bs, h'.cell b.1 = some b.2
  kept : ∀ p, p ∉ bs.map Prod.fst → h'.cell p = h.cell p

namespace Adds

variable {h h' h'' : Heap α} {bs cs : List (ℕ × α)} {p : ℕ} {x : α}

theorem refl (h : Heap α) : Adds h h [] :=
  ⟨List.nodup_nil, fun _ hb => absurd hb List.not_mem_nil, fun _ hb => absurd hb List.not_mem_nil,
    fun _ _ => rfl⟩

/-- The order of the blocks does not matter. -/
theorem perm (hadds : Adds h h' bs) (hperm : bs.Perm cs) : Adds h h' cs := by
  have hmap : (bs.map Prod.fst).Perm (cs.map Prod.fst) := hperm.map Prod.fst
  refine ⟨hmap.nodup_iff.1 hadds.nodup, ?_, ?_, ?_⟩
  · exact fun b hb => hadds.fresh b (hperm.mem_iff.2 hb)
  · exact fun b hb => hadds.added b (hperm.mem_iff.2 hb)
  · exact fun q hq => hadds.kept q fun hmem => hq (hmap.mem_iff.1 hmem)

/-- A block that has been added is in use. -/
theorem cell_head (hadds : Adds h h' ((p, x) :: bs)) : h'.cell p = some x :=
  hadds.added (p, x) List.mem_cons_self

/-- An address that is free is none of the added blocks'. -/
theorem notMem_of_cell (hadds : Adds h h' bs) (hp : h'.cell p = none) : p ∉ bs.map Prod.fst := by
  intro hmem
  obtain ⟨b, hb, rfl⟩ := List.mem_map.1 hmem
  rw [hadds.added b hb] at hp
  cases hp

/-- The first block changes its contents, or is put at a new address. -/
theorem cons (hadds : Adds h h' bs) (hp : p ∉ bs.map Prod.fst) (hfresh : h.cell p = none)
    (hcell : h''.cell = Function.update h'.cell p (some x)) : Adds h h'' ((p, x) :: bs) := by
  have hne : ∀ b ∈ bs, b.1 ≠ p := by
    rintro b hb rfl
    exact hp (List.mem_map_of_mem hb)
  refine ⟨List.nodup_cons.2 ⟨hp, hadds.nodup⟩, ?_, ?_, ?_⟩
  · intro b hb
    rcases List.mem_cons.1 hb with rfl | hb
    · exact hfresh
    · exact hadds.fresh b hb
  · intro b hb
    rw [hcell]
    rcases List.mem_cons.1 hb with rfl | hb
    · exact Function.update_self _ _ _
    · rw [Function.update_of_ne (hne b hb)]
      exact hadds.added b hb
  · intro q hq
    rw [List.map_cons, List.mem_cons, not_or] at hq
    rw [hcell, Function.update_of_ne hq.1]
    exact hadds.kept q hq.2

/-- The first block is gone. -/
theorem tail (hadds : Adds h h' ((p, x) :: bs))
    (hcell : h''.cell = Function.update h'.cell p none) :
    Adds h h'' bs := by
  obtain ⟨hp, hnodup⟩ := List.nodup_cons.1 hadds.nodup
  refine ⟨hnodup, fun b hb => hadds.fresh b (List.mem_cons_of_mem _ hb), fun b hb => ?_,
    fun q hq => ?_⟩
  · have hne : b.1 ≠ p := by
      rintro rfl
      exact hp (List.mem_map.2 ⟨b, hb, rfl⟩)
    rw [hcell, Function.update_of_ne hne]
    exact hadds.added b (List.mem_cons_of_mem _ hb)
  · rw [hcell]
    by_cases hqp : q = p
    · rw [hqp, Function.update_self]
      exact (hadds.fresh (p, x) List.mem_cons_self).symm
    · rw [Function.update_of_ne hqp]
      refine hadds.kept q ?_
      rw [List.map_cons, List.mem_cons, not_or]
      exact ⟨hqp, hq⟩

/-! ### The operations -/

theorem malloc (hadds : Adds h h' bs) (A : Allocator α) (x : α) :
    Adds h (A.malloc h' x).2 (((A.malloc h' x).1, x) :: bs) := by
  have hp : A.place h' ∉ bs.map Prod.fst := hadds.notMem_of_cell (A.cell_place h')
  have hfresh : h.cell (A.place h') = none := by
    rw [← hadds.kept _ hp]
    exact A.cell_place h'
  exact hadds.cons hp hfresh rfl

theorem load_of_mem (hadds : Adds h h' bs) (hmem : (p, x) ∈ bs) : h'.load p = .ok x := by
  rw [Heap.load, hadds.added (p, x) hmem, Outcome.deref_some]

theorem load (hadds : Adds h h' ((p, x) :: bs)) : h'.load p = .ok x :=
  hadds.load_of_mem List.mem_cons_self

theorem store (hadds : Adds h h' ((p, x) :: bs)) (y : α) :
    ∃ h'', h'.store p y = .ok h'' ∧ Adds h h'' ((p, y) :: bs) := by
  have hcell : h'.cell p ≠ none := by rw [hadds.cell_head]; exact nofun
  have hrest : Adds h (h'.drop p) bs := hadds.tail rfl
  refine ⟨h'.put p y, if_neg hcell, hrest.cons (List.nodup_cons.1 hadds.nodup).1
    (hadds.fresh (p, x) List.mem_cons_self) ?_⟩
  exact (Function.update_idem _ _ _).symm

/-- **A block that has been added can be freed**, and is then not there any more. -/
theorem free (hadds : Adds h h' ((p, x) :: bs)) : ∃ h'', h'.free p = .ok h'' ∧ Adds h h'' bs := by
  have hcell : h'.cell p ≠ none := by rw [hadds.cell_head]; exact nofun
  exact ⟨h'.drop p, if_neg hcell, hadds.tail rfl⟩

theorem realloc (hadds : Adds h h' ((p, x) :: bs)) (A : Allocator α) (f : α → α) :
    ∃ q h'', A.realloc h' p f = .ok (q, h'') ∧ Adds h h'' ((q, f x) :: bs) := by
  obtain ⟨h₁, hfree, hrest⟩ := hadds.free
  refine ⟨_, _, ?_, hrest.malloc A (f x)⟩
  rw [Allocator.realloc, hadds.load, Outcome.bind_ok, hfree]
  rfl

/-- **The blocks of two pieces of code add up.** -/
theorem trans (hadds : Adds h h' bs) (hadds' : Adds h' h'' cs) : Adds h h'' (bs ++ cs) := by
  have hdisjoint : ∀ c ∈ cs, c.1 ∉ bs.map Prod.fst := fun c hc =>
    hadds.notMem_of_cell (hadds'.fresh c hc)
  have hkept : ∀ b ∈ bs, b.1 ∉ cs.map Prod.fst := by
    intro b hb hmem
    obtain ⟨c, hc, heq⟩ := List.mem_map.1 hmem
    exact hdisjoint c hc (by rw [heq]; exact List.mem_map_of_mem hb)
  refine ⟨?_, fun b hb => ?_, fun b hb => ?_, fun q hq => ?_⟩
  · rw [List.map_append]
    refine hadds.nodup.append hadds'.nodup fun q hq hq' => ?_
    obtain ⟨c, hc, rfl⟩ := List.mem_map.1 hq'
    exact hdisjoint c hc hq
  · rcases List.mem_append.1 hb with hb | hb
    · exact hadds.fresh b hb
    · rw [← hadds.kept b.1 (hdisjoint b hb)]
      exact hadds'.fresh b hb
  · rcases List.mem_append.1 hb with hb | hb
    · rw [hadds'.kept b.1 (hkept b hb)]
      exact hadds.added b hb
    · exact hadds'.added b hb
  · rw [List.map_append, List.mem_append, not_or] at hq
    rw [hadds'.kept q hq.2, hadds.kept q hq.1]

end Adds

end Heap
