/-
**Chains of nodes on a heap.**

A heap holds nodes at addresses, and a node holds the address of the next one, or none.
`LinkedChain.Chain next h p cs q` says that following `next` from `p` leads through exactly the
cells `cs`, pairs of an address and the node found there, and arrives at `q`.  This is the list
segment of pointer programs; a function that changes one node of a chain is understood by splitting
the chain at that node.

Main results:

* `LinkedChain.chain_append` — a chain can be cut anywhere;
* `LinkedChain.Chain.insert`, `LinkedChain.Chain.erase` — **a chain does not notice what happens at
  other addresses**;
* `LinkedChain.Chain.set` — storing a node where a chain ends redirects it;
* `LinkedChain.Chain.length_le` — a chain without repetition is no longer than its heap.
-/

import Mathlib.Data.List.AList
import Mathlib.Data.List.Nodup
import Mathlib.Tactic.Common

set_option relaxedAutoImplicit false
set_option autoImplicit false

namespace LinkedChain

/-- The nodes that are allocated, by address. -/
abbrev Heap (N : Type*) := AList fun _ : ℕ => N

variable {N : Type*} (next : N → Option ℕ)

/-- Following `next` from `p` leads through the cells of the list to `q`. -/
def Chain (h : Heap N) : Option ℕ → List (ℕ × N) → Option ℕ → Prop
  | p, [], q => p = q
  | p, c :: cs, q => p = some c.1 ∧ h.lookup c.1 = some c.2 ∧ Chain h (next c.2) cs q

variable {next}

@[simp] theorem chain_nil {h : Heap N} {p q : Option ℕ} : Chain next h p [] q ↔ p = q := Iff.rfl

@[simp] theorem chain_cons {h : Heap N} {p q : Option ℕ} {c : ℕ × N} {cs : List (ℕ × N)} :
    Chain next h p (c :: cs) q ↔
      p = some c.1 ∧ h.lookup c.1 = some c.2 ∧ Chain next h (next c.2) cs q := Iff.rfl

/-- A chain can be cut anywhere. -/
theorem chain_append {h : Heap N} {p q : Option ℕ} {cs ds : List (ℕ × N)} :
    Chain next h p (cs ++ ds) q ↔ ∃ m, Chain next h p cs m ∧ Chain next h m ds q := by
  induction cs generalizing p with
  | nil => simp
  | cons c cs ih => simp only [List.cons_append, chain_cons, ih]; grind

namespace Chain

variable {h h' : Heap N} {p q : Option ℕ} {cs : List (ℕ × N)}

/-- A chain depends on the nodes at its own addresses only. -/
theorem congr (hc : Chain next h p cs q) (heq : ∀ c ∈ cs, h'.lookup c.1 = h.lookup c.1) :
    Chain next h' p cs q := by
  induction cs generalizing p with
  | nil => exact hc
  | cons c cs ih =>
      exact ⟨hc.1, (heq c (List.mem_cons_self ..)).trans hc.2.1,
        ih hc.2.2 fun d hd => heq d (List.mem_cons_of_mem _ hd)⟩

/-- Storing a node at another address leaves the chain alone. -/
theorem insert (hc : Chain next h p cs q) {a : ℕ} (n : N) (ha : a ∉ cs.map Prod.fst) :
    Chain next (h.insert a n) p cs q := by
  refine hc.congr fun c hcs => AList.lookup_insert_ne ?_
  rintro rfl
  exact ha (List.mem_map_of_mem hcs)

/-- Freeing a node at another address leaves the chain alone. -/
theorem erase (hc : Chain next h p cs q) {a : ℕ} (ha : a ∉ cs.map Prod.fst) :
    Chain next (h.erase a) p cs q := by
  refine hc.congr fun c hcs => AList.lookup_erase_ne ?_
  rintro rfl
  exact ha (List.mem_map_of_mem hcs)

/-- The nodes of a chain are allocated. -/
theorem lookup (hc : Chain next h p cs q) : ∀ c ∈ cs, h.lookup c.1 = some c.2 := by
  induction cs generalizing p with
  | nil => intro c hcs; simp at hcs
  | cons c cs ih =>
      intro d hd
      rcases List.mem_cons.1 hd with rfl | hd
      · exact hc.2.1
      · exact ih hc.2.2 d hd

/-- The three parts of a chain with a cell in it. -/
theorem split {cs ds : List (ℕ × N)} {c : ℕ × N} (hc : Chain next h p (cs ++ c :: ds) q) :
    Chain next h p cs (some c.1) ∧ h.lookup c.1 = some c.2 ∧ Chain next h (next c.2) ds q := by
  obtain ⟨m, hpre, rfl, hlookup, hpost⟩ := chain_append.1 hc
  exact ⟨hpre, hlookup, hpost⟩

/-- **Storing a node where a chain ends redirects it**, provided that its address occurs neither
before nor after. -/
theorem set {cs ds : List (ℕ × N)} {a : ℕ} (n : N) (hc : Chain next h p cs (some a))
    (hd : Chain next h (next n) ds q) (hcs : a ∉ cs.map Prod.fst) (hds : a ∉ ds.map Prod.fst) :
    Chain next (h.insert a n) p (cs ++ (a, n) :: ds) q :=
  chain_append.2 ⟨some a, hc.insert n hcs, rfl, AList.lookup_insert _, hd.insert n hds⟩

/-- A chain without repetition is no longer than its heap. -/
theorem length_le (hc : Chain next h p cs q) (hnodup : (cs.map Prod.fst).Nodup) :
    cs.length ≤ h.keys.length := by
  have hsub : cs.map Prod.fst ⊆ h.keys := by
    intro a ha
    obtain ⟨c, hcs, rfl⟩ := List.mem_map.1 ha
    exact AList.lookup_isSome.1 (by rw [hc.lookup c hcs]; rfl)
  simpa using (List.subperm_of_subset hnodup hsub).length_le

end Chain

end LinkedChain
