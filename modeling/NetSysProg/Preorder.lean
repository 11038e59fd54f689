/-
**Walks through a forest in preorder.**

A forest is given by the list of the children of each node.  A walk visits the trees below some
nodes one after the other: first the node, at its level, and then the trees below its children, one
level deeper.  Nothing is assumed of the children for that; if no path leads from a node to itself
and the children are finite in depth there is a walk, and if each node has one parent it visits no
node twice.

Main definitions:

* `Preorder.Walk` — the visits of a walk, each with its level;
* `Preorder.Reach` — a node is at another one or below it;
* `Preorder.Level` — the level of a node below the roots.

Main results:

* `Preorder.exists_walk` — **there is a walk through a well-founded forest**;
* `Preorder.Walk.mem_iff` — it visits what is at or below its nodes;
* `Preorder.Walk.nodup` — **it visits no node twice**;
* `Preorder.Walk.between` — **a child is visited in the block of its parent**;
* `Preorder.Walk.level_iff` — the levels of the visits.
-/

import Mathlib.Data.List.Nodup
import Mathlib.Logic.Relation
import Mathlib.Data.Fintype.Card

set_option relaxedAutoImplicit false
set_option autoImplicit false

namespace Preorder

variable {α : Type*} {kids : α → List α}

/-- **A walk in preorder** through the trees below some nodes, which are at the level `l`. -/
inductive Walk (kids : α → List α) : ℕ → List α → List (α × ℕ) → Prop
  | nil (l : ℕ) : Walk kids l [] []
  | cons {l : ℕ} {a : α} {as : List α} {below rest : List (α × ℕ)} :
      Walk kids (l + 1) (kids a) below → Walk kids l as rest →
      Walk kids l (a :: as) ((a, l) :: (below ++ rest))

/-- The second node is the first, or below it. -/
abbrev Reach (kids : α → List α) : α → α → Prop := Relation.ReflTransGen fun a c => c ∈ kids a

/-- The level of a node: the number of its ancestors up to a root. -/
inductive Level (kids : α → List α) (roots : List α) : α → ℕ → Prop
  | root {a : α} : a ∈ roots → Level kids roots a 0
  | kid {a c : α} {l : ℕ} : Level kids roots a l → c ∈ kids a → Level kids roots c (l + 1)

/-! ### Existence -/

/-- A relation on finitely many nodes without a cycle is well-founded. -/
theorem wellFounded_of_acyclic [Finite α] {r : α → α → Prop}
    (h : ∀ a, ¬ Relation.TransGen r a a) : WellFounded r := by
  have : Std.Irrefl (Relation.TransGen r) := ⟨h⟩
  exact Subrelation.wf (fun hab => Relation.TransGen.single hab)
    (Finite.wellFounded_of_trans_of_irrefl (Relation.TransGen r))

theorem exists_walk_of_below {as : List α} (h : ∀ a ∈ as, ∀ l, ∃ below, Walk kids l (kids a) below)
    (l : ℕ) : ∃ out, Walk kids l as out := by
  induction as with
  | nil => exact ⟨[], .nil l⟩
  | cons a as ih =>
      obtain ⟨below, hbelow⟩ := h a (List.mem_cons_self ..) (l + 1)
      obtain ⟨rest, hrest⟩ := ih fun b hb => h b (List.mem_cons_of_mem a hb)
      exact ⟨_, .cons hbelow hrest⟩

/-- **There is a walk through a well-founded forest.** -/
theorem exists_walk (h : WellFounded fun c a => c ∈ kids a) (l : ℕ) (as : List α) :
    ∃ out, Walk kids l as out := by
  have hbelow (a : α) : ∀ l, ∃ below, Walk kids l (kids a) below := by
    induction a using h.induction with
    | _ a ih => exact exists_walk_of_below ih
  exact exists_walk_of_below (fun a _ => hbelow a) l

/-! ### What is visited -/

namespace Walk

variable {l : ℕ} {as : List α} {out : List (α × ℕ)}

/-- The nodes themselves are visited, at their level. -/
theorem mem_of_mem (h : Walk kids l as out) {a : α} (ha : a ∈ as) : (a, l) ∈ out := by
  induction h with
  | nil l => cases ha
  | cons hbelow hrest ih ih' =>
      rcases List.mem_cons.1 ha with rfl | ha
      · exact List.mem_cons_self ..
      · exact List.mem_cons_of_mem _ (List.mem_append_right _ (ih' ha))

/-- **What is visited is at the nodes or below them.** -/
theorem mem_iff (h : Walk kids l as out) {x : α} :
    x ∈ out.map Prod.fst ↔ ∃ a ∈ as, Reach kids a x := by
  induction h with
  | nil l => simp
  | @cons l a as below rest hbelow hrest ih ih' =>
      have hreach : Reach kids a x ↔ x = a ∨ ∃ c ∈ kids a, Reach kids c x := by
        rw [Reach, Relation.ReflTransGen.cases_head_iff, eq_comm]
      rw [List.map_cons, List.map_append, List.mem_cons, List.mem_append, ih, ih', ← or_assoc,
        ← hreach]
      simp

/-- The children of what is visited are visited one level deeper. -/
theorem mem_kid (h : Walk kids l as out) {a c : α} {k : ℕ} (ha : (a, k) ∈ out) (hc : c ∈ kids a) :
    (c, k + 1) ∈ out := by
  induction h with
  | nil l => cases ha
  | cons hbelow hrest ih ih' =>
      refine List.mem_cons_of_mem _ (List.mem_append.2 ?_)
      rcases List.mem_cons.1 ha with heq | ha
      · obtain ⟨rfl, rfl⟩ := Prod.mk.inj heq
        exact .inl (hbelow.mem_of_mem hc)
      · exact (List.mem_append.1 ha).imp ih ih'

/-- **The levels of the visits**, for a walk from the roots. -/
theorem level_iff {roots : List α} (h : Walk kids 0 roots out) {a : α} {k : ℕ} :
    (a, k) ∈ out ↔ Level kids roots a k := by
  have hlevel {l : ℕ} {as : List α} {out : List (α × ℕ)} (h : Walk kids l as out)
      (has : ∀ a ∈ as, Level kids roots a l) : ∀ x ∈ out, Level kids roots x.1 x.2 := by
    induction h with
    | nil l => simp
    | @cons l a as below rest hbelow hrest ih ih' =>
        have ha := has a (List.mem_cons_self ..)
        intro x hx
        rcases List.mem_cons.1 hx with rfl | hx
        · exact ha
        · rcases List.mem_append.1 hx with hx | hx
          · exact ih (fun c hc => ha.kid hc) x hx
          · exact ih' (fun b hb => has b (List.mem_cons_of_mem a hb)) x hx
  constructor
  · exact fun ha => hlevel h (fun b hb => .root hb) (a, k) ha
  · intro ha
    induction ha with
    | root hroot => exact h.mem_of_mem hroot
    | kid _ hc ih => exact h.mem_kid ih hc

/-- **A child is visited in the block of its parent**: what is visited between them is below the
parent. -/
theorem between (h : Walk kids l as out) {a c : α} (ha : a ∈ out.map Prod.fst) (hc : c ∈ kids a) :
    ∃ front k mid back, out = front ++ (a, k) :: (mid ++ (c, k + 1) :: back) ∧
      ∀ x ∈ mid, Reach kids a x.1 := by
  induction h with
  | nil l => simp at ha
  | @cons l b as below rest hbelow hrest ih ih' =>
      rw [List.map_cons, List.map_append, List.mem_cons, List.mem_append] at ha
      rcases ha with rfl | ha | ha
      · obtain ⟨mid, back, hsplit⟩ := List.append_of_mem (hbelow.mem_of_mem hc)
        refine ⟨[], l, mid, back ++ rest, by simp [hsplit], fun x hx => ?_⟩
        have hx : x.1 ∈ below.map Prod.fst := by
          rw [hsplit]
          exact List.mem_map_of_mem (List.mem_append_left _ hx)
        obtain ⟨d, hd, hreach⟩ := hbelow.mem_iff.1 hx
        exact .head hd hreach
      · obtain ⟨front, k, mid, back, rfl, hmid⟩ := ih ha
        exact ⟨(b, l) :: front, k, mid, back ++ rest, by simp, hmid⟩
      · obtain ⟨front, k, mid, back, rfl, hmid⟩ := ih' ha
        exact ⟨(b, l) :: (below ++ front), k, mid, back, by simp, hmid⟩

/-- **No node is visited twice**, when each has one parent and none is below itself. -/
theorem nodup (h : Walk kids l as out) (hkids : ∀ a, (kids a).Nodup)
    (hparent : ∀ a b c, c ∈ kids a → c ∈ kids b → a = b)
    (hacyclic : ∀ a, ¬ Relation.TransGen (fun a c => c ∈ kids a) a a) (has : as.Nodup)
    (happart : ∀ a ∈ as, ∀ b ∈ as, Reach kids a b → a = b) : (out.map Prod.fst).Nodup := by
  -- the ancestors of a node form a chain
  have hchain {a b x : α} (ha : Reach kids a x) (hb : Reach kids b x) :
      Reach kids a b ∨ Reach kids b a := by
    have hunique : Relator.RightUnique (Function.swap fun a c : α => c ∈ kids a) :=
      fun c a b ha hb => hparent a b c ha hb
    have htotal := Relation.ReflTransGen.total_of_right_unique hunique ha.swap hb.swap
    exact htotal.symm.imp (fun h => Relation.reflTransGen_swap.1 h)
      fun h => Relation.reflTransGen_swap.1 h
  induction h with
  | nil l => exact List.nodup_nil
  | @cons l a as below rest hbelow hrest ih ih' =>
      obtain ⟨hnotMem, has⟩ := List.nodup_cons.1 has
      have hself : ∀ c ∈ kids a, ¬ Reach kids c a := fun c hc hreach =>
        hacyclic a (Relation.TransGen.head' hc hreach)
      rw [List.map_cons, List.map_append, List.nodup_cons, List.mem_append, List.nodup_append]
      refine ⟨?_, ih (hkids a) ?_, ih' has ?_, ?_⟩
      · rintro (hmem | hmem)
        · obtain ⟨c, hc, hreach⟩ := hbelow.mem_iff.1 hmem
          exact hself c hc hreach
        · obtain ⟨b, hb, hreach⟩ := hrest.mem_iff.1 hmem
          have heq := happart b (List.mem_cons_of_mem a hb) a (List.mem_cons_self ..) hreach
          exact hnotMem (heq ▸ hb)
      · intro c hc d hd hreach
        rcases Relation.ReflTransGen.cases_tail_iff .. |>.1 hreach with heq | ⟨e, hce, he⟩
        · exact heq.symm
        · obtain rfl := hparent e a d he hd
          exact absurd hce (hself c hc)
      · exact fun b hb d hd => happart b (List.mem_cons_of_mem a hb) d (List.mem_cons_of_mem a hd)
      · rintro x hx y hy rfl
        obtain ⟨c, hc, hcx⟩ := hbelow.mem_iff.1 hx
        obtain ⟨b, hb, hbx⟩ := hrest.mem_iff.1 hy
        have hb' := List.mem_cons_of_mem a hb
        have ha' : a ∈ a :: as := List.mem_cons_self ..
        have heq : a = b := by
          rcases hchain (Relation.ReflTransGen.head hc hcx) hbx with hreach | hreach
          · exact happart a ha' b hb' hreach
          · exact (happart b hb' a ha' hreach).symm
        exact hnotMem (heq ▸ hb)

end Walk

end Preorder
