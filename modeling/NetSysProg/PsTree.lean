/-
**What `print_pstree` prints (`HW4/12_2.c`).**

The tree that `build_pstree` has built is printed in preorder, from each process that has no parent
in the list.  Each call gets ten bytes for the indentation that are not initialised, and puts two
spaces for each level behind whatever string is in them.  So the tree is printed as it should be
just when all these bytes start with a null byte, no process is deeper than the fourth level, and no
line is longer than the buffer for it.

Main definitions:

* `PsTree.IsForest` — distinct process ids, no cycle, and not too many children;
* `PsTree.Drawn`, `PsTree.Draws` — every process is printed once, at its level, in the block of its
  parent;
* `PsTree.Depth` — the level of a process;
* `PsTree.Fits` — the condition.

Main results:

* `PsTree.drawTree_eq` — the calls of the recursion are those of a walk in preorder;
* `PsTree.draws_iff_fits` — **the tree is printed exactly under the condition**;
* `PsTree.not_draws_deep` — a process with five ancestors.
-/

import NetSysProg.Preorder
import NetSysProg.PsTreeBuild
import Mathlib.Data.Fintype.EquivFin
import Mathlib.Data.List.FinRange

set_option relaxedAutoImplicit false
set_option autoImplicit false

namespace PsTree

open CString Preorder

/-! ### What should be printed -/

/-- The second process is a child of the first, and both have been inserted. -/
def Child (procs : List Process) (q p : Process) : Prop := q ∈ procs ∧ p ∈ procs ∧ p.ppid = q.pid

/-- The processes form a forest, and each has room for its children. -/
structure IsForest (procs : List Process) : Prop where
  distinct : (procs.map Process.pid).Nodup
  acyclic : ∀ p, ¬Relation.TransGen (Child procs) p p
  few : ∀ q ∈ procs, (procs.filter fun p => p.ppid = q.pid).length ≤ 1023

/-- **The tree as it should be printed**: each process once, with two spaces for each level; a
process whose parent is in the list one level deeper and with nothing between the two but
descendants of the parent; any other process at level zero. -/
structure Drawn (procs : List Process) (records : List Printed) : Prop where
  each_once : (records.map Printed.proc).Perm procs
  text : ∀ r ∈ records, r.text = line r.level r.proc
  block : ∀ q p, Child procs q p → ∃ front r mid r' back,
    records = front ++ r :: (mid ++ r' :: back) ∧ r.proc = q ∧ r'.proc = p ∧
      r'.level = r.level + 1 ∧ ∀ m ∈ mid, Relation.ReflTransGen (Child procs) q m.proc
  root : ∀ p ∈ procs, (∀ q, ¬Child procs q p) → ∃ r ∈ records, r.proc = p ∧ r.level = 0

/-- **The program prints the tree as it should**, once the recursion may be deep enough. -/
def Draws (env : ℕ → Call) (procs : List Process) : Prop :=
  ∃ d, ∀ depth ≥ d, ∃ records, drawTree env depth procs = .ok records ∧ Drawn procs records

/-- The level of a process. -/
inductive Depth (procs : List Process) : Process → ℕ → Prop
  | root {p : Process} : p ∈ procs → (∀ q, ¬Child procs q p) → Depth procs p 0
  | child {q p : Process} {l : ℕ} : Depth procs q l → Child procs q p → Depth procs p (l + 1)

/-- **The condition**: each of the calls gets memory that starts with a null byte and can write, no
process is deeper than level 4, and every line fits into its buffer. -/
structure Fits (env : ℕ → Call) (procs : List Process) : Prop where
  clean : ∀ k < procs.length, (env k).Clean
  shallow : ∀ p l, Depth procs p l → l ≤ 4
  short : ∀ p l, Depth procs p l → (line l p).length < bufferSize

/-! ### The calls of the recursion -/

section

variable {procs : List Process}

/-- What the calls for some visits write, one after the other. -/
def renderAll (env : ℕ → Call) : ℕ → List (Fin procs.length × ℕ) → Outcome (List Printed)
  | _, [] => .ok []
  | k, (a, l) :: out => do
      let text ← renderLine (env k) (procs.get a) l
      let rest ← renderAll env (k + 1) out
      return ⟨procs.get a, l, text⟩ :: rest

theorem renderAll_append (env : ℕ → Call) (k : ℕ) (xs ys : List (Fin procs.length × ℕ)) :
    renderAll env k (xs ++ ys) = (do
      let block ← renderAll env k xs
      let rest ← renderAll env (k + block.length) ys
      return block ++ rest) := by
  induction xs generalizing k with
  | nil =>
      rw [List.nil_append, renderAll, Outcome.bind_ok, List.length_nil, Nat.add_zero]
      cases renderAll env k ys <;> rfl
  | cons x xs ih =>
      rw [List.cons_append, renderAll, renderAll]
      cases renderLine (env k) (procs.get x.1) x.2 with
      | ok text =>
          rw [Outcome.bind_ok, Outcome.bind_ok, ih]
          cases renderAll env (k + 1) xs with
          | ok block =>
              have hlen : k + 1 + block.length = k + (block.length + 1) := by omega
              simp only [Outcome.bind_ok, Outcome.pure_eq, List.length_cons, hlen]
              cases renderAll env (k + (block.length + 1)) ys <;> rfl
          | exit status message => rfl
          | fault => rfl
          | timeout => rfl
      | exit status message => rfl
      | fault => rfl
      | timeout => rfl

variable {env : ℕ → Call} {s : State}

/-- A call for a node, when the loop over its children is known. -/
theorem printRecursive_eq (h : Built (order procs) s) {a : Fin procs.length} {l : ℕ}
    {below : List (Fin procs.length × ℕ)} {fuel : ℕ}
    (hbelow : ∀ k, eachChild (printRecursive env s fuel (l + 1)) (cells (kids procs a)) k =
      renderAll env k below) (k : ℕ) :
    printRecursive env s (fuel + 1) l a.val k = renderAll env k ((a, l) :: below) := by
  obtain ⟨parent, hget, -⟩ := h.get a
  rw [printRecursive, hget, Outcome.bind_ok, renderAll]
  have hkids : kidsIn (order procs) a = kids procs a := rfl
  simp only [hkids, hbelow]

/-- **The loop over children** makes the calls of a walk below them, if the recursion may be deep
enough. -/
theorem eachChild_eq (h : Built (order procs) s) {l : ℕ} {as : List (Fin procs.length)}
    {out : List (Fin procs.length × ℕ)} (hwalk : Walk (kids procs) l as out) :
    ∃ d, ∀ fuel ≥ d, ∀ k, eachChild (printRecursive env s fuel l) (cells as) k =
      renderAll env k out := by
  induction hwalk with
  | nil l => exact ⟨0, fun _ _ _ => rfl⟩
  | @cons l a as below rest hbelow hrest ih ih' =>
      obtain ⟨d, hd⟩ := ih
      obtain ⟨d', hd'⟩ := ih'
      refine ⟨max (d + 1) d', fun fuel hfuel k => ?_⟩
      obtain ⟨fuel, rfl⟩ : ∃ n, fuel = n + 1 := ⟨fuel - 1, by omega⟩
      have hnode := printRecursive_eq h (hd fuel (by omega))
      have hcells : cells (a :: as) = some a.val :: cells as := rfl
      rw [hcells, eachChild, hnode, ← List.cons_append, renderAll_append]
      simp only [hd' (fuel + 1) (by omega)]

/-- The processes without a parent in the list. -/
def roots (procs : List Process) (nodes : List (Fin procs.length)) : List (Fin procs.length) :=
  nodes.filter fun c => (order procs).all fun q => ¬IsKid q c

theorem mem_order (c : Fin procs.length) : c ∈ order procs := (mem_downFrom le_rfl c).2 c.isLt

theorem mem_roots {nodes : List (Fin procs.length)} {c : Fin procs.length} :
    c ∈ roots procs nodes ↔ c ∈ nodes ∧ ∀ q, ¬IsKid q c := by
  simp [roots, mem_order]

theorem roots_cons (c : Fin procs.length) (nodes : List (Fin procs.length)) :
    roots procs (c :: nodes) =
      if ∀ q, ¬IsKid q c then c :: roots procs nodes else roots procs nodes := by
  by_cases h : ∀ q, ¬IsKid q c
  · rw [if_pos h, roots, List.filter_cons_of_pos (by simpa [mem_order] using h)]
    rfl
  · rw [if_neg h, roots, List.filter_cons_of_neg (by simpa [mem_order] using h)]
    rfl

/-- **The loop of `print_pstree`.** -/
theorem printLoop_eq (h : Built (order procs) s) {a : ℕ} (ha : a ≤ procs.length)
    {out : List (Fin procs.length × ℕ)}
    (hwalk : Walk (kids procs) 0 (roots procs (downFrom a ha)) out) :
    ∃ d, ∀ depth ≥ d, ∀ k, printLoop env s depth (a + 1) (prev a) k = renderAll env k out := by
  induction a generalizing out with
  | zero =>
      cases hwalk
      exact ⟨0, fun _ _ _ => rfl⟩
  | succ a ih =>
      obtain ⟨parent, hget, hparent⟩ := h.get ⟨a, ha⟩
      have hloop (depth k : ℕ) : printLoop env s depth (a + 1 + 1) (prev (a + 1)) k = (do
          let block ← if parent = none then printRecursive env s depth 0 a k else .ok []
          let rest ← printLoop env s depth (a + 1) (prev a) (k + block.length)
          return block ++ rest) := by
        simp only at hget
        rw [prev, printLoop, hget, Outcome.bind_ok]
      have hroot : parent = none ↔ ∀ q, ¬IsKid q ⟨a, ha⟩ := by
        rw [hparent, not_and, not_exists]
        exact ⟨fun h => h (mem_order _), fun h _ => h⟩
      rw [downFrom, roots_cons] at hwalk
      by_cases hc : ∀ q, ¬IsKid q ⟨a, ha⟩
      · rw [if_pos hc] at hwalk
        cases hwalk with
        | @cons _ _ _ below rest hbelow hrest =>
            obtain ⟨d, hd⟩ : ∃ d, ∀ fuel ≥ d, ∀ k,
                eachChild (printRecursive env s fuel 1) (cells (kids procs ⟨a, ha⟩)) k =
                  renderAll env k below := eachChild_eq h hbelow
            obtain ⟨d', hd'⟩ := ih (Nat.le_of_succ_le ha) hrest
            refine ⟨max (d + 1) d', fun depth hdepth k => ?_⟩
            obtain ⟨depth, rfl⟩ : ∃ n, depth = n + 1 := ⟨depth - 1, by omega⟩
            have hnode := printRecursive_eq h (hd depth (by omega)) k
            simp only at hnode
            rw [hloop, if_pos (hroot.2 hc), hnode, ← List.cons_append, renderAll_append]
            simp only [hd' (depth + 1) (by omega)]
      · rw [if_neg hc] at hwalk
        obtain ⟨d, hd⟩ := ih (Nat.le_of_succ_le ha) hwalk
        refine ⟨d, fun depth hdepth k => ?_⟩
        rw [hloop, if_neg fun hnone => hc (hroot.1 hnone), Outcome.bind_ok]
        simp only [List.length_nil, Nat.add_zero, List.nil_append, hd depth hdepth]
        cases renderAll env k out <;> rfl

end

/-! ### The forest -/

section

variable {procs : List Process}

theorem mem_kids {q c : Fin procs.length} : c ∈ kids procs q ↔ IsKid q c := by
  simp [kids, kidsIn, mem_order]

theorem child_of_mem_kids {q c : Fin procs.length} (h : c ∈ kids procs q) :
    Child procs (procs.get q) (procs.get c) :=
  ⟨List.get_mem procs q, List.get_mem procs c, mem_kids.1 h⟩

/-- A process without a parent in the list is a root. -/
theorem isRoot_iff {c : Fin procs.length} :
    c ∈ roots procs (order procs) ↔ ∀ q, ¬Child procs q (procs.get c) := by
  rw [mem_roots, and_iff_right (mem_order c)]
  constructor
  · rintro h q ⟨hq, -, hpid⟩
    obtain ⟨i, rfl⟩ := List.mem_iff_get.1 hq
    exact h i hpid
  · exact fun h q hkid => h (procs.get q) (child_of_mem_kids (mem_kids.2 hkid))

/-- The nodes of the list have the processes that have been inserted. -/
theorem map_order_perm : ((order procs).map procs.get).Perm procs := by
  have hperm : (order procs).Perm (List.finRange procs.length) :=
    (List.perm_ext_iff_of_nodup (nodup_downFrom le_rfl) (List.nodup_finRange _)).2 fun c =>
      iff_of_true (mem_order c) (List.mem_finRange c)
  have hmap := hperm.map procs.get
  rwa [← List.ofFn_eq_map, List.ofFn_get] at hmap

theorem length_kids (q : Fin procs.length) :
    (kids procs q).length = (procs.filter fun p => p.ppid = (procs.get q).pid).length := by
  have hmap : (kids procs q).map procs.get =
      ((order procs).map procs.get).filter fun p => p.ppid = (procs.get q).pid := by
    rw [List.filter_map]
    rfl
  rw [← List.length_map procs.get, hmap, (map_order_perm.filter _).length_eq]

/-- The level of a process is that of its node. -/
theorem depth_iff {c : Fin procs.length} {l : ℕ} :
    Depth procs (procs.get c) l ↔ Level (kids procs) (roots procs (order procs)) c l := by
  constructor
  · intro h
    generalize hp : procs.get c = p at h
    induction h generalizing c with
    | root hmem hroot => exact .root (isRoot_iff.2 (hp ▸ hroot))
    | child hq hchild ih =>
        obtain ⟨i, hi⟩ := List.mem_iff_get.1 hchild.1
        refine .kid (ih hi) (mem_kids.2 ?_)
        rw [IsKid, hi, hp]
        exact hchild.2.2
  · intro h
    induction h with
    | root hroot => exact .root (List.get_mem procs _) (isRoot_iff.1 hroot)
    | kid _ hkid ih => exact .child ih (child_of_mem_kids hkid)

theorem mem_of_depth {p : Process} {l : ℕ} (h : Depth procs p l) : p ∈ procs := by
  cases h with
  | root hmem _ => exact hmem
  | child _ hchild => exact hchild.2.1

namespace IsForest

theorem eq_of_pid (h : IsForest procs) {q q' : Fin procs.length}
    (hpid : (procs.get q).pid = (procs.get q').pid) : q = q' := by
  have hinj := List.nodup_iff_injective_get.1 h.distinct
  have hlen : (procs.map Process.pid).length = procs.length := List.length_map ..
  have heq : (⟨q.val, by omega⟩ : Fin (procs.map Process.pid).length) = ⟨q'.val, by omega⟩ := by
    refine hinj ?_
    simpa using hpid
  exact Fin.ext (Fin.mk.inj heq)

theorem parent_unique (h : IsForest procs) (q q' c : Fin procs.length) (hq : c ∈ kids procs q)
    (hq' : c ∈ kids procs q') : q = q' :=
  h.eq_of_pid ((mem_kids.1 hq).symm.trans (mem_kids.1 hq'))

theorem acyclic_kids (h : IsForest procs) (a : Fin procs.length) :
    ¬Relation.TransGen (fun a c => c ∈ kids procs a) a a := fun hcycle =>
  h.acyclic (procs.get a) (hcycle.lift procs.get fun _ _ hkid => child_of_mem_kids hkid)

/-- Every process is at a root or below it. -/
theorem exists_root (h : IsForest procs) (c : Fin procs.length) :
    ∃ a ∈ roots procs (order procs), Reach (kids procs) a c := by
  induction c using (wellFounded_of_acyclic h.acyclic_kids).induction with
  | _ c ih =>
      by_cases hroot : c ∈ roots procs (order procs)
      · exact ⟨c, hroot, .refl⟩
      · rw [mem_roots, and_iff_right (mem_order c), not_forall] at hroot
        obtain ⟨q, hq⟩ := hroot
        have hkid : c ∈ kids procs q := mem_kids.2 (not_not.1 hq)
        obtain ⟨a, ha, hreach⟩ := ih q hkid
        exact ⟨a, ha, hreach.tail hkid⟩

theorem exists_walk (h : IsForest procs) :
    ∃ out, Walk (kids procs) 0 (roots procs (order procs)) out := by
  refine Preorder.exists_walk (wellFounded_of_acyclic fun a hcycle => ?_) 0 _
  exact h.acyclic_kids a (Relation.transGen_swap.1 hcycle)

variable {out : List (Fin procs.length × ℕ)}

/-- **The walk visits every node once.** -/
theorem perm_of_walk (h : IsForest procs)
    (hwalk : Walk (kids procs) 0 (roots procs (order procs)) out) :
    (out.map fun x => procs.get x.1).Perm procs := by
  have hnodup : (out.map Prod.fst).Nodup := by
    refine hwalk.nodup (fun a => (nodup_downFrom le_rfl).filter _) h.parent_unique h.acyclic_kids
      ((nodup_downFrom le_rfl).filter _) fun a _ b hb hreach => ?_
    rcases Relation.ReflTransGen.cases_tail_iff .. |>.1 hreach with heq | ⟨q, -, hq⟩
    · exact heq.symm
    · exact absurd (mem_kids.1 hq) ((mem_roots.1 hb).2 q)
  have hperm : (out.map Prod.fst).Perm (order procs) :=
    (List.perm_ext_iff_of_nodup hnodup (nodup_downFrom le_rfl)).2 fun c =>
      iff_of_true (hwalk.mem_iff.2 (h.exists_root c)) (mem_order c)
  have hmap := (hperm.map procs.get).trans map_order_perm
  rwa [List.map_map] at hmap

end IsForest

variable {env : ℕ → Call} {out : List (Fin procs.length × ℕ)}

/-- **The program makes the calls of a walk in preorder** from the roots. -/
theorem drawTree_eq (h : IsForest procs) (hnames : ∀ p ∈ procs, p.name.length < bufferSize)
    (hwalk : Walk (kids procs) 0 (roots procs (order procs)) out) :
    ∃ d, ∀ depth ≥ d, drawTree env depth procs = renderAll env 0 out := by
  have hempty : Inserted [] ⟨[], none⟩ := ⟨rfl, rfl⟩
  obtain ⟨s, hs, hinserted⟩ := insertAll_eq hnames hempty
  rw [List.nil_append] at hinserted
  have hself (c : Fin procs.length) : ¬IsKid c c := fun hkid =>
    h.acyclic_kids c (.single (mem_kids.2 hkid))
  have hroom (q : Fin procs.length) : (kids procs q).length < 1024 := by
    rw [length_kids]
    exact Nat.lt_succ_of_le (h.few _ (List.get_mem procs q))
  obtain ⟨s', hs', hbuilt⟩ := built_buildPstree (built_of_inserted hinserted)
    (fun _ _ => h.eq_of_pid) hself hroom
  obtain ⟨d, hd⟩ : ∃ d, ∀ depth ≥ d, ∀ k, printLoop env s' depth (procs.length + 1)
      (prev procs.length) k = renderAll env k out := printLoop_eq hbuilt le_rfl hwalk
  refine ⟨d, fun depth hdepth => ?_⟩
  rw [drawTree, hs, Outcome.bind_ok, hs', Outcome.bind_ok, printPstree, hbuilt.root, hbuilt.length,
    hd depth hdepth]

/-! ### What is printed -/

/-- What should be printed for some visits. -/
def written (out : List (Fin procs.length × ℕ)) : List Printed :=
  out.map fun x => ⟨procs.get x.1, x.2, line x.2 (procs.get x.1)⟩

/-- **The right lines are printed** just when each of the calls can print its line. -/
theorem renderAll_eq_written_iff (k : ℕ) :
    renderAll env k out = .ok (written out) ↔
      (∀ i < out.length, (env (k + i)).Clean) ∧
        ∀ x ∈ out, x.2 ≤ 4 ∧ (line x.2 (procs.get x.1)).length < bufferSize := by
  induction out generalizing k with
  | nil => simp [renderAll, written]
  | cons x out ih =>
      have hcons : renderAll env k (x :: out) = .ok (written (x :: out)) ↔
          renderLine (env k) (procs.get x.1) x.2 = .ok (line x.2 (procs.get x.1)) ∧
            renderAll env (k + 1) out = .ok (written out) := by
        rw [renderAll, written, List.map_cons, ← written, Outcome.bind_eq_ok]
        simp [Outcome.bind_eq_ok]
      have hclean : (∀ i < (x :: out).length, (env (k + i)).Clean) ↔
          (env k).Clean ∧ ∀ i < out.length, (env (k + 1 + i)).Clean := by
        rw [List.length_cons]
        constructor
        · intro h
          refine ⟨h 0 (Nat.succ_pos _), fun i hi => ?_⟩
          rw [Nat.add_assoc, Nat.add_comm 1]
          exact h (i + 1) (Nat.succ_lt_succ hi)
        · rintro ⟨hzero, hsucc⟩ i hi
          cases i with
          | zero => exact hzero
          | succ i =>
              rw [← Nat.add_assoc, Nat.add_right_comm]
              exact hsucc i (Nat.lt_of_succ_lt_succ hi)
      rw [hcons, ih, renderLine_eq_line_iff, hclean, List.forall_mem_cons]
      tauto

/-- What has been printed is right if its texts are. -/
theorem eq_written {k : ℕ} {records : List Printed} (h : renderAll env k out = .ok records)
    (htext : ∀ r ∈ records, r.text = line r.level r.proc) : records = written out := by
  induction out generalizing k records with
  | nil => exact (Outcome.ok.inj h).symm
  | cons x out ih =>
      rw [renderAll, Outcome.bind_eq_ok] at h
      obtain ⟨text, -, h⟩ := h
      obtain ⟨rest, hrest, h⟩ := Outcome.bind_eq_ok.1 h
      obtain rfl := Outcome.ok.inj h
      obtain ⟨hhead, htail⟩ := List.forall_mem_cons.1 htext
      rw [written, List.map_cons, ← written, ih hrest htail]
      simp only at hhead
      rw [hhead]

/-- **What should be printed for the walk** is the tree as it should be printed. -/
theorem drawn_written (h : IsForest procs)
    (hwalk : Walk (kids procs) 0 (roots procs (order procs)) out) : Drawn procs (written out) := by
  have hvisit {p : Process} (hp : p ∈ procs) : ∃ x ∈ out, procs.get x.1 = p :=
    List.mem_map.1 ((h.perm_of_walk hwalk).mem_iff.2 hp)
  refine ⟨?_, ?_, ?_, ?_⟩
  · rw [written, List.map_map]
    exact h.perm_of_walk hwalk
  · intro r hr
    obtain ⟨x, -, rfl⟩ := List.mem_map.1 hr
    rfl
  · intro q p hchild
    obtain ⟨⟨a, k⟩, ha, rfl⟩ := hvisit hchild.1
    obtain ⟨⟨c, l⟩, -, rfl⟩ := hvisit hchild.2.1
    have hkid : c ∈ kids procs a := mem_kids.2 hchild.2.2
    obtain ⟨front, k', mid, back, rfl, hmid⟩ := hwalk.between (List.mem_map_of_mem ha) hkid
    refine ⟨written front, ⟨procs.get a, k', line k' (procs.get a)⟩, written mid,
      ⟨procs.get c, k' + 1, line (k' + 1) (procs.get c)⟩, written back, ?_, rfl, rfl, rfl, ?_⟩
    · simp [written]
    · intro m hm
      obtain ⟨x, hx, rfl⟩ := List.mem_map.1 hm
      exact (hmid x hx).lift procs.get fun _ _ => child_of_mem_kids
  · intro p hp hroot
    obtain ⟨⟨a, k⟩, ha, rfl⟩ := hvisit hp
    exact ⟨_, List.mem_map_of_mem (hwalk.mem_of_mem (isRoot_iff.2 hroot)), rfl, rfl⟩

/-- The condition, for the visits of the walk. -/
theorem fits_iff (h : IsForest procs)
    (hwalk : Walk (kids procs) 0 (roots procs (order procs)) out) :
    Fits env procs ↔ (∀ i < out.length, (env i).Clean) ∧
      ∀ x ∈ out, x.2 ≤ 4 ∧ (line x.2 (procs.get x.1)).length < bufferSize := by
  have hlen : out.length = procs.length :=
    (List.length_map _).symm.trans (h.perm_of_walk hwalk).length_eq
  have hvisit {p : Process} {l : ℕ} (hp : Depth procs p l) : ∃ x ∈ out, x.2 = l ∧
    procs.get x.1 = p := by
    obtain ⟨a, rfl⟩ := List.mem_iff_get.1 (mem_of_depth hp)
    exact ⟨(a, l), hwalk.level_iff.2 (depth_iff.1 hp), rfl, rfl⟩
  rw [hlen]
  constructor
  · rintro ⟨hclean, hshallow, hshort⟩
    refine ⟨hclean, fun x hx => ?_⟩
    have hdepth : Depth procs (procs.get x.1) x.2 := depth_iff.2 (hwalk.level_iff.1 hx)
    exact ⟨hshallow _ _ hdepth, hshort _ _ hdepth⟩
  · rintro ⟨hclean, hall⟩
    refine ⟨hclean, fun p l hp => ?_, fun p l hp => ?_⟩
    · obtain ⟨x, hx, rfl, rfl⟩ := hvisit hp
      exact (hall x hx).1
    · obtain ⟨x, hx, rfl, rfl⟩ := hvisit hp
      exact (hall x hx).2

theorem fits_iff_renderAll (h : IsForest procs)
    (hwalk : Walk (kids procs) 0 (roots procs (order procs)) out) :
    Fits env procs ↔ renderAll env 0 out = .ok (written out) := by
  rw [fits_iff h hwalk, renderAll_eq_written_iff]
  simp only [Nat.zero_add]

/-- A name that does not fit into its array does not fit into a line. -/
theorem name_short (h : IsForest procs) (hfits : Fits env procs) :
    ∀ p ∈ procs, p.name.length < bufferSize := by
  obtain ⟨out, hwalk⟩ := h.exists_walk
  intro p hp
  obtain ⟨x, hx, rfl⟩ := List.mem_map.1 ((h.perm_of_walk hwalk).mem_iff.2 hp)
  have hshort := (((fits_iff h hwalk).1 hfits).2 x hx).2
  refine Nat.lt_of_le_of_lt ?_ hshort
  simp only [line, describe, List.length_append]
  omega

/-- A name that does not fit into its array. -/
theorem not_draws_of_name (hlong : ∃ p ∈ procs, bufferSize ≤ p.name.length) : ¬Draws env procs := by
  rintro ⟨d, hd⟩
  obtain ⟨records, hrecords, -⟩ := hd d le_rfl
  rw [drawTree, insertAll_eq_fault hlong, Outcome.bind_fault] at hrecords
  cases hrecords

theorem fits_of_draws (h : IsForest procs) (hdraws : Draws env procs) : Fits env procs := by
  obtain ⟨out, hwalk⟩ := h.exists_walk
  have hnames : ∀ p ∈ procs, p.name.length < bufferSize := by
    by_contra hlong
    simp only [not_forall, not_lt] at hlong
    obtain ⟨p, hp, hlong⟩ := hlong
    exact not_draws_of_name ⟨p, hp, hlong⟩ hdraws
  obtain ⟨d, hd⟩ : ∃ d, ∀ depth ≥ d, drawTree env depth procs = renderAll env 0 out :=
    drawTree_eq h hnames hwalk
  obtain ⟨d', hd'⟩ := hdraws
  obtain ⟨records, hrecords, hdrawn⟩ := hd' (max d d') (Nat.le_max_right ..)
  rw [hd _ (Nat.le_max_left ..)] at hrecords
  rw [fits_iff_renderAll h hwalk, hrecords, eq_written hrecords hdrawn.text]

theorem draws_of_fits (h : IsForest procs) (hfits : Fits env procs) : Draws env procs := by
  obtain ⟨out, hwalk⟩ := h.exists_walk
  obtain ⟨d, hd⟩ : ∃ d, ∀ depth ≥ d, drawTree env depth procs = renderAll env 0 out :=
    drawTree_eq h (name_short h hfits) hwalk
  refine ⟨d, fun depth hdepth => ⟨written out, ?_, drawn_written h hwalk⟩⟩
  rw [hd depth hdepth, (fits_iff_renderAll h hwalk).1 hfits]

/-- **The tree is printed as it should be exactly when** the memory of each call starts with a null
byte and can be written, no process is deeper than the fourth level, and each line fits into its
buffer. -/
theorem draws_iff_fits (h : IsForest procs) (env : ℕ → Call) : Draws env procs ↔ Fits env procs :=
  ⟨fits_of_draws h, draws_of_fits h⟩

end

/-! ### Chains -/

/-- Memory that is filled with null bytes. -/
def zeroed : Call := ⟨List.replicate 10 nul, rfl, true⟩

/-- `n` processes, each of them the child of the one before. -/
def chain (n : ℕ) : List Process :=
  (List.range n).map fun i : ℕ => ⟨lit "sh", i + 1, i, by decide⟩

theorem mem_chain {n : ℕ} {p : Process} (h : p ∈ chain n) :
    ∃ i < n, p.pid = (i : ℤ) + 1 ∧ p.ppid = i := by
  obtain ⟨i, hi, rfl⟩ := List.mem_map.1 h
  exact ⟨i, List.mem_range.1 hi, rfl, rfl⟩

/-- In a chain the process ids grow from parent to child. -/
theorem acyclic_chain (n : ℕ) (p : Process) : ¬Relation.TransGen (Child (chain n)) p p := by
  have hlt {q r : Process} (h : Relation.TransGen (Child (chain n)) q r) : q.pid < r.pid := by
    induction h with
    | single hchild =>
        obtain ⟨i, -, hpid, hppid⟩ := mem_chain hchild.2.1
        have heq := hchild.2.2
        omega
    | tail _ hchild ih =>
        obtain ⟨i, -, hpid, hppid⟩ := mem_chain hchild.2.1
        have heq := hchild.2.2
        omega
  exact fun hcycle => lt_irrefl _ (hlt hcycle)

/-- In a chain the level of a process is the number of processes before it. -/
theorem pid_of_depth {n : ℕ} {p : Process} {l : ℕ} (h : Depth (chain n) p l) :
    p.pid = (l : ℤ) + 1 := by
  induction h with
  | @root p hp hroot =>
      obtain ⟨i, hi, hpid, hppid⟩ := mem_chain hp
      cases i with
      | zero => simpa using hpid
      | succ i =>
          have hparent : (⟨lit "sh", i + 1, i, by decide⟩ : Process) ∈ chain n :=
            List.mem_map_of_mem (List.mem_range.2 (Nat.lt_of_succ_lt hi))
          refine absurd ⟨hparent, hp, ?_⟩ (hroot _)
          simpa using hppid
  | child _ hchild ih =>
      obtain ⟨i, -, hpid, hppid⟩ := mem_chain hchild.2.1
      have heq := hchild.2.2
      push_cast
      omega

theorem draws_iff_fits_chain : Draws (fun _ => zeroed) (chain 5) := by
  refine (draws_iff_fits ⟨by decide, acyclic_chain 5, by decide⟩ _).2 ⟨fun _ _ => by decide, ?_, ?_⟩
  · intro p l h
    obtain ⟨i, hi, hpid, -⟩ := mem_chain (mem_of_depth h)
    have hlevel := pid_of_depth h
    omega
  · intro p l h
    obtain ⟨i, hi, hpid, -⟩ := mem_chain (mem_of_depth h)
    have hlevel := pid_of_depth h
    have hshort : ∀ p ∈ chain 5, ∀ l < 5, (line l p).length < bufferSize := by decide
    exact hshort p (mem_of_depth h) l (by omega)

/-- **A process with five ancestors**: its indentation does not fit into its memory. -/
theorem not_draws_deep : IsForest (chain 6) ∧ ¬Draws (fun _ => zeroed) (chain 6) := by
  have hforest : IsForest (chain 6) := ⟨by decide, acyclic_chain 6, by decide⟩
  refine ⟨hforest, ?_⟩
  rintro ⟨d, hd⟩
  obtain ⟨records, hrecords, -⟩ := hd (d + 6) (Nat.le_add_right ..)
  have hfault : drawTree (fun _ => zeroed) (d + 6) (chain 6) = .fault := rfl
  rw [hfault] at hrecords
  cases hrecords

end PsTree
