/-
**The tree that `build_pstree` builds (`HW4/12_2.c`).**

The list has the processes in reverse order of insertion.  While `build_pstree` goes through it, the
array of each node holds the children among the nodes that have been passed, in the order in which
they were passed, and a null pointer behind them; a node that has been passed has its parent, if
that is in the list.

Main definitions:

* `PsTree.downFrom` — the nodes in the order of the list;
* `PsTree.kidsIn` — the children of a node among some nodes;
* `PsTree.Built` — the invariant of the loop.

Main results:

* `PsTree.insertAll_eq` — the list after the insertions;
* `PsTree.findNode_spec` — what `find_node` finds;
* `PsTree.built_buildNode` — the body of the loop keeps the invariant;
* `PsTree.built_buildPstree` — **the tree has each process at its parent, once**.
-/

import NetSysProg.PsTreeModel
import Mathlib.Data.List.Nodup

set_option relaxedAutoImplicit false
set_option autoImplicit false

namespace PsTree

open CString

/-! ### The list -/

/-- What `next` of the node with the number points to. -/
def prev : ℕ → Option Addr
  | 0 => none
  | a + 1 => some a

/-- The processes of a list have been inserted. -/
structure Inserted (procs : List Process) (s : State) : Prop where
  root : s.listRoot = prev procs.length
  nodes : s.nodes = procs.mapIdx fun i p => ⟨p, none, [none], prev i⟩

/-- **Inserting** works as long as the names fit into their array. -/
theorem insertAll_eq {ps : List Process} (hnames : ∀ p ∈ ps, p.name.length < bufferSize)
    {procs : List Process} {s : State} (h : Inserted procs s) :
    ∃ s', insertAll ps s = .ok s' ∧ Inserted (procs ++ ps) s' := by
  induction ps generalizing procs s with
  | nil => exact ⟨s, rfl, by rwa [List.append_nil]⟩
  | cons p ps ih =>
      have hlen : s.nodes.length = procs.length := by rw [h.nodes, List.length_mapIdx]
      have hstep : Inserted (procs ++ [p])
          ⟨s.nodes ++ [⟨p, none, [none], s.listRoot⟩], some s.nodes.length⟩ := by
        refine ⟨?_, ?_⟩
        · rw [hlen, List.length_append, List.length_singleton, prev]
        · rw [h.nodes, h.root, List.mapIdx_concat]
      obtain ⟨s', hs', hinserted⟩ := ih (fun p' hp' => hnames p' (List.mem_cons_of_mem p hp')) hstep
      refine ⟨s', ?_, by rwa [List.append_assoc, List.singleton_append] at hinserted⟩
      rw [insertAll, insertNode, if_pos (hnames p (List.mem_cons_self ..)), Outcome.bind_ok, hs']

/-- A name that does not fit. -/
theorem insertAll_eq_fault {ps : List Process} (h : ∃ p ∈ ps, bufferSize ≤ p.name.length)
    (s : State) :
    insertAll ps s = .fault := by
  induction ps generalizing s with
  | nil => simp at h
  | cons p ps ih =>
      rw [insertAll, insertNode]
      by_cases hp : p.name.length < bufferSize
      · rw [if_pos hp, Outcome.bind_ok]
        refine ih ?_ _
        obtain ⟨p', hp', hlong⟩ := h
        rcases List.mem_cons.1 hp' with rfl | hp'
        · omega
        · exact ⟨p', hp', hlong⟩
      · rw [if_neg hp, Outcome.bind_fault]

/-- The nodes before the one with the number `a`, in the order of the list. -/
def downFrom {n : ℕ} : (a : ℕ) → a ≤ n → List (Fin n)
  | 0, _ => []
  | a + 1, h => ⟨a, h⟩ :: downFrom a (Nat.le_of_succ_le h)

theorem mem_downFrom {n a : ℕ} (h : a ≤ n) (c : Fin n) : c ∈ downFrom a h ↔ c.val < a := by
  induction a with
  | zero => simp [downFrom]
  | succ a ih =>
      rw [downFrom, List.mem_cons, ih, Fin.ext_iff]
      show c.val = a ∨ c.val < a ↔ c.val < a + 1
      omega

theorem nodup_downFrom {n a : ℕ} (h : a ≤ n) : (downFrom a h).Nodup := by
  induction a with
  | zero => exact List.nodup_nil
  | succ a ih =>
      refine List.nodup_cons.2 ⟨?_, ih _⟩
      rw [mem_downFrom]
      exact Nat.lt_irrefl a

/-! ### The invariant -/

variable {procs : List Process}

/-- The second process is a child of the first. -/
def IsKid (q c : Fin procs.length) : Prop := (procs.get c).ppid = (procs.get q).pid

instance (q c : Fin procs.length) : Decidable (IsKid q c) := inferInstanceAs (Decidable (_ = _))

/-- The children of a process among some processes. -/
def kidsIn (done : List (Fin procs.length)) (q : Fin procs.length) : List (Fin procs.length) :=
  done.filter fun c => IsKid q c

/-- The cells of an array of children. -/
def cells (kids : List (Fin procs.length)) : List (Option Addr) :=
  kids.map (fun c => some c.val) ++ [none]

/-- **The nodes in `done` have been passed.** -/
structure Built (done : List (Fin procs.length)) (s : State) : Prop where
  root : s.listRoot = prev procs.length
  length : s.nodes.length = procs.length
  node : ∀ c : Fin procs.length, ∃ parent,
    s.nodes[c.val]? = some ⟨procs.get c, parent, cells (kidsIn done c), prev c⟩ ∧
      (parent = none ↔ ¬(c ∈ done ∧ ∃ q, IsKid q c))

theorem built_of_inserted {s : State} (h : Inserted procs s) :
    Built ([] : List (Fin procs.length)) s := by
  refine ⟨h.root, by rw [h.nodes, List.length_mapIdx], fun c => ⟨none, ?_, by simp⟩⟩
  rw [h.nodes, List.getElem?_mapIdx, List.getElem?_eq_getElem c.isLt]
  rfl

theorem Built.get {done : List (Fin procs.length)} {s : State} (h : Built done s)
    (c : Fin procs.length) : ∃ parent,
      s.get c = .ok ⟨procs.get c, parent, cells (kidsIn done c), prev c⟩ ∧
        (parent = none ↔ ¬(c ∈ done ∧ ∃ q, IsKid q c)) := by
  obtain ⟨parent, hnode, hparent⟩ := h.node c
  exact ⟨parent, by rw [State.get, hnode, Outcome.deref_some], hparent⟩

/-- **`find_node`** finds a process with the id if there is one. -/
theorem findNode_spec {done : List (Fin procs.length)} {s : State} (h : Built done s) (pid : ℤ) :
    (∃ q : Fin procs.length, (procs.get q).pid = pid ∧ findNode s pid = .ok (some q.val)) ∨
      ((∀ q : Fin procs.length, (procs.get q).pid ≠ pid) ∧ findNode s pid = .ok none) := by
  have hloop (a : ℕ) (ha : a ≤ procs.length) :
      (∃ q : Fin procs.length, (procs.get q).pid = pid ∧
        findLoop s pid (a + 1) (prev a) = .ok (some q.val)) ∨
      ((∀ q ∈ downFrom a ha, (procs.get q).pid ≠ pid) ∧
        findLoop s pid (a + 1) (prev a) = .ok none) := by
    induction a with
    | zero => exact .inr ⟨by simp [downFrom], rfl⟩
    | succ a ih =>
        obtain ⟨parent, hget, -⟩ := h.get ⟨a, ha⟩
        have hfind : findLoop s pid (a + 1 + 1) (prev (a + 1)) =
            if (procs.get ⟨a, ha⟩).pid = pid then .ok (some a)
            else findLoop s pid (a + 1) (prev a) := by
          simp only at hget
          rw [prev, findLoop, hget, Outcome.bind_ok]
          rfl
        rw [hfind]
        by_cases hpid : (procs.get ⟨a, ha⟩).pid = pid
        · exact .inl ⟨⟨a, ha⟩, hpid, if_pos hpid⟩
        · rw [if_neg hpid]
          refine (ih (Nat.le_of_succ_le ha)).imp_right ?_
          rintro ⟨hall, hnone⟩
          exact ⟨List.forall_mem_cons.2 ⟨hpid, hall⟩, hnone⟩
  have hall := hloop procs.length le_rfl
  rw [findNode, h.root, h.length]
  refine hall.imp_right ?_
  rintro ⟨hno, hnone⟩
  exact ⟨fun q => hno q ((mem_downFrom le_rfl q).2 q.isLt), hnone⟩

/-! ### The loop -/

theorem childIndex_cells (kids : List (Fin procs.length)) :
    childIndex (cells kids) = .ok kids.length := by
  induction kids with
  | nil => rfl
  | cons c kids ih =>
      have hcons : cells (c :: kids) = some c.val :: cells kids := rfl
      rw [hcons, childIndex, ih, Outcome.bind_ok, List.length_cons, Outcome.pure_eq]

/-- The child is stored over the null pointer. -/
theorem storeCell_cells {kids : List (Fin procs.length)} (h : kids.length < 1024)
    (c : Fin procs.length) : storeCell (cells kids) kids.length (some c.val) =
      .ok (kids.map (fun c => some c.val) ++ [some c.val]) := by
  have hlen : (kids.map fun c => some c.val).length = kids.length := List.length_map ..
  rw [storeCell, if_pos h, cells, List.take_left' hlen, List.drop_eq_nil_of_le (by simp)]

/-- **A child is appended**, if there is room for it and for the null pointer. -/
theorem addChild_cells {kids : List (Fin procs.length)} (h : kids.length + 1 < 1024)
    (c : Fin procs.length) : addChild c (cells kids) = .ok (cells (kids ++ [c])) := by
  have hstore := storeCell_cells (Nat.lt_of_succ_lt h) c
  have hnull : storeCell (kids.map (fun c => some c.val) ++ [some c.val]) (kids.length + 1) none =
      .ok (cells (kids ++ [c])) := by
    rw [storeCell, if_pos h, List.take_of_length_le (by simp), List.drop_eq_nil_of_le (by simp),
      cells, List.map_append, List.map_singleton]
  rw [addChild, childIndex_cells, Outcome.bind_ok, hstore, Outcome.bind_ok, hnull]

theorem kidsIn_append (done : List (Fin procs.length)) (c q : Fin procs.length) :
    kidsIn (done ++ [c]) q = if IsKid q c then kidsIn done q ++ [c] else kidsIn done q := by
  rw [kidsIn, List.filter_append, kidsIn]
  by_cases h : IsKid q c
  · simp [h]
  · simp [h]

/-- A process without a parent in the list. -/
theorem built_orphan {done : List (Fin procs.length)} {s : State} (h : Built done s)
    {c : Fin procs.length} (hc : ∀ q, ¬IsKid q c) : Built (done ++ [c]) s := by
  refine ⟨h.root, h.length, fun d => ?_⟩
  obtain ⟨parent, hnode, hparent⟩ := h.node d
  refine ⟨parent, ?_, ?_⟩
  · rw [kidsIn_append, if_neg (hc d)]
    exact hnode
  · rw [hparent, List.mem_append, List.mem_singleton, or_and_right]
    refine not_congr ⟨.inl, fun hor => hor.resolve_right ?_⟩
    rintro ⟨rfl, q, hq⟩
    exact hc q hq

theorem get_set_of_ne {s : State} {a b : Addr} (h : a ≠ b) (n : ProcNode) :
    (s.set a n).nodes[b]? = s.nodes[b]? := List.getElem?_set_ne h

theorem get_set_self {s : State} {a : Addr} (h : a < s.nodes.length) (n : ProcNode) :
    (s.set a n).nodes[a]? = some n := List.getElem?_set_self h

theorem length_set (s : State) (a : Addr) (n : ProcNode) :
    (s.set a n).nodes.length = s.nodes.length := List.length_set ..

/-- **The body of the loop.** -/
theorem built_buildNode {done : List (Fin procs.length)} {s : State} (h : Built done s)
    {c : Fin procs.length}
    (hpid : ∀ q q' : Fin procs.length, (procs.get q).pid = (procs.get q').pid → q = q')
    (hself : ¬IsKid c c) (hroom : ∀ q, (kidsIn (done ++ [c]) q).length < 1024) :
    ∃ s', buildNode c s = .ok s' ∧ Built (done ++ [c]) s' := by
  obtain ⟨parent, hget, -⟩ := h.get c
  rcases findNode_spec h (procs.get c).ppid with ⟨q, hq, hfind⟩ | ⟨hno, hfind⟩
  · have hkid : IsKid q c := hq.symm
    have hne : c ≠ q := by
      rintro rfl
      exact hself hkid
    have hval : c.val ≠ q.val := fun heq => hne (Fin.ext heq)
    have hlen := h.length
    have hcell := hroom q
    rw [kidsIn_append, if_pos hkid, List.length_append, List.length_singleton] at hcell
    obtain ⟨parent', hnode', hparent'⟩ := h.node q
    have hget' (n : ProcNode) : (s.set c.val n).get q.val =
        .ok ⟨procs.get q, parent', cells (kidsIn done q), prev q⟩ := by
      rw [State.get, get_set_of_ne hval, hnode', Outcome.deref_some]
    have hstep : buildNode c.val s = .ok ((s.set c.val
        ⟨procs.get c, some q.val, cells (kidsIn done c), prev c⟩).set q.val
        ⟨procs.get q, parent', cells (kidsIn done q ++ [c]), prev q⟩) := by
      rw [buildNode, hget, Outcome.bind_ok, hfind, Outcome.bind_ok]
      simp only [hget', Outcome.bind_ok, addChild_cells hcell, Outcome.pure_eq]
    refine ⟨_, hstep, h.root, by rw [length_set, length_set, hlen], fun d => ?_⟩
    by_cases hdq : d = q
    · subst hdq
      refine ⟨parent', ?_, ?_⟩
      · rw [get_set_self (by rw [length_set, hlen]; exact d.isLt), kidsIn_append, if_pos hkid]
      · rw [hparent', List.mem_append, List.mem_singleton, or_iff_left (Ne.symm hne)]
    · have hdq' : q.val ≠ d.val := fun heq => hdq (Fin.ext heq.symm)
      have hnotKid : ¬IsKid d c := fun hdc => hdq (hpid d q (hdc.symm.trans hkid))
      rw [get_set_of_ne hdq', kidsIn_append, if_neg hnotKid]
      by_cases hdc : d = c
      · subst hdc
        refine ⟨some q.val, get_set_self (by rw [hlen]; exact d.isLt) _, ?_⟩
        simp only [reduceCtorEq, false_iff, not_not]
        exact ⟨List.mem_append_right _ (List.mem_singleton_self d), q, hkid⟩
      · obtain ⟨parent'', hnode'', hparent''⟩ := h.node d
        refine ⟨parent'', ?_, ?_⟩
        · rw [get_set_of_ne fun heq => hdc (Fin.ext heq.symm), hnode'']
        · rw [hparent'', List.mem_append, List.mem_singleton, or_iff_left hdc]
  · refine ⟨s, ?_, built_orphan h fun q hkid => hno q hkid.symm⟩
    rw [buildNode, hget, Outcome.bind_ok, hfind, Outcome.bind_ok]
    rfl

/-- The nodes in the order of the list. -/
def order (procs : List Process) : List (Fin procs.length) := downFrom procs.length le_rfl

/-- The children of a process. -/
def kids (procs : List Process) (q : Fin procs.length) : List (Fin procs.length) :=
  kidsIn (order procs) q

/-- **`build_pstree`** puts each process that has a parent in the list into the parent's array,
once. -/
theorem built_buildPstree {s : State} (h : Built ([] : List (Fin procs.length)) s)
    (hpid : ∀ q q' : Fin procs.length, (procs.get q).pid = (procs.get q').pid → q = q')
    (hself : ∀ c : Fin procs.length, ¬IsKid c c)
    (hroom : ∀ q, (kids procs q).length < 1024) :
    ∃ s', buildPstree s = .ok s' ∧ Built (order procs) s' := by
  have hloop (a : ℕ) (ha : a ≤ procs.length) {done : List (Fin procs.length)} {s : State}
      (h : Built done s) (hsplit : done ++ downFrom a ha = order procs) :
      ∃ s', buildLoop (a + 1) (prev a) s = .ok s' ∧ Built (order procs) s' := by
    induction a generalizing done s with
    | zero =>
        rw [downFrom, List.append_nil] at hsplit
        exact ⟨s, rfl, hsplit ▸ h⟩
    | succ a ih =>
        have hsplit' : (done ++ [⟨a, ha⟩]) ++ downFrom a (Nat.le_of_succ_le ha) = order procs := by
          rw [← hsplit, downFrom, List.append_assoc, List.singleton_append]
        have hcells (q : Fin procs.length) : (kidsIn (done ++ [⟨a, ha⟩]) q).length < 1024 := by
          refine Nat.lt_of_le_of_lt ?_ (hroom q)
          rw [kids, ← hsplit']
          exact ((List.sublist_append_left _ _).filter _).length_le
        obtain ⟨s₁, hs₁, hbuilt⟩ := built_buildNode h hpid (hself ⟨a, ha⟩) hcells
        obtain ⟨parent, hget, -⟩ := hbuilt.get ⟨a, ha⟩
        obtain ⟨s', hs', hdone⟩ := ih (Nat.le_of_succ_le ha) hbuilt hsplit'
        refine ⟨s', ?_, hdone⟩
        simp only at hs₁ hget
        rw [prev, buildLoop, hs₁, Outcome.bind_ok, hget, Outcome.bind_ok, hs']
  rw [buildPstree, h.root, h.length]
  exact hloop procs.length le_rfl h (List.nil_append _)

end PsTree
