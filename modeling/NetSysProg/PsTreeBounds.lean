/-
**The arrays of the process tree (`HW4/12_2.c`).**

`build_pstree` stores each child, and a null pointer behind it, in an array of 1024 cells;
`print_pstree_recursive` puts two spaces for each level behind the string in ten bytes that are not
initialised.  Neither looks whether there is room.  The null pointer behind the last of 1024
children is the first store outside an array of children; the indentation leaves its ten bytes at
the fifth level, or earlier if the string that happens to be in them is not empty.

Main definitions:

* `PsTree.IsFamily` — distinct process ids, no cycle, and names that `main` can have read;
* `PsTree.InBounds` — no store of the program is outside its array;
* `PsTree.Call.Room` — the indentation and its null byte fit into the bytes of a call;
* `PsTree.Bounded` — the condition.

Main results:

* `PsTree.buildPstree_eq_fault` — a process with 1024 children;
* `PsTree.inBounds_iff_bounded` — **the stores are in bounds exactly under the condition**;
* `PsTree.bounded_zeroed_iff` — what it says of memory that is filled with null bytes;
* `PsTree.not_inBounds_deep_wide` — a process with five ancestors, and one with 1024 children.
-/

import NetSysProg.PsTree

set_option relaxedAutoImplicit false
set_option autoImplicit false

namespace PsTree

open CString Preorder

/-! ### The condition -/

/-- The processes have distinct ids and there is no cycle; the names fit into the array of
`main`. -/
structure IsFamily (procs : List Process) : Prop where
  distinct : (procs.map Process.pid).Nodup
  acyclic : ∀ p, ¬Relation.TransGen (Child procs) p p
  names : ∀ p ∈ procs, p.name.length < bufferSize

/-- A function has stored nothing outside its arrays: it returns, or it exits. -/
def Kept {α : Type} (x : Outcome α) : Prop := x ≠ .fault ∧ x ≠ .timeout

/-- **The program stores inside its arrays**, once the recursion may be deep enough. -/
def InBounds (env : ℕ → Call) (procs : List Process) : Prop :=
  ∃ d, ∀ depth ≥ d, Kept (drawTree env depth procs)

/-- The string in the memory of a call, `2 * level` spaces and a null byte fit into the ten
bytes. -/
def Call.Room (c : Call) (level : ℕ) : Prop :=
  ∃ g t, nul ∉ g ∧ c.space = g ++ nul :: t ∧ g.length + 2 * level < 10

/-- **The condition**: no process has 1024 children, and each call that is reached, that is each
before the first `write` that fails, gets memory with room for the level of its process. -/
structure Bounded (env : ℕ → Call) (procs : List Process) : Prop where
  few : ∀ q ∈ procs, (procs.filter fun p => p.ppid = q.pid).length ≤ 1023
  room : ∀ out, Walk (kids procs) 0 (roots procs (order procs)) out →
    ∀ i (hi : i < out.length), (∀ j < i, (env j).write = true) → (env i).Room (out.get ⟨i, hi⟩).2

/-! ### The children -/

section

variable {procs : List Process}

/-- **The array is full**: there is no cell for the null pointer. -/
theorem addChild_cells_full {kids : List (Fin procs.length)} (h : kids.length = 1023)
    (c : Fin procs.length) : addChild c (cells kids) = .fault := by
  have hstore := storeCell_cells (by omega : kids.length < 1024) c
  have hnull (cells : List (Option Addr)) : storeCell cells (kids.length + 1) none = .fault := by
    rw [storeCell, if_neg (by omega)]
  rw [addChild, childIndex_cells, Outcome.bind_ok, hstore, Outcome.bind_ok, hnull]

/-- The body of the loop, for the last child that its parent has room for without a null pointer. -/
theorem buildNode_eq_fault {done : List (Fin procs.length)} {s : State} (h : Built done s)
    (hpid : ∀ q q' : Fin procs.length, (procs.get q).pid = (procs.get q').pid → q = q')
    {c q : Fin procs.length} (hself : ¬IsKid c c) (hkid : IsKid q c)
    (hfull : (kidsIn done q).length = 1023) : buildNode c s = .fault := by
  obtain ⟨parent, hget, -⟩ := h.get c
  obtain ⟨parent', hnode, -⟩ := h.node q
  have hval : c.val ≠ q.val := by
    intro heq
    obtain rfl := Fin.ext heq
    exact hself hkid
  have hfind : findNode s (procs.get c).ppid = .ok (some q.val) := by
    rcases findNode_spec h (procs.get c).ppid with ⟨q', hq', hfind⟩ | ⟨hno, -⟩
    · rw [hfind, hpid q' q (hq'.trans hkid)]
    · exact absurd hkid.symm (hno q)
  have hget' (n : ProcNode) : (s.set c.val n).get q.val =
      .ok ⟨procs.get q, parent', cells (kidsIn done q), prev q⟩ := by
    rw [State.get, get_set_of_ne hval, hnode, Outcome.deref_some]
  rw [buildNode, hget, Outcome.bind_ok, hfind, Outcome.bind_ok]
  simp only [hget', Outcome.bind_ok, addChild_cells_full hfull, Outcome.bind_fault]

/-- **A process with 1024 children**: the loop stores outside its array when it comes to the last of
them, if no other array has been full before. -/
theorem buildPstree_eq_fault {s : State} (h : Built ([] : List (Fin procs.length)) s)
    (hpid : ∀ q q' : Fin procs.length, (procs.get q).pid = (procs.get q').pid → q = q')
    (hself : ∀ c : Fin procs.length, ¬IsKid c c) (hmany : ∃ q, 1024 ≤ (kids procs q).length) :
    buildPstree s = .fault := by
  have hloop (a : ℕ) (ha : a ≤ procs.length) {done : List (Fin procs.length)} {s : State}
      (h : Built done s) (hsplit : done ++ downFrom a ha = order procs)
      (hroom : ∀ q, (kidsIn done q).length < 1024) : buildLoop (a + 1) (prev a) s = .fault := by
    induction a generalizing done s with
    | zero =>
        rw [downFrom, List.append_nil] at hsplit
        obtain ⟨q, hq⟩ := hmany
        have hlt := hroom q
        rw [hsplit] at hlt
        exact absurd hlt (Nat.not_lt.2 hq)
    | succ a ih =>
        rw [prev, buildLoop]
        by_cases hfull : ∃ q, IsKid q ⟨a, ha⟩ ∧ (kidsIn done q).length = 1023
        · obtain ⟨q, hkid, hfull⟩ := hfull
          have hstep := buildNode_eq_fault h hpid (hself ⟨a, ha⟩) hkid hfull
          simp only at hstep
          rw [hstep, Outcome.bind_fault]
        · have hroom' (q : Fin procs.length) :
              (kidsIn (done ++ [⟨a, ha⟩]) q).length < 1024 := by
            rw [kidsIn_append]
            split
            · next hkid =>
                have hne : (kidsIn done q).length ≠ 1023 := fun heq => hfull ⟨q, hkid, heq⟩
                have hlt := hroom q
                rw [List.length_append, List.length_singleton]
                omega
            · exact hroom q
          have hsplit' : (done ++ [⟨a, ha⟩]) ++ downFrom a (Nat.le_of_succ_le ha) =
            order procs := by
            rw [← hsplit, downFrom, List.append_assoc, List.singleton_append]
          obtain ⟨s₁, hs₁, hbuilt⟩ := built_buildNode h hpid (hself ⟨a, ha⟩) hroom'
          obtain ⟨parent, hget, -⟩ := hbuilt.get ⟨a, ha⟩
          have hrest := ih (Nat.le_of_succ_le ha) hbuilt hsplit' hroom'
          simp only at hs₁ hget
          rw [hs₁, Outcome.bind_ok, hget, Outcome.bind_ok, hrest]
  rw [buildPstree, h.root, h.length]
  exact hloop procs.length le_rfl h (List.nil_append _) fun q => by simp [kidsIn]

end

/-! ### The indentation -/

/-- A call with room for the indentation writes its line, or exits. -/
theorem renderLine_of_room {c : Call} {level : ℕ} (h : c.Room level) (p : Process) :
    ∃ text, renderLine c p level = if c.write then .ok text else .exit 1 "write" := by
  obtain ⟨g, t, hg, hspace, hroom⟩ := h
  have hlen := c.length_space
  rw [hspace, List.length_append, List.length_cons] at hlen
  exact ⟨_, by rw [renderLine_eq hg hspace, if_pos (by omega)]⟩

/-- **A call without room** stores outside its ten bytes. -/
theorem renderLine_of_not_room {c : Call} {level : ℕ} (h : ¬c.Room level) (p : Process) :
    renderLine c p level = .fault := by
  by_cases hnul : nul ∈ c.space
  · obtain ⟨g, t, hspace, hg⟩ := List.eq_append_cons_of_mem hnul
    have hlen := c.length_space
    rw [hspace, List.length_append, List.length_cons] at hlen
    rw [renderLine_eq hg hspace, if_neg]
    intro hroom
    exact h ⟨g, t, hg, hspace, by omega⟩
  · exact renderLine_eq_fault hnul p level

/-- The empty string leaves room for four levels. -/
theorem room_zeroed_iff (level : ℕ) : zeroed.Room level ↔ level ≤ 4 := by
  have hspace : zeroed.space = [] ++ nul :: List.replicate 9 nul := rfl
  constructor
  · rintro ⟨g, t, -, -, hroom⟩
    omega
  · intro hlevel
    refine ⟨[], _, List.not_mem_nil, hspace, ?_⟩
    rw [List.length_nil]
    omega

section

variable {procs : List Process}

/-- **The calls for some visits stay in their memory** when each of them that is reached has
room. -/
theorem kept_renderAll_iff (env : ℕ → Call) (out : List (Fin procs.length × ℕ)) (k : ℕ) :
    Kept (renderAll env k out) ↔
      ∀ i (hi : i < out.length), (∀ j < i, (env (k + j)).write = true) →
        (env (k + i)).Room (out.get ⟨i, hi⟩).2 := by
  induction out generalizing k with
  | nil => simp [renderAll, Kept]
  | cons x out ih =>
      have hsplit : (∀ i (hi : i < (x :: out).length), (∀ j < i, (env (k + j)).write = true) →
            (env (k + i)).Room ((x :: out).get ⟨i, hi⟩).2) ↔
          (env k).Room x.2 ∧ ((env k).write = true → ∀ i (hi : i < out.length),
            (∀ j < i, (env (k + 1 + j)).write = true) →
              (env (k + 1 + i)).Room (out.get ⟨i, hi⟩).2) := by
        constructor
        · intro h
          refine ⟨h 0 (Nat.succ_pos _) fun j hj => absurd hj (Nat.not_lt_zero j), ?_⟩
          intro hwrite i hi hbefore
          rw [Nat.add_assoc, Nat.add_comm 1]
          refine h (i + 1) (Nat.succ_lt_succ hi) fun j hj => ?_
          cases j with
          | zero => exact hwrite
          | succ j =>
              rw [← Nat.add_assoc, Nat.add_right_comm]
              exact hbefore j (Nat.lt_of_succ_lt_succ hj)
        · rintro ⟨hzero, hsucc⟩ i hi hbefore
          cases i with
          | zero => exact hzero
          | succ i =>
              rw [← Nat.add_assoc, Nat.add_right_comm]
              refine hsucc (hbefore 0 (Nat.succ_pos i)) i (Nat.lt_of_succ_lt_succ hi) fun j hj => ?_
              rw [Nat.add_assoc, Nat.add_comm 1]
              exact hbefore (j + 1) (Nat.succ_lt_succ hj)
      rw [hsplit, ← ih, renderAll]
      by_cases hroom : (env k).Room x.2
      · obtain ⟨text, htext⟩ := renderLine_of_room hroom (procs.get x.1)
        rw [htext, and_iff_right hroom]
        cases (env k).write with
        | true => cases renderAll env (k + 1) out <;> simp [Kept]
        | false => simp [Kept]
      · rw [renderLine_of_not_room hroom]
        simp [Kept, hroom]

/-! ### The whole program -/

/-- A family in which no process has 1024 children is a forest. -/
theorem IsFamily.isForest (h : IsFamily procs)
    (hfew : ∀ q ∈ procs, (procs.filter fun p => p.ppid = q.pid).length ≤ 1023) : IsForest procs :=
  ⟨h.distinct, h.acyclic, hfew⟩

theorem IsFamily.eq_of_pid (h : IsFamily procs) (q q' : Fin procs.length)
    (hpid : (procs.get q).pid = (procs.get q').pid) : q = q' := by
  have hinj := List.inj_on_of_nodup_map h.distinct (List.get_mem procs q)
    (List.get_mem procs q') hpid
  exact (List.nodup_iff_injective_get.1 h.distinct.of_map) hinj

theorem IsFamily.not_isKid_self (h : IsFamily procs) (c : Fin procs.length) : ¬IsKid c c :=
  fun hkid => h.acyclic (procs.get c) (.single (child_of_mem_kids (mem_kids.2 hkid)))

/-- A family with a process that has 1024 children. -/
theorem drawTree_eq_fault (h : IsFamily procs)
    (hmany : ∃ q ∈ procs, 1024 ≤ (procs.filter fun p => p.ppid = q.pid).length) (env : ℕ → Call)
    (depth : ℕ) : drawTree env depth procs = .fault := by
  have hempty : Inserted [] ⟨[], none⟩ := ⟨rfl, rfl⟩
  obtain ⟨s, hs, hinserted⟩ := insertAll_eq h.names hempty
  rw [List.nil_append] at hinserted
  have hmany' : ∃ q, 1024 ≤ (kids procs q).length := by
    obtain ⟨p, hp, hlen⟩ := hmany
    obtain ⟨q, rfl⟩ := List.mem_iff_get.1 hp
    exact ⟨q, by rwa [length_kids]⟩
  have hbuild := buildPstree_eq_fault (built_of_inserted hinserted) h.eq_of_pid
    h.not_isKid_self hmany'
  rw [drawTree, hs, Outcome.bind_ok, hbuild, Outcome.bind_fault]

variable {env : ℕ → Call}

theorem bounded_of_inBounds (h : IsFamily procs) (hin : InBounds env procs) :
    Bounded env procs := by
  obtain ⟨d, hd⟩ := hin
  have hfew : ∀ q ∈ procs, (procs.filter fun p => p.ppid = q.pid).length ≤ 1023 := by
    intro q hq
    by_contra hmany
    exact (hd d le_rfl).1 (drawTree_eq_fault h ⟨q, hq, by omega⟩ env d)
  refine ⟨hfew, fun out hwalk => ?_⟩
  obtain ⟨d', hd'⟩ : ∃ d, ∀ depth ≥ d, drawTree env depth procs = renderAll env 0 out :=
    drawTree_eq (h.isForest hfew) h.names hwalk
  have hkept := hd (max d d') (Nat.le_max_left ..)
  rw [hd' _ (Nat.le_max_right ..), kept_renderAll_iff] at hkept
  simpa only [Nat.zero_add] using hkept

theorem inBounds_of_bounded (h : IsFamily procs) (hbounded : Bounded env procs) :
    InBounds env procs := by
  have hforest := h.isForest hbounded.few
  obtain ⟨out, hwalk⟩ := hforest.exists_walk
  obtain ⟨d, hd⟩ : ∃ d, ∀ depth ≥ d, drawTree env depth procs = renderAll env 0 out :=
    drawTree_eq hforest h.names hwalk
  refine ⟨d, fun depth hdepth => ?_⟩
  rw [hd depth hdepth, kept_renderAll_iff]
  simpa only [Nat.zero_add] using hbounded.room out hwalk

/-- **Memory that is filled with null bytes** has room if no process is deeper than the fourth
level. -/
theorem bounded_zeroed_iff (h : IsFamily procs) :
    Bounded (fun _ => zeroed) procs ↔
      (∀ q ∈ procs, (procs.filter fun p => p.ppid = q.pid).length ≤ 1023) ∧
        ∀ p l, Depth procs p l → l ≤ 4 := by
  constructor
  · rintro ⟨hfew, hroom⟩
    refine ⟨hfew, fun p l hp => ?_⟩
    obtain ⟨out, hwalk⟩ := (h.isForest hfew).exists_walk
    obtain ⟨a, rfl⟩ := List.mem_iff_get.1 (mem_of_depth hp)
    obtain ⟨i, hi⟩ := List.mem_iff_get.1 (hwalk.level_iff.2 (depth_iff.1 hp))
    have hlevel := hroom out hwalk i.val i.isLt fun _ _ => rfl
    rw [room_zeroed_iff] at hlevel
    have heq : (out.get ⟨i.val, i.isLt⟩).2 = l := congrArg Prod.snd hi
    rwa [heq] at hlevel
  · rintro ⟨hfew, hshallow⟩
    refine ⟨hfew, fun out hwalk i hi _ => ?_⟩
    rw [room_zeroed_iff]
    exact hshallow _ _ (depth_iff.2 (hwalk.level_iff.1 (List.get_mem out ⟨i, hi⟩)))

/-- **The stores of the program are in bounds exactly when** no process has 1024 children, and each
call that is reached gets memory with room for the indentation of its process. -/
theorem inBounds_iff_bounded (h : IsFamily procs) (env : ℕ → Call) :
    InBounds env procs ↔ Bounded env procs :=
  ⟨bounded_of_inBounds h, inBounds_of_bounded h⟩

end

/-! ### Deep and wide trees -/

theorem length_sh : (lit "sh").length < bufferSize := by decide

theorem nul_notMem_sh : nul ∉ lit "sh" := by decide

theorem name_of_mem_chain {n : ℕ} {p : Process} (h : p ∈ chain n) : p.name.length < bufferSize := by
  obtain ⟨i, -, rfl⟩ := List.mem_map.1 h
  exact length_sh

theorem inBounds_iff_bounded_chain : InBounds (fun _ => zeroed) (chain 5) := by
  have hfamily : IsFamily (chain 5) := ⟨by decide, acyclic_chain 5, fun _ => name_of_mem_chain⟩
  refine (inBounds_iff_bounded hfamily _).2 ((bounded_zeroed_iff hfamily).2 ⟨by decide, ?_⟩)
  intro p l h
  obtain ⟨i, hi, hpid, -⟩ := mem_chain (mem_of_depth h)
  have hlevel := pid_of_depth h
  omega

/-- `init` and `n` processes that it has started. -/
def star (n : ℕ) : List Process :=
  ⟨lit "init", 1, 0, by decide⟩ :: (List.range n).map fun i : ℕ =>
    ⟨lit "sh", i + 2, 1, nul_notMem_sh⟩

theorem isFamily_star (n : ℕ) : IsFamily (star n) := by
  have hmem {p : Process} (hp : p ∈ star n) :
      p.name.length < bufferSize ∧ (p.pid = 1 ∧ p.ppid = 0 ∨ 1 < p.pid ∧ p.ppid = 1) := by
    rcases List.mem_cons.1 hp with rfl | hp
    · exact ⟨by decide, .inl ⟨rfl, rfl⟩⟩
    · obtain ⟨i, -, rfl⟩ := List.mem_map.1 hp
      refine ⟨length_sh, .inr ⟨?_, rfl⟩⟩
      show (1 : ℤ) < i + 2
      omega
  refine ⟨?_, fun p hcycle => ?_, fun p hp => (hmem hp).1⟩
  · rw [star, List.map_cons, List.map_map]
    refine List.nodup_cons.2 ⟨fun hin => ?_, List.nodup_range.map fun i j hij => ?_⟩
    · obtain ⟨i, -, hi⟩ := List.mem_map.1 hin
      have heq : (i : ℤ) + 2 = 1 := hi
      omega
    · have heq : (i : ℤ) + 2 = j + 2 := hij
      omega
  · have hlt {q r : Process} (h : Relation.TransGen (Child (star n)) q r) : q.pid < r.pid := by
      induction h with
      | single hchild =>
          have hq := (hmem hchild.1).2
          have hp := (hmem hchild.2.1).2
          have heq := hchild.2.2
          omega
      | tail _ hchild ih =>
          have hq := (hmem hchild.1).2
          have hp := (hmem hchild.2.1).2
          have heq := hchild.2.2
          omega
    exact lt_irrefl _ (hlt hcycle)

/-- **A process with five ancestors**, even in memory that is filled with null bytes; **and 1024
children of a process**, in any memory. -/
theorem not_inBounds_deep_wide :
    (IsFamily (chain 6) ∧ ¬InBounds (fun _ => zeroed) (chain 6)) ∧
      (IsFamily (star 1024) ∧ ∀ env, ¬InBounds env (star 1024)) := by
  refine ⟨⟨⟨by decide, acyclic_chain 6, fun _ => name_of_mem_chain⟩, ?_⟩,
    isFamily_star 1024, fun env => ?_⟩
  · rintro ⟨d, hd⟩
    have hfault : drawTree (fun _ => zeroed) (d + 6) (chain 6) = .fault := rfl
    exact (hd (d + 6) (Nat.le_add_right ..)).1 hfault
  · rintro ⟨d, hd⟩
    refine (hd d le_rfl).1 (drawTree_eq_fault (isFamily_star 1024) ?_ env d)
    refine ⟨⟨lit "init", 1, 0, by decide⟩, List.mem_cons_self .., ?_⟩
    have hkids : (star 1024).filter (fun p => p.ppid = 1) = (star 1024).tail := by
      rw [star, List.filter_cons_of_neg (by decide), List.tail_cons, List.filter_eq_self]
      intro p hp
      obtain ⟨i, -, rfl⟩ := List.mem_map.1 hp
      rfl
    show 1024 ≤ ((star 1024).filter fun p => p.ppid = 1).length
    rw [hkids, star, List.tail_cons, List.length_map, List.length_range]

end PsTree
