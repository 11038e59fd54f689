/-
**The list of watched directories refines a sequence (`HW12/19_1.c`).**

The two pointers and the items on the heap stand for a sequence of pairs of a watch descriptor and a
path.  On that sequence `watchSubdir` appends a pair and `rmWatchSubdir` deletes the first pair with
the descriptor; this module shows that the pointer program does exactly that, in every mixture of
calls, and that it never follows a pointer that leads nowhere.

Main definitions:

* `WatchList.Repr` — the cells that `list_root` leads through, and where `list_tail` points;
* `WatchList.refStep` — the same calls on a sequence.

Main results:

* `WatchList.Repr.append`, `WatchList.Repr.remove`, `WatchList.Repr.parentPath`,
  `WatchList.Repr.printList` — one call;
* `WatchList.rmLoop_walk` — where the search of `rmWatchSubdir` stops;
* `WatchList.watchList_refines` — **every mixture of calls**.
-/

import NetSysProg.Runs
import NetSysProg.WatchListModel

set_option relaxedAutoImplicit false
set_option autoImplicit false

namespace WatchList

open LinkedChain

/-! ### The sequence a list stands for -/

/-- The pairs of watch descriptors and paths in a list of cells. -/
def items (cells : List (Addr × SubdirItem)) : List (ℤ × Path) :=
  cells.map fun c => (c.2.wd, c.2.pathname)

@[simp] theorem items_nil : items [] = [] := rfl

@[simp] theorem items_cons (c : Addr × SubdirItem) (cells : List (Addr × SubdirItem)) :
    items (c :: cells) = (c.2.wd, c.2.pathname) :: items cells := rfl

@[simp] theorem items_append (cells cells' : List (Addr × SubdirItem)) :
    items (cells ++ cells') = items cells ++ items cells' := List.map_append

@[simp] theorem items_eq_nil {cells : List (Addr × SubdirItem)} : items cells = [] ↔ cells = [] :=
  List.map_eq_nil_iff

/-- The list consists of the cells: `list_root` leads through them to the null pointer, and
`list_tail` points to the last of them. -/
structure Repr (s : State) (cells : List (Addr × SubdirItem)) : Prop where
  chain : Chain SubdirItem.next s.heap s.listRoot cells none
  nodup : (cells.map Prod.fst).Nodup
  tail : s.listTail = cells.getLast?.map Prod.fst

theorem Repr.empty : Repr empty [] := ⟨rfl, List.nodup_nil, rfl⟩

/-- An address that is not in use is not the address of a cell. -/
theorem Repr.fresh {s : State} {cells : List (Addr × SubdirItem)} (h : Repr s cells) {a : Addr}
    (ha : s.heap.lookup a = none) : a ∉ cells.map Prod.fst := by
  intro hmem
  obtain ⟨c, hc, rfl⟩ := List.mem_map.1 hmem
  rw [h.chain.lookup c hc] at ha
  exact absurd ha (by simp)

/-! ### Appending -/

/-- **`watchSubdir` appends.** -/
theorem Repr.append {s : State} {cells : List (Addr × SubdirItem)} (h : Repr s cells) {a : Addr}
    (ha : s.heap.lookup a = none) (wd : ℤ) (path : Path) :
    ∃ s' cells', append a wd path s = .ok s' ∧ Repr s' cells' ∧
      items cells' = items cells ++ [(wd, path)] := by
  have hfresh := h.fresh ha
  have hnew : Chain SubdirItem.next (s.heap.insert a ⟨wd, path, none⟩) (some a)
      [(a, ⟨wd, path, none⟩)] none := ⟨rfl, AList.lookup_insert _, rfl⟩
  rcases List.eq_nil_or_concat cells with rfl | ⟨pre, c, rfl⟩
  · have hroot : s.listRoot = none := h.chain
    refine ⟨⟨s.heap.insert a ⟨wd, path, none⟩, some a, some a⟩, [(a, ⟨wd, path, none⟩)], ?_,
      ⟨hnew, by simp, rfl⟩, rfl⟩
    simp only [WatchList.append, hroot]
  · rw [List.concat_eq_append] at h hfresh ⊢
    have hc := h.chain.lookup c (by simp)
    have hca : c.1 ≠ a := by rintro rfl; exact hfresh (by simp)
    obtain ⟨root, hroot⟩ : ∃ root, s.listRoot = some root := by
      cases pre with
      | nil => exact ⟨_, h.chain.1⟩
      | cons b pre => exact ⟨_, h.chain.1⟩
    have htail : s.listTail = some c.1 := by rw [h.tail]; simp
    have hlookup : (s.heap.insert a ⟨wd, path, none⟩).lookup c.1 = some c.2 := by
      rw [AList.lookup_insert_ne hca, hc]
    have hnodup := h.nodup
    rw [List.map_append, List.map_singleton] at hnodup hfresh
    obtain ⟨-, -, hdisj⟩ := List.nodup_append.1 hnodup
    refine ⟨⟨(s.heap.insert a ⟨wd, path, none⟩).insert c.1 { c.2 with next := some a }, some root,
      some a⟩, pre ++ [(c.1, { c.2 with next := some a }), (a, ⟨wd, path, none⟩)], ?_,
      ⟨?_, ?_, by simp⟩, by simp⟩
    · simp only [WatchList.append, hroot, htail, Outcome.deref_some, Outcome.bind_ok, hlookup,
        Outcome.pure_eq]
    · -- the last cell is redirected to the new one
      have hpre : Chain SubdirItem.next (s.heap.insert a ⟨wd, path, none⟩) (some root) pre
          (some c.1) := by
        have hsplit := h.chain.split.1
        rw [hroot] at hsplit
        exact hsplit.insert _ fun hmem => hfresh (by simp [hmem])
      exact hpre.set _ hnew (fun hmem => hdisj _ hmem _ (by simp) rfl) (by simpa using hca)
    · simp only [List.map_append, List.map_cons, List.map_nil]
      have : pre.map Prod.fst ++ [c.1, a] = (pre.map Prod.fst ++ [c.1]) ++ [a] := by simp
      rw [this, List.nodup_append]
      refine ⟨hnodup, by simp, ?_⟩
      intro x hx y hy
      obtain rfl : y = a := by simpa using hy
      rintro rfl
      exact hfresh hx

/-! ### Removing -/

/-- What `rmWatchSubdir` does once it has found the item `d` behind the item `c`. -/
def unlink (s : State) (c d : Addr × SubdirItem) : State :=
  if some d.1 = s.listTail then
    { s with
      heap := s.heap.insert c.1 { c.2 with next := none }
      listTail := some c.1 }
  else
    { s with heap := (s.heap.erase d.1).insert c.1 { c.2 with next := d.2.next } }

/-- **Where the search stops**: at the item before the first one with the descriptor. -/
theorem rmLoop_walk {wd : ℤ} {s : State} {d : Addr × SubdirItem}
    {mid post : List (Addr × SubdirItem)} {c : Addr × SubdirItem} (fuel : ℕ)
    (hchain : Chain SubdirItem.next s.heap (some c.1) (c :: (mid ++ d :: post)) none)
    (hmid : ∀ x ∈ mid, x.2.wd ≠ wd) (hd : d.2.wd = wd) (hfuel : mid.length < fuel) :
    ∃ pre e, c :: mid = pre ++ [e] ∧ rmLoop wd s fuel (some c.1) = .ok (unlink s e d) := by
  induction mid generalizing c fuel with
  | nil =>
      obtain ⟨fuel, rfl⟩ : ∃ k, fuel = k + 1 := ⟨fuel - 1, by omega⟩
      obtain ⟨-, hc, hnext, hdl, -⟩ := hchain
      refine ⟨[], c, rfl, ?_⟩
      simp only [rmLoop, hc, Outcome.deref_some, Outcome.bind_ok, hnext, hdl, hd, ne_eq,
        not_true_eq_false, if_false, unlink, Outcome.pure_eq]
      split <;> rfl
  | cons x mid ih =>
      obtain ⟨fuel, rfl⟩ : ∃ k, fuel = k + 1 := ⟨fuel - 1, by omega⟩
      obtain ⟨-, hc, hrest⟩ := hchain
      have hnext : c.2.next = some x.1 := hrest.1
      have hx : x.2.wd ≠ wd := hmid x (List.mem_cons_self ..)
      rw [hnext] at hrest
      obtain ⟨pre, e, hsplit, hrun⟩ := ih fuel hrest
        (fun y hy => hmid y (List.mem_cons_of_mem _ hy))
        (by simp only [List.length_cons] at hfuel; omega)
      refine ⟨c :: pre, e, by rw [hsplit, List.cons_append], ?_⟩
      simp only [rmLoop, hc, Outcome.deref_some, Outcome.bind_ok, hnext, hrest.2.1, ne_eq, hx,
        not_false_eq_true, if_true, hrun]

/-- The first item of a list with a descriptor, and what is before and after it. -/
theorem exists_first {cells : List (Addr × SubdirItem)} {wd : ℤ}
    (h : wd ∈ (items cells).map Prod.fst) :
    ∃ pre d post, cells = pre ++ d :: post ∧ (∀ x ∈ pre, x.2.wd ≠ wd) ∧ d.2.wd = wd := by
  induction cells with
  | nil => simp at h
  | cons c cells ih =>
      by_cases hc : c.2.wd = wd
      · exact ⟨[], c, cells, rfl, by simp, hc⟩
      · have h' : wd ∈ (items cells).map Prod.fst := by
          rw [items_cons, List.map_cons, List.mem_cons] at h
          exact h.resolve_left fun he => hc he.symm
        obtain ⟨pre, d, post, rfl, hpre, hd⟩ := ih h'
        refine ⟨c :: pre, d, post, rfl, fun x hx => ?_, hd⟩
        rcases List.mem_cons.1 hx with rfl | hx
        · exact hc
        · exact hpre x hx

/-- Deleting the first pair with a descriptor. -/
theorem items_eraseP {pre post : List (Addr × SubdirItem)} {d : Addr × SubdirItem} {wd : ℤ}
    (hpre : ∀ x ∈ pre, x.2.wd ≠ wd) (hd : d.2.wd = wd) :
    (items (pre ++ d :: post)).eraseP (fun p => p.1 = wd) = items (pre ++ post) := by
  have hpre' : ∀ p ∈ items pre, ¬ (decide (p.1 = wd)) = true := by
    intro p hp
    obtain ⟨x, hx, rfl⟩ := List.mem_map.1 hp
    simpa using hpre x hx
  rw [items_append, items_append, List.eraseP_append_right _ hpre', items_cons,
    List.eraseP_cons_of_pos (by simpa using hd)]

/-- Unlinking an item leaves the list without it. -/
theorem Repr.unlink {s : State} {pre post : List (Addr × SubdirItem)} {c d : Addr × SubdirItem}
    (h : Repr s (pre ++ c :: d :: post)) :
    ∃ n : SubdirItem, n.wd = c.2.wd ∧ n.pathname = c.2.pathname ∧
      Repr (unlink s c d) (pre ++ (c.1, n) :: post) := by
  have hnodup := h.nodup
  simp only [List.map_append, List.map_cons] at hnodup
  obtain ⟨-, hrest, hdisj⟩ := List.nodup_append.1 hnodup
  obtain ⟨hc, hrest'⟩ := List.nodup_cons.1 hrest
  obtain ⟨hd, -⟩ := List.nodup_cons.1 hrest'
  have hcpre : c.1 ∉ pre.map Prod.fst := fun hmem => hdisj _ hmem _ (by simp) rfl
  have hdpre : d.1 ∉ pre.map Prod.fst := fun hmem => hdisj _ hmem _ (by simp) rfl
  have hkeep : (pre.map Prod.fst ++ c.1 :: post.map Prod.fst).Nodup :=
    hnodup.sublist (.append_left (.cons_cons _ (List.sublist_cons_self ..)) _)
  obtain ⟨hpre, -, -, -, hpost⟩ := h.chain.split
  rcases List.eq_nil_or_concat post with rfl | ⟨post', e, rfl⟩
  · -- the last item: `list_tail` moves back
    have htl : some d.1 = s.listTail := by rw [h.tail]; simp
    refine ⟨{ c.2 with next := none }, rfl, rfl, ?_⟩
    rw [WatchList.unlink, if_pos htl]
    exact ⟨hpre.set _ rfl hcpre (by simp), by simpa using hkeep, by simp⟩
  · -- an item in the middle: `list_tail` stays
    rw [List.concat_eq_append] at *
    have hlast : s.listTail = some e.1 := by
      rw [h.tail, show pre ++ c :: d :: (post' ++ [e]) = (pre ++ c :: d :: post') ++ [e] by simp,
        List.getLast?_concat, Option.map_some]
    have htl : ¬ some d.1 = s.listTail := by
      rw [hlast, Option.some.injEq]
      intro heq
      exact hd (by simp [heq])
    refine ⟨{ c.2 with next := d.2.next }, rfl, rfl, ?_⟩
    rw [WatchList.unlink, if_neg htl]
    refine ⟨(hpre.erase hdpre).set _ (hpost.erase hd) hcpre
      fun hmem => hc (List.mem_cons_of_mem _ hmem), ?_, ?_⟩
    · simpa using hkeep
    · rw [show pre ++ (c.1, { c.2 with next := d.2.next }) :: (post' ++ [e]) =
        (pre ++ (c.1, { c.2 with next := d.2.next }) :: post') ++ [e] by simp,
        List.getLast?_concat, Option.map_some]
      exact hlast

/-- **`rmWatchSubdir` deletes the first item with the descriptor.** -/
theorem Repr.remove {s : State} {cells : List (Addr × SubdirItem)} (h : Repr s cells) {wd : ℤ}
    (hwd : wd ∈ (items cells).map Prod.fst) :
    ∃ s' cells', rmWatchSubdir wd s = .ok s' ∧ Repr s' cells' ∧
      items cells' = (items cells).eraseP (fun p => p.1 = wd) := by
  obtain ⟨pre, d, post, rfl, hpre, hd⟩ := exists_first hwd
  rw [items_eraseP hpre hd]
  cases pre with
  | nil =>
      -- the first item
      obtain ⟨hroot, hlookup, hpost⟩ := h.chain
      obtain ⟨hdpost, hnodup⟩ := List.nodup_cons.1 h.nodup
      by_cases hone : s.listRoot = s.listTail
      · have hnil : post = [] := by
          rcases List.eq_nil_or_concat post with hnil | ⟨post', e, rfl⟩
          · exact hnil
          · rw [h.tail, hroot, List.concat_eq_append, List.nil_append, ← List.cons_append,
              List.getLast?_concat, Option.map_some, Option.some.injEq] at hone
            exact absurd (by simp [hone]) hdpost
        subst hnil
        refine ⟨⟨s.heap.erase d.1, none, none⟩, [], ?_, ⟨rfl, by simp, rfl⟩, rfl⟩
        simp only [rmWatchSubdir, hroot, Outcome.deref_some, Outcome.bind_ok, hlookup, hd, if_true,
          ← hone, Outcome.pure_eq]
      · refine ⟨{ s with heap := s.heap.erase d.1, listRoot := d.2.next }, post, ?_,
          ⟨hpost.erase hdpost, hnodup, ?_⟩, rfl⟩
        · simp only [rmWatchSubdir, hroot, Outcome.deref_some, Outcome.bind_ok, hlookup, hd,
            if_true, Outcome.pure_eq]
          rw [hroot] at hone
          rw [if_neg hone]
        · rw [h.tail]
          rcases List.eq_nil_or_concat post with rfl | ⟨post', e, rfl⟩
          · rw [h.tail, hroot] at hone
            exact absurd rfl hone
          · rw [List.concat_eq_append, List.nil_append, ← List.cons_append, List.getLast?_concat,
              List.getLast?_concat]
  | cons c mid =>
      -- a later item: the search runs through the items before it
      have hroot : s.listRoot = some c.1 := h.chain.1
      have hlookup : s.heap.lookup c.1 = some c.2 := h.chain.2.1
      have hcwd : c.2.wd ≠ wd := hpre c (List.mem_cons_self ..)
      have hlen := h.chain.length_le h.nodup
      have hchain := h.chain
      rw [hroot] at hchain
      obtain ⟨pre', e, hsplit, hrun⟩ :=
        rmLoop_walk s.heap.keys.length hchain (fun x hx => hpre x (List.mem_cons_of_mem _ hx)) hd
          (by simp at hlen; omega)
      rw [hsplit, List.append_assoc] at h
      obtain ⟨n, hnwd, hnpath, hrepr⟩ := h.unlink
      refine ⟨WatchList.unlink s e d, pre' ++ (e.1, n) :: post, ?_, hrepr, ?_⟩
      · simp only [rmWatchSubdir, hroot, Outcome.deref_some, Outcome.bind_ok, hlookup, hcwd,
          if_false, hrun]
      · rw [hsplit]
        simp [hnwd, hnpath]

/-! ### Searching -/

/-- The search of `parentPath` finds the first item with the descriptor, or runs off the end. -/
theorem parentLoop_eq {wd : ℤ} {s : State} {cells : List (Addr × SubdirItem)} {p : Option Addr}
    {fuel : ℕ} (hchain : Chain SubdirItem.next s.heap p cells none) (hfuel : cells.length < fuel) :
    parentLoop wd s fuel p = .ok (((items cells).find? fun q => q.1 = wd).map Prod.snd) := by
  induction cells generalizing p fuel with
  | nil =>
      obtain ⟨fuel, rfl⟩ : ∃ k, fuel = k + 1 := ⟨fuel - 1, by omega⟩
      obtain rfl : p = none := hchain
      rfl
  | cons c cells ih =>
      obtain ⟨fuel, rfl⟩ : ∃ k, fuel = k + 1 := ⟨fuel - 1, by omega⟩
      obtain ⟨rfl, hc, hrest⟩ := hchain
      simp only [List.length_cons] at hfuel
      simp only [parentLoop, hc, Outcome.deref_some, Outcome.bind_ok, items_cons, List.find?_cons]
      by_cases hwd : c.2.wd = wd
      · simp [hwd]
      · simp only [hwd, if_false, decide_false]
        exact ih hrest (by omega)

/-- **`parentPath` finds the path of the first item with the descriptor.** -/
theorem Repr.parentPath {s : State} {cells : List (Addr × SubdirItem)} (h : Repr s cells) (wd : ℤ) :
    parentPath wd s = .ok (((items cells).find? fun q => q.1 = wd).map Prod.snd) :=
  parentLoop_eq h.chain (Nat.lt_succ_of_le (h.chain.length_le h.nodup))

theorem printLoop_eq {s : State} {cells : List (Addr × SubdirItem)} {p : Option Addr} {fuel : ℕ}
    (hchain : Chain SubdirItem.next s.heap p cells none) (hfuel : cells.length < fuel) :
    printLoop s fuel p = .ok (items cells) := by
  induction cells generalizing p fuel with
  | nil =>
      obtain ⟨fuel, rfl⟩ : ∃ k, fuel = k + 1 := ⟨fuel - 1, by omega⟩
      obtain rfl : p = none := hchain
      rfl
  | cons c cells ih =>
      obtain ⟨fuel, rfl⟩ : ∃ k, fuel = k + 1 := ⟨fuel - 1, by omega⟩
      obtain ⟨rfl, hc, hrest⟩ := hchain
      simp only [List.length_cons] at hfuel
      have hrun := @ih _ fuel hrest (by omega)
      simp only [printLoop, hc, Outcome.deref_some, Outcome.bind_ok, hrun, Outcome.pure_eq,
        items_cons]

/-- **`print_list` prints the sequence that the list stands for.** -/
theorem Repr.printList {s : State} {cells : List (Addr × SubdirItem)} (h : Repr s cells) :
    printList s = .ok (items cells) :=
  printLoop_eq h.chain (Nat.lt_succ_of_le (h.chain.length_le h.nodup))

/-! ### Runs -/

/-- A call of `watchSubdir`, with the address `malloc` returns in it and the descriptor
`inotify_add_watch` returns, or of `rmWatchSubdir`. -/
inductive Call
  | watchSubdir (newDir : Addr) (wd : ℤ) (path : Path)
  | rmWatchSubdir (wd : ℤ)

/-- A call on the list of the program. -/
def Call.exec (s : State) : Call → Outcome State
  | .watchSubdir newDir wd path => WatchList.append newDir wd path s
  | .rmWatchSubdir wd => WatchList.rmWatchSubdir wd s

/-- The same call on the sequence: appending at the end, and deleting the first pair with the
descriptor. -/
def refStep (l : List (ℤ × Path)) : Call → List (ℤ × Path)
  | .watchSubdir _ wd path => l ++ [(wd, path)]
  | .rmWatchSubdir wd => l.eraseP fun p => p.1 = wd

/-- One call on both. -/
def step (x : State × List (ℤ × Path)) (c : Call) : Option (State × List (ℤ × Path)) :=
  match c.exec x.1 with
  | .ok s => some (s, refStep x.2 c)
  | _ => none

/-- What a call may assume: `malloc` returns memory that is not in use, and the descriptor to be
removed is in the list. -/
def Allowed (x : State × List (ℤ × Path)) : Call → Prop
  | .watchSubdir newDir _ _ => x.1.heap.lookup newDir = none
  | .rmWatchSubdir wd => wd ∈ x.2.map Prod.fst

instance (x : State × List (ℤ × Path)) (c : Call) : Decidable (Allowed x c) :=
  match c with
  | .watchSubdir newDir _ _ => inferInstanceAs (Decidable (x.1.heap.lookup newDir = none))
  | .rmWatchSubdir wd => inferInstanceAs (Decidable (wd ∈ x.2.map Prod.fst))

/-- A call on a list that stands for a sequence returns a list that stands for the next one. -/
theorem Repr.exec {s : State} {cells : List (Addr × SubdirItem)} (h : Repr s cells) {c : Call}
    (hc : Allowed (s, items cells) c) :
    ∃ s' cells', c.exec s = .ok s' ∧ Repr s' cells' ∧ items cells' = refStep (items cells) c := by
  cases c with
  | watchSubdir newDir wd path => exact h.append hc wd path
  | rmWatchSubdir wd => exact h.remove hc

/-- In every state that calls lead to, the list stands for the sequence. -/
theorem Repr.of_reachable {x : State × List (ℤ × Path)}
    (h : Runs.ReachableVia step Allowed (WatchList.empty, []) x) :
    ∃ cells, Repr x.1 cells ∧ items cells = x.2 := by
  let I : State × List (ℤ × Path) → Prop := fun x => ∃ cells, Repr x.1 cells ∧ items cells = x.2
  have hstep : ∀ x c x', I x → Allowed x c → step x c = some x' → I x' := by
    rintro ⟨s, l⟩ c x' ⟨cells, hrepr, rfl⟩ hc hx
    obtain ⟨s', cells', hrun, hrepr', hitems⟩ := hrepr.exec hc
    simp only [step, hrun, Option.some.injEq] at hx
    subst hx
    exact ⟨cells', hrepr', hitems⟩
  exact h.invariant hstep ⟨[], Repr.empty, rfl⟩

/-- **The list refines the sequence.**  After every finite mixture of calls, the items that
`list_root` leads to are those of the sequence in order; `list_root` is null exactly when the
sequence is empty, and then `list_tail` is null as well; otherwise `list_tail` points to the last of
them, whose `next` is null; and the next call returns. -/
theorem watchList_refines {s : State} {l : List (ℤ × Path)}
    (h : Runs.ReachableVia step Allowed (empty, []) (s, l)) :
    (∃ cells, Chain SubdirItem.next s.heap s.listRoot cells none ∧ items cells = l ∧
      ∀ c, cells.getLast? = some c → s.listTail = some c.1 ∧ c.2.next = none) ∧
    (s.listRoot = none ↔ l = []) ∧ (l = [] → s.listTail = none) ∧
    ∀ c, Allowed (s, l) c → ∃ s', c.exec s = .ok s' := by
  obtain ⟨cells, hrepr, rfl⟩ := Repr.of_reachable h
  refine ⟨⟨cells, hrepr.chain, rfl, fun c hc => ?_⟩, ?_, fun hnil => ?_, fun c hc => ?_⟩
  · obtain ⟨pre, rfl⟩ := List.getLast?_eq_some_iff.1 hc
    exact ⟨by rw [hrepr.tail, hc, Option.map_some], hrepr.chain.split.2.2⟩
  · rw [items_eq_nil]
    cases cells with
    | nil => exact ⟨fun _ => rfl, fun _ => hrepr.chain⟩
    | cons c cells =>
        have hroot : s.listRoot = some c.1 := hrepr.chain.1
        simp [hroot]
  · obtain rfl := items_eq_nil.1 hnil
    exact hrepr.tail
  · obtain ⟨s', -, hrun, -⟩ := hrepr.exec hc
    exact ⟨s', hrun⟩

/-- Two directories are added, the first one is removed, and a third one is put where the first one
was. -/
def reuse : List Call :=
  [.watchSubdir 0 1 ['a'], .watchSubdir 1 2 ['b'], .rmWatchSubdir 1, .watchSubdir 0 3 ['c']]

theorem watchList_refines_reuse :
    ∃ s, Runs.ReachableVia step Allowed (empty, []) (s, [(2, ['b']), (3, ['c'])]) ∧
      s.listRoot ≠ none ∧
      ∃ cells, Chain SubdirItem.next s.heap s.listRoot cells none ∧
        items cells = [(2, ['b']), (3, ['c'])] := by
  have hend : (Runs.run (fun x c => if Allowed x c then step x c else none) (empty, []) reuse).map
      Prod.snd = some [(2, ['b']), (3, ['c'])] := by decide
  obtain ⟨⟨s, l⟩, hrun, rfl⟩ := Option.map_eq_some_iff.1 hend
  have hreach := Runs.ReachableVia.of_run hrun
  obtain ⟨⟨cells, hchain, hitems, -⟩, hroot, -⟩ := watchList_refines hreach
  exact ⟨s, hreach, fun hnull => absurd (hroot.1 hnull) (by simp), cells, hchain, hitems⟩

end WatchList
