/-
**Removal never runs off the list (`HW12/19_1.c`).**

`rmWatchSubdir` looks neither whether the list is empty nor whether its search has come to the end.
It is called by `displayLogEvent` only, and only when `parentPath` has found an item with the same
descriptor.  So the search succeeds as long as the list is what its two pointers say it is.

A run consists of any calls of `fn`, which `nftw` makes, and then of any events, whatever the kernel
would really report: the kernel that answers a call is part of the call.

Main definitions:

* `Monitor.Run`, `Monitor.Call`, `Monitor.perform` — `main` with arbitrary answers;
* `Monitor.Separate` — an event does not report an end and a creation at once;
* `Monitor.CallsRm` — `displayLogEvent` calls `rmWatchSubdir`.

Main results:

* `Monitor.exists_kernel` — **any answer is possible**;
* `Monitor.callsRm_iff` — what `displayLogEvent` has found out when it calls `rmWatchSubdir`;
* `Monitor.WellLinked.perform` — the list stays well linked, and the program does not crash;
* `Monitor.rmWatchSubdir_removes` — **the search ends by removing an item**.
-/

import NetSysProg.MonitorComplete
import NetSysProg.WatchListRefine

set_option relaxedAutoImplicit false
set_option autoImplicit false

namespace Monitor

open DirTree LinkedChain
open WatchList (Path Addr Repr SubdirItem items)

/-! ### Runs -/

/-- Where `main` is: in `nftw`, in the loop behind it, or at its end. -/
inductive Phase
  | walking
  | handling
  | exited (status : ℤ) (message : String)
  | crashed
  deriving DecidableEq

/-- The list of the program, and where it is. -/
structure Run where
  list : WatchList.State
  phase : Phase

/-- What happens in `main`: `nftw` calls `fn` or returns, `read` fails, or an event is handled.  The
kernel `k`, which knows the monitored tree as `root`, answers `inotify_add_watch`; `newDir` is what
`malloc` returns. -/
inductive Call
  | fn (root : Path) (k : Kernel) (newDir : Option Addr) (path : Path) (isDir : Bool) (flag : Flag)
  | nftwReturns (ok : Bool)
  | readFails
  | event (root : Path) (k : Kernel) (newDir : Option Addr) (ev : Event)

/-- `malloc` returns memory that is not in use. -/
def Unused (newDir : Option Addr) (l : WatchList.State) : Prop :=
  ∀ a ∈ newDir, l.heap.lookup a = none

instance (newDir : Option Addr) (l : WatchList.State) : Decidable (Unused newDir l) :=
  inferInstanceAs (Decidable (∀ a ∈ newDir, l.heap.lookup a = none))

/-- The program after one of its functions. -/
def Run.after (s : Run) (o : Outcome Mem) : Run :=
  match o with
  | .ok m => { s with list := m.2 }
  | .exit status message => { s with phase := .exited status message }
  | .fault => { s with phase := .crashed }
  | .timeout => { s with phase := .crashed }

/-- One call. -/
def perform (s : Run) (c : Call) : Option Run :=
  match s.phase, c with
  | .walking, .fn root k newDir path isDir flag =>
      if Unused newDir s.list then
        some (s.after (fn root newDir path isDir flag (k, s.list))) else none
  | .walking, .nftwReturns ok =>
      some { s with phase := if ok then .handling else .exited 1 "nftw() fail" }
  | .handling, .readFails => some { s with phase := .exited 1 "read() fail" }
  | .handling, .event root k newDir ev =>
      if Unused newDir s.list then
        some (s.after (displayLogEvent root newDir ev (k, s.list))) else none
  | _, _ => none

/-- `IN_IGNORED` is not combined with `IN_CREATE`. -/
def Event.Separate (ev : Event) : Prop := ev.Ignored → ev.mask &&& IN_CREATE = 0

/-- The events of a run are such. -/
def Separate (_ : Run) : Call → Prop
  | .event _ _ _ ev => ev.Separate
  | _ => True

instance (s : Run) (c : Call) : Decidable (Separate s c) :=
  match c with
  | .event _ _ _ ev => inferInstanceAs (Decidable (ev.Ignored → ev.mask &&& IN_CREATE = 0))
  | .fn .. => .isTrue trivial
  | .nftwReturns _ => .isTrue trivial
  | .readFails => .isTrue trivial

/-- The program before `nftw`. -/
def Run.start : Run := ⟨WatchList.empty, .walking⟩

/-- `displayLogEvent` calls `rmWatchSubdir` for the descriptor of the event: whatever function that
is, it is called with the list as it is, and what comes of it decides how `displayLogEvent` goes
on. -/
def CallsRm (root : Path) (newDir : Option Addr) (ev : Event) (m : Mem) : Prop :=
  ∃ goesOn : WatchList.State → Outcome Mem, ∀ rm,
    displayLogEventWith root rm newDir ev m = (do
      let l ← rm ev.wd m.2
      goesOn l)

/-- **When `rmWatchSubdir` is called**: the event reports the end of a watch, and `parentPath` has
found an item with its descriptor. -/
theorem callsRm_iff (root : Path) (newDir : Option Addr) (ev : Event) (m : Mem) :
    CallsRm root newDir ev m ↔
      ev.Ignored ∧ ∃ path, WatchList.parentPath ev.wd m.2 = .ok (some path) := by
  constructor
  · rintro ⟨goesOn, hcalls⟩
    -- a function that ends the program with a text of its own shows whether it is called
    have hcalled := hcalls fun _ _ => .exit 2 "called"
    rw [Outcome.bind_exit, displayLogEventWith] at hcalled
    cases hparent : WatchList.parentPath ev.wd m.2 with
    | ok r =>
        rw [hparent, Outcome.bind_ok] at hcalled
        cases r with
        | none => simp at hcalled
        | some path =>
            by_cases hignored : ev.Ignored
            · exact ⟨hignored, path, rfl⟩
            · have hother := hcalls fun _ _ => .exit 3 "called"
              rw [Outcome.bind_exit, displayLogEventWith, hparent, Outcome.bind_ok] at hother
              simp only [if_neg hignored] at hcalled hother
              rw [hcalled] at hother
              simp at hother
    | exit status message =>
        have hother := hcalls fun _ _ => .exit 3 "called"
        rw [Outcome.bind_exit, displayLogEventWith, hparent, Outcome.bind_exit] at hother
        rw [hparent, Outcome.bind_exit, hother] at hcalled
        simp at hcalled
    | fault =>
        rw [hparent, Outcome.bind_fault] at hcalled
        cases hcalled
    | timeout =>
        rw [hparent, Outcome.bind_timeout] at hcalled
        cases hcalled
  · rintro ⟨hignored, path, hparent⟩
    apply Exists.intro
    intro rm
    rw [displayLogEventWith, hparent, Outcome.bind_ok]
    dsimp only
    rw [if_pos hignored]

/-- A tree with nothing but its top, under a watch that has not been set yet. -/
def topKernel (wd : ℤ) : Kernel where
  tree := bareTree
  watches := []
  nextWd := wd
  queue := []

/-- **Any answer is possible**: `inotify_add_watch` may return any descriptor for any path that is
not too long. -/
theorem exists_kernel {path : Path} (hpath : path.length < PATH_MAX) (wd : ℤ) :
    ∃ k, (topKernel wd).inotifyAddWatch path path = .ok (wd, k) := by
  have hfind : (topKernel wd).tree.dirs.find?
      (fun d => d.loc.top = .tree ∧ pathOf path d.loc.names = path) =
        some ⟨⟨.tree, []⟩, 0, true⟩ := by
    simp [topKernel, bareTree, pathOf, render]
  have hresolve : (topKernel wd).resolve path path = .ok ⟨⟨.tree, []⟩, 0, true⟩ := by
    rw [Kernel.resolve, if_neg (by omega), hfind]
  rw [Kernel.inotifyAddWatch, hresolve]
  exact ⟨_, rfl⟩

/-! ### The list -/

/-- The program has not crashed, and its list consists of items that the two pointers lead to. -/
def WellLinked (s : Run) : Prop := s.phase ≠ .crashed ∧ ∃ cells, Repr s.list cells

/-- An outcome after which the list is well linked, if the program goes on. -/
def KeepsList (o : Outcome Mem) : Prop :=
  (∃ m cells, o = .ok m ∧ Repr m.2 cells) ∨ ∃ status message, o = .exit status message

theorem WellLinked.after {s : Run} (hs : WellLinked s) {o : Outcome Mem} (ho : KeepsList o) :
    WellLinked (s.after o) := by
  rcases ho with ⟨m, cells, rfl, hrepr⟩ | ⟨status, message, rfl⟩
  · exact ⟨hs.1, cells, hrepr⟩
  · exact ⟨by simp [Run.after], hs.2⟩

/-- `watchSubdir` appends an item or ends the program. -/
theorem keepsList_watchSubdir {l : WatchList.State} {cells : List (Addr × SubdirItem)}
    (h : Repr l cells)
    {newDir : Option Addr} (hfresh : Unused newDir l) (root path : Path) (k : Kernel) :
    KeepsList (watchSubdir root newDir path (k, l)) := by
  unfold watchSubdir
  cases k.inotifyAddWatch root path with
  | error e => exact Or.inr ⟨_, _, rfl⟩
  | ok x =>
      obtain ⟨wd, k'⟩ := x
      cases newDir with
      | none => exact Or.inr ⟨_, _, rfl⟩
      | some a =>
          obtain ⟨l', cells', hrun, hrepr, -⟩ := h.append (hfresh a rfl) wd path
          refine Or.inl ⟨(k', l'), cells', ?_, hrepr⟩
          dsimp only
          rw [hrun]
          rfl

theorem keepsList_fn {l : WatchList.State} {cells : List (Addr × SubdirItem)} (h : Repr l cells)
    {newDir : Option Addr} (hfresh : Unused newDir l) (root path : Path) (k : Kernel) (isDir : Bool)
    (flag : Flag) : KeepsList (fn root newDir path isDir flag (k, l)) := by
  unfold fn
  split
  · exact Or.inl ⟨_, cells, rfl, h⟩
  · split
    · exact keepsList_watchSubdir h hfresh root path k
    · exact Or.inl ⟨_, cells, rfl, h⟩

/-- An item that `parentPath` has found. -/
theorem mem_of_parentPath {l : WatchList.State} {cells : List (Addr × SubdirItem)}
    (h : Repr l cells)
    {wd : ℤ} {path : Path} (hpath : WatchList.parentPath wd l = .ok (some path)) :
    wd ∈ (items cells).map Prod.fst := by
  rw [h.parentPath, Outcome.ok.injEq] at hpath
  obtain ⟨x, hx, -⟩ := Option.map_eq_some_iff.1 hpath
  have hwd : x.1 = wd := by simpa using List.find?_some hx
  exact List.mem_map.2 ⟨x, List.mem_of_find?_eq_some hx, hwd⟩

/-- **`displayLogEvent`** keeps the list well linked, or ends the program. -/
theorem keepsList_displayLogEvent {l : WatchList.State} {cells : List (Addr × SubdirItem)}
    (h : Repr l cells)
    {newDir : Option Addr} (hfresh : Unused newDir l) {ev : Event} (hev : ev.Separate) (root : Path)
    (k : Kernel) : KeepsList (displayLogEvent root newDir ev (k, l)) := by
  have hparent := h.parentPath ev.wd
  unfold displayLogEvent displayLogEventWith
  rw [hparent, Outcome.bind_ok]
  cases hfind : ((items cells).find? fun q => q.1 = ev.wd).map Prod.snd with
  | none => exact Or.inr ⟨_, _, rfl⟩
  | some path =>
      rw [hfind] at hparent
      dsimp only
      by_cases hignored : ev.Ignored
      · -- the item is removed, and nothing is added
        have hnew : ¬ ev.NewDir := fun hnew => hnew.2 (hev hignored)
        obtain ⟨l', cells', hrun, hrepr, -⟩ := h.remove (mem_of_parentPath h hparent)
        rw [if_pos hignored, hrun, Outcome.bind_ok, if_neg hnew]
        exact Or.inl ⟨(k, l'), cells', rfl, hrepr⟩
      · rw [if_neg hignored, Outcome.bind_ok]
        by_cases hnew : ev.NewDir
        · rw [if_pos hnew, hparent, Outcome.bind_ok]
          exact keepsList_watchSubdir h hfresh root _ k
        · rw [if_neg hnew]
          exact Or.inl ⟨(k, l), cells, rfl, h⟩

/-- **Every call keeps the list well linked.** -/
theorem WellLinked.perform {s s' : Run} (hs : WellLinked s) {c : Call} (hc : Separate s c)
    (hstep : Monitor.perform s c = some s') : WellLinked s' := by
  obtain ⟨cells, hrepr⟩ := hs.2
  unfold Monitor.perform at hstep
  split at hstep
  · split at hstep
    · next hfresh =>
        cases hstep
        exact hs.after (keepsList_fn hrepr hfresh _ _ _ _ _)
    · cases hstep
  · next ok _ =>
      cases hstep
      refine ⟨?_, cells, hrepr⟩
      cases ok <;> simp
  · cases hstep
    exact ⟨by simp, cells, hrepr⟩
  · split at hstep
    · next hfresh =>
        cases hstep
        exact hs.after (keepsList_displayLogEvent hrepr hfresh hc _ _)
    · cases hstep
  · cases hstep

theorem wellLinked_of_reachable {s : Run} (h : Runs.ReachableVia perform Separate .start s) :
    WellLinked s :=
  h.invariant (fun _ _ _ hs hc hstep => hs.perform hc hstep) ⟨by simp [Run.start], [], Repr.empty⟩

/-- In a list, an item in front of another one has a successor. -/
theorem next_ne_none {l : WatchList.State} {pre post : List (Addr × SubdirItem)}
    {d : Addr × SubdirItem} (h : Repr l (pre ++ d :: post)) : ∀ c ∈ pre, c.2.next ≠ none := by
  intro c hc
  obtain ⟨front, back, rfl⟩ := List.append_of_mem hc
  have hchain := h.chain
  rw [List.append_assoc, List.cons_append] at hchain
  obtain ⟨-, -, hrest⟩ := hchain.split
  cases back with
  | nil =>
      rw [List.nil_append, chain_cons] at hrest
      rw [hrest.1]
      simp
  | cons b back =>
      rw [List.cons_append, chain_cons] at hrest
      rw [hrest.1]
      simp

/-- **`rmWatchSubdir` on a list with an item for the descriptor.** -/
theorem rmWatchSubdir_of_mem {l : WatchList.State} {cells : List (Addr × SubdirItem)}
    (h : Repr l cells)
    {wd : ℤ} (hmem : wd ∈ (items cells).map Prod.fst) :
    l.listRoot ≠ none ∧
    ∃ pre d post, Repr l (pre ++ d :: post) ∧ d.2.wd = wd ∧
      (∀ c ∈ pre, c.2.wd ≠ wd ∧ c.2.next ≠ none) ∧
      ∃ l' cells', WatchList.rmWatchSubdir wd l = .ok l' ∧ Repr l' cells' ∧
        items cells' = items (pre ++ post) := by
  obtain ⟨l', cells', hrun, hrepr', hitems⟩ := h.remove hmem
  obtain ⟨pre, d, post, rfl, hpre, hd⟩ := WatchList.exists_first hmem
  refine ⟨?_, pre, d, post, h, hd, fun c hc => ⟨hpre c hc, next_ne_none h c hc⟩,
    l', cells', hrun, hrepr', ?_⟩
  · intro hroot
    have hchain := h.chain
    rw [hroot] at hchain
    cases pre with
    | nil => cases hchain.1
    | cons c pre => cases hchain.1
  · rw [hitems, WatchList.items_eraseP hpre hd]

/-- **The search ends by removing an item.**  The program never crashes, and whenever
`displayLogEvent` calls `rmWatchSubdir`, `list_root` is not null, the search goes from one item to
the next until it is in front of the first one with the descriptor, and this item is taken out of
the list. -/
theorem rmWatchSubdir_removes {s : Run} (h : Runs.ReachableVia perform Separate .start s) :
    s.phase ≠ .crashed ∧ ∀ root k newDir ev, CallsRm root newDir ev (k, s.list) →
      s.list.listRoot ≠ none ∧
      ∃ pre d post, Repr s.list (pre ++ d :: post) ∧ d.2.wd = ev.wd ∧
        (∀ c ∈ pre, c.2.wd ≠ ev.wd ∧ c.2.next ≠ none) ∧
        ∃ l' cells', WatchList.rmWatchSubdir ev.wd s.list = .ok l' ∧ Repr l' cells' ∧
          items cells' = items (pre ++ post) := by
  obtain ⟨halive, cells, hrepr⟩ := wellLinked_of_reachable h
  refine ⟨halive, fun root k newDir ev hcalls => ?_⟩
  obtain ⟨-, path, hpath⟩ := (callsRm_iff root newDir ev (k, s.list)).1 hcalls
  exact rmWatchSubdir_of_mem hrepr (mem_of_parentPath hrepr hpath)

/-- Three directories are watched, and `nftw` returns. -/
def threeWatches : List Call :=
  [.fn ['r'] (topKernel 1) (some 0) ['r'] true .FTW_D,
    .fn ['s'] (topKernel 2) (some 1) ['s'] true .FTW_D,
    .fn ['t'] (topKernel 3) (some 2) ['t'] true .FTW_D, .nftwReturns true]

/-- The watch of the last one ends: the search passes over two items. -/
theorem rmWatchSubdir_removes_last :
    ∃ s l', Runs.ReachableVia perform Separate .start s ∧ s.phase ≠ .crashed ∧
      CallsRm ['r'] none ⟨3, IN_IGNORED, []⟩ (topKernel 4, s.list) ∧
      WatchList.rmWatchSubdir 3 s.list = .ok l' ∧
      WatchList.printList l' = .ok [(1, ['r']), (2, ['s'])] := by
  have hend : (Runs.run (fun s c => if Separate s c then
    perform s c else none) .start threeWatches).map
      (fun s => (WatchList.parentPath 3 s.list,
        (WatchList.rmWatchSubdir 3 s.list).bind WatchList.printList)) =
      some (.ok (some ['t']), .ok [(1, ['r']), (2, ['s'])]) := by decide
  obtain ⟨s, hrun, hresult⟩ := Option.map_eq_some_iff.1 hend
  obtain ⟨hpath, hprint⟩ := Prod.mk.inj hresult
  have hreach := Runs.ReachableVia.of_run hrun
  have hcalls := (callsRm_iff ['r'] none ⟨3, IN_IGNORED, []⟩ (topKernel 4, s.list)).2
    ⟨by decide, _, hpath⟩
  obtain ⟨halive, hremoves⟩ := rmWatchSubdir_removes hreach
  obtain ⟨-, pre, d, post, -, -, -, l', cells', hrm, -⟩ := hremoves _ _ _ _ hcalls
  refine ⟨s, l', hreach, halive, hcalls, hrm, ?_⟩
  rw [hrm] at hprint
  exact hprint

end Monitor
