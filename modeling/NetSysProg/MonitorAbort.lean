/-
**When the event loop ends the program (`HW12/19_1.c`).**

`displayLogEvent` looks up the path of the watch before it looks at anything else, and there is none
for the event that stands for dropped ones: its branch for that event is never reached.  When it
handles the event of a new directory, `inotify_add_watch` fails if the directory is no longer there.
Either ends the program, and nothing else does: every other event is about an entry of the list.

Main definitions:

* `Monitor.Served` — the condition on a step: the event is no such event, and the directory is still
  there;
* `Monitor.State.Aborted` — one of the exits in `displayLogEvent` and `watchSubdir` has been taken.

Main results:

* `Monitor.displayLogEvent_cases` — when `displayLogEvent` returns;
* `Monitor.not_aborted_of_served` — **the program does not end in these functions, exactly while the
  condition holds**;
* `Monitor.exists_aborted` — a burst, and a directory that is removed at once.
-/

import NetSysProg.MonitorBurst

set_option relaxedAutoImplicit false
set_option autoImplicit false

namespace Monitor

open DirTree
open WatchList (Path Addr Repr items)

/-- **The condition on a step**: it does not handle the event that stands for dropped ones, and the
directory for which it calls `watchSubdir` can be watched. -/
def Served (root : Path) (s : State) (a : Action) : Prop :=
  (∀ ev ∈ handled s a, ev ≠ overflow) ∧ ∀ path ∈ called root s a, Watchable root s.kernel path

instance (root : Path) (s : State) (a : Action) : Decidable (Served root s a) :=
  inferInstanceAs (Decidable (_ ∧ _))

/-- The messages of the exits in `displayLogEvent` and `watchSubdir`. -/
def aborts : List String := ["parentPath", "inotify_add_watch() fail", "malloc() fail"]

/-- The program has ended in one of these functions. -/
def State.Aborted (s : State) : Prop :=
  match s.proc with
  | .crashed => True
  | .exited _ message => message ∈ aborts
  | _ => False

section

variable {root : Path}

/-- **When `displayLogEvent` returns**, for the first event of the queue. -/
theorem displayLogEvent_cases {k : Kernel} {l : WatchList.State}
    {cells : List (Addr × WatchList.SubdirItem)} (hrepr : Repr l cells)
    (htracked : Tracked k (items cells)) {ev : Event} {queue : List Event}
    (hqueue : k.queue = ev :: queue) {a : Addr} (hfresh : l.heap.lookup a = none) :
    ((ev ≠ overflow ∧ (ev.NewDir → ∀ path ∈ eventPath l ev, Watchable root k path)) ∧
      ∃ m, displayLogEvent root (some a) ev ({ k with queue := queue }, l) = .ok m) ∨
    (¬(ev ≠ overflow ∧ (ev.NewDir → ∀ path ∈ eventPath l ev, Watchable root k path)) ∧
      ∃ message ∈ aborts,
        displayLogEvent root (some a) ev ({ k with queue := queue }, l) = .exit 1 message) := by
  have hmem : ev ∈ k.queue := hqueue ▸ List.mem_cons_self ..
  have hev (hi : ev.Ignored) : ¬ev.NewDir := (htracked.ends.ignored ev hmem hi).1
  rw [displayLogEvent_eq hrepr hev]
  rcases htracked.queue_entry ev hmem with rfl | hentry
  · -- no entry has the descriptor of the event
    have hnone : (items cells).find? (fun x => x.1 = overflow.wd) = none := by
      by_contra hsome
      obtain ⟨x, hx⟩ := Option.ne_none_iff_exists'.1 hsome
      exact absurd (htracked.entry_range _ (hasEntry_iff_find.2 ⟨x, hx⟩)).1 (by decide)
    rw [hnone]
    exact .inr ⟨fun h => h.1 rfl, "parentPath", by decide, rfl⟩
  · have hne : ev ≠ overflow := by
      rintro rfl
      exact absurd (htracked.entry_range _ hentry).1 (by decide)
    obtain ⟨x, hx⟩ := hasEntry_iff_find.1 hentry
    rw [eventPath_eq hrepr hx, hx]
    simp only
    by_cases hi : ev.Ignored
    · obtain ⟨l', cells', hremove, -⟩ := hrepr.remove hentry
      rw [if_pos hi, hremove]
      exact .inl ⟨⟨hne, fun hnew => absurd hnew (hev hi)⟩, _, rfl⟩
    · rw [if_neg hi]
      by_cases hnew : ev.NewDir
      · rw [if_pos hnew]
        rcases watchSubdir_cases root { k with queue := queue } hrepr hfresh
          ((x.2 ++ '/' :: ev.name).take (PATH_MAX - 1)) with ⟨hwatch, hok⟩ | ⟨hwatch, hexit⟩
        · refine .inl ⟨⟨hne, fun _ path hpath => ?_⟩, hok⟩
          obtain rfl := Option.mem_some_iff.1 hpath
          exact hwatch
        · exact .inr ⟨fun h => hwatch (h.2 hnew _ rfl), _, by decide, hexit⟩
      · rw [if_neg hnew]
        exact .inl ⟨⟨hne, fun h => absurd h hnew⟩, _, rfl⟩

/-- Whether a call has ended the program. -/
theorem aborted_after {s : State} {walk : List Frame} {o : Outcome Mem} {ok : Prop}
    (h : (ok ∧ ∃ m, o = .ok m) ∨ (¬ok ∧ ∃ message ∈ aborts, o = .exit 1 message)) :
    (s.after (.running walk) o).Aborted ↔ ¬ok := by
  rcases h with ⟨hok, m, rfl⟩ | ⟨hok, message, hmem, rfl⟩
  · exact iff_of_false not_false (not_not.2 hok)
  · exact iff_of_true hmem hok

/-- The condition on the handling of an event. -/
theorem served_handle {s : State} {newDir : Option Addr} {ev : Event} {queue : List Event}
    (hproc : s.proc = .running []) (hqueue : s.kernel.queue = ev :: queue) :
    Served root s (.handle newDir) ↔
      ev ≠ overflow ∧ (ev.NewDir → ∀ path ∈ eventPath s.list ev, Watchable root s.kernel path) := by
  by_cases hnew : ev.NewDir <;> simp [Served, handled, called, hproc, hqueue, hnew]

/-- **A step ends the program in these functions exactly when the condition fails.** -/
theorem aborted_step {s s' : State} {a : Action} (h : TrackedState s) (halive : ¬s.Aborted)
    (hmalloc : a.Malloc) (hstep : step root s a = some s') : s'.Aborted ↔ ¬Served root s a := by
  obtain ⟨cells, hrepr, htracked⟩ := h
  cases turn_cases hstep with
  | other _ _ hcalled hhandled hproc =>
      refine iff_of_false ?_ (not_not.2 (by simp [Served, hcalled, hhandled]))
      rcases hproc with hproc | hproc | ⟨walk, hproc⟩
      · rwa [State.Aborted, hproc]
      · rw [State.Aborted, hproc]
        decide
      · rw [State.Aborted, hproc]
        exact not_false
  | called newDir st walk ha hfresh hproc hs' =>
      obtain ⟨b, rfl⟩ : ∃ b, newDir = some b := by
        subst ha
        exact Option.isSome_iff_exists.1 hmalloc
      have hserved : Served root s a ↔ Watchable root s.kernel (pathOf root st.names) := by
        simp [Served, Monitor.handled, Monitor.called, ha, hproc]
      rw [hserved, hs']
      refine aborted_after ((watchSubdir_cases root _ hrepr (hfresh b rfl) _).imp_right ?_)
      exact And.imp_right fun hexit => ⟨_, by decide, hexit⟩
  | handled newDir ev queue ha hfresh hproc hqueue hs' =>
      obtain ⟨b, rfl⟩ : ∃ b, newDir = some b := by
        subst ha
        exact Option.isSome_iff_exists.1 hmalloc
      rw [ha, served_handle hproc hqueue, hs']
      exact aborted_after (displayLogEvent_cases hrepr htracked hqueue (hfresh b rfl))

/-- **The event loop does not end the program, exactly while the condition holds**: it has not in
any state that such steps lead to, where `displayLogEvent` returns for the next event just when the
condition holds, and any step for which it does not hold ends the program. -/
theorem not_aborted_of_served {t : Forest Side} {s : State}
    (h : Runs.ReachableVia (burstStep root) (fun s a => a.2.Malloc ∧
      Served root s a.2) (init t) s) :
    ¬s.Aborted ∧
    (∀ newDir ev queue, s.proc = .running [] → s.kernel.queue = ev :: queue →
      s.Fresh (some newDir) →
      ((∃ m, displayLogEvent root (some newDir) ev ({ s.kernel with queue := queue }, s.list) =
        .ok m) ↔
        Served root s (.handle (some newDir)))) ∧
    ∀ a s', a.2.Malloc → burstStep root s a = some s' → (s'.Aborted ↔ ¬Served root s a.2) := by
  have hinv : TrackedState s ∧ ¬s.Aborted := by
    refine h.invariant (I := fun s => TrackedState s ∧ ¬s.Aborted) ?_
      ⟨⟨[], Repr.empty, tracked_init t⟩, not_false⟩
    rintro s a s' ⟨htracked, halive⟩ ⟨hmalloc, hserved⟩ hstep
    refine ⟨tracked_burstStep htracked hstep, ?_⟩
    obtain ⟨s₁, n, hs₁, rfl⟩ := burstStep_cases hstep
    exact mt (aborted_step htracked halive hmalloc hs₁).1 (not_not.2 hserved)
  obtain ⟨htracked, halive⟩ := hinv
  refine ⟨halive, ?_, ?_⟩
  · intro a ev queue hproc hqueue hfresh
    obtain ⟨cells, hrepr, htracked⟩ := htracked
    rw [served_handle hproc hqueue]
    rcases displayLogEvent_cases hrepr htracked hqueue (hfresh a rfl) with
      ⟨hserved, hok⟩ | ⟨hserved, message, -, hexit⟩
    · exact iff_of_true hok hserved
    · refine iff_of_false ?_ hserved
      rw [hexit]
      simp
  · intro a s' hmalloc hstep
    obtain ⟨s₁, n, hs₁, rfl⟩ := burstStep_cases hstep
    have haborted := aborted_step htracked halive hmalloc hs₁
    exact haborted

end

/-- The walk over a tree with nothing in it. -/
def bareWalkBurst : List (Room × Action) :=
  inTime [.visit (some 0), .visit (some 0), .visit (some 0), .closedir]

/-- A directory is created, its event is handled, and it is removed again. -/
theorem not_aborted_of_served_removed : ∃ s, s.kernel.queue = [] ∧ s.kernel.nextWd = 3 ∧
    Runs.ReachableVia (burstStep ['r']) (fun s a => a.2.Malloc ∧ Served ['r'] s a.2)
      (init bareTree) s ∧
      ¬s.Aborted := by
  have hend : (Runs.run
      (fun s a => if a.2.Malloc ∧ Served ['r'] s a.2 then burstStep ['r'] s a else none)
      (init bareTree) (bareWalkBurst ++ inTime [.mkdir ⟨.tree, []⟩ nameA true, .handle (some 1),
        .rmdir ⟨.tree, [nameA]⟩, .handle (some 2), .handle (some 2), .handle (some 2)])).map
      (fun s => (s.kernel.queue, s.kernel.nextWd)) = some ([], 3) := by
    decide
  obtain ⟨s, hrun, hs⟩ := Option.map_eq_some_iff.1 hend
  rw [Prod.mk.injEq] at hs
  have hreach := Runs.ReachableVia.of_run hrun
  exact ⟨s, hs.1, hs.2, hreach, (not_aborted_of_served hreach).1⟩

/-- **The event loop ends the program**: when it comes to the event that stands for dropped ones,
and when a new directory is removed before its event is handled. -/
theorem exists_aborted :
    (∃ s, Runs.Reachable (burstStep ['r']) (init bareTree) s ∧ s.Aborted ∧
      s.proc = .exited 1 "parentPath") ∧
    ∃ s, Runs.Reachable (burstStep ['r']) (init bareTree) s ∧ s.Aborted ∧
      s.proc = .exited 1 "inotify_add_watch() fail" := by
  have hburst : (Runs.run (burstStep ['r']) (init bareTree) (bareWalkBurst ++
      [(⟨1, false⟩, .mkdir ⟨.tree, []⟩ nameA true), (⟨0, false⟩, .mkdir ⟨.tree, []⟩ nameB true)] ++
      inTime [.handle (some 1), .handle (some 2)])).map State.proc =
      some (.exited 1 "parentPath") := by
    decide
  have hremoved : (Runs.run (burstStep ['r']) (init bareTree) (bareWalkBurst ++
      inTime [.mkdir ⟨.tree, []⟩ nameA true, .rmdir ⟨.tree, [nameA]⟩, .handle (some 1)])).map
      State.proc = some (.exited 1 "inotify_add_watch() fail") := by
    decide
  obtain ⟨s, hrun, hs⟩ := Option.map_eq_some_iff.1 hburst
  obtain ⟨s', hrun', hs'⟩ := Option.map_eq_some_iff.1 hremoved
  refine ⟨⟨s, .of_run hrun, ?_, hs⟩, s', .of_run hrun', ?_, hs'⟩
  · rw [State.Aborted, hs]
    decide
  · rw [State.Aborted, hs']
    decide

end Monitor
