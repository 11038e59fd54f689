/-
**The monitor under bursts of events (`HW12/19_1.c`).**

The queue of the kernel has room for a limited number of events.  Events that come when it is full
are dropped, and one event with the descriptor `-1` is put in their place.  How much room there is
depends on what the program has read into its buffer, so each step comes with the number of events
that are still taken.

Whatever is dropped and in whatever order the program and the others run: each watch has an entry in
the list, each event in the queue is about an entry, and an event that reports the end of a watch is
the last one about it.

Main definitions:

* `Monitor.overflow`, `Monitor.Kernel.clip` — the event, and a queue that is too long;
* `Monitor.burstStep` — one system call;
* `Monitor.Tracked`, `Monitor.TrackedState` — the invariant.

Main results:

* `Monitor.turn_cases` — **what happens in a step**;
* `Monitor.tracked_step` — **every step keeps the invariant**.
-/

import NetSysProg.MonitorComplete

set_option relaxedAutoImplicit false
set_option autoImplicit false

namespace Monitor

open DirTree
open WatchList (Path Addr Repr items)

/-! ### The queue -/

def IN_Q_OVERFLOW : BitVec 32 := 0x4000

/-- The event that stands for those that were dropped. -/
def overflow : Event := ⟨-1, IN_Q_OVERFLOW, []⟩

theorem overflow_not_ignored : ¬overflow.Ignored := by decide

/-- The room in the kernel's part of the queue. -/
structure Room where
  /-- How many events the kernel still takes. -/
  free : ℕ
  /-- The kernel holds an event that stands for dropped ones: the program has not read it. -/
  held : Bool

/-- Events behind the first `n` are dropped; the kernel holds at most one event that says so. -/
def Kernel.clip (n : ℕ) (held : Bool) (k : Kernel) : Kernel :=
  if k.queue.length ≤ n then k
  else if held = true ∧ overflow ∈ k.queue.take n then { k with queue := k.queue.take n }
  else { k with queue := k.queue.take n ++ [overflow] }

/-- **One system call**, of whose events the queue takes as many as there is room for. -/
def burstStep (root : Path) (s : State) (a : Room × Action) : Option State :=
  (step root s a.2).map fun s' =>
    { s' with kernel := s'.kernel.clip (s.kernel.queue.length + a.1.free) a.1.held }

/-- Steps in the course of which no event is dropped, if there are few. -/
def inTime (as : List Action) : List (Room × Action) := as.map fun a => (⟨9, false⟩, a)

/-! ### Steps -/

section

variable {root : Path} {k k' : Kernel} {entries : List (ℤ × Path)}

/-- What another process does to the kernel: events, another tree, and possibly the end of a
watch. -/
inductive Moved (k k' : Kernel) : Prop
  | posted (k₁ : Kernel) (t : Forest Side) : Posted k k₁ → k' = { k₁ with tree := t } → Moved k k'
  | unwatched (k₁ : Kernel) (ino : Option ℕ) (t : Forest Side) : Posted k k₁ →
      k' = { k₁.unwatch ino with tree := t } → Moved k k'

theorem Moved.refl (k : Kernel) : Moved k k := .posted k k.tree (Posted.refl k) rfl

theorem moved_mkdir {p : Loc Side} {n : Name} {readable : Bool}
    (h : k.mkdir p n readable = some k') : Moved k k' := by
  obtain ⟨t, -, rfl⟩ := Option.map_eq_some_iff.1 h
  exact .posted _ t (posted_postEntry k _ (by decide)) rfl

theorem moved_rmdir {l : Loc Side} (h : k.rmdir l = some k') : Moved k k' := by
  obtain ⟨t, -, rfl⟩ := Option.map_eq_some_iff.1 h
  exact .unwatched ((k.postEntry l IN_DELETE).post (k.inoAt l) IN_DELETE_SELF []) (k.inoAt l) t
    ((posted_postEntry k l (by decide)).trans (posted_post _ _ (by decide) _)) rfl

theorem moved_rename {a p : Loc Side} {n : Name} (h : k.rename a p n = some k') : Moved k k' := by
  obtain ⟨t, -, rfl⟩ := Option.map_eq_some_iff.1 h
  exact .posted _ t (((posted_postEntry k a (by decide)).trans
    (posted_postEntry _ _ (by decide))).trans (posted_post _ _ (by decide) _)) rfl

/-- The path of the directory that an event reports. -/
def eventPath (l : WatchList.State) (ev : Event) : Option Path :=
  match WatchList.parentPath ev.wd l with
  | .ok (some path) => some ((path ++ '/' :: ev.name).take (PATH_MAX - 1))
  | _ => none

/-- The path for which a step calls `watchSubdir`. -/
def called (root : Path) (s : State) : Action → Option Path
  | .visit _ =>
      match s.proc with
      | .running (.calling st :: _) => some (pathOf root st.names)
      | _ => none
  | .handle _ =>
      match s.proc, s.kernel.queue with
      | .running [], ev :: _ => if ev.NewDir then eventPath s.list ev else none
      | _, _ => none
  | _ => none

/-- `malloc` succeeds. -/
def Action.Malloc : Action → Prop
  | .visit newDir | .handle newDir => newDir.isSome
  | _ => True

/-- `inotify_add_watch` can put a watch on what is at the path. -/
def Watchable (root : Path) (k : Kernel) (path : Path) : Prop :=
  ∃ d ∈ (k.resolve root path).toOption, d.readable = true

instance (a : Action) : Decidable a.Malloc :=
  match a with
  | .mkdir _ _ _ => .isTrue trivial
  | .rmdir _ => .isTrue trivial
  | .rename _ _ _ => .isTrue trivial
  | .touch _ _ _ => .isTrue trivial
  | .visit newDir => inferInstanceAs (Decidable (newDir.isSome = true))
  | .readdir _ => .isTrue trivial
  | .closedir => .isTrue trivial
  | .handle newDir => inferInstanceAs (Decidable (newDir.isSome = true))

instance (root : Path) (k : Kernel) (path : Path) : Decidable (Watchable root k path) :=
  inferInstanceAs (Decidable (∃ d ∈ (k.resolve root path).toOption, d.readable = true))

/-- The event that a step handles. -/
def handled (s : State) : Action → Option Event
  | .handle _ =>
      match s.proc with
      | .running [] => s.kernel.queue.head?
      | _ => none
  | _ => none

/-- **What happens in a step**: the program calls `fn` for a directory that has been opened, or it
handles an event, or neither; then the list is as before, and the program does not end but in
`nftw`. -/
inductive Turn (root : Path) (s s' : State) (a : Action) : Prop
  | other : Moved s.kernel s'.kernel → s'.list = s.list →
      called root s a = none → handled s a = none →
      (s'.proc = s.proc ∨ s'.proc = .exited 1 "nftw() fail" ∨ ∃ walk, s'.proc = .running walk) →
      Turn root s s' a
  | called (newDir : Option Addr) (st : Stream) (walk : List Frame) : a = .visit newDir →
      s.Fresh newDir → s.proc = .running (.calling st :: walk) →
      s' = s.after (.running (.reading st [] :: walk))
        (watchSubdir root newDir (pathOf root st.names) (s.kernel, s.list)) → Turn root s s' a
  | handled (newDir : Option Addr) (ev : Event) (queue : List Event) : a = .handle newDir →
      s.Fresh newDir → s.proc = .running [] → s.kernel.queue = ev :: queue →
      s' = s.after (.running [])
        (displayLogEvent root newDir ev ({ s.kernel with queue := queue }, s.list)) →
          Turn root s s' a

/-- The next call of `nftw`. -/
theorem turn_visit {s s' : State} {newDir : Option Addr} (hfresh : s.Fresh newDir)
    (h : visit root newDir s = some s') : Turn root s s' (.visit newDir) := by
  obtain ⟨k, l, proc⟩ := s
  unfold visit at h
  split at h
  · rename_i hproc
    obtain rfl : proc = .starting := hproc
    split at h
    · cases h
      exact .other (.refl _) rfl rfl rfl (.inr (.inl rfl))
    · cases h
      exact .other (.refl _) rfl rfl rfl (.inr (.inr ⟨_, rfl⟩))
  · rename_i names walk hproc
    obtain rfl : proc = .running (.entering names :: walk) := hproc
    split at h
    · cases h
      exact .other (.refl _) rfl rfl rfl (.inr (.inl rfl))
    · cases h
      exact .other (.refl _) rfl rfl rfl (.inr (.inr ⟨_, rfl⟩))
    · cases h
      exact .other (.refl _) rfl rfl rfl (.inr (.inr ⟨_, rfl⟩))
  · rename_i names walk hproc
    obtain rfl : proc = .running (.opening names :: walk) := hproc
    split at h
    · cases h
      exact .other (.refl _) rfl rfl rfl (.inr (.inl rfl))
    · split at h
      · cases h
        exact .other (.refl _) rfl rfl rfl (.inr (.inr ⟨_, rfl⟩))
      · cases h
        exact .other (.refl _) rfl rfl rfl (.inr (.inr ⟨_, rfl⟩))
  · rename_i st walk hproc
    refine .called newDir st walk rfl hfresh hproc ?_
    simpa [fn] using h.symm
  · cases h

/-- **Every step is one of these.** -/
theorem turn_cases {s s' : State} {a : Action} (h : step root s a = some s') :
    Turn root s s' a := by
  cases a with
  | mkdir p n readable =>
      obtain ⟨k', hk', rfl⟩ := Option.map_eq_some_iff.1 h
      exact .other (moved_mkdir hk') rfl rfl rfl (.inl rfl)
  | rmdir l =>
      obtain ⟨k', hk', rfl⟩ := Option.map_eq_some_iff.1 h
      exact .other (moved_rmdir hk') rfl rfl rfl (.inl rfl)
  | rename a p n =>
      obtain ⟨k', hk', rfl⟩ := Option.map_eq_some_iff.1 h
      exact .other (moved_rename hk') rfl rfl rfl (.inl rfl)
  | touch wd mask name =>
      obtain ⟨k', hk', rfl⟩ := Option.map_eq_some_iff.1 h
      exact .other (.posted k' k'.tree (posted_touch hk') rfl) rfl rfl rfl (.inl rfl)
  | visit newDir =>
      rw [step] at h
      split at h
      · next hfresh => exact turn_visit hfresh h
      · cases h
  | readdir n =>
      rw [step] at h
      split at h
      · split at h
        · cases h
        · cases h
          exact .other (.refl _) rfl rfl rfl (.inr (.inr ⟨_, rfl⟩))
      · cases h
  | closedir =>
      rw [step] at h
      split at h
      · split at h
        · cases h
          exact .other (.refl _) rfl rfl rfl (.inr (.inr ⟨_, rfl⟩))
        · cases h
      · cases h
  | handle newDir =>
      rw [step] at h
      split at h
      · rename_i ev queue hproc hqueue
        split at h
        · rename_i hfresh
          exact .handled newDir ev queue rfl hfresh hproc hqueue (Option.some.inj h).symm
        · cases h
      · cases h

theorem burstStep_cases {s s' : State} {a : Room × Action} (h : burstStep root s a = some s') :
    ∃ s₁ n, step root s a.2 = some s₁ ∧ s' = { s₁ with kernel := s₁.kernel.clip n a.1.held } := by
  obtain ⟨s₁, hs₁, rfl⟩ := Option.map_eq_some_iff.1 h
  exact ⟨s₁, _, hs₁, rfl⟩

/-! ### The invariant -/

/-- The list has an entry for the descriptor. -/
def HasEntry (entries : List (ℤ × Path)) (wd : ℤ) : Prop := wd ∈ entries.map Prod.fst

/-- The kernel has a watch with the descriptor. -/
def Kernel.Watches (k : Kernel) (wd : ℤ) : Prop := wd ∈ k.watches.map Prod.fst

/-- **What is known of the watches, the queue and the list**, whatever is created, removed, renamed
or dropped. -/
structure Tracked (k : Kernel) (entries : List (ℤ × Path)) : Prop where
  ends : EndsLast k
  next_pos : 0 < k.nextWd
  entry_range : ∀ wd, HasEntry entries wd → 0 < wd ∧ wd < k.nextWd
  watch_entry : ∀ wd, k.Watches wd → HasEntry entries wd
  queue_entry : ∀ ev ∈ k.queue, ev = overflow ∨ HasEntry entries ev.wd

theorem tracked_init (t : Forest Side) : Tracked (init t).kernel [] := by
  refine ⟨⟨by simp [init], by simp [init], by simp [init]⟩, by simp [init], ?_, ?_, by simp [init]⟩
  · intro wd h
    simp [HasEntry] at h
  · intro wd h
    simp [init, Kernel.Watches] at h

/-- The tree does not matter. -/
theorem Tracked.setTree (h : Tracked k entries) (t : Forest Side) :
    Tracked { k with tree := t } entries :=
  ⟨⟨h.ends.nodup_wd, h.ends.ignored, h.ends.last⟩, h.next_pos, h.entry_range, h.watch_entry,
    h.queue_entry⟩

theorem Tracked.posted (h : Tracked k entries) (hposted : Posted k k') : Tracked k' entries := by
  have hends := h.ends.posted hposted
  obtain ⟨evs, rfl, hevs⟩ := hposted
  refine ⟨hends, h.next_pos, h.entry_range, h.watch_entry, ?_⟩
  intro ev hev
  rcases List.mem_append.1 hev with hev | hev
  · exact h.queue_entry ev hev
  · exact .inr (h.watch_entry ev.wd (hevs ev hev).1)

theorem Tracked.unwatch (h : Tracked k entries) (ino : Option ℕ) :
    Tracked (k.unwatch ino) entries := by
  refine ⟨h.ends.unwatch ino, h.next_pos, h.entry_range, ?_, ?_⟩
  · intro wd hwd
    obtain ⟨x, hx, rfl⟩ := List.mem_map.1 hwd
    exact h.watch_entry x.1 (List.mem_map_of_mem (mem_watches_unwatch.1 hx).1)
  · intro ev hev
    rcases mem_queue_unwatch.1 hev with hev | ⟨x, hx, -, rfl⟩
    · exact h.queue_entry ev hev
    · exact .inr (h.watch_entry x.1 (List.mem_map_of_mem hx))

theorem clip_cases (k : Kernel) (n : ℕ) (held : Bool) : ∃ queue, k.clip n held =
    { k with queue := queue } ∧
    (queue.Sublist k.queue ∨ ∃ front, front.Sublist k.queue ∧ queue = front ++ [overflow]) := by
  have htake := List.take_sublist n k.queue
  unfold Kernel.clip
  split
  · exact ⟨k.queue, rfl, .inl (List.Sublist.refl _)⟩
  · split
    · exact ⟨_, rfl, .inl htake⟩
    · exact ⟨_, rfl, .inr ⟨_, htake, rfl⟩⟩

/-- Some of the events have been dropped. -/
theorem Tracked.drop (h : Tracked k entries) {queue : List Event} (hsub : queue.Sublist k.queue) :
    Tracked { k with queue := queue } entries :=
  ⟨⟨h.ends.nodup_wd, fun ev hev => h.ends.ignored ev (hsub.subset hev), h.ends.last.sublist hsub⟩,
    h.next_pos, h.entry_range, h.watch_entry, fun ev hev => h.queue_entry ev (hsub.subset hev)⟩

/-- The event about those that were dropped has been added. -/
theorem Tracked.overflow (h : Tracked k entries) :
    Tracked { k with queue := k.queue ++ [overflow] } entries := by
  refine ⟨⟨h.ends.nodup_wd, fun ev hev hi => ?_, ?_⟩, h.next_pos, h.entry_range, h.watch_entry,
    fun ev hev => ?_⟩
  · rcases List.mem_append.1 hev with hev | hev
    · exact h.ends.ignored ev hev hi
    · rw [List.mem_singleton.1 hev] at hi
      exact absurd hi overflow_not_ignored
  · refine List.pairwise_append.2 ⟨h.ends.last, List.pairwise_singleton _ _, ?_⟩
    intro ev hev ev' hev' hi heq
    obtain rfl := List.mem_singleton.1 hev'
    rcases h.queue_entry ev hev with rfl | hentry
    · exact overflow_not_ignored hi
    · have hpos := (h.entry_range ev.wd hentry).1
      rw [← heq] at hpos
      exact absurd hpos (by decide)
  · rcases List.mem_append.1 hev with hev | hev
    · exact h.queue_entry ev hev
    · exact .inl (List.mem_singleton.1 hev)

theorem Tracked.clip (h : Tracked k entries) (n : ℕ) (held : Bool) :
    Tracked (k.clip n held) entries := by
  obtain ⟨queue, hclip, hsub | ⟨front, hsub, rfl⟩⟩ := clip_cases k n held
  · rw [hclip]
    exact h.drop hsub
  · rw [hclip]
    exact (h.drop hsub).overflow

/-! ### The program -/

theorem hasEntry_append {wd w : ℤ} {path : Path} :
    HasEntry (entries ++ [(w, path)]) wd ↔ HasEntry entries wd ∨ wd = w := by
  rw [HasEntry, List.map_append, List.mem_append, List.map_singleton, List.mem_singleton, HasEntry]

/-- The descriptor that `inotify_add_watch` returns is that of a watch, or a new one. -/
theorem Tracked.watch (h : Tracked k entries) {path : Path} {wd : ℤ}
    (hwatch : k.inotifyAddWatch root path = .ok (wd, k')) :
    Tracked k' (entries ++ [(wd, path)]) := by
  obtain ⟨d, -, -, -, -, ⟨rfl, hwd⟩ | ⟨rfl, -, rfl⟩⟩ := inotifyAddWatch_cases hwatch
  · have hentry := h.watch_entry wd (List.mem_map_of_mem hwd)
    refine ⟨h.ends, h.next_pos, ?_, ?_, ?_⟩
    · intro w hw
      rcases hasEntry_append.1 hw with hw | rfl
      · exact h.entry_range w hw
      · exact h.entry_range w hentry
    · exact fun w hw => hasEntry_append.2 (.inl (h.watch_entry w hw))
    · exact fun ev hev => (h.queue_entry ev hev).imp_right fun hev => hasEntry_append.2 (.inl hev)
  · have hrange {w : ℤ} (hw : HasEntry entries w) : w ≠ k.nextWd :=
      Int.ne_of_lt (h.entry_range w hw).2
    have hends : EndsLast (k.addWatch d.ino) := by
      refine h.ends.addWatch d.ino ?_ ?_
      · exact fun x hx => hrange (h.watch_entry x.1 (List.mem_map_of_mem hx))
      · intro ev hev hi
        rcases h.queue_entry ev hev with rfl | hentry
        · exact absurd hi overflow_not_ignored
        · exact hrange hentry
    refine ⟨hends, Int.lt_add_one_of_le (Int.le_of_lt h.next_pos), ?_, ?_, ?_⟩
    · intro w hw
      have hpos := h.next_pos
      show 0 < w ∧ w < k.nextWd + 1
      rcases hasEntry_append.1 hw with hw | rfl
      · have hlt := h.entry_range w hw
        omega
      · omega
    · intro w hw
      rw [Kernel.Watches, List.map_append, List.mem_append, List.map_singleton,
        List.mem_singleton] at hw
      exact hasEntry_append.2 (hw.imp_left (h.watch_entry w))
    · exact fun ev hev => (h.queue_entry ev hev).imp_right fun hev => hasEntry_append.2 (.inl hev)

/-- An event has been handled. -/
theorem Tracked.pop (h : Tracked k entries) {ev : Event} {queue : List Event}
    (hqueue : k.queue = ev :: queue) : Tracked { k with queue := queue } entries :=
  h.drop (hqueue ▸ List.sublist_cons_self ev queue)

/-- An event that reports the end of a watch has been handled. -/
theorem Tracked.popIgnored (h : Tracked k entries) {ev : Event} {queue : List Event}
    (hqueue : k.queue = ev :: queue) (hi : ev.Ignored) :
    Tracked { k with queue := queue } (entries.eraseP fun x => x.1 = ev.wd) := by
  have hpop := h.pop hqueue
  have hkeep {wd : ℤ} (hne : wd ≠ ev.wd) (hwd : HasEntry entries wd) :
      HasEntry (entries.eraseP fun x => x.1 = ev.wd) wd := by
    rw [HasEntry, map_eraseP]
    exact (List.mem_erase_of_ne hne).2 hwd
  refine ⟨hpop.ends, h.next_pos, ?_, ?_, ?_⟩
  · intro wd hwd
    rw [HasEntry, map_eraseP] at hwd
    exact h.entry_range wd (List.mem_of_mem_erase hwd)
  · intro wd hwd
    refine hkeep ?_ (h.watch_entry wd hwd)
    rintro rfl
    exact (h.ends.ignored ev (hqueue ▸ List.mem_cons_self ..) hi).2 hwd
  · intro ev' hev'
    exact (hpop.queue_entry ev' hev').imp_right fun hentry =>
      hkeep (h.ends.wd_ne hqueue hi ev' hev') hentry

/-- The invariant of a state. -/
def TrackedState (s : State) : Prop := ∃ cells, Repr s.list cells ∧ Tracked s.kernel (items cells)

/-- A call that does not return leaves the kernel and the list as they were. -/
theorem tracked_after {s : State} {next : Proc} {o : Outcome Mem} (h : TrackedState s)
    (hok : ∀ m, o = .ok m → ∃ cells, Repr m.2 cells ∧ Tracked m.1 (items cells)) :
    TrackedState (s.after next o) := by
  cases o with
  | ok m => exact hok m rfl
  | exit status message => exact h
  | fault => exact h
  | timeout => exact h

/-- **Every step keeps the invariant.** -/
theorem tracked_step {s s' : State} {a : Action} (h : TrackedState s)
    (hstep : step root s a = some s') : TrackedState s' := by
  obtain ⟨cells, hrepr, htracked⟩ := id h
  cases turn_cases hstep with
  | other hmoved hl _ _ _ =>
      refine ⟨cells, hl ▸ hrepr, ?_⟩
      cases hmoved with
      | posted k t hposted hk =>
          rw [hk]
          exact (htracked.posted hposted).setTree t
      | unwatched k ino t hposted hk =>
          rw [hk]
          exact ((htracked.posted hposted).unwatch ino).setTree t
  | called newDir st walk ha hfresh hproc hs' =>
      rw [hs']
      refine tracked_after h fun m hm => ?_
      obtain ⟨cells', wd, hrepr', hitems, hwatch⟩ := watchSubdir_ok hrepr hfresh hm
      exact ⟨cells', hrepr', hitems ▸ htracked.watch hwatch⟩
  | handled newDir ev queue ha hfresh hproc hqueue hs' =>
      rw [hs']
      refine tracked_after h fun m hm => ?_
      have hev := htracked.ends.ignored ev (hqueue ▸ List.mem_cons_self ..)
      obtain ⟨path, -, ⟨hi, hk, cells', hrepr', hitems⟩ | ⟨-, -, rfl⟩ | ⟨-, -, hcall⟩⟩ :=
        displayLogEvent_ok hrepr (fun hi => (hev hi).1) hm
      · refine ⟨cells', hrepr', ?_⟩
        rw [hk, hitems]
        exact htracked.popIgnored hqueue hi
      · exact ⟨cells, hrepr, htracked.pop hqueue⟩
      · obtain ⟨cells', wd, hrepr', hitems, hwatch⟩ := watchSubdir_ok hrepr hfresh hcall
        exact ⟨cells', hrepr', hitems ▸ (htracked.pop hqueue).watch hwatch⟩

theorem tracked_burstStep {s s' : State} {a : Room × Action} (h : TrackedState s)
    (hstep : burstStep root s a = some s') : TrackedState s' := by
  obtain ⟨s₁, n, hs₁, rfl⟩ := burstStep_cases hstep
  obtain ⟨cells, hrepr, htracked⟩ := tracked_step h hs₁
  exact ⟨cells, hrepr, htracked.clip n a.1.held⟩

/-! ### What the functions return -/

theorem exists_inotifyAddWatch_iff {path : Path} :
    (∃ x, k.inotifyAddWatch root path = .ok x) ↔ Watchable root k path := by
  unfold Kernel.inotifyAddWatch Watchable
  cases k.resolve root path with
  | error e => simp [Except.toOption]
  | ok d =>
      cases hreadable : d.readable with
      | false => simp [Except.toOption, hreadable]
      | true =>
          simp only [hreadable, Except.toOption, Bool.true_eq_false, if_false]
          split <;> simp [hreadable]

/-- **`watchSubdir`** returns when the directory can be watched, and otherwise ends the program. -/
theorem watchSubdir_cases (root : Path) (k : Kernel) {l : WatchList.State}
    {cells : List (Addr × WatchList.SubdirItem)} (hrepr : Repr l cells) {a : Addr}
    (hfresh : l.heap.lookup a = none) (path : Path) :
    (Watchable root k path ∧ ∃ m, watchSubdir root (some a) path (k, l) = .ok m) ∨
    (¬Watchable root k path ∧
      watchSubdir root (some a) path (k, l) = .exit 1 "inotify_add_watch() fail") := by
  rw [← exists_inotifyAddWatch_iff]
  unfold watchSubdir
  simp only
  cases k.inotifyAddWatch root path with
  | error e => simp
  | ok x =>
      obtain ⟨wd, k'⟩ := x
      obtain ⟨l', cells', happend, -⟩ := hrepr.append hfresh wd path
      simp [happend]

/-- **`displayLogEvent`**, case by case. -/
theorem displayLogEvent_eq {l : WatchList.State} {cells : List (Addr × WatchList.SubdirItem)}
    (hrepr : Repr l cells) {newDir : Option Addr} {ev : Event} (hev : ev.Ignored → ¬ev.NewDir) :
    displayLogEvent root newDir ev (k, l) =
      match (items cells).find? fun x => x.1 = ev.wd with
      | none => .exit 1 "parentPath"
      | some x =>
          if ev.Ignored then do
            let l' ← WatchList.rmWatchSubdir ev.wd l
            return (k, l')
          else if ev.NewDir then
            watchSubdir root newDir ((x.2 ++ '/' :: ev.name).take (PATH_MAX - 1)) (k, l)
          else .ok (k, l) := by
  unfold displayLogEvent displayLogEventWith
  rw [hrepr.parentPath, Outcome.bind_ok]
  cases hfind : (items cells).find? fun x => x.1 = ev.wd with
  | none => rfl
  | some x =>
      simp only [Option.map_some]
      by_cases hi : ev.Ignored
      · simp only [if_pos hi, if_neg (hev hi)]
      · by_cases hnew : ev.NewDir
        · simp only [if_neg hi, if_pos hnew, Outcome.bind_ok, hrepr.parentPath, hfind,
            Option.map_some]
        · simp only [if_neg hi, if_neg hnew, Outcome.bind_ok, Outcome.pure_eq]

theorem eventPath_eq {l : WatchList.State} {cells : List (Addr × WatchList.SubdirItem)}
    (hrepr : Repr l cells) {ev : Event} {x : ℤ × Path}
    (hfind : (items cells).find? (fun x => x.1 = ev.wd) = some x) :
    eventPath l ev = some ((x.2 ++ '/' :: ev.name).take (PATH_MAX - 1)) := by
  rw [eventPath, hrepr.parentPath, hfind]
  rfl

theorem hasEntry_iff_find {wd : ℤ} :
    HasEntry entries wd ↔ ∃ x, entries.find? (fun x => x.1 = wd) = some x := by
  rw [← Option.isSome_iff_exists, List.find?_isSome, HasEntry, List.mem_map]
  exact exists_congr fun x => by rw [decide_eq_true_eq]

end

end Monitor
