/-
**One entry for each watch (`HW12/19_1.c`).**

`inotify_add_watch` returns the descriptor that a directory already has, and `watchSubdir` appends
an entry all the same.  So a directory that the walk finds and that an event reports as new, too,
has two entries, of which only one is removed when its watch ends.

As long as `watchSubdir` is called for directories only that are not watched, the descriptors in the
list are distinct, and none is left of a watch whose end has been reported.

Main definitions:

* `Monitor.Unwatched`, `Monitor.Single` — the condition on a step;
* `Monitor.Distinct` — the descriptors in the list are pairwise distinct.

Main results:

* `Monitor.distinct_step` — a step keeps the descriptors distinct just when it meets the condition;
* `Monitor.gone_step` — a descriptor that is neither watched nor in the list does not come back;
* `Monitor.distinct_of_single` — **one entry for each watch, exactly while the condition holds**;
* `Monitor.exists_entry_left` — a directory that has two entries.
-/

import NetSysProg.MonitorBurst

set_option relaxedAutoImplicit false
set_option autoImplicit false

namespace Monitor

open DirTree
open WatchList (Path Addr Repr items)

/-- There is no watch on what can be watched at the path. -/
def Unwatched (root : Path) (k : Kernel) (path : Path) : Prop :=
  ∀ d ∈ (k.resolve root path).toOption, d.readable = true → ∀ x ∈ k.watches, x.2 ≠ d.ino

/-- **The condition on a step**: the directory for which it calls `watchSubdir` is not watched. -/
def Single (root : Path) (s : State) (a : Action) : Prop :=
  ∀ path ∈ called root s a, Unwatched root s.kernel path

instance (root : Path) (k : Kernel) (path : Path) : Decidable (Unwatched root k path) :=
  inferInstanceAs (Decidable (∀ d ∈ (k.resolve root path).toOption, d.readable = true →
    ∀ x ∈ k.watches, x.2 ≠ d.ino))

instance (root : Path) (s : State) (a : Action) : Decidable (Single root s a) :=
  inferInstanceAs (Decidable (∀ path ∈ called root s a, Unwatched root s.kernel path))

/-- **The descriptors in the list are pairwise distinct.** -/
def Distinct (s : State) : Prop :=
  ∃ entries, WatchList.printList s.list = .ok entries ∧ (entries.map Prod.fst).Nodup

/-- No entry has the descriptor. -/
def NoEntry (wd : ℤ) (s : State) : Prop :=
  ∃ entries, WatchList.printList s.list = .ok entries ∧ ¬HasEntry entries wd

section

variable {root : Path}

theorem distinct_iff {s : State} {cells : List (Addr × WatchList.SubdirItem)}
    (h : Repr s.list cells) : Distinct s ↔ ((items cells).map Prod.fst).Nodup := by
  rw [Distinct, h.printList]
  constructor
  · rintro ⟨entries, heq, hnodup⟩
    cases heq
    exact hnodup
  · exact fun hnodup => ⟨_, rfl, hnodup⟩

theorem noEntry_iff {wd : ℤ} {s : State} {cells : List (Addr × WatchList.SubdirItem)}
    (h : Repr s.list cells) : NoEntry wd s ↔ ¬HasEntry (items cells) wd := by
  rw [NoEntry, h.printList]
  constructor
  · rintro ⟨entries, heq, hno⟩
    cases heq
    exact hno
  · exact fun hno => ⟨_, rfl, hno⟩

/-- The descriptor that `inotify_add_watch` returns has no entry just when the directory is not
watched. -/
theorem hasEntry_watch {k k' : Kernel} {entries : List (ℤ × Path)} (h : Tracked k entries)
    {path : Path} {wd : ℤ} (hwatch : k.inotifyAddWatch root path = .ok (wd, k')) :
    ¬HasEntry entries wd ↔ Unwatched root k path := by
  obtain ⟨d', hd', hreadable'⟩ := exists_inotifyAddWatch_iff.1 ⟨_, hwatch⟩
  have hresolve : k.resolve root path = .ok d' := by
    cases hres : k.resolve root path with
    | error e => simp [hres, Except.toOption] at hd'
    | ok d => simpa [hres, Except.toOption] using hd'
  obtain ⟨d, hd, htop, hreadable, hpath, hcases⟩ := inotifyAddWatch_cases hwatch
  obtain ⟨hlen, hd'mem, htop', hpath'⟩ := resolve_eq_ok.1 hresolve
  obtain rfl : d = d' := k.tree.eq_of_loc hd hd'mem
    (Loc.ext (htop.trans htop'.symm) (pathOf_injective root (hpath.trans hpath'.symm)))
  have hunwatched : Unwatched root k path ↔ ∀ x ∈ k.watches, x.2 ≠ d.ino := by
    simp [Unwatched, hresolve, Except.toOption, hreadable]
  rw [hunwatched]
  rcases hcases with ⟨-, hwd⟩ | ⟨rfl, hnew, -⟩
  · refine iff_of_false (not_not.2 (h.watch_entry wd (List.mem_map_of_mem hwd))) fun hall => ?_
    exact hall _ hwd rfl
  · refine iff_of_true (fun hentry => ?_) hnew
    exact absurd (h.entry_range _ hentry).2 (Int.lt_irrefl _)

/-- An entry more. -/
theorem nodup_append_iff {entries : List (ℤ × Path)} {wd : ℤ} (path : Path)
    (h : (entries.map Prod.fst).Nodup) :
    ((entries ++ [(wd, path)]).map Prod.fst).Nodup ↔ ¬HasEntry entries wd := by
  rw [List.map_append, List.map_singleton, List.nodup_append]
  constructor
  · rintro ⟨-, -, hne⟩ hmem
    exact hne wd hmem wd (List.mem_singleton_self wd) rfl
  · intro hno
    refine ⟨h, List.nodup_singleton wd, ?_⟩
    rintro w hw v hv rfl
    rw [List.mem_singleton.1 hv] at hw
    exact hno hw

/-- A call of `watchSubdir`. -/
theorem distinct_watchSubdir {s : State} {k : Kernel} {cells : List (Addr × WatchList.SubdirItem)}
    (hrepr : Repr s.list cells) (h : Tracked k (items cells))
    (hnodup : ((items cells).map Prod.fst).Nodup) {newDir : Option Addr} (hfresh : s.Fresh newDir)
    (path : Path) (next : Proc) :
    Distinct (s.after next (watchSubdir root newDir path (k, s.list))) ↔
      (newDir.isSome → Unwatched root k path) := by
  have hsame : Distinct s := (distinct_iff hrepr).2 hnodup
  cases newDir with
  | none =>
      refine iff_of_true ?_ (by simp)
      unfold watchSubdir
      simp only
      split <;> exact hsame
  | some a =>
      rw [Option.isSome_some, imp_iff_right rfl]
      rcases watchSubdir_cases root k hrepr (hfresh a rfl) path with
        ⟨-, m, hok⟩ | ⟨hno, hexit⟩
      · obtain ⟨cells', wd, hrepr', hitems, hwatch⟩ := watchSubdir_ok hrepr hfresh hok
        rw [hok, ← hasEntry_watch h hwatch, ← nodup_append_iff path hnodup, ← hitems]
        exact distinct_iff hrepr'
      · rw [hexit]
        refine iff_of_true hsame ?_
        exact fun d hd hreadable => absurd ⟨d, hd, hreadable⟩ hno

/-- **A step keeps the descriptors distinct just when it calls `watchSubdir` for no directory that
is watched**, or memory runs out. -/
theorem distinct_step {s s' : State} {a : Action} (h : TrackedState s) (hdistinct : Distinct s)
    (hstep : step root s a = some s') : Distinct s' ↔ (a.Malloc → Single root s a) := by
  obtain ⟨cells, hrepr, htracked⟩ := h
  have hnodup := (distinct_iff hrepr).1 hdistinct
  have hquiet (hlist : s'.list = s.list) (hcalled : called root s a = none) :
      Distinct s' ↔ (a.Malloc → Single root s a) := by
    refine iff_of_true ?_ fun _ => by simp [Single, hcalled]
    rw [Distinct, hlist]
    exact hdistinct
  cases turn_cases hstep with
  | other _ hlist hcalled _ _ => exact hquiet hlist hcalled
  | called newDir st walk ha hfresh hproc hs' =>
      have hsingle : Single root s a ↔ Unwatched root s.kernel (pathOf root st.names) := by
        simp [Single, Monitor.called, ha, hproc]
      rw [hsingle, hs', ha]
      exact distinct_watchSubdir hrepr htracked hnodup hfresh _ _
  | handled newDir ev queue ha hfresh hproc hqueue hs' =>
      have hcalled : called root s a = if ev.NewDir then eventPath s.list ev else none := by
        simp [Monitor.called, ha, hproc, hqueue]
      have hev := htracked.ends.ignored ev (hqueue ▸ List.mem_cons_self ..)
      rw [displayLogEvent_eq hrepr fun hi => (hev hi).1] at hs'
      cases hfind : (items cells).find? fun x => x.1 = ev.wd with
      | none =>
          rw [hfind] at hs'
          refine hquiet (by rw [hs']; rfl) ?_
          rw [hcalled, eventPath, hrepr.parentPath, hfind]
          split <;> rfl
      | some x =>
          rw [hfind] at hs'
          simp only at hs'
          by_cases hi : ev.Ignored
          · obtain ⟨l', cells', hremove, hrepr', hitems⟩ :=
              hrepr.remove (hasEntry_iff_find.2 ⟨x, hfind⟩)
            rw [if_pos hi, hremove, Outcome.bind_ok, Outcome.pure_eq] at hs'
            rw [hs']
            refine iff_of_true ((distinct_iff hrepr').2 ?_) fun _ => ?_
            · rw [hitems, map_eraseP]
              exact hnodup.erase _
            · simp [Single, hcalled, (hev hi).1]
          · rw [if_neg hi] at hs'
            by_cases hnew : ev.NewDir
            · have hsingle : Single root s a ↔ Unwatched root { s.kernel with queue := queue }
                  ((x.2 ++ '/' :: ev.name).take (PATH_MAX - 1)) := by
                rw [Single, hcalled, if_pos hnew, eventPath_eq hrepr hfind]
                exact ⟨fun h => h _ rfl, fun h path hpath => Option.mem_some_iff.1 hpath ▸ h⟩
              rw [if_pos hnew] at hs'
              rw [hsingle, hs', ha]
              exact distinct_watchSubdir hrepr (htracked.pop hqueue) hnodup hfresh _ _
            · rw [if_neg hnew] at hs'
              exact hquiet (by rw [hs']; rfl) (by rw [hcalled, if_neg hnew])

/-- The descriptor belongs to no entry and will not be given out. -/
def Gone (wd : ℤ) (s : State) : Prop := NoEntry wd s ∧ wd < s.kernel.nextWd

/-- The descriptor that `inotify_add_watch` returns is another one. -/
theorem gone_watch {k k' : Kernel} {entries : List (ℤ × Path)} (h : Tracked k entries)
    {path : Path} {w wd : ℤ} (hwatch : k.inotifyAddWatch root path = .ok (w, k'))
    (hno : ¬HasEntry entries wd) (hlt : wd < k.nextWd) :
    ¬HasEntry (entries ++ [(w, path)]) wd ∧ wd < k'.nextWd := by
  rw [hasEntry_append, not_or]
  obtain ⟨d, -, -, -, -, ⟨rfl, hwd⟩ | ⟨rfl, -, rfl⟩⟩ := inotifyAddWatch_cases hwatch
  · refine ⟨⟨hno, ?_⟩, hlt⟩
    rintro rfl
    exact hno (h.watch_entry wd (List.mem_map_of_mem hwd))
  · exact ⟨⟨hno, Int.ne_of_lt hlt⟩, Int.lt_add_one_of_le (Int.le_of_lt hlt)⟩

theorem nextWd_moved {k k' : Kernel} (h : Moved k k') : k'.nextWd = k.nextWd := by
  cases h with
  | posted k₁ t hposted hk =>
      obtain ⟨evs, rfl, -⟩ := hposted
      rw [hk]
  | unwatched k₁ ino t hposted hk =>
      obtain ⟨evs, rfl, -⟩ := hposted
      rw [hk]
      rfl

/-- A call of `watchSubdir`. -/
theorem gone_watchSubdir {s : State} {k : Kernel} {cells : List (Addr × WatchList.SubdirItem)}
    (hrepr : Repr s.list cells) (h : Tracked k (items cells)) {newDir : Option Addr}
    (hfresh : s.Fresh newDir) {wd : ℤ} (hgone : Gone wd s) (hlt : wd < k.nextWd) (path : Path)
    (next : Proc) : Gone wd (s.after next (watchSubdir root newDir path (k, s.list))) := by
  cases hcall : watchSubdir root newDir path (k, s.list) with
  | ok m =>
      obtain ⟨cells', w, hrepr', hitems, hwatch⟩ := watchSubdir_ok hrepr hfresh hcall
      obtain ⟨hno, hlt'⟩ := gone_watch h hwatch ((noEntry_iff hrepr).1 hgone.1) hlt
      rw [← hitems] at hno
      exact ⟨(noEntry_iff hrepr').2 hno, hlt'⟩
  | exit status message => exact hgone
  | fault => exact hgone
  | timeout => exact hgone

/-- **A descriptor that is gone does not come back.** -/
theorem gone_step {wd : ℤ} {s s' : State} {a : Action} (h : TrackedState s) (hgone : Gone wd s)
    (hstep : step root s a = some s') : Gone wd s' := by
  obtain ⟨cells, hrepr, htracked⟩ := h
  cases turn_cases hstep with
  | other hmoved hlist _ _ _ =>
      refine ⟨?_, ?_⟩
      · rw [NoEntry, hlist]
        exact hgone.1
      · rw [nextWd_moved hmoved]
        exact hgone.2
  | called newDir st walk ha hfresh hproc hs' =>
      rw [hs']
      exact gone_watchSubdir hrepr htracked hfresh hgone hgone.2 _ _
  | handled newDir ev queue ha hfresh hproc hqueue hs' =>
      have hev := htracked.ends.ignored ev (hqueue ▸ List.mem_cons_self ..)
      rw [hs', displayLogEvent_eq hrepr fun hi => (hev hi).1]
      cases hfind : (items cells).find? fun x => x.1 = ev.wd with
      | none => exact hgone
      | some x =>
          simp only
          split
          · obtain ⟨l', cells', hremove, hrepr', hitems⟩ :=
              hrepr.remove (hasEntry_iff_find.2 ⟨x, hfind⟩)
            rw [hremove, Outcome.bind_ok, Outcome.pure_eq]
            refine ⟨(noEntry_iff hrepr').2 fun hentry => ?_, hgone.2⟩
            rw [HasEntry, hitems, map_eraseP] at hentry
            exact (noEntry_iff hrepr).1 hgone.1 (List.mem_of_mem_erase hentry)
          · split
            · exact gone_watchSubdir hrepr (htracked.pop hqueue) hfresh hgone hgone.2 _ _
            · exact hgone

theorem Gone.clip {wd : ℤ} {s : State} (h : Gone wd s) (n : ℕ) (held : Bool) :
    Gone wd { s with kernel := s.kernel.clip n held } := by
  obtain ⟨queue, hclip, -⟩ := clip_cases s.kernel n held
  refine ⟨h.1, ?_⟩
  simp only [hclip]
  exact h.2

theorem gone_burstStep {wd : ℤ} {s s' : State} {a : Room × Action} (h : TrackedState s)
    (hgone : Gone wd s) (hstep : burstStep root s a = some s') : Gone wd s' := by
  obtain ⟨s₁, n, hs₁, rfl⟩ := burstStep_cases hstep
  exact (gone_step h hgone hs₁).clip n _

/-- **Handling the end of a watch** removes its entry, if it has one only. -/
theorem gone_handle {s s' : State} {a : Room × Action} (h : TrackedState s) (hdistinct : Distinct s)
    (hstep : burstStep root s a = some s') {ev : Event} (hev : handled s a.2 = some ev)
    (hi : ev.Ignored) : Gone ev.wd s' := by
  obtain ⟨cells, hrepr, htracked⟩ := h
  obtain ⟨s₁, n, hs₁, rfl⟩ := burstStep_cases hstep
  refine Gone.clip ?_ n _
  cases turn_cases hs₁ with
  | other _ _ _ hnone _ =>
      rw [hnone] at hev
      cases hev
  | called newDir st walk ha =>
      rw [ha] at hev
      cases hev
  | handled newDir ev' queue ha hfresh hproc hqueue hs' =>
      obtain rfl : ev' = ev := by simpa [Monitor.handled, ha, hproc, hqueue] using hev
      have hmem : ev' ∈ s.kernel.queue := hqueue ▸ List.mem_cons_self ..
      have hentry : HasEntry (items cells) ev'.wd := by
        rcases htracked.queue_entry ev' hmem with rfl | hentry
        · exact absurd hi overflow_not_ignored
        · exact hentry
      obtain ⟨x, hfind⟩ := hasEntry_iff_find.1 hentry
      obtain ⟨l', cells', hremove, hrepr', hitems⟩ := hrepr.remove hentry
      rw [hs', displayLogEvent_eq hrepr fun hi => (htracked.ends.ignored ev' hmem hi).1, hfind]
      simp only [if_pos hi, hremove, Outcome.bind_ok, Outcome.pure_eq]
      refine ⟨(noEntry_iff hrepr').2 fun hleft => ?_, (htracked.entry_range _ hentry).2⟩
      rw [HasEntry, hitems, map_eraseP] at hleft
      exact List.Nodup.not_mem_erase ((distinct_iff hrepr).1 hdistinct) hleft

/-- **One entry for each watch, exactly while `watchSubdir` is called for no directory that is
watched**: in every state that such steps lead to the descriptors are distinct, the next step keeps
them so just when it meets the condition, or memory runs out, and once the end of a watch has been
handled none of its entries is left, whatever happens then. -/
theorem distinct_of_single {t : Forest Side} {s : State}
    (h : Runs.ReachableVia (burstStep root) (fun s a => Single root s a.2) (init t) s) :
    Distinct s ∧
    (∀ a s', burstStep root s a = some s' → (Distinct s' ↔ (a.2.Malloc → Single root s a.2))) ∧
    ∀ a ev s' s'', handled s a.2 = some ev → ev.Ignored → burstStep root s a = some s' →
      Runs.Reachable (burstStep root) s' s'' → NoEntry ev.wd s'' := by
  have hinv : TrackedState s ∧ Distinct s := by
    refine h.invariant (I := fun s => TrackedState s ∧ Distinct s) ?_
      ⟨⟨[], Repr.empty, tracked_init t⟩, [], Repr.empty.printList, List.nodup_nil⟩
    rintro s a s' ⟨htracked, hdistinct⟩ hsingle hstep
    refine ⟨tracked_burstStep htracked hstep, ?_⟩
    obtain ⟨s₁, n, hs₁, rfl⟩ := burstStep_cases hstep
    exact (distinct_step htracked hdistinct hs₁).2 fun _ => hsingle
  obtain ⟨htracked, hdistinct⟩ := hinv
  refine ⟨hdistinct, ?_, ?_⟩
  · intro a s' hstep
    obtain ⟨s₁, n, hs₁, rfl⟩ := burstStep_cases hstep
    have hiff := distinct_step htracked hdistinct hs₁
    exact hiff
  · intro a ev s' s'' hev hi hstep hreach
    have hgone := gone_handle htracked hdistinct hstep hev hi
    have htracked' := tracked_burstStep htracked hstep
    have hlater : TrackedState s'' ∧ Gone ev.wd s'' := by
      refine hreach.invariant (I := fun s => TrackedState s ∧ Gone ev.wd s) ?_ ⟨htracked', hgone⟩
      rintro s₀ b s₁ ⟨htracked, hgone⟩ hstep
      exact ⟨tracked_burstStep htracked hstep, gone_burstStep htracked hgone hstep⟩
    exact hlater.2.1

end

/-- A directory is created, its event is handled, it is removed, and the events of that are handled
up to the one that reports the end of its watch. -/
theorem distinct_of_single_removed : ∃ s, s.kernel.nextWd = 3 ∧
    Runs.ReachableVia (burstStep ['r']) (fun s a => Single ['r'] s a.2) (init bareTree) s ∧
    Distinct s ∧ ∀ room s' s'', burstStep ['r'] s (room, .handle none) = some s' →
      Runs.Reachable (burstStep ['r']) s' s'' → NoEntry 2 s'' := by
  have hend : (Runs.run (fun s a => if Single ['r'] s a.2 then burstStep ['r'] s a else none)
      (init bareTree) (inTime (bareWalk ++ [.mkdir ⟨.tree, []⟩ nameA true, .handle (some 1),
        .rmdir ⟨.tree, [nameA]⟩, .handle none, .handle none]))).map
      (fun s => (handled s (.handle none), s.kernel.nextWd)) =
        some (some ⟨2, IN_IGNORED, []⟩, 3) := by
    decide
  obtain ⟨s, hrun, hs⟩ := Option.map_eq_some_iff.1 hend
  obtain ⟨hhandled, hnext⟩ := Prod.mk.injEq .. ▸ hs
  have hreach := Runs.ReachableVia.of_run hrun
  obtain ⟨hdistinct, -, hlater⟩ := distinct_of_single hreach
  refine ⟨s, hnext, hreach, hdistinct, ?_⟩
  intro room s' s'' hstep hreach'
  exact hlater (room, .handle none) _ s' s'' hhandled (ignored_post 2) hstep hreach'

/-- The walk finds a directory that is created in the meantime, and then its event is handled. -/
def twice : List Action :=
  [.visit none, .visit none, .visit (some 0), .mkdir ⟨.tree, []⟩ nameA true, .readdir nameA,
    .visit none, .visit none, .visit (some 1), .closedir, .closedir, .handle (some 2)]

/-- **A directory that has two entries**, one of which is left when it is removed and the end of its
watch has been handled. -/
theorem exists_entry_left :
    (∃ s, Runs.Reachable (burstStep ['r']) (init bareTree) s ∧ ¬Distinct s) ∧
    ∃ s s' ev, Runs.Reachable (burstStep ['r']) (init bareTree) s ∧
      handled s (.handle none) = some ev ∧ ev.Ignored ∧
      burstStep ['r'] s (⟨9, false⟩, .handle none) = some s' ∧ ¬NoEntry ev.wd s' := by
  have htwice : (Runs.run (burstStep ['r']) (init bareTree) (inTime twice)).map
      (fun s => WatchList.printList s.list) =
      some (.ok [(1, ['r']), (2, ['r', '/', 'a']), (2, ['r', '/', 'a'])]) := by
    decide
  have hremoved : (Runs.run (burstStep ['r']) (init bareTree)
      (inTime (twice ++ [.rmdir ⟨.tree, [nameA]⟩, .handle none, .handle none]))).map
      (fun s => handled s (.handle none)) = some (some ⟨2, IN_IGNORED, []⟩) := by
    decide
  have hleft : (Runs.run (burstStep ['r']) (init bareTree)
      (inTime (twice ++ [.rmdir ⟨.tree, [nameA]⟩, .handle none, .handle none]) ++
        inTime [.handle none])).map (fun s => WatchList.printList s.list) =
      some (.ok [(1, ['r']), (2, ['r', '/', 'a'])]) := by
    decide
  obtain ⟨s, hrun, hs⟩ := Option.map_eq_some_iff.1 htwice
  obtain ⟨s₁, hrun₁, hs₁⟩ := Option.map_eq_some_iff.1 hremoved
  obtain ⟨s₂, hrun₂, hs₂⟩ := Option.map_eq_some_iff.1 hleft
  have hstep : burstStep ['r'] s₁ (⟨9, false⟩, .handle none) = some s₂ := by
    rw [Runs.run_append_of_run hrun₁] at hrun₂
    simpa [inTime, Runs.run_cons] using hrun₂
  refine ⟨⟨s, .of_run hrun, ?_⟩, s₁, s₂, _, .of_run hrun₁, hs₁, ignored_post 2, hstep, ?_⟩
  · rintro ⟨entries, hprint, hnodup⟩
    rw [hs] at hprint
    cases hprint
    simp at hnodup
  · rintro ⟨entries, hprint, hno⟩
    rw [hs₂] at hprint
    cases hprint
    exact hno (by simp [HasEntry])

end Monitor
