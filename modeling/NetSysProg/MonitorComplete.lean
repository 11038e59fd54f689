/-
**The monitor misses no directory, as long as nobody runs ahead of it.**

Each step is shown to keep the invariant of `NetSysProg/MonitorInvariant.lean`: what other processes
do under the condition on steps, and what `nftw` and the event loop do always.  When the walk is
over and the queue is empty nothing is left by which a directory could be covered but its watch.

Without the condition this is not so: a directory that is created in a new one before the event of
the latter has been handled is never noticed.

Main definitions:

* `Monitor.Inv` — the invariant.

Main results:

* `Monitor.inv_mkdir`, `Monitor.inv_rmdir`, `Monitor.inv_rename` — other processes;
* `Monitor.good_visit`, `Monitor.good_handle` — the program;
* `Monitor.allWatched_of_harmless` — **after every run of harmless steps exactly the readable
  directories are watched**;
* `Monitor.exists_missed` — a run after which one of them is not.
-/

import NetSysProg.MonitorInvariant
import NetSysProg.Runs

set_option relaxedAutoImplicit false
set_option autoImplicit false

namespace Monitor

open DirTree
open WatchList (Path Addr Repr items)

/-- **The invariant.** -/
def Inv (root : Path) (s : State) : Prop :=
  ∃ cells, Repr s.list cells ∧ Sound root s.kernel (items cells) ∧
    AllCovered root s.kernel (items cells) s.frames

/-- The program has not ended. -/
def State.Alive (s : State) : Prop := s.proc = .starting ∨ ∃ walk, s.proc = .running walk

/-- The invariant, as long as the program has not ended. -/
def Good (root : Path) (s : State) : Prop := s.Alive → Inv root s

/-! ### Other processes -/

section

variable {root : Path} {k k' : Kernel} {entries : List (ℤ × Path)} {frames : List Frame}

theorem inoAt_eq_some {l : Loc Side} {i : ℕ} :
    k.inoAt l = some i ↔ ∃ g ∈ k.tree.dirs, g.loc = l ∧ g.ino = i := by
  rw [Kernel.inoAt, Option.map_eq_some_iff]
  exact exists_congr fun g => by rw [Forest.find_eq_some, and_assoc]

/-- Creating a directory. -/
theorem inv_mkdir (h : Sound root k entries) (hcovered : AllCovered root k entries frames)
    {p : Loc Side} {n : Name} {readable : Bool} (hmkdir : k.mkdir p n readable = some k')
    (hok : readable = true → p.top = .tree → ∃ g ∈ k.tree.dirs, g.loc = p ∧
      (g.readable = true ∧ (∃ f ∈ frames, f.Reaches k.tree p) ∨
        (∃ x ∈ k.watches, x.2 = g.ino) ∧ (pathOf root (p.child n).names).length < PATH_MAX)) :
    Sound root k' entries ∧ AllCovered root k' entries frames := by
  obtain ⟨t, ht, rfl⟩ := Option.map_eq_some_iff.1 hmkdir
  obtain ⟨-, hnew, hdirs⟩ := Forest.mem_mkdir ht
  rw [postEntry_child]
  have hposted :=
    posted_post k (k.inoAt p) (by decide : (IN_CREATE ||| IN_ISDIR) &&& IN_IGNORED = 0)
    n.chars
  have hkeep : ∀ e ∈ k.tree.dirs, e ∈ t.dirs := fun e he => hdirs ▸ List.mem_append_left _ he
  have hbelow : ∀ d ∈ k.tree.dirs, ¬p.child n ≤ d.loc := by
    intro d hd hle
    obtain ⟨e, he, hloc⟩ := k.tree.exists_above hd hle
    exact hnew e he hloc
  refine ⟨(h.posted hposted).setTree (fun _ _ d hd _ => hkeep d hd) ?_, ?_⟩
  · intro d hd htop hd' e he hle
    rw [hdirs, List.mem_append, List.mem_singleton] at hd he
    rcases hd with hd | rfl
    · rcases he with he | rfl
      · exact h.above_readable d hd htop hd' e he hle
      · exact absurd hle (hbelow d hd)
    · rcases he with he | rfl
      · obtain ⟨g, hg, rfl, hcases⟩ := hok hd' htop
        have hgreadable : g.readable = true := by
          rcases hcases with ⟨hgr, -⟩ | ⟨⟨x, hx, hino⟩, -⟩
          · exact hgr
          · obtain ⟨d, hd, hdino, -, hdr, -⟩ := h.watch_dir x hx
            rwa [← k.tree.eq_of_ino hd hg (hdino.trans hino)]
        rcases Loc.le_child_iff.1 hle with heq | hle
        · exact absurd heq (hnew e he)
        · exact h.above_readable g hg htop hgreadable e he hle
      · exact hd'
  · intro d hd htop hd'
    rw [hdirs, List.mem_append, List.mem_singleton] at hd
    rcases hd with hd | rfl
    · exact ((hcovered d hd htop hd').posted hposted).setTree fun e he _ => hkeep e he
    · obtain ⟨g, hg, hgloc, ⟨-, f, hf, hreaches⟩ | ⟨⟨x, hx, hino⟩, hlen⟩⟩ := hok hd' htop
      · exact .unvisited f hf ((hreaches.mono fun e he _ => hkeep e he).trans (Loc.le_child p n))
      · obtain ⟨d, hd, hdino, -, -, hentry⟩ := h.watch_dir x hx
        obtain rfl := k.tree.eq_of_ino hd hg (hdino.trans hino)
        subst hgloc
        refine .reported ⟨x.1, IN_CREATE ||| IN_ISDIR, n.chars⟩
          (pathOf root d.loc.names) ?_ ?_ hentry
          (pathOf_child root d.loc n).symm hlen
        · refine List.mem_append_right _ (mem_post.2 ⟨x, hx, ?_, rfl⟩)
          exact (inoAt_eq_some.2 ⟨d, hd, rfl, hdino⟩).symm
        · show (IN_CREATE ||| IN_ISDIR) &&& IN_ISDIR ≠ 0 ∧
            (IN_CREATE ||| IN_ISDIR) &&& IN_CREATE ≠ 0
          decide

theorem Covered.unwatch {ino : Option ℕ} {d : Dir Side} (h : Covered root k entries frames d)
    (hino : some d.ino ≠ ino) : Covered root (k.unwatch ino) entries frames d := by
  cases h with
  | watched wd hwd => exact .watched wd (List.mem_filter.2 ⟨hwd, by simpa using hino⟩)
  | unvisited f hf hreaches => exact .unvisited f hf hreaches
  | called f hf hcalls => exact .called f hf hcalls
  | reported ev path hev hnew hentry hpath hlen =>
      exact .reported ev path (List.mem_append_left _ hev) hnew hentry hpath hlen

/-- Removing a directory. -/
theorem inv_rmdir (h : Sound root k entries) (hcovered : AllCovered root k entries frames)
    {l : Loc Side} (hrmdir : k.rmdir l = some k')
    (hok : ∀ x ∈ k.watches, some x.2 = k.inoAt l → (entries.map Prod.fst).count x.1 ≤ 1) :
    Sound root k' entries ∧ AllCovered root k' entries frames := by
  obtain ⟨t, ht, rfl⟩ := Option.map_eq_some_iff.1 hrmdir
  obtain ⟨⟨g, hg, rfl⟩, hempty, hdirs⟩ := Forest.mem_rmdir ht
  have hino : k.inoAt g.loc = some g.ino := inoAt_eq_some.2 ⟨g, hg, rfl, rfl⟩
  have hposted : Posted k ((k.postEntry g.loc IN_DELETE).post (k.inoAt g.loc) IN_DELETE_SELF []) :=
    (posted_postEntry k g.loc (by decide)).trans (posted_post _ _ (by decide) _)
  show Sound root { ((k.postEntry g.loc IN_DELETE).post (k.inoAt g.loc) IN_DELETE_SELF []).unwatch
      (k.inoAt g.loc) with tree := t } entries ∧
    AllCovered root { ((k.postEntry g.loc IN_DELETE).post (k.inoAt g.loc) IN_DELETE_SELF []).unwatch
      (k.inoAt g.loc) with tree := t } entries frames
  generalize (k.postEntry g.loc IN_DELETE).post (k.inoAt g.loc) IN_DELETE_SELF [] = k₁
    at hposted ⊢
  have hsound := h.posted hposted
  have hcovered' := hcovered.posted hposted
  obtain ⟨evs, rfl, -⟩ := hposted
  rw [hino] at hok ⊢
  have hne : ∀ d ∈ k.tree.dirs, some d.ino ≠ some g.ino → d ∈ t.dirs := by
    intro d hd hne
    refine (hdirs d).2 ⟨hd, fun hloc => hne ?_⟩
    rw [k.tree.eq_of_loc hd hg hloc]
  refine ⟨(hsound.unwatch hok).setTree (fun x hx d hd hdino => hne d hd ?_) ?_, ?_⟩
  · have hkept := (List.mem_filter.1 hx).2
    rw [decide_eq_true_eq] at hkept
    rwa [hdino]
  · intro d hd htop hd' e he hle
    exact h.above_readable d ((hdirs d).1 hd).1 htop hd' e ((hdirs e).1 he).1 hle
  · intro d hd htop hd'
    obtain ⟨hd, hloc⟩ := (hdirs d).1 hd
    have hdino : some d.ino ≠ some g.ino := by
      rw [ne_eq, Option.some.injEq]
      intro heq
      exact hloc (congrArg Dir.loc (k.tree.eq_of_ino hd hg heq))
    refine ((hcovered' d hd htop hd').unwatch hdino).setTree ?_
    intro e he hle
    refine (hdirs e).2 ⟨he, fun heq => hloc (hempty d hd ?_)⟩
    rwa [← heq]

/-- A harmless move takes no watch with it. -/
theorem unwatched_of_harmless (h : Sound root k entries) {a p : Loc Side} {Q : Prop}
    (hok : (a.top = .elsewhere ∧ p.top = .elsewhere) ∨
      (∀ d ∈ k.tree.dirs, a ≤ d.loc → d.readable = false) ∨ k.Unwatched a ∧ Q) : k.Unwatched a := by
  intro d hd hle x hx hino
  obtain ⟨d', hd', hino', htop, hreadable, -⟩ := h.watch_dir x hx
  obtain rfl := k.tree.eq_of_ino hd hd' (hino.symm.trans hino'.symm)
  rcases hok with ⟨hside, -⟩ | hunreadable | ⟨hunwatched, -⟩
  · rw [← hle.1, hside] at htop
    cases htop
  · rw [hunreadable d hd hle] at hreadable
    cases hreadable
  · exact hunwatched d hd hle x hx hino

/-- **What is in the tree after a harmless move** has not been moved, or will be found where it
is. -/
theorem mem_rename_of_harmless {a p : Loc Side} {n : Name} {t : Forest Side} {Q : Prop}
    (ht : k.tree.rename a p n = some t)
    (hok : (a.top = .elsewhere ∧ p.top = .elsewhere) ∨
      (∀ d ∈ k.tree.dirs, a ≤ d.loc → d.readable = false) ∨ k.Unwatched a ∧
      (p.top = .elsewhere ∨ Q))
    {d : Dir Side} (hd : d ∈ t.dirs) (htop : d.loc.top = .tree) (hreadable : d.readable = true) :
    (d ∈ k.tree.dirs ∧ ¬a ≤ d.loc) ∨
      Q ∧ ∃ e ∈ k.tree.dirs, a ≤ e.loc ∧ d = { e with loc := Loc.move a (p.child n) e.loc } := by
  rcases Forest.mem_rename ht hd with hold | ⟨e, he, hae, rfl⟩
  · exact .inl hold
  · have hside : p.top = .tree := (Loc.le_move (p.child n) hae).1.trans htop
    rcases hok with ⟨-, helsewhere⟩ | hunreadable | ⟨-, helsewhere | hawaited⟩
    · rw [hside] at helsewhere
      cases helsewhere
    · have hnot : e.readable = false := hunreadable e he hae
      rw [show e.readable = true from hreadable] at hnot
      cases hnot
    · rw [hside] at helsewhere
      cases helsewhere
    · exact .inr ⟨hawaited, e, he, hae, rfl⟩

/-- Renaming a directory. -/
theorem inv_rename (h : Sound root k entries) (hcovered : AllCovered root k entries frames)
    {a p : Loc Side} {n : Name} (hrename : k.rename a p n = some k')
    (hok : (a.top = .elsewhere ∧ p.top = .elsewhere) ∨
      (∀ d ∈ k.tree.dirs, a ≤ d.loc → d.readable = false) ∨
      k.Unwatched a ∧ (p.top = .elsewhere ∨ (∃ g ∈ k.tree.dirs, g.loc = p ∧ g.readable = true) ∧
        (∃ f ∈ frames, f.Reaches k.tree p) ∧ ReadableFrom k.tree a)) :
    Sound root k' entries ∧ AllCovered root k' entries frames := by
  obtain ⟨t, ht, rfl⟩ := Option.map_eq_some_iff.1 hrename
  have hfree := (Forest.rename_dirs ht).1
  have hunwatched := unwatched_of_harmless h hok
  have hafter := fun d hd => mem_rename_of_harmless (d := d) ht hok hd
  have hposted : Posted k (((k.postEntry a IN_MOVED_FROM).postEntry (p.child n) IN_MOVED_TO).post
      (k.inoAt a) IN_MOVE_SELF []) :=
    ((posted_postEntry k a (by decide)).trans (posted_postEntry _ _ (by decide))).trans
      (posted_post _ _ (by decide) _)
  generalize ((k.postEntry a IN_MOVED_FROM).postEntry (p.child n) IN_MOVED_TO).post
      (k.inoAt a) IN_MOVE_SELF [] = k₁ at hposted ⊢
  have hsound := h.posted hposted
  have hcovered' := hcovered.posted hposted
  obtain ⟨evs, rfl, -⟩ := hposted
  -- what is above a place that is not below `a` stays
  have hkeep : ∀ l, ¬a ≤ l → ∀ e ∈ k.tree.dirs, e.loc ≤ l → e ∈ t.dirs := fun l hl e he hle =>
    Forest.mem_rename_of_not_le ht he fun hae => hl (hae.trans hle)
  refine ⟨hsound.setTree (fun x hx d hd hino => ?_) ?_, ?_⟩
  · exact Forest.mem_rename_of_not_le ht hd fun hae => hunwatched d hd hae x hx hino.symm
  · intro d hd htop hd' e he hle
    rcases hafter d hd htop hd' with ⟨hd, -⟩ | ⟨⟨⟨g, hg, hgloc, hgr⟩, -, hfrom⟩, d, hold, had, rfl⟩
    · rcases Forest.mem_rename ht he with ⟨he, -⟩ | ⟨e, he, hae, rfl⟩
      · exact h.above_readable d hd htop hd' e he hle
      · exact absurd ((Loc.le_move _ hae).trans hle) (hfree d hd)
    · rcases Forest.mem_rename ht he with ⟨he, -⟩ | ⟨e, he', hae, rfl⟩
      · -- it is above the directory to which `a` has been moved
        have hep : e.loc ≤ p := by
          rcases Loc.le_or_le hle (Loc.le_move (p.child n) had) with hlow | hhigh
          · rcases Loc.le_child_iff.1 hlow with heq | hlow
            · exact absurd (heq ▸ le_refl _) (hfree e he)
            · exact hlow
          · exact absurd hhigh (hfree e he)
        have hside : p.top = .tree := (Loc.le_move (p.child n) had).1.trans htop
        exact h.above_readable g hg (hgloc ▸ hside) hgr e he (hgloc ▸ hep)
      · exact hfrom d hold had hd' e he' hae (Loc.le_of_move_le hae had hle)
  · intro d hd htop hd'
    rcases hafter d hd htop hd' with ⟨hd, had⟩ | ⟨⟨-, ⟨f, hf, hreaches⟩, -⟩, d, -, had, rfl⟩
    · exact (hcovered' d hd htop hd').setTree (hkeep d.loc had)
    · have hreaches' := hreaches.mono (hkeep p (Forest.not_le_of_rename ht))
      exact .unvisited f hf (hreaches'.trans ((Loc.le_child p n).trans (Loc.le_move _ had)))

theorem posted_touch {wd : ℤ} {mask : BitVec 32} {name : List Char}
    (h : k.touch wd mask name = some k') : Posted k k' := by
  unfold Kernel.touch at h
  simp only at h
  split at h
  · rename_i hguard
    cases h
    refine ⟨[⟨wd, mask, name⟩], rfl, ?_⟩
    intro ev hev
    obtain rfl := List.mem_singleton.1 hev
    exact ⟨hguard.1, hguard.2.1⟩
  · cases h

/-! ### The walk -/

/-- The first frame has been replaced. -/
theorem AllCovered.walk {f : Frame} {walk walk' : List Frame}
    (h : AllCovered root k entries (f :: walk)) (hwalk : walk ⊆ walk')
    (hfirst : ∀ d ∈ k.tree.dirs, d.loc.top = .tree → d.readable = true →
      f.Reaches k.tree d.loc ∨ f.Calls d.loc.names → Covered root k entries walk' d) :
    AllCovered root k entries walk' := by
  intro d hd htop hd'
  cases h d hd htop hd' with
  | watched wd hwd => exact .watched wd hwd
  | unvisited f' hf' hreaches =>
      rcases List.mem_cons.1 hf' with rfl | hf'
      · exact hfirst d hd htop hd' (.inl hreaches)
      · exact .unvisited f' (hwalk hf') hreaches
  | called f' hf' hcalls =>
      rcases List.mem_cons.1 hf' with rfl | hf'
      · exact hfirst d hd htop hd' (.inr hcalls)
      · exact .called f' (hwalk hf') hcalls
  | reported ev path hev hnew hentry hpath hlen =>
      exact .reported ev path hev hnew hentry hpath hlen

/-- There is nothing to be found at the entry. -/
theorem allCovered_missing {names : List Name} {walk : List Frame} {e : Errno}
    (h : AllCovered root k entries (.entering names :: walk))
    (hresolve : k.resolve root (pathOf root names) = .error e) (he : e ≠ .ENAMETOOLONG) :
    AllCovered root k entries walk := by
  refine h.walk (List.Subset.refl _) ?_
  intro d hd htop _ hcases
  rcases hcases with hle | hcalls
  · obtain ⟨e, he', hloc⟩ := k.tree.exists_above hd hle
    have hetop : e.loc.top = .tree := by rw [hloc]
    refine absurd ?_ (resolve_error hresolve he e he' hetop)
    rw [hloc]
  · exact hcalls.elim

/-- The entry is a directory. -/
theorem allCovered_entered {names : List Name} {walk : List Frame}
    (h : AllCovered root k entries (.entering names :: walk)) :
    AllCovered root k entries (.opening names :: walk) := by
  refine h.walk (List.subset_cons_self _ _) ?_
  intro d _ _ _ hcases
  rcases hcases with hle | hcalls
  · exact .unvisited (.opening names) (List.mem_cons_self ..) hle
  · exact hcalls.elim

/-- The directory cannot be read. -/
theorem allCovered_unreadable {names : List Name} {walk : List Frame} {g : Dir Side}
    (hsound : Sound root k entries) (h : AllCovered root k entries (.opening names :: walk))
    (hresolve : k.resolve root (pathOf root names) = .ok g) (hreadable : g.readable = false) :
    AllCovered root k entries walk := by
  obtain ⟨-, hg, hgtop, hgpath⟩ := resolve_eq_ok.1 hresolve
  have hgloc : g.loc = ⟨.tree, names⟩ := Loc.ext hgtop (pathOf_injective root hgpath)
  refine h.walk (List.Subset.refl _) ?_
  intro d hd htop hd' hcases
  rcases hcases with hle | hcalls
  · have hread := hsound.above_readable d hd htop hd' g hg (hgloc ▸ hle)
    rw [hreadable] at hread
    cases hread
  · exact hcalls.elim

/-- The directory has been opened. -/
theorem allCovered_opened {names : List Name} {walk : List Frame} {g : Dir Side}
    (h : AllCovered root k entries (.opening names :: walk))
    (hresolve : k.resolve root (pathOf root names) = .ok g) :
    AllCovered root k entries
      (.calling ⟨names, g.ino, k.tree.children g.loc⟩ :: walk) := by
  obtain ⟨-, hg, hgtop, hgpath⟩ := resolve_eq_ok.1 hresolve
  have hgloc : g.loc = ⟨.tree, names⟩ := Loc.ext hgtop (pathOf_injective root hgpath)
  refine h.walk (List.subset_cons_self _ _) ?_
  intro d hd htop _ hcases
  rcases hcases with hle | hcalls
  · by_cases heq : g.loc = d.loc
    · refine .called _ (List.mem_cons_self ..) ?_
      show names = d.loc.names
      rw [← heq, hgloc]
    · obtain ⟨n, hn⟩ := Loc.exists_child_le (hgloc ▸ hle : g.loc ≤ d.loc) heq
      obtain ⟨e, he, heloc⟩ := k.tree.exists_above hd hn
      refine .unvisited _ (List.mem_cons_self ..) ⟨(n, e.ino), Forest.mem_children.2
        ⟨e, he, heloc, rfl⟩, List.not_mem_nil, ⟨g, hg, rfl, hgloc⟩, e, he, rfl, ?_, heloc ▸ hn⟩
      rw [heloc, hgloc]
      rfl
  · exact hcalls.elim

/-- An entry has been returned. -/
theorem allCovered_returned {st : Stream} {seen : List Name} {walk : List Frame} (n : Name)
    (h : AllCovered root k entries (.reading st seen :: walk)) :
    AllCovered root k entries
      (.entering (st.names ++ [n]) :: .reading st (n :: seen) :: walk) := by
  have hsub : walk ⊆ .entering (st.names ++ [n]) :: .reading st (n :: seen) :: walk :=
    fun f hf => List.mem_cons_of_mem _ (List.mem_cons_of_mem _ hf)
  refine h.walk hsub ?_
  intro d _ _ _ hcases
  rcases hcases with ⟨x, hx, hseen, hg, e, he, hino, hloc, hle⟩ | hcalls
  · by_cases hn : x.1 = n
    · refine .unvisited (.entering (st.names ++ [n])) (List.mem_cons_self ..) ?_
      show (⟨.tree, st.names ++ [n]⟩ : Loc Side) ≤ d.loc
      rwa [← hn, ← hloc]
    · refine .unvisited (.reading st (n :: seen)) (List.mem_cons_of_mem _ (List.mem_cons_self ..))
        ⟨x, hx, ?_, hg, e, he, hino, hloc, hle⟩
      rw [List.mem_cons]
      exact not_or.2 ⟨hn, hseen⟩
  · exact hcalls.elim

/-- The end of the directory has been reached. -/
theorem allCovered_closed {st : Stream} {seen : List Name} {walk : List Frame}
    (h : AllCovered root k entries (.reading st seen :: walk)) (hend : st.AtEnd k.tree seen) :
    AllCovered root k entries walk := by
  refine h.walk (List.Subset.refl _) ?_
  intro d _ _ _ hcases
  rcases hcases with ⟨x, hx, hseen, ⟨g, hg, hgino, hgloc⟩, e, he, hino, hloc, -⟩ | hcalls
  · refine absurd ?_ (hend x hx hseen g hg hgino e he hino)
    rw [hloc, hgloc]
    rfl
  · exact hcalls.elim

/-! ### The functions of the program -/

/-- A watch and an entry have been added. -/
theorem Covered.mono {entries' : List (ℤ × Path)} {d : Dir Side}
    (h : Covered root k entries frames d) (htree : k'.tree = k.tree) (hqueue : k.queue ⊆ k'.queue)
    (hwatches : k.watches ⊆ k'.watches) (hentries : entries ⊆ entries') :
    Covered root k' entries' frames d := by
  cases h with
  | watched wd hwd => exact .watched wd (hwatches hwd)
  | unvisited f hf hreaches => exact .unvisited f hf (htree ▸ hreaches)
  | called f hf hcalls => exact .called f hf hcalls
  | reported ev path hev hnew hentry hpath hlen =>
      exact .reported ev path (hqueue hev) hnew (hentries hentry) hpath hlen

/-- **`watchSubdir`**, when it returns. -/
theorem watchSubdir_ok {l : WatchList.State} {cells : List (Addr × WatchList.SubdirItem)}
    (hrepr : Repr l cells) {newDir : Option Addr} (hfresh : ∀ a ∈ newDir, l.heap.lookup a = none)
    {path : Path} {m : Mem} (h : watchSubdir root newDir path (k, l) = .ok m) :
    ∃ cells' wd, Repr m.2 cells' ∧ items cells' = items cells ++ [(wd, path)] ∧
      k.inotifyAddWatch root path = .ok (wd, m.1) := by
  unfold watchSubdir at h
  simp only at h
  split at h
  · cases h
  · rename_i wd k₁ hwatch
    cases newDir with
    | none => cases h
    | some a =>
        obtain ⟨l', cells', happend, hrepr', hitems⟩ := hrepr.append (hfresh a rfl) wd path
        simp only [happend, Outcome.bind_ok, Outcome.pure_eq] at h
        cases h
        exact ⟨cells', wd, hrepr', hitems, hwatch⟩

/-- `watchSubdir` and the invariant. -/
theorem inv_watchSubdir {l : WatchList.State} {cells : List (Addr × WatchList.SubdirItem)}
    (hrepr : Repr l cells) (hsound : Sound root k (items cells)) {newDir : Option Addr}
    (hfresh : ∀ a ∈ newDir, l.heap.lookup a = none) {path : Path} {m : Mem}
    (h : watchSubdir root newDir path (k, l) = .ok m) :
    ∃ cells', Repr m.2 cells' ∧ Sound root m.1 (items cells') ∧ m.1.tree = k.tree ∧
      (∀ d, Covered root k (items cells) frames d → Covered root m.1 (items cells') frames d) ∧
      ∀ d ∈ k.tree.dirs, d.loc.top = .tree → pathOf root d.loc.names = path →
        ∃ wd, (wd, d.ino) ∈ m.1.watches := by
  obtain ⟨cells', wd, hrepr', hitems, hwatch⟩ := watchSubdir_ok hrepr hfresh h
  obtain ⟨hsound', htree, hqueue, hsub, d, hd, htop, hpath, hmem⟩ := hsound.watch hwatch
  rw [← hitems] at hsound'
  refine ⟨cells', hrepr', hsound', htree, fun d hd => ?_, fun e he hetop hepath => ⟨wd, ?_⟩⟩
  · refine hd.mono htree (fun ev hev => hqueue ▸ hev) hsub ?_
    rw [hitems]
    exact List.subset_append_left _ _
  · have hloc : e.loc = d.loc := Loc.ext (hetop.trans htop.symm)
      (pathOf_injective root (hepath.trans hpath.symm))
    rwa [k.tree.eq_of_loc he hd hloc]

/-- `fn` has been called for a directory that has been opened. -/
theorem inv_called {l : WatchList.State} {cells : List (Addr × WatchList.SubdirItem)} {st : Stream}
    {walk : List Frame} (hrepr : Repr l cells) (hsound : Sound root k (items cells))
    (hcovered : AllCovered root k (items cells) (.calling st :: walk)) {newDir : Option Addr}
    (hfresh : ∀ a ∈ newDir, l.heap.lookup a = none) {m : Mem}
    (h : watchSubdir root newDir (pathOf root st.names) (k, l) = .ok m) :
    Inv root ⟨m.1, m.2, .running (.reading st [] :: walk)⟩ := by
  obtain ⟨cells', hrepr', hsound', htree, hmono, hwatched⟩ := inv_watchSubdir hrepr hsound hfresh h
  refine ⟨cells', hrepr', hsound', ?_⟩
  have hcovered' : AllCovered root m.1 (items cells') (.calling st :: walk) := by
    intro d hd htop hd'
    rw [htree] at hd
    exact hmono d (hcovered d hd htop hd')
  refine hcovered'.walk (List.subset_cons_self _ _) ?_
  intro d hd htop _ hcases
  rcases hcases with hreaches | hcalls
  · exact .unvisited (.reading st []) (List.mem_cons_self ..) hreaches
  · rw [htree] at hd
    have hnames : st.names = d.loc.names := hcalls
    obtain ⟨wd, hwd⟩ := hwatched d hd htop (by rw [hnames])
    exact .watched wd hwd

/-- A function that does not return ends the program. -/
theorem good_after {s : State} {next : Proc} {o : Outcome Mem}
    (h : ∀ m, o = .ok m → Good root ⟨m.1, m.2, next⟩) : Good root (s.after next o) := by
  cases o with
  | ok m => exact h m rfl
  | _ =>
      intro halive
      rcases halive with halive | ⟨walk, halive⟩ <;> cases halive

/-- **The next call of `nftw`.** -/
theorem good_visit {s s' : State} {newDir : Option Addr} (h : Good root s) (hfresh : s.Fresh newDir)
    (hvisit : visit root newDir s = some s') : Good root s' := by
  have hfail : Good root s.nftwFail := by
    intro halive
    rcases halive with halive | ⟨walk, halive⟩ <;> cases halive
  obtain ⟨k, l, proc⟩ := s
  unfold visit at hvisit
  split at hvisit
  · rename_i hproc
    obtain rfl : proc = .starting := hproc
    obtain ⟨cells, hrepr, hsound, hcovered⟩ := h (.inl rfl)
    split at hvisit
    · cases hvisit
      exact hfail
    · cases hvisit
      intro _
      exact ⟨cells, hrepr, hsound, allCovered_entered hcovered⟩
  · rename_i names walk hproc
    obtain rfl : proc = .running (.entering names :: walk) := hproc
    obtain ⟨cells, hrepr, hsound, hcovered⟩ := h (.inr ⟨_, rfl⟩)
    split at hvisit
    · cases hvisit
      exact hfail
    · rename_i e hne hresolve
      cases hvisit
      refine good_after ?_
      intro m hm _
      obtain rfl : (k, l) = m := by simpa [fn] using hm
      exact ⟨cells, hrepr, hsound, allCovered_missing hcovered hresolve fun heq => hne heq⟩
    · cases hvisit
      intro _
      exact ⟨cells, hrepr, hsound, allCovered_entered hcovered⟩
  · rename_i names walk hproc
    obtain rfl : proc = .running (.opening names :: walk) := hproc
    obtain ⟨cells, hrepr, hsound, hcovered⟩ := h (.inr ⟨_, rfl⟩)
    split at hvisit
    · cases hvisit
      exact hfail
    · rename_i g hresolve
      split at hvisit
      · cases hvisit
        intro _
        exact ⟨cells, hrepr, hsound, allCovered_opened hcovered hresolve⟩
      · rename_i hreadable
        cases hvisit
        refine good_after ?_
        intro m hm _
        obtain rfl : (k, l) = m := by simpa [fn] using hm
        exact ⟨cells, hrepr, hsound, allCovered_unreadable hsound hcovered hresolve
          (Bool.not_eq_true _ ▸ hreadable)⟩
  · rename_i st walk hproc
    obtain rfl : proc = .running (.calling st :: walk) := hproc
    obtain ⟨cells, hrepr, hsound, hcovered⟩ := h (.inr ⟨_, rfl⟩)
    cases hvisit
    refine good_after ?_
    intro m hm _
    have hcall : watchSubdir root newDir (pathOf root st.names) (k, l) = .ok m := by
      simpa [fn] using hm
    exact inv_called hrepr hsound hcovered hfresh hcall
  · cases hvisit

/-- **`displayLogEvent`**, when it returns. -/
theorem displayLogEvent_ok {l : WatchList.State} {cells : List (Addr × WatchList.SubdirItem)}
    (hrepr : Repr l cells) {newDir : Option Addr} {ev : Event} (hev : ev.Ignored → ¬ev.NewDir)
    {m : Mem} (h : displayLogEvent root newDir ev (k, l) = .ok m) :
    ∃ path, (ev.wd, path) ∈ items cells ∧
      ((ev.Ignored ∧ m.1 = k ∧ ∃ cells', Repr m.2 cells' ∧
          items cells' = (items cells).eraseP fun x => x.1 = ev.wd) ∨
        (¬ev.Ignored ∧ ¬ev.NewDir ∧ m = (k, l)) ∨
        (¬ev.Ignored ∧ ev.NewDir ∧
          watchSubdir root newDir ((path ++ '/' :: ev.name).take (PATH_MAX - 1)) (k, l) =
            .ok m)) := by
  unfold displayLogEvent displayLogEventWith at h
  rw [hrepr.parentPath, Outcome.bind_ok] at h
  cases hfind : (items cells).find? fun x => x.1 = ev.wd with
  | none => simp [hfind] at h
  | some x =>
      have hmem := List.mem_of_find?_eq_some hfind
      have hwd : x.1 = ev.wd := by simpa using List.find?_some hfind
      refine ⟨x.2, hwd ▸ hmem, ?_⟩
      simp only [hfind, Option.map_some] at h
      by_cases hi : ev.Ignored
      · left
        obtain ⟨l', cells', hrm, hrepr', hitems⟩ :=
          hrepr.remove (hwd ▸ List.mem_map_of_mem hmem : ev.wd ∈ (items cells).map Prod.fst)
        simp only [if_pos hi, hrm, Outcome.bind_ok, if_neg (hev hi), Outcome.pure_eq] at h
        cases h
        exact ⟨hi, rfl, cells', hrepr', hitems⟩
      · right
        simp only [if_neg hi, Outcome.bind_ok] at h
        by_cases hnew : ev.NewDir
        · right
          simp only [if_pos hnew, hrepr.parentPath, Outcome.bind_ok, hfind, Option.map_some] at h
          exact ⟨hi, hnew, h⟩
        · left
          simp only [if_neg hnew, Outcome.pure_eq] at h
          cases h
          exact ⟨hi, hnew, rfl⟩

/-- A directory that is covered while `nftw` has nothing to do is watched or reported. -/
theorem covered_nil {d : Dir Side} (h : Covered root k entries [] d) :
    (∃ wd, (wd, d.ino) ∈ k.watches) ∨ ∃ ev ∈ k.queue, ev.NewDir ∧ ∃ path, (ev.wd, path) ∈ entries ∧
      path ++ '/' :: ev.name = pathOf root d.loc.names ∧
      (pathOf root d.loc.names).length < PATH_MAX := by
  cases h with
  | watched wd hwd => exact .inl ⟨wd, hwd⟩
  | unvisited f hf _ => cases hf
  | called f hf _ => cases hf
  | reported ev path hev hnew hentry hpath hlen =>
      exact .inr ⟨ev, hev, hnew, path, hentry, hpath, hlen⟩

/-- **The next event.** -/
theorem good_handle {s : State} {newDir : Option Addr} {ev : Event} {queue : List Event}
    (h : Good root s) (hfresh : s.Fresh newDir) (hproc : s.proc = .running [])
    (hqueue : s.kernel.queue = ev :: queue) :
    Good root (s.after (.running [])
      (displayLogEvent root newDir ev ({ s.kernel with queue := queue }, s.list))) := by
  refine good_after ?_
  intro m hm _
  obtain ⟨k', l'⟩ := m
  obtain ⟨cells, hrepr, hsound, hcovered⟩ := h (.inr ⟨_, hproc⟩)
  rw [State.frames, hproc] at hcovered
  have hfirst : ev ∈ s.kernel.queue := hqueue ▸ List.mem_cons_self ..
  obtain ⟨path, hpath, hcases⟩ := displayLogEvent_ok hrepr
    (fun hi => (hsound.ignored ev hfirst hi).1) hm
  -- a directory is watched, or one of the remaining events reports it, or this one
  have hrest : ∀ d ∈ s.kernel.tree.dirs, d.loc.top = .tree → d.readable = true →
      Covered root { s.kernel with queue := queue } (items cells) [] d ∨
        (ev.NewDir ∧ path ++ '/' :: ev.name = pathOf root d.loc.names ∧
          (pathOf root d.loc.names).length < PATH_MAX) := by
    intro d hd htop hd'
    rcases covered_nil (hcovered d hd htop hd') with
      ⟨wd, hwd⟩ | ⟨ev', hev', hnew, path', hentry, hname, hlen⟩
    · exact .inl (.watched wd hwd)
    · rw [hqueue] at hev'
      rcases List.mem_cons.1 hev' with rfl | hev'
      · exact .inr ⟨hnew, hsound.path_unique hentry hpath ▸ hname, hlen⟩
      · exact .inl (.reported ev' path' hev' hnew hentry hname hlen)
  rcases hcases with ⟨hi, hk, cells', hrepr', hitems⟩ | ⟨hi, hnew, hk⟩ | ⟨hi, hnew, hcall⟩
  · cases hk
    refine ⟨cells', hrepr', hitems ▸ hsound.popIgnored hqueue hi, ?_⟩
    intro d hd htop hd'
    rcases hrest d hd htop hd' with hcov | ⟨hnew, -⟩
    · rcases covered_nil hcov with ⟨wd, hwd⟩ | ⟨ev', hev', hnew, path', hentry, hname, hlen⟩
      · exact .watched wd hwd
      · refine .reported ev' path' hev' hnew ?_ hname hlen
        rw [hitems]
        refine (List.mem_eraseP_of_neg ?_).2 hentry
        simpa using hsound.endsLast.wd_ne hqueue hi ev' hev'
    · exact absurd hnew (hsound.ignored ev hfirst hi).1
  · cases hk
    refine ⟨cells, hrepr, hsound.pop hqueue hi, ?_⟩
    intro d hd htop hd'
    exact (hrest d hd htop hd').resolve_right fun hreport => hnew hreport.1
  · obtain ⟨cells', hrepr', hsound', htree, hmono, hwatched⟩ :=
      inv_watchSubdir hrepr (hsound.pop hqueue hi) hfresh hcall
    refine ⟨cells', hrepr', hsound', ?_⟩
    intro d hd htop hd'
    rw [htree] at hd
    rcases hrest d hd htop hd' with hcov | ⟨-, hname, hlen⟩
    · exact hmono d hcov
    · obtain ⟨wd, hwd⟩ := hwatched d hd htop (by
        rw [hname, List.take_of_length_le (Nat.le_sub_one_of_lt hlen)])
      exact .watched wd hwd

/-! ### Runs -/

theorem entryCount_eq {l : WatchList.State} {cells : List (Addr × WatchList.SubdirItem)}
    (h : Repr l cells) (wd : ℤ) : entryCount l wd = ((items cells).map Prod.fst).count wd := by
  rw [entryCount, h.printList]

/-- Another process has done something. -/
theorem good_kernel {s : State} (h : Good root s)
    (hk : ∀ cells, Repr s.list cells → Sound root s.kernel (items cells) →
      AllCovered root s.kernel (items cells) s.frames →
      Sound root k' (items cells) ∧ AllCovered root k' (items cells) s.frames) :
    Good root { s with kernel := k' } := by
  intro halive
  obtain ⟨cells, hrepr, hsound, hcovered⟩ := h halive
  exact ⟨cells, hrepr, hk cells hrepr hsound hcovered⟩

/-- **A harmless step keeps the invariant.** -/
theorem good_step {s s' : State} {a : Action} (h : Good root s) (ha : Harmless root s a)
    (hstep : step root s a = some s') : Good root s' := by
  cases a with
  | mkdir p n readable =>
      obtain ⟨k', hk', rfl⟩ := Option.map_eq_some_iff.1 hstep
      exact good_kernel h fun cells _ hsound hcovered => inv_mkdir hsound hcovered hk' ha
  | rmdir l =>
      obtain ⟨k', hk', rfl⟩ := Option.map_eq_some_iff.1 hstep
      refine good_kernel h ?_
      intro cells hrepr hsound hcovered
      refine inv_rmdir hsound hcovered hk' ?_
      intro x hx hino
      rw [← entryCount_eq hrepr]
      exact ha x hx hino
  | rename a p n =>
      obtain ⟨k', hk', rfl⟩ := Option.map_eq_some_iff.1 hstep
      exact good_kernel h fun cells _ hsound hcovered => inv_rename hsound hcovered hk' ha
  | touch wd mask name =>
      obtain ⟨k', hk', rfl⟩ := Option.map_eq_some_iff.1 hstep
      have hposted := posted_touch hk'
      exact good_kernel h fun cells _ hsound hcovered =>
        ⟨hsound.posted hposted, hcovered.posted hposted⟩
  | visit newDir =>
      rw [step] at hstep
      split at hstep
      · rename_i hfresh
        exact good_visit h hfresh hstep
      · cases hstep
  | readdir n =>
      rw [step] at hstep
      split at hstep
      · rename_i st seen walk hproc
        split at hstep
        · cases hstep
        · cases hstep
          obtain ⟨cells, hrepr, hsound, hcovered⟩ := h (.inr ⟨_, hproc⟩)
          rw [State.frames, hproc] at hcovered
          intro _
          exact ⟨cells, hrepr, hsound, allCovered_returned n hcovered⟩
      · cases hstep
  | closedir =>
      rw [step] at hstep
      split at hstep
      · rename_i st seen walk hproc
        split at hstep
        · rename_i hend
          cases hstep
          obtain ⟨cells, hrepr, hsound, hcovered⟩ := h (.inr ⟨_, hproc⟩)
          rw [State.frames, hproc] at hcovered
          intro _
          exact ⟨cells, hrepr, hsound, allCovered_closed hcovered hend⟩
        · cases hstep
      · cases hstep
  | handle newDir =>
      rw [step] at hstep
      split at hstep
      · rename_i ev queue hproc hqueue
        split at hstep
        · rename_i hfresh
          cases hstep
          exact good_handle h hfresh hproc hqueue
        · cases hstep
      · cases hstep

/-- Before the start `nftw` has still to open every directory. -/
theorem good_init {t : Forest Side} (h : ReadableAbove t) : Good root (init t) := by
  refine fun _ =>
    ⟨[], Repr.empty, ⟨h, by simp [init], by simp [init], by simp [init], by simp [init],
    by simp, by simp [init], by simp [init], by simp [init]⟩, fun d _ htop _ => ?_⟩
  exact .unvisited (.entering []) (List.mem_singleton_self _) ⟨htop.symm, List.nil_prefix⟩

/-- **Exactly the readable directories are watched** whenever the walk is over and every event has
been handled, after every run of harmless steps on a tree in which `nftw` gets to every readable
directory. -/
theorem allWatched_of_harmless {t : Forest Side} (ht : ReadableAbove t) {s : State}
    (h : Runs.ReachableVia (step root) (Harmless root) (init t) s) (hquiet : Quiet s) :
    AllWatched root s := by
  have hgood : Good root s :=
    h.invariant (fun _ _ _ hgood ha hstep => good_step hgood ha hstep) (good_init ht)
  obtain ⟨hproc, hqueue⟩ := hquiet
  obtain ⟨cells, hrepr, hsound, hcovered⟩ := hgood (.inr ⟨[], hproc⟩)
  rw [State.frames, hproc] at hcovered
  refine ⟨items cells, hrepr.printList, fun x hx => ?_, fun d hd htop hd' => ?_⟩
  · rcases hsound.entry x hx with ⟨d, hd, hwd, hpath⟩ | ⟨⟨ev, hev, -⟩, -⟩
    · obtain ⟨e, he, hino, htop, hreadable, -⟩ := hsound.watch_dir _ hwd
      obtain rfl := s.kernel.tree.eq_of_ino he hd hino
      exact ⟨e, he, htop, hreadable, hwd, hpath⟩
    · rw [hqueue] at hev
      cases hev
  · rcases covered_nil (hcovered d hd htop hd') with ⟨wd, hwd⟩ | ⟨ev, hev, -⟩
    · obtain ⟨e, he, hino, -, -, hentry⟩ := hsound.watch_dir _ hwd
      obtain rfl := s.kernel.tree.eq_of_ino he hd hino
      exact ⟨wd, hwd, hentry⟩
    · rw [hqueue] at hev
      cases hev

end

/-- A tree with nothing in it. -/
def bareTree : Forest Side where
  dirs := [⟨⟨.tree, []⟩, 0, true⟩]
  nextIno := 1
  nodup_loc := List.nodup_singleton _
  nodup_ino := List.nodup_singleton _
  ino_lt := by simp
  closed := by
    intro d hd l hl
    rw [List.mem_singleton.1 hd] at hl
    rw [List.map_singleton, List.mem_singleton]
    exact Loc.ext hl.1 (List.prefix_nil.1 hl.2)

def nameA : Name := ⟨['a'], by simp, by simp⟩

def nameB : Name := ⟨['b'], by simp, by simp⟩

/-- The walk over a tree with nothing in it. -/
def bareWalk : List Action := [.visit none, .visit none, .visit (some 0), .closedir]

/-- A directory is created, its event is handled, and then one is created in it. -/
theorem allWatched_of_harmless_nested : ∃ s, s.kernel.tree.dirs.length = 3 ∧
    Runs.ReachableVia (step ['r']) (Harmless ['r']) (init bareTree) s ∧ AllWatched ['r'] s := by
  have hend : (Runs.run (fun s a => if Harmless ['r'] s a then step ['r'] s a else none)
      (init bareTree) (bareWalk ++ [.mkdir ⟨.tree, []⟩ nameA true, .handle (some 1),
        .mkdir ⟨.tree, [nameA]⟩ nameB true, .handle (some 2)])).map
      (fun s => (decide (Quiet s), s.kernel.tree.dirs.length)) = some (true, 3) := by
    decide
  obtain ⟨s, hrun, hs⟩ := Option.map_eq_some_iff.1 hend
  rw [Prod.mk.injEq, decide_eq_true_eq] at hs
  have hreach := Runs.ReachableVia.of_run hrun
  refine ⟨s, hs.2, hreach, allWatched_of_harmless ?_ hreach hs.1⟩
  intro d _ _ _ e he _
  rw [List.mem_singleton.1 he]

/-- **A directory that is missed**: it is created in a new one before the event of the latter has
been handled. -/
theorem exists_missed : ∃ s, Runs.Reachable (step ['r']) (init bareTree) s ∧ Quiet s ∧
    ¬AllWatched ['r'] s := by
  have hend : (Runs.run (step ['r']) (init bareTree) (bareWalk ++ [.mkdir ⟨.tree, []⟩ nameA true,
        .mkdir ⟨.tree, [nameA]⟩ nameB true, .handle (some 1)])).map
      (fun s => (decide (Quiet s), s.kernel.watches, s.kernel.tree.dirs)) =
      some (true, [(1, 0), (2, 1)], [⟨⟨.tree, []⟩, 0, true⟩, ⟨⟨.tree, [nameA]⟩, 1, true⟩,
        ⟨⟨.tree, [nameA, nameB]⟩, 2, true⟩]) := by
    decide
  obtain ⟨s, hrun, hs⟩ := Option.map_eq_some_iff.1 hend
  rw [Prod.mk.injEq, Prod.mk.injEq, decide_eq_true_eq] at hs
  obtain ⟨hquiet, hwatches, hdirs⟩ := hs
  refine ⟨s, .of_run hrun, hquiet, fun ⟨_, _, _, hall⟩ => ?_⟩
  obtain ⟨wd, hwd, -⟩ := hall ⟨⟨.tree, [nameA, nameB]⟩, 2, true⟩ (by simp [hdirs]) rfl rfl
  simp [hwatches] at hwd

end Monitor
