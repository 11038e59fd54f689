/-
**What the monitor knows.**

Every entry of the list is about a watch, or about one whose end is on its way in the queue; and
every readable directory of the tree is watched, or will be: `nftw` has still to open it or to call
`fn` for it, or the queue reports it as new under an entry that will be there when its turn comes.
The first part is an invariant of the kernel and the list (`Monitor.Sound`), the second one needs to
know where `nftw` is (`Monitor.Covered`).

Both are lost by a directory that is created where nobody looks, by the removal of a directory that
has two entries, and by moving a readable directory that is watched, or to where nobody looks;
`Monitor.Harmless` says that a step is none of these.

Main definitions:

* `Monitor.Unvisited` — `nftw` has still to open a directory;
* `Monitor.Harmless` — the condition on a step;
* `Monitor.Sound`, `Monitor.Covered` — the two parts of the invariant.

Main results:

* `Monitor.Sound.posted`, `Monitor.Sound.setTree`, `Monitor.Sound.unwatch` — what other processes
  do;
* `Monitor.Sound.watch`, `Monitor.Sound.pop`, `Monitor.Sound.popIgnored` — what the program does.
-/

import NetSysProg.MonitorModel
import NetSysProg.WatchListRefine

set_option relaxedAutoImplicit false
set_option autoImplicit false

namespace Monitor

open DirTree
open WatchList (Path Addr Repr items)

/-! ### The condition -/

/-- `nftw` has still to open a directory that it will find in this one, on the way to a place. -/
def Stream.Reaches (t : Forest Side) (l : Loc Side) (st : Stream) (seen : List Name) : Prop :=
  ∃ x ∈ st.due, x.1 ∉ seen ∧ (∃ g ∈ t.dirs, g.ino = st.ino ∧ g.loc = ⟨.tree, st.names⟩) ∧
    ∃ e ∈ t.dirs, e.ino = x.2 ∧ e.loc = ⟨.tree, st.names ++ [x.1]⟩ ∧ e.loc ≤ l

instance (t : Forest Side) (l : Loc Side) (st : Stream) (seen : List Name) :
    Decidable (st.Reaches t l seen) :=
  inferInstanceAs (Decidable (∃ x ∈ st.due, x.1 ∉ seen ∧
    (∃ g ∈ t.dirs, g.ino = st.ino ∧ g.loc = ⟨.tree, st.names⟩) ∧
      ∃ e ∈ t.dirs, e.ino = x.2 ∧ e.loc = ⟨.tree, st.names ++ [x.1]⟩ ∧ e.loc ≤ l))

/-- The same of a frame. -/
def Frame.Reaches (t : Forest Side) (l : Loc Side) : Frame → Prop
  | .entering names => ⟨.tree, names⟩ ≤ l
  | .opening names => ⟨.tree, names⟩ ≤ l
  | .calling st => st.Reaches t l []
  | .reading st seen => st.Reaches t l seen

instance (t : Forest Side) (l : Loc Side) (f : Frame) : Decidable (f.Reaches t l) :=
  match f with
  | .entering names => inferInstanceAs (Decidable ((⟨.tree, names⟩ : Loc Side) ≤ l))
  | .opening names => inferInstanceAs (Decidable ((⟨.tree, names⟩ : Loc Side) ≤ l))
  | .calling st => inferInstanceAs (Decidable (st.Reaches t l []))
  | .reading st seen => inferInstanceAs (Decidable (st.Reaches t l seen))

/-- What `nftw` has still to do. -/
def State.frames (s : State) : List Frame :=
  match s.proc with
  | .starting => [.entering []]
  | .running walk => walk
  | _ => []

/-- `nftw` has still to open the directory. -/
def Unvisited (s : State) (l : Loc Side) : Prop := ∃ f ∈ s.frames, f.Reaches s.kernel.tree l

instance (s : State) (l : Loc Side) : Decidable (Unvisited s l) :=
  inferInstanceAs (Decidable (∃ f ∈ s.frames, f.Reaches s.kernel.tree l))

/-- The number of entries of the list for a watch. -/
def entryCount (l : WatchList.State) (wd : ℤ) : ℕ :=
  match WatchList.printList l with
  | .ok entries => (entries.map Prod.fst).count wd
  | _ => 0

/-- No directory at the place or below it is watched. -/
def Kernel.Unwatched (k : Kernel) (a : Loc Side) : Prop :=
  ∀ d ∈ k.tree.dirs, a ≤ d.loc → ∀ x ∈ k.watches, x.2 ≠ d.ino

instance (k : Kernel) (a : Loc Side) : Decidable (k.Unwatched a) :=
  inferInstanceAs (Decidable (∀ d ∈ k.tree.dirs, a ≤ d.loc → ∀ x ∈ k.watches, x.2 ≠ d.ino))

/-- From the place on, what is above a readable directory is readable. -/
def ReadableFrom (t : Forest Side) (a : Loc Side) : Prop :=
  ∀ d ∈ t.dirs, a ≤ d.loc → d.readable = true → ∀ e ∈ t.dirs, a ≤ e.loc → e.loc ≤ d.loc →
    e.readable = true

instance (t : Forest Side) (a : Loc Side) : Decidable (ReadableFrom t a) :=
  inferInstanceAs (Decidable (∀ d ∈ t.dirs, a ≤ d.loc → d.readable = true →
    ∀ e ∈ t.dirs, a ≤ e.loc → e.loc ≤ d.loc → e.readable = true))

/-- What is moved to the directory will be found there: `nftw` has still to open it, and then gets
to what is readable. -/
def Awaited (s : State) (a p : Loc Side) : Prop :=
  (∃ g ∈ s.kernel.tree.dirs, g.loc = p ∧ g.readable = true) ∧ Unvisited s p ∧
    ReadableFrom s.kernel.tree a

instance (s : State) (a p : Loc Side) : Decidable (Awaited s a p) :=
  inferInstanceAs (Decidable (_ ∧ _ ∧ _))

/-- **The condition on a step.**  A readable directory is created in the tree only in a directory
that `nftw` has still to open, or in one that is watched, with a path that is not too long; a
directory is removed only when it has at most one entry; and a readable directory is moved out of
the tree, or inside it, only if neither it nor what is below it is watched, and into the tree, or
inside it, only to where `nftw` has still to go. -/
def Harmless (root : Path) (s : State) : Action → Prop
  | .mkdir p n readable => readable = true → p.top = .tree →
      ∃ g ∈ s.kernel.tree.dirs, g.loc = p ∧ (g.readable = true ∧ Unvisited s p ∨
        (∃ x ∈ s.kernel.watches, x.2 = g.ino) ∧
          (pathOf root (p.child n).names).length < PATH_MAX)
  | .rmdir l => ∀ x ∈ s.kernel.watches, some x.2 = s.kernel.inoAt l → entryCount s.list x.1 ≤ 1
  | .rename a p _ => (a.top = .elsewhere ∧ p.top = .elsewhere) ∨
      (∀ d ∈ s.kernel.tree.dirs, a ≤ d.loc → d.readable = false) ∨
      s.kernel.Unwatched a ∧ (p.top = .elsewhere ∨ Awaited s a p)
  | _ => True

instance (root : Path) (s : State) (a : Action) : Decidable (Harmless root s a) :=
  match a with
  | .mkdir p n readable => inferInstanceAs (Decidable (readable = true → p.top = .tree →
      ∃ g ∈ s.kernel.tree.dirs, g.loc = p ∧ (g.readable = true ∧ Unvisited s p ∨
        (∃ x ∈ s.kernel.watches, x.2 = g.ino) ∧
          (pathOf root (p.child n).names).length < PATH_MAX)))
  | .rmdir l => inferInstanceAs (Decidable (∀ x ∈ s.kernel.watches,
      some x.2 = s.kernel.inoAt l → entryCount s.list x.1 ≤ 1))
  | .rename a p _ => inferInstanceAs (Decidable ((a.top = .elsewhere ∧ p.top = .elsewhere) ∨
      (∀ d ∈ s.kernel.tree.dirs, a ≤ d.loc → d.readable = false) ∨
      s.kernel.Unwatched a ∧ (p.top = .elsewhere ∨ Awaited s a p)))
  | .touch _ _ _ => .isTrue trivial
  | .visit _ => .isTrue trivial
  | .readdir _ => .isTrue trivial
  | .closedir => .isTrue trivial
  | .handle _ => .isTrue trivial

/-- What is above a readable directory of the tree is readable, so that `nftw` gets there. -/
def ReadableAbove (t : Forest Side) : Prop :=
  ∀ d ∈ t.dirs, d.loc.top = .tree → d.readable = true →
    ∀ e ∈ t.dirs, e.loc ≤ d.loc → e.readable = true

/-! ### The invariant -/

/-- **The kernel and the list.** -/
structure Sound (root : Path) (k : Kernel) (entries : List (ℤ × Path)) : Prop where
  above_readable : ReadableAbove k.tree
  watch_dir : ∀ x ∈ k.watches, ∃ d ∈ k.tree.dirs, d.ino = x.2 ∧ d.loc.top = .tree ∧
    d.readable = true ∧ (x.1, pathOf root d.loc.names) ∈ entries
  nodup_wd : (k.watches.map Prod.fst).Nodup
  nodup_ino : (k.watches.map Prod.snd).Nodup
  wd_lt : ∀ x ∈ k.watches, x.1 < k.nextWd
  entry : ∀ x ∈ entries,
    (∃ d ∈ k.tree.dirs, (x.1, d.ino) ∈ k.watches ∧ x.2 = pathOf root d.loc.names) ∨
      (∃ ev ∈ k.queue, ev.Ignored ∧ ev.wd = x.1) ∧ (entries.map Prod.fst).count x.1 = 1
  queue_lt : ∀ ev ∈ k.queue, ev.wd < k.nextWd
  ignored : ∀ ev ∈ k.queue, ev.Ignored → ¬ev.NewDir ∧ ev.wd ∉ k.watches.map Prod.fst
  last : k.queue.Pairwise fun ev ev' => ev.Ignored → ev'.wd ≠ ev.wd

/-- **The watches and the queue**: an event that reports the end of a watch is the last one about
it. -/
structure EndsLast (k : Kernel) : Prop where
  nodup_wd : (k.watches.map Prod.fst).Nodup
  ignored : ∀ ev ∈ k.queue, ev.Ignored → ¬ev.NewDir ∧ ev.wd ∉ k.watches.map Prod.fst
  last : k.queue.Pairwise fun ev ev' => ev.Ignored → ev'.wd ≠ ev.wd

theorem Sound.endsLast {root : Path} {k : Kernel} {entries : List (ℤ × Path)}
    (h : Sound root k entries) : EndsLast k := ⟨h.nodup_wd, h.ignored, h.last⟩

/-- `fn` is about to be called for the directory with the names. -/
def Frame.Calls (names : List Name) : Frame → Prop
  | .calling st => st.names = names
  | _ => False

/-- **A directory that is watched, or will be.** -/
inductive Covered (root : Path) (k : Kernel) (entries : List (ℤ × Path)) (frames : List Frame)
    (d : Dir Side) : Prop
  | watched (wd : ℤ) : (wd, d.ino) ∈ k.watches → Covered root k entries frames d
  | unvisited (f : Frame) : f ∈ frames → f.Reaches k.tree d.loc → Covered root k entries frames d
  | called (f : Frame) : f ∈ frames → f.Calls d.loc.names → Covered root k entries frames d
  | reported (ev : Event) (path : Path) : ev ∈ k.queue → ev.NewDir → (ev.wd, path) ∈ entries →
      path ++ '/' :: ev.name = pathOf root d.loc.names →
      (pathOf root d.loc.names).length < PATH_MAX → Covered root k entries frames d

/-- Every readable directory of the tree is. -/
def AllCovered (root : Path) (k : Kernel) (entries : List (ℤ × Path)) (frames : List Frame) :
    Prop :=
  ∀ d ∈ k.tree.dirs, d.loc.top = .tree → d.readable = true → Covered root k entries frames d

/-! ### Looking up paths -/

variable {root : Path} {k : Kernel} {entries : List (ℤ × Path)}

theorem pathOf_injective (root : Path) : Function.Injective (pathOf root) := by
  intro ns ns' h
  exact render_injective (List.append_cancel_left h)

theorem pathOf_child (root : Path) (p : Loc Side) (n : Name) :
    pathOf root (p.child n).names = pathOf root p.names ++ '/' :: n.chars := by
  rw [pathOf, pathOf, Loc.child, render_append, render_singleton, List.append_assoc]

theorem resolve_eq_ok {path : Path} {d : Dir Side} :
    k.resolve root path = .ok d ↔ path.length < PATH_MAX ∧ d ∈ k.tree.dirs ∧ d.loc.top = .tree ∧
      pathOf root d.loc.names = path := by
  unfold Kernel.resolve
  constructor
  · intro h
    split at h
    · cases h
    · rename_i hlen
      split at h
      · cases h
      · rename_i e he
        cases h
        have hfound := List.find?_some he
        rw [decide_eq_true_eq] at hfound
        exact ⟨by omega, List.mem_of_find?_eq_some he, hfound⟩
  · intro ⟨hlen, hd, htop, hpath⟩
    rw [if_neg (by omega)]
    split
    · rename_i hnone
      have hall := List.find?_eq_none.1 hnone d hd
      rw [decide_eq_true_eq] at hall
      exact absurd ⟨htop, hpath⟩ hall
    · rename_i e he
      have hfound := List.find?_some he
      rw [decide_eq_true_eq] at hfound
      have hloc : e.loc = d.loc := Loc.ext (hfound.1.trans htop.symm)
        (pathOf_injective root (hfound.2.trans hpath.symm))
      rw [k.tree.eq_of_loc (List.mem_of_find?_eq_some he) hd hloc]

/-- What cannot be found is not there, or has too long a path. -/
theorem resolve_error {path : Path} {e : Errno} (h : k.resolve root path = .error e)
    (he : e ≠ .ENAMETOOLONG) (d : Dir Side) (hd : d ∈ k.tree.dirs) (htop : d.loc.top = .tree) :
    pathOf root d.loc.names ≠ path := by
  intro hpath
  have hlen : path.length < PATH_MAX := by
    by_contra hlen
    rw [Kernel.resolve, if_pos (by omega)] at h
    cases h
    exact he rfl
  rw [resolve_eq_ok.2 ⟨hlen, hd, htop, hpath⟩] at h
  cases h

/-- What `inotify_add_watch` does. -/
theorem inotifyAddWatch_cases {path : Path} {wd : ℤ} {k' : Kernel}
    (h : k.inotifyAddWatch root path = .ok (wd, k')) :
    ∃ d ∈ k.tree.dirs, d.loc.top = .tree ∧ d.readable = true ∧ pathOf root d.loc.names = path ∧
      ((k' = k ∧ (wd, d.ino) ∈ k.watches) ∨
        (wd = k.nextWd ∧ (∀ x ∈ k.watches, x.2 ≠ d.ino) ∧
          k' =
            { k with watches := k.watches ++ [(k.nextWd, d.ino)], nextWd := k.nextWd + 1 })) := by
  unfold Kernel.inotifyAddWatch at h
  split at h
  · cases h
  · rename_i d hd
    obtain ⟨-, hmem, htop, hpath⟩ := resolve_eq_ok.1 hd
    split at h
    · cases h
    · rename_i hreadable
      rw [Bool.not_eq_false] at hreadable
      refine ⟨d, hmem, htop, hreadable, hpath, ?_⟩
      split at h
      · rename_i x hx
        cases h
        have hino : x.2 = d.ino := by simpa using List.find?_some hx
        exact .inl ⟨rfl, hino ▸ List.mem_of_find?_eq_some hx⟩
      · rename_i hnone
        cases h
        refine .inr ⟨rfl, fun x hx => ?_, rfl⟩
        simpa using List.find?_eq_none.1 hnone x hx

/-! ### Events -/

/-- Events of watches have been added that do not report the end of one. -/
def Posted (k k' : Kernel) : Prop :=
  ∃ evs : List Event, k' = { k with queue := k.queue ++ evs } ∧
    ∀ ev ∈ evs, ev.wd ∈ k.watches.map Prod.fst ∧ ¬ev.Ignored

theorem Posted.refl (k : Kernel) : Posted k k := by
  refine ⟨[], ?_, by simp⟩
  rw [List.append_nil]

theorem Posted.trans {k k' k'' : Kernel} (h : Posted k k') (h' : Posted k' k'') : Posted k k'' := by
  obtain ⟨evs, rfl, hevs⟩ := h
  obtain ⟨evs', rfl, hevs'⟩ := h'
  refine ⟨evs ++ evs', by rw [List.append_assoc], ?_⟩
  intro ev hev
  rcases List.mem_append.1 hev with hev | hev
  · exact hevs ev hev
  · exact hevs' ev hev

theorem mem_post {ino : Option ℕ} {mask : BitVec 32} {name : List Char} {ev : Event} :
    ev ∈ (k.watches.filter fun x => some x.2 = ino).map (fun x => (⟨x.1, mask, name⟩ : Event)) ↔
      ∃ x ∈ k.watches, some x.2 = ino ∧ ev = ⟨x.1, mask, name⟩ := by
  simp only [List.mem_map, List.mem_filter, decide_eq_true_eq, and_assoc]
  exact exists_congr fun x => and_congr_right fun _ => and_congr_right fun _ => eq_comm

theorem posted_post (k : Kernel) (ino : Option ℕ) {mask : BitVec 32}
    (hmask : mask &&& IN_IGNORED = 0)
    (name : List Char) : Posted k (k.post ino mask name) := by
  refine ⟨_, rfl, ?_⟩
  intro ev hev
  obtain ⟨x, hx, -, rfl⟩ := mem_post.1 hev
  exact ⟨List.mem_map_of_mem hx, not_not.2 hmask⟩

theorem posted_postEntry (k : Kernel) (l : Loc Side) {mask : BitVec 32}
    (hmask : (mask ||| IN_ISDIR) &&& IN_IGNORED = 0) : Posted k (k.postEntry l mask) := by
  unfold Kernel.postEntry
  split
  · exact Posted.refl k
  · exact posted_post k _ hmask _

theorem postEntry_child (k : Kernel) (p : Loc Side) (n : Name) (mask : BitVec 32) :
    k.postEntry (p.child n) mask = k.post (k.inoAt p) (mask ||| IN_ISDIR) n.chars := by
  simp [Kernel.postEntry, Loc.child]

theorem EndsLast.posted {k' : Kernel} (h : EndsLast k) (hposted : Posted k k') : EndsLast k' := by
  obtain ⟨evs, rfl, hevs⟩ := hposted
  refine ⟨h.nodup_wd, fun ev hev hi => ?_, ?_⟩
  · rcases List.mem_append.1 hev with hev | hev
    · exact h.ignored ev hev hi
    · exact absurd hi (hevs ev hev).2
  · refine List.pairwise_append.2 ⟨h.last, List.pairwise_of_forall_mem_list ?_, ?_⟩
    · intro ev hev _ _ hi
      exact absurd hi (hevs ev hev).2
    · intro ev hev ev' hev' hi heq
      exact (h.ignored ev hev hi).2 (heq ▸ (hevs ev' hev').1)

theorem Sound.posted {k' : Kernel} (h : Sound root k entries) (hposted : Posted k k') :
    Sound root k' entries := by
  obtain ⟨hnodup, hignored, hlast⟩ := h.endsLast.posted hposted
  obtain ⟨evs, rfl, hevs⟩ := hposted
  refine ⟨h.above_readable, h.watch_dir, hnodup, h.nodup_ino, h.wd_lt, fun x hx => ?_,
    fun ev hev => ?_, hignored, hlast⟩
  · rcases h.entry x hx with hwatched | ⟨⟨ev, hev, hi⟩, hcount⟩
    · exact .inl hwatched
    · exact .inr ⟨⟨ev, List.mem_append_left _ hev, hi⟩, hcount⟩
  · rcases List.mem_append.1 hev with hev | hev
    · exact h.queue_lt ev hev
    · obtain ⟨x, hx, heq⟩ := List.mem_map.1 (hevs ev hev).1
      exact heq ▸ h.wd_lt x hx

theorem Covered.posted {k' : Kernel} {frames : List Frame} {d : Dir Side}
    (h : Covered root k entries frames d) (hposted : Posted k k') :
    Covered root k' entries frames d := by
  obtain ⟨evs, rfl, -⟩ := hposted
  cases h with
  | watched wd hwd => exact .watched wd hwd
  | unvisited f hf hreaches => exact .unvisited f hf hreaches
  | called f hf hcalls => exact .called f hf hcalls
  | reported ev path hev hnew hentry hpath hlen =>
      exact .reported ev path (List.mem_append_left _ hev) hnew hentry hpath hlen

theorem AllCovered.posted {k' : Kernel} {frames : List Frame}
    (h : AllCovered root k entries frames) (hposted : Posted k k') :
    AllCovered root k' entries frames := by
  obtain ⟨evs, rfl, -⟩ := id hposted
  intro d hd htop hreadable
  exact (h d hd htop hreadable).posted hposted

/-! ### Other directories -/

/-- Another forest in which the watched directories are as before. -/
theorem Sound.setTree (h : Sound root k entries) {t : Forest Side}
    (hkeep : ∀ x ∈ k.watches, ∀ d ∈ k.tree.dirs, d.ino = x.2 → d ∈ t.dirs)
    (habove : ReadableAbove t) : Sound root { k with tree := t } entries := by
  refine ⟨habove, fun x hx => ?_, h.nodup_wd, h.nodup_ino, h.wd_lt, fun x hx => ?_, h.queue_lt,
    h.ignored, h.last⟩
  · obtain ⟨d, hd, hino, hrest⟩ := h.watch_dir x hx
    exact ⟨d, hkeep x hx d hd hino, hino, hrest⟩
  · rcases h.entry x hx with ⟨d, hd, hwd, hpath⟩ | hignored
    · exact .inl ⟨d, hkeep _ hwd d hd rfl, hwd, hpath⟩
    · exact .inr hignored

theorem Stream.Reaches.mono {t t' : Forest Side} {l : Loc Side} {st : Stream} {seen : List Name}
    (h : st.Reaches t l seen) (hkeep : ∀ e ∈ t.dirs, e.loc ≤ l → e ∈ t'.dirs) :
    st.Reaches t' l seen := by
  obtain ⟨x, hx, hseen, ⟨g, hg, hgino, hgloc⟩, e, he, heino, heloc, hle⟩ := h
  have hge : g.loc ≤ e.loc := by
    rw [hgloc, heloc]
    exact @Loc.le_child Side ⟨.tree, st.names⟩ x.1
  exact ⟨x, hx, hseen, ⟨g, hkeep g hg (hge.trans hle), hgino, hgloc⟩, e, hkeep e he hle, heino,
    heloc, hle⟩

theorem Frame.Reaches.mono {t t' : Forest Side} {l : Loc Side} {f : Frame} (h : f.Reaches t l)
    (hkeep : ∀ e ∈ t.dirs, e.loc ≤ l → e ∈ t'.dirs) : f.Reaches t' l := by
  cases f with
  | entering names => exact h
  | opening names => exact h
  | calling st => exact Stream.Reaches.mono h hkeep
  | reading st seen => exact Stream.Reaches.mono h hkeep

theorem Stream.Reaches.trans {t : Forest Side} {l l' : Loc Side} {st : Stream} {seen : List Name}
    (h : st.Reaches t l seen) (hle : l ≤ l') : st.Reaches t l' seen := by
  obtain ⟨x, hx, hseen, hg, e, he, heino, heloc, hel⟩ := h
  exact ⟨x, hx, hseen, hg, e, he, heino, heloc, hel.trans hle⟩

theorem Frame.Reaches.trans {t : Forest Side} {l l' : Loc Side} {f : Frame} (h : f.Reaches t l)
    (hle : l ≤ l') : f.Reaches t l' := by
  cases f with
  | entering names => exact @le_trans (Loc Side) _ ⟨.tree, names⟩ l l' h hle
  | opening names => exact @le_trans (Loc Side) _ ⟨.tree, names⟩ l l' h hle
  | calling st => exact Stream.Reaches.trans h hle
  | reading st seen => exact Stream.Reaches.trans h hle

theorem Covered.setTree {frames : List Frame} {d : Dir Side} (h : Covered root k entries frames d)
    {t : Forest Side} (hkeep : ∀ e ∈ k.tree.dirs, e.loc ≤ d.loc → e ∈ t.dirs) :
    Covered root { k with tree := t } entries frames d := by
  cases h with
  | watched wd hwd => exact .watched wd hwd
  | unvisited f hf hreaches => exact .unvisited f hf (hreaches.mono hkeep)
  | called f hf hcalls => exact .called f hf hcalls
  | reported ev path hev hnew hentry hpath hlen =>
      exact .reported ev path hev hnew hentry hpath hlen

/-- The kernel drops the watch of a directory. -/
def Kernel.unwatch (k : Kernel) (ino : Option ℕ) : Kernel :=
  { k.post ino IN_IGNORED [] with watches := k.watches.filter fun x => some x.2 ≠ ino }

theorem ignored_post (wd : ℤ) : Event.Ignored ⟨wd, IN_IGNORED, []⟩ := by
  show IN_IGNORED &&& IN_IGNORED ≠ 0
  decide

theorem not_newDir_post (wd : ℤ) : ¬Event.NewDir ⟨wd, IN_IGNORED, []⟩ := by
  show ¬(IN_IGNORED &&& IN_ISDIR ≠ 0 ∧ IN_IGNORED &&& IN_CREATE ≠ 0)
  decide

theorem EndsLast.eq_of_wd (h : EndsLast k) {x y : ℤ × ℕ} (hx : x ∈ k.watches) (hy : y ∈ k.watches)
    (heq : x.1 = y.1) : x = y := List.inj_on_of_nodup_map h.nodup_wd hx hy heq

theorem mem_watches_unwatch {ino : Option ℕ} {x : ℤ × ℕ} :
    x ∈ (k.unwatch ino).watches ↔ x ∈ k.watches ∧ some x.2 ≠ ino := by
  simp [Kernel.unwatch]

theorem mem_queue_unwatch {ino : Option ℕ} {ev : Event} : ev ∈ (k.unwatch ino).queue ↔
    ev ∈ k.queue ∨ ∃ x ∈ k.watches, some x.2 = ino ∧ ev = ⟨x.1, IN_IGNORED, []⟩ :=
  List.mem_append.trans (or_congr_right mem_post)

theorem EndsLast.unwatch (h : EndsLast k) (ino : Option ℕ) : EndsLast (k.unwatch ino) := by
  have hsub : (k.watches.filter fun x => some x.2 ≠ ino).Sublist k.watches := List.filter_sublist
  refine ⟨h.nodup_wd.sublist (hsub.map _), fun ev hev hi => ?_, ?_⟩
  · rcases mem_queue_unwatch.1 hev with hev | ⟨x, hx, hino, rfl⟩
    · obtain ⟨hnew, hwd⟩ := h.ignored ev hev hi
      exact ⟨hnew, fun hmem => hwd ((hsub.map Prod.fst).subset hmem)⟩
    · refine ⟨not_newDir_post _, ?_⟩
      intro hmem
      obtain ⟨y, hy, heq⟩ := List.mem_map.1 hmem
      obtain ⟨hy, hne⟩ := mem_watches_unwatch.1 hy
      exact hne (h.eq_of_wd hy hx heq ▸ hino)
  · refine List.pairwise_append.2 ⟨h.last, ?_, fun ev hev ev' hev' hi heq => ?_⟩
    · rw [List.pairwise_map]
      have hnodup : (k.watches.filter fun x => some x.2 = ino).Pairwise fun x y => x.1 ≠ y.1 :=
        (List.pairwise_map.1 h.nodup_wd).sublist List.filter_sublist
      exact hnodup.imp fun hne _ heq => hne heq.symm
    · obtain ⟨x, hx, -, rfl⟩ := mem_post.1 hev'
      exact (h.ignored ev hev hi).2 (heq ▸ List.mem_map_of_mem hx)

theorem Sound.unwatch (h : Sound root k entries) {ino : Option ℕ}
    (hcount : ∀ x ∈ k.watches, some x.2 = ino → (entries.map Prod.fst).count x.1 ≤ 1) :
    Sound root (k.unwatch ino) entries := by
  obtain ⟨hnodup, hignored, hlast⟩ := h.endsLast.unwatch ino
  have hsub : (k.watches.filter fun x => some x.2 ≠ ino).Sublist k.watches := List.filter_sublist
  refine ⟨h.above_readable, fun x hx => h.watch_dir x (mem_watches_unwatch.1 hx).1, hnodup,
    h.nodup_ino.sublist (hsub.map _), fun x hx => h.wd_lt x (mem_watches_unwatch.1 hx).1,
    fun x hx => ?_, fun ev hev => ?_, hignored, hlast⟩
  · rcases h.entry x hx with ⟨d, hd, hwd, hpath⟩ | ⟨⟨ev, hev, hi⟩, hone⟩
    · by_cases hino : some d.ino = ino
      · refine .inr ⟨⟨⟨x.1, IN_IGNORED, []⟩, mem_queue_unwatch.2 (.inr ⟨_, hwd, hino, rfl⟩),
          ignored_post _, rfl⟩, ?_⟩
        have hle : (entries.map Prod.fst).count x.1 ≤ 1 := hcount _ hwd hino
        have hpos := List.count_pos_iff.2 (List.mem_map_of_mem (f := Prod.fst) hx)
        omega
      · exact .inl ⟨d, hd, mem_watches_unwatch.2 ⟨hwd, hino⟩, hpath⟩
    · exact .inr ⟨⟨ev, mem_queue_unwatch.2 (.inl hev), hi⟩, hone⟩
  · rcases mem_queue_unwatch.1 hev with hev | ⟨x, hx, -, rfl⟩
    · exact h.queue_lt ev hev
    · exact h.wd_lt x hx

/-! ### The program -/

theorem count_append_of_ne {wd w : ℤ} (hne : wd ≠ w) (path : Path) :
    ((entries ++ [(wd, path)]).map Prod.fst).count w = (entries.map Prod.fst).count w := by
  rw [List.map_append, List.map_singleton, List.count_append, List.count_singleton]
  simp [hne]

/-- Another entry for a watch. -/
theorem Sound.addEntry (h : Sound root k entries) {d : Dir Side} (hd : d ∈ k.tree.dirs) {wd : ℤ}
    (hwd : (wd, d.ino) ∈ k.watches) :
    Sound root k (entries ++ [(wd, pathOf root d.loc.names)]) := by
  refine ⟨h.above_readable, fun x hx => ?_, h.nodup_wd, h.nodup_ino, h.wd_lt, fun x hx => ?_,
    h.queue_lt, h.ignored, h.last⟩
  · obtain ⟨e, he, hino, htop, hreadable, hmem⟩ := h.watch_dir x hx
    exact ⟨e, he, hino, htop, hreadable, List.mem_append_left _ hmem⟩
  · rcases List.mem_append.1 hx with hx | hx
    · rcases h.entry x hx with hwatched | ⟨⟨ev, hev, hi, hevwd⟩, hone⟩
      · exact .inl hwatched
      · refine .inr ⟨⟨ev, hev, hi, hevwd⟩, (count_append_of_ne (fun heq => ?_) _).trans hone⟩
        refine (h.ignored ev hev hi).2 ?_
        rw [hevwd, ← heq]
        exact List.mem_map_of_mem hwd
    · obtain rfl := List.mem_singleton.1 hx
      exact .inl ⟨d, hd, hwd, rfl⟩

/-- The kernel puts a watch on a directory. -/
def Kernel.addWatch (k : Kernel) (ino : ℕ) : Kernel :=
  { k with watches := k.watches ++ [(k.nextWd, ino)], nextWd := k.nextWd + 1 }

theorem EndsLast.addWatch (h : EndsLast k) (ino : ℕ) (hwatches : ∀ x ∈ k.watches, x.1 ≠ k.nextWd)
    (hqueue : ∀ ev ∈ k.queue, ev.Ignored → ev.wd ≠ k.nextWd) : EndsLast (k.addWatch ino) := by
  have hmap : (k.addWatch ino).watches.map Prod.fst = k.watches.map Prod.fst ++ [k.nextWd] := by
    rw [Kernel.addWatch, List.map_append, List.map_singleton]
  refine ⟨?_, fun ev hev hi => ?_, h.last⟩
  · rw [hmap]
    refine List.nodup_append.2 ⟨h.nodup_wd, List.nodup_singleton _, fun w hw v hv => ?_⟩
    obtain ⟨x, hx, rfl⟩ := List.mem_map.1 hw
    rw [List.mem_singleton.1 hv]
    exact hwatches x hx
  · obtain ⟨hnewDir, hwd⟩ := h.ignored ev hev hi
    refine ⟨hnewDir, ?_⟩
    rw [hmap, List.mem_append, List.mem_singleton]
    rintro (hmem | heq)
    · exact hwd hmem
    · exact hqueue ev hev hi heq

/-- A new watch with its entry. -/
theorem Sound.addWatch (h : Sound root k entries) {d : Dir Side} (hd : d ∈ k.tree.dirs)
    (htop : d.loc.top = .tree) (hreadable : d.readable = true)
    (hnew : ∀ x ∈ k.watches, x.2 ≠ d.ino) :
    Sound root { k with watches := k.watches ++ [(k.nextWd, d.ino)], nextWd := k.nextWd + 1 }
      (entries ++ [(k.nextWd, pathOf root d.loc.names)]) := by
  obtain ⟨hnodup, hignored, hlast⟩ := h.endsLast.addWatch d.ino
    (fun x hx => Int.ne_of_lt (h.wd_lt x hx)) fun ev hev _ => Int.ne_of_lt (h.queue_lt ev hev)
  refine ⟨h.above_readable, fun x hx => ?_, hnodup, ?_, fun x hx => ?_, fun x hx => ?_,
    fun ev hev => Int.lt_add_one_of_le (Int.le_of_lt (h.queue_lt ev hev)), hignored, hlast⟩
  · rcases List.mem_append.1 hx with hx | hx
    · obtain ⟨e, he, hino, hetop, her, hmem⟩ := h.watch_dir x hx
      exact ⟨e, he, hino, hetop, her, List.mem_append_left _ hmem⟩
    · obtain rfl := List.mem_singleton.1 hx
      exact ⟨d, hd, rfl, htop, hreadable, by simp⟩
  · rw [List.map_append, List.map_singleton]
    refine List.nodup_append.2 ⟨h.nodup_ino, List.nodup_singleton _, fun i hi j hj => ?_⟩
    obtain ⟨x, hx, rfl⟩ := List.mem_map.1 hi
    rw [List.mem_singleton.1 hj]
    exact hnew x hx
  · rcases List.mem_append.1 hx with hx | hx
    · exact Int.lt_add_one_of_le (Int.le_of_lt (h.wd_lt x hx))
    · obtain rfl := List.mem_singleton.1 hx
      exact Int.lt_add_one_of_le (Int.le_refl _)
  · rcases List.mem_append.1 hx with hx | hx
    · rcases h.entry x hx with ⟨e, he, hwd, hpath⟩ | ⟨⟨ev, hev, hi, hevwd⟩, hone⟩
      · exact .inl ⟨e, he, List.mem_append_left _ hwd, hpath⟩
      · refine .inr ⟨⟨ev, hev, hi, hevwd⟩, (count_append_of_ne (fun heq => ?_) _).trans hone⟩
        have hlt := h.queue_lt ev hev
        omega
    · obtain rfl := List.mem_singleton.1 hx
      exact .inl ⟨d, hd, by simp, rfl⟩

/-- **An entry for a directory that is watched now.** -/
theorem Sound.watch (h : Sound root k entries) {path : Path} {wd : ℤ} {k' : Kernel}
    (hwatch : k.inotifyAddWatch root path = .ok (wd, k')) :
    Sound root k' (entries ++ [(wd, path)]) ∧ k'.tree = k.tree ∧ k'.queue = k.queue ∧
      k.watches ⊆ k'.watches ∧
      ∃ d ∈ k.tree.dirs, d.loc.top = .tree ∧ pathOf root d.loc.names = path ∧
        (wd, d.ino) ∈ k'.watches := by
  obtain ⟨d, hd, htop, hreadable, rfl, hcases⟩ := inotifyAddWatch_cases hwatch
  rcases hcases with ⟨rfl, hwd⟩ | ⟨rfl, hnew, rfl⟩
  · exact ⟨h.addEntry hd hwd, rfl, rfl, List.Subset.refl _, d, hd, htop, rfl, hwd⟩
  · exact ⟨h.addWatch hd htop hreadable hnew, rfl, rfl, List.subset_append_left _ _, d, hd, htop,
      rfl, by simp⟩

theorem EndsLast.pop (h : EndsLast k) {ev : Event} {queue : List Event}
    (hqueue : k.queue = ev :: queue) :
    EndsLast { k with queue := queue } := by
  have hlast := h.last
  rw [hqueue] at hlast
  exact ⟨h.nodup_wd, fun ev' hev' => h.ignored ev' (hqueue ▸ List.mem_cons_of_mem _ hev'),
    (List.pairwise_cons.1 hlast).2⟩

/-- No event about a watch follows the one that reports its end. -/
theorem EndsLast.wd_ne (h : EndsLast k) {ev : Event} {queue : List Event}
    (hqueue : k.queue = ev :: queue) (hi : ev.Ignored) : ∀ ev' ∈ queue, ev'.wd ≠ ev.wd := by
  have hlast := h.last
  rw [hqueue] at hlast
  exact fun ev' hev' => (List.pairwise_cons.1 hlast).1 ev' hev' hi

/-- An event that does not report the end of a watch has been handled. -/
theorem Sound.pop (h : Sound root k entries) {ev : Event} {queue : List Event}
    (hqueue : k.queue = ev :: queue) (hi : ¬ev.Ignored) :
    Sound root { k with queue := queue } entries := by
  obtain ⟨hnodup, hignored, hlast⟩ := h.endsLast.pop hqueue
  refine ⟨h.above_readable, h.watch_dir, hnodup, h.nodup_ino, h.wd_lt, fun x hx => ?_,
    fun ev' hev' => h.queue_lt ev' (hqueue ▸ List.mem_cons_of_mem _ hev'), hignored, hlast⟩
  rcases h.entry x hx with hwatched | ⟨⟨ev', hev', hi', hwd⟩, hone⟩
  · exact .inl hwatched
  · rw [hqueue] at hev'
    rcases List.mem_cons.1 hev' with rfl | hev'
    · exact absurd hi' hi
    · exact .inr ⟨⟨ev', hev', hi', hwd⟩, hone⟩

theorem map_eraseP (entries : List (ℤ × Path)) (wd : ℤ) :
    (entries.eraseP fun x => x.1 = wd).map Prod.fst = (entries.map Prod.fst).erase wd := by
  rw [List.erase_eq_eraseP, List.eraseP_map]
  congr 2
  funext x
  rw [Function.comp_apply, beq_eq_decide]
  exact decide_eq_decide.2 eq_comm

/-- An event that reports the end of a watch has been handled. -/
theorem Sound.popIgnored (h : Sound root k entries) {ev : Event} {queue : List Event}
    (hqueue : k.queue = ev :: queue) (hi : ev.Ignored) :
    Sound root { k with queue := queue } (entries.eraseP fun x => x.1 = ev.wd) := by
  obtain ⟨hnodup, hignored, hlast⟩ := h.endsLast.pop hqueue
  have hunwatched := (h.ignored ev (hqueue ▸ List.mem_cons_self ..) hi).2
  refine ⟨h.above_readable, fun x hx => ?_, hnodup, h.nodup_ino, h.wd_lt, fun x hx => ?_,
    fun ev' hev' => h.queue_lt ev' (hqueue ▸ List.mem_cons_of_mem _ hev'), hignored, hlast⟩
  · obtain ⟨d, hd, hino, htop, hreadable, hentry⟩ := h.watch_dir x hx
    refine ⟨d, hd, hino, htop, hreadable, (List.mem_eraseP_of_neg ?_).2 hentry⟩
    rw [decide_eq_true_eq]
    intro heq
    exact hunwatched (heq ▸ List.mem_map_of_mem hx)
  · have hx' : x.1 ∈ (entries.map Prod.fst).erase ev.wd :=
      map_eraseP entries ev.wd ▸ List.mem_map_of_mem hx
    rw [map_eraseP]
    rcases h.entry x (List.mem_of_mem_eraseP hx) with hwatched | ⟨⟨ev', hev', hi', hwd⟩, hone⟩
    · exact .inl hwatched
    · have hne : x.1 ≠ ev.wd := by
        intro heq
        have hpos := List.count_pos_iff.2 hx'
        rw [heq] at hone hpos
        rw [List.count_erase_self] at hpos
        omega
      rw [hqueue] at hev'
      rcases List.mem_cons.1 hev' with rfl | hev'
      · exact absurd hwd.symm hne
      · refine .inr ⟨⟨ev', hev', hi', hwd⟩, ?_⟩
        rwa [List.count_erase_of_ne hne]

/-- A watch has one path. -/
theorem Sound.path_unique (h : Sound root k entries) {wd : ℤ} {p p' : Path}
    (hp : (wd, p) ∈ entries) (hp' : (wd, p') ∈ entries) : p = p' := by
  rcases h.entry _ hp with ⟨d, hd, hwd, hpath⟩ | ⟨⟨ev, hev, hi, hevwd⟩, hone⟩
  · rcases h.entry _ hp' with ⟨d', hd', hwd', hpath'⟩ | ⟨⟨ev, hev, hi, hevwd⟩, -⟩
    · have hino := congrArg Prod.snd (h.endsLast.eq_of_wd hwd hwd' rfl)
      rw [← k.tree.eq_of_ino hd hd' hino] at hpath'
      exact hpath.trans hpath'.symm
    · refine absurd ?_ (h.ignored ev hev hi).2
      rw [hevwd]
      exact List.mem_map_of_mem hwd
  · by_contra hne
    have hpair : [(wd, p), (wd, p')].Nodup := by simp [hne]
    have hsub : [(wd, p), (wd, p')] ⊆ entries := by simp [hp, hp']
    have hle := (List.subperm_of_subset hpair hsub).countP_le fun x => x.1 == wd
    rw [List.count, List.countP_map] at hone
    have htwo : [(wd, p), (wd, p')].countP (fun x => x.1 == wd) = 2 := by simp
    rw [htwo] at hle
    exact absurd (hle.trans hone.le) (by decide)

end Monitor
