/-
**Trees of directories.**

A directory is found at a place, which is one of several tops and the names that lead down from it,
and it keeps its inode number when it is moved.  A forest is a list of directories in which no place
and no inode number occurs twice and every place above a directory is one of a directory; creating,
removing and renaming a directory keep this, and fail where they would not.

Main definitions:

* `DirTree.Loc` — a place, ordered by "above or equal";
* `DirTree.Forest`, with `Forest.mkdir`, `Forest.rmdir` and `Forest.rename`;
* `DirTree.render` — the names with a slash before each of them.

Main results:

* `DirTree.render_injective` — a path tells its names;
* `DirTree.Loc.move_injective`, `DirTree.Loc.exists_move` — how a subtree is moved;
* `DirTree.Forest.mem_mkdir`, `DirTree.Forest.mem_rmdir`, `DirTree.Forest.mem_rename` — **what is
  there afterwards**.
-/

import Mathlib.Data.List.Nodup
import Mathlib.Data.List.Infix
import Mathlib.Order.Defs.PartialOrder
import Mathlib.Tactic.Common

set_option relaxedAutoImplicit false
set_option autoImplicit false

namespace DirTree

/-! ### Names and paths -/

/-- The name of a directory entry. -/
structure Name where
  chars : List Char
  ne_nil : chars ≠ []
  no_slash : '/' ∉ chars
  deriving DecidableEq

/-- The path that leads down the names. -/
def render (names : List Name) : List Char := names.flatMap fun n => '/' :: n.chars

theorem render_append (ns ns' : List Name) : render (ns ++ ns') = render ns ++ render ns' :=
  List.flatMap_append

theorem render_singleton (n : Name) : render [n] = '/' :: n.chars := List.flatMap_singleton _ _

/-- The first name of a path is what stands before the second slash. -/
theorem takeWhile_render (n : Name) (ns : List Name) :
    (n.chars ++ render ns).takeWhile (· ≠ '/') = n.chars := by
  have hn : ∀ c ∈ n.chars, decide (c ≠ '/') = true := by
    intro c hc
    rw [decide_eq_true_eq]
    rintro rfl
    exact n.no_slash hc
  rw [List.takeWhile_append_of_pos hn]
  cases ns with
  | nil => simp [render]
  | cons n' ns => simp [render]

/-- **A path tells its names.** -/
theorem render_injective : Function.Injective render := by
  intro ns ns' h
  induction ns generalizing ns' with
  | nil =>
      cases ns' with
      | nil => rfl
      | cons n' ns' => simp [render] at h
  | cons n ns ih =>
      cases ns' with
      | nil => simp [render] at h
      | cons n' ns' =>
          have htail : n.chars ++ render ns = n'.chars ++ render ns' := by
            simpa [render] using h
          have hchars : n.chars = n'.chars := by
            rw [← takeWhile_render n ns, htail, takeWhile_render]
          obtain rfl : n = n' := by
            cases n
            cases n'
            cases hchars
            rfl
          rw [ih (List.append_cancel_left htail)]

/-! ### Places -/

variable {ρ : Type*}

/-- The place of a directory: a top, and the names that lead down from it. -/
@[ext]
structure Loc (ρ : Type*) where
  top : ρ
  names : List Name
  deriving DecidableEq

namespace Loc

/-- The place of an entry of the directory. -/
def child (l : Loc ρ) (n : Name) : Loc ρ := ⟨l.top, l.names ++ [n]⟩

/-- `a ≤ b`: `b` is at `a` or below it. -/
instance : PartialOrder (Loc ρ) where
  le a b := a.top = b.top ∧ a.names <+: b.names
  le_refl a := ⟨rfl, List.prefix_refl _⟩
  le_trans a b c h h' := ⟨h.1.trans h'.1, h.2.trans h'.2⟩
  le_antisymm a b h h' := Loc.ext h.1 (h.2.eq_of_length_le h'.2.length_le)

theorem le_def {a b : Loc ρ} : a ≤ b ↔ a.top = b.top ∧ a.names <+: b.names := Iff.rfl

instance [DecidableEq ρ] (a b : Loc ρ) : Decidable (a ≤ b) :=
  inferInstanceAs (Decidable (a.top = b.top ∧ a.names <+: b.names))

theorem le_child (l : Loc ρ) (n : Name) : l ≤ l.child n := ⟨rfl, List.prefix_append _ _⟩

theorem le_child_iff {a l : Loc ρ} {n : Name} : a ≤ l.child n ↔ a = l.child n ∨ a ≤ l := by
  rw [le_def, child, List.prefix_concat_iff, Loc.ext_iff, le_def]
  tauto

/-- There is a way down. -/
theorem exists_child_le {a b : Loc ρ} (h : a ≤ b) (hne : a ≠ b) : ∃ n, a.child n ≤ b := by
  obtain ⟨htop, r, hr⟩ := h
  cases r with
  | nil => exact absurd (Loc.ext htop (by simpa using hr)) hne
  | cons n r => exact ⟨n, htop, r, by simpa [child] using hr⟩

theorem exists_append {a l : Loc ρ} (h : a ≤ l) : ∃ r, l = ⟨a.top, a.names ++ r⟩ := by
  obtain ⟨htop, r, hr⟩ := h
  exact ⟨r, Loc.ext htop.symm hr.symm⟩

/-- Two places above a third are one above the other. -/
theorem le_or_le {a b c : Loc ρ} (ha : a ≤ c) (hb : b ≤ c) : a ≤ b ∨ b ≤ a := by
  rcases List.prefix_or_prefix_of_prefix ha.2 hb.2 with h | h
  · exact .inl ⟨ha.1.trans hb.1.symm, h⟩
  · exact .inr ⟨hb.1.trans ha.1.symm, h⟩

variable [DecidableEq ρ]

/-- Where a place is after `a` has been renamed to `b`. -/
def move (a b l : Loc ρ) : Loc ρ :=
  if a ≤ l then ⟨b.top, b.names ++ l.names.drop a.names.length⟩ else l

theorem move_of_not_le {a b l : Loc ρ} (h : ¬a ≤ l) : move a b l = l := if_neg h

theorem move_of_append {a b : Loc ρ} (r : List Name) :
    move a b ⟨a.top, a.names ++ r⟩ = ⟨b.top, b.names ++ r⟩ := by
  rw [move, if_pos ⟨rfl, List.prefix_append _ _⟩]
  simp

theorem le_move {a l : Loc ρ} (b : Loc ρ) (h : a ≤ l) : b ≤ move a b l := by
  obtain ⟨r, rfl⟩ := exists_append h
  rw [move_of_append]
  exact ⟨rfl, List.prefix_append _ _⟩

/-- What is moved keeps its order. -/
theorem le_of_move_le {a b l l' : Loc ρ} (hl : a ≤ l) (hl' : a ≤ l')
    (h : move a b l ≤ move a b l') :
    l ≤ l' := by
  obtain ⟨r, rfl⟩ := exists_append hl
  obtain ⟨r', rfl⟩ := exists_append hl'
  rw [move_of_append, move_of_append] at h
  have hr : r <+: r' := (List.prefix_append_right_inj _).1 h.2
  exact ⟨rfl, (List.prefix_append_right_inj _).2 hr⟩

/-- Places are not mixed up by moving them to where nothing is. -/
theorem move_injective {a b l l' : Loc ρ} (hl : ¬b ≤ l) (hl' : ¬b ≤ l')
    (h : move a b l = move a b l') : l = l' := by
  by_cases ha : a ≤ l
  · by_cases ha' : a ≤ l'
    · obtain ⟨r, rfl⟩ := exists_append ha
      obtain ⟨r', rfl⟩ := exists_append ha'
      simpa [move_of_append] using h
    · rw [move_of_not_le ha'] at h
      exact absurd (h ▸ le_move b ha) hl'
  · by_cases ha' : a ≤ l'
    · rw [move_of_not_le ha] at h
      exact absurd (h ▸ le_move b ha') hl
    · rwa [move_of_not_le ha, move_of_not_le ha'] at h

/-- What is above a place after a move has been above it before, or is above the target. -/
theorem exists_move {a p l x : Loc ρ} {n : Name} (hap : ¬a ≤ p) (h : x ≤ move a (p.child n) l) :
    (∃ y ≤ l, move a (p.child n) y = x) ∨ (x ≤ p ∧ move a (p.child n) x = x) := by
  by_cases ha : a ≤ l
  · obtain ⟨r, rfl⟩ := exists_append ha
    rw [move_of_append] at h
    have hb : p.child n ≤ ⟨(p.child n).top, (p.child n).names ++ r⟩ := ⟨rfl, List.prefix_append _ _⟩
    rcases le_or_le hb h with hbx | hxb
    · left
      obtain ⟨r', rfl⟩ := exists_append hbx
      have hr : r' <+: r := (List.prefix_append_right_inj _).1 h.2
      exact ⟨⟨a.top, a.names ++ r'⟩, ⟨rfl, (List.prefix_append_right_inj _).2 hr⟩,
        move_of_append r'⟩
    · rcases le_child_iff.1 hxb with rfl | hxp
      · left
        refine ⟨a, ⟨rfl, List.prefix_append _ _⟩, ?_⟩
        have hself := @move_of_append ρ _ a (p.child n) []
        simpa using hself
      · exact .inr ⟨hxp, move_of_not_le fun hax => hap (hax.trans hxp)⟩
  · left
    rw [move_of_not_le ha] at h
    exact ⟨x, h, move_of_not_le fun hax => ha (hax.trans h)⟩

end Loc

/-! ### Forests -/

/-- A directory. -/
structure Dir (ρ : Type*) where
  loc : Loc ρ
  ino : ℕ
  readable : Bool
  deriving DecidableEq

/-- The directories of a file system. -/
structure Forest (ρ : Type*) where
  dirs : List (Dir ρ)
  /-- The inode number of the next directory. -/
  nextIno : ℕ
  nodup_loc : (dirs.map Dir.loc).Nodup
  nodup_ino : (dirs.map Dir.ino).Nodup
  ino_lt : ∀ d ∈ dirs, d.ino < nextIno
  closed : ∀ d ∈ dirs, ∀ l ≤ d.loc, l ∈ dirs.map Dir.loc

namespace Forest

theorem eq_of_loc (t : Forest ρ) {d e : Dir ρ} (hd : d ∈ t.dirs) (he : e ∈ t.dirs)
    (h : d.loc = e.loc) : d = e := List.inj_on_of_nodup_map t.nodup_loc hd he h

theorem eq_of_ino (t : Forest ρ) {d e : Dir ρ} (hd : d ∈ t.dirs) (he : e ∈ t.dirs)
    (h : d.ino = e.ino) : d = e := List.inj_on_of_nodup_map t.nodup_ino hd he h

/-- There is a directory at every place above one. -/
theorem exists_above (t : Forest ρ) {d : Dir ρ} (hd : d ∈ t.dirs) {l : Loc ρ} (h : l ≤ d.loc) :
    ∃ e ∈ t.dirs, e.loc = l := List.mem_map.1 (t.closed d hd l h)

/-- Nothing is below a place where nothing is. -/
theorem not_le_of_notMem {t : Forest ρ} {b : Loc ρ} (hb : b ∉ t.dirs.map Dir.loc) :
    ∀ d ∈ t.dirs, ¬b ≤ d.loc := fun d hd hle => hb (t.closed d hd b hle)

variable [DecidableEq ρ] (t : Forest ρ)

/-- The directory at a place. -/
def find (l : Loc ρ) : Option (Dir ρ) := t.dirs.find? fun d => d.loc = l

variable {t}

theorem find_eq_some {l : Loc ρ} {d : Dir ρ} : t.find l = some d ↔ d ∈ t.dirs ∧ d.loc = l := by
  constructor
  · intro h
    exact ⟨List.mem_of_find?_eq_some h, by simpa using List.find?_some h⟩
  · intro ⟨hd, hl⟩
    have hsome : (t.find l).isSome := by
      rw [find, List.find?_isSome]
      exact ⟨d, hd, by simpa using hl⟩
    obtain ⟨e, he⟩ := Option.isSome_iff_exists.1 hsome
    have hmem := List.mem_of_find?_eq_some he
    have hloc : e.loc = l := by simpa using List.find?_some he
    rw [he, t.eq_of_loc hmem hd (hloc.trans hl.symm)]

variable (t)

/-- The entries of the directory at a place that are directories, with their inode numbers. -/
def children (l : Loc ρ) : List (Name × ℕ) :=
  t.dirs.filterMap fun d =>
    match d.loc.names.getLast? with
    | none => none
    | some n => if d.loc = l.child n then some (n, d.ino) else none

variable {t}

theorem mem_children {l : Loc ρ} {n : Name} {i : ℕ} :
    (n, i) ∈ t.children l ↔ ∃ d ∈ t.dirs, d.loc = l.child n ∧ d.ino = i := by
  rw [children, List.mem_filterMap]
  refine exists_congr fun d => and_congr_right ?_
  intro _
  constructor
  · intro h
    split at h
    · cases h
    · split at h
      · rename_i hloc
        cases h
        exact ⟨hloc, rfl⟩
      · cases h
  · rintro ⟨hloc, rfl⟩
    have hlast : d.loc.names.getLast? = some n := by simp [hloc, Loc.child]
    rw [hlast]
    exact if_pos hloc

/-! ### Creating a directory -/

variable (t)

/-- `mkdir` -/
def mkdir (p : Loc ρ) (n : Name) (readable : Bool) : Option (Forest ρ) :=
  if h : p ∈ t.dirs.map Dir.loc ∧ p.child n ∉ t.dirs.map Dir.loc then
    some
      { dirs := t.dirs ++ [⟨p.child n, t.nextIno, readable⟩]
        nextIno := t.nextIno + 1
        nodup_loc := by
          rw [List.map_append, List.map_singleton]
          refine List.nodup_append.2 ⟨t.nodup_loc, List.nodup_singleton _, fun x hx y hy hxy => ?_⟩
          rw [hxy, List.mem_singleton.1 hy] at hx
          exact h.2 hx
        nodup_ino := by
          rw [List.map_append, List.map_singleton]
          refine List.nodup_append.2 ⟨t.nodup_ino, List.nodup_singleton _, fun x hx y hy => ?_⟩
          obtain ⟨d, hd, rfl⟩ := List.mem_map.1 hx
          rw [List.mem_singleton.1 hy]
          exact (t.ino_lt d hd).ne
        ino_lt := fun d hd => by
          rcases List.mem_append.1 hd with hd | hd
          · exact Nat.lt_succ_of_lt (t.ino_lt d hd)
          · rw [List.mem_singleton.1 hd]
            exact Nat.lt_succ_self _
        closed := fun d hd l hl => by
          rw [List.map_append, List.map_singleton, List.mem_append, List.mem_singleton]
          rcases List.mem_append.1 hd with hd | hd
          · exact .inl (t.closed d hd l hl)
          · rw [List.mem_singleton.1 hd] at hl
            rcases Loc.le_child_iff.1 hl with rfl | hl
            · exact .inr rfl
            · obtain ⟨e, he, rfl⟩ := List.mem_map.1 h.1
              exact .inl (t.closed e he l hl) }
  else none

variable {t}

/-- **What is there after `mkdir`.** -/
theorem mem_mkdir {p : Loc ρ} {n : Name} {readable : Bool} {t' : Forest ρ}
    (h : t.mkdir p n readable = some t') :
    (∃ g ∈ t.dirs, g.loc = p) ∧ (∀ d ∈ t.dirs, d.loc ≠ p.child n) ∧
      t'.dirs = t.dirs ++ [⟨p.child n, t.nextIno, readable⟩] := by
  unfold mkdir at h
  split at h
  · rename_i hguard
    cases h
    exact ⟨List.mem_map.1 hguard.1, fun d hd heq => hguard.2 (heq ▸ List.mem_map_of_mem hd), rfl⟩
  · cases h

/-! ### Removing a directory -/

variable (t)

/-- `rmdir`: nothing may be below. -/
def rmdir (l : Loc ρ) : Option (Forest ρ) :=
  if h : l ∈ t.dirs.map Dir.loc ∧ ∀ d ∈ t.dirs, l ≤ d.loc → d.loc = l then
    some
      { dirs := t.dirs.filter fun d => d.loc ≠ l
        nextIno := t.nextIno
        nodup_loc := t.nodup_loc.sublist (List.filter_sublist.map _)
        nodup_ino := t.nodup_ino.sublist (List.filter_sublist.map _)
        ino_lt := fun d hd => t.ino_lt d (List.mem_filter.1 hd).1
        closed := fun d hd x hx => by
          obtain ⟨hmem, hne⟩ := List.mem_filter.1 hd
          obtain ⟨e, he, rfl⟩ := t.exists_above hmem hx
          refine List.mem_map_of_mem (List.mem_filter.2 ⟨he, ?_⟩)
          rw [decide_eq_true_eq] at hne ⊢
          rintro rfl
          exact hne (h.2 d hmem hx) }
  else none

variable {t}

/-- **What is there after `rmdir`.** -/
theorem mem_rmdir {l : Loc ρ} {t' : Forest ρ} (h : t.rmdir l = some t') :
    (∃ g ∈ t.dirs, g.loc = l) ∧ (∀ d ∈ t.dirs, l ≤ d.loc → d.loc = l) ∧
      ∀ d, d ∈ t'.dirs ↔ d ∈ t.dirs ∧ d.loc ≠ l := by
  unfold rmdir at h
  split at h
  · rename_i hguard
    cases h
    exact ⟨List.mem_map.1 hguard.1, hguard.2, fun d => by simp [List.mem_filter]⟩
  · cases h

/-! ### Renaming a directory -/

variable (t)

/-- `rename` of the directory at `a` to a name that is not in use; to replace an empty directory is
to remove it before. -/
def rename (a p : Loc ρ) (n : Name) : Option (Forest ρ) :=
  if h : a ∈ t.dirs.map Dir.loc ∧ p ∈ t.dirs.map Dir.loc ∧ p.child n ∉ t.dirs.map Dir.loc ∧ ¬a ≤ p
  then
    some
      { dirs := t.dirs.map fun d => { d with loc := Loc.move a (p.child n) d.loc }
        nextIno := t.nextIno
        nodup_loc := by
          rw [List.map_map,
            show (Dir.loc ∘ fun d : Dir ρ => { d with loc := Loc.move a (p.child n) d.loc }) =
            Loc.move a (p.child n) ∘ Dir.loc from rfl, ← List.map_map]
          refine t.nodup_loc.map_on ?_
          intro x hx y hy hxy
          obtain ⟨d, hd, rfl⟩ := List.mem_map.1 hx
          obtain ⟨e, he, rfl⟩ := List.mem_map.1 hy
          exact Loc.move_injective (not_le_of_notMem h.2.2.1 d hd)
            (not_le_of_notMem h.2.2.1 e he) hxy
        nodup_ino := by
          rw [List.map_map]
          exact t.nodup_ino
        ino_lt := fun d hd => by
          obtain ⟨e, he, rfl⟩ := List.mem_map.1 hd
          exact t.ino_lt e he
        closed := fun d hd x hx => by
          obtain ⟨e, he, rfl⟩ := List.mem_map.1 hd
          have hmem (y : Dir ρ) (hy : y ∈ t.dirs) : Loc.move a (p.child n) y.loc ∈
              (t.dirs.map fun d => { d with loc := Loc.move a (p.child n) d.loc }).map Dir.loc :=
            List.mem_map_of_mem (List.mem_map_of_mem hy)
          rcases Loc.exists_move h.2.2.2 hx with ⟨y, hy, rfl⟩ | ⟨hxp, hfix⟩
          · obtain ⟨f, hf, rfl⟩ := t.exists_above he hy
            exact hmem f hf
          · obtain ⟨g, hg, rfl⟩ := List.mem_map.1 h.2.1
            obtain ⟨f, hf, rfl⟩ := t.exists_above hg hxp
            have hmoved := hmem f hf
            rwa [hfix] at hmoved }
  else none

variable {t}

theorem rename_dirs {a p : Loc ρ} {n : Name} {t' : Forest ρ} (h : t.rename a p n = some t') :
    (∀ d ∈ t.dirs, ¬p.child n ≤ d.loc) ∧
      t'.dirs = t.dirs.map fun d => { d with loc := Loc.move a (p.child n) d.loc } := by
  unfold rename at h
  split at h
  · rename_i hguard
    cases h
    exact ⟨not_le_of_notMem hguard.2.2.1, rfl⟩
  · cases h

/-- What is not moved is there after `rename`. -/
theorem mem_rename_of_not_le {a p : Loc ρ} {n : Name} {t' : Forest ρ}
    (h : t.rename a p n = some t') {d : Dir ρ} (hd : d ∈ t.dirs) (hle : ¬a ≤ d.loc) :
    d ∈ t'.dirs := by
  rw [(rename_dirs h).2]
  refine List.mem_map.2 ⟨d, hd, ?_⟩
  rw [Loc.move_of_not_le hle]

/-- A directory is not moved below itself. -/
theorem not_le_of_rename {a p : Loc ρ} {n : Name} {t' : Forest ρ} (h : t.rename a p n = some t') :
    ¬a ≤ p := by
  unfold rename at h
  split at h
  · rename_i hguard
    exact hguard.2.2.2
  · cases h

/-- **What is there after `rename`** has not been moved, or is below the new place. -/
theorem mem_rename {a p : Loc ρ} {n : Name} {t' : Forest ρ} (h : t.rename a p n = some t')
    {d : Dir ρ} (hd : d ∈ t'.dirs) :
    (d ∈ t.dirs ∧ ¬a ≤ d.loc) ∨
      ∃ e ∈ t.dirs, a ≤ e.loc ∧ d = { e with loc := Loc.move a (p.child n) e.loc } := by
  rw [(rename_dirs h).2] at hd
  obtain ⟨e, he, rfl⟩ := List.mem_map.1 hd
  by_cases hle : a ≤ e.loc
  · exact .inr ⟨e, he, hle, rfl⟩
  · left
    simpa only [Loc.move_of_not_le hle] using ⟨he, hle⟩

end Forest

end DirTree
