/-
**The children that `fd_array` names (`HW6/44_2.c`).**

`my_pclose` leaves the entry of the stream that it has closed in `fd_array`.  From then on the entry
names a child that has been waited for, under a descriptor that the kernel gives to the next file.
An entry that is still needed is right all the same: a stream of `my_popen` that has not been closed
has its own child in `fd_array`.

Main definitions:

* `Popen.Associated` — `fd_array` names the children of the open streams of `my_popen`, and no
  others;
* `Popen.Spares` — the step closes no stream of `my_popen`;
* `Popen.Proper` — the step closes a stream of `my_popen` by `my_pclose` only, and any other by
  `fclose`.

Main results:

* `Popen.Linked.of_step` — open streams have their own children in `fd_array`;
* `Popen.associated_of_spares` — **in every run that closes no stream of `my_popen`, `fd_array`
  names the children of its streams and no others**, and the first step to close one ends that;
* `Popen.exists_stale_reopened` — `my_pclose` closes a file that was opened by `fopen`.
-/

import NetSysProg.PopenModel

set_option relaxedAutoImplicit false
set_option autoImplicit false

namespace Popen

open Processes (Table FileObj)

/-! ### The property and the conditions -/

/-- `fd_array[fd]` differs from `-1` exactly when `fd` is the descriptor of a stream of `my_popen`
that has not been closed, and then it is the number of that stream's child; `my_pclose` of any other
stream finds no child. -/
structure Associated (s : State) : Prop where
  entry_ne : ∀ fd : Fin fdSize, s.proc.fdArray fd ≠ -1 ↔ ∃ st ∈ s.streams, st.IsPopen ∧ st.fd = fd
  pid : ∀ st ∈ s.streams, st.IsPopen → ∀ o, st.origin = some o →
    ∃ h : st.fd < fdSize, s.proc.fdArray ⟨st.fd, h⟩ = o.pid
  notFound : ∀ st ∈ s.streams, st.freed = false → ¬ st.IsPopen →
    myPclose st.fd s.proc = .notFound

/-- The step uses the streams of `my_popen` as they are meant to be used: `fclose` is for other
streams, and `my_pclose` is for these, unless it finds no child. -/
def Proper (s : State) : Act → Prop
  | .fclose i => ∀ st ∈ s.stream i, st.origin = none
  | .pclose i => ∀ st ∈ s.stream i, st.IsPopen ∨
      ∃ h : st.fd < fdSize, s.proc.fdArray ⟨st.fd, h⟩ = -1
  | _ => True

/-- **The condition on a step**: it closes no stream of `my_popen`.  So `fclose` is for other
streams, `my_pclose` finds no child, and no file is opened beyond the end of `fd_array`. -/
def Spares (s : State) : Act → Prop
  | .fopen _ => s.proc.table.free < fdSize
  | .fclose i => ∀ st ∈ s.stream i, st.origin = none
  | .pclose i => ∀ st ∈ s.stream i, ∃ h : st.fd < fdSize, s.proc.fdArray ⟨st.fd, h⟩ = -1
  | _ => True

instance (s : State) (a : Act) : Decidable (Spares s a) :=
  match a with
  | .fopen _ => inferInstanceAs (Decidable (s.proc.table.free < fdSize))
  | .fclose i => inferInstanceAs (Decidable (∀ st ∈ s.stream i, st.origin = none))
  | .pclose i => inferInstanceAs (Decidable (∀ st ∈ s.stream i,
      ∃ h : st.fd < fdSize, s.proc.fdArray ⟨st.fd, h⟩ = -1))
  | .popen .. | .wait | .exit _ => inferInstanceAs (Decidable True)

theorem Spares.proper {s : State} {a : Act} (h : Spares s a) : Proper s a := by
  cases a with
  | pclose i => exact fun st hst => Or.inr (h st hst)
  | fclose i => exact h
  | _ => trivial

/-! ### Open streams -/

/-- Different open streams have different descriptors, which are open, and a stream of `my_popen`
has its own child in `fd_array`. -/
structure Linked (s : State) : Prop where
  opened : ∀ (i : ℕ) (st : Stream), s.streams[i]? = some st → st.IsOpen →
    s.proc.table.get st.fd ≠ none
  distinct : ∀ (i j : ℕ) (st st' : Stream), s.streams[i]? = some st → s.streams[j]? = some st' →
    st.IsOpen → st'.IsOpen → st.fd = st'.fd → i = j
  entry : ∀ (i : ℕ) (st : Stream) (o : Origin), s.streams[i]? = some st → st.IsPopen →
    st.origin = some o →
    0 < o.pid ∧ ∃ h : st.fd < fdSize, s.proc.fdArray ⟨st.fd, h⟩ = o.pid

theorem getElem?_concat_eq_some {α : Type*} {l : List α} {a x : α} {i : ℕ} :
    (l ++ [a])[i]? = some x ↔ l[i]? = some x ∨ i = l.length ∧ x = a := by
  rcases Nat.lt_trichotomy i l.length with h | h | h
  · rw [List.getElem?_append_left h]
    exact ⟨Or.inl, fun hor => hor.elim id fun heq => absurd heq.1 (Nat.ne_of_lt h)⟩
  · subst h
    simp [eq_comm]
  · have hle := Nat.le_of_lt h
    rw [List.getElem?_eq_none hle, List.getElem?_eq_none (by rw [List.length_append]; exact h)]
    exact ⟨nofun, fun hor => hor.elim nofun fun heq => absurd heq.1 (Nat.ne_of_gt h)⟩

namespace Linked

theorem init (isOpen : List Bool) : Linked (init isOpen) where
  opened := fun _ _ h => nomatch h
  distinct := fun _ _ _ _ h => nomatch h
  entry := fun _ _ _ h => nomatch h

/-- What the streams do not see. -/
theorem congr {s s' : State} (h : Linked s) (hstreams : s'.streams = s.streams)
    (htable : ∀ fd, s.proc.table.get fd ≠ none → s'.proc.table.get fd ≠ none)
    (hfd : s'.proc.fdArray = s.proc.fdArray) : Linked s' where
  opened := fun i st hst hopen => htable _ (h.opened i st (by rwa [← hstreams]) hopen)
  distinct := by rw [hstreams]; exact h.distinct
  entry := by rw [hstreams, hfd]; exact h.entry

/-- A stream is opened under a descriptor that was free. -/
theorem append {s s' : State} {st₀ : Stream} (h : Linked s)
    (hstreams : s'.streams = s.streams ++ [st₀])
    (hfree : s.proc.table.get st₀.fd = none) (hget : s'.proc.table.get st₀.fd ≠ none)
    (htable : ∀ fd, s.proc.table.get fd ≠ none → s'.proc.table.get fd ≠ none)
    (hfd : ∀ fd : Fin fdSize, fd.val ≠ st₀.fd → s'.proc.fdArray fd = s.proc.fdArray fd)
    (hentry : ∀ o, st₀.origin = some o →
      0 < o.pid ∧ ∃ h : st₀.fd < fdSize, s'.proc.fdArray ⟨st₀.fd, h⟩ = o.pid) : Linked s' where
  opened := by
    intro i st hst hopen
    rw [hstreams, getElem?_concat_eq_some] at hst
    rcases hst with hst | ⟨-, rfl⟩
    · exact htable _ (h.opened i st hst hopen)
    · exact hget
  distinct := by
    intro i j st st' hst hst' hopen hopen' hfds
    rw [hstreams, getElem?_concat_eq_some] at hst hst'
    rcases hst with hst | ⟨rfl, rfl⟩ <;> rcases hst' with hst' | ⟨rfl, rfl⟩
    · exact h.distinct i j st st' hst hst' hopen hopen' hfds
    · exact absurd (hfds ▸ hfree) (h.opened i st hst hopen)
    · exact absurd (hfds ▸ hfree) (h.opened j st' hst' hopen')
    · rfl
  entry := by
    intro i st o hst hpopen ho
    rw [hstreams, getElem?_concat_eq_some] at hst
    rcases hst with hst | ⟨-, rfl⟩
    · obtain ⟨hpid, hlt, heq⟩ := h.entry i st o hst hpopen ho
      refine ⟨hpid, hlt, (hfd _ ?_).trans heq⟩
      intro hfds
      exact h.opened i st hst hpopen.isOpen (by rw [show st.fd = st₀.fd from hfds]; exact hfree)
    · exact hentry o ho

/-- A stream is closed, or only passed to a function. -/
theorem set {s s' : State} {i₀ : ℕ} {st₀ st₁ : Stream} (h : Linked s)
    (hst₀ : s.streams[i₀]? = some st₀) (hstreams : s'.streams = s.streams.set i₀ st₁)
    (hfd₁ : st₁.fd = st₀.fd) (horigin : st₁.origin = st₀.origin) (hopen : st₁.IsOpen → st₀.IsOpen)
    (hpopen : st₁.IsPopen → st₀.IsPopen) (hfd : s'.proc.fdArray = s.proc.fdArray)
    (htable : s'.proc.table = s.proc.table ∨
      st₀.IsOpen ∧ ¬ st₁.IsOpen ∧ s'.proc.table = s.proc.table.remove st₀.fd) : Linked s' := by
  -- every stream of the new list was there before, and was open if it is
  have hold : ∀ (i : ℕ) (st : Stream), s'.streams[i]? = some st →
      ∃ st', s.streams[i]? = some st' ∧ st'.fd = st.fd ∧ st'.origin = st.origin ∧
        (st.IsOpen → st'.IsOpen) ∧ (st.IsPopen → st'.IsPopen) := by
    intro i st hst
    rw [hstreams, List.getElem?_set] at hst
    split at hst
    · next hi =>
        subst hi
        split at hst
        · obtain rfl := Option.some.inj hst
          exact ⟨st₀, hst₀, hfd₁.symm, horigin.symm, hopen, hpopen⟩
        · cases hst
    · exact ⟨st, hst, rfl, rfl, id, id⟩
  refine ⟨fun i st hst hisopen => ?_, fun i j st st' hst hst' hisopen hisopen' hfds => ?_,
    fun i st o hst hispopen ho => ?_⟩
  · obtain ⟨st', hst', hfds, -, hopen', -⟩ := hold i st hst
    have hget := h.opened i st' hst' (hopen' hisopen)
    rcases htable with htable | ⟨hopen₀, hclosed, htable⟩
    · rw [htable, ← hfds]
      exact hget
    · rw [htable, Table.get_remove, if_neg]
      · rwa [← hfds]
      · intro heq
        obtain rfl := h.distinct i i₀ st' st₀ hst' hst₀ (hopen' hisopen) hopen₀ (hfds.trans heq)
        rw [hstreams, List.getElem?_set_self (List.getElem?_eq_some_iff.1 hst₀).1] at hst
        obtain rfl := Option.some.inj hst
        exact hclosed hisopen
  · obtain ⟨st₂, hst₂, hfd₂, -, hopen₂, -⟩ := hold i st hst
    obtain ⟨st₃, hst₃, hfd₃, -, hopen₃, -⟩ := hold j st' hst'
    exact h.distinct i j st₂ st₃ hst₂ hst₃ (hopen₂ hisopen) (hopen₃ hisopen')
      (hfd₂.trans (hfds.trans hfd₃.symm))
  · obtain ⟨st', hst', hfds, ho', -, hpopen'⟩ := hold i st hst
    rw [hfd]
    have hentry := h.entry i st' o hst' (hpopen' hispopen) (ho'.trans ho)
    rw [hfds] at hentry
    exact hentry

/-- A stream that is only passed to `my_pclose`, which finds no child. -/
theorem notFound {s : State} {i : ℕ} {st : Stream} (h : Linked s) (hst : s.stream i = some st) :
    Linked { s with streams := s.streams.set i { st with passed := true } } := by
  refine h.set (State.stream_eq_some.1 hst).1 rfl rfl rfl ?_ ?_ rfl (Or.inl rfl)
  · exact fun hopen => ⟨hopen.1, fun hne => absurd (hopen.2 hne) nofun⟩
  · exact fun hpopen => absurd hpopen.2.1 nofun

/-- A stream of `my_popen` is closed by `my_pclose`. -/
theorem pclosed {s : State} {i : ℕ} {st : Stream} (h : Linked s) (hst : s.stream i = some st)
    (hpopen : st.IsPopen) (pid : ℤ) : Linked (s.pclosed i st pid) := by
  refine h.set (State.stream_eq_some.1 hst).1 rfl rfl rfl ?_ ?_ rfl
    (Or.inr ⟨hpopen.isOpen, ?_, rfl⟩)
  · exact fun hopen => ⟨hopen.1, fun hne => absurd (hopen.2 hne) nofun⟩
  · exact fun hpopen => absurd hpopen.2.1 nofun
  · exact fun hopen => absurd (hopen.2 hpopen.1) nofun

/-- What `my_pclose` does when it is used as it is meant to be: it finds no child, or it closes a
stream of `my_popen` and waits for the child of that stream. -/
theorem of_pclose {s s' : State} {i : ℕ} (h : Linked s) (hok : Proper s (.pclose i))
    (hs : step s (.pclose i) = some s') : ∃ st, s.stream i = some st ∧
      (¬ st.IsPopen ∧ s' = { s with streams := s.streams.set i { st with passed := true } } ∨
        ∃ o, st.IsPopen ∧ st.origin = some o ∧ s.control = .ready ∧ s' = s.pclosed i st o.pid) := by
  -- the entry of a stream of `my_popen` is its child
  have hentry : ∀ st, s.stream i = some st → st.IsPopen → ∃ o, st.origin = some o ∧ 0 < o.pid ∧
      ∃ hlt : st.fd < fdSize, s.proc.fdArray ⟨st.fd, hlt⟩ = o.pid := by
    intro st hst hpopen
    obtain ⟨o, ho⟩ := Option.ne_none_iff_exists'.1 hpopen.1
    exact ⟨o, ho, h.entry i st o (State.stream_eq_some.1 hst).1 hpopen ho⟩
  cases Move.of_step hs with
  | @pcloseFault _ st hctl hst hfd =>
      rcases hok st hst with hpopen | ⟨hlt, -⟩
      · obtain ⟨o, -, -, hlt, -⟩ := hentry st hst hpopen
        exact absurd hlt hfd
      · exact absurd hlt hfd
  | @pcloseNotFound _ st hctl hst hfd hnone =>
      refine ⟨st, hst, Or.inl ⟨fun hpopen => ?_, rfl⟩⟩
      obtain ⟨o, -, hpid, _, heq⟩ := hentry st hst hpopen
      omega
  | @pcloseExit _ st hctl hst hfd hne hclosed =>
      rcases hok st hst with hpopen | ⟨_, heq⟩
      · exact absurd hclosed (h.opened i st (State.stream_eq_some.1 hst).1 hpopen.isOpen)
      · exact absurd heq hne
  | @pcloseWait _ st hctl hst hfd hne =>
      rcases hok st hst with hpopen | ⟨_, heq⟩
      · obtain ⟨o, ho, -, _, heq⟩ := hentry st hst hpopen
        exact ⟨st, hst, Or.inr ⟨o, hpopen, ho, hctl, by rw [heq]⟩⟩
      · exact absurd heq hne

/-- **One step keeps the children of the open streams in `fd_array`**, when the streams of
`my_popen` are used as they are meant to be. -/
theorem of_step {s s' : State} {a : Act} (h : Linked s) (hok : Proper s a)
    (hs : step s a = some s') :
    Linked s' := by
  cases Move.of_step hs with
  | popenNull hctl hnull hfd =>
      exact h.congr rfl (fun fd hget => by rwa [myPopen_frame hget]) hfd
  | @popen type pid fails fd hctl hpid hnew hopen =>
      obtain ⟨hlt, harr⟩ := hopen.fdArray
      refine h.append rfl hopen.free ?_ (fun fd hget => by rwa [myPopen_frame hget]) ?_ ?_
      · rw [hopen.table, if_pos rfl]
        exact nofun
      · intro fd' hne
        rw [harr, Function.update_of_ne (fun heq => hne (congrArg Fin.val heq))]
      · intro o ho
        obtain rfl := Option.some.inj ho
        exact ⟨hpid, hlt, by rw [harr, Function.update_self]⟩
  | fopen hctl =>
      refine h.append rfl (Table.get_free _) ?_ ?_ (fun _ _ => rfl) (fun o ho => nomatch ho)
      · rw [Table.get_put, if_pos rfl]
        exact nofun
      · intro fd hget
        rw [Table.get_put]
        split
        · exact nofun
        · exact hget
  | @fclose i st hctl hst =>
      have horigin : st.origin = none := hok st hst
      obtain ⟨hst, hfreed⟩ := State.stream_eq_some.1 hst
      refine h.set hst rfl rfl rfl ?_ ?_ rfl (Or.inr ⟨⟨hfreed, ?_⟩, ?_, rfl⟩)
      · exact fun hopen => absurd hopen.1 nofun
      · exact fun hpopen => absurd hpopen.2.2 nofun
      · exact fun hne => absurd horigin hne
      · exact fun hopen => absurd hopen.1 nofun
  | pcloseFault | pcloseNotFound | pcloseExit | pcloseWait =>
      obtain ⟨st, hst, ⟨-, heq⟩ | ⟨o, hpopen, ho, -, heq⟩⟩ := h.of_pclose hok hs
      · rw [heq]
        exact h.notFound hst
      · rw [heq]
        exact h.pclosed hst hpopen o.pid
  | waitFail hctl hnone => exact h.congr rfl (fun _ hget => hget) rfl
  | reap hctl => exact h.congr rfl (fun _ hget => hget) rfl
  | exit => exact h.congr rfl (fun _ hget => hget) rfl

end Linked

/-! ### No entry is left behind -/

/-- Every stream of `my_popen` is open, and `fd_array` names no child but theirs. -/
structure Tight (s : State) : Prop extends Linked s where
  lt : ∀ (i : ℕ) (st : Stream), s.streams[i]? = some st → st.fd < fdSize
  isPopen : ∀ (i : ℕ) (st : Stream), s.streams[i]? = some st → st.origin ≠ none → st.IsPopen
  stale : ∀ fd : Fin fdSize, s.proc.fdArray fd ≠ -1 →
    ∃ (i : ℕ) (st : Stream), s.streams[i]? = some st ∧ st.IsPopen ∧ st.fd = fd

namespace Tight

theorem init (isOpen : List Bool) : Tight (init isOpen) where
  toLinked := .init isOpen
  lt := fun _ _ h => nomatch h
  isPopen := fun _ _ h => nomatch h
  stale := fun _ h => absurd rfl h

/-- Only a stream of `my_popen` has a child in `fd_array`. -/
theorem origin_of_entry {s : State} (h : Tight s) {i : ℕ} {st : Stream}
    (hst : s.streams[i]? = some st)
    (hfreed : st.freed = false) {hlt : st.fd < fdSize} (hentry : s.proc.fdArray ⟨st.fd, hlt⟩ ≠ -1) :
    st.IsPopen := by
  by_cases horigin : st.origin = none
  · obtain ⟨j, st', hst', hpopen, hfd⟩ := h.stale ⟨st.fd, hlt⟩ hentry
    obtain rfl := h.distinct i j st st' hst hst' ⟨hfreed, fun hne => absurd horigin hne⟩
      hpopen.isOpen hfd.symm
    obtain rfl := Option.some.inj (hst.symm.trans hst')
    exact hpopen
  · exact h.isPopen i st hst horigin

theorem entry_ne {s : State} (h : Tight s) {i : ℕ} {st : Stream} (hst : s.streams[i]? = some st)
    (hpopen : st.IsPopen) {hlt : st.fd < fdSize} : s.proc.fdArray ⟨st.fd, hlt⟩ ≠ -1 := by
  obtain ⟨o, ho⟩ := Option.ne_none_iff_exists'.1 hpopen.1
  obtain ⟨hpid, _, heq⟩ := h.entry i st o hst hpopen ho
  rw [heq]
  omega

theorem associated {s : State} (h : Tight s) : Associated s where
  entry_ne := by
    intro fd
    constructor
    · intro hne
      obtain ⟨i, st, hst, hpopen, hfd⟩ := h.stale fd hne
      exact ⟨st, List.mem_of_getElem? hst, hpopen, hfd⟩
    · rintro ⟨st, hmem, hpopen, hfd⟩
      obtain ⟨i, hst⟩ := List.mem_iff_getElem?.1 hmem
      obtain ⟨n, hn⟩ := fd
      obtain rfl : st.fd = n := hfd
      exact h.entry_ne hst hpopen
  pid := by
    intro st hmem hpopen o ho
    obtain ⟨i, hst⟩ := List.mem_iff_getElem?.1 hmem
    exact (h.entry i st o hst hpopen ho).2
  notFound := by
    intro st hmem hfreed hpopen
    obtain ⟨i, hst⟩ := List.mem_iff_getElem?.1 hmem
    refine myPclose_of_entry (h := h.lt i st hst) ?_
    by_contra hentry
    exact hpopen (h.origin_of_entry hst hfreed hentry)

/-- A stream of `fopen` is closed, or passed to `my_pclose`. -/
theorem set {s s' : State} {i₀ : ℕ} {st₀ st₁ : Stream} (h : Tight s) (hlinked : Linked s')
    (hst₀ : s.streams[i₀]? = some st₀) (hstreams : s'.streams = s.streams.set i₀ st₁)
    (hfd₁ : st₁.fd = st₀.fd) (horigin₀ : st₀.origin = none) (horigin₁ : st₁.origin = none)
    (hfd : s'.proc.fdArray = s.proc.fdArray) : Tight s' := by
  have hcases : ∀ (i : ℕ) (st : Stream), s'.streams[i]? = some st → st = st₁ ∨
    s.streams[i]? = some st := by
    intro i st hst
    rw [hstreams, List.getElem?_set] at hst
    split at hst
    · split at hst
      · exact Or.inl (Option.some.inj hst).symm
      · cases hst
    · exact Or.inr hst
  refine ⟨hlinked, fun i st hst => ?_, fun i st hst hne => ?_, fun fd hne => ?_⟩
  · rcases hcases i st hst with rfl | hst
    · rw [hfd₁]
      exact h.lt i₀ st₀ hst₀
    · exact h.lt i st hst
  · rcases hcases i st hst with rfl | hst
    · exact absurd horigin₁ hne
    · exact h.isPopen i st hst hne
  · rw [hfd] at hne
    obtain ⟨i, st, hst, hpopen, heq⟩ := h.stale fd hne
    refine ⟨i, st, ?_, hpopen, heq⟩
    rw [hstreams, List.getElem?_set_ne]
    · exact hst
    · rintro rfl
      obtain rfl := Option.some.inj (hst₀.symm.trans hst)
      exact hpopen.1 horigin₀

theorem of_step {s s' : State} {a : Act} (h : Tight s) (hok : Spares s a)
    (hs : step s a = some s') :
    Tight s' := by
  have hlinked := h.toLinked.of_step hok.proper hs
  cases Move.of_step hs with
  | popenNull hctl hnull hfd =>
    exact ⟨hlinked, h.lt, h.isPopen, fun fd hne => h.stale fd (hfd ▸ hne)⟩
  | @popen type pid fails fd hctl hpid hnew hopen =>
      obtain ⟨hlt, harr⟩ := hopen.fdArray
      refine ⟨hlinked, fun i st hst => ?_, fun i st hst hne => ?_, fun fd' hne => ?_⟩
      · rcases getElem?_concat_eq_some.1 hst with hst | ⟨-, rfl⟩
        · exact h.lt i st hst
        · exact hlt
      · rcases getElem?_concat_eq_some.1 hst with hst | ⟨-, rfl⟩
        · exact h.isPopen i st hst hne
        · exact ⟨hne, rfl, rfl⟩
      · by_cases hfd' : fd' = ⟨fd, hlt⟩
        · subst hfd'
          exact ⟨_, _, getElem?_concat_eq_some.2 (Or.inr ⟨rfl, rfl⟩), ⟨nofun, rfl, rfl⟩, rfl⟩
        · simp only [harr, Function.update_of_ne hfd'] at hne
          obtain ⟨i, st, hst, hpopen, heq⟩ := h.stale fd' hne
          exact ⟨i, st, getElem?_concat_eq_some.2 (Or.inl hst), hpopen, heq⟩
  | fopen hctl =>
      refine ⟨hlinked, fun i st hst => ?_, fun i st hst hne => ?_, fun fd' hne => ?_⟩
      · rcases getElem?_concat_eq_some.1 hst with hst | ⟨-, rfl⟩
        · exact h.lt i st hst
        · exact hok
      · rcases getElem?_concat_eq_some.1 hst with hst | ⟨-, rfl⟩
        · exact h.isPopen i st hst hne
        · exact absurd rfl hne
      · obtain ⟨i, st, hst, hpopen, heq⟩ := h.stale fd' hne
        exact ⟨i, st, getElem?_concat_eq_some.2 (Or.inl hst), hpopen, heq⟩
  | @fclose i st hctl hst =>
      have horigin : st.origin = none := hok st hst
      exact h.set hlinked (State.stream_eq_some.1 hst).1 rfl rfl horigin horigin rfl
  | @pcloseNotFound i st hctl hst hfd hentry =>
      obtain ⟨hst', -⟩ := State.stream_eq_some.1 hst
      have horigin : st.origin = none := by
        by_contra hne
        exact h.entry_ne hst' (h.isPopen i st hst' hne) hentry
      exact h.set hlinked hst' rfl rfl horigin horigin rfl
  | pcloseFault hctl hst hfd =>
      obtain ⟨hlt, -⟩ := hok _ hst
      exact absurd hlt hfd
  | pcloseExit hctl hst hfd hentry hclosed =>
      obtain ⟨hlt, heq⟩ := hok _ hst
      exact absurd heq hentry
  | pcloseWait hctl hst hfd hentry =>
      obtain ⟨hlt, heq⟩ := hok _ hst
      exact absurd heq hentry
  | waitFail hctl hnone => exact ⟨hlinked, h.lt, h.isPopen, h.stale⟩
  | reap hctl => exact ⟨hlinked, h.lt, h.isPopen, h.stale⟩
  | exit => exact ⟨hlinked, h.lt, h.isPopen, h.stale⟩

/-- When a stream of `my_popen` is closed, its entry is left behind. -/
theorem not_associated_set {s s' : State} {i₀ : ℕ} {st₀ st₁ : Stream} (h : Tight s)
    (hst₀ : s.streams[i₀]? = some st₀) (hpopen₀ : st₀.IsPopen) (hclosed : ¬ st₁.IsPopen)
    (hstreams : s'.streams = s.streams.set i₀ st₁) (hfd : s'.proc.fdArray = s.proc.fdArray) :
    ¬ Associated s' := by
  intro hassoc
  have hne : s'.proc.fdArray ⟨st₀.fd, h.lt i₀ st₀ hst₀⟩ ≠ -1 := by
    rw [hfd]
    exact h.entry_ne hst₀ hpopen₀
  obtain ⟨st, hmem, hpopen, heq⟩ := (hassoc.entry_ne _).1 hne
  obtain ⟨i, hst⟩ := List.mem_iff_getElem?.1 hmem
  rw [hstreams, List.getElem?_set] at hst
  split at hst
  · split at hst
    · obtain rfl := Option.some.inj hst
      exact hclosed hpopen
    · cases hst
  · next hi => exact hi (h.distinct i₀ i st₀ st hst₀ hst hpopen₀.isOpen hpopen.isOpen heq.symm)

/-- **The first step to break the condition** leaves an entry behind, or a file that `my_pclose`
looks for beyond the end of `fd_array`. -/
theorem not_associated {s s' : State} {a : Act} (h : Tight s) (hbad : ¬ Spares s a)
    (hs : step s a = some s') : ¬ Associated s' := by
  cases Move.of_step hs with
  | fopen hctl =>
      intro hassoc
      have hfound := hassoc.notFound _ (List.mem_append_right _ (List.mem_singleton_self _)) rfl
        (fun hpopen => hpopen.1 rfl)
      exact absurd ((myPclose_of_not_lt hbad).symm.trans hfound) nofun
  | @fclose i st hctl hst =>
      obtain ⟨hst', hfreed⟩ := State.stream_eq_some.1 hst
      have horigin : st.origin ≠ none := by
        intro horigin
        refine hbad fun st' hst'' => ?_
        rwa [← Option.some.inj (hst.symm.trans hst'')]
      refine h.not_associated_set hst' (h.isPopen i st hst' horigin) ?_ rfl rfl
      exact fun hpopen => absurd hpopen.2.2 nofun
  | @pcloseWait i st hctl hst hfd hentry =>
      obtain ⟨hst', hfreed⟩ := State.stream_eq_some.1 hst
      refine h.not_associated_set hst' (h.origin_of_entry hst' hfreed hentry) ?_ rfl rfl
      exact fun hpopen => absurd hpopen.2.1 nofun
  | pcloseNotFound hctl hst hfd hentry =>
      refine absurd (fun st' hst' => ?_) hbad
      obtain rfl := Option.some.inj (hst.symm.trans hst')
      exact ⟨hfd, hentry⟩
  | @pcloseFault i st hctl hst hfd => exact absurd (h.lt i st (State.stream_eq_some.1 hst).1) hfd
  | @pcloseExit i st hctl hst hfd hentry hclosed =>
      obtain ⟨hst', hfreed⟩ := State.stream_eq_some.1 hst
      exact absurd hclosed (h.opened i st hst' (h.origin_of_entry hst' hfreed hentry).isOpen)
  | popenNull | popen | waitFail | reap | exit => exact absurd trivial hbad

end Tight

/-! ### Every run -/

/-- **`fd_array` names the children of the streams of `my_popen` and no others**, in every run that
closes none of these streams; and the first step of a run to close one leaves an entry behind. -/
theorem associated_of_spares {isOpen : List Bool} {s : State}
    (h : Runs.ReachableVia step Spares (init isOpen) s) :
    Associated s ∧ ∀ a s', step s a = some s' → ¬ Spares s a → ¬ Associated s' := by
  have htight : Tight s := h.invariant (fun _ _ _ hi hok hs => hi.of_step hok hs) (.init isOpen)
  exact ⟨htight.associated, fun a s' hs hbad => htight.not_associated hbad hs⟩

/-- A command is read from, and a file is opened and passed to `my_pclose` by mistake. -/
def mistaken : List Act := [.popen .r 100 .none, .fopen "notes", .pclose 1]

theorem associated_of_spares_mistaken :
    ∃ s, Runs.ReachableVia step Spares (init [true, true, true]) s ∧
      s.streams.map (fun st => (st.fd, st.passed)) = [(3, false), (4, true)] ∧
      s.proc.fdArray ⟨3, by decide⟩ ≠ -1 ∧ s.proc.fdArray ⟨4, by decide⟩ = -1 := by
  have hend : (Runs.run (fun s a => if Spares s a then step s a else none) (init [true, true, true])
      mistaken).map (fun s => s.streams) =
        some [⟨3, some ⟨.r, 100, 0⟩, false, false⟩, ⟨4, none, true, false⟩] := by decide
  obtain ⟨s, hs, hstreams⟩ := Option.map_eq_some_iff.1 hend
  have hvia := Runs.ReachableVia.of_run hs
  obtain ⟨hassoc, -⟩ := associated_of_spares hvia
  refine ⟨s, hvia, by rw [hstreams]; rfl, ?_, ?_⟩
  · refine (hassoc.entry_ne _).2 ⟨_, by rw [hstreams]; exact List.mem_cons_self, ?_, rfl⟩
    exact ⟨nofun, rfl, rfl⟩
  · by_contra hne
    obtain ⟨st, hmem, hpopen, hfd⟩ := (hassoc.entry_ne _).1 hne
    rw [hstreams] at hmem
    simp only [List.mem_cons, List.not_mem_nil, or_false] at hmem
    rcases hmem with rfl | rfl
    · exact absurd hfd (by decide)
    · exact hpopen.1 rfl

/-- A command is read from and closed, and a file is opened after that. -/
def reopened : List Act := [.popen .r 100 .none, .pclose 0, .exit 100, .wait, .fopen "notes"]

/-- **`my_pclose` closes a file that was opened by `fopen`.**  The file has the descriptor of a
stream that was closed by `my_pclose`, and so the entry of that stream. -/
theorem exists_stale_reopened :
    ∃ s, Runs.Reachable step (init [true, true, true]) s ∧
      s.streams = [⟨3, some ⟨.r, 100, 0⟩, true, false⟩, ⟨3, none, false, false⟩] ∧
      s.proc.fdArray ⟨3, by decide⟩ = 100 ∧ ¬ Associated s ∧
      ∃ s', step s (.pclose 1) = some s' ∧ s'.control = .wait 100 ∧ s'.proc.table.get 3 = none := by
  have hend : (Runs.run step (init [true, true, true]) reopened).map
      (fun s => (s.streams, s.proc.fdArray ⟨3, by decide⟩)) =
        some ([⟨3, some ⟨.r, 100, 0⟩, true, false⟩, ⟨3, none, false, false⟩], 100) := by decide
  have hclose : (Runs.run step (init [true, true, true]) (reopened ++ [.pclose 1])).map
      (fun s => (s.control, s.proc.table.get 3)) = some (.wait 100, none) := by decide
  obtain ⟨s, hs, heq⟩ := Option.map_eq_some_iff.1 hend
  obtain ⟨hstreams, hentry⟩ := Prod.mk.inj heq
  rw [Runs.run_append_of_run hs] at hclose
  obtain ⟨s', hs', heq'⟩ := Option.map_eq_some_iff.1 hclose
  obtain ⟨hctl, hget⟩ := Prod.mk.inj heq'
  refine ⟨s, .of_run hs, hstreams, hentry, fun hassoc => ?_, s', ?_, hctl, hget⟩
  · have hne : s.proc.fdArray ⟨3, by decide⟩ ≠ -1 := by rw [hentry]; decide
    obtain ⟨st, hmem, hpopen, -⟩ := (hassoc.entry_ne _).1 hne
    rw [hstreams] at hmem
    simp only [List.mem_cons, List.not_mem_nil, or_false] at hmem
    rcases hmem with rfl | rfl
    · exact absurd hpopen.2.1 (by decide)
    · exact hpopen.1 rfl
  · cases hstep : step s (.pclose 1) with
    | none => simp [Runs.run_cons, hstep] at hs'
    | some s₁ =>
        rw [Runs.run_cons_of_step hstep] at hs'
        exact hs'

end Popen
