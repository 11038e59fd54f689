/-
**The pipes that a child of `my_popen` holds (`HW6/44_2.c`).**

`fork` copies every descriptor of the process, and the child closes only those of its own pipe.  So
it also holds the ends of the pipes of all streams that are open then, unless `dup2` puts its own
end in the place of one.  A child that holds the write end of another one's pipe keeps that one from
the end of file, and `my_pclose` waits for it for ever.

Main definitions:

* `Popen.Child.HoldsOwn` — the child holds no pipe but its own;
* `Popen.State.Returns` — `my_pclose` comes back, when children that read to the end of their
  standard input exit at the end of file;
* `Popen.Alone` — `my_popen` is called when no other of its streams is open, unless under the
  descriptor that becomes the child's standard input or output.

Main results:

* `Popen.holdsOwn_of_alone` — **in every run whose calls of `my_popen` are alone, every child holds
  its own pipe only, and `my_pclose` comes back**; a call that is not alone makes a child that holds
  another pipe;
* `Popen.exists_blocked_twoWriters` — two commands that are written to, and `my_pclose` of the first
  one that never comes back.
-/

import NetSysProg.PopenAssociation

set_option relaxedAutoImplicit false
set_option autoImplicit false

namespace Popen

open Processes (Table FileObj)

/-! ### The property and the condition -/

/-- The descriptor refers to the pipe with the given number. -/
def IsEnd (n : ℕ) (o : Option FileObj) : Prop :=
  o = some (.readEnd [] n) ∨ o = some (.writeEnd [] n)

theorem isEnd_streamEnd (type : PopenType) (n : ℕ) : IsEnd n (some (type.streamEnd n)) := by
  cases type with
  | r => exact Or.inl rfl
  | w => exact Or.inr rfl

theorem isEnd_streamEnd_iff {type : PopenType} {n m : ℕ} :
    IsEnd n (some (type.streamEnd m)) ↔ n = m := by
  cases type <;> simp [IsEnd, PopenType.streamEnd, eq_comm]

theorem isEnd_childEnd_iff {type : PopenType} {n m : ℕ} :
    IsEnd n (some (type.childEnd m)) ↔ n = m := by
  cases type <;> simp [IsEnd, PopenType.childEnd, eq_comm]

theorem not_isEnd_none (n : ℕ) : ¬ IsEnd n none := by
  rintro (h | h) <;> cases h

/-- No descriptor of the child refers to a pipe of another call of `my_popen`. -/
def Child.HoldsOwn (ch : Child) : Prop := ∀ fd n, IsEnd n (ch.table.get fd) → n = ch.pipe

/-- The process gets out of `my_pclose`. -/
def State.Returns (s : State) : Prop :=
  ∃ as s', Runs.run eofStep s as = some s' ∧ s'.control = .ready

/-- **The condition on a step**: a call of `my_popen` succeeds, and the streams of `my_popen` that
are open then have the descriptor that becomes the child's standard input or output.  Streams are
closed as they are meant to be. -/
def Alone (s : State) : Act → Prop
  | .popen type pid fails => fails = .none ∧ (myPopen type pid .none s.proc).1 ≠ none ∧
      ∀ st ∈ s.streams, st.IsPopen → st.fd = type.target
  | a => Proper s a

theorem Alone.proper {s : State} {a : Act} (h : Alone s a) : Proper s a := by
  cases a with
  | popen type pid fails => trivial
  | _ => exact h

instance (s : State) (a : Act) : Decidable (Proper s a) :=
  match a with
  | .fclose i => inferInstanceAs (Decidable (∀ st ∈ s.stream i, st.origin = none))
  | .pclose i => inferInstanceAs (Decidable (∀ st ∈ s.stream i, st.IsPopen ∨
      ∃ h : st.fd < fdSize, s.proc.fdArray ⟨st.fd, h⟩ = -1))
  | .popen .. | .fopen _ | .wait | .exit _ => inferInstanceAs (Decidable True)

instance (s : State) (a : Act) : Decidable (Alone s a) :=
  match a with
  | .popen type pid fails => inferInstanceAs (Decidable (fails = .none ∧
      (myPopen type pid .none s.proc).1 ≠ none ∧ ∀ st ∈ s.streams, st.IsPopen →
        st.fd = type.target))
  | .fopen path => inferInstanceAs (Decidable (Proper s (.fopen path)))
  | .fclose i => inferInstanceAs (Decidable (Proper s (.fclose i)))
  | .pclose i => inferInstanceAs (Decidable (Proper s (.pclose i)))
  | .wait => inferInstanceAs (Decidable (Proper s .wait))
  | .exit pid => inferInstanceAs (Decidable (Proper s (.exit pid)))

/-! ### Streams by number -/

/-- The stream `i` was made by `my_popen`. -/
def State.Made (s : State) (i : ℕ) (o : Origin) : Prop :=
  ∃ st, s.streams[i]? = some st ∧ st.origin = some o

/-- The stream `i` was made by `my_popen`, and it is open under the descriptor `fd`. -/
def State.Open (s : State) (i fd : ℕ) (o : Origin) : Prop :=
  ∃ st, s.streams[i]? = some st ∧ st.IsPopen ∧ st.origin = some o ∧ st.fd = fd

theorem State.Open.made {s : State} {i fd : ℕ} {o : Origin} (h : s.Open i fd o) : s.Made i o := by
  obtain ⟨st, hst, -, ho, -⟩ := h
  exact ⟨st, hst, ho⟩

theorem Linked.eq_of_fd {s : State} (h : Linked s) {i j fd : ℕ} {o o' : Origin} (hi : s.Open i fd o)
    (hj : s.Open j fd o') : i = j := by
  obtain ⟨st, hst, hpopen, -, hfd⟩ := hi
  obtain ⟨st', hst', hpopen', -, hfd'⟩ := hj
  exact h.distinct i j st st' hst hst' hpopen.isOpen hpopen'.isOpen (hfd.trans hfd'.symm)

theorem State.Made.unique {s : State} {i : ℕ} {o o' : Origin} (h : s.Made i o) (h' : s.Made i o') :
    o = o' := by
  obtain ⟨st, hst, ho⟩ := h
  obtain ⟨st', hst', ho'⟩ := h'
  obtain rfl := Option.some.inj (hst.symm.trans hst')
  exact Option.some.inj (ho.symm.trans ho')

/-- Two states whose streams of `my_popen` are the same. -/
structure SamePopen (s s' : State) : Prop where
  made : ∀ i o, s'.Made i o ↔ s.Made i o
  isOpen : ∀ i fd o, s'.Open i fd o ↔ s.Open i fd o

theorem SamePopen.of_streams {s s' : State} (h : s'.streams = s.streams) : SamePopen s s' where
  made := fun i o => by rw [State.Made, State.Made, h]
  isOpen := fun i fd o => by rw [State.Open, State.Open, h]

/-- A file is opened. -/
theorem SamePopen.append {s s' : State} {st₀ : Stream} (h : s'.streams = s.streams ++ [st₀])
    (h₀ : st₀.origin = none) : SamePopen s s' := by
  have hcases : ∀ (i : ℕ) (st : Stream), s'.streams[i]? = some st → st.origin ≠ none →
      s.streams[i]? = some st := by
    intro i st hst hne
    rw [h, getElem?_concat_eq_some] at hst
    rcases hst with hst | ⟨-, rfl⟩
    · exact hst
    · exact absurd h₀ hne
  have hold : ∀ (i : ℕ) (st : Stream), s.streams[i]? = some st → s'.streams[i]? = some st := by
    intro i st hst
    rw [h, getElem?_concat_eq_some]
    exact Or.inl hst
  refine ⟨fun i o => ⟨?_, ?_⟩, fun i fd o => ⟨?_, ?_⟩⟩
  · rintro ⟨st, hst, ho⟩
    exact ⟨st, hcases i st hst (by rw [ho]; exact nofun), ho⟩
  · rintro ⟨st, hst, ho⟩
    exact ⟨st, hold i st hst, ho⟩
  · rintro ⟨st, hst, hpopen, ho, hfd⟩
    exact ⟨st, hcases i st hst hpopen.1, hpopen, ho, hfd⟩
  · rintro ⟨st, hst, hpopen, ho, hfd⟩
    exact ⟨st, hold i st hst, hpopen, ho, hfd⟩

/-- A stream that is no open stream of `my_popen` is passed to a function. -/
theorem SamePopen.set {s s' : State} {i₀ : ℕ} {st₀ st₁ : Stream} (hst₀ : s.streams[i₀]? = some st₀)
    (h : s'.streams = s.streams.set i₀ st₁) (horigin : st₁.origin = st₀.origin)
    (h₀ : ¬ st₀.IsPopen) (h₁ : ¬ st₁.IsPopen) : SamePopen s s' := by
  have hlt := (List.getElem?_eq_some_iff.1 hst₀).1
  have hself : s'.streams[i₀]? = some st₁ := by rw [h, List.getElem?_set_self hlt]
  have hother : ∀ i, i ≠ i₀ → s'.streams[i]? = s.streams[i]? := by
    intro i hne
    rw [h, List.getElem?_set_ne hne.symm]
  refine ⟨fun i o => ?_, fun i fd o => ?_⟩
  · by_cases hi : i = i₀
    · subst hi
      simp only [State.Made, hself, hst₀, Option.some.injEq, exists_eq_left', horigin]
    · simp only [State.Made, hother i hi]
  · by_cases hi : i = i₀
    · subst hi
      simp only [State.Open, hself, hst₀, Option.some.injEq, exists_eq_left', h₀, h₁, false_and]
    · simp only [State.Open, hother i hi]

/-- `my_popen` hands out a stream. -/
theorem State.made_append {s s' : State} {st₀ : Stream} {o₀ : Origin}
    (h : s'.streams = s.streams ++ [st₀]) (h₀ : st₀.origin = some o₀) (i : ℕ) (o : Origin) :
    s'.Made i o ↔ s.Made i o ∨ i = s.streams.length ∧ o = o₀ := by
  simp only [State.Made, h, getElem?_concat_eq_some]
  constructor
  · rintro ⟨st, hst | ⟨hi, rfl⟩, ho⟩
    · exact Or.inl ⟨st, hst, ho⟩
    · exact Or.inr ⟨hi, Option.some.inj (ho.symm.trans h₀)⟩
  · rintro (⟨st, hst, ho⟩ | ⟨hi, rfl⟩)
    · exact ⟨st, Or.inl hst, ho⟩
    · exact ⟨st₀, Or.inr ⟨hi, rfl⟩, h₀⟩

theorem State.open_append {s s' : State} {st₀ : Stream} {o₀ : Origin}
    (h : s'.streams = s.streams ++ [st₀]) (h₀ : st₀.origin = some o₀) (hpopen₀ : st₀.IsPopen)
    (i fd : ℕ) (o : Origin) :
    s'.Open i fd o ↔ s.Open i fd o ∨ i = s.streams.length ∧ fd = st₀.fd ∧ o = o₀ := by
  simp only [State.Open, h, getElem?_concat_eq_some]
  constructor
  · rintro ⟨st, hst | ⟨hi, rfl⟩, hpopen, ho, hfd⟩
    · exact Or.inl ⟨st, hst, hpopen, ho, hfd⟩
    · exact Or.inr ⟨hi, hfd.symm, Option.some.inj (ho.symm.trans h₀)⟩
  · rintro (⟨st, hst, hpopen, ho, hfd⟩ | ⟨hi, rfl, rfl⟩)
    · exact ⟨st, Or.inl hst, hpopen, ho, hfd⟩
    · exact ⟨st₀, Or.inr ⟨hi, rfl⟩, hpopen₀, h₀, rfl⟩

/-- `my_pclose` closes a stream of `my_popen`. -/
theorem State.made_pclosed {s : State} {i₀ : ℕ} {st₀ : Stream} (hst₀ : s.streams[i₀]? = some st₀)
    (pid : ℤ) (i : ℕ) (o : Origin) : (s.pclosed i₀ st₀ pid).Made i o ↔ s.Made i o := by
  have hlt := (List.getElem?_eq_some_iff.1 hst₀).1
  by_cases hi : i = i₀
  · subst hi
    simp only [State.Made, State.pclosed, List.getElem?_set_self hlt, hst₀, Option.some.injEq,
      exists_eq_left']
  · simp only [State.Made, State.pclosed, List.getElem?_set_ne (Ne.symm hi)]

theorem State.open_pclosed {s : State} {i₀ : ℕ} {st₀ : Stream} (hst₀ : s.streams[i₀]? = some st₀)
    (pid : ℤ) (i fd : ℕ) (o : Origin) :
    (s.pclosed i₀ st₀ pid).Open i fd o ↔ s.Open i fd o ∧ i ≠ i₀ := by
  have hlt := (List.getElem?_eq_some_iff.1 hst₀).1
  by_cases hi : i = i₀
  · subst hi
    refine ⟨?_, fun h => absurd rfl h.2⟩
    rintro ⟨st, hst, hpopen, -⟩
    simp only [State.pclosed, List.getElem?_set_self hlt, Option.some.injEq] at hst
    subst hst
    exact absurd hpopen.2.1 nofun
  · simp only [State.Open, State.pclosed, List.getElem?_set_ne (Ne.symm hi), ne_eq, hi,
      not_false_eq_true, and_true]

/-! ### Who holds which pipe -/

theorem exists_get_of_mem {t : Table} {o : FileObj} (h : some o ∈ t) : ∃ fd, t.get fd = some o := by
  obtain ⟨fd, hfd⟩ := List.mem_iff_getElem?.1 h
  exact ⟨fd, by rw [Table.get, hfd]; rfl⟩

/-- The pipes that the process holds are those of its open streams of `my_popen`. -/
structure HoldsStreams (s : State) : Prop where
  held : ∀ i fd o, s.Open i fd o → s.proc.table.get fd = some (o.type.streamEnd o.pipe)
  ends : ∀ fd n, IsEnd n (s.proc.table.get fd) → ∃ i o, s.Open i fd o ∧ o.pipe = n
  pipe_lt : ∀ i o, s.Made i o → o.pipe < s.proc.pipes
  pipe_inj : ∀ i j o o', s.Made i o → s.Made j o' → o.pipe = o'.pipe → i = j

/-- The children are those of the open streams of `my_popen`, and the one that the process waits
for. -/
structure KnowsChildren (s : State) : Prop where
  child : ∀ i fd o, s.Open i fd o → ∃ ch ∈ s.proc.children, ch.pid = o.pid
  pid_inj : ∀ i j fd fd' o o', s.Open i fd o → s.Open j fd' o' → o.pid = o'.pid → i = j
  waits : ∀ pid, s.control = .wait pid → ∀ i fd o, s.Open i fd o → o.pid ≠ pid
  own : ∀ ch ∈ s.proc.children, ∃ i, s.Made i ⟨ch.type, ch.pid, ch.pipe⟩ ∧
    ((∃ fd, s.Open i fd ⟨ch.type, ch.pid, ch.pipe⟩) ∨ s.control = .wait ch.pid)
  childEnds : ∀ ch ∈ s.proc.children, ∀ fd n, IsEnd n (ch.table.get fd) →
    n = ch.pipe ∧ ch.table.get fd = some (ch.type.childEnd ch.pipe)

namespace HoldsStreams

theorem init (isOpen : List Bool) : HoldsStreams (init isOpen) where
  held := fun _ _ _ ⟨_, h, _⟩ => nomatch h
  ends := by
    intro fd n hend
    have hget : (Popen.init isOpen).proc.table.get fd = none ∨
        ∃ fd', (Popen.init isOpen).proc.table.get fd = some (.inherited fd') := by
      simp only [Popen.init, Table.get, List.getElem?_mapIdx]
      cases isOpen[fd]? with
      | none => exact Or.inl rfl
      | some b =>
          cases b with
          | false => exact Or.inl rfl
          | true => exact Or.inr ⟨fd, rfl⟩
    rcases hget with hget | ⟨fd', hget⟩ <;> rw [hget] at hend <;> rcases hend with hend | hend <;>
      cases hend
  pipe_lt := fun _ _ ⟨_, h, _⟩ => nomatch h
  pipe_inj := fun _ _ _ _ ⟨_, h, _⟩ => nomatch h

/-- A step that leaves the pipes alone. -/
theorem congr {s s' : State} (h : HoldsStreams s) (hsame : SamePopen s s')
    (hpipes : s'.proc.pipes = s.proc.pipes)
    (hheld : ∀ i fd o, s.Open i fd o → s'.proc.table.get fd = s.proc.table.get fd)
    (hends : ∀ fd n, IsEnd n (s'.proc.table.get fd) → IsEnd n (s.proc.table.get fd)) :
    HoldsStreams s' where
  held := by
    intro i fd o hopen
    rw [hsame.isOpen] at hopen
    rw [hheld i fd o hopen]
    exact h.held i fd o hopen
  ends := by
    intro fd n hend
    obtain ⟨i, o, hopen, ho⟩ := h.ends fd n (hends fd n hend)
    exact ⟨i, o, (hsame.isOpen i fd o).2 hopen, ho⟩
  pipe_lt := by
    intro i o hmade
    rw [hpipes]
    exact h.pipe_lt i o ((hsame.made i o).1 hmade)
  pipe_inj := fun i j o o' hi hj => h.pipe_inj i j o o' ((hsame.made i o).1 hi)
    ((hsame.made j o').1 hj)

/-- A file is opened under the lowest free descriptor. -/
theorem fopen {s s' : State} {o₀ : FileObj} (h : HoldsStreams s) (hsame : SamePopen s s')
    (hpipes : s'.proc.pipes = s.proc.pipes)
    (htable : s'.proc.table = s.proc.table.put s.proc.table.free o₀)
    (ho₀ : ∀ n, ¬ IsEnd n (some o₀)) : HoldsStreams s' := by
  refine h.congr hsame hpipes (fun i fd o hopen => ?_) fun fd n hend => ?_
  · rw [htable, Table.get_put, if_neg]
    rintro rfl
    have hheld := h.held i _ o hopen
    rw [Table.get_free] at hheld
    cases hheld
  · rw [htable, Table.get_put] at hend
    split at hend
    · exact absurd hend (ho₀ n)
    · exact hend

/-- A descriptor that is no open stream of `my_popen` is closed. -/
theorem fclose {s s' : State} {fd₀ : ℕ} (h : HoldsStreams s) (hsame : SamePopen s s')
    (hpipes : s'.proc.pipes = s.proc.pipes) (htable : s'.proc.table = s.proc.table.remove fd₀)
    (hfd₀ : ∀ i o, ¬ s.Open i fd₀ o) : HoldsStreams s' := by
  refine h.congr hsame hpipes (fun i fd o hopen => ?_) fun fd n hend => ?_
  · rw [htable, Table.get_remove, if_neg]
    rintro rfl
    exact hfd₀ i o hopen
  · rw [htable, Table.get_remove] at hend
    split at hend
    · exact absurd hend (not_isEnd_none n)
    · exact hend

/-- A stream of `my_popen` that is no longer open: nobody in the process holds its pipe. -/
theorem not_isEnd {s : State} (h : HoldsStreams s) {i : ℕ} {o : Origin} (hmade : s.Made i o)
    (hclosed : ∀ fd, ¬ s.Open i fd o) (fd : ℕ) : ¬ IsEnd o.pipe (s.proc.table.get fd) := by
  intro hend
  obtain ⟨j, o', hopen, ho'⟩ := h.ends fd _ hend
  obtain rfl := h.pipe_inj j i o' o hopen.made hmade ho'
  obtain rfl := hopen.made.unique hmade
  exact hclosed fd hopen

/-- The descriptor of a new stream is not that of an open one. -/
theorem ne_of_opened {s : State} {type : PopenType} {pid : ℤ} {fd : ℕ} {p : Proc}
    (h : HoldsStreams s)
    (hopen : Opened type pid s.proc fd p) {i fd' : ℕ} {o : Origin} (hold : s.Open i fd' o) :
    fd' ≠ fd := by
  rintro rfl
  have hget := h.held i fd' o hold
  rw [hopen.free] at hget
  cases hget

/-- `my_popen` hands out a stream. -/
theorem popen {s s' : State} {type : PopenType} {pid : ℤ} {fd : ℕ} (h : HoldsStreams s)
    (hopen : Opened type pid s.proc fd s'.proc)
    (hstreams : s'.streams = s.streams ++ [⟨fd, some ⟨type, pid, s.proc.pipes⟩, false, false⟩]) :
    HoldsStreams s' := by
  have hmade := State.made_append hstreams rfl
  have hopened := State.open_append hstreams rfl ⟨nofun, rfl, rfl⟩
  refine ⟨fun i fd' o hopen' => ?_, fun fd' n hend => ?_, fun i o hi => ?_,
    fun i j o o' hi hj heq => ?_⟩
  · rw [hopen.table]
    rcases (hopened i fd' o).1 hopen' with hold | ⟨-, rfl, rfl⟩
    · rw [if_neg (h.ne_of_opened hopen hold)]
      exact h.held i fd' o hold
    · rw [if_pos rfl]
  · rw [hopen.table] at hend
    split at hend
    · next hfd =>
        obtain rfl := isEnd_streamEnd_iff.1 hend
        exact ⟨_, _, (hopened _ fd' _).2 (Or.inr ⟨rfl, hfd, rfl⟩), rfl⟩
    · obtain ⟨i, o, hold, ho⟩ := h.ends fd' n hend
      exact ⟨i, o, (hopened i fd' o).2 (Or.inl hold), ho⟩
  · rw [hopen.pipes]
    rcases (hmade i o).1 hi with hi | ⟨-, rfl⟩
    · exact Nat.lt_succ_of_lt (h.pipe_lt i o hi)
    · exact Nat.lt_succ_self _
  · rcases (hmade i o).1 hi with hi | ⟨rfl, rfl⟩ <;> rcases (hmade j o').1 hj with hj | ⟨rfl, rfl⟩
    · exact h.pipe_inj i j o o' hi hj heq
    · exact absurd heq (Nat.ne_of_lt (h.pipe_lt i o hi))
    · exact absurd heq (Nat.ne_of_gt (h.pipe_lt j o' hj))
    · rfl

/-- `my_pclose` closes a stream of `my_popen`. -/
theorem pclosed {s : State} {i : ℕ} {st : Stream} {pid : ℤ} (h : HoldsStreams s)
    (hlinked : Linked s)
    (hst : s.streams[i]? = some st) (hpopen : st.IsPopen) : HoldsStreams (s.pclosed i st pid) := by
  have hmade := State.made_pclosed hst pid
  have hopened := State.open_pclosed hst pid
  have hself : ∀ o, st.origin = some o → s.Open i st.fd o := fun o ho => ⟨st, hst, hpopen, ho, rfl⟩
  obtain ⟨o₀, ho₀⟩ := Option.ne_none_iff_exists'.1 hpopen.1
  have hget : ∀ fd, (s.pclosed i st pid).proc.table.get fd =
      if fd = st.fd then none else s.proc.table.get fd := fun fd => Table.get_remove ..
  refine ⟨fun j fd o hj => ?_, fun fd n hend => ?_, fun j o hj => h.pipe_lt j o ((hmade j o).1 hj),
    fun j k o o' hj hk => h.pipe_inj j k o o' ((hmade j o).1 hj) ((hmade k o').1 hk)⟩
  · obtain ⟨hj, hne⟩ := (hopened j fd o).1 hj
    rw [hget, if_neg]
    · exact h.held j fd o hj
    · rintro rfl
      exact hne (hlinked.eq_of_fd hj (hself o₀ ho₀))
  · rw [hget] at hend
    split at hend
    · exact absurd hend (not_isEnd_none n)
    · next hfd =>
        obtain ⟨j, o, hj, ho⟩ := h.ends fd n hend
        refine ⟨j, o, (hopened j fd o).2 ⟨hj, ?_⟩, ho⟩
        rintro rfl
        obtain ⟨st', hst', -, -, hfd'⟩ := hj
        obtain rfl := Option.some.inj (hst.symm.trans hst')
        exact hfd hfd'.symm

end HoldsStreams

namespace KnowsChildren

theorem init (isOpen : List Bool) : KnowsChildren (init isOpen) where
  child := fun _ _ _ ⟨_, h, _⟩ => nomatch h
  pid_inj := fun _ _ _ _ _ _ ⟨_, h, _⟩ => nomatch h
  waits := fun _ _ _ _ _ ⟨_, h, _⟩ => nomatch h
  own := fun _ h => nomatch h
  childEnds := fun _ h => nomatch h

/-- A step that leaves the children and the streams alone. -/
theorem congr {s s' : State} (h : KnowsChildren s) (hsame : SamePopen s s')
    (hchildren : s'.proc.children = s.proc.children) (hctl : s'.control = s.control) :
    KnowsChildren s' where
  child := fun i fd o hopen => by
    rw [hchildren]
    exact h.child i fd o ((hsame.isOpen i fd o).1 hopen)
  pid_inj := fun i j fd fd' o o' hi hj =>
    h.pid_inj i j fd fd' o o' ((hsame.isOpen i fd o).1 hi) ((hsame.isOpen j fd' o').1 hj)
  waits := fun pid hwait i fd o hopen =>
    h.waits pid (hctl ▸ hwait) i fd o ((hsame.isOpen i fd o).1 hopen)
  own := by
    intro ch hch
    rw [hchildren] at hch
    obtain ⟨i, hmade, hor⟩ := h.own ch hch
    refine ⟨i, (hsame.made i _).2 hmade, hor.imp ?_ fun hwait => hctl.trans hwait⟩
    rintro ⟨fd, hopen⟩
    exact ⟨fd, (hsame.isOpen i fd _).2 hopen⟩
  childEnds := by
    rw [hchildren]
    exact h.childEnds

/-- A call of `my_popen` that is alone. -/
theorem popen {s s' : State} {type : PopenType} {pid : ℤ} {fd : ℕ} {table : Table}
    (h : KnowsChildren s)
    (hholds : HoldsStreams s) (hctl : s'.control = .ready)
    (hnew : ∀ ch ∈ s.proc.children, ch.pid ≠ pid)
    (halone : ∀ st ∈ s.streams, st.IsPopen → st.fd = type.target)
    (hchildren : s'.proc.children = ⟨pid, type, s.proc.pipes, table, true, false⟩ ::
      s.proc.children)
    (htable : ∀ fd, table.get fd =
      if fd = type.target then some (type.childEnd s.proc.pipes) else s.proc.table.get fd)
    (hctl₀ : s.control = .ready)
    (hstreams : s'.streams = s.streams ++ [⟨fd, some ⟨type, pid, s.proc.pipes⟩, false, false⟩]) :
    KnowsChildren s' := by
  have hmade := State.made_append hstreams rfl
  have hopened := State.open_append hstreams rfl ⟨nofun, rfl, rfl⟩
  -- the number of the new child is not that of another one
  have hpid : ∀ i fd' o, s.Open i fd' o → o.pid ≠ pid := by
    intro i fd' o hopen heq
    obtain ⟨ch, hch, hpid⟩ := h.child i fd' o hopen
    exact hnew ch hch (hpid.trans heq)
  refine ⟨fun i fd' o hi => ?_, fun i j fd' fd'' o o' hi hj heq => ?_, fun pid hwait => ?_,
    fun ch hch => ?_, fun ch hch fd' n hend => ?_⟩
  · rw [hchildren]
    rcases (hopened i fd' o).1 hi with hi | ⟨-, -, rfl⟩
    · obtain ⟨ch, hch, hpid⟩ := h.child i fd' o hi
      exact ⟨ch, List.mem_cons_of_mem _ hch, hpid⟩
    · exact ⟨_, List.mem_cons_self, rfl⟩
  · rcases (hopened i fd' o).1 hi with hi | ⟨rfl, -, rfl⟩ <;>
      rcases (hopened j fd'' o').1 hj with hj | ⟨rfl, -, rfl⟩
    · exact h.pid_inj i j fd' fd'' o o' hi hj heq
    · exact absurd heq (hpid i fd' o hi)
    · exact absurd heq.symm (hpid j fd'' o' hj)
    · rfl
  · rw [hctl] at hwait
    cases hwait
  · rw [hchildren, List.mem_cons] at hch
    rcases hch with rfl | hch
    · exact ⟨_, (hmade _ _).2 (Or.inr ⟨rfl, rfl⟩),
        Or.inl ⟨fd, (hopened _ fd _).2 (Or.inr ⟨rfl, rfl, rfl⟩)⟩⟩
    · obtain ⟨i, hi, ⟨fd', hopen⟩ | hwait⟩ := h.own ch hch
      · exact ⟨i, (hmade i _).2 (Or.inl hi), Or.inl ⟨fd', (hopened i fd' _).2 (Or.inl hopen)⟩⟩
      · rw [hctl₀] at hwait
        cases hwait
  · rw [hchildren, List.mem_cons] at hch
    rcases hch with rfl | hch
    · simp only [htable] at hend ⊢
      split at hend
      · next htarget => exact ⟨isEnd_childEnd_iff.1 hend, if_pos htarget⟩
      · next htarget =>
          -- any other pipe is that of a stream under another descriptor
          obtain ⟨i, o, ⟨st, hst, hpopen, -, hfd⟩, -⟩ := hholds.ends fd' n hend
          exact absurd (hfd.symm.trans (halone st (List.mem_of_getElem? hst) hpopen)) htarget
    · exact h.childEnds ch hch fd' n hend

/-- `my_pclose` closes a stream of `my_popen` and waits for its child. -/
theorem pclosed {s : State} {i : ℕ} {st : Stream} {o : Origin} (h : KnowsChildren s)
    (hst : s.streams[i]? = some st) (hpopen : st.IsPopen) (ho : st.origin = some o)
    (hctl : s.control = .ready) : KnowsChildren (s.pclosed i st o.pid) := by
  have hmade := State.made_pclosed hst o.pid
  have hopened := State.open_pclosed hst o.pid
  have hself : s.Open i st.fd o := ⟨st, hst, hpopen, ho, rfl⟩
  refine ⟨fun j fd o' hj => h.child j fd o' ((hopened j fd o').1 hj).1,
    fun j k fd fd' o' o'' hj hk => h.pid_inj j k fd fd' o' o'' ((hopened j fd o').1 hj).1
      ((hopened k fd' o'').1 hk).1, fun pid hwait j fd o' hj heq => ?_, fun ch hch =>
        ?_, h.childEnds⟩
  · obtain rfl : o.pid = pid := Control.wait.inj hwait
    obtain ⟨hj, hne⟩ := (hopened j fd o').1 hj
    exact hne (h.pid_inj j i fd st.fd o' o hj hself heq)
  · obtain ⟨j, hj, ⟨fd, hopen⟩ | hwait⟩ := h.own ch hch
    · by_cases hji : j = i
      · subst hji
        obtain rfl := hj.unique hself.made
        exact ⟨j, (hmade j _).2 hj, Or.inr rfl⟩
      · exact ⟨j, (hmade j _).2 hj, Or.inl ⟨fd, (hopened j fd _).2 ⟨hopen, hji⟩⟩⟩
    · rw [hctl] at hwait
      cases hwait

/-- The process stops waiting for a child that it does not have any more. -/
theorem stopWaiting {s s' : State} {pid : ℤ} (h : KnowsChildren s) (hctl : s.control = .wait pid)
    (hstreams : s'.streams = s.streams) (hctl' : s'.control = .ready)
    (hchildren : ∀ ch, ch ∈ s'.proc.children ↔ ch ∈ s.proc.children ∧ ch.pid ≠ pid) :
    KnowsChildren s' := by
  have hsame := SamePopen.of_streams hstreams
  refine ⟨fun i fd o hopen => ?_, fun i j fd fd' o o' hi hj =>
    h.pid_inj i j fd fd' o o' ((hsame.isOpen i fd o).1 hi) ((hsame.isOpen j fd' o').1 hj),
    fun pid' hwait => ?_, fun ch hch => ?_, fun ch hch => h.childEnds ch ((hchildren ch).1 hch).1⟩
  · rw [hsame.isOpen] at hopen
    obtain ⟨ch, hch, hpid⟩ := h.child i fd o hopen
    exact ⟨ch, (hchildren ch).2 ⟨hch, hpid ▸ h.waits pid hctl i fd o hopen⟩, hpid⟩
  · rw [hctl'] at hwait
    cases hwait
  · obtain ⟨hch, hne⟩ := (hchildren ch).1 hch
    obtain ⟨i, hi, ⟨fd, hopen⟩ | hwait⟩ := h.own ch hch
    · exact ⟨i, (hsame.made i _).2 hi, Or.inl ⟨fd, (hsame.isOpen i fd _).2 hopen⟩⟩
    · rw [hctl] at hwait
      exact absurd (Control.wait.inj hwait).symm hne

/-- A child exits. -/
theorem exit {s s' : State} {pid : ℤ} (h : KnowsChildren s) (hstreams : s'.streams = s.streams)
    (hctl : s'.control = s.control) (hchildren : s'.proc.children = s.proc.children.map fun ch =>
      if ch.pid = pid then { ch with table := [], exited := true } else ch) : KnowsChildren s' := by
  have hsame := SamePopen.of_streams hstreams
  -- a child of the new list was there before, with at least the same descriptors
  have hold : ∀ ch ∈ s'.proc.children, ∃ ch' ∈ s.proc.children, ch'.pid = ch.pid ∧
    ch'.type = ch.type ∧
      ch'.pipe = ch.pipe ∧ (ch.table = ch'.table ∨ ch.table = []) := by
    intro ch hch
    rw [hchildren] at hch
    obtain ⟨ch', hch', rfl⟩ := List.mem_map.1 hch
    refine ⟨ch', hch', ?_⟩
    split
    · exact ⟨rfl, rfl, rfl, Or.inr rfl⟩
    · exact ⟨rfl, rfl, rfl, Or.inl rfl⟩
  refine ⟨fun i fd o hopen => ?_, fun i j fd fd' o o' hi hj =>
    h.pid_inj i j fd fd' o o' ((hsame.isOpen i fd o).1 hi) ((hsame.isOpen j fd' o').1 hj),
    fun pid' hwait i fd o hopen => h.waits pid' (hctl ▸ hwait) i fd o
    ((hsame.isOpen i fd o).1 hopen), fun ch hch => ?_, fun ch hch fd n hend => ?_⟩
  · obtain ⟨ch, hch, hpid⟩ := h.child i fd o ((hsame.isOpen i fd o).1 hopen)
    rw [hchildren]
    refine ⟨_, List.mem_map_of_mem hch, ?_⟩
    split <;> exact hpid
  · obtain ⟨ch', hch', hpid, htype, hpipe, -⟩ := hold ch hch
    obtain ⟨i, hi, hor⟩ := h.own ch' hch'
    rw [hpid, htype, hpipe] at hi hor
    refine ⟨i, (hsame.made i _).2 hi, hor.imp ?_ fun hwait => hctl.trans hwait⟩
    rintro ⟨fd, hopen⟩
    exact ⟨fd, (hsame.isOpen i fd _).2 hopen⟩
  · obtain ⟨ch', hch', -, htype, hpipe, htable | htable⟩ := hold ch hch
    · rw [htable] at hend ⊢
      rw [← htype, ← hpipe]
      exact h.childEnds ch' hch' fd n hend
    · rw [htable] at hend
      exact absurd hend (not_isEnd_none n)

end KnowsChildren

/-- A child that has exited is not waited for long. -/
theorem returns_of_exited {s : State} {pid : ℤ} (hwait : s.control = .wait pid)
    (hexited : ∀ ch ∈ s.proc.children, ch.pid = pid → ch.exited = true) : s.Returns := by
  obtain ⟨s', hs', hready⟩ : ∃ s', eofStep s .wait = some s' ∧ s'.control = .ready := by
    simp only [eofStep, step, hwait]
    split
    · exact ⟨_, rfl, rfl⟩
    · next ch hfind =>
        have hpid : ch.pid = pid := by simpa using List.find?_some hfind
        rw [if_pos (hexited ch (List.mem_of_find?_eq_some hfind) hpid)]
        exact ⟨_, rfl, rfl⟩
  exact ⟨[.wait], s', by rw [Runs.run_cons_of_step hs', Runs.run_nil], hready⟩

/-- What a run keeps whose calls of `my_popen` are alone. -/
structure Sole (s : State) : Prop extends Linked s, HoldsStreams s, KnowsChildren s

namespace Sole

theorem init (isOpen : List Bool) : Sole (init isOpen) :=
  ⟨.init isOpen, .init isOpen, .init isOpen⟩

/-- **One step of a run whose calls of `my_popen` are alone.** -/
theorem of_step {s s' : State} {a : Act} (h : Sole s) (hok : Alone s a) (hs : step s a = some s') :
    Sole s' := by
  have hlinked := h.toLinked.of_step hok.proper hs
  cases Move.of_step hs with
  | popenNull hctl hnull hfd =>
      obtain ⟨rfl, hsome, -⟩ := hok
      exact absurd hnull hsome
  | popen hctl hpid hnew hopen =>
      obtain ⟨rfl, -, halone⟩ := hok
      obtain ⟨table, hchildren, htable⟩ := myPopen_children _ _ s.proc
      exact ⟨hlinked, h.toHoldsStreams.popen hopen rfl,
        h.toKnowsChildren.popen h.toHoldsStreams hctl hnew halone hchildren htable hctl rfl⟩
  | @fopen path hctl =>
      have hfile : ∀ n, ¬ IsEnd n (some (.file path .read)) := by
        rintro n (hend | hend) <;> cases hend
      exact ⟨hlinked, h.toHoldsStreams.fopen (.append rfl rfl) rfl rfl hfile,
        h.toKnowsChildren.congr (.append rfl rfl) rfl rfl⟩
  | @fclose i st hctl hst =>
      have horigin : st.origin = none := hok st hst
      obtain ⟨hst', hfreed⟩ := State.stream_eq_some.1 hst
      have hpopen : ∀ freed, ¬ { st with freed := freed }.IsPopen :=
        fun _ hpopen => hpopen.1 horigin
      -- the descriptor belongs to a file, so it is not that of an open stream of `my_popen`
      have hother : ∀ j o, ¬ s.Open j st.fd o := by
        rintro j o ⟨st'', hst'', hpopen'', -, hfd⟩
        obtain rfl := h.distinct j i st'' st hst'' hst' hpopen''.isOpen
          ⟨hfreed, fun hne => absurd horigin hne⟩ hfd
        obtain rfl := Option.some.inj (hst''.symm.trans hst')
        exact hpopen''.1 horigin
      have hsame : SamePopen s { s with
          streams := s.streams.set i { st with freed := true }
          proc := { s.proc with table := s.proc.table.remove st.fd } } :=
        .set hst' rfl rfl (hpopen st.freed) (hpopen true)
      exact ⟨hlinked, h.toHoldsStreams.fclose hsame rfl rfl hother,
        h.toKnowsChildren.congr hsame rfl rfl⟩
  | pcloseFault | pcloseNotFound | pcloseExit | pcloseWait =>
      obtain ⟨st, hst, ⟨hpopen, heq⟩ | ⟨o, hpopen, ho, hctl, heq⟩⟩ := h.toLinked.of_pclose hok hs
      · obtain ⟨hst', -⟩ := State.stream_eq_some.1 hst
        have hsame : SamePopen s { s with streams := s.streams.set _ { st with passed := true } } :=
          SamePopen.set hst' rfl rfl hpopen (fun hpopen' => absurd hpopen'.2.1 nofun)
        rw [heq] at hlinked ⊢
        exact ⟨hlinked, h.toHoldsStreams.congr hsame rfl (fun _ _ _ _ => rfl)
          (fun _ _ hend => hend), h.toKnowsChildren.congr hsame rfl rfl⟩
      · obtain ⟨hst', -⟩ := State.stream_eq_some.1 hst
        rw [heq] at hlinked ⊢
        exact ⟨hlinked, h.toHoldsStreams.pclosed h.toLinked hst' hpopen,
          h.toKnowsChildren.pclosed hst' hpopen ho hctl⟩
  | waitFail hctl hnone =>
      refine ⟨hlinked, h.toHoldsStreams.congr (.of_streams rfl) rfl (fun _ _ _ _ => rfl)
        (fun _ _ hend => hend), h.toKnowsChildren.stopWaiting hctl rfl rfl fun ch => ?_⟩
      refine ⟨fun hch => ⟨hch, fun heq => ?_⟩, fun hch => hch.1⟩
      simpa [heq] using List.find?_eq_none.1 hnone ch hch
  | reap hctl =>
      refine ⟨hlinked, h.toHoldsStreams.congr (.of_streams rfl) rfl (fun _ _ _ _ => rfl)
        (fun _ _ hend => hend), h.toKnowsChildren.stopWaiting hctl rfl rfl fun ch => ?_⟩
      simp
  | exit =>
      exact ⟨hlinked, h.toHoldsStreams.congr (.of_streams rfl) rfl (fun _ _ _ _ => rfl)
        (fun _ _ hend => hend), h.toKnowsChildren.exit rfl rfl rfl⟩

theorem holdsOwn {s : State} (h : Sole s) {ch : Child} (hch : ch ∈ s.proc.children) : ch.HoldsOwn :=
  fun fd n hend => (h.childEnds ch hch fd n hend).1

/-- **Nobody holds the write end of a pipe whose stream has been closed.** -/
theorem atEof {s : State} (h : Sole s) {i : ℕ} {o : Origin} (hmade : s.Made i o)
    (hclosed : ∀ fd, ¬ s.Open i fd o) (htype : o.type = .w) : s.AtEof o.pipe := by
  refine ⟨fun hmem => ?_, fun ch hch hmem => ?_⟩
  · obtain ⟨fd, hget⟩ := exists_get_of_mem hmem
    exact h.toHoldsStreams.not_isEnd hmade hclosed fd (Or.inr hget)
  · obtain ⟨fd, hget⟩ := exists_get_of_mem hmem
    obtain ⟨hpipe, hend⟩ := h.childEnds ch hch fd o.pipe (Or.inr hget)
    -- it can only be the child that the pipe was made for, and that one has the other end
    obtain ⟨j, hj, -⟩ := h.own ch hch
    obtain rfl := h.pipe_inj j i _ o hj hmade hpipe.symm
    obtain rfl := hj.unique hmade
    rw [hget, show ch.type = .w from htype] at hend
    cases hend

/-- The child that the process waits for may exit. -/
theorem mayExit {s : State} (h : Sole s) {pid : ℤ} (hwait : s.control = .wait pid) :
    s.MayExit pid := by
  intro ch hch hpid htype
  obtain ⟨i, hmade, -⟩ := h.own ch hch
  refine h.atEof hmade (fun fd hopen => ?_) htype
  exact h.waits pid hwait i fd _ hopen hpid

/-- **`my_pclose` comes back.** -/
theorem returns {s : State} (h : Sole s) {pid : ℤ} (hwait : s.control = .wait pid) : s.Returns := by
  by_cases hlive : ∃ ch ∈ s.proc.children, ch.pid = pid ∧ ch.exited = false
  · -- the child exits first
    obtain ⟨s', hs', hwait', hexited⟩ : ∃ s', eofStep s (.exit pid) = some s' ∧
        s'.control = .wait pid ∧ ∀ ch ∈ s'.proc.children, ch.pid = pid → ch.exited = true := by
      refine ⟨_, (if_pos (h.mayExit hwait)).trans (if_pos hlive), hwait, fun ch hch hpid => ?_⟩
      obtain ⟨ch', -, rfl⟩ := List.mem_map.1 hch
      split at hpid
      · next heq => rw [if_pos heq]
      · next hne => exact absurd hpid hne
    obtain ⟨as, s'', hrun, hready⟩ := returns_of_exited hwait' hexited
    exact ⟨.exit pid :: as, s'', by rw [Runs.run_cons_of_step hs', hrun], hready⟩
  · refine returns_of_exited hwait fun ch hch hpid => ?_
    by_contra hne
    exact hlive ⟨ch, hch, hpid, by simpa using hne⟩

/-- **A call of `my_popen` that is not alone** makes a child that holds another pipe. -/
theorem not_holdsOwn {s s' : State} {type : PopenType} {pid : ℤ} (h : Sole s)
    (hs : step s (.popen type pid .none) = some s') {st : Stream} (hmem : st ∈ s.streams)
    (hpopen : st.IsPopen) (hfd : st.fd ≠ type.target) : ∃ ch ∈ s'.proc.children, ¬ ch.HoldsOwn := by
  obtain ⟨i, hst⟩ := List.mem_iff_getElem?.1 hmem
  obtain ⟨o, ho⟩ := Option.ne_none_iff_exists'.1 hpopen.1
  have hopen : s.Open i st.fd o := ⟨st, hst, hpopen, ho, rfl⟩
  obtain ⟨table, hchildren, htable⟩ := myPopen_children type pid s.proc
  have hproc : s'.proc = (myPopen type pid .none s.proc).2 := by
    cases Move.of_step hs <;> rfl
  refine ⟨⟨pid, type, s.proc.pipes, table, true, false⟩, ?_, fun hown => ?_⟩
  · rw [hproc, hchildren]
    exact List.mem_cons_self
  · have hend : IsEnd o.pipe (table.get st.fd) := by
      rw [htable, if_neg hfd, h.held i st.fd o hopen]
      exact isEnd_streamEnd o.type o.pipe
    exact absurd (hown st.fd o.pipe hend) (Nat.ne_of_lt (h.pipe_lt i o hopen.made))

end Sole

/-! ### Every run -/

/-- **Every child holds its own pipe only**, in every run whose calls of `my_popen` are alone.  So
nobody holds the write end of a pipe whose stream has been closed, and `my_pclose` comes back.  A
call of `my_popen` that is not alone makes a child that holds another pipe. -/
theorem holdsOwn_of_alone {isOpen : List Bool} {s : State}
    (h : Runs.ReachableVia step Alone (init isOpen) s) :
    (∀ ch ∈ s.proc.children, ch.HoldsOwn) ∧
    (∀ st ∈ s.streams, ∀ o, st.origin = some o → o.type = .w → st.passed = true → s.AtEof o.pipe) ∧
    (∀ pid, s.control = .wait pid → s.Returns) ∧
    ∀ type pid s', step s (.popen type pid .none) = some s' →
      (myPopen type pid .none s.proc).1 ≠ none → ¬ Alone s (.popen type pid .none) →
        ∃ ch ∈ s'.proc.children, ¬ ch.HoldsOwn := by
  have hsole : Sole s := h.invariant (fun _ _ _ hi hok hs => hi.of_step hok hs) (.init isOpen)
  refine ⟨fun ch hch => hsole.holdsOwn hch, fun st hmem o ho htype hpassed => ?_,
    fun pid hwait => hsole.returns hwait, fun type pid s' hs hsome hbad => ?_⟩
  · obtain ⟨i, hst⟩ := List.mem_iff_getElem?.1 hmem
    refine hsole.atEof ⟨st, hst, ho⟩ ?_ htype
    rintro fd ⟨st', hst', hpopen, -⟩
    obtain rfl := Option.some.inj (hst.symm.trans hst')
    rw [hpopen.2.1] at hpassed
    cases hpassed
  · by_contra hnone
    refine hbad ⟨rfl, hsome, fun st hmem hpopen => ?_⟩
    by_contra hfd
    exact hnone (hsole.not_holdsOwn hs hmem hpopen hfd)

/-- A command that is written to is closed before the next one is started. -/
def oneWriter : List Act :=
  [.popen .w 100 .none, .pclose 0, .exit 100, .wait, .popen .w 101 .none, .pclose 1]

theorem holdsOwn_of_alone_oneWriter :
    ∃ s, Runs.ReachableVia step Alone (init [true, true, true]) s ∧ s.control = .wait 101 ∧
      s.AtEof 1 ∧ s.Returns := by
  have hend : (Runs.run (fun s a => if Alone s a then step s a else none) (init [true, true, true])
      oneWriter).map (fun s => (s.control, s.streams[1]?)) =
        some (.wait 101, some ⟨4, some ⟨.w, 101, 1⟩, true, false⟩) := by decide
  obtain ⟨s, hs, heq⟩ := Option.map_eq_some_iff.1 hend
  obtain ⟨hwait, hst⟩ := Prod.mk.inj heq
  have hvia := Runs.ReachableVia.of_run hs
  obtain ⟨-, hclosed, hreturns, -⟩ := holdsOwn_of_alone hvia
  exact ⟨s, hvia, hwait, hclosed _ (List.mem_of_getElem? hst) ⟨.w, 101, 1⟩ rfl rfl rfl,
    hreturns 101 hwait⟩

/-- Two commands that are written to are started, and then the first one is closed. -/
def twoWriters : List Act := [.popen .w 100 .none, .popen .w 101 .none, .pclose 0]

/-- **Two commands that are written to, and `my_pclose` of the first one never comes back**: the
second child holds the write end of the first pipe, and neither of the two children gets to an end
of file. -/
theorem exists_blocked_twoWriters :
    ∃ s, Runs.Reachable eofStep (init [true, true, true]) s ∧ s.control = .wait 100 ∧
      (∃ ch ∈ s.proc.children, ch.execed = true ∧ ¬ ch.HoldsOwn) ∧ ¬ s.AtEof 0 ∧
      Runs.Stuck eofStep s ∧ ¬ s.Returns := by
  have hend : (Runs.run eofStep (init [true, true, true]) twoWriters).map
      (fun s => (s.control, s.proc.table, s.proc.children)) =
        some (.wait 100,
          [some (.inherited 0), some (.inherited 1), some (.inherited 2), none, none,
            some (.writeEnd [] 1)],
          [⟨101, .w, 1, [some (.readEnd [] 1), some (.inherited 1), some (.inherited 2), none,
              some (.writeEnd [] 0), none], true, false⟩,
            ⟨100, .w, 0, [some (.readEnd [] 0), some (.inherited 1), some (.inherited 2), none,
              none], true, false⟩]) := by decide
  obtain ⟨s, hs, heq⟩ := Option.map_eq_some_iff.1 hend
  obtain ⟨hwait, heq⟩ := Prod.mk.inj heq
  obtain ⟨htable, hchildren⟩ := Prod.mk.inj heq
  have hsecond : ⟨101, .w, 1, [some (.readEnd [] 1), some (.inherited 1), some (.inherited 2), none,
      some (.writeEnd [] 0), none], true, false⟩ ∈ s.proc.children := by
    rw [hchildren]
    exact List.mem_cons_self
  -- the pipe of either child is held for writing, by the second child and by the process
  have heof : ¬ s.AtEof 0 := fun h => absurd (h.2 _ hsecond) (by decide)
  have heof' : ¬ s.AtEof 1 := fun h => absurd h.1 (by rw [htable]; decide)
  have hstuck : Runs.Stuck eofStep s := by
    intro a
    cases a with
    | popen type pid fails => simp [eofStep, step, hwait]
    | fopen path => simp [eofStep, step, hwait]
    | fclose i => simp [eofStep, step, hwait]
    | pclose i => simp [eofStep, step, hwait]
    | wait => simp [eofStep, step, hwait, hchildren]
    | exit pid =>
        by_cases hmay : s.MayExit pid
        · refine (if_pos hmay).trans (if_neg ?_)
          rintro ⟨ch, hch, rfl, -⟩
          have hmem := hch
          rw [hchildren, List.mem_pair] at hmem
          rcases hmem with rfl | rfl
          · exact heof' (hmay _ hch rfl rfl)
          · exact heof (hmay _ hch rfl rfl)
        · exact if_neg hmay
  refine ⟨s, .of_run hs, hwait, ⟨_, hsecond, rfl, fun hown => ?_⟩, heof, hstuck, ?_⟩
  · exact absurd (hown 4 0 (Or.inr rfl)) (by decide)
  · rintro ⟨as, s', hrun, hready⟩
    rw [hstuck.eq_of_run hrun, hwait] at hready
    cases hready

end Popen
