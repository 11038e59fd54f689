/-
**The descriptors that the `/proc` scanners open (`HW4/12_1.c`, `HW4/12_2.c`).**

Both programs open the status file of every process.  `12_2` never closes one.  `12_1` reads the
file through a stream that it does not close; at the end of an iteration that has printed a process
it closes `status_fd`, a variable that it has not initialised.  `12_1` takes a file that cannot be
opened for an entry without a status file, whatever the reason; `12_2` ends unless there is no such
file.

An iteration of the loop is one step of a run; what the entry leads to is the action.  `readdir`
goes on returning the entries of the listing.

Main definitions:

* `ScanFds.Scan`, `ScanFds.Steady` — a head of the loop, and what is claimed about it;
* `ScanFds.selected`, `ScanFds.iterate₁`, `ScanFds.step₁` — the loop of `12_1`;
* `ScanFds.iterate₂`, `ScanFds.step₂` — the loop of `12_2`;
* `ScanFds.PassedOver`, `ScanFds.Inserts` — what becomes of an entry.

Main results:

* `ScanFds.steady_step₁_iff`, `ScanFds.steady_step₂_iff` — **one iteration**;
* `ScanFds.nodes_le_limit` — `12_2` has a descriptor open for every process in its list;
* `ScanFds.steady_iff` — the runs in which the number of descriptors does not change.
-/

import NetSysProg.Descriptors
import NetSysProg.PsTreeListing
import NetSysProg.Runs

set_option relaxedAutoImplicit false
set_option autoImplicit false

namespace ScanFds

open CString Descriptors Status

/-! ### Heads of the loop -/

/-- A program at a head of its loop: its open descriptors, what it has found, unless it has ended,
and whether a file could not be opened because of the limit. -/
structure Scan (σ : Type) where
  table : Table
  found : Option σ
  limited : Bool

variable {σ : Type}

/-- The next head. -/
def Scan.after (s : Scan σ) (limited : Bool) (o : Outcome (Table × σ)) : Scan σ :=
  match o with
  | .ok (table, found) => ⟨table, some found, s.limited || limited⟩
  | _ => ⟨s.table, none, s.limited || limited⟩

/-- There are `n` descriptors open at the head, if there is one, and no file that could be opened
with more descriptors has been given up. -/
def Steady (n : ℕ) (s : Scan σ) : Prop :=
  (∀ found, s.found = some found → s.table.fds.card = n) ∧ s.limited = false

/-! ### `12_1` -/

/-- An entry of `/proc` for `12_1`: its status file, if it has one; what is in the variables that
have not been initialised; and whether `write` succeeds. -/
structure Entry where
  file : Option (List Byte)
  locals : ℕ → Locals
  pid : ℤ
  written : Bool

/-- The iteration from the first `fgets` on, up to the output. -/
def selected (uid : UInt32) (e : Entry) (content : List Byte) :
    Outcome (Option (ℤ × List Byte)) := do
  let st ← scanStatus e.locals uid e.pid content
  match st with
  | none => return none
  | some st => report st

/-- An iteration. -/
def iterate₁ (uid : UInt32) (statusFd : ℤ) (e : Entry) (t : Table) (found : List (ℤ × List Byte)) :
    Outcome (Table × List (ℤ × List Byte)) :=
  match e.file, t.opened with
  | some content, some t => do
      let line ← selected uid e content
      match line with
      | none => return (t, found)
      | some line =>
          if e.written then
            match t.close statusFd with
            | some t => return (t, found ++ [line])
            | none => .exit 1 "close"
          else .exit 1 "write"
  | _, _ => .ok (t, found)

/-- One step of a run of `12_1`. -/
def step₁ (uid : UInt32) (statusFd : ℤ) (s : Scan (List (ℤ × List Byte))) (e : Entry) :
    Option (Scan (List (ℤ × List Byte))) :=
  s.found.map fun found =>
    s.after (e.file.isSome && s.table.opened.isNone) (iterate₁ uid statusFd e s.table found)

/-- The entry has a status file, and the process is passed over. -/
def PassedOver (uid : UInt32) (e : Entry) : Prop :=
  ∃ content, e.file = some content ∧ selected uid e content = .ok none

/-! ### `12_2` -/

/-- An iteration; a descriptor is needed also to find out that there is no file. -/
def iterate₂ (file : PsTree.StatusFile) (t : Table) (list : PsTree.State) :
    Outcome (Table × PsTree.State) :=
  match t.opened with
  | none => .exit 1 "open status file"
  | some t' => do
      let list ← PsTree.scanEntry file list
      match file with
      | .missing _ => return (t, list)
      | _ => return (t', list)

/-- One step of a run of `12_2`. -/
def step₂ (s : Scan PsTree.State) (file : PsTree.StatusFile) : Option (Scan PsTree.State) :=
  s.found.map fun list => s.after s.table.opened.isNone (iterate₂ file s.table list)

/-- A process is found in the status file. -/
def Inserts (file : PsTree.StatusFile) : Prop :=
  ∃ content p, file = .content content ∧ PsTree.parse content = .ok p

/-! ### One iteration -/

/-- The entry has no status file, or there is a descriptor for it and the process is not passed
over. -/
def Kept₁ (uid : UInt32) (s : Scan (List (ℤ × List Byte))) (e : Entry) : Prop :=
  e.file = none ∨ (s.table.opened ≠ none ∧ ¬ PassedOver uid e)

/-- There is a descriptor, and no process is found. -/
def Kept₂ (s : Scan PsTree.State) (file : PsTree.StatusFile) : Prop :=
  s.table.opened ≠ none ∧ ¬ Inserts file

theorem steady_after_ok {n : ℕ} {s : Scan σ} (hs : s.limited = false) (limited : Bool) (t : Table)
    (found : σ) :
    Steady n (s.after limited (.ok (t, found))) ↔ t.fds.card = n ∧ limited = false := by
  simp [Steady, Scan.after, hs]

theorem steady_after_end {n : ℕ} {s : Scan σ} (hs : s.limited = false) (limited : Bool)
    {o : Outcome (Table × σ)} (ho : ∀ r, o ≠ .ok r) :
    Steady n (s.after limited o) ↔ limited = false := by
  cases o with
  | ok r => exact absurd rfl (ho r)
  | exit status message => simp [Steady, Scan.after, hs]
  | fault => simp [Steady, Scan.after, hs]
  | timeout => simp [Steady, Scan.after, hs]

/-- **One iteration of `12_1`.** -/
theorem steady_step₁_iff {uid : UInt32} {statusFd : ℤ} {n : ℕ} {s s' : Scan (List (ℤ × List Byte))}
    {e : Entry} (h : Steady n s) (hstep : step₁ uid statusFd s e = some s') :
    Steady n s' ↔ Kept₁ uid s e := by
  obtain ⟨found, hfound, rfl⟩ := Option.map_eq_some_iff.1 hstep
  obtain ⟨hcard, hlimited⟩ := h
  have hn := hcard found hfound
  unfold Kept₁ PassedOver iterate₁
  cases hfile : e.file with
  | none =>
      rw [steady_after_ok hlimited]
      simp [hn]
  | some content =>
      cases hopen : s.table.opened with
      | none =>
          rw [steady_after_ok hlimited]
          simp
      | some t =>
          have ht := Table.card_opened hopen
          dsimp only
          cases hline : selected uid e content with
          | ok line =>
              cases line with
              | none =>
                  -- the stream stays open
                  rw [Outcome.bind_ok, Outcome.pure_eq, steady_after_ok hlimited]
                  refine iff_of_false (fun hsteady => by omega) ?_
                  simp [hline]
              | some line =>
                  have hkept : some content = none ∨ some t ≠ none ∧
                      ¬ ∃ c, some content = some c ∧ selected uid e c = .ok none := by
                    simp [hline]
                  refine iff_of_true ?_ hkept
                  rw [Outcome.bind_ok]
                  dsimp only
                  by_cases hwritten : e.written = true
                  · rw [if_pos hwritten]
                    cases hclose : t.close statusFd with
                    | none => exact (steady_after_end hlimited _ (by simp)).2 rfl
                    | some t' =>
                        have ht' := Table.card_close hclose
                        exact (steady_after_ok hlimited _ _ _).2 ⟨by omega, rfl⟩
                  · rw [if_neg hwritten]
                    exact (steady_after_end hlimited _ (by simp)).2 rfl
          | exit status message =>
              rw [Outcome.bind_exit, steady_after_end hlimited _ (by simp)]
              simp [hline]
          | fault =>
              rw [Outcome.bind_fault, steady_after_end hlimited _ (by simp)]
              simp [hline]
          | timeout =>
              rw [Outcome.bind_timeout, steady_after_end hlimited _ (by simp)]
              simp [hline]

/-- What an iteration of `12_2` does to the list. -/
theorem scanEntry_cases (file : PsTree.StatusFile) (list : PsTree.State) :
    (∃ list', PsTree.scanEntry file list = .ok list' ∧ Inserts file ∧
      list'.nodes.length = list.nodes.length + 1) ∨
    (PsTree.scanEntry file list = .ok list ∧ ∃ errno, file = .missing errno) ∨
    ((∀ list', PsTree.scanEntry file list ≠ .ok list') ∧ ¬ Inserts file) := by
  cases file with
  | missing errno =>
      by_cases herrno : errno = .enoent ∨ errno = .enotdir
      · exact Or.inr (Or.inl ⟨if_pos herrno, errno, rfl⟩)
      · refine Or.inr (Or.inr ⟨fun list' hlist' => ?_, ?_⟩)
        · rw [PsTree.scanEntry, if_neg herrno] at hlist'
          cases hlist'
        · rintro ⟨content, p, hfile, -⟩
          cases hfile
  | unreadable =>
      refine Or.inr (Or.inr ⟨by simp [PsTree.scanEntry], ?_⟩)
      rintro ⟨content, p, hfile, -⟩
      cases hfile
  | content bytes =>
      by_cases hp : ∃ p, PsTree.parse bytes = .ok p
      · obtain ⟨p, hp⟩ := hp
        refine Or.inl ⟨⟨list.nodes ++ [⟨p, none, [none], list.listRoot⟩], some list.nodes.length⟩,
          ?_, ⟨bytes, p, rfl, hp⟩, ?_⟩
        · rw [PsTree.scanEntry, hp, Outcome.bind_ok, PsTree.insertNode,
            if_pos (PsTree.length_name_of_parse hp)]
        · rw [List.length_append, List.length_singleton]
      · refine Or.inr (Or.inr ⟨fun list' hlist' => ?_, ?_⟩)
        · obtain ⟨p, hparse, -⟩ := Outcome.bind_eq_ok.1 hlist'
          exact hp ⟨p, hparse⟩
        · rintro ⟨content, p, hfile, hparse⟩
          cases hfile
          exact hp ⟨p, hparse⟩

/-- **One iteration of `12_2`.** -/
theorem steady_step₂_iff {n : ℕ} {s s' : Scan PsTree.State} {file : PsTree.StatusFile}
    (h : Steady n s) (hstep : step₂ s file = some s') : Steady n s' ↔ Kept₂ s file := by
  obtain ⟨list, hfound, rfl⟩ := Option.map_eq_some_iff.1 hstep
  obtain ⟨hcard, hlimited⟩ := h
  have hn := hcard list hfound
  unfold Kept₂ iterate₂
  cases hopen : s.table.opened with
  | none =>
      rw [steady_after_end hlimited _ (by simp)]
      simp
  | some t =>
      have ht := Table.card_opened hopen
      dsimp only
      rcases scanEntry_cases file list with ⟨list', hentry, hins, -⟩ |
        ⟨hentry, errno, rfl⟩ | ⟨hend, hins⟩
      · obtain ⟨content, p, rfl, hp⟩ := hins
        rw [hentry, Outcome.bind_ok]
        dsimp only [Outcome.pure_eq]
        rw [steady_after_ok hlimited]
        exact iff_of_false (fun hsteady => by omega) fun hkept => hkept.2 ⟨content, p, rfl, hp⟩
      · rw [hentry, Outcome.bind_ok]
        dsimp only [Outcome.pure_eq]
        rw [steady_after_ok hlimited]
        refine iff_of_true ⟨hn, rfl⟩ ⟨by simp, ?_⟩
        rintro ⟨content, p, hfile, -⟩
        cases hfile
      · rw [steady_after_end hlimited]
        · exact iff_of_true rfl ⟨by simp, hins⟩
        · intro r hr
          obtain ⟨list', hentry, -⟩ := Outcome.bind_eq_ok.1 hr
          exact hend list' hentry

/-! ### All iterations -/

/-- At a head `12_2` has a descriptor open for every process in its list. -/
def Leaks (t : Table) (s : Scan PsTree.State) : Prop :=
  ∀ list, s.found = some list → s.table.Bounded ∧ s.table.limit = t.limit ∧
    s.table.fds.card = t.fds.card + list.nodes.length

theorem Leaks.step {t : Table} {s s' : Scan PsTree.State} {file : PsTree.StatusFile} (h : Leaks t s)
    (hstep : step₂ s file = some s') : Leaks t s' := by
  obtain ⟨list, hfound, rfl⟩ := Option.map_eq_some_iff.1 hstep
  obtain ⟨hbounded, hlimit, hcard⟩ := h list hfound
  intro list' hlist'
  unfold iterate₂ at hlist' ⊢
  cases hopen : s.table.opened with
  | none =>
      rw [hopen] at hlist'
      cases hlist'
  | some t' =>
      rw [hopen] at hlist'
      dsimp only at hlist' ⊢
      rcases scanEntry_cases file list with ⟨l, hentry, ⟨content, p, rfl, -⟩, hnodes⟩ |
        ⟨hentry, errno, rfl⟩ | ⟨hend, -⟩
      · rw [hentry, Outcome.bind_ok] at hlist' ⊢
        cases hlist'
        refine ⟨hbounded.opened hopen, (Table.limit_opened hopen).trans hlimit, ?_⟩
        have ht' : t'.fds.card = t.fds.card + list'.nodes.length := by
          rw [Table.card_opened hopen, hcard, hnodes, Nat.add_assoc]
        exact ht'
      · rw [hentry, Outcome.bind_ok] at hlist' ⊢
        cases hlist'
        exact ⟨hbounded, hlimit, hcard⟩
      · cases hentry : PsTree.scanEntry file list with
        | ok l => exact absurd hentry (hend l)
        | exit status message =>
            rw [hentry] at hlist'
            cases hlist'
        | fault =>
            rw [hentry] at hlist'
            cases hlist'
        | timeout =>
            rw [hentry] at hlist'
            cases hlist'

/-- **`12_2` finds no more processes than there are descriptors left** at the first head. -/
theorem nodes_le_limit {t : Table} (ht : t.Bounded) {s : Scan PsTree.State} {list : PsTree.State}
    (h : Runs.Reachable step₂ ⟨t, some .empty, false⟩ s) (hlist : s.found = some list) :
    t.fds.card + list.nodes.length ≤ t.limit := by
  have hinit : Leaks t ⟨t, some .empty, false⟩ := by
    intro list hlist
    cases hlist
    exact ⟨ht, rfl, rfl⟩
  obtain ⟨hbounded, hlimit, hcard⟩ := h.invariant (fun _ _ _ hi hs => hi.step hs) hinit list hlist
  rw [← hcard, ← hlimit]
  exact hbounded.card_le

theorem steady_start (t : Table) (found : σ) : Steady t.fds.card ⟨t, some found, false⟩ :=
  ⟨fun _ _ => rfl, rfl⟩

/-- **The runs in which the number of open descriptors stays the same**, at every head and without
an entry being given up for lack of a descriptor.  In `12_1` no status file that has been opened may
belong to a process that is passed over, and in `12_2` no process may be found at all. -/
theorem steady_iff (t : Table) (uid : UInt32) (statusFd : ℤ) (entries : List Entry)
    (files : List PsTree.StatusFile) :
    (Runs.Throughout (step₁ uid statusFd) (Steady t.fds.card) ⟨t, some [], false⟩ entries ↔
      Runs.EachStep (step₁ uid statusFd) (Kept₁ uid) ⟨t, some [], false⟩ entries) ∧
    (Runs.Throughout step₂ (Steady t.fds.card) ⟨t, some .empty, false⟩ files ↔
      Runs.EachStep step₂ Kept₂ ⟨t, some .empty, false⟩ files) := by
  constructor
  · exact Runs.throughout_iff (I := fun _ => True) (fun _ _ _ _ _ => trivial)
      (fun _ _ _ _ hs hstep => steady_step₁_iff hs hstep) trivial (steady_start t []) entries
  · exact Runs.throughout_iff (I := fun _ => True) (fun _ _ _ _ _ => trivial)
      (fun _ _ _ _ hs hstep => steady_step₂_iff hs hstep) trivial (steady_start t .empty) files

/-! ### A listing with one process -/

/-- The descriptors at the first head: the standard ones and that of `/proc`. -/
def fourOpen : Table := ⟨{0, 1, 2, 3}, 1024⟩

theorem room_fourOpen : fourOpen.room ≠ 0 := by
  have hfree : 4 ∈ Finset.range fourOpen.limit \ fourOpen.fds := by
    rw [Finset.mem_sdiff, Finset.mem_range]
    decide
  exact Finset.card_ne_zero_of_mem hfree

theorem uidKey_ok : newline ∉ uidKey ∧ nul ∉ uidKey ∧ colon ∉ uidKey := by decide

/-- The status file of a process of the user `0`. -/
def rootStatus : PsTree.ProcStatus where
  name := lit "init"
  name_length := PsTree.initStatus.name_length
  name_ok := PsTree.initStatus.name_ok
  pid := 1
  pid_le := PsTree.initStatus.pid_le
  ppid := 0
  ppid_le := PsTree.initStatus.ppid_le
  toPid := []
  toPpid := []
  toEnd := [⟨uidKey, lit "0\t0\t0\t0", uidKey_ok, by decide⟩]
  other := by decide

/-- The user `1000` looks at it. -/
def rootEntry : Entry := ⟨some rootStatus.statusText.text, fun _ => Locals.null, 0, true⟩

theorem passedOver_rootEntry : PassedOver 1000 rootEntry := by
  have hfirst : (Stdio.fgets 15 (pad 20 []) (Stdio.fopen rootStatus.statusText.text)).nonNull =
    true := by
    decide
  have hobserve : (lineBuffers rootStatus.statusText.text).map observe =
      [some (.name (lit "init\n")), some (.pid 1), none, some (.uid (lit "0\t0\t"))] := by
    decide
  have huid : uidMatches Locals.null 1000 (lit "0\t0\t") = false := by
    have hnot := (uidMatches_iff Locals.null 1000 (lit "0\t0\t")).not.2 (by decide)
    exact Bool.eq_false_iff.2 hnot
  refine ⟨_, rfl, ?_⟩
  rw [selected, rootEntry, scanStatus_eq _ _ _ hfirst, hobserve, Outcome.bind_ok]
  simp only [act, Scan.take, huid]
  rfl

/-- **At the second head there is one more descriptor open**, in both programs. -/
theorem not_steady_rootEntry :
    (∀ statusFd, ¬ Runs.Throughout (step₁ 1000 statusFd) (Steady fourOpen.fds.card)
      ⟨fourOpen, some [], false⟩ [rootEntry]) ∧
    ¬ Runs.Throughout step₂ (Steady fourOpen.fds.card) ⟨fourOpen, some .empty, false⟩
      [.content rootStatus.statusText.text] := by
  constructor
  · rintro statusFd ⟨hstart, hnext⟩
    have hkept := (steady_step₁_iff hstart rfl).1 (hnext _ rfl)
    rcases hkept with hnone | ⟨-, hover⟩
    · cases hnone
    · exact hover passedOver_rootEntry
  · rintro ⟨hstart, hnext⟩
    have hkept := (steady_step₂_iff hstart rfl).1 (hnext _ rfl)
    exact hkept.2 ⟨_, _, rfl, PsTree.parse_statusFile rootStatus (by decide)⟩

end ScanFds
