/-
**Processes that exit while `12_2` looks for them (`HW4/12_2.c`).**

The loop of `main` opens the status file of each entry of `/proc` and reads it.  Other processes may
exit at any time.  The status file of a process that is gone cannot be opened, which the loop takes
for an entry without one; a file that has been opened before fails to be read, or nothing is read,
and for that the loop is not prepared.

The loop never closes a status file, so every process that it finds takes a descriptor from it; when
none is left, `open` fails with `EMFILE` and the program ends.

An interleaving says for each iteration which processes exit before the file is opened and which
exit between that and the call of `read`.

Main definitions:

* `PsTree.Target`, `PsTree.Turn` — an entry, and what happens in its iteration;
* `PsTree.scanTurns` — the loop of `main` with the exits in between;
* `PsTree.Tolerates` — what the loop should do in spite of them;
* `PsTree.Unharmed` — no exit falls between `open` and `read`, and the descriptors last.

Main results:

* `PsTree.not_parse_unterminated` — a status file that fills the array is not taken apart;
* `PsTree.scanEntry_turn` — **one iteration**, and when it comes to its end;
* `PsTree.tolerates_iff` — the interleavings that the loop tolerates.
-/

import NetSysProg.PsTreeListing
import NetSysProg.ScanDescriptors

set_option relaxedAutoImplicit false
set_option autoImplicit false

namespace PsTree

open CString Descriptors Numerals Status

/-! ### Exits -/

/-- What an entry of `/proc` leads to: to no status file, or to that of a process. -/
inductive Target
  | noStatus (notDir : Bool)
  | proc (t : ProcStatus)

/-- An iteration of the loop: the entry, the processes that exit before its status file is opened
and those that exit between that and `read`, and how `read` fails for a process that is gone: it
returns no bytes, or `ESRCH`. -/
structure Turn where
  target : Target
  beforeOpen : List ℕ
  beforeRead : List ℕ
  noBytes : Bool

/-- What comes of `open` and `read`; the processes `gone` have exited before the iteration. -/
def Turn.statusFile (gone : List ℕ) (u : Turn) : StatusFile :=
  match u.target with
  | .noStatus notDir => .missing (if notDir then .enotdir else .enoent)
  | .proc t =>
      if t.pid ∈ gone ++ u.beforeOpen then .missing .enoent
      else if t.pid ∈ u.beforeRead then
        if u.noBytes then .content [] else .unreadable
      else .content t.statusText.text

/-- The processes that have exited when the iteration is over. -/
def Turn.goneAfter (gone : List ℕ) (u : Turn) : List ℕ := gone ++ u.beforeOpen ++ u.beforeRead

/-- The loop of `main`, with the descriptors that are open. -/
def scanTurns : List Turn → List ℕ → Table → State → Outcome State
  | [], _, _, s => .ok s
  | u :: us, gone, t, s => do
      let r ← ScanFds.iterate₂ (u.statusFile gone) t s
      scanTurns us (u.goneAfter gone) r.1 r.2

/-- The processes that exit during the loop. -/
def exited (turns : List Turn) : List ℕ := turns.flatMap fun u => u.beforeOpen ++ u.beforeRead

/-- The loop comes to its end, and the list contains every process that has not exited; the
processes `later` exit when the last status file has been read. -/
def Tolerates (t : Table) (turns : List Turn) (later : List ℕ) : Prop :=
  ∃ s, scanTurns turns [] t .empty = .ok s ∧
    ∀ u ∈ turns, ∀ t, u.target = .proc t → t.pid ∉ exited turns ++ later → t.process ∈ s.processes

/-- A process whose status file can be opened is still there when it is read, and its status file
leaves room for a null byte. -/
def Turn.Unharmed (gone : List ℕ) (u : Turn) : Prop :=
  ∀ t, u.target = .proc t → t.pid ∉ gone ++ u.beforeOpen →
    t.pid ∉ u.beforeRead ∧ t.statusText.text.length < bufferSize

/-- The status file of the entry can be opened. -/
def Turn.opens (gone : List ℕ) (u : Turn) : Bool :=
  match u.target with
  | .noStatus _ => false
  | .proc t => t.pid ∉ gone ++ u.beforeOpen

/-- No iteration harms the loop: with `room` descriptors left, there is one for every `open`, and a
status file that has been opened keeps its one. -/
def Unharmed : List Turn → List ℕ → ℕ → Prop
  | [], _, _ => True
  | u :: us, gone, room => 0 < room ∧ u.Unharmed gone ∧
      Unharmed us (u.goneAfter gone) (if u.opens gone then room - 1 else room)

/-! ### Status files that fill the array -/

/-- Without a null byte in the array, `strtok` finds a token, and there is none in what is behind
it. -/
theorem strtok_unterminated {buf : List Byte} (h : nul ∉ buf) {r : Option (List Byte × List Byte)}
    (hr : strtok buf = .ok r) : ∃ line rest, r = some (line, rest) ∧ nul ∉ rest := by
  have hbuf : nul ∉ buf.dropWhile (· = newline) := fun hmem =>
    h ((List.dropWhile_suffix _).subset hmem)
  have hhead : ∀ c ∈ (buf.dropWhile (· = newline)).head?, c ≠ newline := by
    intro c hc
    have hnot := List.head?_dropWhile_not (fun b => decide (b = newline)) buf
    rw [Option.mem_def.1 hc] at hnot
    simpa using hnot
  unfold strtok at hr
  dsimp only at hr
  generalize buf.dropWhile (· = newline) = buf' at hr hbuf hhead
  cases hdrop : buf'.drop (buf'.takeWhile fun b => b ≠ newline ∧ b ≠ nul).length with
  | nil =>
      rw [hdrop] at hr
      cases hr
  | cons c rest =>
      have hsuffix : c :: rest <:+ buf' := hdrop ▸ List.drop_suffix _ _
      have hcrest : nul ∉ c :: rest := fun hmem => hbuf (hsuffix.subset hmem)
      rw [List.mem_cons, not_or] at hcrest
      rw [hdrop] at hr
      dsimp only at hr
      split at hr
      · next htok =>
          -- the token would be empty only in front of a newline
          rw [htok, List.length_nil, List.drop_zero] at hdrop
          rw [hdrop, List.takeWhile_cons_of_pos] at htok
          · cases htok
          · rw [decide_eq_true_eq]
            exact ⟨hhead c (by rw [hdrop]; rfl), Ne.symm hcrest.1⟩
      · rw [if_neg (Ne.symm hcrest.1)] at hr
        cases hr
        exact ⟨_, rest, rfl, hcrest.2⟩

/-- **The loop over the lines does not end** before the end of such an array. -/
theorem parseLoop_unterminated {buf : List Byte} (h : nul ∉ buf) (fuel : ℕ) (st st' : Info) :
    (do
      let next ← strtok buf
      parseLoop fuel next st) ≠ .ok st' := by
  induction fuel generalizing buf st with
  | zero =>
      intro hrun
      obtain ⟨next, -, hloop⟩ := Outcome.bind_eq_ok.1 hrun
      cases hloop
  | succ fuel ih =>
      intro hrun
      obtain ⟨next, hnext, hloop⟩ := Outcome.bind_eq_ok.1 hrun
      obtain ⟨line, rest, rfl, hrest⟩ := strtok_unterminated h hnext
      obtain ⟨st₁, -, hloop⟩ := Outcome.bind_eq_ok.1 hloop
      exact ih hrest st₁ hloop

/-- **No process is found in a status file that fills the array**: it is no string. -/
theorem not_parse_unterminated {content : List Byte} (hnul : nul ∉ content)
    (hlen : bufferSize ≤ content.length) (p : Process) : parse content ≠ .ok p := by
  intro h
  have hpad : pad bufferSize (content.take bufferSize) = content.take bufferSize := by
    rw [pad, List.length_take_of_le hlen, Nat.sub_self, List.replicate_zero, List.append_nil]
  obtain ⟨line, hline, hrest⟩ := Outcome.bind_eq_ok.1 h
  obtain ⟨st, hst, -⟩ := Outcome.bind_eq_ok.1 hrest
  rw [hpad] at hline
  have htake : nul ∉ content.take bufferSize := fun hmem => hnul (List.mem_of_mem_take hmem)
  exact parseLoop_unterminated htake _ _ st (Outcome.bind_eq_ok.2 ⟨line, hline, hst⟩)

/-- When nothing has been read, there is no line. -/
theorem parse_nil : parse [] = .fault := by
  have hpad : pad bufferSize (([] : List Byte).take bufferSize) =
      nul :: List.replicate (bufferSize - 1) nul := pad_eq_cons (by decide)
  rw [parse, hpad, strtok_nul, Outcome.bind_ok]
  rfl

theorem nul_notMem_statusText (t : StatusText) : nul ∉ t.text := by
  intro h
  obtain ⟨l, -, hl⟩ :=
    List.mem_flatMap.1 (show nul ∈ (t.nameLine :: t.lines).flatMap Line.text from h)
  rw [l.text_eq_body, List.mem_append, List.mem_singleton] at hl
  exact hl.elim l.nul_notMem_body newline_ne_nul.symm

/-- **The status files that are taken apart.** -/
theorem parse_statusFile_iff (t : ProcStatus) :
    (∃ p, parse t.statusText.text = .ok p) ↔ t.statusText.text.length < bufferSize := by
  constructor
  · rintro ⟨p, hp⟩
    by_contra hlen
    exact not_parse_unterminated (nul_notMem_statusText _) (Nat.not_lt.1 hlen) p hp
  · intro hlen
    exact ⟨t.process, parse_statusFile t hlen⟩

/-! ### Iterations -/

/-- The process of a status file is put into the list. -/
theorem insertNode_process (t : ProcStatus) (s : State) :
    ∃ s', insertNode t.process s = .ok s' ∧ s'.processes = s.processes ++ [t.process] := by
  have hname : t.process.name.length < bufferSize := Nat.lt_of_le_of_lt t.name_length.2 (by decide)
  refine ⟨_, by rw [insertNode, if_pos hname], ?_⟩
  rw [State.processes, List.map_append]
  rfl

/-- **A process that exits between `open` and `read`**: nothing is read, or `read` fails, and the
program does not come to the next iteration. -/
theorem scanEntry_gone (noBytes : Bool) (s s' : State) :
    scanEntry (if noBytes then .content [] else .unreadable) s ≠ .ok s' := by
  cases noBytes with
  | false =>
      intro hs'
      cases hs'
  | true =>
      intro hs'
      rw [if_pos rfl, scanEntry, parse_nil] at hs'
      cases hs'

/-- **One iteration** comes to its end exactly if it is not harmed; then the list has what it had,
and the process of the entry if its status file could be opened. -/
theorem scanEntry_turn (gone : List ℕ) (u : Turn) (s : State) :
    (∀ s', scanEntry (u.statusFile gone) s = .ok s' → u.Unharmed gone) ∧
    (u.Unharmed gone → ∃ s', scanEntry (u.statusFile gone) s = .ok s' ∧ s.processes ⊆ s'.processes ∧
      ∀ t, u.target = .proc t → t.pid ∉ gone ++ u.beforeOpen → t.process ∈ s'.processes) := by
  unfold Turn.statusFile Turn.Unharmed
  cases htarget : u.target with
  | noStatus notDir =>
      have hentry : scanEntry (.missing (if notDir then .enotdir else .enoent)) s = .ok s := by
        cases notDir <;> rfl
      constructor
      · intro _ _ t ht
        cases ht
      · intro _
        refine ⟨s, hentry, fun _ hp => hp, fun t ht => ?_⟩
        cases ht
  | proc t =>
      dsimp only
      by_cases hopen : t.pid ∈ gone ++ u.beforeOpen
      · rw [if_pos hopen]
        refine ⟨fun _ _ t' ht' hnot => ?_, fun _ => ⟨s, rfl, fun _ hp => hp, fun t' ht' hnot => ?_⟩⟩
        · cases ht'
          exact absurd hopen hnot
        · cases ht'
          exact absurd hopen hnot
      · rw [if_neg hopen]
        by_cases hread : t.pid ∈ u.beforeRead
        · rw [if_pos hread]
          exact ⟨fun s' hs' => absurd hs' (scanEntry_gone u.noBytes s s'),
            fun h => absurd hread (h t rfl hopen).1⟩
        · rw [if_neg hread]
          constructor
          · intro s' hs' t' ht' _
            cases ht'
            obtain ⟨p, hp, -⟩ := Outcome.bind_eq_ok.1 hs'
            exact ⟨hread, (parse_statusFile_iff t).1 ⟨p, hp⟩⟩
          · intro h
            obtain ⟨s', hs', hprocs⟩ := insertNode_process t s
            refine ⟨s', ?_, ?_, fun t' ht' _ => ?_⟩
            · rw [scanEntry, parse_statusFile t (h t rfl hopen).2, Outcome.bind_ok, hs']
            · rw [hprocs]
              exact List.subset_append_left _ _
            · cases ht'
              rw [hprocs]
              exact List.mem_append_right _ (List.mem_singleton_self _)

/-- A file that cannot be opened takes no descriptor, and every other one does. -/
theorem statusFile_opens (gone : List ℕ) (u : Turn) :
    (u.opens gone = false ∧ ∃ errno, u.statusFile gone = .missing errno) ∨
    (u.opens gone = true ∧ ∀ errno, u.statusFile gone ≠ .missing errno) := by
  unfold Turn.opens Turn.statusFile
  cases u.target with
  | noStatus notDir => exact Or.inl ⟨rfl, _, rfl⟩
  | proc t =>
      by_cases hgone : t.pid ∈ gone ++ u.beforeOpen
      · exact Or.inl ⟨decide_eq_false (not_not_intro hgone), .enoent, if_pos hgone⟩
      · refine Or.inr ⟨decide_eq_true hgone, fun errno => ?_⟩
        dsimp only
        rw [if_neg hgone]
        split_ifs <;> simp

/-- **One iteration with its descriptor.** -/
theorem iterate₂_turn (gone : List ℕ) (u : Turn) (t : Table) (s : State) :
    (∀ r, ScanFds.iterate₂ (u.statusFile gone) t s = .ok r →
      0 < t.room ∧ scanEntry (u.statusFile gone) s = .ok r.2 ∧
        r.1.room = if u.opens gone then t.room - 1 else t.room) ∧
    ∀ s', 0 < t.room → scanEntry (u.statusFile gone) s = .ok s' →
      ∃ t', ScanFds.iterate₂ (u.statusFile gone) t s = .ok (t', s') := by
  unfold ScanFds.iterate₂
  cases hopen : t.opened with
  | none =>
      have hroom := Table.opened_eq_none_iff.1 hopen
      refine ⟨fun r hr => ?_, fun s' hpos => ?_⟩
      · cases hr
      · omega
  | some t' =>
      have hroom := Table.room_opened hopen
      dsimp only
      constructor
      · intro r hr
        obtain ⟨s', hentry, hr⟩ := Outcome.bind_eq_ok.1 hr
        rcases statusFile_opens gone u with ⟨hopens, errno, hfile⟩ | ⟨hopens, hfile⟩
        · rw [hfile] at hr
          cases hr
          exact ⟨by omega, hentry, by rw [hopens, if_neg (by simp)]⟩
        · rw [hopens, if_pos rfl]
          have hkept : r = (t', s') := by
            cases hcase : u.statusFile gone with
            | missing errno => exact absurd hcase (hfile errno)
            | unreadable =>
                rw [hcase] at hr
                cases hr
                rfl
            | content bytes =>
                rw [hcase] at hr
                cases hr
                rfl
          subst hkept
          refine ⟨by omega, hentry, ?_⟩
          dsimp only
          omega
      · intro s' _ hentry
        rw [hentry, Outcome.bind_ok]
        cases u.statusFile gone with
        | missing errno => exact ⟨t, rfl⟩
        | unreadable => exact ⟨t', rfl⟩
        | content bytes => exact ⟨t', rfl⟩

theorem unharmed_of_scanTurns {turns : List Turn} {gone : List ℕ} {t : Table} {s s' : State}
    (h : scanTurns turns gone t s = .ok s') : Unharmed turns gone t.room := by
  induction turns generalizing gone t s with
  | nil => trivial
  | cons u us ih =>
      obtain ⟨r, hiter, hrest⟩ := Outcome.bind_eq_ok.1 h
      obtain ⟨hpos, hentry, hroom⟩ := (iterate₂_turn gone u t s).1 r hiter
      refine ⟨hpos, (scanEntry_turn gone u s).1 r.2 hentry, ?_⟩
      rw [← hroom]
      exact ih hrest

/-- **All iterations**, when none is harmed. -/
theorem exists_scanTurns {turns : List Turn} {gone : List ℕ} {t : Table}
    (h : Unharmed turns gone t.room) (s : State) :
    ∃ s', scanTurns turns gone t s = .ok s' ∧ s.processes ⊆ s'.processes ∧
      ∀ u ∈ turns, ∀ t, u.target = .proc t → t.pid ∉ gone ++ exited turns →
        t.process ∈ s'.processes := by
  induction turns generalizing gone t s with
  | nil => exact ⟨s, rfl, fun _ hp => hp, by simp⟩
  | cons u us ih =>
      obtain ⟨hpos, hu, hus⟩ := h
      obtain ⟨s₁, hentry, hkeep, hmem⟩ := (scanEntry_turn gone u s).2 hu
      obtain ⟨t₁, hiter⟩ := (iterate₂_turn gone u t s).2 s₁ hpos hentry
      obtain ⟨-, -, hroom⟩ := (iterate₂_turn gone u t s).1 _ hiter
      rw [← hroom] at hus
      obtain ⟨s', hrest, hkeep', hmem'⟩ := ih hus s₁
      refine ⟨s', by rw [scanTurns, hiter, Outcome.bind_ok, hrest],
        fun p hp => hkeep' (hkeep hp), ?_⟩
      intro v hv t ht hpid
      simp only [exited, List.flatMap_cons, List.mem_append, not_or] at hpid
      rcases List.mem_cons.1 hv with rfl | hv
      · exact hkeep' (hmem t ht (by simp [hpid]))
      · exact hmem' v hv t ht (by simp [Turn.goneAfter, exited, hpid])

/-- **The interleavings that the loop tolerates**: there is a descriptor for every status file, a
process that is there when its status file is opened is still there when it is read, and the file
leaves room for a null byte in the array. -/
theorem tolerates_iff (t : Table) (turns : List Turn) (later : List ℕ) :
    Tolerates t turns later ↔ Unharmed turns [] t.room := by
  constructor
  · rintro ⟨s, hs, -⟩
    exact unharmed_of_scanTurns hs
  · intro h
    obtain ⟨s, hs, -, hmem⟩ := exists_scanTurns h .empty
    refine ⟨s, hs, fun u hu t ht hpid => hmem u hu t ht ?_⟩
    rw [List.nil_append]
    exact fun hex => hpid (List.mem_append_left _ hex)

/-- The number of status files that are opened. -/
def opened : List Turn → List ℕ → ℕ
  | [], _ => 0
  | u :: us, gone => (if u.opens gone then 1 else 0) + opened us (u.goneAfter gone)

/-- **No more processes are found than there are descriptors left** at the first entry. -/
theorem Unharmed.opened_le {turns : List Turn} {gone : List ℕ} {room : ℕ}
    (h : Unharmed turns gone room) :
    opened turns gone ≤ room := by
  induction turns generalizing gone room with
  | nil => exact Nat.zero_le _
  | cons u us ih =>
      obtain ⟨hpos, -, hus⟩ := h
      have hle := ih hus
      unfold opened
      split_ifs at hle ⊢ <;> omega

/-- The process `1` exits when its status file has been opened. -/
def exitBeforeRead (noBytes : Bool) : List Turn := [⟨.proc initStatus, [], [1], noBytes⟩]

/-- **The program ends**, or follows a null pointer. -/
theorem not_tolerates_exitBeforeRead :
    scanTurns (exitBeforeRead false) [] ScanFds.fourOpen .empty = .exit 1 "read status_file" ∧
      scanTurns (exitBeforeRead true) [] ScanFds.fourOpen .empty = .fault ∧
      ∀ noBytes, ¬ Tolerates ScanFds.fourOpen (exitBeforeRead noBytes) [] := by
  have hhead : ∃ t, ScanFds.fourOpen.opened = some t :=
    Option.ne_none_iff_exists'.1 (Table.opened_eq_none_iff.not.2 ScanFds.room_fourOpen)
  obtain ⟨t, hopen⟩ := hhead
  have hnothing : scanEntry (.content []) .empty = .fault := by
    rw [scanEntry, parse_nil, Outcome.bind_fault]
  refine ⟨?_, ?_, fun noBytes h => ?_⟩
  · have hfile : Turn.statusFile [] ⟨.proc initStatus, [], [1], false⟩ = .unreadable := rfl
    rw [exitBeforeRead, scanTurns, ScanFds.iterate₂, hopen, hfile]
    rfl
  · have hfile : Turn.statusFile [] ⟨.proc initStatus, [], [1], true⟩ = .content [] := rfl
    rw [exitBeforeRead, scanTurns, ScanFds.iterate₂, hopen, hfile]
    dsimp only
    rw [hnothing, Outcome.bind_fault, Outcome.bind_fault]
  · obtain ⟨s, hs, -⟩ := h
    obtain ⟨-, hu, -⟩ := unharmed_of_scanTurns hs
    exact (hu initStatus rfl (by simp)).1 List.mem_cons_self

end PsTree
