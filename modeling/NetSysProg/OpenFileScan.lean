/-
**Which processes have a file open (`HW4/12_3.c`).**

For each process the program goes through the links in `/proc/<pid>/fd`.  At every link that leads
to the given file it reads from the status file of the process, takes the first line of what it has
read, and prints the line without its first five bytes.  The status file is opened once for each
process, so the second link that leads to the file gets the bytes behind those that the first one
got.

The arrays of the inner blocks are not initialised; what is in them, and which calls fail, is part
of the entry of `/proc/<pid>/fd`.

Main definitions:

* `OpenFiles.FdEntry` — an entry of `/proc/<pid>/fd`;
* `OpenFiles.report`, `OpenFiles.visitFd`, `OpenFiles.visitFds`, `OpenFiles.inspect` — an iteration
  of the loop of `main`, from the inside to the outside;
* `OpenFiles.NamesLinks` — a line for each link that leads to the file;
* `OpenFiles.NameAt` — the bytes in which the name is found.

Main results:

* `OpenFiles.commandOf_eq_iff` — **what is taken for the name**;
* `OpenFiles.commandOf_statusText` — the first time it is the name;
* `OpenFiles.namesLinks_iff` — the directories for which every line is right;
* `OpenFiles.mem_inspect` — every line begins with the name of the entry of `/proc`;
* `OpenFiles.inspect_eq_nil_iff` — the directories for which there is no line.
-/

import NetSysProg.PsTreeScan

set_option relaxedAutoImplicit false
set_option autoImplicit false

namespace OpenFiles

open CString Numerals Status

/-- `BUFFER_SIZE` -/
def bufferSize : ℕ := 128

/-- An entry of `/proc/<pid>/fd`: its name, and what `readlink` finds, unless it fails.  The arrays
`status_content` and `command` hold what happens to be in them; `read` and `write` say whether the
calls succeed. -/
structure FdEntry where
  name : List Byte
  link : Option (List Byte)
  statusContent : List Byte
  command : List Byte
  length_statusContent : statusContent.length = bufferSize
  length_command : command.length = bufferSize
  read : Bool
  write : Bool

/-! ### The loops -/

/-- `strtok` and `strncpy`: the string in `command`. -/
def commandOf (command statusContent : List Byte) : Outcome (List Byte) := do
  let next ← PsTree.strtok statusContent
  match next with
  | none => .fault
  | some (line, _) => do
      let command ← strncpy command (line.drop 5) bufferSize
      str command

/-- `"pid: %s / command: %s\n"` -/
def describe (dName command : List Byte) : List Byte :=
  lit "pid: " ++ dName ++ lit " / command: " ++ command ++ lit "\n"

/-- What is done at a link that leads to the file; `pos` is the offset in the status file. -/
def report (dName status : List Byte) (e : FdEntry) (pos : ℕ) : Outcome (ℕ × List Byte) :=
  if e.read then do
    let piece := (status.drop pos).take bufferSize
    let command ← commandOf e.command (piece ++ e.statusContent.drop piece.length)
    let output := (describe dName command).take (bufferSize - 1)
    if e.write then return (pos + piece.length, output) else .exit 1 "write"
  else .exit 1 "read status_file"

/-- An iteration of the inner loop; the offset, and the lines that have been printed. -/
def visitFd (filename dName status : List Byte) (e : FdEntry) (st : ℕ × List (List Byte)) :
    Outcome (ℕ × List (List Byte)) :=
  if e.name = lit "." ∨ e.name = lit ".." then .ok st
  else
    match e.link with
    | none => .exit 1 "readlink"
    | some target =>
        -- `readlink` cuts the target off, and the null byte is stored behind what it has written
        if target.length < bufferSize then
          if target = filename then do
            let r ← report dName status e st.1
            return (r.1, st.2 ++ [r.2])
          else .ok st
        else .fault

/-- The inner loop. -/
def visitFds (filename dName status : List Byte) :
    List FdEntry → ℕ × List (List Byte) → Outcome (ℕ × List (List Byte))
  | [], st => .ok st
  | e :: es, st => do
      let st ← visitFd filename dName status e st
      visitFds filename dName status es st

/-- An iteration of the outer loop, for the entry `dName` of `/proc`: what comes of opening its
status file and the directory of its descriptors, and the lines that are printed. -/
def inspect (filename dName : List Byte) (status : Except PsTree.Errno (List Byte))
    (fdDir : Option (List FdEntry)) : Outcome (List (List Byte)) :=
  match status with
  | .error errno =>
      if errno = .enoent ∨ errno = .enotdir then .ok [] else .exit 1 "open status file"
  | .ok status =>
      match fdDir with
      | none => .exit 1 "opendir"
      | some es => do
          let st ← visitFds filename dName status es (0, [])
          return st.2

/-! ### What should be printed -/

/-- The entry is a link, and it leads to the file. -/
def FdEntry.Matches (filename : List Byte) (e : FdEntry) : Prop :=
  e.name ≠ lit "." ∧ e.name ≠ lit ".." ∧ e.link = some filename

instance (filename : List Byte) (e : FdEntry) : Decidable (e.Matches filename) :=
  inferInstanceAs (Decidable (_ ∧ _ ∧ _))

/-- The line for a process: its number, and the `Name` line of its status file from the tab on. -/
def lineFor (t : PsTree.ProcStatus) : List Byte := describe (decimal t.pid) (tab :: t.name)

/-- A line with the number and the name is printed for each link that leads to the file. -/
def NamesLinks (filename : List Byte) (t : PsTree.ProcStatus) (es : List FdEntry) : Prop :=
  inspect filename (decimal t.pid) (.ok t.statusText.text) (some es) =
    .ok (List.replicate (es.countP fun e => e.Matches filename) (lineFor t))

/-- The first line in the array, without the newlines in front of it, is ended by a newline or a
null byte, and from its sixth byte on there is a tab and the name. -/
def NameAt (name buf : List Byte) : Prop :=
  ∃ newlines line rest more : List Byte, ∃ c : Byte,
    buf = newlines ++ (line ++ c :: rest) ∧ (∀ b ∈ newlines, b = newline) ∧
    line ≠ [] ∧ newline ∉ line ∧ nul ∉ line ∧ (c = newline ∨ c = nul) ∧
    (line ++ nul :: rest).drop 5 = tab :: name ++ nul :: more

/-- What is in the array when the `n`-th link that leads to the file is reached. -/
def FdEntry.buffer (e : FdEntry) (status : List Byte) (n : ℕ) : List Byte :=
  let piece := (status.drop (n * bufferSize)).take bufferSize
  piece ++ e.statusContent.drop piece.length

/-- No call fails, no link is too long, and for each link that leads to the file, the first one
apart, the name is found in the array; there have been `n` such links. -/
def Readable (filename : List Byte) (t : PsTree.ProcStatus) : List FdEntry → ℕ → Prop
  | [], _ => True
  | e :: es, n =>
      if e.name = lit "." ∨ e.name = lit ".." then Readable filename t es n
      else
        ∃ target, e.link = some target ∧ target.length < bufferSize ∧
          if target = filename then
            (e.read = true ∧ e.write = true ∧
                (n = 0 ∨ NameAt t.name (e.buffer t.statusText.text n))) ∧
              Readable filename t es (n + 1)
          else Readable filename t es n

/-! ### The name in the array -/

/-- **The first line** in an array. -/
theorem strtok_first {newlines line : List Byte} {c : Byte}
    (hnewlines : ∀ b ∈ newlines, b = newline)
    (hne : line ≠ []) (hnewline : newline ∉ line) (hnul : nul ∉ line) (hc : c = newline ∨ c = nul)
    (rest : List Byte) :
    ∃ next, PsTree.strtok (newlines ++ (line ++ c :: rest)) =
      .ok (some (line ++ nul :: rest, next)) := by
  obtain ⟨b, bs, hline⟩ := List.exists_cons_of_ne_nil hne
  have hb : b ≠ newline := fun h => hnewline (by rw [hline, h]; exact List.mem_cons_self)
  have hdrop : (newlines ++ (line ++ c :: rest)).dropWhile (· = newline) = line ++ c :: rest := by
    rw [List.dropWhile_append_of_pos (by simpa using hnewlines), hline, List.cons_append,
      List.dropWhile_cons_of_neg (by simpa using hb)]
  have htake : (line ++ c :: rest).takeWhile (fun b => b ≠ newline ∧ b ≠ nul) = line := by
    rw [List.takeWhile_append_of_pos, List.takeWhile_cons_of_neg, List.append_nil]
    · rcases hc with rfl | rfl <;> simp
    · intro x hx
      rw [decide_eq_true_eq]
      exact ⟨fun h => hnewline (h ▸ hx), fun h => hnul (h ▸ hx)⟩
  refine ⟨if c = nul then nul :: rest else rest, ?_⟩
  rw [PsTree.strtok, hdrop, htake, List.drop_left]
  dsimp only
  rw [if_neg hne]

/-- A token is the first line. -/
theorem exists_first_line {buf l next : List Byte} (h : PsTree.strtok buf = .ok (some (l, next))) :
    ∃ newlines line rest : List Byte, ∃ c : Byte,
      buf = newlines ++ (line ++ c :: rest) ∧ (∀ b ∈ newlines, b = newline) ∧
      line ≠ [] ∧ newline ∉ line ∧ nul ∉ line ∧ (c = newline ∨ c = nul) ∧
        l = line ++ nul :: rest := by
  unfold PsTree.strtok at h
  dsimp only at h
  have hbuf := List.takeWhile_append_dropWhile (p := fun b => decide (b = newline)) (l := buf)
  generalize buf.dropWhile (· = newline) = buf' at h hbuf
  have hbuf' := List.takeWhile_append_dropWhile
    (p := fun b => decide (b ≠ newline ∧ b ≠ nul)) (l := buf')
  have hmem : ∀ b ∈ buf'.takeWhile fun b => b ≠ newline ∧ b ≠ nul, b ≠ newline ∧ b ≠ nul := by
    intro b hb
    simpa using List.mem_takeWhile_imp hb
  have hhead := List.head?_dropWhile_not (fun b => decide (b ≠ newline ∧ b ≠ nul)) buf'
  generalize buf'.takeWhile (fun b => b ≠ newline ∧ b ≠ nul) = line at h hbuf' hmem
  generalize buf'.dropWhile (fun b => b ≠ newline ∧ b ≠ nul) = back at hbuf' hhead
  subst hbuf'
  rw [List.drop_left] at h
  cases back with
  | nil => cases h
  | cons c rest =>
      dsimp only at h
      split at h
      · cases h
      · next hne =>
          cases h
          refine ⟨_, line, rest, c, hbuf.symm, ?_, hne, fun hb => (hmem _ hb).1 rfl,
            fun hb => (hmem _ hb).2 rfl, ?_, rfl⟩
          · intro b hb
            simpa using List.mem_takeWhile_imp hb
          · by_contra hboth
            rw [not_or] at hboth
            simp [hboth.1, hboth.2] at hhead

/-- The string that is copied from the sixth byte on. -/
theorem copied_eq_iff {command src s : List Byte} (hcommand : command.length = bufferSize)
    (hsrc : src.length < bufferSize) (hs : nul ∉ s) :
    (do
      let command ← strncpy command src bufferSize
      str command) = .ok s ↔ ∃ more, src = s ++ nul :: more := by
  by_cases hnul : nul ∈ src
  · obtain ⟨s', more, rfl, hs'⟩ := List.eq_append_cons_of_mem hnul
    rw [List.length_append, List.length_cons] at hsrc
    rw [strncpy_eq _ (Or.inl hnul) (le_of_eq hcommand.symm), Outcome.bind_ok, strUpTo_append hs',
      List.take_of_length_le (by omega), List.drop_eq_nil_of_le (le_of_eq hcommand),
      List.append_nil, str_pad (by omega) hs', Outcome.ok.injEq]
    constructor
    · rintro rfl
      exact ⟨more, rfl⟩
    · rintro ⟨more', hmore⟩
      have hstr := str_append hs' more
      rw [hmore, str_append hs] at hstr
      exact (Outcome.ok.inj hstr).symm
  · have hfault : strncpy command src bufferSize = .fault :=
      if_neg fun h => (h.1.elim hnul fun hle => absurd hle (by omega))
    rw [hfault, Outcome.bind_fault]
    refine iff_of_false (by simp) ?_
    rintro ⟨more, rfl⟩
    exact hnul (by simp)

/-- **What is taken for the name** is the name exactly if it is found in the array. -/
theorem commandOf_eq_iff {command buf name : List Byte} (hcommand : command.length = bufferSize)
    (hbuf : buf.length = bufferSize) (hname : nul ∉ name) :
    commandOf command buf = .ok (tab :: name) ↔ NameAt name buf := by
  have htab : nul ∉ tab :: name := by
    rw [List.mem_cons, not_or]
    exact ⟨by decide, hname⟩
  have hshort : ∀ {newlines line rest : List Byte} {c : Byte},
      buf = newlines ++ (line ++ c :: rest) →
      ((line ++ nul :: rest).drop 5).length < bufferSize := by
    rintro newlines line rest c rfl
    simp only [List.length_append, List.length_cons, List.length_drop, bufferSize] at hbuf ⊢
    omega
  constructor
  · intro h
    obtain ⟨next, hnext, hcopy⟩ := Outcome.bind_eq_ok.1 h
    cases next with
    | none => cases hcopy
    | some x =>
        obtain ⟨l, next⟩ := x
        obtain ⟨newlines, line, rest, c, hsplit, hnewlines, hne, hnewline, hnul, hc, rfl⟩ :=
          exists_first_line hnext
        obtain ⟨more, hmore⟩ := (copied_eq_iff hcommand (hshort hsplit) htab).1 hcopy
        exact ⟨newlines, line, rest, more, c, hsplit, hnewlines, hne, hnewline, hnul, hc, hmore⟩
  · rintro ⟨newlines, line, rest, more, c, hsplit, hnewlines, hne, hnewline, hnul, hc, hmore⟩
    obtain ⟨next, hnext⟩ := strtok_first hnewlines hne hnewline hnul hc rest
    rw [commandOf, hsplit, hnext, Outcome.bind_ok]
    exact (copied_eq_iff hcommand (hshort hsplit) htab).2 ⟨more, hmore⟩

/-- **The first time** the name is there: the `Name` line is at the start of the file. -/
theorem nameAt_first (t : PsTree.ProcStatus) (e : FdEntry) :
    NameAt t.name (e.buffer t.statusText.text 0) := by
  have hline : t.statusText.nameLine.text.length ≤ bufferSize := by
    have hlen := t.name_length.2
    have htext : t.statusText.nameLine.text.length = t.name.length + 7 := by
      simp only [Line.text, StatusText.nameLine, List.length_append, List.length_cons,
        length_nameKey, List.length_nil, PsTree.ProcStatus.statusText]
      omega
    rw [htext, bufferSize]
    omega
  obtain ⟨more, hmore⟩ : ∃ more, (t.statusText.text.drop (0 * bufferSize)).take bufferSize =
      t.statusText.nameLine.body ++ newline :: more := by
    obtain ⟨k, hk⟩ := Nat.exists_eq_add_of_le hline
    refine ⟨(t.statusText.lines.flatMap Line.text).take k, ?_⟩
    rw [Nat.zero_mul, List.drop_zero, StatusText.text, hk, List.take_length_add_append,
      t.statusText.nameLine.text_eq_body, List.append_assoc, List.singleton_append]
  obtain ⟨rest, hrest⟩ : ∃ rest,
      e.buffer t.statusText.text 0 = t.statusText.nameLine.body ++ newline :: rest := by
    rw [FdEntry.buffer, hmore, List.append_assoc, List.cons_append]
    exact ⟨_, rfl⟩
  refine ⟨[], t.statusText.nameLine.body, rest, rest, newline, hrest, by simp,
    by simp [Line.body], t.statusText.nameLine.newline_notMem_body,
    t.statusText.nameLine.nul_notMem_body, Or.inl rfl, ?_⟩
  rfl

theorem FdEntry.length_buffer (e : FdEntry) (status : List Byte) (n : ℕ) :
    (e.buffer status n).length = bufferSize := by
  have hle := List.length_take_le bufferSize (status.drop (n * bufferSize))
  simp only [FdEntry.buffer, List.length_append, List.length_drop, e.length_statusContent]
  omega

/-! ### Lines -/

/-- The offset in the status file when it has been read `n` times. -/
def offset (status : List Byte) (n : ℕ) : ℕ := min (n * bufferSize) status.length

theorem take_offset (status : List Byte) (n : ℕ) :
    (status.drop (offset status n)).take bufferSize =
      (status.drop (n * bufferSize)).take bufferSize := by
  unfold offset
  rcases Nat.le_total (n * bufferSize) status.length with h | h
  · rw [Nat.min_eq_left h]
  · rw [Nat.min_eq_right h, List.drop_length, List.drop_eq_nil_of_le h]

theorem offset_succ (status : List Byte) (n : ℕ) :
    offset status n + ((status.drop (n * bufferSize)).take bufferSize).length =
      offset status (n + 1) := by
  rw [List.length_take, List.length_drop, offset, offset, Nat.add_mul, Nat.one_mul]
  omega

theorem length_lineFor (t : PsTree.ProcStatus) : (lineFor t).length ≤ 44 := by
  have hdigits : (decimal t.pid).length ≤ 10 := by
    have hpid := t.pid_le
    rw [CInt.intMax] at hpid
    rw [length_decimal_le_iff (by omega)]
    omega
  have hname := t.name_length.2
  have hpid : (lit "pid: ").length = 5 := by decide
  have hcommand : (lit " / command: ").length = 12 := by decide
  have hend : (lit "\n").length = 1 := by decide
  simp only [lineFor, describe, List.length_append, List.length_cons, hpid, hcommand, hend]
  omega

/-- A line that is right is not cut off. -/
theorem output_eq_iff (t : PsTree.ProcStatus) (command : List Byte) :
    (describe (decimal t.pid) command).take (bufferSize - 1) = lineFor t ↔
      command = tab :: t.name := by
  have hlen := length_lineFor t
  constructor
  · intro h
    have hshort : (describe (decimal t.pid) command).length ≤ bufferSize - 1 := by
      have htake := congrArg List.length h
      rw [List.length_take, bufferSize] at htake
      rw [bufferSize]
      omega
    rw [List.take_of_length_le hshort, lineFor, describe, describe, List.append_left_inj,
      List.append_right_inj] at h
    exact h
  · rintro rfl
    exact List.take_of_length_le (hlen.trans (by decide))

/-- **What is done at a link** is right exactly if no call fails and the name is in the array. -/
theorem report_eq_iff (t : PsTree.ProcStatus) (e : FdEntry) (n pos : ℕ) :
    report (decimal t.pid) t.statusText.text e (offset t.statusText.text n) = .ok (pos, lineFor t) ↔
      (e.read = true ∧ e.write = true ∧ NameAt t.name (e.buffer t.statusText.text n)) ∧
        pos = offset t.statusText.text (n + 1) := by
  rw [← commandOf_eq_iff e.length_command (e.length_buffer _ n) t.name_ok.2, report, take_offset]
  cases hread : e.read with
  | false => simp
  | true =>
      rw [if_pos rfl]
      dsimp only
      rw [offset_succ]
      constructor
      · intro h
        obtain ⟨command, hcommand, h⟩ := Outcome.bind_eq_ok.1 h
        cases hwrite : e.write with
        | false =>
            rw [hwrite] at h
            cases h
        | true =>
            rw [hwrite, if_pos rfl, Outcome.pure_eq, Outcome.ok.injEq, Prod.mk.injEq,
              output_eq_iff] at h
            exact ⟨⟨rfl, rfl, by rw [← h.2]; exact hcommand⟩, h.1.symm⟩
      · rintro ⟨⟨-, hwrite, hcommand⟩, rfl⟩
        rw [FdEntry.buffer] at hcommand
        rw [hcommand, Outcome.bind_ok, hwrite, if_pos rfl, (output_eq_iff t _).2 rfl]
        rfl

/-! ### The directory -/

/-- The lines that have been printed stay in front. -/
theorem prefix_visitFds {filename dName status : List Byte} {es : List FdEntry}
    {st st' : ℕ × List (List Byte)} (h : visitFds filename dName status es st = .ok st') :
    st.2 <+: st'.2 := by
  induction es generalizing st with
  | nil =>
      cases h
      exact List.prefix_rfl
  | cons e es ih =>
      obtain ⟨st₁, hvisit, hrest⟩ := Outcome.bind_eq_ok.1 h
      refine List.IsPrefix.trans ?_ (ih hrest)
      unfold visitFd at hvisit
      split at hvisit
      · cases hvisit
        exact List.prefix_rfl
      · split at hvisit
        · cases hvisit
        · split at hvisit
          · split at hvisit
            · obtain ⟨r, -, hr⟩ := Outcome.bind_eq_ok.1 hvisit
              cases hr
              exact List.prefix_append _ _
            · cases hvisit
              exact List.prefix_rfl
          · cases hvisit

/-- A step of the inner loop at a link that does not lead to the file. -/
theorem visitFd_other {filename dName status target : List Byte} {e : FdEntry}
    (hdot : ¬ (e.name = lit "." ∨ e.name = lit "..")) (hlink : e.link = some target)
    (hlen : target.length < bufferSize) (hne : target ≠ filename) (st : ℕ × List (List Byte)) :
    visitFd filename dName status e st = .ok st := by
  rw [visitFd, if_neg hdot, hlink]
  dsimp only
  rw [if_pos hlen, if_neg hne]

/-- A step of the inner loop at a link that leads to the file. -/
theorem visitFd_match {filename dName status : List Byte} {e : FdEntry}
    (hdot : ¬ (e.name = lit "." ∨ e.name = lit "..")) (hlink : e.link = some filename)
    (hlen : filename.length < bufferSize) (st : ℕ × List (List Byte)) :
    visitFd filename dName status e st = (do
      let r ← report dName status e st.1
      return (r.1, st.2 ++ [r.2])) := by
  rw [visitFd, if_neg hdot, hlink]
  dsimp only
  rw [if_pos hlen, if_pos rfl]

/-- **A link that leads to the file** is reported rightly if the name is in the array, which it is
at the first one; the lines that are left are those behind it. -/
theorem visitFds_match_iff {filename : List Byte} {e : FdEntry}
    (hdot : ¬ (e.name = lit "." ∨ e.name = lit "..")) (hlink : e.link = some filename)
    (hlen : filename.length < bufferSize) (t : PsTree.ProcStatus) (es : List FdEntry) (n count : ℕ)
    (out : List (List Byte)) :
    (∃ pos, visitFds filename (decimal t.pid) t.statusText.text (e :: es)
        (offset t.statusText.text n, out) =
          .ok (pos, out ++ List.replicate (count + 1) (lineFor t))) ↔
      (e.read = true ∧ e.write = true ∧ (n = 0 ∨ NameAt t.name (e.buffer t.statusText.text n))) ∧
        ∃ pos, visitFds filename (decimal t.pid) t.statusText.text es
          (offset t.statusText.text (n + 1), out ++ [lineFor t]) =
            .ok (pos, (out ++ [lineFor t]) ++ List.replicate count (lineFor t)) := by
  have hname : (n = 0 ∨ NameAt t.name (e.buffer t.statusText.text n)) ↔
      NameAt t.name (e.buffer t.statusText.text n) := by
    constructor
    · rintro (rfl | h)
      · exact nameAt_first t e
      · exact h
    · exact Or.inr
  rw [visitFds, visitFd_match hdot hlink hlen, List.replicate_succ, hname, List.append_assoc,
    List.singleton_append]
  constructor
  · rintro ⟨pos, h⟩
    obtain ⟨st, hst, hrest⟩ := Outcome.bind_eq_ok.1 h
    obtain ⟨r, hr, hst⟩ := Outcome.bind_eq_ok.1 hst
    cases hst
    -- the line that has just been printed is the first of those that are left
    have hline : r.2 = lineFor t := by
      have hpre := prefix_visitFds hrest
      rw [List.prefix_append_right_inj, List.cons_prefix_cons] at hpre
      exact hpre.1
    obtain ⟨pos', line⟩ := r
    obtain rfl : line = lineFor t := hline
    obtain ⟨hfine, rfl⟩ := (report_eq_iff t e n pos').1 hr
    exact ⟨hfine, pos, hrest⟩
  · rintro ⟨hfine, pos, hpos⟩
    refine ⟨pos, ?_⟩
    rw [(report_eq_iff t e n _).2 ⟨hfine, rfl⟩, Outcome.bind_ok, Outcome.pure_eq,
      Outcome.bind_ok, hpos]

/-- **The inner loop**, when `n` links that lead to the file have been reported. -/
theorem visitFds_eq_iff (filename : List Byte) (t : PsTree.ProcStatus) (es : List FdEntry) (n : ℕ)
    (out : List (List Byte)) :
    (∃ pos, visitFds filename (decimal t.pid) t.statusText.text es
      (offset t.statusText.text n, out) =
        .ok (pos, out ++ List.replicate (es.countP fun e => e.Matches filename) (lineFor t))) ↔
      Readable filename t es n := by
  induction es generalizing n out with
  | nil => simp [visitFds, Readable]
  | cons e es ih =>
      rw [Readable]
      by_cases hdot : e.name = lit "." ∨ e.name = lit ".."
      · have hnot : ¬ e.Matches filename := fun h => hdot.elim h.1 h.2.1
        rw [if_pos hdot, visitFds, visitFd, if_pos hdot, Outcome.bind_ok,
          List.countP_cons_of_neg (by simpa using hnot)]
        exact ih n out
      · rw [if_neg hdot]
        cases hlink : e.link with
        | none =>
            rw [visitFds, visitFd, if_neg hdot, hlink]
            simp
        | some target =>
            simp only [Option.some.injEq, exists_eq_left']
            by_cases hlen : target.length < bufferSize
            · rw [and_iff_right hlen]
              by_cases hmatch : target = filename
              · subst hmatch
                have hmatches : e.Matches target := ⟨(not_or.1 hdot).1, (not_or.1 hdot).2, hlink⟩
                rw [if_pos rfl, List.countP_cons_of_pos (by simpa using hmatches),
                  visitFds_match_iff hdot hlink hlen, ih (n + 1)]
              · have hnot : ¬ e.Matches filename := by
                  rintro ⟨-, -, h⟩
                  rw [hlink, Option.some.injEq] at h
                  exact hmatch h
                rw [if_neg hmatch, visitFds, visitFd_other hdot hlink hlen hmatch, Outcome.bind_ok,
                  List.countP_cons_of_neg (by simpa using hnot)]
                exact ih n out
            · rw [visitFds, visitFd, if_neg hdot, hlink]
              simp [hlen]

/-- **Every line is right** exactly if no call fails, no link has `BUFFER_SIZE` bytes or more, and
for each link that leads to the file, except the first, the name is found in the array. -/
theorem namesLinks_iff (filename : List Byte) (t : PsTree.ProcStatus) (es : List FdEntry) :
    NamesLinks filename t es ↔ Readable filename t es 0 := by
  have hstart : offset t.statusText.text 0 = 0 := by rw [offset, Nat.zero_mul, Nat.zero_min]
  rw [← visitFds_eq_iff filename t es 0 [], hstart, List.nil_append, NamesLinks, inspect,
    Outcome.bind_eq_ok]
  constructor
  · rintro ⟨⟨pos, out⟩, hst, hout⟩
    cases hout
    exact ⟨pos, hst⟩
  · rintro ⟨pos, hst⟩
    exact ⟨_, hst, rfl⟩

/-! ### Any entry of `/proc` -/

/-- The cases of an iteration of the inner loop: nothing is printed, or a line at a link that leads
to the file. -/
theorem visitFd_cases {filename dName status : List Byte} {e : FdEntry}
    {st st' : ℕ × List (List Byte)}
    (h : visitFd filename dName status e st = .ok st') :
    (st' = st ∧ ¬ e.Matches filename) ∨
    (e.Matches filename ∧ ∃ command, st'.2 = st.2 ++
      [(describe dName command).take (bufferSize - 1)]) := by
  unfold visitFd at h
  split at h
  · next hdot =>
      cases h
      exact Or.inl ⟨rfl, fun hm => hdot.elim hm.1 hm.2.1⟩
  · next hdot =>
      split at h
      · cases h
      · next target hlink =>
          split at h
          · split at h
            · next hfile =>
                subst hfile
                obtain ⟨r, hr, hst⟩ := Outcome.bind_eq_ok.1 h
                cases hst
                refine Or.inr ⟨⟨(not_or.1 hdot).1, (not_or.1 hdot).2, hlink⟩, ?_⟩
                unfold report at hr
                split at hr
                · obtain ⟨command, -, hwrite⟩ := Outcome.bind_eq_ok.1 hr
                  dsimp only at hwrite
                  split at hwrite
                  · cases hwrite
                    exact ⟨command, rfl⟩
                  · cases hwrite
                · cases hr
            · next hfile =>
                cases h
                refine Or.inl ⟨rfl, fun hm => hfile ?_⟩
                have htarget := hlink.symm.trans hm.2.2
                exact Option.some.inj htarget
          · cases h

theorem mem_visitFds {filename dName status : List Byte} {es : List FdEntry}
    {st st' : ℕ × List (List Byte)} (h : visitFds filename dName status es st = .ok st')
    {line : List Byte} (hline : line ∈ st'.2) :
    line ∈ st.2 ∨ ∃ command, line = (describe dName command).take (bufferSize - 1) := by
  induction es generalizing st with
  | nil =>
      cases h
      exact Or.inl hline
  | cons e es ih =>
      obtain ⟨st₁, hvisit, hrest⟩ := Outcome.bind_eq_ok.1 h
      rcases ih hrest with hmem | hdescribed
      · rcases visitFd_cases hvisit with ⟨rfl, -⟩ | ⟨-, command, hprinted⟩
        · exact Or.inl hmem
        · rw [hprinted, List.mem_append, List.mem_singleton] at hmem
          exact hmem.imp_right fun heq => ⟨command, heq⟩
      · exact Or.inr hdescribed

/-- **Every line** begins with the name of the entry that it is printed for. -/
theorem mem_inspect {filename dName : List Byte} {status : Except PsTree.Errno (List Byte)}
    {fdDir : Option (List FdEntry)} {out : List (List Byte)}
    (h : inspect filename dName status fdDir = .ok out) {line : List Byte} (hline : line ∈ out) :
    ∃ command, line = (describe dName command).take (bufferSize - 1) := by
  unfold inspect at h
  split at h
  · split at h
    · cases h
      cases hline
    · cases h
  · split at h
    · cases h
    · obtain ⟨st, hst, hout⟩ := Outcome.bind_eq_ok.1 h
      cases hout
      rcases mem_visitFds hst hline with hmem | hdescribed
      · cases hmem
      · exact hdescribed

/-- A link that can be read, is not too long and does not lead to the file, or no link. -/
def FdEntry.PassedOver (filename : List Byte) (e : FdEntry) : Prop :=
  (e.name = lit "." ∨ e.name = lit "..") ∨
    ∃ target, e.link = some target ∧ target.length < bufferSize ∧ target ≠ filename

/-- An iteration of the inner loop at an entry that is passed over. -/
theorem visitFd_passedOver {filename dName status : List Byte} {e : FdEntry}
    (h : e.PassedOver filename)
    (st : ℕ × List (List Byte)) : visitFd filename dName status e st = .ok st := by
  by_cases hdot : e.name = lit "." ∨ e.name = lit ".."
  · rw [visitFd, if_pos hdot]
  · obtain ⟨target, hlink, hlen, hne⟩ := h.resolve_left hdot
    exact visitFd_other hdot hlink hlen hne st

/-- An iteration that prints nothing and does not end the program. -/
theorem passedOver_of_visitFd {filename dName status : List Byte} {e : FdEntry}
    {st : ℕ × List (List Byte)} (h : visitFd filename dName status e st = .ok st) :
    e.PassedOver filename := by
  rcases visitFd_cases h with ⟨-, hnot⟩ | ⟨-, command, hprinted⟩
  · unfold visitFd at h
    split at h
    · next hdot => exact Or.inl hdot
    · next hdot =>
        split at h
        · cases h
        · next target hlink =>
            split at h
            · next hlen =>
                refine Or.inr ⟨target, hlink, hlen, ?_⟩
                rintro rfl
                exact hnot ⟨(not_or.1 hdot).1, (not_or.1 hdot).2, hlink⟩
            · cases h
  · have hlen := congrArg List.length hprinted
    rw [List.length_append, List.length_singleton] at hlen
    omega

theorem visitFds_silent_iff (filename dName status : List Byte) (es : List FdEntry) (pos : ℕ) :
    (∃ pos', visitFds filename dName status es (pos, []) = .ok (pos', [])) ↔
      ∀ e ∈ es, e.PassedOver filename := by
  induction es with
  | nil => exact iff_of_true ⟨pos, rfl⟩ (by simp)
  | cons e es ih =>
      rw [List.forall_mem_cons, ← ih]
      constructor
      · rintro ⟨pos', h⟩
        obtain ⟨st, hvisit, hrest⟩ := Outcome.bind_eq_ok.1 h
        -- a line of the first iteration would still be there
        have hst : st.2 = [] := List.prefix_nil.1 (prefix_visitFds hrest)
        rcases visitFd_cases hvisit with ⟨rfl, -⟩ | ⟨-, command, hprinted⟩
        · exact ⟨passedOver_of_visitFd hvisit, pos', hrest⟩
        · rw [hst] at hprinted
          simp at hprinted
      · rintro ⟨hover, pos', hrest⟩
        refine ⟨pos', ?_⟩
        rw [visitFds, visitFd_passedOver hover, Outcome.bind_ok, hrest]

/-- **Nothing is printed** exactly if no link is unreadable, too long or leads to the file. -/
theorem inspect_eq_nil_iff (filename dName status : List Byte) (es : List FdEntry) :
    inspect filename dName (.ok status) (some es) = .ok [] ↔ ∀ e ∈ es, e.PassedOver filename := by
  rw [← visitFds_silent_iff filename dName status es 0, inspect, Outcome.bind_eq_ok]
  constructor
  · rintro ⟨⟨pos, out⟩, hst, hout⟩
    cases hout
    exact ⟨pos, hst⟩
  · rintro ⟨pos, hst⟩
    exact ⟨_, hst, rfl⟩

end OpenFiles
