/-
**The processes that have a file open (`HW4/12_3.c`).**

The loop of `main` over `/proc` passes an entry over only when there is no status file behind it.
So it also goes into `self` and `thread-self`, which lead to the program's own process under another
name: if that process has the file open, there are lines for it that do not have its number.

The status files of the processes of the listing can be opened; what has no status file is an entry
with the error of `open`.  `write` may fail, and so may `opendir` for the directory of the
descriptors.

Main definitions:

* `OpenFiles.ProcEntry`, `OpenFiles.Listing` — a listing of `/proc`;
* `OpenFiles.scan` — the loop of `main`;
* `OpenFiles.NamesEach` — for each process there are the lines that there should be;
* `OpenFiles.ProcEntry.Fine` — what is asked of an entry.

Main results:

* `OpenFiles.scan_eq_ok_iff` — the loop in terms of its iterations;
* `OpenFiles.ne_lineFor_of_symlink` — a line for `self` names no process;
* `OpenFiles.printedFor_process` — whose iterations the lines of a process come from;
* `OpenFiles.namesEach_iff` — **the listings for which all lines are right**.
-/

import NetSysProg.OpenFileScan
import Mathlib.Data.List.Nodup

set_option relaxedAutoImplicit false
set_option autoImplicit false

namespace OpenFiles

open CString Numerals Status

/-! ### Listings of `/proc` -/

/-- The two names of the process that reads `/proc`. -/
inductive Symlink
  | self
  | threadSelf

def Symlink.name : Symlink → List Byte
  | .self => lit "self"
  | .threadSelf => lit "thread-self"

/-- An entry of `/proc`: a process with its number, or the process `t` of the program under another
name, with the directory of its descriptors, unless that cannot be opened; or something without a
status file, with the error of `open`. -/
inductive ProcEntry
  | process (t : PsTree.ProcStatus) (fds : Option (List FdEntry))
  | symlink (link : Symlink) (t : PsTree.ProcStatus) (fds : Option (List FdEntry))
  | other (name : List Byte) (errno : PsTree.Errno)

namespace ProcEntry

/-- `d_name` -/
def dName : ProcEntry → List Byte
  | process t _ => decimal t.pid
  | symlink link _ _ => link.name
  | other name _ => name

/-- What comes of opening the status file. -/
def status : ProcEntry → Except PsTree.Errno (List Byte)
  | process t _ => .ok t.statusText.text
  | symlink _ t _ => .ok t.statusText.text
  | other _ errno => .error errno

/-- What comes of opening the directory of the descriptors. -/
def fdDir : ProcEntry → Option (List FdEntry)
  | process _ fds => fds
  | symlink _ _ fds => fds
  | other _ _ => none

/-- The number that the entry is. -/
def pid : ProcEntry → Option ℕ
  | process t _ => some t.pid
  | _ => none

/-- The number of the process whose descriptors the entry leads to. -/
def owner : ProcEntry → Option ℕ
  | process t _ => some t.pid
  | symlink _ t _ => some t.pid
  | other _ _ => none

end ProcEntry

/-- A listing of `/proc`: no process is there twice, and the process of the program is there. -/
structure Listing where
  entries : List ProcEntry
  nodup : (entries.filterMap ProcEntry.pid).Nodup
  reader : ∀ link t fds, .symlink link t fds ∈ entries → ∃ fds', .process t fds' ∈ entries

/-! ### The loop of `main` -/

/-- The loop, with the lines that it prints and, for each line, the process whose descriptor it is
printed for. -/
def scan (filename : List Byte) : List ProcEntry → Outcome (List (Option ℕ × List Byte))
  | [] => .ok []
  | e :: es => do
      let out ← inspect filename e.dName e.status e.fdDir
      let rest ← scan filename es
      return out.map (fun line => (e.owner, line)) ++ rest

/-- The lines for a process. -/
def printedFor (pid : ℕ) (lines : List (Option ℕ × List Byte)) : List (List Byte) :=
  (lines.filter fun line => line.1 = some pid).map Prod.snd

/-- The loop comes to its end, and for each process there is a line with its number and its name for
every descriptor that leads to the file, and no other. -/
def NamesEach (filename : List Byte) (l : Listing) : Prop :=
  ∃ lines, scan filename l.entries = .ok lines ∧
    ∀ t es, .process t (some es) ∈ l.entries →
      printedFor t.pid lines = List.replicate (es.countP fun e => e.Matches filename) (lineFor t)

/-- What is asked of an entry: the descriptors of a process can be read and name it each time, those
that are found under another name do not lead to the file, and what is not a process is not
there. -/
def ProcEntry.Fine (filename : List Byte) : ProcEntry → Prop
  | .process t fds => ∃ es, fds = some es ∧ Readable filename t es 0
  | .symlink _ _ fds => ∃ es, fds = some es ∧ ∀ e ∈ es, e.PassedOver filename
  | .other _ errno => errno = .enoent ∨ errno = .enotdir

/-! ### Iterations -/

/-- The lines that are printed for an entry. -/
def ProcEntry.lines (filename : List Byte) (e : ProcEntry) : List (List Byte) :=
  match inspect filename e.dName e.status e.fdDir with
  | .ok out => out
  | _ => []

theorem ProcEntry.lines_of_ok {filename : List Byte} {e : ProcEntry} {out : List (List Byte)}
    (h : inspect filename e.dName e.status e.fdDir = .ok out) : e.lines filename = out := by
  rw [ProcEntry.lines, h]

/-- **The loop** comes to its end exactly if all its iterations do. -/
theorem scan_eq_ok_iff (filename : List Byte) (entries : List ProcEntry)
    (lines : List (Option ℕ × List Byte)) :
    scan filename entries = .ok lines ↔
      (∀ e ∈ entries, inspect filename e.dName e.status e.fdDir = .ok (e.lines filename)) ∧
        lines = entries.flatMap fun e => (e.lines filename).map fun line => (e.owner, line) := by
  induction entries generalizing lines with
  | nil => simp [scan, eq_comm]
  | cons e es ih =>
      rw [List.forall_mem_cons, List.flatMap_cons]
      constructor
      · intro h
        obtain ⟨out, hout, h⟩ := Outcome.bind_eq_ok.1 h
        obtain ⟨rest, hrest, h⟩ := Outcome.bind_eq_ok.1 h
        obtain ⟨hall, rfl⟩ := (ih rest).1 hrest
        cases h
        rw [ProcEntry.lines_of_ok hout]
        exact ⟨⟨hout, hall⟩, rfl⟩
      · rintro ⟨⟨hout, hall⟩, rfl⟩
        rw [scan, hout, Outcome.bind_ok, (ih _).2 ⟨hall, rfl⟩, Outcome.bind_ok]
        rfl

theorem printedFor_append (pid : ℕ) (lines lines' : List (Option ℕ × List Byte)) :
    printedFor pid (lines ++ lines') = printedFor pid lines ++ printedFor pid lines' := by
  rw [printedFor, List.filter_append, List.map_append]
  rfl

/-- The lines of one iteration are for one process. -/
theorem printedFor_lines (pid : ℕ) (owner : Option ℕ) (out : List (List Byte)) :
    printedFor pid (out.map fun line => (owner, line)) = if owner = some pid then out else [] := by
  unfold printedFor
  split
  · next howner => simp [List.filter_map, howner, Function.comp_def]
  · next howner => simp [howner]

theorem printedFor_flatMap (filename : List Byte) (pid : ℕ) (entries : List ProcEntry) :
    printedFor pid (entries.flatMap fun e => (e.lines filename).map fun line => (e.owner, line)) =
      entries.flatMap fun e => if e.owner = some pid then e.lines filename else [] := by
  induction entries with
  | nil => rfl
  | cons e es ih =>
      rw [List.flatMap_cons, List.flatMap_cons, printedFor_append, ih, printedFor_lines]

/-! ### The process of the program -/

/-- The byte behind `"pid: "`. -/
theorem head_describe (b : Byte) (bs command : List Byte) :
    ((describe (b :: bs) command).take (bufferSize - 1))[5]? = some b := by
  rfl

/-- **A line for another name of the process** is not the line for a process. -/
theorem ne_lineFor_of_symlink (link : Symlink) (command : List Byte) (t : PsTree.ProcStatus) :
    (describe link.name command).take (bufferSize - 1) ≠ lineFor t := by
  obtain ⟨b, bs, hname, hb⟩ : ∃ b bs, link.name = b :: bs ∧ isDigit b = false := by
    cases link with
    | self => exact ⟨_, _, rfl, rfl⟩
    | threadSelf => exact ⟨_, _, rfl, rfl⟩
  obtain ⟨d, ds, hpid⟩ := List.exists_cons_of_length_pos (length_decimal_pos t.pid)
  have hd : isDigit d = true := by
    apply isDigit_of_mem_decimal (n := t.pid)
    rw [hpid]
    exact List.mem_cons_self
  intro h
  rw [← (output_eq_iff t _).2 rfl, hname, hpid] at h
  have hbyte := congrArg (fun bytes : List Byte => bytes[5]?) h
  rw [head_describe, head_describe, Option.some.injEq] at hbyte
  rw [hbyte, hd] at hb
  cases hb

/-- Nothing is printed for another name when all lines for the process are right. -/
theorem lines_symlink_eq_nil {filename : List Byte} {l : Listing} (h : NamesEach filename l)
    {link : Symlink} {t : PsTree.ProcStatus} {fds : Option (List FdEntry)}
    (hmem : .symlink link t fds ∈ l.entries) :
    (ProcEntry.symlink link t fds).lines filename = [] := by
  obtain ⟨lines, hscan, hlines⟩ := h
  obtain ⟨hall, rfl⟩ := (scan_eq_ok_iff _ _ _).1 hscan
  obtain ⟨fds', hprocess⟩ := l.reader link t fds hmem
  have hinspect := hall _ hprocess
  cases fds' with
  | none => cases hinspect
  | some es =>
      have hprinted := hlines t es hprocess
      rw [printedFor_flatMap] at hprinted
      rw [List.eq_nil_iff_forall_not_mem]
      intro line hline
      have hmine : line ∈ l.entries.flatMap fun e =>
          if e.owner = some t.pid then e.lines filename else [] := by
        refine List.mem_flatMap.2 ⟨_, hmem, ?_⟩
        have howner : (ProcEntry.symlink link t fds).owner = some t.pid := rfl
        rw [if_pos howner]
        exact hline
      rw [hprinted] at hmine
      obtain ⟨command, hcommand⟩ := mem_inspect (hall _ hmem) hline
      exact ne_lineFor_of_symlink link command t
        (hcommand.symm.trans (List.eq_of_mem_replicate hmine))

/-- **The lines for a process** are those of its own entry, if there are none for another name of
it. -/
theorem printedFor_process {filename : List Byte} {l : Listing}
    (hsilent : ∀ link t fds, .symlink link t fds ∈ l.entries →
      (ProcEntry.symlink link t fds).lines filename = [])
    {t : PsTree.ProcStatus} {fds : Option (List FdEntry)} (hmem : .process t fds ∈ l.entries) :
    printedFor t.pid (l.entries.flatMap fun e => (e.lines filename).map fun line =>
      (e.owner, line)) =
      (ProcEntry.process t fds).lines filename := by
  obtain ⟨before, behind, hentries⟩ := List.append_of_mem hmem
  have hpid : (ProcEntry.process t fds).pid = some t.pid := rfl
  have hnodup := l.nodup
  rw [hentries, List.filterMap_append, List.filterMap_cons_some hpid, List.nodup_middle,
    List.nodup_cons, ← List.filterMap_append] at hnodup
  have hothers : ∀ e ∈ before ++ behind,
      (if e.owner = some t.pid then e.lines filename else []) = [] := by
    intro e he
    have hin : e ∈ l.entries := by
      rw [hentries]
      exact List.perm_middle.symm.subset (List.mem_cons_of_mem _ he)
    split
    · next howner =>
        cases e with
        | process t' fds' =>
            have hnumber : (ProcEntry.process t' fds').pid = some t.pid := howner
            exact absurd (List.mem_filterMap.2 ⟨_, he, hnumber⟩) hnodup.1
        | symlink link t' fds' => exact hsilent link t' fds' hin
        | other name errno => cases howner
    · rfl
  have hbefore := List.flatMap_eq_nil_iff.2 fun e he => hothers e (List.mem_append_left _ he)
  have hbehind := List.flatMap_eq_nil_iff.2 fun e he => hothers e (List.mem_append_right _ he)
  rw [printedFor_flatMap, hentries, List.flatMap_append, List.flatMap_cons, hbefore, hbehind,
    List.nil_append, List.append_nil]
  exact if_pos rfl

/-! ### All entries -/

/-- An entry that is as it should be does not end the loop. -/
theorem inspect_of_fine {filename : List Byte} {e : ProcEntry} (h : e.Fine filename) :
    inspect filename e.dName e.status e.fdDir = .ok (e.lines filename) := by
  suffices hok : ∃ out, inspect filename e.dName e.status e.fdDir = .ok out by
    obtain ⟨out, hout⟩ := hok
    rw [ProcEntry.lines_of_ok hout, hout]
  cases e with
  | process t fds =>
      obtain ⟨es, rfl, hreadable⟩ := h
      exact ⟨_, (namesLinks_iff filename t es).2 hreadable⟩
  | symlink link t fds =>
      obtain ⟨es, rfl, hover⟩ := h
      exact ⟨[], (inspect_eq_nil_iff filename _ _ es).2 hover⟩
  | other name errno => exact ⟨[], if_pos h⟩

/-- **The listings for which all lines are right**: every directory can be read and names its
process each time, and the program's own process does not have the file open. -/
theorem namesEach_iff (filename : List Byte) (l : Listing) :
    NamesEach filename l ↔ ∀ e ∈ l.entries, e.Fine filename := by
  constructor
  · intro h
    have hsilent := fun link t fds => @lines_symlink_eq_nil _ _ h link t fds
    obtain ⟨lines, hscan, hlines⟩ := h
    obtain ⟨hall, rfl⟩ := (scan_eq_ok_iff _ _ _).1 hscan
    intro e he
    have hinspect := hall e he
    cases e with
    | process t fds =>
        cases fds with
        | none => cases hinspect
        | some es =>
            refine ⟨es, rfl, (namesLinks_iff filename t es).1 (hinspect.trans (congrArg _ ?_))⟩
            rw [← hlines t es he, printedFor_process hsilent he]
    | symlink link t fds =>
        cases fds with
        | none => cases hinspect
        | some es =>
            rw [hsilent link t (some es) he] at hinspect
            exact ⟨es, rfl, (inspect_eq_nil_iff filename _ _ es).1 hinspect⟩
    | other name errno =>
        by_contra hnot
        rw [ProcEntry.Fine] at hnot
        rw [ProcEntry.status, inspect, if_neg hnot] at hinspect
        cases hinspect
  · intro h
    have hsilent : ∀ link t fds, .symlink link t fds ∈ l.entries →
        (ProcEntry.symlink link t fds).lines filename = [] := by
      intro link t fds hmem
      obtain ⟨es, rfl, hover⟩ := h _ hmem
      exact ProcEntry.lines_of_ok ((inspect_eq_nil_iff filename _ _ es).2 hover)
    refine ⟨_, (scan_eq_ok_iff _ _ _).2 ⟨fun e he => inspect_of_fine (h e he), rfl⟩,
      fun t es hmem => ?_⟩
    obtain ⟨es', hes, hreadable⟩ := h _ hmem
    cases hes
    rw [printedFor_process hsilent hmem]
    exact ProcEntry.lines_of_ok ((namesLinks_iff filename t es).2 hreadable)

/-! ### A file that is open twice -/

theorem one_le_intMax : 1 ≤ CInt.intMax := by decide

theorem stateKey_ok : newline ∉ lit "State" ∧ nul ∉ lit "State" ∧ colon ∉ lit "State" := by decide

theorem sleeping_ok : newline ∉ lit "S (sleeping)" ∧ nul ∉ lit "S (sleeping)" := by decide

theorem thousands_ok :
    newline ∉ lit "1000\t1000\t1000\t1000" ∧ nul ∉ lit "1000\t1000\t1000\t1000" := by decide

/-- The status file of a shell. -/
def shellStatus : PsTree.ProcStatus where
  name := lit "bash"
  name_length := by decide
  name_ok := by decide
  pid := 7
  pid_le := by decide
  ppid := 1
  ppid_le := one_le_intMax
  toPid := [⟨lit "Umask", lit "0022", by decide, by decide⟩,
    ⟨lit "State", lit "S (sleeping)", stateKey_ok, sleeping_ok⟩,
    ⟨lit "Tgid", lit "7", by decide, by decide⟩, ⟨lit "Ngid", lit "0", by decide, by decide⟩]
  toPpid := []
  toEnd := [⟨lit "TracerPid", lit "0", by decide, by decide⟩,
    ⟨lit "Uid", lit "1000\t1000\t1000\t1000", by decide, thousands_ok⟩,
    ⟨lit "Gid", lit "1000\t1000\t1000\t1000", by decide, thousands_ok⟩,
    ⟨lit "FDSize", lit "256", by decide, by decide⟩,
    ⟨lit "Groups", lit "4 24 27 30 46 110 120 131 132 1000", by decide, by decide⟩,
    ⟨lit "NStgid", lit "7", by decide, by decide⟩, ⟨lit "NSpid", lit "7", by decide, by decide⟩,
    ⟨lit "NSpgid", lit "7", by decide, by decide⟩, ⟨lit "NSsid", lit "7", by decide, by decide⟩,
    ⟨lit "VmPeak", lit "   10240 kB", by decide, by decide⟩,
    ⟨lit "VmSize", lit "   10240 kB", by decide, by decide⟩]
  other := by decide

/-- A descriptor of the shell; the arrays hold null bytes, and no call fails. -/
def shellFd (name : List Byte) : FdEntry :=
  ⟨name, some (lit "/tmp/x"), List.replicate bufferSize nul, List.replicate bufferSize nul,
    List.length_replicate, List.length_replicate, true, true⟩

/-- The shell has the file open twice. -/
def shellListing : Listing where
  entries := [.process shellStatus (some [shellFd (lit "0"), shellFd (lit "1")])]
  nodup := List.nodup_singleton _
  reader := by simp

/-- The status file of the program. -/
def readerStatus : PsTree.ProcStatus :=
  { shellStatus with name := lit "12_3", name_length := by decide, name_ok := by decide }

/-- The program itself has the file open, as its standard output. -/
def readerListing : Listing where
  entries := [.process readerStatus (some [shellFd (lit "1")]),
    .symlink .self readerStatus (some [shellFd (lit "1")])]
  nodup := List.nodup_singleton _
  reader := by simp +contextual

set_option maxRecDepth 4000 in
theorem scan_shellListing :
    scan (lit "/tmp/x") shellListing.entries =
      .ok [(some 7, lit "pid: 7 / command: \tbash\n"),
        (some 7, lit "pid: 7 / command: 000\n")] := by
  decide

set_option maxRecDepth 4000 in
theorem inspect_self :
    inspect (lit "/tmp/x") (lit "self") (.ok readerStatus.statusText.text)
      (some [shellFd (lit "1")]) =
      .ok [lit "pid: self / command: \t12_3\n"] := by
  decide

/-- **The second line has a part of another line of the status file** in the place of the name, and
the program itself is also listed as `self`. -/
theorem not_namesEach_shell :
    ¬ NamesEach (lit "/tmp/x") shellListing ∧ ¬ NamesEach (lit "/tmp/x") readerListing := by
  constructor
  · rintro ⟨lines, hscan, hlines⟩
    obtain rfl := Outcome.ok.inj (scan_shellListing.symm.trans hscan)
    have hprinted := hlines shellStatus _ (List.mem_singleton_self _)
    revert hprinted
    decide
  · intro h
    have hmem : .symlink .self readerStatus (some [shellFd (lit "1")]) ∈ readerListing.entries :=
      List.mem_cons_of_mem _ (List.mem_singleton_self _)
    have hnothing := lines_symlink_eq_nil h hmem
    rw [ProcEntry.lines_of_ok (e := .symlink .self _ _) inspect_self] at hnothing
    cases hnothing

end OpenFiles
