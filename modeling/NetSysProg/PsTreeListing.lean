/-
**The reading process is listed three times (`HW4/12_2.c`).**

In `/proc` there is an entry for every process, with its number as the name, and there are the
entries `self` and `thread-self`, which lead to the process that reads them.  The loop of `main`
takes every entry that has a status file for a process of its own.  So when it ends there are two
nodes too many, with the number of the program itself.

Main definitions:

* `PsTree.Listing` — what `/proc` looks like to the program;
* `PsTree.Listing.OneNodeEach` — what the loop is for.

Main results:

* `PsTree.Listing.found_perm`, `PsTree.Listing.scan_ends` — the processes that are found;
* `PsTree.Listing.three_le_count` — the number of the reading process occurs three times;
* `PsTree.Listing.not_oneNodeEach` — **no listing gives one node for each process**.
-/

import NetSysProg.PsTreeScan
import Mathlib.Data.List.Nodup

set_option relaxedAutoImplicit false
set_option autoImplicit false

namespace PsTree

open CString Numerals Status

/-! ### Listings -/

/-- A process with the bytes of its status file. -/
structure Proc where
  pid : ℕ
  status : List Byte
  deriving DecidableEq

def selfName : List Byte := lit "self"

def threadSelfName : List Byte := lit "thread-self"

/-- `/proc`, as the process `reader` sees it: the entries of the processes, the two aliases, and
other entries without a status file, in any order. -/
structure Listing where
  procs : List Proc
  nodup : (procs.map Proc.pid).Nodup
  reader : Proc
  reader_mem : reader ∈ procs
  others : List (List Byte)
  names : List (List Byte)
  perm : names.Perm
    (procs.map (fun p => decimal p.pid) ++ (selfName :: threadSelfName :: others))
  fs : List Byte → StatusFile
  fs_proc : ∀ p ∈ procs, fs (statusPath (decimal p.pid)) = .content p.status
  fs_self : fs (statusPath selfName) = .content reader.status
  fs_threadSelf : fs (statusPath threadSelfName) = .content reader.status
  fs_other : ∀ dName ∈ others, fs (statusPath dName) = .missing .enoent ∨
    fs (statusPath dName) = .missing .enotdir

/-- The loop comes to its end with exactly one node for each process; then the numbers of the nodes
are distinct, like those of the processes. -/
def Listing.OneNodeEach (L : Listing) : Prop :=
  ∃ s, scan L.fs L.names .empty = .ok s ∧ s.pids.Perm (L.procs.map fun p => (p.pid : ℤ))

theorem found_of_content {fs : List Byte → StatusFile} {dName bytes : List Byte}
    (h : fs (statusPath dName) = .content bytes) : found fs dName = parsed bytes := by
  rw [found, h]

theorem found_of_missing {fs : List Byte → StatusFile} {dName : List Byte} {e : Errno}
    (h : fs (statusPath dName) = .missing e) : found fs dName = none := by
  rw [found, h]

/-! ### What is found -/

theorem processes_of_scan {fs : List Byte → StatusFile} {dNames : List (List Byte)} {s : State}
    (h : scan fs dNames .empty = .ok s) : s.processes = dNames.filterMap (found fs) := (scan_eq h).1

/-- **The processes that are found**, up to their order: one for each process and the reader two
more times. -/
theorem Listing.found_perm (L : Listing) :
    (L.names.filterMap (found L.fs)).Perm
      (L.procs.filterMap (fun p => parsed p.status) ++
        ((parsed L.reader.status).toList ++ (parsed L.reader.status).toList)) := by
  have hprocs : (L.procs.map fun p => decimal p.pid).filterMap (found L.fs) =
      L.procs.filterMap fun p => parsed p.status := by
    rw [List.filterMap_map]
    refine List.filterMap_congr fun p hp => ?_
    exact found_of_content (L.fs_proc p hp)
  have hothers : L.others.filterMap (found L.fs) = [] := by
    refine List.filterMap_eq_nil_iff.2 fun dName hd => ?_
    rcases L.fs_other dName hd with h | h
    · exact found_of_missing h
    · exact found_of_missing h
  refine (L.perm.filterMap (found L.fs)).trans (List.Perm.of_eq ?_)
  rw [List.filterMap_append, hprocs, filterMap_cons_toList, filterMap_cons_toList, hothers,
    List.append_nil, found_of_content L.fs_self, found_of_content L.fs_threadSelf]

/-- When the loop has come to its end, a process has been found in every status file. -/
theorem Listing.exists_parsed (L : Listing) {s : State} (h : scan L.fs L.names .empty = .ok s) :
    ∀ p ∈ L.procs, ∃ q, parsed p.status = some q := by
  intro p hp
  have hname : decimal p.pid ∈ L.names :=
    L.perm.mem_iff.2 (List.mem_append_left _ (List.mem_map_of_mem hp))
  have hnone := (scan_eq h).2 _ hname
  rw [found_of_content (L.fs_proc p hp), L.fs_proc p hp] at hnone
  rw [← Option.ne_none_iff_exists']
  intro hp
  obtain ⟨e, he⟩ := hnone.1 hp
  cases he

/-- **The loop comes to its end** when every status file is one that leaves room for a null byte. -/
theorem Listing.scan_ends (L : Listing) (h : ∀ p ∈ L.procs, ∃ t : ProcStatus,
    p.status = t.statusText.text ∧ t.statusText.text.length < bufferSize) :
    ∃ s, scan L.fs L.names .empty = .ok s := by
  have hscanned : ∀ p ∈ L.procs, Scanned (.content p.status) := by
    intro p hp
    obtain ⟨t, ht, hlen⟩ := h p hp
    have hname : t.name.length < bufferSize := Nat.lt_of_le_of_lt t.name_length.2 (by decide)
    exact Or.inr (Or.inr ⟨_, _, rfl, ht ▸ parse_statusFile t hlen, hname⟩)
  refine exists_scan (fun dName hd => ?_) .empty
  rcases List.mem_append.1 (L.perm.mem_iff.1 hd) with hproc | hd
  · obtain ⟨p, hp, rfl⟩ := List.mem_map.1 hproc
    rw [L.fs_proc p hp]
    exact hscanned p hp
  · rcases List.mem_cons.1 hd with rfl | hd
    · rw [L.fs_self]
      exact hscanned L.reader L.reader_mem
    · rcases List.mem_cons.1 hd with rfl | hother
      · rw [L.fs_threadSelf]
        exact hscanned L.reader L.reader_mem
      · rcases L.fs_other dName hother with he | he
        · exact Or.inl he
        · exact Or.inr (Or.inl he)

/-- **The nodes at the end of the loop.** -/
theorem Listing.exists_reader (L : Listing) {s : State} (h : scan L.fs L.names .empty = .ok s) :
    ∃ r, parse L.reader.status = .ok r ∧
      s.processes.Perm (L.procs.filterMap (fun p => parsed p.status) ++ [r, r]) ∧
      r ∈ L.procs.filterMap fun p => parsed p.status := by
  obtain ⟨r, hr⟩ := L.exists_parsed h L.reader L.reader_mem
  have hperm := L.found_perm
  rw [← processes_of_scan h, hr] at hperm
  exact ⟨r, parsed_eq_some_iff.1 hr, hperm, List.mem_filterMap.2 ⟨L.reader, L.reader_mem, hr⟩⟩

theorem Listing.length_nodes (L : Listing) {s : State} (h : scan L.fs L.names .empty = .ok s) :
    s.nodes.length = L.procs.length + 2 := by
  obtain ⟨r, -, hperm, -⟩ := L.exists_reader h
  have hall : (L.procs.filterMap fun p => parsed p.status).length = L.procs.length := by
    rw [List.filterMap_length_eq_length]
    intro p hp
    rw [Option.isSome_iff_exists]
    exact L.exists_parsed h p hp
  have hlen := hperm.length_eq
  rw [List.length_append, hall, State.processes, List.length_map] at hlen
  exact hlen

/-- The number of the reader is that of three nodes. -/
theorem Listing.three_le_count (L : Listing) {s : State} (h : scan L.fs L.names .empty = .ok s) :
    ∃ r, parse L.reader.status = .ok r ∧ 3 ≤ s.pids.count r.pid := by
  obtain ⟨r, hr, hperm, hmem⟩ := L.exists_reader h
  refine ⟨r, hr, ?_⟩
  have hone : 0 < ((L.procs.filterMap fun p => parsed p.status).map Process.pid).count r.pid :=
    List.count_pos_iff.2 (List.mem_map_of_mem hmem)
  have hcount := (hperm.map Process.pid).count_eq r.pid
  rw [List.map_append, List.count_append, List.map_cons, List.map_cons, List.map_nil,
    List.count_cons_self, List.count_cons_self, List.count_nil] at hcount
  rw [State.pids, hcount]
  omega

/-- **No listing gives one node for each process.**  If the loop comes to its end there are two
nodes more than there are processes, and numbers occur more than once. -/
theorem Listing.not_oneNodeEach (L : Listing) :
    ¬ L.OneNodeEach ∧ ∀ s, scan L.fs L.names .empty = .ok s →
      s.nodes.length = L.procs.length + 2 ∧ ¬ s.pids.Nodup := by
  constructor
  · rintro ⟨s, hs, hperm⟩
    have hlen := hperm.length_eq
    have hnodes := L.length_nodes hs
    rw [State.pids, State.processes, List.length_map, List.length_map, List.length_map] at hlen
    omega
  · intro s hs
    refine ⟨L.length_nodes hs, fun hnodup => ?_⟩
    obtain ⟨r, -, hcount⟩ := L.three_le_count hs
    have hle := List.nodup_iff_count_le_one.1 hnodup r.pid
    omega

/-! ### A listing -/

/-- The status file of `init`. -/
def initStatus : ProcStatus where
  name := lit "init"
  name_length := by decide
  name_ok := by decide
  pid := 1
  pid_le := by decide
  ppid := 0
  ppid_le := by decide
  toPid := [⟨lit "State", lit "S (sleeping)", by decide, by decide⟩]
  toPpid := []
  toEnd := []
  other := by decide

/-- The status file of the program, which `init` has started. -/
def treeStatus : ProcStatus where
  name := lit "12_2"
  name_length := by decide
  name_ok := by decide
  pid := 2
  pid_le := by decide
  ppid := 1
  ppid_le := by decide
  toPid := [⟨lit "State", lit "R (running)", by decide, by decide⟩]
  toPpid := []
  toEnd := []
  other := by decide

/-- Two processes, and a file that belongs to none. -/
def twoProcs : Listing where
  procs := [⟨1, initStatus.statusText.text⟩, ⟨2, treeStatus.statusText.text⟩]
  nodup := by decide
  reader := ⟨2, treeStatus.statusText.text⟩
  reader_mem := List.mem_cons_of_mem _ List.mem_cons_self
  others := [lit "uptime"]
  names := [decimal 1, decimal 2, selfName, threadSelfName, lit "uptime"]
  perm := .refl _
  fs path :=
    if path = statusPath (decimal 1) then .content initStatus.statusText.text
    else if path = statusPath (lit "uptime") then .missing .enotdir
    else .content treeStatus.statusText.text
  fs_proc := by decide
  fs_self := by decide
  fs_threadSelf := by decide
  fs_other := by decide

/-- **Four nodes for two processes**: the search for the number `2` can find three of them. -/
theorem not_oneNodeEach_twoProcs :
    (∃ s, scan twoProcs.fs twoProcs.names .empty = .ok s ∧ s.pids = [1, 2, 2, 2]) ∧
      ¬ twoProcs.OneNodeEach := by
  have hinit : twoProcs.fs (statusPath (decimal 1)) = .content initStatus.statusText.text := by
    decide
  have htree : ∀ dName ∈ [decimal 2, selfName, threadSelfName],
      twoProcs.fs (statusPath dName) = .content treeStatus.statusText.text := by decide
  have hother : twoProcs.fs (statusPath (lit "uptime")) = .missing .enotdir := by decide
  simp only [List.forall_mem_cons] at htree
  obtain ⟨htwo, hself, hthread, -⟩ := htree
  have hnames : twoProcs.names = [decimal 1, decimal 2, selfName, threadSelfName, lit "uptime"] :=
    rfl
  have hfiles : ∀ p ∈ twoProcs.procs, ∃ t : ProcStatus,
      p.status = t.statusText.text ∧ t.statusText.text.length < bufferSize := by
    simp only [twoProcs, List.forall_mem_cons]
    exact ⟨⟨initStatus, rfl, by decide⟩, ⟨treeStatus, rfl, by decide⟩, by simp⟩
  obtain ⟨s, hs⟩ := twoProcs.scan_ends hfiles
  have hpids : s.pids = [1, 2, 2, 2] := by
    have hnone : found twoProcs.fs (lit "uptime") = none := found_of_missing hother
    rw [State.pids, processes_of_scan hs, hnames]
    simp only [List.filterMap_cons, List.filterMap_nil, found_of_content hinit,
      found_of_content htwo, found_of_content hself, found_of_content hthread, hnone,
      parsed_eq_some_iff.2 (parse_statusFile initStatus (by decide)),
      parsed_eq_some_iff.2 (parse_statusFile treeStatus (by decide))]
    rfl
  refine ⟨⟨s, hs, hpids⟩, ?_⟩
  rintro ⟨s', hs', hperm⟩
  cases hs.symm.trans hs'
  have hlen := hperm.length_eq
  rw [hpids] at hlen
  exact absurd hlen (by decide)

end PsTree
