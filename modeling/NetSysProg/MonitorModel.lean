/-
**The recursive monitor (`HW12/19_1.c`).**

The program watches every directory of a tree.  It walks over the tree with `nftw` and puts a watch
on each directory that it finds; after that it handles the events of the inotify queue one by one,
puts a watch on each directory that an event reports as new, and drops the entry of each watch that
the kernel reports as removed.  While it does this other processes create, remove and rename
directories.

One step of the system is one system call: of another process, of `nftw`, or of the handling of one
event, in which `inotify_add_watch` is the only call that the others can notice.  The events that
the program has read into its buffer and those that the kernel still holds form one queue.  Of
`readdir` it is known that a directory which was there at `opendir` and is not taken away is
returned before the end; what appears later may be returned or not.  The kernel does not use a watch
descriptor twice.

Files other than directories have been left out, for which `fn` does nothing, and so has what the
program prints.

Main definitions:

* `Monitor.Kernel` — the directories, the watches and the queue;
* `Monitor.watchSubdir`, `Monitor.fn`, `Monitor.displayLogEvent` — the functions of the program;
* `Monitor.step` — one system call;
* `Monitor.AllWatched` — what the list should be when there is nothing left to do.
-/

import NetSysProg.DirTree
import NetSysProg.WatchListModel

set_option relaxedAutoImplicit false
set_option autoImplicit false

namespace Monitor

open DirTree
open WatchList (Path Addr)

/-! ### The kernel -/

/-- Where a directory is: in the tree that is monitored, or elsewhere. -/
inductive Side
  | tree
  | elsewhere
  deriving DecidableEq

def PATH_MAX : ℕ := 4096

def IN_MOVED_FROM : BitVec 32 := 0x40

def IN_MOVED_TO : BitVec 32 := 0x80

def IN_CREATE : BitVec 32 := 0x100

def IN_DELETE : BitVec 32 := 0x200

def IN_DELETE_SELF : BitVec 32 := 0x400

def IN_MOVE_SELF : BitVec 32 := 0x800

def IN_IGNORED : BitVec 32 := 0x8000

def IN_ISDIR : BitVec 32 := 0x40000000

/-- `struct inotify_event`, without the cookie. -/
structure Event where
  wd : ℤ
  mask : BitVec 32
  name : List Char
  deriving DecidableEq

/-- The event reports the end of its watch. -/
def Event.Ignored (ev : Event) : Prop := ev.mask &&& IN_IGNORED ≠ 0

/-- The event reports a new directory. -/
def Event.NewDir (ev : Event) : Prop := ev.mask &&& IN_ISDIR ≠ 0 ∧ ev.mask &&& IN_CREATE ≠ 0

instance (ev : Event) : Decidable ev.Ignored := inferInstanceAs (Decidable (_ ≠ _))

instance (ev : Event) : Decidable ev.NewDir := inferInstanceAs (Decidable (_ ∧ _))

/-- The errors of looking up a path and of `inotify_add_watch`. -/
inductive Errno
  | ENOENT
  | EACCES
  | ENAMETOOLONG
  deriving DecidableEq

/-- The directories, the pairs of a watch descriptor and an inode number, and the events that have
not been handled. -/
structure Kernel where
  tree : Forest Side
  watches : List (ℤ × ℕ)
  nextWd : ℤ
  queue : List Event

section

variable (root : Path)

/-- The path of a directory of the tree, whose top is known as `root`. -/
def pathOf (names : List Name) : Path := root ++ render names

namespace Kernel

variable (k : Kernel)

/-- Looking up a path. -/
def resolve (path : Path) : Except Errno (Dir Side) :=
  if PATH_MAX ≤ path.length then .error .ENAMETOOLONG
  else
    match k.tree.dirs.find? fun d => d.loc.top = .tree ∧ pathOf root d.loc.names = path with
    | none => .error .ENOENT
    | some d => .ok d

/-- `inotify_add_watch`; a directory that is watched keeps its descriptor. -/
def inotifyAddWatch (path : Path) : Except Errno (ℤ × Kernel) :=
  match k.resolve root path with
  | .error e => .error e
  | .ok d =>
      if d.readable = false then .error .EACCES
      else
        match k.watches.find? fun x => x.2 = d.ino with
        | some x => .ok (x.1, k)
        | none => .ok (k.nextWd,
            { k with watches := k.watches ++ [(k.nextWd, d.ino)], nextWd := k.nextWd + 1 })

/-- The inode number of the directory at a place. -/
def inoAt (l : Loc Side) : Option ℕ := (k.tree.find l).map Dir.ino

/-- An event for the directory, if it is watched. -/
def post (ino : Option ℕ) (mask : BitVec 32) (name : List Char) : Kernel :=
  { k with
    queue := k.queue ++ (k.watches.filter fun x => some x.2 = ino).map fun x => ⟨x.1, mask, name⟩ }

/-- An event for the directory that this one is an entry of, if that is watched. -/
def postEntry (l : Loc Side) (mask : BitVec 32) : Kernel :=
  match l.names.getLast? with
  | none => k
  | some n => k.post (k.inoAt ⟨l.top, l.names.dropLast⟩) (mask ||| IN_ISDIR) n.chars

def mkdir (p : Loc Side) (n : Name) (readable : Bool) : Option Kernel :=
  (k.tree.mkdir p n readable).map fun t => { k.postEntry (p.child n) IN_CREATE with tree := t }

def rmdir (l : Loc Side) : Option Kernel :=
  (k.tree.rmdir l).map fun t =>
    let ino := k.inoAt l
    let k' := ((k.postEntry l IN_DELETE).post ino IN_DELETE_SELF []).post ino IN_IGNORED []
    { k' with tree := t, watches := k'.watches.filter fun x => some x.2 ≠ ino }

def rename (a p : Loc Side) (n : Name) : Option Kernel :=
  (k.tree.rename a p n).map fun t =>
    { ((k.postEntry a IN_MOVED_FROM).postEntry (p.child n) IN_MOVED_TO).post (k.inoAt a)
        IN_MOVE_SELF [] with tree := t }

/-- Another event of a watched directory, about a file in it or about opening and reading it. -/
def touch (wd : ℤ) (mask : BitVec 32) (name : List Char) : Option Kernel :=
  let ev : Event := ⟨wd, mask, name⟩
  if wd ∈ k.watches.map Prod.fst ∧ ¬ev.Ignored ∧ ¬ev.NewDir then
    some { k with queue := k.queue ++ [ev] }
  else none

end Kernel

/-! ### The functions of the program -/

/-- What the program works on. -/
abbrev Mem := Kernel × WatchList.State

/-- `watchSubdir`; `newDir` is what `malloc` returns. -/
def watchSubdir (newDir : Option Addr) (path : Path) (m : Mem) : Outcome Mem :=
  match m.1.inotifyAddWatch root path with
  | .error _ => .exit 1 "inotify_add_watch() fail"
  | .ok (wd, k) =>
      match newDir with
      | none => .exit 1 "malloc() fail"
      | some a => do
          let l ← WatchList.append a wd path m.2
          return (k, l)

/-- The types of what `nftw` has found: a directory, one that cannot be read, or nothing. -/
inductive Flag
  | FTW_D
  | FTW_DNR
  | FTW_NS
  deriving DecidableEq

/-- `fn` -/
def fn (newDir : Option Addr) (path : Path) (isDir : Bool) (flag : Flag) (m : Mem) : Outcome Mem :=
  if flag = .FTW_DNR ∨ flag = .FTW_NS then .ok m
  else if isDir then watchSubdir root newDir path m
  else .ok m

/-- `displayLogEvent`, with any function in the place of `rmWatchSubdir`. -/
def displayLogEventWith (rmWatchSubdir : ℤ → WatchList.State → Outcome WatchList.State)
    (newDir : Option Addr) (ev : Event) (m : Mem) : Outcome Mem := do
  let pathPrefix ← WatchList.parentPath ev.wd m.2
  match pathPrefix with
  | none => .exit 1 "parentPath"
  | some _ =>
      let l ← if ev.Ignored then rmWatchSubdir ev.wd m.2 else .ok m.2
      if ev.NewDir then
        let parent ← WatchList.parentPath ev.wd l
        match parent with
        | none => .fault
        | some path =>
            watchSubdir root newDir ((path ++ '/' :: ev.name).take (PATH_MAX - 1)) (m.1, l)
      else return (m.1, l)

/-- `displayLogEvent` -/
def displayLogEvent (newDir : Option Addr) (ev : Event) (m : Mem) : Outcome Mem :=
  displayLogEventWith root WatchList.rmWatchSubdir newDir ev m

end

/-! ### The walk of `nftw` -/

/-- A directory that has been opened: its names, its inode number, and the entries that were
there. -/
structure Stream where
  names : List Name
  ino : ℕ
  due : List (Name × ℕ)
  deriving DecidableEq

/-- What `nftw` is about to do: to look at an entry, to open a directory, to call `fn` for it, or to
read the next of its entries, some of which have been returned. -/
inductive Frame
  | entering (names : List Name)
  | opening (names : List Name)
  | calling (st : Stream)
  | reading (st : Stream) (seen : List Name)
  deriving DecidableEq

/-- `readdir` may report the end of the directory: what is still there has been returned. -/
def Stream.AtEnd (t : Forest Side) (st : Stream) (seen : List Name) : Prop :=
  ∀ x ∈ st.due, x.1 ∉ seen → ∀ g ∈ t.dirs, g.ino = st.ino →
    ∀ e ∈ t.dirs, e.ino = x.2 → e.loc ≠ g.loc.child x.1

instance (t : Forest Side) (st : Stream) (seen : List Name) : Decidable (st.AtEnd t seen) :=
  inferInstanceAs (Decidable (∀ x ∈ st.due, x.1 ∉ seen → ∀ g ∈ t.dirs, g.ino = st.ino →
    ∀ e ∈ t.dirs, e.ino = x.2 → e.loc ≠ g.loc.child x.1))

/-! ### The system -/

/-- Where the program is: before `nftw`, in it or in the loop behind it, or at its end. -/
inductive Proc
  | starting
  | running (walk : List Frame)
  | exited (status : ℤ) (message : String)
  | crashed
  deriving DecidableEq

structure State where
  kernel : Kernel
  list : WatchList.State
  proc : Proc

/-- The program is about to start. -/
def init (t : Forest Side) : State := ⟨⟨t, [], 1, []⟩, WatchList.empty, .starting⟩

/-- What a process does: another one, `nftw`, or the loop of `main`. -/
inductive Action
  | mkdir (p : Loc Side) (n : Name) (readable : Bool)
  | rmdir (l : Loc Side)
  | rename (a p : Loc Side) (n : Name)
  | touch (wd : ℤ) (mask : BitVec 32) (name : List Char)
  /-- `lstat`, `opendir` or the call of `fn`, whichever comes next. -/
  | visit (newDir : Option Addr)
  | readdir (n : Name)
  | closedir
  | handle (newDir : Option Addr)

namespace State

variable (s : State)

/-- The state after a function of the program, and where the program goes on. -/
def after (next : Proc) (o : Outcome Mem) : State :=
  match o with
  | .ok m => ⟨m.1, m.2, next⟩
  | .exit status message => { s with proc := .exited status message }
  | .fault => { s with proc := .crashed }
  | .timeout => { s with proc := .crashed }

/-- `malloc` returns memory that is not in use. -/
def Fresh (newDir : Option Addr) : Prop := ∀ a ∈ newDir, s.list.heap.lookup a = none

instance (newDir : Option Addr) : Decidable (s.Fresh newDir) :=
  inferInstanceAs (Decidable (∀ a ∈ newDir, s.list.heap.lookup a = none))

/-- `nftw` gives up. -/
def nftwFail : State := { s with proc := .exited 1 "nftw() fail" }

end State

/-- The next call that `nftw` makes, other than `readdir`. -/
def visit (root : Path) (newDir : Option Addr) (s : State) : Option State :=
  match s.proc with
  | .starting =>
      match s.kernel.resolve root root with
      | .error _ => some s.nftwFail
      | .ok _ => some { s with proc := .running [.opening []] }
  | .running (.entering names :: walk) =>
      match s.kernel.resolve root (pathOf root names) with
      | .error .ENAMETOOLONG => some s.nftwFail
      | .error _ =>
          some (s.after (.running walk)
            (fn root newDir (pathOf root names) false .FTW_NS (s.kernel, s.list)))
      | .ok _ => some { s with proc := .running (.opening names :: walk) }
  | .running (.opening names :: walk) =>
      match s.kernel.resolve root (pathOf root names) with
      | .error _ => some s.nftwFail
      | .ok d =>
          if d.readable then
            let st : Stream := ⟨names, d.ino, s.kernel.tree.children d.loc⟩
            some { s with proc := .running (.calling st :: walk) }
          else
            some (s.after (.running walk)
              (fn root newDir (pathOf root names) true .FTW_DNR (s.kernel, s.list)))
  | .running (.calling st :: walk) =>
      some (s.after (.running (.reading st [] :: walk))
        (fn root newDir (pathOf root st.names) true .FTW_D (s.kernel, s.list)))
  | _ => none

/-- **One system call.** -/
def step (root : Path) (s : State) : Action → Option State
  | .mkdir p n readable => (s.kernel.mkdir p n readable).map fun k => { s with kernel := k }
  | .rmdir l => (s.kernel.rmdir l).map fun k => { s with kernel := k }
  | .rename a p n => (s.kernel.rename a p n).map fun k => { s with kernel := k }
  | .touch wd mask name => (s.kernel.touch wd mask name).map fun k => { s with kernel := k }
  | .visit newDir => if s.Fresh newDir then visit root newDir s else none
  | .readdir n =>
      match s.proc with
      | .running (.reading st seen :: walk) =>
          if n ∈ seen then none
          else
            let walk := .entering (st.names ++ [n]) :: .reading st (n :: seen) :: walk
            some { s with proc := .running walk }
      | _ => none
  | .closedir =>
      match s.proc with
      | .running (.reading st seen :: walk) =>
          if st.AtEnd s.kernel.tree seen then some { s with proc := .running walk } else none
      | _ => none
  | .handle newDir =>
      match s.proc, s.kernel.queue with
      | .running [], ev :: queue =>
          if s.Fresh newDir then
            some (s.after (.running [])
              (displayLogEvent root newDir ev ({ s.kernel with queue := queue }, s.list)))
          else none
      | _, _ => none

/-! ### What the list should be -/

/-- The walk is over and every event has been handled. -/
def Quiet (s : State) : Prop := s.proc = .running [] ∧ s.kernel.queue = []

instance (s : State) : Decidable (Quiet s) :=
  inferInstanceAs (Decidable (s.proc = .running [] ∧ s.kernel.queue = []))

/-- **Exactly the readable directories of the tree are watched**: each entry of the list is one of
them under its current path, and each of them has an entry. -/
def AllWatched (root : Path) (s : State) : Prop :=
  ∃ entries, WatchList.printList s.list = .ok entries ∧
    (∀ x ∈ entries, ∃ d ∈ s.kernel.tree.dirs, d.loc.top = .tree ∧ d.readable = true ∧
      (x.1, d.ino) ∈ s.kernel.watches ∧ x.2 = pathOf root d.loc.names) ∧
    ∀ d ∈ s.kernel.tree.dirs, d.loc.top = .tree → d.readable = true →
      ∃ wd, (wd, d.ino) ∈ s.kernel.watches ∧ (wd, pathOf root d.loc.names) ∈ entries

end Monitor
