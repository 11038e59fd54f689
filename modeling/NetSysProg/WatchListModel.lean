/-
**The list of watched directories (`HW12/19_1.c`).**

The monitor keeps the directories it watches in a singly linked list: `list_root` points to the
first item and `list_tail` to the last.  `watchSubdir` appends an item and `rmWatchSubdir` unlinks
the first one with a given watch descriptor; the latter distinguishes the only item, the first item,
the last item and an item in the middle, and has to leave both pointers right in each case.

Items live on a heap.  `malloc` may return any address that is not in use, also one that has been
freed before, so its choice is an argument; a pointer that is null or dangling must not be followed.

Main definitions:

* `WatchList.SubdirItem`, `WatchList.State` — an item, and the heap with the two pointers;
* `WatchList.append` — the part of `watchSubdir` after `inotify_add_watch`;
* `WatchList.rmWatchSubdir`, `WatchList.parentPath` — removal and search;
* `WatchList.printList` — what `print_list` prints.
-/

import NetSysProg.LinkedChain
import NetSysProg.Outcome

set_option relaxedAutoImplicit false
set_option autoImplicit false

namespace WatchList

/-- The characters of a path. -/
abbrev Path := List Char

/-- An address on the heap; the null pointer is `none`. -/
abbrev Addr := ℕ

/-- `struct subdir_item`. -/
structure SubdirItem where
  wd : ℤ
  pathname : Path
  next : Option Addr
  deriving DecidableEq

/-- The items that are allocated, and the two pointers to the list. -/
structure State where
  heap : LinkedChain.Heap SubdirItem
  listRoot : Option Addr
  listTail : Option Addr

/-- Both pointers are null. -/
def empty : State := ⟨∅, none, none⟩

/-- `watchSubdir` once `inotify_add_watch` has returned `wd` and `malloc` has returned `newDir`. -/
def append (newDir : Addr) (wd : ℤ) (path : Path) (s : State) : Outcome State :=
  let heap := s.heap.insert newDir ⟨wd, path, none⟩
  match s.listRoot with
  | none => .ok ⟨heap, some newDir, some newDir⟩
  | some root => do
      let tailPtr ← Outcome.deref s.listTail
      let tail ← Outcome.deref (heap.lookup tailPtr)
      return ⟨heap.insert tailPtr { tail with next := some newDir }, some root, some newDir⟩

/-- The loop of `rmWatchSubdir`, which looks one item ahead of `cur_ptr`. -/
def rmLoop (wd : ℤ) (s : State) : ℕ → Option Addr → Outcome State
  | 0, _ => .timeout
  | _ + 1, none => .ok s
  | fuel + 1, some curPtr => do
      let cur ← Outcome.deref (s.heap.lookup curPtr)
      let nextPtr ← Outcome.deref cur.next
      let next ← Outcome.deref (s.heap.lookup nextPtr)
      if next.wd ≠ wd then rmLoop wd s fuel cur.next
      else if some nextPtr = s.listTail then
        -- the last item is unlinked but not freed
        return { s with
          heap := s.heap.insert curPtr { cur with next := none }
          listTail := some curPtr }
      else
        return { s with
          heap := (s.heap.erase nextPtr).insert curPtr { cur with next := next.next } }

/-- `rmWatchSubdir`.  The list has no more items than there are on the heap, which bounds the
search. -/
def rmWatchSubdir (wd : ℤ) (s : State) : Outcome State := do
  let curPtr ← Outcome.deref s.listRoot
  let cur ← Outcome.deref (s.heap.lookup curPtr)
  if cur.wd = wd then
    if s.listRoot = s.listTail then return ⟨s.heap.erase curPtr, none, none⟩
    else return { s with heap := s.heap.erase curPtr, listRoot := cur.next }
  else rmLoop wd s s.heap.keys.length (some curPtr)

/-- The loop of `parentPath`. -/
def parentLoop (wd : ℤ) (s : State) : ℕ → Option Addr → Outcome (Option Path)
  | 0, _ => .timeout
  | _ + 1, none => .ok none
  | fuel + 1, some curPtr => do
      let cur ← Outcome.deref (s.heap.lookup curPtr)
      if cur.wd = wd then return some cur.pathname else parentLoop wd s fuel cur.next

/-- `parentPath`: the path of the first item with the watch descriptor. -/
def parentPath (wd : ℤ) (s : State) : Outcome (Option Path) :=
  parentLoop wd s (s.heap.keys.length + 1) s.listRoot

/-- The loop of `print_list`. -/
def printLoop (s : State) : ℕ → Option Addr → Outcome (List (ℤ × Path))
  | 0, _ => .timeout
  | _ + 1, none => .ok []
  | fuel + 1, some curPtr => do
      let cur ← Outcome.deref (s.heap.lookup curPtr)
      let rest ← printLoop s fuel cur.next
      return (cur.wd, cur.pathname) :: rest

/-- `print_list`: the descriptor and the path of each item. -/
def printList (s : State) : Outcome (List (ℤ × Path)) :=
  printLoop s (s.heap.keys.length + 1) s.listRoot

end WatchList
