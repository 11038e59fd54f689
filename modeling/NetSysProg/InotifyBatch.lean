/-
**A batch of events (`HW12/19_1.c`).**

One `read` returns several events, packed one behind the other: each is a `struct inotify_event` of
sixteen bytes, in which the length of the name stands, and the name behind it.  The inner loop of
`main` hands one event after the other to `displayLogEvent` and steps over as many bytes as the
event says.

Main definitions:

* `Inotify.InotifyEvent`, `Inotify.packed` — an event with its name, and how events are packed;
* `Inotify.eventAt`, `Inotify.eventLoop` — the inner loop; nothing behind the batch may be read;
* `Inotify.displayBatch` — the loop with `displayLogEvent` in it.

Main results:

* `Inotify.ofLE_toLE` — a number is read back from its bytes;
* `Inotify.eventAt_packed` — **the event at the start of a batch**;
* `Inotify.eventLoop_packed` — **the loop goes through the events of a batch**, whatever is done
  with them;
* `Inotify.keepsList_displayBatch` — a batch leaves the list of watches well linked.
-/

import NetSysProg.CString
import NetSysProg.MonitorRemoval
import Mathlib.Algebra.Group.Nat.Defs

set_option relaxedAutoImplicit false
set_option autoImplicit false

namespace Inotify

open CString

/-! ### Numbers -/

/-- The lowest `k` bytes of `n`, the lowest first. -/
def toLE : ℕ → ℕ → List Byte
  | 0, _ => []
  | k + 1, n => UInt8.ofNat n :: toLE k (n / 256)

/-- The number that bytes stand for. -/
def ofLE : List Byte → ℕ
  | [] => 0
  | b :: bs => b.toNat + 256 * ofLE bs

@[simp] theorem length_toLE (k n : ℕ) : (toLE k n).length = k := by
  induction k generalizing n with
  | zero => rfl
  | succ k ih => rw [toLE, List.length_cons, ih]

/-- **A number is read back.** -/
theorem ofLE_toLE {k n : ℕ} (h : n < 256 ^ k) : ofLE (toLE k n) = n := by
  induction k generalizing n with
  | zero =>
      rw [Nat.pow_zero] at h
      rw [toLE, ofLE]
      omega
  | succ k ih =>
      rw [Nat.pow_succ] at h
      rw [toLE, ofLE, ih (Nat.div_lt_of_lt_mul (by omega)), UInt8.toNat_ofNat']
      omega

/-! ### Events -/

/-- `struct inotify_event`, and the `len` bytes of the name. -/
structure InotifyEvent where
  wd : BitVec 32
  mask : BitVec 32
  cookie : BitVec 32
  name : List Byte
  length_name : name.length < 2 ^ 32
  deriving DecidableEq

/-- The field `len`. -/
def InotifyEvent.len (e : InotifyEvent) : BitVec 32 := BitVec.ofNat 32 e.name.length

theorem InotifyEvent.toNat_len (e : InotifyEvent) : e.len.toNat = e.name.length := by
  rw [len, BitVec.toNat_ofNat, Nat.mod_eq_of_lt e.length_name]

/-- `sizeof(struct inotify_event)` -/
def headerSize : ℕ := 16

/-- The four bytes of a field. -/
def field (x : BitVec 32) : List Byte := toLE 4 x.toNat

/-- The bytes of an event. -/
def InotifyEvent.bytes (e : InotifyEvent) : List Byte :=
  field e.wd ++ (field e.mask ++ (field e.cookie ++ (field e.len ++ e.name)))

theorem InotifyEvent.length_bytes (e : InotifyEvent) :
    e.bytes.length = headerSize + e.name.length := by
  simp only [bytes, field, List.length_append, length_toLE, headerSize]
  omega

/-- What `read` returns. -/
def packed (evs : List InotifyEvent) : List Byte := evs.flatMap InotifyEvent.bytes

/-! ### The loop -/

/-- `n` bytes of the batch; those behind it must not be looked at. -/
def readAt (batch : List Byte) (p n : ℕ) : Outcome (List Byte) :=
  if p + n ≤ batch.length then .ok ((batch.drop p).take n) else .fault

/-- A field of the event at `p`. -/
def fieldAt (batch : List Byte) (p : ℕ) : Outcome (BitVec 32) := do
  let bs ← readAt batch p 4
  return BitVec.ofNat 32 (ofLE bs)

/-- `event = (struct inotify_event *)p`: what is found there, the name included. -/
def eventAt (batch : List Byte) (p : ℕ) : Outcome InotifyEvent := do
  let wd ← fieldAt batch p
  let mask ← fieldAt batch (p + 4)
  let cookie ← fieldAt batch (p + 8)
  let len ← fieldAt batch (p + 12)
  if p + headerSize + len.toNat ≤ batch.length then
    return ⟨wd, mask, cookie, (batch.drop (p + headerSize)).take len.toNat,
      Nat.lt_of_le_of_lt (List.length_take_le _ _) len.isLt⟩
  else .fault

variable {σ : Type}

/-- The inner loop of `main`, from `p` on: `displayLogEvent` is any function on what the program
works on. The result has the last value of `p`. -/
def eventLoop (displayLogEvent : InotifyEvent → σ → Outcome σ) (batch : List Byte) (p : ℕ) (s : σ) :
    Outcome (ℕ × σ) :=
  if _h : p < batch.length then do
    let event ← eventAt batch p
    let s ← displayLogEvent event s
    eventLoop displayLogEvent batch (p + (headerSize + event.len.toNat)) s
  else return (p, s)
  termination_by batch.length - p
  decreasing_by
    rw [headerSize]
    omega

/-! ### The batch -/

theorem readAt_append (front bs back : List Byte) {p n : ℕ} (hp : front.length = p)
    (hn : bs.length = n) :
    readAt (front ++ (bs ++ back)) p n = .ok bs := by
  have hle : p + n ≤ (front ++ (bs ++ back)).length := by
    rw [List.length_append, List.length_append]
    omega
  rw [readAt, if_pos hle, List.drop_left' hp, List.take_left' hn]

theorem fieldAt_append (front : List Byte) (x : BitVec 32) (back : List Byte) {p : ℕ}
    (hp : front.length = p) : fieldAt (front ++ (field x ++ back)) p = .ok x := by
  have hx : x.toNat < 256 ^ 4 := x.isLt
  rw [fieldAt, readAt_append front (field x) back hp (length_toLE 4 _), Outcome.bind_ok, field,
    ofLE_toLE hx, BitVec.ofNat_toNat, BitVec.setWidth_eq]
  rfl

/-- **The event at the start of what is left of a batch.** -/
theorem eventAt_packed (front : List Byte) (e : InotifyEvent) (back : List Byte) :
    eventAt (front ++ (e.bytes ++ back)) front.length = .ok e := by
  have hfield (x : BitVec 32) : (field x).length = 4 := length_toLE 4 _
  have hwd := fieldAt_append front e.wd
    (field e.mask ++ (field e.cookie ++ (field e.len ++ (e.name ++ back)))) rfl
  have hmask := fieldAt_append (front ++ field e.wd) e.mask
    (field e.cookie ++ (field e.len ++ (e.name ++ back))) (p := front.length + 4)
    (by rw [List.length_append, hfield])
  have hcookie := fieldAt_append (front ++ (field e.wd ++ field e.mask)) e.cookie
    (field e.len ++ (e.name ++ back)) (p := front.length + 8)
    (by simp only [List.length_append, hfield])
  have hlen := fieldAt_append (front ++ (field e.wd ++ (field e.mask ++ field e.cookie))) e.len
    (e.name ++ back) (p := front.length + 12) (by simp only [List.length_append, hfield])
  have hname : front.length + headerSize + e.len.toNat ≤ (front ++ (e.bytes ++ back)).length := by
    rw [List.length_append, List.length_append, e.length_bytes, e.toNat_len]
    omega
  have hdrop : (front ++ (e.bytes ++ back)).drop (front.length + headerSize) = e.name ++ back := by
    have hsplit : front ++ (e.bytes ++ back) =
        (front ++ (field e.wd ++ (field e.mask ++ (field e.cookie ++ field e.len)))) ++
          (e.name ++ back) := by
      simp only [InotifyEvent.bytes, List.append_assoc]
    rw [hsplit]
    exact List.drop_left' (by simp only [List.length_append, hfield, headerSize])
  simp only [InotifyEvent.bytes, List.append_assoc] at hwd hmask hcookie hlen hname hdrop ⊢
  rw [eventAt, hwd, Outcome.bind_ok, hmask, Outcome.bind_ok, hcookie, Outcome.bind_ok, hlen,
    Outcome.bind_ok, if_pos hname]
  simp only [hdrop, e.toNat_len, List.take_left]
  rfl

/-- The loop, when some of the events have been handled. -/
theorem eventLoop_append (displayLogEvent : InotifyEvent → σ → Outcome σ) (front : List Byte)
    (evs : List InotifyEvent) (s : σ) :
    eventLoop displayLogEvent (front ++ packed evs) front.length s = (do
      let s ← evs.foldlM (fun s e => displayLogEvent e s) s
      return ((front ++ packed evs).length, s)) := by
  induction evs generalizing front s with
  | nil =>
      rw [eventLoop, packed, List.flatMap_nil, List.append_nil, dif_neg (Nat.lt_irrefl _)]
      rfl
  | cons e evs ih =>
      have hlt : front.length < (front ++ (e.bytes ++ packed evs)).length := by
        rw [List.length_append, List.length_append, e.length_bytes, headerSize]
        omega
      have hpacked : packed (e :: evs) = e.bytes ++ packed evs := List.flatMap_cons
      rw [hpacked, eventLoop, dif_pos hlt, eventAt_packed, Outcome.bind_ok, List.foldlM_cons]
      cases hdisplay : displayLogEvent e s with
      | ok s' =>
          have hrest := ih (front ++ e.bytes) s'
          rw [List.append_assoc, List.length_append, e.length_bytes] at hrest
          rw [Outcome.bind_ok, e.toNat_len, hrest]
          rfl
      | exit status message => rfl
      | fault => rfl
      | timeout => rfl

/-- **The loop goes through the events of a batch**: it hands exactly these events to
`displayLogEvent`, one after the other as long as that returns, and ends at the end of the batch. -/
theorem eventLoop_packed (displayLogEvent : InotifyEvent → σ → Outcome σ) (evs : List InotifyEvent)
    (s : σ) :
    eventLoop displayLogEvent (packed evs) 0 s = (do
      let s ← evs.foldlM (fun s e => displayLogEvent e s) s
      return ((packed evs).length, s)) :=
  eventLoop_append displayLogEvent [] evs s

/-! ### The monitor -/

/-- The event as `displayLogEvent` takes it; the name is a string. -/
def InotifyEvent.toEvent (e : InotifyEvent) : Monitor.Event :=
  ⟨e.wd.toInt, e.mask, (e.name.takeWhile (· ≠ nul)).map fun b => Char.ofNat b.toNat⟩

/-- The inner loop with `displayLogEvent` in it; `malloc` looks at what is in use. -/
def displayBatch (root : WatchList.Path) (malloc : WatchList.State → Option WatchList.Addr)
    (batch : List Byte) (m : Monitor.Mem) : Outcome (ℕ × Monitor.Mem) :=
  eventLoop (fun e m => Monitor.displayLogEvent root (malloc m.2) e.toEvent m) batch 0 m

/-- **A batch leaves the list of watches well linked**, or ends the program. -/
theorem keepsList_displayBatch {root : WatchList.Path}
    {malloc : WatchList.State → Option WatchList.Addr} (hmalloc : ∀ l, Monitor.Unused (malloc l) l)
    {evs : List InotifyEvent} (hevs : ∀ e ∈ evs, e.toEvent.Separate) {m : Monitor.Mem}
    {cells : List (WatchList.Addr × WatchList.SubdirItem)} (h : WatchList.Repr m.2 cells) :
    (∃ m' cells', displayBatch root malloc (packed evs) m = .ok ((packed evs).length, m') ∧
      WatchList.Repr m'.2 cells') ∨
    ∃ status message, displayBatch root malloc (packed evs) m = .exit status message := by
  have hloop := eventLoop_append
    (fun e m => Monitor.displayLogEvent root (malloc m.2) e.toEvent m) [] evs m
  have hkeeps : Monitor.KeepsList (evs.foldlM
      (fun m e => Monitor.displayLogEvent root (malloc m.2) e.toEvent m) m) := by
    clear hloop
    induction evs generalizing m cells with
    | nil => exact Or.inl ⟨m, cells, rfl, h⟩
    | cons e evs ih =>
        rw [List.foldlM_cons]
        obtain ⟨k, l⟩ := m
        rcases Monitor.keepsList_displayLogEvent h (hmalloc l)
          (hevs e List.mem_cons_self) root k with
          ⟨m', cells', hrun, hrepr⟩ | ⟨status, message, hrun⟩
        · rw [hrun, Outcome.bind_ok]
          exact ih (fun e' he' => hevs e' (List.mem_cons_of_mem e he')) hrepr
        · rw [hrun]
          exact Or.inr ⟨status, message, rfl⟩
  rw [List.nil_append] at hloop
  rw [displayBatch]
  rcases hkeeps with ⟨m', cells', hrun, hrepr⟩ | ⟨status, message, hrun⟩
  · rw [hrun] at hloop
    exact Or.inl ⟨m', cells', hloop, hrepr⟩
  · rw [hrun] at hloop
    exact Or.inr ⟨status, message, hloop⟩

end Inotify
