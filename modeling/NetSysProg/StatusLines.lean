/-
**What `12_1` takes for the lines of a status file (`HW4/12_1.c`).**

A status file is a sequence of lines `Key:⇥value`.  `fgets` returns a line in pieces, when it is too
long for the array: 14 bytes of the first line and 19 of every other one, and then 19 at a time.
The program looks at each piece as if it were a line.  So a piece of a value, such as the name that
a process has given itself, can be taken for the number of the process, and what does not fit into
the first piece of a line is not part of what the program takes from it.

Main definitions:

* `Status.Line`, `Status.StatusText` — lines, and a status file;
* `Status.Line.item?`, `Status.StatusText.items` — what the lines say;
* `Status.taken` — what the program takes from a file;
* `Status.StatusText.ReadAsLines` — no piece is taken for what it is not, and the numbers are
  complete;
* `Status.Reading` — two ways of looking at the name: as it is, and up to the end of the line.

Main results:

* `Status.fgets_piece` — **one call of `fgets` inside a line**;
* `Status.further_eq_iff`, `Status.taken_eq_iff` — the pieces of all lines;
* `Status.scanStatus_taken` — **the loop acts on these items**, up to the first user id that does
  not match; `Status.report_items` — what is printed about a process whose file is read line by
  line;
* `Status.readsLines_iff` — the exact conditions.
-/

import NetSysProg.StatusUid
import Mathlib.Data.List.Infix

set_option relaxedAutoImplicit false
set_option autoImplicit false

namespace Status

open CString Stdio Numerals

/-! ### Status files -/

/-- `':'` -/
def colon : Byte := 58

/-- A line of a status file. -/
structure Line where
  key : List Byte
  value : List Byte
  key_ok : newline ∉ key ∧ nul ∉ key ∧ colon ∉ key
  value_ok : newline ∉ value ∧ nul ∉ value

/-- The bytes of a line, with the newline at its end. -/
def Line.text (l : Line) : List Byte := l.key ++ colon :: tab :: (l.value ++ [newline])

/-- The line without the newline. -/
def Line.body (l : Line) : List Byte := l.key ++ colon :: tab :: l.value

theorem Line.text_eq_body (l : Line) : l.text = l.body ++ [newline] := by
  rw [Line.text, body, List.append_assoc, List.cons_append, List.cons_append]

theorem Line.newline_notMem_body (l : Line) : newline ∉ l.body := by
  have hcolon : newline ≠ colon := by decide
  have htab : newline ≠ tab := by decide
  simp [body, l.key_ok.1, l.value_ok.1, hcolon, htab]

theorem Line.nul_notMem_body (l : Line) : nul ∉ l.body := by
  have hcolon : nul ≠ colon := by decide
  have htab : nul ≠ tab := by decide
  simp [body, l.key_ok.2.1, l.value_ok.2, hcolon, htab]

/-- A status file: the name of the process in the first line, and the other lines. -/
structure StatusText where
  name : List Byte
  name_length : 1 ≤ name.length ∧ name.length ≤ 15
  name_ok : newline ∉ name ∧ nul ∉ name
  lines : List Line

/-- The first line of the file. -/
def StatusText.nameLine (t : StatusText) : Line := ⟨nameKey, t.name, by decide, t.name_ok⟩

def StatusText.text (t : StatusText) : List Byte := t.nameLine.text ++ t.lines.flatMap Line.text

/-- What a line says: a name, a number, or the bytes of a user id that are compared. -/
def Line.item? (l : Line) : Option Item :=
  if l.key = nameKey then some (.name l.value)
  else if l.key = pidKey then some (.pid (atoi l.value))
  else if l.key = uidKey then some (.uid ((l.value ++ [newline]).take 4))
  else none

/-- What the lines of the file say. -/
def StatusText.items (t : StatusText) : List Item := (t.nameLine :: t.lines).filterMap Line.item?

/-- What the program takes from a file, as long as it does not leave the loop. -/
def taken (content : List Byte) : List Item := (lineBuffers content).filterMap observe

/-! ### The conditions -/

/-- The bytes begin with one of the three keys. -/
def Keyword (s : List Byte) : Prop := nameKey <+: s ∨ pidKey <+: s ∨ uidKey <+: s

instance (s : List Byte) : Decidable (Keyword s) :=
  inferInstanceAs (Decidable (_ ∨ _ ∨ _))

/-- The line, of which `fgets` returns `c` bytes at first, is taken for what it is: no later piece
begins with one of the keys, nor does another key, and a number is the same in the first piece. -/
structure Line.ReadAsOne (c : ℕ) (l : Line) : Prop where
  later : ∀ k, ¬ Keyword (l.text.drop (c + 19 * k))
  other : l.item? = none → ¬ Keyword l.key
  number : l.key = pidKey → atoi (l.value.take (c - 5)) = atoi l.value

/-- Every line of the file is taken for what it is. -/
def StatusText.ReadAsLines (t : StatusText) : Prop :=
  t.nameLine.ReadAsOne 14 ∧ ∀ l ∈ t.lines, l.ReadAsOne 19

/-- An item with the name cut off at the end of the line. -/
def Item.upToNewline : Item → Item
  | .name s => .name (s.takeWhile (· ≠ newline))
  | .pid n => .pid n
  | .uid copied => .uid copied

/-- A way of looking at the names that the program takes; `fits m n` says that a name of `m` bytes
is seen as it is when there is room for `n` bytes behind the key. -/
structure Reading where
  view : Item → Item
  fits : ℕ → ℕ → Prop
  view_name : ∀ (v : List Byte) (n : ℕ), newline ∉ v →
    (view (.name ((v ++ [newline]).take n)) = .name v ↔ fits v.length n)
  view_pid : ∀ n, view (.pid n) = .pid n
  view_uid : ∀ copied, view (.uid copied) = .uid copied

/-- The name as it is: it ends with the newline, or there was no room for it. -/
def Reading.asIs : Reading where
  view := id
  fits m n := m = n
  view_name v n hv := by
    rw [id_eq, Item.name.injEq]
    constructor
    · intro h
      have hlen := congrArg List.length h
      simp only [List.length_take, List.length_append, List.length_singleton] at hlen
      by_contra hne
      have hall : (v ++ [newline]).take n = v ++ [newline] :=
        List.take_of_length_le (by rw [List.length_append, List.length_singleton]; omega)
      rw [hall] at h
      exact hv (h ▸ List.mem_append_right v (List.mem_singleton_self _))
    · rintro rfl
      exact List.take_left
  view_pid _ := rfl
  view_uid _ := rfl

/-- The name up to the end of the line. -/
def Reading.upToNewline : Reading where
  view := Item.upToNewline
  fits m n := m ≤ n
  view_name v n hv := by
    have hcut : ((v ++ [newline]).take n).takeWhile (· ≠ newline) = v.take n :=
      takeWhile_take_append_cons hv [] n
    rw [Item.upToNewline, Item.name.injEq, hcut, List.take_eq_self_iff]
  view_pid _ := rfl
  view_uid _ := rfl

/-! ### Pieces -/

/-- What is left of a line. -/
def RestOfLine (r : List Byte) : Prop := ∃ body, r = body ++ [newline] ∧ newline ∉ body

theorem RestOfLine.pos {r : List Byte} (h : RestOfLine r) : 0 < r.length := by
  obtain ⟨body, rfl, -⟩ := h
  simp

theorem RestOfLine.drop {r : List Byte} (h : RestOfLine r) (n : ℕ) :
    r.drop n = [] ∨ RestOfLine (r.drop n) := by
  obtain ⟨body, rfl, hbody⟩ := h
  rcases Nat.lt_or_ge body.length n with hn | hn
  · exact Or.inl (List.drop_eq_nil_of_le (by rw [List.length_append]; exact hn))
  · rw [List.drop_append_of_le_length hn]
    exact Or.inr ⟨body.drop n, rfl, fun hmem => hbody (List.mem_of_mem_drop hmem)⟩

theorem Line.restOfLine (l : Line) : RestOfLine l.text :=
  ⟨l.body, l.text_eq_body, l.newline_notMem_body⟩

/-- **One call of `fgets`** inside a line returns as much of it as there is room for. -/
theorem fgets_piece {size : ℕ} (hsize : 2 ≤ size) {s : Stream} {r t : List Byte} (hr : RestOfLine r)
    (h : s.rest = r ++ t) (buf : List Byte) :
    (fgets size buf s).nonNull = true ∧
    (∃ u, (fgets size buf s).buf = r.take (size - 1) ++ nul :: u) ∧
    (fgets size buf s).stream.rest = r.drop (size - 1) ++ t := by
  have hpos := hr.pos
  have hgot : lineUpTo (size - 1) s.rest = r.take (size - 1) := by
    obtain ⟨body, rfl, hbody⟩ := hr
    rw [h, List.append_assoc]
    rcases Nat.lt_or_ge body.length (size - 1) with hn | hn
    · rw [List.singleton_append, lineUpTo_line hbody hn,
        List.take_of_length_le (by rw [List.length_append]; exact hn)]
    · rw [lineUpTo_long hbody hn, List.take_append_of_le_length hn]
  have hne : r.take (size - 1) ≠ [] := by
    rw [← List.length_pos_iff, List.length_take]
    omega
  have hrest : s.content.drop (s.pos + (r.take (size - 1)).length) = r.drop (size - 1) ++ t := by
    have hsplit : s.rest = r.take (size - 1) ++ (r.drop (size - 1) ++ t) := by
      rw [h, ← List.append_assoc, List.take_append_drop]
    rw [← List.drop_drop, ← Stream.rest, hsplit, List.drop_left]
  unfold fgets
  dsimp only
  rw [hgot, if_neg hne]
  exact ⟨rfl, ⟨_, rfl⟩, hrest⟩

theorem observe_eq_none_iff (line : List Byte) : observe line = none ↔ ¬ Keyword line := by
  unfold observe Keyword
  split
  · next h => simp [h]
  · split
    · next h => simp [h]
    · split
      · next h => simp [h]
      · next hn hp hu => simp [hn, hp, hu]

/-- Whether a piece is taken for something does not depend on what is behind it in the array. -/
theorem observe_piece_eq_none_iff (r u : List Byte) {n : ℕ} (hn : 4 ≤ n) :
    observe (r.take n ++ nul :: u) = none ↔ ¬ Keyword r := by
  have hkey : ∀ key : List Byte, nul ∉ key → key.length ≤ 4 →
      (key <+: r.take n ++ nul :: u ↔ key <+: r) := by
    intro key hnul hlen
    rw [prefix_append_cons_iff hnul, List.prefix_take_iff, and_iff_left (hlen.trans hn)]
  rw [observe_eq_none_iff, Keyword, Keyword, hkey nameKey (by decide) (by decide),
    hkey pidKey (by decide) (by decide), hkey uidKey (by decide) (by decide)]

/-- What the program takes from the further pieces of a file. -/
def further (fuel : ℕ) (line : List Byte) (s : Stream) : List Item :=
  (furtherLines fuel line s).filterMap observe

theorem filterMap_cons_toList {α β : Type} (g : α → Option β) (a : α) (as : List α) :
    (a :: as).filterMap g = (g a).toList ++ as.filterMap g := by
  cases h : g a with
  | none => rw [List.filterMap_cons_none h]; rfl
  | some b => rw [List.filterMap_cons_some h]; rfl

/-- One more piece. -/
theorem further_succ {fuel : ℕ} {line : List Byte} {s : Stream} {r t : List Byte}
    (hr : RestOfLine r) (h : s.rest = r ++ t) :
    further (fuel + 1) line s = (observe (fgets 20 line s).buf).toList ++
      further fuel (fgets 20 line s).buf (fgets 20 line s).stream := by
  have hnull := (fgets_piece (by omega : 2 ≤ 20) hr h line).1
  rw [further, furtherLines, if_pos hnull, filterMap_cons_toList]
  rfl

/-- **The rest of a line**: its pieces are taken for something exactly if one of them begins with a
key. -/
theorem further_restOfLine {fuel : ℕ} (line : List Byte) {s : Stream} {r t : List Byte}
    (hr : r = [] ∨ RestOfLine r) (h : s.rest = r ++ t) (hfuel : (r ++ t).length ≤ fuel) :
    ∃ is fuel' line' s', further fuel line s = is ++ further fuel' line' s' ∧ s'.rest = t ∧
      t.length ≤ fuel' ∧ (is = [] ↔ ∀ k, ¬ Keyword (r.drop (19 * k))) := by
  induction fuel generalizing line s r with
  | zero =>
      have hnil : r ++ t = [] := List.eq_nil_of_length_eq_zero (Nat.le_zero.1 hfuel)
      obtain ⟨rfl, rfl⟩ := List.append_eq_nil_iff.1 hnil
      exact ⟨[], 0, line, s, rfl, h, le_rfl, iff_of_true rfl (by simp; decide)⟩
  | succ fuel ih =>
      rcases hr with rfl | hr
      · rw [List.nil_append] at h hfuel
        exact ⟨[], fuel + 1, line, s, rfl, h, hfuel, iff_of_true rfl (by simp; decide)⟩
      · have hpos := hr.pos
        obtain ⟨-, ⟨u, hbuf⟩, hrest⟩ := fgets_piece (by omega : 2 ≤ 20) hr h line
        have hlen : (r.drop 19 ++ t).length ≤ fuel := by
          rw [List.length_append] at hfuel ⊢
          rw [List.length_drop]
          omega
        obtain ⟨is, fuel', line', s', hfurther, hs', hfuel', his⟩ :=
          ih (fgets 20 line s).buf (hr.drop 19) hrest hlen
        refine ⟨(observe (fgets 20 line s).buf).toList ++ is, fuel', line', s', ?_, hs', hfuel', ?_⟩
        · rw [further_succ hr h, hfurther, List.append_assoc]
        · rw [List.append_eq_nil_iff, Option.toList_eq_nil_iff, hbuf,
            observe_piece_eq_none_iff r u (by omega : 4 ≤ 20 - 1), his]
          -- the first piece, and those of the rest
          constructor
          · rintro ⟨h0, hrec⟩ k
            cases k with
            | zero => exact h0
            | succ k =>
                have hk := hrec k
                rwa [List.drop_drop, show 19 + 19 * k = 19 * (k + 1) by omega] at hk
          · intro hall
            refine ⟨hall 0, fun k => ?_⟩
            have hk := hall (k + 1)
            rwa [List.drop_drop, show 19 + 19 * k = 19 * (k + 1) by omega]

/-! ### The first piece of a line -/

/-- A key with what stands between it and the value. -/
theorem drop_piece (key value u : List Byte) {c : ℕ} (hc : key.length + 2 ≤ c) :
    ((key ++ colon :: tab :: (value ++ [newline])).take c ++ nul :: u).drop (key.length + 2) =
      (value ++ [newline]).take (c - (key.length + 2)) ++ nul :: u := by
  obtain ⟨d, rfl⟩ := Nat.exists_eq_add_of_le hc
  have hhead : key ++ colon :: tab :: (value ++ [newline]) =
      (key ++ [colon, tab]) ++ (value ++ [newline]) := by simp
  have hlen : (key ++ [colon, tab]).length = key.length + 2 := by simp
  rw [hhead, ← hlen, List.take_length_add_append, List.append_assoc, List.drop_left,
    Nat.add_sub_cancel_left]

/-- What the first piece of a line is taken for, when its key is one of the three. -/
def Line.first? (c : ℕ) (l : Line) : Option Item :=
  if l.key = nameKey then some (.name ((l.value ++ [newline]).take (c - 6)))
  else if l.key = pidKey then some (.pid (atoi ((l.value ++ [newline]).take (c - 5))))
  else if l.key = uidKey then some (.uid ((l.value ++ [newline]).take 4))
  else none

/-- The key of a line decides whether it begins with one of the three. -/
theorem Line.key_prefix_iff (l : Line) {key : List Byte} (hkey : colon ∉ key) (u : List Byte) :
    key <+: l.key ++ colon :: u ↔ key <+: l.key := prefix_append_cons_iff hkey _ _

theorem Line.keyword_text_iff (l : Line) : Keyword l.text ↔ Keyword l.key := by
  rw [Keyword, Line.text, l.key_prefix_iff (by decide), l.key_prefix_iff (by decide),
    l.key_prefix_iff (by decide), Keyword]

theorem Line.nul_notMem_take (l : Line) (n : ℕ) : nul ∉ (l.value ++ [newline]).take n := by
  intro hmem
  have hmem' := List.mem_of_mem_take hmem
  simp [l.value_ok.2, newline_ne_nul.symm] at hmem'

/-- The text of a value in the first piece. -/
theorem Line.strAt_first (l : Line) {c : ℕ} (hc : l.key.length + 2 ≤ c) (u : List Byte) :
    strAt (l.key.length + 2) (l.text.take c ++ nul :: u) =
      (l.value ++ [newline]).take (c - (l.key.length + 2)) := by
  rw [strAt, Line.text, drop_piece _ _ _ hc, takeWhile_append_cons (l.nul_notMem_take _)]

/-- **The first piece of a line with one of the keys** is taken for what the line is. -/
theorem Line.observe_first (l : Line) {c : ℕ} (hc : 9 ≤ c) (u : List Byte) (h : l.item? ≠ none) :
    observe (l.text.take c ++ nul :: u) = l.first? c := by
  have hpre : ∀ key : List Byte, nul ∉ key → colon ∉ key → key.length ≤ 4 →
      (key <+: l.text.take c ++ nul :: u ↔ key <+: l.key) := by
    intro key hnul hcolon hlen
    rw [prefix_append_cons_iff hnul, List.prefix_take_iff, and_iff_left (by omega), Line.text,
      l.key_prefix_iff hcolon]
  have hname := hpre nameKey (by decide) (by decide) (by decide)
  have hpid := hpre pidKey (by decide) (by decide) (by decide)
  have huid := hpre uidKey (by decide) (by decide) (by decide)
  rw [observe, Line.first?]
  simp only [hname, hpid, huid]
  by_cases hn : l.key = nameKey
  · have hstr := l.strAt_first (c := c) (by rw [hn, length_nameKey]; omega) u
    rw [hn, length_nameKey] at hstr
    rw [if_pos hn, if_pos (hn ▸ List.prefix_rfl), hstr]
  · by_cases hp : l.key = pidKey
    · have hstr := l.strAt_first (c := c) (by rw [hp, length_pidKey]; omega) u
      rw [hp, length_pidKey] at hstr
      rw [if_neg hn, if_pos hp, if_neg (by rw [hp]; decide), if_pos (hp ▸ List.prefix_rfl), hstr]
    · by_cases hu : l.key = uidKey
      · have hdrop : (l.text.take c ++ nul :: u).drop 5 =
            (l.value ++ [newline]).take (c - 5) ++ nul :: u := by
          have h5 := drop_piece l.key l.value u (c := c) (by rw [hu, length_uidKey]; omega)
          rwa [hu, length_uidKey, ← hu] at h5
        rw [if_neg hn, if_neg hp, if_pos hu, if_neg (by rw [hu]; decide),
          if_neg (by rw [hu]; decide), if_pos (hu ▸ List.prefix_rfl), hdrop,
          strUpTo_append (l.nul_notMem_take _), List.take_take, Nat.min_eq_left (by omega)]
      · simp [Line.item?, hn, hp, hu] at h

/-- **When the first piece says what the line says.** -/
theorem Line.view_first_iff (R : Reading) (l : Line) (c : ℕ) (h : l.item? ≠ none) :
    (l.first? c).map R.view = l.item? ↔
      (l.key = nameKey → R.fits l.value.length (c - 6)) ∧
      (l.key = pidKey → atoi (l.value.take (c - 5)) = atoi l.value) := by
  have hcut : atoi ((l.value ++ [newline]).take (c - 5)) = atoi (l.value.take (c - 5)) := by
    rcases Nat.lt_or_ge l.value.length (c - 5) with hlt | hle
    · rw [List.take_of_length_le (by rw [List.length_append]; exact hlt),
        List.take_of_length_le (Nat.le_of_lt hlt)]
      exact atoi_append (by decide) (by decide) _
    · rw [List.take_append_of_le_length hle]
  by_cases hn : l.key = nameKey
  · have hp : l.key ≠ pidKey := by rw [hn]; decide
    rw [Line.first?, Line.item?, if_pos hn, if_pos hn, Option.map_some, Option.some.injEq,
      R.view_name _ _ l.value_ok.1]
    exact ⟨fun hfit => ⟨fun _ => hfit, fun hpid => absurd hpid hp⟩, fun hboth => hboth.1 hn⟩
  · by_cases hp : l.key = pidKey
    · rw [Line.first?, Line.item?, if_neg hn, if_neg hn, if_pos hp, if_pos hp, Option.map_some,
        Option.some.injEq, R.view_pid, Item.pid.injEq, hcut]
      exact ⟨fun hnum => ⟨fun hname => absurd hname hn, fun _ => hnum⟩, fun hboth => hboth.2 hp⟩
    · by_cases hu : l.key = uidKey
      · rw [Line.first?, Line.item?, if_neg hn, if_neg hn, if_neg hp, if_neg hp, if_pos hu,
          Option.map_some, R.view_uid]
        exact iff_of_true rfl ⟨fun hname => absurd hname hn, fun hpid => absurd hpid hp⟩
      · exact absurd (by rw [Line.item?, if_neg hn, if_neg hp, if_neg hu]) h

/-! ### Lines -/

/-- The line is taken for what it is, its name included. -/
def Line.Read (R : Reading) (c : ℕ) (l : Line) : Prop :=
  l.ReadAsOne c ∧ (l.key = nameKey → R.fits l.value.length (c - 6))

/-- What the program takes from a line: from its first piece, and from the later ones. -/
structure Line.Taken (c : ℕ) (l : Line) (first : Option Item) (later : List Item) : Prop where
  later_iff : later = [] ↔ ∀ k, ¬ Keyword (l.text.drop (c + 19 * k))
  first_eq : l.item? ≠ none → first = l.first? c
  other_iff : l.item? = none → (first = none ↔ ¬ Keyword l.key)

/-- **The pieces of a line**, when `fgets` has room for `c` bytes at its start. -/
theorem Line.exists_taken (l : Line) {c fuel : ℕ} (hc : 9 ≤ c) (line : List Byte) {s : Stream}
    {t : List Byte} (h : s.rest = l.text ++ t) (hfuel : (l.text ++ t).length ≤ fuel + 1) :
    ∃ first later fuel' line' s', l.Taken c first later ∧ s'.rest = t ∧ t.length ≤ fuel' ∧
      (observe (fgets (c + 1) line s).buf).toList ++
          further fuel (fgets (c + 1) line s).buf (fgets (c + 1) line s).stream =
        first.toList ++ (later ++ further fuel' line' s') := by
  obtain ⟨-, ⟨u, hbuf⟩, hrest⟩ := fgets_piece (by omega : 2 ≤ c + 1) l.restOfLine h line
  rw [Nat.add_sub_cancel] at hbuf hrest
  have hpos := l.restOfLine.pos
  have hlen : (l.text.drop c ++ t).length ≤ fuel := by
    rw [List.length_append] at hfuel ⊢
    rw [List.length_drop]
    omega
  obtain ⟨later, fuel', line', s', hfurther, hs', hfuel', hlater⟩ :=
    further_restOfLine (fgets (c + 1) line s).buf (l.restOfLine.drop c) hrest hlen
  refine ⟨observe (fgets (c + 1) line s).buf, later, fuel', line', s', ⟨?_, ?_, ?_⟩, hs', hfuel',
    by rw [hfurther]⟩
  · simpa only [List.drop_drop] using hlater
  · intro hitem
    rw [hbuf, l.observe_first hc u hitem]
  · intro _
    rw [hbuf, observe_piece_eq_none_iff _ _ (by omega), l.keyword_text_iff]

/-- Of two lists, of which the second is no longer than the end of the first. -/
theorem append_eq_iff {α : Type} {as bs cs : List α} (h : cs.length ≤ bs.length) :
    as ++ bs = cs ↔ as = [] ∧ bs = cs := by
  constructor
  · intro heq
    have hlen := congrArg List.length heq
    rw [List.length_append] at hlen
    have hnil : as = [] := List.eq_nil_of_length_eq_zero (by omega)
    rw [hnil, List.nil_append] at heq
    exact ⟨hnil, heq⟩
  · rintro ⟨rfl, rfl⟩
    rfl

/-- **One line**, in front of others from which at least as much is taken as they say. -/
theorem Line.Taken.eq_iff (R : Reading) {c : ℕ} {l : Line} {first : Option Item} {later : List Item}
    (h : l.Taken c first later) {is js : List Item} (hjs : js.length ≤ is.length) :
    (l.item?.toList ++ js).length ≤ (first.toList ++ (later ++ is)).length ∧
    ((first.toList ++ (later ++ is)).map R.view = l.item?.toList ++ js ↔
      l.Read R c ∧ is.map R.view = js) := by
  have hend : (later ++ is).map R.view = js ↔
      (∀ k, ¬ Keyword (l.text.drop (c + 19 * k))) ∧ is.map R.view = js := by
    rw [List.map_append, append_eq_iff (by rwa [List.length_map]), List.map_eq_nil_iff, h.later_iff]
  cases hitem : l.item? with
  | none =>
      have hpid : l.key ≠ pidKey := fun hp => by
        rw [Line.item?, if_neg (by rw [hp]; decide), if_pos hp] at hitem
        cases hitem
      have hname : l.key ≠ nameKey := fun hn => by
        rw [Line.item?, if_pos hn] at hitem
        cases hitem
      refine ⟨?_, ?_⟩
      · simp only [Option.toList_none, List.nil_append, List.length_append]
        omega
      · rw [Option.toList_none, List.nil_append, List.map_append, append_eq_iff
          (by rw [List.length_map, List.length_append]; omega), hend, List.map_eq_nil_iff,
          Option.toList_eq_nil_iff, h.other_iff hitem]
        constructor
        · rintro ⟨hother, hlater, his⟩
          exact ⟨⟨⟨hlater, fun _ => hother, fun hp => absurd hp hpid⟩, fun hn => absurd hn hname⟩,
            his⟩
        · rintro ⟨⟨hone, -⟩, his⟩
          exact ⟨hone.other hitem, hone.later, his⟩
  | some i =>
      have hne : l.item? ≠ none := by rw [hitem]; exact Option.some_ne_none i
      have hview := l.view_first_iff R c hne
      rw [← h.first_eq hne, hitem] at hview
      have hfirst : first ≠ none := by
        rw [h.first_eq hne]
        intro hnone
        unfold Line.first? at hnone
        unfold Line.item? at hne
        split at hnone
        · cases hnone
        · next hn =>
            split at hnone
            · cases hnone
            · next hp =>
                split at hnone
                · cases hnone
                · next hu => exact hne (by rw [if_neg hn, if_neg hp, if_neg hu])
      obtain ⟨a, rfl⟩ := Option.ne_none_iff_exists'.1 hfirst
      rw [Option.map_some, Option.some.injEq] at hview
      refine ⟨?_, ?_⟩
      · simp only [Option.toList_some, List.length_append, List.length_singleton]
        omega
      · rw [Option.toList_some, Option.toList_some, List.singleton_append, List.singleton_append,
          List.map_cons, List.cons.injEq, hend, hview]
        constructor
        · rintro ⟨⟨hfit, hnum⟩, hlater, his⟩
          exact ⟨⟨⟨hlater, fun hnone => absurd hnone hne, hnum⟩, hfit⟩, his⟩
        · rintro ⟨⟨hone, hfit⟩, his⟩
          exact ⟨⟨hfit, hone.number⟩, hone.later, his⟩

theorem further_nil {fuel : ℕ} {line : List Byte} {s : Stream} (h : s.rest = []) :
    further fuel line s = [] := by
  cases fuel with
  | zero => rfl
  | succ fuel =>
      rw [further, furtherLines, fgets_end h (by omega)]
      rfl

/-- **The lines that are read with the larger bound.** -/
theorem further_eq_iff (R : Reading) (ls : List Line) {fuel : ℕ} (line : List Byte) {s : Stream}
    (h : s.rest = ls.flatMap Line.text) (hfuel : s.rest.length ≤ fuel) :
    (ls.filterMap Line.item?).length ≤ (further fuel line s).length ∧
    ((further fuel line s).map R.view = ls.filterMap Line.item? ↔ ∀ l ∈ ls, l.Read R 19) := by
  induction ls generalizing fuel line s with
  | nil =>
      rw [further_nil h]
      exact ⟨le_rfl, by simp⟩
  | cons l ls ih =>
      rw [List.flatMap_cons] at h
      have hpos := l.restOfLine.pos
      obtain ⟨fuel, rfl⟩ : ∃ m, fuel = m + 1 := by
        refine ⟨fuel - 1, ?_⟩
        rw [h, List.length_append] at hfuel
        omega
      obtain ⟨first, later, fuel', line', s', htaken, hs', hfuel', hsplit⟩ :=
        l.exists_taken (c := 19) (by omega) line h (by rw [← h]; exact hfuel)
      have hrest' : s'.rest.length ≤ fuel' := by rw [hs']; exact hfuel'
      obtain ⟨hlen, hiff⟩ := ih line' hs' hrest'
      obtain ⟨hlen', hiff'⟩ := htaken.eq_iff R hlen
      rw [further_succ l.restOfLine h, hsplit, filterMap_cons_toList]
      refine ⟨hlen', ?_⟩
      rw [hiff', hiff, List.forall_mem_cons]

/-- **All lines of a status file.** -/
theorem taken_eq_iff (R : Reading) (t : StatusText) :
    (taken t.text).map R.view = t.items ↔
      t.nameLine.Read R 14 ∧ ∀ l ∈ t.lines, l.Read R 19 := by
  have hrest : (fopen t.text).rest = t.nameLine.text ++ t.lines.flatMap Line.text := rfl
  have hnull := (fgets_piece (by omega : 2 ≤ 15) t.nameLine.restOfLine hrest (pad 20 [])).1
  obtain ⟨first, later, fuel', line', s', htaken, hs', hfuel', hsplit⟩ :=
    t.nameLine.exists_taken (c := 14) (by omega) (pad 20 []) hrest (Nat.le_succ t.text.length)
  have hrest' : s'.rest.length ≤ fuel' := by rw [hs']; exact hfuel'
  obtain ⟨hlen, hiff⟩ := further_eq_iff R t.lines line' hs' hrest'
  obtain ⟨-, hiff'⟩ := htaken.eq_iff R hlen
  have htext : taken t.text = (observe (fgets 15 (pad 20 []) (fopen t.text)).buf).toList ++
      further t.text.length (fgets 15 (pad 20 []) (fopen t.text)).buf
        (fgets 15 (pad 20 []) (fopen t.text)).stream := by
    rw [taken, lineBuffers, if_pos hnull, filterMap_cons_toList]
    rfl
  rw [htext, hsplit, StatusText.items, filterMap_cons_toList, hiff', hiff]

/-! ### What the loop does with the items -/

/-- The arrays of the iterations from the next one on. -/
theorem act_succ (g : ℕ → Locals) (uid : UInt32) (n : ℕ) (os : List (Option Item)) (st : Scan) :
    act g uid (n + 1) os st = act (fun k => g (k + 1)) uid n os st := by
  induction os generalizing n st with
  | nil => rfl
  | cons o os ih => rw [act, act, ih]

/-- A line that is not taken for anything changes nothing. -/
theorem exists_act_eq (g : ℕ → Locals) (uid : UInt32) (n : ℕ)
    (os : List (Option Item)) (st : Scan) :
    ∃ φ : ℕ → ℕ, act g uid n os st = act (g ∘ φ) uid 0 ((os.filterMap id).map some) st := by
  induction os generalizing n st with
  | nil => exact ⟨id, rfl⟩
  | cons o os ih =>
      cases o with
      | none => exact ih (n + 1) st
      | some i =>
          obtain ⟨φ, hφ⟩ := ih (n + 1) (st.take (g n) uid (some i)).1
          refine ⟨fun k => if k = 0 then n else φ (k - 1), ?_⟩
          have hcons : (some i :: os).filterMap id = i :: os.filterMap id := rfl
          rw [hcons, List.map_cons, act, act, hφ, act_succ _ uid 0]
          rfl

/-- **The loop over a file** does with the items that it takes from it what it does with such lines:
it sets its variables by one after the other, and leaves off at a user id that does not match. -/
theorem scanStatus_taken (g : ℕ → Locals) (uid : UInt32) (pid : ℤ) {content : List Byte}
    (h : (fgets 15 (pad 20 []) (fopen content)).nonNull = true) :
    ∃ φ : ℕ → ℕ, scanStatus g uid pid content =
      .ok (some (act (g ∘ φ) uid 0 ((taken content).map some) (.init pid))) := by
  obtain ⟨φ, hφ⟩ := exists_act_eq g uid 0 ((lineBuffers content).map observe) (.init pid)
  rw [List.filterMap_map, Function.id_comp, ← taken] at hφ
  exact ⟨φ, (scanStatus_eq g uid pid h).trans (hφ ▸ rfl)⟩

/-- The last line, if it has the key `Uid`. -/
theorem act_uid (g : ℕ → Locals) (uid : UInt32) (k : ℕ) (copied : List Byte) (st : Scan) :
    act g uid k [some (.uid copied)] st =
      { st with userFlag := uidMatches (g k) uid copied || st.userFlag } := by
  rw [act, Scan.take]
  by_cases h : uidMatches (g k) uid copied = true
  · rw [if_pos h, h]
    rfl
  · rw [if_neg h, if_pos rfl, Bool.eq_false_iff.2 h, Bool.false_or]

theorem act_name_pid (g : ℕ → Locals) (uid : UInt32) (k : ℕ) (name : List Byte) (n : ℤ)
    (os : List (Option Item)) (st : Scan) :
    act g uid k (some (.name name) :: some (.pid n) :: os) st =
      act g uid (k + 2) os
        ⟨name ++ nul :: st.name.drop (name.length + 1), true, n, true, st.userFlag⟩ := rfl

/-- One line of each of the keys. -/
theorem report_act (g : ℕ → Locals) (uid : UInt32) (k : ℕ) {st : Scan} (huser : st.userFlag = false)
    {name : List Byte} (hname : nul ∉ name) (n : ℤ) (copied : List Byte) :
    report (act g uid k [some (.name name), some (.pid n), some (.uid copied)] st) =
      .ok (if uidMatches (g (k + 2)) uid copied then some (n, name) else none) := by
  rw [act_name_pid, act_uid, huser, Bool.or_false]
  cases uidMatches (g (k + 2)) uid copied with
  | false => rfl
  | true => simp [report, str_append hname (st.name.drop (name.length + 1))]
/-- **What is printed about a process** whose status file is read line by line and has one line of
each of the keys: its number and its name, exactly if the first four bytes of its user id match. -/
theorem report_items (t : StatusText) (g : ℕ → Locals) (uid : UInt32) (pid : ℤ)
    (h : taken t.text = t.items) {copied : List Byte} {n : ℤ}
    (hitems : t.items = [.name t.name, .pid n, .uid copied]) :
    ∃ st k, scanStatus g uid pid t.text = .ok (some st) ∧
      report st = .ok (if uidMatches (g k) uid copied then some (n, t.name) else none) := by
  have hrest : (fopen t.text).rest = t.nameLine.text ++ t.lines.flatMap Line.text := rfl
  have hnull := (fgets_piece (by omega : 2 ≤ 15) t.nameLine.restOfLine hrest (pad 20 [])).1
  obtain ⟨φ, hφ⟩ := scanStatus_taken g uid pid hnull
  rw [h, hitems] at hφ
  exact ⟨_, φ (0 + 2), hφ, report_act (g ∘ φ) uid 0 rfl t.name_ok.2 n copied⟩

/-- **When a status file is read line by line.**  What the program takes from it is what its lines
say exactly if every line is taken for what it is and the names fill the room behind their keys;
with the names cut off at the end of the line, exactly if every line is taken for what it is and the
names are no longer than that. -/
theorem readsLines_iff (t : StatusText) :
    (taken t.text = t.items ↔
      t.ReadAsLines ∧ t.name.length = 8 ∧
        ∀ l ∈ t.lines, l.key = nameKey → l.value.length = 13) ∧
    ((taken t.text).map Item.upToNewline = t.items ↔
      t.ReadAsLines ∧ t.name.length ≤ 8 ∧
        ∀ l ∈ t.lines, l.key = nameKey → l.value.length ≤ 13) := by
  have hread : ∀ R : Reading, (t.nameLine.Read R 14 ∧ ∀ l ∈ t.lines, l.Read R 19) ↔
      t.ReadAsLines ∧ R.fits t.name.length 8 ∧
        ∀ l ∈ t.lines, l.key = nameKey → R.fits l.value.length 13 := by
    intro R
    constructor
    · rintro ⟨⟨hone, hfit⟩, hlines⟩
      exact ⟨⟨hone, fun l hl => (hlines l hl).1⟩, hfit rfl, fun l hl => (hlines l hl).2⟩
    · rintro ⟨⟨hone, hones⟩, hfit, hfits⟩
      exact ⟨⟨hone, fun _ => hfit⟩, fun l hl => ⟨hones l hl, hfits l hl⟩⟩
  constructor
  · have hasIs := (taken_eq_iff Reading.asIs t).trans (hread Reading.asIs)
    rwa [Reading.asIs, List.map_id] at hasIs
  · exact (taken_eq_iff Reading.upToNewline t).trans (hread Reading.upToNewline)

/-- The status file of a process of the user `1000` that calls itself `xxxxxxxxUid:`, with a tab and
a seven behind it. -/
def forgedStatus : StatusText where
  name := lit "xxxxxxxxUid:\t7"
  name_length := by decide
  name_ok := by decide
  lines := [⟨pidKey, lit "4711", by decide, by decide⟩,
    ⟨uidKey, lit "1000\t1000\t1000\t1000", by decide, by decide⟩]

/-- **A part of the name is taken for the user id**, and the name is cut off. -/
theorem not_readsLines_forged :
    taken forgedStatus.text ≠ forgedStatus.items ∧
      (taken forgedStatus.text).map Item.upToNewline ≠ forgedStatus.items := by
  have htaken : taken forgedStatus.text =
      [.name (lit "xxxxxxxx"), .uid (lit "7\n"), .pid 4711, .uid (lit "1000")] := by decide
  rw [htaken]
  constructor
  · decide
  · decide

end Status
