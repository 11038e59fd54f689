/-
**How `12_1` reads a status file (`HW4/12_1.c`).**

For every process the program reads the status file with `fgets` into an array of 20 bytes, the
first time with a bound of 15, and looks at what the array begins with: `Name`, `Pid` or `Uid`.  The
name and the number of the process are copied, and the user id is compared as text with the id that
is wanted: four bytes of the line are copied into an array that has not been initialised, and as
many bytes of it are compared as the other text has.

Main definitions:

* `Status.uidTest` — the comparison of the user ids;
* `Status.scanBody`, `Status.scanLoop`, `Status.scanStatus` — the loop over the lines of a status
  file;
* `Status.report` — what is printed about a process;
* `Status.observe`, `Status.act` — what the program takes a line for, and what it does then.

Main results:

* `Status.uidTest_eq` — the comparison as a test for a prefix;
* `Status.scanBody_eq` — **the body of the loop** acts on what the line is taken for;
* `Status.scanLoop_eq`, `Status.scanStatus_eq` — and so does the loop, on the arrays that `fgets`
  fills.
-/

import NetSysProg.CStringBounded
import NetSysProg.Numerals
import NetSysProg.Stdio

set_option relaxedAutoImplicit false
set_option autoImplicit false

namespace Status

open CString Stdio Numerals

/-! ### The user id -/

/-- `BUFFER_SIZE` -/
def bufferSize : ℕ := 1024

/-- `uid_line` and `uid_num`, which are not initialised. -/
structure Locals where
  uidLine : List Byte
  uidNum : List Byte
  length_uidLine : uidLine.length = bufferSize
  length_uidNum : uidNum.length = bufferSize

/-- `snprintf` of a text. -/
def snprintf (buf : List Byte) (size : ℕ) (text : List Byte) : List Byte :=
  text.take (size - 1) ++ nul :: buf.drop ((text.take (size - 1)).length + 1)

/-- What `"%d"` makes of a user id: its bits are taken for an `int`. -/
def uidText (uid : UInt32) : List Byte := printInt (CInt.wrap uid.toNat)

/-- The test of a line that begins with `Uid`. -/
def uidTest (g : Locals) (uid : UInt32) (line : List Byte) : Outcome Bool := do
  let uidNum := snprintf g.uidNum bufferSize (uidText uid)
  let uidLine ← strncpy g.uidLine (line.drop 5) 4
  let n ← strlen uidNum
  let d ← strncmp uidLine uidNum n
  return decide (d = 0)

/-- The test, as a function of the bytes that are copied from the line. -/
def uidMatches (g : Locals) (uid : UInt32) (copied : List Byte) : Bool :=
  decide (uidText uid <+: pad 4 copied ++ g.uidLine.drop 4)

/-- A byte that `"%d"` can write. -/
theorem mem_printInt {x : ℤ} {b : Byte} (h : b ∈ printInt x) : b = 45 ∨ isDigit b = true := by
  unfold printInt at h
  split at h
  · rcases List.mem_cons.1 h with h | h
    · exact Or.inl h
    · exact Or.inr (isDigit_of_mem_decimal h)
  · exact Or.inr (isDigit_of_mem_decimal h)

theorem nul_notMem_uidText (uid : UInt32) : nul ∉ uidText uid := by
  intro h
  rcases mem_printInt h with h | h
  · exact absurd h (by decide)
  · exact absurd h (by decide)

/-- An `int` has at most ten digits and a sign. -/
theorem length_uidText_le (uid : UInt32) : (uidText uid).length ≤ 11 := by
  obtain ⟨hmin, hmax⟩ := CInt.wrap_mem uid.toNat
  unfold CInt.intMin at hmin
  unfold CInt.intMax at hmax
  have hdigits : (decimal (CInt.wrap uid.toNat).natAbs).length ≤ 10 := by
    rw [length_decimal_le_iff (by omega)]
    omega
  unfold uidText printInt
  split
  · rw [List.length_cons]
    omega
  · omega

/-- **The test** is one for a prefix of the array. -/
theorem uidTest_eq (g : Locals) (uid : UInt32) {line : List Byte} (hline : nul ∈ line.drop 5) :
    uidTest g uid line = .ok (uidMatches g uid (strUpTo 4 (line.drop 5))) := by
  have hlen := length_uidText_le uid
  have hnul := nul_notMem_uidText uid
  have htext : (uidText uid).take (bufferSize - 1) = uidText uid :=
    List.take_of_length_le (by rw [bufferSize]; omega)
  have hcopy := strncpy_eq g.uidLine (n := 4) (Or.inl hline)
    (by rw [g.length_uidLine, bufferSize]; omega)
  have hpad : (pad 4 (strUpTo 4 (line.drop 5)) ++ g.uidLine.drop 4).length = bufferSize := by
    rw [List.length_append, length_pad (length_strUpTo_le _ _), List.length_drop, g.length_uidLine,
      bufferSize]
  obtain ⟨d, hd, hiff⟩ := strncmp_prefix (pad 4 (strUpTo 4 (line.drop 5)) ++ g.uidLine.drop 4)
    hnul (Or.inr (by rw [hpad, bufferSize]; omega))
    (nul :: g.uidNum.drop ((uidText uid).length + 1))
  simp only [uidTest, snprintf, htext, hcopy, Outcome.bind_ok, strlen, str_append hnul,
    Outcome.pure_eq, hd, uidMatches, hiff]

/-! ### The loop over the lines -/

/-- The variables that the loop sets. -/
structure Scan where
  name : List Byte
  nameFlag : Bool
  pid : ℤ
  pidFlag : Bool
  userFlag : Bool
  deriving DecidableEq

/-- The variables at the start; `pid` is not initialised. -/
def Scan.init (pid : ℤ) : Scan := ⟨pad bufferSize [], false, pid, false, false⟩

/-- The constants that a line is compared with. -/
def nameKey : List Byte := lit "Name"

def pidKey : List Byte := lit "Pid"

def uidKey : List Byte := lit "Uid"

theorem length_nameKey : nameKey.length = 4 := by decide

theorem length_pidKey : pidKey.length = 3 := by decide

theorem length_uidKey : uidKey.length = 3 := by decide

/-- The body of the loop; the second component says whether it has been left by `break`. -/
def scanBody (g : Locals) (uid : UInt32) (line : List Byte) (st : Scan) :
    Outcome (Scan × Bool) := do
  let buf := pad bufferSize []
  let isName ← strncmp line (nameKey ++ [nul]) 4
  if isName = 0 then do
    let buf ← strncpy buf (line.drop 6) bufferSize
    let name ← strcpy st.name buf
    return ({ st with name := name, nameFlag := true }, false)
  else do
    let isPid ← strncmp line (pidKey ++ [nul]) 3
    if isPid = 0 then do
      let buf ← strncpy buf (line.drop 5) bufferSize
      let s ← str buf
      return ({ st with pid := atoi s, pidFlag := true }, false)
    else do
      let isUid ← strncmp line (uidKey ++ [nul]) 3
      if isUid = 0 then do
        let same ← uidTest g uid line
        if same then return ({ st with userFlag := true }, false) else return (st, true)
      else return (st, false)

/-- The loop, when `line` has been filled; `g n` is what the arrays hold in the `n`-th iteration. -/
def scanLoop (g : ℕ → Locals) (uid : UInt32) :
    ℕ → ℕ → List Byte → Stream → Scan → Outcome Scan
  | 0, _, _, _, _ => .timeout
  | fuel + 1, n, line, s, st => do
      let r ← scanBody (g n) uid line st
      if r.2 then return r.1
      else
        let next := fgets 20 line s
        if next.nonNull then scanLoop g uid fuel (n + 1) next.buf next.stream r.1
        else return r.1

/-- The variables after the loop; a file in which there is nothing to read is passed over. -/
def scanStatus (g : ℕ → Locals) (uid : UInt32) (pid : ℤ) (content : List Byte) :
    Outcome (Option Scan) := do
  let first := fgets 15 (pad 20 []) (fopen content)
  if first.nonNull then do
    let st ← scanLoop g uid (content.length + 1) 0 first.buf first.stream (.init pid)
    return some st
  else return none

/-- What is printed about the process: its number and its name, if it is one of the user. -/
def report (st : Scan) : Outcome (Option (ℤ × List Byte)) :=
  if (!st.nameFlag || !st.pidFlag) && st.userFlag then .exit 1 "process info empty"
  else if !st.userFlag then return none
  else do
    let name ← str st.name
    return some (st.pid, name)

/-! ### What a line is taken for -/

/-- What the program takes from a line: a name, the number of the process, or the bytes of a user id
that it compares. -/
inductive Item
  | name (s : List Byte)
  | pid (n : ℤ)
  | uid (copied : List Byte)
  deriving DecidableEq

/-- The bytes from the index `k` on, up to a null byte. -/
def strAt (k : ℕ) (line : List Byte) : List Byte := (line.drop k).takeWhile (· ≠ nul)

/-- What the program takes the contents of `line` for. -/
def observe (line : List Byte) : Option Item :=
  if nameKey <+: line then some (.name (strAt 6 line))
  else if pidKey <+: line then some (.pid (atoi (strAt 5 line)))
  else if uidKey <+: line then some (.uid (strUpTo 4 (line.drop 5)))
  else none

/-- What the program does with an item; the second component says whether it leaves the loop. -/
def Scan.take (st : Scan) (g : Locals) (uid : UInt32) : Option Item → Scan × Bool
  | none => (st, false)
  | some (.name s) =>
      ({ st with name := s ++ nul :: st.name.drop (s.length + 1), nameFlag := true }, false)
  | some (.pid n) => ({ st with pid := n, pidFlag := true }, false)
  | some (.uid copied) =>
      if uidMatches g uid copied then ({ st with userFlag := true }, false) else (st, true)

/-- What the program does with one line after the other. -/
def act (g : ℕ → Locals) (uid : UInt32) : ℕ → List (Option Item) → Scan → Scan
  | _, [], st => st
  | n, o :: os, st =>
      let r := st.take (g n) uid o
      if r.2 then r.1 else act g uid (n + 1) os r.1

/-- The array `line`: twenty bytes, the last of which is null. -/
structure LineBuffer (line : List Byte) : Prop where
  length_eq : line.length = 20
  drop_eq : line.drop 19 = [nul]

theorem LineBuffer.nul_mem_drop {line : List Byte} (h : LineBuffer line) {k : ℕ} (hk : k ≤ 19) :
    nul ∈ line.drop k := by
  obtain ⟨j, hj⟩ := Nat.exists_eq_add_of_le hk
  have hsub : line.drop 19 <:+ line.drop k := by
    rw [hj, ← List.drop_drop]
    exact List.drop_suffix _ _
  exact hsub.subset (by rw [h.drop_eq]; exact List.mem_singleton_self _)

theorem LineBuffer.length_strAt {line : List Byte} (h : LineBuffer line) (k : ℕ) :
    (strAt k line).length ≤ 20 := by
  have hle := (List.takeWhile_sublist (· ≠ nul) (l := line.drop k)).length_le
  rw [List.length_drop, h.length_eq] at hle
  exact hle.trans (Nat.sub_le _ _)

theorem LineBuffer.init : LineBuffer (pad 20 []) := ⟨by decide, by decide⟩

/-- `strncpy` of the rest of the line into an array of null bytes. -/
theorem LineBuffer.strncpy_drop {line : List Byte} (h : LineBuffer line) {k : ℕ} (hk : k ≤ 19) :
    strncpy (pad bufferSize []) (line.drop k) bufferSize = .ok (pad bufferSize (strAt k line)) := by
  have hlen : (pad bufferSize []).length = bufferSize := length_pad (Nat.zero_le _)
  have htake : (line.drop k).take bufferSize = line.drop k :=
    List.take_of_length_le (by rw [List.length_drop, h.length_eq, bufferSize]; omega)
  rw [strncpy_eq _ (Or.inl (h.nul_mem_drop hk)) (le_of_eq hlen.symm),
    List.drop_eq_nil_of_le (le_of_eq hlen), List.append_nil, strUpTo, htake, strAt]

theorem nul_notMem_strAt (k : ℕ) (line : List Byte) : nul ∉ strAt k line := by
  intro h
  simpa using List.mem_takeWhile_imp h

/-- The comparison of a line with a constant. -/
theorem LineBuffer.strncmp_key {line : List Byte} (h : LineBuffer line) (key : List Byte)
    (hkey : nul ∉ key) :
    ∃ d, strncmp line (key ++ [nul]) key.length = .ok d ∧ (d = 0 ↔ key <+: line) :=
  strncmp_prefix line hkey (Or.inl (List.mem_of_mem_drop (h.nul_mem_drop le_rfl))) [nul]

/-- **The body of the loop acts on what the line is taken for.** -/
theorem scanBody_eq (g : Locals) (uid : UInt32) {line : List Byte} (h : LineBuffer line) {st : Scan}
    (hname : st.name.length = bufferSize) :
    scanBody g uid line st = .ok (st.take g uid (observe line)) := by
  obtain ⟨dName, hName, hName0⟩ := h.strncmp_key nameKey (by decide)
  obtain ⟨dPid, hPid, hPid0⟩ := h.strncmp_key pidKey (by decide)
  obtain ⟨dUid, hUid, hUid0⟩ := h.strncmp_key uidKey (by decide)
  rw [length_nameKey] at hName
  rw [length_pidKey] at hPid
  rw [length_uidKey] at hUid
  have hstr : ∀ k ≤ 19, str (pad bufferSize (strAt k line)) = .ok (strAt k line) := by
    intro k _
    have hlen := h.length_strAt k
    exact str_pad (by rw [bufferSize]; omega) (nul_notMem_strAt k line)
  rw [scanBody, observe]
  simp only [hName, Outcome.bind_ok, hName0]
  by_cases hn : nameKey <+: line
  · have hlen := h.length_strAt 6
    rw [if_pos hn, if_pos hn, h.strncpy_drop (by omega), Outcome.bind_ok,
      strcpy_of_str (hstr 6 (by omega)) (by rw [hname, bufferSize]; omega), Outcome.bind_ok]
    rfl
  · rw [if_neg hn, if_neg hn]
    simp only [hPid, Outcome.bind_ok, hPid0]
    by_cases hp : pidKey <+: line
    · rw [if_pos hp, if_pos hp, h.strncpy_drop (by omega), Outcome.bind_ok, hstr 5 (by omega),
        Outcome.bind_ok]
      rfl
    · rw [if_neg hp, if_neg hp]
      simp only [hUid, Outcome.bind_ok, hUid0]
      by_cases hu : uidKey <+: line
      · rw [if_pos hu, if_pos hu, uidTest_eq g uid (h.nul_mem_drop (by omega)), Outcome.bind_ok,
          Scan.take]
        split <;> rfl
      · rw [if_neg hu, if_neg hu]
        rfl

/-- The array for the name keeps its length. -/
theorem length_name_take (g : Locals) (uid : UInt32) {line : List Byte} (h : LineBuffer line)
    {st : Scan} (hname : st.name.length = bufferSize) :
    (st.take g uid (observe line)).1.name.length = bufferSize := by
  unfold observe
  split
  · have hlen := h.length_strAt 6
    have hlt : (strAt 6 line).length < st.name.length := by rw [hname, bufferSize]; omega
    exact (length_strcpy hlt).trans hname
  · split
    · exact hname
    · split
      · simp only [Scan.take]
        split <;> exact hname
      · exact hname

/-! ### The arrays that `fgets` fills -/

/-- `fgets` keeps the last byte of the array null. -/
theorem LineBuffer.fgets {line : List Byte} (h : LineBuffer line) {size : ℕ} (hsize : size ≤ 20)
    (s : Stream) : LineBuffer (Stdio.fgets size line s).buf := by
  have hlen := length_lineUpTo_le (size - 1) s.rest
  have hlt : (lineUpTo (size - 1) s.rest).length ≤ 19 := by omega
  unfold Stdio.fgets
  dsimp only
  generalize lineUpTo (size - 1) s.rest = got at hlt
  split
  · exact h
  · obtain ⟨k, hk⟩ := Nat.exists_eq_add_of_le hlt
    constructor
    · simp only [List.length_append, List.length_cons, List.length_drop, h.length_eq]
      omega
    · rw [hk, List.drop_length_add_append]
      cases k with
      | zero =>
          rw [List.drop_zero, List.drop_eq_nil_of_le (by rw [h.length_eq]; omega)]
      | succ k =>
          rw [List.drop_succ_cons, List.drop_drop,
            show got.length + 1 + k = 19 by omega, h.drop_eq]

/-- What `line` holds after each further call of `fgets`, until there is nothing to read. -/
def furtherLines : ℕ → List Byte → Stream → List (List Byte)
  | 0, _, _ => []
  | fuel + 1, line, s =>
      let next := fgets 20 line s
      if next.nonNull then next.buf :: furtherLines fuel next.buf next.stream else []

/-- What `line` holds in each iteration of the loop, if it is not left before. -/
def lineBuffers (content : List Byte) : List (List Byte) :=
  let first := fgets 15 (pad 20 []) (fopen content)
  if first.nonNull then first.buf :: furtherLines content.length first.buf first.stream else []

/-- Every call of `fgets` that finds something takes it off the stream. -/
theorem length_rest_fgets {size : ℕ} {line : List Byte} {s : Stream}
    (h : (fgets size line s).nonNull = true) :
    (fgets size line s).stream.rest.length < s.rest.length := by
  have hgot := length_lineUpTo_le (size - 1) s.rest
  unfold fgets at h ⊢
  dsimp only at h ⊢
  split at h
  · cases h
  · next hne =>
      have hpos := List.length_pos_iff.2 hne
      rw [if_neg hne]
      simp only [Stream.rest, ← List.drop_drop, List.length_drop] at hgot hpos ⊢
      omega

/-- **The loop acts on what the lines are taken for.** -/
theorem scanLoop_eq (g : ℕ → Locals) (uid : UInt32) {fuel n : ℕ} {line : List Byte} {s : Stream}
    {st : Scan} (h : LineBuffer line) (hname : st.name.length = bufferSize)
    (hfuel : s.rest.length ≤ fuel) :
    scanLoop g uid (fuel + 1) n line s st =
      .ok (act g uid n ((line :: furtherLines fuel line s).map observe) st) := by
  induction fuel generalizing n line s st with
  | zero =>
      have hnull : (fgets 20 line s).nonNull = false := by
        by_contra hne
        have := length_rest_fgets (Bool.not_eq_false _ ▸ hne)
        omega
      rw [scanLoop, scanBody_eq _ _ h hname, Outcome.bind_ok]
      simp only [hnull, furtherLines, List.map_cons, List.map_nil, act, Outcome.pure_eq,
        Bool.false_eq_true, if_false]
      split <;> rfl
  | succ fuel ih =>
      rw [scanLoop, scanBody_eq _ _ h hname, Outcome.bind_ok, List.map_cons, act, furtherLines]
      dsimp only
      split
      · rfl
      · by_cases hnull : (fgets 20 line s).nonNull = true
        · rw [if_pos hnull, if_pos hnull]
          have hrest := length_rest_fgets hnull
          exact ih (h.fgets le_rfl s) (length_name_take _ _ h hname) (by omega)
        · rw [if_neg hnull, if_neg hnull]
          rfl

/-- **What is known of a process after the loop.** -/
theorem scanStatus_eq (g : ℕ → Locals) (uid : UInt32) (pid : ℤ) {content : List Byte}
    (h : (fgets 15 (pad 20 []) (fopen content)).nonNull = true) :
    scanStatus g uid pid content =
      .ok (some (act g uid 0 ((lineBuffers content).map observe) (.init pid))) := by
  have hbuf : LineBuffer (fgets 15 (pad 20 []) (fopen content)).buf :=
    LineBuffer.init.fgets (by omega) _
  have hrest := length_rest_fgets h
  have hcontent : (fopen content).rest = content := rfl
  rw [hcontent] at hrest
  have hname : (Scan.init pid).name.length = bufferSize := length_pad (Nat.zero_le _)
  have hloop := scanLoop_eq g uid (n := 0) hbuf hname (Nat.le_of_lt hrest)
  rw [scanStatus, lineBuffers, if_pos h, if_pos h, hloop]
  rfl

end Status
