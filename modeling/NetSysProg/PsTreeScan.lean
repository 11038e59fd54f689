/-
**How `12_2` finds the processes (`HW4/12_2.c`).**

The loop of `main` goes through the entries of `/proc`.  For each entry that has a status file it
reads up to `BUFFER_SIZE` bytes of the file, takes them apart at the newlines with `strtok`, and
inserts a node with the name and the two numbers that it has found.  It does not look at the name of
the entry.

The file system is a function from paths to what comes of opening and reading them.  A variable that
has not been initialised has no value, and reading it has no meaning.  A full array without a null
byte is not a string.

Main definitions:

* `PsTree.strtok` — one call of `strtok`, from where the last one ended;
* `PsTree.parseLine`, `PsTree.parseLoop`, `PsTree.parse` — from a status file to a process;
* `PsTree.scanEntry`, `PsTree.scan` — the loop of `main`.

Main results:

* `PsTree.strtok_line` — how `strtok` goes through the lines of a status file;
* `PsTree.parse_statusFile` — **what is found in a status file** that fits into the array;
* `PsTree.scan_eq`, `PsTree.exists_scan` — **one node for each entry that has a status file**.
-/

import NetSysProg.PsTreeModel
import NetSysProg.StatusLines

set_option relaxedAutoImplicit false
set_option autoImplicit false

namespace PsTree

open CString Numerals Status

/-! ### A status file -/

/-- `strtok` with a newline as the only delimiter: the token with its null byte and what is behind
it in the array, and where the next call starts.  There is no token when only newlines are left. -/
def strtok (buf : List Byte) : Outcome (Option (List Byte × List Byte)) :=
  let buf := buf.dropWhile (· = newline)
  let tok := buf.takeWhile fun b => b ≠ newline ∧ b ≠ nul
  match buf.drop tok.length with
  | [] => .fault
  | c :: rest =>
      if tok = [] then .ok none
      else .ok (some (tok ++ nul :: rest, if c = nul then nul :: rest else rest))

/-- The variables of an iteration; `pid` and `ppid` are not initialised. -/
structure Info where
  name : List Byte
  nameFlag : Bool
  pid : Option ℤ
  pidFlag : Bool
  ppid : Option ℤ
  ppidFlag : Bool
  deriving DecidableEq

def Info.init : Info := ⟨pad bufferSize [], false, none, false, none, false⟩

/-- `"PPid"` -/
def ppidKey : List Byte := lit "PPid"

theorem length_ppidKey : ppidKey.length = 4 := by decide

/-- `strncpy(buf, line + k, BUFFER_SIZE)`: the string in `buf`, all of which is written. -/
def copyFrom (k : ℕ) (line : List Byte) : Outcome (List Byte) :=
  strncpy (pad bufferSize []) (line.drop k) bufferSize

/-- The body of the loop over the lines. -/
def parseLine (line : List Byte) (st : Info) : Outcome Info := do
  let isName ← strncmp line (nameKey ++ [nul]) 4
  if isName = 0 then do
    let buf ← copyFrom 6 line
    let name ← strcpy st.name buf
    return { st with name := name, nameFlag := true }
  else do
    let isPid ← strncmp line (pidKey ++ [nul]) 3
    if isPid = 0 then do
      let buf ← copyFrom 5 line
      let s ← str buf
      return { st with pid := some (atoi s), pidFlag := true }
    else do
      let isPpid ← strncmp line (ppidKey ++ [nul]) 4
      if isPpid = 0 then do
        let buf ← copyFrom 6 line
        let s ← str buf
        return { st with ppid := some (atoi s), ppidFlag := true }
      else return st

/-- The loop over the lines.  Without a line it goes on as long as nothing has been found, and
follows a null pointer. -/
def parseLoop : ℕ → Option (List Byte × List Byte) → Info → Outcome Info
  | 0, _, _ => .timeout
  | _ + 1, none, st => if !st.nameFlag && !st.pidFlag && !st.ppidFlag then .fault else .ok st
  | fuel + 1, some (line, rest), st => do
      let st ← parseLine line st
      let next ← strtok rest
      parseLoop fuel next st

/-- The arguments of `insert_node`. -/
def toProcess (name : List Byte) (pid ppid : ℤ) : Outcome Process :=
  match h : str name with
  | .ok s => .ok ⟨s, pid, ppid, nul_notMem_of_str h⟩
  | _ => .fault

/-- An iteration of the loop over the entries, from `read` to the call of `insert_node`. -/
def parse (content : List Byte) : Outcome Process := do
  let statusContent := pad bufferSize (content.take bufferSize)
  let line ← strtok statusContent
  let st ← parseLoop (bufferSize + 1) line .init
  if !st.nameFlag || !st.pidFlag || !st.ppidFlag then .exit 1 "process info empty"
  else do
    let pid ← Outcome.deref st.pid
    let ppid ← Outcome.deref st.ppid
    toProcess st.name pid ppid

/-! ### What is found in a status file -/

/-- **`strtok` in front of a line** cuts the line off. -/
theorem strtok_line (l : Line) (t : List Byte) :
    strtok (l.text ++ t) = .ok (some (l.body ++ nul :: t, t)) := by
  have hne : l.body ≠ [] := by simp [Line.body]
  obtain ⟨b, bs, hbody⟩ := List.exists_cons_of_ne_nil hne
  have hb : b ≠ newline :=
    fun h => l.newline_notMem_body (by rw [hbody, h]; exact List.mem_cons_self)
  have hdrop : (l.body ++ newline :: t).dropWhile (· = newline) = l.body ++ newline :: t := by
    rw [hbody, List.cons_append, List.dropWhile_cons_of_neg (by simpa using hb)]
  have htake : (l.body ++ newline :: t).takeWhile (fun b => b ≠ newline ∧ b ≠ nul) = l.body := by
    rw [List.takeWhile_append_of_pos, List.takeWhile_cons_of_neg (by simp), List.append_nil]
    intro c hc
    rw [decide_eq_true_eq]
    exact ⟨fun h => l.newline_notMem_body (h ▸ hc), fun h => l.nul_notMem_body (h ▸ hc)⟩
  rw [l.text_eq_body, List.append_assoc, List.singleton_append, strtok, hdrop, htake,
    List.drop_left]
  dsimp only
  rw [if_neg hne, if_neg newline_ne_nul]

/-- Behind the last line there is no token. -/
theorem strtok_nul (t : List Byte) : strtok (nul :: t) = .ok none := by
  have hdrop : (nul :: t).dropWhile (· = newline) = nul :: t :=
    List.dropWhile_cons_of_neg (by simp [newline_ne_nul.symm])
  have htake : (nul :: t).takeWhile (fun b => b ≠ newline ∧ b ≠ nul) = [] :=
    List.takeWhile_cons_of_neg (by simp)
  rw [strtok, hdrop, htake, List.length_nil, List.drop_zero]
  dsimp only
  rw [if_pos rfl]

/-- `copyFrom` of the value of a line. -/
theorem copyFrom_body (l : Line) (hlen : l.value.length < bufferSize) (t : List Byte) :
    copyFrom (l.key.length + 2) (l.body ++ nul :: t) = .ok (pad bufferSize l.value) := by
  have hdrop : (l.body ++ nul :: t).drop (l.key.length + 2) = l.value ++ nul :: t := by
    have hhead : l.body ++ nul :: t = (l.key ++ [colon, tab]) ++ (l.value ++ nul :: t) := by
      simp [Line.body]
    have hhead_length : (l.key ++ [colon, tab]).length = l.key.length + 2 := by simp
    rw [hhead, ← hhead_length, List.drop_left]
  have hpad : (pad bufferSize []).length = bufferSize := length_pad (Nat.zero_le _)
  rw [copyFrom, hdrop, strncpy_eq _ (Or.inl (by simp)) (le_of_eq hpad.symm),
    strUpTo_append l.value_ok.2, List.take_of_length_le (Nat.le_of_lt hlen),
    List.drop_eq_nil_of_le (le_of_eq hpad), List.append_nil]

/-- A key that begins with one of the three is one of them. -/
def Told (l : Line) : Prop :=
  (nameKey <+: l.key → l.key = nameKey) ∧ (pidKey <+: l.key → l.key = pidKey) ∧
    (ppidKey <+: l.key → l.key = ppidKey)

/-- What a line does to the variables. -/
def Info.put (st : Info) (l : Line) : Info :=
  if l.key = nameKey then
    { st with name := l.value ++ nul :: st.name.drop (l.value.length + 1), nameFlag := true }
  else if l.key = pidKey then { st with pid := some (atoi l.value), pidFlag := true }
  else if l.key = ppidKey then { st with ppid := some (atoi l.value), ppidFlag := true }
  else st

/-- **The body of the loop** does what the line says. -/
theorem parseLine_body {l : Line} (hl : Told l) (hlen : l.value.length < bufferSize) {st : Info}
    (hname : st.name.length = bufferSize) (t : List Byte) :
    parseLine (l.body ++ nul :: t) st = .ok (st.put l) := by
  have hcmp : ∀ key : List Byte, nul ∉ key → colon ∉ key →
      ∃ d, strncmp (l.body ++ nul :: t) (key ++ [nul]) key.length = .ok d ∧
        (d = 0 ↔ key <+: l.key) := by
    intro key hnul hcolon
    obtain ⟨d, hd, hiff⟩ := strncmp_prefix (l.body ++ nul :: t) hnul (Or.inl (by simp)) [nul]
    refine ⟨d, hd, ?_⟩
    rw [hiff, prefix_append_cons_iff hnul, Line.body, l.key_prefix_iff hcolon]
  obtain ⟨dName, hName, hName0⟩ := hcmp nameKey (by decide) (by decide)
  obtain ⟨dPid, hPid, hPid0⟩ := hcmp pidKey (by decide) (by decide)
  obtain ⟨dPpid, hPpid, hPpid0⟩ := hcmp ppidKey (by decide) (by decide)
  rw [length_nameKey] at hName
  rw [length_pidKey] at hPid
  rw [length_ppidKey] at hPpid
  have hcopy := copyFrom_body l hlen t
  have hstr : str (pad bufferSize l.value) = .ok l.value := str_pad hlen l.value_ok.2
  rw [parseLine, Info.put]
  simp only [hName, Outcome.bind_ok, hName0]
  by_cases hn : l.key = nameKey
  · rw [hn, length_nameKey] at hcopy
    rw [if_pos hn, if_pos (hn ▸ List.prefix_rfl), hcopy, Outcome.bind_ok,
      strcpy_of_str hstr (by rw [hname]; exact hlen), Outcome.bind_ok]
    rfl
  · rw [if_neg hn, if_neg fun h => hn (hl.1 h)]
    simp only [hPid, Outcome.bind_ok, hPid0]
    by_cases hp : l.key = pidKey
    · rw [hp, length_pidKey] at hcopy
      rw [if_pos hp, if_pos (hp ▸ List.prefix_rfl), hcopy, Outcome.bind_ok, hstr, Outcome.bind_ok]
      rfl
    · rw [if_neg hp, if_neg fun h => hp (hl.2.1 h)]
      simp only [hPpid, Outcome.bind_ok, hPpid0]
      by_cases hpp : l.key = ppidKey
      · rw [hpp, length_ppidKey] at hcopy
        rw [if_pos hpp, if_pos (hpp ▸ List.prefix_rfl), hcopy, Outcome.bind_ok, hstr,
          Outcome.bind_ok]
        rfl
      · rw [if_neg hpp, if_neg fun h => hpp (hl.2.2 h)]
        rfl

theorem Info.length_name_put {st : Info} (hname : st.name.length = bufferSize) {l : Line}
    (hlen : l.value.length < bufferSize) : (st.put l).name.length = bufferSize := by
  unfold Info.put
  split
  · exact (length_strcpy (by rw [hname]; exact hlen)).trans hname
  · split
    · exact hname
    · split <;> exact hname

/-- **The loop over the lines**, from the call of `strtok` in front of them. -/
theorem parseLoop_lines {ls : List Line} (hls : ∀ l ∈ ls, Told l)
    (hlen : (ls.flatMap Line.text).length < bufferSize) {st : Info}
    (hname : st.name.length = bufferSize) {fuel : ℕ} (hfuel : ls.length < fuel)
    (hflag : (ls.foldl Info.put st).nameFlag = true) (t : List Byte) :
    (do
      let next ← strtok (ls.flatMap Line.text ++ nul :: t)
      parseLoop fuel next st) = .ok (ls.foldl Info.put st) := by
  induction ls generalizing st fuel with
  | nil =>
      obtain ⟨fuel, rfl⟩ := Nat.exists_eq_add_of_lt hfuel
      have hflag' : st.nameFlag = true := hflag
      rw [List.flatMap_nil, List.nil_append, strtok_nul, Outcome.bind_ok, parseLoop, hflag']
      rfl
  | cons l ls ih =>
      obtain ⟨fuel, rfl⟩ := Nat.exists_eq_add_of_lt hfuel
      rw [List.flatMap_cons, List.length_append] at hlen
      have hvalue : l.value.length < bufferSize := by
        have htext : l.value.length ≤ l.text.length := by
          rw [Line.text]
          simp only [List.length_append, List.length_cons]
          omega
        omega
      rw [List.flatMap_cons, List.append_assoc, strtok_line, Outcome.bind_ok, parseLoop,
        parseLine_body (hls l List.mem_cons_self) hvalue hname, Outcome.bind_ok]
      exact ih (fun l' hl' => hls l' (List.mem_cons_of_mem l hl')) (by omega)
        (Info.length_name_put hname hvalue) (by rw [List.length_cons]; omega) hflag

/-- A status file with a name, the number of the process and that of its parent, in this order, and
other lines. -/
structure ProcStatus where
  name : List Byte
  name_length : 1 ≤ name.length ∧ name.length ≤ 15
  name_ok : newline ∉ name ∧ nul ∉ name
  pid : ℕ
  pid_le : pid ≤ CInt.intMax
  ppid : ℕ
  ppid_le : ppid ≤ CInt.intMax
  toPid : List Line
  toPpid : List Line
  toEnd : List Line
  other : ∀ l ∈ toPid ++ (toPpid ++ toEnd),
    ¬ nameKey <+: l.key ∧ ¬ pidKey <+: l.key ∧ ¬ ppidKey <+: l.key

/-- A line with a number. -/
def numberLine (key : List Byte) (hkey : newline ∉ key ∧ nul ∉ key ∧ colon ∉ key) (n : ℕ) :
    Line where
  key := key
  value := decimal n
  key_ok := hkey
  value_ok := by
    constructor
    · intro h
      exact absurd (isDigit_of_mem_decimal h) (by decide)
    · intro h
      exact absurd (isDigit_of_mem_decimal h) (by decide)

theorem pidKey_ok : newline ∉ pidKey ∧ nul ∉ pidKey ∧ colon ∉ pidKey := by decide

def pidLine (n : ℕ) : Line := numberLine pidKey pidKey_ok n

def ppidLine (n : ℕ) : Line := numberLine ppidKey (by decide) n

/-- The lines of the file. -/
def ProcStatus.statusText (t : ProcStatus) : StatusText where
  name := t.name
  name_length := t.name_length
  name_ok := t.name_ok
  lines := t.toPid ++ pidLine t.pid :: (t.toPpid ++ ppidLine t.ppid :: t.toEnd)

def ProcStatus.process (t : ProcStatus) : Process := ⟨t.name, t.pid, t.ppid, t.name_ok.2⟩

theorem atoi_decimal_self {n : ℕ} (hn : n ≤ CInt.intMax) : atoi (decimal n) = n := by
  simpa using atoi_decimal (w := []) (by simp) hn ends_nil

theorem Info.put_pidLine (st : Info) {n : ℕ} (hn : n ≤ CInt.intMax) :
    st.put (pidLine n) = { st with pid := some (n : ℤ), pidFlag := true } := by
  have hkey : (pidLine n).key = pidKey := rfl
  have hvalue : (pidLine n).value = decimal n := rfl
  rw [put, hkey, hvalue, if_neg (by decide), if_pos rfl, atoi_decimal_self hn]

theorem Info.put_ppidLine (st : Info) {n : ℕ} (hn : n ≤ CInt.intMax) :
    st.put (ppidLine n) = { st with ppid := some (n : ℤ), ppidFlag := true } := by
  have hkey : (ppidLine n).key = ppidKey := rfl
  have hvalue : (ppidLine n).value = decimal n := rfl
  rw [put, hkey, hvalue, if_neg (by decide), if_neg (by decide), if_pos rfl, atoi_decimal_self hn]

/-- Lines with other keys change nothing. -/
theorem foldl_put_other {ls : List Line}
    (h : ∀ l ∈ ls, ¬ nameKey <+: l.key ∧ ¬ pidKey <+: l.key ∧ ¬ ppidKey <+: l.key) (st : Info) :
    ls.foldl Info.put st = st := by
  induction ls generalizing st with
  | nil => rfl
  | cons l ls ih =>
      obtain ⟨hn, hp, hpp⟩ := h l List.mem_cons_self
      have hkey : ∀ key : List Byte, ¬ key <+: l.key → l.key ≠ key := by
        rintro key hnot rfl
        exact hnot List.prefix_rfl
      have hput : st.put l = st := by
        rw [Info.put, if_neg (hkey _ hn), if_neg (hkey _ hp), if_neg (hkey _ hpp)]
      rw [List.foldl_cons, hput]
      exact ih (fun l' hl' => h l' (List.mem_cons_of_mem l hl')) st

/-- The variables behind the last line of the file. -/
theorem ProcStatus.foldl_put (t : ProcStatus) :
    (t.statusText.nameLine :: t.statusText.lines).foldl Info.put .init =
      ⟨t.name ++ nul :: Info.init.name.drop (t.name.length + 1), true, some t.pid,
        true, some t.ppid,
        true⟩ := by
  have hother := t.other
  simp only [List.forall_mem_append] at hother
  obtain ⟨htoPid, htoPpid, htoEnd⟩ := hother
  have hname : Info.init.put t.statusText.nameLine = { Info.init with
      name := t.name ++ nul :: Info.init.name.drop (t.name.length + 1), nameFlag := true } := rfl
  have hlines : t.statusText.lines =
      t.toPid ++ pidLine t.pid :: (t.toPpid ++ ppidLine t.ppid :: t.toEnd) := rfl
  rw [hlines, List.foldl_cons, hname, List.foldl_append, foldl_put_other htoPid, List.foldl_cons,
    Info.put_pidLine _ t.pid_le, List.foldl_append, foldl_put_other htoPpid, List.foldl_cons,
    Info.put_ppidLine _ t.ppid_le, foldl_put_other htoEnd]

/-- The keys of the file are told from each other. -/
theorem ProcStatus.told (t : ProcStatus) :
    ∀ l ∈ t.statusText.nameLine :: t.statusText.lines, Told l := by
  have htold : ∀ l : Line, ¬ nameKey <+: l.key ∧ ¬ pidKey <+: l.key ∧
    ¬ ppidKey <+: l.key → Told l :=
    fun l hl => ⟨fun h => absurd h hl.1, fun h => absurd h hl.2.1, fun h => absurd h hl.2.2⟩
  have hother := t.other
  simp only [List.forall_mem_append] at hother
  obtain ⟨htoPid, htoPpid, htoEnd⟩ := hother
  have hlines : t.statusText.lines =
      t.toPid ++ pidLine t.pid :: (t.toPpid ++ ppidLine t.ppid :: t.toEnd) := rfl
  have hname : Told t.statusText.nameLine :=
    ⟨fun _ => rfl, fun h => absurd h (show ¬ pidKey <+: nameKey by decide),
      fun h => absurd h (show ¬ ppidKey <+: nameKey by decide)⟩
  have hpid : Told (pidLine t.pid) :=
    ⟨fun h => absurd h (show ¬ nameKey <+: pidKey by decide), fun _ => rfl,
      fun h => absurd h (show ¬ ppidKey <+: pidKey by decide)⟩
  have hppid : Told (ppidLine t.ppid) :=
    ⟨fun h => absurd h (show ¬ nameKey <+: ppidKey by decide),
      fun h => absurd h (show ¬ pidKey <+: ppidKey by decide), fun _ => rfl⟩
  simp only [hlines, List.forall_mem_cons, List.forall_mem_append]
  exact ⟨hname, fun l hl => htold l (htoPid l hl), hpid, fun l hl => htold l (htoPpid l hl), hppid,
    fun l hl => htold l (htoEnd l hl)⟩

theorem toProcess_eq {name s : List Byte} (h : str name = .ok s) (hs : nul ∉ s) (pid ppid : ℤ) :
    toProcess name pid ppid = .ok ⟨s, pid, ppid, hs⟩ := by
  unfold toProcess
  split
  · next s' h' =>
      cases h.symm.trans h'
      rfl
  · next hne => exact absurd h (hne s)

/-- Every line has a byte. -/
theorem length_le_flatMap_text (ls : List Line) : ls.length ≤ (ls.flatMap Line.text).length := by
  induction ls with
  | nil => exact le_rfl
  | cons l ls ih =>
      have hpos := l.restOfLine.pos
      rw [List.flatMap_cons, List.length_append, List.length_cons]
      omega

/-- **What is found in a status file** that leaves room for a null byte. -/
theorem parse_statusFile (t : ProcStatus) (h : t.statusText.text.length < bufferSize) :
    parse t.statusText.text = .ok t.process := by
  have htext : t.statusText.text =
      (t.statusText.nameLine :: t.statusText.lines).flatMap Line.text := rfl
  have hcount := length_le_flatMap_text (t.statusText.nameLine :: t.statusText.lines)
  rw [← htext] at hcount
  have hloop := parseLoop_lines t.told (htext ▸ h) (length_pad (Nat.zero_le _))
    (show _ < bufferSize + 1 by omega) (by rw [t.foldl_put])
    (List.replicate (bufferSize - t.statusText.text.length - 1) nul)
  rw [← htext, t.foldl_put] at hloop
  obtain ⟨line, hline, hlines⟩ := Outcome.bind_eq_ok.1 hloop
  have hprocess : toProcess (t.name ++ nul :: Info.init.name.drop (t.name.length + 1)) t.pid
    t.ppid =
      .ok t.process := toProcess_eq (str_append t.name_ok.2 _) t.name_ok.2 _ _
  rw [parse, List.take_of_length_le (Nat.le_of_lt h), pad_eq_cons h]
  rw [hline, Outcome.bind_ok, hlines, Outcome.bind_ok]
  exact hprocess

/-- The array for the name keeps its length, whatever the line is. -/
theorem length_name_parseLine {line : List Byte} {st st' : Info} (h : parseLine line st = .ok st') :
    st'.name.length = st.name.length := by
  obtain ⟨dName, -, h⟩ := Outcome.bind_eq_ok.1 h
  split at h
  · obtain ⟨buf, -, h⟩ := Outcome.bind_eq_ok.1 h
    obtain ⟨name, hname, h⟩ := Outcome.bind_eq_ok.1 h
    cases h
    obtain ⟨s, -, hcopy⟩ := Outcome.bind_eq_ok.1 hname
    exact length_of_copyAt hcopy
  · obtain ⟨dPid, -, h⟩ := Outcome.bind_eq_ok.1 h
    split at h
    · obtain ⟨buf, -, h⟩ := Outcome.bind_eq_ok.1 h
      obtain ⟨s, -, h⟩ := Outcome.bind_eq_ok.1 h
      cases h
      rfl
    · obtain ⟨dPpid, -, h⟩ := Outcome.bind_eq_ok.1 h
      split at h
      · obtain ⟨buf, -, h⟩ := Outcome.bind_eq_ok.1 h
        obtain ⟨s, -, h⟩ := Outcome.bind_eq_ok.1 h
        cases h
        rfl
      · cases h
        rfl

theorem length_name_parseLoop {fuel : ℕ} {next : Option (List Byte × List Byte)} {st st' : Info}
    (h : parseLoop fuel next st = .ok st') : st'.name.length = st.name.length := by
  induction fuel generalizing next st with
  | zero => cases h
  | succ fuel ih =>
      cases next with
      | none =>
          unfold parseLoop at h
          split at h
          · cases h
          · cases h
            rfl
      | some x =>
          obtain ⟨st₁, hline, h⟩ := Outcome.bind_eq_ok.1 h
          obtain ⟨next, -, h⟩ := Outcome.bind_eq_ok.1 h
          exact (ih h).trans (length_name_parseLine hline)

/-- **A name that is found** fits into a node. -/
theorem length_name_of_parse {content : List Byte} {p : Process} (h : parse content = .ok p) :
    p.name.length < bufferSize := by
  obtain ⟨line, -, h⟩ := Outcome.bind_eq_ok.1 h
  obtain ⟨st, hst, h⟩ := Outcome.bind_eq_ok.1 h
  split at h
  · cases h
  · obtain ⟨pid, -, h⟩ := Outcome.bind_eq_ok.1 h
    obtain ⟨ppid, -, h⟩ := Outcome.bind_eq_ok.1 h
    have hlen : st.name.length = bufferSize :=
      (length_name_parseLoop hst).trans (length_pad (Nat.zero_le _))
    unfold toProcess at h
    split at h
    · next s hs =>
        cases h
        exact hlen ▸ length_lt_of_str hs
    · cases h

/-! ### The entries of `/proc` -/

/-- An error number of `open`. -/
inductive Errno
  | enoent
  | enotdir
  | other
  deriving DecidableEq

/-- What comes of `open` and `read` for a path. -/
inductive StatusFile
  | missing (errno : Errno)
  | unreadable
  | content (bytes : List Byte)
  deriving DecidableEq

/-- `snprintf(status_dir_name, BUFFER_SIZE, "/proc/%s/status", status_dir->d_name)` -/
def statusPath (dName : List Byte) : List Byte :=
  (lit "/proc/" ++ dName ++ lit "/status").take (bufferSize - 1)

/-- One iteration of the loop of `main`. -/
def scanEntry (file : StatusFile) (s : State) : Outcome State :=
  match file with
  | .missing errno =>
      if errno = .enoent ∨ errno = .enotdir then .ok s else .exit 1 "open status file"
  | .unreadable => .exit 1 "read status_file"
  | .content bytes => do
      let p ← parse bytes
      insertNode p s

/-- The loop of `main` over the names of the entries. -/
def scan (fs : List Byte → StatusFile) : List (List Byte) → State → Outcome State
  | [], s => .ok s
  | dName :: dNames, s => do
      let s ← scanEntry (fs (statusPath dName)) s
      scan fs dNames s

/-- The list before the loop. -/
def State.empty : State := ⟨[], none⟩

/-- The processes in the list, in the order of insertion. -/
def State.processes (s : State) : List Process := s.nodes.map ProcNode.toProcess

/-- The numbers of the processes in the list. -/
def State.pids (s : State) : List ℤ := s.processes.map Process.pid

/-- The process that is found in a status file. -/
def parsed (bytes : List Byte) : Option Process :=
  match parse bytes with
  | .ok p => some p
  | _ => none

/-- The process that is inserted for an entry. -/
def found (fs : List Byte → StatusFile) (dName : List Byte) : Option Process :=
  match fs (statusPath dName) with
  | .content bytes => parsed bytes
  | _ => none

theorem parsed_eq_some_iff {bytes : List Byte} {p : Process} :
    parsed bytes = some p ↔ parse bytes = .ok p := by
  unfold parsed
  cases parse bytes <;> simp

/-- **One iteration** inserts a node exactly if the entry has a status file. -/
theorem scanEntry_eq {fs : List Byte → StatusFile} {dName : List Byte} {s s' : State}
    (h : scanEntry (fs (statusPath dName)) s = .ok s') :
    s'.processes = s.processes ++ (found fs dName).toList ∧
      (found fs dName = none ↔ ∃ e, fs (statusPath dName) = .missing e) := by
  unfold scanEntry at h
  unfold found
  cases hfile : fs (statusPath dName) with
  | missing errno =>
      rw [hfile] at h
      dsimp only at h
      split at h
      · cases h
        exact ⟨(List.append_nil _).symm, iff_of_true rfl ⟨errno, rfl⟩⟩
      · cases h
  | unreadable =>
      rw [hfile] at h
      cases h
  | content bytes =>
      rw [hfile] at h
      obtain ⟨p, hp, hins⟩ := Outcome.bind_eq_ok.1 h
      unfold insertNode at hins
      split at hins
      · cases hins
        simp only [parsed_eq_some_iff.2 hp]
        refine ⟨?_, iff_of_false (by simp) (by simp)⟩
        rw [State.processes, List.map_append]
        rfl
      · cases hins

/-- **The loop inserts one node for each entry that has a status file.** -/
theorem scan_eq {fs : List Byte → StatusFile} {dNames : List (List Byte)} {s s' : State}
    (h : scan fs dNames s = .ok s') :
    s'.processes = s.processes ++ dNames.filterMap (found fs) ∧
      ∀ dName ∈ dNames, found fs dName = none ↔ ∃ e, fs (statusPath dName) = .missing e := by
  induction dNames generalizing s with
  | nil =>
      cases h
      exact ⟨(List.append_nil _).symm, by simp⟩
  | cons dName dNames ih =>
      obtain ⟨s₁, hentry, hrest⟩ := Outcome.bind_eq_ok.1 h
      obtain ⟨hprocs, hfound⟩ := scanEntry_eq hentry
      obtain ⟨hprocs', hfound'⟩ := ih hrest
      refine ⟨?_, ?_⟩
      · rw [hprocs', hprocs, filterMap_cons_toList, List.append_assoc]
      · intro d hd
        rcases List.mem_cons.1 hd with rfl | hd
        · exact hfound
        · exact hfound' d hd

/-- The entry can be passed over, or a process can be found in its status file and inserted. -/
def Scanned (file : StatusFile) : Prop :=
  file = .missing .enoent ∨ file = .missing .enotdir ∨
    ∃ bytes p, file = .content bytes ∧ parse bytes = .ok p ∧ p.name.length < bufferSize

/-- **The loop comes to its end** when every entry can be scanned. -/
theorem exists_scan {fs : List Byte → StatusFile} {dNames : List (List Byte)}
    (h : ∀ dName ∈ dNames, Scanned (fs (statusPath dName))) (s : State) :
    ∃ s', scan fs dNames s = .ok s' := by
  induction dNames generalizing s with
  | nil => exact ⟨s, rfl⟩
  | cons dName dNames ih =>
      have hentry : ∃ s₁, scanEntry (fs (statusPath dName)) s = .ok s₁ := by
        rcases h dName List.mem_cons_self with hfile | hfile | ⟨bytes, p, hfile, hp, hname⟩
        · exact ⟨s, by rw [hfile]; rfl⟩
        · exact ⟨s, by rw [hfile]; rfl⟩
        · rw [hfile, scanEntry, hp, Outcome.bind_ok, insertNode, if_pos hname]
          exact ⟨_, rfl⟩
      obtain ⟨s₁, hs₁⟩ := hentry
      rw [scan, hs₁, Outcome.bind_ok]
      exact ih (fun d hd => h d (List.mem_cons_of_mem dName hd)) s₁

end PsTree
