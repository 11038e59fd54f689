/-
**Which commands are handed to the shell (`HW8/44_6/popen_glob.c`).**

The program reads patterns from its standard input and hands each to a shell, in a command that
lists the files with matching names.  A shell would do whatever else the input says, so a pattern is
rejected unless all of its characters are letters, digits or among a few others.  A line that is
longer than the buffer is read as several patterns, and a null byte ends one early; the check has to
hold for these too.

What a command prints is not followed here: the loop goes on whatever comes of it.

Main definitions:

* `PopenGlob.mainLoop` — the loop of `main`, with the commands that it runs and the characters that
  it complains about;
* `PopenGlob.pieces`, `PopenGlob.eventOf` — what `fgets` makes of the input, and what comes of each
  piece;
* `PopenGlob.command` — the command for a pattern.

Main results:

* `PopenGlob.mainLoop_eq` — **the loop treats the pieces one by one**, for every input;
* `PopenGlob.runs_valid_patterns` — **no other command is ever run**: each is the listing of one
  pattern, whole and with valid characters only, and each line that fits into the buffer is treated
  as a pattern.
-/

import NetSysProg.Stdio
import NetSysProg.Numerals

set_option relaxedAutoImplicit false
set_option autoImplicit false

namespace PopenGlob

open CString Stdio

/-! ### `popen_glob.c` -/

/-- `PAT_SIZE` -/
def patSize : ℕ := 50

/-- What stands before and behind the pattern in `POPEN_FMT`. -/
def front : List Byte := lit "/bin/ls -d "

def back : List Byte := lit " 2> /dev/null"

/-- `PCMD_BUF_SIZE`: the size of `POPEN_FMT`, with `%s` and the null byte, and that of a pattern. -/
def pcmdBufSize : ℕ := (front ++ lit "%s" ++ back).length + 1 + patSize

/-- `isalnum` -/
def isalnum (b : Byte) : Bool := (48 ≤ b ∧ b ≤ 57) ∨ (65 ≤ b ∧ b ≤ 90) ∨ (97 ≤ b ∧ b ≤ 122)

/-- The characters of `"_*?[^-]."`. -/
def others : List Byte := lit "_*?[^-]."

/-- A character is accepted; `strchr` also finds the null byte that ends the string. -/
def accepted (b : Byte) : Bool := isalnum b || others.contains b || b = nul

/-- What the loop does about a line. -/
inductive Event
  /-- `"Bad pattern character: %c\n"` -/
  | bad (c : Byte)
  | popen (cmd : List Byte)
  deriving DecidableEq

/-- The loop over the characters, from the index `j` on: whether one is bad, and the index behind
it. -/
def scan (pat : List Byte) (len : ℕ) : ℕ → ℕ → Outcome (Bool × ℕ)
  | 0, _ => .timeout
  | fuel + 1, j =>
      if j < len then
        match pat[j]? with
        | none => .fault
        | some b => if accepted b then scan pat len fuel (j + 1) else .ok (true, j + 1)
      else .ok (false, j)

/-- `snprintf(popenCmd, PCMD_BUF_SIZE, POPEN_FMT, pat)`, without the null byte. -/
def snprintf (p : List Byte) : List Byte := (front ++ p ++ back).take (pcmdBufSize - 1)

/-- What is done about the pattern in the buffer, of which `len` characters are checked. -/
def check (pat : List Byte) (len : ℕ) : Outcome (List Event) := do
  let (badPattern, j) ← scan pat len (len + 1) 0
  if badPattern then do
    let c ← Outcome.deref pat[j - 1]?
    return [.bad c]
  else do
    let p ← str pat
    return [.popen (snprintf p)]

/-- What is done about the line in the buffer, and what the buffer contains then; `len` is not
changed when the newline is removed. -/
def treat (pat : List Byte) : Outcome (List Byte × List Event) := do
  let len ← strlen pat
  if len ≤ 1 then return (pat, [])
  else do
    let pat ← if pat[len - 1]? = some newline then store pat (len - 1) nul else .ok pat
    let events ← check pat len
    return (pat, events)

/-- The loop of `main`; `pat` is what the array of that name contains. -/
def mainLoop : ℕ → Stream → List Byte → List Event → Outcome (List Event)
  | 0, _, _, _ => .timeout
  | fuel + 1, input, pat, events =>
      let r := fgets patSize pat input
      if r.nonNull then do
        let (pat, new) ← treat r.buf
        mainLoop fuel r.stream pat (events ++ new)
      else .ok events

/-! ### What comes of a piece of the input -/

/-- A valid character. -/
def valid (b : Byte) : Bool := isalnum b || others.contains b

/-- The command for a pattern. -/
def command (p : List Byte) : List Byte := front ++ p ++ back

/-- What is done about a pattern: the first character that is not valid is complained about. -/
def verdict (p : List Byte) : Event :=
  match p.find? fun b => !valid b with
  | some c => .bad c
  | none => .popen (command p)

/-- The string without the newline at its end. -/
def strip (s : List Byte) : List Byte := if s.getLast? = some newline then s.dropLast else s

/-- What comes of one piece of the input. -/
def eventOf (piece : List Byte) : List Event :=
  let s := piece.takeWhile (· ≠ nul)
  if s.length ≤ 1 then [] else [verdict (strip s)]

theorem lineUpTo_pos {n : ℕ} {bs : List Byte} (hbs : bs ≠ []) :
    0 < (lineUpTo (n + 1) bs).length := by
  cases bs with
  | nil => exact absurd rfl hbs
  | cons b bs =>
      rw [lineUpTo]
      split <;> simp

/-- What the calls of `fgets` read, one after the other. -/
def pieces (bs : List Byte) : List (List Byte) :=
  if h : bs = [] then []
  else lineUpTo (patSize - 1) bs :: pieces (bs.drop (lineUpTo (patSize - 1) bs).length)
  termination_by bs.length
  decreasing_by
    have hpos : 0 < (lineUpTo (patSize - 1) bs).length := lineUpTo_pos h
    have hlen : 0 < bs.length := List.length_pos_iff.2 h
    rw [List.length_drop]
    omega

theorem valid_eq_accepted {b : Byte} (hb : b ≠ nul) : valid b = accepted b := by
  simp [valid, accepted, hb]

/-! ### One piece -/

/-- Characters that are accepted are passed over. -/
theorem scan_accepted (pre : List Byte) {t : List Byte} (rest : List Byte) (len fuel : ℕ)
    (hlen : pre.length + t.length ≤ len) (hall : ∀ b ∈ t, accepted b = true) :
    scan (pre ++ (t ++ rest)) len (fuel + t.length) pre.length =
      scan (pre ++ (t ++ rest)) len fuel (pre.length + t.length) := by
  induction t generalizing pre with
  | nil => rfl
  | cons b t ih =>
      rw [List.length_cons] at hlen
      have hb : (pre ++ (b :: t ++ rest))[pre.length]? = some b := by simp
      have hih := ih (pre ++ [b]) (by rw [List.length_append, List.length_singleton]; omega)
        (fun c hc => hall c (List.mem_cons_of_mem b hc))
      rw [List.append_assoc, List.singleton_append, List.length_append,
        List.length_singleton] at hih
      rw [List.length_cons, ← Nat.add_assoc, scan, if_pos (by omega), hb]
      dsimp only
      rw [if_pos (hall b List.mem_cons_self), List.cons_append, hih]
      congr 1
      omega

/-- **All characters are accepted.** -/
theorem scan_all {t : List Byte} (rest : List Byte) (hall : ∀ b ∈ t, accepted b = true) :
    scan (t ++ rest) t.length (t.length + 1) 0 = .ok (false, t.length) := by
  have h := scan_accepted [] rest t.length 1 (by simp) hall
  rw [List.nil_append, List.length_nil, Nat.zero_add, Nat.add_comm 1] at h
  rw [h, scan, if_neg (Nat.lt_irrefl _)]

/-- **One character is not accepted**: the loop ends behind the first such. -/
theorem scan_bad {t : List Byte} {c : Byte} (rest : List Byte) {len : ℕ} (hlen : t.length < len)
    (hall : ∀ b ∈ t, accepted b = true) (hc : accepted c = false) :
    scan (t ++ c :: rest) len (len + 1) 0 = .ok (true, t.length + 1) := by
  obtain ⟨k, rfl⟩ := Nat.exists_eq_add_of_lt hlen
  have h := scan_accepted [] (c :: rest) (t.length + k + 1) (k + 2) (by simp; omega) hall
  rw [List.nil_append, List.length_nil, Nat.zero_add] at h
  rw [show t.length + k + 1 + 1 = k + 2 + t.length by omega, h, scan, if_pos (by omega)]
  simp [hc]

/-- A command is not cut off. -/
theorem snprintf_eq {p : List Byte} (hp : p.length < patSize) : snprintf p = command p := by
  have hlen : (front ++ p ++ back).length ≤ pcmdBufSize - 1 := by
    unfold pcmdBufSize
    simp only [List.length_append]
    omega
  exact List.take_of_length_le hlen

/-- **What is done about a pattern in the buffer**, when nothing but accepted characters stands
between it and the end of what is checked. -/
theorem check_eq {p fill t : List Byte} (hstr : str (p ++ (fill ++ t)) = .ok p)
    (hfill : ∀ b ∈ fill, accepted b = true) (hlen : p.length < patSize) :
    check (p ++ (fill ++ t)) (p.length + fill.length) = .ok [verdict p] := by
  have hp : ∀ b ∈ p, valid b = accepted b := by
    intro b hb
    refine valid_eq_accepted ?_
    rintro rfl
    exact nul_notMem_of_str hstr hb
  cases hfind : p.find? fun b => !valid b with
  | none =>
      have hall : ∀ b ∈ p ++ fill, accepted b = true := by
        intro b hb
        rcases List.mem_append.1 hb with hb | hb
        · have hvalid := List.find?_eq_none.1 hfind b hb
          rw [← hp b hb]
          simpa using hvalid
        · exact hfill b hb
      have hscan := scan_all t hall
      rw [List.append_assoc, List.length_append] at hscan
      rw [check, hscan, Outcome.bind_ok, verdict, hfind]
      simp only [Bool.false_eq_true, if_false]
      rw [hstr, Outcome.bind_ok, snprintf_eq hlen]
      rfl
  | some c =>
      obtain ⟨hc, as, bs, rfl, has⟩ := List.find?_eq_some_iff_append.1 hfind
      have hall : ∀ b ∈ as, accepted b = true := by
        intro b hb
        rw [← hp b (List.mem_append.2 (Or.inl hb))]
        simpa using has b hb
      have hbad : accepted c = false := by
        rw [← hp c (by simp)]
        simpa using hc
      have hlt : as.length < (as ++ c :: bs).length + fill.length := by
        rw [List.length_append, List.length_cons]
        omega
      have hscan := scan_bad (bs ++ (fill ++ t)) hlt hall hbad
      rw [List.append_assoc, List.cons_append]
      rw [check, hscan, Outcome.bind_ok, verdict, hfind]
      simp

/-- **What is done about a line in the buffer.** -/
theorem treat_eq {s t : List Byte} (hs : nul ∉ s) (hlen : (s ++ nul :: t).length = patSize) :
    ∃ pat, treat (s ++ nul :: t) = .ok (pat, if s.length ≤ 1 then [] else [verdict (strip s)]) ∧
      pat.length = patSize := by
  have hstr : str (s ++ nul :: t) = .ok s := str_append hs t
  have hsize : s.length < patSize := by
    rw [List.length_append, List.length_cons] at hlen
    omega
  by_cases hone : s.length ≤ 1
  · refine ⟨s ++ nul :: t, ?_, hlen⟩
    rw [treat, strlen, hstr, Outcome.bind_ok, Outcome.pure_eq, Outcome.bind_ok,
      if_pos hone, if_pos hone]
    rfl
  · rw [treat, strlen, hstr, Outcome.bind_ok, Outcome.pure_eq, Outcome.bind_ok,
      if_neg hone, if_neg hone]
    have hlast : (s ++ nul :: t)[s.length - 1]? = s.getLast? := by
      rw [List.getElem?_append_left (by omega), List.getLast?_eq_getElem?]
    rw [hlast]
    by_cases hnewline : s.getLast? = some newline
    · obtain ⟨p, rfl⟩ : ∃ p, s = p ++ [newline] :=
        ⟨s.dropLast, (List.dropLast_append_getLast? _ hnewline).symm⟩
      have hp : nul ∉ p := fun hmem => hs (List.mem_append.2 (Or.inl hmem))
      have hstore : store (p ++ [newline] ++ nul :: t) ((p ++ [newline]).length - 1) nul =
          .ok (p ++ ([nul] ++ nul :: t)) := by
        rw [List.append_assoc, List.singleton_append, List.length_append, List.length_singleton,
          Nat.add_sub_cancel, store_append]
        rfl
      have hplen : p.length < patSize := by
        rw [List.length_append, List.length_singleton] at hsize
        omega
      have hfill : ∀ b ∈ [nul], accepted b = true := by
        intro b hb
        rw [List.mem_singleton.1 hb]
        decide
      have hcheck : check (p ++ ([nul] ++ nul :: t)) (p.length + [nul].length) = .ok [verdict p] :=
        check_eq (str_append hp (nul :: t)) hfill hplen
      refine ⟨p ++ ([nul] ++ nul :: t), ?_, ?_⟩
      · rw [if_pos hnewline, hstore, Outcome.bind_ok, List.length_append, List.length_singleton]
        rw [List.length_singleton] at hcheck
        dsimp only
        rw [hcheck, strip, if_pos hnewline, List.dropLast_concat]
        rfl
      · simpa using hlen
    · have hcheck : check (s ++ ([] ++ nul :: t)) (s.length + [].length) = .ok [verdict s] :=
        check_eq hstr (by simp) hsize
      refine ⟨s ++ nul :: t, ?_, hlen⟩
      rw [if_neg hnewline, Outcome.bind_ok]
      rw [List.length_nil, Nat.add_zero, List.nil_append] at hcheck
      dsimp only
      rw [hcheck, strip, if_neg hnewline]
      rfl

/-! ### The loop -/

/-- The string that is in the buffer when `got` has been read. -/
theorem exists_string (got d : List Byte) :
    ∃ t, got ++ nul :: d = got.takeWhile (· ≠ nul) ++ nul :: t := by
  induction got with
  | nil => exact ⟨d, rfl⟩
  | cons b got ih =>
      by_cases hb : b = nul
      · exact ⟨got ++ nul :: d, by rw [List.takeWhile_cons_of_neg (by simp [hb]), hb]; rfl⟩
      · obtain ⟨t, ht⟩ := ih
        refine ⟨t, ?_⟩
        rw [List.takeWhile_cons_of_pos (by simp [hb]), List.cons_append, ht, List.cons_append]

theorem nul_notMem_takeWhile (got : List Byte) : nul ∉ got.takeWhile (· ≠ nul) := by
  intro hmem
  have hne := List.mem_takeWhile_imp hmem
  simp at hne

/-- **The loop treats the pieces one by one**, for every input. -/
theorem mainLoop_eq {input : Stream} {pat : List Byte} (hpat : pat.length = patSize)
    (events : List Event)
    {fuel : ℕ} (hfuel : input.rest.length < fuel) :
    mainLoop fuel input pat events = .ok (events ++ (pieces input.rest).flatMap eventOf) := by
  induction fuel generalizing input pat events with
  | zero => omega
  | succ fuel ih =>
      by_cases hrest : input.rest = []
      · rw [mainLoop, fgets_end hrest (by decide), hrest, pieces]
        simp
      · have hpos : 0 < (lineUpTo (patSize - 1) input.rest).length := lineUpTo_pos hrest
        have hmost := length_lineUpTo_le (patSize - 1) input.rest
        rw [pieces, dif_neg hrest, List.flatMap_cons]
        generalize hgot : lineUpTo (patSize - 1) input.rest = got at hpos hmost
        have hne : got ≠ [] := List.ne_nil_of_length_pos hpos
        have hroom : got.length < patSize := by
          unfold patSize at hmost ⊢
          omega
        have hlen : (got ++ nul :: pat.drop (got.length + 1)).length = patSize := by
          rw [List.length_append, List.length_cons, List.length_drop, hpat]
          omega
        obtain ⟨t, ht⟩ := exists_string got (pat.drop (got.length + 1))
        rw [ht] at hlen
        obtain ⟨pat', htreat, hpat'⟩ := treat_eq (nul_notMem_takeWhile got) hlen
        have hget : fgets patSize pat input = ⟨true, got.takeWhile (· ≠ nul) ++ nul :: t,
            (fgets patSize pat input).stream⟩ := by
          simp only [fgets, hgot, if_neg hne, ht]
        have hafter : (fgets patSize pat input).stream.rest = input.rest.drop got.length := by
          simp only [fgets, hgot, if_neg hne]
          exact List.drop_drop.symm
        have hfuel' : (fgets patSize pat input).stream.rest.length < fuel := by
          rw [hafter, List.length_drop]
          omega
        rw [mainLoop, hget, if_pos rfl]
        dsimp only
        rw [htreat, Outcome.bind_ok]
        dsimp only
        rw [ih hpat' _ hfuel', hafter, List.append_assoc, eventOf]

/-! ### Which commands are run -/

/-- The listing of one pattern, which consists of valid characters. -/
def ListsPattern (cmd : List Byte) : Prop :=
  ∃ p, p ≠ [] ∧ p.length < patSize ∧ (∀ b ∈ p, valid b = true) ∧ cmd = command p

/-- What is done about a line that fits into the buffer: an empty one is left out. -/
def lineEvent (l : List Byte) : List Event := if l = [] then [] else [verdict l]

theorem listsPattern_of_verdict {p cmd : List Byte} (hne : p ≠ []) (hlen : p.length < patSize)
    (h : verdict p = .popen cmd) : ListsPattern cmd := by
  unfold verdict at h
  split at h
  · cases h
  · next hnone =>
      cases h
      refine ⟨p, hne, hlen, fun b hb => ?_, rfl⟩
      have hvalid := List.find?_eq_none.1 hnone b hb
      simpa using hvalid

/-- Every piece of the input fits into the buffer. -/
theorem length_of_mem_pieces {bs piece : List Byte} (h : piece ∈ pieces bs) :
    piece.length < patSize := by
  induction bs using pieces.induct with
  | case1 => simp [pieces] at h
  | case2 bs hne ih =>
      rw [pieces, dif_neg hne, List.mem_cons] at h
      rcases h with rfl | h
      · have hmost := length_lineUpTo_le (patSize - 1) bs
        unfold patSize at hmost ⊢
        omega
      · exact ih h

/-- A command that comes of a piece is the listing of one pattern. -/
theorem listsPattern_of_mem {piece cmd : List Byte} (hlen : piece.length < patSize)
    (h : .popen cmd ∈ eventOf piece) : ListsPattern cmd := by
  have hs : (piece.takeWhile (· ≠ nul)).length ≤ piece.length :=
    (List.takeWhile_prefix _).length_le
  unfold eventOf at h
  dsimp only at h
  split at h
  · cases h
  · next hone =>
      have hverdict := (List.mem_singleton.1 h).symm
      unfold strip at hverdict
      split at hverdict
      · refine listsPattern_of_verdict (fun hnil => ?_) ?_ hverdict
        · have hzero := congrArg List.length hnil
          rw [List.length_dropLast, List.length_nil] at hzero
          omega
        · rw [List.length_dropLast]
          omega
      · refine listsPattern_of_verdict (fun hnil => ?_) (by omega) hverdict
        rw [hnil] at hone
        simp at hone

/-- A line that fits into the buffer is one piece. -/
theorem pieces_line {l : List Byte} (hl : newline ∉ l) (hlen : l.length + 1 < patSize)
    (t : List Byte) :
    pieces (l ++ newline :: t) = (l ++ [newline]) :: pieces t := by
  have hgot : lineUpTo (patSize - 1) (l ++ newline :: t) = l ++ [newline] :=
    lineUpTo_line hl (by omega) t
  have hsplit : l ++ newline :: t = (l ++ [newline]) ++ t := by simp
  have hdrop : (l ++ newline :: t).drop (l ++ [newline]).length = t := by
    rw [hsplit, List.drop_left]
  rw [pieces, dif_neg (by simp), hgot, hdrop]

theorem eventOf_line {l : List Byte} (hnul : nul ∉ l) :
    eventOf (l ++ [newline]) = lineEvent l := by
  have hs : (l ++ [newline]).takeWhile (· ≠ nul) = l ++ [newline] := by
    rw [List.takeWhile_eq_self_iff]
    intro b hb
    rw [decide_eq_true_eq]
    rintro rfl
    rcases List.mem_append.1 hb with hb | hb
    · exact hnul hb
    · exact newline_ne_nul (List.mem_singleton.1 hb).symm
  have hstrip : strip (l ++ [newline]) = l := by
    rw [strip, if_pos (by simp), List.dropLast_concat]
  unfold eventOf lineEvent
  dsimp only
  rw [hs, hstrip, List.length_append, List.length_singleton]
  by_cases hnil : l = []
  · simp [hnil]
  · have hpos := List.length_pos_iff.2 hnil
    rw [if_neg (by omega), if_neg hnil]

/-- **No other command is ever run.**  Whatever the input is, the program reads it to its end, and
every command that it hands to the shell is the listing of one pattern, whole and with valid
characters only.  On an input of lines that fit into the buffer it lists the valid patterns in their
order, and complains about the first bad character of each other line that is not empty. -/
theorem runs_valid_patterns (input : List Byte) {pat : List Byte} (hpat : pat.length = patSize) :
    ∃ events, mainLoop (input.length + 1) (fopen input) pat [] = .ok events ∧
      (∀ cmd, .popen cmd ∈ events → ListsPattern cmd) ∧
      ∀ ls : List (List Byte), (∀ l ∈ ls, newline ∉ l ∧ nul ∉ l ∧ l.length + 1 < patSize) →
        input = ls.flatMap (· ++ [newline]) → events = ls.flatMap lineEvent := by
  refine ⟨(pieces input).flatMap eventOf, ?_, fun cmd hcmd => ?_, fun ls hls hinput => ?_⟩
  · exact mainLoop_eq hpat [] (Nat.lt_succ_self input.length)
  · obtain ⟨piece, hpiece, hmem⟩ := List.mem_flatMap.1 hcmd
    exact listsPattern_of_mem (length_of_mem_pieces hpiece) hmem
  · subst hinput
    induction ls with
    | nil => simp [pieces]
    | cons l ls ih =>
        obtain ⟨hnl, hnul, hlen⟩ := hls l List.mem_cons_self
        rw [List.flatMap_cons, List.append_assoc, List.singleton_append, pieces_line hnl hlen,
          List.flatMap_cons, eventOf_line hnul, ih fun l' hl' =>
          hls l' (List.mem_cons_of_mem l hl'), List.flatMap_cons]

/-- A pattern, one that would run another command, and an empty line. -/
theorem runs_valid_patterns_rm :
    ∃ events, mainLoop ((lit "*.c\n; rm x\n\n").length + 1) (fopen (lit "*.c\n; rm x\n\n"))
        (List.replicate patSize nul) [] = .ok events ∧
      events = [.popen (lit "/bin/ls -d *.c 2> /dev/null"), .bad 59] := by
  have hpat : (List.replicate patSize nul).length = patSize := List.length_replicate
  obtain ⟨events, hrun, -, hlines⟩ := runs_valid_patterns (lit "*.c\n; rm x\n\n") hpat
  exact ⟨events, hrun, (hlines [lit "*.c", lit "; rm x", []] (by decide) (by decide)).trans
    (by decide)⟩

end PopenGlob
