/-
**A session with the dictionary (`HW5/part3`).**

`main` asks for a word, reads it with `gets`, has `lookup` search for it and prints what has been
found; and it starts again, also when the input is at its end, where `gets` leaves the last word in
its buffer.  Here the loop is run on the file that `convert` writes, so that a session depends on
the text of the dictionary and on the input only: every question is answered by the first entry with
the word, and after the last one the same answer is printed again and again.

Main definitions:

* `Dict.gets`, `Dict.turn`, `Dict.turns` — reading a word, and the loop of `main`;
* `Dict.Question` — a line of the input that fits into the field for a word;
* `Dict.questions` — the words that the loop asks the dictionary for;
* `Dict.answerText` — what the entries determine to be printed for a word.

Main results:

* `Dict.lookup_word` — `lookup` leaves the word as it is;
* `Dict.turn_asked`, `Dict.turn_end` — one turn of the loop, before and at the end of the input;
* `Dict.session` — **what a session prints**, from the text of the dictionary to the answers.
-/

import NetSysProg.DictRoundTrip

set_option relaxedAutoImplicit false
set_option autoImplicit false

namespace Dict

open CString Stdio

/-! ### `main.c` -/

/-- `gets`: the buffer and the input behind the line; at the end of the input the buffer is left as
it is. -/
def gets (buf input : List Byte) : Outcome (List Byte × List Byte) :=
  if input = [] then .ok (buf, [])
  else do
    let line := input.takeWhile (· ≠ newline)
    let buf ← copyAt buf 0 (line ++ [nul])
    return (buf, input.drop (line.length + 1))

/-- The `static` variables of `lookup`, `tryit`, what is left of the standard input, and what has
been printed. -/
structure Session where
  statics : Statics
  tryit : Dictrec
  stdin : List Byte
  stdout : List Byte

/-- `"What word do you want : "` -/
def prompt : List Byte := lit "What word do you want : "

/-- What is printed after a call of `lookup`. -/
def report (status : Status) (tryit : Dictrec) : Outcome (List Byte) :=
  match status with
  | .found => do
      let word ← str tryit.word
      let text ← str tryit.text
      return word ++ lit " : " ++ text ++ [newline]
  | .notFound => do
      let word ← str tryit.word
      return word ++ lit " : Not Found!" ++ [newline]

/-- One turn of the loop; `line` is what the array of that name in `lookup` contains at the
start. -/
def turn (fuel : ℕ) (resource : String) (file : Option (List Byte)) (line : List Byte)
    (s : Session) :
    Outcome Session := do
  let (word, stdin) ← gets s.tryit.word s.stdin
  let (status, tryit, statics) ← lookup fuel resource file line s.statics
    { s.tryit with word := word }
  let printed ← report status tryit
  return ⟨statics, tryit, stdin, s.stdout ++ prompt ++ printed⟩

/-- One turn for each element of `lines`. -/
def turns (fuel : ℕ) (resource : String) (file : Option (List Byte)) :
    List (List Byte) → Session → Outcome Session
  | [], s => .ok s
  | line :: lines, s => do
      let s ← turn fuel resource file line s
      turns fuel resource file lines s

/-! ### Questions and answers -/

/-- A line of the input that fits into the field for a word. -/
structure Question where
  bytes : List Byte
  newline_notMem : newline ∉ bytes
  nul_notMem : nul ∉ bytes
  length_lt : bytes.length < WORD

/-- The input in which these words are asked for, one in each line. -/
def asked (ws : List Question) : List Byte := ws.flatMap fun w => w.bytes ++ [newline]

/-- **What is printed for a word**: the definition of the first entry with this word. -/
def answerText (entries : List Entry) (word : List Byte) : List Byte :=
  match entries.find? (fun e => e.word = word) with
  | some e => word ++ lit " : " ++ joined e.defs ++ [newline]
  | none => word ++ lit " : Not Found!" ++ [newline]

/-- The words that `n` turns ask the dictionary for, when `w` has been asked for last. -/
def questions (w : Question) : List Question → ℕ → List Question
  | _, 0 => []
  | [], n + 1 => w :: questions w [] n
  | v :: ws, n + 1 => v :: questions v ws n

/-- What a session prints for a list of questions. -/
def transcript (entries : List Entry) (ws : List Question) : List Byte :=
  ws.flatMap fun w => prompt ++ answerText entries w.bytes

/-! ### `lookup` leaves the word alone -/

theorem readText_word {fuel : ℕ} {input : Stream} {line : List Byte} {sought : Dictrec}
    {r : Status × Dictrec × Stream} (h : readText fuel input line sought = .ok r) :
    r.2.1.word = sought.word := by
  unfold readText at h
  obtain ⟨len, -, h⟩ := Outcome.bind_eq_ok.1 h
  obtain ⟨c, -, h⟩ := Outcome.bind_eq_ok.1 h
  obtain ⟨p, -, h⟩ := Outcome.bind_eq_ok.1 h
  obtain ⟨find, -, h⟩ := Outcome.bind_eq_ok.1 h
  obtain ⟨text, -, h⟩ := Outcome.bind_eq_ok.1 h
  cases h
  rfl

theorem searchLoop_keeps {fuel : ℕ} {input : Stream} {line : List Byte} {sought : Dictrec}
    {r : Status × Dictrec × Stream} (h : searchLoop fuel input line sought = .ok r) :
    r.2.1.word = sought.word := by
  induction fuel generalizing input line with
  | zero => cases h
  | succ fuel ih =>
      rw [searchLoop] at h
      split at h
      · obtain ⟨i, -, h⟩ := Outcome.bind_eq_ok.1 h
        obtain ⟨line', -, h⟩ := Outcome.bind_eq_ok.1 h
        obtain ⟨result, -, h⟩ := Outcome.bind_eq_ok.1 h
        split at h
        · exact readText_word h
        · obtain ⟨len, -, h⟩ := Outcome.bind_eq_ok.1 h
          exact ih h
      · cases h
        rfl

/-- **`lookup` leaves the word as it is.** -/
theorem lookup_word {fuel : ℕ} {resource : String} {file : Option (List Byte)} {line : List Byte}
    {statics : Statics} {sought : Dictrec} {r : Status × Dictrec × Statics}
    (h : lookup fuel resource file line statics sought = .ok r) : r.2.1.word = sought.word := by
  unfold lookup at h
  obtain ⟨input, -, h⟩ := Outcome.bind_eq_ok.1 h
  obtain ⟨found, hfound, h⟩ := Outcome.bind_eq_ok.1 h
  cases h
  have hkeeps := searchLoop_keeps hfound
  exact hkeeps

/-! ### One turn -/

theorem gets_line {buf : List Byte} (w : Question) (rest : List Byte) (hbuf : buf.length = WORD) :
    ∃ buf', gets buf (w.bytes ++ newline :: rest) = .ok (buf', rest) ∧ str buf' = .ok w.bytes ∧
      buf'.length = WORD := by
  have hne : w.bytes ++ newline :: rest ≠ [] := by simp
  have hline : (w.bytes ++ newline :: rest).takeWhile (· ≠ newline) = w.bytes :=
    takeWhile_append_cons w.newline_notMem rest
  have hdrop : (w.bytes ++ newline :: rest).drop (w.bytes.length + 1) = rest := by
    rw [← List.singleton_append, ← List.append_assoc]
    exact List.drop_left' (by simp)
  have hfits : (w.bytes ++ [nul]).length ≤ buf.length := by
    have hlt := w.length_lt
    rw [List.length_append, List.length_singleton]
    omega
  have hcopy := copyAt_append [] hfits
  rw [List.nil_append, List.nil_append, List.length_nil] at hcopy
  refine ⟨w.bytes ++ [nul] ++ buf.drop (w.bytes ++ [nul]).length, ?_, ?_, ?_⟩
  · rw [gets, if_neg hne, hline]
    dsimp only
    rw [hcopy, Outcome.bind_ok, hdrop]
    rfl
  · rw [List.append_assoc, List.singleton_append, str_append w.nul_notMem]
  · rw [List.length_append, List.length_drop]
    omega

/-- **A turn in which the word is `w`**, wherever `gets` has got it from. -/
theorem turn_answers {entries : List Entry} {fuel : ℕ} (hfuel : (records entries).length < fuel)
    (resource : String) {line : List Byte} (hline : line.length = BIGLINE)
    {s : Session} {w : Question}
    {word stdin : List Byte} (hgets : gets s.tryit.word s.stdin = .ok (word, stdin))
    (hword : str word = .ok w.bytes) (hlength : word.length = WORD)
    (hstatics : s.statics.Opened (records entries)) :
    ∃ s', turn fuel resource (some (records entries)) line s = .ok s' ∧ s'.stdin = stdin ∧
      str s'.tryit.word = .ok w.bytes ∧ s'.tryit.word.length = WORD ∧
      s'.statics.Opened (records entries) ∧
      s'.stdout = s.stdout ++ (prompt ++ answerText entries w.bytes) := by
  let q : Query := ⟨w.bytes, { s.tryit with word := word }, line, hword, hlength, hline⟩
  obtain ⟨answer, statics, hlookup, hanswer, hopened⟩ :=
    lookup_records entries q hstatics resource hfuel
  have hkeeps : answer.2.word = word := lookup_word hlookup
  have hreport : report answer.1 answer.2 = .ok (answerText entries w.bytes) := by
    unfold Answers at hanswer
    unfold answerText
    split at hanswer
    · next e he =>
        obtain ⟨hfound, -, htext⟩ := hanswer
        change entries.find? (fun e => e.word = w.bytes) = some e at he
        rw [he, hfound, report, hkeeps, hword, Outcome.bind_ok, htext]
        rfl
    · next he =>
        change entries.find? (fun e => e.word = w.bytes) = none at he
        rw [he, hanswer, report, hkeeps, hword]
        rfl
  refine ⟨⟨statics, answer.2, stdin, s.stdout ++ prompt ++ answerText entries w.bytes⟩, ?_, rfl,
    by rw [hkeeps, hword], by rw [hkeeps, hlength], hopened, List.append_assoc _ _ _⟩
  rw [turn, hgets, Outcome.bind_ok]
  change (lookup fuel resource (some (records entries)) line s.statics
    { s.tryit with word := word } >>= _) = _
  rw [show lookup fuel resource (some (records entries)) line s.statics
    { s.tryit with word := word } =
    .ok (answer.1, answer.2, statics) from hlookup, Outcome.bind_ok]
  change (report answer.1 answer.2 >>= _) = _
  rw [hreport]
  rfl

/-! ### A session -/

/-- **The turns of a session.**  The questions that are left are asked one by one, and then the last
one again and again. -/
theorem turns_records {entries : List Entry} {fuel : ℕ} (hfuel : (records entries).length < fuel)
    (resource : String) (lines : List (List Byte)) (hlines : ∀ l ∈ lines, l.length = BIGLINE)
    {s : Session}
    {w : Question} {ws : List Question} (hstdin : s.stdin = asked ws)
    (hword : ws = [] → str s.tryit.word = .ok w.bytes) (hlength : s.tryit.word.length = WORD)
    (hstatics : s.statics.Opened (records entries)) :
    ∃ s', turns fuel resource (some (records entries)) lines s = .ok s' ∧
      s'.stdout = s.stdout ++ transcript entries (questions w ws lines.length) := by
  induction lines generalizing s w ws with
  | nil => exact ⟨s, rfl, by cases ws <;> simp [questions, transcript]⟩
  | cons line lines ih =>
      have hline : line.length = BIGLINE := hlines line List.mem_cons_self
      have hrest : ∀ l ∈ lines, l.length = BIGLINE :=
        fun l hl => hlines l (List.mem_cons_of_mem _ hl)
      cases ws with
      | nil =>
          have hgets : gets s.tryit.word s.stdin = .ok (s.tryit.word, []) := by
            rw [hstdin]
            exact if_pos rfl
          obtain ⟨s₁, hturn, hstdin₁, hword₁, hlength₁, hstatics₁, hout₁⟩ :=
            turn_answers hfuel resource hline hgets (hword rfl) hlength hstatics
          have hnone : s₁.stdin = asked [] := hstdin₁
          obtain ⟨s', hturns, hout⟩ := ih hrest hnone (fun _ => hword₁) hlength₁ hstatics₁
          refine ⟨s', by rw [turns, hturn, Outcome.bind_ok, hturns], ?_⟩
          rw [hout, hout₁, List.length_cons, questions, transcript, transcript, List.flatMap_cons,
            List.append_assoc]
      | cons v ws =>
          have hstdin' : s.stdin = v.bytes ++ newline :: asked ws := by
            rw [hstdin, asked, List.flatMap_cons, List.append_assoc]
            rfl
          obtain ⟨word, hgets, hstr, hlen⟩ := gets_line v (asked ws) hlength
          rw [← hstdin'] at hgets
          obtain ⟨s₁, hturn, hstdin₁, hword₁, hlength₁, hstatics₁, hout₁⟩ :=
            turn_answers hfuel resource hline hgets hstr hlen hstatics
          obtain ⟨s', hturns, hout⟩ := ih hrest hstdin₁ (fun _ => hword₁) hlength₁ hstatics₁
          refine ⟨s', by rw [turns, hturn, Outcome.bind_ok, hturns], ?_⟩
          rw [hout, hout₁, List.length_cons, questions, transcript, transcript, List.flatMap_cons,
            List.append_assoc]

/-- **What a session prints.**  On the file that `convert` writes for a text in its format, however
long the session goes on: every word of the input is answered by the first entry with this word, in
the order in which they are asked for, and at the end of the input the last one again in every
turn. -/
theorem session (blanks : ℕ) (entries : List Entry) {line : List Byte}
    (hline : line.length = BIGLINE)
    {fuel : ℕ} (hfuel : (text blanks entries).length + 2 ≤ fuel) {file : List Byte}
    (hfile : convert fuel line (text blanks entries) = .ok file) (resource : String) {fuel' : ℕ}
    (hfuel' : file.length < fuel') (tryit : Dictrec)
    (htryit : tryit.word.length = WORD) (w : Question)
    (ws : List Question) (lines : List (List Byte)) (hlines : ∀ l ∈ lines, l.length = BIGLINE) :
    ∃ s, turns fuel' resource (some file) lines ⟨.initial, tryit, asked (w :: ws), []⟩ = .ok s ∧
      s.stdout = transcript entries (questions w (w :: ws) lines.length) := by
  obtain rfl := file_eq_records hline hfuel hfile
  exact turns_records hfuel' resource lines hlines rfl (fun h => by cases h) htryit (Or.inl rfl)

/-- The word `ox`. -/
def oxQuestion : Question where
  bytes := [111, 120]
  newline_notMem := by decide
  nul_notMem := by decide
  length_lt := by decide

/-- One question, and three turns of the loop. -/
theorem session_oxQuestion :
    ∃ file s, convert 16 (List.replicate BIGLINE nul) (text 1 [oxEntry]) = .ok file ∧
      turns (file.length + 1) "fixrec" (some file) (List.replicate 3 (List.replicate BIGLINE nul))
        ⟨.initial, oxQuery.sought, asked [oxQuestion], []⟩ = .ok s ∧
      s.stdout = transcript [oxEntry] [oxQuestion, oxQuestion, oxQuestion] := by
  have hline : (List.replicate BIGLINE nul).length = BIGLINE := List.length_replicate
  have hfuel : (text 1 [oxEntry]).length + 2 ≤ 16 := by decide
  have hfile : convert 16 (List.replicate BIGLINE nul) (text 1 [oxEntry]) =
    .ok (records [oxEntry]) :=
    convert_text (by decide) hfuel hline
  have hlines : ∀ l ∈ List.replicate 3 (List.replicate BIGLINE nul), l.length = BIGLINE := by
    intro l hl
    rw [List.eq_of_mem_replicate hl]
    exact hline
  have hlt : (records [oxEntry]).length < (records [oxEntry]).length + 1 := Nat.lt_add_one _
  obtain ⟨s, hturns, hout⟩ := session 1 [oxEntry] hline hfuel hfile "fixrec" hlt
    oxQuery.sought oxQuery.word_length oxQuestion [] _ hlines
  rw [List.length_replicate] at hout
  exact ⟨records [oxEntry], s, hfile, hturns, hout⟩

end Dict
