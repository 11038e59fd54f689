/-
**What `convert` writes.**

A text in the format of `convert.c` is a sequence of entries, each a word, the lines of its
definition and at least one blank line, behind any number of blank lines.  An entry whose word and
definition fit into the fields of a record is turned into one record.

Main definitions:

* `Dict.Entry` — an entry that fits into a record;
* `Dict.text` — the text in which the entries stand;
* `Dict.Entry.record` — the record of an entry;
* `Dict.Passage` — an entry without the blank lines behind it.

Main results:

* `Dict.defLoop_linesOf` — the inner loop collects the lines of a definition;
* `Dict.convertLoop_text` — **the main loop writes the record of every entry, in order**;
* `Dict.convert_nil` — from the empty text nothing but the empty file can come;
* `Dict.file_eq_records` — the file that `convert` has written consists of the records.
-/

import NetSysProg.DictModel

set_option relaxedAutoImplicit false
set_option autoImplicit false

namespace Dict

open CString Stdio

/-! ### The format -/

/-- Lines, each with its newline. -/
def linesOf (ls : List (List Byte)) : List Byte := ls.flatMap (· ++ [newline])

@[simp] theorem linesOf_nil : linesOf [] = [] := rfl

@[simp] theorem linesOf_cons (l : List Byte) (ls : List (List Byte)) :
    linesOf (l :: ls) = l ++ newline :: linesOf ls := by
  simp [linesOf]

/-- The bytes of a line that is not blank. -/
structure IsLine (l : List Byte) : Prop where
  ne_nil : l ≠ []
  newline_notMem : newline ∉ l
  nul_notMem : nul ∉ l

/-- A word with its definition, both of a size that fits into a record, and the number of blank
lines that follow the one behind the definition. -/
structure Entry where
  word : List Byte
  defs : List (List Byte)
  moreBlanks : ℕ
  isLine_word : IsLine word
  word_length : word.length ≤ WORD - 1
  defs_ne_nil : defs ≠ []
  isLine_defs : ∀ l ∈ defs, IsLine l
  defs_length : (linesOf defs).length ≤ TEXT - 1

/-- A word with its definition, both of a size that fits into a record.  Unlike that of an entry,
the definition may have no line. -/
structure Passage where
  word : List Byte
  defs : List (List Byte)
  isLine_word : IsLine word
  word_length : word.length ≤ WORD - 1
  isLine_defs : ∀ l ∈ defs, IsLine l
  defs_length : (linesOf defs).length ≤ TEXT - 1

/-- The record of a passage: the word with its newline, and the lines with one more newline. -/
def Passage.record (p : Passage) : List Byte :=
  pad WORD (p.word ++ [newline]) ++ pad TEXT (linesOf p.defs ++ [newline])

theorem Passage.length_record (p : Passage) : p.record.length = WORD + TEXT := by
  obtain ⟨hW, hT, -⟩ := sizes
  have hword : (p.word ++ [newline]).length ≤ WORD := by
    have h := p.word_length
    rw [List.length_append, List.length_singleton]
    omega
  have hdefs : (linesOf p.defs ++ [newline]).length ≤ TEXT := by
    have h := p.defs_length
    rw [List.length_append, List.length_singleton]
    omega
  rw [record, List.length_append, length_pad hword, length_pad hdefs]

namespace Entry

/-- The lines of an entry. -/
def bytes (e : Entry) : List Byte :=
  e.word ++ newline :: (linesOf e.defs ++ newline :: List.replicate e.moreBlanks newline)

/-- The record of an entry: the word with its newline, and the lines with one more newline. -/
def record (e : Entry) : List Byte :=
  pad WORD (e.word ++ [newline]) ++ pad TEXT (linesOf e.defs ++ [newline])

/-- An entry without the blank lines behind it. -/
def passage (e : Entry) : Passage :=
  ⟨e.word, e.defs, e.isLine_word, e.word_length, e.isLine_defs, e.defs_length⟩

end Entry

/-- **The dictionary text**: blank lines and then the entries. -/
def text (blanks : ℕ) (entries : List Entry) : List Byte :=
  List.replicate blanks newline ++ entries.flatMap Entry.bytes

/-- The records of the entries. -/
def records (entries : List Entry) : List Byte := entries.flatMap Entry.record

@[simp] theorem records_nil : records [] = [] := rfl

@[simp] theorem records_cons (e : Entry) (entries : List Entry) :
    records (e :: entries) = e.record ++ records entries := rfl

theorem records_eq (entries : List Entry) :
    records entries = (entries.map Entry.passage).flatMap Passage.record :=
  (List.flatMap_map Entry.passage Passage.record entries).symm

theorem text_succ (blanks : ℕ) (entries : List Entry) :
    text (blanks + 1) entries = newline :: text blanks entries := rfl

theorem text_zero_cons (e : Entry) (entries : List Entry) :
    text 0 (e :: entries) =
      e.word ++ newline :: (linesOf e.defs ++ newline :: text e.moreBlanks entries) := by
  simp [text, Entry.bytes]

/-! ### The line buffer -/

/-- The buffer of a line that has just been read. -/
def lineBuf (l buf : List Byte) : List Byte := l ++ newline :: nul :: buf.drop (l.length + 2)

theorem length_lineBuf {l buf : List Byte} (hl : l.length + 2 ≤ BIGLINE)
    (hbuf : buf.length = BIGLINE) : (lineBuf l buf).length = BIGLINE := by
  rw [lineBuf, length_line_buffer (by omega), hbuf]

theorem length_lineBuf_nil {buf : List Byte} (hbuf : buf.length = BIGLINE) :
    (lineBuf [] buf).length = BIGLINE := length_lineBuf (by decide) hbuf

theorem str_lineBuf {l : List Byte} (hl : nul ∉ l) (buf : List Byte) :
    str (lineBuf l buf) = .ok (l ++ [newline]) := by
  have hnul : nul ∉ l ++ [newline] := by simp [hl, newline_ne_nul.symm]
  rw [lineBuf, ← str_append hnul (buf.drop (l.length + 2)), List.append_assoc,
    List.singleton_append]

theorem lineBuf_nil (buf : List Byte) : (lineBuf [] buf).head? = some newline := rfl

theorem lineBuf_head_ne {l : List Byte} (hl : IsLine l) (buf : List Byte) :
    (lineBuf l buf).head? ≠ some newline := by
  cases l with
  | nil => exact absurd rfl hl.ne_nil
  | cons b bs =>
      intro h
      exact hl.newline_notMem (by simpa [lineBuf, eq_comm] using Or.inl h)

theorem fgets_lineBuf {s : Stream} {l t : List Byte} (h : s.rest = l ++ newline :: t)
    (hl : newline ∉ l) (hlen : l.length + 1 < BIGLINE) (buf : List Byte) :
    fgets BIGLINE buf s = ⟨true, lineBuf l buf, s.advance (l.length + 1)⟩ :=
  fgets_line h hl hlen buf

theorem fgets_blank {s : Stream} {t : List Byte} (h : s.rest = newline :: t) (buf : List Byte) :
    fgets BIGLINE buf s = ⟨true, lineBuf [] buf, s.advance 1⟩ :=
  fgets_lineBuf h List.not_mem_nil (by decide) buf

theorem fgets_eof {s : Stream} (h : s.rest = []) (buf : List Byte) :
    fgets BIGLINE buf s = ⟨false, buf, { s with eof := true }⟩ := fgets_end h (by decide) buf

theorem rest_after_line {s : Stream} {l t : List Byte} (h : s.rest = l ++ newline :: t) :
    (s.advance (l.length + 1)).rest = t := by
  have h' : s.rest = (l ++ [newline]) ++ t := by
    rw [h, List.append_assoc, List.singleton_append]
  simpa only [List.length_append, List.length_singleton] using Stream.rest_advance h'

/-! ### The loops -/

/-- **The inner loop.**  When the lines of a definition and a blank line are about to be read, it
collects the former and leaves the latter in the buffer. -/
theorem defLoop_linesOf (defs : List (List Byte)) (fuel : ℕ) (input : Stream)
    (line done : List Byte) {rest : List Byte}
    (hrest : input.rest = linesOf defs ++ newline :: rest)
    (hdefs : ∀ l ∈ defs, IsLine l) (hline : line.length = BIGLINE)
    (hdone : (done ++ linesOf defs).length ≤ TEXT - 1) (hfuel : defs.length < fuel) :
    ∃ line', line'.length = BIGLINE ∧ line'.head? = some newline ∧
      defLoop fuel (fgets BIGLINE line input).stream (fgets BIGLINE line input).buf (pad TEXT done)
          done.length =
        .ok (input.advance ((linesOf defs).length + 1), line', pad TEXT (done ++ linesOf defs),
          (done ++ linesOf defs).length) := by
  obtain ⟨-, hT, hB⟩ := sizes
  induction defs generalizing fuel input line done with
  | nil =>
      obtain ⟨fuel, rfl⟩ : ∃ m, fuel = m + 1 := ⟨fuel - 1, by omega⟩
      have hget : fgets BIGLINE line input = _ := fgets_blank hrest line
      refine ⟨lineBuf [] line, length_lineBuf_nil hline, lineBuf_nil line, ?_⟩
      simp only [hget, defLoop, linesOf_nil, lineBuf_nil, if_true, List.append_nil, List.length_nil,
        Nat.zero_add]
  | cons l ls ih =>
      rw [List.length_cons] at hfuel
      obtain ⟨fuel, rfl⟩ : ∃ m, fuel = m + 1 := ⟨fuel - 1, by omega⟩
      have hl : IsLine l := hdefs l (by simp)
      have hassoc : done ++ linesOf (l :: ls) = done ++ (l ++ [newline]) ++ linesOf ls := by simp
      rw [hassoc] at hdone ⊢
      have hlen : (done ++ (l ++ [newline])).length = done.length + (l ++ [newline]).length :=
        List.length_append
      have hlen' : (linesOf (l :: ls)).length = l.length + 1 + (linesOf ls).length := by
        rw [linesOf_cons, List.length_append, List.length_cons]
        omega
      have hlen'' : (l ++ [newline]).length = l.length + 1 := by simp
      rw [List.length_append, hlen, hlen''] at hdone
      rw [linesOf_cons, List.append_assoc, List.cons_append] at hrest
      have hget := fgets_lineBuf hrest hl.newline_notMem (by omega) line
      obtain ⟨line', hline', hnl, hloop⟩ := ih fuel (input.advance (l.length + 1))
        (lineBuf l line) (done ++ (l ++ [newline])) (rest_after_line hrest)
        (fun x hx => hdefs x (by simp [hx])) (length_lineBuf (by omega) hline)
        (by rw [List.length_append, hlen, hlen'']; omega) (by omega)
      refine ⟨line', hline', hnl, ?_⟩
      simp only [hget, defLoop, if_neg (lineBuf_head_ne hl line), str_lineBuf hl.nul_notMem,
        Outcome.bind_ok]
      rw [copyAt_pad (by omega), Outcome.bind_ok, ← hlen, hlen', hloop, Stream.advance_advance,
        Nat.add_assoc (l.length + 1)]

/-- The main loop skips a blank line. -/
theorem convertLoop_blank {input : Stream} {rest : List Byte} (hrest : input.rest = newline :: rest)
    (heof : input.eof = false) (fuel : ℕ) (line : List Byte) (dr : Dictrec) (out : List Byte) :
    convertLoop (fuel + 1) input line dr out =
      convertLoop fuel (input.advance 1) (lineBuf [] line) dr out := by
  have hget : fgets BIGLINE line input = ⟨true, lineBuf [] line, input.advance 1⟩ :=
    fgets_blank hrest line
  simp only [convertLoop, feof, heof, hget, lineBuf_nil, if_true, Bool.false_eq_true, if_false]

theorem rest_after_newline {s : Stream} {t : List Byte} (h : s.rest = newline :: t) :
    (s.advance 1).rest = t :=
  Stream.rest_advance (show s.rest = [newline] ++ t from h)

/-- One iteration of the main loop writes the record of a word and the lines of its definition, when
both fit. -/
theorem convertLoop_entry {w : List Byte} {defs : List (List Byte)} (hw : IsLine w)
    (hword : w.length ≤ WORD - 1) (hlines : ∀ l ∈ defs, IsLine l)
    (hdefs : (linesOf defs).length ≤ TEXT - 1) {input : Stream} {rest : List Byte}
    (hrest : input.rest = w ++ newline :: (linesOf defs ++ newline :: rest))
    (heof : input.eof = false) {fuel : ℕ} (hfuel : defs.length < fuel) {line : List Byte}
    (hline : line.length = BIGLINE) (out : List Byte) :
    ∃ line' input', line'.length = BIGLINE ∧ line'.head? = some newline ∧ input'.eof = false ∧
      input'.rest = rest ∧
      convertLoop (fuel + 1) input line blank out = convertLoop fuel input' line' blank
        (out ++ (pad WORD (w ++ [newline]) ++ pad TEXT (linesOf defs ++ [newline]))) := by
  obtain ⟨hW, hT, hB⟩ := sizes
  have hget := fgets_lineBuf hrest hw.newline_notMem (by omega) line
  have hrest' := rest_after_line hrest
  obtain ⟨line', hline', hnl, hloop⟩ := defLoop_linesOf defs fuel _ (lineBuf w line) []
    hrest' hlines (length_lineBuf (by omega) hline) hdefs hfuel
  have hcopy : copyAt blank.word 0 (w ++ [newline]) = .ok (pad WORD (w ++ [newline])) :=
    @copyAt_pad WORD [] (w ++ [newline])
      (by simp only [List.length_append, List.length_nil, List.length_singleton]; omega)
  refine ⟨line', (input.advance (w.length + 1)).advance ((linesOf defs).length + 1), hline',
    hnl, heof, rest_after_line hrest', ?_⟩
  rw [List.nil_append] at hloop
  simp only [convertLoop, feof, heof, hget, if_neg (lineBuf_head_ne hw line),
    str_lineBuf hw.nul_notMem, Outcome.bind_ok, Bool.false_eq_true, if_false, hcopy]
  rw [show blank.text = pad TEXT [] from rfl, ← List.length_nil, hloop, Outcome.bind_ok]
  dsimp only
  rw [store_pad (by omega), Outcome.bind_ok]

/-- At the end of a text that did not end in the middle of an entry the main loop ends. -/
theorem convertLoop_end {input : Stream} (hrest : input.rest = []) (heof : input.eof = false)
    {line : List Byte} (hnl : line.head? = some newline) (fuel : ℕ) (dr : Dictrec)
    (out : List Byte) : convertLoop (fuel + 2) input line dr out = .ok out := by
  simp only [convertLoop, feof, heof, fgets_eof hrest, hnl, if_true,
    Bool.false_eq_true, if_false]

theorem length_le_linesOf (ls : List (List Byte)) : ls.length ≤ (linesOf ls).length := by
  induction ls with
  | nil => rfl
  | cons l ls ih =>
      rw [linesOf_cons, List.length_append, List.length_cons, List.length_cons]
      omega

/-- The main loop writes the records of the entries, wherever it is in front of the text. -/
def WritesRecords (blanks : ℕ) (entries : List Entry) : Prop :=
  ∀ (fuel : ℕ) (input : Stream) (line out : List Byte), input.rest = text blanks entries →
    input.eof = false → line.length = BIGLINE →
    (text blanks entries = [] → line.head? = some newline) →
    (text blanks entries).length + 2 ≤ fuel →
    convertLoop fuel input line blank out = .ok (out ++ records entries)

/-- Blank lines in front of the text are passed over. -/
theorem WritesRecords.of_zero {entries : List Entry} (h : WritesRecords 0 entries) (blanks : ℕ) :
    WritesRecords blanks entries := by
  induction blanks with
  | zero => exact h
  | succ blanks ih =>
      intro fuel input line out hrest heof hline _ hfuel
      rw [text_succ] at hrest hfuel
      rw [List.length_cons] at hfuel
      obtain ⟨fuel, rfl⟩ : ∃ m, fuel = m + 1 := ⟨fuel - 1, by omega⟩
      rw [convertLoop_blank hrest heof]
      exact ih _ _ _ _ (rest_after_newline hrest) heof (length_lineBuf_nil hline)
        (fun _ => lineBuf_nil line) (by omega)

/-- **The main loop writes the record of every entry**, in the order of the text. -/
theorem convertLoop_text (blanks : ℕ) (entries : List Entry) : WritesRecords blanks entries := by
  induction entries generalizing blanks with
  | nil =>
      refine WritesRecords.of_zero ?_ blanks
      intro fuel input line out hrest heof _ hnl hfuel
      obtain ⟨fuel, rfl⟩ : ∃ m, fuel = m + 2 := ⟨fuel - 2, by omega⟩
      rw [convertLoop_end hrest heof (hnl rfl), records_nil, List.append_nil]
  | cons e entries ih =>
      refine WritesRecords.of_zero ?_ blanks
      intro fuel input line out hrest heof hline _ hfuel
      rw [text_zero_cons] at hrest hfuel
      have hdefs := length_le_linesOf e.defs
      simp only [List.length_append, List.length_cons] at hfuel
      obtain ⟨fuel, rfl⟩ : ∃ m, fuel = m + 1 := ⟨fuel - 1, by omega⟩
      obtain ⟨line', input', hline', hnl', heof', hrest', hstep⟩ :=
        convertLoop_entry e.isLine_word e.word_length e.isLine_defs e.defs_length hrest heof
          (by omega : e.defs.length < fuel) hline out
      rw [hstep, ih e.moreBlanks fuel input' line' _ hrest' heof' hline' (fun _ => hnl') (by omega),
        records_cons, List.append_assoc, Entry.record]

/-- **What `convert` writes** for a text that is not empty. -/
theorem convert_text {blanks : ℕ} {entries : List Entry} (h : text blanks entries ≠ []) {fuel : ℕ}
    (hfuel : (text blanks entries).length + 2 ≤ fuel) {line : List Byte}
    (hline : line.length = BIGLINE) :
    convert fuel line (text blanks entries) = .ok (records entries) :=
  convertLoop_text blanks entries fuel (fopen _) line [] rfl rfl hline (fun h' => absurd h' h) hfuel

/-! ### The empty text -/

/-- At the end of the file the inner loop never sees another line. -/
theorem defLoop_ne_ok {line : List Byte} (hnl : line.head? ≠ some newline) (fuel : ℕ)
    {input : Stream} (hrest : input.rest = []) (text : List Byte) (count : ℕ)
    (r : Stream × List Byte × List Byte × ℕ) : defLoop fuel input line text count ≠ .ok r := by
  induction fuel generalizing input text count with
  | zero => exact fun h => by cases h
  | succ fuel ih =>
      intro h
      rw [defLoop, if_neg hnl] at h
      obtain ⟨s, -, h⟩ := Outcome.bind_eq_ok.1 h
      obtain ⟨text', -, h⟩ := Outcome.bind_eq_ok.1 h
      rw [fgets_eof hrest] at h
      have hrest' : Stream.rest { input with eof := true } = [] := hrest
      exact ih hrest' text' _ h

/-- **From the empty text nothing is written**: what the array `line` happens to contain decides
whether `convert` ends at all, but no record can come of it. -/
theorem convert_nil {fuel : ℕ} {line out : List Byte} (h : convert fuel line [] = .ok out) :
    out = [] := by
  have hget : fgets BIGLINE line (fopen []) = ⟨false, line, { fopen [] with eof := true }⟩ :=
    fgets_eof rfl line
  cases fuel with
  | zero => cases h
  | succ fuel =>
      rw [convert, convertLoop, if_neg (by simp [feof, fopen]), hget] at h
      dsimp only at h
      by_cases hnl : line.head? = some newline
      · rw [if_pos hnl] at h
        cases fuel with
        | zero => cases h
        | succ fuel =>
            rw [convertLoop, if_pos (by rfl)] at h
            cases h
            rfl
      · rw [if_neg hnl] at h
        obtain ⟨s, -, h⟩ := Outcome.bind_eq_ok.1 h
        obtain ⟨word, -, h⟩ := Outcome.bind_eq_ok.1 h
        rw [fgets_eof rfl] at h
        obtain ⟨r, hr, -⟩ := Outcome.bind_eq_ok.1 h
        exact absurd hr (defLoop_ne_ok hnl fuel rfl _ _ r)

/-- **The file that `convert` has written** consists of the records of the entries. -/
theorem file_eq_records {blanks : ℕ} {entries : List Entry} {line : List Byte}
    (hline : line.length = BIGLINE) {fuel : ℕ} (hfuel : (text blanks entries).length + 2 ≤ fuel)
    {file : List Byte} (hfile : convert fuel line (text blanks entries) = .ok file) :
    file = records entries := by
  by_cases h : text blanks entries = []
  · -- no entry leaves no text
    have hentries : entries = [] := by
      cases entries with
      | nil => rfl
      | cons e entries => simp [text, Entry.bytes] at h
    rw [h] at hfile
    rw [convert_nil hfile, hentries, records_nil]
  · rw [convert_text h hfuel hline] at hfile
    cases hfile
    rfl

end Dict
