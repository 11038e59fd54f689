/-
**The dictionary round trip.**

`lookup1.c` finds in the file that `convert` wrote exactly the words of the text, and returns the
lines of the first entry with the word.  The search keeps its place although the two programs share
no code: when the `i`-th record is about to be read the position is `i` records into the file, and
the two relative seeks lead from the end of the word to the start of the definition, or to the start
of the next record.

Main definitions:

* `Dict.Query` — what one call of `lookup` is given;
* `Dict.Answers` — the answer that the entries of the text determine.

Main results:

* `Dict.collectLoop_linesOf` — the definition is collected up to the newline behind it;
* `Dict.searchLoop_records` — **the search through a sequence of records**;
* `Dict.lookup_records` — one call, whatever the calls before it were;
* `Dict.roundTrip` — **every query on the file that `convert` writes from a text is answered by the
  entries of the text**.
-/

import NetSysProg.DictConvert

set_option relaxedAutoImplicit false
set_option autoImplicit false

namespace Dict

open CString Stdio

/-! ### Queries and answers -/

/-- One call of `lookup`: the word in the record that `sought` points to, and what the array `line`
contains at the start of the call. -/
structure Query where
  word : List Byte
  sought : Dictrec
  line : List Byte
  str_word : str sought.word = .ok word
  word_length : sought.word.length = WORD
  line_length : line.length = BIGLINE

/-- The definition lines joined by newlines, without a newline at the end. -/
def joined (defs : List (List Byte)) : List Byte := [newline].intercalate defs

/-- **The answer that the entries determine**: the first entry with the word has the definition that
is returned, and without such an entry the word is not found. -/
def Answers (entries : List Entry) (q : Query) (answer : Status × Dictrec) : Prop :=
  match entries.find? (fun e => e.word = q.word) with
  | some e =>
      answer.1 = .found ∧ answer.2.word = q.sought.word ∧ str answer.2.text = .ok (joined e.defs)
  | none => answer.1 = .notFound

theorem joined_newline {defs : List (List Byte)} (h : defs ≠ []) :
    joined defs ++ [newline] = linesOf defs := by
  induction defs with
  | nil => exact absurd rfl h
  | cons l ls ih =>
      cases ls with
      | nil => simp [joined]
      | cons l' ls =>
          have ih := ih (by simp)
          rw [linesOf_cons, ← ih]
          simp [joined, List.intercalate]

theorem nul_notMem_linesOf {ls : List (List Byte)} (h : ∀ l ∈ ls, IsLine l) :
    nul ∉ linesOf ls := by
  induction ls with
  | nil => simp
  | cons l ls ih =>
      have hl := (h l (by simp)).nul_notMem
      have hls := ih fun x hx => h x (by simp [hx])
      simp [hl, hls, newline_ne_nul.symm]

/-- The definition without its last newline, and a terminator, fit into the field. -/
theorem Passage.joined_fits (p : Passage) (hne : p.defs ≠ []) :
    nul ∉ joined p.defs ∧ (joined p.defs).length + 1 < TEXT := by
  obtain ⟨-, hT, -⟩ := sizes
  have hjoined := joined_newline hne
  have hdefs := p.defs_length
  have hnul := nul_notMem_linesOf p.isLine_defs
  rw [← hjoined] at hdefs hnul
  rw [List.length_append, List.length_singleton] at hdefs
  exact ⟨fun h => hnul (List.mem_append_left _ h), by omega⟩

/-! ### Collecting a definition -/

/-- **The definition of a record** is read line by line up to the newline that `convert` put behind
it. -/
theorem collectLoop_linesOf (defs : List (List Byte)) (fuel : ℕ) (input : Stream)
    (line done : List Byte) {rest : List Byte}
    (hrest : input.rest = linesOf defs ++ newline :: rest)
    (hdefs : ∀ l ∈ defs, IsLine l) (hdone : nul ∉ done)
    (hlen : (done ++ linesOf defs).length ≤ TEXT - 1) (hfuel : defs.length < fuel) :
    collectLoop fuel (fgets BIGLINE line input).stream (fgets BIGLINE line input).buf
        (pad TEXT done) =
      .ok (input.advance ((linesOf defs).length + 1), pad TEXT (done ++ linesOf defs)) := by
  obtain ⟨-, hT, hB⟩ := sizes
  induction defs generalizing fuel input line done with
  | nil =>
      obtain ⟨fuel, rfl⟩ : ∃ m, fuel = m + 1 := ⟨fuel - 1, by omega⟩
      have hget : fgets BIGLINE line input = _ := fgets_blank hrest line
      simp only [hget, collectLoop, linesOf_nil, lineBuf_nil, if_true, List.append_nil,
        List.length_nil, Nat.zero_add]
  | cons l ls ih =>
      rw [List.length_cons] at hfuel
      obtain ⟨fuel, rfl⟩ : ∃ m, fuel = m + 1 := ⟨fuel - 1, by omega⟩
      have hl : IsLine l := hdefs l (by simp)
      have hassoc : done ++ linesOf (l :: ls) = done ++ (l ++ [newline]) ++ linesOf ls := by simp
      have hlen' : (l ++ [newline]).length = l.length + 1 := by simp
      have hlen'' : (linesOf (l :: ls)).length = l.length + 1 + (linesOf ls).length := by
        rw [linesOf_cons, List.length_append, List.length_cons]
        omega
      rw [hassoc] at hlen ⊢
      have hdone' : nul ∉ done ++ (l ++ [newline]) := by
        simp [hdone, hl.nul_notMem, newline_ne_nul.symm]
      have hsize : done.length + (l.length + 1) + (linesOf ls).length ≤ TEXT - 1 := by
        rwa [List.length_append, List.length_append, hlen'] at hlen
      rw [linesOf_cons, List.append_assoc, List.cons_append] at hrest
      have hget := fgets_lineBuf hrest hl.newline_notMem (by omega) line
      simp only [hget, collectLoop, if_neg (lineBuf_head_ne hl line)]
      rw [strcat_pad hdone (str_lineBuf hl.nul_notMem line) (by omega), Outcome.bind_ok,
        ih fuel (input.advance (l.length + 1)) (lineBuf l line) (done ++ (l ++ [newline]))
          (rest_after_line hrest) (fun x hx => hdefs x (by simp [hx])) hdone' hlen (by omega),
        hlen'', Stream.advance_advance, Nat.add_assoc (l.length + 1)]

/-! ### The search -/

/-- What `lookup` sees of a record when it is about to read it: the word and its newline, the
definition and two newlines, each followed by what fills up the field. -/
theorem Passage.record_eq (p : Passage) :
    ∃ fill fill', p.record = p.word ++ newline :: (fill ++ (linesOf p.defs ++ newline :: fill')) ∧
      p.word.length + 1 + fill.length = WORD := by
  obtain ⟨hW, -, -⟩ := sizes
  have hword := p.word_length
  refine ⟨List.replicate (WORD - (p.word.length + 1)) nul,
    List.replicate (TEXT - ((linesOf p.defs).length + 1)) nul, ?_, ?_⟩
  · simp [record, pad]
  · rw [List.length_replicate]
    omega

theorem strcspn_lineBuf {l : List Byte} (hl : IsLine l) (buf : List Byte) :
    strcspn (lineBuf l buf) newline = .ok l.length := by
  rw [strcspn, str_lineBuf hl.nul_notMem, Outcome.bind_ok, Outcome.pure_eq,
    takeWhile_append_cons hl.newline_notMem]

/-- The line that has been read, without its newline. -/
def stripped (l buf : List Byte) : List Byte := l ++ nul :: nul :: buf.drop (l.length + 2)

theorem str_stripped {l : List Byte} (hl : IsLine l) (buf : List Byte) :
    str (stripped l buf) = .ok l := str_append hl.nul_notMem _

theorem strlen_stripped {l : List Byte} (hl : IsLine l) (buf : List Byte) :
    strlen (stripped l buf) = .ok l.length := by
  rw [strlen, str_stripped hl, Outcome.bind_ok, Outcome.pure_eq]

theorem length_stripped {l buf : List Byte} (hl : l.length + 2 ≤ BIGLINE)
    (hbuf : buf.length = BIGLINE) : (stripped l buf).length = BIGLINE := by
  rw [← hbuf] at hl ⊢
  simp only [stripped, List.length_append, List.length_cons, List.length_drop]
  omega

/-- One iteration of the search: the word of the record decides. -/
theorem searchLoop_word {input : Stream} {l rest : List Byte} (hl : IsLine l)
    (hlen : l.length + 1 < BIGLINE) (hrest : input.rest = l ++ newline :: rest) {word : List Byte}
    {sought : Dictrec} (hword : str sought.word = .ok word) (fuel : ℕ) (line : List Byte) :
    searchLoop (fuel + 1) input line sought =
      if l = word then readText fuel (input.advance (l.length + 1)) (stripped l line) sought
      else searchLoop fuel
        (fseekCur (input.advance (l.length + 1)) ((WORD + TEXT : ℕ) - l.length - 1))
        (stripped l line) sought := by
  have hget := fgets_lineBuf hrest hl.newline_notMem hlen line
  have hstore : store (lineBuf l line) l.length nul = .ok (stripped l line) :=
    store_append l newline nul _
  have hcmp : strcmp (stripped l line) sought.word = .ok (cmp l word) := by
    rw [strcmp, str_stripped hl, Outcome.bind_ok, hword, Outcome.bind_ok, Outcome.pure_eq]
  simp only [searchLoop, hget, if_true, strcspn_lineBuf hl, Outcome.bind_ok, hstore, hcmp,
    strlen_stripped hl, cmp_eq_zero hl.nul_notMem (nul_notMem_of_str hword)]

/-- The definition of a record whose word has just been read is collected from the start of its
field to the newline behind it. -/
theorem collectLoop_passage (p : Passage) {input : Stream} {rest : List Byte}
    (hrest : input.rest = p.record ++ rest) {fuel : ℕ} (hfuel : p.defs.length < fuel)
    (line : List Byte) :
    collectLoop fuel (fgets BIGLINE line (input.advance WORD)).stream
        (fgets BIGLINE line (input.advance WORD)).buf (pad TEXT []) =
      .ok (input.advance (WORD + ((linesOf p.defs).length + 1)), pad TEXT (linesOf p.defs)) := by
  obtain ⟨fill, fill', hrecord, hfill⟩ := p.record_eq
  have htext : (input.advance WORD).rest = linesOf p.defs ++ newline :: (fill' ++ rest) := by
    have hsplit : input.rest =
        (p.word ++ newline :: fill) ++ (linesOf p.defs ++ newline :: (fill' ++ rest)) := by
      rw [hrest, hrecord]
      simp only [List.append_assoc, List.cons_append]
    have hlen : (p.word ++ newline :: fill).length = WORD := by
      rw [List.length_append, List.length_cons, ← hfill]
      omega
    rw [← hlen]
    exact Stream.rest_advance hsplit
  have hcollect := collectLoop_linesOf p.defs fuel (input.advance WORD) line [] htext p.isLine_defs
    List.not_mem_nil p.defs_length hfuel
  rwa [List.nil_append, Stream.advance_advance] at hcollect

/-- What is done with the definition of a record whose word has just been read. -/
theorem readText_passage (p : Passage) {input : Stream} {rest : List Byte}
    (hrest : input.rest = p.record ++ rest) (heof : input.eof = false) {fuel : ℕ}
    (hfuel : p.defs.length < fuel) (line word : List Byte) :
    readText fuel (input.advance (p.word.length + 1)) (stripped p.word line) ⟨word, pad TEXT []⟩ =
      (do
        let find ← Outcome.deref (← strrchr (pad TEXT (linesOf p.defs)) newline)
        let text ← store (pad TEXT (linesOf p.defs)) find nul
        return (.found, ⟨word, text⟩, input.advance (WORD + ((linesOf p.defs).length + 1)))) := by
  obtain ⟨hW, -, -⟩ := sizes
  have hword := p.word_length
  have hseek : fseekCur (input.advance (p.word.length + 1)) ((WORD : ℤ) - p.word.length - 1) =
      input.advance WORD := fseekCur_advance heof (by push_cast; omega)
  rw [readText, strlen_stripped p.isLine_word, Outcome.bind_ok]
  dsimp only
  rw [hseek, collectLoop_passage p hrest hfuel, Outcome.bind_ok]

/-- A definition is returned without its last newline. -/
theorem readText_found (p : Passage) (hne : p.defs ≠ []) {input : Stream} {rest : List Byte}
    (hrest : input.rest = p.record ++ rest) (heof : input.eof = false) {fuel : ℕ}
    (hfuel : p.defs.length < fuel) (line word : List Byte) :
    readText fuel (input.advance (p.word.length + 1)) (stripped p.word line) ⟨word, pad TEXT []⟩ =
      .ok (.found, ⟨word, pad TEXT (joined p.defs)⟩,
        input.advance (WORD + ((linesOf p.defs).length + 1))) := by
  obtain ⟨hnul, hlen⟩ := p.joined_fits hne
  rw [readText_passage p hrest heof hfuel, ← joined_newline hne,
    strrchr_pad hlen hnul newline_ne_nul, Outcome.bind_ok, Outcome.deref_some, Outcome.bind_ok,
    store_pad_nul (by omega), Outcome.bind_ok, Outcome.pure_eq]

/-- **Records with another word** are skipped. -/
theorem searchLoop_skip (ps : List Passage) {word : List Byte} {sought : Dictrec}
    (hsought : str sought.word = .ok word) (hne : ∀ p ∈ ps, p.word ≠ word) (fuel : ℕ)
    (input : Stream) (line : List Byte) {rest : List Byte}
    (hrest : input.rest = ps.flatMap Passage.record ++ rest) (heof : input.eof = false)
    (hline : line.length = BIGLINE) :
    ∃ line', line'.length = BIGLINE ∧ (input.advance (ps.length * (WORD + TEXT))).rest = rest ∧
      searchLoop (fuel + ps.length) input line sought =
        searchLoop fuel (input.advance (ps.length * (WORD + TEXT))) line' sought := by
  obtain ⟨hW, hT, hB⟩ := sizes
  induction ps generalizing input line with
  | nil =>
      refine ⟨line, hline, ?_, ?_⟩
      · rwa [List.length_nil, Nat.zero_mul]
      · rw [List.length_nil, Nat.zero_mul]
        rfl
  | cons p ps ih =>
      have hword := p.word_length
      rw [List.flatMap_cons, List.append_assoc] at hrest
      have hread : ∃ t, input.rest = p.word ++ newline :: t := by
        obtain ⟨fill, fill', hrecord, -⟩ := p.record_eq
        rw [hrest, hrecord]
        simp
      obtain ⟨t, hread⟩ := hread
      have hnext : (input.advance (WORD + TEXT)).rest = ps.flatMap Passage.record ++ rest := by
        rw [← p.length_record]
        exact Stream.rest_advance hrest
      have hseek : fseekCur (input.advance (p.word.length + 1))
          (((WORD + TEXT : ℕ) : ℤ) - p.word.length - 1) = input.advance (WORD + TEXT) :=
        fseekCur_advance heof (by push_cast; omega)
      obtain ⟨line', hline', hrest', hloop⟩ := ih (fun q hq => hne q (by simp [hq]))
        (input.advance (WORD + TEXT)) (stripped p.word line) hnext heof
        (length_stripped (by omega) hline)
      have hadd : WORD + TEXT + ps.length * (WORD + TEXT) = (p :: ps).length * (WORD + TEXT) := by
        rw [List.length_cons, Nat.succ_mul, Nat.add_comm]
      rw [Stream.advance_advance, hadd] at hrest' hloop
      refine ⟨line', hline', hrest', ?_⟩
      have hfuel : fuel + (p :: ps).length = fuel + ps.length + 1 := rfl
      rw [hfuel, searchLoop_word p.isLine_word (by omega) hread hsought,
        if_neg (hne p (by simp)), hseek, hloop]

/-- **The search reaches the first record with the word** that is sought. -/
theorem searchLoop_reach (ps : List Passage) (p : Passage) {sought : Dictrec}
    (hsought : str sought.word = .ok p.word) (hne : ∀ p' ∈ ps, p'.word ≠ p.word) (fuel : ℕ)
    (input : Stream) (line : List Byte) {rest : List Byte}
    (hrest : input.rest = ps.flatMap Passage.record ++ (p.record ++ rest))
    (heof : input.eof = false) (hline : line.length = BIGLINE) :
    ∃ line', (input.advance (ps.length * (WORD + TEXT))).rest = p.record ++ rest ∧
      searchLoop (fuel + 1 + ps.length) input line sought =
        readText fuel ((input.advance (ps.length * (WORD + TEXT))).advance (p.word.length + 1))
          (stripped p.word line') sought := by
  obtain ⟨hW, -, hB⟩ := sizes
  have hword := p.word_length
  obtain ⟨line', -, hrest', hloop⟩ :=
    searchLoop_skip ps hsought hne (fuel + 1) input line hrest heof hline
  obtain ⟨t, hread⟩ : ∃ t, (input.advance (ps.length * (WORD + TEXT))).rest =
      p.word ++ newline :: t := by
    obtain ⟨fill, fill', hrecord, -⟩ := p.record_eq
    rw [hrest', hrecord]
    simp
  refine ⟨line', hrest', ?_⟩
  rw [hloop, searchLoop_word p.isLine_word (by omega) hread hsought, if_pos rfl]

/-- **The search fails** at the end of the file, when no record has the word. -/
theorem searchLoop_miss (ps : List Passage) {word : List Byte} {sought : Dictrec}
    (hsought : str sought.word = .ok word) (hne : ∀ p ∈ ps, p.word ≠ word) (fuel : ℕ)
    (input : Stream) (line : List Byte) (hrest : input.rest = ps.flatMap Passage.record)
    (heof : input.eof = false) (hline : line.length = BIGLINE) :
    searchLoop (fuel + 1 + ps.length) input line sought =
      .ok (.notFound, sought,
        { input.advance (ps.length * (WORD + TEXT)) with eof := true }) := by
  obtain ⟨line', -, hrest', hloop⟩ := searchLoop_skip ps hsought hne (fuel + 1) input line
    (hrest.trans (List.append_nil _).symm) heof hline
  rw [hloop, searchLoop]
  dsimp only
  rw [fgets_eof hrest']
  rfl

theorem length_le_records (ps : List Passage) :
    ps.length ≤ (ps.flatMap Passage.record).length := by
  induction ps with
  | nil => rfl
  | cons p ps ih =>
      rw [List.flatMap_cons, List.length_append, p.length_record, List.length_cons]
      have hW := sizes.1
      omega

/-- The lines of a definition are fewer than the bytes of its record. -/
theorem Passage.length_defs_lt (p : Passage) : p.defs.length < p.record.length := by
  obtain ⟨hW, hT, -⟩ := sizes
  have hlines := length_le_linesOf p.defs
  have hdefs := p.defs_length
  rw [p.length_record]
  omega

/-- **The search.**  From the start of a record on, it finds the first entry with the word that is
sought. -/
theorem searchLoop_records (entries : List Entry) (q : Query) (fuel : ℕ) (input : Stream)
    (line : List Byte) (hrest : input.rest = records entries) (heof : input.eof = false)
    (hline : line.length = BIGLINE) (hfuel : (records entries).length < fuel) :
    ∃ answer input', searchLoop fuel input line ⟨q.sought.word, pad TEXT []⟩ =
        .ok (answer.1, answer.2, input') ∧
      Answers entries q answer ∧ input'.content = input.content := by
  have hsought : str (Dictrec.mk q.sought.word (pad TEXT [])).word = .ok q.word := q.str_word
  rw [records_eq] at hrest hfuel
  cases hfind : entries.find? (fun e => e.word = q.word) with
  | none =>
      have hne : ∀ p ∈ entries.map Entry.passage, p.word ≠ q.word := by
        intro p hp
        obtain ⟨e, he, rfl⟩ := List.mem_map.1 hp
        have hword := List.find?_eq_none.1 hfind e he
        rwa [decide_eq_true_eq] at hword
      have hlen := length_le_records (entries.map Entry.passage)
      obtain ⟨fuel, rfl⟩ : ∃ m, fuel = m + 1 + (entries.map Entry.passage).length :=
        ⟨fuel - 1 - (entries.map Entry.passage).length, by omega⟩
      refine ⟨(.notFound, _), _, searchLoop_miss _ hsought hne fuel input line hrest heof hline, ?_,
        rfl⟩
      rw [Answers, hfind]
  | some e =>
      obtain ⟨heq, as, bs, rfl, hne⟩ := List.find?_eq_some_iff_append.1 hfind
      have heq : e.word = q.word := by simpa using heq
      rw [List.map_append, List.map_cons, List.flatMap_append, List.flatMap_cons] at hrest hfuel
      have hne' : ∀ p ∈ as.map Entry.passage, p.word ≠ e.passage.word := by
        intro p hp
        obtain ⟨e', he', rfl⟩ := List.mem_map.1 hp
        intro hword
        have hword : e'.word = q.word := hword.trans heq
        simpa [hword] using hne e' he'
      have hlen := length_le_records (as.map Entry.passage)
      have hdefs := e.passage.length_defs_lt
      rw [List.length_append, List.length_append] at hfuel
      obtain ⟨fuel, rfl⟩ : ∃ m, fuel = m + 1 + (as.map Entry.passage).length :=
        ⟨fuel - 1 - (as.map Entry.passage).length, by omega⟩
      obtain ⟨line', hrest', hloop⟩ := searchLoop_reach _ e.passage (heq ▸ hsought) hne' fuel input
        line hrest heof hline
      refine ⟨(.found, ⟨q.sought.word, pad TEXT (joined e.defs)⟩), _,
        hloop.trans (readText_found e.passage e.defs_ne_nil hrest' heof (by omega) line' _), ?_,
        rfl⟩
      rw [Answers, hfind]
      obtain ⟨hnul, hfits⟩ := e.passage.joined_fits e.defs_ne_nil
      exact ⟨rfl, rfl, str_pad (Nat.lt_of_succ_lt hfits) hnul⟩

/-! ### Calls of `lookup` -/

/-- Before the first call, or with the stream left open on a file with this content. -/
def Statics.Opened (content : List Byte) (statics : Statics) : Prop :=
  statics.firstTime = true ∨
    ∃ input, statics = ⟨false, some input⟩ ∧ input.content = content

/-- **One call** is answered by the entries, whatever the calls before it have left behind. -/
theorem lookup_records (entries : List Entry) (q : Query) {statics : Statics}
    (hstatics : statics.Opened (records entries)) (resource : String) {fuel : ℕ}
    (hfuel : (records entries).length < fuel) :
    ∃ answer statics', lookup fuel resource (some (records entries)) q.line statics q.sought =
        .ok (answer.1, answer.2, statics') ∧
      Answers entries q answer ∧ statics'.Opened (records entries) := by
  have hopen : ∃ input, input.content = records entries ∧
      openInput resource (some (records entries)) statics = .ok input := by
    rcases hstatics with hfirst | ⟨input, rfl, hcontent⟩
    · exact ⟨fopen (records entries), rfl, if_pos hfirst⟩
    · exact ⟨input, hcontent, rfl⟩
  obtain ⟨input, hcontent, hopen⟩ := hopen
  obtain ⟨answer, input', hloop, hanswer, hcontent'⟩ := searchLoop_records entries q fuel
    (rewind input) q.line hcontent rfl q.line_length hfuel
  refine ⟨answer, ⟨false, some input'⟩, ?_, hanswer, .inr ⟨input', rfl, hcontent'.trans hcontent⟩⟩
  rw [lookup, hopen, Outcome.bind_ok]
  exact congrArg (· >>= _) hloop

/-- **A sequence of calls.** -/
theorem lookups_records (entries : List Entry) (resource : String) {fuel : ℕ}
    (hfuel : (records entries).length < fuel) (queries : List Query) (statics : Statics)
    (hstatics : statics.Opened (records entries)) :
    ∃ answers, lookups fuel resource (some (records entries)) statics
        (queries.map fun q => (q.sought, q.line)) = .ok answers ∧
      List.Forall₂ (Answers entries) queries answers := by
  induction queries generalizing statics with
  | nil => exact ⟨[], rfl, .nil⟩
  | cons q queries ih =>
      obtain ⟨answer, statics', hlookup, hanswer, hstatics'⟩ :=
        lookup_records entries q hstatics resource hfuel
      obtain ⟨answers, hlookups, hanswers⟩ := ih statics' hstatics'
      refine ⟨answer :: answers, ?_, .cons hanswer hanswers⟩
      rw [List.map_cons, lookups, hlookup, Outcome.bind_ok]
      dsimp only
      rw [hlookups, Outcome.bind_ok, Outcome.pure_eq]

/-- **The round trip.**  For a text in the format of `convert.c`, whatever the array `line` contains
at the start: `convert` ends and has written a file, unless the text is empty, in which case it may
not end; and on the file that it has written every sequence of queries is answered by the entries of
the text, each query for itself. -/
theorem roundTrip (blanks : ℕ) (entries : List Entry) (line : List Byte)
    (hline : line.length = BIGLINE) (fuel : ℕ)
    (hfuel : (text blanks entries).length + 2 ≤ fuel) :
    (text blanks entries ≠ [] → ∃ file, convert fuel line (text blanks entries) = .ok file) ∧
      ∀ file, convert fuel line (text blanks entries) = .ok file →
        ∀ (resource : String) (fuel' : ℕ), file.length < fuel' → ∀ queries : List Query,
          ∃ answers, lookups fuel' resource (some file) .initial
              (queries.map fun q => (q.sought, q.line)) = .ok answers ∧
            List.Forall₂ (Answers entries) queries answers := by
  refine ⟨fun h => ⟨_, convert_text h hfuel hline⟩, ?_⟩
  intro file hfile resource fuel' hfuel' queries
  have hrecords := file_eq_records hline hfuel hfile
  subst hrecords
  exact lookups_records entries resource hfuel' queries .initial (.inl rfl)

/-- `ox`, with the definition lines `a` and `b`. -/
def oxEntry : Entry where
  word := [111, 120]
  defs := [[97], [98]]
  moreBlanks := 0
  isLine_word := ⟨by decide, by decide, by decide⟩
  word_length := by decide
  defs_ne_nil := by decide
  isLine_defs := by
    intro l hl
    simp only [List.mem_cons, List.not_mem_nil, or_false] at hl
    rcases hl with rfl | rfl <;> exact ⟨by decide, by decide, by decide⟩
  defs_length := by decide

/-- The query for `ox`, with null bytes in all arrays. -/
def oxQuery : Query where
  word := [111, 120]
  sought := ⟨pad WORD [111, 120], pad TEXT []⟩
  line := List.replicate BIGLINE nul
  str_word := str_pad (by decide) (by decide)
  word_length := length_pad (by decide)
  line_length := List.length_replicate

theorem roundTrip_oneEntry :
    ∃ file answers, convert 16 (List.replicate BIGLINE nul) (text 1 [oxEntry]) = .ok file ∧
      lookups (file.length + 1) "fixrec" (some file) .initial
          ([oxQuery, oxQuery].map fun q => (q.sought, q.line)) = .ok answers ∧
      List.Forall₂ (Answers [oxEntry]) [oxQuery, oxQuery] answers := by
  have h := roundTrip 1 [oxEntry] (List.replicate BIGLINE nul) List.length_replicate 16 (by decide)
  obtain ⟨file, hfile⟩ := h.1 (by decide)
  obtain ⟨answers, hanswers⟩ := h.2 file hfile "fixrec" (file.length + 1) (Nat.lt_succ_self _)
    [oxQuery, oxQuery]
  exact ⟨file, answers, hfile, hanswers⟩

end Dict
