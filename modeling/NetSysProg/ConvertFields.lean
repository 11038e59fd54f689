/-
**What does not fit into a record.**

The fields of a record are filled by loops whose only bound is the length of the line, so nothing is
truncated: what is too long for its field is stored behind it.  The first entry that does not fit
makes that happen, however its lines are cut by the reads into the array `line`.

Main definitions:

* `Dict.KeepsFields` — every store is inside its field, and the file written consists of the records
  of the entries.

Main results:

* `Dict.defLoop_overflow` — a definition that is too long;
* `Dict.convertLoop_fault` — **an entry that does not fit is stored outside its record**;
* `Dict.keepsFields_iff` — **`convert` keeps every record inside its fields exactly when every entry
  fits**, the array `line` permitting where there is no text at all.
-/

import NetSysProg.ConvertEnds

set_option relaxedAutoImplicit false
set_option autoImplicit false

namespace Dict

open CString Stdio TextLines Words

/-- No store leaves its field, and the record written for an entry depends on the entry only. -/
def KeepsFields (line content : List Byte) : Prop :=
  (∀ fuel, convert fuel line content ≠ .fault) ∧
    ∀ fuel file, convert fuel line content = .ok file →
      file = (entriesOf content).flatMap recordOf

/-! ### Lines that are too long -/

/-- A line that does not fit into the array is read up to its last byte but one. -/
theorem fgets_long {s : Stream} {l t : List Byte} (h : s.rest = l ++ newline :: t) (hl : IsLine l)
    (hlen : BIGLINE ≤ l.length + 1) (buf : List Byte) :
    (fgets BIGLINE buf s).buf.head? ≠ some newline ∧
      str (fgets BIGLINE buf s).buf = .ok (l.take (BIGLINE - 1)) := by
  obtain ⟨-, -, hB⟩ := sizes
  have hgot : lineUpTo (BIGLINE - 1) s.rest = l.take (BIGLINE - 1) := by
    rw [h]
    exact lineUpTo_long hl.newline_notMem (by omega) _
  have hne : l.take (BIGLINE - 1) ≠ [] := by
    rw [ne_eq, List.take_eq_nil_iff]
    simp [hl.ne_nil, hB]
  have hbuf : (fgets BIGLINE buf s).buf =
      l.take (BIGLINE - 1) ++ nul :: buf.drop ((l.take (BIGLINE - 1)).length + 1) := by
    simp only [fgets, hgot, if_neg hne]
  rw [hbuf]
  refine ⟨?_, str_append (fun h => hl.nul_notMem (List.mem_of_mem_take h)) _⟩
  obtain ⟨b, bs, hb⟩ := List.exists_cons_of_ne_nil hne
  rw [hb]
  intro hhead
  refine hl.newline_notMem (List.mem_of_mem_take (i := BIGLINE - 1) ?_)
  rw [hb]
  simpa [eq_comm] using Or.inl hhead

/-! ### Definitions that are too long -/

/-- **A definition that is too long** is stored behind the field, or its last line ends at the end
of the field and the newline that follows it does not fit any more. -/
theorem defLoop_overflow {β : Type} (defs : List (List Byte)) (fuel : ℕ) (input : Stream)
    (line done : List Byte) {rest : List Byte}
    (hrest : input.rest = linesOf defs ++ newline :: rest)
    (hdefs : ∀ l ∈ defs, IsLine l) (hline : line.length = BIGLINE) (hdone : done.length ≤ TEXT)
    (hover : TEXT ≤ done.length + (linesOf defs).length) (hfuel : defs.length < fuel)
    (f : Stream × List Byte × List Byte × ℕ → Outcome β)
    (hf : ∀ input line text, text.length = TEXT → f (input, line, text, TEXT) = .fault) :
    (defLoop fuel (fgets BIGLINE line input).stream (fgets BIGLINE line input).buf (pad TEXT done)
      done.length >>= f) = .fault := by
  obtain ⟨-, hT, hB⟩ := sizes
  induction defs generalizing fuel input line done with
  | nil =>
      obtain ⟨fuel, rfl⟩ : ∃ m, fuel = m + 1 := ⟨fuel - 1, by omega⟩
      have hget : fgets BIGLINE line input = _ := fgets_blank hrest line
      have hfull : done.length = TEXT := le_antisymm hdone hover
      rw [hget, defLoop]
      dsimp only
      rw [if_pos (by exact lineBuf_nil line), Outcome.bind_ok, hfull]
      exact hf _ _ _ (length_pad hdone)
  | cons l ls ih =>
      obtain ⟨fuel, rfl⟩ : ∃ m, fuel = m + 1 := ⟨fuel - 1, by omega⟩
      have hl : IsLine l := hdefs l (by simp)
      have hpad := length_pad hdone
      rw [linesOf_cons, List.append_assoc, List.cons_append] at hrest
      have hlen : (linesOf (l :: ls)).length = l.length + 1 + (linesOf ls).length := by
        rw [linesOf_cons, List.length_append, List.length_cons]
        omega
      by_cases hlong : BIGLINE ≤ l.length + 1
      · -- the first piece of the line alone is longer than the field
        obtain ⟨hhead, hstr⟩ := fgets_long hrest hl hlong line
        have hover' : (pad TEXT done).length < done.length + (l.take (BIGLINE - 1)).length := by
          rw [List.length_take]
          omega
        rw [defLoop, if_neg hhead, hstr, Outcome.bind_ok, copyAt_eq_fault (by omega) hover']
        rfl
      · have hget := fgets_lineBuf hrest hl.newline_notMem (by omega) line
        have hlen' : (l ++ [newline]).length = l.length + 1 := by simp
        simp only [hget, defLoop, if_neg (lineBuf_head_ne hl line), str_lineBuf hl.nul_notMem,
          Outcome.bind_ok]
        by_cases hfit : done.length + (l.length + 1) ≤ TEXT
        · have hlen'' : (done ++ (l ++ [newline])).length = done.length + (l.length + 1) := by
            rw [List.length_append, hlen']
          rw [copyAt_pad (by omega), Outcome.bind_ok, hlen', ← hlen'']
          exact ih fuel _ (lineBuf l line) (done ++ (l ++ [newline])) (rest_after_line hrest)
            (fun x hx => hdefs x (by simp [hx])) (length_lineBuf (by omega) hline) (by omega)
            (by omega) (by rw [List.length_cons] at hfuel; omega)
        · rw [copyAt_eq_fault (by omega) (by omega)]
          rfl

/-- **An entry that does not fit** is stored outside its record. -/
theorem convertLoop_fault {w : List Byte} {defs : List (List Byte)} (hw : IsLine w)
    (hdefs : ∀ l ∈ defs, IsLine l) (hfits : ¬ Fits (group w defs)) {input : Stream}
    {rest : List Byte} (hrest : input.rest = w ++ newline :: (linesOf defs ++ newline :: rest))
    (heof : input.eof = false) {fuel : ℕ} (hfuel : defs.length < fuel) {line : List Byte}
    (hline : line.length = BIGLINE) (out : List Byte) :
    convertLoop (fuel + 1) input line blank out = .fault := by
  obtain ⟨hW, hT, hB⟩ := sizes
  have hword : blank.word.length = WORD := List.length_replicate
  rw [convertLoop, feof, heof, if_neg (by simp)]
  by_cases hlong : BIGLINE ≤ w.length + 1
  · obtain ⟨hhead, hstr⟩ := fgets_long hrest hw hlong line
    dsimp only
    rw [if_neg hhead, hstr, Outcome.bind_ok, copyAt_eq_fault (by omega)
      (by rw [List.length_take]; omega)]
    rfl
  · have hget := fgets_lineBuf hrest hw.newline_notMem (by omega) line
    have hlen : (w ++ [newline]).length = w.length + 1 := by simp
    simp only [hget, if_neg (lineBuf_head_ne hw line), str_lineBuf hw.nul_notMem, Outcome.bind_ok]
    by_cases hfit : w.length ≤ WORD - 1
    · have hover : TEXT ≤ (linesOf defs).length := by
        rw [fits_group] at hfits
        omega
      have hcopy : copyAt blank.word 0 (w ++ [newline]) = .ok (pad WORD (w ++ [newline])) :=
        @copyAt_pad WORD [] (w ++ [newline]) (by rw [List.length_nil]; omega)
      rw [hcopy, Outcome.bind_ok]
      refine defLoop_overflow defs fuel _ (lineBuf w line) [] (rest_after_line hrest) hdefs
        (length_lineBuf (by omega) hline) (Nat.zero_le _)
          (by rw [List.length_nil]; omega) hfuel _ ?_
      intro input' line' text htext
      dsimp only
      rw [store, if_neg (by omega)]
      rfl
    · rw [copyAt_eq_fault (by omega) (by omega)]
      rfl

/-! ### No text -/

/-- At the end of the file the inner loop stores the same line again and again, until the field is
full. -/
theorem defLoop_stale (fuel : ℕ) {line s : List Byte} (hnl : line.head? ≠ some newline)
    (hs : str line = .ok s) (hne : s ≠ []) {input : Stream} (hrest : input.rest = [])
    {text : List Byte} (htext : text.length = TEXT) {count : ℕ} (hcount : count ≤ TEXT)
    (hfuel : TEXT < count + fuel) : defLoop fuel input line text count = .fault := by
  have hpos := List.length_pos_iff.2 hne
  induction fuel generalizing input text count with
  | zero => omega
  | succ fuel ih =>
      rw [defLoop, if_neg hnl, hs, Outcome.bind_ok]
      by_cases hfit : count + s.length ≤ TEXT
      · obtain ⟨text', hcopy, htext'⟩ := exists_copyAt (htext.symm ▸ hfit)
        have hrest' : Stream.rest { input with eof := true } = [] := hrest
        rw [hcopy, Outcome.bind_ok, fgets_eof hrest]
        exact ih hrest' (htext'.trans htext) hfit (by omega)
      · rw [copyAt_eq_fault (by omega) (by omega)]
        rfl

/-- **The empty text** is taken for the word that the array contains. -/
theorem convert_nil_fault {line : List Byte} (hnl : line.head? ≠ some newline)
    (hnul : line.head? ≠ some nul) (hline : line.length = BIGLINE) :
    convert (TEXT + 2) line [] = .fault := by
  have hget : fgets BIGLINE line (fopen []) = ⟨false, line, { fopen [] with eof := true }⟩ :=
    fgets_eof rfl line
  rw [convert, convertLoop, if_neg (by simp [feof, fopen]), hget]
  dsimp only
  rw [if_neg hnl]
  by_cases hmem : nul ∈ line
  · obtain ⟨s, hs, hne⟩ : ∃ s, str line = .ok s ∧ s ≠ [] := by
      refine ⟨_, if_pos hmem, ?_⟩
      cases line with
      | nil => simp at hmem
      | cons b bs => simpa using hnul
    have hrest : Stream.rest { fopen [] with eof := true } = [] := rfl
    have hblank : blank.word.length = WORD := List.length_replicate
    rw [hs, Outcome.bind_ok]
    by_cases hword : s.length ≤ WORD
    · obtain ⟨word, hcopy, -⟩ := @exists_copyAt blank.word s 0 (by omega)
      rw [hcopy, Outcome.bind_ok, fgets_eof hrest]
      have hloop : defLoop (TEXT + 1) { fopen [] with eof := true } line blank.text 0 = .fault :=
        defLoop_stale _ hnl hs hne hrest List.length_replicate (Nat.zero_le _) (by omega)
      exact congrArg (· >>= _) hloop
    · rw [copyAt_eq_fault (Nat.zero_le _) (by omega)]
      rfl
  · rw [str, if_neg hmem]
    rfl

/-- When the array holds the empty string, nothing is ever stored. -/
theorem convert_nil_empty {line : List Byte} (hnul : line.head? = some nul) (fuel : ℕ) :
    convert fuel line [] = .timeout := by
  have hnl : line.head? ≠ some newline := by simp [hnul, newline_ne_nul.symm]
  have hs : str line = .ok [] := by
    obtain ⟨t, rfl⟩ := List.head?_eq_some_iff.1 hnul
    exact str_append List.not_mem_nil t
  have hloop : ∀ fuel input text count, Stream.rest input = [] →
      defLoop fuel input line text count = .timeout := by
    intro fuel
    induction fuel with
    | zero => exact fun _ _ _ _ => rfl
    | succ fuel ih =>
        intro input text count hrest
        have hrest' : Stream.rest { input with eof := true } = [] := hrest
        rw [defLoop, if_neg hnl, hs, Outcome.bind_ok, copyAt, Outcome.bind_ok,
          fgets_eof hrest]
        exact ih _ text count hrest'
  have hget : fgets BIGLINE line (fopen []) = ⟨false, line, { fopen [] with eof := true }⟩ :=
    fgets_eof rfl line
  cases fuel with
  | zero => rfl
  | succ fuel =>
      rw [convert, convertLoop, if_neg (by simp [feof, fopen]), hget]
      dsimp only
      rw [if_neg hnl, hs, Outcome.bind_ok, copyAt, Outcome.bind_ok]
      have hrest : Stream.rest { fopen [] with eof := true } = [] := rfl
      rw [fgets_eof hrest]
      exact congrArg (· >>= _) (hloop fuel _ blank.text 0 hrest)

/-! ### A whole text -/

/-- The main loop stores outside of a record when it is given the rest of a text with an entry that
does not fit. -/
def FaultsOn (content : List Byte) : Prop :=
  ∀ (fuel : ℕ) (input : Stream) (line out : List Byte), input.rest = content → input.eof = false →
    line.length = BIGLINE → content.length + 2 ≤ fuel →
      convertLoop fuel input line blank out = .fault

/-- **The first entry that does not fit** is reached, and stored outside its record. -/
theorem convertLoop_overflow {content : List Byte} (hnul : nul ∉ content)
    (hends : content = [] ∨ EndsBlank content) (hover : ∃ e ∈ entriesOf content, ¬ Fits e) :
    FaultsOn content := by
  refine textInduction (P := fun t => (t = [] ∨ EndsBlank t) → (∃ e ∈ entriesOf t, ¬ Fits e) →
    FaultsOn t) ?nil ?blank ?entry ?noBlank hnul hends hover
  case nil =>
    rintro - ⟨e, he, -⟩
    simp at he
  case blank =>
    intro t ih hends hover fuel input line out hrest heof hline hfuel
    rw [entriesOf_blank] at hover
    have hends' := (endsBlank_blank t).1 (hends.resolve_left (List.cons_ne_nil _ _))
    rw [List.length_cons] at hfuel
    obtain ⟨fuel, rfl⟩ : ∃ m, fuel = m + 1 := ⟨fuel - 1, by omega⟩
    rw [convertLoop_blank hrest heof]
    exact ih hends' hover fuel _ _ out (rest_after_newline hrest) heof
      (length_lineBuf_nil hline) (by omega)
  case entry =>
    intro w defs t hw hdefs ih hends hover fuel input line out hrest heof hline hfuel
    rw [entriesOf_entry hw hdefs] at hover
    have hends' := (endsBlank_entry hw hdefs t).1 (hends.resolve_left (by simp))
    have hlen := length_le_linesOf defs
    simp only [List.length_append, List.length_cons] at hfuel
    obtain ⟨fuel, rfl⟩ : ∃ m, fuel = m + 1 := ⟨fuel - 1, by omega⟩
    by_cases hfits : Fits (group w defs)
    · obtain ⟨e, he, hbad⟩ := hover
      have he' : e ∈ entriesOf t := by
        refine (List.mem_cons.1 he).resolve_left ?_
        rintro rfl
        exact hbad hfits
      obtain ⟨hword, htext⟩ := fits_group.1 hfits
      obtain ⟨line', input', hline', -, heof', hrest', hstep⟩ :=
        convertLoop_entry hw hword hdefs htext hrest heof (by omega : defs.length < fuel) hline out
      rw [hstep]
      exact ih hends' ⟨e, he', hbad⟩ fuel input' line' _ hrest' heof' hline' (by omega)
    · exact convertLoop_fault hw hdefs hfits hrest heof (by omega) hline out
  case noBlank =>
    intro t hne h hends
    exact absurd (hends.resolve_left hne) (not_endsBlank_noBlank h)

/-! ### More iterations -/

theorem defLoop_upto (fuel : ℕ) (input : Stream) (line text : List Byte) (count : ℕ) :
    (defLoop fuel input line text count).Upto (defLoop (fuel + 1) input line text count) := by
  induction fuel generalizing input line text count with
  | zero => exact Or.inl rfl
  | succ fuel ih =>
      unfold defLoop
      split
      · exact .refl _
      · exact (Outcome.Upto.refl _).bind fun s => (Outcome.Upto.refl _).bind fun text' => ih _ _ _ _

theorem convertLoop_upto (fuel : ℕ) (input : Stream) (line : List Byte) (dr : Dictrec)
    (out : List Byte) :
    (convertLoop fuel input line dr out).Upto (convertLoop (fuel + 1) input line dr out) := by
  induction fuel generalizing input line dr out with
  | zero => exact Or.inl rfl
  | succ fuel ih =>
      unfold convertLoop
      split
      · exact .refl _
      · dsimp only
        split
        · exact ih _ _ _ _
        · exact (Outcome.Upto.refl _).bind fun s => (Outcome.Upto.refl _).bind fun word =>
            (defLoop_upto _ _ _ _ _).bind fun r => (Outcome.Upto.refl _).bind fun text =>
              ih _ _ _ _

/-- What comes of `convert` does not depend on the bound on its iterations, once that is reached. -/
theorem convert_upto {fuel fuel' : ℕ} (h : fuel ≤ fuel') (line content : List Byte) :
    (convert fuel line content).Upto (convert fuel' line content) := by
  induction h with
  | refl => exact .refl _
  | step _ ih => exact ih.trans (convertLoop_upto _ _ _ _ _)

theorem convert_ok_mono {fuel fuel' : ℕ} (h : fuel ≤ fuel') {line content file : List Byte}
    (hfile : convert fuel line content = .ok file) : convert fuel' line content = .ok file := by
  rcases convert_upto h line content with h | h
  · rw [hfile] at h
    cases h
  · exact h.symm.trans hfile

/-- **`convert` keeps every record inside its fields** exactly when every entry of the text fits;
and on the empty text exactly when the array `line` happens to begin with a newline or a null
byte. -/
theorem keepsFields_iff {content : List Byte} (hnul : nul ∉ content)
    (hends : content = [] ∨ EndsBlank content) {line : List Byte} (hline : line.length = BIGLINE) :
    KeepsFields line content ↔ (∀ e ∈ entriesOf content, Fits e) ∧
      (content = [] → line.head? = some newline ∨ line.head? = some nul) := by
  constructor
  · rintro ⟨hfault, -⟩
    refine ⟨?_, ?_⟩
    · by_contra hover
      refine hfault (content.length + 2) (convertLoop_overflow hnul hends ?_ _ (fopen content) line
        [] rfl rfl hline le_rfl)
      simpa using hover
    · rintro rfl
      by_contra hhead
      rw [not_or] at hhead
      exact hfault _ (convert_nil_fault hhead.1 hhead.2 hline)
  · rintro ⟨hfits, hhead⟩
    by_cases hwell : EndsWell line content
    · -- what is written is known, and no number of iterations leads to anything else
      have hconv : ∀ fuel, (convert fuel line content).Upto
          (.ok ((entriesOf content).flatMap recordOf)) := by
        intro fuel
        have hok := convert_content hnul hfits hline hwell (le_max_right fuel (content.length + 2))
        exact hok ▸ convert_upto (le_max_left _ _) line content
      refine ⟨fun fuel => ?_, fun fuel file hfile => ?_⟩
      · rcases hconv fuel with h | h <;> simp [h]
      · rcases hconv fuel with h | h <;> rw [h] at hfile <;> cases hfile
        rfl
    · obtain rfl : content = [] := by
        refine hends.resolve_right fun h => hwell (Or.inl h)
      have hnul' : line.head? = some nul :=
        (hhead rfl).resolve_left fun h => hwell (Or.inr ⟨rfl, h⟩)
      refine ⟨fun fuel => ?_, fun fuel file hfile => ?_⟩
      · simp [convert_nil_empty hnul' fuel]
      · simp [convert_nil_empty hnul' fuel] at hfile

/-- A word and a definition that fit. -/
theorem keepsFields_oneEntry :
    KeepsFields (List.replicate BIGLINE nul) [97, newline, 98, newline, newline] :=
  (keepsFields_iff (by decide) (Or.inr (by decide)) List.length_replicate).2
    ⟨by decide, fun h => by cases h⟩

/-- A word of as many bytes as its field has, with a definition of one line. -/
def fullWord : List Byte := List.replicate WORD 97 ++ [newline, 98, newline, newline]

/-- **The newline behind a word of thirty-two bytes** is stored outside the field. -/
theorem not_keepsFields_fullWord :
    nul ∉ fullWord ∧ EndsBlank fullWord ∧
      ¬ KeepsFields (List.replicate BIGLINE nul) fullWord := by
  refine ⟨by decide, by decide, ?_⟩
  rintro ⟨hfault, -⟩
  exact hfault _ (convertLoop_overflow (by decide) (Or.inr (by decide)) (by decide)
    (fullWord.length + 2) (fopen fullWord) _ [] rfl rfl List.length_replicate le_rfl)

end Dict
