/-
**Looking words up in what `convert` has written.**

`convert` also makes a record of a word without any definition: its text is a single newline.  The
search finds such a record as well as any other, collects nothing, and then looks for the last
newline of what it has collected.

Main definitions:

* `Dict.CollectsWithin` — a definition is collected without leaving its record;
* `Dict.LookupSafe` — a call of `lookup` returns, and has collected inside the matching record.

Main results:

* `Dict.records_of_convert` — **the file that `convert` leaves** consists of the records of the
  entries, which all fit;
* `Dict.exists_passages` — the entries that fit, as passages;
* `Dict.lookupSafe_iff` — **a call on such a file is safe exactly when the first entry with the word
  that is sought, if there is one, has a definition**.
-/

import NetSysProg.ConvertFields
import NetSysProg.DictRoundTrip

set_option relaxedAutoImplicit false
set_option autoImplicit false

namespace Dict

open CString Stdio TextLines Words

/-- The bytes of the `i`-th record start with the word and a newline. -/
def HasWord (file : List Byte) (i : ℕ) (word : List Byte) : Prop :=
  (file.drop (i * (WORD + TEXT))).take (word.length + 1) = word ++ [newline]

/-- The definition of the `i`-th record is collected from the start of its field on; what is
collected is shorter than a field, and `input`, where the stream stands in the end, is not beyond
the end of the record. -/
def CollectsWithin (fuel : ℕ) (file : List Byte) (i : ℕ) (input : Stream) : Prop :=
  ∃ line text s,
    collectLoop fuel
        (fgets BIGLINE line ((fopen file).advance (i * (WORD + TEXT) + WORD))).stream
        (fgets BIGLINE line ((fopen file).advance (i * (WORD + TEXT) + WORD))).buf (pad TEXT []) =
      .ok (input, text) ∧
    str text = .ok s ∧ s.length < TEXT ∧ input.pos ≤ (i + 1) * (WORD + TEXT)

/-- A call of `lookup` returns, and when it finds the word it has collected the definition inside a
record with the word. -/
def LookupSafe (resource : String) (file : List Byte) (statics : Statics) (q : Query) : Prop :=
  ∃ n, ∀ fuel, n ≤ fuel → ∃ status sought input,
    lookup fuel resource (some file) q.line statics q.sought =
        .ok (status, sought, ⟨false, some input⟩) ∧
      (status = .found → ∃ i, HasWord file i q.word ∧ CollectsWithin fuel file i input)

/-! ### The file -/

/-- **The file that `convert` leaves** when each entry is followed by a blank line. -/
theorem records_of_convert {content : List Byte} (hnul : nul ∉ content)
    (hends : content = [] ∨ EndsBlank content) {line : List Byte} (hline : line.length = BIGLINE)
    {fuel : ℕ} {file : List Byte} (hfile : convert fuel line content = .ok file) :
    (∀ e ∈ entriesOf content, Fits e) ∧ file = (entriesOf content).flatMap recordOf := by
  have hok := convert_ok_mono (le_max_left fuel (content.length + 2)) hfile
  have hfits : ∀ e ∈ entriesOf content, Fits e := by
    by_contra hover
    have hfault := convertLoop_overflow hnul hends (by simpa using hover) _ (fopen content) line []
      rfl rfl hline (le_max_right fuel (content.length + 2))
    rw [convert, hfault] at hok
    cases hok
  refine ⟨hfits, ?_⟩
  have hloop := convertLoop_content hnul hfits _ (fopen content) line [] rfl rfl hline
    (le_max_right fuel (content.length + 2)) file
  simpa using (hloop.1 hok).2

/-- **The entries of a text are passages**, if they fit and each is followed by a blank line. -/
theorem exists_passages {content : List Byte} (hnul : nul ∉ content)
    (hends : content = [] ∨ EndsBlank content) (hfits : ∀ e ∈ entriesOf content, Fits e) :
    ∃ ps : List Passage, entriesOf content = ps.map fun p => group p.word p.defs := by
  refine textInduction (P := fun t => (t = [] ∨ EndsBlank t) → (∀ e ∈ entriesOf t, Fits e) →
    ∃ ps : List Passage, entriesOf t = ps.map fun p => group p.word p.defs) ?nil ?blank ?entry
    ?noBlank hnul hends hfits
  case nil => exact fun _ _ => ⟨[], rfl⟩
  case blank =>
    intro t ih hends hfits
    rw [entriesOf_blank] at hfits ⊢
    exact ih ((endsBlank_blank t).1 (hends.resolve_left (List.cons_ne_nil _ _))) hfits
  case entry =>
    intro w defs t hw hdefs ih hends hfits
    rw [entriesOf_entry hw hdefs] at hfits ⊢
    obtain ⟨hword, htext⟩ := fits_group.1 (hfits (group w defs) (by simp))
    obtain ⟨ps, hps⟩ := ih ((endsBlank_entry hw hdefs t).1 (hends.resolve_left (by simp)))
      fun e he => hfits e (by simp [he])
    exact ⟨⟨w, defs, hw, hword, hdefs, htext⟩ :: ps, by rw [hps, List.map_cons]⟩
  case noBlank =>
    intro t hne h hends
    exact absurd (hends.resolve_left hne) (not_endsBlank_noBlank h)

theorem fits_passage (p : Passage) : Fits (group p.word p.defs) :=
  fits_group.2 ⟨p.word_length, p.defs_length⟩

theorem flatMap_recordOf (ps : List Passage) :
    (ps.map fun p => group p.word p.defs).flatMap recordOf = ps.flatMap Passage.record := by
  rw [List.flatMap_map]
  exact congrArg (ps.flatMap ·) (funext fun p => recordOf_group (fits_passage p))

/-! ### One call -/

/-- A call of `lookup` searches the file from its start. -/
theorem lookup_eq (resource : String) {file : List Byte} {statics : Statics}
    (hstatics : statics.Opened file) (fuel : ℕ) (q : Query) :
    lookup fuel resource (some file) q.line statics q.sought =
      (do
        let (status, sought, input) ←
          searchLoop fuel (fopen file) q.line ⟨q.sought.word, pad TEXT []⟩
        return (status, sought, ⟨false, some input⟩)) := by
  obtain ⟨input, hcontent, hopen⟩ : ∃ input, input.content = file ∧
      openInput resource (some file) statics = .ok input := by
    rcases hstatics with hfirst | ⟨input, rfl, hcontent⟩
    · exact ⟨fopen file, rfl, if_pos hfirst⟩
    · exact ⟨input, hcontent, rfl⟩
  rw [lookup, hopen, Outcome.bind_ok, rewind, hcontent]
  rfl

theorem length_flatMap_record (ps : List Passage) :
    (ps.flatMap Passage.record).length = ps.length * (WORD + TEXT) := by
  induction ps with
  | nil => simp
  | cons p ps ih =>
      rw [List.flatMap_cons, List.length_append, p.length_record, ih, List.length_cons,
        Nat.succ_mul, Nat.add_comm]

theorem hasWord_append (ps : List Passage) (p : Passage) (rest : List Byte) :
    HasWord (ps.flatMap Passage.record ++ (p.record ++ rest)) ps.length p.word := by
  obtain ⟨fill, fill', hrecord, -⟩ := p.record_eq
  have hlen : (p.word ++ [newline]).length = p.word.length + 1 := by simp
  rw [HasWord, ← length_flatMap_record, List.drop_left, hrecord, ← hlen,
    show p.word ++ newline :: (fill ++ (linesOf p.defs ++ newline :: fill')) ++ rest =
      (p.word ++ [newline]) ++ (fill ++ (linesOf p.defs ++ newline :: fill') ++ rest) by simp,
    List.take_left]

section Calls

variable {resource : String} {statics : Statics} {q : Query}

/-- A word that no record has is not found. -/
theorem lookupSafe_miss {ps : List Passage} (hstatics : statics.Opened (ps.flatMap Passage.record))
    (hne : ∀ p ∈ ps, p.word ≠ q.word) :
    LookupSafe resource (ps.flatMap Passage.record) statics q := by
  refine ⟨ps.length + 1, fun fuel hfuel => ?_⟩
  obtain ⟨fuel, rfl⟩ : ∃ m, fuel = m + 1 + ps.length := ⟨fuel - 1 - ps.length, by omega⟩
  have hsought : str (Dictrec.mk q.sought.word (pad TEXT [])).word = .ok q.word := q.str_word
  have hmiss := searchLoop_miss ps hsought hne fuel
    (fopen (ps.flatMap Passage.record)) q.line rfl rfl q.line_length
  have hok := lookup_eq resource hstatics (fuel + 1 + ps.length) q
  rw [hmiss, Outcome.bind_ok] at hok
  exact ⟨_, _, _, hok, fun h => by cases h⟩

variable {as bs : List Passage} {p : Passage}
  (hstatics : statics.Opened ((as ++ p :: bs).flatMap Passage.record))
  (hword : p.word = q.word) (hne : ∀ p' ∈ as, p'.word ≠ q.word)
include hstatics hword hne

/-- The record of the first passage with the word is reached, and its definition is collected. -/
theorem lookup_reach (resource : String) (fuel : ℕ) :
    ∃ line', ((fopen ((as ++ p :: bs).flatMap Passage.record)).advance
        (as.length * (WORD + TEXT))).rest = p.record ++ bs.flatMap Passage.record ∧
      lookup (fuel + 1 + as.length) resource (some ((as ++ p :: bs).flatMap Passage.record)) q.line
          statics q.sought =
        (do
          let (status, sought, input) ← readText fuel
            (((fopen ((as ++ p :: bs).flatMap Passage.record)).advance
              (as.length * (WORD + TEXT))).advance (p.word.length + 1))
            (stripped p.word line') ⟨q.sought.word, pad TEXT []⟩
          return (status, sought, ⟨false, some input⟩)) := by
  have hrest : (fopen ((as ++ p :: bs).flatMap Passage.record)).rest =
      as.flatMap Passage.record ++ (p.record ++ bs.flatMap Passage.record) := by
    rw [← List.flatMap_cons, ← List.flatMap_append]
    rfl
  have hsought : str (Dictrec.mk q.sought.word (pad TEXT [])).word = .ok p.word :=
    hword ▸ q.str_word
  obtain ⟨line', hrest', hloop⟩ := searchLoop_reach as p hsought (hword ▸ hne) fuel _ q.line hrest
    rfl q.line_length
  exact ⟨line', hrest', by rw [lookup_eq resource hstatics, hloop]⟩

/-- A word whose record has a definition is found, and the definition collected inside it. -/
theorem lookupSafe_found (hdefs : p.defs ≠ []) :
    LookupSafe resource ((as ++ p :: bs).flatMap Passage.record) statics q := by
  obtain ⟨hW, hT, -⟩ := sizes
  refine ⟨p.defs.length + 2 + as.length, fun fuel hfuel => ?_⟩
  obtain ⟨fuel, rfl⟩ : ∃ m, fuel = m + 1 + as.length := ⟨fuel - 1 - as.length, by omega⟩
  obtain ⟨line', hrest, hlookup⟩ := lookup_reach hstatics hword hne resource fuel
  rw [readText_found p hdefs hrest rfl (by omega), Outcome.bind_ok] at hlookup
  refine ⟨_, _, _, hlookup, fun _ => ⟨as.length, ?_, ?_⟩⟩
  · rw [List.flatMap_append, List.flatMap_cons, ← hword]
    exact hasWord_append as p _
  · have hlines := p.defs_length
    refine ⟨[], pad TEXT (linesOf p.defs), linesOf p.defs, ?_,
      str_pad (by omega) (nul_notMem_linesOf p.isLine_defs), by omega, ?_⟩
    · rw [← Stream.advance_advance]
      exact collectLoop_passage p hrest (by omega : p.defs.length < fuel + 1 + as.length) []
    · simp only [Stream.advance, fopen, Nat.succ_mul]
      omega

/-- **A record without a definition** leads to a null pointer. -/
theorem not_lookupSafe (hdefs : p.defs = []) :
    ¬ LookupSafe resource ((as ++ p :: bs).flatMap Passage.record) statics q := by
  rintro ⟨n, hn⟩
  obtain ⟨line', hrest, hlookup⟩ :=
    lookup_reach hstatics hword hne resource (p.defs.length + 1 + n)
  obtain ⟨status, sought, input, hok, -⟩ :=
    hn _ (by omega : n ≤ p.defs.length + 1 + n + 1 + as.length)
  have hnone : strrchr (pad TEXT (linesOf p.defs)) newline = .ok none := by
    rw [hdefs, linesOf_nil, strrchr, str_pad (by decide) List.not_mem_nil]
    rfl
  rw [hlookup, readText_passage p hrest rfl (by omega), hnone, Outcome.bind_ok] at hok
  cases hok

end Calls

/-- **A call on a file that `convert` has written is safe** exactly when the first entry with the
word that is sought, if there is one, has a definition; whatever calls there were before it. -/
theorem lookupSafe_iff {content : List Byte} (hnul : nul ∉ content)
    (hends : content = [] ∨ EndsBlank content) {line : List Byte} (hline : line.length = BIGLINE)
    {fuel : ℕ} {file : List Byte} (hfile : convert fuel line content = .ok file) (resource : String)
    {statics : Statics} (hstatics : statics.Opened file) (q : Query) :
    LookupSafe resource file statics q ↔
      ∀ e, (entriesOf content).find? (fun e => e.headD [] = q.word ++ [newline]) = some e →
        e.tail ≠ [] := by
  obtain ⟨hfits, rfl⟩ := records_of_convert hnul hends hline hfile
  obtain ⟨ps, hps⟩ := exists_passages hnul hends hfits
  rw [hps, flatMap_recordOf] at hstatics ⊢
  have hsame : ∀ p : Passage, (group p.word p.defs).headD [] = q.word ++ [newline] ↔
      p.word = q.word := fun p => by rw [headD_group, List.append_left_inj]
  rw [List.find?_map]
  cases hfind : ps.find? ((fun e => decide (e.headD [] = q.word ++ [newline])) ∘
      fun p => group p.word p.defs) with
  | none =>
      refine iff_of_true (lookupSafe_miss hstatics fun p hp hword => ?_) (fun e he => by cases he)
      have hp' := List.find?_eq_none.1 hfind p hp
      simp only [Function.comp_apply, decide_eq_true_eq] at hp'
      exact hp' ((hsame p).2 hword)
  | some p =>
      obtain ⟨hp, as, bs, rfl, has⟩ := List.find?_eq_some_iff_append.1 hfind
      simp only [Function.comp_apply, decide_eq_true_eq] at hp
      have hword := (hsame p).1 hp
      have hne : ∀ p' ∈ as, p'.word ≠ q.word := by
        intro p' hp' hword'
        have h := has p' hp'
        simp only [Function.comp_apply, Bool.not_eq_true', decide_eq_false_iff_not] at h
        exact h ((hsame p').2 hword')
      have htail : ∀ e, (some p).map (fun p => group p.word p.defs) = some e →
          (e.tail ≠ [] ↔ p.defs ≠ []) := by
        rintro e ⟨⟩
        simp [group]
      by_cases hdefs : p.defs = []
      · refine iff_of_false (not_lookupSafe hstatics hword hne hdefs) fun h => ?_
        exact (htail _ rfl).1 (h _ rfl) hdefs
      · exact iff_of_true (lookupSafe_found hstatics hword hne hdefs) fun e he =>
          (htail e he).2 hdefs

/-- `ox` with a definition of one line. -/
theorem lookupSafe_ox :
    LookupSafe "fixrec" ((entriesOf [111, 120, newline, 97, newline, newline]).flatMap recordOf)
      .initial oxQuery := by
  have hfile : convert 8 (List.replicate BIGLINE nul) [111, 120, newline, 97, newline, newline] =
      .ok _ := convert_content (by decide) (by decide) List.length_replicate (Or.inl (by decide))
        (by decide)
  refine (lookupSafe_iff (by decide) (Or.inr (by decide)) List.length_replicate hfile "fixrec"
    (.inl rfl) oxQuery).2 ?_
  intro e he
  have hentries : entriesOf [111, 120, newline, 97, newline, newline] =
      [[[111, 120, newline], [97, newline]]] := by decide
  rw [hentries] at he
  have hmem := List.mem_of_find?_eq_some he
  rw [List.mem_singleton] at hmem
  simp [hmem]

/-- The word `ox` without a definition. -/
def bareOx : Passage where
  word := [111, 120]
  defs := []
  isLine_word := oxEntry.isLine_word
  word_length := oxEntry.word_length
  isLine_defs := fun l hl => by cases hl
  defs_length := by decide

/-- **An entry without a definition**, on the file that `convert` writes. -/
theorem not_lookupSafe_bareOx :
    nul ∉ [111, 120, newline, newline] ∧ EndsBlank [111, 120, newline, newline] ∧
      ∃ file, convert 6 (List.replicate BIGLINE nul) [111, 120, newline, newline] = .ok file ∧
        ¬ LookupSafe "fixrec" file .initial oxQuery := by
  refine ⟨by decide, by decide, _, convert_content (by decide) (by decide) List.length_replicate
    (Or.inl (by decide)) (by decide), ?_⟩
  have hentries : entriesOf [111, 120, newline, newline] =
      [bareOx].map fun p => group p.word p.defs := by decide
  rw [hentries, flatMap_recordOf]
  exact @not_lookupSafe "fixrec" .initial oxQuery [] [] bareOx (.inl rfl) rfl
    (fun p hp => by cases hp) rfl

end Dict
