/-
**When `convert` ends.**

Both loops of `convert` look at the first byte of the array `line`, and a call of `fgets` at the end
of the file leaves that array as it was.  So the inner loop gets past the last entry only if a blank
line stands behind it: otherwise the last line stays in the array and is stored over and over again.
In the same way an empty file is taken for a word, namely for what the array contains before
anything has been read.

Main definitions:

* `Dict.Converts` — the main loop ends with one record for each entry written;
* `Dict.NoBlankLeft` — no line that has not been read yet is blank.

Main results:

* `Dict.convertLoop_content` — **what the main loop makes of a text whose entries fit**;
* `Dict.converts_iff` — **`convert` ends exactly on the texts whose last line is blank**, and on the
  empty text when the array happens to begin with a newline.
-/

import NetSysProg.DictText

set_option relaxedAutoImplicit false
set_option autoImplicit false

namespace Dict

open CString Stdio TextLines Words

/-- The main loop ends, and the record of every entry has been written, in order. -/
def Converts (line content : List Byte) : Prop :=
  ∃ n, ∀ fuel, n ≤ fuel → convert fuel line content = .ok ((entriesOf content).flatMap recordOf)

/-- The text ends with a blank line, or there is no text and the array begins with a newline. -/
def EndsWell (line content : List Byte) : Prop :=
  EndsBlank content ∨ (content = [] ∧ line.head? = some newline)

/-- No line that is left is blank, and each fits into the array. -/
def NoBlankLeft (s : Stream) : Prop :=
  ∀ l ∈ lines newline s.rest, l ≠ [newline] ∧ l.length < BIGLINE - 1

/-! ### Without a blank line -/

theorem noBlankLeft_of_rest_nil {s : Stream} (h : s.rest = []) : NoBlankLeft s := by
  intro l hl
  rw [h] at hl
  cases hl

/-- **A call of `fgets`** that finds no blank line leaves none in the array. -/
theorem fgets_noBlank {s : Stream} (h : NoBlankLeft s) {line : List Byte}
    (hline : s.rest = [] → line.head? ≠ some newline) :
    (fgets BIGLINE line s).buf.head? ≠ some newline ∧
      NoBlankLeft (fgets BIGLINE line s).stream := by
  by_cases hrest : s.rest = []
  · rw [fgets_eof hrest]
    exact ⟨hline hrest, h⟩
  by_cases hnl : newline ∈ s.rest
  · obtain ⟨l, t, hl, hmem⟩ := List.eq_append_cons_of_mem hnl
    rw [NoBlankLeft, hl, lines_append_sep newline hmem] at h
    obtain ⟨hne, hlen⟩ := h (l ++ [newline]) (by simp)
    rw [List.length_append, List.length_singleton] at hlen
    rw [fgets_lineBuf hl hmem (by omega)]
    refine ⟨?_, ?_⟩
    · cases l with
      | nil => exact absurd rfl hne
      | cons b bs =>
          intro hb
          exact hmem (by simpa [lineBuf, eq_comm] using Or.inl hb)
    · intro x hx
      rw [rest_after_line hl] at hx
      exact h x (by simp [hx])
  · have hlast := h s.rest (by simp [lines_of_notMem newline hnl hrest])
    rw [fgets_last rfl hnl hrest (by omega)]
    refine ⟨?_, noBlankLeft_of_rest_nil ?_⟩
    · obtain ⟨b, bs, hb⟩ := List.exists_cons_of_ne_nil hrest
      rw [hb] at hnl ⊢
      intro h'
      exact hnl (by simpa [eq_comm] using Or.inl h')
    · exact Stream.rest_advance (List.append_nil s.rest).symm

/-- The inner loop does not come to an end. -/
theorem defLoop_ne_ok_of_noBlank (fuel : ℕ) {input : Stream} (h : NoBlankLeft input)
    {line : List Byte} (hline : line.head? ≠ some newline) (text : List Byte) (count : ℕ)
    (r : Stream × List Byte × List Byte × ℕ) : defLoop fuel input line text count ≠ .ok r := by
  induction fuel generalizing input line text count with
  | zero => exact fun h => by cases h
  | succ fuel ih =>
      intro hok
      rw [defLoop, if_neg hline] at hok
      obtain ⟨s, -, hok⟩ := Outcome.bind_eq_ok.1 hok
      obtain ⟨text', -, hok⟩ := Outcome.bind_eq_ok.1 hok
      obtain ⟨hhead, hleft⟩ := fgets_noBlank h fun _ => hline
      exact ih hleft hhead text' _ hok

/-- **Nor does the main loop**, when a word is about to be read. -/
theorem convertLoop_ne_ok_of_noBlank (fuel : ℕ) {input : Stream} (h : NoBlankLeft input)
    (heof : input.eof = false) {line : List Byte}
    (hline : input.rest = [] → line.head? ≠ some newline) (dr : Dictrec) (out file : List Byte) :
    convertLoop fuel input line dr out ≠ .ok file := by
  cases fuel with
  | zero => exact fun h => by cases h
  | succ fuel =>
      intro hok
      obtain ⟨hhead, hleft⟩ := fgets_noBlank h hline
      obtain ⟨hhead', hleft'⟩ := fgets_noBlank hleft fun _ => hhead
      rw [convertLoop, feof, heof, if_neg (by simp)] at hok
      dsimp only at hok
      rw [if_neg hhead] at hok
      obtain ⟨s, -, hok⟩ := Outcome.bind_eq_ok.1 hok
      obtain ⟨word, -, hok⟩ := Outcome.bind_eq_ok.1 hok
      obtain ⟨r, hr, -⟩ := Outcome.bind_eq_ok.1 hok
      exact defLoop_ne_ok_of_noBlank fuel hleft' hhead' _ _ r hr

/-! ### With entries that fit -/

/-- Each line of an entry that fits is shorter than the array. -/
theorem Fits.length_lt {e : List (List Byte)} (h : Fits e) {l : List Byte} (hl : l ∈ e) :
    l.length < BIGLINE - 1 := by
  obtain ⟨hW, hT, hB⟩ := sizes
  obtain ⟨hword, htext⟩ := h
  cases e with
  | nil => cases hl
  | cons w defs =>
      rcases List.mem_cons.1 hl with rfl | hl
      · rw [List.headD_cons] at hword
        omega
      · have hle := (List.sublist_flatten_of_mem hl).length_le
        rw [List.tail_cons] at htext
        omega

/-- The main loop ends on the rest of a text exactly if that rest ends well. -/
def EndsOn (content : List Byte) : Prop :=
  ∀ (fuel : ℕ) (input : Stream) (line out : List Byte), input.rest = content → input.eof = false →
    line.length = BIGLINE → content.length + 2 ≤ fuel → ∀ file,
      convertLoop fuel input line blank out = .ok file ↔
        EndsWell line content ∧ file = out ++ (entriesOf content).flatMap recordOf

theorem endsOn_nil : EndsOn [] := by
  intro fuel input line out hrest heof hline hfuel file
  by_cases hnl : line.head? = some newline
  · obtain ⟨fuel, rfl⟩ : ∃ m, fuel = m + 2 := ⟨fuel - 2, by simp at hfuel; omega⟩
    have hends : EndsWell line [] := Or.inr ⟨rfl, hnl⟩
    rw [convertLoop_end hrest heof hnl, Outcome.ok.injEq, entriesOf_nil, List.flatMap_nil,
      List.append_nil, eq_comm]
    exact ⟨fun h => ⟨hends, h⟩, fun h => h.2⟩
  · have hends : ¬ EndsWell line [] := by simp [EndsWell, not_endsBlank_nil, hnl]
    exact iff_of_false (convertLoop_ne_ok_of_noBlank fuel (noBlankLeft_of_rest_nil hrest) heof
      (fun _ => hnl) blank out file) fun h => hends h.1

/-- Behind a blank line it only matters how the text goes on. -/
theorem endsWell_of_head {line : List Byte} (h : line.head? = some newline) (content : List Byte) :
    EndsWell line content ↔ content = [] ∨ EndsBlank content := by
  rw [EndsWell, or_comm, and_iff_left h]

theorem endsWell_of_ne_nil {content : List Byte} (h : content ≠ []) (line : List Byte) :
    EndsWell line content ↔ EndsBlank content := by
  simp [EndsWell, h]

theorem endsOn_blank {t : List Byte} (ih : EndsOn t) : EndsOn (newline :: t) := by
  intro fuel input line out hrest heof hline hfuel file
  rw [List.length_cons] at hfuel
  obtain ⟨fuel, rfl⟩ : ∃ m, fuel = m + 1 := ⟨fuel - 1, by omega⟩
  rw [convertLoop_blank hrest heof, ih fuel _ _ out (rest_after_newline hrest) heof
    (length_lineBuf_nil hline) (by omega), endsWell_of_head (lineBuf_nil line),
    endsWell_of_ne_nil (List.cons_ne_nil newline t), endsBlank_blank, entriesOf_blank]

theorem endsOn_entry {w : List Byte} {defs : List (List Byte)} {t : List Byte} (hw : IsLine w)
    (hdefs : ∀ l ∈ defs, IsLine l) (hfits : Fits (group w defs)) (ih : EndsOn t) :
    EndsOn (w ++ newline :: (linesOf defs ++ newline :: t)) := by
  intro fuel input line out hrest heof hline hfuel file
  have hlen := length_le_linesOf defs
  simp only [List.length_append, List.length_cons] at hfuel
  obtain ⟨fuel, rfl⟩ : ∃ m, fuel = m + 1 := ⟨fuel - 1, by omega⟩
  obtain ⟨hword, htext⟩ := fits_group.1 hfits
  obtain ⟨line', input', hline', hnl, heof', hrest', hstep⟩ :=
    convertLoop_entry hw hword hdefs htext hrest heof (by omega : defs.length < fuel) hline out
  rw [hstep, ih fuel input' line' _ hrest' heof' hline' (by omega), endsWell_of_head hnl,
    endsWell_of_ne_nil (by simp), endsBlank_entry hw hdefs, entriesOf_entry hw hdefs,
    List.flatMap_cons, recordOf_group hfits, List.append_assoc]

theorem endsOn_noBlank {t : List Byte} (hne : t ≠ []) (h : [newline] ∉ lines newline t)
    (hfits : Fits (lines newline t)) : EndsOn t := by
  intro fuel input line out hrest heof _ _ file
  have hleft : NoBlankLeft input := by
    intro l hl
    rw [hrest] at hl
    exact ⟨fun h' => h (h' ▸ hl), hfits.length_lt hl⟩
  have hends : ¬ EndsWell line t := by
    rw [endsWell_of_ne_nil hne]
    exact not_endsBlank_noBlank h
  exact iff_of_false (convertLoop_ne_ok_of_noBlank fuel hleft heof
    (fun h' => absurd (hrest.symm.trans h') hne) blank out file) fun h' => hends h'.1

/-- **What the main loop makes of a text whose entries fit.** -/
theorem convertLoop_content {content : List Byte} (hnul : nul ∉ content)
    (hfits : ∀ e ∈ entriesOf content, Fits e) : EndsOn content := by
  refine textInduction (P := fun t => (∀ e ∈ entriesOf t, Fits e) → EndsOn t) ?nil ?blank ?entry
    ?noBlank hnul hfits
  case nil => exact fun _ => endsOn_nil
  case blank =>
    intro t ih hfits
    rw [entriesOf_blank] at hfits
    exact endsOn_blank (ih hfits)
  case entry =>
    intro w defs t hw hdefs ih hfits
    rw [entriesOf_entry hw hdefs] at hfits
    exact endsOn_entry hw hdefs (hfits _ (by simp)) (ih fun e he => hfits e (by simp [he]))
  case noBlank =>
    intro t hne h hfits
    rw [entriesOf_noBlank hne h] at hfits
    exact endsOn_noBlank hne h (hfits _ (by simp))

/-- What `convert` writes for a text that ends well. -/
theorem convert_content {content : List Byte} (hnul : nul ∉ content)
    (hfits : ∀ e ∈ entriesOf content, Fits e) {line : List Byte} (hline : line.length = BIGLINE)
    (hends : EndsWell line content) {fuel : ℕ} (hfuel : content.length + 2 ≤ fuel) :
    convert fuel line content = .ok ((entriesOf content).flatMap recordOf) :=
  (convertLoop_content hnul hfits fuel (fopen content) line [] rfl rfl hline hfuel _).2 ⟨hends, rfl⟩

/-- **`convert` ends**, with the record of every entry written, exactly on the texts whose last line
is blank; and on the empty text exactly when the array `line` happens to begin with a newline. -/
theorem converts_iff {content : List Byte} (hnul : nul ∉ content)
    (hfits : ∀ e ∈ entriesOf content, Fits e) {line : List Byte} (hline : line.length = BIGLINE) :
    Converts line content ↔ EndsBlank content ∨ (content = [] ∧ line.head? = some newline) := by
  constructor
  · rintro ⟨n, hn⟩
    have hok := hn (max n (content.length + 2)) (le_max_left _ _)
    exact ((convertLoop_content hnul hfits _ (fopen content) line [] rfl rfl hline
      (le_max_right _ _) _).1 hok).1
  · intro hends
    exact ⟨content.length + 2, fun fuel hfuel => convert_content hnul hfits hline hends hfuel⟩

/-- A word with a definition of one line and a blank line behind it. -/
theorem converts_oneEntry :
    Converts (List.replicate BIGLINE nul) [97, newline, 98, newline, newline] :=
  (converts_iff (by decide) (by decide) List.length_replicate).2 (Or.inl (by decide))

/-- **The same text without the blank line**: the last line stays in the array. -/
theorem not_converts_without_blank :
    nul ∉ [97, newline, 98, newline] ∧ (∀ e ∈ entriesOf [97, newline, 98, newline], Fits e) ∧
      ¬ Converts (List.replicate BIGLINE nul) [97, newline, 98, newline] := by
  have hends : ¬ EndsBlank [97, newline, 98, newline] := by decide
  have hloop : EndsOn [97, newline, 98, newline] := convertLoop_content (by decide) (by decide)
  refine ⟨by decide, by decide, ?_⟩
  rintro ⟨n, hn⟩
  have hok := hn (max n 6) (le_max_left _ _)
  have hwell := ((hloop (max n 6) (fopen _) _ [] rfl rfl List.length_replicate (le_max_right _ _)
    _).1 hok).1
  rcases hwell with h | ⟨h, -⟩
  · exact hends h
  · cases h

end Dict
