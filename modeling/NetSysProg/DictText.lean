/-
**The texts that `convert` reads.**

A text is any sequence of bytes without null bytes.  Its entries are the maximal groups of
consecutive lines that are not blank: the first line of a group is a word, and the lines behind it
are its definition.

Main definitions:

* `Dict.entriesOf` — the entries of a text, each the list of its lines;
* `Dict.recordOf` — the record of an entry, truncated at the ends of the fields;
* `Dict.Fits` — nothing has to be truncated;
* `Dict.EndsBlank` — the last line of the text is blank.

Main results:

* `Dict.textInduction` — **a text is taken apart entry by entry**, until there is no blank line
  left;
* `Dict.entriesOf_entry` — the lines in front of a blank line are one entry;
* `Dict.endsBlank_entry`, `Dict.endsBlank_blank` — whether the text ends with a blank line is
  decided behind them.
-/

import NetSysProg.DictConvert
import NetSysProg.TextLines
import NetSysProg.Words

set_option relaxedAutoImplicit false
set_option autoImplicit false

namespace Dict

open CString Stdio TextLines Words

/-- The entries of a text: the maximal groups of consecutive lines that are not blank. -/
def entriesOf (content : List Byte) : List (List (List Byte)) :=
  words (· == [newline]) (lines newline content)

/-- The record of an entry: its first line, and its other lines with one more newline, both
truncated at the end of the field and filled up with null bytes. -/
def recordOf (e : List (List Byte)) : List Byte :=
  pad WORD ((e.headD []).take WORD) ++ pad TEXT (e.tail.flatten.take (TEXT - 1) ++ [newline])

/-- The word with its newline, and the definition with one more newline, are no longer than their
fields. -/
def Fits (e : List (List Byte)) : Prop :=
  (e.headD []).length ≤ WORD ∧ e.tail.flatten.length ≤ TEXT - 1

instance (e : List (List Byte)) : Decidable (Fits e) := inferInstanceAs (Decidable (_ ∧ _))

/-- The last line of the text is blank. -/
def EndsBlank (content : List Byte) : Prop := (lines newline content).getLast? = some [newline]

instance (content : List Byte) : Decidable (EndsBlank content) :=
  inferInstanceAs (Decidable (_ = _))

/-- The lines of an entry: a word and the lines of its definition. -/
def group (w : List Byte) (defs : List (List Byte)) : List (List Byte) :=
  (w :: defs).map (· ++ [newline])

@[simp] theorem headD_group (w : List Byte) (defs : List (List Byte)) :
    (group w defs).headD [] = w ++ [newline] := rfl

@[simp] theorem flatten_tail_group (w : List Byte) (defs : List (List Byte)) :
    (group w defs).tail.flatten = linesOf defs := by
  rw [group, List.map_cons, List.tail_cons, linesOf, List.flatMap_def]

theorem fits_group {w : List Byte} {defs : List (List Byte)} :
    Fits (group w defs) ↔ w.length ≤ WORD - 1 ∧ (linesOf defs).length ≤ TEXT - 1 := by
  obtain ⟨hW, -, -⟩ := sizes
  rw [Fits, headD_group, flatten_tail_group, List.length_append, List.length_singleton]
  exact and_congr_left fun _ => by omega

/-- **The record of an entry that fits.** -/
theorem recordOf_group {w : List Byte} {defs : List (List Byte)} (h : Fits (group w defs)) :
    recordOf (group w defs) =
      pad WORD (w ++ [newline]) ++ pad TEXT (linesOf defs ++ [newline]) := by
  obtain ⟨hword, htext⟩ := h
  rw [recordOf, List.take_of_length_le hword, List.take_of_length_le htext, headD_group,
    flatten_tail_group]

/-! ### Lines -/

theorem lines_linesOf {ls : List (List Byte)} (h : ∀ l ∈ ls, IsLine l) (t : List Byte) :
    lines newline (linesOf ls ++ t) = ls.map (· ++ [newline]) ++ lines newline t := by
  induction ls with
  | nil => rfl
  | cons l ls ih =>
      rw [linesOf_cons, List.append_assoc, List.cons_append,
        lines_append_sep newline (h l (by simp)).newline_notMem,
        ih fun x hx => h x (by simp [hx]), List.map_cons, List.cons_append]

theorem lines_blank (t : List Byte) : lines newline (newline :: t) = [newline] :: lines newline t :=
  lines_append_sep newline List.not_mem_nil t

/-- The lines of a text that begins with an entry. -/
theorem lines_entry {w : List Byte} {defs : List (List Byte)} (hw : IsLine w)
    (hdefs : ∀ l ∈ defs, IsLine l) (t : List Byte) :
    lines newline (w ++ newline :: (linesOf defs ++ newline :: t)) =
      group w defs ++ [newline] :: lines newline t := by
  rw [lines_append_sep newline hw.newline_notMem, lines_linesOf hdefs, lines_blank, group,
    List.map_cons, List.cons_append]

theorem group_ne_blank {w : List Byte} {defs : List (List Byte)} (hw : IsLine w)
    (hdefs : ∀ l ∈ defs, IsLine l) : ∀ l ∈ group w defs, (l == [newline]) = false := by
  intro l hl
  obtain ⟨l', hl', rfl⟩ := List.mem_map.1 hl
  have hline : IsLine l' := by
    rcases List.mem_cons.1 hl' with rfl | hl'
    · exact hw
    · exact hdefs l' hl'
  have hne := hline.ne_nil
  simp [hne]

/-! ### Entries -/

@[simp] theorem entriesOf_nil : entriesOf [] = [] := rfl

theorem entriesOf_blank (t : List Byte) : entriesOf (newline :: t) = entriesOf t := by
  rw [entriesOf, lines_blank, words_cons_delim _ (by simp), entriesOf]

/-- **The lines in front of a blank line** are one entry. -/
theorem entriesOf_entry {w : List Byte} {defs : List (List Byte)} (hw : IsLine w)
    (hdefs : ∀ l ∈ defs, IsLine l) (t : List Byte) :
    entriesOf (w ++ newline :: (linesOf defs ++ newline :: t)) = group w defs :: entriesOf t := by
  rw [entriesOf, lines_entry hw hdefs,
    words_run (group_ne_blank hw hdefs) (by simp [group]) (by simp), entriesOf]

/-- A text without a blank line is one entry. -/
theorem entriesOf_noBlank {t : List Byte} (hne : t ≠ []) (h : [newline] ∉ lines newline t) :
    entriesOf t = [lines newline t] := by
  refine words_singleton (fun l hl => ?_) (by rwa [ne_eq, lines_eq_nil])
  rw [beq_eq_false_iff_ne]
  rintro rfl
  exact h hl

theorem not_endsBlank_nil : ¬ EndsBlank [] := by simp [EndsBlank, lines]

theorem endsBlank_append {ls : List (List Byte)} {t t' : List Byte}
    (h : lines newline t' = ls ++ [newline] :: lines newline t) :
    EndsBlank t' ↔ t = [] ∨ EndsBlank t := by
  rw [EndsBlank, h, List.getLast?_append, List.getLast?_cons]
  by_cases ht : t = []
  · simp [ht, lines]
  · have hne : lines newline t ≠ [] := by rwa [ne_eq, lines_eq_nil]
    simp [ht, EndsBlank, List.getLast?_eq_getLast_of_ne_nil hne]

theorem endsBlank_blank (t : List Byte) : EndsBlank (newline :: t) ↔ t = [] ∨ EndsBlank t :=
  @endsBlank_append [] _ _ (lines_blank t)

theorem endsBlank_entry {w : List Byte} {defs : List (List Byte)} (hw : IsLine w)
    (hdefs : ∀ l ∈ defs, IsLine l) (t : List Byte) :
    EndsBlank (w ++ newline :: (linesOf defs ++ newline :: t)) ↔ t = [] ∨ EndsBlank t :=
  endsBlank_append (lines_entry hw hdefs t)

theorem not_endsBlank_noBlank {t : List Byte} (h : [newline] ∉ lines newline t) :
    ¬ EndsBlank t := fun h' => h (List.mem_of_getLast? h')

/-! ### Taking a text apart -/

/-- In front of the first blank line there are lines that are not blank. -/
theorem exists_linesOf {t : List Byte} (hnul : nul ∉ t) (h : [newline] ∈ lines newline t) :
    ∃ ls t', t = linesOf ls ++ newline :: t' ∧ ∀ l ∈ ls, IsLine l := by
  induction hn : t.length using Nat.strong_induction_on generalizing t with
  | _ n ih =>
      by_cases hnl : newline ∈ t
      · obtain ⟨l, t₁, rfl, hl⟩ := List.eq_append_cons_of_mem hnl
        rw [lines_append_sep newline hl, List.mem_cons] at h
        by_cases hl0 : l = []
        · exact ⟨[], t₁, by rw [hl0]; rfl, by simp⟩
        · have hne : [newline] ≠ l ++ [newline] := by simp [hl0]
          have hnul' : nul ∉ l ∧ nul ∉ t₁ := by
            rw [List.mem_append, List.mem_cons, not_or, not_or] at hnul
            exact ⟨hnul.1, hnul.2.2⟩
          have hlen : t₁.length < n := by
            rw [← hn, List.length_append, List.length_cons]
            omega
          obtain ⟨ls, t', rfl, hls⟩ := ih t₁.length hlen hnul'.2 (h.resolve_left hne) rfl
          refine ⟨l :: ls, t', by simp, ?_⟩
          intro x hx
          rcases List.mem_cons.1 hx with rfl | hx
          · exact ⟨hl0, hl, hnul'.1⟩
          · exact hls x hx
      · -- a single line without a newline is not blank
        by_cases ht : t = []
        · simp [ht, lines] at h
        · rw [lines_of_notMem newline hnl ht, List.mem_singleton] at h
          exact absurd (by simp [← h]) hnl

/-- **A text is taken apart from its top**: blank lines, and entries with the blank line behind
them, until there is nothing left or no blank line in what is left. -/
theorem textInduction {P : List Byte → Prop} (nil : P []) (blank : ∀ t, P t → P (newline :: t))
    (entry : ∀ w defs t, IsLine w → (∀ l ∈ defs, IsLine l) → P t →
      P (w ++ newline :: (linesOf defs ++ newline :: t)))
    (noBlank : ∀ t, t ≠ [] → [newline] ∉ lines newline t → P t) {content : List Byte}
    (hnul : nul ∉ content) : P content := by
  induction hn : content.length using Nat.strong_induction_on generalizing content with
  | _ n ih =>
      by_cases hne : content = []
      · exact hne ▸ nil
      by_cases hmem : [newline] ∈ lines newline content
      · obtain ⟨ls, t, rfl, hls⟩ := exists_linesOf hnul hmem
        have hlen : t.length < n := by
          rw [← hn, List.length_append, List.length_cons]
          omega
        have ht : P t := ih t.length hlen (fun h => hnul (by simp [h])) rfl
        cases ls with
        | nil => exact blank t ht
        | cons w defs =>
            rw [linesOf_cons, List.append_assoc, List.cons_append]
            exact entry w defs t (hls w (by simp)) (fun l hl => hls l (by simp [hl])) ht
      · exact noBlank content hne hmem

end Dict
