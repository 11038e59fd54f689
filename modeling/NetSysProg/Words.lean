/-
**The words of a text.**

A word is a maximal run of symbols that are not delimiters.  The words of a text are what is left of
its pieces between the delimiters when the empty ones are dropped.

Main definitions:

* `Words.words` — the words of a text, from left to right;
* `Words.Blank` — a text of delimiters only.

Main results:

* `Words.words_append_delim` — a delimiter separates words;
* `Words.words_run` — how the first word is found;
* `Words.flatten_words` — **the words are made of the symbols that are not delimiters**;
* `Words.words_blank_append`, `Words.words_append_blank` — delimiters at the ends do not matter.
-/

import Mathlib.Data.List.Basic
import Mathlib.Data.List.TakeWhile

set_option relaxedAutoImplicit false
set_option autoImplicit false

namespace Words

variable {α : Type*} {p : α → Bool}

/-- The maximal runs of symbols for which `p` does not hold. -/
def words (p : α → Bool) (s : List α) : List (List α) := (s.splitOnP p).filter (! ·.isEmpty)

/-- There is nothing but delimiters. -/
def Blank (p : α → Bool) (s : List α) : Prop := ∀ a ∈ s, p a = true

instance (s : List α) : Decidable (Blank p s) := inferInstanceAs (Decidable (∀ a ∈ s, p a = true))

@[simp] theorem words_nil : words p [] = [] := rfl

/-- **A delimiter separates words.** -/
theorem words_append_delim (s t : List α) {d : α} (hd : p d = true) :
    words p (s ++ d :: t) = words p s ++ words p t := by
  rw [words, List.splitOnP_append_cons s t hd, List.filter_append]
  rfl

theorem words_cons_delim (t : List α) {d : α} (hd : p d = true) : words p (d :: t) = words p t := by
  simpa using words_append_delim [] t hd

/-- A run without delimiters is one word. -/
theorem words_singleton {w : List α} (hw : ∀ a ∈ w, p a = false) (hne : w ≠ []) :
    words p w = [w] := by
  rw [words, List.splitOnP_eq_singleton hw]
  simp [hne]

/-- **The first word** ends at the first delimiter behind it. -/
theorem words_run {w : List α} (hw : ∀ a ∈ w, p a = false) (hne : w ≠ []) {d : α}
    (hd : p d = true) (t : List α) : words p (w ++ d :: t) = w :: words p t := by
  rw [words_append_delim w t hd, words_singleton hw hne]
  rfl

theorem Blank.append {s t : List α} (hs : Blank p s) (ht : Blank p t) : Blank p (s ++ t) := by
  intro a ha
  rcases List.mem_append.1 ha with ha | ha
  · exact hs a ha
  · exact ht a ha

/-- **Delimiters in front do not matter.** -/
theorem words_blank_append {b : List α} (hb : Blank p b) (s : List α) :
    words p (b ++ s) = words p s := by
  induction b with
  | nil => rfl
  | cons d b ih =>
      rw [List.cons_append, words_cons_delim _ (hb d (by simp))]
      exact ih fun a ha => hb a (List.mem_cons_of_mem d ha)

/-- **The words are made of the symbols that are not delimiters.** -/
theorem flatten_words (s : List α) : (words p s).flatten = s.filter (! p ·) := by
  have hfilter : ∀ ls : List (List α), (ls.filter (! ·.isEmpty)).flatten = ls.flatten := by
    intro ls
    induction ls with
    | nil => rfl
    | cons l ls ih => cases l <;> simp [ih]
  rw [words, hfilter]
  induction s with
  | nil => rfl
  | cons a s ih =>
      rw [List.splitOnP_cons_eq_if_modifyHead]
      cases ha : p a with
      | true => simp [ha, ih]
      | false =>
          obtain ⟨l, ls, hls⟩ := List.exists_cons_of_ne_nil (List.splitOnP_ne_nil p s)
          rw [hls] at ih
          simp [ha, hls, ← ih]

/-- **A text without words is blank.** -/
theorem words_eq_nil {s : List α} : words p s = [] ↔ Blank p s := by
  constructor
  · intro h a ha
    by_contra hp
    have hmem : a ∈ (words p s).flatten := by
      rw [flatten_words, List.mem_filter]
      exact ⟨ha, by simpa using hp⟩
    simp [h] at hmem
  · intro h
    simpa using words_blank_append h []

end Words
