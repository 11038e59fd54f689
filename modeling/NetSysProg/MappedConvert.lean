/-
**`lookup5` on a file that `convert` has written.**

`convert` stores a word together with the newline of its line.  `lookup1` reads the word as a line
and takes the newline off; `lookup5` compares the field as it is, up to a null byte.  A query comes
from `gets` and has no newline, so it is different from every word that `lookup5` looks at.

Main definitions:

* `Mapped.Agrees` — two lookups find the same, up to newlines at the end of the text.

Main results:

* `Mapped.lookup5_records` — **`lookup5` finds nothing in a file that `convert` has written**;
* `Mapped.lookups_agree_iff` — **`lookup5` agrees with `lookup1` exactly on the words that are not
  in the dictionary**.
-/

import NetSysProg.ConvertFields
import NetSysProg.DictRoundTrip
import NetSysProg.MappedModel
import Mathlib.Data.List.DropRight

set_option relaxedAutoImplicit false
set_option autoImplicit false

namespace Mapped

open CString
open Dict (Dictrec WORD TEXT BIGLINE Status Statics Entry Query records)
open Remote (recSize)

/-- Both lookups return, one of them `FOUND` exactly when the other does, and then with the same
text up to newlines at its end. -/
def Agrees (near far : Outcome (Status × Dictrec)) : Prop :=
  ∃ st r st' r', near = .ok (st, r) ∧ far = .ok (st', r') ∧ (st' = .found ↔ st = .found) ∧
    (st = .found → ∃ t t', str r.text = .ok t ∧ str r'.text = .ok t' ∧
      t.rdropWhile (· = newline) = t'.rdropWhile (· = newline))

/-- The answer of `lookup1`, without the variables it keeps. -/
def lookup1 (fuel : ℕ) (resource : String) (file line : List Byte) (sought : Dictrec) :
    Outcome (Status × Dictrec) := do
  let (status, sought, _) ← Dict.lookup fuel resource (some file) line .initial sought
  return (status, sought)

/-! ### The records of `convert` in memory -/

theorem length_record_of_mem (entries : List Entry) :
    ∀ e ∈ entries, e.record.length = recSize := fun e _ => e.passage.length_record

theorem length_records (entries : List Entry) :
    (records entries).length = entries.length * recSize :=
  length_flatMap_const (length_record_of_mem entries)

/-- A line is different from a string without a newline. -/
theorem strcmp_line {w q : List Byte} (hw : nul ∉ w) (hq : newline ∉ q) (rest rest' : List Byte) :
    ∃ c, strcmp (w ++ newline :: rest) (q ++ nul :: rest') = .ok c ∧ c ≠ 0 := by
  have hne : ∀ a b : Byte, a ≠ b → (a.toNat : ℤ) - b.toNat ≠ 0 := by
    intro a b hab h
    exact hab (UInt8.toNat_inj.1 (by omega))
  induction w generalizing q with
  | nil =>
      cases q with
      | nil => exact ⟨_, if_neg newline_ne_nul, hne _ _ newline_ne_nul⟩
      | cons b bs =>
          have hb : newline ≠ b := fun h => hq (by simp [h])
          exact ⟨_, if_neg hb, hne _ _ hb⟩
  | cons a as ih =>
      rw [List.mem_cons, not_or] at hw
      cases q with
      | nil => exact ⟨_, if_neg (Ne.symm hw.1), hne _ _ (Ne.symm hw.1)⟩
      | cons b bs =>
          rw [List.mem_cons, not_or] at hq
          rw [List.cons_append, List.cons_append, strcmp]
          split
          · rw [if_neg (Ne.symm hw.1)]
            exact ih hw.2 hq.2
          · rename_i hab
            exact ⟨_, rfl, hne _ _ hab⟩

/-- A word of the dictionary, where it lies in memory. -/
theorem entryAt_records {entries : List Entry} {mid : ℕ} {e : Entry} (he : entries[mid]? = some e) :
    ∃ rest, entryAt (some (records entries)) mid = .ok (e.word ++ newline :: rest) := by
  obtain ⟨hmid, rfl⟩ := List.getElem?_eq_some_iff.1 he
  obtain ⟨fill, fill', hrecord, -⟩ := (entries[mid]).passage.record_eq
  refine ⟨fill ++ (Dict.linesOf (entries[mid]).passage.defs ++ newline :: fill') ++
    records (entries.drop (mid + 1)), ?_⟩
  rw [entryAt, Outcome.deref_some, Outcome.bind_ok, if_pos (Int.natCast_nonneg mid),
    Int.toNat_natCast, records, drop_flatMap_const (length_record_of_mem entries),
    List.drop_eq_getElem_cons hmid, List.flatMap_cons, show (entries[mid]).record = _ from hrecord]
  simp [records, Entry.passage]

/-- **The search does not find anything.** -/
theorem search_records (entries : List Entry) {sought : Dictrec} {q : List Byte}
    (hsought : str sought.word = .ok q) (hq : newline ∉ q) (left : ℕ) {start stop : ℤ}
    (hstart : 0 ≤ start) (hle : start ≤ stop) (hstop : stop ≤ entries.length) :
    search (some (records entries)) sought left start stop = .ok none := by
  induction left generalizing start stop with
  | zero => rfl
  | succ left ih =>
      rw [search]
      split
      · rfl
      · rename_i hne
        obtain ⟨mid, hmid⟩ : ∃ mid : ℕ, (stop - start).tdiv 2 + start = mid := by
          rw [Int.tdiv_eq_ediv_of_nonneg (by omega)]
          exact ⟨((stop - start) / 2 + start).toNat, by omega⟩
        have hbounds : start ≤ mid ∧ (mid : ℤ) < stop := by
          rw [← hmid, Int.tdiv_eq_ediv_of_nonneg (by omega)]
          omega
        obtain ⟨e, he⟩ : ∃ e, entries[mid]? = some e :=
          ⟨_, List.getElem?_eq_getElem (by omega)⟩
        obtain ⟨rest, hentry⟩ := entryAt_records he
        obtain ⟨rest', hword⟩ := exists_of_str hsought
        obtain ⟨c, hc, hne0⟩ := strcmp_line e.isLine_word.nul_notMem hq rest rest'
        dsimp only
        rw [hmid, hentry, Outcome.bind_ok, hword, hc, Outcome.bind_ok, if_neg hne0]
        split
        · exact ih (by omega) (by omega) hstop
        · exact ih hstart (by omega) (by omega)

/-- **`lookup5` finds nothing** in a file that `convert` has written, and when there are so many
records that the size of the file is negative as an `int` it does not even return. -/
theorem lookup5_records (entries : List Entry) {sought : Dictrec} {q : List Byte}
    (hsought : str sought.word = .ok q) (hq : newline ∉ q) :
    lookup5 (records entries) sought =
      if 0 ≤ CInt.wrap (entries.length * recSize) then .ok (.notFound, sought) else .fault := by
  have hsize : 0 < recSize := by decide
  obtain ⟨numrec, hnumrec⟩ : ∃ numrec, numrec = numrecOf (records entries) := ⟨_, rfl⟩
  have hdiv : numrec = CInt.wrap (entries.length * recSize) / recSize := by
    rw [hnumrec, numrecOf_eq, length_records, Int.natCast_mul]
  have hbounds : (0 ≤ numrec ↔ 0 ≤ CInt.wrap (entries.length * recSize)) ∧
      numrec ≤ entries.length := by
    have hrec : (recSize : ℤ) = 512 := rfl
    rw [hdiv, hrec]
    unfold CInt.wrap
    omega
  rcases Int.lt_trichotomy numrec 0 with hneg | hzero | hpos
  · rw [if_neg (by rw [← hbounds.1]; omega), lookup5_of_neg (hnumrec ▸ hneg)]
  · rw [if_pos (by rw [← hbounds.1]; omega), lookup5, ← hnumrec, hzero, search, if_pos rfl]
    rfl
  · obtain ⟨n, hn⟩ : ∃ n : ℕ, numrec = n := ⟨numrec.toNat, by omega⟩
    have hmap : mmap (records entries) (numrec * recSize) = some (records (entries.take n)) := by
      have hcast : (n : ℤ) * recSize = (n * recSize : ℕ) := by push_cast; rfl
      rw [mmap, if_pos (Int.mul_pos hpos (Int.natCast_pos.2 hsize)), hn, hcast, Int.toNat_natCast,
        records, take_flatMap_const (length_record_of_mem entries)]
      rfl
    have hlen : numrec ≤ (entries.take n).length := by
      rw [List.length_take]
      omega
    rw [if_pos (by rw [← hbounds.1]; omega), lookup5, ← hnumrec, hmap,
      search_records _ hsought hq 100 (Int.le_refl 0) (Int.le_of_lt hpos) hlen]
    rfl

/-- The two lookups of a word without a newline, on the records of the entries. -/
theorem agrees_records_iff (entries : List Entry) (q : Query) (hq : newline ∉ q.word)
    (resource : String) {fuel : ℕ} (hfuel : (records entries).length < fuel) :
    Agrees (lookup1 fuel resource (records entries) q.line q.sought)
        (lookup5 (records entries) q.sought) ↔
      (∀ e ∈ entries, e.word ≠ q.word) ∧ 0 ≤ CInt.wrap (entries.length * recSize) := by
  obtain ⟨answer, statics, hlookup, hanswer, -⟩ :=
    @Dict.lookup_records entries q .initial (.inl rfl) resource fuel hfuel
  have hnear : lookup1 fuel resource (records entries) q.line q.sought =
      .ok (answer.1, answer.2) := by
    rw [lookup1, hlookup]
    rfl
  rw [hnear, lookup5_records entries q.str_word hq]
  have hfind : answer.1 = .found ↔ ∃ e ∈ entries, e.word = q.word := by
    rw [Dict.Answers] at hanswer
    cases h : entries.find? (fun e => e.word = q.word) with
    | none =>
        rw [h] at hanswer
        have hnone := List.find?_eq_none.1 h
        simp only [decide_eq_true_eq] at hnone
        refine iff_of_false (fun h' => ?_) ?_
        · rw [hanswer] at h'
          cases h'
        · rintro ⟨e, he, hword⟩
          exact hnone e he hword
    | some e =>
        rw [h] at hanswer
        have hword := List.find?_some h
        exact iff_of_true hanswer.1 ⟨e, List.mem_of_find?_eq_some h, by simpa using hword⟩
  constructor
  · rintro ⟨st, r, st', r', hst, hst', hiff, -⟩
    cases hst
    by_cases hpos : 0 ≤ CInt.wrap (entries.length * recSize)
    · rw [if_pos hpos] at hst'
      cases hst'
      refine ⟨fun e he hword => ?_, hpos⟩
      cases hiff.2 (hfind.2 ⟨e, he, hword⟩)
    · rw [if_neg hpos] at hst'
      cases hst'
  · rintro ⟨hne, hpos⟩
    have hmiss : answer.1 ≠ .found := by
      intro h
      obtain ⟨e, he, hword⟩ := hfind.1 h
      exact hne e he hword
    exact ⟨answer.1, answer.2, .notFound, q.sought, rfl, if_pos hpos,
      iff_of_false (fun h => by cases h) hmiss, fun h => absurd h hmiss⟩

/-- **`lookup5` agrees with `lookup1`** on a file that `convert` has written exactly for the words
that are not in the dictionary, if the size of the file is not negative as an `int`. -/
theorem lookups_agree_iff (blanks : ℕ) (entries : List Entry) {line : List Byte}
    (hline : line.length = BIGLINE) {fuel : ℕ} {file : List Byte}
    (hfile : Dict.convert fuel line (Dict.text blanks entries) = .ok file) (q : Query)
    (hq : newline ∉ q.word) (resource : String) {fuel' : ℕ} (hfuel' : file.length < fuel') :
    Agrees (lookup1 fuel' resource file q.line q.sought) (lookup5 file q.sought) ↔
      (∀ e ∈ entries, e.word ≠ q.word) ∧ 0 ≤ CInt.wrap (entries.length * recSize) := by
  obtain rfl : file = records entries := Dict.file_eq_records hline (le_max_right fuel _)
    (Dict.convert_ok_mono (le_max_left fuel ((Dict.text blanks entries).length + 2)) hfile)
  exact agrees_records_iff entries q hq resource hfuel'

/-- The query for `a`. -/
def aQuery : Query where
  word := [97]
  sought := ⟨pad WORD [97], pad TEXT []⟩
  line := List.replicate BIGLINE nul
  str_word := str_pad (by decide) (by decide)
  word_length := length_pad (by decide)
  line_length := List.length_replicate

/-- **A word that is not in the dictionary** of the single word `ox`. -/
theorem agrees_missing :
    ∃ file, Dict.convert 16 (List.replicate BIGLINE nul) (Dict.text 1 [Dict.oxEntry]) = .ok file ∧
      Agrees (lookup1 (file.length + 1) "fixrec" file aQuery.line aQuery.sought)
        (lookup5 file aQuery.sought) := by
  have hfile : Dict.convert 16 (List.replicate BIGLINE nul) (Dict.text 1 [Dict.oxEntry]) = .ok _ :=
    Dict.convert_text (by decide) (by decide) List.length_replicate
  refine ⟨_, hfile,
    (lookups_agree_iff 1 [Dict.oxEntry] List.length_replicate hfile aQuery (by decide) "fixrec"
    (Nat.lt_add_one _)).2 ⟨?_, by decide⟩⟩
  intro e he
  rw [List.mem_singleton] at he
  subst he
  decide

/-- **A word of the dictionary**: `lookup1` finds it and `lookup5` does not. -/
theorem not_agrees_ox :
    ∃ file, Dict.convert 16 (List.replicate BIGLINE nul) (Dict.text 1 [Dict.oxEntry]) = .ok file ∧
      ¬ Agrees (lookup1 (file.length + 1) "fixrec" file Dict.oxQuery.line Dict.oxQuery.sought)
        (lookup5 file Dict.oxQuery.sought) := by
  refine ⟨_, Dict.convert_text (by decide) (by decide) List.length_replicate, fun h => ?_⟩
  have hne := ((agrees_records_iff [Dict.oxEntry] Dict.oxQuery (by decide) "fixrec"
    (Nat.lt_add_one _)).1 h).1
  exact hne Dict.oxEntry (by simp) rfl

end Mapped
