/-
**The bisection of `lookup5.c` (`HW11`).**

The loop keeps the record at `mid` when it goes on with the upper half, so on a word that is missing
the interval shrinks to one record and stays there until the hundred iterations are used up.  On a
word that is there it is found before: each iteration halves the interval, and a hundred of them are
enough for more records than an `int` counts.

Main definitions:

* `Mapped.probes` — the indices that the loop looks at;
* `Mapped.Finds` — what a lookup in a sorted table should do.

Main results:

* `Mapped.search_congr_probes`, `Mapped.search_fault_of_probes` — **these are the records that the
  search reads**: it depends on no others, and it needs each of them;
* `Mapped.probes_mem` — **every index is inside the interval**;
* `Mapped.lookup5_finds` — **the lookup does what it should** when words and texts are
  null-terminated.
-/

import NetSysProg.MappedModel
import NetSysProg.RemoteLookup

set_option relaxedAutoImplicit false
set_option autoImplicit false

namespace Mapped

open CString
open Dict (Dictrec WORD TEXT Status)
open Remote (recSize IsTable IsSorted IsQuery)

/-- The indices `mid` of the search loop, in the order of its iterations. -/
def probes (table : Option (List Byte)) (sought : Dictrec) : ℕ → ℤ → ℤ → List ℤ
  | 0, _, _ => []
  | left + 1, start, stop =>
      if start = stop then []
      else
        let mid := (stop - start).tdiv 2 + start
        mid ::
          match (do strcmp (← entryAt table mid) sought.word) with
          | .ok result =>
              if result = 0 then []
              else if result < 0 then probes table sought left mid stop
              else probes table sought left start mid
          | _ => []

/-- The indices that `lookup` looks at in a file. -/
def probesOf (file : List Byte) (sought : Dictrec) : List ℤ :=
  probes (mmap file (numrecOf file * recSize)) sought 100 0 (numrecOf file)

/-- The lookup returns `FOUND` exactly when a record of the table has the word that is sought; then
the text is that of such a record and the word is as it was, and otherwise nothing has changed. -/
def Finds (table : List Dictrec) (q : Dictrec) (answer : Outcome (Status × Dictrec)) : Prop :=
  ∃ st r', answer = .ok (st, r') ∧
    (st = .found ↔ ∃ r ∈ table, str r.word = str q.word) ∧
    (st = .found → r'.word = q.word ∧
      ∃ r ∈ table, str r.word = str q.word ∧ ∃ t, str r.text = .ok t ∧ str r'.text = .ok t) ∧
    (st = .notFound → r' = q)

/-- The search of a table depends on the records at these indices only. -/
theorem search_congr_probes {table table' : Option (List Byte)} {sought : Dictrec} {left : ℕ}
    {start stop : ℤ}
    (h : ∀ mid ∈ probes table sought left start stop, entryAt table' mid = entryAt table mid) :
    search table' sought left start stop = search table sought left start stop := by
  induction left generalizing start stop with
  | zero => rfl
  | succ left ih =>
      rw [probes] at h
      rw [search, search]
      split
      · rfl
      · next hne =>
          simp only [if_neg hne, List.mem_cons, forall_eq_or_imp] at h
          obtain ⟨hmid, hrest⟩ := h
          dsimp only
          rw [hmid]
          cases hentry : entryAt table ((stop - start).tdiv 2 + start) with
          | ok entry =>
              rw [hentry] at hrest
              cases hcmp : strcmp entry sought.word with
              | ok result =>
                  simp only [Outcome.bind_ok, hcmp] at hrest ⊢
                  split
                  · rfl
                  · next hne0 =>
                      rw [if_neg hne0] at hrest
                      split
                      · next hneg => exact ih (by rwa [if_pos hneg] at hrest)
                      · next hpos => exact ih (by rwa [if_neg hpos] at hrest)
              | exit | fault | timeout => simp [hcmp]
          | exit | fault | timeout => rfl

/-- A record that is not there when the search comes to it. -/
theorem search_fault_of_probes {table : Option (List Byte)} {sought : Dictrec} {left : ℕ}
    {start stop mid : ℤ} (hmid : mid ∈ probes table sought left start stop)
    (hfault : entryAt table mid = .fault) : search table sought left start stop = .fault := by
  induction left generalizing start stop with
  | zero => cases hmid
  | succ left ih =>
      rw [probes] at hmid
      rw [search]
      split at hmid
      · cases hmid
      · next hne =>
          rw [if_neg hne]
          dsimp only
          rcases List.mem_cons.1 hmid with rfl | hmid
          · rw [hfault]
            rfl
          · split at hmid
            · next result hresult =>
                obtain ⟨entry, hentry, hcmp⟩ := Outcome.bind_eq_ok.1 hresult
                rw [hentry, Outcome.bind_ok, hcmp, Outcome.bind_ok]
                split at hmid
                · cases hmid
                · next hne0 =>
                    rw [if_neg hne0]
                    split at hmid
                    · next hneg =>
                        rw [if_pos hneg]
                        exact ih hmid
                    · next hpos =>
                        rw [if_neg hpos]
                        exact ih hmid
            · cases hmid

/-- **Every index is inside the interval**, whatever is in the table. -/
theorem probes_mem (table : Option (List Byte)) (sought : Dictrec) (left : ℕ) {start stop : ℤ}
    (hle : start ≤ stop) : ∀ mid ∈ probes table sought left start stop, start ≤ mid ∧
      mid < stop := by
  induction left generalizing start stop with
  | zero => intro mid hmid; cases hmid
  | succ left ih =>
      intro mid hmid
      rw [probes] at hmid
      split at hmid
      · cases hmid
      · rename_i hne
        obtain ⟨m, hm⟩ : ∃ m, m = (stop - start).tdiv 2 + start := ⟨_, rfl⟩
        have hbounds : start ≤ m ∧ m < stop := by
          rw [hm, Int.tdiv_eq_ediv_of_nonneg (by omega)]
          omega
        simp only [← hm] at hmid
        rcases List.mem_cons.1 hmid with rfl | hmid
        · exact hbounds
        · split at hmid
          · split at hmid
            · cases hmid
            · split at hmid
              · have h := ih (Int.le_of_lt hbounds.2) mid hmid
                exact ⟨Int.le_trans hbounds.1 h.1, h.2⟩
              · have h := ih hbounds.1 mid hmid
                exact ⟨h.1, Int.lt_trans h.2 hbounds.2⟩
          · cases hmid

theorem probesOf_image {table : List Dictrec} (hwords : ∀ r ∈ table, IsQuery r)
    (hmax : (table.length : ℤ) * recSize ≤ CInt.intMax) (q : Dictrec) :
    ∀ mid ∈ probesOf (image table) q, 0 ≤ mid ∧ mid < table.length := by
  intro mid hmid
  rw [probesOf, numrecOf_image hwords hmax] at hmid
  exact probes_mem _ q 100 (Int.natCast_nonneg _) mid hmid

/-- A lookup that finds what a search of the list finds. -/
theorem finds_lookup5 {table : List Dictrec} (htable : IsTable table) (hsorted : IsSorted table)
    (hmax : (table.length : ℤ) ≤ CInt.intMax) {q : Dictrec} (hq : IsQuery q) :
    Finds table q (Remote.lookup5 table q) := by
  obtain ⟨res, hres, hspec⟩ := Remote.found_ok htable hq
  cases res with
  | none =>
      have hmiss : ¬ ∃ r ∈ table, str r.word = str q.word := by
        rintro ⟨r, hr, hword⟩
        obtain ⟨r', -, -, hfound⟩ := Remote.exists_found_of_mem htable hsorted hmax hq hr hword
        rw [hres] at hfound
        cases hfound
      exact ⟨.notFound, q, Remote.lookup5_of_not_found hres,
        iff_of_false (by simp) hmiss, by simp, fun _ => rfl⟩
  | some r =>
      obtain ⟨hr, hword⟩ := hspec r rfl
      obtain ⟨t, ht, -, hlookup⟩ := Remote.lookup5_of_found htable hq hres
      refine ⟨.found, Remote.withText q t, hlookup, iff_of_true rfl ⟨r, hr, hword⟩, fun _ => ?_,
        fun h => by cases h⟩
      exact ⟨rfl, r, hr, hword, t, ht, Remote.str_withText (nul_notMem_of_str ht)⟩

/-- **The bisection of a sorted table**: every record it looks at is one of the table, and the
lookup finds exactly the words that are there. -/
theorem lookup5_finds {table : List Dictrec} (htable : IsTable table) (hsorted : IsSorted table)
    (hmax : (table.length : ℤ) * recSize ≤ CInt.intMax) {q : Dictrec} (hq : IsQuery q) :
    (∀ mid ∈ probesOf (image table) q, 0 ≤ mid ∧ mid < table.length) ∧
      Finds table q (lookup5 (image table) q) := by
  refine ⟨probesOf_image (fun r hr => (htable r hr).toIsQuery) hmax q, ?_⟩
  rw [lookup5_eq htable hmax hq]
  have hsize : (recSize : ℤ) = 512 := rfl
  exact finds_lookup5 htable hsorted (by rw [hsize] at hmax; omega) hq

/-- The words `a`, `b` and `c`, of which `a` is sought, and `d`, which is missing. -/
theorem lookup5_finds_three :
    Finds (Remote.entries Remote.three) (Remote.entry [97] [])
        (lookup5 (image (Remote.entries Remote.three)) (Remote.entry [97] [])) ∧
      Finds (Remote.entries Remote.three) (Remote.entry [100] [])
        (lookup5 (image (Remote.entries Remote.three)) (Remote.entry [100] [])) := by
  have htable : IsTable (Remote.entries Remote.three) := Remote.isTable_entries Remote.fits_three
  have ha : IsQuery (Remote.entry [97] []) := Remote.isQuery_entry (by decide) (by decide)
  have hd : IsQuery (Remote.entry [100] []) := Remote.isQuery_entry (by decide) (by decide)
  exact ⟨(lookup5_finds htable Remote.isSorted_three (by decide) ha).2,
    (lookup5_finds htable Remote.isSorted_three (by decide) hd).2⟩

/-- The word `a` with a text that fills its field. -/
def fullText : Dictrec := ⟨pad WORD Remote.wordA, List.replicate TEXT 97⟩

/-- A table of `2 ^ 31` bytes. -/
def crowd : List Dictrec := List.replicate 4194304 (Remote.entry Remote.wordA [])

theorem isTable_crowd : IsTable crowd := by
  intro r hr
  rw [List.eq_of_mem_replicate hr]
  exact Remote.isEntry_entry (by decide) (by decide) (by decide) List.not_mem_nil

theorem isSorted_crowd : IsSorted crowd := by
  refine List.pairwise_replicate.2 (Or.inr ?_)
  intro v v' hv hv'
  obtain rfl := Outcome.ok.inj (hv.symm.trans hv')
  exact Int.le_of_eq ((cmp_eq_zero (nul_notMem_of_str hv) (nul_notMem_of_str hv)).2 rfl)

/-- The number of its records is negative. -/
theorem numrecOf_crowd : numrecOf (image crowd) = -4194304 := by
  rw [numrecOf_eq, length_image fun r hr => (isTable_crowd r hr).toIsQuery, crowd,
    List.length_replicate]
  rfl

/-- **A text without a null byte** is copied beyond the end of `sought->text`, **and a table of
`2 ^ 31` bytes** is not even mapped. -/
theorem not_finds_fullText :
    ((∀ r ∈ [fullText], IsQuery r) ∧ IsSorted [fullText] ∧ IsQuery (Remote.entry Remote.wordA []) ∧
      ¬ Finds [fullText] (Remote.entry Remote.wordA [])
        (lookup5 (image [fullText]) (Remote.entry Remote.wordA []))) ∧
    IsTable crowd ∧ IsSorted crowd ∧
      ¬ Finds crowd (Remote.entry Remote.wordA [])
        (lookup5 (image crowd) (Remote.entry Remote.wordA [])) := by
  have hfull : IsQuery fullText :=
    ⟨length_pad (by decide), List.length_replicate, _, str_pad (by decide) (by decide)⟩
  have hwords : ∀ r ∈ [fullText], IsQuery r := by
    intro r hr
    rw [List.mem_singleton] at hr
    exact hr ▸ hfull
  have hq : IsQuery (Remote.entry Remote.wordA []) := Remote.isQuery_wordA
  have hcrowd : ¬ Finds crowd (Remote.entry Remote.wordA [])
      (lookup5 (image crowd) (Remote.entry Remote.wordA [])) := by
    rintro ⟨st, r', hok, -⟩
    rw [lookup5_of_neg (by rw [numrecOf_crowd]; decide)] at hok
    cases hok
  refine ⟨⟨hwords, List.pairwise_singleton _ _, hq, ?_⟩, isTable_crowd, isSorted_crowd, hcrowd⟩
  rintro ⟨st, r', hok, -⟩
  have hfound : Remote.found [fullText] (Remote.entry Remote.wordA []) = .ok (some fullText) :=
    Remote.found_singleton (str_pad (by decide) (by decide)) (str_pad (by decide) (by decide))
  rcases lookup5_image hwords (by decide) hq with ⟨hnone, -⟩ | ⟨r, hr, rest, -, hlookup⟩
  · rw [hfound] at hnone
    cases hnone
  · rw [List.mem_singleton] at hr
    have hnul : nul ∉ fullText.text := fun h => absurd (List.eq_of_mem_replicate h) (by decide)
    have hlen : (Remote.entry Remote.wordA []).text.length ≤ fullText.text.length := by
      rw [hq.text_length, hfull.text_length]
    rw [hlookup, hr, strcpy_unterminated hnul hlen] at hok
    cases hok

end Mapped
