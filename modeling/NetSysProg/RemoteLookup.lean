/-
**Remote and local lookup (`HW11`).**

A server answers a query it cannot find with the text `XXXX`, and a client takes every other text
for a definition.  So the remote lookups agree with the local one, in their result and in the text,
except on the entries whose definition is that very text.

Main definitions:

* `Remote.Agrees` — the two lookups find the same;
* `Remote.IsSorted` — the words of the table are in the order of `strcmp`;
* `Remote.FindsXxxx` — the entry that the search finds has the text `XXXX`.

Main results:

* `Remote.exists_found_of_mem` — **the search finds every word of a sorted table**;
* `Remote.agrees_iff` — **the three remote lookups agree with the local one exactly when the search
  does not find such an entry**, and in a sorted table with one text for each word that means that
  the word has no such entry.
-/

import NetSysProg.CInt
import NetSysProg.RemoteModel
import Mathlib.Algebra.Group.Nat.Defs

set_option relaxedAutoImplicit false
set_option autoImplicit false

namespace Remote

open CString
open Dict (Dictrec WORD TEXT Status)

/-- The remote lookup returns `FOUND` exactly when the local one does, and then with the same
text. -/
def Agrees (near far : Outcome (Status × Dictrec)) : Prop :=
  ∃ st r st' r', near = .ok (st, r) ∧ far = .ok (st', r') ∧ (st' = .found ↔ st = .found) ∧
    (st = .found → ∃ t, str r.text = .ok t ∧ str r'.text = .ok t)

/-- The entry of the table that the search finds for the query has the text `XXXX`. -/
def FindsXxxx (table : List Dictrec) (q : Dictrec) : Prop :=
  ∃ r, found table q = .ok (some r) ∧ str r.text = .ok xxxx

/-! ### Sorted tables -/

/-- The records stand in the order of their words. -/
def IsSorted (table : List Dictrec) : Prop :=
  table.Pairwise fun r r' => ∀ v v', str r.word = .ok v → str r'.word = .ok v' →
    CString.cmp v v' ≤ 0

/-- All records of a word have the same text. -/
def OneText (table : List Dictrec) : Prop :=
  ∀ r ∈ table, ∀ r' ∈ table, str r.word = str r'.word → str r.text = str r'.text

theorem IsSorted.cmp_le {table : List Dictrec} (h : IsSorted table) {i j : ℕ} (hij : i < j)
    {r r' : Dictrec} (hr : table[i]? = some r) (hr' : table[j]? = some r') {v v' : List Byte}
    (hv : str r.word = .ok v) (hv' : str r'.word = .ok v') : CString.cmp v v' ≤ 0 := by
  obtain ⟨hi, rfl⟩ := List.getElem?_eq_some_iff.1 hr
  obtain ⟨hj, rfl⟩ := List.getElem?_eq_some_iff.1 hr'
  exact List.pairwise_iff_getElem.1 h i j hi hj hij v v' hv hv'

/-- A record with the word that is sought stays between `start` and `end`, and each iteration halves
their distance. -/
theorem exists_search_of_getElem? {table : List Dictrec} (htable : IsTable table)
    (hsorted : IsSorted table) {sought r : Dictrec} {w : List Byte} (hw : str sought.word = .ok w)
    {i : ℕ} (hr : table[i]? = some r) (hword : str r.word = .ok w) {left start stop : ℕ}
    (hstart : start ≤ i) (hi : i < stop) (hstop : stop ≤ table.length)
    (hleft : stop - start ≤ 2 ^ left) :
    ∃ r', search table sought (left + 1) start stop = .ok (some r') := by
  induction left generalizing start stop with
  | zero =>
      -- one record is left
      have hmid : (stop - start) / 2 + start = i := by omega
      have hcmp : dictCmp r.word sought = .ok 0 := by
        rw [dictCmp, strcmp, hword, hw, Outcome.bind_ok, Outcome.bind_ok, Outcome.pure_eq,
          (cmp_eq_zero (nul_notMem_of_str hw) (nul_notMem_of_str hw)).2 rfl]
      refine ⟨r, ?_⟩
      rw [search, if_neg (by omega), hmid]
      simp only [hr, Outcome.deref_some, Outcome.bind_ok, hcmp, if_true, Outcome.pure_eq]
  | succ left ih =>
      obtain ⟨m, hm⟩ : ∃ m, m = (stop - start) / 2 + start := ⟨_, rfl⟩
      obtain ⟨r', hr'⟩ : ∃ r', table[m]? = some r' :=
        ⟨_, List.getElem?_eq_getElem (by omega)⟩
      obtain ⟨v, hv⟩ := (htable r' (List.mem_of_getElem? hr')).word
      have hcmp : dictCmp r'.word sought = .ok (cmp v w) := by
        rw [dictCmp, strcmp, hv, hw, Outcome.bind_ok, Outcome.bind_ok, Outcome.pure_eq]
      rw [search, if_neg (by omega), ← hm]
      simp only [hr', Outcome.deref_some, Outcome.bind_ok, hcmp]
      split
      · exact ⟨r', rfl⟩
      · next hne =>
          have hself : i ≠ m := by
            rintro rfl
            obtain rfl := Option.some.inj (hr.symm.trans hr')
            obtain rfl := Outcome.ok.inj (hword.symm.trans hv)
            exact hne ((cmp_eq_zero (nul_notMem_of_str hw) (nul_notMem_of_str hw)).2 rfl)
          split
          · next hneg =>
              -- the record is not in the lower half
              have hge : m ≤ i := by
                by_contra hlt
                have hle := hsorted.cmp_le (Nat.lt_of_not_le hlt) hr hr' hword hv
                rw [cmp_comm] at hle
                omega
              exact ih hge hi hstop (by omega)
          · next hpos =>
              have hlt : i < m := by
                by_contra hge
                have hle := hsorted.cmp_le (by omega) hr' hr hv hword
                omega
              exact ih hstart hlt (by omega) (by omega)

/-- **The search finds every word of a sorted table**: a hundred iterations are enough for as many
records as an `int` counts. -/
theorem exists_found_of_mem {table : List Dictrec} (htable : IsTable table)
    (hsorted : IsSorted table) (hmax : table.length ≤ CInt.intMax) {q r : Dictrec} (hq : IsQuery q)
    (hmem : r ∈ table) (hword : str r.word = str q.word) :
    ∃ r' ∈ table, str r'.word = str q.word ∧ found table q = .ok (some r') := by
  obtain ⟨w, hw⟩ := hq.word
  obtain ⟨i, hr⟩ := List.mem_iff_getElem?.1 hmem
  have hi : i < table.length := (List.getElem?_eq_some_iff.1 hr).1
  have hleft : table.length - 0 ≤ 2 ^ 99 := by
    unfold CInt.intMax at hmax
    omega
  obtain ⟨r', hfound⟩ := exists_search_of_getElem? htable hsorted hw hr (hword.trans hw)
    (Nat.zero_le i) hi le_rfl hleft
  obtain ⟨res, hres, hspec⟩ := found_ok htable hq
  obtain rfl : res = some r' := Outcome.ok.inj (hres.symm.trans hfound)
  exact ⟨r', (hspec r' rfl).1, (hspec r' rfl).2, hfound⟩

/-- In a sorted table with one text for each word, the search finds the text `XXXX` exactly when the
word has it. -/
theorem findsXxxx_iff_of_sorted {table : List Dictrec} (htable : IsTable table)
    (hsorted : IsSorted table) (hmax : table.length ≤ CInt.intMax) (hone : OneText table)
    {q : Dictrec} (hq : IsQuery q) :
    FindsXxxx table q ↔ ∃ r ∈ table, str r.word = str q.word ∧ str r.text = .ok xxxx := by
  constructor
  · rintro ⟨r, hfound, htext⟩
    obtain ⟨res, hres, hspec⟩ := found_ok htable hq
    obtain rfl : res = some r := Outcome.ok.inj (hres.symm.trans hfound)
    exact ⟨r, (hspec r rfl).1, (hspec r rfl).2, htext⟩
  · rintro ⟨r, hmem, hword, htext⟩
    obtain ⟨r', hmem', hword', hfound⟩ := exists_found_of_mem htable hsorted hmax hq hmem hword
    exact ⟨r', hfound, (hone r' hmem' r hmem (hword'.trans hword.symm)).trans htext⟩

/-! ### The clients -/

/-- What a client makes of the answer with the text `t`. -/
theorem decode_withText {q : Dictrec} {t : List Byte} (ht : nul ∉ t) :
    decode (withText q t) = .ok (if t = xxxx then .notFound else .found, withText q t) := by
  have hx : str (xxxx ++ [nul]) = .ok xxxx := str_append nul_notMem_xxxx []
  have hcmp := cmp_eq_zero ht nul_notMem_xxxx
  simp only [decode, strcmp, str_withText ht, hx, Outcome.bind_ok, Outcome.pure_eq, ne_eq, hcmp,
    ite_not]

section Clients

variable {table : List Dictrec} (htable : IsTable table) {q : Dictrec} (hq : IsQuery q)
include htable hq

/-- A lookup over a stream, when query and answer arrive whole. -/
theorem ask_dialogue (tryit : Dictrec) :
    ∃ t, answerText table q = .ok t ∧ nul ∉ t ∧
      ask (dialogue table tryit) q =
        .ok (if t = xxxx then .notFound else .found, withText q t) := by
  obtain ⟨t, ht, hnul, hlt, hrespond⟩ := respond_of_query htable hq
  refine ⟨t, ht, hnul, ?_⟩
  simp only [ask, dialogue, receive_bytes hq, hrespond, Outcome.bind_ok, Outcome.pure_eq,
    List.head?_cons, Outcome.deref_some, receive_bytes (hq.withText hlt), decode_withText hnul]

/-- A lookup by datagrams that arrive. -/
theorem lookup9_eq (dr : Dictrec) :
    ∃ t, answerText table q = .ok t ∧ nul ∉ t ∧
      lookup9 table dr q = .ok (if t = xxxx then .notFound else .found, withText q t) := by
  obtain ⟨t, ht, hnul, hlt, hrespond⟩ := respond_of_query htable hq
  refine ⟨t, ht, hnul, ?_⟩
  simp only [lookup9, udpServer, receive_bytes hq, hrespond, Outcome.bind_ok,
    receive_bytes (hq.withText hlt), decode_withText hnul]

/-- A remote lookup that decodes the text of the answer agrees with the local one unless that text
is the sentinel. -/
theorem agrees_iff_of_answer {far : Outcome (Status × Dictrec)}
    (h : ∃ t, answerText table q = .ok t ∧
      nul ∉ t ∧ far = .ok (if t = xxxx then .notFound else .found, withText q t)) :
    Agrees (lookup5 table q) far ↔ ¬ FindsXxxx table q := by
  obtain ⟨t, ht, hnul, rfl⟩ := h
  obtain ⟨res, hres, -⟩ := found_ok htable hq
  cases res with
  | none =>
      -- both lookups miss
      obtain rfl : xxxx = t := by
        simpa only [answerText, hres, Outcome.bind_ok, Outcome.pure_eq, Outcome.ok.injEq] using ht
      have hnot : ¬ FindsXxxx table q := by
        rintro ⟨r, hr, -⟩
        rw [hres] at hr
        cases hr
      refine iff_of_true ?_ hnot
      exact ⟨.notFound, q, .notFound, withText q xxxx, lookup5_of_not_found hres,
        by rw [if_pos rfl], Iff.rfl, by simp⟩
  | some r =>
      obtain ⟨t', ht', -, hlookup⟩ := lookup5_of_found htable hq hres
      obtain rfl : t' = t := by
        simpa only [answerText, hres, Outcome.bind_ok, ht', Outcome.ok.injEq] using ht
      have hfinds : FindsXxxx table q ↔ t' = xxxx := by
        constructor
        · rintro ⟨r', hr', hx⟩
          rw [hres] at hr'
          cases hr'
          rw [ht'] at hx
          exact Outcome.ok.inj hx
        · rintro rfl
          exact ⟨r, hres, ht'⟩
      rw [hfinds]
      constructor
      · rintro ⟨st, a, st', a', hnear, hfar, hiff, -⟩ hx
        rw [hlookup] at hnear
        rw [if_pos hx] at hfar
        cases hnear
        cases hfar
        exact absurd (hiff.2 rfl) (by simp)
      · intro hx
        exact ⟨.found, _, .found, _, hlookup, by rw [if_neg hx], Iff.rfl,
          fun _ => ⟨t', str_withText hnul, str_withText hnul⟩⟩

end Clients

/-- **The remote lookups agree with the local one** exactly when the entry that the search of the
table finds, if it finds one, does not have the text `XXXX`; whatever the records of the servers
contain before the query arrives.  In a sorted table with one text for each word, the search finds
such an entry exactly when the word that is asked for has one. -/
theorem agrees_iff {table : List Dictrec} (htable : IsTable table) {q : Dictrec} (hq : IsQuery q)
    (tryit : Dictrec) :
    (Agrees (lookup5 table q) (lookup7 table tryit q) ↔ ¬ FindsXxxx table q) ∧
    (Agrees (lookup5 table q) (lookup8 table tryit q) ↔ ¬ FindsXxxx table q) ∧
    (Agrees (lookup5 table q) (lookup9 table tryit q) ↔ ¬ FindsXxxx table q) ∧
    (IsSorted table → table.length ≤ CInt.intMax → OneText table →
      (FindsXxxx table q ↔ ∃ r ∈ table, str r.word = str q.word ∧ str r.text = .ok xxxx)) :=
  ⟨agrees_iff_of_answer htable hq (ask_dialogue htable hq tryit),
    agrees_iff_of_answer htable hq (ask_dialogue htable hq tryit),
    agrees_iff_of_answer htable hq (lookup9_eq htable hq tryit),
    fun hsorted hmax hone => findsXxxx_iff_of_sorted htable hsorted hmax hone hq⟩

/-! ### Tables of words and texts -/

/-- A record with the given word and text. -/
def entry (w t : List Byte) : Dictrec := ⟨pad WORD w, pad TEXT t⟩

theorem isEntry_entry {w t : List Byte} (hw : w.length < WORD) (ht : t.length < TEXT)
    (hw0 : nul ∉ w) (ht0 : nul ∉ t) : IsEntry (entry w t) where
  word_length := length_pad hw.le
  text_length := length_pad ht.le
  word := ⟨w, str_pad hw hw0⟩
  text := ⟨t, str_pad ht ht0⟩

theorem isQuery_entry {w : List Byte} (hw : w.length < WORD) (hw0 : nul ∉ w) :
    IsQuery (entry w []) := (isEntry_entry hw (by decide) hw0 List.not_mem_nil).toIsQuery

/-- A word and a text that fit into a record. -/
def Fits (p : List Byte × List Byte) : Prop :=
  p.1.length < WORD ∧ p.2.length < TEXT ∧ nul ∉ p.1 ∧ nul ∉ p.2

instance (p : List Byte × List Byte) : Decidable (Fits p) :=
  inferInstanceAs (Decidable (_ ∧ _ ∧ _ ∧ _))

/-- The table with these words and texts. -/
def entries (l : List (List Byte × List Byte)) : List Dictrec := l.map fun p => entry p.1 p.2

section Entries

variable {l : List (List Byte × List Byte)} (hfits : ∀ p ∈ l, Fits p)
include hfits

theorem isTable_entries : IsTable (entries l) := by
  intro r hr
  obtain ⟨p, hp, rfl⟩ := List.mem_map.1 hr
  obtain ⟨hw, ht, hw0, ht0⟩ := hfits p hp
  exact isEntry_entry hw ht hw0 ht0

theorem isSorted_entries (hsorted : l.Pairwise fun p p' => CString.cmp p.1 p'.1 ≤ 0) :
    IsSorted (entries l) := by
  refine List.pairwise_map.2 (hsorted.imp_of_mem ?_)
  intro p p' hp hp' hle v v' hv hv'
  have hw : str (entry p.1 p.2).word = .ok p.1 := str_pad (hfits p hp).1 (hfits p hp).2.2.1
  have hw' : str (entry p'.1 p'.2).word = .ok p'.1 := str_pad (hfits p' hp').1 (hfits p' hp').2.2.1
  rw [← Outcome.ok.inj (hw.symm.trans hv), ← Outcome.ok.inj (hw'.symm.trans hv')]
  exact hle

/-- A table without the text `XXXX`. -/
theorem not_findsXxxx_entries (hx : ∀ p ∈ l, p.2 ≠ xxxx) {q : Dictrec} (hq : IsQuery q) :
    ¬ FindsXxxx (entries l) q := by
  rintro ⟨r, hfound, htext⟩
  obtain ⟨res, hres, hspec⟩ := found_ok (isTable_entries hfits) hq
  obtain rfl : res = some r := Outcome.ok.inj (hres.symm.trans hfound)
  obtain ⟨p, hp, rfl⟩ := List.mem_map.1 (hspec r rfl).1
  have ht : str (entry p.1 p.2).text = .ok p.2 := str_pad (hfits p hp).2.1 (hfits p hp).2.2.2
  exact hx p hp (Outcome.ok.inj (ht.symm.trans htext))

end Entries

/-- A table of one record with the word that is sought. -/
theorem found_singleton {r q : Dictrec} {w : List Byte} (hr : str r.word = .ok w)
    (hq : str q.word = .ok w) : found [r] q = .ok (some r) := by
  have hcmp : dictCmp r.word q = .ok 0 := by
    rw [dictCmp, strcmp, hr, hq, Outcome.bind_ok, Outcome.bind_ok, Outcome.pure_eq,
      (cmp_eq_zero (nul_notMem_of_str hr) (nul_notMem_of_str hr)).2 rfl]
  have hstep : search [r] q (99 + 1) 0 1 = .ok (some r) := by
    rw [search]
    simp [hcmp]
  exact hstep

theorem found_entry {w t : List Byte} (hw : w.length < WORD) (hw0 : nul ∉ w) :
    found [entry w t] (entry w []) = .ok (some (entry w t)) :=
  found_singleton (str_pad hw hw0) (str_pad hw hw0)

/-- The word `a`. -/
def wordA : List Byte := [97]

theorem isQuery_wordA : IsQuery (entry wordA []) := isQuery_entry (by decide) (by decide)

/-- The words `a`, `b` and `c` with the texts `x`, `y` and `XXX`. -/
def three : List (List Byte × List Byte) := [([97], [120]), ([98], [121]), ([99], [88, 88, 88])]

theorem fits_three : ∀ p ∈ three, Fits p := by decide

theorem isSorted_three : IsSorted (entries three) := isSorted_entries fits_three (by decide)

/-- The word `c`, whose text is a part of `XXXX`, and the word `d`, which is missing. -/
theorem agrees_iff_plainText :
    Agrees (lookup5 (entries three) (entry [99] []))
        (lookup7 (entries three) (entry [] []) (entry [99] [])) ∧
      Agrees (lookup5 (entries three) (entry [99] []))
        (lookup9 (entries three) (entry [] []) (entry [99] [])) ∧
      Agrees (lookup5 (entries three) (entry [100] []))
        (lookup8 (entries three) (entry [] []) (entry [100] [])) := by
  have htable : IsTable (entries three) := isTable_entries fits_three
  have hx : ∀ p ∈ three, p.2 ≠ xxxx := by decide
  have hc : IsQuery (entry [99] []) := isQuery_entry (by decide) (by decide)
  have hd : IsQuery (entry [100] []) := isQuery_entry (by decide) (by decide)
  have hagreeC := agrees_iff htable hc (entry [] [])
  have hplain := not_findsXxxx_entries fits_three hx hc
  exact ⟨hagreeC.1.2 hplain, hagreeC.2.2.1.2 hplain,
    (agrees_iff htable hd (entry [] [])).2.1.2 (not_findsXxxx_entries fits_three hx hd)⟩

/-- **An entry whose definition is `XXXX` is not found by any of the clients**, and it is found
locally. -/
theorem not_agrees_xxxx :
    IsTable [entry wordA xxxx] ∧ IsSorted [entry wordA xxxx] ∧ IsQuery (entry wordA []) ∧
    ¬ Agrees (lookup5 [entry wordA xxxx] (entry wordA []))
      (lookup7 [entry wordA xxxx] (entry [] []) (entry wordA [])) ∧
    ¬ Agrees (lookup5 [entry wordA xxxx] (entry wordA []))
      (lookup8 [entry wordA xxxx] (entry [] []) (entry wordA [])) ∧
    ¬ Agrees (lookup5 [entry wordA xxxx] (entry wordA []))
      (lookup9 [entry wordA xxxx] (entry [] []) (entry wordA [])) := by
  have htable : IsTable [entry wordA xxxx] :=
    isTable_entries (by decide : ∀ p ∈ [(wordA, xxxx)], Fits p)
  have hq : IsQuery (entry wordA []) := isQuery_wordA
  have hfinds : FindsXxxx [entry wordA xxxx] (entry wordA []) :=
    ⟨_, found_entry (by decide) (by decide), str_pad (by decide) (by decide)⟩
  have hask := ask_dialogue htable hq (entry [] [])
  have hnine := lookup9_eq htable hq (entry [] [])
  exact ⟨htable, List.pairwise_singleton _ _, hq,
    fun h => (agrees_iff_of_answer htable hq hask).1 h hfinds,
    fun h => (agrees_iff_of_answer htable hq hask).1 h hfinds,
    fun h => (agrees_iff_of_answer htable hq hnine).1 h hfinds⟩

end Remote
