/-
**The dictionary in mapped memory (`HW11`, `lookup5.c`).**

`lookup5` maps the file and searches it where it lies.  The records are the bytes of the file, and a
string of a record is whatever stands from its first byte on up to a null byte: a word that fills
its field goes on into the text, and a text that fills its field into the next record.  `strcmp`
looks at no byte behind the first difference.

The size of the file goes through an `int`, as `lookup5.c` does not declare `lseek`, and the number
of records with it.  A file of no record, or of so many that their number becomes negative, cannot
be mapped.

Main definitions:

* `Mapped.strcmp` — the comparison of two strings in memory;
* `Mapped.numrecOf` — the number of records that the size of a file gives;
* `Mapped.search`, `Mapped.lookup5` — the bisection of the mapped file.

Main results:

* `Mapped.strcmp_eq` — two null-terminated strings compare as before;
* `Mapped.lookup5_eq` — **on a table of records with null-terminated fields this is the search of
  the list of its records**.
-/

import NetSysProg.CInt
import NetSysProg.RemoteModel

set_option relaxedAutoImplicit false
set_option autoImplicit false

/-! ### Pieces of one length -/

section Pieces

variable {α β : Type*} {f : α → List β} {k : ℕ} {l : List α}

theorem length_flatMap_const (h : ∀ x ∈ l, (f x).length = k) :
    (l.flatMap f).length = l.length * k := by
  induction l with
  | nil => simp
  | cons x l ih =>
      rw [List.flatMap_cons, List.length_append, h x (by simp), ih fun y hy => h y (by simp [hy]),
        List.length_cons, Nat.succ_mul, Nat.add_comm]

theorem drop_flatMap_const (h : ∀ x ∈ l, (f x).length = k) (i : ℕ) :
    (l.flatMap f).drop (i * k) = (l.drop i).flatMap f := by
  induction i generalizing l with
  | zero => rw [Nat.zero_mul, List.drop_zero, List.drop_zero]
  | succ i ih =>
      cases l with
      | nil => simp
      | cons x l =>
          have hx : (f x).length = k := h x (by simp)
          rw [List.flatMap_cons, Nat.succ_mul, Nat.add_comm, ← List.drop_drop, ← hx, List.drop_left,
            hx, ih fun y hy => h y (by simp [hy]), List.drop_succ_cons]

theorem take_flatMap_const (h : ∀ x ∈ l, (f x).length = k) (i : ℕ) :
    (l.flatMap f).take (i * k) = (l.take i).flatMap f := by
  induction i generalizing l with
  | zero => simp
  | succ i ih =>
      cases l with
      | nil => simp
      | cons x l =>
          have hx : (f x).length = k := h x (by simp)
          rw [List.flatMap_cons, Nat.succ_mul, Nat.add_comm, ← hx, List.take_length_add_append,
            hx, ih fun y hy => h y (by simp [hy]), List.take_succ_cons, List.flatMap_cons]

end Pieces

namespace Mapped

open CString
open Dict (Dictrec WORD TEXT Status)
open Remote (recSize)

/-! ### `lookup5.c` -/

/-- `strcmp` of two strings in memory, of which the lists are all that is left from their first
bytes on. -/
def strcmp : List Byte → List Byte → Outcome ℤ
  | a :: as, b :: bs =>
      if a = b then if a = nul then .ok 0 else strcmp as bs
      else .ok ((a.toNat : ℤ) - b.toNat)
  | _, _ => .fault

/-- `mmap` of the first `length` bytes of the file; the null pointer stands for `MAP_FAILED`. -/
def mmap (file : List Byte) (length : ℤ) : Option (List Byte) :=
  if 0 < length then some (file.take length.toNat) else none

/-- What lies in memory from `table + mid` on. -/
def entryAt (table : Option (List Byte)) (mid : ℤ) : Outcome (List Byte) := do
  let memory ← Outcome.deref table
  if 0 ≤ mid then .ok (memory.drop (mid.toNat * recSize)) else .fault

/-- The search loop between `start` and `end`, with at most so many iterations left of the hundred
that `cnt` allows: the index of the record that it finds. -/
def search (table : Option (List Byte)) (sought : Dictrec) : ℕ → ℤ → ℤ → Outcome (Option ℤ)
  | 0, _, _ => .ok none
  | left + 1, start, stop =>
      if start = stop then .ok none
      else do
        let mid := (stop - start).tdiv 2 + start
        let entry ← entryAt table mid
        let result ← strcmp entry sought.word
        if result = 0 then return some mid
        else if result < 0 then search table sought left mid stop
        else search table sought left start mid

/-- `numrec`.  Without a declaration the result of `lseek` is taken for an `int`, before it is
stored in the `long` `filsiz`; the division is one of `unsigned long`s, and its result is stored in
an `int`. -/
def numrecOf (file : List Byte) : ℤ :=
  CInt.wrap (CInt.wrap file.length % 18446744073709551616 / recSize)

/-- `lookup`, from the opened file on. -/
def lookup5 (file : List Byte) (sought : Dictrec) : Outcome (Status × Dictrec) := do
  let numrec := numrecOf file
  let table := mmap file (numrec * recSize)
  match ← search table sought 100 0 numrec with
  | some mid => do
      let found ← entryAt table mid
      let text ← strcpy sought.text (found.drop WORD)
      return (.found, { sought with text := text })
  | none => return (.notFound, sought)

/-- The conversion to `unsigned long` and back changes nothing, as the size of a record divides
`2 ^ 64`. -/
theorem numrecOf_eq (file : List Byte) : numrecOf file = CInt.wrap file.length / recSize := by
  have hsize : (recSize : ℤ) = 512 := rfl
  unfold numrecOf CInt.wrap
  rw [hsize]
  omega

/-- A file under `2 ^ 31` bytes. -/
theorem numrecOf_of_le {file : List Byte} (h : (file.length : ℤ) ≤ CInt.intMax) :
    numrecOf file = (file.length / recSize : ℕ) := by
  rw [numrecOf_eq, CInt.wrap_of_nonneg (Int.natCast_nonneg _) h, Int.natCast_ediv]

/-- A file whose size is negative as an `int`: the first probe follows the result of an `mmap` that
has failed. -/
theorem lookup5_of_neg {file : List Byte} (h : numrecOf file < 0) (sought : Dictrec) :
    lookup5 file sought = .fault := by
  have hsize : (0 : ℤ) < recSize := Int.natCast_pos.2 (by decide)
  have hmap : mmap file (numrecOf file * recSize) = none :=
    if_neg (by have := Int.mul_neg_of_neg_of_pos h hsize; omega)
  have hsearch : search none sought 100 0 (numrecOf file) = .fault := by
    rw [search, if_neg (by omega)]
    rfl
  rw [lookup5, hmap, hsearch]
  rfl

/-! ### Strings in memory -/

/-- **Two null-terminated strings** compare as before. -/
theorem strcmp_append {s s' : List Byte} (hs : nul ∉ s) (hs' : nul ∉ s') (t t' : List Byte) :
    strcmp (s ++ nul :: t) (s' ++ nul :: t') = .ok (CString.cmp s s') := by
  induction s generalizing s' with
  | nil =>
      cases s' with
      | nil => rfl
      | cons b bs =>
          have hb : nul ≠ b := fun h => hs' (by simp [h])
          rw [List.nil_append, List.cons_append, strcmp, if_neg hb, CString.cmp]
          simp [nul]
  | cons a as ih =>
      rw [List.mem_cons, not_or] at hs
      cases s' with
      | nil =>
          rw [List.cons_append, List.nil_append, strcmp, if_neg (Ne.symm hs.1), CString.cmp]
          simp [nul]
      | cons b bs =>
          rw [List.mem_cons, not_or] at hs'
          rw [List.cons_append, List.cons_append, strcmp, CString.cmp]
          split
          · rw [if_neg (Ne.symm hs.1), ih hs.2 hs'.2]
          · rfl

theorem strcmp_eq {buf buf' s s' : List Byte} (hs : str buf = .ok s) (hs' : str buf' = .ok s')
    (rest : List Byte) : strcmp (buf ++ rest) buf' = .ok (CString.cmp s s') := by
  obtain ⟨t, rfl⟩ := exists_of_str hs
  obtain ⟨t', rfl⟩ := exists_of_str hs'
  rw [List.append_assoc, List.cons_append]
  exact strcmp_append (nul_notMem_of_str hs) (nul_notMem_of_str hs') _ _

theorem str_append_right {buf s : List Byte} (h : str buf = .ok s) (rest : List Byte) :
    str (buf ++ rest) = .ok s := by
  obtain ⟨t, rfl⟩ := exists_of_str h
  rw [List.append_assoc, List.cons_append]
  exact str_append (nul_notMem_of_str h) _

/-! ### A table of records -/

/-- The bytes of the records of a table. -/
def image (table : List Dictrec) : List Byte := table.flatMap Remote.bytes

section Table

variable {table : List Dictrec} (hwords : ∀ r ∈ table, Remote.IsQuery r)
include hwords

theorem length_bytes_of_mem : ∀ r ∈ table, (Remote.bytes r).length = recSize :=
  fun r hr => (hwords r hr).bytes_length

theorem length_image : (image table).length = table.length * recSize :=
  length_flatMap_const (length_bytes_of_mem hwords)

/-- The number of records of a table under `2 ^ 31` bytes. -/
theorem numrecOf_image (hmax : (table.length : ℤ) * recSize ≤ CInt.intMax) :
    numrecOf (image table) = table.length := by
  have hlen : ((image table).length : ℤ) = (table.length : ℤ) * recSize := by
    rw [length_image hwords, Int.natCast_mul]
  rw [numrecOf_of_le (hlen ▸ hmax), length_image hwords,
    Nat.mul_div_cancel _ (by decide : 0 < recSize)]

theorem mmap_image (hne : table ≠ []) :
    mmap (image table) ((table.length : ℤ) * recSize) = some (image table) := by
  have hpos := List.length_pos_iff.2 hne
  have hsize : 0 < recSize := by decide
  have hlen : ((table.length : ℤ) * recSize) = ((table.length * recSize : ℕ) : ℤ) := by
    push_cast; rfl
  rw [mmap, hlen, if_pos (by exact_mod_cast Nat.mul_pos hpos hsize), Int.toNat_natCast,
    ← length_image hwords, List.take_length]

/-- A record of the table, where it lies in memory. -/
theorem entryAt_image {mid : ℕ} {r : Dictrec} (hr : table[mid]? = some r) :
    ∃ rest, entryAt (some (image table)) mid = .ok (r.word ++ (r.text ++ rest)) := by
  obtain ⟨hmid, rfl⟩ := List.getElem?_eq_some_iff.1 hr
  refine ⟨image (table.drop (mid + 1)), ?_⟩
  rw [entryAt, Outcome.deref_some, Outcome.bind_ok, if_pos (Int.natCast_nonneg mid),
    Int.toNat_natCast, image, drop_flatMap_const (length_bytes_of_mem hwords),
    List.drop_eq_getElem_cons hmid, List.flatMap_cons, Remote.bytes, List.append_assoc]
  rfl

/-- **The search of the mapped file** finds the record that the search of the list finds. -/
theorem search_image {sought : Dictrec} {w : List Byte} (hw : str sought.word = .ok w)
    (left start stop : ℕ) (hle : start ≤ stop) (hstop : stop ≤ table.length) :
    (Remote.search table sought left start stop = .ok none ∧
        search (some (image table)) sought left start stop = .ok none) ∨
      ∃ mid : ℕ, ∃ r, table[mid]? = some r ∧
        Remote.search table sought left start stop = .ok (some r) ∧
        search (some (image table)) sought left start stop = .ok (some (mid : ℤ)) := by
  induction left generalizing start stop with
  | zero => exact Or.inl ⟨rfl, rfl⟩
  | succ left ih =>
      by_cases heq : start = stop
      · exact Or.inl ⟨by rw [Remote.search, if_pos heq], by rw [search, if_pos (by rw [heq])]⟩
      obtain ⟨mid, hmid⟩ : ∃ mid, mid = (stop - start) / 2 + start := ⟨_, rfl⟩
      have hcast : ((stop : ℤ) - start).tdiv 2 + start = (mid : ℕ) := by
        rw [Int.tdiv_eq_ediv_of_nonneg (by omega), hmid]
        omega
      obtain ⟨r, hr⟩ : ∃ r, table[mid]? = some r := ⟨_, List.getElem?_eq_getElem (by omega)⟩
      obtain ⟨v, hv⟩ := (hwords r (List.mem_of_getElem? hr)).word
      obtain ⟨rest, hentry⟩ := entryAt_image hwords hr
      have hcmp : Remote.dictCmp r.word sought = .ok (CString.cmp v w) := by
        rw [Remote.dictCmp, CString.strcmp, hv, hw, Outcome.bind_ok, Outcome.bind_ok,
          Outcome.pure_eq]
      rw [Remote.search, if_neg heq, search, if_neg (by exact_mod_cast heq), hcast, ← hmid]
      simp only [hr, Outcome.deref_some, Outcome.bind_ok, hcmp, hentry, strcmp_eq hv hw]
      split
      · exact Or.inr ⟨mid, r, hr, rfl, rfl⟩
      · split
        · exact ih mid stop (by omega) hstop
        · exact ih start mid (by omega) (by omega)

/-- **What the lookup in the mapped file does** with the result of the search: a text that it copies
may go on behind its field. -/
theorem lookup5_image (hmax : (table.length : ℤ) * recSize ≤ CInt.intMax) {q : Dictrec}
    (hq : Remote.IsQuery q) :
    (Remote.found table q = .ok none ∧ lookup5 (image table) q = .ok (.notFound, q)) ∨
      ∃ r ∈ table, ∃ rest, Remote.found table q = .ok (some r) ∧
        lookup5 (image table) q = (do
          let text ← strcpy q.text (r.text ++ rest)
          return (.found, { q with text := text })) := by
  obtain ⟨w, hw⟩ := hq.word
  rw [lookup5, Remote.found, numrecOf_image hwords hmax]
  by_cases hne : table = []
  · subst hne
    exact Or.inl ⟨rfl, rfl⟩
  rw [mmap_image hwords hne]
  rcases search_image hwords hw 100 0 table.length (Nat.zero_le _) le_rfl with
    ⟨hlist, hmem⟩ | ⟨mid, r, hr, hlist, hmem⟩
  · have hmem : search (some (image table)) q 100 0 table.length = _ := hmem
    rw [hlist, hmem]
    exact Or.inl ⟨rfl, rfl⟩
  · have hmem : search (some (image table)) q 100 0 table.length = _ := hmem
    obtain ⟨rest, hentry⟩ := entryAt_image hwords hr
    have hdrop : (r.word ++ (r.text ++ rest)).drop WORD = r.text ++ rest := by
      rw [← (hwords r (List.mem_of_getElem? hr)).word_length, List.drop_left]
    refine Or.inr ⟨r, List.mem_of_getElem? hr, rest, hlist, ?_⟩
    rw [hmem]
    simp only [Outcome.bind_ok, hentry, hdrop]

end Table

/-- **The lookup in the mapped file** is the lookup in the list of its records, when their texts are
null-terminated as well. -/
theorem lookup5_eq {table : List Dictrec} (htable : Remote.IsTable table)
    (hmax : (table.length : ℤ) * recSize ≤ CInt.intMax) {q : Dictrec} (hq : Remote.IsQuery q) :
    lookup5 (image table) q = Remote.lookup5 table q := by
  rcases lookup5_image (fun r hr => (htable r hr).toIsQuery) hmax hq with
    ⟨hfound, hlookup⟩ | ⟨r, hr, rest, hfound, hlookup⟩
  · rw [hlookup, Remote.lookup5_of_not_found hfound]
  · obtain ⟨t, ht⟩ := (htable r hr).text
    have hcopy : strcpy q.text (r.text ++ rest) = strcpy q.text r.text := by
      rw [strcpy, strcpy, ht, str_append_right ht]
    rw [hlookup, hcopy, Remote.lookup5, hfound]
    rfl

end Mapped
