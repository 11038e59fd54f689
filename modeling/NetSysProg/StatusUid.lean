/-
**Which processes `12_1` takes for the user's (`HW4/12_1.c`).**

The real user id of a process stands in the line `Uid:` of its status file, in decimal and in front
of a tab.  The program copies four bytes of it behind the bytes of an array that it has not
initialised, and compares as many of them as the text of the wanted id has.  So an id of five digits
is compared with what happens to be in the array, and an id is taken for every other one that begins
with its digits.

Main definitions:

* `Status.uidRecord` — the line of a status file from its key to the first tab behind the real id;
* `Status.Selects` — the test sets the flag exactly if the ids are equal.

Main results:

* `Status.forall_uidMatches_iff`, `Status.exists_uidMatches_iff` — when the test succeeds for every
  content of the array, and for some;
* `Status.selects_iff` — **the pairs of ids for which the test is right**.
-/

import NetSysProg.StatusModel

set_option relaxedAutoImplicit false
set_option autoImplicit false

namespace Status

open CString Stdio Numerals

/-! ### Prefixes -/

/-- What stands before a byte, of which the prefix has none. -/
theorem prefix_append_cons_iff {c : Byte} {s : List Byte} (hs : c ∉ s) (a t : List Byte) :
    s <+: a ++ c :: t ↔ s <+: a := by
  induction s generalizing a with
  | nil => exact iff_of_true List.nil_prefix List.nil_prefix
  | cons b s ih =>
      rw [List.mem_cons, not_or] at hs
      cases a with
      | nil =>
          rw [List.nil_append, List.cons_prefix_cons]
          exact iff_of_false (fun h => hs.1 h.1.symm) (by simp)
      | cons a as => rw [List.cons_append, List.cons_prefix_cons, List.cons_prefix_cons, ih hs.2]

/-- A prefix of a concatenation. -/
theorem prefix_append_iff (s p q : List Byte) :
    s <+: p ++ q ↔ s.take p.length <+: p ∧ s.drop p.length <+: q := by
  induction p generalizing s with
  | nil => simp
  | cons a p ih =>
      cases s with
      | nil => simp
      | cons b s =>
          rw [List.cons_append, List.length_cons, List.take_succ_cons, List.drop_succ_cons,
            List.cons_prefix_cons, List.cons_prefix_cons, ih, and_assoc]

/-- What is copied begins like the string, as far as it goes. -/
theorem prefix_pad_strUpTo_iff {n : ℕ} {s : List Byte} (hs : nul ∉ s) (hn : s.length ≤ n)
    (src : List Byte) : s <+: pad n (strUpTo n src) ↔ s <+: src := by
  have hcopy : s <+: strUpTo n src ↔ s <+: src := by
    constructor
    · intro h
      exact h.trans ((List.takeWhile_prefix _).trans (List.take_prefix _ _))
    · rintro ⟨t, rfl⟩
      rw [strUpTo, List.take_append, List.take_of_length_le hn, List.takeWhile_append_of_pos]
      · exact List.prefix_append _ _
      · intro b hb
        rw [decide_eq_true_eq]
        rintro rfl
        exact hs hb
  rw [← hcopy, pad]
  cases hk : n - (strUpTo n src).length with
  | zero => rw [List.replicate_zero, List.append_nil]
  | succ k => rw [List.replicate_succ, prefix_append_cons_iff hs]

/-! ### The test and the array -/

/-- Arrays of null bytes. -/
def Locals.null : Locals :=
  ⟨List.replicate bufferSize nul, List.replicate bufferSize nul, List.length_replicate,
    List.length_replicate⟩

theorem length_continuing (uid : UInt32) :
    (List.replicate 4 nul ++ pad (bufferSize - 4) ((uidText uid).drop 4)).length = bufferSize := by
  have hlen := length_uidText_le uid
  have hdrop : ((uidText uid).drop 4).length ≤ bufferSize - 4 := by
    rw [List.length_drop, bufferSize]
    omega
  rw [List.length_append, List.length_replicate, length_pad hdrop, bufferSize]

/-- Arrays in which the text goes on behind the four bytes that are copied. -/
def Locals.continuing (uid : UInt32) : Locals where
  uidLine := List.replicate 4 nul ++ pad (bufferSize - 4) ((uidText uid).drop 4)
  uidNum := List.replicate bufferSize nul
  length_uidLine := length_continuing uid
  length_uidNum := List.length_replicate

/-- The first four bytes of the text are compared with the line, the others with the array. -/
theorem uidMatches_iff (g : Locals) (uid : UInt32) (src : List Byte) :
    uidMatches g uid (strUpTo 4 src) = true ↔
      (uidText uid).take 4 <+: src ∧ (uidText uid).drop 4 <+: g.uidLine.drop 4 := by
  have htake : nul ∉ (uidText uid).take 4 := fun h =>
    nul_notMem_uidText uid (List.mem_of_mem_take h)
  rw [uidMatches, decide_eq_true_eq, prefix_append_iff, length_pad (length_strUpTo_le 4 src),
    prefix_pad_strUpTo_iff htake (List.length_take_le _ _)]

/-- The test succeeds whatever is in the array. -/
theorem forall_uidMatches_iff (uid : UInt32) (src : List Byte) :
    (∀ g, uidMatches g uid (strUpTo 4 src) = true) ↔
      (uidText uid).length ≤ 4 ∧ uidText uid <+: src := by
  constructor
  · intro h
    obtain ⟨htake, hdrop⟩ := (uidMatches_iff Locals.null uid src).1 (h Locals.null)
    -- the text has no null byte, so nothing of it is compared with the array
    have hnil : (uidText uid).drop 4 = [] := by
      refine List.eq_nil_iff_forall_not_mem.2 fun b hb => ?_
      have hnul : b = nul :=
        List.eq_of_mem_replicate (List.mem_of_mem_drop (hdrop.subset hb))
      exact nul_notMem_uidText uid (hnul ▸ List.mem_of_mem_drop hb)
    have hlen := List.drop_eq_nil_iff.1 hnil
    rw [List.take_of_length_le hlen] at htake
    exact ⟨hlen, htake⟩
  · rintro ⟨hlen, hpre⟩ g
    rw [uidMatches_iff, List.take_of_length_le hlen, List.drop_eq_nil_of_le hlen]
    exact ⟨hpre, List.nil_prefix⟩

/-- The test succeeds for some content of the array. -/
theorem exists_uidMatches_iff (uid : UInt32) (src : List Byte) :
    (∃ g, uidMatches g uid (strUpTo 4 src) = true) ↔ (uidText uid).take 4 <+: src := by
  constructor
  · rintro ⟨g, hg⟩
    exact ((uidMatches_iff g uid src).1 hg).1
  · intro h
    refine ⟨Locals.continuing uid, (uidMatches_iff _ uid src).2 ⟨h, ?_⟩⟩
    have hdrop : (Locals.continuing uid).uidLine.drop 4 =
        pad (bufferSize - 4) ((uidText uid).drop 4) := by
      exact List.drop_left' List.length_replicate
    rw [hdrop, pad]
    exact List.prefix_append _ _

/-! ### The line of the user ids -/

/-- `'\t'` -/
def tab : Byte := 9

/-- The line of a status file with the real id `r` and whatever follows the tab behind it. -/
def uidRecord (r : UInt32) (more : List Byte) : List Byte :=
  lit "Uid:\t" ++ (decimal r.toNat ++ tab :: more)

/-- The line is the next one to be read. -/
def uidStream (pre : List Byte) (r : UInt32) (more : List Byte) : Stream :=
  ⟨pre ++ uidRecord r more, pre.length, false⟩

/-- For every content of the arrays, the test of the line that `fgets` has read sets the flag
exactly if the ids are equal. -/
def Selects (u r : UInt32) (more : List Byte) : Prop :=
  ∀ (pre old : List Byte) (g : Locals),
    uidTest g u (fgets 20 old (uidStream pre r more)).buf = .ok (decide (r = u))

theorem notMem_decimal {n : ℕ} {b : Byte} (h : isDigit b = false) : b ∉ decimal n := by
  intro hmem
  rw [isDigit_of_mem_decimal hmem] at h
  cases h

/-- The id and the tab behind it are read together with the key. -/
theorem exists_uidLine (pre old : List Byte) (r : UInt32) (more : List Byte) :
    ∃ t, (fgets 20 old (uidStream pre r more)).buf =
      lit "Uid:\t" ++ (decimal r.toNat ++ tab :: t) ∧ nul ∈ t := by
  have hdigits : (decimal r.toNat).length ≤ 10 := by
    rw [length_decimal_le_iff (by omega)]
    have hlt := r.toNat_lt
    omega
  have hfive : (lit "Uid:\t").length = 5 := by decide
  have hkey : newline ∉ lit "Uid:\t" ++ (decimal r.toNat ++ [tab]) := by
    simp only [List.mem_append, List.mem_singleton, not_or]
    exact ⟨by decide, notMem_decimal (by decide), by decide⟩
  have hlen : (lit "Uid:\t" ++ (decimal r.toNat ++ [tab])).length ≤ 19 := by
    simp only [List.length_append, List.length_singleton, hfive]
    omega
  have hrest : (uidStream pre r more).rest = (lit "Uid:\t" ++ (decimal r.toNat ++ [tab])) ++
    more := by
    rw [Stream.rest, uidStream, List.drop_left, uidRecord]
    simp
  have hgot := lineUpTo_append hkey more hlen
  have hne : lit "Uid:\t" ++ (decimal r.toNat ++ [tab]) ++
      lineUpTo (19 - (lit "Uid:\t" ++ (decimal r.toNat ++ [tab])).length) more ≠ [] := by
    intro h
    have hlen := congrArg List.length h
    simp only [List.length_append, hfive, List.length_nil] at hlen
    omega
  generalize lineUpTo (19 - (lit "Uid:\t" ++ (decimal r.toNat ++ [tab])).length) more =
    tail at hgot hne
  unfold fgets
  dsimp only
  rw [hrest, hgot, if_neg hne]
  refine ⟨tail ++ nul :: old.drop ((lit "Uid:\t" ++ (decimal r.toNat ++ [tab]) ++ tail).length + 1),
    ?_, by simp⟩
  simp only [List.append_assoc, List.cons_append, List.nil_append]

/-! ### The pairs of ids -/

/-- The text of an id that is written as a negative number is no id. -/
theorem uidText_prefix_decimal {u r : UInt32} (h : uidText u <+: decimal r.toNat) :
    uidText u = decimal u.toNat := by
  unfold uidText printInt at h ⊢
  split at h
  · exact absurd (h.subset (List.mem_cons_self ..)) (notMem_decimal (by decide))
  · next hneg =>
      have hlt := u.toNat_lt
      have hnat : (CInt.wrap u.toNat).natAbs = u.toNat := by
        unfold CInt.wrap at hneg ⊢
        omega
      rw [if_neg hneg, hnat]

theorem uidText_of_lt {u : UInt32} (h : u.toNat < 10000) : uidText u = decimal u.toNat := by
  have hmax : (u.toNat : ℤ) ≤ CInt.intMax := by
    unfold CInt.intMax
    omega
  rw [uidText, CInt.wrap_of_nonneg (Int.natCast_nonneg _) hmax, printInt,
    if_neg (Int.not_lt.2 (Int.natCast_nonneg _)), Int.natAbs_natCast]

/-- An id is recognised as its own, whatever is in the array. -/
theorem uidText_self_iff (u : UInt32) :
    ((uidText u).length ≤ 4 ∧ uidText u <+: decimal u.toNat) ↔ u.toNat < 10000 := by
  constructor
  · rintro ⟨hlen, hpre⟩
    rw [uidText_prefix_decimal hpre] at hlen
    exact (length_decimal_le_iff (by omega)).1 hlen
  · intro h
    rw [uidText_of_lt h]
    exact ⟨(length_decimal_le_iff (by omega)).2 h, List.prefix_rfl⟩

/-- The result of the test, from the id in the line. -/
theorem uidTest_record (pre old : List Byte) (g : Locals) (u r : UInt32) (more : List Byte) :
    ∃ src, uidTest g u (fgets 20 old (uidStream pre r more)).buf =
        .ok (uidMatches g u (strUpTo 4 src)) ∧
      ∀ s : List Byte, tab ∉ s → (s <+: src ↔ s <+: decimal r.toNat) := by
  obtain ⟨t, hbuf, hnul⟩ := exists_uidLine pre old r more
  have hdrop : (fgets 20 old (uidStream pre r more)).buf.drop 5 = decimal r.toNat ++ tab :: t := by
    rw [hbuf]
    exact List.drop_left' (by decide)
  refine ⟨decimal r.toNat ++ tab :: t, ?_, fun s hs => prefix_append_cons_iff hs _ _⟩
  rw [uidTest_eq g u (by rw [hdrop]; simp [hnul]), hdrop]

theorem tab_notMem_uidText (u : UInt32) : tab ∉ uidText u := by
  intro h
  rcases mem_printInt h with h | h
  · exact absurd h (by decide)
  · exact absurd h (by decide)

/-- **The pairs of ids for which the test is right**: equal ids below `10000`, and different ids of
which the text of the wanted one, or its first four bytes, is no beginning of the other. -/
theorem selects_iff (u r : UInt32) (more : List Byte) :
    Selects u r more ↔
      (r = u ∧ u.toNat < 10000) ∨ (r ≠ u ∧ ¬ (uidText u).take 4 <+: decimal r.toNat) := by
  have htab := tab_notMem_uidText u
  have htake : tab ∉ (uidText u).take 4 := fun h => htab (List.mem_of_mem_take h)
  have htest : Selects u r more ↔
      ∀ g, uidMatches g u (strUpTo 4 (decimal r.toNat)) = decide (r = u) := by
    have hsrc : ∀ (pre old : List Byte) (g : Locals),
        uidTest g u (fgets 20 old (uidStream pre r more)).buf =
          .ok (uidMatches g u (strUpTo 4 (decimal r.toNat))) := by
      intro pre old g
      obtain ⟨src, htest, hsrc⟩ := uidTest_record pre old g u r more
      rw [htest, Outcome.ok.injEq, Bool.eq_iff_iff, uidMatches_iff, uidMatches_iff, hsrc _ htake]
    simp only [Selects, hsrc, Outcome.ok.injEq]
    exact ⟨fun h g => h [] [] g, fun h _ _ g => h g⟩
  rw [htest]
  by_cases hru : r = u
  · subst hru
    simp only [decide_true, true_and, ne_eq, not_true_eq_false, false_and, or_false]
    rw [forall_uidMatches_iff, uidText_self_iff]
  · simp only [hru, decide_false, false_and, ne_eq, not_false_eq_true, true_and, false_or]
    rw [← exists_uidMatches_iff, not_exists]
    simp only [Bool.not_eq_true]

/-- **The processes of the user `1000` are taken for those of the user `1`.** -/
theorem not_selects_prefix : ¬ Selects 1 1000 (lit "1000\t1000\t1000\n") := by
  intro h
  have hone := h [] [] Locals.null
  obtain ⟨src, htest, hsrc⟩ := uidTest_record [] [] Locals.null 1 1000 (lit "1000\t1000\t1000\n")
  have hpre : uidText 1 <+: src := (hsrc _ (tab_notMem_uidText 1)).2 (by decide)
  have hmatch := (forall_uidMatches_iff 1 src).2 ⟨by decide, hpre⟩ Locals.null
  rw [htest, hmatch] at hone
  exact absurd hone (by decide)

end Status
