/-
**Null-terminated strings in byte buffers.**

A `char` array is a list of bytes of the array's length.  The string in it is what stands before its
first null byte, and an array without a null byte holds none: the functions of `string.h` would read
past its end.  A store outside the array has no defined meaning either.

Main definitions:

* `CString.str` — the string in a buffer;
* `CString.store`, `CString.copyAt` — one store, and consecutive ones;
* `CString.strlen`, `CString.strcspn`, `CString.strcmp`, `CString.strcpy`, `CString.strcat`,
  `CString.strrchr`;
* `CString.pad` — a field that holds the given bytes and is filled up with null bytes.

Main results:

* `CString.cmp_eq_zero` — **`strcmp` returns zero for equal strings only**;
* `CString.copyAt_pad`, `CString.store_pad`, `CString.strcat_pad` — how padded fields grow;
* `CString.strrchr_pad`, `CString.store_pad_nul` — finding and removing the last byte.
-/

import NetSysProg.Outcome
import Mathlib.Data.List.Basic
import Mathlib.Data.List.TakeWhile

set_option relaxedAutoImplicit false
set_option autoImplicit false

namespace CString

abbrev Byte := UInt8

/-- `'\0'` -/
def nul : Byte := 0

/-- `'\n'` -/
def newline : Byte := 10

theorem newline_ne_nul : newline ≠ nul := by decide

/-- The bytes of a string constant. -/
def lit (s : String) : List Byte := s.toUTF8.data.toList

/-! ### Buffers -/

/-- The string at the start of the buffer. -/
def str (buf : List Byte) : Outcome (List Byte) :=
  if nul ∈ buf then .ok (buf.takeWhile (· ≠ nul)) else .fault

/-- `buf[i] = b` -/
def store (buf : List Byte) (i : ℕ) (b : Byte) : Outcome (List Byte) :=
  if i < buf.length then .ok (buf.set i b) else .fault

/-- `buf[i] = b₀, buf[i + 1] = b₁, …` -/
def copyAt (buf : List Byte) (i : ℕ) : List Byte → Outcome (List Byte)
  | [] => .ok buf
  | b :: bs => do
      let buf ← store buf i b
      copyAt buf (i + 1) bs

theorem takeWhile_append_cons {c : Byte} {s : List Byte} (h : c ∉ s) (t : List Byte) :
    (s ++ c :: t).takeWhile (· ≠ c) = s := by
  rw [List.takeWhile_append_of_pos, List.takeWhile_cons_of_neg (by simp), List.append_nil]
  intro x hx
  rw [decide_eq_true_eq]
  rintro rfl
  exact h hx

/-- The same, when the bytes are cut off somewhere. -/
theorem takeWhile_take_append_cons {c : Byte} {s : List Byte} (h : c ∉ s) (t : List Byte) (n : ℕ) :
    ((s ++ c :: t).take n).takeWhile (· ≠ c) = s.take n := by
  rcases Nat.lt_or_ge s.length n with hn | hn
  · obtain ⟨k, rfl⟩ := Nat.exists_eq_add_of_lt hn
    rw [Nat.add_assoc, List.take_length_add_append, List.take_succ_cons, takeWhile_append_cons h,
      List.take_of_length_le (Nat.le_add_right _ _)]
  · rw [List.take_append_of_le_length hn, List.takeWhile_eq_self_iff]
    intro x hx
    rw [decide_eq_true_eq]
    rintro rfl
    exact h (List.mem_of_mem_take hx)

theorem str_append {s : List Byte} (h : nul ∉ s) (t : List Byte) :
    str (s ++ nul :: t) = .ok s := by
  rw [str, if_pos (by simp), takeWhile_append_cons h]

theorem nul_notMem_of_str {buf s : List Byte} (h : str buf = .ok s) : nul ∉ s := by
  unfold str at h
  split at h
  · cases h
    intro hmem
    simpa using List.mem_takeWhile_imp hmem
  · cases h

/-- A buffer that holds a string is the string, a null byte and whatever follows. -/
theorem exists_of_str {buf s : List Byte} (h : str buf = .ok s) : ∃ t, buf = s ++ nul :: t := by
  unfold str at h
  split at h
  · next hmem =>
      obtain ⟨l, t, rfl, hl⟩ := List.eq_append_cons_of_mem hmem
      rw [takeWhile_append_cons hl] at h
      cases h
      exact ⟨t, rfl⟩
  · cases h

theorem length_lt_of_str {buf s : List Byte} (h : str buf = .ok s) : s.length < buf.length := by
  obtain ⟨t, rfl⟩ := exists_of_str h
  simp

theorem store_append (s : List Byte) (a b : Byte) (t : List Byte) :
    store (s ++ a :: t) s.length b = .ok (s ++ b :: t) := by
  rw [store, if_pos (by simp), List.set_append_right _ _ le_rfl, Nat.sub_self, List.set_cons_zero]

/-! ### The functions of `string.h` -/

def strlen (buf : List Byte) : Outcome ℕ := do
  let s ← str buf
  return s.length

/-- The number of bytes before the first `c`, or the length of the string. -/
def strcspn (buf : List Byte) (c : Byte) : Outcome ℕ := do
  let s ← str buf
  return (s.takeWhile (· ≠ c)).length

/-- The difference of the first two bytes that differ, as `unsigned char`. -/
def cmp : List Byte → List Byte → ℤ
  | [], [] => 0
  | [], b :: _ => -(b.toNat : ℤ)
  | a :: _, [] => (a.toNat : ℤ)
  | a :: as, b :: bs => if a = b then cmp as bs else (a.toNat : ℤ) - b.toNat

def strcmp (buf buf' : List Byte) : Outcome ℤ := do
  let s ← str buf
  let t ← str buf'
  return cmp s t

def strcpy (dst src : List Byte) : Outcome (List Byte) := do
  let s ← str src
  copyAt dst 0 (s ++ [nul])

def strcat (dst src : List Byte) : Outcome (List Byte) := do
  let d ← str dst
  let s ← str src
  copyAt dst d.length (s ++ [nul])

/-- The index of the last `c` of the string, for a `c` that is not the null byte. -/
def strrchr (buf : List Byte) (c : Byte) : Outcome (Option ℕ) := do
  let s ← str buf
  return (s.reverse.idxOf? c).map fun k => s.length - 1 - k

theorem toNat_ne_zero_of_ne_nul {b : Byte} (h : b ≠ nul) : b.toNat ≠ 0 := by
  intro h0
  exact h (UInt8.toNat_inj.1 h0)

/-- **Two strings compare as zero exactly when they are equal.** -/
theorem cmp_eq_zero {s t : List Byte} (hs : nul ∉ s) (ht : nul ∉ t) : cmp s t = 0 ↔ s = t := by
  induction s generalizing t with
  | nil =>
      cases t with
      | nil => simp [cmp]
      | cons b bs =>
          have hb : b.toNat ≠ 0 := toNat_ne_zero_of_ne_nul fun h => ht (by simp [h])
          simp only [cmp, reduceCtorEq, iff_false]
          omega
  | cons a as ih =>
      have ha : a.toNat ≠ 0 := toNat_ne_zero_of_ne_nul fun h => hs (by simp [h])
      cases t with
      | nil =>
          simp only [cmp, reduceCtorEq, iff_false]
          omega
      | cons b bs =>
          rw [List.mem_cons, not_or] at hs ht
          unfold cmp
          split
          · rename_i hab
            rw [ih hs.2 ht.2, hab, List.cons.injEq, eq_self, true_and]
          · rename_i hab
            have hne : a.toNat ≠ b.toNat := fun h => hab (UInt8.toNat_inj.1 h)
            simp only [List.cons.injEq, hab, false_and, iff_false]
            omega

theorem cmp_comm (s t : List Byte) : cmp t s = -cmp s t := by
  induction s generalizing t with
  | nil => cases t <;> simp [cmp]
  | cons a as ih =>
      cases t with
      | nil => rfl
      | cons b bs =>
          by_cases hab : a = b
          · rw [cmp, cmp, if_pos hab, if_pos hab.symm, ih]
          · rw [cmp, cmp, if_neg hab, if_neg (Ne.symm hab), Int.neg_sub]

/-- Consecutive stores replace that many bytes. -/
theorem copyAt_append (pre : List Byte) {old t : List Byte} (h : t.length ≤ old.length) :
    copyAt (pre ++ old) pre.length t = .ok (pre ++ t ++ old.drop t.length) := by
  induction t generalizing pre old with
  | nil => rw [copyAt, List.append_nil, List.length_nil, List.drop_zero]
  | cons b bs ih =>
      cases old with
      | nil => simp at h
      | cons a old =>
          have hbs := ih (pre ++ [b]) (Nat.le_of_succ_le_succ h)
          rw [List.length_append, List.length_singleton, List.append_assoc,
            List.singleton_append] at hbs
          rw [copyAt, store_append, Outcome.bind_ok, hbs]
          simp

/-- Consecutive stores inside the buffer. -/
theorem exists_copyAt {buf t : List Byte} {i : ℕ} (h : i + t.length ≤ buf.length) :
    ∃ buf', copyAt buf i t = .ok buf' ∧ buf'.length = buf.length := by
  have hlen : (buf.take i).length = i := by
    rw [List.length_take]
    omega
  have hcopy := copyAt_append (buf.take i) (t := t) (by rw [List.length_drop]; omega :
    t.length ≤ (buf.drop i).length)
  rw [List.take_append_drop, hlen] at hcopy
  refine ⟨_, hcopy, ?_⟩
  simp only [List.length_append, List.length_drop, hlen]
  omega

theorem length_of_copyAt {buf t buf' : List Byte} {i : ℕ} (h : copyAt buf i t = .ok buf') :
    buf'.length = buf.length := by
  induction t generalizing buf i with
  | nil =>
      cases h
      rfl
  | cons b bs ih =>
      obtain ⟨buf₁, hstore, hrest⟩ := Outcome.bind_eq_ok.1 h
      unfold store at hstore
      split at hstore
      · cases hstore
        rw [ih hrest, List.length_set]
      · cases hstore

/-- Stores that go on past the end of the buffer. -/
theorem copyAt_eq_fault {buf t : List Byte} {i : ℕ} (hi : i ≤ buf.length)
    (h : buf.length < i + t.length) : copyAt buf i t = .fault := by
  induction t generalizing buf i with
  | nil => simp only [List.length_nil] at h; omega
  | cons b bs ih =>
      rw [List.length_cons] at h
      rw [copyAt, store]
      split
      · rw [Outcome.bind_ok]
        exact ih (by rw [List.length_set]; omega) (by rw [List.length_set]; omega)
      · rfl

/-- A string that is too long for the buffer. -/
theorem strcpy_eq_fault {dst src s : List Byte} (hs : str src = .ok s) (h : dst.length ≤ s.length) :
    strcpy dst src = .fault := by
  rw [strcpy, hs, Outcome.bind_ok]
  exact copyAt_eq_fault (Nat.zero_le _) (by rw [List.length_append, List.length_singleton]; omega)

/-- Bytes without a null byte among them that are too many for the buffer, whatever follows them. -/
theorem strcpy_unterminated {dst src : List Byte} (h : nul ∉ src) (hlen : dst.length ≤ src.length)
    (rest : List Byte) : strcpy dst (src ++ rest) = .fault := by
  by_cases hmem : nul ∈ src ++ rest
  · refine strcpy_eq_fault (if_pos hmem) ?_
    rw [List.takeWhile_append_of_pos, List.length_append]
    · exact Nat.le_add_right_of_le hlen
    · intro b hb
      rw [decide_eq_true_eq]
      rintro rfl
      exact h hb
  · rw [strcpy, str, if_neg hmem]
    rfl

/-- **`strcpy` copies the string with its null byte** and leaves what is behind it. -/
theorem strcpy_of_str {dst src s : List Byte} (hs : str src = .ok s) (h : s.length < dst.length) :
    strcpy dst src = .ok (s ++ nul :: dst.drop (s.length + 1)) := by
  have hlen : (s ++ [nul]).length ≤ dst.length := by
    rw [List.length_append, List.length_singleton]
    exact h
  have hcopy := copyAt_append [] hlen
  rw [strcpy, hs, Outcome.bind_ok]
  simpa using hcopy

theorem length_strcpy {dst s : List Byte} (h : s.length < dst.length) :
    (s ++ nul :: dst.drop (s.length + 1)).length = dst.length := by
  simp only [List.length_append, List.length_cons, List.length_drop]
  omega

/-! ### Padded fields -/

/-- A field of `n` bytes that holds `s`, the unused bytes being null. -/
def pad (n : ℕ) (s : List Byte) : List Byte := s ++ List.replicate (n - s.length) nul

theorem length_pad {n : ℕ} {s : List Byte} (h : s.length ≤ n) : (pad n s).length = n := by
  rw [pad, List.length_append, List.length_replicate, Nat.add_sub_cancel' h]

theorem pad_eq_cons {n : ℕ} {s : List Byte} (h : s.length < n) :
    pad n s = s ++ nul :: List.replicate (n - s.length - 1) nul := by
  rw [pad, ← List.replicate_succ]
  congr 2
  omega

theorem str_pad {n : ℕ} {s : List Byte} (h : s.length < n) (hs : nul ∉ s) :
    str (pad n s) = .ok s := by
  rw [pad_eq_cons h, str_append hs]

theorem store_pad {n : ℕ} {s : List Byte} (h : s.length < n) (b : Byte) :
    store (pad n s) s.length b = .ok (pad n (s ++ [b])) := by
  rw [pad_eq_cons h, store_append, pad, List.append_assoc, List.length_append,
    List.length_singleton, Nat.sub_sub, List.singleton_append]

theorem copyAt_pad {n : ℕ} {s t : List Byte} (h : s.length + t.length ≤ n) :
    copyAt (pad n s) s.length t = .ok (pad n (s ++ t)) := by
  induction t generalizing s with
  | nil => rw [copyAt, List.append_nil]
  | cons b bs ih =>
      rw [List.length_cons] at h
      have hlen : (s ++ [b]).length = s.length + 1 := by simp
      have hbs := ih (s := s ++ [b]) (by omega)
      rw [hlen] at hbs
      rw [copyAt, store_pad (by omega), Outcome.bind_ok, hbs, List.append_assoc,
        List.singleton_append]

theorem strcat_pad {n : ℕ} {d s src : List Byte} (hd : nul ∉ d) (hsrc : str src = .ok s)
    (h : d.length + s.length < n) : strcat (pad n d) src = .ok (pad n (d ++ s)) := by
  have hlen : (d ++ s).length < n := by rw [List.length_append]; exact h
  have hpad : pad n (d ++ (s ++ [nul])) = pad n (d ++ s) := by
    have hlen' : (d ++ s ++ [nul]).length = (d ++ s).length + 1 := List.length_append
    rw [pad_eq_cons hlen, pad, ← List.append_assoc, hlen', List.append_assoc (d ++ s),
      List.singleton_append, Nat.sub_sub]
  rw [strcat, str_pad (by omega) hd, Outcome.bind_ok, hsrc, Outcome.bind_ok,
    copyAt_pad (by rw [List.length_append, List.length_singleton]; omega), hpad]

theorem strrchr_pad {n : ℕ} {s : List Byte} {c : Byte} (h : s.length + 1 < n) (hs : nul ∉ s)
    (hc : c ≠ nul) : strrchr (pad n (s ++ [c])) c = .ok (some s.length) := by
  have hnul : nul ∉ s ++ [c] := by simp [hs, hc.symm]
  rw [strrchr, str_pad (by simpa using h) hnul]
  simp [List.idxOf?_cons]

/-- The last byte of a field is overwritten by a null byte. -/
theorem store_pad_nul {n : ℕ} {s : List Byte} {c : Byte} (h : s.length < n) :
    store (pad n (s ++ [c])) s.length nul = .ok (pad n s) := by
  rw [pad, List.append_assoc, List.singleton_append, store_append, pad_eq_cons h,
    List.length_append, List.length_singleton, Nat.sub_sub]

end CString
