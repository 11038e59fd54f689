/-
**The functions of `string.h` that take a bound.**

`strncmp` compares no more than a given number of bytes, and stops at the end of the strings before;
compared with a constant and its length, it tells whether a buffer begins with the constant.
`strncpy` writes exactly the given number of bytes: the string, cut off or filled up with null
bytes, so a string that is cut off is left without the null byte at its end.

* `CString.strncmp`, `CString.strncpy`;
* `CString.strncmp_prefix` — **a comparison with a whole string** is a test for a prefix;
* `CString.strncpy_eq` — what `strncpy` writes.
-/

import NetSysProg.CString
import Mathlib.Data.List.Infix

set_option relaxedAutoImplicit false
set_option autoImplicit false

namespace CString

/-- The difference of the first two bytes that differ among the first `n`, as `unsigned char`. -/
def strncmp : List Byte → List Byte → ℕ → Outcome ℤ
  | _, _, 0 => .ok 0
  | a :: as, b :: bs, n + 1 =>
      if a = b then if a = nul then .ok 0 else strncmp as bs n
      else .ok ((a.toNat : ℤ) - b.toNat)
  | _, _, _ + 1 => .fault

/-- The bytes of the string at the start of `src` that are among its first `n` bytes. -/
def strUpTo (n : ℕ) (src : List Byte) : List Byte := (src.take n).takeWhile (· ≠ nul)

/-- `n` bytes are written to `dst`. -/
def strncpy (dst src : List Byte) (n : ℕ) : Outcome (List Byte) :=
  if (nul ∈ src ∨ n ≤ src.length) ∧ n ≤ dst.length then
    .ok (pad n (strUpTo n src) ++ dst.drop n)
  else .fault

/-- **A comparison with a whole string**, behind which there may be anything: the buffer holds a
string or is long enough. -/
theorem strncmp_prefix (buf : List Byte) {s : List Byte} (hs : nul ∉ s)
    (hbuf : nul ∈ buf ∨ s.length ≤ buf.length) (t : List Byte) :
    ∃ d, strncmp buf (s ++ t) s.length = .ok d ∧ (d = 0 ↔ s <+: buf) := by
  induction s generalizing buf with
  | nil =>
      refine ⟨0, ?_, iff_of_true rfl List.nil_prefix⟩
      cases buf <;> rfl
  | cons b s ih =>
      rw [List.mem_cons, not_or] at hs
      cases buf with
      | nil => simp at hbuf
      | cons a buf =>
          rw [List.cons_append, List.length_cons, strncmp, List.cons_prefix_cons]
          by_cases hab : a = b
          · have hnul : a ≠ nul := fun h => hs.1 (h.symm.trans hab)
            have hbuf' : nul ∈ buf ∨ s.length ≤ buf.length := by
              rcases hbuf with hmem | hlen
              · exact Or.inl ((List.mem_cons.1 hmem).resolve_left hnul.symm)
              · exact Or.inr (Nat.le_of_succ_le_succ hlen)
            obtain ⟨d, hd, hiff⟩ := ih buf hs.2 hbuf'
            refine ⟨d, ?_, ?_⟩
            · rw [if_pos hab, if_neg hnul, hd]
            · rw [hiff, and_iff_right hab.symm]
          · have hne : a.toNat ≠ b.toNat := fun h => hab (UInt8.toNat_inj.1 h)
            refine ⟨(a.toNat : ℤ) - b.toNat, by rw [if_neg hab], ?_⟩
            refine iff_of_false (by omega) fun h => hab h.1.symm

/-- What `strncpy` writes. -/
theorem strncpy_eq (dst : List Byte) {src : List Byte} {n : ℕ} (hsrc : nul ∈ src ∨ n ≤ src.length)
    (hdst : n ≤ dst.length) : strncpy dst src n = .ok (pad n (strUpTo n src) ++ dst.drop n) :=
  if_pos ⟨hsrc, hdst⟩

theorem length_strUpTo_le (n : ℕ) (src : List Byte) : (strUpTo n src).length ≤ n :=
  (List.takeWhile_sublist _).length_le.trans (List.length_take_le _ _)

/-- A string and what is behind its null byte. -/
theorem strUpTo_append {n : ℕ} {s : List Byte} (hs : nul ∉ s) (t : List Byte) :
    strUpTo n (s ++ nul :: t) = s.take n := takeWhile_take_append_cons hs t n

end CString
