/-
**When `tail` prints the last lines.**

Two questions about the command are settled here for every file and every number of lines: when the
backward scan ends without a seek outside of the file, and when what is written is the last `n`
lines.  The answers are given by the newlines of the file, through `Tail.stopDistance` for a file of
at least one block.  For a shorter file the scan always ends, and goes wrong only at a missing last
newline and at a newline in front of everything else.

Main definitions:

* `Tail.SeekSafe` — the scan ends, and it asks for no position outside of the file;
* `Tail.PrintsLastLines` — what is written, when the command ends, is the last `n` lines;
* `Tail.NewlineAtStart` — a block starts with a newline, which the scan does not see;
* `Tail.Exact` — the condition on the file and on `n`.

Main results:

* `Tail.copyLoop_eq` — the rest of the file is copied;
* `Tail.count_drop_found` — how many newlines there are behind the one that is found;
* `Tail.seekSafe_iff` — **when the scan is safe**;
* `Tail.printsLastLines_iff` — **when the last lines are printed**.
-/

import NetSysProg.TailScan
import NetSysProg.TextLines

set_option relaxedAutoImplicit false
set_option autoImplicit false

namespace Tail

open CString CInt TextLines

/-! ### The end of the scan -/

/-- The scan ends in one way only. -/
theorem EndsWith.unique {n : ℕ} {content : List Byte} {offset : ℤ} (h : EndsWith n content offset)
    {fuel : ℕ} {r : Scan} (hr : scanFile fuel n content = .ok r) :
    r.offset = offset ∧ r.fd.content = content ∧ SeeksIn content.length r.fd.seeks := by
  obtain ⟨fuel', r', hr', hoffset, hcontent, hseeks⟩ := h
  have h1 := scanFile_mono hr fuel'
  have h2 := scanFile_mono hr' fuel
  rw [Nat.add_comm, h1] at h2
  cases h2
  exact ⟨hoffset, hcontent, hseeks⟩

/-- **The scan is safe**: it ends, no seek asks for a position outside of the file, and `offset` is
between zero and the size of the file. -/
def SeekSafe (n : ℕ) (content : List Byte) : Prop :=
  ∃ fuel r, scanFile fuel n content = .ok r ∧
    (∀ t ∈ r.fd.target (wrap (-1 * r.offset)) .fromEnd :: r.fd.seeks,
      0 ≤ t ∧ t ≤ content.length) ∧
    0 ≤ r.offset ∧ r.offset ≤ content.length

theorem seekSafe_iff_of_endsWith {n : ℕ} {content : List Byte} {offset : ℤ}
    (h : EndsWith n content offset) (hmax : offset ≤ intMax) :
    SeekSafe n content ↔ 0 ≤ offset ∧ offset ≤ content.length := by
  constructor
  · intro ⟨fuel, r, hr, _, h0, hle⟩
    obtain ⟨rfl, -⟩ := h.unique hr
    exact ⟨h0, hle⟩
  · intro ⟨h0, hle⟩
    obtain ⟨fuel, r, hr, rfl, hcontent, hseeks⟩ := h
    refine ⟨fuel, r, hr, fun t ht => ?_, h0, hle⟩
    rcases List.mem_cons.1 ht with rfl | ht
    · unfold intMax at hmax
      rw [wrap_of_mem (by unfold intMin; omega) (by unfold intMax; omega)]
      simp only [Fd.target, hcontent]
      omega
    · exact hseeks t ht

/-- The value of `offset` for a distance, and the seek it leads to. -/
theorem wrap_distance (d : ℕ) :
    (d % 4294967296 < 2147483648 → wrap d = (d % 4294967296 : ℕ)) ∧
      (2147483648 ≤ d % 4294967296 → wrap d = (d % 4294967296 : ℕ) - 4294967296) := by
  unfold wrap
  omega

/-- **When the scan is safe.**  It is for a file of less than a block; for a larger file the
distance at which it stops has to exist and to be at most the size of the file once it has been
reduced to an `int`. -/
theorem seekSafe_iff (n : ℕ) (content : List Byte) :
    SeekSafe n content ↔
      content.length < BUF_SIZE ∨
        ∃ d, stopDistance n content = some d ∧ d % 4294967296 < 2147483648 ∧
          d % 4294967296 ≤ content.length := by
  have hsmall : BUF_SIZE = 4096 := rfl
  by_cases hsize : content.length < BUF_SIZE
  · refine iff_of_true ?_ (.inl hsize)
    have hends := scan_short hsize n
    cases hi : (newlinesBelow content (content.length - 1))[n]? with
    | some i =>
        simp only [hi] at hends
        rw [seekSafe_iff_of_endsWith hends (by unfold intMax; omega)]
        omega
    | none =>
        simp only [hi] at hends
        rw [seekSafe_iff_of_endsWith hends (by unfold intMax; omega)]
        omega
  · rw [not_lt] at hsize
    simp only [not_lt.2 hsize, false_or]
    cases hd : stopDistance n content with
    | none =>
        refine iff_of_false ?_ (by simp)
        intro ⟨fuel, r, hr, _⟩
        exact scan_never_stops hsize hd fuel r hr
    | some d =>
        have hends := scan_stops hsize hd
        rw [seekSafe_iff_of_endsWith hends (wrap_mem d).2]
        simp only [Option.some.injEq, exists_eq_left']
        have h := wrap_distance d
        omega

/-- A file of one block without a newline, of which no line is to be printed: the scan reads the
block over and over. -/
theorem not_seekSafe_noNewline : ¬SeekSafe 0 (List.replicate BUF_SIZE 97) := by
  intro ⟨fuel, r, hr, _⟩
  have hhead : ∀ i, newlinesBelow (window (List.replicate BUF_SIZE 97) 0) i = [] := by
    intro i
    refine List.eq_nil_iff_forall_not_mem.2 ?_
    intro j hj
    have hbyte := List.mem_of_getElem? (mem_newlinesBelow.1 hj).2.2
    have h97 := List.eq_of_mem_replicate (List.mem_of_mem_drop (List.mem_of_mem_take hbyte))
    exact absurd h97 (by decide)
  have hstop : stopDistance 0 (List.replicate BUF_SIZE 97) = none := by
    have hdiv : BUF_SIZE / BUF_SIZE = 0 + 1 := rfl
    have hwindow : BUF_SIZE - (0 + 1) * BUF_SIZE = 0 := rfl
    have hcount : windowDistances (List.replicate BUF_SIZE 97) (0 + 1) = [] := by
      rw [windowDistances, List.length_replicate, hwindow, hhead]
      rfl
    simp only [stopDistance, windowCount, headNewlines, List.length_replicate, hdiv, hcount, hhead]
    rfl
  exact scan_never_stops (by rw [List.length_replicate]) hstop fuel r hr

/-! ### What is written -/

/-- **The rest of the file is copied.** -/
theorem copyLoop_eq (content : List Byte) (seeks : List ℤ) (fuel pos : ℕ) (out : List Byte)
    (hfuel : content.length - pos < fuel) :
    copyLoop fuel ⟨content, pos, seeks⟩ out = .ok (out ++ content.drop pos) := by
  have hsmall : BUF_SIZE = 4096 := rfl
  induction fuel generalizing pos out with
  | zero => exact absurd hfuel (Nat.not_lt_zero _)
  | succ fuel ih =>
      have hread : Fd.readBytes ⟨content, pos, seeks⟩ = (content.drop pos).take BUF_SIZE := rfl
      have hlen : ((content.drop pos).take BUF_SIZE).length =
          min BUF_SIZE (content.length - pos) := by
        rw [List.length_take, List.length_drop]
      unfold copyLoop
      split
      · rename_i hpos
        rw [hread, hlen] at hpos
        have hsplit := List.prefix_iff_eq_append.1 (List.take_prefix BUF_SIZE (content.drop pos))
        rw [Fd.afterRead, hread, ih _ _ (by dsimp only; omega), List.append_assoc,
          ← List.drop_drop, hsplit]
      · rename_i hpos
        rw [hread, hlen] at hpos
        rw [List.drop_of_length_le (by omega), List.append_nil]

theorem copyLoop_mono {fuel : ℕ} {fd : Fd} {out r : List Byte} (h : copyLoop fuel fd out = .ok r)
    (k : ℕ) : copyLoop (fuel + k) fd out = .ok r := by
  induction fuel generalizing fd out with
  | zero => cases h
  | succ fuel ih =>
      rw [Nat.add_right_comm]
      unfold copyLoop at h ⊢
      split
      · rename_i hpos
        rw [if_pos hpos] at h
        exact ih h
      · rename_i hpos
        rwa [if_neg hpos] at h

/-- **The command prints the last lines**: whenever it ends without an error, what it has written is
the last `n` lines of the file. -/
def PrintsLastLines (n : ℕ) (content : List Byte) : Prop :=
  ∀ fuel out, tail fuel n content = .ok out → out = lastLines newline n content

/-- The whole command, from the end of the scan: the last seek decides. -/
theorem printsLastLines_iff_of_endsWith {n : ℕ} {content : List Byte} {offset : ℤ}
    (h : EndsWith n content offset) :
    PrintsLastLines n content ↔
      content.length + wrap (-1 * offset) < 0 ∨
        content.drop (content.length + wrap (-1 * offset)).toNat = lastLines newline n content := by
  have hcopy (fuel : ℕ) (r : Scan) (hr : scanFile fuel n content = .ok r) :
      tail fuel n content =
        if content.length + wrap (-1 * offset) < 0 then
          errExit "error when lseek (print to stdout)\n"
        else copyLoop fuel ⟨content, (content.length + wrap (-1 * offset)).toNat,
          (content.length + wrap (-1 * offset)) :: r.fd.seeks⟩ [] := by
    obtain ⟨hoffset, hcontent, -⟩ := h.unique hr
    have htarget : r.fd.target (wrap (-1 * r.offset)) .fromEnd =
        content.length + wrap (-1 * offset) := by
      rw [Fd.target, hoffset, hcontent]
    rw [tail, hr, Outcome.bind_ok, lseek, htarget]
    split
    · rfl
    · rw [hcontent]
      rfl
  obtain ⟨fuel, r, hr, -⟩ := h
  constructor
  · intro hprints
    by_cases hneg : content.length + wrap (-1 * offset) < 0
    · exact .inl hneg
    · refine .inr (hprints (fuel + (content.length + 1)) _ ?_)
      rw [hcopy _ r (scanFile_mono hr _), if_neg hneg, copyLoop_eq _ _ _ _ _ (by omega),
        List.nil_append]
  · intro hright fuel' out hout
    obtain ⟨r', hr', -⟩ := Outcome.bind_eq_ok.1 hout
    rw [hcopy fuel' r' hr'] at hout
    split at hout
    · cases hout
    · have hmore := copyLoop_mono hout (content.length + 1)
      rw [copyLoop_eq _ _ _ _ _ (by omega), List.nil_append] at hmore
      cases hmore
      exact hright.resolve_left ‹_›

/-! ### A file of less than a block -/

theorem count_drop_of_newline {content : List Byte} {i : ℕ} (h : content[i]? = some newline) :
    (content.drop i).count newline = (content.drop (i + 1)).count newline + 1 := by
  obtain ⟨hi, hget⟩ := List.getElem?_eq_some_iff.1 h
  rw [List.drop_eq_getElem_cons hi, hget, List.count_cons_self]

theorem count_drop_of_ne {content : List Byte} {i : ℕ} (h : content[i]? ≠ some newline) :
    (content.drop i).count newline = (content.drop (i + 1)).count newline := by
  by_cases hi : i < content.length
  · have hne : content[i] ≠ newline := by
      intro hget
      exact h (List.getElem?_eq_some_iff.2 ⟨hi, hget⟩)
    rw [List.drop_eq_getElem_cons hi, List.count_cons_of_ne hne]
  · rw [List.drop_of_length_le (by omega), List.drop_of_length_le (by omega)]

/-- A newline that is seen has the newlines seen before it behind it. -/
theorem count_drop_newlinesBelow {content : List Byte} {i k j : ℕ}
    (hj : (newlinesBelow content i)[k]? = some j) :
    (content.drop (j + 1)).count newline = k + (content.drop (i + 1)).count newline := by
  induction i generalizing k with
  | zero => cases hj
  | succ i ih =>
      rw [newlinesBelow] at hj
      split at hj
      · rename_i hnl
        cases k with
        | zero =>
            cases hj
            rw [Nat.zero_add]
        | succ k =>
            rw [ih hj, count_drop_of_newline hnl]
            omega
      · rename_i hnl
        rw [ih hj, count_drop_of_ne hnl]

/-- One pass sees every newline but one in front of everything else. -/
theorem length_newlinesBelow (content : List Byte) (i : ℕ) :
    (newlinesBelow content i).length + (content.drop (i + 1)).count newline =
      (content.drop 1).count newline := by
  induction i with
  | zero => rw [newlinesBelow, List.length_nil, Nat.zero_add]
  | succ i ih =>
      rw [newlinesBelow]
      split
      · rename_i hnl
        rw [← ih, count_drop_of_newline hnl, List.length_cons]
        omega
      · rename_i hnl
        rw [← ih, count_drop_of_ne hnl]

theorem count_eq_newlinesBelow {content : List Byte} (h : content ≠ []) :
    content.count newline = (newlinesBelow content (content.length - 1)).length +
      if content.head? = some newline then 1 else 0 := by
  have hpos := List.length_pos_iff.2 h
  have hpass := length_newlinesBelow content (content.length - 1)
  rw [Nat.sub_add_cancel hpos, List.drop_length, List.count_nil, Nat.add_zero] at hpass
  rw [hpass]
  cases content with
  | nil => exact absurd rfl h
  | cons b bs =>
      by_cases hb : b = newline
      · simp [hb]
      · simp [hb, List.count_cons_of_ne]

/-- The text behind a newline is unterminated when the file is. -/
theorem unterminated_drop_iff {content : List Byte} {i : ℕ} (hi : content[i]? = some newline) :
    Unterminated newline (content.drop (i + 1)) ↔ content.getLast? ≠ some newline := by
  obtain ⟨hlt, -⟩ := List.getElem?_eq_some_iff.1 hi
  rw [Unterminated, List.getLast?_drop]
  by_cases hlast : content.length ≤ i + 1
  · have hidx : content.length - 1 = i := by omega
    have hnil : content.drop (i + 1) = [] := List.drop_of_length_le hlast
    simp [hnil, List.getLast?_eq_getElem?, hidx, hi]
  · have hne : content.drop (i + 1) ≠ [] := fun h => hlast (List.drop_eq_nil_iff.1 h)
    simp [hne, hlast]

/-! ### The newlines that are not seen -/

/-- The `k`-th block from the end starts with a newline, which the scan does not see. -/
def NewlineAtStart (content : List Byte) (k : ℕ) : Prop :=
  content[content.length - (k + 1) * BUF_SIZE]? = some newline

instance (content : List Byte) (k : ℕ) : Decidable (NewlineAtStart content k) :=
  inferInstanceAs (Decidable (_ = _))

/-- How many of the last `k` blocks do. -/
def unseen (content : List Byte) (k : ℕ) : ℕ :=
    (List.range k).countP fun j => NewlineAtStart content j

theorem unseen_succ (content : List Byte) (k : ℕ) :
    unseen content (k + 1) = unseen content k + if NewlineAtStart content k then 1 else 0 := by
  simp [unseen, List.range_succ, List.countP_append, List.countP_cons]

theorem unseen_eq_zero_iff (content : List Byte) (k : ℕ) :
    unseen content k = 0 ↔ ∀ j < k, ¬NewlineAtStart content j := by
  simp [unseen, List.countP_eq_zero]

/-- The newlines behind a place are those of a block there and those behind the block. -/
theorem count_drop_window (content : List Byte) (a m : ℕ) (hm : m ≤ BUF_SIZE) :
    (content.drop (a + m)).count newline =
      ((window content a).drop m).count newline + (content.drop (a + BUF_SIZE)).count newline := by
  have hsplit : content.drop (a + m) = (window content a).drop m ++
    content.drop (a + BUF_SIZE) := by
    have htake := List.take_append_drop (BUF_SIZE - m) (content.drop (a + m))
    rw [List.drop_drop, Nat.add_assoc, Nat.add_sub_cancel' hm] at htake
    rw [← htake, window, List.drop_take, List.drop_drop]
  rw [hsplit, List.count_append]

/-- All newlines of the last `k` blocks. -/
theorem count_drop_blocks (content : List Byte) (k : ℕ) (hk : k ≤ content.length / BUF_SIZE) :
    (content.drop (content.length - k * BUF_SIZE)).count newline =
      (windowDistances content k).length + unseen content k := by
  induction k with
  | zero => simp [windowDistances, unseen]
  | succ k ih =>
      have hfit := (Nat.le_div_iff_mul_le (by decide)).1 hk
      have hsucc : (k + 1) * BUF_SIZE = k * BUF_SIZE + BUF_SIZE := Nat.succ_mul k BUF_SIZE
      have hnext : content.length - (k + 1) * BUF_SIZE + BUF_SIZE =
        content.length - k * BUF_SIZE := by
        omega
      have hall := count_drop_window content (content.length - (k + 1) * BUF_SIZE) 0 (Nat.zero_le _)
      rw [Nat.add_zero, hnext, ih (by omega), List.drop_zero] at hall
      have hlen := @length_window content (content.length - (k + 1) * BUF_SIZE) (by omega)
      have hne : window content (content.length - (k + 1) * BUF_SIZE) ≠ [] := by
        rw [← List.length_pos_iff, hlen]
        decide
      have hhead : (window content (content.length - (k + 1) * BUF_SIZE)).head? =
          content[content.length - (k + 1) * BUF_SIZE]? := by
        rw [window, List.head?_take, if_neg (by decide), List.head?_drop]
      rw [hall, count_eq_newlinesBelow hne, hlen, hhead, unseen_succ, windowDistances,
        List.length_append, List.length_map]
      by_cases hstart : content[content.length - (k + 1) * BUF_SIZE]? = some newline
      · rw [if_pos hstart, if_pos (show NewlineAtStart content k from hstart)]
        omega
      · rw [if_neg hstart, if_neg (show ¬NewlineAtStart content k from hstart)]
        omega

/-- **What is behind the newline that is found**: the newlines that have been seen before, and those
at the starts of the blocks. -/
theorem count_drop_found {content : List Byte} {n k d : ℕ} (hk : k ≤ content.length / BUF_SIZE)
    (hd : (windowDistances content k)[n]? = some d) :
    d < k * BUF_SIZE ∧ content[content.length - d - 1]? = some newline ∧
      (content.drop (content.length - d)).count newline = n + unseen content (d / BUF_SIZE) := by
  have hsmall : BUF_SIZE = 4096 := rfl
  induction k with
  | zero => cases hd
  | succ k ih =>
      have hfit := (Nat.le_div_iff_mul_le (by decide)).1 hk
      have hsucc : (k + 1) * BUF_SIZE = k * BUF_SIZE + BUF_SIZE := Nat.succ_mul k BUF_SIZE
      by_cases hc : n < (windowDistances content k).length
      · rw [windowDistances, List.getElem?_append_left hc] at hd
        obtain ⟨hlt, hrest⟩ := ih (by omega) hd
        exact ⟨by omega, hrest⟩
      · rw [windowDistances, List.getElem?_append_right (not_lt.1 hc), List.getElem?_map,
          Option.map_eq_some_iff] at hd
        obtain ⟨i, hi, rfl⟩ := hd
        obtain ⟨hpos, hle, hbyte⟩ := mem_newlinesBelow.1 (List.mem_of_getElem? hi)
        -- the newline is at index `i` of the block that starts at `a`
        set a := content.length - (k + 1) * BUF_SIZE with ha
        have hlen := @length_window content a (by omega)
        have hplace : content.length - (k * BUF_SIZE + (BUF_SIZE - 1 - i)) - 1 = a + i := by omega
        have hbehind : content.length - (k * BUF_SIZE + (BUF_SIZE - 1 - i)) = a + (i + 1) := by
          omega
        have hdiv : (k * BUF_SIZE + (BUF_SIZE - 1 - i)) / BUF_SIZE = k := by
          rw [hsmall]
          omega
        have hnext : a + BUF_SIZE = content.length - k * BUF_SIZE := by omega
        refine ⟨by omega, ?_, ?_⟩
        · rw [hplace]
          rw [window, List.getElem?_take_of_lt (by omega), List.getElem?_drop] at hbyte
          exact hbyte
        · have hseen := count_drop_newlinesBelow hi
          have hend : ((window content a).drop (BUF_SIZE - 1 + 1)).count newline = 0 := by
            rw [List.drop_of_length_le (by omega), List.count_nil]
          rw [hend] at hseen
          rw [hbehind, hdiv, count_drop_window content a (i + 1) (by omega), hseen, hnext,
            count_drop_blocks content k (by omega)]
          omega

/-- **When the last lines are printed.**  A file of less than a block has to end with a newline and
not to start with the newline that would complete the count, or to have too few lines anyway.  For a
larger file whose blocks have enough newlines the last byte has to be a newline and no block that is
printed may start with one.  Where the first block is read again, or the distance does not fit into
an `int`, the newlines at the end decide: there are at most as many as lines are asked for in what
the distance, reduced to an `int`, reaches back over, and more from the byte in front of it on,
unless the last seek is refused. -/
def Exact (n : ℕ) (content : List Byte) : Prop :=
  if content.length < BUF_SIZE then
    content = [] ∨
      (content.getLast? = some newline ∧
        ¬(content.head? = some newline ∧ content.count newline = n + 1)) ∨
      (Unterminated newline content ∧ content.count newline < n)
  else
    ∀ d, stopDistance n content = some d →
      if n < windowCount content ∧ d < 2147483648 then
        content.getLast? = some newline ∧ ∀ k < d / BUF_SIZE, ¬NewlineAtStart content k
      else
        let r := d % 4294967296
        let behind (k : ℕ) := (content.drop k).count newline +
          if Unterminated newline (content.drop k) then 1 else 0
        (r ≤ 2147483648 → content.length < r ∨
          behind (content.length - r) ≤ n ∧
            (r = content.length ∨ n < behind (content.length - r - 1))) ∧
        (2147483648 < r → n = 0)

/-- The newline that completes the count, if the blocks have so many. -/
theorem windowDistances_of_stopDistance {content : List Byte} {n d : ℕ}
    (hn : n < windowCount content)
    (hd : stopDistance n content = some d) :
    (windowDistances content (content.length / BUF_SIZE))[n]? = some d := by
  rwa [stopDistance, if_pos hn] at hd

/-- The lines behind the newline that is found. -/
theorem drop_eq_lastLines_found {content : List Byte} {n d : ℕ} (hn : n < windowCount content)
    (hd : stopDistance n content = some d) :
    d < content.length ∧ (content.drop (content.length - d) = lastLines newline n content ↔
      content.getLast? = some newline ∧ ∀ k < d / BUF_SIZE, ¬NewlineAtStart content k) := by
  obtain ⟨hlt, hbyte, hcount⟩ := count_drop_found le_rfl (windowDistances_of_stopDistance hn hd)
  have hle := Nat.div_mul_le_self content.length BUF_SIZE
  have hbefore := count_drop_of_newline hbyte
  rw [show content.length - d - 1 + 1 = content.length - d by omega] at hbefore
  have hterm := unterminated_drop_iff hbyte
  rw [show content.length - d - 1 + 1 = content.length - d by omega] at hterm
  refine ⟨by omega, ?_⟩
  rw [drop_eq_lastLines_iff newline n (Nat.sub_le _ _), length_lines, length_lines, hbefore, hcount,
    ← unseen_eq_zero_iff]
  by_cases hlast : content.getLast? = some newline
  · rw [if_neg (hterm.not.2 (not_not_intro hlast))]
    simp only [hlast, true_and]
    omega
  · rw [if_pos (hterm.2 hlast)]
    simp only [hlast, false_and, iff_false]
    omega

/-- **Files of at least one block.** -/
theorem printsLastLines_iff_of_large {n : ℕ} {content : List Byte}
    (hsize : BUF_SIZE ≤ content.length) : PrintsLastLines n content ↔ Exact n content := by
  have hne : content ≠ [] := by
    rintro rfl
    exact absurd hsize (by decide)
  rw [Exact, if_neg (not_lt.2 hsize)]
  cases hd : stopDistance n content with
  | none =>
      refine iff_of_true (fun fuel out hout => ?_) (by simp)
      obtain ⟨r, hr, -⟩ := Outcome.bind_eq_ok.1 hout
      exact absurd hr (scan_never_stops hsize hd fuel r)
  | some d =>
      rw [printsLastLines_iff_of_endsWith (scan_stops hsize hd)]
      simp only [Option.some.injEq, forall_eq']
      by_cases hfound : n < windowCount content ∧ d < 2147483648
      · -- the seek leads to the newline that has been found
        obtain ⟨hlt, hlines⟩ := drop_eq_lastLines_found hfound.1 hd
        rw [if_pos hfound, ← hlines]
        have hseek : wrap (-1 * wrap d) = -(d : ℤ) := by
          unfold wrap
          omega
        have htarget : ((content.length : ℤ) + -(d : ℤ)).toNat = content.length - d := by omega
        rw [hseek, htarget]
        exact or_iff_right (by omega)
      · rw [if_neg hfound]
        simp only [← length_lines]
        set r := d % 4294967296 with hr
        rcases Nat.lt_or_ge 2147483648 r with hbig | hsmall
        · -- `offset` is negative and the seek goes beyond the end
          have hseek : wrap (-1 * wrap d) = 4294967296 - r := by
            unfold wrap
            omega
          have hdrop : content.drop (content.length + (4294967296 - r : ℤ)).toNat = [] :=
            List.drop_of_length_le (by omega)
          rw [hseek, hdrop, eq_comm, lastLines_eq_nil_iff newline hne]
          omega
        · have hseek : wrap (-1 * wrap d) = -(r : ℤ) := by
            unfold wrap
            omega
          rw [hseek]
          rcases Nat.lt_or_ge content.length r with hlt | hle
          · simp only [hlt, true_or, implies_true, not_lt.2 hsmall, false_imp_iff,
              and_true, iff_true]
            left
            omega
          · have htarget : ((content.length : ℤ) + -(r : ℤ)).toNat = content.length - r := by omega
            have hwhole : content.length - r = 0 ↔ r = content.length := by omega
            rw [htarget, drop_eq_lastLines_iff newline n (Nat.sub_le _ _), hwhole]
            omega

/-- The file is printed from behind a newline on, which is right when the last line has its
newline. -/
theorem drop_eq_lastLines_of_found {content : List Byte} {n i : ℕ}
    (hi : (newlinesBelow content (content.length - 1))[n]? = some i) :
    content.drop (i + 1) = lastLines newline n content ↔ content.getLast? = some newline := by
  have hnl := (mem_newlinesBelow.1 (List.mem_of_getElem? hi)).2.2
  obtain ⟨hlt, -⟩ := List.getElem?_eq_some_iff.1 hnl
  have hcount : (content.drop (i + 1)).count newline = n := by
    rw [count_drop_newlinesBelow hi, Nat.sub_add_cancel (by omega), List.drop_length,
      List.count_nil, Nat.add_zero]
  have hprev := count_drop_of_newline hnl
  rw [drop_eq_lastLines_iff newline n (by omega : i + 1 ≤ content.length), Nat.add_sub_cancel,
    length_lines, length_lines, hprev, hcount]
  have hterm := unterminated_drop_iff hnl
  by_cases hlast : content.getLast? = some newline
  · simp only [hterm, hlast, ne_eq, not_true, if_false, Nat.add_zero, le_refl, true_and, iff_true]
    exact .inr (by omega)
  · simp only [hterm, hlast, ne_eq, not_false_iff, if_true, iff_false, not_and]
    omega

/-- The whole file is printed when it has no more lines than are asked for. -/
theorem drop_zero_eq_lastLines (content : List Byte) (n : ℕ) :
    content.drop 0 = lastLines newline n content ↔
      content.count newline + (if Unterminated newline content then 1 else 0) ≤ n := by
  rw [drop_eq_lastLines_iff newline n (Nat.zero_le content.length), length_lines, List.drop_zero]
  simp only [true_or, and_true]

/-- **Files of less than a block.** -/
theorem printsLastLines_iff_of_small {n : ℕ} {content : List Byte}
    (hsize : content.length < BUF_SIZE) : PrintsLastLines n content ↔ Exact n content := by
  have hsmall : BUF_SIZE = 4096 := rfl
  have hends := scan_short hsize n
  rw [Exact, if_pos hsize]
  by_cases hne : content = []
  · subst hne
    have hseek : wrap (-1 * 0) = 0 := rfl
    rw [printsLastLines_iff_of_endsWith hends]
    exact iff_of_true (.inr (by simp [lastLines, lines])) (.inl rfl)
  · have htotal := count_eq_newlinesBelow hne
    have hterm : Unterminated newline content ↔ content.getLast? ≠ some newline := by
      simp [Unterminated, hne]
    cases hi : (newlinesBelow content (content.length - 1))[n]? with
    | some i =>
        -- the scan has stopped at a newline
        have hle := (mem_newlinesBelow.1 (List.mem_of_getElem? hi)).2.1
        obtain ⟨hmany, -⟩ := List.getElem?_eq_some_iff.1 hi
        have hpos := List.length_pos_iff.2 hne
        have hseek : content.length + wrap (-1 * (content.length - 1 - i : ℕ)) = (i + 1 : ℕ) := by
          unfold wrap
          omega
        simp only [hi] at hends
        have hneg : ¬((i + 1 : ℕ) : ℤ) < 0 := by omega
        rw [printsLastLines_iff_of_endsWith hends, hseek, Int.toNat_natCast,
          drop_eq_lastLines_of_found hi, hterm]
        by_cases hlast : content.getLast? = some newline
        · -- a newline in front of everything is one more than has been counted
          have hcount : ¬(content.head? = some newline ∧ content.count newline = n + 1) := by
            rintro ⟨hhead, hcount⟩
            rw [if_pos hhead] at htotal
            omega
          exact iff_of_true (.inr hlast) (.inr (.inl ⟨hlast, hcount⟩))
        · have hcount : ¬content.count newline < n := by omega
          simp only [hne, hlast, hcount, hneg, false_and, and_false, or_self]
    | none =>
        -- too few newlines have been seen and the whole file is printed
        have hseek : content.length + wrap (-1 * content.length) = 0 := by
          unfold wrap
          omega
        have hfew := List.getElem?_eq_none_iff.1 hi
        simp only [hi] at hends
        rw [printsLastLines_iff_of_endsWith hends, hseek, Int.toNat_zero, drop_zero_eq_lastLines]
        by_cases hlast : content.getLast? = some newline
        · simp only [hne, hterm, hlast, ne_eq, not_true, if_false, false_or, true_and, false_and,
            or_false, Nat.add_zero]
          split at htotal
          · rename_i hhead
            simp only [hhead, true_and]
            omega
          · rename_i hhead
            simp only [hhead, false_and, not_false_iff, iff_true]
            omega
        · simp only [hne, hterm, hlast, ne_eq, not_false_iff, if_true, false_or, true_and,
            false_and]
          omega

/-- **When `tail` prints the last lines.** -/
theorem printsLastLines_iff (n : ℕ) (content : List Byte) :
    PrintsLastLines n content ↔ Exact n content := by
  rcases Nat.lt_or_ge content.length BUF_SIZE with hsize | hsize
  · exact printsLastLines_iff_of_small hsize
  · exact printsLastLines_iff_of_large hsize

/-- Of the two lines `a` and `b`, the second of which has no newline, both are printed instead of
the last one. -/
theorem not_printsLastLines_noFinalNewline : ¬PrintsLastLines 1 [97, 10, 98] := by
  intro h
  exact absurd (h 2 [97, 10, 98] (by decide)) (by decide)

end Tail
