/-
**Where the backward scan of `tail` stops.**

The scan looks at the blocks of `BUF_SIZE` bytes before the end of the file one after the other, and
never at the first byte of a block.  When less than a block is left in front it does not stop: the
next read is again of a whole block from the start of the file, and so are all the reads after it,
while `offset` grows by the two parts of a block in turn.  This module computes, for a file of at
least one block, what the scan has in `offset` when it stops, and shows that it does not stop at all
when there are not enough newlines in the blocks and none in the first one.

Main definitions:

* `Tail.newlinesBelow` — the newlines that one pass over a buffer sees;
* `Tail.windowDistances` — the distances from the end of the newlines seen in the blocks;
* `Tail.stopDistance` — **the distance that is found for the `n + 1`-st newline**, from the
  newlines of the file alone.

Main results:

* `Tail.countLoop_eq` — the inner loop;
* `Tail.scanLoop_found`, `Tail.scanLoop_next` — one iteration of the scan;
* `Tail.scan_stops`, `Tail.scan_never_stops` — the scan of a file of at least one block;
* `Tail.scan_short` — the scan of a shorter file.
-/

import NetSysProg.TailModel

set_option relaxedAutoImplicit false
set_option autoImplicit false

namespace Tail

open CString CInt

/-! ### One pass over a buffer -/

/-- The indices of the newlines of a buffer, from `i` down to `1`. -/
def newlinesBelow (buffer : List Byte) : ℕ → List ℕ
  | 0 => []
  | i + 1 =>
      if buffer[i + 1]? = some newline then (i + 1) :: newlinesBelow buffer i
      else newlinesBelow buffer i

theorem mem_newlinesBelow {buffer : List Byte} {i j : ℕ} :
    j ∈ newlinesBelow buffer i ↔ 1 ≤ j ∧ j ≤ i ∧ buffer[j]? = some newline := by
  induction i with
  | zero =>
      simp only [newlinesBelow, List.not_mem_nil, false_iff]
      omega
  | succ i ih =>
      unfold newlinesBelow
      split
      · rename_i h
        rw [List.mem_cons, ih]
        constructor
        · rintro (rfl | ⟨h1, h2, h3⟩)
          · exact ⟨by omega, le_rfl, h⟩
          · exact ⟨h1, by omega, h3⟩
        · rintro ⟨h1, h2, h3⟩
          by_cases hj : j = i + 1
          · exact .inl hj
          · exact .inr ⟨h1, by omega, h3⟩
      · rename_i h
        rw [ih]
        constructor
        · rintro ⟨h1, h2, h3⟩
          exact ⟨h1, by omega, h3⟩
        · rintro ⟨h1, h2, h3⟩
          have hj : j ≠ i + 1 := by
            intro hj
            exact h (hj ▸ h3)
          exact ⟨h1, by omega, h3⟩

/-- **The inner loop** stops at the newline that completes the count, if there is one. -/
theorem countLoop_eq (buffer : List Byte) (lineNum i c : ℕ) (offset : ℤ) (hc : c < lineNum) :
    countLoop buffer lineNum i c offset =
      match (newlinesBelow buffer i)[lineNum - c - 1]? with
      | some j => (lineNum, wrap (offset + ((buffer.length : ℤ) - j)))
      | none => (c + (newlinesBelow buffer i).length, offset) := by
  induction i generalizing c with
  | zero => rfl
  | succ i ih =>
      unfold countLoop newlinesBelow
      by_cases h : buffer[i + 1]? = some newline
      · simp only [h, if_true]
        by_cases hlast : c + 1 = lineNum
        · have hzero : lineNum - c - 1 = 0 := by omega
          simp [hlast, hzero]
        · obtain ⟨k, hk⟩ : ∃ k, lineNum - c - 1 = k + 1 := ⟨lineNum - c - 2, by omega⟩
          have hk' : lineNum - (c + 1) - 1 = k := by omega
          rw [if_neg hlast, ih (c + 1) (by omega), hk, hk', List.getElem?_cons_succ,
            List.length_cons]
          cases (newlinesBelow buffer i)[k]? with
          | none => simp only [Nat.add_assoc, Nat.add_comm 1]
          | some j => rfl
      · simp only [h, if_false, ih c hc, if_neg (Nat.ne_of_lt hc)]

/-! ### One iteration of the scan -/

/-- No seek has asked for a position outside of the file. -/
def SeeksIn (size : ℕ) (seeks : List ℤ) : Prop := ∀ t ∈ seeks, 0 ≤ t ∧ t ≤ size

/-- The block of the file that starts at `a`. -/
def window (content : List Byte) (a : ℕ) : List Byte := (content.drop a).take BUF_SIZE

theorem length_window {content : List Byte} {a : ℕ} (h : a + BUF_SIZE ≤ content.length) :
    (window content a).length = BUF_SIZE := by
  rw [window, List.length_take, List.length_drop]
  omega

/-- The iteration in which the last newline is found. -/
theorem scanLoop_found {content : List Byte} {pos c n i : ℕ} (seeks : List ℤ) (offset seekSize : ℤ)
    (hc : c ≤ n) (hfit : pos + BUF_SIZE ≤ content.length)
    (hi : (newlinesBelow (window content pos) (BUF_SIZE - 1))[n - c]? = some i) (fuel : ℕ) :
    scanLoop (n + 1) content.length (fuel + 1) ⟨⟨content, pos, seeks⟩, c, offset, seekSize⟩ =
      .ok ⟨⟨content, pos + BUF_SIZE, seeks⟩, n + 1, wrap (offset + (BUF_SIZE - 1 - i)),
        seekSize⟩ := by
  have hlen := length_window hfit
  have hcount := countLoop_eq (window content pos) (n + 1) (BUF_SIZE - 1) c offset (by omega)
  have hidx : n + 1 - c - 1 = n - c := by omega
  rw [hidx, hi, hlen] at hcount
  have hread : Fd.readBytes ⟨content, pos, seeks⟩ = window content pos := rfl
  have hoffset : wrap (wrap (offset + ((BUF_SIZE : ℤ) - i)) - 1) =
      wrap (offset + (BUF_SIZE - 1 - i)) := by
    unfold wrap
    omega
  simp only [scanLoop, if_pos (Nat.lt_succ_of_le hc), Fd.afterRead, hread, hlen, hcount, if_true,
    hoffset, Outcome.pure_eq]

theorem lseek_of_target {fd : Fd} {offset : ℤ} {whence : Whence} {pos : ℕ}
    (h : fd.target offset whence = pos) (message : String) :
    lseek fd offset whence message = .ok ⟨fd.content, pos, (pos : ℤ) :: fd.seeks⟩ := by
  simp only [lseek, h]
  rw [if_neg (by omega), Int.toNat_natCast]

theorem lseek_cur {offset : ℤ} {pos pos' : ℕ} (h : (pos : ℤ) + offset = pos') (content : List Byte)
    (seeks : List ℤ) (message : String) :
    lseek ⟨content, pos, seeks⟩ offset .cur message = .ok ⟨content, pos', (pos' : ℤ) :: seeks⟩ := by
  have htarget : Fd.target ⟨content, pos, seeks⟩ offset .cur = pos' := h
  exact lseek_of_target htarget message

/-- The negated size of a seek, which is at most the size of the buffer. -/
theorem wrap_neg_small {k : ℕ} (h : k ≤ BUF_SIZE) : wrap (-1 * (k : ℤ)) = -(k : ℤ) := by
  have hsmall : BUF_SIZE = 4096 := rfl
  unfold wrap
  omega

theorem seekSizeOf_eq (cur : ℕ) : seekSizeOf cur = (min BUF_SIZE cur : ℕ) := by
  have hsmall : BUF_SIZE = 4096 := rfl
  unfold seekSizeOf
  split
  · omega
  · unfold wrap
    omega

/-- An iteration after which the scan goes on. -/
theorem scanLoop_next {content : List Byte} {pos c n k : ℕ} {seeks : List ℤ} (offset : ℤ)
    (hfit : pos + BUF_SIZE ≤ content.length) (hk : k ≤ BUF_SIZE)
    (hc : c + (newlinesBelow (window content pos) (BUF_SIZE - 1)).length ≤ n)
    (hseeks : SeeksIn content.length seeks) :
    ∃ seeks', SeeksIn content.length seeks' ∧ ∀ fuel,
      scanLoop (n + 1) content.length (fuel + 1) ⟨⟨content, pos, seeks⟩, c, offset, k⟩ =
        scanLoop (n + 1) content.length fuel
          ⟨⟨content, pos + BUF_SIZE - k - min BUF_SIZE (pos + BUF_SIZE - k), seeks'⟩,
            c + (newlinesBelow (window content pos) (BUF_SIZE - 1)).length, wrap (offset + k),
            (min BUF_SIZE (pos + BUF_SIZE - k) : ℕ)⟩ := by
  have hlen := length_window hfit
  set l := newlinesBelow (window content pos) (BUF_SIZE - 1) with hl
  have hcount := countLoop_eq (window content pos) (n + 1) (BUF_SIZE - 1) c offset (by omega)
  have hnone : l[n + 1 - c - 1]? = none := List.getElem?_eq_none (by omega)
  rw [← hl, hnone] at hcount
  have hread : Fd.readBytes ⟨content, pos, seeks⟩ = window content pos := rfl
  set cur := pos + BUF_SIZE - k with hcur
  have hfirst : ((pos + BUF_SIZE : ℕ) : ℤ) + -(k : ℤ) = cur := by omega
  have hsecond : (cur : ℤ) + -((min BUF_SIZE cur : ℕ) : ℤ) = (cur - min BUF_SIZE cur : ℕ) := by
    omega
  refine ⟨((cur - min BUF_SIZE cur : ℕ) : ℤ) :: (cur : ℤ) :: seeks, ?_, fun fuel => ?_⟩
  · intro t ht
    rcases List.mem_cons.1 ht with rfl | ht
    · omega
    · rcases List.mem_cons.1 ht with rfl | ht
      · omega
      · exact hseeks t ht
  · have hlt : c < n + 1 := by omega
    have hne : c + l.length ≠ n + 1 := by omega
    simp only [scanLoop, if_pos hlt, Fd.afterRead, hread, hcount, if_neg hne, hlen, lt_irrefl,
      if_false, wrap_neg_small hk, lseek_cur hfirst, Outcome.bind_ok, seekSizeOf_eq,
      wrap_neg_small (min_le_left BUF_SIZE cur), lseek_cur hsecond]

theorem scanLoop_mono {lineNum fileSize fuel : ℕ} {s r : Scan}
    (h : scanLoop lineNum fileSize fuel s = .ok r) (k : ℕ) :
    scanLoop lineNum fileSize (fuel + k) s = .ok r := by
  induction fuel generalizing s with
  | zero => cases h
  | succ fuel ih =>
      rw [Nat.add_right_comm]
      unfold scanLoop at h ⊢
      split
      · rename_i hlt
        rw [if_pos hlt] at h
        dsimp only at h ⊢
        split
        · rename_i hcount
          rwa [if_pos hcount] at h
        · rename_i hcount
          rw [if_neg hcount] at h
          split
          · rename_i hshort
            rwa [if_pos hshort] at h
          · rename_i hshort
            rw [if_neg hshort] at h
            obtain ⟨fd, hfd, h⟩ := Outcome.bind_eq_ok.1 h
            obtain ⟨fd', hfd', h⟩ := Outcome.bind_eq_ok.1 h
            rw [hfd, Outcome.bind_ok, hfd', Outcome.bind_ok]
            exact ih h
      · rename_i hlt
        rwa [if_neg hlt] at h

/-! ### The start of the scan -/

/-- The scan in front of its first block. -/
def startScan (content : List Byte) : Scan :=
  let start := content.length - min BUF_SIZE content.length
  ⟨⟨content, start, [(start : ℤ), (content.length : ℤ)]⟩, 0, 0, (min BUF_SIZE content.length : ℕ)⟩

theorem scanFile_eq (fuel n : ℕ) (content : List Byte) :
    scanFile fuel n content = scanLoop (n + 1) content.length fuel (startScan content) := by
  have hsize := wrap_neg_small (min_le_left BUF_SIZE content.length)
  have hend : Fd.target ⟨content, 0, []⟩ 0 .fromEnd = content.length := by simp [Fd.target]
  have hstart : Fd.target ⟨content, content.length, [(content.length : ℤ)]⟩
      (-((min BUF_SIZE content.length : ℕ) : ℤ)) .fromEnd =
        (content.length - min BUF_SIZE content.length : ℕ) := by
    simp only [Fd.target]
    omega
  simp only [scanFile, lseek_of_target hend, Outcome.bind_ok, seekSizeOf_eq, hsize,
    lseek_of_target hstart, startScan]

theorem scanFile_mono {fuel n : ℕ} {content : List Byte} {r : Scan}
    (h : scanFile fuel n content = .ok r) (k : ℕ) : scanFile (fuel + k) n content = .ok r := by
  rw [scanFile_eq] at h ⊢
  exact scanLoop_mono h k

theorem seeksIn_start (content : List Byte) :
    SeeksIn content.length (startScan content).fd.seeks := by
  intro t ht
  simp only [startScan, List.mem_cons, List.not_mem_nil, or_false] at ht
  omega

/-- How the scan ends: with this value of `offset`, and no seek outside of the file. -/
def EndsWith (n : ℕ) (content : List Byte) (offset : ℤ) : Prop :=
  ∃ fuel r, scanFile fuel n content = .ok r ∧ r.offset = offset ∧ r.fd.content = content ∧
    SeeksIn content.length r.fd.seeks

/-! ### The blocks before the end of the file -/

/-- The distances from the end of the file of the newlines that are seen in the last `k` blocks. -/
def windowDistances (content : List Byte) : ℕ → List ℕ
  | 0 => []
  | k + 1 => windowDistances content k ++
      (newlinesBelow (window content (content.length - (k + 1) * BUF_SIZE)) (BUF_SIZE - 1)).map
        fun i => k * BUF_SIZE + (BUF_SIZE - 1 - i)

theorem windowDistances_length_mono (content : List Byte) (k : ℕ) :
    (windowDistances content k).length ≤ (windowDistances content (k + 1)).length := by
  rw [windowDistances, List.length_append]
  omega

/-- **The scan passes over the last `k` blocks** when they do not hold enough newlines. -/
theorem scan_windows (content : List Byte) (n k : ℕ) (hk : k ≤ content.length / BUF_SIZE)
    (hc : (windowDistances content k).length ≤ n) :
    ∃ seeks, SeeksIn content.length seeks ∧ ∀ fuel, scanFile (fuel + k) n content =
      scanLoop (n + 1) content.length fuel
        ⟨⟨content, content.length - k * BUF_SIZE - min BUF_SIZE (content.length - k * BUF_SIZE),
            seeks⟩,
          (windowDistances content k).length, wrap (k * BUF_SIZE : ℕ),
          (min BUF_SIZE (content.length - k * BUF_SIZE) : ℕ)⟩ := by
  induction k with
  | zero =>
      refine ⟨_, seeksIn_start content, ?_⟩
      intro fuel
      rw [Nat.add_zero, scanFile_eq]
      simp only [startScan, Nat.zero_mul, Nat.sub_zero, windowDistances, List.length_nil]
      rfl
  | succ k ih =>
      have hfit := (Nat.le_div_iff_mul_le (by decide)).1 hk
      have hsucc : (k + 1) * BUF_SIZE = k * BUF_SIZE + BUF_SIZE := Nat.succ_mul k BUF_SIZE
      have hpos : content.length - k * BUF_SIZE - min BUF_SIZE (content.length - k * BUF_SIZE) =
          content.length - (k + 1) * BUF_SIZE := by omega
      have hmin : min BUF_SIZE (content.length - k * BUF_SIZE) = BUF_SIZE := by omega
      obtain ⟨seeks, hseeks, hrun⟩ := ih (by omega)
        ((windowDistances_length_mono content k).trans hc)
      rw [hpos, hmin] at hrun
      rw [windowDistances, List.length_append, List.length_map] at hc ⊢
      obtain ⟨seeks', hseeks', hnext⟩ := scanLoop_next (wrap (k * BUF_SIZE : ℕ))
        (by omega : content.length - (k + 1) * BUF_SIZE + BUF_SIZE ≤ content.length)
          le_rfl hc hseeks
      refine ⟨seeks', hseeks', ?_⟩
      intro fuel
      have hcur : content.length - (k + 1) * BUF_SIZE + BUF_SIZE - BUF_SIZE =
          content.length - (k + 1) * BUF_SIZE := by omega
      have hoffset : wrap (wrap (k * BUF_SIZE : ℕ) + (BUF_SIZE : ℕ)) =
          wrap ((k + 1) * BUF_SIZE : ℕ) := by
        rw [wrap_wrap_add, hsucc, Int.natCast_add]
      rw [← Nat.add_assoc, Nat.add_right_comm, hrun, hnext, hcur, hoffset]

/-- What `offset` is when the last newline has been found at index `i`. -/
theorem wrap_found (base : ℕ) {i : ℕ} (hi : i ≤ BUF_SIZE - 1) :
    wrap (wrap base + (BUF_SIZE - 1 - i)) = wrap (base + (BUF_SIZE - 1 - i) : ℕ) := by
  have hpos : 0 < BUF_SIZE := by decide
  rw [wrap_wrap_add]
  unfold wrap
  omega

/-- The last newline is found in one of the last `k` blocks. -/
theorem endsWith_windows {content : List Byte} {n k d : ℕ} (hk : k ≤ content.length / BUF_SIZE)
    (hd : (windowDistances content k)[n]? = some d) : EndsWith n content (wrap d) := by
  induction k with
  | zero => cases hd
  | succ k ih =>
      have hfit := (Nat.le_div_iff_mul_le (by decide)).1 hk
      have hsucc : (k + 1) * BUF_SIZE = k * BUF_SIZE + BUF_SIZE := Nat.succ_mul k BUF_SIZE
      by_cases hc : n < (windowDistances content k).length
      · rw [windowDistances, List.getElem?_append_left hc] at hd
        exact ih (by omega) hd
      · rw [not_lt] at hc
        rw [windowDistances, List.getElem?_append_right hc, List.getElem?_map,
          Option.map_eq_some_iff] at hd
        obtain ⟨i, hi, rfl⟩ := hd
        obtain ⟨seeks, hseeks, hrun⟩ := scan_windows content n k (by omega) hc
        have hpos : content.length - k * BUF_SIZE -
            min BUF_SIZE (content.length - k * BUF_SIZE) =
              content.length - (k + 1) * BUF_SIZE := by omega
        rw [hpos] at hrun
        have hfound := scanLoop_found seeks (wrap (k * BUF_SIZE : ℕ))
          (min BUF_SIZE (content.length - k * BUF_SIZE) : ℕ) hc
          (by omega : content.length - (k + 1) * BUF_SIZE + BUF_SIZE ≤ content.length) hi 0
        have hle := (mem_newlinesBelow.1 (List.mem_of_getElem? hi)).2.1
        exact ⟨0 + 1 + k, _, (hrun (0 + 1)).trans hfound, wrap_found _ hle, rfl, hseeks⟩

/-! ### The start of the file -/

/-- The part of the first block by which `offset` grows in the `j`-th pass over it. -/
def headSize (size j : ℕ) : ℕ :=
  if j % 2 = 0 then size % BUF_SIZE else BUF_SIZE - size % BUF_SIZE

/-- What `offset` is before the `j`-th pass over the first block. -/
def headBase (size j : ℕ) : ℕ :=
  size / BUF_SIZE * BUF_SIZE + j / 2 * BUF_SIZE + j % 2 * (size % BUF_SIZE)

theorem headBase_succ (size j : ℕ) : headBase size (j + 1) = headBase size j + headSize size j := by
  have hlt : size % BUF_SIZE < BUF_SIZE := Nat.mod_lt _ (by decide)
  unfold headBase headSize
  rcases Nat.mod_two_eq_zero_or_one j with h | h
  · have h1 : (j + 1) % 2 = 1 := by omega
    have h2 : (j + 1) / 2 = j / 2 := by omega
    rw [h1, h2, h, if_pos rfl]
    omega
  · have h1 : (j + 1) % 2 = 0 := by omega
    have h2 : (j + 1) / 2 = j / 2 + 1 := by omega
    rw [h1, h2, h, if_neg (by decide), Nat.succ_mul]
    omega

theorem headSize_succ (size j : ℕ) :
    min BUF_SIZE (0 + BUF_SIZE - headSize size j) = headSize size (j + 1) := by
  have hlt : size % BUF_SIZE < BUF_SIZE := Nat.mod_lt _ (by decide)
  unfold headSize
  rcases Nat.mod_two_eq_zero_or_one j with h | h
  · rw [if_pos h, if_neg (by omega)]
    omega
  · rw [if_neg (by omega), if_pos (by omega)]
    omega

/-- The newlines seen in the first block. -/
def headNewlines (content : List Byte) : List ℕ :=
  newlinesBelow (window content 0) (BUF_SIZE - 1)

/-- The number of newlines seen in the blocks before the end. -/
def windowCount (content : List Byte) : ℕ :=
  (windowDistances content (content.length / BUF_SIZE)).length

/-- **The scan reads the first block over and over** when there are not enough newlines before. -/
theorem scan_heads {content : List Byte} (hsize : BUF_SIZE ≤ content.length) (n j : ℕ)
    (hc : windowCount content + j * (headNewlines content).length ≤ n) :
    ∃ seeks, SeeksIn content.length seeks ∧ ∀ fuel,
      scanFile (fuel + (content.length / BUF_SIZE + j)) n content =
        scanLoop (n + 1) content.length fuel
          ⟨⟨content, 0, seeks⟩, windowCount content + j * (headNewlines content).length,
            wrap (headBase content.length j : ℕ), (headSize content.length j : ℕ)⟩ := by
  have hlt : content.length % BUF_SIZE < BUF_SIZE := Nat.mod_lt _ (by decide)
  induction j with
  | zero =>
      obtain ⟨seeks, hseeks, hrun⟩ :=
        scan_windows content n (content.length / BUF_SIZE) le_rfl ((Nat.le_add_right _ _).trans hc)
      have hdiv := Nat.div_add_mod' content.length BUF_SIZE
      have hmin : min BUF_SIZE (content.length - content.length / BUF_SIZE * BUF_SIZE) =
          content.length % BUF_SIZE := by omega
      have hpos : content.length - content.length / BUF_SIZE * BUF_SIZE -
          content.length % BUF_SIZE = 0 := by omega
      rw [hmin, hpos] at hrun
      refine ⟨seeks, hseeks, ?_⟩
      intro fuel
      rw [Nat.add_zero, hrun]
      simp only [windowCount, headBase, headSize, Nat.zero_mul, Nat.zero_div, Nat.zero_mod,
        Nat.add_zero, if_true]
  | succ j ih =>
      have hsucc : windowCount content + (j + 1) * (headNewlines content).length =
          windowCount content + j * (headNewlines content).length +
            (headNewlines content).length := by
        rw [Nat.succ_mul, Nat.add_assoc]
      have hle : headSize content.length j ≤ BUF_SIZE := by
        unfold headSize
        split <;> omega
      obtain ⟨seeks, hseeks, hrun⟩ := ih (by omega)
      rw [hsucc] at hc ⊢
      obtain ⟨seeks', hseeks', hnext⟩ := scanLoop_next (wrap (headBase content.length j : ℕ))
        (by omega : 0 + BUF_SIZE ≤ content.length) hle hc hseeks
      refine ⟨seeks', hseeks', ?_⟩
      intro fuel
      have hpos : 0 + BUF_SIZE - headSize content.length j -
          headSize content.length (j + 1) = 0 := by
        have h := headSize_succ content.length j
        omega
      have hfuel : fuel + (content.length / BUF_SIZE + (j + 1)) =
          fuel + 1 + (content.length / BUF_SIZE + j) := by omega
      rw [hfuel, hrun, hnext, headSize_succ, hpos, wrap_wrap_add, headBase_succ, Int.natCast_add]
      rfl

/-! ### Where the scan stops -/

/-- **The distance from the end of the file at which the scan takes itself to be** when it has seen
`n + 1` newlines; there is none when the first block holds no newline and the blocks before the end
do not hold enough of them. -/
def stopDistance (n : ℕ) (content : List Byte) : Option ℕ :=
  if n < windowCount content then
    (windowDistances content (content.length / BUF_SIZE))[n]?
  else
    let d := n - windowCount content
    let z := (headNewlines content).length
    (headNewlines content)[d % z]?.map fun i =>
      headBase content.length (d / z) + (BUF_SIZE - 1 - i)

/-- **The scan of a file of at least one block** stops with the distance in `offset`. -/
theorem scan_stops {content : List Byte} (hsize : BUF_SIZE ≤ content.length) {n d : ℕ}
    (hd : stopDistance n content = some d) : EndsWith n content (wrap d) := by
  unfold stopDistance at hd
  split at hd
  · exact endsWith_windows le_rfl hd
  · rename_i hn
    rw [not_lt] at hn
    rw [Option.map_eq_some_iff] at hd
    obtain ⟨i, hi, rfl⟩ := hd
    set j := (n - windowCount content) / (headNewlines content).length with hj
    have hdiv := Nat.div_add_mod' (n - windowCount content) (headNewlines content).length
    rw [← hj] at hdiv
    obtain ⟨seeks, hseeks, hrun⟩ := scan_heads hsize n j (by omega)
    have hidx : n - (windowCount content + j * (headNewlines content).length) =
        (n - windowCount content) % (headNewlines content).length := by omega
    have hfound := scanLoop_found seeks (wrap (headBase content.length j : ℕ))
      (headSize content.length j : ℕ)
      (by omega : windowCount content + j * (headNewlines content).length ≤ n)
      (by omega : 0 + BUF_SIZE ≤ content.length) (by rw [hidx]; exact hi) 0
    have hle := (mem_newlinesBelow.1 (List.mem_of_getElem? hi)).2.1
    exact ⟨_, _, (hrun (0 + 1)).trans hfound, wrap_found _ hle, rfl, hseeks⟩

/-- **The scan never stops** when there is no such distance. -/
theorem scan_never_stops {content : List Byte} (hsize : BUF_SIZE ≤ content.length) {n : ℕ}
    (hd : stopDistance n content = none) (fuel : ℕ) (r : Scan) :
    scanFile fuel n content ≠ .ok r := by
  intro h
  have hhead : windowCount content ≤ n ∧ (headNewlines content).length = 0 := by
    unfold stopDistance at hd
    split at hd
    · rename_i hn
      rw [List.getElem?_eq_none_iff] at hd
      unfold windowCount at hn
      omega
    · rename_i hn
      rw [Option.map_eq_none_iff, List.getElem?_eq_none_iff] at hd
      refine ⟨not_lt.1 hn, Nat.eq_zero_of_not_pos fun hpos => ?_⟩
      exact absurd hd (not_le.2 (Nat.mod_lt _ hpos))
  obtain ⟨seeks, -, hrun⟩ := scan_heads hsize n fuel (by rw [hhead.2]; omega)
  have hmore := scanFile_mono h (content.length / BUF_SIZE)
  rw [Nat.add_comm fuel, ← Nat.zero_add (_ + fuel), hrun 0] at hmore
  cases hmore

/-- **The scan of a file shorter than a block**: one pass, and the whole file when that does not see
enough newlines. -/
theorem scan_short {content : List Byte} (hsize : content.length < BUF_SIZE) (n : ℕ) :
    EndsWith n content
      (match (newlinesBelow content (content.length - 1))[n]? with
        | some i => ((content.length - 1 - i : ℕ) : ℤ)
        | none => content.length) := by
  have hsmall : BUF_SIZE = 4096 := rfl
  have hmin : content.length - min BUF_SIZE content.length = 0 := by omega
  have hread : Fd.readBytes (startScan content).fd = content := by
    simp only [Fd.readBytes, startScan, hmin, List.drop_zero]
    exact List.take_of_length_le hsize.le
  have hcount := countLoop_eq content (n + 1) (content.length - 1) 0 0 (Nat.succ_pos n)
  rw [Nat.sub_zero, Nat.add_sub_cancel] at hcount
  have hstart : (startScan content).lineCount = 0 ∧ (startScan content).offset = 0 := ⟨rfl, rfl⟩
  cases hi : (newlinesBelow content (content.length - 1))[n]? with
  | some i =>
      have hle := (mem_newlinesBelow.1 (List.mem_of_getElem? hi)).2.1
      rw [hi] at hcount
      refine ⟨1,
        ⟨(startScan content).fd.afterRead, n + 1, wrap (wrap (0 + (content.length - i)) - 1),
        (startScan content).seekSize⟩, ?_, ?_, rfl, seeksIn_start content⟩
      · rw [scanFile_eq]
        simp only [scanLoop, hstart, Nat.succ_pos, if_true, hread, hcount, Outcome.pure_eq]
      · have hi' := (mem_newlinesBelow.1 (List.mem_of_getElem? hi)).1
        unfold wrap
        dsimp only
        omega
  | none =>
      have hle := List.getElem?_eq_none_iff.1 hi
      rw [hi] at hcount
      refine ⟨1, ⟨(startScan content).fd.afterRead,
        0 + (newlinesBelow content (content.length - 1)).length, wrap content.length,
        (startScan content).seekSize⟩, ?_, ?_, rfl, seeksIn_start content⟩
      · have hne : 0 + (newlinesBelow content (content.length - 1)).length ≠ n + 1 := by omega
        rw [scanFile_eq]
        simp only [scanLoop, hstart, Nat.succ_pos, if_true, hread, hcount, if_neg hne, hsize,
          Outcome.pure_eq]
      · exact wrap_of_nonneg (by omega) (by unfold intMax; omega)

end Tail
