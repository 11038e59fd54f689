/-
**Stream servers and segmentation (`HW11`).**

A stream has no message boundaries, and a `recv` returns as many bytes as there are, up to the size
of a record.  The stream servers take what every `recv` returns for a request.  So they send as many
records as there were `recv`s, and that is one for each query only when every `recv` has returned a
whole record.

Main definitions:

* `Remote.IsCut` — how a stream of queries may arrive;
* `Remote.AnswersAll` — one reply for each query, the answer to it.

Main results:

* `Remote.length_dialogue` — a reply for every `recv`;
* `Remote.answersAll_iff` — **the stream servers answer every query exactly when every `recv`
  returns a whole record**.
-/

import NetSysProg.RemoteLookup

set_option relaxedAutoImplicit false
set_option autoImplicit false

namespace Remote

open CString
open Dict (Dictrec WORD TEXT Status)

/-! ### Segments -/

/-- The chunks are the results of the calls of `recv` on the stream of these queries. -/
structure IsCut (queries : List Dictrec) (chunks : List (List Byte)) : Prop where
  nonempty : ∀ c ∈ chunks, c ≠ []
  le_size : ∀ c ∈ chunks, c.length ≤ recSize
  flatten : chunks.flatten = queries.flatMap bytes

theorem length_flatten_le {α : Type*} {n : ℕ} {chunks : List (List α)}
    (hle : ∀ c ∈ chunks, c.length ≤ n) : chunks.flatten.length ≤ n * chunks.length := by
  induction chunks with
  | nil => simp
  | cons c chunks ih =>
      have hc := hle c (List.mem_cons_self ..)
      have hrest := ih fun d hd => hle d (List.mem_cons_of_mem _ hd)
      rw [List.flatten_cons, List.length_append, List.length_cons, Nat.mul_succ]
      omega

theorem length_flatMap_bytes {queries : List Dictrec} (hq : ∀ q ∈ queries, IsQuery q) :
    (queries.flatMap bytes).length = recSize * queries.length := by
  induction queries with
  | nil => rfl
  | cons q queries ih =>
      have hrest := ih fun q hq' => hq q (List.mem_cons_of_mem _ hq')
      rw [List.flatMap_cons, List.length_append, (hq q (List.mem_cons_self ..)).bytes_length, hrest,
        List.length_cons, Nat.mul_succ, Nat.add_comm]

/-- Segments of at most `n` elements that are as many as whole ones would be are whole. -/
theorem forall_length_eq {α : Type*} {n : ℕ} {chunks : List (List α)}
    (hle : ∀ c ∈ chunks, c.length ≤ n) (hsum : chunks.flatten.length = n * chunks.length) :
    ∀ c ∈ chunks, c.length = n := by
  induction chunks with
  | nil => simp
  | cons c chunks ih =>
      have hc := hle c (List.mem_cons_self ..)
      have hrest : ∀ d ∈ chunks, d.length ≤ n := fun d hd => hle d (List.mem_cons_of_mem _ hd)
      have hbound := length_flatten_le hrest
      rw [List.flatten_cons, List.length_append, List.length_cons, Nat.mul_succ] at hsum
      intro d hd
      rcases List.mem_cons.1 hd with rfl | hd
      · omega
      · exact ih hrest (by omega) d hd

/-- Whole segments of a stream of records are the records. -/
theorem eq_map_bytes {queries : List Dictrec} (hq : ∀ q ∈ queries, IsQuery q)
    {chunks : List (List Byte)} (hlen : ∀ c ∈ chunks, c.length = recSize)
    (hflat : chunks.flatten = queries.flatMap bytes) : chunks = queries.map bytes := by
  induction chunks generalizing queries with
  | nil =>
      cases queries with
      | nil => rfl
      | cons q queries =>
          have hpos := (hq q (List.mem_cons_self ..)).bytes_length
          have hnil := congrArg List.length hflat
          simp only [List.flatten_nil, List.length_nil, List.flatMap_cons,
            List.length_append] at hnil
          have : recSize = 512 := rfl
          omega
  | cons c chunks ih =>
      have hc := hlen c (List.mem_cons_self ..)
      cases queries with
      | nil =>
          have hnil := congrArg List.length hflat
          have : recSize = 512 := rfl
          simp only [List.flatten_cons, List.length_append, List.flatMap_nil,
            List.length_nil] at hnil
          omega
      | cons q queries =>
          have hqlen := (hq q (List.mem_cons_self ..)).bytes_length
          rw [List.flatten_cons, List.flatMap_cons] at hflat
          obtain ⟨rfl, hrest⟩ := List.append_inj hflat (hc.trans hqlen.symm)
          rw [List.map_cons, ih (fun q hq' => hq q (List.mem_cons_of_mem _ hq'))
            (fun d hd => hlen d (List.mem_cons_of_mem _ hd)) hrest]

/-! ### Dialogues -/

/-- **Every `recv` is answered**, whatever it has returned. -/
theorem length_dialogue {table : List Dictrec} {tryit : Dictrec} {chunks : List (List Byte)}
    {sent : List Dictrec} (h : dialogue table tryit chunks = .ok sent) :
    sent.length = chunks.length := by
  induction chunks generalizing tryit sent with
  | nil =>
      cases h
      rfl
  | cons c chunks ih =>
      obtain ⟨r, -, h⟩ := Outcome.bind_eq_ok.1 h
      obtain ⟨rest, hrest, h⟩ := Outcome.bind_eq_ok.1 h
      cases h
      rw [List.length_cons, List.length_cons, ih hrest]

/-- The answers to the queries. -/
def answers (table : List Dictrec) : List Dictrec → Outcome (List Dictrec)
  | [] => .ok []
  | q :: queries => do
      let r ← respond table q
      let rest ← answers table queries
      return r :: rest

/-- The queries have answers, and the server sends these, one for each query and in order. -/
def AnswersAll (table : List Dictrec) (server : List (List Byte) → Outcome (List Dictrec))
    (queries : List Dictrec) (chunks : List (List Byte)) : Prop :=
  ∃ replies, answers table queries = .ok replies ∧ replies.length = queries.length ∧
    server chunks = .ok replies

theorem exists_answers {table : List Dictrec} (htable : IsTable table) {queries : List Dictrec}
    (hq : ∀ q ∈ queries, IsQuery q) :
    ∃ replies, answers table queries = .ok replies ∧ replies.length = queries.length := by
  induction queries with
  | nil => exact ⟨[], rfl, rfl⟩
  | cons q queries ih =>
      obtain ⟨t, -, -, -, hrespond⟩ := respond_of_query htable (hq q (List.mem_cons_self ..))
      obtain ⟨rest, hrest, hlen⟩ := ih fun q hq' => hq q (List.mem_cons_of_mem _ hq')
      refine ⟨withText q t :: rest, ?_, by rw [List.length_cons, List.length_cons, hlen]⟩
      simp only [answers, hrespond, hrest, Outcome.bind_ok, Outcome.pure_eq]

/-- Whole records are answered one by one, whatever the server's record contains. -/
theorem dialogue_map_bytes {table : List Dictrec} (tryit : Dictrec) {queries : List Dictrec}
    (hq : ∀ q ∈ queries, IsQuery q) :
    dialogue table tryit (queries.map bytes) = answers table queries := by
  induction queries generalizing tryit with
  | nil => rfl
  | cons q queries ih =>
      have hrest : ∀ r, dialogue table r (queries.map bytes) = answers table queries :=
        fun r => ih r fun q hq' => hq q (List.mem_cons_of_mem _ hq')
      simp only [List.map_cons, dialogue, receive_bytes (hq q (List.mem_cons_self ..)),
        hrest, answers]

theorem dialogue_answersAll_iff {table : List Dictrec} (htable : IsTable table) (tryit : Dictrec)
    {queries : List Dictrec} (hq : ∀ q ∈ queries, IsQuery q) {chunks : List (List Byte)}
    (hcut : IsCut queries chunks) :
    AnswersAll table (dialogue table tryit) queries chunks ↔ ∀ c ∈ chunks, c.length = recSize := by
  constructor
  · rintro ⟨replies, -, hlen, hsent⟩
    -- as many replies as `recv`s, and as many as queries
    have hcount : chunks.length = queries.length := by rw [← length_dialogue hsent, hlen]
    refine forall_length_eq hcut.le_size ?_
    rw [hcut.flatten, length_flatMap_bytes hq, hcount]
  · intro hlen
    obtain rfl := eq_map_bytes hq hlen hcut.flatten
    obtain ⟨replies, hreplies, hcount⟩ := exists_answers htable hq
    exact ⟨replies, hreplies, hcount, by rw [dialogue_map_bytes tryit hq, hreplies]⟩

/-- **The stream servers answer every query exactly when every `recv` returns a whole record.**
This is for every table, every sequence of queries on one connection, every way in which the stream
of their bytes is cut into results of `recv`, and whatever the server's record contains at first. -/
theorem answersAll_iff {table : List Dictrec} (htable : IsTable table) (tryit : Dictrec)
    {queries : List Dictrec} (hq : ∀ q ∈ queries, IsQuery q) {chunks : List (List Byte)}
    (hcut : IsCut queries chunks) :
    (AnswersAll table (usockServer table tryit) queries chunks ↔ ∀ c ∈ chunks, c.length = recSize) ∧
    (AnswersAll table (isockServer table tryit) queries chunks ↔
      ∀ c ∈ chunks, c.length = recSize) :=
  ⟨dialogue_answersAll_iff htable tryit hq hcut, dialogue_answersAll_iff htable tryit hq hcut⟩

/-! ### Queries that arrive whole, and one that does not -/

theorem length_of_mem_map_bytes {queries : List Dictrec} (hq : ∀ q ∈ queries, IsQuery q) :
    ∀ c ∈ queries.map bytes, c.length = recSize := by
  intro c hc
  obtain ⟨q, hmem, rfl⟩ := List.mem_map.1 hc
  exact (hq q hmem).bytes_length

theorem isCut_map_bytes {queries : List Dictrec} (hq : ∀ q ∈ queries, IsQuery q) :
    IsCut queries (queries.map bytes) where
  nonempty := by
    rintro c hc rfl
    exact absurd (length_of_mem_map_bytes hq [] hc) (by decide)
  le_size := fun c hc => (length_of_mem_map_bytes hq c hc).le
  flatten := by rw [List.flatMap_def]

/-- The queries for the word `b`, which is in the table, and for `d`, which is not. -/
theorem answersAll_iff_whole :
    AnswersAll (entries three) (usockServer (entries three) (entry [] []))
        [entry [98] [], entry [100] []] [bytes (entry [98] []), bytes (entry [100] [])] ∧
      AnswersAll (entries three) (isockServer (entries three) (entry [] []))
        [entry [98] [], entry [100] []] [bytes (entry [98] []), bytes (entry [100] [])] := by
  have hq : ∀ q ∈ [entry [98] [], entry [100] []], IsQuery q := by
    intro q hq
    rcases List.mem_pair.1 hq with rfl | rfl
    · exact isQuery_entry (by decide) (by decide)
    · exact isQuery_entry (by decide) (by decide)
  have hanswers := answersAll_iff (isTable_entries fits_three) (entry [] []) hq (isCut_map_bytes hq)
  exact ⟨hanswers.1.2 (length_of_mem_map_bytes hq), hanswers.2.2 (length_of_mem_map_bytes hq)⟩

/-- **A query that arrives in two halves gets two replies.** -/
theorem not_answersAll_halves :
    IsCut [entry wordA []] [(bytes (entry wordA [])).take 256, (bytes (entry wordA [])).drop 256] ∧
    ¬ AnswersAll [] (usockServer [] (entry [] [])) [entry wordA []]
      [(bytes (entry wordA [])).take 256, (bytes (entry wordA [])).drop 256] ∧
    ¬ AnswersAll [] (isockServer [] (entry [] [])) [entry wordA []]
      [(bytes (entry wordA [])).take 256, (bytes (entry wordA [])).drop 256] := by
  have hlen : (bytes (entry wordA [])).length = 512 := isQuery_wordA.bytes_length
  have htwo : ∀ server, server = dialogue [] (entry [] []) → ¬ AnswersAll [] server [entry wordA []]
      [(bytes (entry wordA [])).take 256, (bytes (entry wordA [])).drop 256] := by
    rintro server rfl ⟨replies, -, hone, hsent⟩
    rw [length_dialogue hsent] at hone
    exact absurd hone (by simp)
  refine ⟨⟨?_, ?_, by simp⟩, htwo _ rfl, htwo _ rfl⟩
  · rintro c hc rfl
    have hpos : (bytes (entry wordA [])).take 256 ≠ [] ∧
      (bytes (entry wordA [])).drop 256 ≠ [] := by
      constructor <;> (rw [← List.length_pos_iff]; simp [hlen])
    rcases List.mem_pair.1 hc with h | h
    · exact hpos.1 h.symm
    · exact hpos.2 h.symm
  · have hsize : recSize = 512 := rfl
    intro c hc
    rcases List.mem_pair.1 hc with rfl | rfl <;> simp [hlen, hsize]

end Remote
