/-
**The dictionary behind a socket (`HW11`).**

A table of fixed-length records, sorted by word, is searched by bisection (`lookup5.c`).  Three
servers put that search behind a socket, and three clients ask them: over a Unix stream socket
(`usock_server.c`, `lookup7.c`), an internet stream socket (`isock_server.c`, `lookup8.c`) and by
datagrams (`udp_server.c`, `lookup9.c`).  Query and answer are whole records in all three, and a
word that is not in the table is answered with the text `XXXX`.

What is received overwrites the start of the record it is received into, and the rest stays as it
was.  No call fails here; what a local record contains at first is an argument.  A `send` sends its
whole record.

Main definitions:

* `Remote.search`, `Remote.lookup5` — the bisection of the table;
* `Remote.receive` — a record after the bytes of a `recv` have been stored in it;
* `Remote.respond` — what every server does with a request;
* `Remote.usockServer`, `Remote.isockServer` — the dialogues of the stream servers;
* `Remote.lookup7`, `Remote.lookup8`, `Remote.lookup9` — the clients, each against its server.

Main results:

* `Remote.search_ok` — the bisection stays inside the table, and what it finds has the word sought;
* `Remote.respond_of_query` — **the answer to a query** is the query with a text.
-/

import NetSysProg.DictModel

set_option relaxedAutoImplicit false
set_option autoImplicit false

namespace Remote

open CString
open Dict (Dictrec WORD TEXT Status)

/-! ### Records -/

/-- The bytes of a record. -/
def bytes (r : Dictrec) : List Byte := r.word ++ r.text

/-- The record with these bytes. -/
def ofBytes (bs : List Byte) : Dictrec := ⟨bs.take WORD, (bs.drop WORD).take TEXT⟩

/-- `sizeof(Dictrec)` -/
def recSize : ℕ := WORD + TEXT

/-- The record `r` after a `recv` into it that has returned the bytes `chunk`. -/
def receive (r : Dictrec) (chunk : List Byte) : Dictrec :=
  ofBytes (chunk ++ (bytes r).drop chunk.length)

/-- A record with a word in it. -/
structure IsQuery (r : Dictrec) : Prop where
  word_length : r.word.length = WORD
  text_length : r.text.length = TEXT
  word : ∃ w, str r.word = .ok w

/-- A record with a word and a text in it. -/
structure IsEntry (r : Dictrec) : Prop extends IsQuery r where
  text : ∃ t, str r.text = .ok t

theorem IsQuery.bytes_length {r : Dictrec} (h : IsQuery r) : (bytes r).length = recSize := by
  rw [bytes, List.length_append, h.word_length, h.text_length, recSize]

/-- The bytes of a whole record overwrite everything. -/
theorem receive_bytes {q : Dictrec} (h : IsQuery q) (r : Dictrec) : receive r (bytes q) = q := by
  have hword : (bytes q ++ (bytes r).drop (bytes q).length).take WORD = q.word := by
    rw [bytes, List.append_assoc, ← h.word_length, List.take_left]
  have htext : ((bytes q ++ (bytes r).drop (bytes q).length).drop WORD).take TEXT = q.text := by
    rw [bytes, List.append_assoc, ← h.word_length, List.drop_left, ← h.text_length, List.take_left]
  rw [receive, ofBytes, hword, htext]

/-! ### `lookup5.c` -/

/-- `dict_cmp` -/
def dictCmp (a : List Byte) (b : Dictrec) : Outcome ℤ := strcmp a b.word

/-- The search loop between `start` and `end`, with at most so many iterations left of the hundred
that `cnt` allows. -/
def search (table : List Dictrec) (sought : Dictrec) : ℕ → ℕ → ℕ → Outcome (Option Dictrec)
  | 0, _, _ => .ok none
  | left + 1, start, stop =>
      if start = stop then .ok none
      else do
        let mid := (stop - start) / 2 + start
        let r ← Outcome.deref table[mid]?
        let result ← dictCmp r.word sought
        if result = 0 then return some r
        else if result < 0 then search table sought left mid stop
        else search table sought left start mid

/-- The record that the search of the table finds. -/
def found (table : List Dictrec) (sought : Dictrec) : Outcome (Option Dictrec) :=
  search table sought 100 0 table.length

/-- `lookup`, once the file is mapped. -/
def lookup5 (table : List Dictrec) (sought : Dictrec) : Outcome (Status × Dictrec) := do
  match ← found table sought with
  | some r => do
      let text ← strcpy sought.text r.text
      return (.found, { sought with text := text })
  | none => return (.notFound, sought)

/-! ### The servers -/

/-- `"XXXX"` -/
def xxxx : List Byte := [88, 88, 88, 88]

/-- The `switch` over the result of `lookup`: the record that is sent back. -/
def respond (table : List Dictrec) (tryit : Dictrec) : Outcome Dictrec := do
  let (status, tryit) ← lookup5 table tryit
  match status with
  | .found => return tryit
  | .notFound => do
      let text ← strcpy tryit.text (xxxx ++ [nul])
      return { tryit with text := text }

/-- The dialogue of a stream server with one client: the records it sends.  Each `recv` returns one
of the chunks, and `0` after the last. -/
def dialogue (table : List Dictrec) : Dictrec → List (List Byte) → Outcome (List Dictrec)
  | _, [] => .ok []
  | tryit, chunk :: chunks => do
      let tryit ← respond table (receive tryit chunk)
      let sent ← dialogue table tryit chunks
      return tryit :: sent

/-- The child of `usock_server` that talks to a client. -/
def usockServer (table : List Dictrec) (tryit : Dictrec) (chunks : List (List Byte)) :
    Outcome (List Dictrec) := dialogue table tryit chunks

/-- The child of `isock_server` that talks to a client. -/
def isockServer (table : List Dictrec) (tryit : Dictrec) (chunks : List (List Byte)) :
    Outcome (List Dictrec) := dialogue table tryit chunks

/-- What `udp_server` sends back for a datagram that it receives into `dr`. -/
def udpServer (table : List Dictrec) (dr : Dictrec) (datagram : List Byte) : Outcome Dictrec :=
  respond table (receive dr datagram)

/-! ### The clients -/

/-- What a client makes of the record it has received. -/
def decode (sought : Dictrec) : Outcome (Status × Dictrec) := do
  let result ← strcmp sought.text (xxxx ++ [nul])
  return (if result ≠ 0 then .found else .notFound, sought)

/-- A lookup over a stream, when query and answer arrive whole: the query is all the server
receives, and the first record it sends is what the client receives. -/
def ask (server : List (List Byte) → Outcome (List Dictrec)) (sought : Dictrec) :
    Outcome (Status × Dictrec) := do
  let sent ← server [bytes sought]
  let answer ← Outcome.deref sent.head?
  decode (receive sought (bytes answer))

/-- `lookup` of `lookup7.c` against `usock_server`. -/
def lookup7 (table : List Dictrec) (tryit sought : Dictrec) : Outcome (Status × Dictrec) :=
  ask (usockServer table tryit) sought

/-- `lookup` of `lookup8.c` against `isock_server`. -/
def lookup8 (table : List Dictrec) (tryit sought : Dictrec) : Outcome (Status × Dictrec) :=
  ask (isockServer table tryit) sought

/-- `lookup` of `lookup9.c` against `udp_server`. -/
def lookup9 (table : List Dictrec) (dr sought : Dictrec) : Outcome (Status × Dictrec) := do
  let answer ← udpServer table dr (bytes sought)
  decode (receive sought (bytes answer))

/-! ### The search -/

/-- The table holds records with words and texts. -/
def IsTable (table : List Dictrec) : Prop := ∀ r ∈ table, IsEntry r

/-- **The search stays inside the table**, and a record it finds has the word that is sought. -/
theorem search_ok {table : List Dictrec} (htable : IsTable table) {sought : Dictrec} {w : List Byte}
    (hw : str sought.word = .ok w) (left : ℕ) {start stop : ℕ} (hle : start ≤ stop)
    (hstop : stop ≤ table.length) :
    ∃ res, search table sought left start stop = .ok res ∧
      ∀ r ∈ res, r ∈ table ∧ str r.word = .ok w := by
  induction left generalizing start stop with
  | zero => exact ⟨none, rfl, by simp⟩
  | succ left ih =>
      rw [search]
      split
      · exact ⟨none, rfl, by simp⟩
      · next hne =>
          have hmid : (stop - start) / 2 + start < stop := by omega
          obtain ⟨r, hr⟩ : ∃ r, table[(stop - start) / 2 + start]? = some r :=
            ⟨_, List.getElem?_eq_getElem (by omega)⟩
          have hmem : r ∈ table := List.mem_of_getElem? hr
          obtain ⟨v, hv⟩ := (htable r hmem).word
          have hcmp : dictCmp r.word sought = .ok (cmp v w) := by
            rw [dictCmp, strcmp, hv, Outcome.bind_ok, hw, Outcome.bind_ok, Outcome.pure_eq]
          simp only [hr, Outcome.deref_some, Outcome.bind_ok, hcmp]
          split
          · next hzero =>
              refine ⟨some r, rfl, ?_⟩
              rintro r' ⟨⟩
              have heq := (cmp_eq_zero (nul_notMem_of_str hv) (nul_notMem_of_str hw)).1 hzero
              exact ⟨hmem, heq ▸ hv⟩
          · split
            · exact ih (by omega) hstop
            · exact ih (by omega) (by omega)

/-- The search looks at the word of the query only. -/
theorem search_congr (table : List Dictrec) {q q' : Dictrec} (h : str q.word = str q'.word)
    (left start stop : ℕ) : search table q left start stop = search table q' left start stop := by
  have hcmp : ∀ a, dictCmp a q = dictCmp a q' := by
    intro a
    simp only [dictCmp, strcmp, h]
  induction left generalizing start stop with
  | zero => rfl
  | succ left ih => simp only [search, hcmp, ih]

theorem found_ok {table : List Dictrec} (htable : IsTable table) {q : Dictrec} (hq : IsQuery q) :
    ∃ res, found table q = .ok res ∧ ∀ r ∈ res, r ∈ table ∧ str r.word = str q.word := by
  obtain ⟨w, hw⟩ := hq.word
  rw [hw]
  exact search_ok htable hw 100 (Nat.zero_le _) le_rfl

/-! ### Answers -/

/-- The text of the answer to a query: that of the record found, or `XXXX`. -/
def answerText (table : List Dictrec) (q : Dictrec) : Outcome (List Byte) := do
  match ← found table q with
  | some r => str r.text
  | none => return xxxx

/-- The record `q` with the string `t` copied to its text. -/
def withText (q : Dictrec) (t : List Byte) : Dictrec :=
  { q with text := t ++ nul :: q.text.drop (t.length + 1) }

theorem str_withText {q : Dictrec} {t : List Byte} (h : nul ∉ t) :
    str (withText q t).text = .ok t := str_append h _

theorem IsQuery.withText {q : Dictrec} (h : IsQuery q) {t : List Byte} (ht : t.length < TEXT) :
    IsQuery (withText q t) := by
  refine ⟨h.word_length, ?_, h.word⟩
  rw [← h.text_length] at ht ⊢
  exact length_strcpy ht

theorem nul_notMem_xxxx : nul ∉ xxxx := by decide

/-- What is copied to the text of a query by a server or by a local lookup. -/
theorem strcpy_text {q : Dictrec} (hq : IsQuery q) {src t : List Byte} (hsrc : src.length ≤ TEXT)
    (ht : str src = .ok t) :
    strcpy q.text src = .ok (withText q t).text ∧ t.length < TEXT := by
  have hlen := length_lt_of_str ht
  exact ⟨strcpy_of_str ht (by rw [hq.text_length]; omega), by omega⟩

/-- The local lookup, by what the search finds. -/
theorem lookup5_of_found {table : List Dictrec} (htable : IsTable table) {q r : Dictrec}
    (hq : IsQuery q) (hr : found table q = .ok (some r)) :
    ∃ t, str r.text = .ok t ∧ t.length < TEXT ∧ lookup5 table q = .ok (.found, withText q t) := by
  obtain ⟨res, hres, hmem⟩ := found_ok htable hq
  obtain rfl : res = some r := by
    rw [hr] at hres
    exact (Outcome.ok.inj hres).symm
  have hentry := htable r (hmem r rfl).1
  obtain ⟨t, ht⟩ := hentry.text
  obtain ⟨hcopy, hlt⟩ := strcpy_text hq hentry.text_length.le ht
  refine ⟨t, ht, hlt, ?_⟩
  simp only [lookup5, hr, hcopy, Outcome.bind_ok, Outcome.pure_eq, withText]

theorem lookup5_of_not_found {table : List Dictrec} {q : Dictrec} (hr : found table q = .ok none) :
    lookup5 table q = .ok (.notFound, q) := by
  simp only [lookup5, hr, Outcome.bind_ok, Outcome.pure_eq]

/-- **The answer to a query** is the query with the text of the answer. -/
theorem respond_of_query {table : List Dictrec} (htable : IsTable table) {q : Dictrec}
    (hq : IsQuery q) :
    ∃ t, answerText table q = .ok t ∧ nul ∉ t ∧ t.length < TEXT ∧
      respond table q = .ok (withText q t) := by
  obtain ⟨res, hres, -⟩ := found_ok htable hq
  cases res with
  | none =>
      have hx : str (xxxx ++ [nul]) = .ok xxxx := str_append nul_notMem_xxxx []
      obtain ⟨hcopy, hlt⟩ := strcpy_text hq (by decide) hx
      refine ⟨xxxx, ?_, nul_notMem_xxxx, hlt, ?_⟩
      · simp only [answerText, hres, Outcome.bind_ok, Outcome.pure_eq]
      · simp only [respond, lookup5_of_not_found hres, Outcome.bind_ok, hcopy, Outcome.pure_eq,
          withText]
  | some r =>
      obtain ⟨t, ht, hlt, hlookup⟩ := lookup5_of_found htable hq hres
      refine ⟨t, ?_, nul_notMem_of_str ht, hlt, ?_⟩
      · simp only [answerText, hres, Outcome.bind_ok, ht]
      · simp only [respond, hlookup, Outcome.bind_ok, Outcome.pure_eq]

end Remote
