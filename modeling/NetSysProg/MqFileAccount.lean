/-
**What the client of the file transfer counts (`HW9/52_3`).**

The client adds up the lengths of the strings at the start of the messages.  Such a string is the
chunk that was read exactly when the chunk contains no null byte and the byte behind it in the
server's buffer is one.  The second can fail only before the first `memset`, since nothing sets the
buffer to zero when the server starts; the first fails for every file with a null byte in it.

Main definitions:

* `MqFile.Carries` — the messages carry the bytes, each of them a chunk that is counted;
* `MqFile.Counted` — the call does not fail, and a chunk that it reads is counted;
* `MqFile.Accounted` — what the client has counted at the end.

Main results:

* `MqFile.strlen_fill_iff` — **when the string of a message is the chunk read into it**;
* `MqFile.accounted_of_counted` — **in every run whose chunks are all counted, every client counts
  the bytes of its file and the chunks that were read**;
* `MqFile.exists_miscounted_dirtyBuffer` — the first chunk after the start of the server is counted
  with whatever was in the buffer.
-/

import NetSysProg.MqFileModel

set_option relaxedAutoImplicit false
set_option autoImplicit false

namespace MqFile

open CString

/-! ### A chunk in the buffer -/

theorem Response.fill_data {r : Response} {bs : List Byte} (h : bs.length ≤ msgSize) :
    (r.fill bs).data = bs ++ r.data.drop bs.length := by
  have hlen := r.data_length
  refine List.take_of_length_le ?_
  simp only [List.length_append, List.length_drop]
  omega

/-- **The string of a message is the chunk that was read into it** exactly when the chunk contains
no null byte and the next byte of the buffer is one. -/
theorem strlen_fill_iff {r : Response} {bs : List Byte} (h : bs.length < msgSize) :
    strlen (r.fill bs).data = .ok bs.length ↔ nul ∉ bs ∧ r.data[bs.length]? = some nul := by
  have hlen : bs.length < r.data.length := by rw [r.data_length]; exact h
  have hdrop := List.drop_eq_getElem_cons hlen
  rw [Response.fill_data h.le, strlen]
  constructor
  · intro hstr
    obtain ⟨s, hs, hlen'⟩ := Outcome.bind_eq_ok.1 hstr
    have hlen' : s.length = bs.length := by simpa using hlen'
    obtain ⟨t, ht⟩ := exists_of_str hs
    obtain ⟨rfl, hbehind⟩ := List.append_inj ht hlen'.symm
    refine ⟨nul_notMem_of_str hs, ?_⟩
    rw [hdrop, List.cons.injEq] at hbehind
    rw [List.getElem?_eq_getElem hlen, hbehind.1]
  · rintro ⟨hmem, hbehind⟩
    rw [List.getElem?_eq_getElem hlen, Option.some.injEq] at hbehind
    rw [hdrop, hbehind, str_append hmem]
    rfl

/-! ### Messages that carry a file -/

/-- The chunks of the file that the messages carry. -/
def chunks (ms : List Msg) : List (List Byte) := ms.filterMap Msg.chunk

theorem chunks_append (xs ys : List Msg) : chunks (xs ++ ys) = chunks xs ++ chunks ys :=
  List.filterMap_append

/-- The message carries the chunk, and the string at its start is as long. -/
structure Msg.Exact (m : Msg) (chunk : List Byte) : Prop where
  chunk_eq : m.chunk = some chunk
  ne_nil : chunk ≠ []
  length_lt : chunk.length < msgSize
  strlen_eq : strlen m.res.data = .ok chunk.length

/-- The message is an end marker, and it looks like one. -/
structure Msg.IsMark (m : Msg) : Prop where
  chunk_eq : m.chunk = none
  head_eq : m.res.data.head? = some nul

/-- The messages carry `bs`, each of them a chunk that is counted. -/
def Carries (bs : List Byte) (ms : List Msg) : Prop :=
  (∀ m ∈ ms, ∃ chunk, m.Exact chunk) ∧ (chunks ms).flatten = bs

/-- The messages carry `bs`, and the end marker comes behind them. -/
def Whole (bs : List Byte) (ms : List Msg) : Prop :=
  ∃ ds m, ms = ds ++ [m] ∧ Carries bs ds ∧ m.IsMark

namespace Carries

theorem nil : Carries [] [] := ⟨by simp, rfl⟩

theorem append {bs bs' : List Byte} {xs ys : List Msg} (h : Carries bs xs) (h' : Carries bs' ys) :
    Carries (bs ++ bs') (xs ++ ys) := by
  refine ⟨fun m hm => ?_, by rw [chunks_append, List.flatten_append, h.2, h'.2]⟩
  rcases List.mem_append.1 hm with hm | hm
  · exact h.1 m hm
  · exact h'.1 m hm

theorem singleton {m : Msg} {chunk : List Byte} (h : m.Exact chunk) : Carries chunk [m] := by
  refine ⟨fun m' hm' => ⟨chunk, by rwa [List.mem_singleton.1 hm']⟩, ?_⟩
  simp [chunks, h.chunk_eq]

theorem concat {bs chunk : List Byte} {ms : List Msg} {m : Msg} (h : Carries bs ms)
    (hm : m.Exact chunk) : Carries (bs ++ chunk) (ms ++ [m]) :=
  h.append (singleton hm)

/-- Some first messages carry some first bytes. -/
theorem of_append {bs : List Byte} {xs ys : List Msg} (h : Carries bs (xs ++ ys)) :
    ∃ bs₁ bs₂, bs = bs₁ ++ bs₂ ∧ Carries bs₁ xs ∧ Carries bs₂ ys := by
  refine ⟨_, _, ?_, ⟨fun m hm => h.1 m (List.mem_append_left _ hm), rfl⟩,
    ⟨fun m hm => h.1 m (List.mem_append_right _ hm), rfl⟩⟩
  rw [← List.flatten_append, ← chunks_append, h.2]

theorem of_cons {bs : List Byte} {m : Msg} {ms : List Msg} (h : Carries bs (m :: ms)) :
    ∃ chunk bs', bs = chunk ++ bs' ∧ m.Exact chunk ∧ Carries bs' ms := by
  obtain ⟨chunk, hm⟩ := h.1 m List.mem_cons_self
  refine ⟨chunk, (chunks ms).flatten, ?_, hm, fun m' hm' => h.1 m' (List.mem_cons_of_mem m hm'),
    rfl⟩
  rw [← h.2]
  simp [chunks, hm.chunk_eq]

theorem unique {bs bs' : List Byte} {ms : List Msg} (h : Carries bs ms) (h' : Carries bs' ms) :
    bs = bs' := h.2.symm.trans h'.2

theorem length_chunks {bs : List Byte} {ms : List Msg} (h : Carries bs ms) :
    (chunks ms).length = ms.length := by
  induction ms generalizing bs with
  | nil => rfl
  | cons m ms ih =>
      obtain ⟨chunk, bs', -, hm, hms⟩ := h.of_cons
      have htail := ih hms
      simp only [chunks, List.filterMap_cons, hm.chunk_eq, List.length_cons] at htail ⊢
      omega

/-- No chunk is empty. -/
theorem length_le {bs : List Byte} {ms : List Msg} (h : Carries bs ms) : ms.length ≤ bs.length := by
  induction ms generalizing bs with
  | nil => exact Nat.zero_le _
  | cons m ms ih =>
      obtain ⟨chunk, bs', rfl, hm, hms⟩ := h.of_cons
      have htail := ih hms
      have hpos := List.length_pos_iff.2 hm.ne_nil
      simp only [List.length_cons, List.length_append]
      omega

theorem not_isMark {bs : List Byte} {ms : List Msg} {m : Msg} (h : Carries bs ms) (hm : m ∈ ms) :
    ¬ m.IsMark := by
  intro hmark
  obtain ⟨chunk, hexact⟩ := h.1 m hm
  exact absurd (hmark.chunk_eq.symm.trans hexact.chunk_eq) nofun

theorem not_whole {bs bs' : List Byte} {ms : List Msg} (h : Carries bs ms) : ¬ Whole bs' ms := by
  rintro ⟨ds, m, rfl, -, hm⟩
  exact h.not_isMark (by simp) hm

end Carries

/-! ### What the client makes of a message -/

theorem Msg.received_ne_send (m : Msg) (b n : ℤ) : m.received b n ≠ .send := by
  unfold Msg.received
  split
  · exact nofun
  · split <;> exact nofun

theorem Msg.IsMark.received {m : Msg} (h : m.IsMark) (byteNum msgNum : ℤ) :
    m.received byteNum msgNum = .done byteNum msgNum true := by
  rw [Msg.received, if_pos h.head_eq, h.chunk_eq]
  rfl

/-- A string that is not empty does not start with a null byte. -/
theorem Msg.Exact.head?_ne {m : Msg} {chunk : List Byte} (h : m.Exact chunk) :
    m.res.data.head? ≠ some nul := by
  intro hnul
  obtain ⟨t, ht⟩ := List.head?_eq_some_iff.1 hnul
  have hstr : strlen m.res.data = .ok 0 := by
    rw [ht, strlen]
    exact congrArg (· >>= _) (str_append List.not_mem_nil t)
  rw [h.strlen_eq] at hstr
  exact h.ne_nil (List.length_eq_zero_iff.1 (Outcome.ok.inj hstr))

/-- A message is counted with its chunk, as long as the counters do not overflow. -/
theorem Msg.Exact.received {m : Msg} {chunk : List Byte} (h : m.Exact chunk) {b n : ℕ}
    (hb : (b + chunk.length : ℕ) ≤ CInt.intMax) (hn : (n + 1 : ℕ) ≤ CInt.intMax) :
    m.received b n = .recv (b + chunk.length : ℕ) (n + 1 : ℕ) := by
  rw [Msg.received, if_neg h.head?_ne, h.strlen_eq]
  push_cast at hb hn ⊢
  simp only [CInt.wrap_of_nonneg (by omega) hb, CInt.wrap_of_nonneg (by omega) hn]

/-! ### The condition and the property -/

variable {ι : Type*} {file : ι → List Byte}

/-- What the call of the server at `pc` may not do: open a file that is too long for the counters,
and read a chunk that is not counted. -/
def ServerPc.Counted (file : ι → List Byte) (res : Response) (left : List Byte) :
    ServerPc ι → ℕ → Prop
  | .openFile c _, _ => ((file c).length : ℤ) ≤ CInt.intMax
  | .read _ _ _, k => 0 < k → nul ∉ left.take k ∧ res.data[k]? = some nul
  | _, _ => True

/-- **The condition on a step**: a call of the server does not fail, the file it opens has at most
`INT_MAX` bytes, and a chunk that it reads contains no null byte and is followed by one in the
buffer. -/
def Counted (file : ι → List Byte) (s : State ι) : Act ι → Prop
  | .server .fail => False
  | .server (.ok k) => s.server.Counted file s.res s.left k
  | .client _ => True

instance (file : ι → List Byte) (s : State ι) (a : Act ι) : Decidable (Counted file s a) :=
  match a with
  | .server .fail => inferInstanceAs (Decidable False)
  | .client _ => inferInstanceAs (Decidable True)
  | .server (.ok k) =>
      match hpc : s.server with
      | .openFile c _ => decidable_of_iff (((file c).length : ℤ) ≤ CInt.intMax) (by
          simp only [MqFile.Counted, hpc, ServerPc.Counted])
      | .read _ _ _ => decidable_of_iff
          (0 < k → nul ∉ s.left.take k ∧ s.res.data[k]? = some nul) (by
          simp only [MqFile.Counted, hpc, ServerPc.Counted])
      | .receive | .openQueue _ | .send _ _ _ _ | .clear _ _ _ | .close _ _ _ | .mark _ _
      | .sendMark _ _ | .closeQueue _ _ | .exited => decidable_of_iff True (by
          simp only [MqFile.Counted, hpc, ServerPc.Counted])

/-- **What the client has counted**: its loop ends on the end marker only, `receive_byte_num` is the
length of the file, and `receive_msg_num` is the number of the chunks of at most `MSG_SIZE - 1`
bytes that the server has read. -/
def Accounted (file : ι → List Byte) (s : State ι) (c : ι) : Prop :=
  match s.client c with
  | .done byteNum msgNum marker =>
      marker = true ∧ byteNum = (file c).length ∧ msgNum = (chunks (s.put c)).length ∧
        (chunks (s.put c)).flatten = file c ∧
          ∀ chunk ∈ chunks (s.put c), 0 < chunk.length ∧ chunk.length ≤ msgSize - 1
  | .fault => False
  | _ => True

/-! ### The server -/

/-- The file of the client can be counted by an `int`. -/
def Small (file : ι → List Byte) (c : ι) : Prop := ((file c).length : ℤ) ≤ CInt.intMax

/-- The client whose request the server has taken, up to the end marker. -/
def ServerPc.serves : ServerPc ι → Option ι
  | .openQueue c => some c
  | .openFile c _ => some c
  | .read c _ _ => some c
  | .send c _ _ _ => some c
  | .clear c _ _ => some c
  | .close c _ _ => some c
  | .mark c _ => some c
  | .sendMark c _ => some c
  | _ => none

/-- What the messages for the client that is served carry, at each call of the server. -/
def State.Sends (file : ι → List Byte) (s : State ι) : Prop :=
  match s.server with
  | .openQueue c => s.put c = []
  | .openFile c _ => s.put c = []
  | .read c _ _ => Small file c ∧ ∃ bs, Carries bs (s.put c) ∧ file c = bs ++ s.left
  | .send c _ _ chunk => Small file c ∧ Msg.Exact ⟨s.res, some chunk⟩ chunk ∧
      ∃ bs, Carries bs (s.put c) ∧ file c = bs ++ (chunk ++ s.left)
  | .clear c _ _ => Small file c ∧ ∃ bs, Carries bs (s.put c) ∧ file c = bs ++ s.left
  | .close c _ _ => Small file c ∧ Carries (file c) (s.put c)
  | .mark c _ => Small file c ∧ Carries (file c) (s.put c)
  | .sendMark c _ => Small file c ∧ Carries (file c) (s.put c) ∧ s.res.data.head? = some nul
  | _ => True

/-- What the server has put into the queue of `c` carries a part of its file, or all of it and the
marker. -/
def Streams (file : ι → List Byte) (s : State ι) (c : ι) : Prop :=
  s.put c = [] ∨ Small file c ∧
    ((∃ bs rest, Carries bs (s.put c) ∧ file c = bs ++ rest) ∨ Whole (file c) (s.put c))

/-- The clients whose requests are queued, behind the one that is served. -/
def State.owed (s : State ι) : List ι := s.server.serves.toList ++ s.requests

/-- What the server keeps in a run that meets the condition. -/
structure Serves (file : ι → List Byte) (s : State ι) : Prop where
  nodup : s.owed.Nodup
  sent : ∀ c ∈ s.owed, s.client c ≠ .send
  fresh : ∀ c, c ∈ s.requests ∨ s.client c = .send → s.put c = []
  sends : s.Sends file
  settled : ∀ c, s.server.serves ≠ some c → s.put c = [] ∨ Small file c ∧ Whole (file c) (s.put c)

namespace Serves

theorem init (res : Response) (fds : Finset ℕ) : Serves file (init res fds : State ι) where
  nodup := List.nodup_nil
  sent := fun _ hc => absurd hc List.not_mem_nil
  fresh := fun _ _ => rfl
  sends := trivial
  settled := fun _ _ => Or.inl rfl

theorem streams {s : State ι} (h : Serves file s) (c : ι) : Streams file s c := by
  by_cases hc : s.server.serves = some c
  · have hsends := h.sends
    unfold State.Sends at hsends
    cases hpc : s.server <;> simp only [hpc, ServerPc.serves, reduceCtorEq,
      Option.some.injEq] at hc hsends <;>
      subst hc
    case openQueue => exact Or.inl hsends
    case openFile => exact Or.inl hsends
    case read | clear =>
        obtain ⟨hsmall, bs, hbs, hfile⟩ := hsends
        exact Or.inr ⟨hsmall, Or.inl ⟨bs, _, hbs, hfile⟩⟩
    case send =>
        obtain ⟨hsmall, -, bs, hbs, hfile⟩ := hsends
        exact Or.inr ⟨hsmall, Or.inl ⟨bs, _, hbs, hfile⟩⟩
    case close | mark => exact Or.inr ⟨hsends.1, Or.inl ⟨_, [], hsends.2, (List.append_nil _).symm⟩⟩
    case sendMark => exact Or.inr ⟨hsends.1, Or.inl ⟨_, [], hsends.2.1, (List.append_nil _).symm⟩⟩
  · rcases h.settled c hc with hnil | ⟨hsmall, hwhole⟩
    · exact Or.inl hnil
    · exact Or.inr ⟨hsmall, Or.inr hwhole⟩

/-- A call of the server that goes on with the same client and sends nothing. -/
theorem goOn {s s' : State ι} (h : Serves file s) (hserves : s'.server.serves = s.server.serves)
    (hrequests : s'.requests = s.requests) (hput : s'.put = s.put) (hclient : s'.client = s.client)
    (hsends : s'.Sends file) : Serves file s' := by
  have howed : s'.owed = s.owed := by rw [State.owed, State.owed, hserves, hrequests]
  refine ⟨by rw [howed]; exact h.nodup, by rw [howed, hclient]; exact h.sent, ?_, hsends, ?_⟩
  · rw [hrequests, hclient, hput]
    exact h.fresh
  · rw [hserves, hput]
    exact h.settled

/-- Nobody whose request is queued or still to come is served. -/
theorem ne_of_fresh {s : State ι} (h : Serves file s) {c d : ι} (hc : s.server.serves = some c)
    (hd : d ∈ s.requests ∨ s.client d = .send) : d ≠ c := by
  rintro rfl
  have howed : s.owed = d :: s.requests := by rw [State.owed, hc]; rfl
  rcases hd with hd | hd
  · have hnodup := h.nodup
    rw [howed] at hnodup
    exact (List.nodup_cons.1 hnodup).1 hd
  · exact h.sent d (by rw [howed]; exact List.mem_cons_self) hd

variable [DecidableEq ι]

/-- A chunk is put into the queue. -/
theorem send {s : State ι} (h : Serves file s) {c : ι} {mq fd : ℕ} {chunk : List Byte}
    (hpc : s.server = .send c mq fd chunk) :
    Serves file (s.sent c ⟨s.res, some chunk⟩ (.clear c mq fd)) := by
  have hserves : s.server.serves = some c := by rw [hpc]; rfl
  have hsends := h.sends
  rw [State.Sends, hpc] at hsends
  obtain ⟨hsmall, hexact, bs, hbs, hfile⟩ := hsends
  have howed : (s.sent c ⟨s.res, some chunk⟩ (.clear c mq fd)).owed = s.owed := by
    rw [State.owed, State.owed, hserves]
    rfl
  refine ⟨by rw [howed]; exact h.nodup, by rw [howed]; exact h.sent, fun d hd => ?_, ?_,
    fun d hd => ?_⟩
  · have hne := h.ne_of_fresh hserves hd
    simpa only [State.sent, Function.update_of_ne hne] using h.fresh d hd
  · refine ⟨hsmall, bs ++ chunk, ?_, by rw [hfile, List.append_assoc]; rfl⟩
    simp only [State.sent, Function.update_self]
    exact hbs.concat hexact
  · have hne : d ≠ c := fun heq => hd (by rw [heq]; rfl)
    simp only [State.sent, Function.update_of_ne hne]
    exact h.settled d fun heq => hne (Option.some.inj (hserves.symm.trans heq)).symm

/-- The end marker is put into the queue. -/
theorem sendMark {s : State ι} (h : Serves file s) {c : ι} {mq : ℕ}
    (hpc : s.server = .sendMark c mq) :
    Serves file (s.sent c ⟨s.res, none⟩ (.closeQueue c mq)) := by
  have hserves : s.server.serves = some c := by rw [hpc]; rfl
  have hsends := h.sends
  rw [State.Sends, hpc] at hsends
  obtain ⟨hsmall, hbs, hnul⟩ := hsends
  have howed : s.owed = c :: (s.sent c ⟨s.res, none⟩ (.closeQueue c mq)).owed := by
    rw [State.owed, State.owed, hserves]
    rfl
  have hnodup := h.nodup
  rw [howed] at hnodup
  refine ⟨(List.nodup_cons.1 hnodup).2, fun d hd => ?_, fun d hd => ?_, trivial, fun d _ => ?_⟩
  · exact h.sent d (by rw [howed]; exact List.mem_cons_of_mem c hd)
  · have hne := h.ne_of_fresh hserves hd
    simpa only [State.sent, Function.update_of_ne hne] using h.fresh d hd
  · by_cases hdc : d = c
    · subst hdc
      refine Or.inr ⟨hsmall, s.put d, ⟨s.res, none⟩, ?_, hbs, rfl, hnul⟩
      simp only [State.sent, Function.update_self]
    · simp only [State.sent, Function.update_of_ne hdc]
      exact h.settled d fun heq => hdc (Option.some.inj (hserves.symm.trans heq)).symm

/-- **One call of the server**, in a run that meets the condition. -/
theorem of_serverStep {s s' : State ι} {r : Result} (h : Serves file s)
    (hok : Counted file s (.server r)) (hs : serverStep file s r = some s') : Serves file s' := by
  have hsends := h.sends
  unfold State.Sends at hsends
  cases ServerMove.of_step hs with
  | receiveFail hpc | openQueueFail hpc | openFileFail hpc | readFail hpc | sendFail hpc
  | closeFail hpc | sendMarkFail hpc => exact hok.elim
  | @receive _ c cs hpc hreq =>
      have hserves : s.server.serves = none := by rw [hpc]; rfl
      have hmem : c ∈ s.requests := by rw [hreq]; exact List.mem_cons_self
      have howed : s.owed = c :: cs := by rw [State.owed, hserves, hreq]; rfl
      have hnodup := h.nodup
      rw [howed] at hnodup
      refine ⟨hnodup, ?_, fun d hd => h.fresh d ?_, h.fresh c (Or.inl hmem),
        fun d _ => h.settled d (by rw [hserves]; exact nofun)⟩
      · exact fun d hd => h.sent d (by rw [howed]; exact hd)
      · exact hd.imp_left fun hd => by rw [hreq]; exact List.mem_cons_of_mem c hd
  | openQueue hpc hmq =>
      rw [hpc] at hsends
      exact h.goOn (by rw [hpc]; rfl) rfl rfl rfl hsends
  | openFile hpc hfd =>
      rw [hpc] at hsends
      simp only [Counted, hpc, ServerPc.Counted] at hok
      refine h.goOn (by rw [hpc]; rfl) rfl rfl rfl ⟨hok, [], ?_, rfl⟩
      rw [show s.put _ = [] from hsends]
      exact Carries.nil
  | readEnd hpc hleft =>
      rw [hpc] at hsends
      obtain ⟨hsmall, bs, hbs, hfile⟩ := hsends
      rw [hleft, List.append_nil] at hfile
      exact h.goOn (by rw [hpc]; rfl) rfl rfl rfl ⟨hsmall, by rw [hfile]; exact hbs⟩
  | @read c mq fd k hpc hpos hsize hleft =>
      rw [hpc] at hsends
      obtain ⟨hsmall, bs, hbs, hfile⟩ := hsends
      have hk : (s.left.take k).length = k := List.length_take_of_le hleft
      have hlt : (s.left.take k).length < msgSize := by
        rw [hk]
        exact Nat.lt_of_le_of_lt hsize (by decide)
      simp only [Counted, hpc, ServerPc.Counted] at hok
      have hstr : strlen (s.res.fill (s.left.take k)).data = .ok (s.left.take k).length :=
        (strlen_fill_iff hlt).2 ⟨(hok hpos).1, by rw [hk]; exact (hok hpos).2⟩
      refine h.goOn (by rw [hpc]; rfl) rfl rfl rfl ⟨hsmall, ⟨rfl, ?_, hlt, hstr⟩, bs, hbs, ?_⟩
      · exact List.length_pos_iff.1 (by rw [hk]; exact hpos)
      · rw [List.take_append_drop]
        exact hfile
  | send hpc => exact h.send hpc
  | clear hpc =>
      rw [hpc] at hsends
      exact h.goOn (by rw [hpc]; rfl) rfl rfl rfl hsends
  | close hpc =>
      rw [hpc] at hsends
      exact h.goOn (by rw [hpc]; rfl) rfl rfl rfl hsends
  | mark hpc =>
      rw [hpc] at hsends
      exact h.goOn (by rw [hpc]; rfl) rfl rfl rfl ⟨hsends.1, hsends.2, Response.head?_mark _⟩
  | sendMark hpc => exact h.sendMark hpc
  | closeQueue hpc => exact h.goOn (by rw [hpc]; rfl) rfl rfl rfl trivial

/-- A client that puts its request into the queue has not been served before. -/
theorem request {s : State ι} (h : Serves file s) {c : ι} (hpc : s.client c = .send) :
    Serves file { s with
      requests := s.requests ++ [c]
      client := Function.update s.client c (.recv 0 0) } := by
  have hnew : c ∉ s.owed := fun hmem => h.sent c hmem hpc
  have howed : State.owed { s with
      requests := s.requests ++ [c]
      client := Function.update s.client c (.recv 0 0) } = s.owed ++ [c] := by
    rw [State.owed, State.owed, List.append_assoc]
  refine ⟨?_, fun d hd => ?_, fun d hd => ?_, h.sends, h.settled⟩
  · rw [howed]
    exact h.nodup.append (List.nodup_singleton c) (by simpa using hnew)
  · rw [howed] at hd
    by_cases hdc : d = c
    · subst hdc
      simp only [Function.update_self]
      exact nofun
    · simp only [Function.update_of_ne hdc]
      exact h.sent d (by simpa [hdc] using hd)
  · by_cases hdc : d = c
    · exact h.fresh d (Or.inr (by rw [hdc]; exact hpc))
    · simp only [Function.update_of_ne hdc] at hd
      exact h.fresh d (hd.imp_left fun hd => by simpa [hdc] using hd)

/-- What a client receives is nothing to the server. -/
theorem receive {s : State ι} (h : Serves file s) {c : ι} {b n : ℤ} {m : Msg} {ms : List Msg}
    (hpc : s.client c = .recv b n) : Serves file { s with
      queue := Function.update s.queue c ms
      client := Function.update s.client c (m.received b n) } := by
  have hsend : ∀ d, Function.update s.client c (m.received b n) d = .send → s.client d = .send := by
    intro d hd
    by_cases hdc : d = c
    · subst hdc
      rw [Function.update_self] at hd
      exact absurd hd (Msg.received_ne_send _ _ _)
    · rwa [Function.update_of_ne hdc] at hd
  exact ⟨h.nodup, fun d hd hc => h.sent d hd (hsend d hc),
    fun d hd => h.fresh d (hd.imp_right (hsend d)), h.sends, h.settled⟩

theorem of_step {s s' : State ι} {a : Act ι} (h : Serves file s) (hok : Counted file s a)
    (hs : step file s a = some s') : Serves file s' := by
  cases a with
  | server r => exact h.of_serverStep hok hs
  | client c =>
      cases ClientMove.of_step hs with
      | send hpc => exact h.request hpc
      | receive hpc hq => exact h.receive hpc

end Serves

/-! ### The clients -/

/-- What the client at `pc` has received of the messages `ms`, when `queue` is still to come. -/
def ClientPc.Read (bs : List Byte) (ms queue : List Msg) : ClientPc → Prop
  | .send => True
  | .recv byteNum msgNum => ∃ taken bs' : List _, ms = taken ++ queue ∧ Carries bs' taken ∧
      byteNum = (bs'.length : ℤ) ∧ msgNum = (taken.length : ℤ)
  | .done byteNum msgNum marker => Whole bs ms ∧ queue = [] ∧ marker = true ∧
      byteNum = (bs.length : ℤ) ∧ msgNum = ((chunks ms).length : ℤ)
  | .fault => False

/-- What the client `c` has received. -/
def Reads (file : ι → List Byte) (s : State ι) (c : ι) : Prop :=
  (s.client c).Read (file c) (s.put c) (s.queue c) ∧ (s.client c = .send → s.queue c = [])

namespace ClientPc.Read

variable {bs : List Byte} {ms queue : List Msg} {pc : ClientPc}

/-- The server puts a message into the queue of a client that has not got the end marker. -/
theorem put (h : pc.Read bs ms queue) (hms : ¬ Whole bs ms) (m : Msg) :
    pc.Read bs (ms ++ [m]) (queue ++ [m]) := by
  cases pc with
  | send => trivial
  | recv b n =>
      obtain ⟨taken, bs', rfl, hcarries, hb, hn⟩ := h
      exact ⟨taken, bs', List.append_assoc _ _ _, hcarries, hb, hn⟩
  | done b n marker => exact absurd h.1 hms
  | fault => exact h.elim

end ClientPc.Read

/-- A chunk is received and counted. -/
theorem Carries.received {bs bs' : List Byte} {taken queue : List Msg} {m : Msg}
    (h : Carries bs (taken ++ m :: queue)) (hsmall : (bs.length : ℤ) ≤ CInt.intMax)
    (htaken : Carries bs' taken) : ∃ bs'', Carries bs'' (taken ++ [m]) ∧
      m.received bs'.length taken.length = .recv bs''.length (taken ++ [m]).length := by
  obtain ⟨bs₁, bs₂, rfl, h₁, h₂⟩ := h.of_append
  obtain rfl := h₁.unique htaken
  obtain ⟨chunk, bs₃, rfl, hm, -⟩ := h₂.of_cons
  have hcarries := htaken.concat hm
  have hlen := hcarries.length_le
  simp only [List.length_append, List.length_singleton] at hsmall hlen
  refine ⟨_, hcarries, ?_⟩
  rw [hm.received (by push_cast at hsmall ⊢; omega) (by push_cast at hsmall ⊢; omega)]
  simp only [List.length_append, List.length_singleton]

/-- A message is received: a chunk is counted, and the end marker ends the loop. -/
theorem Streams.received {s : State ι} {c : ι} {b n : ℤ} {m : Msg} {queue : List Msg}
    (h : Streams file s c) (hread : (ClientPc.recv b n).Read (file c) (s.put c) (m :: queue)) :
    (m.received b n).Read (file c) (s.put c) queue := by
  obtain ⟨taken, bs', hput, htaken, rfl, rfl⟩ := hread
  -- a message that is followed by nothing else than chunks is one
  have hchunk : ∀ bs rest, Carries bs (taken ++ m :: rest) → (bs.length : ℤ) ≤ CInt.intMax →
      (m.received bs'.length taken.length).Read (file c) (s.put c) queue := by
    intro bs rest hall hsmall
    obtain ⟨bs'', hcarries, hrecv⟩ := hall.received hsmall htaken
    rw [hrecv]
    exact ⟨taken ++ [m], bs'', by rw [hput, List.append_assoc]; rfl, hcarries, rfl, rfl⟩
  rcases h with hnil | ⟨hsmall, ⟨bs, rest, hbs, hfile⟩ | hwhole⟩
  · rw [hnil] at hput
    exact absurd hput.symm (by simp)
  · rw [hput] at hbs
    refine hchunk bs queue hbs ?_
    have hlen : (file c).length = bs.length + rest.length := by rw [hfile, List.length_append]
    rw [Small, hlen] at hsmall
    push_cast at hsmall
    omega
  · obtain ⟨ds, mark, hds, hcarries, hmark⟩ := id hwhole
    rcases List.eq_nil_or_concat queue with rfl | ⟨queue', last, rfl⟩
    · -- the message is the end marker
      obtain ⟨rfl, hm⟩ := List.append_inj' (hput.symm.trans hds) rfl
      obtain rfl := (List.cons.inj hm).1
      obtain rfl := htaken.unique hcarries
      have hchunks : (chunks (s.put c)).length = taken.length := by
        rw [hds, chunks_append, List.length_append, hcarries.length_chunks]
        simp [chunks, hmark.chunk_eq]
      rw [hmark.received]
      exact ⟨hwhole, rfl, rfl, rfl, by rw [hchunks]⟩
    · have hsplit : (taken ++ m :: queue') ++ [last] = ds ++ [mark] := by
        rw [← hds, hput, List.append_assoc, List.concat_eq_append]
        rfl
      obtain ⟨rfl, -⟩ := List.append_inj' hsplit rfl
      exact hchunk (file c) queue' hcarries hsmall

namespace Reads

theorem init (res : Response) (fds : Finset ℕ) (c : ι) : Reads file (init res fds : State ι) c :=
  ⟨trivial, fun _ => rfl⟩

theorem accounted {s : State ι} {c : ι} (h : Reads file s c) : Accounted file s c := by
  obtain ⟨hread, -⟩ := h
  unfold Accounted
  cases hpc : s.client c with
  | send => trivial
  | recv b n => trivial
  | fault =>
      rw [hpc] at hread
      exact hread
  | done b n marker =>
      rw [hpc] at hread
      obtain ⟨⟨ds, mark, hds, hcarries, hmark⟩, -, hmarker, hb, hn⟩ := hread
      have hchunks : chunks (s.put c) = chunks ds := by
        rw [hds, chunks_append]
        simp [chunks, hmark.chunk_eq]
      refine ⟨hmarker, hb, hn, by rw [hchunks, hcarries.2], fun chunk hchunk => ?_⟩
      rw [hchunks] at hchunk
      obtain ⟨m, hm, hmchunk⟩ := List.mem_filterMap.1 hchunk
      obtain ⟨chunk', hexact⟩ := hcarries.1 m hm
      obtain rfl : chunk = chunk' := Option.some.inj (hmchunk.symm.trans hexact.chunk_eq)
      have hpos := List.length_pos_iff.2 hexact.ne_nil
      exact ⟨hpos, Nat.le_sub_one_of_lt hexact.length_lt⟩

variable [DecidableEq ι]

/-- The only messages that the server puts into a queue are for a client that has not got the end
marker. -/
theorem of_serverStep {s s' : State ι} {r : Result} (h : ∀ c, Reads file s c)
    (hserves : Serves file s)
    (hs : serverStep file s r = some s') (c : ι) : Reads file s' c := by
  have hput : ∀ d m pc, s.client d ≠ .send → ¬ Whole (file d) (s.put d) →
    Reads file (s.sent d m pc) c := by
    intro d m pc hsent hwhole
    by_cases hcd : c = d
    · subst hcd
      simp only [Reads, State.sent, Function.update_self]
      exact ⟨(h c).1.put hwhole m, fun hsend => absurd hsend hsent⟩
    · simp only [Reads, State.sent, Function.update_of_ne hcd]
      exact h c
  have hsends := hserves.sends
  have howed : ∀ d, s.server.serves = some d → s.client d ≠ .send := fun d hd =>
    hserves.sent d (by rw [State.owed, hd]; exact List.mem_cons_self)
  cases ServerMove.of_step hs with
  | send hpc =>
      rw [State.Sends, hpc] at hsends
      obtain ⟨-, -, bs, hbs, -⟩ := hsends
      exact hput _ _ _ (howed _ (by rw [hpc]; rfl)) hbs.not_whole
  | sendMark hpc =>
      rw [State.Sends, hpc] at hsends
      exact hput _ _ _ (howed _ (by rw [hpc]; rfl)) hsends.2.1.not_whole
  | _ => exact h c

theorem of_step {s s' : State ι} {a : Act ι} (h : ∀ c, Reads file s c) (hserves : Serves file s)
    (hs : step file s a = some s') (c : ι) : Reads file s' c := by
  cases a with
  | server r => exact of_serverStep h hserves hs c
  | client d =>
      cases ClientMove.of_step hs with
      | send hpc =>
          by_cases hcd : c = d
          · subst hcd
            have hnil : s.put c = [] := hserves.fresh c (Or.inr hpc)
            simp only [Reads, Function.update_self]
            refine ⟨⟨[], [], ?_, Carries.nil, rfl, rfl⟩, nofun⟩
            rw [hnil, (h c).2 hpc]
            rfl
          · simp only [Reads, Function.update_of_ne hcd]
            exact h c
      | @receive b n m ms hpc hq =>
          by_cases hcd : c = d
          · subst hcd
            have hread := (h c).1
            rw [hpc, hq] at hread
            have hread' := (hserves.streams c).received hread
            simp only [Reads, Function.update_self]
            exact ⟨hread', fun hsend => absurd hsend (Msg.received_ne_send _ _ _)⟩
          · simp only [Reads, Function.update_of_ne hcd]
            exact h c

end Reads

/-! ### Every run -/

variable [DecidableEq ι]

/-- **A client that has left its loop has counted its file**, in every run in which no call of the
server fails, no file is too long for an `int`, and no chunk contains a null byte or is followed by
anything else in the buffer.  It has left its loop on the end marker, the bytes it has counted are
those of the file and the messages it has counted are the chunks that were read. -/
theorem accounted_of_counted {res : Response} {fds : Finset ℕ} {s : State ι}
    (h : Runs.ReachableVia (step file) (Counted file) (init res fds) s) (c : ι) :
    Accounted file s c := by
  have hstep : ∀ s a s', (Serves file s ∧ ∀ c, Reads file s c) → Counted file s a →
      step file s a = some s' → Serves file s' ∧ ∀ c, Reads file s' c := fun s a s' hi hok hs =>
    ⟨hi.1.of_step hok hs, Reads.of_step hi.2 hi.1 hs⟩
  exact ((h.invariant hstep ⟨Serves.init res fds, Reads.init res fds⟩).2 c).accounted

/-- The server reads the file of the one client in one chunk of `k` bytes and takes its loop to the
end; then the client receives `n` messages. -/
def transfer (k n : ℕ) : List (Act Unit) :=
  [.client (), .server (.ok 0), .server (.ok 4), .server (.ok 5), .server (.ok k), .server (.ok 0),
    .server (.ok 0), .server (.ok 0), .server (.ok 0), .server (.ok 0), .server (.ok 0),
    .server (.ok 0)] ++ List.replicate n (.client ())

/-- A file with the given content. -/
def only (content : List Byte) : Unit → List Byte := fun _ => content

theorem accounted_of_counted_text :
    ∃ s, Runs.ReachableVia (step (only [97, 98])) (Counted (only [97, 98])) (init .zero ∅) s ∧
      s.client () = .done 2 1 true ∧ Accounted (only [97, 98]) s () := by
  have hend : (Runs.run (fun s a => if Counted (only [97, 98]) s a then
    step (only [97, 98]) s a else none)
      (init .zero ∅) (transfer 2 2)).map (fun s => s.client ()) = some (.done 2 1 true) := by
    decide
  obtain ⟨s, hs, hpc⟩ := Option.map_eq_some_iff.1 hend
  have hvia := Runs.ReachableVia.of_run hs
  exact ⟨s, hvia, hpc, accounted_of_counted hvia ()⟩

/-- A buffer that nobody has set to zero. -/
def dirty : Response where
  data := List.replicate (msgSize - 1) 120 ++ [nul]
  data_length := by rw [List.length_append, List.length_replicate]; rfl

/-- **Two transfers that are not accounted for.**  The first request after the start of the server
is for a file of one byte, and the client counts what was in the buffer behind it as well; and a
file that starts with a null byte ends the client's loop with its first chunk. -/
theorem exists_miscounted_dirtyBuffer :
    (∃ s, Runs.Reachable (step (only [97])) (init dirty ∅) s ∧ s.client () = .done 2047 1 true ∧
      ¬ Accounted (only [97]) s ()) ∧
    ∃ s, Runs.Reachable (step (only [nul, 97])) (init .zero ∅) s ∧ s.client () = .done 0 0 false ∧
      ¬ Accounted (only [nul, 97]) s () := by
  have hdirty : (Runs.run (step (only [97])) (init dirty ∅) (transfer 1 2)).map
      (fun s => s.client ()) = some (.done 2047 1 true) := by decide +kernel
  have hnul : (Runs.run (step (only [nul, 97])) (init .zero ∅) (transfer 2 1)).map
      (fun s => s.client ()) = some (.done 0 0 false) := by decide
  constructor
  · obtain ⟨s, hs, hpc⟩ := Option.map_eq_some_iff.1 hdirty
    refine ⟨s, .of_run hs, hpc, ?_⟩
    unfold Accounted
    rw [hpc]
    rintro ⟨-, hlen, -⟩
    exact absurd hlen (by decide)
  · obtain ⟨s, hs, hpc⟩ := Option.map_eq_some_iff.1 hnul
    refine ⟨s, .of_run hs, hpc, ?_⟩
    unfold Accounted
    rw [hpc]
    rintro ⟨hmarker, -⟩
    exact absurd hmarker (by decide)

end MqFile
