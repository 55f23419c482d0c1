import SaltsUtils.Ltv.Stream

/-!
# What goes into a message stream comes out of it

A session is a stream with what was handed over to it and what it returned. The
stream reads the messages of everything it accepted, and keeps the rest.
-/

set_option autoImplicit false

namespace SaltsUtils.Ltv

/-- A message as its type and its value. -/
abbrev Letter := UInt8 × Bytes

def LtvMessage.letter (m : LtvMessage) (memory : Bytes) : Letter := (m.type, m.read memory)

def Letter.wire (l : Letter) : Bytes := ltv_wire l.1 l.2

def ltv_verdict (data : Bytes) : Verdict Letter :=
  match ltv_parse data with
  | .ok m => .message (m.letter data) m.consumed
  | .error .needMore => .more
  | .error _ => .refused

variable {data : Bytes}

theorem ltv_verdict_message {l : Letter} {n : ℕ} : ltv_verdict data = .message l n ↔
      ∃ m, ltv_parse data = .ok m ∧ m.letter data = l ∧ m.consumed = n := by
  rw [ltv_verdict]
  cases ltv_parse data with
  | ok m => simp
  | error e => cases e <;> simp

theorem letter_append {m : LtvMessage} (after : Bytes) (h : ltv_parse data = .ok m) :
    m.letter (data ++ after) = m.letter data := by
  obtain ⟨header_size, hpeek, hl, -, hv, hs, -⟩ := ltv_parse_ok.mp h
  have hpos := ltv_peek_size_header hpeek
  rw [ltv_total_size] at hl
  rw [LtvMessage.letter, LtvMessage.letter, ltv_message_read _ hv, ltv_message_read _ hv]
  congr 1
  rw [view, view, List.drop_append_of_le_length (by omega),
    List.take_append_of_le_length (by rw [List.length_drop]; omega)]

def ltv_framing : Framing UInt8 Letter where
  verdict := ltv_verdict
  size_pos h := by
    obtain ⟨m, hm, -, rfl⟩ := ltv_verdict_message.mp h
    exact (ltv_wire_of_parse hm).2.2.1
  size_le h := by
    obtain ⟨m, hm, -, rfl⟩ := ltv_verdict_message.mp h
    exact (ltv_wire_of_parse hm).2.1
  message_append after h := by
    obtain ⟨m, hm, rfl, rfl⟩ := ltv_verdict_message.mp h
    exact ltv_verdict_message.mpr ⟨m, ltv_parse_append after hm, letter_append after hm, rfl⟩
  refused_append {data} after h := by
    rw [ltv_verdict] at h ⊢
    cases hp : ltv_parse data with
    | ok m => simp [hp] at h
    | error e =>
      have he : e ≠ .needMore := by
        rintro rfl
        simp [hp] at h
      rw [ltv_parse_refused_append after hp he]
      cases e <;> simp at he ⊢

theorem ltv_verdict_wire {l : Letter} {n : ℕ} (h : ltv_framing.verdict data = .message l n) :
    l.wire = data.take n := by
  obtain ⟨m, hm, rfl, rfl⟩ := ltv_verdict_message.mp h
  exact (ltv_wire_of_parse hm).1

inductive LtvCall
  | feed (data : Span UInt8)
  | remaining

/-- A stream with the data of the feeds it accepted, the messages it returned, each read when it
was returned, and the message of the last feed. -/
structure LtvSession where
  stream : LtvStream
  accepted : Bytes := []
  returned : List Letter := []
  last : Option LtvMessage := none

def lettersOf (result : Except LtvParseResult LtvMessage) (memory : Bytes) : List Letter :=
  match result with
  | .ok m => [m.letter memory]
  | .error _ => []

def LtvSession.feed (c : LtvSession) (data : Span UInt8) : LtvSession :=
  let (result, stream) := ltv_stream_feed c.stream data
  { stream := stream
    accepted := if result = .error .bufferOverflow then c.accepted else c.accepted ++ data.data
    returned := c.returned ++ lettersOf result stream.buffer
    last := result.toOption }

def LtvSession.call (c : LtvSession) : LtvCall → LtvSession
  | .feed data => c.feed data
  | .remaining => c

def LtvSession.run (c : LtvSession) (calls : List LtvCall) : LtvSession :=
  calls.foldl LtvSession.call c

def ltv_session (buffer_size : ℕ) (fresh : ℕ → UInt8) (calls : List LtvCall) : LtvSession :=
  LtvSession.run { stream := ltv_stream_create buffer_size fresh } calls

theorem ltv_session_snoc (buffer_size : ℕ) (fresh : ℕ → UInt8) (calls : List LtvCall)
    (call : LtvCall) :
    ltv_session buffer_size fresh (calls ++ [call]) =
      (ltv_session buffer_size fresh calls).call call := by
  simp [ltv_session, LtvSession.run]

/-- Nothing is lost and nothing is added, messages come out in the order of the text, and the
last one can still be read where it lies. -/
structure LtvSession.Conserved (c : LtvSession) : Prop where
  bytes : c.returned.flatMap Letter.wire ++ c.stream.unconsumed = c.accepted
  messages : ltv_framing.Reads c.accepted c.returned c.stream.unconsumed
  last : ∀ m, c.last = some m → ∃ before, c.returned = before ++ [m.letter c.stream.buffer]

/-- A feed that is answered with an overflow changes none of the unconsumed bytes. -/
def LtvStream.Kept (s : LtvStream) (data : Span UInt8) : Prop :=
  (ltv_stream_feed s data).1 = .error .bufferOverflow →
    (ltv_stream_feed s data).2.unconsumed = s.unconsumed

/-- New bytes that the buffer has room for do not bring to light a message that is larger than
the whole buffer. -/
def LtvStream.Fits (s : LtvStream) (data : Span UInt8) : Prop :=
  data.data ≠ [] → s.expected = 0 → data.size ≤ s.buffer_size - s.unconsumed.length →
    ¬ Oversized s.buffer_size (s.unconsumed ++ data.data)

theorem ltv_parse_ne_overflow (data : Bytes) : ltv_parse data ≠ .error .bufferOverflow := by
  have hp : ltv_peek_size data ≠ .error .bufferOverflow := by
    rw [ltv_peek_size]
    cases ltv_decode_varint data with
    | malformed => simp
    | needMore => simp
    | value v used =>
      dsimp only
      split_ifs <;> simp
  rw [ltv_parse]
  cases hd : ltv_peek_size data with
  | error e =>
    rw [hd] at hp
    simpa using hp
  | ok r =>
    dsimp only
    split_ifs <;> simp

variable {data : Span UInt8}

theorem kept_of_fits {s : LtvStream} (h : s.Holds) (hf : s.Fits data) : s.Kept data := by
  intro hr
  obtain ⟨-, -, hfed⟩ := feed_spec h data
  cases hout : ltv_stream_feed s data with
  | mk r s' =>
    rw [hout] at hr hfed
    subst hr
    cases hfed with
    | full _ left => exact left
    | waiting parsed _ left => exact absurd parsed (ltv_parse_ne_overflow _)
    | oversized fresh room large left =>
      by_cases hd : data.data = []
      · rw [left, hd, List.append_nil]
      · exact absurd large (hf hd fresh room)

theorem feed_conserved {c : LtvSession} (hs : c.stream.Holds) (hc : c.Conserved)
    (hk : c.stream.Kept data) : (c.feed data).Conserved := by
  obtain ⟨-, -, hfed⟩ := feed_spec hs data
  have hk' := hk
  rw [LtvStream.Kept] at hk'
  rw [LtvSession.feed]
  cases hout : ltv_stream_feed c.stream data with
  | mk r s' =>
    rw [hout] at hk' hfed
    have happ := Framing.reads_append data.data hc.messages
    dsimp only
    by_cases hover : r = .error .bufferOverflow
    · subst hover
      have hleft := hk' rfl
      rw [if_pos rfl]
      rw [lettersOf, List.append_nil]
      exact ⟨by rw [hleft]; exact hc.bytes, by rw [hleft]; exact hc.messages,
        fun m hm => by cases hm⟩
    rw [if_neg hover]
    have hmessages : ltv_framing.Reads (c.accepted ++ data.data)
        (c.returned ++ lettersOf r s'.buffer) s'.unconsumed := by
      cases hfed with
      | null hnull left =>
        rw [left, hnull, List.append_nil, lettersOf, List.append_nil]
        exact hc.messages
      | full _ _ => exact absurd rfl hover
      | waiting _ _ left =>
        rw [left, lettersOf, List.append_nil]
        exact happ
      | oversized _ _ _ _ => exact absurd rfl hover
      | @message m s' parsed left value =>
        rw [left, lettersOf, show m.letter s'.buffer = m.letter (c.stream.unconsumed ++ data.data)
          from congrArg (Prod.mk m.type) value]
        exact Framing.reads_trans happ
          (Framing.reads_one (ltv_verdict_message.mpr ⟨_, parsed, rfl, rfl⟩))
    refine ⟨(Framing.reads_wire (fun _ _ _ => ltv_verdict_wire) hmessages).symm, hmessages, ?_⟩
    intro m hm
    cases r with
    | error e => cases hm
    | ok m' =>
      cases hm
      exact ⟨c.returned, rfl⟩

section
variable (buffer_size : ℕ) (fresh : ℕ → UInt8)

theorem ltv_session_holds (calls : List LtvCall) :
    (ltv_session buffer_size fresh calls).stream.Holds := by
  induction calls using List.reverseRecOn with
  | nil => exact create_holds _ _
  | append_singleton calls call ih =>
    rw [ltv_session_snoc]
    cases call with
    | remaining => exact ih
    | feed data => exact (feed_spec ih data).1

theorem ltv_session_conserved (calls : List LtvCall)
    (hk : ∀ before data, before ++ [.feed data] <+: calls →
      (ltv_session buffer_size fresh before).stream.Kept data) :
    (ltv_session buffer_size fresh calls).Conserved := by
  induction calls using List.reverseRecOn with
  | nil =>
    refine ⟨by simp [ltv_session, LtvSession.run], ?_, fun m hm => by cases hm⟩
    simp only [ltv_session, LtvSession.run, List.foldl_nil, create_unconsumed]
    exact .stop _
  | append_singleton calls call ih =>
    have hc := ih fun before data hb => hk before data (hb.trans (List.prefix_append _ _))
    rw [ltv_session_snoc]
    cases call with
    | remaining => exact hc
    | feed data =>
      exact feed_conserved (ltv_session_holds _ _ _) hc (hk calls data List.prefix_rfl)

/-- New bytes that bring an oversized message to light stay in the buffer, though the feed is
answered with an overflow. -/
theorem not_conserved_of_not_fits {c : LtvSession} (hs : c.stream.Holds) (hc : c.Conserved)
    (hf : ¬ c.stream.Fits data) : ¬ (c.feed data).Conserved := by
  intro hc'
  simp only [LtvStream.Fits, Classical.not_imp, not_not] at hf
  obtain ⟨hne, fresh, room, large⟩ := hf
  obtain ⟨-, -, hfed⟩ := feed_spec hs data
  have hbytes := hc'.bytes
  have hstays : (c.feed data).stream.unconsumed = c.stream.unconsumed ++ data.data ∧
      (c.feed data).accepted = c.accepted ∧ (c.feed data).returned = c.returned := by
    rw [LtvSession.feed]
    cases hout : ltv_stream_feed c.stream data with
    | mk r s' =>
      rw [hout] at hfed
      cases hfed with
      | null hnull _ => exact absurd hnull hne
      | full hroom _ => omega
      | waiting _ fits _ => exact absurd large (fits fresh)
      | oversized _ _ _ left => exact ⟨left, by simp, by simp [lettersOf]⟩
      | @message m _ parsed left _ =>
        -- a whole message lies in the buffer, so it is not larger than the buffer
        obtain ⟨length, header_size, hpeek, hlarge⟩ := large
        obtain ⟨header_size', hpeek', hl, -⟩ := ltv_parse_ok.mp parsed
        rw [hpeek] at hpeek'
        cases hpeek'
        have := data.data_length_le
        have hlen := unconsumed_length hs
        have hbuf := hs.buffered_le
        rw [List.length_append] at hl
        omega
  rw [hstays.1, hstays.2.1, hstays.2.2] at hbytes
  have := congrArg List.length (hc.bytes.trans hbytes.symm)
  have hpos := List.length_pos_of_ne_nil hne
  simp only [List.length_append] at this
  omega

/-- In every run: each state conserves the bytes, gives the messages of the accepted text in
order and still shows the last one, and each overflow leaves the unconsumed bytes as they are,
exactly if no accepted append brings an oversized message to light. -/
theorem ltv_stream_conserves (calls : List LtvCall) :
    ((∀ before, before <+: calls → (ltv_session buffer_size fresh before).Conserved) ∧
      ∀ before data, before ++ [.feed data] <+: calls →
        (ltv_session buffer_size fresh before).stream.Kept data) ↔
    ∀ before data, before ++ [.feed data] <+: calls →
      (ltv_session buffer_size fresh before).stream.Fits data := by
  constructor
  · rintro ⟨hc, -⟩ before data hb
    by_contra hf
    refine not_conserved_of_not_fits (ltv_session_holds _ _ _)
      (hc before ((List.prefix_append _ _).trans hb)) hf ?_
    have := hc _ hb
    rwa [ltv_session_snoc] at this
  · intro hf
    have hk : ∀ before data, before ++ [.feed data] <+: calls →
        (ltv_session buffer_size fresh before).stream.Kept data :=
      fun before data hb => kept_of_fits (ltv_session_holds _ _ _) (hf before data hb)
    exact ⟨fun before hb => ltv_session_conserved _ _ before fun before' data hb' =>
      hk before' data (hb'.trans hb), hk⟩

end

/-- A message of six bytes announced to a buffer of four: the two bytes of the feed are kept,
though it is answered with an overflow, and handed over to it was nothing. -/
theorem ltv_stream_overflow_keeps :
    let c := ltv_session 4 (fun _ => 0) []
    let c' := ltv_session 4 (fun _ => 0) [.feed (.cells [5, 1])]
    (ltv_stream_feed c.stream (.cells [5, 1])).1 = .error .bufferOverflow ∧
      c.stream.unconsumed = [] ∧ c'.stream.unconsumed = [5, 1] ∧ c'.accepted = [] ∧
      c'.returned = [] ∧ ¬ c'.Conserved := by
  refine ⟨by decide, by decide, by decide, by decide, by decide, fun h => ?_⟩
  exact absurd h.bytes (by decide)

end SaltsUtils.Ltv
