import SaltsUtils.Ltv.Canonical

/-!
# The message stream

`ltv_stream_t` and its functions.
-/

set_option autoImplicit false

namespace SaltsUtils.Ltv

structure LtvStream where
  buffer : Bytes
  buffer_size : ℕ
  buffered : ℕ := 0
  expected : ℕ := 0
  header_size : ℕ := 0
  pending_consume : ℕ := 0
deriving DecidableEq

/-- The cells of a new buffer hold anything. -/
def ltv_stream_create (buffer_size : ℕ) (fresh : ℕ → UInt8) : LtvStream :=
  let buffer_size := if buffer_size = 0 then 65536 else buffer_size
  { buffer := (List.range buffer_size).map fresh, buffer_size := buffer_size }

def ltv_stream_consume_completed (s : LtvStream) : LtvStream :=
  if s.pending_consume = 0 then s
  else
    let remaining := s.buffered - s.pending_consume
    { s with
      buffer :=
        if 0 < remaining then
          overwrite s.buffer 0 (view s.buffer s.pending_consume remaining)
        else s.buffer
      buffered := remaining
      pending_consume := 0 }

def ltv_stream_take (s : LtvStream) : Except LtvParseResult LtvMessage × LtvStream :=
  if s.buffered < s.expected then (.error .needMore, s)
  else
    match ltv_parse (s.buffer.take s.expected) with
    | .error result => (.error result, s)
    | .ok out =>
      (.ok out, { s with pending_consume := s.expected, expected := 0, header_size := 0 })

def ltv_stream_scan (s : LtvStream) : Except LtvParseResult LtvMessage × LtvStream :=
  if s.expected = 0 then
    match ltv_peek_size (s.buffer.take s.buffered) with
    | .error peek => (.error peek, s)
    | .ok (length, header_size) =>
      let s := { s with
        expected := ltv_total_size length header_size
        header_size := header_size }
      if s.buffer_size < s.expected then (.error .bufferOverflow, s)
      else ltv_stream_take s
  else ltv_stream_take s

def ltv_stream_feed (s : LtvStream) (data : Span UInt8) :
    Except LtvParseResult LtvMessage × LtvStream :=
  if data.isNull ∧ 0 < data.size then (.error .invalidVarint, s)
  else
    let s := ltv_stream_consume_completed s
    if ¬ data.isNull ∧ 0 < data.size then
      if s.buffer_size - s.buffered < data.size then (.error .bufferOverflow, s)
      else
        ltv_stream_scan { s with
          buffer := overwrite s.buffer s.buffered data.data
          buffered := s.buffered + data.size }
    else ltv_stream_scan s

/-- Where the unconsumed bytes start in the buffer, and how many there are. -/
def ltv_stream_remaining (s : LtvStream) : ℕ × ℕ :=
  (s.pending_consume, s.buffered - s.pending_consume)

def LtvStream.unconsumed (s : LtvStream) : Bytes :=
  view s.buffer (ltv_stream_remaining s).1 (ltv_stream_remaining s).2

structure LtvStream.Holds (s : LtvStream) : Prop where
  size : s.buffer.length = s.buffer_size
  buffered_le : s.buffered ≤ s.buffer_size
  pending_le : s.pending_consume ≤ s.buffered
  pending_expected : s.pending_consume ≠ 0 → s.expected = 0
  cached : s.expected ≠ 0 → ∃ length,
    ltv_peek_size s.unconsumed = .ok (length, s.header_size) ∧
      s.expected = ltv_total_size length s.header_size

variable {s : LtvStream}

theorem create_holds (buffer_size : ℕ) (fresh : ℕ → UInt8) :
    (ltv_stream_create buffer_size fresh).Holds := by
  constructor <;> simp [ltv_stream_create]

@[simp] theorem create_unconsumed (buffer_size : ℕ) (fresh : ℕ → UInt8) :
    (ltv_stream_create buffer_size fresh).unconsumed = [] := by
  simp [LtvStream.unconsumed, ltv_stream_remaining, ltv_stream_create]

theorem unconsumed_of_pending_zero (h : s.pending_consume = 0) :
    s.unconsumed = s.buffer.take s.buffered := by
  simp [LtvStream.unconsumed, ltv_stream_remaining, view, h]

theorem unconsumed_length (h : s.Holds) : s.unconsumed.length = s.buffered - s.pending_consume := by
  have := h.size
  have := h.buffered_le
  have := h.pending_le
  exact length_view (by simp only [ltv_stream_remaining]; omega)

theorem consume_completed_spec (h : s.Holds) :
    (ltv_stream_consume_completed s).Holds ∧
      (ltv_stream_consume_completed s).unconsumed = s.unconsumed ∧
      (ltv_stream_consume_completed s).pending_consume = 0 ∧
      (ltv_stream_consume_completed s).buffer_size = s.buffer_size ∧
      (ltv_stream_consume_completed s).expected = s.expected := by
  by_cases hp : s.pending_consume = 0
  · rw [ltv_stream_consume_completed, if_pos hp]
    exact ⟨h, rfl, hp, rfl, rfl⟩
  have hsize := h.size
  have hbuf := h.buffered_le
  have hpen := h.pending_le
  have hexp := h.pending_expected hp
  have hlen : (view s.buffer s.pending_consume (s.buffered - s.pending_consume)).length =
      s.buffered - s.pending_consume := length_view (by omega)
  have hwl : (overwrite s.buffer 0
      (view s.buffer s.pending_consume (s.buffered - s.pending_consume))).length =
      s.buffer.length := length_overwrite (by omega)
  rw [ltv_stream_consume_completed, if_neg hp]
  refine ⟨⟨?_, ?_, ?_, ?_, ?_⟩, ?_, rfl, rfl, rfl⟩
  · dsimp only
    split_ifs
    · rw [hwl, hsize]
    · exact hsize
  · dsimp only
    omega
  · exact Nat.zero_le _
  · exact fun h0 => absurd rfl h0
  · exact fun h0 => absurd hexp h0
  · rw [unconsumed_of_pending_zero rfl, LtvStream.unconsumed, ltv_stream_remaining]
    dsimp only
    by_cases hr : 0 < s.buffered - s.pending_consume
    · rw [if_pos hr]
      have := take_overwrite_zero s.buffer
        (view s.buffer s.pending_consume (s.buffered - s.pending_consume))
      rwa [hlen] at this
    · rw [if_neg hr, show s.buffered - s.pending_consume = 0 by omega]
      simp

theorem append_spec (data : Bytes) (h : s.Holds) (hp : s.pending_consume = 0)
    (hd : data.length ≤ s.buffer_size - s.buffered) :
    let s' := { s with
      buffer := overwrite s.buffer s.buffered data
      buffered := s.buffered + data.length }
    s'.Holds ∧ s'.unconsumed = s.unconsumed ++ data := by
  have hsize := h.size
  have hbuf := h.buffered_le
  have hu : ({ s with
      buffer := overwrite s.buffer s.buffered data
      buffered := s.buffered + data.length } : LtvStream).unconsumed = s.unconsumed ++ data := by
    have hold := unconsumed_of_pending_zero hp
    rw [hold]
    refine Eq.trans ?_ (take_overwrite (by omega))
    exact unconsumed_of_pending_zero hp
  refine ⟨⟨?_, ?_, ?_, ?_, ?_⟩, hu⟩
  · exact (length_overwrite (by omega)).trans hsize
  · dsimp only
    omega
  · dsimp only
    omega
  · exact fun h0 => absurd hp h0
  · intro h0
    obtain ⟨length, hpeek, he⟩ := h.cached h0
    rw [hu]
    exact ⟨length, ltv_peek_size_append _ hpeek, he⟩

theorem ltv_parse_take {data : Bytes} {length : UInt32} {header_size : ℕ}
    (h : ltv_peek_size data = .ok (length, header_size))
    (hl : ltv_total_size length header_size ≤ data.length) :
    ∃ m, ltv_parse (data.take (ltv_total_size length header_size)) = .ok m ∧
      ltv_parse data = .ok m ∧ m.consumed = ltv_total_size length header_size := by
  have hp := ltv_peek_size_take (n := ltv_total_size length header_size) h
    (by rw [ltv_total_size]; omega)
  cases hm : ltv_parse (data.take (ltv_total_size length header_size)) with
  | error e =>
    rw [ltv_parse, hp] at hm
    dsimp only at hm
    rw [if_neg (by rw [List.length_take]; omega)] at hm
    cases hm
  | ok m =>
    have hm' := ltv_parse_append (data.drop (ltv_total_size length header_size)) hm
    rw [List.take_append_drop] at hm'
    obtain ⟨header_size', hp', -, -, -, -, hc⟩ := ltv_parse_ok.mp hm'
    rw [h] at hp'
    cases hp'
    exact ⟨m, rfl, hm', hc⟩

/-- A text that starts with the header of a message larger than the buffer. -/
def Oversized (buffer_size : ℕ) (text : Bytes) : Prop :=
  ∃ length header_size, ltv_peek_size text = .ok (length, header_size) ∧
    buffer_size < ltv_total_size length header_size

/-- What the part of a feed behind the append does with the text of the buffer. -/
inductive Scanned (s : LtvStream) : Except LtvParseResult LtvMessage × LtvStream → Prop
  | message {m s'} (parsed : ltv_parse s.unconsumed = .ok m)
      (left : s'.unconsumed = s.unconsumed.drop m.consumed) (buffer : s'.buffer = s.buffer) :
      Scanned s (.ok m, s')
  | waiting {e s'} (parsed : ltv_parse s.unconsumed = .error e)
      (fits : s.expected = 0 → ¬ Oversized s.buffer_size s.unconsumed)
      (left : s'.unconsumed = s.unconsumed) : Scanned s (.error e, s')
  | oversized {s'} (fresh : s.expected = 0) (large : Oversized s.buffer_size s.unconsumed)
      (left : s'.unconsumed = s.unconsumed) : Scanned s (.error .bufferOverflow, s')

theorem take_spec {s₀ : LtvStream} (h : s.Holds) (hp : s.pending_consume = 0)
    (he : s.expected ≠ 0) (hu : s₀.unconsumed = s.unconsumed) (hb : s₀.buffer = s.buffer)
    (hf : s₀.expected = 0 → ¬ Oversized s₀.buffer_size s₀.unconsumed) :
    (ltv_stream_take s).2.Holds ∧ (ltv_stream_take s).2.buffer_size = s.buffer_size ∧
      Scanned s₀ (ltv_stream_take s) := by
  obtain ⟨length, hpeek, hexp⟩ := h.cached he
  have htext := unconsumed_of_pending_zero hp
  have hlen := unconsumed_length h
  rw [hp, Nat.sub_zero] at hlen
  rw [ltv_stream_take]
  by_cases hlt : s.buffered < s.expected
  · rw [if_pos hlt]
    refine ⟨h, rfl, .waiting ?_ hf hu.symm⟩
    rw [hu]
    exact ltv_parse_needMore.mpr (.inr ⟨length, s.header_size, hpeek, by omega⟩)
  · rw [if_neg hlt]
    obtain ⟨m, htake, hparse, hc⟩ := ltv_parse_take hpeek (by omega)
    rw [← hexp, htext, List.take_take, min_eq_left (by omega)] at htake
    rw [htake]
    have hsize := h.size
    have hbuf := h.buffered_le
    refine ⟨⟨hsize, hbuf, Nat.le_of_not_lt hlt, fun _ => rfl, fun h0 => absurd rfl h0⟩, rfl,
      .message (by rw [hu]; exact hparse) ?_ hb.symm⟩
    rw [hu, htext, hc, ← hexp, LtvStream.unconsumed, ltv_stream_remaining, view, List.drop_take]

theorem scan_spec (h : s.Holds) (hp : s.pending_consume = 0) :
    (ltv_stream_scan s).2.Holds ∧ (ltv_stream_scan s).2.buffer_size = s.buffer_size ∧
      Scanned s (ltv_stream_scan s) := by
  have htext := unconsumed_of_pending_zero hp
  rw [ltv_stream_scan]
  by_cases he : s.expected = 0
  · rw [if_pos he]
    cases hpeek : ltv_peek_size (s.buffer.take s.buffered) with
    | error e =>
      refine ⟨h, rfl, .waiting ?_ (fun _ hover => ?_) rfl⟩
      · rw [htext, ltv_parse, hpeek]
      · obtain ⟨length, header_size, hp', -⟩ := hover
        rw [htext, hpeek] at hp'
        cases hp'
    | ok r =>
      obtain ⟨length, header_size⟩ := r
      have hpos := ltv_peek_size_header hpeek
      rw [← htext] at hpeek
      -- the size is cached before it is compared with that of the buffer
      have h' : ({ s with
          expected := ltv_total_size length header_size
          header_size := header_size } : LtvStream).Holds :=
        ⟨h.size, h.buffered_le, h.pending_le, fun h0 => absurd hp h0,
          fun _ => ⟨length, hpeek, rfl⟩⟩
      dsimp only
      by_cases hlarge : s.buffer_size < ltv_total_size length header_size
      · rw [if_pos hlarge]
        exact ⟨h', rfl, .oversized he ⟨_, _, hpeek, hlarge⟩ rfl⟩
      · rw [if_neg hlarge]
        refine take_spec h' hp ?_ rfl rfl fun _ hover => ?_
        · simp only [ltv_total_size]
          omega
        · obtain ⟨_, _, hp', hlarge'⟩ := hover
          rw [hpeek] at hp'
          cases hp'
          exact hlarge hlarge'
  · rw [if_neg he]
    exact take_spec h hp he rfl rfl fun h0 => absurd h0 he

/-- Everything that a feed can do. -/
inductive Fed (s : LtvStream) (data : Span UInt8) :
    Except LtvParseResult LtvMessage × LtvStream → Prop
  | null {s'} (null : data.data = []) (left : s'.unconsumed = s.unconsumed) :
      Fed s data (.error .invalidVarint, s')
  | full {s'} (room : s.buffer_size - s.unconsumed.length < data.size)
      (left : s'.unconsumed = s.unconsumed) : Fed s data (.error .bufferOverflow, s')
  | message {m s'} (parsed : ltv_parse (s.unconsumed ++ data.data) = .ok m)
      (left : s'.unconsumed = (s.unconsumed ++ data.data).drop m.consumed)
      (value : m.read s'.buffer = m.read (s.unconsumed ++ data.data)) : Fed s data (.ok m, s')
  | waiting {e s'} (parsed : ltv_parse (s.unconsumed ++ data.data) = .error e)
      (fits : s.expected = 0 → ¬ Oversized s.buffer_size (s.unconsumed ++ data.data))
      (left : s'.unconsumed = s.unconsumed ++ data.data) : Fed s data (.error e, s')
  | oversized {s'} (fresh : s.expected = 0)
      (room : data.size ≤ s.buffer_size - s.unconsumed.length)
      (large : Oversized s.buffer_size (s.unconsumed ++ data.data))
      (left : s'.unconsumed = s.unconsumed ++ data.data) :
      Fed s data (.error .bufferOverflow, s')

theorem read_buffer {m : LtvMessage} (hp : s.pending_consume = 0)
    (hm : ltv_parse s.unconsumed = .ok m) : m.read s.buffer = m.read s.unconsumed := by
  obtain ⟨header_size, hpeek, hl, -, hv, hs, -⟩ := ltv_parse_ok.mp hm
  have hpos := ltv_peek_size_header hpeek
  rw [ltv_total_size] at hl
  rw [ltv_message_read _ hv, ltv_message_read _ hv]
  rw [unconsumed_of_pending_zero hp] at hl ⊢
  refine (view_take ?_).symm
  rw [List.length_take] at hl
  omega

theorem fed_of_scanned {s₁ : LtvStream} {data : Span UInt8}
    {out : Except LtvParseResult LtvMessage × LtvStream} (h : Scanned s₁ out)
    (hp : s₁.pending_consume = 0) (hu : s₁.unconsumed = s.unconsumed ++ data.data)
    (he : s₁.expected = s.expected) (hb : s₁.buffer_size = s.buffer_size)
    (hr : data.size ≤ s.buffer_size - s.unconsumed.length) : Fed s data out := by
  cases h with
  | message parsed left buffer =>
    refine .message (hu ▸ parsed) (hu ▸ left) ?_
    rw [buffer, read_buffer hp parsed, hu]
  | waiting parsed fits left =>
    rw [he, hb, hu] at fits
    exact .waiting (hu ▸ parsed) fits (left.trans hu)
  | oversized fresh large left =>
    rw [hb, hu] at large
    exact .oversized (he ▸ fresh) hr large (left.trans hu)

theorem feed_spec (h : s.Holds) (data : Span UInt8) :
    (ltv_stream_feed s data).2.Holds ∧
      (ltv_stream_feed s data).2.buffer_size = s.buffer_size ∧
      Fed s data (ltv_stream_feed s data) := by
  obtain ⟨hc, hu, hp, hb, he⟩ := consume_completed_spec h
  have hlen := unconsumed_length hc
  rw [hp, hu, Nat.sub_zero] at hlen
  rw [ltv_stream_feed]
  by_cases hnull : data.isNull ∧ 0 < data.size
  · rw [if_pos hnull]
    refine ⟨h, rfl, .null ?_ rfl⟩
    cases data with
    | null n => rfl
    | cells d => exact absurd hnull.1 (by simp)
  rw [if_neg hnull]
  by_cases hsome : ¬ data.isNull ∧ 0 < data.size
  · dsimp only
    rw [if_pos hsome]
    by_cases hfull : (ltv_stream_consume_completed s).buffer_size -
        (ltv_stream_consume_completed s).buffered < data.size
    · rw [if_pos hfull]
      exact ⟨hc, hb, .full (by omega) hu⟩
    · rw [if_neg hfull]
      cases data with
      | null n => exact absurd rfl hsome.1
      | cells d =>
        obtain ⟨ha, hau⟩ := append_spec d hc hp (by simpa using hfull)
        rw [hu] at hau
        obtain ⟨hs, hsb, hscan⟩ := scan_spec ha hp
        exact ⟨hs, hsb.trans hb, fed_of_scanned hscan hp hau he hb (by omega)⟩
  · dsimp only
    rw [if_neg hsome]
    obtain ⟨hs, hsb, hscan⟩ := scan_spec hc hp
    have hzero : data.size = 0 := by
      by_contra hne
      by_cases hn : data.isNull
      · exact hnull ⟨hn, by omega⟩
      · exact hsome ⟨hn, by omega⟩
    have hdata : data.data = [] := by
      apply List.eq_nil_of_length_eq_zero
      have := data.data_length_le
      omega
    refine ⟨hs, hsb.trans hb, fed_of_scanned hscan hp ?_ he hb (by omega)⟩
    rw [hu, hdata, List.append_nil]

end SaltsUtils.Ltv
