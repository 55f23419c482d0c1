import SaltsUtils.Tlv.Wire

/-!
# The frame stream

`stream_parser.c` of `src/parser/tlv_parser/src`.
-/

set_option autoImplicit false

namespace SaltsUtils.Tlv

inductive ParseError
  | ok
  | truncated
  | invalidHead
  | invalidTail
  | crcMismatch
  | invalidVersion
  | payloadTooLarge
  | outOfMemory
  | invalidPayloadType
  | bufferOverflow
  | unknown
deriving DecidableEq

structure ParseErrorInfo where
  code : ParseError := .ok
  offset : ℕ := 0
  message : String := ""
  msg_id : UInt32 := 0
deriving DecidableEq

def parse_error_set (code : ParseError) (offset : ℕ) (msg_id : UInt32) (message : String) :
    ParseErrorInfo := { code, offset, message, msg_id }

def frame_parse_result_to_error : FrameParseResult → ParseError
  | .ok => .ok
  | .needMore => .truncated
  | .invalidHead => .invalidHead
  | .invalidTail => .invalidTail
  | .invalidSize => .payloadTooLarge
  | .crcMismatch => .crcMismatch

structure StreamParser where
  buffer : Bytes
  buffer_size : ℕ
  buffered : ℕ := 0
  expected : ℕ := 0
  last_error : ParseErrorInfo := {}
deriving DecidableEq

inductive StreamState
  | needMoreData
  | frameComplete (out : Frame)
  | error
deriving DecidableEq

/-- The cells of a new buffer hold anything. -/
def stream_parser_create (buffer_size : ℕ) (fresh : ℕ → UInt8) : StreamParser :=
  let buffer_size := if buffer_size < FRAME_MIN_SIZE then 65536 else buffer_size
  { buffer := (List.range buffer_size).map fresh, buffer_size := buffer_size }

def StreamParser.fail (sp : StreamParser) (info : ParseErrorInfo) (pool : Option MemoryPool) :
    StreamState × StreamParser × Option MemoryPool :=
  (.error, { sp with last_error := info }, pool)

def stream_parser_take (sp : StreamParser) (pool : Option MemoryPool) :
    StreamState × StreamParser × Option MemoryPool :=
  if sp.buffered < sp.expected then (.needMoreData, sp, pool)
  else
    match frame_parse_copy (sp.buffer.take sp.expected) pool with
    | (.error result, pool) =>
      sp.fail (parse_error_set (frame_parse_result_to_error result) 0 0 "Frame parse failed") pool
    | (.ok out, pool) =>
      let remaining := sp.buffered - sp.expected
      (.frameComplete out,
        { sp with
          buffer :=
            if 0 < remaining then overwrite sp.buffer 0 (view sp.buffer sp.expected remaining)
            else sp.buffer
          buffered := remaining
          expected := 0 }, pool)

def stream_parser_scan (sp : StreamParser) (pool : Option MemoryPool) :
    StreamState × StreamParser × Option MemoryPool :=
  if sp.expected = 0 then
    match frame_peek_size (sp.buffer.take sp.buffered) with
    | .error .needMore => (.needMoreData, sp, pool)
    | .error peek =>
      sp.fail (parse_error_set (frame_parse_result_to_error peek) 0 0 "Invalid frame header") pool
    | .ok payload_size =>
      let sp := { sp with expected := frame_total_size payload_size }
      if sp.buffer_size < sp.expected then
        sp.fail (parse_error_set .bufferOverflow 0 0 "Frame too large for buffer") pool
      else stream_parser_take sp pool
  else stream_parser_take sp pool

def stream_parser_feed (sp : StreamParser) (data : Span UInt8) (pool : Option MemoryPool) :
    StreamState × StreamParser × Option MemoryPool :=
  if data.isNull then (.error, sp, pool)
  else if sp.buffer_size < sp.buffered + data.size then
    sp.fail (parse_error_set .bufferOverflow sp.buffered 0 "Stream buffer overflow") pool
  else
    stream_parser_scan { sp with
      buffer := overwrite sp.buffer sp.buffered data.data
      buffered := sp.buffered + data.size } pool

def StreamParser.text (sp : StreamParser) : Bytes := sp.buffer.take sp.buffered

structure StreamParser.Holds (sp : StreamParser) : Prop where
  size : sp.buffer.length = sp.buffer_size
  buffered_le : sp.buffered ≤ sp.buffer_size
  cached : sp.expected ≠ 0 → ∃ payload_size,
    frame_peek_size sp.text = .ok payload_size ∧ sp.expected = frame_total_size payload_size

variable {sp : StreamParser} {pool : Option MemoryPool}

theorem create_holds (buffer_size : ℕ) (fresh : ℕ → UInt8) :
    (stream_parser_create buffer_size fresh).Holds := by
  constructor <;> simp [stream_parser_create]

@[simp] theorem create_text (buffer_size : ℕ) (fresh : ℕ → UInt8) :
    (stream_parser_create buffer_size fresh).text = [] := by
  simp [StreamParser.text, stream_parser_create]

theorem text_length (h : sp.Holds) : sp.text.length = sp.buffered := by
  have := h.size
  have := h.buffered_le
  rw [StreamParser.text, List.length_take]
  omega

/-- Where the payload of a parsed frame is after the copy. -/
inductive Copied (parsed : Frame) (bytes : Bytes) (pool : Option MemoryPool) :
    Frame → Option MemoryPool → Prop
  | empty (size : parsed.payload_size = 0) : Copied parsed bytes pool parsed pool
  | heap (size : 0 < parsed.payload_size)
      (full : ∀ p, pool = some p → p.memory.length < p.offset + parsed.payload_size) :
      Copied parsed bytes pool
        { parsed with payload_owned := true, payload_pool := false, payload := .heap bytes } pool
  | slice {p : MemoryPool} (size : 0 < parsed.payload_size) (here : pool = some p)
      (fits : p.offset + parsed.payload_size ≤ p.memory.length) :
      Copied parsed bytes pool
        { parsed with
          payload_owned := false
          payload_pool := true
          payload_pool_offset := p.offset
          payload := .pool p.offset }
        (some
          { memory := overwrite p.memory p.offset bytes
            offset := p.offset + parsed.payload_size })

variable {data : Bytes}

theorem frame_parse_copy_error {e : FrameParseResult} (h : frame_parse data false = .error e) :
    frame_parse_copy data pool = (.error e, pool) := by
  rw [frame_parse_copy, h]

theorem frame_parse_copy_ok {parsed : Frame} (pool : Option MemoryPool)
    (h : frame_parse data false = .ok parsed) :
    ∃ frame pool', frame_parse_copy data pool = (.ok frame, pool') ∧
      Copied parsed (parsed.read data none) pool frame pool' := by
  rw [frame_parse_copy, h]
  dsimp only
  by_cases hs : 0 < parsed.payload_size
  · rw [if_pos hs]
    cases pool with
    | none => exact ⟨_, _, rfl, .heap hs fun p hp => by cases hp⟩
    | some p =>
      by_cases hf : p.offset + parsed.payload_size ≤ p.memory.length
      · refine ⟨_, _, ?_, .slice hs rfl hf⟩
        simp [pool_alloc, pool_mark, hf]
      · refine ⟨_, _, ?_, .heap hs fun p' hp' => ?_⟩
        · simp [pool_alloc, hf]
        · cases hp'
          omega
  · rw [if_neg hs]
    exact ⟨_, _, rfl, .empty (by omega)⟩

theorem copied_letter {parsed frame : Frame} {pool' : Option MemoryPool} (input : Bytes)
    (hp : parsed.payload = (if 0 < parsed.payload_size then .input FRAME_OFF_PAYLOAD else .null))
    (hl : (parsed.read data none).length = parsed.payload_size)
    (h : Copied parsed (parsed.read data none) pool frame pool') :
    frame.letter input pool' = parsed.letter data none ∧
      frame.payload_size = parsed.payload_size := by
  cases h with
  | empty size =>
    refine ⟨?_, rfl⟩
    rw [Frame.letter, Frame.letter, frame_read_input hp, frame_read_input hp, size, view_zero,
      view_zero]
  | heap size _ =>
    refine ⟨?_, rfl⟩
    rw [Frame.letter, Frame.letter]
    congr 1
    exact List.take_of_length_le (Nat.le_of_eq hl)
  | @slice p size _ fits =>
    refine ⟨?_, rfl⟩
    rw [Frame.letter, Frame.letter]
    congr 1
    have := view_overwrite_self (parsed.read data none)
      (show p.offset ≤ p.memory.length by omega)
    rw [hl] at this
    exact this

theorem frame_parse_take {payload_size : UInt32} (h : frame_peek_size data = .ok payload_size)
    (skip_crc : Bool) (hl : frame_total_size payload_size ≤ data.length) :
    frame_parse (data.take (frame_total_size payload_size)) skip_crc =
      frame_parse data skip_crc := by
  have hl' : 16 + payload_size.toNat ≤ data.length := hl
  have hsplit := List.take_append_drop (frame_total_size payload_size) data
  have htake : (data.take (frame_total_size payload_size)).length =
      frame_total_size payload_size := by
    rw [List.length_take, min_eq_left hl]
  have hpeek : frame_peek_size (data.take (frame_total_size payload_size)) = .ok payload_size := by
    cases hp : frame_peek_size (data.take (frame_total_size payload_size)) with
    | ok n =>
      have := frame_peek_size_append (data.drop (frame_total_size payload_size)) hp (by simp)
      rw [hsplit, h] at this
      exact this.symm
    | error e =>
      by_cases he : e = .needMore
      · subst he
        rw [frame_peek_size] at hp
        have h11 : ¬ (data.take (frame_total_size payload_size)).length < FRAME_HEADER_SIZE := by
          rw [htake]
          change ¬ 16 + payload_size.toNat < 11
          omega
        rw [if_neg h11] at hp
        dsimp only at hp
        split_ifs at hp <;> cases hp
      · have := frame_peek_size_append (data.drop (frame_total_size payload_size)) hp
          (by simpa using he)
        rw [hsplit, h] at this
        cases this
  have hne : frame_parse (data.take (frame_total_size payload_size)) skip_crc ≠
      .error .needMore := by
    rw [frame_parse, hpeek]
    dsimp only
    rw [if_neg (by omega)]
    split_ifs <;> simp
  have := frame_parse_append (data.drop (frame_total_size payload_size)) rfl hne
  rw [hsplit] at this
  exact this.symm

def frame_consumed (frame : Frame) : ℕ := FRAME_MIN_SIZE + frame.payload_size

/-- What the part of a feed behind the append does with a text. -/
inductive Scanned (buffer_size : ℕ) (text : Bytes) (pool : Option MemoryPool) :
    StreamState × StreamParser × Option MemoryPool → Prop
  | message {parsed frame sp' pool'} (parse : frame_parse text false = .ok parsed)
      (copied : Copied parsed (parsed.read text none) pool frame pool')
      (left : sp'.text = text.drop (frame_consumed parsed)) (expected : sp'.expected = 0) :
      Scanned buffer_size text pool (.frameComplete frame, sp', pool')
  | waiting {sp'} (parse : frame_parse text false = .error .needMore) (left : sp'.text = text) :
      Scanned buffer_size text pool (.needMoreData, sp', pool)
  | refused {e sp'} (parse : frame_parse text false = .error e) (real : e ≠ .needMore)
      (left : sp'.text = text) : Scanned buffer_size text pool (.error, sp', pool)
  | oversized {payload_size sp'} (peek : frame_peek_size text = .ok payload_size)
      (large : buffer_size < frame_total_size payload_size) (left : sp'.text = text) :
      Scanned buffer_size text pool (.error, sp', pool)

theorem take_spec (h : sp.Holds) (he : sp.expected ≠ 0) :
    (stream_parser_take sp pool).2.1.Holds ∧
      (stream_parser_take sp pool).2.1.buffer_size = sp.buffer_size ∧
      Scanned sp.buffer_size sp.text pool (stream_parser_take sp pool) := by
  obtain ⟨payload_size, hpeek, hexp⟩ := h.cached he
  have hlen := text_length h
  have hsize := h.size
  have hbuf := h.buffered_le
  rw [stream_parser_take]
  by_cases hlt : sp.buffered < sp.expected
  · rw [if_pos hlt]
    refine ⟨h, rfl, .waiting ?_ rfl⟩
    rw [frame_parse, hpeek]
    dsimp only
    rw [if_pos (by omega)]
  rw [if_neg hlt]
  have htake := frame_parse_take hpeek false (by omega)
  rw [← hexp, StreamParser.text, List.take_take, min_eq_left (by omega)] at htake
  cases hparse : frame_parse sp.text false with
  | error e =>
    rw [frame_parse_copy_error (htake.trans hparse)]
    refine ⟨⟨hsize, hbuf, h.cached⟩, rfl, .refused hparse ?_ rfl⟩
    rintro rfl
    rw [frame_parse, hpeek] at hparse
    dsimp only at hparse
    rw [if_neg (by omega)] at hparse
    split_ifs at hparse <;> cases hparse
  | ok parsed =>
    obtain ⟨payload_size', hpeek', hl, hps, hpayload⟩ := frame_parse_ok hparse
    rw [hpeek] at hpeek'
    cases hpeek'
    obtain ⟨frame, pool', hcopy, hcopied⟩ := frame_parse_copy_ok pool (htake.trans hparse)
    have hread : parsed.read (sp.buffer.take sp.expected) none = parsed.read sp.text none := by
      have h16 : sp.expected = 16 + payload_size.toNat := hexp
      rw [frame_read_input hpayload, frame_read_input hpayload, StreamParser.text,
        view_take (by omega), view_take (by omega)]
    rw [hread] at hcopied
    have hrest : sp.text.drop (frame_consumed parsed) =
        view sp.buffer sp.expected (sp.buffered - sp.expected) := by
      rw [StreamParser.text, List.drop_take, view, frame_consumed, hps, hexp]
      rfl
    have hrl : (view sp.buffer sp.expected (sp.buffered - sp.expected)).length =
        sp.buffered - sp.expected := length_view (by omega)
    rw [hcopy]
    dsimp only
    by_cases hr : 0 < sp.buffered - sp.expected
    · rw [if_pos hr]
      refine ⟨⟨?_, ?_, fun h0 => absurd rfl h0⟩, rfl, .message hparse hcopied ?_ rfl⟩
      · exact (length_overwrite (by omega)).trans hsize
      · dsimp only
        omega
      · rw [hrest, StreamParser.text]
        have := take_overwrite_zero sp.buffer
          (view sp.buffer sp.expected (sp.buffered - sp.expected))
        rwa [hrl] at this
    · rw [if_neg hr]
      refine ⟨⟨hsize, ?_, fun h0 => absurd rfl h0⟩, rfl, .message hparse hcopied ?_ rfl⟩
      · dsimp only
        omega
      · rw [hrest, StreamParser.text, show sp.buffered - sp.expected = 0 by omega, view_zero,
          List.take_zero]

theorem scan_spec (h : sp.Holds) (pool : Option MemoryPool) :
    (stream_parser_scan sp pool).2.1.Holds ∧
      (stream_parser_scan sp pool).2.1.buffer_size = sp.buffer_size ∧
      Scanned sp.buffer_size sp.text pool (stream_parser_scan sp pool) := by
  rw [stream_parser_scan]
  by_cases he : sp.expected = 0
  · rw [if_pos he]
    have hcached : ∀ {sp' : StreamParser}, sp'.expected = sp.expected → sp'.expected ≠ 0 →
        ∃ payload_size, frame_peek_size sp'.text = .ok payload_size ∧
          sp'.expected = frame_total_size payload_size := fun hs h0 => absurd (hs.trans he) h0
    cases hpeek : frame_peek_size (sp.buffer.take sp.buffered) with
    | error e =>
      have hparse : frame_parse sp.text false = .error e := by
        rw [frame_parse, StreamParser.text, hpeek]
      cases e with
      | needMore => exact ⟨h, rfl, .waiting hparse rfl⟩
      | ok => exact ⟨⟨h.size, h.buffered_le, hcached rfl⟩, rfl, .refused hparse (by decide) rfl⟩
      | invalidHead =>
        exact ⟨⟨h.size, h.buffered_le, hcached rfl⟩, rfl, .refused hparse (by decide) rfl⟩
      | invalidTail =>
        exact ⟨⟨h.size, h.buffered_le, hcached rfl⟩, rfl, .refused hparse (by decide) rfl⟩
      | invalidSize =>
        exact ⟨⟨h.size, h.buffered_le, hcached rfl⟩, rfl, .refused hparse (by decide) rfl⟩
      | crcMismatch =>
        exact ⟨⟨h.size, h.buffered_le, hcached rfl⟩, rfl, .refused hparse (by decide) rfl⟩
    | ok payload_size =>
      have h' : ({ sp with expected := frame_total_size payload_size } : StreamParser).Holds :=
        ⟨h.size, h.buffered_le, fun _ => ⟨payload_size, hpeek, rfl⟩⟩
      dsimp only
      by_cases hlarge : sp.buffer_size < frame_total_size payload_size
      · rw [if_pos hlarge]
        exact ⟨⟨h'.size, h'.buffered_le, h'.cached⟩, rfl, .oversized hpeek hlarge rfl⟩
      · rw [if_neg hlarge]
        refine take_spec h' ?_
        change 16 + payload_size.toNat ≠ 0
        omega
  · rw [if_neg he]
    exact take_spec h he

/-- Everything that a feed can do. -/
inductive Fed (sp : StreamParser) (data : Span UInt8) (pool : Option MemoryPool) :
    StreamState × StreamParser × Option MemoryPool → Prop
  | null {sp'} (null : data.isNull) (left : sp'.text = sp.text) :
      Fed sp data pool (.error, sp', pool)
  | full {sp'} (room : sp.buffer_size < sp.buffered + data.size) (left : sp'.text = sp.text) :
      Fed sp data pool (.error, sp', pool)
  | scanned {out} (here : ¬ data.isNull) (room : sp.buffered + data.size ≤ sp.buffer_size)
      (h : Scanned sp.buffer_size (sp.text ++ data.data) pool out) : Fed sp data pool out

theorem feed_spec (h : sp.Holds) (data : Span UInt8) (pool : Option MemoryPool) :
    (stream_parser_feed sp data pool).2.1.Holds ∧
      (stream_parser_feed sp data pool).2.1.buffer_size = sp.buffer_size ∧
      Fed sp data pool (stream_parser_feed sp data pool) := by
  rw [stream_parser_feed]
  by_cases hnull : data.isNull
  · rw [if_pos hnull]
    exact ⟨h, rfl, .null hnull rfl⟩
  rw [if_neg hnull]
  by_cases hfull : sp.buffer_size < sp.buffered + data.size
  · rw [if_pos hfull]
    exact ⟨⟨h.size, h.buffered_le, h.cached⟩, rfl, .full hfull rfl⟩
  rw [if_neg hfull]
  have hsize := h.size
  cases data with
  | null n => exact absurd rfl hnull
  | cells d =>
    have hd : sp.buffered + d.length ≤ sp.buffer_size := Nat.le_of_not_lt hfull
    have htext : (overwrite sp.buffer sp.buffered d).take (sp.buffered + d.length) =
        sp.text ++ d := take_overwrite (by omega)
    have h' : ({ sp with
        buffer := overwrite sp.buffer sp.buffered d
        buffered := sp.buffered + d.length } : StreamParser).Holds := by
      refine ⟨(length_overwrite (by omega)).trans hsize, ?_, fun h0 => ?_⟩
      · dsimp only
        omega
      · obtain ⟨payload_size, hpeek, hexp⟩ := h.cached h0
        refine ⟨payload_size, ?_, hexp⟩
        have := frame_peek_size_append d hpeek (by simp)
        rwa [← htext] at this
    obtain ⟨hs, hb, hscan⟩ := scan_spec h' pool
    refine ⟨hs, hb, .scanned hnull (Nat.le_of_not_lt hfull) ?_⟩
    rw [StreamParser.text, htext] at hscan
    exact hscan

end SaltsUtils.Tlv
