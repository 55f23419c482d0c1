import SaltsUtils.Library.Framing
import SaltsUtils.Modbus.Adu

/-!
# The Modbus stream

`modbus_stream_t` and its functions.
-/

set_option autoImplicit false

namespace SaltsUtils.Modbus

inductive ModbusTransport
  | tcp
  | rtu
deriving DecidableEq

structure ModbusStream where
  transport : ModbusTransport
  buffer : Bytes
  buffer_size : ℕ
  buffered : ℕ := 0
  expected : ℕ := 0
deriving DecidableEq

/-- The cells of a new buffer hold anything. -/
def modbus_stream_create (transport : ModbusTransport) (buffer_size : ℕ) (fresh : ℕ → UInt8) :
    ModbusStream :=
  let buffer_size := if buffer_size = 0 then MODBUS_TCP_MAX_ADU_SIZE else buffer_size
  { transport := transport
    buffer := (List.range buffer_size).map fresh
    buffer_size := buffer_size }

def modbus_stream_boundary (s : ModbusStream) (len : ℕ) :
    Except ModbusParseResult ModbusAdu × ModbusStream :=
  if 0 < len then (.error .needMore, s)
  else if s.buffered = 0 then (.error .needMore, s)
  else
    match modbus_rtu_parse (s.buffer.take s.buffered) with
    | .error result => (.error result, s)
    | .ok frame => (.ok (.rtu frame), { s with buffered := 0, expected := 0 })

/-- The end of the TCP branch, once the size of the unit is known. -/
def modbus_stream_take (s : ModbusStream) : Except ModbusParseResult ModbusAdu × ModbusStream :=
  if s.buffered < s.expected then (.error .needMore, s)
  else
    match modbus_tcp_parse (s.buffer.take s.expected) with
    | .error result => (.error result, s)
    | .ok frame =>
      let remaining := s.buffered - s.expected
      (.ok (.tcp frame),
        { s with
          buffer :=
            if 0 < remaining then overwrite s.buffer 0 (view s.buffer s.expected remaining)
            else s.buffer
          buffered := remaining
          expected := 0 })

def modbus_stream_scan (s : ModbusStream) : Except ModbusParseResult ModbusAdu × ModbusStream :=
  if s.expected = 0 then
    match modbus_tcp_peek_size (s.buffer.take s.buffered) with
    | .error peek => (.error peek, s)
    | .ok expected =>
      if s.buffer_size < expected then (.error .bufferOverflow, s)
      else modbus_stream_take { s with expected := expected }
  else modbus_stream_take s

def modbus_stream_feed (s : ModbusStream) (data : Span UInt8) :
    Except ModbusParseResult ModbusAdu × ModbusStream :=
  if 0 < data.size ∧ data.isNull then (.error .invalidInput, s)
  else if s.buffer_size < s.buffered + data.size then (.error .bufferOverflow, s)
  else
    let s :=
      if 0 < data.size then
        { s with
          buffer := overwrite s.buffer s.buffered data.data
          buffered := s.buffered + data.size }
      else s
    match s.transport with
    | .rtu => modbus_stream_boundary s data.size
    | .tcp => modbus_stream_scan s

def ModbusStream.text (s : ModbusStream) : Bytes := s.buffer.take s.buffered

structure ModbusStream.Holds (s : ModbusStream) : Prop where
  transport : s.transport = .tcp
  size : s.buffer.length = s.buffer_size
  buffered_le : s.buffered ≤ s.buffer_size
  cached : s.expected ≠ 0 → modbus_tcp_peek_size s.text = .ok s.expected

variable {s : ModbusStream}

theorem create_holds (buffer_size : ℕ) (fresh : ℕ → UInt8) :
    (modbus_stream_create .tcp buffer_size fresh).Holds := by
  constructor <;> simp [modbus_stream_create]

@[simp] theorem create_text (transport : ModbusTransport) (buffer_size : ℕ) (fresh : ℕ → UInt8) :
    (modbus_stream_create transport buffer_size fresh).text = [] := by
  simp [ModbusStream.text, modbus_stream_create]

theorem text_length (h : s.Holds) : s.text.length = s.buffered := by
  have := h.size
  have := h.buffered_le
  rw [ModbusStream.text, List.length_take]
  omega

/-- A unit with its data as the text has it. -/
abbrev Letter := ModbusTcpAdu × Bytes

def ModbusTcpAdu.letter (adu : ModbusTcpAdu) (memory : Bytes) : Letter := (adu, adu.pdu.read memory)

def modbus_tcp_verdict (data : Bytes) : Verdict Letter :=
  match modbus_tcp_parse data with
  | .ok adu => .message (adu.letter data) adu.consumed
  | .error .needMore => .more
  | .error _ => .refused

variable {data : Bytes}

theorem modbus_tcp_verdict_message {l : Letter} {n : ℕ} : modbus_tcp_verdict data = .message l n ↔
      ∃ adu, modbus_tcp_parse data = .ok adu ∧ adu.letter data = l ∧ adu.consumed = n := by
  rw [modbus_tcp_verdict]
  cases modbus_tcp_parse data with
  | ok adu => simp
  | error e => cases e <;> simp

theorem letter_append {adu : ModbusTcpAdu} (after : Bytes) (h : modbus_tcp_parse data = .ok adu) :
    adu.letter (data ++ after) = adu.letter data := by
  obtain ⟨-, hl, hd, hc⟩ := modbus_tcp_parse_ok h
  rw [ModbusTcpAdu.letter, ModbusTcpAdu.letter, modbus_pdu_read hd, modbus_pdu_read hd, view, view,
    List.drop_append_of_le_length (by omega),
    List.take_append_of_le_length (by rw [List.length_drop]; omega)]

def modbus_tcp_framing : Framing UInt8 Letter where
  verdict := modbus_tcp_verdict
  size_pos h := by
    obtain ⟨adu, hp, -, rfl⟩ := modbus_tcp_verdict_message.mp h
    have := (modbus_tcp_parse_ok hp).2.2.2
    omega
  size_le h := by
    obtain ⟨adu, hp, -, rfl⟩ := modbus_tcp_verdict_message.mp h
    exact (modbus_tcp_parse_ok hp).2.1
  message_append after h := by
    obtain ⟨adu, hp, rfl, rfl⟩ := modbus_tcp_verdict_message.mp h
    exact modbus_tcp_verdict_message.mpr
      ⟨adu, modbus_tcp_parse_append after hp (by simp), letter_append after hp, rfl⟩
  refused_append {data} after h := by
    rw [modbus_tcp_verdict] at h ⊢
    cases hp : modbus_tcp_parse data with
    | ok adu => simp [hp] at h
    | error e =>
      have he : e ≠ .needMore := by
        rintro rfl
        simp [hp] at h
      rw [modbus_tcp_parse_append after hp (by simpa using he)]
      cases e <;> simp at he ⊢

theorem stuck_of_parse {e : ModbusParseResult} (h : modbus_tcp_parse data = .error e) :
    modbus_tcp_framing.Stuck data := by
  intro l n hv
  obtain ⟨adu, hp, -⟩ := modbus_tcp_verdict_message.mp hv
  rw [h] at hp
  cases hp

theorem modbus_tcp_verdict_wire {u : TcpUnit} (h : u.Valid) (after : Bytes) :
    modbus_tcp_framing.verdict (u.wire ++ after) = .message (u.adu, u.data) u.wire.length := by
  obtain ⟨hp, hr⟩ := modbus_tcp_parse_wire h after
  refine modbus_tcp_verdict_message.mpr ⟨u.adu, hp, ?_, ?_⟩
  · rw [ModbusTcpAdu.letter, hr]
  · rw [TcpUnit.wire_length]
    rfl

theorem modbus_tcp_parse_take {total : ℕ} (h : modbus_tcp_peek_size data = .ok total)
    (hl : total ≤ data.length) :
    ∃ adu, modbus_tcp_parse (data.take total) = .ok adu ∧ modbus_tcp_parse data = .ok adu ∧
      adu.consumed = total := by
  obtain ⟨h7, ht, h8, -⟩ := modbus_tcp_peek_size_ok h
  have hsplit := List.take_append_drop total data
  have htake : (data.take total).length = total := by
    rw [List.length_take]
    omega
  have hpeek : modbus_tcp_peek_size (data.take total) = .ok total := by
    cases hp : modbus_tcp_peek_size (data.take total) with
    | ok n =>
      have := modbus_tcp_peek_size_append (data.drop total) hp (by simp)
      rw [hsplit, h] at this
      exact this.symm
    | error e =>
      by_cases he : e = .needMore
      · subst he
        rw [modbus_tcp_peek_size] at hp
        have h7' : ¬ (data.take total).length < MODBUS_TCP_MBAP_SIZE := by
          change ¬ (data.take total).length < 7
          omega
        rw [if_neg h7'] at hp
        dsimp only at hp
        split_ifs at hp <;> cases hp
      · have := modbus_tcp_peek_size_append (data.drop total) hp (by simpa using he)
        rw [hsplit, h] at this
        cases this
  cases hm : modbus_tcp_parse (data.take total) with
  | error e =>
    rw [modbus_tcp_parse, hpeek] at hm
    dsimp only at hm
    rw [if_neg (by omega)] at hm
    cases hm
  | ok adu =>
    have hm' := modbus_tcp_parse_append (data.drop total) hm (by simp)
    rw [hsplit] at hm'
    have hc := (modbus_tcp_parse_ok hm').1
    rw [h] at hc
    cases hc
    exact ⟨adu, rfl, hm', rfl⟩

/-- The answer of the TCP branch to the text of the buffer, and what the buffer shows after it
where the data of a unit was. -/
inductive Scanned (text : Bytes) : Except ModbusParseResult ModbusAdu × ModbusStream → Prop
  | message {adu s'} (parsed : modbus_tcp_parse text = .ok adu)
      (left : s'.text = text.drop adu.consumed)
      (shown : adu.pdu.read s'.buffer = adu.pdu.read text ↔
        ((text.drop adu.consumed).drop 8).take adu.pdu.data_size <+: adu.pdu.read text) :
      Scanned text (.ok (.tcp adu), s')
  | waiting {e s'} (parsed : modbus_tcp_parse text = .error e) (left : s'.text = text) :
      Scanned text (.error e, s')
  | oversized {s'} : Scanned text (.error .bufferOverflow, s')

theorem take_spec (h : s.Holds) (he : s.expected ≠ 0) :
    (modbus_stream_take s).2.Holds ∧ Scanned s.text (modbus_stream_take s) := by
  have hpeek := h.cached he
  have hlen := text_length h
  have hsize := h.size
  have hbuf := h.buffered_le
  rw [modbus_stream_take]
  by_cases hlt : s.buffered < s.expected
  · rw [if_pos hlt]
    refine ⟨h, .waiting ?_ rfl⟩
    rw [modbus_tcp_parse, hpeek]
    dsimp only
    rw [if_pos (by omega)]
  rw [if_neg hlt]
  obtain ⟨adu, htake, hparse, hc⟩ := modbus_tcp_parse_take hpeek (by omega)
  rw [ModbusStream.text, List.take_take, min_eq_left (by omega)] at htake
  rw [htake]
  dsimp only
  obtain ⟨-, hcl, hd, hds⟩ := modbus_tcp_parse_ok hparse
  have hrest : s.text.drop adu.consumed = view s.buffer s.expected (s.buffered - s.expected) := by
    rw [ModbusStream.text, List.drop_take, view, hc]
  have hrl : (view s.buffer s.expected (s.buffered - s.expected)).length =
      s.buffered - s.expected := length_view (by omega)
  have hmove : ∀ buffer', buffer' = (if 0 < s.buffered - s.expected then
        overwrite s.buffer 0 (view s.buffer s.expected (s.buffered - s.expected))
      else s.buffer) →
      buffer' = overwrite s.buffer 0 (view s.buffer s.expected (s.buffered - s.expected)) := by
    rintro _ rfl
    by_cases hr : 0 < s.buffered - s.expected
    · rw [if_pos hr]
    · rw [if_neg hr, show s.buffered - s.expected = 0 by omega, view_zero, overwrite_nil]
  generalize hb : (if 0 < s.buffered - s.expected then
        overwrite s.buffer 0 (view s.buffer s.expected (s.buffered - s.expected))
      else s.buffer) = buffer'
  obtain rfl := hmove buffer' hb.symm
  refine ⟨⟨h.transport, ?_, ?_, fun h0 => absurd rfl h0⟩, .message hparse ?_ ?_⟩
  · exact (length_overwrite (by omega)).trans hsize
  · dsimp only
    omega
  · rw [hrest, ModbusStream.text]
    have := take_overwrite_zero s.buffer
      (view s.buffer s.expected (s.buffered - s.expected))
    rwa [hrl] at this
  · have hview : view s.text 8 adu.pdu.data_size = view s.buffer 8 adu.pdu.data_size :=
      view_take (by omega)
    rw [modbus_pdu_read hd, modbus_pdu_read hd, hview, hrest]
    exact view_overwrite_zero_eq_iff (by omega)

theorem scan_spec (h : s.Holds) :
    (modbus_stream_scan s).2.Holds ∧ Scanned s.text (modbus_stream_scan s) := by
  rw [modbus_stream_scan]
  by_cases he : s.expected = 0
  · rw [if_pos he]
    cases hpeek : modbus_tcp_peek_size (s.buffer.take s.buffered) with
    | error e =>
      refine ⟨h, .waiting ?_ rfl⟩
      rw [ModbusStream.text, modbus_tcp_parse, hpeek]
    | ok total =>
      have hpos := modbus_tcp_peek_size_ok hpeek
      dsimp only
      by_cases hlarge : s.buffer_size < total
      · rw [if_pos hlarge]
        exact ⟨h, .oversized⟩
      · rw [if_neg hlarge]
        have h' : ({ s with expected := total } : ModbusStream).Holds :=
          ⟨h.transport, h.size, h.buffered_le, fun _ => hpeek⟩
        exact take_spec h' (by dsimp only; omega)
  · rw [if_neg he]
    exact take_spec h he

/-- Everything that a feed of a TCP stream can do. -/
inductive Fed (s : ModbusStream) (data : Span UInt8) :
    Except ModbusParseResult ModbusAdu × ModbusStream → Prop
  | null (null : data.isNull) (size : 0 < data.size) : Fed s data (.error .invalidInput, s)
  | full (room : s.buffer_size < s.buffered + data.size) : Fed s data (.error .bufferOverflow, s)
  | scanned {out} (h : Scanned (s.text ++ data.data) out) : Fed s data out

theorem feed_spec (h : s.Holds) (data : Span UInt8) :
    (modbus_stream_feed s data).2.Holds ∧ Fed s data (modbus_stream_feed s data) := by
  rw [modbus_stream_feed]
  by_cases hnull : 0 < data.size ∧ data.isNull
  · rw [if_pos hnull]
    exact ⟨h, .null hnull.2 hnull.1⟩
  rw [if_neg hnull]
  by_cases hfull : s.buffer_size < s.buffered + data.size
  · rw [if_pos hfull]
    exact ⟨h, .full hfull⟩
  rw [if_neg hfull]
  have hsize := h.size
  obtain ⟨s₁, hs₁, hh, ht⟩ : ∃ s₁, (if 0 < data.size then
        { s with
          buffer := overwrite s.buffer s.buffered data.data
          buffered := s.buffered + data.size }
      else s) = s₁ ∧ s₁.Holds ∧ s₁.text = s.text ++ data.data := by
    by_cases hpos : 0 < data.size
    · cases data with
      | null n => exact absurd ⟨hpos, rfl⟩ hnull
      | cells d =>
        rw [Span.size_cells] at hpos hfull
        have htext : (overwrite s.buffer s.buffered d).take (s.buffered + d.length) =
            s.text ++ d := take_overwrite (by omega)
        rw [if_pos (by exact hpos)]
        refine ⟨_, rfl, ⟨h.transport, ?_, ?_, fun h0 => ?_⟩, htext⟩
        · exact (length_overwrite (by rw [Span.data_cells]; omega)).trans hsize
        · dsimp only [Span.size_cells]
          omega
        · have := modbus_tcp_peek_size_append d (h.cached h0) (by simp)
          rwa [← htext] at this
    · rw [if_neg hpos]
      refine ⟨s, rfl, h, ?_⟩
      have := data.data_length_le
      rw [List.eq_nil_of_length_eq_zero (show data.data.length = 0 by omega), List.append_nil]
  dsimp only
  rw [hs₁, hh.transport]
  obtain ⟨hs, hscan⟩ := scan_spec hh
  exact ⟨hs, .scanned (ht ▸ hscan)⟩

end SaltsUtils.Modbus
