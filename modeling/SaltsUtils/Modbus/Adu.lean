import Mathlib.Data.List.GetD
import SaltsUtils.Library.ByteBuffer

/-!
# Modbus application data units

The parsing and building functions of `src/parser/modbus_parser/src/modbus_parser.c`
for both transports. A pointer into an input is the offset it has there.
-/

set_option autoImplicit false

namespace SaltsUtils.Modbus

abbrev Bytes := List UInt8

def MODBUS_TCP_MBAP_SIZE : ℕ := 7
def MODBUS_TCP_MIN_ADU_SIZE : ℕ := 8
def MODBUS_TCP_MAX_ADU_SIZE : ℕ := 260
def MODBUS_MAX_PDU_SIZE : ℕ := 253
def MODBUS_RTU_MIN_ADU_SIZE : ℕ := 4
def MODBUS_RTU_MAX_ADU_SIZE : ℕ := 256

inductive ModbusParseResult
  | ok
  | needMore
  | invalidInput
  | invalidProtocol
  | invalidLength
  | crcMismatch
  | bufferOverflow
deriving DecidableEq

structure ModbusPdu where
  function_code : UInt8
  data : Option ℕ
  data_size : ℕ
deriving DecidableEq

/-- The `data_size` bytes that the data points at in a memory. -/
def ModbusPdu.read (pdu : ModbusPdu) (memory : Bytes) : Bytes :=
  match pdu.data with
  | none => []
  | some offset => view memory offset pdu.data_size

structure ModbusTcpAdu where
  transaction_id : UInt16
  protocol_id : UInt16
  length : UInt16
  unit_id : UInt8
  pdu : ModbusPdu
  consumed : ℕ
deriving DecidableEq

structure ModbusRtuAdu where
  address : UInt8
  pdu : ModbusPdu
  crc : UInt16
  consumed : ℕ
deriving DecidableEq

inductive ModbusAdu
  | tcp (frame : ModbusTcpAdu)
  | rtu (frame : ModbusRtuAdu)
deriving DecidableEq

def read_be16 (data : Bytes) (offset : ℕ) : UInt16 :=
  (data.getD offset 0).toUInt16 <<< 8 ||| (data.getD (offset + 1) 0).toUInt16

def write_be16 (value : UInt16) : Bytes := [(value >>> 8).toUInt8, value.toUInt8]

def modbus_pdu_size_valid (data_size : ℕ) : Bool := decide (data_size ≤ MODBUS_MAX_PDU_SIZE - 1)

def modbus_tcp_peek_size (data : Bytes) : Except ModbusParseResult ℕ :=
  if data.length < MODBUS_TCP_MBAP_SIZE then .error .needMore
  else if read_be16 data 2 ≠ 0 then .error .invalidProtocol
  else
    let length := read_be16 data 4
    if length < 2 ∨ MODBUS_MAX_PDU_SIZE + 1 < length.toNat then .error .invalidLength
    else .ok (6 + length.toNat)

def modbus_tcp_parse (data : Bytes) : Except ModbusParseResult ModbusTcpAdu :=
  match modbus_tcp_peek_size data with
  | .error peek => .error peek
  | .ok total =>
    if data.length < total then .error .needMore
    else
      let length := read_be16 data 4
      let pdu_size := length.toNat - 1
      let data_size := pdu_size - 1
      .ok
        { transaction_id := read_be16 data 0
          protocol_id := read_be16 data 2
          length := length
          unit_id := data.getD 6 0
          pdu :=
            { function_code := data.getD 7 0
              data := if 0 < data_size then some 8 else none
              data_size := data_size }
          consumed := total }

/-- What is returned, and the output buffer afterwards. -/
def modbus_tcp_build (transaction_id : UInt16) (unit_id function_code : UInt8)
    (pdu_data out : Span UInt8) : ℕ × Bytes :=
  if out.isNull ∨ ¬ modbus_pdu_size_valid pdu_data.size then (0, out.data)
  else if 0 < pdu_data.size ∧ pdu_data.isNull then (0, out.data)
  else
    let total := MODBUS_TCP_MIN_ADU_SIZE + pdu_data.size
    if out.size < total then (0, out.data)
    else
      let out := overwrite out.data 0 (write_be16 transaction_id)
      let out := overwrite out 2 (write_be16 0)
      let out := overwrite out 4 (write_be16 (2 + pdu_data.size).toUInt16)
      let out := overwrite out 6 [unit_id]
      let out := overwrite out 7 [function_code]
      (total, overwrite out 8 pdu_data.data)

def modbus_rtu_crc16_bit (crc : UInt16) : UInt16 :=
  if crc &&& 0x0001 ≠ 0 then (crc >>> 1) ^^^ 0xA001 else crc >>> 1

def modbus_rtu_crc16_byte (crc : UInt16) (byte : UInt8) : UInt16 :=
  modbus_rtu_crc16_bit^[8] (crc ^^^ byte.toUInt16)

def modbus_rtu_crc16 (data : Bytes) : UInt16 := data.foldl modbus_rtu_crc16_byte 0xFFFF

def modbus_rtu_parse (data : Bytes) : Except ModbusParseResult ModbusRtuAdu :=
  if data.length < MODBUS_RTU_MIN_ADU_SIZE then .error .needMore
  else if MODBUS_RTU_MAX_ADU_SIZE < data.length then .error .invalidLength
  else
    let expected := modbus_rtu_crc16 (data.take (data.length - 2))
    let wire_crc := (data.getD (data.length - 2) 0).toUInt16 |||
      (data.getD (data.length - 1) 0).toUInt16 <<< 8
    if expected ≠ wire_crc then .error .crcMismatch
    else
      let data_size := data.length - 4
      .ok
        { address := data.getD 0 0
          pdu :=
            { function_code := data.getD 1 0
              data := if 0 < data_size then some 2 else none
              data_size := data_size }
          crc := wire_crc
          consumed := data.length }

/-- What is returned, and the output buffer afterwards. -/
def modbus_rtu_build (address function_code : UInt8) (pdu_data out : Span UInt8) : ℕ × Bytes :=
  if out.isNull ∨ ¬ modbus_pdu_size_valid pdu_data.size then (0, out.data)
  else if 0 < pdu_data.size ∧ pdu_data.isNull then (0, out.data)
  else
    let total := MODBUS_RTU_MIN_ADU_SIZE + pdu_data.size
    if out.size < total then (0, out.data)
    else
      let out := overwrite out.data 0 [address]
      let out := overwrite out 1 [function_code]
      let out := overwrite out 2 pdu_data.data
      let crc := modbus_rtu_crc16 (out.take (total - 2))
      let out := overwrite out (total - 2) [crc.toUInt8]
      (total, overwrite out (total - 1) [(crc >>> 8).toUInt8])

/-- The data of a unit as it is handed on, given the memory it points into. -/
def ModbusPdu.span (pdu : ModbusPdu) (memory : Bytes) : Span UInt8 :=
  match pdu.data with
  | none => .null pdu.data_size
  | some offset => .cells (view memory offset pdu.data_size)

def modbus_rtu_write (adu : ModbusRtuAdu) (memory : Bytes) (out : Span UInt8) : ℕ × Bytes :=
  modbus_rtu_build adu.address adu.pdu.function_code (adu.pdu.span memory) out

theorem read_be16_append {data : Bytes} {offset : ℕ} (after : Bytes)
    (h : offset + 1 < data.length) : read_be16 (data ++ after) offset = read_be16 data offset := by
  rw [read_be16, read_be16, List.getD_append _ _ _ _ (by omega), List.getD_append _ _ _ _ h]

theorem read_write_be16 (value : UInt16) (before after : Bytes) :
    read_be16 (before ++ write_be16 value ++ after) before.length = value := by
  have h0 : (before ++ write_be16 value ++ after).getD before.length 0 =
      (value >>> 8).toUInt8 := by
    simp [write_be16]
  have h1 : (before ++ write_be16 value ++ after).getD (before.length + 1) 0 = value.toUInt8 := by
    simp [write_be16]
  rw [read_be16, h0, h1]
  apply UInt16.toNat_inj.mp
  have hv := value.toNat_lt
  have hs : (value >>> 8).toUInt8.toNat = value.toNat / 256 := by
    rw [UInt16.toNat_toUInt8, UInt16.toNat_shiftRight]
    simp only [UInt16.reduceToNat, Nat.reduceMod, Nat.shiftRight_eq_div_pow]
    omega
  have hl : value.toUInt8.toNat = value.toNat % 2 ^ 8 := UInt16.toNat_toUInt8 value
  rw [UInt16.toNat_or, UInt16.toNat_shiftLeft, UInt8.toNat_toUInt16, UInt8.toNat_toUInt16, hs, hl]
  simp only [UInt16.reduceToNat, Nat.reduceMod, Nat.shiftLeft_eq]
  rw [Nat.mod_eq_of_lt (by omega), mul_comm,
    ← Nat.two_pow_add_eq_or_of_lt (Nat.mod_lt _ (by decide))]
  omega

structure TcpUnit where
  transaction_id : UInt16
  unit_id : UInt8
  function_code : UInt8
  data : Bytes
deriving DecidableEq

def TcpUnit.Valid (u : TcpUnit) : Prop := u.data.length ≤ MODBUS_MAX_PDU_SIZE - 1

instance (u : TcpUnit) : Decidable u.Valid := by
  unfold TcpUnit.Valid
  infer_instance

def TcpUnit.header (u : TcpUnit) : Bytes :=
  write_be16 u.transaction_id ++ write_be16 0 ++ write_be16 (2 + u.data.length).toUInt16 ++
    [u.unit_id, u.function_code]

def TcpUnit.wire (u : TcpUnit) : Bytes := u.header ++ u.data

def TcpUnit.adu (u : TcpUnit) : ModbusTcpAdu where
  transaction_id := u.transaction_id
  protocol_id := 0
  length := (2 + u.data.length).toUInt16
  unit_id := u.unit_id
  pdu :=
    { function_code := u.function_code
      data := if 0 < u.data.length then some 8 else none
      data_size := u.data.length }
  consumed := 8 + u.data.length

theorem TcpUnit.header_length (u : TcpUnit) : u.header.length = 8 := rfl

theorem TcpUnit.wire_length (u : TcpUnit) : u.wire.length = 8 + u.data.length := by
  rw [wire, List.length_append, header_length]

theorem TcpUnit.read_length {u : TcpUnit} (h : u.Valid) :
    (2 + u.data.length).toUInt16.toNat = 2 + u.data.length := by
  have hm : MODBUS_MAX_PDU_SIZE - 1 = 252 := rfl
  rw [TcpUnit.Valid, hm] at h
  exact UInt16.toNat_ofNat_of_lt' (show 2 + u.data.length < 2 ^ 16 by omega)

theorem modbus_tcp_build_eq {u : TcpUnit} {pdu_data : Span UInt8} {out : Bytes} (h : u.Valid)
    (hd : pdu_data.data = u.data) (hs : pdu_data.size = u.data.length)
    (ho : u.wire.length ≤ out.length) :
    modbus_tcp_build u.transaction_id u.unit_id u.function_code pdu_data (.cells out) =
      (u.wire.length, u.wire ++ out.drop u.wire.length) := by
  rw [TcpUnit.wire_length] at ho
  have hvalid : ¬ ((Span.cells out).isNull ∨ ¬ modbus_pdu_size_valid pdu_data.size) := by
    rw [hs]
    simpa [modbus_pdu_size_valid, TcpUnit.Valid] using h
  have hdata : ¬ (0 < pdu_data.size ∧ pdu_data.isNull) := by
    rintro ⟨hp, hn⟩
    cases pdu_data with
    | null n =>
      rw [← hd] at hs
      simp only [Span.size_null, Span.data_null, List.length_nil] at hs hp
      omega
    | cells d => cases hn
  obtain ⟨head, rest, rfl, hhead⟩ : ∃ head rest, out = head ++ rest ∧ head.length = 8 :=
    ⟨out.take 8, out.drop 8, (List.take_append_drop 8 out).symm, by simp; omega⟩
  obtain ⟨b0, b1, b2, b3, b4, b5, b6, b7, rfl⟩ :
      ∃ b0 b1 b2 b3 b4 b5 b6 b7, head = [b0, b1, b2, b3, b4, b5, b6, b7] :=
    match head, hhead with
    | [b0, b1, b2, b3, b4, b5, b6, b7], _ => ⟨b0, b1, b2, b3, b4, b5, b6, b7, rfl⟩
  rw [modbus_tcp_build, if_neg hvalid, if_neg hdata]
  rw [if_neg (by
    simp only [Span.size_cells, MODBUS_TCP_MIN_ADU_SIZE, hs]
    omega), hd, hs, TcpUnit.wire_length, TcpUnit.wire]
  simp [overwrite, write_be16, TcpUnit.header, MODBUS_TCP_MIN_ADU_SIZE, Nat.add_comm 8]

theorem modbus_tcp_peek_size_append {data : Bytes} {r : Except ModbusParseResult ℕ}
    (after : Bytes) (h : modbus_tcp_peek_size data = r) (hr : r ≠ .error .needMore) :
    modbus_tcp_peek_size (data ++ after) = r := by
  have h7 : ¬ data.length < MODBUS_TCP_MBAP_SIZE := by
    intro hlt
    rw [modbus_tcp_peek_size, if_pos hlt] at h
    exact hr h.symm
  have h7' : ¬ (data ++ after).length < MODBUS_TCP_MBAP_SIZE := by
    rw [List.length_append]
    omega
  have h7n : 7 ≤ data.length := Nat.le_of_not_lt h7
  rw [modbus_tcp_peek_size, if_neg h7] at h
  rw [modbus_tcp_peek_size, if_neg h7', read_be16_append after (by omega),
    read_be16_append after (by omega)]
  exact h

theorem modbus_tcp_peek_size_ok {data : Bytes} {total : ℕ}
    (h : modbus_tcp_peek_size data = .ok total) :
    7 ≤ data.length ∧ total = 6 + (read_be16 data 4).toNat ∧ 8 ≤ total ∧ total ≤ 260 := by
  rw [modbus_tcp_peek_size] at h
  dsimp only at h
  split_ifs at h with h7 hp hl
  cases h
  change ¬ data.length < 7 at h7
  have h2 : ¬ (read_be16 data 4).toNat < 2 := fun hlt =>
    hl (.inl (UInt16.lt_iff_toNat_lt.mpr hlt))
  have h254 : ¬ 254 < (read_be16 data 4).toNat := fun hlt => hl (.inr hlt)
  omega

theorem modbus_tcp_parse_ok {data : Bytes} {adu : ModbusTcpAdu}
    (h : modbus_tcp_parse data = .ok adu) :
    modbus_tcp_peek_size data = .ok adu.consumed ∧ adu.consumed ≤ data.length ∧
      adu.pdu.data = (if 0 < adu.pdu.data_size then some 8 else none) ∧
      adu.consumed = 8 + adu.pdu.data_size := by
  rw [modbus_tcp_parse] at h
  cases hp : modbus_tcp_peek_size data with
  | error e =>
    rw [hp] at h
    cases h
  | ok total =>
    rw [hp] at h
    dsimp only at h
    obtain ⟨-, ht, hlow, -⟩ := modbus_tcp_peek_size_ok hp
    by_cases hlt : data.length < total
    · rw [if_pos hlt] at h
      cases h
    · rw [if_neg hlt] at h
      cases h
      refine ⟨rfl, by simpa using hlt, rfl, ?_⟩
      dsimp only
      omega

theorem modbus_tcp_parse_append {data : Bytes} {r : Except ModbusParseResult ModbusTcpAdu}
    (after : Bytes) (h : modbus_tcp_parse data = r) (hr : r ≠ .error .needMore) :
    modbus_tcp_parse (data ++ after) = r := by
  rw [modbus_tcp_parse] at h
  cases hp : modbus_tcp_peek_size data with
  | error e =>
    rw [hp] at h
    subst h
    have he : (.error e : Except ModbusParseResult ℕ) ≠ .error .needMore := by simpa using hr
    rw [modbus_tcp_parse, modbus_tcp_peek_size_append after hp he]
  | ok total =>
    rw [hp] at h
    have h' : modbus_tcp_peek_size (data ++ after) = .ok total :=
      modbus_tcp_peek_size_append after hp (by simp)
    obtain ⟨h7, ht, hlow, -⟩ := modbus_tcp_peek_size_ok hp
    dsimp only at h
    by_cases hlt : data.length < total
    · rw [if_pos hlt] at h
      exact absurd h.symm hr
    · rw [if_neg hlt] at h
      rw [modbus_tcp_parse, h', ← h]
      dsimp only
      rw [if_neg (by rw [List.length_append]; omega), read_be16_append after (by omega),
        read_be16_append after (by omega), read_be16_append after (by omega),
        List.getD_append _ _ _ _ (by omega), List.getD_append _ _ _ _ (by omega)]

theorem modbus_pdu_read {pdu : ModbusPdu} {memory : Bytes}
    (h : pdu.data = (if 0 < pdu.data_size then some 8 else none)) :
    pdu.read memory = view memory 8 pdu.data_size := by
  rw [ModbusPdu.read, h]
  split_ifs with hp
  · rfl
  · rw [show pdu.data_size = 0 by omega, view_zero]

theorem modbus_tcp_parse_wire {u : TcpUnit} (h : u.Valid) (after : Bytes) :
    modbus_tcp_parse (u.wire ++ after) = .ok u.adu ∧
      u.adu.pdu.read (u.wire ++ after) = u.data := by
  have hl := TcpUnit.read_length h
  have hm : u.data.length ≤ 252 := h
  have hlen : (u.wire ++ after).length = 8 + u.data.length + after.length := by
    rw [List.length_append, TcpUnit.wire_length]
  have h0 : read_be16 (u.wire ++ after) 0 = u.transaction_id := by
    have := read_write_be16 u.transaction_id [] (write_be16 0 ++
      write_be16 (2 + u.data.length).toUInt16 ++ [u.unit_id, u.function_code] ++ u.data ++ after)
    simpa [TcpUnit.wire, TcpUnit.header] using this
  have h2 : read_be16 (u.wire ++ after) 2 = 0 := by
    have := read_write_be16 0 (write_be16 u.transaction_id)
      (write_be16 (2 + u.data.length).toUInt16 ++ [u.unit_id, u.function_code] ++ u.data ++ after)
    simpa [TcpUnit.wire, TcpUnit.header, write_be16] using this
  have h4 : read_be16 (u.wire ++ after) 4 = (2 + u.data.length).toUInt16 := by
    have := read_write_be16 (2 + u.data.length).toUInt16 (write_be16 u.transaction_id ++
      write_be16 0) ([u.unit_id, u.function_code] ++ u.data ++ after)
    simpa [TcpUnit.wire, TcpUnit.header, write_be16] using this
  have hpeek : modbus_tcp_peek_size (u.wire ++ after) = .ok (8 + u.data.length) := by
    have hmbap : ¬ (u.wire ++ after).length < MODBUS_TCP_MBAP_SIZE := by
      change ¬ (u.wire ++ after).length < 7
      omega
    have hrange : ¬ ((2 + u.data.length).toUInt16 < 2 ∨
        MODBUS_MAX_PDU_SIZE + 1 < (2 + u.data.length).toUInt16.toNat) := by
      rw [UInt16.lt_iff_toNat_lt, hl]
      change ¬ (2 + u.data.length < 2 ∨ 254 < 2 + u.data.length)
      omega
    rw [modbus_tcp_peek_size, if_neg hmbap, h2, h4, if_neg (by simp)]
    rw [if_neg hrange, hl]
    congr 1
    omega
  constructor
  · rw [modbus_tcp_parse, hpeek]
    dsimp only
    rw [if_neg (by omega), h0, h2, h4, hl, TcpUnit.adu]
    have e6 : (u.wire ++ after).getD 6 0 = u.unit_id := by
      simp [TcpUnit.wire, TcpUnit.header, write_be16]
    have e7 : (u.wire ++ after).getD 7 0 = u.function_code := by
      simp [TcpUnit.wire, TcpUnit.header, write_be16]
    rw [e6, e7, show 2 + u.data.length - 1 - 1 = u.data.length by omega]
  · rw [modbus_pdu_read rfl, view, TcpUnit.wire, List.append_assoc, ← TcpUnit.header_length u,
      List.drop_left]
    exact List.take_left

end SaltsUtils.Modbus
