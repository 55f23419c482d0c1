import SaltsUtils.Library.Crc
import SaltsUtils.Modbus.Adu

/-!
# The check of a serial frame

The checksum loop is the shift register of the polynomial `0xA001`, and a frame carries
its checksum lowest byte first, as the register takes it in.
-/

set_option autoImplicit false

namespace SaltsUtils.Modbus

open SaltsUtils.Crc

def rtuPolynomial : BitVec 16 := 0xA001#16

theorem and_one_ne_zero (c : UInt16) : c &&& 1 ≠ 0 ↔ c.toBitVec.getLsbD 0 = true := by
  have hbits : (c &&& 1).toBitVec = BitVec.setWidth 16 (BitVec.ofBool (c.toBitVec.getLsbD 0)) := by
    rw [UInt16.toBitVec_and]
    exact BitVec.and_one_eq_setWidth_ofBool_getLsbD
  rw [ne_eq, ← UInt16.toBitVec_inj, hbits]
  cases c.toBitVec.getLsbD 0 <;> decide

theorem crc16_bit (c : UInt16) :
    (modbus_rtu_crc16_bit c).toBitVec = shift rtuPolynomial c.toBitVec := by
  unfold modbus_rtu_crc16_bit shift
  by_cases h : c.toBitVec.getLsbD 0 = true
  · rw [if_pos ((and_one_ne_zero c).mpr h), if_pos h]
    rfl
  · rw [if_neg (mt (and_one_ne_zero c).mp h), if_neg h]
    rfl

theorem crc16_bits (k : ℕ) (c : UInt16) :
    (modbus_rtu_crc16_bit^[k] c).toBitVec = (shift rtuPolynomial)^[k] c.toBitVec := by
  induction k generalizing c with
  | zero => rfl
  | succ k ih =>
    rw [Function.iterate_succ_apply, Function.iterate_succ_apply, ih, crc16_bit]

theorem crc16_byte (c : UInt16) (byte : UInt8) :
    (modbus_rtu_crc16_byte c byte).toBitVec =
      run rtuPolynomial c.toBitVec (bits byte.toBitVec) := by
  rw [modbus_rtu_crc16_byte, crc16_bits, run_byte _ _ (by decide)]
  rfl

theorem crc16_run (data : Bytes) :
    (modbus_rtu_crc16 data).toBitVec = run rtuPolynomial 0xFFFF#16 (messageBits data) := by
  have hfold : ∀ c : UInt16, (data.foldl modbus_rtu_crc16_byte c).toBitVec =
      run rtuPolynomial c.toBitVec (messageBits data) := by
    induction data with
    | nil => exact fun _ => rfl
    | cons byte data ih =>
      intro c
      rw [List.foldl_cons, ih, crc16_byte, messageBits_cons, run_append]
  exact hfold 0xFFFF

theorem pack_le16 (low high : UInt8) :
    pack 16 (messageBits [low, high]) = (low.toUInt16 ||| high.toUInt16 <<< 8).toBitVec := by
  rw [pack_messageBits_cons, pack_messageBits_cons]
  simp [messageBits, pack]

def le16 (low high : UInt8) : UInt16 := low.toUInt16 ||| high.toUInt16 <<< 8

theorem le16_split (c : UInt16) : le16 c.toUInt8 (c >>> 8).toUInt8 = c := by
  apply UInt16.toNat_inj.mp
  have hc := c.toNat_lt
  have hs : (c >>> 8).toUInt8.toNat = c.toNat / 256 := by
    rw [UInt16.toNat_toUInt8, UInt16.toNat_shiftRight]
    simp only [UInt16.reduceToNat, Nat.reduceMod, Nat.shiftRight_eq_div_pow]
    omega
  have hl : c.toUInt8.toNat = c.toNat % 2 ^ 8 := UInt16.toNat_toUInt8 c
  rw [le16, UInt16.toNat_or, UInt16.toNat_shiftLeft, UInt8.toNat_toUInt16, UInt8.toNat_toUInt16,
    hs, hl]
  simp only [UInt16.reduceToNat, Nat.reduceMod, Nat.shiftLeft_eq]
  rw [Nat.mod_eq_of_lt (show c.toNat / 256 * 2 ^ 8 < 2 ^ 16 by omega), Nat.or_comm, mul_comm,
    ← Nat.two_pow_add_eq_or_of_lt (Nat.mod_lt _ (by decide))]
  omega

structure RtuUnit where
  address : UInt8
  function_code : UInt8
  data : Bytes
deriving DecidableEq

def RtuUnit.body (u : RtuUnit) : Bytes := u.address :: u.function_code :: u.data

def RtuUnit.crc (u : RtuUnit) : UInt16 := modbus_rtu_crc16 u.body

def RtuUnit.wire (u : RtuUnit) : Bytes := u.body ++ [u.crc.toUInt8, (u.crc >>> 8).toUInt8]

def RtuUnit.adu (u : RtuUnit) : ModbusRtuAdu where
  address := u.address
  pdu :=
    { function_code := u.function_code
      data := if 0 < u.data.length then some 2 else none
      data_size := u.data.length }
  crc := u.crc
  consumed := 4 + u.data.length

theorem RtuUnit.body_length (u : RtuUnit) : u.body.length = 2 + u.data.length := by
  rw [body, List.length_cons, List.length_cons]
  omega

theorem RtuUnit.wire_length (u : RtuUnit) : u.wire.length = 4 + u.data.length := by
  rw [wire, List.length_append, body_length, List.length_cons, List.length_singleton]
  omega

theorem modbus_rtu_build_eq (u : RtuUnit) {pdu_data : Span UInt8} {out : Bytes}
    (hd : pdu_data.data = u.data) (hs : pdu_data.size = u.data.length)
    (hv : u.data.length ≤ MODBUS_MAX_PDU_SIZE - 1) (ho : u.wire.length ≤ out.length) :
    modbus_rtu_build u.address u.function_code pdu_data (.cells out) =
      (u.wire.length, u.wire ++ out.drop u.wire.length) := by
  rw [RtuUnit.wire_length] at ho
  have hvalid : ¬ ((Span.cells out).isNull ∨ ¬ modbus_pdu_size_valid pdu_data.size) := by
    rw [hs]
    simpa [modbus_pdu_size_valid] using hv
  have hdata : ¬ (0 < pdu_data.size ∧ pdu_data.isNull) := by
    rintro ⟨hp, hn⟩
    cases pdu_data with
    | null n =>
      rw [← hd] at hs
      simp only [Span.size_null, Span.data_null, List.length_nil] at hs hp
      omega
    | cells d => cases hn
  have hsize : ¬ (Span.cells out).size < MODBUS_RTU_MIN_ADU_SIZE + u.data.length :=
    Nat.not_lt.mpr ho
  obtain ⟨b0, b1, rest, rfl⟩ : ∃ b0 b1 rest, out = b0 :: b1 :: rest := by
    rcases out with _ | ⟨b0, _ | ⟨b1, rest⟩⟩
    · exact absurd ho (by simp)
    · exact absurd ho (by simp; omega)
    · exact ⟨b0, b1, rest, rfl⟩
  obtain ⟨old, b2, b3, back, rfl, hold⟩ : ∃ old b2 b3 back,
      rest = old ++ b2 :: b3 :: back ∧ old.length = u.data.length := by
    have hrest : 2 + u.data.length ≤ rest.length := by
      simp only [List.length_cons] at ho
      omega
    rcases hb : rest.drop u.data.length with _ | ⟨b2, _ | ⟨b3, back⟩⟩
    · simp [List.drop_eq_nil_iff] at hb; omega
    · have := congrArg List.length hb; simp at this; omega
    · exact ⟨rest.take u.data.length, b2, b3, back, by rw [← hb, List.take_append_drop],
        by rw [List.length_take]; omega⟩
  have h2 : overwrite (u.address :: u.function_code :: (old ++ b2 :: b3 :: back)) 2 u.data =
      u.body ++ b2 :: b3 :: back := by
    have := overwrite_append [u.address, u.function_code] (old ++ b2 :: b3 :: back) u.data
    rw [← hold, List.drop_left] at this
    simpa [RtuUnit.body] using this
  have hcrc : (u.body ++ b2 :: b3 :: back).take (MODBUS_RTU_MIN_ADU_SIZE + u.data.length - 2) =
      u.body := by
    rw [show MODBUS_RTU_MIN_ADU_SIZE + u.data.length - 2 = u.body.length by
      rw [RtuUnit.body_length, MODBUS_RTU_MIN_ADU_SIZE]; omega, List.take_left]
  have h3 : overwrite (u.body ++ b2 :: b3 :: back)
      (MODBUS_RTU_MIN_ADU_SIZE + u.data.length - 2) [u.crc.toUInt8] =
      u.body ++ [u.crc.toUInt8] ++ b3 :: back := by
    rw [show MODBUS_RTU_MIN_ADU_SIZE + u.data.length - 2 = u.body.length by
      rw [RtuUnit.body_length, MODBUS_RTU_MIN_ADU_SIZE]; omega, overwrite_append]
    rfl
  have h4 : overwrite (u.body ++ [u.crc.toUInt8] ++ b3 :: back)
      (MODBUS_RTU_MIN_ADU_SIZE + u.data.length - 1) [(u.crc >>> 8).toUInt8] = u.wire ++ back := by
    rw [show MODBUS_RTU_MIN_ADU_SIZE + u.data.length - 1 =
        (u.body ++ [u.crc.toUInt8]).length by
      rw [List.length_append, RtuUnit.body_length, MODBUS_RTU_MIN_ADU_SIZE,
        List.length_singleton]; omega, overwrite_append, RtuUnit.wire]
    simp
  have hback : (b0 :: b1 :: (old ++ b2 :: b3 :: back)).drop u.wire.length = back := by
    have hl : u.wire.length = (b0 :: b1 :: (old ++ [b2, b3])).length := by
      rw [RtuUnit.wire_length]
      simp [hold]
      omega
    have hsplit : b0 :: b1 :: (old ++ b2 :: b3 :: back) =
        (b0 :: b1 :: (old ++ [b2, b3])) ++ back := by simp
    rw [hl, hsplit, List.drop_left]
  rw [modbus_rtu_build, if_neg hvalid, if_neg hdata]
  dsimp only
  rw [hs, if_neg hsize, hd, Span.data_cells]
  have h01 : overwrite (overwrite (b0 :: b1 :: (old ++ b2 :: b3 :: back)) 0 [u.address]) 1
      [u.function_code] = u.address :: u.function_code :: (old ++ b2 :: b3 :: back) := rfl
  rw [h01, h2, hcrc, ← RtuUnit.crc, h3, h4, hback, RtuUnit.wire_length]
  rfl

theorem modbus_rtu_build_ne_zero {address function_code : UInt8} {pdu_data out : Span UInt8}
    (h : (modbus_rtu_build address function_code pdu_data out).1 ≠ 0) :
    pdu_data.size ≤ MODBUS_MAX_PDU_SIZE - 1 ∧ pdu_data.size = pdu_data.data.length ∧
      out = .cells out.data ∧ 4 + pdu_data.size ≤ out.data.length := by
  rw [modbus_rtu_build] at h
  dsimp only at h
  split_ifs at h with hnull hdata hsize
  · exact absurd rfl h
  · exact absurd rfl h
  · exact absurd rfl h
  · cases out with
    | null n => exact absurd (Or.inl rfl) hnull
    | cells out =>
      refine ⟨?_, ?_, rfl, Nat.le_of_not_lt hsize⟩
      · by_contra hlong
        exact hnull (.inr (by simpa [modbus_pdu_size_valid] using hlong))
      · cases pdu_data with
        | null n =>
          have : ¬ 0 < n := fun hn => hdata ⟨hn, rfl⟩
          simpa using this
        | cells d => rfl

theorem modbus_rtu_parse_eq {front : Bytes} (low high : UInt8) (h2 : 2 ≤ front.length)
    (h254 : front.length ≤ 254) :
    modbus_rtu_parse (front ++ [low, high]) =
      if modbus_rtu_crc16 front ≠ le16 low high then .error .crcMismatch
      else .ok
        { address := front.getD 0 0
          pdu :=
            { function_code := front.getD 1 0
              data := if 0 < front.length - 2 then some 2 else none
              data_size := front.length - 2 }
          crc := le16 low high
          consumed := front.length + 2 } := by
  have hlen : (front ++ [low, high]).length = front.length + 2 := by simp
  have hmin : ¬ front.length + 2 < MODBUS_RTU_MIN_ADU_SIZE := by
    rw [ MODBUS_RTU_MIN_ADU_SIZE]
    omega
  have hmax : ¬ MODBUS_RTU_MAX_ADU_SIZE < front.length + 2 := by
    rw [ MODBUS_RTU_MAX_ADU_SIZE]
    omega
  have hlow : (front ++ [low, high]).getD (front.length + 2 - 2) 0 = low := by simp
  have hhigh : (front ++ [low, high]).getD (front.length + 2 - 1) 0 = high := by simp
  have htake : (front ++ [low, high]).take (front.length + 2 - 2) = front := List.take_left
  rw [modbus_rtu_parse, hlen, if_neg hmin, if_neg hmax]
  rw [htake, hlow, hhigh, List.getD_append _ _ _ _ (by omega), List.getD_append _ _ _ _ (by omega),
    show front.length + 2 - 4 = front.length - 2 by omega]
  rfl

theorem modbus_rtu_parse_wire {u : RtuUnit} (h : u.data.length ≤ MODBUS_MAX_PDU_SIZE - 1) :
    modbus_rtu_parse u.wire = .ok u.adu ∧ u.adu.pdu.read u.wire = u.data := by
  have hm : u.data.length ≤ 252 := h
  have hlen := u.body_length
  constructor
  · rw [RtuUnit.wire, modbus_rtu_parse_eq _ _ (by omega) (by omega), le16_split,
      if_neg (by simp [RtuUnit.crc]), hlen, RtuUnit.adu]
    simp [RtuUnit.body]
    omega
  · rw [ModbusPdu.read, RtuUnit.adu]
    by_cases hz : 0 < u.data.length
    · simp [hz, view, RtuUnit.wire, RtuUnit.body]
    · have : u.data = [] := List.eq_nil_of_length_eq_zero (by omega)
      simp [this]

theorem crc16_eq_iff (front : Bytes) (low high : UInt8) :
    modbus_rtu_crc16 front = le16 low high ↔
      run rtuPolynomial 0xFFFF#16 (messageBits front) ^^^ 0 = pack 16 (messageBits [low, high]) := by
  rw [← UInt16.toBitVec_inj, crc16_run, pack_le16, show (0 : BitVec 16) = 0#16 from rfl,
    BitVec.xor_zero, le16]

theorem split_last_two {data : Bytes} {n : ℕ} (h : data.length = n + 2) :
    ∃ front low high, data = front ++ [low, high] ∧ front.length = n := by
  have hback : (data.drop n).length = 2 := by
    rw [List.length_drop]
    omega
  obtain ⟨low, high, hlast⟩ := List.length_eq_two.mp hback
  refine ⟨data.take n, low, high, ?_, ?_⟩
  · rw [← hlast, List.take_append_drop]
  · rw [List.length_take]
    omega

theorem modbus_rtu_parse_corrupt {u : RtuUnit} {error : Bytes}
    (h : u.data.length ≤ MODBUS_MAX_PDU_SIZE - 1) (hl : error.length = u.wire.length)
    (hb : Burst 16 (messageBits error)) :
    modbus_rtu_parse (corrupt u.wire error) = .error .crcMismatch := by
  have hm : u.data.length ≤ 252 := h
  have hbody := u.body_length
  have hwire := u.wire_length
  obtain ⟨front, low, high, hparts, hfront⟩ := @split_last_two (corrupt u.wire error)
    u.body.length (by rw [length_corrupt hl]; omega)
  have hflip : messageBits front ++ messageBits [low, high] =
      List.zipWith (· ^^ ·) (messageBits u.body ++
        messageBits [u.crc.toUInt8, (u.crc >>> 8).toUInt8]) (messageBits error) := by
    rw [← messageBits_append, ← messageBits_append, ← hparts, messageBits_corrupt hl]
    rfl
  have hgood := (crc16_eq_iff u.body _ _).mp (le16_split u.crc).symm
  have hpoly : rtuPolynomial.getLsbD (16 - 1) = true := by decide
  have hbad := burst_detected hpoly (length_messageBits _)
    (length_messageBits _) hb
    (by rw [← messageBits_append, length_messageBits, length_messageBits, hl, RtuUnit.wire])
    hflip hgood
  rw [hparts, modbus_rtu_parse_eq _ _ (by omega) (by omega),
    if_pos fun heq => hbad ((crc16_eq_iff front low high).mp heq)]

/-- A frame that has been built is parsed into its own fields and built again from them, and
no burst of sixteen places or fewer leaves another frame. -/
theorem modbus_rtu_detects {address function_code : UInt8} {pdu_data out : Span UInt8}
    {total : ℕ} {after : Bytes}
    (hbuild : modbus_rtu_build address function_code pdu_data out = (total, after)) :
    (total ≠ 0 ↔ pdu_data.size ≤ 252 ∧ pdu_data.size = pdu_data.data.length ∧
      out = .cells out.data ∧ 4 + pdu_data.size ≤ out.data.length) ∧
    (total ≠ 0 → ∃ adu, modbus_rtu_parse (after.take total) = .ok adu ∧
      adu.address = address ∧ adu.pdu.function_code = function_code ∧
      adu.pdu.data_size = pdu_data.size ∧ adu.pdu.read (after.take total) = pdu_data.data ∧
      adu.consumed = total ∧
      (∀ other : Bytes, total ≤ other.length →
        modbus_rtu_write adu (after.take total) (.cells other) =
          (total, after.take total ++ other.drop total)) ∧
      ∀ error : Bytes, error.length = total → Burst 16 (messageBits error) →
        modbus_rtu_parse (corrupt (after.take total) error) = .error .crcMismatch) := by
  have hbuilt : pdu_data.size ≤ 252 ∧ pdu_data.size = pdu_data.data.length ∧
      out = .cells out.data ∧ 4 + pdu_data.size ≤ out.data.length →
      let u : RtuUnit := ⟨address, function_code, pdu_data.data⟩
      total = u.wire.length ∧ after.take total = u.wire := by
    rintro ⟨hv, hs, hcells, hroom⟩ u
    have hroom' : u.wire.length ≤ out.data.length := by
      rw [u.wire_length]
      change 4 + pdu_data.data.length ≤ out.data.length
      omega
    have := modbus_rtu_build_eq u rfl hs (hs ▸ hv) hroom'
    rw [← hcells, hbuild] at this
    cases this
    exact ⟨rfl, List.take_left⟩
  have hiff : total ≠ 0 ↔ pdu_data.size ≤ 252 ∧ pdu_data.size = pdu_data.data.length ∧
      out = .cells out.data ∧ 4 + pdu_data.size ≤ out.data.length := by
    constructor
    · intro ht
      exact modbus_rtu_build_ne_zero (by rw [hbuild]; exact ht)
    · intro hok
      obtain ⟨htotal, -⟩ := hbuilt hok
      rw [htotal, RtuUnit.wire_length]
      omega
  refine ⟨hiff, fun ht => ?_⟩
  obtain ⟨hv, hs, hcells, hroom⟩ := hiff.mp ht
  obtain ⟨htotal, hframe⟩ := hbuilt ⟨hv, hs, hcells, hroom⟩
  rw [hframe, htotal]
  generalize hu : (⟨address, function_code, pdu_data.data⟩ : RtuUnit) = u
  have hdata : u.data = pdu_data.data := by rw [← hu]
  have hvalid : u.data.length ≤ MODBUS_MAX_PDU_SIZE - 1 := by
    rw [hdata, ← hs]
    exact hv
  obtain ⟨hparse, hread⟩ := modbus_rtu_parse_wire hvalid
  refine ⟨u.adu, hparse, by rw [← hu]; rfl, by rw [← hu]; rfl, ?_, hread.trans hdata, ?_,
    fun other hother => ?_, fun error hl hb => modbus_rtu_parse_corrupt hvalid hl hb⟩
  · exact (congrArg List.length hdata).trans hs.symm
  · exact u.wire_length.symm
  · have hspan : (u.adu.pdu.span u.wire).data = u.data ∧
        (u.adu.pdu.span u.wire).size = u.data.length := by
      by_cases hz : 0 < u.data.length
      · have hsome : u.adu.pdu.span u.wire = .cells (u.adu.pdu.read u.wire) := by
          simp [ModbusPdu.span, ModbusPdu.read, RtuUnit.adu, hz]
        rw [hsome, hread]
        exact ⟨rfl, rfl⟩
      · have hnil : u.data = [] := List.eq_nil_of_length_eq_zero (by omega)
        simp [ModbusPdu.span, RtuUnit.adu, hnil]
    exact modbus_rtu_build_eq u hspan.1 hspan.2 hvalid hother

theorem modbus_rtu_detects_status :
    modbus_rtu_build 1 7 (.null 0) (.cells [0, 0, 0, 0]) = (4, [1, 7, 0x41, 0xE2]) ∧
      ∃ adu, modbus_rtu_parse [1, 7, 0x41, 0xE2] = .ok adu ∧ adu.consumed = 4 :=
  have hbuild : modbus_rtu_build 1 7 (.null 0) (.cells [0, 0, 0, 0]) = (4, [1, 7, 0x41, 0xE2]) := by
    decide +kernel
  ⟨hbuild, by
    obtain ⟨adu, hparse, -, -, -, -, hconsumed, -⟩ := (modbus_rtu_detects hbuild).2 (by decide)
    exact ⟨adu, hparse, hconsumed⟩⟩

theorem le16_bytes (low high : UInt8) :
    (le16 low high).toUInt8 = low ∧ (le16 low high >>> 8).toUInt8 = high := by
  constructor
  all_goals
    apply UInt8.toBitVec_inj.mp
    ext i hi
    simp [le16, show 8 + i < 16 by omega, show i < 16 by omega, BitVec.getLsbD_eq_getElem hi]

theorem crc16_trailer (front : Bytes) (low high : UInt8) :
    modbus_rtu_crc16 (front ++ [low, high]) = 0 ↔ modbus_rtu_crc16 front = le16 low high := by
  have hpoly : rtuPolynomial.getLsbD (16 - 1) = true := by decide
  rw [crc16_eq_iff, ← run_trailer hpoly (length_messageBits _), iterate_shift_zero,
    ← messageBits_append, ← crc16_run, ← UInt16.toBitVec_inj]
  rfl

theorem RtuUnit.exists_wire {front : Bytes} {low high : UInt8} (h2 : 2 ≤ front.length)
    (h254 : front.length ≤ 254) (h : modbus_rtu_crc16 front = le16 low high) :
    ∃ u : RtuUnit, u.data.length ≤ MODBUS_MAX_PDU_SIZE - 1 ∧ front ++ [low, high] = u.wire := by
  rcases front with _ | ⟨address, _ | ⟨function_code, data⟩⟩
  · cases h2
  · simp at h2
  · refine ⟨⟨address, function_code, data⟩, Nat.le_of_add_le_add_right (b := 2) h254, ?_⟩
    rw [RtuUnit.wire, RtuUnit.crc, RtuUnit.body, h, (le16_bytes low high).1, (le16_bytes low high).2]

/-- The serial frames that are accepted are those that are built, and they are the buffers of a
frame's size whose checksum, taken over all of their bytes, is zero. -/
theorem modbus_rtu_accepts (data : Bytes) :
    (∀ adu, modbus_rtu_parse data = .ok adu ↔
      ∃ u : RtuUnit, u.data.length ≤ MODBUS_MAX_PDU_SIZE - 1 ∧ u.wire = data ∧ u.adu = adu) ∧
    ((∃ adu, modbus_rtu_parse data = .ok adu) ↔
      4 ≤ data.length ∧ data.length ≤ 256 ∧ modbus_rtu_crc16 data = 0) := by
  have hbuilt : ∀ u : RtuUnit, u.data.length ≤ MODBUS_MAX_PDU_SIZE - 1 → u.wire = data →
      modbus_rtu_parse data = .ok u.adu := by
    rintro u hu rfl
    exact (modbus_rtu_parse_wire hu).1
  have hzero : 4 ≤ data.length ∧ data.length ≤ 256 ∧ modbus_rtu_crc16 data = 0 →
      ∃ u : RtuUnit, u.data.length ≤ MODBUS_MAX_PDU_SIZE - 1 ∧ u.wire = data := by
    rintro ⟨h4, h256, hcrc⟩
    obtain ⟨front, low, high, rfl, hfront⟩ := @split_last_two data (data.length - 2) (by omega)
    obtain ⟨u, hu, hwire⟩ := RtuUnit.exists_wire (by omega) (by omega)
      ((crc16_trailer front low high).mp hcrc)
    exact ⟨u, hu, hwire.symm⟩
  have hparsed : ∀ adu, modbus_rtu_parse data = .ok adu →
      4 ≤ data.length ∧ data.length ≤ 256 ∧ modbus_rtu_crc16 data = 0 := by
    intro adu h
    have hlen : 4 ≤ data.length ∧ data.length ≤ 256 := by
      rw [modbus_rtu_parse, MODBUS_RTU_MIN_ADU_SIZE, MODBUS_RTU_MAX_ADU_SIZE] at h
      split_ifs at h
      omega
    refine ⟨hlen.1, hlen.2, ?_⟩
    obtain ⟨front, low, high, rfl, hfront⟩ := @split_last_two data (data.length - 2) (by omega)
    rw [crc16_trailer]
    by_contra hne
    rw [modbus_rtu_parse_eq _ _ (by omega) (by omega), if_pos hne] at h
    cases h
  refine ⟨fun adu => ⟨fun h => ?_, ?_⟩, fun ⟨adu, h⟩ => hparsed adu h, fun h => ?_⟩
  · obtain ⟨u, hu, hwire⟩ := hzero (hparsed adu h)
    exact ⟨u, hu, hwire, Except.ok.inj ((hbuilt u hu hwire).symm.trans h)⟩
  · rintro ⟨u, hu, hwire, rfl⟩
    exact hbuilt u hu hwire
  · obtain ⟨u, hu, hwire⟩ := hzero h
    exact ⟨u.adu, hbuilt u hu hwire⟩
end SaltsUtils.Modbus
