import SaltsUtils.Library.Base128
import SaltsUtils.Library.ByteBuffer

/-!
# Messages and their varints
-/

set_option autoImplicit false

/-!
## Length-type-value messages

The varint, parsing and building functions of `src/parser/ltv_parser/src/ltv_parser.c`
and the constants of its header. A pointer into an input is the offset it has there.
-/

namespace SaltsUtils.Ltv

abbrev Bytes := List UInt8

def LTV_MAX_VARINT_BYTES : ℕ := 5
def LTV_MAX_PAYLOAD_SIZE : ℕ := 10 * 1024 * 1024

inductive LtvParseResult
  | ok
  | needMore
  | invalidVarint
  | sizeOverflow
  | bufferOverflow
deriving DecidableEq

def ltv_varint_size (value : UInt32) : ℕ :=
  if value < (1 : UInt32) <<< 7 then 1
  else if value < (1 : UInt32) <<< 14 then 2
  else if value < (1 : UInt32) <<< 21 then 3
  else if value < (1 : UInt32) <<< 28 then 4
  else 5

/-- What `ltv_decode_varint` returns: -1, 0, or a number of bytes with the value in `out`. -/
inductive Decoded
  | malformed
  | needMore
  | value (out : UInt32) (used : ℕ)
deriving DecidableEq

def ltv_decode_loop (len : ℕ) : Bytes → ℕ → UInt32 → UInt32 → Decoded
  | [], _, _, _ => if LTV_MAX_VARINT_BYTES ≤ len then .malformed else .needMore
  | byte :: rest, i, result, shift =>
    if LTV_MAX_VARINT_BYTES ≤ i then
      if LTV_MAX_VARINT_BYTES ≤ len then .malformed else .needMore
    else if i = LTV_MAX_VARINT_BYTES - 1 ∧ byte &&& 0xF0 ≠ 0 then .malformed
    else
      let result := result ||| ((byte &&& 0x7F).toUInt32 <<< shift)
      if byte &&& 0x80 = 0 then
        if ltv_varint_size result ≠ i + 1 then .malformed else .value result (i + 1)
      else ltv_decode_loop len rest (i + 1) result (shift + 7)

def ltv_decode_varint (data : Bytes) : Decoded :=
  if data.length = 0 then .needMore else ltv_decode_loop data.length data 0 0 0

theorem shiftRight_seven (value : UInt32) : (value >>> 7).toNat = value.toNat / 128 := by
  rw [UInt32.toNat_shiftRight]
  simp [Nat.shiftRight_eq_div_pow]

def ltv_encode_varint (value : UInt32) : Bytes :=
  if 0x80 ≤ value then (value ||| 0x80).toUInt8 :: ltv_encode_varint (value >>> 7)
  else [value.toUInt8]
termination_by value.toNat
decreasing_by
  have h : 128 ≤ value.toNat := by simpa [UInt32.le_iff_toNat_le] using ‹0x80 ≤ value›
  rw [shiftRight_seven]
  omega

def ltv_peek_size (data : Bytes) : Except LtvParseResult (UInt32 × ℕ) :=
  match ltv_decode_varint data with
  | .needMore => .error .needMore
  | .malformed => .error .invalidVarint
  | .value length header_size =>
    if length = 0 then .error .invalidVarint
    else if LTV_MAX_PAYLOAD_SIZE + 1 < length.toNat then .error .sizeOverflow
    else .ok (length, header_size)

example : ltv_peek_size [] = .error .needMore := by rw [ltv_peek_size]; rfl

def ltv_total_size (length : UInt32) (header_size : ℕ) : ℕ := header_size + length.toNat

structure LtvMessage where
  length : UInt32
  type : UInt8
  value : Option ℕ
  value_size : ℕ
  consumed : ℕ
deriving DecidableEq

/-- The `value_size` bytes that the value points at in a memory. -/
def LtvMessage.read (m : LtvMessage) (memory : Bytes) : Bytes :=
  match m.value with
  | none => []
  | some offset => view memory offset m.value_size

def ltv_parse (data : Bytes) : Except LtvParseResult LtvMessage :=
  match ltv_peek_size data with
  | .error peek => .error peek
  | .ok (length, header_size) =>
    let total := ltv_total_size length header_size
    if data.length < total then .error .needMore
    else
      let value_size := length.toNat - 1
      .ok
        { length := length
          type := data.getD header_size 0
          value := if 0 < value_size then some (header_size + 1) else none
          value_size := value_size
          consumed := total }

example : ltv_parse [] = .error .needMore := by rw [ltv_parse]; rfl

def ltv_wire_size (value_size : ℕ) : ℕ :=
  if LTV_MAX_PAYLOAD_SIZE < value_size then 0
  else
    let length := value_size.toUInt32 + 1
    ltv_varint_size length + length.toNat

/-- What is returned, and the output buffer afterwards. -/
def ltv_build (type : UInt8) (value : Span UInt8) (out : Span UInt8) : ℕ × Bytes :=
  let wire_size := ltv_wire_size value.size
  if wire_size = 0 ∨ out.isNull ∨ (0 < value.size ∧ value.isNull) ∨ out.size < wire_size then
    (0, out.data)
  else
    let length := value.size.toUInt32 + 1
    let header := ltv_encode_varint length
    let out := overwrite out.data 0 header
    let out := overwrite out header.length [type]
    (wire_size, overwrite out (header.length + 1) value.data)

/-!
## The varints are canonical LEB128

`ltv_decode_varint` takes a text exactly where LEB128 reads a 32-bit number from it
that is written in as few bytes as it can be.
-/

open Leb128

theorem and_high_bit (byte : UInt8) : byte &&& 0x80 = 0 ↔ byte.toNat < 128 := by
  have h : ∀ n : Fin 256, n.val &&& 128 = 0 ↔ n.val < 128 := by decide +kernel
  rw [← UInt8.toNat_inj, UInt8.toNat_and]
  exact h ⟨byte.toNat, byte.toNat_lt⟩

theorem and_high_half (byte : UInt8) : byte &&& 0xF0 = 0 ↔ byte.toNat < 16 := by
  have h : ∀ n : Fin 256, n.val &&& 240 = 0 ↔ n.val < 16 := by decide +kernel
  rw [← UInt8.toNat_inj, UInt8.toNat_and]
  exact h ⟨byte.toNat, byte.toNat_lt⟩

theorem and_low_bits (byte : UInt8) : (byte &&& 0x7F).toUInt32.toNat = byte.toNat % 128 := by
  have h : (0x7F : UInt8).toNat = 2 ^ 7 - 1 := rfl
  rw [UInt8.toNat_toUInt32, UInt8.toNat_and, h, Nat.and_two_pow_sub_one_eq_mod]

theorem or_shifted {result bits shift : UInt32} {i : ℕ} (hs : shift.toNat = 7 * i) (hi : i ≤ 4)
    (hr : result.toNat < 128 ^ i) (hb : bits.toNat * 128 ^ i < 2 ^ 32) :
    (result ||| bits <<< shift).toNat = result.toNat + 128 ^ i * bits.toNat := by
  have hp : (2 : ℕ) ^ (7 * i) = 128 ^ i := by rw [pow_mul]; rfl
  rw [UInt32.toNat_or, UInt32.toNat_shiftLeft, hs, Nat.mod_eq_of_lt (show 7 * i < 32 by omega),
    Nat.shiftLeft_eq, hp, Nat.mod_eq_of_lt hb, Nat.or_comm, mul_comm, ← hp,
    ← Nat.two_pow_add_eq_or_of_lt (hp.symm ▸ hr), add_comm]

theorem ltv_varint_size_eq (value : UInt32) :
    ltv_varint_size value = (write value.toNat).length := by
  have hv := value.toNat_lt
  have hpos := write_length_pos value.toNat
  have h1 := write_length_le (n := value.toNat) (k := 0)
  have h2 := write_length_le (n := value.toNat) (k := 1)
  have h3 := write_length_le (n := value.toNat) (k := 2)
  have h4 := write_length_le (n := value.toNat) (k := 3)
  have h5 := write_length_le (n := value.toNat) (k := 4)
  have t1 : ((1 : UInt32) <<< 7).toNat = 128 := rfl
  have t2 : ((1 : UInt32) <<< 14).toNat = 16384 := rfl
  have t3 : ((1 : UInt32) <<< 21).toNat = 2097152 := rfl
  have t4 : ((1 : UInt32) <<< 28).toNat = 268435456 := rfl
  simp only [ltv_varint_size, UInt32.lt_iff_toNat_lt, t1, t2, t3, t4]
  norm_num at h1 h2 h3 h4 h5
  split_ifs <;> omega

theorem ltv_encode_varint_eq (value : UInt32) : ltv_encode_varint value = write value.toNat := by
  fun_induction ltv_encode_varint value with
  | case1 value h ih =>
    have hv : 128 ≤ value.toNat := by simpa [UInt32.le_iff_toNat_le] using h
    have hor : (value ||| 0x80).toNat % 256 = value.toNat % 128 + 128 := by
      have hd : ∀ n : Fin 256, n.val ||| 128 = n.val % 128 + 128 := by decide +kernel
      have hm : (0x80 : UInt32).toNat = 128 := rfl
      rw [UInt32.toNat_or, hm, show 256 = 2 ^ 8 by rfl, Nat.or_mod_two_pow,
        show 128 % 2 ^ 8 = 128 by rfl]
      rw [hd ⟨value.toNat % 2 ^ 8, Nat.mod_lt _ (by decide)⟩]
      exact congrArg (· + 128) (Nat.mod_mod_of_dvd _ (by decide))
    rw [ih, shiftRight_seven, write_large hv]
    congr 1
    apply UInt8.toNat_inj.mp
    rw [UInt32.toNat_toUInt8, toNat_toUInt8 (by omega), hor]
  | case2 value h =>
    have hv : value.toNat < 128 := by simpa [UInt32.le_iff_toNat_le] using h
    rw [write_small hv]
    rfl

/-- What the loop answers once `used` bytes have given a number. -/
def accepted (n used : ℕ) : Decoded :=
  if n < 2 ^ 32 ∧ (write n).length = used then .value n.toUInt32 used else .malformed

variable {used : ℕ}

theorem accepted_of_lt {value : UInt32} : accepted value.toNat used =
      if ltv_varint_size value ≠ used then .malformed else .value value used := by
  rw [ltv_varint_size_eq, accepted]
  by_cases h : (write value.toNat).length = used
  · simp [h, value.toNat_lt]
  · simp [h]

theorem accepted_of_long {n : ℕ} (h : 5 < used) : accepted n used = .malformed := by
  refine if_neg fun ⟨hn, hl⟩ => ?_
  have : (write n).length ≤ 4 + 1 := write_length_le.mpr (lt_of_lt_of_le hn (by norm_num))
  omega

theorem accepted_of_big {n : ℕ} (h : 2 ^ 32 ≤ n) : accepted n used = .malformed :=
  if_neg fun hn => absurd hn.1 (by omega)

theorem ltv_decode_loop_eq {data : Bytes} {i : ℕ} {result shift : UInt32} (hi : i ≤ 5)
    (hs : shift.toNat = 7 * i) (hr : result.toNat < 128 ^ i) :
    ltv_decode_loop (i + data.length) data i result shift =
      match read data with
      | none => if 5 ≤ i + data.length then .malformed else .needMore
      | some (n, used) => accepted (result.toNat + 128 ^ i * n) (i + used) := by
  induction data generalizing i result shift with
  | nil => rfl
  | cons byte rest ih =>
    have hx := byte.toNat_lt
    rw [ltv_decode_loop]
    by_cases h5 : LTV_MAX_VARINT_BYTES ≤ i
    · rw [if_pos h5]
      cases hread : read (byte :: rest) with
      | none => rfl
      | some r =>
        have hlong : LTV_MAX_VARINT_BYTES ≤ i + (byte :: rest).length := h5.trans (by omega)
        rw [if_pos hlong]
        exact (accepted_of_long (by have := read_used hread; change 5 ≤ i at h5; omega)).symm
    rw [if_neg h5]
    change ¬ 5 ≤ i at h5
    by_cases hh : i = LTV_MAX_VARINT_BYTES - 1 ∧ byte &&& 0xF0 ≠ 0
    · -- the fifth byte has more than the four bits that are left
      have h16 : 16 ≤ byte.toNat := by
        have := (and_high_half byte).not.mp hh.2
        omega
      have hi4 : i = 4 := hh.1
      rw [if_pos hh]
      subst hi4
      by_cases hb : byte.toNat < 128
      · rw [read_cons_last _ hb]
        exact (accepted_of_big (by norm_num; omega)).symm
      · rw [read_cons_more _ (by omega)]
        cases hread : read rest with
        | none => exact (if_pos (by simp; omega)).symm
        | some r => exact (accepted_of_long (by have := read_used hread; simp; omega)).symm
    rw [if_neg hh]
    have hbits : (byte &&& 0x7F).toUInt32.toNat * 128 ^ i < 2 ^ 32 := by
      rw [and_low_bits]
      by_cases h4 : i = 4
      · have h16 : byte.toNat < 16 := by
          by_contra hc
          exact hh ⟨h4, fun he => hc ((and_high_half byte).mp he)⟩
        subst h4
        omega
      · calc byte.toNat % 128 * 128 ^ i ≤ 127 * 128 ^ 3 :=
              Nat.mul_le_mul (by omega) (Nat.pow_le_pow_right (by decide) (by omega))
          _ < 2 ^ 32 := by norm_num
    have hor := or_shifted hs (by omega) hr hbits
    rw [and_low_bits] at hor
    by_cases hb : byte.toNat < 128
    · rw [if_pos ((and_high_bit byte).mpr hb), read_cons_last _ hb, ← accepted_of_lt, hor,
        Nat.mod_eq_of_lt hb]
    · rw [if_neg fun he => hb ((and_high_bit byte).mp he)]
      have hlt : (result ||| (byte &&& 0x7F).toUInt32 <<< shift).toNat < 128 ^ (i + 1) := by
        rw [hor, pow_succ]
        calc result.toNat + 128 ^ i * (byte.toNat % 128)
            < 128 ^ i + 128 ^ i * (byte.toNat % 128) := by omega
          _ = 128 ^ i * (byte.toNat % 128 + 1) := by ring
          _ ≤ 128 ^ i * 128 := Nat.mul_le_mul_left _ (by omega)
      have hshift : (shift + 7).toNat = 7 * (i + 1) := by
        have : (7 : UInt32).toNat = 7 := rfl
        rw [UInt32.toNat_add, hs, this]
        omega
      have := ih (by omega) hshift hlt
      rw [show i + 1 + rest.length = i + (byte :: rest).length by simp; omega] at this
      rw [this, read_cons_more _ (by omega), hor]
      cases read rest with
      | none => rfl
      | some r =>
        simp only [Option.map_some]
        congr 1
        · rw [pow_succ, show byte.toNat % 128 = byte.toNat - 128 by omega]
          ring
        · omega

theorem ltv_decode_varint_eq (data : Bytes) :
    ltv_decode_varint data =
      match read data with
      | none => if 5 ≤ data.length then .malformed else .needMore
      | some (n, used) => accepted n used := by
  cases data with
  | nil => rfl
  | cons byte rest =>
    have h := @ltv_decode_loop_eq (byte :: rest) 0 0 0 (by omega) rfl (by decide)
    simp only [zero_add, pow_zero, one_mul, UInt32.toNat_zero] at h
    rw [ltv_decode_varint, if_neg (by simp)]
    exact h

variable {data : Bytes}

theorem ltv_decode_varint_value {value : UInt32} : ltv_decode_varint data = .value value used ↔
      read data = some (value.toNat, used) ∧ (write value.toNat).length = used := by
  rw [ltv_decode_varint_eq]
  cases read data with
  | none => by_cases h : 5 ≤ data.length <;> simp [h]
  | some r =>
    obtain ⟨n, k⟩ := r
    simp only [accepted, Option.some.injEq, Prod.mk.injEq]
    split_ifs with h
    · simp only [Decoded.value.injEq]
      constructor
      · rintro ⟨rfl, rfl⟩
        have hn : n.toUInt32.toNat = n := by
          rw [UInt32.toNat_ofNat_of_lt' h.1]
        exact ⟨⟨hn.symm, rfl⟩, (congrArg (fun n => (write n).length) hn).trans h.2⟩
      · rintro ⟨⟨rfl, rfl⟩, -⟩
        simp
    · simp only [false_iff]
      rintro ⟨⟨rfl, rfl⟩, hl⟩
      exact h ⟨value.toNat_lt, hl⟩

theorem ltv_decode_varint_needMore :
    ltv_decode_varint data = .needMore ↔ data.length < 5 ∧ ∀ byte ∈ data, 128 ≤ byte.toNat := by
  rw [ltv_decode_varint_eq, ← read_eq_none]
  cases read data with
  | none =>
    by_cases h : 5 ≤ data.length
    · simp [h]
    · simp [h]
      omega
  | some r =>
    simp only [accepted, reduceCtorEq, and_false, iff_false]
    split_ifs <;> simp

theorem ltv_decode_encode (value : UInt32) (after : Bytes) :
    ltv_decode_varint (ltv_encode_varint value ++ after) =
      .value value (ltv_encode_varint value).length := by
  rw [ltv_encode_varint_eq, ltv_decode_varint_value]
  exact ⟨read_write _ _, rfl⟩

theorem ltv_encode_of_decode {value : UInt32} (h : ltv_decode_varint data = .value value used) :
    ltv_encode_varint value = data.take used := by
  obtain ⟨hr, hl⟩ := ltv_decode_varint_value.mp h
  rw [ltv_encode_varint_eq, take_of_shortest hr hl]

end SaltsUtils.Ltv
