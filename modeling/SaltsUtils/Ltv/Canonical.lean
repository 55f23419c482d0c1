import Mathlib.Data.List.GetD
import SaltsUtils.Library.Framing
import SaltsUtils.Ltv.Message

/-!
# Messages are a canonical code

What `ltv_build` stores is what `ltv_parse` accepts, byte for byte. A text that ends
inside a message is answered with a request for more.
-/

set_option autoImplicit false

namespace SaltsUtils.Ltv
open Leb128

def ltv_wire (type : UInt8) (value : Bytes) : Bytes :=
  ltv_encode_varint (value.length.toUInt32 + 1) ++ type :: value

variable {n : ℕ}

theorem length_toNat (h : n ≤ LTV_MAX_PAYLOAD_SIZE) : (n.toUInt32 + 1 : UInt32).toNat = n + 1 := by
  have hb : LTV_MAX_PAYLOAD_SIZE + 1 < 2 ^ 32 := by decide
  have h1 : (1 : UInt32).toNat = 1 := rfl
  rw [UInt32.toNat_add, h1, UInt32.toNat_ofNat_of_lt' (show n < UInt32.size by
    change n < 2 ^ 32
    omega), Nat.mod_eq_of_lt (by omega)]

variable {value : Bytes}

theorem ltv_wire_size_eq (type : UInt8) (h : value.length ≤ LTV_MAX_PAYLOAD_SIZE) :
    ltv_wire_size value.length = (ltv_wire type value).length := by
  rw [ltv_wire_size, if_neg (by omega), ltv_wire, ltv_encode_varint_eq, List.length_append,
    List.length_cons]
  simp only [ltv_varint_size_eq, length_toNat h]

theorem ltv_wire_size_pos (h : n ≤ LTV_MAX_PAYLOAD_SIZE) : ltv_wire_size n ≠ 0 := by
  rw [ltv_wire_size, if_neg (by omega)]
  simp only [length_toNat h]
  omega

theorem ltv_build_eq {type : UInt8} {value : Span UInt8} {out : Bytes}
    (hs : value.size ≤ LTV_MAX_PAYLOAD_SIZE) (hv : value.isNull → value.size = 0)
    (ho : ltv_wire_size value.size ≤ out.length) :
    ltv_build type value (.cells out) =
      (ltv_wire_size value.size,
        ltv_wire type value.data ++ out.drop (ltv_wire type value.data).length) := by
  have hd : value.data.length = value.size := by
    cases value with
    | null n =>
      have := hv rfl
      simp_all
    | cells data => rfl
  have hpass : ¬ (ltv_wire_size value.size = 0 ∨ (Span.cells out).isNull ∨
      (0 < value.size ∧ value.isNull) ∨ (Span.cells out).size < ltv_wire_size value.size) := by
    have := ltv_wire_size_pos hs
    rintro (h | h | ⟨h, h'⟩ | h)
    · exact this h
    · cases h
    · have := hv h'
      omega
    · exact absurd ho (by simpa using h)
  refine (if_neg hpass).trans ?_
  dsimp only [Span.data_cells]
  congr 1
  rw [ltv_wire, hd]
  generalize ltv_encode_varint (value.size.toUInt32 + 1) = header
  have h1 := overwrite_append [] out header
  have h2 := overwrite_append header (out.drop header.length) [type]
  have h3 := overwrite_append (header ++ [type]) (out.drop (header.length + 1)) value.data
  simp only [List.nil_append, List.length_nil] at h1
  simp only [List.drop_drop, List.length_singleton] at h2
  simp only [List.length_append, List.length_singleton] at h3
  rw [h1, h2, h3]
  simp [Nat.add_assoc, Nat.add_comm]

variable {data : Bytes} {length : UInt32} {header_size : ℕ}

theorem ltv_peek_size_ok : ltv_peek_size data = .ok (length, header_size) ↔
      ltv_decode_varint data = .value length header_size ∧ length ≠ 0 ∧
        length.toNat ≤ LTV_MAX_PAYLOAD_SIZE + 1 := by
  rw [ltv_peek_size]
  cases ltv_decode_varint data with
  | malformed => simp
  | needMore => simp
  | value v used =>
    dsimp only
    split_ifs with h0 hb
    · simp only [Decoded.value.injEq, false_iff]
      rintro ⟨⟨rfl, rfl⟩, h, -⟩
      exact h h0
    · simp only [Decoded.value.injEq, false_iff]
      rintro ⟨⟨rfl, rfl⟩, -, h⟩
      omega
    · simp only [Except.ok.injEq, Prod.mk.injEq, Decoded.value.injEq]
      constructor
      · rintro ⟨rfl, rfl⟩
        exact ⟨⟨rfl, rfl⟩, h0, by omega⟩
      · exact fun h => h.1

theorem ltv_peek_size_needMore :
    ltv_peek_size data = .error .needMore ↔ ltv_decode_varint data = .needMore := by
  rw [ltv_peek_size]
  cases ltv_decode_varint data with
  | malformed => simp
  | needMore => simp
  | value v used =>
    dsimp only
    split_ifs <;> simp

variable {m : LtvMessage}

theorem ltv_parse_ok : ltv_parse data = .ok m ↔ ∃ header_size,
      ltv_peek_size data = .ok (m.length, header_size) ∧
      ltv_total_size m.length header_size ≤ data.length ∧
      m.type = data.getD header_size 0 ∧
      m.value = (if 0 < m.value_size then some (header_size + 1) else none) ∧
      m.value_size = m.length.toNat - 1 ∧ m.consumed = ltv_total_size m.length header_size := by
  rw [ltv_parse]
  cases hp : ltv_peek_size data with
  | error e => simp
  | ok r =>
    obtain ⟨length, header_size⟩ := r
    dsimp only
    by_cases hlt : data.length < ltv_total_size length header_size
    · rw [if_pos hlt]
      constructor
      · intro h
        cases h
      · rintro ⟨h, he, hle, -⟩
        cases he
        omega
    · rw [if_neg hlt]
      constructor
      · intro h
        cases h
        exact ⟨header_size, rfl, Nat.le_of_not_lt hlt, rfl, rfl, rfl, rfl⟩
      · rintro ⟨h, he, -, ht, hv, hs, hc⟩
        cases he
        cases m
        simp_all

theorem ltv_parse_needMore :
    ltv_parse data = .error .needMore ↔ ltv_decode_varint data = .needMore ∨
      ∃ length header_size, ltv_peek_size data = .ok (length, header_size) ∧
        data.length < ltv_total_size length header_size := by
  rw [ltv_parse, ← ltv_peek_size_needMore]
  cases ltv_peek_size data with
  | error e => simp
  | ok r =>
    dsimp only
    split_ifs with h
    · simpa using ⟨r.1, r.2, rfl, h⟩
    · simp only [Except.ok.injEq, false_or, false_iff]
      rintro ⟨_, _, rfl, hlt⟩
      exact h hlt

theorem ltv_peek_size_header (h : ltv_peek_size data = .ok (length, header_size)) :
    0 < header_size ∧ header_size ≤ data.length ∧ 0 < length.toNat ∧
      length.toNat ≤ LTV_MAX_PAYLOAD_SIZE + 1 := by
  obtain ⟨hd, h0, hb⟩ := ltv_peek_size_ok.mp h
  obtain ⟨hr, -⟩ := ltv_decode_varint_value.mp hd
  refine ⟨(read_used hr).1, (read_used hr).2, ?_, hb⟩
  refine Nat.pos_of_ne_zero fun h => h0 ?_
  exact UInt32.toNat_inj.mp h

theorem ltv_peek_size_append (after : Bytes) (h : ltv_peek_size data = .ok (length, header_size)) :
    ltv_peek_size (data ++ after) = .ok (length, header_size) := by
  obtain ⟨hd, h0, hb⟩ := ltv_peek_size_ok.mp h
  obtain ⟨hr, hl⟩ := ltv_decode_varint_value.mp hd
  exact ltv_peek_size_ok.mpr ⟨ltv_decode_varint_value.mpr ⟨read_append after hr, hl⟩, h0, hb⟩

theorem ltv_peek_size_take (h : ltv_peek_size data = .ok (length, header_size))
    (hn : header_size ≤ n) : ltv_peek_size (data.take n) = .ok (length, header_size) := by
  obtain ⟨hd, h0, hb⟩ := ltv_peek_size_ok.mp h
  obtain ⟨hr, hl⟩ := ltv_decode_varint_value.mp hd
  refine ltv_peek_size_ok.mpr ⟨ltv_decode_varint_value.mpr ⟨?_, hl⟩, h0, hb⟩
  cases ht : read (data.take n) with
  | none =>
    have hsplit : read (data.take n ++ data.drop n) = some (length.toNat, header_size) := by
      rw [List.take_append_drop]
      exact hr
    have hp := read_past ht hsplit
    have := (read_used hr).2
    rw [List.length_take] at hp
    omega
  | some r =>
    have := read_append (data.drop n) (ht : read (data.take n) = some (r.1, r.2))
    rw [List.take_append_drop, hr] at this
    exact this.symm

theorem ltv_parse_append (after : Bytes) (h : ltv_parse data = .ok m) :
    ltv_parse (data ++ after) = .ok m := by
  obtain ⟨header_size, hp, hl, ht, hv⟩ := ltv_parse_ok.mp h
  have hh := ltv_peek_size_header hp
  refine ltv_parse_ok.mpr ⟨header_size, ltv_peek_size_append after hp, ?_, ?_, hv⟩
  · rw [List.length_append]
    omega
  · rw [ht, List.getD_append]
    rw [ltv_total_size] at hl
    omega

theorem ltv_decode_malformed_append (after : Bytes) (h : ltv_decode_varint data = .malformed) :
    ltv_decode_varint (data ++ after) = .malformed := by
  rw [ltv_decode_varint_eq] at h ⊢
  cases hr : read data with
  | some r =>
    rw [read_append after (hr : read data = some (r.1, r.2))]
    rw [hr] at h
    exact h
  | none =>
    rw [hr] at h
    have h5 : 5 ≤ data.length := by
      by_contra hc
      simp [hc] at h
    cases hr' : read (data ++ after) with
    | none => exact if_pos (by simp; omega)
    | some r => exact accepted_of_long (lt_of_le_of_lt h5 (read_past hr hr'))

theorem ltv_parse_refused_append {e : LtvParseResult} (after : Bytes)
    (h : ltv_parse data = .error e) (he : e ≠ .needMore) :
    ltv_parse (data ++ after) = .error e := by
  have hp : ltv_peek_size data = .error e := by
    rw [ltv_parse] at h
    cases hp : ltv_peek_size data with
    | error e' =>
      rw [hp] at h
      simpa using h
    | ok r =>
      rw [hp] at h
      dsimp only at h
      split_ifs at h
      cases h
      exact absurd rfl he
  have hp' : ltv_peek_size (data ++ after) = .error e := by
    rw [ltv_peek_size] at hp ⊢
    cases hd : ltv_decode_varint data with
    | malformed => rw [ltv_decode_malformed_append after hd, ← hp, hd]
    | needMore =>
      rw [hd] at hp
      cases hp
      exact absurd rfl he
    | value v used =>
      obtain ⟨hr, hl⟩ := ltv_decode_varint_value.mp hd
      rw [ltv_decode_varint_value.mpr ⟨read_append after hr, hl⟩, ← hp, hd]
  rw [ltv_parse, hp']

theorem ltv_message_read {m : LtvMessage} {header_size : ℕ} (data : Bytes)
    (hv : m.value = (if 0 < m.value_size then some (header_size + 1) else none)) :
    m.read data = view data (header_size + 1) m.value_size := by
  rw [LtvMessage.read, hv]
  split_ifs with h
  · rfl
  · rw [show m.value_size = 0 by omega, view_zero]

theorem ltv_wire_of_parse (h : ltv_parse data = .ok m) :
    ltv_wire m.type (m.read data) = data.take m.consumed ∧ m.consumed ≤ data.length ∧
      0 < m.consumed ∧ (m.read data).length = m.value_size ∧
      m.value_size ≤ LTV_MAX_PAYLOAD_SIZE := by
  obtain ⟨header_size, hp, hl, ht, hv, hs, hc⟩ := ltv_parse_ok.mp h
  obtain ⟨hh, hhl, h0, hb⟩ := ltv_peek_size_header hp
  rw [ltv_total_size] at hl hc
  have hread := ltv_message_read data hv
  have hlen : (m.read data).length = m.value_size := by
    rw [hread, length_view (by omega)]
  refine ⟨?_, by omega, by omega, hlen, by omega⟩
  have hlength : (m.read data).length.toUInt32 + 1 = m.length := by
    apply UInt32.toNat_inj.mp
    rw [length_toNat (by omega)]
    omega
  have hsplit : data.take m.consumed = data.take header_size ++
      (data.drop header_size).take (1 + m.value_size) := by
    rw [← List.take_add]
    congr 1
    omega
  rw [ltv_wire, hlength, ltv_encode_of_decode (ltv_peek_size_ok.mp hp).1, hsplit]
  congr 1
  rw [List.drop_eq_getElem_cons (by omega), Nat.add_comm 1, List.take_succ_cons, hread, ht,
    List.getD_eq_getElem _ _ (by omega)]
  rfl

theorem ltv_parse_wire (type : UInt8) (h : value.length ≤ LTV_MAX_PAYLOAD_SIZE) (after : Bytes) :
    ∃ m, ltv_parse (ltv_wire type value ++ after) = .ok m ∧ m.type = type ∧
      m.value_size = value.length ∧ m.read (ltv_wire type value ++ after) = value ∧
      m.consumed = (ltv_wire type value).length := by
  have hn := length_toNat h
  set length : UInt32 := value.length.toUInt32 + 1 with hlength
  set header := ltv_encode_varint length with hheader
  have hw : ltv_wire type value ++ after = header ++ (type :: (value ++ after)) := by
    simp [ltv_wire, ← hlength, ← hheader]
  have hwl : (ltv_wire type value).length = header.length + (value.length + 1) := by
    simp [ltv_wire, ← hlength, ← hheader]
  rw [hw, hwl]
  have hp : ltv_peek_size (header ++ (type :: (value ++ after))) = .ok (length, header.length) :=
    ltv_peek_size_ok.mpr ⟨ltv_decode_encode _ _, fun h0 => by
      rw [h0] at hn
      exact absurd hn (by simp), by omega⟩
  have hparse : ltv_parse (header ++ (type :: (value ++ after))) = .ok
      { length := length
        type := (header ++ (type :: (value ++ after))).getD header.length 0
        value := if 0 < length.toNat - 1 then some (header.length + 1) else none
        value_size := length.toNat - 1
        consumed := ltv_total_size length header.length } := by
    rw [ltv_parse, hp]
    dsimp only
    rw [if_neg]
    simp only [ltv_total_size, List.length_append, List.length_cons]
    omega
  refine ⟨_, hparse, ?_, ?_, ?_, ?_⟩
  · simp
  · simp only
    omega
  · rw [@ltv_message_read _ header.length _ rfl]
    have hdrop : (header ++ (type :: (value ++ after))).drop (header.length + 1) =
        value ++ after := by
      rw [← List.drop_drop, List.drop_left]
      rfl
    simp only [view, hdrop]
    rw [show length.toNat - 1 = value.length by omega, List.take_left]
  · simp only [ltv_total_size]
    omega

theorem ltv_parse_wire_take {type : UInt8} (h : value.length ≤ LTV_MAX_PAYLOAD_SIZE) {k : ℕ}
    (hk : k < (ltv_wire type value).length) :
    ltv_parse ((ltv_wire type value).take k) = .error .needMore := by
  obtain ⟨m, hm, -, -, -, hc⟩ := ltv_parse_wire type h []
  rw [List.append_nil] at hm
  have hsplit := List.take_append_drop k (ltv_wire type value)
  cases hp : ltv_parse ((ltv_wire type value).take k) with
  | ok m' =>
    have hm' := ltv_parse_append ((ltv_wire type value).drop k) hp
    rw [hsplit, hm] at hm'
    cases hm'
    have := (ltv_wire_of_parse hp).2.1
    rw [List.length_take] at this
    omega
  | error e =>
    by_cases he : e = .needMore
    · rw [he]
    · have hm' := ltv_parse_refused_append ((ltv_wire type value).drop k) hp he
      rw [hsplit, hm] at hm'
      cases hm'

theorem ltv_parse_completed (h : ltv_peek_size data = .ok (length, header_size)) :
    ∃ after m, ltv_parse (data ++ after) = .ok m := by
  have hh := ltv_peek_size_header h
  let after : Bytes := List.replicate length.toNat 0
  have hl : ltv_total_size length header_size ≤ (data ++ after).length := by
    simp only [ltv_total_size, List.length_append, List.length_replicate, after]
    omega
  let m : LtvMessage :=
    { length := length
      type := (data ++ after).getD header_size 0
      value := if 0 < length.toNat - 1 then some (header_size + 1) else none
      value_size := length.toNat - 1
      consumed := ltv_total_size length header_size }
  exact ⟨after, m, ltv_parse_ok.mpr
    ⟨header_size, ltv_peek_size_append _ h, hl, rfl, rfl, rfl, rfl⟩⟩

def Unfinished (data : Bytes) : Prop := ∀ byte ∈ data, 128 ≤ byte.toNat

theorem ltv_peek_size_closed (h : Unfinished data) (hl : data.length ≤ 3) :
    ∃ length, ltv_peek_size (data ++ [1]) = .ok (length, data.length + 1) := by
  obtain ⟨n, hr, hlow, hhigh⟩ := read_closed h
  have hpow : 128 ^ data.length ≤ 128 ^ 3 := Nat.pow_le_pow_right (by decide) hl
  have hb : LTV_MAX_PAYLOAD_SIZE = 10485760 := by decide
  have hn : n.toUInt32.toNat = n := UInt32.toNat_ofNat_of_lt' (show n < 2 ^ 32 by omega)
  have hused := write_length_le_used hr
  have hshort : (write n).length = data.length + 1 := by
    refine le_antisymm hused (Nat.succ_le_of_lt ?_)
    by_contra hc
    cases hd : data.length with
    | zero =>
      have := write_length_pos n
      omega
    | succ k =>
      have := (write_length_le (k := k)).mp (show (write n).length ≤ k + 1 by omega)
      rw [hd] at hlow
      omega
  refine ⟨n.toUInt32, ltv_peek_size_ok.mpr ⟨ltv_decode_varint_value.mpr ?_, ?_, ?_⟩⟩
  · rw [hn]
    exact ⟨hr, hshort⟩
  · intro h0
    rw [h0] at hn
    change 0 = n at hn
    omega
  · omega

/-- Four bytes that all say that more follow are the start of no message: the length they begin
is longer than any that is allowed. -/
theorem ltv_parse_four_unfinished {after : Bytes} (h : Unfinished data) (hl : data.length = 4) :
    ltv_parse (data ++ after) ≠ .ok m := by
  intro hp
  obtain ⟨header_size, hpeek, -⟩ := ltv_parse_ok.mp hp
  obtain ⟨hd, -, hb⟩ := ltv_peek_size_ok.mp hpeek
  obtain ⟨hr, hs⟩ := ltv_decode_varint_value.mp hd
  have hpast := read_past (read_eq_none.mpr h) hr
  have hshort : (write m.length.toNat).length ≤ 3 + 1 :=
    write_length_le.mpr (lt_of_le_of_lt hb (by decide))
  omega

theorem ltv_parse_extends (h : ltv_parse data = .error .needMore) :
    (∃ after m, ltv_parse (data ++ after) = .ok m) ↔ ¬ (data.length = 4 ∧ Unfinished data) := by
  constructor
  · rintro ⟨after, m, hm⟩ ⟨hl, hu⟩
    exact ltv_parse_four_unfinished hu hl hm
  · intro hn
    obtain hd | ⟨length, header_size, hp, -⟩ := ltv_parse_needMore.mp h
    · obtain ⟨hl, hu⟩ := ltv_decode_varint_needMore.mp hd
      have hl3 : data.length ≤ 3 := by
        by_contra hc
        exact hn ⟨by omega, hu⟩
      obtain ⟨length, hp⟩ := ltv_peek_size_closed hu hl3
      obtain ⟨after, m, hm⟩ := ltv_parse_completed hp
      exact ⟨[1] ++ after, m, by rw [← List.append_assoc]; exact hm⟩
    · exact ltv_parse_completed hp

/-- Building and parsing are inverse to one another on whole messages, any shorter part of one is
answered with a request for more, and such a request means that the text can be completed, four
unfinished bytes excepted. -/
theorem ltv_canonical_code :
    (∀ (type : UInt8) (value : Span UInt8) (out : Bytes),
      value.size ≤ LTV_MAX_PAYLOAD_SIZE → (value.isNull → value.size = 0) →
      ltv_wire_size value.size ≤ out.length →
      ∃ built, ltv_build type value (.cells out) =
          (ltv_wire_size value.size, built ++ out.drop built.length) ∧
        built.length = ltv_wire_size value.size ∧
        (∀ after, ∃ m, ltv_parse (built ++ after) = .ok m ∧ m.type = type ∧
          m.value_size = value.size ∧ m.read (built ++ after) = value.data ∧
          m.consumed = built.length) ∧
        ∀ k < built.length, ltv_parse (built.take k) = .error .needMore) ∧
    (∀ (data : Bytes) (m : LtvMessage), ltv_parse data = .ok m →
      ∀ (value : Span UInt8) (out : Bytes), value.data = m.read data →
        value.size = m.value_size → m.consumed ≤ out.length →
        ltv_build m.type value (.cells out) =
          (m.consumed, data.take m.consumed ++ out.drop m.consumed)) ∧
    ∀ data : Bytes, ltv_parse data = .error .needMore →
      ((∃ after m, ltv_parse (data ++ after) = .ok m) ↔
        ¬ (data.length = 4 ∧ Unfinished data)) := by
  refine ⟨fun type value out hs hv ho => ?_, fun data m h value out hd hs ho => ?_,
    fun data h => ltv_parse_extends h⟩
  · have hl : value.data.length = value.size := by
      cases value with
      | null n =>
        simp_all
      | cells data => rfl
    have hws : ltv_wire_size value.size = (ltv_wire type value.data).length := by
      rw [← hl, ltv_wire_size_eq type (by omega)]
    refine ⟨ltv_wire type value.data, ltv_build_eq hs hv ho, hws.symm, fun after => ?_,
      fun k hk => ltv_parse_wire_take (by omega) hk⟩
    rw [← hl]
    exact ltv_parse_wire type (by omega) after
  · obtain ⟨hw, hc, hpos, hl, hmax⟩ := ltv_wire_of_parse h
    have hwl : (ltv_wire m.type value.data).length = m.consumed := by
      rw [hd, hw, List.length_take, min_eq_left hc]
    have hws : ltv_wire_size value.size = m.consumed := by
      rw [hs, ← hl, ltv_wire_size_eq m.type (by omega), ← hd, hwl]
    rw [ltv_build_eq (by omega) ?_ (by omega), hws, hwl, hd, hw]
    intro hn
    cases value with
    | cells data => cases hn
    | null n =>
      rw [← hd] at hl
      simpa using (hl.trans hs.symm).symm

/-- Four unfinished bytes are answered with a request for more that nothing can meet. -/
theorem ltv_need_more_without_message :
    ltv_parse [0x80, 0x80, 0x80, 0x80] = .error .needMore ∧
      ¬ ∃ after m, ltv_parse ([0x80, 0x80, 0x80, 0x80] ++ after) = .ok m := by
  have hmore : ltv_parse [0x80, 0x80, 0x80, 0x80] = .error .needMore := by decide +kernel
  have hun : Unfinished [0x80, 0x80, 0x80, 0x80] := by
    unfold Unfinished
    decide +kernel
  exact ⟨hmore, fun ⟨after, m, h⟩ => ltv_parse_four_unfinished hun rfl h⟩

end SaltsUtils.Ltv
