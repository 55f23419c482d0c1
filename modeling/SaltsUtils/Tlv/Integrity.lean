import SaltsUtils.Library.Crc
import SaltsUtils.Tlv.Wire

/-!
# The check of a frame

The table makes eight steps of the shift register of `0xEDB88320` at once.
-/

set_option autoImplicit false

namespace SaltsUtils.Tlv

open SaltsUtils.Crc

def crc32Polynomial : BitVec 32 := 0xEDB88320#32

/-- The check bit by bit, with the complement before and after. -/
def crc32_bitwise (buf : Bytes) : BitVec 32 :=
  run crc32Polynomial 0xFFFFFFFF#32 (messageBits buf) ^^^ 0xFFFFFFFF#32

theorem and_one_ne_zero (c : UInt32) : c &&& 1 ≠ 0 ↔ c.toBitVec.getLsbD 0 = true := by
  have hbits : (c &&& 1).toBitVec = BitVec.setWidth 32 (BitVec.ofBool (c.toBitVec.getLsbD 0)) := by
    rw [UInt32.toBitVec_and]
    exact BitVec.and_one_eq_setWidth_ofBool_getLsbD
  rw [ne_eq, ← UInt32.toBitVec_inj, hbits]
  cases c.toBitVec.getLsbD 0 <;> decide

theorem table_step (c : UInt32) :
    (crc32_table_step c).toBitVec = shift crc32Polynomial c.toBitVec := by
  unfold crc32_table_step shift
  by_cases h : c.toBitVec.getLsbD 0 = true
  · rw [if_pos ((and_one_ne_zero c).mpr h), if_pos h, BitVec.xor_comm]
    rfl
  · rw [if_neg (mt (and_one_ne_zero c).mp h), if_neg h]
    rfl

theorem table_steps (k : ℕ) (c : UInt32) :
    (crc32_table_step^[k] c).toBitVec = (shift crc32Polynomial)^[k] c.toBitVec := by
  induction k generalizing c with
  | zero => rfl
  | succ k ih =>
    rw [Function.iterate_succ_apply, Function.iterate_succ_apply, ih, table_step]

theorem table_entry {i : ℕ} (h : i < 256) :
    (crc32_generate_table.getD i 0).toBitVec =
      (shift crc32Polynomial)^[8] (BitVec.ofNat 32 i) := by
  have hentry : crc32_generate_table.getD i 0 = crc32_table_step^[8] i.toUInt32 := by
    rw [crc32_generate_table, List.getD_eq_getElem _ _ (by simpa using h), List.getElem_map,
      List.getElem_range]
  rw [hentry, table_steps]
  rfl

theorem low_byte (c : UInt32) :
    BitVec.ofNat 32 (c &&& 0xFF).toNat = (c.toBitVec.setWidth 8).setWidth 32 := by
  apply BitVec.eq_of_toNat_eq
  have hand : (c &&& 0xFF).toNat = c.toNat % 2 ^ 8 := by
    rw [UInt32.toNat_and]
    exact Nat.and_two_pow_sub_one_eq_mod c.toNat 8
  rw [hand, BitVec.toNat_ofNat, BitVec.toNat_setWidth, BitVec.toNat_setWidth, UInt32.toNat_toBitVec]

theorem compute_step (c : UInt32) (byte : UInt8) :
    (crc32_generate_table.getD ((c ^^^ byte.toUInt32) &&& 0xFF).toNat 0 ^^^ (c >>> 8)).toBitVec =
      run crc32Polynomial c.toBitVec (bits byte.toBitVec) := by
  have hlt : ((c ^^^ byte.toUInt32) &&& 0xFF).toNat < 256 := by
    rw [UInt32.toNat_and]
    exact Nat.lt_of_le_of_lt Nat.and_le_right (by decide)
  have hhigh : (c.toBitVec ^^^ byte.toBitVec.setWidth 32) >>> 8 = c.toBitVec >>> 8 := by
    apply BitVec.eq_of_getLsbD_eq
    intro i hi
    rw [BitVec.getLsbD_ushiftRight, BitVec.getLsbD_xor, BitVec.getLsbD_setWidth,
      BitVec.getLsbD_of_ge byte.toBitVec _ (by omega), Bool.and_false, Bool.xor_false,
      BitVec.getLsbD_ushiftRight]
  have hlow : BitVec.ofNat 32 ((c ^^^ byte.toUInt32) &&& 0xFF).toNat =
      ((c.toBitVec ^^^ byte.toBitVec.setWidth 32).setWidth 8).setWidth 32 := low_byte _
  rw [run_byte _ _ (by decide), iterate_shift_low, hhigh, UInt32.toBitVec_xor, table_entry hlt, hlow]
  rfl

theorem crc32_compute_bitwise (buf : Bytes) :
    (crc32_compute crc32_generate_table buf).toBitVec = crc32_bitwise buf := by
  have hfold : ∀ c : UInt32, (buf.foldl (fun (c : UInt32) (u : UInt8) =>
      crc32_generate_table.getD ((c ^^^ u.toUInt32) &&& 0xFF).toNat 0 ^^^ (c >>> 8)) c).toBitVec =
      run crc32Polynomial c.toBitVec (messageBits buf) := by
    induction buf with
    | nil => exact fun _ => rfl
    | cons byte buf ih =>
      intro c
      rw [List.foldl_cons, ih, compute_step, messageBits_cons, run_append]
  rw [crc32_compute, UInt32.toBitVec_xor, hfold]
  rfl

theorem pack_le32 (a b c d : UInt8) :
    pack 32 (messageBits [a, b, c, d]) = (read_le32 [a, b, c, d] 0).toBitVec := by
  rw [pack_messageBits_cons, pack_messageBits_cons, pack_messageBits_cons, pack_messageBits_cons]
  simp [messageBits, pack, read_le32, BitVec.shiftLeft_or_distrib, ← BitVec.shiftLeft_add,
    BitVec.or_assoc]

/-- A text that starts with a frame whose marks and checksum are right. -/
structure Sound (data front trailer rest : Bytes) (payload_size : UInt32) : Prop where
  parts : data = front ++ trailer ++ [FRAME_TAIL] ++ rest
  front_length : front.length = 11 + payload_size.toNat
  trailer_length : trailer.length = 4
  size : read_le32 data 7 = payload_size
  crc : crc32_compute crc32_generate_table front = read_le32 trailer 0

theorem read_le32_at {front trailer : Bytes} (after : Bytes) (h : trailer.length = 4) :
    read_le32 (front ++ (trailer ++ after)) front.length = read_le32 trailer 0 := by
  have hget : ∀ i < 4, (front ++ (trailer ++ after)).getD (front.length + i) 0 =
      trailer.getD i 0 := by
    intro i hi
    rw [List.getD_append_right _ _ _ _ (Nat.le_add_right _ _), Nat.add_sub_cancel_left,
      List.getD_append _ _ _ _ (by omega)]
  rw [read_le32, read_le32, hget 1 (by omega), hget 2 (by omega), hget 3 (by omega)]
  have := hget 0 (by omega)
  rw [Nat.add_zero] at this
  rw [this]

theorem frame_parse_sound {data : Bytes} {frame : Frame}
    (h : frame_parse data false = .ok frame) : ∃ front trailer rest payload_size,
      Sound data front trailer rest payload_size ∧ frame.payload_size = payload_size.toNat := by
  obtain ⟨payload_size, hpeek, hle, hsize, -⟩ := frame_parse_ok h
  obtain ⟨h11, hread⟩ := frame_peek_size_ok hpeek
  have htotal : frame_total_size payload_size = 16 + payload_size.toNat := rfl
  rw [htotal] at hle
  rw [frame_parse, hpeek] at h
  dsimp only at h
  rw [if_neg (by omega)] at h
  by_cases ht : data.getD (frame_total_size payload_size - 1) 0 ≠ FRAME_TAIL
  · rw [if_pos ht] at h
    cases h
  rw [if_neg ht, if_neg Bool.false_ne_true] at h
  by_cases hc : crc32_compute crc32_generate_table
      (data.take (FRAME_HEADER_SIZE + payload_size.toNat)) ≠
      read_le32 data (FRAME_OFF_PAYLOAD + payload_size.toNat)
  · rw [if_pos hc] at h
    cases h
  have hn : FRAME_HEADER_SIZE + payload_size.toNat = 11 + payload_size.toNat := rfl
  have hfront : (data.take (11 + payload_size.toNat)).length = 11 + payload_size.toNat := by
    rw [List.length_take]
    omega
  have htrailer : ((data.drop (11 + payload_size.toNat)).take 4).length = 4 := by
    rw [List.length_take, List.length_drop]
    omega
  have hlast : data.drop (15 + payload_size.toNat) =
      FRAME_TAIL :: data.drop (16 + payload_size.toNat) := by
    rw [List.drop_eq_getElem_cons (by omega), Nat.add_right_comm]
    congr 1
    rw [not_not, htotal, List.getD_eq_getElem _ _ (by omega)] at ht
    rw [← ht]
    congr 1
    omega
  have hparts : data = data.take (11 + payload_size.toNat) ++
      (data.drop (11 + payload_size.toNat)).take 4 ++ [FRAME_TAIL] ++
        data.drop (16 + payload_size.toNat) := by
    have hback : (data.drop (11 + payload_size.toNat)).drop 4 =
        data.drop (15 + payload_size.toNat) := by
      rw [List.drop_drop]
      congr 1
      omega
    rw [List.append_assoc, List.singleton_append, ← hlast, List.append_assoc, ← hback,
      List.take_append_drop, List.take_append_drop]
  refine ⟨_, _, _, payload_size, ⟨hparts, hfront, htrailer, hread.symm, ?_⟩, hsize⟩
  rw [not_not, hn] at hc
  rw [hc, ← read_le32_at ([FRAME_TAIL] ++ data.drop (16 + payload_size.toNat)) htrailer,
    ← List.append_assoc, ← List.append_assoc, ← hparts, hfront]
  rfl

theorem getD_corrupt {data error : Bytes} (h : error.length = data.length) (i : ℕ) :
    (corrupt data error).getD i 0 = data.getD i 0 ^^^ error.getD i 0 := by
  by_cases hi : i < data.length
  · rw [List.getD_eq_getElem _ _ (by rw [length_corrupt h]; exact hi),
      List.getD_eq_getElem _ _ hi, List.getD_eq_getElem _ _ (h ▸ hi)]
    simp [corrupt]
  · rw [List.getD_eq_default _ _ (by rw [length_corrupt h]; omega),
      List.getD_eq_default _ _ (Nat.le_of_not_lt hi), List.getD_eq_default _ _ (by omega)]
    rfl

theorem crc32_eq_iff {front trailer : Bytes} (h : trailer.length = 4) :
    crc32_compute crc32_generate_table front = read_le32 trailer 0 ↔
      run crc32Polynomial 0xFFFFFFFF#32 (messageBits front) ^^^ 0xFFFFFFFF#32 =
        pack 32 (messageBits trailer) := by
  obtain ⟨a, b, c, d, rfl⟩ : ∃ a b c d, trailer = [a, b, c, d] :=
    match trailer, h with
    | [a, b, c, d], _ => ⟨a, b, c, d, rfl⟩
  rw [← UInt32.toBitVec_inj, crc32_compute_bitwise, pack_le32]
  rfl

/-- Two frames of one size that differ by a burst do not both have the right marks and
checksum. -/
theorem Sound.not_corrupt {front trailer error front' trailer' : Bytes}
    (ht : trailer.length = 4) (ht' : trailer'.length = 4)
    (hl : error.length = (front ++ trailer ++ [FRAME_TAIL]).length)
    (hb : Burst 32 (messageBits error))
    (hflip : front' ++ trailer' ++ [FRAME_TAIL] = corrupt (front ++ trailer ++ [FRAME_TAIL]) error)
    (hgood : crc32_compute crc32_generate_table front = read_le32 trailer 0) :
    crc32_compute crc32_generate_table front' ≠ read_le32 trailer' 0 := by
  rw [List.length_append] at hl
  obtain ⟨inside, flip, rfl, hinside⟩ : ∃ inside flip, error = inside ++ [flip] ∧
      inside.length = (front ++ trailer).length := by
    refine ⟨error.dropLast, error.getLast (List.ne_nil_of_length_pos (by rw [hl]; simp)),
      (List.dropLast_concat_getLast _).symm, ?_⟩
    rw [List.length_dropLast, hl]
    simp
  have happend : corrupt (front ++ trailer ++ [FRAME_TAIL]) (inside ++ [flip]) =
      corrupt (front ++ trailer) inside ++ [FRAME_TAIL ^^^ flip] :=
    List.zipWith_append hinside.symm
  rw [happend] at hflip
  obtain ⟨hbody, htail⟩ := List.append_inj' hflip rfl
  have hflat : flip = 0 := by
    have htail' : FRAME_TAIL = FRAME_TAIL ^^^ flip := by simpa using htail
    have := congrArg (FRAME_TAIL ^^^ ·) htail'
    simpa [← UInt8.xor_assoc] using this.symm
  have hzeros : messageBits [flip] = List.replicate 8 false := by
    rw [hflat]
    decide
  rw [messageBits_append, hzeros] at hb
  have hbits : messageBits front' ++ messageBits trailer' = List.zipWith (· ^^ ·)
      (messageBits front ++ messageBits trailer) (messageBits inside) := by
    rw [← messageBits_append, ← messageBits_append, hbody, messageBits_corrupt hinside]
  have hpoly : crc32Polynomial.getLsbD (32 - 1) = true := by decide
  have hbad := burst_detected hpoly
    (by rw [length_messageBits, ht]) (by rw [length_messageBits, ht']) hb.of_append_falses
    (by rw [← messageBits_append, length_messageBits, length_messageBits, hinside]) hbits
    ((crc32_eq_iff ht).mp hgood)
  exact fun heq => hbad ((crc32_eq_iff ht').mp heq)

/-- The table gives the check bit by bit. A frame that is accepted is not accepted with a
burst of at most thirty-two places outside its size, whatever follows it then. -/
theorem crc32_detects :
    (∀ buf, (crc32_compute crc32_generate_table buf).toBitVec = crc32_bitwise buf) ∧
    ∀ (data : Bytes) (frame : Frame), frame_parse data false = .ok frame →
      ∀ error rest : Bytes, error.length = FRAME_MIN_SIZE + frame.payload_size →
        (∀ i, FRAME_OFF_PAYLOAD_SIZE ≤ i → i < FRAME_OFF_PAYLOAD → error.getD i 0 = 0) →
        Burst 32 (messageBits error) →
        ∀ other, frame_parse (corrupt (data.take error.length) error ++ rest) false ≠ .ok other := by
  refine ⟨crc32_compute_bitwise, ?_⟩
  intro data frame h error rest hl hsize hb other hother
  obtain ⟨front, trailer, after, n, hs, hn⟩ := frame_parse_sound h
  obtain ⟨front', trailer', after', n', hs', -⟩ := frame_parse_sound hother
  have hmin : FRAME_MIN_SIZE = 16 := rfl
  have hwhole : (front ++ trailer ++ [FRAME_TAIL]).length = error.length := by
    rw [List.length_append, List.length_append, hs.front_length, hs.trailer_length, hl, hn, hmin,
      List.length_singleton]
    omega
  have hframe : data.take error.length = front ++ trailer ++ [FRAME_TAIL] := by
    rw [hs.parts, ← hwhole, List.take_left]
  have htake : error.length = (data.take error.length).length := by rw [hframe, hwhole]
  have hcl := length_corrupt htake
  rw [← htake] at hcl
  have hbyte : ∀ i, 7 ≤ i → i < 11 →
      (corrupt (data.take error.length) error ++ rest).getD i 0 = data.getD i 0 := by
    intro i h7 h11
    rw [List.getD_append _ _ _ _ (by omega), getD_corrupt htake, hsize i h7 h11]
    have hi : i < error.length := by omega
    conv => rhs; rw [← List.take_append_drop error.length data]
    rw [List.getD_append _ _ _ _ (htake ▸ hi)]
    exact UInt8.xor_zero
  have hsame : n' = n := by
    rw [← hs'.size, ← hs.size, read_le32, read_le32, hbyte 7 (by omega) (by omega),
      hbyte (7 + 1) (by omega) (by omega), hbyte (7 + 2) (by omega) (by omega),
      hbyte (7 + 3) (by omega) (by omega)]
  subst hsame
  have hfronts : front'.length = front.length := hs'.front_length.trans hs.front_length.symm
  have hflip : front' ++ trailer' ++ [FRAME_TAIL] =
      corrupt (front ++ trailer ++ [FRAME_TAIL]) error := by
    have hlen : (front' ++ trailer' ++ [FRAME_TAIL]).length =
        (corrupt (data.take error.length) error).length := by
      rw [hcl, ← hwhole, List.length_append, List.length_append, List.length_append,
        List.length_append, hfronts, hs.trailer_length, hs'.trailer_length]
    have := (List.append_inj hs'.parts hlen.symm).1
    rw [← this, hframe]
  exact Sound.not_corrupt hs.trailer_length hs'.trailer_length hwhole.symm hb hflip hs.crc
    hs'.crc

def emptyFrame : Bytes :=
  [0xAA, 1, 0, 0, 0, 1, 0, 0, 0, 0, 0, 0xBB, 0xEB, 0xCB, 0x5C, 0x55]

theorem crc32_detects_id :
    ¬ ∃ other, frame_parse
      (corrupt emptyFrame [0, 0, 0, 0, 0x80, 1, 0, 0, 0, 0, 0, 0, 0, 0, 0, 0]) false =
        .ok other := by
  have hgood : (frame_parse emptyFrame false).toOption.map Frame.payload_size = some 0 := by
    decide +kernel
  cases hf : frame_parse emptyFrame false with
  | error e =>
    rw [hf] at hgood
    cases hgood
  | ok frame =>
    rw [hf] at hgood
    have hn : frame.payload_size = 0 := Option.some.inj hgood
    rintro ⟨other, hother⟩
    have hsize : ∀ i, 7 ≤ i → i < 11 →
        ([0, 0, 0, 0, 0x80, 1, 0, 0, 0, 0, 0, 0, 0, 0, 0, 0] : Bytes).getD i 0 = 0 := by
      intro i h7 h11
      interval_cases i <;> rfl
    refine crc32_detects.2 emptyFrame frame hf _ [] (by rw [hn]; rfl) hsize
      ⟨by decide, 39, fun i hi => ?_⟩ other ?_
    · have hlt : i < 128 := by
        by_contra hge
        rw [List.getD_eq_default _ _ (by rw [length_messageBits]; exact Nat.le_of_not_lt hge)] at hi
        cases hi
      have hset : ∀ i < 128, (messageBits
          [0, 0, 0, 0, 0x80, 1, 0, 0, 0, 0, 0, 0, 0, 0, 0, 0]).getD i false = true →
            39 ≤ i ∧ i < 39 + 32 := by
        decide +kernel
      exact hset i hlt hi
    · rw [List.append_nil, List.take_of_length_le (by decide)]
      exact hother

end SaltsUtils.Tlv
