import SaltsUtils.Soa.Layout

/-!
# The bytes of a batch

The header with its bitmap as it is built and read, and the elements of a column as the
accessors find them.
-/

set_option autoImplicit false

namespace SaltsUtils.Soa

open LittleEndian

theorem join_16 (a b : UInt8) : (a.toUInt16 ||| b.toUInt16 <<< 8).toBitVec = join 16 [a, b] := by
  simp [join]

theorem join_32 (a b c d : UInt8) :
    (a.toUInt32 ||| b.toUInt32 <<< 8 ||| c.toUInt32 <<< 16 ||| d.toUInt32 <<< 24).toBitVec =
      join 32 [a, b, c, d] := by
  simp [join, BitVec.shiftLeft_or_distrib, ← BitVec.shiftLeft_add, BitVec.or_assoc]

theorem join_64 (a b c d e f g h : UInt8) :
    (a.toUInt64 ||| b.toUInt64 <<< 8 ||| c.toUInt64 <<< 16 ||| d.toUInt64 <<< 24 |||
      e.toUInt64 <<< 32 ||| f.toUInt64 <<< 40 ||| g.toUInt64 <<< 48 |||
        h.toUInt64 <<< 56).toBitVec = join 64 [a, b, c, d, e, f, g, h] := by
  simp [join, BitVec.shiftLeft_or_distrib, ← BitVec.shiftLeft_add, BitVec.or_assoc]

theorem split_16 (v : UInt16) : split 2 v.toBitVec = [v.toUInt8, (v >>> 8).toUInt8] := by
  rfl

theorem split_32 (v : UInt32) : split 4 v.toBitVec =
    [v.toUInt8, (v >>> 8).toUInt8, (v >>> 16).toUInt8, (v >>> 24).toUInt8] := by
  simp only [split, ← BitVec.shiftRight_add]
  rfl

/-- Bytes that stand in the data from an offset on. -/
def At (data : Bytes) (p : ℕ) (bytes : Bytes) : Prop :=
  ∀ k < bytes.length, data[p + k]? = bytes[k]?

theorem At.get {data bytes : Bytes} {p : ℕ} (h : At data p bytes) {k : ℕ} {byte : UInt8}
    (hk : bytes[k]? = some byte) : data[p + k]? = some byte := by
  rw [h k (List.getElem?_eq_some_iff.mp hk).1, hk]

theorem at_append (front bytes after : Bytes) : At (front ++ bytes ++ after) front.length bytes := by
  intro k hk
  rw [List.append_assoc, List.getElem?_append_right (Nat.le_add_right _ _), Nat.add_sub_cancel_left,
    List.getElem?_append_left hk]

def SoaColumnType.encode : (type : SoaColumnType) → type.Elem → Bytes
  | .i8, v => split 1 (Int8.toBitVec v)
  | .u8, v => split 1 (UInt8.toBitVec v)
  | .i16, v => split 2 (Int16.toBitVec v)
  | .u16, v => split 2 (UInt16.toBitVec v)
  | .i32, v => split 4 (Int32.toBitVec v)
  | .u32, v => split 4 (UInt32.toBitVec v)
  | .i64, v => split 8 (Int64.toBitVec v)
  | .u64, v => split 8 (UInt64.toBitVec v)
  | .f32, v => split 4 (v : BitVec 32)
  | .f64, v => split 8 (v : BitVec 64)

theorem length_encode (type : SoaColumnType) (v : type.Elem) :
    (type.encode v).length = soa_type_width type := by
  cases type <;> exact length_split _ _

section

variable {data : Bytes} {b : SoaBatch} {col p : ℕ} {row : UInt32}

theorem row_offset {k : ℕ} (hrow : row.toNat < 2 ^ 20) (hk : k ≤ 8) :
    (row * k.toUInt32).toNat = row.toNat * k := by
  have hkk : k.toUInt32.toNat = k := UInt32.toNat_ofNat_of_lt' (show k < 2 ^ 32 by omega)
  rw [UInt32.toNat_mul, hkk, Nat.mod_eq_of_lt]
  calc row.toNat * k ≤ row.toNat * 8 := Nat.mul_le_mul_left _ hk
    _ < 2 ^ 32 := by omega

theorem get_u8_eq (hc : b.column col = some p) {v : UInt8}
    (hat : At data (p + row.toNat * 1) (split 1 v.toBitVec)) :
    soa_get_u8 data b col row = some v := by
  have h0 : data[p + row.toNat * 1 + 0]? = some v := hat.get (by simp [split])
  rw [soa_get_u8, hc]
  simpa using h0

section
variable (hrow : row.toNat < 2 ^ 20) (hc : b.column col = some p)
include hrow hc

theorem get_u16_eq {v : UInt16} (hat : At data (p + row.toNat * 2) (split 2 v.toBitVec)) :
    soa_get_u16 data b col row = some v := by
  obtain ⟨x0, x1, hx⟩ : ∃ x0 x1, split 2 v.toBitVec = [x0, x1] := ⟨_, _, rfl⟩
  have hv : x0.toUInt16 ||| x1.toUInt16 <<< 8 = v := by
    rw [← UInt16.toBitVec_inj, join_16, ← hx, join_split_width _ (by decide)]
  rw [hx] at hat
  have hoff : (row * 2).toNat = row.toNat * 2 := row_offset hrow (by decide)
  have h0 := hat.get (k := 0) rfl
  have h1 := hat.get (k := 1) rfl
  rw [Nat.add_zero] at h0
  rw [soa_get_u16, hc]
  dsimp only [Option.bind_eq_bind, Option.bind_some]
  rw [hoff, h0, h1]
  exact congrArg some hv

theorem get_u32_eq {v : UInt32} (hat : At data (p + row.toNat * 4) (split 4 v.toBitVec)) :
    soa_get_u32 data b col row = some v := by
  obtain ⟨x0, x1, x2, x3, hx⟩ : ∃ x0 x1 x2 x3, split 4 v.toBitVec = [x0, x1, x2, x3] :=
    ⟨_, _, _, _, rfl⟩
  have hv : x0.toUInt32 ||| x1.toUInt32 <<< 8 ||| x2.toUInt32 <<< 16 ||| x3.toUInt32 <<< 24 = v := by
    rw [← UInt32.toBitVec_inj, join_32, ← hx, join_split_width _ (by decide)]
  rw [hx] at hat
  have hoff : (row * 4).toNat = row.toNat * 4 := row_offset hrow (by decide)
  have h0 := hat.get (k := 0) rfl
  rw [Nat.add_zero] at h0
  rw [soa_get_u32, hc]
  dsimp only [Option.bind_eq_bind, Option.bind_some]
  rw [hoff, h0, hat.get (k := 1) rfl, hat.get (k := 2) rfl, hat.get (k := 3) rfl]
  exact congrArg some hv

theorem get_u64_eq {v : UInt64} (hat : At data (p + row.toNat * 8) (split 8 v.toBitVec)) :
    soa_get_u64 data b col row = some v := by
  obtain ⟨x0, x1, x2, x3, x4, x5, x6, x7, hx⟩ : ∃ x0 x1 x2 x3 x4 x5 x6 x7,
      split 8 v.toBitVec = [x0, x1, x2, x3, x4, x5, x6, x7] := ⟨_, _, _, _, _, _, _, _, rfl⟩
  have hv : x0.toUInt64 ||| x1.toUInt64 <<< 8 ||| x2.toUInt64 <<< 16 ||| x3.toUInt64 <<< 24 |||
      x4.toUInt64 <<< 32 ||| x5.toUInt64 <<< 40 ||| x6.toUInt64 <<< 48 ||| x7.toUInt64 <<< 56 = v := by
    rw [← UInt64.toBitVec_inj, join_64, ← hx, join_split_width _ (by decide)]
  rw [hx] at hat
  have hoff : (row * 8).toNat = row.toNat * 8 := row_offset hrow (by decide)
  have h0 := hat.get (k := 0) rfl
  rw [Nat.add_zero] at h0
  rw [soa_get_u64, hc]
  dsimp only [Option.bind_eq_bind, Option.bind_some]
  rw [hoff, h0, hat.get (k := 1) rfl, hat.get (k := 2) rfl, hat.get (k := 3) rfl,
    hat.get (k := 4) rfl, hat.get (k := 5) rfl, hat.get (k := 6) rfl, hat.get (k := 7) rfl]
  exact congrArg some hv

end

theorem soa_get_eq (type : SoaColumnType) (v : type.Elem) (hrow : row.toNat < 2 ^ 20)
    (hc : b.column col = some p)
    (hat : At data (p + row.toNat * soa_type_width type) (type.encode v)) :
    soa_get data b col row type = some v := by
  cases type with
  | u8 => exact get_u8_eq hc hat
  | u16 => exact get_u16_eq hrow hc hat
  | u32 => exact get_u32_eq hrow hc hat
  | u64 => exact get_u64_eq hrow hc hat
  | i8 => exact congrArg (Option.map UInt8.toInt8) (get_u8_eq (v := Int8.toUInt8 v) hc hat)
  | i16 => exact congrArg (Option.map UInt16.toInt16) (get_u16_eq (v := Int16.toUInt16 v) hrow hc hat)
  | i32 => exact congrArg (Option.map UInt32.toInt32) (get_u32_eq (v := Int32.toUInt32 v) hrow hc hat)
  | i64 => exact congrArg (Option.map UInt64.toInt64) (get_u64_eq (v := Int64.toUInt64 v) hrow hc hat)
  | f32 => exact congrArg (Option.map UInt32.toBitVec) (get_u32_eq (v := ⟨v⟩) hrow hc hat)
  | f64 => exact congrArg (Option.map UInt64.toBitVec) (get_u64_eq (v := ⟨v⟩) hrow hc hat)

end

def header (schema : SoaSchema) (count : UInt32) (mask : UInt16) : Bytes :=
  split 4 count.toBitVec ++ split 2 schema.schema_id.toBitVec ++
    split (bitmap_bytes schema) mask.toBitVec

theorem length_header (schema : SoaSchema) (count : UInt32) (mask : UInt16) :
    (header schema count mask).length = header_size schema := by
  simp only [header, header_size, List.length_append, length_split]

theorem bitmap_bytes_le {schema : SoaSchema} (h : schema.column_count.toNat ≤ 31) :
    bitmap_bytes schema ≤ 4 := by
  rw [bitmap_bytes]
  omega

theorem write_mask_eq {mask : UInt16} {rounds i : ℕ} {front rest : Bytes} (hi : i + rounds ≤ 4)
    (hf : front.length = 6 + i) (hr : rounds ≤ rest.length) :
    write_mask mask rounds i (front ++ rest) =
      some (front ++ split rounds (mask.toBitVec >>> (i * 8)) ++ rest.drop rounds) := by
  induction rounds generalizing i front rest with
  | zero => simp [write_mask, split]
  | succ rounds ih =>
    obtain ⟨old, rest, rfl⟩ :=
      List.exists_cons_of_length_pos (Nat.lt_of_lt_of_le (Nat.succ_pos rounds) hr)
    have hshift : int_shr mask.toNat (i * 8) = some (mask.toNat >>> (i * 8)) := if_pos (by omega)
    have hbyte : (mask.toNat >>> (i * 8)).toUInt8 = ⟨(mask.toBitVec >>> (i * 8)).setWidth 8⟩ := by
      apply UInt8.toBitVec_inj.mp
      apply BitVec.eq_of_toNat_eq
      simp
    have hwrite := overwrite_append front (old :: rest) [(mask.toNat >>> (i * 8)).toUInt8]
    rw [hf] at hwrite
    rw [write_mask, hshift]
    dsimp only [Option.bind_eq_bind, Option.bind_some]
    rw [hwrite, List.length_singleton, List.drop_succ_cons, List.drop_zero,
      ih (by omega) (by simp [hf]; omega) (by simpa using hr), hbyte, split, ← BitVec.shiftRight_add]
    simp [Nat.add_mul]

theorem soa_build_header_eq {schema : SoaSchema} (count : UInt32) (mask : UInt16) {out : Bytes}
    (h : schema.column_count.toNat ≤ 31) (ho : header_size schema ≤ out.length) :
    soa_build_header schema count mask out = some (header_size schema,
      header schema count mask ++ out.drop (header_size schema)) := by
  rw [header_size] at ho
  obtain ⟨b0, b1, b2, b3, b4, b5, rest, rfl⟩ : ∃ b0 b1 b2 b3 b4 b5 rest,
      out = b0 :: b1 :: b2 :: b3 :: b4 :: b5 :: rest :=
    match out, (show 6 ≤ out.length by omega) with
    | b0 :: b1 :: b2 :: b3 :: b4 :: b5 :: rest, _ => ⟨b0, b1, b2, b3, b4, b5, rest, rfl⟩
  have hrest : bitmap_bytes schema ≤ rest.length := by
    simp only [List.length_cons] at ho
    omega
  have hwords : overwrite (overwrite (b0 :: b1 :: b2 :: b3 :: b4 :: b5 :: rest) 0
      (split 4 count.toBitVec)) 4 (split 2 schema.schema_id.toBitVec) =
      split 4 count.toBitVec ++ split 2 schema.schema_id.toBitVec ++ rest := rfl
  rw [soa_build_header, if_neg (Nat.not_lt.mpr ho), ← split_32, ← split_16]
  dsimp only
  rw [hwords, write_mask_eq (by have := bitmap_bytes_le h; omega) (by simp) hrest, header_size, header,
    Nat.add_comm 6]
  simp

theorem soa_peek_header_eq (schema : SoaSchema) (count : UInt32) (mask : UInt16) (after : Bytes) :
    soa_peek_header (header schema count mask ++ after) = .ok (count, schema.schema_id) := by
  have hlen : ¬ (header schema count mask ++ after).length < 6 := by
    rw [List.length_append, length_header, header_size]
    omega
  obtain ⟨x0, x1, x2, x3, hx⟩ : ∃ x0 x1 x2 x3, split 4 count.toBitVec = [x0, x1, x2, x3] :=
    ⟨_, _, _, _, rfl⟩
  obtain ⟨y0, y1, hy⟩ : ∃ y0 y1, split 2 schema.schema_id.toBitVec = [y0, y1] := ⟨_, _, rfl⟩
  have hcount : x0.toUInt32 ||| x1.toUInt32 <<< 8 ||| x2.toUInt32 <<< 16 ||| x3.toUInt32 <<< 24 =
      count := by
    rw [← UInt32.toBitVec_inj, join_32, ← hx, join_split_width _ (by decide)]
  have hid : y0.toUInt16 ||| y1.toUInt16 <<< 8 = schema.schema_id := by
    rw [← UInt16.toBitVec_inj, join_16, ← hy, join_split_width _ (by decide)]
  rw [soa_peek_header, if_neg hlen, header, hx, hy]
  exact congrArg Except.ok (Prod.ext hcount hid)

theorem split_byte {w : ℕ} {n j : ℕ} (v : BitVec w) (h : j < n) :
    ((split n v).getD j 0).toNat = v.toNat / 2 ^ (j * 8) % 256 := by
  induction n generalizing j v with
  | zero => omega
  | succ n ih =>
    cases j with
    | zero =>
      rw [split, List.getD_cons_zero, Nat.zero_mul, pow_zero, Nat.div_one]
      exact BitVec.toNat_setWidth ..
    | succ j =>
      rw [split, List.getD_cons_succ, ih _ (by omega), BitVec.toNat_ushiftRight,
        Nat.shiftRight_eq_div_pow, Nat.div_div_eq_div_mul, ← pow_add, Nat.succ_mul, Nat.add_comm]

theorem read_mask_eq {data : Bytes} (mask : UInt16) {rounds i : ℕ} (low : UInt16)
    (hi : i + rounds ≤ 4) (hlow : low.toNat = mask.toNat % 2 ^ (i * 8))
    (hdata : ∀ j < i + rounds, (data.getD (6 + j) 0).toNat = mask.toNat / 2 ^ (j * 8) % 256) :
    ∃ result, read_mask data rounds i low = some result ∧
      result.toNat = mask.toNat % 2 ^ ((i + rounds) * 8) := by
  induction rounds generalizing i low with
  | zero => exact ⟨low, rfl, hlow⟩
  | succ rounds ih =>
    have hbyte := hdata i (by omega)
    have hmask := mask.toNat_lt
    have hpart : mask.toNat / 2 ^ (i * 8) % 256 * 2 ^ (i * 8) < 2 ^ 16 := by
      have hdiv := Nat.div_mul_le_self mask.toNat (2 ^ (i * 8))
      have hmod := Nat.mul_le_mul_right (2 ^ (i * 8))
        (Nat.mod_le (mask.toNat / 2 ^ (i * 8)) 256)
      omega
    have hnext : (low ||| ((data.getD (6 + i) 0).toNat * 2 ^ (i * 8)).toUInt16).toNat =
        mask.toNat % 2 ^ ((i + 1) * 8) := by
      have hcast : ((data.getD (6 + i) 0).toNat * 2 ^ (i * 8)).toUInt16.toNat =
          mask.toNat / 2 ^ (i * 8) % 256 * 2 ^ (i * 8) := by
        rw [hbyte]
        exact UInt16.toNat_ofNat_of_lt' hpart
      rw [UInt16.toNat_or, hcast, hlow, Nat.or_comm, Nat.mul_comm,
        ← Nat.two_pow_add_eq_or_of_lt (Nat.mod_lt _ (Nat.two_pow_pos _)), Nat.add_mul, pow_add,
        Nat.mod_mul, Nat.add_comm]
      rfl
    have hshift : int_shl (data.getD (6 + i) 0).toNat (i * 8) =
        some ((data.getD (6 + i) 0).toNat * 2 ^ (i * 8)) := by
      apply int_shl_eq (by omega)
      rw [hbyte]
      omega
    rw [read_mask, hshift]
    have hassoc : i + (rounds + 1) = i + 1 + rounds := by omega
    rw [hassoc] at hi hdata ⊢
    exact ih _ hi hnext hdata

theorem header_mask {schema : SoaSchema} {mask : UInt16} (count : UInt32) (after : Bytes)
    (h : schema.column_count.toNat ≤ 31)
    (hm : ∀ col, mask.toNat.testBit col = true → col < schema.column_count.toNat) :
    read_mask (header schema count mask ++ after) (bitmap_bytes schema) 0 0 = some mask := by
  have hdata : ∀ j < 0 + bitmap_bytes schema,
      ((header schema count mask ++ after).getD (6 + j) 0).toNat =
        mask.toNat / 2 ^ (j * 8) % 256 := by
    intro j hj
    rw [Nat.zero_add] at hj
    have hsix : (split 4 count.toBitVec ++ split 2 schema.schema_id.toBitVec).length = 6 := rfl
    rw [header, List.append_assoc, List.getD_append_right _ _ _ _ (by rw [hsix]; omega), hsix,
      Nat.add_sub_cancel_left, List.getD_append _ _ _ _ (by rw [length_split]; exact hj)]
    exact split_byte _ hj
  obtain ⟨result, hread, hresult⟩ := read_mask_eq mask 0
    (by have := bitmap_bytes_le h; omega) (by rw [Nat.zero_mul, pow_zero, Nat.mod_one]; rfl) hdata
  have hlt : mask.toNat < 2 ^ ((0 + bitmap_bytes schema) * 8) := by
    apply (mask_lt hm).trans_le
    apply Nat.pow_le_pow_right (by decide)
    rw [bitmap_bytes]
    omega
  rw [Nat.mod_eq_of_lt hlt] at hresult
  rw [hread, UInt16.toNat_inj.mp hresult]

section

variable (schema : SoaSchema) (mask : UInt16) (values : (col : ℕ) → List (schema.type col).Elem)

def column_bytes (col : ℕ) : Bytes := (values col).flatMap (schema.type col).encode

/-- The present ones among the first columns. -/
def body : ℕ → Bytes
  | 0 => []
  | col + 1 => body col ++ if mask.toNat.testBit col then column_bytes schema values col else []

end

variable {schema : SoaSchema} {count : UInt32} {mask : UInt16}
  {values : (col : ℕ) → List (schema.type col).Elem}

theorem length_flatMap_const {α : Type} {f : α → Bytes} {n : ℕ} (hf : ∀ a, (f a).length = n)
    (l : List α) : (l.flatMap f).length = l.length * n := by
  induction l with
  | nil => simp
  | cons a l ih => rw [List.flatMap_cons, List.length_append, ih, hf, List.length_cons,
      Nat.succ_mul, Nat.add_comm]

theorem at_flatMap {α : Type} {f : α → Bytes} {n : ℕ} (hf : ∀ a, (f a).length = n) {l : List α}
    {i : ℕ} {a : α} (h : l[i]? = some a) : At (l.flatMap f) (i * n) (f a) := by
  obtain ⟨hi, rfl⟩ := List.getElem?_eq_some_iff.mp h
  have hsplit : l.flatMap f = (l.take i).flatMap f ++ f l[i] ++ (l.drop (i + 1)).flatMap f := by
    conv => lhs; rw [← List.take_append_drop i l, List.drop_eq_getElem_cons hi]
    rw [List.flatMap_append, List.flatMap_cons, List.append_assoc]
  have hlen : ((l.take i).flatMap f).length = i * n := by
    rw [length_flatMap_const hf, List.length_take, Nat.min_eq_left hi.le]
  rw [hsplit, ← hlen]
  exact at_append _ _ _

/-- Every present column has an element for each row. -/
def Filled (schema : SoaSchema) (count : UInt32) (mask : UInt16)
    (values : (col : ℕ) → List (schema.type col).Elem) : Prop :=
  ∀ col, mask.toNat.testBit col = true → (values col).length = count.toNat

theorem length_column_bytes (hv : Filled schema count mask values) {col : ℕ}
    (hp : mask.toNat.testBit col = true) :
    (column_bytes schema values col).length = column_size schema count col := by
  rw [column_bytes, length_flatMap_const (length_encode _), hv col hp, column_size]

theorem length_body (hv : Filled schema count mask values) (n : ℕ) :
    (body schema mask values n).length = size_before schema count mask n := by
  induction n with
  | zero => rfl
  | succ n ih =>
    rw [body, size_before, List.length_append, ih]
    split_ifs with hp
    · rw [length_column_bytes hv hp]
    · rfl

theorem body_parts (schema : SoaSchema) (values : (col : ℕ) → List (schema.type col).Elem)
    {col n : ℕ} (h : col < n) (hp : mask.toNat.testBit col = true) :
    ∃ rest, body schema mask values n =
      body schema mask values col ++ column_bytes schema values col ++ rest := by
  induction n with
  | zero => omega
  | succ n ih =>
    rw [body]
    rcases Nat.lt_succ_iff_lt_or_eq.mp h with hlt | rfl
    · obtain ⟨rest, hrest⟩ := ih hlt
      rw [hrest, List.append_assoc _ rest]
      exact ⟨_, rfl⟩
    · rw [if_pos hp]
      exact ⟨[], (List.append_nil _).symm⟩

/-- All bytes of a batch. -/
def wire (schema : SoaSchema) (count : UInt32) (mask : UInt16)
    (values : (col : ℕ) → List (schema.type col).Elem) : Bytes :=
  header schema count mask ++ body schema mask values schema.column_count.toNat

theorem length_wire (hv : Filled schema count mask values) :
    (wire schema count mask values).length = total schema count mask := by
  rw [wire, List.length_append, length_header, length_body hv, total, start]

theorem at_column (hv : Filled schema count mask values) {col : ℕ}
    (h : col < schema.column_count.toNat) (hp : mask.toNat.testBit col = true) (after : Bytes) :
    At (wire schema count mask values ++ after) (start schema count mask col)
      (column_bytes schema values col) := by
  obtain ⟨rest, hrest⟩ := body_parts schema values h hp
  have hfront : (header schema count mask ++ body schema mask values col).length =
      start schema count mask col := by
    rw [List.length_append, length_header, length_body hv, start]
  rw [wire, hrest, ← hfront]
  have := at_append (header schema count mask ++ body schema mask values col)
    (column_bytes schema values col) (rest ++ after)
  simpa only [List.append_assoc] using this

theorem At.inner {data bytes inside : Bytes} {p q : ℕ} (h : At data p bytes)
    (hi : At bytes q inside) : At data (p + q) inside := by
  intro k hk
  have hin := hi k hk
  rw [List.getElem?_eq_getElem hk] at hin
  rw [Nat.add_assoc, h.get hin, List.getElem?_eq_getElem hk]

end SaltsUtils.Soa
