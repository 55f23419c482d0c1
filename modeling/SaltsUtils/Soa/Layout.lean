import Mathlib.Data.Nat.Bitwise
import SaltsUtils.Library.ByteBuffer

/-!
# Batches and the layout of their columns
-/

set_option autoImplicit false

/-!
## Batches of columns

`src/parser/soa_parser/src/soa_parser.c` and the accessors of `soa_parser.h`.
-/

namespace SaltsUtils.Soa

abbrev Bytes := List UInt8

def SOA_MAX_COLUMNS : ℕ := 16
def SOA_MAX_SCHEMAS : ℕ := 64
def SOA_MAX_ROW_COUNT : ℕ := 1024 * 1024

inductive SoaColumnType
  | i8
  | u8
  | i16
  | u16
  | i32
  | u32
  | i64
  | u64
  | f32
  | f64
deriving DecidableEq

inductive SoaParseResult
  | needMore
  | unknownSchema
  | columnMismatch
  | rowOverflow
  | invalidInput
deriving DecidableEq

structure SoaSchema where
  schema_id : UInt16
  column_count : UInt8
  columns : Fin SOA_MAX_COLUMNS → SoaColumnType

def SoaSchema.column (schema : SoaSchema) (col : ℕ) : Option SoaColumnType :=
  if h : col < SOA_MAX_COLUMNS then some (schema.columns ⟨col, h⟩) else none

/-- `g_schemas`, as far as it is used. -/
abbrev Registry := List SoaSchema

def soa_register_schema (g : Registry) (schema : Option SoaSchema) : ℤ × Registry :=
  match schema with
  | none => (-1, g)
  | some schema =>
    if SOA_MAX_SCHEMAS ≤ g.length then (-1, g)
    else if g.any fun other => other.schema_id == schema.schema_id then (-1, g)
    else (0, g ++ [schema])

def soa_find_schema (g : Registry) (schema_id : UInt16) : Option SoaSchema :=
  g.find? fun schema => schema.schema_id == schema_id

def soa_type_width : SoaColumnType → ℕ
  | .i8 | .u8 => 1
  | .i16 | .u16 => 2
  | .i32 | .u32 | .f32 => 4
  | .i64 | .u64 | .f64 => 8

def int_shl (value bits : ℕ) : Option ℕ :=
  if bits < 32 ∧ value <<< bits < 2 ^ 31 then some (value <<< bits) else none

def int_shr (value bits : ℕ) : Option ℕ := if bits < 32 then some (value >>> bits) else none

def present (present_mask : UInt16) (col : ℕ) : Option Bool :=
  (int_shl 1 col).map fun bit => decide (present_mask.toNat &&& bit ≠ 0)

structure SoaBatch where
  count : UInt32
  schema_id : UInt16
  schema : SoaSchema
  present_mask : UInt16
  columns : List (Option ℕ)
  consumed : ℕ

def bitmap_bytes (schema : SoaSchema) : ℕ := (schema.column_count.toNat + 7) / 8

variable (data : Bytes)

def soa_peek_header : Except SoaParseResult (UInt32 × UInt16) :=
  if data.length < 6 then .error .needMore
  else
    .ok ((data.getD 0 0).toUInt32 ||| (data.getD 1 0).toUInt32 <<< 8 |||
        (data.getD 2 0).toUInt32 <<< 16 ||| (data.getD 3 0).toUInt32 <<< 24,
      (data.getD 4 0).toUInt16 ||| (data.getD 5 0).toUInt16 <<< 8)

/-- The loop over the bytes of the bitmap. -/
def read_mask (data : Bytes) : ℕ → ℕ → UInt16 → Option UInt16
  | 0, _, mask => some mask
  | rounds + 1, i, mask => do
    let part ← int_shl (data.getD (6 + i) 0).toNat (i * 8)
    read_mask data rounds (i + 1) (mask ||| part.toUInt16)

def parse_columns (schema : SoaSchema) (count : UInt32) (present_mask : UInt16) (len : ℕ) :
    ℕ → ℕ → ℕ → List (Option ℕ) → Option (Except SoaParseResult (ℕ × List (Option ℕ)))
  | 0, _, offset, columns => some (.ok (offset, columns))
  | rounds + 1, col, offset, columns => do
    let here ← present present_mask col
    if here then
      let type ← schema.column col
      let col_size := count.toNat * soa_type_width type
      if len < offset + col_size then some (.error .needMore)
      else if SOA_MAX_COLUMNS ≤ col then none
      else
        parse_columns schema count present_mask len rounds (col + 1) (offset + col_size)
          (columns.set col (some offset))
    else parse_columns schema count present_mask len rounds (col + 1) offset columns

def soa_parse (g : Registry) (data : Bytes) : Option (Except SoaParseResult SoaBatch) :=
  match soa_peek_header data with
  | .error peek => some (.error peek)
  | .ok (count, schema_id) =>
    if SOA_MAX_ROW_COUNT < count.toNat then some (.error .rowOverflow)
    else
      match soa_find_schema g schema_id with
      | none => some (.error .unknownSchema)
      | some schema =>
        let header := 6 + bitmap_bytes schema
        if data.length < header then some (.error .needMore)
        else do
          let present_mask ← read_mask data (bitmap_bytes schema) 0 0
          let result ← parse_columns schema count present_mask data.length
            schema.column_count.toNat 0 header (List.replicate SOA_MAX_COLUMNS none)
          some (result.map fun r => ⟨count, schema_id, schema, present_mask, r.2, r.1⟩)

def wire_size_columns (schema : SoaSchema) (count : UInt32) (present_mask : UInt16) :
    ℕ → ℕ → ℕ → Option ℕ
  | 0, _, size => some size
  | rounds + 1, col, size => do
    let here ← present present_mask col
    if here then
      let type ← schema.column col
      wire_size_columns schema count present_mask rounds (col + 1)
        (size + count.toNat * soa_type_width type)
    else wire_size_columns schema count present_mask rounds (col + 1) size

def soa_wire_size (schema : SoaSchema) (count : UInt32) (present_mask : UInt16) : Option ℕ :=
  wire_size_columns schema count present_mask schema.column_count.toNat 0
    (6 + bitmap_bytes schema)

def write_mask (present_mask : UInt16) : ℕ → ℕ → Bytes → Option Bytes
  | 0, _, out => some out
  | rounds + 1, i, out => do
    let part ← int_shr present_mask.toNat (i * 8)
    write_mask present_mask rounds (i + 1) (overwrite out (6 + i) [part.toUInt8])

/-- What is returned, and the output buffer afterwards. -/
def soa_build_header (schema : SoaSchema) (count : UInt32) (present_mask : UInt16) (out : Bytes) :
    Option (ℕ × Bytes) :=
  let header_size := 6 + bitmap_bytes schema
  if out.length < header_size then some (0, out)
  else do
    let out := overwrite out 0 [count.toUInt8, (count >>> 8).toUInt8, (count >>> 16).toUInt8,
      (count >>> 24).toUInt8]
    let out := overwrite out 4 [schema.schema_id.toUInt8, (schema.schema_id >>> 8).toUInt8]
    let out ← write_mask present_mask (bitmap_bytes schema) 0 out
    some (header_size, out)

variable (b : SoaBatch)

def SoaBatch.column (col : ℕ) : Option ℕ := (b.columns[col]?).join

def soa_get_u8 (col : ℕ) (row : UInt32) : Option UInt8 := do
  let p ← b.column col
  data[p + row.toNat]?

def soa_get_i8 (col : ℕ) (row : UInt32) : Option Int8 :=
  (soa_get_u8 data b col row).map UInt8.toInt8

def soa_get_u16 (col : ℕ) (row : UInt32) : Option UInt16 := do
  let p ← b.column col
  let p := p + (row * 2).toNat
  let p0 ← data[p]?
  let p1 ← data[p + 1]?
  some (p0.toUInt16 ||| p1.toUInt16 <<< 8)

def soa_get_i16 (col : ℕ) (row : UInt32) : Option Int16 :=
  (soa_get_u16 data b col row).map UInt16.toInt16

def soa_get_u32 (col : ℕ) (row : UInt32) : Option UInt32 := do
  let p ← b.column col
  let p := p + (row * 4).toNat
  let p0 ← data[p]?
  let p1 ← data[p + 1]?
  let p2 ← data[p + 2]?
  let p3 ← data[p + 3]?
  some (p0.toUInt32 ||| p1.toUInt32 <<< 8 ||| p2.toUInt32 <<< 16 ||| p3.toUInt32 <<< 24)

def soa_get_i32 (col : ℕ) (row : UInt32) : Option Int32 :=
  (soa_get_u32 data b col row).map UInt32.toInt32

def soa_get_u64 (col : ℕ) (row : UInt32) : Option UInt64 := do
  let p ← b.column col
  let p := p + (row * 8).toNat
  let p0 ← data[p]?
  let p1 ← data[p + 1]?
  let p2 ← data[p + 2]?
  let p3 ← data[p + 3]?
  let p4 ← data[p + 4]?
  let p5 ← data[p + 5]?
  let p6 ← data[p + 6]?
  let p7 ← data[p + 7]?
  some (p0.toUInt64 ||| p1.toUInt64 <<< 8 ||| p2.toUInt64 <<< 16 ||| p3.toUInt64 <<< 24 |||
    p4.toUInt64 <<< 32 ||| p5.toUInt64 <<< 40 ||| p6.toUInt64 <<< 48 ||| p7.toUInt64 <<< 56)

def soa_get_i64 (col : ℕ) (row : UInt32) : Option Int64 :=
  (soa_get_u64 data b col row).map UInt64.toInt64

/-- A `float` is its bits. -/
def soa_get_f32 (col : ℕ) (row : UInt32) : Option (BitVec 32) :=
  (soa_get_u32 data b col row).map UInt32.toBitVec

/-- A `double` is its bits. -/
def soa_get_f64 (col : ℕ) (row : UInt32) : Option (BitVec 64) :=
  (soa_get_u64 data b col row).map UInt64.toBitVec

def SoaColumnType.Elem : SoaColumnType → Type
  | .i8 => Int8
  | .u8 => UInt8
  | .i16 => Int16
  | .u16 => UInt16
  | .i32 => Int32
  | .u32 => UInt32
  | .i64 => Int64
  | .u64 => UInt64
  | .f32 => BitVec 32
  | .f64 => BitVec 64

/-- The accessor of a type. -/
def soa_get (col : ℕ) (row : UInt32) : (type : SoaColumnType) → Option type.Elem
  | .i8 => soa_get_i8 data b col row
  | .u8 => soa_get_u8 data b col row
  | .i16 => soa_get_i16 data b col row
  | .u16 => soa_get_u16 data b col row
  | .i32 => soa_get_i32 data b col row
  | .u32 => soa_get_u32 data b col row
  | .i64 => soa_get_i64 data b col row
  | .u64 => soa_get_u64 data b col row
  | .f32 => soa_get_f32 data b col row
  | .f64 => soa_get_f64 data b col row

/-!
## Where the columns of a batch are

The sizing, the building and the parsing of a batch step over its columns in the same way:
a column that is present starts where the present ones before it end.
-/

open LittleEndian

theorem int_shl_eq {value bits : ℕ} (hb : bits < 32) (h : value * 2 ^ bits < 2 ^ 31) :
    int_shl value bits = some (value * 2 ^ bits) := by
  rw [int_shl, Nat.shiftLeft_eq, if_pos ⟨hb, h⟩]

variable {col : ℕ}

theorem present_eq {mask : UInt16} (h : col < 31) :
    present mask col = some (mask.toNat.testBit col) := by
  have hpow : 1 * 2 ^ col < 2 ^ 31 := by
    rw [one_mul]
    exact Nat.pow_lt_pow_right (by decide) h
  rw [present, int_shl_eq (by omega) hpow, one_mul, Option.map_some, Nat.land_comm, Nat.two_pow_and]
  cases mask.toNat.testBit col <;> simp

theorem present_none {mask : UInt16} (h : 31 ≤ col) : present mask col = none := by
  have hpow : ¬ (col < 32 ∧ 1 <<< col < 2 ^ 31) := by
    rintro ⟨-, hlt⟩
    rw [Nat.shiftLeft_eq, one_mul] at hlt
    have := (Nat.pow_lt_pow_iff_right (by decide : 1 < 2)).mp hlt
    omega
  rw [present, int_shl, if_neg hpow]
  rfl

theorem mask_bit_lt {mask : UInt16} (h : mask.toNat.testBit col = true) : col < 16 := by
  by_contra hge
  have hlt : mask.toNat < 2 ^ col :=
    mask.toNat_lt.trans_le (Nat.pow_le_pow_right (by decide) (Nat.le_of_not_lt hge))
  rw [Nat.testBit_lt_two_pow hlt] at h
  cases h

theorem mask_lt {mask : UInt16} {n : ℕ} (h : ∀ col, mask.toNat.testBit col = true → col < n) :
    mask.toNat < 2 ^ n := by
  apply Nat.lt_pow_two_of_testBit
  intro i hi
  by_contra hset
  have := h i (by simpa using hset)
  omega

section

variable (schema : SoaSchema) (count : UInt32) (mask : UInt16)

def SoaSchema.type (col : ℕ) : SoaColumnType := (schema.column col).getD .i8

def column_size (col : ℕ) : ℕ := count.toNat * soa_type_width (schema.type col)

/-- The bytes of the present ones among the first columns. -/
def size_before : ℕ → ℕ
  | 0 => 0
  | col + 1 => size_before col + if mask.toNat.testBit col then column_size schema count col else 0

def header_size : ℕ := 6 + bitmap_bytes schema

def start (col : ℕ) : ℕ := header_size schema + size_before schema count mask col

/-- Where all columns end. -/
def total : ℕ := start schema count mask schema.column_count.toNat

end

variable {schema : SoaSchema} {count : UInt32} {mask : UInt16}

theorem column_eq (h : mask.toNat.testBit col = true) :
    schema.column col = some (schema.type col) := by
  have : col < SOA_MAX_COLUMNS := mask_bit_lt h
  rw [SoaSchema.type, SoaSchema.column, dif_pos this]
  rfl

theorem start_succ (col : ℕ) : start schema count mask (col + 1) =
    start schema count mask col +
      if mask.toNat.testBit col then column_size schema count col else 0 := by
  rw [start, start, size_before, Nat.add_assoc]

theorem start_mono (schema : SoaSchema) (count : UInt32) (mask : UInt16) {col' : ℕ} (h : col ≤ col') :
    start schema count mask col ≤ start schema count mask col' := by
  induction h with
  | refl => exact Nat.le_refl _
  | step _ ih =>
    rw [start_succ]
    exact ih.trans (Nat.le_add_right _ _)

theorem start_present (schema : SoaSchema) (count : UInt32) (h : mask.toNat.testBit col = true) :
    start schema count mask (col + 1) =
      start schema count mask col + count.toNat * soa_type_width (schema.type col) := by
  rw [start_succ, if_pos h, column_size]

theorem start_absent (schema : SoaSchema) (count : UInt32) (h : ¬ mask.toNat.testBit col = true) :
    start schema count mask (col + 1) = start schema count mask col := by
  rw [start_succ, if_neg h]
  rfl

theorem start_disjoint {col' : ℕ} (h : col < col') (hp : mask.toNat.testBit col = true) :
    start schema count mask col + column_size schema count col ≤
      start schema count mask col' := by
  have := start_mono schema count mask (Nat.succ_le_of_lt h)
  rw [Nat.succ_eq_add_one, start_present schema count hp] at this
  exact this

theorem wire_size_columns_eq (rounds col : ℕ) (h : col + rounds ≤ 31) :
    wire_size_columns schema count mask rounds col (start schema count mask col) =
      some (start schema count mask (col + rounds)) := by
  induction rounds generalizing col with
  | zero => rfl
  | succ rounds ih =>
    rw [wire_size_columns, present_eq (by omega)]
    dsimp only [Option.bind_eq_bind, Option.bind_some]
    rw [show col + (rounds + 1) = col + 1 + rounds by omega]
    have hnext := ih (col + 1) (by omega)
    by_cases hp : mask.toNat.testBit col = true
    · rw [if_pos hp, column_eq hp]
      dsimp only [Option.bind_some]
      rw [← start_present schema count hp]
      exact hnext
    · rw [if_neg hp, ← start_absent schema count hp]
      exact hnext

theorem wire_size_columns_none {rounds size : ℕ} (hlow : col ≤ 31) (h : 31 < col + rounds) :
    wire_size_columns schema count mask rounds col size = none := by
  induction rounds generalizing col size with
  | zero => omega
  | succ rounds ih =>
    rw [wire_size_columns]
    by_cases hlast : col = 31
    · rw [present_none (by omega)]
      rfl
    · rw [present_eq (by omega)]
      dsimp only [Option.bind_eq_bind, Option.bind_some]
      by_cases hp : mask.toNat.testBit col = true
      · rw [if_pos hp, column_eq hp]
        exact ih (by omega) (by omega)
      · rw [if_neg hp]
        exact ih (by omega) (by omega)

/-- The pointers of the table behind the loop. -/
structure Placed (columns placed : List (Option ℕ)) (schema : SoaSchema) (count : UInt32)
    (mask : UInt16) (first last : ℕ) : Prop where
  length : placed.length = columns.length
  inside : ∀ col, first ≤ col → col < last → mask.toNat.testBit col = true →
    placed[col]? = some (some (start schema count mask col))
  outside : ∀ col, (col < first ∨ last ≤ col ∨ mask.toNat.testBit col = false) →
    placed[col]? = columns[col]?

theorem parse_columns_ok (rounds col : ℕ) {len : ℕ} (columns : List (Option ℕ))
    (h : col + rounds ≤ 31) (hlen : start schema count mask (col + rounds) ≤ len)
    (hc : columns.length = SOA_MAX_COLUMNS) :
    ∃ placed, parse_columns schema count mask len rounds col (start schema count mask col) columns =
        some (.ok (start schema count mask (col + rounds), placed)) ∧
      Placed columns placed schema count mask col (col + rounds) := by
  induction rounds generalizing col columns with
  | zero =>
    exact ⟨columns, rfl, rfl, fun c hf hl => by omega, fun _ _ => rfl⟩
  | succ rounds ih =>
    have hassoc : col + (rounds + 1) = col + 1 + rounds := by omega
    rw [hassoc] at h hlen ⊢
    rw [parse_columns, present_eq (by omega)]
    dsimp only [Option.bind_eq_bind, Option.bind_some]
    by_cases hp : mask.toNat.testBit col = true
    · have hcol : col < SOA_MAX_COLUMNS := mask_bit_lt hp
      have hstep := start_present schema count hp
      have hfits := start_mono schema count mask (Nat.le_add_right (col + 1) rounds)
      rw [if_pos hp, column_eq hp]
      dsimp only [Option.bind_some]
      rw [if_neg (by omega), if_neg (Nat.not_le.mpr hcol), ← hstep]
      obtain ⟨placed, hparse, hplaced⟩ := ih (col + 1)
        (columns.set col (some (start schema count mask col))) h hlen (by rw [List.length_set, hc])
      refine ⟨placed, hparse, ?_, fun c hf hl hbit => ?_, fun c hcase => ?_⟩
      · rw [hplaced.length, List.length_set]
      · rcases Nat.eq_or_lt_of_le hf with rfl | hlt
        · rw [hplaced.outside _ (.inl (Nat.lt_succ_self _)),
            List.getElem?_set_self (by omega)]
        · exact hplaced.inside c hlt hl hbit
      · have hne : col ≠ c := by
          rintro rfl
          rcases hcase with hlow | hhigh | hbit
          · omega
          · omega
          · rw [hp] at hbit
            cases hbit
        rw [hplaced.outside c (hcase.imp (by omega) (Or.imp_left id)), List.getElem?_set_ne hne]
    · rw [if_neg hp, ← start_absent schema count hp]
      obtain ⟨placed, hparse, hplaced⟩ := ih (col + 1) columns h hlen hc
      refine ⟨placed, hparse, hplaced.length, fun c hf hl hbit => ?_, fun c hcase => ?_⟩
      · rcases Nat.eq_or_lt_of_le hf with rfl | hlt
        · exact absurd hbit hp
        · exact hplaced.inside c hlt hl hbit
      · exact hplaced.outside c (hcase.imp (by omega) (Or.imp_left id))

theorem parse_columns_more (rounds col : ℕ) {len : ℕ} (columns : List (Option ℕ))
    (h : col + rounds ≤ 31) (hlow : start schema count mask col ≤ len)
    (hlen : len < start schema count mask (col + rounds)) :
    parse_columns schema count mask len rounds col (start schema count mask col) columns =
      some (.error .needMore) := by
  induction rounds generalizing col columns with
  | zero =>
    rw [Nat.add_zero] at hlen
    omega
  | succ rounds ih =>
    have hassoc : col + (rounds + 1) = col + 1 + rounds := by omega
    rw [hassoc] at h hlen
    rw [parse_columns, present_eq (by omega)]
    dsimp only [Option.bind_eq_bind, Option.bind_some]
    by_cases hp : mask.toNat.testBit col = true
    · have hcol : col < SOA_MAX_COLUMNS := mask_bit_lt hp
      have hstep := start_present schema count hp
      rw [if_pos hp, column_eq hp]
      dsimp only [Option.bind_some]
      by_cases hend : len < start schema count mask (col + 1)
      · rw [if_pos (by omega)]
      · rw [if_neg (by omega), if_neg (Nat.not_le.mpr hcol), ← hstep]
        exact ih (col + 1) _ h (by omega) hlen
    · have habsent := start_absent schema count hp
      rw [if_neg hp, ← habsent]
      exact ih (col + 1) _ h (by omega) hlen

end SaltsUtils.Soa
