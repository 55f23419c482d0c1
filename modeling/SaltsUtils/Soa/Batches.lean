import SaltsUtils.Soa.Wire

/-!
# Batches of registered schemas

The registry takes a schema whatever its column count is.
-/

set_option autoImplicit false

namespace SaltsUtils.Soa

open LittleEndian

def registered (calls : List (Option SoaSchema)) : Registry :=
  calls.foldl (fun g schema => (soa_register_schema g schema).2) []

/-- A schema that is taken by the call behind the others. -/
def Accepted (before : List (Option SoaSchema)) (schema : SoaSchema) : Prop :=
  (soa_register_schema (registered before) (some schema)).1 = 0

theorem soa_register_schema_cases (g : Registry) (schema : Option SoaSchema) :
    soa_register_schema g schema = (-1, g) ∨
      ∃ s, schema = some s ∧ soa_register_schema g schema = (0, g ++ [s]) ∧
        ∀ other ∈ g, other.schema_id ≠ s.schema_id := by
  cases schema with
  | none => exact .inl rfl
  | some s =>
    rw [soa_register_schema]
    split_ifs with hfull hdup
    · exact .inl rfl
    · exact .inl rfl
    · refine .inr ⟨s, rfl, rfl, fun other hmem heq => hdup ?_⟩
      exact List.any_eq_true.mpr ⟨other, hmem, by simpa using heq⟩

def UniqueIds (g : Registry) : Prop := g.Pairwise fun a b => a.schema_id ≠ b.schema_id

theorem UniqueIds.register {g : Registry} (h : UniqueIds g) (schema : Option SoaSchema) :
    UniqueIds (soa_register_schema g schema).2 := by
  rcases soa_register_schema_cases g schema with hr | ⟨s, -, hr, hnew⟩
  · rw [hr]
    exact h
  · rw [hr]
    refine List.pairwise_append.mpr ⟨h, List.pairwise_singleton _ _, fun a ha b hb => ?_⟩
    rw [List.mem_singleton.mp hb]
    exact hnew a ha

theorem kept_by_register {g : Registry} {schema : SoaSchema} (h : schema ∈ g)
    (other : Option SoaSchema) : schema ∈ (soa_register_schema g other).2 := by
  rcases soa_register_schema_cases g other with hr | ⟨s, -, hr, -⟩
  · rw [hr]
    exact h
  · rw [hr]
    exact List.mem_append_left _ h

theorem UniqueIds.find {g : Registry} (h : UniqueIds g) {schema : SoaSchema} (hm : schema ∈ g) :
    soa_find_schema g schema.schema_id = some schema := by
  induction g with
  | nil => cases hm
  | cons first g ih =>
    obtain ⟨hfirst, hrest⟩ := List.pairwise_cons.mp h
    rw [soa_find_schema]
    rcases List.mem_cons.mp hm with rfl | hmem
    · rw [List.find?_cons_of_pos (by simp)]
    · have hne : first.schema_id ≠ schema.schema_id := hfirst schema hmem
      rw [List.find?_cons_of_neg (by simpa using hne)]
      exact ih hrest hmem

theorem accepted_found {before : List (Option SoaSchema)} {schema : SoaSchema}
    (h : Accepted before schema) (later : List (Option SoaSchema)) :
    soa_find_schema (registered (before ++ some schema :: later)) schema.schema_id =
      some schema := by
  have hunique : ∀ (calls : List (Option SoaSchema)) (g : Registry), UniqueIds g →
      UniqueIds (calls.foldl (fun g schema => (soa_register_schema g schema).2) g) := by
    intro calls
    induction calls with
    | nil => exact fun _ hg => hg
    | cons call calls ih => exact fun g hg => ih _ (hg.register call)
  have hkept : ∀ (calls : List (Option SoaSchema)) (g : Registry), schema ∈ g →
      schema ∈ calls.foldl (fun g schema => (soa_register_schema g schema).2) g := by
    intro calls
    induction calls with
    | nil => exact fun _ hg => hg
    | cons call calls ih => exact fun g hg => ih _ (kept_by_register hg call)
  have htaken : schema ∈ (soa_register_schema (registered before) (some schema)).2 := by
    rcases soa_register_schema_cases (registered before) (some schema) with hr | ⟨s, hs, hr, -⟩
    · rw [Accepted, hr] at h
      cases h
    · rw [hr]
      cases hs
      exact List.mem_append_right _ (List.mem_singleton_self _)
  have hall : registered (before ++ some schema :: later) =
      later.foldl (fun g schema => (soa_register_schema g schema).2)
        (soa_register_schema (registered before) (some schema)).2 := by
    rw [registered, List.foldl_append]
    rfl
  rw [hall]
  exact (hunique later _ ((hunique before [] List.Pairwise.nil).register _)).find
    (hkept later _ htaken)

section

variable (g : Registry) (schema : SoaSchema) (count : UInt32) (mask : UInt16)
  (values : (col : ℕ) → List (schema.type col).Elem)

structure ReadBack (data : Bytes) (batch : SoaBatch) : Prop where
  count_eq : batch.count = count
  schema_id_eq : batch.schema_id = schema.schema_id
  schema_eq : batch.schema = schema
  mask_eq : batch.present_mask = mask
  size_eq : soa_wire_size schema count mask = some batch.consumed
  absent : ∀ col, mask.toNat.testBit col = false → batch.column col = none
  inside : ∀ col p, batch.column col = some p →
    header_size schema ≤ p ∧ p + column_size schema count col ≤ batch.consumed
  consecutive : ∀ col p, batch.column col = some p → p = start schema count mask col
  disjoint : ∀ col col' p p', col < col' → batch.column col = some p →
    batch.column col' = some p' → p + column_size schema count col ≤ p'
  elements : ∀ col, mask.toNat.testBit col = true → ∀ row : UInt32, row < count →
    ∃ v, (values col)[row.toNat]? = some v ∧ soa_get data batch col row (schema.type col) = some v

/-- The header that is built with the columns behind it has the length of `soa_wire_size`, is
read back whatever follows, and is not enough when some of it is missing. -/
def LaidOut : Prop :=
  ∃ head : Bytes,
    (∀ out : Bytes, head.length ≤ out.length → soa_build_header schema count mask out =
      some (head.length, head ++ out.drop head.length)) ∧
    let batch_bytes := head ++ body schema mask values schema.column_count.toNat
    soa_wire_size schema count mask = some batch_bytes.length ∧
    (∀ after, ∃ batch, soa_parse g (batch_bytes ++ after) = some (.ok batch) ∧
      ReadBack schema count mask values (batch_bytes ++ after) batch) ∧
    ∀ n < batch_bytes.length, soa_parse g (batch_bytes.take n) = some (.error .needMore)

end

variable {g : Registry} {schema : SoaSchema} {count : UInt32} {mask : UInt16}
  {values : (col : ℕ) → List (schema.type col).Elem}

theorem soa_wire_size_eq (h : schema.column_count.toNat ≤ 31) :
    soa_wire_size schema count mask = some (total schema count mask) := by
  have := @wire_size_columns_eq schema count mask schema.column_count.toNat 0 (by omega)
  rw [Nat.zero_add] at this
  exact this

section

variable (h : schema.column_count.toNat ≤ 31)
  (hg : soa_find_schema g schema.schema_id = some schema)
  (hc : count.toNat ≤ SOA_MAX_ROW_COUNT)
  (hm : ∀ col, mask.toNat.testBit col = true → col < schema.column_count.toNat)
  (hv : Filled schema count mask values)
include h hg hc hm hv

theorem soa_parse_wire (after : Bytes) :
    ∃ batch, soa_parse g (wire schema count mask values ++ after) = some (.ok batch) ∧
      ReadBack schema count mask values (wire schema count mask values ++ after) batch := by
  have hlen : (wire schema count mask values ++ after).length =
      total schema count mask + after.length := by
    rw [List.length_append, length_wire hv]
  have hstart := start_mono schema count mask (Nat.zero_le schema.column_count.toNat)
  have hzero : start schema count mask 0 = header_size schema := rfl
  obtain ⟨placed, hparse, hplaced⟩ := @parse_columns_ok schema count mask
    schema.column_count.toNat 0 (wire schema count mask values ++ after).length
    (List.replicate SOA_MAX_COLUMNS none) (by omega)
    (by rw [Nat.zero_add, hlen]; exact Nat.le_add_right _ _) (List.length_replicate ..)
  rw [Nat.zero_add] at hparse hplaced
  rw [hzero, header_size] at hparse
  have hsplit : wire schema count mask values ++ after = header schema count mask ++
      (body schema mask values schema.column_count.toNat ++ after) := by
    rw [wire, List.append_assoc]
  have hcolumn : ∀ batch : SoaBatch, batch.columns = placed → ∀ col, batch.column col =
      if mask.toNat.testBit col = true then some (start schema count mask col) else none := by
    rintro batch hb col
    rw [SoaBatch.column, hb]
    by_cases hp : mask.toNat.testBit col = true
    · rw [hplaced.inside col (Nat.zero_le _) (hm col hp) hp, if_pos hp]
      rfl
    · rw [hplaced.outside col (.inr (.inr (by simpa using hp))), if_neg hp]
      rcases Nat.lt_or_ge col SOA_MAX_COLUMNS with hlt | hge
      · rw [List.getElem?_replicate_of_lt hlt]
        rfl
      · rw [List.getElem?_eq_none (by simpa using hge)]
        rfl
  refine ⟨⟨count, schema.schema_id, schema, mask, placed,
    start schema count mask schema.column_count.toNat⟩, ?_, ?_⟩
  · rw [soa_parse, hsplit, soa_peek_header_eq]
    dsimp only
    rw [if_neg (Nat.not_lt.mpr hc), hg]
    dsimp only
    rw [← hsplit, if_neg (by rw [hlen, total]; change ¬ _ < header_size schema; omega), hsplit,
      header_mask count _ h hm, ← hsplit]
    dsimp only [Option.bind_eq_bind, Option.bind_some]
    rw [hparse]
    rfl
  · generalize hb : (⟨count, schema.schema_id, schema, mask, placed,
      start schema count mask schema.column_count.toNat⟩ : SoaBatch) = batch
    have hcol := hcolumn batch (by rw [← hb])
    have hpresent : ∀ col p, batch.column col = some p →
        mask.toNat.testBit col = true ∧ p = start schema count mask col := by
      intro col p hp
      rw [hcol col] at hp
      split_ifs at hp with hbit
      exact ⟨hbit, (Option.some.inj hp).symm⟩
    constructor
    · rw [← hb]
    · rw [← hb]
    · rw [← hb]
    · rw [← hb]
    · rw [← hb]
      exact soa_wire_size_eq h
    · intro col habsent
      rw [hcol col, if_neg (by rw [habsent]; exact Bool.false_ne_true)]
    · intro col p hp
      obtain ⟨hbit, rfl⟩ := hpresent col p hp
      refine ⟨?_, ?_⟩
      · rw [← hzero]
        exact start_mono schema count mask (Nat.zero_le _)
      · rw [← hb]
        exact start_disjoint (hm col hbit) hbit
    · exact fun col p hp => (hpresent col p hp).2
    · intro col col' p p' hlt hp hp'
      obtain ⟨hbit, rfl⟩ := hpresent col p hp
      obtain ⟨-, rfl⟩ := hpresent col' p' hp'
      exact start_disjoint hlt hbit
    · intro col hbit row hrow
      have hlt : row.toNat < (values col).length := by
        rw [hv col hbit]
        exact hrow
      have hsmall : row.toNat < 2 ^ 20 := by
        have hmax : SOA_MAX_ROW_COUNT = 2 ^ 20 := rfl
        have := hv col hbit
        omega
      refine ⟨(values col)[row.toNat], List.getElem?_eq_getElem hlt, ?_⟩
      apply soa_get_eq _ _ hsmall (hcol col ▸ if_pos hbit)
      exact (at_column hv (hm col hbit) hbit after).inner
        (at_flatMap (length_encode _) (List.getElem?_eq_getElem hlt))

theorem soa_parse_prefix {n : ℕ} (hn : n < (wire schema count mask values).length) :
    soa_parse g ((wire schema count mask values).take n) = some (.error .needMore) := by
  have htotal := length_wire hv
  have hlen : ((wire schema count mask values).take n).length = n := by
    rw [List.length_take]
    omega
  by_cases hsix : n < 6
  · rw [soa_parse, soa_peek_header, if_pos (by omega)]
  by_cases hhead : n < header_size schema
  · have hpeek : soa_peek_header ((wire schema count mask values).take n) =
        .ok (count, schema.schema_id) := by
      have hsame : ∀ i < 6, ((wire schema count mask values).take n).getD i 0 =
          (wire schema count mask values).getD i 0 := by
        intro i hi
        rw [List.getD_eq_getElem _ _ (by omega), List.getD_eq_getElem _ _ (by omega),
          List.getElem_take]
      have hwhole := soa_peek_header_eq schema count mask
        (body schema mask values schema.column_count.toNat)
      change soa_peek_header (wire schema count mask values) = _ at hwhole
      rw [soa_peek_header, if_neg (by omega)] at hwhole
      rw [soa_peek_header, if_neg (by omega), hsame 0 (by omega), hsame 1 (by omega),
        hsame 2 (by omega), hsame 3 (by omega), hsame 4 (by omega), hsame 5 (by omega), hwhole]
    rw [soa_parse, hpeek]
    dsimp only
    rw [if_neg (Nat.not_lt.mpr hc), hg]
    dsimp only
    rw [if_pos (by rw [hlen]; exact hhead)]
  · have hsplit : (wire schema count mask values).take n = header schema count mask ++
        (body schema mask values schema.column_count.toNat).take (n - header_size schema) := by
      rw [wire, List.take_append, length_header,
        List.take_of_length_le (by rw [length_header]; omega)]
    have hmore := @parse_columns_more schema count mask schema.column_count.toNat 0 n
      (List.replicate SOA_MAX_COLUMNS none) (by omega) (Nat.le_of_not_lt hhead)
      (by rw [Nat.zero_add]; exact hn.trans_eq htotal)
    rw [soa_parse, hlen, hsplit, soa_peek_header_eq]
    dsimp only
    rw [if_neg (Nat.not_lt.mpr hc), hg]
    dsimp only
    rw [if_neg (show ¬ n < 6 + bitmap_bytes schema from hhead), header_mask count _ h hm]
    dsimp only [Option.bind_eq_bind, Option.bind_some]
    rw [show 6 + bitmap_bytes schema = start schema count mask 0 from rfl, hmore]
    rfl

end

/-- A batch of a schema that the registry has taken is laid out as it is sized exactly when
the schema has at most 31 columns. -/
theorem laid_out_iff {before later : List (Option SoaSchema)} {schema : SoaSchema}
    {count : UInt32} {mask : UInt16} {values : (col : ℕ) → List (schema.type col).Elem}
    (ha : Accepted before schema) (hc : count.toNat ≤ SOA_MAX_ROW_COUNT)
    (hm : ∀ col, mask.toNat.testBit col = true → col < schema.column_count.toNat)
    (hv : ∀ col, mask.toNat.testBit col = true → (values col).length = count.toNat) :
    LaidOut (registered (before ++ some schema :: later)) schema count mask values ↔
      schema.column_count.toNat ≤ 31 := by
  have hg := accepted_found ha later
  constructor
  · rintro ⟨head, -, hsize, -⟩
    by_contra hmany
    rw [soa_wire_size, wire_size_columns_none (by omega) (by omega)] at hsize
    cases hsize
  · intro h
    have hhead := length_header schema count mask
    refine ⟨header schema count mask, fun out ho => ?_, ?_, fun after => ?_, fun n hn => ?_⟩
    · rw [hhead] at ho ⊢
      exact soa_build_header_eq count mask h ho
    · exact (soa_wire_size_eq h).trans (congrArg some (length_wire hv).symm)
    · exact soa_parse_wire h hg hc hm hv after
    · exact soa_parse_prefix h hg hc hm hv hn

instance (type : SoaColumnType) : Inhabited type.Elem where
  default :=
    match type with
    | .i8 => (0 : Int8)
    | .u8 => (0 : UInt8)
    | .i16 => (0 : Int16)
    | .u16 => (0 : UInt16)
    | .i32 => (0 : Int32)
    | .u32 => (0 : UInt32)
    | .i64 => (0 : Int64)
    | .u64 => (0 : UInt64)
    | .f32 => (0 : BitVec 32)
    | .f64 => (0 : BitVec 64)

def byteColumns (column_count : UInt8) : SoaSchema := ⟨1, column_count, fun _ => .u8⟩

theorem laid_out_iff_one :
    LaidOut (registered ([] ++ some (byteColumns 1) :: [])) (byteColumns 1) 1 1 (fun _ => [default]) ↔
      (byteColumns 1).column_count.toNat ≤ 31 := by
  refine laid_out_iff rfl (by decide) ?_ fun _ _ => rfl
  intro col hbit
  have hlt := mask_bit_lt hbit
  revert hbit
  revert col
  decide

/-- A schema of 40 columns is taken. -/
theorem laid_out_overrun :
    Accepted [] (byteColumns 40) ∧
      ¬ ∀ (before later : List (Option SoaSchema)) (schema : SoaSchema) (count : UInt32)
        (mask : UInt16) (values : (col : ℕ) → List (schema.type col).Elem),
        Accepted before schema → count.toNat ≤ SOA_MAX_ROW_COUNT →
        (∀ col, mask.toNat.testBit col = true → col < schema.column_count.toNat) →
        (∀ col, mask.toNat.testBit col = true → (values col).length = count.toNat) →
        LaidOut (registered (before ++ some schema :: later)) schema count mask values := by
  have haccepted : Accepted [] (byteColumns 40) := rfl
  refine ⟨haccepted, fun hall => ?_⟩
  obtain ⟨head, -, hsize, -⟩ := hall [] [] (byteColumns 40) 1 1 (fun _ => [default]) haccepted
    (by decide)
    (fun col hbit => (mask_bit_lt hbit).trans (by decide)) fun _ _ => rfl
  rw [soa_wire_size, wire_size_columns_none (by decide) (by decide)] at hsize
  cases hsize

end SaltsUtils.Soa
