import SaltsUtils.Binary.Schema
import SaltsUtils.Library.Invariants
import SaltsUtils.Library.Outcome

/-!
# The binary overlay and settled layouts
-/

set_option autoImplicit false

/-!
## The binary overlay

`databind_binary_contract_apply`: the profile of every field, the policy on the order of fields,
offsets and block sizes by sweeps over the records until nothing changes, and the bitmaps of
optional and nullable fields in front of each block. The passes that only write presentation
attributes are left out.
-/

namespace SaltsUtils.Binary

def binary_numeric_literal (text : Option String) : Bool := text.any is_numeric_literal

variable (field : Field)

/-- The error text of a failure that sets none is empty. -/
def binary_annotate_field_profile : Except String Field :=
  if field.type = "varint" ∨ field.inner_type = some "varint" ∨ field.key_type = some "varint" ∨
      field.value_type = some "varint" then
    .error "Unsupported type 'varint': Binary runtime/compiler support is not implemented"
  else
    let scalar := databind_binary_scalar_profile_find field.type
    let literal := binary_numeric_literal field.length_field
    let profiled : Except String Field :=
      if field.is_group_field then .ok field
      else
        match scalar.filter (fun p => p.kind ≠ .bool) with
        | some profile =>
          .ok { field with
            size_bytes := some profile.size, is_numeric := true, is_fixed_size := true }
        | none =>
          if field.type = "uuid" then
            .ok { field with size_bytes := some 16, is_fixed_size := true }
          else if field.type = "bytes" then
            if literal then
              match schema_parse_fixed_layout_size field.length_field with
              | some bytes => .ok { field with size_bytes := some bytes, is_fixed_size := true }
              | none => .error ""
            else .ok field
          else if field.type = "string" then .ok field
          else if field.is_collection then
            if field.collection_kind = some "array" ∧ literal then
              .ok { field with is_fixed_size := true }
            else .ok field
          else .ok { field with is_user_defined := true }
    profiled.map fun field =>
      if !field.is_group_field && (field.type = "string" || (field.type = "bytes" && !literal))
      then { field with is_var_data := true }
      else field

def annotate_record_profiles (record : Record) : Except String Record :=
  (record.fields.mapM binary_annotate_field_profile).map fun fields =>
    { record with fields := fields }

def binary_annotate_field_profiles (root : Schema) : Except String Schema := do
  let composites ← root.composites.mapM annotate_record_profiles
  let groups ← root.groups.mapM annotate_record_profiles
  let messages ← root.messages.mapM annotate_record_profiles
  let unions ← root.unions.mapM annotate_record_profiles
  pure { root with
    composites := composites, groups := groups, messages := messages, unions := unions }

inductive BinaryFieldSection
  | fixed
  | group
  | varData
deriving DecidableEq

def BinaryFieldSection.rank : BinaryFieldSection → ℕ
  | .fixed => 0
  | .group => 1
  | .varData => 2

def binary_field_section_of : BinaryFieldSection :=
  if field.is_group_field then .group
  else if field.is_var_data then .varData
  else .fixed

def binary_field_is_counted : Bool :=
  !field.is_group_field && field.is_collection &&
    (field.collection_kind = some "list" || field.collection_kind = some "set" ||
      field.collection_kind = some "map")

def binary_field_collection_supported : Bool :=
  if !field.is_collection then true
  else if field.collection_kind = some "array" then field.is_fixed_size
  else
    field.collection_kind = some "list" || field.collection_kind = some "set" ||
      field.collection_kind = some "map"

/-- The loop of `binary_validate_record_fields`, with the section reached and whether a counted
field was met. -/
def validate_fields (composite : Bool) :
    BinaryFieldSection → Bool → List Field → Except String Unit
  | _, _, [] => .ok ()
  | previous, counted_cursor, field :: fields =>
    let current := binary_field_section_of field
    let counted := binary_field_is_counted field
    if !binary_field_collection_supported field then
      .error "Unsupported dynamic collection in Binary declaration"
    else if composite && (current ≠ .fixed || counted) then
      .error "Composite fields must be fixed-size"
    else if !composite && !counted && !counted_cursor && current.rank < previous.rank then
      .error (s!"Invalid Binary field order for field '{field.name}' of type '{field.type}': " ++
        "fixed, then group, then variable data")
    else
      validate_fields composite (if previous.rank < current.rank then current else previous)
        (counted_cursor || counted) fields

def binary_validate_record_fields (composite : Bool) (record : Record) : Except String Unit :=
  validate_fields composite .fixed false record.fields

def binary_validate_layout_policy (root : Schema) : Except String Unit := do
  root.composites.forM (binary_validate_record_fields true)
  root.groups.forM (binary_validate_record_fields false)
  root.messages.forM (binary_validate_record_fields false)

def find_composite_by_name (root : Schema) (name : String) : Option Record :=
  root.composites.find? fun r => r.name = name

def find_enum_by_name (root : Schema) (name : String) : Option EnumDecl :=
  root.enums.find? fun e => e.name = name

def resolve_enum_fixed_size (root : Schema) (type_name : String) : Option ℕ :=
  (find_enum_by_name root type_name).bind fun e =>
    match e.underlying_type with
    | none => primitive_type_size "int32"
    | some underlying => primitive_type_size (if underlying = "" then "int32" else underlying)

def Field.isTail : Bool :=
  field.is_group_field || field.is_var_data || binary_field_is_counted field

def record_has_only_fixed_fields (record : Record) : Bool :=
  record.fields.all fun field => !field.isTail

def resolve_type_fixed_size (root : Schema) (type_name : String) : Option ℕ :=
  match primitive_type_size type_name with
  | some size => some size
  | none =>
    match find_composite_by_name root type_name with
    | some record =>
      if record.has_fixed_block_size && record_has_only_fixed_fields record then
        parse_size_text record.fixed_block_size
      else resolve_enum_fixed_size root type_name
    | none => resolve_enum_fixed_size root type_name

def resolve_field_fixed_size (root : Schema) (field : Field) : Option ℕ :=
  if field.is_group_field || field.is_var_data then none
  else if field.is_numeric || field.is_bytes then parse_size_text field.size_bytes
  else if field.is_collection then
    if !field.is_fixed_size then none
    else do
      let element_count ← schema_parse_fixed_layout_size field.length_field
      let inner_size ← field.inner_type.bind (resolve_type_fixed_size root)
      if 0 < element_count ∧ SIZE_MAX / element_count < inner_size then none
      else pure (inner_size * element_count)
  else resolve_type_fixed_size root field.type

/-- The loop of `annotate_record_layout` from an offset on: the fields, and the offset behind the
fixed block unless a size on the way could not be resolved. -/
def layout_fields (root : Schema) : ℕ → List Field → List Field × Option ℕ
  | offset, [] => ([], some offset)
  | offset, field :: fields =>
    if field.isTail then (field :: fields, some offset)
    else
      match resolve_field_fixed_size root field with
      | none => (field :: fields, none)
      | some field_size =>
        if SIZE_MAX - offset < field_size then (field :: fields, none)
        else
          let rest := layout_fields root (offset + field_size) fields
          ({ field with offset := some offset, field_size_bytes := some field_size } :: rest.1,
            rest.2)

example (root : Schema) : layout_fields root 0 [] = ([], some 0) := by rw [layout_fields]

def annotate_record_layout (root : Schema) (record : Record) : Record :=
  let laid := layout_fields root 0 record.fields
  match laid.2 with
  | none => { record with fields := laid.1 }
  | some offset =>
    { record with
      fields := laid.1, fixed_block_size := some offset, has_fixed_block_size := true }

/-- One round of `annotate_layouts`: composites see the composites before them as this round
leaves them. -/
def annotate_layouts_round (root : Schema) : Schema :=
  let composites := Sweep.sweep
    (fun composites => annotate_record_layout { root with composites := composites })
    root.composites
  let root := { root with composites := composites }
  { root with
    groups := root.groups.map (annotate_record_layout root)
    messages := root.messages.map (annotate_record_layout root) }

/-- Rounds until one changes no attribute. -/
def annotate_layouts (fuel : ℕ) (root : Schema) : Option Schema :=
  Sweep.settle annotate_layouts_round fuel root

def annotate_field_references (root : Schema) (field : Field) : Field :=
  if field.is_collection && field.is_fixed_size then
    match field.inner_type.bind (resolve_type_fixed_size root) with
    | some element_size => { field with element_size_bytes := some element_size }
    | none => field
  else field

def annotate_record_references (root : Schema) (record : Record) : Record :=
  { record with fields := record.fields.map (annotate_field_references root) }

def annotate_type_references (root : Schema) : Schema :=
  { root with
    composites := root.composites.map (annotate_record_references root)
    groups := root.groups.map (annotate_record_references root)
    messages := root.messages.map (annotate_record_references root) }

def bitmap_bytes (count : ℕ) : ℕ := (count + 7) / 8

def number_fields : ℕ → ℕ → List Field → List Field
  | _, _, [] => []
  | optional_index, nullable_index, field :: fields =>
    { field with
      optional_bit_index :=
        if field.is_optional then some optional_index else field.optional_bit_index
      nullable_bit_index :=
        if field.is_nullable then some nullable_index else field.nullable_bit_index } ::
      number_fields (if field.is_optional then optional_index + 1 else optional_index)
        (if field.is_nullable then nullable_index + 1 else nullable_index) fields

def shift_size (state_bytes : ℕ) (size : Option ℕ) : Option ℕ :=
  (parse_size_text size).bind fun size =>
    if SIZE_MAX - size < state_bytes then none else some (size + state_bytes)

def shift_field (state_bytes : ℕ) (field : Field) : Option Field :=
  if field.offset = none then some field
  else (shift_size state_bytes field.offset).map fun offset =>
    { field with offset := some offset }

def annotate_bitmap_sizes (optional_count nullable_count : ℕ) (record : Record) : Record :=
  let record :=
    if 0 < optional_count then
      { record with
        optional_field_count := some optional_count
        presence_bitmap_bytes := some (bitmap_bytes optional_count) }
    else record
  if 0 < nullable_count then
    { record with
      nullable_field_count := some nullable_count
      null_bitmap_bytes := some (bitmap_bytes nullable_count)
      null_bitmap_offset := some (bitmap_bytes optional_count) }
  else record

def annotate_record_states (record : Record) : Option Record :=
  let optional_count := record.fields.countP Field.is_optional
  let nullable_count := record.fields.countP Field.is_nullable
  if optional_count = 0 ∧ nullable_count = 0 then some record
  else
    let presence_bitmap_bytes := bitmap_bytes optional_count
    let null_bitmap_bytes := bitmap_bytes nullable_count
    if SIZE_MAX - null_bitmap_bytes < presence_bitmap_bytes then none
    else
      let state_bytes := presence_bitmap_bytes + null_bitmap_bytes
      let record := annotate_bitmap_sizes optional_count nullable_count record
      if record.fixed_block_size = none then
        some { record with fields := number_fields 0 0 record.fields }
      else do
        let size ← shift_size state_bytes record.fixed_block_size
        let fields ← record.fields.mapM (shift_field state_bytes)
        pure { record with
          fixed_block_size := some size, fields := number_fields 0 0 fields }

def annotate_field_states (root : Schema) : Option Schema := do
  let messages ← root.messages.mapM annotate_record_states
  let composites ← root.composites.mapM annotate_record_states
  let groups ← root.groups.mapM annotate_record_states
  pure { root with messages := messages, composites := composites, groups := groups }

def annotate_schema_metadata (root : Schema) : Schema :=
  { root with
    schema_wire_big_endian_value := some (if root.byte_order = some "big" then "1" else "0") }

def annotate_schema_tree (fuel : ℕ) (root : Schema) : Option Schema :=
  (annotate_layouts fuel (annotate_schema_metadata root)).bind fun root =>
    annotate_field_states (annotate_type_references root)

/-- The rounds over the layouts are bounded by `fuel`. -/
def databind_binary_contract_apply (fuel : ℕ) (root : Schema) : Except String Schema := do
  let root ← binary_annotate_field_profiles root
  binary_validate_layout_policy root
  match annotate_schema_tree fuel root with
  | some root => pure root
  | none => .error "Failed to apply Binary contract overlay"

/-!
## Layouts that have settled

A block size, once recorded, is what the layout of the record comes to with the sizes recorded for
other composites. A round only adds sizes and changes none, so this holds after every round.
-/

def Field.core : Field :=
  { field with
    offset := none, field_size_bytes := none, element_size_bytes := none,
    optional_bit_index := none, nullable_bit_index := none }

theorem isTail_core {f g : Field} (h : f.core = g.core) : f.isTail = g.isTail := by
  change f.core.isTail = g.core.isTail
  rw [h]

theorem resolve_field_core (root : Schema) {f g : Field} (h : f.core = g.core) :
    resolve_field_fixed_size root f = resolve_field_fixed_size root g := by
  change resolve_field_fixed_size root f.core = resolve_field_fixed_size root g.core
  rw [h]

/-- Every size that resolves in one tree resolves to the same in the other. -/
def Extends (root root' : Schema) : Prop :=
  ∀ name size, resolve_type_fixed_size root name = some size →
    resolve_type_fixed_size root' name = some size

variable {root root' : Schema}

theorem resolve_field_extends (h : Extends root root') {field : Field} {size : ℕ}
    (hs : resolve_field_fixed_size root field = some size) :
    resolve_field_fixed_size root' field = some size := by
  rw [resolve_field_fixed_size] at hs ⊢
  split_ifs at hs ⊢ with h1 h2 h3 h4
  · exact hs
  · obtain ⟨count, hcount, hs⟩ := Option.bind_eq_some_iff.mp hs
    obtain ⟨inner, hinner, hs⟩ := Option.bind_eq_some_iff.mp hs
    obtain ⟨type, htype, hinner⟩ := Option.bind_eq_some_iff.mp hinner
    refine Option.bind_eq_some_iff.mpr ⟨count, hcount, ?_⟩
    refine Option.bind_eq_some_iff.mpr ⟨inner, ?_, hs⟩
    exact Option.bind_eq_some_iff.mpr ⟨type, htype, h type inner hinner⟩
  · exact h _ _ hs

/-- The fields of a block lie behind each other from an offset on up to an end, each with the size
that it resolves to. -/
def LaidOut (root : Schema) : ℕ → List Field → ℕ → Prop
  | offset, [], stop => offset = stop
  | offset, field :: fields, stop =>
    if field.isTail then offset = stop
    else
      ∃ size, resolve_field_fixed_size root field = some size ∧ field.offset = some offset ∧
        field.field_size_bytes = some size ∧ size ≤ SIZE_MAX - offset ∧
        LaidOut root (offset + size) fields stop

example (root : Schema) : LaidOut root 0 [] 0 := by rw [LaidOut]

variable {fields : List Field} {offset stop : ℕ}

theorem LaidOut.extends (h : Extends root root') (hl : LaidOut root offset fields stop) :
    LaidOut root' offset fields stop := by
  induction fields generalizing offset with
  | nil => exact hl
  | cons field fields ih =>
    rw [LaidOut] at hl ⊢
    split_ifs at hl ⊢ with ht
    · exact hl
    · obtain ⟨size, hs, ho, hf, hm, hl⟩ := hl
      exact ⟨size, resolve_field_extends h hs, ho, hf, hm, ih hl⟩

theorem layout_fields_core (root : Schema) (offset : ℕ) (fields : List Field) :
    (layout_fields root offset fields).1.map Field.core = fields.map Field.core := by
  induction fields generalizing offset with
  | nil => rfl
  | cons field fields ih =>
    rw [layout_fields]
    split_ifs
    · rfl
    · split
      · rfl
      · split_ifs
        · rfl
        · simp [ih, Field.core]

theorem layout_fields_laid (h : (layout_fields root offset fields).2 = some stop) :
    LaidOut root offset (layout_fields root offset fields).1 stop := by
  induction fields generalizing offset with
  | nil =>
    cases h
    rfl
  | cons field fields ih =>
    rw [layout_fields] at h ⊢
    by_cases ht : field.isTail
    · rw [if_pos ht] at h ⊢
      rw [LaidOut, if_pos ht]
      exact Option.some.inj h
    · rw [if_neg ht] at h ⊢
      cases hs : resolve_field_fixed_size root field with
      | none =>
        rw [hs] at h
        cases h
      | some size =>
        rw [hs] at h
        dsimp only at h ⊢
        by_cases hm : SIZE_MAX - offset < size
        · rw [if_pos hm] at h
          cases h
        · rw [if_neg hm] at h ⊢
          rw [LaidOut, if_neg (by exact ht)]
          exact ⟨size, hs, rfl, rfl, by omega, ih h⟩

theorem LaidOut.layout_fields (h : LaidOut root offset fields stop) :
    layout_fields root offset fields = (fields, some stop) := by
  induction fields generalizing offset with
  | nil =>
    cases h
    rfl
  | cons field fields ih =>
    rw [LaidOut] at h
    rw [Binary.layout_fields]
    split_ifs at h ⊢ with ht
    · rw [h]
    · obtain ⟨size, hs, ho, hf, hm, hl⟩ := h
      rw [hs]
      dsimp only
      rw [if_neg (by omega), ih hl, ← ho, ← hf]

/-- What is recorded for a record is what its layout comes to. -/
def Settled (root : Schema) (record : Record) : Prop :=
  if record.has_fixed_block_size then
    ∃ stop, record.fixed_block_size = some stop ∧ LaidOut root 0 record.fields stop
  else record.fixed_block_size = none

variable {record : Record}

theorem Settled.extends (h : Extends root root') (hs : Settled root record) :
    Settled root' record := by
  rw [Settled] at hs ⊢
  split_ifs at hs ⊢
  · obtain ⟨stop, hf, hl⟩ := hs
    exact ⟨stop, hf, hl.extends h⟩
  · exact hs

theorem annotate_of_settled (h : Settled root record) (hb : record.has_fixed_block_size) :
    annotate_record_layout root record = record := by
  rw [Settled, if_pos hb] at h
  obtain ⟨stop, hf, hl⟩ := h
  rw [annotate_record_layout, hl.layout_fields]
  dsimp only
  rw [← hf, ← hb]

theorem annotate_settled (h : Settled root record) :
    Settled root (annotate_record_layout root record) := by
  by_cases hb : record.has_fixed_block_size
  · rwa [annotate_of_settled h hb]
  · rw [Settled, if_neg hb] at h
    rw [annotate_record_layout]
    cases hl : (layout_fields root 0 record.fields).2 with
    | none =>
      rw [Settled, if_neg (by exact hb)]
      exact h
    | some stop =>
      rw [Settled, if_pos rfl]
      exact ⟨stop, rfl, layout_fields_laid hl⟩

def Record.core (record : Record) : Record :=
  { record with
    fields := record.fields.map Field.core, fixed_block_size := none,
    has_fixed_block_size := false }

def Schema.core (root : Schema) : Schema :=
  { root with
    composites := root.composites.map Record.core
    groups := root.groups.map Record.core
    messages := root.messages.map Record.core }

theorem annotate_core (root : Schema) (record : Record) :
    (annotate_record_layout root record).core = record.core := by
  have h := layout_fields_core root 0 record.fields
  rw [annotate_record_layout]
  cases (layout_fields root 0 record.fields).2 <;> simp only [Record.core, h]

theorem annotate_name (root : Schema) (record : Record) :
    (annotate_record_layout root record).name = record.name := by
  have h := congrArg Record.name (annotate_core root record)
  exact h

structure AllSettled (root : Schema) : Prop where
  composites : ∀ r ∈ root.composites, Settled root r
  groups : ∀ r ∈ root.groups, Settled root r
  messages : ∀ r ∈ root.messages, Settled root r

/-- No composite has the name of an enumeration. -/
def NoClash (root : Schema) : Prop :=
  ∀ r ∈ root.composites, find_enum_by_name root r.name = none

theorem NoClash.of_core (h : root'.core = root.core) (hn : NoClash root) : NoClash root' := by
  have hc : root'.composites.map Record.core = root.composites.map Record.core :=
    congrArg Schema.composites h
  have he : root'.core.enums = root.core.enums := congrArg Schema.enums h
  change root'.enums = root.enums at he
  intro r hr
  obtain ⟨r', hr', hcore⟩ := List.mem_map.mp (hc ▸ List.mem_map_of_mem hr)
  have hname : r'.core.name = r.core.name := congrArg Record.name hcore
  change r'.name = r.name at hname
  rw [find_enum_by_name, he, ← hname]
  exact hn r' hr'

theorem find_modify {p : Record → Bool} {f : Record → Record} (hf : ∀ r, p (f r) = p r) (i : ℕ)
    (records : List Record) :
    (records.modify i f).find? p = records.find? p ∨
      ∃ r ∈ records, records.find? p = some r ∧ (records.modify i f).find? p = some (f r) := by
  induction records generalizing i with
  | nil => simp
  | cons r records ih =>
    cases i with
    | zero =>
      rw [List.modify_zero_cons, List.find?_cons, List.find?_cons, hf]
      cases hp : p r with
      | false => exact .inl rfl
      | true => exact .inr ⟨r, List.mem_cons_self, rfl, rfl⟩
    | succ i =>
      rw [List.modify_succ_cons, List.find?_cons, List.find?_cons]
      cases hp : p r with
      | true => exact .inl rfl
      | false =>
        obtain h | ⟨r', hr', h⟩ := ih i
        · exact .inl h
        · exact .inr ⟨r', List.mem_cons_of_mem r hr', h⟩

theorem extends_modify (h : ∀ r ∈ root.composites, Settled root r) (hn : NoClash root) (i : ℕ) :
    Extends root
      { root with composites := root.composites.modify i (annotate_record_layout root) } := by
  intro name size hs
  rw [resolve_type_fixed_size] at hs ⊢
  cases hp : primitive_type_size name with
  | some primitive =>
    rw [hp] at hs
    exact hs
  | none =>
    rw [hp] at hs
    have hfind := @find_modify (fun r => r.name = name) (annotate_record_layout root)
      (fun r => by rw [annotate_name]) i root.composites
    rw [← find_composite_by_name] at hfind
    obtain hsame | ⟨r, hr, hold, hnew⟩ := hfind
    · rw [find_composite_by_name, hsame]
      exact hs
    · by_cases hb : r.has_fixed_block_size
      · rw [annotate_of_settled (h r hr) hb] at hnew
        rw [find_composite_by_name, hnew]
        rw [hold] at hs
        exact hs
      · have hname : r.name = name := by
          rw [find_composite_by_name] at hold
          simpa using List.find?_some hold
        have hnone : find_enum_by_name root name = none := hname ▸ hn r hr
        simp [hold, hb, resolve_enum_fixed_size, hnone] at hs

structure Rounded (tree root : Schema) : Prop where
  core : root.core = tree.core
  settled : AllSettled root

variable {tree : Schema}

theorem rounded_modify (hn : NoClash tree) (h : Rounded tree root) (i : ℕ) : Rounded tree
      { root with composites := root.composites.modify i (annotate_record_layout root) } := by
  have hext := extends_modify h.settled.composites (hn.of_core h.core) i
  constructor
  · rw [← h.core]
    have hmap : (root.composites.modify i (annotate_record_layout root)).map Record.core =
        root.composites.map Record.core := by
      apply List.ext_getElem?
      intro j
      rw [List.getElem?_map, List.getElem?_map, List.getElem?_modify]
      cases root.composites[j]? with
      | none => rfl
      | some r =>
        by_cases hij : i = j
        · simp [hij, annotate_core]
        · simp [hij]
    simp only [Schema.core, hmap]
  · constructor
    · intro r hr
      obtain ⟨j, hj⟩ := List.mem_iff_getElem?.mp hr
      rw [List.getElem?_modify] at hj
      cases ho : root.composites[j]? with
      | none => simp [ho] at hj
      | some r' =>
        have hs := h.settled.composites r' (List.mem_of_getElem? ho)
        by_cases hij : i = j
        · simp only [ho, hij, if_true, Option.map_eq_map, Option.map_some,
            Option.some.injEq] at hj
          rw [← hj]
          exact (annotate_settled hs).extends hext
        · simp only [ho, hij, if_false, Option.map_eq_map, Option.map_some,
            Option.some.injEq] at hj
          rw [← hj]
          exact hs.extends hext
    · exact fun r hr => (h.settled.groups r hr).extends hext
    · exact fun r hr => (h.settled.messages r hr).extends hext

theorem rounded_round (hn : NoClash tree) (h : Rounded tree root) :
    Rounded tree (annotate_layouts_round root) := by
  have hsweep : ∀ composites, Sweep.sweep
      (fun composites => annotate_record_layout { root with composites := composites })
      root.composites = composites →
      Rounded tree { root with composites := composites } := fun composites hc => by
    rw [← hc]
    exact @Sweep.sweep_invariant _ _
      (fun composites => Rounded tree { root with composites := composites }) root.composites h
      fun i composites hc => rounded_modify hn hc i
  rw [annotate_layouts_round]
  generalize hc : Sweep.sweep _ root.composites = composites
  replace hsweep := hsweep composites hc
  have hmap : ∀ records : List Record,
      (records.map (annotate_record_layout { root with composites := composites })).map
        Record.core = records.map Record.core := fun records => by
    rw [List.map_map]
    exact List.map_congr_left fun r _ => annotate_core _ r
  -- sizes are resolved from the composites alone
  have hext : ∀ groups messages, Extends { root with composites := composites }
      { root with composites := composites, groups := groups, messages := messages } :=
    fun _ _ _ _ h => h
  constructor
  · rw [← hsweep.core]
    simp only [Schema.core, hmap]
  · constructor
    · exact fun r hr => (hsweep.settled.composites r hr).extends (hext _ _)
    · intro r hr
      obtain ⟨r', hr', rfl⟩ := List.mem_map.mp hr
      exact (annotate_settled (hsweep.settled.groups r' hr')).extends (hext _ _)
    · intro r hr
      obtain ⟨r', hr', rfl⟩ := List.mem_map.mp hr
      exact (annotate_settled (hsweep.settled.messages r' hr')).extends (hext _ _)

theorem annotate_layouts_rounded {fuel : ℕ} (hn : NoClash tree) (hs : AllSettled tree)
    (h : annotate_layouts fuel tree = some root) : Rounded tree root :=
  Sweep.settle_invariant h ⟨rfl, hs⟩ fun _ hr => rounded_round hn hr

end SaltsUtils.Binary
