import SaltsUtils.Binary.Schema
import SaltsUtils.Library.Outcome

/-!
# Runtime layout plans

`binary_layout_validate` of `src/databind/runtime/data_bind_binary_reader.c` on the plans
of `data_bind_binary_layout.h`.
-/

set_option autoImplicit false

namespace SaltsUtils.Binary.Layout

def UINT16_MAX : ℕ := 65535
def DATA_BIND_BINARY_LAYOUT_PLAN_ABI_VERSION : ℕ := 2
def DATA_BIND_BINARY_LAYOUT_MAX_DEPTH : ℕ := 32
def DATA_BIND_BINARY_GROUP_HEADER_SIZE : ℕ := 4

inductive TokenKind
  | null | bool | sint | uint | float | string | bytes
  | array_begin | array_end | map_begin | map_end
deriving DecidableEq

/-- `DataBindBinaryRepresentation`, which a plan holds as a number. -/
inductive Representation
  | fixed | var_data | group | counted | cursor_fixed
  | unknown (value : ℕ)
deriving DecidableEq

structure FieldPlan where
  size : ℕ := 72
  field_name : Option String
  token_kind : TokenKind
  scalar_bits : ℕ := 0
  wire_offset : ℕ := 0
  wire_extent : ℕ := 0
  optional_bit : ℕ := 0
  nullable_bit : ℕ := 0
  flags : ℕ := 0
  representation : Representation := .fixed
  tail_prefix_bytes : ℕ := 0
deriving DecidableEq

namespace FieldPlan

def optional (field : FieldPlan) : Bool := field.flags.testBit 0
def nullable (field : FieldPlan) : Bool := field.flags.testBit 1
def enum_bits (field : FieldPlan) : Bool := field.flags.testBit 2

end FieldPlan

structure ArrayPlan where
  size : ℕ := 40
  count : ℕ := 0
  element_extent : ℕ := 0
  element_token_kind : TokenKind
  element_scalar_bits : ℕ := 0
  element_flags : ℕ := 0
deriving DecidableEq

/-- `DataBindBinaryLayoutPlan`. A null table of fields stands for one that should have some; the
other two tables have an entry for each field. -/
structure LayoutPlan where
  size : ℕ := 104
  abi_version : ℕ := DATA_BIND_BINARY_LAYOUT_PLAN_ABI_VERSION
  type_name : Option String
  wire_big_endian : Bool := false
  fixed_block_size : ℕ
  presence_offset : ℕ := 0
  presence_size : ℕ := 0
  null_offset : ℕ := 0
  null_size : ℕ := 0
  fields : Option (List FieldPlan)
  child_plans : Option (List (Option ℕ)) := none
  array_plans : Option (List (Option ArrayPlan)) := none
deriving DecidableEq

namespace LayoutPlan

def fieldList (plan : LayoutPlan) : List FieldPlan := plan.fields.getD []

/-- No entry stands for a null table as well. -/
def child_at (plan : LayoutPlan) (i : ℕ) : Option ℕ :=
  (plan.child_plans.bind fun table => table[i]?).join

def data_bind_binary_array_plan_at (plan : LayoutPlan) (i : ℕ) : Option ArrayPlan :=
  (plan.array_plans.bind fun table => table[i]?).join

end LayoutPlan

inductive PlanStatus
  | invalid_arg | schema | limit
deriving DecidableEq

structure PlanError where
  status : PlanStatus
  path : Option String
  message : String
deriving DecidableEq

/-- A check that returns with an error. -/
def reject (c : Prop) [Decidable c] (status : PlanStatus) (path : Option String)
    (message : String) : Except PlanError Unit :=
  if c then .error ⟨status, path, message⟩ else .ok ()

theorem reject_eq_ok {c : Prop} [Decidable c] {status : PlanStatus} {path : Option String}
    {message : String} {u : Unit} : reject c status path message = .ok u ↔ ¬ c := by
  unfold reject
  split_ifs with h <;> simp [h]

def binary_size_add (left right : ℕ) : Option ℕ :=
  if right > SIZE_MAX - left then none else some (left + right)

def binary_ranges_overlap (left_offset left_size right_offset right_size : ℕ) : Bool :=
  if left_size = 0 ∨ right_size = 0 then false
  else
    match binary_size_add left_offset left_size, binary_size_add right_offset right_size with
    | some left_end, some right_end => left_offset < right_end && right_offset < left_end
    | _, _ => true

def binary_token_width_valid (kind : TokenKind) (bits : ℕ) : Bool :=
  match kind with
  | .bool => bits = 8
  | .sint | .uint => bits = 8 || bits = 16 || bits = 32 || bits = 64
  | .float => bits = 32 || bits = 64
  | _ => false

def element_flags_wrong (array : ArrayPlan) : Prop :=
  (array.element_flags ≠ 0 ∧ array.element_flags ≠ 4) ∨
    (array.element_flags ≠ 0 ∧ array.element_token_kind ≠ .sint ∧ array.element_token_kind ≠ .uint)

instance (array : ArrayPlan) : Decidable (element_flags_wrong array) :=
  inferInstanceAs (Decidable (_ ∨ _))

/-- What the loop over the fields has come across. -/
structure Saw where
  tail : Bool := false
  var_data : Bool := false
  counted : Bool := false
deriving DecidableEq

/-- A record that a field holds, as its extent and byte order have to be. -/
def child_disagrees (plans : ℕ → LayoutPlan) (plan : LayoutPlan) (child extent : ℕ) : Prop :=
  (plans child).fixed_block_size ≠ extent ∨
    (plans child).wire_big_endian ≠ plan.wire_big_endian

instance (plans : ℕ → LayoutPlan) (plan : LayoutPlan) (child extent : ℕ) :
    Decidable (child_disagrees plans plan child extent) := inferInstanceAs (Decidable (_ ∨ _))

section Fields
variable (plans : ℕ → LayoutPlan) (plan : LayoutPlan)

def validate_fixed (record : Option ℕ → Except PlanError Unit)
    (entry : Option (Option ℕ → Except PlanError Unit)) (i : ℕ) (field : FieldPlan) :
    Except PlanError Unit :=
  match field.token_kind with
  | .map_begin =>
    match plan.child_at i with
    | none => .error ⟨.schema, field.field_name, "Binary fixed record metadata is incomplete"⟩
    | some child => do
      reject (field.scalar_bits ≠ 0 ∨ field.tail_prefix_bytes ≠ 0) .schema field.field_name
        "Binary fixed record metadata is incomplete"
      record (some child)
      reject (child_disagrees plans plan child field.wire_extent) .schema field.field_name
        "Binary fixed record extent or byte order disagrees"
  | .array_begin =>
    match plan.data_bind_binary_array_plan_at i with
    | none => .error ⟨.schema, field.field_name, "Binary fixed array extent metadata is incomplete"⟩
    | some array => do
      reject (array.size ≠ 40 ∨ array.count = 0 ∨ array.element_extent = 0 ∨
          array.count > SIZE_MAX / array.element_extent ∨
          array.count * array.element_extent ≠ field.wire_extent ∨ field.scalar_bits ≠ 0 ∨
          field.tail_prefix_bytes ≠ 0) .schema field.field_name
        "Binary fixed array extent metadata is incomplete"
      reject (element_flags_wrong array) .schema field.field_name
        "Binary fixed array enum representation is invalid"
      match entry with
      | none => .error ⟨.limit, field.field_name, "Binary fixed array exceeds the configured depth"⟩
      | some entry =>
        if array.element_token_kind = .map_begin then
          match plan.child_at i with
          | none =>
            .error ⟨.schema, field.field_name, "Binary fixed array record metadata is incomplete"⟩
          | some child => do
            reject (array.element_scalar_bits ≠ 0) .schema field.field_name
              "Binary fixed array record metadata is incomplete"
            entry (some child)
            reject (child_disagrees plans plan child array.element_extent) .schema field.field_name
              "Binary fixed array record extent or byte order disagrees"
        else
          reject (plan.child_at i ≠ none ∨
            (if array.element_token_kind = .bytes then array.element_scalar_bits ≠ 0
              else binary_token_width_valid array.element_token_kind array.element_scalar_bits = false ∨
                array.element_extent ≠ array.element_scalar_bits / 8)) .schema field.field_name
            "Binary fixed array scalar metadata is invalid"
  | .bytes =>
    reject (field.scalar_bits ≠ 0 ∨ field.tail_prefix_bytes ≠ 0) .schema field.field_name
      "Binary fixed byte extent metadata is invalid"
  | _ =>
    reject (binary_token_width_valid field.token_kind field.scalar_bits = false ∨
        field.wire_extent ≠ field.scalar_bits / 8) .schema field.field_name
      "Binary scalar width is invalid"

variable (fixed_only : Bool)

def validate_counted (entry : Option (Option ℕ → Except PlanError Unit)) (i : ℕ) (field : FieldPlan) :
    Except PlanError Unit :=
  match plan.data_bind_binary_array_plan_at i with
  | none => .error ⟨.schema, field.field_name, "Binary counted collection metadata is invalid"⟩
  | some array => do
    reject (fixed_only = true ∨
        (field.token_kind ≠ .array_begin ∧ field.token_kind ≠ .map_begin) ∨
        field.wire_offset ≠ 0 ∨ field.wire_extent ≠ 0 ∨ field.scalar_bits ≠ 0 ∨
        field.tail_prefix_bytes ≠ 4 ∨ array.size ≠ 40 ∨ array.count ≠ 0 ∨
        (if array.element_token_kind = .string ∨ array.element_token_kind = .bytes then
            array.element_scalar_bits ≠ 0 ∨ array.element_extent ≠ 0
          else if array.element_token_kind = .map_begin then
            array.element_scalar_bits ≠ 0 ∨ array.element_extent = 0
          else binary_token_width_valid array.element_token_kind array.element_scalar_bits = false ∨
            array.element_extent ≠ array.element_scalar_bits / 8) ∨
        (if array.element_token_kind = .map_begin then plan.child_at i = none
          else plan.child_at i ≠ none) ∨
        element_flags_wrong array) .schema field.field_name
      "Binary counted collection metadata is invalid"
    match entry with
    | none =>
      .error ⟨.limit, field.field_name, "Binary counted collection exceeds the configured depth"⟩
    | some entry =>
      match array.element_token_kind, plan.child_at i with
      | .map_begin, some child => do
        entry (some child)
        reject (child_disagrees plans plan child array.element_extent) .schema field.field_name
          "Binary counted record extent or byte order disagrees"
      | _, _ => .ok ()

def validate_group (saw : Saw) (entry : Option (Option ℕ → Except PlanError Unit)) (i : ℕ)
    (field : FieldPlan) : Except PlanError Unit :=
  match plan.child_at i with
  | none => .error ⟨.schema, field.field_name, "Binary GROUP metadata is incomplete or out of order"⟩
  | some child => do
    reject (fixed_only = true ∨ (saw.var_data = true ∧ saw.counted = false) ∨
        field.token_kind ≠ .array_begin ∨ field.scalar_bits ≠ 0 ∨ field.wire_offset ≠ 0 ∨
        field.wire_extent ≠ 0 ∨ field.tail_prefix_bytes ≠ DATA_BIND_BINARY_GROUP_HEADER_SIZE)
      .schema field.field_name "Binary GROUP metadata is incomplete or out of order"
    match entry with
    | none => .error ⟨.limit, field.field_name, "Binary GROUP entry exceeds the configured depth"⟩
    | some entry => do
      entry (some child)
      reject ((plans child).fixed_block_size = 0 ∨ (plans child).fixed_block_size > UINT16_MAX ∨
          (plans child).wire_big_endian ≠ plan.wire_big_endian) .schema field.field_name
        "Binary GROUP entry extent or byte order disagrees"

def validate_var_data (field : FieldPlan) : Except PlanError Unit :=
  reject (fixed_only = true ∨ (field.token_kind ≠ .string ∧ field.token_kind ≠ .bytes) ∨
      field.scalar_bits ≠ 0 ∨ field.wire_offset ≠ 0 ∨ field.wire_extent ≠ 0 ∨
      field.tail_prefix_bytes ≠ 4) .schema field.field_name
    "Binary VAR_DATA field layout is invalid"

def FieldPlan.isFixed (field : FieldPlan) : Bool :=
  field.representation = .fixed || field.representation = .cursor_fixed

/-- The checks of a field that come after those of its representation. -/
def validate_state (i : ℕ) (field : FieldPlan) : Except PlanError Unit := do
  reject (field.token_kind ≠ .map_begin ∧ field.token_kind ≠ .array_begin ∧
      plan.child_at i ≠ none) .schema field.field_name
    "Binary scalar field has unexpected child metadata"
  reject (field.representation ≠ .counted ∧
      (field.isFixed = false ∨ field.token_kind ≠ .array_begin) ∧
      plan.data_bind_binary_array_plan_at i ≠ none) .schema field.field_name
    "Binary field has unexpected fixed array metadata"
  reject (field.enum_bits = true ∧ (field.isFixed = false ∨
      (field.token_kind ≠ .sint ∧ field.token_kind ≠ .uint))) .schema field.field_name
    "Binary enum representation requires a fixed integer"
  reject (field.optional = true ∧
      (plan.presence_size = 0 ∨ field.optional_bit / 8 ≥ plan.presence_size))
    .schema field.field_name "Binary optional state bit is outside the presence bitmap"
  reject (field.nullable = true ∧
      (plan.null_size = 0 ∨ field.nullable_bit / 8 ≥ plan.null_size))
    .schema field.field_name "Binary nullable state bit is outside the null bitmap"
  reject (field.flags ≥ 8) .schema field.field_name
    "Binary reader field contains unknown state flags"

/-- An earlier field that `strcmp` or the overlap of two fixed ranges sets against a field. -/
def clashes (field prior : FieldPlan) : Bool :=
  prior.field_name = field.field_name ||
    (field.representation = .fixed && prior.representation = .fixed &&
      binary_ranges_overlap prior.wire_offset prior.wire_extent field.wire_offset field.wire_extent)

def validate_representation (state_end : ℕ) (record : Option ℕ → Except PlanError Unit)
    (entry group_entry : Option (Option ℕ → Except PlanError Unit)) (i : ℕ) (saw : Saw)
    (field : FieldPlan) : Except PlanError Saw :=
  match field.representation with
  | .fixed => do
    reject (saw.tail = true ∨ field.wire_extent = 0 ∨
        (binary_size_add field.wire_offset field.wire_extent).all
          (fun stop => stop > plan.fixed_block_size) = true ∨
        binary_ranges_overlap field.wire_offset field.wire_extent 0 state_end = true) .schema
      field.field_name "Binary scalar field layout is invalid"
    validate_fixed plans plan record entry i field
    pure saw
  | .cursor_fixed => do
    reject (fixed_only = true ∨ saw.counted = false ∨ field.wire_offset ≠ 0 ∨
        field.wire_extent = 0) .schema field.field_name "Binary scalar field layout is invalid"
    validate_fixed plans plan record entry i field
    pure saw
  | .counted => do
    validate_counted plans plan fixed_only entry i field
    pure { saw with tail := true, counted := true }
  | .group => do
    validate_group plans plan fixed_only saw group_entry i field
    pure { saw with tail := true }
  | .var_data => do
    validate_var_data fixed_only field
    pure { saw with tail := true, var_data := true }
  | .unknown _ =>
    .error ⟨.schema, field.field_name, "Binary reader field representation is unsupported"⟩

def validate_field (state_end : ℕ) (record : Option ℕ → Except PlanError Unit)
    (entry group_entry : Option (Option ℕ → Except PlanError Unit)) (prior : List FieldPlan)
    (saw : Saw) (field : FieldPlan) : Except PlanError Saw := do
  reject (field.size ≠ 72) .schema plan.type_name "Binary reader field metadata is incomplete"
  reject (field.field_name.getD "" = "") .schema
    (if field.field_name = none then plan.type_name else field.field_name)
    "Binary reader field metadata is incomplete"
  let saw ← validate_representation plans plan fixed_only state_end record entry group_entry
    prior.length saw field
  validate_state plan prior.length field
  reject (prior.any (clashes field) = true) .schema field.field_name
    "Binary reader fields overlap or duplicate canonical identity"
  pure saw

def validate_fields (fixed_only : Bool) (state_end : ℕ)
    (record : Option ℕ → Except PlanError Unit)
    (entry group_entry : Option (Option ℕ → Except PlanError Unit)) :
    List FieldPlan → Saw → List FieldPlan → Except PlanError Saw
  | _, saw, [] => .ok saw
  | prior, saw, field::rest => do
    let saw ← validate_field plans plan fixed_only state_end record entry group_entry prior saw field
    validate_fields fixed_only state_end record entry group_entry (prior ++ [field]) saw rest

end Fields

def data_plan_incomplete (plan : LayoutPlan) : Prop :=
  plan.size ≠ 104 ∨ plan.abi_version ≠ DATA_BIND_BINARY_LAYOUT_PLAN_ABI_VERSION ∨
    plan.type_name.getD "" = "" ∨ plan.fields = none

instance (plan : LayoutPlan) : Decidable (data_plan_incomplete plan) :=
  inferInstanceAs (Decidable (_ ∨ _))

/-- The first number is `max_depth - depth`. -/
def binary_layout_validate (plans : ℕ → LayoutPlan) :
    ℕ → List (Option ℕ) → Bool → Option ℕ → Except PlanError Unit
  | 0, _, _, _ => .error ⟨.limit, none, "Binary layout depth exceeds the configured limit"⟩
  | room + 1, ancestors, fixed_only, address =>
    if address ∈ ancestors then .error ⟨.schema, none, "Binary layout contains a record cycle"⟩
    else
      match address with
      | none => .error ⟨.invalid_arg, none, "Binary reader plan is incomplete"⟩
      | some p => do
        let plan := plans p
        reject (data_plan_incomplete plan) .invalid_arg none "Binary reader plan is incomplete"
        reject ((binary_size_add plan.presence_size plan.null_size).all
            (fun state_end => state_end > plan.fixed_block_size) = true ∨
            plan.presence_offset ≠ 0 ∨ plan.null_offset ≠ plan.presence_size) .schema plan.type_name
          "Binary reader state exceeds the fixed block"
        let entry := match room with
          | 0 => none
          | below + 1 => some (binary_layout_validate plans below (ancestors ++ [address, none]) true)
        let saw ← validate_fields plans plan fixed_only (plan.presence_size + plan.null_size)
          (binary_layout_validate plans room (ancestors ++ [address]) true) entry
          (if room = 1 then none else entry) [] {} plan.fieldList
        reject (plan.fixed_block_size = 0 ∧ saw.tail = false) .invalid_arg plan.type_name
          "Binary reader plan has no fixed block or VAR_DATA tail"

def data_bind_binary_layout_plan_validate (plans : ℕ → LayoutPlan) (plan : Option ℕ) :
    Except PlanError Unit :=
  binary_layout_validate plans DATA_BIND_BINARY_LAYOUT_MAX_DEPTH [] false plan

end SaltsUtils.Binary.Layout
