import Mathlib.Algebra.Ring.Nat
import Mathlib.Data.List.Nodup

/-!
# Schema trees and the contract

The tree that the schema parser hands to the binary overlay, with the attributes of a node
as the fields of a record, and the names and types that the typed contract keeps of it.
The attributes that only templates read are left out.
-/

set_option autoImplicit false

namespace SaltsUtils.Binary

def SIZE_MAX : ℕ := 2 ^ 64 - 1
def PTRDIFF_MAX : ℕ := 2 ^ 63 - 1
def UINT_MAX : ℕ := 2 ^ 32 - 1

def is_numeric_literal (text : String) : Bool :=
  !text.toList.isEmpty && text.toList.all fun c => c.isDigit

def decimal (digits : List Char) : ℕ :=
  digits.foldl (fun value c => 10 * value + (c.toNat - '0'.toNat)) 0

def schema_parse_fixed_layout_size (text : Option String) : Option ℕ :=
  text.bind fun text =>
    if is_numeric_literal text then
      let value := decimal text.toList
      if value ≤ PTRDIFF_MAX then some value else none
    else none

def parse_size_text (size : Option ℕ) : Option ℕ := size.filter (· ≤ PTRDIFF_MAX)

inductive ScalarKind
  | bool
  | sint
  | uint
  | float
deriving DecidableEq

structure ScalarProfile where
  size : ℕ
  kind : ScalarKind
deriving DecidableEq

def scalar_profiles : List (List String × ScalarProfile) :=
  [(["bool"], ⟨1, .bool⟩),
   (["uint8_t", "uint8", "u8", "byte"], ⟨1, .uint⟩),
   (["int8_t", "int8", "i8"], ⟨1, .sint⟩),
   (["uint16_t", "uint16", "u16"], ⟨2, .uint⟩),
   (["int16_t", "int16", "i16"], ⟨2, .sint⟩),
   (["uint32_t", "uint32", "u32"], ⟨4, .uint⟩),
   (["int32_t", "int32", "i32"], ⟨4, .sint⟩),
   (["uint64_t", "uint64", "u64"], ⟨8, .uint⟩),
   (["int64_t", "int64", "i64"], ⟨8, .sint⟩),
   (["float", "f32"], ⟨4, .float⟩),
   (["double", "f64"], ⟨8, .float⟩)]

def databind_binary_scalar_profile_find (name : String) : Option ScalarProfile :=
  (scalar_profiles.find? fun p => p.1.contains name).map Prod.snd

def primitive_type_size (type_name : String) : Option ℕ :=
  if type_name = "uuid" then some 16
  else (databind_binary_scalar_profile_find type_name).map ScalarProfile.size

def idl_logical_builtin_type (name : String) : Bool :=
  ["bool", "int8_t", "int8", "i8", "int16_t", "int16", "i16", "int32_t", "int32", "i32",
    "int64_t", "int64", "i64", "uint8_t", "uint8", "u8", "byte", "uint16_t", "uint16", "u16",
    "uint32_t", "uint32", "u32", "uint64_t", "uint64", "u64", "float", "f32", "double", "f64",
    "string", "bytes", "uuid", "datetime", "date", "time", "duration", "decimal", "bigint",
    "money", "varint"].contains name

structure Field where
  type : String
  name : String
  is_optional : Bool
  is_nullable : Bool
  is_group_field : Bool := false
  group_type : Option String := none
  is_bytes : Bool := false
  is_string : Bool := false
  is_collection : Bool := false
  collection_kind : Option String := none
  inner_type : Option String := none
  key_type : Option String := none
  value_type : Option String := none
  length_field : Option String := none
  -- what the overlay adds
  size_bytes : Option ℕ := none
  is_numeric : Bool := false
  is_fixed_size : Bool := false
  is_user_defined : Bool := false
  is_var_data : Bool := false
  offset : Option ℕ := none
  field_size_bytes : Option ℕ := none
  element_size_bytes : Option ℕ := none
  optional_bit_index : Option ℕ := none
  nullable_bit_index : Option ℕ := none
deriving DecidableEq

structure Record where
  name : String
  fields : List Field
  -- what the overlay adds
  fixed_block_size : Option ℕ := none
  has_fixed_block_size : Bool := false
  optional_field_count : Option ℕ := none
  presence_bitmap_bytes : Option ℕ := none
  nullable_field_count : Option ℕ := none
  null_bitmap_bytes : Option ℕ := none
  null_bitmap_offset : Option ℕ := none
deriving DecidableEq

structure EnumDecl where
  name : String
  underlying_type : Option String
deriving DecidableEq

structure Schema where
  byte_order : Option String := none
  composites : List Record := []
  groups : List Record := []
  messages : List Record := []
  unions : List Record := []
  enums : List EnumDecl := []
  -- what the overlay adds
  schema_wire_big_endian_value : Option String := none
deriving DecidableEq

structure FieldDecl where
  type_str : String
  name_str : String
  is_collection : Bool := false
  inner : String := ""
  len_field : String := ""
  is_group_field : Bool := false
  is_optional : Bool := false
  is_nullable : Bool := false
deriving DecidableEq

def split_map_inner : Int → List Char → Option (List Char × List Char)
  | _, [] => none
  | depth, c :: rest =>
    if c = ',' ∧ depth = 0 then some ([], rest)
    else
      let depth := if c = '<' then depth + 1 else if c = '>' then depth - 1 else depth
      (split_map_inner depth rest).map fun p => (c :: p.1, p.2)

def nonempty_text (text : String) : Option String := if text = "" then none else some text

def annotate_field (field : Field) (d : FieldDecl) : Field :=
  let annotated :=
    if d.is_group_field then
      { field with
        is_group_field := true
        group_type := nonempty_text d.inner
        inner_type := nonempty_text d.inner }
    else if d.type_str = "bytes" then { field with is_bytes := true }
    else if d.type_str = "string" then { field with is_string := true }
    else if d.is_collection ∨ d.type_str = "array" ∨ d.type_str = "list" ∨ d.type_str = "set" ∨
        d.type_str = "map" then
      let collection :=
        { field with is_collection := true, collection_kind := some d.type_str }
      if d.type_str = "map" ∧ d.inner ≠ "" then
        match split_map_inner 0 d.inner.toList with
        | some (key, value) =>
          { collection with
            key_type := some (String.ofList key)
            value_type := some (String.ofList value)
            inner_type := some (String.ofList value) }
        | none => collection
      else { collection with inner_type := nonempty_text d.inner }
    else field
  { annotated with length_field := nonempty_text d.len_field }

def add_field (d : FieldDecl) : Field :=
  annotate_field
    { type := d.type_str, name := d.name_str, is_optional := d.is_optional,
      is_nullable := d.is_nullable } d

structure RecordDecl where
  name : String
  fields : List FieldDecl
deriving DecidableEq

def RecordDecl.record (d : RecordDecl) : Record :=
  { name := d.name, fields := d.fields.map add_field }

structure SchemaDecl where
  byte_order : Option String := none
  composites : List RecordDecl := []
  groups : List RecordDecl := []
  messages : List RecordDecl := []
  unions : List RecordDecl := []
  enums : List EnumDecl := []
deriving DecidableEq

def SchemaDecl.tree (d : SchemaDecl) : Schema :=
  { byte_order := d.byte_order
    composites := d.composites.map RecordDecl.record
    groups := d.groups.map RecordDecl.record
    messages := d.messages.map RecordDecl.record
    unions := d.unions.map RecordDecl.record
    enums := d.enums }

inductive IdlCollectionKind
  | none
  | group
  | array
  | list
  | set
  | map
deriving DecidableEq

structure IdlField where
  name : String
  type_name : String
  collection_kind : IdlCollectionKind
  inner_type : Option String
  key_type : Option String
  value_type : Option String
  length : Option String
  optional : Bool
  nullable : Bool
deriving DecidableEq

inductive IdlDataKind
  | message
  | composite
  | group
  | enum
  | union
deriving DecidableEq

structure IdlDataDecl where
  kind : IdlDataKind
  name : String
  fields : List IdlField
deriving DecidableEq

structure IdlContract where
  data : List IdlDataDecl
deriving DecidableEq

def collection_kind (field : Field) : IdlCollectionKind :=
  if field.is_group_field then .group
  else if !field.is_collection then .none
  else
    match field.collection_kind with
    | some "array" => .array
    | some "list" => .list
    | some "set" => .set
    | some "map" => .map
    | _ => .none

def field_build (field : Field) : IdlField :=
  { name := field.name
    type_name := field.type
    collection_kind := collection_kind field
    inner_type := field.inner_type
    key_type := field.key_type
    value_type := field.value_type
    length := field.length_field
    optional := field.is_optional
    nullable := field.is_nullable }

def record_build (kind : IdlDataKind) (record : Record) : IdlDataDecl :=
  { kind := kind, name := record.name, fields := record.fields.map field_build }

def data_build (root : Schema) : List IdlDataDecl :=
  root.messages.map (record_build .message) ++ root.composites.map (record_build .composite) ++
    root.groups.map (record_build .group) ++
    root.enums.map (fun e => ⟨.enum, e.name, []⟩) ++ root.unions.map (record_build .union)

def idl_contract_validate_data_names (data : List IdlDataDecl) : Bool :=
  data.all (fun d => d.name ≠ "" && d.fields.all (fun f => f.name ≠ "") &&
    decide (d.fields.map IdlField.name).Nodup) &&
    decide (data.map IdlDataDecl.name).Nodup

def idl_contract_build_from_tree (root : Schema) : Option IdlContract :=
  let data := data_build root
  if idl_contract_validate_data_names data &&
      data.all (fun d => !idl_logical_builtin_type d.name) then
    some ⟨data⟩
  else none

def idl_contract_find_data (contract : IdlContract) (name : String) : Option IdlDataDecl :=
  contract.data.find? fun d => d.name = name

def IdlField.held_type (field : IdlField) : Option String :=
  match field.collection_kind with
  | .none => some field.type_name
  | .array => field.inner_type
  | _ => none

end SaltsUtils.Binary
