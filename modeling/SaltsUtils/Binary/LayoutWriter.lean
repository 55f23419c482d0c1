import SaltsUtils.Library.ByteBuffer
import SaltsUtils.Binary.LayoutPlan

/-!
# Writing and reading by a layout plan

`binary_writer_write` of `src/databind/runtime/data_bind_binary_writer.c` with all that it
calls, and what `data_bind_binary_reader.c` takes from the fixed block of a record. The
frame on top is the head of the list.
-/

set_option autoImplicit false

namespace SaltsUtils.Binary.Layout

def DATA_BIND_BINARY_LAYOUT_MAX_PAYLOAD_BYTES : ℕ := 16 * 1024 * 1024
def DATA_BIND_BINARY_LAYOUT_MAX_ITEMS : ℕ := 65536

abbrev Byte := BitVec 8

inductive Token
  | null
  | bool (value : Bool)
  | sint (value : ℤ)
  | uint (value : ℕ)
  | float (bits : ℕ)
  | string (slice : List Byte)
  | bytes (slice : List Byte)
  | array_begin | array_end | map_begin | map_end
deriving DecidableEq

def Token.kind : Token → TokenKind
  | .null => .null
  | .bool _ => .bool
  | .sint _ => .sint
  | .uint _ => .uint
  | .float _ => .float
  | .string _ => .string
  | .bytes _ => .bytes
  | .array_begin => .array_begin
  | .array_end => .array_end
  | .map_begin => .map_begin
  | .map_end => .map_end

structure FloatOps where
  narrow : ℕ → ℕ
  in_range : ℕ → Bool

inductive WriterStage
  | root | key | value | group | done
deriving DecidableEq

structure WriterFrame where
  plan : ℕ
  base_offset : ℕ := 0
  next_field : ℕ := 0
  current_field : ℕ := 0
  group_count : ℕ := 0
  array : Option ArrayPlan := none
  counted : Bool := false
  map : Bool := false
  key_pending : Bool := false
  stage : WriterStage
deriving DecidableEq

/-- `DataBindBinaryWriterOwner` before it is committed. -/
structure WriterOwner where
  plan : ℕ
  buffer : List Byte
  frames : List WriterFrame
  max_depth : ℕ
deriving DecidableEq

inductive WriteStatus
  | ok | unsupported | limit_exceeded
deriving DecidableEq

def wire_bytes (big_endian : Bool) (count value : ℕ) : List Byte :=
  let little := (List.range count).map fun k => BitVec.ofNat 8 (value / 256 ^ k)
  if big_endian then little.reverse else little

def zeros (count : ℕ) : List Byte := List.replicate count 0

def nameBytes (name : String) : List Byte :=
  (name.toList.flatMap String.utf8EncodeChar).map UInt8.toBitVec

/-- `*state |= mask` or `*state &= ~mask` -/
def Byte.assign (byte : Byte) (bit : ℕ) (value : Bool) : Byte :=
  if value then byte ||| (1#8 <<< (bit % 8)) else byte &&& ~~~(1#8 <<< (bit % 8))

def normalize_enum (field : FieldPlan) (token : Token) : Option Token :=
  if field.enum_bits = true ∧ token.kind ≠ field.token_kind then
    match field.token_kind, token with
    | .sint, .uint bits =>
      let mask := 2 ^ field.scalar_bits - 1
      if bits > mask then none
      else some (.sint (if bits.testBit (field.scalar_bits - 1) then -1 - ((mask : ℤ) - bits)
        else bits))
    | .uint, .sint value => if value ≥ 0 then some (.uint value.toNat) else none
    | _, _ => none
  else some token

def binary_writer_sint_in_range (value : ℤ) (bits : ℕ) : Bool :=
  (bits = 8 || bits = 16 || bits = 32 || bits = 64) &&
    -2 ^ (bits - 1) ≤ value && value < 2 ^ (bits - 1)

def binary_writer_uint_in_range (value : ℕ) (bits : ℕ) : Bool :=
  (bits = 8 || bits = 16 || bits = 32 || bits = 64) && value < 2 ^ bits

section Encoding
variable (ops : FloatOps)

def fixed_bytes (big_endian : Bool) (field : FieldPlan) (token : Token) : Option (List Byte) :=
  match normalize_enum field token with
  | none => none
  | some token =>
    match field.token_kind, token with
    | .bytes, .bytes slice => if slice.length = field.wire_extent then some slice else none
    | .bool, .bool value =>
      if field.scalar_bits = 8 then some (wire_bytes big_endian 1 value.toNat) else none
    | .sint, .sint value =>
      if binary_writer_sint_in_range value field.scalar_bits then
        some (wire_bytes big_endian (field.scalar_bits / 8)
          (value % 2 ^ field.scalar_bits).toNat)
      else none
    | .uint, .uint value =>
      if binary_writer_uint_in_range value field.scalar_bits then
        some (wire_bytes big_endian (field.scalar_bits / 8) value)
      else none
    | .float, .float bits =>
      if field.scalar_bits = 32 then
        if ops.in_range bits then some (wire_bytes big_endian 4 (ops.narrow bits)) else none
      else if field.scalar_bits = 64 then some (wire_bytes big_endian 8 bits)
      else none
    | _, _ => none

end Encoding

namespace WriterOwner

variable (owner : WriterOwner)

def setTop (change : WriterFrame → WriterFrame) : WriterOwner :=
  { owner with
    frames := match owner.frames with
      | [] => []
      | frame::rest => change frame::rest }

def push (frame : WriterFrame) : WriterOwner :=
  { owner with frames := frame::owner.frames }

def pop : WriterOwner := { owner with frames := owner.frames.tail }

def append (data : List Byte) : WriterOwner :=
  { owner with buffer := owner.buffer ++ data }

def put (offset : ℕ) (data : List Byte) : WriterOwner :=
  { owner with buffer := overwrite owner.buffer offset data }

end WriterOwner

def binary_writer_reserve (owner : WriterOwner) (extra : ℕ) : Bool :=
  owner.buffer.length ≤ DATA_BIND_BINARY_LAYOUT_MAX_PAYLOAD_BYTES &&
    extra ≤ DATA_BIND_BINARY_LAYOUT_MAX_PAYLOAD_BYTES - owner.buffer.length

/-- Bytes at the end of the buffer, where there is room for them. -/
def reserve_append (owner : WriterOwner) (data : List Byte) : Bool × WriterOwner :=
  if binary_writer_reserve owner data.length then (true, owner.append data) else (false, owner)

section Writer
variable (plans : ℕ → LayoutPlan) (ops : FloatOps)

def binary_writer_state_bit (owner : WriterOwner) (frame : WriterFrame) (offset bit : ℕ)
    (value : Bool) : WriterOwner :=
  { owner with
    buffer := owner.buffer.modify (frame.base_offset + offset + bit / 8)
      fun byte => Byte.assign byte bit value }

def binary_writer_append_count_header (owner : WriterOwner) : Bool × WriterOwner :=
  reserve_append owner (zeros 4)

def binary_writer_append_var_data (owner : WriterOwner) (data : List Byte) : Bool × WriterOwner :=
  if data.length > 2 ^ 32 - 1 then (false, owner)
  else
    reserve_append owner (wire_bytes (plans owner.plan).wire_big_endian 4 data.length ++ data)

def binary_writer_append_group_header (owner : WriterOwner) (entry : LayoutPlan) :
    Bool × WriterOwner :=
  reserve_append owner (wire_bytes entry.wire_big_endian 2 entry.fixed_block_size ++
    wire_bytes entry.wire_big_endian 2 0)

/-- The plan of the records of a field; every plan that was accepted has one where it is asked
for. -/
def child_plan (frame : WriterFrame) (i : ℕ) : ℕ := ((plans frame.plan).child_at i).getD 0

def binary_writer_append_empty_tail (owner : WriterOwner) (frame : WriterFrame) (i : ℕ)
    (field : FieldPlan) : Bool × WriterOwner :=
  match field.representation with
  | .var_data => binary_writer_append_var_data plans owner []
  | .group => binary_writer_append_group_header owner (plans (child_plan plans frame i))
  | .counted => binary_writer_append_count_header owner
  | .cursor_fixed => reserve_append owner (zeros field.wire_extent)
  | _ => (true, owner)

def binary_writer_skip_field (owner : WriterOwner) (frame : WriterFrame) (i : ℕ)
    (field : FieldPlan) : Bool × WriterOwner :=
  if field.optional = false then (false, owner)
  else
    let owner := binary_writer_state_bit owner frame (plans frame.plan).presence_offset
      field.optional_bit false
    let owner :=
      if field.nullable then
        binary_writer_state_bit owner frame (plans frame.plan).null_offset field.nullable_bit false
      else owner
    binary_writer_append_empty_tail plans owner frame i field

def skip_fields (frame : WriterFrame) : ℕ → List FieldPlan → WriterOwner →
    Bool × ℕ × WriterOwner
  | i, [], owner => (true, i, owner)
  | i, field::rest, owner =>
    match binary_writer_skip_field plans owner frame i field with
    | (false, owner) => (false, i, owner)
    | (true, owner) => skip_fields frame (i + 1) rest owner

def binary_writer_key_equal (token : Token) (field : FieldPlan) : Bool :=
  match token, field.field_name with
  | .string slice, some name => slice = nameBytes name
  | _, _ => false

/-- The field with the key, behind optional ones only. -/
def find_index (token : Token) : ℕ → List FieldPlan → Option ℕ
  | _, [] => none
  | i, field::rest =>
    if binary_writer_key_equal token field then some i
    else if field.optional = false then none
    else find_index token (i + 1) rest

def binary_writer_find_field (owner : WriterOwner) (frame : WriterFrame) (token : Token) :
    Option ℕ × WriterOwner :=
  let fields := (plans frame.plan).fieldList
  match find_index token frame.next_field (fields.drop frame.next_field) with
  | none => (none, owner)
  | some i =>
    match skip_fields plans frame frame.next_field
      ((fields.drop frame.next_field).take (i - frame.next_field)) owner with
    | (false, _, owner) => (none, owner)
    | (true, _, owner) => (some i, owner)

def binary_writer_fixed_value (owner : WriterOwner) (frame : WriterFrame) (field : FieldPlan)
    (token : Token) : Bool × WriterOwner :=
  if frame.base_offset > owner.buffer.length ∨
      field.wire_offset > owner.buffer.length - frame.base_offset ∨
      field.wire_extent > owner.buffer.length - frame.base_offset - field.wire_offset then
    (false, owner)
  else
    match fixed_bytes ops (plans frame.plan).wire_big_endian field token with
    | none => (false, owner)
    | some data => (true, owner.put (frame.base_offset + field.wire_offset) data)

def positioned_value (owner : WriterOwner) (frame : WriterFrame) (field : FieldPlan)
    (token : Token) : WriteStatus × WriterOwner :=
  let start := owner.buffer.length - frame.base_offset
  match reserve_append owner (zeros field.wire_extent) with
  | (false, owner) => (.limit_exceeded, owner)
  | (true, owner) =>
    match binary_writer_fixed_value plans ops owner frame { field with wire_offset := start } token with
    | (false, owner) => (.unsupported, owner)
    | (true, owner) => (.ok, owner)

/-- The start of a fixed field, which lies behind the bytes written so far if its place is the
cursor. -/
def field_start (owner : WriterOwner) (frame : WriterFrame) (field : FieldPlan) : ℕ :=
  if field.representation = .cursor_fixed then owner.buffer.length
  else frame.base_offset + field.wire_offset

def reserve_cursor (owner : WriterOwner) (field : FieldPlan) : Bool × WriterOwner :=
  if field.representation = .cursor_fixed then reserve_append owner (zeros field.wire_extent)
  else (true, owner)

def scalar_value (owner : WriterOwner) (frame : WriterFrame) (field : FieldPlan) (token : Token) :
    WriteStatus × WriterOwner :=
  match field.representation with
  | .cursor_fixed => positioned_value plans ops owner frame field token
  | .fixed =>
    match binary_writer_fixed_value plans ops owner frame field token with
    | (false, owner) => (.unsupported, owner)
    | (true, owner) => (.ok, owner)
  | .var_data =>
    match token with
    | .string slice | .bytes slice =>
      if token.kind ≠ field.token_kind then (.unsupported, owner)
      else
        match binary_writer_append_var_data plans owner slice with
        | (false, owner) => (.limit_exceeded, owner)
        | (true, owner) => (.ok, owner)
    | _ => (.unsupported, owner)
  | _ => (.unsupported, owner)

def write_value (owner : WriterOwner) (frame : WriterFrame) (field : FieldPlan) (token : Token) :
    WriteStatus × WriterOwner :=
  let plan := plans frame.plan
  let array := plan.data_bind_binary_array_plan_at frame.current_field
  if field.representation = .counted then
    let map : Bool := field.token_kind = .map_begin
    match array with
    | none => (.unsupported, owner)
    | some a =>
      if token ≠ (if map then .map_begin else .array_begin) then (.unsupported, owner)
      else if owner.frames.length ≥ owner.max_depth then (.limit_exceeded, owner)
      else
        match binary_writer_append_count_header owner with
        | (false, owner) => (.limit_exceeded, owner)
        | (true, owner') =>
          (.ok, owner'.push
            { plan :=
                if a.element_token_kind = .map_begin then child_plan plans frame frame.current_field
                else frame.plan
              base_offset := owner.buffer.length
              array := some a
              counted := true
              map := map
              key_pending := map
              stage := .group })
  else if field.isFixed = true ∧ field.token_kind = .array_begin then
    match array with
    | none => (.unsupported, owner)
    | some a =>
      if token ≠ .array_begin then (.unsupported, owner)
      else if owner.frames.length ≥ owner.max_depth then (.limit_exceeded, owner)
      else
        match reserve_cursor owner field with
        | (false, owner) => (.limit_exceeded, owner)
        | (true, owner') =>
          (.ok, owner'.push
            { plan :=
                if a.element_token_kind = .map_begin then child_plan plans frame frame.current_field
                else frame.plan
              base_offset := field_start owner frame field
              array := some a
              stage := .group })
  else if field.representation = .group then
    let entry := child_plan plans frame frame.current_field
    if token ≠ .array_begin then (.unsupported, owner)
    else if owner.frames.length ≥ owner.max_depth then (.limit_exceeded, owner)
    else
      match binary_writer_append_group_header owner (plans entry) with
      | (false, owner) => (.limit_exceeded, owner)
      | (true, owner') =>
        (.ok, owner'.push { plan := entry, base_offset := owner.buffer.length, stage := .group })
  else if field.token_kind = .map_begin then
    if token ≠ .map_begin then (.unsupported, owner)
    else if owner.frames.length ≥ owner.max_depth then (.limit_exceeded, owner)
    else
      match reserve_cursor owner field with
      | (false, owner) => (.limit_exceeded, owner)
      | (true, owner') =>
        (.ok, owner'.push
          { plan := child_plan plans frame frame.current_field
            base_offset := field_start owner frame field
            stage := .key })
  else
    match scalar_value plans ops owner frame field token with
    | (.ok, owner) =>
      (.ok, owner.setTop fun f => { f with next_field := f.current_field + 1, stage := .key })
    | failed => failed

def binary_writer_value (owner : WriterOwner) (frame : WriterFrame) (token : Token) :
    WriteStatus × WriterOwner :=
  let plan := plans frame.plan
  match plan.fieldList[frame.current_field]? with
  | none => (.unsupported, owner)
  | some field =>
    let owner :=
      if field.optional then
        binary_writer_state_bit owner frame plan.presence_offset field.optional_bit true
      else owner
    if token = .null then
      if field.nullable = false then (.unsupported, owner)
      else
        let owner := binary_writer_state_bit owner frame plan.null_offset field.nullable_bit true
        match binary_writer_append_empty_tail plans owner frame frame.current_field field with
        | (false, owner) => (.limit_exceeded, owner)
        | (true, owner) =>
          (.ok, owner.setTop fun f => { f with next_field := f.current_field + 1, stage := .key })
    else
      let owner :=
        if field.nullable then
          binary_writer_state_bit owner frame plan.null_offset field.nullable_bit false
        else owner
      write_value plans ops owner frame field token

/-- What a frame does when the one above it has ended. -/
def resume_record (frame : WriterFrame) : WriterFrame :=
  { frame with next_field := frame.current_field + 1, stage := .key }

def resume_parent (frame : WriterFrame) : WriterFrame :=
  if frame.stage = .group then
    { frame with
      group_count := frame.group_count + 1
      key_pending := if frame.counted then frame.map else frame.key_pending }
  else resume_record frame

def end_record (owner : WriterOwner) (frame : WriterFrame) : WriteStatus × WriterOwner :=
  match skip_fields plans frame frame.next_field
    ((plans frame.plan).fieldList.drop frame.next_field) owner with
  | (false, next, owner) => (.unsupported, owner.setTop fun f => { f with next_field := next })
  | (true, next, owner) =>
    if owner.frames.length > 1 then (.ok, owner.pop.setTop resume_parent)
    else (.ok, owner.setTop fun f => { f with next_field := next, stage := .done })

def end_sequence (owner : WriterOwner) (frame : WriterFrame) : WriteStatus × WriterOwner :=
  let big_endian := (plans frame.plan).wire_big_endian
  if frame.counted then
    if frame.map = true ∧ frame.key_pending = false then (.unsupported, owner)
    else
      (.ok, ((owner.put frame.base_offset (wire_bytes big_endian 4 frame.group_count)).pop).setTop
        resume_record)
  else
    match frame.array with
    | some a =>
      if frame.group_count ≠ a.count then (.unsupported, owner)
      else (.ok, owner.pop.setTop resume_record)
    | none =>
      (.ok, ((owner.put (frame.base_offset + 2) (wire_bytes big_endian 2 frame.group_count)).pop).setTop
        resume_record)

def element_field (a : ArrayPlan) (kind : TokenKind) (offset : ℕ) : FieldPlan where
  field_name := none
  token_kind := kind
  scalar_bits := a.element_scalar_bits
  flags := a.element_flags
  wire_offset := offset
  wire_extent := a.element_extent

def count_element (frame : WriterFrame) : WriterFrame :=
  if frame.key_pending then { frame with key_pending := false }
  else { frame with group_count := frame.group_count + 1, key_pending := frame.map }

def write_counted (owner : WriterOwner) (frame : WriterFrame) (a : ArrayPlan) (token : Token) :
    WriteStatus × WriterOwner :=
  let kind := if frame.key_pending then .string else a.element_token_kind
  if frame.group_count ≥ DATA_BIND_BINARY_LAYOUT_MAX_ITEMS then (.limit_exceeded, owner)
  else if kind = .map_begin then
    if token ≠ .map_begin then (.unsupported, owner)
    else if owner.frames.length ≥ owner.max_depth then (.limit_exceeded, owner)
    else
      match reserve_append owner (zeros a.element_extent) with
      | (false, owner) => (.limit_exceeded, owner)
      | (true, owner') =>
        (.ok, owner'.push { plan := frame.plan, base_offset := owner.buffer.length, stage := .key })
  else if kind = .string ∨ kind = .bytes then
    match token with
    | .string slice | .bytes slice =>
      if token.kind ≠ kind then (.unsupported, owner)
      else
        match binary_writer_append_var_data plans owner slice with
        | (false, owner) => (.limit_exceeded, owner)
        | (true, owner) => (.ok, owner.setTop count_element)
    | _ => (.unsupported, owner)
  else
    match positioned_value plans ops owner frame (element_field a kind 0) token with
    | (.ok, owner) => (.ok, owner.setTop count_element)
    | failed => failed

def write_array (owner : WriterOwner) (frame : WriterFrame) (a : ArrayPlan) (token : Token) :
    WriteStatus × WriterOwner :=
  if a.element_token_kind ≠ .map_begin then
    if frame.group_count ≥ a.count then (.limit_exceeded, owner)
    else
      match binary_writer_fixed_value plans ops owner frame
        (element_field a a.element_token_kind (frame.group_count * a.element_extent)) token with
      | (false, owner) => (.unsupported, owner)
      | (true, owner) =>
        (.ok, owner.setTop fun f => { f with group_count := f.group_count + 1 })
  else if token ≠ .map_begin then (.unsupported, owner)
  else if owner.frames.length ≥ owner.max_depth then (.limit_exceeded, owner)
  else if frame.group_count ≥ a.count then (.limit_exceeded, owner)
  else
    (.ok, owner.push
      { plan := frame.plan
        base_offset := frame.base_offset + frame.group_count * a.element_extent
        stage := .key })

def write_entry (owner : WriterOwner) (frame : WriterFrame) (token : Token) :
    WriteStatus × WriterOwner :=
  if token ≠ .map_begin then (.unsupported, owner)
  else if owner.frames.length ≥ owner.max_depth then (.limit_exceeded, owner)
  else if frame.group_count = UINT16_MAX then (.limit_exceeded, owner)
  else
    match reserve_append owner (zeros (plans frame.plan).fixed_block_size) with
    | (false, owner) => (.limit_exceeded, owner)
    | (true, owner') =>
      (.ok, owner'.push { plan := frame.plan, base_offset := owner.buffer.length, stage := .key })

def binary_writer_write (owner : WriterOwner) (token : Token) : WriteStatus × WriterOwner :=
  match owner.frames with
  | [] => (.unsupported, owner)
  | frame::_ =>
    match frame.stage with
    | .root =>
      if token ≠ .map_begin then (.unsupported, owner)
      else (.ok, owner.setTop fun f => { f with stage := .key })
    | .key =>
      if token = .map_end then end_record plans owner frame
      else
        match binary_writer_find_field plans owner frame token with
        | (none, owner) => (.unsupported, owner)
        | (some i, owner) =>
          (.ok, owner.setTop fun f => { f with current_field := i, stage := .value })
    | .value => binary_writer_value plans ops owner frame token
    | .group =>
      if token = (if frame.map then .map_end else .array_end) then end_sequence plans owner frame
      else
        match frame.array with
        | some a =>
          if frame.counted then write_counted plans ops owner frame a token
          else write_array plans ops owner frame a token
        | none => write_entry plans owner frame token
    | .done => (.unsupported, owner)

def data_bind_binary_writer_open (plan max_depth : ℕ) : WriterOwner where
  plan := plan
  buffer := zeros (plans plan).fixed_block_size
  frames := [{ plan := plan, stage := .root }]
  max_depth := if max_depth = 0 then DATA_BIND_BINARY_LAYOUT_MAX_DEPTH else max_depth

def writer_run (owner : WriterOwner) (tokens : List Token) : WriterOwner :=
  tokens.foldl (fun owner token => (binary_writer_write plans ops owner token).2) owner

end Writer

def binary_state_bit (payload : List Byte) (offset bit : ℕ) : Bool :=
  ((payload[offset + bit / 8]?).getD 0).getLsbD (bit % 8)

/-- What the reader takes from the fixed block of a record for a field: whether it is present and
whether it is null, and the bytes of a fixed one. -/
structure FieldReport where
  present : Bool
  null : Bool
  value : Option (List Byte)
deriving DecidableEq

def binary_field_report (plan : LayoutPlan) (payload : List Byte) (field : FieldPlan) :
    FieldReport where
  present := !field.optional || binary_state_bit payload plan.presence_offset field.optional_bit
  null := field.nullable && binary_state_bit payload plan.null_offset field.nullable_bit
  value :=
    if field.representation = .fixed then some (view payload field.wire_offset field.wire_extent)
    else none

end SaltsUtils.Binary.Layout
