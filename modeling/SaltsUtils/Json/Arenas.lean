import SaltsUtils.Library.Decimal
import SaltsUtils.Json.ContainerIndex
import SaltsUtils.Json.Serialize

/-!
# Building documents

The values that the builder calls of `json_parser.c` make, and the arenas they are in. A
pointer is a number, and one that leads to no value stands for `NULL`.
-/

set_option autoImplicit false

namespace SaltsUtils.Json.Building

structure Doubles where
  double : Type
  of_int : ℤ → double
  snprintf : double → Bytes
  fmt : double → Bytes

inductive Data (D : Type) where
  | null
  | bool (val : Bool)
  | number (value : D) (lexeme : Option Bytes)
  | string (str : Bytes)
  | array (arr : ArrayVal ℕ)
  | object (obj : ObjectVal ℕ)

structure JsonValue (D : Type) where
  arena : ℕ
  data : Data D

/-- The parent of each arena, and the values in order of their creation. -/
structure Heap (D : Type) where
  parents : List (Option ℕ)
  values : List (JsonValue D)

section
variable {D : Type}

def Heap.empty : Heap D := ⟨[], []⟩

variable (h : Heap D)

def Heap.write (v : ℕ) (data : Data D) : Heap D :=
  { h with values := h.values.modify v fun old => { old with data := data } }

def parent_of (parents : List (Option ℕ)) (arena : ℕ) : Option ℕ := (parents[arena]?).join

def has_parent (parents : List (Option ℕ)) (src : ℕ) : ℕ → Option ℕ → Bool
  | _, none => false
  | 0, some _ => false
  | rounds + 1, some parent =>
    if parent = src then true else has_parent parents src rounds (parent_of parents parent)

def json_arena_can_adopt (parents : List (Option ℕ)) (dst src : ℕ) : Bool :=
  if dst = src ∨ parent_of parents src = some dst then true
  else if (parent_of parents src).isSome then false
  else !has_parent parents src parents.length (some dst)

def json_arena_adopt (parents : List (Option ℕ)) (dst src : ℕ) : List (Option ℕ) × Bool :=
  if !json_arena_can_adopt parents dst src then (parents, false)
  else if dst = src ∨ parent_of parents src = some dst then (parents, true)
  else (parents.set src (some dst), true)

def json_value_new_arena (arena : ℕ) (data : Data D) : Heap D × ℕ :=
  ({ h with values := h.values ++ [⟨arena, data⟩] }, h.values.length)

def json_create_root (data : Data D) : Heap D × ℕ :=
  json_value_new_arena { h with parents := h.parents ++ [none] } h.parents.length data

def json_create_object : Heap D × ℕ := json_create_root h (.object .empty)

def json_create_array : Heap D × ℕ := json_create_root h (.array .empty)

def json_create_string_n (str : Bytes) : Heap D × ℕ := json_create_root h (.string str)

def json_create_bool (val : Bool) : Heap D × ℕ := json_create_root h (.bool val)

def json_create_null : Heap D × ℕ := json_create_root h .null

end

section
variable (F : Doubles)

/-- The text has a buffer of 64 bytes. -/
def json_create_number (h : Heap F.double) (num : F.double) : Heap F.double × Option ℕ :=
  let text := F.snprintf num
  if text.length = 0 ∨ 64 ≤ text.length then (h, none)
  else
    let (h, v) := json_create_root h (.number num (some text))
    (h, some v)

def integer_text (num : ℤ) : Bytes :=
  if num < 0 then 45 :: Decimal.numeral num.natAbs else Decimal.numeral num.natAbs

def json_create_int64 (h : Heap F.double) (num : Int64) : Heap F.double × ℕ :=
  json_create_root h (.number (F.of_int num.toInt) (some (integer_text num.toInt)))

def json_create_uint64 (h : Heap F.double) (num : UInt64) : Heap F.double × ℕ :=
  json_create_root h (.number (F.of_int num.toNat) (some (integer_text num.toNat)))

end

section
variable {D : Type}

def json_can_transfer_to_arena (h : Heap D) (dst val : ℕ) : Bool :=
  match h.values[val]? with
  | some value => json_arena_can_adopt h.parents dst value.arena
  | none => false

/-- What follows the change of a container: the arena of the value is adopted with it. -/
def committed (h : Heap D) (dst val : ℕ) (added : Bool) : Heap D × Bool :=
  match added, h.values[val]? with
  | true, some value =>
    let (parents, adopted) := json_arena_adopt h.parents dst value.arena
    ({ h with parents := parents }, adopted)
  | _, _ => (h, false)

def json_object_add_n (alloc : Alloc) (h : Heap D) (obj : ℕ) (key : Bytes) (val : ℕ) :
    Heap D × Bool :=
  match h.values[obj]? with
  | some ⟨arena, .object members⟩ =>
    let (members, added) :=
      Json.json_object_add_n alloc (json_can_transfer_to_arena h arena val) members key val
    committed (h.write obj (.object members)) arena val added
  | _ => (h, false)

def json_array_add_checked (alloc : Alloc) (h : Heap D) (arr val : ℕ) : Heap D × Bool :=
  match h.values[arr]? with
  | some ⟨arena, .array elements⟩ =>
    let (elements, added) :=
      Json.json_array_add_checked alloc (json_can_transfer_to_arena h arena val) elements val
    committed (h.write arr (.array elements)) arena val added
  | _ => (h, false)

def object_set (alloc : Alloc) (h : Heap D) (obj : ℕ) (key : Bytes) (data : Data D) : Heap D :=
  match h.values[obj]? with
  | some ⟨arena, .object members⟩ =>
    let (h, v) := json_value_new_arena h arena data
    h.write obj (.object (json_object_set_arena alloc members key v).1)
  | _ => h

def json_object_set_string (alloc : Alloc) (h : Heap D) (obj : ℕ) (key val : Bytes) : Heap D :=
  object_set alloc h obj key (.string val)

def json_object_set_number (alloc : Alloc) (h : Heap D) (obj : ℕ) (key : Bytes) (val : D) : Heap D :=
  object_set alloc h obj key (.number val none)

def json_object_set_bool (alloc : Alloc) (h : Heap D) (obj : ℕ) (key : Bytes) (val : Bool) : Heap D :=
  object_set alloc h obj key (.bool val)

def json_object_set_null (alloc : Alloc) (h : Heap D) (obj : ℕ) (key : Bytes) : Heap D :=
  object_set alloc h obj key .null

end

section
variable {D : Type}

def object_member (members : ObjectVal ℕ) (i : ℕ) : Option (Bytes × ℕ) :=
  if members.count ≤ i then none
  else
    match members.index with
    | some index => (index.members[i]?).join.bind (members.pairs[·]?)
    | none => members.pairs[i]?

def clone_children (clone : Heap D → Option ℕ → Option (Heap D × Option ℕ)) (get : ℕ → Option ℕ)
    (add : ℕ → Heap D → ℕ → Heap D × Bool) (copy : ℕ) :
    ℕ → ℕ → Heap D → Option (Heap D × Option ℕ)
  | 0, _, h => some (h, some copy)
  | rounds + 1, i, h =>
    match clone h (get i) with
    | none => none
    | some (h, none) => some (h, none)
    | some (h, some child) =>
      match add i h child with
      | (h, true) => clone_children clone get add copy rounds (i + 1) h
      | (h, false) => some (h, none)

def add_element (copy : ℕ) (h : Heap D) (child : ℕ) : Heap D × Bool :=
  json_array_add_checked .all h copy child

def add_member (members : ObjectVal ℕ) (copy i : ℕ) (h : Heap D) (child : ℕ) : Heap D × Bool :=
  match object_member members i with
  | some (key, _) => json_object_add_n .all h copy key child
  | none => (h, false)

end

section
variable (F : Doubles)

def clone_number (h : Heap F.double) (value : F.double) (lexeme : Option Bytes) :
    Heap F.double × Option ℕ :=
  match json_create_number F h value, lexeme with
  | (h, some copy), some text => (h.write copy (.number value (some text)), some copy)
  | result, _ => result

def json_clone : ℕ → Heap F.double → Option ℕ → Option (Heap F.double × Option ℕ)
  | _, h, none => some (h, none)
  | 0, _, some _ => none
  | rounds + 1, h, some v =>
    match h.values[v]? with
    | none => some (h, none)
    | some ⟨_, .null⟩ => some (Prod.map id some (json_create_null h))
    | some ⟨_, .bool val⟩ => some (Prod.map id some (json_create_bool h val))
    | some ⟨_, .number value lexeme⟩ => some (clone_number F h value lexeme)
    | some ⟨_, .string str⟩ => some (Prod.map id some (json_create_string_n h str))
    | some ⟨_, .array elements⟩ =>
      let (h, copy) := json_create_array h
      clone_children (json_clone rounds) (json_array_get elements) (fun _ => add_element copy) copy
        (json_array_size elements) 0 h
    | some ⟨_, .object members⟩ =>
      let (h, copy) := json_create_object h
      clone_children (json_clone rounds) (fun i => (object_member members i).map Prod.snd)
        (add_member members copy) copy (json_object_size members) 0 h

def serialize_elements (serialize : ℕ → Option Bytes) : List ℕ → Option Bytes
  | [] => some []
  | v :: rest => do
    let text ← serialize v
    let more ← serialize_elements serialize rest
    some (text ++ separator rest ++ more)

def serialize_pairs (serialize : ℕ → Option Bytes) : List (Bytes × ℕ) → Option Bytes
  | [] => some []
  | (key, v) :: rest => do
    let text ← serialize v
    let more ← serialize_pairs serialize rest
    some (json_serialize_string key ++ [58] ++ text ++ separator rest ++ more)

def json_serialize_value (h : Heap F.double) : ℕ → ℕ → Option Bytes
  | 0, _ => none
  | rounds + 1, v =>
    match h.values[v]? with
    | none => some null_word
    | some ⟨_, .null⟩ => some null_word
    | some ⟨_, .bool val⟩ => some (if val then true_word else false_word)
    | some ⟨_, .number value lexeme⟩ => some (lexeme.getD (F.fmt value))
    | some ⟨_, .string str⟩ => some (json_serialize_string str)
    | some ⟨_, .array elements⟩ => do
      let text ← serialize_elements (json_serialize_value h rounds) elements.elements
      some ([91] ++ text ++ [93])
    | some ⟨_, .object members⟩ => do
      let text ← serialize_pairs (json_serialize_value h rounds) members.pairs
      some ([123] ++ text ++ [125])

end

inductive Call (F : Doubles) where
  | create_object
  | create_array
  | create_string (str : Bytes)
  | create_number (num : F.double)
  | create_int64 (num : Int64)
  | create_uint64 (num : UInt64)
  | create_bool (val : Bool)
  | create_null
  | clone (value : ℕ)
  | object_add (alloc : Alloc) (obj : ℕ) (key : Bytes) (val : ℕ)
  | array_add (alloc : Alloc) (arr val : ℕ)
  | set_string (alloc : Alloc) (obj : ℕ) (key val : Bytes)
  | set_number (alloc : Alloc) (obj : ℕ) (key : Bytes) (val : F.double)
  | set_bool (alloc : Alloc) (obj : ℕ) (key : Bytes) (val : Bool)
  | set_null (alloc : Alloc) (obj : ℕ) (key : Bytes)

/-- The heap afterwards, and whether the call reports success. -/
def step {F : Doubles} (rounds : ℕ) (h : Heap F.double) :
    Call F → Option (Heap F.double × Bool)
  | .create_object => some ((json_create_object h).1, true)
  | .create_array => some ((json_create_array h).1, true)
  | .create_string str => some ((json_create_string_n h str).1, true)
  | .create_number num => some (Prod.map id Option.isSome (json_create_number F h num))
  | .create_int64 num => some ((json_create_int64 F h num).1, true)
  | .create_uint64 num => some ((json_create_uint64 F h num).1, true)
  | .create_bool val => some ((json_create_bool h val).1, true)
  | .create_null => some ((json_create_null h).1, true)
  | .clone v => (json_clone F rounds h (some v)).map (Prod.map id Option.isSome)
  | .object_add alloc obj key val => some (json_object_add_n alloc h obj key val)
  | .array_add alloc arr val => some (json_array_add_checked alloc h arr val)
  | .set_string alloc obj key val => some (json_object_set_string alloc h obj key val, true)
  | .set_number alloc obj key val => some (json_object_set_number alloc h obj key val, true)
  | .set_bool alloc obj key val => some (json_object_set_bool alloc h obj key val, true)
  | .set_null alloc obj key => some (json_object_set_null alloc h obj key, true)

end SaltsUtils.Json.Building
