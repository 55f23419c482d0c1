import SaltsUtils.Library.Binary64
import SaltsUtils.Library.PointerGraph
import SaltsUtils.Json.Arenas
import SaltsUtils.Toon.Lexer

/-!
# TOON nodes and JSON values

`src/parser/toon/adapter/toon_json_adapter.c`.
-/

set_option autoImplicit false

namespace SaltsUtils.Toon.Adapter

open Binary64 (Double)
open Json (size_max)

def max_depth : ℕ := 256

structure Number where
  value : Double
  lexeme : Option Bytes
  exact : ∀ text ∈ lexeme, ∀ n ∈ Decimal.integer text, n.natAbs ≤ 2 ^ 53 →
    value.value = some (n : ℚ)

inductive JsonValue where
  | null
  | bool (val : Bool)
  | number (num : Number)
  | string (str : Bytes)
  | array (elements : List JsonValue)
  | object (pairs : List (Bytes × JsonValue))

structure ToonArray (P : Type) where
  items : Option (List (Option P))
  len : ℕ
  capacity : ℕ

/-- `kvtype` with what the union then holds. -/
inductive Payload (P : Type) where
  | string (ptr : Option Bytes)
  | int (i : Int32)
  | bool (boolean : Int32)
  | null
  | double (d : Double)
  | obj
  | list (array : ToonArray P)
  | lobj

structure ToonObject (P : Type) where
  payload : Payload P
  key : Option Bytes
  child : Option P
  next : Option P

inductive Rc where
  | einval
  | eproto
  | erange
  | echarset
  | enotsup
  | enomem
  deriving DecidableEq

inductive Halt where
  | rc (rc : Rc)
  | unfinished
  deriving DecidableEq

/-- A C string ends at its first zero byte. -/
def cstring (key : Bytes) : Bytes := key.takeWhile (· ≠ 0)

def json_create_number (num : Double) : Option Number :=
  if num.text.length = 0 ∨ 64 ≤ num.text.length then none
  else
    some ⟨num, some num.text, fun _ ht _ hn hle =>
      Double.text_exact (Option.some.inj ht ▸ hn) hle⟩

theorem integer_integer_text (n : ℤ) : Decimal.integer (Json.Building.integer_text n) = some n := by
  rw [Json.Building.integer_text]
  split_ifs with h
  · rw [Decimal.integer_minus]
    congr 1
    omega
  · rw [Decimal.integer_numeral]
    congr 1
    omega

theorem int_natAbs (i : Int32) : i.toInt.natAbs ≤ 2 ^ 53 := by
  have := i.toInt_lt
  have := i.le_toInt
  omega

def double_of_int (i : Int32) : Double := .ofInt i.toInt (int_natAbs i)

def json_create_int64 (num : Int32) : Number where
  value := double_of_int num
  lexeme := some (Json.Building.integer_text num.toInt)
  exact text ht n hn _ := by
    cases ht
    rw [integer_integer_text] at hn
    cases hn
    exact Double.value_ofInt _ _

/-- A member whose key is there gets the new value. -/
def json_object_add_n (pairs : List (Bytes × JsonValue)) (key : Bytes) (val : JsonValue) :
    List (Bytes × JsonValue) :=
  match Json.list_find pairs key with
  | some i => pairs.modify i fun old => (old.1, val)
  | none => pairs ++ [(key, val)]

def json_array_add_checked (elements : List JsonValue) (val : JsonValue) :
    Option (List JsonValue) :=
  if elements.length = size_max then none else some (elements ++ [val])

section
variable {P : Type}

def ToonArray.item (array : ToonArray P) (i : ℕ) : Option P := (array.items.bind (·[i]?)).join

def ToonArray.entries (array : ToonArray P) : List (Option P) := (List.range array.len).map array.item

variable (vstr_utf8_valid : Bytes → Bool)

def toon_json_validate_text (text : Option Bytes) : Except Halt Bytes :=
  match text with
  | none => .error (.rc .eproto)
  | some text =>
    if text.length = size_max then .error (.rc .eproto)
    else if vstr_utf8_valid text then .ok text
    else .error (.rc .echarset)

variable [DecidableEq P] (node_at : P → ToonObject P)

def toon_json_mark_seen (seen : Finset P) (node : P) : Except Halt (Finset P) :=
  if node ∈ seen then .error (.rc .eproto) else .ok (insert node seen)

def toon_json_has_prior_key (current : P) (current_key : Bytes) : ℕ → Option P → Except Halt ℤ
  | 0, _ => .error .unfinished
  | _ + 1, none => .ok 0
  | rounds + 1, some prior =>
    if prior = current then .ok 0
    else
      match (node_at prior).key with
      | none => .ok (-1)
      | some key =>
        if cstring key = cstring current_key then .ok 1
        else toon_json_has_prior_key current current_key rounds (node_at prior).next

abbrev ToNode (P : Type) := Option P → Finset P → Except Halt (JsonValue × Finset P)

/-- The loop over the items of a list. -/
def to_elements (to_node : ToNode P) :
    List (Option P) → Finset P → List JsonValue → Except Halt (List JsonValue × Finset P)
  | [], seen, elements => .ok (elements, seen)
  | none :: _, _, _ => .error (.rc .eproto)
  | some item :: items, seen, elements =>
    if (node_at item).key.isSome ∨ (node_at item).next.isSome then .error (.rc .eproto)
    else do
      let (json_item, seen) ← to_node (some item) seen
      match json_array_add_checked elements json_item with
      | none => .error (.rc .enomem)
      | some elements => to_elements to_node items seen elements

/-- The loop over the children of an object. -/
def to_pairs (to_node : ToNode P) (rounds : ℕ) (head : Option P) :
    ℕ → Option P → Finset P → List (Bytes × JsonValue) →
      Except Halt (List (Bytes × JsonValue) × Finset P)
  | 0, _, _, _ => .error .unfinished
  | _ + 1, none, seen, pairs => .ok (pairs, seen)
  | left + 1, some child, seen, pairs =>
    match (node_at child).key with
    | none => .error (.rc .eproto)
    | some child_key => do
      let key ← toon_json_validate_text vstr_utf8_valid (some (cstring child_key))
      let duplicate ← toon_json_has_prior_key node_at child child_key rounds head
      if duplicate ≠ 0 then .error (.rc .eproto)
      else do
        let (json_child, seen) ← to_node (some child) seen
        to_pairs to_node rounds head left (node_at child).next seen
          (json_object_add_n pairs key json_child)

/-- The depth is checked first, which bounds the levels of the recursion. -/
def toon_json_to_node (rounds : ℕ) : ℕ → ℕ → ToNode P
  | 0, _, _, _ => .error .unfinished
  | _ + 1, _, none, _ => .error (.rc .eproto)
  | levels + 1, depth, some node, seen =>
    if max_depth < depth then .error (.rc .erange)
    else do
      let seen ← toon_json_mark_seen seen node
      match (node_at node).payload with
      | .null => .ok (.null, seen)
      | .bool boolean => .ok (.bool (boolean ≠ 0), seen)
      | .int i => .ok (.number (json_create_int64 i), seen)
      | .double d =>
        if d.isfinite = false then .error (.rc .erange)
        else
          match json_create_number d with
          | none => .error (.rc .enomem)
          | some num => .ok (.number num, seen)
      | .string ptr => do
        let str ← toon_json_validate_text vstr_utf8_valid ptr
        .ok (.string str, seen)
      | .list array =>
        if 0 < array.len ∧ array.items = none then .error (.rc .eproto)
        else do
          let (elements, seen) ←
            to_elements node_at (toon_json_to_node rounds levels (depth + 1)) array.entries seen []
          .ok (.array elements, seen)
      | .obj => do
        let (pairs, seen) ←
          to_pairs vstr_utf8_valid node_at (toon_json_to_node rounds levels (depth + 1)) rounds
            (node_at node).child rounds (node_at node).child seen []
        .ok (.object pairs, seen)
      | .lobj => .error (.rc .enotsup)

/-- Each loop has the same number of rounds. -/
def toon_json_to_value (rounds : ℕ) (root : Option P) : Except Halt JsonValue :=
  match root with
  | none => .error (.rc .einval)
  | some node =>
    if (node_at node).key.isSome ∨ (node_at node).next.isSome then .error (.rc .eproto)
    else do
      let (value, _) ←
        toon_json_to_node vstr_utf8_valid node_at rounds (max_depth + 2) 0 (some node) ∅
      .ok value

end

structure Arena where
  used : ℕ
  node_at : ℕ → ToonObject ℕ

def Arena.empty : Arena := ⟨0, fun _ => ⟨.null, none, none, none⟩⟩

def Arena.write (arena : Arena) (node : ℕ) (update : ToonObject ℕ → ToonObject ℕ) : Arena :=
  { arena with node_at := Function.update arena.node_at node (update (arena.node_at node)) }

def TOONc_newObjectArena (arena : Arena) (payload : Payload ℕ) : Arena × ℕ :=
  (⟨arena.used + 1,
    Function.update arena.node_at arena.used ⟨payload, none, none, none⟩⟩, arena.used)

def TOONc_listReserveArena (array : ToonArray ℕ) (capacity : ℕ) : ToonArray ℕ :=
  if capacity ≤ array.capacity then array
  else if capacity > size_max / 8 then array
  else { array with items := some (array.items.getD []), capacity := capacity }

def TOONc_listPushArena (array : ToonArray ℕ) (item : ℕ) : ToonArray ℕ :=
  let push := fun array : ToonArray ℕ =>
    { array with
      items := array.items.map fun items => items.take array.len ++ [some item]
      len := array.len + 1 }
  if array.capacity ≤ array.len then
    if array.capacity > size_max / 2 then array
    else
      let array :=
        TOONc_listReserveArena array (if array.capacity = 0 then 4 else array.capacity * 2)
      if array.capacity ≤ array.len then array else push array
  else push array

def TOONc_newListObjArena (arena : Arena) (initial_capacity : ℕ) : Option (Arena × ℕ) :=
  let array :=
    if 0 < initial_capacity then TOONc_listReserveArena ⟨none, 0, 0⟩ initial_capacity
    else ⟨none, 0, 0⟩
  if array.capacity < initial_capacity then none
  else some (TOONc_newObjectArena arena (.list array))

def exact_integer_text : Bytes := [57, 48, 48, 55, 49, 57, 57, 50, 53, 52, 55, 52, 48, 57, 57, 50]

def memcmp_above : Bytes → Bytes → Bool
  | a :: as, b :: bs => if a = b then memcmp_above as bs else b < a
  | _, _ => false

def toon_json_integer_token_exceeds_exact_double (num : Number) : Bool :=
  match num.lexeme with
  | none => false
  | some [] => false
  | some (ch :: rest) =>
    let text := if ch = 45 then rest else ch :: rest
    if text.any (fun ch => ch = 46 || ch = 101 || ch = 69) then false
    else
      let digits := text.dropWhile (· == 48)
      if digits.length < exact_integer_text.length then false
      else if exact_integer_text.length < digits.length then true
      else memcmp_above digits exact_integer_text

def int_min : Int32 := Int32.minValue

def int_max : Int32 := Int32.maxValue

def number_payload (number : Double) : Payload ℕ :=
  if !(number.eq (double_of_int 0) && number.signbit) && (double_of_int int_min).le number &&
      number.le (double_of_int int_max) &&
      (double_of_int (Int32.ofInt number.trunc)).eq number then
    .int (Int32.ofInt number.trunc)
  else .double number

def list_of (node : ToonObject ℕ) : ToonArray ℕ :=
  match node.payload with
  | .list array => array
  | _ => ⟨none, 0, 0⟩

def link_child (arena : Arena) (node : ℕ) (last : Option ℕ) (child : ℕ) : Arena :=
  match last with
  | some last => arena.write last fun old => { old with next := some child }
  | none => arena.write node fun old => { old with child := some child }

section
variable (vstr_utf8_valid : Bytes → Bool)

mutual

def toon_json_from_node (arena : Arena) (depth : ℕ) : JsonValue → Except Halt (Arena × ℕ)
  | .null =>
    if max_depth < depth then .error (.rc .erange) else .ok (TOONc_newObjectArena arena .null)
  | .bool val =>
    if max_depth < depth then .error (.rc .erange)
    else .ok (TOONc_newObjectArena arena (.bool (if val then 1 else 0)))
  | .number num =>
    if max_depth < depth then .error (.rc .erange)
    else if num.value.isfinite = false ∨ toon_json_integer_token_exceeds_exact_double num then
      .error (.rc .erange)
    else .ok (TOONc_newObjectArena arena (number_payload num.value))
  | .string str =>
    if max_depth < depth then .error (.rc .erange)
    else do
      let str ← toon_json_validate_text vstr_utf8_valid (some str)
      .ok (TOONc_newObjectArena arena (.string (some str)))
  | .array elements =>
    if max_depth < depth then .error (.rc .erange)
    else if elements.length > size_max / 8 then .error (.rc .erange)
    else
      match TOONc_newListObjArena arena elements.length with
      | none => .error (.rc .enomem)
      | some (arena, node) => do
        let arena ← from_elements arena (depth + 1) node elements
        .ok (arena, node)
  | .object pairs =>
    if max_depth < depth then .error (.rc .erange)
    else do
      let (arena, node) := TOONc_newObjectArena arena .obj
      let arena ← from_pairs arena (depth + 1) node none pairs
      .ok (arena, node)

def from_elements (arena : Arena) (depth node : ℕ) : List JsonValue → Except Halt Arena
  | [] => .ok arena
  | element :: elements => do
    let (after, item) ← toon_json_from_node arena depth element
    let array := TOONc_listPushArena (list_of (after.node_at node)) item
    if array.len ≠ (list_of (arena.node_at node)).len + 1 then .error (.rc .enomem)
    else
      from_elements (after.write node fun old => { old with payload := .list array }) depth node
        elements

/-- The loop over the members of an object. -/
def from_pairs (arena : Arena) (depth node : ℕ) (last : Option ℕ) :
    List (Bytes × JsonValue) → Except Halt Arena
  | [] => .ok arena
  | (key, value) :: pairs =>
    if key.length = size_max then .error (.rc .eproto)
    else do
      let key ← toon_json_validate_text vstr_utf8_valid (some key)
      if 0 ∈ key then .error (.rc .enotsup)
      else do
        let (arena, child) ← toon_json_from_node arena depth value
        let arena := arena.write child fun old => { old with key := some key }
        from_pairs (link_child arena node last child) depth node (some child) pairs

end

def toon_json_from_value (value : JsonValue) : Except Halt (Arena × ℕ) :=
  toon_json_from_node vstr_utf8_valid .empty 0 value

end

end SaltsUtils.Toon.Adapter
