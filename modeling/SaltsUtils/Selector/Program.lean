import SaltsUtils.Selector.Grammar
import SaltsUtils.Selector.Literals
import Mathlib.Data.List.Sort

/-!
# Selector programs

The actions of the grammar write nodes, list slices and string references into the tables
of the parse context, in the order in which a bottom-up parser reduces. A program is what
the context holds at the end.
-/

set_option autoImplicit false

namespace SaltsUtils.Selector

open SaltsUtils

def string_pool_bytes : ℕ := max_source_bytes + 1

/-- `%stack_size 256` leaves room for 255 symbols above the start state. -/
def parser_stack : ℕ := 255

structure StringRef where
  offset : ℕ
  length : ℕ
  deriving DecidableEq, Inhabited

inductive NodeKind where
  | and
  | or
  | not
  | eq
  | ne
  | in_
  | not_in
  | has
  | capability
  deriving DecidableEq

structure Node where
  kind : NodeKind
  depth : ℕ
  left : ℕ := 65535
  right : ℕ := 65535
  field : StringRef := ⟨0, 0⟩
  value : StringRef := ⟨0, 0⟩
  list_start : ℕ := 0
  list_count : ℕ := 0
  deriving DecidableEq

structure Ctx where
  nodes : List Node
  list_values : List StringRef
  strings : Bytes
  predicate_count : ℕ
  deriving DecidableEq

structure Program extends Ctx where
  root : ℕ
  deriving DecidableEq

def Ctx.empty : Ctx := ⟨[], [], [], 0⟩

structure ListSlice where
  list_start : ℕ
  list_count : ℕ

variable (ctx : Ctx)

def selector_add_node (node : Node) : Option (ℕ × Ctx) :=
  if max_nodes ≤ ctx.nodes.length then none
  else some (ctx.nodes.length % 2 ^ 16, { ctx with nodes := ctx.nodes ++ [node] })

def selector_pool_append (value : Bytes) : Option (StringRef × Ctx) :=
  if max_string_bytes < value.length then none
  else if string_pool_bytes - ctx.strings.length < value.length then none
  else some (⟨ctx.strings.length % 2 ^ 16, value.length % 2 ^ 16⟩,
    { ctx with strings := ctx.strings ++ value })

variable (schema : Schema)

def field_allowed (field : Bytes) : Bool :=
  (schema.allow_tag_fields && decide (4 < field.length) && field.take 4 == text "tag." &&
      !(field.drop 4).contains 46) ||
    schema.allowed_fields.contains field

def selector_store_field (ctx : Ctx) (field : Bytes) : Option (StringRef × Ctx) :=
  if field.length = 0 then none
  else if field_allowed schema field then selector_pool_append ctx field
  else none

def selector_store_string (value : Bytes) : Option (StringRef × Ctx) :=
  (decoded_string value).bind fun decoded => selector_pool_append ctx decoded

def Ctx.depth_of (index : ℕ) : ℕ := (ctx.nodes[index]?.map Node.depth).getD 0

def selector_make_binary (kind : NodeKind) (left right : ℕ) : Option (ℕ × Ctx) :=
  let depth := (1 + max (ctx.depth_of left) (ctx.depth_of right)) % 2 ^ 8
  if max_depth < depth then none
  else selector_add_node ctx { kind := kind, depth := depth, left := left, right := right }

def selector_make_not (child : ℕ) : Option (ℕ × Ctx) :=
  let depth := (ctx.depth_of child + 1) % 2 ^ 8
  if max_depth < depth then none
  else selector_add_node ctx { kind := .not, depth := depth, left := child }

def selector_make_compare (ctx : Ctx) (kind : NodeKind) (field value : Bytes) :
    Option (ℕ × Ctx) := do
  let (field, ctx) ← selector_store_field schema ctx field
  let (value, ctx) ← selector_store_string ctx value
  let node : Node := { kind := kind, depth := 1, field := field, value := value }
  selector_add_node { ctx with predicate_count := ctx.predicate_count + 1 } node

def memcmp : Bytes → Bytes → Ordering
  | a :: left, b :: right => if a = b then memcmp left right else compare a b
  | _, _ => .eq

def string_of (strings : Bytes) (ref : StringRef) : Bytes :=
  (strings.drop ref.offset).take ref.length

def selector_ref_compare (strings : Bytes) (left right : StringRef) : Ordering :=
  let common := min left.length right.length
  match memcmp ((strings.drop left.offset).take common)
      ((strings.drop right.offset).take common) with
  | .eq =>
    if left.length < right.length then .lt
    else if left.length ≠ right.length then .gt
    else .eq
  | compared => compared

def sort_list (strings : Bytes) (slice : List StringRef) : List StringRef :=
  (slice.foldl (fun before value =>
    before.orderedInsert (fun a b => selector_ref_compare strings b a ≠ .gt) value) []).reverse

/-- Two neighbours with the same bytes. -/
def has_duplicate (strings : Bytes) : List StringRef → Bool
  | a :: b :: rest => selector_ref_compare strings a b == .eq || has_duplicate strings (b :: rest)
  | _ => false

def selector_sort_unique_list (list : ListSlice) : Option Ctx :=
  let slice := sort_list ctx.strings
    ((ctx.list_values.drop list.list_start).take list.list_count)
  if has_duplicate ctx.strings slice then none
  else some { ctx with
    list_values := ctx.list_values.take list.list_start ++ slice ++
      ctx.list_values.drop (list.list_start + list.list_count) }

def selector_make_membership (kind : NodeKind) (field : Bytes) (state : ListSlice × Ctx) :
    Option (ℕ × Ctx) := do
  let (list, ctx) := state
  let (field, ctx) ← selector_store_field schema ctx field
  let ctx ← selector_sort_unique_list ctx list
  let node : Node :=
    { kind := kind, depth := 1, field := field, list_start := list.list_start,
      list_count := list.list_count }
  selector_add_node { ctx with predicate_count := ctx.predicate_count + 1 } node

def selector_make_has (ctx : Ctx) (field : Bytes) : Option (ℕ × Ctx) := do
  let (field, ctx) ← selector_store_field schema ctx field
  let node : Node := { kind := .has, depth := 1, field := field }
  selector_add_node { ctx with predicate_count := ctx.predicate_count + 1 } node

def selector_make_capability (value : Bytes) : Option (ℕ × Ctx) := do
  let (value, ctx) ← selector_store_string ctx value
  let node : Node := { kind := .capability, depth := 1, value := value }
  if value.length = 0 then none
  else selector_add_node { ctx with predicate_count := ctx.predicate_count + 1 } node

def selector_list_add_value (value : Bytes) : Option (StringRef × Ctx) :=
  if max_list_items ≤ ctx.list_values.length then none
  else selector_store_string ctx value

def selector_list_first (value : Bytes) : Option (ListSlice × Ctx) := do
  let start := ctx.list_values.length % 2 ^ 16
  let (ref, ctx) ← selector_list_add_value ctx value
  return (⟨start, 1⟩, { ctx with list_values := ctx.list_values ++ [ref] })

def selector_list_append (state : ListSlice × Ctx) (value : Bytes) : Option (ListSlice × Ctx) :=
  let (list, ctx) := state
  if list.list_count = 0 ∨ list.list_start + list.list_count ≠ ctx.list_values.length then
    some (⟨0, 0⟩, ctx)
  else do
    let (ref, ctx) ← selector_list_add_value ctx value
    return (⟨list.list_start, list.list_count + 1⟩,
      { ctx with list_values := ctx.list_values ++ [ref] })

def list_items (first : Bytes) (rest : List Bytes) : Option (ListSlice × Ctx) := do
  let state ← selector_list_first ctx first
  rest.foldlM selector_list_append state

def Leaf.build (ctx : Ctx) : Leaf → Option (ℕ × Ctx)
  | eq field value => selector_make_compare schema ctx .eq field value
  | ne field value => selector_make_compare schema ctx .ne field value
  | in_ field first rest =>
    (list_items ctx first rest).bind (selector_make_membership schema .in_ field)
  | not_in field first rest =>
    (list_items ctx first rest).bind (selector_make_membership schema .not_in field)
  | has field => selector_make_has schema ctx field
  | capability value => selector_make_capability ctx value

def Tree.build {c : Category} (schema : Schema) : Tree c → Ctx → Option (ℕ × Ctx)
  | or b c, ctx => do
    let (left, ctx) ← b.build schema ctx
    let (right, ctx) ← c.build schema ctx
    selector_make_binary ctx .or left right
  | or_and b, ctx => b.build schema ctx
  | and b c, ctx => do
    let (left, ctx) ← b.build schema ctx
    let (right, ctx) ← c.build schema ctx
    selector_make_binary ctx .and left right
  | and_unary b, ctx => b.build schema ctx
  | bang b, ctx => do
    let (child, ctx) ← b.build schema ctx
    selector_make_not ctx child
  | paren b, ctx => b.build schema ctx
  | predicate p, ctx => p.build schema ctx

/-- The program of a source, when the status is OK. -/
def salts_selector_compile_v1 (source : Bytes) (schema : Schema) : Option Program :=
  if source.length = 0 ∨ selector_schema_valid schema = false then none
  else if max_source_bytes < source.length then none
  else if selector_utf8_validate source = false then none
  else do
    let tokens ← selector_tokens source
    if max_tokens < tokens.length then none
    else do
      let tree ← selector_parse tokens
      if parser_stack < tree.stack then none
      else do
        let (root, ctx) ← tree.build schema .empty
        if ctx.nodes.length ≤ root then none
        else some { ctx with root := root }

end SaltsUtils.Selector
