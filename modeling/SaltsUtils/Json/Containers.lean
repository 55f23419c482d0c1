import SaltsUtils.Library.Probing
import SaltsUtils.Json.Lexer

/-!
# JSON containers and their indexes

An array is a linked list of elements with an optional table of positions, an object a
linked list of pairs with an optional index of its members and a hash table of its keys.
-/

set_option autoImplicit false

namespace SaltsUtils.Json

def size_max : ℕ := 2 ^ 64 - 1

structure Alloc where
  node : Bool
  key : Bool
  array_index : Bool
  index : Bool
  members : Bool
  lookup : Bool

def Alloc.all : Alloc := ⟨true, true, true, true, true, true⟩

structure ArrayVal (V : Type*) where
  elements : List V
  index : Option (List (Option V))
  index_capacity : ℕ
  count : ℕ

def array_index_threshold : ℕ := 8

section
variable {V : Type*}

def ArrayVal.empty : ArrayVal V := ⟨[], none, 0, 0⟩

def grow_capacity : ℕ → ℕ → ℕ → ℕ
  | 0, capacity, _ => capacity
  | rounds + 1, capacity, needed =>
    if capacity < needed then
      if capacity > size_max / 2 then needed else grow_capacity rounds (capacity * 2) needed
    else capacity

def reserve_capacity (arr : ArrayVal V) (needed : ℕ) : ℕ :=
  grow_capacity needed (if arr.index_capacity = 0 then 8 else arr.index_capacity) needed

def index_cells (arr : ArrayVal V) : List (Option V) :=
  match arr.index with
  | some index => if 0 < arr.count then index.take arr.count else arr.elements.map some
  | none => arr.elements.map some

def with_capacity {α : Type*} (cells : List (Option α)) (capacity : ℕ) : List (Option α) :=
  cells ++ List.replicate (capacity - cells.length) none

def json_array_index_reserve (alloc : Alloc) (arr : ArrayVal V) (needed : ℕ) :
    Option (ArrayVal V) :=
  if needed ≤ arr.index_capacity then some arr
  else if reserve_capacity arr needed > size_max / 8 then none
  else if !alloc.array_index then none
  else
    some { arr with
      index := some (with_capacity (index_cells arr) (reserve_capacity arr needed))
      index_capacity := reserve_capacity arr needed }

/-- The array that an append has room in; its index is dropped when it cannot grow. -/
def reserved (alloc : Alloc) (arr : ArrayVal V) : ArrayVal V :=
  if arr.index.isSome ∨ array_index_threshold ≤ arr.count + 1 then
    match json_array_index_reserve alloc arr (arr.count + 1) with
    | some arr => arr
    | none => { arr with index := none, index_capacity := 0 }
  else arr

def json_array_append_arena (alloc : Alloc) (arr : ArrayVal V) (val : V) : ArrayVal V × Bool :=
  if arr.count = size_max then (arr, false)
  else
    let arr := reserved alloc arr
    if !alloc.node then (arr, false)
    else
      ({ arr with
        elements := arr.elements ++ [val]
        index := arr.index.map (fun index => index.set arr.count (some val))
        count := arr.count + 1 }, true)

def json_array_size (arr : ArrayVal V) : ℕ := arr.count

def json_array_get (arr : ArrayVal V) (i : ℕ) : Option V :=
  if arr.count ≤ i then none
  else
    match arr.index with
    | some index => index[i]?.join
    | none => arr.elements[i]?

end

structure ObjectIndex where
  members : List (Option ℕ)
  members_capacity : ℕ
  lookup : Probing.Slots Bytes ℕ
  lookup_capacity : ℕ
  lookup_count : ℕ

structure ObjectVal (V : Type*) where
  pairs : List (Bytes × V)
  index : Option ObjectIndex
  count : ℕ

def object_index_threshold : ℕ := 16

def object_index_min_capacity : ℕ := 16

def json_object_key_hash (key : Bytes) : ℕ :=
  let hash := key.foldl (fun hash byte => (hash ^^^ byte) * 1099511628211 % 2 ^ 64)
    1469598103934665603
  if hash = 0 then 1 else hash

def capacity_from : ℕ → ℕ → ℕ → Option ℕ
  | 0, _, _ => none
  | rounds + 1, value, wanted =>
    if value < wanted then
      if value > size_max / 2 then none else capacity_from rounds (value * 2) wanted
    else some value

def json_object_index_capacity_for (count : ℕ) : Option ℕ :=
  if count > (size_max - 1) / 10 then none
  else capacity_from 65 object_index_min_capacity (count * 10 / 7 + 1)

def slot_position (capacity hash i : ℕ) : ℕ := ((hash + i) % 2 ^ 64) &&& (capacity - 1)

def json_object_index_find_hashed (slots : Probing.Slots Bytes ℕ) (capacity : ℕ) (key : Bytes)
    (hash : ℕ) : Option ℕ :=
  if capacity = 0 ∨ hash = 0 then none
  else Probing.find (fun _ => slot_position capacity hash) slots key capacity 0

def json_object_index_find (slots : Probing.Slots Bytes ℕ) (capacity : ℕ) (key : Bytes) :
    Option ℕ :=
  json_object_index_find_hashed slots capacity key (json_object_key_hash key)

def json_object_index_insert (slots : Probing.Slots Bytes ℕ) (capacity : ℕ) (key : Bytes)
    (pair entry_count : ℕ) : Option (Probing.Slots Bytes ℕ × ℕ) :=
  if capacity = 0 then none
  else
    (Probing.insert (fun key => slot_position capacity (json_object_key_hash key)) slots key pair
      capacity 0).map fun result => (result.1, if result.2 then entry_count + 1 else entry_count)

def insert_members (capacity : ℕ) : List (Bytes × ℕ) → Probing.Slots Bytes ℕ × ℕ →
    Option (Probing.Slots Bytes ℕ × ℕ)
  | [], table => some table
  | (key, pair) :: rest, (slots, entries) =>
    match json_object_index_insert slots capacity key pair entries with
    | none => none
    | some table => insert_members capacity rest table

def empty_slots (capacity : ℕ) : Probing.Slots Bytes ℕ := List.replicate capacity none

section
variable {V : Type*}

def ObjectVal.empty : ObjectVal V := ⟨[], none, 0⟩

def member_key (pairs : List (Bytes × V)) : Option ℕ → Option (Bytes × ℕ)
  | none => none
  | some p => pairs[p]?.map (fun pair => (pair.1, p))

def json_object_index_rehash (alloc : Alloc) (obj : ObjectVal V) (index : ObjectIndex)
    (capacity : ℕ) : Option ObjectIndex :=
  if capacity = 0 ∨ capacity > size_max / 24 then none
  else if !alloc.lookup then none
  else do
    let keys ← (index.members.take obj.count).mapM (member_key obj.pairs)
    let (slots, entries) ← insert_members capacity keys (empty_slots capacity, 0)
    return { index with lookup := slots, lookup_capacity := capacity, lookup_count := entries }

/-- The members of a list with their positions from `i` on. -/
def keyed (i : ℕ) : List (Bytes × V) → List (Bytes × ℕ)
  | [] => []
  | pair :: pairs => (pair.1, i) :: keyed (i + 1) pairs

def new_index (alloc : Alloc) (obj : ObjectVal V) : Option ObjectIndex := do
  let capacity ← json_object_index_capacity_for obj.count
  if obj.count > size_max / 8 ∨ capacity > size_max / 24 then none
  else if !(alloc.index && alloc.members && alloc.lookup) then none
  else if obj.pairs.length ≠ obj.count then none
  else do
    let (slots, entries) ← insert_members capacity (keyed 0 obj.pairs) (empty_slots capacity, 0)
    return ⟨(List.range obj.count).map some, obj.count, slots, capacity, entries⟩

def json_object_build_index (alloc : Alloc) (obj : ObjectVal V) : ObjectVal V × Bool :=
  if obj.count < object_index_threshold then (obj, true)
  else if obj.index.isSome then (obj, true)
  else
    match new_index alloc obj with
    | some index => ({ obj with index := some index }, true)
    | none => (obj, false)

def grow_members (alloc : Alloc) (count : ℕ) (index : ObjectIndex) : Option ObjectIndex :=
  if count ≤ index.members_capacity then some index
  else if index.members_capacity > size_max / 2 then none
  else
    let capacity :=
      if index.members_capacity = 0 then object_index_threshold else index.members_capacity * 2
    if capacity < count ∨ capacity > size_max / 8 then none
    else if !alloc.members then none
    else
      some { index with
        members := with_capacity (index.members.take (count - 1)) capacity
        members_capacity := capacity }

def append_to_index (alloc : Alloc) (obj : ObjectVal V) (index : ObjectIndex) (key : Bytes) :
    Option ObjectIndex := do
  let pair := obj.count - 1
  let index ← grow_members alloc obj.count index
  let index := { index with members := index.members.set pair (some pair) }
  if index.lookup_count = size_max ∨
      index.lookup_count + 1 > index.lookup_capacity - index.lookup_capacity / 4 then
    if index.lookup_capacity > size_max / 2 then none
    else json_object_index_rehash alloc obj index (index.lookup_capacity * 2)
  else do
    let (slots, entries) ←
      json_object_index_insert index.lookup index.lookup_capacity key pair index.lookup_count
    return { index with lookup := slots, lookup_count := entries }

def json_object_index_append (alloc : Alloc) (obj : ObjectVal V) (key : Bytes) : ObjectVal V :=
  match obj.index with
  | none => (json_object_build_index alloc obj).1
  | some index => { obj with index := append_to_index alloc obj index key }

def list_find (pairs : List (Bytes × V)) (key : Bytes) : Option ℕ :=
  pairs.findIdx? (fun pair => pair.1 == key)

variable (obj : ObjectVal V)

def existing_pair (key : Bytes) : Option ℕ :=
  match obj.index with
  | some index =>
    (json_object_index_find index.lookup index.lookup_capacity key).or (list_find obj.pairs key)
  | none => list_find obj.pairs key

def json_object_set_arena_ex (alloc : Alloc) (obj : ObjectVal V) (key : Bytes) (val : V) :
    ObjectVal V × Bool :=
  match existing_pair obj key with
  | some pair => ({ obj with pairs := obj.pairs.modify pair (fun old => (old.1, val)) }, true)
  | none =>
    if !alloc.node then (obj, false)
    else
      let obj := { obj with pairs := obj.pairs ++ [(key, val)], count := obj.count + 1 }
      if object_index_threshold ≤ obj.count then (json_object_index_append alloc obj key, true)
      else (obj, true)

def json_object_set_arena (alloc : Alloc) (obj : ObjectVal V) (key : Bytes) (val : V) :
    ObjectVal V × Bool :=
  if !alloc.key then (obj, false) else json_object_set_arena_ex alloc obj key val

def json_object_size : ℕ := obj.count

def pair_value (pair : ℕ) : Option V := obj.pairs[pair]?.map Prod.snd

def json_object_get_hashed_v (key : Bytes) (key_hash : ℕ) : Option V :=
  match obj.index with
  | some index =>
    (json_object_index_find_hashed index.lookup index.lookup_capacity key key_hash).bind
      (pair_value obj)
  | none => (list_find obj.pairs key).bind (pair_value obj)

def json_object_get_v (key : Bytes) : Option V :=
  match obj.index with
  | some _ => json_object_get_hashed_v obj key (json_object_key_hash key)
  | none => (list_find obj.pairs key).bind (pair_value obj)

def json_pair (key : Bytes) (val : V) : ObjectVal V :=
  (json_object_set_arena_ex .all .empty key val).1

def json_members (M P : ObjectVal V) : ObjectVal V :=
  { M with pairs := M.pairs ++ P.pairs, count := M.count + 1 }

def parsed_object (alloc : Alloc) : List (Bytes × V) → ObjectVal V
  | [] => .empty
  | first :: rest =>
    (json_object_build_index alloc (rest.foldl (fun M pair => json_members M (json_pair pair.1 pair.2))
      (json_pair first.1 first.2))).1

def parsed_array (vals : List (V × Alloc)) : ArrayVal V :=
  vals.foldl (fun arr val => (json_array_append_arena val.2 arr val.1).1) .empty

/-- A value is refused when its arena cannot be taken over. -/
def json_object_add_n (alloc : Alloc) (adopts : Bool) (obj : ObjectVal V) (key : Bytes) (val : V) :
    ObjectVal V × Bool :=
  if !adopts then (obj, false)
  else if !alloc.key then (obj, false)
  else json_object_set_arena_ex alloc obj key val

def json_array_add_checked (alloc : Alloc) (adopts : Bool) (arr : ArrayVal V) (val : V) :
    ArrayVal V × Bool :=
  if !adopts then (arr, false) else json_array_append_arena alloc arr val

end

inductive Container (V : Type*) where
  | array (arr : ArrayVal V)
  | object (obj : ObjectVal V)

inductive Op (V : Type*) where
  | parse_array (vals : List (V × Alloc))
  | parse_object (pairs : List (Bytes × V)) (alloc : Alloc)
  | create_array
  | create_object
  | array_add (target : ℕ) (val : V) (adopts : Bool) (alloc : Alloc)
  | object_add (target : ℕ) (key : Bytes) (val : V) (adopts : Bool) (alloc : Alloc)
  | object_set (target : ℕ) (key : Bytes) (val : V) (alloc : Alloc)

section
variable {V : Type*}

def Container.on (array : ArrayVal V → ArrayVal V) (object : ObjectVal V → ObjectVal V) :
    Container V → Container V
  | .array arr => .array (array arr)
  | .object obj => .object (object obj)

def op_step (tree : List (Container V)) : Op V → List (Container V)
  | .parse_array vals => tree ++ [.array (parsed_array vals)]
  | .parse_object pairs alloc => tree ++ [.object (parsed_object alloc pairs)]
  | .create_array => tree ++ [.array .empty]
  | .create_object => tree ++ [.object .empty]
  | .array_add target val adopts alloc =>
    tree.modify target (.on (fun arr => (json_array_add_checked alloc adopts arr val).1) id)
  | .object_add target key val adopts alloc =>
    tree.modify target (.on id (fun obj => (json_object_add_n alloc adopts obj key val).1))
  | .object_set target key val alloc =>
    tree.modify target (.on id (fun obj => (json_object_set_arena alloc obj key val).1))

/-- The containers after a sequence of calls. -/
def op_run (ops : List (Op V)) : List (Container V) := ops.foldl op_step []

end

end SaltsUtils.Json
