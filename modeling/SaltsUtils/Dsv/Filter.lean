import Mathlib.Algebra.Ring.Nat
import Mathlib.Data.List.Lex
import Mathlib.Logic.Function.Iterate
import SaltsUtils.Csv.Document
import SaltsUtils.Library.Interval

/-!
# The sidecar index and row filters
-/

set_option autoImplicit false

/-!
## The sidecar index of a CSV file

`src/parser/csv_parser/src/dsv_index.c`: the order of the entries, the ranges of
`dsv_index_seek_many` and the cursor over them. A `double` is a NaN or a value of a linear
order, and compares as in C.
-/

namespace SaltsUtils.Dsv

open SaltsUtils.Csv (Bytes)

inductive Double (α : Type)
  | nan
  | num (x : α)
deriving DecidableEq

namespace Double
variable {α : Type} [LinearOrder α]

def lt : Double α → Double α → Bool
  | .num x, .num y => x < y
  | _, _ => false

/-- The C operator `==`. -/
def same : Double α → Double α → Bool
  | .num x, .num y => x = y
  | _, _ => false

@[simp]
theorem lt_num (x y : α) : (num x).lt (num y) = decide (x < y) := rfl

@[simp]
theorem same_num (x y : α) : (num x).same (num y) = decide (x = y) := rfl

end Double

def memcmp : Bytes → Bytes → Ordering
  | a::as, b::bs => if a < b then .lt else if b < a then .gt else memcmp as bs
  | _, _ => .eq

/-- The order of texts, as every comparison of the index has it: the shared bytes first, and then
the lengths. -/
def compareText (left right : Bytes) : Ordering :=
  (memcmp left right).then
    (if left.length = right.length then .eq else if left.length < right.length then .lt else .gt)

def DSV_INDEX_MAX_TEXT_KEY : ℕ := 64
def DSV_INDEX_MAX_QUERY_RANGES : ℕ := 32

structure DsvEntry (α : Type) where
  text_key : Bytes
  number_key : Double α
  row_offset : ℕ
  row_length : ℕ
  has_cover : Bool := false
  covering_int64 : ℤ := 0
deriving DecidableEq

structure DsvIndex (α : Type) where
  text_column : ℕ
  number_column : ℕ
  source_length : ℕ
  entries : List (DsvEntry α)
deriving DecidableEq

structure DsvQuery (α : Type) where
  text_equals : Option Bytes
  has_lower_number : Bool
  lower_inclusive : Bool
  lower_number : Double α
  has_upper_number : Bool
  upper_inclusive : Bool
  upper_number : Double α
deriving DecidableEq

structure DsvRow where
  row_offset : ℕ
  row_length : ℕ
  has_covering_int64 : Bool
  covering_int64 : ℤ
deriving DecidableEq

def DsvEntry.row {α : Type} (entry : DsvEntry α) : DsvRow :=
  ⟨entry.row_offset, entry.row_length, entry.has_cover, entry.covering_int64⟩

structure DsvRange (α : Type) where
  position : ℕ := 0
  text : Bytes
  has_lower : Bool
  lower_inclusive : Bool
  lower_number : Double α
  has_upper : Bool
  upper_inclusive : Bool
  upper_number : Double α
  finished : Bool := false
deriving DecidableEq

structure DsvCursor (α : Type) where
  range_index : ℕ := 0
  ranges : List (DsvRange α) := []
deriving DecidableEq

section Index
variable {α : Type} [LinearOrder α]

def dsv_index_entry_compare (left right : DsvEntry α) : Ordering :=
  (compareText left.text_key right.text_key).then
    (if left.number_key.same right.number_key then
      if left.row_offset = right.row_offset then .eq
      else if left.row_offset < right.row_offset then .lt else .gt
    else if left.number_key.lt right.number_key then .lt else .gt)

def dsv_index_validate_entries (source_length : ℕ) :
    Option (DsvEntry α) → List (DsvEntry α) → Except String Unit
  | _, [] => .ok ()
  | previous, entry::rest =>
    if entry.text_key.length > DSV_INDEX_MAX_TEXT_KEY ∨ entry.row_offset > source_length ∨
        entry.row_length > source_length - entry.row_offset then
      .error "DSV index contains invalid entry bounds"
    else if ∃ p ∈ previous, dsv_index_entry_compare p entry = .gt then
      .error "DSV index entries are not sorted"
    else dsv_index_validate_entries source_length (some entry) rest

def dsv_index_range_compare (left right : DsvRange α) : Ordering :=
  (compareText left.text right.text).then
    (if left.has_lower ≠ right.has_lower then if left.has_lower then .gt else .lt
    else if left.has_lower ∧ !left.lower_number.same right.lower_number then
      if left.lower_number.lt right.lower_number then .lt else .gt
    else if left.lower_inclusive ≠ right.lower_inclusive then
      if left.lower_inclusive then .lt else .gt
    else .eq)

def dsv_index_ranges_overlap (left right : DsvRange α) : Bool :=
  if left.text ≠ right.text then false
  else if !left.has_upper || !right.has_lower then true
  else if right.lower_number.lt left.upper_number then true
  else right.lower_number.same left.upper_number && (right.lower_inclusive || left.upper_inclusive)

def dsv_index_merge_range (left right : DsvRange α) : DsvRange α :=
  if !left.has_upper || (right.has_upper && right.upper_number.lt left.upper_number) then left
  else if !right.has_upper then { left with has_upper := false, upper_inclusive := false }
  else if left.upper_number.lt right.upper_number then
    { left with upper_number := right.upper_number, upper_inclusive := right.upper_inclusive }
  else if right.upper_number.same left.upper_number then
    { left with upper_inclusive := left.upper_inclusive || right.upper_inclusive }
  else left

def DsvRange.belowLower (range : DsvRange α) (entry : DsvEntry α) : Bool :=
  range.has_lower && (entry.number_key.lt range.lower_number ||
    (entry.number_key.same range.lower_number && !range.lower_inclusive))

def DsvRange.aboveUpper (range : DsvRange α) (entry : DsvEntry α) : Bool :=
  range.has_upper && (range.upper_number.lt entry.number_key ||
    (entry.number_key.same range.upper_number && !range.upper_inclusive))

def DsvRange.before (range : DsvRange α) (entry : DsvEntry α) : Bool :=
  match compareText entry.text_key range.text with
  | .lt => true
  | .eq => range.belowLower entry
  | .gt => false

def dsv_index_range_position (entries : List (DsvEntry α)) (range : DsvRange α) : DsvRange α :=
  { range with
    position := bisect (fun i => (entries[i]?).any range.before) entries.length 0 entries.length }

def DsvQuery.isEmpty (query : DsvQuery α) : Bool :=
  query.has_lower_number && query.has_upper_number &&
    (query.upper_number.lt query.lower_number ||
      (query.lower_number.same query.upper_number &&
        (!query.lower_inclusive || !query.upper_inclusive)))

def DsvQuery.range (query : DsvQuery α) (text : Bytes) : DsvRange α where
  text := text
  has_lower := query.has_lower_number
  lower_inclusive := query.lower_inclusive
  lower_number := query.lower_number
  has_upper := query.has_upper_number
  upper_inclusive := query.upper_inclusive
  upper_number := query.upper_number

def queryRanges : List (DsvQuery α) → Option (List (DsvRange α))
  | [] => some []
  | query::rest =>
    match query.text_equals with
    | none => none
    | some text =>
      if text.length > DSV_INDEX_MAX_TEXT_KEY then none
      else if query.isEmpty then queryRanges rest
      else (queryRanges rest).map (query.range text::·)

/-- The second loop. -/
def mergeRanges (last : DsvRange α) : List (DsvRange α) → List (DsvRange α)
  | [] => [last]
  | range::rest =>
    if dsv_index_ranges_overlap last range then
      mergeRanges (dsv_index_merge_range last range) rest
    else last::mergeRanges range rest

/-- The cursor, or nothing for a return value of -1. -/
def dsv_index_seek_many (qsort : List (DsvRange α) → List (DsvRange α)) (index : DsvIndex α)
    (queries : List (DsvQuery α)) : Option (DsvCursor α) :=
  if queries = [] ∨ queries.length > DSV_INDEX_MAX_QUERY_RANGES then none
  else (queryRanges queries).map fun ranges =>
    if ranges.isEmpty then {}
    else
      match qsort ranges with
      | [] => {}
      | first::rest =>
        { ranges := (mergeRanges first rest).map (dsv_index_range_position index.entries) }

def dsv_index_range_next (entries : List (DsvEntry α)) : ℕ → DsvRange α →
    Option (DsvEntry α) × DsvRange α
  | 0, range => (none, range)
  | fuel + 1, range =>
    if range.finished then (none, range)
    else
      match entries[range.position]? with
      | none => (none, range)
      | some entry =>
        let range := { range with position := range.position + 1 }
        if compareText entry.text_key range.text ≠ .eq then (none, { range with finished := true })
        else if range.belowLower entry then dsv_index_range_next entries fuel range
        else if range.aboveUpper entry then (none, { range with finished := true })
        else (some entry, range)

def cursorLoop (entries : List (DsvEntry α)) : ℕ → DsvCursor α → Option DsvRow × DsvCursor α
  | 0, cursor => (none, cursor)
  | fuel + 1, cursor =>
    match cursor.ranges[cursor.range_index]? with
    | none => (none, cursor)
    | some range =>
      let next := dsv_index_range_next entries (entries.length + 1) range
      let ranges := cursor.ranges.set cursor.range_index next.2
      match next.1 with
      | some entry => (some entry.row, { cursor with ranges := ranges })
      | none =>
        cursorLoop entries fuel { range_index := cursor.range_index + 1, ranges := ranges }

/-- A row for a return value of 1, nothing for 0. -/
def dsv_index_cursor_next (index : DsvIndex α) (cursor : DsvCursor α) :
    Option DsvRow × DsvCursor α :=
  cursorLoop index.entries (cursor.ranges.length - cursor.range_index) cursor

end Index

/-!
## Row filters

The clauses of `src/parser/csv_parser/src/dsv_filter.c` and their native evaluators.
-/

open SaltsUtils.Csv (Bytes CsvDoc nul)

/-- The arithmetic of `double`. -/
class Arithmetic (D : Type) where
  ofNat : ℕ → D
  neg : D → D
  add : D → D → D
  sub : D → D → D
  mul : D → D → D
  div : D → D → D

/-- The C operators `<` and `==` of `double`. -/
class Comparison (D : Type) where
  lt : D → D → Bool
  same : D → D → Bool

instance {α : Type} [LinearOrder α] : Comparison (Double α) := ⟨Double.lt, Double.same⟩

inductive DsvOp
  | eq | ne | gt | ge | lt | le
deriving DecidableEq

inductive DsvJoin
  | and | or
deriving DecidableEq

/-- `dsv_expr_item_t`, the items of a postfix expression. -/
inductive DsvExprItem (D : Type)
  | number (num : D)
  | ident (col_idx : ℕ)
  | add | sub | mul | div | neg
deriving DecidableEq

structure DsvClause (D : Type) where
  col_idx : ℕ
  lhs_is_simple_col : Bool
  lhs_has_arith : Bool
  lhs_expr : List (DsvExprItem D)
  op : DsvOp
  rhs_is_string : Bool
  rhs_num : D
  rhs_str : Bytes
deriving DecidableEq

/-- What `dsv_filter_compile_impl` makes sure of before it stores a clause: a left side is a
column or an expression, a text is compared with a column only, and every column exists. -/
structure DsvClause.Compiled {D : Type} (col_count : ℕ) (clause : DsvClause D) : Prop where
  arith : clause.lhs_has_arith = !clause.lhs_is_simple_col
  text : clause.rhs_is_string = true → clause.lhs_is_simple_col = true
  column : clause.lhs_is_simple_col = true → clause.col_idx < col_count
  items : ∀ col_idx, .ident col_idx ∈ clause.lhs_expr → col_idx < col_count

structure DsvFilter (D : Type) where
  col_count : ℕ
  clauses : List (DsvClause D)
  joins : List DsvJoin
  nonempty : clauses ≠ []
  joined : joins.length + 1 = clauses.length
  compiled : ∀ clause ∈ clauses, clause.Compiled col_count

section Views
variable {D : Type} [Arithmetic D]

/-- The digits at the start of a text, appended to a mantissa of 64 bits, and their number. -/
def readDigits : ℕ → ℕ → Bytes → ℕ × ℕ × Bytes
  | mantissa, count, c::rest =>
    if 48 ≤ c ∧ c ≤ 57 then readDigits ((mantissa * 10 + (c.toNat - 48)) % 2 ^ 64) (count + 1) rest
    else (mantissa, count, c::rest)
  | mantissa, count, [] => (mantissa, count, [])

def dsv_fast_atof (s : Bytes) : D :=
  match s with
  | [] => Arithmetic.ofNat 0
  | sign::rest =>
    let whole := readDigits 0 0 (if sign = 45 ∨ sign = 43 then rest else s)
    let all :=
      match whole.2.2 with
      | point::rest => if point = 46 then readDigits whole.1 0 rest else (whole.1, 0, [])
      | [] => (whole.1, 0, [])
    let result : D := Arithmetic.ofNat all.1
    let frac_digits := all.2.1
    let result :=
      if frac_digits < 19 then
        if frac_digits > 0 then Arithmetic.div result (Arithmetic.ofNat (10 ^ frac_digits))
        else result
      else (fun r => Arithmetic.div r (Arithmetic.ofNat 10))^[frac_digits] result
    if sign = 45 then Arithmetic.neg result else result

structure RowView (D : Type) where
  text : ℕ → Option Bytes
  number : ℕ → D

def dsv_value_at (fields : List Bytes) (col_idx : ℕ) : Bytes := (fields[col_idx]?).getD []

def dsv_value_double_at (fields : List Bytes) (col_idx : ℕ) : D :=
  dsv_fast_atof (dsv_value_at fields col_idx)

def valuesView (fields : List Bytes) : RowView D where
  text col_idx := some (dsv_value_at fields col_idx)
  number := dsv_value_double_at fields

def csv_get_v (doc : CsvDoc) (row col : ℕ) : Option Bytes := (doc.rows[row]?).bind (·[col]?)

/-- `strtod` reads a field up to its first NUL. -/
def csv_get_double (strtod : Bytes → D) (doc : CsvDoc) (row col : ℕ) (default : D) : D :=
  match csv_get_v doc row col with
  | none => default
  | some value =>
    let value := value.takeWhile (· ≠ nul)
    if value = [] then default else strtod value

/-- A row of a document. -/
def docView (strtod : Bytes → D) (doc : CsvDoc) (row_index : ℕ) : RowView D where
  text := csv_get_v doc row_index
  number col_idx := csv_get_double strtod doc row_index col_idx (Arithmetic.ofNat 0)

end Views

section Native
variable {D : Type} [Arithmetic D] [Comparison D]

def eval_num (op : DsvOp) (lhs rhs : D) : Bool :=
  match op with
  | .eq => Comparison.same lhs rhs
  | .ne => !Comparison.same lhs rhs
  | .gt => Comparison.lt rhs lhs
  | .ge => Comparison.lt rhs lhs || Comparison.same lhs rhs
  | .lt => Comparison.lt lhs rhs
  | .le => Comparison.lt lhs rhs || Comparison.same lhs rhs

def cmp_bytes (a b : Bytes) : Ordering := compareText a b

def eval_str (op : DsvOp) (lhs : Option Bytes) (rhs : Bytes) : Bool :=
  let c := cmp_bytes (lhs.getD []) rhs
  match op with
  | .eq => c = .eq
  | .ne => c ≠ .eq
  | .gt => c = .gt
  | .ge => c ≠ .lt
  | .lt => c = .lt
  | .le => c ≠ .gt

def evalItems (col_count cap : ℕ) (view : RowView D) :
    List (DsvExprItem D) → List D → Option (List D)
  | [], stack => some stack
  | .number num::rest, stack =>
    if stack.length ≥ cap then none else evalItems col_count cap view rest (num::stack)
  | .ident col_idx::rest, stack =>
    if col_idx ≥ col_count then none
    else if stack.length ≥ cap then none
    else evalItems col_count cap view rest (view.number col_idx::stack)
  | .neg::rest, x::stack => evalItems col_count cap view rest (Arithmetic.neg x::stack)
  | .add::rest, rhs::lhs::stack =>
    evalItems col_count cap view rest (Arithmetic.add lhs rhs::stack)
  | .sub::rest, rhs::lhs::stack =>
    evalItems col_count cap view rest (Arithmetic.sub lhs rhs::stack)
  | .mul::rest, rhs::lhs::stack =>
    evalItems col_count cap view rest (Arithmetic.mul lhs rhs::stack)
  | .div::rest, rhs::lhs::stack =>
    evalItems col_count cap view rest (Arithmetic.div lhs rhs::stack)
  | _, _ => none

def eval_lhs_numeric_expr (col_count : ℕ) (clause : DsvClause D) (view : RowView D) : Option D :=
  if clause.lhs_is_simple_col then
    if clause.col_idx ≥ col_count then none else some (view.number clause.col_idx)
  else if clause.lhs_expr = [] then none
  else
    let cap := if clause.lhs_expr.length > 64 then clause.lhs_expr.length else 64
    match evalItems col_count cap view clause.lhs_expr [] with
    | some [value] => some value
    | _ => none

def clauseHolds (col_count : ℕ) (clause : DsvClause D) (view : RowView D) : Option Bool :=
  if clause.rhs_is_string then some (eval_str clause.op (view.text clause.col_idx) clause.rhs_str)
  else (eval_lhs_numeric_expr col_count clause view).map (eval_num clause.op · clause.rhs_num)

def joinResult (joins : List DsvJoin) (i : ℕ) (result clause_ok : Bool) : Bool :=
  if i = 0 then clause_ok
  else if joins[i-1]? = some .and then result && clause_ok
  else result || clause_ok

def checkClauses (col_count : ℕ) (joins : List DsvJoin) (view : RowView D) :
    ℕ → Bool → List (DsvClause D) → Option Bool
  | _, result, [] => some result
  | i, result, clause::rest =>
    match clauseHolds col_count clause view with
    | none => none
    | some clause_ok =>
      checkClauses col_count joins view (i + 1) (joinResult joins i result clause_ok) rest

def checkNative (filter : DsvFilter D) (view : RowView D) : Option Bool :=
  checkClauses filter.col_count filter.joins view 0 false filter.clauses

def dsv_filter_check_values_native (filter : DsvFilter D) (fields : List Bytes) : Option Bool :=
  checkNative filter (valuesView fields)

def dsv_filter_check_row_native (strtod : Bytes → D) (filter : DsvFilter D) (doc : CsvDoc)
    (row_index : ℕ) : Option Bool :=
  if row_index ≥ doc.row_count then none else checkNative filter (docView strtod doc row_index)

end Native

end SaltsUtils.Dsv
