import Mathlib.Algebra.Ring.Nat
import Mathlib.Data.List.DropRight
import SaltsUtils.Csv.Scan

/-!
# Filtering a CSV stream
-/

set_option autoImplicit false

/-!
## The filter of the CSV stream processor

The filter of `src/parser/csv_parser/src/csv_stream_processor.c`: clauses of a column, an
operator and a literal, joined by `and` and `or`.
-/

namespace SaltsUtils.Csv

variable {F : Type}

structure Doubles (F : Type) where
  of_uint64 : UInt64 → F
  div : F → F → F
  neg : F → F
  eq : F → F → Bool
  lt : F → F → Bool
  le : F → F → Bool

def is_digit (c : UInt8) : Bool := 48 ≤ c && c ≤ 57

def is_alpha (c : UInt8) : Bool := (65 ≤ c && c ≤ 90) || (97 ≤ c && c ≤ 122)

def is_space (c : UInt8) : Bool := c = 32 || (9 ≤ c && c ≤ 13)

def tolower (c : UInt8) : UInt8 := if 65 ≤ c && c ≤ 90 then c + 32 else c

def is_sign (c : UInt8) : Bool := c = 43 || c = 45

/-- The mantissa wraps around. -/
def read_digits (mantissa : UInt64) (digits : Bytes) : UInt64 :=
  digits.foldl (fun m c => m * 10 + (c - 48).toUInt64) mantissa

/-- The digits behind a point that the text starts with. -/
def fraction (text : Bytes) : Bytes :=
  if text.head? = some 46 then (text.drop 1).takeWhile is_digit else []

section
variable (d : Doubles F)

/-- A table of powers serves up to 18 digits, and more of them divide one by one. -/
def scale_down (result : F) (frac_digits : ℕ) : F :=
  if frac_digits = 0 then result
  else if frac_digits < 19 then d.div result (d.of_uint64 (10 ^ frac_digits))
  else Nat.repeat (fun r => d.div r (d.of_uint64 10)) frac_digits result

def fast_atof (s : Bytes) : F :=
  let body := if s.head?.any is_sign then s.drop 1 else s
  let frac := fraction (body.dropWhile is_digit)
  let mantissa := read_digits (read_digits 0 (body.takeWhile is_digit)) frac
  let result := scale_down d (d.of_uint64 mantissa) frac.length
  if s.head? = some 45 then d.neg result else result

end

inductive ColType
  | raw
  | number
  | string
deriving DecidableEq

/-- `name` is the header name without its `_n` or `_s`. -/
structure Col where
  name : Bytes
  raw_name : Bytes
  type : ColType
  index : ℕ
deriving DecidableEq

/-- What `strlen` sees of a text. -/
def c_string (text : Bytes) : Bytes := text.takeWhile (· != nul)

def Col.called (name : Bytes) (col : Col) : Bool :=
  c_string col.name = name || c_string col.raw_name = name

def find_column (cols : List Col) (name : Bytes) : Option ℕ := cols.findIdx? (Col.called name)

inductive FilterOp
  | eq
  | ne
  | gt
  | ge
  | lt
  | le
deriving DecidableEq

inductive FilterJoin
  | and
  | or
deriving DecidableEq

inductive Rhs (F : Type)
  | string (text : Bytes)
  | number (value : F)

structure FilterClause (F : Type) where
  col_idx : ℕ
  col_type : ColType
  op : FilterOp
  rhs : Rhs F

def skip_ws (cur : Bytes) : Bytes := cur.dropWhile is_space

def is_ident (c : UInt8) : Bool := is_alpha c || is_digit c || c = 95

def parse_identifier (cur : Bytes) : Option (Bytes × Bytes) :=
  if cur.head?.any (fun c => is_alpha c || c = 95) then
    some (cur.takeWhile is_ident, cur.dropWhile is_ident)
  else none

def parse_number_token (cur : Bytes) : Option (Bytes × Bytes) :=
  let body := if cur.head?.any is_sign then cur.drop 1 else cur
  let rest := body.dropWhile is_digit
  let behind :=
    if rest.head? = some 46 then (rest.drop 1).dropWhile is_digit else rest
  if (body.takeWhile is_digit).length + (fraction rest).length = 0 then none
  else some (cur.take (cur.length - behind.length), behind)

def parse_filter_op : Bytes → Option (FilterOp × Bytes)
  | 61 :: 61 :: cur => some (.eq, cur)
  | 33 :: 61 :: cur => some (.ne, cur)
  | 62 :: 61 :: cur => some (.ge, cur)
  | 60 :: 61 :: cur => some (.le, cur)
  | 62 :: cur => some (.gt, cur)
  | 60 :: cur => some (.lt, cur)
  | _ => none

def parse_filter_join (cur : Bytes) : Option (FilterJoin × Bytes) :=
  let word := (cur.takeWhile is_alpha).map tolower
  if word = [97, 110, 100] then some (.and, cur.dropWhile is_alpha)
  else if word = [111, 114] then some (.or, cur.dropWhile is_alpha)
  else none

def literal_body : UInt8 → Bytes → Bytes × Bytes × UInt8
  | last, [] => ([], [], last)
  | _, 92 :: esc :: cur =>
    let r := literal_body esc cur
    if esc = 34 || esc = 92 then (esc :: r.1, r.2) else (92 :: esc :: r.1, r.2)
  | _, c :: cur =>
    if c = 34 then ([], cur, 34)
    else
      let r := literal_body c cur
      (c :: r.1, r.2)

def parse_string_literal (cur : Bytes) : Option (Bytes × Bytes) :=
  let r := literal_body 34 (cur.drop 1)
  if r.2.2 = 34 then some (r.1, r.2.1) else none

section
variable (d : Doubles F) (cols : List Col)

def parse_rhs (type : ColType) (cur : Bytes) : Except String (Rhs F × Bytes) :=
  if cur.head? = some 34 then
    match parse_string_literal cur with
    | none => .error "invalid filter: bad string literal"
    | some (text, cur) =>
      if type = .number then .error "invalid filter: string value with numeric column"
      else .ok (.string text, cur)
  else
    match parse_number_token cur with
    | none => .error "invalid filter: expected number or string"
    | some (text, cur) =>
      if type = .string then .error "invalid filter: numeric value with string column"
      else .ok (.number (fast_atof d text), cur)

def parse_clause (cur : Bytes) : Except String (FilterClause F × Bytes) :=
  match parse_identifier (skip_ws cur) with
  | none => .error "invalid filter: expected column name"
  | some (name, cur) =>
    match (find_column cols name).bind fun i => cols[i]?.map fun col => (i, col.type) with
    | none => .error "invalid filter: unknown column"
    | some (col_idx, type) =>
      match parse_filter_op (skip_ws cur) with
      | none => .error "invalid filter: expected operator"
      | some (op, cur) => do
        let (rhs, cur) ← parse_rhs d type (skip_ws cur)
        return (⟨col_idx, type, op, rhs⟩, cur)

/-- Each round reads at least one byte, so the rounds last for as many bytes as there are. -/
def parse_clauses : ℕ → Bytes → Except String (List (FilterClause F) × List FilterJoin)
  | 0, _ => .error "invalid filter: expected column name"
  | rounds + 1, cur => do
    let (clause, cur) ← parse_clause d cols cur
    if skip_ws cur = [] then return ([clause], [])
    else
      match parse_filter_join (skip_ws cur) with
      | none => .error "invalid filter: expected and/or"
      | some (join, cur) =>
        let (clauses, joins) ← parse_clauses rounds cur
        return (clause :: clauses, join :: joins)

end

def cmp_bytes : Bytes → Bytes → Ordering
  | [], [] => .eq
  | [], _ :: _ => .lt
  | _ :: _, [] => .gt
  | a :: as, b :: bs => if a < b then .lt else if b < a then .gt else cmp_bytes as bs

def filter_op_eval_str (op : FilterOp) (lhs rhs : Bytes) : Bool :=
  match op with
  | .eq => (cmp_bytes lhs rhs).isEq
  | .ne => (cmp_bytes lhs rhs).isNe
  | .gt => (cmp_bytes lhs rhs).isGT
  | .ge => (cmp_bytes lhs rhs).isGE
  | .lt => (cmp_bytes lhs rhs).isLT
  | .le => (cmp_bytes lhs rhs).isLE

section
variable (d : Doubles F)

def filter_op_eval_num (op : FilterOp) (lhs rhs : F) : Bool :=
  match op with
  | .eq => d.eq lhs rhs
  | .ne => !d.eq lhs rhs
  | .gt => d.lt rhs lhs
  | .ge => d.le rhs lhs
  | .lt => d.lt lhs rhs
  | .le => d.le lhs rhs

def clause_ok (fields : List Bytes) (c : FilterClause F) : Bool :=
  let lhs := fields.getD c.col_idx []
  match c.rhs with
  | .string text => filter_op_eval_str c.op lhs text
  | .number value => filter_op_eval_num d c.op (fast_atof d lhs) value

/-- The clauses behind the first one, from left to right. -/
def eval_joined (fields : List Bytes) : Bool → List FilterJoin → List (FilterClause F) → Bool
  | result, join :: joins, c :: cs =>
    let result :=
      match join with
      | .and => result && clause_ok d fields c
      | .or => result || clause_ok d fields c
    eval_joined fields result joins cs
  | result, _, _ => result

/-- Without a clause every row passes. -/
def eval_filter_plan (clauses : List (FilterClause F)) (joins : List FilterJoin)
    (fields : List Bytes) : Bool :=
  match clauses with
  | [] => true
  | c :: cs => eval_joined d fields (clause_ok d fields c) joins cs

end

/-!
## The CSV stream processor

`src/parser/csv_parser/src/csv_stream_processor.c`. Lines are taken off a buffer as soon
as they end.
-/

def max_fields : ℕ := 256

def quoted_span (quote : UInt8) : Bytes → Bytes × Bytes
  | [] => ([], [])
  | [c] => if c = quote then ([], [c]) else ([c], [])
  | c :: c' :: rest =>
    if c = quote then
      if c' = quote then
        let r := quoted_span quote rest
        (c :: c' :: r.1, r.2)
      else ([], c :: c' :: rest)
    else
      let r := quoted_span quote (c' :: rest)
      (c :: r.1, r.2)

def split_fields (delim quote : UInt8) : ℕ → Bytes → Bool → List Bytes
  | 0, _, _ => []
  | _ + 1, [], trailing_delim => if trailing_delim then [[]] else []
  | free + 1, c :: line, _ =>
    let (span, rest) :=
      if c = quote then
        let r := quoted_span quote line
        (r.1, if r.2.head? = some quote then r.2.drop 1 else r.2)
      else ((c :: line).takeWhile (· != delim), (c :: line).dropWhile (· != delim))
    if rest.head? = some delim then span :: split_fields delim quote free (rest.drop 1) true
    else span :: split_fields delim quote free rest false

def split_csv_line (opts : CsvOptions) (line : Bytes) : List Bytes :=
  split_fields opts.delimiter opts.quote max_fields line false

/-- A doubled quote stands for one. -/
def unescape_field (quote : UInt8) : Bytes → Bytes
  | c :: c' :: rest =>
    if c = quote ∧ c' = quote then quote :: unescape_field quote rest
    else c :: unescape_field quote (c' :: rest)
  | text => text

/-- What the settings and the header fix. -/
structure Setup (F : Type) where
  opts : CsvOptions
  cols : List Col
  header_parsed : Bool
  filter_expr_str : Option Bytes
  filter_compiled : Bool
  filter_clauses : List (FilterClause F)
  filter_joins : List FilterJoin
  select_cols_str : Option Bytes
  col_selected : List Bool

/-- A row has an entry for each column, which is `NULL` unless it is a selected string. -/
structure StrStore where
  rows : List (List (Option Bytes))
  col_count : ℕ

structure Results (F : Type) where
  num_vecs : List (List F)
  str_store : StrStore
  match_count : ℕ
  error : String

@[ext]
structure CsvStreamProcessor (F : Type) where
  line_buf : Bytes
  setup : Setup F
  results : Results F

/-- A selected column of the type. -/
def Setup.keeps (st : Setup F) (type : ColType) (i : ℕ) : Bool :=
  st.col_selected.getD i false && st.cols[i]?.any (fun col => col.type = type)

section
variable (d : Doubles F)

def free_filter_plan (st : Setup F) : Setup F :=
  { st with filter_compiled := false, filter_clauses := [], filter_joins := [] }

def compile_filter_plan (st : Setup F) (error : String) : Bool × Setup F × String :=
  match st.filter_expr_str with
  | none => (true, free_filter_plan st, error)
  | some expr =>
    if st.cols = [] then (true, free_filter_plan st, error)
    else
      match parse_clauses d st.cols (expr.length + 1) expr with
      | .error message => (false, free_filter_plan st, message)
      | .ok (clauses, joins) =>
        (true, { st with filter_compiled := true, filter_clauses := clauses, filter_joins := joins },
          "")

def ends_with_ci (str suffix : Bytes) : Bool :=
  suffix.length ≤ str.length &&
    (str.drop (str.length - suffix.length)).map tolower = suffix.map tolower

def trim (text : Bytes) : Bytes := (text.dropWhile is_space).rdropWhile is_space

def header_col (quote : UInt8) (index : ℕ) (span : Bytes) : Col :=
  let raw_name := trim (unescape_field quote span)
  if ends_with_ci raw_name [95, 110] then
    ⟨raw_name.take (raw_name.length - 2), raw_name, .number, index⟩
  else if ends_with_ci raw_name [95, 115] then
    ⟨raw_name.take (raw_name.length - 2), raw_name, .string, index⟩
  else ⟨raw_name, raw_name, .raw, index⟩

def header_cols (opts : CsvOptions) (line : Bytes) : List Col :=
  (split_csv_line opts line).mapIdx (header_col opts.quote)

def trim_name (text : Bytes) : Bytes := (text.dropWhile (· = 32)).rdropWhile (· = 32)

def select_names : ℕ → Bytes → List Bytes
  | 0, _ => []
  | rounds + 1, text =>
    if text = [] then []
    else
      trim_name (text.takeWhile (· != comma)) ::
        select_names rounds ((text.dropWhile (· != comma)).drop 1)

def select_col (cols : List Col) (col_selected : List Bool) (name : Bytes) : List Bool :=
  match find_column cols name with
  | none => col_selected
  | some i => col_selected.set i true

def select_cols (cols : List Col) : Option Bytes → List Bool
  | none => List.replicate cols.length true
  | some names =>
    (select_names names.length names).foldl (select_col cols) (List.replicate cols.length false)

def parse_header (st : Setup F) (res : Results F) (line : Bytes) : Setup F × Results F :=
  let cols := header_cols st.opts line
  let st := { st with cols := cols, col_selected := select_cols cols st.select_cols_str }
  let has_string_cols := (List.range cols.length).any (st.keeps .string)
  let res :=
    { res with
      num_vecs := List.replicate cols.length []
      str_store := ⟨[], if has_string_cols then cols.length else 0⟩ }
  if st.filter_expr_str.isSome then
    let (_, st, error) := compile_filter_plan d st res.error
    ({ st with header_parsed := true }, { res with error := error })
  else ({ st with header_parsed := true }, res)

def row_fields (st : Setup F) (spans : List Bytes) : List Bytes :=
  (spans.take st.cols.length).map (unescape_field st.opts.quote) ++
    List.replicate (st.cols.length - spans.length) []

/-- The room that the fields take with a NUL behind each. -/
def total_need (st : Setup F) (spans : List Bytes) : ℕ :=
  ((spans.take st.cols.length).map fun span => span.length + 1).sum +
    (st.cols.length - spans.length)

def row_room : ℕ := 2048

def dvec_push (v : List F) (val : F) : List F := v ++ [val]

def str_store_push_row (st : Setup F) (s : StrStore) (fields : List Bytes) : StrStore :=
  { s with
    rows := s.rows ++
      [(fields.take s.col_count).mapIdx fun i field => if st.keeps .string i then
        some field else none] }

def store_row (st : Setup F) (res : Results F) (fields : List Bytes) : Results F :=
  { res with
    num_vecs := res.num_vecs.mapIdx fun i v =>
      if st.keeps .number i then dvec_push v (fast_atof d (fields.getD i [])) else v
    str_store :=
      if res.str_store.col_count = 0 then res.str_store
      else str_store_push_row st res.str_store fields
    match_count := res.match_count + 1 }

def process_row (st : Setup F) (res : Results F) (line : Bytes) : Results F :=
  let spans := split_csv_line st.opts line
  if spans = [] then res
  else if row_room < total_need st spans then
    { res with error := "row too wide (>2KB) — check upstream data" }
  else
    let fields := row_fields st spans
    if st.filter_compiled ∧ eval_filter_plan d st.filter_clauses st.filter_joins fields = false then
      res
    else store_row d st res fields

/-- A line without the carriage return before its end. -/
def strip_cr (line : Bytes) : Bytes := if line.getLast? = some cr then line.dropLast else line

def process_line (p : Setup F × Results F) (line : Bytes) : Setup F × Results F :=
  let line := strip_cr line
  if line = [] then p
  else if p.1.header_parsed then (p.1, process_row d p.1 p.2 line)
  else parse_header d p.1 p.2 line

variable (p : CsvStreamProcessor F)

def CsvStreamProcessor.process (line rest : Bytes) : CsvStreamProcessor F :=
  let r := process_line d (p.setup, p.results) line
  ⟨rest, r.1, r.2⟩

def flush_rounds : ℕ → CsvStreamProcessor F → CsvStreamProcessor F
  | 0, p => p
  | rounds + 1, p =>
    if lf ∈ p.line_buf then
      flush_rounds rounds (p.process d (p.line_buf.takeWhile (· != lf))
        ((p.line_buf.dropWhile (· != lf)).drop 1))
    else p

def flush_lines : CsvStreamProcessor F :=
  flush_rounds d p.line_buf.length p

def csv_stream_processor_create (opts : Option CsvOptions) : CsvStreamProcessor F where
  line_buf := []
  setup := ⟨csv_normalize_opts (some (opts.getD { has_header := true })), [], false, none, false,
    [], [], none, []⟩
  results := ⟨[], ⟨[], 0⟩, 0, ""⟩

def csv_stream_processor_set_filter (expr : Bytes) : Bool × CsvStreamProcessor F :=
  let st := free_filter_plan { p.setup with filter_expr_str := some expr }
  if st.header_parsed then
    let (compiled, st, error) := compile_filter_plan d st p.results.error
    (compiled, { p with setup := st, results := { p.results with error := error } })
  else (true, { p with setup := st })

def csv_stream_processor_set_columns (names : Bytes) : CsvStreamProcessor F :=
  { p with setup := { p.setup with select_cols_str := some names } }

def csv_stream_processor_feed (data : Bytes) : CsvStreamProcessor F :=
  if data = [] then p else flush_lines d { p with line_buf := p.line_buf ++ data }

def csv_stream_processor_finish : CsvStreamProcessor F :=
  if p.line_buf = [] then p else p.process d p.line_buf []

def csv_stream_processor_row_count : ℕ := p.results.match_count

def csv_stream_processor_col_data (col : ℕ) : List F :=
  if p.setup.cols[col]?.any (fun c => c.type = .number) then p.results.num_vecs.getD col [] else []

def csv_stream_processor_get_str (row col : ℕ) : Option Bytes :=
  if p.results.str_store.col_count ≤ col then none
  else p.results.str_store.rows[row]?.bind fun entries => (entries[col]?).join

end

end SaltsUtils.Csv
