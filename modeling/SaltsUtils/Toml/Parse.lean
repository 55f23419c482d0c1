import SaltsUtils.Toml.Lexer

/-!
# Grammar and actions of the TOML parser
-/

set_option autoImplicit false

/-!
## The TOML grammar

A derivation is a tree with the tokens it derives. Lists stand to the left, as in the
productions.
-/

namespace SaltsUtils.Toml

def symbol : TokenType → Token
  | .dot => ⟨.dot, [46]⟩
  | .comma => ⟨.comma, [44]⟩
  | .equal => ⟨.equal, [61]⟩
  | .lbrace => ⟨.lbrace, [123]⟩
  | .rbrace => ⟨.rbrace, [125]⟩
  | .lbracket => ⟨.lbracket, [91]⟩
  | .rbracket => ⟨.rbracket, [93]⟩
  | type => ⟨type, []⟩

structure KeyPart where
  tok : Token
  kind : tok.type = .key ∨ tok.type = .string

structure SimpleValue where
  tok : Token
  kind : tok.type = .string ∨ tok.type = .val_int ∨ tok.type = .val_float ∨
    tok.type = .val_bool ∨ tok.type = .val_datetime

inductive Path where
  | part (K : KeyPart)
  | dot (P : Path) (K : KeyPart)

namespace Path

def keys : Path → List Token
  | part K => [K.tok]
  | dot P K => keys P ++ [K.tok]

def yield : Path → List Token
  | part K => [K.tok]
  | dot P K => yield P ++ [symbol .dot, K.tok]

end Path

mutual

inductive Value where
  | simple (T : SimpleValue)
  | empty_array
  | array (L : ArrayList) (comma : Bool)
  | empty_table
  | inline_table (L : InlineList) (comma : Bool)

inductive ArrayList where
  | one (V : Value)
  | append (L : ArrayList) (V : Value)

inductive InlineList where
  | one (P : Path) (V : Value)
  | append (L : InlineList) (P : Path) (V : Value)

end

def trailing (comma : Bool) : List Token := if comma then [symbol .comma] else []

mutual

def Value.yield : Value → List Token
  | .simple T => [T.tok]
  | .empty_array => [symbol .lbracket, symbol .rbracket]
  | .array L comma =>
    symbol .lbracket :: (ArrayList.yield L ++ trailing comma ++ [symbol .rbracket])
  | .empty_table => [symbol .lbrace, symbol .rbrace]
  | .inline_table L comma =>
    symbol .lbrace :: (InlineList.yield L ++ trailing comma ++ [symbol .rbrace])

def ArrayList.yield : ArrayList → List Token
  | .one V => Value.yield V
  | .append L V => ArrayList.yield L ++ symbol .comma :: Value.yield V

def InlineList.yield : InlineList → List Token
  | .one P V => P.yield ++ symbol .equal :: Value.yield V
  | .append L P V =>
    InlineList.yield L ++ symbol .comma :: (P.yield ++ symbol .equal :: Value.yield V)

end

inductive Statement where
  | table_def (P : Path)
  | array_def (P : Path)
  | key_val (P : Path) (V : Value)
  | newline

def Statement.yield : Statement → List Token
  | table_def P => symbol .lbracket :: (P.yield ++ [symbol .rbracket])
  | array_def P =>
    symbol .lbracket :: symbol .lbracket :: (P.yield ++ [symbol .rbracket, symbol .rbracket])
  | key_val P V => P.yield ++ symbol .equal :: V.yield
  | newline => [symbol .newline]

abbrev Document := List Statement

def Document.yield (doc : Document) : List Token := doc.flatMap Statement.yield

/-!
## Tables, arrays and the helpers of the parser

Values, arrays and tables live in three stores that only grow, and a pointer is a position
in its store.
-/

inductive Obj where
  | keyval (p : ℕ)
  | array (p : ℕ)
  | table (p : ℕ)
  deriving DecidableEq

inductive Item where
  | value (val : Bytes)
  | array (p : ℕ)
  | table (p : ℕ)
  deriving DecidableEq

structure Table where
  readonly : Bool
  implicit : Bool
  kval : List (Bytes × ℕ)
  arr : List (Bytes × ℕ)
  tbl : List (Bytes × ℕ)
  deriving DecidableEq

structure Heap where
  keyvals : List Bytes
  arrays : List (List Item)
  tables : List Table
  deriving DecidableEq

/-- A C string ends at its first zero byte. -/
def cstring (s : Bytes) : Bytes := s.takeWhile (· != 0)

def normalize_key (tok : Token) : Bytes :=
  if tok.type = .string ∧ 2 ≤ tok.value.length then
    cstring ((tok.value.drop 1).take (tok.value.length - 2))
  else cstring tok.value

def Table.check_key (tbl : Table) (key : Bytes) : Option Obj :=
  match tbl.kval.lookup key with
  | some p => some (.keyval p)
  | none =>
    match tbl.arr.lookup key with
    | some p => some (.array p)
    | none => (tbl.tbl.lookup key).map .table

def Table.insert (tbl : Table) (key : Bytes) : Obj → Table
  | .keyval p => { tbl with kval := tbl.kval ++ [(key, p)] }
  | .array p => { tbl with arr := tbl.arr ++ [(key, p)] }
  | .table p => { tbl with tbl := tbl.tbl ++ [(key, p)] }

namespace Heap

def check_key (h : Heap) (t : ℕ) (key : Bytes) : Option Obj :=
  h.tables[t]?.bind (fun tbl => tbl.check_key key)

def link (h : Heap) (t : ℕ) (key : Bytes) (o : Obj) : Heap :=
  { h with tables := h.tables.modify t (fun tbl => tbl.insert key o) }

def new_table (h : Heap) (readonly implicit : Bool) : Heap :=
  { h with tables := h.tables ++ [⟨readonly, implicit, [], [], []⟩] }

def new_array (h : Heap) : Heap := { h with arrays := h.arrays ++ [[]] }

def new_keyval (h : Heap) (val : Bytes) : Heap := { h with keyvals := h.keyvals ++ [val] }

def append_item (h : Heap) (a : ℕ) (item : Item) : Heap :=
  { h with arrays := h.arrays.modify a (· ++ [item]) }

def is_implicit (h : Heap) (t : ℕ) : Bool := (h.tables[t]?.map Table.implicit).getD false

def set_explicit (h : Heap) (t : ℕ) : Heap :=
  { h with tables := h.tables.modify t (fun tbl => { tbl with implicit := false }) }

end Heap

/-- The tables on the way are created where they are missing. -/
def toml_helper_walk_path : Heap → ℕ → List Token → Option (Heap × ℕ)
  | h, curr, [] => some (h, curr)
  | h, curr, key :: keys =>
    match h.check_key curr (normalize_key key) with
    | some (.table next) => toml_helper_walk_path h next keys
    | some _ => none
    | none =>
      toml_helper_walk_path
        ((h.new_table false true).link curr (normalize_key key) (.table h.tables.length))
        h.tables.length keys

def toml_helper_create_array (h : Heap) : Heap × ℕ := (h.new_array, h.arrays.length)

def toml_helper_create_inline_table (h : Heap) : Heap × ℕ :=
  (h.new_table true false, h.tables.length)

def append_table (h : Heap) (a : ℕ) : Heap × ℕ :=
  ((h.new_table false false).append_item a (.table h.tables.length), h.tables.length)

def toml_helper_create_table (h : Heap) (parent : ℕ) (key_tok : Token)
    (is_array_of_tables : Bool) : Option (Heap × ℕ) :=
  let key := normalize_key key_tok
  if is_array_of_tables then
    match h.check_key parent key with
    | some (.array a) => some (append_table h a)
    | some _ => none
    | none => some (append_table (h.new_array.link parent key (.array h.arrays.length)) h.arrays.length)
  else
    match h.check_key parent key with
    | some (.table t) => if h.is_implicit t then some (h.set_explicit t, t) else none
    | some _ => none
    | none =>
      some ((h.new_table false false).link parent key (.table h.tables.length), h.tables.length)

/-- A key that any of the three lists has is an error. -/
def add_member (h : Heap) (parent : ℕ) (key_tok : Token) (o : Obj) : Option Heap :=
  match h.check_key parent (normalize_key key_tok) with
  | some _ => none
  | none => some (h.link parent (normalize_key key_tok) o)

def toml_helper_add_keyval (h : Heap) (parent : ℕ) (key_tok val_tok : Token) : Option Heap :=
  add_member (h.new_keyval (cstring val_tok.value)) parent key_tok (.keyval h.keyvals.length)

def toml_helper_add_array (h : Heap) (parent : ℕ) (key_tok : Token) (arr : ℕ) : Option Heap :=
  add_member h parent key_tok (.array arr)

def toml_helper_add_inline_table (h : Heap) (parent : ℕ) (key_tok : Token) (sub : ℕ) :
    Option Heap :=
  add_member h parent key_tok (.table sub)

def toml_helper_array_append_value (h : Heap) (arr : ℕ) (val_tok : Token) : Heap :=
  h.append_item arr (.value (cstring val_tok.value))

def toml_helper_array_append_array (h : Heap) (arr sub : ℕ) : Heap := h.append_item arr (.array sub)

def toml_helper_array_append_table (h : Heap) (arr sub : ℕ) : Heap := h.append_item arr (.table sub)

/-- What a value is reduced to: its token, its array or its table. -/
inductive Val where
  | simple (tok : Token)
  | array (p : ℕ)
  | table (p : ℕ)

namespace Path

def record : Path → List Token
  | part K => [K.tok]
  | dot P K => if (record P).length < 10 then record P ++ [K.tok] else record P

theorem record_ne_nil (P : Path) : P.record ≠ [] := by
  cases P with
  | part K => exact List.cons_ne_nil _ _
  | dot P K =>
    rw [record]
    split
    · exact List.append_ne_nil_of_right_ne_nil _ (List.cons_ne_nil _ _)
    · exact record_ne_nil P

def before (P : Path) : List Token := P.record.dropLast

def last (P : Path) : Token := P.record.getLast P.record_ne_nil

end Path

def toml_add_simple_kv (h : Heap) (target : ℕ) (path : Path) (val : Token) : Option Heap := do
  let (h, t) ← toml_helper_walk_path h target path.before
  toml_helper_add_keyval h t path.last val

def toml_add_array_kv (h : Heap) (target : ℕ) (path : Path) (arr : ℕ) : Option Heap := do
  let (h, t) ← toml_helper_walk_path h target path.before
  toml_helper_add_array h t path.last arr

def toml_add_table_kv (h : Heap) (target : ℕ) (path : Path) (tbl : ℕ) : Option Heap := do
  let (h, t) ← toml_helper_walk_path h target path.before
  toml_helper_add_inline_table h t path.last tbl

def toml_helper_add_any (h : Heap) (parent : ℕ) (path : Path) : Val → Option Heap
  | .simple tok => toml_add_simple_kv h parent path tok
  | .array arr => toml_add_array_kv h parent path arr
  | .table sub => toml_add_table_kv h parent path sub

def array_append (h : Heap) (arr : ℕ) : Val → Heap
  | .simple tok => toml_helper_array_append_value h arr tok
  | .array sub => toml_helper_array_append_array h arr sub
  | .table sub => toml_helper_array_append_table h arr sub

/-!
## The actions of the parser

Every production has its action, and the actions run in the order in which the parser
reduces: the parts before the whole, from left to right.
-/

mutual

def any_value : Heap → Value → Option (Heap × Val)
  | h, .simple T => some (h, .simple T.tok)
  | h, .empty_array =>
    let (h, a) := toml_helper_create_array h
    some (h, .array a)
  | h, .array L _ => do
    let (h, a) ← array_list h L
    return (h, .array a)
  | h, .empty_table =>
    let (h, t) := toml_helper_create_inline_table h
    some (h, .table t)
  | h, .inline_table L _ => do
    let (h, t) ← inline_list h L
    return (h, .table t)

def array_list : Heap → ArrayList → Option (Heap × ℕ)
  | h, .one V => do
    let (h, v) ← any_value h V
    let (h, a) := toml_helper_create_array h
    return (array_append h a v, a)
  | h, .append L V => do
    let (h, a) ← array_list h L
    let (h, v) ← any_value h V
    return (array_append h a v, a)

def inline_list : Heap → InlineList → Option (Heap × ℕ)
  | h, .one P V => do
    let (h, v) ← any_value h V
    let (h, t) := toml_helper_create_inline_table h
    let h ← toml_helper_add_any h t P v
    return (h, t)
  | h, .append L P V => do
    let (h, t) ← inline_list h L
    let (h, v) ← any_value h V
    let h ← toml_helper_add_any h t P v
    return (h, t)

end

structure Ctx where
  heap : Heap
  current_table : ℕ
  deriving DecidableEq

def root : ℕ := 0

def table_def (ctx : Ctx) (P : Path) (is_array_of_tables : Bool) : Option Ctx := do
  let (h, parent) ← toml_helper_walk_path ctx.heap root P.before
  let (h, t) ← toml_helper_create_table h parent P.last is_array_of_tables
  return ⟨h, t⟩

def key_val_stmt (ctx : Ctx) (P : Path) (V : Value) : Option Ctx := do
  let (h, v) ← any_value ctx.heap V
  let h ← toml_helper_add_any h ctx.current_table P v
  return ⟨h, ctx.current_table⟩

def statement : Ctx → Statement → Option Ctx
  | ctx, .table_def P => table_def ctx P false
  | ctx, .array_def P => table_def ctx P true
  | ctx, .key_val P V => key_val_stmt ctx P V
  | ctx, .newline => some ctx

def statements (ctx : Ctx) (doc : Document) : Option Ctx := doc.foldlM statement ctx

def start : Ctx := ⟨⟨[], [], [⟨false, false, [], [], []⟩]⟩, root⟩

/-- A text is parsed when its tokens, up to its first zero byte, are those of a
derivation whose actions all go well. -/
structure Parses (toml : Bytes) (doc : Document) (ctx : Ctx) : Prop where
  tokens : toml_tokens (cstring toml) = some doc.yield
  run : statements start doc = some ctx

end SaltsUtils.Toml
