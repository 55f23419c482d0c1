import SaltsUtils.Library.Regex

/-!
# The TOON lexer

`src/parser/toon/parser/toon_lexer.re`.
-/

set_option autoImplicit false

namespace SaltsUtils.Toon

abbrev Bytes := List ℕ

inductive TokenType where
  | error
  | eof
  | colon
  | lbracket
  | rbracket
  | lbrace
  | rbrace
  | comma
  | newline
  | indent
  | dedent
  | key
  | value
  | number
  | bool
  | null
  deriving DecidableEq

structure Token where
  type : TokenType
  value : Option Bytes
  bool_val : Bool
  deriving DecidableEq

/-- A token without a text. -/
def bare (type : TokenType) : Token := ⟨type, none, false⟩

def STACK_SIZE : ℕ := 256

structure Lexer where
  cursor : Bytes
  indent_stack : List ℕ
  indent_depth : ℕ
  pending_dedents : ℕ
  state : ℕ
  deriving DecidableEq

/-- The stack holds what was in its memory, but for its first entry. -/
def toon_lexer_init (memory : List ℕ) (input : Bytes) : Lexer :=
  ⟨input, memory.set 0 0, 0, 0, 0⟩

def Lexer.level (lexer : Lexer) : Option ℕ := lexer.indent_stack[lexer.indent_depth]?

def horizontal (ch : ℕ) : Bool := ch == 32 || ch == 9

def line_end (ch : ℕ) : Bool := ch == 13 || ch == 10

def comment_char (ch : ℕ) : Bool := !(line_end ch || ch == 0)

def count_spaces (cursor : Bytes) : Option ℕ :=
  let spaces := (cursor.takeWhile (· == 32)).length
  if spaces < 2 ^ 31 then some spaces else none

inductive LineStart where
  | eof
  | line (level : ℕ) (cursor : Bytes)
  deriving DecidableEq

def line_start : ℕ → Bytes → Option LineStart
  | 0, _ => none
  | rounds + 1, cursor =>
    match count_spaces cursor with
    | none => none
    | some spaces =>
      match (cursor.drop spaces).dropWhile horizontal with
      | [] => some .eof
      | ch :: after =>
        if ch = 10 then line_start rounds after
        else if ch = 13 then
          line_start rounds (if after.head? = some 10 then after.tail else after)
        else if ch = 35 then line_start rounds (after.dropWhile comment_char)
        else some (.line (spaces / 2) (cursor.drop spaces))

def dedent_loop (indent_stack : List ℕ) (level : ℕ) : ℕ → ℕ → Option (ℕ × ℕ)
  | 0, dedents => some (0, dedents)
  | depth + 1, dedents =>
    match indent_stack[depth + 1]? with
    | none => none
    | some top =>
      if level < top then dedent_loop indent_stack level depth (dedents + 1)
      else some (depth + 1, dedents)

section
open Regex

def digit : Regex := range 48 57

def letter : Regex := alt (range 97 122) (alt (range 65 90) (char 95))

def number : Regex :=
  sequence [optional (char 45), plus digit, optional (seq (char 46) (plus digit)),
    optional (sequence [class_ [101, 69], optional (class_ [43, 45]), plus digit])]

def key : Regex := seq letter (star (alt letter (alt digit (char 46))))

def string1 : Regex := sequence [char 34, star (except [34, 13, 10]), char 34]

def catch_all : Regex :=
  seq (except [13, 10, 44, 58, 35, 32, 9, 91, 93, 123, 125])
    (star (except [44, 13, 10, 35, 91, 93, 123, 125]))

inductive Rule where
  | newline
  | symbol (type : TokenType)
  | number
  | string1
  | key
  | catch_all
  deriving DecidableEq

/-- The rules in their order, but for those of blanks, of comments and of the end, which are
passed over before. -/
def rules : List (Regex × Rule) :=
  [(alt (word [13, 10]) (alt (char 13) (char 10)), .newline), (char 58, .symbol .colon),
    (char 91, .symbol .lbracket), (char 93, .symbol .rbracket), (char 123, .symbol .lbrace),
    (char 125, .symbol .rbrace), (char 44, .symbol .comma), (number, .number),
    (string1, .string1), (key, .key), (catch_all, .catch_all)]

end

def lex_is_bool (text : Bytes) : Option Bool :=
  if text = [116, 114, 117, 101] then some true
  else if text = [102, 97, 108, 115, 101] then some false
  else none

def lex_is_null (text : Bytes) : Bool := text == [110, 117, 108, 108]

def word_token (text : Bytes) : Token :=
  match lex_is_bool text with
  | some val => ⟨.bool, some text, val⟩
  | none => if lex_is_null text then ⟨.null, some text, false⟩ else ⟨.key, some text, false⟩

def trim_end (text : Bytes) : Bytes := (text.reverse.dropWhile horizontal).reverse

def catch_all_token (state : ℕ) (text : Bytes) : ℕ × Token :=
  if state ≠ 2 then
    if 58 ∈ text then
      ((text.takeWhile (· != 58)).length, word_token (trim_end (text.takeWhile (· != 58))))
    else (text.length, word_token (trim_end text))
  else (text.length, ⟨.value, some (trim_end text), false⟩)

/-- How much of a match is taken, its token, and the state behind it. -/
def action (state : ℕ) (text : Bytes) : Rule → ℕ × Token × ℕ
  | .newline => (text.length, bare .newline, 0)
  | .symbol type => (text.length, ⟨type, some text, false⟩, state)
  | .number => (text.length, ⟨.number, some text, false⟩, state)
  | .string1 => (text.length, ⟨.value, some (text.drop 1).dropLast, false⟩, state)
  | .key => (text.length, word_token text, state)
  | .catch_all => ((catch_all_token state text).1, (catch_all_token state text).2, state)

/-- What is returned, the token, and the lexer afterwards. -/
abbrev Next := ℤ × Token × Lexer

def handle_eof (lexer : Lexer) : Next :=
  if 0 < lexer.indent_depth then
    (1, bare .dedent, { lexer with
      pending_dedents := lexer.indent_depth - 1, indent_depth := 0, cursor := [] })
  else (0, bare .eof, { lexer with cursor := [] })

def string_char (ch : ℕ) : Bool := !(ch == 34 || line_end ch || ch == 0)

/-- The text of a string that ends before any zero byte. -/
def quoted : Bytes → Option Bytes
  | 34 :: rest =>
    if (rest.dropWhile string_char).head? = some 34 then some (rest.takeWhile string_char)
    else none
  | _ => none

/-- Behind blanks and a comment; behind a comment stands the end of a line, a zero byte or
the end of the text. -/
def lex_loop (cursor : Bytes) : Bytes :=
  match cursor.dropWhile horizontal with
  | 35 :: after => after.dropWhile comment_char
  | rest => rest

def lex_token (lexer : Lexer) (cursor : Bytes) : Next :=
  match lex_loop cursor with
  | [] => handle_eof lexer
  | ch :: rest =>
    match quoted (ch :: rest) with
    | some text =>
      (1, ⟨.value, some text, false⟩, { lexer with cursor := (ch :: rest).drop (text.length + 2) })
    | none =>
      match Regex.choose rules (ch :: rest) with
      | some (n, rule) =>
        let (taken, token, state) := action lexer.state ((ch :: rest).take n) rule
        (1, token, { lexer with cursor := (ch :: rest).drop taken, state := state })
      | none => (-1, bare .error, { lexer with cursor := rest })

def lex_level (lexer : Lexer) (level : ℕ) (cursor : Bytes) : Option Next :=
  match lexer.level with
  | none => none
  | some current_level =>
    if current_level < level then
      if lexer.indent_depth + 1 < STACK_SIZE then
        some (1, bare .indent, { lexer with
          indent_depth := lexer.indent_depth + 1
          indent_stack := lexer.indent_stack.set (lexer.indent_depth + 1) level
          state := 1
          cursor := cursor })
      else none
    else if level < current_level then
      match dedent_loop lexer.indent_stack level lexer.indent_depth 0 with
      | none => none
      | some (depth, dedents) =>
        some (1, bare .dedent, { lexer with
          indent_depth := depth, pending_dedents := dedents - 1, state := 1, cursor := cursor })
    else some (lex_token { lexer with state := 1 } cursor)

def toon_lexer_next (lexer : Lexer) : Option Next :=
  if 0 < lexer.pending_dedents then
    some (1, bare .dedent, { lexer with pending_dedents := lexer.pending_dedents - 1 })
  else if lexer.state = 0 then
    match line_start (lexer.cursor.length + 1) lexer.cursor with
    | none => none
    | some .eof => some (handle_eof lexer)
    | some (.line level cursor) => lex_level lexer level cursor
  else some (lex_token lexer lexer.cursor)

end SaltsUtils.Toon
