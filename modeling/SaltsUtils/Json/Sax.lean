import SaltsUtils.Json.Lexer

/-!
# The incremental JSON parser

Pieces of text are appended to a buffer, tokens are scanned off its front while they are
complete, and each token moves a machine with a stack of states.
-/

set_option autoImplicit false

namespace SaltsUtils.Json

def escaped_char (letter : ℕ) : ℕ :=
  if letter = 98 then 8
  else if letter = 102 then 12
  else if letter = 110 then 10
  else if letter = 114 then 13
  else if letter = 116 then 9
  else letter

/-- The bytes that the text between the quotes of a string stands for; `none` for a
surrogate without its other half. -/
def json_unescape : Bytes → Option Bytes
  | [] => some []
  | ch :: rest =>
    if ch = 92 then
      match rest with
      | [] => some [ch]
      | letter :: rest =>
        if letter = 117 then
          match rest with
          | a :: b :: c :: d :: rest =>
            match JsonText.codeUnit a b c d with
            | none => none
            | some high =>
              if 0xd800 ≤ high ∧ high ≤ 0xdbff then
                match rest with
                | e :: f :: a' :: b' :: c' :: d' :: rest =>
                  match JsonText.codeUnit a' b' c' d' with
                  | none => none
                  | some low =>
                    if e = 92 ∧ f = 117 ∧ 0xdc00 ≤ low ∧ low ≤ 0xdfff then
                      (json_unescape rest).map
                        (Utf8.encode (0x10000 + (high - 0xd800) * 0x400 + (low - 0xdc00)) ++ ·)
                    else none
                | _ => none
              else if 0xdc00 ≤ high ∧ high ≤ 0xdfff then none
              else (json_unescape rest).map (Utf8.encode high ++ ·)
          | _ => none
        else (json_unescape rest).map (escaped_char letter :: ·)
    else (json_unescape rest).map (ch :: ·)

def has_escape (value : Bytes) : Bool := value.contains 92

/-- The bytes of a string token, taken as they stand if there is no escape in them. -/
def string_value (value : Bytes) : Option Bytes :=
  if has_escape value then json_unescape value else some value

theorem json_unescape_plain {value : Bytes} (h : 92 ∉ value) : json_unescape value = some value := by
  induction value with
  | nil => rfl
  | cons ch rest ih =>
    rw [List.mem_cons, not_or] at h
    rw [json_unescape.eq_def]
    simp only [if_neg (Ne.symm h.1), ih h.2, Option.map_some]

theorem string_value_eq (value : Bytes) : string_value value = json_unescape value := by
  unfold string_value has_escape
  split
  · rfl
  · next hno =>
    refine (json_unescape_plain fun hm => hno ?_).symm
    rw [List.contains_iff_mem]
    exact hm

inductive Scan where
  | need_more
  | error
  | found (token : Token) (rest : Bytes)
  deriving DecidableEq

variable (final : Bool)

/-- The buffer ends inside a token. -/
def stop : Scan := if final then .error else .need_more

def json_sax_is_delim (ch : ℕ) : Bool := whitespace ch || ch == 44 || ch == 93 || ch == 125

variable (lexeme : Bytes)

/-- The end of a number, which has to be seen unless no more text will come. -/
def scan_terminator : Bytes → Scan
  | [] => if final then .found (.number lexeme) [] else .need_more
  | ch :: rest =>
    if json_sax_is_delim ch then .found (.number lexeme) (ch :: rest) else .error

def scan_exp_digits : Bytes → Scan
  | [] => stop final
  | ch :: rest =>
    if is_digit ch then
      scan_terminator final (lexeme ++ ch :: rest.takeWhile is_digit) (rest.dropWhile is_digit)
    else .error

def scan_exp_sign : Bytes → Scan
  | [] => stop final
  | ch :: rest =>
    if ch = 43 ∨ ch = 45 then scan_exp_digits final (lexeme ++ [ch]) rest
    else scan_exp_digits final lexeme (ch :: rest)

def scan_exp : Bytes → Scan
  | [] => scan_terminator final lexeme []
  | ch :: rest =>
    if ch = 101 ∨ ch = 69 then scan_exp_sign final (lexeme ++ [ch]) rest
    else scan_terminator final lexeme (ch :: rest)

def scan_frac_digits : Bytes → Scan
  | [] => stop final
  | ch :: rest =>
    if is_digit ch then
      scan_exp final (lexeme ++ ch :: rest.takeWhile is_digit) (rest.dropWhile is_digit)
    else .error

def scan_frac : Bytes → Scan
  | [] => scan_exp final lexeme []
  | ch :: rest =>
    if ch = 46 then scan_frac_digits final (lexeme ++ [ch]) rest
    else scan_exp final lexeme (ch :: rest)

def scan_zero : Bytes → Scan
  | [] => scan_frac final lexeme []
  | ch :: rest => if is_digit ch then .error else scan_frac final lexeme (ch :: rest)

def scan_int : Bytes → Scan
  | [] => stop final
  | ch :: rest =>
    if ch = 48 then scan_zero final (lexeme ++ [ch]) rest
    else if is_digit ch then
      scan_frac final (lexeme ++ ch :: rest.takeWhile is_digit) (rest.dropWhile is_digit)
    else .error

def json_sax_scan_number : Bytes → Scan
  | [] => stop final
  | ch :: rest => if ch = 45 then scan_int final [ch] rest else scan_int final [] (ch :: rest)

def json_sax_scan_string (final : Bool) (value : Bytes) : Bytes → Scan
  | [] => stop final
  | ch :: rest =>
    if ch = 34 then .found (.string value) rest
    else if ch = 92 then
      match rest with
      | [] => stop final
      | letter :: rest =>
        if escape_letter letter then json_sax_scan_string final (value ++ [ch, letter]) rest
        else if letter = 117 then
          match rest with
          | a :: b :: c :: d :: rest =>
            if hex_digit a && hex_digit b && hex_digit c && hex_digit d then
              json_sax_scan_string final (value ++ [ch, letter, a, b, c, d]) rest
            else .error
          | _ => stop final
        else .error
    else if ch < 0x20 then .error
    else json_sax_scan_string final (value ++ [ch]) rest

/-- Whether the text behind a literal may stand there, as far as there is some. -/
def terminated (rest : Bytes) : Bool := rest.head?.all json_sax_is_delim

def json_sax_scan_literal (word : Bytes) (token : Token) (text : Bytes) : Scan :=
  if text.take (min text.length word.length) ≠ word.take (min text.length word.length) then .error
  else if text.length < word.length then stop final
  else if terminated (text.drop word.length) then .found token (text.drop word.length)
  else .error

def sax_match : Bytes → Scan
  | [] => .need_more
  | ch :: rest =>
    match structural_token ch with
    | some token => .found token rest
    | none =>
      match literal_word ch with
      | some (word, token) => json_sax_scan_literal final word token (ch :: rest)
      | none =>
        if ch = 34 then json_sax_scan_string final [] rest
        else if ch = 45 ∨ is_digit ch = true then json_sax_scan_number final (ch :: rest)
        else .error

def json_sax_next_token (buffer : Bytes) : Scan :=
  sax_match final (buffer.dropWhile whitespace)

inductive SaxState where
  | value
  | object_key
  | object_colon
  | object_value
  | object_comma
  | array_value
  | array_comma
  deriving DecidableEq

inductive Event where
  | null
  | bool (val : Bool)
  | number (lexeme : Bytes)
  | string (val : Bytes)
  | object_start
  | object_key (key : Bytes)
  | object_end
  | array_start
  | array_end
  deriving DecidableEq

structure SaxParser where
  state_stack : List SaxState
  state : SaxState
  done : Bool
  events : List Event
  deriving DecidableEq

def sax_max_depth : ℕ := 256

namespace SaxParser

variable (p : SaxParser)

def emit (event : Event) : SaxParser := { p with events := p.events ++ [event] }

def mark_value_complete : SaxParser :=
  match p.state with
  | .object_value => { p with state := .object_comma }
  | .array_value => { p with state := .array_comma }
  | _ => { p with done := true }

def after_container_end : SaxParser :=
  match p.state_stack with
  | [] => { p with state := .value, done := true }
  | state :: stack =>
    if stack = [] ∧ state = .value then
      { p with state_stack := stack, state := state, done := true }
    else { p with state_stack := stack, state := state }

/-- The state to come back to behind a container. -/
def resumed : SaxState → SaxState
  | .object_value => .object_comma
  | .array_value => .array_comma
  | _ => .value

def push_container (max_depth : ℕ) (next_state : SaxState) : Option SaxParser :=
  if max_depth ≤ p.state_stack.length then none
  else
    some { p with state_stack := resumed p.state :: p.state_stack, state := next_state }

def value_token (max_depth : ℕ) : Token → Option SaxParser
  | .null => some (p.emit .null).mark_value_complete
  | .true => some (p.emit (.bool true)).mark_value_complete
  | .false => some (p.emit (.bool false)).mark_value_complete
  | .number lexeme => some (p.emit (.number lexeme)).mark_value_complete
  | .string value =>
    (string_value value).map fun val => (p.emit (.string val)).mark_value_complete
  | .lbrace => (p.emit .object_start).push_container max_depth .object_key
  | .lbracket => (p.emit .array_start).push_container max_depth .array_value
  | .rbracket =>
    if p.state = .array_value then some (p.emit .array_end).after_container_end else none
  | .rbrace => none
  | .colon => none
  | .comma => none

def process_token (max_depth : ℕ) (token : Token) : Option SaxParser :=
  if p.done then none
  else
    match p.state with
    | .value => p.value_token max_depth token
    | .object_value => p.value_token max_depth token
    | .array_value => p.value_token max_depth token
    | .object_key =>
      match token with
      | .string value =>
        (string_value value).map fun key =>
          { p.emit (.object_key key) with state := .object_colon }
      | .rbrace => some (p.emit .object_end).after_container_end
      | _ => none
    | .object_colon =>
      match token with
      | .colon => some { p with state := .object_value }
      | _ => none
    | .object_comma =>
      match token with
      | .comma => some { p with state := .object_key }
      | .rbrace => some (p.emit .object_end).after_container_end
      | _ => none
    | .array_comma =>
      match token with
      | .comma => some { p with state := .array_value }
      | .rbracket => some (p.emit .array_end).after_container_end
      | _ => none

def start : SaxParser := ⟨[], .value, false, []⟩

end SaxParser

/-- Tokens are taken while there are complete ones. -/
def sax_loop (final : Bool) : ℕ → SaxParser → Bytes → Option (SaxParser × Bytes)
  | 0, _, _ => none
  | fuel + 1, p, buffer =>
    match json_sax_next_token final buffer with
    | .error => none
    | .need_more => some (p, buffer.dropWhile whitespace)
    | .found token rest =>
      match p.process_token sax_max_depth token with
      | none => none
      | some p => sax_loop final fuel p rest

def json_sax_parser_run (p : SaxParser) (buffer : Bytes) : Option (SaxParser × Bytes) :=
  sax_loop final (buffer.length + 1) p buffer

def json_sax_parser_feed (parser : SaxParser × Bytes) (data : Bytes) :
    Option (SaxParser × Bytes) :=
  if data = [] then some parser
  else json_sax_parser_run false parser.1 (parser.2 ++ data)

/-- The events of a text that has ended well. -/
def json_sax_parser_finish (parser : SaxParser × Bytes) : Option (List Event) :=
  match json_sax_parser_run true parser.1 parser.2 with
  | none => none
  | some (p, _) => if p.done then some p.events else none

def sax_parse (pieces : List Bytes) : Option (List Event) :=
  (pieces.foldlM json_sax_parser_feed (SaxParser.start, [])).bind json_sax_parser_finish

end SaltsUtils.Json
