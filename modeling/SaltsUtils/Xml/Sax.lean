import Mathlib.Data.List.Basic

/-!
# The incremental XML parser

The buffer of a parser is what its calls have left unread.
-/

set_option autoImplicit false

namespace SaltsUtils.Xml

abbrev Bytes := List ℕ

def sax_max_depth : ℕ := 256

inductive Event where
  | start_document
  | end_document
  | element_start (name : Bytes)
  | attribute (name value : Bytes)
  | element_end (name : Bytes)
  | text (text : Bytes)
  | comment (text : Bytes)
  | cdata (text : Bytes)
  | processing_instruction (target data : Bytes)
  | doctype (text : Bytes)
  deriving DecidableEq

/-- `callback` answers for the last of the events, `dup` and `cat` for the allocations of
a name and of the buffer. -/
structure Env where
  callback : List Event → Bool
  dup : List Event → Bool
  cat : List Event → Bool

/-- The innermost name of the stack is its first. -/
structure Parser where
  events : List Event
  buffer : Bytes
  max_buffer_bytes : ℕ
  stack : List Bytes
  started : Bool
  finished : Bool
  root_seen : Bool
  root_closed : Bool
  error : Option String
  deriving DecidableEq

/-- A call that fails leaves the parser it has come to. -/
abbrev Outcome := Except Parser

def Parser.set_error (p : Parser) (message : String) : Parser :=
  if p.error.isSome then p else { p with error := some message }

def fail {α : Type} (p : Parser) (message : String) : Outcome α := .error (p.set_error message)

variable (env : Env)

def deliver (p : Parser) (event : Event) : Outcome Parser :=
  if env.callback (p.events ++ [event]) then .ok { p with events := p.events ++ [event] }
  else fail { p with events := p.events ++ [event] } "SAX callback failed"

def is_ws (c : ℕ) : Bool := c = 32 || c = 9 || c = 10 || c = 13

def is_name_start (c : ℕ) : Bool := (65 ≤ c && c ≤ 90) || (97 ≤ c && c ≤ 122) || c = 95 || c = 58

def is_name_char (c : ℕ) : Bool := is_name_start c || (48 ≤ c && c ≤ 57) || c = 45 || c = 46

inductive Scan (α : Type) where
  | more
  | error (message : String)
  | found (item : α) (rest : Bytes)

def starved {α : Type} (final : Bool) (message : String) : Scan α :=
  if final then .error message else .more

def Scan.bind {α β : Type} (s : Scan α) (f : α → Bytes → Scan β) : Scan β :=
  match s with
  | .more => .more
  | .error message => .error message
  | .found item rest => f item rest

def Scan.cons (c : ℕ) : Scan Bytes → Scan Bytes
  | .more => .more
  | .error message => .error message
  | .found item rest => .found (c :: item) rest

variable (final : Bool)

def parse_name : Bytes → Scan Bytes
  | [] => starved final "Expected XML name"
  | c :: text =>
    if is_name_start c then .found (c :: text.takeWhile is_name_char) (text.dropWhile is_name_char)
    else .error "Expected XML name"

/-- What stands before the needle, and the text behind it. -/
def find_until (final : Bool) (needle : Bytes) (err : String) : Bytes → Scan Bytes
  | [] => starved final err
  | c :: text =>
    if needle <+: c :: text then .found [] ((c :: text).drop needle.length)
    else (find_until final needle err text).cons c

/-- The text before the first `>` that is neither quoted nor inside brackets. -/
def scan_markup_end (final : Bool) (err : String) : Option ℕ → ℕ → Bytes → Scan Bytes
  | _, _, [] => starved final err
  | some quote, bracket_depth, c :: text =>
    (scan_markup_end final err (if c = quote then none else some quote) bracket_depth text).cons c
  | none, bracket_depth, c :: text =>
    if c = 34 ∨ c = 39 then (scan_markup_end final err (some c) bracket_depth text).cons c
    else if c = 91 then (scan_markup_end final err none (bracket_depth + 1) text).cons c
    else if c = 93 ∧ 0 < bracket_depth then
      (scan_markup_end final err none (bracket_depth - 1) text).cons c
    else if c = 62 ∧ bracket_depth = 0 then .found [] text
    else (scan_markup_end final err none bracket_depth text).cons c

/-- A character behind white space. -/
def expect (wanted : ℕ) (missing wrong : String) (text : Bytes) : Scan Unit :=
  match text.dropWhile is_ws with
  | [] => starved final missing
  | c :: rest => if c = wanted then .found () rest else .error wrong

/-- The text up to the closing quote. -/
def scan_value (final : Bool) (quote : ℕ) : Bytes → Scan Bytes
  | [] => starved final "Unterminated XML attribute value"
  | c :: text =>
    if c = quote then .found [] text
    else if c = 60 then .error "Invalid < in XML attribute value"
    else (scan_value final quote text).cons c

def quoted_value (text : Bytes) : Scan Bytes :=
  match text.dropWhile is_ws with
  | [] => starved final "Expected quoted XML attribute value"
  | quote :: rest =>
    if quote = 34 ∨ quote = 39 then scan_value final quote rest
    else .error "Expected quoted XML attribute value"

def parse_attribute (text : Bytes) : Scan (Bytes × Bytes) :=
  (parse_name final text).bind fun name rest =>
    (expect final 61 "Expected = after XML attribute" "Expected = after XML attribute" rest).bind
      fun _ rest => (quoted_value final rest).bind fun value rest => .found (name, value) rest

/-- Runs over the attributes of a start tag to its end: whether it closes itself, and the
text from `>` or `/>` on. -/
def scan_start_tag (final : Bool) : ℕ → Bytes → Scan Bool
  | 0, _ => .more
  | rounds + 1, text =>
    match text.dropWhile is_ws with
    | [] => starved final "Unterminated start tag"
    | c :: rest =>
      if c = 62 then .found false (c :: rest)
      else if c = 47 ∧ rest.head? = some 62 then .found true (c :: rest)
      else if c = 47 ∧ rest = [] then starved final "Unterminated start tag"
      else (parse_attribute final (c :: rest)).bind fun _ rest => scan_start_tag final rounds rest

def start_document (env : Env) (p : Parser) : Outcome Parser :=
  if p.started then .ok p else deliver env { p with started := true } .start_document

def emit_text (p : Parser) (text : Bytes) : Outcome Parser :=
  if text = [] then .ok p
  else if p.stack = [] then
    if text.all is_ws then .ok p else fail p "Text outside root element"
  else deliver env p (.text text)

def emit_doctype (p : Parser) (text : Bytes) : Outcome Parser :=
  if p.root_seen then fail p "DOCTYPE after root element" else deliver env p (.doctype text)

def push (p : Parser) (name : Bytes) : Outcome Parser :=
  if sax_max_depth ≤ p.stack.length then fail p "Max XML depth exceeded"
  else if env.dup p.events then .ok { p with stack := name :: p.stack }
  else fail p "Out of memory"

def pop (p : Parser) (name : Bytes) : Outcome Parser :=
  match p.stack with
  | [] => fail p "Unexpected closing element"
  | top :: stack =>
    if top = name then
      .ok { p with stack := stack, root_closed := p.root_closed || decide (stack = []) }
    else fail p "Mismatched closing element"

/-- The second scan of a start tag, over what stands between its name and its end. -/
def emit_attributes (env : Env) : ℕ → Parser → Bytes → Outcome Parser
  | 0, p, _ => .ok p
  | rounds + 1, p, text =>
    if text.dropWhile is_ws = [] then .ok p
    else
      match parse_attribute true (text.dropWhile is_ws) with
      | .more => .error p
      | .error message => fail p message
      | .found (name, value) rest => do
        let p ← deliver env p (.attribute name value)
        emit_attributes env rounds p rest

/-- An element that stands at the top has been seen. -/
def Parser.see_root (p : Parser) : Parser :=
  { p with root_seen := p.root_seen || decide (p.stack = []) }

def Parser.close_root (p : Parser) : Parser :=
  { p with root_closed := p.root_closed || decide (p.stack = []) }

def emit_start_tag (p : Parser) (name body : Bytes) (self_closing : Bool) : Outcome Parser :=
  if p.root_closed then fail p "Multiple root elements"
  else do
    let p ← deliver env p.see_root (.element_start name)
    let p ← emit_attributes env (body.length + 1) p body
    if self_closing then do
      let p ← deliver env p (.element_end name)
      return p.close_root
    else push env p name

/-- What a step makes of the parser and the text; `none` is a text that ends too early. -/
abbrev Step := Outcome (Option (Parser × Bytes))

def scanned {α : Type} (p : Parser) (s : Scan α) (next : α → Bytes → Step) : Step :=
  match s with
  | .more => .ok none
  | .error message => fail p message
  | .found item rest => next item rest

def consumed (r : Outcome Parser) (rest : Bytes) : Step := r.map fun p => some (p, rest)

def comment_open : Bytes := [60, 33, 45, 45]
def cdata_open : Bytes := [60, 33, 91, 67, 68, 65, 84, 65, 91]
def pi_close : Bytes := [63, 62]
def comment_close : Bytes := [45, 45, 62]
def cdata_close : Bytes := [93, 93, 62]

def parse_pi (p : Parser) (text : Bytes) : Step :=
  scanned p (find_until final pi_close "Unterminated processing instruction" text)
    fun content rest =>
      scanned p (parse_name true content) fun target body =>
        consumed (deliver env p (.processing_instruction target (body.dropWhile is_ws))) rest

def parse_comment (p : Parser) (text : Bytes) : Step :=
  scanned p (find_until final comment_close "Unterminated comment" text) fun content rest =>
    consumed (deliver env p (.comment content)) rest

def parse_cdata (p : Parser) (text : Bytes) : Step :=
  scanned p (find_until final cdata_close "Unterminated CDATA" text) fun content rest =>
    consumed (deliver env p (.cdata content)) rest

def parse_doctype (p : Parser) (text : Bytes) : Step :=
  scanned p (scan_markup_end final "Unterminated DOCTYPE" none 0 text) fun content rest =>
    consumed (emit_doctype env p content) rest

def parse_start_tag (p : Parser) (text : Bytes) : Step :=
  scanned p (parse_name final text) fun name rest =>
    scanned p (scan_start_tag final (rest.length + 1) rest) fun self_closing tail =>
      consumed
        (emit_start_tag env p name (rest.take (rest.length - tail.length)) self_closing)
        (tail.drop (if self_closing then 2 else 1))

def parse_end_tag (p : Parser) (text : Bytes) : Step :=
  scanned p (parse_name final text) fun name rest =>
    scanned p (expect final 62 "Unterminated closing tag" "Expected > after closing element" rest)
      fun _ rest =>
        consumed ((pop p name).bind fun p => deliver env p (.element_end name)) rest

/-- Markup that is neither a comment nor a CDATA section, behind its `<`. -/
def parse_tag (p : Parser) : Bytes → Step
  | [] => parse_start_tag env final p []
  | c :: text =>
    if c = 33 then parse_doctype env final p text
    else if c = 63 then parse_pi env final p text
    else if c = 47 then parse_end_tag env final p text
    else parse_start_tag env final p (c :: text)

/-- The text starts with `<`. -/
def parse_markup (p : Parser) (text : Bytes) : Step :=
  if text.length < 2 then scanned p (starved (α := Unit) final "Unterminated markup") fun _ _ =>
    .ok none
  else if text.take 4 = comment_open.take text.length then
    if text.length < 4 then
      scanned p (starved (α := Unit) final "Unterminated comment") fun _ _ => .ok none
    else parse_comment env final p (text.drop 4)
  else if text.take 9 = cdata_open then parse_cdata env final p (text.drop 9)
  else if text.length < 9 ∧ text = cdata_open.take text.length then
    scanned p (starved (α := Unit) final "Unterminated CDATA") fun _ _ => .ok none
  else parse_tag env final p (text.drop 1)

def sax_loop (env : Env) (final : Bool) : ℕ → Parser → Bytes → Outcome (Parser × Bytes)
  | 0, p, text => .ok (p, text)
  | rounds + 1, p, text =>
    match text.dropWhile (· != 60) with
    | [] =>
      if p.stack = [] ∧ final = false then .ok (p, text)
      else (emit_text env p text).map fun p => (p, [])
    | markup => do
      let p ← emit_text env p (text.takeWhile (· != 60))
      match ← parse_markup env final p markup with
      | none => .ok (p, markup)
      | some (p, rest) => sax_loop env final rounds p rest

def sax_run (p : Parser) : Outcome Parser := do
  let p ← start_document env p
  let (p, rest) ← sax_loop env final (p.buffer.length + 1) p p.buffer
  return { p with buffer := rest }

/-- The status of a call and the parser behind it. -/
def returned : Outcome Parser → Bool × Parser
  | .ok p => (true, p)
  | .error p => (false, p)

def buffer_limit : String := "XML SAX pending buffer limit exceeded"

def sax_parser_create (max_buffer_bytes : ℕ) : Parser :=
  ⟨[], [], max_buffer_bytes, [], false, false, false, false, none⟩

def sax_parser_feed (p : Parser) (data : Bytes) : Bool × Parser :=
  if p.error.isSome then (false, p)
  else if p.finished then (false, p.set_error "Parser already finished")
  else if data = [] then (true, p)
  else if 0 ∈ data then (false, p.set_error "Embedded NUL in XML input")
  else if p.max_buffer_bytes - p.buffer.length < data.length then (false, p.set_error buffer_limit)
  else if env.cat p.events then
    returned (sax_run env false { p with buffer := p.buffer ++ data })
  else (false, p.set_error "Out of memory")

/-- What a finish makes sure of behind the last run. -/
def sax_end (p : Parser) : Outcome Parser :=
  if p.stack ≠ [] then fail p "Unclosed XML element"
  else if !p.root_seen then fail p "Expected XML root element"
  else deliver env p .end_document

def sax_parser_finish (p : Parser) : Bool × Parser :=
  if p.error.isSome then (false, p)
  else if p.finished then (false, p.set_error "Parser already finished")
  else returned ((sax_run env true { p with finished := true }).bind (sax_end env))

def sax_feeds (env : Env) : Parser → List Bytes → Bool × Parser
  | p, [] => (true, p)
  | p, data :: pieces =>
    let r := sax_parser_feed env p data
    let s := sax_feeds env r.2 pieces
    (r.1 && s.1, s.2)

/-- A parser fed with the pieces of a text and finished. -/
def sax_session (max_buffer_bytes : ℕ) (pieces : List Bytes) : Bool × Parser :=
  let r := sax_feeds env (sax_parser_create max_buffer_bytes) pieces
  let s := sax_parser_finish env r.2
  (r.1 && s.1, s.2)

end SaltsUtils.Xml
