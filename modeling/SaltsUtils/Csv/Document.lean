import SaltsUtils.Csv.Sax

/-!
# CSV documents and their lexer
-/

set_option autoImplicit false

/-!
## The CSV lexer

`csv_lexer_next` of `src/parser/csv_parser/parser/csv_lexer.re`, with the search of
`csv_lexer_simde.h` for the end of an unquoted field.
-/

namespace SaltsUtils.Csv

/-- The bytes that end an unquoted field. -/
def isSpecial (c : UInt8) : Bool :=
  c == nul || c == comma || c == doubleQuote || c == cr || c == lf

def csv_find_unquoted_field_end_scalar : Bytes → ℕ
  | [] => 0
  | c::rest => if isSpecial c then 0 else csv_find_unquoted_field_end_scalar rest + 1

/-- Blocks of 16 bytes are compared at once, and the lowest bit of the mask is the first special
byte of a block. -/
def csv_find_unquoted_field_end_simde : ℕ → Bytes → ℕ
  | 0, text => csv_find_unquoted_field_end_scalar text
  | blocks + 1, text =>
    if 16 ≤ text.length then
      let special_mask := (text.take 16).map isSpecial
      if special_mask.all (· = false) then
        csv_find_unquoted_field_end_simde blocks (text.drop 16) + 16
      else special_mask.findIdx (· = true)
    else csv_find_unquoted_field_end_scalar text

theorem find_scalar_append (block rest : Bytes) (h : ∀ c ∈ block, isSpecial c = false) :
    csv_find_unquoted_field_end_scalar (block ++ rest) =
      csv_find_unquoted_field_end_scalar rest + block.length := by
  induction block with
  | nil => rfl
  | cons c block ih =>
    have hc : isSpecial c = false := h c (by simp)
    have ih := ih fun d hd => h d (by simp [hd])
    simp only [List.cons_append, csv_find_unquoted_field_end_scalar, hc, ih, List.length_cons]
    simp
    omega

theorem find_scalar_of_mem (block rest : Bytes) (h : ∃ c ∈ block, isSpecial c = true) :
    csv_find_unquoted_field_end_scalar (block ++ rest) = (block.map isSpecial).findIdx (· = true) := by
  induction block with
  | nil => simp at h
  | cons c block ih =>
    cases hc : isSpecial c with
    | true => simp [csv_find_unquoted_field_end_scalar, hc, List.findIdx_cons]
    | false =>
      have ih := ih (by
        obtain ⟨d, hd, hs⟩ := h
        rcases List.mem_cons.mp hd with rfl | hd
        · rw [hc] at hs
          cases hs
        · exact ⟨d, hd, hs⟩)
      simp [csv_find_unquoted_field_end_scalar, hc, List.findIdx_cons, ih]

theorem find_simde_eq (blocks : ℕ) : ∀ text, csv_find_unquoted_field_end_simde blocks text =
    csv_find_unquoted_field_end_scalar text := by
  induction blocks with
  | zero =>
    intro text
    rfl
  | succ blocks ih =>
    intro text
    rw [csv_find_unquoted_field_end_simde]
    dsimp only
    split_ifs with hlen hmask
    · have hblock : ∀ c ∈ text.take 16, isSpecial c = false := by
        intro c hc
        have := List.all_eq_true.mp hmask (isSpecial c) (List.mem_map_of_mem hc)
        simpa using this
      have := find_scalar_append (text.take 16) (text.drop 16) hblock
      rw [List.take_append_drop, List.length_take] at this
      rw [this, ih]
      omega
    · have hblock : ∃ c ∈ text.take 16, isSpecial c = true := by
        by_contra hno
        apply hmask
        simp only [List.all_eq_true, List.mem_map]
        rintro b ⟨c, hc, rfl⟩
        have : ¬ isSpecial c = true := fun h => hno ⟨c, hc, h⟩
        simpa using this
      have := find_scalar_of_mem (text.take 16) (text.drop 16) hblock
      rw [List.take_append_drop] at this
      rw [this]
    · rfl

/-- The token `"\x22" quoted_char* "\x22"` after its first quote: the bytes between the quotes and
the rest of the text. -/
def matchQuoted : Bytes → Option (Bytes × Bytes)
  | [] => none
  | c::rest =>
    if c = nul then none
    else if c = doubleQuote then
      match rest with
      | [] => some ([], [])
      | d::rest' =>
        if d = doubleQuote then
          match matchQuoted rest' with
          | some (raw, after) => some (c::d::raw, after)
          | none => some ([], d::rest')
        else some ([], d::rest')
    else (matchQuoted rest).map fun m => (c::m.1, m.2)

def has_escaped_quote : Bytes → Bool
  | c::d::rest => (c == doubleQuote && d == doubleQuote) || has_escaped_quote (d::rest)
  | _ => false

inductive TokenType
  | field | comma | newline
deriving DecidableEq

structure CsvToken where
  type : TokenType
  value : Bytes := []
  needs_unescape : Bool := false
deriving DecidableEq

structure CsvLexer where
  rest : Bytes
  line : ℕ := 1
  column : ℕ := 1
  error : String := ""
deriving DecidableEq

def csv_lexer_init (input : Bytes) : CsvLexer := { rest := input }

inductive LexerState
  | rowStart | afterField | afterComma
deriving DecidableEq

inductive LexerReturn
  | token (token : CsvToken)
  | done
  | error
deriving DecidableEq

structure LexerStep where
  ret : LexerReturn
  lexer : CsvLexer
  state : LexerState
deriving DecidableEq

def hexDigits (n : ℕ) : String :=
  let digit := fun k : ℕ => "0123456789ABCDEF".toList.getD k '0'
  String.ofList [digit (n / 16 % 16), digit (n % 16)]

def lexerError (lexer : CsvLexer) (c : UInt8) : String :=
  "Unexpected character 0x" ++ hexDigits c.toNat ++ " at line " ++ toString lexer.line ++
    ", column " ++ toString lexer.column

/-- The position behind the bytes of a token. -/
def CsvLexer.advance (lexer : CsvLexer) (token : Bytes) (rest : Bytes) : CsvLexer :=
  token.foldl (fun l c => if c = lf then { l with line := l.line + 1, column := 1 }
    else { l with column := l.column + 1 }) { lexer with rest := rest }

def csv_lexer_rules (lexer : CsvLexer) (state : LexerState) (c : UInt8) (rest : Bytes) :
    LexerStep :=
  let failed : LexerStep :=
    ⟨.error, { lexer with rest := rest, error := lexerError lexer c }, state⟩
  if c = comma then
    ⟨.token { type := .comma, value := [c] },
      { lexer with rest := rest, column := lexer.column + 1 }, .afterComma⟩
  else if c = lf then
    ⟨.token { type := .newline, value := [c] },
      { lexer with rest := rest, line := lexer.line + 1, column := 1 }, .rowStart⟩
  else if c = cr then
    match rest with
    | d::rest' =>
      if d = lf then
        ⟨.token { type := .newline, value := [c, d] },
          { lexer with rest := rest', line := lexer.line + 1, column := 1 }, .rowStart⟩
      else failed
    | [] => failed
  else if c = doubleQuote then
    match matchQuoted rest with
    | some (raw, after) =>
      ⟨.token { type := .field, value := raw, needs_unescape := has_escaped_quote raw },
        lexer.advance (c::raw ++ [c]) after, .afterField⟩
    | none => failed
  else failed

/-- One token, or a synthetic empty field between two separators. -/
def csv_lexer_next (lexer : CsvLexer) (state : LexerState) : LexerStep :=
  let emptyField : LexerStep := ⟨.token { type := .field }, lexer, .afterField⟩
  match lexer.rest with
  | [] =>
    if state = .afterComma then emptyField else ⟨.done, lexer, .rowStart⟩
  | c::rest =>
    if state = .afterComma ∧ (c = comma ∨ c = lf ∨ c = cr) then emptyField
    else if state = .rowStart ∧ c = comma then emptyField
    else
      let n := csv_find_unquoted_field_end_simde ((c::rest).length / 16 + 1) (c::rest)
      if 0 < n then
        ⟨.token { type := .field, value := (c::rest).take n },
          { lexer with rest := (c::rest).drop n, column := lexer.column + n }, .afterField⟩
      else csv_lexer_rules lexer state c rest

def csv_lexer_reset_state : LexerState := .rowStart

/-!
## CSV documents

`csv_parse_opts` of `src/parser/csv_parser/src/csv_parser.c`: the lexer for the
default format, the scanner for any other. A row is the list of its fields.
Memory is taken to be available.
-/

abbrev Row := List Bytes

structure CsvDoc where
  header : Option Row := none
  rows : List Row := []
  column_count : ℕ := 0
deriving DecidableEq

def CsvDoc.row_count (doc : CsvDoc) : ℕ := doc.rows.length

def unescape_quotes_impl : Bytes → Bytes
  | [] => []
  | c::rest =>
    match rest with
    | d::rest' =>
      if c = doubleQuote ∧ d = doubleQuote then doubleQuote::unescape_quotes_impl rest'
      else c::unescape_quotes_impl (d::rest')
    | [] => [c]

def csv_doc_add_row (doc : CsvDoc) (row : Row) : CsvDoc :=
  { doc with
    rows := doc.rows ++ [row]
    column_count := if row.length > doc.column_count then row.length else doc.column_count }

/-- The row with which the text ends, and the rows that a newline ends, are kept if they have a
field. -/
def addNonempty (doc : CsvDoc) (row : Row) : CsvDoc :=
  if row.length > 0 then csv_doc_add_row doc row else doc

def CsvToken.fieldValue (token : CsvToken) : Bytes :=
  if token.needs_unescape then unescape_quotes_impl token.value else token.value

def csv_parse_loop : ℕ → CsvLexer → LexerState → Row → CsvDoc → Except String CsvDoc
  | 0, _, _, _, _ => .error "Out of memory parsing CSV rows"
  | fuel + 1, lexer, state, current_row, doc =>
    let step := csv_lexer_next lexer state
    match step.ret with
    | .token token =>
      match token.type with
      | .field =>
        csv_parse_loop fuel step.lexer step.state (current_row ++ [token.fieldValue]) doc
      | .comma => csv_parse_loop fuel step.lexer step.state current_row doc
      | .newline => csv_parse_loop fuel step.lexer step.state [] (addNonempty doc current_row)
    | .done => .ok (addNonempty doc current_row)
    | .error => .error step.lexer.error

def lexerFuel (content : Bytes) : ℕ := 2 * content.length + 2

/-- `csv_dom_scan_field` and `csv_dom_scan_row_end`: the row that is being read is made by its
first field, or by its end. -/
def csv_dom_scan (scan : CsvDoc × Option Row) : CsvEvent → CsvDoc × Option Row
  | .rowStart _ => scan
  | .field _ _ value => (scan.1, some (scan.2.getD [] ++ [value]))
  | .rowEnd _ _ => (csv_doc_add_row scan.1 (scan.2.getD []), none)

/-- The document that the calls of a reader build. -/
def csv_dom_doc (log : List CsvEvent) : CsvDoc := (log.foldl csv_dom_scan ({}, none)).1

/-- The callbacks of the document builder return 0. -/
def succeeds : CsvCallback := some fun _ => true

def csv_opts_use_fast_lexer (opts : Option CsvOptions) : Bool :=
  let normalized := csv_normalize_opts opts
  normalized.delimiter = comma && normalized.quote = doubleQuote && normalized.skip_empty_rows

def takeHeader (doc : CsvDoc) : CsvDoc :=
  match doc.rows with
  | [] => doc
  | header::rows => { doc with header := some header, rows := rows }

def csv_parse_opts (content : Bytes) (opts : Option CsvOptions) : Except String CsvDoc :=
  if content = [] then .error "Empty input"
  else do
    let doc ←
      if csv_opts_use_fast_lexer opts then
        csv_parse_loop (lexerFuel content) (csv_lexer_init content) csv_lexer_reset_state [] {}
      else
        let out := csv_scan_opts succeeds succeeds content (some (csv_normalize_opts opts))
        if out.success then .ok (csv_dom_doc out.log) else .error (out.error.getD "")
    pure (if (csv_normalize_opts opts).has_header then takeHeader doc else doc)

def csv_parse (content : Bytes) : Except String CsvDoc := csv_parse_opts content none

/-- A handler for `csv_parse_stream` that takes note of all that it is told. -/
def recorder : CsvStreamHandler := ⟨succeeds, succeeds, succeeds⟩

def csv_parse_stream (content : Bytes) : CsvOutcome := csv_parse_stream_opts recorder content none

end SaltsUtils.Csv
