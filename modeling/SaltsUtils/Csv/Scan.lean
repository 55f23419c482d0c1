import Mathlib.Data.List.Basic

/-!
# The one-shot CSV scanner

`csv_scan_opts` of `src/parser/csv_parser/src/csv_parser.c` and the options and callbacks
that it shares with the other readers. A text is its list of bytes.
-/

set_option autoImplicit false

namespace SaltsUtils.Csv

abbrev Bytes := List UInt8

def nul : UInt8 := 0
def lf : UInt8 := 10
def cr : UInt8 := 13
def doubleQuote : UInt8 := 34
def comma : UInt8 := 44

structure CsvOptions where
  has_header : Bool := false
  delimiter : UInt8 := comma
  quote : UInt8 := doubleQuote
  skip_empty_rows : Bool := true
deriving DecidableEq

/-- No options stand for the default ones, and a NUL for the default byte. -/
def csv_normalize_opts : Option CsvOptions → CsvOptions
  | none => {}
  | some opts =>
    { opts with
      delimiter := if opts.delimiter = nul then comma else opts.delimiter
      quote := if opts.quote = nul then doubleQuote else opts.quote }

/-- The calls that a reader makes. -/
inductive CsvEvent
  | rowStart (row : ℕ)
  | field (row col : ℕ) (value : Bytes)
  | rowEnd (row field_count : ℕ)
deriving DecidableEq

abbrev CsvCallback := Option (List CsvEvent → Bool)

def CsvCallback.call (callback : CsvCallback) (event : CsvEvent) (log : List CsvEvent) :
    List CsvEvent × Bool :=
  match callback with
  | none => (log, true)
  | some answer => (log ++ [event], answer (log ++ [event]))

structure CsvScan where
  field : Bytes := []
  row : ℕ := 0
  col : ℕ := 0
  in_quote : Bool := false
  field_started : Bool := false
  row_started : Bool := false
  log : List CsvEvent := []
deriving DecidableEq

/-- A call that returned 0 or not, and what follows if it did: `if (call != 0) goto fail;`. -/
def andThen {σ : Type} (r : σ × Bool) (next : σ → σ × Bool) : σ × Bool :=
  if r.2 then next r.1 else r

theorem andThen_ok {σ : Type} (q : σ) (next : σ → σ × Bool) : andThen (q, true) next = next q := rfl

theorem andThen_assoc {σ : Type} (r : σ × Bool) (f g : σ → σ × Bool) :
    andThen (andThen r f) g = andThen r fun q => andThen (f q) g := by
  obtain ⟨q, ok⟩ := r
  cases ok <;> rfl

section Scan
variable (o : CsvOptions) (field_cb row_end_cb : CsvCallback)

def csv_scan_emit_field (s : CsvScan) : CsvScan × Bool :=
  let answer := field_cb.call (.field s.row s.col s.field) s.log
  ({ s with log := answer.1 }, answer.2)

def csv_scan_row_end (s : CsvScan) : CsvScan × Bool :=
  let answer := row_end_cb.call (.rowEnd s.row s.col) s.log
  ({ s with log := answer.1 }, answer.2)

def csv_scan_end_row (s : CsvScan) : CsvScan × Bool :=
  andThen
    (if s.row_started || s.field_started then
      andThen (csv_scan_emit_field field_cb s) fun s => ({ s with col := s.col + 1 }, true)
    else (s, true))
    (csv_scan_row_end row_end_cb)

def csv_scan_newline (s : CsvScan) : CsvScan × Bool :=
  andThen
    (if s.row_started || s.field_started || !o.skip_empty_rows then
      andThen (csv_scan_end_row field_cb row_end_cb s) fun s => ({ s with row := s.row + 1 }, true)
    else (s, true))
    fun s => ({ s with col := 0, field := [], field_started := false, row_started := false }, true)

/-- The loop over the bytes: the state at the end of the text, or at the callback that failed. -/
def csv_scan_loop : Bytes → CsvScan → CsvScan × Bool
  | [], s => (s, true)
  | ch::rest, s =>
    if s.in_quote then
      if ch = o.quote then
        match rest with
        | next::rest' =>
          if next = o.quote then
            csv_scan_loop rest'
              { s with field := s.field ++ [o.quote], field_started := true, row_started := true }
          else
            csv_scan_loop (next::rest')
              { s with in_quote := false, field_started := true, row_started := true }
        | [] =>
          csv_scan_loop []
            { s with in_quote := false, field_started := true, row_started := true }
      else
        csv_scan_loop rest
          { s with field := s.field ++ [ch], field_started := true, row_started := true }
    else if s.field_started = false ∧ ch = o.quote then
      csv_scan_loop rest { s with in_quote := true, field_started := true, row_started := true }
    else if ch = o.delimiter then
      andThen (csv_scan_emit_field field_cb s) fun s =>
        csv_scan_loop rest
          { s with col := s.col + 1, field := [], field_started := false, row_started := true }
    else if ch = cr ∨ ch = lf then
      andThen (csv_scan_newline o field_cb row_end_cb s) fun s =>
        match rest with
        | next::rest' =>
          if ch = cr ∧ next = lf then csv_scan_loop rest' s else csv_scan_loop (next::rest') s
        | [] => csv_scan_loop [] s
    else
      csv_scan_loop rest
        { s with field := s.field ++ [ch], field_started := true, row_started := true }

theorem scan_loop_cons (ch : UInt8) (rest : Bytes) (s : CsvScan) :
    csv_scan_loop o field_cb row_end_cb (ch::rest) s =
      if s.in_quote then
        if ch = o.quote then
          if rest.head? = some o.quote then
            csv_scan_loop o field_cb row_end_cb rest.tail
              { s with field := s.field ++ [o.quote], field_started := true, row_started := true }
          else
            csv_scan_loop o field_cb row_end_cb rest
              { s with in_quote := false, field_started := true, row_started := true }
        else
          csv_scan_loop o field_cb row_end_cb rest
            { s with field := s.field ++ [ch], field_started := true, row_started := true }
      else if s.field_started = false ∧ ch = o.quote then
        csv_scan_loop o field_cb row_end_cb rest
          { s with in_quote := true, field_started := true, row_started := true }
      else if ch = o.delimiter then
        andThen (csv_scan_emit_field field_cb s) fun s =>
          csv_scan_loop o field_cb row_end_cb rest
            { s with col := s.col + 1, field := [], field_started := false, row_started := true }
      else if ch = cr ∨ ch = lf then
        andThen (csv_scan_newline o field_cb row_end_cb s) fun s =>
          if ch = cr ∧ rest.head? = some lf then csv_scan_loop o field_cb row_end_cb rest.tail s
          else csv_scan_loop o field_cb row_end_cb rest s
      else
        csv_scan_loop o field_cb row_end_cb rest
          { s with field := s.field ++ [ch], field_started := true, row_started := true } := by
  cases rest with
  | nil => simp [csv_scan_loop]
  | cons next rest =>
    simp only [List.head?_cons, Option.some.injEq, List.tail_cons]
    rfl

/-- What a reader did: its calls, whether it returned 0, and its error text. -/
structure CsvOutcome where
  log : List CsvEvent
  success : Bool
  error : Option String
deriving DecidableEq

/-- The row that the end of the text closes. -/
def csv_scan_finish (s : CsvScan) : CsvOutcome :=
  if s.in_quote then ⟨s.log, false, some "Unterminated quoted field"⟩
  else if s.row_started || s.field_started then
    let last := csv_scan_end_row field_cb row_end_cb s
    ⟨last.1.log, last.2, none⟩
  else ⟨s.log, true, none⟩

def csv_scan_opts (content : Bytes) (opts : Option CsvOptions) : CsvOutcome :=
  let scanned := csv_scan_loop (csv_normalize_opts opts) field_cb row_end_cb content {}
  if scanned.2 then csv_scan_finish field_cb row_end_cb scanned.1
  else ⟨scanned.1.log, false, none⟩

end Scan

end SaltsUtils.Csv
