import SaltsUtils.Csv.Scan

/-!
# The incremental CSV parser

`csv_sax_parser_feed` and `csv_sax_parser_finish` of
`src/parser/csv_parser/src/csv_parser.c`.
-/

set_option autoImplicit false

namespace SaltsUtils.Csv

structure CsvStreamHandler where
  on_row_start : CsvCallback
  on_field : CsvCallback
  on_row_end : CsvCallback

structure CsvSaxParser where
  opts : CsvOptions
  field : Bytes := []
  row : ℕ := 0
  col : ℕ := 0
  in_quote : Bool := false
  quote_pending : Bool := false
  field_started : Bool := false
  row_started : Bool := false
  row_open : Bool := false
  skip_lf : Bool := false
  finished : Bool := false
  failed : Bool := false
  error : Option String := none
  log : List CsvEvent := []
deriving DecidableEq

section Parser
variable (handler : CsvStreamHandler)

def csv_sax_fail (p : CsvSaxParser) (message : String) : CsvSaxParser × Bool :=
  ({ p with failed := true, error := some message }, false)

def csv_sax_call (callback : CsvCallback) (event : CsvEvent) (message : String)
    (p : CsvSaxParser) : CsvSaxParser × Bool :=
  let answer := callback.call event p.log
  let p := { p with log := answer.1 }
  if answer.2 then (p, true) else csv_sax_fail p message

def csv_sax_start_row (p : CsvSaxParser) : CsvSaxParser × Bool :=
  if p.row_open then (p, true)
  else csv_sax_call handler.on_row_start (.rowStart p.row) "CSV row callback failed"
    { p with row_open := true }

def csv_sax_emit_field (p : CsvSaxParser) : CsvSaxParser × Bool :=
  andThen (csv_sax_start_row handler p) fun p =>
  andThen (csv_sax_call handler.on_field (.field p.row p.col p.field)
    "CSV field callback failed" p) fun p =>
  ({ p with col := p.col + 1, field := [], field_started := false }, true)

def csv_sax_close_row (p : CsvSaxParser) : CsvSaxParser × Bool :=
  andThen (csv_sax_start_row handler p) fun p =>
  andThen (csv_sax_call handler.on_row_end (.rowEnd p.row p.col)
    "CSV row callback failed" p) fun p =>
  ({ p with row := p.row + 1, col := 0, row_started := false, row_open := false }, true)

def csv_sax_end_row (p : CsvSaxParser) (has_field : Bool) : CsvSaxParser × Bool :=
  if has_field then andThen (csv_sax_emit_field handler p) (csv_sax_close_row handler)
  else csv_sax_close_row handler p

def csv_sax_parser_create (opts : Option CsvOptions) : CsvSaxParser :=
  { opts := csv_normalize_opts opts }

/-- A carriage return or a line feed outside quotes. -/
def csv_sax_newline (p : CsvSaxParser) : CsvSaxParser × Bool :=
  let has_field := p.row_started || p.field_started
  if has_field || !p.opts.skip_empty_rows then csv_sax_end_row handler p has_field
  else (p, true)

/-- A byte outside quotes. -/
def csv_sax_plain (p : CsvSaxParser) (ch : UInt8) : CsvSaxParser × Bool :=
  if p.field_started = false ∧ ch = p.opts.quote then
    ({ p with in_quote := true, field_started := true, row_started := true }, true)
  else if ch = p.opts.delimiter then
    andThen (csv_sax_emit_field handler p) fun p => ({ p with row_started := true }, true)
  else if ch = cr ∨ ch = lf then
    andThen (csv_sax_newline handler p) fun p =>
      (if ch = cr then { p with skip_lf := true } else p, true)
  else
    ({ p with field := p.field ++ [ch], field_started := true, row_started := true }, true)

def csv_sax_byte (p : CsvSaxParser) (ch : UInt8) : CsvSaxParser × Bool :=
  if p.in_quote then
    if p.quote_pending then
      if ch = p.opts.quote then
        ({ p with field := p.field ++ [p.opts.quote], quote_pending := false,
                  field_started := true, row_started := true }, true)
      else csv_sax_plain handler { p with quote_pending := false, in_quote := false } ch
    else if ch = p.opts.quote then ({ p with quote_pending := true }, true)
    else
      ({ p with field := p.field ++ [ch], field_started := true, row_started := true }, true)
  else csv_sax_plain handler p ch

def csv_sax_step (p : CsvSaxParser) (ch : UInt8) : CsvSaxParser × Bool :=
  if p.skip_lf then
    if ch = lf then ({ p with skip_lf := false }, true)
    else csv_sax_byte handler { p with skip_lf := false } ch
  else csv_sax_byte handler p ch

def csv_sax_feed_loop : CsvSaxParser → Bytes → CsvSaxParser × Bool
  | p, [] => (p, true)
  | p, ch::rest => andThen (csv_sax_step handler p ch) fun p => csv_sax_feed_loop p rest

def csv_sax_parser_feed (p : CsvSaxParser) (data : Bytes) : CsvSaxParser × Bool :=
  if p.failed || p.finished then (p, false) else csv_sax_feed_loop handler p data

def csv_sax_parser_finish (p : CsvSaxParser) : CsvSaxParser × Bool :=
  if p.failed || p.finished then (p, false)
  else
    let p := { p with finished := true }
    let p := if p.quote_pending then { p with quote_pending := false, in_quote := false } else p
    if p.in_quote then csv_sax_fail p "Unterminated quoted field"
    else if p.row_started || p.field_started then csv_sax_end_row handler p true
    else (p, true)

def csv_sax_feed_chunks : CsvSaxParser → List Bytes → CsvSaxParser × Bool
  | p, [] => (p, true)
  | p, chunk::rest =>
    let fed := csv_sax_parser_feed handler p chunk
    let after := csv_sax_feed_chunks fed.1 rest
    (after.1, fed.2 && after.2)

/-- A parser that is created, fed with chunks and finished. -/
def csv_sax_run (opts : Option CsvOptions) (chunks : List Bytes) : CsvOutcome :=
  let fed := csv_sax_feed_chunks handler (csv_sax_parser_create opts) chunks
  let finished := csv_sax_parser_finish handler fed.1
  ⟨finished.1.log, fed.2 && finished.2, finished.1.error⟩

def csv_parse_stream_opts (content : Bytes) (opts : Option CsvOptions) : CsvOutcome :=
  let rc := andThen (csv_sax_parser_feed handler (csv_sax_parser_create opts) content)
    (csv_sax_parser_finish handler)
  ⟨rc.1.log, rc.2, rc.1.error⟩

end Parser

section Chunks
variable (handler : CsvStreamHandler) {p : CsvSaxParser}

/-- A call fails if and only if it marks the parser as failed; it leaves the options alone and
does not finish the parser. -/
structure Kept (p : CsvSaxParser) (r : CsvSaxParser × Bool) : Prop where
  failed : r.1.failed = (p.failed || !r.2)
  finished : r.1.finished = p.finished
  opts : r.1.opts = p.opts

theorem Kept.refl (p : CsvSaxParser) : Kept p (p, true) := ⟨by simp, rfl, rfl⟩

theorem Kept.trans {p q : CsvSaxParser} {r : CsvSaxParser × Bool} (h₁ : Kept p (q, true))
    (h₂ : Kept q r) : Kept p r := by
  refine ⟨?_, h₂.finished.trans h₁.finished, h₂.opts.trans h₁.opts⟩
  rw [h₂.failed, h₁.failed]
  simp

theorem Kept.andThen {p : CsvSaxParser} {r : CsvSaxParser × Bool}
    {next : CsvSaxParser → CsvSaxParser × Bool} (h₁ : Kept p r) (h₂ : ∀ q, Kept q (next q)) :
    Kept p (andThen r next) := by
  obtain ⟨q, ok⟩ := r
  cases ok with
  | false => exact h₁
  | true => exact h₁.trans (h₂ q)

theorem Kept.of_flags {p q : CsvSaxParser} (h₁ : q.failed = p.failed)
    (h₂ : q.finished = p.finished) (h₃ : q.opts = p.opts) : Kept p (q, true) :=
  ⟨by simp [h₁], h₂, h₃⟩

theorem sax_call_kept (callback : CsvCallback) (event : CsvEvent) (message : String)
    (p : CsvSaxParser) : Kept p (csv_sax_call callback event message p) := by
  unfold csv_sax_call csv_sax_fail
  dsimp only
  split
  · exact Kept.of_flags rfl rfl rfl
  · exact ⟨by simp, rfl, rfl⟩

theorem sax_start_row_kept (p : CsvSaxParser) : Kept p (csv_sax_start_row handler p) := by
  unfold csv_sax_start_row
  split
  · exact Kept.refl p
  · have h := sax_call_kept handler.on_row_start (.rowStart p.row) "CSV row callback failed"
      { p with row_open := true }
    exact ⟨h.failed, h.finished, h.opts⟩

theorem sax_emit_field_kept (p : CsvSaxParser) : Kept p (csv_sax_emit_field handler p) := by
  refine (sax_start_row_kept handler p).andThen fun q => ?_
  exact (sax_call_kept _ _ _ q).andThen fun _ => Kept.of_flags rfl rfl rfl

theorem sax_close_row_kept (p : CsvSaxParser) : Kept p (csv_sax_close_row handler p) := by
  refine (sax_start_row_kept handler p).andThen fun q => ?_
  exact (sax_call_kept _ _ _ q).andThen fun _ => Kept.of_flags rfl rfl rfl

theorem sax_end_row_kept (p : CsvSaxParser) (has_field : Bool) :
    Kept p (csv_sax_end_row handler p has_field) := by
  unfold csv_sax_end_row
  split_ifs
  · exact (sax_emit_field_kept handler p).andThen (sax_close_row_kept handler)
  · exact sax_close_row_kept handler p

theorem sax_newline_kept (p : CsvSaxParser) : Kept p (csv_sax_newline handler p) := by
  unfold csv_sax_newline
  dsimp only
  split
  · exact sax_end_row_kept handler p _
  · exact Kept.refl p

theorem sax_plain_kept (p : CsvSaxParser) (ch : UInt8) : Kept p (csv_sax_plain handler p ch) := by
  unfold csv_sax_plain
  split_ifs
  · exact Kept.of_flags rfl rfl rfl
  · exact (sax_emit_field_kept handler p).andThen fun _ => Kept.of_flags rfl rfl rfl
  · exact (sax_newline_kept handler p).andThen fun _ => Kept.of_flags rfl rfl rfl
  · exact (sax_newline_kept handler p).andThen Kept.refl
  · exact Kept.of_flags rfl rfl rfl

theorem sax_byte_kept (p : CsvSaxParser) (ch : UInt8) : Kept p (csv_sax_byte handler p ch) := by
  unfold csv_sax_byte
  split_ifs
  · exact Kept.of_flags rfl rfl rfl
  · have h := sax_plain_kept handler
      { p with quote_pending := false, in_quote := false } ch
    exact ⟨h.failed, h.finished, h.opts⟩
  · exact Kept.of_flags rfl rfl rfl
  · exact Kept.of_flags rfl rfl rfl
  · exact sax_plain_kept handler p ch

theorem sax_step_kept (p : CsvSaxParser) (ch : UInt8) : Kept p (csv_sax_step handler p ch) := by
  unfold csv_sax_step
  split_ifs
  · exact Kept.of_flags rfl rfl rfl
  · have h := sax_byte_kept handler { p with skip_lf := false } ch
    exact ⟨h.failed, h.finished, h.opts⟩
  · exact sax_byte_kept handler p ch

theorem sax_feed_loop_kept (data : Bytes) : ∀ p, Kept p (csv_sax_feed_loop handler p data) := by
  induction data with
  | nil =>
    intro p
    exact Kept.refl p
  | cons ch rest ih =>
    intro p
    exact (sax_step_kept handler p ch).andThen ih

theorem sax_feed_loop_append (data rest : Bytes) : ∀ p : CsvSaxParser,
    csv_sax_feed_loop handler p (data ++ rest) =
      andThen (csv_sax_feed_loop handler p data) fun q => csv_sax_feed_loop handler q rest := by
  induction data with
  | nil =>
    intro p
    rfl
  | cons ch data ih =>
    intro p
    simp only [List.cons_append, csv_sax_feed_loop, andThen_assoc, ih]

theorem sax_feed_chunks_failed (hp : p.failed = true) (chunks : List Bytes) :
    (csv_sax_feed_chunks handler p chunks).1 = p := by
  induction chunks with
  | nil => rfl
  | cons chunk chunks ih =>
    have h : csv_sax_parser_feed handler p chunk = (p, false) := by simp [csv_sax_parser_feed, hp]
    rw [csv_sax_feed_chunks]
    simp only [h]
    exact ih

theorem sax_feed_chunks_eq (chunks : List Bytes) : ∀ p : CsvSaxParser, p.failed = false →
    p.finished = false →
    csv_sax_feed_chunks handler p chunks = csv_sax_feed_loop handler p chunks.flatten := by
  induction chunks with
  | nil =>
    intro p _ _
    rfl
  | cons chunk chunks ih =>
    intro p hp hf
    have hfeed : csv_sax_parser_feed handler p chunk = csv_sax_feed_loop handler p chunk := by
      simp [csv_sax_parser_feed, hp, hf]
    have hk := sax_feed_loop_kept handler chunk p
    rw [csv_sax_feed_chunks, List.flatten_cons, sax_feed_loop_append]
    simp only [hfeed]
    generalize csv_sax_feed_loop handler p chunk = r at hk
    obtain ⟨q, ok⟩ := r
    cases ok with
    | false =>
      have hq : q.failed = true := by
        rw [hk.failed]
        simp
      simp [sax_feed_chunks_failed handler hq chunks, andThen]
    | true =>
      have hq : q.failed = false := by
        rw [hk.failed, hp]
        rfl
      simp [ih q hq (hk.finished.trans hf), andThen]

theorem sax_run_eq (opts : Option CsvOptions) (chunks : List Bytes) :
    csv_sax_run handler opts chunks = csv_parse_stream_opts handler chunks.flatten opts := by
  have hfeed : csv_sax_parser_feed handler (csv_sax_parser_create opts) chunks.flatten =
      csv_sax_feed_loop handler (csv_sax_parser_create opts) chunks.flatten := rfl
  have hk := sax_feed_loop_kept handler chunks.flatten (csv_sax_parser_create opts)
  unfold csv_sax_run csv_parse_stream_opts
  rw [sax_feed_chunks_eq handler chunks _ rfl rfl, hfeed]
  generalize csv_sax_feed_loop handler (csv_sax_parser_create opts) chunks.flatten = r at hk
  obtain ⟨q, ok⟩ := r
  cases ok with
  | false =>
    have hq : q.failed = true := by
      rw [hk.failed]
      simp
    simp [csv_sax_parser_finish, hq, andThen]
  | true => simp [andThen]

end Chunks

end SaltsUtils.Csv
