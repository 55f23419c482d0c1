import SaltsUtils.Csv.Document
import SaltsUtils.Csv.Incremental

/-!
# The document that a scan builds

What the scanner reports to callbacks that return 0, as the document that they
build: the field, the row and the rows so far, byte by byte. The streaming
parser delivers the same document.
-/

set_option autoImplicit false

namespace SaltsUtils.Csv

structure Reading where
  field : Bytes := []
  in_quote : Bool := false
  field_started : Bool := false
  row_started : Bool := false
  row : Row := []
  doc : CsvDoc := {}
deriving DecidableEq

/-- A byte of the field. -/
def Reading.push (r : Reading) (ch : UInt8) : Reading :=
  { r with field := r.field ++ [ch], field_started := true, row_started := true }

/-- A quote that opens or closes the quoted part of a field. -/
def Reading.turn (r : Reading) (in_quote : Bool) : Reading :=
  { r with in_quote := in_quote, field_started := true, row_started := true }

def Reading.endField (r : Reading) : Reading :=
  { r with row := r.row ++ [r.field], field := [], field_started := false, row_started := true }

def Reading.started (r : Reading) : Bool := r.row_started || r.field_started

def Reading.lastRow (r : Reading) : Row :=
  if r.started then r.row ++ [r.field] else r.row

def Reading.endRow (o : CsvOptions) (r : Reading) : Reading :=
  { r with
    doc := if r.started || !o.skip_empty_rows then csv_doc_add_row r.doc r.lastRow else r.doc
    row := [], field := [], field_started := false, row_started := false }

/-- The end of the text, which is no place for a field in quotes. -/
def Reading.finish (r : Reading) : Option CsvDoc :=
  if r.in_quote then none
  else if r.started then some (csv_doc_add_row r.doc (r.row ++ [r.field]))
  else some r.doc

def read (o : CsvOptions) : Bytes → Reading → Option CsvDoc
  | [], r => r.finish
  | ch::rest, r =>
    if r.in_quote then
      if ch = o.quote then
        match rest with
        | next::rest' =>
          if next = o.quote then read o rest' (r.push o.quote)
          else read o (next::rest') (r.turn false)
        | [] => read o [] (r.turn false)
      else read o rest (r.push ch)
    else if r.field_started = false ∧ ch = o.quote then read o rest (r.turn true)
    else if ch = o.delimiter then read o rest r.endField
    else if ch = cr ∨ ch = lf then
      match rest with
      | next::rest' =>
        if ch = cr ∧ next = lf then read o rest' (r.endRow o)
        else read o (next::rest') (r.endRow o)
      | [] => read o [] (r.endRow o)
    else read o rest (r.push ch)

variable {r : Reading}

section Read
variable (o : CsvOptions)

theorem read_cons (ch : UInt8) (rest : Bytes) (r : Reading) :
    read o (ch::rest) r =
      if r.in_quote then
        if ch = o.quote then
          if rest.head? = some o.quote then read o rest.tail (r.push o.quote)
          else read o rest (r.turn false)
        else read o rest (r.push ch)
      else if r.field_started = false ∧ ch = o.quote then read o rest (r.turn true)
      else if ch = o.delimiter then read o rest r.endField
      else if ch = cr ∨ ch = lf then
        if ch = cr ∧ rest.head? = some lf then read o rest.tail (r.endRow o)
        else read o rest (r.endRow o)
      else read o rest (r.push ch) := by
  cases rest with
  | nil => simp [read]
  | cons next rest =>
    simp only [List.head?_cons, Option.some.injEq, List.tail_cons]
    rfl

/-- The document of a reader that succeeds. -/
def CsvOutcome.doc (out : CsvOutcome) : Option CsvDoc :=
  if out.success then some (csv_dom_doc out.log) else none

structure Stands (s : CsvScan) (r : Reading) : Prop where
  field : s.field = r.field
  in_quote : s.in_quote = r.in_quote
  field_started : s.field_started = r.field_started
  row_started : s.row_started = r.row_started
  dom : ∃ row, s.log.foldl csv_dom_scan ({}, none) = (r.doc, row) ∧ row.getD [] = r.row

variable {s : CsvScan}

theorem Stands.push (h : Stands s r) (ch : UInt8) :
    Stands { s with field := s.field ++ [ch], field_started := true, row_started := true }
      (r.push ch) :=
  ⟨congrArg (· ++ [ch]) h.field, h.in_quote, rfl, rfl, h.dom⟩

theorem Stands.turn (h : Stands s r) (b : Bool) :
    Stands { s with in_quote := b, field_started := true, row_started := true } (r.turn b) :=
  ⟨h.field, rfl, rfl, rfl, h.dom⟩

theorem emit_stands (h : Stands s r) :
    ∃ log, csv_scan_emit_field succeeds s = ({ s with log := log }, true) ∧
      ∃ row, log.foldl csv_dom_scan ({}, none) = (r.doc, row) ∧
        row.getD [] = r.row ++ [r.field] := by
  obtain ⟨row, h₁, h₂⟩ := h.dom
  refine ⟨s.log ++ [.field s.row s.col s.field], rfl, some (r.row ++ [r.field]), ?_, rfl⟩
  rw [List.foldl_append, h₁]
  simp [csv_dom_scan, h₂, h.field]

theorem row_end_dom (s : CsvScan) {doc : CsvDoc} {row : Option Row}
    (h : s.log.foldl csv_dom_scan ({}, none) = (doc, row)) :
    ∃ log, csv_scan_row_end succeeds s = ({ s with log := log }, true) ∧
      log.foldl csv_dom_scan ({}, none) = (csv_doc_add_row doc (row.getD []), none) := by
  refine ⟨s.log ++ [.rowEnd s.row s.col], rfl, ?_⟩
  rw [List.foldl_append, h]
  rfl

theorem end_row_stands (h : Stands s r) :
    ∃ log col, csv_scan_end_row succeeds succeeds s = ({ s with log := log, col := col }, true) ∧
      log.foldl csv_dom_scan ({}, none) = (csv_doc_add_row r.doc r.lastRow, none) := by
  unfold csv_scan_end_row Reading.lastRow
  have hs : (s.row_started || s.field_started) = r.started := by
    rw [h.row_started, h.field_started, Reading.started]
  by_cases hr : r.started = true
  · obtain ⟨log, h₁, row, h₂, h₃⟩ := emit_stands h
    rw [if_pos (hs.trans hr), if_pos hr, h₁, andThen_ok, andThen_ok]
    obtain ⟨log', h₄, h₅⟩ := row_end_dom { s with log := log, col := s.col + 1 } h₂
    exact ⟨log', s.col + 1, h₄, by rw [h₅, h₃]⟩
  · obtain ⟨row, h₁, h₂⟩ := h.dom
    rw [if_neg (by rwa [hs]), if_neg hr, andThen_ok]
    obtain ⟨log', h₄, h₅⟩ := row_end_dom s h₁
    exact ⟨log', s.col, h₄, by rw [h₅, h₂]⟩

theorem newline_stands (h : Stands s r) (hrow : r.started = false → r.row = []) :
    ∃ t, csv_scan_newline o succeeds succeeds s = (t, true) ∧ Stands t (r.endRow o) := by
  unfold csv_scan_newline
  rw [h.row_started, h.field_started, ← Reading.started]
  by_cases hr : (r.started || !o.skip_empty_rows) = true
  · obtain ⟨log, col, h₁, h₂⟩ := end_row_stands h
    rw [if_pos hr, h₁, andThen_ok, andThen_ok]
    refine ⟨_, rfl, rfl, h.in_quote, rfl, rfl, none, ?_, rfl⟩
    simp only [Reading.endRow, if_pos hr]
    exact h₂
  · obtain ⟨row, h₁, h₂⟩ := h.dom
    have hr' : r.started = false := by
      revert hr
      cases r.started <;> simp
    rw [if_neg hr, andThen_ok]
    refine ⟨_, rfl, rfl, h.in_quote, rfl, rfl, row, ?_, ?_⟩
    · simp only [Reading.endRow, if_neg hr]
      exact h₁
    · rw [h₂]
      exact hrow hr'

theorem finish_stands (h : Stands s r) : (csv_scan_finish succeeds succeeds s).doc = r.finish := by
  unfold csv_scan_finish Reading.finish
  rw [h.in_quote, h.row_started, h.field_started, ← Reading.started]
  cases r.in_quote with
  | true => rfl
  | false =>
    by_cases hr : r.started = true
    · obtain ⟨log, col, h₁, h₂⟩ := end_row_stands h
      simp only [Bool.false_eq_true, if_false, if_pos hr, h₁, CsvOutcome.doc, if_true, csv_dom_doc,
        h₂, Reading.lastRow]
    · obtain ⟨row, h₁, -⟩ := h.dom
      simp only [Bool.false_eq_true, if_false, if_neg hr, CsvOutcome.doc, if_true, csv_dom_doc, h₁]

/-- A row that has not started has no fields, and only a field that has started is in quotes. -/
structure Reading.Sound (r : Reading) : Prop where
  idle : r.row_started = false → r.field_started = false ∧ r.row = []
  quoted : r.in_quote = true → r.field_started = true
  fresh : r.field_started = false → r.field = []

theorem Reading.Sound.push (_ : r.Sound) (ch : UInt8) : (r.push ch).Sound :=
  ⟨nofun, fun _ => rfl, nofun⟩

theorem Reading.Sound.turn (_ : r.Sound) (b : Bool) : (r.turn b).Sound :=
  ⟨nofun, fun _ => rfl, nofun⟩

theorem Reading.Sound.endField (hq : r.in_quote = false) : r.endField.Sound := by
  refine ⟨nofun, fun h => ?_, fun _ => rfl⟩
  rw [show r.endField.in_quote = r.in_quote from rfl, hq] at h
  cases h

theorem Reading.Sound.endRow (hq : r.in_quote = false) : (r.endRow o).Sound := by
  refine ⟨fun _ => ⟨rfl, rfl⟩, fun h => ?_, fun _ => rfl⟩
  rw [show (r.endRow o).in_quote = r.in_quote from rfl, hq] at h
  cases h

theorem Reading.Sound.row_of_not_started (h : r.Sound) (hs : r.started = false) : r.row = [] := by
  simp only [Reading.started, Bool.or_eq_false_iff] at hs
  exact (h.idle hs.1).2

theorem scan_read (n : ℕ) : ∀ (text : Bytes), text.length ≤ n → ∀ (s : CsvScan) (r : Reading),
    Stands s r → r.Sound →
    (scanned succeeds succeeds (csv_scan_loop o succeeds succeeds text s)).doc = read o text r := by
  induction n with
  | zero =>
    intro text hlen s r h _
    cases List.length_eq_zero_iff.mp (Nat.le_zero.mp hlen)
    exact finish_stands h
  | succ n ih =>
    intro text hlen s r h hr
    cases text with
    | nil => exact finish_stands h
    | cons ch rest =>
      simp only [List.length_cons] at hlen
      have hlen' : rest.length ≤ n := by omega
      have htail : rest.tail.length ≤ n := by
        rw [List.length_tail]
        omega
      rw [scan_loop_cons, read_cons]
      by_cases hq : r.in_quote = true
      · rw [if_pos (h.in_quote.trans hq), if_pos hq]
        by_cases hc : ch = o.quote
        · rw [if_pos hc, if_pos hc]
          by_cases hn : rest.head? = some o.quote
          · rw [if_pos hn, if_pos hn]
            exact ih _ htail _ _ (h.push _) (hr.push _)
          · rw [if_neg hn, if_neg hn]
            exact ih _ hlen' _ _ (h.turn _) (hr.turn _)
        · rw [if_neg hc, if_neg hc]
          exact ih _ hlen' _ _ (h.push _) (hr.push _)
      · rw [if_neg (by rwa [h.in_quote]), if_neg hq]
        have hq' : r.in_quote = false := by simpa using hq
        by_cases ho : r.field_started = false ∧ ch = o.quote
        · rw [if_pos ⟨h.field_started.trans ho.1, ho.2⟩, if_pos ho]
          exact ih _ hlen' _ _ (h.turn _) (hr.turn _)
        rw [if_neg (by rwa [h.field_started]), if_neg ho]
        by_cases hd : ch = o.delimiter
        · obtain ⟨log, h₁, row, h₂, h₃⟩ := emit_stands h
          rw [if_pos hd, if_pos hd, h₁, andThen_ok]
          exact ih _ hlen' _ _ ⟨rfl, h.in_quote, rfl, rfl, row, h₂, h₃⟩ (.endField hq')
        rw [if_neg hd, if_neg hd]
        by_cases hnl : ch = cr ∨ ch = lf
        · obtain ⟨t, h₁, h₂⟩ := newline_stands o h hr.row_of_not_started
          rw [if_pos hnl, if_pos hnl, h₁, andThen_ok]
          by_cases hlf : ch = cr ∧ rest.head? = some lf
          · rw [if_pos hlf, if_pos hlf]
            exact ih _ htail _ _ h₂ (.endRow o hq')
          · rw [if_neg hlf, if_neg hlf]
            exact ih _ hlen' _ _ h₂ (.endRow o hq')
        · rw [if_neg hnl, if_neg hnl]
          exact ih _ hlen' _ _ (h.push _) (hr.push _)

end Read

theorem Reading.Sound.start : Reading.Sound {} :=
  ⟨fun _ => ⟨rfl, rfl⟩, nofun, fun _ => rfl⟩

theorem scan_opts_read (content : Bytes) (opts : Option CsvOptions) :
    (csv_scan_opts succeeds succeeds content opts).doc =
      read (csv_normalize_opts opts) content {} :=
  scan_read _ content.length content (Nat.le_refl _) {} {} ⟨rfl, rfl, rfl, rfl, none, rfl, rfl⟩
    .start

theorem dom_filter_shared (log : List CsvEvent) : ∀ scan,
    (log.filter CsvEvent.shared).foldl csv_dom_scan scan = log.foldl csv_dom_scan scan := by
  induction log with
  | nil => exact fun _ => rfl
  | cons event log ih =>
    intro scan
    cases event with
    | rowStart row => exact ih scan
    | field row col value =>
      rw [List.filter_cons_of_pos rfl]
      exact ih _
    | rowEnd row count =>
      rw [List.filter_cons_of_pos rfl]
      exact ih _

theorem parse_stream_read (content : Bytes) :
    (csv_parse_stream content).doc = read {} content {} := by
  have h₀ : csv_sax_run recorder none [content] = csv_parse_stream content := by
    rw [sax_run_eq, List.flatten_singleton]
    rfl
  have hrec : sharedHandler true succeeds succeeds = recorder := rfl
  obtain ⟨h₁, h₂⟩ := (incremental_eq_scan none [content]).2 true succeeds succeeds
  rw [hrec, h₀, List.flatten_singleton] at h₁ h₂
  rw [← show (csv_scan_opts succeeds succeeds content none).doc = read {} content {} from
    scan_opts_read content none]
  unfold CsvOutcome.doc csv_dom_doc
  rw [h₂, ← h₁, dom_filter_shared]

/-- The document goes on where the reader stands: once a row or a field has begun it ends up in
the document, and what is read later only adds to it. -/
def Reading.Extends (r : Reading) (out : CsvDoc) : Prop :=
  ∃ tail, out.rows = r.doc.rows ++ tail ∧ (r.row_started = true → ∃ more later,
    tail = (r.row ++ more)::later ∧
      (r.field_started = true → ∃ x more', more = (r.field ++ x)::more'))

variable {out : CsvDoc}

theorem finish_extends (h : r.finish = some out) : r.Extends out := by
  unfold Reading.finish at h
  split_ifs at h with hq hs
  · cases h
    exact ⟨[r.row ++ [r.field]], rfl, fun _ => ⟨[r.field], [], rfl, fun _ => ⟨[], [], by simp⟩⟩⟩
  · cases h
    refine ⟨[], by simp, fun h => ?_⟩
    simp [Reading.started, h] at hs

theorem Reading.Extends.of_field {r' : Reading} (y : Bytes) (h : r'.Extends out)
    (h₁ : r'.doc = r.doc) (h₂ : r'.row = r.row) (h₃ : r'.field = r.field ++ y)
    (h₄ : r'.row_started = true) (h₅ : r'.field_started = true) : r.Extends out := by
  obtain ⟨tail, h₆, h₇⟩ := h
  obtain ⟨more, later, h₈, h₉⟩ := h₇ h₄
  obtain ⟨x, more', h₁₀⟩ := h₉ h₅
  rw [h₁] at h₆
  rw [h₂] at h₈
  rw [h₃, List.append_assoc] at h₁₀
  exact ⟨tail, h₆, fun _ => ⟨more, later, h₈, fun _ => ⟨y ++ x, more', h₁₀⟩⟩⟩

theorem Reading.Extends.of_endField (h : r.endField.Extends out) : r.Extends out := by
  obtain ⟨tail, h₁, h₂⟩ := h
  obtain ⟨more, later, h₃, -⟩ := h₂ rfl
  simp only [Reading.endField, List.append_assoc] at h₁ h₃
  exact ⟨tail, h₁, fun _ => ⟨r.field::more, later, h₃, fun _ => ⟨[], more, by simp⟩⟩⟩

theorem Reading.Extends.of_endRow {o : CsvOptions} (h : (r.endRow o).Extends out) :
    r.Extends out := by
  obtain ⟨tail, h₁, -⟩ := h
  by_cases hs : r.row_started = true
  · simp only [Reading.endRow, Reading.lastRow, Reading.started, hs, Bool.true_or, if_true,
      csv_doc_add_row, List.append_assoc] at h₁
    exact ⟨_, h₁, fun _ => ⟨[r.field], tail, rfl, fun _ => ⟨[], [], by simp⟩⟩⟩
  · have hrows : ∃ added, (r.endRow o).doc.rows = r.doc.rows ++ added := by
      unfold Reading.endRow
      split_ifs
      · exact ⟨[r.lastRow], rfl⟩
      · exact ⟨[], by simp⟩
    obtain ⟨added, h₂⟩ := hrows
    rw [h₂, List.append_assoc] at h₁
    exact ⟨_, h₁, fun h => absurd h hs⟩

theorem read_extends (o : CsvOptions) (n : ℕ) : ∀ (text : Bytes), text.length ≤ n →
    ∀ (r : Reading) (out : CsvDoc), read o text r = some out → r.Extends out := by
  induction n with
  | zero =>
    intro text hlen r out h
    cases List.length_eq_zero_iff.mp (Nat.le_zero.mp hlen)
    exact finish_extends h
  | succ n ih =>
    intro text hlen r out h
    cases text with
    | nil => exact finish_extends h
    | cons ch rest =>
      simp only [List.length_cons] at hlen
      have hlen' : rest.length ≤ n := by omega
      have htail : rest.tail.length ≤ n := by
        rw [List.length_tail]
        omega
      rw [read_cons] at h
      split_ifs at h with hq hc hn ho hd hl hcl
      · exact (ih _ htail _ _ h).of_field [o.quote] rfl rfl rfl rfl rfl
      · exact (ih _ hlen' _ _ h).of_field [] rfl rfl (List.append_nil _).symm rfl rfl
      · exact (ih _ hlen' _ _ h).of_field [ch] rfl rfl rfl rfl rfl
      · exact (ih _ hlen' _ _ h).of_field [] rfl rfl (List.append_nil _).symm rfl rfl
      · exact (ih _ hlen' _ _ h).of_endField
      · exact (ih _ htail _ _ h).of_endRow
      · exact (ih _ hlen' _ _ h).of_endRow
      · exact (ih _ hlen' _ _ h).of_field [ch] rfl rfl rfl rfl rfl

theorem unescape_cons {c : UInt8} (hc : c ≠ doubleQuote) (rest : Bytes) :
    unescape_quotes_impl (c::rest) = c::unescape_quotes_impl rest := by
  cases rest with
  | nil => rfl
  | cons d rest =>
    rw [unescape_quotes_impl]
    exact if_neg fun h => hc h.1

section Format
variable {o : CsvOptions} (hd : o.delimiter = comma) (hq : o.quote = doubleQuote)
include hd hq

theorem read_comma (hin : r.in_quote = false) (after : Bytes) :
    read o (comma::after) r = read o after r.endField := by
  have hne : comma ≠ doubleQuote := by decide
  rw [read_cons, hin, hd, hq]
  simp [hne]

theorem read_newline (hin : r.in_quote = false) {n : Bytes} (hn : n = [lf] ∨ n = [cr, lf])
    (after : Bytes) : read o (n ++ after) r = read o after (r.endRow o) := by
  have h₁ : lf ≠ doubleQuote ∧ lf ≠ comma ∧ lf ≠ cr := by decide
  have h₂ : cr ≠ doubleQuote ∧ cr ≠ comma := by decide
  rcases hn with rfl | rfl
  · rw [List.singleton_append, read_cons, hin, hd, hq]
    simp [h₁]
  · rw [List.cons_append, read_cons, hin, hd, hq]
    simp [h₂]

theorem read_push (hin : r.in_quote = false) {c : UInt8} (hc : c ≠ comma ∧ c ≠ cr ∧ c ≠ lf)
    (hquote : r.field_started = true ∨ c ≠ doubleQuote) (after : Bytes) :
    read o (c::after) r = read o after (r.push c) := by
  rw [read_cons, hin, hd, hq]
  have : ¬ (r.field_started = false ∧ c = doubleQuote) := by
    rintro ⟨h₁, h₂⟩
    rcases hquote with h | h
    · rw [h₁] at h
      cases h
    · exact h h₂
  simp [this, hc]

theorem read_word {w : Bytes} (hw : ∀ c ∈ w, isSpecial c = false) : ∀ {r : Reading},
    r.in_quote = false → ∀ after, read o (w ++ after) r = read o after (w.foldl Reading.push r) := by
  induction w with
  | nil => exact fun _ _ => rfl
  | cons c w ih =>
    intro r hin after
    have hc := hw c (by simp)
    simp only [isSpecial, Bool.or_eq_false_iff, beq_eq_false_iff_ne] at hc
    rw [List.cons_append, read_push hd hq hin ⟨hc.1.1.1.2, hc.1.2, hc.2⟩ (Or.inr hc.1.1.2)]
    exact ih (fun d hd => hw d (by simp [hd])) (show (r.push c).in_quote = false from hin) after

omit hd in
theorem read_close {rest : Bytes} (hrest : rest.head? ≠ some doubleQuote) (h₁ : r.in_quote = true)
    (h₂ : r.field_started = true) (h₃ : r.row_started = true) :
    read o (doubleQuote::rest) r = read o rest { r with in_quote := false } := by
  have : r.turn false = { r with in_quote := false } := by
    cases r
    simp only at h₂ h₃
    subst h₂ h₃
    rfl
  rw [read_cons, hq, if_pos h₁, if_pos rfl, if_neg hrest, this]

omit hd in
theorem read_quoted (text : Bytes) : ∀ (raw after : Bytes), matchQuoted text = some (raw, after) →
    after.head? ≠ some doubleQuote → ∀ r : Reading, r.in_quote = true → r.field_started = true →
    r.row_started = true → read o text r =
      read o after { r with field := r.field ++ unescape_quotes_impl raw, in_quote := false } := by
  fun_induction matchQuoted text with
  | case1 => simp
  | case2 => simp
  | case3 =>
    rintro raw after ⟨⟩ hafter r h₁ h₂ h₃
    rw [read_close hq hafter h₁ h₂ h₃]
    simp [unescape_quotes_impl]
  | case4 =>
    rename_i hm _ ih
    rintro raw after ⟨⟩ hafter r h₁ h₂ h₃
    rw [read_cons, hq, if_pos h₁, if_pos rfl, List.head?_cons, if_pos rfl, List.tail_cons,
      ih _ _ hm hafter (r.push doubleQuote) h₁ rfl rfl]
    cases r
    simp only at h₂ h₃
    subst h₂ h₃
    simp [Reading.push, unescape_quotes_impl]
  | case5 =>
    rintro raw after ⟨⟩ hafter
    simp at hafter
  | case6 =>
    rintro raw after ⟨⟩ hafter r h₁ h₂ h₃
    rw [read_close hq hafter h₁ h₂ h₃]
    simp [unescape_quotes_impl]
  | case7 =>
    rename_i hc ih
    intro raw after h hafter r h₁ h₂ h₃
    obtain ⟨m, hm, hm'⟩ := Option.map_eq_some_iff.mp h
    cases hm'
    rw [read_cons, hq, if_pos h₁, if_neg hc, ih _ _ hm hafter (r.push _) h₁ rfl rfl,
      unescape_cons hc]
    cases r
    simp only at h₂ h₃
    subst h₂ h₃
    simp [Reading.push]

end Format

theorem push_foldl {w : Bytes} (hw : w ≠ []) (r : Reading) : w.foldl Reading.push r =
    { r with field := r.field ++ w, field_started := true, row_started := true } := by
  induction w generalizing r with
  | nil => exact absurd rfl hw
  | cons c w ih =>
    rw [List.foldl_cons]
    cases w with
    | nil => rfl
    | cons d w =>
      rw [ih (by simp)]
      simp [Reading.push]

end SaltsUtils.Csv
