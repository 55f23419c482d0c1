import SaltsUtils.Dsv.RowChecks
import SaltsUtils.Library.Outcome

/-!
# Rows of a CSV text selected by a filter
-/

set_option autoImplicit false

namespace SaltsUtils.DataBind.CsvProvider
open Csv Dsv

inductive Stage
  | array_begin
  | row_begin
  | field_key
  | field_value
  | row_end
  | array_end
  | done
deriving DecidableEq

/-- A string that is null is the cell of a row that is too short. -/
inductive Token
  | array_begin
  | array_end
  | map_begin
  | map_end
  | string (text : Option Csv.Bytes)
deriving DecidableEq

inductive Status
  | ok
  | done
  | invalid_token
deriving DecidableEq

structure Reader where
  document : CsvDoc
  rows : Option (List ℕ)
  row_position : ℕ := 0
  row_count : ℕ
  column : ℕ := 0
  column_count : ℕ
  row_only : Bool
  omit_empty_cells : Bool
  stage : Stage
deriving DecidableEq

def csv_header_get_v (doc : CsvDoc) (column : ℕ) : Option Csv.Bytes := doc.header.bind (·[column]?)

def csv_current_row (context : Reader) : ℕ :=
  match context.rows with
  | some rows => rows.getD context.row_position 0
  | none => context.row_position

def row_ended (context : Reader) : Status × Option Token × Reader :=
  let row_position := context.row_position + 1
  (.ok, some .map_end, { context with
    row_position := row_position
    stage := if context.row_only then .done
      else if row_position < context.row_count then .row_begin else .array_end })

def key_emitted (context : Reader) : Status × Option Token × Reader :=
  (.ok, some (.string (csv_header_get_v context.document context.column)),
    { context with stage := .field_value })

/-- The cells that are passed over, with `left` columns from this one on. -/
def field_key : ℕ → Reader → Status × Option Token × Reader
  | 0, context => row_ended { context with stage := .row_end }
  | left + 1, context =>
    if context.omit_empty_cells then
      match csv_get_v context.document (csv_current_row context) context.column with
      | none => (.invalid_token, none, context)
      | some [] => field_key left { context with column := context.column + 1 }
      | some _ => key_emitted context
    else key_emitted context

def csv_provider_next (context : Reader) : Status × Option Token × Reader :=
  match context.stage with
  | .array_begin =>
    (.ok, some .array_begin,
      { context with stage := if context.row_count = 0 then .array_end else .row_begin })
  | .row_begin =>
    (.ok, some .map_begin, { context with
      column := 0
      stage := if context.column_count = 0 then .row_end else .field_key })
  | .field_key => field_key (context.column_count - context.column) context
  | .field_value =>
    (.ok, some (.string (csv_get_v context.document (csv_current_row context) context.column)),
      { context with
        column := context.column + 1
        stage := if context.column + 1 < context.column_count then .field_key else .row_end })
  | .row_end => row_ended context
  | .array_end => (.ok, some .array_end, { context with stage := .done })
  | .done => (.done, none, context)

def csv_reader_create (document : CsvDoc) (rows : Option (List ℕ)) (row_count : ℕ)
    (row_only omit_empty_cells : Bool) : Reader where
  document := document
  rows := rows
  row_count := row_count
  column_count := document.column_count
  row_only := row_only
  omit_empty_cells := omit_empty_cells
  stage := if row_only then .row_begin else .array_begin

inductive DataBindStatus
  | invalid_arg
  | parse
  | limit
  | oom
  | runtime
deriving DecidableEq

inductive Selection
  | root
  | all
  | path
  | path_first
deriving DecidableEq

structure ProviderError where
  status : DataBindStatus
  message : String
deriving DecidableEq

def csv_parse_binding_document (data : Csv.Bytes) : Except ProviderError CsvDoc :=
  match csv_parse_opts data (some { has_header := true }) with
  | .ok document => .ok document
  | .error diagnostic => .error ⟨.parse, if diagnostic ≠ "" then diagnostic else "CSV parse failed"⟩

def csv_provider_open (data : Csv.Bytes) (max_depth : ℕ) : Except ProviderError Reader :=
  if max_depth < 2 then .error ⟨.limit, "CSV provider requires max_depth >= 2"⟩
  else do
    let document ← csv_parse_binding_document data
    return csv_reader_create document none document.row_count false false

/-- The rows that match, by the number they have without the header; `none` is a check that
failed. -/
def select_rows (check : ℕ → Option Bool) (first : Bool) (data_rows : ℕ) :
    ℕ → ℕ → List ℕ → Option (List ℕ)
  | 0, _, rows => some rows
  | left + 1, raw_row, rows =>
    if rows.length < data_rows then
      match check raw_row with
      | none => none
      | some false => select_rows check first data_rows left (raw_row + 1) rows
      | some true =>
        if first then some (rows ++ [raw_row - 1])
        else select_rows check first data_rows left (raw_row + 1) (rows ++ [raw_row - 1])
    else some rows

section
variable {D : Type} [Arithmetic D] [Comparison D]

/-- What the filters are made of: the compiler, with its refusals, and the reading of numbers;
and the status of a check that failed. -/
structure Filters (D : Type) where
  compile : CsvDoc → Csv.Bytes → Except ProviderError (DsvFilter D × Option (LoweredFilter D))
  strtod : Csv.Bytes → D
  failure : DataBindStatus

variable (filters : Filters D)

def Filters.check (compiled : DsvFilter D × Option (LoweredFilter D)) (doc : CsvDoc) (row : ℕ) :
    Option Bool :=
  dsv_filter_check_row filters.strtod compiled.1 compiled.2 doc row

def csv_provider_open_selected (data : Csv.Bytes) (max_depth : ℕ) (selection : Selection)
    (path : Csv.Bytes) : Except ProviderError Reader :=
  if max_depth < 2 then .error ⟨.limit, "CSV provider requires max_depth >= 2"⟩
  else if selection = .root ∨ selection = .all then csv_provider_open data max_depth
  else do
    let document ← csv_parse_binding_document data
    match csv_parse_opts data (some { has_header := false }) with
    | .error _ => .error ⟨.parse, "CSV filter parse failed"⟩
    | .ok filter_document =>
      let compiled ← filters.compile filter_document path
      match select_rows (filters.check compiled filter_document) (selection = .path_first)
          document.row_count (filter_document.row_count - 1) 1 [] with
      | none => .error ⟨filters.failure, "CSV filter evaluation failed"⟩
      | some rows =>
        .ok (csv_reader_create document (if document.row_count = 0 then none else some rows)
          rows.length false false)

end

/-- The tokens that a reader gives before it is done. -/
inductive Yields : Reader → List Token → Prop
  | done {context after : Reader} (h : csv_provider_next context = (.done, none, after)) :
      Yields context []
  | token {context after : Reader} {t : Token} {ts : List Token}
      (h : csv_provider_next context = (.ok, some t, after)) (hrest : Yields after ts) :
      Yields context (t :: ts)

def field_tokens (doc : CsvDoc) (row column : ℕ) : List Token :=
  [.string (csv_header_get_v doc column), .string (csv_get_v doc row column)]

def row_map (doc : CsvDoc) (row : ℕ) : List Token :=
  .map_begin :: ((List.range doc.column_count).flatMap (field_tokens doc row) ++ [.map_end])

/-- A reader in front of a place of a row, which reads all cells of all its rows. -/
structure Plain (context : Reader) : Prop where
  rows_only : context.row_only = false
  whole : context.omit_empty_cells = false
  columns : context.column_count = context.document.column_count

theorem fields_yield {context : Reader} (hp : Plain context) {ts : List Token}
    (hrow : Yields { context with stage := .row_end, column := context.column_count } ts)
    {left column : ℕ} (hleft : column + left = context.column_count) :
    Yields { context with
        column := column
        stage := if column < context.column_count then .field_key else .row_end }
      ((List.range' column left).flatMap (field_tokens context.document (csv_current_row context)) ++
        ts) := by
  induction left generalizing column with
  | zero =>
    obtain rfl : column = context.column_count := by omega
    rw [if_neg (lt_irrefl _)]
    exact hrow
  | succ left ih =>
    have hlt : column < context.column_count := by omega
    have hrest := @ih (column + 1) (by omega)
    rw [if_pos hlt, List.range'_succ, List.flatMap_cons]
    refine @Yields.token _ { context with column := column, stage := .field_value } _ _ ?_
      (.token rfl hrest)
    rw [csv_provider_next]
    dsimp only
    rw [show context.column_count - column = context.column_count - column - 1 + 1 by omega,
      field_key, if_neg (by simp [hp.whole])]
    rfl

theorem rows_yield {context : Reader} (hp : Plain context) {chosen : List ℕ}
    (hlen : chosen.length = context.row_count)
    (hchosen : ∀ k (hk : k < chosen.length),
      csv_current_row { context with row_position := k } = chosen.get ⟨k, hk⟩)
    {left k : ℕ} (hleft : k + left = context.row_count) (column : ℕ) :
    Yields { context with
        row_position := k
        column := column
        stage := if k < context.row_count then .row_begin else .array_end }
      ((chosen.drop k).flatMap (row_map context.document) ++ [.array_end]) := by
  induction left generalizing k column with
  | zero =>
    rw [if_neg (by omega), List.drop_eq_nil_of_le (by omega)]
    exact .token rfl (.done rfl)
  | succ left ih =>
    have hk : k < chosen.length := by omega
    have hrow := hchosen k hk
    have hnext := @ih (k + 1) (by omega) context.column_count
    have hend : Yields { context with
        row_position := k, column := context.column_count, stage := .row_end }
        (.map_end :: ((chosen.drop (k + 1)).flatMap (row_map context.document) ++
          [.array_end])) := by
      refine .token ?_ hnext
      rw [csv_provider_next, row_ended]
      simp [hp.rows_only]
    have hfields := @fields_yield { context with row_position := k } ⟨hp.1, hp.2, hp.3⟩ _ hend
      context.column_count 0 (Nat.zero_add _)
    rw [if_pos (by omega), List.drop_eq_getElem_cons hk, List.flatMap_cons, row_map]
    refine .token ?_ (?_ : Yields { context with
      row_position := k
      column := 0
      stage := if 0 < context.column_count then .field_key else .row_end } _)
    · rw [csv_provider_next]
      by_cases hz : context.column_count = 0
      · simp [hz]
      · simp [hz, Nat.pos_of_ne_zero hz]
    · rw [hrow, hp.columns, ← List.range_eq_range'] at hfields
      simpa [hp.columns] using hfields

/-- All that a reader of an array gives. -/
theorem reader_yields (document : CsvDoc) (rows : Option (List ℕ)) {chosen : List ℕ}
    (h : ∀ k (hk : k < chosen.length),
      (match rows with | some rows => rows.getD k 0 | none => k) = chosen.get ⟨k, hk⟩) :
    Yields (csv_reader_create document rows chosen.length false false)
      (.array_begin :: (chosen.flatMap (row_map document) ++ [.array_end])) := by
  have hrows := @rows_yield (csv_reader_create document rows chosen.length false false)
    ⟨rfl, rfl, rfl⟩ chosen rfl h chosen.length 0 (Nat.zero_add _) 0
  refine .token ?_ hrows
  cases chosen <;> rfl

theorem parsed_twice {data : Csv.Bytes} {document : CsvDoc}
    (h : csv_parse_binding_document data = .ok document) :
    ∃ whole, csv_parse_opts data (some { has_header := false }) = .ok whole ∧
      document = takeHeader whole := by
  rw [csv_parse_binding_document] at h
  cases hparse : csv_parse_opts data (some { has_header := true }) with
  | error e =>
    rw [hparse] at h
    cases h
  | ok parsed =>
    rw [hparse] at h
    cases h
    obtain ⟨hempty, hparse⟩ := guard_eq_ok.mp hparse
    obtain ⟨whole, hwhole, hheader⟩ := bind_eq_ok.mp hparse
    cases hheader
    exact ⟨whole, guard_eq_ok.mpr ⟨hempty, bind_eq_ok.mpr ⟨whole, hwhole, rfl⟩⟩, rfl⟩

theorem takeHeader_rows (whole : CsvDoc) : (takeHeader whole).rows = whole.rows.drop 1 := by
  rw [takeHeader]
  split
  · next h => rw [h]; rfl
  · next h => rw [h]; rfl

theorem takeHeader_row_count (whole : CsvDoc) :
    (takeHeader whole).row_count = whole.row_count - 1 := by
  rw [CsvDoc.row_count, takeHeader_rows, List.length_drop, CsvDoc.row_count]

variable (check : ℕ → Option Bool)

/-- The first rows that match. -/
def matching (n : ℕ) : List ℕ :=
  (List.range n).filter fun i => check (i + 1) == some true

theorem matching_succ (n : ℕ) : matching check (n + 1) =
    matching check n ++ if check (n + 1) = some true then [n] else [] := by
  rw [matching, List.range_succ, List.filter_append]
  congr 1
  by_cases h : check (n + 1) = some true <;> simp [h]

theorem matching_length (n : ℕ) : (matching check n).length ≤ n := by
  have := List.length_filter_le (fun i => check (i + 1) == some true) (List.range n)
  rwa [List.length_range] at this

theorem matching_extends (n k : ℕ) : matching check n <+: matching check (n + k) := by
  induction k with
  | zero => exact List.prefix_rfl
  | succ k ih =>
    rw [← Nat.add_assoc, matching_succ]
    exact ih.trans (List.prefix_append _ _)

theorem select_rows_eq {check : ℕ → Option Bool} {first : Bool} {data_rows left k : ℕ}
    {result : List ℕ} (hroom : k + left ≤ data_rows) (hfirst : first = true → matching check k = [])
    (h : select_rows check first data_rows left (k + 1) (matching check k) = some result) :
    result = if first then (matching check (k + left)).take 1 else matching check (k + left) := by
  induction left generalizing k with
  | zero =>
    cases h
    cases first with
    | false => rfl
    | true => simp [hfirst rfl]
  | succ left ih =>
    have hlen := matching_length check k
    have hsucc := matching_succ check k
    rw [select_rows, if_pos (by omega), Nat.add_sub_cancel] at h
    rw [show k + (left + 1) = k + 1 + left by omega]
    cases hc : check (k + 1) with
    | none =>
      rw [hc] at h
      cases h
    | some matched =>
      rw [hc] at h hsucc
      cases matched with
      | false =>
        rw [if_neg (by simp), List.append_nil] at hsucc
        rw [← hsucc] at h
        exact ih (by omega) (fun hf => by rw [hsucc, hfirst hf]) h
      | true =>
        rw [if_pos rfl] at hsucc
        rw [← hsucc] at h
        cases first with
        | false => exact ih (by omega) (fun hf => nomatch hf) h
        | true =>
          rw [hfirst rfl, List.nil_append] at hsucc
          obtain ⟨more, hmore⟩ := matching_extends check (k + 1) left
          rw [← Option.some.inj h, ← hmore, hsucc]
          rfl

section
variable {D : Type} [Arithmetic D] [Comparison D] (filters : Filters D)

/-- The rows that the filter holds of, in their order, each with the map that it has in the
whole document. -/
theorem selected_rows {data : Csv.Bytes} {max_depth : ℕ} {selection : Selection} {path : Csv.Bytes}
    {reader : Reader} (hselection : selection = .path ∨ selection = .path_first)
    (h : csv_provider_open_selected filters data max_depth selection path = .ok reader) :
    ∃ document filter_document compiled whole,
      csv_parse_binding_document data = .ok document ∧
      csv_parse_opts data (some { has_header := false }) = .ok filter_document ∧
      (∀ i, filter_document.rows[i + 1]? = document.rows[i]?) ∧
      filters.compile filter_document path = .ok compiled ∧
      csv_provider_open data max_depth = .ok whole ∧
      Yields whole (.array_begin ::
        ((List.range document.row_count).flatMap (row_map document) ++ [.array_end])) ∧
      ∃ rows, rows = matching (filters.check compiled filter_document) document.row_count ∧
        Yields reader (.array_begin ::
          ((if selection = .path_first then rows.take 1 else rows).flatMap (row_map document) ++
            [.array_end])) := by
  rw [csv_provider_open_selected] at h
  split_ifs at h with hdepth hroot
  · rcases hselection with rfl | rfl <;> simp at hroot
  obtain ⟨document, hdocument, h⟩ := bind_eq_ok.mp h
  obtain ⟨filter_document, hfilter, rfl⟩ := parsed_twice hdocument
  rw [hfilter] at h
  obtain ⟨compiled, hcompiled, h⟩ := bind_eq_ok.mp h
  have hcount := takeHeader_row_count filter_document
  cases hselect : select_rows (filters.check compiled filter_document) (selection = .path_first)
      (takeHeader filter_document).row_count (filter_document.row_count - 1) 1 [] with
  | none =>
    rw [hselect] at h
    cases h
  | some chosen =>
    rw [hselect] at h
    cases h
    have hchosen := @select_rows_eq (filters.check compiled filter_document)
      (selection = .path_first) _ _ 0 chosen (by rw [hcount, Nat.zero_add]) (fun _ => rfl) hselect
    rw [Nat.zero_add, ← hcount] at hchosen
    refine ⟨takeHeader filter_document, filter_document, compiled,
      csv_reader_create (takeHeader filter_document) none (takeHeader filter_document).row_count
        false false, hdocument, hfilter, fun i => ?_, hcompiled, ?_, ?_, _, rfl, ?_⟩
    · rw [takeHeader_rows, List.getElem?_drop, Nat.add_comm]
    · rw [csv_provider_open, if_neg hdepth, hdocument]
      rfl
    · have hwhole := @reader_yields (takeHeader filter_document) none
        (List.range (takeHeader filter_document).row_count) (fun k hk => by simp)
      rwa [List.length_range] at hwhole
    · have hlist : (if selection = .path_first then
          (matching (filters.check compiled filter_document)
            (takeHeader filter_document).row_count).take 1
          else matching (filters.check compiled filter_document)
            (takeHeader filter_document).row_count) = chosen := by
        rw [hchosen]
        by_cases hf : selection = .path_first <;> simp [hf]
      rw [hlist]
      refine reader_yields _ _ fun k hk => ?_
      by_cases hz : (takeHeader filter_document).row_count = 0
      · rw [hz] at hchosen
        rw [hchosen] at hk
        simp [matching] at hk
      · rw [if_neg hz]
        simp [hk]

end

/-- The column `n` with the numbers 700 and 5. -/
def numbers : Csv.Bytes := [110, 10, 55, 48, 48, 10, 53]

theorem selected_rows_large :
    let _ := wholeArithmetic
    let _ := wholeComparison
    ∃ reader whole, csv_provider_open_selected
        ⟨fun _ _ => .ok (largeFilter, none), wholeStrtod, .parse⟩ numbers 2 .path [] = .ok reader ∧
      csv_provider_open numbers 2 = .ok whole ∧ reader.rows = some [0] := by
  intro _ _
  have hopen : csv_provider_open_selected
      ⟨fun _ _ => .ok (largeFilter, none), wholeStrtod, .parse⟩ numbers 2 .path [] =
        .ok (csv_reader_create ⟨some [[110]], [[[55, 48, 48]], [[53]]], 1⟩ (some [0]) 1 false
          false) := by
    decide +kernel
  obtain ⟨-, -, -, whole, -, -, -, -, hwhole, -⟩ := selected_rows _ (.inl rfl) hopen
  exact ⟨_, whole, hopen, hwhole, rfl⟩

end SaltsUtils.DataBind.CsvProvider
