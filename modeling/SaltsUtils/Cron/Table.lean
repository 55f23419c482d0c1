import Mathlib.Data.List.DropRight
import SaltsUtils.Cron.Expression
import SaltsUtils.Library.Reader

/-!
# Crontab loaders

The two table loaders of `src/cron/src/salts_cron.c`.
-/

set_option autoImplicit false

namespace SaltsUtils.Cron

structure Entry where
  expr : SaltsCronExpr
  payload : List Char
deriving DecidableEq

abbrev Table := List Entry

def is_blank (c : Char) : Bool := c = ' ' || c = '\t'

def is_space (c : Char) : Bool := c = ' ' || c = '\t' || c = '\r' || c = '\n'

def cron_trim_span (text : List Char) : List Char := (text.dropWhile is_space).rdropWhile is_space

def after_fields : ℕ → List Char → Option (List Char)
  | 0, p => some p
  | n + 1, p =>
    match p.dropWhile is_blank with
    | [] => none
    | c::field => after_fields n ((c::field).dropWhile fun d => !is_blank d)

/-- The five fields and the text behind them. -/
def cron_split_entry_line (line : List Char) : Option (List Char × List Char) :=
  let expr_start := line.dropWhile is_blank
  (after_fields 5 expr_start).map fun p =>
    (expr_start.take (expr_start.length - p.length), p.dropWhile is_blank)

section Loaders

def lineError (line_no : ℕ) (code : Status) (text : String) : CronError :=
  ⟨code, "line " ++ toString line_no ++ ": " ++ text⟩

def cron_read_entry (line_no : ℕ) (trimmed : List Char) : Except CronError Entry :=
  match cron_split_entry_line trimmed with
  | none => .error (lineError line_no .eparse "expected 5 cron fields followed by payload")
  | some (expr, payload) =>
    if payload = [] then
      .error (lineError line_no .eparse "missing payload after cron expression")
    else
      match salts_cron_parse_ex (some expr) true with
      | .error e => .error (lineError line_no e.code e.text)
      | .ok expr => .ok ⟨expr, payload⟩

def skipped (trimmed : List Char) : Bool := trimmed = [] || trimmed.head? = some '#'

/-- The body of both loops. -/
def cron_table_load_line (line_no : ℕ) (line : List Char) (table : Table) :
    Except CronError Table :=
  let trimmed := cron_trim_span line
  if skipped trimmed then .ok table
  else (cron_read_entry line_no trimmed).map fun entry => table ++ [entry]

def cron_table_load_lines : ℕ → List (List Char) → Table → Except CronError Table
  | _, [], table => .ok table
  | line_no, line::lines, table => do
    let table ← cron_table_load_line (line_no + 1) line table
    cron_table_load_lines (line_no + 1) lines table

def next_line : List Char → List Char × List Char
  | [] => ([], [])
  | c::text => if c = '\n' then ([c], text) else (c::(next_line text).1, (next_line text).2)

def fgets : ℕ → List Char → List Char × List Char
  | 0, text => ([], text)
  | _ + 1, [] => ([], [])
  | n + 1, c::text => if c = '\n' then ([c], text) else (c::(fgets n text).1, (fgets n text).2)

def stringReader : Reader Char where
  next := next_line
  whole text := by
    induction text with
    | nil => rfl
    | cons c text ih => rw [next_line]; split <;> simp [ih]
  moves text h := by
    cases text with
    | nil => contradiction
    | cons c text => rw [next_line]; split <;> simp

/-- `line_buf` has 2048 bytes. -/
def fileReader : Reader Char where
  next := fgets 2047
  whole text := by
    generalize 2047 = n
    induction n generalizing text with
    | zero => rfl
    | succ n ih =>
      cases text with
      | nil => rfl
      | cons c text => rw [fgets]; split <;> simp [ih]
  moves text h := by
    cases text with
    | nil => contradiction
    | cons c text => rw [fgets]; split <;> simp

def loaded (out_table : Table) : Except CronError Table → Except CronError Unit × Option Table
  | .ok table => (.ok (), some table)
  | .error e => (.error e, some out_table)

def salts_cron_table_load_string (text : Option (List Char)) (out_table : Option Table) :
    Except CronError Unit × Option Table :=
  match text, out_table with
  | some text, some out_table =>
    let lines := (stringReader.all text).map fun line => line.takeWhile fun c => c ≠ '\n'
    loaded out_table (cron_table_load_lines 0 lines [])
  | _, _ => (.error ⟨.einval, "text and output are required"⟩, out_table)

def salts_cron_table_load_file (fopen : String → Option (List Char)) (path : Option String)
    (out_table : Option Table) : Except CronError Unit × Option Table :=
  match path, out_table with
  | some path, some out_table =>
    match fopen path with
    | none => (.error ⟨.einval, "failed to open file '" ++ path ++ "'"⟩, some out_table)
    | some content => loaded out_table (cron_table_load_lines 0 (fileReader.all content) [])
  | _, _ => (.error ⟨.einval, "path and output are required"⟩, out_table)

end Loaders

def Refusal (e : CronError) : Prop := e.code = .eparse

theorem parseError_refuses {α : Type} {Q : α → Prop} (text : String) :
    Meets Refusal Q (parseError text) := rfl

theorem parser_advance_refuses (p : FieldParser) :
    Meets Refusal (fun _ => True) (cron_parser_advance p) := by
  unfold cron_parser_advance
  dsimp only
  split
  · exact parseError_refuses _
  · trivial

theorem parse_value_refuses (p : FieldParser) :
    Meets Refusal (fun _ => True) (cron_parse_value p) := by
  refine Meets.bind (Q := fun _ => True) ?_ fun raw _ => ?_
  · unfold cron_raw_value
    split
    · trivial
    · split
      · trivial
      · exact parseError_refuses _
    · exact parseError_refuses _
  · split
    · exact parseError_refuses _
    · exact Meets.bind (parser_advance_refuses p) fun _ _ => trivial

theorem parse_step_refuses (p : FieldParser) :
    Meets Refusal (fun _ => True) (cron_parse_step p) := by
  unfold cron_parse_step
  split
  · exact parseError_refuses _
  · split
    · exact parseError_refuses _
    · exact Meets.bind (parser_advance_refuses p) fun _ _ => trivial

theorem apply_range_loop_refuses (spec : FieldSpec) (stop step : ℤ) (fuel : ℕ) :
    ∀ raw bits, Meets Refusal (fun _ => True) (cron_apply_range_loop spec stop step fuel raw bits) := by
  induction fuel with
  | zero => exact fun _ _ => trivial
  | succ fuel ih =>
    intro raw bits
    rw [cron_apply_range_loop]
    split
    · split
      · exact parseError_refuses _
      · exact ih _ _
    · trivial

theorem parse_term_refuses (p : FieldParser) (bits : BitVec 64) :
    Meets Refusal (fun _ => True) (cron_parse_term p bits) := by
  refine Meets.bind (Q := fun _ => True) ?_ fun range _ => ?_
  · unfold cron_term_range
    split
    · exact Meets.bind (parser_advance_refuses p) fun _ _ => trivial
    · refine Meets.bind (parse_value_refuses p) fun first _ => ?_
      split
      · exact Meets.bind (parser_advance_refuses _) fun next _ =>
          Meets.bind (parse_value_refuses next) fun _ _ => trivial
      · trivial
  · refine Meets.bind (Q := fun _ => True) ?_ fun step _ => ?_
    · unfold cron_term_step
      split
      · exact Meets.bind (parser_advance_refuses _) fun next _ =>
          Meets.bind (parse_step_refuses next) fun _ _ => trivial
      · trivial
    · refine Meets.bind (Q := fun _ => True) ?_ fun _ _ => trivial
      unfold cron_apply_range
      split
      · exact parseError_refuses _
      · split
        · exact parseError_refuses _
        · exact apply_range_loop_refuses _ _ _ _ _ _

theorem parse_field_loop_refuses (fuel : ℕ) :
    ∀ p bits, Meets Refusal (fun _ => True) (cron_parse_field_loop fuel p bits) := by
  induction fuel with
  | zero => exact fun p _ => parseError_refuses _
  | succ fuel ih =>
    intro p bits
    rw [cron_parse_field_loop]
    split
    · trivial
    · refine Meets.bind (parse_term_refuses p bits) fun term _ => ?_
      split
      · exact Meets.bind (parser_advance_refuses _) fun next _ => ih _ _
      · split
        · exact ih _ _
        · exact parseError_refuses _

theorem parse_field_refuses (text : List Char) (spec : FieldSpec) :
    Meets Refusal (fun _ => True) (cron_parse_field text spec) := by
  refine Meets.bind (parser_advance_refuses _) fun p _ => ?_
  split
  · exact parseError_refuses _
  · exact Meets.bind (parse_field_loop_refuses _ _ _) fun _ _ => trivial

theorem parse_ex_refuses (expression : List Char) :
    Meets Refusal (fun _ => True) (salts_cron_parse_ex (some expression) true) := by
  refine Meets.bind (Q := fun _ => True) ?_ fun fields _ => ?_
  · unfold cron_split_fields
    dsimp only
    split
    · exact parseError_refuses _
    · split
      · exact parseError_refuses _
      · trivial
  · generalize ({} : SaltsCronExpr) = parsed
    generalize List.zip fields cronSpecs = list
    induction list generalizing parsed with
    | nil => trivial
    | cons field list ih =>
      exact Meets.bind (parse_field_refuses _ _) fun _ _ => ih _

def entry_of (trimmed : List Char) : Option Entry := (cron_read_entry 0 trimmed).toOption

theorem read_entry_cases (line_no : ℕ) (trimmed : List Char) :
    match entry_of trimmed with
    | some entry => cron_read_entry line_no trimmed = .ok entry
    | none => ∃ e, cron_read_entry line_no trimmed = .error e ∧ Refusal e := by
  unfold entry_of cron_read_entry
  cases hs : cron_split_entry_line trimmed with
  | none => exact ⟨_, rfl, rfl⟩
  | some r =>
    by_cases hp : r.2 = []
    · simp only [if_pos hp]
      exact ⟨_, rfl, rfl⟩
    · simp only [if_neg hp]
      have hr := parse_ex_refuses r.1
      cases hx : salts_cron_parse_ex (some r.1) true with
      | error e =>
        have hcode : e.code = .eparse := hr.of_error hx
        exact ⟨_, rfl, hcode⟩
      | ok expr => rfl

def entry_lines (lines : List (List Char)) : List (List Char) :=
  (lines.map cron_trim_span).filter fun trimmed => !skipped trimmed

theorem entry_lines_cons (line : List Char) (lines : List (List Char)) :
    entry_lines (line::lines) = entry_lines [line] ++ entry_lines lines := by
  simp only [entry_lines, List.map_cons, List.map_nil, List.filter_cons, List.filter_nil]
  split <;> rfl

theorem load_lines_entries (lines : List (List Char)) : ∀ (line_no : ℕ) (table : Table),
    match (entry_lines lines).mapM entry_of with
    | some entries => cron_table_load_lines line_no lines table = .ok (table ++ entries)
    | none => ∃ e, cron_table_load_lines line_no lines table = .error e ∧ Refusal e := by
  induction lines with
  | nil => exact fun _ table => congrArg Except.ok (List.append_nil table).symm
  | cons line lines ih =>
    intro line_no table
    rw [cron_table_load_lines, cron_table_load_line]
    by_cases hskip : skipped (cron_trim_span line)
    · have hlines : entry_lines (line::lines) = entry_lines lines := by
        simp [entry_lines, hskip]
      rw [hlines]
      simp only [if_pos hskip]
      exact ih (line_no + 1) table
    · have hlines : entry_lines (line::lines) = cron_trim_span line::entry_lines lines := by
        simp [entry_lines, hskip]
      rw [hlines, List.mapM_cons]
      simp only [if_neg hskip]
      have hread := read_entry_cases (line_no + 1) (cron_trim_span line)
      cases he : entry_of (cron_trim_span line) with
      | none =>
        rw [he] at hread
        obtain ⟨e, hr, hcode⟩ := hread
        rw [hr]
        exact ⟨e, rfl, hcode⟩
      | some entry =>
        rw [he] at hread
        rw [hread]
        have hrest := ih (line_no + 1) (table ++ [entry])
        cases hm : (entry_lines lines).mapM entry_of with
        | none =>
          rw [hm] at hrest
          exact hrest
        | some entries =>
          rw [hm] at hrest
          exact hrest.trans (congrArg Except.ok (List.append_assoc table [entry] entries))

end SaltsUtils.Cron
