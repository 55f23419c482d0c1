import Mathlib.Data.List.Infix
import SaltsUtils.Csv.StreamProcessor
import SaltsUtils.Library.Outcome

/-!
# Rows that a filter lets through

A filter that compiles against the header decides every row; one that does not leaves an
error behind and decides none.
-/

set_option autoImplicit false

namespace SaltsUtils.Csv

variable {F : Type}

/-- Clauses with what joins them. -/
structure Filter (F : Type) where
  first : FilterClause F
  rest : List (FilterJoin × FilterClause F)

def Filter.clauses (f : Filter F) : List (FilterClause F) := f.first :: f.rest.map Prod.snd

def Filter.joins (f : Filter F) : List FilterJoin := f.rest.map Prod.fst

def FilterJoin.apply : FilterJoin → Bool → Bool → Bool
  | .and, a, b => a && b
  | .or, a, b => a || b

section
variable (d : Doubles F)

/-- From left to right, whatever the joins are. -/
def Filter.holds (f : Filter F) (row : List Bytes) : Bool :=
  f.rest.foldl (fun result part => part.1.apply result (clause_ok d row part.2))
    (clause_ok d row f.first)

inductive FilterText (cols : List Col) : Bytes → Filter F → Prop
  | last {text behind : Bytes} {clause : FilterClause F}
      (hc : parse_clause d cols text = .ok (clause, behind)) (hend : skip_ws behind = []) :
      FilterText cols text ⟨clause, []⟩
  | join {text behind after : Bytes} {clause : FilterClause F} {join : FilterJoin} {f : Filter F}
      (hc : parse_clause d cols text = .ok (clause, behind)) (hend : skip_ws behind ≠ [])
      (hj : parse_filter_join (skip_ws behind) = some (join, after))
      (hrest : FilterText cols after f) : FilterText cols text ⟨clause, (join, f.first) :: f.rest⟩

theorem eval_filter_plan_eq (f : Filter F) (row : List Bytes) :
    eval_filter_plan d f.clauses f.joins row = f.holds d row := by
  obtain ⟨first, rest⟩ := f
  show eval_joined d row (clause_ok d row first) (rest.map Prod.fst) (rest.map Prod.snd) = _
  rw [Filter.holds]
  generalize clause_ok d row first = result
  induction rest generalizing result with
  | nil => rfl
  | cons part rest ih =>
    obtain ⟨join, clause⟩ := part
    rw [List.foldl_cons, ← ih]
    cases join <;> rfl

end

theorem skip_ws_suffix (cur : Bytes) : skip_ws cur <:+ cur := List.dropWhile_suffix _

variable {cur behind : Bytes}

theorem parse_identifier_suffix {name : Bytes} (h : parse_identifier cur = some (name, behind)) :
    behind <:+ cur ∧
      behind.length < cur.length := by
  obtain ⟨hstart, h⟩ := Option.ite_none_right_eq_some.1 h
  obtain ⟨rfl, rfl⟩ := Prod.mk.inj (Option.some.inj h)
  cases cur with
  | nil => cases hstart
  | cons c cur =>
    have hc : is_ident c = true := by
      simp only [List.head?_cons, Option.any_some, Bool.or_eq_true, decide_eq_true_eq] at hstart
      rcases hstart with h | h <;> simp [is_ident, h]
    rw [List.dropWhile_cons_of_pos hc]
    have hsuffix : cur.dropWhile is_ident <:+ cur := List.dropWhile_suffix _
    exact ⟨hsuffix.trans (List.suffix_cons c cur), Nat.lt_succ_of_le hsuffix.length_le⟩

theorem parse_filter_op_suffix {op : FilterOp} (h : parse_filter_op cur = some (op, behind)) :
    behind <:+ cur := by
  unfold parse_filter_op at h
  split at h <;> cases h <;>
    first
    | exact (List.suffix_cons _ _).trans (List.suffix_cons _ _)
    | exact List.suffix_cons _ _

theorem literal_body_suffix (last : UInt8) (cur : Bytes) : (literal_body last cur).2.1 <:+ cur := by
  fun_induction literal_body last cur with
  | case1 => exact List.suffix_rfl
  | case2 _ esc cur r hesc ih => exact ih.trans ((List.suffix_cons _ _).trans (List.suffix_cons _ _))
  | case3 _ esc cur r hesc ih => exact ih.trans ((List.suffix_cons _ _).trans (List.suffix_cons _ _))
  | case4 => exact List.suffix_cons _ _
  | case5 _ c cur hne hc r ih => exact ih.trans (List.suffix_cons _ _)

variable {text : Bytes}

theorem parse_number_token_suffix (h : parse_number_token cur = some (text, behind)) :
    behind <:+ cur := by
  obtain ⟨-, h⟩ := Option.ite_none_left_eq_some.1 h
  obtain ⟨-, rfl⟩ := Prod.mk.inj (Option.some.inj h)
  have hbody : (if cur.head?.any is_sign then cur.drop 1 else cur) <:+ cur := by
    split_ifs
    · exact List.drop_suffix _ _
    · exact List.suffix_rfl
  refine List.IsSuffix.trans ?_ hbody
  split_ifs
  all_goals first
    | exact ((List.dropWhile_suffix _).trans (List.drop_suffix _ _)).trans (List.dropWhile_suffix _)
    | exact List.dropWhile_suffix _

theorem parse_rhs_suffix {d : Doubles F} {type : ColType} {rhs : Rhs F}
    (h : parse_rhs d type cur = .ok (rhs, behind)) : behind <:+ cur := by
  unfold parse_rhs at h
  split at h
  · split at h
    · cases h
    · next text after hlit =>
      split at h <;> cases h
      obtain ⟨-, hlit⟩ := Option.ite_none_right_eq_some.1 hlit
      obtain ⟨-, rfl⟩ := Prod.mk.inj (Option.some.inj hlit)
      exact (literal_body_suffix _ _).trans (List.drop_suffix _ _)
  · split at h
    · cases h
    · next text after hnum =>
      split at h <;> cases h
      exact parse_number_token_suffix hnum

section
variable {d : Doubles F} {cols : List Col}

theorem parse_clause_shorter {clause : FilterClause F}
    (h : parse_clause d cols cur = .ok (clause, behind)) : behind.length < cur.length := by
  unfold parse_clause at h
  split at h
  · cases h
  · next name after hid =>
    split at h
    · cases h
    · split at h
      · cases h
      · next op after' hop =>
        obtain ⟨⟨rhs, last⟩, hrhs, hlast⟩ := bind_eq_ok.mp h
        cases hlast
        have hname := (parse_identifier_suffix hid).2
        have hstart := (skip_ws_suffix cur).length_le
        have hgap := (skip_ws_suffix after).length_le
        have hgap' := (skip_ws_suffix after').length_le
        have hop' := (parse_filter_op_suffix hop).length_le
        have hrhs' := (parse_rhs_suffix hrhs).length_le
        omega

theorem parse_filter_join_shorter {join : FilterJoin}
    (h : parse_filter_join cur = some (join, behind)) : behind.length ≤ cur.length := by
  unfold parse_filter_join at h
  have hdrop : (cur.dropWhile is_alpha).length ≤ cur.length :=
    (List.dropWhile_suffix is_alpha).length_le
  dsimp only at h
  split_ifs at h <;> cases h <;> exact hdrop

variable {rounds : ℕ}

theorem filterText_of_parse {clauses : List (FilterClause F)} {joins : List FilterJoin}
    (h : parse_clauses d cols rounds text = .ok (clauses, joins)) :
    ∃ f, FilterText d cols text f ∧ clauses = f.clauses ∧ joins = f.joins := by
  induction rounds generalizing text clauses joins with
  | zero => cases h
  | succ rounds ih =>
    obtain ⟨⟨clause, behind⟩, hc, h⟩ := bind_eq_ok.mp h
    dsimp only at h
    split_ifs at h with hend
    · cases h
      exact ⟨⟨clause, []⟩, .last hc hend, rfl, rfl⟩
    · split at h
      · cases h
      · next join after hj =>
        obtain ⟨⟨others, joins'⟩, hrest, h⟩ := bind_eq_ok.mp h
        cases h
        obtain ⟨f, hf, rfl, rfl⟩ := ih hrest
        exact ⟨⟨clause, (join, f.first) :: f.rest⟩, .join hc hend hj hf, rfl, rfl⟩

theorem FilterText.parse_clauses {f : Filter F} (h : FilterText d cols text f)
    (hr : text.length < rounds) : parse_clauses d cols rounds text = .ok (f.clauses, f.joins) := by
  induction h generalizing rounds with
  | last hc hend =>
    cases rounds with
    | zero => cases hr
    | succ rounds =>
      rw [Csv.parse_clauses, hc]
      simp only [bind, Except.bind]
      rw [if_pos hend]
      rfl
  | join hc hend hj hrest ih =>
    cases rounds with
    | zero => cases hr
    | succ rounds =>
      have hshort := parse_clause_shorter hc
      have hgap := (skip_ws_suffix _).length_le.trans' (parse_filter_join_shorter hj)
      rw [Csv.parse_clauses, hc]
      simp only [bind, Except.bind]
      rw [if_neg hend, hj]
      dsimp only
      rw [ih (by omega)]
      rfl

variable {message : String}

theorem parse_rhs_error {type : ColType} (h : parse_rhs d type cur = .error message) :
    message ≠ "" := by
  unfold parse_rhs at h
  split at h <;> split at h
  · cases h
    decide
  · split at h <;> cases h
    decide
  · cases h
    decide
  · split at h <;> cases h
    decide

theorem parse_clause_error (h : parse_clause d cols cur = .error message) : message ≠ "" := by
  unfold parse_clause at h
  split at h
  · cases h
    decide
  · split at h
    · cases h
      decide
    · split at h
      · cases h
        decide
      · rcases bind_eq_error.mp h with h | ⟨a, -, h⟩
        · exact parse_rhs_error h
        · cases h

theorem parse_clauses_error (h : parse_clauses d cols rounds text = .error message) :
    message ≠ "" := by
  induction rounds generalizing text with
  | zero =>
    cases h
    decide
  | succ rounds ih =>
    rcases bind_eq_error.mp h with h | ⟨a, -, h⟩
    · exact parse_clause_error h
    · dsimp only at h
      by_cases hend : skip_ws a.2 = []
      · rw [if_pos hend] at h
        cases h
      · rw [if_neg hend] at h
        split at h
        · cases h
          decide
        · rcases bind_eq_error.mp h with h | ⟨b, -, h⟩
          · exact ih h
          · cases h

end

section
variable (d : Doubles F)

/-- The plan is that of the filter, or there is none and an error. -/
def Guards (st : Setup F) (error : String) : Prop :=
  ∀ expr, st.filter_expr_str = some expr →
    (∀ f, FilterText d st.cols expr f → st.filter_compiled = true ∧
      st.filter_clauses = f.clauses ∧ st.filter_joins = f.joins) ∧
    ((¬ ∃ f, FilterText d st.cols expr f) → st.filter_compiled = false ∧ error ≠ "")

def Guarded (p : Setup F × Results F) : Prop :=
  p.1.header_parsed = true → p.1.cols ≠ [] ∧ Guards d p.1 p.2.error

/-- What a processor comes to, one call and one line at a time. -/
inductive Reached (opts : Option CsvOptions) : CsvStreamProcessor F → Prop
  | create : Reached opts (csv_stream_processor_create opts)
  | set_filter {p : CsvStreamProcessor F} (h : Reached opts p) (expr : Bytes) :
      Reached opts (csv_stream_processor_set_filter d p expr).2
  | set_columns {p : CsvStreamProcessor F} (h : Reached opts p) (names : Bytes) :
      Reached opts (csv_stream_processor_set_columns p names)
  | data {p : CsvStreamProcessor F} (h : Reached opts p) (data : Bytes) :
      Reached opts { p with line_buf := p.line_buf ++ data }
  | line {p : CsvStreamProcessor F} (h : Reached opts p) (line rest : Bytes) :
      Reached opts (p.process d line rest)

def line_row (st : Setup F) (line : Bytes) : List Bytes :=
  row_fields st (split_csv_line st.opts (strip_cr line))

end

variable {d : Doubles F}

theorem Reached.feed {opts : Option CsvOptions} {p : CsvStreamProcessor F} (h : Reached d opts p)
    (data : Bytes) : Reached d opts (csv_stream_processor_feed d p data) := by
  have hrounds : ∀ (rounds : ℕ) {q : CsvStreamProcessor F}, Reached d opts q →
      Reached d opts (flush_rounds d rounds q) := by
    intro rounds
    induction rounds with
    | zero => exact id
    | succ rounds ih =>
      intro q hq
      rw [flush_rounds]
      split_ifs
      · exact ih (hq.line _ _)
      · exact hq
  rw [csv_stream_processor_feed]
  split_ifs
  · exact h
  · exact hrounds _ (h.data data)

theorem compile_cols (st : Setup F) (error : String) :
    (compile_filter_plan d st error).2.1.cols = st.cols := by
  rw [compile_filter_plan]
  split
  · rfl
  · split_ifs
    · rfl
    · split <;> rfl

theorem compile_filter_expr (st : Setup F) (error : String) :
    (compile_filter_plan d st error).2.1.filter_expr_str = st.filter_expr_str := by
  rw [compile_filter_plan]
  split
  · rfl
  · split_ifs
    · rfl
    · split <;> rfl

theorem compile_guards {st : Setup F} (hc : st.cols ≠ []) (error : String) :
    Guards d (compile_filter_plan d st error).2.1 (compile_filter_plan d st error).2.2 := by
  intro expr he
  rw [compile_filter_expr] at he
  rw [compile_cols]
  constructor
  · intro f hf
    rw [compile_filter_plan, he]
    dsimp only
    rw [if_neg hc, hf.parse_clauses (Nat.lt_succ_self _)]
    exact ⟨rfl, rfl, rfl⟩
  · intro hno
    rw [compile_filter_plan, he]
    dsimp only
    rw [if_neg hc]
    cases hparse : parse_clauses d st.cols (expr.length + 1) expr with
    | error message => exact ⟨rfl, parse_clauses_error hparse⟩
    | ok r =>
      obtain ⟨f, hf, -⟩ := filterText_of_parse (show parse_clauses d st.cols (expr.length + 1)
        expr = .ok (r.1, r.2) from hparse)
      exact absurd ⟨f, hf⟩ hno

variable {line : Bytes}

theorem header_cols_ne_nil (opts : CsvOptions) (h : line ≠ []) : header_cols opts line ≠ [] := by
  obtain ⟨c, line, rfl⟩ := List.exists_cons_of_ne_nil h
  intro hnil
  rw [header_cols, List.mapIdx_eq_nil_iff, split_csv_line, max_fields, split_fields] at hnil
  dsimp only at hnil
  split_ifs at hnil

theorem process_row_guarded {st : Setup F} {res : Results F} (h : Guarded d (st, res))
    (line : Bytes) : Guarded d (st, process_row d st res line) := by
  intro hp
  obtain ⟨hcols, hguards⟩ := h hp
  refine ⟨hcols, fun expr he => ⟨(hguards expr he).1, fun hno => ?_⟩⟩
  obtain ⟨hcompiled, herror⟩ := (hguards expr he).2 hno
  refine ⟨hcompiled, ?_⟩
  rw [process_row]
  dsimp only
  split_ifs
  · exact herror
  · simp
  · exact herror
  · exact herror

theorem parse_header_guarded {st : Setup F} {res : Results F} (hl : line ≠ []) :
    Guarded d (parse_header d st res line) := by
  rintro -
  have hc := header_cols_ne_nil st.opts hl
  unfold parse_header
  by_cases hexpr : st.filter_expr_str.isSome = true
  · rw [if_pos hexpr]
    refine ⟨?_, compile_guards hc res.error⟩
    rw [compile_cols]
    exact hc
  · rw [if_neg hexpr]
    refine ⟨hc, fun expr he => ?_⟩
    rw [he] at hexpr
    simp at hexpr

theorem process_line_guarded {p : Setup F × Results F} (h : Guarded d p) (line : Bytes) :
    Guarded d (process_line d p line) := by
  obtain ⟨st, res⟩ := p
  rw [process_line]
  split_ifs with hl hp
  · exact h
  · exact process_row_guarded h _
  · exact parse_header_guarded hl

theorem set_filter_guarded {p : CsvStreamProcessor F} (h : Guarded d (p.setup, p.results))
    (expr : Bytes) : Guarded d ((csv_stream_processor_set_filter d p expr).2.setup,
      (csv_stream_processor_set_filter d p expr).2.results) := by
  by_cases hheader : p.setup.header_parsed = true
  · have hset : csv_stream_processor_set_filter d p expr =
        let r := compile_filter_plan d
          (free_filter_plan { p.setup with filter_expr_str := some expr }) p.results.error
        (r.1, { p with setup := r.2.1, results := { p.results with error := r.2.2 } }) :=
      if_pos hheader
    have hcols : (free_filter_plan { p.setup with filter_expr_str := some expr }).cols ≠ [] :=
      (h hheader).1
    rw [hset]
    refine fun _ => ⟨?_, compile_guards hcols p.results.error⟩
    rw [compile_cols]
    exact hcols
  · have hset : csv_stream_processor_set_filter d p expr =
        (true, { p with setup := free_filter_plan { p.setup with filter_expr_str := some expr } }) :=
      if_neg hheader
    rw [hset]
    exact fun hp => absurd hp hheader

theorem reached_guarded {opts : Option CsvOptions} {p : CsvStreamProcessor F}
    (h : Reached d opts p) : Guarded d (p.setup, p.results) := by
  induction h with
  | create => exact fun hp => nomatch hp
  | set_filter _ expr ih => exact set_filter_guarded ih expr
  | set_columns _ _ ih => exact ih
  | data _ _ ih => exact ih
  | line _ line _ ih => exact process_line_guarded ih line

theorem process_row_count (st : Setup F) (res : Results F) (line : Bytes) :
    (process_row d st res line).match_count = res.match_count ∨
      (process_row d st res line).match_count = res.match_count + 1 ∧
        ¬ (st.filter_compiled = true ∧ eval_filter_plan d st.filter_clauses st.filter_joins
          (row_fields st (split_csv_line st.opts line)) = false) := by
  rw [process_row]
  dsimp only
  split_ifs with hspans hroom hfilter
  · exact .inl rfl
  · exact .inl rfl
  · exact .inl rfl
  · exact .inr ⟨rfl, hfilter⟩

theorem process_row_counted {st : Setup F} (res : Results F) (hl : line ≠ [])
    (hroom : total_need st (split_csv_line st.opts line) ≤ row_room)
    (hfilter : st.filter_compiled = false) :
    (process_row d st res line).match_count = res.match_count + 1 := by
  have hspans : split_csv_line st.opts line ≠ [] := by
    have hcols := header_cols_ne_nil st.opts hl
    rw [header_cols] at hcols
    exact fun hnil => hcols (by rw [hnil]; rfl)
  rw [process_row]
  rw [if_neg hspans, if_neg (by omega), if_neg (by simp [hfilter])]
  rfl

def unit_doubles : Doubles Unit where
  of_uint64 _ := ()
  div _ _ := ()
  neg _ := ()
  eq _ _ := true
  lt _ _ := false
  le _ _ := true

/-- The filter `x > 1`, then the header `y` and a row. -/
def unknown_column : CsvStreamProcessor Unit :=
  (csv_stream_processor_set_filter unit_doubles (csv_stream_processor_create none)
    [120, 62, 49]).2

end SaltsUtils.Csv
