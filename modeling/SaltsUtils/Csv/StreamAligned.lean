import SaltsUtils.Csv.StreamProcessor
import SaltsUtils.Library.Framing

/-!
# What the stream processor stores

The lines that have been processed are those of the text so far, however it was cut into
calls. Behind the header each row that passes has its entry in every selected column.
-/

set_option autoImplicit false

namespace SaltsUtils.Csv

variable {F : Type}

variable {line : Bytes}

theorem verdict_line (h : lf ∉ line) (rest : Bytes) :
    (line ++ lf :: rest).takeWhile (· != lf) = line ∧
      (line ++ lf :: rest).dropWhile (· != lf) = lf :: rest := by
  have hall : ∀ c ∈ line, (c != lf) = true := fun c hc => bne_iff_ne.mpr fun he => h (he ▸ hc)
  rw [List.takeWhile_append_of_pos hall, List.dropWhile_append_of_pos hall]
  exact ⟨List.append_nil line, rfl⟩

def line_verdict (text : Bytes) : Verdict Bytes :=
  if lf ∈ text then
    .message (text.takeWhile (· != lf)) ((text.takeWhile (· != lf)).length + 1)
  else .more

theorem line_verdict_eq (h : lf ∉ line) (rest : Bytes) :
    line_verdict (line ++ lf :: rest) = .message line (line.length + 1) := by
  rw [line_verdict, if_pos (List.mem_append_right _ List.mem_cons_self), (verdict_line h rest).1]

variable {text : Bytes}

theorem line_verdict_message {m : Bytes} {n : ℕ} (h : line_verdict text = .message m n) :
    ∃ rest, text = m ++ lf :: rest ∧ lf ∉ m ∧ n = m.length + 1 := by
  by_cases hmem : lf ∈ text
  · obtain ⟨line, rest, rfl, hline⟩ := List.eq_append_cons_of_mem hmem
    rw [line_verdict_eq hline] at h
    cases h
    exact ⟨rest, rfl, hline, rfl⟩
  · rw [line_verdict, if_neg hmem] at h
    cases h

def line_framing : Framing UInt8 Bytes where
  verdict := line_verdict
  size_pos h := by
    obtain ⟨rest, rfl, hm, rfl⟩ := line_verdict_message h
    exact Nat.succ_pos _
  size_le h := by
    obtain ⟨rest, rfl, hm, rfl⟩ := line_verdict_message h
    rw [List.length_append, List.length_cons]
    omega
  message_append after h := by
    obtain ⟨rest, rfl, hm, rfl⟩ := line_verdict_message h
    rw [List.append_assoc, List.cons_append, line_verdict_eq hm]
  refused_append after h := by
    unfold line_verdict at h
    split at h <;> cases h

theorem stuck_iff : line_framing.Stuck text ↔ lf ∉ text := by
  constructor
  · intro hs hmem
    exact hs _ _ (if_pos hmem)
  · intro hno m n h
    obtain ⟨rest, rfl, -, -⟩ := line_verdict_message h
    exact hno (List.mem_append_right _ List.mem_cons_self)

theorem drop_line (line rest : Bytes) : (line ++ lf :: rest).drop (line.length + 1) = rest := by
  rw [List.drop_append, List.drop_eq_nil_of_le (Nat.le_succ _), Nat.add_sub_cancel_left]
  rfl

theorem reads_split {rest : Bytes} {lines : List Bytes} (h : line_framing.Reads text lines rest)
    (hs : line_framing.Stuck rest) : text.splitOn lf = lines ++ [rest] := by
  induction h with
  | stop text => exact List.splitOn_eq_singleton (stuck_iff.mp hs)
  | @next text m n ms rest hv hr ih =>
    obtain ⟨behind, rfl, hm, rfl⟩ := line_verdict_message hv
    rw [List.splitOn_append_cons_self_of_not_mem hm, ← drop_line m behind, ih hs]
    rfl

section
variable (d : Doubles F)

def CsvStreamProcessor.after (p : CsvStreamProcessor F) (lines : List Bytes) (rest : Bytes) :
    CsvStreamProcessor F :=
  let r := lines.foldl (process_line d) (p.setup, p.results)
  ⟨rest, r.1, r.2⟩

variable {p : CsvStreamProcessor F}

theorem flush_rounds_reads {rounds : ℕ} (h : p.line_buf.length ≤ rounds) :
    ∃ lines rest, line_framing.Reads p.line_buf lines rest ∧ line_framing.Stuck rest ∧
      flush_rounds d rounds p = p.after d lines rest := by
  induction rounds generalizing p with
  | zero =>
    have hnil : p.line_buf = [] := List.eq_nil_of_length_eq_zero (Nat.le_zero.mp h)
    refine ⟨[], p.line_buf, .stop _, stuck_iff.mpr ?_, rfl⟩
    rw [hnil]
    exact List.not_mem_nil
  | succ rounds ih =>
    rw [flush_rounds]
    by_cases hmem : lf ∈ p.line_buf
    · obtain ⟨line, rest, he, hline⟩ := List.eq_append_cons_of_mem hmem
      obtain ⟨htake, hdrop⟩ := verdict_line hline rest
      have hlen : rest.length ≤ rounds := by
        rw [he, List.length_append, List.length_cons] at h
        omega
      rw [if_pos hmem, he, htake, hdrop]
      obtain ⟨lines, last, hr, hs, hf⟩ := ih (p := p.process d line rest) hlen
      refine ⟨line :: lines, last, ?_, hs, hf⟩
      refine .next (line_verdict_eq hline rest) ?_
      rw [drop_line]
      exact hr
    · rw [if_neg hmem]
      exact ⟨[], p.line_buf, .stop _, stuck_iff.mpr hmem, rfl⟩

theorem after_after (p : CsvStreamProcessor F) (lines lines' : List Bytes) (rest rest' : Bytes) :
    (p.after d lines rest).after d lines' rest' = p.after d (lines ++ lines') rest' := by
  rw [CsvStreamProcessor.after, CsvStreamProcessor.after, CsvStreamProcessor.after,
    List.foldl_append]

theorem feed_reads (hs : line_framing.Stuck p.line_buf) (data : Bytes) :
    ∃ lines rest, line_framing.Reads (p.line_buf ++ data) lines rest ∧ line_framing.Stuck rest ∧
      csv_stream_processor_feed d p data = p.after d lines rest := by
  unfold csv_stream_processor_feed
  split_ifs with hd
  · rw [hd, List.append_nil]
    exact ⟨[], p.line_buf, .stop _, hs, rfl⟩
  · obtain ⟨lines, rest, hr, hstuck, hf⟩ :=
      flush_rounds_reads d (p := { p with line_buf := p.line_buf ++ data }) (Nat.le_refl _)
    exact ⟨lines, rest, hr, hstuck, hf⟩

def feeds_all (p : CsvStreamProcessor F) (chunks : List Bytes) : CsvStreamProcessor F :=
  chunks.foldl (csv_stream_processor_feed d) p

theorem feeds_all_reads (hs : line_framing.Stuck p.line_buf) (chunks : List Bytes) :
    ∃ lines rest, line_framing.Reads (p.line_buf ++ chunks.flatten) lines rest ∧
      line_framing.Stuck rest ∧ feeds_all d p chunks = p.after d lines rest := by
  induction chunks generalizing p with
  | nil =>
    rw [List.flatten_nil, List.append_nil]
    exact ⟨[], p.line_buf, .stop _, hs, rfl⟩
  | cons data chunks ih =>
    obtain ⟨lines, rest, hr, hstuck, hf⟩ := feed_reads d hs data
    have hbuf : (p.after d lines rest).line_buf = rest := rfl
    obtain ⟨lines', rest', hr', hstuck', hf'⟩ := ih (p := p.after d lines rest) hstuck
    rw [hbuf] at hr'
    refine ⟨lines ++ lines', rest', ?_, hstuck', ?_⟩
    · rw [List.flatten_cons, ← List.append_assoc]
      exact Framing.reads_trans (Framing.reads_append _ hr) hr'
    · rw [feeds_all, List.foldl_cons, hf, ← after_after]
      exact hf'

theorem finish_line_buf (p : CsvStreamProcessor F) :
    (csv_stream_processor_finish d p).line_buf = [] := by
  unfold csv_stream_processor_finish
  split_ifs with h
  · exact h
  · rfl

def kept_lines (lines : List Bytes) : List Bytes := (lines.map strip_cr).filter (· ≠ [])

def complete_lines (text : Bytes) : List Bytes := kept_lines (text.splitOn lf).dropLast

def all_lines (text : Bytes) : List Bytes := kept_lines (text.splitOn lf)

def take_line (p : Setup F × Results F) (line : Bytes) : Setup F × Results F :=
  if p.1.header_parsed then (p.1, process_row d p.1 p.2 line) else parse_header d p.1 p.2 line

theorem process_lines (p : Setup F × Results F) (lines : List Bytes) :
    lines.foldl (process_line d) p = (kept_lines lines).foldl (take_line d) p := by
  induction lines generalizing p with
  | nil => rfl
  | cons line lines ih =>
    rw [List.foldl_cons, ih, kept_lines, kept_lines, List.map_cons]
    by_cases hnil : strip_cr line = []
    · rw [List.filter_cons_of_neg (by simp [hnil]), process_line,
        if_pos hnil]
    · rw [List.filter_cons_of_pos (by simp [hnil]), List.foldl_cons, process_line,
        if_neg hnil]
      rfl

/-- The lines have been taken one by one. -/
def Took (p : CsvStreamProcessor F) (lines : List Bytes) (p' : CsvStreamProcessor F) : Prop :=
  (p'.setup, p'.results) = lines.foldl (take_line d) (p.setup, p.results)

theorem feeds_all_took (hb : p.line_buf = []) (chunks : List Bytes) :
    Took d p (complete_lines chunks.flatten) (feeds_all d p chunks) ∧
      Took d p (all_lines chunks.flatten)
        (csv_stream_processor_finish d (feeds_all d p chunks)) := by
  have hs : line_framing.Stuck p.line_buf := by
    rw [hb]
    exact stuck_iff.mpr List.not_mem_nil
  obtain ⟨lines, rest, hr, hstuck, hf⟩ := feeds_all_reads d hs chunks
  rw [hb, List.nil_append] at hr
  have hsplit := reads_split hr hstuck
  rw [complete_lines, all_lines, hsplit, List.dropLast_concat, hf]
  constructor
  · exact process_lines d _ lines
  · unfold csv_stream_processor_finish
    split_ifs with hrest
    · have hrest : rest = [] := hrest
      have hkept : kept_lines (lines ++ [rest]) = kept_lines lines := by
        rw [kept_lines, List.map_append, List.filter_append, hrest]
        exact List.append_nil _
      rw [hkept]
      exact process_lines d _ lines
    · rw [Took, ← process_lines, List.foldl_append]
      rfl

def accepted_row (st : Setup F) (line : Bytes) : Option (List Bytes) :=
  let spans := split_csv_line st.opts line
  if spans = [] ∨ row_room < total_need st spans then none
  else if st.filter_compiled ∧
      eval_filter_plan d st.filter_clauses st.filter_joins (row_fields st spans) = false then none
  else some (row_fields st spans)

theorem row_fields_length (st : Setup F) (spans : List Bytes) :
    (row_fields st spans).length = st.cols.length := by
  rw [row_fields, List.length_append, List.length_map, List.length_take, List.length_replicate]
  omega

variable {st : Setup F}

theorem accepted_row_length {row : List Bytes} (h : accepted_row d st line = some row) :
    row.length = st.cols.length := by
  unfold accepted_row at h
  simp only at h
  split_ifs at h
  cases h
  exact row_fields_length st _

theorem process_row_eq (st : Setup F) (res : Results F) (line : Bytes) :
    (∃ error, accepted_row d st line = none ∧
      process_row d st res line = { res with error := error }) ∨
    ∃ row, accepted_row d st line = some row ∧ process_row d st res line = store_row d st res row := by
  unfold accepted_row process_row
  simp only
  by_cases hnil : split_csv_line st.opts line = []
  · rw [if_pos (.inl hnil), if_pos hnil]
    exact .inl ⟨_, rfl, rfl⟩
  · rw [if_neg hnil]
    by_cases hwide : row_room < total_need st (split_csv_line st.opts line)
    · rw [if_pos (.inr hwide), if_pos hwide]
      exact .inl ⟨_, rfl, rfl⟩
    · rw [if_neg fun h => h.elim hnil hwide, if_neg hwide]
      split_ifs
      · exact .inl ⟨_, rfl, rfl⟩
      · exact .inr ⟨_, rfl, rfl⟩

def entries (st : Setup F) (row : List Bytes) : List (Option Bytes) :=
  row.mapIdx fun i field => if st.keeps .string i then some field else none

theorem keeps_lt {type : ColType} {i : ℕ} (h : st.keeps type i = true) : i < st.cols.length := by
  by_contra hge
  rw [Setup.keeps, List.getElem?_eq_none (Nat.le_of_not_lt hge)] at h
  exact Bool.noConfusion ((Bool.and_false _).symm.trans h)

structure Stored (st : Setup F) (res : Results F) (rows : List (List Bytes)) : Prop where
  width : ∀ row ∈ rows, row.length = st.cols.length
  count : res.match_count = rows.length
  numbers : ∀ i, st.keeps .number i = true →
    res.num_vecs[i]? = some (rows.map fun row => fast_atof d (row.getD i []))
  strings : (∃ i, st.keeps .string i = true) →
    res.str_store.col_count = st.cols.length ∧ res.str_store.rows = rows.map (entries st)

variable {res : Results F} {rows : List (List Bytes)}

theorem store_row_stored (h : Stored d st res rows) {row : List Bytes}
    (hw : row.length = st.cols.length) : Stored d st (store_row d st res row) (rows ++ [row]) where
  width r hr := by
    obtain hr | hr := List.mem_append.mp hr
    · exact h.width r hr
    · rw [List.mem_singleton.mp hr, hw]
  count := by
    rw [List.length_append, ← h.count]
    rfl
  numbers i hi := by
    rw [store_row, List.getElem?_mapIdx, h.numbers i hi, List.map_append]
    change some (if st.keeps .number i = true then _ else _) = _
    rw [if_pos hi]
    rfl
  strings hs := by
    obtain ⟨hc, hr⟩ := h.strings hs
    obtain ⟨i, hi⟩ := hs
    have hpos : res.str_store.col_count ≠ 0 := by
      rw [hc]
      exact Nat.ne_of_gt (Nat.zero_lt_of_lt (keeps_lt hi))
    have htake : row.take res.str_store.col_count = row := by
      rw [hc, ← hw, List.take_length]
    rw [store_row]
    simp only
    rw [if_neg hpos, str_store_push_row, htake, List.map_append, ← hr]
    exact ⟨hc, rfl⟩

theorem Stored.error (h : Stored d st res rows) (error : String) :
    Stored d st { res with error := error } rows :=
  ⟨h.width, h.count, h.numbers, h.strings⟩

theorem process_row_stored (h : Stored d st res rows) (line : Bytes) :
    Stored d st (process_row d st res line) (rows ++ (accepted_row d st line).toList) := by
  obtain ⟨error, hno, he⟩ | ⟨row, hrow, he⟩ := process_row_eq d st res line
  · rw [hno, he, Option.toList_none, List.append_nil]
    exact h.error d error
  · rw [hrow, he]
    exact store_row_stored d h (accepted_row_length d hrow)

theorem take_rows (hp : st.header_parsed = true) (h : Stored d st res rows) (lines : List Bytes) :
    (lines.foldl (take_line d) (st, res)).1 = st ∧
      Stored d st (lines.foldl (take_line d) (st, res)).2
        (rows ++ lines.filterMap (accepted_row d st)) := by
  induction lines generalizing res rows with
  | nil =>
    rw [List.filterMap_nil, List.append_nil]
    exact ⟨rfl, h⟩
  | cons line lines ih =>
    have hstep : take_line d (st, res) line = (st, process_row d st res line) := if_pos hp
    obtain ⟨hst, hstored⟩ := ih (process_row_stored d h line)
    rw [List.foldl_cons, hstep]
    have hcons : (line :: lines).filterMap (accepted_row d st) =
        (accepted_row d st line).toList ++ lines.filterMap (accepted_row d st) := by
      rw [List.filterMap_cons]
      cases accepted_row d st line <;> rfl
    rw [hcons, ← List.append_assoc]
    exact ⟨hst, hstored⟩

/-- Setups that agree on the columns. -/
structure SameCols (st st' : Setup F) : Prop where
  opts : st'.opts = st.opts
  cols : st'.cols = st.cols
  selected : st'.col_selected = st.col_selected
  header : st'.header_parsed = st.header_parsed

theorem compile_filter_plan_same (st : Setup F) (error : String) :
    SameCols st (compile_filter_plan d st error).2.1 := by
  unfold compile_filter_plan
  split
  · exact ⟨rfl, rfl, rfl, rfl⟩
  · split_ifs
    · exact ⟨rfl, rfl, rfl, rfl⟩
    · split <;> exact ⟨rfl, rfl, rfl, rfl⟩

theorem SameCols.keeps {st' : Setup F} (h : SameCols st st') (type : ColType) (i : ℕ) :
    st'.keeps type i = st.keeps type i := by
  rw [Setup.keeps, Setup.keeps, h.selected, h.cols]

def header_setup (st : Setup F) (line : Bytes) : Setup F :=
  { st with
    header_parsed := true, cols := header_cols st.opts line
    col_selected := select_cols (header_cols st.opts line) st.select_cols_str }

theorem parse_header_same (st : Setup F) (res : Results F) (line : Bytes) :
    SameCols (header_setup st line) (parse_header d st res line).1 := by
  unfold parse_header
  simp only
  by_cases hf : st.filter_expr_str.isSome = true
  · rw [if_pos hf]
    have h := compile_filter_plan_same d
      { st with
        cols := header_cols st.opts line
        col_selected := select_cols (header_cols st.opts line) st.select_cols_str } res.error
    exact ⟨h.opts, h.cols, h.selected, rfl⟩
  · rw [if_neg hf]
    exact ⟨rfl, rfl, rfl, rfl⟩

theorem parse_header_stored (hc : res.match_count = 0) (line : Bytes) :
    Stored d (parse_header d st res line).1 (parse_header d st res line).2 [] := by
  have hsame := parse_header_same d st res line
  have hres : ∃ error, (parse_header d st res line).2 =
      { res with
        num_vecs := List.replicate (header_cols st.opts line).length []
        str_store := ⟨[], if (List.range (header_cols st.opts line).length).any
          ((header_setup st line).keeps .string) then (header_cols st.opts line).length else 0⟩
        error := error } := by
    unfold parse_header
    simp only
    by_cases hf : st.filter_expr_str.isSome = true
    · rw [if_pos hf]
      exact ⟨_, rfl⟩
    · rw [if_neg hf]
      exact ⟨_, rfl⟩
  obtain ⟨error, hres⟩ := hres
  rw [hres]
  refine ⟨fun row hr => ?_, hc, fun i hi => ?_, fun ⟨i, hi⟩ => ⟨?_, rfl⟩⟩
  · cases hr
  · have hlt := keeps_lt hi
    rw [hsame.cols] at hlt
    exact List.getElem?_replicate_of_lt hlt
  · have hlt := keeps_lt hi
    rw [hsame.cols] at hlt ⊢
    rw [hsame.keeps] at hi
    exact if_pos (List.any_eq_true.mpr ⟨i, List.mem_range.mpr hlt, hi⟩)

inductive Setting
  | filter (expr : Bytes)
  | columns (names : Bytes)

def Setting.apply (p : CsvStreamProcessor F) : Setting → CsvStreamProcessor F
  | .filter expr => (csv_stream_processor_set_filter d p expr).2
  | .columns names => csv_stream_processor_set_columns p names

/-- A processor with the settings made before the stream. -/
def configured (opts : Option CsvOptions) (settings : List Setting) : CsvStreamProcessor F :=
  settings.foldl (Setting.apply d) (csv_stream_processor_create opts)

structure Fresh (p : CsvStreamProcessor F) : Prop where
  line_buf : p.line_buf = []
  header : p.setup.header_parsed = false
  count : p.results.match_count = 0

theorem apply_fresh (h : Fresh p) (s : Setting) : Fresh (s.apply d p) := by
  cases s with
  | columns names => exact ⟨h.line_buf, h.header, h.count⟩
  | filter expr =>
    have hno : ¬ p.setup.header_parsed = true := by
      rw [h.header]
      exact Bool.false_ne_true
    rw [Setting.apply, csv_stream_processor_set_filter]
    simp only
    rw [free_filter_plan, if_neg hno]
    exact ⟨h.line_buf, h.header, h.count⟩

theorem configured_fresh (opts : Option CsvOptions) (settings : List Setting) :
    Fresh (configured d opts settings) := by
  have hrun : ∀ p : CsvStreamProcessor F, Fresh p → Fresh (settings.foldl (Setting.apply d) p) := by
    induction settings with
    | nil => exact fun p h => h
    | cons s settings ih => exact fun p h => ih _ (apply_fresh d h s)
  exact hrun _ ⟨rfl, rfl, rfl⟩

structure Aligned (p : CsvStreamProcessor F) (rows : List (List Bytes)) : Prop where
  width : ∀ row ∈ rows, row.length = p.setup.cols.length
  count : csv_stream_processor_row_count p = rows.length
  numbers : ∀ i, p.setup.keeps .number i = true →
    csv_stream_processor_col_data p i = rows.map fun row => fast_atof d (row.getD i [])
  strings : ∀ i, p.setup.keeps .string i = true → p.results.str_store.rows.length = rows.length ∧
    ∀ r, csv_stream_processor_get_str p r i = rows[r]?.bind fun row => row[i]?

theorem Stored.aligned (h : Stored d p.setup p.results rows) : Aligned d p rows where
  width := h.width
  count := h.count
  numbers i hi := by
    have htype := (Bool.and_eq_true_iff.mp hi).2
    rw [csv_stream_processor_col_data, if_pos htype, List.getD_eq_getElem?_getD, h.numbers i hi]
    rfl
  strings i hi := by
    obtain ⟨hc, hr⟩ := h.strings ⟨i, hi⟩
    refine ⟨by rw [hr, List.length_map], fun r => ?_⟩
    rw [csv_stream_processor_get_str, hc, if_neg (Nat.not_le.mpr (keeps_lt hi)), hr, List.getElem?_map]
    cases rows[r]? with
    | none => rfl
    | some row =>
      change ((entries p.setup row)[i]?).join = row[i]?
      rw [entries, List.getElem?_mapIdx]
      cases row[i]? with
      | none => rfl
      | some field =>
        exact if_pos hi

/-- The processor has looked at the lines: the header and the rows behind it. -/
def Shows (p : CsvStreamProcessor F) (opts : CsvOptions) : List Bytes → Prop
  | [] => p.setup.header_parsed = false
  | header :: rows =>
    p.setup.header_parsed = true ∧ p.setup.cols = header_cols opts header ∧
      Aligned d p (rows.filterMap (accepted_row d p.setup))

theorem took_shows {p' : CsvStreamProcessor F} (h : Fresh p) {lines : List Bytes}
    (ht : Took d p lines p') : Shows d p' p.setup.opts lines := by
  unfold Took at ht
  cases lines with
  | nil => exact (congrArg (fun r => r.1.header_parsed) ht).trans h.header
  | cons header rows =>
    have hstart : take_line d (p.setup, p.results) header = parse_header d p.setup p.results header :=
      if_neg (by rw [h.header]; exact Bool.false_ne_true)
    rw [List.foldl_cons, hstart] at ht
    have hsame := parse_header_same d p.setup p.results header
    obtain ⟨hst, hstored⟩ := take_rows d hsame.header (parse_header_stored d h.count header) rows
    rw [Prod.mk.eta, ← ht] at hst hstored
    have hst : p'.setup = (parse_header d p.setup p.results header).1 := hst
    rw [← hst, List.nil_append] at hstored
    rw [Shows, hst]
    refine ⟨hsame.header, hsame.cols, ?_⟩
    rw [← hst]
    exact hstored.aligned d

/-- A stream comes to the same however it is cut, and its columns are aligned at all times. -/
theorem stream_aligned (opts : Option CsvOptions) (settings : List Setting) :
    (∀ chunks chunks' : List Bytes, chunks.flatten = chunks'.flatten →
      csv_stream_processor_finish d (feeds_all d (configured d opts settings) chunks) =
        csv_stream_processor_finish d (feeds_all d (configured d opts settings) chunks')) ∧
    ∀ chunks : List Bytes,
      Shows d (feeds_all d (configured d opts settings) chunks) (configured d opts settings).setup.opts
        (complete_lines chunks.flatten) ∧
      Shows d (csv_stream_processor_finish d (feeds_all d (configured d opts settings) chunks))
        (configured d opts settings).setup.opts (all_lines chunks.flatten) := by
  have hfresh := configured_fresh d opts settings
  constructor
  · intro chunks chunks' h
    obtain ⟨-, htook⟩ := feeds_all_took d hfresh.line_buf chunks
    obtain ⟨-, htook'⟩ := feeds_all_took d hfresh.line_buf chunks'
    rw [h] at htook
    obtain ⟨hsetup, hresults⟩ := Prod.mk.inj (Eq.trans htook (Eq.symm htook'))
    exact CsvStreamProcessor.ext ((finish_line_buf d _).trans (finish_line_buf d _).symm) hsetup
      hresults
  · intro chunks
    obtain ⟨hfed, hfinished⟩ := feeds_all_took d hfresh.line_buf chunks
    exact ⟨took_shows d hfresh hfed, took_shows d hfresh hfinished⟩

end

end SaltsUtils.Csv
