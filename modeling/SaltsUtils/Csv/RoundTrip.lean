import SaltsUtils.Csv.Serialize

/-!
# Documents that survive writing and parsing

A document of `csv_parse_opts` is written by `csv_to_string_n` and parsed again with the
same options.
-/

set_option autoImplicit false

namespace SaltsUtils.Csv

def parsedRows (content : Bytes) (opts : Option CsvOptions) : Except String CsvDoc :=
  if csv_opts_use_fast_lexer opts then
    csv_parse_loop (lexerFuel content) (csv_lexer_init content) csv_lexer_reset_state [] {}
  else
    let out := csv_scan_opts succeeds succeeds content (some (csv_normalize_opts opts))
    if out.success then .ok (csv_dom_doc out.log) else .error (out.error.getD "")

def headed (opts : Option CsvOptions) (doc : CsvDoc) : CsvDoc :=
  if (csv_normalize_opts opts).has_header then takeHeader doc else doc

theorem parse_opts_eq (content : Bytes) (opts : Option CsvOptions) :
    csv_parse_opts content opts = if content = [] then .error "Empty input" else
      parsedRows content opts >>= fun doc => pure (headed opts doc) := by
  unfold csv_parse_opts parsedRows headed
  dsimp only
  split_ifs <;> rfl

theorem normalize_idem (opts : Option CsvOptions) :
    csv_normalize_opts (some (csv_normalize_opts opts)) = csv_normalize_opts opts := by
  cases opts with
  | none => rfl
  | some o =>
    simp only [csv_normalize_opts]
    split_ifs <;> simp_all

variable {opts : Option CsvOptions}

theorem parsedRows_scan (hfast : csv_opts_use_fast_lexer opts = false) (content : Bytes)
    (doc : CsvDoc) :
    parsedRows content opts = .ok doc ↔ read (csv_normalize_opts opts) content {} = some doc := by
  have hread := scan_opts_read content (some (csv_normalize_opts opts))
  rw [normalize_idem] at hread
  unfold parsedRows
  rw [← hread, hfast, CsvOutcome.doc]
  split_ifs <;> simp_all

theorem parsedRows_lexer (hfast : csv_opts_use_fast_lexer opts = true) (content : Bytes)
    (doc : CsvDoc) : parsedRows content opts = .ok doc ↔ Parses .rowStart content [] {} doc := by
  unfold parsedRows
  rw [hfast]
  exact parse_loop_iff content doc

theorem addNonempty_header (doc : CsvDoc) (row : Row) :
    (addNonempty doc row).header = doc.header := by
  unfold addNonempty
  split_ifs <;> rfl

variable {st : LexerState} {text : Bytes} {row : Row} {doc : CsvDoc}

theorem parses_header {out : CsvDoc} (h : Parses st text row doc out) :
    out.header = doc.header := by
  induction h with
  | done => exact addNonempty_header _ _
  | field _ _ _ ih => exact ih
  | comma _ _ _ ih => exact ih
  | newline _ _ _ ih => exact ih.trans (addNonempty_header _ _)

theorem dom_scan_header (log : List CsvEvent) : ∀ scan : CsvDoc × Option Row,
    (log.foldl csv_dom_scan scan).1.header = scan.1.header := by
  induction log with
  | nil => exact fun _ => rfl
  | cons event log ih =>
    intro scan
    rw [List.foldl_cons, ih]
    cases event <;> rfl

theorem parsedRows_header {content : Bytes} (h : parsedRows content opts = .ok doc) :
    doc.header = none := by
  cases hfast : csv_opts_use_fast_lexer opts with
  | true => exact parses_header ((parsedRows_lexer hfast content doc).mp h)
  | false =>
    unfold parsedRows at h
    rw [hfast, if_neg (by decide)] at h
    dsimp only at h
    split_ifs at h
    cases h
    exact dom_scan_header _ _

theorem headed_records (h : doc.header = none) : (headed opts doc).records = doc.rows := by
  unfold headed
  split_ifs
  · unfold takeHeader CsvDoc.records
    cases hrows : doc.rows with
    | nil => simp [h, hrows]
    | cons row rows => rfl
  · simp [CsvDoc.records, h]

theorem headed_eq_iff {doc' : CsvDoc} (h : doc.header = none) (h' : doc'.header = none) :
    (headed opts doc').header = (headed opts doc).header ∧
      (headed opts doc').rows = (headed opts doc).rows ↔ doc'.rows = doc.rows := by
  constructor
  · rintro ⟨h₁, h₂⟩
    rw [← @headed_records opts doc h, ← @headed_records opts doc' h', CsvDoc.records,
      CsvDoc.records, h₁, h₂]
  · intro hrows
    unfold headed takeHeader
    rw [hrows]
    split_ifs
    · cases hdoc : doc.rows with
      | nil => exact ⟨by rw [h, h'], by rw [hrows, hdoc]⟩
      | cons row rows => exact ⟨rfl, rfl⟩
    · exact ⟨by rw [h, h'], hrows⟩

theorem unescape_subset (s : Bytes) : ∀ c ∈ unescape_quotes_impl s, c ∈ s := by
  fun_induction unescape_quotes_impl s with
  | case1 => simp
  | case2 =>
    rename_i hcd ih
    intro c hc
    rcases List.mem_cons.mp hc with rfl | hc
    · simp [hcd.1]
    · simp [ih c hc]
  | case3 =>
    rename_i ih
    intro c hc
    rcases List.mem_cons.mp hc with rfl | hc
    · simp
    · exact List.mem_cons_of_mem _ (ih c hc)
  | case4 => simp

theorem matchQuoted_nul (text : Bytes) : ∀ raw after, matchQuoted text = some (raw, after) →
    nul ∉ raw := by
  fun_induction matchQuoted text with
  | case1 => simp
  | case2 => simp
  | case3 => simp
  | case4 =>
    rename_i hm hne ih
    rintro raw after ⟨⟩
    have := ih _ _ hm
    simp [this, Ne.symm hne]
  | case5 => simp
  | case6 => simp
  | case7 =>
    rename_i hne hc ih
    intro raw after h
    obtain ⟨m, hm, hm'⟩ := Option.map_eq_some_iff.mp h
    cases hm'
    have := ih _ _ hm
    simp [this, Ne.symm hne]

theorem reads_nul {st' : LexerState} {text' : Bytes} {token : CsvToken}
    (h : Reads st text (.token token) text' st') : nul ∉ token.fieldValue := by
  have hplain : ∀ token : CsvToken, nul ∉ token.value → nul ∉ token.fieldValue := by
    intro token h
    unfold CsvToken.fieldValue
    split_ifs
    · exact fun h' => h (unescape_subset _ _ h')
    · exact h
  apply hplain
  cases h with
  | gap => simp
  | plain _ hw =>
    intro h
    exact absurd (hw nul h) (by decide)
  | comma => decide
  | newline _ hn => rcases hn with rfl | rfl <;> decide
  | quoted hm => exact matchQuoted_nul _ _ _ hm

/-- What the lexer path can put into a document: rows with a field, and fields without a NUL. -/
def Lexed (doc : CsvDoc) : Prop := ∀ row ∈ doc.rows, row ≠ [] ∧ ∀ f ∈ row, nul ∉ f

theorem Lexed.addNonempty (h : Lexed doc) (hrow : ∀ f ∈ row, nul ∉ f) :
    Lexed (addNonempty doc row) := by
  unfold Csv.addNonempty
  split_ifs with hlen
  · intro r hr
    rcases List.mem_append.mp hr with hr | hr
    · exact h r hr
    · cases List.mem_singleton.mp hr
      exact ⟨List.ne_nil_of_length_pos hlen, hrow⟩
  · exact h

theorem parses_lexed {out : CsvDoc} (h : Parses st text row doc out) :
    (∀ f ∈ row, nul ∉ f) → Lexed doc → Lexed out := by
  induction h with
  | done => exact fun hrow hdoc => hdoc.addNonempty hrow
  | field hread _ _ ih =>
    intro hrow hdoc
    refine ih (fun f hf => ?_) hdoc
    rcases List.mem_append.mp hf with hf | hf
    · exact hrow f hf
    · cases List.mem_singleton.mp hf
      exact reads_nul hread
  | comma _ _ _ ih => exact ih
  | newline _ _ _ ih =>
    intro hrow hdoc
    exact ih (by simp) (hdoc.addNonempty hrow)

theorem foldl_add_row (rows : List Row) : ∀ doc : CsvDoc,
    (rows.foldl csv_doc_add_row doc).rows = doc.rows ++ rows := by
  induction rows with
  | nil => simp
  | cons row rows ih =>
    intro doc
    rw [List.foldl_cons, ih]
    simp [csv_doc_add_row]

theorem write_eq_nil (records : List Row) : records.flatMap csv_row_write = [] ↔ records = [] := by
  cases records with
  | nil => simp
  | cons row records => simp [csv_row_write]

section RoundTrip
variable {opts : Option CsvOptions} {content : Bytes} {doc : CsvDoc}

theorem reparse_rows (hd : (csv_normalize_opts opts).delimiter = comma)
    (hq : (csv_normalize_opts opts).quote = doubleQuote) (h : parsedRows content opts = .ok doc) :
    ∃ doc' : CsvDoc, parsedRows (doc.rows.flatMap csv_row_write) opts = .ok doc' ∧
      (doc'.rows = doc.rows ↔ [[]] ∉ doc.rows) := by
  cases hfast : csv_opts_use_fast_lexer opts with
  | true =>
    have hlexed : Lexed doc := parses_lexed ((parsedRows_lexer hfast content doc).mp h)
      (by simp) (by simp [Lexed])
    refine ⟨_, (parsedRows_lexer hfast _ _).mpr
      (records_parse doc.rows {} fun row hrow => (hlexed row hrow).2), ?_⟩
    rw [foldl_add_row, List.nil_append, List.filter_eq_self]
    constructor
    · intro hall hmem
      have := hall _ hmem
      simp [blank] at this
    · intro hno row hrow
      have h₁ := (hlexed row hrow).1
      have h₂ : row ≠ [[]] := fun h => hno (h ▸ hrow)
      simp [blank, h₁, h₂]
  | false =>
    have hskip : (csv_normalize_opts opts).skip_empty_rows = false := by
      simpa [csv_opts_use_fast_lexer, hd, hq] using hfast
    refine ⟨_, (parsedRows_scan hfast _ _).mpr (records_read hd hq hskip doc.rows {}), ?_⟩
    have hmap : doc.rows.map reread = doc.rows ↔ ∀ row ∈ doc.rows, reread row = row := by
      have := @List.map_inj_left _ _ doc.rows reread id
      rwa [List.map_id] at this
    rw [foldl_add_row, List.nil_append, hmap]
    constructor
    · intro hall hmem
      cases hall _ hmem
    · intro hno row hrow
      exact if_neg fun h : row = [[]] => hno (h ▸ hrow)

end RoundTrip

/-- The two passes of `csv_to_string_n` agree on the size of every row. A document that was parsed
in the default format comes back from its text, with the same header and rows, exactly if it has
a row and none of its rows is a single empty field. -/
theorem to_string_parse_iff (opts : Option CsvOptions)
    (hd : (csv_normalize_opts opts).delimiter = comma)
    (hq : (csv_normalize_opts opts).quote = doubleQuote) (content text : Bytes) (d : CsvDoc)
    (h : csv_parse_opts content opts = .ok d) (htext : csv_to_string_n d = some text) :
    (∀ row, csv_row_serialized_len row =
      if (csv_row_write row).length ≤ SIZE_MAX then some (csv_row_write row).length else none) ∧
    ((∃ d', csv_parse_opts text opts = .ok d' ∧ d'.header = d.header ∧ d'.rows = d.rows) ↔
      d.records ≠ [] ∧ [[]] ∉ d.records) := by
  constructor
  · exact row_serialized_len_eq
  · rw [parse_opts_eq] at h
    obtain ⟨doc, h₁, h₂⟩ := bind_eq_ok.mp (guard_eq_ok.mp h).2
    cases h₂
    have hheader := parsedRows_header h₁
    have hrecords : (headed opts doc).records = doc.rows := headed_records hheader
    have htext' : text = doc.rows.flatMap csv_row_write := by
      obtain ⟨total, -, h⟩ := Option.bind_eq_some_iff.mp htext
      split_ifs at h
      rw [← hrecords]
      exact (Option.some.inj h).symm
    obtain ⟨doc', h₃, h₄⟩ := reparse_rows hd hq h₁
    rw [← htext'] at h₃
    have heq := @headed_eq_iff opts doc doc' hheader (parsedRows_header h₃)
    have hnil : text = [] ↔ doc.rows = [] := by
      rw [htext', write_eq_nil]
    rw [parse_opts_eq, hrecords, h₃]
    constructor
    · rintro ⟨d', h₅, h₆⟩
      obtain ⟨h₇, h₈⟩ := guard_eq_ok.mp h₅
      cases h₈
      exact ⟨fun h => h₇ (hnil.mpr h), h₄.mp (heq.mp h₆)⟩
    · rintro ⟨h₅, h₆⟩
      refine ⟨headed opts doc', ?_, heq.mpr (h₄.mpr h₆)⟩
      exact guard_eq_ok.mpr ⟨fun h => h₅ (hnil.mp h), rfl⟩

/-- A header and two rows, one with an escaped quote and one with an empty field. -/
theorem to_string_parse_header :
    let opts : CsvOptions := { has_header := true }
    let d : CsvDoc :=
      { header := some [[120], [121]], rows := [[[97, 34], [98, 44]], [[], []]], column_count := 2 }
    ∃ d', csv_parse_opts [120, 44, 121, 10, 34, 97, 34, 34, 34, 44, 34, 98, 44, 34, 10, 44, 10]
        (some opts) = .ok d' ∧ d'.header = d.header ∧ d'.rows = d.rows := by
  have h : csv_parse_opts [120, 44, 121, 10, 34, 97, 34, 34, 34, 44, 34, 98, 44, 34, 10, 44]
      (some { has_header := true }) = .ok
        { header := some [[120], [121]], rows := [[[97, 34], [98, 44]], [[], []]], column_count :=
          2 } := by
    decide +kernel
  exact (to_string_parse_iff (some { has_header := true }) rfl rfl _ _ _ h (by decide +kernel)).2.mpr
    (by decide)

/-- The text `a`, `""`, `b` in three rows: the second one is written as an empty line, and does
not come back. -/
theorem to_string_parse_empty_field :
    csv_parse [97, 10, 34, 34, 10, 98] = .ok { rows := [[[97]], [[]], [[98]]], column_count := 1 } ∧
      csv_to_string_n { rows := [[[97]], [[]], [[98]]], column_count := 1 } =
        some [97, 10, 10, 98, 10] ∧
      csv_parse [97, 10, 10, 98, 10] = .ok { rows := [[[97]], [[98]]], column_count := 1 } := by
  decide +kernel

end SaltsUtils.Csv
