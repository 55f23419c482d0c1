import SaltsUtils.Csv.Reading
import SaltsUtils.Csv.Tokens
import SaltsUtils.Library.Outcome

/-!
# The lexer against the streaming parser

Both readers go over a text together, one token at a time.
-/

set_option autoImplicit false

namespace SaltsUtils.Csv

/-- Where a byte stands in a field. -/
inductive QuoteMode
  | start | plain | quoted | closed
deriving DecidableEq

/-- Quotes open a field only at its start, and nothing but a second quote or the end of the field
follows the quote that closes it. -/
def wellQuotedFrom : QuoteMode → Bytes → Bool
  | _, [] => true
  | .start, c::rest =>
    if c = doubleQuote then wellQuotedFrom .quoted rest
    else if c = comma ∨ c = cr ∨ c = lf then wellQuotedFrom .start rest
    else wellQuotedFrom .plain rest
  | .plain, c::rest =>
    if c = doubleQuote then false
    else if c = comma ∨ c = cr ∨ c = lf then wellQuotedFrom .start rest
    else wellQuotedFrom .plain rest
  | .quoted, c::rest =>
    if c = doubleQuote then wellQuotedFrom .closed rest else wellQuotedFrom .quoted rest
  | .closed, c::rest =>
    if c = doubleQuote then wellQuotedFrom .quoted rest
    else if c = comma ∨ c = cr ∨ c = lf then wellQuotedFrom .start rest
    else false

example : wellQuotedFrom .quoted [doubleQuote] = true := by
  rw [wellQuotedFrom, if_pos rfl, wellQuotedFrom]

def wellQuoted (content : Bytes) : Bool := wellQuotedFrom .start content

variable {mode : QuoteMode} {c : UInt8}

theorem wellQuoted_separator (hm : mode ≠ .quoted) (hc : c = comma ∨ c = cr ∨ c = lf) (rest : Bytes) :
    wellQuotedFrom mode (c::rest) = wellQuotedFrom .start rest := by
  have h₁ : c ≠ doubleQuote := by
    rcases hc with rfl | rfl | rfl <;> decide
  cases mode with
  | quoted => exact absurd rfl hm
  | start => rw [wellQuotedFrom, if_neg h₁, if_pos hc]
  | plain => rw [wellQuotedFrom, if_neg h₁, if_pos hc]
  | closed => rw [wellQuotedFrom, if_neg h₁, if_pos hc]

theorem wellQuoted_newline (hm : mode ≠ .quoted) {n : Bytes} (hn : n = [lf] ∨ n = [cr, lf])
    (rest : Bytes) : wellQuotedFrom mode (n ++ rest) = wellQuotedFrom .start rest := by
  rcases hn with rfl | rfl
  · exact wellQuoted_separator hm (Or.inr (Or.inr rfl)) rest
  · rw [List.cons_append, wellQuoted_separator hm (Or.inr (Or.inl rfl))]
    exact wellQuoted_separator (by decide) (Or.inr (Or.inr rfl)) rest

theorem not_special (h : isSpecial c = false) : c ≠ doubleQuote ∧ c ≠ comma ∧ c ≠ cr ∧ c ≠ lf := by
  simp only [isSpecial, Bool.or_eq_false_iff, beq_eq_false_iff_ne] at h
  exact ⟨h.1.1.2, h.1.1.1.2, h.1.2, h.2⟩

theorem wellQuoted_plain {w : Bytes} (hw : ∀ c ∈ w, isSpecial c = false) (rest : Bytes) :
    wellQuotedFrom .plain (w ++ rest) = wellQuotedFrom .plain rest := by
  induction w with
  | nil => rfl
  | cons c w ih =>
    have hc := not_special (hw c (by simp))
    rw [List.cons_append, wellQuotedFrom, if_neg hc.1, if_neg (by simp [hc])]
    exact ih fun d hd => hw d (by simp [hd])

theorem wellQuoted_word {w : Bytes} (hne : w ≠ []) (hw : ∀ c ∈ w, isSpecial c = false)
    (rest : Bytes) : wellQuotedFrom .start (w ++ rest) = wellQuotedFrom .plain rest := by
  obtain ⟨c, w, rfl⟩ := List.exists_cons_of_ne_nil hne
  have hc := not_special (hw c (by simp))
  rw [List.cons_append, wellQuotedFrom, if_neg hc.1, if_neg (by simp [hc])]
  exact wellQuoted_plain (fun d hd => hw d (by simp [hd])) rest

theorem wellQuoted_quoted (text : Bytes) : ∀ raw after, matchQuoted text = some (raw, after) →
    after.head? ≠ some doubleQuote →
    wellQuotedFrom .quoted text = wellQuotedFrom .closed after := by
  fun_induction matchQuoted text with
  | case1 => simp
  | case2 => simp
  | case3 =>
    rintro raw after ⟨⟩ _
    rfl
  | case4 =>
    rename_i hm _ ih
    rintro raw after ⟨⟩ hafter
    rw [wellQuotedFrom, if_pos rfl, wellQuotedFrom, if_pos rfl]
    exact ih _ _ hm hafter
  | case5 =>
    rintro raw after ⟨⟩ hafter
    simp at hafter
  | case6 =>
    rintro raw after ⟨⟩ hafter
    rw [wellQuotedFrom, if_pos rfl]
  | case7 =>
    rename_i hc ih
    intro raw after h hafter
    obtain ⟨m, hm, hm'⟩ := Option.map_eq_some_iff.mp h
    cases hm'
    rw [wellQuotedFrom, if_neg hc]
    exact ih _ _ hm hafter

theorem matchQuoted_backtrack (text : Bytes) : ∀ raw after,
    matchQuoted text = some (raw, doubleQuote::after) → matchQuoted after = none := by
  fun_induction matchQuoted text with
  | case1 => simp
  | case2 => simp
  | case3 => simp
  | case4 =>
    rename_i hm _ ih
    rintro raw after ⟨⟩
    exact ih _ _ hm
  | case5 =>
    rintro raw after ⟨⟩
    assumption
  | case6 =>
    rename_i hd _
    intro raw after h
    simp only [Option.some.injEq, Prod.mk.injEq, List.cons.injEq] at h
    exact absurd h.2.1 hd
  | case7 =>
    rename_i hc ih
    intro raw after h
    obtain ⟨m, hm, hm'⟩ := Option.map_eq_some_iff.mp h
    obtain ⟨raw', after'⟩ := m
    cases hm'
    exact ih _ _ hm

theorem unescape_id {raw : Bytes} (h : has_escaped_quote raw = false) :
    unescape_quotes_impl raw = raw := by
  induction raw with
  | nil => rfl
  | cons c rest ih =>
    cases rest with
    | nil => rfl
    | cons d rest =>
      simp only [has_escaped_quote, Bool.or_eq_false_iff] at h
      rw [unescape_quotes_impl, if_neg (by simpa using h.1), ih h.2]

theorem fieldValue_quoted (raw : Bytes) :
    CsvToken.fieldValue { type := .field, value := raw, needs_unescape := has_escaped_quote raw } =
      unescape_quotes_impl raw := by
  unfold CsvToken.fieldValue
  split_ifs with h
  · rfl
  · exact (unescape_id (by simpa using h)).symm

variable {st : LexerState} {text : Bytes} {row : Row} {doc out : CsvDoc}

theorem not_parses_openQuote (hm : matchQuoted text = none) :
    ¬ Parses st (doubleQuote::text) row doc out := by
  have hno : ∀ ret text' st', Reads st (doubleQuote::text) ret text' st' → ret = .error := by
    intro ret text' st' h
    generalize htext : doubleQuote::text = t at h
    cases h with
    | done => cases htext
    | gap hgap =>
      rw [← htext] at hgap
      exact absurd hgap (not_gap_of_special (by decide) (by decide) (by decide))
    | @plain _ w _ hne hw =>
      obtain ⟨c, w, rfl⟩ := List.exists_cons_of_ne_nil hne
      cases htext
      exact absurd (hw doubleQuote (by simp)) (by decide)
    | comma => cases htext
    | newline _ hn => rcases hn with rfl | rfl <;> cases htext
    | quoted h =>
      cases htext
      rw [hm] at h
      cases h
    | nul => rfl
    | cr => rfl
    | openQuote => rfl
  intro h
  cases h with
  | done h => cases hno _ _ _ h
  | field h => cases hno _ _ _ h
  | comma h => cases hno _ _ _ h
  | newline h => cases hno _ _ _ h

theorem parses_extends (h : Parses st text row doc out) : ∃ tail, out.rows = doc.rows ++ tail ∧
      (row ≠ [] → ∃ more later, tail = (row ++ more)::later) := by
  have hadd : ∀ (doc : CsvDoc) (row : Row), ∃ added, (addNonempty doc row).rows =
      doc.rows ++ added ∧ (row ≠ [] → added = [row]) := by
    intro doc row
    unfold addNonempty
    split_ifs with hrow
    · exact ⟨[row], rfl, fun _ => rfl⟩
    · exact ⟨[], by simp, fun h => absurd (List.length_pos_of_ne_nil h) hrow⟩
  induction h with
  | @done _ _ _ _ row doc =>
    obtain ⟨added, h₁, h₂⟩ := hadd doc row
    exact ⟨added, h₁, fun hrow => ⟨[], [], by simp [h₂ hrow]⟩⟩
  | field hread htype _ ih =>
    obtain ⟨tail, h₁, h₂⟩ := ih
    obtain ⟨more, later, h₃⟩ := h₂ (by simp)
    exact ⟨tail, h₁, fun _ => ⟨_::more, later, by rw [h₃, List.append_assoc, List.singleton_append]⟩⟩
  | comma hread htype _ ih => exact ih
  | @newline _ _ _ _ row doc _ _ hread htype _ ih =>
    obtain ⟨tail, h₁, -⟩ := ih
    obtain ⟨added, h₂, h₃⟩ := hadd doc row
    rw [h₂, List.append_assoc] at h₁
    exact ⟨_, h₁, fun hrow => ⟨[], tail, by simp [h₃ hrow]⟩⟩

variable {r : Reading}

theorem rows_ne_of_part {rest : Bytes} {v v' : Bytes} {out' : CsvDoc}
    (h : Parses st text (row ++ [v] ++ [v']) doc out) (h' : read {} rest (r.push c) = some out')
    (hdoc : r.doc = doc) (hrow : r.row = row) (hfield : r.field = v) : out.rows ≠ out'.rows := by
  obtain ⟨tail, h₁, h₂⟩ := parses_extends h
  obtain ⟨more, later, h₃⟩ := h₂ (by simp)
  obtain ⟨tail', h₄, h₅⟩ := read_extends {} rest.length rest (Nat.le_refl _) _ _ h'
  obtain ⟨more', later', h₆, h₇⟩ := h₅ rfl
  obtain ⟨x, more'', h₈⟩ := h₇ rfl
  simp only [Reading.push, hdoc, hrow, hfield] at h₄ h₆ h₈
  intro heq
  rw [h₁, h₄, List.append_cancel_left_eq, h₃, h₆, h₈, List.cons.injEq] at heq
  obtain ⟨heq, -⟩ := heq
  simp only [List.append_assoc, List.append_cancel_left_eq] at heq
  simp at heq

/-- The two readers at the same place of a text, and the part of a field that it is. -/
inductive Abreast : LexerState → Bytes → Row → CsvDoc → Reading → QuoteMode → Prop
  | rowStart {text : Bytes} {doc : CsvDoc} :
      Abreast .rowStart text [] doc { doc := doc } .start
  | afterComma {text : Bytes} {row : Row} {doc : CsvDoc} :
      Abreast .afterComma text row doc { row_started := true, row := row, doc := doc } .start
  | word {text v : Bytes} {row : Row} {doc : CsvDoc} :
      (∀ c ∈ text.head?, isSpecial c = true) →
      Abreast .afterField text (row ++ [v]) doc
        { field := v, field_started := true, row_started := true, row := row, doc := doc } .plain
  | quoted {text v : Bytes} {row : Row} {doc : CsvDoc} : text.head? ≠ some doubleQuote →
      Abreast .afterField text (row ++ [v]) doc
        { field := v, field_started := true, row_started := true, row := row, doc := doc } .closed
  | empty {text : Bytes} {row : Row} {doc : CsvDoc} {b : Bool} :
      (∀ c ∈ text.head?, c = comma ∨ c = lf ∨ c = cr) → (b = false → text.head? = some comma) →
      Abreast .afterField text (row ++ [[]]) doc { row_started := b, row := row, doc := doc } .start

theorem Abreast.mode_ne (h : Abreast st text row doc r mode) : mode ≠ .quoted := by
  cases h <;> decide

theorem Abreast.in_quote (h : Abreast st text row doc r mode) : r.in_quote = false := by
  cases h <;> rfl

theorem Abreast.fresh (h : Abreast st text row doc r mode) (hst : st ≠ .afterField) :
    mode = .start ∧ ∃ b, r = { row_started := b, row := row, doc := doc } := by
  cases h with
  | rowStart => exact ⟨rfl, false, rfl⟩
  | afterComma => exact ⟨rfl, true, rfl⟩
  | word => exact absurd rfl hst
  | quoted => exact absurd rfl hst
  | empty => exact absurd rfl hst

theorem Abreast.ended (h : Abreast .afterField text row doc r mode) :
    row = r.row ++ [r.field] ∧ r.doc = doc ∧ (r.started = true ∨ text.head? = some comma) := by
  cases h with
  | word => exact ⟨rfl, rfl, Or.inl rfl⟩
  | quoted => exact ⟨rfl, rfl, Or.inl rfl⟩
  | @empty _ _ _ b _ hb =>
    cases b with
    | true => exact ⟨rfl, rfl, Or.inl rfl⟩
    | false => exact ⟨rfl, rfl, Or.inr (hb rfl)⟩

/-- Where a field has ended and the lexer begins another one, the byte goes to the last field of
the streaming parser. -/
theorem Abreast.part {rest : Bytes} (h : Abreast .afterField (c::rest) row doc r mode)
    (hc : isSpecial c = false ∨ c = doubleQuote) :
    wellQuotedFrom mode (c::rest) = false ∧ read {} (c::rest) r = read {} rest (r.push c) := by
  have hsep : c ≠ comma ∧ c ≠ cr ∧ c ≠ lf := by
    rcases hc with hc | rfl
    · exact (not_special hc).2
    · decide
  have hpush : r.field_started = true → read {} (c::rest) r = read {} rest (r.push c) := fun hs =>
    read_push rfl rfl h.in_quote hsep (Or.inl hs) rest
  cases h with
  | word hhead =>
    have hquote : c = doubleQuote := by
      rcases hc with hc | hc
      · rw [hhead c rfl] at hc
        cases hc
      · exact hc
    exact ⟨by rw [wellQuotedFrom, if_pos hquote], hpush rfl⟩
  | quoted hhead =>
    have hquote : c ≠ doubleQuote := by simpa using hhead
    exact ⟨by rw [wellQuotedFrom, if_neg hquote, if_neg (by simp [hsep])], hpush rfl⟩
  | empty hhead =>
    rcases hhead c rfl with h | h | h
    · exact absurd h hsep.1
    · exact absurd h hsep.2.2
    · exact absurd h hsep.2.1

theorem parses_agree (h : Parses st text row doc out) :
    ∀ (r : Reading) (mode : QuoteMode) (out' : CsvDoc),
      Abreast st text row doc r mode → read {} text r = some out' →
      (out.rows = out'.rows ↔ wellQuotedFrom mode text = true) := by
  induction h with
  | @done st st' text text' row doc hread =>
    intro r mode out' ha hr
    cases hread with
    | done hst =>
      have hwell : wellQuotedFrom mode [] = true := by cases mode <;> rfl
      rw [hwell]
      simp only [iff_true]
      rw [read] at hr
      unfold Reading.finish at hr
      rw [if_neg (by simp [ha.in_quote])] at hr
      cases st with
      | rowStart =>
        cases ha
        cases hr
        rfl
      | afterComma => exact absurd rfl hst
      | afterField =>
        obtain ⟨rfl, rfl, hs⟩ := ha.ended
        have hs : r.started = true := by simpa using hs
        rw [if_pos hs] at hr
        cases hr
        simp [addNonempty]
  | @field st st' text text' row doc out token hread htype hrest ih =>
    intro r mode out' ha hr
    cases hread with
    | gap hgap =>
      have hst : st ≠ .afterField := by
        rcases hgap with ⟨rfl, -⟩ | ⟨rfl, -⟩ <;> decide
      obtain ⟨rfl, b, rfl⟩ := ha.fresh hst
      refine ih _ _ _ (.empty ?_ ?_) hr
      · rcases hgap with ⟨-, h⟩ | ⟨-, h⟩
        · exact h
        · rw [h]
          simp
      · intro hb
        rcases hgap with ⟨rfl, -⟩ | ⟨-, h⟩
        · subst hb
          cases ha
        · exact h
    | @plain _ w _ hne hw hafter =>
      by_cases hst : st = .afterField
      · subst hst
        obtain ⟨c, w, rfl⟩ := List.exists_cons_of_ne_nil hne
        obtain ⟨hrow, hdoc, -⟩ := ha.ended
        rw [List.cons_append] at ha hr ⊢
        obtain ⟨h₁, h₂⟩ := ha.part (Or.inl (hw c (by simp)))
        rw [h₂] at hr
        rw [hrow] at hrest
        rw [h₁]
        simp only [Bool.false_eq_true, iff_false]
        exact rows_ne_of_part hrest hr hdoc rfl rfl
      · obtain ⟨rfl, b, rfl⟩ := ha.fresh hst
        rw [wellQuoted_word hne hw]
        rw [read_word rfl rfl hw rfl, push_foldl hne] at hr
        exact ih _ _ _ (.word hafter) hr
    | @quoted _ text raw _ hm =>
      have hhead : text'.head? ≠ some doubleQuote := by
        intro h
        obtain ⟨t, rfl⟩ : ∃ t, text' = doubleQuote::t := by
          cases text' with
          | nil => cases h
          | cons d t =>
            cases h
            exact ⟨t, rfl⟩
        exact not_parses_openQuote (matchQuoted_backtrack _ _ _ hm) hrest
      by_cases hst : st = .afterField
      · subst hst
        obtain ⟨hrow, hdoc, -⟩ := ha.ended
        obtain ⟨h₁, h₂⟩ := ha.part (Or.inr rfl)
        rw [h₂] at hr
        rw [hrow] at hrest
        rw [h₁]
        simp only [Bool.false_eq_true, iff_false]
        exact rows_ne_of_part hrest hr hdoc rfl rfl
      · obtain ⟨rfl, b, rfl⟩ := ha.fresh hst
        rw [wellQuotedFrom, if_pos rfl, wellQuoted_quoted _ _ _ hm hhead]
        rw [read_cons, if_neg (by simp), if_pos ⟨rfl, rfl⟩,
          read_quoted rfl _ _ _ hm hhead _ rfl rfl rfl] at hr
        rw [fieldValue_quoted] at ih
        exact ih _ _ _ (.quoted hhead) hr
    | comma => cases htype
    | newline => cases htype
  | @comma st st' text text' row doc out token hread htype hrest ih =>
    intro r mode out' ha hr
    cases hread with
    | gap => cases htype
    | plain => cases htype
    | quoted => cases htype
    | newline => cases htype
    | comma =>
      rw [wellQuoted_separator ha.mode_ne (Or.inl rfl)]
      rw [read_comma rfl rfl ha.in_quote] at hr
      have hq := ha.in_quote
      obtain ⟨rfl, rfl, -⟩ := ha.ended
      refine ih _ _ _ ?_ hr
      have : r.endField = { row_started := true, row := r.row ++ [r.field], doc := r.doc } := by
        cases r
        subst hq
        rfl
      rw [this]
      exact .afterComma
  | @newline st st' text text' row doc out token hread htype hrest ih =>
    intro r mode out' ha hr
    cases hread with
    | gap => cases htype
    | plain => cases htype
    | quoted => cases htype
    | comma => cases htype
    | newline hst hn =>
      rw [wellQuoted_newline ha.mode_ne hn]
      rw [read_newline rfl rfl ha.in_quote hn] at hr
      have hend : r.endRow {} = { doc := addNonempty doc row } := by
        cases st with
        | rowStart =>
          cases ha
          rfl
        | afterComma => exact absurd rfl hst
        | afterField =>
          have hq := ha.in_quote
          obtain ⟨rfl, rfl, hs⟩ := ha.ended
          have hs : r.started = true := by
            rcases hs with hs | hs
            · exact hs
            · rcases hn with rfl | rfl <;> cases hs
          cases r
          subst hq
          simp [Reading.endRow, Reading.lastRow, hs, addNonempty]
      rw [hend] at hr
      exact ih _ _ _ .rowStart hr

theorem parses_of_parse {content : Bytes} (h : csv_parse content = .ok doc) :
    Parses .rowStart content [] {} doc := by
  have hparse : csv_parse content = if content = [] then .error "Empty input" else
      csv_parse_loop (lexerFuel content) (csv_lexer_init content) csv_lexer_reset_state [] {} >>=
        pure := rfl
  rw [hparse] at h
  obtain ⟨doc', h₁, h₂⟩ := bind_eq_ok.mp (guard_eq_ok.mp h).2
  cases h₂
  exact (parse_loop_iff content _).mp h₁

/-- On a text that both readers take, `csv_parse` and `csv_parse_stream` deliver the same rows
exactly if a quote opens a field only at its start, and a closing quote is followed by a comma, a
line end or the end of the text. -/
theorem parse_rows_eq_stream_iff (content : Bytes) (doc : CsvDoc) (h : csv_parse content = .ok doc)
    (hs : (csv_parse_stream content).success = true) :
    doc.rows = (csv_dom_doc (csv_parse_stream content).log).rows ↔ wellQuoted content = true := by
  have hread : read {} content {} = some (csv_dom_doc (csv_parse_stream content).log) := by
    rw [← parse_stream_read, CsvOutcome.doc, if_pos hs]
  exact parses_agree (parses_of_parse h) _ _ _ .rowStart hread

/-- The text `a,"b""c"` in two rows. -/
theorem parse_rows_eq_stream_escaped :
    (csv_parse [97, 44, 34, 98, 34, 34, 99, 34, 10, 100]).toOption.map CsvDoc.rows =
        some (csv_dom_doc (csv_parse_stream [97, 44, 34, 98, 34, 34, 99, 34, 10, 100]).log).rows := by
  have h : csv_parse [97, 44, 34, 98, 34, 34, 99, 34, 10, 100] =
      .ok { rows := [[[97], [98, 34, 99]], [[100]]], column_count := 2 } := by decide +kernel
  rw [h]
  exact congrArg some ((parse_rows_eq_stream_iff _ _ h (by decide +kernel)).mpr (by decide))

/-- The text `"a"b`: two fields for the lexer, one for the streaming parser. -/
theorem parse_rows_ne_stream :
    csv_parse [34, 97, 34, 98] = .ok { rows := [[[97], [98]]], column_count := 2 } ∧
      (csv_parse_stream [34, 97, 34, 98]).success = true ∧
      (csv_dom_doc (csv_parse_stream [34, 97, 34, 98]).log).rows = [[[97, 98]]] := by
  decide +kernel

end SaltsUtils.Csv
