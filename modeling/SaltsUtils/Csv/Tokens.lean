import SaltsUtils.Csv.Document

/-!
# What the lexer reads

A token is described by the bytes that it takes and by the states around it, so
that the readers over the lexer are followed token by token.
-/

set_option autoImplicit false

namespace SaltsUtils.Csv

/-- Where an empty field is due: after a comma at a separator or at the end, and before a comma
that begins a row. -/
def Gap (state : LexerState) (text : Bytes) : Prop :=
  (state = .afterComma ∧ ∀ c ∈ text.head?, c = comma ∨ c = lf ∨ c = cr) ∨
    (state = .rowStart ∧ text.head? = some comma)

/-- One call of the lexer: its state and text before, the return value, and its text and state
after. -/
inductive Reads : LexerState → Bytes → LexerReturn → Bytes → LexerState → Prop
  | done {st : LexerState} : st ≠ .afterComma → Reads st [] .done [] .rowStart
  | gap {st : LexerState} {text : Bytes} : Gap st text →
      Reads st text (.token { type := .field }) text .afterField
  | plain {st : LexerState} {w after : Bytes} : w ≠ [] → (∀ c ∈ w, isSpecial c = false) →
      (∀ c ∈ after.head?, isSpecial c = true) →
      Reads st (w ++ after) (.token { type := .field, value := w }) after .afterField
  | comma {after : Bytes} :
      Reads .afterField (comma::after) (.token { type := .comma, value := [comma] }) after
        .afterComma
  | newline {st : LexerState} {n after : Bytes} : st ≠ .afterComma → n = [lf] ∨ n = [cr, lf] →
      Reads st (n ++ after) (.token { type := .newline, value := n }) after .rowStart
  | quoted {st : LexerState} {text raw after : Bytes} : matchQuoted text = some (raw, after) →
      Reads st (doubleQuote::text)
        (.token { type := .field, value := raw, needs_unescape := has_escaped_quote raw }) after
        .afterField
  | nul {st : LexerState} {after : Bytes} : Reads st (nul::after) .error after st
  | cr {st : LexerState} {after : Bytes} : st ≠ .afterComma → after.head? ≠ some lf →
      Reads st (cr::after) .error after st
  | openQuote {st : LexerState} {after : Bytes} : matchQuoted after = none →
      Reads st (doubleQuote::after) .error after st

theorem find_scalar_split (text : Bytes) :
    (∀ c ∈ text.take (csv_find_unquoted_field_end_scalar text), isSpecial c = false) ∧
      ∀ c ∈ (text.drop (csv_find_unquoted_field_end_scalar text)).head?, isSpecial c = true := by
  induction text with
  | nil => simp
  | cons c text ih =>
    cases hc : isSpecial c with
    | true => simp [csv_find_unquoted_field_end_scalar, hc]
    | false =>
      simp only [csv_find_unquoted_field_end_scalar, hc, Bool.false_eq_true, if_false,
        List.take_succ_cons, List.drop_succ_cons, List.mem_cons, forall_eq_or_imp]
      exact ⟨⟨trivial, ih.1⟩, ih.2⟩

theorem advance_rest (lexer : CsvLexer) (token rest : Bytes) :
    (lexer.advance token rest).rest = rest := by
  have h : ∀ (token : Bytes) (l : CsvLexer), (token.foldl (fun l c =>
      if c = lf then { l with line := l.line + 1, column := 1 }
      else { l with column := l.column + 1 }) l).rest = l.rest := by
    intro token
    induction token with
    | nil => exact fun _ => rfl
    | cons c token ih =>
      intro l
      rw [List.foldl_cons, ih]
      split <;> rfl
  exact h token _

theorem lexer_rules_reads (lexer : CsvLexer) (state : LexerState) (c : UInt8) (rest : Bytes)
    (hc : isSpecial c = true) (hgap : ¬ Gap state (c::rest)) :
    Reads state (c::rest) (csv_lexer_rules lexer state c rest).ret
      (csv_lexer_rules lexer state c rest).lexer.rest
      (csv_lexer_rules lexer state c rest).state := by
  unfold csv_lexer_rules
  by_cases h₁ : c = comma
  · subst h₁
    rw [if_pos rfl]
    have : state = .afterField := by
      cases state with
      | rowStart => exact absurd (Or.inr ⟨rfl, rfl⟩) hgap
      | afterField => rfl
      | afterComma => exact absurd (Or.inl ⟨rfl, by simp⟩) hgap
    subst this
    exact .comma
  rw [if_neg h₁]
  have hcomma : c = lf ∨ c = cr → state ≠ .afterComma := by
    rintro h rfl
    exact hgap (Or.inl ⟨rfl, by simp; tauto⟩)
  by_cases h₂ : c = lf
  · subst h₂
    rw [if_pos rfl]
    exact .newline (n := [lf]) (hcomma (Or.inl rfl)) (Or.inl rfl)
  rw [if_neg h₂]
  by_cases h₃ : c = cr
  · subst h₃
    rw [if_pos rfl]
    cases rest with
    | nil => exact .cr (hcomma (Or.inr rfl)) (by simp)
    | cons d rest =>
      dsimp only
      by_cases hd : d = lf
      · subst hd
        rw [if_pos rfl]
        exact .newline (n := [cr, lf]) (hcomma (Or.inr rfl)) (Or.inr rfl)
      · rw [if_neg hd]
        exact .cr (hcomma (Or.inr rfl)) (by simpa using hd)
  rw [if_neg h₃]
  by_cases h₄ : c = doubleQuote
  · subst h₄
    rw [if_pos rfl]
    cases hm : matchQuoted rest with
    | none => exact .openQuote hm
    | some m =>
      obtain ⟨raw, after⟩ := m
      simp only [advance_rest]
      exact .quoted hm
  rw [if_neg h₄]
  have h₅ : c = nul := by
    simp only [isSpecial, Bool.or_eq_true, beq_iff_eq] at hc
    tauto
  subst h₅
  exact .nul

theorem lexer_next_reads (lexer : CsvLexer) (state : LexerState) :
    Reads state lexer.rest (csv_lexer_next lexer state).ret (csv_lexer_next lexer state).lexer.rest
      (csv_lexer_next lexer state).state := by
  unfold csv_lexer_next
  cases hrest : lexer.rest with
  | nil =>
    dsimp only
    split
    · simp only [hrest]
      exact .gap (Or.inl ⟨‹_›, by simp⟩)
    · simp only [hrest]
      exact .done ‹_›
  | cons c rest =>
    dsimp only
    by_cases h₁ : state = .afterComma ∧ (c = comma ∨ c = lf ∨ c = cr)
    · rw [if_pos h₁]
      simp only [hrest]
      exact .gap (Or.inl ⟨h₁.1, by simpa using h₁.2⟩)
    rw [if_neg h₁]
    by_cases h₂ : state = .rowStart ∧ c = comma
    · rw [if_pos h₂]
      simp only [hrest]
      exact .gap (Or.inr ⟨h₂.1, by simp [h₂.2]⟩)
    rw [if_neg h₂, find_simde_eq]
    have hgap : ¬ Gap state (c::rest) := by
      rintro (⟨h, h'⟩ | ⟨h, h'⟩)
      · exact h₁ ⟨h, h' c rfl⟩
      · exact h₂ ⟨h, by simpa using h'⟩
    cases hc : isSpecial c with
    | true =>
      rw [if_neg (by simp [csv_find_unquoted_field_end_scalar, hc])]
      exact lexer_rules_reads lexer state c rest hc hgap
    | false =>
      have hpos : 0 < csv_find_unquoted_field_end_scalar (c::rest) := by
        simp [csv_find_unquoted_field_end_scalar, hc]
      obtain ⟨hword, hafter⟩ := find_scalar_split (c::rest)
      rw [if_pos hpos]
      have hread := @Reads.plain state ((c::rest).take (csv_find_unquoted_field_end_scalar (c::rest)))
        _ (by simp; omega) hword hafter
      rw [List.take_append_drop] at hread
      exact hread

theorem find_scalar_word {w : Bytes} (after : Bytes) (hw : ∀ c ∈ w, isSpecial c = false)
    (ha : ∀ c ∈ after.head?, isSpecial c = true) :
    csv_find_unquoted_field_end_scalar (w ++ after) = w.length := by
  rw [find_scalar_append w after hw]
  cases after with
  | nil => simp [csv_find_unquoted_field_end_scalar]
  | cons c after => simp [csv_find_unquoted_field_end_scalar, ha c rfl]

theorem next_special (lexer : CsvLexer) (state : LexerState) {c : UInt8} {rest : Bytes}
    (hrest : lexer.rest = c::rest) (hc : isSpecial c = true) (hgap : ¬ Gap state (c::rest)) :
    csv_lexer_next lexer state = csv_lexer_rules lexer state c rest := by
  unfold csv_lexer_next
  rw [hrest]
  dsimp only
  rw [if_neg (fun h => hgap (Or.inl ⟨h.1, by simpa using h.2⟩)),
    if_neg (fun h => hgap (Or.inr ⟨h.1, by simp [h.2]⟩)), find_simde_eq,
    if_neg (by simp [csv_find_unquoted_field_end_scalar, hc])]

theorem next_gap (lexer : CsvLexer) (state : LexerState) (hgap : Gap state lexer.rest) :
    csv_lexer_next lexer state = ⟨.token { type := .field }, lexer, .afterField⟩ := by
  unfold csv_lexer_next
  cases hrest : lexer.rest with
  | nil =>
    rw [hrest] at hgap
    rcases hgap with ⟨rfl, -⟩ | ⟨-, h⟩
    · rfl
    · cases h
  | cons c rest =>
    rw [hrest] at hgap
    dsimp only
    rcases hgap with ⟨rfl, h⟩ | ⟨rfl, h⟩
    · rw [if_pos ⟨rfl, h c rfl⟩]
    · rw [if_neg (by simp), if_pos ⟨rfl, by simpa using h⟩]

theorem not_gap_of_special {state : LexerState} {c : UInt8} {rest : Bytes} (h₁ : c ≠ comma)
    (h₂ : c ≠ lf) (h₃ : c ≠ cr) : ¬ Gap state (c::rest) := by
  rintro (⟨-, h⟩ | ⟨-, h⟩)
  · rcases h c rfl with h | h | h
    · exact h₁ h
    · exact h₂ h
    · exact h₃ h
  · exact h₁ (by simpa using h)

theorem reads_next {st st' : LexerState} {text text' : Bytes} {ret : LexerReturn}
    (h : Reads st text ret text' st') (lexer : CsvLexer) (hrest : lexer.rest = text) :
    (csv_lexer_next lexer st).ret = ret ∧ (csv_lexer_next lexer st).lexer.rest = text' ∧
      (csv_lexer_next lexer st).state = st' := by
  cases h with
  | done hst =>
    unfold csv_lexer_next
    rw [hrest]
    dsimp only
    rw [if_neg hst]
    exact ⟨rfl, hrest, rfl⟩
  | gap hgap =>
    rw [← hrest] at hgap
    rw [next_gap lexer st hgap]
    exact ⟨rfl, hrest, rfl⟩
  | plain hw hplain hafter =>
    obtain ⟨c, w, rfl⟩ := List.exists_cons_of_ne_nil hw
    have hc := hplain c (by simp)
    have hn := find_scalar_word text' hplain hafter
    unfold csv_lexer_next
    rw [hrest]
    simp only [List.cons_append] at hn ⊢
    have hne : ∀ d, isSpecial d = true → c ≠ d := by
      rintro d hd rfl
      rw [hc] at hd
      cases hd
    rw [if_neg (by rintro ⟨-, h | h | h⟩ <;> exact hne _ (by decide) h),
      if_neg (fun h => hne comma (by decide) h.2), find_simde_eq, hn, if_pos (by simp)]
    refine ⟨?_, ?_, rfl⟩
    · show LexerReturn.token _ = _
      rw [← List.cons_append, List.take_left]
    · show List.drop _ _ = _
      rw [← List.cons_append, List.drop_left]
  | comma =>
    rw [next_special lexer _ hrest (by decide) (by rintro (⟨h, -⟩ | ⟨h, -⟩) <;> cases h)]
    exact ⟨rfl, rfl, rfl⟩
  | newline hst hn =>
    have hgap : ∀ d rest, d ≠ comma → ¬ Gap st (d::rest) := by
      rintro d rest hd (⟨h, -⟩ | ⟨-, h⟩)
      · exact hst h
      · exact hd (by simpa using h)
    rcases hn with rfl | rfl
    · rw [next_special lexer st hrest (by decide) (hgap _ _ (by decide))]
      exact ⟨rfl, rfl, rfl⟩
    · rw [next_special lexer st hrest (by decide) (hgap _ _ (by decide))]
      exact ⟨rfl, rfl, rfl⟩
  | @quoted _ text raw _ hm =>
    rw [next_special lexer st hrest (by decide)
      (not_gap_of_special (by decide) (by decide) (by decide))]
    have hrules : csv_lexer_rules lexer st doubleQuote text =
        ⟨.token { type := .field, value := raw, needs_unescape := has_escaped_quote raw },
          lexer.advance (doubleQuote::raw ++ [doubleQuote]) text', .afterField⟩ := by
      unfold csv_lexer_rules
      rw [if_neg (by decide), if_neg (by decide), if_neg (by decide), if_pos rfl, hm]
    rw [hrules]
    exact ⟨rfl, advance_rest _ _ _, rfl⟩
  | nul =>
    rw [next_special lexer st hrest (by decide)
      (not_gap_of_special (by decide) (by decide) (by decide))]
    exact ⟨rfl, rfl, rfl⟩
  | cr hst hafter =>
    have hgap : ¬ Gap st (Csv.cr::text') := by
      rintro (⟨h, -⟩ | ⟨-, h⟩)
      · exact hst h
      · simp only [List.head?_cons, Option.some.injEq] at h
        exact absurd h (by decide)
    rw [next_special lexer st hrest (by decide) hgap]
    cases text' with
    | nil => exact ⟨rfl, rfl, rfl⟩
    | cons d rest =>
      have hd : d ≠ lf := by simpa using hafter
      unfold csv_lexer_rules
      dsimp only
      rw [if_neg (by decide), if_neg (by decide), if_pos rfl, if_neg hd]
      exact ⟨rfl, rfl, rfl⟩
  | openQuote hm =>
    rw [next_special lexer st hrest (by decide)
      (not_gap_of_special (by decide) (by decide) (by decide))]
    unfold csv_lexer_rules
    rw [if_neg (by decide), if_neg (by decide), if_neg (by decide), if_pos rfl, hm]
    exact ⟨rfl, rfl, rfl⟩

inductive Parses : LexerState → Bytes → Row → CsvDoc → CsvDoc → Prop
  | done {st st' : LexerState} {text text' : Bytes} {row : Row} {doc : CsvDoc} :
      Reads st text .done text' st' → Parses st text row doc (addNonempty doc row)
  | field {st st' : LexerState} {text text' : Bytes} {row : Row} {doc out : CsvDoc}
      {token : CsvToken} : Reads st text (.token token) text' st' → token.type = .field →
      Parses st' text' (row ++ [token.fieldValue]) doc out → Parses st text row doc out
  | comma {st st' : LexerState} {text text' : Bytes} {row : Row} {doc out : CsvDoc}
      {token : CsvToken} : Reads st text (.token token) text' st' → token.type = .comma →
      Parses st' text' row doc out → Parses st text row doc out
  | newline {st st' : LexerState} {text text' : Bytes} {row : Row} {doc out : CsvDoc}
      {token : CsvToken} : Reads st text (.token token) text' st' → token.type = .newline →
      Parses st' text' [] (addNonempty doc row) out → Parses st text row doc out

theorem parses_of_loop (fuel : ℕ) : ∀ (lexer : CsvLexer) (st : LexerState) (row : Row)
    (doc out : CsvDoc), csv_parse_loop fuel lexer st row doc = .ok out →
      Parses st lexer.rest row doc out := by
  induction fuel with
  | zero =>
    intro lexer st row doc out h
    cases h
  | succ fuel ih =>
    intro lexer st row doc out h
    have hread := lexer_next_reads lexer st
    rw [csv_parse_loop] at h
    cases hret : (csv_lexer_next lexer st).ret with
    | token token =>
      rw [hret] at h hread
      dsimp only at h
      cases htype : token.type with
      | field =>
        rw [htype] at h
        exact .field hread htype (ih _ _ _ _ _ h)
      | comma =>
        rw [htype] at h
        exact .comma hread htype (ih _ _ _ _ _ h)
      | newline =>
        rw [htype] at h
        exact .newline hread htype (ih _ _ _ _ _ h)
    | done =>
      rw [hret] at h hread
      cases h
      exact .done hread
    | error =>
      rw [hret] at h
      cases h

def tokensLeft (st : LexerState) (text : Bytes) : ℕ :=
  2 * text.length + if st = .afterField then 0 else 1

theorem matchQuoted_length (text : Bytes) : ∀ raw after, matchQuoted text = some (raw, after) →
    after.length < text.length := by
  fun_induction matchQuoted text with
  | case1 => simp
  | case2 => simp
  | case3 => simp
  | case4 =>
    rename_i hm _ ih
    rintro raw after ⟨⟩
    have := ih _ _ hm
    simp only [List.length_cons]
    omega
  | case5 =>
    rintro raw after ⟨⟩
    simp
  | case6 =>
    rintro raw after ⟨⟩
    simp
  | case7 =>
    rename_i ih
    intro raw after h
    obtain ⟨m, hm, hm'⟩ := Option.map_eq_some_iff.mp h
    cases hm'
    have := ih _ _ hm
    simp only [List.length_cons]
    omega

theorem tokensLeft_reads {st st' : LexerState} {text text' : Bytes} {token : CsvToken}
    (h : Reads st text (.token token) text' st') : tokensLeft st' text' < tokensLeft st text := by
  unfold tokensLeft
  cases h with
  | gap hgap =>
    rcases hgap with ⟨rfl, -⟩ | ⟨rfl, -⟩ <;> simp
  | plain hw hplain hafter =>
    have := List.length_pos_of_ne_nil hw
    simp only [List.length_append]
    simp
    split <;> omega
  | comma =>
    simp
    omega
  | newline hst hn =>
    rcases hn with rfl | rfl <;> simp <;> split <;> omega
  | quoted hm =>
    have := matchQuoted_length _ _ _ hm
    simp
    split <;> omega

theorem loop_of_parses {st : LexerState} {text : Bytes} {row : Row} {doc out : CsvDoc}
    (h : Parses st text row doc out) : ∀ (fuel : ℕ) (lexer : CsvLexer), lexer.rest = text →
      tokensLeft st text < fuel → csv_parse_loop fuel lexer st row doc = .ok out := by
  induction h with
  | done hread =>
    intro fuel lexer hrest hfuel
    obtain ⟨fuel, rfl⟩ : ∃ k, fuel = k + 1 := ⟨fuel - 1, by omega⟩
    rw [csv_parse_loop, (reads_next hread lexer hrest).1]
  | field hread htype _ ih =>
    intro fuel lexer hrest hfuel
    obtain ⟨fuel, rfl⟩ : ∃ k, fuel = k + 1 := ⟨fuel - 1, by omega⟩
    obtain ⟨h₁, h₂, h₃⟩ := reads_next hread lexer hrest
    have := tokensLeft_reads hread
    rw [csv_parse_loop, h₁, h₃]
    dsimp only
    rw [htype]
    exact ih fuel _ h₂ (by omega)
  | comma hread htype _ ih =>
    intro fuel lexer hrest hfuel
    obtain ⟨fuel, rfl⟩ : ∃ k, fuel = k + 1 := ⟨fuel - 1, by omega⟩
    obtain ⟨h₁, h₂, h₃⟩ := reads_next hread lexer hrest
    have := tokensLeft_reads hread
    rw [csv_parse_loop, h₁, h₃]
    dsimp only
    rw [htype]
    exact ih fuel _ h₂ (by omega)
  | newline hread htype _ ih =>
    intro fuel lexer hrest hfuel
    obtain ⟨fuel, rfl⟩ : ∃ k, fuel = k + 1 := ⟨fuel - 1, by omega⟩
    obtain ⟨h₁, h₂, h₃⟩ := reads_next hread lexer hrest
    have := tokensLeft_reads hread
    rw [csv_parse_loop, h₁, h₃]
    dsimp only
    rw [htype]
    exact ih fuel _ h₂ (by omega)

theorem parse_loop_iff (content : Bytes) (out : CsvDoc) :
    csv_parse_loop (lexerFuel content) (csv_lexer_init content) csv_lexer_reset_state [] {} =
      .ok out ↔ Parses .rowStart content [] {} out := by
  constructor
  · exact parses_of_loop _ _ _ _ _ _
  · intro h
    exact loop_of_parses h _ _ rfl (by simp [tokensLeft, lexerFuel])

end SaltsUtils.Csv
