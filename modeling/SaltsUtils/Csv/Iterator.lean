import SaltsUtils.Csv.Tokens

/-!
# Row iterators

`csv_iter_new_opts` and `csv_iter_next` of `src/parser/csv_parser/src/csv_parser.c`.
-/

set_option autoImplicit false

namespace SaltsUtils.Csv

/-- `csv_iter_t`: the text that is left to the lexer, or the document of another format, and the
row that was read last. -/
structure CsvIter where
  lexer : CsvLexer
  generic_doc : Option CsvDoc := none
  generic_next_row : ℕ := 0
  fields : Row := []
  row_index : UInt64 := -1
deriving DecidableEq

def csv_iter_new_opts (content : Bytes) (opts : Option CsvOptions) (state : LexerState) :
    Option CsvIter × LexerState :=
  if csv_opts_use_fast_lexer opts then
    (some { lexer := csv_lexer_init content }, csv_lexer_reset_state)
  else
    match csv_parse_opts content opts with
    | .ok doc => (some { lexer := csv_lexer_init [], generic_doc := some doc }, state)
    | .error _ => (none, state)

def csv_iter_new (content : Bytes) (state : LexerState) : Option CsvIter × LexerState :=
  csv_iter_new_opts content none state

/-- How the loop of `csv_iter_next` ends: its return value, and what it leaves behind. -/
structure IterExit where
  ret : Bool
  lexer : CsvLexer
  state : LexerState
  fields : Row
deriving DecidableEq

def csv_iter_loop : ℕ → CsvLexer → LexerState → Row → Bool → IterExit
  | 0, lexer, state, fields, has_content => ⟨has_content, lexer, state, fields⟩
  | fuel + 1, lexer, state, fields, has_content =>
    let step := csv_lexer_next lexer state
    match step.ret with
    | .token token =>
      match token.type with
      | .field =>
        csv_iter_loop fuel step.lexer step.state (fields ++ [token.fieldValue]) true
      | .comma =>
        if has_content = false then
          -- An empty field at the start.
          csv_iter_loop fuel step.lexer step.state (fields ++ [[]]) true
        else csv_iter_loop fuel step.lexer step.state fields has_content
      | .newline =>
        if has_content then ⟨true, step.lexer, step.state, fields⟩
        else csv_iter_loop fuel step.lexer step.state fields has_content
    | .done => ⟨has_content, step.lexer, step.state, fields⟩
    | .error => ⟨has_content, step.lexer, step.state, fields⟩

structure IterResult where
  ret : Bool
  fields : Row
  row_index : UInt64
deriving DecidableEq

def CsvIter.shown (iter : CsvIter) (ret : Bool) : IterResult := ⟨ret, iter.fields, iter.row_index⟩

def csv_iter_next (iter : CsvIter) (state : LexerState) : Bool × CsvIter × LexerState :=
  match iter.generic_doc with
  | some doc =>
    match doc.rows[iter.generic_next_row]? with
    | none => (false, { iter with fields := [] }, state)
    | some row =>
      (true, { iter with
        fields := row
        row_index := UInt64.ofNat iter.generic_next_row
        generic_next_row := iter.generic_next_row + 1 }, state)
  | none =>
    let last := csv_iter_loop (lexerFuel iter.lexer.rest) iter.lexer state [] false
    (last.ret, { iter with
      lexer := last.lexer
      fields := last.fields
      row_index := if last.ret then iter.row_index + 1 else iter.row_index }, last.state)

inductive IterOp
  | new (content : Bytes)
  | next (i : ℕ)
deriving DecidableEq

/-- A thread: the state of the lexer, the iterators in the order of their creation, and the
results of the calls. -/
structure IterThread where
  state : LexerState := .rowStart
  iters : List CsvIter := []
  log : List (ℕ × IterResult) := []
deriving DecidableEq

def IterThread.step (t : IterThread) : IterOp → IterThread
  | .new content =>
    let made := csv_iter_new content t.state
    { t with state := made.2, iters := t.iters ++ made.1.toList }
  | .next i =>
    match t.iters[i]? with
    | none => t
    | some iter =>
      let next := csv_iter_next iter t.state
      { state := next.2.2
        iters := t.iters.set i next.2.1
        log := t.log ++ [(i, next.2.1.shown next.1)] }

def IterThread.run (t : IterThread) (ops : List IterOp) : IterThread := ops.foldl IterThread.step t

def IterThread.returned (t : IterThread) (i : ℕ) : List IterResult :=
  (t.log.filter (·.1 = i)).map (·.2)

/-- A thread that has only one iterator. -/
def alone (content : Bytes) (calls : ℕ) : IterThread :=
  ({} : IterThread).run (.new content::List.replicate calls (.next 0))

def IterOp.texts : List IterOp → List Bytes
  | [] => []
  | .new content::ops => content::IterOp.texts ops
  | .next _::ops => IterOp.texts ops

/-- Directly behind a comma that separates two fields stands neither a NUL nor a quote that no
other one closes. -/
def steadyFrom : Bool → Bytes → Bool
  | _, [] => true
  | afterComma, c::rest =>
    if c = comma then steadyFrom true rest
    else if c = nul then !afterComma && steadyFrom false rest
    else if c = doubleQuote then
      match _h : matchQuoted rest with
      | some (_, after) => steadyFrom false after
      | none => !afterComma && steadyFrom false rest
    else steadyFrom false rest
termination_by _ text => text.length
decreasing_by
  all_goals simp only [List.length_cons]
  all_goals first
    | omega
    | exact Nat.lt_succ_of_lt (matchQuoted_length _ _ _ ‹_›)

def steady (content : Bytes) : Bool := steadyFrom false content

theorem steady_comma (b : Bool) (rest : Bytes) :
    steadyFrom b (comma::rest) = steadyFrom true rest := by
  rw [steadyFrom, if_pos rfl]

theorem steady_nul (b : Bool) (rest : Bytes) :
    steadyFrom b (nul::rest) = (!b && steadyFrom false rest) := by
  rw [steadyFrom, if_neg (by decide), if_pos rfl]

theorem steady_quoted (b : Bool) {text raw after : Bytes} (h : matchQuoted text = some (raw, after)) :
    steadyFrom b (doubleQuote::text) = steadyFrom false after := by
  rw [steadyFrom, if_neg (by decide), if_neg (by decide), if_pos rfl]
  split
  · rename_i h'
    rw [h] at h'
    cases h'
    rfl
  · rename_i h'
    rw [h] at h'
    cases h'

theorem steady_openQuote (b : Bool) {text : Bytes} (h : matchQuoted text = none) :
    steadyFrom b (doubleQuote::text) = (!b && steadyFrom false text) := by
  rw [steadyFrom, if_neg (by decide), if_neg (by decide), if_pos rfl]
  split
  · rename_i h'
    rw [h] at h'
    cases h'
  · rfl

theorem steady_other (b : Bool) {c : UInt8} (rest : Bytes) (h₁ : c ≠ comma) (h₂ : c ≠ nul)
    (h₃ : c ≠ doubleQuote) : steadyFrom b (c::rest) = steadyFrom false rest := by
  rw [steadyFrom, if_neg h₁, if_neg h₂, if_neg h₃]

theorem steady_word {w : Bytes} (hw : ∀ c ∈ w, isSpecial c = false) (after : Bytes) :
    ∀ b, steadyFrom b (w ++ after) = true → w ≠ [] → steadyFrom false after = true := by
  induction w with
  | nil => exact fun _ _ h => absurd rfl h
  | cons c w ih =>
    intro b h _
    have hc := hw c (by simp)
    simp only [isSpecial, Bool.or_eq_false_iff, beq_eq_false_iff_ne] at hc
    rw [List.cons_append, steady_other b _ hc.1.1.1.2 hc.1.1.1.1 hc.1.1.2] at h
    by_cases hne : w = []
    · subst hne
      exact h
    · exact ih (fun d hd => hw d (by simp [hd])) false h hne

def behindComma (st : LexerState) : Bool := st = .afterComma

theorem steady_gap {st : LexerState} {text : Bytes} (hgap : Gap st text) (b : Bool) :
    steadyFrom b text = steadyFrom false text := by
  cases text with
  | nil => rw [steadyFrom, steadyFrom]
  | cons c rest =>
    have hc : c = comma ∨ c = lf ∨ c = cr := by
      rcases hgap with ⟨-, h⟩ | ⟨-, h⟩
      · exact h c rfl
      · exact Or.inl (by simpa using h)
    rcases hc with rfl | rfl | rfl
    · rw [steady_comma, steady_comma]
    · rw [steady_other b rest (by decide) (by decide) (by decide),
        steady_other false rest (by decide) (by decide) (by decide)]
    · rw [steady_other b rest (by decide) (by decide) (by decide),
        steady_other false rest (by decide) (by decide) (by decide)]

theorem reads_steady {st st' : LexerState} {text text' : Bytes} {ret : LexerReturn}
    (h : Reads st text ret text' st') (hs : steadyFrom (behindComma st) text = true) :
    steadyFrom (behindComma st') text' = true ∧
      ((∀ token, ret ≠ .token token) → st' ≠ .afterComma) := by
  have hother : ∀ {c : UInt8} {rest : Bytes} {b b' : Bool}, steadyFrom b (c::rest) = true →
      c = lf ∨ c = cr → b' = false → steadyFrom b' rest = true := by
    rintro c rest b b' h (rfl | rfl) rfl
    · rwa [steady_other b rest (by decide) (by decide) (by decide)] at h
    · rwa [steady_other b rest (by decide) (by decide) (by decide)] at h
  have hfailed : ∀ {rest : Bytes}, (!behindComma st && steadyFrom false rest) = true →
      steadyFrom (behindComma st) rest = true ∧ st ≠ .afterComma := by
    intro rest h
    rw [Bool.and_eq_true, Bool.not_eq_true'] at h
    exact ⟨by rw [h.1]; exact h.2, by simpa [behindComma] using h.1⟩
  cases h with
  | done => exact ⟨by rw [steadyFrom], fun _ => by decide⟩
  | gap hgap => exact ⟨by rwa [steady_gap hgap] at hs, fun h => absurd rfl (h _)⟩
  | plain hne hw => exact ⟨steady_word hw _ _ hs hne, fun h => absurd rfl (h _)⟩
  | comma => exact ⟨by rwa [steady_comma] at hs, fun h => absurd rfl (h _)⟩
  | newline hst hn =>
    refine ⟨?_, fun h => absurd rfl (h _)⟩
    rcases hn with rfl | rfl
    · exact hother hs (Or.inl rfl) rfl
    · exact hother (hother hs (Or.inr rfl) rfl) (Or.inl rfl) rfl
  | quoted hm => exact ⟨by rwa [steady_quoted _ hm] at hs, fun h => absurd rfl (h _)⟩
  | nul =>
    rw [steady_nul] at hs
    exact ⟨(hfailed hs).1, fun _ => (hfailed hs).2⟩
  | cr hst => exact ⟨hother hs (Or.inr rfl) (by simpa [behindComma] using hst), fun _ => hst⟩
  | openQuote hm =>
    rw [steady_openQuote _ hm] at hs
    exact ⟨(hfailed hs).1, fun _ => (hfailed hs).2⟩

theorem iter_loop_fuel (fuel : ℕ) : ∀ (fuel' : ℕ) (lexer : CsvLexer) (st : LexerState)
    (fields : Row) (has_content : Bool), tokensLeft st lexer.rest < fuel →
    tokensLeft st lexer.rest < fuel' →
    csv_iter_loop fuel lexer st fields has_content =
      csv_iter_loop fuel' lexer st fields has_content := by
  induction fuel with
  | zero => exact fun _ _ _ _ _ h _ => absurd h (Nat.not_lt_zero _)
  | succ fuel ih =>
    intro fuel' lexer st fields has_content h h'
    obtain ⟨fuel', rfl⟩ : ∃ k, fuel' = k + 1 := ⟨fuel' - 1, by omega⟩
    have hread := lexer_next_reads lexer st
    rw [csv_iter_loop, csv_iter_loop]
    cases hret : (csv_lexer_next lexer st).ret with
    | token token =>
      rw [hret] at hread
      have hlt := tokensLeft_reads hread
      have hrest : ∀ fields has_content,
          csv_iter_loop fuel (csv_lexer_next lexer st).lexer (csv_lexer_next lexer st).state fields
            has_content = csv_iter_loop fuel' (csv_lexer_next lexer st).lexer
              (csv_lexer_next lexer st).state fields has_content :=
        fun fields has_content => ih fuel' _ _ fields has_content (by omega) (by omega)
      simp only [hrest]
    | done => rfl
    | error => rfl

theorem iter_loop_steady (fuel : ℕ) : ∀ (lexer : CsvLexer) (st : LexerState) (fields : Row)
    (has_content : Bool), tokensLeft st lexer.rest < fuel →
    steadyFrom (behindComma st) lexer.rest = true →
    (csv_iter_loop fuel lexer st fields has_content).state ≠ .afterComma ∧
      steadyFrom false (csv_iter_loop fuel lexer st fields has_content).lexer.rest = true := by
  induction fuel with
  | zero => exact fun _ _ _ _ h _ => absurd h (Nat.not_lt_zero _)
  | succ fuel ih =>
    intro lexer st fields has_content h hs
    have hread := lexer_next_reads lexer st
    obtain ⟨h₁, h₂⟩ := reads_steady hread hs
    have hexit : (csv_lexer_next lexer st).state ≠ .afterComma →
        (csv_lexer_next lexer st).state ≠ .afterComma ∧
          steadyFrom false (csv_lexer_next lexer st).lexer.rest = true := by
      intro hne
      have : behindComma (csv_lexer_next lexer st).state = false := by simpa [behindComma] using hne
      rw [this] at h₁
      exact ⟨hne, h₁⟩
    rw [csv_iter_loop]
    cases hret : (csv_lexer_next lexer st).ret with
    | token token =>
      rw [hret] at hread
      have hlt := tokensLeft_reads hread
      have hrest := fun fields has_content => ih (csv_lexer_next lexer st).lexer
        (csv_lexer_next lexer st).state fields has_content (by omega) h₁
      dsimp only
      split
      · exact hrest _ _
      · split_ifs <;> exact hrest _ _
      · rename_i htype
        split_ifs
        · refine hexit ?_
          generalize (csv_lexer_next lexer st).state = st' at hread
          generalize (csv_lexer_next lexer st).lexer.rest = text' at hread
          generalize lexer.rest = text at hread
          cases hread with
          | newline => decide
          | gap => cases htype
          | plain => cases htype
          | comma => cases htype
          | quoted => cases htype
        · exact hrest _ _
    | done => exact hexit (h₂ (by simp [hret]))
    | error => exact hexit (h₂ (by simp [hret]))

theorem rules_state (lexer : CsvLexer) (st st' : LexerState) (c : UInt8) (rest : Bytes) :
    (csv_lexer_rules lexer st c rest).ret = (csv_lexer_rules lexer st' c rest).ret ∧
    (csv_lexer_rules lexer st c rest).lexer = (csv_lexer_rules lexer st' c rest).lexer ∧
    ((csv_lexer_rules lexer st c rest).ret ≠ .error →
      (csv_lexer_rules lexer st c rest).state = (csv_lexer_rules lexer st' c rest).state) := by
  unfold csv_lexer_rules
  split_ifs
  · simp
  · simp
  · cases rest with
    | nil => simp
    | cons d rest =>
      dsimp only
      split_ifs <;> simp
  · cases matchQuoted rest <;> simp
  · simp

theorem next_entry (lexer : CsvLexer) (h : lexer.rest.head? ≠ some comma) :
    (csv_lexer_next lexer .rowStart).ret = (csv_lexer_next lexer .afterField).ret ∧
    (csv_lexer_next lexer .rowStart).lexer = (csv_lexer_next lexer .afterField).lexer ∧
    ((csv_lexer_next lexer .rowStart).ret ≠ .error →
      (csv_lexer_next lexer .rowStart).state = (csv_lexer_next lexer .afterField).state) := by
  unfold csv_lexer_next
  cases hrest : lexer.rest with
  | nil => simp
  | cons c rest =>
    have hc : c ≠ comma := by simpa [hrest] using h
    simp only [reduceCtorEq, false_and, if_false, hc, and_false]
    split_ifs
    · simp
    · exact rules_state lexer _ _ c rest

/-- What the loop returns and leaves of the text does not depend on which of the two states it
starts in. -/
theorem iter_loop_entry (lexer : CsvLexer) :
    let e := csv_iter_loop (lexerFuel lexer.rest) lexer .rowStart [] false
    let e' := csv_iter_loop (lexerFuel lexer.rest) lexer .afterField [] false
    e.ret = e'.ret ∧ e.lexer = e'.lexer ∧ e.fields = e'.fields := by
  by_cases h : lexer.rest.head? = some comma
  · obtain ⟨rest, hrest⟩ : ∃ rest, lexer.rest = comma::rest := by
      cases hrest : lexer.rest with
      | nil => simp [hrest] at h
      | cons c rest => exact ⟨rest, by simpa [hrest] using h⟩
    have hfuel : lexerFuel lexer.rest = 2 * rest.length + 2 + 1 + 1 := by
      rw [hrest, lexerFuel, List.length_cons]
      omega
    -- An empty field and a comma, or a comma that the loop puts an empty field before.
    have hgap := next_gap lexer .rowStart (Or.inr ⟨rfl, h⟩)
    have hcomma := next_special lexer .afterField hrest (by decide)
      (by rintro (⟨h, -⟩ | ⟨h, -⟩) <;> cases h)
    have heq : csv_iter_loop (lexerFuel lexer.rest) lexer .rowStart [] false =
        csv_iter_loop (lexerFuel lexer.rest) lexer .afterField [] false := by
      have h₁ : csv_iter_loop (2 * rest.length + 2 + 1 + 1) lexer .rowStart [] false =
          csv_iter_loop (2 * rest.length + 2 + 1) lexer .afterField [[]] true := by
        rw [csv_iter_loop, hgap]
        rfl
      have h₂ : csv_iter_loop (2 * rest.length + 2 + 1) lexer .afterField [[]] true =
          csv_iter_loop (2 * rest.length + 2) { lexer with rest := rest, column := lexer.column + 1 }
            .afterComma [[]] true := by
        rw [csv_iter_loop, hcomma]
        rfl
      have h₃ : csv_iter_loop (2 * rest.length + 2 + 1 + 1) lexer .afterField [] false =
          csv_iter_loop (2 * rest.length + 2 + 1)
            { lexer with rest := rest, column := lexer.column + 1 } .afterComma [[]] true := by
        rw [csv_iter_loop, hcomma]
        rfl
      rw [hfuel, h₁, h₂, h₃]
      apply iter_loop_fuel
      · simp [tokensLeft]
      · simp [tokensLeft]
    rw [heq]
    exact ⟨rfl, rfl, rfl⟩
  · obtain ⟨h₁, h₂, h₃⟩ := next_entry lexer h
    obtain ⟨fuel, hfuel⟩ : ∃ k, lexerFuel lexer.rest = k + 1 := ⟨2 * lexer.rest.length + 1, rfl⟩
    rw [hfuel, csv_iter_loop, csv_iter_loop]
    cases hret : (csv_lexer_next lexer .rowStart).ret with
    | token token =>
      rw [← h₁, ← h₂, ← h₃ (by simp [hret]), hret]
      exact ⟨rfl, rfl, rfl⟩
    | done =>
      rw [← h₁, ← h₂, hret]
      exact ⟨rfl, rfl, rfl⟩
    | error =>
      rw [← h₁, ← h₂, hret]
      exact ⟨rfl, rfl, rfl⟩

theorem iter_next_steady {iter : CsvIter} (hgeneric : iter.generic_doc = none)
    (hs : steadyFrom false iter.lexer.rest = true) {st st' : LexerState} (h : st ≠ .afterComma)
    (h' : st' ≠ .afterComma) :
    (csv_iter_next iter st).1 = (csv_iter_next iter st').1 ∧
      (csv_iter_next iter st).2.1 = (csv_iter_next iter st').2.1 ∧
      (csv_iter_next iter st).2.2 ≠ .afterComma ∧
      (csv_iter_next iter st).2.1.generic_doc = none ∧
      steadyFrom false (csv_iter_next iter st).2.1.lexer.rest = true := by
  have hnext : ∀ st, csv_iter_next iter st =
      let last := csv_iter_loop (lexerFuel iter.lexer.rest) iter.lexer st [] false
      (last.ret, { iter with
        lexer := last.lexer
        fields := last.fields
        row_index := if last.ret then iter.row_index + 1 else iter.row_index }, last.state) := by
    intro st
    unfold csv_iter_next
    rw [hgeneric]
  have hentry : ∀ st, st ≠ .afterComma →
      let e := csv_iter_loop (lexerFuel iter.lexer.rest) iter.lexer st [] false
      let e' := csv_iter_loop (lexerFuel iter.lexer.rest) iter.lexer .afterField [] false
      e.ret = e'.ret ∧ e.lexer = e'.lexer ∧ e.fields = e'.fields := by
    intro st hst
    cases st with
    | rowStart => exact iter_loop_entry iter.lexer
    | afterField => exact ⟨rfl, rfl, rfl⟩
    | afterComma => exact absurd rfl hst
  have hbehind : behindComma st = false := by simpa [behindComma] using h
  obtain ⟨h₁, h₂⟩ := iter_loop_steady (lexerFuel iter.lexer.rest) iter.lexer st [] false
    (by simp only [tokensLeft, lexerFuel]; split <;> omega) (by rwa [hbehind])
  obtain ⟨h₃, h₄, h₅⟩ := hentry st h
  obtain ⟨h₆, h₇, h₈⟩ := hentry st' h'
  rw [hnext st, hnext st']
  dsimp only
  rw [h₃, h₄, h₅, h₆, h₇, h₈]
  exact ⟨rfl, rfl, h₁, hgeneric, by rwa [h₄] at h₂⟩

theorem alone_succ (content : Bytes) (calls : ℕ) :
    alone content (calls + 1) = (alone content calls).step (.next 0) := by
  unfold alone IterThread.run
  rw [List.replicate_succ', ← List.cons_append, List.foldl_append]
  rfl

theorem returned_next {t : IterThread} {i : ℕ} {iter : CsvIter} (h : t.iters[i]? = some iter) (j : ℕ) :
    (t.step (.next i)).returned j = t.returned j ++
      if i = j then [(csv_iter_next iter t.state).2.1.shown (csv_iter_next iter t.state).1] else
        [] := by
  unfold IterThread.step IterThread.returned
  simp only [h, List.filter_append, List.map_append]
  split_ifs with hij <;> simp [hij]

/-- Every iterator stands where it stands alone after as many calls, and the thread is behind no
comma. -/
structure Apart (texts : List Bytes) (t : IterThread) : Prop where
  state : t.state ≠ .afterComma
  count : t.iters.length = texts.length
  fresh : ∀ i, texts.length ≤ i → t.returned i = []
  same : ∀ i content, texts[i]? = some content → ∃ iter, t.iters[i]? = some iter ∧
    iter.generic_doc = none ∧ steadyFrom false iter.lexer.rest = true ∧
    (alone content (t.returned i).length).iters = [iter] ∧
    (alone content (t.returned i).length).state ≠ .afterComma ∧
    t.returned i = (alone content (t.returned i).length).returned 0

theorem Apart.start : Apart [] {} :=
  ⟨by decide, rfl, fun _ _ => rfl, fun _ _ h => by simp at h⟩

theorem Apart.new {texts : List Bytes} {t : IterThread} (h : Apart texts t) {content : Bytes}
    (hc : steady content = true) : Apart (texts ++ [content]) (t.step (.new content)) := by
  have hiters : (t.step (.new content)).iters = t.iters ++ [{ lexer := csv_lexer_init content }] := rfl
  have hreturned : ∀ i, (t.step (.new content)).returned i = t.returned i := fun _ => rfl
  have hreset : csv_lexer_reset_state ≠ .afterComma := by decide
  refine ⟨hreset, ?_, ?_, ?_⟩
  · rw [hiters, List.length_append, List.length_append, h.count]
    rfl
  · intro i hi
    rw [List.length_append] at hi
    exact h.fresh i (by omega)
  · intro i content' hi
    rw [hreturned, hiters]
    by_cases hlt : i < texts.length
    · rw [List.getElem?_append_left hlt] at hi
      obtain ⟨iter, h₁, h₂⟩ := h.same i content' hi
      exact ⟨iter, by rwa [List.getElem?_append_left (by rw [h.count]; exact hlt)], h₂⟩
    · have hi' : i = texts.length := by
        have := (List.getElem?_eq_some_iff.mp hi).1
        rw [List.length_append, List.length_singleton] at this
        omega
      rw [hi', List.getElem?_concat_length] at hi
      cases hi
      rw [h.fresh i (by omega)]
      exact ⟨{ lexer := csv_lexer_init content },
        by rw [hi', ← h.count, List.getElem?_concat_length], rfl, hc, rfl, hreset, rfl⟩

theorem Apart.next {texts : List Bytes} {t : IterThread} (h : Apart texts t) (i : ℕ) :
    Apart texts (t.step (.next i)) := by
  cases hi : t.iters[i]? with
  | none =>
    have hstep : t.step (.next i) = t := by simp [IterThread.step, hi]
    rwa [hstep]
  | some iter =>
    have hlt : i < texts.length := by
      rw [← h.count]
      exact (List.getElem?_eq_some_iff.mp hi).1
    have hiters : (t.step (.next i)).iters = t.iters.set i (csv_iter_next iter t.state).2.1 := by
      simp [IterThread.step, hi]
    have hstate : (t.step (.next i)).state = (csv_iter_next iter t.state).2.2 := by
      simp [IterThread.step, hi]
    obtain ⟨iter', h₁, h₂, h₃, h₄, h₅, h₆⟩ := h.same i _ (List.getElem?_eq_getElem hlt)
    rw [hi] at h₁
    cases h₁
    obtain ⟨h₇, h₈, h₉, h₁₀, h₁₁⟩ := iter_next_steady h₂ h₃ h.state h₅
    refine ⟨by rwa [hstate], by rw [hiters, List.length_set, h.count], ?_, ?_⟩
    · intro j hj
      rw [returned_next hi, h.fresh j hj, if_neg (by omega)]
      rfl
    · intro j content hj
      rw [returned_next hi, hiters]
      by_cases hij : i = j
      · subst hij
        rw [if_pos rfl, List.length_append, List.length_singleton, alone_succ,
          List.getElem?_set_self (by rwa [h.count])]
        rw [List.getElem?_eq_getElem hlt] at hj
        cases hj
        have hone : (alone (texts[i]) (t.returned i).length).iters[0]? = some iter := by
          rw [h₄]
          rfl
        refine ⟨_, rfl, h₁₀, h₁₁, ?_, ?_, ?_⟩
        · simp only [IterThread.step, h₄]
          rw [h₈]
          rfl
        · simp only [IterThread.step, hone]
          exact (iter_next_steady h₂ h₃ h₅ h.state).2.2.1
        · rw [returned_next hone, if_pos rfl, ← h₆, h₇, h₈]
      · rw [if_neg hij, List.append_nil, List.getElem?_set_ne hij]
        exact h.same j content hj

theorem Apart.run {ops : List IterOp} : ∀ {texts : List Bytes} {t : IterThread}, Apart texts t →
    (∀ content ∈ IterOp.texts ops, steady content = true) →
    Apart (texts ++ IterOp.texts ops) (t.run ops) := by
  induction ops with
  | nil =>
    intro texts t h _
    rwa [IterOp.texts, List.append_nil]
  | cons op ops ih =>
    intro texts t h hs
    cases op with
    | new content =>
      have h' := ih (h.new (hs content (by simp [IterOp.texts])))
        fun c hc => hs c (by simp [IterOp.texts, hc])
      rw [List.append_assoc] at h'
      exact h'
    | next i => exact ih (h.next i) hs

/-- Whatever the order in which a thread makes and calls iterators of the default format, each of
them returns what it returns alone on the thread, if in none of their texts a comma between two
fields is directly followed by a NUL or by a quote that is never closed. -/
theorem iterators_independent (ops : List IterOp)
    (hs : ∀ content ∈ IterOp.texts ops, steady content = true) (i : ℕ) (content : Bytes)
    (hi : (IterOp.texts ops)[i]? = some content) :
    (({} : IterThread).run ops).returned i =
      (alone content ((({} : IterThread).run ops).returned i).length).returned 0 := by
  have h := Apart.start.run hs
  obtain ⟨iter, -, -, -, -, -, h⟩ := h.same i content hi
  exact h

/-- Two iterators in turn, one of them over `,a` and a quote that is never closed. -/
theorem iterators_independent_in_turn :
    (({} : IterThread).run
        [.new [44, 97, 10, 34, 98], .new [10, 99], .next 0, .next 1, .next 0, .next 1]).returned 1 =
      [⟨true, [[99]], 0⟩, ⟨false, [], 0⟩] := by
  rw [iterators_independent _ (by
    simp [IterOp.texts, steady, steadyFrom, matchQuoted, comma, nul, doubleQuote]) 1 [10, 99] rfl]
  decide +kernel

/-- An iterator over `a,"b` stops behind its comma, and one over an empty line and `x` then returns
a row that is not there. -/
theorem iterators_dependent :
    (({} : IterThread).run
        [.new [97, 44, 34, 98], .new [10, 120], .next 0, .next 1]).returned 1 = [⟨true, [[]], 0⟩] ∧
      (alone [10, 120] 1).returned 0 = [⟨true, [[120]], 0⟩] := by
  decide +kernel

end SaltsUtils.Csv
