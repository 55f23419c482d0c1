import Mathlib.Data.List.DropRight
import SaltsUtils.Json.SaxScan

/-!
# The incremental parser does not see the cuts

A scanner that has an answer before the text has ended has the same answer with more
text behind, but for a literal at the very end: it is taken without the character
behind it. Such a character that may not stand there fails in the next state.
-/

set_option autoImplicit false

namespace SaltsUtils.Json

def Scan.push (more : Bytes) : Scan → Scan
  | .need_more => .need_more
  | .error => .error
  | .found token rest => .found token (rest ++ more)

/-- An answer before the end is the answer at the end. -/
def Extends (scan : Bool → Bytes → Bytes → Scan) : Prop :=
  ∀ lexeme text more, scan false lexeme text ≠ .need_more →
    scan true lexeme (text ++ more) = (scan false lexeme text).push more

variable {text : Bytes}

theorem dropWhile_push {p : ℕ → Bool} (h : text.dropWhile p ≠ []) (more : Bytes) :
    (text ++ more).takeWhile p = text.takeWhile p ∧
      (text ++ more).dropWhile p = text.dropWhile p ++ more := by
  induction text with
  | nil => exact absurd rfl h
  | cons ch text ih =>
    rw [List.cons_append, List.takeWhile_cons, List.takeWhile_cons, List.dropWhile_cons,
      List.dropWhile_cons]
    split
    · next hch =>
      rw [List.dropWhile_cons, if_pos hch] at h
      obtain ⟨ht, hd⟩ := ih h
      exact ⟨by rw [ht], hd⟩
    · exact ⟨rfl, rfl⟩

namespace Extends
variable {scan f g : Bool → Bytes → Bytes → Scan}

theorem error : Extends (fun _ _ _ => .error) := fun _ _ _ _ => rfl

theorem digits (hs : Extends scan) (hend : ∀ lexeme, scan false lexeme [] = .need_more) :
    Extends (fun final lexeme text =>
      scan final (lexeme ++ text.takeWhile is_digit) (text.dropWhile is_digit)) := by
  intro lexeme text more h
  have hne : text.dropWhile is_digit ≠ [] := by
    intro hnil
    simp only [hnil] at h
    exact h (hend _)
  obtain ⟨ht, hd⟩ := dropWhile_push hne more
  simp only [ht, hd]
  exact hs _ _ _ h

theorem branch {c : ℕ → Prop} [DecidablePred c] (hf : Extends f) (hg : Extends g)
    (hnil : ∀ lexeme, scan false lexeme [] = .need_more)
    (hcons : ∀ final lexeme ch rest, scan final lexeme (ch :: rest) =
      if c ch then f final (lexeme ++ [ch]) rest else g final lexeme (ch :: rest)) :
    Extends scan := by
  intro lexeme text more h
  cases text with
  | nil => exact absurd (hnil lexeme) h
  | cons ch rest =>
    rw [hcons] at h
    rw [List.cons_append, hcons, hcons]
    by_cases hch : c ch
    · rw [if_pos hch] at h
      rw [if_pos hch, if_pos hch]
      exact hf _ _ _ h
    · rw [if_neg hch] at h
      rw [if_neg hch, if_neg hch]
      exact hg _ (ch :: rest) _ h

end Extends

theorem terminator_extends : Extends scan_terminator := by
  intro lexeme text more h
  cases text with
  | nil => exact absurd rfl h
  | cons ch rest =>
    rw [List.cons_append, scan_terminator, scan_terminator]
    split <;> rfl

theorem exp_digits_extends : Extends scan_exp_digits := by
  refine .branch (c := fun ch => is_digit ch = true) (terminator_extends.digits (fun _ => rfl))
    .error (fun _ => rfl) (fun final lexeme ch rest => ?_)
  rw [scan_exp_digits, List.append_assoc, List.singleton_append]

theorem exp_sign_extends : Extends scan_exp_sign :=
  .branch (c := fun ch => ch = 43 ∨ ch = 45) exp_digits_extends exp_digits_extends (fun _ => rfl)
    (fun _ _ _ _ => rfl)

theorem exp_extends : Extends scan_exp :=
  .branch (c := fun ch => ch = 101 ∨ ch = 69) exp_sign_extends terminator_extends (fun _ => rfl)
    (fun _ _ _ _ => rfl)

theorem frac_digits_extends : Extends scan_frac_digits := by
  refine .branch (c := fun ch => is_digit ch = true) (exp_extends.digits (fun _ => rfl))
    .error (fun _ => rfl) (fun final lexeme ch rest => ?_)
  rw [scan_frac_digits, List.append_assoc, List.singleton_append]

theorem frac_extends : Extends scan_frac :=
  .branch (c := fun ch => ch = 46) frac_digits_extends exp_extends (fun _ => rfl)
    (fun _ _ _ _ => rfl)

theorem zero_extends : Extends scan_zero :=
  .branch (c := fun ch => is_digit ch = true) .error frac_extends (fun _ => rfl)
    (fun _ _ _ _ => rfl)

/-- A number that does not start with a zero. -/
def scan_nonzero (final : Bool) (lexeme : Bytes) : Bytes → Scan
  | [] => stop final
  | ch :: rest =>
    if is_digit ch then
      scan_frac final (lexeme ++ ch :: rest.takeWhile is_digit) (rest.dropWhile is_digit)
    else .error

theorem nonzero_extends : Extends scan_nonzero := by
  refine .branch (c := fun ch => is_digit ch = true) (frac_extends.digits (fun _ => rfl))
    .error (fun _ => rfl) (fun final lexeme ch rest => ?_)
  rw [scan_nonzero, List.append_assoc, List.singleton_append]

theorem int_extends : Extends scan_int :=
  .branch (c := fun ch => ch = 48) zero_extends nonzero_extends (fun _ => rfl) (fun _ _ _ _ => rfl)

theorem number_extends (more : Bytes) (h : json_sax_scan_number false text ≠ .need_more) :
    json_sax_scan_number true (text ++ more) = (json_sax_scan_number false text).push more := by
  cases text with
  | nil => exact absurd rfl h
  | cons ch rest =>
    rw [List.cons_append, json_sax_scan_number]
    rw [json_sax_scan_number] at h ⊢
    split at h
    · next hch =>
      rw [if_pos hch, if_pos hch]
      exact int_extends _ _ _ h
    · next hch =>
      rw [if_neg hch, if_neg hch]
      exact int_extends _ (ch :: rest) _ h

theorem string_extends : Extends json_sax_scan_string := by
  intro value text more h
  fun_induction json_sax_scan_string false value text with
  | case1 => exact absurd rfl h
  | case2 value rest =>
    rw [json_sax_scan_string.eq_def]
    rfl
  | case3 => exact absurd rfl h
  | case4 value letter rest hletter _ ih =>
    rw [← ih h, json_sax_scan_string.eq_def]
    simp [hletter]
  | case5 value a b c d rest hhex hne hletter ih =>
    rw [← ih h, json_sax_scan_string.eq_def]
    simp [hletter, hhex]
  | case6 value a b c d rest hhex hne hletter =>
    rw [json_sax_scan_string.eq_def]
    simp [hletter, hhex, Scan.push]
  | case7 => exact absurd rfl h
  | case8 value letter rest hu hletter _ =>
    rw [json_sax_scan_string.eq_def]
    simp [hletter, hu, Scan.push]
  | case9 value ch rest h34 h92 hlt =>
    rw [json_sax_scan_string.eq_def]
    simp [h34, h92, hlt, Scan.push]
  | case10 value ch rest h34 h92 hlt ih =>
    rw [← ih h, json_sax_scan_string.eq_def]
    simp [h34, h92, hlt]

/-- How a scan before the end and one at the end may differ: a literal that ended the
buffer turns out to have a wrong character behind it. -/
inductive Later (more : Bytes) (before after : Scan) : Prop where
  | waits (h : before = .need_more)
  | same (h : after = before.push more)
  | cut (token : Token) (hb : before = .found token []) (ht : token = .true ∨ token = .false ∨
      token = .null) (hm : terminated more = false) (ha : after = .error)

variable {token : Token}

theorem literal_later {word : Bytes} (text more : Bytes)
    (ht : token = .true ∨ token = .false ∨ token = .null) :
    Later more (json_sax_scan_literal false word token text)
      (json_sax_scan_literal true word token (text ++ more)) := by
  unfold json_sax_scan_literal
  by_cases hlen : text.length < word.length
  · rw [if_pos hlen, Nat.min_eq_left (Nat.le_of_lt hlen)]
    by_cases htake : text.take text.length ≠ word.take text.length
    · rw [if_pos htake, if_pos]
      · exact .same rfl
      · intro he
        refine htake ?_
        have := congrArg (List.take text.length) he
        rw [List.take_take, List.take_take, Nat.min_eq_left (by simp; omega),
          List.take_append_of_le_length (Nat.le_refl _)] at this
        exact this
    · rw [if_neg htake]
      exact .waits rfl
  · rw [if_neg hlen, Nat.min_eq_right (by omega)]
    have hlen' : ¬ (text ++ more).length < word.length := by
      rw [List.length_append]
      omega
    rw [if_neg hlen', Nat.min_eq_right (by omega), List.take_append_of_le_length (by omega),
      List.drop_append_of_le_length (by omega)]
    by_cases htake : text.take word.length ≠ word.take word.length
    · rw [if_pos htake, if_pos htake]
      exact .same rfl
    · rw [if_neg htake, if_neg htake]
      cases hrest : text.drop word.length with
      | cons ch rest =>
        rw [List.cons_append]
        have he : terminated (ch :: (rest ++ more)) = terminated (ch :: rest) := rfl
        rw [he]
        split
        · exact .same rfl
        · exact .same rfl
      | nil =>
        rw [if_pos (by rfl), List.nil_append]
        cases hm : terminated more with
        | true =>
          rw [if_pos rfl]
          exact .same rfl
        | false =>
          rw [if_neg Bool.false_ne_true]
          exact .cut token rfl ht hm rfl

theorem Later.of_extends {more : Bytes} {before after : Scan}
    (h : before ≠ .need_more → after = before.push more) : Later more before after := by
  by_cases hb : before = .need_more
  · exact .waits hb
  · exact .same (h hb)

theorem sax_match_later (hne : text ≠ []) (more : Bytes) :
    Later more (sax_match false text) (sax_match true (text ++ more)) := by
  cases text with
  | nil => exact absurd rfl hne
  | cons ch rest =>
    rw [List.cons_append, sax_match, sax_match]
    cases structural_token ch with
    | some token => exact .same rfl
    | none =>
      cases hw : literal_word ch with
      | some entry => exact literal_later (ch :: rest) more (literal_word_token hw)
      | none =>
        simp only
        split
        · exact .of_extends (string_extends [] rest more)
        · split
          · exact .of_extends (fun hm => number_extends more hm)
          · exact .same rfl

theorem next_token_later (text more : Bytes) :
    Later more (json_sax_next_token false text) (json_sax_next_token true (text ++ more)) := by
  unfold json_sax_next_token
  by_cases hne : text.dropWhile whitespace = []
  · rw [hne]
    exact .waits rfl
  · rw [(dropWhile_push hne more).2]
    exact sax_match_later hne more

theorem next_shorter {final : Bool} {rest : Bytes}
    (h : json_sax_next_token final text = .found token rest) : rest.length < text.length := by
  cases final with
  | true => exact next_token_shorter h
  | false =>
    have hl := next_token_later text []
    rw [h, List.append_nil] at hl
    cases hl with
    | waits hw => cases hw
    | same hs =>
      rw [Scan.push, List.append_nil] at hs
      exact next_token_shorter hs
    | cut token hb ht hm ha => cases hm

variable {p : SaxParser}

theorem loop_enough {final : Bool} {buffer : Bytes} {f g : ℕ} (hf : buffer.length < f)
    (hg : buffer.length < g) : sax_loop final f p buffer = sax_loop final g p buffer := by
  induction f generalizing g p buffer with
  | zero => omega
  | succ f ih =>
    obtain ⟨g, rfl⟩ : ∃ k, g = k + 1 := ⟨g - 1, by omega⟩
    rw [sax_loop, sax_loop]
    cases ht : json_sax_next_token final buffer with
    | error => rfl
    | need_more => rfl
    | found token rest =>
      have hlt := next_shorter ht
      simp only
      cases p.process_token sax_max_depth token with
      | none => rfl
      | some p' => exact ih (by omega) (by omega)

/-- The events of all the text that is left. -/
def whole (p : SaxParser) (text : Bytes) : Option (List Event) := json_sax_parser_finish (p, text)

def SaxParser.result (p : SaxParser) : Option (List Event) := if p.done then some p.events else none

theorem whole_next (p : SaxParser) (text : Bytes) :
    whole p text =
      match json_sax_next_token true text with
      | .error => none
      | .need_more => p.result
      | .found token rest =>
        match p.process_token sax_max_depth token with
        | none => none
        | some p => whole p rest := by
  unfold whole json_sax_parser_finish json_sax_parser_run
  rw [sax_loop]
  cases ht : json_sax_next_token true text with
  | error => rfl
  | need_more => rfl
  | found token rest =>
    simp only
    cases p.process_token sax_max_depth token with
    | none => rfl
    | some p' =>
      simp only
      rw [loop_enough (next_shorter ht) (Nat.lt_succ_self _)]

theorem whole_skip (p : SaxParser) (text more : Bytes) :
    whole p (text ++ more) = whole p (text.dropWhile whitespace ++ more) := by
  have h : json_sax_next_token true (text ++ more) =
      json_sax_next_token true (text.dropWhile whitespace ++ more) := by
    unfold json_sax_next_token
    rw [List.dropWhile_append, List.dropWhile_append,
      List.dropWhile_idempotent whitespace text]
  rw [whole_next, whole_next p (text.dropWhile whitespace ++ more), h]

/-! A literal is taken before the character behind it is seen; a wrong one ends the
parse one step later. -/

namespace SaxParser

/-- Only a comma or the end of a container may come. -/
def Waiting (p : SaxParser) : Prop :=
  p.done = true ∨ p.state = .object_comma ∨ p.state = .array_comma

theorem mark_value_complete_waiting (p : SaxParser) : p.mark_value_complete.Waiting := by
  unfold mark_value_complete
  split
  · exact Or.inr (Or.inl rfl)
  · exact Or.inr (Or.inr rfl)
  · exact Or.inl rfl

theorem literal_waiting {p' : SaxParser} (ht : token = .true ∨ token = .false ∨ token = .null)
    (h : p.process_token sax_max_depth token = some p') : p'.Waiting := by
  have hv : ∀ p'', p.value_token sax_max_depth token = some p'' → p''.Waiting := by
    intro p'' hp
    obtain rfl | rfl | rfl := ht
    all_goals
      cases hp
      exact mark_value_complete_waiting _
  unfold process_token at h
  split at h
  · cases h
  · split at h
    · exact hv p' h
    · exact hv p' h
    · exact hv p' h
    all_goals
      obtain rfl | rfl | rfl := ht <;> cases h

theorem waiting_takes {p' : SaxParser} (hw : p.Waiting)
    (h : p.process_token sax_max_depth token = some p') :
    token = .comma ∨ token = .rbrace ∨ token = .rbracket := by
  unfold process_token at h
  split at h
  · cases h
  · next hd =>
    obtain hw | hw | hw := hw
    · exact absurd hw hd
    · rw [hw] at h
      simp only at h
      split at h
      · exact Or.inl rfl
      · exact Or.inr (Or.inl rfl)
      · cases h
    · rw [hw] at h
      simp only at h
      split at h
      · exact Or.inl rfl
      · exact Or.inr (Or.inr rfl)
      · cases h

end SaxParser

theorem lexer_match_delim {ch : ℕ} {rest rest' : Bytes}
    (h : lexer_match (ch :: rest) = some (token, rest'))
    (ht : token = .comma ∨ token = .rbrace ∨ token = .rbracket) : json_sax_is_delim ch = true := by
  rw [lexer_match] at h
  split at h
  · next t hs =>
    cases h
    unfold structural_token at hs
    repeat' split at hs
    all_goals cases hs
    all_goals first
      | (next he => subst he; rfl)
      | simp at ht
  · split at h
    · next hw =>
      unfold strip_word at h
      split at h
      · cases h
        obtain rfl | rfl | rfl := literal_word_token hw <;> simp at ht
      · cases h
    · split at h
      all_goals
        obtain ⟨r, -, he⟩ := Option.map_eq_some_iff.mp h
        cases he
        simp at ht

theorem waiting_dead (hw : p.Waiting) (ht : terminated text = false) : whole p text = none := by
  cases text with
  | nil => cases ht
  | cons ch rest =>
    have hch : json_sax_is_delim ch = false := ht
    have hspace : whitespace ch = false := by
      unfold json_sax_is_delim at hch
      simp only [Bool.or_eq_false_iff] at hch
      exact hch.1.1.1
    have hdrop : (ch :: rest).dropWhile whitespace = ch :: rest := by
      rw [List.dropWhile_cons, hspace]
      rfl
    have hnext : json_sax_next_token true (ch :: rest) = delimited (lexer_match (ch :: rest)) := by
      rw [json_sax_next_token, hdrop, sax_match_final]
    rw [whole_next, hnext]
    cases hd : delimited (lexer_match (ch :: rest)) with
    | error => rfl
    | need_more =>
      cases hm : lexer_match (ch :: rest) with
      | none =>
        rw [hm] at hd
        cases hd
      | some found =>
        rw [hm, delimited] at hd
        split at hd <;> cases hd
    | found token rest' =>
      simp only
      cases hp : p.process_token sax_max_depth token with
      | none => rfl
      | some p' =>
        have hdelim := lexer_match_delim (delimited_found hd).1 (p.waiting_takes hw hp)
        rw [hch] at hdelim
        cases hdelim

/-- What is left to do after a run over the text so far. -/
def resume (more : Bytes) : Option (SaxParser × Bytes) → Option (List Event)
  | none => none
  | some (p, rest) => whole p (rest ++ more)

theorem loop_resume {fuel : ℕ} (more : Bytes) (hf : text.length < fuel) :
    whole p (text ++ more) = resume more (sax_loop false fuel p text) := by
  induction fuel generalizing p text with
  | zero => omega
  | succ fuel ih =>
    rw [sax_loop]
    have hl := next_token_later text more
    cases ht : json_sax_next_token false text with
    | need_more => exact whole_skip p text more
    | error =>
      rw [ht] at hl
      cases hl with
      | waits hw => cases hw
      | cut token hb => cases hb
      | same hs =>
        rw [whole_next, hs]
        rfl
    | found token rest =>
      rw [ht] at hl
      have hlt := next_shorter ht
      rw [whole_next]
      cases hl with
      | waits hw => cases hw
      | same hs =>
        rw [hs]
        simp only [Scan.push]
        cases p.process_token sax_max_depth token with
        | none => rfl
        | some p' => exact ih (by omega)
      | cut token' hb hlit hm ha =>
        cases hb
        rw [ha]
        simp only
        cases hp : p.process_token sax_max_depth token with
        | none => rfl
        | some p' =>
          simp only
          rw [← ih (by omega), List.nil_append]
          exact (waiting_dead (SaxParser.literal_waiting hlit hp) hm).symm

theorem feed_resume (parser : SaxParser × Bytes) (data more : Bytes) :
    whole parser.1 (parser.2 ++ data ++ more) = resume more (json_sax_parser_feed parser data) := by
  unfold json_sax_parser_feed
  split
  · next hd =>
    rw [hd, List.append_nil]
    rfl
  · exact loop_resume more (Nat.lt_succ_self _)

theorem feeds_whole (parser : SaxParser × Bytes) (pieces : List Bytes) :
    (pieces.foldlM json_sax_parser_feed parser).bind json_sax_parser_finish =
      whole parser.1 (parser.2 ++ pieces.flatten) := by
  induction pieces generalizing parser with
  | nil =>
    rw [List.flatten_nil, List.append_nil]
    rfl
  | cons data pieces ih =>
    rw [List.foldlM_cons, List.flatten_cons, ← List.append_assoc, feed_resume]
    cases hf : json_sax_parser_feed parser data with
    | none => rfl
    | some parser' => exact ih parser'

theorem sax_parse_whole (pieces : List Bytes) :
    sax_parse pieces = whole SaxParser.start pieces.flatten :=
  feeds_whole (SaxParser.start, []) pieces

/-- However a text is cut, the parser reports the same events, or fails. -/
theorem sax_parse_cuts (pieces pieces' : List Bytes) (h : pieces.flatten = pieces'.flatten) :
    sax_parse pieces = sax_parse pieces' := by
  rw [sax_parse_whole, sax_parse_whole, h]

/-- `[tr`, `ue]` and `[`, `true`, nothing, `]`. -/
theorem sax_parse_cuts_literal :
    sax_parse [[91, 116, 114], [117, 101, 93]] = sax_parse [[91], [116, 114, 117, 101], [], [93]] ∧
      sax_parse [[91, 116, 114], [117, 101, 93]] =
        some [.array_start, .bool true, .array_end] :=
  ⟨sax_parse_cuts _ _ rfl, by decide +kernel⟩

end SaltsUtils.Json
