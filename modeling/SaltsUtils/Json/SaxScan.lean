import SaltsUtils.Json.Sax

/-!
# The scanners at the end of the input

When no more text will come, the scanners of the incremental parser find the tokens of
the lexer, and ask of a number and of a literal that a delimiter stands behind it.
-/

set_option autoImplicit false

namespace SaltsUtils.Json

/-- A number whose end may be followed by the text behind it. -/
def closed (lexeme : Bytes) (r : Bytes × Bytes) : Scan :=
  if terminated r.2 then .found (.number (lexeme ++ r.1)) r.2 else .error

def settled (lexeme : Bytes) : Option (Bytes × Bytes) → Scan
  | none => .error
  | some r => closed lexeme r

theorem closed_extend (lexeme taken : Bytes) (r : Bytes × Bytes) :
    closed (lexeme ++ taken) r = closed lexeme (extend taken r) := by
  unfold closed extend
  rw [List.append_assoc]

theorem settled_extend (lexeme taken : Bytes) (o : Option (Bytes × Bytes)) :
    settled (lexeme ++ taken) o = settled lexeme (o.map (extend taken)) := by
  cases o with
  | none => rfl
  | some r => exact closed_extend lexeme taken r

variable {ch : ℕ}

theorem closed_error (h : json_sax_is_delim ch = false) (lexeme taken rest : Bytes) :
    closed lexeme (taken, ch :: rest) = .error := by
  have ht : terminated (ch :: rest) = false := h
  rw [closed, ht]
  rfl

theorem terminator_final (lexeme text : Bytes) :
    scan_terminator true lexeme text = closed lexeme ([], text) := by
  unfold closed
  rw [List.append_nil]
  cases text with
  | nil => rfl
  | cons ch rest => rfl

theorem exp_digits_final (lexeme text : Bytes) :
    scan_exp_digits true lexeme text = settled lexeme (digits text) := by
  cases text with
  | nil => rfl
  | cons ch rest =>
    rw [scan_exp_digits, digits]
    split
    · rw [terminator_final, closed_extend, settled, extend, List.append_nil]
    · rfl

theorem exp_sign_final (lexeme text : Bytes) :
    scan_exp_sign true lexeme text = settled lexeme (signed_digits text) := by
  cases text with
  | nil => rfl
  | cons ch rest =>
    rw [scan_exp_sign, signed_digits]
    split
    · rw [exp_digits_final, settled_extend]
    · exact exp_digits_final _ _

theorem delim_not_exp (h : ch = 101 ∨ ch = 69) : json_sax_is_delim ch = false := by
  obtain rfl | rfl := h <;> rfl

theorem exp_final (lexeme text : Bytes) :
    scan_exp true lexeme text = closed lexeme (optional exp text) := by
  cases text with
  | nil => exact terminator_final lexeme []
  | cons ch rest =>
    unfold optional
    rw [scan_exp, exp]
    split
    · next hch =>
      rw [exp_sign_final, settled_extend]
      cases (signed_digits rest).map (extend [ch]) with
      | none => exact (closed_error (delim_not_exp hch) lexeme [] rest).symm
      | some r => rfl
    · exact terminator_final _ _

/-- What may follow the integer of a number. -/
def frac_exp (text : Bytes) : Bytes × Bytes :=
  extend (optional frac text).1 (optional exp (optional frac text).2)

theorem frac_digits_final (lexeme text : Bytes) :
    scan_frac_digits true lexeme text =
      settled lexeme ((digits text).map fun r => extend r.1 (optional exp r.2)) := by
  cases text with
  | nil => rfl
  | cons ch rest =>
    rw [scan_frac_digits, digits]
    split
    · rw [exp_final, closed_extend]
      rfl
    · rfl

theorem frac_final (lexeme text : Bytes) :
    scan_frac true lexeme text = closed lexeme (frac_exp text) := by
  cases text with
  | nil => exact terminator_final lexeme []
  | cons ch rest =>
    unfold frac_exp optional
    rw [scan_frac, frac]
    split
    · next hch =>
      rw [frac_digits_final, settled_extend]
      cases digits rest with
      | none =>
        subst hch
        exact (closed_error rfl lexeme [] rest).symm
      | some r =>
        simp only [Option.map_some, settled, Option.getD_some, extend, optional,
          List.cons_append, List.nil_append]
    · rw [exp_final]
      rfl

theorem delim_not_digit (h : is_digit ch = true) :
    json_sax_is_delim ch = false ∧ ch ≠ 46 ∧ ¬ (ch = 101 ∨ ch = 69) := by
  unfold is_digit at h
  simp only [Bool.and_eq_true, decide_eq_true_eq] at h
  unfold json_sax_is_delim whitespace
  simp only [Bool.or_eq_false_iff, beq_eq_false_iff_ne]
  omega

theorem zero_final (lexeme text : Bytes) :
    scan_zero true lexeme text = closed lexeme (frac_exp text) := by
  cases text with
  | nil => exact terminator_final lexeme []
  | cons ch rest =>
    rw [scan_zero]
    split
    · next hd =>
      obtain ⟨hc, hf, he⟩ := delim_not_digit hd
      have hr : frac_exp (ch :: rest) = ([], ch :: rest) := by
        simp only [frac_exp, optional, frac, exp, if_neg hf, if_neg he, Option.getD_none, extend,
          List.append_nil]
      rw [hr]
      exact (closed_error hc lexeme [] rest).symm
    · exact frac_final _ _

theorem int_final (lexeme text : Bytes) :
    scan_int true lexeme text =
      settled lexeme ((unsigned_int text).map fun r => extend r.1 (frac_exp r.2)) := by
  cases text with
  | nil => rfl
  | cons ch rest =>
    rw [scan_int, unsigned_int]
    split
    · rw [zero_final, closed_extend]
      rfl
    · rw [digits]
      split
      · rw [frac_final, closed_extend]
        rfl
      · rfl

theorem number_parts (text : Bytes) :
    number text = (int_part text).map fun r => extend r.1 (frac_exp r.2) := by
  unfold number frac_exp extend
  cases int_part text with
  | none => rfl
  | some r =>
    simp only [Option.map_some]
    rw [List.append_assoc]

theorem number_final (text : Bytes) :
    json_sax_scan_number true text = settled [] (number text) := by
  rw [number_parts]
  cases text with
  | nil => rfl
  | cons ch rest =>
    rw [json_sax_scan_number, int_part]
    split
    · rw [int_final]
      cases unsigned_int rest with
      | none => rfl
      | some r =>
        simp only [Option.map_some, settled]
        exact closed_extend [] [ch] _
    · exact int_final [] _

theorem string_final (value text : Bytes) :
    json_sax_scan_string true value text =
      match string_tail text with
      | none => .error
      | some r => .found (.string (value ++ r.1)) r.2 := by
  fun_induction json_sax_scan_string true value text with
  | case1 => rfl
  | case2 value rest =>
    rw [string_tail.eq_def]
    simp
  | case3 => rfl
  | case4 value letter rest hletter _ ih =>
    rw [ih, string_tail.eq_def (92 :: letter :: rest)]
    simp only [hletter, if_true]
    cases string_tail rest <;> simp [extend]
  | case5 value a b c d rest hhex hne hletter ih =>
    rw [ih, string_tail.eq_def (92 :: 117 :: a :: b :: c :: d :: rest)]
    simp only [hletter, hhex, if_true]
    cases string_tail rest <;> simp [extend]
  | case6 value a b c d rest hhex hne hletter =>
    rw [string_tail.eq_def]
    simp [hletter, hhex]
  | case7 value rest hne hletter hshort =>
    rw [string_tail.eq_def]
    simp [hshort, stop]
  | case8 value letter rest hu hletter _ =>
    rw [string_tail.eq_def]
    simp [hletter, hu]
  | case9 value ch rest h34 h92 hlt =>
    rw [string_tail.eq_def]
    simp [h34, h92, hlt]
  | case10 value ch rest h34 h92 hlt ih =>
    rw [ih, string_tail.eq_def (ch :: rest)]
    simp only [h34, h92, hlt, if_false]
    cases string_tail rest <;> simp [extend]

/-- A token that the next character could still belong to. -/
def open_ended : Token → Bool
  | .number _ => true
  | .true => true
  | .false => true
  | .null => true
  | _ => false

/-- A token of the lexer as the scanner takes it. -/
def delimited : Option (Token × Bytes) → Scan
  | none => .error
  | some (token, rest) =>
    if open_ended token && !terminated rest then .error else .found token rest

variable {token : Token}

theorem literal_word_token {word : Bytes} (h : literal_word ch = some (word, token)) :
    token = .true ∨ token = .false ∨ token = .null := by
  unfold literal_word at h
  split at h
  · cases h
    exact Or.inl rfl
  · split at h
    · cases h
      exact Or.inr (Or.inl rfl)
    · split at h
      · cases h
        exact Or.inr (Or.inr rfl)
      · cases h

theorem literal_final {word : Bytes} (h : literal_word ch = some (word, token)) (text : Bytes) :
    json_sax_scan_literal true word token text = delimited (strip_word word token text) := by
  have hopen : open_ended token = true := by
    obtain rfl | rfl | rfl := literal_word_token h <;> rfl
  unfold json_sax_scan_literal strip_word
  by_cases hlen : text.length < word.length
  · have hne : text.take word.length ≠ word := by
      intro he
      have := congrArg List.length he
      rw [List.length_take] at this
      omega
    rw [if_pos hlen, if_neg hne]
    split <;> rfl
  · rw [if_neg hlen, Nat.min_eq_right (by omega), List.take_length]
    by_cases he : text.take word.length = word
    · rw [if_neg (not_not.mpr he), if_pos he, delimited, hopen]
      cases terminated (text.drop word.length) <;> rfl
    · rw [if_pos he, if_neg he]
      rfl

theorem structural_token_closed (h : structural_token ch = some token) :
    open_ended token = false := by
  unfold structural_token at h
  repeat' split at h
  all_goals cases h
  all_goals rfl

theorem number_start (h : ¬ (ch = 45 ∨ is_digit ch = true)) (rest : Bytes) :
    number (ch :: rest) = none := by
  have h48 : ch ≠ 48 := by
    rintro rfl
    exact h (Or.inr rfl)
  rw [number, int_part, if_neg (fun he => h (Or.inl he)), unsigned_int, if_neg h48, digits,
    if_neg (fun hd => h (Or.inr hd))]
  rfl

theorem sax_match_final (ch : ℕ) (rest : Bytes) :
    sax_match true (ch :: rest) = delimited (lexer_match (ch :: rest)) := by
  rw [sax_match, lexer_match]
  cases hs : structural_token ch with
  | some token =>
    simp only [delimited, structural_token_closed hs]
    rfl
  | none =>
    cases hw : literal_word ch with
    | some entry => exact literal_final hw (ch :: rest)
    | none =>
      simp only
      split
      · rw [string_final, string_match_eq]
        cases string_tail rest <;> rfl
      · have hn : settled [] (number (ch :: rest)) =
            delimited ((number (ch :: rest)).map fun r => (.number r.1, r.2)) := by
          cases number (ch :: rest) with
          | none => rfl
          | some r =>
            simp only [settled, closed, Option.map_some, delimited, open_ended]
            cases terminated r.2 <;> rfl
        split
        · rw [number_final, hn]
        · next hstart =>
          rw [number_start hstart]
          rfl

theorem next_token_final (text : Bytes) :
    json_sax_next_token true text =
      match json_lexer_next text with
      | none => .error
      | some none => .need_more
      | some (some found) => delimited (some found) := by
  unfold json_sax_next_token json_lexer_next
  cases text.dropWhile whitespace with
  | nil => rfl
  | cons ch rest =>
    simp only
    rw [sax_match_final]
    cases lexer_match (ch :: rest) <;> rfl

theorem delimited_found {o : Option (Token × Bytes)} {rest : Bytes}
    (h : delimited o = .found token rest) :
    o = some (token, rest) ∧ (open_ended token = true → terminated rest = true) := by
  cases o with
  | none => cases h
  | some r =>
    obtain ⟨t, tail⟩ := r
    rw [delimited] at h
    split at h
    · cases h
    · next hno =>
      cases h
      refine ⟨rfl, fun ho => ?_⟩
      rw [ho, Bool.true_and, Bool.not_eq_true, Bool.not_eq_false'] at hno
      exact hno

theorem next_token_shorter {text rest : Bytes}
    (h : json_sax_next_token true text = .found token rest) : rest.length < text.length := by
  rw [next_token_final] at h
  cases hn : json_lexer_next text with
  | none =>
    rw [hn] at h
    cases h
  | some found =>
    rw [hn] at h
    cases found with
    | none => cases h
    | some found =>
      obtain ⟨hf, -⟩ := delimited_found h
      cases hf
      exact json_lexer_next_shorter hn

end SaltsUtils.Json
