import SaltsUtils.Library.JsonText

/-!
# The JSON lexer

The rules of the lexer, the longest match of each. A string token keeps what stands
between its quotes and a number token its text.
-/

set_option autoImplicit false

namespace SaltsUtils.Json

abbrev Bytes := List ℕ

inductive Token where
  | lbrace
  | rbrace
  | lbracket
  | rbracket
  | colon
  | comma
  | string (value : Bytes)
  | number (lexeme : Bytes)
  | true
  | false
  | null
  deriving DecidableEq

def whitespace (ch : ℕ) : Bool := ch == 32 || ch == 9 || ch == 10 || ch == 13

def is_digit (ch : ℕ) : Bool := decide (48 ≤ ch) && decide (ch ≤ 57)

def hex_digit (ch : ℕ) : Bool :=
  is_digit ch || (decide (97 ≤ ch) && decide (ch ≤ 102)) || (decide (65 ≤ ch) && decide (ch ≤ 70))

def escape_letter (ch : ℕ) : Bool :=
  ch == 34 || ch == 92 || ch == 47 || ch == 98 || ch == 102 || ch == 110 || ch == 114 || ch == 116

/-- More text before what a rule has taken. -/
def extend (taken : Bytes) (result : Bytes × Bytes) : Bytes × Bytes := (taken ++ result.1, result.2)

/-- What a string has after its opening quote, up to the closing one, and the text
behind that. -/
def string_tail : Bytes → Option (Bytes × Bytes)
  | [] => none
  | ch :: rest =>
    if ch = 34 then some ([], rest)
    else if ch = 92 then
      match rest with
      | [] => none
      | letter :: rest =>
        if escape_letter letter then (string_tail rest).map (extend [ch, letter])
        else if letter = 117 then
          match rest with
          | a :: b :: c :: d :: rest =>
            if hex_digit a && hex_digit b && hex_digit c && hex_digit d then
              (string_tail rest).map (extend [ch, letter, a, b, c, d])
            else none
          | _ => none
        else none
    else if ch < 0x20 then none
    else (string_tail rest).map (extend [ch])

def plain_ascii_string : Bytes → Option (Bytes × Bytes)
  | [] => none
  | ch :: rest =>
    if ch = 34 then some ([], rest)
    else if ch = 92 ∨ ch < 0x20 ∨ 0x80 ≤ ch then none
    else (plain_ascii_string rest).map (extend [ch])

def digits : Bytes → Option (Bytes × Bytes)
  | [] => none
  | ch :: rest =>
    if is_digit ch then some (ch :: rest.takeWhile is_digit, rest.dropWhile is_digit) else none

def unsigned_int : Bytes → Option (Bytes × Bytes)
  | [] => none
  | ch :: rest => if ch = 48 then some ([ch], rest) else digits (ch :: rest)

def int_part : Bytes → Option (Bytes × Bytes)
  | [] => none
  | ch :: rest =>
    if ch = 45 then (unsigned_int rest).map (extend [ch]) else unsigned_int (ch :: rest)

def frac : Bytes → Option (Bytes × Bytes)
  | [] => none
  | ch :: rest => if ch = 46 then (digits rest).map (extend [ch]) else none

def signed_digits : Bytes → Option (Bytes × Bytes)
  | [] => none
  | ch :: rest =>
    if ch = 43 ∨ ch = 45 then (digits rest).map (extend [ch]) else digits (ch :: rest)

def exp : Bytes → Option (Bytes × Bytes)
  | [] => none
  | ch :: rest =>
    if ch = 101 ∨ ch = 69 then (signed_digits rest).map (extend [ch]) else none

/-- What a rule takes if it matches at all. -/
def optional (rule : Bytes → Option (Bytes × Bytes)) (text : Bytes) : Bytes × Bytes :=
  (rule text).getD ([], text)

def number (text : Bytes) : Option (Bytes × Bytes) :=
  (int_part text).map fun int =>
    let fraction := optional frac int.2
    let exponent := optional exp fraction.2
    (int.1 ++ fraction.1 ++ exponent.1, exponent.2)

def strip_word (word : Bytes) (token : Token) (text : Bytes) : Option (Token × Bytes) :=
  if text.take word.length = word then some (token, text.drop word.length) else none

def true_word : Bytes := [116, 114, 117, 101]

def false_word : Bytes := [102, 97, 108, 115, 101]

def null_word : Bytes := [110, 117, 108, 108]

def string_match (rest : Bytes) : Option (Bytes × Bytes) :=
  match plain_ascii_string rest with
  | some result => some result
  | none => string_tail rest

def structural_token (ch : ℕ) : Option Token :=
  if ch = 123 then some .lbrace
  else if ch = 125 then some .rbrace
  else if ch = 91 then some .lbracket
  else if ch = 93 then some .rbracket
  else if ch = 58 then some .colon
  else if ch = 44 then some .comma
  else none

def literal_word (ch : ℕ) : Option (Bytes × Token) :=
  if ch = 116 then some (true_word, .true)
  else if ch = 102 then some (false_word, .false)
  else if ch = 110 then some (null_word, .null)
  else none

/-- The token a text starts with, and the text behind it. -/
def lexer_match : Bytes → Option (Token × Bytes)
  | [] => none
  | ch :: rest =>
    match structural_token ch with
    | some token => some (token, rest)
    | none =>
      match literal_word ch with
      | some (word, token) => strip_word word token (ch :: rest)
      | none =>
        if ch = 34 then (string_match rest).map fun result => (.string result.1, result.2)
        else (number (ch :: rest)).map fun result => (.number result.1, result.2)

def json_lexer_next (cursor : Bytes) : Option (Option (Token × Bytes)) :=
  match cursor.dropWhile whitespace with
  | [] => some none
  | ch :: rest => (lexer_match (ch :: rest)).map some

def lexer_run : ℕ → Bytes → Option (List Token)
  | 0, _ => none
  | fuel + 1, cursor =>
    match json_lexer_next cursor with
    | none => none
    | some none => some []
    | some (some (token, rest)) => (lexer_run fuel rest).map (token :: ·)

def json_tokens (text : Bytes) : Option (List Token) := lexer_run (text.length + 1) text

def Takes (rule : Bytes → Option (Bytes × Bytes)) : Prop :=
  ∀ text taken rest, rule text = some (taken, rest) → taken ++ rest = text ∧ taken ≠ []

variable {text : Bytes} {r : Bytes × Bytes}

theorem extend_takes {taken : Bytes} {o : Option (Bytes × Bytes)}
    (h : o.map (extend taken) = some r) (ho : ∀ s, o = some s → s.1 ++ s.2 = text) :
    r.1 ++ r.2 = taken ++ text := by
  cases o with
  | none => cases h
  | some s =>
    cases h
    rw [extend, List.append_assoc, ho s rfl]

theorem extend_ne_nil {ch : ℕ} {o : Option (Bytes × Bytes)} (h : o.map (extend [ch]) = some r) :
    r.1 ≠ [] := by
  cases o with
  | none => cases h
  | some s =>
    cases h
    exact List.cons_ne_nil _ _

theorem digits_takes : Takes digits := by
  intro text taken rest h
  cases text with
  | nil => cases h
  | cons ch text =>
    rw [digits] at h
    split at h
    · cases h
      exact ⟨by rw [List.cons_append, List.takeWhile_append_dropWhile], List.cons_ne_nil _ _⟩
    · cases h

theorem unsigned_int_takes : Takes unsigned_int := by
  intro text taken rest h
  cases text with
  | nil => cases h
  | cons ch text =>
    rw [unsigned_int] at h
    split at h
    · cases h
      exact ⟨rfl, List.cons_ne_nil _ _⟩
    · exact digits_takes _ _ _ h

theorem Takes.branch {rule f g : Bytes → Option (Bytes × Bytes)} {c : ℕ → Prop} [DecidablePred c]
    (hf : Takes f) (hg : Takes g) (hnil : rule [] = none)
    (hcons : ∀ ch rest, rule (ch :: rest) =
      if c ch then (f rest).map (extend [ch]) else g (ch :: rest)) : Takes rule := by
  intro text taken rest h
  cases text with
  | nil =>
    rw [hnil] at h
    cases h
  | cons ch text =>
    rw [hcons] at h
    split at h
    · exact ⟨extend_takes h (fun s hs => (hf _ _ _ hs).1), extend_ne_nil h⟩
    · exact hg _ _ _ h

theorem none_takes : Takes (fun _ => none) := fun _ _ _ h => nomatch h

theorem int_part_takes : Takes int_part :=
  .branch (c := fun ch => ch = 45) unsigned_int_takes unsigned_int_takes rfl (fun _ _ => rfl)

theorem frac_takes : Takes frac :=
  .branch (c := fun ch => ch = 46) digits_takes none_takes rfl (fun _ _ => rfl)

theorem signed_digits_takes : Takes signed_digits :=
  .branch (c := fun ch => ch = 43 ∨ ch = 45) digits_takes digits_takes rfl (fun _ _ => rfl)

theorem exp_takes : Takes exp :=
  .branch (c := fun ch => ch = 101 ∨ ch = 69) signed_digits_takes none_takes rfl (fun _ _ => rfl)

theorem optional_takes {rule : Bytes → Option (Bytes × Bytes)} (hr : Takes rule) (text : Bytes) :
    (optional rule text).1 ++ (optional rule text).2 = text := by
  unfold optional
  cases h : rule text with
  | none => rfl
  | some r => exact (hr _ _ _ h).1

theorem number_takes : Takes number := by
  intro text taken rest h
  unfold number at h
  cases hi : int_part text with
  | none =>
    rw [hi] at h
    cases h
  | some int =>
    obtain ⟨htext, hne⟩ := int_part_takes _ _ _ hi
    rw [hi] at h
    cases h
    refine ⟨?_, fun hnil => hne (List.append_eq_nil_iff.mp (List.append_eq_nil_iff.mp hnil).1).1⟩
    rw [List.append_assoc, optional_takes exp_takes, List.append_assoc, optional_takes frac_takes,
      htext]

theorem plain_ascii_string_tail (h : plain_ascii_string text = some r) :
    string_tail text = some r := by
  induction text generalizing r with
  | nil => cases h
  | cons ch text ih =>
    rw [plain_ascii_string] at h
    rw [string_tail.eq_def]
    simp only
    split at h
    · next hch => rw [if_pos hch, h]
    · next hch =>
      split at h
      · cases h
      · next hno =>
        obtain ⟨s, hs, rfl⟩ := Option.map_eq_some_iff.mp h
        rw [if_neg hch, if_neg (fun he => hno (Or.inl he)),
          if_neg (fun hlt => hno (Or.inr (Or.inl hlt))), ih hs]
        rfl

theorem string_match_eq (text : Bytes) : string_match text = string_tail text := by
  unfold string_match
  cases h : plain_ascii_string text with
  | none => rfl
  | some r => exact (plain_ascii_string_tail h).symm

theorem string_tail_shorter (h : string_tail text = some r) : r.2.length < text.length := by
  fun_induction string_tail text generalizing r with
  | case1 => cases h
  | case2 rest =>
    cases h
    exact Nat.lt_succ_self _
  | case3 => cases h
  | case4 letter rest _ _ ih =>
    obtain ⟨s, hs, rfl⟩ := Option.map_eq_some_iff.mp h
    have := ih hs
    simp only [extend, List.length_cons]
    omega
  | case5 a b c d rest _ _ _ ih =>
    obtain ⟨s, hs, rfl⟩ := Option.map_eq_some_iff.mp h
    have := ih hs
    simp only [extend, List.length_cons]
    omega
  | case6 => cases h
  | case7 => cases h
  | case8 => cases h
  | case9 => cases h
  | case10 ch rest _ _ _ ih =>
    obtain ⟨s, hs, rfl⟩ := Option.map_eq_some_iff.mp h
    have := ih hs
    simp only [extend, List.length_cons]
    omega

variable {token : Token}

theorem literal_word_cons {ch : ℕ} {word : Bytes} (h : literal_word ch = some (word, token)) :
    ∃ rest, word = ch :: rest := by
  unfold literal_word at h
  split at h
  · next hch =>
    cases h
    exact ⟨_, by rw [hch]; rfl⟩
  · split at h
    · next hch =>
      cases h
      exact ⟨_, by rw [hch]; rfl⟩
    · split at h
      · next hch =>
        cases h
        exact ⟨_, by rw [hch]; rfl⟩
      · cases h

theorem lexer_match_shorter {rest : Bytes} (h : lexer_match text = some (token, rest)) :
    rest.length < text.length := by
  cases text with
  | nil => cases h
  | cons ch text =>
    rw [lexer_match] at h
    split at h
    · cases h
      exact Nat.lt_succ_self _
    · split at h
      · next word _ hw =>
        obtain ⟨tail, rfl⟩ := literal_word_cons hw
        unfold strip_word at h
        split at h
        · cases h
          simp only [List.length_cons, List.drop_succ_cons, List.length_drop]
          omega
        · cases h
      · split at h
        · obtain ⟨r, hr, he⟩ := Option.map_eq_some_iff.mp h
          cases he
          rw [string_match_eq] at hr
          exact Nat.lt_trans (string_tail_shorter hr) (Nat.lt_succ_self _)
        · obtain ⟨r, hr, he⟩ := Option.map_eq_some_iff.mp h
          cases he
          obtain ⟨htext, hne⟩ := number_takes _ _ _ hr
          rw [← htext, List.length_append]
          have := List.length_pos_iff.mpr hne
          omega

theorem json_lexer_next_shorter {rest : Bytes}
    (h : json_lexer_next text = some (some (token, rest))) : rest.length < text.length := by
  unfold json_lexer_next at h
  have hle := (List.dropWhile_suffix (l := text) whitespace).length_le
  split at h
  · cases h
  · next ch tail hd =>
    obtain ⟨r, hr, he⟩ := Option.map_eq_some_iff.mp h
    cases he
    rw [hd] at hle
    exact Nat.lt_of_lt_of_le (lexer_match_shorter hr) hle

theorem lexer_run_enough {f g : ℕ} (hf : text.length < f) (hg : text.length < g) :
    lexer_run f text = lexer_run g text := by
  induction f generalizing g text with
  | zero => omega
  | succ f ih =>
    obtain ⟨g, rfl⟩ : ∃ k, g = k + 1 := ⟨g - 1, by omega⟩
    rw [lexer_run, lexer_run]
    cases hn : json_lexer_next text with
    | none => rfl
    | some found =>
      cases found with
      | none => rfl
      | some found =>
        have hlt := json_lexer_next_shorter hn
        simp only
        rw [ih (g := g) (by omega) (by omega)]

theorem json_tokens_next (text : Bytes) :
    json_tokens text =
      match json_lexer_next text with
      | none => none
      | some none => some []
      | some (some (token, rest)) => (json_tokens rest).map (token :: ·) := by
  unfold json_tokens
  rw [lexer_run]
  cases hn : json_lexer_next text with
  | none => rfl
  | some found =>
    cases found with
    | none => rfl
    | some found =>
      simp only
      rw [lexer_run_enough (json_lexer_next_shorter hn) (Nat.lt_succ_self _)]

end SaltsUtils.Json
