import Mathlib.Data.Nat.Bitwise
import SaltsUtils.Library.Utf8

/-!
# Selector sources and their lexer
-/

set_option autoImplicit false

/-!
## Selector sources

A source is a bounded text of UTF-8 without a zero byte.
-/

namespace SaltsUtils.Selector

open SaltsUtils

abbrev Bytes := List ℕ

/-- The bytes of a C literal. -/
def text (s : String) : Bytes := s.toList.map Char.toNat

def max_source_bytes : ℕ := 4096
def max_canonical_bytes : ℕ := 32768
def max_tokens : ℕ := 512
def max_nodes : ℕ := 256
def max_depth : ℕ := 16
def max_list_items : ℕ := 128
def max_string_bytes : ℕ := 256
def max_schema_fields : ℕ := 64

def selector_utf8_encode (codepoint : ℕ) : Bytes :=
  if codepoint ≤ 0x7f then [codepoint]
  else if codepoint ≤ 0x7ff then
    [0xc0 ||| codepoint >>> 6, 0x80 ||| codepoint &&& 0x3f]
  else if codepoint ≤ 0xffff then
    [0xe0 ||| codepoint >>> 12, 0x80 ||| codepoint >>> 6 &&& 0x3f, 0x80 ||| codepoint &&& 0x3f]
  else
    [0xf0 ||| codepoint >>> 18, 0x80 ||| codepoint >>> 12 &&& 0x3f,
      0x80 ||| codepoint >>> 6 &&& 0x3f, 0x80 ||| codepoint &&& 0x3f]

theorem low_bits (n : ℕ) : 0x80 ||| n &&& 0x3f = 0x80 + n % 64 := by
  have h : n &&& 0x3f = n % 2 ^ 6 := Nat.and_two_pow_sub_one_eq_mod n 6
  have hlt : n % 2 ^ 6 < 2 ^ 7 := by omega
  rw [h]
  exact (Nat.two_pow_add_eq_or_of_lt hlt 1).symm

variable {codepoint : ℕ}

theorem selector_utf8_encode_eq (h : codepoint < 0x110000) :
    selector_utf8_encode codepoint = Utf8.encode codepoint := by
  have h₆ : codepoint >>> 6 = codepoint / 64 := Nat.shiftRight_eq_div_pow codepoint 6
  have h₁₂ : codepoint >>> 12 = codepoint / 4096 := Nat.shiftRight_eq_div_pow codepoint 12
  have h₁₈ : codepoint >>> 18 = codepoint / 262144 := Nat.shiftRight_eq_div_pow codepoint 18
  unfold selector_utf8_encode Utf8.encode
  simp only [low_bits, h₆, h₁₂, h₁₈]
  split_ifs with h₁ h₂ h₃
  · rfl
  · have hlt : codepoint / 64 < 2 ^ 5 := by omega
    have he : 0xc0 ||| codepoint / 64 = 0xc0 + codepoint / 64 :=
      (Nat.two_pow_add_eq_or_of_lt hlt 6).symm
    rw [he]
  · have hlt : codepoint / 4096 < 2 ^ 4 := by omega
    have he : 0xe0 ||| codepoint / 4096 = 0xe0 + codepoint / 4096 :=
      (Nat.two_pow_add_eq_or_of_lt hlt 14).symm
    rw [he]
  · have hlt : codepoint / 262144 < 2 ^ 4 := by omega
    have he : 0xf0 ||| codepoint / 262144 = 0xf0 + codepoint / 262144 :=
      (Nat.two_pow_add_eq_or_of_lt hlt 15).symm
    rw [he]

/-- `(ch & 0xc0) == 0x80` of a byte. -/
def continuation (ch : ℕ) : Bool := ch / 64 == 2

def codepoint_of (lead : ℕ) (parts : Bytes) : ℕ :=
  parts.foldl (fun codepoint part => codepoint * 64 + part % 64) lead

def codepoint_allowed (width codepoint : ℕ) : Bool :=
  !((width == 3 && decide (codepoint < 0x800)) || (width == 4 && decide (codepoint < 0x10000)) ||
    (decide (0xd800 ≤ codepoint) && decide (codepoint ≤ 0xdfff)) ||
    decide (0x10ffff < codepoint))

def selector_utf8_validate : Bytes → Bool
  | [] => true
  | lead :: rest =>
    if lead ≤ 0x7f then lead != 0 && selector_utf8_validate rest
    else if 0xc2 ≤ lead ∧ lead ≤ 0xdf then
      match rest with
      | a :: rest =>
        continuation a && codepoint_allowed 2 (codepoint_of (lead % 32) [a]) &&
          selector_utf8_validate rest
      | [] => false
    else if 0xe0 ≤ lead ∧ lead ≤ 0xef then
      match rest with
      | a :: b :: rest =>
        continuation a && continuation b &&
          codepoint_allowed 3 (codepoint_of (lead % 16) [a, b]) && selector_utf8_validate rest
      | _ => false
    else if 0xf0 ≤ lead ∧ lead ≤ 0xf4 then
      match rest with
      | a :: b :: c :: rest =>
        continuation a && continuation b && continuation c &&
          codepoint_allowed 4 (codepoint_of (lead % 8) [a, b, c]) && selector_utf8_validate rest
      | _ => false
    else false

variable {ch : ℕ}

theorem continuation_iff : continuation ch = true ↔ 128 ≤ ch ∧ ch < 192 := by
  simp only [continuation, beq_iff_eq]
  omega

theorem codepoint_allowed_iff {width : ℕ} :
    codepoint_allowed width codepoint = true ↔ (width = 3 → 0x800 ≤ codepoint) ∧
      (width = 4 → 0x10000 ≤ codepoint) ∧ Utf8.Scalar codepoint := by
  simp only [codepoint_allowed, Utf8.Scalar, Bool.not_eq_true', Bool.or_eq_false_iff,
    Bool.and_eq_false_iff, beq_eq_false_iff_ne, decide_eq_false_iff_not]
  omega

theorem utf8_of_validate {source : Bytes} (h : selector_utf8_validate source = true) :
    Utf8.Valid source ∧ 0 ∉ source := by
  fun_induction selector_utf8_validate source with
  | case1 => exact ⟨.nil, by simp⟩
  | case2 lead rest hlead ih =>
    simp only [Bool.and_eq_true, bne_iff_ne] at h
    have h' := ih h.2
    refine ⟨.ascii_cons (by omega) h'.1, ?_⟩
    simp only [List.mem_cons, not_or]
    exact ⟨Ne.symm h.1, h'.2⟩
  | case3 lead hlead hwidth a rest ih =>
    simp only [Bool.and_eq_true, continuation_iff, codepoint_allowed_iff] at h
    obtain ⟨⟨ha, -, -, hs⟩, h⟩ := h
    have h' := ih h
    simp only [codepoint_of, List.foldl_cons, List.foldl_nil] at hs
    refine ⟨?_, ?_⟩
    · have hv := Utf8.Valid.cons hs h'.1
      have he : Utf8.encode (lead % 32 * 64 + a % 64) = [lead, a] := by
        unfold Utf8.encode
        rw [if_neg (by omega), if_pos (by omega)]
        congr <;> omega
      rwa [he] at hv
    · simp only [List.mem_cons, not_or]
      exact ⟨by omega, by omega, h'.2⟩
  | case4 => cases h
  | case5 lead hlead hwidth hwidth' a b rest ih =>
    simp only [Bool.and_eq_true, continuation_iff, codepoint_allowed_iff] at h
    obtain ⟨⟨⟨ha, hb⟩, hmin, -, hs⟩, h⟩ := h
    have h' := ih h
    have hmin := hmin trivial
    simp only [codepoint_of, List.foldl_cons, List.foldl_nil] at hs hmin
    refine ⟨?_, ?_⟩
    · have hv := Utf8.Valid.cons hs h'.1
      have he : Utf8.encode ((lead % 16 * 64 + a % 64) * 64 + b % 64) = [lead, a, b] := by
        unfold Utf8.encode
        rw [if_neg (by omega), if_neg (by omega), if_pos (by omega)]
        congr <;> omega
      rwa [he] at hv
    · simp only [List.mem_cons, not_or]
      exact ⟨by omega, by omega, by omega, h'.2⟩
  | case6 => cases h
  | case7 lead hlead hwidth hwidth' hwidth'' a b c rest ih =>
    simp only [Bool.and_eq_true, continuation_iff, codepoint_allowed_iff] at h
    obtain ⟨⟨⟨⟨ha, hb⟩, hc⟩, -, hmin, hs⟩, h⟩ := h
    have h' := ih h
    have hmin := hmin trivial
    simp only [codepoint_of, List.foldl_cons, List.foldl_nil] at hs hmin
    refine ⟨?_, ?_⟩
    · have hv := Utf8.Valid.cons hs h'.1
      have he : Utf8.encode (((lead % 8 * 64 + a % 64) * 64 + b % 64) * 64 + c % 64) =
          [lead, a, b, c] := by
        unfold Utf8.encode
        rw [if_neg (by omega), if_neg (by omega), if_neg (by omega)]
        congr <;> omega
      rwa [he] at hv
    · simp only [List.mem_cons, not_or]
      exact ⟨by omega, by omega, by omega, by omega, h'.2⟩
  | case8 => cases h
  | case9 => cases h

theorem validate_encode (hs : Utf8.Scalar codepoint) (h₀ : codepoint ≠ 0) (rest : Bytes) :
    selector_utf8_validate (Utf8.encode codepoint ++ rest) = selector_utf8_validate rest := by
  have hs' := hs
  unfold Utf8.Scalar at hs'
  unfold Utf8.encode
  split_ifs with h₁ h₂ h₃
  · simp only [List.cons_append, List.nil_append]
    rw [selector_utf8_validate.eq_def]
    simp [h₁, h₀]
  · have ha : continuation (0x80 + codepoint % 64) = true := continuation_iff.mpr (by omega)
    have hw : codepoint_allowed 2
        (codepoint_of ((0xc0 + codepoint / 64) % 32) [0x80 + codepoint % 64]) = true := by
      have he : codepoint_of ((0xc0 + codepoint / 64) % 32) [0x80 + codepoint % 64] =
          codepoint := by
        simp only [codepoint_of, List.foldl_cons, List.foldl_nil]
        omega
      rw [he, codepoint_allowed_iff]
      exact ⟨by omega, by omega, hs⟩
    simp only [List.cons_append, List.nil_append]
    rw [selector_utf8_validate, if_neg (by omega), if_pos (by omega)]
    simp only [ha, hw, Bool.true_and]
  · have ha : continuation (0x80 + codepoint / 64 % 64) = true := continuation_iff.mpr (by omega)
    have hb : continuation (0x80 + codepoint % 64) = true := continuation_iff.mpr (by omega)
    have hw : codepoint_allowed 3 (codepoint_of ((0xe0 + codepoint / 4096) % 16)
        [0x80 + codepoint / 64 % 64, 0x80 + codepoint % 64]) = true := by
      have he : codepoint_of ((0xe0 + codepoint / 4096) % 16)
          [0x80 + codepoint / 64 % 64, 0x80 + codepoint % 64] = codepoint := by
        simp only [codepoint_of, List.foldl_cons, List.foldl_nil]
        omega
      rw [he, codepoint_allowed_iff]
      exact ⟨by omega, by omega, hs⟩
    simp only [List.cons_append, List.nil_append]
    rw [selector_utf8_validate, if_neg (by omega), if_neg (by omega), if_pos (by omega)]
    simp only [ha, hb, hw, Bool.true_and]
  · have ha : continuation (0x80 + codepoint / 4096 % 64) = true := continuation_iff.mpr (by omega)
    have hb : continuation (0x80 + codepoint / 64 % 64) = true := continuation_iff.mpr (by omega)
    have hc : continuation (0x80 + codepoint % 64) = true := continuation_iff.mpr (by omega)
    have hw : codepoint_allowed 4 (codepoint_of ((0xf0 + codepoint / 262144) % 8)
        [0x80 + codepoint / 4096 % 64, 0x80 + codepoint / 64 % 64, 0x80 + codepoint % 64]) =
        true := by
      have he : codepoint_of ((0xf0 + codepoint / 262144) % 8)
          [0x80 + codepoint / 4096 % 64, 0x80 + codepoint / 64 % 64, 0x80 + codepoint % 64] =
          codepoint := by
        simp only [codepoint_of, List.foldl_cons, List.foldl_nil]
        omega
      rw [he, codepoint_allowed_iff]
      exact ⟨by omega, by omega, hs⟩
    simp only [List.cons_append, List.nil_append]
    rw [selector_utf8_validate, if_neg (by omega), if_neg (by omega), if_neg (by omega),
      if_pos (by omega)]
    simp only [ha, hb, hc, hw, Bool.true_and]

theorem validate_of_utf8 {source : Bytes} (h : Utf8.Valid source) (h₀ : 0 ∉ source) :
    selector_utf8_validate source = true := by
  induction h with
  | nil => rfl
  | @cons codepoint rest hcp h ih =>
    simp only [List.mem_append, not_or] at h₀
    have hne : codepoint ≠ 0 := by
      intro he
      apply h₀.1
      rw [he]
      decide
    rw [validate_encode hcp hne, ih h₀.2]

structure Schema where
  allowed_fields : List Bytes
  allow_tag_fields : Bool

def ident_start (ch : ℕ) : Bool :=
  (decide (65 ≤ ch) && decide (ch ≤ 90)) || (decide (97 ≤ ch) && decide (ch ≤ 122)) || ch == 95

def ident_part (ch : ℕ) : Bool :=
  ident_start ch || (decide (48 ≤ ch) && decide (ch ≤ 57)) || ch == 45

def schema_parts (fresh : Bool) : Bytes → Bool
  | [] => !fresh
  | ch :: rest =>
    if fresh then ident_start ch && schema_parts false rest
    else if ch = 46 then schema_parts true rest
    else ident_part ch && schema_parts false rest

def reserved (field : Bytes) : Bool :=
  field == text "in" || field == text "not" || field == text "has" || field == text "capability"

def selector_schema_valid (schema : Schema) : Bool :=
  !schema.allowed_fields.isEmpty &&
    decide (schema.allowed_fields.length ≤ max_schema_fields) &&
    schema.allowed_fields.all (fun field =>
      !field.isEmpty && decide (field.length ≤ max_string_bytes) && !reserved field &&
        schema_parts true field) &&
    decide schema.allowed_fields.Nodup

/-!
## The selector lexer

Tokens are cut off the source one at a time, the longest match first and the
reserved words before a field of the same length. Parentheses are counted as
they pass, and the nesting limit belongs to the lexer.
-/

inductive Token where
  | and
  | or
  | eq
  | ne
  | bang
  | lparen
  | rparen
  | lbracket
  | rbracket
  | comma
  | in_
  | not
  | has
  | capability
  | string (value : Bytes)
  | field (value : Bytes)
  deriving DecidableEq

def whitespace (ch : ℕ) : Bool := ch == 0x09 || ch == 0x0a || ch == 0x0d || ch == 0x20

def hex_digit (ch : ℕ) : Bool :=
  (decide (48 ≤ ch) && decide (ch ≤ 57)) || (decide (97 ≤ ch) && decide (ch ≤ 102)) ||
    (decide (65 ≤ ch) && decide (ch ≤ 70))

def escape_letter (ch : ℕ) : Bool :=
  ch == 34 || ch == 92 || ch == 47 || ch == 98 || ch == 102 || ch == 110 || ch == 114 || ch == 116

def extend_match (taken : Bytes) (rest : Bytes × Bytes) : Bytes × Bytes :=
  (taken ++ rest.1, rest.2)

def field_tail : Bytes → Bytes × Bytes
  | [] => ([], [])
  | ch :: rest =>
    if ident_part ch then extend_match [ch] (field_tail rest)
    else if ch = 46 then
      match rest with
      | next :: rest =>
        if ident_start next then extend_match [ch, next] (field_tail rest)
        else ([], ch :: next :: rest)
      | [] => ([], [ch])
    else ([], ch :: rest)

def string_tail : Bytes → Option (Bytes × Bytes)
  | [] => none
  | ch :: rest =>
    if ch = 34 then some ([ch], rest)
    else if ch = 92 then
      match rest with
      | [] => none
      | letter :: rest =>
        if letter = 117 then
          match rest with
          | a :: b :: c :: d :: rest =>
            if hex_digit a && hex_digit b && hex_digit c && hex_digit d then
              (string_tail rest).map (extend_match [ch, letter, a, b, c, d])
            else none
          | _ => none
        else if escape_letter letter then (string_tail rest).map (extend_match [ch, letter])
        else none
    else if ch < 0x20 then none
    else (string_tail rest).map (extend_match [ch])

def word_token (word : Bytes) : Token :=
  if word = text "in" then .in_
  else if word = text "not" then .not
  else if word = text "has" then .has
  else if word = text "capability" then .capability
  else .field word

def second (next : ℕ) (token : Token) : Bytes → Option (Token × Bytes)
  | ch :: rest => if ch = next then some (token, rest) else none
  | [] => none

/-- The token a text starts with, and the text behind it. -/
def lexer_match : Bytes → Option (Token × Bytes)
  | [] => none
  | ch :: rest =>
    if ch = 38 then second 38 .and rest
    else if ch = 124 then second 124 .or rest
    else if ch = 61 then second 61 .eq rest
    else if ch = 33 then
      match second 61 .ne rest with
      | some result => some result
      | none => some (.bang, rest)
    else if ch = 40 then some (.lparen, rest)
    else if ch = 41 then some (.rparen, rest)
    else if ch = 91 then some (.lbracket, rest)
    else if ch = 93 then some (.rbracket, rest)
    else if ch = 44 then some (.comma, rest)
    else if ch = 34 then
      (string_tail rest).map fun result => (.string (ch :: result.1), result.2)
    else if ident_start ch then
      some (word_token (ch :: (field_tail rest).1), (field_tail rest).2)
    else none

structure Lexer where
  cursor : Bytes
  parenthesis_depth : ℕ

def selector_lexer_next (lexer : Lexer) : Option (Option (Token × Lexer)) :=
  match lexer.cursor.dropWhile whitespace with
  | [] => some none
  | ch :: rest =>
    match lexer_match (ch :: rest) with
    | none => none
    | some (.lparen, rest) =>
      if lexer.parenthesis_depth + 1 > max_depth then none
      else some (some (.lparen, ⟨rest, lexer.parenthesis_depth + 1⟩))
    | some (.rparen, rest) => some (some (.rparen, ⟨rest, lexer.parenthesis_depth - 1⟩))
    | some (token, rest) => some (some (token, ⟨rest, lexer.parenthesis_depth⟩))

def lexer_run : ℕ → Lexer → Option (List Token)
  | 0, _ => none
  | fuel + 1, lexer =>
    match selector_lexer_next lexer with
    | none => none
    | some none => some []
    | some (some (token, lexer)) => (lexer_run fuel lexer).map (token :: ·)

def lexer_tokens (lexer : Lexer) : Option (List Token) :=
  lexer_run (lexer.cursor.length + 1) lexer

def selector_tokens (source : Bytes) : Option (List Token) := lexer_tokens ⟨source, 0⟩

@[simp] theorem extend_match_fst (taken : Bytes) (rest : Bytes × Bytes) :
    (extend_match taken rest).1 = taken ++ rest.1 := rfl

@[simp] theorem extend_match_snd (taken : Bytes) (rest : Bytes × Bytes) :
    (extend_match taken rest).2 = rest.2 := rfl

theorem ident_start_lt (h : ident_start ch = true) : 65 ≤ ch ∧ ch < 128 := by
  simp only [ident_start, Bool.or_eq_true, Bool.and_eq_true, decide_eq_true_eq, beq_iff_eq] at h
  omega

theorem ident_part_lt (h : ident_part ch = true) : 45 ≤ ch ∧ ch < 128 ∧ ch ≠ 46 := by
  simp only [ident_part, ident_start, Bool.or_eq_true, Bool.and_eq_true, decide_eq_true_eq,
    beq_iff_eq] at h
  omega

theorem field_tail_append (b : Bytes) : (field_tail b).1 ++ (field_tail b).2 = b := by
  fun_induction field_tail b with
  | case1 => rfl
  | case2 ch rest h ih => simp [ih]
  | case3 next rest h hs ih => simp [ih]
  | case4 => rfl
  | case5 => rfl
  | case6 => rfl

theorem field_tail_ascii (b : Bytes) : ∀ ch ∈ (field_tail b).1, 45 ≤ ch ∧ ch < 128 := by
  fun_induction field_tail b with
  | case1 => simp
  | case2 ch rest h ih =>
    have := ident_part_lt h
    simp only [extend_match_fst, List.singleton_append, List.forall_mem_cons]
    exact ⟨by omega, ih⟩
  | case3 next rest hs h ih =>
    have := ident_start_lt hs
    simp only [extend_match_fst, List.cons_append, List.nil_append, List.forall_mem_cons]
    exact ⟨by omega, by omega, ih⟩
  | case4 => simp
  | case5 => simp
  | case6 => simp

/-- A text that no field runs past: it starts with neither a part of an
identifier nor a dot. -/
def Stops (b : Bytes) : Prop := ∀ ch ∈ b.head?, ident_part ch = false ∧ ch ≠ 46

theorem field_tail_stops {b : Bytes} (h : Stops b) : field_tail b = ([], b) := by
  cases b with
  | nil => rfl
  | cons ch rest =>
    have := h ch rfl
    unfold field_tail
    simp [this.1, this.2]

theorem field_tail_matched (b : Bytes) {after : Bytes} (h : Stops after) :
    field_tail ((field_tail b).1 ++ after) = ((field_tail b).1, after) := by
  fun_induction field_tail b with
  | case1 => exact field_tail_stops h
  | case2 ch rest hp ih =>
    simp only [extend_match_fst, List.cons_append, List.nil_append]
    rw [field_tail.eq_def]
    simp [hp, ih, extend_match]
  | case3 next rest hp hs ih =>
    simp only [extend_match_fst, List.cons_append, List.nil_append]
    rw [field_tail.eq_def]
    simp [hp, hs, ih, extend_match]
  | case4 => exact field_tail_stops h
  | case5 => exact field_tail_stops h
  | case6 => exact field_tail_stops h

theorem extended_match {taken t rest : Bytes} {m : Option (Bytes × Bytes)}
    (h : m.map (extend_match taken) = some (t, rest)) :
    ∃ t', m = some (t', rest) ∧ t = taken ++ t' := by
  obtain ⟨⟨t', rest'⟩, hm, he⟩ := Option.map_eq_some_iff.mp h
  obtain ⟨rfl, rfl⟩ := Prod.mk.inj he
  exact ⟨t', hm, rfl⟩

/-- The text between the quotes of a string. -/
inductive Literal : Bytes → Prop where
  | nil : Literal []
  | plain {ch : ℕ} {body : Bytes} (hch : ch ≠ 34 ∧ ch ≠ 92 ∧ 0x20 ≤ ch) (h : Literal body) :
      Literal (ch :: body)
  | escape {letter : ℕ} {body : Bytes} (hl : escape_letter letter = true) (h : Literal body) :
      Literal (92 :: letter :: body)
  | point {a b c d : ℕ} {body : Bytes} (hx : ∀ x ∈ [a, b, c, d], hex_digit x = true)
      (h : Literal body) : Literal (92 :: 117 :: a :: b :: c :: d :: body)

theorem string_tail_append {b : Bytes} {taken rest : Bytes}
    (h : string_tail b = some (taken, rest)) :
    ∃ body, Literal body ∧ taken = body ++ [34] ∧ b = body ++ 34 :: rest := by
  fun_induction string_tail b generalizing taken with
  | case1 => cases h
  | case2 =>
    cases h
    exact ⟨[], .nil, rfl, rfl⟩
  | case3 => cases h
  | case4 a b c d tail hx hq ih =>
    obtain ⟨t, ht, rfl⟩ := extended_match h
    obtain ⟨body, hl, rfl, rfl⟩ := ih ht
    have hx' : ∀ x ∈ [a, b, c, d], hex_digit x = true := by
      simpa [and_assoc] using hx
    exact ⟨[92, 117, a, b, c, d] ++ body, .point hx' hl, by simp, by simp⟩
  | case5 => cases h
  | case6 => cases h
  | case7 letter tail hl he hq ih =>
    obtain ⟨t, ht, rfl⟩ := extended_match h
    obtain ⟨body, hbody, rfl, rfl⟩ := ih ht
    exact ⟨[92, letter] ++ body, .escape he hbody, by simp, by simp⟩
  | case8 => cases h
  | case9 => cases h
  | case10 ch tail h₁ h₂ h₃ ih =>
    obtain ⟨t, ht, rfl⟩ := extended_match h
    obtain ⟨body, hbody, rfl, rfl⟩ := ih ht
    exact ⟨[ch] ++ body, .plain ⟨h₁, h₂, by omega⟩ hbody, by simp, by simp⟩

theorem string_tail_literal {body : Bytes} (h : Literal body) (rest : Bytes) :
    string_tail (body ++ 34 :: rest) = some (body ++ [34], rest) := by
  induction h with
  | nil =>
    rw [List.nil_append, string_tail.eq_def]
    rfl
  | plain hch h ih =>
    have hlow : ¬ _ < 0x20 := Nat.not_lt.mpr hch.2.2
    rw [List.cons_append, string_tail.eq_def]
    simp [hch.1, hch.2.1, hlow, ih, extend_match]
  | @escape letter body hl h ih =>
    have hu : letter ≠ 117 := by
      intro he
      rw [he] at hl
      exact absurd hl (by decide)
    rw [List.cons_append, List.cons_append, string_tail.eq_def]
    simp [hu, hl, ih, extend_match]
  | @point a b c d body hx h ih =>
    simp only [List.mem_cons, List.not_mem_nil, or_false, forall_eq_or_imp, forall_eq] at hx
    rw [List.cons_append, List.cons_append, string_tail.eq_def]
    simp [hx, ih, extend_match]

end SaltsUtils.Selector
