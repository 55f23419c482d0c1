import SaltsUtils.Library.Regex

/-!
# The TOML lexer

Blanks and comments are passed over.
-/

set_option autoImplicit false

namespace SaltsUtils.Toml

abbrev Bytes := List ℕ

inductive TokenType where
  | dot
  | comma
  | equal
  | lbrace
  | rbrace
  | lbracket
  | rbracket
  | newline
  | string
  | key
  | val_int
  | val_float
  | val_bool
  | val_datetime
  deriving DecidableEq

structure Token where
  type : TokenType
  value : Bytes
  deriving DecidableEq

section Rules
open Regex

def digit : Regex := range 48 57

def sign : Regex := optional (class_ [43, 45])

def hex : Regex := alt digit (alt (range 97 102) (range 65 70))

def bare : Regex :=
  plus (alt (range 97 122) (alt (range 65 90) (alt digit (class_ [95, 45]))))

def local_time : Regex :=
  sequence [times 2 digit, char 58, times 2 digit, char 58, times 2 digit,
    optional (seq (char 46) (plus digit))]

def time_offset : Regex :=
  alt (class_ [90, 122]) (sequence [class_ [43, 45], times 2 digit, char 58, times 2 digit])

def date_time : Regex :=
  sequence [times 4 digit, char 45, times 2 digit, char 45, times 2 digit,
    optional (sequence [class_ [84, 116, 32], local_time, optional time_offset])]

def float : Regex :=
  sequence [sign,
    alt (seq (plus digit) (optional (seq (char 46) (star digit)))) (seq (char 46) (plus digit)),
    optional (sequence [class_ [101, 69], sign, plus digit])]

/-- Three quotes, the text up to the next three, and these. -/
def multi_line (quote : ℕ) : Regex :=
  sequence [word [quote, quote, quote],
    star (alt (except [quote]) (alt (seq (char quote) (except [quote]))
      (sequence [char quote, char quote, except [quote]]))),
    word [quote, quote, quote]]

def escape : Regex := seq (char 92) (class_ [98, 116, 110, 102, 114, 34, 92, 47])

/-- The rules of the lexer in their order; those of unterminated strings end in an error. -/
def rules : List (Regex × Option TokenType) :=
  [(char 46, some .dot), (char 44, some .comma), (char 61, some .equal), (char 123, some .lbrace),
    (char 125, some .rbrace), (char 91, some .lbracket), (char 93, some .rbracket),
    (alt (char 10) (alt (word [13, 10]) (char 13)), some .newline),
    (word [116, 114, 117, 101], some .val_bool), (word [102, 97, 108, 115, 101], some .val_bool),
    (local_time, some .val_datetime), (date_time, some .val_datetime), (float, some .val_float),
    (seq (word [48, 120]) (plus hex), some .val_int),
    (seq (word [48, 111]) (plus (range 48 55)), some .val_int),
    (seq (word [48, 98]) (plus (range 48 49)), some .val_int),
    (seq sign (plus digit), some .val_int),
    (multi_line 34, some .string), (multi_line 39, some .string),
    (sequence [char 34, star (alt (except [34, 92, 10]) escape), char 34], some .string),
    (sequence [char 39, star (except [39, 10]), char 39], some .string),
    (seq (char 34) (star (alt (except [34, 92, 10, 13]) escape)), none),
    (seq (char 39) (star (except [39, 10, 13])), none),
    (bare, some .key)]

end Rules

/-- Passes over blanks and comments; a comment runs up to the end of its line. -/
def lex_start : Bool → Bytes → Bytes
  | _, [] => []
  | false, ch :: rest =>
    if ch = 32 ∨ ch = 9 then lex_start false rest
    else if ch = 35 then lex_start true rest
    else ch :: rest
  | true, ch :: rest =>
    if ch = 13 ∨ ch = 10 ∨ ch = 0 then ch :: rest else lex_start true rest

def plain_string_char (ch : ℕ) : Bool :=
  !(ch == 34 || ch == 92 || ch == 13 || ch == 10 || ch == 0)

def plain_string : Bytes → Option ℕ
  | 34 :: rest =>
    if rest.take 2 = [34, 34] then none
    else if (rest.dropWhile plain_string_char).head? = some 34 then
      some ((rest.takeWhile plain_string_char).length + 2)
    else none
  | _ => none

def token_text (type : TokenType) (value : Bytes) : Bytes :=
  if type = .newline then [] else value

def toml_lexer_next (cursor : Bytes) : Option (Option (Token × Bytes)) :=
  match lex_start false cursor with
  | [] => some none
  | ch :: rest =>
    match plain_string (ch :: rest) with
    | some n => some (some (⟨.string, (ch :: rest).take n⟩, (ch :: rest).drop n))
    | none =>
      match Regex.choose rules (ch :: rest) with
      | none => none
      | some (_, none) => none
      | some (n, some type) =>
        some (some (⟨type, token_text type ((ch :: rest).take n)⟩, (ch :: rest).drop n))

def lexer_run : ℕ → Bytes → Option (List Token)
  | 0, _ => none
  | fuel + 1, cursor =>
    match toml_lexer_next cursor with
    | none => none
    | some none => some []
    | some (some (token, rest)) => (lexer_run fuel rest).map (token :: ·)

def toml_tokens (text : Bytes) : Option (List Token) := lexer_run (text.length + 1) text

theorem lex_start_suffix (comment : Bool) (text : Bytes) : lex_start comment text <:+ text := by
  induction text generalizing comment with
  | nil => cases comment <;> exact List.suffix_rfl
  | cons ch rest ih =>
    cases comment with
    | false =>
      rw [lex_start]
      split
      · exact (ih false).trans (List.suffix_cons ch rest)
      · split
        · exact (ih true).trans (List.suffix_cons ch rest)
        · exact List.suffix_rfl
    | true =>
      rw [lex_start]
      split
      · exact List.suffix_rfl
      · exact (ih true).trans (List.suffix_cons ch rest)

theorem plain_string_pos {text : Bytes} {n : ℕ} (h : plain_string text = some n) : 0 < n := by
  unfold plain_string at h
  split at h
  · split at h
    · cases h
    · split at h
      · cases h
        omega
      · cases h
  · cases h

theorem rules_nullable : ∀ rule ∈ rules, Regex.nullable rule.1 = false := by decide

theorem lexer_next_cut {cursor rest : Bytes} {token : Token}
    (h : toml_lexer_next cursor = some (some (token, rest))) :
    ∃ n, 0 < n ∧ lex_start false cursor ≠ [] ∧ rest = (lex_start false cursor).drop n ∧
      ∃ type, token.value = token_text type ((lex_start false cursor).take n) := by
  unfold toml_lexer_next at h
  split at h
  · cases h
  · next ch text ht =>
    rw [ht]
    split at h
    · next n hn =>
      cases h
      exact ⟨n, plain_string_pos hn, List.cons_ne_nil _ _, rfl, .string, rfl⟩
    · split at h
      · cases h
      · cases h
      · next n type hn =>
        cases h
        obtain ⟨rule, hr, hl, -⟩ := Regex.choose_mem hn
        exact ⟨n, Regex.longest_pos (rules_nullable rule hr) hl, List.cons_ne_nil _ _, rfl, type, rfl⟩

theorem next_shorter {cursor rest : Bytes} {token : Token}
    (h : toml_lexer_next cursor = some (some (token, rest))) : rest.length < cursor.length := by
  obtain ⟨n, hn, hne, rfl, -⟩ := lexer_next_cut h
  have hl := (lex_start_suffix false cursor).length_le
  have hp := List.length_pos_iff.mpr hne
  rw [List.length_drop]
  omega

theorem lexer_run_enough (n m : ℕ) (cursor : Bytes) (hn : cursor.length < n)
    (hm : cursor.length < m) : lexer_run n cursor = lexer_run m cursor := by
  induction n generalizing m cursor with
  | zero => omega
  | succ n ih =>
    cases m with
    | zero => omega
    | succ m =>
      rw [lexer_run, lexer_run]
      cases hx : toml_lexer_next cursor with
      | none => rfl
      | some result =>
        cases result with
        | none => rfl
        | some next =>
          obtain ⟨token, rest⟩ := next
          have hlt := next_shorter hx
          simp only
          rw [ih m rest (by omega) (by omega)]

theorem toml_tokens_eq (text : Bytes) :
    toml_tokens text =
      match toml_lexer_next text with
      | none => none
      | some none => some []
      | some (some (token, rest)) => (toml_tokens rest).map (token :: ·) := by
  rw [toml_tokens, lexer_run]
  cases hx : toml_lexer_next text with
  | none => rfl
  | some result =>
    cases result with
    | none => rfl
    | some next =>
      obtain ⟨token, rest⟩ := next
      have hlt := next_shorter hx
      simp only
      rw [lexer_run_enough _ (rest.length + 1) rest hlt (by omega), toml_tokens]

theorem tokens_mem {text : Bytes} {tokens : List Token} (h : toml_tokens text = some tokens) :
    ∀ token ∈ tokens, ∀ ch ∈ token.value, ch ∈ text := by
  induction tokens generalizing text with
  | nil => simp
  | cons token tokens ih =>
    rw [toml_tokens_eq] at h
    split at h
    · cases h
    · cases h
    · next rest hx =>
      obtain ⟨tokens', ht, he⟩ := Option.map_eq_some_iff.mp h
      obtain ⟨rfl, rfl⟩ := List.cons.inj he
      obtain ⟨n, -, -, rfl, type, hv⟩ := lexer_next_cut hx
      have hs := (lex_start_suffix false text).subset
      intro t hmem ch hch
      rcases List.mem_cons.mp hmem with rfl | hmem
      · rw [hv, token_text] at hch
        split at hch
        · cases hch
        · exact hs (List.mem_of_mem_take hch)
      · exact hs (List.mem_of_mem_drop (ih ht t hmem ch hch))

end SaltsUtils.Toml
