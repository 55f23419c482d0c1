import Mathlib.Data.Nat.Digits.Defs
import Mathlib.Tactic.IntervalCases
import SaltsUtils.Json.SaxGrammar

/-!
# The doubles of numbers

How the lexer of `json_parse` and the scanner of the SAX parser convert a number token.
-/

set_option autoImplicit false

namespace SaltsUtils.Json

variable {D : Type}

variable (strtod : Bytes → D × ℕ)

def parse_number (lexeme : Bytes) : D :=
  let len := if 64 ≤ lexeme.length then 64 - 1 else lexeme.length
  (strtod (lexeme.take len)).1

def json_sax_parse_number_token (lexeme : Bytes) : Option D :=
  if (strtod lexeme).2 ≠ lexeme.length then none else some (strtod lexeme).1

def IsNumber (lexeme : Bytes) : Prop := number lexeme = some (lexeme, [])

instance (lexeme : Bytes) : Decidable (IsNumber lexeme) := by
  unfold IsNumber
  infer_instance

def ReadsNumbers : Prop :=
  ∀ lexeme, IsNumber lexeme → (strtod lexeme).2 = lexeme.length

def SameDouble (lexeme : Bytes) : Prop :=
  parse_number strtod lexeme = (strtod lexeme).1 ∧
    json_sax_parse_number_token strtod lexeme = some (strtod lexeme).1

def decimal (text : Bytes) : (ℤ × ℤ) × ℕ :=
  match int_part text with
  | none => ((0, 0), 0)
  | some int =>
    let fraction := optional frac int.2
    let exponent := optional exp fraction.2
    let figures := ((int.1 ++ fraction.1).filter is_digit).map (· - 48)
    let kept := figures.reverse.dropWhile (· == 0)
    let power : ℤ := Nat.ofDigits 10 ((exponent.1.filter is_digit).reverse.map (· - 48))
    let power := if 45 ∈ exponent.1 then -power else power
    let mantissa : ℤ := Nat.ofDigits 10 kept
    let scale := power - (fraction.1.length - 1 : ℕ) + (figures.length - kept.length : ℕ)
    ((if 45 ∈ int.1 then -mantissa else mantissa, if mantissa = 0 then 0 else scale),
      (int.1 ++ fraction.1 ++ exponent.1).length)

variable {lexeme : Bytes}

theorem IsNumber.head (h : IsNumber lexeme) :
    ∃ ch rest, lexeme = ch :: rest ∧ (ch = 45 ∨ is_digit ch = true) := by
  cases lexeme with
  | nil => cases h
  | cons ch rest =>
    refine ⟨ch, rest, rfl, ?_⟩
    by_contra hne
    rw [IsNumber, number_start hne] at h
    cases h

theorem IsNumber.tokens (h : IsNumber lexeme) : json_tokens lexeme = some [.number lexeme] := by
  obtain ⟨ch, rest, rfl, hch⟩ := h.head
  have hrange : ch = 45 ∨ (48 ≤ ch ∧ ch ≤ 57) := by simpa [is_digit] using hch
  have hspace : whitespace ch = false := by
    rcases hrange with rfl | ⟨hlow, hhigh⟩
    · rfl
    · interval_cases ch <;> rfl
  have hstructural : structural_token ch = none := by
    rcases hrange with rfl | ⟨hlow, hhigh⟩
    · rfl
    · interval_cases ch <;> rfl
  have hword : literal_word ch = none := by
    rcases hrange with rfl | ⟨hlow, hhigh⟩
    · rfl
    · interval_cases ch <;> rfl
  have hmatch : lexer_match (ch :: rest) = some (.number (ch :: rest), []) := by
    rw [lexer_match, hstructural]
    simp only [hword]
    rw [if_neg (by omega), h]
    rfl
  have hnext : json_lexer_next (ch :: rest) = some (some (.number (ch :: rest), [])) := by
    rw [json_lexer_next, List.dropWhile_cons_of_neg (by rw [hspace]; exact Bool.false_ne_true)]
    simp only [hmatch, Option.map_some]
  have hend : lexer_run (rest.length + 1) [] = some [] := rfl
  rw [json_tokens, lexer_run, hnext]
  exact congrArg (Option.map _) hend

theorem IsNumber.parses (h : IsNumber lexeme) :
    json_parse lexeme (.number lexeme) ∧ sax_parse [lexeme] = some [.number lexeme] := by
  have htokens := h.tokens
  refine ⟨⟨_, htokens, .number lexeme⟩, (sax_parse_iff ?_).mpr ⟨.number lexeme, ?_, rfl⟩⟩
  · intro ts hts
    rw [List.flatten_singleton, htokens] at hts
    cases hts
    exact Nat.zero_le _
  · rw [List.flatten_singleton]
    exact ⟨_, htokens, .number lexeme⟩

theorem parse_number_eq (lexeme : Bytes) :
    parse_number strtod lexeme = (strtod (lexeme.take 63)).1 := by
  rw [parse_number]
  by_cases h : 64 ≤ lexeme.length
  · rw [if_pos h]
  · rw [if_neg h, List.take_length, List.take_of_length_le (by omega)]

theorem same_double_iff {strtod : Bytes → D × ℕ} (hs : ReadsNumbers strtod) (h : IsNumber lexeme) :
    SameDouble strtod lexeme ↔ (strtod (lexeme.take 63)).1 = (strtod lexeme).1 := by
  have hsax : json_sax_parse_number_token strtod lexeme = some (strtod lexeme).1 := by
    rw [json_sax_parse_number_token, if_neg (not_not.mpr (hs lexeme h))]
  rw [SameDouble, parse_number_eq]
  exact and_iff_left hsax

/-- Whatever the doubles are, the parsers agree with `strtod` on a number of at most 63
bytes and on no longer one; for a given `strtod` they agree where the first 63 bytes have
the double of the whole lexeme. -/
theorem numbers_agree_iff {lexeme : Bytes} (h : IsNumber lexeme) :
    json_parse lexeme (.number lexeme) ∧ sax_parse [lexeme] = some [.number lexeme] ∧
    (∀ (D : Type) (strtod : Bytes → D × ℕ), ReadsNumbers strtod →
      (SameDouble strtod lexeme ↔ (strtod (lexeme.take 63)).1 = (strtod lexeme).1)) ∧
    ((∀ (D : Type) (strtod : Bytes → D × ℕ), ReadsNumbers strtod → SameDouble strtod lexeme) ↔
      lexeme.length ≤ 63) := by
  refine ⟨h.parses.1, h.parses.2, fun D strtod hs => same_double_iff hs h, ?_⟩
  constructor
  · intro hall
    -- The text itself may be what `strtod` makes of it.
    have hs : ReadsNumbers fun text : Bytes => (text, text.length) := fun _ _ => rfl
    have hsame := (same_double_iff hs h).mp (hall Bytes _ hs)
    have := congrArg List.length hsame
    dsimp only at this
    rw [List.length_take] at this
    omega
  · intro hle D strtod hs
    rw [same_double_iff hs h, List.take_of_length_le hle]

theorem numbers_agree_iff_ten :
    (∀ (D : Type) (strtod : Bytes → D × ℕ), ReadsNumbers strtod → SameDouble strtod [49, 48]) ↔
      ([49, 48] : Bytes).length ≤ 63 :=
  (@numbers_agree_iff [49, 48] (by decide +kernel)).2.2.2

/-- `1.000…0e1` with 61 zeros. -/
def long_ten : Bytes := [49, 46] ++ List.replicate 61 48 ++ [101, 49]

theorem decimal_reads : ReadsNumbers decimal := by
  intro lexeme h
  rw [IsNumber, number] at h
  cases hi : int_part lexeme with
  | none =>
    rw [hi] at h
    cases h
  | some int =>
    rw [hi] at h
    have := congrArg Prod.fst (Option.some.inj h)
    rw [decimal, hi]
    exact congrArg List.length this

/-- It is stored as one and is ten. -/
theorem parse_number_cuts :
    IsNumber long_ten ∧ ReadsNumbers decimal ∧ parse_number decimal long_ten = (1, 0) ∧
      json_sax_parse_number_token decimal long_ten = some (1, 1) ∧
      ¬ ∀ lexeme, IsNumber lexeme → SameDouble decimal lexeme := by
  have hnum : IsNumber long_ten := by decide +kernel
  have hlow : parse_number decimal long_ten = (1, 0) := by decide +kernel
  have hten : json_sax_parse_number_token decimal long_ten = some (1, 1) := by decide +kernel
  refine ⟨hnum, decimal_reads, hlow, hten, fun hall => ?_⟩
  obtain ⟨hparse, hsax⟩ := hall long_ten hnum
  rw [hten, ← hparse, hlow] at hsax
  exact absurd hsax (by decide)

end SaltsUtils.Json
