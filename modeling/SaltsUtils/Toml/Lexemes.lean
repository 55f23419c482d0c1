import SaltsUtils.Toml.Integers
import SaltsUtils.Toml.Stamps

/-!
# The lexemes of plain values

What the rules of the lexer match is read off the expressions.
-/

set_option autoImplicit false

namespace SaltsUtils.Toml

open Regex

/-- What the accessors need to know of a text. -/
structure Lexeme (text : Bytes) : Prop where
  regular : Regular text
  dated : (scan_date text).ok = true → ∃ stamp : Stamp, text = stamp.text

variable {text : Bytes}

theorem match_digits (h : Match (plus digit) text) :
    ∃ digits : List (Fin 10), digits ≠ [] ∧ text = digits.map fun d => 48 + d.val := by
  obtain ⟨hne, hall⟩ := match_plus_one h
  clear h
  suffices hs : ∃ digits : List (Fin 10), text = digits.map fun d => 48 + d.val by
    obtain ⟨digits, rfl⟩ := hs
    exact ⟨digits, fun hd => hne (by rw [hd]; rfl), rfl⟩
  clear hne
  induction text with
  | nil => exact ⟨[], rfl⟩
  | cons ch text ih =>
    obtain ⟨hch, hall⟩ := List.forall_mem_cons.mp hall
    obtain ⟨digits, rfl⟩ := ih hall
    obtain ⟨hlow, hhigh⟩ := Bool.and_eq_true_iff.mp hch
    have hlow := of_decide_eq_true hlow
    have hhigh := of_decide_eq_true hhigh
    exact ⟨⟨ch - 48, by omega⟩ :: digits, by simp; omega⟩

theorem two_of_digits {a b : ℕ} (ha : isdigit a = true) (hb : isdigit b = true) :
    ∃ n : Fin 100, [a, b] = two n.val := by
  simp only [isdigit, Bool.and_eq_true, decide_eq_true_eq] at ha hb
  have hdiv : 48 + (10 * (a - 48) + (b - 48)) / 10 = a := by omega
  have hmod : 48 + (10 * (a - 48) + (b - 48)) % 10 = b := by omega
  exact ⟨⟨10 * (a - 48) + (b - 48), by omega⟩, by rw [two, hdiv, hmod]⟩

theorem match_two (h : Match (times 2 digit) text) : ∃ n : Fin 100, text = two n.val := by
  obtain ⟨hlength, hall⟩ := match_times_one h
  obtain ⟨a, b, rfl⟩ := List.length_eq_two.mp hlength
  exact two_of_digits (hall a (by simp)) (hall b (by simp))

theorem match_four (h : Match (times 4 digit) text) :
    ∃ n : Fin 10000, text = two (n.val / 100) ++ two (n.val % 100) := by
  obtain ⟨hlength, hall⟩ := match_times_one h
  match text, hlength with
  | [a, b, c, d], _ =>
    obtain ⟨m, hm⟩ := two_of_digits (hall a (by simp)) (hall b (by simp))
    obtain ⟨n, hn⟩ := two_of_digits (hall c (by simp)) (hall d (by simp))
    refine ⟨⟨100 * m.val + n.val, by omega⟩, ?_⟩
    have hdiv : (100 * m.val + n.val) / 100 = m.val := by omega
    have hmod : (100 * m.val + n.val) % 100 = n.val := by omega
    rw [hdiv, hmod, ← hm, ← hn]
    rfl

theorem match_fraction (h : Match (optional (seq (char 46) (plus digit))) text) :
    ∃ fraction, text = fraction_text fraction := by
  obtain h | rfl := match_optional h
  · obtain ⟨dot, rest, rfl, hdot, hrest⟩ := match_seq h
    obtain ⟨fraction, hne, rfl⟩ := match_digits hrest
    rw [match_char hdot]
    exact ⟨fraction, (if_neg hne).symm⟩
  · exact ⟨[], rfl⟩

theorem match_local_time (h : Match local_time text) : ∃ t : Time, text = t.text := by
  obtain ⟨_, rfl, hparts⟩ := match_sequence h
  obtain _ | ⟨hhour, _ | ⟨hcolon, _ | ⟨hminute, hparts⟩⟩⟩ := hparts
  obtain _ | ⟨hcolon', _ | ⟨hsecond, _ | ⟨hend, _ | _⟩⟩⟩ := hparts
  obtain ⟨hour, rfl⟩ := match_two hhour
  obtain ⟨minute, rfl⟩ := match_two hminute
  obtain ⟨second, rfl⟩ := match_two hsecond
  obtain ⟨fraction, rfl⟩ := match_fraction hend
  rw [match_char hcolon, match_char hcolon']
  exact ⟨⟨hour, minute, second, fraction⟩, by simp [Time.text]⟩

theorem match_offset (h : Match (optional time_offset) text) : ∃ o, text = offset_text o := by
  obtain h | rfl := match_optional h
  · obtain h | h := match_alt h
    · obtain ⟨ch, rfl, hch⟩ := match_class h
      fin_cases hch
      · exact ⟨some (.zulu false), rfl⟩
      · exact ⟨some (.zulu true), rfl⟩
    · obtain ⟨_, rfl, hparts⟩ := match_sequence h
      obtain _ | ⟨hsign, _ | ⟨hhour, _ | ⟨hcolon, _ | ⟨hminute, _ | _⟩⟩⟩⟩ := hparts
      obtain ⟨hour, rfl⟩ := match_two hhour
      obtain ⟨minute, rfl⟩ := match_two hminute
      obtain ⟨ch, rfl, hch⟩ := match_class hsign
      rw [match_char hcolon]
      fin_cases hch
      · exact ⟨some (.numeric false hour minute), rfl⟩
      · exact ⟨some (.numeric true hour minute), rfl⟩
  · exact ⟨none, rfl⟩

theorem match_separator (h : Match (class_ [84, 116, 32]) text) :
    ∃ sep : Separator, text = [sep.byte] := by
  obtain ⟨ch, rfl, hch⟩ := match_class h
  fin_cases hch
  · exact ⟨.capital, rfl⟩
  · exact ⟨.small, rfl⟩
  · exact ⟨.space, rfl⟩

theorem match_date_time (h : Match date_time text) : ∃ stamp : Stamp, text = stamp.text := by
  obtain ⟨_, rfl, hparts⟩ := match_sequence h
  obtain _ | ⟨hyear, _ | ⟨hhyphen, _ | ⟨hmonth, hparts⟩⟩⟩ := hparts
  obtain _ | ⟨hhyphen', _ | ⟨hday, _ | ⟨hend, _ | _⟩⟩⟩ := hparts
  obtain ⟨year, rfl⟩ := match_four hyear
  obtain ⟨month, rfl⟩ := match_two hmonth
  obtain ⟨day, rfl⟩ := match_two hday
  rw [match_char hhyphen, match_char hhyphen']
  obtain h | rfl := match_optional hend
  · obtain ⟨_, rfl, hparts⟩ := match_sequence h
    obtain _ | ⟨hsep, _ | ⟨htime, _ | ⟨hoffset, _ | _⟩⟩⟩ := hparts
    obtain ⟨sep, rfl⟩ := match_separator hsep
    obtain ⟨t, rfl⟩ := match_local_time htime
    obtain ⟨o, rfl⟩ := match_offset hoffset
    exact ⟨.moment ⟨year, month, day⟩ sep t o, by simp [Stamp.text, Date.text]⟩
  · exact ⟨.date ⟨year, month, day⟩, by simp [Stamp.text, Date.text]⟩

variable {n : ℕ}

theorem scan_digit {p : Bytes} {ret : ℤ} (h : 0 ≤ scan_digits_loop (n + 1) p ret) :
    ∃ ch rest ret', p = ch :: rest ∧ isdigit ch = true ∧ 0 ≤ scan_digits_loop n rest ret' := by
  cases p with
  | nil => exact absurd (show (0 : ℤ) ≤ -1 from h) (by decide)
  | cons ch rest =>
    rw [scan_digits_loop] at h
    split at h
    · next hch => exact ⟨ch, rest, _, rfl, hch, h⟩
    · exact absurd h (by decide)

theorem scan_date_ok (h : (scan_date text).ok = true) :
    ∃ a b c d rest, text = a :: b :: c :: d :: 45 :: rest ∧ isdigit a = true ∧ isdigit b = true ∧
      isdigit c = true ∧ isdigit d = true := by
  obtain ⟨hyear, hmonth, -⟩ := of_decide_eq_true h
  obtain ⟨a, _, _, rfl, ha, hyear⟩ := scan_digit hyear
  obtain ⟨b, _, _, rfl, hb, hyear⟩ := scan_digit hyear
  obtain ⟨c, _, _, rfl, hc, hyear⟩ := scan_digit hyear
  obtain ⟨d, rest, _, rfl, hd, -⟩ := scan_digit hyear
  have hhyphen : byte_at (a :: b :: c :: d :: rest) 4 = 45 := by
    by_contra hne
    rw [if_neg fun hc => hne hc.2] at hmonth
    exact absurd hmonth (by decide)
  cases rest with
  | nil => exact absurd (show 0 = 45 from hhyphen) (by decide)
  | cons ch rest =>
    obtain rfl : ch = 45 := hhyphen
    exact ⟨a, b, c, d, rest, rfl, ha, hb, hc, hd⟩

variable {rest : Bytes}

theorem lexeme_of_head {ch : ℕ} (hspace : isspace ch = false) (hdigit : isdigit ch = false)
    (hsign : ch ≠ 43 ∧ ch ≠ 45) : Lexeme (ch :: rest) := by
  have hzero : ch ≠ 48 := by
    rintro rfl
    cases hdigit
  refine ⟨⟨List.cons_ne_nil _ _, ?_, ?_, ?_⟩, ?_⟩
  · rintro _ ⟨⟩
    exact hspace
  · rintro rest' he
    exact hzero (List.cons.inj he).1
  · rintro sign x rest' he (rfl | rfl)
    · exact absurd (List.cons.inj he).1 hsign.1
    · exact absurd (List.cons.inj he).1 hsign.2
  · intro hok
    obtain ⟨a, b, c, d, rest', he, ha, -⟩ := scan_date_ok hok
    rw [← (List.cons.inj he).1, hdigit] at ha
    cases ha

theorem lexeme_of_based {x : ℕ} (hx : x = 120 ∨ x = 111 ∨ x = 98) : Lexeme (48 :: x :: rest) := by
  refine ⟨⟨List.cons_ne_nil _ _, ?_, ?_, ?_⟩, ?_⟩
  · rintro _ ⟨⟩
    rfl
  · intro rest' he
    have := (List.cons.inj (List.cons.inj he).2).1
    omega
  · intro sign x' rest' he hsign
    have := (List.cons.inj he).1
    omega
  · intro hok
    obtain ⟨a, b, c, d, rest', he, -, hb, -⟩ := scan_date_ok hok
    rw [← (List.cons.inj (List.cons.inj he).2).1] at hb
    obtain rfl | rfl | rfl := hx <;> cases hb

theorem regular_of_two (hn : n < 100) (rest : Bytes) : Regular (two n ++ rest) := by
  rw [two_append]
  refine ⟨List.cons_ne_nil _ _, ?_, ?_, ?_⟩
  · rintro _ ⟨⟩
    simp only [isspace, Bool.or_eq_false_iff, Bool.and_eq_false_iff, decide_eq_false_iff_not]
    omega
  · intro rest' he
    have := (List.cons.inj (List.cons.inj he).2).1
    omega
  · intro sign x rest' he hsign
    have := (List.cons.inj he).1
    omega

theorem lexeme_of_stamp (stamp : Stamp) : Lexeme stamp.text := by
  refine ⟨?_, fun _ => ⟨stamp, rfl⟩⟩
  cases stamp with
  | date d =>
    rw [Stamp.text_date, Date.text_append]
    exact regular_of_two (by omega) _
  | time t =>
    rw [Stamp.text_time, Time.text_append]
    exact regular_of_two t.hour.isLt _
  | moment d sep t o =>
    rw [Stamp.text_moment, Date.text_append]
    exact regular_of_two (by omega) _

/-- The digits and the point of a float. -/
def mantissa_char (ch : ℕ) : Bool := isdigit ch || ch == 46

theorem mantissa_of_digits (h : ∀ ch ∈ text, isdigit ch = true) :
    ∀ ch ∈ text, mantissa_char ch = true := fun ch hch => by rw [mantissa_char, h ch hch, Bool.true_or]

theorem match_mantissa (h : Match (alt (seq (plus digit) (optional (seq (char 46) (star digit))))
      (seq (char 46) (plus digit))) text) : text ≠ [] ∧ ∀ ch ∈ text, mantissa_char ch = true := by
  obtain h | h := match_alt h
  · obtain ⟨digits, rest, rfl, hdigits, hrest⟩ := match_seq h
    obtain ⟨hne, hdigits⟩ := match_plus_one hdigits
    refine ⟨fun he => hne (List.append_eq_nil_iff.mp he).1, fun ch hch => ?_⟩
    obtain hch | hch := List.mem_append.mp hch
    · exact mantissa_of_digits hdigits ch hch
    · obtain hrest | rfl := match_optional hrest
      · obtain ⟨point, digits', rfl, hpoint, hdigits'⟩ := match_seq hrest
        obtain rfl := match_char hpoint
        obtain rfl | hch := List.mem_cons.mp hch
        · rfl
        · exact mantissa_of_digits (match_star_one hdigits') ch hch
      · cases hch
  · obtain ⟨point, digits, rfl, hpoint, hdigits⟩ := match_seq h
    obtain rfl := match_char hpoint
    refine ⟨List.cons_ne_nil _ _, fun ch hch => ?_⟩
    obtain rfl | hch := List.mem_cons.mp hch
    · rfl
    · exact mantissa_of_digits (match_plus_one hdigits).2 ch hch

theorem match_sign (h : Match sign text) : text = [] ∨ text = [43] ∨ text = [45] := by
  obtain h | rfl := match_optional h
  · obtain ⟨ch, rfl, hch⟩ := match_class h
    fin_cases hch
    · exact .inr (.inl rfl)
    · exact .inr (.inr rfl)
  · exact .inl rfl

/-- A sign, if there is one, digits with a point, and an exponent. -/
structure Number (sign mantissa exponent : Bytes) : Prop where
  sign_cases : sign = [] ∨ sign = [43] ∨ sign = [45]
  mantissa_ne : mantissa ≠ []
  mantissa_chars : ∀ ch ∈ mantissa, mantissa_char ch = true
  exponent_head : ∀ ch ∈ exponent.head?, ch = 101 ∨ ch = 69

theorem match_float (h : Match float text) :
    ∃ sign mantissa exponent, text = sign ++ (mantissa ++ exponent) ∧
      Number sign mantissa exponent := by
  obtain ⟨_, rfl, hparts⟩ := match_sequence h
  obtain _ | ⟨hsign, _ | ⟨hmantissa, _ | ⟨hexponent, _ | _⟩⟩⟩ := hparts
  obtain ⟨hne, hchars⟩ := match_mantissa hmantissa
  refine ⟨_, _, _, by simp; rfl, match_sign hsign, hne, hchars, fun ch hch => ?_⟩
  obtain hexponent | rfl := match_optional hexponent
  · obtain ⟨_, rest, rfl, he, -⟩ := match_seq hexponent
    obtain ⟨e, rfl, hmem⟩ := match_class he
    cases hch
    fin_cases hmem
    · exact .inl rfl
    · exact .inr rfl
  · cases hch

theorem match_decimal (h : Match (seq sign (plus digit)) text) :
    ∃ sign mantissa exponent, text = sign ++ (mantissa ++ exponent) ∧
      Number sign mantissa exponent := by
  obtain ⟨s, digits, rfl, hsign, hdigits⟩ := match_seq h
  obtain ⟨hne, hdigits⟩ := match_plus_one hdigits
  exact ⟨s, digits, [], by rw [List.append_nil], match_sign hsign, hne, mantissa_of_digits hdigits,
    fun ch hch => (nomatch hch)⟩

variable {sign mantissa exponent : Bytes}

theorem Number.dropWhile (h : Number sign mantissa exponent) :
    (mantissa ++ exponent).dropWhile mantissa_char = exponent := by
  rw [List.dropWhile_append_of_pos h.mantissa_chars]
  cases exponent with
  | nil => rfl
  | cons ch rest =>
    rw [List.dropWhile_cons_of_neg]
    obtain rfl | rfl := h.exponent_head ch rfl <;> decide

theorem Number.head (h : Number sign mantissa exponent) :
    ∃ ch rest, mantissa ++ exponent = ch :: rest ∧ mantissa_char ch = true := by
  have hchars := h.mantissa_chars
  cases mantissa with
  | nil => exact absurd rfl h.mantissa_ne
  | cons ch rest => exact ⟨ch, rest ++ exponent, rfl, hchars ch List.mem_cons_self⟩

theorem Number.stops {digits : Bytes} {ch : ℕ} (h : Number sign mantissa exponent)
    (he : mantissa ++ exponent = digits ++ ch :: rest) (hdigits : ∀ ch ∈ digits, isdigit ch = true)
    (hch : mantissa_char ch = false) : ch = 101 ∨ ch = 69 := by
  have hdrop := h.dropWhile
  rw [he, List.dropWhile_append_of_pos (mantissa_of_digits hdigits),
    List.dropWhile_cons_of_neg (by rw [hch]; exact Bool.false_ne_true)] at hdrop
  exact h.exponent_head ch (by rw [← hdrop]; rfl)

theorem lexeme_of_unsigned {mantissa exponent : Bytes} (h : Number [] mantissa exponent) :
    Lexeme (mantissa ++ exponent) := by
  obtain ⟨first, rest, hfirst, hchar⟩ := h.head
  refine ⟨⟨?_, ?_, ?_, ?_⟩, fun hok => ?_⟩
  · rw [hfirst]
    exact List.cons_ne_nil _ _
  · rw [hfirst]
    rintro _ ⟨⟩
    simp only [mantissa_char, isdigit, Bool.or_eq_true, Bool.and_eq_true, decide_eq_true_eq,
      beq_iff_eq] at hchar
    simp only [isspace, Bool.or_eq_false_iff, Bool.and_eq_false_iff, decide_eq_false_iff_not]
    omega
  · intro rest' he
    have := h.stops (show _ = [48] ++ 88 :: rest' from he) (by decide) (by decide)
    omega
  · intro sign x rest' he hsign
    rw [hfirst] at he
    rw [(List.cons.inj he).1] at hchar
    obtain rfl | rfl := hsign <;> cases hchar
  · obtain ⟨a, b, c, d, rest', he, ha, hb, hc, hd⟩ := scan_date_ok hok
    have := h.stops (show _ = [a, b, c, d] ++ 45 :: rest' from he)
      (by simp [ha, hb, hc, hd]) (by decide)
    omega

theorem lexeme_of_signed {s : ℕ} {mantissa exponent : Bytes} (h : Number [s] mantissa exponent)
    (hs : s = 43 ∨ s = 45) : Lexeme (s :: (mantissa ++ exponent)) := by
  refine ⟨⟨List.cons_ne_nil _ _, ?_, ?_, ?_⟩, fun hok => ?_⟩
  · rintro _ ⟨⟩
    obtain rfl | rfl := hs <;> rfl
  · intro rest' he
    have := (List.cons.inj he).1
    omega
  · intro sign x rest' he hsign
    have hstop := h.stops (show _ = [48] ++ x :: rest' from (List.cons.inj he).2) (by decide)
    constructor
    · rintro rfl
      have := hstop (by decide)
      omega
    · rintro rfl
      have := hstop (by decide)
      omega
  · obtain ⟨a, b, c, d, rest', he, ha, -⟩ := scan_date_ok hok
    rw [← (List.cons.inj he).1] at ha
    obtain rfl | rfl := hs <;> cases ha

theorem lexeme_of_number (h : Number sign mantissa exponent) :
    Lexeme (sign ++ (mantissa ++ exponent)) := by
  obtain rfl | rfl | rfl := h.sign_cases
  · exact @lexeme_of_unsigned mantissa exponent h
  · exact @lexeme_of_signed 43 mantissa exponent h (.inl rfl)
  · exact @lexeme_of_signed 45 mantissa exponent h (.inr rfl)

def TokenType.IsValue (type : TokenType) : Prop :=
  type = .string ∨ type = .val_int ∨ type = .val_float ∨ type = .val_bool ∨ type = .val_datetime

instance (type : TokenType) : Decidable type.IsValue := inferInstanceAs (Decidable (_ ∨ _))

variable {quote : ℕ}

theorem lexeme_of_quote (h : quote = 34 ∨ quote = 39) : Lexeme (quote :: rest) := by
  obtain rfl | rfl := h <;> exact lexeme_of_head rfl rfl (by decide)

variable {r : Regex}

theorem lexeme_of_prefix {x : ℕ} (h : Match (seq (word [48, x]) r) text)
    (hx : x = 120 ∨ x = 111 ∨ x = 98) : Lexeme text := by
  obtain ⟨first, rest, rfl, hfirst, -⟩ := match_seq h
  rw [match_word hfirst]
  exact lexeme_of_based hx

theorem lexeme_of_multi_line (h : Match (multi_line quote) text) (hquote : quote = 34 ∨ quote = 39) :
    Lexeme text := by
  obtain ⟨first, rest, rfl, hfirst, -⟩ := match_seq h
  rw [match_word hfirst]
  exact lexeme_of_quote hquote

theorem lexeme_of_quoted {rs : List Regex} (h : Match (sequence (char quote :: rs)) text)
    (hquote : quote = 34 ∨ quote = 39) : Lexeme text := by
  obtain ⟨first, rest, rfl, hfirst, -⟩ := match_seq h
  rw [match_char hfirst]
  exact lexeme_of_quote hquote

def Lexes (rule : Regex × Option TokenType) : Prop :=
  ∀ type ∈ rule.2, type.IsValue → ∀ text, Match rule.1 text → Lexeme text

theorem lexes_other {type : TokenType} (h : ¬ type.IsValue) : Lexes (r, some type) := by
  rintro _ ⟨⟩ hvalue
  exact absurd hvalue h

theorem lexes_value {type : TokenType} (h : ∀ {text}, Match r text → Lexeme text) :
    Lexes (r, some type) := fun _ _ _ _ => h

theorem lexes_error (r : Regex) : Lexes (r, none) := fun _ h => nomatch h

theorem rules_lex : ∀ rule ∈ rules, Lexes rule := by
  simp only [rules, List.forall_mem_cons, List.not_mem_nil, false_implies, implies_true, and_true]
  refine ⟨lexes_other (by decide), lexes_other (by decide), lexes_other (by decide),
    lexes_other (by decide), lexes_other (by decide), lexes_other (by decide),
    lexes_other (by decide), lexes_other (by decide), lexes_value fun h => ?true,
    lexes_value fun h => ?false, lexes_value fun h => ?time, lexes_value fun h => ?date,
    lexes_value fun h => ?float, lexes_value fun h => lexeme_of_prefix h (by decide),
    lexes_value fun h => lexeme_of_prefix h (by decide),
    lexes_value fun h => lexeme_of_prefix h (by decide), lexes_value fun h => ?decimal,
    lexes_value fun h => lexeme_of_multi_line h (by decide),
    lexes_value fun h => lexeme_of_multi_line h (by decide),
    lexes_value fun h => lexeme_of_quoted h (by decide),
    lexes_value fun h => lexeme_of_quoted h (by decide), lexes_error _, lexes_error _,
    lexes_other (by decide)⟩
  case true =>
    rw [match_word h]
    exact lexeme_of_head rfl rfl (by decide)
  case false =>
    rw [match_word h]
    exact lexeme_of_head rfl rfl (by decide)
  case time =>
    obtain ⟨t, rfl⟩ := match_local_time h
    exact lexeme_of_stamp (.time t)
  case date =>
    obtain ⟨stamp, rfl⟩ := match_date_time h
    exact lexeme_of_stamp stamp
  case float =>
    obtain ⟨_, _, _, rfl, hn⟩ := match_float h
    exact lexeme_of_number hn
  case decimal =>
    obtain ⟨_, _, _, rfl, hn⟩ := match_decimal h
    exact lexeme_of_number hn

theorem plain_string_head (h : plain_string text = some n) : ∃ rest, text.take n = 34 :: rest := by
  unfold plain_string at h
  split at h
  · split at h
    · cases h
    · split at h
      · cases h
        exact ⟨_, rfl⟩
      · cases h
  · cases h

theorem next_lexeme {cursor : Bytes} {token : Token}
    (h : toml_lexer_next cursor = some (some (token, rest))) (hvalue : token.type.IsValue) :
    Lexeme token.value := by
  unfold toml_lexer_next at h
  split at h
  · cases h
  · next ch text _ =>
    split at h
    · next n hn =>
      cases h
      obtain ⟨rest', hrest⟩ := plain_string_head hn
      rw [hrest]
      exact lexeme_of_quote (.inl rfl)
    · split at h
      · cases h
      · cases h
      · next n type hn =>
        cases h
        obtain ⟨rule, hrule, hlongest, htype⟩ := choose_mem hn
        have htext : token_text type ((ch :: text).take n) = (ch :: text).take n := by
          rw [token_text, if_neg]
          rintro rfl
          exact absurd (show TokenType.newline.IsValue from hvalue) (by decide)
        rw [htext]
        exact rules_lex rule hrule type htype hvalue _ (match_longest hlongest)

theorem tokens_lexeme {tokens : List Token} (h : toml_tokens text = some tokens) :
    ∀ token ∈ tokens, token.type.IsValue → Lexeme token.value := by
  induction tokens generalizing text with
  | nil => exact fun token htoken => nomatch htoken
  | cons token tokens ih =>
    rw [toml_tokens_eq] at h
    split at h
    · cases h
    · cases h
    · next rest hx =>
      obtain ⟨tokens', ht, he⟩ := Option.map_eq_some_iff.mp h
      obtain ⟨rfl, rfl⟩ := List.cons.inj he
      exact List.forall_mem_cons.mpr ⟨next_lexeme hx, ih ht⟩

end SaltsUtils.Toml
