import Mathlib.Data.List.TakeWhile
import SaltsUtils.Toml.Denotations

/-!
# Integers and booleans read again

`strtoll` takes a text as a whole if all of it are digits of its base. What it then makes of
the text is compared with what the text denotes.
-/

set_option autoImplicit false

namespace SaltsUtils.Toml

/-- What the lexemes of plain values are, as far as integers depend on it. -/
structure Regular (text : Bytes) : Prop where
  nonempty : text ≠ []
  no_space : ∀ ch ∈ text.head?, isspace ch = false
  no_capital : ∀ rest, text ≠ 48 :: 88 :: rest
  no_signed_hex : ∀ sign x rest, text = sign :: 48 :: x :: rest → sign = 43 ∨ sign = 45 →
    x ≠ 120 ∧ x ≠ 88

theorem clamped_eq {n : ℤ} : clamped n = n ↔ InRange n := by
  unfold clamped InRange LLONG_MIN LLONG_MAX
  omega

theorem drop_takeWhile (p : ℕ → Bool) (text : Bytes) :
    text.drop (text.takeWhile p).length = [] ↔ text.all p = true := by
  induction text with
  | nil => exact ⟨fun _ => rfl, fun _ => rfl⟩
  | cons ch text ih =>
    rw [List.all_cons]
    by_cases h : p ch = true
    · rw [List.takeWhile_cons_of_pos h, h, Bool.true_and]
      exact ih
    · rw [List.takeWhile_cons_of_neg h, Bool.eq_false_iff.mpr h, Bool.false_and]
      exact ⟨fun hc => absurd hc (List.cons_ne_nil _ _), fun hc => absurd hc Bool.false_ne_true⟩

variable {text : Bytes}

theorem takeWhile_all {p : ℕ → Bool} (h : text.all p = true) : text.takeWhile p = text :=
  List.takeWhile_eq_self_iff.mpr (List.all_eq_true.mp h)

variable {rest : Bytes}

theorem value_int_of {src : Bytes} {n : ℤ} (h : strtoll src = (n, rest)) :
    toml_value_int src = if rest = [] then some n else none := by
  simp only [toml_value_int, h]

theorem strtoll_eq (h : Regular text) {negative : Bool} {unsigned digits : Bytes} {base : ℕ}
    (hs : sign_of text = (negative, unsigned)) (hb : base_of unsigned = (base, digits)) :
    strtoll text =
      if digits.takeWhile (digit_below base) = [] then (0, text)
      else (clamped (signed_value negative (digits_value base (digits.takeWhile (digit_below base)))),
        digits.drop (digits.takeWhile (digit_below base)).length) := by
  have hspace : text.dropWhile isspace = text := by
    cases text with
    | nil => rfl
    | cons ch rest =>
      exact List.dropWhile_cons_of_neg (by rw [h.no_space ch rfl]; exact Bool.false_ne_true)
  rw [strtoll, hspace, hs]
  dsimp only
  rw [hb]

theorem value_int_eq (h : Regular text) {negative : Bool} {unsigned digits : Bytes} {base : ℕ}
    (hs : sign_of text = (negative, unsigned)) (hb : base_of unsigned = (base, digits)) :
    toml_value_int text =
      (based base digits).map fun n => clamped (if negative then -n else n) := by
  have hread := strtoll_eq h hs hb
  rw [based]
  by_cases hall : digits.all (digit_below base) = true
  · rw [takeWhile_all hall] at hread
    by_cases hne : digits = []
    · rw [if_pos hne] at hread
      rw [value_int_of hread, if_neg h.nonempty, if_neg fun hc => hc.1 hne]
      rfl
    · rw [if_neg hne] at hread
      rw [value_int_of hread, if_pos List.drop_length, if_pos ⟨hne, hall⟩, signed_value]
      rfl
  · have hnot : ¬ (digits ≠ [] ∧ digits.all (digit_below base) = true) := fun hc => hall hc.2
    rw [if_neg hnot]
    by_cases hnil : digits.takeWhile (digit_below base) = []
    · rw [if_pos hnil] at hread
      rw [value_int_of hread, if_neg h.nonempty]
      rfl
    · rw [if_neg hnil] at hread
      rw [value_int_of hread, if_neg (mt (drop_takeWhile _ _).mp hall)]
      rfl

theorem exact_none : IntExact none text ↔ ∀ n ∈ toml_integer text, ¬ InRange n := by
  constructor
  · intro h n hn hr
    cases (h n).mpr ⟨hn, hr⟩
  · intro h n
    exact ⟨fun hn => (nomatch hn), fun hn => absurd hn.2 (h n hn.1)⟩

theorem exact_clamped :
    IntExact ((toml_integer text).map clamped) text ↔ ∀ n ∈ toml_integer text, InRange n := by
  cases hi : toml_integer text with
  | none =>
    refine ⟨fun _ n hn => (nomatch hn), fun _ n => ⟨fun hn => (nomatch hn), fun hn => ?_⟩⟩
    rw [hi] at hn
    cases hn.1
  | some m =>
    constructor
    · intro h n hn
      cases hn
      obtain ⟨hm, hr⟩ := (h (clamped m)).mp rfl
      rw [hi] at hm
      rw [Option.some.inj hm]
      exact hr
    · intro h n
      have hm : clamped m = m := clamped_eq.mpr (h m rfl)
      rw [Option.map_some, hm, hi]
      exact ⟨fun hn => ⟨hn, Option.some.inj hn ▸ h m rfl⟩, fun hn => hn.1⟩

theorem exact_of_same (hb : octal_or_binary text = false) (hz : leading_zero text = false)
    (h : toml_value_int text = (toml_integer text).map clamped) :
    IntExact (toml_value_int text) text ↔ ¬ IntMisread text := by
  rw [h, exact_clamped, IntMisread, hz, hb]
  simp only [Bool.false_eq_true, if_false, or_false, not_exists, not_and, not_not]

theorem exact_of_none (hb : toml_integer text ≠ none → octal_or_binary text = true)
    (hz : leading_zero text = false) (h : toml_value_int text = none) :
    IntExact (toml_value_int text) text ↔ ¬ IntMisread text := by
  rw [h, exact_none, IntMisread, hz]
  simp only [Bool.false_eq_true, or_false, not_exists, not_and]
  refine forall_congr' fun n => forall_congr' fun hn => ?_
  rw [if_pos (hb fun hnone => nomatch hnone.symm.trans hn)]

theorem toml_integer_decimal (h : ∀ x rest, text = 48 :: x :: rest → x ≠ 120 ∧ x ≠ 111 ∧ x ≠ 98) :
    toml_integer text = decimal (sign_of text).1 (sign_of text).2 := by
  unfold toml_integer
  split
  · exact absurd rfl (h 120 _ rfl).1
  · exact absurd rfl (h 111 _ rfl).2.1
  · exact absurd rfl (h 98 _ rfl).2.2
  · rfl

theorem octal_or_binary_head (h : text.head? ≠ some 48) : octal_or_binary text = false := by
  cases text with
  | nil => rfl
  | cons ch rest =>
    have hch : ch ≠ 48 := fun he => h (congrArg some he)
    cases rest <;> simp [octal_or_binary, hch]

theorem sign_of_cases (text : Bytes) :
    (∃ sign, (sign = 43 ∨ sign = 45) ∧ text = sign :: (sign_of text).2) ∨
      sign_of text = (false, text) := by
  unfold sign_of
  split
  · exact .inl ⟨45, .inr rfl, rfl⟩
  · exact .inl ⟨43, .inl rfl, rfl⟩
  · exact .inr rfl

theorem exact_decimal (h : Regular text) (hu : (sign_of text).2.head? ≠ some 48) :
    IntExact (toml_value_int text) text ↔ ¬ IntMisread text := by
  have hhead : text.head? ≠ some 48 := by
    obtain ⟨sign, hsign, ht⟩ | ht := sign_of_cases text
    · rw [ht]
      rintro ⟨⟩
      omega
    · rw [ht] at hu
      exact hu
  have hbase : base_of (sign_of text).2 = (10, (sign_of text).2) := by
    unfold base_of
    split
    · next he => exact absurd (congrArg List.head? he) hu
    · next he => exact absurd (congrArg List.head? he) hu
    · rfl
  refine exact_of_same (octal_or_binary_head hhead) ?_ ?_
  · unfold leading_zero
    split
    · next he => exact absurd (congrArg List.head? he) hu
    · rfl
  · rw [value_int_eq h rfl hbase, toml_integer_decimal fun x rest ht =>
    absurd (congrArg List.head? ht) hhead,
      decimal, if_neg fun hc => hu hc.1, Option.map_map]
    rfl

theorem exact_hex {d : ℕ} (h : Regular (48 :: 120 :: d :: rest)) (hd : digit_below 16 d = true) :
    IntExact (toml_value_int (48 :: 120 :: d :: rest)) (48 :: 120 :: d :: rest) ↔
      ¬ IntMisread (48 :: 120 :: d :: rest) := by
  have hbase : base_of (48 :: 120 :: d :: rest) = (16, d :: rest) := by
    rw [base_of, if_pos ⟨.inl rfl, hd⟩]
  refine exact_of_same ?_ rfl ?_
  · simp [octal_or_binary]
  · rw [value_int_eq h rfl hbase, toml_integer]
    rfl

theorem exact_octal {x : ℕ} (h : Regular text) (hu : (sign_of text).2 = 48 :: x :: rest)
    (hbase : base_of (48 :: x :: rest) = (8, 48 :: x :: rest)) :
    IntExact (toml_value_int text) text ↔ ¬ IntMisread text := by
  have hvalue := value_int_eq h (show sign_of text =
    ((sign_of text).1, 48 :: x :: rest) by rw [← hu]) hbase
  have hzero : leading_zero text = (x :: rest).all (digit_below 8) := by
    unfold leading_zero
    rw [hu]
    rfl
  have hnone : ∀ negative, decimal negative (48 :: x :: rest) = none := fun negative =>
    if_pos ⟨rfl, fun he => nomatch (List.cons.inj he).2⟩
  have hplain : ∀ x' rest', text = 48 :: x' :: rest' → x' = x ∧ rest' = rest := by
    intro x' rest' ht
    obtain ⟨sign, hsign, hs⟩ | hs := sign_of_cases text
    · rw [ht] at hs
      have := (List.cons.inj hs).1
      omega
    · rw [hs, ht] at hu
      obtain ⟨hx, hr⟩ := List.cons.inj (List.cons.inj hu).2
      exact ⟨hx, hr⟩
  by_cases hall : (x :: rest).all (digit_below 8) = true
  · have hx : digit_below 8 x = true := List.all_eq_true.mp hall x List.mem_cons_self
    have hint : toml_integer text = none := by
      rw [toml_integer_decimal, hu, hnone]
      intro x' rest' ht
      rw [(hplain x' rest' ht).1]
      refine ⟨?_, ?_, ?_⟩ <;> rintro rfl <;> exact absurd hx (by decide)
    have hbased : based 8 (48 :: x :: rest) = some (digits_value 8 (48 :: x :: rest) : ℤ) :=
      if_pos ⟨List.cons_ne_nil _ _, hall⟩
    rw [hbased, Option.map_some] at hvalue
    refine iff_of_false (fun he => ?_) (not_not.mpr (.inr (hzero.trans hall)))
    have := ((he _).mp hvalue).1
    rw [hint] at this
    cases this
  · have hbased : based 8 (48 :: x :: rest) = none := if_neg fun hc => hall hc.2
    rw [hbased] at hvalue
    refine exact_of_none (fun hi => ?_) (hzero.trans (Bool.eq_false_iff.mpr hall)) hvalue
    by_contra hb
    rw [toml_integer_decimal, hu, hnone] at hi
    · exact hi rfl
    · rintro x' rest' rfl
      obtain ⟨rfl, rfl⟩ := hplain x' rest' rfl
      refine ⟨?_, ?_, ?_⟩
      · rintro rfl
        refine hi ?_
        rw [toml_integer, based, if_neg]
        rintro ⟨hne, hd⟩
        cases rest' with
        | nil => exact hne rfl
        | cons d rest' =>
          have hd' := List.all_eq_true.mp hd d List.mem_cons_self
          rw [base_of, if_pos ⟨.inl rfl, hd'⟩] at hbase
          cases hbase
      · rintro rfl
        exact hb rfl
      · rintro rfl
        exact hb rfl

theorem exact_zero (hu : (sign_of text).2 = [48]) :
    IntExact (toml_value_int text) text ↔ ¬ IntMisread text := by
  obtain ⟨sign, rfl | rfl, ht⟩ | ht := sign_of_cases text
  · rw [ht, hu]
    exact exact_of_same rfl rfl (by decide)
  · rw [ht, hu]
    exact exact_of_same rfl rfl (by decide)
  · rw [ht] at hu
    obtain rfl : text = [48] := hu
    exact exact_of_same rfl rfl (by decide)

theorem int_exact_iff (h : Regular text) :
    IntExact (toml_value_int text) text ↔ ¬ IntMisread text := by
  by_cases hhead : (sign_of text).2.head? = some 48
  · obtain ⟨rest, hu⟩ : ∃ rest, (sign_of text).2 = 48 :: rest := by
      cases hu : (sign_of text).2 with
      | nil => rw [hu] at hhead; cases hhead
      | cons ch rest =>
        rw [hu] at hhead
        exact ⟨rest, congrArg (· :: rest) (Option.some.inj hhead)⟩
    match rest, hu with
    | [], hu => exact exact_zero hu
    | [x], hu => exact exact_octal h hu rfl
    | x :: d :: rest, hu =>
      by_cases hhex : (x = 120 ∨ x = 88) ∧ digit_below 16 d = true
      · obtain ⟨hx, hd⟩ := hhex
        obtain ⟨sign, hsign, ht⟩ | ht := sign_of_cases text
        · have := h.no_signed_hex sign x (d :: rest) (by rw [← hu]; exact ht) hsign
          omega
        · rw [ht] at hu
          obtain rfl : text = 48 :: x :: d :: rest := hu
          obtain rfl | rfl := hx
          · exact exact_hex h hd
          · exact absurd rfl (h.no_capital (d :: rest))
      · exact exact_octal h hu (by rw [base_of, if_neg hhex])
  · exact exact_decimal h hhead

theorem bool_exact (text : Bytes) : BoolExact (toml_value_bool text) text := by
  intro b
  rw [toml_value_bool]
  by_cases ht : text = true_text
  · rw [if_pos ht, ht]
    cases b
    · exact ⟨fun h => (nomatch h), fun h => absurd h (by decide)⟩
    · exact ⟨fun _ => rfl, fun _ => rfl⟩
  · rw [if_neg ht]
    by_cases hf : text = false_text
    · rw [if_pos hf, hf]
      cases b
      · exact ⟨fun _ => rfl, fun _ => rfl⟩
      · exact ⟨fun h => (nomatch h), fun h => absurd h (by decide)⟩
    · rw [if_neg hf]
      cases b
      · exact ⟨fun h => (nomatch h), fun h => absurd h hf⟩
      · exact ⟨fun h => (nomatch h), fun h => absurd h ht⟩

end SaltsUtils.Toml
