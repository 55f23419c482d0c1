import Mathlib.Data.List.TakeWhile
import Mathlib.Data.Set.Basic
import Mathlib.Tactic
import SaltsUtils.Cron.Expression

/-!
# Cron fields, documented and parsed
-/

set_option autoImplicit false

/-!
## What a cron field is documented to say

A field is a list of terms, and a term names values of the field.
-/

namespace SaltsUtils.Cron

inductive Range
  | star
  | one (value : ℕ)
  | between (first last : ℕ)
deriving DecidableEq

/-- A range with the number behind its slash. -/
structure Term where
  range : Range
  step : Option ℕ
deriving DecidableEq

def decimal (digits : List Char) : ℕ :=
  digits.foldl (fun value c => value * 10 + (c.toNat - '0'.toNat)) 0

section Grammar
variable (spec : FieldSpec)

/-- A number of any length, or a name that the field knows. -/
inductive Spelt : List Char → ℕ → Prop
  | number {digits : List Char} (hne : digits ≠ []) (hd : ∀ c ∈ digits, isDigit c = true) :
      Spelt digits (decimal digits)
  | name {text : List Char} {value : ℕ} (h : cron_lookup_name spec text = some (value : ℤ)) :
      Spelt text value

inductive WrittenRange : List Char → Range → Prop
  | star : WrittenRange ['*'] .star
  | one {text : List Char} {value : ℕ} (h : Spelt spec text value) :
      WrittenRange text (.one value)
  | between {first last : List Char} {a b : ℕ} (ha : Spelt spec first a)
      (hb : Spelt spec last b) : WrittenRange (first ++ '-' :: last) (.between a b)

inductive Written : List Char → Term → Prop
  | plain {text : List Char} {range : Range} (h : WrittenRange spec text range) :
      Written text ⟨range, none⟩
  | stepped {text digits : List Char} {range : Range} (h : WrittenRange spec text range)
      (hne : digits ≠ []) (hd : ∀ c ∈ digits, isDigit c = true) :
      Written (text ++ '/' :: digits) ⟨range, some (decimal digits)⟩

/-- One or more terms with commas between them. -/
inductive Listed : List Char → List Term → Prop
  | last {text : List Char} {term : Term} (h : Written spec text term) : Listed text [term]
  | cons {text rest : List Char} {term : Term} {terms : List Term}
      (h : Written spec text term) (hs : Listed rest terms) :
      Listed (text ++ ',' :: rest) (term :: terms)

def FieldSpec.InRange (value : ℕ) : Prop := spec.min_value ≤ value ∧ value ≤ spec.max_value

/-- Sunday is 0 and 7. -/
def FieldSpec.day (value : ℕ) : ℕ := if spec.kind = .dayOfWeek ∧ value = 7 then 0 else value

def Range.Valid : Range → Prop
  | .star => True
  | .one value => spec.InRange value
  | .between first last => spec.InRange first ∧ spec.InRange last ∧ first ≤ last

def Range.start : Range → ℕ
  | .star => spec.min_value.toNat
  | .one value => value
  | .between first _ => first

def Term.Valid (term : Term) : Prop := term.range.Valid spec ∧ ∀ step ∈ term.step, 1 ≤ step

/-- A single value with a step goes on to the largest value of the field. -/
def Term.stop (term : Term) : ℕ :=
  match term.range with
  | .star => spec.max_value.toNat
  | .one value => if term.step = none then value else spec.max_value.toNat
  | .between _ last => last

def stepped (start stop step : ℕ) : Set ℕ :=
  {i | ∃ n, start ≤ n ∧ n ≤ stop ∧ step ∣ n - start ∧ spec.day n = i}

def Term.days (term : Term) : Set ℕ :=
  stepped spec (term.range.start spec) (term.stop spec) (term.step.getD 1)

def union (terms : List Term) : Set ℕ := {i | ∃ term ∈ terms, i ∈ term.days spec}

/-- The text is a list of valid terms, and these are their values. -/
def Denotes (text : List Char) (days : Set ℕ) : Prop :=
  ∃ terms, Listed spec text terms ∧ (∀ term ∈ terms, term.Valid spec) ∧ days = union spec terms

/-- The number goes through a C `int`, and 7 is made 0 before any range is formed. -/
def taken_value (value : ℕ) : Option ℕ :=
  (cron_normalize_value spec (wrapInt value)).map Int.toNat

def Range.taken : Range → Option Range
  | .star => some .star
  | .one value => (taken_value spec value).map .one
  | .between first last => do
    let first ← taken_value spec first
    let last ← taken_value spec last
    some (.between first last)

def Range.joined : Range → Range
  | .between first last => if first = last then .one first else .between first last
  | range => range

/-- The step goes through a C `int` as well, which its sum with the start must not leave. -/
def Range.stepping (range : Range) : Option ℕ → Option Term
  | none => some ⟨range, none⟩
  | some step =>
    if wrapInt step < 1 ∨ 2 ^ 31 ≤ range.start spec + wrapInt step then none
    else some ⟨range.joined, some (wrapInt step).toNat⟩

def Term.taken (term : Term) : Option Term :=
  (term.range.taken spec).bind fun range => range.stepping spec term.step

def Taken (text : List Char) (terms : List Term) : Prop :=
  ∃ written, (Listed spec text written ∨ ∃ front, text = front ++ [','] ∧ Listed spec front written) ∧
    List.Forall₂ (fun term term' => Term.taken spec term = some term') written terms

def TakenAs (text : List Char) (days : Set ℕ) : Prop :=
  ∃ terms, Taken spec text terms ∧ (∀ term ∈ terms, term.Valid spec) ∧ days = union spec terms

end Grammar

/-!
## Cron fields as the parser reads them

The parser works on one token at a time.
-/

/-- Neither a number nor a name goes on in this text. -/
def Delimited (rest : List Char) : Prop :=
  ∀ c ∈ rest.head?, isDigit c = false ∧ isLetter c = false

variable {c : Char}

theorem delimited_cons (rest : List Char) (h : c = ',' ∨ c = '-' ∨ c = '/') :
    Delimited (c :: rest) := by
  intro d hd
  cases hd
  rcases h with rfl | rfl | rfl <;> decide

variable {text rest : List Char}

theorem takeWhile_delimited {p : Char → Bool} (ht : ∀ c ∈ text, p c = true)
    (hr : ∀ c ∈ rest.head?, p c = false) : (text ++ rest).takeWhile p = text := by
  rw [List.takeWhile_append_of_pos ht]
  cases rest with
  | nil => simp
  | cons c rest => simp [hr c rfl]

theorem dropWhile_delimited {p : Char → Bool} (ht : ∀ c ∈ text, p c = true)
    (hr : ∀ c ∈ rest.head?, p c = false) : (text ++ rest).dropWhile p = rest := by
  rw [List.dropWhile_append_of_pos ht]
  cases rest with
  | nil => rfl
  | cons c rest => simp [hr c rfl]

theorem not_delimiter (h : isDigit c = true ∨ isLetter c = true) :
    c ≠ '*' ∧ c ≠ ',' ∧ c ≠ '-' ∧ c ≠ '/' := by
  refine ⟨?_, ?_, ?_, ?_⟩ <;> rintro rfl <;> revert h <;> decide

theorem bmod_add_mul (value : ℤ) (d : ℤ) :
    wrapInt (wrapInt (wrapInt value * 10) + d) = wrapInt (value * 10 + d) := by
  simp only [wrapInt, Int.bmod_add_bmod, Int.bmod_mul_bmod]

theorem digit_le (h : isDigit c = true) : '0'.toNat ≤ c.toNat := by
  simp only [isDigit, Bool.and_eq_true, decide_eq_true_eq, Char.le_def] at h
  exact h.1

theorem parse_number_wrap {digits : List Char} (hd : ∀ c ∈ digits, isDigit c = true) :
    cron_parse_number digits = wrapInt (decimal digits) := by
  have hfold : ∀ (digits : List Char) (value : ℕ), (∀ c ∈ digits, isDigit c = true) →
      digits.foldl (fun v c => wrapInt (wrapInt (v * 10) + (c.toNat - '0'.toNat)))
          (wrapInt value) =
        wrapInt (digits.foldl (fun v c => v * 10 + (c.toNat - '0'.toNat)) value : ℕ) := by
    intro digits
    induction digits with
    | nil =>
      intro value _
      rw [List.foldl_nil, List.foldl_nil]
    | cons c digits ih =>
      intro value hd
      have hc := digit_le (hd c (by simp))
      rw [List.foldl_cons, List.foldl_cons, ← ih _ fun d h => hd d (by simp [h]), bmod_add_mul]
      congr 2
      rw [Nat.cast_add, Nat.cast_mul, Nat.cast_sub hc]
      rfl
  exact hfold digits 0 hd

theorem lexer_number {digits : List Char} (hne : digits ≠ []) (hd : ∀ c ∈ digits, isDigit c = true)
    (hr : Delimited rest) :
    cron_lexer_next (digits ++ rest) = (⟨.number, digits, wrapInt (decimal digits)⟩, rest) := by
  cases digits with
  | nil => contradiction
  | cons c digits =>
    have hc := hd c (by simp)
    obtain ⟨h₁, h₂, h₃, h₄⟩ := not_delimiter (.inl hc)
    have ht : ∀ c ∈ digits, isDigit c = true := fun d h => hd d (by simp [h])
    rw [List.cons_append, cron_lexer_next, if_neg h₁, if_neg h₂, if_neg h₃, if_neg h₄, if_pos hc,
      takeWhile_delimited ht fun c h => (hr c h).1, dropWhile_delimited ht fun c h => (hr c h).1]
    dsimp only
    rw [parse_number_wrap hd]

theorem lexer_name (hc : isLetter c = true) (ht : ∀ d ∈ text, (isLetter d || isDigit d) = true)
    (hr : Delimited rest) :
    cron_lexer_next (c :: text ++ rest) = (⟨.name, c :: text, 0⟩, rest) := by
  obtain ⟨h₁, h₂, h₃, h₄⟩ := not_delimiter (.inr hc)
  have hdigit : isDigit c = false := by
    by_contra hdc
    rw [Bool.not_eq_false] at hdc
    simp only [isDigit, isLetter, Bool.and_eq_true, Bool.or_eq_true, decide_eq_true_eq,
      Char.le_def, UInt32.le_iff_toNat_le] at hdc hc
    revert hc hdc
    simp
    omega
  have hrest : ∀ d ∈ rest.head?, (isLetter d || isDigit d) = false := by
    intro d hd
    simp [hr d hd]
  rw [List.cons_append, cron_lexer_next, if_neg h₁, if_neg h₂, if_neg h₃, if_neg h₄,
    if_neg (by simp [hdigit]), if_pos hc, takeWhile_delimited ht hrest,
    dropWhile_delimited ht hrest]

theorem lexer_text (text : List Char) :
    text = (cron_lexer_next text).1.text ++ (cron_lexer_next text).2 := by
  cases text with
  | nil => rfl
  | cons c rest =>
    rw [cron_lexer_next]
    split_ifs
    all_goals first
      | rfl
      | simp [List.takeWhile_append_dropWhile]

theorem lexer_kind (text : List Char) :
    match (cron_lexer_next text).1.kind with
    | .eof => text = []
    | .star => (cron_lexer_next text).1.text = ['*']
    | .comma => (cron_lexer_next text).1.text = [',']
    | .dash => (cron_lexer_next text).1.text = ['-']
    | .slash => (cron_lexer_next text).1.text = ['/']
    | .number => (cron_lexer_next text).1.text ≠ [] ∧
      (∀ c ∈ (cron_lexer_next text).1.text, isDigit c = true) ∧
      (cron_lexer_next text).1.number = wrapInt (decimal (cron_lexer_next text).1.text)
    | _ => True := by
  cases text with
  | nil => rfl
  | cons c rest =>
    rw [cron_lexer_next]
    by_cases h₁ : c = '*'
    · simp [h₁]
    by_cases h₂ : c = ','
    · simp [h₂]
    by_cases h₃ : c = '-'
    · simp [h₃]
    by_cases h₄ : c = '/'
    · simp [h₄]
    by_cases h₅ : isDigit c
    · have hd : ∀ d ∈ c :: rest.takeWhile isDigit, isDigit d = true := by
        intro d hd
        rcases List.mem_cons.mp hd with rfl | hd
        · exact h₅
        · exact List.mem_takeWhile_imp hd
      simp only [if_neg h₁, if_neg h₂, if_neg h₃, if_neg h₄, if_pos h₅]
      exact ⟨List.cons_ne_nil _ _, hd, parse_number_wrap hd⟩
    · simp only [if_neg h₁, if_neg h₂, if_neg h₃, if_neg h₄, if_neg h₅]
      split_ifs <;> trivial

structure FieldSpec.Regular (spec : FieldSpec) : Prop where
  min_nonneg : 0 ≤ spec.min_value
  min_lt : spec.min_value < spec.max_value
  max_le : spec.max_value ≤ 59
  week : spec.kind = .dayOfWeek → spec.min_value = 0 ∧ spec.max_value = 7

theorem cronSpecs_regular {spec : FieldSpec} (h : spec ∈ cronSpecs) : spec.Regular := by
  simp only [cronSpecs, List.mem_cons, List.not_mem_nil, or_false] at h
  rcases h with rfl | rfl | rfl | rfl | rfl <;> constructor <;> decide

section Values
variable {spec : FieldSpec}

theorem normalize_eq_some (hspec : spec.Regular) {raw value : ℤ} :
    cron_normalize_value spec raw = some value ↔
      (spec.min_value ≤ raw ∧ raw ≤ spec.max_value) ∧ value = spec.day raw.toNat := by
  have hmin := hspec.min_nonneg
  unfold cron_normalize_value FieldSpec.day
  by_cases hk : spec.kind = .dayOfWeek
  · obtain ⟨h₁, h₂⟩ := hspec.week hk
    rw [if_pos hk, h₁, h₂]
    split_ifs <;> simp_all <;> omega
  · rw [if_neg hk]
    split_ifs <;> simp_all <;> omega

variable {n : ℕ}

theorem day_le (hspec : spec.Regular) (hn : n ≤ spec.max_value) :
    (spec.day n : ℤ) ≤ spec.max_value := by
  unfold FieldSpec.day
  split_ifs <;> omega

theorem day_inRange (hspec : spec.Regular) (hn : spec.InRange n) : spec.InRange (spec.day n) := by
  refine ⟨?_, day_le hspec hn.2⟩
  unfold FieldSpec.day
  split_ifs with h
  · rw [(hspec.week h.1).1]
    exact le_rfl
  · exact hn.1

theorem taken_value_eq_some (hspec : spec.Regular) {value : ℕ} : taken_value spec value = some n ↔
      (spec.min_value ≤ wrapInt value ∧ wrapInt value ≤ spec.max_value) ∧
        n = spec.day (wrapInt value).toNat := by
  unfold taken_value
  constructor
  · intro h
    obtain ⟨v, hv, rfl⟩ := Option.map_eq_some_iff.mp h
    obtain ⟨hr, rfl⟩ := (normalize_eq_some hspec).mp hv
    exact ⟨hr, rfl⟩
  · rintro ⟨hr, rfl⟩
    rw [(normalize_eq_some hspec).mpr ⟨hr, rfl⟩]
    rfl

theorem taken_value_inRange (hspec : spec.Regular) {value : ℕ} (h : taken_value spec value = some n) :
    spec.InRange n := by
  have hmin := hspec.min_nonneg
  obtain ⟨hr, rfl⟩ := (taken_value_eq_some hspec).mp h
  exact day_inRange hspec ⟨by omega, by omega⟩

def bitValues (bits : BitVec 64) : Set ℕ := {i | bits.getLsbD i = true}

theorem apply_raw_value_set (hspec : spec.Regular) (bits : BitVec 64) (hn : spec.InRange n) :
    ∃ bits', cron_apply_raw_value spec bits n = some bits' ∧
      bitValues bits' = bitValues bits ∪ {spec.day n} := by
  have hday := day_le hspec hn.2
  have hmax := hspec.max_le
  refine ⟨bits ||| (1#64 <<< (spec.day n : ℤ).toNat), ?_, ?_⟩
  · unfold cron_apply_raw_value
    rw [(normalize_eq_some hspec).mpr ⟨hn, rfl⟩]
    rfl
  · ext i
    simp only [bitValues, Set.mem_ofPred_eq, BitVec.getLsbD_or, Bool.or_eq_true, Set.mem_union,
      Set.mem_singleton_iff, getLsbD_one_shiftLeft, Int.toNat_natCast]
    exact or_congr_right ⟨And.right, fun h => ⟨by omega, h⟩⟩

variable {start stop step : ℕ}

theorem stepped_empty (h : stop < start) : stepped spec start stop step = ∅ := by
  ext i
  simp only [stepped, Set.mem_ofPred_eq, Set.mem_empty_iff_false, iff_false]
  rintro ⟨n, h₁, h₂, -⟩
  omega

theorem stepped_first (h : start ≤ stop) (hs : 1 ≤ step) : stepped spec start stop step =
      {spec.day start} ∪ stepped spec (start + step) stop step := by
  ext i
  simp only [stepped, Set.mem_ofPred_eq, Set.mem_union, Set.mem_singleton_iff]
  constructor
  · rintro ⟨n, h₁, h₂, hd, rfl⟩
    rcases Nat.lt_or_ge start n with hlt | hge
    · have hle := Nat.le_of_dvd (by omega) hd
      refine .inr ⟨n, by omega, h₂, ?_, rfl⟩
      have hsub : n - (start + step) = n - start - step := by omega
      rw [hsub]
      exact Nat.dvd_sub hd dvd_rfl
    · exact .inl (congrArg spec.day (by omega : n = start))
  · rintro (rfl | ⟨n, h₁, h₂, hd, rfl⟩)
    · exact ⟨start, le_rfl, h, by simp, rfl⟩
    · refine ⟨n, by omega, h₂, ?_, rfl⟩
      have hsub : n - start = n - (start + step) + step := by omega
      rw [hsub]
      exact Nat.dvd_add hd dvd_rfl

theorem wrapInt_small {z : ℤ} (h₀ : 0 ≤ z) (h : z < 2 ^ 31) : wrapInt z = z := by
  unfold wrapInt
  rw [Int.bmod_eq_of_le (by omega) (by omega)]

theorem wrapInt_over {z : ℤ} (h₀ : 2 ^ 31 ≤ z) (h : z < 2 ^ 32) : wrapInt z < 0 := by
  unfold wrapInt
  rw [Int.bmod_def]
  omega

theorem wrapInt_lt (z : ℤ) : wrapInt z < 2 ^ 31 := by
  unfold wrapInt
  rw [Int.bmod_def]
  split_ifs <;> omega

theorem apply_range_loop_set (hspec : spec.Regular) (hstop : stop ≤ spec.max_value) (hs : 1 ≤ step)
    (fuel : ℕ) : ∀ (raw : ℕ) (bits : BitVec 64), spec.min_value ≤ raw → stop + 1 < fuel + raw →
      (raw ≤ stop → raw + step < 2 ^ 31) →
      ∃ bits', cron_apply_range_loop spec stop step fuel raw bits = .ok bits' ∧
        bitValues bits' = bitValues bits ∪ stepped spec raw stop step := by
  have hmax := hspec.max_le
  induction fuel with
  | zero =>
    intro raw bits _ hfuel _
    refine ⟨bits, rfl, ?_⟩
    rw [stepped_empty (by omega), Set.union_empty]
  | succ fuel ih =>
    intro raw bits hraw hfuel hsum
    rw [cron_apply_range_loop]
    by_cases h : raw ≤ stop
    · obtain ⟨bits₁, happly, hset⟩ := apply_raw_value_set hspec bits (n := raw) ⟨hraw, by omega⟩
      have hwrap : wrapInt ((raw : ℤ) + step) = ((raw + step : ℕ) : ℤ) := by
        rw [Nat.cast_add, wrapInt_small] <;> omega
      obtain ⟨bits₂, hloop, hset₂⟩ := ih (raw + step) bits₁ (by omega) (by omega) (by omega)
      refine ⟨bits₂, ?_, ?_⟩
      · rw [if_pos (by omega), happly]
        dsimp only
        rw [hwrap, hloop]
      · rw [hset₂, hset, stepped_first h hs, Set.union_assoc]
    · refine ⟨bits, if_neg (by omega), ?_⟩
      rw [stepped_empty (by omega), Set.union_empty]

theorem apply_range_set (hspec : spec.Regular) (bits : BitVec 64) {step : ℤ}
    (hstart : spec.InRange start) (hstop : stop ≤ spec.max_value) (hstep : step < 2 ^ 31) :
    if 1 ≤ step ∧ start ≤ stop ∧ start + step < 2 ^ 31 then
      ∃ bits', cron_apply_range spec bits start stop step = .ok bits' ∧
        bitValues bits' = bitValues bits ∪ stepped spec start stop step.toNat
    else ∃ e, cron_apply_range spec bits start stop step = .error e := by
  have hmax := hspec.max_le
  unfold cron_apply_range
  by_cases h₁ : step ≤ 0
  · rw [if_neg (by omega), if_pos h₁]
    exact ⟨_, rfl⟩
  by_cases h₂ : (start : ℤ) > stop
  · rw [if_neg (by omega), if_neg h₁, if_pos h₂]
    exact ⟨_, rfl⟩
  rw [if_neg h₁, if_neg h₂]
  obtain ⟨n, rfl⟩ := Int.eq_ofNat_of_zero_le (by omega : 0 ≤ step)
  have hn : 1 ≤ n := by omega
  by_cases h₃ : (start : ℤ) + n < 2 ^ 31
  · rw [if_pos (by omega), Int.toNat_natCast]
    exact apply_range_loop_set hspec hstop hn _ start bits hstart.1 (by omega) (by omega)
  · rw [if_neg (by omega)]
    obtain ⟨bits₁, happly, -⟩ := apply_raw_value_set hspec bits hstart
    have hneg : wrapInt ((start : ℤ) + n) < 0 := wrapInt_over (by omega) (by omega)
    have hnone : cron_apply_raw_value spec bits₁ (wrapInt ((start : ℤ) + n)) = none := by
      unfold cron_apply_raw_value
      rw [Option.map_eq_none_iff, Option.eq_none_iff_forall_ne_some]
      intro value hvalue
      have := ((normalize_eq_some hspec).mp hvalue).1.1
      have := hspec.min_nonneg
      omega
    obtain ⟨fuel, hfuel⟩ : ∃ fuel, ((stop : ℤ) - start + 2).toNat = fuel + 2 :=
      ⟨((stop : ℤ) - start).toNat, by omega⟩
    rw [hfuel, cron_apply_range_loop, if_pos (by omega), happly]
    dsimp only
    rw [cron_apply_range_loop, if_pos (by omega), hnone]
    exact ⟨_, rfl⟩

end Values

end SaltsUtils.Cron
