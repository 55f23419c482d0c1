import Mathlib.Data.Int.Log
import Mathlib.Data.List.DropRight
import Mathlib.Data.Rat.Floor
import Mathlib.Algebra.Order.Field.Power
import Mathlib.Tactic.FieldSimp
import Mathlib.Tactic.Linarith
import Mathlib.Tactic.Positivity
import SaltsUtils.Library.Decimal

/-!
# Doubles and their decimal texts

A finite double has a sign and the exact value of its significand and exponent.
-/

set_option autoImplicit false

namespace SaltsUtils.Binary64

def Representable (q : ℚ) : Prop :=
  ∃ (m : ℕ) (e : ℤ), m < 2 ^ 53 ∧ -1074 ≤ e ∧ e ≤ 971 ∧ q = m * 2 ^ e

variable {n : ℕ}

theorem Representable.nat (h : n ≤ 2 ^ 53) : Representable n := by
  by_cases hn : n < 2 ^ 53
  · exact ⟨n, 0, hn, by decide, by decide, by rw [zpow_zero, mul_one]⟩
  · refine ⟨2 ^ 52, 1, by decide, by decide, by decide, ?_⟩
    rw [show n = 2 ^ 53 by omega]
    norm_num

theorem Representable.nonneg {q : ℚ} (h : Representable q) : 0 ≤ q := by
  obtain ⟨m, e, -, -, -, rfl⟩ := h
  positivity

inductive Double where
  | nan
  | infinity (negative : Bool)
  | finite (negative : Bool) (magnitude : ℚ) (h : Representable magnitude)
  deriving DecidableEq

def signed (negative : Bool) (q : ℚ) : ℚ := if negative then -q else q

namespace Double

def isfinite : Double → Bool
  | .finite .. => true
  | _ => false

def signbit : Double → Bool
  | .nan => false
  | .infinity negative => negative
  | .finite negative _ _ => negative

/-- The value of a finite double. -/
def value : Double → Option ℚ
  | .finite negative magnitude _ => some (signed negative magnitude)
  | _ => none

def le : Double → Double → Bool
  | .nan, _ => false
  | _, .nan => false
  | .infinity a, .infinity b => a || !b
  | .infinity a, .finite .. => a
  | .finite .., .infinity b => !b
  | .finite a p _, .finite b q _ => signed a p ≤ signed b q

/-- Zeros of both signs are equal and no NaN is equal to anything. -/
def eq (a b : Double) : Bool := a.le b && b.le a

/-- The conversion of an integer that needs no rounding. -/
def ofInt (n : ℤ) (h : n.natAbs ≤ 2 ^ 53) : Double := .finite (n < 0) n.natAbs (.nat h)

/-- The conversion to an integer drops the fraction. -/
def trunc : Double → ℤ
  | .finite negative magnitude _ => if negative then -⌊magnitude⌋ else ⌊magnitude⌋
  | _ => 0

theorem signed_natAbs (n : ℤ) : signed (n < 0) n.natAbs = n := by
  by_cases h : n < 0
  · rw [signed, if_pos (decide_eq_true h), Nat.cast_natAbs, abs_of_neg h, Int.cast_neg, neg_neg]
  · rw [signed, if_neg (by simpa using h), Nat.cast_natAbs, abs_of_nonneg (by omega)]

theorem value_ofInt (n : ℤ) (h : n.natAbs ≤ 2 ^ 53) : (ofInt n h).value = some (n : ℚ) :=
  congrArg some (signed_natAbs n)

/-- Equal doubles are the same, up to the sign of a zero. -/
theorem eq_finite {a b : Bool} {p q : ℚ} {hp : Representable p} {hq : Representable q}
    (h : (finite a p hp).eq (finite b q hq) = true) : signed a p = signed b q := by
  simp only [eq, le, Bool.and_eq_true, decide_eq_true_eq] at h
  exact le_antisymm h.1 h.2

end Double

def nearest (q : ℚ) : ℕ :=
  let n := ⌊q⌋₊
  if q - n < 1 / 2 then n
  else if 1 / 2 < q - n then n + 1
  else if n % 2 = 0 then n else n + 1

theorem nearest_cases (q : ℚ) :
    (nearest q = ⌊q⌋₊ ∧ q - ⌊q⌋₊ ≤ 1 / 2) ∨ (nearest q = ⌊q⌋₊ + 1 ∧ 1 / 2 ≤ q - ⌊q⌋₊) := by
  unfold nearest
  dsimp only
  split_ifs with hlow hhigh heven
  · exact .inl ⟨rfl, hlow.le⟩
  · exact .inr ⟨rfl, hhigh.le⟩
  · exact .inl ⟨rfl, not_lt.mp hhigh⟩
  · exact .inr ⟨rfl, not_lt.mp hlow⟩

theorem nearest_natCast (n : ℕ) : nearest n = n := by
  rw [nearest, Nat.floor_natCast, sub_self]
  exact if_pos (by norm_num)

theorem nearest_close {q : ℚ} (h : 0 ≤ q) : |q - nearest q| ≤ 1 / 2 := by
  have hfloor : (⌊q⌋₊ : ℚ) ≤ q := Nat.floor_le h
  have hceil : q < ⌊q⌋₊ + 1 := Nat.lt_floor_add_one q
  obtain ⟨hn, hle⟩ | ⟨hn, hle⟩ := nearest_cases q
  · rw [hn, abs_of_nonneg (by linarith)]
    exact hle
  · rw [hn, Nat.cast_add, Nat.cast_one, abs_of_nonpos (by linarith)]
    linarith

theorem nearest_le {q : ℚ} (h0 : 0 ≤ q) (h : q < n) : nearest q ≤ n := by
  have hfloor : ⌊q⌋₊ < n := (Nat.floor_lt h0).mpr h
  obtain ⟨hn, -⟩ | ⟨hn, -⟩ := nearest_cases q <;> omega

theorem le_nearest {q : ℚ} (h : n ≤ q) : n ≤ nearest q := by
  have hfloor : n ≤ ⌊q⌋₊ := Nat.le_floor h
  obtain ⟨hn, -⟩ | ⟨hn, -⟩ := nearest_cases q <;> omega

/-- The first 17 digits of a number, as one number, and the exponent of the first. -/
def significant (q : ℚ) : ℕ × ℤ :=
  let x := Int.log 10 q
  let n := nearest (q * 10 ^ (16 - x))
  if n = 10 ^ 17 then (10 ^ 16, x + 1) else (n, x)

section
variable {q : ℚ}

theorem scaled_bounds (h : 0 < q) :
    (10 : ℚ) ^ 16 ≤ q * 10 ^ (16 - Int.log 10 q) ∧ q * 10 ^ (16 - Int.log 10 q) < 10 ^ 17 := by
  have hlow := Int.zpow_log_le_self (b := 10) (by decide) h
  have hhigh := Int.lt_zpow_succ_log_self (b := 10) (by decide) q
  generalize Int.log 10 q = x at hlow hhigh ⊢
  have hpos : (0 : ℚ) < 10 ^ (16 - x) := by positivity
  have hscale : (10 : ℚ) ^ x * 10 ^ (16 - x) = 10 ^ 16 := by
    rw [← zpow_add₀ (by norm_num), add_sub_cancel]
    rfl
  have hnext : (10 : ℚ) ^ (x + 1) * 10 ^ (16 - x) = 10 ^ 17 := by
    rw [zpow_add₀ (by norm_num), mul_right_comm, hscale]
    norm_num
  push_cast at hlow hhigh
  constructor
  · rw [← hscale]
    exact mul_le_mul_of_nonneg_right hlow hpos.le
  · rw [← hnext]
    exact mul_lt_mul_of_pos_right hhigh hpos

theorem significant_bounds (h : 0 < q) :
    10 ^ 16 ≤ (significant q).1 ∧ (significant q).1 < 10 ^ 17 := by
  obtain ⟨hlow, hhigh⟩ := scaled_bounds h
  have hle : 10 ^ 16 ≤ nearest (q * 10 ^ (16 - Int.log 10 q)) := le_nearest (by exact_mod_cast hlow)
  have hlt : nearest (q * 10 ^ (16 - Int.log 10 q)) ≤ 10 ^ 17 :=
    nearest_le (le_trans (by positivity) hlow) (by exact_mod_cast hhigh)
  rw [significant]
  split_ifs with he
  · exact ⟨le_refl _, by norm_num⟩
  · exact ⟨hle, lt_of_le_of_ne hlt he⟩

theorem significant_exponent (q : ℚ) :
    (significant q).2 = Int.log 10 q ∨ (significant q).2 = Int.log 10 q + 1 := by
  rw [significant]
  split_ifs
  · exact .inr rfl
  · exact .inl rfl

/-- The digits are the nearest to the number. -/
theorem significant_close (h : 0 < q) :
    |q * 10 ^ (16 - (significant q).2) - (significant q).1| ≤ 1 / 2 := by
  have hlow := (scaled_bounds h).1
  have hclose := nearest_close (le_trans (by positivity) hlow)
  rw [significant]
  split_ifs with he
  · rw [he] at hclose
    have hten : q * 10 ^ (16 - Int.log 10 q) = q * 10 ^ (16 - (Int.log 10 q + 1)) * 10 := by
      rw [mul_assoc, ← zpow_add_one₀ (by norm_num)]
      congr 2
      ring
    rw [hten] at hclose
    rw [abs_le] at hclose ⊢
    push_cast at hclose ⊢
    constructor <;> linarith
  · exact hclose

theorem significant_natCast (h : 0 < n) (hn : n < 10 ^ 17) :
    significant n = (n * 10 ^ (16 - Nat.log 10 n), (Nat.log 10 n : ℤ)) := by
  have hlog : Nat.log 10 n ≤ 16 := Nat.lt_succ_iff.mp (Nat.log_lt_of_lt_pow h.ne' hn)
  have hcast : (n : ℚ) * 10 ^ (16 - (Nat.log 10 n : ℤ)) = (n * 10 ^ (16 - Nat.log 10 n) : ℕ) := by
    rw [show (16 - (Nat.log 10 n : ℤ)) = ((16 - Nat.log 10 n : ℕ) : ℤ) by omega, zpow_natCast]
    push_cast
    rfl
  have hlt : n * 10 ^ (16 - Nat.log 10 n) < 10 ^ 17 := by
    calc n * 10 ^ (16 - Nat.log 10 n)
        < 10 ^ (Nat.log 10 n + 1) * 10 ^ (16 - Nat.log 10 n) :=
          Nat.mul_lt_mul_of_pos_right (Nat.lt_pow_succ_log_self (by decide) n) (by positivity)
      _ = 10 ^ 17 := by
          rw [← pow_add]
          congr 1
          omega
  rw [significant, Int.log_natCast]
  rw [hcast, nearest_natCast, if_neg hlt.ne]

/-- A double that is so near to an integer of 53 bits is this integer. -/
theorem Representable.near_integer (hq : Representable q) {k : ℕ} (hn : n ≤ 2 ^ 53)
    (hk : 10 ^ 16 ≤ n * 10 ^ k) (h : |q * 10 ^ k - n * 10 ^ k| ≤ 1 / 2) : q = n := by
  have hk' : (10 : ℚ) ^ 16 ≤ n * 10 ^ k := by exact_mod_cast hk
  have hpos : (0 : ℚ) < 10 ^ k := by positivity
  have hclose : |q - n| ≤ n / (2 * 10 ^ 16) := by
    rw [← sub_mul, abs_mul, abs_of_pos hpos] at h
    rw [le_div_iff₀ (by norm_num)]
    have : |q - n| * (2 * 10 ^ 16) * 10 ^ k ≤ n * 10 ^ k := by linarith
    exact le_of_mul_le_mul_right this hpos
  obtain ⟨m, e, hm, -, -, rfl⟩ := hq
  have hn' : (n : ℚ) ≤ 2 ^ 53 := by exact_mod_cast hn
  obtain he | he := le_or_gt 0 e
  · obtain ⟨j, rfl⟩ := Int.eq_ofNat_of_zero_le he
    have hcast : (m : ℚ) * 2 ^ (j : ℤ) = ((m * 2 ^ j : ℕ) : ℤ) := by
      rw [zpow_natCast]
      push_cast
      rfl
    rw [hcast] at hclose ⊢
    have hone : |((m * 2 ^ j : ℕ) : ℤ) - (n : ℤ)| < 1 := by
      have : |(((m * 2 ^ j : ℕ) : ℤ) : ℚ) - ((n : ℤ) : ℚ)| < 1 := by
        refine lt_of_le_of_lt hclose ?_
        rw [div_lt_one (by norm_num)]
        linarith
      exact_mod_cast this
    have := sub_eq_zero.mp (Int.abs_lt_one_iff.mp hone)
    rw [this]
    rfl
  · obtain ⟨j, rfl⟩ : ∃ j : ℕ, e = -j := ⟨e.natAbs, by omega⟩
    rw [zpow_neg, zpow_natCast] at hclose ⊢
    have hj : (0 : ℚ) < 2 ^ j := by positivity
    have hgap : |((m : ℤ) : ℚ) - ((n * 2 ^ j : ℕ) : ℤ)| * (2 * 10 ^ 16) ≤ ((n * 2 ^ j : ℕ) : ℤ) := by
      have heq : ((m : ℤ) : ℚ) - ((n * 2 ^ j : ℕ) : ℤ) = (m * (2 ^ j)⁻¹ - n) * 2 ^ j := by
        push_cast
        field_simp
      rw [heq, abs_mul, abs_of_pos hj]
      rw [le_div_iff₀ (by norm_num)] at hclose
      have := mul_le_mul_of_nonneg_right hclose hj.le
      push_cast
      linarith
    have hgap' : |(m : ℤ) - ((n * 2 ^ j : ℕ) : ℤ)| * (2 * 10 ^ 16) ≤ ((n * 2 ^ j : ℕ) : ℤ) := by
      exact_mod_cast hgap
    have hsame : m = n * 2 ^ j := by
      generalize n * 2 ^ j = a at hgap'
      rcases abs_cases ((m : ℤ) - a) with ⟨habs, hsign⟩ | ⟨habs, hsign⟩ <;>
        rw [habs] at hgap' <;> omega
    rw [hsame]
    push_cast
    field_simp

end

open Decimal

variable (digits : List ℕ)

/-- The digits behind the point; the zeros at their end are left out. -/
def fraction : List ℕ :=
  match digits.rdropWhile (· == 48) with
  | [] => []
  | kept => 46 :: kept

def fixed (x : ℤ) : List ℕ :=
  if 0 ≤ x then digits.take (x.toNat + 1) ++ fraction (digits.drop (x.toNat + 1))
  else 48 :: fraction (List.replicate (-x - 1).toNat 48 ++ digits)

def exponent (x : ℤ) : List ℕ :=
  101 :: (if x < 0 then 45 else 43) ::
    (if x.natAbs < 10 then 48 :: numeral x.natAbs else numeral x.natAbs)

def scientific (x : ℤ) : List ℕ :=
  digits.take 1 ++ fraction (digits.drop 1) ++ exponent x

def magnitude_text (q : ℚ) : List ℕ :=
  if q = 0 then [48]
  else
    let (n, x) := significant q
    if -4 ≤ x ∧ x < 17 then fixed (numeral n) x else scientific (numeral n) x

def sign_text (negative : Bool) : List ℕ := if negative then [45] else []

def Double.text : Double → List ℕ
  | .nan => [110, 97, 110]
  | .infinity negative => sign_text negative ++ [105, 110, 102]
  | .finite negative magnitude _ => sign_text negative ++ magnitude_text magnitude

theorem fraction_zeros (k : ℕ) : fraction (List.replicate k 48) = [] := by
  have : (List.replicate k 48).rdropWhile (· == 48) = [] :=
    List.rdropWhile_eq_nil_iff.mpr fun ch hch => by rw [List.eq_of_mem_replicate hch]; rfl
  rw [fraction, this]

theorem fraction_length : (fraction digits).length ≤ digits.length + 1 := by
  have hle := (List.rdropWhile_prefix (fun ch => ch == 48) digits).length_le
  rw [fraction]
  split
  · exact Nat.zero_le _
  · exact Nat.succ_le_succ hle

/-- Without a point there is nothing but zeros behind it. -/
theorem fraction_point {digits : List ℕ} (h : 46 ∉ fraction digits) :
    digits = List.replicate digits.length 48 := by
  have hnil : digits.rdropWhile (· == 48) = [] := by
    rw [fraction] at h
    split at h
    · assumption
    · exact absurd List.mem_cons_self h
  exact List.eq_replicate_of_mem fun ch hch =>
    beq_iff_eq.mp (List.rdropWhile_eq_nil_iff.mp hnil ch hch)

theorem numeral_length_eq (h : 0 < n) : (numeral n).length = Nat.log 10 n + 1 := by
  induction n using Nat.strong_induction_on with
  | _ n ih =>
    by_cases hn : n < 10
    · rw [numeral_small hn, Nat.log_of_lt hn]
      rfl
    · rw [numeral_large hn, List.length_append, ih (n / 10) (by omega) (by omega),
        ← Nat.log_of_one_lt_of_le (by decide) (by omega)]
      rfl

theorem significant_digits {q : ℚ} (h : 0 < q) : (numeral (significant q).1).length = 17 := by
  obtain ⟨hlow, hhigh⟩ := significant_bounds h
  rw [numeral_length_eq (by omega), (Nat.log_eq_iff (by omega)).mpr ⟨hlow, hhigh⟩]

/-- An integer of 17 digits at most is printed as it is. -/
theorem magnitude_text_natCast (h : n < 10 ^ 17) : magnitude_text n = numeral n := by
  rw [magnitude_text]
  by_cases hn : n = 0
  · rw [hn, if_pos Nat.cast_zero, numeral_small (by decide)]
  have hpos : 0 < n := Nat.pos_of_ne_zero hn
  have hlog : Nat.log 10 n ≤ 16 := Nat.lt_succ_iff.mp (Nat.log_lt_of_lt_pow hn h)
  have hlength := numeral_length_eq hpos
  rw [if_neg (Nat.cast_ne_zero.mpr hn), significant_natCast hpos h]
  dsimp only
  rw [if_pos (by omega), fixed, if_pos (Int.natCast_nonneg _), Int.toNat_natCast,
    numeral_mul_pow hpos, ← hlength, List.take_left, List.drop_left, fraction_zeros,
    List.append_nil]

theorem two_zpow_le_ten_zpow (k : ℕ) : (2 : ℚ) ^ (3 * k : ℤ) ≤ 10 ^ (k : ℤ) := by
  rw [zpow_mul, zpow_natCast, zpow_natCast]
  exact pow_le_pow_left₀ (by norm_num) (by norm_num) k

theorem Representable.exponent_bound {q : ℚ} (h : Representable q) (hq : 0 < q) :
    (significant q).2.natAbs < 1000 := by
  obtain ⟨m, e, hm, he, he', rfl⟩ := h
  have hlow : (10 : ℚ) ^ (-358 : ℤ) ≤ m * 2 ^ e := by
    have hm1 : (1 : ℚ) ≤ m := by
      have : m ≠ 0 := fun hz => by simp [hz] at hq
      exact_mod_cast Nat.pos_of_ne_zero this
    calc (10 : ℚ) ^ (-358 : ℤ) ≤ 2 ^ (-1074 : ℤ) := by
          rw [zpow_neg, zpow_neg]
          exact inv_anti₀ (by positivity) (two_zpow_le_ten_zpow 358)
      _ ≤ 2 ^ e := zpow_le_zpow_right₀ (by norm_num) he
      _ ≤ m * 2 ^ e := le_mul_of_one_le_left (by positivity) hm1
  have hhigh : m * 2 ^ e < (10 : ℚ) ^ (342 : ℤ) := by
    have hm' : (m : ℚ) < 2 ^ (53 : ℤ) := by exact_mod_cast hm
    calc (m : ℚ) * 2 ^ e < 2 ^ (53 : ℤ) * 2 ^ e := mul_lt_mul_of_pos_right hm' (by positivity)
      _ = 2 ^ (53 + e) := (zpow_add₀ (by norm_num) 53 e).symm
      _ ≤ 2 ^ (1026 : ℤ) := zpow_le_zpow_right₀ (by norm_num) (by omega)
      _ ≤ 10 ^ (342 : ℤ) := two_zpow_le_ten_zpow 342
  have hlog := (@Int.zpow_le_iff_le_log ℚ _ _ _ _ 10 (by decide) (-358) _ hq).mp hlow
  have hlog' := (@Int.lt_zpow_iff_log_lt ℚ _ _ _ _ 10 (by decide) 342 _ hq).mp hhigh
  obtain hx | hx := significant_exponent (m * 2 ^ e : ℚ) <;> omega

theorem exponent_length {x : ℤ} (h : x.natAbs < 1000) : (exponent x).length ≤ 5 := by
  have hle : (numeral x.natAbs).length ≤ 3 := @numeral_length _ 2 (by omega)
  rw [exponent, List.length_cons, List.length_cons]
  split_ifs with hs
  · rw [List.length_cons, numeral_small hs, List.length_singleton]
    omega
  · omega

theorem magnitude_text_length {q : ℚ} (h : Representable q) :
    0 < (magnitude_text q).length ∧ (magnitude_text q).length ≤ 25 := by
  rw [magnitude_text]
  by_cases hz : q = 0
  · rw [if_pos hz]
    decide
  have hq : 0 < q := lt_of_le_of_ne h.nonneg (Ne.symm hz)
  have hdigits := significant_digits hq
  have hx := h.exponent_bound hq
  rw [if_neg hz]
  dsimp only
  split_ifs with hfixed
  · rw [fixed]
    split_ifs with h0
    · have := fraction_length ((numeral (significant q).1).drop ((significant q).2.toNat + 1))
      rw [List.length_append, List.length_take]
      rw [List.length_drop] at this
      omega
    · have := fraction_length
        (List.replicate (-(significant q).2 - 1).toNat 48 ++ numeral (significant q).1)
      rw [List.length_cons]
      rw [List.length_append, List.length_replicate] at this
      omega
  · have := fraction_length ((numeral (significant q).1).drop 1)
    have := exponent_length hx
    rw [scientific, List.length_append, List.length_append, List.length_take]
    rw [List.length_drop] at *
    omega

theorem value_append_zeros (k : ℕ) :
    value (digits ++ List.replicate k 48) = value digits * 10 ^ k := by
  induction k with
  | zero => rw [List.replicate_zero, List.append_nil, pow_zero, Nat.mul_one]
  | succ k ih =>
    rw [List.replicate_succ', ← List.append_assoc, value_append_singleton, ih, Nat.sub_self]
    ring

/-- A text of digits alone is that of an integer. -/
theorem fixed_digits {digits : List ℕ} {x : ℤ} {d : ℕ} (hd : d ∈ digits) (hd' : d ≠ 48)
    (h : 46 ∉ fixed digits x) :
    0 ≤ x ∧ ∃ k, digits = fixed digits x ++ List.replicate k 48 ∧
      k = digits.length - (x.toNat + 1) := by
  rw [fixed] at h ⊢
  split_ifs at h ⊢ with hx
  · rw [List.mem_append, not_or] at h
    have hzeros := fraction_point h.2
    rw [List.length_drop] at hzeros
    refine ⟨hx, _, ?_, rfl⟩
    rw [hzeros, fraction_zeros, List.append_nil, ← hzeros, List.take_append_drop]
  · have hzeros := fraction_point (List.not_mem_of_not_mem_cons h)
    have hmem : d ∈ List.replicate (-x - 1).toNat 48 ++ digits := List.mem_append_right _ hd
    rw [hzeros] at hmem
    exact absurd (List.eq_of_mem_replicate hmem) hd'

theorem magnitude_text_integer {q : ℚ} (h : Representable q)
    (hdigits : ∀ ch ∈ magnitude_text q, 48 ≤ ch ∧ ch ≤ 57)
    (hle : value (magnitude_text q) ≤ 2 ^ 53) : q = value (magnitude_text q) := by
  rw [magnitude_text] at hdigits hle ⊢
  by_cases hz : q = 0
  · rw [if_pos hz, hz]
    rfl
  have hq : 0 < q := lt_of_le_of_ne h.nonneg (Ne.symm hz)
  have hlength := significant_digits hq
  have hclose := significant_close hq
  obtain ⟨hlow, hhigh⟩ := significant_bounds hq
  rw [if_neg hz] at hdigits hle ⊢
  generalize hs : significant q = s at *
  obtain ⟨n, x⟩ := s
  dsimp only at *
  have hx : -4 ≤ x ∧ x < 17 := by
    by_contra hne
    rw [if_neg hne] at hdigits
    have := hdigits 101 (by rw [scientific, exponent]; simp)
    omega
  rw [if_pos hx] at hdigits hle ⊢
  obtain ⟨d, rest, hn, -, hd⟩ := numeral_head n
  have hmem : d ∈ numeral n := by
    rw [hn]
    exact List.mem_cons_self
  have hpoint : 46 ∉ fixed (numeral n) x := fun hmem => by
    have := hdigits 46 hmem
    omega
  obtain ⟨hx0, k, hnum, hk⟩ := fixed_digits hmem (fun hzero => by have := hd hzero; omega) hpoint
  have hvalue : n = value (fixed (numeral n) x) * 10 ^ k := by
    rw [← value_append_zeros, ← hnum, value_numeral]
  generalize value (fixed (numeral n) x) = m at hvalue hle ⊢
  have hk' : 16 - x = (k : ℤ) := by omega
  rw [hk', zpow_natCast, hvalue, Nat.cast_mul, Nat.cast_pow] at hclose
  rw [hvalue] at hlow
  exact h.near_integer hle hlow hclose

theorem signed_eq_int {negative : Bool} {q : ℚ} {n : ℤ} (hq : 0 ≤ q) (h : signed negative q = n) :
    q = (n.natAbs : ℚ) ∧ n = if negative then -(n.natAbs : ℤ) else n.natAbs := by
  cases negative with
  | true =>
    have hq' : q = ((-n : ℤ) : ℚ) := by
      push_cast
      rw [← h]
      exact (neg_neg q).symm
    have hn : (0 : ℤ) ≤ -n := by
      rw [hq'] at hq
      exact_mod_cast hq
    refine ⟨?_, ?_⟩
    · rw [hq', Nat.cast_natAbs, abs_of_nonpos (by omega)]
    · rw [if_pos rfl]
      omega
  | false =>
    have hq' : q = (n : ℚ) := h
    have hn : (0 : ℤ) ≤ n := by
      rw [hq'] at hq
      exact_mod_cast hq
    refine ⟨?_, ?_⟩
    · rw [hq', Nat.cast_natAbs, abs_of_nonneg hn]
    · rw [if_neg Bool.false_ne_true]
      omega

/-- An integer of 17 digits at most has its own text. -/
theorem Double.integer_text {d : Double} {n : ℤ} (h : d.value = some (n : ℚ))
    (hn : n.natAbs < 10 ^ 17) : integer d.text = some n := by
  cases d with
  | nan => cases h
  | infinity negative => cases h
  | finite negative q hq =>
    obtain ⟨rfl, hsign⟩ := signed_eq_int hq.nonneg (Option.some.inj h)
    rw [Double.text, magnitude_text_natCast hn]
    cases negative with
    | true => exact (integer_minus n.natAbs).trans (congrArg some hsign.symm)
    | false => exact (integer_numeral n.natAbs).trans (congrArg some hsign.symm)

theorem magnitude_text_head (q : ℚ) : ∃ ch rest, magnitude_text q = ch :: rest ∧ 48 ≤ ch := by
  rw [magnitude_text]
  obtain ⟨d, rest, hn, -⟩ := numeral_head (significant q).1
  have hd := numeral_digits (significant q).1 d (by rw [hn]; exact List.mem_cons_self)
  by_cases hz : q = 0
  · exact ⟨48, [], if_pos hz, le_refl _⟩
  rw [if_neg hz]
  dsimp only
  split_ifs with hx
  · rw [fixed, hn]
    split_ifs
    · exact ⟨d, _, rfl, hd.1⟩
    · exact ⟨48, _, rfl, le_refl _⟩
  · rw [scientific, hn]
    exact ⟨d, _, rfl, hd.1⟩

theorem magnitude_text_natural {q : ℚ} (h : Representable q)
    (ht : natural (magnitude_text q) = some n) (hn : n ≤ 2 ^ 53) : q = n := by
  obtain ⟨-, hdigits, rfl⟩ := natural_eq_some ht
  exact magnitude_text_integer h hdigits hn

/-- The text of an integer of 53 bits is that of no other double. -/
theorem Double.text_exact {d : Double} {n : ℤ} (h : integer d.text = some n)
    (hn : n.natAbs ≤ 2 ^ 53) : d.value = some (n : ℚ) := by
  cases d with
  | nan => cases (show none = some n from h)
  | infinity negative => cases negative <;> cases (show none = some n from h)
  | finite negative q hq =>
    have hdigit : ∀ {digits : List ℕ}, natural (45 :: digits) = none := fun {digits} => by
      rw [natural, if_neg]
      intro hd
      have := hd.2 45 List.mem_cons_self
      omega
    cases negative with
    | true =>
      rw [Double.text, sign_text, if_pos rfl, List.singleton_append] at h
      obtain ⟨digits, m, ht, hm, rfl⟩ | ⟨m, hm, -⟩ := integer_cases h
      · obtain ⟨-, rfl⟩ := List.cons.inj ht
        have := magnitude_text_natural hq hm (by omega)
        rw [Double.value, signed, if_pos rfl, this]
        push_cast
        rfl
      · rw [hdigit] at hm
        cases hm
    | false =>
      rw [Double.text, sign_text, if_neg Bool.false_ne_true, List.nil_append] at h
      obtain ⟨digits, m, ht, -, -⟩ | ⟨m, hm, rfl⟩ := integer_cases h
      · obtain ⟨ch, rest, hch, hle⟩ := magnitude_text_head q
        rw [hch] at ht
        have := (List.cons.inj ht).1
        omega
      · have := magnitude_text_natural hq hm (by omega)
        rw [Double.value, signed, if_neg Bool.false_ne_true, this]
        push_cast
        rfl

end SaltsUtils.Binary64
