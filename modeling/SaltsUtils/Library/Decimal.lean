import Mathlib.Data.Nat.Notation
import Mathlib.Tactic.Positivity
import Mathlib.Tactic.Ring

/-!
# Decimal numerals

The numeral of a number in bytes, the most significant digit first and without a
leading zero.
-/

set_option autoImplicit false

namespace SaltsUtils.Decimal

def numeral (n : ℕ) : List ℕ :=
  if n < 10 then [48 + n] else numeral (n / 10) ++ [48 + n % 10]

theorem numeral_small {n : ℕ} (h : n < 10) : numeral n = [48 + n] := by
  rw [numeral, if_pos h]

theorem numeral_large {n : ℕ} (h : ¬ n < 10) : numeral n = numeral (n / 10) ++ [48 + n % 10] := by
  rw [numeral, if_neg h]

theorem numeral_digits (n : ℕ) : ∀ ch ∈ numeral n, 48 ≤ ch ∧ ch ≤ 57 := by
  induction n using Nat.strong_induction_on with
  | _ n ih =>
    intro ch hch
    by_cases h : n < 10
    · rw [numeral_small h, List.mem_singleton] at hch
      omega
    · rw [numeral_large h, List.mem_append, List.mem_singleton] at hch
      obtain hch | rfl := hch
      · exact ih (n / 10) (by omega) ch hch
      · omega

/-- Only the numeral of zero starts with a zero. -/
theorem numeral_head (n : ℕ) : ∃ ch rest, numeral n = ch :: rest ∧ (ch = 48 → rest = []) ∧
    (ch = 48 → n = 0) := by
  induction n using Nat.strong_induction_on with
  | _ n ih =>
    by_cases h : n < 10
    · exact ⟨48 + n, [], numeral_small h, fun _ => rfl, fun hz => by omega⟩
    · obtain ⟨ch, rest, hn, -, hzero⟩ := ih (n / 10) (by omega)
      refine ⟨ch, rest ++ [48 + n % 10], ?_, fun hz => ?_, fun hz => ?_⟩
      · rw [numeral_large h, hn]
        rfl
      · have := hzero hz
        omega
      · have := hzero hz
        omega

/-- What a string of digits stands for. -/
def value (digits : List ℕ) : ℕ := digits.foldl (fun n ch => 10 * n + (ch - 48)) 0

theorem value_append_singleton (digits : List ℕ) (ch : ℕ) :
    value (digits ++ [ch]) = 10 * value digits + (ch - 48) := by
  rw [value, List.foldl_append]
  rfl

theorem value_from (n : ℕ) (digits : List ℕ) :
    digits.foldl (fun n ch => 10 * n + (ch - 48)) n = n * 10 ^ digits.length + value digits := by
  induction digits using List.reverseRecOn with
  | nil => exact (Nat.mul_one n).symm
  | append_singleton digits ch ih =>
    rw [List.foldl_append, ih, value_append_singleton, List.length_append, List.length_singleton,
      pow_succ, List.foldl_cons, List.foldl_nil]
    ring

theorem value_cons (ch : ℕ) (digits : List ℕ) :
    value (ch :: digits) = (ch - 48) * 10 ^ digits.length + value digits := by
  rw [value, List.foldl_cons, value_from, Nat.mul_zero, Nat.zero_add]

theorem value_lt {digits : List ℕ} (h : ∀ ch ∈ digits, 48 ≤ ch ∧ ch ≤ 57) :
    value digits < 10 ^ digits.length := by
  induction digits with
  | nil => exact Nat.one_pos
  | cons ch digits ih =>
    obtain ⟨hch, hdigits⟩ := List.forall_mem_cons.mp h
    have hle : (ch - 48) * 10 ^ digits.length ≤ 9 * 10 ^ digits.length :=
      Nat.mul_le_mul_right _ (by omega)
    have := ih hdigits
    rw [value_cons, List.length_cons, pow_succ]
    omega

/-- Leading zeros count for nothing. -/
theorem value_dropWhile (digits : List ℕ) : value (digits.dropWhile (· == 48)) = value digits := by
  induction digits with
  | nil => rfl
  | cons ch digits ih =>
    by_cases h : ch = 48
    · rw [h, List.dropWhile_cons_of_pos rfl, ih, value_cons, Nat.sub_self, Nat.zero_mul,
        Nat.zero_add]
    · rw [List.dropWhile_cons_of_neg (by simpa using h)]

theorem value_numeral (n : ℕ) : value (numeral n) = n := by
  induction n using Nat.strong_induction_on with
  | _ n ih =>
    by_cases h : n < 10
    · rw [numeral_small h, ← List.nil_append [48 + n], value_append_singleton]
      exact (Nat.zero_add _).trans (Nat.add_sub_cancel_left ..)
    · rw [numeral_large h, value_append_singleton, ih (n / 10) (by omega), Nat.add_sub_cancel_left]
      exact Nat.div_add_mod n 10

def natural (text : List ℕ) : Option ℕ :=
  if text ≠ [] ∧ ∀ ch ∈ text, 48 ≤ ch ∧ ch ≤ 57 then some (value text) else none

/-- The integer that a text of digits stands for, with a minus before them or without. -/
def integer : List ℕ → Option ℤ
  | 45 :: digits => (natural digits).map fun n : ℕ => -(n : ℤ)
  | digits => (natural digits).map fun n : ℕ => (n : ℤ)

theorem numeral_ne_nil (n : ℕ) : numeral n ≠ [] := by
  obtain ⟨ch, rest, hn, -⟩ := numeral_head n
  rw [hn]
  exact List.cons_ne_nil ch rest

theorem natural_numeral (n : ℕ) : natural (numeral n) = some n := by
  rw [natural, if_pos ⟨numeral_ne_nil n, numeral_digits n⟩, value_numeral]

theorem natural_eq_some {text : List ℕ} {n : ℕ} (h : natural text = some n) :
    text ≠ [] ∧ (∀ ch ∈ text, 48 ≤ ch ∧ ch ≤ 57) ∧ value text = n := by
  rw [natural] at h
  split_ifs at h with hd
  exact ⟨hd.1, hd.2, Option.some.inj h⟩

theorem integer_numeral (n : ℕ) : integer (numeral n) = some (n : ℤ) := by
  obtain ⟨ch, rest, hn, -⟩ := numeral_head n
  have hch := numeral_digits n ch (by rw [hn]; exact List.mem_cons_self)
  have hplain : integer (numeral n) = (natural (numeral n)).map fun n : ℕ => (n : ℤ) := by
    rw [hn, integer]
    intro digits hd
    cases hd
    omega
  rw [hplain, natural_numeral]
  rfl

theorem integer_minus (n : ℕ) : integer (45 :: numeral n) = some (-n : ℤ) := by
  rw [integer, natural_numeral]
  rfl

/-- A text of an integer is one of digits behind its sign. -/
theorem integer_cases {text : List ℕ} {z : ℤ} (h : integer text = some z) :
    (∃ digits n, text = 45 :: digits ∧ natural digits = some n ∧ z = -n) ∨
      ∃ n, natural text = some n ∧ z = n := by
  unfold integer at h
  split at h
  · obtain ⟨n, hn, hz⟩ := Option.map_eq_some_iff.mp h
    exact .inl ⟨_, n, rfl, hn, hz.symm⟩
  · obtain ⟨n, hn, hz⟩ := Option.map_eq_some_iff.mp h
    exact .inr ⟨n, hn, hz.symm⟩

theorem numeral_mul_ten {n : ℕ} (h : 0 < n) : numeral (10 * n) = numeral n ++ [48] := by
  rw [numeral_large (by omega), Nat.mul_div_cancel_left n (by decide), Nat.mul_mod_right]

/-- Zeros behind a numeral are powers of ten. -/
theorem numeral_mul_pow {n : ℕ} (h : 0 < n) (k : ℕ) :
    numeral (n * 10 ^ k) = numeral n ++ List.replicate k 48 := by
  induction k with
  | zero => rw [pow_zero, Nat.mul_one, List.replicate_zero, List.append_nil]
  | succ k ih =>
    have hpos : 0 < n * 10 ^ k := Nat.mul_pos h (by positivity)
    have he : n * 10 ^ (k + 1) = 10 * (n * 10 ^ k) := by ring
    rw [he, numeral_mul_ten hpos, ih, List.append_assoc, ← List.replicate_succ']

theorem numeral_length {n k : ℕ} (h : n < 10 ^ (k + 1)) : (numeral n).length ≤ k + 1 := by
  induction k generalizing n with
  | zero =>
    rw [numeral_small (by omega)]
    exact Nat.le_refl _
  | succ k ih =>
    by_cases hn : n < 10
    · rw [numeral_small hn]
      exact Nat.succ_le_succ (Nat.zero_le _)
    · rw [numeral_large hn, List.length_append]
      have := ih (n := n / 10) (by omega)
      exact Nat.succ_le_succ this

end SaltsUtils.Decimal
