import Mathlib.Data.List.Basic
import Mathlib.Tactic

/-!
# Slices of an array

The normalisation of RFC 9535, section 2.3.4.2: a negative bound counts from the end, a
bound that is left out has the default of the direction, and both are clamped to the
array before the indexes are taken a step apart. A step of zero selects nothing.
-/

set_option autoImplicit false

namespace SaltsUtils.Slice

/-- `n` integers from `first` on, `step` apart. -/
def progression (step : ℤ) (n : ℕ) (first : ℤ) : List ℤ :=
  (List.range n).map fun k : ℕ => first + k * step

/-- How many multiples of a step there are from zero up to a distance. -/
def steps (step distance : ℤ) : ℕ := ((distance + step - 1) / step).toNat

def normalize (len i : ℤ) : ℤ := if 0 ≤ i then i else len + i

def default_start (len step : ℤ) : ℤ := if 0 ≤ step then 0 else len - 1

def default_end (len step : ℤ) : ℤ := if 0 ≤ step then len else -len - 1

def lower (len step start stop : ℤ) : ℤ :=
  if 0 ≤ step then min (max (normalize len start) 0) len
  else min (max (normalize len stop) (-1)) (len - 1)

def upper (len step start stop : ℤ) : ℤ :=
  if 0 ≤ step then min (max (normalize len stop) 0) len
  else min (max (normalize len start) (-1)) (len - 1)

/-- How often a loop from `i` on runs before it leaves the bounds. -/
def remaining (step lower upper i : ℤ) : ℕ :=
  if 0 < step then steps step (upper - i) else steps (-step) (i - lower)

/-- The indexes that a slice selects, in their order. -/
def selected (len : ℤ) (start stop step : Option ℤ) : List ℤ :=
  let step := step.getD 1
  let start := start.getD (default_start len step)
  let stop := stop.getD (default_end len step)
  let low := lower len step start stop
  let high := upper len step start stop
  let first := if 0 < step then low else high
  if step = 0 then [] else progression step (remaining step low high first) first

theorem progression_zero (step first : ℤ) : progression step 0 first = [] := rfl

theorem progression_succ (step : ℤ) (n : ℕ) (first : ℤ) :
    progression step (n + 1) first = first :: progression step n (first + step) := by
  rw [progression, List.range_succ_eq_map, List.map_cons, List.map_map, progression]
  congr 1
  · simp
  · apply List.map_congr_left
    intro k _
    simp only [Function.comp, Nat.succ_eq_add_one, Nat.cast_add, Nat.cast_one]
    ring

theorem steps_eq_zero {step distance : ℤ} (hs : 0 < step) : steps step distance = 0 ↔ distance ≤ 0 := by
  rw [steps, Int.toNat_eq_zero, ← Int.lt_add_one_iff, zero_add, Int.ediv_lt_iff_lt_mul hs]
  omega

theorem steps_succ {step distance : ℤ} (hs : 0 < step) (h : 0 < distance) :
    steps step distance = steps step (distance - step) + 1 := by
  have hsplit : distance + step - 1 = distance - step + step - 1 + 1 * step := by ring
  have hnonneg : 0 ≤ (distance - step + step - 1) / step := by
    apply Int.ediv_nonneg <;> omega
  rw [steps, steps, hsplit, Int.add_mul_ediv_right _ _ hs.ne']
  omega

/-- The loop is over when and only when nothing remains. -/
theorem remaining_eq_zero {step lower upper i : ℤ} (hs : step ≠ 0) :
    remaining step lower upper i = 0 ↔ (0 < step ∧ upper ≤ i) ∨ (step < 0 ∧ i ≤ lower) := by
  rw [remaining]
  by_cases hpos : 0 < step
  · rw [if_pos hpos, steps_eq_zero hpos]
    omega
  · rw [if_neg hpos, steps_eq_zero (by omega)]
    omega

theorem remaining_succ {step lower upper i : ℤ} (hs : step ≠ 0)
    (h : remaining step lower upper i ≠ 0) :
    remaining step lower upper i = remaining step lower upper (i + step) + 1 := by
  rw [ne_eq, remaining_eq_zero hs] at h
  rw [remaining, remaining]
  by_cases hpos : 0 < step
  · rw [if_pos hpos, if_pos hpos, steps_succ hpos (by omega)]
    congr 2
    ring
  · rw [if_neg hpos, if_neg hpos, steps_succ (by omega) (by omega)]
    congr 2
    ring

/-- No more rounds than the distance between the bounds. -/
theorem remaining_le {step lower upper i : ℤ} {n : ℕ} (hs : step ≠ 0)
    (hn : (0 < step → upper - i ≤ n) ∧ (step < 0 → i - lower ≤ n)) :
    remaining step lower upper i ≤ n := by
  induction n generalizing i with
  | zero =>
    apply Nat.le_of_eq
    rw [remaining_eq_zero hs]
    omega
  | succ n ih =>
    by_cases hz : remaining step lower upper i = 0
    · omega
    · rw [remaining_succ hs hz]
      apply Nat.succ_le_succ
      apply ih
      push_cast at hn
      constructor <;> intro hdir <;> omega

/-- A place from which the loop stays inside the array. -/
def Inside (len step lower upper i : ℤ) : Prop :=
  (0 < step ∧ 0 ≤ i ∧ upper ≤ len) ∨ (step < 0 ∧ i < len ∧ -1 ≤ lower)

theorem Inside.next {len step lower upper i : ℤ} (h : Inside len step lower upper i) :
    Inside len step lower upper (i + step) := by
  unfold Inside at h ⊢
  omega

theorem Inside.ne_zero {len step lower upper i : ℤ} (h : Inside len step lower upper i) :
    step ≠ 0 := by
  unfold Inside at h
  omega

theorem Inside.bounds {len step lower upper i : ℤ} (h : Inside len step lower upper i)
    (hr : remaining step lower upper i ≠ 0) : 0 ≤ i ∧ i < len := by
  rw [ne_eq, remaining_eq_zero h.ne_zero] at hr
  unfold Inside at h
  omega

theorem Inside.progression_bounds {len step lower upper i : ℤ} (h : Inside len step lower upper i) :
    ∀ j ∈ progression step (remaining step lower upper i) i, 0 ≤ j ∧ j < len := by
  generalize hn : remaining step lower upper i = n
  induction n generalizing i with
  | zero => simp [progression_zero]
  | succ n ih =>
    have hr : remaining step lower upper i ≠ 0 := by omega
    have hnext := remaining_succ h.ne_zero hr
    intro j hj
    rw [progression_succ, List.mem_cons] at hj
    rcases hj with rfl | hj
    · exact h.bounds hr
    · exact ih h.next (by omega) j hj

theorem inside_first {len step start stop : ℤ} (hl : 0 ≤ len) (hs : step ≠ 0) :
    Inside len step (lower len step start stop) (upper len step start stop)
      (if 0 < step then lower len step start stop else upper len step start stop) := by
  unfold Inside lower upper
  split_ifs <;> omega

theorem selected_bounds {len : ℤ} (hl : 0 ≤ len) (start stop step : Option ℤ) :
    ∀ i ∈ selected len start stop step, 0 ≤ i ∧ i < len := by
  unfold selected
  by_cases hs : step.getD 1 = 0
  · rw [if_pos hs]
    simp
  · rw [if_neg hs]
    exact (inside_first hl hs).progression_bounds

end SaltsUtils.Slice
