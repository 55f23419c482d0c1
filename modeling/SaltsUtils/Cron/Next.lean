import SaltsUtils.Cron.Clock
import Mathlib.Order.Bounds.Basic
import Mathlib.Data.Int.LeastGreatest

/-!
# The search finds the next matching minute

Local time at a fixed offset is a count of minutes.
-/

set_option autoImplicit false

namespace SaltsUtils.Cron
open Gregorian

section Bits
variable (bits : BitVec 64)

theorem bitSet_iff (value : ℤ) : bitSet bits value = true ↔ bits.getLsbD value.toNat = true := by
  have h : bits &&& (1#64 <<< value.toNat) = 0 ↔ bits.getLsbD value.toNat = false := by
    constructor
    · intro h
      by_contra hb
      rw [Bool.not_eq_false] at hb
      have hlt : value.toNat < 64 := BitVec.lt_of_getLsbD hb
      have h₁ := congrArg (fun x => BitVec.getLsbD x value.toNat) h
      have h₂ := (getLsbD_one_shiftLeft value.toNat value.toNat).mpr ⟨hlt, rfl⟩
      rw [BitVec.getLsbD_and, hb, h₂] at h₁
      simp at h₁
    · intro h
      apply BitVec.eq_of_getLsbD_eq
      intro i hi
      rw [BitVec.getLsbD_and]
      by_cases hi' : i = value.toNat
      · simp [hi', h]
      · have : (1#64 <<< value.toNat).getLsbD i = false := by
          rw [← Bool.not_eq_true, getLsbD_one_shiftLeft]
          exact fun h => hi' h.2
        simp [this]
  unfold bitSet
  rw [bne_iff_ne, ne_eq, h, Bool.not_eq_false]

theorem and_one_eq_zero : bits &&& 1 = 0 ↔ bits.getLsbD 0 = false := by
  have h := bitSet_iff bits 0
  unfold bitSet at h
  rw [bne_iff_ne, Int.toNat_zero, BitVec.shiftLeft_zero] at h
  rw [← Bool.not_eq_true, ← h, not_not]
  rfl

theorem jump_spec (fuel : ℕ) : ∀ (remaining : BitVec 64) (jump : ℤ) (k : ℕ),
    remaining.getLsbD k = true → k < fuel → ∃ j : ℕ, cron_jump fuel remaining jump = jump + j ∧
      remaining.getLsbD j = true ∧ ∀ i < j, remaining.getLsbD i = false := by
  induction fuel with
  | zero =>
    intro remaining jump k hk hlt
    omega
  | succ fuel ih =>
    intro remaining jump k hk hlt
    by_cases h : remaining &&& 1 = 0
    · have h₀ := (and_one_eq_zero remaining).mp h
      have hpos : k ≠ 0 := by
        rintro rfl
        rw [h₀] at hk
        cases hk
      obtain ⟨j, h₁, h₂, h₃⟩ := ih (remaining >>> 1) (jump + 1) (k - 1)
        (by rwa [BitVec.getLsbD_ushiftRight, show 1 + (k - 1) = k by omega]) (by omega)
      refine ⟨j + 1, ?_, ?_, ?_⟩
      · rw [cron_jump, if_pos h, h₁]
        push_cast
        omega
      · rwa [BitVec.getLsbD_ushiftRight, add_comm] at h₂
      · intro i hi
        cases i with
        | zero => exact h₀
        | succ i =>
          have := h₃ i (by omega)
          rwa [BitVec.getLsbD_ushiftRight, add_comm] at this
    · refine ⟨0, ?_, ?_, ?_⟩
      · rw [cron_jump, if_neg h]
        simp
      · rwa [and_one_eq_zero, Bool.not_eq_false] at h
      · intro i hi
        omega

theorem shiftRight_eq_zero (k : ℕ) : bits >>> k = 0 ↔ ∀ i, k ≤ i → bits.getLsbD i = false := by
  constructor
  · intro h i hi
    have := congrArg (fun x => BitVec.getLsbD x (i - k)) h
    simp only [BitVec.getLsbD_ushiftRight] at this
    rw [show k + (i - k) = i by omega] at this
    simpa using this
  · intro h
    apply BitVec.eq_of_getLsbD_eq
    intro i hi
    rw [BitVec.getLsbD_ushiftRight, h _ (by omega)]
    simp

variable {value : ℤ}

theorem remaining_zero (h : bits >>> value.toNat = 0) (w : ℤ) (hw : value ≤ w) :
    bitSet bits w = false := by
  rw [← Bool.not_eq_true, bitSet_iff, Bool.not_eq_true]
  exact (shiftRight_eq_zero bits _).mp h _ (by omega)

theorem remaining_here (h : ¬ (bits >>> value.toNat) &&& 1 = 0) : bitSet bits value = true := by
  rw [and_one_eq_zero, Bool.not_eq_false, BitVec.getLsbD_ushiftRight, add_zero] at h
  exact (bitSet_iff bits value).mpr h

theorem remaining_later (hv : 0 ≤ value) (h₀ : bits >>> value.toNat ≠ 0)
    (h₁ : (bits >>> value.toNat) &&& 1 = 0) :
    0 < cron_jump 64 (bits >>> value.toNat) 0 ∧
      bitSet bits (value + cron_jump 64 (bits >>> value.toNat) 0) = true ∧
      ∀ w, value ≤ w → w < value + cron_jump 64 (bits >>> value.toNat) 0 →
        bitSet bits w = false := by
  obtain ⟨k, hk⟩ : ∃ k, (bits >>> value.toNat).getLsbD k = true := by
    by_contra hno
    apply h₀
    apply BitVec.eq_of_getLsbD_eq
    intro i hi
    have : ¬ (bits >>> value.toNat).getLsbD i = true := fun h => hno ⟨i, h⟩
    simpa using this
  obtain ⟨j, hj, hset, hbefore⟩ := jump_spec 64 _ 0 k hk (BitVec.lt_of_getLsbD hk)
  rw [zero_add] at hj
  rw [hj]
  refine ⟨?_, ?_, ?_⟩
  · rcases Nat.eq_zero_or_pos j with rfl | hpos
    · rw [and_one_eq_zero, hset] at h₁
      cases h₁
    · omega
  · rw [bitSet_iff, show (value + j).toNat = value.toNat + j by omega]
    rwa [BitVec.getLsbD_ushiftRight] at hset
  · intro w h₂ h₃
    have := hbefore (w - value).toNat (by omega)
    rw [BitVec.getLsbD_ushiftRight, show value.toNat + (w - value).toNat = w.toNat by omega] at this
    rw [← Bool.not_eq_true, bitSet_iff, this]
    simp

end Bits

section Minutes
variable (expr : SaltsCronExpr)

def DayMatches (n : ℤ) : Prop :=
  bitSet expr.month_bits (month n + 1) = true ∧
    cron_day_match expr (brokenDown (86400 * n)) = true

instance (n : ℤ) : Decidable (DayMatches expr n) := inferInstanceAs (Decidable (_ ∧ _))

def MinuteMatches (u : ℤ) : Prop :=
  bitSet expr.minute_bits (u % 60) = true ∧ bitSet expr.hour_bits (u / 60 % 24) = true ∧
    DayMatches expr (u / 1440)

theorem brokenDown_minute (u : ℤ) : brokenDown (60 * u) =
    ⟨0, u % 60, u / 60 % 24, dayOfMonth (u / 1440), month (u / 1440), year (u / 1440) - 1900,
      weekday (u / 1440), 0⟩ := by
  have h₁ : 60 * u % 60 = 0 := by omega
  have h₂ : 60 * u / 60 = u := by omega
  have h₃ : 60 * u / 3600 = u / 60 := by omega
  have h₄ : 60 * u / 86400 = u / 1440 := by omega
  unfold brokenDown
  rw [h₁, h₂, h₃, h₄]

theorem day_match_day (u : ℤ) : cron_day_match expr (brokenDown (60 * u)) =
    cron_day_match expr (brokenDown (86400 * (u / 1440))) := by
  have h : 86400 * (u / 1440) = 60 * (1440 * (u / 1440)) := by ring
  have hd : 1440 * (u / 1440) / 1440 = u / 1440 := by omega
  rw [h, brokenDown_minute, brokenDown_minute, hd]
  rfl

theorem matches_iff (offset t : ℤ) (ht : t % 60 = 0) :
    salts_cron_matches (fixedOffset offset) (some expr) t = true ↔
      MinuteMatches expr (t / 60 + offset) := by
  have hs : t + 60 * offset = 60 * (t / 60 + offset) := by omega
  have hd := day_match_day expr (t / 60 + offset)
  simp only [salts_cron_matches, cron_localtime_safe, fixedOffset, hs]
  simp only [brokenDown_minute] at hd ⊢
  unfold MinuteMatches DayMatches
  rw [← hd]
  split_ifs <;> simp_all

/-- How far the hour and the minute are from matching: the largest value calls for the next
hour, then comes a jump to a later hour, then a jump to a later minute. -/
def stage (u : ℤ) : ℕ :=
  if bitSet expr.hour_bits (u / 60 % 24) = true then
    if bitSet expr.minute_bits (u % 60) = true then 0
    else if expr.minute_bits >>> (u % 60).toNat = 0 then 3 else 1
  else 2

structure Passes (u u' : ℤ) : Prop where
  lt : u < u'
  skipped : ∀ w, u ≤ w → w < u' → ¬ MinuteMatches expr w
  progress : (u / 1440 < u' / 1440 ∧ u' % 1440 = 0) ∨
    (u' / 1440 = u / 1440 ∧ DayMatches expr (u / 1440) ∧
      (expr.minute_bits ≠ 0 → stage expr u' < stage expr u))

variable {expr}

variable {n : ℤ}

theorem passes_day {u : ℤ} (hlt : u / 1440 < n)
    (hday : ∀ w, u ≤ w → w / 1440 < n → ¬ MinuteMatches expr w) : Passes expr u (1440 * n) := by
  refine ⟨by omega, ?_, Or.inl ⟨by omega, by omega⟩⟩
  intro w h₁ h₂
  exact hday w h₁ (by omega)

variable {w : ℤ}

theorem not_minuteMatches_of_day (h : ¬ DayMatches expr (w / 1440)) :
    ¬ MinuteMatches expr w := fun hm => h hm.2.2

theorem not_minuteMatches_of_hour (h : bitSet expr.hour_bits (w / 60 % 24) = false) :
    ¬ MinuteMatches expr w := by
  intro hm
  rw [hm.2.1] at h
  cases h

theorem not_minuteMatches_of_minute (h : bitSet expr.minute_bits (w % 60) = false) :
    ¬ MinuteMatches expr w := by
  intro hm
  rw [hm.1] at h
  cases h

theorem not_dayMatches_of_month (h : bitSet expr.month_bits (month n + 1) = false) :
    ¬ DayMatches expr n := by
  intro hd
  rw [hd.1] at h
  cases h

theorem stage_full_hour {u : ℤ} (hne : expr.minute_bits ≠ 0) (hu : u % 60 = 0) :
    stage expr u ≤ 2 := by
  unfold stage
  rw [hu]
  split_ifs with h₁ h₂ h₃
  · omega
  · simp at h₃
    exact absurd h₃ hne
  · omega
  · omega

theorem stage_matching_hour {u : ℤ} (hne : expr.minute_bits ≠ 0) (hu : u % 60 = 0)
    (hh : bitSet expr.hour_bits (u / 60 % 24) = true) : stage expr u ≤ 1 := by
  unfold stage
  rw [hu, if_pos hh]
  split_ifs with h₂ h₃
  · omega
  · simp at h₃
    exact absurd h₃ hne
  · omega

variable {v : ℤ}

section Pass
variable (offset : ℤ)

theorem normalize_eq (tm : Tm) : (fixedOffset offset).normalize tm = brokenDown tm.seconds := rfl

theorem normalize_day (y m d w dst : ℤ) :
    (fixedOffset offset).normalize ⟨0, 0, 0, d, m, y - 1900, w, dst⟩ =
      brokenDown (60 * (1440 * dayNumber y m d)) := by
  rw [normalize_eq]
  congr 1
  simp only [Tm.seconds, show y - 1900 + 1900 = y by ring]
  ring

theorem normalize_minute (u h m w dst : ℤ) :
    (fixedOffset offset).normalize ⟨0, m, h, dayOfMonth (u / 1440), month (u / 1440),
        year (u / 1440) - 1900, w, dst⟩ =
      brokenDown (60 * (1440 * (u / 1440) + 60 * h + m)) := by
  rw [normalize_eq]
  congr 1
  simp only [Tm.seconds, show year (u / 1440) - 1900 + 1900 = year (u / 1440) by ring,
    dayNumber_date]
  ring

theorem candidate_eq (u : ℤ) :
    ((fixedOffset offset).mktime { brokenDown (60 * u) with tm_isdst := -1 }).1 =
      60 * (u - offset) := by
  simp only [fixedOffset, Tm.seconds, brokenDown_minute,
    show year (u / 1440) - 1900 + 1900 = year (u / 1440) by ring, dayNumber_date]
  omega

theorem next_step (hw : expr.WellFormed) (u : ℤ) :
    (MinuteMatches expr u ∧
      cron_next_step (fixedOffset offset) expr (brokenDown (60 * u)) =
        .inr (if 60 * (u - offset) ≠ -1 then .ok (60 * (u - offset)) else .error .estate)) ∨
    ∃ u', Passes expr u u' ∧
      cron_next_step (fixedOffset offset) expr (brokenDown (60 * u)) =
        .inl (brokenDown (60 * u')) := by
  obtain ⟨hm₀, hm₁⟩ := month_bounds (u / 1440)
  have hcand := candidate_eq offset u
  have hday := day_match_day expr u
  unfold cron_next_step
  rw [brokenDown_minute] at hcand hday ⊢
  simp only
  by_cases c₁ : expr.month_bits >>> (month (u / 1440) + 1).toNat = 0
  · -- no month is left in the year
    right
    refine ⟨1440 * yearStart (year (u / 1440) + 1), ?_, ?_⟩
    · apply passes_day (year_bounds _).2
      intro w h₁ h₂
      obtain ⟨-, hle⟩ := month_rest_of_year (show u / 1440 ≤ w / 1440 by omega) h₂
      exact not_minuteMatches_of_day (not_dayMatches_of_month
        (remaining_zero _ c₁ _ (by omega)))
    · rw [if_pos c₁, ← dayNumber_year, show year (u / 1440) - 1900 + 1 =
        year (u / 1440) + 1 - 1900 by ring, normalize_day]
  rw [if_neg c₁]
  by_cases c₂ : expr.month_bits >>> (month (u / 1440) + 1).toNat &&& 1 = 0
  · -- a later month of the year
    right
    obtain ⟨hj, hset, hbefore⟩ := remaining_later _ (by omega) c₁ c₂
    rw [if_pos c₂]
    generalize cron_jump 64 (expr.month_bits >>> (month (u / 1440) + 1).toNat) 0 = j at *
    have hle : month (u / 1440) + j ≤ 11 := by
      have := (hw.month _ ((bitSet_iff _ _).mp hset)).2
      omega
    refine ⟨1440 * dayNumber (year (u / 1440)) (month (u / 1440) + j) 1, ?_, ?_⟩
    · apply passes_day (lt_dayNumber_month hle (by omega))
      intro w h₁ h₂
      obtain ⟨-, h₃, h₄⟩ := month_before (show u / 1440 ≤ w / 1440 by omega) hle (by omega) h₂
      exact not_minuteMatches_of_day (not_dayMatches_of_month (hbefore _ (by omega) (by omega)))
    · rw [normalize_day]
  rw [if_neg c₂]
  have hmonth := remaining_here _ c₂
  by_cases c₃ : cron_day_match expr ⟨0, u % 60, u / 60 % 24, dayOfMonth (u / 1440),
      month (u / 1440), year (u / 1440) - 1900, weekday (u / 1440), 0⟩ = false
  · -- the day does not match
    right
    refine ⟨1440 * (u / 1440 + 1), ?_, ?_⟩
    · apply passes_day (by omega)
      intro w h₁ h₂
      have hwu : w / 1440 = u / 1440 := by omega
      apply not_minuteMatches_of_day
      rw [hwu]
      intro hd
      rw [hday, hd.2] at c₃
      cases c₃
    · rw [if_pos c₃, normalize_day, dayNumber_succ]
  rw [if_neg c₃]
  have hd : DayMatches expr (u / 1440) := ⟨hmonth, by rw [← hday]; simpa using c₃⟩
  by_cases c₄ : expr.hour_bits >>> (u / 60 % 24).toNat = 0
  · -- no hour is left in the day
    right
    refine ⟨1440 * (u / 1440 + 1), ?_, ?_⟩
    · apply passes_day (by omega)
      intro w h₁ h₂
      exact not_minuteMatches_of_hour (remaining_zero _ c₄ _ (by omega))
    · rw [if_pos c₄, normalize_day, dayNumber_succ]
  rw [if_neg c₄]
  by_cases c₅ : expr.hour_bits >>> (u / 60 % 24).toNat &&& 1 = 0
  · -- a later hour of the day
    right
    obtain ⟨hj, hset, hbefore⟩ := remaining_later _ (by omega) c₄ c₅
    rw [if_pos c₅]
    have hnow := hbefore _ le_rfl (by omega)
    generalize cron_jump 64 (expr.hour_bits >>> (u / 60 % 24).toNat) 0 = j at *
    have hle : u / 60 % 24 + j ≤ 23 := by
      have := hw.hour _ ((bitSet_iff _ _).mp hset)
      omega
    refine ⟨1440 * (u / 1440) + 60 * (u / 60 % 24 + j) + 0,
      ⟨by omega, ?_, Or.inr ⟨by omega, hd, ?_⟩⟩, ?_⟩
    · intro w h₁ h₂
      exact not_minuteMatches_of_hour (hbefore _ (by omega) (by omega))
    · intro hne
      have hs : stage expr u = 2 := by
        unfold stage
        rw [hnow]
        rfl
      have hh : (1440 * (u / 1440) + 60 * (u / 60 % 24 + j) + 0) / 60 % 24 = u / 60 % 24 + j := by
        omega
      have := stage_matching_hour hne (u := 1440 * (u / 1440) + 60 * (u / 60 % 24 + j) + 0)
        (by omega) (by rw [hh]; exact hset)
      omega
    · rw [normalize_minute]
  rw [if_neg c₅]
  have hhour := remaining_here _ c₅
  by_cases c₆ : expr.minute_bits >>> (u % 60).toNat = 0
  · -- no minute is left in the hour
    right
    rw [if_pos c₆, normalize_minute]
    have hnow := remaining_zero _ c₆ _ (le_refl (u % 60))
    refine ⟨_, ⟨by omega, ?_, ?_⟩, rfl⟩
    · intro w h₁ h₂
      exact not_minuteMatches_of_minute (remaining_zero _ c₆ _ (by omega))
    · by_cases hlast : u / 60 % 24 = 23
      · left
        omega
      · right
        refine ⟨by omega, hd, ?_⟩
        intro hne
        have hs : stage expr u = 3 := by
          unfold stage
          rw [if_pos hhour, hnow, if_neg (by simp), if_pos c₆]
        have := stage_full_hour hne (u := 1440 * (u / 1440) + 60 * (u / 60 % 24 + 1) + 0)
          (by omega)
        omega
  rw [if_neg c₆]
  by_cases c₇ : expr.minute_bits >>> (u % 60).toNat &&& 1 = 0
  · -- a later minute of the hour
    right
    obtain ⟨hj, hset, hbefore⟩ := remaining_later _ (by omega) c₆ c₇
    rw [if_pos c₇]
    have hnow := hbefore _ le_rfl (by omega)
    generalize cron_jump 64 (expr.minute_bits >>> (u % 60).toNat) 0 = j at *
    have hle : u % 60 + j ≤ 59 := by
      have := hw.minute _ ((bitSet_iff _ _).mp hset)
      omega
    refine ⟨1440 * (u / 1440) + 60 * (u / 60 % 24) + (u % 60 + j),
      ⟨by omega, ?_, Or.inr ⟨by omega, hd, ?_⟩⟩, ?_⟩
    · intro w h₁ h₂
      exact not_minuteMatches_of_minute (hbefore _ (by omega) (by omega))
    · intro _
      have hs : stage expr u = 1 := by
        unfold stage
        rw [if_pos hhour, hnow, if_neg (by simp), if_neg c₆]
      have h₁ : (1440 * (u / 1440) + 60 * (u / 60 % 24) + (u % 60 + j)) / 60 % 24 =
          u / 60 % 24 := by
        omega
      have h₂ : (1440 * (u / 1440) + 60 * (u / 60 % 24) + (u % 60 + j)) % 60 = u % 60 + j := by
        omega
      rw [hs]
      unfold stage
      rw [h₁, h₂, if_pos hhour, if_pos hset]
      omega
    · rw [normalize_minute]
  · -- the minute matches
    left
    rw [if_neg c₇, hcand]
    exact ⟨⟨remaining_here _ c₇, hhour, hd⟩, rfl⟩

theorem loop_match {u : ℤ} (hw : expr.WellFormed) (hu : MinuteMatches expr u) (iters : ℕ) :
    cron_next_loop (fixedOffset offset) expr (iters + 1) (brokenDown (60 * u)) =
      if 60 * (u - offset) ≠ -1 then .ok (60 * (u - offset)) else .error .estate := by
  rcases next_step offset hw u with ⟨-, h⟩ | ⟨u', hp, -⟩
  · rw [cron_next_loop, h]
  · exact absurd hu (hp.skipped u le_rfl hp.lt)

theorem loop_pass {u : ℤ} (hw : expr.WellFormed) (hu : ¬ MinuteMatches expr u) (iters : ℕ) :
    ∃ u', Passes expr u u' ∧
      cron_next_loop (fixedOffset offset) expr (iters + 1) (brokenDown (60 * u)) =
        cron_next_loop (fixedOffset offset) expr iters (brokenDown (60 * u')) := by
  rcases next_step offset hw u with ⟨hm, -⟩ | ⟨u', hp, h⟩
  · exact absurd hm hu
  · refine ⟨u', hp, ?_⟩
    rw [cron_next_loop, h]

theorem loop_none (hw : expr.WellFormed) (iters : ℕ) :
    ∀ u : ℤ, (∀ w, u ≤ w → ¬ MinuteMatches expr w) →
      cron_next_loop (fixedOffset offset) expr iters (brokenDown (60 * u)) = .error .enext := by
  induction iters with
  | zero =>
    intro u _
    rfl
  | succ iters ih =>
    intro u hno
    obtain ⟨u', hp, h⟩ := loop_pass offset hw (hno u le_rfl) iters
    rw [h]
    exact ih u' fun w hle => hno w (le_trans hp.lt.le hle)

/-- The passes that are left before the first match `v`: one for each day on the way, and the
stages of the first day and of the last one. -/
def passesLeft (expr : SaltsCronExpr) (v u : ℤ) : ℕ :=
  if u / 1440 = v / 1440 then stage expr u
  else (v / 1440 - u / 1440).toNat + 3 + if DayMatches expr (u / 1440) then stage expr u else 0

variable (expr) in
theorem stage_le (u : ℤ) : stage expr u ≤ 3 := by
  unfold stage
  split_ifs <;> omega

theorem minute_bits_ne (hv : MinuteMatches expr v) : expr.minute_bits ≠ 0 := by
  intro h
  have := hv.1
  rw [bitSet_iff, h] at this
  simp at this

theorem match_on_day (hv : MinuteMatches expr v) (hd : DayMatches expr n) :
    MinuteMatches expr (1440 * n + v % 1440) := by
  have h₁ : (1440 * n + v % 1440) % 60 = v % 60 := by omega
  have h₂ : (1440 * n + v % 1440) / 60 % 24 = v / 60 % 24 := by omega
  have h₃ : (1440 * n + v % 1440) / 1440 = n := by omega
  unfold MinuteMatches
  rw [h₁, h₂, h₃]
  exact ⟨hv.1, hv.2.1, hd⟩

theorem passesLeft_lt {u u' : ℤ} (hv : MinuteMatches expr v) (hp : Passes expr u u') (hle : u' ≤ v)
    (hfirst : ∀ w, u' ≤ w → w < v → ¬ MinuteMatches expr w) :
    passesLeft expr v u' < passesLeft expr v u := by
  have hu := stage_le expr u'
  unfold passesLeft
  rcases hp.progress with ⟨hday, h₀⟩ | ⟨hday, hd, hstage⟩
  · rw [if_neg (show u / 1440 ≠ v / 1440 by omega)]
    by_cases hv' : u' / 1440 = v / 1440
    · rw [if_pos hv']
      omega
    · -- a day before the last one that matches from its first minute would hold a match
      have hnd : ¬ DayMatches expr (u' / 1440) := by
        intro hd
        exact hfirst _ (by omega) (by omega) (match_on_day hv hd)
      rw [if_neg hv', if_neg hnd]
      omega
  · have := hstage (minute_bits_ne hv)
    rw [hday, if_pos hd]
    split_ifs <;> omega

theorem loop_finds (hw : expr.WellFormed) (hv : MinuteMatches expr v) (iters : ℕ) :
    ∀ u : ℤ, u ≤ v → (∀ w, u ≤ w → w < v → ¬ MinuteMatches expr w) →
      passesLeft expr v u < iters →
      cron_next_loop (fixedOffset offset) expr iters (brokenDown (60 * u)) =
        if 60 * (v - offset) ≠ -1 then .ok (60 * (v - offset)) else .error .estate := by
  induction iters with
  | zero =>
    intro u _ _ h
    omega
  | succ iters ih =>
    intro u hle hfirst hlt
    by_cases hu : MinuteMatches expr u
    · have huv : u = v := by
        by_contra hne
        exact hfirst u le_rfl (by omega) hu
      rw [huv]
      exact loop_match offset hw hv iters
    · obtain ⟨u', hp, h⟩ := loop_pass offset hw hu iters
      have hle' : u' ≤ v := by
        by_contra hgt
        exact hp.skipped v hle (by omega) hv
      have hfirst' : ∀ w, u' ≤ w → w < v → ¬ MinuteMatches expr w :=
        fun w h₁ h₂ => hfirst w (le_trans hp.lt.le h₁) h₂
      have := passesLeft_lt hv hp hle' hfirst'
      rw [h]
      exact ih u' hle' hfirst' (by omega)

end Pass

theorem dayMatches_by (h : DayMatches expr n) :
    (∀ n', month n' = month n → dayOfMonth n' = dayOfMonth n → DayMatches expr n') ∨
      ∀ n', month n' = month n → weekday n' = weekday n → DayMatches expr n' := by
  have hday : ∀ k : ℤ, 86400 * k / 86400 = k := fun k => by omega
  obtain ⟨hm, hd⟩ := h
  by_cases hdow : bitSet expr.day_of_week_bits (weekday n) = true ∧ expr.day_of_week_any = false
  · right
    intro n' h₁ h₂
    refine ⟨by rw [h₁]; exact hm, ?_⟩
    simp only [cron_day_match, brokenDown, hday, h₂, hdow.1, hdow.2] at hd ⊢
    simp
  · left
    intro n' h₁ h₂
    refine ⟨by rw [h₁]; exact hm, ?_⟩
    simp only [cron_day_match, brokenDown, hday, h₂] at hd ⊢
    cases ha : expr.day_of_week_any with
    | true =>
      simp only [ha, Bool.and_true] at hd ⊢
      cases hb : expr.day_of_month_any <;> simp_all
    | false =>
      simp only [ha, and_true, Bool.not_eq_true] at hdow
      simp only [ha, Bool.and_false, hdow] at hd ⊢
      cases hb : expr.day_of_month_any <;> simp_all

theorem match_recurs (hv : MinuteMatches expr v) (n₀ : ℤ) :
    ∃ v', MinuteMatches expr v' ∧ n₀ < v' / 1440 ∧ v' / 1440 < n₀ + 9 * 366 := by
  obtain ⟨n, h₁, h₂, hd⟩ : ∃ n, n₀ < n ∧ n < n₀ + 9 * 366 ∧ DayMatches expr n := by
    rcases dayMatches_by hv.2.2 with h | h
    · obtain ⟨n, h₁, h₂, h₃, h₄⟩ := exists_same_date (v / 1440) n₀
      exact ⟨n, h₁, h₂, h n h₃ h₄⟩
    · obtain ⟨n, h₁, h₂, h₃, h₄⟩ := exists_same_weekday (v / 1440) n₀
      exact ⟨n, h₁, h₂, h n h₃ h₄⟩
  exact ⟨_, match_on_day hv hd, by omega, by omega⟩

end Minutes

def fireTimes (zone : Zone) (expr : SaltsCronExpr) (after : ℤ) : Set ℤ :=
  {t | after < t ∧ t % 60 = 0 ∧ salts_cron_matches zone (some expr) t = true}

section Next
variable {expr : SaltsCronExpr} (offset : ℤ) {after : ℤ}

def firstMinute (after : ℤ) : ℤ := after / 60 + 1 + offset

theorem next_eq_loop (ha : 0 ≤ after) :
    salts_cron_next (fixedOffset offset) (some expr) after true =
      cron_next_loop (fixedOffset offset) expr 5000 (brokenDown (60 * firstMinute offset after)) := by
  have hmod : after.tmod 60 = after % 60 := Int.tmod_eq_emod_of_nonneg ha
  have hgt : ¬ cron_floor_minute after + 60 ≤ after := by
    unfold cron_floor_minute
    rw [hmod]
    omega
  have hs : cron_floor_minute after + 60 + 60 * offset = 60 * firstMinute offset after := by
    unfold cron_floor_minute firstMinute
    rw [hmod]
    omega
  simp only [salts_cron_next, if_neg hgt, cron_localtime_safe, fixedOffset, hs]

theorem mem_fireTimes (t : ℤ) : t ∈ fireTimes (fixedOffset offset) expr after ↔
    ∃ u, firstMinute offset after ≤ u ∧ MinuteMatches expr u ∧ t = 60 * (u - offset) := by
  unfold firstMinute
  constructor
  · rintro ⟨h₁, h₂, h₃⟩
    exact ⟨t / 60 + offset, by omega, (matches_iff expr offset t h₂).mp h₃, by omega⟩
  · rintro ⟨u, h₁, h₂, rfl⟩
    have hu : 60 * (u - offset) / 60 + offset = u := by omega
    refine ⟨by omega, by omega, ?_⟩
    rw [matches_iff expr offset _ (by omega), hu]
    exact h₂

theorem next_finds (hw : expr.WellFormed) (ha : 0 ≤ after)
    (hne : (fireTimes (fixedOffset offset) expr after).Nonempty) :
    ∃ t, IsLeast (fireTimes (fixedOffset offset) expr after) t ∧
      salts_cron_next (fixedOffset offset) (some expr) after true = .ok t := by
  obtain ⟨t, ht⟩ := hne
  obtain ⟨u, hu, hmu, -⟩ := (mem_fireTimes offset t).mp ht
  obtain ⟨v, ⟨hv, hmv⟩, hleast⟩ := Int.exists_least_of_bdd
    (P := fun w => firstMinute offset after ≤ w ∧ MinuteMatches expr w)
    ⟨firstMinute offset after, fun w h => h.1⟩ ⟨u, hu, hmu⟩
  have hfirst : ∀ w, firstMinute offset after ≤ w → w < v → ¬ MinuteMatches expr w := by
    intro w h₁ h₂ hm
    have := hleast w ⟨h₁, hm⟩
    omega
  have hiters : passesLeft expr v (firstMinute offset after) < 5000 := by
    obtain ⟨v', hm', h₁, h₂⟩ := match_recurs hmv (firstMinute offset after / 1440)
    have := hleast v' ⟨by omega, hm'⟩
    have hs := stage_le expr (firstMinute offset after)
    unfold passesLeft
    split_ifs <;> omega
  refine ⟨60 * (v - offset), ⟨(mem_fireTimes offset _).mpr ⟨v, hv, hmv, rfl⟩, ?_⟩, ?_⟩
  · intro t' ht'
    obtain ⟨w, h₁, h₂, rfl⟩ := (mem_fireTimes offset t').mp ht'
    have := hleast w ⟨h₁, h₂⟩
    omega
  · rw [next_eq_loop offset ha, loop_finds offset hw hmv 5000 _ hv hfirst hiters, if_pos (by omega)]

theorem next_none (hw : expr.WellFormed) (ha : 0 ≤ after)
    (hno : fireTimes (fixedOffset offset) expr after = ∅) :
    salts_cron_next (fixedOffset offset) (some expr) after true = .error .enext := by
  rw [next_eq_loop offset ha]
  apply loop_none offset hw
  intro w h₁ h₂
  have : 60 * (w - offset) ∈ fireTimes (fixedOffset offset) expr after :=
    (mem_fireTimes offset _).mpr ⟨w, h₁, h₂, rfl⟩
  rw [hno] at this
  exact this

/-- The search returns the least whole minute after `after` that matches whenever there is
one, and reports that there is none exactly when no minute ever matches again. -/
theorem next_is_least_fire (expression : List Char)
    (hparse : salts_cron_parse (some expression) true = .ok expr) (ha : 0 ≤ after) :
    ((fireTimes (fixedOffset offset) expr after).Nonempty →
      ∃ t, IsLeast (fireTimes (fixedOffset offset) expr after) t ∧
        salts_cron_next (fixedOffset offset) (some expr) after true = .ok t) ∧
    (salts_cron_next (fixedOffset offset) (some expr) after true = .error .enext ↔
      fireTimes (fixedOffset offset) expr after = ∅) := by
  have hw := parse_wellFormed hparse
  refine ⟨next_finds offset hw ha, ?_, next_none offset hw ha⟩
  intro h
  by_contra hne
  obtain ⟨t, -, ht⟩ := next_finds offset hw ha (Set.nonempty_iff_ne_empty.mpr hne)
  rw [h] at ht
  cases ht

end Next

/-- 29 February, from 1 March 2096: 2100 is no leap year. -/
theorem next_is_least_fire_leap_day :
    ∃ expr, salts_cron_parse (some "0 0 29 2 *".toList) true = .ok expr ∧
      IsLeast (fireTimes (fixedOffset 60) expr 3981398400) 4233682800 := by
  refine ⟨⟨1, 1, 536870912, 4, 127, false, true⟩, by decide +kernel, ?_⟩
  have hparse : salts_cron_parse (some "0 0 29 2 *".toList) true =
      .ok ⟨1, 1, 536870912, 4, 127, false, true⟩ := by decide +kernel
  have hne : (fireTimes (fixedOffset 60) ⟨1, 1, 536870912, 4, 127, false, true⟩
      3981398400).Nonempty := ⟨4233682800, by decide +kernel, by decide +kernel, by decide +kernel⟩
  obtain ⟨t, ht, hnext⟩ := (next_is_least_fire 60 _ hparse (by omega)).1 hne
  have : salts_cron_next (fixedOffset 60) (some ⟨1, 1, 536870912, 4, 127, false, true⟩)
      3981398400 true = .ok 4233682800 := by decide +kernel
  rw [hnext] at this
  cases this
  exact ht

end SaltsUtils.Cron
