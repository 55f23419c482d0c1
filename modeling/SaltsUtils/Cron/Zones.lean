import Mathlib.Data.BitVec
import SaltsUtils.Cron.Runner

/-!
# Time zones whose clock is changed

The search of `salts_cron_next` carries its candidate as the members of `struct tm` and
asks `mktime` for an instant at the end.
-/

set_option autoImplicit false

namespace SaltsUtils.Cron
open Gregorian

/-- A local clock with the instants that `mktime` returns for members whose daylight saving
flag is left open: one that shows these members, where there is one. -/
structure TimeZone where
  offset : ℤ → ℤ
  isdst : ℤ → ℤ
  instant : Tm → ℤ
  shown : ∀ tm t, tm.tm_isdst = -1 → t + offset t = tm.seconds →
    instant tm + offset (instant tm) = tm.seconds

namespace TimeZone
variable (z : TimeZone)

/-- The local seconds that the clock shows. -/
def wall (t : ℤ) : ℤ := t + z.offset t

def reading (t : ℤ) : Tm := { brokenDown (z.wall t) with tm_isdst := z.isdst t }

/-- The two functions of the C library; `mktime` leaves the members of its result. -/
def zone : Zone where
  localtime t := some (z.reading t)
  mktime tm := (z.instant tm, z.reading (z.instant tm))

/-- What `mktime` makes of the reading at an instant. -/
def resolved (t : ℤ) : ℤ := z.instant { z.reading t with tm_isdst := -1 }

end TimeZone

/-- The members that a pass hands to `mktime` for the next one. -/
def cron_request (expr : SaltsCronExpr) (local_tm : Tm) : Option Tm :=
  match cron_next_step ⟨fun _ => none, fun tm => (0, tm)⟩ expr local_tm with
  | .inl asked => some asked
  | .inr _ => none

def cron_next_n_loop (zone : Zone) (expr : SaltsCronExpr) : ℕ → ℤ → List ℤ × Option Status
  | 0, _ => ([], none)
  | rounds + 1, candidate =>
    match salts_cron_next zone (some expr) candidate true with
    | .error rc => ([], some rc)
    | .ok next => (next :: (cron_next_n_loop zone expr rounds next).1,
        (cron_next_n_loop zone expr rounds next).2)

/-- The times that were written, whose number is the return value, or the code. -/
def salts_cron_next_n (zone : Zone) (expr : Option SaltsCronExpr) (after : ℤ) (next_out : Bool)
    (max_count : ℕ) : Except Status (List ℤ) :=
  match expr with
  | none => .error .einval
  | some expr =>
    if max_count = 0 then .ok []
    else if next_out = false then .error .einval
    else
      match cron_next_n_loop zone expr (Int.bmod max_count (2 ^ 32)).toNat after with
      | ([], some rc) => .error rc
      | (written, _) => .ok written

section Pass
variable (expr : SaltsCronExpr)

theorem next_step_request (zone : Zone) (tm : Tm) : cron_next_step zone expr tm =
    match cron_request expr tm with
    | some asked => .inl (zone.mktime asked).2
    | none => .inr (if (zone.mktime { tm with tm_isdst := -1 }).1 ≠ -1 then
        .ok (zone.mktime { tm with tm_isdst := -1 }).1 else .error .estate) := by
  unfold cron_request cron_next_step
  simp only [Zone.normalize]
  split_ifs <;> simp_all

theorem remaining_bit (bits : BitVec 64) (value : ℤ) :
    bits >>> value.toNat &&& 1 = 0 ↔ bitSet bits value = false := by
  rw [and_one_eq_zero, ← Bool.not_eq_true, ← Bool.not_eq_true, bitSet_iff]
  simp

theorem request_none (tm : Tm) : cron_request expr tm = none ↔
    bitSet expr.minute_bits tm.tm_min = true ∧ bitSet expr.hour_bits tm.tm_hour = true ∧
      bitSet expr.month_bits (tm.tm_mon + 1) = true ∧ cron_day_match expr tm = true := by
  have hzero : ∀ bits : BitVec 64, ∀ value : ℤ, bits >>> value.toNat = 0 →
      bitSet bits value = false := by
    intro bits value h
    rw [← remaining_bit, h]
    rfl
  unfold cron_request cron_next_step
  simp only [remaining_bit]
  constructor
  · intro h
    split_ifs at h <;> simp_all
  · rintro ⟨h₁, h₂, h₃, h₄⟩
    rw [if_neg, if_neg (by simp [h₃]), if_neg (by simp [h₄]), if_neg, if_neg (by simp [h₂]),
      if_neg, if_neg (by simp [h₁])]
    · intro h
      rw [hzero _ _ h] at h₁
      cases h₁
    · intro h
      rw [hzero _ _ h] at h₂
      cases h₂
    · intro h
      rw [hzero _ _ h] at h₃
      cases h₃

end Pass

theorem seconds_brokenDown (w : ℤ) : (brokenDown w).seconds = w := by
  simp only [Tm.seconds, brokenDown, show year (w / 86400) - 1900 + 1900 = year (w / 86400) by ring,
    dayNumber_date]
  omega

namespace TimeZone
variable (z : TimeZone) (expr : SaltsCronExpr)

theorem reading_seconds (t dst : ℤ) : ({ z.reading t with tm_isdst := dst } : Tm).seconds = z.wall t :=
  seconds_brokenDown (z.wall t)

theorem wall_resolved (t : ℤ) : z.wall (z.resolved t) = z.wall t := by
  have hs := z.reading_seconds t (-1)
  rw [← hs]
  exact z.shown _ t rfl hs.symm

theorem matches_iff_request (t : ℤ) : salts_cron_matches z.zone (some expr) t = true ↔
    cron_request expr (z.reading t) = none := by
  rw [request_none]
  simp only [salts_cron_matches, cron_localtime_safe, zone]
  split_ifs <;> simp_all

theorem matches_of_wall {t u : ℤ} (h : z.wall t = z.wall u) :
    salts_cron_matches z.zone (some expr) t = salts_cron_matches z.zone (some expr) u := by
  simp only [salts_cron_matches, cron_localtime_safe, zone, reading, h]
  rfl

/-- From the reading at one instant the search comes to rest on the reading at another within
so many passes: it rests where the expression matches, and goes on from the instant that
`mktime` gives for the members it asks for. -/
inductive Rests : ℕ → ℤ → ℤ → Prop
  | here {passes : ℕ} {t : ℤ} (hm : salts_cron_matches z.zone (some expr) t = true) :
      Rests (passes + 1) t t
  | moved {passes : ℕ} {t u : ℤ} {asked : Tm} (hr : cron_request expr (z.reading t) = some asked)
      (hu : Rests passes (z.instant asked) u) : Rests (passes + 1) t u

/-- The search from the minute after `after` comes to rest on a reading that `mktime` takes for
an instant that is not after `after`. -/
def FallsBack (after : ℤ) : Prop :=
  ∃ u, z.Rests expr 5000 ((after / 60 + 1) * 60) u ∧ z.resolved u ≤ after ∧ z.resolved u ≠ -1

variable {z expr}

theorem Rests.matches {passes : ℕ} {t u : ℤ} (h : z.Rests expr passes t u) :
    salts_cron_matches z.zone (some expr) u = true := by
  induction h with
  | here hm => exact hm
  | moved hr hu ih => exact ih

theorem loop_ok (passes : ℕ) : ∀ s t : ℤ,
    cron_next_loop z.zone expr passes (z.reading s) = .ok t ↔
      ∃ u, z.Rests expr passes s u ∧ z.resolved u = t ∧ t ≠ -1 := by
  induction passes with
  | zero =>
    intro s t
    constructor
    · intro h
      cases h
    · rintro ⟨u, hu, -⟩
      cases hu
  | succ passes ih =>
    intro s t
    rw [cron_next_loop, next_step_request]
    cases hr : cron_request expr (z.reading s) with
    | none =>
      have hm := (z.matches_iff_request expr s).mpr hr
      have hc : (z.zone.mktime { z.reading s with tm_isdst := -1 }).1 = z.resolved s := rfl
      simp only [hc]
      constructor
      · intro h
        split_ifs at h with hne
        cases h
        exact ⟨s, .here hm, rfl, hne⟩
      · rintro ⟨u, hu, hut, hne⟩
        cases hu with
        | here _ => rw [hut, if_pos hne]
        | moved hr' _ =>
          rw [hr] at hr'
          cases hr'
    | some asked =>
      show cron_next_loop z.zone expr passes (z.reading (z.instant asked)) = .ok t ↔ _
      rw [ih]
      constructor
      · rintro ⟨u, hu, hrest⟩
        exact ⟨u, .moved hr hu, hrest⟩
      · rintro ⟨u, hu, hrest⟩
        cases hu with
        | here hm =>
          rw [(z.matches_iff_request expr _).mp hm] at hr
          cases hr
        | moved hr' hu =>
          rw [hr] at hr'
          cases hr'
          exact ⟨u, hu, hrest⟩

theorem next_ok {after : ℤ} (ha : 0 ≤ after) (t : ℤ) :
    salts_cron_next z.zone (some expr) after true = .ok t ↔
      ∃ u, z.Rests expr 5000 ((after / 60 + 1) * 60) u ∧ z.resolved u = t ∧ t ≠ -1 := by
  have hfloor := floor_minute_eq ha
  have hstart : cron_floor_minute after + 60 = (after / 60 + 1) * 60 := by omega
  have hgt : ¬ (after / 60 + 1) * 60 ≤ after := by omega
  simp only [salts_cron_next, cron_localtime_safe, hstart, if_neg hgt]
  exact loop_ok 5000 _ t

theorem next_matches {after t : ℤ} (ha : 0 ≤ after)
    (h : salts_cron_next z.zone (some expr) after true = .ok t) :
    salts_cron_matches z.zone (some expr) t = true := by
  obtain ⟨u, hu, rfl, -⟩ := (next_ok ha t).mp h
  rw [z.matches_of_wall expr (z.wall_resolved u)]
  exact hu.matches

theorem next_after_iff {after : ℤ} (ha : 0 ≤ after) :
    (∀ t, salts_cron_next z.zone (some expr) after true = .ok t → after < t) ↔
      ¬ z.FallsBack expr after := by
  constructor
  · rintro h ⟨u, hu, hle, hne⟩
    have := h _ ((next_ok ha _).mpr ⟨u, hu, rfl, hne⟩)
    omega
  · intro h t ht
    obtain ⟨u, hu, rfl, hne⟩ := (next_ok ha t).mp ht
    by_contra hle
    exact h ⟨u, hu, by omega, hne⟩

theorem next_n_loop_ascends (rounds : ℕ) : ∀ after : ℤ, 0 ≤ after →
    (∀ anchor, after ≤ anchor → ¬ z.FallsBack expr anchor) →
    (after :: (cron_next_n_loop z.zone expr rounds after).1).IsChain (· < ·) := by
  induction rounds with
  | zero =>
    intro after _ _
    exact .singleton after
  | succ rounds ih =>
    intro after ha hf
    rw [cron_next_n_loop]
    cases hn : salts_cron_next z.zone (some expr) after true with
    | error rc => exact .singleton after
    | ok next =>
      have hlt := (next_after_iff ha).mpr (hf after le_rfl) next hn
      exact .cons_cons hlt (ih next (by omega) fun anchor h => hf anchor (by omega))

theorem next_n_ascends {after : ℤ} {max_count : ℕ} {out : List ℤ} (ha : 0 ≤ after)
    (hf : ∀ anchor, after ≤ anchor → ¬ z.FallsBack expr anchor)
    (h : salts_cron_next_n z.zone (some expr) after true max_count = .ok out) :
    (after :: out).IsChain (· < ·) := by
  have hchain := next_n_loop_ascends (Int.bmod max_count (2 ^ 32)).toNat after ha hf
  unfold salts_cron_next_n at h
  simp only at h
  split_ifs at h
  · cases h
    exact .singleton after
  · split at h
    · cases h
    · rename_i written rc hne heq
      cases h
      rw [heq] at hchain
      exact hchain

theorem dispatch_advances {runner : Runner} {i : ℕ} {call call' : RunnerCall}
    (hcall : runner.calls[i]? = some call) (hc : 0 ≤ call.check)
    (hf : ¬ z.FallsBack runner.expr call.check)
    (hcall' : (runner_dispatch z.zone runner i).calls[i]? = some call')
    (hopen : call'.result = none) : call.check < call'.check := by
  have hi : i < runner.calls.length := (List.getElem?_eq_some_iff.mp hcall).1
  unfold runner_dispatch at hcall'
  rw [hcall] at hcall'
  simp only at hcall'
  split_ifs at hcall' with hres
  · rw [hcall] at hcall'
    cases hcall'
    rw [hopen] at hres
    cases hres
  · cases hn : salts_cron_next z.zone (some runner.expr) call.check true with
    | error rc =>
      rw [hn] at hcall'
      simp only [List.getElem?_set_self hi, Option.some.injEq] at hcall'
      rw [← hcall'] at hopen
      cases hopen
    | ok next_fire =>
      rw [hn] at hcall'
      have hlt := (next_after_iff hc).mpr hf next_fire hn
      simp only at hcall'
      split_ifs at hcall' with hlate
      · simp only [List.getElem?_set_self hi, Option.some.injEq] at hcall'
        rw [← hcall'] at hopen
        cases hopen
      · simp only [List.getElem?_set_self hi, Option.some.injEq] at hcall'
        rw [← hcall']
        exact hlt

end TimeZone

/-- The first `count` times that match after `after` in ascending order, or all where there are
fewer. -/
structure FirstFires (zone : Zone) (expr : SaltsCronExpr) (count : ℕ) (after : ℤ) (out : List ℤ) :
    Prop where
  ascends : (after :: out).IsChain (· < ·)
  fires : ∀ t ∈ out, t ∈ fireTimes zone expr after
  length_le : out.length ≤ count
  rest : ∀ t ∈ fireTimes zone expr after, t ∉ out → out.length = count ∧ ∀ s ∈ out, s < t

section Enumerated
variable {expr : SaltsCronExpr} (offset : ℤ) {after : ℤ}

theorem FirstFires.none {zone : Zone} (count : ℕ) (h : count = 0 ∨ fireTimes zone expr after = ∅) :
    FirstFires zone expr count after [] where
  ascends := .singleton after
  fires := by simp
  length_le := Nat.zero_le count
  rest := by
    intro t ht _
    rcases h with rfl | h
    · simp
    · rw [h] at ht
      cases ht

theorem FirstFires.cons {zone : Zone} {count : ℕ} {next : ℤ} {out : List ℤ}
    (hleast : IsLeast (fireTimes zone expr after) next) (h : FirstFires zone expr count next out) :
    FirstFires zone expr (count + 1) after (next :: out) where
  ascends := .cons_cons hleast.1.1 h.ascends
  fires := by
    intro t ht
    rcases List.mem_cons.mp ht with rfl | ht
    · exact hleast.1
    · obtain ⟨h₁, h₂⟩ := h.fires t ht
      exact ⟨hleast.1.1.trans h₁, h₂⟩
  length_le := Nat.succ_le_succ h.length_le
  rest := by
    intro t ht hout
    obtain ⟨hne, hout⟩ := not_or.mp (mt List.mem_cons.mpr hout)
    have hlt : next < t := lt_of_le_of_ne (hleast.2 ht) (Ne.symm hne)
    obtain ⟨hlength, hs⟩ := h.rest t ⟨hlt, ht.2⟩ hout
    refine ⟨by rw [List.length_cons, hlength], ?_⟩
    intro s hmem
    rcases List.mem_cons.mp hmem with rfl | hmem
    · exact hlt
    · exact hs s hmem

theorem next_n_loop_first (hw : expr.WellFormed) (rounds : ℕ) : ∀ after : ℤ, 0 ≤ after →
    FirstFires (fixedOffset offset) expr rounds after
        (cron_next_n_loop (fixedOffset offset) expr rounds after).1 ∧
      ∀ rc, cron_next_n_loop (fixedOffset offset) expr rounds after = ([], some rc) →
        rc = .enext ∧ fireTimes (fixedOffset offset) expr after = ∅ := by
  induction rounds with
  | zero => exact fun after _ => ⟨.none 0 (.inl rfl), by simp [cron_next_n_loop]⟩
  | succ rounds ih =>
    intro after ha
    rcases (fireTimes (fixedOffset offset) expr after).eq_empty_or_nonempty with hno | hne
    · rw [cron_next_n_loop, next_none offset hw ha hno]
      refine ⟨.none _ (.inr hno), ?_⟩
      rintro rc ⟨⟩
      exact ⟨rfl, hno⟩
    · obtain ⟨next, hleast, hnext⟩ := next_finds offset hw ha hne
      have hlt : after < next := hleast.1.1
      rw [cron_next_n_loop, hnext]
      exact ⟨.cons hleast (ih next (by omega)).1, by simp⟩

/-- The list is made of the first times at which the expression fires, none left out and none
twice, as many of them as were asked for; there is an error only where it never fires again. -/
theorem next_n_enumerates (expression : List Char)
    (hparse : salts_cron_parse (some expression) true = .ok expr) (ha : 0 ≤ after)
    (max_count : ℕ) :
    match salts_cron_next_n (fixedOffset offset) (some expr) after true max_count with
    | .ok out => FirstFires (fixedOffset offset) expr (Int.bmod max_count (2 ^ 32)).toNat after out
    | .error rc => rc = .enext ∧ fireTimes (fixedOffset offset) expr after = ∅ := by
  obtain ⟨hfirst, hrc⟩ := next_n_loop_first offset (parse_wellFormed hparse)
    (Int.bmod max_count (2 ^ 32)).toNat after ha
  unfold salts_cron_next_n
  simp only [Bool.true_eq_false, if_false]
  by_cases hzero : max_count = 0
  · subst hzero
    exact .none 0 (.inl rfl)
  · rw [if_neg hzero]
    rcases hloop : cron_next_n_loop (fixedOffset offset) expr
      (Int.bmod max_count (2 ^ 32)).toNat after with ⟨_ | ⟨next, out⟩, _ | rc⟩
    all_goals rw [hloop] at hfirst
    · exact hfirst
    · exact hrc rc hloop
    · exact hfirst
    · exact hfirst

end Enumerated

/-- 29 February again, from 1 March 2096. -/
theorem next_n_enumerates_leap_days : ∃ expr,
    FirstFires (fixedOffset 60) expr 2 3981398400 [4233682800, 4359913200] := by
  have h := @next_n_enumerates ⟨1, 1, 536870912, 4, 127, false, true⟩ 60 3981398400
    "0 0 29 2 *".toList (by decide +kernel) (by decide) 2
  rw [show salts_cron_next_n _ _ _ _ _ = .ok [4233682800, 4359913200] by decide +kernel] at h
  exact ⟨_, h⟩

/-- A clock that is set back by an hour at 86400; `mktime` takes the first of two instants. -/
def setBack : TimeZone where
  offset t := if t < 86400 then 3600 else 0
  isdst t := if t < 86400 then 1 else 0
  instant tm := if tm.seconds - 3600 < 86400 then tm.seconds - 3600 else tm.seconds
  shown tm t _ h := by
    split_ifs at h ⊢ <;> omega

end SaltsUtils.Cron
