import SaltsUtils.Library.Gregorian
import SaltsUtils.Cron.Expression

/-!
# Matching times and the search for the next one

`salts_cron_matches` and `salts_cron_next` of `src/cron/src/salts_cron.c`, over
the two functions of the C library that they call. Times and the members of
`struct tm` are unbounded integers here.
-/

set_option autoImplicit false

namespace SaltsUtils.Cron
open Gregorian

structure Tm where
  tm_sec : ℤ
  tm_min : ℤ
  tm_hour : ℤ
  tm_mday : ℤ
  tm_mon : ℤ
  tm_year : ℤ
  tm_wday : ℤ
  tm_isdst : ℤ
deriving DecidableEq

/-- `localtime_r`, and `mktime` with the members as it leaves them. -/
structure Zone where
  localtime : ℤ → Option Tm
  mktime : Tm → ℤ × Tm

/-- The calendar fields of a count of local seconds. -/
def brokenDown (s : ℤ) : Tm where
  tm_sec := s % 60
  tm_min := s / 60 % 60
  tm_hour := s / 3600 % 24
  tm_mday := dayOfMonth (s / 86400)
  tm_mon := month (s / 86400)
  tm_year := year (s / 86400) - 1900
  tm_wday := weekday (s / 86400)
  tm_isdst := 0

def Tm.seconds (tm : Tm) : ℤ :=
  dayNumber (tm.tm_year + 1900) tm.tm_mon tm.tm_mday * 86400 + tm.tm_hour * 3600 +
    tm.tm_min * 60 + tm.tm_sec

/-- Local time that is a whole number of minutes ahead of UTC, all the time. -/
def fixedOffset (minutes : ℤ) : Zone where
  localtime t := some (brokenDown (t + 60 * minutes))
  mktime tm := (tm.seconds - 60 * minutes, brokenDown tm.seconds)

section Search
variable (zone : Zone)

def cron_localtime_safe (time : ℤ) : Option Tm := zone.localtime time

/-- The remainder has the sign of the time. -/
def cron_floor_minute (time : ℤ) : ℤ := time - time.tmod 60

def bitSet (bits : BitVec 64) (value : ℤ) : Bool := (bits &&& (1#64 <<< value.toNat)) != 0

def cron_day_match (expr : SaltsCronExpr) (tm : Tm) : Bool :=
  let dom_match := bitSet expr.day_of_month_bits tm.tm_mday
  let dow_match := bitSet expr.day_of_week_bits tm.tm_wday
  if expr.day_of_month_any && expr.day_of_week_any then true
  else if expr.day_of_month_any then dow_match
  else if expr.day_of_week_any then dom_match
  else dom_match || dow_match

def salts_cron_matches (expr : Option SaltsCronExpr) (time : ℤ) : Bool :=
  match expr with
  | none => false
  | some expr =>
    match cron_localtime_safe zone time with
    | none => false
    | some local_tm =>
      if bitSet expr.minute_bits local_tm.tm_min = false then false
      else if bitSet expr.hour_bits local_tm.tm_hour = false then false
      else if bitSet expr.month_bits (local_tm.tm_mon + 1) = false then false
      else cron_day_match expr local_tm

/-- `while ((remaining & 1) == 0) { jump++; remaining >>= 1; }`, which is entered with a bit
set: a word has 64 of them. -/
def cron_jump : ℕ → BitVec 64 → ℤ → ℤ
  | 0, _, jump => jump
  | fuel + 1, remaining, jump =>
    if remaining &&& 1 = 0 then cron_jump fuel (remaining >>> 1) (jump + 1) else jump

/-- `mktime` on the changed members, with the daylight saving flag left open. -/
def Zone.normalize (tm : Tm) : Tm := (zone.mktime { tm with tm_isdst := -1 }).2

def cron_next_step (expr : SaltsCronExpr) (local_tm : Tm) : Tm ⊕ Except Status ℤ :=
  let remaining := expr.month_bits >>> (local_tm.tm_mon + 1).toNat
  if remaining = 0 then
    .inl (zone.normalize { local_tm with
      tm_year := local_tm.tm_year + 1, tm_mon := 0, tm_mday := 1, tm_hour := 0, tm_min := 0 })
  else if remaining &&& 1 = 0 then
    .inl (zone.normalize { local_tm with
      tm_mon := local_tm.tm_mon + cron_jump 64 remaining 0, tm_mday := 1, tm_hour := 0,
      tm_min := 0 })
  else if cron_day_match expr local_tm = false then
    .inl (zone.normalize { local_tm with
      tm_mday := local_tm.tm_mday + 1, tm_hour := 0, tm_min := 0 })
  else
    let remaining := expr.hour_bits >>> local_tm.tm_hour.toNat
    if remaining = 0 then
      .inl (zone.normalize { local_tm with
        tm_mday := local_tm.tm_mday + 1, tm_hour := 0, tm_min := 0 })
    else if remaining &&& 1 = 0 then
      .inl (zone.normalize { local_tm with
        tm_hour := local_tm.tm_hour + cron_jump 64 remaining 0, tm_min := 0 })
    else
      let remaining := expr.minute_bits >>> local_tm.tm_min.toNat
      if remaining = 0 then
        .inl (zone.normalize { local_tm with tm_hour := local_tm.tm_hour + 1, tm_min := 0 })
      else if remaining &&& 1 = 0 then
        .inl (zone.normalize { local_tm with
          tm_min := local_tm.tm_min + cron_jump 64 remaining 0 })
      else
        let candidate := (zone.mktime { local_tm with tm_isdst := -1 }).1
        .inr (if candidate ≠ -1 then .ok candidate else .error .estate)

def cron_next_loop (expr : SaltsCronExpr) : ℕ → Tm → Except Status ℤ
  | 0, _ => .error .enext
  | iters + 1, local_tm =>
    match cron_next_step zone expr local_tm with
    | .inl local_tm => cron_next_loop expr iters local_tm
    | .inr result => result

def salts_cron_next (expr : Option SaltsCronExpr) (after : ℤ) (next_out : Bool) :
    Except Status ℤ :=
  match expr, next_out with
  | some expr, true =>
    let candidate := cron_floor_minute after + 60
    let candidate := if candidate ≤ after then candidate + 60 else candidate
    match cron_localtime_safe zone candidate with
    | none => .error .estate
    | some local_tm => cron_next_loop zone expr 5000 local_tm
  | _, _ => .error .einval

end Search

end SaltsUtils.Cron
