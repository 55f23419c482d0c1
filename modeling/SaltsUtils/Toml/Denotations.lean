import SaltsUtils.Library.Decimal
import SaltsUtils.Library.Gregorian
import SaltsUtils.Toml.Accessors

/-!
# What plain values denote

The integers and the date-times of TOML, apart from how the accessors read them. A date-time
is given by its parts and has one text.
-/

set_option autoImplicit false

namespace SaltsUtils.Toml

def based (base : ℕ) (digits : Bytes) : Option ℤ :=
  if digits ≠ [] ∧ digits.all (digit_below base) then some (digits_value base digits) else none

def decimal (negative : Bool) (digits : Bytes) : Option ℤ :=
  if digits.head? = some 48 ∧ digits ≠ [48] then none
  else (based 10 digits).map fun n => if negative then -n else n

/-- The integer of a text: a decimal with a sign or without, or a hexadecimal, octal or binary
number. -/
def toml_integer : Bytes → Option ℤ
  | 48 :: 120 :: digits => based 16 digits
  | 48 :: 111 :: digits => based 8 digits
  | 48 :: 98 :: digits => based 2 digits
  | text => decimal (sign_of text).1 (sign_of text).2

def InRange (n : ℤ) : Prop := LLONG_MIN ≤ n ∧ n ≤ LLONG_MAX

instance (n : ℤ) : Decidable (InRange n) := inferInstanceAs (Decidable (_ ∧ _))

structure Date where
  year : Fin 10000
  month : Fin 100
  day : Fin 100
  deriving DecidableEq

structure Time where
  hour : Fin 100
  minute : Fin 100
  second : Fin 100
  fraction : List (Fin 10)
  deriving DecidableEq

inductive Offset where
  | zulu (small : Bool)
  | numeric (negative : Bool) (hour minute : Fin 100)
  deriving DecidableEq

inductive Separator where
  | capital
  | small
  | space
  deriving DecidableEq

/-- The four forms: a date, a time, and both with an offset or without. -/
inductive Stamp where
  | date (d : Date)
  | time (t : Time)
  | moment (d : Date) (sep : Separator) (t : Time) (o : Option Offset)
  deriving DecidableEq

def two (n : ℕ) : Bytes := [48 + n / 10, 48 + n % 10]

def Date.text (d : Date) : Bytes :=
  two (d.year.val / 100) ++ two (d.year.val % 100) ++ 45 :: two d.month.val ++ 45 :: two d.day.val

def fraction_text (fraction : List (Fin 10)) : Bytes :=
  if fraction = [] then [] else 46 :: fraction.map fun d => 48 + d.val

def Time.text (t : Time) : Bytes :=
  two t.hour.val ++ 58 :: two t.minute.val ++ 58 :: two t.second.val ++ fraction_text t.fraction

def Offset.text : Offset → Bytes
  | .zulu small => [if small then 122 else 90]
  | .numeric negative hour minute => (if negative then 45 else 43) :: two hour.val ++ 58 ::
    two minute.val

def offset_text : Option Offset → Bytes
  | none => []
  | some o => o.text

def Separator.byte : Separator → ℕ
  | .capital => 84
  | .small => 116
  | .space => 32

def Stamp.text : Stamp → Bytes
  | .date d => d.text
  | .time t => t.text
  | .moment d sep t o => d.text ++ sep.byte :: t.text ++ offset_text o

def Date.days (d : Date) : ℤ :=
  Gregorian.monthStart (Gregorian.IsLeap d.year.val) d.month.val -
    Gregorian.monthStart (Gregorian.IsLeap d.year.val) (d.month.val - 1)

/-- The month has this day in that year. -/
def Date.Valid (d : Date) : Prop :=
  1 ≤ d.month.val ∧ d.month.val ≤ 12 ∧ 1 ≤ d.day.val ∧ (d.day.val : ℤ) ≤ d.days

/-- A minute may have a leap second. -/
def Time.Valid (t : Time) : Prop := t.hour.val ≤ 23 ∧ t.minute.val ≤ 59 ∧ t.second.val ≤ 60

def Stamp.Valid : Stamp → Prop
  | .date d => d.Valid
  | .time t => t.Valid
  | .moment d _ t _ => d.Valid ∧ t.Valid

/-- The first three digits of the fraction. -/
def Time.millisec (t : Time) : ℕ :=
  match t.fraction.map Fin.val ++ [0, 0, 0] with
  | a :: b :: c :: _ => 100 * a + 10 * b + c
  | _ => 0

def Offset.minutes : Offset → ℤ
  | .zulu _ => 0
  | .numeric negative hour minute =>
    if negative then -(60 * hour.val + minute.val : ℤ) else 60 * hour.val + minute.val

structure OfDate (d : Date) (ts : Timestamp) : Prop where
  year_eq : ts.year = d.year.val
  month_eq : ts.month = d.month.val
  day_eq : ts.day = d.day.val

structure OfTime (t : Time) (ts : Timestamp) : Prop where
  hour_eq : ts.hour = t.hour.val
  minute_eq : ts.minute = t.minute.val
  second_eq : ts.second = t.second.val
  millisec_eq : ts.millisec = t.millisec

/-- The timestamp has the kind and, as far as the kind has them, the fields. -/
def Agrees : Stamp → Timestamp → Prop
  | .date d, ts => ts.kind = 68 ∧ OfDate d ts
  | .time t, ts => ts.kind = 116 ∧ OfTime t ts
  | .moment d _ t none, ts => ts.kind = 108 ∧ OfDate d ts ∧ OfTime t ts
  | .moment d _ t (some o), ts => ts.kind = 100 ∧ OfDate d ts ∧ OfTime t ts ∧ ts.tz = o.minutes

/-- An integer in range, and nothing else, is read as what it is. -/
def IntExact (result : Option ℤ) (text : Bytes) : Prop :=
  ∀ n, result = some n ↔ toml_integer text = some n ∧ InRange n

/-- A valid date-time, and nothing else, is read as what it is. -/
structure StampExact (result : Option Timestamp) (text : Bytes) : Prop where
  sound : ∀ ts, result = some ts → ∃ stamp : Stamp, text = stamp.text ∧ stamp.Valid
  complete : ∀ stamp : Stamp, text = stamp.text → stamp.Valid →
    ∃ ts, result = some ts ∧ Agrees stamp ts

def BoolExact (result : Option Bool) (text : Bytes) : Prop :=
  ∀ b, result = some b ↔ text = if b then true_text else false_text

/-- `0o` and `0b` end the number for `strtoll`. -/
def octal_or_binary (text : Bytes) : Bool := text.take 2 = [48, 111] || text.take 2 = [48, 98]

def leading_zero (text : Bytes) : Bool :=
  match (sign_of text).2 with
  | 48 :: d :: digits => (d :: digits).all (digit_below 8)
  | _ => false

/-- An octal or binary number in range, another number out of range, or what C takes for an
octal number. -/
def IntMisread (text : Bytes) : Prop :=
  (∃ n ∈ toml_integer text, if octal_or_binary text then InRange n else ¬ InRange n) ∨
    leading_zero text = true

instance (text : Bytes) : Decidable (IntMisread text) := by
  unfold IntMisread
  cases toml_integer text <;> simp only [Option.mem_def, reduceCtorEq, false_and, exists_false,
    Option.some.injEq, exists_eq_left'] <;> infer_instance

def Date.Refused (d : Date) : Prop :=
  d.month.val < 1 ∨ d.day.val < 1 ∨ 12 < d.month.val ∨ 31 < d.day.val ∨
    (d.month.val = 2 ∧ february d.year.val < d.day.val)

def Stamp.Refused : Stamp → Prop
  | .date d => d.Refused
  | .time _ => False
  | .moment d _ _ _ => d.Refused

/-- There are no milliseconds and no offset from UTC. -/
def Stamp.Whole : Stamp → Prop
  | .date _ => True
  | .time t => t.millisec = 0
  | .moment _ _ t none => t.millisec = 0
  | .moment _ _ t (some o) => t.millisec = 0 ∧ o.minutes = 0

/-- The date-times that are read as what they are, or refused as they should be. -/
def StampKept (text : Bytes) : Prop :=
  ∃ stamp : Stamp, text = stamp.text ∧ (stamp.Refused ∨ stamp.Valid ∧ stamp.Whole)

end SaltsUtils.Toml
