import SaltsUtils.Toml.Parse

/-!
# The typed accessors

Values are kept as text, and `toml_table_int` and its siblings in `toml.c` read that text
again. Behind a text stands its zero byte. `none` is a value that is not `ok`.
-/

set_option autoImplicit false

namespace SaltsUtils.Toml

def byte_at (p : Bytes) (i : ℕ) : ℕ := p.getD i 0

def isdigit (ch : ℕ) : Bool := 48 ≤ ch && ch ≤ 57

def scan_digits_loop : ℕ → Bytes → ℤ → ℤ
  | 0, _, ret => ret
  | _ + 1, [], _ => -1
  | n + 1, ch :: p, ret =>
    if isdigit ch then scan_digits_loop n p (10 * ret + (ch - 48 : ℕ)) else -1

def scan_digits (p : Bytes) (n : ℕ) : ℤ := scan_digits_loop n p 0

structure Scan where
  first : ℤ
  second : ℤ
  third : ℤ
  ok : Bool

def scan_date (p : Bytes) : Scan :=
  let year := scan_digits p 4
  let month := if 0 ≤ year ∧ byte_at p 4 = 45 then scan_digits (p.drop 5) 2 else -1
  let day := if 0 ≤ month ∧ byte_at p 7 = 45 then scan_digits (p.drop 8) 2 else -1
  ⟨year, month, day, 0 ≤ year ∧ 0 ≤ month ∧ 0 ≤ day⟩

def scan_time (p : Bytes) : Scan :=
  let hour := scan_digits p 2
  let minute := if 0 ≤ hour ∧ byte_at p 2 = 58 then scan_digits (p.drop 3) 2 else -1
  let second := if 0 ≤ minute ∧ byte_at p 5 = 58 then scan_digits (p.drop 6) 2 else -1
  ⟨hour, minute, second, 0 ≤ hour ∧ 0 ≤ minute⟩

structure Timestamp where
  kind : ℕ
  year : ℤ
  month : ℤ
  day : ℤ
  hour : ℤ
  minute : ℤ
  second : ℤ
  millisec : ℤ
  tz : ℤ
  deriving DecidableEq

def february (year : ℤ) : ℤ :=
  if year % 4 = 0 ∧ (year % 100 ≠ 0 ∨ year % 400 = 0) then 29 else 28

def date_refused (date : Scan) : Bool :=
  (date.second < 1 ∨ date.third < 1 ∨ date.second > 12 ∨ date.third > 31) ∨
    (date.second = 2 ∧ date.third > february date.first)

def skip_fraction (p : Bytes) : Bytes :=
  if byte_at p 0 = 46 then (p.drop 1).dropWhile isdigit else p

/-- What is done behind the date, or at the start if there is none. -/
def timestamp_time (ret : Timestamp) (p : Bytes) : Timestamp :=
  let time := scan_time p
  let ret := { ret with hour := time.first, minute := time.second, second := time.third }
  if time.ok then
    let ret := { ret with kind := if ret.kind = 68 then 108 else 116 }
    if byte_at (skip_fraction (p.drop 8)) 0 ∈ [90, 122, 43, 45] then { ret with kind := 100 }
    else ret
  else ret

def skip_separator (p : Bytes) : Bytes := if byte_at p 0 ∈ [84, 116, 32] then p.drop 1 else p

def toml_value_timestamp (src : Bytes) : Option Timestamp :=
  let date := scan_date src
  let ret : Timestamp := ⟨0, date.first, date.second, date.third, 0, 0, 0, 0, 0⟩
  if date.ok then
    if date_refused date then none
    else some (timestamp_time { ret with kind := 68 } (skip_separator (src.drop 10)))
  else some (timestamp_time ret src)

def true_text : Bytes := [116, 114, 117, 101]

def false_text : Bytes := [102, 97, 108, 115, 101]

def toml_value_bool (src : Bytes) : Option Bool :=
  if src = true_text then some true else if src = false_text then some false else none

def isspace (ch : ℕ) : Bool := ch = 32 || (9 ≤ ch && ch ≤ 13)

def digit_value (ch : ℕ) : Option ℕ :=
  if 48 ≤ ch ∧ ch ≤ 57 then some (ch - 48)
  else if 97 ≤ ch ∧ ch ≤ 122 then some (ch - 87)
  else if 65 ≤ ch ∧ ch ≤ 90 then some (ch - 55)
  else none

def digit_below (base ch : ℕ) : Bool := (digit_value ch).any (· < base)

def digits_value (base : ℕ) (digits : Bytes) : ℕ :=
  digits.foldl (fun n ch => base * n + (digit_value ch).getD 0) 0

def LLONG_MIN : ℤ := -2 ^ 63

def LLONG_MAX : ℤ := 2 ^ 63 - 1

def clamped (n : ℤ) : ℤ := max LLONG_MIN (min LLONG_MAX n)

def sign_of : Bytes → Bool × Bytes
  | 45 :: rest => (true, rest)
  | 43 :: rest => (false, rest)
  | text => (false, text)

def base_of : Bytes → ℕ × Bytes
  | 48 :: x :: d :: rest =>
    if (x = 120 ∨ x = 88) ∧ digit_below 16 d then (16, d :: rest) else (8, 48 :: x :: d :: rest)
  | 48 :: rest => (8, 48 :: rest)
  | text => (10, text)

def signed_value (negative : Bool) (n : ℕ) : ℤ := if negative then -n else n

def strtoll (src : Bytes) : ℤ × Bytes :=
  let (negative, unsigned) := sign_of (src.dropWhile isspace)
  let (base, text) := base_of unsigned
  let digits := text.takeWhile (digit_below base)
  if digits = [] then (0, src)
  else (clamped (signed_value negative (digits_value base digits)), text.drop digits.length)

def toml_value_int (src : Bytes) : Option ℤ :=
  if (strtoll src).2 = [] then some (strtoll src).1 else none

/-- The text of a member that is a plain value. -/
def toml_table_unparsed (h : Heap) (tbl : ℕ) (key : Bytes) : Option Bytes :=
  (h.tables[tbl]?.bind (·.kval.lookup (cstring key))).bind (h.keyvals[·]?)

/-- The text of an item that is a plain value. -/
def toml_array_unparsed (h : Heap) (arr : ℕ) (idx : ℤ) : Option Bytes :=
  if 0 ≤ idx then
    match h.arrays[arr]?.bind (·[idx.toNat]?) with
    | some (.value val) => some val
    | _ => none
  else none

section
variable (h : Heap)

def toml_table_timestamp (tbl : ℕ) (key : Bytes) : Option Timestamp :=
  (toml_table_unparsed h tbl key).bind toml_value_timestamp

def toml_table_bool (tbl : ℕ) (key : Bytes) : Option Bool :=
  (toml_table_unparsed h tbl key).bind toml_value_bool

def toml_table_int (tbl : ℕ) (key : Bytes) : Option ℤ :=
  (toml_table_unparsed h tbl key).bind toml_value_int

def toml_array_timestamp (arr : ℕ) (idx : ℤ) : Option Timestamp :=
  (toml_array_unparsed h arr idx).bind toml_value_timestamp

def toml_array_bool (arr : ℕ) (idx : ℤ) : Option Bool :=
  (toml_array_unparsed h arr idx).bind toml_value_bool

def toml_array_int (arr : ℕ) (idx : ℤ) : Option ℤ :=
  (toml_array_unparsed h arr idx).bind toml_value_int

end

end SaltsUtils.Toml
