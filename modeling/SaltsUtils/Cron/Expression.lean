import Mathlib.Algebra.Ring.Nat
import Mathlib.Data.List.Basic
import SaltsUtils.Library.Outcome

/-!
# Cron expressions

The five field specifications, the lexer and the field parser of
`src/cron/src/salts_cron.c` and `cron_lexer.re`.
-/

set_option autoImplicit false

namespace SaltsUtils.Cron

inductive Status
  | ok | einval | eparse | enext | estate | enomem
deriving DecidableEq

structure CronError where
  code : Status
  text : String
deriving DecidableEq

inductive FieldKind
  | minute | hour | dayOfMonth | month | dayOfWeek
deriving DecidableEq

structure FieldSpec where
  min_value : ℤ
  max_value : ℤ
  name : String
  kind : FieldKind
deriving DecidableEq

def cronSpecs : List FieldSpec :=
  [⟨0, 59, "minute", .minute⟩, ⟨0, 23, "hour", .hour⟩, ⟨1, 31, "day-of-month", .dayOfMonth⟩,
    ⟨1, 12, "month", .month⟩, ⟨0, 7, "day-of-week", .dayOfWeek⟩]

def cronMonthNames : List (String × ℤ) :=
  [("jan", 1), ("feb", 2), ("mar", 3), ("apr", 4), ("may", 5), ("jun", 6), ("jul", 7),
    ("aug", 8), ("sep", 9), ("oct", 10), ("nov", 11), ("dec", 12)]

def cronWeekdayNames : List (String × ℤ) :=
  [("sun", 0), ("mon", 1), ("tue", 2), ("wed", 3), ("thu", 4), ("fri", 5), ("sat", 6)]

def cronAliases : List (String × String) :=
  [("@yearly", "0 0 1 1 *"), ("@annually", "0 0 1 1 *"), ("@monthly", "0 0 1 * *"),
    ("@weekly", "0 0 * * 0"), ("@daily", "0 0 * * *"), ("@midnight", "0 0 * * *"),
    ("@hourly", "0 * * * *")]

structure SaltsCronExpr where
  minute_bits : BitVec 64 := 0
  hour_bits : BitVec 64 := 0
  day_of_month_bits : BitVec 64 := 0
  month_bits : BitVec 64 := 0
  day_of_week_bits : BitVec 64 := 0
  day_of_month_any : Bool := false
  day_of_week_any : Bool := false
deriving DecidableEq

def wrapInt (z : ℤ) : ℤ := z.bmod (2 ^ 32)

def cron_ascii_tolower (c : Char) : Char :=
  if 'A' ≤ c ∧ c ≤ 'Z' then Char.ofNat (c.toNat - 'A'.toNat + 'a'.toNat) else c

def cron_text_ieq (lhs rhs : List Char) : Bool :=
  lhs.map cron_ascii_tolower == rhs.map cron_ascii_tolower

def cron_expand_alias (expression : List Char) : List Char :=
  match cronAliases.find? fun entry => entry.1.toList == expression with
  | some entry => entry.2.toList
  | none => expression

/-- The word with the bits from `start` to `stop`. -/
def cron_mask_range (start stop : ℕ) : BitVec 64 :=
  (List.range' start (stop + 1 - start)).foldl (fun mask value => mask ||| (1#64 <<< value)) 0

section Lexer

inductive TokenKind
  | eof | star | comma | dash | slash | number | name | error
deriving DecidableEq

structure Token where
  kind : TokenKind
  text : List Char
  number : ℤ := 0
deriving DecidableEq

def isDigit (c : Char) : Bool := '0' ≤ c && c ≤ '9'

def isLetter (c : Char) : Bool := ('A' ≤ c && c ≤ 'Z') || ('a' ≤ c && c ≤ 'z')

def cron_parse_number (digits : List Char) : ℤ :=
  digits.foldl (fun value c => wrapInt (wrapInt (value * 10) + (c.toNat - '0'.toNat))) 0

/-- One token of a field and the text behind it. -/
def cron_lexer_next : List Char → Token × List Char
  | [] => (⟨.eof, [], 0⟩, [])
  | c::rest =>
    if c = '*' then (⟨.star, [c], 0⟩, rest)
    else if c = ',' then (⟨.comma, [c], 0⟩, rest)
    else if c = '-' then (⟨.dash, [c], 0⟩, rest)
    else if c = '/' then (⟨.slash, [c], 0⟩, rest)
    else if isDigit c then
      let text := c::rest.takeWhile isDigit
      (⟨.number, text, cron_parse_number text⟩, rest.dropWhile isDigit)
    else if isLetter c then
      (⟨.name, c::rest.takeWhile fun d => isLetter d || isDigit d, 0⟩,
        rest.dropWhile fun d => isLetter d || isDigit d)
    else (⟨.error, [c], 0⟩, rest)

end Lexer

section FieldParser

structure FieldParser where
  spec : FieldSpec
  rest : List Char
  current : Token

def parseError {α : Type} (text : String) : Except CronError α := .error ⟨.eparse, text⟩

def quoted (token : Token) : String := "'" ++ String.ofList token.text ++ "'"

def cron_lookup_name (spec : FieldSpec) (text : List Char) : Option ℤ :=
  let table := match spec.kind with
    | .month => cronMonthNames
    | .dayOfWeek => cronWeekdayNames
    | _ => []
  (table.find? fun entry => cron_text_ieq text entry.1.toList).map (·.2)

def cron_normalize_value (spec : FieldSpec) (raw_value : ℤ) : Option ℤ :=
  if spec.kind = .dayOfWeek then
    if raw_value < 0 ∨ raw_value > 7 then none
    else some (if raw_value = 7 then 0 else raw_value)
  else if raw_value < spec.min_value ∨ raw_value > spec.max_value then none
  else some raw_value

def cron_apply_raw_value (spec : FieldSpec) (bits : BitVec 64) (raw_value : ℤ) :
    Option (BitVec 64) :=
  (cron_normalize_value spec raw_value).map fun normalized => bits ||| (1#64 <<< normalized.toNat)

def cron_field_is_full (spec : FieldSpec) (bits : BitVec 64) : Bool :=
  if spec.kind = .dayOfWeek then bits == cron_mask_range 0 6
  else bits == cron_mask_range spec.min_value.toNat spec.max_value.toNat

variable (parser : FieldParser)

def cron_parser_advance : Except CronError FieldParser :=
  let (token, rest) := cron_lexer_next parser.rest
  if token.kind = .error then
    parseError ("invalid token in " ++ parser.spec.name ++ " field near " ++ quoted token)
  else .ok { parser with rest := rest, current := token }

/-- The number or the name that the current token stands for. -/
def cron_raw_value : Except CronError ℤ :=
  match parser.current.kind with
  | .number => .ok parser.current.number
  | .name =>
    match cron_lookup_name parser.spec parser.current.text with
    | some value => .ok value
    | none => parseError ("unknown " ++ parser.spec.name ++ " name " ++ quoted parser.current)
  | _ =>
    parseError ("expected value in " ++ parser.spec.name ++ " field near " ++ quoted parser.current)

def cron_parse_value : Except CronError (ℤ × FieldParser) := do
  let raw_value ← cron_raw_value parser
  match cron_normalize_value parser.spec raw_value with
  | none =>
    parseError ("value " ++ toString raw_value ++ " out of range for " ++ parser.spec.name ++
      " field")
  | some normalized => do
    let parser ← cron_parser_advance parser
    pure (normalized, parser)

def cron_parse_step : Except CronError (ℤ × FieldParser) := do
  if parser.current.kind ≠ .number then
    parseError ("expected numeric step in " ++ parser.spec.name ++ " field")
  else if parser.current.number ≤ 0 then
    parseError ("step must be positive in " ++ parser.spec.name ++ " field")
  else
    let step := parser.current.number
    let parser ← cron_parser_advance parser
    pure (step, parser)

def cron_apply_range_loop (spec : FieldSpec) (stop step : ℤ) :
    ℕ → ℤ → BitVec 64 → Except CronError (BitVec 64)
  | 0, _, bits => .ok bits
  | fuel + 1, raw, bits =>
    if raw ≤ stop then
      match cron_apply_raw_value spec bits raw with
      | none =>
        parseError ("value " ++ toString raw ++ " out of range for " ++ spec.name ++ " field")
      | some bits => cron_apply_range_loop spec stop step fuel (wrapInt (raw + step)) bits
    else .ok bits

/-- A step is at least 1, so the values from `start` to `stop` bound the passes. -/
def cron_apply_range (spec : FieldSpec) (bits : BitVec 64) (start stop step : ℤ) :
    Except CronError (BitVec 64) :=
  if step ≤ 0 then parseError ("step must be positive in " ++ spec.name ++ " field")
  else if start > stop then
    parseError ("range start exceeds end in " ++ spec.name ++ " field")
  else cron_apply_range_loop spec stop step (stop - start + 2).toNat start bits

def cron_term_range : Except CronError (ℤ × ℤ × FieldParser) :=
  if parser.current.kind = .star then do
    let next ← cron_parser_advance parser
    pure (parser.spec.min_value,
      if parser.spec.kind = .dayOfWeek then 6 else parser.spec.max_value, next)
  else do
    let first ← cron_parse_value parser
    if first.2.current.kind = .dash then do
      let next ← cron_parser_advance first.2
      let last ← cron_parse_value next
      pure (first.1, last.1, last.2)
    else pure (first.1, first.1, first.2)

def cron_term_step (start stop : ℤ) (parser : FieldParser) :
    Except CronError (ℤ × ℤ × FieldParser) :=
  if parser.current.kind = .slash then do
    let next ← cron_parser_advance parser
    let step ← cron_parse_step next
    pure (if start = stop then
        (if parser.spec.kind = .dayOfWeek then 7 else parser.spec.max_value)
      else stop, step.1, step.2)
  else pure (stop, 1, parser)

def cron_parse_term (bits : BitVec 64) : Except CronError (BitVec 64 × FieldParser) := do
  let range ← cron_term_range parser
  let step ← cron_term_step range.1 range.2.1 range.2.2
  let bits ← cron_apply_range parser.spec bits range.1 step.1 step.2.1
  pure (bits, step.2.2)

def cron_parse_field_loop : ℕ → FieldParser → BitVec 64 → Except CronError (BitVec 64)
  | 0, parser, _ => parseError ("empty " ++ parser.spec.name ++ " field")
  | fuel + 1, parser, bits =>
    if parser.current.kind = .eof then .ok bits
    else do
      let term ← cron_parse_term parser bits
      if term.2.current.kind = .comma then do
        let next ← cron_parser_advance term.2
        cron_parse_field_loop fuel next term.1
      else if term.2.current.kind = .eof then cron_parse_field_loop fuel term.2 term.1
      else parseError ("unexpected token in " ++ parser.spec.name ++ " field near " ++
        quoted term.2.current)

def cron_parse_field (field_text : List Char) (spec : FieldSpec) :
    Except CronError (BitVec 64 × Bool) := do
  let parser ← cron_parser_advance ⟨spec, field_text, ⟨.eof, [], 0⟩⟩
  if parser.current.kind = .eof then parseError ("empty " ++ spec.name ++ " field")
  else
    let bits ← cron_parse_field_loop (field_text.length + 2) parser 0
    pure (bits, cron_field_is_full spec bits)

end FieldParser

def cron_split_fields (expression : List Char) : Except CronError (List (List Char)) :=
  let fields := (expression.splitOnP fun c => c = ' ' ∨ c = '\t').filter (· ≠ [])
  if 5 < fields.length then parseError "expected 5 cron fields, got more"
  else if fields.length ≠ 5 then
    parseError ("expected 5 cron fields, got " ++ toString fields.length)
  else .ok fields

def cron_assign_bits (expr : SaltsCronExpr) (field : FieldKind) (bits : BitVec 64)
    (any_flag : Bool) : SaltsCronExpr :=
  match field with
  | .minute => { expr with minute_bits := bits }
  | .hour => { expr with hour_bits := bits }
  | .dayOfMonth => { expr with day_of_month_bits := bits, day_of_month_any := any_flag }
  | .month => { expr with month_bits := bits }
  | .dayOfWeek => { expr with day_of_week_bits := bits, day_of_week_any := any_flag }

def cron_parse_fields (parsed : SaltsCronExpr) :
    List (List Char × FieldSpec) → Except CronError SaltsCronExpr
  | [] => .ok parsed
  | (field, spec)::rest => do
    let result ← cron_parse_field field spec
    cron_parse_fields (cron_assign_bits parsed spec.kind result.1 result.2) rest

/-- A `NULL` expression is `none`, and `out_expr` says whether the output is given. -/
def salts_cron_parse_ex (expression : Option (List Char)) (out_expr : Bool) :
    Except CronError SaltsCronExpr :=
  match expression, out_expr with
  | some expression, true => do
    let fields ← cron_split_fields (cron_expand_alias expression)
    cron_parse_fields {} (fields.zip cronSpecs)
  | _, _ => .error ⟨.einval, "expression and output are required"⟩

def salts_cron_parse (expression : Option (List Char)) (out_expr : Bool) :
    Except Status SaltsCronExpr :=
  (salts_cron_parse_ex expression out_expr).mapError CronError.code

def FieldSpec.Holds (spec : FieldSpec) (value : ℤ) : Prop :=
  if spec.kind = .dayOfWeek then 0 ≤ value ∧ value ≤ 6
  else spec.min_value ≤ value ∧ value ≤ spec.max_value

def FieldBits (spec : FieldSpec) (bits : BitVec 64) : Prop :=
  ∀ i : ℕ, bits.getLsbD i = true → spec.Holds i

theorem normalize_holds {spec : FieldSpec} {raw value : ℤ}
    (h : cron_normalize_value spec raw = some value) : spec.Holds value := by
  unfold cron_normalize_value at h
  unfold FieldSpec.Holds
  split_ifs at h ⊢ <;> simp only [Option.some.injEq] at h <;> omega

theorem getLsbD_one_shiftLeft (n i : ℕ) : (1#64 <<< n).getLsbD i = true ↔ i < 64 ∧ i = n := by
  simp only [BitVec.getLsbD_shiftLeft, BitVec.getLsbD_one]
  simp
  omega

variable {spec : FieldSpec}

variable {bits : BitVec 64}

theorem apply_raw_value_bits (hmin : 0 ≤ spec.min_value) {bits' : BitVec 64} {raw : ℤ}
    (hb : FieldBits spec bits) (h : cron_apply_raw_value spec bits raw = some bits') :
    FieldBits spec bits' := by
  obtain ⟨value, hv, rfl⟩ := Option.map_eq_some_iff.mp h
  have hh := normalize_holds hv
  have h₀ : 0 ≤ value := by
    unfold FieldSpec.Holds at hh
    split_ifs at hh <;> omega
  intro i hi
  rw [BitVec.getLsbD_or, Bool.or_eq_true, getLsbD_one_shiftLeft] at hi
  rcases hi with hi | ⟨-, rfl⟩
  · exact hb i hi
  · rwa [Int.toNat_of_nonneg h₀]

theorem apply_range_loop_bits (hmin : 0 ≤ spec.min_value) (stop step : ℤ) (fuel : ℕ) :
    ∀ (raw : ℤ) (bits bits' : BitVec 64), FieldBits spec bits →
      cron_apply_range_loop spec stop step fuel raw bits = .ok bits' → FieldBits spec bits' := by
  induction fuel with
  | zero =>
    intro raw bits bits' hb h
    cases h
    exact hb
  | succ fuel ih =>
    intro raw bits bits' hb h
    rw [cron_apply_range_loop] at h
    split at h
    · split at h
      · cases h
      · exact ih _ _ _ (apply_raw_value_bits hmin hb ‹_›) h
    · cases h
      exact hb

theorem apply_range_bits (hmin : 0 ≤ spec.min_value) {bits' : BitVec 64} {start stop step : ℤ}
    (hb : FieldBits spec bits) (h : cron_apply_range spec bits start stop step = .ok bits') :
    FieldBits spec bits' := by
  unfold cron_apply_range parseError at h
  rw [guard_eq_ok, guard_eq_ok] at h
  exact apply_range_loop_bits hmin _ _ _ _ _ _ hb h.2.2

variable {p p' : FieldParser}

theorem parser_advance_spec (h : cron_parser_advance p = .ok p') : p'.spec = p.spec := by
  unfold cron_parser_advance parseError at h
  simp only [guard_eq_ok] at h
  cases h.2
  rfl

theorem parse_value_spec {value : ℤ} (h : cron_parse_value p = .ok (value, p')) :
    p'.spec = p.spec := by
  obtain ⟨raw, -, h⟩ := bind_eq_ok.mp h
  split at h
  · cases h
  · obtain ⟨q, hq, h⟩ := bind_eq_ok.mp h
    cases h
    exact parser_advance_spec hq

theorem parse_step_spec {step : ℤ} (h : cron_parse_step p = .ok (step, p')) : p'.spec = p.spec := by
  unfold cron_parse_step parseError at h
  rw [guard_eq_ok, guard_eq_ok] at h
  obtain ⟨q, hq, h⟩ := bind_eq_ok.mp h.2.2
  cases h
  exact parser_advance_spec hq

theorem term_range_spec {r : ℤ × ℤ × FieldParser} (h : cron_term_range p = .ok r) :
    r.2.2.spec = p.spec := by
  unfold cron_term_range at h
  split at h
  · obtain ⟨q, hq, h⟩ := bind_eq_ok.mp h
    cases h
    exact parser_advance_spec hq
  · obtain ⟨⟨v, q⟩, hq, h⟩ := bind_eq_ok.mp h
    split at h
    · obtain ⟨u, hu, h⟩ := bind_eq_ok.mp h
      obtain ⟨⟨w, t⟩, ht, h⟩ := bind_eq_ok.mp h
      cases h
      rw [parse_value_spec ht, parser_advance_spec hu, parse_value_spec hq]
    · cases h
      exact parse_value_spec hq

theorem term_step_spec {start stop : ℤ} {r : ℤ × ℤ × FieldParser}
    (h : cron_term_step start stop p = .ok r) : r.2.2.spec = p.spec := by
  unfold cron_term_step at h
  split at h
  · obtain ⟨q, hq, h⟩ := bind_eq_ok.mp h
    obtain ⟨⟨v, t⟩, ht, h⟩ := bind_eq_ok.mp h
    cases h
    rw [parse_step_spec ht, parser_advance_spec hq]
  · cases h
    rfl

theorem parse_term_bits (hmin : 0 ≤ p.spec.min_value) {r : BitVec 64 × FieldParser}
    (hb : FieldBits p.spec bits) (h : cron_parse_term p bits = .ok r) :
    r.2.spec = p.spec ∧ FieldBits p.spec r.1 := by
  obtain ⟨range, h₁, h⟩ := bind_eq_ok.mp h
  obtain ⟨step, h₂, h⟩ := bind_eq_ok.mp h
  obtain ⟨b, h₃, h⟩ := bind_eq_ok.mp h
  cases h
  exact ⟨(term_step_spec h₂).trans (term_range_spec h₁), apply_range_bits hmin hb h₃⟩

theorem parse_field_loop_bits (hmin : 0 ≤ spec.min_value) (fuel : ℕ) :
    ∀ (p : FieldParser) (bits bits' : BitVec 64), p.spec = spec → FieldBits spec bits →
      cron_parse_field_loop fuel p bits = .ok bits' → FieldBits spec bits' := by
  induction fuel with
  | zero =>
    intro p bits bits' hp hb h
    cases h
  | succ fuel ih =>
    intro p bits bits' hp hb h
    rw [cron_parse_field_loop] at h
    split at h
    · cases h
      exact hb
    · obtain ⟨⟨b, q⟩, hq, h⟩ := bind_eq_ok.mp h
      obtain ⟨hs, hb'⟩ := parse_term_bits (hp ▸ hmin) (hp ▸ hb) hq
      rw [hp] at hs hb'
      simp only at h
      split at h
      · obtain ⟨r, hr, h⟩ := bind_eq_ok.mp h
        exact ih r b bits' ((parser_advance_spec hr).trans hs) hb' h
      · split at h
        · exact ih q b bits' hs hb' h
        · cases h

theorem parse_field_bits (hmin : 0 ≤ spec.min_value) {text : List Char} {any_flag : Bool}
    (h : cron_parse_field text spec = .ok (bits, any_flag)) : FieldBits spec bits := by
  obtain ⟨p, hp, h⟩ := bind_eq_ok.mp h
  split at h
  · cases h
  · obtain ⟨b, hb, h⟩ := bind_eq_ok.mp h
    cases h
    refine parse_field_loop_bits hmin _ p 0 bits (parser_advance_spec hp) ?_ hb
    intro i hi
    simp at hi

structure SaltsCronExpr.WellFormed (expr : SaltsCronExpr) : Prop where
  minute : ∀ i, expr.minute_bits.getLsbD i = true → i ≤ 59
  hour : ∀ i, expr.hour_bits.getLsbD i = true → i ≤ 23
  dayOfMonth : ∀ i, expr.day_of_month_bits.getLsbD i = true → 1 ≤ i ∧ i ≤ 31
  month : ∀ i, expr.month_bits.getLsbD i = true → 1 ≤ i ∧ i ≤ 12
  dayOfWeek : ∀ i, expr.day_of_week_bits.getLsbD i = true → i ≤ 6

variable {expr : SaltsCronExpr}

theorem assign_bits_wellFormed (hw : expr.WellFormed) (hspec : spec ∈ cronSpecs) (any_flag : Bool)
    (hb : FieldBits spec bits) : (cron_assign_bits expr spec.kind bits any_flag).WellFormed := by
  have hr : ∀ i, bits.getLsbD i = true → spec.Holds i := hb
  simp only [cronSpecs, List.mem_cons, List.not_mem_nil, or_false] at hspec
  rcases hspec with rfl | rfl | rfl | rfl | rfl <;> simp [FieldSpec.Holds] at hr
  · exact ⟨fun i hi => by have := hr i hi; omega, hw.hour, hw.dayOfMonth, hw.month, hw.dayOfWeek⟩
  · exact ⟨hw.minute, fun i hi => by have := hr i hi; omega, hw.dayOfMonth, hw.month, hw.dayOfWeek⟩
  · exact ⟨hw.minute, hw.hour, fun i hi => by have := hr i hi; omega, hw.month, hw.dayOfWeek⟩
  · exact ⟨hw.minute, hw.hour, hw.dayOfMonth, fun i hi => by have := hr i hi; omega, hw.dayOfWeek⟩
  · exact ⟨hw.minute, hw.hour, hw.dayOfMonth, hw.month, fun i hi => by have := hr i hi; omega⟩

theorem cronSpecs_min (h : spec ∈ cronSpecs) : 0 ≤ spec.min_value := by
  simp only [cronSpecs, List.mem_cons, List.not_mem_nil, or_false] at h
  rcases h with rfl | rfl | rfl | rfl | rfl <;> simp

theorem parse_fields_wellFormed :
    ∀ (fields : List (List Char × FieldSpec)) (parsed : SaltsCronExpr), parsed.WellFormed →
      (∀ field ∈ fields, field.2 ∈ cronSpecs) → cron_parse_fields parsed fields = .ok expr →
      expr.WellFormed := by
  intro fields
  induction fields with
  | nil =>
    intro parsed hw _ h
    cases h
    exact hw
  | cons field fields ih =>
    intro parsed hw hspecs h
    obtain ⟨⟨bits, any_flag⟩, hf, h⟩ := bind_eq_ok.mp h
    have hspec := hspecs field (by simp)
    have hb := parse_field_bits (cronSpecs_min hspec) hf
    exact ih _ (assign_bits_wellFormed hw hspec any_flag hb)
      (fun f hf => hspecs f (by simp [hf])) h

theorem parse_ex_wellFormed {expression : Option (List Char)} {out_expr : Bool}
    (h : salts_cron_parse_ex expression out_expr = .ok expr) : expr.WellFormed := by
  unfold salts_cron_parse_ex at h
  split at h
  · obtain ⟨fields, -, h⟩ := bind_eq_ok.mp h
    refine parse_fields_wellFormed _ {} ?_ ?_ h
    · constructor <;> simp
    · intro field hf
      exact (List.of_mem_zip hf).2
  · cases h

theorem parse_wellFormed {expression : Option (List Char)} {out_expr : Bool}
    (h : salts_cron_parse expression out_expr = .ok expr) : expr.WellFormed := by
  unfold salts_cron_parse at h
  cases hp : salts_cron_parse_ex expression out_expr with
  | error e =>
    rw [hp] at h
    cases h
  | ok e =>
    rw [hp] at h
    cases h
    exact parse_ex_wellFormed hp

end SaltsUtils.Cron
