import Mathlib.Data.List.Nodup
import Mathlib.Data.List.Sort
import SaltsUtils.Library.Decimal

/-!
# Values of enumerations and flags
-/

set_option autoImplicit false

namespace SaltsUtils.DataBind.Enum
open Decimal

abbrev Text := List ℕ

def uint64_max : ℕ := 2 ^ 64 - 1

structure EnumNumber where
  magnitude : ℕ
  negative : Bool
deriving DecidableEq

inductive CmetaType
  | sint (bits : ℕ)
  | uint (bits : ℕ)
  | other
deriving DecidableEq

def schema_cmeta_builtins : List (String × CmetaType) :=
  [("int8_t", .sint 8), ("int8", .sint 8), ("i8", .sint 8),
   ("int16_t", .sint 16), ("int16", .sint 16), ("i16", .sint 16),
   ("int32_t", .sint 32), ("int32", .sint 32), ("i32", .sint 32),
   ("int64_t", .sint 64), ("int64", .sint 64), ("i64", .sint 64),
   ("uint8_t", .uint 8), ("uint8", .uint 8), ("u8", .uint 8), ("byte", .uint 8),
   ("uint16_t", .uint 16), ("uint16", .uint 16), ("u16", .uint 16),
   ("uint32_t", .uint 32), ("uint32", .uint 32), ("u32", .uint 32),
   ("uint64_t", .uint 64), ("uint64", .uint 64), ("u64", .uint 64),
   ("bool", .other), ("float", .other), ("f32", .other), ("double", .other), ("f64", .other),
   ("uuid", .other)]

def schema_cmeta_builtin_data (name : String) : Option CmetaType :=
  (schema_cmeta_builtins.find? fun entry => entry.1 == name).map Prod.snd

def digit_of (c : ℕ) : Option ℕ :=
  if 48 ≤ c ∧ c ≤ 57 then some (c - 48)
  else if 97 ≤ c ∧ c ≤ 102 then some (c - 97 + 10)
  else if 65 ≤ c ∧ c ≤ 70 then some (c - 65 + 10)
  else none

def parse_digits (base : ℕ) : Text → ℕ → Option ℕ
  | [], value => some value
  | c :: text, value =>
    match digit_of c with
    | none => none
    | some digit =>
      if base ≤ digit ∨ (uint64_max - digit) / base < value then none
      else parse_digits base text (value * base + digit)

def split_sign : Text → Bool × Text
  | 45 :: text => (true, text)
  | 43 :: text => (false, text)
  | text => (false, text)

def split_base : Text → ℕ × Text
  | 48 :: 120 :: text => (16, text)
  | text => (10, text)

def enum_parse_number (text : Text) : Option EnumNumber :=
  if text = [] then none
  else
    let (negative, text) := split_sign text
    let (base, text) := split_base text
    if text = [] then none
    else (parse_digits base text 0).map fun value => ⟨value, negative⟩

def enum_next_number (previous : EnumNumber) (is_flags : Bool) : Option EnumNumber :=
  if is_flags then
    if uint64_max / 2 < previous.magnitude then none
    else some { previous with magnitude := previous.magnitude * 2 }
  else if previous.negative then
    let magnitude := (previous.magnitude + uint64_max) % 2 ^ 64
    some ⟨magnitude, if magnitude = 0 then false else previous.negative⟩
  else if previous.magnitude = uint64_max then none
  else some { previous with magnitude := previous.magnitude + 1 }

def enum_number_fits (value : EnumNumber) : CmetaType → Bool
  | .uint bits =>
    let limit := if bits = 64 then uint64_max else 2 ^ bits - 1
    !value.negative && decide (value.magnitude ≤ limit)
  | .sint bits =>
    let sign := 2 ^ (bits - 1)
    decide (value.magnitude ≤ if value.negative then sign else sign - 1)
  | .other => false

def enum_compare_value (a b : EnumNumber) : Ordering :=
  if a.negative ≠ b.negative then if a.negative then .lt else .gt
  else
    let order := compare a.magnitude b.magnitude
    if a.negative then order.swap else order

structure EnumItem where
  name : Text
  value : Text
  c_literal : Option Text := none
deriving DecidableEq

structure EnumDecl where
  enum_name : Text
  is_flags : Bool := false
  underlying_type : Option String := none
  items : List EnumItem
  min_value : Option Text := none
  max_value : Option Text := none
  is_ordinal : Bool := false
deriving DecidableEq

def ascii (text : String) : Text := text.toList.map Char.toNat

variable (number : EnumNumber)

def enum_text : Text :=
  (if number.negative then [45] else []) ++ numeral number.magnitude

def enum_literal : Text :=
  if !number.negative then ascii "UINT64_C(" ++ numeral number.magnitude ++ ascii ")"
  else if number.magnitude = 2 ^ 63 then ascii "(-INT64_C(9223372036854775807) - INT64_C(1))"
  else ascii "(-INT64_C(" ++ numeral number.magnitude ++ ascii "))"

def enum_normalize_item (item : EnumItem) : EnumItem :=
  { item with value := enum_text number, c_literal := some (enum_literal number) }

/-- The number of an item; nothing comes before the first one. -/
def enum_value (is_flags : Bool) (previous : Option EnumNumber) (text : Text) :
    Option EnumNumber :=
  if text ≠ [] then enum_parse_number text
  else
    match previous with
    | none => some ⟨if is_flags then 1 else 0, false⟩
    | some previous => enum_next_number previous is_flags

def drop_minus_zero : EnumNumber :=
  { number with negative := number.negative && decide (number.magnitude ≠ 0) }

def enum_numbers (type : CmetaType) (is_flags : Bool) :
    Option EnumNumber → List EnumItem → Option (List EnumNumber)
  | _, [] => some []
  | previous, item :: items =>
    (enum_value is_flags previous item.value).bind fun value =>
      if enum_number_fits value type then
        (enum_numbers type is_flags (some (drop_minus_zero value)) items).map
          fun numbers => drop_minus_zero value :: numbers
      else none

def enum_compare_name (a b : Text) : Ordering := compare a b

def neighbours_equal {α : Type} (cmp : α → α → Ordering) : List α → Bool
  | a :: b :: l => cmp a b == .eq || neighbours_equal cmp (b :: l)
  | _ => false

def enum_constant (enum_name item_name : Text) : Text := enum_name ++ 95 :: item_name

def canonical_name : CmetaType → String
  | .uint 8 => "uint8"
  | .uint 16 => "uint16"
  | .uint 32 => "uint32"
  | .uint _ => "uint64"
  | .sint 8 => "int8"
  | .sint 16 => "int16"
  | .sint 32 => "int32"
  | .sint _ => "int64"
  | .other => ""

def enum_type (owner : EnumDecl) : Option CmetaType :=
  (schema_cmeta_builtin_data
    (owner.underlying_type.getD (if owner.is_flags then "uint32" else "int32"))).filter
    fun type => decide (type ≠ .other)

/-- `qsort` is `mergeSort`; elements that compare equal end the call. -/
def enum_validate_one (owner : EnumDecl) : Option EnumDecl :=
  (enum_type owner).bind fun type =>
    if owner.items = [] then none
    else
      (enum_numbers type owner.is_flags none owner.items).bind fun numbers =>
        let entries := numbers.zip (owner.items.map EnumItem.name)
        let by_value := entries.mergeSort fun a b => (enum_compare_value a.1 b.1).isLE
        let by_name := by_value.mergeSort fun a b => (enum_compare_name a.2 b.2).isLE
        if neighbours_equal (fun a b => enum_compare_value a.1 b.1) by_value then none
        else if neighbours_equal (fun a b => enum_compare_name a.2 b.2) by_name then none
        else some { owner with
          underlying_type := some (canonical_name type)
          items := List.zipWith enum_normalize_item numbers owner.items
          min_value := by_value.head?.map fun entry => enum_constant owner.enum_name entry.2
          max_value := by_value.getLast?.map fun entry => enum_constant owner.enum_name entry.2
          is_ordinal := owner.is_ordinal ||
            numbers.zipIdx.all fun entry => !entry.1.negative && entry.1.magnitude == entry.2 }

def digits_value (base : ℕ) : Text → ℕ → Option ℕ
  | [], value => some value
  | c :: text, value =>
    (digit_of c).bind fun digit =>
      if base ≤ digit then none else digits_value base text (value * base + digit)

def literal_value (text : Text) : Option ℤ :=
  let (negative, text) := split_sign text
  let (base, text) := split_base text
  if text = [] then none
  else (digits_value base text 0).map fun n : ℕ => if negative then -(n : ℤ) else n

def first_value (is_flags : Bool) : ℤ := if is_flags then 1 else 0

def next_value (is_flags : Bool) (previous : ℤ) : ℤ :=
  if is_flags then previous * 2 else previous + 1

def expected_value (is_flags : Bool) (previous : Option ℤ) (text : Text) : Option ℤ :=
  if text ≠ [] then literal_value text
  else some ((previous.map (next_value is_flags)).getD (first_value is_flags))

def expected_values (is_flags : Bool) : Option ℤ → List Text → Option (List ℤ)
  | _, [] => some []
  | previous, text :: texts =>
    (expected_value is_flags previous text).bind fun z =>
      (expected_values is_flags (some z) texts).map fun zs => z :: zs

def InRange : CmetaType → ℤ → Prop
  | .uint bits, z => 0 ≤ z ∧ z < 2 ^ bits
  | .sint bits, z => -2 ^ (bits - 1) ≤ z ∧ z < 2 ^ (bits - 1)
  | .other, _ => False

/-- A declaration whose values fit, with no value and no name twice. -/
structure Valid (owner : EnumDecl) (type : CmetaType) (zs : List ℤ) : Prop where
  type_eq : enum_type owner = some type
  nonempty : owner.items ≠ []
  values_eq : expected_values owner.is_flags none (owner.items.map EnumItem.value) = some zs
  fits : ∀ z ∈ zs, InRange type z
  distinct : zs.Nodup
  names_distinct : (owner.items.map EnumItem.name).Nodup

/-- What a declaration has become. -/
structure Normalized (owner : EnumDecl) (zs : List ℤ) (out : EnumDecl) : Prop where
  names : out.items.map EnumItem.name = owner.items.map EnumItem.name
  denotes : out.items.map (fun item => literal_value item.value) = zs.map some
  least : ∃ i : ℕ, ∃ z item, zs[i]? = some z ∧ owner.items[i]? = some item ∧
    out.min_value = some (enum_constant owner.enum_name item.name) ∧ ∀ z' ∈ zs, z ≤ z'
  greatest : ∃ i : ℕ, ∃ z item, zs[i]? = some z ∧ owner.items[i]? = some item ∧
    out.max_value = some (enum_constant owner.enum_name item.name) ∧ ∀ z' ∈ zs, z' ≤ z
  ordinal : out.is_ordinal = true ↔
    owner.is_ordinal = true ∨ ∀ (i : ℕ) (z : ℤ), zs[i]? = some z → z = i
  again : enum_validate_one out = some out

def MinusZero (text : Text) : Prop := text.head? = some 45 ∧ literal_value text = some 0

def MinusZeroed (owner : EnumDecl) : Prop :=
  (∃ bits, enum_type owner = some (.uint bits)) ∧ ∃ item ∈ owner.items, MinusZero item.value

def ofInt (z : ℤ) : EnumNumber := ⟨z.natAbs, decide (z < 0)⟩

/-- The types that enumerations are stored in. -/
def Integral (type : CmetaType) : Prop :=
  type ∈ [.sint 8, .sint 16, .sint 32, .sint 64, .uint 8, .uint 16, .uint 32, .uint 64]

variable {owner : EnumDecl} {type : CmetaType}

theorem integral_of_enum_type (h : enum_type owner = some type) : Integral type := by
  obtain ⟨h, hne⟩ := Option.filter_eq_some_iff.1 h
  obtain ⟨entry, hfind, rfl⟩ := Option.map_eq_some_iff.1 h
  have hall : ∀ entry ∈ schema_cmeta_builtins, entry.2 = .other ∨ Integral entry.2 := by
    simp [schema_cmeta_builtins, Integral]
  exact (hall entry (List.mem_of_find?_eq_some hfind)).resolve_left (of_decide_eq_true hne)

variable {text : Text}

theorem digits_value_le {base : ℕ} (hb : 0 < base) {v r : ℕ} (h : digits_value base text v = some r) :
    v ≤ r := by
  induction text generalizing v with
  | nil =>
    cases h
    exact le_rfl
  | cons c text ih =>
    obtain ⟨digit, -, h⟩ := Option.bind_eq_some_iff.1 h
    split_ifs at h
    have := Nat.le_mul_of_pos_right v hb
    have := ih h
    omega

theorem parse_digits_iff {base : ℕ} (hb : 0 < base) (hmax : base ≤ uint64_max) {v r : ℕ}
    (hv : v ≤ uint64_max) : parse_digits base text v = some r ↔
      digits_value base text v = some r ∧ r ≤ uint64_max := by
  induction text generalizing v with
  | nil =>
    simp only [parse_digits, digits_value, Option.some.injEq]
    constructor
    · rintro rfl
      exact ⟨rfl, hv⟩
    · exact And.left
  | cons c text ih =>
    rw [parse_digits, digits_value]
    cases digit_of c with
    | none => simp
    | some digit =>
      dsimp only [Option.bind_some]
      by_cases hd : base ≤ digit
      · rw [if_pos (.inl hd), if_pos hd]
        simp
      · have hroom : (uint64_max - digit) / base < v ↔ uint64_max < v * base + digit := by
          rw [Nat.div_lt_iff_lt_mul hb]
          omega
        rw [if_neg hd]
        by_cases ho : uint64_max < v * base + digit
        · rw [if_pos (.inr (hroom.2 ho))]
          refine ⟨fun h => (nomatch h), fun h => ?_⟩
          have := digits_value_le hb h.1
          omega
        · rw [if_neg (by simp [hd, hroom, ho]), ih (by omega)]

theorem split_base_cases (text : Text) : (split_base text).1 = 10 ∨ (split_base text).1 = 16 := by
  unfold split_base
  split <;> simp

/-- A literal is read as it is written if it fits 64 bits. -/
theorem enum_parse_number_iff (text : Text) (number : EnumNumber) :
    enum_parse_number text = some number ↔ ∃ z, literal_value text = some z ∧
      z.natAbs ≤ uint64_max ∧ number = ⟨z.natAbs, (split_sign text).1⟩ := by
  by_cases hnil : text = []
  · subst hnil
    simp [enum_parse_number, literal_value, split_sign, split_base]
  rw [enum_parse_number, if_neg hnil, literal_value]
  generalize split_sign text = signed
  obtain ⟨negative, rest⟩ := signed
  have hbase := split_base_cases rest
  dsimp only
  generalize split_base rest = based at hbase
  obtain ⟨base, digits⟩ := based
  have hpos : 0 < base := by omega
  have hmax : base ≤ uint64_max := by
    rw [uint64_max]
    omega
  by_cases hdigits : digits = []
  · simp [hdigits]
  · rw [if_neg hdigits, if_neg hdigits]
    simp only [Option.map_eq_some_iff, parse_digits_iff hpos hmax (Nat.zero_le _)]
    constructor
    · rintro ⟨r, ⟨hr, hle⟩, rfl⟩
      refine ⟨_, ⟨r, hr, rfl⟩, ?_⟩
      cases negative <;> simp [hle]
    · rintro ⟨z, ⟨r, hr, rfl⟩, hle, rfl⟩
      refine ⟨r, ⟨hr, ?_⟩, ?_⟩
      · cases negative <;> simpa using hle
      · cases negative <;> simp

theorem split_sign_head (text : Text) : (split_sign text).1 = true ↔ text.head? = some 45 := by
  unfold split_sign
  split
  · simp
  · simp
  · cases text <;> simp_all

variable {z : ℤ}

theorem sign_of_literal (h : literal_value text = some z) :
    if (split_sign text).1 then z ≤ 0 else 0 ≤ z := by
  rw [literal_value] at h
  dsimp only at h
  obtain ⟨-, h⟩ := Option.ite_none_left_eq_some.1 h
  obtain ⟨n, -, rfl⟩ := Option.map_eq_some_iff.1 h
  split_ifs <;> omega

theorem drop_minus_zero_eq {negative : Bool} (h : if negative then z ≤ 0 else 0 ≤ z) :
    drop_minus_zero ⟨z.natAbs, negative⟩ = ofInt z := by
  cases negative with
  | false =>
    simp only [Bool.false_eq_true, if_false] at h
    simp [drop_minus_zero, ofInt, h]
  | true =>
    simp only [if_true] at h
    simp only [drop_minus_zero, ofInt, EnumNumber.mk.injEq, true_and, Bool.true_and]
    congr 1
    rw [eq_iff_iff]
    omega

/-- What fits a type is what lies in its range, but no unsigned type takes a minus. -/
theorem fits_iff (ht : Integral type) {negative : Bool} (h : if negative then z ≤ 0 else 0 ≤ z) :
    enum_number_fits ⟨z.natAbs, negative⟩ type = true ↔
      InRange type z ∧ ¬ ((∃ bits, type = .uint bits) ∧ negative = true) := by
  simp only [Integral, List.mem_cons, List.not_mem_nil, or_false] at ht
  rcases ht with rfl | rfl | rfl | rfl | rfl | rfl | rfl | rfl <;> cases negative <;>
    simp only [Bool.false_eq_true, if_false, if_true] at h <;>
    simp [enum_number_fits, InRange, uint64_max] <;> omega

theorem enum_next_number_eq (h : z.natAbs ≤ uint64_max) (is_flags : Bool) :
    enum_next_number (ofInt z) is_flags =
      if (next_value is_flags z).natAbs ≤ uint64_max then some (ofInt (next_value is_flags z))
      else none := by
  have hmax : uint64_max = 2 ^ 64 - 1 := rfl
  cases is_flags with
  | true =>
    show (if uint64_max / 2 < z.natAbs then none else some ⟨z.natAbs * 2, decide (z < 0)⟩) =
      if (z * 2).natAbs ≤ uint64_max then some (ofInt (z * 2)) else none
    by_cases hz : uint64_max / 2 < z.natAbs
    · rw [if_pos hz, if_neg (by omega)]
    · rw [if_neg hz, if_pos (by omega)]
      simp only [ofInt, Option.some.injEq, EnumNumber.mk.injEq, decide_eq_decide]
      omega
  | false =>
    show (if decide (z < 0) = true then
        some ⟨(z.natAbs + uint64_max) % 2 ^ 64,
          if (z.natAbs + uint64_max) % 2 ^ 64 = 0 then false else decide (z < 0)⟩
      else if z.natAbs = uint64_max then none else some ⟨z.natAbs + 1, decide (z < 0)⟩) =
      if (z + 1).natAbs ≤ uint64_max then some (ofInt (z + 1)) else none
    by_cases hneg : z < 0
    · have hdown : (z.natAbs + uint64_max) % 2 ^ 64 = (z + 1).natAbs := by omega
      rw [if_pos (decide_eq_true hneg), hdown]
      by_cases hone : (z + 1).natAbs = 0
      · rw [if_pos hone, if_pos (by omega), ofInt, decide_eq_false (by omega)]
      · have hstill : z + 1 < 0 := by omega
        rw [if_neg hone, if_pos (by omega), ofInt, decide_eq_true hneg, decide_eq_true hstill]
    · rw [if_neg (by simpa using hneg)]
      by_cases hz : z.natAbs = uint64_max
      · rw [if_pos hz, if_neg (by omega)]
      · rw [if_neg hz, if_pos (by omega)]
        simp only [ofInt, Option.some.injEq, EnumNumber.mk.injEq, decide_eq_decide]
        omega

theorem natAbs_le_of_inRange (ht : Integral type) (h : InRange type z) : z.natAbs ≤ uint64_max := by
  simp only [Integral, List.mem_cons, List.not_mem_nil, or_false] at ht
  rcases ht with rfl | rfl | rfl | rfl | rfl | rfl | rfl | rfl <;>
    simp only [InRange] at h <;> norm_num [uint64_max] at h ⊢ <;> omega

theorem compare_congr {α β : Type} [LinearOrder α] [LinearOrder β] {a b : α} {c d : β}
    (hlt : a < b ↔ c < d) (hgt : b < a ↔ d < c) : compare a b = compare c d := by
  rcases lt_trichotomy a b with h | h | h
  · rw [compare_lt_iff_lt.2 h, compare_lt_iff_lt.2 (hlt.1 h)]
  · have hcd : c = d := le_antisymm (not_lt.1 fun h' => absurd (hgt.2 h') (by simp [h]))
      (not_lt.1 fun h' => absurd (hlt.2 h') (by simp [h]))
    rw [compare_eq_iff_eq.2 h, compare_eq_iff_eq.2 hcd]
  · rw [compare_gt_iff_gt.2 h, compare_gt_iff_gt.2 (hgt.1 h)]

theorem enum_compare_value_ofInt (a b : ℤ) :
    enum_compare_value (ofInt a) (ofInt b) = compare a b := by
  show (if decide (a < 0) ≠ decide (b < 0) then if decide (a < 0) = true then .lt else .gt
    else if decide (a < 0) = true then (compare a.natAbs b.natAbs).swap
      else compare a.natAbs b.natAbs) = compare a b
  by_cases ha : a < 0 <;> by_cases hb : b < 0
  · rw [if_neg (by simp [ha, hb]), if_pos (decide_eq_true ha), ← Std.OrientedCmp.eq_swap]
    exact compare_congr (by omega) (by omega)
  · rw [if_pos (by simp [ha, hb]), if_pos (decide_eq_true ha), compare_lt_iff_lt.2 (by omega)]
  · rw [if_pos (by simp [ha, hb]), if_neg (by simpa using ha), compare_gt_iff_gt.2 (by omega)]
  · rw [if_neg (by simp [ha, hb]), if_neg (by simpa using ha)]
    exact compare_congr (by omega) (by omega)

def MinusTaken (type : CmetaType) (text : Text) : Prop :=
  (∃ bits, type = .uint bits) ∧ MinusZero text

theorem enum_value_iff {type : CmetaType} (ht : Integral type) {is_flags : Bool} {p : Option ℤ}
    (hp : ∀ z, p = some z → InRange type z) (text : Text) (number : EnumNumber) :
    (∃ v, enum_value is_flags (p.map ofInt) text = some v ∧ enum_number_fits v type = true ∧
      drop_minus_zero v = number) ↔
    ∃ z, expected_value is_flags p text = some z ∧ InRange type z ∧ ¬ MinusTaken type text ∧
      number = ofInt z := by
  have hsigned : ∀ z : ℤ, if decide (z < 0) then z ≤ 0 else 0 ≤ z := by
    intro z
    by_cases hz : z < 0
    · rw [if_pos (decide_eq_true hz)]
      exact hz.le
    · rw [if_neg (by simpa using hz)]
      omega
  have hcanonical : ∀ z, enum_number_fits (ofInt z) type = true ↔ InRange type z := by
    intro z
    rw [ofInt, fits_iff ht (hsigned z)]
    refine ⟨And.left, fun h => ⟨h, ?_⟩⟩
    rintro ⟨⟨bits, rfl⟩, hneg⟩
    have := of_decide_eq_true hneg
    have := h.1
    omega
  by_cases hnil : text = []
  · have hminus : ¬ MinusTaken type text := by
      rintro ⟨-, h, -⟩
      rw [hnil] at h
      cases h
    simp only [enum_value, expected_value, hnil, ne_eq, not_true_eq_false, if_false,
      Option.some.injEq, exists_eq_left', hnil ▸ hminus, not_false_eq_true, true_and]
    have hdrop : ∀ z, drop_minus_zero (ofInt z) = ofInt z := fun z => drop_minus_zero_eq (hsigned z)
    cases p with
    | none =>
      have hfirst : (⟨if is_flags then 1 else 0, false⟩ : EnumNumber) =
          ofInt (first_value is_flags) := by cases is_flags <;> rfl
      simp only [Option.map_none, Option.some.injEq, exists_eq_left', Option.getD_none, hfirst,
        hcanonical, hdrop]
      exact and_congr_right fun _ => eq_comm
    | some z =>
      have hz := natAbs_le_of_inRange ht (hp z rfl)
      simp only [Option.map_some, Option.getD_some, enum_next_number_eq hz]
      split_ifs with hnext
      · simp only [Option.some.injEq, exists_eq_left', hcanonical, hdrop]
        exact and_congr_right fun _ => eq_comm
      · simp only [false_and, exists_false, false_iff, not_and]
        exact fun h => absurd (natAbs_le_of_inRange ht h) hnext
  · simp only [enum_value, expected_value, if_pos hnil, enum_parse_number_iff]
    constructor
    · rintro ⟨v, ⟨z, hz, -, rfl⟩, hfits, rfl⟩
      have hsign := sign_of_literal hz
      obtain ⟨hrange, hminus⟩ := (fits_iff ht hsign).1 hfits
      refine ⟨z, hz, hrange, fun h => hminus ⟨h.1, ?_⟩, drop_minus_zero_eq hsign⟩
      exact (split_sign_head text).2 h.2.1
    · rintro ⟨z, hz, hrange, hminus, rfl⟩
      have hsign := sign_of_literal hz
      refine ⟨_, ⟨z, hz, natAbs_le_of_inRange ht hrange, rfl⟩, (fits_iff ht hsign).2 ⟨hrange, ?_⟩,
        drop_minus_zero_eq hsign⟩
      rintro ⟨⟨bits, rfl⟩, hneg⟩
      rw [if_pos hneg] at hsign
      have hzero : z = 0 := le_antisymm hsign hrange.1
      exact hminus ⟨⟨bits, rfl⟩, (split_sign_head text).1 hneg, hzero ▸ hz⟩

theorem enum_numbers_iff {type : CmetaType} (ht : Integral type) {is_flags : Bool}
    {p : Option ℤ} (hp : ∀ z, p = some z → InRange type z) (items : List EnumItem)
    (numbers : List EnumNumber) :
    enum_numbers type is_flags (p.map ofInt) items = some numbers ↔
      ∃ zs, expected_values is_flags p (items.map EnumItem.value) = some zs ∧
        (∀ z ∈ zs, InRange type z) ∧ (∀ item ∈ items, ¬ MinusTaken type item.value) ∧
        numbers = zs.map ofInt := by
  induction items generalizing p numbers with
  | nil =>
    simp [enum_numbers, expected_values, eq_comm]
  | cons item items ih =>
    have hstep := @enum_value_iff type ht is_flags p hp item.value
    simp only [enum_numbers, List.map_cons, expected_values, Option.bind_eq_some_iff,
      Option.ite_none_right_eq_some, Option.map_eq_some_iff]
    constructor
    · rintro ⟨v, hv, hfits, numbers', hrest, rfl⟩
      obtain ⟨z, hz, hrange, hminus, hn⟩ := (hstep _).1 ⟨v, hv, hfits, rfl⟩
      rw [hn] at hrest
      obtain ⟨zs, hzs, hall, hminuses, rfl⟩ := (ih (p := some z)
        (fun z' h => by cases h; exact hrange) numbers').1 hrest
      exact ⟨z :: zs, ⟨z, hz, zs, hzs, rfl⟩, List.forall_mem_cons.2 ⟨hrange, hall⟩,
        List.forall_mem_cons.2 ⟨hminus, hminuses⟩, by rw [hn, List.map_cons]⟩
    · rintro ⟨zs', ⟨z, hz, zs, hzs, rfl⟩, hall, hminuses, rfl⟩
      obtain ⟨hrange, hall⟩ := List.forall_mem_cons.1 hall
      obtain ⟨hminus, hminuses⟩ := List.forall_mem_cons.1 hminuses
      obtain ⟨v, hv, hfits, hn⟩ := (hstep _).2 ⟨z, hz, hrange, hminus, rfl⟩
      refine ⟨v, hv, hfits, zs.map ofInt, ?_, by rw [hn, List.map_cons]⟩
      rw [hn]
      exact (ih (p := some z) (fun z' h => by cases h; exact hrange) _).2
        ⟨zs, hzs, hall, hminuses, rfl⟩

section
variable {α κ : Type} [Ord κ] [Std.TransOrd κ] (key : α → κ)

def sortedBy (l : List α) : List α :=
  l.mergeSort fun a b => (compare (key a) (key b)).isLE

theorem sortedBy_pairwise (l : List α) :
    (sortedBy key l).Pairwise fun a b => (compare (key a) (key b)).isLE = true := by
  refine List.pairwise_mergeSort (fun a b c => Std.TransCmp.isLE_trans) (fun a b => ?_) l
  rw [Bool.or_eq_true]
  cases h : (compare (key a) (key b)).isLE with
  | true => exact .inl rfl
  | false =>
    have hswap := @Std.OrientedCmp.eq_swap κ compare _ (key a) (key b)
    cases hc : compare (key b) (key a) <;> simp_all

/-- In a sorted list a key that stands twice stands with neighbours. -/
theorem neighbours_equal_iff [Std.LawfulEqOrd κ] {l : List α}
    (hs : l.Pairwise fun a b => (compare (key a) (key b)).isLE = true) :
    neighbours_equal (fun a b => compare (key a) (key b)) l = true ↔ ¬ (l.map key).Nodup := by
  induction l with
  | nil => simp [neighbours_equal]
  | cons a l ih =>
    cases l with
    | nil => simp [neighbours_equal]
    | cons b l =>
      obtain ⟨hfirst, hrest⟩ := List.pairwise_cons.1 hs
      rw [neighbours_equal, Bool.or_eq_true, ih hrest, beq_iff_eq, @List.map_cons _ _ key a,
        @List.nodup_cons _ (key a), not_and_or, not_not]
      refine or_congr_left ⟨fun h => ?_, fun h => ?_⟩
      · rw [Std.LawfulEqCmp.eq_of_compare h]
        simp
      · obtain ⟨c, hc, heq⟩ := List.mem_map.1 h
        have hab := hfirst b List.mem_cons_self
        rcases List.mem_cons.1 hc with rfl | hc
        · rw [heq]
          exact Std.ReflCmp.compare_self
        · have hbc := (List.pairwise_cons.1 hrest).1 c hc
          rw [heq] at hbc
          exact Std.OrientedCmp.isLE_antisymm hab hbc

omit [Std.TransOrd κ] in
theorem sortedBy_perm (l : List α) : (sortedBy key l).Perm l := List.mergeSort_perm _ _

theorem neighbours_equal_sortedBy [Std.LawfulEqOrd κ] (l : List α) :
    neighbours_equal (fun a b => compare (key a) (key b)) (sortedBy key l) = true ↔
      ¬ (l.map key).Nodup := by
  rw [neighbours_equal_iff key (sortedBy_pairwise key l),
    ((sortedBy_perm key l).map key).nodup_iff]

end

theorem neighbours_equal_map {α β : Type} (f : α → β) (cmp : β → β → Ordering) (l : List α) :
    neighbours_equal cmp (l.map f) = neighbours_equal (fun a b => cmp (f a) (f b)) l := by
  induction l with
  | nil => rfl
  | cons a l ih =>
    cases l with
    | nil => rfl
    | cons b l =>
      rw [List.map_cons, List.map_cons, neighbours_equal, neighbours_equal, ← List.map_cons, ih]

abbrev pairs (owner : EnumDecl) (zs : List ℤ) : List (ℤ × Text) :=
  zs.zip (owner.items.map EnumItem.name)

def stored (pair : ℤ × Text) : EnumNumber × Text := (ofInt pair.1, pair.2)

theorem zip_stored (owner : EnumDecl) (zs : List ℤ) :
    (zs.map ofInt).zip (owner.items.map EnumItem.name) = (pairs owner zs).map stored := by
  rw [List.zip_map_left]
  rfl

theorem by_value_eq (l : List (ℤ × Text)) :
    (l.map stored).mergeSort (fun a b => (enum_compare_value a.1 b.1).isLE) =
      (sortedBy Prod.fst l).map stored := by
  refine (List.map_mergeSort fun a _ b _ => ?_).symm
  rw [stored, stored, enum_compare_value_ofInt]

theorem by_name_eq (l : List (ℤ × Text)) :
    (l.map stored).mergeSort (fun a b => (enum_compare_name a.2 b.2).isLE) =
      (sortedBy Prod.snd l).map stored := by
  refine (List.map_mergeSort fun a _ b _ => ?_).symm
  rfl

theorem values_twice (l : List (ℤ × Text)) :
    neighbours_equal (fun a b => enum_compare_value a.1 b.1)
      ((sortedBy Prod.fst l).map stored) = true ↔ ¬ (l.map Prod.fst).Nodup := by
  rw [neighbours_equal_map, ← neighbours_equal_sortedBy Prod.fst l]
  simp only [stored, enum_compare_value_ofInt]

theorem names_twice (l : List (ℤ × Text)) :
    neighbours_equal (fun a b => enum_compare_name a.2 b.2)
      ((sortedBy Prod.snd l).map stored) = true ↔ ¬ (l.map Prod.snd).Nodup := by
  rw [neighbours_equal_map, ← neighbours_equal_sortedBy Prod.snd l]
  rfl

/-- The declaration that is left behind. -/
def normal (owner : EnumDecl) (type : CmetaType) (zs : List ℤ) : EnumDecl :=
  { owner with
    underlying_type := some (canonical_name type)
    items := List.zipWith enum_normalize_item (zs.map ofInt) owner.items
    min_value := (sortedBy Prod.fst (pairs owner zs)).head?.map fun pair =>
      enum_constant owner.enum_name pair.2
    max_value := (sortedBy Prod.fst (pairs owner zs)).getLast?.map fun pair =>
      enum_constant owner.enum_name pair.2
    is_ordinal := owner.is_ordinal ||
      (zs.map ofInt).zipIdx.all fun entry => !entry.1.negative && entry.1.magnitude == entry.2 }

variable {zs : List ℤ}

theorem expected_values_length {is_flags : Bool} {p : Option ℤ} {texts : List Text}
    (h : expected_values is_flags p texts = some zs) : zs.length = texts.length := by
  induction texts generalizing p zs with
  | nil =>
    cases h
    rfl
  | cons text texts ih =>
    obtain ⟨z, -, h⟩ := Option.bind_eq_some_iff.1 h
    obtain ⟨zs', hrest, rfl⟩ := Option.map_eq_some_iff.1 h
    rw [List.length_cons, List.length_cons, ih hrest]

theorem pairs_fst (h : zs.length = owner.items.length) : (pairs owner zs).map Prod.fst = zs :=
  List.map_fst_zip (by rw [List.length_map, h])

theorem pairs_snd (h : zs.length = owner.items.length) :
    (pairs owner zs).map Prod.snd = owner.items.map EnumItem.name :=
  List.map_snd_zip (by rw [List.length_map, h])

theorem enum_validate_one_iff (owner out : EnumDecl) : enum_validate_one owner = some out ↔
    ∃ type zs, Valid owner type zs ∧ ¬ MinusZeroed owner ∧ out = normal owner type zs := by
  rw [enum_validate_one]
  constructor
  · intro h
    obtain ⟨type, htype, h⟩ := Option.bind_eq_some_iff.1 h
    obtain ⟨hne, h⟩ := Option.ite_none_left_eq_some.1 h
    obtain ⟨numbers, hnumbers, h⟩ := Option.bind_eq_some_iff.1 h
    obtain ⟨zs, hzs, hfits, hminus, rfl⟩ := (@enum_numbers_iff type (integral_of_enum_type htype)
      owner.is_flags none (by simp) owner.items numbers).1 hnumbers
    have hlen : zs.length = owner.items.length := by
      rw [expected_values_length hzs, List.length_map]
    dsimp only at h
    rw [zip_stored, by_value_eq, by_name_eq] at h
    obtain ⟨hvalues, h⟩ := Option.ite_none_left_eq_some.1 h
    obtain ⟨hnames, h⟩ := Option.ite_none_left_eq_some.1 h
    rw [values_twice, not_not, pairs_fst hlen] at hvalues
    rw [names_twice, not_not, ((sortedBy_perm Prod.fst _).map Prod.snd).nodup_iff,
      pairs_snd hlen] at hnames
    refine ⟨type, zs, ⟨htype, hne, hzs, hfits, hvalues, hnames⟩, ?_, ?_⟩
    · rintro ⟨hunsigned, item, hitem, hzero⟩
      refine hminus item hitem ⟨?_, hzero⟩
      simpa [htype] using hunsigned
    · rw [← Option.some.inj h, normal, List.head?_map, List.getLast?_map, Option.map_map,
        Option.map_map]
      rfl
  · rintro ⟨type, zs, hvalid, hminus, rfl⟩
    have hlen : zs.length = owner.items.length := by
      rw [expected_values_length hvalid.values_eq, List.length_map]
    have hnumbers := (@enum_numbers_iff type (integral_of_enum_type hvalid.type_eq)
      owner.is_flags none (by simp) owner.items (zs.map ofInt)).2 ⟨zs, hvalid.values_eq,
        hvalid.fits, fun item hitem h =>
          hminus ⟨by simpa [hvalid.type_eq] using h.1, item, hitem, h.2⟩, rfl⟩
    rw [Option.map_none] at hnumbers
    rw [hvalid.type_eq, Option.bind_some, if_neg hvalid.nonempty, hnumbers, Option.bind_some]
    dsimp only
    rw [zip_stored, by_value_eq, by_name_eq, if_neg, if_neg]
    · rw [normal, List.head?_map, List.getLast?_map, Option.map_map, Option.map_map]
      rfl
    · rw [names_twice, not_not, ((sortedBy_perm Prod.fst _).map Prod.snd).nodup_iff,
        pairs_snd hlen]
      exact hvalid.names_distinct
    · rw [values_twice, not_not, pairs_fst hlen]
      exact hvalid.distinct

theorem digits_value_append {text rest : Text} (h : ∀ c ∈ text, 48 ≤ c ∧ c ≤ 57) (v : ℕ) :
    digits_value 10 (text ++ rest) v =
      digits_value 10 rest (text.foldl (fun n c => 10 * n + (c - 48)) v) := by
  induction text generalizing v with
  | nil => rfl
  | cons c text ih =>
    obtain ⟨hc, htext⟩ := List.forall_mem_cons.1 h
    rw [List.cons_append, digits_value, digit_of, if_pos hc, Option.bind_some, if_neg (by omega),
      ih htext, List.foldl_cons, Nat.mul_comm v]

theorem digits_value_numeral (n : ℕ) : digits_value 10 (numeral n) 0 = some n := by
  have h := @digits_value_append (numeral n) [] (numeral_digits n) 0
  rwa [List.append_nil, ← value, value_numeral] at h

theorem split_base_numeral (n : ℕ) : split_base (numeral n) = (10, numeral n) := by
  unfold split_base
  split
  · have h := numeral_digits n 120 (by simp_all)
    omega
  · rfl

theorem literal_enum_text (z : ℤ) : literal_value (enum_text (ofInt z)) = some z := by
  have hsign : split_sign (enum_text (ofInt z)) = (decide (z < 0), numeral z.natAbs) := by
    obtain ⟨c, rest, hn, -⟩ := numeral_head z.natAbs
    have hc := numeral_digits z.natAbs c (by simp [hn])
    by_cases hz : z < 0
    · simp [enum_text, ofInt, hz, split_sign]
    · have hplain : enum_text (ofInt z) = c :: rest := by simp [enum_text, ofInt, hz, hn]
      rw [hplain, hn, decide_eq_false hz]
      unfold split_sign
      split <;> simp_all
  rw [literal_value, hsign]
  dsimp only
  rw [split_base_numeral, if_neg (numeral_ne_nil _), digits_value_numeral, Option.map_some]
  by_cases hz : z < 0
  · rw [if_pos (decide_eq_true hz), Option.some.injEq]
    omega
  · rw [if_neg (by simpa using hz), Option.some.injEq]
    omega

theorem enum_text_ne_nil : enum_text number ≠ [] := by
  simp [enum_text, numeral_ne_nil]

theorem expected_values_texts (is_flags : Bool) (p : Option ℤ) (zs : List ℤ) :
    expected_values is_flags p (zs.map fun z => enum_text (ofInt z)) = some zs := by
  induction zs generalizing p with
  | nil => rfl
  | cons z zs ih =>
    rw [List.map_cons, expected_values, expected_value, if_pos (enum_text_ne_nil _),
      literal_enum_text, Option.bind_some, ih, Option.map_some]

theorem normalize_names {numbers : List EnumNumber} {items : List EnumItem}
    (h : numbers.length = items.length) :
    (List.zipWith enum_normalize_item numbers items).map EnumItem.name =
      items.map EnumItem.name := by
  induction items generalizing numbers with
  | nil => simp
  | cons item items ih =>
    cases numbers with
    | nil => cases h
    | cons number numbers =>
      rw [List.zipWith_cons_cons, List.map_cons, List.map_cons, ih (by simpa using h)]
      rfl

theorem normalize_values {numbers : List EnumNumber} {items : List EnumItem}
    (h : numbers.length = items.length) :
    (List.zipWith enum_normalize_item numbers items).map EnumItem.value =
      numbers.map enum_text := by
  induction items generalizing numbers with
  | nil => simp [List.eq_nil_of_length_eq_zero h]
  | cons item items ih =>
    cases numbers with
    | nil => cases h
    | cons number numbers =>
      rw [List.zipWith_cons_cons, List.map_cons, List.map_cons, ih (by simpa using h)]
      rfl

theorem normalize_again (numbers : List EnumNumber) (items : List EnumItem) :
    List.zipWith enum_normalize_item numbers (List.zipWith enum_normalize_item numbers items) =
      List.zipWith enum_normalize_item numbers items := by
  induction items generalizing numbers with
  | nil => simp
  | cons item items ih =>
    cases numbers with
    | nil => rfl
    | cons number numbers =>
      rw [List.zipWith_cons_cons, List.zipWith_cons_cons, ih]
      rfl

theorem Valid.length (h : Valid owner type zs) : zs.length = owner.items.length := by
  rw [expected_values_length h.values_eq, List.length_map]

theorem Valid.values_unique {type' : CmetaType} {zs' : List ℤ} (h : Valid owner type zs)
    (h' : Valid owner type' zs') : zs = zs' :=
  Option.some.inj (h.values_eq.symm.trans h'.values_eq)

theorem enum_type_normal (h : Integral type) : enum_type (normal owner type zs) = some type := by
  simp only [Integral, List.mem_cons, List.not_mem_nil, or_false] at h
  rcases h with rfl | rfl | rfl | rfl | rfl | rfl | rfl | rfl <;> rfl

theorem normal_names (h : Valid owner type zs) :
    (normal owner type zs).items.map EnumItem.name = owner.items.map EnumItem.name :=
  normalize_names (by rw [List.length_map, h.length])

theorem normal_values (h : Valid owner type zs) : (normal owner type zs).items.map EnumItem.value =
      zs.map fun z => enum_text (ofInt z) := by
  rw [normal, normalize_values (by rw [List.length_map, h.length]), List.map_map]
  rfl

theorem normal_valid (h : Valid owner type zs) : Valid (normal owner type zs) type zs where
  type_eq := enum_type_normal (integral_of_enum_type h.type_eq)
  nonempty hnil := by
    have hnames := normal_names h
    rw [hnil, List.map_nil, eq_comm, List.map_eq_nil_iff] at hnames
    exact h.nonempty hnames
  values_eq := by rw [normal_values h, expected_values_texts]
  fits := h.fits
  distinct := h.distinct
  names_distinct := by
    rw [normal_names h]
    exact h.names_distinct

theorem normal_not_minus_zeroed (h : Valid owner type zs) :
    ¬ MinusZeroed (normal owner type zs) := by
  rintro ⟨-, item, hitem, hhead, hzero⟩
  have hmem : item.value ∈ zs.map fun z => enum_text (ofInt z) := by
    rw [← normal_values h]
    exact List.mem_map_of_mem hitem
  obtain ⟨z, -, hz⟩ := List.mem_map.1 hmem
  rw [← hz, literal_enum_text] at hzero
  rw [← hz, Option.some.inj hzero] at hhead
  simp [enum_text, ofInt, numeral_small] at hhead

theorem normal_again (h : Valid owner type zs) :
    normal (normal owner type zs) type zs = normal owner type zs := by
  have hpairs : pairs (normal owner type zs) zs = pairs owner zs := by
    rw [pairs, normal_names h]
  rw [normal, hpairs]
  simp only [normal, normalize_again, Bool.or_assoc, Bool.or_self]

/-- A pair stands at the same place among the values and among the items. -/
theorem mem_pairs {pair : ℤ × Text} (h : pair ∈ pairs owner zs) :
    ∃ i : ℕ, ∃ item, zs[i]? = some pair.1 ∧ owner.items[i]? = some item ∧
      item.name = pair.2 := by
  obtain ⟨i, hi⟩ := List.mem_iff_getElem?.1 h
  obtain ⟨hz, hname⟩ := List.getElem?_zip_eq_some.1 hi
  rw [List.getElem?_map, Option.map_eq_some_iff] at hname
  obtain ⟨item, hitem, hname⟩ := hname
  exact ⟨i, item, hz, hitem, hname⟩

theorem ordinal_iff (zs : List ℤ) (k : ℕ) :
    ((zs.map ofInt).zipIdx k).all (fun entry => !entry.1.negative && entry.1.magnitude == entry.2)
      = true ↔ ∀ (i : ℕ) (z : ℤ), zs[i]? = some z → z = k + i := by
  induction zs generalizing k with
  | nil => simp
  | cons z zs ih =>
    have hfirst : (!(ofInt z).negative && (ofInt z).magnitude == k) = true ↔ z = k := by
      simp only [ofInt, Bool.and_eq_true, Bool.not_eq_true', decide_eq_false_iff_not, beq_iff_eq]
      omega
    rw [List.map_cons, List.zipIdx_cons, List.all_cons, Bool.and_eq_true, hfirst, ih]
    constructor
    · rintro ⟨rfl, hrest⟩ i z' hi
      cases i with
      | zero => simp_all
      | succ i =>
        rw [hrest i z' hi]
        push_cast
        ring
    · intro h
      refine ⟨by simpa using h 0 z rfl, fun i z' hi => ?_⟩
      rw [h (i + 1) z' hi]
      push_cast
      ring

theorem normal_normalized (h : Valid owner type zs) :
    Normalized owner zs (normal owner type zs) := by
  have hperm := sortedBy_perm Prod.fst (pairs owner zs)
  have hsorted := sortedBy_pairwise Prod.fst (pairs owner zs)
  have hne : sortedBy Prod.fst (pairs owner zs) ≠ [] := by
    intro hnil
    have hlen := hperm.length_eq
    rw [hnil, ← @List.length_map _ _ (pairs owner zs) Prod.fst, pairs_fst h.length, h.length]
      at hlen
    exact h.nonempty (List.eq_nil_of_length_eq_zero hlen.symm)
  have hmem : ∀ z ∈ zs, ∃ pair ∈ sortedBy Prod.fst (pairs owner zs), pair.1 = z := by
    intro z hz
    rw [← pairs_fst h.length] at hz
    obtain ⟨pair, hpair, rfl⟩ := List.mem_map.1 hz
    exact ⟨pair, hperm.mem_iff.2 hpair, rfl⟩
  refine ⟨normal_names h, ?_, ?_, ?_, ?_, ?_⟩
  · have hvalues := congrArg (List.map literal_value) (normal_values h)
    rw [List.map_map, List.map_map] at hvalues
    refine hvalues.trans (List.map_congr_left fun z _ => literal_enum_text z)
  · obtain ⟨first, rest, hlist⟩ := List.exists_cons_of_ne_nil hne
    rw [hlist] at hsorted hmem
    obtain ⟨i, item, hz, hitem, hname⟩ :=
      mem_pairs (hperm.mem_iff.1 (show first ∈ _ by rw [hlist]; exact List.mem_cons_self))
    refine ⟨i, first.1, item, hz, hitem, by rw [normal, hlist, hname]; rfl, fun z hz => ?_⟩
    obtain ⟨pair, hpair, rfl⟩ := hmem z hz
    rcases List.mem_cons.1 hpair with rfl | hpair
    · exact le_rfl
    · exact Std.isLE_compare.1 ((List.pairwise_cons.1 hsorted).1 pair hpair)
  · obtain ⟨front, last, hlist⟩ : ∃ front last,
        sortedBy Prod.fst (pairs owner zs) = front ++ [last] :=
      ⟨_, _, (List.dropLast_append_getLast hne).symm⟩
    rw [hlist] at hsorted hmem
    obtain ⟨i, item, hz, hitem, hname⟩ :=
      mem_pairs (hperm.mem_iff.1 (show last ∈ _ by rw [hlist]; simp))
    refine ⟨i, last.1, item, hz, hitem, ?_, fun z hz => ?_⟩
    · rw [normal, hlist, List.getLast?_append_cons, hname]
      rfl
    · obtain ⟨pair, hpair, rfl⟩ := hmem z hz
      rcases List.mem_append.1 hpair with hpair | hpair
      · exact Std.isLE_compare.1
          ((List.pairwise_append.1 hsorted).2.2 pair hpair last List.mem_cons_self)
      · rw [List.mem_singleton.1 hpair]
  · rw [normal, Bool.or_eq_true, ordinal_iff zs 0]
    simp only [Nat.cast_zero, zero_add]
  · exact (enum_validate_one_iff _ _).2 ⟨type, zs, normal_valid h, normal_not_minus_zeroed h,
      (normal_again h).symm⟩

/-- A zero of an unsigned type cannot be written with a minus; nothing else in range is lost. -/
theorem enum_values_exact (owner : EnumDecl) :
    ((enum_validate_one owner).isSome = true ↔
      (∃ type zs, Valid owner type zs) ∧ ¬ MinusZeroed owner) ∧
    ∀ out type zs, enum_validate_one owner = some out → Valid owner type zs →
      Normalized owner zs out := by
  refine ⟨?_, fun out type zs hout hvalid => ?_⟩
  · rw [Option.isSome_iff_exists]
    constructor
    · rintro ⟨out, hout⟩
      obtain ⟨type, zs, hvalid, hminus, -⟩ := (enum_validate_one_iff owner out).1 hout
      exact ⟨⟨type, zs, hvalid⟩, hminus⟩
    · rintro ⟨⟨type, zs, hvalid⟩, hminus⟩
      exact ⟨_, (enum_validate_one_iff owner _).2 ⟨type, zs, hvalid, hminus, rfl⟩⟩
  · obtain ⟨type', zs', hvalid', -, rfl⟩ := (enum_validate_one_iff owner out).1 hout
    rw [hvalid.values_unique hvalid']
    exact normal_normalized hvalid'

def minus_zero : EnumDecl :=
  { enum_name := [69], underlying_type := some "uint8", items := [{ name := [65], value := [45, 48] }] }

theorem minus_zero_rejected :
    Valid minus_zero (.uint 8) [0] ∧ enum_validate_one minus_zero = none :=
  ⟨⟨by decide, by decide, by decide, by simp [InRange], by decide, by decide⟩, by decide⟩

end SaltsUtils.DataBind.Enum
