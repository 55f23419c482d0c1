import SaltsUtils.Library.Binary64

/-!
# Rounding of a double on its decimal text
-/

set_option autoImplicit false

namespace SaltsUtils.Jinja
open Decimal Binary64

/-- The last digits of a number. -/
def places : ℕ → ℕ → List ℕ
  | 0, _ => []
  | p + 1, n => places p (n / 10) ++ [48 + n % 10]

/-- What `%.*f` prints of a number that is not negative. -/
def snprintf_fixed (precision : ℕ) (q : ℚ) : List ℕ :=
  let n := nearest (q * 10 ^ precision)
  numeral (n / 10 ^ precision) ++
    if precision = 0 then [] else 46 :: places precision (n % 10 ^ precision)

def max_decimal_precision : ℤ := 323
def min_decimal_precision : ℤ := -308
def mant_dig : ℕ := 53
def float_token_capacity : ℕ := 768

/-- What is handed to `strtod`, or what is returned without it. -/
inductive Rounded
  | failed
  | unchanged
  | zero
  | digits (text : List ℕ)
deriving DecidableEq

variable (text : List ℕ)

def nonzero_after (cut : ℕ) : Bool :=
  (text.drop (cut + 1)).any fun c => decide (49 ≤ c ∧ c ≤ 57)

/-- Every index into the text is checked: nothing is returned for one outside of it. -/
def rounds_upward (cut : ℕ) : Option Bool :=
  text[cut]?.bind fun c =>
    if c = 53 then
      (if cut ≠ 0 then text[cut - 1]?.map fun d => decide ((d - 48) % 2 ≠ 0) else some false).map
        fun odd => odd || nonzero_after text cut
    else some (decide (53 < c))

def carry_loop (text : List ℕ) : ℕ → Bool → Option (List ℕ × Bool)
  | carry + 1, true =>
    text[carry]?.bind fun c =>
      carry_loop (text.set carry (if c = 57 then 48 else c + 1)) carry (decide (c = 57))
  | _, upward => some (text, upward)

def zero_fill (cut whole : ℕ) : Option Rounded :=
  if cut ≤ whole ∧ whole < text.length then
    some (.digits (text.take cut ++ List.replicate (whole - cut) 48))
  else none

def round_digits (precision : ℤ) : Option Rounded :=
  let whole := text.idxOf 46
  let cut : ℤ := whole + precision
  if cut < 0 then some .zero
  else
    (rounds_upward text cut.toNat).bind fun upward =>
      (carry_loop text cut.toNat upward).bind fun (text, upward) =>
        if upward then
          if text = [] then none else zero_fill (text.set 0 49) 1 (whole + 1)
        else zero_fill text cut.toNat whole

def jinja_float_round (value : Double) (precision : ℤ) : Option Rounded :=
  match value with
  | .finite _ magnitude _ =>
    if magnitude = 0 ∨ max_decimal_precision < precision then some .unchanged
    else if precision < min_decimal_precision ∨ precision < 0 ∧ magnitude < 1 then some .zero
    else
      let text := snprintf_fixed (if precision < 0 then mant_dig else precision.toNat) magnitude
      if float_token_capacity ≤ text.length then some .failed
      else if precision < 0 then round_digits text precision
      else some (.digits text)
  | _ => some .unchanged

def Digits : Prop := ∀ ch ∈ text, 48 ≤ ch ∧ ch ≤ 57

theorem digits_append {a b : List ℕ} : Digits (a ++ b) ↔ Digits a ∧ Digits b :=
  List.forall_mem_append

theorem value_append (a b : List ℕ) : value (a ++ b) = value a * 10 ^ b.length + value b := by
  rw [value, List.foldl_append, value_from]
  rfl

theorem value_replicate (n : ℕ) : value (List.replicate n 48) = 0 := by
  induction n with
  | zero => rfl
  | succ n ih => rw [List.replicate_succ, value_cons, ih, Nat.sub_self, Nat.zero_mul]

theorem digits_replicate (n : ℕ) : Digits (List.replicate n 48) := fun ch h => by
  rw [List.eq_of_mem_replicate h]
  decide

theorem places_digits (p n : ℕ) : Digits (places p n) := by
  induction p generalizing n with
  | zero => exact fun _ h => nomatch h
  | succ p ih =>
    refine digits_append.2 ⟨ih _, fun ch h => ?_⟩
    rw [List.mem_singleton.1 h]
    omega

theorem places_length (p n : ℕ) : (places p n).length = p := by
  induction p generalizing n with
  | zero => rfl
  | succ p ih => rw [places, List.length_append, ih, List.length_singleton]

theorem value_places (p n : ℕ) : value (places p n) = n % 10 ^ p := by
  induction p generalizing n with
  | zero => rw [pow_zero, Nat.mod_one]; rfl
  | succ p ih =>
    rw [places, value_append_singleton, ih, Nat.add_sub_cancel_left, pow_succ',
      Nat.mod_mul]
    omega

variable {q : ℚ}

/-- A number from one on has at most as many binary places as the text has decimal ones. -/
theorem scaled_exact (h : Representable q) (hq : 1 ≤ q) : ∃ n : ℕ, q * 10 ^ mant_dig = n := by
  obtain ⟨m, e, hm, -, -, rfl⟩ := h
  have he : -53 ≤ e := by
    by_contra hlow
    have hpow : (2 : ℚ) ^ e ≤ 2 ^ (-53 : ℤ) := zpow_le_zpow_right₀ (by norm_num) (by omega)
    have hmq : (m : ℚ) < 9007199254740992 := by exact_mod_cast hm
    have hsmall : (m : ℚ) * 2 ^ e ≤ m * 2 ^ (-53 : ℤ) :=
      mul_le_mul_of_nonneg_left hpow (Nat.cast_nonneg m)
    norm_num at hsmall
    linarith
  refine ⟨m * 2 ^ (e + 53).toNat * 5 ^ 53, ?_⟩
  have hsplit : (2 : ℚ) ^ e * 10 ^ 53 = 2 ^ (e + 53).toNat * 5 ^ 53 := by
    have hten : (10 : ℚ) ^ 53 = 2 ^ (53 : ℤ) * 5 ^ 53 := by norm_num
    rw [hten, ← mul_assoc, ← zpow_add₀ (by norm_num)]
    congr 1
    rw [← zpow_natCast, Int.toNat_of_nonneg (by omega)]
  rw [mant_dig, mul_assoc, hsplit]
  push_cast
  ring

/-- The text is the whole part, a point and 53 places, and stands for the number. -/
structure Printed (text : List ℕ) (q : ℚ) (whole places : List ℕ) : Prop where
  text_eq : text = whole ++ 46 :: places
  whole_digits : Digits whole
  places_digits : Digits places
  places_length : places.length = mant_dig
  whole_ne : whole ≠ []
  exact_value : q * 10 ^ mant_dig = value (whole ++ places)

theorem printed_of_snprintf (h : Representable q) (hq : 1 ≤ q) :
    ∃ whole places, Printed (snprintf_fixed mant_dig q) q whole places := by
  obtain ⟨n, hn⟩ := scaled_exact h hq
  refine ⟨numeral (n / 10 ^ mant_dig), places mant_dig (n % 10 ^ mant_dig), ?_,
    numeral_digits _, places_digits _ _, places_length _ _, numeral_ne_nil _, ?_⟩
  · rw [snprintf_fixed, hn, nearest_natCast]
    rfl
  · rw [hn, value_append, value_numeral, places_length, value_places, Nat.mod_mod,
      Nat.div_add_mod']

theorem carry_loop_done (carry : ℕ) : carry_loop text carry false = some (text, false) := by
  cases carry <;> rfl

variable {front : List ℕ}

/-- The digits before the cut go up by one, but for a one before all of them. -/
theorem carry_loop_up (hd : Digits front) (back : List ℕ) :
    ∃ front' upward, carry_loop (front ++ back) front.length true = some (front' ++ back, upward) ∧
      front'.length = front.length ∧ Digits front' ∧
      value front' + (if upward then 10 ^ front.length else 0) = value front + 1 := by
  induction front using List.reverseRecOn generalizing back with
  | nil => exact ⟨[], true, rfl, rfl, hd, rfl⟩
  | append_singleton front c ih =>
    obtain ⟨hfront, hc⟩ := digits_append.1 hd
    have hc := hc c List.mem_cons_self
    have hget : (front ++ [c] ++ back)[front.length]? = some c := by simp
    have hset : ∀ c', (front ++ [c] ++ back).set front.length c' = front ++ c' :: back := by
      intro c'
      simp
    rw [List.length_append, List.length_singleton, carry_loop, hget, Option.bind_some, hset]
    by_cases hnine : c = 57
    · obtain ⟨front', upward, hloop, hlen, hdigits, hvalue⟩ := ih hfront (48 :: back)
      refine ⟨front' ++ [48], upward, ?_, ?_, digits_append.2 ⟨hdigits, by simp [Digits]⟩, ?_⟩
      · rw [if_pos hnine, decide_eq_true hnine, hloop]
        simp
      · rw [List.length_append, List.length_singleton, hlen]
      · rw [value_append_singleton, value_append_singleton, hnine, pow_succ]
        split_ifs at hvalue ⊢ <;> omega
    · refine ⟨front ++ [c + 1], false, ?_, ?_, digits_append.2 ⟨hfront, ?_⟩, ?_⟩
      · rw [if_neg hnine, decide_eq_false hnine, carry_loop_done]
        simp
      · rw [List.length_append, List.length_singleton]
      · intro ch hch
        rw [List.mem_singleton.1 hch]
        omega
      · rw [value_append_singleton, value_append_singleton, if_neg (by simp)]
        omega

theorem nearest_split (p : ℕ) {r : ℚ} (h0 : 0 ≤ r) (h1 : r < 1) :
    nearest (p + r) =
      if r < 1 / 2 then p else if 1 / 2 < r then p + 1 else if p % 2 = 0 then p else p + 1 := by
  have hfloor : ⌊(p : ℚ) + r⌋₊ = p :=
    (Nat.floor_eq_iff (by positivity)).2 ⟨by linarith, by linarith⟩
  have hrest : (p : ℚ) + r - p = r := by ring
  simp only [nearest, hfloor, hrest]

theorem value_eq_zero {text : List ℕ} (hd : Digits text) :
    value text = 0 ↔ ∀ ch ∈ text, ch = 48 := by
  induction text with
  | nil => simp [value]
  | cons ch text ih =>
    obtain ⟨hch, htext⟩ := List.forall_mem_cons.1 hd
    have hpos : 0 < 10 ^ text.length := Nat.pow_pos (by decide)
    rw [value_cons, Nat.add_eq_zero_iff, ih htext, List.forall_mem_cons, Nat.mul_eq_zero]
    refine and_congr_left fun _ => ⟨fun h => ?_, fun h => .inl (by omega)⟩
    rcases h with h | h <;> omega

theorem nonzero_after_iff {low places : List ℕ} {d : ℕ} (hlow : Digits low)
    (hplaces : Digits places) : nonzero_after (front ++ d :: (low ++ 46 :: places)) front.length =
      decide (value (low ++ places) ≠ 0) := by
  have hdrop : (front ++ d :: (low ++ 46 :: places)).drop (front.length + 1) =
      low ++ 46 :: places := by
    rw [← List.drop_drop, List.drop_left]
    rfl
  rw [nonzero_after, hdrop, Bool.eq_iff_iff, decide_eq_true_iff, List.any_eq_true, ne_eq,
    value_eq_zero (digits_append.2 ⟨hlow, hplaces⟩), not_forall]
  constructor
  · rintro ⟨c, hc, hrange⟩
    have hrange := of_decide_eq_true hrange
    refine ⟨c, fun h => ?_⟩
    rcases List.mem_append.1 hc with hc | hc
    · have := h (List.mem_append_left _ hc)
      omega
    · rcases List.mem_cons.1 hc with hc | hc
      · omega
      · have := h (List.mem_append_right _ hc)
        omega
  · rintro ⟨c, hc⟩
    rw [Classical.not_imp] at hc
    obtain ⟨hc, hne⟩ := hc
    have hmem : c ∈ low ++ 46 :: places := by
      rcases List.mem_append.1 hc with hc | hc
      · exact List.mem_append_left _ hc
      · exact List.mem_append_right _ (List.mem_cons_of_mem _ hc)
    have hrange := (digits_append.2 ⟨hlow, hplaces⟩) c hc
    exact ⟨c, hmem, decide_eq_true (by omega)⟩

/-- The fraction that is cut off, the first digit of it standing apart. -/
def cut_off (d : ℕ) (tail : List ℕ) : ℚ := value (d :: tail) / 10 ^ (tail.length + 1)

section
variable {d : ℕ} {tail : List ℕ}

theorem cut_off_nonneg : 0 ≤ cut_off d tail := by
  rw [cut_off]
  positivity

theorem cut_off_lt (hd : 48 ≤ d ∧ d ≤ 57) (ht : Digits tail) : cut_off d tail < 1 := by
  have hlt := value_lt (List.forall_mem_cons.2 ⟨hd, ht⟩)
  rw [cut_off, div_lt_one (by positivity)]
  exact_mod_cast hlt

theorem cut_off_half (hd : 48 ≤ d ∧ d ≤ 57) (ht : Digits tail) :
    (cut_off d tail < 1 / 2 ↔ d < 53) ∧
      (1 / 2 < cut_off d tail ↔ 53 < d ∨ d = 53 ∧ value tail ≠ 0) := by
  have hlt := value_lt ht
  have hpos : (0 : ℚ) < 10 ^ (tail.length + 1) := by positivity
  have hlow : cut_off d tail < 1 / 2 ↔ 2 * value (d :: tail) < 10 ^ (tail.length + 1) := by
    rw [cut_off, div_lt_div_iff₀ hpos two_pos, one_mul, mul_comm]
    exact_mod_cast Iff.rfl
  have hhigh : 1 / 2 < cut_off d tail ↔ 10 ^ (tail.length + 1) < 2 * value (d :: tail) := by
    rw [cut_off, div_lt_div_iff₀ two_pos hpos, one_mul, mul_comm]
    exact_mod_cast Iff.rfl
  rw [hlow, hhigh, value_cons, pow_succ]
  generalize 10 ^ tail.length = t at hlt
  have hsteps : ∀ a b, a ≤ b → a * t ≤ b * t := fun a b h => Nat.mul_le_mul_right t h
  constructor
  · constructor
    · intro h
      by_contra hge
      have := hsteps 5 (d - 48) (by omega)
      omega
    · intro h
      have := hsteps (d - 48) 4 (by omega)
      omega
  · constructor
    · intro h
      by_contra hnot
      rw [not_or, not_and, not_not] at hnot
      rcases Nat.lt_or_ge d 53 with hl | hg
      · have := hsteps (d - 48) 4 (by omega)
        omega
      · obtain rfl : d = 53 := by omega
        omega
    · rintro (h | ⟨rfl, h⟩)
      · have := hsteps 6 (d - 48) (by omega)
        omega
      · omega

end

theorem rounds_upward_nearest {low places : List ℕ} {d : ℕ} (hfront : Digits front)
    (hd : 48 ≤ d ∧ d ≤ 57) (hlow : Digits low) (hplaces : Digits places) :
    rounds_upward (front ++ d :: (low ++ 46 :: places)) front.length =
      some (decide (nearest (value front + cut_off d (low ++ places)) = value front + 1)) := by
  have htail : Digits (low ++ places) := digits_append.2 ⟨hlow, hplaces⟩
  obtain ⟨hless, hmore⟩ := cut_off_half hd htail
  have hget : (front ++ d :: (low ++ 46 :: places))[front.length]? = some d := by simp
  rw [rounds_upward, hget, Option.bind_some,
    nearest_split _ cut_off_nonneg (cut_off_lt hd htail), nonzero_after_iff hlow hplaces]
  simp only [hless, hmore]
  by_cases hfive : d = 53
  · subst hfive
    have hodd : (if front.length ≠ 0 then
        (front ++ 53 :: (low ++ 46 :: places))[front.length - 1]?.map
          fun d => decide ((d - 48) % 2 ≠ 0) else some false) =
        some (decide (value front % 2 ≠ 0)) := by
      cases front using List.reverseRecOn with
      | nil => rfl
      | append_singleton front c =>
        rw [value_append_singleton]
        simp
        omega
    rw [if_pos rfl, hodd, Option.map_some]
    by_cases hz : value (low ++ places) = 0
    · by_cases hp : value front % 2 = 0 <;> simp [hz, hp]
    · simp [hz]
  · rw [if_neg hfive]
    rcases Nat.lt_or_ge d 53 with hl | hg
    · simp [hl, show ¬ 53 < d by omega]
    · simp [show 53 < d by omega, show ¬ d < 53 by omega]

/-- The number that the result stands for before the sign is put back. -/
def Rounded.Denotes : Rounded → ℕ → Prop
  | .zero, n => n = 0
  | .digits text, n => natural text = some n
  | _, _ => False

theorem denotes_of_value {text : List ℕ} {n : ℕ} (hne : text ≠ []) (hd : Digits text)
    (hv : value text = n) : (Rounded.digits text).Denotes n := by
  rw [Rounded.Denotes, natural, if_pos ⟨hne, hd⟩, hv]

theorem idxOf_point {whole places : List ℕ} (hw : Digits whole) :
    (whole ++ 46 :: places).idxOf 46 = whole.length := by
  have hnot : 46 ∉ whole := fun h => absurd (hw 46 h).1 (by decide)
  rw [List.idxOf_append_of_notMem hnot, List.idxOf_cons_self, Nat.add_zero]

theorem zero_fill_eq {front back : List ℕ} {whole : ℕ} (hc : front.length ≤ whole)
    (hw : whole < front.length + back.length) :
    zero_fill (front ++ back) front.length whole =
      some (.digits (front ++ List.replicate (whole - front.length) 48)) := by
  rw [zero_fill, List.length_append, if_pos ⟨hc, hw⟩, List.take_left]

/-- The digits before the cut, with `k` zeros, or one more digit when all of them were nines. -/
theorem carried {back : List ℕ} {k : ℕ} (hk : 0 < k) (hfront : Digits front)
    (hback : k + 1 < back.length) (upward : Bool) :
    ∃ r, ((carry_loop (front ++ back) front.length upward).bind fun (text, upward) =>
        if upward then
          if text = [] then none else zero_fill (text.set 0 49) 1 (front.length + k + 1)
        else zero_fill text front.length (front.length + k)) = some r ∧
      r.Denotes ((value front + if upward then 1 else 0) * 10 ^ k) := by
  have hkeep : ∀ front', front'.length = front.length → Digits front' →
      ∃ r, zero_fill (front' ++ back) front.length (front.length + k) = some r ∧
        r.Denotes (value front' * 10 ^ k) := by
    intro front' hlen hdigits
    refine ⟨_, hlen ▸ zero_fill_eq (Nat.le_add_right _ k) (by omega), denotes_of_value ?_
      (digits_append.2 ⟨hdigits, digits_replicate _⟩) ?_⟩
    · rw [Nat.add_sub_cancel_left]
      exact List.append_ne_nil_of_right_ne_nil _ (List.ne_nil_of_length_pos (by simpa using hk))
    · rw [value_append, value_replicate, List.length_replicate, Nat.add_sub_cancel_left,
        Nat.add_zero]
  cases upward with
  | false =>
    rw [carry_loop_done]
    exact hkeep front rfl hfront
  | true =>
    obtain ⟨front', upward', hloop, hlen, hdigits, hvalue⟩ := carry_loop_up hfront back
    rw [hloop, Option.bind_some, if_pos rfl, ← hvalue]
    cases upward' with
    | false => exact hkeep front' hlen hdigits
    | true =>
      obtain ⟨first, rest, hfirst⟩ : ∃ first rest, front' ++ back = first :: rest := by
        cases hnil : front' ++ back with
        | nil => simp [List.append_eq_nil_iff.1 hnil] at hback
        | cons first rest => exact ⟨first, rest, rfl⟩
      have hrest : rest.length + 1 = front.length + back.length := by
        rw [← hlen, ← List.length_append, hfirst, List.length_cons]
      have hfill := @zero_fill_eq [49] rest (front.length + k + 1) (by simp) (by simp; omega)
      dsimp only
      rw [if_pos rfl, hfirst, if_neg (List.cons_ne_nil _ _), List.set_cons_zero]
      refine ⟨_, hfill, denotes_of_value (by simp) (digits_append.2
        ⟨by simp [Digits], digits_replicate _⟩) ?_⟩
      -- every digit before the cut was a nine
      have hzero : value front' = 0 := by
        have hlt := value_lt hfront
        rw [if_pos rfl] at hvalue
        omega
      rw [value_append, value_replicate, List.length_replicate, hzero, if_pos rfl]
      simp [value, pow_add]

theorem round_digits_nearest {text whole places : List ℕ} (hp : Printed text q whole places) {k : ℕ}
    (hk : 0 < k) :
    ∃ r, round_digits text (-k) = some r ∧ r.Denotes (nearest (q / 10 ^ k) * 10 ^ k) := by
  obtain ⟨rfl, hwhole, hplaces, hlen, -, hexact⟩ := hp
  have hplace : 0 < mant_dig := by decide
  -- the number of places is only known to be positive from here on
  generalize mant_dig = p at hlen hexact hplace
  have hq : q = value (whole ++ places) / 10 ^ p := by
    rw [← hexact]
    field_simp
  rw [round_digits, idxOf_point hwhole]
  rcases Nat.lt_or_ge whole.length k with hshort | hlong
  · refine ⟨.zero, if_pos (by omega), ?_⟩
    have hlt : value (whole ++ places) < 10 ^ (whole.length + p) := by
      have := value_lt (digits_append.2 ⟨hwhole, hplaces⟩)
      rwa [List.length_append, hlen] at this
    have hsmall : q / 10 ^ k < 1 / 2 := by
      rw [div_lt_iff₀ (by positivity), hq, div_lt_iff₀ (by positivity)]
      have hbound : ((value (whole ++ places) : ℕ) : ℚ) < 10 ^ (whole.length + p) := by
        exact_mod_cast hlt
      have hpow : (10 : ℚ) ^ (whole.length + 1) ≤ 10 ^ k := pow_le_pow_right₀ (by norm_num) hshort
      have hpos : (0 : ℚ) < 10 ^ p := by positivity
      have hfirst : (0 : ℚ) < 10 ^ whole.length := by positivity
      rw [pow_succ] at hpow
      rw [pow_add] at hbound
      have hscaled : (10 : ℚ) ^ whole.length * 10 ^ p ≤ 1 / 2 * 10 ^ k * 10 ^ p :=
        mul_le_mul_of_nonneg_right (by linarith) hpos.le
      linarith
    have hnonneg : 0 ≤ q / 10 ^ k := by
      rw [hq]
      positivity
    have hnearest := nearest_split 0 hnonneg (by linarith)
    rw [if_pos hsmall, Nat.cast_zero, zero_add] at hnearest
    rw [Rounded.Denotes, hnearest, Nat.zero_mul]
  · obtain ⟨front, back, rfl, hfront⟩ : ∃ front back, whole = front ++ back ∧
        front.length = whole.length - k :=
      ⟨whole.take (whole.length - k), whole.drop (whole.length - k),
        (List.take_append_drop _ _).symm, by rw [List.length_take]; omega⟩
    rw [List.length_append] at hfront hlong
    obtain ⟨d, low, rfl⟩ : ∃ d low, back = d :: low := List.exists_cons_of_length_pos (by omega)
    rw [List.length_cons] at hfront hlong
    obtain ⟨hdfront, hdback⟩ := digits_append.1 hwhole
    obtain ⟨hd, hdlow⟩ := List.forall_mem_cons.1 hdback
    have hshape : front ++ d :: low ++ 46 :: places = front ++ d :: (low ++ 46 :: places) := by
      simp
    have hcut : (((front ++ d :: low).length : ℤ) + -k) = (front.length : ℤ) := by
      rw [List.length_append, List.length_cons]
      omega
    have hquotient : q / 10 ^ k = value front + cut_off d (low ++ places) := by
      have hexp : (low ++ places).length + 1 = p + k := by
        rw [List.length_append, hlen]
        omega
      rw [hq, cut_off, hexp, List.append_assoc, List.cons_append, value_append, List.length_cons,
        hexp, div_div, ← pow_add]
      push_cast
      rw [add_div, mul_div_assoc, div_self (by positivity), mul_one]
    rw [hcut, if_neg (by omega), Int.toNat_natCast, hshape,
      rounds_upward_nearest hdfront hd hdlow hplaces, Option.bind_some, ← hquotient]
    have hwholelen : (front ++ d :: low).length = front.length + k := by
      rw [List.length_append, List.length_cons]
      omega
    rw [hwholelen]
    obtain ⟨r, hr, hdenotes⟩ := carried hk hdfront
      (show k + 1 < (d :: (low ++ 46 :: places)).length by
        rw [List.length_cons, List.length_append, List.length_cons]; omega)
      (decide (nearest (q / 10 ^ k) = value front + 1))
    refine ⟨r, hr, ?_⟩
    have heither : nearest (q / 10 ^ k) = value front ∨
        nearest (q / 10 ^ k) = value front + 1 := by
      rw [hquotient, nearest_split _ cut_off_nonneg
        (cut_off_lt hd (digits_append.2 ⟨hdlow, hplaces⟩))]
      split_ifs <;> simp
    rcases heither with he | he
    · rwa [if_neg (by simp [he]), Nat.add_zero, ← he] at hdenotes
    · rwa [if_pos (by simp [he]), ← he] at hdenotes

theorem snprintf_short (h : Representable q) (hq : 1 ≤ q) :
    (snprintf_fixed mant_dig q).length < float_token_capacity := by
  obtain ⟨n, hn⟩ := scaled_exact h hq
  have hbound : n / 10 ^ mant_dig < 10 ^ (511 + 1) := by
    obtain ⟨m, e, hm, -, he, rfl⟩ := h
    have hpow : (2 : ℚ) ^ e ≤ 2 ^ (971 : ℤ) := zpow_le_zpow_right₀ (by norm_num) he
    have hmq : (m : ℚ) < 2 ^ 53 := by exact_mod_cast hm
    have hsixteen : (2 : ℚ) ^ 53 * 2 ^ (971 : ℤ) = 16 ^ 256 := by
      rw [show (2 : ℚ) ^ (971 : ℤ) = 2 ^ 971 from zpow_natCast 2 971,
        show (16 : ℚ) = 2 ^ 4 by norm_num, ← pow_add, ← pow_mul]
    have hlt : (m : ℚ) * 2 ^ e < 10 ^ (511 + 1) := by
      calc (m : ℚ) * 2 ^ e ≤ m * 2 ^ (971 : ℤ) :=
            mul_le_mul_of_nonneg_left hpow (Nat.cast_nonneg m)
        _ < 2 ^ 53 * 2 ^ (971 : ℤ) := mul_lt_mul_of_pos_right hmq (by positivity)
        _ = 16 ^ 256 := hsixteen
        _ < 100 ^ 256 := pow_lt_pow_left₀ (by norm_num) (by norm_num) (by norm_num)
        _ = 10 ^ (511 + 1) := by rw [show (100 : ℚ) = 10 ^ 2 by norm_num, ← pow_mul]
    have hscaled : (n : ℚ) < 10 ^ (511 + 1) * 10 ^ mant_dig := by
      rw [← hn]
      exact mul_lt_mul_of_pos_right hlt (by positivity)
    exact Nat.div_lt_of_lt_mul (by rw [Nat.mul_comm]; exact_mod_cast hscaled)
  have hwhole := numeral_length hbound
  rw [snprintf_fixed, hn, nearest_natCast, if_neg (by decide), List.length_append,
    List.length_cons, places_length]
  simp only [mant_dig, float_token_capacity] at *
  omega

/-- Rounding to tens, hundreds and so on takes the nearest multiple, the even one of two. -/
theorem float_round_half_even (negative : Bool) {q : ℚ} (h : Representable q) (hq : 1 ≤ q)
    {precision : ℤ} (hlow : -308 ≤ precision) (hhigh : precision ≤ -1) :
    ∃ r, jinja_float_round (.finite negative q h) precision = some r ∧
      r.Denotes (nearest (q / 10 ^ precision.natAbs) * 10 ^ precision.natAbs) := by
  obtain ⟨k, rfl⟩ : ∃ k : ℕ, precision = -k := ⟨precision.natAbs, by omega⟩
  rw [Int.natAbs_neg, Int.natAbs_natCast]
  obtain ⟨whole, places, hprinted⟩ := printed_of_snprintf h hq
  have hpos : q ≠ 0 := by
    rintro rfl
    norm_num at hq
  have hround := round_digits_nearest hprinted (show 0 < k by omega)
  have hneg : -(k : ℤ) < 0 := by omega
  have hlarge : ¬ (q = 0 ∨ max_decimal_precision < -(k : ℤ)) := by
    rw [max_decimal_precision]
    exact fun h => h.elim hpos (by omega)
  have hsmall : ¬ (-(k : ℤ) < min_decimal_precision ∨ -(k : ℤ) < 0 ∧ q < 1) := by
    rw [min_decimal_precision]
    exact fun h => h.elim (by omega) fun h => absurd h.2 (not_lt.2 hq)
  rw [jinja_float_round, if_neg hlarge, if_neg hsmall]
  rwa [if_pos hneg, if_neg (not_le.2 (snprintf_short h hq)), if_pos hneg]

theorem float_round_half_even_tie :
    ∃ r, jinja_float_round (.finite true 25 ⟨25, 0, by decide, by decide, by decide, by norm_num⟩)
        (-1) = some r ∧ r.Denotes (nearest (25 / 10 ^ 1) * 10 ^ 1) :=
  float_round_half_even true _ (by norm_num) (by decide) (by decide)

end SaltsUtils.Jinja
