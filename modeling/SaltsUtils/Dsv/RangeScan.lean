import SaltsUtils.Dsv.Filter
import SaltsUtils.Library.Outcome
import Mathlib.Data.Prod.Lex
import Mathlib.Order.WithBot

/-!
# What a cursor visits

The ranges of `dsv_index_seek_many` are keyed intervals: sorted by their texts
and starts they are coalesced, each is found in the entries by bisection, and
the cursor goes over the entries of all of them in their order.
-/

set_option autoImplicit false

namespace SaltsUtils.Dsv

open SaltsUtils.Csv (Bytes)

def textKey (text : Bytes) : List ℕ := text.map UInt8.toNat

theorem textKey_inj {l r : Bytes} : textKey l = textKey r ↔ l = r := by
  unfold textKey
  constructor
  · exact fun h => List.map_injective_iff.mpr (fun a b => UInt8.toNat_inj.mp) h
  · exact congrArg _

theorem compareText_eq (l r : Bytes) : compareText l r =
    if textKey l < textKey r then .lt else if textKey r < textKey l then .gt else .eq := by
  induction l generalizing r with
  | nil =>
    cases r with
    | nil => rfl
    | cons b r => rfl
  | cons a l ih =>
    cases r with
    | nil => rfl
    | cons b r =>
      have hcons : compareText (a::l) (b::r) =
          if a < b then .lt else if b < a then .gt else compareText l r := by
        unfold compareText
        rw [memcmp]
        split_ifs <;> simp_all [Ordering.then]
      rw [hcons, ih]
      unfold textKey
      simp only [List.map_cons, List.cons_lt_cons_iff, UInt8.lt_iff_toNat_lt]
      clear hcons ih
      split_ifs <;> grind

theorem compareText_then (l r : Bytes) (o : Ordering) : (compareText l r).then o ≠ .gt ↔
    textKey l < textKey r ∨ (textKey l = textKey r ∧ o ≠ .gt) := by
  rw [compareText_eq]
  split_ifs with h₁ h₂
  · simp [h₁]
  · simp [h₁, ne_of_gt h₂]
  · simp [le_antisymm (not_lt.mp h₂) (not_lt.mp h₁)]

section Order
variable {α : Type} [LinearOrder α]

/-- A number, with a NaN below all others. -/
def Double.value : Double α → WithBot α
  | .nan => ⊥
  | .num x => x

def DsvEntry.key (e : DsvEntry α) : List ℕ ×ₗ WithBot α ×ₗ ℕ :=
  toLex (textKey e.text_key, toLex (e.number_key.value, e.row_offset))

variable {β : Type}

theorem Double.exists_of_ne_nan {x : Double β} (h : x ≠ .nan) : ∃ v, x = .num v := by
  cases x with
  | nan => exact absurd rfl h
  | num v => exact ⟨v, rfl⟩

variable {a b : DsvEntry α}

theorem entry_compare_le (ha : a.number_key ≠ .nan) (hb : b.number_key ≠ .nan) :
    dsv_index_entry_compare a b ≠ .gt ↔ a.key ≤ b.key := by
  obtain ⟨x, hx⟩ := Double.exists_of_ne_nan ha
  obtain ⟨y, hy⟩ := Double.exists_of_ne_nan hb
  simp only [dsv_index_entry_compare, compareText_then, DsvEntry.key, Prod.Lex.le_iff,
    ofLex_toLex, hx, hy, Double.value, WithBot.coe_lt_coe, WithBot.coe_inj, Double.same_num,
    Double.lt_num, decide_eq_true_eq]
  refine or_congr Iff.rfl (and_congr_right fun _ => ?_)
  split_ifs with h₁ h₂ h₃ h₄
  · simp [h₁, h₂]
  · simp [h₁, le_of_lt h₃]
  · simp [h₁, show b.row_offset < a.row_offset by omega]
  · simp [h₄]
  · simp [h₁, h₄]

structure DsvRange.Proper (r : DsvRange α) : Prop where
  lower : r.has_lower = true → r.lower_number ≠ .nan
  upper : r.has_upper = true → r.upper_number ≠ .nan

def bound {β : Type} (has inclusive : Bool) : Double β → Option (β × Bool)
  | .nan => none
  | .num x => if has then some (x, inclusive) else none

@[simp]
theorem bound_false (inclusive : Bool) (x : Double β) : bound false inclusive x = none := by
  cases x <;> rfl

@[simp]
theorem bound_num (inclusive : Bool) (x : β) :
    bound true inclusive (.num x) = some (x, inclusive) := rfl

def DsvRange.interval (r : DsvRange α) : Interval α where
  lower := bound r.has_lower r.lower_inclusive r.lower_number
  upper := bound r.has_upper r.upper_inclusive r.upper_number

def DsvRange.keyed (r : DsvRange α) : List ℕ × Interval α := (textKey r.text, r.interval)

def DsvRange.startKey (r : DsvRange α) : List ℕ ×ₗ WithBot α ×ₗ Bool :=
  toLex (textKey r.text,
    toLex (if r.has_lower then r.lower_number.value else ⊥, !r.lower_inclusive))

variable {r s : DsvRange α}

theorem range_compare_le (hr : r.Proper) (hs : s.Proper) :
    dsv_index_range_compare r s ≠ .gt ↔ r.startKey ≤ s.startKey := by
  have hbool : ∀ a b : Bool, (if a ≠ b then if a then Ordering.lt else .gt else .eq) ≠ .gt ↔
      (!a) ≤ (!b) := by decide
  simp only [dsv_index_range_compare, compareText_then, DsvRange.startKey,
    Prod.Lex.le_iff, ofLex_toLex]
  refine or_congr Iff.rfl (and_congr_right fun _ => ?_)
  cases hl : r.has_lower with
  | false =>
    cases hl' : s.has_lower with
    | false =>
      simp only [ne_eq, not_true_eq_false, if_false, Bool.false_eq_true, false_and, lt_self_iff_false,
        false_or, true_and]
      exact hbool _ _
    | true =>
      obtain ⟨w, hw⟩ := Double.exists_of_ne_nan (hs.lower hl')
      simp [hw, Double.value]
  | true =>
    obtain ⟨v, hv⟩ := Double.exists_of_ne_nan (hr.lower hl)
    cases hl' : s.has_lower with
    | false => simp [hv, Double.value]
    | true =>
      obtain ⟨w, hw⟩ := Double.exists_of_ne_nan (hs.lower hl')
      simp only [hv, hw, ne_eq, not_true_eq_false, if_false, true_and, Double.same_num,
        Bool.not_eq_true', decide_eq_false_iff_not, Double.lt_num, decide_eq_true_eq, if_true,
        Double.value, WithBot.coe_lt_coe, WithBot.coe_inj]
      by_cases hvw : v = w
      · simp only [hvw, not_true_eq_false, if_false, lt_self_iff_false, false_or, true_and]
        exact hbool _ _
      · rw [if_pos hvw]
        split_ifs with h <;> simp [h, hvw]

/-- What `qsort` asks of its comparison: it is a total preorder on the elements. -/
structure Consistent {β : Type} (compare : β → β → Ordering) (l : List β) : Prop where
  total : ∀ a ∈ l, ∀ b ∈ l, compare a b ≠ .gt ∨ compare b a ≠ .gt
  trans : ∀ a ∈ l, ∀ b ∈ l, ∀ c ∈ l, compare a b ≠ .gt → compare b c ≠ .gt → compare a c ≠ .gt

/-- What `qsort` promises: the same elements, in ascending order. -/
def SortsWith {β : Type} (qsort : List β → List β) (compare : β → β → Ordering) (l : List β) : Prop :=
  Consistent compare l → (qsort l).Perm l ∧ (qsort l).Pairwise fun a b => compare a b ≠ .gt

theorem range_compare_consistent {l : List (DsvRange α)} (hl : ∀ r ∈ l, r.Proper) :
    Consistent dsv_index_range_compare l where
  total a ha b hb := by
    rw [range_compare_le (hl a ha) (hl b hb), range_compare_le (hl b hb) (hl a ha)]
    exact le_total _ _
  trans a ha b hb c hc := by
    rw [range_compare_le (hl a ha) (hl b hb), range_compare_le (hl b hb) (hl c hc),
      range_compare_le (hl a ha) (hl c hc)]
    exact le_trans

theorem keyLe_of_compare (hr : r.Proper) (hs : s.Proper) (h : dsv_index_range_compare r s ≠ .gt) :
    KeyLe r.keyed s.keyed := by
  rw [range_compare_le hr hs] at h
  simp only [DsvRange.startKey, Prod.Lex.le_iff, ofLex_toLex] at h
  refine h.imp id fun h => ⟨h.1, ?_⟩
  have h := h.2
  unfold Interval.StartLe DsvRange.keyed DsvRange.interval
  cases hl : r.has_lower with
  | false =>
    cases r.lower_number <;> simp [bound]
  | true =>
    obtain ⟨v, hv⟩ := Double.exists_of_ne_nan (hr.lower hl)
    cases hl' : s.has_lower with
    | false => simp [hl, hl', hv, Double.value] at h
    | true =>
      obtain ⟨w, hw⟩ := Double.exists_of_ne_nan (hs.lower hl')
      simp only [hl, hl', hv, hw, if_true, Double.value, WithBot.coe_lt_coe, WithBot.coe_inj] at h
      simp only [hv, hw, bound, if_true]
      refine h.imp id fun h => ⟨h.1, ?_⟩
      have := h.2
      revert this
      cases r.lower_inclusive <;> cases s.lower_inclusive <;> decide

theorem overlap_iff (hr : r.Proper) (hs : s.Proper) : dsv_index_ranges_overlap r s = true ↔
      r.keyed.1 = s.keyed.1 ∧ r.keyed.2.Touches s.keyed.2 := by
  unfold dsv_index_ranges_overlap Interval.Touches DsvRange.keyed DsvRange.interval
  simp only [textKey_inj]
  by_cases ht : r.text = s.text
  · simp only [ht, ne_eq, not_true_eq_false, if_false, true_and]
    cases hu : r.has_upper with
    | false => cases r.upper_number <;> simp [bound]
    | true =>
      obtain ⟨v, hv⟩ := Double.exists_of_ne_nan (hr.upper hu)
      cases hl : s.has_lower with
      | false => cases s.lower_number <;> simp [hv, bound]
      | true =>
        obtain ⟨w, hw⟩ := Double.exists_of_ne_nan (hs.lower hl)
        by_cases hwv : w < v
        · simp [hv, hw, bound, hwv]
        · simp [hv, hw, bound, hwv]
  · simp [ht]

theorem merge_range_spec (hr : r.Proper) (hs : s.Proper) : (dsv_index_merge_range r s).Proper ∧
      (dsv_index_merge_range r s).keyed = (r.keyed.1, r.keyed.2.hull s.keyed.2) := by
  unfold dsv_index_merge_range
  cases hu : r.has_upper with
  | false =>
    refine ⟨hr, ?_⟩
    simp [DsvRange.keyed, DsvRange.interval, Interval.hull, hu]
  | true =>
    obtain ⟨v, hv⟩ := Double.exists_of_ne_nan (hr.upper hu)
    cases hu' : s.has_upper with
    | false =>
      refine ⟨⟨hr.lower, by simp⟩, ?_⟩
      simp [DsvRange.keyed, DsvRange.interval, Interval.hull, hu, hu', hv]
    | true =>
      obtain ⟨w, hw⟩ := Double.exists_of_ne_nan (hs.upper hu')
      simp only [hv, hw, Double.lt_num, Double.same_num, Bool.not_true, Bool.false_or, Bool.true_and,
        decide_eq_true_eq, Bool.false_eq_true, if_false]
      rcases lt_trichotomy v w with h | h | h
      · rw [if_neg (not_lt_of_gt h), if_pos h]
        refine ⟨⟨hr.lower, fun _ => by simp⟩, ?_⟩
        simp [DsvRange.keyed, DsvRange.interval, Interval.hull, hu, hu', hv, hw, h, not_lt_of_gt h]
      · subst h
        rw [if_neg (lt_irrefl _), if_neg (lt_irrefl _), if_pos rfl]
        refine ⟨⟨hr.lower, fun _ => by simp⟩, ?_⟩
        simp [DsvRange.keyed, DsvRange.interval, Interval.hull, hu, hu', hv, hw]
      · rw [if_pos h]
        refine ⟨hr, ?_⟩
        simp [DsvRange.keyed, DsvRange.interval, Interval.hull, hu, hu', hv, hw, h]

theorem mergeRanges_keyed (rest : List (DsvRange α)) : ∀ last : DsvRange α, last.Proper →
    (∀ r ∈ rest, r.Proper) →
    (∀ r ∈ mergeRanges last rest, r.Proper) ∧
      (mergeRanges last rest).map DsvRange.keyed =
        coalesce last.keyed (rest.map DsvRange.keyed) := by
  induction rest with
  | nil =>
    intro last hlast _
    exact ⟨fun r hr => by cases List.mem_singleton.mp hr; exact hlast, rfl⟩
  | cons r rest ih =>
    intro last hlast hrest
    have hr := hrest r (by simp)
    have hrest' : ∀ s ∈ rest, s.Proper := fun s hs => hrest s (by simp [hs])
    rw [mergeRanges, List.map_cons, coalesce]
    by_cases ho : dsv_index_ranges_overlap last r = true
    · obtain ⟨h₁, h₂⟩ := merge_range_spec hlast hr
      rw [if_pos ho, if_pos ((overlap_iff hlast hr).mp ho), ← h₂]
      exact ih _ h₁ hrest'
    · rw [if_neg ho, if_neg fun h => ho ((overlap_iff hlast hr).mpr h)]
      obtain ⟨h₁, h₂⟩ := ih r hr hrest'
      refine ⟨?_, by rw [List.map_cons, h₂]⟩
      intro s hs
      rcases List.mem_cons.mp hs with rfl | hs
      · exact hlast
      · exact h₁ s hs

def DsvRange.covers (r : DsvRange α) (e : DsvEntry α) : Bool :=
  e.text_key = r.text && !r.belowLower e && !r.aboveUpper e

variable {e : DsvEntry α} {x : α}

theorem covers_iff (hr : r.Proper) (hx : e.number_key = .num x) :
    r.covers e = true ↔ Holds r.keyed (textKey e.text_key) x := by
  unfold DsvRange.covers Holds DsvRange.keyed Interval.Contains
  rw [Bool.and_eq_true, Bool.and_eq_true, decide_eq_true_eq, and_assoc, textKey_inj, eq_comm]
  refine and_congr_right fun _ => and_congr ?_ ?_
  · unfold DsvRange.belowLower Interval.AboveLower DsvRange.interval
    cases hl : r.has_lower with
    | false => simp
    | true =>
      obtain ⟨v, hv⟩ := Double.exists_of_ne_nan (hr.lower hl)
      cases r.lower_inclusive <;> simp [hv, hx] <;> grind
  · unfold DsvRange.aboveUpper Interval.BelowUpper DsvRange.interval
    cases hu : r.has_upper with
    | false => simp
    | true =>
      obtain ⟨v, hv⟩ := Double.exists_of_ne_nan (hr.upper hu)
      cases r.upper_inclusive <;> simp [hv, hx] <;> grind

structure Ordered (entries : List (DsvEntry α)) : Prop where
  numbers : ∀ e ∈ entries, e.number_key ≠ .nan
  sorted : entries.Pairwise fun a b => a.key ≤ b.key

variable {entries : List (DsvEntry α)}

theorem Ordered.tail (h : Ordered (e::entries)) : Ordered entries :=
  ⟨fun a ha => h.numbers a (by simp [ha]), (List.pairwise_cons.mp h.sorted).2⟩

theorem validate_ordered {n : ℕ} (entries : List (DsvEntry α)) : ∀ previous : Option (DsvEntry α),
    (∀ e ∈ entries, e.number_key ≠ .nan) → (∀ p ∈ previous, p.number_key ≠ .nan) →
    dsv_index_validate_entries n previous entries = .ok () →
    Ordered entries ∧ ∀ p ∈ previous, ∀ e ∈ entries, p.key ≤ e.key := by
  induction entries with
  | nil =>
    intro previous hn _ _
    exact ⟨⟨hn, List.Pairwise.nil⟩, fun _ _ _ h => by cases h⟩
  | cons e entries ih =>
    intro previous hn hp h
    rw [dsv_index_validate_entries, guard_eq_ok, guard_eq_ok] at h
    obtain ⟨-, hprevious, h⟩ := h
    have he := hn e (by simp)
    obtain ⟨h₁, h₂⟩ := ih (some e) (fun a ha => hn a (by simp [ha])) (by simpa using he) h
    refine ⟨⟨hn, List.pairwise_cons.mpr ⟨fun a ha => h₂ e rfl a ha, h₁.sorted⟩⟩, ?_⟩
    intro p hpp a ha
    have hle : p.key ≤ e.key :=
      (entry_compare_le (hp p hpp) he).mp fun hgt => hprevious ⟨p, hpp, hgt⟩
    rcases List.mem_cons.mp ha with rfl | ha
    · exact hle
    · exact le_trans hle (h₂ e rfl a ha)

variable {y : α}

theorem key_le_cases (hx : a.number_key = .num x) (hy : b.number_key = .num y) (h : a.key ≤ b.key) :
    textKey a.text_key < textKey b.text_key ∨ (a.text_key = b.text_key ∧ x ≤ y) := by
  simp only [DsvEntry.key, Prod.Lex.le_iff, ofLex_toLex, hx, hy, Double.value, WithBot.coe_lt_coe,
    WithBot.coe_inj, textKey_inj] at h
  exact h.imp id fun h => ⟨h.1, h.2.elim le_of_lt fun h => le_of_eq h.1⟩

theorem before_iff (r : DsvRange α) (e : DsvEntry α) : r.before e = true ↔
    textKey e.text_key < textKey r.text ∨ (e.text_key = r.text ∧ r.belowLower e = true) := by
  unfold DsvRange.before
  rw [compareText_eq]
  split_ifs with h₁ h₂
  · simp [h₁]
  · have : e.text_key ≠ r.text := fun h => lt_irrefl _ (h ▸ h₂)
    simp [h₁, this]
  · have : e.text_key = r.text := textKey_inj.mp (le_antisymm (not_lt.mp h₂) (not_lt.mp h₁))
    simp [this]

theorem belowLower_anti (hr : r.Proper) (hx : a.number_key = .num x) (hy : b.number_key = .num y)
    (hxy : x ≤ y) (h : r.belowLower b = true) : r.belowLower a = true := by
  unfold DsvRange.belowLower at h ⊢
  rw [Bool.and_eq_true] at h ⊢
  obtain ⟨v, hv⟩ := Double.exists_of_ne_nan (hr.lower h.1)
  simp only [hx, hy, hv, Double.lt_num, Double.same_num, Bool.or_eq_true, Bool.and_eq_true,
    decide_eq_true_eq] at h ⊢
  grind

theorem aboveUpper_mono (hr : r.Proper) (hx : a.number_key = .num x) (hy : b.number_key = .num y)
    (hxy : x ≤ y) (h : r.aboveUpper a = true) : r.aboveUpper b = true := by
  unfold DsvRange.aboveUpper at h ⊢
  rw [Bool.and_eq_true] at h ⊢
  obtain ⟨v, hv⟩ := Double.exists_of_ne_nan (hr.upper h.1)
  simp only [hx, hy, hv, Double.lt_num, Double.same_num, Bool.or_eq_true, Bool.and_eq_true,
    decide_eq_true_eq] at h ⊢
  grind

theorem before_anti (hr : r.Proper) (ha : a.number_key ≠ .nan) (hb : b.number_key ≠ .nan)
    (hab : a.key ≤ b.key) (h : r.before b = true) : r.before a = true := by
  obtain ⟨x, hx⟩ := Double.exists_of_ne_nan ha
  obtain ⟨y, hy⟩ := Double.exists_of_ne_nan hb
  rw [before_iff] at h ⊢
  rcases key_le_cases hx hy hab with hlt | ⟨heq, hle⟩
  · rcases h with h | h
    · exact Or.inl (lt_trans hlt h)
    · exact Or.inl (h.1 ▸ hlt)
  · rw [heq]
    exact h.imp id fun h => ⟨h.1, belowLower_anti hr hx hy hle h.2⟩

def DsvRange.scan (r : DsvRange α) : List (DsvEntry α) → List (DsvEntry α)
  | [] => []
  | e::rest =>
    if compareText e.text_key r.text ≠ .eq then []
    else if r.belowLower e then r.scan rest
    else if r.aboveUpper e then []
    else e::r.scan rest

theorem scan_position (r : DsvRange α) (k : ℕ) (entries : List (DsvEntry α)) :
    ({ r with position := k } : DsvRange α).scan entries = r.scan entries := by
  induction entries with
  | nil => rfl
  | cons e entries ih =>
    rw [DsvRange.scan, DsvRange.scan, ih]
    rfl

theorem compareText_eq_iff (l r : Bytes) : compareText l r = .eq ↔ l = r := by
  rw [compareText_eq, ← textKey_inj]
  split_ifs with h₁ h₂
  · simp [ne_of_lt h₁]
  · simp [ne_of_gt h₂]
  · simp [le_antisymm (not_lt.mp h₂) (not_lt.mp h₁)]

theorem scan_eq_filter (hr : r.Proper) (h : Ordered entries)
    (hb : ∀ e ∈ entries, r.before e = false) : r.scan entries = entries.filter r.covers := by
  induction entries with
  | nil => rfl
  | cons e entries ih =>
    have ih := ih h.tail fun a ha => hb a (by simp [ha])
    obtain ⟨x, hx⟩ := Double.exists_of_ne_nan (h.numbers e (by simp))
    have hlater : ∀ a ∈ entries, ∃ y, a.number_key = .num y ∧
        (textKey e.text_key < textKey a.text_key ∨ (e.text_key = a.text_key ∧ x ≤ y)) := by
      intro a ha
      obtain ⟨y, hy⟩ := Double.exists_of_ne_nan (h.numbers a (by simp [ha]))
      exact ⟨y, hy, key_le_cases hx hy ((List.pairwise_cons.mp h.sorted).1 a ha)⟩
    have hnone : (∀ a ∈ entries, r.covers a = false) → r.covers e = false →
        [] = (e::entries).filter r.covers := by
      intro h₁ h₂
      refine (List.filter_eq_nil_iff.mpr fun a ha => ?_).symm
      rcases List.mem_cons.mp ha with rfl | ha
      · simp [h₂]
      · simp [h₁ a ha]
    have hbe := hb e (by simp)
    rw [DsvRange.scan]
    by_cases htext : e.text_key = r.text
    · have hlow : r.belowLower e = false := by
        by_contra hlow
        have := (before_iff r e).mpr (Or.inr ⟨htext, by simpa using hlow⟩)
        rw [hbe] at this
        cases this
      rw [if_neg (by simp [compareText_eq_iff, htext]), if_neg (by simp [hlow])]
      by_cases hup : r.aboveUpper e = true
      · rw [if_pos hup]
        refine hnone (fun a ha => ?_) (by simp [DsvRange.covers, hup])
        obtain ⟨y, hy, hlt | ⟨-, hle⟩⟩ := hlater a ha
        · have : a.text_key ≠ r.text := fun h => lt_irrefl _ (by rwa [htext, ← h] at hlt)
          simp [DsvRange.covers, this]
        · simp [DsvRange.covers, aboveUpper_mono hr hx hy hle hup]
      · rw [if_neg hup, ih, List.filter_cons_of_pos (by simp [DsvRange.covers, htext, hlow, hup])]
    · rw [if_pos (by simpa [compareText_eq_iff] using htext)]
      have hgt : textKey r.text < textKey e.text_key := by
        rcases lt_trichotomy (textKey e.text_key) (textKey r.text) with h | h | h
        · have := (before_iff r e).mpr (Or.inl h)
          rw [hbe] at this
          cases this
        · exact absurd (textKey_inj.mp h) htext
        · exact h
      refine hnone (fun a ha => ?_) (by simp [DsvRange.covers, htext])
      have : a.text_key ≠ r.text := by
        intro h
        obtain ⟨y, -, hlt | ⟨heq, -⟩⟩ := hlater a ha
        · rw [h] at hlt
          exact lt_asymm hgt hlt
        · exact htext (heq.trans h)
      simp [DsvRange.covers, this]

theorem covers_of_before (h : r.before e = true) : r.covers e = false := by
  rcases (before_iff r e).mp h with h | h
  · have : e.text_key ≠ r.text := fun heq => lt_irrefl _ (heq ▸ h)
    simp [DsvRange.covers, this]
  · simp [DsvRange.covers, h.2]

theorem position_scan (hr : r.Proper) (h : Ordered entries) :
    r.scan (entries.drop (dsv_index_range_position entries r).position) =
      entries.filter r.covers := by
  have hmono : ∀ i j, i ≤ j → j < entries.length → (entries[j]?).any r.before = true →
      (entries[i]?).any r.before = true := by
    intro i j hij hj hb
    rw [List.getElem?_eq_getElem hj, Option.any_some] at hb
    rw [List.getElem?_eq_getElem (by omega), Option.any_some]
    rcases Nat.lt_or_eq_of_le hij with hlt | rfl
    · exact before_anti hr (h.numbers _ (List.getElem_mem _)) (h.numbers _ (List.getElem_mem _))
        (List.pairwise_iff_getElem.mp h.sorted i j _ hj hlt) hb
    · exact hb
  obtain ⟨h₁, h₂⟩ := bisect_spec (fun i => (entries[i]?).any r.before) entries.length hmono
    entries.length 0 entries.length (by omega) (by omega) (Nat.le_refl _) (fun i hi => by omega)
    (fun i hi hi' => by omega)
  generalize hk : (dsv_index_range_position entries r).position = k
  rw [← show (dsv_index_range_position entries r).position = bisect _ _ _ _ from rfl, hk] at h₁ h₂
  have htake : (entries.take k).filter r.covers = [] := by
    refine List.filter_eq_nil_iff.mpr fun e he => ?_
    obtain ⟨i, hi, rfl⟩ := List.getElem_of_mem he
    have := h₁ i (by rw [List.length_take] at hi; omega)
    rw [List.getElem?_eq_getElem (by rw [List.length_take] at hi; omega), Option.any_some] at this
    rw [List.getElem_take]
    simp [covers_of_before this]
  have hdrop : ∀ e ∈ entries.drop k, r.before e = false := by
    intro e he
    obtain ⟨i, hi, rfl⟩ := List.getElem_of_mem he
    rw [List.length_drop] at hi
    have := h₂ (k + i) (by omega) (by omega)
    rw [List.getElem?_eq_getElem (by omega), Option.any_some] at this
    rwa [List.getElem_drop]
  have hordered : Ordered (entries.drop k) :=
    ⟨fun e he => h.numbers e (List.mem_of_mem_drop he), h.sorted.sublist (List.drop_sublist k _)⟩
  rw [scan_eq_filter hr hordered hdrop]
  conv_rhs => rw [← List.take_append_drop k entries, List.filter_append, htake, List.nil_append]

theorem range_next_spec (entries : List (DsvEntry α)) (fuel : ℕ) : ∀ r : DsvRange α,
    r.finished = false → entries.length - r.position < fuel →
    (r.scan (entries.drop r.position) = [] → (dsv_index_range_next entries fuel r).1 = none) ∧
    ∀ e rest, r.scan (entries.drop r.position) = e::rest →
      ∃ k, dsv_index_range_next entries fuel r = (some e, { r with position := k }) ∧
        r.scan (entries.drop k) = rest := by
  induction fuel with
  | zero => exact fun _ _ h => absurd h (Nat.not_lt_zero _)
  | succ fuel ih =>
    intro r hfin hfuel
    rw [dsv_index_range_next, if_neg (by rw [hfin]; decide)]
    by_cases hlt : r.position < entries.length
    · rw [List.getElem?_eq_getElem hlt, List.drop_eq_getElem_cons hlt, DsvRange.scan]
      by_cases htext : compareText (entries[r.position]).text_key r.text = .eq
      · have hlow : ({ r with position := r.position + 1 } : DsvRange α).belowLower
            entries[r.position] = r.belowLower entries[r.position] := rfl
        have hup : ({ r with position := r.position + 1 } : DsvRange α).aboveUpper
            entries[r.position] = r.aboveUpper entries[r.position] := rfl
        simp only [htext, ne_eq, not_true_eq_false, if_false, hlow, hup]
        split_ifs with h₁ h₂
        · have := ih { r with position := r.position + 1 } hfin (by dsimp only; omega)
          simpa only [scan_position] using this
        · exact ⟨fun _ => rfl, fun _ _ h => by cases h⟩
        · refine ⟨nofun, fun e rest h => ?_⟩
          cases h
          exact ⟨r.position + 1, rfl, rfl⟩
      · simp only [htext, ne_eq, not_false_eq_true, if_true]
        exact ⟨fun _ => trivial, fun _ _ h => by cases h⟩
    · rw [List.getElem?_eq_none (by omega), List.drop_eq_nil_of_le (by omega), DsvRange.scan]
      exact ⟨fun _ => rfl, fun _ _ h => by cases h⟩

/-- The rows that `dsv_index_cursor_next` returns until it returns 0. -/
inductive Drains (index : DsvIndex α) : DsvCursor α → List DsvRow → Prop
  | done {cursor cursor' : DsvCursor α} :
      dsv_index_cursor_next index cursor = (none, cursor') → Drains index cursor []
  | row {cursor cursor' : DsvCursor α} {row : DsvRow} {rows : List DsvRow} :
      dsv_index_cursor_next index cursor = (some row, cursor') → Drains index cursor' rows →
      Drains index cursor (row::rows)

/-- The entries that are left to ranges where they stand. -/
def scans (entries : List (DsvEntry α)) (ranges : List (DsvRange α)) : List (DsvEntry α) :=
  ranges.flatMap fun r => r.scan (entries.drop r.position)

theorem cursorLoop_spec (entries : List (DsvEntry α)) (left : List (DsvRange α)) :
    ∀ passed : List (DsvRange α), (∀ r ∈ left, r.finished = false) →
    let out := cursorLoop entries left.length
      { range_index := passed.length, ranges := passed ++ left }
    (scans entries left = [] → out.1 = none) ∧
    ∀ e rest, scans entries left = e::rest → out.1 = some e.row ∧
      ∃ passed' left', out.2 = { range_index := passed'.length, ranges := passed' ++ left' } ∧
        (∀ r ∈ left', r.finished = false) ∧ scans entries left' = rest := by
  induction left with
  | nil =>
    intro passed _
    exact ⟨fun _ => rfl, fun _ _ h => by cases h⟩
  | cons r left ih =>
    intro passed hfin
    have hget : (passed ++ r::left)[passed.length]? = some r := by simp
    have hset : ∀ r', (passed ++ r::left).set passed.length r' = (passed ++ [r']) ++ left := by
      intro r'
      simp
    obtain ⟨h₁, h₂⟩ := range_next_spec entries (entries.length + 1) r
      (hfin r (by simp)) (by omega)
    have hscans : scans entries (r::left) =
        r.scan (entries.drop r.position) ++ scans entries left := rfl
    rw [List.length_cons, cursorLoop]
    simp only [hget, hset]
    cases hscan : r.scan (entries.drop r.position) with
    | nil =>
      rw [h₁ hscan, hscans, hscan, List.nil_append]
      have := ih (passed ++ [(dsv_index_range_next entries (entries.length + 1) r).2])
        fun s hs => hfin s (by simp [hs])
      rwa [List.length_append, List.length_singleton] at this
    | cons e rest =>
      obtain ⟨k, h₃, h₄⟩ := h₂ e rest hscan
      rw [h₃, hscans, hscan]
      refine ⟨nofun, fun e' rest' h => ?_⟩
      cases h
      refine ⟨rfl, passed, { r with position := k }::left, by simp, ?_, ?_⟩
      · intro s hs
        rcases List.mem_cons.mp hs with rfl | hs
        · exact hfin r (by simp)
        · exact hfin s (by simp [hs])
      · exact congrArg (· ++ scans entries left) ((scan_position r k _).trans h₄)

theorem drains_scans (index : DsvIndex α) (rows : List (DsvEntry α)) :
    ∀ (passed left : List (DsvRange α)), (∀ r ∈ left, r.finished = false) →
    scans index.entries left = rows →
    Drains index { range_index := passed.length, ranges := passed ++ left }
      (rows.map DsvEntry.row) := by
  induction rows with
  | nil =>
    intro passed left hfin hrows
    obtain ⟨h₁, -⟩ := cursorLoop_spec index.entries left passed hfin
    refine .done (Prod.ext ?_ rfl)
    unfold dsv_index_cursor_next
    simpa using h₁ hrows
  | cons e rows ih =>
    intro passed left hfin hrows
    obtain ⟨-, h₂⟩ := cursorLoop_spec index.entries left passed hfin
    obtain ⟨h₃, passed', left', h₄, h₅, h₆⟩ := h₂ e rows hrows
    refine .row (Prod.ext ?_ ?_) (ih passed' left' h₅ h₆)
    · unfold dsv_index_cursor_next
      simpa using h₃
    · unfold dsv_index_cursor_next
      simpa using h₄

def DsvQuery.Matches (q : DsvQuery α) (e : DsvEntry α) : Bool :=
  q.text_equals = some e.text_key &&
    (!q.has_lower_number || q.lower_number.lt e.number_key ||
      (e.number_key.same q.lower_number && q.lower_inclusive)) &&
    (!q.has_upper_number || e.number_key.lt q.upper_number ||
      (e.number_key.same q.upper_number && q.upper_inclusive))

structure DsvQuery.Proper (q : DsvQuery α) : Prop where
  lower : q.has_lower_number = true → q.lower_number ≠ .nan
  upper : q.has_upper_number = true → q.upper_number ≠ .nan

theorem matches_iff {q : DsvQuery α} (hq : q.Proper) {text : Bytes} (ht : q.text_equals = some text)
    (he : e.number_key ≠ .nan) :
    q.Matches e = true ↔ q.isEmpty = false ∧ (q.range text).covers e = true := by
  obtain ⟨x, hx⟩ := Double.exists_of_ne_nan he
  have htext : q.text_equals = some e.text_key ↔ e.text_key = text := by
    rw [ht, Option.some.injEq, eq_comm]
  unfold DsvQuery.Matches DsvRange.covers
  rw [Bool.and_eq_true, Bool.and_eq_true, Bool.and_eq_true, Bool.and_eq_true, decide_eq_true_eq,
    decide_eq_true_eq, htext]
  unfold DsvQuery.isEmpty DsvRange.belowLower DsvRange.aboveUpper DsvQuery.range
  cases hl : q.has_lower_number with
  | false =>
    cases hu : q.has_upper_number with
    | false => simp
    | true =>
      obtain ⟨w, hw⟩ := Double.exists_of_ne_nan (hq.upper hu)
      cases q.upper_inclusive <;> simp [hx, hw] <;> grind
  | true =>
    obtain ⟨v, hv⟩ := Double.exists_of_ne_nan (hq.lower hl)
    cases hu : q.has_upper_number with
    | false => cases q.lower_inclusive <;> simp [hx, hv] <;> grind
    | true =>
      obtain ⟨w, hw⟩ := Double.exists_of_ne_nan (hq.upper hu)
      cases q.lower_inclusive <;> cases q.upper_inclusive <;> simp [hx, hv, hw] <;> grind

theorem queryRanges_spec (queries : List (DsvQuery α)) : (∀ q ∈ queries, q.Proper) →
    (∀ q ∈ queries, ∃ t, q.text_equals = some t ∧ t.length ≤ DSV_INDEX_MAX_TEXT_KEY) →
    ∃ ranges, queryRanges queries = some ranges ∧ (∀ r ∈ ranges, r.Proper) ∧
      (∀ r ∈ ranges, r.finished = false) ∧ ∀ e : DsvEntry α, e.number_key ≠ .nan →
        ((∃ r ∈ ranges, r.covers e = true) ↔ ∃ q ∈ queries, q.Matches e = true) := by
  induction queries with
  | nil =>
    intro _ _
    exact ⟨[], rfl, by simp, by simp, by simp⟩
  | cons q queries ih =>
    intro hproper htext
    obtain ⟨ranges, h₁, h₂, h₃, h₄⟩ := ih (fun p hp => hproper p (by simp [hp]))
      fun p hp => htext p (by simp [hp])
    obtain ⟨t, ht, hlen⟩ := htext q (by simp)
    have hq := hproper q (by simp)
    rw [queryRanges, ht]
    dsimp only
    rw [if_neg (by omega)]
    by_cases hempty : q.isEmpty = true
    · rw [if_pos hempty]
      refine ⟨ranges, h₁, h₂, h₃, fun e he => ?_⟩
      rw [h₄ e he]
      simp [matches_iff hq ht he, hempty]
    · rw [if_neg hempty, h₁]
      refine ⟨q.range t::ranges, rfl, ?_, ?_, fun e he => ?_⟩
      · intro r hr
        rcases List.mem_cons.mp hr with rfl | hr
        · exact ⟨hq.lower, hq.upper⟩
        · exact h₂ r hr
      · intro r hr
        rcases List.mem_cons.mp hr with rfl | hr
        · rfl
        · exact h₃ r hr
      · simp only [List.mem_cons, exists_eq_or_imp, h₄ e he, matches_iff hq ht he]
        simp [hempty]

theorem queryRanges_text (queries : List (DsvQuery α)) : ∀ {ranges : List (DsvRange α)},
    queryRanges queries = some ranges →
    ∀ q ∈ queries, ∃ t, q.text_equals = some t ∧ t.length ≤ DSV_INDEX_MAX_TEXT_KEY := by
  induction queries with
  | nil => simp
  | cons query rest ih =>
    intro ranges h
    unfold queryRanges at h
    split at h
    · contradiction
    · rename_i text ht
      split_ifs at h with hlen hempty
      · simpa [ht, Nat.le_of_not_lt hlen] using ih h
      · obtain ⟨tail, htail, -⟩ := Option.map_eq_some_iff.mp h
        simpa [ht, Nat.le_of_not_lt hlen] using ih htail

theorem mergeRanges_finished (rest : List (DsvRange α)) : ∀ last : DsvRange α,
    last.finished = false → (∀ r ∈ rest, r.finished = false) →
    ∀ r ∈ mergeRanges last rest, r.finished = false := by
  have hmerge : ∀ r s : DsvRange α, (dsv_index_merge_range r s).finished = r.finished := by
    intro r s
    unfold dsv_index_merge_range
    split_ifs <;> rfl
  induction rest with
  | nil =>
    intro last hlast _ r hr
    cases List.mem_singleton.mp hr
    exact hlast
  | cons s rest ih =>
    intro last hlast hrest
    have hrest' : ∀ r ∈ rest, r.finished = false := fun r hr => hrest r (by simp [hr])
    rw [mergeRanges]
    split_ifs
    · exact ih _ ((hmerge last s).trans hlast) hrest'
    · intro r hr
      rcases List.mem_cons.mp hr with rfl | hr
      · exact hlast
      · exact ih s (hrest s (by simp)) hrest' r hr

theorem scans_merged (h : Ordered entries) {first : DsvRange α} {rest : List (DsvRange α)}
    (hp : ∀ r ∈ first::rest, r.Proper)
    (hsorted : (first::rest).Pairwise fun a b => dsv_index_range_compare a b ≠ .gt) :
    scans entries ((mergeRanges first rest).map (dsv_index_range_position entries)) =
      entries.filter fun e => (first::rest).any (·.covers e) := by
  obtain ⟨h₁, h₂⟩ := mergeRanges_keyed rest first (hp first (by simp))
    fun r hr => hp r (by simp [hr])
  have hkeyed : ((first::rest).map DsvRange.keyed).Pairwise KeyLe :=
    List.pairwise_map.mpr (hsorted.imp_of_mem fun ha hb hab => keyLe_of_compare (hp _ ha) (hp _ hb) hab)
  have hahead : (mergeRanges first rest).Pairwise fun r s => Ahead r.keyed s.keyed := by
    have := coalesce_ahead _ _ hkeyed
    rw [← h₂] at this
    exact List.pairwise_map.mp this
  have hscan : scans entries ((mergeRanges first rest).map (dsv_index_range_position entries)) =
      (mergeRanges first rest).flatMap fun r => entries.filter r.covers := by
    unfold scans
    rw [List.flatMap_map]
    refine List.flatMap_congr fun r hr => ?_
    exact (scan_position r _ _).trans (position_scan (h₁ r hr) h)
  rw [hscan, flatMap_filter h.sorted]
  · refine List.filter_congr fun e he => ?_
    obtain ⟨x, hx⟩ := Double.exists_of_ne_nan (h.numbers e he)
    have hcovers : ∀ ranges : List (DsvRange α), (∀ r ∈ ranges, r.Proper) →
        (ranges.any (·.covers e) = true ↔
          ∃ k ∈ ranges.map DsvRange.keyed, Holds k (textKey e.text_key) x) := by
      intro ranges hranges
      simp only [List.any_eq_true, List.mem_map, exists_exists_and_eq_and]
      exact exists_congr fun r => and_congr_right fun hr => covers_iff (hranges r hr) hx
    rw [Bool.eq_iff_iff, hcovers _ h₁, hcovers _ hp, h₂]
    exact coalesce_holds _ _ hkeyed _ _
  · refine hahead.imp_of_mem fun {r s} hr hs hrs a ha b hb hra hsb => ?_
    obtain ⟨x, hx⟩ := Double.exists_of_ne_nan (h.numbers a ha)
    obtain ⟨y, hy⟩ := Double.exists_of_ne_nan (h.numbers b hb)
    have hlt := hrs _ _ _ _ ((covers_iff (h₁ r hr) hx).mp hra) ((covers_iff (h₁ s hs) hy).mp hsb)
    have hkey : ¬ b.key ≤ a.key := by
      intro hle
      rcases key_le_cases hy hx hle with h' | h'
      · rcases hlt with hlt | hlt
        · exact lt_asymm hlt h'
        · exact ne_of_lt h' hlt.1.symm
      · rcases hlt with hlt | hlt
        · exact ne_of_lt hlt (congrArg textKey h'.1.symm)
        · exact absurd hlt.2 (not_lt.mpr h'.2)
    exact ⟨hkey, fun heq => hkey (heq ▸ le_refl _)⟩

end Order

theorem seek_many_drains {α : Type} [LinearOrder α]
    {qsort : List (DsvRange α) → List (DsvRange α)} {index : DsvIndex α}
    {queries : List (DsvQuery α)} {cursor : DsvCursor α} (hordered : Ordered index.entries)
    (hbounds : ∀ q ∈ queries, q.Proper)
    (hsort : ∀ ranges, queryRanges queries = some ranges →
      SortsWith qsort dsv_index_range_compare ranges)
    (hseek : dsv_index_seek_many qsort index queries = some cursor) :
    Drains index cursor
      ((index.entries.filter fun e => queries.any (·.Matches e)).map DsvEntry.row) := by
  unfold dsv_index_seek_many at hseek
  split_ifs at hseek
  obtain ⟨ranges, h₁, rfl⟩ := Option.map_eq_some_iff.mp hseek
  obtain ⟨_, h₁', h₂, h₃, h₄⟩ := queryRanges_spec queries hbounds (queryRanges_text queries h₁)
  obtain rfl := Option.some_inj.mp (h₁.symm.trans h₁')
  have hmatch : ∀ e ∈ index.entries,
      queries.any (·.Matches e) = ranges.any (·.covers e) := by
    intro e he
    rw [Bool.eq_iff_iff, List.any_eq_true, List.any_eq_true]
    exact (h₄ e (hordered.numbers e he)).symm
  rw [List.filter_congr hmatch]
  obtain ⟨hperm, hsorted⟩ := hsort ranges h₁ (range_compare_consistent h₂)
  cases hq : qsort ranges with
  | nil =>
    have hnil : ranges = [] := by
      rw [hq] at hperm
      exact hperm.symm.eq_nil
    subst hnil
    exact drains_scans index _ [] [] (by simp) (by simp [scans])
  | cons first rest =>
    rw [hq] at hperm hsorted
    have hne' : ranges.isEmpty = false := by
      cases ranges with
      | nil => exact absurd hperm.eq_nil (by simp)
      | cons r rs => rfl
    have hany : ∀ e, ranges.any (·.covers e) = (first::rest).any (·.covers e) := by
      intro e
      rw [Bool.eq_iff_iff, List.any_eq_true, List.any_eq_true]
      exact exists_congr fun r => and_congr_left fun _ => hperm.mem_iff.symm
    simp only [hne', Bool.false_eq_true, if_false, hany]
    refine drains_scans index _ [] _ ?_
      (scans_merged hordered (fun r hr => h₂ r (hperm.mem_iff.mp hr)) hsorted)
    intro r hr
    obtain ⟨s, hs, rfl⟩ := List.mem_map.mp hr
    exact mergeRanges_finished rest first (h₃ _ (hperm.mem_iff.mp (by simp)))
      (fun s hs => h₃ _ (hperm.mem_iff.mp (by simp [hs]))) s hs

/-- The queries of an index find exactly the entries that one of them matches, each once and in the
order of the index, if no number of the index and no bound of the queries is a NaN. -/
theorem seek_many_exact {α : Type} [LinearOrder α] (qsort : List (DsvRange α) → List (DsvRange α))
    (index : DsvIndex α) (queries : List (DsvQuery α))
    (hindex : dsv_index_validate_entries index.source_length none index.entries = .ok ())
    (hkeys : ∀ e ∈ index.entries, e.number_key ≠ .nan)
    (hcount : 1 ≤ queries.length ∧ queries.length ≤ DSV_INDEX_MAX_QUERY_RANGES)
    (htext : ∀ q ∈ queries, ∃ t, q.text_equals = some t ∧ t.length ≤ DSV_INDEX_MAX_TEXT_KEY)
    (hbounds : ∀ q ∈ queries, q.Proper)
    (hsort : ∀ ranges, queryRanges queries = some ranges →
      SortsWith qsort dsv_index_range_compare ranges) :
    ∃ cursor, dsv_index_seek_many qsort index queries = some cursor ∧
      Drains index cursor
        ((index.entries.filter fun e => queries.any (·.Matches e)).map DsvEntry.row) := by
  obtain ⟨hordered, -⟩ := validate_ordered index.entries none hkeys (by simp) hindex
  obtain ⟨ranges, h₁, -⟩ := queryRanges_spec queries hbounds htext
  have hne : queries ≠ [] := List.ne_nil_of_length_pos hcount.1
  have hsome : ∃ cursor, dsv_index_seek_many qsort index queries = some cursor := by
    unfold dsv_index_seek_many
    rw [if_neg (by rintro (h | h); exact hne h; omega), h₁, Option.map_some]
    exact ⟨_, rfl⟩
  obtain ⟨cursor, hcursor⟩ := hsome
  exact ⟨cursor, hcursor, seek_many_drains hordered hbounds hsort hcursor⟩

/-- An index of three rows. -/
def threeRows : DsvIndex ℤ where
  text_column := 0
  number_column := 1
  source_length := 12
  entries := [⟨[97], .num 1, 0, 4, false, 0⟩, ⟨[97], .num 3, 8, 4, false, 0⟩,
    ⟨[98], .num 2, 4, 4, false, 0⟩]

def insertRange (r : DsvRange ℤ) : List (DsvRange ℤ) → List (DsvRange ℤ)
  | [] => [r]
  | s::rest => if dsv_index_range_compare r s = .gt then s::insertRange r rest else r::s::rest

/-- Two overlapping ranges of one text, and a third one of a text before them. -/
theorem seek_many_exact_overlapping :
    let queries : List (DsvQuery ℤ) :=
      [⟨some [98], false, false, .num 0, true, true, .num 2⟩,
       ⟨some [97], true, false, .num 2, false, false, .num 0⟩,
       ⟨some [97], true, true, .num 1, true, true, .num 3⟩]
    ∃ cursor, dsv_index_seek_many (fun l => l.foldr insertRange []) threeRows queries = some cursor ∧
      Drains threeRows cursor [⟨0, 4, false, 0⟩, ⟨8, 4, false, 0⟩, ⟨4, 4, false, 0⟩] := by
  refine seek_many_exact (fun l => l.foldr insertRange []) threeRows _ (by decide) (by decide)
    (by decide) ?_ ?_ ?_
  · simp [DSV_INDEX_MAX_TEXT_KEY]
  · simp only [List.mem_cons, List.not_mem_nil, or_false, forall_eq_or_imp, forall_eq]
    exact ⟨⟨by simp, by simp⟩, ⟨by simp, by simp⟩, ⟨by simp, by simp⟩⟩
  · intro ranges hranges _
    cases hranges
    decide

/-- The bound NaN, which no number is above, leaves out no entry. -/
theorem seek_many_nan :
    let index : DsvIndex ℤ := ⟨0, 1, 4, [⟨[97], .num 1, 0, 4, false, 0⟩]⟩
    let query : DsvQuery ℤ := ⟨some [97], true, true, .nan, false, false, .num 0⟩
    dsv_index_validate_entries index.source_length none index.entries = .ok () ∧
      (dsv_index_seek_many id index [query]).map (fun c => (dsv_index_cursor_next index c).1) =
        some (some ⟨0, 4, false, 0⟩) ∧
      index.entries.filter query.Matches = [] := by
  decide

end SaltsUtils.Dsv
