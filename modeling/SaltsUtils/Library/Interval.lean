import Mathlib.Order.Lattice
import Mathlib.Data.List.Basic
import Mathlib.Order.Defs.LinearOrder

/-!
# Unions of intervals

An interval of a linear order may lack either end, and an end may belong to it or not.
-/

set_option autoImplicit false

namespace SaltsUtils

/-- The ends of an interval, with whether they belong to it. -/
structure Interval (α : Type) where
  lower : Option (α × Bool)
  upper : Option (α × Bool)
deriving DecidableEq

namespace Interval

variable {α : Type} [LinearOrder α]

def AboveLower (i : Interval α) (x : α) : Prop :=
  match i.lower with
  | none => True
  | some (v, inclusive) => v < x ∨ (inclusive = true ∧ v = x)

def BelowUpper (i : Interval α) (x : α) : Prop :=
  match i.upper with
  | none => True
  | some (v, inclusive) => x < v ∨ (inclusive = true ∧ x = v)

def Contains (i : Interval α) (x : α) : Prop := i.AboveLower x ∧ i.BelowUpper x

/-- The first interval starts no later than the second. -/
def StartLe (i j : Interval α) : Prop :=
  match i.lower, j.lower with
  | none, _ => True
  | some _, none => False
  | some (v, a), some (w, b) => v < w ∨ (v = w ∧ (a = true ∨ b = false))

/-- The second interval starts before the first one ends, or right there. -/
def Touches (i j : Interval α) : Prop :=
  match i.upper, j.lower with
  | none, _ => True
  | some _, none => True
  | some (v, a), some (w, b) => w < v ∨ (w = v ∧ (b = true ∨ a = true))

instance (i j : Interval α) : Decidable (i.Touches j) := by
  unfold Touches
  split <;> infer_instance

/-- The first interval, up to the end that is further away. -/
def hull (i j : Interval α) : Interval α where
  lower := i.lower
  upper :=
    match i.upper, j.upper with
    | none, _ => none
    | some _, none => none
    | some (v, a), some (w, b) =>
      if w < v then some (v, a) else if v < w then some (w, b) else some (v, a || b)

theorem StartLe.aboveLower {i j : Interval α} (h : i.StartLe j) {x : α} (hx : j.AboveLower x) :
    i.AboveLower x := by
  obtain ⟨l, u⟩ := i
  obtain ⟨l', u'⟩ := j
  simp only [StartLe, AboveLower] at *
  rcases l with _ | ⟨l, a⟩ <;> rcases l' with _ | ⟨l', a'⟩ <;> grind

/-- Two intervals that touch make up their hull. -/
theorem contains_hull {i j : Interval α} (h : i.StartLe j) (ht : i.Touches j) (x : α) :
    (i.hull j).Contains x ↔ i.Contains x ∨ j.Contains x := by
  obtain ⟨l, u⟩ := i
  obtain ⟨l', u'⟩ := j
  rcases l with _ | ⟨l, a⟩ <;> rcases u with _ | ⟨u, b⟩ <;> rcases l' with _ | ⟨l', a'⟩ <;>
    rcases u' with _ | ⟨u', b'⟩ <;>
    simp only [StartLe, Touches, hull, Contains, AboveLower, BelowUpper] at * <;> grind

/-- An interval lies before the starts that it does not touch. -/
theorem lt_of_not_touches {i j : Interval α} (ht : ¬ i.Touches j) {x y : α} (hx : i.BelowUpper x)
    (hy : j.AboveLower y) : x < y := by
  obtain ⟨l, u⟩ := i
  obtain ⟨l', u'⟩ := j
  rcases u with _ | ⟨u, b⟩ <;> rcases l' with _ | ⟨l', a'⟩ <;>
    simp only [Touches, AboveLower, BelowUpper] at * <;> grind

end Interval

section Coalesce
variable {α κ : Type} [LinearOrder α] [LinearOrder κ]

/-- A key and an interval hold a key and a value. -/
def Holds (r : κ × Interval α) (k : κ) (x : α) : Prop := r.1 = k ∧ r.2.Contains x

/-- The order of the keys, and of the starts under one key. -/
def KeyLe (r s : κ × Interval α) : Prop := r.1 < s.1 ∨ (r.1 = s.1 ∧ r.2.StartLe s.2)

/-- All that the first holds comes before all that the second holds. -/
def Ahead (r s : κ × Interval α) : Prop :=
  ∀ k x l y, Holds r k x → Holds s l y → k < l ∨ (k = l ∧ x < y)

/-- One pass over the intervals, with the last one of the result at hand. -/
def coalesce (last : κ × Interval α) : List (κ × Interval α) → List (κ × Interval α)
  | [] => [last]
  | r::rest =>
    if last.1 = r.1 ∧ last.2.Touches r.2 then coalesce (last.1, last.2.hull r.2) rest
    else last::coalesce r rest

theorem KeyLe.hull {r t : κ × Interval α} (h : KeyLe r t) (i : Interval α) :
    KeyLe (r.1, r.2.hull i) t := h

theorem coalesce_holds (rest : List (κ × Interval α)) : ∀ last : κ × Interval α,
    (last::rest).Pairwise KeyLe → ∀ k x,
    ((∃ r ∈ coalesce last rest, Holds r k x) ↔ ∃ r ∈ last::rest, Holds r k x) := by
  induction rest with
  | nil => exact fun _ _ _ _ => Iff.rfl
  | cons r rest ih =>
    intro last hsorted k x
    obtain ⟨hlast, hrest⟩ := List.pairwise_cons.mp hsorted
    rw [coalesce]
    split_ifs with h
    · obtain ⟨hkey, htouch⟩ := h
      have hstart : last.2.StartLe r.2 := by
        rcases hlast r (by simp) with h | h
        · rw [hkey] at h
          exact absurd h (lt_irrefl _)
        · exact h.2
      have hsorted' : ((last.1, last.2.hull r.2)::rest).Pairwise KeyLe :=
        List.pairwise_cons.mpr ⟨fun s hs => (hlast s (by simp [hs])).hull r.2,
          (List.pairwise_cons.mp hrest).2⟩
      rw [ih _ hsorted']
      have hboth : Holds (last.1, last.2.hull r.2) k x ↔ Holds last k x ∨ Holds r k x := by
        unfold Holds
        rw [Interval.contains_hull hstart htouch, ← hkey]
        tauto
      simp only [List.mem_cons, exists_eq_or_imp, hboth, or_assoc]
    · simp only [List.mem_cons, exists_eq_or_imp] at ih ⊢
      rw [ih r hrest]

/-- What is coalesced lies apart. -/
theorem coalesce_ahead (rest : List (κ × Interval α)) : ∀ last : κ × Interval α,
    (last::rest).Pairwise KeyLe → (coalesce last rest).Pairwise Ahead := by
  induction rest with
  | nil => exact fun _ _ => List.pairwise_singleton _ _
  | cons r rest ih =>
    intro last hsorted
    obtain ⟨hlast, hrest⟩ := List.pairwise_cons.mp hsorted
    rw [coalesce]
    split_ifs with h
    · exact ih _ (List.pairwise_cons.mpr ⟨fun s hs => (hlast s (by simp [hs])).hull r.2,
        (List.pairwise_cons.mp hrest).2⟩)
    · refine List.pairwise_cons.mpr ⟨fun s hs => ?_, ih r hrest⟩
      rintro k x l y ⟨rfl, hx⟩ hy
      -- What the later ones hold is held by one of the intervals that are left.
      obtain ⟨t, ht, rfl, hy'⟩ := (coalesce_holds rest r hrest l y).mp ⟨s, hs, hy⟩
      have hrt : r = t ∨ KeyLe r t := by
        rcases List.mem_cons.mp ht with rfl | ht
        · exact Or.inl rfl
        · exact Or.inr ((List.pairwise_cons.mp hrest).1 t ht)
      have hstart : r.1 = t.1 → r.2.AboveLower y := by
        intro hkey
        rcases hrt with rfl | h | h
        · exact hy'.1
        · rw [hkey] at h
          exact absurd h (lt_irrefl _)
        · exact h.2.aboveLower hy'.1
      have hle : last.1 ≤ r.1 ∧ r.1 ≤ t.1 := by
        constructor
        · rcases hlast r (by simp) with h | h
          · exact le_of_lt h
          · exact le_of_eq h.1
        · rcases hrt with rfl | h | h
          · exact le_refl _
          · exact le_of_lt h
          · exact le_of_eq h.1
      rcases lt_or_eq_of_le (le_trans hle.1 hle.2) with hlt | heq
      · exact Or.inl hlt
      · have hkey : last.1 = r.1 := le_antisymm hle.1 (by rw [heq]; exact hle.2)
        have htouch : ¬ last.2.Touches r.2 := fun ht => h ⟨hkey, ht⟩
        exact Or.inr ⟨heq, Interval.lt_of_not_touches htouch hx.2 (hstart (hkey ▸ heq))⟩

end Coalesce

section Filter
variable {β : Type} {R : β → β → Prop}

/-- Two conditions that a sorted list meets one after the other. -/
theorem filter_append_filter {l : List β} (hl : l.Pairwise R) {p q : β → Bool}
    (h : ∀ a ∈ l, ∀ b ∈ l, p a = true → q b = true → ¬ R b a ∧ a ≠ b) :
    l.filter p ++ l.filter q = l.filter fun a => p a || q a := by
  induction l with
  | nil => rfl
  | cons a l ih =>
    obtain ⟨ha, hl⟩ := List.pairwise_cons.mp hl
    have ih := ih hl fun b hb c hc => h b (by simp [hb]) c (by simp [hc])
    cases hp : p a with
    | true =>
      have hq : q a = false := by
        by_contra hq
        exact (h a (by simp) a (by simp) hp (by simpa using hq)).2 rfl
      simp [hp, hq, ← ih]
    | false =>
      cases hq : q a with
      | false => simp [hp, hq, ← ih]
      | true =>
        have hnil : l.filter p = [] :=
          List.filter_eq_nil_iff.mpr fun b hb hpb =>
            (h b (by simp [hb]) a (by simp) hpb hq).1 (ha b hb)
        rw [hnil, List.nil_append] at ih
        simp [hp, hq, ← ih, hnil]

/-- Conditions that a sorted list meets one after the other. -/
theorem flatMap_filter {ι : Type} {l : List β} (hl : l.Pairwise R) {p : ι → β → Bool} {is : List ι}
    (h : is.Pairwise fun i j =>
      ∀ a ∈ l, ∀ b ∈ l, p i a = true → p j b = true → ¬ R b a ∧ a ≠ b) :
    (is.flatMap fun i => l.filter (p i)) = l.filter fun a => is.any (p · a) := by
  induction is with
  | nil => simp
  | cons i is ih =>
    obtain ⟨hi, his⟩ := List.pairwise_cons.mp h
    rw [List.flatMap_cons, ih his, filter_append_filter hl]
    · rfl
    · intro a ha b hb hpa hpb
      obtain ⟨j, hj, hpb⟩ := List.any_eq_true.mp hpb
      exact hi j hj a ha b hb hpa hpb

end Filter

section Bisect

/-- The place from which on a condition fails, between two bounds. -/
def bisect (before : ℕ → Bool) : ℕ → ℕ → ℕ → ℕ
  | 0, low, _ => low
  | fuel + 1, low, high =>
    if low < high then
      let mid := low + (high - low) / 2
      if before mid then bisect before fuel (mid + 1) high else bisect before fuel low mid
    else low

theorem bisect_spec (before : ℕ → Bool) (n : ℕ)
    (hmono : ∀ i j, i ≤ j → j < n → before j = true → before i = true) (fuel : ℕ) :
    ∀ low high, high - low ≤ fuel → low ≤ high → high ≤ n →
      (∀ i < low, before i = true) → (∀ i, high ≤ i → i < n → before i = false) →
      (∀ i < bisect before fuel low high, before i = true) ∧
        ∀ i, bisect before fuel low high ≤ i → i < n → before i = false := by
  induction fuel with
  | zero =>
    intro low high hfuel hle hn hlow hhigh
    have : low = high := by omega
    subst this
    exact ⟨hlow, hhigh⟩
  | succ fuel ih =>
    intro low high hfuel hle hn hlow hhigh
    rw [bisect]
    split_ifs with hlt
    · dsimp only
      split_ifs with hb
      · refine ih _ _ (by omega) (by omega) hn (fun i hi => ?_) hhigh
        exact hmono i _ (by omega) (by omega) hb
      · refine ih _ _ (by omega) (by omega) (by omega) hlow (fun i hi hin => ?_)
        by_contra hi'
        exact hb (hmono _ i hi hin (by simpa using hi'))
    · have : low = high := by omega
      subst this
      exact ⟨hlow, hhigh⟩

end Bisect

end SaltsUtils
