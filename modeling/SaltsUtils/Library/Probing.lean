import Mathlib.Tactic

/-!
# Open addressing

A key is looked for at the positions of its probe sequence, up to the first free one.
-/

set_option autoImplicit false

namespace SaltsUtils.Probing

variable {K P : Type*} [DecidableEq K]

abbrev Slots (K P : Type*) := List (Option (K × P))

/-- The search through `n` positions from the `i`-th on. -/
def find (position : K → ℕ → ℕ) (slots : Slots K P) (key : K) : ℕ → ℕ → Option P
  | 0, _ => none
  | n + 1, i =>
    match slots[position key i]? with
    | some (some (k, p)) => if k = key then some p else find position slots key n (i + 1)
    | _ => none

example (position : ℕ → ℕ → ℕ) (slots : Slots ℕ ℕ) (key i : ℕ) :
    find position slots key 0 i = none := by rw [find]

/-- The table with the key in it, and whether an entry was made. `none` when there is
no room. -/
def insert (position : K → ℕ → ℕ) (slots : Slots K P) (key : K) (p : P) :
    ℕ → ℕ → Option (Slots K P × Bool)
  | 0, _ => none
  | n + 1, i =>
    match slots[position key i]? with
    | some (some (k, _)) =>
      if k = key then some (slots, false) else insert position slots key p n (i + 1)
    | _ => some (slots.set (position key i) (some (key, p)), true)

/-- Every entry is found from the start of its sequence. -/
def Found (position : K → ℕ → ℕ) (n : ℕ) (slots : Slots K P) : Prop :=
  ∀ {s : ℕ} {k : K} {p : P}, slots[s]? = some (some (k, p)) → find position slots k n 0 = some p

variable {position : K → ℕ → ℕ} {slots slots' : Slots K P} {key : K} {p : P} {n i : ℕ}

theorem found_empty (position : K → ℕ → ℕ) (n m : ℕ) :
    Found position n (List.replicate m none : Slots K P) := by
  intro s k p h
  have := List.eq_of_mem_replicate (List.mem_of_getElem? h)
  cases this

theorem find_empty (position : K → ℕ → ℕ) (n m i : ℕ) (key : K) :
    find position (List.replicate m none : Slots K P) key n i = none := by
  cases n with
  | zero => rfl
  | succ n =>
    rw [find]
    split
    · next h => cases List.eq_of_mem_replicate (List.mem_of_getElem? h)
    · rfl

theorem find_congr {position' : K → ℕ → ℕ} (hp : ∀ i, position key i = position' key i) :
    find position slots key n i = find position' slots key n i := by
  induction n generalizing i with
  | zero => rfl
  | succ n ih => rw [find, find, hp i, ih]

theorem find_stored (h : find position slots key n i = some p) :
    ∃ s : ℕ, slots[s]? = some (some (key, p)) := by
  induction n generalizing i with
  | zero => cases h
  | succ n ih =>
    rw [find] at h
    split at h
    · next k q hs =>
      split at h
      · next hk =>
        obtain rfl := Option.some.inj h
        exact ⟨_, hk ▸ hs⟩
      · exact ih h
    · cases h

/-- What is found is found when a free position is filled. -/
theorem find_set {s : ℕ} {e : Option (K × P)} (hs : slots[s]? = some none)
    (h : find position slots key n i = some p) : find position (slots.set s e) key n i = some p := by
  induction n generalizing i with
  | zero => cases h
  | succ n ih =>
    rw [find] at h ⊢
    split at h
    · next k q hk =>
      have hne : s ≠ position key i := by
        rintro rfl
        cases hs.symm.trans hk
      rw [List.getElem?_set_ne hne, hk]
      simp only
      split at h
      · next hkey => rw [if_pos hkey, h]
      · next hkey =>
        rw [if_neg hkey]
        exact ih h
    · cases h

theorem insert_cases {made : Bool} (hp : ∀ i, position key i < slots.length)
    (h : insert position slots key p n i = some (slots', made)) :
    (made = false ∧ slots' = slots ∧ ∃ q, find position slots key n i = some q) ∨
    (made = true ∧ ∃ s : ℕ, slots[s]? = some none ∧ slots' = slots.set s (some (key, p)) ∧
      find position slots key n i = none ∧ find position slots' key n i = some p) := by
  induction n generalizing i with
  | zero => cases h
  | succ n ih =>
    rw [insert] at h
    split at h
    · next k q hk =>
      split at h
      · next hkey =>
        cases h
        refine Or.inl ⟨rfl, rfl, q, ?_⟩
        rw [find, hk]
        exact if_pos hkey
      · next hkey =>
        have hf : find position slots key (n + 1) i = find position slots key n (i + 1) := by
          rw [find, hk]
          exact if_neg hkey
        rw [hf]
        rcases ih h with ⟨hm, hs, hq⟩ | ⟨hm, s, hfree, hs, hnone, hsome⟩
        · exact Or.inl ⟨hm, hs, hq⟩
        · refine Or.inr ⟨hm, s, hfree, hs, hnone, ?_⟩
          have hne : s ≠ position key i := by
            rintro rfl
            cases hfree.symm.trans hk
          rw [find, hs, List.getElem?_set_ne hne, hk]
          simp only
          rw [if_neg hkey, ← hs]
          exact hsome
    · next hfree =>
      cases h
      have hnone : slots[position key i]? = some none := by
        rcases hx : slots[position key i]? with _ | (_ | ⟨k, q⟩)
        · exact absurd (hp i) (Nat.not_lt.mpr (List.getElem?_eq_none_iff.mp hx))
        · rfl
        · exact absurd hx (hfree k q)
      refine Or.inr ⟨rfl, _, hnone, rfl, ?_, ?_⟩
      · rw [find, hnone]
      · rw [find, List.getElem?_set_self (hp i)]
        exact if_pos rfl

/-- Insertion keeps every entry found, adds its key where it is new and leaves the
other keys alone. -/
theorem Found.insert {made : Bool} (hf : Found position n slots)
    (hp : ∀ i, position key i < slots.length)
    (h : Probing.insert position slots key p n 0 = some (slots', made)) :
    Found position n slots' ∧ ∀ k, find position slots' k n 0 =
      if k = key then (find position slots key n 0).or (some p) else find position slots k n 0 := by
  rcases insert_cases hp h with ⟨-, rfl, q, hq⟩ | ⟨-, s, hfree, rfl, hnone, hsome⟩
  · refine ⟨hf, fun k => ?_⟩
    by_cases hk : k = key
    · rw [if_pos hk, hk, hq]
      rfl
    · rw [if_neg hk]
  · have hfound : Found position n (slots.set s (some (key, p))) := by
      intro s' k q hs'
      by_cases hs : s = s'
      · subst hs
        rw [List.getElem?_set_self (List.getElem?_eq_some_iff.mp hfree).1] at hs'
        cases hs'
        exact hsome
      · rw [List.getElem?_set_ne hs] at hs'
        exact find_set hfree (hf hs')
    refine ⟨hfound, fun k => ?_⟩
    by_cases hk : k = key
    · rw [if_pos hk, hk, hnone, hsome]
      rfl
    · rw [if_neg hk]
      cases hx : find position slots k n 0 with
      | some q => exact find_set hfree hx
      | none =>
        -- An entry of `k` would have been one before.
        by_contra hne
        obtain ⟨q, hq⟩ := Option.ne_none_iff_exists'.mp hne
        obtain ⟨s', hs'⟩ := find_stored hq
        by_cases hs : s = s'
        · subst hs
          rw [List.getElem?_set_self (List.getElem?_eq_some_iff.mp hfree).1] at hs'
          cases hs'
          exact hk rfl
        · rw [List.getElem?_set_ne hs] at hs'
          cases hx.symm.trans (hf hs')

theorem insert_length {made : Bool}
    (h : Probing.insert position slots key p n i = some (slots', made)) :
    slots'.length = slots.length := by
  induction n generalizing i with
  | zero => cases h
  | succ n ih =>
    rw [Probing.insert] at h
    split at h
    · split at h
      · cases h
        rfl
      · exact ih h
    · cases h
      exact List.length_set

end SaltsUtils.Probing
