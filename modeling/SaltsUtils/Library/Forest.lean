import Mathlib.Tactic

/-!
# Forests and linked sibling lists

A forest is a relation from parents to children in which every node has at most one parent
and no node lies below itself. The nodes below two different children of one node are
disjoint.
-/

set_option autoImplicit false

namespace SaltsUtils.Forest

section Descent
variable {ι : Type*} {edge : ι → ι → Prop}

structure IsForest (edge : ι → ι → Prop) : Prop where
  unique : ∀ {a b c : ι}, edge a c → edge b c → a = b
  acyclic : ∀ a : ι, ¬ Relation.TransGen edge a a

/-- `j` is `i` or one of its descendants. -/
def Below (edge : ι → ι → Prop) : ι → ι → Prop := Relation.ReflTransGen edge

theorem below_refl (i : ι) : Below edge i i := Relation.ReflTransGen.refl

theorem below_trans {i j k : ι} (h₁ : Below edge i j) (h₂ : Below edge j k) : Below edge i k :=
  Relation.ReflTransGen.trans h₁ h₂

theorem below_child {i c : ι} (h : edge i c) : Below edge i c := Relation.ReflTransGen.single h

theorem below_of_child {i c j : ι} (h : edge i c) (hj : Below edge c j) : Below edge i j :=
  below_trans (below_child h) hj

theorem below_cases {i j : ι} (h : Below edge i j) : j = i ∨ ∃ c, edge i c ∧ Below edge c j := by
  rcases Relation.ReflTransGen.cases_head h with h | h
  · exact Or.inl h.symm
  · exact Or.inr h

theorem below_parent (hf : IsForest edge) {i p j : ι} (h : Below edge i j) (hp : edge p j) :
    j = i ∨ Below edge i p := by
  rcases Relation.ReflTransGen.cases_tail h with h | ⟨q, hq, hqj⟩
  · exact Or.inl h
  · exact Or.inr (hf.unique hqj hp ▸ hq)

theorem not_below_parent (hf : IsForest edge) {i c : ι} (h : edge i c) : ¬ Below edge c i := by
  intro hb
  exact hf.acyclic i (Relation.TransGen.head' h hb)

theorem below_antisymm (hf : IsForest edge) {i j : ι} (h₁ : Below edge i j)
    (h₂ : Below edge j i) : i = j := by
  rcases below_cases h₁ with h | ⟨c, hc, hcj⟩
  · exact h.symm
  · exact absurd (below_trans hcj h₂) (not_below_parent hf hc)

/-- Two nodes above a common one are comparable. -/
theorem below_total (hf : IsForest edge) {i k j : ι} (h₁ : Below edge i j)
    (h₂ : Below edge k j) : Below edge i k ∨ Below edge k i := by
  induction h₁ with
  | refl => exact Or.inr h₂
  | tail hip hpj ih =>
    rcases below_parent hf h₂ hpj with h | h
    · exact Or.inl (h ▸ Relation.ReflTransGen.tail hip hpj)
    · exact ih h

theorem below_disjoint (hf : IsForest edge) {i c d j : ι} (hc : edge i c) (hd : edge i d)
    (hne : c ≠ d) (hj : Below edge c j) : ¬ Below edge d j := by
  intro hd'
  rcases below_total hf hj hd' with h | h
  · rcases below_parent hf h hd with h' | h'
    · exact hne h'.symm
    · exact not_below_parent hf hc h'
  · rcases below_parent hf h hc with h' | h'
    · exact hne h'
    · exact not_below_parent hf hd h'

theorem forest_of_lt {edge : ℕ → ℕ → Prop} (unique : ∀ {a b c : ℕ}, edge a c → edge b c → a = b)
    (lt : ∀ {a b : ℕ}, edge a b → a < b) : IsForest edge := by
  have htrans : ∀ a b : ℕ, Relation.TransGen edge a b → a < b := by
    intro a b h
    induction h with
    | single h => exact lt h
    | tail _ h ih => exact ih.trans (lt h)
  exact ⟨unique, fun a h => lt_irrefl a (htrans a a h)⟩

/-- An edge may lead to a node without a parent that is not above its new parent. -/
theorem IsForest.join (hf : IsForest edge) {p c : ι} (hc : ∀ a, ¬ edge a c)
    (hp : ¬ Below edge c p) {edge' : ι → ι → Prop}
    (he : ∀ {a b : ι}, edge' a b → edge a b ∨ a = p ∧ b = c) : IsForest edge' where
  unique := by
    intro a b d ha hb
    rcases he ha with ha | ⟨rfl, rfl⟩ <;> rcases he hb with hb | ⟨rfl, hd⟩
    · exact hf.unique ha hb
    · exact absurd (hd ▸ ha) (hc a)
    · exact absurd hb (hc b)
    · rfl
  acyclic := by
    have hpath : ∀ a b, Relation.TransGen edge' a b →
        Relation.TransGen edge a b ∨ Below edge a p ∧ Below edge c b := by
      intro a b h
      induction h with
      | single h =>
        rcases he h with h | ⟨rfl, rfl⟩
        · exact .inl (.single h)
        · exact .inr ⟨below_refl _, below_refl _⟩
      | tail _ h ih =>
        rcases he h with h | ⟨rfl, rfl⟩
        · rcases ih with ih | ⟨hap, hcb⟩
          · exact .inl (ih.tail h)
          · exact .inr ⟨hap, hcb.tail h⟩
        · rcases ih with ih | ⟨hap, hcb⟩
          · exact .inr ⟨ih.to_reflTransGen, below_refl _⟩
          · exact absurd hcb hp
    intro a h
    rcases hpath a a h with h | ⟨hap, hca⟩
    · exact hf.acyclic a h
    · exact hp (below_trans hca hap)

end Descent

section Counting
variable {edge : ℕ → ℕ → Prop}

open Classical in
/-- The nodes under `a`, as far as they are less than `n`. -/
noncomputable def under (edge : ℕ → ℕ → Prop) (n a : ℕ) : ℕ :=
  ((Finset.range n).filter fun b => Relation.TransGen edge a b).card

theorem under_le (n a : ℕ) : under edge n a ≤ n := by
  classical
  exact (Finset.card_filter_le _ _).trans_eq (Finset.card_range n)

/-- Without cycles there is less under a node than under the one it hangs on. -/
theorem under_lt (hacyclic : ∀ a, ¬ Relation.TransGen edge a a) {n a b : ℕ} (h : edge a b)
    (hb : b < n) : under edge n b < under edge n a := by
  classical
  apply Finset.card_lt_card
  refine ⟨fun c hc => ?_, fun hsub => ?_⟩
  · obtain ⟨hn, hbc⟩ := Finset.mem_filter.mp hc
    exact Finset.mem_filter.mpr ⟨hn, .head h hbc⟩
  · have hself := hsub (Finset.mem_filter.mpr ⟨Finset.mem_range.mpr hb, .single h⟩)
    exact hacyclic b (Finset.mem_filter.mp hself).2

theorem under_lt_bound (hacyclic : ∀ a, ¬ Relation.TransGen edge a a) {n a : ℕ} (ha : a < n) :
    under edge n a < n := by
  classical
  have hlt : under edge n a < (Finset.range n).card := by
    apply Finset.card_lt_card
    refine ⟨Finset.filter_subset _ _, fun hsub => ?_⟩
    exact hacyclic a (Finset.mem_filter.mp (hsub (Finset.mem_range.mpr ha))).2
  rwa [Finset.card_range] at hlt

end Counting

section Links

/-- The list read by following `next` from `start`, up to the terminator 0. -/
def Linked (next : ℕ → ℕ) : ℕ → List ℕ → Prop
  | start, [] => start = 0
  | start, c::l => start = c ∧ c ≠ 0 ∧ Linked next (next c) l

variable {next : ℕ → ℕ} {start : ℕ} {l : List ℕ}

theorem linked_congr {next' : ℕ → ℕ} (h : Linked next start l) (heq : ∀ c ∈ l, next' c = next c) :
    Linked next' start l := by
  induction l generalizing start with
  | nil => exact h
  | cons c l ih =>
    obtain ⟨hs, hc, hl⟩ := h
    have hnext : next' c = next c := heq c List.mem_cons_self
    exact ⟨hs, hc, hnext ▸ ih hl (fun d hd => heq d (List.mem_cons_of_mem c hd))⟩

theorem linked_start_eq_zero (h : Linked next start l) : start = 0 ↔ l = [] := by
  cases l with
  | nil => exact ⟨fun _ => rfl, fun _ => h⟩
  | cons c l =>
    obtain ⟨hs, hc, -⟩ := h
    simp [hs, hc]

/-- Linking a new last element behind the old one appends it to the list. -/
theorem linked_append {next' : ℕ → ℕ} {last x : ℕ} (h : Linked next start l)
    (hlast : l.getLast? = some last) (hnodup : l.Nodup) (hx : x ≠ 0)
    (hkeep : ∀ c ∈ l, c ≠ last → next' c = next c) (hlink : next' last = x) (hend : next' x = 0) :
    Linked next' start (l ++ [x]) := by
  induction l generalizing start with
  | nil => simp at hlast
  | cons c l ih =>
    obtain ⟨hs, hc, hl⟩ := h
    obtain ⟨hcl, hnd⟩ := List.nodup_cons.mp hnodup
    cases l with
    | nil =>
      have hcl : c = last := by simpa using hlast
      subst hcl
      exact ⟨hs, hc, hlink, hx, hend⟩
    | cons d l =>
      rw [List.getLast?_cons_cons] at hlast
      have hne : c ≠ last := by
        intro he
        exact hcl (he ▸ List.mem_of_getLast? hlast)
      have hnext : next' c = next c := hkeep c List.mem_cons_self hne
      have hrest := ih (hnext ▸ hl) hlast hnd
        (fun e he => hkeep e (List.mem_cons_of_mem c he))
      exact ⟨hs, hc, hrest⟩

theorem linked_singleton {x : ℕ} (hx : x ≠ 0) (hend : next x = 0) :
    Linked next x [x] := ⟨rfl, hx, hend⟩

end Links

end SaltsUtils.Forest
