import Mathlib.Tactic

/-!
# Objects with one owner

Objects are joined by labelled edges, at most one for each object and label.
-/

set_option autoImplicit false

namespace SaltsUtils.Owners

variable {N K : Type*}

/-- Where a path of labels leads. -/
def follow (edge : N → K → Option N) : N → List K → Option N
  | n, [] => some n
  | n, k :: ks => (edge n k).bind (fun m => follow edge m ks)

example (edge : N → K → Option N) (n : N) : follow edge n [] = some n := by rw [follow]

def Exclusive (edge : N → K → Option N) : Prop :=
  ∀ {n n' m : N} {k k' : K}, edge n k = some m → edge n' k' = some m → n = n' ∧ k = k'

def Orphan (edge : N → K → Option N) (m : N) : Prop := ∀ n k, edge n k ≠ some m

def Grows (edge edge' : N → K → Option N) : Prop :=
  ∀ {n m : N} {k : K}, edge n k = some m → edge' n k = some m

/-- The old objects keep their edges, and no other object points to an old one. -/
structure Apart (old : N → Prop) (edge edge' : N → K → Option N) : Prop where
  same : ∀ {n : N} (k : K), old n → edge' n k = edge n k
  fresh : ∀ {n m : N} {k : K}, ¬ old n → edge' n k = some m → ¬ old m

variable {edge edge' edge'' : N → K → Option N}

theorem follow_append (n : N) (ks ks' : List K) :
    follow edge n (ks ++ ks') = (follow edge n ks).bind (fun m => follow edge m ks') := by
  induction ks generalizing n with
  | nil => rfl
  | cons k ks ih =>
    rw [List.cons_append, follow, follow]
    cases edge n k with
    | none => rfl
    | some m => exact ih m

theorem follow_concat (n : N) (ks : List K) (k : K) :
    follow edge n (ks ++ [k]) = (follow edge n ks).bind (fun m => edge m k) := by
  rw [follow_append]
  congr
  funext m
  exact Option.bind_fun_some (edge m k)

theorem Grows.refl : Grows edge edge := fun h => h

theorem Grows.follow (h : Grows edge edge') {n m : N} {ks : List K}
    (hf : follow edge n ks = some m) : follow edge' n ks = some m := by
  induction ks generalizing n with
  | nil => exact hf
  | cons k ks ih =>
    obtain ⟨l, hl, hf⟩ := Option.bind_eq_some_iff.mp hf
    rw [Owners.follow, h hl]
    exact ih hf

/-- The induction is on the path from its end: the last edges are one, and so are the
paths before them. -/
theorem follow_unique (hx : Exclusive edge) {root m : N} (hr : Orphan edge root) {ks ks' : List K}
    (h : follow edge root ks = some m) (h' : follow edge root ks' = some m) : ks = ks' := by
  induction ks using List.reverseRecOn generalizing m ks' with
  | nil =>
    obtain rfl : root = m := Option.some.inj h
    rcases List.eq_nil_or_concat ks' with rfl | ⟨ls, l, rfl⟩
    · rfl
    · rw [List.concat_eq_append, follow_concat] at h'
      obtain ⟨n, -, hn⟩ := Option.bind_eq_some_iff.mp h'
      exact absurd hn (hr n l)
  | append_singleton ks k ih =>
    rw [follow_concat] at h
    obtain ⟨n, hn, hk⟩ := Option.bind_eq_some_iff.mp h
    rcases List.eq_nil_or_concat ks' with rfl | ⟨ls, l, rfl⟩
    · obtain rfl : root = m := Option.some.inj h'
      exact absurd hk (hr n k)
    · rw [List.concat_eq_append, follow_concat] at h'
      obtain ⟨n', hn', hl⟩ := Option.bind_eq_some_iff.mp h'
      obtain ⟨rfl, rfl⟩ := hx hk hl
      rw [ih hn hn', List.concat_eq_append]

def Inside (edge : N → K → Option N) (n m : N) : Prop := ∃ ks, follow edge n ks = some m

theorem inside_self (n : N) : Inside edge n n := ⟨[], rfl⟩

theorem Inside.head {n l m : N} {k : K} (he : edge n k = some l) (h : Inside edge l m) :
    Inside edge n m := by
  obtain ⟨ks, h⟩ := h
  refine ⟨k :: ks, ?_⟩
  rw [follow, he]
  exact h

theorem Inside.trans {n l m : N} (h : Inside edge n l) (h' : Inside edge l m) :
    Inside edge n m := by
  obtain ⟨ks, h⟩ := h
  obtain ⟨ks', h'⟩ := h'
  refine ⟨ks ++ ks', ?_⟩
  rw [follow_append, h]
  exact h'

theorem Inside.closed {P : N → Prop} {n m : N} (h : Inside edge n m) (hn : P n)
    (hp : ∀ {n m : N} {k : K}, P n → edge n k = some m → P m) : P m := by
  obtain ⟨ks, h⟩ := h
  induction ks generalizing n with
  | nil =>
    obtain rfl := Option.some.inj h
    exact hn
  | cons k ks ih =>
    obtain ⟨l, hl, h⟩ := Option.bind_eq_some_iff.mp h
    exact ih (hp hn hl) h

/-- Nothing leads to an object that nothing points to but itself. -/
theorem Inside.orphan {n m : N} (h : Inside edge n m) (hm : Orphan edge m) : m = n := by
  obtain ⟨ks, h⟩ := h
  rcases List.eq_nil_or_concat ks with rfl | ⟨ls, l, rfl⟩
  · exact (Option.some.inj h).symm
  · rw [List.concat_eq_append, follow_concat] at h
    obtain ⟨a, -, ha⟩ := Option.bind_eq_some_iff.mp h
    exact absurd ha (hm a l)

/-- Where the edges of what can be reached are the same, so are the paths. -/
theorem follow_congr {n : N} (h : ∀ m, Inside edge n m → ∀ k, edge' m k = edge m k)
    (ks : List K) : follow edge' n ks = follow edge n ks := by
  induction ks generalizing n with
  | nil => rfl
  | cons k ks ih =>
    rw [follow, follow, h n (inside_self n) k]
    cases he : edge n k with
    | none => rfl
    | some l => exact ih fun m hm => h m (hm.head he)

theorem inside_congr {n m : N} (h : ∀ m, Inside edge n m → ∀ k, edge' m k = edge m k) :
    Inside edge' n m ↔ Inside edge n m := by
  unfold Inside
  simp only [follow_congr h]

theorem Apart.outside {old : N → Prop} (h : Apart old edge edge') {n m : N} (hn : ¬ old n)
    (hm : Inside edge' n m) : ¬ old m :=
  hm.closed (P := fun n => ¬ old n) hn fun hn he => h.fresh hn he

section Attach
variable [DecidableEq N] [DecidableEq K]

def attach (edge : N → K → Option N) (a : N) (l : K) (o : N) : N → K → Option N :=
  fun n k => if n = a ∧ k = l then some o else edge n k

variable {a o : N} {l : K}

theorem attach_self : attach edge a l o a l = some o := if_pos ⟨rfl, rfl⟩

theorem attach_cases {n m : N} {k : K} (h : attach edge a l o n k = some m) :
    n = a ∧ k = l ∧ m = o ∨ edge n k = some m := by
  unfold attach at h
  split at h
  · next hn => exact Or.inl ⟨hn.1, hn.2, (Option.some.inj h).symm⟩
  · exact Or.inr h

theorem grows_attach (hl : edge a l = none) : Grows edge (attach edge a l o) := by
  intro n m k h
  unfold attach
  split
  · next hn =>
    rw [hn.1, hn.2, hl] at h
    cases h
  · exact h

theorem Exclusive.attach (hx : Exclusive edge) (ho : Orphan edge o) :
    Exclusive (attach edge a l o) := by
  intro n n' m k k' h h'
  rcases attach_cases h with ⟨hn, hk, hm⟩ | h
  · rcases attach_cases h' with ⟨hn', hk', -⟩ | h'
    · exact ⟨hn.trans hn'.symm, hk.trans hk'.symm⟩
    · exact absurd (hm ▸ h') (ho n' k')
  · rcases attach_cases h' with ⟨-, -, hm⟩ | h'
    · exact absurd (hm ▸ h) (ho n k)
    · exact hx h h'

theorem Orphan.attach {m : N} (hm : Orphan edge m) (hne : m ≠ o) :
    Orphan (attach edge a l o) m := by
  intro n k h
  rcases attach_cases h with ⟨-, -, rfl⟩ | h
  · exact hne rfl
  · exact hm n k h

/-- A path that is not one of the old edges goes through the new edge. -/
theorem follow_attach {n m : N} {ks : List K} (h : follow (attach edge a l o) n ks = some m) :
    follow edge n ks = some m ∨ ∃ ks₁ ks₂, ks = ks₁ ++ l :: ks₂ ∧ follow edge n ks₁ = some a ∧
      follow (attach edge a l o) o ks₂ = some m := by
  induction ks generalizing n with
  | nil => exact .inl h
  | cons k ks ih =>
    obtain ⟨b, hb, h⟩ := Option.bind_eq_some_iff.mp h
    rcases attach_cases hb with ⟨rfl, rfl, rfl⟩ | hb
    · exact .inr ⟨[], ks, rfl, rfl, h⟩
    · rcases ih h with h | ⟨ks₁, ks₂, rfl, h₁, h₂⟩
      · left
        rw [follow, hb]
        exact h
      · refine .inr ⟨k :: ks₁, ks₂, rfl, ?_, h₂⟩
        rw [follow, hb]
        exact h₁

theorem Apart.attach {old : N → Prop} (h : Apart old edge edge') (ha : ¬ old a) (ho : ¬ old o) :
    Apart old edge (attach edge' a l o) where
  same := by
    intro n k hn
    have hne : ¬ (n = a ∧ k = l) := by
      rintro ⟨rfl, -⟩
      exact ha hn
    exact (if_neg hne).trans (h.same k hn)
  fresh := by
    intro n m k hn hm
    rcases attach_cases hm with ⟨-, -, rfl⟩ | hm
    · exact ho
    · exact h.fresh hn hm

end Attach

theorem Apart.trans {old old' : N → Prop} (h : Apart old edge edge') (h' : Apart old' edge' edge'')
    (hle : ∀ n, old n → old' n) : Apart old edge edge'' where
  same := fun k hn => (h'.same k (hle _ hn)).trans (h.same k hn)
  fresh := by
    intro n m k hn hm
    by_cases hn' : old' n
    · rw [h'.same k hn'] at hm
      exact h.fresh hn hm
    · exact fun ho => h'.fresh hn' hm (hle m ho)

end SaltsUtils.Owners
