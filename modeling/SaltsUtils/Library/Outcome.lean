import Mathlib.Data.Int.Basic
import Mathlib.Data.List.Forall2

/-!
# Computations that may fail

A computation in `Except` that ends well is taken apart here, one bind, one map
or one guard at a time.
-/

set_option autoImplicit false

namespace SaltsUtils

variable {ε α β : Type}

theorem bind_eq_ok {x : Except ε α} {f : α → Except ε β} {b : β} :
    (x >>= f) = .ok b ↔ ∃ a, x = .ok a ∧ f a = .ok b := by
  cases x with
  | error e =>
    constructor
    · intro h
      cases h
    · rintro ⟨a, h, -⟩
      cases h
  | ok a =>
    constructor
    · intro h
      exact ⟨a, rfl, h⟩
    · rintro ⟨a', h, h'⟩
      cases h
      exact h'

theorem bind_eq_error {x : Except ε α} {f : α → Except ε β} {e : ε} :
    (x >>= f) = .error e ↔ x = .error e ∨ ∃ a, x = .ok a ∧ f a = .error e := by
  cases x with
  | error e' => simp [bind, Except.bind]
  | ok a => simp [bind, Except.bind]

theorem map_eq_ok {x : Except ε α} {f : α → β} {b : β} :
    x.map f = .ok b ↔ ∃ a, x = .ok a ∧ f a = b := by
  cases x with
  | error e => simp [Except.map]
  | ok a => simp [Except.map]

/-- A guard that fails with an error was passed. -/
theorem guard_eq_ok {c : Prop} [Decidable c] {e : ε} {x : Except ε α} {a : α} :
    (if c then .error e else x) = .ok a ↔ ¬ c ∧ x = .ok a := by
  by_cases h : c <;> simp [h]

/-- A list of computations that all end well. -/
theorem mapM_eq_ok {f : α → Except ε β} {l : List α} {l' : List β} (h : l.mapM f = .ok l') :
    List.Forall₂ (fun a b => f a = .ok b) l l' := by
  induction l generalizing l' with
  | nil =>
    cases h
    exact .nil
  | cons a l ih =>
    rw [List.mapM_cons, bind_eq_ok] at h
    obtain ⟨b, hb, h⟩ := h
    rw [bind_eq_ok] at h
    obtain ⟨bs, hbs, h⟩ := h
    cases h
    exact .cons hb (ih hbs)

theorem mapM_eq_some {f : α → Option β} {l : List α} {l' : List β} (h : l.mapM f = some l') :
    List.Forall₂ (fun a b => f a = some b) l l' := by
  induction l generalizing l' with
  | nil =>
    cases h
    exact .nil
  | cons a l ih =>
    rw [List.mapM_cons] at h
    obtain ⟨b, hb, h⟩ := Option.bind_eq_some_iff.mp h
    obtain ⟨bs, hbs, h⟩ := Option.bind_eq_some_iff.mp h
    cases h
    exact .cons hb (ih hbs)

/-- The computation ends with a result in `Q` or an error in `E`. -/
def Meets (E : ε → Prop) (Q : α → Prop) : Except ε α → Prop
  | .ok a => Q a
  | .error e => E e

section
variable {E : ε → Prop} {Q : α → Prop} {x : Except ε α}

theorem Meets.of_ok {a : α} (h : Meets E Q x) (hx : x = .ok a) : Q a := by
  rw [hx] at h
  exact h

theorem Meets.of_error {e : ε} (h : Meets E Q x) (hx : x = .error e) : E e := by
  rw [hx] at h
  exact h

theorem Meets.mono {Q' : α → Prop} (h : Meets E Q x) (hq : ∀ a, Q a → Q' a) : Meets E Q' x := by
  cases x with
  | error e => exact h
  | ok a => exact hq a h

theorem Meets.weaken {E' : ε → Prop} (h : Meets E Q x) (he : ∀ e, E e → E' e) : Meets E' Q x := by
  cases x with
  | error e => exact he e h
  | ok a => exact h

theorem Meets.bind {R : β → Prop} {f : α → Except ε β} (h : Meets E Q x)
    (hf : ∀ a, Q a → Meets E R (f a)) : Meets E R (x.bind f) := by
  cases x with
  | error e => exact h
  | ok a => exact hf a h

theorem Meets.map {R : β → Prop} {f : α → β} (h : Meets E Q x) (hf : ∀ a, Q a → R (f a)) :
    Meets E R (x.map f) := by
  cases x with
  | error e => exact h
  | ok a => exact hf a h

end

theorem forM_eq_ok {f : α → Except ε Unit} {l : List α} (h : l.forM f = .ok ()) :
    ∀ a ∈ l, f a = .ok () := by
  induction l with
  | nil => simp
  | cons a l ih =>
    change (f a >>= fun _ => l.forM f) = _ at h
    rw [bind_eq_ok] at h
    obtain ⟨u, hu, h⟩ := h
    exact List.forall_mem_cons.mpr ⟨hu, ih h⟩

end SaltsUtils
