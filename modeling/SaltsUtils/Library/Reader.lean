import Mathlib.Data.List.Basic
import Mathlib.Tactic

/-!
# Reading a text piece by piece

A reader takes a piece off the front of a text.
-/

set_option autoImplicit false

namespace SaltsUtils

variable {α : Type*}

structure Reader (α : Type*) where
  next : List α → List α × List α
  whole : ∀ text, (next text).1 ++ (next text).2 = text
  moves : ∀ text, text ≠ [] → (next text).1 ≠ []

namespace Reader

variable (R L : Reader α)

/-- The pieces of a text, `n` of them at most. -/
def pieces : ℕ → List α → List (List α)
  | 0, _ => []
  | n + 1, text =>
    match text with
    | [] => []
    | _::_ => (R.next text).1::pieces n (R.next text).2

def all (text : List α) : List (List α) := R.pieces text.length text

variable {R L} {text : List α}

theorem length_next (h : text ≠ []) : (R.next text).2.length < text.length := by
  have hw := congrArg List.length (R.whole text)
  have hm := List.length_pos_of_ne_nil (R.moves text h)
  rw [List.length_append] at hw
  omega

theorem pieces_enough : ∀ {n m : ℕ} {text : List α}, text.length ≤ n → text.length ≤ m →
    R.pieces n text = R.pieces m text
  | 0, 0, _, _, _ => rfl
  | 0, _ + 1, text, hn, _ | _ + 1, 0, text, _, hn => by
    obtain rfl := List.eq_nil_of_length_eq_zero (Nat.le_zero.mp hn)
    rfl
  | n + 1, m + 1, text, hn, hm => by
    cases text with
    | nil => rfl
    | cons a text =>
      have hl := length_next (R := R) (List.cons_ne_nil a text)
      simp only [pieces]
      rw [pieces_enough (n := n) (m := m) (by omega) (by omega)]

@[simp] theorem all_nil : R.all [] = [] := rfl

theorem all_step (h : text ≠ []) : R.all text = (R.next text).1::R.all (R.next text).2 := by
  have hl := length_next (R := R) h
  cases text with
  | nil => contradiction
  | cons a text =>
    simp only [all, List.length_cons, pieces]
    rw [List.length_cons] at hl
    rw [pieces_enough (n := text.length) (by omega) le_rfl]

theorem flatten_all (text : List α) : (R.all text).flatten = text := by
  induction hn : text.length using Nat.strong_induction_on generalizing text with
  | _ n ih =>
    rcases eq_or_ne text [] with rfl | h
    · rfl
    · rw [all_step h, List.flatten_cons, ih _ (hn ▸ length_next h) _ rfl, R.whole]

theorem forall_all {p : List α → Prop} (h : ∀ text, text ≠ [] → p (R.next text).1)
    (text : List α) : ∀ piece ∈ R.all text, p piece := by
  induction hn : text.length using Nat.strong_induction_on generalizing text with
  | _ n ih =>
    rcases eq_or_ne text [] with rfl | hne
    · exact List.forall_mem_nil _
    · rw [all_step hne]
      exact List.forall_mem_cons.mpr ⟨h text hne, ih _ (hn ▸ length_next hne) _ rfl⟩

/-- The reader takes what is left of the other's piece before it looks any further. -/
def Within (R L : Reader α) : Prop :=
  ∀ text, text ≠ [] →
    (R.next text).1 = (R.next (L.next text).1).1 ∧
    (R.next text).2 = (R.next (L.next text).1).2 ++ (L.next text).2 ∧
    ((R.next (L.next text).1).2 ≠ [] →
      L.next ((R.next (L.next text).1).2 ++ (L.next text).2) =
        ((R.next (L.next text).1).2, (L.next text).2))

theorem all_within (h : R.Within L) (text : List α) : R.all text = (L.all text).flatMap R.all := by
  induction hn : text.length using Nat.strong_induction_on generalizing text with
  | _ n ih =>
    rcases eq_or_ne text [] with rfl | hne
    · rfl
    · obtain ⟨hfirst, hrest, hleft⟩ := h text hne
      have hl := hn ▸ length_next (R := R) hne
      rw [all_step hne, all_step (R := L) hne, List.flatMap_cons, hfirst,
        all_step (L.moves text hne), List.cons_append, ih _ hl _ rfl, hrest]
      rcases eq_or_ne (R.next (L.next text).1).2 [] with hs | hs
      · rw [hs, List.nil_append, all_nil, List.nil_append]
      · rw [all_step (R := L) (List.append_ne_nil_of_left_ne_nil hs _), hleft hs,
          List.flatMap_cons]

end Reader

end SaltsUtils
