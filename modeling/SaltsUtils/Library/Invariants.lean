import Mathlib.Data.List.Basic
import Mathlib.Logic.Relation

/-!
# Invariants of steps, events and sweeps
-/

set_option autoImplicit false

/-!
## Monitors

A monitor reads a list of events from left to right.
-/

namespace SaltsUtils

structure Monitor (μ ε : Type*) where
  step : μ → ε → μ
  allowed : μ → ε → Prop

namespace Monitor
variable {μ ε : Type*} (m : Monitor μ ε)

/-- The state after the events of a list. -/
def run (s : μ) (l : List ε) : μ := l.foldl m.step s

/-- Every event of the list is allowed where it stands. -/
def Accepts : μ → List ε → Prop
  | _, [] => True
  | s, e::l => m.allowed s e ∧ Accepts (m.step s e) l

theorem run_append (s : μ) (l₁ l₂ : List ε) : m.run s (l₁ ++ l₂) = m.run (m.run s l₁) l₂ :=
  List.foldl_append

theorem accepts_append (s : μ) (l₁ l₂ : List ε) :
    m.Accepts s (l₁ ++ l₂) ↔ m.Accepts s l₁ ∧ m.Accepts (m.run s l₁) l₂ := by
  induction l₁ generalizing s with
  | nil => simp [Accepts, run]
  | cons e l₁ ih => simp [Accepts, run, ih, and_assoc]

theorem run_snoc (s : μ) (l : List ε) (e : ε) : m.run s (l ++ [e]) = m.step (m.run s l) e := by
  rw [run_append]
  rfl

theorem accepts_snoc (s : μ) (l : List ε) (e : ε) :
    m.Accepts s (l ++ [e]) ↔ m.Accepts s l ∧ m.allowed (m.run s l) e := by
  rw [accepts_append]
  simp [Accepts]

/-- An accepted event is allowed in the state that the events before it leave. -/
theorem allowed_of_accepts {s : μ} {l₁ l₂ : List ε} {e : ε} (h : m.Accepts s (l₁ ++ e::l₂)) :
    m.allowed (m.run s l₁) e :=
  ((m.accepts_append s l₁ (e::l₂)).mp h).2.1

end Monitor

end SaltsUtils

/-!
## Sweeps over a table until nothing changes

A table is a list whose entries are recomputed from the whole table.
-/

namespace SaltsUtils.Sweep

variable {α ρ : Type*}

/-- Repeats a step until it changes nothing, for a bounded number of rounds. -/
def settle [DecidableEq α] (step : α → α) : ℕ → α → Option α
  | 0, _ => none
  | fuel + 1, a => if step a = a then some a else settle step fuel (step a)

theorem settle_invariant [DecidableEq α] {step : α → α} {P : α → Prop} {fuel : ℕ} {a b : α}
    (h : settle step fuel a = some b) (ha : P a) (hstep : ∀ x, P x → P (step x)) : P b := by
  induction fuel generalizing a with
  | zero => cases h
  | succ fuel ih =>
    rw [settle] at h
    split_ifs at h with hs
    · cases h
      exact ha
    · exact ih h (hstep a ha)

/-- Recomputes `n` entries from the position `i` on. -/
def sweepFrom (f : List ρ → ρ → ρ) : ℕ → ℕ → List ρ → List ρ
  | 0, _, table => table
  | n + 1, i, table => sweepFrom f n (i + 1) (table.modify i (f table))

def sweep (f : List ρ → ρ → ρ) (table : List ρ) : List ρ := sweepFrom f table.length 0 table

variable {f : List ρ → ρ → ρ} {P : List ρ → Prop}

theorem sweepFrom_invariant (n i : ℕ) {table : List ρ} (h : P table)
    (hstep : ∀ i t, P t → P (t.modify i (f t))) : P (sweepFrom f n i table) := by
  induction n generalizing i table with
  | zero => exact h
  | succ n ih => exact ih (i + 1) (hstep i table h)

theorem sweep_invariant {table : List ρ} (h : P table)
    (hstep : ∀ i t, P t → P (t.modify i (f t))) : P (sweep f table) :=
  sweepFrom_invariant table.length 0 h hstep

end SaltsUtils.Sweep
