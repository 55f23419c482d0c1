import Mathlib.Tactic
import Mathlib.Order.Bounds.Basic

/-!
# One-pass dataflow on forward graphs

Nodes are numbers, every edge leads to a larger number, and one sweep in increasing order
pushes the value of each reached node to its successors, meeting values that arrive from
several predecessors.
-/

set_option autoImplicit false

namespace SaltsUtils.Library.ForwardFlow

structure Graph (L : Type*) where
  first : ℕ
  last : ℕ
  start : L
  succ : ℕ → List ℕ
  transfer : ℕ → L → L

variable {L : Type*}

variable (G : Graph L)

def Forward : Prop :=
  ∀ p, G.first ≤ p → p < G.last → ∀ q ∈ G.succ p, p < q ∧ q ≤ G.last

/-- Some path from the first node arrives at a node with the given value. -/
inductive Path (G : Graph L) : ℕ → L → Prop
  | start : Path G G.first G.start
  | step {p q : ℕ} {x : L} (h : Path G p x) (hp : p < G.last) (hq : q ∈ G.succ p) :
      Path G q (G.transfer p x)

theorem path_first_le (hf : Forward G) {q : ℕ} {x : L} (h : Path G q x) : G.first ≤ q := by
  induction h with
  | start => exact le_refl _
  | step _ hp hq ih => exact le_trans ih (le_of_lt (hf _ ih hp _ hq).1)

def Meets [Preorder L] (G : Graph L) : Prop :=
  ∀ p (s : Set L) x, s.Nonempty → IsGLB s x → IsGLB (G.transfer p '' s) (G.transfer p x)

/-- The values that reach `q` over an edge leaving a node below `k`. -/
def arrivals (k q : ℕ) : Set L :=
  {y | (q = G.first ∧ y = G.start) ∨
    ∃ p x, p < k ∧ p < G.last ∧ Path G p x ∧ q ∈ G.succ p ∧ y = G.transfer p x}

theorem arrivals_path (hf : Forward G) (k : ℕ) : arrivals G k k = {y | Path G k y} := by
  ext y
  constructor
  · rintro (⟨rfl, rfl⟩ | ⟨p, x, _, hp, h, hq, rfl⟩)
    · exact Path.start
    · exact Path.step h hp hq
  · intro h
    cases h with
    | start => exact Or.inl ⟨rfl, rfl⟩
    | @step p _ x h hp hq =>
      exact Or.inr ⟨p, x, (hf p (path_first_le G hf h) hp k hq).1, hp, h, hq, rfl⟩

theorem arrivals_mem_succ (k q : ℕ) (hk : k < G.last) (hq : q ∈ G.succ k) :
    arrivals G (k+1) q = arrivals G k q ∪ G.transfer k '' {x | Path G k x} := by
  ext y
  constructor
  · rintro (h | ⟨p, x, hpk, hp, h, hs, rfl⟩)
    · exact Or.inl (Or.inl h)
    · rcases Nat.lt_succ_iff_lt_or_eq.mp hpk with hlt | rfl
      · exact Or.inl (Or.inr ⟨p, x, hlt, hp, h, hs, rfl⟩)
      · exact Or.inr ⟨x, h, rfl⟩
  · rintro ((h | ⟨p, x, hpk, hp, h, hs, rfl⟩) | ⟨x, h, rfl⟩)
    · exact Or.inl h
    · exact Or.inr ⟨p, x, Nat.lt_succ_of_lt hpk, hp, h, hs, rfl⟩
    · exact Or.inr ⟨k, x, Nat.lt_succ_self k, hk, h, hq, rfl⟩

theorem arrivals_not_succ (k q : ℕ) (hn : q ∉ G.succ k ∨ ¬ ∃ x, Path G k x) :
    arrivals G (k+1) q = arrivals G k q := by
  ext y
  constructor
  · rintro (h | ⟨p, x, hpk, hp, h, hs, rfl⟩)
    · exact Or.inl h
    · rcases Nat.lt_succ_iff_lt_or_eq.mp hpk with hlt | rfl
      · exact Or.inr ⟨p, x, hlt, hp, h, hs, rfl⟩
      · rcases hn with hn | hn
        · exact absurd hs hn
        · exact absurd ⟨x, h⟩ hn
  · rintro (h | ⟨p, x, hpk, hp, h, hs, rfl⟩)
    · exact Or.inl h
    · exact Or.inr ⟨p, x, Nat.lt_succ_of_lt hpk, hp, h, hs, rfl⟩

section Sweep
variable [SemilatticeInf L]

def merge (q : ℕ) (x : L) (a : ℕ → Option L) : ℕ → Option L :=
  Function.update a q (match a q with | none => some x | some y => some (y ⊓ x))

def push (qs : List ℕ) (x : L) (a : ℕ → Option L) : ℕ → Option L :=
  qs.foldl (fun a q => merge q x a) a

/-- The table after the nodes below `k`: an entry is the meet of its arrivals,
and an entry is missing when nothing has arrived. -/
def Table (k : ℕ) (a : ℕ → Option L) : Prop :=
  ∀ q, match a q with
    | none => arrivals G k q = ∅
    | some x => (arrivals G k q).Nonempty ∧ IsGLB (arrivals G k q) x

theorem push_not_mem (qs : List ℕ) (x : L) (a : ℕ → Option L) (q : ℕ) (hq : q ∉ qs) :
    push qs x a q = a q := by
  induction qs generalizing a with
  | nil => rfl
  | cons r qs ih =>
    obtain ⟨hr, hrest⟩ := not_or.mp (fun h => hq (List.mem_cons.mpr h))
    rw [push, List.foldl_cons]
    exact (ih _ hrest).trans (Function.update_of_ne hr _ _)

theorem push_mem (qs : List ℕ) (x : L) (a : ℕ → Option L) (q : ℕ) (hq : q ∈ qs) :
    push qs x a q = match a q with | none => some x | some y => some (y ⊓ x) := by
  induction qs generalizing a with
  | nil => simp at hq
  | cons r qs ih =>
    rw [push, List.foldl_cons]
    change push qs x (merge r x a) q = _
    by_cases hr : q = r
    · subst hr
      by_cases hm : q ∈ qs
      · rw [ih _ hm]
        cases ha : a q <;> simp [merge, ha]
      · rw [push_not_mem qs x _ q hm]
        simp [merge]
    · have hm : q ∈ qs := by simpa [hr] using hq
      rw [ih _ hm, merge, Function.update_of_ne hr]

theorem table_push (hf : Forward G) (hd : Meets G) (k : ℕ) (hk : k < G.last) (a : ℕ → Option L)
    (ha : Table G k a) (x : L) (hx : a k = some x) :
    Table G (k+1) (push (G.succ k) (G.transfer k x) a) := by
  have hself := ha k
  rw [hx] at hself
  simp only [arrivals_path G hf k] at hself
  have himage := hd k _ x hself.1 hself.2
  intro q
  have hold := ha q
  by_cases hq : q ∈ G.succ k
  · rw [push_mem _ _ _ q hq, arrivals_mem_succ G k q hk hq]
    cases hy : a q with
    | none =>
      rw [hy] at hold
      simp only [hold, Set.empty_union]
      exact ⟨hself.1.image _, himage⟩
    | some y =>
      rw [hy] at hold
      exact ⟨hold.1.inl, hold.2.union himage⟩
  · rw [push_not_mem _ _ _ q hq, arrivals_not_succ G k q (Or.inl hq)]
    exact hold

theorem table_skip (hf : Forward G) (k : ℕ) (a : ℕ → Option L) (ha : Table G k a) (hx : a k = none) :
    Table G (k+1) a := by
  have hself := ha k
  rw [hx] at hself
  simp only [arrivals_path G hf k] at hself
  intro q
  rw [arrivals_not_succ G k q (Or.inr (by
    rintro ⟨x, h⟩
    exact (hself ▸ h : x ∈ (∅ : Set L))))]
  exact ha q

theorem table_start (hf : Forward G) (a : ℕ → Option L)
    (ha : a = fun q => if q = G.first then some G.start else none) : Table G G.first a := by
  intro q
  have hset : arrivals G G.first q = {y | q = G.first ∧ y = G.start} := by
    ext y
    constructor
    · rintro (h | ⟨p, x, hpk, hp, h, _, _⟩)
      · exact h
      · exact absurd (path_first_le G hf h) (Nat.not_le.mpr hpk)
    · exact Or.inl
  rw [hset, ha]
  by_cases hq : q = G.first
  · simp [hq]
  · simp [hq]

/-- When the sweep arrives at a node, its entry is the meet over all paths to it. -/
theorem table_node (hf : Forward G) (k : ℕ) (a : ℕ → Option L) (ha : Table G k a) :
    match a k with
    | none => ¬ ∃ x, Path G k x
    | some x => (∃ y, Path G k y) ∧ IsGLB {y | Path G k y} x := by
  have h := ha k
  simp only [arrivals_path G hf] at h
  cases hx : a k with
  | none =>
    rw [hx] at h
    rintro ⟨x, hp⟩
    exact (h ▸ hp : x ∈ (∅ : Set L))
  | some x =>
    rw [hx] at h
    exact h

end Sweep

end SaltsUtils.Library.ForwardFlow
