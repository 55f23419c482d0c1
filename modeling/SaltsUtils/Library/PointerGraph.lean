import Mathlib.Data.Finset.Card
import Mathlib.Data.Fintype.Card

/-!
# Walks of pointer graphs

A node of a pointer graph has an ordered list of children, and may have a successor in a
linked list.
-/

set_option autoImplicit false

namespace SaltsUtils.PointerGraph

section
variable {P : Type*} {next : P → Option P}

/-- The nodes of a linked list between two pointers. -/
inductive Segment (next : P → Option P) : Option P → List P → Option P → Prop where
  | nil (p : Option P) : Segment next p [] p
  | cons {p : P} {l : List P} {stop : Option P} (h : Segment next (next p) l stop) :
      Segment next (some p) (p :: l) stop

/-- The pointer after so many steps. -/
def nth (next : P → Option P) : Option P → ℕ → Option P
  | head, 0 => head
  | head, i + 1 => (nth next head i).bind next

theorem nth_some (p : P) (i : ℕ) : nth next (some p) (i + 1) = nth next (next p) i := by
  induction i with
  | zero => rfl
  | succ i ih => exact congrArg (Option.bind · next) ih

theorem nth_none (i : ℕ) : nth next none i = none := by
  induction i with
  | zero => rfl
  | succ i ih => exact congrArg (Option.bind · next) ih

theorem Segment.nth_eq {head : Option P} {l : List P} (h : Segment next head l none) (i : ℕ) :
    nth next head i = l[i]? := by
  generalize hs : (none : Option P) = stop at h
  induction h generalizing i with
  | nil p => rw [← hs, nth_none, List.getElem?_nil]
  | @cons p l stop h ih =>
    cases i with
    | zero => rfl
    | succ i => rw [nth_some, ih i hs, List.getElem?_cons_succ]

theorem Segment.snoc {head : Option P} {l : List P} {p : P}
    (h : Segment next head l (some p)) : Segment next head (l ++ [p]) (next p) := by
  generalize hs : some p = stop at h
  induction h with
  | nil q =>
    rw [← hs]
    exact .cons (.nil _)
  | cons _ ih => exact .cons (ih hs)

end

section
variable {P : Type*} {child : P → ℕ → Option P}

/-- Where a path of child numbers leads. -/
def follow (child : P → ℕ → Option P) : P → List ℕ → Option P
  | p, [] => some p
  | p, i :: path => (child p i).bind fun c => follow child c path

def descend (child : P → ℕ → Option P) (roots : List P) (i : ℕ) (path : List ℕ) : Option P :=
  roots[i]?.bind fun p => follow child p path

variable {Fine : ℕ → P → Prop} {depth : ℕ} {before middle after : Finset P}

/-- A walk from its roots has seen new nodes only, and each by one path. -/
structure Walked (child : P → ℕ → Option P) (Fine : ℕ → P → Prop) (depth : ℕ) (roots : List P)
    (before after : Finset P) : Prop where
  grows : before ⊆ after
  found : ∀ i path q, descend child roots i path = some q →
    q ∈ after ∧ q ∉ before ∧ Fine (depth + path.length) q
  once : ∀ i path j path' q, descend child roots i path = some q →
    descend child roots j path' = some q → i = j ∧ path = path'

namespace Walked

theorem nil (before : Finset P) : Walked child Fine depth [] before before := by
  refine ⟨Finset.Subset.refl _, fun i path q h => ?_, fun i path j path' q h => ?_⟩ <;> cases h

/-- The nodes of a root and those of the roots after it are not the same. -/
theorem cons {p : P} {roots : List P} (hp : Walked child Fine depth [p] before middle)
    (hr : Walked child Fine depth roots middle after) :
    Walked child Fine depth (p :: roots) before after := by
  have hfirst : ∀ path q, descend child (p :: roots) 0 path = some q →
      descend child [p] 0 path = some q := fun path q h => h
  have hrest : ∀ i path q, descend child (p :: roots) (i + 1) path = some q →
      descend child roots i path = some q := fun i path q h => h
  refine ⟨hp.grows.trans hr.grows, ?_, ?_⟩
  · intro i path q h
    cases i with
    | zero =>
      obtain ⟨hin, hout, hfine⟩ := hp.found 0 path q (hfirst path q h)
      exact ⟨hr.grows hin, hout, hfine⟩
    | succ i =>
      obtain ⟨hin, hout, hfine⟩ := hr.found i path q (hrest i path q h)
      exact ⟨hin, fun hq => hout (hp.grows hq), hfine⟩
  · intro i path j path' q h h'
    cases i with
    | zero =>
      cases j with
      | zero => exact hp.once 0 path 0 path' q (hfirst path q h) (hfirst path' q h')
      | succ j =>
        have hin := (hp.found 0 path q (hfirst path q h)).1
        exact absurd hin (hr.found j path' q (hrest j path' q h')).2.1
    | succ i =>
      cases j with
      | zero =>
        have hin := (hp.found 0 path' q (hfirst path' q h')).1
        exact absurd hin (hr.found i path q (hrest i path q h)).2.1
      | succ j =>
        obtain ⟨hij, hpath⟩ := hr.once i path j path' q (hrest i path q h) (hrest j path' q h')
        exact ⟨congrArg (· + 1) hij, hpath⟩

/-- A node is walked when it is new and its children are walked after it is marked. -/
theorem node [DecidableEq P] {p : P} {kids : List P} (hkids : ∀ i, child p i = kids[i]?)
    (hp : p ∉ before)
    (hfine : Fine depth p) (h : Walked child Fine (depth + 1) kids (insert p before) after) :
    Walked child Fine depth [p] before after := by
  have hmark : p ∈ after := h.grows (Finset.mem_insert_self p before)
  have hbelow : ∀ i path q, follow child p (i :: path) = some q →
      descend child kids i path = some q := by
    intro i path q hq
    rw [follow, hkids] at hq
    exact hq
  have hroot : ∀ i path q, descend child [p] i path = some q → i = 0 ∧ follow child p path =
    some q := by
    intro i path q hq
    cases i with
    | zero => exact ⟨rfl, hq⟩
    | succ i => cases hq
  refine ⟨(Finset.subset_insert p before).trans h.grows, ?_, ?_⟩
  · intro i path q hq
    obtain ⟨-, hq⟩ := hroot i path q hq
    cases path with
    | nil =>
      cases hq
      exact ⟨hmark, hp, hfine⟩
    | cons i path =>
      obtain ⟨hin, hout, hdeep⟩ := h.found i path q (hbelow i path q hq)
      refine ⟨hin, fun hmem => hout (Finset.mem_insert_of_mem hmem), ?_⟩
      rw [List.length_cons, Nat.add_comm path.length 1, ← Nat.add_assoc]
      exact hdeep
  · intro i path j path' q hq hq'
    obtain ⟨rfl, hq⟩ := hroot i path q hq
    obtain ⟨rfl, hq'⟩ := hroot j path' q hq'
    refine ⟨rfl, ?_⟩
    have hnot : ∀ i path, follow child p (i :: path) ≠ some p := fun i path hpath =>
      (h.found i path p (hbelow i path p hpath)).2.1 (Finset.mem_insert_self p before)
    cases path with
    | nil =>
      cases hq
      cases path' with
      | nil => rfl
      | cons j path' => exact absurd hq' (hnot j path')
    | cons i path =>
      cases path' with
      | nil =>
        cases hq'
        exact absurd hq (hnot i path)
      | cons j path' =>
        obtain ⟨hij, hpath⟩ := h.once i path j path' q (hbelow i path q hq) (hbelow j path' q hq')
        rw [hij, hpath]

theorem root_mem {p : P} (h : Walked child Fine depth [p] before after) :
    p ∈ after ∧ p ∉ before := by
  obtain ⟨hin, hout, -⟩ := h.found 0 [] p rfl
  exact ⟨hin, hout⟩

/-- A walk from a root marks at least one more node. -/
theorem card_lt {p : P} (h : Walked child Fine depth [p] before after) : before.card < after.card :=
  Finset.card_lt_card (Finset.ssubset_iff_of_subset h.grows |>.mpr
    ⟨p, h.root_mem.1, h.root_mem.2⟩)

end Walked

end

end SaltsUtils.PointerGraph
