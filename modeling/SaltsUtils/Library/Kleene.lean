import Mathlib.Data.List.Basic

/-!
# Three-valued formulas and short-circuit evaluation

A formula over atoms has a value in Kleene's strong logic.
-/

set_option autoImplicit false

namespace SaltsUtils.Kleene

inductive Truth where
  | no
  | unknown
  | yes
  deriving DecidableEq

inductive Connective where
  | and
  | or
  deriving DecidableEq

namespace Truth

def ofBool (b : Bool) : Truth := if b then yes else no

def not : Truth → Truth
  | no => yes
  | unknown => unknown
  | yes => no

def and : Truth → Truth → Truth
  | no, _ => no
  | _, no => no
  | yes, yes => yes
  | _, _ => unknown

def or : Truth → Truth → Truth
  | yes, _ => yes
  | _, yes => yes
  | no, no => no
  | _, _ => unknown

end Truth

namespace Connective

def apply : Connective → Truth → Truth → Truth
  | and => Truth.and
  | or => Truth.or

/-- The operand that settles the result alone. -/
def settling : Connective → Truth
  | and => .no
  | or => .yes

@[simp] theorem apply_settling (c : Connective) (t : Truth) :
    c.apply c.settling t = c.settling := by
  cases c <;> cases t <;> rfl

end Connective

inductive Formula (α : Type) where
  | atom (a : α)
  | join (c : Connective) (f g : Formula α)
  | not (f : Formula α)
  deriving DecidableEq

namespace Formula

variable {α β γ σ ε : Type}

def value (v : α → Truth) : Formula α → Truth
  | atom a => v a
  | join c f g => c.apply (f.value v) (g.value v)
  | not f => (f.value v).not

def depth : Formula α → ℕ
  | atom _ => 1
  | join _ f g => 1 + max f.depth g.depth
  | not f => f.depth + 1

def atoms : Formula α → List α
  | atom a => [a]
  | join _ f g => f.atoms ++ g.atoms
  | not f => f.atoms

def size : Formula α → ℕ
  | atom _ => 1
  | join _ f g => f.size + g.size + 1
  | not f => f.size + 1

def map (h : α → β) : Formula α → Formula β
  | atom a => atom (h a)
  | join c f g => join c (f.map h) (g.map h)
  | not f => not (f.map h)

@[simp] theorem depth_map (h : α → β) (f : Formula α) : (f.map h).depth = f.depth := by
  induction f with
  | atom a => rfl
  | join c f g ihf ihg => simp only [map, depth, ihf, ihg]
  | not f ih => simp only [map, depth, ih]

@[simp] theorem size_map (h : α → β) (f : Formula α) : (f.map h).size = f.size := by
  induction f with
  | atom a => rfl
  | join c f g ihf ihg => simp only [map, size, ihf, ihg]
  | not f ih => simp only [map, size, ih]

@[simp] theorem atoms_map (h : α → β) (f : Formula α) : (f.map h).atoms = f.atoms.map h := by
  induction f with
  | atom a => rfl
  | join c f g ihf ihg => simp only [map, atoms, List.map_append, ihf, ihg]
  | not f ih => simp only [map, atoms, ih]

inductive Rel (R : α → β → Prop) : Formula α → Formula β → Prop where
  | atom {a : α} {b : β} (h : R a b) : Rel R (atom a) (atom b)
  | join (c : Connective) {f g : Formula α} {f' g' : Formula β} (hf : Rel R f f')
      (hg : Rel R g g') : Rel R (join c f g) (join c f' g')
  | not {f : Formula α} {f' : Formula β} (hf : Rel R f f') : Rel R (not f) (not f')

variable {R : α → β → Prop} {f : Formula α} {g : Formula β}

theorem Rel.unique (hR : ∀ a b c, R a b → R a c → b = c) {h : Formula β} (hg : Rel R f g)
    (hh : Rel R f h) : g = h := by
  induction hg generalizing h with
  | atom hab =>
    cases hh with
    | atom hac => rw [hR _ _ _ hab hac]
  | join c _ _ ihf ihg =>
    cases hh with
    | join _ hf hg => rw [ihf hf, ihg hg]
  | not _ ih =>
    cases hh with
    | not hf => rw [ih hf]

theorem Rel.mono {S : α → β → Prop} (h : Rel R f g) (hRS : ∀ a b, R a b → S a b) : Rel S f g := by
  induction h with
  | atom hab => exact .atom (hRS _ _ hab)
  | join c _ _ ihf ihg => exact .join c ihf ihg
  | not _ ih => exact .not ih

/-- What the relation carries over from atom to atom holds of all of them. -/
theorem Rel.atoms {P : α → Prop} {Q : β → Prop} (h : Rel R f g) (hR : ∀ a b, R a b → P a → Q b)
    (hf : ∀ a ∈ f.atoms, P a) : ∀ b ∈ g.atoms, Q b := by
  induction h with
  | @atom a b hab =>
    have ha : P a := hf a (by simp [Formula.atoms])
    simpa [Formula.atoms] using hR a b hab ha
  | join c _ _ ihf ihg =>
    intro b hb
    rcases List.mem_append.mp hb with hb | hb
    · exact ihf (fun a ha => hf a (List.mem_append_left _ ha)) b hb
    · exact ihg (fun a ha => hf a (List.mem_append_right _ ha)) b hb
  | not _ ih => exact ih hf

theorem rel_map_iff {h : α → γ} {k : β → γ} :
    Rel (fun a b => h a = k b) f g ↔ f.map h = g.map k := by
  constructor
  · intro r
    induction r with
    | atom hab => simp only [map, hab]
    | join c _ _ ihf ihg => simp only [map, ihf, ihg]
    | not _ ih => simp only [map, ih]
  · intro e
    induction f generalizing g with
    | atom a =>
      cases g <;> simp only [map, atom.injEq, reduceCtorEq] at e
      exact .atom e
    | join c f₁ f₂ ih₁ ih₂ =>
      cases g <;> simp only [map, join.injEq, reduceCtorEq] at e
      obtain ⟨rfl, e₁, e₂⟩ := e
      exact .join c (ih₁ e₁) (ih₂ e₂)
    | not f₁ ih =>
      cases g <;> simp only [map, not.injEq, reduceCtorEq] at e
      exact .not (ih e)

/-! Evaluation from left to right. The right operand is reached only while the
left one leaves the result open. -/

def run (ask : α → σ → Except ε (Truth × σ)) : Formula α → σ → Except ε (Truth × σ)
  | atom a, s => ask a s
  | join c f g, s => do
    let (x, s) ← f.run ask s
    if x = c.settling then .ok (x, s)
    else do
      let (y, s) ← g.run ask s
      .ok (c.apply x y, s)
  | not f, s => do
    let (x, s) ← f.run ask s
    .ok (x.not, s)

theorem run_map (ask : β → σ → Except ε (Truth × σ)) (h : α → β) (f : Formula α) (s : σ) :
    (f.map h).run ask s = f.run (fun a => ask (h a)) s := by
  induction f generalizing s with
  | atom a => rfl
  | join c f g ihf ihg => simp only [map, run, ihf, ihg]
  | not f ih => simp only [map, run, ih]

/-- The atoms the left-to-right order asks for. -/
def needed (v : α → Truth) : Formula α → List α
  | atom a => [a]
  | join c f g => if f.value v = c.settling then f.needed v else f.needed v ++ g.needed v
  | not f => f.needed v

theorem needed_left (v : α → Truth) (c : Connective) (f g : Formula α) :
    f.needed v ⊆ (join c f g).needed v := by
  simp only [needed]
  split
  · exact List.Subset.refl _
  · exact List.subset_append_left _ _

section Answers

variable {ask : α → σ → Except ε (Truth × σ)} {v : α → Truth}

def Answered (ask : α → σ → Except ε (Truth × σ)) (v : α → Truth) (a : α) : Prop :=
  ∀ s, ∃ s', ask a s = .ok (v a, s')

def Refused (ask : α → σ → Except ε (Truth × σ)) (a : α) : Prop :=
  ∀ s, ∃ e, ask a s = .error e

/-- When every needed atom is answered, the machine finds the Kleene value. -/
theorem run_answered (s : σ) (h : ∀ a ∈ f.needed v, Answered ask v a) :
    ∃ s', f.run ask s = .ok (f.value v, s') := by
  induction f generalizing s with
  | atom a => exact h a (by simp [needed]) s
  | join c f g ihf ihg =>
    obtain ⟨s₁, h₁⟩ := ihf s fun a ha => h a (needed_left v c f g ha)
    by_cases hx : f.value v = c.settling
    · exact ⟨s₁, by simp [run, h₁, hx, value, bind, Except.bind]⟩
    · have hg : ∀ a ∈ g.needed v, Answered ask v a := by
        intro a ha
        apply h
        simp only [needed, if_neg hx]
        exact List.mem_append_right _ ha
      obtain ⟨s₂, h₂⟩ := ihg s₁ hg
      exact ⟨s₂, by simp [run, h₁, hx, h₂, value, bind, Except.bind]⟩
  | not f ih =>
    obtain ⟨s₁, h₁⟩ := ih s h
    exact ⟨s₁, by simp [run, h₁, value, bind, Except.bind]⟩

/-- When some needed atom is refused, the machine stops with an error. -/
theorem run_refused (s : σ) (h : ∀ a ∈ f.needed v, Answered ask v a ∨ Refused ask a)
    (hf : ∃ a ∈ f.needed v, Refused ask a) : ∃ e, f.run ask s = .error e := by
  induction f generalizing s with
  | atom a =>
    obtain ⟨b, hb, he⟩ := hf
    cases List.mem_singleton.mp hb
    exact he s
  | join c f g ihf ihg =>
    have hleft : ∀ a ∈ f.needed v, Answered ask v a ∨ Refused ask a :=
      fun a ha => h a (needed_left v c f g ha)
    by_cases hq : ∃ a ∈ f.needed v, Refused ask a
    · obtain ⟨e, he⟩ := ihf s hleft hq
      exact ⟨e, by simp [run, he, bind, Except.bind]⟩
    · have ha : ∀ a ∈ f.needed v, Answered ask v a := by
        intro a ha
        exact (hleft a ha).resolve_right fun hr => hq ⟨a, ha, hr⟩
      obtain ⟨s₁, h₁⟩ := run_answered s ha
      obtain ⟨a, hm, hr⟩ := hf
      simp only [needed] at hm h
      by_cases hx : f.value v = c.settling
      · rw [if_pos hx] at hm
        exact absurd ⟨a, hm, hr⟩ hq
      · rw [if_neg hx] at hm h
        have hg : a ∈ g.needed v := (List.mem_append.mp hm).resolve_left fun hl => hq ⟨a, hl, hr⟩
        obtain ⟨e, he⟩ := ihg s₁ (fun a ha => h a (List.mem_append_right _ ha)) ⟨a, hg, hr⟩
        exact ⟨e, by simp [run, h₁, hx, he, bind, Except.bind]⟩
  | not f ih =>
    obtain ⟨e, he⟩ := ih s h hf
    exact ⟨e, by simp [run, he, bind, Except.bind]⟩

end Answers

end Formula

end SaltsUtils.Kleene
