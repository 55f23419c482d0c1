import SaltsUtils.Library.Kleene
import SaltsUtils.Selector.Grammar
import SaltsUtils.Selector.Literals
import Mathlib.Data.List.Lex
import Mathlib.Data.List.Sort

/-!
# What a selector means

A selector is a formula over predicates on fields and capabilities.
-/

set_option autoImplicit false

namespace SaltsUtils.Selector

open SaltsUtils Kleene

inductive Predicate where
  | eq (field value : Bytes)
  | ne (field value : Bytes)
  | in_ (field : Bytes) (values : List Bytes)
  | not_in (field : Bytes) (values : List Bytes)
  | has (field : Bytes)
  | capability (name : Bytes)
  deriving DecidableEq

abbrev Expression := Formula Predicate

/-- The fields and capabilities a selector is evaluated against. -/
structure Environment where
  field : Bytes → Option Bytes
  capability : Bytes → Bool

def Environment.compare (env : Environment) (field : Bytes) (test : Bytes → Bool) : Truth :=
  match env.field field with
  | none => .unknown
  | some value => .ofBool (test value)

def Predicate.truth (env : Environment) : Predicate → Truth
  | eq field value => env.compare field fun v => decide (v = value)
  | ne field value => env.compare field fun v => !decide (v = value)
  | in_ field values => env.compare field fun v => values.contains v
  | not_in field values => env.compare field fun v => !values.contains v
  | has field => .ofBool (env.field field).isSome
  | capability name => .ofBool (env.capability name)

inductive Leaf.Means : Leaf → Predicate → Prop where
  | eq {f v s : Bytes} (h : Spelled v s) : Means (.eq f v) (.eq f s)
  | ne {f v s : Bytes} (h : Spelled v s) : Means (.ne f v) (.ne f s)
  | in_ {f first : Bytes} {rest ss : List Bytes} (h : List.Forall₂ Spelled (first :: rest) ss) :
      Means (.in_ f first rest) (.in_ f ss)
  | not_in {f first : Bytes} {rest ss : List Bytes}
      (h : List.Forall₂ Spelled (first :: rest) ss) :
      Means (.not_in f first rest) (.not_in f ss)
  | has {f : Bytes} : Means (.has f) (.has f)
  | capability {v s : Bytes} (h : Spelled v s) : Means (.capability v) (.capability s)

def Tree.formula {c : Category} : Tree c → Formula Leaf
  | or b c => .join .or b.formula c.formula
  | or_and b => b.formula
  | and b c => .join .and b.formula c.formula
  | and_unary b => b.formula
  | bang b => .not b.formula
  | paren b => b.formula
  | predicate p => .atom p

def SourceExpression (source : Bytes) (e : Expression) : Prop :=
  ∃ t : Tree .or_expr, selector_tokens source = some t.yield ∧ Formula.Rel Leaf.Means t.formula e

theorem spelled_list_unique {vs ss ss' : List Bytes} (h : List.Forall₂ Spelled vs ss)
    (h' : List.Forall₂ Spelled vs ss') : ss = ss' := by
  induction h generalizing ss' with
  | nil =>
    cases h'
    rfl
  | cons hs _ ih =>
    cases h' with
    | cons hs' h' => rw [hs.unique hs', ih h']

theorem Leaf.Means.unique {p : Leaf} {q q' : Predicate} (h : p.Means q) (h' : p.Means q') :
    q = q' := by
  cases h with
  | eq h =>
    cases h' with
    | eq h' => rw [h.unique h']
  | ne h =>
    cases h' with
    | ne h' => rw [h.unique h']
  | in_ h =>
    cases h' with
    | in_ h' => rw [spelled_list_unique h h']
  | not_in h =>
    cases h' with
    | not_in h' => rw [spelled_list_unique h h']
  | has =>
    cases h'
    rfl
  | capability h =>
    cases h' with
    | capability h' => rw [h.unique h']

theorem SourceExpression.unique {source : Bytes} {e e' : Expression}
    (h : SourceExpression source e) (h' : SourceExpression source e') : e = e' := by
  obtain ⟨t, ht, he⟩ := h
  obtain ⟨t', ht', he'⟩ := h'
  rw [ht] at ht'
  cases yield_injective (Option.some.inj ht')
  have hu : ∀ a b c, Leaf.Means a b → Leaf.Means a c → b = c := fun _ _ _ => Leaf.Means.unique
  exact he.unique hu he'

def sorted (values : List Bytes) : List Bytes := values.insertionSort (· ≤ ·)

def Predicate.normal : Predicate → Predicate
  | in_ field values => in_ field (sorted values)
  | not_in field values => not_in field (sorted values)
  | q => q

def Expression.normal (e : Expression) : Expression := e.map Predicate.normal

theorem sorted_perm (values : List Bytes) : (sorted values).Perm values :=
  List.perm_insertionSort _ _

theorem sorted_sorted (values : List Bytes) : (sorted values).Pairwise (· ≤ ·) :=
  List.pairwise_insertionSort _ _

theorem sorted_eq_of_perm {values values' : List Bytes} (h : values'.Perm values)
    (hs : values'.Pairwise (· ≤ ·)) : values' = sorted values :=
  (h.trans (sorted_perm values).symm).eq_of_pairwise (fun _ _ _ _ h h' => le_antisymm h h') hs
    (sorted_sorted values)

theorem sorted_eq_iff {values values' : List Bytes} :
    sorted values = sorted values' ↔ values.Perm values' := by
  constructor
  · intro h
    exact (sorted_perm values).symm.trans (h ▸ sorted_perm values')
  · intro h
    exact sorted_eq_of_perm ((sorted_perm values).trans h) (sorted_sorted values)

theorem sorted_idem (values : List Bytes) : sorted (sorted values) = sorted values :=
  sorted_eq_iff.mpr (sorted_perm values)

theorem Predicate.normal_idem (q : Predicate) : q.normal.normal = q.normal := by
  cases q <;> simp [Predicate.normal, sorted_idem]

theorem Expression.normal_idem (e : Expression) :
    Expression.normal (Expression.normal e) = Expression.normal e := by
  induction e with
  | atom q => simp [Expression.normal, Formula.map, Predicate.normal_idem]
  | join c f g ihf ihg =>
    simp only [Expression.normal, Formula.map] at *
    rw [ihf, ihg]
  | not f ih =>
    simp only [Expression.normal, Formula.map] at *
    rw [ih]

inductive Predicate.Alike : Predicate → Predicate → Prop where
  | same (q : Predicate) : Alike q q
  | in_ (field : Bytes) {values values' : List Bytes} (h : values.Perm values') :
      Alike (.in_ field values) (.in_ field values')
  | not_in (field : Bytes) {values values' : List Bytes} (h : values.Perm values') :
      Alike (.not_in field values) (.not_in field values')

theorem Predicate.alike_iff {q q' : Predicate} : q.Alike q' ↔ q.normal = q'.normal := by
  constructor
  · intro h
    cases h with
    | same => rfl
    | in_ field h => simp [Predicate.normal, sorted_eq_iff.mpr h]
    | not_in field h => simp [Predicate.normal, sorted_eq_iff.mpr h]
  · intro h
    cases q <;> cases q' <;>
      simp only [Predicate.normal, reduceCtorEq, Predicate.eq.injEq, Predicate.ne.injEq,
        Predicate.in_.injEq, Predicate.not_in.injEq, Predicate.has.injEq,
        Predicate.capability.injEq] at h
    · rw [h.1, h.2]
      exact .same _
    · rw [h.1, h.2]
      exact .same _
    · rw [h.1]
      exact .in_ _ (sorted_eq_iff.mp h.2)
    · rw [h.1]
      exact .not_in _ (sorted_eq_iff.mp h.2)
    · rw [h]
      exact .same _
    · rw [h]
      exact .same _

theorem alike_iff_normal {e e' : Expression} :
    Formula.Rel Predicate.Alike e e' ↔ Expression.normal e = Expression.normal e' := by
  unfold Expression.normal
  rw [← Formula.rel_map_iff]
  constructor
  · exact fun h => h.mono fun _ _ => Predicate.alike_iff.mp
  · exact fun h => h.mono fun _ _ => Predicate.alike_iff.mpr

end SaltsUtils.Selector
