import SaltsUtils.Selector.Tokens

/-!
# The selector grammar

The derivations of the grammar, and a parser that reads one token at a time with
the pending operands of every open parenthesis on a stack. The parser finds the
derivation of every sentence, so no sentence has two.
-/

set_option autoImplicit false

namespace SaltsUtils.Selector

open SaltsUtils

/-- `predicate`, with the texts of its tokens. -/
inductive Leaf where
  | eq (field value : Bytes)
  | ne (field value : Bytes)
  | in_ (field first : Bytes) (rest : List Bytes)
  | not_in (field first : Bytes) (rest : List Bytes)
  | has (field : Bytes)
  | capability (value : Bytes)
  deriving DecidableEq

inductive Category where
  | or_expr
  | and_expr
  | unary_expr

/-- A derivation, with one constructor for each rule. -/
inductive Tree : Category → Type where
  | or (b : Tree .or_expr) (c : Tree .and_expr) : Tree .or_expr
  | or_and (b : Tree .and_expr) : Tree .or_expr
  | and (b : Tree .and_expr) (c : Tree .unary_expr) : Tree .and_expr
  | and_unary (b : Tree .unary_expr) : Tree .and_expr
  | bang (b : Tree .unary_expr) : Tree .unary_expr
  | paren (b : Tree .or_expr) : Tree .unary_expr
  | predicate (p : Leaf) : Tree .unary_expr

def items_yield (first : Bytes) (rest : List Bytes) : List Token :=
  .string first :: rest.flatMap fun value => [.comma, .string value]

def Leaf.yield : Leaf → List Token
  | eq field value => [.field field, .eq, .string value]
  | ne field value => [.field field, .ne, .string value]
  | in_ field first rest => [.field field, .in_, .lbracket] ++ items_yield first rest ++ [.rbracket]
  | not_in field first rest =>
    [.field field, .not, .in_, .lbracket] ++ items_yield first rest ++ [.rbracket]
  | has field => [.has, .lparen, .field field, .rparen]
  | capability value => [.capability, .lparen, .string value, .rparen]

def Tree.yield {c : Category} : Tree c → List Token
  | or b c => b.yield ++ .or :: c.yield
  | or_and b => b.yield
  | and b c => b.yield ++ .and :: c.yield
  | and_unary b => b.yield
  | bang b => .bang :: b.yield
  | paren b => .lparen :: b.yield ++ [.rparen]
  | predicate p => p.yield

def Leaf.stack : Leaf → ℕ
  | eq _ _ => 3
  | ne _ _ => 3
  | in_ _ _ rest => if rest.isEmpty then 5 else 6
  | not_in _ _ rest => if rest.isEmpty then 6 else 7
  | has _ => 4
  | capability _ => 4

def Tree.stack {c : Category} : Tree c → ℕ
  | or b c => max b.stack (2 + c.stack)
  | or_and b => b.stack
  | and b c => max b.stack (2 + c.stack)
  | and_unary b => b.stack
  | bang b => 1 + b.stack
  | paren b => max (1 + b.stack) 3
  | predicate p => p.stack

inductive Part where
  | field (field : Bytes)
  | eq (field : Bytes)
  | ne (field : Bytes)
  | not (field : Bytes)
  | in_ (field : Bytes) (negated : Bool)
  | lbracket (field : Bytes) (negated : Bool)
  | items (field : Bytes) (negated : Bool) (first : Bytes) (rest : List Bytes)
  | comma (field : Bytes) (negated : Bool) (first : Bytes) (rest : List Bytes)
  | has
  | has_lparen
  | has_field (field : Bytes)
  | capability
  | capability_lparen
  | capability_value (value : Bytes)

def membership_leaf (negated : Bool) (field first : Bytes) (rest : List Bytes) : Leaf :=
  if negated then .not_in field first rest else .in_ field first rest

def Part.next : Part → Token → Option (Part ⊕ Leaf)
  | field f, .eq => some (.inl (eq f))
  | field f, .ne => some (.inl (ne f))
  | field f, .in_ => some (.inl (in_ f false))
  | field f, .not => some (.inl (not f))
  | eq f, .string v => some (.inr (.eq f v))
  | ne f, .string v => some (.inr (.ne f v))
  | not f, .in_ => some (.inl (in_ f true))
  | in_ f negated, .lbracket => some (.inl (lbracket f negated))
  | lbracket f negated, .string v => some (.inl (items f negated v []))
  | items f negated first rest, .comma => some (.inl (comma f negated first rest))
  | items f negated first rest, .rbracket => some (.inr (membership_leaf negated f first rest))
  | comma f negated first rest, .string v => some (.inl (items f negated first (rest ++ [v])))
  | has, .lparen => some (.inl has_lparen)
  | has_lparen, .field f => some (.inl (has_field f))
  | has_field f, .rparen => some (.inr (.has f))
  | capability, .lparen => some (.inl capability_lparen)
  | capability_lparen, .string v => some (.inl (capability_value v))
  | capability_value v, .rparen => some (.inr (.capability v))
  | _, _ => none

/-- What is pending between an open parenthesis and the operand being read:
`or_expr OR`, `and_expr AND` and a run of `BANG`. -/
structure Level where
  ors : Option (Tree .or_expr)
  ands : Option (Tree .and_expr)
  bangs : ℕ

def Level.empty : Level := ⟨none, none, 0⟩

inductive Parser where
  | operand (level : Level) (outer : List Level)
  | part (level : Level) (outer : List Level) (part : Part)
  | complete (ors : Option (Tree .or_expr)) (operand : Tree .and_expr) (outer : List Level)

def bang_times : ℕ → Tree .unary_expr → Tree .unary_expr
  | 0, u => u
  | n + 1, u => bang_times n (.bang u)

def and_operand (ands : Option (Tree .and_expr)) (u : Tree .unary_expr) : Tree .and_expr :=
  match ands with
  | none => .and_unary u
  | some b => .and b u

def or_operand (ors : Option (Tree .or_expr)) (a : Tree .and_expr) : Tree .or_expr :=
  match ors with
  | none => .or_and a
  | some b => .or b a

/-- A unary expression ends the operand of its level. -/
def Parser.reduce (level : Level) (outer : List Level) (u : Tree .unary_expr) : Parser :=
  .complete level.ors (and_operand level.ands (bang_times level.bangs u)) outer

def Parser.next : Parser → Token → Option Parser
  | operand level outer, .bang => some (operand { level with bangs := level.bangs + 1 } outer)
  | operand level outer, .lparen => some (operand .empty (level :: outer))
  | operand level outer, .field f => some (part level outer (.field f))
  | operand level outer, .has => some (part level outer .has)
  | operand level outer, .capability => some (part level outer .capability)
  | operand _ _, _ => none
  | part level outer p, token =>
    match p.next token with
    | none => none
    | some (.inl p) => some (part level outer p)
    | some (.inr leaf) => some (.reduce level outer (.predicate leaf))
  | complete ors a outer, .and => some (operand ⟨ors, some a, 0⟩ outer)
  | complete ors a outer, .or => some (operand ⟨some (or_operand ors a), none, 0⟩ outer)
  | complete ors a (level :: outer), .rparen =>
    some (.reduce level outer (.paren (or_operand ors a)))
  | complete _ _ _, _ => none

def Parser.run (p : Parser) (ts : List Token) : Option Parser := ts.foldlM Parser.next p

def Parser.result : Parser → Option (Tree .or_expr)
  | complete ors a [] => some (or_operand ors a)
  | _ => none

def selector_parse (ts : List Token) : Option (Tree .or_expr) :=
  ((Parser.operand .empty []).run ts).bind Parser.result

@[simp] theorem Parser.run_nil (p : Parser) : p.run [] = some p := rfl

@[simp] theorem Parser.run_cons (p : Parser) (t : Token) (ts : List Token) :
    p.run (t :: ts) = (p.next t).bind fun q => q.run ts := rfl

theorem Parser.run_append (p : Parser) (ts ts' : List Token) :
    p.run (ts ++ ts') = (p.run ts).bind fun q => q.run ts' := by
  simp only [Parser.run, List.foldlM_append]
  rfl

theorem run_items (level : Level) (outer : List Level) (f first : Bytes) (negated : Bool)
    (rest more : List Bytes) :
    (Parser.part level outer (.items f negated first rest)).run
        ((more.flatMap fun value => [Token.comma, .string value]) ++ [.rbracket]) =
      some (.reduce level outer (.predicate (membership_leaf negated f first (rest ++ more)))) := by
  induction more generalizing rest with
  | nil => simp [Parser.next, Part.next]
  | cons v more ih =>
    rw [List.flatMap_cons, List.append_assoc, Parser.run_append]
    simp only [Parser.run_cons, Parser.next, Part.next, Option.bind_some, Parser.run_nil]
    rw [ih]
    simp

theorem run_leaf (level : Level) (outer : List Level) (p : Leaf) :
    (Parser.operand level outer).run p.yield = some (.reduce level outer (.predicate p)) := by
  cases p with
  | in_ f first rest =>
    have h := run_items level outer f first false [] rest
    simpa [Leaf.yield, items_yield, Parser.next, Part.next, membership_leaf] using h
  | not_in f first rest =>
    have h := run_items level outer f first true [] rest
    simpa [Leaf.yield, items_yield, Parser.next, Part.next, membership_leaf] using h
  | eq f v => rfl
  | ne f v => rfl
  | has f => rfl
  | capability v => rfl

/-- How the parser reads a derivation of each category. -/
def Found : {c : Category} → Tree c → Prop
  | .unary_expr, t => ∀ level outer,
      (Parser.operand level outer).run t.yield = some (.reduce level outer t)
  | .and_expr, t => ∀ ors outer,
      (Parser.operand ⟨ors, none, 0⟩ outer).run t.yield = some (.complete ors t outer)
  | .or_expr, t => ∀ outer, ∃ ors a, or_operand ors a = t ∧
      (Parser.operand .empty outer).run t.yield = some (.complete ors a outer)

theorem tree_found {c : Category} (t : Tree c) : Found t := by
  induction t with
  | or b c ihb ihc =>
    intro outer
    obtain ⟨ors, a, rfl, hb⟩ := ihb outer
    refine ⟨some (or_operand ors a), c, rfl, ?_⟩
    rw [Tree.yield, Parser.run_append, hb]
    exact ihc (some (or_operand ors a)) outer
  | or_and b ih =>
    intro outer
    exact ⟨none, b, rfl, ih none outer⟩
  | and b c ihb ihc =>
    intro ors outer
    rw [Tree.yield, Parser.run_append, ihb ors outer]
    exact ihc ⟨ors, some b, 0⟩ outer
  | and_unary b ih =>
    intro ors outer
    exact ih ⟨ors, none, 0⟩ outer
  | bang b ih =>
    intro level outer
    exact ih { level with bangs := level.bangs + 1 } outer
  | paren b ih =>
    intro level outer
    obtain ⟨ors, a, rfl, hb⟩ := ih (level :: outer)
    rw [Tree.yield, List.cons_append, Parser.run_cons]
    change ((Parser.operand .empty (level :: outer)).run _) = _
    rw [Parser.run_append, hb]
    rfl
  | predicate p =>
    intro level outer
    exact run_leaf level outer p

theorem selector_parse_yield (t : Tree .or_expr) : selector_parse t.yield = some t := by
  obtain ⟨ors, a, rfl, h⟩ := tree_found t []
  rw [selector_parse, h]
  rfl

theorem yield_injective {t t' : Tree .or_expr} (h : t.yield = t'.yield) : t = t' := by
  have h' := selector_parse_yield t
  rw [h, selector_parse_yield] at h'
  exact (Option.some.inj h').symm

def Part.yield : Part → List Token
  | field f => [.field f]
  | eq f => [.field f, .eq]
  | ne f => [.field f, .ne]
  | not f => [.field f, .not]
  | in_ f negated => .field f :: (if negated then [.not, .in_] else [.in_])
  | lbracket f negated => .field f :: (if negated then [.not, .in_] else [.in_]) ++ [.lbracket]
  | items f negated first rest =>
    .field f :: (if negated then [.not, .in_] else [.in_]) ++ .lbracket :: items_yield first rest
  | comma f negated first rest =>
    .field f :: (if negated then [.not, .in_] else [.in_]) ++ .lbracket ::
      items_yield first rest ++ [.comma]
  | has => [.has]
  | has_lparen => [.has, .lparen]
  | has_field f => [.has, .lparen, .field f]
  | capability => [.capability]
  | capability_lparen => [.capability, .lparen]
  | capability_value v => [.capability, .lparen, .string v]

def ors_yield : Option (Tree .or_expr) → List Token
  | none => []
  | some b => b.yield ++ [.or]

def ands_yield : Option (Tree .and_expr) → List Token
  | none => []
  | some b => b.yield ++ [.and]

def Level.yield (level : Level) : List Token :=
  ors_yield level.ors ++ ands_yield level.ands ++ List.replicate level.bangs .bang

def outer_yield : List Level → List Token
  | [] => []
  | level :: outer => outer_yield outer ++ level.yield ++ [.lparen]

def Parser.yield : Parser → List Token
  | operand level outer => outer_yield outer ++ level.yield
  | part level outer p => outer_yield outer ++ level.yield ++ p.yield
  | complete ors a outer => outer_yield outer ++ ors_yield ors ++ a.yield

theorem membership_leaf_yield (negated : Bool) (f first : Bytes) (rest : List Bytes) :
    (membership_leaf negated f first rest).yield =
      .field f :: (if negated then [.not, .in_] else [.in_]) ++ .lbracket ::
        items_yield first rest ++ [.rbracket] := by
  cases negated <;> rfl

theorem part_next_yield {p : Part} {t : Token} {r : Part ⊕ Leaf} (h : p.next t = some r) :
    r.elim Part.yield Leaf.yield = p.yield ++ [t] := by
  cases p <;> cases t <;> simp only [Part.next, reduceCtorEq, Option.some.injEq] at h <;> subst h
  all_goals first
    | rfl
    | simp [Part.yield, items_yield, membership_leaf_yield]

theorem bang_times_yield (n : ℕ) (u : Tree .unary_expr) :
    (bang_times n u).yield = List.replicate n .bang ++ u.yield := by
  induction n generalizing u with
  | zero => rfl
  | succ n ih =>
    rw [bang_times, ih, Tree.yield, List.replicate_succ', List.append_assoc]
    rfl

theorem and_operand_yield (ands : Option (Tree .and_expr)) (u : Tree .unary_expr) :
    (and_operand ands u).yield = ands_yield ands ++ u.yield := by
  cases ands <;> simp [and_operand, ands_yield, Tree.yield]

theorem or_operand_yield (ors : Option (Tree .or_expr)) (a : Tree .and_expr) :
    (or_operand ors a).yield = ors_yield ors ++ a.yield := by
  cases ors <;> simp [or_operand, ors_yield, Tree.yield]

theorem reduce_yield (level : Level) (outer : List Level) (u : Tree .unary_expr) :
    (Parser.reduce level outer u).yield = outer_yield outer ++ level.yield ++ u.yield := by
  simp [Parser.reduce, Parser.yield, Level.yield, and_operand_yield, bang_times_yield]

theorem next_yield {p q : Parser} {t : Token} (h : p.next t = some q) :
    q.yield = p.yield ++ [t] := by
  cases p with
  | operand level outer =>
    cases t <;> simp only [Parser.next, reduceCtorEq, Option.some.injEq] at h <;> subst h
    · simp [Parser.yield, Level.yield, List.replicate_succ']
    · simp [Parser.yield, Level.yield, outer_yield, Level.empty, ors_yield, ands_yield]
    · rfl
    · rfl
    · rfl
  | part level outer p =>
    simp only [Parser.next] at h
    cases hp : p.next t with
    | none =>
      rw [hp] at h
      cases h
    | some r =>
      have hy := part_next_yield hp
      rw [hp] at h
      cases r with
      | inl p' =>
        cases h
        change p'.yield = _ at hy
        simp [Parser.yield, hy]
      | inr leaf =>
        cases h
        change leaf.yield = _ at hy
        rw [reduce_yield]
        simp [Parser.yield, Tree.yield, hy]
  | complete ors a outer =>
    cases t with
    | and =>
      cases h
      simp [Parser.yield, Level.yield, ands_yield]
    | or =>
      cases h
      simp [Parser.yield, Level.yield, ors_yield, ands_yield, or_operand_yield]
    | rparen =>
      cases outer with
      | nil => cases h
      | cons level outer =>
        cases h
        rw [reduce_yield]
        simp [Parser.yield, Tree.yield, or_operand_yield, outer_yield]
    | _ => cases h

theorem run_yield {p q : Parser} {ts : List Token} (h : p.run ts = some q) :
    q.yield = p.yield ++ ts := by
  induction ts generalizing p with
  | nil =>
    cases h
    simp
  | cons t ts ih =>
    obtain ⟨r, hr, h⟩ := Option.bind_eq_some_iff.mp h
    rw [ih h, next_yield hr, List.append_assoc]
    rfl

theorem selector_parse_sound {ts : List Token} {t : Tree .or_expr}
    (h : selector_parse ts = some t) : t.yield = ts := by
  obtain ⟨p, hp, h⟩ := Option.bind_eq_some_iff.mp h
  have hy := run_yield hp
  cases p with
  | operand level outer => cases h
  | part level outer p => cases h
  | complete ors a outer =>
    cases outer with
    | nil =>
      cases h
      rw [or_operand_yield]
      simpa [Parser.yield, outer_yield, Level.yield, Level.empty, ors_yield, ands_yield] using hy
    | cons level outer => cases h

end SaltsUtils.Selector
