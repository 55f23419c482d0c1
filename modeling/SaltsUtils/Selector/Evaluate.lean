import SaltsUtils.Selector.Compiler

/-!
# Compiled programs evaluated and written out
-/

set_option autoImplicit false

/-!
## Evaluating a program

The evaluator walks the node table, asks the resolver from left to right and stops as soon
as the left operand settles a connective.
-/

namespace SaltsUtils.Selector

open SaltsUtils Kleene

variable {σ : Type}

/-- What the field resolver returns and leaves in its out parameters; a `NULL`
value is `none`. -/
structure FieldAnswer where
  resolved : Int
  value : Option Bytes

/-- The resolver callbacks, with the caller's context as a state. -/
structure EvalOps (σ : Type) where
  resolve_field : Option (σ → Bytes → FieldAnswer × σ)
  has_capability : Option (σ → Bytes → Int × σ)

inductive EvalStatus where
  | ok
  | invalid_argument
  | evaluation_error (message : String)
  deriving DecidableEq

structure EvalResult where
  status : EvalStatus
  out_match : ℕ
  deriving DecidableEq

def selector_bytes_equal (left right : Bytes) : Bool := decide (left = right)

def ask_capability (ops : EvalOps σ) (name : Bytes) (s : σ) : Except String (Truth × σ) :=
  match ops.has_capability with
  | none => .error "capability resolver is not configured"
  | some has_capability =>
    let (resolved, s) := has_capability s name
    if resolved < 0 ∨ 1 < resolved then .error "capability resolver failed"
    else .ok (if resolved ≠ 0 then .yes else .no, s)

def ask_field (ops : EvalOps σ) (field : Bytes) (s : σ) : Except String (Option Bytes × σ) :=
  match ops.resolve_field with
  | none => .error "field resolver is not configured"
  | some resolve_field =>
    let (answer, s) := resolve_field s field
    if answer.resolved < 0 ∨ 1 < answer.resolved ∨ (answer.resolved = 1 ∧ answer.value = none) then
      .error "field resolver failed"
    else .ok (if answer.resolved = 0 then none else answer.value, s)

def field_test (value : Option Bytes) (test : Bytes → Bool) : Truth :=
  match value with
  | none => .unknown
  | some value => if test value then .yes else .no

/-- The first argument counts the levels that the depth limit still allows. -/
def selector_eval_node (p : Program) (ops : EvalOps σ) :
    ℕ → ℕ → σ → Except String (Truth × σ)
  | 0, _, _ => .error "invalid selector program structure"
  | levels + 1, node_index, s =>
    match p.nodes[node_index]? with
    | none => .error "invalid selector program structure"
    | some node =>
      match node.kind with
      | .and => do
        let (left, s) ← selector_eval_node p ops levels node.left s
        if left = .no then .ok (left, s)
        else do
          let (right, s) ← selector_eval_node p ops levels node.right s
          if right = .no then .ok (right, s)
          else .ok (if left = .yes ∧ right = .yes then .yes else .unknown, s)
      | .or => do
        let (left, s) ← selector_eval_node p ops levels node.left s
        if left = .yes then .ok (left, s)
        else do
          let (right, s) ← selector_eval_node p ops levels node.right s
          if right = .yes then .ok (right, s)
          else .ok (if left = .no ∧ right = .no then .no else .unknown, s)
      | .not => do
        let (left, s) ← selector_eval_node p ops levels node.left s
        .ok (if left = .unknown then .unknown else if left = .no then .yes else .no, s)
      | .capability => ask_capability ops (string_of p.strings node.value) s
      | .has => do
        let (value, s) ← ask_field ops (string_of p.strings node.field) s
        .ok (if value.isSome then .yes else .no, s)
      | .eq => do
        let (value, s) ← ask_field ops (string_of p.strings node.field) s
        .ok (field_test value fun v => selector_bytes_equal v (string_of p.strings node.value), s)
      | .ne => do
        let (value, s) ← ask_field ops (string_of p.strings node.field) s
        .ok (field_test value fun v => !selector_bytes_equal v (string_of p.strings node.value), s)
      | .in_ => do
        let (value, s) ← ask_field ops (string_of p.strings node.field) s
        .ok (field_test value fun v =>
          ((p.list_values.drop node.list_start).take node.list_count).any fun ref =>
            selector_bytes_equal v (string_of p.strings ref), s)
      | .not_in => do
        let (value, s) ← ask_field ops (string_of p.strings node.field) s
        .ok (field_test value fun v =>
          !((p.list_values.drop node.list_start).take node.list_count).any fun ref =>
            selector_bytes_equal v (string_of p.strings ref), s)

def salts_selector_program_evaluate_v1 (p : Program) (ops : EvalOps σ) (context : σ) :
    EvalResult :=
  if p.nodes.length ≤ p.root then ⟨.invalid_argument, 0⟩
  else
    match selector_eval_node p ops (max_depth + 1) p.root context with
    | .error message => ⟨.evaluation_error message, 0⟩
    | .ok (value, _) => ⟨.ok, if value = .yes then 1 else 0⟩

/-- The answer of the resolver to one predicate. -/
def EvalOps.ask (ops : EvalOps σ) : Predicate → σ → Except String (Truth × σ)
  | .eq field value, s => do
    let (v, s) ← ask_field ops field s
    .ok (field_test v fun v => decide (v = value), s)
  | .ne field value, s => do
    let (v, s) ← ask_field ops field s
    .ok (field_test v fun v => !decide (v = value), s)
  | .in_ field values, s => do
    let (v, s) ← ask_field ops field s
    .ok (field_test v fun v => values.contains v, s)
  | .not_in field values, s => do
    let (v, s) ← ask_field ops field s
    .ok (field_test v fun v => !values.contains v, s)
  | .has field, s => do
    let (v, s) ← ask_field ops field s
    .ok (if v.isSome then .yes else .no, s)
  | .capability name, s => ask_capability ops name s

def outcome (result : Except String (Truth × σ)) : EvalResult :=
  match result with
  | .error message => ⟨.evaluation_error message, 0⟩
  | .ok (value, _) => ⟨.ok, if value = .yes then 1 else 0⟩

theorem ask_normal (ops : EvalOps σ) (q : Predicate) : ops.ask q.normal = ops.ask q := by
  funext s
  cases q <;> simp [Predicate.normal, EvalOps.ask, (sorted_perm _).mem_iff]

theorem list_any {p : Ctx} {start count : ℕ} {values : List Bytes}
    (h : ListHolds p start count values) (v : Bytes) :
    (((p.list_values.drop start).take count).any fun ref =>
      selector_bytes_equal v (string_of p.strings ref)) = values.contains v := by
  have hl := h.2
  clear h
  generalize (p.list_values.drop start).take count = refs at hl
  induction hl with
  | nil => rfl
  | cons hr _ ih =>
    rw [List.any_cons, List.contains_cons, ih, hr.bytes, selector_bytes_equal, beq_eq_decide]

variable {p : Program} {ops : EvalOps σ} {q : Predicate} {i n : ℕ}

theorem eval_leaf {node : Node} (s : σ) (hn : p.nodes[i]? = some node) (h : node.Holds p.toCtx q) :
    selector_eval_node p ops (n + 1) i s = ops.ask q s := by
  cases q with
  | eq f v =>
    obtain ⟨hk, hf, hv⟩ := h
    simp only [selector_eval_node, hn, hk, hf.bytes, hv.bytes, EvalOps.ask, selector_bytes_equal]
  | ne f v =>
    obtain ⟨hk, hf, hv⟩ := h
    simp only [selector_eval_node, hn, hk, hf.bytes, hv.bytes, EvalOps.ask, selector_bytes_equal]
  | in_ f vs =>
    obtain ⟨hk, hf, hl⟩ := h
    simp only [selector_eval_node, hn, hk, hf.bytes, list_any hl, EvalOps.ask]
  | not_in f vs =>
    obtain ⟨hk, hf, hl⟩ := h
    simp only [selector_eval_node, hn, hk, hf.bytes, list_any hl, EvalOps.ask]
  | has f =>
    obtain ⟨hk, hf⟩ := h
    simp only [selector_eval_node, hn, hk, hf.bytes, EvalOps.ask]
  | capability name =>
    obtain ⟨hk, hv⟩ := h
    simp only [selector_eval_node, hn, hk, hv.bytes, EvalOps.ask]

variable {e : Expression}

theorem eval_node_run (s : σ) (h : Denotes p.toCtx e i) (hd : e.depth ≤ n) :
    selector_eval_node p ops n i s = e.run ops.ask s := by
  induction e generalizing i n s with
  | atom q =>
    cases n with
    | zero => simp [Formula.depth] at hd
    | succ n =>
      obtain ⟨node, hn, hq⟩ := h
      exact eval_leaf s hn hq
  | join c f g ihf ihg =>
    cases n with
    | zero => simp [Formula.depth] at hd
    | succ n =>
      obtain ⟨node, hn, hk, hf, hg⟩ := h
      simp only [Formula.depth] at hd
      have hdf : f.depth ≤ n := by omega
      have hdg : g.depth ≤ n := by omega
      cases c with
      | and =>
        simp only [selector_eval_node, hn, hk, join_kind, Formula.run, ihf _ hf hdf, ihg _ hg hdg]
        cases f.run ops.ask s with
        | error m => rfl
        | ok r =>
          obtain ⟨x, s₁⟩ := r
          -- the right operand is run in the same way unless the left one settles the result
          simp only [bind, Except.bind]
          generalize g.run ops.ask s₁ = right
          cases x <;> first
            | rfl
            | cases right with
              | error m => rfl
              | ok r =>
                obtain ⟨y, s₂⟩ := r
                cases y <;> rfl
      | or =>
        simp only [selector_eval_node, hn, hk, join_kind, Formula.run, ihf _ hf hdf, ihg _ hg hdg]
        cases f.run ops.ask s with
        | error m => rfl
        | ok r =>
          obtain ⟨x, s₁⟩ := r
          -- the right operand is run in the same way unless the left one settles the result
          simp only [bind, Except.bind]
          generalize g.run ops.ask s₁ = right
          cases x <;> first
            | rfl
            | cases right with
              | error m => rfl
              | ok r =>
                obtain ⟨y, s₂⟩ := r
                cases y <;> rfl
  | not f ih =>
    cases n with
    | zero => simp [Formula.depth] at hd
    | succ n =>
      obtain ⟨node, hn, hk, hf⟩ := h
      simp only [Formula.depth] at hd
      have hdf : f.depth ≤ n := by omega
      simp only [selector_eval_node, hn, hk, Formula.run, ih _ hf hdf]
      cases f.run ops.ask s with
      | error m => rfl
      | ok r =>
        obtain ⟨x, s₁⟩ := r
        cases x <;> rfl

theorem evaluate_run {source : Bytes} {schema : Schema} {t : Tree .or_expr}
    (h : Compiled source schema p t e) (ops : EvalOps σ) (context : σ) :
    salts_selector_program_evaluate_v1 p ops context = outcome (e.run ops.ask context) := by
  have hidx := h.built.index
  have hdepth := h.built.depth
  have hrun : selector_eval_node p ops (max_depth + 1) p.root context = e.run ops.ask context := by
    rw [eval_node_run context h.built.denotes (by simp [Expression.normal]; omega),
      Expression.normal, Formula.run_map]
    simp only [ask_normal]
  unfold salts_selector_program_evaluate_v1
  rw [if_neg (by omega), hrun]
  rfl

def Predicate.Answered (ops : EvalOps σ) (env : Environment) : Predicate → Prop
  | capability name => ∃ has_capability, ops.has_capability = some has_capability ∧
      ∀ s, (has_capability s name).1 = if env.capability name then 1 else 0
  | eq field _ | ne field _ | in_ field _ | not_in field _ | has field =>
      ∃ resolve_field, ops.resolve_field = some resolve_field ∧
      ∀ s, (env.field field = none ∧ (resolve_field s field).1.resolved = 0) ∨
        ((env.field field).isSome ∧ (resolve_field s field).1 = ⟨1, env.field field⟩)

def Predicate.Fails (ops : EvalOps σ) : Predicate → Prop
  | capability name => ∀ has_capability, ops.has_capability = some has_capability →
      ∀ s, (has_capability s name).1 < 0 ∨ 1 < (has_capability s name).1
  | eq field _ | ne field _ | in_ field _ | not_in field _ | has field =>
      ∀ resolve_field, ops.resolve_field = some resolve_field →
      ∀ s, (resolve_field s field).1.resolved < 0 ∨ 1 < (resolve_field s field).1.resolved ∨
        ((resolve_field s field).1.resolved = 1 ∧ (resolve_field s field).1.value = none)

theorem ask_field_answered {env : Environment} {field : Bytes}
    (h : ∃ resolve_field, ops.resolve_field = some resolve_field ∧ ∀ s,
      (env.field field = none ∧ (resolve_field s field).1.resolved = 0) ∨
      ((env.field field).isSome ∧ (resolve_field s field).1 = ⟨1, env.field field⟩))
    (s : σ) : ∃ s', ask_field ops field s = .ok (env.field field, s') := by
  obtain ⟨resolve_field, hr, h⟩ := h
  unfold ask_field
  rw [hr]
  refine ⟨(resolve_field s field).2, ?_⟩
  rcases h s with ⟨he, h₀⟩ | ⟨he, h₁⟩
  · simp [h₀, he]
  · obtain ⟨v, hv⟩ := Option.isSome_iff_exists.mp he
    simp [h₁, hv]

theorem ask_field_fails {field : Bytes}
    (h : ∀ resolve_field, ops.resolve_field = some resolve_field → ∀ s,
      (resolve_field s field).1.resolved < 0 ∨ 1 < (resolve_field s field).1.resolved ∨
      ((resolve_field s field).1.resolved = 1 ∧ (resolve_field s field).1.value = none))
    (s : σ) : ∃ m, ask_field ops field s = .error m := by
  unfold ask_field
  cases hr : ops.resolve_field with
  | none => exact ⟨_, rfl⟩
  | some resolve_field =>
    dsimp only
    rw [if_pos (h resolve_field hr s)]
    exact ⟨_, rfl⟩

theorem Predicate.Answered.ask {env : Environment} (h : q.Answered ops env) :
    Formula.Answered ops.ask (Predicate.truth env) q := by
  intro s
  cases q with
  | capability name =>
    obtain ⟨has_capability, hc, h⟩ := h
    refine ⟨(has_capability s name).2, ?_⟩
    simp only [EvalOps.ask, ask_capability, hc, h s, Predicate.truth, Truth.ofBool]
    cases env.capability name <;> rfl
  | has field =>
    obtain ⟨s', hs⟩ := ask_field_answered h s
    exact ⟨s', by simp only [EvalOps.ask, hs]; rfl⟩
  | eq field value =>
    obtain ⟨s', hs⟩ := ask_field_answered h s
    exact ⟨s', by simp only [EvalOps.ask, hs]; rfl⟩
  | ne field value =>
    obtain ⟨s', hs⟩ := ask_field_answered h s
    exact ⟨s', by simp only [EvalOps.ask, hs]; rfl⟩
  | in_ field values =>
    obtain ⟨s', hs⟩ := ask_field_answered h s
    exact ⟨s', by simp only [EvalOps.ask, hs]; rfl⟩
  | not_in field values =>
    obtain ⟨s', hs⟩ := ask_field_answered h s
    exact ⟨s', by simp only [EvalOps.ask, hs]; rfl⟩

theorem Predicate.Fails.ask (h : q.Fails ops) : Formula.Refused ops.ask q := by
  intro s
  cases q with
  | capability name =>
    simp only [EvalOps.ask, ask_capability]
    cases hc : ops.has_capability with
    | none => exact ⟨_, rfl⟩
    | some has_capability =>
      dsimp only
      rw [if_pos (h has_capability hc s)]
      exact ⟨_, rfl⟩
  | has field =>
    obtain ⟨m, hm⟩ := ask_field_fails h s
    exact ⟨m, by simp only [EvalOps.ask, hm]; rfl⟩
  | eq field value =>
    obtain ⟨m, hm⟩ := ask_field_fails h s
    exact ⟨m, by simp only [EvalOps.ask, hm]; rfl⟩
  | ne field value =>
    obtain ⟨m, hm⟩ := ask_field_fails h s
    exact ⟨m, by simp only [EvalOps.ask, hm]; rfl⟩
  | in_ field values =>
    obtain ⟨m, hm⟩ := ask_field_fails h s
    exact ⟨m, by simp only [EvalOps.ask, hm]; rfl⟩
  | not_in field values =>
    obtain ⟨m, hm⟩ := ask_field_fails h s
    exact ⟨m, by simp only [EvalOps.ask, hm]; rfl⟩

/-- A compiled source has one meaning, and evaluating its program finds the Kleene
value of it. The first evaluation clause holds for any resolver, whatever its state
does to its answers; the other two separate the callbacks that answer from those
that fail. -/
theorem evaluate_kleene {source : Bytes} {schema : Schema} {p : Program}
    (h : salts_selector_compile_v1 source schema = some p) :
    ∃ e : Expression, SourceExpression source e ∧ (∀ e', SourceExpression source e' → e' = e) ∧
      (∀ (σ : Type) (ops : EvalOps σ) (context : σ),
        salts_selector_program_evaluate_v1 p ops context = outcome (e.run ops.ask context)) ∧
      ∀ (σ : Type) (ops : EvalOps σ) (env : Environment) (context : σ),
        ((∀ q ∈ e.needed (Predicate.truth env), q.Answered ops env) →
          salts_selector_program_evaluate_v1 p ops context =
            ⟨.ok, if e.value (Predicate.truth env) = .yes then 1 else 0⟩) ∧
        ((∀ q ∈ e.needed (Predicate.truth env), q.Answered ops env ∨ q.Fails ops) →
          (∃ q ∈ e.needed (Predicate.truth env), q.Fails ops) →
          ∃ message, salts_selector_program_evaluate_v1 p ops context =
            ⟨.evaluation_error message, 0⟩) := by
  obtain ⟨t, e, hc⟩ := compile_sound h
  have hexpr : SourceExpression source e := ⟨t, hc.tokens, hc.built.means⟩
  refine ⟨e, hexpr, fun e' he' => he'.unique hexpr, fun σ ops context => evaluate_run hc ops context,
    fun σ ops env context => ⟨?_, ?_⟩⟩
  · intro ha
    obtain ⟨s', hs⟩ := Formula.run_answered context fun q hq => (ha q hq).ask
    rw [evaluate_run hc, hs]
    rfl
  · rintro ha ⟨q, hq, hf⟩
    obtain ⟨m, hm⟩ := Formula.run_refused context
      (fun q hq => (ha q hq).imp Predicate.Answered.ask Predicate.Fails.ask) ⟨q, hq, hf.ask⟩
    exact ⟨m, by rw [evaluate_run hc, hm]; rfl⟩

theorem evaluate_kleene_has :
    ∃ p, salts_selector_compile_v1 (text "!has(a)") ⟨[text "a"], false⟩ = some p ∧
      ∃ e, SourceExpression (text "!has(a)") e := by
  have hc : (salts_selector_compile_v1 (text "!has(a)") ⟨[text "a"], false⟩).isSome = true := by
    decide +kernel
  obtain ⟨p, hp⟩ := Option.isSome_iff_exists.mp hc
  obtain ⟨e, he, -⟩ := evaluate_kleene hp
  exact ⟨p, hp, e, he⟩

/-!
## The canonical text

The renderer puts a pair of parentheses around every connective.
-/

def render_list : List Bytes → Bytes
  | [] => []
  | first :: rest =>
    selector_writer_string first ++ rest.flatMap fun value => text ", " ++ selector_writer_string value

/-- The first argument counts the levels that the depth limit still allows. -/
def selector_render_node (p : Program) : ℕ → ℕ → Option Bytes
  | 0, _ => none
  | levels + 1, node_index =>
    match p.nodes[node_index]? with
    | none => none
    | some node =>
      let field := string_of p.strings node.field
      let value := selector_writer_string (string_of p.strings node.value)
      let values := render_list
        (((p.list_values.drop node.list_start).take node.list_count).map (string_of p.strings))
      match node.kind with
      | .and => do
        let left ← selector_render_node p levels node.left
        let right ← selector_render_node p levels node.right
        return text "(" ++ left ++ text " && " ++ right ++ text ")"
      | .or => do
        let left ← selector_render_node p levels node.left
        let right ← selector_render_node p levels node.right
        return text "(" ++ left ++ text " || " ++ right ++ text ")"
      | .not => do
        let left ← selector_render_node p levels node.left
        return text "!(" ++ left ++ text ")"
      | .capability => some (text "capability(" ++ value ++ text ")")
      | .has =>
        if p.strings.length < node.field.offset + node.field.length then none
        else some (text "has(" ++ field ++ text ")")
      | .eq =>
        if p.strings.length < node.field.offset + node.field.length then none
        else some (field ++ text " == " ++ value)
      | .ne =>
        if p.strings.length < node.field.offset + node.field.length then none
        else some (field ++ text " != " ++ value)
      | .in_ =>
        if p.strings.length < node.field.offset + node.field.length then none
        else if p.list_values.length < node.list_start + node.list_count then none
        else some (field ++ text " in [" ++ values ++ text "]")
      | .not_in =>
        if p.strings.length < node.field.offset + node.field.length then none
        else if p.list_values.length < node.list_start + node.list_count then none
        else some (field ++ text " not in [" ++ values ++ text "]")

/-- The text written to an output that is large enough. -/
def salts_selector_program_canonical_v1 (p : Program) : Option Bytes :=
  if p.nodes.length ≤ p.root then none
  else
    (selector_render_node p (max_depth + 1) p.root).bind fun written =>
      if max_canonical_bytes < written.length then none else some written

def Predicate.canonical : Predicate → Bytes
  | eq field value => field ++ text " == " ++ selector_writer_string value
  | ne field value => field ++ text " != " ++ selector_writer_string value
  | in_ field values => field ++ text " in [" ++ render_list values ++ text "]"
  | not_in field values => field ++ text " not in [" ++ render_list values ++ text "]"
  | has field => text "has(" ++ field ++ text ")"
  | capability name => text "capability(" ++ selector_writer_string name ++ text ")"

def join_text : Connective → Bytes
  | .and => text " && "
  | .or => text " || "

def Expression.canonical : Expression → Bytes
  | .atom q => q.canonical
  | .join c f g =>
    text "(" ++ Expression.canonical f ++ join_text c ++ Expression.canonical g ++ text ")"
  | .not f => text "!(" ++ Expression.canonical f ++ text ")"

theorem render_leaf {node : Node} (hn : p.nodes[i]? = some node) (h : node.Holds p.toCtx q) :
    selector_render_node p (n + 1) i = some q.canonical := by
  cases q with
  | eq f v =>
    obtain ⟨hk, hf, hv⟩ := h
    simp only [selector_render_node, hn, hk, hf.bytes, hv.bytes, Predicate.canonical,
      if_neg (Nat.not_lt.mpr hf.inside)]
  | ne f v =>
    obtain ⟨hk, hf, hv⟩ := h
    simp only [selector_render_node, hn, hk, hf.bytes, hv.bytes, Predicate.canonical,
      if_neg (Nat.not_lt.mpr hf.inside)]
  | in_ f vs =>
    obtain ⟨hk, hf, hl⟩ := h
    simp only [selector_render_node, hn, hk, hf.bytes, Predicate.canonical, (holds_map hl.2).1,
      if_neg (Nat.not_lt.mpr hf.inside), if_neg (Nat.not_lt.mpr hl.1)]
  | not_in f vs =>
    obtain ⟨hk, hf, hl⟩ := h
    simp only [selector_render_node, hn, hk, hf.bytes, Predicate.canonical, (holds_map hl.2).1,
      if_neg (Nat.not_lt.mpr hf.inside), if_neg (Nat.not_lt.mpr hl.1)]
  | has f =>
    obtain ⟨hk, hf⟩ := h
    simp only [selector_render_node, hn, hk, hf.bytes, Predicate.canonical,
      if_neg (Nat.not_lt.mpr hf.inside)]
  | capability name =>
    obtain ⟨hk, hv⟩ := h
    simp only [selector_render_node, hn, hk, hv.bytes, Predicate.canonical]

theorem render_node_canonical (h : Denotes p.toCtx e i) (hd : e.depth ≤ n) :
    selector_render_node p n i = some (Expression.canonical e) := by
  induction e generalizing i n with
  | atom q =>
    cases n with
    | zero => simp [Formula.depth] at hd
    | succ n =>
      obtain ⟨node, hn, hq⟩ := h
      exact render_leaf hn hq
  | join c f g ihf ihg =>
    cases n with
    | zero => simp [Formula.depth] at hd
    | succ n =>
      obtain ⟨node, hn, hk, hf, hg⟩ := h
      simp only [Formula.depth] at hd
      have hdf : f.depth ≤ n := by omega
      have hdg : g.depth ≤ n := by omega
      cases c <;>
        simp only [selector_render_node, hn, hk, join_kind, ihf hf hdf, ihg hg hdg,
          Expression.canonical, join_text, Option.bind_eq_bind, Option.bind_some, Option.pure_def]
  | not f ih =>
    cases n with
    | zero => simp [Formula.depth] at hd
    | succ n =>
      obtain ⟨node, hn, hk, hf⟩ := h
      simp only [Formula.depth] at hd
      have hdf : f.depth ≤ n := by omega
      simp only [selector_render_node, hn, hk, ih hf hdf, Expression.canonical,
        Option.bind_eq_bind, Option.bind_some, Option.pure_def]

theorem render_list_length (values : List Bytes) :
    (render_list values).length ≤ 6 * (values.map List.length).sum + 4 * values.length := by
  have hrest : ∀ rest : List Bytes,
      (rest.flatMap fun value => text ", " ++ selector_writer_string value).length ≤
        6 * (rest.map List.length).sum + 4 * rest.length := by
    intro rest
    induction rest with
    | nil => simp
    | cons v rest ih =>
      have hv := writer_string_length v
      have hc : (text ", ").length = 2 := rfl
      simp only [List.flatMap_cons, List.length_append, List.map_cons, List.sum_cons,
        List.length_cons, hc]
      omega
  cases values with
  | nil => simp [render_list]
  | cons v rest =>
    have hv := writer_string_length v
    have := hrest rest
    simp only [render_list, List.length_append, List.map_cons, List.sum_cons, List.length_cons]
    omega

theorem predicate_canonical_length (q : Predicate) :
    q.canonical.length ≤ 6 * q.bytes + 4 * q.items + 14 := by
  have h₁ : (text " == ").length = 4 := rfl
  have h₂ : (text " != ").length = 4 := rfl
  have h₃ : (text " in [").length = 5 := rfl
  have h₄ : (text " not in [").length = 9 := rfl
  have h₅ : (text "]").length = 1 := rfl
  have h₆ : (text "has(").length = 4 := rfl
  have h₇ : (text ")").length = 1 := rfl
  have h₈ : (text "capability(").length = 11 := rfl
  cases q with
  | eq f v =>
    have := writer_string_length v
    simp only [Predicate.canonical, Predicate.bytes, Predicate.items, List.length_append, h₁]
    omega
  | ne f v =>
    have := writer_string_length v
    simp only [Predicate.canonical, Predicate.bytes, Predicate.items, List.length_append, h₂]
    omega
  | in_ f vs =>
    have := render_list_length vs
    simp only [Predicate.canonical, Predicate.bytes, Predicate.items, List.length_append, h₃, h₅]
    omega
  | not_in f vs =>
    have := render_list_length vs
    simp only [Predicate.canonical, Predicate.bytes, Predicate.items, List.length_append, h₄, h₅]
    omega
  | has f =>
    simp only [Predicate.canonical, Predicate.bytes, Predicate.items, List.length_append, h₆, h₇]
    omega
  | capability name =>
    have := writer_string_length name
    simp only [Predicate.canonical, Predicate.bytes, Predicate.items, List.length_append, h₇, h₈]
    omega

theorem canonical_length (e : Expression) :
    (Expression.canonical e).length ≤
      6 * Expression.bytes e + 4 * Expression.items e + 14 * e.size := by
  have h₁ : (text "(").length = 1 := rfl
  have h₂ : (text ")").length = 1 := rfl
  have h₃ : (text "!(").length = 2 := rfl
  induction e with
  | atom q =>
    have := predicate_canonical_length q
    simp only [Expression.canonical, Expression.bytes, Expression.items, Formula.atoms, Formula.size,
      List.map_cons, List.map_nil, List.sum_cons, List.sum_nil]
    omega
  | join c f g ihf ihg =>
    have hc : (join_text c).length = 4 := by cases c <;> rfl
    simp only [Expression.canonical, Expression.bytes, Expression.items, Formula.atoms, Formula.size,
      List.map_append, List.sum_append, List.length_append, h₁, h₂, hc] at *
    omega
  | not f ih =>
    simp only [Expression.canonical, Expression.bytes, Expression.items, Formula.atoms, Formula.size,
      List.length_append, h₂, h₃] at *
    omega

theorem Predicate.items_normal (q : Predicate) : q.normal.items = q.items := by
  cases q <;> simp [Predicate.normal, Predicate.items, (sorted_perm _).length_eq]

theorem Predicate.bytes_normal (q : Predicate) : q.normal.bytes = q.bytes := by
  cases q <;> simp [Predicate.normal, Predicate.bytes, ((sorted_perm _).map _).sum_nat]

theorem items_normal (e : Expression) :
    Expression.items (Expression.normal e) = Expression.items e := by
  simp only [Expression.items, Expression.normal, Formula.atoms_map, List.map_map]
  congr 1
  exact List.map_congr_left fun q _ => q.items_normal

theorem bytes_normal (e : Expression) :
    Expression.bytes (Expression.normal e) = Expression.bytes e := by
  simp only [Expression.bytes, Expression.normal, Formula.atoms_map, List.map_map]
  congr 1
  exact List.map_congr_left fun q _ => q.bytes_normal

theorem canonical_eq {source : Bytes} {schema : Schema} {t : Tree .or_expr}
    (h : Compiled source schema p t e) : salts_selector_program_canonical_v1 p =
      some (Expression.canonical (Expression.normal e)) := by
  have hb := h.built
  have hidx := hb.index
  have hdepth := hb.depth
  have hrender := render_node_canonical (n := max_depth + 1) hb.denotes
    (by simp [Expression.normal]; omega)
  have hlen : (Expression.canonical (Expression.normal e)).length ≤ max_canonical_bytes := by
    have hroom := canonical_length (Expression.normal e)
    have hnodes := hb.nodes
    have hitems := hb.items
    have hbytes := hb.bytes
    have hnodes_le := hb.nodes_le
    have hitems_le := hb.items_le (by simp [Ctx.empty])
    have hbytes_le := hb.bytes_le (by simp [Ctx.empty])
    rw [items_normal, bytes_normal, Expression.normal, Formula.size_map] at hroom
    simp only [Ctx.empty, List.length_nil] at hnodes hitems hbytes
    unfold max_nodes at hnodes_le
    unfold max_list_items at hitems_le
    unfold string_pool_bytes max_source_bytes at hbytes_le
    unfold max_canonical_bytes
    unfold Expression.normal
    omega
  unfold salts_selector_program_canonical_v1
  rw [if_neg (by omega), hrender, Option.bind_some, if_neg (by omega)]

end SaltsUtils.Selector
