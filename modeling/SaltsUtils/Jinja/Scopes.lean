import Mathlib.Data.List.Basic
import Mathlib.Data.List.Infix
import Mathlib.Logic.Relation
import SaltsUtils.Library.Outcome

/-!
# Scopes of names

The events of a body make a frame of symbols over the frames of the enclosing bodies.
-/

set_option autoImplicit false

namespace SaltsUtils.Jinja

abbrev Bytes := List UInt8

structure Span where
  offset : ℕ
  length : ℕ
deriving DecidableEq

inductive ScopeEventKind
  | read
  | store
  | parameter
  | branch_store
deriving DecidableEq

structure ScopeEvent where
  kind : ScopeEventKind
  name : Span

inductive ScopeLoad
  | argument
  | resolve
  | alias
  | undefined
deriving DecidableEq

/-- For an alias the distance of the frame and the slot in it, otherwise zero and none
(`SIZE_MAX`). -/
structure ScopeSymbol where
  name : Span
  load : ScopeLoad
  stored : Bool
  parent_depth : ℕ
  parent_symbol : Option ℕ

structure Scope where
  source : Bytes
  symbols : List ScopeSymbol

inductive ParseStatus
  | invalid
  | capacity
deriving DecidableEq

def max_nodes : ℕ := 64
def max_references : ℕ := 2 * max_nodes
def max_scope_events : ℕ := 65536
def max_scope_depth : ℕ := 64

def name_at (source : Bytes) (name : Span) : Bytes := (source.drop name.offset).take name.length

def Scope.spelling (scope : Scope) (symbol : ScopeSymbol) : Bytes :=
  name_at scope.source symbol.name

def jinja_scope_name_valid (lexed : Bytes → Bool) (input : Bytes) (name : Span) : Bool :=
  !(decide (input.length < name.offset) || name.length == 0 ||
    decide (input.length - name.offset < name.length)) && lexed (name_at input name)

def jinja_scope_local (scope : Scope) (name : Bytes) : Option ℕ :=
  scope.symbols.findIdx? fun symbol =>
    symbol.name.length == name.length && scope.spelling symbol == name

/-- The frames stand in a list, each before the one around it. -/
def jinja_scope_lookup (name : Bytes) : List Scope → ℕ → Option (ℕ × ℕ)
  | [], _ => none
  | scope :: parents, depth =>
    match jinja_scope_local scope name with
    | some symbol => some (depth, symbol)
    | none => jinja_scope_lookup name parents (depth + 1)

def symbol_outside (frame : Scope) (symbol : ScopeSymbol) : Bool :=
  symbol.name.length == 0 || decide (frame.source.length < symbol.name.offset) ||
    decide (frame.source.length - symbol.name.offset < symbol.name.length)

def validate_chain : List Scope → ℕ → Except ParseStatus Unit
  | [], _ => .ok ()
  | frame :: parents, depth =>
    if depth = max_scope_depth then .error .capacity
    else if max_references < frame.symbols.length then .error .invalid
    else if frame.symbols.any (symbol_outside frame) then .error .invalid
    else validate_chain parents (depth + 1)

def jinja_expression_resolve_scope (lexed : Bytes → Bool) (scope : List Scope) (name : Bytes) :
    Except ParseStatus (Option (ℕ × ℕ)) :=
  if scope = [] ∨ jinja_scope_name_valid lexed name ⟨0, name.length⟩ = false then .error .invalid
  else (validate_chain scope 0).map fun _ => jinja_scope_lookup name scope 0

def check_ancestors : List Scope → ℕ → Except ParseStatus Unit
  | [], _ => .ok ()
  | ancestor :: parents, depth =>
    if depth = max_scope_depth then .error .capacity
    else if max_references < ancestor.symbols.length then .error .invalid
    else check_ancestors parents (depth + 1)

def mark_stored (symbol : ScopeSymbol) : ScopeSymbol := { symbol with stored := true }

/-- Where an enclosing frame has the name; a parameter is not looked up. -/
def scope_reference (parent : List Scope) (kind : ScopeEventKind) (name : Bytes) :
    Option (ℕ × ℕ) :=
  if kind = .parameter then none else jinja_scope_lookup name parent 0

def scope_load (kind : ScopeEventKind) (reference : Option (ℕ × ℕ)) : ScopeLoad :=
  if kind = .parameter then .argument
  else if reference.isSome then .alias
  else if kind = .store then .undefined
  else .resolve

def scope_symbol (event : ScopeEvent) (reference : Option (ℕ × ℕ)) : ScopeSymbol where
  name := event.name
  load := scope_load event.kind reference
  stored := decide (event.kind ≠ .read)
  parent_depth := (reference.map fun r => r.1 + 1).getD 0
  parent_symbol := reference.map Prod.snd

def analyze_event (lexed : Bytes → Bool) (input : Bytes) (parent : List Scope)
    (parsed : Bool × List ScopeSymbol) (event : ScopeEvent) :
    Except ParseStatus (Bool × List ScopeSymbol) :=
  if jinja_scope_name_valid lexed input event.name = false then .error .invalid
  else if event.kind = .parameter ∧ parsed.1 = true then .error .invalid
  else
    let body_started := parsed.1 || decide (event.kind ≠ .parameter)
    let name := name_at input event.name
    match jinja_scope_local ⟨input, parsed.2⟩ name with
    | some slot =>
      if event.kind = .parameter then .error .invalid
      else if event.kind ≠ .read then .ok (body_started, parsed.2.modify slot mark_stored)
      else .ok (body_started, parsed.2)
    | none =>
      let reference := scope_reference parent event.kind name
      if event.kind = .read ∧ reference.isSome = true then .ok (body_started, parsed.2)
      else if parsed.2.length = max_references then .error .capacity
      else .ok (body_started, parsed.2 ++ [scope_symbol event reference])

def jinja_expression_analyze_scope (lexed : Bytes → Bool) (input : Bytes) (parent : List Scope)
    (events : List ScopeEvent) : Except ParseStatus Scope :=
  if max_scope_events < events.length then .error .capacity
  else do
    check_ancestors parent 1
    let parsed ← events.foldlM (analyze_event lexed input parent) (false, [])
    return ⟨input, parsed.2⟩

def Inside (input : Bytes) (name : Span) : Prop :=
  0 < name.length ∧ name.offset + name.length ≤ input.length

namespace Scope

def At (frame : Scope) (slot : ℕ) (name : Bytes) : Prop :=
  ∃ s, frame.symbols[slot]? = some s ∧ frame.spelling s = name

def Has (frame : Scope) (name : Bytes) : Prop := ∃ slot, frame.At slot name

/-- No two symbols have one name. -/
def Distinct (frame : Scope) : Prop :=
  ∀ i j name, frame.At i name → frame.At j name → i = j

def Sound (frame : Scope) : Prop := ∀ s ∈ frame.symbols, Inside frame.source s.name

end Scope

def Visible (parents : List Scope) (name : Bytes) : Prop := ∃ frame ∈ parents, frame.Has name

/-- The innermost frame with the name, and the slot there. -/
def Nearest (scope : List Scope) (name : Bytes) (depth slot : ℕ) : Prop :=
  ∃ frame, scope[depth]? = some frame ∧ frame.At slot name ∧
    ∀ d < depth, ∀ f, scope[d]? = some f → ¬ f.Has name

/-- The kinds of the events of a name, in their order. -/
def uses (input : Bytes) (events : List ScopeEvent) (name : Bytes) : List ScopeEventKind :=
  (events.filter fun e => name_at input e.name == name).map ScopeEvent.kind

/-- What the symbol of a name says, for the events of the name. -/
structure Classified (parents : List Scope) (kinds : List ScopeEventKind) (name : Bytes)
    (symbol : ScopeSymbol) : Prop where
  is_argument : symbol.load = .argument ↔ .parameter ∈ kinds
  is_alias : symbol.load = .alias ↔ .parameter ∉ kinds ∧ Visible parents name
  is_undefined : symbol.load = .undefined ↔
    .parameter ∉ kinds ∧ ¬ Visible parents name ∧ kinds.head? = some .store
  is_stored : symbol.stored = true ↔ ∃ k ∈ kinds, k ≠ .read
  refers : symbol.load = .alias → ∃ depth slot, symbol.parent_depth = depth + 1 ∧
    symbol.parent_symbol = some slot ∧ Nearest parents name depth slot
  refers_not : symbol.load ≠ .alias → symbol.parent_depth = 0 ∧ symbol.parent_symbol = none

/-- A frame says what its events say. -/
structure Analysed (parents : List Scope) (events : List ScopeEvent) (frame : Scope) : Prop where
  sound : frame.Sound
  distinct : frame.Distinct
  declares : ∀ name, frame.Has name ↔
    ∃ k ∈ uses frame.source events name, k ≠ .read ∨ ¬ Visible parents name
  classified : ∀ s ∈ frame.symbols, Classified parents
    (uses frame.source events (frame.spelling s)) (frame.spelling s) s

/-- Frames that were made one upon the other, the innermost first. -/
inductive Chain (lexed : Bytes → Bool) : List Scope → Prop
  | nil : Chain lexed []
  | cons {input : Bytes} {parents : List Scope} {events : List ScopeEvent} {frame : Scope} :
    Chain lexed parents →
    jinja_expression_analyze_scope lexed input parents events = .ok frame →
    Chain lexed (frame :: parents)

theorem length_name_at {input : Bytes} {name : Span} (h : Inside input name) :
    (name_at input name).length = name.length := by
  rw [name_at, List.length_take, List.length_drop]
  have := h.2
  omega

theorem inside_of_valid {lexed : Bytes → Bool} {input : Bytes} {name : Span}
    (h : jinja_scope_name_valid lexed input name = true) : Inside input name := by
  simp only [jinja_scope_name_valid, Bool.and_eq_true, Bool.not_eq_true', Bool.or_eq_false_iff,
    decide_eq_false_iff_not, beq_eq_false_iff_ne, ne_eq] at h
  obtain ⟨⟨⟨h₁, h₂⟩, h₃⟩, -⟩ := h
  exact ⟨Nat.pos_of_ne_zero h₂, by omega⟩

variable {frame : Scope}

theorem scope_local_iff (hf : frame.Sound) (name : Bytes) (symbol : ScopeSymbol)
    (hs : symbol ∈ frame.symbols) :
    (symbol.name.length == name.length && frame.spelling symbol == name) = true ↔
      frame.spelling symbol = name := by
  rw [Bool.and_eq_true, beq_iff_eq, beq_iff_eq]
  refine ⟨fun h => h.2, fun h => ⟨?_, h⟩⟩
  rw [← h]
  exact (length_name_at (hf symbol hs)).symm

variable {slot : ℕ}

theorem at_of_scope_local (hf : frame.Sound) {name : Bytes}
    (h : jinja_scope_local frame name = some slot) : frame.At slot name := by
  obtain ⟨hlt, hslot, -⟩ := List.findIdx?_eq_some_iff_getElem.1 h
  exact ⟨frame.symbols[slot], List.getElem?_eq_getElem hlt,
    (scope_local_iff hf name _ (List.getElem_mem hlt)).1 hslot⟩

theorem scope_local_none (hf : frame.Sound) {name : Bytes} :
    jinja_scope_local frame name = none ↔ ¬ frame.Has name := by
  rw [jinja_scope_local, List.findIdx?_eq_none_iff]
  constructor
  · rintro h ⟨slot, s, hs, hname⟩
    have hmem := List.mem_of_getElem? hs
    exact absurd ((scope_local_iff hf name s hmem).2 hname) (by rw [h s hmem]; simp)
  · intro h s hs
    rw [← Bool.not_eq_true]
    intro hl
    obtain ⟨slot, hslot⟩ := List.mem_iff_getElem?.1 hs
    exact h ⟨slot, s, hslot, (scope_local_iff hf name s hs).1 hl⟩

theorem nearest_cons {parents : List Scope} {name : Bytes} {depth : ℕ} (hf : ¬ frame.Has name)
    (h : Nearest parents name depth slot) : Nearest (frame :: parents) name (depth + 1) slot := by
  obtain ⟨f, hd, hat, hout⟩ := h
  refine ⟨f, hd, hat, fun d hlt g hg => ?_⟩
  cases d with
  | zero =>
    cases hg
    exact hf
  | succ d => exact hout d (by omega) g hg

theorem lookup_some {scope : List Scope} (hs : ∀ f ∈ scope, f.Sound) {name : Bytes}
    {start depth : ℕ} (h : jinja_scope_lookup name scope start = some (depth, slot)) :
    ∃ d, depth = start + d ∧ Nearest scope name d slot := by
  induction scope generalizing start with
  | nil => cases h
  | cons frame parents ih =>
    have hframe := hs frame List.mem_cons_self
    rw [jinja_scope_lookup] at h
    split at h
    · rename_i symbol hl
      cases h
      exact ⟨0, rfl, frame, rfl, at_of_scope_local hframe hl, fun d hd => absurd hd (by omega)⟩
    · rename_i hl
      obtain ⟨d, hd, hn⟩ := ih (fun f hf => hs f (List.mem_cons_of_mem _ hf)) h
      exact ⟨d + 1, by omega, nearest_cons ((scope_local_none hframe).1 hl) hn⟩

theorem lookup_none {scope : List Scope} (hs : ∀ f ∈ scope, f.Sound) (name : Bytes) (start : ℕ) :
    jinja_scope_lookup name scope start = none ↔ ¬ Visible scope name := by
  induction scope generalizing start with
  | nil => simp [jinja_scope_lookup, Visible]
  | cons frame parents ih =>
    have hframe := hs frame List.mem_cons_self
    have hvisible : Visible (frame :: parents) name ↔ frame.Has name ∨ Visible parents name := by
      simp [Visible]
    rw [jinja_scope_lookup, hvisible]
    split
    · rename_i symbol hl
      simp [show frame.Has name from ⟨symbol, at_of_scope_local hframe hl⟩]
    · rename_i hl
      rw [ih (fun f hf => hs f (List.mem_cons_of_mem _ hf))]
      simp [(scope_local_none hframe).1 hl]

variable {parsed parsed' : Bool × List ScopeSymbol}

theorem analyze_event_cases {lexed : Bytes → Bool} {input : Bytes} {parent : List Scope}
    {event : ScopeEvent} (h : analyze_event lexed input parent parsed event = .ok parsed') :
    Inside input event.name ∧ (event.kind = .parameter → parsed.1 = false) ∧
    parsed'.1 = (parsed.1 || decide (event.kind ≠ .parameter)) ∧
    ((∃ slot, jinja_scope_local ⟨input, parsed.2⟩ (name_at input event.name) = some slot ∧
        event.kind ≠ .parameter ∧
        parsed'.2 = if event.kind = .read then parsed.2 else parsed.2.modify slot mark_stored) ∨
      (jinja_scope_local ⟨input, parsed.2⟩ (name_at input event.name) = none ∧
        event.kind = .read ∧
        (jinja_scope_lookup (name_at input event.name) parent 0).isSome = true ∧
        parsed'.2 = parsed.2) ∨
      (jinja_scope_local ⟨input, parsed.2⟩ (name_at input event.name) = none ∧
        ¬ (event.kind = .read ∧
          (scope_reference parent event.kind (name_at input event.name)).isSome = true) ∧
        parsed.2.length ≠ max_references ∧ parsed'.2 = parsed.2 ++
          [scope_symbol event (scope_reference parent event.kind (name_at input event.name))])) := by
  rw [analyze_event, guard_eq_ok, guard_eq_ok] at h
  obtain ⟨hvalid, hbody, h⟩ := h
  refine ⟨inside_of_valid (show jinja_scope_name_valid lexed input event.name = true by
    simpa using hvalid),
    fun hk => by simpa [hk] using hbody, ?_⟩
  dsimp only at h
  cases hl : jinja_scope_local ⟨input, parsed.2⟩ (name_at input event.name) with
  | some slot =>
    rw [hl] at h
    rw [guard_eq_ok] at h
    obtain ⟨hk, h⟩ := h
    split_ifs at h with hr
    · cases h
      exact ⟨rfl, .inl ⟨slot, rfl, hk, (if_neg hr).symm⟩⟩
    · cases h
      exact ⟨rfl, .inl ⟨slot, rfl, hk, (if_pos (not_not.1 hr)).symm⟩⟩
  | none =>
    rw [hl] at h
    dsimp only at h
    split_ifs at h with hr hc
    · cases h
      refine ⟨rfl, .inr (.inl ⟨rfl, hr.1, ?_, rfl⟩)⟩
      have hsome := hr.2
      rwa [scope_reference, hr.1, if_neg (by simp)] at hsome
    · cases h
      exact ⟨rfl, .inr (.inr ⟨rfl, hr, hc, rfl⟩)⟩

theorem uses_append (input : Bytes) (events : List ScopeEvent) (event : ScopeEvent)
    (name : Bytes) : uses input (events ++ [event]) name =
      uses input events name ++ if name_at input event.name = name then [event.kind] else [] := by
  by_cases h : name_at input event.name = name <;> simp [uses, List.filter_append, h]

theorem Scope.has_iff {name : Bytes} :
    frame.Has name ↔ ∃ s ∈ frame.symbols, frame.spelling s = name := by
  constructor
  · rintro ⟨slot, s, hs, hn⟩
    exact ⟨s, List.mem_of_getElem? hs, hn⟩
  · rintro ⟨s, hs, hn⟩
    obtain ⟨slot, hslot⟩ := List.mem_iff_getElem?.1 hs
    exact ⟨slot, s, hslot, hn⟩

theorem at_modify {input : Bytes} {symbols : List ScopeSymbol} {i : ℕ} {name : Bytes} :
    Scope.At ⟨input, symbols.modify slot mark_stored⟩ i name ↔
      Scope.At ⟨input, symbols⟩ i name := by
  simp only [Scope.At, List.getElem?_modify]
  cases symbols[i]? with
  | none => simp
  | some s => by_cases h : slot = i <;> simp [h, Scope.spelling, mark_stored]

variable {s : ScopeSymbol}

theorem at_append {input : Bytes} {symbols : List ScopeSymbol} {i : ℕ} {name : Bytes} :
    Scope.At ⟨input, symbols ++ [s]⟩ i name ↔
      Scope.At ⟨input, symbols⟩ i name ∨ i = symbols.length ∧ name_at input s.name = name := by
  simp only [Scope.At]
  rcases Nat.lt_trichotomy i symbols.length with hi | hi | hi
  · rw [List.getElem?_append_left hi]
    simp only [Scope.spelling]
    constructor
    · exact .inl
    · rintro (h | ⟨rfl, -⟩)
      · exact h
      · exact absurd hi (lt_irrefl _)
  · subst hi
    simp [Scope.spelling]
  · rw [List.getElem?_eq_none (by simp; omega), List.getElem?_eq_none (by omega)]
    simp [hi.ne']

/-- The frame so far, and whether an event of the body has come. -/
structure Scanned (parents : List Scope) (seen : List ScopeEvent) (input : Bytes)
    (parsed : Bool × List ScopeSymbol) : Prop where
  analysed : Analysed parents seen ⟨input, parsed.2⟩
  body : parsed.1 = false → ∀ e ∈ seen, e.kind = .parameter
  room : parsed.2.length ≤ max_references

section
variable {parents : List Scope} {seen : List ScopeEvent} {input : Bytes}
  {symbols : List ScopeSymbol} {event : ScopeEvent}

theorem classified_other
    (hc : Classified parents (uses input seen (name_at input s.name)) (name_at input s.name) s)
    (hn : name_at input event.name ≠ name_at input s.name) :
    Classified parents (uses input (seen ++ [event]) (name_at input s.name))
      (name_at input s.name) s := by
  rwa [uses_append, if_neg hn, List.append_nil]

theorem classified_again {kinds : List ScopeEventKind} {kind : ScopeEventKind} {name : Bytes}
    (hc : Classified parents kinds name s) (hne : kinds ≠ []) (hk : kind ≠ .parameter) :
    Classified parents (kinds ++ [kind]) name
      (if kind = .read then s else mark_stored s) := by
  have hparameter : ScopeEventKind.parameter ∈ kinds ++ [kind] ↔ .parameter ∈ kinds := by
    simp [hk.symm]
  have hhead : (kinds ++ [kind]).head? = kinds.head? := by
    cases kinds with
    | nil => exact absurd rfl hne
    | cons k kinds => rfl
  by_cases hr : kind = .read
  · rw [if_pos hr]
    exact { hc with
      is_argument := hc.is_argument.trans hparameter.symm
      is_alias := by rw [hparameter]; exact hc.is_alias
      is_undefined := by rw [hparameter, hhead]; exact hc.is_undefined
      is_stored := by simpa [hr] using hc.is_stored }
  · rw [if_neg hr]
    exact {
      is_argument := hc.is_argument.trans hparameter.symm
      is_alias := by rw [hparameter]; exact hc.is_alias
      is_undefined := by rw [hparameter, hhead]; exact hc.is_undefined
      is_stored := ⟨fun _ => ⟨kind, by simp, hr⟩, fun _ => rfl⟩
      refers := hc.refers
      refers_not := hc.refers_not }

theorem classified_new (hp : ∀ f ∈ parents, f.Sound) {kinds : List ScopeEventKind} {name : Bytes}
    (hname : name_at input event.name = name)
    (hkinds : ∀ k ∈ kinds, k = .read ∧ Visible parents name)
    (hread : ¬ (event.kind = .read ∧ (scope_reference parents event.kind name).isSome = true)) :
    Classified parents (kinds ++ [event.kind]) name
      (scope_symbol event (scope_reference parents event.kind name)) := by
  have hstored : (∃ k ∈ kinds ++ [event.kind], k ≠ .read) ↔ event.kind ≠ .read := by
    constructor
    · rintro ⟨k, hk, hne⟩
      rcases List.mem_append.1 hk with hk | hk
      · exact absurd (hkinds k hk).1 hne
      · rwa [← List.mem_singleton.1 hk]
    · exact fun h => ⟨event.kind, by simp, h⟩
  have hparameter : ScopeEventKind.parameter ∈ kinds ++ [event.kind] ↔
      event.kind = .parameter := by
    constructor
    · intro h
      rcases List.mem_append.1 h with h | h
      · cases (hkinds _ h).1
      · exact (List.mem_singleton.1 h).symm
    · intro h
      simp [h]
  have hnew : ¬ Visible parents name → kinds = [] := fun hv =>
    List.eq_nil_iff_forall_not_mem.2 fun k hk => hv (hkinds k hk).2
  by_cases hk : event.kind = .parameter
  · have hload : (scope_symbol event (scope_reference parents event.kind name)).load =
        .argument := by simp [scope_symbol, scope_load, hk]
    exact {
      is_argument := iff_of_true hload (hparameter.2 hk)
      is_alias := by rw [hload, hparameter]; simp [hk]
      is_undefined := by rw [hload, hparameter]; simp [hk]
      is_stored := by rw [hstored]; simp [scope_symbol]
      refers := by rw [hload]; simp
      refers_not := fun _ => by simp [scope_symbol, scope_reference, hk] }
  · have href : scope_reference parents event.kind name = jinja_scope_lookup name parents 0 := by
      rw [scope_reference, if_neg hk]
    rw [href] at hread ⊢
    cases hl : jinja_scope_lookup name parents 0 with
    | some r =>
      obtain ⟨depth, slot⟩ := r
      obtain ⟨d, hd, hnear⟩ := lookup_some hp hl
      have hv : Visible parents name := by
        by_contra hv
        rw [(lookup_none hp name 0).2 hv] at hl
        cases hl
      have hload : (scope_symbol event (some (depth, slot))).load = .alias := by
        simp [scope_symbol, scope_load, hk]
      exact {
        is_argument := by simp [hload, hparameter, hk]
        is_alias := by simp [hload, hparameter, hk, hv]
        is_undefined := by simp [hload, hv]
        is_stored := by rw [hstored]; simp [scope_symbol]
        refers := fun _ => ⟨d, slot, by simp [scope_symbol, hd], rfl, hnear⟩
        refers_not := by simp [hload] }
    | none =>
      have hv := (lookup_none hp name 0).1 hl
      have hload : (scope_symbol event none).load =
          if event.kind = .store then .undefined else .resolve := by
        simp [scope_symbol, scope_load, hk]
      have hfirst := hnew hv
      subst hfirst
      exact {
        is_argument := by rw [hload, hparameter]; split_ifs <;> simp [hk]
        is_alias := by rw [hload]; split_ifs <;> simp [hv]
        is_undefined := by
          rw [hload, hparameter]
          by_cases hs : event.kind = .store <;> simp [hs, hk, hv]
        is_stored := by rw [hstored]; simp [scope_symbol]
        refers := by rw [hload]; split_ifs <;> simp
        refers_not := fun _ => ⟨rfl, rfl⟩ }

theorem scanned_step {lexed : Bytes → Bool} (hp : ∀ f ∈ parents, f.Sound)
    (hs : Scanned parents seen input parsed)
    (h : analyze_event lexed input parents parsed event = .ok parsed') :
    Scanned parents (seen ++ [event]) input parsed' := by
  obtain ⟨hinside, hparam, hbody, hcases⟩ := analyze_event_cases h
  obtain ⟨ha, hb, hroom⟩ := hs
  have hbody' : parsed'.1 = false → ∀ e ∈ seen ++ [event], e.kind = .parameter := by
    intro hf e he
    rw [hbody, Bool.or_eq_false_iff] at hf
    rcases List.mem_append.1 he with he | he
    · exact hb hf.1 e he
    · rw [List.mem_singleton.1 he]
      simpa using hf.2
  have hdeclares : ∀ name, (∃ k ∈ uses input (seen ++ [event]) name,
      k ≠ .read ∨ ¬ Visible parents name) ↔
      Scope.Has ⟨input, parsed.2⟩ name ∨ name_at input event.name = name ∧
        (event.kind ≠ .read ∨ ¬ Visible parents name) := by
    intro name
    have hold := ha.declares name
    rw [hold, uses_append]
    simp only [List.mem_append, or_and_right, exists_or]
    by_cases hn : name_at input event.name = name <;> simp [hn]
  rcases hcases with ⟨slot, hl, hk, hsymbols⟩ | ⟨hl, hr, hsome, hsymbols⟩ | ⟨hl, hr, hc, hsymbols⟩
  · obtain ⟨s₀, hslot, hname⟩ := at_of_scope_local ha.sound hl
    have hhas : Scope.Has ⟨input, parsed.2⟩ (name_at input event.name) := ⟨slot, s₀, hslot, hname⟩
    have hall : ∀ name, Scope.Has ⟨input, parsed.2⟩ name ∨ name_at input event.name = name ∧
        (event.kind ≠ .read ∨ ¬ Visible parents name) ↔ Scope.Has ⟨input, parsed.2⟩ name := by
      intro name
      exact ⟨fun h => h.elim id fun h => h.1 ▸ hhas, .inl⟩
    have hmember : ∀ s' ∈ parsed'.2, ∃ s i, parsed.2[i]? = some s ∧
        s' = if i = slot ∧ event.kind ≠ .read then mark_stored s else s := by
      intro s' hs'
      obtain ⟨i, hi⟩ := List.mem_iff_getElem?.1 hs'
      rw [hsymbols] at hi
      split_ifs at hi with hr
      · exact ⟨s', i, hi, by simp [hr]⟩
      · rw [List.getElem?_modify] at hi
        obtain ⟨s, hs, rfl⟩ := Option.map_eq_some_iff.1 hi
        refine ⟨s, i, hs, ?_⟩
        by_cases hslot : slot = i <;> simp [hslot, hr, eq_comm]
    have hat : ∀ i name, Scope.At ⟨input, parsed'.2⟩ i name ↔ Scope.At ⟨input, parsed.2⟩ i name := by
      intro i name
      rw [hsymbols]
      split_ifs
      · rfl
      · exact at_modify
    refine ⟨⟨?_, ?_, ?_, ?_⟩, hbody', ?_⟩
    · intro s' hs'
      obtain ⟨s, i, hs, rfl⟩ := hmember s' hs'
      have := ha.sound s (List.mem_of_getElem? hs)
      split_ifs <;> exact this
    · intro i j name hi hj
      exact ha.distinct i j name ((hat i name).1 hi) ((hat j name).1 hj)
    · intro name
      rw [hdeclares, hall]
      exact exists_congr fun i => hat i name
    · intro s' hs'
      obtain ⟨s, i, hs, rfl⟩ := hmember s' hs'
      have hold : Classified parents (uses input seen (name_at input s.name))
          (name_at input s.name) s := ha.classified s (List.mem_of_getElem? hs)
      by_cases hn : name_at input event.name = name_at input s.name
      · have hi : i = slot := ha.distinct i slot _ ⟨s, hs, hn.symm⟩ ⟨s₀, hslot, hname⟩
        have hne : uses input seen (name_at input s.name) ≠ [] := by
          obtain ⟨k, hk, -⟩ := (ha.declares (name_at input s.name)).1 (hn ▸ hhas)
          exact List.ne_nil_of_mem hk
        have hagain := classified_again hold hne hk
        have hspelled : Scope.spelling ⟨input, parsed'.2⟩
            (if i = slot ∧ event.kind ≠ .read then mark_stored s else s) =
            name_at input s.name := by split_ifs <;> rfl
        rw [hspelled, uses_append, if_pos hn]
        by_cases hr : event.kind = .read
        · simpa [hr] using hagain
        · simpa [hr, hi] using hagain
      · have hi : ¬ (i = slot ∧ event.kind ≠ .read) := by
          rintro ⟨rfl, -⟩
          rw [hslot] at hs
          cases hs
          exact hn hname.symm
        rw [if_neg hi]
        exact classified_other hold hn
    · rw [hsymbols]
      split_ifs
      · exact hroom
      · rwa [List.length_modify]
  · have hv : Visible parents (name_at input event.name) := by
      by_contra hv
      rw [(lookup_none hp _ 0).2 hv] at hsome
      cases hsome
    obtain ⟨body', symbols'⟩ := parsed'
    obtain rfl : symbols' = _ := hsymbols
    refine ⟨⟨ha.sound, ha.distinct, ?_, ?_⟩, hbody', hroom⟩
    · intro name
      rw [hdeclares]
      refine ⟨.inl, fun h => h.elim id ?_⟩
      rintro ⟨rfl, h | h⟩
      · exact absurd hr h
      · exact absurd hv h
    · intro s hs
      refine classified_other (ha.classified s hs) fun hn => ?_
      exact (scope_local_none ha.sound).1 hl (Scope.has_iff.2 ⟨s, hs, hn.symm⟩)
  · have hfree := (scope_local_none ha.sound).1 hl
    have hkinds : ∀ k ∈ uses input seen (name_at input event.name),
        k = .read ∧ Visible parents (name_at input event.name) := by
      intro k hk
      by_contra hnot
      rw [not_and_or] at hnot
      exact hfree ((ha.declares _).2 ⟨k, hk, hnot⟩)
    have hnew := classified_new hp rfl hkinds hr
    obtain ⟨body', symbols'⟩ := parsed'
    obtain rfl : symbols' = _ := hsymbols
    refine ⟨⟨?_, ?_, ?_, ?_⟩, hbody', ?_⟩
    · intro s hs
      rcases List.mem_append.1 hs with hs | hs
      · exact ha.sound s hs
      · rw [List.mem_singleton.1 hs]
        exact hinside
    · intro i j name hi hj
      rw [at_append] at hi hj
      rcases hi with hi | ⟨rfl, hi⟩ <;> rcases hj with hj | ⟨rfl, hj⟩
      · exact ha.distinct i j name hi hj
      · exact absurd ⟨i, hj ▸ hi⟩ hfree
      · exact absurd ⟨j, hi ▸ hj⟩ hfree
      · rfl
    · intro name
      rw [hdeclares]
      have hhas : Scope.Has ⟨input, parsed.2 ++ [scope_symbol event
          (scope_reference parents event.kind (name_at input event.name))]⟩ name ↔
          Scope.Has ⟨input, parsed.2⟩ name ∨ name_at input event.name = name := by
        constructor
        · rintro ⟨i, hi⟩
          rcases at_append.1 hi with hi | ⟨-, hi⟩
          · exact .inl ⟨i, hi⟩
          · exact .inr hi
        · rintro (⟨i, hi⟩ | hn)
          · exact ⟨i, at_append.2 (.inl hi)⟩
          · exact ⟨_, at_append.2 (.inr ⟨rfl, hn⟩)⟩
      rw [hhas]
      refine or_congr_right ⟨fun hn => ⟨hn, ?_⟩, And.left⟩
      subst hn
      by_contra hnot
      rw [not_or, not_not, not_not] at hnot
      refine hr ⟨hnot.1, ?_⟩
      rw [hnot.1, scope_reference, if_neg (by simp), Option.isSome_iff_ne_none]
      exact fun hnone => (lookup_none hp _ 0).1 hnone hnot.2
    · intro s hs
      rcases List.mem_append.1 hs with hs | hs
      · refine classified_other (ha.classified s hs) fun hn => ?_
        exact hfree (Scope.has_iff.2 ⟨s, hs, hn.symm⟩)
      · rw [List.mem_singleton.1 hs]
        have hspelled : Scope.spelling ⟨input, parsed.2 ++ [scope_symbol event
            (scope_reference parents event.kind (name_at input event.name))]⟩
            (scope_symbol event (scope_reference parents event.kind
              (name_at input event.name))) = name_at input event.name := rfl
        rw [hspelled, uses_append, if_pos rfl]
        exact hnew
    · rw [List.length_append, List.length_singleton]
      omega

end

theorem scanned_run {lexed : Bytes → Bool} {parents : List Scope} {input : Bytes}
    (hp : ∀ f ∈ parents, f.Sound) {events seen : List ScopeEvent}
    (hs : Scanned parents seen input parsed)
    (h : events.foldlM (analyze_event lexed input parents) parsed = .ok parsed') :
    Scanned parents (seen ++ events) input parsed' := by
  induction events generalizing seen parsed with
  | nil =>
    cases h
    rwa [List.append_nil]
  | cons event events ih =>
    rw [List.foldlM_cons, bind_eq_ok] at h
    obtain ⟨middle, hstep, hrest⟩ := h
    rw [← List.singleton_append, ← List.append_assoc]
    exact ih (scanned_step hp hs hstep) hrest

theorem scanned_start (parents : List Scope) (input : Bytes) :
    Scanned parents [] input (false, []) where
  analysed := {
    sound := fun _ h => nomatch h
    distinct := fun i _ _ h => by simp [Scope.At] at h
    declares := fun name => by simp [Scope.Has, Scope.At, uses]
    classified := fun _ h => nomatch h }
  body := fun _ _ h => nomatch h
  room := Nat.zero_le _

theorem depth_of_check {parents : List Scope} {depth : ℕ} (hd : depth ≤ max_scope_depth)
    (h : check_ancestors parents depth = .ok ()) : depth + parents.length ≤ max_scope_depth := by
  induction parents generalizing depth with
  | nil => exact hd
  | cons ancestor parents ih =>
    rw [check_ancestors, guard_eq_ok, guard_eq_ok] at h
    have := ih (by omega) h.2.2
    rw [List.length_cons]
    omega

/-- A frame with what later frames and the look-up ask of it. -/
structure Admitted (frame : Scope) : Prop where
  sound : frame.Sound
  room : frame.symbols.length ≤ max_references

theorem analysed_of_analyze {lexed : Bytes → Bool} {input : Bytes} {parents : List Scope}
    {events : List ScopeEvent} (hp : ∀ f ∈ parents, f.Sound)
    (h : jinja_expression_analyze_scope lexed input parents events = .ok frame) :
    Analysed parents events frame ∧ frame.source = input ∧ Admitted frame ∧
      parents.length + 1 ≤ max_scope_depth := by
  rw [jinja_expression_analyze_scope, guard_eq_ok] at h
  obtain ⟨-, h⟩ := h
  rw [bind_eq_ok] at h
  obtain ⟨u, hdepth, h⟩ := h
  rw [bind_eq_ok] at h
  obtain ⟨parsed, hfold, h⟩ := h
  cases h
  have hs := scanned_run hp (scanned_start parents input) hfold
  rw [List.nil_append] at hs
  have hroom := depth_of_check (by decide) hdepth
  exact ⟨hs.analysed, rfl, ⟨hs.analysed.sound, hs.room⟩, by omega⟩

namespace Chain

variable {lexed : Bytes → Bool} {scope : List Scope}

theorem admitted (h : Chain lexed scope) : ∀ f ∈ scope, Admitted f := by
  induction h with
  | nil => exact fun _ h => nomatch h
  | cons _ ha ih =>
    exact List.forall_mem_cons.2 ⟨(analysed_of_analyze (fun f hf => (ih f hf).sound) ha).2.2.1, ih⟩

theorem sound (h : Chain lexed scope) (f : Scope) (hf : f ∈ scope) : f.Sound :=
  (h.admitted f hf).sound

theorem depth (h : Chain lexed scope) : scope.length ≤ max_scope_depth := by
  cases h with
  | nil => exact Nat.zero_le _
  | cons hp ha => exact (analysed_of_analyze hp.sound ha).2.2.2

theorem drop (h : Chain lexed scope) (n : ℕ) : Chain lexed (scope.drop n) := by
  induction h generalizing n with
  | nil => rw [List.drop_nil]; exact .nil
  | cons hp ha ih =>
    cases n with
    | zero => exact .cons hp ha
    | succ n => exact ih n

end Chain

theorem validate_chain_ok {scope : List Scope} {depth : ℕ} (hs : ∀ f ∈ scope, Admitted f)
    (hd : depth + scope.length ≤ max_scope_depth) : validate_chain scope depth = .ok () := by
  induction scope generalizing depth with
  | nil => rfl
  | cons frame parents ih =>
    obtain ⟨hsound, hroom⟩ := hs frame List.mem_cons_self
    rw [List.length_cons] at hd
    have hany : frame.symbols.any (symbol_outside frame) ≠ true := by
      rw [ne_eq, Bool.not_eq_true, List.any_eq_false]
      intro s hmem
      have := hsound s hmem
      simp only [symbol_outside, Bool.or_eq_true, beq_iff_eq, decide_eq_true_eq]
      have h₁ := this.1
      have h₂ := this.2
      omega
    rw [validate_chain, if_neg (by omega), if_neg (by omega), if_neg hany]
    exact ih (fun f hf => hs f (List.mem_cons_of_mem _ hf)) (by omega)

/-- From an alias to the symbol that it stands for, with the frames from there on. -/
inductive Follows : List Scope × ℕ → List Scope × ℕ → Prop
  | step {frame : Scope} {parents : List Scope} {slot slot' : ℕ} {s : ScopeSymbol} :
    frame.symbols[slot]? = some s → s.load = .alias → s.parent_symbol = some slot' →
    Follows (frame :: parents, slot) (parents.drop (s.parent_depth - 1), slot')

theorem follows_home {lexed : Bytes → Bool} {parents : List Scope}
    (hc : Chain lexed (frame :: parents)) {name : Bytes} (h : frame.At slot name) :
    ∃ frame' parents' slot' s, Relation.ReflTransGen Follows (frame :: parents, slot)
        (frame' :: parents', slot') ∧ frame'.symbols[slot']? = some s ∧
      frame'.spelling s = name ∧ s.load ≠ .alias := by
  induction hn : parents.length using Nat.strong_induction_on generalizing frame parents slot with
  | _ n ih =>
  obtain ⟨s, hslot, hname⟩ := h
  by_cases hload : s.load = .alias
  · cases hc with
    | @cons input _ events _ hp ha =>
      have hanalysed := (analysed_of_analyze hp.sound ha).1
      obtain ⟨depth, slot', hdepth, hsymbol, frame', hframe, hat, -⟩ :=
        (hanalysed.classified s (List.mem_of_getElem? hslot)).refers hload
      have hdrop : parents.drop depth = frame' :: parents.drop (depth + 1) := by
        obtain ⟨hlt, rfl⟩ := List.getElem?_eq_some_iff.1 hframe
        exact List.drop_eq_getElem_cons hlt
      have hlt : depth < parents.length := (List.getElem?_eq_some_iff.1 hframe).1
      have hfirst : Follows (frame :: parents, slot) _ := .step hslot hload hsymbol
      rw [hdepth, Nat.add_sub_cancel, hdrop] at hfirst
      obtain ⟨f, ps, t, s', hrun, hend⟩ := ih (parents.drop (depth + 1)).length
        (by rw [List.length_drop]; omega) (hdrop ▸ hp.drop depth) (hname ▸ hat) rfl
      exact ⟨f, ps, t, s', .head hfirst hrun, hend⟩
  · exact ⟨frame, parents, slot, s, .refl, hslot, hname, hload⟩

theorem scope_resolves_lexically {lexed : Bytes → Bool} {input : Bytes} {parents : List Scope}
    {events : List ScopeEvent} {frame : Scope} (hc : Chain lexed parents)
    (h : jinja_expression_analyze_scope lexed input parents events = .ok frame) :
    frame.source = input ∧ Analysed parents events frame ∧
      (∀ name, jinja_scope_name_valid lexed name ⟨0, name.length⟩ = true →
        ∃ found, jinja_expression_resolve_scope lexed (frame :: parents) name = .ok found ∧
          (found = none ↔ ¬ Visible (frame :: parents) name) ∧
          ∀ depth slot, found = some (depth, slot) →
            Nearest (frame :: parents) name depth slot) ∧
      ∀ slot name, frame.At slot name →
        ∃ frame' parents' slot' s, Relation.ReflTransGen Follows (frame :: parents, slot)
            (frame' :: parents', slot') ∧ frame'.symbols[slot']? = some s ∧
          frame'.spelling s = name ∧ s.load ≠ .alias := by
  obtain ⟨hanalysed, hsource, -, -⟩ := analysed_of_analyze hc.sound h
  have hchain : Chain lexed (frame :: parents) := .cons hc h
  refine ⟨hsource, hanalysed, ?_, fun slot name hat => follows_home hchain hat⟩
  intro name hvalid
  refine ⟨jinja_scope_lookup name (frame :: parents) 0, ?_, lookup_none hchain.sound name 0, ?_⟩
  · rw [jinja_expression_resolve_scope, if_neg (by simp [hvalid]),
      validate_chain_ok hchain.admitted (by rw [Nat.zero_add]; exact hchain.depth)]
    rfl
  · intro depth slot hfound
    obtain ⟨d, rfl, hnear⟩ := lookup_some hchain.sound hfound
    rwa [Nat.zero_add]

/-- A name stored in an outer and in an inner body: the inner symbol is an alias. -/
theorem scope_resolves_lexically_stored :
    Analysed [⟨[120], [⟨⟨0, 1⟩, .undefined, true, 0, none⟩]⟩] [⟨.store, ⟨0, 1⟩⟩]
      ⟨[120], [⟨⟨0, 1⟩, .alias, true, 1, some 0⟩]⟩ := by
  have houter : jinja_expression_analyze_scope (fun _ => true) [120] [] [⟨.store, ⟨0, 1⟩⟩] =
      .ok ⟨[120], [⟨⟨0, 1⟩, .undefined, true, 0, none⟩]⟩ := rfl
  have hinner : jinja_expression_analyze_scope (fun _ => true) [120]
      [⟨[120], [⟨⟨0, 1⟩, .undefined, true, 0, none⟩]⟩] [⟨.store, ⟨0, 1⟩⟩] =
      .ok ⟨[120], [⟨⟨0, 1⟩, .alias, true, 1, some 0⟩]⟩ := rfl
  exact (scope_resolves_lexically (.cons .nil houter) hinner).2.1

end SaltsUtils.Jinja
