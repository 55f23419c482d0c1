import SaltsUtils.Json.Grammar
import SaltsUtils.Json.SaxChunks

/-!
# What the incremental parser accepts

It accepts the texts of the grammar, and also those with a comma behind the last child
of a container: behind a comma its machine is in the state it has behind the opening
bracket, where the closing one may come. The events are those of the tree.
-/

set_option autoImplicit false

namespace SaltsUtils.Json

namespace SaxState

/-- A value may come. -/
def expects : SaxState → Bool
  | .value => true
  | .object_value => true
  | .array_value => true
  | _ => false

end SaxState

variable {p : SaxParser}

namespace SaxParser

def emits (p : SaxParser) (events : List Event) : SaxParser :=
  { p with events := p.events ++ events }

/-- In another state, with more events. -/
def after (p : SaxParser) (state : SaxState) (events : List Event) : SaxParser :=
  ⟨p.state_stack, state, p.done, p.events ++ events⟩

theorem after_after (p : SaxParser) (state state' : SaxState) (events events' : List Event) :
    (p.after state events).after state' events' = p.after state' (events ++ events') := by
  unfold after
  rw [List.append_assoc]

def run (max_depth : ℕ) (p : SaxParser) (ts : List Token) : Option SaxParser :=
  ts.foldlM (fun p token => p.process_token max_depth token) p

theorem run_nil (max_depth : ℕ) (p : SaxParser) : p.run max_depth [] = some p := rfl

theorem run_cons (max_depth : ℕ) (p : SaxParser) (token : Token) (ts : List Token) :
    p.run max_depth (token :: ts) =
      (p.process_token max_depth token).bind fun p => p.run max_depth ts := List.foldlM_cons

theorem run_append (max_depth : ℕ) (p : SaxParser) (ts us : List Token) :
    p.run max_depth (ts ++ us) = (p.run max_depth ts).bind fun p => p.run max_depth us :=
  List.foldlM_append

/-- At the root nothing is open. -/
structure Expecting (p : SaxParser) : Prop where
  open_end : p.done = false
  expects : p.state.expects = true
  root : p.state = .value → p.state_stack = []

theorem process_value (hp : p.Expecting) (max_depth : ℕ) (token : Token) :
    p.process_token max_depth token = p.value_token max_depth token := by
  obtain ⟨hd, he, -⟩ := hp
  unfold process_token
  rw [if_neg (by simp [hd])]
  cases hs : p.state <;> rw [hs] at he <;> first | rfl | cases he

theorem after_container_reopened (hp : p.Expecting) (state : SaxState) (events : List Event) :
    after_container_end ⟨resumed p.state :: p.state_stack, state, p.done, events⟩ =
      mark_value_complete { p with events := events } := by
  obtain ⟨stack, st, done, ev⟩ := p
  have hroot := hp.root
  have hexp := hp.expects
  cases st with
  | value =>
    obtain rfl : stack = [] := hroot rfl
    rfl
  | object_value =>
    unfold after_container_end resumed mark_value_complete
    simp
  | array_value =>
    unfold after_container_end resumed mark_value_complete
    simp
  | object_key => cases hexp
  | object_colon => cases hexp
  | object_comma => cases hexp
  | array_comma => cases hexp

end SaxParser

def Symbol.Runs (max_depth : ℕ) : Symbol → List Token → Prop
  | .value V, ts => ∀ p : SaxParser, p.Expecting → peak p.state_stack.length ts ≤ max_depth →
      p.run max_depth ts = some (p.emits (preorder V)).mark_value_complete
  | .members M, ts => ∀ p : SaxParser, p.done = false → p.state = .object_key →
      peak p.state_stack.length ts ≤ max_depth →
      p.run max_depth ts = some (p.after .object_comma (preorder_pairs M))
  | .pair K V, ts => ∀ p : SaxParser, p.done = false → p.state = .object_key →
      peak p.state_stack.length ts ≤ max_depth →
      p.run max_depth ts = some (p.after .object_comma (.object_key K :: preorder V))
  | .elements E, ts => ∀ p : SaxParser, p.done = false → p.state = .array_value →
      peak p.state_stack.length ts ≤ max_depth →
      p.run max_depth ts = some (p.after .array_comma (preorder_elements E))

variable {token : Token} {q : SaxParser} {ts us : List Token} {events : List Event}

section
variable {max_depth : ℕ}

theorem run_scalar (hp : p.Expecting) (h : p.value_token max_depth token = some q) :
    p.run max_depth [token] = some q := by
  rw [SaxParser.run_cons, SaxParser.process_value hp, h]
  rfl

theorem run_container {opening closing : Token} {inside : SaxState} {first end_event : Event}
    (ts : List Token) (events : List Event) (last : SaxState) (hp : p.Expecting)
    (hpeak : peak p.state_stack.length (opening :: ts ++ [closing]) ≤ max_depth)
    (hshift : ∀ depth, shift depth opening = depth + 1)
    (hopen : p.value_token max_depth opening = (p.emit first).push_container max_depth inside)
    (hts : ∀ q : SaxParser, q.done = false → q.state = inside → peak q.state_stack.length ts ≤
      max_depth → q.run max_depth ts = some (q.after last events))
    (hclose : ∀ q : SaxParser, q.done = false → q.state = last →
      q.process_token max_depth closing = some (q.emit end_event).after_container_end) :
    p.run max_depth (opening :: ts ++ [closing]) =
      some (p.emits (first :: events ++ [end_event])).mark_value_complete := by
  rw [List.cons_append, peak, hshift] at hpeak
  have hin := Nat.le_trans (Nat.le_max_right _ _) hpeak
  have hroom : ¬ max_depth ≤ (p.emit first).state_stack.length :=
    Nat.not_le.mpr (Nat.lt_of_lt_of_le (Nat.lt_succ_self _) (Nat.le_trans (le_peak _ _) hin))
  rw [peak_append] at hin
  have h1 : p.process_token max_depth opening =
      some ⟨SaxParser.resumed p.state :: p.state_stack, inside, p.done, p.events ++ [first]⟩ := by
    rw [SaxParser.process_value hp, hopen, SaxParser.push_container, if_neg hroom]
    rfl
  have h2 := hts ⟨SaxParser.resumed p.state :: p.state_stack, inside, p.done, p.events ++ [first]⟩
    hp.open_end rfl (Nat.le_trans (Nat.le_max_left _ _) hin)
  have h3 := hclose (SaxParser.after ⟨SaxParser.resumed p.state :: p.state_stack, inside, p.done,
    p.events ++ [first]⟩ last events) hp.open_end rfl
  have he : p.events ++ (first :: events ++ [end_event]) =
      p.events ++ [first] ++ events ++ [end_event] := by
    simp only [List.append_assoc, List.cons_append, List.nil_append]
  rw [List.cons_append, SaxParser.run_cons, h1, Option.bind_some, SaxParser.run_append, h2,
    Option.bind_some, SaxParser.run_cons, h3, Option.bind_some, SaxParser.run_nil, SaxParser.emits,
    he]
  exact congrArg some (SaxParser.after_container_reopened hp last _)

theorem close_object (hd : p.done = false) (hs : p.state = .object_key ∨ p.state = .object_comma) :
    p.process_token max_depth .rbrace = some (p.emit .object_end).after_container_end := by
  unfold SaxParser.process_token
  rw [if_neg (by simp [hd])]
  obtain hs | hs := hs <;> rw [hs]

theorem close_array (hd : p.done = false) (hs : p.state = .array_value ∨ p.state = .array_comma) :
    p.process_token max_depth .rbracket = some (p.emit .array_end).after_container_end := by
  unfold SaxParser.process_token SaxParser.value_token
  rw [if_neg (by simp [hd])]
  obtain hs | hs := hs
  · rw [hs]
    rfl
  · rw [hs]

theorem take_comma (hd : p.done = false) : (p.state = .object_comma →
      p.process_token max_depth .comma = some (p.after .object_key [])) ∧
    (p.state = .array_comma →
      p.process_token max_depth .comma = some (p.after .array_value [])) := by
  unfold SaxParser.process_token SaxParser.after
  rw [if_neg (by simp [hd]), List.append_nil]
  exact ⟨fun hs => by rw [hs], fun hs => by rw [hs]⟩

theorem run_children {at_child at_comma : SaxState} {events' : List Event} (hd : p.done = false)
    (hs : p.state = at_child) (hbal : level p.state_stack.length ts = p.state_stack.length)
    (hpeak : peak p.state_stack.length (ts ++ .comma :: us) ≤ max_depth)
    (hts : ∀ q : SaxParser, q.done = false → q.state = at_child → peak q.state_stack.length ts ≤
      max_depth → q.run max_depth ts = some (q.after at_comma events))
    (hus : ∀ q : SaxParser, q.done = false → q.state = at_child → peak q.state_stack.length us ≤
      max_depth → q.run max_depth us = some (q.after at_comma events'))
    (hcomma : ∀ q : SaxParser, q.done = false → q.state = at_comma →
      q.process_token max_depth .comma = some (q.after at_child [])) :
    p.run max_depth (ts ++ .comma :: us) =
      some (p.after at_comma (events ++ events')) := by
  rw [peak_append, hbal] at hpeak
  have hus' : peak p.state_stack.length us ≤ max_depth :=
    Nat.le_trans (Nat.le_max_right _ _) (Nat.le_trans (Nat.le_max_right _ _) hpeak)
  rw [SaxParser.run_append, hts p hd hs (Nat.le_trans (Nat.le_max_left _ _) hpeak),
    Option.bind_some, SaxParser.run_cons, hcomma (SaxParser.after _ _ _) hd rfl, Option.bind_some,
    SaxParser.after_after, List.append_nil, hus (SaxParser.after _ _ _) hd rfl hus',
    SaxParser.after_after]

theorem derives_runs {commas : Bool} {S : Symbol} (h : Derives commas S ts) :
    S.Runs max_depth ts := by
  induction h with
  | null => exact fun p hp _ => run_scalar hp rfl
  | literal_true => exact fun p hp _ => run_scalar hp rfl
  | literal_false => exact fun p hp _ => run_scalar hp rfl
  | number T => exact fun p hp _ => run_scalar hp rfl
  | string h =>
    intro p hp _
    apply run_scalar hp
    rw [SaxParser.value_token, h]
    rfl
  | empty_object =>
    intro p hp hpeak
    exact run_container [] [] .object_key hp hpeak (fun _ => rfl) rfl
      (fun q _ hq _ => by simp [SaxParser.run_nil, SaxParser.after, ← hq])
      (fun q hd hq => close_object hd (Or.inl hq))
  | object _ ih =>
    intro p hp hpeak
    exact run_container _ _ _ hp hpeak (fun _ => rfl) rfl ih
      (fun q hd hq => close_object hd (Or.inr hq))
  | empty_array =>
    intro p hp hpeak
    exact run_container [] [] .array_value hp hpeak (fun _ => rfl) rfl
      (fun q _ hq _ => by simp [SaxParser.run_nil, SaxParser.after, ← hq])
      (fun q hd hq => close_array hd (Or.inl hq))
  | array _ ih =>
    intro p hp hpeak
    exact run_container _ _ _ hp hpeak (fun _ => rfl) rfl ih (fun q hd hq => close_array hd (Or.inr hq))
  | @members_pair K V ts h ih =>
    intro p hd hs hpeak
    rw [ih p hd hs hpeak]
    simp only [preorder_pairs, List.append_nil]
  | @members_comma M K V ts us hm hp ihm ihp =>
    intro p hd hs hpeak
    rw [preorder_pairs_concat]
    exact run_children hd hs (hm.balanced _) hpeak ihm ihp (fun q hd => (take_comma hd).1)
  | @pair T K V ts hk hv ih =>
    intro p hd hs hpeak
    have hpeak' : peak p.state_stack.length ts ≤ max_depth :=
      Nat.le_trans (Nat.le_max_right _ _) (Nat.le_trans (Nat.le_max_right _ _) hpeak)
    have hkey : p.process_token max_depth (.string T) =
        some (p.after .object_colon [.object_key K]) := by
      unfold SaxParser.process_token
      rw [if_neg (by simp [hd]), hs]
      simp only [hk, Option.map_some]
      rfl
    have hcolon : (p.after .object_colon [.object_key K]).process_token max_depth .colon =
        some (p.after .object_value [.object_key K]) := by
      unfold SaxParser.process_token
      rw [if_neg (by simp [SaxParser.after, hd])]
      rfl
    have hvalue := ih (p.after .object_value [.object_key K]) ⟨hd, rfl, fun he => nomatch he⟩ hpeak'
    rw [SaxParser.run_cons, hkey, Option.bind_some, SaxParser.run_cons, hcolon, Option.bind_some,
      hvalue]
    simp [SaxParser.mark_value_complete, SaxParser.after, SaxParser.emits]
  | @elements_value V ts h ih =>
    intro p hd hs hpeak
    rw [ih p ⟨hd, by rw [hs]; rfl, fun he => by rw [hs] at he; cases he⟩ hpeak]
    simp [SaxParser.mark_value_complete, SaxParser.emits, SaxParser.after, hs, preorder_elements]
  | @elements_comma E V ts us he hv ihe ihv =>
    intro p hd hs hpeak
    rw [preorder_elements_concat]
    refine run_children hd hs (he.balanced _) hpeak ihe ?_ (fun q hd => (take_comma hd).2)
    intro q hd hs hpeak
    rw [ihv q ⟨hd, by rw [hs]; rfl, fun he => by rw [hs] at he; cases he⟩ hpeak]
    simp [SaxParser.mark_value_complete, SaxParser.emits, SaxParser.after, hs]
  | @object_last M ts _ h ih =>
    intro p hp hpeak
    refine run_container _ _ _ hp hpeak (fun _ => rfl) rfl ?_
      (fun q hd hq => close_object hd (Or.inl hq))
    intro q hd hs hpeak
    rw [peak_append] at hpeak
    rw [SaxParser.run_append, ih q hd hs (Nat.le_trans (Nat.le_max_left _ _) hpeak),
      Option.bind_some, SaxParser.run_cons, (take_comma (p := SaxParser.after _ _ _) hd).1 rfl,
      Option.bind_some, SaxParser.after_after, List.append_nil, SaxParser.run_nil]
  | @array_last E ts _ h ih =>
    intro p hp hpeak
    refine run_container _ _ _ hp hpeak (fun _ => rfl) rfl ?_
      (fun q hd hq => close_array hd (Or.inl hq))
    intro q hd hs hpeak
    rw [peak_append] at hpeak
    rw [SaxParser.run_append, ih q hd hs (Nat.le_trans (Nat.le_max_left _ _) hpeak),
      Option.bind_some, SaxParser.run_cons, (take_comma (p := SaxParser.after _ _ _) hd).2 rfl,
      Option.bind_some, SaxParser.after_after, List.append_nil, SaxParser.run_nil]

end

variable {V : Value}

theorem derives_unique {commas : Bool} {W : Value} (hv : Derives commas (.value V) ts)
    (hw : Derives commas (.value W) ts) : V = W := by
  have start : SaxParser.start.Expecting := ⟨rfl, rfl, fun _ => rfl⟩
  have h := (derives_runs hv _ start (Nat.le_refl _)).symm.trans
    (derives_runs hw _ start (Nat.le_refl _))
  have he := congrArg SaxParser.events (Option.some.inj h)
  refine (preorder_unique V W [] [] ?_).1
  rw [List.append_nil, List.append_nil]
  exact he

theorem json_parse_unique {text : Bytes} {W : Value} (hv : json_parse text V)
    (hw : json_parse text W) : V = W := by
  obtain ⟨ts, hts, hv⟩ := hv
  obtain ⟨us, hus, hw⟩ := hw
  obtain rfl : ts = us := Option.some.inj (hts.symm.trans hus)
  exact derives_unique hv hw

def AtElement (E : List Value) (us : List Token) : Prop :=
  (us = [] ∧ E = []) ∨ ∃ ts, us = ts ++ [.comma] ∧ Derives true (.elements E) ts

def AtKey (M : List (Bytes × Value)) (us : List Token) : Prop :=
  (us = [] ∧ M = []) ∨ ∃ ts, us = ts ++ [.comma] ∧ Derives true (.members M) ts

theorem AtElement.next {E : List Value} (h : AtElement E us) (hv : Derives true (.value V) ts) :
    Derives true (.elements (E ++ [V])) (us ++ ts) := by
  obtain ⟨rfl, rfl⟩ | ⟨us', rfl, he⟩ := h
  · exact .elements_value hv
  · rw [List.append_assoc]
    exact .elements_comma he hv

theorem AtElement.close {E : List Value} (h : AtElement E us) :
    Derives true (.value (.array E)) (.lbracket :: us ++ [.rbracket]) := by
  obtain ⟨rfl, rfl⟩ | ⟨us', rfl, he⟩ := h
  · exact .empty_array
  · exact .array_last rfl he

theorem AtKey.next {M : List (Bytes × Value)} {K : Bytes} (h : AtKey M us)
    (hp : Derives true (.pair K V) ts) : Derives true (.members (M ++ [(K, V)])) (us ++ ts) := by
  obtain ⟨rfl, rfl⟩ | ⟨us', rfl, hm⟩ := h
  · exact .members_pair hp
  · rw [List.append_assoc]
    exact .members_comma hm hp

theorem AtKey.close {M : List (Bytes × Value)} (h : AtKey M us) :
    Derives true (.value (.object M)) (.lbrace :: us ++ [.rbrace]) := by
  obtain ⟨rfl, rfl⟩ | ⟨us', rfl, hm⟩ := h
  · exact .empty_object
  · exact .object_last rfl hm

/-- The tokens read so far, what is open behind them, and the events they gave. -/
inductive Inside : List Token → List SaxState → SaxState → List Event → Prop where
  | start : Inside [] [] .value []
  | array_value {ts us : List Token} {stack : List SaxState} {state : SaxState}
      {events : List Event} {E : List Value} (h : Inside ts stack state events)
      (hs : state.expects = true) (he : AtElement E us) :
      Inside (ts ++ .lbracket :: us) (SaxParser.resumed state :: stack) .array_value
        (events ++ .array_start :: preorder_elements E)
  | array_comma {ts us : List Token} {stack : List SaxState} {state : SaxState}
      {events : List Event} {E : List Value} (h : Inside ts stack state events)
      (hs : state.expects = true) (he : Derives true (.elements E) us) :
      Inside (ts ++ .lbracket :: us) (SaxParser.resumed state :: stack) .array_comma
        (events ++ .array_start :: preorder_elements E)
  | object_key {ts us : List Token} {stack : List SaxState} {state : SaxState}
      {events : List Event} {M : List (Bytes × Value)} (h : Inside ts stack state events)
      (hs : state.expects = true) (hm : AtKey M us) :
      Inside (ts ++ .lbrace :: us) (SaxParser.resumed state :: stack) .object_key
        (events ++ .object_start :: preorder_pairs M)
  | object_colon {ts us : List Token} {stack : List SaxState} {state : SaxState}
      {events : List Event} {M : List (Bytes × Value)} {T K : Bytes}
      (h : Inside ts stack state events) (hs : state.expects = true) (hm : AtKey M us)
      (hk : string_value T = some K) :
      Inside (ts ++ .lbrace :: us ++ [.string T]) (SaxParser.resumed state :: stack) .object_colon
        (events ++ .object_start :: preorder_pairs M ++ [.object_key K])
  | object_value {ts us : List Token} {stack : List SaxState} {state : SaxState}
      {events : List Event} {M : List (Bytes × Value)} {T K : Bytes}
      (h : Inside ts stack state events) (hs : state.expects = true) (hm : AtKey M us)
      (hk : string_value T = some K) :
      Inside (ts ++ .lbrace :: us ++ [.string T, .colon]) (SaxParser.resumed state :: stack)
        .object_value (events ++ .object_start :: preorder_pairs M ++ [.object_key K])
  | object_comma {ts us : List Token} {stack : List SaxState} {state : SaxState}
      {events : List Event} {M : List (Bytes × Value)} (h : Inside ts stack state events)
      (hs : state.expects = true) (hm : Derives true (.members M) us) :
      Inside (ts ++ .lbrace :: us) (SaxParser.resumed state :: stack) .object_comma
        (events ++ .object_start :: preorder_pairs M)

/-- The invariant of the machine. -/
def Reads (ts : List Token) (p : SaxParser) : Prop :=
  (p.done = false ∧ Inside ts p.state_stack p.state p.events) ∨
    (p.done = true ∧ ∃ V, Derives true (.value V) ts ∧ p.events = preorder V)

variable {stack : List SaxState} {state : SaxState}

theorem Inside.complete (h : Inside ts stack state events) (hs : state.expects = true)
    (hv : Derives true (.value V) us) : Reads (ts ++ us)
      (SaxParser.mark_value_complete ⟨stack, state, false, events ++ preorder V⟩) := by
  cases h with
  | start => exact Or.inr ⟨rfl, V, hv, rfl⟩
  | array_value h hst he =>
    refine Or.inl ⟨rfl, ?_⟩
    have := Inside.array_comma h hst (he.next hv)
    rw [preorder_elements_concat] at this
    simpa [SaxParser.mark_value_complete] using this
  | object_value h hst hm hk =>
    refine Or.inl ⟨rfl, ?_⟩
    have := Inside.object_comma h hst (hm.next (.pair hk hv))
    rw [preorder_pairs_concat] at this
    simpa [SaxParser.mark_value_complete] using this
  | array_comma => cases hs
  | object_key => cases hs
  | object_colon => cases hs
  | object_comma => cases hs

theorem Inside.expecting (h : Inside ts stack state events) (hs : state.expects = true) :
    SaxParser.Expecting ⟨stack, state, false, events⟩ := by
  refine ⟨rfl, hs, fun he => ?_⟩
  cases he
  cases h
  rfl

theorem Inside.close {tail : List Event} (h : Inside ts stack state events) (inside : SaxState)
    (hs : state.expects = true) (hv : Derives true (.value V) us) (ht : tail = preorder V) :
    Reads (ts ++ us) (SaxParser.after_container_end
      ⟨SaxParser.resumed state :: stack, inside, false, events ++ tail⟩) := by
  rw [SaxParser.after_container_reopened (h.expecting hs), ht]
  exact h.complete hs hv

section
variable {max_depth : ℕ}

theorem value_token_reads (hd : p.done = false) (h : Inside ts p.state_stack p.state p.events)
    (hs : p.state.expects = true) (hq : p.value_token max_depth token = some q) :
    Reads (ts ++ [token]) q := by
  obtain ⟨stack, state, done, events⟩ := p
  obtain rfl : done = false := hd
  cases token with
  | null =>
    cases hq
    exact h.complete hs .null
  | true =>
    cases hq
    exact h.complete hs .literal_true
  | false =>
    cases hq
    exact h.complete hs .literal_false
  | number lexeme =>
    cases hq
    exact h.complete hs (.number lexeme)
  | string value =>
    obtain ⟨val, hval, rfl⟩ := Option.map_eq_some_iff.mp hq
    exact h.complete hs (.string hval)
  | lbrace =>
    simp only [SaxParser.value_token, SaxParser.push_container] at hq
    split at hq
    · cases hq
    · cases hq
      exact Or.inl ⟨rfl, .object_key h hs (Or.inl ⟨rfl, rfl⟩)⟩
  | lbracket =>
    simp only [SaxParser.value_token, SaxParser.push_container] at hq
    split at hq
    · cases hq
    · cases hq
      exact Or.inl ⟨rfl, .array_value h hs (Or.inl ⟨rfl, rfl⟩)⟩
  | rbracket =>
    simp only [SaxParser.value_token] at hq
    split at hq
    · next hst =>
      cases hq
      cases hst
      cases h with
      | array_value h hst he =>
        have := h.close .array_value hst he.close rfl
        simpa [preorder, SaxParser.emit] using this
    · cases hq
  | rbrace => cases hq
  | colon => cases hq
  | comma => cases hq

theorem process_token_reads (h : Reads ts p) (hq : p.process_token max_depth token = some q) :
    Reads (ts ++ [token]) q := by
  unfold SaxParser.process_token at hq
  obtain ⟨hd, h⟩ | ⟨hd, -⟩ := h
  · rw [if_neg (by simp [hd])] at hq
    obtain ⟨stack, state, done, events⟩ := p
    obtain rfl : done = false := hd
    cases state with
    | value => exact value_token_reads rfl h rfl hq
    | object_value => exact value_token_reads rfl h rfl hq
    | array_value => exact value_token_reads rfl h rfl hq
    | object_key =>
      cases h with
      | object_key h hs hm =>
        simp only at hq
        split at hq
        · obtain ⟨key, hkey, rfl⟩ := Option.map_eq_some_iff.mp hq
          exact Or.inl ⟨rfl, by simpa [SaxParser.emit] using Inside.object_colon h hs hm hkey⟩
        · cases hq
          have := h.close .object_key hs hm.close rfl
          simpa [preorder, SaxParser.emit] using this
        · cases hq
    | object_colon =>
      cases h with
      | object_colon h hs hm hk =>
        simp only at hq
        split at hq
        · cases hq
          exact Or.inl ⟨rfl, by simpa using Inside.object_value h hs hm hk⟩
        · cases hq
    | object_comma =>
      cases h with
      | object_comma h hs hm =>
        simp only at hq
        split at hq
        · cases hq
          exact Or.inl ⟨rfl, by simpa using Inside.object_key h hs (Or.inr ⟨_, rfl, hm⟩)⟩
        · cases hq
          have := h.close .object_comma hs (.object hm) rfl
          simpa [preorder, SaxParser.emit] using this
        · cases hq
    | array_comma =>
      cases h with
      | array_comma h hs he =>
        simp only at hq
        split at hq
        · cases hq
          exact Or.inl ⟨rfl, by simpa using Inside.array_value h hs (Or.inr ⟨_, rfl, he⟩)⟩
        · cases hq
          have := h.close .array_comma hs (.array he) rfl
          simpa [preorder, SaxParser.emit] using this
        · cases hq
  · rw [if_pos hd] at hq
    cases hq

theorem run_reads (h : Reads ts p) (hq : p.run max_depth us = some q) : Reads (ts ++ us) q := by
  induction us generalizing ts p with
  | nil =>
    cases hq
    rw [List.append_nil]
    exact h
  | cons token us ih =>
    rw [SaxParser.run_cons] at hq
    obtain ⟨p', hp', hq⟩ := Option.bind_eq_some_iff.mp hq
    have := ih (process_token_reads h hp') hq
    rwa [List.append_assoc] at this

end

def token_events (p : SaxParser) (ts : List Token) : Option (List Event) :=
  (p.run sax_max_depth ts).bind SaxParser.result

theorem open_ended_waiting (ht : open_ended token = true)
    (h : p.process_token sax_max_depth token = some q) : q.Waiting := by
  cases token with
  | true => exact SaxParser.literal_waiting (Or.inl rfl) h
  | false => exact SaxParser.literal_waiting (Or.inr (Or.inl rfl)) h
  | null => exact SaxParser.literal_waiting (Or.inr (Or.inr rfl)) h
  | number lexeme =>
    unfold SaxParser.process_token at h
    split at h
    · cases h
    · split at h
      all_goals
        cases h
        try exact SaxParser.mark_value_complete_waiting _
  | lbrace => cases ht
  | rbrace => cases ht
  | lbracket => cases ht
  | rbracket => cases ht
  | colon => cases ht
  | comma => cases ht
  | string value => cases ht

/-- The machine over a text is the machine over its tokens: where a delimiter is missing
behind a number or a literal, the next token is not one that may come. -/
theorem whole_tokens (p : SaxParser) (text : Bytes) :
    whole p text = (json_tokens text).bind (token_events p) := by
  induction hn : text.length using Nat.strong_induction_on generalizing p text with
  | _ n ih =>
    subst hn
    rw [json_tokens_next, whole_next, next_token_final]
    cases hnext : json_lexer_next text with
    | none => rfl
    | some found =>
      cases found with
      | none => rfl
      | some found =>
        obtain ⟨token, rest⟩ := found
        have hrest := fun q => ih rest.length (json_lexer_next_shorter hnext) q rest rfl
        have htokens : ((json_tokens rest).map (token :: ·)).bind (token_events p) =
            (p.process_token sax_max_depth token).bind fun q => whole q rest := by
          simp only [hrest]
          cases json_tokens rest with
          | none => cases p.process_token sax_max_depth token <;> rfl
          | some ts =>
            rw [Option.map_some, Option.bind_some, token_events, SaxParser.run_cons]
            cases p.process_token sax_max_depth token <;> rfl
        simp only [htokens, delimited]
        cases hc : open_ended token && !terminated rest with
        | false =>
          simp only [Bool.false_eq_true, if_false]
          cases p.process_token sax_max_depth token <;> rfl
        | true =>
          rw [Bool.and_eq_true, Bool.not_eq_true'] at hc
          simp only [if_true]
          cases hp : p.process_token sax_max_depth token with
          | none => rfl
          | some q => exact (waiting_dead (open_ended_waiting hc.1 hp) hc.2).symm

/-- The values of a text when a comma may stand behind the last child of a container. -/
def loose_parse (text : Bytes) (V : Value) : Prop :=
  ∃ ts, json_tokens text = some ts ∧ Derives true (.value V) ts

theorem sax_parse_iff {pieces : List Bytes}
    (hdepth : ∀ ts, json_tokens pieces.flatten = some ts → nesting ts ≤ sax_max_depth) :
    sax_parse pieces = some events ↔
      ∃ V, loose_parse pieces.flatten V ∧ events = preorder V := by
  rw [sax_parse_whole, whole_tokens]
  constructor
  · intro h
    obtain ⟨ts, hts, h⟩ := Option.bind_eq_some_iff.mp h
    obtain ⟨q, hq, h⟩ := Option.bind_eq_some_iff.mp h
    unfold SaxParser.result at h
    split at h
    · next hd =>
      cases h
      have hr := run_reads (Or.inl ⟨rfl, .start⟩) hq
      obtain ⟨hd', -⟩ | ⟨-, V, hV, he⟩ := hr
      · rw [hd] at hd'
        cases hd'
      · exact ⟨V, ⟨ts, hts, hV⟩, he⟩
    · cases h
  · rintro ⟨V, ⟨ts, hts, hV⟩, rfl⟩
    have hrun : SaxParser.start.run sax_max_depth ts =
        some (SaxParser.start.emits (preorder V)).mark_value_complete :=
      derives_runs hV SaxParser.start ⟨rfl, rfl, fun _ => rfl⟩ (hdepth ts hts)
    rw [hts, Option.bind_some, token_events, hrun]
    rfl

/-- The parser and the grammar agree on a text, but for one that only a comma behind a
last child keeps out of the grammar. -/
theorem sax_agrees_iff (pieces : List Bytes)
    (hdepth : ∀ ts, json_tokens pieces.flatten = some ts → nesting ts ≤ sax_max_depth) :
    (∀ events, sax_parse pieces = some events ↔
        ∃ V, json_parse pieces.flatten V ∧ events = preorder V) ↔
      ((∃ V, loose_parse pieces.flatten V) → ∃ V, json_parse pieces.flatten V) := by
  constructor
  · rintro h ⟨V, hV⟩
    obtain ⟨W, hW, -⟩ := (h (preorder V)).mp ((sax_parse_iff hdepth).mpr ⟨V, hV, rfl⟩)
    exact ⟨W, hW⟩
  · intro h events
    rw [sax_parse_iff hdepth]
    constructor
    · rintro ⟨V, hV, rfl⟩
      obtain ⟨W, ts, hts, hW⟩ := h ⟨V, hV⟩
      obtain ⟨us, hus, hV⟩ := hV
      obtain rfl : ts = us := Option.some.inj (hts.symm.trans hus)
      have := derives_unique hW.loosen hV
      exact ⟨W, ⟨ts, hts, hW⟩, by rw [this]⟩
    · rintro ⟨V, ⟨ts, hts, hV⟩, rfl⟩
      exact ⟨V, ⟨ts, hts, hV.loosen⟩, rfl⟩

/-- `[1]` and a character between two pieces. -/
theorem sax_agrees_iff_array :
    (∀ events, sax_parse [[91, 49], [93]] = some events ↔
        ∃ V, json_parse [[91, 49], [93]].flatten V ∧ events = preorder V) ↔
      ((∃ V, loose_parse [[91, 49], [93]].flatten V) → ∃ V, json_parse [[91, 49], [93]].flatten V) := by
  refine sax_agrees_iff [[91, 49], [93]] fun ts hts => ?_
  have htokens : json_tokens [[91, 49], [93]].flatten = some [.lbracket, .number [49], .rbracket] := by
    decide +kernel
  obtain rfl := Option.some.inj (htokens.symm.trans hts)
  decide +kernel

/-- `[1,]` -/
theorem sax_takes_trailing_comma :
    (∀ ts, json_tokens [[91, 49, 44, 93]].flatten = some ts → nesting ts ≤ sax_max_depth) ∧
      ¬ ∀ events, (sax_parse [[91, 49, 44, 93]] = some events ↔
        ∃ V, json_parse [[91, 49, 44, 93]].flatten V ∧ events = preorder V) := by
  have htokens : json_tokens [[91, 49, 44, 93]].flatten =
      some [.lbracket, .number [49], .comma, .rbracket] := by decide +kernel
  constructor
  · intro ts hts
    obtain rfl := Option.some.inj (htokens.symm.trans hts)
    decide +kernel
  · intro h
    obtain ⟨V, ⟨ts, hts, hV⟩, -⟩ :=
      (h [.array_start, .number [49], .array_end]).mp (by decide +kernel)
    obtain rfl := Option.some.inj (htokens.symm.trans hts)
    generalize hus : [Token.lbracket, .number [49], .comma, .rbracket] = us at hV
    cases hV with
    | array he =>
      obtain ⟨ws, token, rfl, ht⟩ := he.last
      have hlast := congrArg (fun l => l.reverse[1]?) hus
      simp at hlast
      exact ht hlast.symm
    | array_last hc => cases hc
    | _ => simp at hus

/-- Whatever the pieces, the events are the preorder of the one value of the text in the grammar
that takes a comma behind a last child. -/
theorem sax_reads_value {pieces : List Bytes}
    (hdepth : ∀ ts, json_tokens pieces.flatten = some ts → nesting ts ≤ sax_max_depth) :
    sax_parse pieces = some events ↔
      (∃! V, loose_parse pieces.flatten V) ∧ ∀ V, loose_parse pieces.flatten V → events = preorder V := by
  have hone : ∀ V W, loose_parse pieces.flatten V → loose_parse pieces.flatten W → W = V := by
    rintro V W ⟨ts, hts, hV⟩ ⟨us, hus, hW⟩
    obtain rfl := Option.some.inj (hts.symm.trans hus)
    exact derives_unique hW hV
  rw [sax_parse_iff hdepth]
  constructor
  · rintro ⟨V, hV, rfl⟩
    exact ⟨⟨V, hV, fun W => hone V W hV⟩, fun W hW => by rw [hone V W hV hW]⟩
  · rintro ⟨⟨V, hV, -⟩, h⟩
    exact ⟨V, hV, h V hV⟩

/-- `[1,` and `]` -/
theorem sax_reads_value_comma : ∃! V, loose_parse [91, 49, 44, 93] V := by
  refine ((@sax_reads_value [.array_start, .number [49], .array_end] [[91, 49, 44], [93]] ?_).mp
    (by decide +kernel)).1
  have htokens : json_tokens [91, 49, 44, 93] = some [.lbracket, .number [49], .comma, .rbracket] := by
    decide +kernel
  rintro ts hts
  obtain rfl := Option.some.inj (htokens.symm.trans hts)
  decide +kernel

end SaltsUtils.Json
