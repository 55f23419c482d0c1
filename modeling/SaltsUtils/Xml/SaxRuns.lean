import SaltsUtils.Library.Outcome
import SaltsUtils.Xml.SaxScan

/-!
# Runs of the XML parser

What the text and the markup of a round keep, a run keeps.
-/

set_option autoImplicit false

namespace SaltsUtils.Xml

def Parser.Failed (p : Parser) : Prop := p.error.isSome = true

theorem set_error_failed (p : Parser) (message : String) : (p.set_error message).Failed := by
  rw [Parser.Failed, Parser.set_error]
  split
  · next h => exact h
  · rfl

variable {α : Type}

theorem fail_meets {Q : α → Prop} (p : Parser) (message : String) :
    Meets Parser.Failed Q (fail p message) := set_error_failed p message

variable {p : Parser}

theorem deliver_meets {Q : Parser → Prop} (env : Env) {event : Event}
    (h : Q { p with events := p.events ++ [event] }) :
    Meets Parser.Failed Q (deliver env p event) := by
  unfold deliver
  split
  · exact h
  · exact fail_meets _ _

def Scan.Settled {α : Type} : Scan α → Prop
  | .more => False
  | _ => True

theorem Scan.Settled.bind {β : Type} {s : Scan α} {f : α → Bytes → Scan β} (h : s.Settled)
    (hf : ∀ x rest, (f x rest).Settled) : (s.bind f).Settled := by
  cases s with
  | more => exact h
  | error => exact trivial
  | found x rest => exact hf x rest

theorem Scan.Settled.cons {s : Scan Bytes} (c : ℕ) (h : s.Settled) : (s.cons c).Settled := by
  cases s with
  | more => exact h
  | error => exact trivial
  | found => exact trivial

theorem scan_value_settled (quote : ℕ) (text : Bytes) : (scan_value true quote text).Settled := by
  induction text with
  | nil => exact trivial
  | cons c text ih =>
    rw [scan_value]
    split_ifs
    · exact trivial
    · exact trivial
    · exact ih.cons c

theorem parse_attribute_settled (text : Bytes) : (parse_attribute true text).Settled := by
  have hname : (parse_name true text).Settled := by
    cases text with
    | nil => exact trivial
    | cons c text =>
      rw [parse_name]
      split_ifs <;> exact trivial
  refine hname.bind fun _ rest => Scan.Settled.bind ?_ fun _ rest => Scan.Settled.bind ?_
    fun _ _ => trivial
  · unfold expect
    cases rest.dropWhile is_ws with
    | nil => exact trivial
    | cons c rest =>
      simp only
      split_ifs <;> exact trivial
  · unfold quoted_value
    cases rest.dropWhile is_ws with
    | nil => exact trivial
    | cons c rest =>
      simp only
      split_ifs
      · exact scan_value_settled c rest
      · exact trivial

def attributes (attrs : List (Bytes × Bytes)) : List Event :=
  attrs.map fun a => .attribute a.1 a.2

variable {P : Parser → Prop} {text : Bytes}

theorem emit_attributes_meets (env : Env) {rounds : ℕ}
    (h : ∀ attrs, P { p with events := p.events ++ attributes attrs }) :
    Meets Parser.Failed P (emit_attributes env rounds p text) := by
  have hp : P p := by
    have h := h []
    rw [attributes, List.map_nil, List.append_nil] at h
    exact h
  induction rounds generalizing p text with
  | zero => exact hp
  | succ rounds ih =>
    rw [emit_attributes]
    split_ifs
    · exact hp
    · have hs := parse_attribute_settled (text.dropWhile is_ws)
      cases ha : parse_attribute true (text.dropWhile is_ws) with
      | more =>
        rw [ha] at hs
        exact absurd hs id
      | error message => exact fail_meets p message
      | found item rest =>
        obtain ⟨name, value⟩ := item
        refine Meets.bind (deliver_meets (Q := fun q =>
          q = { p with events := p.events ++ [.attribute name value] }) env rfl) ?_
        rintro q rfl
        refine ih (fun attrs => ?_) ?_
        · simpa [attributes] using h ((name, value) :: attrs)
        · simpa [attributes] using h [(name, value)]

theorem emit_doctype_meets (env : Env) (content : Bytes)
    (h : p.root_seen = false → P { p with events := p.events ++ [.doctype content] }) :
    Meets Parser.Failed P (emit_doctype env p content) := by
  unfold emit_doctype
  split_ifs with hs
  · exact fail_meets _ _
  · exact deliver_meets env (h (Bool.eq_false_iff.mpr hs))

def Parser.started_element (p : Parser) (name : Bytes) (attrs : List (Bytes × Bytes)) : Parser :=
  { p.see_root with events := p.events ++ .element_start name :: attributes attrs }

def Parser.opened (p : Parser) (name : Bytes) (attrs : List (Bytes × Bytes)) : Parser :=
  { p.started_element name attrs with stack := name :: p.stack }

def Parser.whole_element (p : Parser) (name : Bytes) (attrs : List (Bytes × Bytes)) : Parser :=
  Parser.close_root
    { p.see_root with
      events := p.events ++ (.element_start name :: attributes attrs ++ [.element_end name]) }

theorem emit_start_tag_meets (env : Env) (name body : Bytes) {self_closing : Bool}
    (hopen : p.root_closed = false → self_closing = false → p.stack.length < sax_max_depth →
      ∀ attrs, P (p.opened name attrs))
    (hwhole : p.root_closed = false → self_closing = true → ∀ attrs, P (p.whole_element name attrs)) :
    Meets Parser.Failed P (emit_start_tag env p name body self_closing) := by
  unfold emit_start_tag
  by_cases hc : p.root_closed = true
  · rw [if_pos hc]
    exact fail_meets _ _
  rw [if_neg hc]
  have hc := Bool.eq_false_iff.mpr hc
  refine Meets.bind (deliver_meets (Q := fun q => q = p.started_element name []) env rfl) ?_
  rintro q rfl
  have hattrs : Meets Parser.Failed (fun q => ∃ attrs, q = p.started_element name attrs)
      (emit_attributes env (body.length + 1) (p.started_element name []) body) := by
    refine emit_attributes_meets env fun attrs => ⟨attrs, ?_⟩
    simp [Parser.started_element, attributes]
  refine hattrs.bind ?_
  rintro q ⟨attrs, rfl⟩
  cases self_closing with
  | true =>
    refine Meets.bind (deliver_meets (Q := fun q => q.close_root = p.whole_element name attrs) env
      ?_) ?_
    · simp [Parser.whole_element, Parser.started_element]
    · intro q hq
      rw [hq]
      exact hwhole hc rfl attrs
  | false =>
    change Meets _ _ (push env (p.started_element name attrs) name)
    unfold push
    split_ifs with hd hm
    · exact fail_meets _ _
    · exact hopen hc rfl (Nat.lt_of_not_le hd) attrs
    · exact fail_meets _ _

/-- The innermost element has ended. -/
def Parser.closed (p : Parser) (name : Bytes) (stack : List Bytes) : Parser :=
  { p with
    events := p.events ++ [.element_end name], stack := stack
    root_closed := p.root_closed || decide (stack = []) }

theorem pop_meets (env : Env) (name : Bytes)
    (h : ∀ stack, p.stack = name :: stack → P (p.closed name stack)) :
    Meets Parser.Failed P ((pop p name).bind fun p => deliver env p (.element_end name)) := by
  unfold pop
  cases hs : p.stack with
  | nil => exact fail_meets _ _
  | cons top stack =>
    simp only
    split_ifs with ht
    · subst ht
      exact deliver_meets env (h stack hs)
    · exact fail_meets _ _

theorem emit_text_meets (env : Env) (text : Bytes) (hp : P p)
    (h : p.stack ≠ [] → P { p with events := p.events ++ [.text text] }) :
    Meets Parser.Failed P (emit_text env p text) := by
  unfold emit_text
  split_ifs with h1 h2
  · exact hp
  · exact hp
  · exact fail_meets _ _
  · exact deliver_meets env (h h2)

/-- The parsers and texts at which the markup of a run is looked at. -/
def sax_rounds (env : Env) (final : Bool) : ℕ → Parser → Bytes → List (Parser × Bytes)
  | 0, _, _ => []
  | rounds + 1, p, text =>
    match text.dropWhile (· != 60) with
    | [] => []
    | markup =>
      match emit_text env p (text.takeWhile (· != 60)) with
      | .error _ => []
      | .ok p =>
        (p, markup) ::
          match parse_markup env final p markup with
          | .ok (some (p, rest)) => sax_rounds env final rounds p rest
          | _ => []

def Behind (P : Parser → Prop) : Option (Parser × Bytes) → Prop
  | none => True
  | some (p, _) => P p

/-- What the rounds of a run keep, given `C` where they look at markup. -/
structure Kept (env : Env) (C : Parser → Bytes → Prop) (P : Parser → Prop) : Prop where
  text : ∀ p text, P p → Meets Parser.Failed P (emit_text env p text)
  markup : ∀ final p text, P p → C p text →
    Meets Parser.Failed (Behind P) (parse_markup env final p text)

theorem scanned_meets {s : Scan α} {next : α → Bytes → Step}
    (h : ∀ item rest, s = .found item rest → Meets Parser.Failed (Behind P) (next item rest)) :
    Meets Parser.Failed (Behind P) (scanned p s next) := by
  cases s with
  | more => exact trivial
  | error message => exact fail_meets _ _
  | found item rest => exact h item rest rfl

theorem consumed_meets {r : Outcome Parser} {rest : Bytes} (h : Meets Parser.Failed P r) :
    Meets Parser.Failed (Behind P) (consumed r rest) :=
  h.map fun _ hp => hp

def self_closing_tag (text : Bytes) : Bool :=
  match parse_name true (text.drop 1) with
  | .found _ rest =>
    match scan_start_tag true (rest.length + 1) rest with
    | .found self_closing _ => self_closing
    | _ => false
  | _ => false

variable {final : Bool}

theorem parse_name_final {name rest : Bytes} (h : parse_name final text = .found name rest) :
    parse_name true text = .found name rest := by
  cases text with
  | nil => cases final <;> cases h
  | cons c text => exact h

theorem scan_start_tag_final {self_closing : Bool} {tail : Bytes}
    (h : scan_start_tag final (text.length + 1) text = .found self_closing tail) :
    scan_start_tag true (text.length + 1) text = .found self_closing tail := by
  cases final with
  | true => exact h
  | false =>
    have hl := scan_start_tag_later true [] (Nat.lt_succ_self text.length)
      (Nat.lt_succ_self (text ++ []).length)
    rw [h, List.append_nil] at hl
    obtain hl | hl := hl
    · cases hl
    · rw [hl, Scan.extend, List.append_nil]

theorem parse_markup_meets {env : Env} (final : Bool)
    (hcomment : ∀ content, Meets Parser.Failed P (deliver env p (.comment content)))
    (hcdata : text.take 9 = cdata_open → ∀ content,
      Meets Parser.Failed P (deliver env p (.cdata content)))
    (hpi : ∀ target data, Meets Parser.Failed P (deliver env p (.processing_instruction target data)))
    (hdoctype : ∀ content, Meets Parser.Failed P (emit_doctype env p content))
    (hstart : ∀ name body self_closing, (self_closing = true → self_closing_tag text = true) →
      Meets Parser.Failed P (emit_start_tag env p name body self_closing))
    (hend : ∀ name, Meets Parser.Failed P ((pop p name).bind fun p =>
      deliver env p (.element_end name))) :
    Meets Parser.Failed (Behind P) (parse_markup env final p text) := by
  have htag : ∀ rest, text.drop 1 = rest →
      Meets Parser.Failed (Behind P) (parse_start_tag env final p rest) := by
    intro rest hrest
    refine scanned_meets fun name body hn => scanned_meets fun self_closing tail hs => ?_
    refine consumed_meets (hstart _ _ _ fun hself => ?_)
    rw [self_closing_tag, hrest, parse_name_final hn]
    simp only
    rw [scan_start_tag_final hs]
    exact hself
  unfold parse_markup
  split_ifs with h1 h2 h3 h4 h5
  · exact scanned_meets fun _ _ _ => trivial
  · exact scanned_meets fun _ _ _ => trivial
  · exact scanned_meets fun content _ _ => consumed_meets (hcomment content)
  · exact scanned_meets fun content _ _ => consumed_meets (hcdata h4 content)
  · exact scanned_meets fun _ _ _ => trivial
  · cases hd : text.drop 1 with
    | nil => exact htag [] hd
    | cons c rest =>
      rw [parse_tag]
      split_ifs
      · exact scanned_meets fun content _ _ => consumed_meets (hdoctype content)
      · exact scanned_meets fun _ _ _ =>
          scanned_meets fun target body _ => consumed_meets (hpi target _)
      · exact scanned_meets fun name _ _ =>
          scanned_meets fun _ _ _ => consumed_meets (hend name)
      · exact htag (c :: rest) hd

theorem Kept.loop {env : Env} {C : Parser → Bytes → Prop} (h : Kept env C P) {n : ℕ} (hp : P p)
    (hc : ∀ s ∈ sax_rounds env final n p text, C s.1 s.2) :
    Meets Parser.Failed (fun s => P s.1) (sax_loop env final n p text) := by
  induction n generalizing p text with
  | zero => exact hp
  | succ n ih =>
    rw [sax_loop]
    rw [sax_rounds] at hc
    cases hd : text.dropWhile (· != 60) with
    | nil =>
      simp only
      split_ifs
      · exact hp
      · exact (h.text p text hp).map fun _ hq => hq
    | cons c markup =>
      rw [hd] at hc
      have ht := h.text p (text.takeWhile (· != 60)) hp
      cases hq : emit_text env p (text.takeWhile (· != 60)) with
      | error q => exact ht.of_error hq
      | ok q =>
        rw [hq] at hc
        have hm := h.markup final q _ (ht.of_ok hq) (hc _ List.mem_cons_self)
        have hc := fun s hs => hc s (List.mem_cons_of_mem _ hs)
        change Meets _ _ (parse_markup env final q (c :: markup) >>= _)
        cases hs : parse_markup env final q (c :: markup) with
        | error r => exact hm.of_error hs
        | ok s =>
          cases s with
          | none => exact ht.of_ok hq
          | some s =>
            rw [hs] at hc
            exact ih (hm.of_ok hs) hc

end SaltsUtils.Xml
