import SaltsUtils.Xml.SaxScan

/-!
# Events and cuts

However a text is cut into feeds, the parser delivers the same events, but for texts that
a cut has divided.
-/

set_option autoImplicit false

namespace SaltsUtils.Xml

def glue : Event → List Event → List Event
  | .text a, .text b :: events => .text (a ++ b) :: events
  | event, events => event :: events

/-- Adjacent text events put together. -/
def merge (events : List Event) : List Event := events.foldr glue []

theorem glue_texts (a b : Bytes) (events : List Event) :
    glue (.text (a ++ b)) events = glue (.text a) (glue (.text b) events) := by
  cases events with
  | nil => rfl
  | cons e events =>
    cases e with
    | text c => exact congrArg (fun t => Event.text t :: events) (List.append_assoc a b c)
    | _ => rfl

theorem foldr_glue (tail : List Event) (event : Event) (events : List Event) :
    (glue event events).foldr glue tail = glue event (events.foldr glue tail) := by
  cases event with
  | text a =>
    cases events with
    | nil => rfl
    | cons e events =>
      cases e with
      | text b => exact glue_texts a b _
      | _ => rfl
  | _ => rfl

theorem foldr_merge (tail events : List Event) :
    (merge events).foldr glue tail = events.foldr glue tail := by
  induction events with
  | nil => rfl
  | cons e events ih =>
    rw [merge, List.foldr_cons, foldr_glue, ← merge, ih, List.foldr_cons]

theorem merge_append {xs ys : List Event} (h : merge xs = merge ys) (events : List Event) :
    merge (xs ++ events) = merge (ys ++ events) := by
  rw [merge, merge, List.foldr_append, List.foldr_append, ← foldr_merge _ xs, h, foldr_merge]

theorem merge_texts (events : List Event) (a b : Bytes) :
    merge (events ++ [.text a] ++ [.text b]) = merge (events ++ [.text (a ++ b)]) := by
  rw [List.append_assoc]
  simp only [merge, List.foldr_append]
  rfl

def Env.calm : Env := ⟨fun _ => true, fun _ => true, fun _ => true⟩

/-- The parser `q` with what a run works on from `p`, whose events come behind its own. -/
def Parser.onto (q p : Parser) : Parser :=
  { q with
    events := q.events ++ p.events, stack := p.stack, root_seen := p.root_seen
    root_closed := p.root_closed, error := p.error }

def lift {α : Type} (q : Parser) (f : α → α) : Outcome α → Outcome α
  | .ok x => .ok (f x)
  | .error p => .error (q.onto p)

def Step.lift (q : Parser) : Step → Step := Xml.lift q (Option.map fun s => (q.onto s.1, s.2))

section
variable (q : Parser)

theorem lift_bind {α β : Type} {f : α → α} {k : β → β} {g : α → Outcome β} (r : Outcome α)
    (h : ∀ x, g (f x) = lift q k (g x)) : (lift q f r).bind g = lift q k (r.bind g) := by
  cases r with
  | error => rfl
  | ok x => exact h x

theorem fail_onto {α : Type} (p : Parser) (message : String) (f : α → α) :
    (fail (q.onto p) message : Outcome α) = lift q f (fail p message) := by
  rw [fail, fail, Parser.set_error, Parser.set_error, show (q.onto p).error = p.error from rfl]
  split <;> rfl

theorem deliver_onto (p : Parser) (event : Event) :
    deliver .calm (q.onto p) event = lift q q.onto (deliver .calm p event) := by
  simp [deliver, Env.calm, lift, Parser.onto]

theorem emit_text_onto (p : Parser) (text : Bytes) :
    emit_text .calm (q.onto p) text = lift q q.onto (emit_text .calm p text) := by
  unfold emit_text
  rw [show (q.onto p).stack = p.stack from rfl]
  split_ifs
  · rfl
  · rfl
  · exact fail_onto q p _ _
  · exact deliver_onto q p _

theorem emit_doctype_onto (p : Parser) (text : Bytes) :
    emit_doctype .calm (q.onto p) text = lift q q.onto (emit_doctype .calm p text) := by
  unfold emit_doctype
  rw [show (q.onto p).root_seen = p.root_seen from rfl]
  split_ifs
  · exact fail_onto q p _ _
  · exact deliver_onto q p _

theorem push_onto (p : Parser) (name : Bytes) :
    push .calm (q.onto p) name = lift q q.onto (push .calm p name) := by
  unfold push
  rw [show (q.onto p).stack = p.stack from rfl]
  split_ifs with h1 h2 h3
  · exact fail_onto q p _ _
  · rfl
  · exact absurd rfl h3
  · exact absurd rfl h2
  · exact fail_onto q p _ _

theorem pop_onto (p : Parser) (name : Bytes) :
    pop (q.onto p) name = lift q q.onto (pop p name) := by
  unfold pop
  rw [show (q.onto p).stack = p.stack from rfl]
  cases p.stack with
  | nil => exact fail_onto q p _ _
  | cons top stack =>
    simp only
    split_ifs
    · rfl
    · exact fail_onto q p _ _

theorem emit_attributes_onto (rounds : ℕ) (p : Parser) (text : Bytes) :
    emit_attributes .calm rounds (q.onto p) text =
      lift q q.onto (emit_attributes .calm rounds p text) := by
  induction rounds generalizing p text with
  | zero => rfl
  | succ rounds ih =>
    rw [emit_attributes, emit_attributes]
    split_ifs
    · rfl
    · cases parse_attribute true (text.dropWhile is_ws) with
      | more => rfl
      | error message => exact fail_onto q p _ _
      | found item rest =>
        simp only [deliver_onto]
        exact lift_bind q _ fun p => ih p rest

theorem emit_start_tag_onto (p : Parser) (name body : Bytes) (self_closing : Bool) :
    emit_start_tag .calm (q.onto p) name body self_closing =
      lift q q.onto (emit_start_tag .calm p name body self_closing) := by
  unfold emit_start_tag
  rw [show (q.onto p).root_closed = p.root_closed from rfl,
    show (q.onto p).see_root = q.onto p.see_root from rfl, deliver_onto]
  by_cases h : p.root_closed
  · rw [if_pos h, if_pos h]
    exact fail_onto q p _ _
  · rw [if_neg h, if_neg h]
    refine lift_bind q _ fun p => ?_
    rw [emit_attributes_onto]
    refine lift_bind q _ fun p => ?_
    cases self_closing with
    | true =>
      rw [if_pos rfl, if_pos rfl, deliver_onto]
      exact lift_bind q _ fun p => rfl
    | false => exact push_onto q p name

theorem scanned_onto {α : Type} {p : Parser} (s : Scan α) {next next' : α → Bytes → Step}
    (h : ∀ item rest, next' item rest = (next item rest).lift q) :
    scanned (q.onto p) s next' = (scanned p s next).lift q := by
  cases s with
  | more => rfl
  | error message => exact fail_onto q p _ _
  | found item rest => exact h item rest

theorem consumed_onto (r : Outcome Parser) (rest : Bytes) :
    consumed (lift q q.onto r) rest = (consumed r rest).lift q := by
  cases r <;> rfl

theorem parse_start_tag_onto (final : Bool) (p : Parser) (text : Bytes) :
    parse_start_tag .calm final (q.onto p) text = (parse_start_tag .calm final p text).lift q :=
  scanned_onto q _ fun name rest =>
    scanned_onto q _ fun self_closing tail => by rw [emit_start_tag_onto, consumed_onto]

theorem parse_end_tag_onto (final : Bool) (p : Parser) (text : Bytes) :
    parse_end_tag .calm final (q.onto p) text = (parse_end_tag .calm final p text).lift q := by
  refine scanned_onto q _ fun name rest => scanned_onto q _ fun _ rest => ?_
  have hb : (lift q q.onto (pop p name)).bind (fun p => deliver .calm p (.element_end name)) =
      lift q q.onto ((pop p name).bind fun p => deliver .calm p (.element_end name)) :=
    lift_bind q _ fun p => deliver_onto q p _
  rw [pop_onto, ← consumed_onto, hb]

theorem parse_tag_onto (final : Bool) (p : Parser) (text : Bytes) :
    parse_tag .calm final (q.onto p) text = (parse_tag .calm final p text).lift q := by
  cases text with
  | nil => exact parse_start_tag_onto q final p []
  | cons c text =>
    rw [parse_tag, parse_tag]
    split_ifs
    · exact scanned_onto q _ fun item rest => by rw [emit_doctype_onto, consumed_onto]
    · exact scanned_onto q _ fun item rest =>
        scanned_onto q _ fun target body => by rw [deliver_onto, consumed_onto]
    · exact parse_end_tag_onto q final p text
    · exact parse_start_tag_onto q final p (c :: text)

theorem parse_markup_onto (final : Bool) (p : Parser) (text : Bytes) :
    parse_markup .calm final (q.onto p) text = (parse_markup .calm final p text).lift q := by
  unfold parse_markup
  split_ifs
  · exact scanned_onto q _ fun _ _ => rfl
  · exact scanned_onto q _ fun _ _ => rfl
  · exact scanned_onto q _ fun item rest => by rw [deliver_onto, consumed_onto]
  · exact scanned_onto q _ fun item rest => by rw [deliver_onto, consumed_onto]
  · exact scanned_onto q _ fun _ _ => rfl
  · exact parse_tag_onto q final p _

theorem sax_loop_onto (final : Bool) (rounds : ℕ) (p : Parser) (text : Bytes) :
    sax_loop .calm final rounds (q.onto p) text =
      lift q (fun s => (q.onto s.1, s.2)) (sax_loop .calm final rounds p text) := by
  induction rounds generalizing p text with
  | zero => rfl
  | succ rounds ih =>
    rw [sax_loop, sax_loop]
    cases text.dropWhile (· != 60) with
    | nil =>
      simp only [show (q.onto p).stack = p.stack from rfl, emit_text_onto]
      split_ifs
      · rfl
      · cases emit_text .calm p text <;> rfl
    | cons c markup =>
      simp only [emit_text_onto]
      refine lift_bind q _ fun p => ?_
      rw [parse_markup_onto]
      cases parse_markup .calm final p (c :: markup) with
      | error => rfl
      | ok s =>
        cases s with
        | none => rfl
        | some s => exact ih s.1 s.2

theorem sax_end_onto (p : Parser) : sax_end .calm (q.onto p) = lift q q.onto (sax_end .calm p) := by
  unfold sax_end
  rw [show (q.onto p).stack = p.stack from rfl,
    show (q.onto p).root_seen = p.root_seen from rfl]
  split_ifs
  · exact fail_onto q p _ _
  · exact fail_onto q p _ _
  · exact deliver_onto q p _

end

def Step.extend (more : Bytes) : Step → Step := Except.map (Option.map fun s => (s.1, s.2 ++ more))

def StepLater (more : Bytes) (s s' : Step) : Prop := s = .ok none ∨ s' = s.extend more

section
variable (more : Bytes)

theorem scanned_later {α : Type} (p : Parser) {s s' : Scan α} {next next' : α → Bytes → Step}
    (h : Later more s s')
    (hn : ∀ item rest, StepLater more (next item rest) (next' item (rest ++ more))) :
    StepLater more (scanned p s next) (scanned p s' next') := by
  obtain rfl | rfl := h
  · exact .inl rfl
  · cases s with
    | more => exact .inl rfl
    | error => exact .inr rfl
    | found item rest => exact hn item rest

theorem name_step (final : Bool) (p : Parser) {next next' : Bytes → Bytes → Step}
    (hn : ∀ name, next name [] = .ok none)
    (h : ∀ name rest, StepLater more (next name rest) (next' name (rest ++ more))) (text : Bytes) :
    StepLater more (scanned p (parse_name false text) next)
      (scanned p (parse_name final (text ++ more)) next') := by
  obtain ⟨name, hs⟩ | hl := parse_name_later final more text
  · rw [hs]
    exact .inl (hn name)
  · exact scanned_later more p hl h

theorem consumed_later (r : Outcome Parser) (rest : Bytes) :
    StepLater more (consumed r rest) (consumed r (rest ++ more)) := by
  cases r <;> exact .inr rfl

theorem parse_start_tag_later (env : Env) (final : Bool) (p : Parser) (text : Bytes) :
    StepLater more (parse_start_tag env false p text)
      (parse_start_tag env final p (text ++ more)) := by
  refine name_step more final p (fun name => rfl) (fun name rest => ?_) text
  have hs := scan_start_tag_later final more (Nat.lt_succ_self rest.length)
    (Nat.lt_succ_self (rest ++ more).length)
  obtain hs | hs := hs
  · left
    rw [hs]
    rfl
  · rw [hs]
    cases hf : scan_start_tag false (rest.length + 1) rest with
    | more => exact .inl rfl
    | error => exact .inr rfl
    | found self_closing tail =>
      obtain ⟨h1, h2⟩ := scan_start_tag_end hf
      simp only [scanned, Scan.extend, List.length_append]
      rw [List.drop_append_of_le_length h2, List.take_append_of_le_length (by omega),
        Nat.add_sub_add_right]
      exact consumed_later more _ _

theorem parse_end_tag_later (env : Env) (final : Bool) (p : Parser) (text : Bytes) :
    StepLater more (parse_end_tag env false p text) (parse_end_tag env final p (text ++ more)) :=
  name_step more final p (fun _ => rfl)
    (fun _ rest => scanned_later more p (expect_later final more 62 _ _ rest)
      fun _ rest => consumed_later more _ rest) text

theorem parse_tag_later (env : Env) (final : Bool) (p : Parser) {text : Bytes} (ht : text ≠ []) :
    StepLater more (parse_tag env false p text) (parse_tag env final p (text ++ more)) := by
  cases text with
  | nil => exact absurd rfl ht
  | cons c text =>
    rw [List.cons_append, parse_tag, parse_tag]
    split_ifs
    · exact scanned_later more p (scan_markup_end_later final more _ _ _ text)
        fun _ rest => consumed_later more _ rest
    · refine scanned_later more p (find_until_later final more _ _ text) fun content rest => ?_
      cases parse_name true content with
      | more => exact .inl rfl
      | error => exact .inr rfl
      | found target body => exact consumed_later more _ rest
    · exact parse_end_tag_later more env final p text
    · exact parse_start_tag_later more env final p (c :: text)

theorem opening_take {text opening : Bytes} {n m : ℕ}
    (h : (text ++ more).take n = opening.take (text.length + m)) :
    text.take n = opening.take text.length := by
  have ht := congrArg (List.take text.length) h
  rw [List.take_take, List.take_take, Nat.min_comm, ← List.take_take, List.take_left,
    Nat.min_eq_left (Nat.le_add_right _ _)] at ht
  exact ht

theorem parse_markup_later (env : Env) (final : Bool) (p : Parser) (text : Bytes) :
    StepLater more (parse_markup env false p text) (parse_markup env final p (text ++ more)) := by
  unfold parse_markup
  have hlen : (text ++ more).length = text.length + more.length := List.length_append
  by_cases h1 : text.length < 2
  · rw [if_pos h1]
    exact .inl rfl
  rw [if_neg h1, if_neg (by omega : ¬ (text ++ more).length < 2)]
  by_cases h2 : text.take 4 = comment_open.take text.length
  · rw [if_pos h2]
    by_cases h3 : text.length < 4
    · rw [if_pos h3]
      exact .inl rfl
    · have hall : ∀ n, 4 ≤ n → comment_open.take n = comment_open := fun n hn =>
        List.take_of_length_le hn
      rw [hall _ (by omega)] at h2
      rw [if_neg h3, List.take_append_of_le_length (by omega), hall _ (by omega), if_pos h2,
        if_neg (by omega), List.drop_append_of_le_length (by omega)]
      exact scanned_later more p (find_until_later final more _ _ _)
        fun _ rest => consumed_later more _ rest
  have h3 : ¬ (text ++ more).take 4 = comment_open.take (text ++ more).length := fun h => by
    rw [hlen] at h
    exact h2 (opening_take more h)
  rw [if_neg h2, if_neg h3]
  by_cases h4 : text.take 9 = cdata_open
  · have hn : 9 ≤ text.length := by
      have := congrArg List.length h4
      rw [List.length_take] at this
      have h9 : cdata_open.length = 9 := rfl
      omega
    rw [if_pos h4, List.take_append_of_le_length hn, if_pos h4, List.drop_append_of_le_length hn]
    exact scanned_later more p (find_until_later final more _ _ _)
      fun _ rest => consumed_later more _ rest
  rw [if_neg h4]
  by_cases h5 : text.length < 9 ∧ text = cdata_open.take text.length
  · rw [if_pos h5]
    exact .inl rfl
  have hcut : ∀ n m, 9 ≤ n → (text ++ more).take n = cdata_open.take (text.length + m) →
      9 ≤ text.length := fun n m hn h => by
    by_contra hlt
    refine h5 ⟨by omega, ?_⟩
    have := opening_take more h
    rwa [List.take_of_length_le (by omega)] at this
  have h6 : ¬ (text ++ more).take 9 = cdata_open := fun h => by
    have hn := hcut 9 9 (Nat.le_refl 9) (by rw [h, List.take_of_length_le]; exact Nat.le_add_left 9 _)
    rw [List.take_append_of_le_length hn] at h
    exact h4 h
  have h7 : ¬ ((text ++ more).length < 9 ∧
      text ++ more = cdata_open.take (text ++ more).length) := fun ⟨hlt, h⟩ => by
    have hn := hcut 9 more.length (Nat.le_refl 9) (by
      rw [List.take_of_length_le (by omega), ← hlen]
      exact h)
    omega
  rw [if_neg h5, if_neg h6, if_neg h7, List.drop_append_of_le_length (by omega)]
  refine parse_tag_later more env final p fun hd => ?_
  have := congrArg List.length hd
  rw [List.length_drop, List.length_nil] at this
  omega

end

def Step.Within (n : ℕ) : Step → Prop
  | .ok (some (_, rest)) => rest.length < n
  | _ => True

theorem scanned_within {α : Type} {n : ℕ} {p : Parser} {s : Scan α} {next : α → Bytes → Step}
    (h : s.Within n) (hn : ∀ item rest, rest.length < n → (next item rest).Within n) :
    (scanned p s next).Within n := by
  cases s with
  | more => exact trivial
  | error => exact trivial
  | found item rest => exact hn item rest h

theorem consumed_within {n : ℕ} (r : Outcome Parser) {rest : Bytes} (h : rest.length < n) :
    (consumed r rest).Within n := by
  cases r with
  | error => exact trivial
  | ok p => exact h

theorem starved_step_within {n : ℕ} (p : Parser) (final : Bool) (message : String) :
    (scanned p (starved (α := Unit) final message) fun _ _ => .ok none).Within n := by
  cases final <;> exact trivial

theorem parse_start_tag_within (env : Env) (final : Bool) (p : Parser) (text : Bytes) :
    (parse_start_tag env final p text).Within (text.length + 1) := by
  refine scanned_within ((parse_name_within final text).mono (by omega)) fun name rest hr => ?_
  cases hf : scan_start_tag final (rest.length + 1) rest with
  | more => exact trivial
  | error => exact trivial
  | found self_closing tail =>
    obtain ⟨h1, -⟩ := scan_start_tag_end hf
    refine consumed_within _ ?_
    rw [List.length_drop]
    omega

theorem parse_markup_within (env : Env) (final : Bool) (p : Parser) (text : Bytes) :
    (parse_markup env final p text).Within text.length := by
  unfold parse_markup
  split_ifs with h1 h2 h3 h4 h5
  · exact starved_step_within p final _
  · exact starved_step_within p final _
  · refine scanned_within ((find_until_within final (List.cons_ne_nil _ _) _ _).mono (by
      rw [List.length_drop]; omega)) fun _ rest hr => consumed_within _ hr
  · refine scanned_within ((find_until_within final (List.cons_ne_nil _ _) _ _).mono (by
      rw [List.length_drop]; omega)) fun _ rest hr => consumed_within _ hr
  · exact starved_step_within p final _
  · cases text with
    | nil => exact absurd (Nat.zero_lt_succ _) h1
    | cons c text =>
      simp only [List.drop_succ_cons, List.drop_zero, List.length_cons]
      cases text with
      | nil => exact parse_start_tag_within env final p []
      | cons c text =>
        rw [parse_tag, List.length_cons]
        split_ifs
        · exact scanned_within ((scan_markup_end_within final _ _ _ text).mono (by omega))
            fun _ rest hr => consumed_within _ hr
        · refine scanned_within ((find_until_within final (List.cons_ne_nil _ _) _ text).mono
            (by omega)) fun content rest hr => ?_
          cases parse_name true content with
          | more => exact trivial
          | error => exact trivial
          | found target body => exact consumed_within _ hr
        · exact scanned_within ((parse_name_within final text).mono (by omega))
            fun name rest hr => scanned_within ((expect_within final 62 _ _ rest).mono (by omega))
              fun _ rest hr => consumed_within _ hr
        · exact parse_start_tag_within env final p (c :: text)

theorem sax_loop_rounds (env : Env) (final : Bool) {n m : ℕ} {p : Parser} {text : Bytes}
    (hn : text.length < n) (hm : text.length < m) :
    sax_loop env final n p text = sax_loop env final m p text := by
  induction n generalizing m p text with
  | zero => omega
  | succ n ih =>
    cases m with
    | zero => omega
    | succ m =>
      have hl := drop_while_length (· != 60) text
      rw [sax_loop, sax_loop]
      cases hd : text.dropWhile (· != 60) with
      | nil => rfl
      | cons c markup =>
        rw [hd] at hl
        simp only
        congr 1
        funext p
        have hw := parse_markup_within env final p (c :: markup)
        cases hs : parse_markup env final p (c :: markup) with
        | error => rfl
        | ok s =>
          rw [hs] at hw
          cases s with
          | none => rfl
          | some s =>
            have hw : s.2.length < (c :: markup).length := hw
            exact ih (by omega) (by omega)

def Parser.report : Outcome Parser → Option (List Event)
  | .ok p => some (merge p.events)
  | .error _ => none

def Parser.whole (p : Parser) (text : Bytes) : Option (List Event) :=
  Parser.report
    ((sax_loop .calm true (text.length + 1) p text).bind fun s => sax_end .calm s.1)

/-- What a run goes by. -/
structure Parser.Alike (p q : Parser) : Prop where
  stack : p.stack = q.stack
  root_seen : p.root_seen = q.root_seen
  root_closed : p.root_closed = q.root_closed
  error : p.error = q.error
  events : merge p.events = merge q.events

def Parser.bare (p : Parser) : Parser :=
  ⟨[], [], 0, p.stack, false, false, p.root_seen, p.root_closed, p.error⟩

theorem onto_bare (p : Parser) : p.onto p.bare = p := by
  simp [Parser.onto, Parser.bare]

theorem whole_onto (q p : Parser) (text : Bytes) :
    (q.onto p).whole text = Parser.report (lift q q.onto
      ((sax_loop .calm true (text.length + 1) p text).bind fun s => sax_end .calm s.1)) := by
  rw [Parser.whole, sax_loop_onto,
    lift_bind q (k := q.onto) _ fun s => sax_end_onto q s.1]

theorem Parser.Alike.whole {p q : Parser} (h : p.Alike q) (text : Bytes) :
    p.whole text = q.whole text := by
  have hb : p.bare = q.bare := by
    rw [Parser.bare, Parser.bare, h.stack, h.root_seen, h.root_closed, h.error]
  rw [← onto_bare p, ← onto_bare q, whole_onto, whole_onto, hb]
  cases (sax_loop .calm true (text.length + 1) q.bare text).bind fun s => sax_end .calm s.1 with
  | error => rfl
  | ok r => exact congrArg some (merge_append h.events r.events)

end SaltsUtils.Xml
