import SaltsUtils.Xml.SaxSessions

/-!
# Events of one tree

The events so far are those of the elements that are still open, each with the content it
has had. An end tag puts the innermost of them, now whole, into the content of the one
around it.
-/

set_option autoImplicit false

namespace SaltsUtils.Xml

/-- What stands outside the root. -/
def Event.misc : Event → Bool
  | .comment _ => true
  | .processing_instruction _ _ => true
  | _ => false

def Event.prolog : Event → Bool
  | .doctype _ => true
  | e => e.misc

/-- What stands inside an element, elements apart. -/
def Event.leaf : Event → Bool
  | .text _ => true
  | .cdata _ => true
  | e => e.misc

/-- The events of an element up to the end of the content. -/
def opening (name : Bytes) (attrs : List (Bytes × Bytes)) (content : List Event) : List Event :=
  .element_start name :: attributes attrs ++ content

def element (name : Bytes) (attrs : List (Bytes × Bytes)) (content : List Event) : List Event :=
  opening name attrs content ++ [.element_end name]

inductive Content : ℕ → List Event → Prop
  | nil {depth : ℕ} : Content depth []
  | leaf {depth : ℕ} {e : Event} {es : List Event} (he : e.leaf = true) (h : Content depth es) :
    Content depth (e :: es)
  | element {depth : ℕ} {name : Bytes} {attrs : List (Bytes × Bytes)} {content es : List Event}
    (hc : Content depth content) (h : Content (depth + 1) es) :
    Content (depth + 1) (element name attrs content ++ es)

/-- The events of a document with one root element. -/
def OneTree (events : List Event) : Prop :=
  ∃ prolog name attrs content epilog,
    (∀ e ∈ prolog, e.prolog = true) ∧ Content (sax_max_depth - 1) content ∧
      (∀ e ∈ epilog, e.misc = true) ∧
        events = .start_document :: prolog ++ element name attrs content ++ epilog ++
          [.end_document]

theorem Content.append {depth : ℕ} {xs ys : List Event} (hx : Content depth xs)
    (hy : Content depth ys) : Content depth (xs ++ ys) := by
  induction hx with
  | nil => exact hy
  | leaf he _ ih => exact .leaf he (ih hy)
  | element hc _ _ ih =>
    rw [List.append_assoc]
    exact .element hc (ih hy)

theorem content_element {depth : ℕ} {name : Bytes} {attrs : List (Bytes × Bytes)}
    {content : List Event} (hc : Content depth content) :
    Content (depth + 1) (element name attrs content) := by
  have h : Content (depth + 1) (element name attrs content ++ []) := .element hc .nil
  rwa [List.append_nil] at h

inductive Opened : List Bytes → List Event → Prop
  | before {prolog : List Event} (h : ∀ e ∈ prolog, e.prolog = true) :
    Opened [] (.start_document :: prolog)
  | inside {stack : List Bytes} {events content : List Event} {name : Bytes}
    {attrs : List (Bytes × Bytes)} (h : Opened stack events) (hd : stack.length < sax_max_depth)
    (hc : Content (sax_max_depth - (stack.length + 1)) content) :
    Opened (name :: stack) (events ++ opening name attrs content)

/-- The root has ended. -/
def Closed (events : List Event) : Prop :=
  ∃ prolog name attrs content epilog,
    (∀ e ∈ prolog, e.prolog = true) ∧ Content (sax_max_depth - 1) content ∧
      (∀ e ∈ epilog, e.misc = true) ∧
        events = .start_document :: prolog ++ element name attrs content ++ epilog

variable {e : Event}

section
variable {stack : List Bytes} {name : Bytes} {events : List Event}

theorem Opened.prolog (h : Opened [] events) (he : e.prolog = true) :
    Opened [] (events ++ [e]) := by
  cases h with
  | before h =>
    refine .before fun x hx => ?_
    rcases List.mem_append.mp hx with hx | hx
    · exact h x hx
    · rw [List.mem_singleton.mp hx]
      exact he

theorem Opened.content (h : Opened (name :: stack) events) {more : List Event}
    (hm : Content (sax_max_depth - (stack.length + 1)) more) :
    Opened (name :: stack) (events ++ more) := by
  cases h with
  | inside h hd hc =>
    rw [List.append_assoc, opening, List.append_assoc]
    exact .inside h hd (hc.append hm)

theorem Opened.leaf (h : Opened (name :: stack) events) (he : e.leaf = true) :
    Opened (name :: stack) (events ++ [e]) := h.content (.leaf he .nil)

theorem Opened.push (h : Opened stack events) (hd : stack.length < sax_max_depth) (name : Bytes)
    (attrs : List (Bytes × Bytes)) :
    Opened (name :: stack) (events ++ .element_start name :: attributes attrs) := by
  have ho : Opened (name :: stack) (events ++ opening name attrs []) := .inside h hd .nil
  rwa [opening, List.append_nil] at ho

theorem Opened.pop (h : Opened (name :: stack) events) (hs : stack ≠ []) :
    Opened stack (events ++ [.element_end name]) := by
  cases h with
  | inside h hd hc =>
    rw [List.append_assoc]
    cases stack with
    | nil => exact absurd rfl hs
    | cons outer stack =>
      refine h.content ?_
      rw [List.length_cons] at hd hc
      have hdepth : sax_max_depth - (stack.length + 1) =
          sax_max_depth - (stack.length + 1 + 1) + 1 := by omega
      rw [hdepth]
      exact content_element hc

theorem Opened.close (h : Opened [name] events) : Closed (events ++ [.element_end name]) := by
  cases h with
  | @inside _ _ content _ attrs h hd hc =>
    cases h with
    | @before prolog hp =>
      refine ⟨prolog, name, attrs, content, [], hp, hc, fun e he => absurd he List.not_mem_nil, ?_⟩
      rw [List.append_assoc, element, List.append_nil]

theorem Closed.misc (h : Closed events) (he : e.misc = true) : Closed (events ++ [e]) := by
  obtain ⟨prolog, name, attrs, content, epilog, hp, hc, hm, rfl⟩ := h
  refine ⟨prolog, name, attrs, content, epilog ++ [e], hp, hc, fun x hx => ?_,
    List.append_assoc _ _ _⟩
  rcases List.mem_append.mp hx with hx | hx
  · exact hm x hx
  · rw [List.mem_singleton.mp hx]
    exact he

end

/-- What the events, the stack and the flags of a parser have to do with each other. -/
inductive Tree (p : Parser) : Prop
  | opened (hs : p.started = true) (h : Opened p.stack p.events) (hc : p.root_closed = false)
    (hr : p.root_seen = !decide (p.stack = []))
  | closed (hs : p.started = true) (h : Closed p.events) (hc : p.root_closed = true)
    (hr : p.root_seen = true) (he : p.stack = [])

/-- What a piece of markup must not be where it stands. -/
def Proper (p : Parser) (text : Bytes) : Prop :=
  (text.take 9 = cdata_open → p.stack ≠ []) ∧
    (self_closing_tag text = true → p.stack.length < sax_max_depth)

instance (p : Parser) (text : Bytes) : Decidable (Proper p text) := by
  unfold Proper
  infer_instance

theorem misc_leaf (h : e.misc = true) : e.leaf = true := by
  cases e <;> first | rfl | exact h

theorem misc_prolog (h : e.misc = true) : e.prolog = true := by
  cases e <;> first | rfl | exact h

variable {p : Parser}

theorem Tree.leaf (h : Tree p) (hs : p.stack ≠ []) (he : e.leaf = true) :
    Tree { p with events := p.events ++ [e] } := by
  cases h with
  | opened hb h hc hr =>
    refine .opened hb ?_ hc hr
    cases hp : p.stack with
    | nil => exact absurd hp hs
    | cons name stack =>
      rw [hp] at h
      exact h.leaf he
  | closed _ _ _ _ hp => exact absurd hp hs

theorem Tree.misc (h : Tree p) (he : e.misc = true) :
    Tree { p with events := p.events ++ [e] } := by
  by_cases hs : p.stack = []
  · cases h with
    | opened hb h hc hr =>
      refine .opened hb ?_ hc hr
      rw [hs] at h ⊢
      exact h.prolog (misc_prolog he)
    | closed hb h hc hr hp => exact .closed hb (h.misc he) hc hr hp
  · exact h.leaf hs (misc_leaf he)

theorem Tree.doctype (h : Tree p) (hr : p.root_seen = false) (content : Bytes) :
    Tree { p with events := p.events ++ [.doctype content] } := by
  cases h with
  | opened hb h hc hr' =>
    refine .opened hb ?_ hc hr'
    rw [hr, eq_comm, Bool.not_eq_false', decide_eq_true_iff] at hr'
    rw [hr'] at h ⊢
    exact h.prolog rfl
  | closed _ _ _ hr' _ =>
    rw [hr] at hr'
    cases hr'

theorem Tree.push (h : Tree p) (hc : p.root_closed = false) (hd : p.stack.length < sax_max_depth)
    (name : Bytes) (attrs : List (Bytes × Bytes)) : Tree (p.opened name attrs) := by
  cases h with
  | opened hb h _ hr =>
    refine .opened hb (h.push hd name attrs) hc ?_
    change (p.root_seen || decide (p.stack = [])) = !decide (name :: p.stack = [])
    rw [hr]
    simp
  | closed _ _ hc' =>
    rw [hc] at hc'
    cases hc'

theorem Tree.pop (h : Tree p) {name : Bytes} {stack : List Bytes} (hp : p.stack = name :: stack) :
    Tree (p.closed name stack) := by
  cases h with
  | opened hb h hc hr =>
    rw [hp] at h hr
    by_cases hs : stack = []
    · subst hs
      refine .closed hb h.close ?_ ?_ rfl
      · simp [Parser.closed]
      · simpa [Parser.closed] using hr
    · refine .opened hb (h.pop hs) ?_ ?_
      · simp [Parser.closed, hc, hs]
      · simpa [Parser.closed, hs] using hr
  | closed _ _ _ _ he =>
    rw [hp] at he
    cases he

theorem whole_element_closed (p : Parser) (name : Bytes) (attrs : List (Bytes × Bytes)) :
    p.whole_element name attrs = (p.opened name attrs).closed name p.stack := by
  simp only [Parser.whole_element, Parser.closed, Parser.opened, Parser.started_element,
    Parser.close_root, Parser.see_root, List.append_assoc, List.cons_append]
  congr

theorem kept_tree (env : Env) : Kept env Proper Tree where
  text _ text hp := emit_text_meets env text hp fun hs => hp.leaf hs rfl
  markup final _ _ hp hc := parse_markup_meets final
    (fun _ => deliver_meets env (hp.misc rfl))
    (fun hcdata _ => deliver_meets env (hp.leaf (hc.1 hcdata) rfl))
    (fun _ _ => deliver_meets env (hp.misc rfl))
    (fun content => emit_doctype_meets env content fun hr => hp.doctype hr content)
    (fun name body self_closing hself => emit_start_tag_meets env name body
      (fun hr _ hd attrs => hp.push hr hd name attrs)
      (fun hr hb attrs => by
        rw [whole_element_closed]
        exact (hp.push hr (hc.2 (hself hb)) name attrs).pop rfl))
    (fun name => pop_meets env name fun _ hs => hp.pop hs)

/-- A parser that has not delivered anything. -/
structure Fresh (p : Parser) : Prop where
  started : p.started = false
  events : p.events = []
  stack : p.stack = []
  root_seen : p.root_seen = false
  root_closed : p.root_closed = false

def Sound (p : Parser) : Prop := Fresh p ∨ Tree p

theorem Tree.set (h : Tree p) (buffer : Bytes) (finished : Bool) :
    Tree { p with buffer := buffer, finished := finished } := by
  cases h with
  | opened hs h hc hr => exact .opened hs h hc hr
  | closed hs h hc hr he => exact .closed hs h hc hr he

theorem Sound.set (h : Sound p) (buffer : Bytes) (finished : Bool) :
    Sound { p with buffer := buffer, finished := finished } :=
  h.imp (fun h => ⟨h.started, h.events, h.stack, h.root_seen, h.root_closed⟩)
    fun h => h.set buffer finished

def run_rounds (env : Env) (final : Bool) (p : Parser) : List (Parser × Bytes) :=
  match start_document env p with
  | .error _ => []
  | .ok p => sax_rounds env final (p.buffer.length + 1) p p.buffer

def feed_rounds (env : Env) (p : Parser) (data : Bytes) : List (Parser × Bytes) :=
  if p.error.isSome ∨ p.finished ∨ data = [] ∨ 0 ∈ data ∨
      p.max_buffer_bytes - p.buffer.length < data.length ∨ env.cat p.events = false then []
  else run_rounds env false { p with buffer := p.buffer ++ data }

def finish_rounds (env : Env) (p : Parser) : List (Parser × Bytes) :=
  if p.error.isSome ∨ p.finished then [] else run_rounds env true { p with finished := true }

def feeds_rounds (env : Env) : Parser → List Bytes → List (Parser × Bytes)
  | _, [] => []
  | p, data :: pieces =>
    feed_rounds env p data ++ feeds_rounds env (sax_parser_feed env p data).2 pieces

def session_rounds (env : Env) (max_buffer_bytes : ℕ) (pieces : List Bytes) :
    List (Parser × Bytes) :=
  feeds_rounds env (sax_parser_create max_buffer_bytes) pieces ++
    finish_rounds env (sax_feeds env (sax_parser_create max_buffer_bytes) pieces).2

theorem start_document_tree (env : Env) (h : Sound p) :
    Meets Parser.Failed Tree (start_document env p) := by
  unfold start_document
  obtain h | h := h
  · rw [if_neg (by rw [h.started]; exact Bool.false_ne_true)]
    refine deliver_meets env (.opened rfl ?_ h.root_closed ?_)
    · change Opened p.stack (p.events ++ [.start_document])
      rw [h.stack, h.events]
      exact .before fun _ he => absurd he List.not_mem_nil
    · change p.root_seen = !decide (p.stack = [])
      rw [h.root_seen, h.stack]
      rfl
  · have hs : p.started = true := by
      cases h with
      | opened hs => exact hs
      | closed hs => exact hs
    rw [if_pos hs]
    exact h

theorem run_tree (env : Env) (final : Bool) (h : Sound p)
    (hc : ∀ s ∈ run_rounds env final p, Proper s.1 s.2) :
    Meets Parser.Failed Tree (sax_run env final p) := by
  have hd := start_document_tree env h
  rw [sax_run]
  rw [run_rounds] at hc
  cases hs : start_document env p with
  | error q => exact hd.of_error hs
  | ok q =>
    rw [hs] at hd hc
    have hl := (kept_tree env).loop (show Tree q from hd) hc
    exact hl.bind fun s hs => hs.set s.2 s.1.finished

variable {env : Env}

theorem feed_tree {data : Bytes} (h : Sound p) (hc : ∀ s ∈ feed_rounds env p data, Proper s.1 s.2)
    (hr : (sax_parser_feed env p data).1 = true) : Sound (sax_parser_feed env p data).2 := by
  revert hr
  unfold sax_parser_feed
  split_ifs with h1 h2 h3 h4 h5 h6
  · exact fun hr => absurd hr id
  · exact fun hr => absurd hr id
  · exact fun _ => h
  · exact fun hr => absurd hr id
  · exact fun hr => absurd hr id
  · rw [feed_rounds, if_neg (by simp [h1, h2, h3, h4, h5, h6])] at hc
    have hrun := run_tree env false (p := { p with buffer := p.buffer ++ data })
      (h.set (p.buffer ++ data) p.finished) hc
    cases hs : sax_run env false { p with buffer := p.buffer ++ data } with
    | error q => exact fun hr => Bool.noConfusion hr
    | ok q => exact fun _ => .inr (hrun.of_ok hs)
  · exact fun hr => absurd hr id

theorem feeds_tree {pieces : List Bytes} (h : Sound p)
    (hc : ∀ s ∈ feeds_rounds env p pieces, Proper s.1 s.2) (hr : (sax_feeds env p pieces).1 = true) :
    Sound (sax_feeds env p pieces).2 := by
  induction pieces generalizing p with
  | nil => exact h
  | cons data pieces ih =>
    have hr : (sax_parser_feed env p data).1 = true ∧
        (sax_feeds env (sax_parser_feed env p data).2 pieces).1 = true :=
      Bool.and_eq_true_iff.mp hr
    rw [feeds_rounds] at hc
    exact ih (feed_tree h (fun s hs => hc s (List.mem_append_left _ hs)) hr.1)
      (fun s hs => hc s (List.mem_append_right _ hs)) hr.2

theorem finish_tree (h : Sound p) (hc : ∀ s ∈ finish_rounds env p, Proper s.1 s.2)
    (hr : (sax_parser_finish env p).1 = true) : OneTree (sax_parser_finish env p).2.events := by
  revert hr
  unfold sax_parser_finish
  split_ifs with h1 h2
  · exact fun hr => absurd hr id
  · exact fun hr => absurd hr id
  rw [finish_rounds, if_neg (by simp [h1, h2])] at hc
  have hrun := run_tree env true (p := { p with finished := true }) (h.set p.buffer true) hc
  have hend : Meets Parser.Failed (fun q => OneTree q.events)
      ((sax_run env true { p with finished := true }).bind (sax_end env)) := by
    refine hrun.bind fun q hq => ?_
    unfold sax_end
    split_ifs with hs hseen
    · exact fail_meets _ _
    · exact fail_meets _ _
    · refine deliver_meets env ?_
      cases hq with
      | opened _ _ _ hr =>
        have hs : q.stack = [] := not_not.mp hs
        rw [hs] at hr
        rw [hr] at hseen
        exact absurd rfl hseen
      | closed _ h _ _ _ =>
        obtain ⟨prolog, name, attrs, content, epilog, hp, hc, hm, he⟩ := h
        refine ⟨prolog, name, attrs, content, epilog, hp, hc, hm, ?_⟩
        rw [← he]
  cases hs : (sax_run env true { p with finished := true }).bind (sax_end env) with
  | error q => exact fun hr => Bool.noConfusion hr
  | ok q => exact fun _ => hend.of_ok hs

inductive Call where
  | feed (data : Bytes)
  | finish
  deriving DecidableEq

def sax_call (env : Env) (p : Parser) : Call → Bool × Parser
  | .feed data => sax_parser_feed env p data
  | .finish => sax_parser_finish env p

def sax_calls (env : Env) : Parser → List Call → List Bool × Parser
  | p, [] => ([], p)
  | p, call :: calls =>
    let r := sax_call env p call
    let s := sax_calls env r.2 calls
    (r.1 :: s.1, s.2)

theorem failed_calls (hp : p.Failed) (env : Env) (calls : List Call) :
    sax_calls env p calls = (calls.map fun _ => false, p) := by
  induction calls with
  | nil => rfl
  | cons call calls ih =>
    have hc : sax_call env p call = (false, p) := by
      cases call with
      | feed data => exact if_pos hp
      | finish => exact if_pos hp
    simp only [sax_calls, hc, ih, List.map_cons]

theorem returned_failed {Q : Parser → Prop} {r : Outcome Parser} (h : Meets Parser.Failed Q r)
    (hr : (returned r).1 = false) : (returned r).2.Failed := by
  cases r with
  | error q => exact h
  | ok q => cases hr

theorem kept_any (env : Env) : Kept env (fun _ _ => True) fun _ => True where
  text _ text _ := emit_text_meets env text trivial fun _ => trivial
  markup final _ _ _ _ := parse_markup_meets final
    (fun _ => deliver_meets env trivial) (fun _ _ => deliver_meets env trivial)
    (fun _ _ => deliver_meets env trivial)
    (fun content => emit_doctype_meets env content fun _ => trivial)
    (fun name body _ _ => emit_start_tag_meets env name body (fun _ _ _ _ => trivial)
      fun _ _ _ => trivial)
    (fun name => pop_meets env name fun _ _ => trivial)

theorem run_fails (env : Env) (final : Bool) (p : Parser) :
    Meets Parser.Failed (fun _ => True) (sax_run env final p) := by
  have hd : Meets Parser.Failed (fun _ => True) (start_document env p) := by
    unfold start_document
    split_ifs
    · exact trivial
    · exact deliver_meets env trivial
  exact hd.bind fun q _ =>
    ((kept_any env).loop trivial fun _ _ => trivial).bind fun _ _ => trivial

theorem call_failed {call : Call} (hr : (sax_call env p call).1 = false) :
    (sax_call env p call).2.Failed := by
  revert hr
  cases call with
  | feed data =>
    change (sax_parser_feed env p data).1 = false → (sax_parser_feed env p data).2.Failed
    unfold sax_parser_feed
    split_ifs with h1
    · exact fun _ => h1
    · exact fun _ => set_error_failed p _
    · exact fun hr => absurd hr id
    · exact fun _ => set_error_failed p _
    · exact fun _ => set_error_failed p _
    · exact returned_failed (run_fails env false _)
    · exact fun _ => set_error_failed p _
  | finish =>
    change (sax_parser_finish env p).1 = false → (sax_parser_finish env p).2.Failed
    unfold sax_parser_finish
    split_ifs with h1
    · exact fun _ => h1
    · exact fun _ => set_error_failed p _
    · have hend : ∀ q, Meets Parser.Failed (fun _ => True) (sax_end env q) := by
        intro q
        unfold sax_end
        split_ifs
        · exact fail_meets _ _
        · exact fail_meets _ _
        · exact deliver_meets env trivial
      exact returned_failed ((run_fails env true _).bind fun q _ => hend q)

theorem one_tree_second {es : List Event} (h : OneTree (.start_document :: e :: es)) :
    e.prolog = true ∨ ∃ name, e = .element_start name := by
  obtain ⟨prolog, name, attrs, content, epilog, hp, -, -, he⟩ := h
  rw [List.cons_append, List.cons_append, List.cons_append, List.cons.injEq] at he
  cases prolog with
  | nil => exact .inr ⟨name, (List.cons.inj he.2).1⟩
  | cons x prolog =>
    rw [(List.cons.inj he.2).1]
    exact .inl (hp x List.mem_cons_self)

end SaltsUtils.Xml
