import Mathlib.Data.List.TakeWhile
import SaltsUtils.Xml.SaxChunks
import SaltsUtils.Xml.SaxRuns

/-!
# Sessions

A parser that is fed and finished comes to what a parser comes to that reads all the text
at once.
-/

set_option autoImplicit false

namespace SaltsUtils.Xml

def Parser.marked (q : Parser) (text : Bytes) : Option (List Event) :=
  match parse_markup .calm true q text with
  | .error _ => none
  | .ok none => Parser.report (sax_end .calm q)
  | .ok (some (r, rest)) => r.whole rest

def Parser.verdict (r : Outcome Parser) (f : Parser → Option (List Event)) :
    Option (List Event) :=
  match r with
  | .error _ => none
  | .ok p => f p

variable {p : Parser} {text : Bytes}

theorem whole_plain (h : text.dropWhile (· != 60) = []) :
    p.whole text = Parser.verdict (emit_text .calm p text) fun q => q.whole [] := by
  rw [Parser.whole, sax_loop, h]
  simp only
  rw [if_neg (fun hc => Bool.noConfusion hc.2)]
  cases emit_text .calm p text with
  | error => rfl
  | ok q => simp [Parser.verdict, Parser.whole, sax_loop, emit_text, Except.map, Except.bind]

theorem whole_cut {markup : Bytes} {c : ℕ} (h : text.dropWhile (· != 60) = c :: markup) :
    p.whole text = Parser.verdict (emit_text .calm p (text.takeWhile (· != 60)))
      fun q => q.marked (c :: markup) := by
  have hl := drop_while_length (· != 60) text
  rw [h] at hl
  rw [Parser.whole, sax_loop, h]
  cases hq : emit_text .calm p (text.takeWhile (· != 60)) with
  | error => rfl
  | ok q =>
    change Parser.report (Except.bind (parse_markup .calm true q (c :: markup) >>= _) _) =
      q.marked (c :: markup)
    have hw := parse_markup_within .calm true q (c :: markup)
    rw [Parser.marked]
    cases hm : parse_markup .calm true q (c :: markup) with
    | error => rfl
    | ok s =>
      rw [hm] at hw
      cases s with
      | none => rfl
      | some s =>
        have hw : s.2.length < (c :: markup).length := hw
        change Parser.report (Except.bind (sax_loop .calm true text.length s.1 s.2) _) = _
        rw [sax_loop_rounds .calm true (by omega) (Nat.lt_succ_self s.2.length)]
        rfl

theorem marked_whole (q : Parser) (markup : Bytes) :
    q.marked (60 :: markup) = q.whole (60 :: markup) :=
  have hd : (60 :: markup).dropWhile (· != 60) = 60 :: markup := rfl
  (whole_cut (p := q) hd).symm

theorem drop_while_open (h : text.dropWhile (· != 60) ≠ []) :
    ∃ markup, text.dropWhile (· != 60) = 60 :: markup := by
  cases hd : text.dropWhile (· != 60) with
  | nil => exact absurd hd h
  | cons c markup =>
    have hc := List.head?_dropWhile_not (· != 60) text
    rw [hd] at hc
    have hc : c = 60 := by simpa using hc
    exact ⟨markup, by rw [hc]⟩

theorem whole_text (p : Parser) (text : Bytes) :
    p.whole text = Parser.verdict (emit_text .calm p (text.takeWhile (· != 60)))
      fun q => q.whole (text.dropWhile (· != 60)) := by
  by_cases hd : text.dropWhile (· != 60) = []
  · have ht : text.takeWhile (· != 60) = text := by
      have := List.takeWhile_append_dropWhile (p := (· != 60)) (l := text)
      rwa [hd, List.append_nil] at this
    rw [ht, hd, whole_plain hd]
  · obtain ⟨markup, hd⟩ := drop_while_open hd
    rw [whole_cut hd, hd]
    exact congrArg _ (funext fun q => marked_whole q markup)

theorem emit_text_split (hs : p.stack ≠ []) (a b : Bytes) (f : Parser → Option (List Event))
    (hf : ∀ q r : Parser, q.Alike r → f q = f r) : Parser.verdict (emit_text .calm p (a ++ b)) f =
      Parser.verdict (emit_text .calm p a) fun q =>
        Parser.verdict (emit_text .calm q b) f := by
  have hemit : ∀ (q : Parser) (t : Bytes), q.stack ≠ [] → t ≠ [] →
      emit_text .calm q t = .ok { q with events := q.events ++ [.text t] } := fun q t hq ht => by
    rw [emit_text, if_neg ht, if_neg hq]
    rfl
  by_cases ha : a = []
  · subst ha
    rfl
  by_cases hb : b = []
  · subst hb
    rw [List.append_nil]
    cases emit_text .calm p a <;> rfl
  rw [hemit p _ hs (fun h => ha (List.append_eq_nil_iff.mp h).1), hemit p a hs ha]
  change _ = Parser.verdict (emit_text .calm { p with events := p.events ++ [.text a] } b) f
  rw [hemit { p with events := p.events ++ [.text a] } b hs hb]
  exact hf _ _ ⟨rfl, rfl, rfl, rfl, (merge_texts p.events a b).symm⟩

theorem loop_resume (more : Bytes) {n : ℕ} (hn : text.length < n) : p.whole (text ++ more) =
      match sax_loop .calm false n p text with
      | .error _ => none
      | .ok (q, rest) => q.whole (rest ++ more) := by
  induction n generalizing p text with
  | zero => omega
  | succ n ih =>
    have hl := drop_while_length (· != 60) text
    rw [sax_loop]
    by_cases hd : text.dropWhile (· != 60) = []
    · rw [hd]
      simp only
      by_cases hs : p.stack = []
      · rw [if_pos ⟨hs, trivial⟩]
      rw [if_neg (fun h => hs h.1), whole_text]
      have htext : ∀ c ∈ text, (c != 60) = true := List.dropWhile_eq_nil_iff.mp hd
      rw [List.takeWhile_append_of_pos htext, List.dropWhile_append_of_pos htext,
        emit_text_split hs _ _ _ fun q r h => h.whole _]
      cases emit_text .calm p text with
      | error => rfl
      | ok q => exact (whole_text q more).symm
    · obtain ⟨markup, hm⟩ := drop_while_open hd
      rw [whole_text, take_while_append more hd, drop_while_append more hd, hm]
      rw [hm] at hl
      cases emit_text .calm p (text.takeWhile (· != 60)) with
      | error => rfl
      | ok q =>
        dsimp only [bind, Except.bind, Parser.verdict]
        have hw := parse_markup_within .calm false q (60 :: markup)
        have hp := parse_markup_later more .calm true q (60 :: markup)
        cases hs : parse_markup .calm false q (60 :: markup) with
        | error e =>
          rw [hs] at hp
          obtain hp | hp := hp
          · cases hp
          · rw [List.cons_append, ← marked_whole, Parser.marked, ← List.cons_append, hp]
            rfl
        | ok s =>
          rw [hs] at hp hw
          cases s with
          | none => rfl
          | some s =>
            have hw : s.2.length < (60 :: markup).length := hw
            obtain hp | hp := hp
            · cases hp
            · rw [List.cons_append, ← marked_whole, Parser.marked, ← List.cons_append, hp]
              exact ih (by omega)

structure Parser.Going (p : Parser) : Prop where
  error : p.error = none
  started : p.started = true
  finished : p.finished = false

theorem deliver_going (env : Env) (event : Event) (hp : p.Going) :
    Meets Parser.Failed Parser.Going (deliver env p event) :=
  deliver_meets env ⟨hp.error, hp.started, hp.finished⟩

theorem kept_going (env : Env) : Kept env (fun _ _ => True) Parser.Going where
  text _ text hp := emit_text_meets env text hp fun _ => ⟨hp.error, hp.started, hp.finished⟩
  markup final _ _ hp _ := parse_markup_meets final
    (fun _ => deliver_going env _ hp) (fun _ _ => deliver_going env _ hp)
    (fun _ _ => deliver_going env _ hp)
    (fun content => emit_doctype_meets env content fun _ => ⟨hp.error, hp.started, hp.finished⟩)
    (fun name body _ _ => emit_start_tag_meets env name body
      (fun _ _ _ _ => ⟨hp.error, hp.started, hp.finished⟩)
      (fun _ _ _ => ⟨hp.error, hp.started, hp.finished⟩))
    (fun name => pop_meets env name fun _ _ => ⟨hp.error, hp.started, hp.finished⟩)

def Parser.begun (p : Parser) : Parser :=
  if p.started then p
  else { p with started := true, events := p.events ++ [.start_document] }

theorem start_document_calm (p : Parser) : start_document .calm p = .ok p.begun := by
  unfold start_document Parser.begun
  split_ifs <;> rfl

theorem begun_alike (p : Parser) (buffer : Bytes) (finished : Bool) :
    p.begun.Alike { p with buffer := buffer, finished := finished }.begun := by
  unfold Parser.begun
  by_cases hs : p.started
  · rw [if_pos hs, if_pos hs]
    exact ⟨rfl, rfl, rfl, rfl, rfl⟩
  · rw [if_neg hs, if_neg hs]
    exact ⟨rfl, rfl, rfl, rfl, rfl⟩

def Parser.ahead (p : Parser) (text : Bytes) : Option (List Event) :=
  if 0 ∈ text then none else p.begun.whole (p.buffer ++ text)

structure Parser.Open (p : Parser) : Prop where
  error : p.error = none
  finished : p.finished = false

theorem begun_going (hp : p.Open) (buffer : Bytes) : { p with buffer := buffer }.begun.Going := by
  unfold Parser.begun
  split_ifs with hs
  · exact ⟨hp.error, hs, hp.finished⟩
  · exact ⟨hp.error, rfl, hp.finished⟩

theorem begun_buffer (p : Parser) : p.begun.buffer = p.buffer := by
  unfold Parser.begun
  split_ifs <;> rfl

theorem failed_feed (hp : p.Failed) (env : Env) (data : Bytes) :
    sax_parser_feed env p data = (false, p) := if_pos hp

theorem failed_finish (hp : p.Failed) (env : Env) :
    sax_parser_finish env p = (false, p) := if_pos hp

theorem sax_run_calm (final : Bool) (p : Parser) :
    sax_run .calm final p =
      (sax_loop .calm final (p.buffer.length + 1) p.begun p.buffer).map
        fun s => { s.1 with buffer := s.2 } := by
  rw [sax_run, start_document_calm]
  change sax_loop .calm final (p.begun.buffer.length + 1) p.begun p.begun.buffer >>= _ = _
  rw [begun_buffer]
  cases sax_loop .calm final (p.buffer.length + 1) p.begun p.buffer <;> rfl

theorem run_ahead (hp : p.Open) (more : Bytes) : match sax_run .calm false p with
    | .error q => q.Failed ∧ p.begun.whole (p.buffer ++ more) = none
    | .ok q => q.Open ∧ p.begun.whole (p.buffer ++ more) = q.begun.whole (q.buffer ++ more) := by
  have hk : Meets Parser.Failed (fun s => s.1.Going)
      (sax_loop .calm false (p.buffer.length + 1) p.begun p.buffer) :=
    (kept_going .calm).loop (begun_going hp p.buffer) fun _ _ => trivial
  rw [sax_run_calm, loop_resume more (Nat.lt_succ_self p.buffer.length)]
  cases hs : sax_loop .calm false (p.buffer.length + 1) p.begun p.buffer with
  | error q => exact ⟨hk.of_error hs, rfl⟩
  | ok s =>
    have hg := hk.of_ok hs
    refine ⟨⟨hg.error, hg.finished⟩, ?_⟩
    rw [Parser.begun, if_pos hg.started]
    have ha : s.1.Alike { s.1 with buffer := s.2 } := ⟨rfl, rfl, rfl, rfl, rfl⟩
    exact ha.whole (s.2 ++ more)

theorem feed_ahead (hp : p.Open) (data more : Bytes)
    (hl : (sax_parser_feed .calm p data).2.error ≠ some buffer_limit) :
    (sax_parser_feed .calm p data).1 = true ∧ (sax_parser_feed .calm p data).2.Open ∧
        p.ahead (data ++ more) = (sax_parser_feed .calm p data).2.ahead more ∨
      (sax_parser_feed .calm p data).2.Failed ∧ p.ahead (data ++ more) = none := by
  revert hl
  unfold sax_parser_feed
  rw [if_neg (by rw [hp.error]; exact Bool.false_ne_true),
    if_neg (by rw [hp.finished]; exact Bool.false_ne_true)]
  by_cases h1 : data = []
  · rw [if_pos h1, h1]
    exact fun _ => .inl ⟨rfl, hp, rfl⟩
  rw [if_neg h1]
  by_cases h2 : 0 ∈ data
  · rw [if_pos h2]
    exact fun _ => .inr ⟨set_error_failed p _, if_pos (List.mem_append_left _ h2)⟩
  rw [if_neg h2]
  by_cases h3 : p.max_buffer_bytes - p.buffer.length < data.length
  · rw [if_pos h3]
    intro hl
    refine absurd ?_ hl
    rw [Parser.set_error, hp.error]
    rfl
  rw [if_neg h3, if_pos (show Env.calm.cat p.events = true from rfl)]
  intro _
  have hahead : p.ahead (data ++ more) = if 0 ∈ more then none else
      { p with buffer := p.buffer ++ data }.begun.whole (p.buffer ++ data ++ more) := by
    rw [Parser.ahead, (begun_alike p (p.buffer ++ data) p.finished).whole, List.append_assoc]
    simp [h2]
  have hrun := run_ahead (p := { p with buffer := p.buffer ++ data }) ⟨hp.error, hp.finished⟩ more
  rw [hahead]
  cases hs : sax_run .calm false { p with buffer := p.buffer ++ data } with
  | error q =>
    rw [hs] at hrun
    right
    refine ⟨hrun.1, ?_⟩
    rw [hrun.2]
    exact ite_self none
  | ok q =>
    rw [hs] at hrun
    left
    refine ⟨rfl, hrun.1, ?_⟩
    rw [hrun.2]
    rfl

/-- What a call and the calls before it have come to. -/
def reached (s : Bool × Parser) : Option (List Event) :=
  if s.1 then some (merge s.2.events) else none

def finished_off (env : Env) (r : Bool × Parser) : Bool × Parser :=
  let s := sax_parser_finish env r.2
  (r.1 && s.1, s.2)

theorem report_end (p : Parser) (buffer : Bytes) :
    Parser.report (sax_end .calm { p with buffer := buffer }) = Parser.report (sax_end .calm p) := by
  unfold sax_end
  split_ifs
  · rfl
  · rfl
  · rfl

theorem reached_returned (r : Outcome Parser) : reached (returned r) = Parser.report r := by
  cases r <;> rfl

theorem finish_ahead (hp : p.Open) : reached (sax_parser_finish .calm p) = p.ahead [] := by
  unfold sax_parser_finish
  rw [if_neg (by rw [hp.error]; exact Bool.false_ne_true),
    if_neg (by rw [hp.finished]; exact Bool.false_ne_true), reached_returned, sax_run_calm,
    Parser.ahead, if_neg List.not_mem_nil, List.append_nil, (begun_alike p p.buffer true).whole,
    Parser.whole]
  cases sax_loop .calm true (p.buffer.length + 1) { p with finished := true }.begun p.buffer with
  | error => rfl
  | ok s => exact report_end s.1 s.2

theorem failed_feeds (hp : p.Failed) (env : Env) (pieces : List Bytes) :
    (sax_feeds env p pieces).2 = p := by
  induction pieces with
  | nil => rfl
  | cons data pieces ih =>
    rw [sax_feeds, failed_feed hp]
    exact ih

theorem feeds_ahead (hp : p.Open) (pieces : List Bytes)
    (hl : (finished_off .calm (sax_feeds .calm p pieces)).2.error ≠ some buffer_limit) :
    reached (finished_off .calm (sax_feeds .calm p pieces)) = p.ahead pieces.flatten := by
  induction pieces generalizing p with
  | nil => exact finish_ahead hp
  | cons data pieces ih =>
    have hfeed := feed_ahead hp data pieces.flatten
    have hfailed : (sax_parser_feed .calm p data).2.Failed →
        finished_off .calm (sax_feeds .calm p (data :: pieces)) =
          (false, (sax_parser_feed .calm p data).2) := fun hf => by
      unfold finished_off
      have : (sax_feeds .calm p (data :: pieces)).2 = (sax_parser_feed .calm p data).2 :=
        failed_feeds hf .calm pieces
      simp only [this, failed_finish hf, Bool.and_false]
    by_cases hlim : (sax_parser_feed .calm p data).2.error = some buffer_limit
    · have hf : (sax_parser_feed .calm p data).2.Failed := by
        rw [Parser.Failed, hlim]
        rfl
      rw [hfailed hf] at hl
      exact absurd hlim hl
    obtain ⟨h1, h2, h3⟩ | ⟨h1, h2⟩ := hfeed hlim
    · have hcall : finished_off .calm (sax_feeds .calm p (data :: pieces)) =
          finished_off .calm (sax_feeds .calm (sax_parser_feed .calm p data).2 pieces) := by
        unfold finished_off
        simp only [sax_feeds, h1, Bool.true_and]
      rw [hcall] at hl ⊢
      rw [ih h2 hl, List.flatten_cons, h3]
    · rw [hfailed h1, List.flatten_cons, h2]
      rfl

/-- However a text is cut, the session ends alike, with the same events but for texts that
a cut has divided. -/
theorem sax_session_cut {max_buffer_bytes : ℕ} {pieces pieces' : List Bytes}
    (hcut : pieces.flatten = pieces'.flatten)
    (hl : (sax_session .calm max_buffer_bytes pieces).2.error ≠ some buffer_limit)
    (hl' : (sax_session .calm max_buffer_bytes pieces').2.error ≠ some buffer_limit) :
    (sax_session .calm max_buffer_bytes pieces).1 =
        (sax_session .calm max_buffer_bytes pieces').1 ∧
      ((sax_session .calm max_buffer_bytes pieces).1 = true →
        merge (sax_session .calm max_buffer_bytes pieces).2.events =
          merge (sax_session .calm max_buffer_bytes pieces').2.events) := by
  have hopen : (sax_parser_create max_buffer_bytes).Open := ⟨rfl, rfl⟩
  have hr : reached (sax_session .calm max_buffer_bytes pieces) =
      reached (sax_session .calm max_buffer_bytes pieces') := by
    have h := feeds_ahead hopen pieces hl
    have h' := feeds_ahead hopen pieces' hl'
    rw [← hcut] at h'
    exact h.trans h'.symm
  unfold reached at hr
  cases h1 : (sax_session .calm max_buffer_bytes pieces).1 with
  | false =>
    cases h2 : (sax_session .calm max_buffer_bytes pieces').1 with
    | false => exact ⟨rfl, fun h => Bool.noConfusion h⟩
    | true =>
      rw [h1, h2] at hr
      cases hr
  | true =>
    cases h2 : (sax_session .calm max_buffer_bytes pieces').1 with
    | false =>
      rw [h1, h2] at hr
      cases hr
    | true =>
      rw [h1, h2] at hr
      exact ⟨rfl, fun _ => Option.some.inj hr⟩

/-- A text of two elements, cut inside an opening, a value and a CDATA section. -/
theorem sax_session_cut_inside :
    let pieces : List Bytes :=
      [[60], [97, 32, 98, 61, 39, 99], [39, 62, 120], [121, 60, 33],
        [91, 67, 68, 65, 84, 65, 91, 122, 93],
        [93, 62, 60, 47, 97, 62]]
    (sax_session .calm 64 pieces).1 = (sax_session .calm 64 [pieces.flatten]).1 ∧
      ((sax_session .calm 64 pieces).1 = true →
        merge (sax_session .calm 64 pieces).2.events =
          merge (sax_session .calm 64 [pieces.flatten]).2.events) :=
  sax_session_cut (by decide) (by decide +kernel) (by decide +kernel)

end SaltsUtils.Xml
