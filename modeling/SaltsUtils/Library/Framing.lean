import Mathlib.Data.List.Basic
import Mathlib.Tactic

/-!
# Messages in a byte stream

A framing says of any text whether a message stands at its start and how long it is, and
what it says does not change when more text follows.
-/

set_option autoImplicit false

namespace SaltsUtils

variable {β μ : Type*}

/-- What stands at the start of a text: nothing yet, a message with its length, or neither. -/
inductive Verdict (μ : Type*)
  | more
  | message (m : μ) (size : ℕ)
  | refused
deriving DecidableEq

structure Framing (β μ : Type*) where
  verdict : List β → Verdict μ
  size_pos : ∀ {text m n}, verdict text = .message m n → 0 < n
  size_le : ∀ {text m n}, verdict text = .message m n → n ≤ text.length
  message_append : ∀ {text m n} (after), verdict text = .message m n →
    verdict (text ++ after) = .message m n
  refused_append : ∀ {text} (after), verdict text = .refused → verdict (text ++ after) = .refused

namespace Framing

variable (F : Framing β μ)

def Stuck (text : List β) : Prop := ∀ m n, F.verdict text ≠ .message m n

/-- The messages at the start of a text and the text behind them. -/
inductive Reads : List β → List μ → List β → Prop
  | stop (text) : Reads text [] text
  | next {text m n ms rest} : F.verdict text = .message m n → Reads (text.drop n) ms rest →
      Reads text (m :: ms) rest

variable {F}

theorem reads_append {text ms rest} (after : List β) (h : F.Reads text ms rest) :
    F.Reads (text ++ after) ms (rest ++ after) := by
  induction h with
  | stop text => exact .stop _
  | next hv _ ih =>
    refine .next (F.message_append after hv) ?_
    rwa [List.drop_append_of_le_length (F.size_le hv)]

theorem reads_trans {text ms mid ms' rest} (h : F.Reads text ms mid)
    (h' : F.Reads mid ms' rest) : F.Reads text (ms ++ ms') rest := by
  induction h with
  | stop text => exact h'
  | next hv _ ih => exact .next hv (ih h')

theorem reads_one {text m n} (h : F.verdict text = .message m n) :
    F.Reads text [m] (text.drop n) := .next h (.stop _)

/-- Of two readings of one text, one goes on where the other ends. -/
theorem reads_fork {text ms rest ms' rest'} (h : F.Reads text ms rest)
    (h' : F.Reads text ms' rest') :
    (∃ more, ms' = ms ++ more ∧ F.Reads rest more rest') ∨
      ∃ more, ms = ms' ++ more ∧ F.Reads rest' more rest := by
  induction h generalizing ms' with
  | stop text => exact .inl ⟨ms', rfl, h'⟩
  | @next text m n ms rest hv hr ih =>
    cases h' with
    | stop _ => exact .inr ⟨m :: ms, rfl, .next hv hr⟩
    | next hv' hr' =>
      rw [hv] at hv'
      cases hv'
      obtain ⟨more, rfl, hm⟩ | ⟨more, rfl, hm⟩ := ih hr'
      · exact .inl ⟨more, rfl, hm⟩
      · exact .inr ⟨more, rfl, hm⟩

theorem stuck_reads {text ms rest} (hs : F.Stuck text) (h : F.Reads text ms rest) :
    ms = [] ∧ rest = text := by
  cases h with
  | stop _ => exact ⟨rfl, rfl⟩
  | next hv _ => exact absurd hv (hs _ _)

/-- Texts that each begin with their message whatever follows, put behind one another. -/
theorem reads_flatMap {wire : μ → List β} {ms : List μ}
    (hw : ∀ m ∈ ms, ∀ after, F.verdict (wire m ++ after) = .message m (wire m).length)
    (after : List β) : F.Reads (ms.flatMap wire ++ after) ms after := by
  induction ms with
  | nil => exact .stop _
  | cons m ms ih =>
    rw [List.flatMap_cons, List.append_assoc]
    refine .next (hw m (by simp) _) ?_
    rw [List.drop_left]
    exact ih fun m' hm' => hw m' (by simp [hm'])

/-- Where a message is its wire form, a text is the wire forms of what is read of it and the
rest. -/
theorem reads_wire {wire : μ → List β}
    (hw : ∀ text m n, F.verdict text = .message m n → wire m = text.take n) {text ms rest}
    (h : F.Reads text ms rest) : text = ms.flatMap wire ++ rest := by
  induction h with
  | stop text => rfl
  | next hv _ ih =>
    rw [List.flatMap_cons, List.append_assoc, ← ih, hw _ _ _ hv, List.take_append_drop]

/-- A text that is all messages is empty or starts with one of them. -/
theorem reads_head {text all} (h : F.Reads text all []) :
    text = [] ∨ ∃ m n, m ∈ all ∧ F.verdict text = .message m n := by
  generalize hr : ([] : List β) = rest at h
  cases h with
  | stop _ => exact .inl rfl
  | next hv _ => exact .inr ⟨_, _, List.mem_cons_self, hv⟩

theorem reads_complete {text ms rest all} (h : F.Reads text ms rest) (h' : F.Reads text all []) :
    ∃ more, all = ms ++ more ∧ F.Reads rest more [] := by
  obtain h | ⟨more, rfl, hm⟩ := reads_fork h h'
  · exact h
  · cases hm with
    | stop _ => exact ⟨[], by simp, .stop _⟩
    | next hv _ =>
      have := F.size_pos hv
      have := F.size_le hv
      simp only [List.length_nil] at this
      omega

end Framing

/-- Two readings of the same calls that begin alike are alike. -/
theorem eq_of_filterMap_initial {α γ : Type*} {f g : α → Option γ} {xs : List α}
    (hfg : ∀ x ∈ xs, (f x).isSome = (g x).isSome) {ys : List γ}
    (hf : xs.filterMap f <+: ys) (hg : xs.filterMap g <+: ys) : ∀ x ∈ xs, f x = g x := by
  induction xs generalizing ys with
  | nil => simp
  | cons x xs ih =>
    obtain ⟨hx, hxs⟩ := List.forall_mem_cons.mp hfg
    rw [List.filterMap_cons] at hf hg
    cases hfx : f x with
    | none =>
      cases hgx : g x with
      | some y => simp [hfx, hgx] at hx
      | none =>
        rw [hfx] at hf
        rw [hgx] at hg
        exact List.forall_mem_cons.mpr ⟨hfx.trans hgx.symm, ih hxs hf hg⟩
    | some y =>
      cases hgx : g x with
      | none => simp [hfx, hgx] at hx
      | some z =>
        rw [hfx] at hf
        rw [hgx] at hg
        cases ys with
        | nil => simp at hf
        | cons w ws =>
          obtain ⟨hy, hf⟩ := List.cons_prefix_cons.mp hf
          obtain ⟨hz, hg⟩ := List.cons_prefix_cons.mp hg
          exact List.forall_mem_cons.mpr ⟨by rw [hfx, hgx, hy, hz], ih hxs hf hg⟩

/-- One call of a receiver: the state before it, what is handed over, the answer, the state
after it. -/
structure Feed (σ δ ρ : Type*) where
  before : σ
  data : δ
  result : ρ
  after : σ

section
variable {σ δ ρ : Type*}

def feeds (feed : σ → δ → ρ × σ) : σ → List δ → List (Feed σ δ ρ)
  | _, [] => []
  | s, d :: ds => ⟨s, d, (feed s d).1, (feed s d).2⟩ :: feeds feed (feed s d).2 ds

/-- The state that a receiver is left in. -/
def fed (feed : σ → δ → ρ × σ) (s : σ) (ds : List δ) : σ := ds.foldl (fun s d => (feed s d).2) s

theorem feeds_append (feed : σ → δ → ρ × σ) (s : σ) (ds ds' : List δ) :
    feeds feed s (ds ++ ds') = feeds feed s ds ++ feeds feed (fed feed s ds) ds' := by
  induction ds generalizing s with
  | nil => rfl
  | cons d ds ih => simp [feeds, fed, ih]

theorem fed_append (feed : σ → δ → ρ × σ) (s : σ) (ds ds' : List δ) :
    fed feed s (ds ++ ds') = fed feed (fed feed s ds) ds' := List.foldl_append

/-- A receiver of a framing: a view of its unread text, and of the message that a call gives. -/
structure Receiver (F : Framing β μ) (feed : σ → δ → ρ × σ) where
  Holds : σ → Prop
  text : σ → List β
  bytes : δ → List β
  Good : ρ → Prop
  Looks : δ → Prop
  message : Feed σ δ ρ → Option μ
  holds_feed : ∀ {s} (d), Holds s → Good (feed s d).1 → Holds (feed s d).2
  /-- A call that gives a message reads it off the text. -/
  text_message : ∀ {s} (d) {m}, Holds s → Good (feed s d).1 →
    message ⟨s, d, (feed s d).1, (feed s d).2⟩ = some m →
    ∃ n, F.verdict (text s ++ bytes d) = .message m n ∧
      text (feed s d).2 = (text s ++ bytes d).drop n
  /-- A call that gives none keeps the text, and has found none if it looked for one. -/
  text_none : ∀ {s} (d), Holds s → Good (feed s d).1 →
    message ⟨s, d, (feed s d).1, (feed s d).2⟩ = none →
    text (feed s d).2 = text s ++ bytes d ∧ (Looks d → F.Stuck (text (feed s d).2))

namespace Receiver

variable {F : Framing β μ} {feed : σ → δ → ρ × σ} (R : Receiver F feed)

def AllGood (s : σ) (ds : List δ) : Prop := ∀ c ∈ feeds feed s ds, R.Good c.result

def messages (s : σ) (ds : List δ) : List μ := (feeds feed s ds).filterMap R.message

variable {R}

theorem allGood_cons {s : σ} {d : δ} {ds : List δ} :
    R.AllGood s (d :: ds) ↔ R.Good (feed s d).1 ∧ R.AllGood (feed s d).2 ds := by
  simp [AllGood, feeds]

theorem allGood_append {s : σ} {ds ds' : List δ} :
    R.AllGood s (ds ++ ds') ↔ R.AllGood s ds ∧ R.AllGood (fed feed s ds) ds' := by
  simp only [AllGood, feeds_append, List.mem_append]
  exact ⟨fun h => ⟨fun c hc => h c (.inl hc), fun c hc => h c (.inr hc)⟩,
    fun h c hc => hc.elim (h.1 c) (h.2 c)⟩

/-- However a text reaches the receiver, its messages are read off it in order and the rest is
kept. -/
theorem reads_feeds {s : σ} {ds : List δ} (hs : R.Holds s) (hg : R.AllGood s ds) :
    F.Reads (R.text s ++ ds.flatMap R.bytes) (R.messages s ds) (R.text (fed feed s ds)) ∧
      R.Holds (fed feed s ds) := by
  induction ds generalizing s with
  | nil =>
    refine ⟨?_, hs⟩
    rw [List.flatMap_nil, List.append_nil]
    exact .stop _
  | cons d ds ih =>
    obtain ⟨hd, hds⟩ := allGood_cons.mp hg
    obtain ⟨hr, hh⟩ := ih (R.holds_feed d hs hd) hds
    refine ⟨?_, hh⟩
    rw [List.flatMap_cons, ← List.append_assoc]
    cases hm : R.message ⟨s, d, (feed s d).1, (feed s d).2⟩ with
    | none =>
      obtain ⟨ht, -⟩ := R.text_none d hs hd hm
      simp only [messages, feeds, List.filterMap_cons, hm]
      rw [← ht]
      exact hr
    | some m =>
      obtain ⟨n, hv, ht⟩ := R.text_message d hs hd hm
      simp only [messages, feeds, List.filterMap_cons, hm]
      refine .next (F.message_append _ hv) ?_
      rw [List.drop_append_of_le_length (F.size_le hv), ← ht]
      exact hr

/-- As many calls that look as there are messages left, with nothing new, give all of them. -/
theorem messages_drain {s : σ} {ms : List μ} {ds : List δ} (hs : R.Holds s)
    (hg : R.AllGood s ds) (hl : ∀ d ∈ ds, R.Looks d ∧ R.bytes d = [])
    (hr : F.Reads (R.text s) ms []) (hn : ms.length ≤ ds.length) : R.messages s ds = ms := by
  induction ds generalizing s ms with
  | nil => exact (List.eq_nil_of_length_eq_zero (by simpa using hn)).symm
  | cons d ds ih =>
    obtain ⟨hd, hds⟩ := allGood_cons.mp hg
    obtain ⟨hlook, hb⟩ := hl d (by simp)
    have hstep : ∀ ms', F.Reads (R.text (feed s d).2) ms' [] → ms'.length ≤ ds.length →
        R.messages (feed s d).2 ds = ms' := fun ms' =>
      ih (R.holds_feed d hs hd) hds fun d' hd' => hl d' (by simp [hd'])
    simp only [messages, feeds, List.filterMap_cons]
    cases hm : R.message ⟨s, d, (feed s d).1, (feed s d).2⟩ with
    | none =>
      obtain ⟨ht, hstuck⟩ := R.text_none d hs hd hm
      rw [hb, List.append_nil] at ht
      obtain ⟨rfl, -⟩ := Framing.stuck_reads (hstuck hlook) (ht ▸ hr)
      exact hstep [] (ht ▸ hr) (by simp)
    | some m =>
      obtain ⟨n, hv, ht⟩ := R.text_message d hs hd hm
      rw [hb, List.append_nil] at hv ht
      generalize R.text s = text at hv ht hr
      cases hr with
      | stop _ =>
        have := F.size_pos hv
        have := F.size_le hv
        simp only [List.length_nil] at this
        omega
      | next hv' hr' =>
        rw [hv] at hv'
        cases hv'
        exact congrArg _ (hstep _ (ht ▸ hr') (by simpa using hn))

end Receiver

end

end SaltsUtils
