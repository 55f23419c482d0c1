import SaltsUtils.Csv.Sax

/-!
# Incremental parsing agrees with the scanner

The incremental parser and the scanner are followed side by side from a byte boundary
where the parser waits for nothing.
-/

set_option autoImplicit false

namespace SaltsUtils.Csv

/-- The calls that the scanner makes too. -/
def CsvEvent.shared : CsvEvent → Bool
  | .rowStart _ => false
  | _ => true

@[simp]
theorem CsvEvent.shared_field (row col : ℕ) (value : Bytes) :
    (CsvEvent.field row col value).shared = true := rfl

@[simp]
theorem CsvEvent.shared_rowEnd (row field_count : ℕ) :
    (CsvEvent.rowEnd row field_count).shared = true := rfl

def CsvCallback.shared (callback : CsvCallback) : CsvCallback :=
  callback.map fun answer log => answer (log.filter CsvEvent.shared)

/-- A handler for the two callbacks of the scanner, with or without a row start callback that
returns 0. -/
def sharedHandler (starts : Bool) (field_cb row_end_cb : CsvCallback) : CsvStreamHandler where
  on_row_start := if starts then some fun _ => true else none
  on_field := field_cb.shared
  on_row_end := row_end_cb.shared

section Agreement
variable {o : CsvOptions} {z k : Bool} (field_cb row_end_cb : CsvCallback) (starts : Bool)

theorem shared_call (callback : CsvCallback) {event : CsvEvent} (he : event.shared = true)
    (log : List CsvEvent) :
    (callback.shared.call event log).1.filter CsvEvent.shared =
        (callback.call event (log.filter CsvEvent.shared)).1 ∧
      (callback.shared.call event log).2 =
        (callback.call event (log.filter CsvEvent.shared)).2 := by
  cases callback with
  | none => exact ⟨rfl, rfl⟩
  | some answer => simp [CsvCallback.shared, CsvCallback.call, he]

/-- The parser stands where the scanner stands. -/
structure Ready (o : CsvOptions) (z k : Bool) (p : CsvSaxParser) (s : CsvScan) : Prop where
  opts : p.opts = o
  field : p.field = s.field
  row : p.row = s.row
  col : p.col = s.col
  in_quote : p.in_quote = s.in_quote
  field_started : p.field_started = s.field_started
  row_started : p.row_started = s.row_started
  log : p.log.filter CsvEvent.shared = s.log
  quote_pending : p.quote_pending = false
  failed : p.failed = false
  finished : p.finished = z
  skip_lf : p.skip_lf = k
  idle : s.field_started = false → s.field = []
  started : s.row_started = false → s.field_started = false ∧ s.col = 0
  quoted : s.in_quote = true → s.field_started = true ∧ s.row_started = true

def Both (R : CsvSaxParser → CsvScan → Prop) (r : CsvSaxParser × Bool) (t : CsvScan × Bool) :
    Prop :=
  r.2 = t.2 ∧ r.1.log.filter CsvEvent.shared = t.1.log ∧ (t.2 = true → R r.1 t.1)

variable {R R' : CsvSaxParser → CsvScan → Prop} {r : CsvSaxParser × Bool} {t : CsvScan × Bool}

theorem Both.andThen {f : CsvSaxParser → CsvSaxParser × Bool} {g : CsvScan → CsvScan × Bool}
    (h : Both R r t) (hf : ∀ p s, R p s → Both R' (f p) (g s)) :
    Both R' (Csv.andThen r f) (Csv.andThen t g) := by
  obtain ⟨q, ok⟩ := r
  obtain ⟨s, ok'⟩ := t
  obtain ⟨h₁, h₂, h₃⟩ := h
  cases h₁
  cases ok with
  | false => exact ⟨rfl, h₂, fun h => by cases h⟩
  | true => exact hf q s (h₃ rfl)

theorem Both.map (h : Both R r t) (f : CsvSaxParser → CsvSaxParser) (hlog : ∀ p, (f p).log = p.log)
    (hf : ∀ p s, R p s → R' (f p) s) : Both R' (Csv.andThen r fun p => (f p, true)) t := by
  obtain ⟨q, ok⟩ := r
  obtain ⟨s, ok'⟩ := t
  obtain ⟨h₁, h₂, h₃⟩ := h
  cases h₁
  cases ok with
  | false => exact ⟨rfl, h₂, fun h => by cases h⟩
  | true => exact ⟨rfl, by simp only [Csv.andThen, if_true, hlog]; exact h₂, fun _ => hf q s (h₃ rfl)⟩

theorem Both.mapScan (h : Both R r t) (g : CsvScan → CsvScan) (hlog : ∀ s, (g s).log = s.log)
    (hg : ∀ p s, R p s → R' p (g s)) : Both R' r (Csv.andThen t fun s => (g s, true)) := by
  obtain ⟨s, ok⟩ := t
  obtain ⟨h₁, h₂, h₃⟩ := h
  cases ok with
  | false => exact ⟨h₁, h₂, fun h => by cases h⟩
  | true => exact ⟨h₁, by simp only [Csv.andThen, if_true, hlog]; exact h₂, fun _ => hg _ s (h₃ rfl)⟩

variable {p : CsvSaxParser} {s : CsvScan}

theorem Both.done (hlog : p.log.filter CsvEvent.shared = s.log) (h : R p s) :
    Both R (p, true) (s, true) :=
  ⟨rfl, hlog, fun _ => h⟩

theorem start_row_ready (h : Ready o z k p s) :
    ∃ q, csv_sax_start_row (sharedHandler starts field_cb row_end_cb) p = (q, true) ∧
      Ready o z k q s := by
  unfold csv_sax_start_row
  split
  · exact ⟨p, rfl, h⟩
  · cases starts with
    | false => exact ⟨_, rfl, { h with }⟩
    | true =>
      refine ⟨_, rfl, ?_⟩
      exact { h with log := by simp [CsvCallback.call, sharedHandler, CsvEvent.shared, h.log] }

theorem call_both (callback : CsvCallback) {event : CsvEvent} (he : event.shared = true)
    (message : String) (h : Ready o z k p s) :
    Both (Ready o z k) (csv_sax_call callback.shared event message p)
      ({ s with log := (callback.call event s.log).1 }, (callback.call event s.log).2) := by
  obtain ⟨h₁, h₂⟩ := shared_call callback he p.log
  rw [h.log] at h₁ h₂
  unfold csv_sax_call csv_sax_fail
  simp only [h₂]
  cases hok : (callback.call event s.log).2 with
  | false => exact ⟨rfl, h₁, fun h => by cases h⟩
  | true => exact ⟨rfl, h₁, fun _ => { h with log := h₁ }⟩

def CsvScan.nextField (s : CsvScan) : CsvScan :=
  { s with col := s.col + 1, field := [], field_started := false, row_started := true }

def CsvScan.nextRow (s : CsvScan) : CsvScan :=
  { s with row := s.row + 1, col := 0, field := [], field_started := false, row_started := false }

theorem emit_field_both (h : Ready o z k p s) (hin : s.in_quote = false) :
    Both (fun q t => Ready o z k { q with row_started := true } t.nextField ∧
        q.row_started = s.row_started)
      (csv_sax_emit_field (sharedHandler starts field_cb row_end_cb) p)
      (csv_scan_emit_field field_cb s) := by
  obtain ⟨q, hq, hr⟩ := start_row_ready field_cb row_end_cb starts h
  unfold csv_sax_emit_field csv_scan_emit_field
  rw [hq, andThen_ok, hr.row, hr.col, hr.field]
  obtain ⟨h₁, h₂, h₃⟩ := call_both field_cb (CsvEvent.shared_field s.row s.col s.field)
    "CSV field callback failed" hr
  have hcall : Both (fun q t => Ready o z k q t ∧ t.row_started = s.row_started ∧
        t.in_quote = false)
      (csv_sax_call field_cb.shared (.field s.row s.col s.field) "CSV field callback failed" q)
      (csv_scan_emit_field field_cb s) := ⟨h₁, h₂, fun h => ⟨h₃ h, rfl, hin⟩⟩
  refine hcall.map _ (fun _ => rfl) ?_
  rintro p' s' ⟨hready, hs', hin'⟩
  refine ⟨?_, hready.row_started.trans hs'⟩
  exact { hready with
    col := by simp [CsvScan.nextField, hready.col]
    field := rfl
    field_started := rfl
    row_started := rfl
    idle := fun _ => rfl
    started := fun h => by cases h
    quoted := fun h => by
      have : s'.in_quote = true := h
      simp [hin'] at this }

theorem close_row_both {b : Bool}
    (h : Ready o z k p { s with field := [], field_started := false, row_started := b }) :
    Both (fun q t => Ready o z k q t.nextRow)
      (csv_sax_close_row (sharedHandler starts field_cb row_end_cb) p)
      (csv_scan_row_end row_end_cb s) := by
  obtain ⟨q, hq, hr⟩ := start_row_ready field_cb row_end_cb starts h
  unfold csv_sax_close_row csv_scan_row_end
  rw [hq, andThen_ok, hr.row, hr.col]
  obtain ⟨h₁, h₂, h₃⟩ := call_both row_end_cb (CsvEvent.shared_rowEnd s.row s.col)
    "CSV row callback failed" hr
  have hcall : Both (fun q t => Ready o z k q
      { t with field := [], field_started := false, row_started := b })
      (csv_sax_call row_end_cb.shared (.rowEnd s.row s.col) "CSV row callback failed" q)
      (csv_scan_row_end row_end_cb s) := ⟨h₁, h₂, h₃⟩
  refine hcall.map _ (fun _ => rfl) ?_
  intro p' s' hready
  exact { hready with
    row := by simp [CsvScan.nextRow, hready.row]
    col := rfl
    row_started := rfl
    started := fun _ => ⟨rfl, rfl⟩
    quoted := fun h => by cases (hready.quoted h).1 }

theorem close_started (hs : s.row_started = true) (q : CsvSaxParser) (t : CsvScan)
    (h : Ready o z k { q with row_started := true } t.nextField ∧ q.row_started = s.row_started) :
    Both (fun q t => Ready o z k q t.nextRow)
      (csv_sax_close_row (sharedHandler starts field_cb row_end_cb) q)
      (csv_scan_row_end row_end_cb { t with col := t.col + 1 }) := by
  obtain ⟨hq, hrow⟩ := h
  rw [hs] at hrow
  have hq' : Ready o z k q t.nextField := by
    cases q
    simp only at hrow
    subst hrow
    exact hq
  exact close_row_both field_cb row_end_cb starts (s := { t with col := t.col + 1 }) hq'

theorem scan_newline_started (h : (s.row_started || s.field_started) = true) :
    csv_scan_newline o field_cb row_end_cb s =
      andThen (csv_scan_emit_field field_cb s) fun t =>
        andThen (csv_scan_row_end row_end_cb { t with col := t.col + 1 }) fun t =>
          (t.nextRow, true) := by
  unfold csv_scan_newline csv_scan_end_row
  rw [h]
  simp only [Bool.true_or, if_true, andThen_assoc]
  rfl

theorem scan_newline_empty (h : (s.row_started || s.field_started) = false)
    (ho : o.skip_empty_rows = false) : csv_scan_newline o field_cb row_end_cb s =
      andThen (csv_scan_row_end row_end_cb s) fun t => (t.nextRow, true) := by
  unfold csv_scan_newline csv_scan_end_row
  rw [h, ho]
  simp only [Bool.false_or, Bool.not_false, if_true, Bool.false_eq_true, if_false, andThen_assoc,
    andThen_ok]
  rfl

theorem newline_both (h : Ready o z k p s) (hin : s.in_quote = false) :
    Both (Ready o z k) (csv_sax_newline (sharedHandler starts field_cb row_end_cb) p)
      (csv_scan_newline o field_cb row_end_cb s) := by
  have hreset : s.row_started = false → s.field_started = false →
      ({ s with col := 0, field := [], field_started := false, row_started := false } : CsvScan) =
        s := by
    intro h₁ h₂
    obtain ⟨-, h₃⟩ := h.started h₁
    have h₄ := h.idle h₂
    cases s
    simp_all
  unfold csv_sax_newline
  simp only [h.row_started, h.field_started, h.opts]
  cases hs : s.row_started with
  | true =>
    rw [scan_newline_started field_cb row_end_cb (by simp [hs])]
    simp only [Bool.true_or, if_true, csv_sax_end_row]
    refine (emit_field_both field_cb row_end_cb starts h hin).andThen ?_
    intro q t hqt
    exact (close_started field_cb row_end_cb starts hs q t hqt).mapScan CsvScan.nextRow
      (fun _ => rfl) fun _ _ h => h
  | false =>
    have hf := (h.started hs).1
    cases ho : o.skip_empty_rows with
    | false =>
      rw [scan_newline_empty field_cb row_end_cb (by simp [hs, hf]) ho]
      simp only [hf, Bool.or_false, Bool.not_false, Bool.or_true, if_true, csv_sax_end_row,
        Bool.false_eq_true, if_false]
      have h' : Ready o z k p { s with field := [], field_started := false, row_started := false } := by
        cases s
        simp_all
      exact (close_row_both field_cb row_end_cb starts h').mapScan CsvScan.nextRow
        (fun _ => rfl) fun _ _ h => h
    | true =>
      have hn : csv_scan_newline o field_cb row_end_cb s = (s, true) := by
        unfold csv_scan_newline
        simp only [hs, hf, ho, Bool.or_false, Bool.not_true, Bool.false_eq_true, if_false,
          andThen_ok]
        rw [hreset hs hf]
      rw [hn]
      simp only [hf, Bool.or_false, Bool.not_true, Bool.false_eq_true, if_false]
      exact Both.done h.log h

/-- What the two readers did: the same calls and the same result. -/
def Agree (r : CsvSaxParser × Bool) (out : CsvOutcome) : Prop :=
  r.1.log.filter CsvEvent.shared = out.log ∧ r.2 = out.success

def scanned (t : CsvScan × Bool) : CsvOutcome :=
  if t.2 then csv_scan_finish field_cb row_end_cb t.1 else ⟨t.1.log, false, none⟩

theorem Both.agree {f : CsvSaxParser → CsvSaxParser × Bool} {g : CsvScan → CsvScan × Bool}
    (h : Both R r t) (hf : ∀ p s, R p s → Agree (f p) (scanned field_cb row_end_cb (g s))) :
    Agree (Csv.andThen r f) (scanned field_cb row_end_cb (Csv.andThen t g)) := by
  obtain ⟨q, ok⟩ := r
  obtain ⟨s, ok'⟩ := t
  obtain ⟨h₁, h₂, h₃⟩ := h
  cases h₁
  cases ok with
  | false => exact ⟨h₂, rfl⟩
  | true => exact hf q s (h₃ rfl)

theorem sax_finish_eq (handler : CsvStreamHandler) (h₁ : p.failed = false) (h₂ : p.finished = false)
    (h₃ : p.quote_pending = false) : csv_sax_parser_finish handler p =
      if p.in_quote then csv_sax_fail { p with finished := true } "Unterminated quoted field"
      else if p.row_started || p.field_started then
        csv_sax_end_row handler { p with finished := true } true
      else ({ p with finished := true }, true) := by
  cases p
  simp only at h₁ h₂ h₃
  subst h₁ h₂ h₃
  rfl

theorem finish_agree (h : Ready o false k p s) :
    Agree (csv_sax_parser_finish (sharedHandler starts field_cb row_end_cb) p)
      (csv_scan_finish field_cb row_end_cb s) := by
  have hp : Ready o true k { p with finished := true } s := { h with finished := rfl }
  rw [sax_finish_eq _ h.failed h.finished h.quote_pending]
  unfold csv_scan_finish
  by_cases hq : s.in_quote = true
  · rw [if_pos (h.in_quote.trans hq), if_pos hq]
    exact ⟨h.log, rfl⟩
  rw [if_neg (by rw [h.in_quote]; exact hq), if_neg hq]
  by_cases hs : (s.row_started || s.field_started) = true
  · rw [if_pos (by rw [h.row_started, h.field_started]; exact hs), if_pos hs]
    have hrow : s.row_started = true := by
      by_contra hno
      have := (h.started (by simpa using hno)).1
      simp_all
    obtain ⟨h₁, h₂, -⟩ := (emit_field_both field_cb row_end_cb starts hp
      (by simpa using hq)).andThen
      (close_started field_cb row_end_cb starts hrow)
    unfold csv_scan_end_row
    rw [if_pos hs, andThen_assoc]
    exact ⟨h₂, h₁⟩
  · rw [if_neg (by rw [h.row_started, h.field_started]; exact hs), if_neg hs]
    exact ⟨h.log, rfl⟩

theorem Ready.append (h : Ready o z k p s) (ch : UInt8) :
    Ready o z k { p with field := p.field ++ [ch], field_started := true, row_started := true }
      { s with field := s.field ++ [ch], field_started := true, row_started := true } :=
  { h with
    field := by rw [h.field]
    field_started := rfl
    row_started := rfl
    idle := fun h => by cases h
    started := fun h => by cases h
    quoted := fun _ => ⟨rfl, rfl⟩ }

theorem Ready.quoting (h : Ready o z k p s) (b : Bool) :
    Ready o z k { p with in_quote := b, field_started := true, row_started := true }
      { s with in_quote := b, field_started := true, row_started := true } :=
  { h with
    in_quote := rfl
    field_started := rfl
    row_started := rfl
    idle := fun h => by cases h
    started := fun h => by cases h
    quoted := fun _ => ⟨rfl, rfl⟩ }

section Steps
variable {handler : CsvStreamHandler} {p : CsvSaxParser}

theorem sax_step_ready (h : p.skip_lf = false) (ch : UInt8) :
    csv_sax_step handler p ch = csv_sax_byte handler p ch := by
  rw [csv_sax_step, h]
  rfl

theorem sax_pending_step (h₁ : p.in_quote = true) (h₂ : p.quote_pending = false)
    (h₃ : p.skip_lf = false) {ch : UInt8} (hch : ch ≠ p.opts.quote) :
    csv_sax_step handler { p with quote_pending := true } ch =
      csv_sax_step handler { p with in_quote := false } ch := by
  cases p
  simp only at h₁ h₂ h₃ hch
  subst h₁ h₂ h₃
  simp [csv_sax_step, csv_sax_byte, hch]

theorem sax_pending_finish (h₁ : p.failed = false) (h₂ : p.finished = false)
    (h₃ : p.quote_pending = false) :
    csv_sax_parser_finish handler { p with quote_pending := true } =
      csv_sax_parser_finish handler { p with in_quote := false } := by
  cases p
  simp only at h₁ h₂ h₃
  subst h₁ h₂ h₃
  rfl

theorem sax_skip_step (h : p.skip_lf = false) {ch : UInt8} (hch : ch ≠ lf) :
    csv_sax_step handler { p with skip_lf := true } ch = csv_sax_step handler p ch := by
  cases p
  simp only at h
  subst h
  simp [csv_sax_step, hch]

theorem sax_skip_lf (h : p.skip_lf = false) :
    csv_sax_step handler { p with skip_lf := true } lf = (p, true) := by
  cases p
  simp only at h
  subst h
  rfl

end Steps

/-- From a byte boundary where the parser waits for nothing, the two readers agree on the rest of
the text. -/
theorem feed_agree (n : ℕ) : ∀ rest : Bytes, rest.length ≤ n → ∀ (p : CsvSaxParser) (s : CsvScan),
    Ready o false false p s →
    Agree (andThen (csv_sax_feed_loop (sharedHandler starts field_cb row_end_cb) p rest)
        (csv_sax_parser_finish (sharedHandler starts field_cb row_end_cb)))
      (scanned field_cb row_end_cb (csv_scan_loop o field_cb row_end_cb rest s)) := by
  induction n with
  | zero =>
    intro rest hlen p s h
    have hrest : rest = [] := List.length_eq_zero_iff.mp (by omega)
    subst hrest
    exact finish_agree field_cb row_end_cb starts h
  | succ n ih =>
    intro rest hlen p s h
    cases rest with
    | nil => exact finish_agree field_cb row_end_cb starts h
    | cons ch rest =>
      have hlen' : rest.length ≤ n := by simpa using hlen
      rw [csv_sax_feed_loop, sax_step_ready h.skip_lf, andThen_assoc, scan_loop_cons]
      unfold csv_sax_byte
      by_cases hin : s.in_quote = true
      · rw [if_pos (h.in_quote.trans hin), if_pos hin, if_neg (by simp [h.quote_pending])]
        by_cases hch : ch = o.quote
        · -- the parser waits for the byte that the scanner looks at
          rw [if_pos (by rw [h.opts]; exact hch), if_pos hch, andThen_ok]
          obtain ⟨hf, hr⟩ := h.quoted hin
          have hclosed : Ready o false false { p with in_quote := false }
              { s with in_quote := false, field_started := true, row_started := true } :=
            { h with
              in_quote := rfl
              field_started := h.field_started.trans hf
              row_started := h.row_started.trans hr
              idle := fun h => by cases h
              started := fun h => by cases h
              quoted := fun h => by cases h }
          cases rest with
          | nil =>
            rw [if_neg (by simp), csv_sax_feed_loop, andThen_ok,
              sax_pending_finish h.failed h.finished h.quote_pending]
            exact finish_agree field_cb row_end_cb starts hclosed
          | cons next rest =>
            simp only [List.head?_cons, Option.some.injEq, List.tail_cons]
            by_cases hnext : next = o.quote
            · rw [if_pos hnext, csv_sax_feed_loop]
              have hstep : csv_sax_step (sharedHandler starts field_cb row_end_cb)
                  { p with quote_pending := true } next =
                  ({ p with
                    field := p.field ++ [o.quote], field_started := true, row_started := true },
                    true) := by
                unfold csv_sax_step csv_sax_byte
                simp [h.skip_lf, h.in_quote, hin, h.opts, hnext, h.quote_pending]
              rw [hstep, andThen_ok]
              simp only [List.length_cons] at hlen'
              exact ih rest (by omega) _ _ (h.append o.quote)
            · have hfeed : csv_sax_feed_loop (sharedHandler starts field_cb row_end_cb)
                  { p with quote_pending := true } (next::rest) =
                  csv_sax_feed_loop (sharedHandler starts field_cb row_end_cb)
                    { p with in_quote := false } (next::rest) := by
                rw [csv_sax_feed_loop, csv_sax_feed_loop, sax_pending_step (h.in_quote.trans hin)
                  h.quote_pending h.skip_lf (by rw [h.opts]; exact hnext)]
              rw [if_neg hnext, hfeed]
              exact ih (next::rest) hlen' _ _ hclosed
        · rw [if_neg (by rw [h.opts]; exact hch), if_neg hch, andThen_ok]
          exact ih rest hlen' _ _ (h.append ch)
      · rw [if_neg (by rw [h.in_quote]; exact hin), if_neg hin]
        have hin' : s.in_quote = false := by simpa using hin
        unfold csv_sax_plain
        by_cases hopen : s.field_started = false ∧ ch = o.quote
        · rw [if_pos (by rw [h.field_started, h.opts]; exact hopen), if_pos hopen, andThen_ok]
          exact ih rest hlen' _ _ (h.quoting true)
        rw [if_neg (by rw [h.field_started, h.opts]; exact hopen), if_neg hopen]
        by_cases hdelim : ch = o.delimiter
        · rw [if_pos (by rw [h.opts]; exact hdelim), if_pos hdelim, andThen_assoc]
          refine (emit_field_both field_cb row_end_cb starts h hin').agree field_cb row_end_cb ?_
          rintro q t ⟨hq, -⟩
          exact ih rest hlen' _ _ hq
        rw [if_neg (by rw [h.opts]; exact hdelim), if_neg hdelim]
        by_cases hnl : ch = cr ∨ ch = lf
        · rw [if_pos hnl, if_pos hnl, andThen_assoc]
          refine (newline_both field_cb row_end_cb starts h hin').agree field_cb row_end_cb ?_
          intro q t hq
          by_cases hcr : ch = cr
          · -- the line feed after a carriage return belongs to it
            rw [if_pos hcr, andThen_ok]
            cases rest with
            | nil =>
              rw [if_neg (by simp), csv_sax_feed_loop, andThen_ok]
              have hskip : Ready o false true { q with skip_lf := true } t :=
                { hq with skip_lf := rfl }
              exact finish_agree field_cb row_end_cb starts hskip
            | cons next rest =>
              simp only [List.head?_cons, Option.some.injEq, List.tail_cons, hcr, true_and]
              by_cases hnext : next = lf
              · rw [if_pos hnext, csv_sax_feed_loop, hnext, sax_skip_lf hq.skip_lf, andThen_ok]
                simp only [List.length_cons] at hlen'
                exact ih rest (by omega) _ _ hq
              · rw [if_neg hnext, csv_sax_feed_loop, sax_skip_step hq.skip_lf hnext,
                  ← csv_sax_feed_loop]
                exact ih (next::rest) hlen' _ _ hq
          · rw [if_neg hcr, if_neg (fun h => hcr h.1), andThen_ok]
            exact ih rest hlen' _ _ hq
        · rw [if_neg hnl, if_neg hnl, andThen_ok]
          exact ih rest hlen' _ _ (h.append ch)

end Agreement

/-- However a text is cut into chunks, the incremental parser makes the calls that it makes on
the whole text, whatever the callbacks answer. Apart from the row starts these are the calls of
the one-shot scanner, and both readers succeed or both fail. -/
theorem incremental_eq_scan (opts : Option CsvOptions) (chunks : List Bytes) :
    (∀ handler, csv_sax_run handler opts chunks =
      csv_parse_stream_opts handler chunks.flatten opts) ∧
    ∀ (starts : Bool) (field_cb row_end_cb : CsvCallback),
      let fed := csv_sax_run (sharedHandler starts field_cb row_end_cb) opts chunks
      let whole := csv_scan_opts field_cb row_end_cb chunks.flatten opts
      fed.log.filter CsvEvent.shared = whole.log ∧ fed.success = whole.success := by
  constructor
  · intro handler
    exact sax_run_eq handler opts chunks
  · intro starts field_cb row_end_cb
    have hready : Ready (csv_normalize_opts opts) false false (csv_sax_parser_create opts) {} := by
      constructor <;> simp [csv_sax_parser_create]
    obtain ⟨h₁, h₂⟩ := feed_agree field_cb row_end_cb starts chunks.flatten.length
      chunks.flatten (Nat.le_refl _) _ _ hready
    simp only [sax_run_eq]
    exact ⟨h₁, h₂⟩

/-- A carriage return and its line feed, and the two quotes of an escape, cut apart. -/
example : (csv_sax_run (sharedHandler false (some fun _ => true) (some fun _ => true)) none
    [[97, cr], [lf, doubleQuote, 98, doubleQuote], [doubleQuote], [doubleQuote]]).log =
    [.field 0 0 [97], .rowEnd 0 1, .field 1 0 [98, doubleQuote], .rowEnd 1 1] := by decide

end SaltsUtils.Csv
