import SaltsUtils.Cron.FieldParser

/-!
# Where the field parser does what is documented

The text of a field can be listed in one way only, so that the terms as they are taken can
be set against the terms as they are written.
-/

set_option autoImplicit false

namespace SaltsUtils.Cron

variable {spec : FieldSpec}

theorem append_cons_unique {c : Char} {x x' rest rest' : List Char} (hx : c ∉ x) (hx' : c ∉ x')
    (h : x ++ c :: rest = x' ++ c :: rest') : x = x' ∧ rest = rest' := by
  induction x generalizing x' with
  | nil =>
    cases x' with
    | nil => exact ⟨rfl, List.tail_eq_of_cons_eq h⟩
    | cons d x' =>
      cases h
      exact absurd (List.mem_cons_self) hx'
  | cons d x ih =>
    cases x' with
    | nil =>
      cases h
      exact absurd (List.mem_cons_self) hx
    | cons d' x' =>
      obtain ⟨rfl, htail⟩ := List.cons_eq_cons.mp h
      obtain ⟨rfl, rfl⟩ := ih (fun hc => hx (.tail _ hc)) (fun hc => hx' (.tail _ hc)) htail
      exact ⟨rfl, rfl⟩

def Alphanumeric (text : List Char) : Prop := ∀ c ∈ text, isDigit c = true ∨ isLetter c = true

variable {text : List Char}

theorem Spelt.alphanumeric {value : ℕ} (h : Spelt spec text value) : Alphanumeric text := by
  cases h with
  | number hne hd => exact fun c hc => .inl (hd c hc)
  | name h => exact fun c hc => .inr ((lookup_name h).2.2 c hc)

theorem Alphanumeric.not_mem (h : Alphanumeric text) :
    '*' ∉ text ∧ ',' ∉ text ∧ '-' ∉ text ∧ '/' ∉ text :=
  ⟨fun hc => (not_delimiter (h _ hc)).1 rfl, fun hc => (not_delimiter (h _ hc)).2.1 rfl,
    fun hc => (not_delimiter (h _ hc)).2.2.1 rfl, fun hc => (not_delimiter (h _ hc)).2.2.2 rfl⟩

theorem digit_not_letter {c : Char} (hd : isDigit c = true) : isLetter c = false := by
  simp only [isDigit, isLetter, Bool.and_eq_true, Bool.or_eq_false_iff, Bool.and_eq_false_iff,
    decide_eq_true_eq, decide_eq_false_iff_not, Char.le_def, UInt32.le_iff_toNat_le] at hd ⊢
  revert hd
  simp
  omega

theorem Spelt.unique {a b : ℕ} (ha : Spelt spec text a) (hb : Spelt spec text b) : a = b := by
  have hne : ∀ {value : ℤ}, text ≠ [] → (∀ c ∈ text, isDigit c = true) →
      cron_lookup_name spec text ≠ some value := by
    intro value hne hd hlookup
    obtain ⟨c, text, rfl⟩ := List.exists_cons_of_ne_nil hne
    have := (lookup_name hlookup).2.2 c (by simp)
    rw [digit_not_letter (hd c (by simp))] at this
    cases this
  cases ha with
  | number hn hd =>
    cases hb with
    | number _ _ => rfl
    | name h => exact absurd h (hne hn hd)
  | name h =>
    cases hb with
    | number hn hd => exact absurd h (hne hn hd)
    | name h' => exact Int.ofNat.inj (Option.some.inj (h.symm.trans h'))

variable {range : Range}

theorem WrittenRange.not_mem (h : WrittenRange spec text range) : ',' ∉ text ∧ '/' ∉ text := by
  cases h with
  | star => decide
  | one ha => exact ⟨ha.alphanumeric.not_mem.2.1, ha.alphanumeric.not_mem.2.2.2⟩
  | between ha hb =>
    have hfirst := ha.alphanumeric.not_mem
    have hlast := hb.alphanumeric.not_mem
    simp [hfirst, hlast]

theorem WrittenRange.unique {range' : Range} (h : WrittenRange spec text range)
    (h' : WrittenRange spec text range') : range = range' := by
  cases h with
  | star =>
    generalize htext : ['*'] = text at h'
    cases h' with
    | star => rfl
    | one ha => exact absurd (htext ▸ List.mem_cons_self) ha.alphanumeric.not_mem.1
    | @between first _ _ _ ha _ =>
      cases first with
      | nil => cases htext
      | cons c first =>
        obtain ⟨rfl, -⟩ := List.cons_eq_cons.mp htext
        exact absurd List.mem_cons_self ha.alphanumeric.not_mem.1
  | one ha =>
    cases h' with
    | star => exact absurd List.mem_cons_self ha.alphanumeric.not_mem.1
    | one hb => rw [ha.unique hb]
    | between hb hc => exact absurd (by simp) ha.alphanumeric.not_mem.2.2.1
  | @between first last a b ha hb =>
    generalize htext : first ++ '-' :: last = text at h'
    cases h' with
    | star =>
      cases first with
      | nil => cases htext
      | cons c first =>
        obtain ⟨rfl, -⟩ := List.cons_eq_cons.mp htext
        exact absurd List.mem_cons_self ha.alphanumeric.not_mem.1
    | one hc => exact absurd (htext ▸ by simp) hc.alphanumeric.not_mem.2.2.1
    | between ha' hb' =>
      obtain ⟨rfl, rfl⟩ := append_cons_unique ha.alphanumeric.not_mem.2.2.1
        ha'.alphanumeric.not_mem.2.2.1 htext
      rw [ha.unique ha', hb.unique hb']

variable {term : Term}

theorem Written.unique {term' : Term} (h : Written spec text term) (h' : Written spec text term') :
    term = term' := by
  cases h with
  | plain h =>
    cases h' with
    | plain h' => rw [h.unique h']
    | stepped _ _ _ => exact absurd (by simp) h.not_mem.2
  | stepped h hne hd =>
    generalize htext : _ ++ '/' :: _ = text at h'
    cases h' with
    | plain h' => exact absurd (htext ▸ by simp) h'.not_mem.2
    | stepped h' _ _ =>
      obtain ⟨rfl, rfl⟩ := append_cons_unique h.not_mem.2 h'.not_mem.2 htext
      rw [h.unique h']

theorem Written.not_mem (h : Written spec text term) : ',' ∉ text := by
  cases h with
  | plain h => exact h.not_mem.1
  | @stepped text digits _ h hne hd =>
    have hdigits : Alphanumeric digits := fun c hc => .inl (hd c hc)
    simp [h.not_mem.1, hdigits.not_mem.2.1]

theorem Listed.unique {terms terms' : List Term} (h : Listed spec text terms)
    (h' : Listed spec text terms') : terms = terms' := by
  induction h generalizing terms' with
  | last h =>
    cases h' with
    | last h' => rw [h.unique h']
    | cons _ _ => exact absurd (by simp) h.not_mem
  | @cons text rest term terms h hs ih =>
    generalize htext : text ++ ',' :: rest = whole at h'
    cases h' with
    | last h' => exact absurd (htext ▸ by simp) h'.not_mem
    | cons h' hs' =>
      obtain ⟨rfl, rfl⟩ := append_cons_unique h.not_mem h'.not_mem htext
      rw [h.unique h', ih hs']

theorem Listed.not_comma {terms : List Term} (h : Listed spec text terms) :
    text.getLast? ≠ some ',' := by
  induction h with
  | last h => exact fun hl => h.not_mem (List.mem_of_getLast? hl)
  | @cons text rest term terms h hs ih =>
    have hne : rest ≠ [] := by
      cases hs with
      | last hw => exact hw.ne_nil
      | cons hw _ => exact List.append_ne_nil_of_left_ne_nil hw.ne_nil _
    rw [List.getLast?_append_of_ne_nil _ (List.cons_ne_nil _ _), List.getLast?_cons_of_ne_nil hne]
    exact ih

section
variable (spec)

def Term.Takable (term : Term) : Prop := ∃ taken, term.taken spec = some taken ∧ taken.Valid spec

def Term.takenDays (term : Term) : Set ℕ :=
    {i | ∃ taken, term.taken spec = some taken ∧ i ∈ taken.days spec}

/-- Reading numbers through an `int`, 7 as 0 before it is part of a range, a stepped range of
one value as that value, and passing over a last comma makes no difference to the text: it
leaves a term that is refused, or all of them valid with the same values together. -/
structure Harmless (text : List Char) : Prop where
  comma : ∀ front terms, text = front ++ [','] → Listed spec front terms →
    ∃ term ∈ terms, ¬ term.Takable spec
  terms : ∀ terms, Listed spec text terms →
    (∃ term ∈ terms, ¬ term.Valid spec) ∧ (∃ term ∈ terms, ¬ term.Takable spec) ∨
      (∀ term ∈ terms, term.Valid spec ∧ term.Takable spec) ∧
        ∀ i, (∃ term ∈ terms, i ∈ term.days spec) ↔ ∃ term ∈ terms, i ∈ term.takenDays spec

end

theorem takenDays_of_taken {taken : Term} (h : term.taken spec = some taken) :
    term.takenDays spec = taken.days spec := by
  ext i
  constructor
  · rintro ⟨t, ht, hi⟩
    obtain rfl : taken = t := Option.some.inj (h.symm.trans ht)
    exact hi
  · exact fun hi => ⟨taken, h, hi⟩

theorem forall_taken {written : List Term} {days : Set ℕ} :
    (∃ terms, List.Forall₂ (fun term term' => Term.taken spec term = some term') written terms ∧
        (∀ term ∈ terms, term.Valid spec) ∧ days = union spec terms) ↔
      (∀ term ∈ written, term.Takable spec) ∧
        days = {i | ∃ term ∈ written, i ∈ term.takenDays spec} := by
  induction written generalizing days with
  | nil =>
    constructor
    · rintro ⟨terms, hall, -, rfl⟩
      cases hall
      exact ⟨List.forall_mem_nil _, by simp [union]⟩
    · rintro ⟨-, rfl⟩
      exact ⟨[], .nil, List.forall_mem_nil _, by simp [union]⟩
  | cons term written ih =>
    have hcons : {i | ∃ t ∈ term :: written, i ∈ t.takenDays spec} =
        term.takenDays spec ∪ {i | ∃ t ∈ written, i ∈ t.takenDays spec} := by
      ext i
      simp
    rw [List.forall_mem_cons, hcons]
    constructor
    · rintro ⟨terms, hall, hv, rfl⟩
      cases hall with
      | @cons _ taken _ terms ht hall =>
        obtain ⟨hv, hvs⟩ := List.forall_mem_cons.mp hv
        obtain ⟨htaken, hdays⟩ := ih.mp ⟨terms, hall, hvs, rfl⟩
        exact ⟨⟨⟨taken, ht, hv⟩, htaken⟩, by rw [union_cons, hdays, takenDays_of_taken ht]⟩
    · rintro ⟨⟨⟨taken, ht, hv⟩, htaken⟩, rfl⟩
      obtain ⟨terms, hall, hvs, hdays⟩ := ih.mpr ⟨htaken, rfl⟩
      exact ⟨taken :: terms, .cons ht hall, List.forall_mem_cons.mpr ⟨hv, hvs⟩,
        by rw [union_cons, hdays, takenDays_of_taken ht]⟩

theorem takenAs_iff {days : Set ℕ} : TakenAs spec text days ↔
    ∃ written, (Listed spec text written ∨
        ∃ front, text = front ++ [','] ∧ Listed spec front written) ∧
      (∀ term ∈ written, term.Takable spec) ∧
      days = {i | ∃ term ∈ written, i ∈ term.takenDays spec} := by
  constructor
  · rintro ⟨terms, ⟨written, hl, hall⟩, hv, hdays⟩
    exact ⟨written, hl, forall_taken.mp ⟨terms, hall, hv, hdays⟩⟩
  · rintro ⟨written, hl, h⟩
    obtain ⟨terms, hall, hv, hdays⟩ := forall_taken.mpr h
    exact ⟨terms, ⟨written, hl, hall⟩, hv, hdays⟩

theorem taken_documented (text : List Char) :
    (∀ days, TakenAs spec text days ↔ Denotes spec text days) ↔ Harmless spec text := by
  constructor
  · intro h
    constructor
    · intro front terms htext hl
      by_contra hall
      push Not at hall
      obtain ⟨_, hlisted, -⟩ := (h _).mp (takenAs_iff.mpr ⟨terms, .inr ⟨front, htext, hl⟩, hall, rfl⟩)
      exact hlisted.not_comma (by simp [htext])
    · intro terms hl
      by_cases hall : ∀ term ∈ terms, term.Takable spec
      · obtain ⟨terms', hl', hv, hdays⟩ := (h _).mp (takenAs_iff.mpr ⟨terms, .inl hl, hall, rfl⟩)
        obtain rfl := hl.unique hl'
        exact .inr ⟨fun term ht => ⟨hv term ht, hall term ht⟩,
          fun i => (Set.ext_iff.mp hdays i).symm⟩
      · by_cases hv : ∀ term ∈ terms, term.Valid spec
        · obtain ⟨written, hw, htaken, -⟩ := takenAs_iff.mp ((h _).mpr ⟨terms, hl, hv, rfl⟩)
          rcases hw with hw | ⟨front, rfl, -⟩
          · exact absurd (hl.unique hw ▸ htaken) hall
          · exact absurd (by simp) hl.not_comma
        · push Not at hall hv
          exact .inl ⟨hv, hall⟩
  · intro h days
    rw [takenAs_iff]
    constructor
    · rintro ⟨written, hl | ⟨front, htext, hl⟩, htaken, rfl⟩
      · rcases h.terms written hl with ⟨-, term, ht, hn⟩ | ⟨hv, hdays⟩
        · exact absurd (htaken term ht) hn
        · exact ⟨written, hl, fun term ht => (hv term ht).1, Set.ext fun i => (hdays i).symm⟩
      · obtain ⟨term, ht, hn⟩ := h.comma front written htext hl
        exact absurd (htaken term ht) hn
    · rintro ⟨terms, hl, hv, rfl⟩
      rcases h.terms terms hl with ⟨⟨term, ht, hn⟩, -⟩ | ⟨htaken, hdays⟩
      · exact absurd (hv term ht) hn
      · exact ⟨terms, .inl hl, fun term ht => (htaken term ht).2, Set.ext hdays⟩

def Range.numbers : Range → List ℕ
  | .star => []
  | .one value => [value]
  | .between first last => [first, last]

/-- No number leaves the `int`, 7 stands for Sunday only alone, and no range of one value has
a step. -/
structure Term.Plain (spec : FieldSpec) (term : Term) : Prop where
  numbers : ∀ n ∈ term.range.numbers, n < 2 ^ 31
  sunday : spec.kind = .dayOfWeek → 7 ∈ term.range.numbers → term = ⟨.one 7, none⟩
  step : ∀ n ∈ term.step, term.range.start spec + n < 2 ^ 31
  several : term.step ≠ none → ∀ value, term.range ≠ .between value value

theorem taken_value_plain (hspec : spec.Regular) {n m : ℕ} (hn : n < 2 ^ 31)
    (hday : spec.kind = .dayOfWeek → n ≠ 7) :
    taken_value spec n = some m ↔ spec.InRange n ∧ m = n := by
  have hwrap : wrapInt n = n := wrapInt_small (by omega) (by omega)
  have hsame : spec.day n = n := if_neg fun h => hday h.1 h.2
  rw [taken_value_eq_some hspec, hwrap, Int.toNat_natCast, hsame]
  rfl

theorem range_taken_plain (hspec : spec.Regular) {taken : Range}
    (hn : ∀ n ∈ range.numbers, n < 2 ^ 31) (hday : spec.kind = .dayOfWeek → 7 ∉ range.numbers) :
    range.taken spec = some taken ↔ range.Within spec ∧ taken = range := by
  have hvalue : ∀ n ∈ range.numbers, ∀ m, taken_value spec n = some m ↔ spec.InRange n ∧ m = n :=
    fun n hmem m => taken_value_plain hspec (hn n hmem) fun hk h => hday hk (h ▸ hmem)
  cases range with
  | star => exact ⟨fun h => ⟨trivial, (Option.some.inj h).symm⟩, fun h => congrArg some h.2.symm⟩
  | one value =>
    have hone := hvalue value (by simp [Range.numbers])
    rw [Range.taken, Option.map_eq_some_iff]
    constructor
    · rintro ⟨m, hm, rfl⟩
      obtain ⟨hr, rfl⟩ := (hone m).mp hm
      exact ⟨hr, rfl⟩
    · rintro ⟨hr, rfl⟩
      exact ⟨value, (hone value).mpr ⟨hr, rfl⟩, rfl⟩
  | between first last =>
    have hfirst := hvalue first (by simp [Range.numbers])
    have hlast := hvalue last (by simp [Range.numbers])
    constructor
    · intro h
      obtain ⟨a, ha, hrest⟩ := Option.bind_eq_some_iff.mp h
      obtain ⟨b, hb, hsome⟩ := Option.bind_eq_some_iff.mp hrest
      obtain ⟨hra, rfl⟩ := (hfirst a).mp ha
      obtain ⟨hrb, rfl⟩ := (hlast b).mp hb
      exact ⟨⟨hra, hrb⟩, (Option.some.inj hsome).symm⟩
    · rintro ⟨⟨hra, hrb⟩, rfl⟩
      exact Option.bind_eq_some_iff.mpr ⟨first, (hfirst first).mpr ⟨hra, rfl⟩,
        Option.bind_eq_some_iff.mpr ⟨last, (hlast last).mpr ⟨hrb, rfl⟩, rfl⟩⟩

theorem joined_plain (h : ∀ value, range ≠ .between value value) : range.joined = range := by
  cases range with
  | star => rfl
  | one value => rfl
  | between first last =>
    refine if_neg ?_
    rintro rfl
    exact h first rfl

theorem Range.Valid.within (h : range.Valid spec) : range.Within spec := by
  cases range with
  | star => trivial
  | one value => exact h
  | between first last => exact ⟨h.1, h.2.1⟩

theorem taken_plain (hspec : spec.Regular) (h : term.Plain spec)
    (hday : spec.kind = .dayOfWeek → 7 ∉ term.range.numbers) :
    (∀ taken, term.taken spec = some taken → taken = term) ∧
      (term.Valid spec → term.taken spec = some term) := by
  obtain ⟨range, step⟩ := term
  have hrange : ∀ {taken : Range}, range.taken spec = some taken ↔
      range.Within spec ∧ taken = range := range_taken_plain hspec h.numbers hday
  have hstep : ∀ taken, range.stepping spec step = some taken → taken = ⟨range, step⟩ := by
    intro taken ht
    cases step with
    | none => exact (Option.some.inj ht).symm
    | some n =>
      obtain ⟨-, rfl⟩ := stepping_some.mp ht
      have hn := h.step n rfl
      rw [joined_plain (h.several nofun), wrapInt_small (by omega) (by omega), Int.toNat_natCast]
  constructor
  · intro taken ht
    obtain ⟨r, hr, ht⟩ := Option.bind_eq_some_iff.mp ht
    obtain ⟨-, rfl⟩ := hrange.mp hr
    exact hstep taken ht
  · intro hv
    have hs : ∃ taken, range.stepping spec step = some taken := by
      cases step with
      | none => exact ⟨_, rfl⟩
      | some n =>
        have hn := h.step n rfl
        have hpos : 1 ≤ n := hv.2 n rfl
        have hwrap : wrapInt n = n := wrapInt_small (by omega) (by omega)
        refine ⟨_, stepping_some.mpr ⟨⟨?_, ?_⟩, rfl⟩⟩ <;> rw [hwrap]
        · omega
        · dsimp only at hn
          omega
    obtain ⟨taken, ht⟩ := hs
    refine Option.bind_eq_some_iff.mpr ⟨range, hrange.mpr ⟨hv.1.within, rfl⟩, ?_⟩
    rw [ht, hstep taken ht]

theorem plain_taken (hspec : spec.Regular) (h : term.Plain spec) :
    (term.Takable spec ↔ term.Valid spec) ∧
      (term.Valid spec → term.takenDays spec = term.days spec) := by
  by_cases hday : spec.kind = .dayOfWeek ∧ 7 ∈ term.range.numbers
  · obtain ⟨hmin, hmax⟩ := hspec.week hday.1
    obtain rfl := h.sunday hday.1 hday.2
    have hwrap : wrapInt (7 : ℕ) = 7 := by decide
    have hseven : spec.day 7 = 0 := if_pos ⟨hday.1, rfl⟩
    have hvalue : taken_value spec 7 = some 0 := by
      rw [taken_value_eq_some hspec, hwrap, hmin, hmax]
      exact ⟨by omega, hseven.symm⟩
    have htaken : Term.taken spec ⟨.one 7, none⟩ = some ⟨.one 0, none⟩ := by
      rw [Term.taken, Range.taken, hvalue]
      rfl
    have hrange : ∀ n : ℕ, n ≤ 7 → spec.InRange n := by
      intro n hn
      unfold FieldSpec.InRange
      omega
    refine ⟨iff_of_true ⟨_, htaken, hrange 0 (by omega), by simp⟩ ⟨hrange 7 le_rfl, by simp⟩,
      fun _ => ?_⟩
    have hzero : spec.day 0 = 0 := by simp [FieldSpec.day]
    have hone : ∀ n, Term.days spec ⟨.one n, none⟩ = {spec.day n} := by
      intro n
      change stepped spec n n 1 = _
      rw [stepped_first le_rfl le_rfl, stepped_empty (Nat.lt_succ_self n), Set.union_empty]
    rw [takenDays_of_taken htaken, hone, hone, hzero, hseven]
  · obtain ⟨hsame, hvalid⟩ := taken_plain hspec h fun hk hmem => hday ⟨hk, hmem⟩
    constructor
    · constructor
      · rintro ⟨taken, ht, hv⟩
        exact hsame taken ht ▸ hv
      · exact fun hv => ⟨term, hvalid hv, hv⟩
    · exact fun hv => takenDays_of_taken (hvalid hv)

theorem harmless_plain (hspec : spec.Regular) (hlast : text.getLast? ≠ some ',')
    (hplain : ∀ terms, Listed spec text terms → ∀ term ∈ terms, term.Plain spec) :
    Harmless spec text := by
  constructor
  · rintro front terms rfl -
    exact absurd (by simp) hlast
  · intro terms hl
    have hp := fun term ht => plain_taken hspec (hplain terms hl term ht)
    by_cases hv : ∀ term ∈ terms, term.Valid spec
    · refine .inr ⟨fun term ht => ⟨hv term ht, (hp term ht).1.mpr (hv term ht)⟩, fun i => ?_⟩
      exact exists_congr fun term => and_congr_right fun ht =>
        ((hp term ht).2 (hv term ht)) ▸ Iff.rfl
    · push Not at hv
      obtain ⟨term, ht, hn⟩ := hv
      exact .inl ⟨⟨term, ht, hn⟩, term, ht, fun hk => hn ((hp term ht).1.mp hk)⟩

/-- A field is parsed to what it is documented to say exactly where the way its terms are taken
makes no difference, which it does not in a list of plain terms. -/
theorem parse_field_documented (h : spec ∈ cronSpecs) (text : List Char) :
    ((∀ days, (∃ bits any_flag, cron_parse_field text spec = .ok (bits, any_flag) ∧
        bitValues bits = days) ↔ Denotes spec text days) ↔ Harmless spec text) ∧
      (text.getLast? ≠ some ',' →
        (∀ terms, Listed spec text terms → ∀ term ∈ terms, term.Plain spec) →
          Harmless spec text) := by
  have hspec := cronSpecs_regular h
  refine ⟨?_, harmless_plain hspec⟩
  rw [← taken_documented]
  exact forall_congr' fun days => by rw [parse_field_taken hspec]

def minuteSpec : FieldSpec := ⟨0, 59, "minute", .minute⟩

def dayOfWeekSpec : FieldSpec := ⟨0, 7, "day-of-week", .dayOfWeek⟩

theorem parse_field_documented_star :
    (∃ bits any_flag, cron_parse_field ['*'] minuteSpec = .ok (bits, any_flag) ∧
      bitValues bits = Set.Iio 60) ↔ Denotes minuteSpec ['*'] (Set.Iio 60) := by
  have hmem : minuteSpec ∈ cronSpecs := by decide
  have hstar : Listed minuteSpec ['*'] [⟨.star, none⟩] := .last (.plain .star)
  refine (parse_field_documented hmem ['*']).1.mpr
    ((parse_field_documented hmem ['*']).2 (by decide) ?_) (Set.Iio 60)
  intro terms hl
  obtain rfl := hstar.unique hl
  rw [List.forall_mem_singleton]
  exact ⟨nofun, nofun, nofun, nofun⟩

theorem weekend_documented : Denotes dayOfWeekSpec ['5', '-', '7'] (union dayOfWeekSpec
    [⟨.between 5 7, none⟩]) := by
  have hfive : Spelt dayOfWeekSpec ['5'] 5 :=
    .number (by decide) (List.forall_mem_singleton.mpr (by decide))
  have hseven : Spelt dayOfWeekSpec ['7'] 7 :=
    .number (by decide) (List.forall_mem_singleton.mpr (by decide))
  refine ⟨_, .last (.plain (.between hfive hseven)), ?_, rfl⟩
  rw [List.forall_mem_singleton]
  refine ⟨⟨?_, ?_, by decide⟩, nofun⟩ <;> unfold FieldSpec.InRange <;> decide

theorem parse_field_refuses_weekend :
    ¬ ∀ spec ∈ cronSpecs, ∀ (text : List Char) (days : Set ℕ),
      (∃ bits any_flag, cron_parse_field text spec = .ok (bits, any_flag) ∧ bitValues bits = days) ↔
        Denotes spec text days := by
  intro h
  obtain ⟨bits, any_flag, hparse, -⟩ :=
    (h dayOfWeekSpec (by decide) ['5', '-', '7'] _).mpr weekend_documented
  have hnone : (cron_parse_field ['5', '-', '7'] dayOfWeekSpec).toOption = none := by
    decide +kernel
  rw [hparse] at hnone
  cases hnone

end SaltsUtils.Cron
