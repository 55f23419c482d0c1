import SaltsUtils.Cron.FieldReading

/-!
# The field parser and the documented fields

A field is parsed to the values of the terms that it is taken for. The parser does what is
documented exactly where that makes no difference.
-/

set_option autoImplicit false

namespace SaltsUtils.Cron

variable {spec : FieldSpec}

def reader (spec : FieldSpec) (text : List Char) : FieldParser :=
  ⟨spec, (cron_lexer_next text).2, (cron_lexer_next text).1⟩

def Readable (text : List Char) : Prop := (cron_lexer_next text).1.kind ≠ .error

variable {q : FieldParser}

theorem advance_eq_ok {p : FieldParser} :
    cron_parser_advance p = .ok q ↔ Readable p.rest ∧ q = reader p.spec p.rest := by
  unfold cron_parser_advance parseError
  rw [guard_eq_ok]
  exact and_congr_right fun _ => ⟨fun h => (Except.ok.inj h).symm, fun h => congrArg _ h.symm⟩

def Ends (rest : List Char) : Prop :=
  ∀ c ∈ rest.head?, c = ',' ∨ c = '/'

variable {rest : List Char}

theorem Ends.delimited (h : Ends rest) : Delimited rest := by
  intro c hc
  rcases h c hc with rfl | rfl <;> decide

theorem Ends.kind (h : Ends rest) :
    (cron_lexer_next rest).1.kind ≠ .error ∧ (cron_lexer_next rest).1.kind ≠ .dash := by
  cases rest with
  | nil => exact ⟨nofun, nofun⟩
  | cons c rest => rcases h c rfl with rfl | rfl <;> exact ⟨nofun, nofun⟩

variable {text : List Char}

theorem ieq_letters {name : String}
    (hname : ∀ c ∈ name.toList.map cron_ascii_tolower, 'a' ≤ c ∧ c ≤ 'z')
    (h : cron_text_ieq text name.toList = true) : ∀ c ∈ text, isLetter c = true := by
  intro c hc
  have hmap := eq_of_beq h
  have hlower := hname (cron_ascii_tolower c) (hmap ▸ List.mem_map_of_mem hc)
  unfold isLetter
  unfold cron_ascii_tolower at hlower
  split_ifs at hlower with hupper
  · simp [hupper]
  · simp [hlower]

theorem lookup_entry {value : ℤ} (h : cron_lookup_name spec text = some value) :
    ∃ entry ∈ cronMonthNames ++ cronWeekdayNames,
      cron_text_ieq text entry.1.toList = true ∧ entry.2 = value := by
  unfold cron_lookup_name at h
  obtain ⟨entry, hfind, hvalue⟩ := Option.map_eq_some_iff.mp h
  refine ⟨entry, ?_, by simpa using List.find?_some hfind, hvalue⟩
  have hmem := List.mem_of_find?_eq_some hfind
  split at hmem
  · exact List.mem_append_left _ hmem
  · exact List.mem_append_right _ hmem
  · cases hmem

theorem lookup_name {value : ℤ} (h : cron_lookup_name spec text = some value) :
    (0 ≤ value ∧ value ≤ 12) ∧ text ≠ [] ∧ ∀ c ∈ text, isLetter c = true := by
  obtain ⟨entry, hmem, hieq, rfl⟩ := lookup_entry h
  have hall : ∀ entry ∈ cronMonthNames ++ cronWeekdayNames,
      (0 ≤ entry.2 ∧ entry.2 ≤ 12) ∧ entry.1.toList ≠ [] ∧
        (entry.1.toList.map cron_ascii_tolower).all (fun c => 'a' ≤ c ∧ c ≤ 'z') = true := by
    decide +kernel
  obtain ⟨hvalue, hne, hletters⟩ := hall entry hmem
  refine ⟨hvalue, ?_, ieq_letters (fun c hc => ?_) hieq⟩
  swap
  · exact of_decide_eq_true (List.all_eq_true.mp hletters c hc)
  rintro rfl
  exact hne (List.map_eq_nil_iff.mp (eq_of_beq hieq).symm)

variable {part : List Char}

theorem lexer_spelt {value : ℕ} (h : Spelt spec part value) (hr : Delimited rest) :
    (cron_lexer_next (part ++ rest)).1.kind ≠ .error ∧
      (cron_lexer_next (part ++ rest)).1.kind ≠ .star ∧
      cron_raw_value (reader spec (part ++ rest)) = .ok (wrapInt value) ∧
      (cron_lexer_next (part ++ rest)).2 = rest := by
  cases h with
  | number hne hd =>
    unfold cron_raw_value reader
    rw [lexer_number hne hd hr]
    dsimp only
    exact ⟨nofun, nofun, Eq.refl _, Eq.refl _⟩
  | name h =>
    obtain ⟨hvalue, hne, hletters⟩ := lookup_name h
    cases part with
    | nil => contradiction
    | cons c part =>
      have htail : ∀ d ∈ part, (isLetter d || isDigit d) = true := by
        intro d hd
        simp [hletters d (by simp [hd])]
      unfold cron_raw_value reader
      rw [lexer_name (hletters c (by simp)) htail hr]
      refine ⟨nofun, nofun, ?_, rfl⟩
      rw [h, wrapInt_small hvalue.1 (by omega)]

theorem raw_value_spelt {raw : ℤ} (h : cron_raw_value (reader spec text) = .ok raw) :
    ∃ part value, text = part ++ (cron_lexer_next text).2 ∧ Spelt spec part value ∧
      raw = wrapInt value := by
  have htext := lexer_text text
  have hkind := lexer_kind text
  unfold cron_raw_value reader at h
  split at h
  · rename_i hk
    rw [hk] at hkind
    obtain ⟨hne, hd, hnumber⟩ := hkind
    cases h
    exact ⟨_, _, htext, .number hne hd, hnumber⟩
  · split at h
    · rename_i value hlookup
      cases h
      obtain ⟨hvalue, -⟩ := lookup_name hlookup
      obtain ⟨n, rfl⟩ := Int.eq_ofNat_of_zero_le hvalue.1
      exact ⟨_, n, htext, .name hlookup, (wrapInt_small hvalue.1 (by omega)).symm⟩
    · cases h
  · cases h

theorem parse_value_reads {v : ℤ} (h : cron_parse_value (reader spec text) = .ok (v, q)) :
    ∃ part rest value n, text = part ++ rest ∧ Spelt spec part value ∧
      taken_value spec value = some n ∧ v.toNat = n ∧ Readable rest ∧ q = reader spec rest := by
  unfold cron_parse_value at h
  obtain ⟨raw, hraw, h⟩ := bind_eq_ok.mp h
  obtain ⟨part, value, htext, hspelt, hwrap⟩ := raw_value_spelt hraw
  split at h
  · cases h
  · rename_i n hn
    obtain ⟨q', hq, h⟩ := bind_eq_ok.mp h
    cases h
    obtain ⟨hreadable, rfl⟩ := advance_eq_ok.mp hq
    have htaken : taken_value spec value = some v.toNat := by
      have hv : cron_normalize_value spec raw = some v := hn
      rw [taken_value, ← hwrap, hv, Option.map_some]
    exact ⟨part, _, value, _, htext, hspelt, htaken, rfl, hreadable, rfl⟩

theorem parse_value_nonneg (hspec : spec.Regular) {v : ℤ}
    (h : cron_parse_value (reader spec text) = .ok (v, q)) : 0 ≤ v := by
  unfold cron_parse_value at h
  obtain ⟨raw, -, h⟩ := bind_eq_ok.mp h
  split at h
  · cases h
  · rename_i n hn
    obtain ⟨q', -, h⟩ := bind_eq_ok.mp h
    cases h
    rw [((normalize_eq_some hspec).mp hn).2]
    exact Int.natCast_nonneg _

theorem parse_value_spelt (hspec : spec.Regular) {value n : ℕ} (h : Spelt spec part value)
    (hn : taken_value spec value = some n) (hr : Delimited rest) (hreadable : Readable rest) :
    cron_parse_value (reader spec (part ++ rest)) = .ok ((n : ℤ), reader spec rest) := by
  obtain ⟨-, -, hraw, hrest⟩ := lexer_spelt h hr
  obtain ⟨hrange, rfl⟩ := (taken_value_eq_some hspec).mp hn
  have hvalue : cron_normalize_value (reader spec (part ++ rest)).spec (wrapInt value) =
      some (spec.day (wrapInt value).toNat : ℤ) := (normalize_eq_some hspec).mpr ⟨hrange, rfl⟩
  unfold cron_parse_value
  rw [hraw]
  simp only [bind, Except.bind, hvalue]
  have hadvance : cron_parser_advance (reader spec (part ++ rest)) = .ok (reader spec rest) := by
    have hrest' : (reader spec (part ++ rest)).rest = rest := hrest
    exact advance_eq_ok.mpr (hrest'.symm ▸ ⟨hreadable, rfl⟩)
  rw [hadvance]
  rfl

def Range.stop (spec : FieldSpec) : Range → ℕ
  | .star => if spec.kind = .dayOfWeek then 6 else spec.max_value.toNat
  | .one value => value
  | .between _ last => last

def Range.Within (spec : FieldSpec) : Range → Prop
  | .star => True
  | .one value => spec.InRange value
  | .between first last => spec.InRange first ∧ spec.InRange last

variable {range : Range}

theorem range_taken_within (hspec : spec.Regular) {taken : Range}
    (h : range.taken spec = some taken) : taken.Within spec := by
  cases range with
  | star =>
    cases h
    trivial
  | one value =>
    obtain ⟨n, hn, rfl⟩ := Option.map_eq_some_iff.mp h
    exact taken_value_inRange hspec hn
  | between first last =>
    obtain ⟨a, ha, h⟩ := Option.bind_eq_some_iff.mp h
    obtain ⟨b, hb, h⟩ := Option.bind_eq_some_iff.mp h
    cases h
    exact ⟨taken_value_inRange hspec ha, taken_value_inRange hspec hb⟩

theorem star_bounds (hspec : spec.Regular) : spec.min_value = (Range.star.start spec : ℤ) ∧
    (if spec.kind = .dayOfWeek then 6 else spec.max_value) = (Range.star.stop spec : ℤ) := by
  have hmin := hspec.min_nonneg
  have hlt := hspec.min_lt
  unfold Range.start Range.stop
  refine ⟨by dsimp only; omega, ?_⟩
  dsimp only
  split_ifs
  · rfl
  · omega

theorem dash_rest (h : (cron_lexer_next text).1.kind = .dash) :
    text = '-' :: (cron_lexer_next text).2 := by
  have hkind := lexer_kind text
  have htext := lexer_text text
  rw [h] at hkind
  rwa [hkind] at htext

theorem slash_rest (h : (cron_lexer_next text).1.kind = .slash) :
    text = '/' :: (cron_lexer_next text).2 := by
  have hkind := lexer_kind text
  have htext := lexer_text text
  rw [h] at hkind
  rwa [hkind] at htext

theorem term_range_reads (hspec : spec.Regular) {r : ℤ × ℤ × FieldParser}
    (h : cron_term_range (reader spec text) = .ok r) :
    ∃ part rest range taken, text = part ++ rest ∧ WrittenRange spec part range ∧
      range.taken spec = some taken ∧ Readable rest ∧
      r = ((taken.start spec : ℤ), (taken.stop spec : ℤ), reader spec rest) := by
  unfold cron_term_range at h
  by_cases hstar : (reader spec text).current.kind = .star
  · rw [if_pos hstar] at h
    obtain ⟨q, hq, h⟩ := bind_eq_ok.mp h
    obtain ⟨hreadable, rfl⟩ := advance_eq_ok.mp hq
    cases h
    have hkind := lexer_kind text
    have htext := lexer_text text
    rw [show (cron_lexer_next text).1.kind = .star from hstar] at hkind
    rw [hkind] at htext
    obtain ⟨hstart, hstop⟩ := star_bounds hspec
    refine ⟨['*'], _, .star, .star, htext, .star, rfl, hreadable, ?_⟩
    rw [← hstart, ← hstop]
    rfl
  · rw [if_neg hstar] at h
    obtain ⟨⟨v, q⟩, hq, h⟩ := bind_eq_ok.mp h
    obtain ⟨first, rest, a, n, htext, ha, hn, hv, hreadable, rfl⟩ := parse_value_reads hq
    have hv₀ := parse_value_nonneg hspec hq
    by_cases hdash : (reader spec rest).current.kind = .dash
    · rw [if_pos hdash] at h
      obtain ⟨u, hu, h⟩ := bind_eq_ok.mp h
      obtain ⟨⟨w, t⟩, ht, h⟩ := bind_eq_ok.mp h
      cases h
      obtain ⟨-, rfl⟩ := advance_eq_ok.mp hu
      replace ht : cron_parse_value (reader spec (cron_lexer_next rest).2) = .ok (w, t) := ht
      obtain ⟨last, more, b, m, htext', hb, hm, hw, hreadable', rfl⟩ := parse_value_reads ht
      have hw₀ := parse_value_nonneg hspec ht
      refine ⟨first ++ '-' :: last, more, .between a b, .between n m, ?_, .between ha hb, ?_,
        hreadable', ?_⟩
      · have hrest := dash_rest hdash
        rw [htext'] at hrest
        rw [htext, hrest, List.append_assoc, List.cons_append]
      · simp only [Range.taken, hn, hm, Option.bind_eq_bind, Option.bind_some]
      · subst hv
        subst hw
        simp only [Range.start, Range.stop, Int.toNat_of_nonneg hv₀, Int.toNat_of_nonneg hw₀]
    · rw [if_neg hdash] at h
      cases h
      refine ⟨first, rest, .one a, .one n, htext, .one ha, ?_, hreadable, ?_⟩
      · simp only [Range.taken, hn, Option.map_some]
      · subst hv
        simp only [Range.start, Range.stop, Int.toNat_of_nonneg hv₀]

theorem term_range_written (hspec : spec.Regular) {taken : Range} (h : WrittenRange spec part range)
    (ht : range.taken spec = some taken) (hr : Ends rest) :
    cron_term_range (reader spec (part ++ rest)) =
      .ok ((taken.start spec : ℤ), (taken.stop spec : ℤ), reader spec rest) := by
  have hreadable : Readable rest := hr.kind.1
  unfold cron_term_range
  cases h with
  | star =>
    cases ht
    obtain ⟨hstart, hstop⟩ := star_bounds hspec
    have hadvance : cron_parser_advance (reader spec (['*'] ++ rest)) = .ok (reader spec rest) :=
      advance_eq_ok.mpr ⟨hreadable, rfl⟩
    have hstar : (reader spec (['*'] ++ rest)).current.kind = .star := rfl
    rw [if_pos hstar, hadvance, ← hstart, ← hstop]
    rfl
  | one ha =>
    obtain ⟨n, hn, rfl⟩ := Option.map_eq_some_iff.mp ht
    have hstar : (reader spec (part ++ rest)).current.kind ≠ .star :=
      (lexer_spelt ha hr.delimited).2.1
    rw [if_neg hstar,
      parse_value_spelt hspec ha hn hr.delimited hreadable]
    exact if_neg hr.kind.2
  | @between first last a b ha hb =>
    obtain ⟨n, hn, ht⟩ := Option.bind_eq_some_iff.mp ht
    obtain ⟨m, hm, ht⟩ := Option.bind_eq_some_iff.mp ht
    cases ht
    have hdash : Delimited ('-' :: (last ++ rest)) := delimited_cons _ (.inr (.inl rfl))
    have hlast := lexer_spelt hb hr.delimited
    have hadvance : cron_parser_advance (reader spec ('-' :: (last ++ rest))) =
        .ok (reader spec (last ++ rest)) := advance_eq_ok.mpr ⟨hlast.1, rfl⟩
    have hstar : (reader spec (first ++ '-' :: (last ++ rest))).current.kind ≠ .star :=
      (lexer_spelt ha hdash).2.1
    have hkind : (reader spec ('-' :: (last ++ rest))).current.kind = .dash := rfl
    rw [List.append_assoc, List.cons_append, if_neg hstar]
    refine bind_eq_ok.mpr ⟨_, parse_value_spelt hspec ha hn hdash nofun, ?_⟩
    rw [if_pos hkind]
    exact bind_eq_ok.mpr ⟨_, hadvance,
      bind_eq_ok.mpr ⟨_, parse_value_spelt hspec hb hm hr.delimited hreadable, rfl⟩⟩

def Range.last (spec : FieldSpec) (range : Range) : Option ℕ → ℕ
  | none => range.stop spec
  | some _ => if range.start spec = range.stop spec then spec.max_value.toNat else range.stop spec

def step_taken : Option ℕ → ℤ
  | none => 1
  | some step => wrapInt step

theorem step_taken_lt (step : Option ℕ) : step_taken step < 2 ^ 31 := by
  cases step with
  | none => decide
  | some step => exact wrapInt_lt _

theorem Range.start_inRange (hspec : spec.Regular) (h : range.Within spec) :
    spec.InRange (range.start spec) := by
  have hmin := hspec.min_nonneg
  have hlt := hspec.min_lt
  cases range with
  | star => exact ⟨by simp only [Range.start]; omega, by simp only [Range.start]; omega⟩
  | one value => exact h
  | between first last => exact h.1

theorem Range.stop_le (hspec : spec.Regular) (h : range.Within spec) :
    (range.stop spec : ℤ) ≤ spec.max_value := by
  have hmin := hspec.min_nonneg
  have hlt := hspec.min_lt
  cases range with
  | star =>
    unfold Range.stop
    dsimp only
    split_ifs with hk
    · rw [(hspec.week hk).2]
      decide
    · omega
  | one value => exact h.2
  | between first last => exact h.2.2

theorem Range.last_le (hspec : spec.Regular) (h : range.Within spec) (step : Option ℕ) :
    (range.last spec step : ℤ) ≤ spec.max_value := by
  have hstop := Range.stop_le hspec h
  cases step with
  | none => exact hstop
  | some step =>
    unfold Range.last
    dsimp only
    split_ifs
    · omega
    · exact hstop

theorem star_start_lt (hspec : spec.Regular) : Range.star.start spec < Range.star.stop spec := by
  have hmin := hspec.min_nonneg
  have hlt := hspec.min_lt
  unfold Range.start Range.stop
  dsimp only
  split_ifs with hk
  · rw [(hspec.week hk).1]
    decide
  · omega

theorem stepped_star (hspec : spec.Regular) (step : ℕ) :
    stepped spec (Range.star.start spec) (Range.star.stop spec) step =
      stepped spec (Range.star.start spec) spec.max_value.toNat step := by
  unfold Range.stop
  dsimp only
  split_ifs with hk
  · obtain ⟨hmin, hmax⟩ := hspec.week hk
    have hstart : Range.star.start spec = 0 := by
      unfold Range.start
      rw [hmin]
      rfl
    rw [hstart, hmax]
    ext i
    constructor
    · rintro ⟨n, h₁, h₂, h₃, rfl⟩
      exact ⟨n, h₁, h₂.trans (by decide), h₃, rfl⟩
    · rintro ⟨n, h₁, h₂, h₃, rfl⟩
      rcases Nat.lt_or_ge n 7 with hlt | hge
      · exact ⟨n, h₁, by omega, h₃, rfl⟩
      · obtain rfl : n = 7 := by omega
        exact ⟨0, le_rfl, by omega, by simp, by simp [FieldSpec.day, hk]⟩
  · rfl

theorem last_between (first last step : ℕ) : (Range.between first last).last spec (some step) =
    if first = last then spec.max_value.toNat else last := rfl

theorem joined_days (hspec : spec.Regular) (range : Range) (step n : ℕ) :
    stepped spec (range.start spec) (range.last spec (some step)) n =
      Term.days spec ⟨range.joined, some n⟩ := by
  cases range with
  | star =>
    have hlast : Range.star.last spec (some step) = Range.star.stop spec :=
      if_neg (star_start_lt hspec).ne
    rw [hlast]
    exact stepped_star hspec n
  | one value =>
    have hlast : (Range.one value).last spec (some step) = spec.max_value.toNat := if_pos rfl
    rw [hlast]
    rfl
  | between first last =>
    rw [last_between, Range.joined]
    split_ifs <;> rfl

variable {term : Term}

theorem stepping_some {step : ℕ} : range.stepping spec (some step) = some term ↔
      (1 ≤ wrapInt step ∧ range.start spec + wrapInt step < 2 ^ 31) ∧
        term = ⟨range.joined, some (wrapInt step).toNat⟩ := by
  unfold Range.stepping
  dsimp only
  generalize wrapInt step = s
  split_ifs with h
  · exact iff_of_false nofun fun hs => by omega
  · rw [Option.some.injEq]
    exact ⟨fun hs => ⟨by omega, hs.symm⟩, fun hs => hs.2.symm⟩

/-- What the loop over a range goes through, when it is entered, are the days of the term that
the range and the step are taken for. -/
theorem stepping_days (hspec : spec.Regular) {step : Option ℕ}
    (h : range.stepping spec step = some term) :
    stepped spec (range.start spec) (range.last spec step) (step_taken step).toNat =
      term.days spec := by
  cases step with
  | none =>
    cases h
    cases range with
    | star => exact stepped_star hspec 1
    | one value => rfl
    | between first last => rfl
  | some step =>
    obtain ⟨-, rfl⟩ := stepping_some.mp h
    exact joined_days hspec range step _

theorem stepping_valid (hspec : spec.Regular) (hw : range.Within spec) (step : Option ℕ) :
    (∃ term, range.stepping spec step = some term ∧ term.Valid spec) ↔
      1 ≤ step_taken step ∧ range.start spec ≤ range.last spec step ∧
        range.start spec + step_taken step < 2 ^ 31 := by
  have hmax := hspec.max_le
  have hstart := Range.start_inRange hspec hw
  have hlt := star_start_lt hspec
  unfold FieldSpec.InRange at hstart
  cases step with
  | none =>
    have hsum : (range.start spec : ℤ) + 1 < 2 ^ 31 := by omega
    have hrange : range.Valid spec ↔ range.start spec ≤ range.last spec none := by
      cases range with
      | star => exact iff_of_true trivial hlt.le
      | one value => exact iff_of_true hw le_rfl
      | between first last => exact ⟨fun h => h.2.2, fun h => ⟨hw.1, hw.2, h⟩⟩
    constructor
    · rintro ⟨term, h, hv⟩
      cases h
      exact ⟨le_rfl, hrange.mp hv.1, hsum⟩
    · rintro ⟨-, h, -⟩
      exact ⟨_, rfl, hrange.mpr h, nofun⟩
  | some step =>
    have hrange : range.joined.Valid spec ↔ range.start spec ≤ range.last spec (some step) := by
      cases range with
      | star =>
        have hlast : Range.star.last spec (some step) = Range.star.stop spec := if_neg hlt.ne
        exact iff_of_true trivial (hlast ▸ hlt.le)
      | one value =>
        have hlast : (Range.one value).last spec (some step) = spec.max_value.toNat := if_pos rfl
        have hvalue : (value : ℤ) ≤ spec.max_value := hstart.2
        rw [hlast]
        exact iff_of_true hw (by dsimp only [Range.start]; omega)
      | between first last =>
        have hfirst : (first : ℤ) ≤ spec.max_value := hstart.2
        rw [last_between, Range.joined]
        split_ifs
        · exact iff_of_true hw.1 (by omega)
        · exact ⟨fun h => h.2.2, fun h => ⟨hw.1, hw.2, h⟩⟩
    constructor
    · rintro ⟨term, h, hv⟩
      obtain ⟨⟨h₁, h₂⟩, rfl⟩ := stepping_some.mp h
      exact ⟨h₁, hrange.mp hv.1, h₂⟩
    · rintro ⟨h₁, h₂, h₃⟩
      refine ⟨_, stepping_some.mpr ⟨⟨h₁, h₃⟩, rfl⟩, hrange.mpr h₂, fun n hn => ?_⟩
      obtain rfl : (wrapInt step).toNat = n := Option.some.inj hn
      have hs : 1 ≤ wrapInt step := h₁
      omega

/-- What may stand behind a range. -/
inductive WrittenStep : List Char → Option ℕ → Prop
  | none : WrittenStep [] none
  | some {digits : List Char} (hne : digits ≠ []) (hd : ∀ c ∈ digits, isDigit c = true) :
      WrittenStep ('/' :: digits) (some (decimal digits))

theorem WrittenRange.step {part more : List Char} {range : Range} {step : Option ℕ}
    (h : WrittenRange spec part range) (hs : WrittenStep more step) :
    Written spec (part ++ more) ⟨range, step⟩ := by
  cases hs with
  | none => exact (List.append_nil part).symm ▸ .plain h
  | some hne hd => exact .stepped h hne hd

theorem Written.split {part : List Char} {term : Term} (h : Written spec part term) :
    ∃ front more, part = front ++ more ∧ WrittenRange spec front term.range ∧
      WrittenStep more term.step := by
  cases h with
  | plain h => exact ⟨part, [], (List.append_nil part).symm, h, .none⟩
  | stepped h hne hd => exact ⟨_, _, rfl, h, .some hne hd⟩

def AtComma (rest : List Char) : Prop := ∀ c ∈ rest.head?, c = ','

theorem AtComma.ends (h : AtComma rest) : Ends rest :=
  fun c hc => .inl (h c hc)

theorem AtComma.kind (h : AtComma rest) : (cron_lexer_next rest).1.kind ≠ .slash := by
  cases rest with
  | nil => exact nofun
  | cons c rest =>
    obtain rfl := h c rfl
    exact nofun

theorem WrittenStep.ends {more : List Char} {step : Option ℕ} (h : WrittenStep more step)
    (hr : AtComma rest) : Ends (more ++ rest) := by
  cases h with
  | none => exact hr.ends
  | some hne hd =>
    intro c hc
    cases hc
    exact .inr rfl

theorem last_some (range : Range) (hspec : spec.Regular) (step : ℕ) :
    (if (range.start spec : ℤ) = range.stop spec then
        (if spec.kind = .dayOfWeek then 7 else spec.max_value)
      else (range.stop spec : ℤ)) = range.last spec (some step) := by
  have hmin := hspec.min_nonneg
  have hlt := hspec.min_lt
  have hend : (if spec.kind = .dayOfWeek then 7 else spec.max_value) = spec.max_value := by
    split_ifs with hk
    · exact (hspec.week hk).2.symm
    · rfl
  unfold Range.last
  dsimp only
  rw [hend]
  split_ifs <;> omega

theorem term_step_reads (hspec : spec.Regular) (range : Range) {r : ℤ × ℤ × FieldParser}
    (htext : Readable text)
    (h : cron_term_step (range.start spec) (range.stop spec) (reader spec text) = .ok r) :
    ∃ part rest step, text = part ++ rest ∧ WrittenStep part step ∧ Readable rest ∧
      r = ((range.last spec step : ℤ), step_taken step, reader spec rest) := by
  unfold cron_term_step at h
  by_cases hslash : (reader spec text).current.kind = .slash
  · rw [if_pos hslash] at h
    obtain ⟨q, hq, h⟩ := bind_eq_ok.mp h
    obtain ⟨-, rfl⟩ := advance_eq_ok.mp hq
    obtain ⟨⟨s, t⟩, ht, h⟩ := bind_eq_ok.mp h
    replace ht : cron_parse_step (reader spec (cron_lexer_next text).2) = .ok (s, t) := ht
    unfold cron_parse_step parseError at ht
    rw [guard_eq_ok, guard_eq_ok] at ht
    obtain ⟨hnumber, -, ht⟩ := ht
    obtain ⟨u, hu, ht⟩ := bind_eq_ok.mp ht
    obtain ⟨hreadable, rfl⟩ := advance_eq_ok.mp hu
    have hkind := lexer_kind (cron_lexer_next text).2
    rw [show (cron_lexer_next (cron_lexer_next text).2).1.kind = .number from
      not_not.mp hnumber] at hkind
    obtain ⟨hne, hd, hvalue⟩ := hkind
    have hrest := slash_rest hslash
    rw [lexer_text (cron_lexer_next text).2] at hrest
    refine ⟨_, _, _, hrest, .some hne hd, hreadable, ?_⟩
    cases ht
    cases h
    rw [← last_some range hspec (decimal (cron_lexer_next (cron_lexer_next text).2).1.text)]
    rw [step_taken, ← hvalue]
    rfl
  · rw [if_neg hslash] at h
    cases h
    exact ⟨[], text, none, rfl, .none, htext, rfl⟩

theorem term_step_written (hspec : spec.Regular) (range : Range) {step : Option ℕ}
    (h : WrittenStep part step) (hs : 1 ≤ step_taken step) (hr : AtComma rest) :
    cron_term_step (range.start spec) (range.stop spec) (reader spec (part ++ rest)) =
      .ok ((range.last spec step : ℤ), step_taken step, reader spec rest) := by
  unfold cron_term_step
  cases h with
  | none => exact if_neg hr.kind
  | @some digits hne hd =>
    have hreadable : Readable rest := hr.ends.kind.1
    have hlex := lexer_number hne hd hr.ends.delimited
    have hslash : (reader spec ('/' :: digits ++ rest)).current.kind = .slash := rfl
    have hdigits : Readable (digits ++ rest) := by
      unfold Readable
      rw [hlex]
      exact nofun
    have hadvance : cron_parser_advance (reader spec ('/' :: digits ++ rest)) =
        .ok (reader spec (digits ++ rest)) :=
      advance_eq_ok.mpr ⟨hdigits, rfl⟩
    have hstep : cron_parse_step (reader spec (digits ++ rest)) =
        .ok (step_taken (some (decimal digits)), reader spec rest) := by
      unfold cron_parse_step reader step_taken
      rw [hlex]
      dsimp only
      rw [if_neg (not_not.mpr rfl), if_neg (not_le.mpr hs)]
      exact bind_eq_ok.mpr ⟨_, advance_eq_ok.mpr ⟨hreadable, rfl⟩, Eq.refl _⟩
    rw [if_pos hslash]
    refine bind_eq_ok.mpr ⟨_, hadvance, bind_eq_ok.mpr ⟨_, hstep, ?_⟩⟩
    rw [← last_some range hspec (decimal digits)]
    generalize step_taken (some (decimal digits)) = s
    rfl

theorem parse_term_reads (hspec : spec.Regular) {bits bits' : BitVec 64}
    (h : cron_parse_term (reader spec text) bits = .ok (bits', q)) :
    ∃ part rest term taken, text = part ++ rest ∧ Written spec part term ∧
      term.taken spec = some taken ∧ taken.Valid spec ∧
      bitValues bits' = bitValues bits ∪ taken.days spec ∧ q = reader spec rest := by
  unfold cron_parse_term at h
  obtain ⟨range, hr, h⟩ := bind_eq_ok.mp h
  obtain ⟨part, rest, written, taken, htext, hpart, htaken, hreadable, rfl⟩ :=
    term_range_reads hspec hr
  obtain ⟨step, hs, h⟩ := bind_eq_ok.mp h
  obtain ⟨more, rest', n, hrest, hmore, -, rfl⟩ := term_step_reads hspec taken hreadable hs
  obtain ⟨b, hb, h⟩ := bind_eq_ok.mp h
  cases h
  have hw := range_taken_within hspec htaken
  have hset := apply_range_set hspec bits (Range.start_inRange hspec hw)
    (Range.last_le hspec hw n) (step_taken_lt n)
  split at hset
  · obtain ⟨term, hterm, hv⟩ := (stepping_valid hspec hw n).mpr ‹_›
    obtain ⟨b', hb', hset⟩ := hset
    obtain rfl : b' = bits' := Except.ok.inj (hb'.symm.trans hb)
    refine ⟨part ++ more, rest', ⟨written, n⟩, term, by rw [htext, hrest, List.append_assoc],
      hpart.step hmore, ?_, hv, ?_, rfl⟩
    · rw [Term.taken, htaken, Option.bind_some, hterm]
    · rw [hset, stepping_days hspec hterm]
  · obtain ⟨e, he⟩ := hset
    cases he.symm.trans hb

theorem parse_term_written (hspec : spec.Regular) {taken : Term} (bits : BitVec 64)
    (h : Written spec part term) (ht : term.taken spec = some taken) (hv : taken.Valid spec)
    (hr : AtComma rest) :
    ∃ bits', cron_parse_term (reader spec (part ++ rest)) bits = .ok (bits', reader spec rest) ∧
      bitValues bits' = bitValues bits ∪ taken.days spec := by
  obtain ⟨front, more, rfl, hfront, hmore⟩ := h.split
  obtain ⟨range, hrange, hstep⟩ := Option.bind_eq_some_iff.mp ht
  have hw := range_taken_within hspec hrange
  have hvalid := (stepping_valid hspec hw term.step).mp ⟨taken, hstep, hv⟩
  have hset := apply_range_set hspec bits (Range.start_inRange hspec hw)
    (Range.last_le hspec hw term.step) (step_taken_lt term.step)
  rw [if_pos hvalid] at hset
  obtain ⟨bits', happly, hset⟩ := hset
  have hends := hmore.ends hr
  rw [stepping_days hspec hstep] at hset
  refine ⟨bits', ?_, hset⟩
  rw [List.append_assoc]
  exact bind_eq_ok.mpr ⟨_, term_range_written hspec hfront hrange hends,
    bind_eq_ok.mpr ⟨_, term_step_written hspec range hmore hvalid.1 hr,
      bind_eq_ok.mpr ⟨_, happly, rfl⟩⟩⟩

theorem Written.readable (h : Written spec part term) (hr : AtComma rest) :
    Readable (part ++ rest) := by
  obtain ⟨front, more, rfl, hfront, hmore⟩ := h.split
  have hends := (hmore.ends hr).delimited
  rw [List.append_assoc]
  generalize term.range = range at hfront
  cases hfront with
  | star => exact nofun
  | one ha => exact (lexer_spelt ha hends).1
  | between ha _ =>
    rw [List.append_assoc, List.cons_append]
    exact (lexer_spelt ha (delimited_cons _ (.inr (.inl rfl)))).1

theorem Written.ne_nil (h : Written spec part term) : part ≠ [] := by
  obtain ⟨front, more, rfl, hfront, -⟩ := h.split
  have hspelt : ∀ {text value}, Spelt spec text value → text ≠ [] := by
    intro text value h
    cases h with
    | number hne _ => exact hne
    | name h => exact (lookup_name h).2.1
  generalize term.range = range at hfront
  refine List.append_ne_nil_of_left_ne_nil ?_ _
  cases hfront with
  | star => exact List.cons_ne_nil _ _
  | one ha => exact hspelt ha
  | between ha _ => exact List.append_ne_nil_of_left_ne_nil (hspelt ha) _

theorem Listed.readable {terms : List Term} (h : Listed spec text terms) (hr : AtComma rest) :
    Readable (text ++ rest) := by
  cases h with
  | last h => exact h.readable hr
  | cons h _ =>
    rw [List.append_assoc]
    refine h.readable fun c hc => ?_
    cases hc
    rfl

theorem comma_rest (h : (cron_lexer_next text).1.kind = .comma) :
    text = ',' :: (cron_lexer_next text).2 := by
  have hkind := lexer_kind text
  have htext := lexer_text text
  rw [h] at hkind
  rwa [hkind] at htext

theorem eof_rest (h : (cron_lexer_next text).1.kind = .eof) : text = [] := by
  have hkind := lexer_kind text
  rwa [h] at hkind

theorem union_cons (term : Term) (terms : List Term) :
    union spec (term :: terms) = term.days spec ∪ union spec terms := by
  ext i
  simp [union]

theorem taken_cons {taken : Term} {terms : List Term} (h : Written spec part term)
    (ht : term.taken spec = some taken) (hs : Taken spec rest terms) :
    Taken spec (part ++ ',' :: rest) (taken :: terms) := by
  obtain ⟨written, hlisted, hall⟩ := hs
  refine ⟨term :: written, ?_, .cons ht hall⟩
  rcases hlisted with hlisted | ⟨front, rfl, hlisted⟩
  · exact .inl (.cons h hlisted)
  · refine .inr ⟨part ++ ',' :: front, ?_, .cons h hlisted⟩
    rw [List.append_assoc, List.cons_append]

theorem parse_field_loop_reads (hspec : spec.Regular) (fuel : ℕ) :
    ∀ {text : List Char} {bits bits' : BitVec 64}, text ≠ [] →
      cron_parse_field_loop fuel (reader spec text) bits = .ok bits' →
      ∃ terms, Taken spec text terms ∧ (∀ term ∈ terms, term.Valid spec) ∧
        bitValues bits' = bitValues bits ∪ union spec terms := by
  induction fuel with
  | zero => exact fun _ h => nomatch h
  | succ fuel ih =>
    intro text bits bits' hne h
    rw [cron_parse_field_loop] at h
    have hkind : (reader spec text).current.kind ≠ .eof := fun hk => hne (eof_rest hk)
    rw [if_neg hkind] at h
    obtain ⟨⟨b, q⟩, hterm, h⟩ := bind_eq_ok.mp h
    obtain ⟨part, rest, term, taken, rfl, hpart, htaken, hv, hset, rfl⟩ :=
      parse_term_reads hspec hterm
    have hdone : ∀ text', (text' = part ∨ text' = part ++ [',']) → Taken spec text' [taken] := by
      rintro text' (rfl | rfl)
      · exact ⟨[term], .inl (.last hpart), .cons htaken .nil⟩
      · exact ⟨[term], .inr ⟨part, rfl, .last hpart⟩, .cons htaken .nil⟩
    have hunion : union spec [taken] = taken.days spec := by
      ext i
      simp [union]
    by_cases hcomma : (reader spec rest).current.kind = .comma
    · rw [if_pos hcomma] at h
      obtain ⟨r, hr, h⟩ := bind_eq_ok.mp h
      obtain ⟨-, rfl⟩ := advance_eq_ok.mp hr
      replace h : cron_parse_field_loop fuel (reader spec (cron_lexer_next rest).2) b =
        .ok bits' := h
      have hrest := comma_rest hcomma
      rcases eq_or_ne (cron_lexer_next rest).2 [] with hnil | hmore
      · rw [hnil] at h hrest
        cases fuel with
        | zero => cases h
        | succ fuel =>
          cases h
          exact ⟨[taken], hdone _ (.inr (by rw [hrest])), by simpa using hv, by rw [hunion, hset]⟩
      · obtain ⟨terms, hterms, hvs, hsets⟩ := ih hmore h
        refine ⟨taken :: terms, ?_, List.forall_mem_cons.mpr ⟨hv, hvs⟩, ?_⟩
        · rw [hrest]
          exact taken_cons hpart htaken hterms
        · rw [hsets, hset, union_cons, Set.union_assoc]
    · rw [if_neg hcomma] at h
      by_cases heof : (reader spec rest).current.kind = .eof
      · rw [if_pos heof] at h
        obtain rfl := eof_rest heof
        cases fuel with
        | zero => cases h
        | succ fuel =>
          cases h
          exact ⟨[taken], hdone _ (.inl (List.append_nil part)), by simpa using hv,
            by rw [hunion, hset]⟩
      · rw [if_neg heof] at h
        cases h

theorem parse_field_loop_pass {fuel : ℕ} {more : List Char} {bits bits' : BitVec 64}
    (hne : part ≠ []) (hrest : rest = [] ∧ more = [] ∨ rest = ',' :: more ∧ Readable more)
    (h : cron_parse_term (reader spec (part ++ rest)) bits = .ok (bits', reader spec rest)) :
    cron_parse_field_loop (fuel + 1) (reader spec (part ++ rest)) bits =
      cron_parse_field_loop fuel (reader spec more) bits' := by
  have hkind : (reader spec (part ++ rest)).current.kind ≠ .eof :=
    fun hk => List.append_ne_nil_of_left_ne_nil hne rest (eof_rest hk)
  rw [cron_parse_field_loop, if_neg hkind, h]
  rcases hrest with ⟨rfl, rfl⟩ | ⟨rfl, hreadable⟩
  · rfl
  · have hadvance : cron_parser_advance (reader spec (',' :: more)) = .ok (reader spec more) :=
      advance_eq_ok.mpr ⟨hreadable, rfl⟩
    change (cron_parser_advance (reader spec (',' :: more)) >>= fun next =>
      cron_parse_field_loop fuel next bits') = _
    rw [hadvance]
    rfl

theorem parse_field_loop_listed (hspec : spec.Regular) {text : List Char} {written : List Term}
    (hl : Listed spec text written) {tail : List Char} (htail : tail = [] ∨ tail = [',']) :
    ∀ {terms : List Term} (bits : BitVec 64) {fuel : ℕ}, text.length + 1 ≤ fuel →
      List.Forall₂ (fun term term' => Term.taken spec term = some term') written terms →
      (∀ term ∈ terms, term.Valid spec) →
      ∃ bits', cron_parse_field_loop fuel (reader spec (text ++ tail)) bits = .ok bits' ∧
        bitValues bits' = bitValues bits ∪ union spec terms := by
  have hat : AtComma tail := by
    rcases htail with rfl | rfl
    · exact nofun
    · intro c hc
      cases hc
      rfl
  induction hl with
  | @last part term hpart =>
    intro terms bits fuel hfuel ht hv
    cases ht with
    | @cons _ taken _ _ htaken hnil =>
      cases hnil
      obtain ⟨bits', hterm, hset⟩ :=
        parse_term_written hspec bits hpart htaken (hv taken (by simp)) hat
      have hlen := List.length_pos_of_ne_nil hpart.ne_nil
      obtain ⟨n, rfl⟩ : ∃ n, fuel = n + 1 + 1 := ⟨fuel - 2, by omega⟩
      have htail' : tail = [] ∧ ([] : List Char) = [] ∨ tail = [','] ∧ Readable [] :=
        htail.imp (⟨·, rfl⟩) (⟨·, nofun⟩)
      refine ⟨bits', ?_, ?_⟩
      · rw [parse_field_loop_pass hpart.ne_nil htail' hterm]
        rfl
      · rw [hset]
        congr 1
        ext i
        simp [union]
  | @cons part rest term written hpart hs ih =>
    intro terms bits fuel hfuel ht hv
    cases ht with
    | @cons _ taken _ takens htaken ht =>
      obtain ⟨hv, hvs⟩ := List.forall_mem_cons.mp hv
      have hcomma : AtComma (',' :: (rest ++ tail)) := by
        intro c hc
        cases hc
        rfl
      obtain ⟨bits₁, hterm, hset⟩ := parse_term_written hspec bits hpart htaken hv hcomma
      rw [List.length_append, List.length_cons] at hfuel
      obtain ⟨n, rfl⟩ : ∃ n, fuel = n + 1 := ⟨fuel - 1, by omega⟩
      obtain ⟨bits₂, hloop, hset₂⟩ := @ih takens bits₁ n (by omega) ht hvs
      refine ⟨bits₂, ?_, by rw [hset₂, hset, union_cons, Set.union_assoc]⟩
      rw [List.append_assoc, List.cons_append,
        parse_field_loop_pass hpart.ne_nil (.inr ⟨rfl, hs.readable hat⟩) hterm, hloop]

theorem bitValues_zero : bitValues 0 = ∅ := by
  ext i
  simp [bitValues]

theorem parse_field_taken (hspec : spec.Regular) (text : List Char) (days : Set ℕ) :
    (∃ bits any_flag, cron_parse_field text spec = .ok (bits, any_flag) ∧ bitValues bits = days) ↔
      TakenAs spec text days := by
  constructor
  · rintro ⟨bits, any_flag, h, rfl⟩
    unfold cron_parse_field at h
    obtain ⟨p, hp, h⟩ := bind_eq_ok.mp h
    obtain ⟨-, rfl⟩ := advance_eq_ok.mp hp
    replace h : (if (reader spec text).current.kind = .eof then
        parseError ("empty " ++ spec.name ++ " field")
      else do
        let bits ← cron_parse_field_loop (text.length + 2) (reader spec text) 0
        pure (bits, cron_field_is_full spec bits)) = .ok (bits, any_flag) := h
    unfold parseError at h
    obtain ⟨hkind, h⟩ := guard_eq_ok.mp h
    obtain ⟨b, hb, h⟩ := bind_eq_ok.mp h
    cases h
    have hne : text ≠ [] := by
      rintro rfl
      exact hkind rfl
    obtain ⟨terms, hterms, hv, hset⟩ := parse_field_loop_reads hspec _ hne hb
    rw [bitValues_zero, Set.empty_union] at hset
    exact ⟨terms, hterms, hv, hset⟩
  · rintro ⟨terms, ⟨written, hlisted, hall⟩, hv, rfl⟩
    obtain ⟨front, tail, rfl, htail, hl⟩ : ∃ front tail, text = front ++ tail ∧
        (tail = [] ∨ tail = [',']) ∧ Listed spec front written := by
      rcases hlisted with hl | ⟨front, rfl, hl⟩
      · exact ⟨text, [], (List.append_nil text).symm, .inl rfl, hl⟩
      · exact ⟨front, [','], rfl, .inr rfl, hl⟩
    have hat : AtComma tail := by
      rcases htail with rfl | rfl
      · exact nofun
      · intro c hc
        cases hc
        rfl
    obtain ⟨bits, hloop, hset⟩ := @parse_field_loop_listed _ hspec _ _ hl _ htail terms 0
      ((front ++ tail).length + 2) (by rw [List.length_append]; omega) hall hv
    rw [bitValues_zero, Set.empty_union] at hset
    have hkind : (reader spec (front ++ tail)).current.kind ≠ .eof := by
      intro hk
      have hnil := (List.append_eq_nil_iff.mp (eof_rest hk)).1
      cases hl with
      | last h => exact h.ne_nil hnil
      | cons h _ => exact List.append_ne_nil_of_left_ne_nil h.ne_nil _ hnil
    refine ⟨bits, cron_field_is_full spec bits, ?_, hset⟩
    refine bind_eq_ok.mpr ⟨reader spec (front ++ tail),
      advance_eq_ok.mpr ⟨hl.readable hat, rfl⟩, ?_⟩
    rw [if_neg hkind]
    exact bind_eq_ok.mpr ⟨bits, hloop, rfl⟩

end SaltsUtils.Cron
