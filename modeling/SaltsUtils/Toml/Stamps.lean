import SaltsUtils.Toml.Denotations

/-!
# Date-times read again

The scan of the text of a date-time gives its parts, but never milliseconds or an offset. The
calendar is looked at for February only.
-/

set_option autoImplicit false

namespace SaltsUtils.Toml

theorem two_append (n : ℕ) (rest : Bytes) :
    two n ++ rest = (48 + n / 10) :: (48 + n % 10) :: rest := rfl

theorem scan_step (n : ℕ) {d : ℕ} (p : Bytes) (ret : ℤ) (h : d < 10) :
    scan_digits_loop (n + 1) ((48 + d) :: p) ret = scan_digits_loop n p (10 * ret + d) := by
  have hdigit : isdigit (48 + d) = true := by
    rw [isdigit, Bool.and_eq_true]
    exact ⟨decide_eq_true (by omega), decide_eq_true (by omega)⟩
  rw [scan_digits_loop, if_pos hdigit, Nat.add_sub_cancel_left]

variable {n : ℕ}

theorem scan_two (h : n < 100) (rest : Bytes) : scan_digits (two n ++ rest) 2 = n := by
  rw [two_append, scan_digits, scan_step _ _ _ (by omega), scan_step _ _ _ (by omega),
    scan_digits_loop]
  omega

theorem scan_four (h : n < 10000) (rest : Bytes) :
    scan_digits (two (n / 100) ++ (two (n % 100) ++ rest)) 4 = n := by
  rw [two_append, two_append, scan_digits, scan_step _ _ _ (by omega), scan_step _ _ _ (by omega),
    scan_step _ _ _ (by omega), scan_step _ _ _ (by omega), scan_digits_loop]
  omega

theorem Date.text_append (d : Date) (rest : Bytes) :
    d.text ++ rest = two (d.year.val / 100) ++ (two (d.year.val % 100) ++
      45 :: (two d.month.val ++ 45 :: (two d.day.val ++ rest))) := by
  simp [Date.text]

theorem Time.text_append (t : Time) (rest : Bytes) :
    t.text ++ rest = two t.hour.val ++ 58 :: (two t.minute.val ++ 58 :: (two t.second.val ++
      (fraction_text t.fraction ++ rest))) := by
  simp [Time.text]

theorem scan_date_text (d : Date) (rest : Bytes) :
    scan_date (d.text ++ rest) = ⟨d.year.val, d.month.val, d.day.val, true⟩ := by
  have hyear := scan_four d.year.isLt (45 :: (two d.month.val ++ 45 :: (two d.day.val ++ rest)))
  have hmonth := scan_two d.month.isLt (45 :: (two d.day.val ++ rest))
  have hday := scan_two d.day.isLt rest
  have h4 : byte_at (d.text ++ rest) 4 = 45 := by
    rw [Date.text_append]
    rfl
  have h7 : byte_at (d.text ++ rest) 7 = 45 := by
    rw [Date.text_append]
    rfl
  have hdrop5 : (d.text ++ rest).drop 5 = two d.month.val ++ 45 :: (two d.day.val ++ rest) := by
    rw [Date.text_append]
    rfl
  have hdrop8 : (d.text ++ rest).drop 8 = two d.day.val ++ rest := by
    rw [Date.text_append]
    rfl
  rw [← Date.text_append] at hyear
  simp only [scan_date, hyear, h4, h7, hdrop5, hdrop8, hmonth, hday, Nat.cast_nonneg, and_self,
    if_true, decide_true]

theorem scan_time_text (t : Time) (rest : Bytes) :
    scan_time (t.text ++ rest) = ⟨t.hour.val, t.minute.val, t.second.val, true⟩ := by
  have hhour := scan_two t.hour.isLt
    (58 :: (two t.minute.val ++ 58 :: (two t.second.val ++ (fraction_text t.fraction ++ rest))))
  have hminute := scan_two t.minute.isLt
    (58 :: (two t.second.val ++ (fraction_text t.fraction ++ rest)))
  have hsecond := scan_two t.second.isLt (fraction_text t.fraction ++ rest)
  have h2 : byte_at (t.text ++ rest) 2 = 58 := by
    rw [Time.text_append]
    rfl
  have h5 : byte_at (t.text ++ rest) 5 = 58 := by
    rw [Time.text_append]
    rfl
  have hdrop3 : (t.text ++ rest).drop 3 =
      two t.minute.val ++ 58 :: (two t.second.val ++ (fraction_text t.fraction ++ rest)) := by
    rw [Time.text_append]
    rfl
  have hdrop6 : (t.text ++ rest).drop 6 = two t.second.val ++ (fraction_text t.fraction ++ rest) := by
    rw [Time.text_append]
    rfl
  rw [← Time.text_append] at hhour
  simp only [scan_time, hhour, h2, h5, hdrop3, hdrop6, hminute, hsecond, Nat.cast_nonneg, and_self,
    if_true, decide_true]

theorem scan_date_of_time (t : Time) : scan_date t.text = ⟨-1, -1, -1, false⟩ := by
  have hyear : scan_digits t.text 4 = -1 := by
    have ht := Time.text_append t []
    rw [List.append_nil] at ht
    rw [ht, two_append, scan_digits, scan_step _ _ _ (by omega), scan_step _ _ _ (by omega),
      scan_digits_loop, if_neg (by decide)]
  simp only [scan_date, hyear, Int.reduceNeg, Left.nonneg_neg_iff, Int.reduceLE, false_and, if_false,
    and_self, decide_false]

theorem offset_text_cases (o : Option Offset) :
    (o = none ∧ offset_text o = []) ∨
      o.isSome = true ∧ ∃ ch rest, offset_text o = ch :: rest ∧ ch ∈ [90, 122, 43, 45] := by
  cases o with
  | none => exact .inl ⟨rfl, rfl⟩
  | some o =>
    refine .inr ⟨rfl, ?_⟩
    cases o with
    | zulu small => exact ⟨_, _, rfl, by cases small <;> decide⟩
    | numeric negative hour minute => exact ⟨_, _, rfl, by cases negative <;> decide⟩

theorem offset_byte (o : Option Offset) :
    byte_at (offset_text o) 0 ∈ [90, 122, 43, 45] ↔ o.isSome = true := by
  obtain ⟨rfl, -⟩ | ⟨ho, ch, rest, ht, hch⟩ := offset_text_cases o
  · decide
  · rw [ht]
    exact iff_of_true hch ho

theorem dropWhile_digits (fraction : List (Fin 10)) (rest : Bytes) :
    (fraction.map (fun d : Fin 10 => 48 + d.val) ++ rest).dropWhile isdigit =
      rest.dropWhile isdigit := by
  induction fraction with
  | nil => rfl
  | cons d fraction ih =>
    have hdigit : isdigit (48 + d.val) = true := by
      rw [isdigit, Bool.and_eq_true]
      exact ⟨decide_eq_true (by omega), decide_eq_true (by omega)⟩
    rw [List.map_cons, List.cons_append, List.dropWhile_cons_of_pos hdigit, ih]

theorem skip_fraction_text (fraction : List (Fin 10)) (o : Option Offset) :
    skip_fraction (fraction_text fraction ++ offset_text o) = offset_text o := by
  have hdigit : (offset_text o).dropWhile isdigit = offset_text o := by
    obtain ⟨-, ht⟩ | ⟨-, ch, rest, ht, hch⟩ := offset_text_cases o
    · rw [ht]
      rfl
    · rw [ht, List.dropWhile_cons_of_neg]
      fin_cases hch <;> decide
  rw [fraction_text]
  split
  · rw [List.nil_append, skip_fraction, if_neg]
    obtain ⟨-, ht⟩ | ⟨-, ch, rest, ht, hch⟩ := offset_text_cases o
    · rw [ht]
      decide
    · rw [ht]
      rintro rfl
      exact absurd hch (by decide)
  · rw [List.cons_append, skip_fraction, if_pos (by rfl), List.drop_one, List.tail_cons,
      dropWhile_digits, hdigit]

theorem Time.text_drop (t : Time) (rest : Bytes) :
    (t.text ++ rest).drop 8 = fraction_text t.fraction ++ rest := by
  rw [Time.text_append]
  rfl

theorem timestamp_time_text (ret : Timestamp) (t : Time) (o : Option Offset) :
    timestamp_time ret (t.text ++ offset_text o) =
      { ret with
        kind := if o.isSome then 100 else if ret.kind = 68 then 108 else 116
        hour := t.hour.val
        minute := t.minute.val
        second := t.second.val } := by
  have hoffset : (byte_at (skip_fraction ((t.text ++ offset_text o).drop 8)) 0 ∈ [90, 122, 43, 45]) ↔
      o.isSome = true := by
    rw [Time.text_drop, skip_fraction_text]
    exact offset_byte o
  simp only [timestamp_time, scan_time_text, if_true, hoffset]
  split <;> rfl

/-- The timestamp of a date-time whose date is not refused. -/
def Stamp.scanned : Stamp → Timestamp
  | .date d => ⟨68, d.year.val, d.month.val, d.day.val, -1, -1, -1, 0, 0⟩
  | .time t => ⟨116, -1, -1, -1, t.hour.val, t.minute.val, t.second.val, 0, 0⟩
  | .moment d _ t o =>
    ⟨if o.isSome then 100 else 108, d.year.val, d.month.val, d.day.val, t.hour.val, t.minute.val,
      t.second.val, 0, 0⟩

theorem Stamp.text_date (d : Date) : (date d).text = d.text ++ [] := (List.append_nil _).symm

theorem Stamp.text_time (t : Time) : (time t).text = t.text ++ offset_text none :=
  (List.append_nil _).symm

theorem Stamp.text_moment (d : Date) (sep : Separator) (t : Time) (o : Option Offset) :
    (moment d sep t o).text = d.text ++ sep.byte :: (t.text ++ offset_text o) := by
  rw [text, List.append_assoc, List.cons_append]

theorem date_refused_iff (d : Date) :
    date_refused ⟨d.year.val, d.month.val, d.day.val, true⟩ = true ↔ d.Refused := by
  simp only [date_refused, Date.Refused, decide_eq_true_eq]
  omega

theorem Date.text_drop (d : Date) (rest : Bytes) : (d.text ++ rest).drop 10 = rest := by
  rw [Date.text_append]
  rfl

theorem skip_separator_byte (sep : Separator) (rest : Bytes) :
    skip_separator (sep.byte :: rest) = rest := by
  cases sep <;> rfl

theorem value_of_date (d : Date) (rest : Bytes) :
    toml_value_timestamp (d.text ++ rest) =
      if date_refused ⟨d.year.val, d.month.val, d.day.val, true⟩ then none
      else some (timestamp_time ⟨68, d.year.val, d.month.val, d.day.val, 0, 0, 0, 0, 0⟩
        (skip_separator rest)) := by
  simp only [toml_value_timestamp, scan_date_text, if_true, Date.text_drop]

theorem value_of_time (t : Time) :
    toml_value_timestamp t.text =
      some (timestamp_time ⟨0, -1, -1, -1, 0, 0, 0, 0, 0⟩ t.text) := by
  simp only [toml_value_timestamp, scan_date_of_time, Bool.false_eq_true, if_false]

variable {stamp : Stamp}

theorem value_refused (h : stamp.Refused) : toml_value_timestamp stamp.text = none := by
  cases stamp with
  | date d =>
    rw [Stamp.text_date, value_of_date, if_pos ((date_refused_iff d).mpr h)]
  | time t => exact absurd h id
  | moment d sep t o =>
    rw [Stamp.text_moment, value_of_date, if_pos ((date_refused_iff d).mpr h)]

theorem value_scanned (h : ¬ stamp.Refused) :
    toml_value_timestamp stamp.text = some stamp.scanned := by
  cases stamp with
  | date d =>
    rw [Stamp.text_date, value_of_date, if_neg (mt (date_refused_iff d).mp h)]
    rfl
  | time t =>
    have ht := timestamp_time_text ⟨0, -1, -1, -1, 0, 0, 0, 0, 0⟩ t none
    rw [← Stamp.text_time] at ht
    exact (value_of_time t).trans (congrArg some ht)
  | moment d sep t o =>
    rw [Stamp.text_moment, value_of_date, if_neg (mt (date_refused_iff d).mp h),
      skip_separator_byte, timestamp_time_text]
    rfl

theorem Date.Valid.not_refused {d : Date} (h : d.Valid) : ¬ d.Refused := by
  obtain ⟨hlow, hhigh, hday, hdays⟩ := h
  rintro (hr | hr | hr | hr | ⟨hm, hr⟩)
  · omega
  · omega
  · omega
  · have hmax : d.days ≤ 31 := by
      unfold Date.days Gregorian.monthStart
      generalize d.month.val = m at *
      interval_cases m <;> split_ifs <;> omega
    omega
  · have hfebruary : d.days = february d.year.val := by
      unfold Date.days february Gregorian.monthStart Gregorian.IsLeap
      rw [hm]
      split_ifs <;> omega
    omega

theorem Stamp.Valid.not_refused (h : stamp.Valid) : ¬ stamp.Refused := by
  cases stamp with
  | date d => exact Date.Valid.not_refused h
  | time t => exact id
  | moment d sep t o => exact Date.Valid.not_refused h.1

theorem time_agrees {t : Time} {kind : ℕ} {year month day tz : ℤ} :
    OfTime t ⟨kind, year, month, day, t.hour.val, t.minute.val, t.second.val, 0, tz⟩ ↔
      t.millisec = 0 :=
  ⟨fun h => Int.ofNat.inj h.millisec_eq.symm, fun h => ⟨rfl, rfl, rfl, by rw [h]; rfl⟩⟩

theorem scanned_agrees (stamp : Stamp) : Agrees stamp stamp.scanned ↔ stamp.Whole := by
  cases stamp with
  | date d => exact iff_of_true ⟨rfl, rfl, rfl, rfl⟩ trivial
  | time t => exact ⟨fun h => time_agrees.mp h.2, fun h => ⟨rfl, time_agrees.mpr h⟩⟩
  | moment d sep t o =>
    cases o with
    | none =>
      exact ⟨fun h => time_agrees.mp h.2.2, fun h => ⟨rfl, ⟨rfl, rfl, rfl⟩, time_agrees.mpr h⟩⟩
    | some o =>
      exact ⟨fun h => ⟨time_agrees.mp h.2.2.1, h.2.2.2.symm⟩,
        fun h => ⟨rfl, ⟨rfl, rfl, rfl⟩, time_agrees.mpr h.1, h.2.symm⟩⟩

theorem fin_of_cast {a b : Fin n} (h : (a.val : ℤ) = b.val) : a = b :=
  Fin.ext (Int.ofNat.inj h)

theorem Date.text_inj {d d' : Date} {rest rest' : Bytes} (h : d.text ++ rest = d'.text ++ rest') :
    d = d' ∧ rest = rest' := by
  have hscan := congrArg scan_date h
  rw [scan_date_text, scan_date_text] at hscan
  obtain ⟨hyear, hmonth, hday, -⟩ := Scan.mk.inj hscan
  obtain rfl : d = d' := by
    cases d
    cases d'
    congr
    · exact fin_of_cast hyear
    · exact fin_of_cast hmonth
    · exact fin_of_cast hday
  exact ⟨rfl, List.append_cancel_left h⟩

theorem fraction_text_inj {fraction fraction' : List (Fin 10)}
    (h : fraction_text fraction = fraction_text fraction') : fraction = fraction' := by
  have hdigits : Function.Injective fun d : Fin 10 => 48 + d.val := fun a b hab =>
    Fin.ext (Nat.add_left_cancel hab)
  unfold fraction_text at h
  split at h <;> split at h
  · next hf hf' => rw [hf, hf']
  · cases h
  · cases h
  · exact List.map_injective_iff.mpr hdigits (List.cons.inj h).2

theorem two_inj {a b : Fin 100} {rest rest' : Bytes}
    (h : two a.val ++ rest = two b.val ++ rest') : a = b ∧ rest = rest' := by
  have hscan := congrArg (scan_digits · 2) h
  simp only [scan_two a.isLt, scan_two b.isLt] at hscan
  obtain rfl := fin_of_cast hscan
  exact ⟨rfl, List.append_cancel_left h⟩

theorem Offset.text_inj {o o' : Offset} (h : o.text = o'.text) : o = o' := by
  cases o with
  | zulu small =>
    cases o' with
    | zulu small' => cases small <;> cases small' <;> first | rfl | cases h
    | numeric negative hour minute => exact absurd (congrArg List.length h) (by simp [Offset.text, two])
  | numeric negative hour minute =>
    cases o' with
    | zulu small => exact absurd (congrArg List.length h) (by simp [Offset.text, two])
    | numeric negative' hour' minute' =>
      obtain ⟨hsign, hhour⟩ := List.cons.inj h
      obtain ⟨rfl, hminute⟩ := two_inj hhour
      obtain ⟨rfl, -⟩ := two_inj (congrArg (· ++ []) (List.cons.inj hminute).2)
      congr
      cases negative <;> cases negative' <;> first | rfl | cases hsign

theorem offset_text_inj {o o' : Option Offset} (h : offset_text o = offset_text o') : o = o' := by
  cases o with
  | none =>
    cases o' with
    | none => rfl
    | some o' => cases o' <;> cases h
  | some o =>
    cases o' with
    | none => cases o <;> cases h
    | some o' => rw [Offset.text_inj h]

theorem Time.text_inj {t t' : Time} {o o' : Option Offset}
    (h : t.text ++ offset_text o = t'.text ++ offset_text o') : t = t' ∧ o = o' := by
  have hscan := congrArg scan_time h
  rw [scan_time_text, scan_time_text] at hscan
  obtain ⟨hhour, hminute, hsecond, -⟩ := Scan.mk.inj hscan
  have hend := congrArg (List.drop 8) h
  rw [Time.text_drop, Time.text_drop] at hend
  have hoffset := congrArg skip_fraction hend
  rw [skip_fraction_text, skip_fraction_text] at hoffset
  have hfraction := fraction_text_inj (List.append_cancel_right (hoffset ▸ hend))
  refine ⟨?_, offset_text_inj hoffset⟩
  cases t
  cases t'
  congr
  · exact fin_of_cast hhour
  · exact fin_of_cast hminute
  · exact fin_of_cast hsecond

theorem Separator.byte_inj {sep sep' : Separator} (h : sep.byte = sep'.byte) : sep = sep' := by
  cases sep <;> cases sep' <;> first | rfl | cases h

theorem time_text_ne_date (t : Time) (d : Date) (rest : Bytes) : t.text ≠ d.text ++ rest := by
  intro h
  have hscan := congrArg (fun p => (scan_date p).ok) h
  simp only [scan_date_of_time, scan_date_text, Bool.false_eq_true] at hscan

theorem Stamp.text_injective : Function.Injective Stamp.text := by
  intro s s' h
  cases s with
  | date d =>
    rw [text_date] at h
    cases s' with
    | date d' =>
      rw [text_date] at h
      rw [(Date.text_inj h).1]
    | time t' => exact absurd h.symm (time_text_ne_date t' d [])
    | moment d' sep t o =>
      rw [text_moment] at h
      cases (Date.text_inj h).2
  | time t =>
    cases s' with
    | date d' =>
      rw [text_date] at h
      exact absurd h (time_text_ne_date t d' [])
    | time t' =>
      rw [text_time, text_time] at h
      rw [(Time.text_inj h).1]
    | moment d' sep t' o =>
      rw [text_moment] at h
      exact absurd h (time_text_ne_date t d' _)
  | moment d sep t o =>
    rw [text_moment] at h
    cases s' with
    | date d' =>
      rw [text_date] at h
      cases (Date.text_inj h).2
    | time t' => exact absurd h.symm (time_text_ne_date t' d _)
    | moment d' sep' t' o' =>
      rw [text_moment] at h
      obtain ⟨rfl, hrest⟩ := Date.text_inj h
      obtain ⟨hsep, hrest⟩ := List.cons.inj hrest
      obtain ⟨rfl, rfl⟩ := Time.text_inj hrest
      rw [Separator.byte_inj hsep]

/-- The date-times that are read as what they are. -/
theorem stamp_exact_iff {text : Bytes}
    (hdate : (scan_date text).ok = true → ∃ stamp : Stamp, text = stamp.text) :
    StampExact (toml_value_timestamp text) text ↔ StampKept text := by
  constructor
  · intro h
    cases hread : toml_value_timestamp text with
    | none =>
      have hok : (scan_date text).ok = true := by
        by_contra hok
        simp [toml_value_timestamp, hok] at hread
      obtain ⟨stamp, rfl⟩ := hdate hok
      refine ⟨stamp, rfl, .inl ?_⟩
      by_contra hr
      rw [value_scanned hr] at hread
      cases hread
    | some ts =>
      obtain ⟨stamp, rfl, hv⟩ := h.sound ts hread
      obtain ⟨ts', hts', ha⟩ := h.complete stamp rfl hv
      rw [value_scanned hv.not_refused] at hts'
      cases hts'
      exact ⟨stamp, rfl, .inr ⟨hv, (scanned_agrees stamp).mp ha⟩⟩
  · rintro ⟨stamp, rfl, hr | ⟨hv, hw⟩⟩
    · rw [value_refused hr]
      refine ⟨fun ts h => (nomatch h), fun stamp' ht hv => ?_⟩
      rw [Stamp.text_injective ht] at hr
      exact absurd hr hv.not_refused
    · rw [value_scanned hv.not_refused]
      refine ⟨fun _ _ => ⟨stamp, rfl, hv⟩, fun stamp' ht _ => ?_⟩
      rw [← Stamp.text_injective ht]
      exact ⟨_, rfl, (scanned_agrees stamp).mpr hw⟩

end SaltsUtils.Toml
