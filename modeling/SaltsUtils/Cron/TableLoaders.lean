import SaltsUtils.Cron.Table

/-!
# The two crontab loaders compared

`fgets` cuts a line that does not fit its buffer, and each cut is loaded as a line of its
own. The loaders agree where the cuts of a line hold what the line holds.
-/

set_option autoImplicit false

namespace SaltsUtils.Cron

def returned : Except CronError Unit → Status
  | .ok _ => .ok
  | .error e => e.code

/-- Both return the same code, on success the same table, and on failure the table that was
there. -/
structure LoadersAgree (out_table : Table) (a b : Except CronError Unit × Option Table) :
    Prop where
  code : returned a.1 = returned b.1
  table : returned a.1 = .ok → a.2 = b.2
  unchanged : returned a.1 ≠ .ok → a.2 = some out_table ∧ b.2 = some out_table

/-- The cuts of the line hold its entry, or none where it has none. -/
def Kept (line : List Char) : Prop := entry_lines (fileReader.all line) = entry_lines [line]

instance (line : List Char) : Decidable (Kept line) := inferInstanceAs (Decidable (_ = _))

/-- The line is neither blank nor a comment, and has no entry. -/
def Refused (line : List Char) : Prop := ∃ e, cron_table_load_line 0 line [] = .error e

theorem next_line_whole (text : List Char) : next_line (next_line text).1 =
    ((next_line text).1, []) := by
  induction text with
  | nil => rfl
  | cons c text ih =>
    rw [next_line]
    split
    · rw [next_line, if_pos ‹_›]
    · rw [next_line, if_neg ‹_›, ih]

theorem next_line_drop (n : ℕ) (text : List Char) (h : (next_line text).1.drop n ≠ []) :
    next_line ((next_line text).1.drop n ++ (next_line text).2) =
      ((next_line text).1.drop n, (next_line text).2) := by
  induction text generalizing n with
  | nil => exact absurd List.drop_nil h
  | cons c text ih =>
    cases n with
    | zero =>
      have hw := stringReader.whole (c::text)
      change (next_line (c::text)).1 ++ (next_line (c::text)).2 = _ at hw
      rw [List.drop_zero, hw]
    | succ n =>
      rw [next_line] at h ⊢
      split at h
      · simp at h
      · rw [if_neg ‹_›]
        exact ih n h

theorem fgets_line (n : ℕ) (text : List Char) :
    fgets n text = ((next_line text).1.take n, (next_line text).1.drop n ++ (next_line text).2) := by
  induction text generalizing n with
  | nil => cases n <;> rfl
  | cons c text ih =>
    cases n with
    | zero => exact Prod.ext rfl (stringReader.whole (c::text)).symm
    | succ n =>
      rw [fgets, next_line]
      split
      · simp
      · rw [ih n]
        rfl

theorem file_within : fileReader.Within stringReader := by
  intro text _
  change (fgets 2047 text).1 = (fgets 2047 (next_line text).1).1 ∧ _
  have hline : fgets 2047 (next_line text).1 =
      ((next_line text).1.take 2047, (next_line text).1.drop 2047) := by
    rw [fgets_line, next_line_whole, List.append_nil]
  refine ⟨?_, ?_, ?_⟩
  · rw [hline, fgets_line]
  · change (fgets 2047 text).2 = (fgets 2047 (next_line text).1).2 ++ (next_line text).2
    rw [hline, fgets_line]
  · change (fgets 2047 (next_line text).1).2 ≠ [] → next_line ((fgets 2047 (next_line text).1).2 ++
      (next_line text).2) = ((fgets 2047 (next_line text).1).2, (next_line text).2)
    rw [hline]
    exact next_line_drop 2047 text

theorem trim_eq_nil {text : List Char} (h : cron_trim_span text = []) :
    text.dropWhile is_space = [] := by
  by_contra hne
  have hhead := List.head_dropWhile_not is_space hne
  have hall := List.rdropWhile_eq_nil_iff.mp h _ (List.head_mem hne)
  rw [hall] at hhead
  cases hhead

theorem trim_append_blank {text more : List Char} (h : cron_trim_span text = []) :
    cron_trim_span (text ++ more) = cron_trim_span more := by
  rw [cron_trim_span, cron_trim_span, List.dropWhile_append, trim_eq_nil h]
  rfl

theorem rdropWhile_append_prefix (p : Char → Bool) (text more : List Char) :
    text.rdropWhile p <+: (text ++ more).rdropWhile p := by
  unfold List.rdropWhile
  rw [List.reverse_append, List.dropWhile_append]
  split
  · exact List.prefix_rfl
  · rw [List.reverse_append, List.reverse_reverse]
    exact (List.rdropWhile_prefix p text).trans (List.prefix_append _ _)

theorem trim_append {text more : List Char} (h : cron_trim_span text ≠ []) :
    cron_trim_span text <+: cron_trim_span (text ++ more) := by
  unfold cron_trim_span at h ⊢
  have hne : text.dropWhile is_space ≠ [] := by
    intro hnil
    rw [hnil] at h
    exact h rfl
  rw [List.dropWhile_append, if_neg (by simpa using hne)]
  exact rdropWhile_append_prefix _ _ _

theorem entry_lines_flatten {cuts : List (List Char)} (h : ¬ skipped (cron_trim_span cuts.flatten)) :
    ∃ first others more, entry_lines cuts = first::others ∧
      cron_trim_span cuts.flatten = first ++ more := by
  induction cuts with
  | nil => exact absurd rfl h
  | cons cut cuts ih =>
    rw [List.flatten_cons] at h ⊢
    by_cases hblank : cron_trim_span cut = []
    · rw [trim_append_blank hblank] at h ⊢
      have hcuts : entry_lines (cut::cuts) = entry_lines cuts := by
        simp [entry_lines, hblank, skipped]
      rw [hcuts]
      exact ih h
    · obtain ⟨more, hmore⟩ : cron_trim_span cut <+: cron_trim_span (cut ++ cuts.flatten) :=
        trim_append hblank
      refine ⟨cron_trim_span cut, entry_lines cuts, more, ?_, hmore.symm⟩
      have hcut : skipped (cron_trim_span cut) = false := by
        rw [← hmore] at h
        unfold skipped at h ⊢
        rw [List.head?_append_of_ne_nil _ hblank] at h
        simp_all
      simp [entry_lines, hcut]

theorem after_fields_append (more : List Char) (n : ℕ) {p rest : List Char}
    (h : after_fields n p = some rest) (hr : rest ≠ []) :
    after_fields n (p ++ more) = some (rest ++ more) := by
  induction n generalizing p with
  | zero =>
    cases h
    rfl
  | succ n ih =>
    rw [after_fields] at h ⊢
    cases hp : p.dropWhile is_blank with
    | nil =>
      rw [hp] at h
      cases h
    | cons c field =>
      rw [hp] at h
      dsimp only at h
      rw [List.dropWhile_append, hp]
      have hfield : (c::field).dropWhile (fun d => !is_blank d) ≠ [] := by
        intro hnil
        rw [hnil] at h
        cases n with
        | zero =>
          cases h
          exact hr rfl
        | succ n => cases h
      have hend : ((c::field) ++ more).dropWhile (fun d => !is_blank d) =
          (c::field).dropWhile (fun d => !is_blank d) ++ more := by
        rw [List.dropWhile_append, if_neg (by simpa using hfield)]
      change after_fields n (((c::field) ++ more).dropWhile fun d => !is_blank d) = _
      rw [hend]
      exact ih h

theorem split_entry_line_append {line expr payload : List Char} (more : List Char)
    (h : cron_split_entry_line line = some (expr, payload)) (hp : payload ≠ []) :
    cron_split_entry_line (line ++ more) = some (expr, payload ++ more) := by
  unfold cron_split_entry_line at h ⊢
  obtain ⟨rest, hafter, hr⟩ := Option.map_eq_some_iff.mp h
  cases hr
  have hrest : rest ≠ [] := by
    intro hnil
    rw [hnil] at hp
    exact hp rfl
  have hstart : line.dropWhile is_blank ≠ [] := by
    intro hnil
    rw [hnil] at hafter
    cases hafter
  have hend : (rest ++ more).dropWhile is_blank = rest.dropWhile is_blank ++ more := by
    rw [List.dropWhile_append, if_neg (by simpa using hp)]
  dsimp only
  rw [List.dropWhile_append, if_neg (by simpa using hstart),
    after_fields_append more 5 hafter hrest, Option.map_some, hend, List.length_append,
    List.length_append, Nat.add_sub_add_right, List.take_append_of_le_length (Nat.sub_le _ _)]

theorem entry_of_append {trimmed : List Char} {entry : Entry} (more : List Char)
    (h : entry_of trimmed = some entry) :
    entry_of (trimmed ++ more) = some ⟨entry.expr, entry.payload ++ more⟩ := by
  unfold entry_of cron_read_entry at h ⊢
  cases hs : cron_split_entry_line trimmed with
  | none =>
    rw [hs] at h
    cases h
  | some r =>
    rw [hs] at h
    dsimp only at h
    by_cases hp : r.2 = []
    · rw [if_pos hp] at h
      cases h
    · rw [if_neg hp] at h
      rw [split_entry_line_append more hs hp]
      dsimp only
      rw [if_neg (by simp [hp])]
      cases hx : salts_cron_parse_ex (some r.1) true with
      | error e =>
        rw [hx] at h
        cases h
      | ok expr =>
        rw [hx] at h
        cases h
        rfl

theorem entry_lines_flatMap (lines : List (List Char)) (f : List Char → List (List Char)) :
    entry_lines (lines.flatMap f) = lines.flatMap fun line => entry_lines (f line) := by
  simp only [entry_lines, List.map_flatMap, List.filter_flatMap]

theorem entry_lines_each (lines : List (List Char)) :
    entry_lines lines = lines.flatMap fun line => entry_lines [line] := by
  conv_lhs => rw [← List.flatMap_singleton' lines]
  exact entry_lines_flatMap lines fun line => [line]

theorem line_entries {line : List Char} {cut_entries line_entries : List Entry}
    (hc : (entry_lines (fileReader.all line)).mapM entry_of = some cut_entries)
    (hl : (entry_lines [line]).mapM entry_of = some line_entries) :
    line_entries.length ≤ cut_entries.length ∧ (cut_entries = line_entries → Kept line) := by
  have hclen := (mapM_eq_some hc).length_eq
  by_cases hskip : skipped (cron_trim_span line)
  · have hnone : entry_lines [line] = [] := by simp [entry_lines, hskip]
    rw [hnone] at hl
    obtain rfl : [] = line_entries := Option.some.inj hl
    refine ⟨Nat.zero_le _, fun heq => ?_⟩
    rw [heq, List.length_nil, List.length_eq_zero_iff] at hclen
    exact hclen.trans hnone.symm
  · have hone : entry_lines [line] = [cron_trim_span line] := by simp [entry_lines, hskip]
    have hflat := fileReader.flatten_all line
    obtain ⟨first, others, more, hcuts, hmore⟩ :=
      @entry_lines_flatten (fileReader.all line) (by rwa [hflat])
    rw [hflat] at hmore
    rw [hone] at hl
    have hllen := (mapM_eq_some hl).length_eq
    rw [hcuts] at hc hclen
    refine ⟨by simp only [List.length_cons, List.length_nil] at hclen hllen; omega, fun heq => ?_⟩
    rw [heq] at hc hclen
    obtain rfl : others = [] := by
      simp only [List.length_cons, List.length_nil] at hclen hllen
      exact List.length_eq_zero_iff.mp (by omega)
    cases mapM_eq_some hc with
    | cons hfirst hnil =>
      cases hnil
      cases mapM_eq_some hl with
      | cons hwhole _ =>
        rw [hmore, entry_of_append more hfirst] at hwhole
        have hpayload := congrArg Entry.payload (Option.some.inj hwhole)
        obtain rfl := List.append_right_eq_self.mp hpayload
        rw [Kept, hcuts, hone, hmore, List.append_nil]

theorem lines_entries {lines : List (List Char)} : ∀ {cut_entries line_entries : List Entry},
    (lines.flatMap fun line => entry_lines (fileReader.all line)).mapM entry_of =
        some cut_entries →
      (lines.flatMap fun line => entry_lines [line]).mapM entry_of = some line_entries →
      line_entries.length ≤ cut_entries.length ∧
        (cut_entries = line_entries → ∀ line ∈ lines, Kept line) := by
  induction lines with
  | nil =>
    intro cut_entries line_entries hc hl
    cases hl
    exact ⟨Nat.zero_le _, fun _ => List.forall_mem_nil _⟩
  | cons line lines ih =>
    intro cut_entries line_entries hc hl
    rw [List.flatMap_cons, List.mapM_append] at hc hl
    obtain ⟨cut, hcut, hc⟩ := Option.bind_eq_some_iff.mp hc
    obtain ⟨cuts, hcuts, hc⟩ := Option.bind_eq_some_iff.mp hc
    obtain ⟨one, hone, hl⟩ := Option.bind_eq_some_iff.mp hl
    obtain ⟨rest, hrest, hl⟩ := Option.bind_eq_some_iff.mp hl
    cases hc
    cases hl
    obtain ⟨hlen, hkept⟩ := line_entries hcut hone
    obtain ⟨hlens, hkepts⟩ := ih hcuts hrest
    refine ⟨by simp only [List.length_append]; omega, fun heq => ?_⟩
    have hsize : cut.length = one.length := by
      have := congrArg List.length heq
      simp only [List.length_append] at this
      omega
    obtain ⟨rfl, rfl⟩ := List.append_inj heq hsize
    exact List.forall_mem_cons.mpr ⟨hkept rfl, hkepts rfl⟩

theorem refused_iff (line : List Char) :
    Refused line ↔ (entry_lines [line]).mapM entry_of = none := by
  unfold Refused cron_table_load_line
  by_cases hskip : skipped (cron_trim_span line)
  · have hnone : entry_lines [line] = [] := by simp [entry_lines, hskip]
    simp [hskip, hnone]
  · have hone : entry_lines [line] = [cron_trim_span line] := by simp [entry_lines, hskip]
    have hread := read_entry_cases 0 (cron_trim_span line)
    simp only [if_neg hskip, hone, List.mapM_cons, List.mapM_nil]
    cases he : entry_of (cron_trim_span line) with
    | none =>
      rw [he] at hread
      obtain ⟨e, hr, -⟩ := hread
      rw [hr]
      exact iff_of_true ⟨e, rfl⟩ rfl
    | some entry =>
      rw [he] at hread
      rw [hread]
      simp [Except.map]

theorem exists_refused (lines : List (List Char)) :
    (entry_lines lines).mapM entry_of = none ↔ ∃ line ∈ lines, Refused line := by
  induction lines with
  | nil => exact iff_of_false nofun nofun
  | cons line lines ih =>
    rw [entry_lines_cons, List.mapM_append, List.exists_mem_cons_iff, refused_iff, ← ih]
    cases (entry_lines [line]).mapM entry_of with
    | none => exact iff_of_true rfl (.inl rfl)
    | some entries =>
      cases (entry_lines lines).mapM entry_of with
      | none => exact iff_of_true rfl (.inr rfl)
      | some more => exact iff_of_false nofun (by simp)

theorem trim_line (text : List Char) :
    cron_trim_span ((next_line text).1.takeWhile fun c => c ≠ '\n') =
      cron_trim_span (next_line text).1 := by
  have hline : (next_line text).1 = (next_line text).1.takeWhile (fun c => c ≠ '\n') ∨
      (next_line text).1 = (next_line text).1.takeWhile (fun c => c ≠ '\n') ++ ['\n'] := by
    induction text with
    | nil => exact .inl rfl
    | cons c text ih =>
      rw [next_line]
      by_cases hc : c = '\n'
      · simp [hc]
      · simpa [hc] using ih
  rcases hline with h | h
  · rw [← h]
  · conv_rhs => rw [h]
    generalize (next_line text).1.takeWhile (fun c => c ≠ '\n') = line
    unfold cron_trim_span
    rw [List.dropWhile_append]
    split
    · have hnil : line.dropWhile is_space = [] := List.isEmpty_iff.mp ‹_›
      rw [hnil]
      rfl
    · rw [List.rdropWhile_concat_pos _ _ _ rfl]

theorem entry_lines_string (text : List Char) :
    entry_lines ((stringReader.all text).map fun line => line.takeWhile fun c => c ≠ '\n') =
      entry_lines (stringReader.all text) := by
  unfold entry_lines
  rw [List.map_map]
  have htrim : ∀ line ∈ stringReader.all text,
      cron_trim_span (line.takeWhile fun c => c ≠ '\n') = cron_trim_span line :=
    Reader.forall_all (fun text _ => trim_line text) text
  exact congrArg _ (List.map_congr_left htrim)

theorem loaded_cases (out_table : Table) (lines : List (List Char)) :
    match (entry_lines lines).mapM entry_of with
    | some entries =>
      loaded out_table (cron_table_load_lines 0 lines []) = (.ok (), some entries)
    | none => ∃ e, Refusal e ∧
      loaded out_table (cron_table_load_lines 0 lines []) = (.error e, some out_table) := by
  have hload := load_lines_entries lines 0 []
  cases hm : (entry_lines lines).mapM entry_of with
  | none =>
    rw [hm] at hload
    obtain ⟨e, he, hcode⟩ := hload
    exact ⟨e, hcode, by rw [he]; rfl⟩
  | some entries =>
    rw [hm] at hload
    rw [hload]
    rfl

theorem loaded_agree (out_table : Table) (cuts lines : List (List Char)) :
    LoadersAgree out_table (loaded out_table (cron_table_load_lines 0 cuts []))
        (loaded out_table (cron_table_load_lines 0 lines [])) ↔
      (entry_lines cuts).mapM entry_of = (entry_lines lines).mapM entry_of := by
  have hcuts := loaded_cases out_table cuts
  have hlines := loaded_cases out_table lines
  cases hc : (entry_lines cuts).mapM entry_of with
  | none =>
    rw [hc] at hcuts
    obtain ⟨e, he, hcuts⟩ := hcuts
    cases hl : (entry_lines lines).mapM entry_of with
    | none =>
      rw [hl] at hlines
      obtain ⟨e', he', hlines⟩ := hlines
      rw [hcuts, hlines]
      have hfail : e.code ≠ .ok := by rw [he]; decide
      exact iff_of_true ⟨he.trans he'.symm, fun h => absurd h hfail, fun _ => ⟨rfl, rfl⟩⟩ rfl
    | some entries =>
      rw [hl] at hlines
      rw [hcuts, hlines]
      refine iff_of_false (fun h => ?_) nofun
      have hcode : e.code = .ok := h.code
      rw [he] at hcode
      cases hcode
  | some entries =>
    rw [hc] at hcuts
    cases hl : (entry_lines lines).mapM entry_of with
    | none =>
      rw [hl] at hlines
      obtain ⟨e, he, hlines⟩ := hlines
      rw [hcuts, hlines]
      refine iff_of_false (fun h => ?_) nofun
      have hcode : Status.ok = e.code := h.code
      rw [he] at hcode
      cases hcode
    | some entries' =>
      rw [hl] at hlines
      dsimp only at hlines
      rw [hcuts, hlines]
      constructor
      · intro h
        exact h.table rfl
      · intro h
        cases h
        exact ⟨rfl, fun _ => rfl, fun h => absurd rfl h⟩

/-- The loaders agree exactly on the texts whose lines are kept by the cuts of `fgets`, and
on those that both of them refuse. -/
theorem table_loaders_agree {fopen : String → Option (List Char)} {path : String}
    {text : List Char} (hfile : fopen path = some text) (out_table : Table) :
    LoadersAgree out_table (salts_cron_table_load_file fopen (some path) (some out_table))
        (salts_cron_table_load_string (some text) (some out_table)) ↔
      (∀ line ∈ stringReader.all text, Kept line) ∨
        ((∃ line ∈ stringReader.all text, Refused line) ∧
          ∃ cut ∈ fileReader.all text, Refused cut) := by
  unfold salts_cron_table_load_file salts_cron_table_load_string
  dsimp only
  rw [hfile]
  rw [loaded_agree, entry_lines_string, ← exists_refused, ← exists_refused]
  have hcuts : entry_lines (fileReader.all text) =
      (stringReader.all text).flatMap fun line => entry_lines (fileReader.all line) := by
    rw [Reader.all_within file_within, entry_lines_flatMap]
  have hlines := entry_lines_each (stringReader.all text)
  constructor
  · intro heq
    cases hc : (entry_lines (fileReader.all text)).mapM entry_of with
    | none => exact .inr ⟨heq ▸ hc, rfl⟩
    | some entries =>
      have hl := heq ▸ hc
      rw [hcuts] at hc
      rw [hlines] at hl
      exact .inl ((lines_entries hc hl).2 rfl)
  · rintro (hkept | ⟨hl, hc⟩)
    · rw [hcuts, hlines]
      exact congrArg (List.mapM entry_of) (List.flatMap_congr hkept)
    · rw [hc, hl]

def shortTable : List Char := "# jobs\n0 5 * * 1-5 backup\n\n".toList

theorem table_loaders_agree_short :
    LoadersAgree [] (salts_cron_table_load_file (fun _ => some shortTable) (some "crontab") (some []))
      (salts_cron_table_load_string (some shortTable) (some [])) :=
  (@table_loaders_agree _ "crontab" _ rfl []).mpr (.inl (by decide +kernel))

/-- A comment that fills the buffer, so that the rest of its line is loaded as an entry. -/
def tornComment : List Char := List.replicate 2047 '#' ++ "* * * * * job".toList

theorem table_loaders_tear :
    ¬ ∀ (fopen : String → Option (List Char)) (path : String) (text : List Char)
      (out_table : Table), fopen path = some text →
        LoadersAgree out_table (salts_cron_table_load_file fopen (some path) (some out_table))
          (salts_cron_table_load_string (some text) (some out_table)) := by
  intro h
  have hagree := h (fun _ => some tornComment) "crontab" tornComment [] rfl
  have htable := hagree.table (by decide +kernel)
  exact absurd (congrArg (Option.map List.length) htable) (by decide +kernel)

end SaltsUtils.Cron
