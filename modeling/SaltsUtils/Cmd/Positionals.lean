import SaltsUtils.Cmd.Shares
import SaltsUtils.Cmd.Spellings

/-!
# Positional arguments

What the required descriptors have is followed through every run of the parser, past the
options, their values and the subcommand.
-/

set_option autoImplicit false

namespace SaltsUtils.Cmd

def Config.required (cfg : Config) : Option ℕ → List Desc
  | none => cfg.required_args
  | some i => ((cfg.subcommands[i]?).map SubCommand.required_args).getD []

def Config.optional (cfg : Config) : Option ℕ → List Desc
  | none => cfg.global_optional_args
  | some i => ((cfg.subcommands[i]?).map SubCommand.optional_args).getD []

/-- The outputs are places of their own, the required descriptors are single values and
lists with room, and the lists start empty. -/
structure Config.Sound {F : Type} (cfg : Config) (outs : Outs F) : Prop where
  distinct : ∀ sel, ((cfg.required sel).map Desc.value_out).Nodup
  apart : ∀ sel, ∀ d ∈ cfg.required sel, ∀ o ∈ cfg.optional sel ++ cfg.global_optional_args,
    o.value_out ≠ d.value_out
  single : ∀ sel, ∀ d ∈ cfg.required sel, d.is_flag = false
  list : ∀ sel, ∀ d ∈ cfg.required sel, 0 < d.capacity
  fresh : ∀ sel, ∀ d ∈ cfg.required sel, Empty outs d

theorem select_subcommand_get {name : Bytes} {subs : List SubCommand} {r : ℕ × SubCommand}
    (h : select_subcommand name subs = some r) : subs[r.1]? = some r.2 := by
  induction subs generalizing r with
  | nil => cases h
  | cons sub subs ih =>
    rw [select_subcommand] at h
    split at h
    · cases h
      rfl
    · obtain ⟨found, hfound, rfl⟩ := Option.map_eq_some_iff.mp h
      simpa using ih hfound

section
variable {F : Type} {p : Platform F} {cfg : Config} {st st' st'' : State F}

/-- What an option does to a state: only the places of options change. -/
structure Aside (cfg : Config) (st st' : State F) : Prop where
  current : st'.current_subcommand = st.current_subcommand
  optional : st'.active_optional = st.active_optional
  required : st'.active_required = st.active_required
  idx : st'.required_args_idx = st.required_args_idx
  pending : ∀ d ∈ st'.pending, d ∈ st.active_optional ++ cfg.global_optional_args
  outs : ∀ place, (∀ d ∈ st.active_optional ++ cfg.global_optional_args, d.value_out ≠ place) →
    st'.outs place = st.outs place

theorem Aside.trans (h : Aside cfg st st') (h' : Aside cfg st' st'') : Aside cfg st st'' where
  current := h'.current.trans h.current
  optional := h'.optional.trans h.optional
  required := h'.required.trans h.required
  idx := h'.idx.trans h.idx
  pending := by
    have := h'.pending
    rwa [h.optional] at this
  outs := fun place hp =>
    (h'.outs place (by rw [h.optional]; exact hp)).trans (h.outs place hp)

theorem Marked.aside (h : Marked st st')
    (hp : ∀ d ∈ st.pending, d ∈ st.active_optional ++ cfg.global_optional_args) :
    Aside cfg st st' :=
  ⟨h.current, h.optional, h.required, h.idx, by rw [h.pending]; exact hp,
    fun place _ => by rw [h.outs]⟩

variable {fits : Desc → Bool}

theorem find_desc_mem {descs : List Desc} {r : ℕ × Desc} (h : find_desc fits descs = some r) :
    r.2 ∈ descs :=
  List.mem_of_getElem? (find_desc_some h).1

variable {desc : Desc}

theorem named_mem (h : named cfg st fits = some desc) :
    desc ∈ st.active_optional ++ cfg.global_optional_args := by
  unfold named at h
  cases hf : find_desc fits st.active_optional with
  | some r =>
    simp only [hf, Option.some.injEq] at h
    exact List.mem_append_left _ (h ▸ find_desc_mem hf)
  | none =>
    simp only [hf, Option.ite_none_right_eq_some, Option.map_eq_some_iff] at h
    obtain ⟨-, r, hr, rfl⟩ := h
    exact List.mem_append_right _ (find_desc_mem hr)

theorem lookup_bundled_marked (h : lookup_bundled cfg st fits = .ok (st', desc)) :
    Marked st st' ∧ desc ∈ st.active_optional ++ cfg.global_optional_args := by
  by_cases hc : st.current_subcommand.isSome
  · rw [lookup_bundled_eq hc] at h
    obtain ⟨hm, hn⟩ := lookup_option_marked h
    exact ⟨hm, named_mem hn⟩
  · unfold lookup_bundled at h
    cases hf : find_desc fits st.active_optional with
    | some r =>
      rw [hf] at h
      obtain ⟨st₁, hs, he⟩ := bind_eq_ok.mp h
      cases he
      exact ⟨see_subcommand_marked hs, List.mem_append_left _ (find_desc_mem hf)⟩
    | none =>
      simp only [hf, if_neg hc] at h
      cases h

variable {value : Bytes}

section
variable (hd : desc ∈ st.active_optional ++ cfg.global_optional_args)
    (hp : ∀ d ∈ st.pending, d ∈ st.active_optional ++ cfg.global_optional_args)
include hd hp

theorem apply_or_help_aside (h : apply_or_help p st desc value = .ok st') : Aside cfg st st' := by
  unfold apply_or_help at h
  split at h
  · next outs ho =>
    cases h
    exact ⟨rfl, rfl, rfl, rfl, hp, fun place hplace => apply_value_other ho (hplace desc hd)⟩
  · cases h

theorem raise_flag_aside : Aside cfg st (raise_flag st desc) :=
  ⟨rfl, rfl, rfl, rfl, hp, fun _ hplace => set_other (hplace desc hd).symm _⟩

theorem take_option_aside : Aside cfg st (take_option st desc) := by
  unfold take_option
  split
  · exact raise_flag_aside hd hp
  · refine ⟨rfl, rfl, rfl, rfl, ?_, fun _ _ => rfl⟩
    rintro d hd'
    obtain rfl : desc = d := Option.some.inj hd'
    exact hd

end

theorem parse_option_aside
    (hp : ∀ d ∈ st.pending, d ∈ st.active_optional ++ cfg.global_optional_args)
    (h : parse_option cfg st fits = .ok st') : Aside cfg st st' := by
  obtain ⟨⟨st₁, desc⟩, hl, he⟩ := bind_eq_ok.mp h
  obtain ⟨hm, hn⟩ := lookup_option_marked hl
  have hm := hm.aside hp
  cases he
  refine hm.trans (take_option_aside ?_ ?_)
  · rw [hm.optional]
    exact named_mem hn
  · rw [hm.optional]
    exact hm.pending

theorem parse_option_with_value_aside {key : Bytes}
    (hp : ∀ d ∈ st.pending, d ∈ st.active_optional ++ cfg.global_optional_args)
    (h : parse_option_with_value p cfg st key value = .ok st') : Aside cfg st st' := by
  obtain ⟨⟨st₁, desc⟩, hl, he⟩ := bind_eq_ok.mp h
  obtain ⟨hm, hn⟩ := lookup_option_marked hl
  have hm := hm.aside hp
  simp only at he
  split at he
  · cases he
  · refine hm.trans (apply_or_help_aside ?_ ?_ he)
    · rw [hm.optional]
      exact named_mem hn
    · rw [hm.optional]
      exact hm.pending

theorem parse_bundle_aside {keys : Bytes}
    (hp : ∀ d ∈ st.pending, d ∈ st.active_optional ++ cfg.global_optional_args)
    (h : parse_bundle cfg st keys = .ok st') : Aside cfg st st' := by
  induction keys generalizing st with
  | nil =>
    cases h
    exact ⟨rfl, rfl, rfl, rfl, hp, fun _ _ => rfl⟩
  | cons k keys ih =>
    rw [parse_bundle] at h
    obtain ⟨⟨st₁, desc⟩, hl, he⟩ := bind_eq_ok.mp h
    obtain ⟨hm, hd⟩ := lookup_bundled_marked hl
    have hm := hm.aside hp
    have hpending := hm.pending
    rw [← hm.optional] at hd hpending
    simp only at he
    split at he
    · have hr := raise_flag_aside hd hpending
      have hrest := hr.pending
      rw [← hr.optional] at hrest
      exact hm.trans (hr.trans (ih hrest he))
    · split at he
      · cases he
      · cases he
        refine hm.trans ⟨rfl, rfl, rfl, rfl, ?_, fun _ _ => rfl⟩
        rintro d hd'
        obtain rfl : desc = d := Option.some.inj hd'
        exact hd

/-- The argument goes to the required descriptors. -/
def operand (cfg : Config) (st : State F) (arg : Bytes) : Bool :=
  st.pending.isNone && (st.stop_options || lex_token arg = .positional) &&
    (cfg.subcommands.isEmpty || st.current_subcommand.isSome)

/-- The arguments of a run that go to the required descriptors. -/
def operands (p : Platform F) (cfg : Config) : State F → List Bytes → List Bytes
  | _, [] => []
  | st, arg :: args =>
    (if operand cfg st arg then [arg] else []) ++
      match parse_arg p cfg st arg with
      | .ok st' => operands p cfg st' args
      | .error _ => []

variable {arg : Bytes}

theorem operand_iff : operand cfg st arg = true ↔
    st.pending = none ∧ (st.stop_options = true ∨ lex_token arg = .positional) ∧
      (cfg.subcommands = [] ∨ st.current_subcommand.isSome) := by
  simp [operand, and_assoc]

theorem parse_arg_operand (h : operand cfg st arg = true) :
    parse_arg p cfg st arg = parse_positional p cfg st arg := by
  obtain ⟨hp, hs, -⟩ := operand_iff.1 h
  unfold parse_arg
  rw [hp]
  simp only
  split
  · rfl
  · next hstop =>
    rw [hs.resolve_left hstop]

/-- The required descriptors that can take an argument. -/
def Config.active (cfg : Config) (sel : Option ℕ) : List Desc :=
  if sel = none ∧ cfg.subcommands ≠ [] then [] else cfg.required sel

/-- What holds behind the positional arguments `ps`. -/
structure Taking (p : Platform F) (cfg : Config) (st : State F) (ps : List Bytes) : Prop where
  optional : st.active_optional = cfg.optional st.current_subcommand
  required : st.active_required = cfg.active st.current_subcommand
  pending : ∀ d ∈ st.pending, d ∈ st.active_optional ++ cfg.global_optional_args
  waiting : st.current_subcommand = none → cfg.subcommands ≠ [] →
    ps = [] ∧ ∀ sel, ∀ d ∈ cfg.required sel, Empty st.outs d
  shared : ∃ done tail runs, st.active_required = done ++ tail ∧
    st.required_args_idx = done.length ∧ Shared p st.outs done tail runs ∧
    ps = runs.flatten ++ filling st.outs tail

theorem active_subset {sel : Option ℕ} : ∀ d ∈ cfg.active sel, d ∈ cfg.required sel := by
  unfold Config.active
  split
  · simp
  · exact fun _ => id

theorem active_selected {i : ℕ} : cfg.active (some i) = cfg.required (some i) := if_neg (by simp)

variable {ps : List Bytes} {outs : Outs F}

theorem active_distinct (hw : cfg.Sound outs) (sel : Option ℕ) :
    ((cfg.active sel).map Desc.value_out).Nodup := by
  unfold Config.active
  split
  · exact List.nodup_nil
  · exact hw.distinct sel

theorem Taking.aside (hw : cfg.Sound outs) (h : Taking p cfg st ps) (ha : Aside cfg st st') :
    Taking p cfg st' ps := by
  have houts : ∀ sel, ∀ d ∈ cfg.required sel, (sel = st.current_subcommand ∨
      st.current_subcommand = none) → st'.outs d.value_out = st.outs d.value_out := by
    intro sel d hd hsel
    refine ha.outs _ fun o ho => hw.apart sel d hd o ?_
    rw [h.optional] at ho
    rcases hsel with rfl | hnone
    · exact ho
    · rw [hnone, Config.optional] at ho
      exact List.mem_append_right _ (by simpa using ho)
  obtain ⟨done, tail, runs, hact, hidx, hs, rfl⟩ := h.shared
  have hown : ∀ d ∈ done ++ tail, st'.outs d.value_out = st.outs d.value_out := by
    intro d hd
    rw [← hact, h.required] at hd
    exact houts _ d (active_subset d hd) (.inl rfl)
  refine ⟨?_, ?_, ?_, ?_, ?_⟩
  · rw [ha.optional, ha.current, h.optional]
  · rw [ha.required, ha.current, h.required]
  · rw [ha.optional]
    exact ha.pending
  · intro hc hsub
    rw [ha.current] at hc
    obtain ⟨hps, hempty⟩ := h.waiting hc hsub
    exact ⟨hps, fun sel d hd => (hempty sel d hd).congr (houts sel d hd (.inr hc))⟩
  · refine ⟨done, tail, runs, ha.required.trans hact, ha.idx.trans hidx, hs.congr hown, ?_⟩
    rw [filling_congr fun d hd => hown d (List.mem_append_right _ hd)]

theorem Taking.enter (hw : cfg.Sound outs) (h : Taking p cfg st ps)
    (hc : st.current_subcommand = none) (hsub : cfg.subcommands ≠ []) (hp : st.pending = none)
    {i : ℕ} {sub : SubCommand} (hs : select_subcommand arg cfg.subcommands = some (i, sub)) :
    Taking p cfg (enter_subcommand p st i sub) ps := by
  have hget : cfg.subcommands[i]? = some sub := select_subcommand_get hs
  have hreq : cfg.required (some i) = sub.required_args := by simp [Config.required, hget]
  have hopt : cfg.optional (some i) = sub.optional_args := by simp [Config.optional, hget]
  obtain ⟨rfl, hempty⟩ := h.waiting hc hsub
  have hfresh : ∀ d ∈ sub.required_args,
      Empty (apply_env_vars p st.outs sub.optional_args) d := by
    intro d hd
    rw [← hreq] at hd
    refine (hempty _ d hd).congr (apply_env_vars_other fun o ho => ?_)
    exact hw.apart _ d hd o (List.mem_append_left _ (by rw [hopt]; exact ho))
  refine ⟨hopt.symm, ?_, ?_, fun hn => (nomatch hn), ?_⟩
  · exact (active_selected.trans hreq).symm
  · change ∀ d ∈ st.pending, _
    rw [hp]
    exact fun d hd => nomatch hd
  · refine ⟨[], sub.required_args, [], rfl, rfl, ⟨.nil, .nil, ?_, ?_⟩, ?_⟩
    · change ∀ d ∈ _, (filling (apply_env_vars p st.outs sub.optional_args) _).length ≤ _
      rw [filling_empty hfresh]
      exact fun _ _ => Nat.zero_le _
    · exact fun d hd => hfresh d (List.mem_of_mem_tail hd)
    · exact (filling_empty hfresh).symm

variable {α : Type}

theorem getElem?_at (done tail : List α) : (done ++ tail)[done.length]? = tail.head? := by
  rw [List.getElem?_append_right (Nat.le_refl _), Nat.sub_self, List.head?_eq_getElem?]

theorem getElem?_behind (done tail : List α) : (done ++ tail)[done.length + 1]? = tail[1]? := by
  rw [List.getElem?_append_right (Nat.le_succ _)]
  congr 1
  omega

theorem apply_or_help_ok (h : apply_or_help p st desc value = .ok st') :
    ∃ outs, apply_value p st.outs desc value = some outs ∧ st' = { st with outs := outs } := by
  unfold apply_or_help at h
  split at h
  · next outs ho =>
    cases h
    exact ⟨outs, ho, rfl⟩
  · cases h

theorem Taking.take (hw : cfg.Sound outs) (h : Taking p cfg st ps) (ho : operand cfg st arg = true)
    (hr : parse_arg p cfg st arg = .ok st') : Taking p cfg st' (ps ++ [arg]) := by
  obtain ⟨hpend, -, hmode⟩ := operand_iff.1 ho
  have hnot : ¬ (st.current_subcommand = none ∧ cfg.subcommands ≠ []) := by
    rintro ⟨hc, hsub⟩
    rw [hc] at hmode
    simp [hsub] at hmode
  obtain ⟨done, tail, runs, hact, hidx, hs, rfl⟩ := h.shared
  have hn : ((done ++ tail).map Desc.value_out).Nodup := by
    rw [← hact, h.required]
    exact active_distinct hw _
  have hmem : ∀ d ∈ done ++ tail, d.is_flag = false ∧ 0 < d.capacity := by
    intro d hd
    rw [← hact, h.required] at hd
    exact ⟨hw.single _ d (active_subset d hd), hw.list _ d (active_subset d hd)⟩
  have hdone : ∀ {st₁ : State F} {ps' : List Bytes},
      st₁.current_subcommand = st.current_subcommand → st₁.active_optional = st.active_optional →
      st₁.active_required = st.active_required → st₁.pending = st.pending →
      (∃ done tail runs, st₁.active_required = done ++ tail ∧
        st₁.required_args_idx = done.length ∧ Shared p st₁.outs done tail runs ∧
        ps' = runs.flatten ++ filling st₁.outs tail) → Taking p cfg st₁ ps' := by
    intro st₁ ps' hc ha hr hp hshared
    refine ⟨by rw [ha, hc, h.optional], by rw [hr, hc, h.required], ?_, ?_, hshared⟩
    · rw [hp, ha]
      exact h.pending
    · rw [hc]
      exact fun hc hsub => absurd ⟨hc, hsub⟩ hnot
  rw [parse_arg_operand ho, parse_positional, if_neg hnot, hact, hidx, getElem?_at,
    getElem?_behind] at hr
  cases tail with
  | nil => cases hr
  | cons desc behind =>
    simp only [List.head?_cons] at hr
    obtain ⟨hflag, -⟩ := hmem desc (by simp)
    cases hl : desc.is_list with
    | none =>
      simp only [hl] at hr
      obtain ⟨outs', ha, rfl⟩ := apply_or_help_ok hr
      obtain ⟨hs', hfill⟩ := hs.single hn hl hflag ha
      refine hdone rfl rfl hact.symm rfl
        ⟨done ++ [desc], behind, runs ++ [[arg]], by simp, by simp, hs', ?_⟩
      rw [hfill, filling, hl]
      simp
    | some max_count =>
      simp only [hl] at hr
      split at hr
      · next hlt =>
        obtain ⟨outs', ha, rfl⟩ := apply_or_help_ok hr
        obtain ⟨hs', hfill⟩ := hs.fill hn hl hlt ha
        refine hdone rfl rfl rfl rfl ⟨done, desc :: behind, runs, hact, hidx, hs', ?_⟩
        rw [hfill, List.append_assoc]
      · next hfull =>
        cases behind with
        | nil => cases hr
        | cons desc' behind =>
          simp only [List.getElem?_cons_succ, List.getElem?_cons_zero] at hr
          obtain ⟨outs', ha, rfl⟩ := apply_or_help_ok hr
          obtain ⟨hflag', hcap⟩ := hmem desc' (by simp)
          have hpos := (hmem desc (by simp)).2
          rw [capacity_list hl] at hpos
          obtain ⟨hs', hfill⟩ := hs.hand hn hl hpos hfull hflag' hcap ha
          refine hdone rfl rfl hact.symm rfl
            ⟨done ++ [desc, desc'], behind, _, by simp, by simp, hs', ?_⟩
          rw [hfill]
          simp

theorem parse_positional_waiting (hc : st.current_subcommand = none) (hsub : cfg.subcommands ≠ [])
    (h : parse_positional p cfg st arg = .ok st') :
    ∃ i sub, select_subcommand arg cfg.subcommands = some (i, sub) ∧
      st' = enter_subcommand p st i sub := by
  rw [parse_positional, if_pos ⟨hc, hsub⟩] at h
  split at h
  · next i sub hs =>
    cases h
    exact ⟨i, sub, hs, rfl⟩
  · cases h

theorem aside_of_outs {outs' : Outs F} (hp : st.pending = none) {stop : Bool}
    (ho : ∀ place, (∀ d ∈ st.active_optional ++ cfg.global_optional_args, d.value_out ≠ place) →
      outs' place = st.outs place) : Aside cfg st { st with outs := outs', stop_options := stop } :=
  ⟨rfl, rfl, rfl, rfl, by simp [hp], ho⟩

theorem Taking.other (hw : cfg.Sound outs) (h : Taking p cfg st ps)
    (ho : operand cfg st arg = false) (hr : parse_arg p cfg st arg = .ok st') :
    Taking p cfg st' ps := by
  cases hp : st.pending with
  | some desc =>
    unfold parse_arg at hr
    simp only [hp] at hr
    obtain ⟨outs', ha, rfl⟩ := apply_or_help_ok hr
    refine h.aside hw ⟨rfl, rfl, rfl, rfl, by simp, fun place hplace => ?_⟩
    exact apply_value_other ha (hplace desc (h.pending desc (by rw [hp]; rfl)))
  | none =>
    have hpend : ∀ d ∈ st.pending, d ∈ st.active_optional ++ cfg.global_optional_args := h.pending
    have hpos : (st.stop_options = true ∨ lex_token arg = .positional) →
        parse_positional p cfg st arg = .ok st' → Taking p cfg st' ps := by
      intro hs hr
      have hwait : cfg.subcommands ≠ [] ∧ st.current_subcommand = none := by
        simpa [operand, hp, hs] using ho
      obtain ⟨i, sub, hsel, rfl⟩ := parse_positional_waiting hwait.2 hwait.1 hr
      exact h.enter hw hwait.2 hwait.1 hp hsel
    cases hs : st.stop_options with
    | true =>
      unfold parse_arg at hr
      simp only [hp, hs, if_pos] at hr
      exact hpos (.inl hs) hr
    | false =>
      rw [parse_arg_reading p ⟨hp, hs⟩] at hr
      cases ht : lex_token arg with
      | positional =>
        simp only [ht] at hr
        exact hpos (.inr ht) hr
      | dash_dash =>
        simp only [ht] at hr
        cases hr
        exact h.aside hw (aside_of_outs hp fun _ _ => rfl)
      | help =>
        simp only [ht] at hr
        cases hr
      | option key =>
        simp only [ht] at hr
        exact h.aside hw (parse_option_aside hpend hr)
      | option_with_value key value =>
        simp only [ht] at hr
        exact h.aside hw (parse_option_with_value_aside hpend hr)
      | short_option key =>
        simp only [ht] at hr
        split at hr
        · exact h.aside hw (parse_bundle_aside hpend hr)
        · exact h.aside hw (parse_option_aside hpend hr)

theorem Taking.run (hw : cfg.Sound outs) {args : List Bytes} (h : Taking p cfg st ps)
    (hr : parse_args p cfg st args = .ok st') : Taking p cfg st' (ps ++ operands p cfg st args) := by
  induction args generalizing st ps with
  | nil =>
    cases hr
    simpa [operands] using h
  | cons arg args ih =>
    rw [parse_args, List.foldlM_cons] at hr
    obtain ⟨st₁, ha, hr⟩ := bind_eq_ok.mp hr
    rw [operands, ha]
    simp only
    cases ho : operand cfg st arg with
    | true => simpa using ih (h.take hw ho ha) hr
    | false => simpa using ih (h.other hw ho ha) hr

theorem taking_initial (hw : cfg.Sound outs) : Taking p cfg (initial p cfg outs) [] := by
  have hempty : ∀ sel, ∀ d ∈ cfg.required sel, Empty (initial p cfg outs).outs d := by
    intro sel d hd
    refine (hw.fresh sel d hd).congr (apply_env_vars_other fun o ho => ?_)
    exact hw.apart sel d hd o (List.mem_append_right _ ho)
  have hact : (initial p cfg outs).active_required = cfg.active none := by
    by_cases hs : cfg.subcommands = [] <;> simp [initial, Config.active, Config.required, hs]
  have hfresh : ∀ d ∈ (initial p cfg outs).active_required, Empty (initial p cfg outs).outs d := by
    rw [hact]
    exact fun d hd => hempty _ d (active_subset d hd)
  refine ⟨rfl, hact, by simp [initial], fun _ _ => ⟨rfl, hempty⟩, ?_⟩
  refine ⟨[], (initial p cfg outs).active_required, [], rfl, rfl, ⟨.nil, .nil, ?_, ?_⟩, ?_⟩
  · rw [filling_empty hfresh]
    exact fun _ _ => Nat.zero_le _
  · exact fun d hd => hfresh d (List.mem_of_mem_tail hd)
  · exact (filling_empty hfresh).symm

/-- There is no descriptor for another argument. -/
def State.unexpected (st : State F) : Prop :=
  match st.active_required[st.required_args_idx]? with
  | none => True
  | some desc =>
    match desc.is_list with
    | none => False
    | some max_count => ¬ (st.outs desc.value_out).items.length < max_count ∧
        st.active_required[st.required_args_idx + 1]? = none

section
variable (hw : cfg.Sound outs) (h : Taking p cfg st ps)
include hw h

theorem Taking.capacity_pos : ∀ desc ∈ st.active_required, 0 < desc.capacity := by
  rw [h.required]
  exact fun d hd => hw.list _ d (active_subset d hd)

/-- An argument is reported as unexpected with good reason, whatever follows, if and only if
the lists are steady. -/
theorem Taking.unexpected_iff (hu : st.unexpected) (arg : Bytes) :
    (∀ more runs, ¬ Split st.active_required (ps ++ arg :: more) runs) ↔ Steady st.active_required
    (ps.length + 1) := by
  have hpos := h.capacity_pos hw
  obtain ⟨done, tail, runs, hact, hidx, hs, rfl⟩ := h.shared
  rw [State.unexpected, hact, hidx, getElem?_at, getElem?_behind] at hu
  rw [hact] at hpos ⊢
  have hend : tail.length ≤ 1 ∧ (filling st.outs tail).length = room tail := by
    cases tail with
    | nil => exact ⟨Nat.zero_le 1, rfl⟩
    | cons desc behind =>
      simp only [List.head?_cons] at hu
      cases hl : desc.is_list with
      | none => simp [hl] at hu
      | some max_count =>
        simp only [hl, List.getElem?_cons_succ, ← List.head?_eq_getElem?,
          List.head?_eq_none_iff] at hu
        obtain ⟨hfull, rfl⟩ := hu
        have hle := hs.le desc rfl
        rw [filling_list hl, capacity_list hl] at hle
        rw [filling_list hl, room_cons, capacity_list hl, room_nil]
        exact ⟨Nat.le_refl 1, by omega⟩
  obtain ⟨hshort, hfill⟩ := hend
  have hdone : ∀ d ∈ done, 0 < d.capacity := fun d hd => hpos d (List.mem_append_left _ hd)
  have hiff := hs.closed.full_iff hdone hshort (room tail)
  have hle := hs.closed.le_room hdone
  rw [List.length_append, hfill, Nat.add_assoc, hiff]
  constructor
  · intro hno
    by_contra hne
    have hlen : (runs.flatten ++ filling st.outs tail ++
        arg :: List.replicate (room done - runs.flatten.length - 1) []).length =
          room (done ++ tail) := by
      simp only [List.length_append, List.length_cons, List.length_replicate, room_append]
      omega
    obtain ⟨runs', hsplit⟩ := exists_split hpos hlen
    exact hno _ _ hsplit
  · intro heq more runs' hsplit
    have hlen := hsplit.length_le
    simp only [List.length_append, List.length_cons, room_append] at hlen
    omega

/-- When the descriptors have their arguments, these make up the split if and only if the
lists are steady. -/
theorem Taking.given_iff (hg : positionals_given st = true) :
    (∃ runs, Split st.active_required ps runs ∧ List.Forall₂ (Holds p st.outs) st.active_required runs)
    ↔ Steady st.active_required ps.length := by
  have hpos := h.capacity_pos hw
  obtain ⟨done, tail, runs, hact, hidx, hs, rfl⟩ := h.shared
  rw [positionals_given, hact, hidx, getElem?_at, getElem?_behind] at hg
  rw [hact] at hpos ⊢
  have hdone : ∀ d ∈ done, 0 < d.capacity := fun d hd => hpos d (List.mem_append_left _ hd)
  have hend : tail.length ≤ 1 ∧ ∃ last, Split tail (filling st.outs tail) last ∧
      List.Forall₂ (Holds p st.outs) tail last := by
    cases tail with
    | nil => exact ⟨Nat.zero_le 1, [], .nil, .nil⟩
    | cons desc behind =>
      simp only [List.head?_cons, List.getElem?_cons_succ, ← List.head?_eq_getElem?,
        Bool.and_eq_true, decide_eq_true_eq, Option.isNone_iff_eq_none,
        List.head?_eq_none_iff] at hg
      obtain ⟨⟨hl, hitems⟩, rfl⟩ := hg
      obtain ⟨max_count, hl⟩ := Option.isSome_iff_exists.1 hl
      have hne : filling st.outs [desc] ≠ [] := by
        rw [filling_list hl]
        exact hitems
      refine ⟨Nat.le_refl 1, [filling st.outs [desc]], ?_, .cons (holds_filling hne) .nil⟩
      simpa using Split.cons hne (hs.le desc rfl) (.inr rfl) .nil
  obtain ⟨hshort, last, hlast, hheld⟩ := hend
  have hall : List.Forall₂ (Holds p st.outs) (done ++ tail) (runs ++ last) :=
    List.rel_append hs.holds hheld
  rw [List.length_append]
  constructor
  · rintro ⟨runs', hsplit, hholds⟩
    rw [← List.length_append]
    refine @Closed.steady_of_split _ _ _ last _ _ hs.closed hshort hsplit ?_
    exact forall₂_length_eq hall hholds
  · intro hst
    exact ⟨runs ++ last, hs.closed.split hdone hst hlast, hall⟩

theorem Taking.missing (hg : positionals_given st = false) (runs' : List (List Bytes)) :
    ¬ Split st.active_required ps runs' := by
  have hpos := h.capacity_pos hw
  obtain ⟨done, tail, runs, hact, hidx, hs, rfl⟩ := h.shared
  rw [positionals_given, hact, hidx, getElem?_at, getElem?_behind] at hg
  rw [hact] at hpos ⊢
  have hle := hs.closed.le_room fun d hd => hpos d (List.mem_append_left _ hd)
  intro hsplit
  cases tail with
  | nil => cases hg
  | cons desc behind =>
    have hlt := hsplit.lt_length (List.cons_ne_nil _ _)
    rw [List.length_append] at hlt
    have hne : filling st.outs (desc :: behind) ≠ [] := List.ne_nil_of_length_pos (by omega)
    have hbehind : behind ≠ [] := by
      rintro rfl
      rw [filling] at hne
      split at hne
      · next hl => simp [hl, hne] at hg
      · exact hne rfl
    have hsplit' : Split ((done ++ [desc]) ++ behind) (runs.flatten ++ filling st.outs (desc :: behind))
        runs' := by simpa using hsplit
    have hlt := hsplit'.lt_length hbehind
    have hroom := hs.le desc rfl
    rw [List.length_append, room_append, room_cons, room_nil] at hlt
    omega

end

def Stopped (o : Outcome F) : Prop := ∀ result, o = .ended result → result.returned = false

theorem print_help_stops : Meets Stopped (fun _ => True) (print_help st : Run F α) := by
  rintro result h
  cases h
  rfl

theorem see_subcommand_stops (i : ℕ) : Meets Stopped (fun _ => True) (see_subcommand st i) := by
  unfold see_subcommand
  split
  · exact fun result h => nomatch h
  · trivial

theorem apply_or_help_stops (desc : Desc) (value : Bytes) :
    Meets Stopped (fun _ => True) (apply_or_help p st desc value) := by
  unfold apply_or_help
  split
  · trivial
  · exact print_help_stops

theorem lookup_option_stops (fits : Desc → Bool) :
    Meets Stopped (fun _ => True) (lookup_option cfg st fits) := by
  unfold lookup_option
  cases find_desc fits st.active_optional with
  | some r =>
    simp only
    split
    · exact (see_subcommand_stops r.1).bind fun _ _ => trivial
    · trivial
  | none =>
    simp only
    split
    · cases find_desc fits cfg.global_optional_args with
      | some r => trivial
      | none => exact print_help_stops
    · exact print_help_stops

theorem lookup_bundled_stops (fits : Desc → Bool) :
    Meets Stopped (fun _ => True) (lookup_bundled cfg st fits) := by
  unfold lookup_bundled
  cases find_desc fits st.active_optional with
  | some r => exact (see_subcommand_stops r.1).bind fun _ _ => trivial
  | none =>
    simp only
    split
    · cases find_desc fits cfg.global_optional_args with
      | some r => trivial
      | none => exact print_help_stops
    · exact print_help_stops

theorem parse_bundle_stops (keys : Bytes) :
    Meets Stopped (fun _ => True) (parse_bundle cfg st keys) := by
  induction keys generalizing st with
  | nil => trivial
  | cons k keys ih =>
    rw [parse_bundle]
    refine (lookup_bundled_stops _).bind fun r _ => ?_
    simp only
    split
    · exact ih
    · split
      · exact print_help_stops
      · trivial

theorem parse_option_stops (fits : Desc → Bool) :
    Meets Stopped (fun _ => True) (parse_option cfg st fits) :=
  (lookup_option_stops fits).bind fun _ _ => trivial

theorem parse_option_with_value_stops (key value : Bytes) :
    Meets Stopped (fun _ => True) (parse_option_with_value p cfg st key value) := by
  refine (lookup_option_stops _).bind fun r _ => ?_
  simp only
  split
  · exact print_help_stops
  · exact apply_or_help_stops _ _

theorem parse_positional_stops (arg : Bytes) :
    Meets Stopped (fun _ => True) (parse_positional p cfg st arg) := by
  unfold parse_positional
  split
  · split
    · trivial
    · exact print_help_stops
  · split
    · exact print_help_stops
    · split
      · exact apply_or_help_stops _ _
      · split
        · exact apply_or_help_stops _ _
        · split
          · exact print_help_stops
          · exact apply_or_help_stops _ _

theorem parse_arg_stops (arg : Bytes) : Meets Stopped (fun _ => True) (parse_arg p cfg st arg) := by
  cases hp : st.pending with
  | some desc =>
    rw [parse_arg, hp]
    exact apply_or_help_stops _ _
  | none =>
    cases hs : st.stop_options with
    | true =>
      rw [parse_arg, hp]
      simp only
      rw [hs, if_pos rfl]
      exact parse_positional_stops arg
    | false =>
      rw [parse_arg_reading p ⟨hp, hs⟩]
      cases lex_token arg with
      | dash_dash => trivial
      | help => exact print_help_stops
      | option key => exact parse_option_stops _
      | option_with_value key value => exact parse_option_with_value_stops key value
      | positional => exact parse_positional_stops arg
      | short_option key =>
        simp only
        split
        · exact parse_bundle_stops key
        · exact parse_option_stops _

theorem parse_args_stops (args : List Bytes) :
    Meets Stopped (fun _ => True) (parse_args p cfg st args) := by
  induction args generalizing st with
  | nil => trivial
  | cons arg args ih =>
    rw [parse_args, List.foldlM_cons]
    exact (parse_arg_stops arg).bind fun _ _ => ih

variable (p cfg) (outs : Outs F) (argv : List Bytes)

/-- Behind the positional arguments before it, the last of `ps` is reported as unexpected. -/
def ReportsUnexpected (descs : List Desc) (ps : List Bytes) : Prop :=
  ∃ first arg rest st, active_args p argv = first ++ arg :: rest ∧
    parse_args p cfg (initial p cfg outs) first = .ok st ∧ operand cfg st arg = true ∧
    st.unexpected ∧ st.active_required = descs ∧
    operands p cfg (initial p cfg outs) first ++ [arg] = ps

def ReportsMissing (descs : List Desc) (ps : List Bytes) : Prop :=
  ∃ st, parse_args p cfg (initial p cfg outs) (active_args p argv) = .ok st ∧ st.pending = none ∧
    positionals_given st = false ∧ st.active_required = descs ∧
    operands p cfg (initial p cfg outs) (active_args p argv) = ps

/-- The positional arguments are split between the required descriptors, and a report says
that they cannot be. -/
structure Greedy : Prop where
  returned : ∀ result, cmd_arger_parse_internal p cfg outs argv = .ended result →
    result.returned = true → ∃ runs,
      Split (cfg.required result.selected_subcommand)
        (operands p cfg (initial p cfg outs) (active_args p argv)) runs ∧
      List.Forall₂ (Holds p result.outs) (cfg.required result.selected_subcommand) runs
  unexpected : ∀ descs ps more runs, ReportsUnexpected p cfg outs argv descs ps →
    ¬ Split descs (ps ++ more) runs
  missing : ∀ descs ps runs, ReportsMissing p cfg outs argv descs ps → ¬ Split descs ps runs

/-- No list behind a full one has more than one argument left to it. -/
structure Steadily : Prop where
  returned : ∀ result, cmd_arger_parse_internal p cfg outs argv = .ended result →
    result.returned = true → Steady (cfg.required result.selected_subcommand)
      (operands p cfg (initial p cfg outs) (active_args p argv)).length
  unexpected : ∀ descs ps, ReportsUnexpected p cfg outs argv descs ps → Steady descs ps.length

variable {p cfg outs argv}

theorem taking_run (hw : cfg.Sound outs) {args : List Bytes}
    (hr : parse_args p cfg (initial p cfg outs) args = .ok st) :
    Taking p cfg st (operands p cfg (initial p cfg outs) args) :=
  (taking_initial hw).run hw hr

theorem returned_given {result : Result F}
    (h : cmd_arger_parse_internal p cfg outs argv = .ended result) (hr : result.returned = true) :
    ∃ st, parse_args p cfg (initial p cfg outs) (active_args p argv) = .ok st ∧
      positionals_given st = true ∧ result.outs = st.outs ∧
      result.selected_subcommand = st.current_subcommand ∧
      cfg.active st.current_subcommand = cfg.required st.current_subcommand := by
  unfold cmd_arger_parse_internal at h
  cases hp : parse_args p cfg (initial p cfg outs) (active_args p argv) with
  | error o =>
    rw [hp] at h
    have hs := (parse_args_stops _).of_error hp result h
    rw [hs] at hr
    cases hr
  | ok st =>
    rw [hp] at h
    simp only [ending, finish, State.result] at h
    split_ifs at h with hpend hgiven hglobal hsub hnone <;> cases h <;> try cases hr
    refine ⟨st, rfl, by simpa using hgiven, rfl, rfl, if_neg ?_⟩
    rintro ⟨hc, hne⟩
    exact hnone ⟨hne, hc⟩

/-- Each positional argument goes where the split puts it, and a report of one is right, if and
only if the lists are steady. -/
theorem positionals_greedy (hw : cfg.Sound outs) :
    Greedy p cfg outs argv ↔ Steadily p cfg outs argv := by
  have hreturned : ∀ result, cmd_arger_parse_internal p cfg outs argv = .ended result →
      result.returned = true → ((∃ runs, Split (cfg.required result.selected_subcommand)
        (operands p cfg (initial p cfg outs) (active_args p argv)) runs ∧
        List.Forall₂ (Holds p result.outs) (cfg.required result.selected_subcommand) runs) ↔
          Steady (cfg.required result.selected_subcommand)
            (operands p cfg (initial p cfg outs) (active_args p argv)).length) := by
    intro result hres hret
    obtain ⟨st, hrun, hgiven, houts, hsel, hact⟩ := returned_given hres hret
    have ht := taking_run hw hrun
    have hiff := ht.given_iff hw hgiven
    rw [ht.required, hact] at hiff
    rw [houts, hsel]
    exact hiff
  have hunexpected : ∀ descs ps, ReportsUnexpected p cfg outs argv descs ps →
      ((∀ more runs, ¬ Split descs (ps ++ more) runs) ↔ Steady descs ps.length) := by
    rintro descs ps ⟨first, arg, rest, st, -, hrun, -, hu, rfl, rfl⟩
    simpa using (taking_run hw hrun).unexpected_iff hw hu arg
  constructor
  · intro hg
    exact ⟨fun result hres hret => (hreturned result hres hret).1 (hg.returned result hres hret),
      fun descs ps hrep => (hunexpected descs ps hrep).1 fun more runs =>
        hg.unexpected descs ps more runs hrep⟩
  · intro hs
    refine ⟨fun result hres hret => (hreturned result hres hret).2 (hs.returned result hres hret),
      fun descs ps more runs hrep => (hunexpected descs ps hrep).2 (hs.unexpected descs ps hrep)
        more runs, ?_⟩
    rintro descs ps runs ⟨st, hrun, -, hmiss, rfl, rfl⟩
    exact (taking_run hw hrun).missing hw hmiss runs

end

def plainDesc (kind : Kind) (place : ℕ) : Desc where
  name := []
  short_name := none
  env_var := none
  kind := kind
  value_out := place
  validator := none
  is_required := true

def silent : Platform Unit where
  strtod := fun text => ((), text)
  getenv := fun _ => none
  read_file := fun _ => none

def requiring (descs : List Desc) : Config := ⟨[], descs, []⟩

theorem requiring_sound {descs : List Desc} (hd : (descs.map Desc.value_out).Nodup)
    (hs : ∀ d ∈ descs, d.is_flag = false) (hc : ∀ d ∈ descs, 0 < d.capacity) :
    (requiring descs).Sound fun _ => (.list [] : Out Unit) := by
  have hsub : ∀ sel, ∀ d ∈ (requiring descs).required sel, d ∈ descs := by
    rintro (_ | i) d hd
    · exact hd
    · simp [Config.required, requiring] at hd
  refine ⟨?_, ?_, fun sel d h => hs d (hsub sel d h), fun sel d h => hc d (hsub sel d h),
    fun _ _ _ _ => rfl⟩
  · rintro (_ | i)
    · exact hd
    · simp [Config.required, requiring]
  · rintro (_ | i) d hd o ho <;> simp [Config.optional, requiring] at ho

/-- A list of two and a single value. -/
theorem positionals_greedy_three :
    Greedy silent (requiring [plainDesc (.string_list 2) 0, plainDesc (.string []) 1])
      (fun _ => .list []) [[112], [97], [98], [99]] := by
  have hsteady : ∀ sel n, Steady
      ((requiring [plainDesc (.string_list 2) 0, plainDesc (.string []) 1]).required sel) n := by
    rintro (_ | i) n
    · exact ⟨.inl rfl, trivial⟩
    · simp [Config.required, requiring, Steady]
  have hsound : (requiring [plainDesc (.string_list 2) 0, plainDesc (.string []) 1]).Sound
      fun _ => (.list [] : Out Unit) :=
    requiring_sound (by decide) (by decide) (by decide)
  refine (positionals_greedy hsound).2 ⟨fun result _ _ => hsteady _ _, ?_⟩
  rintro descs ps ⟨first, arg, rest, st, -, hrun, -, -, rfl, rfl⟩
  have hreq := (taking_run hsound hrun).required
  rw [hreq, Config.active, if_neg (fun h => h.2 rfl)]
  exact hsteady _ _

/-- The second of two lists gets one of the two arguments that are left, and the other is
reported as unexpected. -/
theorem positionals_not_greedy : ¬ ∀ (p : Platform Unit) (cfg : Config) (outs : Outs Unit)
    (argv : List Bytes), cfg.Sound outs → Greedy p cfg outs argv := by
  intro h
  have hg := h silent (requiring [plainDesc (.string_list 1) 0, plainDesc (.string_list 2) 1])
    (fun _ => .list []) [[112], [97], [98], [99]]
    (requiring_sound (by decide) (by decide) (by decide))
  have hrep : ReportsUnexpected silent
      (requiring [plainDesc (.string_list 1) 0, plainDesc (.string_list 2) 1])
      (fun _ => .list []) [[112], [97], [98], [99]]
      [plainDesc (.string_list 1) 0, plainDesc (.string_list 2) 1] [[97], [98], [99]] :=
    ⟨[[97], [98]], [99], [], _, rfl, rfl, rfl, trivial, rfl, rfl⟩
  refine hg.unexpected _ _ [] [[[97]], [[98], [99]]] hrep ?_
  have hlast : Split [plainDesc (.string_list 2) 1] ([[98], [99]] ++ []) [[[98], [99]]] :=
    .cons (by simp) (Nat.le_refl 2) (.inl rfl) .nil
  exact @Split.cons _ _ [[97]] _ _ (by simp) (Nat.le_refl 1) (.inl rfl) hlast

end SaltsUtils.Cmd
