import Mathlib.Data.List.TakeWhile
import SaltsUtils.Cmd.Parser
import SaltsUtils.Library.Outcome

/-!
# Spellings of options

Where a spelling can stand for another, the parser goes through the same states for both.
-/

set_option autoImplicit false

namespace SaltsUtils.Cmd

variable {F : Type}

variable {fits : Desc → Bool} {descs : List Desc} {i : ℕ} {desc : Desc}

theorem find_desc_some (h : find_desc fits descs = some (i, desc)) :
    descs[i]? = some desc ∧ fits desc = true := by
  induction descs generalizing i with
  | nil => cases h
  | cons d descs ih =>
    rw [find_desc] at h
    split at h
    · next hd =>
      cases h
      exact ⟨rfl, hd⟩
    · obtain ⟨⟨j, d'⟩, hj, he⟩ := Option.map_eq_some_iff.mp h
      cases he
      exact ih hj

theorem find_desc_none (h : ∀ desc ∈ descs, fits desc = false) : find_desc fits descs = none := by
  induction descs with
  | nil => rfl
  | cons d descs ih =>
    rw [find_desc, h d List.mem_cons_self, if_neg Bool.false_ne_true,
      ih fun desc hd => h desc (List.mem_cons_of_mem _ hd)]
    rfl

theorem find_desc_name (hn : (descs.map Desc.name).Nodup) (h : descs[i]? = some desc) :
    find_desc (by_name desc.name) descs = some (i, desc) := by
  induction descs generalizing i with
  | nil => cases h
  | cons d descs ih =>
    rw [List.map_cons, List.nodup_cons] at hn
    cases i with
    | zero =>
      cases h
      rw [find_desc, by_name, decide_eq_true rfl, if_pos rfl]
    | succ i =>
      have h : descs[i]? = some desc := h
      have hne : by_name desc.name d = false := by
        rw [by_name, decide_eq_false_iff_not]
        intro he
        exact hn.1 (he ▸ List.mem_map_of_mem (List.mem_of_getElem? h))
      rw [find_desc, hne, if_neg Bool.false_ne_true, ih hn.2 h]
      rfl

/-- The names of the options that can be given together are different. -/
structure Config.Distinct (cfg : Config) : Prop where
  globals : (cfg.global_optional_args.map Desc.name).Nodup
  subcommand : ∀ sub ∈ cfg.subcommands,
    ((sub.optional_args ++ cfg.global_optional_args).map Desc.name).Nodup

/-- The descriptor that an option stands for. -/
def named (cfg : Config) (st : State F) (fits : Desc → Bool) : Option Desc :=
  match find_desc fits st.active_optional with
  | some (_, desc) => some desc
  | none =>
    if st.current_subcommand.isSome then
      (find_desc fits cfg.global_optional_args).map Prod.snd
    else none

structure Marked (st st' : State F) : Prop where
  outs : st'.outs = st.outs
  current : st'.current_subcommand = st.current_subcommand
  optional : st'.active_optional = st.active_optional
  required : st'.active_required = st.active_required
  idx : st'.required_args_idx = st.required_args_idx
  stop : st'.stop_options = st.stop_options
  pending : st'.pending = st.pending
  table : st.seen_subcommand.isSome → st'.seen_subcommand.isSome

variable {st st' : State F}

theorem see_subcommand_marked (h : see_subcommand st i = .ok st') : Marked st st' := by
  unfold see_subcommand at h
  split at h
  · cases h
  · cases h
    exact ⟨rfl, rfl, rfl, rfl, rfl, rfl, rfl, fun _ => rfl⟩

theorem see_global_marked (st : State F) (i : ℕ) : Marked st (see_global st i) :=
  ⟨rfl, rfl, rfl, rfl, rfl, rfl, rfl, id⟩

variable {cfg : Config}

theorem lookup_option_marked (h : lookup_option cfg st fits = .ok (st', desc)) :
    Marked st st' ∧ named cfg st fits = some desc := by
  unfold lookup_option at h
  unfold named
  cases hf : find_desc fits st.active_optional with
  | some r =>
    obtain ⟨i, d⟩ := r
    rw [hf] at h
    simp only at h ⊢
    split at h
    · obtain ⟨st₁, hs, he⟩ := bind_eq_ok.mp h
      cases he
      exact ⟨see_subcommand_marked hs, rfl⟩
    · cases h
      exact ⟨see_global_marked st i, rfl⟩
  | none =>
    rw [hf] at h
    simp only at h ⊢
    split at h
    · next hc =>
      rw [if_pos hc]
      cases hg : find_desc fits cfg.global_optional_args with
      | some r =>
        obtain ⟨i, d⟩ := r
        rw [hg] at h
        cases h
        exact ⟨see_global_marked st i, rfl⟩
      | none =>
        rw [hg] at h
        cases h
    · cases h

theorem lookup_bundled_eq (hc : st.current_subcommand.isSome) (fits : Desc → Bool) :
    lookup_bundled cfg st fits = lookup_option cfg st fits := by
  unfold lookup_bundled lookup_option
  cases find_desc fits st.active_optional with
  | some r =>
    simp only
    rw [if_pos hc]
  | none => rfl

/-- The options of the arguments are looked at. -/
structure Reading (st : State F) : Prop where
  pending : st.pending = none
  stop : st.stop_options = false

theorem Marked.reading (h : Marked st st') (hr : Reading st) : Reading st' :=
  ⟨h.pending.trans hr.pending, h.stop.trans hr.stop⟩

theorem named_marked (h : Marked st st') (fits : Desc → Bool) :
    named cfg st' fits = named cfg st fits := by
  rw [named, named, h.optional, h.current]

theorem not_dash {c : ℕ} (h : is_alnum c = true) : c ≠ 45 := by
  rintro rfl
  exact Bool.noConfusion h

variable {keys : Bytes}

theorem lex_short {k : ℕ} (h : (k :: keys).all is_alnum = true) :
    lex_token (45 :: k :: keys) = .short_option (k :: keys) := by
  have hk : k ≠ 45 := not_dash (Bool.and_eq_true_iff.mp h).1
  unfold lex_token
  split
  · next he =>
    cases he
    exact absurd rfl hk
  · next he =>
    cases he
    rw [if_pos ⟨List.cons_ne_nil _ _, h⟩]
  · next hno =>
    exact absurd rfl (hno (k :: keys))

structure LongName (name : Bytes) : Prop where
  word : name.all is_word = true
  ne_nil : name ≠ []
  ne_help : name ≠ help_name

variable {name : Bytes}

theorem drop_while_word (h : name.all is_word = true) (rest : Bytes) :
    (name ++ 61 :: rest).dropWhile is_word = 61 :: rest ∧
      (name ++ 61 :: rest).takeWhile is_word = name := by
  have hall : ∀ c ∈ name, is_word c = true := List.all_eq_true.mp h
  rw [List.dropWhile_append_of_pos hall, List.takeWhile_append_of_pos hall]
  exact ⟨rfl, List.append_nil name⟩

theorem lex_long (h : LongName name) : lex_token (45 :: 45 :: name) = .option name := by
  have hd : name.dropWhile is_word = [] := List.dropWhile_eq_nil_iff.mpr (List.all_eq_true.mp h.word)
  rw [lex_token, if_neg h.ne_nil, if_neg h.ne_help, hd]

theorem lex_long_value (h : LongName name) (value : Bytes) :
    lex_token (45 :: 45 :: (name ++ 61 :: value)) = .option_with_value name value := by
  obtain ⟨hd, ht⟩ := drop_while_word h.word value
  have hne : name ++ 61 :: value ≠ [] := List.append_ne_nil_of_right_ne_nil _ (List.cons_ne_nil _ _)
  have hhelp : name ++ 61 :: value ≠ help_name := fun he => by
    have hmem : 61 ∈ help_name := he ▸ List.mem_append_right _ List.mem_cons_self
    exact absurd hmem (by decide)
  rw [lex_token, if_neg hne, if_neg hhelp, hd]
  simp only
  rw [ht, if_neg h.ne_nil]

/-- The second spelling stands for the first where the parser is in the state. -/
inductive Respelled (cfg : Config) (st : State F) : List Bytes → List Bytes → Prop
  | bundle {keys : Bytes} (hl : 1 < keys.length) (ha : keys.all is_alnum = true)
    (hc : st.current_subcommand.isSome)
    (hf : ∀ k ∈ keys.dropLast, ∀ desc, named cfg st (by_short [k]) = some desc →
      desc.is_flag = true) :
    Respelled cfg st [45 :: keys] (keys.map fun k => [45, k])
  | value {name value : Bytes} (hn : LongName name)
    (hf : ∀ desc, named cfg st (by_name name) = some desc → desc.is_flag = false) :
    Respelled cfg st [45 :: 45 :: (name ++ 61 :: value)] [45 :: 45 :: name, value]
  | long {k : ℕ} {desc : Desc} (ha : is_alnum k = true)
    (hd : named cfg st (by_short [k]) = some desc) (hn : LongName desc.name) :
    Respelled cfg st [[45, k]] [45 :: 45 :: desc.name]

section
variable (p : Platform F) {cfg : Config} {st : State F}

theorem parse_arg_reading (hr : Reading st) (arg : Bytes) :
    parse_arg p cfg st arg =
      match lex_token arg with
      | .dash_dash => .ok { st with stop_options := true }
      | .help => print_help st
      | .option key => parse_option cfg st (by_name key)
      | .option_with_value key value => parse_option_with_value p cfg st key value
      | .short_option key =>
        if 1 < key.length then parse_bundle cfg st key else parse_option cfg st (by_short key)
      | .positional => parse_positional p cfg st arg := by
  obtain ⟨outs, current, optional, required, idx, globals, subcommand, stop, pending⟩ := st
  obtain ⟨hp, hs⟩ := hr
  obtain rfl : pending = none := hp
  obtain rfl : stop = false := hs
  rfl

theorem parse_short {k : ℕ} (hr : Reading st) (hk : is_alnum k = true) :
    parse_arg p cfg st [45, k] = parse_option cfg st (by_short [k]) := by
  have hall : [k].all is_alnum = true := by rw [List.all_cons, hk]; rfl
  rw [parse_arg_reading p hr, lex_short hall]
  exact if_neg (Nat.lt_irrefl 1)

theorem parse_long (hr : Reading st) (hn : LongName name) :
    parse_arg p cfg st (45 :: 45 :: name) = parse_option cfg st (by_name name) := by
  rw [parse_arg_reading p hr, lex_long hn]

theorem parse_bundle_letters (hr : Reading st) (ha : keys.all is_alnum = true)
    (hc : st.current_subcommand.isSome)
    (hf : ∀ k ∈ keys.dropLast, ∀ desc, named cfg st (by_short [k]) = some desc → desc.is_flag = true) :
    parse_bundle cfg st keys = parse_args p cfg st (keys.map fun k => [45, k]) := by
  induction keys generalizing st with
  | nil => rfl
  | cons k keys ih =>
    obtain ⟨hk, ha⟩ := Bool.and_eq_true_iff.mp ha
    rw [parse_bundle, lookup_bundled_eq hc, parse_args, List.map_cons, List.foldlM_cons,
      parse_short p hr hk, parse_option]
    cases hl : lookup_option cfg st (by_short [k]) with
    | error o => rfl
    | ok r =>
      obtain ⟨st₁, desc⟩ := r
      obtain ⟨hm, hnamed⟩ := lookup_option_marked hl
      change (if desc.is_flag = true then parse_bundle cfg (raise_flag st₁ desc) keys
        else if keys ≠ [] then print_help st₁ else _) =
          parse_args p cfg (take_option st₁ desc) (keys.map fun k => [45, k])
      by_cases hflag : desc.is_flag = true
      · have hr₁ := hm.reading hr
        rw [if_pos hflag, take_option, if_pos hflag]
        refine ih ⟨hr₁.pending, hr₁.stop⟩ ha (hm.current ▸ hc) fun k' hk' desc' hd' => ?_
        have hd' : named cfg st₁ (by_short [k']) = some desc' := hd'
        rw [named_marked hm] at hd'
        refine hf k' ?_ desc' hd'
        cases keys with
        | nil => cases hk'
        | cons c keys => exact List.mem_cons_of_mem _ hk'
      · have hkeys : keys = [] := by
          cases keys with
          | nil => rfl
          | cons c keys => exact absurd (hf k List.mem_cons_self desc hnamed) hflag
        subst hkeys
        rw [if_neg hflag, if_neg (fun h => h rfl), take_option, if_neg hflag]
        rfl

theorem parse_value (hr : Reading st) (hn : LongName name) (value : Bytes)
    (hf : ∀ desc, named cfg st (by_name name) = some desc → desc.is_flag = false) :
    parse_args p cfg st [45 :: 45 :: (name ++ 61 :: value)] =
      parse_args p cfg st [45 :: 45 :: name, value] := by
  rw [parse_args, parse_args, List.foldlM_cons, List.foldlM_cons, parse_long p hr hn,
    parse_arg_reading p hr, lex_long_value hn]
  simp only [parse_option_with_value, parse_option]
  cases hl : lookup_option cfg st (by_name name) with
  | error o => rfl
  | ok r =>
    obtain ⟨st₁, desc⟩ := r
    obtain ⟨hm, hnamed⟩ := lookup_option_marked hl
    have hflag := hf desc hnamed
    have hpending : { st₁ with pending := none } = st₁ := by
      rw [← hm.pending.trans hr.pending]
    change (if desc.is_flag = true then print_help st₁ else apply_or_help p st₁ desc value) >>= _ =
      parse_arg p cfg (take_option st₁ desc) value >>= _
    rw [take_option, hflag, if_neg Bool.false_ne_true, if_neg Bool.false_ne_true, parse_arg]
    simp only
    rw [hpending]

end

/-- The active options are those of the subcommand, whose table is there, or the global
ones. -/
inductive Placed (cfg : Config) (st : State F) : Prop
  | before (hc : st.current_subcommand = none)
    (ha : st.active_optional = cfg.global_optional_args)
  | inside {sub : SubCommand} (hs : sub ∈ cfg.subcommands) (hc : st.current_subcommand.isSome)
    (ha : st.active_optional = sub.optional_args)
    (ht : sub.optional_args ≠ [] → st.seen_subcommand.isSome)

def EarlyBundle (st : State F) (arg : Bytes) : Prop :=
  Reading st ∧ st.current_subcommand = none ∧ ∃ key, lex_token arg = .short_option key ∧ 1 < key.length

theorem Placed.move (h : Placed cfg st) (hc : st'.current_subcommand = st.current_subcommand)
    (ha : st'.active_optional = st.active_optional)
    (ht : st.seen_subcommand.isSome → st'.seen_subcommand.isSome) : Placed cfg st' := by
  cases h with
  | before hc' ha' => exact .before (hc.trans hc') (ha.trans ha')
  | inside hs hc' ha' ht' =>
    exact .inside hs (by rw [hc]; exact hc') (ha.trans ha') fun hne => ht (ht' hne)

theorem Placed.marked (h : Placed cfg st) (hm : Marked st st') :
    Placed cfg st' := h.move hm.current hm.optional hm.table

section
variable {cfg : Config} {st : State F} {E : Outcome F → Prop}

/-- What ends a run is not a crash. -/
def Orderly (o : Outcome F) : Prop := o ≠ .crash

theorem print_help_orderly {α : Type} {Q : α → Prop} : Meets Orderly Q (print_help st) := by
  intro h
  cases h

theorem apply_or_help_orderly {Q : State F → Prop} (p : Platform F) (desc : Desc) (value : Bytes)
    (h : ∀ outs, Q { st with outs := outs }) : Meets Orderly Q (apply_or_help p st desc value) := by
  unfold apply_or_help
  split
  · exact h _
  · exact print_help_orderly

theorem lookup_option_orderly (h : Placed cfg st) (fits : Desc → Bool) :
    Meets Orderly (fun r => Marked st r.1) (lookup_option cfg st fits) := by
  cases hl : lookup_option cfg st fits with
  | ok r => exact (lookup_option_marked hl).1
  | error o =>
    rintro rfl
    unfold lookup_option at hl
    cases hf : find_desc fits st.active_optional with
    | none =>
      rw [hf] at hl
      simp only at hl
      split at hl
      · cases hg : find_desc fits cfg.global_optional_args <;> rw [hg] at hl <;> cases hl
      · cases hl
    | some r =>
      obtain ⟨i, d⟩ := r
      rw [hf] at hl
      simp only at hl
      split at hl
      · next hcur =>
        cases h with
        | before hc _ =>
          rw [hc] at hcur
          cases hcur
        | inside _ _ ha ht =>
          have hne : st.active_optional ≠ [] := fun he => by
            rw [he] at hf
            cases hf
          obtain ⟨seen, hseen⟩ := Option.isSome_iff_exists.mp (ht (ha ▸ hne))
          rw [see_subcommand, hseen] at hl
          cases hl
      · cases hl

theorem lookup_bundled_orderly {c : Prop} (h : Placed cfg st) (hc : st.current_subcommand.isSome ∨ c)
    (fits : Desc → Bool) :
    Meets (fun o => Orderly o ∨ c) (fun r => Marked st r.1) (lookup_bundled cfg st fits) := by
  by_cases hcur : st.current_subcommand.isSome
  · rw [lookup_bundled_eq hcur]
    exact (lookup_option_orderly h fits).weaken fun _ => Or.inl
  · have hc : c := hc.resolve_left hcur
    unfold lookup_bundled
    cases find_desc fits st.active_optional with
    | none =>
      simp only
      rw [if_neg hcur]
      exact .inr hc
    | some r =>
      simp only
      cases hs : see_subcommand st r.1 with
      | error o => exact .inr hc
      | ok st₁ => exact see_subcommand_marked hs

theorem parse_bundle_orderly {c : Prop} (h : Placed cfg st) (hc : st.current_subcommand.isSome ∨ c) :
    Meets (fun o => Orderly o ∨ c) (Placed cfg) (parse_bundle cfg st keys) := by
  induction keys generalizing st with
  | nil => exact h
  | cons k keys ih =>
    rw [parse_bundle]
    refine (lookup_bundled_orderly h hc _).bind fun r hm => ?_
    have hr := h.marked hm
    simp only
    split_ifs
    · exact ih (hr.move rfl rfl id) (by rw [← hm.current] at hc; exact hc)
    · exact print_help_orderly.weaken fun _ => Or.inl
    · exact hr.move rfl rfl id

theorem take_option_placed (h : Placed cfg st) (desc : Desc) : Placed cfg (take_option st desc) := by
  unfold take_option
  split_ifs
  · exact h.move rfl rfl id
  · exact h.move rfl rfl id

theorem parse_option_orderly (h : Placed cfg st) (fits : Desc → Bool) :
    Meets Orderly (Placed cfg) (parse_option cfg st fits) :=
  (lookup_option_orderly h fits).bind fun r hm => take_option_placed (h.marked hm) r.2

theorem parse_option_with_value_orderly (p : Platform F) (h : Placed cfg st) (key value : Bytes) :
    Meets Orderly (Placed cfg) (parse_option_with_value p cfg st key value) := by
  refine (lookup_option_orderly h _).bind fun r hm => ?_
  have hr := h.marked hm
  simp only
  split_ifs
  · exact print_help_orderly
  · exact apply_or_help_orderly p _ _ fun _ => hr.move rfl rfl id

theorem select_subcommand_mem {subs : List SubCommand} {r : ℕ × SubCommand}
    (h : select_subcommand name subs = some r) : r.2 ∈ subs := by
  induction subs generalizing r with
  | nil => cases h
  | cons sub subs ih =>
    rw [select_subcommand] at h
    split at h
    · cases h
      exact List.mem_cons_self
    · obtain ⟨found, hfound, he⟩ := Option.map_eq_some_iff.mp h
      have hmem := ih hfound
      cases he
      exact List.mem_cons_of_mem _ hmem

theorem parse_positional_orderly (p : Platform F) (h : Placed cfg st) (arg : Bytes) :
    Meets Orderly (Placed cfg) (parse_positional p cfg st arg) := by
  unfold parse_positional
  split
  · split
    · next i sub hs =>
      refine .inside (select_subcommand_mem hs) rfl rfl fun hne => ?_
      change (if sub.optional_args = [] then _ else _ : Option (List Bool)).isSome = true
      rw [if_neg hne]
      rfl
    · exact print_help_orderly
  · split
    · exact print_help_orderly
    · split
      · exact apply_or_help_orderly p _ _ fun _ => h.move rfl rfl id
      · split
        · exact apply_or_help_orderly p _ _ fun _ => h.move rfl rfl id
        · split
          · exact print_help_orderly
          · exact apply_or_help_orderly p _ _ fun _ => h.move rfl rfl id

theorem parse_arg_orderly (p : Platform F) (h : Placed cfg st) (arg : Bytes) :
    Meets (fun o => Orderly o ∨ EarlyBundle st arg) (Placed cfg) (parse_arg p cfg st arg) := by
  have orderly : ∀ {x : Run F (State F)}, Meets Orderly (Placed cfg) x →
      Meets (fun o => Orderly o ∨ EarlyBundle st arg) (Placed cfg) x :=
    fun hx => hx.weaken fun _ => Or.inl
  cases hp : st.pending with
  | some desc =>
    rw [parse_arg, hp]
    exact orderly (apply_or_help_orderly p _ _ fun _ => h.move rfl rfl id)
  | none =>
    cases hs : st.stop_options with
    | true =>
      rw [parse_arg, hp]
      simp only
      rw [hs, if_pos rfl]
      exact orderly (parse_positional_orderly p h arg)
    | false =>
      have hr : Reading st := ⟨hp, hs⟩
      rw [parse_arg_reading p hr]
      cases ht : lex_token arg with
      | dash_dash => exact h.move rfl rfl id
      | help => exact orderly print_help_orderly
      | option key => exact orderly (parse_option_orderly h _)
      | option_with_value key value => exact orderly (parse_option_with_value_orderly p h key value)
      | positional => exact orderly (parse_positional_orderly p h arg)
      | short_option key =>
        simp only
        split_ifs with hk
        · refine parse_bundle_orderly h ?_
          cases hcur : st.current_subcommand with
          | some i => exact .inl rfl
          | none => exact .inr ⟨hr, hcur, key, ht, hk⟩
        · exact orderly (parse_option_orderly h _)

/-- A bundle of the arguments is looked at in front of the subcommand. -/
def MeetsEarly (p : Platform F) (cfg : Config) (st : State F) (args : List Bytes) : Prop :=
  ∃ first arg rest st', args = first ++ arg :: rest ∧ parse_args p cfg st first = .ok st' ∧
    EarlyBundle st' arg

theorem parse_args_orderly (p : Platform F) (args : List Bytes) (h : Placed cfg st) :
    Meets (fun o => Orderly o ∨ MeetsEarly p cfg st args) (Placed cfg)
      (parse_args p cfg st args) := by
  induction args generalizing st with
  | nil => exact h
  | cons arg args ih =>
    rw [parse_args, List.foldlM_cons]
    have harg := parse_arg_orderly p h arg
    cases hs : parse_arg p cfg st arg with
    | error o =>
      exact (harg.of_error hs).imp_right fun he => ⟨[], arg, args, st, rfl, rfl, he⟩
    | ok st₁ =>
      refine (ih (harg.of_ok hs)).weaken fun o ho => ho.imp_right ?_
      rintro ⟨first, arg', rest, st', rfl, hrun, he⟩
      refine ⟨arg :: first, arg', rest, st', rfl, ?_, he⟩
      rw [parse_args, List.foldlM_cons, hs]
      exact hrun

theorem finish_orderly (cfg : Config) (st : State F) : Orderly (finish cfg st) := by
  intro h
  unfold finish at h
  split_ifs at h <;> cases h

end

theorem initial_placed (p : Platform F) (cfg : Config) (outs : Outs F) :
    Placed cfg (initial p cfg outs) := .before rfl rfl

theorem lookup_long (hd : cfg.Distinct) (h : Placed cfg st) {k : Bytes}
    (hn : named cfg st (by_short k) = some desc) :
    lookup_option cfg st (by_name desc.name) = lookup_option cfg st (by_short k) := by
  unfold named at hn
  unfold lookup_option
  have hnodup : (st.active_optional.map Desc.name).Nodup := by
    cases h with
    | before _ ha => exact ha ▸ hd.globals
    | inside hs _ ha _ =>
      have := hd.subcommand _ hs
      rw [List.map_append] at this
      exact ha ▸ (List.nodup_append.mp this).1
  cases hf : find_desc (by_short k) st.active_optional with
  | some r =>
    obtain ⟨i, d⟩ := r
    rw [hf] at hn
    obtain rfl := Option.some.inj hn
    rw [find_desc_name hnodup (find_desc_some hf).1]
  | none =>
    rw [hf] at hn
    simp only at hn
    split_ifs at hn with hc
    obtain ⟨⟨i, d⟩, hg, rfl⟩ := Option.map_eq_some_iff.mp hn
    cases h with
    | before hc' _ =>
      rw [hc'] at hc
      cases hc
    | inside hs _ ha _ =>
      have hdis := hd.subcommand _ hs
      rw [List.map_append, List.nodup_append, ← ha] at hdis
      have hmem := List.mem_map_of_mem (f := Desc.name) (List.mem_of_getElem? (find_desc_some hg).1)
      have hnone : find_desc (by_name d.name) st.active_optional = none :=
        find_desc_none fun d' hd' => decide_eq_false fun he =>
          hdis.2.2 _ (List.mem_map_of_mem hd') _ hmem he
      rw [hnone]
      simp only
      rw [hg, find_desc_name hdis.2.1 (find_desc_some hg).1]

section
variable (p : Platform F) {cfg : Config} {st : State F}

theorem parse_respelled (hd : cfg.Distinct) (h : Placed cfg st) (hr : Reading st)
    {a b : List Bytes} (hs : Respelled cfg st a b) :
    parse_args p cfg st a = parse_args p cfg st b := by
  cases hs with
  | @bundle keys hl ha hc hf =>
    rw [← parse_bundle_letters p hr ha hc hf]
    cases keys with
    | nil => cases hl
    | cons k keys =>
      rw [parse_args, List.foldlM_cons, parse_arg_reading p hr, lex_short ha]
      simp only
      rw [if_pos hl]
      exact bind_pure (parse_bundle cfg st (k :: keys))
  | value hn hf => exact parse_value p hr hn _ hf
  | long ha hk hn =>
    rw [parse_args, parse_args, List.foldlM_cons, List.foldlM_cons, parse_short p hr ha,
      parse_long p hr hn, parse_option, parse_option, lookup_long hd h hk]

theorem parse_args_append (st : State F) (a b : List Bytes) :
    parse_args p cfg st (a ++ b) = parse_args p cfg st a >>= fun st => parse_args p cfg st b :=
  List.foldlM_append

end

/-- A word that stands for itself. -/
def Plain (arg : Bytes) : Prop := arg.head? ≠ some 64

theorem expand_plain {read_file : Bytes → Option Bytes} {arg : Bytes} (h : Plain arg) :
    expand_arg read_file arg = [arg] := by
  unfold expand_arg
  split
  · exact absurd rfl h
  · rfl

theorem expand_args_plain {read_file : Bytes → Option Bytes} {args : List Bytes}
    (h : ∀ arg ∈ args, Plain arg) : expand_args read_file args = args := by
  induction args with
  | nil => rfl
  | cons arg args ih =>
    rw [expand_args, List.flatMap_cons, expand_plain (h arg List.mem_cons_self)]
    exact congrArg (arg :: ·) (ih fun a ha => h a (List.mem_cons_of_mem _ ha))

section
variable (p : Platform F)

def has_files (args : List Bytes) : Bool := args.any fun arg => arg.head? = some 64

def words_before (app : Bytes) (pre rest : List Bytes) : List Bytes :=
  if has_files (pre ++ rest) then (expand_arg p.read_file app).drop 1 ++ expand_args p.read_file pre
  else pre

def words_behind (pre rest : List Bytes) : List Bytes :=
  if has_files (pre ++ rest) then expand_args p.read_file rest else rest

theorem active_args_around {app : Bytes} (happ : expand_arg p.read_file app ≠ [])
    {a : List Bytes} (ha : ∀ arg ∈ a, Plain arg) (pre rest : List Bytes) :
    active_args p (app :: (pre ++ a ++ rest)) =
      words_before p app pre rest ++ (a ++ words_behind p pre rest) := by
  have hfiles : has_files (pre ++ a ++ rest) = has_files (pre ++ rest) := by
    have hnone : has_files a = false :=
      List.any_eq_false.mpr fun arg harg he => ha arg harg (of_decide_eq_true he)
    unfold has_files at hnone ⊢
    rw [List.any_append, List.any_append, List.any_append, hnone, Bool.or_false]
  unfold active_args words_before words_behind
  change (if has_files (pre ++ a ++ rest) = true then _ else pre ++ a ++ rest) = _
  rw [hfiles]
  split_ifs
  · rw [expand_args, List.flatMap_cons, List.drop_append_of_le_length
      (List.length_pos_of_ne_nil happ), List.flatMap_append, List.flatMap_append]
    change _ ++ (_ ++ expand_args p.read_file a ++ _) = _
    rw [expand_args_plain ha, expand_args, expand_args]
    simp only [List.append_assoc]
  · exact List.append_assoc _ _ _

end

/-- What a run with a respelled argument comes to, and what may end it at a missing table. -/
theorem spellings_agree (p : Platform F) {cfg : Config} (hd : cfg.Distinct) (outs : Outs F) :
    (∀ app pre a b rest, expand_arg p.read_file app ≠ [] → (∀ arg ∈ a ++ b, Plain arg) →
      (∀ st, parse_args p cfg (initial p cfg outs) (words_before p app pre rest) = .ok st →
        Reading st ∧ Respelled cfg st a b) →
      cmd_arger_parse_internal p cfg outs (app :: (pre ++ a ++ rest)) =
        cmd_arger_parse_internal p cfg outs (app :: (pre ++ b ++ rest))) ∧
    ∀ argv, cmd_arger_parse_internal p cfg outs argv = .crash →
      MeetsEarly p cfg (initial p cfg outs) (active_args p argv) := by
  have hstart := initial_placed p cfg outs
  constructor
  · intro app pre a b rest happ hplain hs
    obtain ⟨ha, hb⟩ := List.forall_mem_append.mp hplain
    rw [cmd_arger_parse_internal, cmd_arger_parse_internal, active_args_around p happ ha,
      active_args_around p happ hb, parse_args_append, parse_args_append]
    cases hrun : parse_args p cfg (initial p cfg outs) (words_before p app pre rest) with
    | error o => rfl
    | ok st =>
      obtain ⟨hr, hsp⟩ := hs st hrun
      have hplaced := (parse_args_orderly p _ hstart).of_ok hrun
      change ending cfg (parse_args p cfg st _) = ending cfg (parse_args p cfg st _)
      rw [parse_args_append, parse_args_append, parse_respelled p hd hplaced hr hsp]
  · intro argv hcrash
    rw [cmd_arger_parse_internal] at hcrash
    cases hrun : parse_args p cfg (initial p cfg outs) (active_args p argv) with
    | ok st =>
      rw [hrun] at hcrash
      exact absurd hcrash (finish_orderly cfg st)
    | error o =>
      rw [hrun] at hcrash
      exact ((parse_args_orderly p _ hstart).of_error hrun).resolve_left fun ho => ho hcrash

def bare_platform : Platform Unit where
  strtod text := ((), text)
  getenv _ := none
  read_file _ := none

def verbose_flag : Desc where
  name := [118, 101, 114, 98, 111, 115, 101]
  short_name := some [118]
  env_var := none
  kind := .flag
  value_out := 0
  validator := none
  is_required := false

def quiet_flag : Desc :=
  { verbose_flag with name := [113, 117, 105, 101, 116], short_name := some [113], value_out := 1 }

def out_option : Desc where
  name := [111, 117, 116]
  short_name := some [111]
  env_var := none
  kind := .string []
  value_out := 2
  validator := none
  is_required := true

def run_command : SubCommand where
  name := [114, 117, 110]
  optional_args := [quiet_flag, out_option]
  required_args := []

def run_config : Config where
  global_optional_args := [verbose_flag]
  required_args := []
  subcommands := [run_command]

def blank_outs : Outs Unit := fun _ => .string none

/-- `run -qo x` and `run -q -o x` come to the same. -/
theorem spellings_agree_bundle :
    run_config.Distinct ∧
    cmd_arger_parse_internal bare_platform run_config blank_outs
        ([112] :: ([run_command.name] ++ [[45, 113, 111]] ++ [[120]])) =
      cmd_arger_parse_internal bare_platform run_config blank_outs
        ([112] :: ([run_command.name] ++ [[45, 113], [45, 111]] ++ [[120]])) := by
  have hd : run_config.Distinct :=
    ⟨by decide, fun sub hs => by
      obtain rfl := List.mem_singleton.mp hs
      decide⟩
  refine ⟨hd, (spellings_agree bare_platform hd blank_outs).1 _ _ _ _ _ (by decide)
    (by simp [Plain]) fun st hst => ?_⟩
  cases hst
  refine ⟨⟨rfl, rfl⟩, .bundle (by decide) (by decide) rfl fun k hk desc hn => ?_⟩
  obtain rfl := List.mem_singleton.mp hk
  obtain rfl : quiet_flag = desc := Option.some.inj hn
  rfl

def Outcome.returned : Outcome F → Bool
  | .crash => false
  | .ended result => result.returned

def input_config : Config where
  global_optional_args := [verbose_flag]
  required_args := [{ out_option with short_name := none }]
  subcommands := []

/-- `--verbose=x` is turned down, while `--verbose x` is the flag and an argument. -/
theorem flag_value_refused :
    (input_config.global_optional_args.map Desc.name).Nodup ∧
    (input_config.global_optional_args.map Desc.short_name).Nodup ∧
    (cmd_arger_parse_internal bare_platform input_config blank_outs
      [[112], 45 :: 45 :: (verbose_flag.name ++ 61 :: [120])]).returned = false ∧
    (cmd_arger_parse_internal bare_platform input_config blank_outs
      [[112], 45 :: 45 :: verbose_flag.name, [120]]).returned = true := by
  decide +kernel

end SaltsUtils.Cmd
