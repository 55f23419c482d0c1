import SaltsUtils.Mustache.Reference

/-!
# Parsed templates nest

Every round of the parser moves on, so a text is read to its end.
-/

set_option autoImplicit false

namespace SaltsUtils.Mustache

section
variable (text : Bytes)

/-- A kind that the parser may give a tag it keeps. -/
def Listed (type : TagType) : Prop := type ≠ .none ∧ type ≠ .close_section_inv

structure SameKind (s s' : ParseState) : Prop where
  type : s'.tag.type = s.tag.type
  tags : s'.tags = s.tags
  opener : s'.opener = s.opener
  closer : s'.closer = s.closer
  off : s.off ≤ s'.off

variable {s : ParseState}

theorem SameKind.trans {s' s'' : ParseState} (h : SameKind s s') (h' : SameKind s' s'') :
    SameKind s s'' :=
  ⟨h'.type.trans h.type, h'.tags.trans h.tags, h'.opener.trans h.opener,
    h'.closer.trans h.closer, Nat.le_trans h.off h'.off⟩

theorem close_special_same (s : ParseState) : SameKind s (close_special text s) := by
  unfold close_special
  split
  · split_ifs
    · exact ⟨rfl, rfl, rfl, rfl, Nat.le_refl _⟩
    · exact ⟨rfl, rfl, rfl, rfl, Nat.le_succ _⟩
    · exact ⟨rfl, rfl, rfl, rfl, Nat.le_refl _⟩
  · have hoff : s.off ≤ s.off + s.closer.length + 1 := by omega
    simp only
    split_ifs
    all_goals first | exact ⟨rfl, rfl, rfl, rfl, Nat.le_refl _⟩ | exact ⟨rfl, rfl, rfl, rfl, hoff⟩
  · exact ⟨rfl, rfl, rfl, rfl, Nat.le_refl _⟩

theorem standalone_type (tag : TagInfo) : (standalone text tag).type = tag.type := by
  unfold standalone
  simp only
  split_ifs <;> rfl

theorem check_name_same (passes : TagInfo → Bool) (s : ParseState) :
    SameKind s (check_name passes s) := by
  unfold check_name
  split_ifs <;> exact ⟨rfl, rfl, rfl, rfl, Nat.le_refl _⟩

def kept_type (type : TagType) : TagType := if type = .delim then .comment else type

def Delimited (s : ParseState) : Prop := s.opener ≠ [] ∧ s.closer ≠ []

theorem parse_delimiters_ne {spec opener closer : Bytes}
    (h : parse_delimiters spec = some (opener, closer)) : opener ≠ [] ∧ closer ≠ [] := by
  unfold parse_delimiters at h
  simp only at h
  split_ifs at h with _ hopener _ _ hcloser
  cases h
  exact ⟨fun he => hopener (.inl he), fun he => hcloser (.inl he)⟩

theorem change_delimiters_type (s : ParseState) :
    (change_delimiters text s).tag.type = kept_type s.tag.type ∧
      (change_delimiters text s).tags = s.tags ∧ (change_delimiters text s).off = s.off ∧
      (Delimited s → Delimited (change_delimiters text s)) := by
  unfold change_delimiters kept_type
  split_ifs
  · simp only
    split
    · exact ⟨rfl, rfl, rfl, id⟩
    · next hspec => exact ⟨rfl, rfl, rfl, fun _ => parse_delimiters_ne hspec⟩
  · exact ⟨rfl, rfl, rfl, id⟩

theorem close_tag_tags (s : ParseState) :
    ∃ tag : TagInfo, (close_tag text s).tags = s.tags ++ [tag] ∧ tag.type = kept_type s.tag.type ∧
      (close_tag text s).tag.type = .none ∧ s.off + s.closer.length ≤ (close_tag text s).off ∧
      (Delimited s → Delimited (close_tag text s)) := by
  unfold close_tag
  simp only
  have hspecial := close_special_same text
    { s with off := s.off + s.closer.length, tag := { s.tag with name_end := s.off } }
  generalize close_special text _ = s₁ at hspecial ⊢
  have hplace : SameKind s₁
      { s₁ with tag := trim_name text (standalone text { s₁.tag with stop := s₁.off }) } :=
    ⟨standalone_type text _, rfl, rfl, rfl, Nat.le_refl _⟩
  have hname := (hspecial.trans hplace).trans
    (check_name_same (fun tag => tag.name_beg < tag.name_end) _)
  generalize check_name _ _ = s₂ at hname ⊢
  obtain ⟨htype, htags, hoff, hdelim⟩ := change_delimiters_type text s₂
  have hvalid := check_name_same (fun tag => valid_tagname (tag.name text)) (change_delimiters text s₂)
  generalize check_name _ _ = s₃ at hvalid ⊢
  refine ⟨s₃.tag, ?_, ?_, rfl, ?_, fun hd => ?_⟩
  · change s₃.tags ++ [s₃.tag] = _
    rw [hvalid.tags, htags, hname.tags]
  · rw [hvalid.type, htype, hname.type]
  · have h := hvalid.off
    rw [hoff] at h
    exact Nat.le_trans hname.off h
  · have hd₂ : Delimited s₂ := ⟨hname.opener ▸ hd.1, hname.closer ▸ hd.2⟩
    have hd₃ := hdelim hd₂
    exact ⟨fun he => hd₃.1 (hvalid.opener ▸ he), fun he => hd₃.2 (hvalid.closer ▸ he)⟩

/-- The tags so far have kinds that the parser gives. -/
structure Listing (s : ParseState) : Prop where
  tags : ∀ tag ∈ s.tags, Listed tag.type
  tag : s.tag.type ≠ .close_section_inv
  delimited : Delimited s

theorem kept_type_listed {type : TagType} (hn : type ≠ .none) (hc : type ≠ .close_section_inv) :
    Listed (kept_type type) := by
  unfold kept_type
  split_ifs
  · exact ⟨TagType.noConfusion, TagType.noConfusion⟩
  · exact ⟨hn, hc⟩

theorem tag_type_ne (c : ℕ) : tag_type c ≠ .close_section_inv := by
  unfold tag_type
  split <;> exact TagType.noConfusion

theorem drop_tag_listing (h : Listing s) : Listing (drop_tag s) ∧ (drop_tag s).off = s.off := by
  unfold drop_tag
  split_ifs
  · exact ⟨⟨h.tags, TagType.noConfusion, h.delimited⟩, rfl⟩
  · exact ⟨h, rfl⟩

theorem skip_le (kind : ℕ → Bool) (off : ℕ) : off ≤ skip text kind off := Nat.le_add_right _ _

theorem open_tag_listing (h : Listing s) :
    Listing (open_tag text s) ∧ s.off < (open_tag text s).off := by
  obtain ⟨hd, hoff⟩ := drop_tag_listing h
  unfold open_tag
  generalize drop_tag s = s₁ at hd hoff ⊢
  have hpos := List.length_pos_of_ne_nil hd.delimited.1
  refine ⟨⟨hd.tags, ?_, hd.delimited⟩, ?_⟩
  · change (Option.map tag_type _).getD _ ≠ _
    cases text[s₁.off + s₁.opener.length]? with
    | none => exact hd.tag
    | some c => exact tag_type_ne c
  · refine Nat.lt_of_lt_of_le ?_ (skip_le text _ _)
    split_ifs <;> omega

theorem close_tag_listing (h : Listing s) (ht : s.tag.type ≠ .none) :
    Listing (close_tag text s) ∧ s.off < (close_tag text s).off := by
  obtain ⟨tag, htags, htype, hnone, hoff, hdelim⟩ := close_tag_tags text s
  have hpos := List.length_pos_of_ne_nil h.delimited.2
  refine ⟨⟨fun t hmem => ?_, ?_, hdelim h.delimited⟩, by omega⟩
  · rw [htags] at hmem
    obtain hmem | hmem := List.mem_append.mp hmem
    · exact h.tags t hmem
    · rw [List.mem_singleton.mp hmem, htype]
      exact kept_type_listed ht h.tag
  · rw [hnone]
    exact TagType.noConfusion

theorem line_end_lt {off : ℕ} (h : text[off]?.any is_newline = true) :
    off < (if text[if text[off]? = some 13 then off + 1 else off]? = some 10 then
      (if text[off]? = some 13 then off + 1 else off) + 1
      else if text[off]? = some 13 then off + 1 else off) := by
  by_cases hcr : text[off]? = some 13
  · rw [if_pos hcr]
    split_ifs <;> omega
  · have hlf : text[off]? = some 10 := by
      cases hc : text[off]? with
      | none =>
        rw [hc] at h
        cases h
      | some c =>
        rw [hc, Option.any_some, is_newline, Bool.or_eq_true, decide_eq_true_eq,
          decide_eq_true_eq] at h
        rw [hc] at hcr
        rw [h.resolve_left fun he => hcr (congrArg some he)]
    rw [if_neg hcr, if_pos hlf]
    exact Nat.lt_succ_self _

theorem end_line_listing (h : Listing s) (hl : text[s.off]?.any is_newline = true) :
    Listing (end_line text s) ∧ s.off < (end_line text s).off := by
  obtain ⟨hd, hoff⟩ := drop_tag_listing h
  unfold end_line
  simp only
  generalize drop_tag s = s₁ at hd hoff ⊢
  have hlt := line_end_lt text hl
  rw [← hoff] at hlt ⊢
  generalize (if text[if text[s₁.off]? = some 13 then s₁.off + 1 else s₁.off]? = some 10 then
    (if text[s₁.off]? = some 13 then s₁.off + 1 else s₁.off) + 1
    else if text[s₁.off]? = some 13 then s₁.off + 1 else s₁.off) = off at hlt ⊢
  split_ifs
  · refine ⟨⟨fun t hmem => ?_, TagType.noConfusion, hd.delimited⟩, hlt⟩
    obtain hmem | hmem := List.mem_append.mp hmem
    · exact hd.tags t hmem
    · rw [List.mem_singleton.mp hmem]
      exact ⟨TagType.noConfusion, TagType.noConfusion⟩
  · exact ⟨⟨hd.tags, hd.tag, hd.delimited⟩, hlt⟩

theorem parse_round_listing (h : Listing s) :
    Listing (parse_round text s) ∧ s.off < (parse_round text s).off := by
  unfold parse_round
  simp only
  split_ifs with hopener hdangling hcloser hline
  · exact open_tag_listing text h
  · exact ⟨⟨h.tags, h.tag, h.delimited⟩, Nat.lt_succ_self _⟩
  · refine close_tag_listing text h fun hn => hdangling ?_
    rw [hcloser, hn]
    rfl
  · exact end_line_listing text h hline
  · exact ⟨⟨h.tags, h.tag, h.delimited⟩, Nat.lt_succ_self _⟩

theorem parse_rounds_listing {rounds : ℕ} (h : Listing s) (hr : text.length ≤ s.off + rounds) :
    Listing (parse_rounds text rounds s) ∧ text.length ≤ (parse_rounds text rounds s).off := by
  induction rounds generalizing s with
  | zero => exact ⟨h, hr⟩
  | succ rounds ih =>
    rw [parse_rounds]
    split_ifs with hlt
    · obtain ⟨hnext, hoff⟩ := parse_round_listing text h
      exact ih hnext (by omega)
    · exact ⟨h, by omega⟩

def opens_inverted (tag : TagInfo) : Bool := tag.type = .open_section_inv

variable {n : Nesting}

theorem nest_one {n' : Nesting} {tag : TagInfo} {tags : List TagInfo} (ht : tag.type ≠ .none)
    (hn : nest_tag text n tag = some n') : nest text n (tag :: tags) = nest text n' tags := by
  rw [nest, if_neg ht, hn]
  rfl

theorem nest_close_eq (o : Opened) (stack : List Opened) (forest forest' : Forest) (off : ℕ)
    (tag : TagInfo) :
    nest_close ⟨o :: stack, forest, off⟩ forest' o.inverted tag =
      some ⟨stack, .block o.before o.inverted o.name o.text_beg tag.beg forest', tag.stop⟩ :=
  if_pos rfl

theorem nest_closer {tag opener : TagInfo} {stack : List TagInfo}
    (hs : n.stack.map Opened.inverted = (opener :: stack).map opens_inverted)
    (ht : tag.type = .close_section) : ∃ n', nest_tag text n
        (if opener.type = .open_section_inv then { tag with type := .close_section_inv } else tag) =
          some n' ∧ n'.stack.map Opened.inverted = stack.map opens_inverted := by
  obtain ⟨stack', forest, off⟩ := n
  cases stack' with
  | nil => cases hs
  | cons o stack' =>
    rw [List.map_cons, List.map_cons, List.cons.injEq] at hs
    obtain ⟨hinv, hstack⟩ := hs
    refine ⟨⟨stack', .block o.before o.inverted o.name o.text_beg tag.beg
      (nest_literal text ⟨o :: stack', forest, off⟩ tag), tag.stop⟩, ?_, hstack⟩
    have hclose := nest_close_eq o stack' forest
      (nest_literal text ⟨o :: stack', forest, off⟩ tag) off tag
    rw [opens_inverted] at hinv
    split_ifs with hopener
    · rw [hopener, decide_eq_true rfl] at hinv
      rw [hinv] at hclose ⊢
      exact hclose
    · rw [decide_eq_false hopener] at hinv
      rw [hinv] at hclose ⊢
      rw [nest_tag, ht]
      exact hclose

theorem validate_cons (stack : List TagInfo) (tag : TagInfo) (tags : List TagInfo) :
    validate_sections text stack (tag :: tags) =
      match tag.type with
      | .open_section | .open_section_inv =>
        (validate_sections text (tag :: stack) tags).map (tag :: ·)
      | .close_section | .close_section_inv =>
        match stack with
        | [] => none
        | opener :: stack =>
          if same_name (opener.name text) (tag.name text) then
            (validate_sections text stack tags).map
              ((if opener.type = .open_section_inv then { tag with type := .close_section_inv }
                else tag) :: ·)
          else none
      | _ => (validate_sections text stack tags).map (tag :: ·) := by
  cases stack <;> rfl

theorem validated_nests {stack tags tags' : List TagInfo} {last : TagInfo}
    (hk : ∀ tag ∈ tags, Listed tag.type)
    (hs : n.stack.map Opened.inverted = stack.map opens_inverted)
    (hv : validate_sections text stack tags = some tags') (hl : last.type = .none) :
    (nest text n (tags' ++ [last])).isSome := by
  induction tags generalizing stack tags' n with
  | nil =>
    cases stack with
    | cons opener stack => cases hv
    | nil =>
      cases hv
      have hnil : n.stack = [] := List.map_eq_nil_iff.mp hs
      rw [List.nil_append, nest, if_pos hl, if_pos hnil]
      rfl
  | cons tag tags ih =>
    obtain ⟨htag, hk⟩ := List.forall_mem_cons.mp hk
    have hopen : ∀ n' stack', validate_sections text stack (tag :: tags) =
        (validate_sections text stack' tags).map (tag :: ·) →
        nest_tag text n tag = some n' →
        n'.stack.map Opened.inverted = stack'.map opens_inverted →
        (nest text n (tags' ++ [last])).isSome := by
      intro n' stack' he hn hstack
      rw [he] at hv
      obtain ⟨rest, hrest, rfl⟩ := Option.map_eq_some_iff.mp hv
      rw [List.cons_append, nest_one text htag.1 hn]
      exact ih hk hstack hrest
    cases hty : tag.type with
    | none => exact absurd hty htag.1
    | close_section_inv => exact absurd hty htag.2
    | delim | comment | var | verbatim_var | verbatim_var2 | partial_tag | indent =>
      have hn : ∃ n', nest_tag text n tag = some n' ∧ n'.stack = n.stack := by
        rw [nest_tag, hty]
        exact ⟨_, rfl, rfl⟩
      obtain ⟨n', hn, hstack⟩ := hn
      refine hopen n' stack ?_ hn (hstack ▸ hs)
      rw [validate_cons, hty]
    | open_section | open_section_inv =>
      have hn : ∃ n', nest_tag text n tag = some n' ∧
          n'.stack.map Opened.inverted = opens_inverted tag :: n.stack.map Opened.inverted := by
        rw [nest_tag, opens_inverted, hty]
        exact ⟨_, rfl, rfl⟩
      obtain ⟨n', hn, hstack⟩ := hn
      refine hopen n' (tag :: stack) ?_ hn (by rw [hstack, hs, List.map_cons])
      rw [validate_cons, hty]
    | close_section =>
      rw [validate_cons, hty] at hv
      cases stack with
      | nil => cases hv
      | cons opener stack =>
        simp only at hv
        split_ifs at hv with hname hopener
        · obtain ⟨rest, hrest, rfl⟩ := Option.map_eq_some_iff.mp hv
          obtain ⟨n', hn, hstack⟩ := nest_closer text hs hty
          rw [if_pos hopener] at hn
          rw [List.cons_append, nest_one text TagType.noConfusion hn]
          exact ih hk hstack hrest
        · obtain ⟨rest, hrest, rfl⟩ := Option.map_eq_some_iff.mp hv
          obtain ⟨n', hn, hstack⟩ := nest_closer text hs hty
          rw [if_neg hopener] at hn
          rw [List.cons_append, nest_one text htag.1 hn]
          exact ih hk hstack hrest

end

theorem parsed_nests {text : Bytes} {tags : List TagInfo} (h : mustache_parse text = some tags) :
    ∃ f, template text = some f := by
  unfold template
  rw [h, Option.bind_some]
  have hstart : Listing ⟨0, default_opener, default_closer, no_tag,
      if text = [] then [] else [line_tag 0 no_tag], 0⟩ := by
    refine ⟨fun tag hmem => ?_, TagType.noConfusion, List.cons_ne_nil _ _, List.cons_ne_nil _ _⟩
    split_ifs at hmem
    · cases hmem
    · rw [List.mem_singleton.mp hmem]
      exact ⟨TagType.noConfusion, TagType.noConfusion⟩
  obtain ⟨hlisting, -⟩ := parse_rounds_listing text hstart (Nat.le_add_left _ _)
  unfold mustache_parse at h
  simp only at h
  generalize parse_rounds text text.length _ = s at h hlisting
  split at h
  · cases h
  · next tags' hv =>
    split_ifs at h
    cases h
    exact Option.isSome_iff_exists.mp (validated_nests text hlisting.tags rfl hv rfl)

theorem compiled_template {text insns : Bytes} (h : mustache_compile text = some insns) :
    ∃ f, template text = some f := by
  obtain ⟨tags, hp, -⟩ := Option.map_eq_some_iff.mp h
  exact parsed_nests hp

theorem template_compiled {text : Bytes} {f : Forest} (h : template text = some f) :
    ∃ insns, mustache_compile text = some insns := by
  obtain ⟨tags, hp, -⟩ := Option.bind_eq_some_iff.mp h
  exact ⟨_, Option.map_eq_some_iff.mpr ⟨tags, hp, rfl⟩⟩

end SaltsUtils.Mustache
