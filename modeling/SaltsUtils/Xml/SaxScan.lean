import SaltsUtils.Xml.Sax

/-!
# Scanning a text that goes on

What a scanner says of the beginning of a text it also says of the whole, unless it has
asked for more.
-/

set_option autoImplicit false

namespace SaltsUtils.Xml

variable {α β : Type}

def Scan.extend (more : Bytes) : Scan α → Scan α
  | .more => .more
  | .error message => .error message
  | .found item rest => .found item (rest ++ more)

/-- `s` is the scan of a text and `s'` that of the text with `more` behind it. -/
def Later (more : Bytes) (s s' : Scan α) : Prop := s = .more ∨ s' = s.extend more

theorem Later.cons {more : Bytes} {s s' : Scan Bytes} (c : ℕ) (h : Later more s s') :
    Later more (s.cons c) (s'.cons c) := by
  obtain rfl | rfl := h
  · exact .inl rfl
  · cases s <;> exact .inr rfl

theorem Later.bind {more : Bytes} {s s' : Scan α} {f f' : α → Bytes → Scan β}
    (h : Later more s s') (hf : ∀ x rest, Later more (f x rest) (f' x (rest ++ more))) :
    Later more (s.bind f) (s'.bind f') := by
  obtain rfl | rfl := h
  · exact .inl rfl
  · cases s with
    | more => exact .inl rfl
    | error => exact .inr rfl
    | found x rest => exact hf x rest

theorem drop_while_append {p : ℕ → Bool} {text : Bytes} (more : Bytes)
    (h : text.dropWhile p ≠ []) : (text ++ more).dropWhile p = text.dropWhile p ++ more := by
  induction text with
  | nil => exact absurd rfl h
  | cons c text ih =>
    rw [List.cons_append, List.dropWhile_cons, List.dropWhile_cons]
    rw [List.dropWhile_cons] at h
    split
    · next hc =>
      rw [if_pos hc] at h
      exact ih h
    · rfl

theorem take_while_append {p : ℕ → Bool} {text : Bytes} (more : Bytes)
    (h : text.dropWhile p ≠ []) : (text ++ more).takeWhile p = text.takeWhile p := by
  induction text with
  | nil => exact absurd rfl h
  | cons c text ih =>
    rw [List.cons_append, List.takeWhile_cons, List.takeWhile_cons]
    rw [List.dropWhile_cons] at h
    split
    · next hc =>
      rw [if_pos hc] at h
      rw [ih h]
    · rfl

section
variable (final : Bool) (more : Bytes)

theorem find_until_short {needle text : Bytes} (err : String) (h : text.length < needle.length) :
    find_until false needle err text = .more := by
  induction text with
  | nil => rfl
  | cons c text ih =>
    rw [find_until, if_neg (fun hp => by have := hp.length_le; omega),
      ih (by rw [List.length_cons] at h; omega)]
    rfl

theorem find_until_later (needle : Bytes) (err : String) (text : Bytes) :
    Later more (find_until false needle err text) (find_until final needle err (text ++ more)) := by
  induction text with
  | nil => exact .inl rfl
  | cons c text ih =>
    have hpre : c :: text <+: c :: (text ++ more) := List.prefix_append (c :: text) more
    rw [List.cons_append, find_until, find_until]
    by_cases hp : needle <+: c :: text
    · rw [if_pos hp, if_pos (hp.trans hpre)]
      right
      rw [← List.cons_append, List.drop_append_of_le_length hp.length_le]
      rfl
    rw [if_neg hp]
    by_cases hs : needle.length ≤ (c :: text).length
    · rw [if_neg (fun hq => hp (List.prefix_of_prefix_length_le hq hpre hs))]
      exact ih.cons c
    · left
      rw [find_until_short err (by rw [List.length_cons] at hs; omega)]
      rfl

theorem scan_markup_end_later (err : String) (quote : Option ℕ) (bracket_depth : ℕ) (text : Bytes) :
    Later more (scan_markup_end false err quote bracket_depth text)
      (scan_markup_end final err quote bracket_depth (text ++ more)) := by
  induction text generalizing quote bracket_depth with
  | nil =>
    cases quote <;> exact .inl rfl
  | cons c text ih =>
    cases quote with
    | some q => exact (ih _ _).cons c
    | none =>
      rw [List.cons_append, scan_markup_end, scan_markup_end]
      split_ifs
      · exact (ih _ _).cons c
      · exact (ih _ _).cons c
      · exact (ih _ _).cons c
      · exact .inr rfl
      · exact (ih _ _).cons c

theorem scan_value_later (quote : ℕ) (text : Bytes) :
    Later more (scan_value false quote text) (scan_value final quote (text ++ more)) := by
  induction text with
  | nil => exact .inl rfl
  | cons c text ih =>
    rw [List.cons_append, scan_value, scan_value]
    split_ifs
    · exact .inr rfl
    · exact .inr rfl
    · exact ih.cons c

theorem expect_later (wanted : ℕ) (missing wrong : String) (text : Bytes) :
    Later more (expect false wanted missing wrong text)
      (expect final wanted missing wrong (text ++ more)) := by
  rw [expect, expect]
  cases hd : text.dropWhile is_ws with
  | nil => exact .inl rfl
  | cons c rest =>
    rw [drop_while_append more (by rw [hd]; exact List.cons_ne_nil _ _), hd]
    simp only [List.cons_append]
    split_ifs
    · exact .inr rfl
    · exact .inr rfl

theorem quoted_value_later (text : Bytes) :
    Later more (quoted_value false text) (quoted_value final (text ++ more)) := by
  rw [quoted_value, quoted_value]
  cases hd : text.dropWhile is_ws with
  | nil => exact .inl rfl
  | cons c rest =>
    rw [drop_while_append more (by rw [hd]; exact List.cons_ne_nil _ _), hd]
    simp only [List.cons_append]
    split_ifs
    · exact scan_value_later final more c rest
    · exact .inr rfl

theorem parse_name_later (text : Bytes) :
    (∃ name, parse_name false text = .found name []) ∨
      Later more (parse_name false text) (parse_name final (text ++ more)) := by
  cases text with
  | nil => exact .inr (.inl rfl)
  | cons c text =>
    rw [List.cons_append, parse_name, parse_name]
    split_ifs with hc
    · by_cases hd : text.dropWhile is_name_char = []
      · exact .inl ⟨_, by rw [hd]⟩
      · rw [drop_while_append more hd, take_while_append more hd]
        exact .inr (.inr rfl)
    · exact .inr (.inr rfl)

theorem name_later {f f' : Bytes → Bytes → Scan α} (hn : ∀ name, f name [] = .more)
    (h : ∀ name rest, Later more (f name rest) (f' name (rest ++ more))) (text : Bytes) :
    Later more ((parse_name false text).bind f) ((parse_name final (text ++ more)).bind f') := by
  obtain ⟨name, hs⟩ | hl := parse_name_later final more text
  · rw [hs]
    exact .inl (hn name)
  · exact hl.bind h

theorem parse_attribute_later (text : Bytes) :
    Later more (parse_attribute false text) (parse_attribute final (text ++ more)) :=
  name_later final more (fun _ => rfl)
    (fun _ rest => (expect_later final more 61 _ _ rest).bind fun _ rest =>
      (quoted_value_later final more rest).bind fun _ _ => .inr rfl) text

end

def Scan.Within (n : ℕ) : Scan α → Prop
  | .found _ rest => rest.length < n
  | _ => True

theorem Scan.Within.bind {n : ℕ} {s : Scan α} {f : α → Bytes → Scan β} (h : s.Within n)
    (hf : ∀ x rest, rest.length < n → (f x rest).Within n) : (s.bind f).Within n := by
  cases s with
  | more => exact trivial
  | error => exact trivial
  | found x rest => exact hf x rest h

theorem starved_within (final : Bool) (message : String) (n : ℕ) :
    (starved final message : Scan α).Within n := by
  cases final <;> exact trivial

theorem scan_cons_within {n c : ℕ} {s : Scan Bytes} (h : s.Within n) :
    (s.cons c).Within (n + 1) := by
  cases s with
  | more => exact trivial
  | error => exact trivial
  | found x rest => exact Nat.lt_succ_of_lt h

theorem drop_while_length (p : ℕ → Bool) (text : Bytes) :
    (text.dropWhile p).length ≤ text.length := (List.dropWhile_suffix p).length_le

theorem parse_name_within (final : Bool) (text : Bytes) :
    (parse_name final text).Within text.length := by
  cases text with
  | nil => exact starved_within final _ _
  | cons c text =>
    rw [parse_name]
    split_ifs
    · exact Nat.lt_succ_of_le (drop_while_length is_name_char text)
    · exact trivial

theorem find_until_within (final : Bool) {needle : Bytes} (hn : needle ≠ []) (err : String)
    (text : Bytes) : (find_until final needle err text).Within text.length := by
  induction text with
  | nil => exact starved_within final _ _
  | cons c text ih =>
    rw [find_until]
    split_ifs
    · have := List.length_pos_iff.mpr hn
      simp only [Scan.Within, List.length_drop, List.length_cons]
      omega
    · exact scan_cons_within ih

theorem scan_markup_end_within (final : Bool) (err : String) (quote : Option ℕ)
    (bracket_depth : ℕ) (text : Bytes) :
    (scan_markup_end final err quote bracket_depth text).Within text.length := by
  induction text generalizing quote bracket_depth with
  | nil => cases quote <;> exact starved_within final _ _
  | cons c text ih =>
    cases quote with
    | some q => exact scan_cons_within (ih _ _)
    | none =>
      rw [scan_markup_end]
      split_ifs
      · exact scan_cons_within (ih _ _)
      · exact scan_cons_within (ih _ _)
      · exact scan_cons_within (ih _ _)
      · exact Nat.lt_succ_self _
      · exact scan_cons_within (ih _ _)

theorem scan_value_within (final : Bool) (quote : ℕ) (text : Bytes) :
    (scan_value final quote text).Within text.length := by
  induction text with
  | nil => exact starved_within final _ _
  | cons c text ih =>
    rw [scan_value]
    split_ifs
    · exact Nat.lt_succ_self _
    · exact trivial
    · exact scan_cons_within ih

theorem Scan.Within.mono {n m : ℕ} {s : Scan α} (h : s.Within n) (hn : n ≤ m) : s.Within m := by
  cases s with
  | more => exact trivial
  | error => exact trivial
  | found x rest => exact Nat.lt_of_lt_of_le h hn

theorem expect_within (final : Bool) (wanted : ℕ) (missing wrong : String) (text : Bytes) :
    (expect final wanted missing wrong text).Within text.length := by
  have hl := drop_while_length is_ws text
  rw [expect]
  cases hd : text.dropWhile is_ws with
  | nil => exact starved_within final _ _
  | cons c rest =>
    rw [hd] at hl
    simp only
    split_ifs
    · exact hl
    · exact trivial

theorem quoted_value_within (final : Bool) (text : Bytes) :
    (quoted_value final text).Within text.length := by
  have hl := drop_while_length is_ws text
  rw [quoted_value]
  cases hd : text.dropWhile is_ws with
  | nil => exact starved_within final _ _
  | cons c rest =>
    rw [hd, List.length_cons] at hl
    simp only
    split_ifs
    · exact (scan_value_within final c rest).mono (by omega)
    · exact trivial

theorem parse_attribute_within (final : Bool) (text : Bytes) :
    (parse_attribute final text).Within text.length :=
  (parse_name_within final text).bind fun _ rest hr =>
    ((expect_within final 61 _ _ rest).mono (by omega)).bind fun _ rest hr =>
      ((quoted_value_within final rest).mono (by omega)).bind fun _ _ hr => hr

theorem scan_start_tag_end {final self_closing : Bool} {rounds : ℕ} {text tail : Bytes}
    (h : scan_start_tag final rounds text = .found self_closing tail) :
    tail.length ≤ text.length ∧ (if self_closing then 2 else 1) ≤ tail.length := by
  induction rounds generalizing text with
  | zero => cases h
  | succ rounds ih =>
    have hl := drop_while_length is_ws text
    rw [scan_start_tag] at h
    cases hd : text.dropWhile is_ws with
    | nil =>
      rw [hd] at h
      cases final <;> cases h
    | cons c rest =>
      rw [hd] at h hl
      simp only at h
      split_ifs at h with h1 h2 h3
      · cases h
        exact ⟨hl, Nat.succ_le_succ (Nat.zero_le _)⟩
      · cases h
        have hr : rest ≠ [] := fun he => by
          rw [he] at h2
          cases h2.2
        have := List.length_pos_iff.mpr hr
        exact ⟨hl, Nat.succ_le_succ this⟩
      · cases final <;> cases h
      · have hw := parse_attribute_within final (c :: rest)
        cases ha : parse_attribute final (c :: rest) with
        | more => rw [ha] at h; cases h
        | error => rw [ha] at h; cases h
        | found x more =>
          rw [ha] at h hw
          obtain ⟨h4, h5⟩ := ih h
          have hw : more.length < (c :: rest).length := hw
          exact ⟨by omega, h5⟩

theorem scan_start_tag_later (final : Bool) (more : Bytes) {n m : ℕ} {text : Bytes}
    (hn : text.length < n) (hm : (text ++ more).length < m) :
    Later more (scan_start_tag false n text) (scan_start_tag final m (text ++ more)) := by
  induction n generalizing text m with
  | zero => omega
  | succ n ih =>
    cases m with
    | zero => omega
    | succ m =>
      have hl := drop_while_length is_ws text
      rw [scan_start_tag, scan_start_tag]
      cases hd : text.dropWhile is_ws with
      | nil => exact .inl rfl
      | cons c rest =>
        rw [drop_while_append more (by rw [hd]; exact List.cons_ne_nil _ _), hd]
        rw [hd] at hl
        simp only [List.cons_append]
        have hattr : Later more
            ((parse_attribute false (c :: rest)).bind fun _ rest => scan_start_tag false n rest)
            ((parse_attribute final (c :: (rest ++ more))).bind fun _ rest =>
              scan_start_tag final m rest) := by
          have ha := parse_attribute_later final more (c :: rest)
          have hw := parse_attribute_within false (c :: rest)
          obtain ha | ha := ha
          · rw [ha]
            exact .inl rfl
          · rw [List.cons_append] at ha
            rw [ha]
            cases hp : parse_attribute false (c :: rest) with
            | more => exact .inl rfl
            | error => exact .inr rfl
            | found x left =>
              rw [hp] at hw
              have hw : left.length < (c :: rest).length := hw
              simp only [List.length_append] at hm
              exact ih (by omega) (by simp only [List.length_append]; omega)
        by_cases h1 : c = 62
        · rw [if_pos h1, if_pos h1]
          exact .inr rfl
        rw [if_neg h1, if_neg h1]
        cases rest with
        | nil =>
          by_cases h2 : c = 47
          · left
            rw [if_neg (by simp), if_pos ⟨h2, rfl⟩]
            rfl
          · rw [if_neg (fun h => h2 h.1), if_neg (fun h => h2 h.1), if_neg (fun h => h2 h.1),
              if_neg (fun h => h2 h.1)]
            exact hattr
        | cons d rest =>
          simp only [List.cons_append, List.head?_cons, Option.some.injEq, reduceCtorEq, and_false,
            if_false]
          by_cases h2 : c = 47 ∧ d = 62
          · rw [if_pos h2, if_pos h2]
            exact .inr rfl
          · rw [if_neg h2, if_neg h2]
            exact hattr

end SaltsUtils.Xml
