import SaltsUtils.Json.SaxGrammar
import SaltsUtils.Json.Serialize

/-!
# What is serialised is read back

The tokens of a serialised value are the tokens it is made of: a number that was read
is the longest number again where a delimiter follows, and an escaped string ends at
its own quote.
-/

set_option autoImplicit false

namespace SaltsUtils.Json

def Again (rule : Bytes → Option (Bytes × Bytes)) : Prop :=
  ∀ text taken rest more, rule text = some (taken, rest) →
    (∀ ch ∈ more.head?, is_digit ch = false) → rule (taken ++ more) = some (taken, more)

variable {more : Bytes}

theorem digits_run {run : Bytes} (hr : ∀ ch ∈ run, is_digit ch = true)
    (hm : ∀ ch ∈ more.head?, is_digit ch = false) :
    (run ++ more).takeWhile is_digit = run ∧ (run ++ more).dropWhile is_digit = more := by
  rw [List.takeWhile_append_of_pos hr, List.dropWhile_append_of_pos hr]
  cases more with
  | nil => exact ⟨List.append_nil run, rfl⟩
  | cons ch more =>
    have hch := hm ch rfl
    rw [List.takeWhile_cons, List.dropWhile_cons, hch]
    exact ⟨List.append_nil run, rfl⟩

theorem digits_again : Again digits := by
  intro text taken rest more h hm
  cases text with
  | nil => cases h
  | cons ch text =>
    rw [digits] at h
    split at h
    · next hch =>
      cases h
      obtain ⟨ht, hd⟩ := digits_run (fun c hc => List.mem_takeWhile_imp hc) hm
      rw [List.cons_append, digits, if_pos hch, ht, hd]
    · cases h

theorem unsigned_int_again : Again unsigned_int := by
  intro text taken rest more h hm
  cases text with
  | nil => cases h
  | cons ch text =>
    rw [unsigned_int] at h
    split at h
    · next hch =>
      cases h
      rw [List.singleton_append, unsigned_int, if_pos hch]
    · next hch =>
      obtain ⟨htext, hne⟩ := digits_takes _ _ _ h
      have := digits_again _ _ _ more h hm
      cases taken with
      | nil => exact absurd rfl hne
      | cons c taken =>
        obtain rfl : c = ch := (List.cons.inj htext).1
        rw [List.cons_append] at this ⊢
        rw [unsigned_int, if_neg hch, this]

variable {rule : Bytes → Option (Bytes × Bytes)}

theorem Again.branch {f g : Bytes → Option (Bytes × Bytes)} {c : ℕ → Prop} [DecidablePred c]
    (hf : Again f) (hg : Again g) (ht : Takes g) (hnil : rule [] = none)
    (hcons : ∀ ch rest, rule (ch :: rest) = if c ch then
      (f rest).map (extend [ch]) else g (ch :: rest)) : Again rule := by
  intro text taken rest more h hm
  cases text with
  | nil =>
    rw [hnil] at h
    cases h
  | cons ch text =>
    rw [hcons] at h
    split at h
    · next hch =>
      obtain ⟨r, hr, he⟩ := Option.map_eq_some_iff.mp h
      cases he
      rw [List.singleton_append, List.cons_append, hcons, if_pos hch, hf _ _ _ more hr hm]
      rfl
    · next hch =>
      obtain ⟨htext, hne⟩ := ht _ _ _ h
      have := hg _ _ _ more h hm
      cases taken with
      | nil => exact absurd rfl hne
      | cons c taken =>
        obtain rfl : c = ch := (List.cons.inj htext).1
        rw [List.cons_append] at this ⊢
        rw [hcons, if_neg hch, this]

theorem none_again : Again (fun _ => none) := fun _ _ _ _ h => nomatch h

theorem int_part_again : Again int_part :=
  .branch (c := fun ch => ch = 45) unsigned_int_again unsigned_int_again unsigned_int_takes rfl
    (fun _ _ => rfl)

theorem frac_again : Again frac :=
  .branch (c := fun ch => ch = 46) digits_again none_again none_takes rfl (fun _ _ => rfl)

theorem signed_digits_again : Again signed_digits :=
  .branch (c := fun ch => ch = 43 ∨ ch = 45) digits_again digits_again digits_takes rfl
    (fun _ _ => rfl)

theorem exp_again : Again exp :=
  .branch (c := fun ch => ch = 101 ∨ ch = 69) signed_digits_again none_again none_takes rfl
    (fun _ _ => rfl)

theorem optional_again (hr : Again rule) (hm : ∀ ch ∈ more.head?, is_digit ch = false)
    (hnone : rule more = none) (text : Bytes) :
    optional rule ((optional rule text).1 ++ more) = ((optional rule text).1, more) := by
  unfold optional
  cases h : rule text with
  | none =>
    rw [Option.getD_none, List.nil_append, hnone]
    rfl
  | some r =>
    rw [Option.getD_some, hr _ _ _ more h hm]
    rfl

theorem optional_head {f : Bytes → Option (Bytes × Bytes)} {c : ℕ → Prop} [DecidablePred c]
    (hnil : rule [] = none)
    (hcons : ∀ ch rest, rule (ch :: rest) = if c ch then (f rest).map (extend [ch]) else none)
    (text : Bytes) : ∀ ch ∈ (optional rule text).1.head?, c ch := by
  intro ch hch
  unfold optional at hch
  cases text with
  | nil =>
    rw [hnil] at hch
    cases hch
  | cons first text =>
    rw [hcons] at hch
    split at hch
    · next hfirst =>
      cases hf : f text with
      | none =>
        rw [hf] at hch
        cases hch
      | some r =>
        rw [hf] at hch
        cases hch
        exact hfirst
    · cases hch

variable {text : Bytes}

theorem head_append {P : ℕ → Prop} (ht : ∀ ch ∈ text.head?, P ch) (hm : ∀ ch ∈ more.head?, P ch) :
    ∀ ch ∈ (text ++ more).head?, P ch := by
  cases text with
  | nil => exact hm
  | cons first text => exact ht

/-- A number as a whole, where a delimiter or the end follows. -/
def Lexeme (lexeme : Bytes) : Prop :=
  ∀ more, terminated more = true → number (lexeme ++ more) = some (lexeme, more)

theorem terminated_head (h : terminated more = true) :
    ∀ ch ∈ more.head?, is_digit ch = false ∧ ch ≠ 46 ∧ ¬ (ch = 101 ∨ ch = 69) := by
  intro ch hch
  have hd : json_sax_is_delim ch = true := by
    unfold terminated at h
    rw [hch] at h
    exact h
  unfold json_sax_is_delim whitespace at hd
  unfold is_digit
  simp only [Bool.or_eq_true, beq_iff_eq] at hd
  simp only [Bool.and_eq_false_iff, decide_eq_false_iff_not]
  omega

variable {lexeme rest : Bytes}

theorem number_again (h : number text = some (lexeme, rest)) : Lexeme lexeme := by
  intro more hmore
  have hhead := terminated_head hmore
  rw [number_parts] at h
  obtain ⟨r, hr, he⟩ := Option.map_eq_some_iff.mp h
  cases he
  generalize hf : optional frac r.2 = fraction
  generalize he : optional exp fraction.2 = exponent
  have hfrac : ∀ ch ∈ (optional frac r.2).1.head?, ch = 46 :=
    optional_head (f := digits) rfl (fun _ _ => rfl) r.2
  have hexp : ∀ ch ∈ (optional exp fraction.2).1.head?, ch = 101 ∨ ch = 69 :=
    optional_head (f := signed_digits) rfl (fun _ _ => rfl) fraction.2
  rw [hf] at hfrac
  rw [he] at hexp
  have hexp' : exp more = none := by
    cases more with
    | nil => rfl
    | cons ch more => exact if_neg (hhead ch rfl).2.2
  have htail : ∀ ch ∈ (exponent.1 ++ more).head?, is_digit ch = false ∧ ch ≠ 46 := by
    refine head_append (fun ch hch => ?_) (fun ch hch => ⟨(hhead ch hch).1, (hhead ch hch).2.1⟩)
    obtain rfl | rfl := hexp ch hch <;> decide
  have hfrac' : frac (exponent.1 ++ more) = none := by
    cases htext : exponent.1 ++ more with
    | nil => rfl
    | cons ch tail =>
      rw [htext] at htail
      exact if_neg (htail ch rfl).2
  have hfront : ∀ ch ∈ (fraction.1 ++ (exponent.1 ++ more)).head?, is_digit ch = false := by
    refine head_append (fun ch hch => ?_) (fun ch hch => (htail ch hch).1)
    rw [hfrac ch hch]
    decide
  have h1 := int_part_again _ _ _ (fraction.1 ++ (exponent.1 ++ more)) hr hfront
  have h2 := optional_again frac_again (fun ch hch => (htail ch hch).1) hfrac' r.2
  have h3 := optional_again exp_again (fun ch hch => (hhead ch hch).1) hexp' fraction.2
  rw [hf] at h2
  rw [he] at h3
  rw [number_parts]
  simp only [extend, frac_exp, hf, he, List.append_assoc]
  rw [h1]
  simp only [Option.map_some, h2, h3]

theorem string_tail_escaped_byte (c : ℕ) (rest : Bytes) :
    string_tail (escaped_byte c ++ rest) = (string_tail rest).map (extend (escaped_byte c)) := by
  unfold escaped_byte
  split
  · rw [List.cons_append, string_tail.eq_def]; rfl
  split
  · rw [List.cons_append, string_tail.eq_def]; rfl
  split
  · rw [List.cons_append, string_tail.eq_def]; rfl
  split
  · rw [List.cons_append, string_tail.eq_def]; rfl
  split
  · rw [List.cons_append, string_tail.eq_def]; rfl
  split
  · rw [List.cons_append, string_tail.eq_def]; rfl
  split
  · rw [List.cons_append, string_tail.eq_def]; rfl
  split
  · have hhex : (hex_digit (hex_char (c / 4096 % 16)) && hex_digit (hex_char (c / 256 % 16)) &&
        hex_digit (hex_char (c / 16 % 16)) && hex_digit (hex_char (c % 16))) = true := by
      rw [hex_digit_hex_char _ (by omega), hex_digit_hex_char _ (by omega),
        hex_digit_hex_char _ (by omega), hex_digit_hex_char _ (by omega)]
      rfl
    rw [unicode_escape, List.cons_append, string_tail.eq_def]
    simp only [List.cons_append, if_pos hhex]
    rfl
  · next h34 h92 _ _ _ _ _ h32 =>
    rw [List.singleton_append, string_tail.eq_def]
    simp only [if_neg h34, if_neg h92, if_neg h32]

theorem string_tail_escaped (str rest : Bytes) :
    string_tail (escaped str ++ 34 :: rest) = some (escaped str, rest) := by
  induction str with
  | nil => rw [string_tail.eq_def]; rfl
  | cons c str ih =>
    rw [escaped, List.flatMap_cons, List.append_assoc, string_tail_escaped_byte]
    exact congrArg (Option.map (extend (escaped_byte c))) ih

def Free (text : Bytes) (ts : List Token) : Prop :=
  ∀ rest, json_tokens (text ++ rest) = (json_tokens rest).map (ts ++ ·)

def Lexes (text : Bytes) (ts : List Token) : Prop :=
  ∀ rest, terminated rest = true → json_tokens (text ++ rest) = (json_tokens rest).map (ts ++ ·)

variable {ts : List Token}

theorem Free.lexes (h : Free text ts) : Lexes text ts :=
  fun rest _ => h rest

theorem map_append_map (o : Option (List Token)) (ts us : List Token) :
    (o.map (us ++ ·)).map (ts ++ ·) = o.map (ts ++ us ++ ·) := by
  cases o with
  | none => rfl
  | some vs =>
    simp only [Option.map_some, List.append_assoc]

variable {us : List Token}

theorem Free.append {text' : Bytes} (h : Free text ts) (h' : Free text' us) :
    Free (text ++ text') (ts ++ us) := by
  intro rest
  rw [List.append_assoc, h, h', map_append_map]

theorem Lexes.append {text' : Bytes} (h : Lexes text ts) (h' : Free text' us)
    (hd : ∀ rest, terminated (text' ++ rest) = true) : Free (text ++ text') (ts ++ us) := by
  intro rest
  rw [List.append_assoc, h _ (hd rest), h', map_append_map]

variable {space : Bytes}

theorem space_free (h : ∀ ch ∈ space, whitespace ch = true) : Free space [] := by
  intro rest
  have hnext : json_lexer_next (space ++ rest) = json_lexer_next rest := by
    unfold json_lexer_next
    rw [List.dropWhile_append_of_pos h]
  rw [json_tokens_next, hnext, ← json_tokens_next]
  cases json_tokens rest <;> rfl

variable {token : Token} {ch : ℕ}

theorem lexes_token (text : Bytes) (hm : lexer_match (ch :: text ++ rest) = some (token, rest))
    (hch : whitespace ch = false) :
    json_tokens (ch :: text ++ rest) = (json_tokens rest).map ([token] ++ ·) := by
  rw [json_tokens_next, json_lexer_next, List.cons_append, List.dropWhile_cons, hch]
  simp only [Bool.false_eq_true, if_false]
  rw [List.cons_append] at hm
  rw [hm]
  rfl

variable {c : ℕ}

theorem structural_free (h : structural_token c = some token) (hch : whitespace c = false) :
    Free [c] [token] := by
  intro rest
  refine lexes_token [] ?_ hch
  rw [List.singleton_append, lexer_match, h]

theorem word_free {word : Bytes} (h : literal_word c = some (c :: word, token))
    (hs : structural_token c = none) (hch : whitespace c = false) : Free (c :: word) [token] := by
  intro rest
  refine lexes_token _ ?_ hch
  rw [List.cons_append, lexer_match, hs, h]
  simp only [strip_word, ← List.cons_append, List.take_left, List.drop_left, if_true]

theorem string_free (str : Bytes) : Free (json_serialize_string str) [.string (escaped str)] := by
  intro rest
  refine lexes_token _ ?_ rfl
  rw [List.cons_append, lexer_match, structural_token, literal_word]
  simp only [Nat.reduceEqDiff, if_false, if_true]
  have ht : string_tail (escaped str ++ [34] ++ rest) = some (escaped str, rest) := by
    rw [List.append_assoc, List.singleton_append, string_tail_escaped]
  rw [string_match_eq]
  exact congrArg (Option.map fun r : Bytes × Bytes => (Token.string r.1, r.2)) ht

theorem digit_start (h : ch = 45 ∨ is_digit ch = true) :
    structural_token ch = none ∧ literal_word ch = none ∧ ch ≠ 34 ∧ whitespace ch = false := by
  unfold is_digit at h
  simp only [Bool.and_eq_true, decide_eq_true_eq] at h
  unfold structural_token literal_word whitespace
  simp only [Bool.or_eq_false_iff, beq_eq_false_iff_ne]
  refine ⟨?_, ?_, by omega, by omega⟩
  · repeat rw [if_neg (by omega)]
  · repeat rw [if_neg (by omega)]

theorem number_lexes (h : Lexeme lexeme) : Lexes lexeme [.number lexeme] := by
  intro rest hrest
  have hn := h rest hrest
  cases lexeme with
  | nil => exact absurd rfl (number_takes _ _ _ hn).2
  | cons ch tail =>
    have hch : ch = 45 ∨ is_digit ch = true := by
      by_contra hno
      rw [List.cons_append, number_start hno] at hn
      cases hn
    obtain ⟨hs, hw, h34, hspace⟩ := digit_start hch
    refine lexes_token _ ?_ hspace
    rw [List.cons_append, lexer_match, hs, hw]
    simp only [if_neg h34]
    rw [← List.cons_append, hn]
    rfl

mutual

def lexemes : Value → List Bytes
  | .null => []
  | .bool _ => []
  | .number lexeme => [lexeme]
  | .string _ => []
  | .array elements => lexemes_elements elements
  | .object pairs => lexemes_pairs pairs

def lexemes_elements : List Value → List Bytes
  | [] => []
  | V :: rest => lexemes V ++ lexemes_elements rest

def lexemes_pairs : List (Bytes × Value) → List Bytes
  | [] => []
  | (_, V) :: rest => lexemes V ++ lexemes_pairs rest

end

theorem lexemes_elements_concat (E : List Value) (V : Value) :
    lexemes_elements (E ++ [V]) = lexemes_elements E ++ lexemes V := by
  induction E with
  | nil => simp [lexemes_elements]
  | cons W E ih => rw [List.cons_append, lexemes_elements, lexemes_elements, ih, List.append_assoc]

theorem lexemes_pairs_concat (M : List (Bytes × Value)) (K : Bytes) (V : Value) :
    lexemes_pairs (M ++ [(K, V)]) = lexemes_pairs M ++ lexemes V := by
  induction M with
  | nil => simp [lexemes_pairs]
  | cons W M ih => rw [List.cons_append, lexemes_pairs, lexemes_pairs, ih, List.append_assoc]

def Symbol.lexemes : Symbol → List Bytes
  | .value V => Json.lexemes V
  | .members M => lexemes_pairs M
  | .pair _ V => Json.lexemes V
  | .elements E => lexemes_elements E

theorem Derives.lexemes {commas : Bool} {S : Symbol} (h : Derives commas S ts) :
    ∀ lexeme ∈ S.lexemes, .number lexeme ∈ ts := by
  induction h with
  | number T =>
    intro lexeme hl
    obtain rfl := List.mem_singleton.mp hl
    exact List.mem_cons_self
  | members_comma _ _ ihm ihp =>
    intro lexeme hl
    rw [Symbol.lexemes, lexemes_pairs_concat, List.mem_append] at hl
    rw [List.mem_append, List.mem_cons]
    exact hl.imp (ihm lexeme) (fun h => Or.inr (ihp lexeme h))
  | elements_comma _ _ ihe ihv =>
    intro lexeme hl
    rw [Symbol.lexemes, lexemes_elements_concat, List.mem_append] at hl
    rw [List.mem_append, List.mem_cons]
    exact hl.imp (ihe lexeme) (fun h => Or.inr (ihv lexeme h))
  | members_pair _ ih =>
    intro lexeme hl
    rw [Symbol.lexemes, lexemes_pairs, lexemes_pairs, List.append_nil] at hl
    exact ih lexeme hl
  | elements_value _ ih =>
    intro lexeme hl
    rw [Symbol.lexemes, lexemes_elements, lexemes_elements, List.append_nil] at hl
    exact ih lexeme hl
  | pair _ _ ih =>
    intro lexeme hl
    exact List.mem_cons_of_mem _ (List.mem_cons_of_mem _ (ih lexeme hl))
  | object _ ih => exact fun lexeme hl => by simp [ih lexeme hl]
  | array _ ih => exact fun lexeme hl => by simp [ih lexeme hl]
  | object_last _ _ ih => exact fun lexeme hl => by simp [ih lexeme hl]
  | array_last _ _ ih => exact fun lexeme hl => by simp [ih lexeme hl]
  | _ => exact fun _ hl => nomatch hl

theorem number_token (h : json_lexer_next text = some (some (.number lexeme, rest))) :
    Lexeme lexeme := by
  unfold json_lexer_next at h
  split at h
  · cases h
  · next ch tail hd =>
    obtain ⟨r, hr, he⟩ := Option.map_eq_some_iff.mp h
    cases he
    rw [lexer_match] at hr
    split at hr
    · next token hs =>
      cases hr
      unfold structural_token at hs
      repeat' split at hs
      all_goals cases hs
    · split at hr
      · next hw =>
        unfold strip_word at hr
        split at hr
        · cases hr
          obtain h | h | h := literal_word_token hw <;> cases h
        · cases hr
      · split at hr
        · obtain ⟨s, -, he⟩ := Option.map_eq_some_iff.mp hr
          cases he
        · obtain ⟨s, hs, he⟩ := Option.map_eq_some_iff.mp hr
          cases he
          exact number_again hs

theorem number_tokens (text : Bytes) (h : json_tokens text = some ts) (hl : .number lexeme ∈ ts) :
    Lexeme lexeme := by
  induction hn : text.length using Nat.strong_induction_on generalizing text ts with
  | _ n ih =>
    subst hn
    rw [json_tokens_next] at h
    cases hnext : json_lexer_next text with
    | none =>
      rw [hnext] at h
      cases h
    | some found =>
      rw [hnext] at h
      cases found with
      | none =>
        cases h
        cases hl
      | some found =>
        obtain ⟨us, hus, rfl⟩ := Option.map_eq_some_iff.mp h
        rw [List.mem_cons] at hl
        obtain hl | hl := hl
        · obtain ⟨token, rest⟩ := found
          obtain rfl : .number lexeme = token := hl
          exact number_token hnext
        · exact ih _ (json_lexer_next_shorter hnext) found.2 hus hl rfl

structure Layout.Blank (lay : Layout) : Prop where
  newline : ∀ ch ∈ lay.newline, whitespace ch = true
  unit : ∀ ch ∈ lay.unit, whitespace ch = true
  gap : ∀ ch ∈ lay.gap, whitespace ch = true

variable {lay : Layout}

theorem Layout.Blank.indent (h : lay.Blank) (level : ℕ) :
    ∀ ch ∈ lay.indent level, whitespace ch = true := by
  intro ch hch
  unfold Layout.indent at hch
  obtain ⟨unit, hunit, hch⟩ := List.mem_flatten.mp hch
  rw [List.eq_of_mem_replicate hunit] at hch
  exact h.unit ch hch

theorem space_delim (h : whitespace ch = true) : json_sax_is_delim ch = true := by
  unfold json_sax_is_delim
  rw [h]
  rfl

theorem terminated_space (hs : ∀ ch ∈ space, whitespace ch = true) (ht : terminated text = true) :
    terminated (space ++ text) = true := by
  cases space with
  | nil => exact ht
  | cons ch space => exact space_delim (hs ch List.mem_cons_self)

theorem separator_free {α : Type} (rest : List α) (hs : ∀ ch ∈ space, whitespace ch = true) :
    Free (separator rest ++ space) (comma_before rest) := by
  cases rest with
  | nil => exact space_free hs
  | cons x rest =>
    exact (structural_free (c := 44) rfl rfl).append (space_free hs)

theorem child_free {α : Type} {tail : Bytes} (rest : List α) (h : Lexes text ts)
    (hs : ∀ ch ∈ space, whitespace ch = true) (ht : Free tail us)
    (hd : rest = [] → ∀ more, terminated (tail ++ more) = true) :
    Free (text ++ separator rest ++ space ++ tail) (ts ++ comma_before rest ++ us) := by
  have hend : ∀ more, terminated (separator rest ++ space ++ tail ++ more) = true := by
    intro more
    cases rest with
    | nil =>
      rw [List.append_assoc]
      exact terminated_space hs (hd rfl more)
    | cons x rest => rfl
  have := h.append ((separator_free rest hs).append ht) hend
  simpa [List.append_assoc] using this

theorem closing_free (hlay : lay.Blank) (level : ℕ) (h : structural_token c = some token)
    (hch : whitespace c = false) (hd : json_sax_is_delim c = true) :
    Free (lay.indent level ++ [c]) [token] ∧
      ∀ more, terminated (lay.indent level ++ [c] ++ more) = true := by
  refine ⟨(space_free (hlay.indent level)).append (structural_free h hch), fun more => ?_⟩
  rw [List.append_assoc]
  exact terminated_space (hlay.indent level) hd

mutual

theorem layout_value (hlay : lay.Blank) : ∀ (level : ℕ) (V : Value),
    (∀ lexeme ∈ lexemes V, Lexeme lexeme) → Lexes (lay.value level V) (spelled V)
  | _, .null, _ => (word_free (c := 110) rfl rfl rfl).lexes
  | _, .bool true, _ => (word_free (c := 116) rfl rfl rfl).lexes
  | _, .bool false, _ => (word_free (c := 102) rfl rfl rfl).lexes
  | _, .number lexeme, h => number_lexes (h lexeme List.mem_cons_self)
  | _, .string str, _ => by
    rw [Layout.value, spelled]
    exact (string_free str).lexes
  | _, .array [], _ =>
    ((structural_free (c := 91) rfl rfl).append (structural_free (c := 93) rfl rfl)).lexes
  | level, .array (V :: rest), h => by
    obtain ⟨hclose, hd⟩ := closing_free (c := 93) hlay level rfl rfl rfl
    have := (structural_free (c := 91) rfl rfl).append
      ((space_free hlay.newline).append
        (layout_elements hlay level (V :: rest) h _ _ hclose hd))
    rw [Layout.value, spelled]
    simpa [List.append_assoc] using this.lexes
  | _, .object [], _ =>
    ((structural_free (c := 123) rfl rfl).append (structural_free (c := 125) rfl rfl)).lexes
  | level, .object (P :: rest), h => by
    obtain ⟨hclose, hd⟩ := closing_free (c := 125) hlay level rfl rfl rfl
    have := (structural_free (c := 123) rfl rfl).append
      ((space_free hlay.newline).append
        (layout_pairs hlay level (P :: rest) h _ _ hclose hd))
    rw [Layout.value, spelled]
    simpa [List.append_assoc] using this.lexes

theorem layout_elements (hlay : lay.Blank) : ∀ (level : ℕ) (E : List Value),
    (∀ lexeme ∈ lexemes_elements E, Lexeme lexeme) → ∀ (tail : Bytes) (ts : List Token),
      Free tail ts → (∀ more, terminated (tail ++ more) = true) →
      Free (lay.elements level E ++ tail) (spelled_elements E ++ ts)
  | _, [], _, _, _, ht, _ => ht
  | level, V :: rest, h, tail, ts, ht, hd => by
    rw [lexemes_elements] at h
    have hV := layout_value hlay (level + 1) V (fun l hl => h l (List.mem_append_left _ hl))
    have hrest := layout_elements hlay level rest (fun l hl => h l (List.mem_append_right _ hl))
      tail ts ht hd
    have := (space_free (hlay.indent (level + 1))).append (child_free rest hV hlay.newline hrest
      (fun hnil => by subst hnil; exact hd))
    rw [Layout.elements, spelled_elements]
    simpa [List.append_assoc] using this

theorem layout_pairs (hlay : lay.Blank) : ∀ (level : ℕ) (M : List (Bytes × Value)),
    (∀ lexeme ∈ lexemes_pairs M, Lexeme lexeme) → ∀ (tail : Bytes) (ts : List Token),
      Free tail ts → (∀ more, terminated (tail ++ more) = true) →
      Free (lay.pairs level M ++ tail) (spelled_pairs M ++ ts)
  | _, [], _, _, _, ht, _ => ht
  | level, (K, V) :: rest, h, tail, ts, ht, hd => by
    rw [lexemes_pairs] at h
    have hV := layout_value hlay (level + 1) V (fun l hl => h l (List.mem_append_left _ hl))
    have hrest := layout_pairs hlay level rest (fun l hl => h l (List.mem_append_right _ hl))
      tail ts ht hd
    have hcolon := (structural_free (c := 58) rfl rfl).append (space_free hlay.gap)
    have := (space_free (hlay.indent (level + 1))).append ((string_free K).append
      (hcolon.append (child_free rest hV hlay.newline hrest
        (fun hnil => by subst hnil; exact hd))))
    rw [Layout.pairs, spelled_pairs]
    simpa [List.append_assoc] using this

end

variable {V : Value}

theorem layout_parses (hlay : lay.Blank) (level : ℕ) (h : ∀ lexeme ∈ lexemes V, Lexeme lexeme) :
    json_parse (lay.value level V) V := by
  refine ⟨spelled V, ?_, derives_spelled V⟩
  have := layout_value hlay level V h [] rfl
  rw [List.append_nil] at this
  rw [this]
  exact congrArg some (List.append_nil _)

theorem json_parse_lexemes (h : json_parse text V) : ∀ lexeme ∈ lexemes V, Lexeme lexeme := by
  obtain ⟨ts, hts, hV⟩ := h
  exact fun lexeme hl => number_tokens text hts (hV.lexemes lexeme hl)

theorem compact_blank : Layout.compact.Blank := ⟨nofun, nofun, nofun⟩

theorem pretty_blank {newline : Bytes} (h : ∀ ch ∈ newline, whitespace ch = true) :
    (Layout.pretty newline).Blank := 
  ⟨h, (by decide : ∀ ch ∈ [32, 32], whitespace ch = true),
    (by decide : ∀ ch ∈ [32], whitespace ch = true)⟩

theorem serialize_parses (h : ∀ lexeme ∈ lexemes V, Lexeme lexeme) :
    json_parse (json_serialize V) V := by
  rw [json_serialize, ← Layout.compact_value 0]
  exact layout_parses compact_blank 0 h

theorem pretty_parses (h : ∀ lexeme ∈ lexemes V, Lexeme lexeme) {newline : Bytes}
    (hn : ∀ ch ∈ newline, whitespace ch = true) :
    json_parse (json_serialize_pretty_value_ex newline 0 V) V := by
  rw [← Layout.pretty_value]
  exact layout_parses (pretty_blank hn) 0 h

/-- A parsed value that is serialised and parsed again is the same value, and is
serialised to the same text. -/
theorem serialise_round_trip (text : Bytes) (V : Value) (h : json_parse text V)
    (serialise : Value → Bytes)
    (hs : serialise ∈ [json_serialize, json_serialize_pretty, json_serialize_pretty_crlf]) :
    json_parse (serialise V) V ∧
      ∀ W, json_parse (serialise V) W → W = V ∧ serialise W = serialise V := by
  have hlex := json_parse_lexemes h
  have hp : json_parse (serialise V) V := by
    simp only [List.mem_cons, List.not_mem_nil, or_false] at hs
    obtain rfl | rfl | rfl := hs
    · exact serialize_parses hlex
    · exact pretty_parses hlex (by decide)
    · exact pretty_parses hlex (by decide)
  refine ⟨hp, fun W hW => ?_⟩
  obtain rfl := json_parse_unique hW hp
  exact ⟨rfl, rfl⟩

/-- `["\n", 1e2]` -/
theorem serialise_round_trip_array :
    json_parse [91, 34, 92, 110, 34, 44, 49, 101, 50, 93]
      (.array [.string [10], .number [49, 101, 50]]) ∧
      json_parse
        (json_serialize_pretty_crlf (.array [.string [10], .number [49, 101, 50]]))
        (.array [.string [10], .number [49, 101, 50]]) := by
  have h : json_parse [91, 34, 92, 110, 34, 44, 49, 101, 50, 93]
      (.array [.string [10], .number [49, 101, 50]]) :=
    ⟨[.lbracket, .string [92, 110], .comma, .number [49, 101, 50], .rbracket], by decide +kernel,
      derives_spelled (.array [.string [10], .number [49, 101, 50]])⟩
  exact ⟨h, (serialise_round_trip _ _ h json_serialize_pretty_crlf (by simp)).1⟩

end SaltsUtils.Json
