import SaltsUtils.Json.CSerdeWriter
import SaltsUtils.Json.RoundTrip

/-!
# What the CSerde reader gives back

The text of a document is parsed to its value, and reading the value gives the tokens of
the document again.
-/

set_option autoImplicit false

namespace SaltsUtils.Json

open Decimal

theorem numeral_digit (n : ℕ) : ∀ ch ∈ numeral n, is_digit ch = true := by
  intro ch hch
  have := numeral_digits n ch hch
  unfold is_digit
  simp only [Bool.and_eq_true, decide_eq_true_eq]
  exact this

theorem unsigned_int_numeral (n : ℕ) : unsigned_int (numeral n) = some (numeral n, []) := by
  have hd := numeral_digit n
  obtain ⟨ch, rest, hn, hzero, -⟩ := numeral_head n
  rw [hn] at hd ⊢
  rw [unsigned_int]
  split
  · next h48 => rw [hzero h48, h48]
  · have hrest : ∀ c ∈ rest, is_digit c = true := fun c hc => hd c (List.mem_cons_of_mem ch hc)
    have hend : ∀ c ∈ ([] : Bytes).head?, is_digit c = false := by simp
    obtain ⟨ht, hdrop⟩ := digits_run hrest hend
    rw [List.append_nil] at ht hdrop
    rw [digits, if_pos (hd ch List.mem_cons_self), ht, hdrop]

theorem number_of_int {text : Bytes} (h : int_part text = some (text, [])) :
    number text = some (text, []) := by
  rw [number_parts, h]
  simp only [Option.map_some, frac_exp, optional, frac, exp, extend, Option.getD_none,
    List.append_nil]

theorem numeral_not_minus (n : ℕ) : int_part (numeral n) = unsigned_int (numeral n) := by
  have hd := numeral_digits n
  obtain ⟨ch, rest, hn, -⟩ := numeral_head n
  rw [hn] at hd ⊢
  have := hd ch List.mem_cons_self
  exact if_neg (by omega)

theorem numeral_lexeme (n : ℕ) : Lexeme (numeral n) :=
  number_again (number_of_int (by rw [numeral_not_minus, unsigned_int_numeral]))

theorem negative_lexeme (n : ℕ) : Lexeme (45 :: numeral n) := by
  refine number_again (number_of_int ?_)
  rw [int_part, if_pos rfl, unsigned_int_numeral]
  rfl

theorem magnitude_numeral {limit : ℕ} (hl : 10 ≤ limit) {n : ℕ} (h : n ≤ limit) (more : Bytes) :
    json_cserde_magnitude limit 0 (numeral n ++ more) = json_cserde_magnitude limit n more := by
  induction n using Nat.strong_induction_on generalizing more with
  | _ n ih =>
    by_cases hn : n < 10
    · have hd : is_digit (48 + n) = true := by
        unfold is_digit
        simp only [Bool.and_eq_true, decide_eq_true_eq]
        omega
      rw [numeral_small hn, List.singleton_append, json_cserde_magnitude, hd,
        if_neg Bool.true_eq_false_eq_False, if_neg (Nat.not_lt_zero _), Nat.zero_mul,
        Nat.zero_add, Nat.add_sub_cancel_left]
    · have hd : is_digit (48 + n % 10) = true := by
        unfold is_digit
        simp only [Bool.and_eq_true, decide_eq_true_eq]
        omega
      have hroom : ¬ (limit - (48 + n % 10 - 48)) / 10 < n / 10 := by omega
      have hsum : n / 10 * 10 + (48 + n % 10 - 48) = n := by omega
      rw [numeral_large hn, List.append_assoc, ih (n / 10) (by omega) (by omega),
        List.singleton_append, json_cserde_magnitude, hd, if_neg Bool.true_eq_false_eq_False,
        if_neg hroom, hsum]

theorem magnitude_all (limit : ℕ) (hl : 10 ≤ limit) {n : ℕ} (h : n ≤ limit) :
    json_cserde_magnitude limit 0 (numeral n) = some n := by
  have := magnitude_numeral hl h []
  rw [List.append_nil] at this
  exact this

theorem integer_token_numeral {F : Type} {n : ℕ} (h : n < 2 ^ 64) :
    json_cserde_integer_token (F := F) (numeral n) = some (.uint (UInt64.ofNat n)) := by
  have hd := numeral_digits n
  have hm := magnitude_all uint64_max (by decide) (n := n) (by unfold uint64_max; omega)
  obtain ⟨ch, rest, hn, -⟩ := numeral_head n
  rw [hn] at hd hm ⊢
  have := hd ch List.mem_cons_self
  rw [json_cserde_integer_token, if_neg (by omega), hm]
  rfl

theorem integer_token_negative {F : Type} {n : ℕ} (h : n ≤ 2 ^ 63) :
    json_cserde_integer_token (F := F) (45 :: numeral n) = some (.sint (Int64.ofInt (-n))) := by
  have hm := magnitude_all int64_limit (by decide) (n := n) h
  obtain ⟨ch, rest, hn, -⟩ := numeral_head n
  have hne : numeral n ≠ [] := by
    rw [hn]
    exact List.cons_ne_nil _ _
  rw [json_cserde_integer_token, if_pos rfl, if_neg hne, hm, Option.map_some]
  congr 2
  split
  · next he =>
    subst he
    decide
  · rw [Int64.ofInt_neg]
    rfl

def read_back {F : Type} : CSerdeToken F → CSerdeToken F
  | .sint val => if val.toInt < 0 then .sint val else .uint (UInt64.ofNat val.toInt.toNat)
  | token => token

theorem not_fractional {text : Bytes} (h : ∀ ch ∈ text, ch = 45 ∨ 48 ≤ ch ∧ ch ≤ 57) :
    text.contains 46 = false ∧ text.contains 101 = false ∧ text.contains 69 = false := by
  have hno : ∀ c, ¬ (c = 45 ∨ 48 ≤ c ∧ c ≤ 57) → text.contains c = false := by
    intro c hc
    rw [Bool.eq_false_iff, ne_eq, List.contains_iff_mem]
    exact fun hmem => hc (h c hmem)
  exact ⟨hno 46 (by omega), hno 101 (by omega), hno 69 (by omega)⟩

namespace Reader
variable {F : Type} {platform : Platform F} {value_of : Bytes → F} {max_depth : ℕ}

theorem number_token_uint (hp : platform.Sound) (val : UInt64) :
    json_cserde_number_token platform value_of (format_uint val) = some (.uint val) := by
  have hlt := val.toNat_lt
  have hdigits : ∀ ch ∈ format_uint val, ch = 45 ∨ 48 ≤ ch ∧ ch ≤ 57 :=
    fun ch hch => Or.inr (numeral_digits _ ch hch)
  unfold json_cserde_number_token
  rw [show platform.number_finite (format_uint val) = true from (hp.integers _ hlt).1,
    if_neg Bool.true_eq_false_eq_False, if_pos (not_fractional hdigits), format_uint,
    integer_token_numeral hlt, UInt64.ofNat_toNat]

theorem number_token_sint (hp : platform.Sound) (val : Int64) :
    json_cserde_number_token platform value_of (format_sint val) =
      some (read_back (.sint val)) := by
  obtain ⟨hn, hpos⟩ := sint_magnitude val
  unfold json_cserde_number_token format_sint read_back
  split
  · next hneg =>
    have hdigits : ∀ ch ∈ 45 :: numeral (-val.toInt).toNat, ch = 45 ∨ 48 ≤ ch ∧ ch ≤ 57 := by
      intro ch hch
      rw [List.mem_cons] at hch
      exact hch.imp id (fun hch => numeral_digits _ ch hch)
    have hback : Int64.ofInt (-((-val.toInt).toNat : ℤ)) = val := by
      rw [Int.toNat_of_nonneg (by omega), Int.neg_neg, Int64.ofInt_toInt]
    rw [(hp.integers _ (by omega)).2, if_neg Bool.true_eq_false_eq_False,
      if_pos (not_fractional hdigits), integer_token_negative hn, hback]
    exact congrArg some (if_pos hneg).symm
  · next hneg =>
    have hdigits : ∀ ch ∈ numeral val.toInt.toNat, ch = 45 ∨ 48 ≤ ch ∧ ch ≤ 57 :=
      fun ch hch => Or.inr (numeral_digits _ ch hch)
    rw [(hp.integers _ (by omega)).1, if_neg Bool.true_eq_false_eq_False,
      if_pos (not_fractional hdigits), integer_token_numeral (by omega)]
    exact congrArg some (if_neg hneg).symm

end Reader

namespace Document
variable {F : Type}

mutual

def Integral : Document F → Prop
  | .floating _ => False
  | .array elements => IntegralElements elements
  | .map members => IntegralMembers members
  | _ => True

def IntegralElements : List (Document F) → Prop
  | [] => True
  | d :: rest => Integral d ∧ IntegralElements rest

def IntegralMembers : List (Bytes × Document F) → Prop
  | [] => True
  | (_, d) :: rest => Integral d ∧ IntegralMembers rest

end

mutual

theorem integral_of_tokens : ∀ d : Document F, (∀ x, .floating x ∉ d.tokens) → d.Integral
  | .null, _ => trivial
  | .boolean _, _ => trivial
  | .sint _, _ => trivial
  | .uint _, _ => trivial
  | .floating x, h => h x List.mem_cons_self
  | .string _, _ => trivial
  | .array E, h => integral_of_elements E fun x hx => h x (by
      rw [tokens, List.mem_append, List.mem_cons]
      exact Or.inl (Or.inr hx))
  | .map M, h => integral_of_members M fun x hx => h x (by
      rw [tokens, List.mem_append, List.mem_cons]
      exact Or.inl (Or.inr hx))

theorem integral_of_elements : ∀ E : List (Document F),
    (∀ x, .floating x ∉ element_tokens E) → IntegralElements E
  | [], _ => trivial
  | d :: rest, h => by
    simp only [element_tokens, List.mem_append, not_or] at h
    exact ⟨integral_of_tokens d fun x => (h x).1, integral_of_elements rest fun x => (h x).2⟩

theorem integral_of_members : ∀ M : List (Bytes × Document F),
    (∀ x, .floating x ∉ member_tokens M) → IntegralMembers M
  | [], _ => trivial
  | (K, d) :: rest, h => by
    simp only [member_tokens, List.cons_append, List.mem_cons, List.mem_append, not_or] at h
    exact ⟨integral_of_tokens d fun x => (h x).2.1, integral_of_members rest fun x => (h x).2.2⟩

end

theorem format_sint_lexeme (val : Int64) : Lexeme (format_sint val) := by
  unfold format_sint
  split
  · exact negative_lexeme _
  · exact numeral_lexeme _

mutual

theorem value_lexemes (format : F → Bytes) : ∀ d : Document F, d.Integral →
    ∀ lexeme ∈ lexemes (d.value format), Lexeme lexeme
  | .null, _, _, hl => nomatch hl
  | .boolean _, _, _, hl => nomatch hl
  | .sint val, _, lexeme, hl => by
    obtain rfl := List.mem_singleton.mp hl
    exact format_sint_lexeme val
  | .uint val, _, lexeme, hl => by
    obtain rfl := List.mem_singleton.mp hl
    exact numeral_lexeme _
  | .floating _, h, _, _ => h.elim
  | .string _, _, _, hl => nomatch hl
  | .array E, h, lexeme, hl => element_lexemes format E h lexeme hl
  | .map M, h, lexeme, hl => member_lexemes format M h lexeme hl

theorem element_lexemes (format : F → Bytes) : ∀ E : List (Document F), IntegralElements E →
    ∀ lexeme ∈ lexemes_elements (element_values format E), Lexeme lexeme
  | [], _, _, hl => nomatch hl
  | d :: rest, h, lexeme, hl => by
    rw [element_values, lexemes_elements, List.mem_append] at hl
    exact hl.elim (value_lexemes format d h.1 lexeme) (element_lexemes format rest h.2 lexeme)

theorem member_lexemes (format : F → Bytes) : ∀ M : List (Bytes × Document F), IntegralMembers M →
    ∀ lexeme ∈ lexemes_pairs (member_values format M), Lexeme lexeme
  | [], _, _, hl => nomatch hl
  | (K, d) :: rest, h, lexeme, hl => by
    rw [member_values, lexemes_pairs, List.mem_append] at hl
    exact hl.elim (value_lexemes format d h.1 lexeme) (member_lexemes format rest h.2 lexeme)

end

end Document

namespace Reader
variable {F : Type} {platform : Platform F} {value_of : Bytes → F} {max_depth : ℕ}

def Gives (platform : Platform F) (value_of : Bytes → F) (max_depth : ℕ) (r : Reader)
    (tokens : List (CSerdeToken F)) : Prop :=
  ∀ fuel, tokens.length < fuel → read_run platform value_of max_depth fuel r = some tokens

theorem gives_done : Gives platform value_of max_depth ⟨none, []⟩ [] := by
  intro fuel hf
  obtain ⟨fuel, rfl⟩ : ∃ k, fuel = k + 1 := ⟨fuel - 1, by simp at hf; omega⟩
  rfl

theorem gives_next {r r' : Reader} {token : CSerdeToken F} {tokens : List (CSerdeToken F)}
    (h : r.json_cserde_next platform value_of max_depth = some (some (token, r')))
    (hr : Gives platform value_of max_depth r' tokens) :
    Gives platform value_of max_depth r (token :: tokens) := by
  intro fuel hf
  obtain ⟨fuel, rfl⟩ : ∃ k, fuel = k + 1 := ⟨fuel - 1, by simp at hf; omega⟩
  rw [read_run, h]
  simp only
  rw [hr fuel (by simp at hf; omega)]
  rfl

theorem gives_same {r r' : Reader} {tokens : List (CSerdeToken F)}
    (hr : Gives platform value_of max_depth r' tokens)
    (h : r.json_cserde_next platform value_of max_depth =
      r'.json_cserde_next platform value_of max_depth) :
    Gives platform value_of max_depth r tokens := by
  intro fuel hf
  rw [← hr fuel hf]
  cases fuel with
  | zero => rfl
  | succ fuel => rw [read_run, read_run, h]

mutual

theorem gives_document (hp : platform.Sound) (format : F → Bytes) : ∀ (d : Document F)
    (frames : List ReaderFrame) (tokens : List (CSerdeToken F)),
    d.Integral → frames.length + d.depth ≤ max_depth →
    Gives platform value_of max_depth ⟨none, frames⟩ tokens →
    Gives platform value_of max_depth ⟨some (d.value format), frames⟩
      (d.tokens.map read_back ++ tokens)
  | .null, _, _, _, _, h => gives_next rfl h
  | .boolean _, _, _, _, _, h => gives_next rfl h
  | .sint val, frames, tokens, _, _, h => by
    refine gives_next ?_ h
    simp only [json_cserde_next, Document.value, json_cserde_emit_value, number_token_sint hp]
    rfl
  | .uint val, frames, tokens, _, _, h => by
    refine gives_next ?_ h
    simp only [json_cserde_next, Document.value, json_cserde_emit_value, number_token_uint hp]
    rfl
  | .floating _, _, _, hi, _, _ => hi.elim
  | .string _, _, _, _, _, h => gives_next rfl h
  | .array E, frames, tokens, hi, hd, h => by
    rw [Document.depth] at hd
    have hroom : ¬ max_depth ≤ frames.length := by omega
    have hE := gives_elements hp format E frames tokens hi (by omega) h
    rw [Document.tokens, List.map_append, List.map_cons, List.append_assoc]
    refine gives_next ?_ hE
    simp only [json_cserde_next, Document.value, json_cserde_emit_value,
      json_cserde_push_container, if_neg hroom]
    rfl
  | .map M, frames, tokens, hi, hd, h => by
    rw [Document.depth] at hd
    have hroom : ¬ max_depth ≤ frames.length := by omega
    have hM := gives_members hp format M frames tokens hi (by omega) h
    rw [Document.tokens, List.map_append, List.map_cons, List.append_assoc]
    refine gives_next ?_ hM
    simp only [json_cserde_next, Document.value, json_cserde_emit_value,
      json_cserde_push_container, if_neg hroom]
    rfl

theorem gives_elements (hp : platform.Sound) (format : F → Bytes) : ∀ (E : List (Document F))
    (frames : List ReaderFrame) (tokens : List (CSerdeToken F)),
    Document.IntegralElements E → frames.length + 1 + Document.element_depth E ≤ max_depth →
    Gives platform value_of max_depth ⟨none, frames⟩ tokens →
    Gives platform value_of max_depth ⟨none, .array (Document.element_values format E) :: frames⟩
      ((Document.element_tokens E).map read_back ++ ([.array_end].map read_back ++ tokens))
  | [], _, _, _, _, h => gives_next rfl h
  | d :: rest, frames, tokens, hi, hd, h => by
    rw [Document.element_depth] at hd
    have hrest := gives_elements hp format rest frames tokens hi.2 (by omega) h
    have hfirst := gives_document hp format d (.array (Document.element_values format rest) :: frames)
      _ hi.1 (by rw [List.length_cons]; omega) hrest
    rw [Document.element_tokens, List.map_append, List.append_assoc]
    exact gives_same hfirst rfl

theorem gives_members (hp : platform.Sound) (format : F → Bytes) :
    ∀ (M : List (Bytes × Document F)) (frames : List ReaderFrame) (tokens : List (CSerdeToken F)),
    Document.IntegralMembers M → frames.length + 1 + Document.member_depth M ≤ max_depth →
    Gives platform value_of max_depth ⟨none, frames⟩ tokens →
    Gives platform value_of max_depth
      ⟨none, .object (Document.member_values format M) false :: frames⟩
      ((Document.member_tokens M).map read_back ++ ([.map_end].map read_back ++ tokens))
  | [], _, _, _, _, h => gives_next rfl h
  | (K, d) :: rest, frames, tokens, hi, hd, h => by
    rw [Document.member_depth] at hd
    have hrest := gives_members hp format rest frames tokens hi.2 (by omega) h
    have hvalue := gives_document hp format d
      (.object (Document.member_values format rest) false :: frames)
      _ hi.1 (by rw [List.length_cons]; omega) hrest
    rw [Document.member_tokens, List.cons_append, List.map_cons, List.map_append, List.cons_append,
      List.append_assoc]
    exact gives_next rfl (gives_same hvalue rfl)

end

theorem reads_document (hp : platform.Sound) (format : F → Bytes) {d : Document F}
    (hi : d.Integral) (hd : d.depth ≤ max_depth) :
    Gives platform value_of max_depth (create (d.value format)) (d.tokens.map read_back) := by
  have hread : Gives platform value_of max_depth ⟨some (d.value format), []⟩
      (d.tokens.map read_back ++ []) :=
    gives_document hp format d [] [] hi (Nat.le_trans (Nat.le_of_eq (Nat.zero_add _)) hd) gives_done
  rwa [List.append_nil] at hread

end Reader

/-- A platform whose doubles are the ten digits. -/
noncomputable def digit_platform : Platform (Fin 10) where
  vstr_utf8_valid s := open Classical in decide (Utf8.Valid s)
  isfinite _ := true
  format x := [48 + x.val]
  number_finite _ := true

theorem digit_platform_sound : digit_platform.Sound where
  utf8 s := by
    classical
    exact decide_eq_true_iff
  format x _ := ⟨Nat.one_pos, (by decide : 1 < 64)⟩
  integers n _ := ⟨rfl, rfl⟩

end SaltsUtils.Json
