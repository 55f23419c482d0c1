import SaltsUtils.Selector.Lexer
import Mathlib.Data.List.TakeWhile

/-!
# Token streams

Every match ends with a byte below `0x80`, so the lexer cuts a text of UTF-8 into
texts of UTF-8. A text that spells tokens spells them before any other text, and
spellings compose.
-/

set_option autoImplicit false

namespace SaltsUtils.Selector

open SaltsUtils

def FieldText (field : Bytes) : Prop :=
  ∃ ch tail, field = ch :: tail ∧ ident_start ch = true ∧ field_tail tail = (tail, []) ∧
    word_token field = .field field

def StringText (value : Bytes) : Prop :=
  ∃ body, value = 34 :: body ++ [34] ∧ Literal body

variable {t : Token} {b : Bytes}

theorem second_eq {next : ℕ} {token : Token} {rest : Bytes}
    (h : second next token b = some (t, rest)) : b = next :: rest ∧ t = token := by
  cases b with
  | nil => cases h
  | cons ch b =>
    simp only [second] at h
    split_ifs at h with hc
    cases h
    exact ⟨by rw [hc], rfl⟩

theorem word_token_cases (word : Bytes) :
    word_token word = .field word ∨ ∀ v, word_token word ≠ .string v ∧ word_token word ≠ .field v := by
  unfold word_token
  split_ifs <;> simp

theorem lexer_match_word {ch : ℕ} (h : ident_start ch = true) :
    ∃ w last, ch :: b = w ++ last :: (field_tail b).2 ∧ last < 128 ∧
      (∀ v, word_token (ch :: (field_tail b).1) = .string v → v = w ++ [last] ∧ StringText v) ∧
      ∀ v, word_token (ch :: (field_tail b).1) = .field v → FieldText v := by
  have ha := field_tail_append b
  have hx := field_tail_ascii b
  have hc := ident_start_lt h
  have hstop : Stops [] := by simp [Stops]
  have hm := field_tail_matched b hstop
  rw [List.append_nil] at hm
  generalize field_tail b = m at ha hx hm ⊢
  obtain ⟨taken, r⟩ := m
  have hword := word_token_cases (ch :: taken)
  refine ⟨(ch :: taken).dropLast, (ch :: taken).getLast (by simp), ?_, ?_, ?_, ?_⟩
  · calc
      ch :: b = (ch :: taken) ++ r := by rw [← ha, List.cons_append]
      _ = ((ch :: taken).dropLast ++ [(ch :: taken).getLast (by simp)]) ++ r := by
        rw [List.dropLast_append_getLast]
      _ = _ := by simp
  · have hl := List.getLast_mem (show ch :: taken ≠ [] by simp)
    rcases List.mem_cons.mp hl with he | he
    · omega
    · exact (hx _ he).2
  · intro v hv
    rcases hword with hw | hw
    · rw [hw] at hv
      cases hv
    · exact absurd hv (hw v).1
  · intro v hv
    rcases hword with hw | hw
    · rw [hw] at hv
      cases hv
      exact ⟨ch, taken, rfl, h, hm, hw⟩
    · exact absurd hv (hw v).2

theorem lexer_match_cut {rest : Bytes} (h : lexer_match b = some (t, rest)) :
    ∃ w last, b = w ++ last :: rest ∧ last < 128 ∧
      (∀ v, t = .string v → v = w ++ [last] ∧ StringText v) ∧
      ∀ v, t = .field v → FieldText v := by
  cases b with
  | nil => cases h
  | cons ch b =>
    unfold lexer_match at h
    dsimp only at h
    split at h
    · obtain ⟨rfl, rfl⟩ := second_eq h
      exact ⟨[ch], 38, rfl, by decide, by simp, by simp⟩
    split at h
    · obtain ⟨rfl, rfl⟩ := second_eq h
      exact ⟨[ch], 124, rfl, by decide, by simp, by simp⟩
    split at h
    · obtain ⟨rfl, rfl⟩ := second_eq h
      exact ⟨[ch], 61, rfl, by decide, by simp, by simp⟩
    split at h
    · cases hs : second 61 Token.ne b with
      | none =>
        rw [hs] at h
        cases h
        exact ⟨[], ch, rfl, by omega, by simp, by simp⟩
      | some result =>
        rw [hs] at h
        cases h
        obtain ⟨rfl, rfl⟩ := second_eq hs
        exact ⟨[ch], 61, rfl, by decide, by simp, by simp⟩
    iterate 5
      split at h
      · cases h
        exact ⟨[], ch, rfl, by omega, by simp, by simp⟩
    split at h
    · obtain ⟨⟨taken, r⟩, ht, he⟩ := Option.map_eq_some_iff.mp h
      obtain ⟨rfl, rfl⟩ := Prod.mk.inj he
      obtain ⟨body, hbody, rfl, rfl⟩ := string_tail_append ht
      refine ⟨ch :: body, 34, rfl, by decide, ?_, by simp⟩
      intro v hv
      have hv := (Token.string.inj hv).symm
      exact ⟨hv, body, by rw [hv, ‹ch = 34›]; rfl, hbody⟩
    split at h
    · next hs =>
      cases h
      exact lexer_match_word hs
    · cases h

variable {lexer : Lexer}

theorem next_token {lexer' : Lexer} (h : selector_lexer_next lexer = some (some (t, lexer'))) :
    ∃ skipped b, lexer.cursor = skipped ++ b ∧ (∀ ch ∈ skipped, whitespace ch = true) ∧
      lexer_match b = some (t, lexer'.cursor) := by
  have ha : lexer.cursor.takeWhile whitespace ++ lexer.cursor.dropWhile whitespace =
      lexer.cursor := List.takeWhile_append_dropWhile
  have hs : ∀ ch ∈ lexer.cursor.takeWhile whitespace, whitespace ch = true :=
    fun ch hch => List.mem_takeWhile_imp hch
  unfold selector_lexer_next at h
  generalize lexer.cursor.dropWhile whitespace = b at ha h
  refine ⟨_, b, ha.symm, hs, ?_⟩
  cases b with
  | nil => cases h
  | cons ch rest =>
    simp only at h
    split at h
    · cases h
    · next hm =>
      split_ifs at h
      cases h
      exact hm
    · next hm =>
      cases h
      exact hm
    · next hm =>
      cases h
      exact hm

theorem next_shorter {lexer' : Lexer} (h : selector_lexer_next lexer = some (some (t, lexer'))) :
    lexer'.cursor.length < lexer.cursor.length := by
  obtain ⟨skipped, b, hc, -, hm⟩ := next_token h
  obtain ⟨w, last, hb, -⟩ := lexer_match_cut hm
  rw [hc, hb]
  simp only [List.length_append, List.length_cons]
  omega

theorem lexer_run_enough (n m : ℕ) (lexer : Lexer) (hn : lexer.cursor.length < n)
    (hm : lexer.cursor.length < m) : lexer_run n lexer = lexer_run m lexer := by
  induction n generalizing m lexer with
  | zero => omega
  | succ n ih =>
    cases m with
    | zero => omega
    | succ m =>
      unfold lexer_run
      cases hx : selector_lexer_next lexer with
      | none => rfl
      | some result =>
        cases result with
        | none => rfl
        | some next =>
          obtain ⟨t, lexer'⟩ := next
          have hlt := next_shorter hx
          simp only
          rw [ih m lexer' (by omega) (by omega)]

theorem lexer_tokens_eq (lexer : Lexer) :
    lexer_tokens lexer =
      match selector_lexer_next lexer with
      | none => none
      | some none => some []
      | some (some (token, lexer)) => (lexer_tokens lexer).map (token :: ·) := by
  rw [lexer_tokens, lexer_run]
  cases hx : selector_lexer_next lexer with
  | none => rfl
  | some result =>
    cases result with
    | none => rfl
    | some next =>
      obtain ⟨t, lexer'⟩ := next
      have hlt := next_shorter hx
      simp only
      rw [lexer_run_enough _ (lexer'.cursor.length + 1) lexer' hlt (by omega), lexer_tokens]

def Token.Proper : Token → Prop
  | .string value => Utf8.Valid value ∧ StringText value
  | .field value => FieldText value
  | _ => True

variable {ts : List Token}

theorem lexer_run_proper {n : ℕ} (h : lexer_run n lexer = some ts) (hv : Utf8.Valid lexer.cursor) :
    ∀ t ∈ ts, t.Proper := by
  induction n generalizing lexer ts with
  | zero => cases h
  | succ n ih =>
    unfold lexer_run at h
    split at h
    · cases h
    · cases h
      simp
    · next token lexer' hx =>
      obtain ⟨ts', hts, rfl⟩ := Option.map_eq_some_iff.mp h
      obtain ⟨skipped, b, hc, hs, hm⟩ := next_token hx
      obtain ⟨w, last, hb, hlast, hstring, hfield⟩ := lexer_match_cut hm
      rw [hc, hb, ← List.append_assoc] at hv
      have hcut := hv.split hlast
      have hw : Utf8.Valid (w ++ [last]) := by
        have hsw := hcut.1
        refine Utf8.Valid.append ?_ (Utf8.Valid.ascii_cons hlast .nil)
        clear hcut hv hc
        induction skipped with
        | nil => exact hsw
        | cons ch skipped ihs =>
          have hch := hs ch List.mem_cons_self
          have hlt : ch < 128 := by
            simp only [whitespace, Bool.or_eq_true, beq_iff_eq] at hch
            omega
          exact ihs (fun d hd => hs d (List.mem_cons_of_mem ch hd)) (hsw.of_ascii_cons hlt)
      intro t ht
      rcases List.mem_cons.mp ht with rfl | ht
      · cases t <;> try trivial
        · obtain ⟨hv, ht⟩ := hstring _ rfl
          rw [← hv] at hw
          exact ⟨hw, ht⟩
        · exact hfield _ rfl
      · exact ih hts hcut.2 t ht

theorem selector_tokens_proper {source : Bytes} (h : selector_tokens source = some ts)
    (hv : Utf8.Valid source) : ∀ t ∈ ts, t.Proper :=
  lexer_run_proper h hv

/-- Between the nesting depths `d` and `d'` the text spells the tokens, whatever
text follows. -/
def Spells (d : ℕ) (b : Bytes) (ts : List Token) (d' : ℕ) : Prop :=
  ∀ after, lexer_tokens ⟨b ++ after, d⟩ = (lexer_tokens ⟨after, d'⟩).map (ts ++ ·)

theorem Spells.nil (d : ℕ) : Spells d [] [] d := by
  intro after
  simp

theorem Spells.append {d₁ d₂ d₃ : ℕ} {b' : Bytes} {ts' : List Token} (h : Spells d₁ b ts d₂)
    (h' : Spells d₂ b' ts' d₃) : Spells d₁ (b ++ b') (ts ++ ts') d₃ := by
  intro after
  rw [List.append_assoc, h, h', Option.map_map]
  congr 1
  ext ts'' : 1
  simp

theorem Spells.tokens {d : ℕ} (h : Spells 0 b ts d) : selector_tokens b = some ts := by
  have := h []
  rw [List.append_nil] at this
  rw [selector_tokens, this]
  simp [lexer_tokens, lexer_run, selector_lexer_next]

theorem spells_space (d : ℕ) : Spells d [32] [] d := by
  intro after
  have hx : ([32] ++ after).dropWhile whitespace = after.dropWhile whitespace := by
    simp [whitespace]
  rw [lexer_tokens_eq, lexer_tokens_eq ⟨after, d⟩]
  simp only [selector_lexer_next, hx]
  cases hy : after.dropWhile whitespace with
  | nil => rfl
  | cons ch rest =>
    simp only [List.nil_append]
    cases lexer_match (ch :: rest) <;> simp

theorem spells_match {d : ℕ} {ch : ℕ} {b : Bytes} {t : Token} {after : Bytes}
    (hw : whitespace ch = false) (h : lexer_match (ch :: b ++ after) = some (t, after))
    (hl : t ≠ .lparen) (hr : t ≠ .rparen) :
    lexer_tokens ⟨ch :: b ++ after, d⟩ = (lexer_tokens ⟨after, d⟩).map (t :: ·) := by
  rw [lexer_tokens_eq]
  have hx : (ch :: b ++ after).dropWhile whitespace = ch :: b ++ after := by
    rw [List.cons_append, List.dropWhile_cons_of_neg (by simp [hw])]
  simp only [selector_lexer_next, hx]
  rw [List.cons_append] at h ⊢
  simp only [h]

theorem spells_lparen {d : ℕ} (h : d + 1 ≤ max_depth) : Spells d [40] [.lparen] (d + 1) := by
  intro after
  rw [lexer_tokens_eq]
  have hn : ¬ d + 1 > max_depth := by omega
  simp [selector_lexer_next, whitespace, lexer_match, hn]

theorem spells_rparen (d : ℕ) : Spells d [41] [.rparen] (d - 1) := by
  intro after
  rw [lexer_tokens_eq]
  simp [selector_lexer_next, whitespace, lexer_match]

end SaltsUtils.Selector
