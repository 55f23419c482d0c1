import SaltsUtils.Json.Numbers
import SaltsUtils.Library.Sse

/-!
# The JSON lexer with its searches

`json_lexer_next` on a buffer, a cursor and the limit, with the two searches of
`json_lexer_whitespace.h` in front of the rules. A byte at or behind the limit cannot be
loaded.
-/

set_option autoImplicit false

namespace SaltsUtils.Json.Vectors
open Library.Sse

variable (data : List UInt8) (limit : ℕ)

def is_space (c : UInt8) : Bool := (c == 32 || c == 9) || (c == 10 || c == 13)

def json_skip_rfc_whitespace_scalar (p : ℕ) : Option ℕ :=
  scan_bytes data limit (fun c => !is_space c) (fun _ q => q) (fun q => q) (limit - p + 1) p

def whitespace_step (bytes : M128i) (p : ℕ) : Option (Option ℕ) :=
  let whitespace := or_si128
    (or_si128 (cmpeq_epi8 bytes (set1_epi8 32)) (cmpeq_epi8 bytes (set1_epi8 9)))
    (or_si128 (cmpeq_epi8 bytes (set1_epi8 10)) (cmpeq_epi8 bytes (set1_epi8 13)))
  let whitespace_mask := movemask_epi8 whitespace
  if whitespace_mask = 0xFFFF then some none else (skip_ones 32 whitespace_mask p).map some

def json_skip_rfc_whitespace_simde (p : ℕ) : Option ℕ :=
  scan_vectors data limit whitespace_step some (json_skip_rfc_whitespace_scalar data limit)
    (limit - p + 1) p

def string_step (bytes : M128i) (p : ℕ) : Option (Option ℕ) :=
  let special := or_si128
    (or_si128 (cmpeq_epi8 bytes (set1_epi8 34)) (cmpeq_epi8 bytes (set1_epi8 92)))
    (cmplt_epi8 bytes (set1_epi8 0x20))
  zeros_step (movemask_epi8 special) p

/-- What the loop over single bytes looks for: a quote, or a byte that is not plain. -/
def string_stop (c : UInt8) : Bool :=
  (c == 34 || c == 92) || (decide (c < 0x20) || decide (0x80 ≤ c))

/-- `some none` is the null pointer. -/
def json_find_plain_ascii_string_end (p : ℕ) : Option (Option ℕ) :=
  scan_vectors data limit string_step
    (fun q => (load data limit q).map fun c => if c = 34 then some q else none)
    (fun q => scan_bytes data limit string_stop (fun c r => if c = 34 then some r else none)
      (fun _ => none) (limit - q + 1) q)
    (limit - p + 1) p

inductive TokenType where
  | lbrace
  | rbrace
  | lbracket
  | rbracket
  | colon
  | comma
  | string
  | number
  | true
  | false
  | null
  deriving DecidableEq

def type_of : Token → TokenType
  | .lbrace => .lbrace
  | .rbrace => .rbrace
  | .lbracket => .lbracket
  | .rbracket => .rbracket
  | .colon => .colon
  | .comma => .comma
  | .string _ => .string
  | .number _ => .number
  | .true => .true
  | .false => .false
  | .null => .null

/-- A return value with the token and the cursor that the call leaves. -/
structure Lexed (D : Type) where
  code : ℤ
  type : Option TokenType
  value : Option ℕ
  length : ℕ
  num_value : D
  has_escape : Bool
  cursor : ℕ
  deriving DecidableEq

def rule_match : Bytes → Option (Token × Bytes)
  | [] => none
  | ch :: rest =>
    match structural_token ch with
    | some token => some (token, rest)
    | none =>
      match literal_word ch with
      | some (word, token) => strip_word word token (ch :: rest)
      | none =>
        if ch = 34 then (string_tail rest).map fun result => (.string result.1, result.2)
        else (number (ch :: rest)).map fun result => (.number result.1, result.2)

variable {D : Type} (zero : D) (strtod : Bytes → D × ℕ)

/-- The action of the rule that has matched. -/
def accept (token_start : ℕ) (token : Token) (rest : Bytes) : Lexed D :=
  let cursor := limit - rest.length
  match token with
  | .string value =>
    ⟨1, some .string, some (token_start + 1), cursor - token_start - 2, zero, value.contains 92,
      cursor⟩
  | .number lexeme =>
    ⟨1, some .number, some token_start, cursor - token_start, parse_number strtod lexeme, false,
      cursor⟩
  | token => ⟨1, some (type_of token), some token_start, cursor - token_start, zero, false, cursor⟩

def rules (token_start : ℕ) : Lexed D :=
  let text := (ahead data limit token_start).map UInt8.toNat
  match text with
  | [] => ⟨0, none, none, 0, zero, false, token_start⟩
  | _ :: _ =>
    match rule_match text with
    | some (token, rest) => accept limit zero strtod token_start token rest
    | none => ⟨-1, none, none, 0, zero, false, token_start + 1⟩

/-- The lexer over a way to skip white space and a search for the end of a string. -/
def next_with (skip_whitespace : ℕ → Option ℕ) (find_string_end : ℕ → Option (Option ℕ))
    (cursor : ℕ) : Option (Lexed D) := do
  let token_start ← skip_whitespace cursor
  let string_end ←
    if token_start < limit then do
      let c ← load data limit token_start
      if c = 34 then find_string_end (token_start + 1) else some none
    else some none
  match string_end with
  | some q =>
    some ⟨1, some .string, some (token_start + 1), q - (token_start + 1), zero, false, q + 1⟩
  | none => some (rules data limit zero strtod token_start)

def json_lexer_next (cursor : ℕ) : Option (Lexed D) :=
  next_with data limit zero strtod (json_skip_rfc_whitespace_simde data limit)
    (json_find_plain_ascii_string_end data limit) cursor

def json_lexer_next_scalar (cursor : ℕ) : Option (Lexed D) :=
  next_with data limit zero strtod (json_skip_rfc_whitespace_scalar data limit)
    (fun _ => some none) cursor

def lexer_calls (next : ℕ → Option (Lexed D)) : ℕ → ℕ → Option (List (Lexed D))
  | 0, _ => some []
  | calls + 1, cursor => do
    let lexed ← next cursor
    let others ← lexer_calls next calls lexed.cursor
    some (lexed :: others)

variable {data limit zero strtod} {p q : ℕ}

theorem whitespace_step_eq (v : M128i) (q : ℕ) (hv : v.length = 16) :
    whitespace_step v q = some ((v.findIdx? fun c => !is_space c).map (q + ·)) := by
  have hmask : movemask_epi8 (or_si128
      (or_si128 (cmpeq_epi8 v (set1_epi8 32)) (cmpeq_epi8 v (set1_epi8 9)))
      (or_si128 (cmpeq_epi8 v (set1_epi8 10)) (cmpeq_epi8 v (set1_epi8 13)))) =
        mask is_space v := by
    rw [cmpeq_set1 hv, cmpeq_set1 hv, cmpeq_set1 hv, cmpeq_set1 hv, or_lanes, or_lanes, or_lanes]
    rfl
  have hones := @mask_eq_ones is_space v
  rw [hv] at hones
  rw [whitespace_step, hmask]
  cases hfind : v.findIdx? (fun c => !is_space c) with
  | none => exact if_pos (hones.mpr hfind)
  | some k =>
    have hk := (List.findIdx?_eq_some_iff_getElem.mp hfind).1
    rw [if_neg (fun h => by rw [hones.mp h] at hfind; cases hfind),
      skip_ones_mask hfind (by omega)]
    rfl

theorem signed_lt (c : UInt8) :
    decide (c.toInt8 < (0x20 : UInt8).toInt8) = (decide (c < 0x20) || decide (0x80 ≤ c)) := by
  rw [← Bool.decide_or, decide_eq_decide, Int8.lt_iff_toInt_lt, UInt8.lt_iff_toNat_lt,
    UInt8.le_iff_toNat_le]
  have hc := c.toNat_lt
  show c.toBitVec.toInt < 32 ↔ c.toNat < 32 ∨ 128 ≤ c.toNat
  show (if 2 * c.toNat < 2 ^ 8 then (c.toNat : ℤ) else c.toNat - (2 ^ 8 : ℕ)) < 32 ↔ _
  split_ifs <;> omega

theorem string_step_eq (v : M128i) (q : ℕ) (hv : v.length = 16) :
    string_step v q = some ((v.findIdx? string_stop).map (q + ·)) := by
  have hmask : movemask_epi8 (or_si128
      (or_si128 (cmpeq_epi8 v (set1_epi8 34)) (cmpeq_epi8 v (set1_epi8 92)))
      (cmplt_epi8 v (set1_epi8 0x20))) = mask string_stop v := by
    rw [cmpeq_set1 hv, cmpeq_set1 hv, cmplt_set1 hv, or_lanes, or_lanes]
    simp only [signed_lt]
    rfl
  rw [string_step, hmask, zeros_step_mask hv]

theorem string_end_eq (hl : limit ≤ data.length) (hp : p ≤ limit) :
    json_find_plain_ascii_string_end data limit p = search data limit string_stop
      (fun q => (load data limit q).map fun c => if c = 34 then some q else none) none p :=
  scan_vectors_eq hl string_step_eq (fun q hq => scan_bytes_eq hl _ _ hq (by omega)) hp (by omega)

theorem whitespace_eq (hl : limit ≤ data.length) (hp : p ≤ limit) :
    json_skip_rfc_whitespace_simde data limit p = json_skip_rfc_whitespace_scalar data limit p :=
  (scan_vectors_eq hl whitespace_step_eq (fun _ hq => scan_bytes_position hl hq) hp
    (by omega)).trans (scan_bytes_position hl hp).symm

/-- Plain bytes up to a quote are a string without escapes. -/
theorem string_tail_plain {l : List UInt8} {k : ℕ} (h : l.findIdx? string_stop = some k)
    (hq : l[k]? = some 34) :
    string_tail (l.map UInt8.toNat) =
        some ((l.take k).map UInt8.toNat, (l.drop (k + 1)).map UInt8.toNat) ∧
      ((l.take k).map UInt8.toNat).contains 92 = false := by
  induction l generalizing k with
  | nil => cases h
  | cons c l ih =>
    rw [List.findIdx?_cons] at h
    rw [List.map_cons, string_tail.eq_def]
    dsimp only
    cases hc : string_stop c
    · rw [hc] at h
      obtain ⟨k, hk, rfl⟩ := Option.map_eq_some_iff.mp h
      simp only [string_stop, Bool.or_eq_false_iff, beq_eq_false_iff_ne, ne_eq,
        decide_eq_false_iff_not, UInt8.lt_iff_toNat_lt, ← UInt8.toNat_inj] at hc
      obtain ⟨⟨hquote, hescape⟩, hcontrol, -⟩ := hc
      change c.toNat ≠ 34 at hquote
      change c.toNat ≠ 92 at hescape
      change ¬ c.toNat < 32 at hcontrol
      obtain ⟨htail, hno⟩ := ih hk hq
      rw [if_neg hquote, if_neg hescape, if_neg hcontrol, htail]
      refine ⟨rfl, ?_⟩
      rw [List.take_succ_cons, List.map_cons, List.contains_cons, hno, Bool.or_false]
      simpa using fun he => hescape he.symm
    · rw [hc] at h
      cases h
      cases hq
      exact ⟨rfl, rfl⟩

section
variable (hl : limit ≤ data.length)
include hl

/-- What the search for the end of a string has found is what the string rule finds. -/
theorem string_end_sound (hp : p ≤ limit)
    (h : json_find_plain_ascii_string_end data limit p = some (some q)) :
    p ≤ q ∧ q < limit ∧ ∃ value, value.length = q - p ∧ value.contains 92 = false ∧
      string_tail ((ahead data limit p).map UInt8.toNat) =
        some (value, (ahead data limit (q + 1)).map UInt8.toNat) := by
  rw [string_end_eq hl hp, search] at h
  cases hfind : (ahead data limit p).findIdx? string_stop with
  | none =>
    rw [hfind] at h
    cases h
  | some k =>
    have hk := (List.findIdx?_eq_some_iff_getElem.mp hfind).1
    have hlen := hk
    rw [ahead_length hl] at hlen
    obtain ⟨c, hc, hahead⟩ := @ahead_cons (p + k) data limit hl (by omega)
    rw [hfind] at h
    dsimp only at h
    rw [hc, Option.map_some, Option.some.injEq, Option.ite_none_right_eq_some] at h
    obtain ⟨rfl, hq⟩ := h
    cases hq
    have hdrop : ∀ n, (ahead data limit p).drop n = ahead data limit (p + n) := fun n =>
      List.drop_drop
    have hget : (ahead data limit p)[k]? = some 34 := by
      rw [← List.head?_drop, hdrop, hahead]
      rfl
    obtain ⟨htail, hno⟩ := string_tail_plain hfind hget
    refine ⟨by omega, by omega, _, ?_, hno, htail.trans ?_⟩
    · rw [List.length_map, List.length_take]
      omega
    · rw [hdrop]
      rfl

theorem string_end_total (hp : p ≤ limit) :
    ∃ r, json_find_plain_ascii_string_end data limit p = some r := by
  rw [string_end_eq hl hp, search]
  cases hfind : (ahead data limit p).findIdx? string_stop with
  | none => exact ⟨none, rfl⟩
  | some k =>
    have hk := (List.findIdx?_eq_some_iff_getElem.mp hfind).1
    rw [ahead_length hl] at hk
    obtain ⟨c, hc, -⟩ := @ahead_cons (p + k) data limit hl (by omega)
    exact ⟨_, by dsimp only; rw [hc]; rfl⟩

theorem rules_plain {c : UInt8} (hs : p < limit) (hload : load data limit p = some c) (hc : c = 34)
    (h : json_find_plain_ascii_string_end data limit (p + 1) = some (some q)) :
    rules data limit zero strtod p =
      ⟨1, some .string, some (p + 1), q - (p + 1), zero, false, q + 1⟩ := by
  obtain ⟨hpq, hql, value, hlen, hno, htail⟩ := string_end_sound hl hs h
  obtain ⟨c', hc', hahead⟩ := ahead_cons hl hs
  obtain rfl : c' = 34 := by
    rw [hload, hc] at hc'
    exact (Option.some.inj hc').symm
  have hmatch : rule_match (34 :: (ahead data limit (p + 1)).map UInt8.toNat) =
      some (.string value, (ahead data limit (q + 1)).map UInt8.toNat) := by
    show (string_tail _).map _ = _
    rw [htail]
    rfl
  have hcursor : limit - ((ahead data limit (q + 1)).map UInt8.toNat).length = q + 1 := by
    rw [List.length_map, ahead_length hl]
    omega
  rw [rules, hahead]
  show (match rule_match (34 :: (ahead data limit (p + 1)).map UInt8.toNat) with
    | some (token, rest) => accept limit zero strtod p token rest
    | none => _) = _
  rw [hmatch]
  dsimp only [accept]
  rw [hcursor, hno, show q + 1 - p - 2 = q - (p + 1) by omega]

theorem next_scalar_eq (hp : p ≤ limit) : ∃ s, s ≤ limit ∧
    json_skip_rfc_whitespace_scalar data limit p = some s ∧
    json_lexer_next_scalar data limit zero strtod p = some (rules data limit zero strtod s) := by
  obtain ⟨s, hs, -, hsl, -⟩ := @search_position p data limit (fun c => !is_space c) hl hp
  have hskip : json_skip_rfc_whitespace_scalar data limit p = some s :=
    (scan_bytes_position hl hp).trans hs
  refine ⟨s, hsl, hskip, ?_⟩
  rw [json_lexer_next_scalar, next_with, hskip]
  simp only [Option.bind_eq_bind, Option.bind_some]
  split_ifs with hlt
  · obtain ⟨c, hc, -⟩ := ahead_cons hl hlt
    rw [hc, Option.bind_some]
    split_ifs <;> rfl
  · rfl

theorem next_eq (hp : p ≤ limit) :
    json_lexer_next data limit zero strtod p = json_lexer_next_scalar data limit zero strtod p := by
  obtain ⟨s, hsl, hskip, hscalar⟩ := @next_scalar_eq data limit D zero strtod p hl hp
  rw [hscalar, json_lexer_next, next_with, whitespace_eq hl hp, hskip]
  simp only [Option.bind_eq_bind, Option.bind_some]
  split_ifs with hlt
  · obtain ⟨c, hc, -⟩ := ahead_cons hl hlt
    rw [hc, Option.bind_some]
    split_ifs with hquote
    · obtain ⟨r, hr⟩ := string_end_total hl hlt
      rw [hr, Option.bind_some]
      cases r with
      | none => rfl
      | some q => rw [rules_plain hl hlt hc hquote hr]
    · rfl
  · rfl

theorem rules_cursor (hp : p ≤ limit) : (rules data limit zero strtod p).cursor ≤ limit := by
  unfold rules
  dsimp only
  split
  · exact hp
  · next htext =>
    split
    · unfold accept
      split <;> exact Nat.sub_le _ _
    · have hlen := congrArg List.length htext
      rw [List.length_map, ahead_length hl, List.length_cons] at hlen
      show p + 1 ≤ limit
      omega

theorem lexer_calls_eq (calls : ℕ) (hp : p ≤ limit) :
    lexer_calls (json_lexer_next data limit zero strtod) calls p =
        lexer_calls (json_lexer_next_scalar data limit zero strtod) calls p ∧
      (lexer_calls (json_lexer_next_scalar data limit zero strtod) calls p).isSome := by
  induction calls generalizing p with
  | zero => exact ⟨rfl, rfl⟩
  | succ calls ih =>
    obtain ⟨s, hsl, -, hscalar⟩ := @next_scalar_eq data limit D zero strtod p hl hp
    obtain ⟨hsame, hsome⟩ := ih (@rules_cursor data limit D zero strtod s hl hsl)
    obtain ⟨others, hothers⟩ := Option.isSome_iff_exists.mp hsome
    rw [lexer_calls, lexer_calls, next_eq hl hp, hscalar]
    simp only [Option.bind_eq_bind, Option.bind_some]
    rw [hsame, hothers]
    exact ⟨rfl, rfl⟩

end

/-- The vectors change nothing, and every load of a search lies in front of the limit: white space
ends where the loop over bytes ends, a string is found only where the string rule ends and without
escapes, and calls of the lexer give the same tokens in the same order. -/
theorem vectors_transparent (hl : limit ≤ data.length) (hp : p ≤ limit) :
    (json_skip_rfc_whitespace_simde data limit p = json_skip_rfc_whitespace_scalar data limit p ∧
      (json_skip_rfc_whitespace_scalar data limit p).isSome) ∧
    (∃ r, json_find_plain_ascii_string_end data limit p = some r ∧ ∀ q, r = some q →
      p ≤ q ∧ q < limit ∧ ∃ value, value.length = q - p ∧ value.contains 92 = false ∧
        string_tail ((ahead data limit p).map UInt8.toNat) =
          some (value, (ahead data limit (q + 1)).map UInt8.toNat)) ∧
    ∀ (D : Type) (zero : D) (strtod : Bytes → D × ℕ) (calls : ℕ),
      lexer_calls (json_lexer_next data limit zero strtod) calls p =
          lexer_calls (json_lexer_next_scalar data limit zero strtod) calls p ∧
        (lexer_calls (json_lexer_next_scalar data limit zero strtod) calls p).isSome := by
  obtain ⟨s, -, hskip, -⟩ := @next_scalar_eq data limit Unit () (fun _ => ((), 0)) p hl hp
  obtain ⟨r, hr⟩ := string_end_total hl hp
  refine ⟨⟨whitespace_eq hl hp, by rw [hskip]; rfl⟩, ⟨r, hr, fun q hq => ?_⟩,
    fun D zero strtod calls => lexer_calls_eq hl calls hp⟩
  exact string_end_sound hl hp (hr.trans (congrArg some hq))

/-- A space and a string in front of a byte behind the limit. -/
theorem vectors_transparent_string :
    lexer_calls (json_lexer_next [32, 34, 97, 34, 91] 4 () fun _ => ((), 0)) 2 0 =
      lexer_calls (json_lexer_next_scalar [32, 34, 97, 34, 91] 4 () fun _ => ((), 0)) 2 0 :=
  ((vectors_transparent (by decide) (by decide)).2.2 Unit () (fun _ => ((), 0)) 2).1

end SaltsUtils.Json.Vectors
