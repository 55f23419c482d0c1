import SaltsUtils.Selector.Program

/-!
# A selector in memory

The source of `salts_selector_compile_v1` is a pointer and a size.
-/

set_option autoImplicit false

namespace SaltsUtils.Selector

inductive Status
  | invalid_argument
  | syntax_error
  | semantic_error
  | resource_limit
  | no_memory
  | invalid_utf8
deriving DecidableEq

/-- `SelectorV1Parse` with its context: a token with its offset, and the end of the input. -/
structure PushParser (σ P : Type) where
  start : Schema → ℕ → σ
  push : σ → ℕ → Token → Except Status σ
  finish : σ → Except Status P

def field_look : Bytes → ℕ
  | [] => 1
  | ch :: rest =>
    if ident_part ch then 1 + field_look rest
    else if ch = 46 then
      match rest with
      | next :: rest => if ident_start next then 2 + field_look rest else 2
      | [] => 2
    else 1

def string_look : Bytes → ℕ
  | [] => 1
  | ch :: rest =>
    if ch = 34 then 1
    else if ch = 92 then
      match rest with
      | [] => 2
      | letter :: rest =>
        if letter = 117 then
          match rest with
          | a :: b :: c :: d :: rest =>
            if hex_digit a && hex_digit b && hex_digit c && hex_digit d then 6 + string_look rest
            else 3 + ([a, b, c, d].takeWhile hex_digit).length
          | few => 3 + (few.takeWhile hex_digit).length
        else if escape_letter letter then 2 + string_look rest
        else 2
    else if ch < 0x20 then 1
    else 1 + string_look rest

def token_look (ch : ℕ) (rest : Bytes) : ℕ :=
  if ch = 38 ∨ ch = 124 ∨ ch = 61 ∨ ch = 33 then 1
  else if ch = 34 then string_look rest
  else if ident_start ch then field_look rest
  else 0

/-- The bytes that a call of the lexer examines, the zero behind the text among them. -/
def look : Bytes → ℕ
  | [] => 1
  | ch :: rest => if whitespace ch then 1 + look rest else 1 + token_look ch rest

def Lexer.status (lexer : Lexer) : Status :=
  match lexer.cursor.dropWhile whitespace with
  | 40 :: _ => .resource_limit
  | _ => .syntax_error

variable {σ P : Type} (parser : PushParser σ P)

/-- The loop over the tokens of a text of `total` bytes, and how many bytes have been examined
in the end. -/
def compile_loop (total : ℕ) :
    ℕ → Lexer → ℕ → σ → ℕ → Option (Except Status P × ℕ)
  | 0, _, _, _, _ => none
  | fuel + 1, lexer, token_count, state, touched =>
    let touched := max touched (total - lexer.cursor.length + look lexer.cursor)
    match selector_lexer_next lexer with
    | none => some (.error lexer.status, touched)
    | some none => some (parser.finish state, touched)
    | some (some (token, lexer')) =>
      if max_tokens < token_count + 1 then some (.error .resource_limit, touched)
      else
        match parser.push state (total - (lexer.cursor.dropWhile whitespace).length) token with
        | .error status => some (.error status, touched)
        | .ok state => compile_loop total fuel lexer' (token_count + 1) state touched

/-- The source and what stands behind it up to the first zero. -/
def visible (memory : Bytes) (source_size : ℕ) : Bytes :=
  memory.take source_size ++ (memory.drop source_size).takeWhile (· ≠ 0)

def compile_memory (schema : Schema) (memory : Bytes) (source_size : ℕ) :
    Option (Except Status P × ℕ) :=
  if source_size = 0 ∨ selector_schema_valid schema = false then
    some (.error .invalid_argument, 0)
  else if max_source_bytes < source_size then some (.error .resource_limit, 0)
  else if selector_utf8_validate (memory.take source_size) = false then
    some (.error .invalid_utf8, source_size)
  else if 0 ∈ memory.drop source_size then
    let text := visible memory source_size
    compile_loop parser text.length (text.length + 1) ⟨text, 0⟩ 0
      (parser.start schema source_size) source_size
  else none

/-- The source gives with these bytes behind it what it gives alone, and no byte behind the
first of them is examined. -/
def Sliced (schema : Schema) (source after : Bytes) : Prop :=
  ∃ result touched,
    compile_memory parser schema (source ++ after) source.length = some (result, touched) ∧
      touched ≤ source.length + 1 ∧
      (compile_memory parser schema (source ++ [0]) source.length).map Prod.fst = some result

theorem field_look_le (b : Bytes) : field_look b ≤ b.length + 1 := by
  fun_induction field_look b <;> simp only [List.length_cons, List.length_nil] <;> omega

theorem string_look_le (b : Bytes) : string_look b ≤ b.length + 1 := by
  have hprefix : ∀ digits : Bytes, (digits.takeWhile hex_digit).length ≤ digits.length :=
    fun digits => (List.takeWhile_prefix _).length_le
  fun_induction string_look b with
  | case5 a b c d rest =>
    have := hprefix [a, b, c, d]
    simp only [List.length_cons, List.length_nil] at this ⊢
    omega
  | case6 few =>
    have := hprefix few
    simp only [List.length_cons]
    omega
  | _ =>
    simp only [List.length_cons, List.length_nil]
    omega

theorem token_look_le (ch : ℕ) (rest : Bytes) : token_look ch rest ≤ rest.length + 1 := by
  unfold token_look
  split_ifs
  · omega
  · exact string_look_le rest
  · exact field_look_le rest
  · omega

theorem look_le (b : Bytes) : look b ≤ b.length + 1 := by
  induction b with
  | nil => exact Nat.le_refl _
  | cons ch rest ih =>
    have := token_look_le ch rest
    rw [look, List.length_cons]
    split_ifs <;> omega

theorem look_end {lexer : Lexer} (h : selector_lexer_next lexer = some none) :
    look lexer.cursor = lexer.cursor.length + 1 := by
  have hspaces : lexer.cursor.dropWhile whitespace = [] := by
    rw [selector_lexer_next] at h
    split at h
    · assumption
    · split at h
      · cases h
      · split_ifs at h
        cases h
      · cases h
      · cases h
  generalize lexer.cursor = b at hspaces
  induction b with
  | nil => rfl
  | cons ch rest ih =>
    by_cases hw : whitespace ch = true
    · rw [List.dropWhile_cons_of_pos hw] at hspaces
      rw [look, if_pos hw, ih hspaces, List.length_cons]
      omega
    · rw [List.dropWhile_cons_of_neg hw] at hspaces
      cases hspaces

variable {parser}

theorem loop_ends {total fuel token_count touched : ℕ} {lexer : Lexer} {state : σ}
    (hf : lexer.cursor.length < fuel) (hl : lexer.cursor.length ≤ total)
    (ht : touched ≤ total + 1) :
    ∃ result last, compile_loop parser total fuel lexer token_count state touched =
      some (result, last) ∧ last ≤ total + 1 := by
  induction fuel generalizing lexer token_count state touched with
  | zero => omega
  | succ fuel ih =>
    have hlook := look_le lexer.cursor
    have hmax : max touched (total - lexer.cursor.length + look lexer.cursor) ≤ total + 1 := by
      omega
    rw [compile_loop]
    cases hn : selector_lexer_next lexer with
    | none => exact ⟨_, _, rfl, hmax⟩
    | some next =>
      cases next with
      | none => exact ⟨_, _, rfl, hmax⟩
      | some next =>
        obtain ⟨token, lexer'⟩ := next
        have hshort := next_shorter hn
        dsimp only
        by_cases hc : max_tokens < token_count + 1
        · rw [if_pos hc]
          exact ⟨_, _, rfl, hmax⟩
        · rw [if_neg hc]
          cases parser.push state (total - (lexer.cursor.dropWhile whitespace).length) token with
          | error status => exact ⟨_, _, rfl, hmax⟩
          | ok state => exact ih (by omega) (by omega) hmax

theorem loop_ok {total fuel token_count touched last : ℕ} {lexer : Lexer} {state : σ} {program : P}
    (hl : lexer.cursor.length ≤ total)
    (h : compile_loop parser total fuel lexer token_count state touched =
      some (.ok program, last)) : total + 1 ≤ last := by
  induction fuel generalizing lexer token_count state touched with
  | zero => cases h
  | succ fuel ih =>
    rw [compile_loop] at h
    cases hn : selector_lexer_next lexer with
    | none =>
      rw [hn] at h
      cases h
    | some next =>
      rw [hn] at h
      cases next with
      | none =>
        have hlast := congrArg Prod.snd (Option.some.inj h)
        have hend := look_end hn
        omega
      | some next =>
        obtain ⟨token, lexer'⟩ := next
        have hshort := next_shorter hn
        dsimp only at h
        by_cases hc : max_tokens < token_count + 1
        · rw [if_pos hc] at h
          cases h
        · rw [if_neg hc] at h
          cases hp : parser.push state
              (total - (lexer.cursor.dropWhile whitespace).length) token with
          | error status =>
            rw [hp] at h
            cases h
          | ok state =>
            rw [hp] at h
            exact ih (by omega) h

theorem visible_append (source after : Bytes) :
    visible (source ++ after) source.length = source ++ after.takeWhile (· ≠ 0) := by
  rw [visible, List.take_left, List.drop_left]

theorem compile_memory_zero (schema : Schema) (source : Bytes) {after : Bytes}
    (h : after.head? = some 0) :
    compile_memory parser schema (source ++ after) source.length =
      compile_memory parser schema (source ++ [0]) source.length := by
  obtain ⟨rest, rfl⟩ : ∃ rest, after = 0 :: rest :=
    match after, h with
    | 0 :: rest, _ => ⟨rest, rfl⟩
  have hv : visible (source ++ 0 :: rest) source.length = visible (source ++ [0]) source.length := by
    rw [visible_append, visible_append]
    rfl
  rw [compile_memory, compile_memory, hv, List.take_left, List.take_left, List.drop_left,
    List.drop_left]
  simp

theorem compile_memory_ends (schema : Schema) (source : Bytes) :
    ∃ result touched, compile_memory parser schema (source ++ [0]) source.length =
      some (result, touched) ∧ touched ≤ source.length + 1 := by
  rw [compile_memory]
  split_ifs with h1 h2 h3 h4
  · exact ⟨_, _, rfl, by omega⟩
  · exact ⟨_, _, rfl, by omega⟩
  · exact ⟨_, _, rfl, by omega⟩
  · have hv : visible (source ++ [0]) source.length = source := by
      rw [visible_append]
      simp
    rw [hv]
    exact loop_ends (Nat.lt_succ_self _) (Nat.le_refl _) (Nat.le_succ _)
  · exact absurd (by simp) h4

theorem compile_memory_ok {schema : Schema} {memory : Bytes} {source_size touched : ℕ} {program : P}
    (h : compile_memory parser schema memory source_size = some (.ok program, touched)) :
    0 ∈ memory.drop source_size ∧ (visible memory source_size).length + 1 ≤ touched := by
  rw [compile_memory] at h
  split_ifs at h with h1 h2 h3 h4
  · cases h
  · cases h
  · cases h
  · exact ⟨h4, loop_ok (Nat.le_refl _) h⟩

/-- The parser of the grammar, where every failure counts as a syntax error. -/
def selector_v1_grammar : PushParser (Schema × Parser) Program where
  start schema _ := (schema, .operand .empty [])
  push state _ token :=
    match state.2.next token with
    | some next => .ok (state.1, next)
    | none => .error .syntax_error
  finish state :=
    match state.2.result.bind fun tree => tree.build state.1 .empty with
    | some (root, ctx) => .ok { ctx with root := root }
    | none => .error .syntax_error

def two_fields : Schema := ⟨[text "a", text "c"], false⟩

def node_count (r : Except Status Program × ℕ) : Option ℕ := r.1.toOption.map (·.nodes.length)

end SaltsUtils.Selector
