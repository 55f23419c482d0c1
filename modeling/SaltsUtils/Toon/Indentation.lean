import SaltsUtils.Toon.Lexer

/-!
# Indentation

An `INDENT` opens a level and a `DEDENT` closes one; the levels that are open are those on
the stack and those whose `DEDENT` is pending.
-/

set_option autoImplicit false

namespace SaltsUtils.Toon

variable {n : ℕ}

theorem longest_except {chars text : List ℕ} {r : Regex} {ch : ℕ}
    (h : Regex.longest (.seq (.except chars) r) (ch :: text) = some n) : ch ∉ chars := by
  intro hmem
  simp [Regex.longest, Regex.deriv, Regex.except, Regex.nullable, Regex.followed, Regex.stopped,
    hmem] at h

theorem rules_nullable : ∀ rule ∈ rules, Regex.nullable rule.1 = false := by decide

theorem rules_catch_all : ∀ rule ∈ rules, rule.2 = .catch_all → rule = (catch_all, .catch_all) := by
  intro rule hr
  simp only [rules, List.mem_cons, List.not_mem_nil, or_false] at hr
  rcases hr with rfl | rfl | rfl | rfl | rfl | rfl | rfl | rfl | rfl | rfl | rfl <;> simp

theorem taken_pos {ch n state : ℕ} {rest : Bytes} {rule : Rule}
    (h : Regex.choose rules (ch :: rest) = some (n, rule)) :
    0 < (action state ((ch :: rest).take n) rule).1 := by
  obtain ⟨r, hr, hlongest, rfl⟩ := Regex.choose_mem h
  have hn := Regex.longest_pos (rules_nullable r hr) hlongest
  obtain ⟨n, rfl⟩ := Nat.exists_eq_succ_of_ne_zero hn.ne'
  have hlen : 0 < ((ch :: rest).take (n + 1)).length := by simp
  cases hrule : r.2 with
  | catch_all =>
    obtain rfl := rules_catch_all r hr hrule
    have hcolon : ch ≠ 58 := by
      rintro rfl
      exact longest_except hlongest (by decide)
    rw [action, catch_all_token]
    split_ifs
    · rw [List.take_succ_cons, List.takeWhile_cons_of_pos (by simpa using hcolon)]
      exact Nat.succ_pos _
    · exact hlen
    · exact hlen
  | _ => exact hlen

theorem dropWhile_length {α : Type} (p : α → Bool) (l : List α) :
    (l.dropWhile p).length ≤ l.length := (List.dropWhile_suffix p).length_le

theorem lex_loop_length (cursor : Bytes) : (lex_loop cursor).length ≤ cursor.length := by
  rw [lex_loop]
  have hblank := dropWhile_length horizontal cursor
  split
  · next after heq =>
    rw [heq, List.length_cons] at hblank
    exact (dropWhile_length comment_char after).trans (by omega)
  · exact hblank

variable {level : ℕ}

theorem line_start_length {rounds : ℕ} {cursor rest : Bytes}
    (h : line_start rounds cursor = some (.line level rest)) : rest.length ≤ cursor.length := by
  induction rounds generalizing cursor with
  | zero => cases h
  | succ rounds ih =>
    rw [line_start] at h
    split at h
    · cases h
    · next spaces _ =>
      have hdrop : (cursor.drop spaces).length ≤ cursor.length := by simp
      have hblank := dropWhile_length horizontal (cursor.drop spaces)
      split at h
      · cases h
      · next ch after heq =>
        rw [heq, List.length_cons] at hblank
        split_ifs at h
        · exact (ih h).trans (by omega)
        · have := ih h
          simp only [List.length_tail] at this
          omega
        · exact (ih h).trans (by omega)
        · exact (ih h).trans ((dropWhile_length comment_char after).trans (by omega))
        · cases h
          exact hdrop

structure Stacked (lexer : Lexer) : Prop where
  size : lexer.indent_stack.length = STACK_SIZE
  bottom : lexer.indent_stack[0]? = some 0
  increasing : ∀ i < lexer.indent_depth, ∃ low high, lexer.indent_stack[i]? = some low ∧
    lexer.indent_stack[i + 1]? = some high ∧ low < high
  room : lexer.indent_depth + lexer.pending_dedents < STACK_SIZE

/-- The levels that have not been closed. -/
def Lexer.opened (lexer : Lexer) : ℕ := lexer.indent_depth + lexer.pending_dedents

def Opens (type : TokenType) (before after : ℕ) : Prop :=
  match type with
  | .indent => after = before + 1
  | .dedent => after + 1 = before
  | _ => after = before

def plain (type : TokenType) : Prop := type ≠ .indent ∧ type ≠ .dedent

theorem opens_plain {type : TokenType} (h : plain type) (n : ℕ) : Opens type n n := by
  obtain ⟨hi, hd⟩ := h
  cases type <;> first | rfl | exact absurd rfl hi | exact absurd rfl hd

theorem word_token_plain (text : Bytes) : plain (word_token text).type := by
  rw [word_token]
  split
  · exact ⟨nofun, nofun⟩
  · split_ifs
    · exact ⟨nofun, nofun⟩
    · exact ⟨nofun, nofun⟩

theorem rules_plain : ∀ rule ∈ rules, ∀ type, rule.2 = .symbol type →
    type ≠ .indent ∧ type ≠ .dedent := by
  intro rule hr type htype
  simp only [rules, List.mem_cons, List.not_mem_nil, or_false] at hr
  rcases hr with rfl | rfl | rfl | rfl | rfl | rfl | rfl | rfl | rfl | rfl | rfl <;>
    cases htype <;> decide

theorem action_plain {text : Bytes} {state : ℕ} {rule : Rule}
    (h : Regex.choose rules text = some (n, rule)) (taken : Bytes) :
    plain (action state taken rule).2.1.type := by
  obtain ⟨r, hr, -, rfl⟩ := Regex.choose_mem h
  cases hrule : r.2 with
  | symbol type => exact rules_plain r hr type hrule
  | key => exact word_token_plain taken
  | catch_all =>
    rw [action, catch_all_token]
    split_ifs
    · exact word_token_plain _
    · exact word_token_plain _
    · exact ⟨nofun, nofun⟩
  | newline => exact ⟨nofun, nofun⟩
  | number => exact ⟨nofun, nofun⟩
  | string1 => exact ⟨nofun, nofun⟩

/-- What a call leaves: the stack, the open levels, and less to do where there is a token. -/
def Lexer.work (lexer : Lexer) : ℕ :=
  STACK_SIZE * (2 * lexer.cursor.length + if lexer.state = 0 then 1 else 0) + lexer.opened

structure Called (lexer : Lexer) (next : Next) : Prop where
  stacked : Stacked next.2.2
  opens : 0 < next.1 → Opens next.2.1.type lexer.opened next.2.2.opened
  less : 0 < next.1 → next.2.2.work < lexer.work
  closed : next.1 = 0 → lexer.opened = 0

variable {lexer : Lexer}

theorem Stacked.stay (h : Stacked lexer) (cursor : Bytes) (state : ℕ) :
    Stacked { lexer with cursor := cursor, state := state } :=
  ⟨h.size, h.bottom, h.increasing, h.room⟩

theorem work_shorter {lexer' : Lexer} (ho : lexer'.opened = lexer.opened)
    (hl : lexer'.cursor.length < lexer.cursor.length) : lexer'.work < lexer.work := by
  have hs : (if lexer'.state = 0 then 1 else 0) ≤ 1 := by split_ifs <;> omega
  rw [Lexer.work, Lexer.work, ho, STACK_SIZE]
  omega

theorem work_settled {lexer' : Lexer} (hs : lexer.state = 0) (hs' : lexer'.state ≠ 0)
    (ho : lexer'.opened < STACK_SIZE) (hl : lexer'.cursor.length ≤ lexer.cursor.length) :
    lexer'.work < lexer.work := by
  rw [Lexer.work, Lexer.work, if_pos hs, if_neg hs']
  rw [STACK_SIZE] at *
  omega

theorem handle_eof_called (h : Stacked lexer) (hp : lexer.pending_dedents = 0) :
    Called lexer (handle_eof lexer) := by
  rw [handle_eof]
  have hroom := h.room
  split_ifs with hd
  · refine ⟨⟨h.size, h.bottom, nofun, ?_⟩, fun _ => ?_, fun _ => ?_, nofun⟩
    · dsimp only
      omega
    · change 0 + (lexer.indent_depth - 1) + 1 = lexer.indent_depth + lexer.pending_dedents
      omega
    · rw [Lexer.work, Lexer.work, Lexer.opened, Lexer.opened]
      dsimp only [List.length_nil]
      rw [STACK_SIZE]
      split_ifs <;> omega
  · exact ⟨h.stay _ _, nofun, nofun, fun _ => by rw [Lexer.opened]; omega⟩

theorem lex_token_called {lexer : Lexer} {cursor : Bytes} (h : Stacked lexer)
    (hp : lexer.pending_dedents = 0)
    (hc : cursor.length ≤ lexer.cursor.length) : Called lexer (lex_token lexer cursor) := by
  have hloop := lex_loop_length cursor
  rw [lex_token]
  split
  · exact handle_eof_called h hp
  · next ch rest heq =>
    rw [heq] at hloop
    split
    · refine ⟨h.stay _ _, fun _ => rfl, fun _ => work_shorter rfl ?_, nofun⟩
      simp only [List.length_drop, List.length_cons] at hloop ⊢
      omega
    · split
      · next n rule hchoose =>
        have htaken := @taken_pos _ _ lexer.state _ _ hchoose
        refine ⟨h.stay _ _, fun _ => opens_plain (action_plain hchoose _) _,
          fun _ => work_shorter rfl ?_, nofun⟩
        simp only [List.length_drop, List.length_cons] at hloop ⊢
        omega
      · exact ⟨h.stay _ _, nofun, nofun, nofun⟩

theorem Stacked.entry (h : Stacked lexer) {i : ℕ} (hi : i ≤ lexer.indent_depth) :
    ∃ level, lexer.indent_stack[i]? = some level := by
  have hroom := h.room
  have hlt : i < lexer.indent_stack.length := by
    rw [h.size]
    omega
  exact ⟨_, List.getElem?_eq_getElem hlt⟩

theorem Stacked.positive (h : Stacked lexer) (hl : 0 < level) (htop : lexer.level = some level) :
    0 < lexer.indent_depth := by
  apply Nat.pos_of_ne_zero
  intro hzero
  rw [Lexer.level, hzero, h.bottom] at htop
  have := Option.some.inj htop
  omega

theorem dedent_loop_spec {stack : List ℕ} {level depth dedents : ℕ}
    (h : ∀ i ≤ depth, ∃ top, stack[i]? = some top) :
    ∃ depth' n, dedent_loop stack level depth dedents = some (depth', dedents + n) ∧
      depth' + n = depth ∧ ((∃ top, 0 < depth ∧ stack[depth]? = some top ∧ level < top) → 0 < n) := by
  induction depth generalizing dedents with
  | zero => exact ⟨0, 0, rfl, rfl, fun ⟨_, hpos, _⟩ => hpos⟩
  | succ depth ih =>
    obtain ⟨top, htop⟩ := h (depth + 1) (Nat.le_refl _)
    rw [dedent_loop, htop]
    dsimp only
    by_cases hlt : level < top
    · obtain ⟨depth', n, hloop, hsum, -⟩ := @ih (dedents + 1) fun i hi => h i (by omega)
      refine ⟨depth', n + 1, ?_, by omega, fun _ => Nat.succ_pos _⟩
      rw [if_pos hlt, hloop, Nat.add_assoc, Nat.add_comm 1]
    · refine ⟨depth + 1, 0, if_neg hlt, rfl, ?_⟩
      rintro ⟨top', -, htop', hlt'⟩
      obtain rfl := Option.some.inj htop'
      exact absurd hlt' hlt

theorem Stacked.push (h : Stacked lexer) (hp : lexer.pending_dedents = 0) {top : ℕ}
    (htop : lexer.level = some top) (hlt : top < level)
    (hroom : lexer.indent_depth + 1 < STACK_SIZE) (cursor : Bytes) : Stacked { lexer with
      indent_depth := lexer.indent_depth + 1
      indent_stack := lexer.indent_stack.set (lexer.indent_depth + 1) level
      state := 1
      cursor := cursor } where
  size := (List.length_set ..).trans h.size
  bottom := by
    rw [List.getElem?_set_ne (Nat.succ_ne_zero _)]
    exact h.bottom
  increasing := by
    intro i hi
    have hset : lexer.indent_depth + 1 < lexer.indent_stack.length := h.size ▸ hroom
    rcases Nat.lt_succ_iff_lt_or_eq.mp hi with hi | rfl
    · obtain ⟨low, high, hlow, hhigh, hlt⟩ := h.increasing i hi
      refine ⟨low, high, ?_, ?_, hlt⟩
      · rw [List.getElem?_set_ne (by omega)]
        exact hlow
      · rw [List.getElem?_set_ne (by omega)]
        exact hhigh
    · refine ⟨top, level, ?_, List.getElem?_set_self hset, hlt⟩
      rw [List.getElem?_set_ne (by omega)]
      exact htop
  room := by
    dsimp only
    omega

theorem lex_level_called {cursor : Bytes} {next : Next} (h : Stacked lexer)
    (hp : lexer.pending_dedents = 0) (hs : lexer.state = 0)
    (hc : cursor.length ≤ lexer.cursor.length) (hn : lex_level lexer level cursor = some next) :
    Called lexer next := by
  have hroom := h.room
  rw [lex_level] at hn
  split at hn
  · cases hn
  · next top htop =>
    split_ifs at hn with hindent hfits hdedent
    · obtain rfl := Option.some.inj hn
      refine ⟨h.push hp htop hindent hfits cursor, fun _ => ?_, fun _ => ?_, nofun⟩
      · change lexer.indent_depth + 1 + lexer.pending_dedents =
          lexer.indent_depth + lexer.pending_dedents + 1
        omega
      · refine work_settled hs Nat.one_ne_zero ?_ hc
        rw [Lexer.opened]
        dsimp only
        omega
    · obtain ⟨depth, n, hloop, hsum, hpos⟩ := @dedent_loop_spec lexer.indent_stack level
        lexer.indent_depth 0 fun i hi => h.entry hi
      have hn' := hpos ⟨top, h.positive (by omega) htop, htop, hdedent⟩
      rw [hloop] at hn
      obtain rfl := Option.some.inj hn
      refine ⟨⟨h.size, h.bottom, fun i hi => h.increasing i (by dsimp only at hi; omega), ?_⟩,
        fun _ => ?_, fun _ => ?_, nofun⟩
      · dsimp only
        omega
      · change depth + (0 + n - 1) + 1 = lexer.indent_depth + lexer.pending_dedents
        omega
      · refine work_settled hs Nat.one_ne_zero ?_ hc
        rw [Lexer.opened]
        dsimp only
        omega
    · obtain rfl := Option.some.inj hn
      have hcalled := @lex_token_called { lexer with state := 1 } cursor (h.stay _ _) hp hc
      refine ⟨hcalled.stacked, hcalled.opens, fun hpos => (hcalled.less hpos).trans ?_,
        hcalled.closed⟩
      have hopened : lexer.opened < STACK_SIZE := h.room
      exact work_settled hs Nat.one_ne_zero hopened (Nat.le_refl _)

theorem next_called {next : Next} (h : Stacked lexer) (hn : toon_lexer_next lexer = some next) :
    Called lexer next := by
  have hroom := h.room
  rw [toon_lexer_next] at hn
  split_ifs at hn with hp hs
  · obtain rfl := Option.some.inj hn
    refine ⟨⟨h.size, h.bottom, h.increasing, ?_⟩, fun _ => ?_, fun _ => ?_, nofun⟩
    · dsimp only
      omega
    · change lexer.indent_depth + (lexer.pending_dedents - 1) + 1 =
        lexer.indent_depth + lexer.pending_dedents
      omega
    · rw [Lexer.work, Lexer.work, Lexer.opened, Lexer.opened]
      dsimp only
      omega
  · have hp := Nat.eq_zero_of_not_pos hp
    split at hn
    · cases hn
    · obtain rfl := Option.some.inj hn
      exact handle_eof_called h hp
    · next hline => exact lex_level_called h hp hs (line_start_length hline) hn
  · obtain rfl := Option.some.inj hn
    exact lex_token_called h (Nat.eq_zero_of_not_pos hp) (Nat.le_refl _)

/-- The lines before the next token can be counted in an `int`, and where the first of them
with a token is indented deeper than the one before there is room on the stack. -/
def Fits (lexer : Lexer) : Prop :=
  lexer.pending_dedents = 0 → lexer.state = 0 →
    ∃ start, line_start (lexer.cursor.length + 1) lexer.cursor = some start ∧
      ∀ level cursor top, start = .line level cursor → lexer.level = some top → top < level →
        lexer.indent_depth + 1 < STACK_SIZE

theorem next_defined (h : Stacked lexer) (hf : Fits lexer) :
    ∃ next, toon_lexer_next lexer = some next := by
  rw [toon_lexer_next]
  split_ifs with hp hs
  · exact ⟨_, rfl⟩
  · obtain ⟨start, hstart, hfits⟩ := hf (Nat.eq_zero_of_not_pos hp) hs
    rw [hstart]
    cases start with
    | eof => exact ⟨_, rfl⟩
    | line level cursor =>
      obtain ⟨top, htop⟩ := h.entry (Nat.le_refl _)
      have hlevel : lexer.level = some top := htop
      dsimp only
      rw [lex_level, hlevel]
      dsimp only
      split_ifs with hindent hroom hdedent
      · exact ⟨_, rfl⟩
      · exact absurd (hfits level cursor top rfl hlevel hindent) hroom
      · obtain ⟨depth, n, hloop, -⟩ := @dedent_loop_spec lexer.indent_stack level
          lexer.indent_depth 0 fun i hi => h.entry hi
        rw [hloop]
        exact ⟨_, rfl⟩
      · exact ⟨_, rfl⟩
  · exact ⟨_, rfl⟩

/-- The tokens of the calls so far, all of which the condition holds for, and the lexer. -/
inductive Run (allowed : Lexer → Prop) (memory : List ℕ) (input : Bytes) :
    List TokenType → Lexer → Prop
  | start : Run allowed memory input [] (toon_lexer_init memory input)
  | call {types : List TokenType} {lexer lexer' : Lexer} {code : ℤ} {token : Token} :
      Run allowed memory input types lexer → allowed lexer →
      toon_lexer_next lexer = some (code, token, lexer') → 0 < code →
      Run allowed memory input (types ++ [token.type]) lexer'

variable {memory : List ℕ}

theorem init_stacked (hm : memory.length = STACK_SIZE) (input : Bytes) :
    Stacked (toon_lexer_init memory input) where
  size := (List.length_set ..).trans hm
  bottom := List.getElem?_set_self (by rw [hm]; decide)
  increasing := nofun
  room := (by decide : 0 + 0 < STACK_SIZE)

/-- Where a run is: the levels that are open are those that its tokens opened and did not
close, and every token took its share of the work. -/
structure Reached (input : Bytes) (types : List TokenType) (lexer : Lexer) : Prop where
  stacked : Stacked lexer
  opened : types.count .dedent + lexer.opened = types.count .indent
  work : types.length + lexer.work ≤ STACK_SIZE * (2 * input.length + 1)

variable {types : List TokenType}

theorem opens_count {type : TokenType} {before after : ℕ} (h : Opens type before after)
    (hc : types.count .dedent + before = types.count .indent) :
    (types ++ [type]).count .dedent + after = (types ++ [type]).count .indent := by
  cases type <;> simp [Opens] at h ⊢ <;> omega

variable {input : Bytes}

theorem run_reached {allowed : Lexer → Prop} (hm : memory.length = STACK_SIZE)
    (hr : Run allowed memory input types lexer) : Reached input types lexer := by
  induction hr with
  | start =>
    refine ⟨init_stacked hm input, rfl, ?_⟩
    exact (Nat.zero_add _).le
  | call _ _ hnext hcode ih =>
    have hcalled := next_called ih.stacked hnext
    refine ⟨hcalled.stacked, opens_count (hcalled.opens hcode) ih.opened, ?_⟩
    have hless := hcalled.less hcode
    have hwork := ih.work
    rw [List.length_append, List.length_singleton]
    dsimp only at hless
    omega

/-- What holds after any number of calls: no more levels are closed than opened, the levels
on the stack increase within its 256 entries, the next call is defined, and the calls come to
an end, where all levels are closed. -/
structure Balanced (input : Bytes) (types : List TokenType) (lexer : Lexer) : Prop where
  closed_le : types.count .dedent ≤ types.count .indent
  depth_le : lexer.indent_depth ≤ 255
  increasing : ∀ i < lexer.indent_depth, ∃ low high, lexer.indent_stack[i]? = some low ∧
    lexer.indent_stack[i + 1]? = some high ∧ low < high
  bounded : types.length ≤ STACK_SIZE * (2 * input.length + 1)
  next : ∃ code token lexer', toon_lexer_next lexer = some (code, token, lexer') ∧
    (code = 0 → types.count .dedent = types.count .indent)

theorem fitting_balanced (hm : memory.length = STACK_SIZE) (hr : Run Fits memory input types lexer)
    (hf : Fits lexer) : Balanced input types lexer := by
  have h := run_reached hm hr
  have hroom := h.stacked.room
  have hopened := h.opened
  obtain ⟨⟨code, token, lexer'⟩, hnext⟩ := next_defined h.stacked hf
  have hcalled := next_called h.stacked hnext
  refine ⟨by omega, ?_, h.stacked.increasing, (Nat.le_add_right _ _).trans h.work,
    ⟨code, token, lexer', hnext, fun hcode => ?_⟩⟩
  · rw [STACK_SIZE] at hroom
    omega
  · have hzero := hcalled.closed hcode
    omega

/-- A call that is the last one. -/
def Ends (lexer : Lexer) : Prop :=
  ∃ code token lexer', toon_lexer_next lexer = some (code, token, lexer') ∧ code ≤ 0

theorem fitting_ends (hm : memory.length = STACK_SIZE)
    (hall : ∀ types lexer, Run Fits memory input types lexer → Fits lexer) (n : ℕ) :
    ∀ types lexer, lexer.work = n → Run Fits memory input types lexer →
      ∃ types lexer, Run Fits memory input types lexer ∧ Ends lexer := by
  induction n using Nat.strong_induction_on with
  | _ n ih =>
    rintro types lexer rfl hr
    have hstacked := (run_reached hm hr).stacked
    have hf := hall types lexer hr
    obtain ⟨⟨code, token, lexer'⟩, hnext⟩ := next_defined hstacked hf
    by_cases hcode : 0 < code
    · have hless := (next_called hstacked hnext).less hcode
      exact ih _ hless _ lexer' rfl (hr.call hf hnext hcode)
    · exact ⟨types, lexer, hr, code, token, lexer', hnext, Int.not_lt.mp hcode⟩

/-- A run whose calls all fit is balanced, and comes to an end. -/
theorem indentation_balanced {memory : List ℕ} (input : Bytes) (hm : memory.length = STACK_SIZE) :
    (∀ types lexer, Run Fits memory input types lexer → Fits lexer →
      Balanced input types lexer) ∧
    ((∀ types lexer, Run Fits memory input types lexer → Fits lexer) →
      ∃ types lexer, Run Fits memory input types lexer ∧ Ends lexer) :=
  ⟨fun _ _ hr hf => fitting_balanced hm hr hf,
    fun hall => fitting_ends hm hall _ [] _ rfl .start⟩

def no_levels : List ℕ := List.replicate 256 0

/-- An indented key, behind its `INDENT`. -/
theorem indentation_balanced_indent :
    Balanced [32, 32, 97] [.indent] ⟨[97], (no_levels.set 0 0).set 1 1, 1, 0, 1⟩ :=
  have hfits : Fits (toon_lexer_init no_levels [32, 32, 97]) := fun _ _ =>
    ⟨.line 1 [97], rfl, fun _ _ _ _ _ _ => by decide⟩
  have hm : no_levels.length = STACK_SIZE := List.length_replicate ..
  (indentation_balanced [32, 32, 97] hm).1 _ _
    (@Run.call Fits no_levels [32, 32, 97] [] _ _ 1 (bare .indent) .start hfits rfl Int.one_pos)
    fun _ hs => absurd hs Nat.one_ne_zero

/-- Lines with one key each, the first at a level, every next one a level deeper. -/
def stairs : ℕ → ℕ → Bytes
  | _, 0 => []
  | level, n + 1 => List.replicate (2 * level) 32 ++ 97 :: 10 :: stairs (level + 1) n

theorem count_stairs (h : 2 * level < 2 ^ 31) :
    count_spaces (stairs level (n + 1)) = some (2 * level) := by
  have htake : (stairs level (n + 1)).takeWhile (· == 32) = List.replicate (2 * level) 32 := by
    rw [stairs, List.takeWhile_append_of_pos (by simp), List.takeWhile_cons_of_neg (by decide),
      List.append_nil]
  rw [count_spaces, htake, List.length_replicate]
  exact if_pos h

theorem line_start_stairs {rounds : ℕ} (h : 2 * level < 2 ^ 31) :
    line_start (rounds + 1) (stairs level (n + 1)) =
      some (.line level (97 :: 10 :: stairs (level + 1) n)) := by
  have hdrop : (stairs level (n + 1)).drop (2 * level) = 97 :: 10 :: stairs (level + 1) n := by
    rw [stairs, List.drop_append_of_le_length (by simp), List.drop_of_length_le (by simp)]
    rfl
  rw [line_start, count_stairs h]
  dsimp only
  rw [hdrop, List.dropWhile_cons_of_neg (by decide)]
  dsimp only
  rw [if_neg (by decide), if_neg (by decide), if_neg (by decide), Nat.mul_div_cancel_left _ (by decide)]

/-- A lexer at the start of a line, with every level up to `depth` on its stack. -/
structure Climbing (lexer : Lexer) (depth : ℕ) (cursor : Bytes) : Prop where
  cursor_eq : lexer.cursor = cursor
  depth_eq : lexer.indent_depth = depth
  pending_eq : lexer.pending_dedents = 0
  state_eq : lexer.state = 0
  level_eq : lexer.level = some depth

theorem next_key (rest : Bytes) (stack : List ℕ) (depth : ℕ) :
    toon_lexer_next ⟨97 :: 10 :: rest, stack, depth, 0, 1⟩ =
      some (1, ⟨.key, some [97], false⟩, ⟨10 :: rest, stack, depth, 0, 1⟩) := by
  have hchoose : Regex.choose rules (97 :: 10 :: rest) = some (1, .key) := by
    cases rest with
    | nil => rfl
    | cons ch rest => rfl
  have htoken : lex_token ⟨97 :: 10 :: rest, stack, depth, 0, 1⟩ (97 :: 10 :: rest) =
      (1, ⟨.key, some [97], false⟩, ⟨10 :: rest, stack, depth, 0, 1⟩) := by
    have hloop : lex_loop (97 :: 10 :: rest) = 97 :: 10 :: rest := rfl
    have hquoted : quoted (97 :: 10 :: rest) = none := rfl
    simp only [lex_token, hloop, hquoted, hchoose]
    rfl
  exact congrArg some htoken

theorem next_newline (rest : Bytes) (stack : List ℕ) (depth : ℕ) :
    toon_lexer_next ⟨10 :: rest, stack, depth, 0, 1⟩ =
      some (1, bare .newline, ⟨rest, stack, depth, 0, 0⟩) := by
  have hchoose : Regex.choose rules (10 :: rest) = some (1, .newline) := by
    match rest with
    | [] => rfl
    | [ch] => rfl
    | ch :: ch' :: rest => rfl
  have htoken : lex_token ⟨10 :: rest, stack, depth, 0, 1⟩ (10 :: rest) =
      (1, bare .newline, ⟨rest, stack, depth, 0, 0⟩) := by
    have hloop : lex_loop (10 :: rest) = 10 :: rest := rfl
    have hquoted : quoted (10 :: rest) = none := rfl
    simp only [lex_token, hloop, hquoted, hchoose]
    rfl
  exact congrArg some htoken

theorem climb {depth : ℕ} (hm : memory.length = STACK_SIZE)
    (hr : Run (fun _ => True) memory input types lexer)
    (hc : Climbing lexer depth (stairs (depth + 1) (n + 1))) (hd : depth + 1 < STACK_SIZE) :
    ∃ types' lexer', Run (fun _ => True) memory input types' lexer' ∧
      Climbing lexer' (depth + 1) (stairs (depth + 2) n) := by
  have hreached := run_reached hm hr
  obtain ⟨cursor, stack, ldepth, pending, state⟩ := lexer
  obtain ⟨hcursor, hdepth, hpending, hstate, hlevel⟩ := hc
  dsimp only at hcursor hdepth hpending hstate
  subst hcursor hdepth hpending hstate
  have hsmall : 2 * (ldepth + 1) < 2 ^ 31 := by
    rw [STACK_SIZE] at hd
    omega
  have hindent : toon_lexer_next ⟨stairs (ldepth + 1) (n + 1), stack, ldepth, 0, 0⟩ =
      some (1, bare .indent,
        ⟨97 :: 10 :: stairs (ldepth + 2) n, stack.set (ldepth + 1) (ldepth + 1), ldepth + 1, 0,
          1⟩) := by
    rw [toon_lexer_next, if_neg (Nat.lt_irrefl 0), if_pos rfl]
    rw [line_start_stairs hsmall]
    dsimp only
    rw [lex_level, hlevel]
    dsimp only
    rw [if_pos (Nat.lt_succ_self _), if_pos hd]
  have hrun := Run.call (Run.call (Run.call hr trivial hindent Int.one_pos) trivial
    (next_key _ _ _) Int.one_pos) trivial (next_newline _ _ _) Int.one_pos
  refine ⟨_, _, hrun, rfl, rfl, rfl, rfl, ?_⟩
  have hlt : ldepth + 1 < stack.length := by
    have hsize : stack.length = STACK_SIZE := hreached.stacked.size
    rw [hsize]
    exact hd
  exact List.getElem?_set_self hlt

theorem climbing {memory : List ℕ} {input : Bytes} {depth n : ℕ}
    (hm : memory.length = STACK_SIZE) (hd : depth < STACK_SIZE)
    (h : ∃ types lexer, Run (fun _ => True) memory input types lexer ∧
      Climbing lexer 0 (stairs 1 (depth + n))) :
    ∃ types lexer, Run (fun _ => True) memory input types lexer ∧
      Climbing lexer depth (stairs (depth + 1) n) := by
  induction depth generalizing n with
  | zero =>
    rw [Nat.zero_add] at h
    exact h
  | succ depth ih =>
    obtain ⟨types, lexer, hr, hc⟩ := @ih (n + 1) (by omega) (by
      rw [show depth + 1 + n = depth + (n + 1) by omega] at h
      exact h)
    exact climb hm hr hc hd

theorem climbing_overflows (hc : Climbing lexer 255 (stairs 256 (n + 1))) :
    toon_lexer_next lexer = none := by
  obtain ⟨cursor, stack, depth, pending, state⟩ := lexer
  obtain ⟨hcursor, hdepth, hpending, hstate, hlevel⟩ := hc
  subst hcursor hdepth hpending hstate
  rw [toon_lexer_next, if_neg (Nat.lt_irrefl 0), if_pos rfl]
  rw [line_start_stairs (by decide)]
  dsimp only
  rw [lex_level, hlevel]
  rfl

/-- 256 lines, each a level deeper than the one before. -/
theorem stairs_overflow : ¬ ∀ (memory : List ℕ) (input : Bytes) (types : List TokenType)
    (lexer : Lexer), memory.length = STACK_SIZE → Run (fun _ => True) memory input types lexer →
    Balanced input types lexer := by
  intro hall
  have hm : (List.replicate 256 0).length = STACK_SIZE := List.length_replicate ..
  obtain ⟨types, lexer, hr, hc⟩ := @climbing (List.replicate 256 0) (stairs 1 256) 255 1 hm
    (by decide) ⟨[], _, .start, rfl, rfl, rfl, rfl, rfl⟩
  obtain ⟨code, token, lexer', hnext, -⟩ := (hall _ _ _ _ hm hr).next
  rw [climbing_overflows hc] at hnext
  cases hnext

end SaltsUtils.Toon
