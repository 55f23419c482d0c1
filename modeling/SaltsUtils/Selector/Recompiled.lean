import SaltsUtils.Selector.Evaluate

/-!
# Compiling the canonical text

The canonical text of an expression spells one derivation whose meaning is the expression.
-/

set_option autoImplicit false

namespace SaltsUtils.Selector

open SaltsUtils Kleene

variable {d : ℕ} {b : Bytes}

theorem spells_word {d' ch : ℕ} {tail : Bytes} {ts : List Token} (hs : ident_start ch = true)
    (ht : field_tail tail = (tail, [])) (hne : b ≠ []) (hstop : Stops b) (h : Spells d b ts d') :
    Spells d (ch :: tail ++ b) (word_token (ch :: tail) :: ts) d' := by
  intro after
  have hw : whitespace ch = false := by
    have := ident_start_lt hs
    simp only [whitespace, Bool.or_eq_false_iff, beq_eq_false_iff_ne]
    omega
  have hstop' : Stops (b ++ after) := by
    intro c hc
    rw [List.head?_append_of_ne_nil b hne] at hc
    exact hstop c hc
  have hmatch : lexer_match (ch :: tail ++ (b ++ after)) =
      some (word_token (ch :: tail), b ++ after) := by
    have hcut := field_tail_matched tail hstop'
    rw [ht] at hcut
    have hc := hs
    simp only [ident_start, Bool.or_eq_true, Bool.and_eq_true, decide_eq_true_eq, beq_iff_eq] at hc
    rw [List.cons_append, lexer_match]
    iterate 10 rw [if_neg (by omega)]
    rw [if_pos hs, hcut]
  have hl : word_token (ch :: tail) ≠ .lparen := by
    unfold word_token
    split_ifs <;> simp
  have hr : word_token (ch :: tail) ≠ .rparen := by
    unfold word_token
    split_ifs <;> simp
  rw [List.append_assoc, spells_match hw hmatch hl hr, h after, Option.map_map]
  rfl

theorem spells_field {d' : ℕ} {f : Bytes} {ts : List Token} (hf : FieldText f) (hne : b ≠ [])
    (hstop : Stops b) (h : Spells d b ts d') : Spells d (f ++ b) (.field f :: ts) d' := by
  obtain ⟨ch, tail, rfl, hs, ht, hw⟩ := hf
  rw [← hw]
  exact spells_word hs ht hne hstop h

theorem spells_string {v : Bytes} (d : ℕ) (hv : StringText v) : Spells d v [.string v] d := by
  obtain ⟨body, rfl, hl⟩ := hv
  intro after
  have hmatch : lexer_match (34 :: (body ++ [34]) ++ after) =
      some (.string (34 :: body ++ [34]), after) := by
    have he : body ++ [34] ++ after = body ++ 34 :: after := by simp
    rw [List.cons_append, he, lexer_match]
    iterate 9 rw [if_neg (by omega)]
    rw [if_pos rfl, string_tail_literal hl]
    rfl
  exact spells_match rfl hmatch (by simp) (by simp)

theorem spells_symbol (d ch : ℕ) (b : Bytes) {t : Token} (hw : whitespace ch = false)
    (h : ∀ after, lexer_match (ch :: b ++ after) = some (t, after)) (hl : t ≠ .lparen)
    (hr : t ≠ .rparen) : Spells d (ch :: b) [t] d :=
  fun after => spells_match hw (h after) hl hr

theorem spells_spaced {ch : ℕ} {t : Token} (h : Spells d (ch :: b) [t] d) :
    Spells d (32 :: ch :: b ++ [32]) [t] d :=
  (spells_space d).append (h.append (spells_space d))

theorem spells_comma (d : ℕ) : Spells d (text ", ") [.comma] d :=
  (spells_symbol d 44 [] rfl (fun _ => rfl) (by simp) (by simp)).append (spells_space d)

theorem spells_eq (d : ℕ) : Spells d (text " == ") [.eq] d :=
  spells_spaced (spells_symbol d 61 [61] rfl (fun _ => rfl) (by simp) (by simp))

theorem spells_ne (d : ℕ) : Spells d (text " != ") [.ne] d :=
  spells_spaced (spells_symbol d 33 [61] rfl (fun _ => rfl) (by simp) (by simp))

def join_token : Connective → Token
  | .and => .and
  | .or => .or

theorem spells_join (d : ℕ) : ∀ c, Spells d (join_text c) [join_token c] d
  | .and => spells_spaced (spells_symbol d 38 [38] rfl (fun _ => rfl) (by simp) (by simp))
  | .or => spells_spaced (spells_symbol d 124 [124] rfl (fun _ => rfl) (by simp) (by simp))

theorem spells_lbracket (d : ℕ) : Spells d (text "[") [.lbracket] d :=
  spells_symbol d 91 [] rfl (fun _ => rfl) (by simp) (by simp)

theorem spells_rbracket (d : ℕ) : Spells d (text "]") [.rbracket] d :=
  spells_symbol d 93 [] rfl (fun _ => rfl) (by simp) (by simp)

theorem spells_in (d : ℕ) : Spells d (text " in [") [.in_, .lbracket] d := by
  have he : text " in [" = [32] ++ (105 :: [110] ++ ([32] ++ text "[")) := rfl
  have hb := (spells_space d).append (spells_lbracket d)
  rw [he]
  exact (spells_space d).append
    (spells_word (by decide) (by decide) (by simp) (by unfold Stops; decide) hb)

theorem spells_not_in (d : ℕ) : Spells d (text " not in [") [.not, .in_, .lbracket] d := by
  have he : text " not in [" = [32] ++ (110 :: [111, 116] ++ text " in [") := rfl
  rw [he]
  exact (spells_space d).append
    (spells_word (by decide) (by decide) (by decide) (by unfold Stops; decide) (spells_in d))

theorem spells_has (h : d + 1 ≤ max_depth) : Spells d (text "has(") [.has, .lparen] (d + 1) := by
  have he : text "has(" = 104 :: [97, 115] ++ [40] := rfl
  rw [he]
  exact spells_word (by decide) (by decide) (by simp) (by unfold Stops; decide) (spells_lparen h)

theorem spells_capability (h : d + 1 ≤ max_depth) :
    Spells d (text "capability(") [.capability, .lparen] (d + 1) := by
  have he : text "capability(" = 99 :: [97, 112, 97, 98, 105, 108, 105, 116, 121] ++ [40] := rfl
  rw [he]
  exact spells_word (by decide) (by decide) (by simp) (by unfold Stops; decide) (spells_lparen h)

theorem spells_bang (h : d + 1 ≤ max_depth) : Spells d (text "!(") [.bang, .lparen] (d + 1) := by
  intro after
  have hmatch : lexer_match (33 :: [] ++ 40 :: after) = some (.bang, 40 :: after) := rfl
  have hb := @spells_match d 33 [] .bang (40 :: after) rfl hmatch (by simp) (by simp)
  have hp := spells_lparen h after
  calc
    lexer_tokens ⟨text "!(" ++ after, d⟩ = (lexer_tokens ⟨40 :: after, d⟩).map (.bang :: ·) := hb
    _ = ((lexer_tokens ⟨after, d + 1⟩).map ([.lparen] ++ ·)).map (.bang :: ·) := by
      rw [← hp]
      rfl
    _ = _ := by
      rw [Option.map_map]
      rfl

def Predicate.Printable : Predicate → Prop
  | eq field value => FieldText field ∧ Utf8.Valid value
  | ne field value => FieldText field ∧ Utf8.Valid value
  | in_ field values => FieldText field ∧ values ≠ [] ∧ ∀ v ∈ values, Utf8.Valid v
  | not_in field values => FieldText field ∧ values ≠ [] ∧ ∀ v ∈ values, Utf8.Valid v
  | has field => FieldText field
  | capability name => Utf8.Valid name

theorem spelled_list_valid {vs ss : List Bytes} (h : List.Forall₂ Spelled vs ss)
    (hv : ∀ v ∈ vs, Utf8.Valid v) : ∀ s ∈ ss, Utf8.Valid s := by
  induction h with
  | nil => simp
  | cons hs _ ih =>
    rw [List.forall_mem_cons] at hv ⊢
    exact ⟨hs.valid hv.1, ih hv.2⟩

theorem spelled_list_ne_nil {v : Bytes} {vs ss : List Bytes}
    (h : List.Forall₂ Spelled (v :: vs) ss) : ss ≠ [] := by
  cases h
  simp

variable {q : Predicate}

theorem means_printable {p : Leaf} (hm : p.Means q) (hp : ∀ t ∈ p.yield, t.Proper) :
    q.Printable := by
  have hstring : ∀ v ∈ p.strings, Utf8.Valid v := fun v hv => (hp _ (leaf_strings_yield hv)).1
  cases hm with
  | @eq f v s hs =>
    exact ⟨hp (.field f) (by simp [Leaf.yield]), hs.valid (hstring v (by simp [Leaf.strings]))⟩
  | @ne f v s hs =>
    exact ⟨hp (.field f) (by simp [Leaf.yield]), hs.valid (hstring v (by simp [Leaf.strings]))⟩
  | @in_ f first rest ss hv =>
    exact ⟨hp (.field f) (by simp [Leaf.yield]), spelled_list_ne_nil hv,
      spelled_list_valid hv hstring⟩
  | @not_in f first rest ss hv =>
    exact ⟨hp (.field f) (by simp [Leaf.yield]), spelled_list_ne_nil hv,
      spelled_list_valid hv hstring⟩
  | @has f => exact hp (.field f) (by simp [Leaf.yield])
  | @capability v s hs => exact hs.valid (hstring v (by simp [Leaf.strings]))

theorem Predicate.Printable.normal (h : q.Printable) : q.normal.Printable := by
  have hsorted : ∀ values : List Bytes, (values ≠ [] ∧ ∀ v ∈ values, Utf8.Valid v) →
      sorted values ≠ [] ∧ ∀ v ∈ sorted values, Utf8.Valid v := by
    intro values hv
    refine ⟨?_, fun v hm => hv.2 v ((sorted_perm values).mem_iff.mp hm)⟩
    intro he
    have hp := sorted_perm values
    rw [he] at hp
    exact hv.1 hp.nil_eq.symm
  cases q with
  | in_ f vs => exact ⟨h.1, hsorted vs h.2⟩
  | not_in f vs => exact ⟨h.1, hsorted vs h.2⟩
  | eq f v => exact h
  | ne f v => exact h
  | has f => exact h
  | capability v => exact h

variable {schema : Schema}

theorem Predicate.Accepted.normal (h : q.Accepted schema) : q.normal.Accepted schema := by
  have hsorted : ∀ values, ValuesOk values → ValuesOk (sorted values) := by
    intro values hv
    have hp := sorted_perm values
    refine ⟨fun v hm => hv.1 v (hp.mem_iff.mp hm), hp.nodup_iff.mpr hv.2.1, ?_⟩
    intro he
    rw [he] at hp
    exact hv.2.2 hp.nil_eq.symm
  cases q with
  | in_ f vs => exact ⟨h.1, hsorted vs h.2⟩
  | not_in f vs => exact ⟨h.1, hsorted vs h.2⟩
  | eq f v => exact h
  | ne f v => exact h
  | has f => exact h
  | capability v => exact h

def Predicate.leaf : Predicate → Leaf
  | eq field value => .eq field (selector_writer_string value)
  | ne field value => .ne field (selector_writer_string value)
  | in_ field values =>
    .in_ field (selector_writer_string (values.headD [])) (values.tail.map selector_writer_string)
  | not_in field values =>
    .not_in field (selector_writer_string (values.headD [])) (values.tail.map selector_writer_string)
  | has field => .has field
  | capability name => .capability (selector_writer_string name)

def Expression.unary : Expression → Tree .unary_expr
  | .atom q => .predicate q.leaf
  | .join .and f g => .paren (.or_and (.and (.and_unary (Expression.unary f)) (Expression.unary g)))
  | .join .or f g =>
    .paren (.or (.or_and (.and_unary (Expression.unary f))) (.and_unary (Expression.unary g)))
  | .not f => .bang (.paren (.or_and (.and_unary (Expression.unary f))))

def Expression.tree (e : Expression) : Tree .or_expr := .or_and (.and_unary (Expression.unary e))

theorem writer_spelled_list (values : List Bytes) :
    List.Forall₂ Spelled (values.map selector_writer_string) values := by
  induction values with
  | nil => exact .nil
  | cons v values ih => exact .cons (writer_spelled v) ih

theorem leaf_means (h : q.Printable) : q.leaf.Means q := by
  have hlist : ∀ values : List Bytes, values ≠ [] → List.Forall₂ Spelled
      (selector_writer_string (values.headD []) :: values.tail.map selector_writer_string)
      values := by
    intro values hne
    cases values with
    | nil => exact absurd rfl hne
    | cons v values => exact writer_spelled_list (v :: values)
  cases q with
  | eq f v => exact .eq (writer_spelled v)
  | ne f v => exact .ne (writer_spelled v)
  | in_ f vs => exact .in_ (hlist vs h.2.1)
  | not_in f vs => exact .not_in (hlist vs h.2.1)
  | has f => exact .has
  | capability v => exact .capability (writer_spelled v)

variable {e : Expression}

theorem tree_means (h : ∀ q ∈ e.atoms, q.Printable) :
    Formula.Rel Leaf.Means (Expression.tree e).formula e := by
  induction e with
  | atom q => exact .atom (leaf_means (h q (by simp [Formula.atoms])))
  | join c f g ihf ihg =>
    have hf := ihf fun q hq => h q (List.mem_append_left _ hq)
    have hg := ihg fun q hq => h q (List.mem_append_right _ hq)
    cases c with
    | and => exact .join .and hf hg
    | or => exact .join .or hf hg
  | not f ih => exact .not (ih h)

theorem tree_stack (e : Expression) : (Expression.tree e).stack ≤ 3 * e.depth + 4 := by
  induction e with
  | atom q =>
    cases q <;> simp only [Expression.tree, Expression.unary, Tree.stack, Predicate.leaf,
      Leaf.stack, Formula.depth] <;> first | omega | (split_ifs <;> omega)
  | join c f g ihf ihg =>
    cases c <;>
      simp only [Expression.tree, Expression.unary, Tree.stack, Formula.depth] at * <;> omega
  | not f ih =>
    simp only [Expression.tree, Expression.unary, Tree.stack, Formula.depth] at *
    omega

theorem spells_list (d : ℕ) {values : List Bytes} (h : values ≠ []) :
    Spells d (render_list values) (items_yield (selector_writer_string (values.headD []))
        (values.tail.map selector_writer_string)) d := by
  have hrest : ∀ rest : List Bytes,
      Spells d (rest.flatMap fun value => text ", " ++ selector_writer_string value)
        ((rest.map selector_writer_string).flatMap fun value => [.comma, .string value]) d := by
    intro rest
    induction rest with
    | nil => exact Spells.nil d
    | cons v rest ih =>
      exact ((spells_comma d).append (spells_string d (writer_text v))).append ih
  cases values with
  | nil => exact absurd rfl h
  | cons v rest => exact (spells_string d (writer_text v)).append (hrest rest)

theorem stops_spaced (b : Bytes) : Stops (32 :: b) := by
  intro ch hch
  cases hch
  decide

theorem predicate_spells (h : q.Printable) (hd : d + 1 ≤ max_depth) :
    Spells d q.canonical q.leaf.yield d := by
  cases q with
  | eq f v =>
    have hv := (spells_eq d).append (spells_string d (writer_text v))
    rw [Predicate.canonical, List.append_assoc]
    exact spells_field h.1 (by simp [text]) (stops_spaced _) hv
  | ne f v =>
    have hv := (spells_ne d).append (spells_string d (writer_text v))
    rw [Predicate.canonical, List.append_assoc]
    exact spells_field h.1 (by simp [text]) (stops_spaced _) hv
  | in_ f vs =>
    have hv := (spells_in d).append ((spells_list d h.2.1).append (spells_rbracket d))
    rw [Predicate.canonical, List.append_assoc, List.append_assoc]
    exact spells_field h.1 (by simp [text]) (stops_spaced _) hv
  | not_in f vs =>
    have hv := (spells_not_in d).append ((spells_list d h.2.1).append (spells_rbracket d))
    rw [Predicate.canonical, List.append_assoc, List.append_assoc]
    exact spells_field h.1 (by simp [text]) (stops_spaced _) hv
  | has f =>
    have hf : Spells (d + 1) (f ++ [41]) [.field f, .rparen] d :=
      spells_field h (by simp) (by unfold Stops; decide) (spells_rparen (d + 1))
    rw [Predicate.canonical, List.append_assoc]
    exact (spells_has hd).append hf
  | capability v =>
    have hv := (spells_string (d + 1) (writer_text v)).append (spells_rparen (d + 1))
    rw [Predicate.canonical, List.append_assoc]
    exact (spells_capability hd).append hv

theorem canonical_spells (h : ∀ q ∈ e.atoms, q.Printable) (hd : d + e.depth ≤ max_depth) :
    Spells d (Expression.canonical e) (Expression.tree e).yield d := by
  have hopen : text "(" = [40] := rfl
  have hclose : text ")" = [41] := rfl
  induction e generalizing d with
  | atom q => exact predicate_spells (h q (by simp [Formula.atoms])) hd
  | join c f g ihf ihg =>
    simp only [Formula.depth] at hd
    have hf := @ihf (d + 1) (fun q hq => h q (List.mem_append_left _ hq)) (by omega)
    have hg := @ihg (d + 1) (fun q hq => h q (List.mem_append_right _ hq)) (by omega)
    have hb := ((((spells_lparen (by omega : d + 1 ≤ max_depth)).append hf).append
      (spells_join (d + 1) c)).append hg).append (spells_rparen (d + 1))
    cases c <;>
      simpa [Expression.canonical, Expression.tree, Expression.unary, Tree.yield, join_token, hopen,
        hclose] using hb
  | not f ih =>
    simp only [Formula.depth] at hd
    have hf := @ih (d + 1) h (by omega)
    have hb := ((spells_bang (by omega : d + 1 ≤ max_depth)).append hf).append
      (spells_rparen (d + 1))
    simpa [Expression.canonical, Expression.tree, Expression.unary, Tree.yield, hclose] using hb

theorem field_text_ascii {f : Bytes} (h : FieldText f) : ∀ ch ∈ f, 0 < ch ∧ ch < 128 := by
  obtain ⟨ch, tail, rfl, hs, ht, -⟩ := h
  have htail := field_tail_ascii tail
  rw [ht] at htail
  have hch := ident_start_lt hs
  rw [List.forall_mem_cons]
  exact ⟨by omega, fun c hc => ⟨by have := htail c hc; omega, (htail c hc).2⟩⟩

def SourceText (b : Bytes) : Prop := Utf8.Valid b ∧ 0 ∉ b

theorem SourceText.append {a : Bytes} (ha : SourceText a) (hb : SourceText b) :
    SourceText (a ++ b) := by
  refine ⟨ha.1.append hb.1, ?_⟩
  rw [List.mem_append, not_or]
  exact ⟨ha.2, hb.2⟩

theorem source_text_ascii (h : ∀ ch ∈ b, 0 < ch ∧ ch < 128) : SourceText b :=
  ⟨.ascii fun ch hch => (h ch hch).2, fun h₀ => absurd (h 0 h₀).1 (by omega)⟩

theorem source_text_string {s : Bytes} (h : Utf8.Valid s) : SourceText (selector_writer_string s) :=
  ⟨writer_string_valid h, writer_string_nonzero s⟩

theorem source_text_list {values : List Bytes} (h : ∀ v ∈ values, Utf8.Valid v) :
    SourceText (render_list values) := by
  have hrest : ∀ rest : List Bytes, (∀ v ∈ rest, Utf8.Valid v) →
      SourceText (rest.flatMap fun value => text ", " ++ selector_writer_string value) := by
    intro rest hv
    induction rest with
    | nil => exact ⟨.nil, by simp⟩
    | cons v rest ih =>
      rw [List.forall_mem_cons] at hv
      exact ((source_text_ascii (by decide)).append (source_text_string hv.1)).append (ih hv.2)
  cases values with
  | nil => exact ⟨.nil, by simp [render_list]⟩
  | cons v rest =>
    rw [List.forall_mem_cons] at h
    exact (source_text_string h.1).append (hrest rest h.2)

theorem predicate_source_text (h : q.Printable) : SourceText q.canonical := by
  cases q with
  | eq f v =>
    exact ((source_text_ascii (field_text_ascii h.1)).append (source_text_ascii (by decide))).append
      (source_text_string h.2)
  | ne f v =>
    exact ((source_text_ascii (field_text_ascii h.1)).append (source_text_ascii (by decide))).append
      (source_text_string h.2)
  | in_ f vs =>
    exact (((source_text_ascii (field_text_ascii h.1)).append
      (source_text_ascii (by decide))).append (source_text_list h.2.2)).append
      (source_text_ascii (by decide))
  | not_in f vs =>
    exact (((source_text_ascii (field_text_ascii h.1)).append
      (source_text_ascii (by decide))).append (source_text_list h.2.2)).append
      (source_text_ascii (by decide))
  | has f =>
    exact ((source_text_ascii (by decide)).append (source_text_ascii (field_text_ascii h))).append
      (source_text_ascii (by decide))
  | capability v =>
    exact ((source_text_ascii (by decide)).append (source_text_string h)).append
      (source_text_ascii (by decide))

theorem canonical_source_text (h : ∀ q ∈ e.atoms, q.Printable) :
    SourceText (Expression.canonical e) := by
  induction e with
  | atom q => exact predicate_source_text (h q (by simp [Formula.atoms]))
  | join c f g ihf ihg =>
    have hf := ihf fun q hq => h q (List.mem_append_left _ hq)
    have hg := ihg fun q hq => h q (List.mem_append_right _ hq)
    have hc : SourceText (join_text c) := by cases c <;> exact source_text_ascii (by decide)
    exact ((((source_text_ascii (by decide)).append hf).append hc).append hg).append
      (source_text_ascii (by decide))
  | not f ih =>
    exact ((source_text_ascii (by decide)).append (ih h)).append (source_text_ascii (by decide))

theorem canonical_ne_nil (e : Expression) : Expression.canonical e ≠ [] := by
  cases e with
  | atom q => cases q <;> simp [Expression.canonical, Predicate.canonical, text]
  | join c f g => simp [Expression.canonical, text]
  | not f => simp [Expression.canonical, text]

variable {source : Bytes} {p : Program} {t : Tree .or_expr}

theorem Compiled.printable (h : Compiled source schema p t e) :
    ∀ q ∈ (Expression.normal e).atoms, q.Printable := by
  have hproper := selector_tokens_proper h.tokens h.valid
  have hq : ∀ q ∈ e.atoms, q.Printable := by
    apply h.built.means.atoms (fun _ _ hm hp => means_printable hm hp)
    exact fun p hp token ht => hproper token (leaf_yield_tree hp token ht)
  simp only [Expression.normal, Formula.atoms_map, List.forall_mem_map]
  exact fun q hm => (hq q hm).normal

theorem Compiled.fits (h : Compiled source schema p t e) :
    Fits schema (Expression.normal e) .empty := by
  have hb := h.built
  have hnodes := hb.nodes
  have hitems := hb.items
  have hbytes := hb.bytes
  have hnodes_le := hb.nodes_le
  have hitems_le := hb.items_le (by simp [Ctx.empty])
  have hbytes_le := hb.bytes_le (by simp [Ctx.empty])
  refine ⟨?_, ?_, ?_, ?_, ?_⟩
  · simp only [Expression.normal, Formula.atoms_map, List.forall_mem_map]
    exact fun q hm => (hb.accepted q hm).normal
  · rw [Expression.normal, Formula.depth_map]
    exact hb.depth
  · rw [Expression.normal, Formula.size_map]
    omega
  · rw [items_normal]
    omega
  · rw [bytes_normal]
    omega

def token_count (source : Bytes) : ℕ := ((selector_tokens source).getD []).length

theorem recompile (h : Compiled source schema p t e)
    (hlen : (Expression.canonical (Expression.normal e)).length ≤ max_source_bytes)
    (hcount : token_count (Expression.canonical (Expression.normal e)) ≤ max_tokens) :
    ∃ p', salts_selector_compile_v1 (Expression.canonical (Expression.normal e)) schema = some p' ∧
      Compiled (Expression.canonical (Expression.normal e)) schema p'
        (Expression.tree (Expression.normal e)) (Expression.normal e) := by
  have hp := h.printable
  have hfits := h.fits
  generalize Expression.normal e = e' at hp hfits hlen hcount ⊢
  have hdepth := hfits.depth
  have htext := canonical_source_text hp
  have htokens := (@canonical_spells 0 e' hp (by omega)).tokens
  have hmeans := tree_means hp
  have hstack := tree_stack e'
  obtain ⟨⟨root, ctx⟩, hbuild⟩ := tree_complete hmeans hfits
  have hbuilt := tree_built hmeans hbuild
  have hlen₀ := List.length_eq_zero_iff.not.mpr (canonical_ne_nil e')
  rw [token_count, htokens, Option.getD_some] at hcount
  refine ⟨{ ctx with root := root }, ?_, ⟨h.schema_valid, htext.1, htokens, hbuilt⟩⟩
  unfold salts_selector_compile_v1
  have hindex := hbuilt.index
  have hparser : ¬ parser_stack < (Expression.tree e').stack := by
    unfold parser_stack
    unfold max_depth at hdepth
    omega
  rw [if_neg (by simp [hlen₀, h.schema_valid]), if_neg (by omega),
    if_neg (by simp [validate_of_utf8 htext.1 htext.2]), htokens, Option.bind_eq_bind,
    Option.bind_some, if_neg (by omega), selector_parse_yield, Option.bind_eq_bind,
    Option.bind_some, if_neg hparser, hbuild, Option.bind_eq_bind, Option.bind_some]
  exact if_neg (by omega)

theorem canonical_injective {e' : Expression} (h : ∀ q ∈ e.atoms, q.Printable)
    (h' : ∀ q ∈ e'.atoms, q.Printable) (hd : e.depth ≤ max_depth) (hd' : e'.depth ≤ max_depth)
    (he : Expression.canonical e = Expression.canonical e') : e = e' := by
  have ht := (@canonical_spells 0 e h (by omega)).tokens
  have ht' := (@canonical_spells 0 e' h' (by omega)).tokens
  rw [he, ht'] at ht
  have htree := yield_injective (Option.some.inj ht)
  have hm := tree_means h
  rw [← htree] at hm
  have hu : ∀ a b c, Leaf.Means a b → Leaf.Means a c → b = c := fun _ _ _ => Leaf.Means.unique
  exact hm.unique hu (tree_means h')

/-- The canonical text of a program compiles to a program with that text, and it is
one text for all the sources that differ only in the spelling of a selector: two
sources have it in common when their expressions, from which white space,
parentheses and escapes are gone, agree up to the order of the lists. -/
theorem canonical_fixed_point {source : Bytes} {schema : Schema} {p : Program}
    (h : salts_selector_compile_v1 source schema = some p) :
    ∃ c e, salts_selector_program_canonical_v1 p = some c ∧ SourceExpression source e ∧
      (c.length ≤ max_source_bytes → token_count c ≤ max_tokens →
        ∃ p', salts_selector_compile_v1 c schema = some p' ∧
          salts_selector_program_canonical_v1 p' = some c ∧
          p'.predicate_count = p.predicate_count ∧
          ∀ (σ : Type) (ops : EvalOps σ) (context : σ),
            salts_selector_program_evaluate_v1 p' ops context =
              salts_selector_program_evaluate_v1 p ops context) ∧
      ∀ (source' : Bytes) (schema' : Schema) (p' : Program) (e' : Expression),
        salts_selector_compile_v1 source' schema' = some p' → SourceExpression source' e' →
          (salts_selector_program_canonical_v1 p' = salts_selector_program_canonical_v1 p ↔
            Formula.Rel Predicate.Alike e' e) := by
  obtain ⟨t, e, hc⟩ := compile_sound h
  have hexpr : SourceExpression source e := ⟨t, hc.tokens, hc.built.means⟩
  refine ⟨_, e, canonical_eq hc, hexpr, ?_, ?_⟩
  · intro hlen hcount
    obtain ⟨p', hp', hc'⟩ := recompile hc hlen hcount
    refine ⟨p', hp', ?_, ?_, ?_⟩
    · rw [canonical_eq hc', Expression.normal_idem]
    · have hn := hc.built.predicates
      have hn' := hc'.built.predicates
      rw [Expression.normal, Formula.atoms_map, List.length_map] at hn'
      exact hn'.trans hn.symm
    · intro σ ops context
      rw [evaluate_run hc', evaluate_run hc, Expression.normal, Formula.run_map]
      simp only [ask_normal]
  · intro source' schema' p' e' h' he'
    obtain ⟨t', e'', hc'⟩ := compile_sound h'
    cases he'.unique ⟨t', hc'.tokens, hc'.built.means⟩
    rw [canonical_eq hc, canonical_eq hc', Option.some.injEq, alike_iff_normal]
    constructor
    · apply canonical_injective hc'.printable hc.printable
      · rw [Expression.normal, Formula.depth_map]
        exact hc'.built.depth
      · rw [Expression.normal, Formula.depth_map]
        exact hc.built.depth
    · intro hn
      rw [hn]

theorem canonical_fixed_point_has :
    ∃ p, salts_selector_compile_v1 (text "!has(a)") ⟨[text "a"], false⟩ = some p ∧
      ∃ c, salts_selector_program_canonical_v1 p = some c := by
  have hc : (salts_selector_compile_v1 (text "!has(a)") ⟨[text "a"], false⟩).isSome = true := by
    decide +kernel
  obtain ⟨p, hp⟩ := Option.isSome_iff_exists.mp hc
  obtain ⟨c, e, h, -⟩ := canonical_fixed_point hp
  exact ⟨p, hp, c, h⟩

end SaltsUtils.Selector
