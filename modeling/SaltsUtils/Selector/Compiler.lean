import SaltsUtils.Selector.Compiled

/-!
# The compiler

The actions of a derivation build the normal form of the expression it spells,
with exactly the room the expression takes. They succeed on every expression
that is acceptable, shallow and small enough.
-/

set_option autoImplicit false

namespace SaltsUtils.Selector

open SaltsUtils Kleene

structure Built (schema : Schema) (f : Formula Leaf) (ctx : Ctx) (i : ℕ) (ctx' : Ctx)
    (e : Expression) : Prop where
  means : Formula.Rel Leaf.Means f e
  accepted : ∀ q ∈ e.atoms, q.Accepted schema
  grown : Grown ctx ctx'
  denotes : Denotes ctx' (Expression.normal e) i
  depth_of : ctx'.depth_of i = e.depth
  depth : e.depth ≤ max_depth
  index : i < ctx'.nodes.length
  nodes : ctx'.nodes.length = ctx.nodes.length + e.size
  items : ctx'.list_values.length = ctx.list_values.length + Expression.items e
  bytes : ctx'.strings.length = ctx.strings.length + Expression.bytes e
  predicates : ctx'.predicate_count = ctx.predicate_count + e.atoms.length
  nodes_le : ctx'.nodes.length ≤ max_nodes
  items_le : ctx.list_values.length ≤ max_list_items → ctx'.list_values.length ≤ max_list_items
  bytes_le : ctx.strings.length ≤ string_pool_bytes → ctx'.strings.length ≤ string_pool_bytes

variable {ctx ctx' : Ctx} {i : ℕ}

theorem add_node_sound {node : Node} (h : selector_add_node ctx node = some (i, ctx')) :
    i = ctx.nodes.length ∧ ctx.nodes.length < max_nodes ∧
      ctx' = { ctx with nodes := ctx.nodes ++ [node] } := by
  unfold selector_add_node at h
  split_ifs at h with hroom
  cases h
  unfold max_nodes at hroom
  exact ⟨by omega, by unfold max_nodes; omega, rfl⟩

theorem depth_of_added (ctx : Ctx) (node : Node) :
    Ctx.depth_of { ctx with nodes := ctx.nodes ++ [node] } ctx.nodes.length = node.depth := by
  simp [Ctx.depth_of]

theorem Grown.add (ctx : Ctx) (node : Node) : Grown ctx { ctx with nodes := ctx.nodes ++ [node] } :=
  ⟨List.prefix_append _ _, List.prefix_refl _, List.prefix_refl _⟩

variable {schema : Schema} {p : Leaf}

theorem Built.leaf (ht : ∀ v ∈ p.strings, StringText v) (h : p.build schema ctx = some (i, ctx')) :
    ∃ e, Built schema (.atom p) ctx i ctx' e := by
  obtain ⟨q, ctx₁, node, hm, ha, hp, hadd⟩ := leaf_sound ht h
  obtain ⟨rfl, hroom, rfl⟩ := add_node_sound hadd
  have hfill := hp.filled
  have hg : Grown ctx₁ { ctx₁ with
      predicate_count := ctx₁.predicate_count + 1, nodes := ctx₁.nodes ++ [node] } :=
    ⟨List.prefix_append _ _, List.prefix_refl _, List.prefix_refl _⟩
  refine ⟨.atom q, .atom hm, by simpa [Formula.atoms] using ha, ?_, ⟨node, by simp, ?_⟩, ?_,
    by simp [Formula.depth, max_depth], by simp, ?_, ?_, ?_, ?_, ?_, hfill.items_le,
    hfill.bytes_le⟩
  · exact ⟨by simp [hfill.nodes], hfill.list_values, hfill.strings⟩
  · exact hp.holds.grown hg
  · simp [Ctx.depth_of, hp.depth, Formula.depth]
  · simp [hfill.nodes, Formula.size]
  · simp [hfill.items_eq, Expression.items, Formula.atoms]
  · simp [hfill.bytes_eq, Expression.bytes, Formula.atoms]
  · simp [hfill.predicates, Formula.atoms]
  · dsimp only at hroom
    simp only [List.length_append, List.length_cons, List.length_nil]
    omega

variable {f : Formula Leaf} {ctx₁ ctx₂ : Ctx} {e : Expression}

theorem Built.depth_of_grown (h : Built schema f ctx i ctx₁ e) (hg : Grown ctx₁ ctx₂) :
    ctx₂.depth_of i = e.depth := by
  have hd := h.depth_of
  have hi := h.index
  have hn : ctx₁.nodes[i]? = some ctx₁.nodes[i] := List.getElem?_eq_getElem hi
  rw [Ctx.depth_of, hn] at hd
  rw [Ctx.depth_of, hg.node hn]
  exact hd

variable {l : ℕ} {e' : Expression}

theorem Built.join {g : Formula Leaf} {r : ℕ} (c : Connective) (hf : Built schema f ctx l ctx₁ e)
    (hg : Built schema g ctx₁ r ctx₂ e')
    (h : selector_make_binary ctx₂ (join_kind c) l r = some (i, ctx')) :
    Built schema (.join c f g) ctx i ctx' (.join c e e') := by
  have hl := hf.depth_of_grown hg.grown
  have hmod : (1 + max e.depth e'.depth) % 2 ^ 8 = 1 + max e.depth e'.depth := by
    have h₁ := hf.depth
    have h₂ := hg.depth
    unfold max_depth at h₁ h₂
    omega
  unfold selector_make_binary at h
  rw [hl, hg.depth_of, hmod] at h
  dsimp only at h
  split_ifs at h with hdepth
  obtain ⟨rfl, hroom, rfl⟩ := add_node_sound h
  have hadd := Grown.add ctx₂
    ⟨join_kind c, 1 + max e.depth e'.depth, l, r, ⟨0, 0⟩, ⟨0, 0⟩, 0, 0⟩
  refine ⟨.join c hf.means hg.means, ?_, (hf.grown.trans hg.grown).trans hadd,
    ⟨_, List.getElem?_concat_length, rfl, (hf.denotes.grown hg.grown).grown hadd,
      hg.denotes.grown hadd⟩, depth_of_added _ _, ?_, by simp, ?_, ?_, ?_, ?_, ?_, ?_, ?_⟩
  · intro q hq
    rcases List.mem_append.mp hq with hq | hq
    · exact hf.accepted q hq
    · exact hg.accepted q hq
  · simp only [Formula.depth]
    omega
  · simp only [List.length_append, List.length_cons, List.length_nil, Formula.size, hg.nodes,
      hf.nodes]
    omega
  · simp only [Expression.items, Formula.atoms, List.map_append, List.sum_append]
    rw [hg.items, hf.items, Expression.items, Expression.items]
    omega
  · simp only [Expression.bytes, Formula.atoms, List.map_append, List.sum_append]
    rw [hg.bytes, hf.bytes, Expression.bytes, Expression.bytes]
    omega
  · simp only [Formula.atoms, List.length_append]
    rw [hg.predicates, hf.predicates]
    omega
  · simp only [List.length_append, List.length_cons, List.length_nil]
    omega
  · exact fun hle => hg.items_le (hf.items_le hle)
  · exact fun hle => hg.bytes_le (hf.bytes_le hle)

theorem Built.not (hf : Built schema f ctx l ctx₁ e) (h : selector_make_not ctx₁ l = some (i, ctx')) :
    Built schema (.not f) ctx i ctx' (.not e) := by
  have hmod : (e.depth + 1) % 2 ^ 8 = e.depth + 1 := by
    have h₁ := hf.depth
    unfold max_depth at h₁
    omega
  unfold selector_make_not at h
  rw [hf.depth_of, hmod] at h
  dsimp only at h
  split_ifs at h with hdepth
  obtain ⟨rfl, hroom, rfl⟩ := add_node_sound h
  have hadd := Grown.add ctx₁ ⟨.not, e.depth + 1, l, 65535, ⟨0, 0⟩, ⟨0, 0⟩, 0, 0⟩
  refine ⟨.not hf.means, hf.accepted, hf.grown.trans hadd,
    ⟨_, List.getElem?_concat_length, rfl, hf.denotes.grown hadd⟩, depth_of_added _ _, ?_, by simp,
    ?_, hf.items, hf.bytes, hf.predicates, ?_, hf.items_le, hf.bytes_le⟩
  · simp only [Formula.depth]
    omega
  · simp only [List.length_append, List.length_cons, List.length_nil, Formula.size, hf.nodes]
    omega
  · simp only [List.length_append, List.length_cons, List.length_nil]
    omega

/-- The strings of a derivation are strings of the lexer. -/
def Tree.Literal {c : Category} (t : Tree c) : Prop :=
  ∀ p ∈ t.formula.atoms, ∀ v ∈ p.strings, StringText v

variable {c : Category} {t : Tree c}

theorem tree_sound (ht : t.Literal) (h : t.build schema ctx = some (i, ctx')) :
    ∃ e, Built schema t.formula ctx i ctx' e := by
  induction t generalizing ctx ctx' i with
  | or b c ihb ihc =>
    obtain ⟨⟨l, ctx₁⟩, hb, h⟩ := Option.bind_eq_some_iff.mp h
    obtain ⟨⟨r, ctx₂⟩, hc, h⟩ := Option.bind_eq_some_iff.mp h
    obtain ⟨e, he⟩ := ihb (fun p hp => ht p (List.mem_append_left _ hp)) hb
    obtain ⟨e', he'⟩ := ihc (fun p hp => ht p (List.mem_append_right _ hp)) hc
    exact ⟨_, .join .or he he' h⟩
  | or_and b ih => exact ih ht h
  | and b c ihb ihc =>
    obtain ⟨⟨l, ctx₁⟩, hb, h⟩ := Option.bind_eq_some_iff.mp h
    obtain ⟨⟨r, ctx₂⟩, hc, h⟩ := Option.bind_eq_some_iff.mp h
    obtain ⟨e, he⟩ := ihb (fun p hp => ht p (List.mem_append_left _ hp)) hb
    obtain ⟨e', he'⟩ := ihc (fun p hp => ht p (List.mem_append_right _ hp)) hc
    exact ⟨_, .join .and he he' h⟩
  | and_unary b ih => exact ih ht h
  | bang b ih =>
    obtain ⟨⟨l, ctx₁⟩, hb, h⟩ := Option.bind_eq_some_iff.mp h
    obtain ⟨e, he⟩ := ih ht hb
    exact ⟨_, .not he h⟩
  | paren b ih => exact ih ht h
  | predicate p => exact Built.leaf (ht p (by simp [Tree.formula, Formula.atoms])) h

/-- What an expression needs to be compiled behind the tables of a context. -/
structure Fits (schema : Schema) (e : Expression) (ctx : Ctx) : Prop where
  accepted : ∀ q ∈ e.atoms, q.Accepted schema
  depth : e.depth ≤ max_depth
  nodes : ctx.nodes.length + e.size ≤ max_nodes
  items : ctx.list_values.length + Expression.items e ≤ max_list_items
  bytes : ctx.strings.length + Expression.bytes e ≤ string_pool_bytes

theorem means_strings {q : Predicate} (h : p.Means q) : ∀ v ∈ p.strings, StringText v := by
  cases h with
  | eq hs => simpa [Leaf.strings] using hs.text
  | ne hs => simpa [Leaf.strings] using hs.text
  | in_ hv => exact spelled_list_text hv
  | not_in hv => exact spelled_list_text hv
  | has => simp [Leaf.strings]
  | capability hs => simpa [Leaf.strings] using hs.text

theorem rel_strings (h : Formula.Rel Leaf.Means f e) :
    ∀ p ∈ f.atoms, ∀ v ∈ p.strings, StringText v := by
  induction h with
  | atom hm => simpa [Formula.atoms] using means_strings hm
  | join c _ _ ihf ihg =>
    intro p hp
    rcases List.mem_append.mp hp with hp | hp
    · exact ihf p hp
    · exact ihg p hp
  | not _ ih => exact ih

theorem Fits.left {c : Connective} (h : Fits schema (.join c e e') ctx) : Fits schema e ctx := by
  obtain ⟨ha, hd, hn, hi, hb⟩ := h
  simp only [Formula.depth, Formula.size, Expression.items, Expression.bytes, Formula.atoms,
    List.map_append, List.sum_append] at hd hn hi hb
  refine ⟨fun q hq => ha q (List.mem_append_left _ hq), by omega, by omega, ?_, ?_⟩
  · rw [Expression.items]
    omega
  · rw [Expression.bytes]
    omega

theorem Fits.right {c : Connective} (h : Fits schema (.join c e e') ctx)
    (hb : Built schema f ctx i ctx₁ e) : Fits schema e' ctx₁ := by
  obtain ⟨ha, hd, hn, hi, hroom⟩ := h
  simp only [Formula.depth, Formula.size, Expression.items, Expression.bytes, Formula.atoms,
    List.map_append, List.sum_append] at hd hn hi hroom
  have h₁ := hb.nodes
  have h₂ := hb.items
  have h₃ := hb.bytes
  rw [Expression.items] at h₂
  rw [Expression.bytes] at h₃
  refine ⟨fun q hq => ha q (List.mem_append_right _ hq), by omega, by omega, ?_, ?_⟩
  · rw [Expression.items]
    omega
  · rw [Expression.bytes]
    omega

theorem make_binary_complete {g : Formula Leaf} {r : ℕ} (c : Connective)
    (hf : Built schema f ctx l ctx₁ e) (hg : Built schema g ctx₁ r ctx₂ e')
    (hfits : Fits schema (.join c e e') ctx) :
    ∃ s, selector_make_binary ctx₂ (join_kind c) l r = some s := by
  have hl := hf.depth_of_grown hg.grown
  have hd := hfits.depth
  have hn := hfits.nodes
  have h₁ := hf.nodes
  have h₂ := hg.nodes
  simp only [Formula.depth, Formula.size] at hd hn
  unfold selector_make_binary
  rw [hl, hg.depth_of]
  rw [if_neg (by unfold max_depth at *; omega)]
  exact add_node_complete _ _ (by omega)

theorem make_not_complete (hf : Built schema f ctx l ctx₁ e) (hfits : Fits schema (.not e) ctx) :
    ∃ s, selector_make_not ctx₁ l = some s := by
  have hd := hfits.depth
  have hn := hfits.nodes
  have h₁ := hf.nodes
  simp only [Formula.depth, Formula.size] at hd hn
  unfold selector_make_not
  rw [hf.depth_of]
  rw [if_neg (by unfold max_depth at *; omega)]
  exact add_node_complete _ _ (by omega)

theorem tree_built (hm : Formula.Rel Leaf.Means t.formula e)
    (h : t.build schema ctx = some (i, ctx')) : Built schema t.formula ctx i ctx' e := by
  obtain ⟨e', he'⟩ := tree_sound (rel_strings hm) h
  have hu : ∀ a b c, Leaf.Means a b → Leaf.Means a c → b = c := fun _ _ _ => Leaf.Means.unique
  rwa [hm.unique hu he'.means]

theorem join_complete {c' : Category} {b : Tree c} {b' : Tree c'} (k : Connective)
    (hm : Formula.Rel Leaf.Means b.formula e) (hm' : Formula.Rel Leaf.Means b'.formula e')
    (hfits : Fits schema (.join k e e') ctx) (hb : ∃ r, b.build schema ctx = some r)
    (hb' : ∀ ctx₁, Fits schema e' ctx₁ → ∃ r, b'.build schema ctx₁ = some r) :
    ∃ l r ctx₁ ctx₂ s, b.build schema ctx = some (l, ctx₁) ∧
      b'.build schema ctx₁ = some (r, ctx₂) ∧
      selector_make_binary ctx₂ (join_kind k) l r = some s := by
  obtain ⟨⟨l, ctx₁⟩, hl⟩ := hb
  have hbuilt := tree_built hm hl
  obtain ⟨⟨r, ctx₂⟩, hr⟩ := hb' ctx₁ (hfits.right hbuilt)
  obtain ⟨s, hs⟩ := make_binary_complete k hbuilt (tree_built hm' hr) hfits
  exact ⟨l, r, ctx₁, ctx₂, s, hl, hr, hs⟩

theorem tree_complete (hm : Formula.Rel Leaf.Means t.formula e) (hfits : Fits schema e ctx) :
    ∃ r, t.build schema ctx = some r := by
  induction t generalizing e ctx with
  | or b b' ih ih' =>
    cases hm with
    | join k hm hm' =>
      obtain ⟨l, r, ctx₁, ctx₂, s, hl, hr, hs⟩ :=
        join_complete .or hm hm' hfits (ih hm hfits.left) fun _ hf => ih' hm' hf
      exact ⟨s, by simpa [Tree.build, hl, hr, join_kind] using hs⟩
  | or_and b ih => exact ih hm hfits
  | and b b' ih ih' =>
    cases hm with
    | join k hm hm' =>
      obtain ⟨l, r, ctx₁, ctx₂, s, hl, hr, hs⟩ :=
        join_complete .and hm hm' hfits (ih hm hfits.left) fun _ hf => ih' hm' hf
      exact ⟨s, by simpa [Tree.build, hl, hr, join_kind] using hs⟩
  | and_unary b ih => exact ih hm hfits
  | bang b ih =>
    cases hm with
    | @not _ e hm =>
      have hfits' : Fits schema e ctx := by
        obtain ⟨ha, hd, hn, hi, hb⟩ := hfits
        simp only [Formula.depth, Formula.size] at hd hn
        exact ⟨ha, by omega, by omega, hi, hb⟩
      obtain ⟨⟨l, ctx₁⟩, hl⟩ := ih hm hfits'
      obtain ⟨s, hs⟩ := make_not_complete (tree_built hm hl) hfits
      exact ⟨s, by simpa [Tree.build, hl] using hs⟩
  | paren b ih => exact ih hm hfits
  | predicate p =>
    cases hm with
    | @atom _ q hm =>
      have hn := hfits.nodes
      have hi := hfits.items
      have hb := hfits.bytes
      simp only [Expression.items, Expression.bytes, Formula.atoms, Formula.size, List.map_cons,
        List.map_nil, List.sum_cons, List.sum_nil] at hn hi hb
      exact leaf_complete hm (hfits.accepted q (by simp [Formula.atoms])) (by omega) (by omega)
        (by omega)

theorem leaf_strings_yield {v : Bytes} (h : v ∈ p.strings) : .string v ∈ p.yield := by
  cases p with
  | in_ f first rest =>
    rcases List.mem_cons.mp h with rfl | h
    · simp [Leaf.yield, items_yield]
    · simp only [Leaf.yield, items_yield, List.mem_append, List.mem_cons, List.mem_flatMap]
      exact .inl (.inr (.inr ⟨v, h, .inr (.inl rfl)⟩))
  | not_in f first rest =>
    rcases List.mem_cons.mp h with rfl | h
    · simp [Leaf.yield, items_yield]
    · simp only [Leaf.yield, items_yield, List.mem_append, List.mem_cons, List.mem_flatMap]
      exact .inl (.inr (.inr ⟨v, h, .inr (.inl rfl)⟩))
  | eq f w => simpa [Leaf.strings, Leaf.yield] using h
  | ne f w => simpa [Leaf.strings, Leaf.yield] using h
  | has f => simp [Leaf.strings] at h
  | capability w => simpa [Leaf.strings, Leaf.yield] using h

theorem leaf_yield_tree (h : p ∈ t.formula.atoms) : ∀ token ∈ p.yield, token ∈ t.yield := by
  intro token ht
  induction t with
  | or b b' ih ih' =>
    rcases List.mem_append.mp h with h | h
    · exact List.mem_append_left _ (ih h)
    · exact List.mem_append_right _ (List.mem_cons_of_mem _ (ih' h))
  | or_and b ih => exact ih h
  | and b b' ih ih' =>
    rcases List.mem_append.mp h with h | h
    · exact List.mem_append_left _ (ih h)
    · exact List.mem_append_right _ (List.mem_cons_of_mem _ (ih' h))
  | and_unary b ih => exact ih h
  | bang b ih => exact List.mem_cons_of_mem _ (ih h)
  | paren b ih => exact List.mem_append_left _ (List.mem_cons_of_mem _ (ih h))
  | predicate q =>
    rw [List.mem_singleton.mp h] at ht
    exact ht

structure Compiled (source : Bytes) (schema : Schema) (p : Program) (t : Tree .or_expr)
    (e : Expression) : Prop where
  schema_valid : selector_schema_valid schema = true
  valid : Utf8.Valid source
  tokens : selector_tokens source = some t.yield
  built : Built schema t.formula .empty p.root p.toCtx e

theorem compile_sound {source : Bytes} {p : Program}
    (h : salts_selector_compile_v1 source schema = some p) :
    ∃ t e, Compiled source schema p t e := by
  unfold salts_selector_compile_v1 at h
  split_ifs at h with harg hlen hutf8
  obtain ⟨tokens, htokens, h⟩ := Option.bind_eq_some_iff.mp h
  split_ifs at h with hcount
  obtain ⟨t, hparse, h⟩ := Option.bind_eq_some_iff.mp h
  split_ifs at h with hstack
  obtain ⟨⟨root, ctx⟩, hbuild, h⟩ := Option.bind_eq_some_iff.mp h
  dsimp only at h
  split_ifs at h with hroot
  cases h
  have hyield := selector_parse_sound hparse
  have hvalid := (utf8_of_validate (Bool.eq_true_of_not_eq_false hutf8)).1
  have hproper := selector_tokens_proper htokens hvalid
  have hliteral : t.Literal := by
    intro p hp v hv
    have hm := leaf_yield_tree hp _ (leaf_strings_yield hv)
    rw [hyield] at hm
    exact (hproper _ hm).2
  obtain ⟨e, he⟩ := tree_sound hliteral hbuild
  refine ⟨t, e, ?_, hvalid, by rw [htokens, hyield], he⟩
  simpa using (not_or.mp harg).2

end SaltsUtils.Selector
