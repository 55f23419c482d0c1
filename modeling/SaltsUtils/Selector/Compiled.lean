import SaltsUtils.Selector.Meaning
import SaltsUtils.Selector.Program

/-!
# Compiled programs and their tables
-/

set_option autoImplicit false

/-!
## What the tables of a program hold

A reference holds a string, a slice of the list table holds strings, and a node holds a
formula. The tables only grow, so what they hold stays.
-/

namespace SaltsUtils.Selector

open SaltsUtils Kleene

structure Holds (strings : Bytes) (ref : StringRef) (value : Bytes) : Prop where
  inside : ref.offset + ref.length ≤ strings.length
  bytes : string_of strings ref = value

def ListHolds (ctx : Ctx) (start count : ℕ) (values : List Bytes) : Prop :=
  start + count ≤ ctx.list_values.length ∧
    List.Forall₂ (Holds ctx.strings) ((ctx.list_values.drop start).take count) values

def Node.Holds (ctx : Ctx) (node : Node) : Predicate → Prop
  | .eq field value => node.kind = .eq ∧ Selector.Holds ctx.strings node.field field ∧
      Selector.Holds ctx.strings node.value value
  | .ne field value => node.kind = .ne ∧ Selector.Holds ctx.strings node.field field ∧
      Selector.Holds ctx.strings node.value value
  | .in_ field values => node.kind = .in_ ∧ Selector.Holds ctx.strings node.field field ∧
      ListHolds ctx node.list_start node.list_count values
  | .not_in field values => node.kind = .not_in ∧ Selector.Holds ctx.strings node.field field ∧
      ListHolds ctx node.list_start node.list_count values
  | .has field => node.kind = .has ∧ Selector.Holds ctx.strings node.field field
  | .capability name => node.kind = .capability ∧ Selector.Holds ctx.strings node.value name

def join_kind : Connective → NodeKind
  | .and => .and
  | .or => .or

def Denotes (ctx : Ctx) : Expression → ℕ → Prop
  | .atom q, i => ∃ node, ctx.nodes[i]? = some node ∧ node.Holds ctx q
  | .join c f g, i => ∃ node, ctx.nodes[i]? = some node ∧ node.kind = join_kind c ∧
      Denotes ctx f node.left ∧ Denotes ctx g node.right
  | .not f, i => ∃ node, ctx.nodes[i]? = some node ∧ node.kind = .not ∧ Denotes ctx f node.left

/-- The tables of the first context are the first parts of those of the second. -/
structure Grown (ctx ctx' : Ctx) : Prop where
  nodes : ctx.nodes <+: ctx'.nodes
  list_values : ctx.list_values <+: ctx'.list_values
  strings : ctx.strings <+: ctx'.strings

variable {b c : Ctx}

theorem Grown.trans {a : Ctx} (h : Grown a b) (h' : Grown b c) : Grown a c :=
  ⟨h.nodes.trans h'.nodes, h.list_values.trans h'.list_values, h.strings.trans h'.strings⟩

variable {ctx ctx' : Ctx}

theorem Grown.node (h : Grown ctx ctx') {i : ℕ} {node : Node} (hn : ctx.nodes[i]? = some node) :
    ctx'.nodes[i]? = some node := by
  obtain ⟨added, ha⟩ := h.nodes
  obtain ⟨hi, -⟩ := List.getElem?_eq_some_iff.mp hn
  rw [← ha, List.getElem?_append_left hi, hn]

theorem slice_append {α : Type} {l more : List α} {start count : ℕ} (h : start + count ≤ l.length) :
    ((l ++ more).drop start).take count = (l.drop start).take count := by
  rw [List.drop_append_of_le_length (by omega), List.take_append_of_le_length]
  rw [List.length_drop]
  omega

variable {ref : StringRef} {value : Bytes}

theorem Holds.grown {strings strings' : Bytes} (h : Holds strings ref value)
    (hs : strings <+: strings') : Holds strings' ref value := by
  obtain ⟨more, rfl⟩ := hs
  refine ⟨?_, ?_⟩
  · have := h.inside
    rw [List.length_append]
    omega
  · rw [string_of, slice_append h.inside]
    exact h.bytes

theorem Holds.length {strings : Bytes} (h : Holds strings ref value) :
    ref.length = value.length := by
  have := h.inside
  rw [← h.bytes, string_of, List.length_take, List.length_drop]
  omega

variable {values : List Bytes}

theorem ListHolds.grown {start count : ℕ} (h : ListHolds ctx start count values)
    (hg : Grown ctx ctx') : ListHolds ctx' start count values := by
  obtain ⟨more, hm⟩ := hg.list_values
  refine ⟨?_, ?_⟩
  · rw [← hm, List.length_append]
    exact Nat.le_add_right_of_le h.1
  · rw [← hm, slice_append h.1]
    exact h.2.imp fun _ _ hr => hr.grown hg.strings

theorem Node.Holds.grown {node : Node} {q : Predicate} (h : node.Holds ctx q) (hg : Grown ctx ctx') :
    node.Holds ctx' q := by
  cases q with
  | eq f v => exact ⟨h.1, h.2.1.grown hg.strings, h.2.2.grown hg.strings⟩
  | ne f v => exact ⟨h.1, h.2.1.grown hg.strings, h.2.2.grown hg.strings⟩
  | in_ f vs => exact ⟨h.1, h.2.1.grown hg.strings, h.2.2.grown hg⟩
  | not_in f vs => exact ⟨h.1, h.2.1.grown hg.strings, h.2.2.grown hg⟩
  | has f => exact ⟨h.1, h.2.grown hg.strings⟩
  | capability n => exact ⟨h.1, h.2.grown hg.strings⟩

theorem Denotes.grown {e : Expression} {i : ℕ} (h : Denotes ctx e i) (hg : Grown ctx ctx') :
    Denotes ctx' e i := by
  induction e generalizing i with
  | atom q =>
    obtain ⟨node, hn, hq⟩ := h
    exact ⟨node, hg.node hn, hq.grown hg⟩
  | join c f g ihf ihg =>
    obtain ⟨node, hn, hk, hf, hg'⟩ := h
    exact ⟨node, hg.node hn, hk, ihf hf, ihg hg'⟩
  | not f ih =>
    obtain ⟨node, hn, hk, hf⟩ := h
    exact ⟨node, hg.node hn, hk, ih hf⟩

def text_compare (x y : Bytes) : Ordering :=
  match memcmp (x.take (min x.length y.length)) (y.take (min x.length y.length)) with
  | .eq => if x.length < y.length then .lt else if x.length ≠ y.length then .gt else .eq
  | compared => compared

theorem ref_compare_eq {strings x y : Bytes} {a b : StringRef} (ha : Holds strings a x)
    (hb : Holds strings b y) : selector_ref_compare strings a b = text_compare x y := by
  have hx := ha.length
  have hy := hb.length
  rw [← ha.bytes, ← hb.bytes] at *
  have htake : ∀ (s : StringRef) (n : ℕ), n ≤ s.length →
      (string_of strings s).take n = (strings.drop s.offset).take n := by
    intro s n hn
    rw [string_of, List.take_take, Nat.min_eq_left hn]
  rw [text_compare, ← hx, ← hy, htake a _ (Nat.min_le_left a.length b.length),
    htake b _ (Nat.min_le_right a.length b.length)]
  rfl

theorem text_compare_cons (a b : ℕ) (x y : Bytes) :
    text_compare (a :: x) (b :: y) = if a = b then text_compare x y else compare a b := by
  have hm : min (a :: x).length (b :: y).length = min x.length y.length + 1 := by
    simp only [List.length_cons]
    omega
  unfold text_compare
  rw [hm, List.take_succ_cons, List.take_succ_cons, memcmp]
  by_cases hab : a = b
  · simp [hab]
  · have hne : compare a b ≠ .eq := fun h => hab (Nat.compare_eq_eq.mp h)
    simp only [if_neg hab]

theorem text_compare_gt (x y : Bytes) : text_compare x y = .gt ↔ y < x := by
  induction x generalizing y with
  | nil => cases y <;> simp [text_compare, memcmp]
  | cons a x ih =>
    cases y with
    | nil => simp [text_compare, memcmp]
    | cons b y =>
      rw [text_compare_cons, List.cons_lt_cons_iff]
      by_cases hab : a = b
      · simp [hab, ih]
      · simp [hab, Ne.symm hab, Nat.compare_eq_gt]

theorem text_compare_eq (x y : Bytes) : text_compare x y = .eq ↔ x = y := by
  induction x generalizing y with
  | nil => cases y <;> simp [text_compare, memcmp]
  | cons a x ih =>
    cases y with
    | nil => simp [text_compare, memcmp]
    | cons b y =>
      rw [text_compare_cons]
      by_cases hab : a = b
      · simp [hab, ih]
      · simp [hab]

variable {refs : List StringRef}

theorem holds_map {strings : Bytes} (h : List.Forall₂ (Holds strings) refs values) :
    refs.map (string_of strings) = values ∧
      ∀ ref ∈ refs, Holds strings ref (string_of strings ref) := by
  induction h with
  | nil => simp
  | cons hr _ ih =>
    refine ⟨by rw [List.map_cons, hr.bytes, ih.1], ?_⟩
    intro ref href
    rcases List.mem_cons.mp href with rfl | href
    · rw [hr.bytes]
      exact hr
    · exact ih.2 ref href

theorem holds_of_map {strings : Bytes} (h : ∀ ref ∈ refs, Holds strings ref (string_of strings ref)) :
    List.Forall₂ (Holds strings) refs (refs.map (string_of strings)) := by
  induction refs with
  | nil => exact .nil
  | cons ref refs ih =>
    exact .cons (h ref List.mem_cons_self) (ih fun r hr => h r (List.mem_cons_of_mem ref hr))

theorem sort_list_holds {strings : Bytes} (h : List.Forall₂ (Holds strings) refs values) :
    List.Forall₂ (Holds strings) (sort_list strings refs) (sorted values) := by
  obtain ⟨hmap, hall⟩ := holds_map h
  have hfold : sort_list strings refs = (refs.reverse.insertionSort
      fun a b => selector_ref_compare strings b a ≠ .gt).reverse := by
    rw [sort_list, ← List.foldr_reverse]
    rfl
  have hperm : (sort_list strings refs).Perm refs := by
    rw [hfold]
    exact (List.reverse_perm _).trans ((List.perm_insertionSort _ _).trans (List.reverse_perm _))
  have hsorted : (sort_list strings refs).map (string_of strings) = sorted values := by
    apply sorted_eq_of_perm
    · rw [← hmap]
      exact hperm.map _
    · have hm := List.map_insertionSort (r := fun a b => selector_ref_compare strings b a ≠ .gt)
        (s := fun x y : Bytes => y ≤ x) (string_of strings) refs.reverse (by
          intro a ha b hb
          rw [List.mem_reverse] at ha hb
          rw [ref_compare_eq (hall b hb) (hall a ha), Ne, text_compare_gt, not_lt])
      rw [hfold, List.map_reverse, hm, List.pairwise_reverse]
      exact List.pairwise_insertionSort _ _
  rw [← hsorted]
  exact holds_of_map fun ref href => hall ref (hperm.mem_iff.mp href)

theorem has_duplicate_iff {strings : Bytes} (h : List.Forall₂ (Holds strings) refs values)
    (hs : values.Pairwise (· ≤ ·)) : has_duplicate strings refs = false ↔ values.Nodup := by
  induction h with
  | nil => simp [has_duplicate]
  | @cons a x refs values ha h ih =>
    have ih := ih (List.pairwise_cons.mp hs).2
    cases h with
    | nil => simp [has_duplicate]
    | @cons b y refs values hb h =>
      have hxy : x ≤ y := (List.pairwise_cons.mp hs).1 y List.mem_cons_self
      have hle : ∀ z ∈ y :: values, y ≤ z := by
        intro z hz
        rcases List.mem_cons.mp hz with rfl | hz
        · exact le_refl _
        · exact (List.pairwise_cons.mp (List.pairwise_cons.mp hs).2).1 z hz
      have hmem : x ∈ y :: values ↔ x = y := by
        constructor
        · exact fun hx => le_antisymm hxy (hle x hx)
        · rintro rfl
          exact List.mem_cons_self
      have hcmp : (selector_ref_compare strings a b == .eq) = decide (x = y) := by
        rw [ref_compare_eq ha hb, Bool.eq_iff_iff]
        simp [text_compare_eq]
      rw [has_duplicate, Bool.or_eq_false_iff, ih, List.nodup_cons (a := x), hmem, hcmp]
      simp

/-!
## The compiled tables

Each action of the grammar is taken apart once: what it adds to the tables, and when it
has room.
-/

structure FieldOk (schema : Schema) (field : Bytes) : Prop where
  nonempty : field.length ≠ 0
  allowed : field_allowed schema field = true
  short : field.length ≤ max_string_bytes

def ValuesOk (values : List Bytes) : Prop :=
  (∀ v ∈ values, v.length ≤ max_string_bytes) ∧ values.Nodup ∧ values ≠ []

def Predicate.Accepted (schema : Schema) : Predicate → Prop
  | eq field value => FieldOk schema field ∧ value.length ≤ max_string_bytes
  | ne field value => FieldOk schema field ∧ value.length ≤ max_string_bytes
  | in_ field values => FieldOk schema field ∧ ValuesOk values
  | not_in field values => FieldOk schema field ∧ ValuesOk values
  | has field => FieldOk schema field
  | capability name => name.length ≤ max_string_bytes ∧ name.length ≠ 0

def Predicate.items : Predicate → ℕ
  | in_ _ values => values.length
  | not_in _ values => values.length
  | _ => 0

def Predicate.bytes : Predicate → ℕ
  | eq field value => field.length + value.length
  | ne field value => field.length + value.length
  | in_ field values => field.length + (values.map List.length).sum
  | not_in field values => field.length + (values.map List.length).sum
  | has field => field.length
  | capability name => name.length

def Expression.items (e : Expression) : ℕ := (e.atoms.map Predicate.items).sum

def Expression.bytes (e : Expression) : ℕ := (e.atoms.map Predicate.bytes).sum

def Leaf.strings : Leaf → List Bytes
  | eq _ v => [v]
  | ne _ v => [v]
  | in_ _ first rest => first :: rest
  | not_in _ first rest => first :: rest
  | has _ => []
  | capability v => [v]

structure Filled (ctx : Ctx) (items bytes : ℕ) (ctx' : Ctx) : Prop where
  nodes : ctx'.nodes = ctx.nodes
  predicates : ctx'.predicate_count = ctx.predicate_count
  list_values : ctx.list_values <+: ctx'.list_values
  strings : ctx.strings <+: ctx'.strings
  items_eq : ctx'.list_values.length = ctx.list_values.length + items
  bytes_eq : ctx'.strings.length = ctx.strings.length + bytes
  items_le : ctx.list_values.length ≤ max_list_items → ctx'.list_values.length ≤ max_list_items
  bytes_le : ctx.strings.length ≤ string_pool_bytes → ctx'.strings.length ≤ string_pool_bytes

variable {n n' : ℕ}

theorem Filled.trans {a : Ctx} {m m' : ℕ} (h : Filled a m n b) (h' : Filled b m' n' c) :
    Filled a (m + m') (n + n') c where
  nodes := h'.nodes.trans h.nodes
  predicates := h'.predicates.trans h.predicates
  list_values := h.list_values.trans h'.list_values
  strings := h.strings.trans h'.strings
  items_eq := by rw [h'.items_eq, h.items_eq, Nat.add_assoc]
  bytes_eq := by rw [h'.bytes_eq, h.bytes_eq, Nat.add_assoc]
  items_le := fun hle => h'.items_le (h.items_le hle)
  bytes_le := fun hle => h'.bytes_le (h.bytes_le hle)

theorem pool_append_sound (h : selector_pool_append ctx value = some (ref, ctx')) :
    ctx'.list_values = ctx.list_values ∧ value.length ≤ max_string_bytes ∧
      Holds ctx'.strings ref value ∧ Filled ctx 0 value.length ctx' := by
  unfold selector_pool_append at h
  split_ifs at h with hlong hroom
  cases h
  have hlen : value.length % 2 ^ 16 = value.length := by
    unfold max_string_bytes at hlong
    omega
  refine ⟨rfl, by omega, ⟨?_, ?_⟩, ⟨rfl, rfl, List.prefix_refl _, List.prefix_append _ _, rfl, ?_,
    id, ?_⟩⟩
  · have := Nat.mod_le ctx.strings.length (2 ^ 16)
    simp only [List.length_append, hlen]
    omega
  · simp only [string_of, hlen]
    by_cases hv : value.length = 0
    · rw [hv, List.take_zero, List.length_eq_zero_iff.mp hv]
    · have hoff : ctx.strings.length % 2 ^ 16 = ctx.strings.length := by
        unfold string_pool_bytes max_source_bytes at hroom
        omega
      rw [hoff, List.drop_left, List.take_length]
  · simp
  · simp only [List.length_append]
    omega

theorem pool_append_complete (ctx : Ctx) (hlong : value.length ≤ max_string_bytes)
    (hroom : ctx.strings.length + value.length ≤ string_pool_bytes) :
    ∃ r, selector_pool_append ctx value = some r := by
  unfold selector_pool_append
  rw [if_neg (by omega), if_neg (by omega)]
  exact ⟨_, rfl⟩

variable {schema : Schema}

theorem store_field_sound {field : Bytes}
    (h : selector_store_field schema ctx field = some (ref, ctx')) :
    ctx'.list_values = ctx.list_values ∧ FieldOk schema field ∧
      Holds ctx'.strings ref field ∧ Filled ctx 0 field.length ctx' := by
  unfold selector_store_field at h
  split_ifs at h with hempty hallowed
  obtain ⟨hl, hs, hh, hf⟩ := pool_append_sound h
  exact ⟨hl, ⟨hempty, hallowed, hs⟩, hh, hf⟩

theorem store_field_complete {field : Bytes} (ctx : Ctx) (hf : FieldOk schema field)
    (hroom : ctx.strings.length + field.length ≤ string_pool_bytes) :
    ∃ r, selector_store_field schema ctx field = some r := by
  unfold selector_store_field
  rw [if_neg hf.nonempty, if_pos hf.allowed]
  exact pool_append_complete ctx hf.short hroom

theorem store_string_sound' (ht : StringText value)
    (h : selector_store_string ctx value = some (ref, ctx')) :
    ∃ s, Spelled value s ∧ ctx'.list_values = ctx.list_values ∧ s.length ≤ max_string_bytes ∧
      Holds ctx'.strings ref s ∧ Filled ctx 0 s.length ctx' := by
  obtain ⟨s, hs, h⟩ := Option.bind_eq_some_iff.mp h
  exact ⟨s, decoded_string_sound ht hs, pool_append_sound h⟩

theorem store_string_complete' {s : Bytes} (ctx : Ctx) (hs : Spelled value s)
    (hlong : s.length ≤ max_string_bytes)
    (hroom : ctx.strings.length + s.length ≤ string_pool_bytes) :
    ∃ r, selector_store_string ctx value = some r := by
  rw [selector_store_string, decoded_string_complete hs hlong, Option.bind_some]
  exact pool_append_complete ctx hlong hroom

structure Listed (ctx : Ctx) (bytes : ℕ) (refs : List StringRef) (values : List Bytes)
    (ctx' : Ctx) : Prop where
  filled : Filled ctx values.length bytes ctx'
  table : ctx'.list_values = ctx.list_values ++ refs
  holds : List.Forall₂ (Holds ctx'.strings) refs values
  short : ∀ v ∈ values, v.length ≤ max_string_bytes

theorem Listed.trans {a : Ctx} {refs' : List StringRef} {values' : List Bytes}
    (h : Listed a n refs values b) (h' : Listed b n' refs' values' c) :
    Listed a (n + n') (refs ++ refs') (values ++ values') c where
  filled := by
    rw [List.length_append]
    exact h.filled.trans h'.filled
  table := by rw [h'.table, h.table, List.append_assoc]
  holds := List.rel_append (h.holds.imp fun _ _ hr => hr.grown h'.filled.strings) h'.holds
  short := by
    intro v hv
    rcases List.mem_append.mp hv with hv | hv
    · exact h.short v hv
    · exact h'.short v hv

theorem Listed.pooled {a : Ctx} (h : Listed a n refs values b) (h' : Filled b 0 n' c)
    (htable : c.list_values = b.list_values) : Listed a (n + n') refs values c where
  filled := h.filled.trans h'
  table := by rw [htable, h.table]
  holds := h.holds.imp fun _ _ hr => hr.grown h'.strings
  short := h.short

theorem add_value_sound {ctx₁ : Ctx} (ht : StringText value)
    (h : selector_list_add_value ctx value = some (ref, ctx₁)) :
    ctx.list_values.length < max_list_items ∧ ∃ s, Spelled value s ∧
      Listed ctx s.length [ref] [s] { ctx₁ with list_values := ctx₁.list_values ++ [ref] } := by
  unfold selector_list_add_value at h
  split_ifs at h with hroom
  obtain ⟨s, hs, hl, hlong, hh, hf⟩ := store_string_sound' ht h
  refine ⟨by omega, s, hs, ⟨⟨hf.nodes, hf.predicates, ?_, hf.strings, ?_, ?_, ?_, hf.bytes_le⟩, ?_,
    .cons hh .nil, by simpa using hlong⟩⟩
  · rw [hl]
    exact List.prefix_append _ _
  · simp [hl]
  · exact hf.bytes_eq
  · intro _
    simp only [hl, List.length_append, List.length_cons, List.length_nil]
    omega
  · simp [hl]

variable {list : ListSlice} {rest : List Bytes}

theorem append_items_sound {list' : ListSlice} (ht : ∀ v ∈ rest, StringText v)
    (hcount : list.list_count ≠ 0)
    (hlast : list.list_start + list.list_count = ctx.list_values.length)
    (h : rest.foldlM selector_list_append (list, ctx) = some (list', ctx')) :
    ∃ refs values, List.Forall₂ Spelled rest values ∧ Listed ctx (values.map List.length).sum refs
      values ctx' ∧
      list'.list_start = list.list_start ∧
      list'.list_count = list.list_count + values.length := by
  induction rest generalizing list ctx with
  | nil =>
    cases h
    refine ⟨[], [], .nil, ⟨⟨rfl, rfl, List.prefix_refl _, List.prefix_refl _, rfl, rfl, id, id⟩,
      by simp, .nil, by simp⟩, rfl, rfl⟩
  | cons v rest ih =>
    obtain ⟨⟨list₁, ctx₁⟩, h₁, h⟩ := Option.bind_eq_some_iff.mp h
    simp only [selector_list_append] at h₁
    rw [if_neg (by simp [hcount, hlast])] at h₁
    obtain ⟨⟨ref, ctx₂⟩, hadd, h₁⟩ := Option.bind_eq_some_iff.mp h₁
    cases h₁
    obtain ⟨-, s, hs, hl⟩ := add_value_sound (ht v List.mem_cons_self) hadd
    have hlen := hl.filled.items_eq
    simp only [List.length_append, List.length_cons, List.length_nil] at hlen
    obtain ⟨refs, values, hv, hl', hstart, hc⟩ :=
      ih (fun w hw => ht w (List.mem_cons_of_mem v hw)) (by simp)
        (by simp only [List.length_append, List.length_cons, List.length_nil]; omega) h
    refine ⟨ref :: refs, s :: values, .cons hs hv, hl.trans hl', hstart, ?_⟩
    dsimp only at hc
    rw [List.length_cons]
    omega

variable {first : Bytes}

theorem list_items_sound (ht : ∀ v ∈ first :: rest, StringText v)
    (h : list_items ctx first rest = some (list, ctx')) :
    ∃ refs values, List.Forall₂ Spelled (first :: rest) values ∧
      Listed ctx (values.map List.length).sum refs values ctx' ∧
      list.list_start = ctx.list_values.length ∧ list.list_count = values.length := by
  obtain ⟨⟨list₁, ctx₁⟩, h₁, h⟩ := Option.bind_eq_some_iff.mp h
  obtain ⟨⟨ref, ctx₂⟩, hadd, h₁⟩ := Option.bind_eq_some_iff.mp h₁
  cases h₁
  obtain ⟨hroom, s, hs, hl⟩ := add_value_sound (ht first List.mem_cons_self) hadd
  have hstart : ctx.list_values.length % 2 ^ 16 = ctx.list_values.length := by
    unfold max_list_items at hroom
    omega
  have hlen := hl.filled.items_eq
  simp only [List.length_append, List.length_cons, List.length_nil] at hlen
  obtain ⟨refs, values, hv, hl', hstart', hc⟩ :=
    append_items_sound (fun w hw => ht w (List.mem_cons_of_mem first hw)) (by simp)
      (by simp only [hstart, List.length_append, List.length_cons, List.length_nil]; omega) h
  refine ⟨ref :: refs, s :: values, .cons hs hv, hl.trans hl', ?_, ?_⟩
  · rw [hstart']
    exact hstart
  · dsimp only at hc
    rw [List.length_cons]
    omega

theorem add_value_complete {s : Bytes} (ctx : Ctx) (hs : Spelled value s)
    (hlong : s.length ≤ max_string_bytes) (hitems : ctx.list_values.length < max_list_items)
    (hroom : ctx.strings.length + s.length ≤ string_pool_bytes) :
    ∃ ref ctx₁, selector_list_add_value ctx value = some (ref, ctx₁) ∧
      Listed ctx s.length [ref] [s] { ctx₁ with list_values := ctx₁.list_values ++ [ref] } := by
  obtain ⟨⟨ref, ctx₁⟩, h⟩ := store_string_complete' ctx hs hlong hroom
  have hadd : selector_list_add_value ctx value = some (ref, ctx₁) := by
    rw [selector_list_add_value, if_neg (by omega), h]
  obtain ⟨-, s', hs', hl⟩ := add_value_sound hs.text hadd
  cases hs.unique hs'
  exact ⟨ref, ctx₁, hadd, hl⟩

theorem append_items_complete {rest values : List Bytes} {ctx : Ctx} {list : ListSlice}
    (h : List.Forall₂ Spelled rest values) (hlong : ∀ v ∈ values, v.length ≤ max_string_bytes)
    (hcount : list.list_count ≠ 0)
    (hlast : list.list_start + list.list_count = ctx.list_values.length)
    (hitems : ctx.list_values.length + values.length ≤ max_list_items)
    (hroom : ctx.strings.length + (values.map List.length).sum ≤ string_pool_bytes) :
    ∃ r, rest.foldlM selector_list_append (list, ctx) = some r := by
  induction h generalizing list ctx with
  | nil => exact ⟨_, rfl⟩
  | @cons v s rest values hs h ih =>
    simp only [List.length_cons, List.map_cons, List.sum_cons] at hitems hroom
    obtain ⟨ref, ctx₁, hadd, hl⟩ := add_value_complete ctx hs (hlong s List.mem_cons_self)
      (by omega) (by omega)
    have hlen := hl.filled.items_eq
    have hbytes := hl.filled.bytes_eq
    simp only [List.length_append, List.length_cons, List.length_nil] at hlen hbytes
    obtain ⟨r, hr⟩ := @ih { ctx₁ with list_values := ctx₁.list_values ++ [ref] }
      ⟨list.list_start, list.list_count + 1⟩ (fun w hw => hlong w (List.mem_cons_of_mem s hw))
      (by simp) (by simp only [List.length_append, List.length_cons, List.length_nil]; omega)
      (by simp only [List.length_append, List.length_cons, List.length_nil]; omega)
      (by simp only; omega)
    refine ⟨r, ?_⟩
    rw [List.foldlM_cons, selector_list_append, if_neg (by simp [hcount, hlast]), hadd]
    exact hr

theorem list_items_complete (ctx : Ctx) (h : List.Forall₂ Spelled (first :: rest) values)
    (hlong : ∀ v ∈ values, v.length ≤ max_string_bytes)
    (hitems : ctx.list_values.length + values.length ≤ max_list_items)
    (hroom : ctx.strings.length + (values.map List.length).sum ≤ string_pool_bytes) :
    ∃ r, list_items ctx first rest = some r := by
  cases h with
  | @cons _ s _ values hs h =>
    simp only [List.length_cons, List.map_cons, List.sum_cons] at hitems hroom
    obtain ⟨ref, ctx₁, hadd, hl⟩ := add_value_complete ctx hs (hlong s List.mem_cons_self)
      (by omega) (by omega)
    have hlen := hl.filled.items_eq
    have hbytes := hl.filled.bytes_eq
    simp only [List.length_append, List.length_cons, List.length_nil] at hlen hbytes
    have hstart : ctx.list_values.length % 2 ^ 16 = ctx.list_values.length := by
      unfold max_list_items at hitems
      omega
    obtain ⟨r, hr⟩ := @append_items_complete rest values
      { ctx₁ with list_values := ctx₁.list_values ++ [ref] }
      ⟨ctx.list_values.length % 2 ^ 16, 1⟩ h (fun w hw => hlong w (List.mem_cons_of_mem s hw))
      (by simp)
      (by simp only [hstart, List.length_append, List.length_cons, List.length_nil]; omega)
      (by simp only [List.length_append, List.length_cons, List.length_nil]; omega)
      (by simp only; omega)
    refine ⟨r, ?_⟩
    rw [list_items, selector_list_first, hadd]
    exact hr

/-- The tables are filled for a predicate and its node is ready. -/
structure Prepared (ctx : Ctx) (q : Predicate) (ctx' : Ctx) (node : Node) : Prop where
  filled : Filled ctx q.items q.bytes ctx'
  holds : node.Holds ctx' q.normal
  depth : node.depth = 1

theorem sort_unique_listed (h : Listed ctx n refs values ctx')
    (hstart : list.list_start = ctx.list_values.length) (hcount : list.list_count = values.length) :
    selector_sort_unique_list ctx' list =
        (if values.Nodup then
          some { ctx' with list_values := ctx.list_values ++ sort_list ctx'.strings refs }
        else none) ∧
      Listed ctx n (sort_list ctx'.strings refs) (sorted values)
        { ctx' with list_values := ctx.list_values ++ sort_list ctx'.strings refs } := by
  have hlen : refs.length = values.length := h.holds.length_eq
  have hslice : (ctx'.list_values.drop list.list_start).take list.list_count = refs := by
    rw [h.table, hstart, hcount, List.drop_left, ← hlen, List.take_length]
  have hsort := sort_list_holds h.holds
  have hvlen : (sorted values).length = values.length := (sorted_perm values).length_eq
  have hslen : (sort_list ctx'.strings refs).length = values.length := by
    rw [hsort.length_eq, hvlen]
  refine ⟨?_, ⟨⟨h.filled.nodes, h.filled.predicates, List.prefix_append _ _, h.filled.strings, ?_,
    h.filled.bytes_eq, ?_, h.filled.bytes_le⟩, rfl, hsort, ?_⟩⟩
  · have hdup := has_duplicate_iff hsort (sorted_sorted values)
    rw [(sorted_perm values).nodup_iff] at hdup
    have htake : ctx'.list_values.take list.list_start = ctx.list_values := by
      rw [h.table, hstart, List.take_left]
    have hdrop : ctx'.list_values.drop (list.list_start + list.list_count) = [] := by
      apply List.drop_eq_nil_of_le
      rw [h.table, List.length_append]
      omega
    unfold selector_sort_unique_list
    dsimp only
    rw [hslice, htake, hdrop, List.append_nil]
    by_cases hn : values.Nodup
    · simp [hn, hdup.mpr hn]
    · have : has_duplicate ctx'.strings (sort_list ctx'.strings refs) = true := by
        rw [← Bool.not_eq_false]
        exact fun hf => hn (hdup.mp hf)
      simp [hn, this]
  · simp [hslen, hvlen]
  · intro hle
    have := h.filled.items_le hle
    rw [h.filled.items_eq] at this
    simpa [hslen] using this
  · intro v hv
    exact h.short v ((sorted_perm values).mem_iff.mp hv)

theorem make_membership_eq {schema : Schema} {kind : NodeKind} {field : Bytes}
    {list : ListSlice} {ctx ctx₁ : Ctx} {n : ℕ} {refs : List StringRef} {values : List Bytes}
    (hl : Listed ctx n refs values ctx₁) (hstart : list.list_start = ctx.list_values.length)
    (hcount : list.list_count = values.length) {ref : StringRef} {ctx₂ : Ctx}
    (hfield : selector_store_field schema ctx₁ field = some (ref, ctx₂)) :
    ∃ ctx₃ node, Filled ctx values.length (field.length + n) ctx₃ ∧
      node.kind = kind ∧ node.depth = 1 ∧ Holds ctx₃.strings node.field field ∧
      ListHolds ctx₃ node.list_start node.list_count (sorted values) ∧
      selector_make_membership schema kind field (list, ctx₁) =
        if values.Nodup then
          selector_add_node { ctx₃ with predicate_count := ctx₃.predicate_count + 1 } node
        else none := by
  obtain ⟨htable, hok, hholds, hfill⟩ := store_field_sound hfield
  obtain ⟨hsort, hlisted⟩ := sort_unique_listed (hl.pooled hfill htable) hstart hcount
  refine ⟨{ ctx₂ with list_values := ctx.list_values ++ sort_list ctx₂.strings refs },
    ⟨kind, 1, 65535, 65535, ref, ⟨0, 0⟩, list.list_start, list.list_count⟩, ?_, rfl, rfl, hholds,
    ?_, ?_⟩
  · have hf := hlisted.filled
    rw [(sorted_perm values).length_eq, Nat.add_comm n] at hf
    exact hf
  · have hlen := hlisted.holds.length_eq
    have hvlen : (sorted values).length = values.length := (sorted_perm values).length_eq
    refine ⟨?_, ?_⟩
    · simp only [List.length_append, hlen, hvlen, hstart, hcount, le_refl]
    · simp only [hstart, hcount, List.drop_left]
      rw [List.take_of_length_le (by omega)]
      exact hlisted.holds
  · rw [selector_make_membership]
    simp only [hfield, Option.bind_eq_bind, Option.bind_some, hsort]
    by_cases hn : values.Nodup
    · simp [hn]
    · simp [hn]

theorem add_node_complete (ctx : Ctx) (node : Node) (h : ctx.nodes.length < max_nodes) :
    ∃ r, selector_add_node ctx node = some r := by
  rw [selector_add_node, if_neg (by omega)]
  exact ⟨_, rfl⟩

variable {f : Bytes}

theorem make_compare_sound {kind : NodeKind} {v : Bytes} {r : ℕ × Ctx} (ht : StringText v)
    (h : selector_make_compare schema ctx kind f v = some r) :
    ∃ s ctx₁ node, Spelled v s ∧ FieldOk schema f ∧ s.length ≤ max_string_bytes ∧
      Filled ctx 0 (f.length + s.length) ctx₁ ∧ node.kind = kind ∧ node.depth = 1 ∧
      Holds ctx₁.strings node.field f ∧ Holds ctx₁.strings node.value s ∧
      selector_add_node { ctx₁ with predicate_count := ctx₁.predicate_count + 1 } node = some r := by
  obtain ⟨⟨fref, ctx₁⟩, hfield, h⟩ := Option.bind_eq_some_iff.mp h
  obtain ⟨⟨vref, ctx₂⟩, hvalue, h⟩ := Option.bind_eq_some_iff.mp h
  obtain ⟨-, hok, hf, hfill⟩ := store_field_sound hfield
  obtain ⟨s, hs, -, hlong, hv, hfill'⟩ := store_string_sound' ht hvalue
  exact ⟨s, ctx₂, _, hs, hok, hlong, hfill.trans hfill', rfl, rfl, hf.grown hfill'.strings, hv, h⟩

theorem make_compare_complete (kind : NodeKind) {v s : Bytes} (hs : Spelled v s)
    (hok : FieldOk schema f) (hlong : s.length ≤ max_string_bytes)
    (hnodes : ctx.nodes.length < max_nodes)
    (hroom : ctx.strings.length + (f.length + s.length) ≤ string_pool_bytes) :
    ∃ r, selector_make_compare schema ctx kind f v = some r := by
  obtain ⟨⟨fref, ctx₁⟩, hfield⟩ := store_field_complete ctx hok (by omega)
  have hfill := (store_field_sound hfield).2.2.2
  have hbytes := hfill.bytes_eq
  obtain ⟨⟨vref, ctx₂⟩, hvalue⟩ := store_string_complete' ctx₁ hs hlong (by omega)
  obtain ⟨s', -, -, -, -, hfill'⟩ := store_string_sound' hs.text hvalue
  rw [selector_make_compare]
  simp only [hfield, hvalue, Option.bind_eq_bind, Option.bind_some]
  apply add_node_complete
  simpa [hfill'.nodes, hfill.nodes] using hnodes

theorem membership_sound {kind : NodeKind} {r : ℕ × Ctx} (ht : ∀ v ∈ first :: rest, StringText v)
    (h : (list_items ctx first rest).bind (selector_make_membership schema kind f) = some r) :
    ∃ values ctx₁ node, List.Forall₂ Spelled (first :: rest) values ∧ FieldOk schema f ∧
      ValuesOk values ∧
      Filled ctx values.length (f.length + (values.map List.length).sum) ctx₁ ∧
      node.kind = kind ∧ node.depth = 1 ∧ Holds ctx₁.strings node.field f ∧
      ListHolds ctx₁ node.list_start node.list_count (sorted values) ∧
      selector_add_node { ctx₁ with predicate_count := ctx₁.predicate_count + 1 } node = some r := by
  obtain ⟨⟨list, ctx₁⟩, hitems, h⟩ := Option.bind_eq_some_iff.mp h
  obtain ⟨refs, values, hv, hl, hstart, hcount⟩ := list_items_sound ht hitems
  obtain ⟨⟨ref, ctx₂⟩, hfield, -⟩ := Option.bind_eq_some_iff.mp h
  obtain ⟨ctx₃, node, hfill, hkind, hdepth, hf, hlist, he⟩ :=
    @make_membership_eq schema kind f list ctx ctx₁ _ refs values hl hstart hcount ref ctx₂ hfield
  rw [he] at h
  split_ifs at h with hn
  have hne : values ≠ [] := by
    rintro rfl
    cases hv
  exact ⟨values, ctx₃, node, hv, (store_field_sound hfield).2.1, ⟨hl.short, hn, hne⟩, hfill, hkind,
    hdepth, hf, hlist, h⟩

theorem spelled_list_text {vs ss : List Bytes} (h : List.Forall₂ Spelled vs ss) :
    ∀ v ∈ vs, StringText v := by
  induction h with
  | nil => simp
  | cons hs _ ih => exact List.forall_mem_cons.mpr ⟨hs.text, ih⟩

theorem membership_complete (kind : NodeKind) (hv : List.Forall₂ Spelled (first :: rest) values)
    (hok : FieldOk schema f) (hvalues : ValuesOk values) (hnodes : ctx.nodes.length < max_nodes)
    (hitems : ctx.list_values.length + values.length ≤ max_list_items)
    (hroom : ctx.strings.length + (f.length + (values.map List.length).sum) ≤ string_pool_bytes) :
    ∃ r, (list_items ctx first rest).bind (selector_make_membership schema kind f) = some r := by
  obtain ⟨⟨list, ctx₁⟩, hli⟩ := list_items_complete ctx hv hvalues.1 hitems (by omega)
  obtain ⟨refs, values', hv', hl, hstart, hcount⟩ := list_items_sound (spelled_list_text hv) hli
  cases spelled_list_unique hv hv'
  have hbytes := hl.filled.bytes_eq
  obtain ⟨⟨ref, ctx₂⟩, hfield⟩ := store_field_complete ctx₁ hok (by omega)
  obtain ⟨ctx₃, node, hfill, -, -, -, -, he⟩ :=
    @make_membership_eq schema kind f list ctx ctx₁ _ refs values hl hstart hcount ref ctx₂ hfield
  rw [hli, Option.bind_some, he, if_pos hvalues.2.1]
  apply add_node_complete
  simpa [hfill.nodes] using hnodes

theorem leaf_sound {p : Leaf} {r : ℕ × Ctx} (ht : ∀ v ∈ p.strings, StringText v)
    (h : p.build schema ctx = some r) :
    ∃ q ctx₁ node, p.Means q ∧ q.Accepted schema ∧ Prepared ctx q ctx₁ node ∧
      selector_add_node { ctx₁ with predicate_count := ctx₁.predicate_count + 1 } node = some r := by
  cases p with
  | eq f v =>
    obtain ⟨s, ctx₁, node, hs, hok, hlong, hfill, hk, hd, hf, hv, h⟩ :=
      make_compare_sound (ht v (by simp [Leaf.strings])) h
    exact ⟨.eq f s, ctx₁, node, .eq hs, ⟨hok, hlong⟩, ⟨hfill, ⟨hk, hf, hv⟩, hd⟩, h⟩
  | ne f v =>
    obtain ⟨s, ctx₁, node, hs, hok, hlong, hfill, hk, hd, hf, hv, h⟩ :=
      make_compare_sound (ht v (by simp [Leaf.strings])) h
    exact ⟨.ne f s, ctx₁, node, .ne hs, ⟨hok, hlong⟩, ⟨hfill, ⟨hk, hf, hv⟩, hd⟩, h⟩
  | in_ f first rest =>
    obtain ⟨values, ctx₁, node, hv, hok, hvalues, hfill, hk, hd, hf, hl, h⟩ := membership_sound ht h
    exact ⟨.in_ f values, ctx₁, node, .in_ hv, ⟨hok, hvalues⟩, ⟨hfill, ⟨hk, hf, hl⟩, hd⟩, h⟩
  | not_in f first rest =>
    obtain ⟨values, ctx₁, node, hv, hok, hvalues, hfill, hk, hd, hf, hl, h⟩ := membership_sound ht h
    exact ⟨.not_in f values, ctx₁, node, .not_in hv, ⟨hok, hvalues⟩, ⟨hfill, ⟨hk, hf, hl⟩, hd⟩, h⟩
  | has f =>
    obtain ⟨⟨fref, ctx₁⟩, hfield, h⟩ := Option.bind_eq_some_iff.mp h
    obtain ⟨-, hok, hf, hfill⟩ := store_field_sound hfield
    exact ⟨.has f, ctx₁, _, .has, hok, ⟨hfill, ⟨rfl, hf⟩, rfl⟩, h⟩
  | capability v =>
    obtain ⟨⟨vref, ctx₁⟩, hvalue, h⟩ := Option.bind_eq_some_iff.mp h
    obtain ⟨s, hs, -, hlong, hv, hfill⟩ := store_string_sound' (ht v (by simp [Leaf.strings])) hvalue
    dsimp only at h
    split_ifs at h with hempty
    rw [hv.length] at hempty
    exact ⟨.capability s, ctx₁, _, .capability hs, ⟨hlong, hempty⟩, ⟨hfill, ⟨rfl, hv⟩, rfl⟩, h⟩

theorem leaf_complete {p : Leaf} {q : Predicate} (hm : p.Means q) (ha : q.Accepted schema)
    (hnodes : ctx.nodes.length < max_nodes)
    (hitems : ctx.list_values.length + q.items ≤ max_list_items)
    (hroom : ctx.strings.length + q.bytes ≤ string_pool_bytes) :
    ∃ r, p.build schema ctx = some r := by
  cases hm with
  | eq hs => exact make_compare_complete .eq hs ha.1 ha.2 hnodes hroom
  | ne hs => exact make_compare_complete .ne hs ha.1 ha.2 hnodes hroom
  | in_ hv => exact membership_complete .in_ hv ha.1 ha.2 hnodes hitems hroom
  | not_in hv => exact membership_complete .not_in hv ha.1 ha.2 hnodes hitems hroom
  | @has f =>
    obtain ⟨⟨ref, ctx₁⟩, hfield⟩ := store_field_complete ctx ha hroom
    have hfill := (store_field_sound hfield).2.2.2
    rw [Leaf.build, selector_make_has]
    simp only [hfield, Option.bind_eq_bind, Option.bind_some]
    apply add_node_complete
    simpa [hfill.nodes] using hnodes
  | @capability v s hs =>
    obtain ⟨⟨ref, ctx₁⟩, hvalue⟩ := store_string_complete' ctx hs ha.1 hroom
    obtain ⟨s', hs', -, -, hv, hfill⟩ := store_string_sound' hs.text hvalue
    cases hs.unique hs'
    rw [Leaf.build, selector_make_capability]
    simp only [hvalue, Option.bind_eq_bind, Option.bind_some, hv.length, if_neg ha.2]
    apply add_node_complete
    simpa [hfill.nodes] using hnodes

end SaltsUtils.Selector
