import Mathlib.Data.List.TakeWhile
import SaltsUtils.Toml.Building

/-!
# Where assignments land

The object of a key/value statement is found behind the keys that the parser recorded,
from the table of the header.
-/

set_option autoImplicit false

namespace SaltsUtils.Toml

open Owners Heap

/-- What the statements that follow are under. -/
inductive Header where
  | root
  | table (P : Path)
  | array (P : Path)

namespace Header

def path : Header → List Token
  | root => []
  | table P => P.keys
  | array P => P.keys

/-- The way to the table of a header, by some of the keys of its path. -/
def steps (keys : Path → List Token) (i : ℕ) : Header → List Step
  | root => []
  | table P => (keys P).map step
  | array P => (keys P).map step ++ [.index i]

/-- A table stands where a header says; one of an array is an item of it. -/
def At (H : Header) (h : Heap) (keys : Path → List Token) (t : ℕ) : Prop :=
  ∃ i, follow h.edge (.table Toml.root) (H.steps keys i) = some (.table t)

end Header

def Statement.header (H : Header) : Statement → Header
  | table_def P => .table P
  | array_def P => .array P
  | key_val _ _ => H
  | newline => H

def Document.header (doc : Document) : Header := doc.foldl Statement.header .root

/-- A key/value statement of a document, with the state that it meets and the object
that its value is stored as. -/
structure Stores (doc before : Document) (P : Path) (V : Value) (ctx : Ctx) (o : Obj) : Prop where
  split : ∃ after, doc = before ++ .key_val P V :: after
  reached : statements start before = some ctx
  stored : ∃ h v, any_value ctx.heap V = some (h, v) ∧ o = v.stored h

structure Lands (doc : Document) (final : Heap) : Prop where
  header : ∀ {before : Document} {P : Path} {V : Value} {ctx : Ctx} {o : Obj},
    Stores doc before P V ctx o → before.header.At final Path.keys ctx.current_table
  found : ∀ {before : Document} {P : Path} {V : Value} {ctx : Ctx} {o : Obj},
    Stores doc before P V ctx o →
      follow final.edge (.table ctx.current_table) (P.keys.map step) = some o
  text : ∀ {before : Document} {P : Path} {T : SimpleValue} {ctx : Ctx} {o : Obj},
    Stores doc before P (.simple T) ctx o →
      ∃ p, o = .keyval p ∧ final.keyvals[p]? = some T.tok.value
  alone : ∀ {before before' : Document} {P P' : Path} {V V' : Value} {ctx ctx' : Ctx} {o o' : Obj},
    Stores doc before P V ctx o → Stores doc before' P' V' ctx' o' → before' ≠ before →
      follow final.edge (.table ctx.current_table) (P.keys.map step) ≠ some o'
  distinct : ∀ tbl ∈ final.tables, tbl.keys.Nodup

/-- The path of every key/value statement has ten keys at most, and so has the path of
its header. -/
def Short (doc : Document) : Prop :=
  ∀ {before after : Document} {P : Path} {V : Value}, doc = before ++ .key_val P V :: after →
    P.keys.length ≤ 10 ∧ before.header.path.length ≤ 10

theorem record_eq_take (P : Path) : P.record = P.keys.take 10 := by
  induction P with
  | part K => rfl
  | dot P K ih =>
    rw [Path.record, Path.keys, ih]
    by_cases hl : P.keys.length < 10
    · rw [if_pos (by rw [List.length_take]; omega), List.take_of_length_le hl.le,
        List.take_of_length_le (by simp; omega)]
    · rw [if_neg (by rw [List.length_take]; omega), List.take_append_of_le_length (by omega)]

structure Created (h : Heap) (parent : ℕ) (key : Token) (array : Bool) (h' : Heap) (t : ℕ) :
    Prop where
  sound : h'.Sound
  grown : Grown h h'
  has : h'.Has (.table t)
  found : ∃ i, follow h'.edge (.table parent)
    (if array then [step key, .index i] else [step key]) = some (.table t)

variable {h h' : Heap}

theorem append_table_created {parent a : ℕ} {key : Token} (hs : h'.Sound) (hg : Grown h h')
    (he : h'.edge (.table parent) (step key) = some (.array a)) :
    Created h parent key true (append_table h' a).1 (append_table h' a).2 := by
  have hn := hs.new_table false false
  have hk := kept_new_table (h := h') false false
  have hl : (h'.new_table false false).Loose (.table h'.tables.length) :=
    Loose.of_new hs (edge_new_table _ _) (Nat.lt_irrefl _) (by simp [Has, new_table])
  have ha : (h'.new_table false false).Has (.array a) := hk.has (hs.closed he)
  have hi : (Item.table h'.tables.length).obj? = some (.table h'.tables.length) := rfl
  have hg' := grown_append_item ha hi
  refine ⟨hn.append_item ha hi hl, hg.trans (hk.toGrown.trans hg'), hg'.has hl.has,
    (h'.new_table false false).next_index a, ?_⟩
  have h1 := hg'.edges (hk.edges he)
  have h2 := edge_append_item ha hi
  rw [if_pos rfl, append_table, follow, h1, Option.bind_some, follow, h2, attach_self]
  rfl

theorem create_table_created {parent t : ℕ} {key : Token} {array : Bool} (hs : h.Sound)
    (hp : h.Has (.table parent)) (hc : toml_helper_create_table h parent key array = some (h', t)) :
    Created h parent key array h' t := by
  cases array with
  | true =>
    rw [toml_helper_create_table, if_pos rfl] at hc
    split at hc
    · next a ha =>
      obtain rfl := congrArg Prod.fst (Option.some.inj hc)
      obtain rfl := congrArg Prod.snd (Option.some.inj hc)
      exact append_table_created hs Grown.refl ha
    · cases hc
    · next hfree =>
      have hl := linked_new_array hs hp hfree
      obtain rfl := congrArg Prod.fst (Option.some.inj hc)
      obtain rfl := congrArg Prod.snd (Option.some.inj hc)
      refine append_table_created hl.sound hl.kept.toGrown ?_
      rw [hl.edge]
      exact attach_self
  | false =>
    rw [toml_helper_create_table, if_neg Bool.false_ne_true] at hc
    split at hc
    · next t' ht =>
      split at hc
      · cases hc
        have hk := kept_set_explicit (h := h) t
        have he : h.edge (.table parent) (step key) = some (.table t) := ht
        refine ⟨hs.set_explicit t, hk.toGrown, hk.has (hs.closed he), 0, ?_⟩
        rw [if_neg Bool.false_ne_true, follow, hk.edges he]
        rfl
      · cases hc
    · cases hc
    · next hfree =>
      have hl := linked_new_table hs false false hp hfree
      cases hc
      refine ⟨hl.sound, hl.kept.toGrown, hl.has, 0, ?_⟩
      rw [if_neg Bool.false_ne_true, follow, hl.edge, step, attach_self]
      rfl

/-- The current table is that of the header, by the keys that were recorded. -/
structure Ready (ctx : Ctx) (H : Header) : Prop where
  sound : ctx.heap.Sound
  has : ctx.heap.Has (.table ctx.current_table)
  placed : H.At ctx.heap Path.record ctx.current_table

theorem start_ready : Ready start .root where
  sound := by
    have he : ∀ n s, start.heap.edge n s = none := by
      intro n s
      cases n with
      | keyval p => rfl
      | array a => cases s <;> rfl
      | table t =>
        cases s with
        | index i => rfl
        | key key => cases t <;> rfl
    refine ⟨fun h _ => ?_, fun h => ?_, fun n s h => ?_, Nat.zero_lt_one, fun tbl htbl => ?_⟩
    · rw [he] at h
      cases h
    · rw [he] at h
      cases h
    · rw [he] at h
      cases h
    · rw [List.mem_singleton.mp htbl]
      exact List.nodup_nil
  has := Nat.zero_lt_one
  placed := ⟨0, rfl⟩

variable {ctx ctx' : Ctx} {H : Header} {P : Path}

theorem table_def_ready {array : Bool} (hr : Ready ctx H) (hd : table_def ctx P array = some ctx') :
    Ready ctx' (if array then .array P else .table P) ∧ Grown ctx.heap ctx'.heap := by
  obtain ⟨⟨h₁, parent⟩, hw, hd⟩ := Option.bind_eq_some_iff.mp hd
  obtain ⟨⟨h₂, t⟩, hc, hd⟩ := Option.bind_eq_some_iff.mp hd
  obtain rfl := Option.some.inj hd
  have w := walk_path_walked hr.sound hr.sound.has_root hw
  have c := create_table_created w.sound w.has hc
  obtain ⟨i, hi⟩ := c.found
  refine ⟨⟨c.sound, c.has, i, ?_⟩, w.kept.toGrown.trans c.grown⟩
  have hf := Grows.follow c.grown.edges w.found
  cases array with
  | true =>
    change follow h₂.edge _ (P.record.map step ++ [.index i]) = _
    rw [path_record, List.map_append, List.append_assoc, follow_append, hf]
    exact hi
  | false =>
    change follow h₂.edge _ (P.record.map step) = _
    rw [path_record, List.map_append, follow_append, hf]
    exact hi

variable {V : Value}

theorem key_val_added (hr : Ready ctx H) (hk : key_val_stmt ctx P V = some ctx') :
    ∃ h v, any_value ctx.heap V = some (h, v) ∧ Built ctx.heap v h ∧
      toml_helper_add_any h ctx.current_table P v = some ctx'.heap ∧
      Added h ctx.current_table P (v.stored h) ctx'.heap ∧
      ctx'.current_table = ctx.current_table := by
  obtain ⟨⟨h, v⟩, hv, hk⟩ := Option.bind_eq_some_iff.mp hk
  obtain ⟨h', ha, hk⟩ := Option.bind_eq_some_iff.mp hk
  obtain rfl := Option.some.inj hk
  have hb := any_value_built hr.sound V hv
  exact ⟨h, v, hv, hb, ha, add_any_added hb.sound (hb.kept.has hr.has) hb.loose ha, rfl⟩

theorem Header.At.grown {keys : Path → List Token} {t : ℕ} (ha : H.At h keys t) (hg : Grown h h') :
    H.At h' keys t := by
  obtain ⟨i, hi⟩ := ha
  exact ⟨i, Grows.follow hg.edges hi⟩

theorem statement_ready {S : Statement} (hr : Ready ctx H) (hs : statement ctx S = some ctx') :
    Ready ctx' (S.header H) ∧ Grown ctx.heap ctx'.heap := by
  cases S with
  | table_def P => exact table_def_ready hr hs
  | array_def P => exact table_def_ready hr hs
  | key_val P V =>
    obtain ⟨h, v, -, hb, -, ha, hc⟩ := key_val_added hr hs
    have hg := hb.kept.toGrown.trans ha.grown
    exact ⟨⟨ha.sound, hc ▸ hg.has hr.has, hc ▸ hr.placed.grown hg⟩, hg⟩
  | newline =>
    cases hs
    exact ⟨hr, Grown.refl⟩

variable {doc : Document}

theorem statements_ready (hr : Ready ctx H) (hs : statements ctx doc = some ctx') :
    Ready ctx' (doc.foldl Statement.header H) ∧ Grown ctx.heap ctx'.heap := by
  induction doc generalizing ctx H with
  | nil =>
    cases hs
    exact ⟨hr, Grown.refl⟩
  | cons S doc ih =>
    obtain ⟨ctx₁, h₁, hs⟩ := Option.bind_eq_some_iff.mp hs
    obtain ⟨hr₁, hg₁⟩ := statement_ready hr h₁
    obtain ⟨hr', hg'⟩ := ih hr₁ hs
    exact ⟨hr', hg₁.trans hg'⟩

structure Around (doc before : Document) (P : Path) (V : Value) (ctx : Ctx) (o : Obj)
    (final : Ctx) : Prop where
  ready : Ready ctx before.header
  new : ¬ ctx.heap.Has o
  added : ∃ ctx', statement ctx (.key_val P V) = some ctx' ∧ ctx'.heap.Has o ∧
    Grown ctx'.heap final.heap
  found : follow final.heap.edge (.table ctx.current_table) (P.record.map step) = some o
  header : before.header.At final.heap Path.record ctx.current_table
  text : ∀ T, V = .simple T →
    ∃ p, o = .keyval p ∧ final.heap.keyvals[p]? = some (cstring T.tok.value)

variable {before : Document} {final : Ctx} {o : Obj}

theorem stores_around (hrun : statements start doc = some final) (hs : Stores doc before P V ctx o) :
    Around doc before P V ctx o final := by
  obtain ⟨after, rfl⟩ := hs.split
  obtain ⟨h, v, hv, rfl⟩ := hs.stored
  rw [statements, List.foldlM_append] at hrun
  obtain ⟨ctx₁, h₁, hrun⟩ := Option.bind_eq_some_iff.mp hrun
  obtain rfl : ctx = ctx₁ := Option.some.inj (hs.reached.symm.trans h₁)
  obtain ⟨ctx₂, h₂, hrun⟩ := Option.bind_eq_some_iff.mp hrun
  have hr := (statements_ready start_ready hs.reached).1
  obtain ⟨h', v', hv', hb, hadd, ha, hc⟩ := key_val_added hr h₂
  cases hv.symm.trans hv'
  have hg₂ := (statement_ready hr h₂).2
  have hg := (statements_ready (statement_ready hr h₂).1 hrun).2
  refine ⟨hr, hb.new, ⟨ctx₂, h₂, ha.has, hg⟩, Grows.follow hg.edges ha.found,
    hr.placed.grown (hg₂.trans hg), ?_⟩
  rintro T rfl
  cases hv
  refine ⟨ctx.heap.keyvals.length, rfl, ?_⟩
  have ht := add_any_text hr.sound hr.has hadd
  obtain ⟨rest, he⟩ := hg.texts
  rw [← he, List.getElem?_append_left (List.getElem?_eq_some_iff.mp ht).1]
  exact ht

theorem stores_earlier {before' : Document} {P' : Path} {V' : Value} {o' : Obj}
    (hrun : statements start doc = some final) (hs : Stores doc before P V ctx o)
    (hs' : Stores doc before' P' V' ctx' o') (hlt : before.length < before'.length) : o ≠ o' := by
  have ha := stores_around hrun hs
  have ha' := stores_around hrun hs'
  obtain ⟨after, he⟩ := hs.split
  obtain ⟨after', he'⟩ := hs'.split
  obtain ⟨mid, rfl⟩ : ∃ mid, before' = before ++ .key_val P V :: mid := by
    rcases List.append_eq_append_iff.mp (he.symm.trans he') with ⟨mid, rfl, hm⟩ | ⟨mid, rfl, -⟩
    · cases mid with
      | nil =>
        rw [List.append_nil] at hlt
        omega
      | cons S mid =>
        obtain ⟨rfl, -⟩ := List.cons.inj hm
        exact ⟨mid, rfl⟩
    · rw [List.length_append] at hlt
      omega
  have hreach := hs'.reached
  rw [statements, List.foldlM_append] at hreach
  obtain ⟨ctx₁, h₁, hreach⟩ := Option.bind_eq_some_iff.mp hreach
  obtain rfl : ctx = ctx₁ := Option.some.inj (hs.reached.symm.trans h₁)
  obtain ⟨ctx₂, h₂, hreach⟩ := Option.bind_eq_some_iff.mp hreach
  obtain ⟨ctx₃, h₃, hhas, -⟩ := ha.added
  obtain rfl : ctx₃ = ctx₂ := Option.some.inj (h₃.symm.trans h₂)
  have hg := (statements_ready (statement_ready ha.ready h₂).1 hreach).2
  exact fun heq => ha'.new (heq ▸ hg.has hhas)

theorem stores_ne {before' : Document} {P' : Path} {V' : Value} {o' : Obj}
    (hrun : statements start doc = some final) (hs : Stores doc before P V ctx o)
    (hs' : Stores doc before' P' V' ctx' o') (hne : before' ≠ before) : o ≠ o' := by
  rcases Nat.lt_trichotomy before.length before'.length with hlt | heq | hlt
  · exact stores_earlier hrun hs hs' hlt
  · obtain ⟨after, he⟩ := hs.split
    obtain ⟨after', he'⟩ := hs'.split
    exact absurd (List.append_inj_left (he.symm.trans he') heq).symm hne
  · exact (stores_earlier hrun hs' hs hlt).symm

variable {toml : Bytes}

theorem parsed_text {after : Document} {T : SimpleValue} (h : Parses toml doc ctx)
    (hd : doc = before ++ .key_val P (.simple T) :: after) : cstring T.tok.value = T.tok.value := by
  have hmem : T.tok ∈ doc.yield := by
    rw [hd, Document.yield, List.flatMap_append, List.flatMap_cons]
    simp [Statement.yield, Value.yield]
  rw [cstring, List.takeWhile_eq_self_iff]
  intro ch hch
  have hm : ch ∈ toml.takeWhile (· != 0) := tokens_mem h.tokens T.tok hmem ch hch
  exact List.mem_takeWhile_imp (p := (· != 0)) hm

/-- A way by all keys is as much longer than one by the recorded keys as the path of
the header is beyond ten. -/
theorem steps_length (H : Header) (i i' : ℕ) :
    (H.steps Path.keys i).length + min 10 H.path.length =
      (H.steps Path.record i').length + H.path.length := by
  cases H with
  | root => rfl
  | table P =>
    simp only [Header.steps, Header.path, record_eq_take, List.length_map, List.length_take]
    omega
  | array P =>
    simp only [Header.steps, Header.path, record_eq_take, List.length_map, List.length_take,
      List.length_append, List.length_singleton]
    omega

theorem steps_short (hs : H.path.length ≤ 10) (i : ℕ) :
    H.steps Path.keys i = H.steps Path.record i := by
  cases H with
  | root => rfl
  | table P =>
    rw [Header.path] at hs
    rw [Header.steps, Header.steps, record_eq_take, List.take_of_length_le hs]
  | array P =>
    rw [Header.path] at hs
    rw [Header.steps, Header.steps, record_eq_take, List.take_of_length_le hs]

/-- Two ways from the root to one object are one way, so a key that was not recorded
leads elsewhere. -/
theorem short_of_lands (h : Parses toml doc ctx) (hl : Lands doc ctx.heap) : Short doc := by
  intro before after P V hd
  have hrun := h.run
  rw [hd, statements, List.foldlM_append] at hrun
  obtain ⟨ctx₁, h₁, hrun⟩ := Option.bind_eq_some_iff.mp hrun
  obtain ⟨ctx₂, h₂, hrun⟩ := Option.bind_eq_some_iff.mp hrun
  obtain ⟨h', v, hv, -⟩ := key_val_added (statements_ready start_ready h₁).1 h₂
  have hs : Stores doc before P V ctx₁ (v.stored h') := ⟨⟨after, hd⟩, h₁, h', v, hv, rfl⟩
  have ha := stores_around h.run hs
  have hsound := (statements_ready start_ready h.run).1.sound
  obtain ⟨i, hi⟩ := hl.header hs
  obtain ⟨i', hi'⟩ := ha.header
  have hkeys : follow ctx.heap.edge (.table root) (before.header.steps Path.keys i ++ P.keys.map step) =
      some (v.stored h') := by
    rw [follow_append, hi]
    exact hl.found hs
  have hrecord : follow ctx.heap.edge (.table root)
      (before.header.steps Path.record i' ++ P.record.map step) = some (v.stored h') := by
    rw [follow_append, hi']
    exact ha.found
  have hall := congrArg List.length
    (follow_unique hsound.exclusive hsound.root_free hkeys hrecord)
  have := steps_length before.header i i'
  simp only [record_eq_take, List.length_append, List.length_map, List.length_take] at hall
  constructor <;> omega

theorem lands_of_short (h : Parses toml doc ctx) (hshort : Short doc) : Lands doc ctx.heap := by
  have hfound : ∀ {before : Document} {P : Path} {V : Value} {ctx₁ : Ctx} {o : Obj},
      Stores doc before P V ctx₁ o →
        follow ctx.heap.edge (.table ctx₁.current_table) (P.keys.map step) = some o := by
    intro before P V ctx₁ o hs
    obtain ⟨after, hd⟩ := hs.split
    have hf := (stores_around h.run hs).found
    rw [record_eq_take, List.take_of_length_le (hshort hd).1] at hf
    exact hf
  refine ⟨fun hs => ?_, hfound, fun hs => ?_, fun hs hs' hne hf => ?_,
    (statements_ready start_ready h.run).1.sound.distinct⟩
  · obtain ⟨after, hd⟩ := hs.split
    obtain ⟨i, hi⟩ := (stores_around h.run hs).header
    rw [← steps_short (hshort hd).2] at hi
    exact ⟨i, hi⟩
  · obtain ⟨after, hd⟩ := hs.split
    have ht := (stores_around h.run hs).text _ rfl
    rw [parsed_text h hd] at ht
    exact ht
  · exact stores_ne h.run hs hs' hne (Option.some.inj ((hfound hs).symm.trans hf))

theorem lands_iff_short {toml : Bytes} {doc : Document} {ctx : Ctx} (h : Parses toml doc ctx) :
    Lands doc ctx.heap ↔ Short doc :=
  ⟨short_of_lands h, lands_of_short h⟩

def letter (ch : ℕ) : KeyPart := ⟨⟨.key, [ch]⟩, Or.inl rfl⟩

def one_value : Value := .simple ⟨⟨.val_float, [49]⟩, by decide⟩

/-- `[t]` and `a.b=1` on the next line. -/
theorem lands_iff_short_header :
    let doc : Document := [.table_def (.part (letter 116)), .newline,
      .key_val (.dot (.part (letter 97)) (letter 98)) one_value]
    ∃ ctx, Parses [91, 116, 93, 10, 97, 46, 98, 61, 49] doc ctx ∧
      (Lands doc ctx.heap ↔ Short doc) := by
  intro doc
  have h : Parses [91, 116, 93, 10, 97, 46, 98, 61, 49] doc
      ⟨⟨[[49]], [], [⟨false, false, [], [], [([116], 1)]⟩, ⟨false, false, [], [], [([97], 2)]⟩,
        ⟨false, true, [([98], 0)], [], []⟩]⟩, 1⟩ :=
    ⟨by decide +kernel, by decide +kernel⟩
  exact ⟨_, h, lands_iff_short h⟩

/-- The path `a.b.c.d.e.f.g.h.i.j.k`. -/
def eleven : Path :=
  [98, 99, 100, 101, 102, 103, 104, 105, 106, 107].foldl (fun P ch => .dot P (letter ch))
    (.part (letter 97))

/-- The text `a.b.c.d.e.f.g.h.i.j.k=1`. -/
def eleven_text : Bytes :=
  [97, 46, 98, 46, 99, 46, 100, 46, 101, 46, 102, 46, 103, 46, 104, 46, 105, 46, 106, 46, 107,
    61, 49]

theorem eleven_does_not_land :
    ∃ ctx, Parses eleven_text [.key_val eleven one_value] ctx ∧
      ¬ Lands [.key_val eleven one_value] ctx.heap := by
  obtain ⟨ctx, hrun⟩ := Option.isSome_iff_exists.mp
    (by decide +kernel : (statements start [.key_val eleven one_value]).isSome = true)
  have h : Parses eleven_text [.key_val eleven one_value] ctx := ⟨by decide +kernel, hrun⟩
  refine ⟨ctx, h, fun hl => ?_⟩
  have hsplit : ([.key_val eleven one_value] : Document) = [] ++ .key_val eleven one_value :: [] :=
    rfl
  exact absurd (short_of_lands h hl hsplit).1 (by decide)

/-- Whatever the statements, one path of keys and indexes leads from the root to each object that
can be reached, none leads out of the heap, and no table has a key twice. -/
theorem parsed_tree {toml : Bytes} {doc : Document} {ctx : Ctx} (h : Parses toml doc ctx) :
    (∀ o, Inside ctx.heap.edge (.table root) o →
      ctx.heap.Has o ∧ ∃! path, follow ctx.heap.edge (.table root) path = some o) ∧
      ∀ tbl ∈ ctx.heap.tables, tbl.keys.Nodup := by
  have hs := (statements_ready start_ready h.run).1.sound
  refine ⟨fun o ho => ⟨ho.closed hs.has_root fun _ he => hs.closed he, ?_⟩, hs.distinct⟩
  obtain ⟨path, hpath⟩ := ho
  exact ⟨path, hpath, fun path' h' => follow_unique hs.exclusive hs.root_free h' hpath⟩

/-- Of the eleven keys ten are taken, and they lead down a chain of tables. -/
theorem parsed_tree_eleven :
    ∃ ctx, Parses eleven_text [.key_val eleven one_value] ctx ∧
      ∀ tbl ∈ ctx.heap.tables, tbl.keys.Nodup := by
  obtain ⟨ctx, hrun⟩ := Option.isSome_iff_exists.mp
    (by decide +kernel : (statements start [.key_val eleven one_value]).isSome = true)
  have h : Parses eleven_text [.key_val eleven one_value] ctx := ⟨by decide +kernel, hrun⟩
  exact ⟨ctx, h, (parsed_tree h).2⟩

end SaltsUtils.Toml
