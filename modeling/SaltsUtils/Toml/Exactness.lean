import SaltsUtils.Toml.Closed
import SaltsUtils.Toml.Lexemes

/-!
# Kept texts and what the accessors read of them
-/

set_option autoImplicit false

/-!
## The texts that a document keeps

Every member and every item that is a plain value keeps the text of a token of a value. What
all these tokens have, all kept texts have.
-/

namespace SaltsUtils.Toml

open Heap

section

/-- The texts of plain values all have a property. -/
structure Heap.All (p : Bytes → Prop) (h : Heap) : Prop where
  keyvals : ∀ s ∈ h.keyvals, p s
  items : ∀ items ∈ h.arrays, ∀ s, Item.value s ∈ items → p s

def Val.All (p : Bytes → Prop) : Val → Prop
  | .simple tok => p (cstring tok.value)
  | _ => True

def TokensAll (p : Bytes → Prop) (toks : List Token) : Prop :=
  ∀ tok ∈ toks, tok.type.IsValue → p (cstring tok.value)

section
variable {p : Bytes → Prop} {h h' : Heap}

theorem TokensAll.left {left right : List Token} (ht : TokensAll p (left ++ right)) :
    TokensAll p left := fun tok htok => ht tok (List.mem_append_left _ htok)

theorem TokensAll.right {left right : List Token} (ht : TokensAll p (left ++ right)) :
    TokensAll p right := fun tok htok => ht tok (List.mem_append_right _ htok)

theorem TokensAll.tail {tok : Token} {toks : List Token} (ht : TokensAll p (tok :: toks)) :
    TokensAll p toks := fun tok htok => ht tok (List.mem_cons_of_mem _ htok)

theorem Heap.All.of_same (hh : h.All p) (hk : h'.keyvals = h.keyvals) (ha : h'.arrays = h.arrays) :
    h'.All p := ⟨hk ▸ hh.keyvals, ha ▸ hh.items⟩

theorem Heap.All.new_table (hh : h.All p) (r i : Bool) : (h.new_table r i).All p :=
  hh.of_same rfl rfl

theorem Heap.All.link (hh : h.All p) (t : ℕ) (key : Bytes) (o : Obj) : (h.link t key o).All p :=
  hh.of_same rfl rfl

theorem Heap.All.new_array (hh : h.All p) : h.new_array.All p := by
  refine ⟨hh.keyvals, fun items hitems s hs => ?_⟩
  obtain hitems | hitems := List.mem_append.mp hitems
  · exact hh.items items hitems s hs
  · rw [List.mem_singleton.mp hitems] at hs
    cases hs

theorem Heap.All.append_item (hh : h.All p) (a : ℕ) {item : Item}
    (hitem : ∀ s, item = .value s → p s) : (h.append_item a item).All p := by
  refine ⟨hh.keyvals, fun items hitems s hs => ?_⟩
  obtain ⟨i, hi, rfl⟩ := List.mem_iff_getElem.mp hitems
  rw [Heap.append_item, List.length_modify] at hi
  have hold := hh.items _ (List.getElem_mem hi)
  simp only [Heap.append_item, List.getElem_modify] at hs
  split at hs
  · obtain hs | hs := List.mem_append.mp hs
    · exact hold s hs
    · exact hitem s (List.mem_singleton.mp hs).symm
  · exact hold s hs

theorem Heap.All.append_table (hh : h.All p) (a : ℕ) : (append_table h a).1.All p :=
  (hh.new_table false false).append_item a fun _ hs => (nomatch hs)

variable {t : ℕ}

theorem walk_path_stores {keys : List Token} {curr : ℕ}
    (hw : toml_helper_walk_path h curr keys = some (h', t)) :
    h'.keyvals = h.keyvals ∧ h'.arrays = h.arrays := by
  induction keys generalizing h curr with
  | nil =>
    cases hw
    exact ⟨rfl, rfl⟩
  | cons key keys ih =>
    rw [toml_helper_walk_path] at hw
    split at hw
    · exact ih hw
    · cases hw
    · exact ⟨(ih hw).1, (ih hw).2⟩

variable {parent : ℕ} {key : Token}

theorem add_member_stores {o : Obj} (ha : add_member h parent key o = some h') :
    h'.keyvals = h.keyvals ∧ h'.arrays = h.arrays := by
  rw [add_member] at ha
  split at ha
  · cases ha
  · cases ha
    exact ⟨rfl, rfl⟩

theorem Heap.All.walked (hh : h.All p) {keys : List Token} {curr : ℕ}
    (hw : toml_helper_walk_path h curr keys = some (h', t)) : h'.All p :=
  hh.of_same (walk_path_stores hw).1 (walk_path_stores hw).2

theorem Heap.All.member (hh : h.All p) {o : Obj} (ha : add_member h parent key o = some h') :
    h'.All p :=
  hh.of_same (add_member_stores ha).1 (add_member_stores ha).2

theorem Heap.All.new_keyval (hh : h.All p) {val : Bytes} (hv : p val) : (h.new_keyval val).All p := by
  refine ⟨fun s hs => ?_, hh.items⟩
  obtain hs | hs := List.mem_append.mp hs
  · exact hh.keyvals s hs
  · rw [List.mem_singleton.mp hs]
    exact hv

theorem Heap.All.add_any (hh : h.All p) {path : Path} {v : Val} (hv : v.All p)
    (ha : toml_helper_add_any h parent path v = some h') : h'.All p := by
  cases v <;> obtain ⟨⟨h₁, t⟩, hw, ha⟩ := Option.bind_eq_some_iff.mp ha
  · exact ((hh.walked hw).new_keyval hv).member ha
  · exact (hh.walked hw).member ha
  · exact (hh.walked hw).member ha

theorem Heap.All.array_append (hh : h.All p) (a : ℕ) {v : Val} (hv : v.All p) :
    (array_append h a v).All p := by
  cases v with
  | simple tok =>
    refine hh.append_item a fun s hs => ?_
    cases hs
    exact hv
  | array sub => exact hh.append_item a fun _ hs => (nomatch hs)
  | table sub => exact hh.append_item a fun _ hs => (nomatch hs)

theorem Heap.All.create_table (hh : h.All p) {is_array : Bool}
    (hc : toml_helper_create_table h parent key is_array = some (h', t)) : h'.All p := by
  cases is_array with
  | true =>
    rw [toml_helper_create_table, if_pos rfl] at hc
    split at hc
    · cases hc
      exact hh.append_table _
    · cases hc
    · cases hc
      exact (hh.new_array.link _ _ _).append_table _
  | false =>
    rw [toml_helper_create_table, if_neg Bool.false_ne_true] at hc
    split at hc
    · split at hc
      · cases hc
        exact hh.of_same rfl rfl
      · cases hc
    · cases hc
    · cases hc
      exact (hh.new_table _ _).link _ _ _

end

end

mutual

theorem any_value_all {p : Bytes → Prop} {h h' : Heap} {v : Val} (hh : h.All p) :
    (V : Value) → TokensAll p V.yield → any_value h V = some (h', v) → h'.All p ∧ v.All p
  | .simple T, ht, hv => by
    cases hv
    exact ⟨hh, ht T.tok List.mem_cons_self T.kind⟩
  | .empty_array, ht, hv => by
    cases hv
    exact ⟨hh.new_array, trivial⟩
  | .array L comma, ht, hv => by
    obtain ⟨⟨h₁, a⟩, hl, he⟩ := Option.bind_eq_some_iff.mp hv
    cases he
    exact ⟨array_list_all hh L ht.tail.left.left hl, trivial⟩
  | .empty_table, ht, hv => by
    cases hv
    exact ⟨hh.new_table _ _, trivial⟩
  | .inline_table L comma, ht, hv => by
    obtain ⟨⟨h₁, t⟩, hl, he⟩ := Option.bind_eq_some_iff.mp hv
    cases he
    exact ⟨inline_list_all hh L ht.tail.left.left hl, trivial⟩

theorem array_list_all {p : Bytes → Prop} {h h' : Heap} {a : ℕ} (hh : h.All p) :
    (L : ArrayList) → TokensAll p L.yield → array_list h L = some (h', a) → h'.All p
  | .one V, ht, hl => by
    obtain ⟨⟨h₁, v⟩, hv, he⟩ := Option.bind_eq_some_iff.mp hl
    cases he
    obtain ⟨hh₁, hv'⟩ := any_value_all hh V ht hv
    exact hh₁.new_array.array_append _ hv'
  | .append L V, ht, hl => by
    obtain ⟨⟨h₁, a⟩, hl₁, hl'⟩ := Option.bind_eq_some_iff.mp hl
    obtain ⟨⟨h₂, v⟩, hv, he⟩ := Option.bind_eq_some_iff.mp hl'
    cases he
    obtain ⟨hh₂, hv'⟩ := any_value_all (array_list_all hh L ht.left hl₁) V ht.right.tail hv
    exact hh₂.array_append _ hv'

theorem inline_list_all {p : Bytes → Prop} {h h' : Heap} {t : ℕ} (hh : h.All p) :
    (L : InlineList) → TokensAll p L.yield → inline_list h L = some (h', t) → h'.All p
  | .one P V, ht, hl => by
    obtain ⟨⟨h₁, v⟩, hv, hl'⟩ := Option.bind_eq_some_iff.mp hl
    obtain ⟨h₂, ha, he⟩ := Option.bind_eq_some_iff.mp hl'
    cases he
    obtain ⟨hh₁, hv'⟩ := any_value_all hh V ht.right.tail hv
    exact (hh₁.new_table _ _).add_any hv' ha
  | .append L P V, ht, hl => by
    obtain ⟨⟨h₁, t⟩, hl₁, hl'⟩ := Option.bind_eq_some_iff.mp hl
    obtain ⟨⟨h₂, v⟩, hv, hl''⟩ := Option.bind_eq_some_iff.mp hl'
    obtain ⟨h₃, ha, he⟩ := Option.bind_eq_some_iff.mp hl''
    cases he
    obtain ⟨hh₂, hv'⟩ :=
      any_value_all (inline_list_all hh L ht.left hl₁) V ht.right.tail.right.tail hv
    exact hh₂.add_any hv' ha

end

section
variable {p : Bytes → Prop}

theorem statement_all {ctx ctx' : Ctx} {S : Statement} (hh : ctx.heap.All p)
    (ht : TokensAll p S.yield) (hs : statement ctx S = some ctx') : ctx'.heap.All p := by
  have hdef : ∀ {P is_array}, table_def ctx P is_array = some ctx' → ctx'.heap.All p := by
    intro P is_array hd
    obtain ⟨⟨h₁, parent⟩, hw, hd⟩ := Option.bind_eq_some_iff.mp hd
    obtain ⟨⟨h₂, t⟩, hc, he⟩ := Option.bind_eq_some_iff.mp hd
    cases he
    exact (hh.walked hw).create_table hc
  cases S with
  | table_def P => exact hdef hs
  | array_def P => exact hdef hs
  | key_val P V =>
    obtain ⟨⟨h₁, v⟩, hv, hs⟩ := Option.bind_eq_some_iff.mp hs
    obtain ⟨h₂, ha, he⟩ := Option.bind_eq_some_iff.mp hs
    cases he
    obtain ⟨hh₁, hv'⟩ := any_value_all hh V ht.right.tail hv
    exact hh₁.add_any hv' ha
  | newline =>
    cases hs
    exact hh

theorem statements_all {doc : Document} {ctx ctx' : Ctx} (hh : ctx.heap.All p)
    (ht : TokensAll p doc.yield) (hs : statements ctx doc = some ctx') : ctx'.heap.All p := by
  induction doc generalizing ctx with
  | nil =>
    cases hs
    exact hh
  | cons S doc ih =>
    rw [Document.yield, List.flatMap_cons] at ht
    obtain ⟨ctx₁, hS, hrest⟩ := Option.bind_eq_some_iff.mp hs
    exact ih (statement_all hh ht.left hS) ht.right hrest

end

def IsLexeme (doc : Document) (s : Bytes) : Prop :=
  ∃ tok ∈ doc.yield, tok.type.IsValue ∧ s = tok.value

theorem Parses.texts {toml : Bytes} {doc : Document} {ctx : Ctx} (h : Parses toml doc ctx) :
    ctx.heap.All (IsLexeme doc) := by
  have hstart : start.heap.All (IsLexeme doc) :=
    ⟨List.forall_mem_nil _, fun _ hitems => absurd hitems List.not_mem_nil⟩
  exact statements_all hstart (fun tok htok hvalue => ⟨tok, htok, hvalue, h.plain tok htok⟩) h.run

theorem Parses.lexeme {toml : Bytes} {doc : Document} {ctx : Ctx} (h : Parses toml doc ctx)
    {s : Bytes} (hs : IsLexeme doc s) : Lexeme s := by
  obtain ⟨tok, htok, hvalue, rfl⟩ := hs
  exact tokens_lexeme h.tokens tok htok hvalue

theorem table_unparsed_all {p : Bytes → Prop} {h : Heap} (hh : h.All p) {t : ℕ} {key s : Bytes}
    (hs : toml_table_unparsed h t key = some s) : p s := by
  obtain ⟨i, -, hi⟩ := Option.bind_eq_some_iff.mp hs
  exact hh.keyvals s (List.mem_of_getElem? hi)

theorem array_unparsed_all {p : Bytes → Prop} {h : Heap} (hh : h.All p) {a : ℕ} {idx : ℤ}
    {s : Bytes} (hs : toml_array_unparsed h a idx = some s) : p s := by
  rw [toml_array_unparsed] at hs
  split at hs
  · split at hs
    · next hitem =>
      cases hs
      obtain ⟨items, hitems, hmem⟩ := Option.bind_eq_some_iff.mp hitem
      exact hh.items items (List.mem_of_getElem? hitems) s (List.mem_of_getElem? hmem)
    · cases hs
  · cases hs

/-!
## What the typed accessors read

The accessors are compared with what a lexeme denotes, for every value of a parsed document.
-/

structure Readings (s : Bytes) (int : Option ℤ) (stamp : Option Timestamp) (bool : Option Bool) :
    Prop where
  int_iff : IntExact int s ↔ ¬ IntMisread s
  stamp_iff : StampExact stamp s ↔ StampKept s
  bool_exact : BoolExact bool s

theorem Lexeme.readings {s : Bytes} (h : Lexeme s) :
    Readings s (toml_value_int s) (toml_value_timestamp s) (toml_value_bool s) where
  int_iff := int_exact_iff h.regular
  stamp_iff := stamp_exact_iff h.dated
  bool_exact := bool_exact s

/-- For every member and every item that is a plain value: which integers and which date-times are
read as what they are. -/
theorem accessors_exact_iff {toml : Bytes} {doc : Document} {ctx : Ctx} (h : Parses toml doc ctx) :
    (∀ t key s, toml_table_unparsed ctx.heap t key = some s → IsLexeme doc s ∧
      Readings s (toml_table_int ctx.heap t key) (toml_table_timestamp ctx.heap t key)
        (toml_table_bool ctx.heap t key)) ∧
    ∀ arr idx s, toml_array_unparsed ctx.heap arr idx = some s → IsLexeme doc s ∧
      Readings s (toml_array_int ctx.heap arr idx) (toml_array_timestamp ctx.heap arr idx)
        (toml_array_bool ctx.heap arr idx) := by
  constructor
  · intro t key s hs
    have hlexeme := table_unparsed_all h.texts hs
    rw [toml_table_int, toml_table_timestamp, toml_table_bool, hs]
    exact ⟨hlexeme, (h.lexeme hlexeme).readings⟩
  · intro arr idx s hs
    have hlexeme := array_unparsed_all h.texts hs
    rw [toml_array_int, toml_array_timestamp, toml_array_bool, hs]
    exact ⟨hlexeme, (h.lexeme hlexeme).readings⟩

/-- `n = 0o17`. -/
def octal_text : Bytes := [110, 32, 61, 32, 48, 111, 49, 55]

def octal_document : Document :=
  [.key_val (.part (letter 110)) (.simple ⟨⟨.val_int, [48, 111, 49, 55]⟩, .inr (.inl rfl)⟩)]

def octal_ctx : Ctx := ⟨⟨[[48, 111, 49, 55]], [], [⟨false, false, [([110], 0)], [], []⟩]⟩, 0⟩

theorem accessors_exact_octal :
    Parses octal_text octal_document octal_ctx ∧
      Readings [48, 111, 49, 55] (toml_table_int octal_ctx.heap root [110])
        (toml_table_timestamp octal_ctx.heap root [110])
        (toml_table_bool octal_ctx.heap root [110]) := by
  have h : Parses octal_text octal_document octal_ctx := ⟨by decide +kernel, by decide +kernel⟩
  exact ⟨h, ((accessors_exact_iff h).1 root [110] _ (by decide +kernel)).2⟩

/-- The member is the integer 15, and neither read as an integer nor refused as a timestamp. -/
theorem octal_not_exact :
    Parses octal_text octal_document octal_ctx ∧
      toml_table_unparsed octal_ctx.heap root [110] = some [48, 111, 49, 55] ∧
      toml_integer [48, 111, 49, 55] = some 15 ∧
      toml_table_int octal_ctx.heap root [110] = none ∧
      ¬ IntExact (toml_table_int octal_ctx.heap root [110]) [48, 111, 49, 55] ∧
      ¬ StampExact (toml_table_timestamp octal_ctx.heap root [110]) [48, 111, 49, 55] := by
  have hint : toml_integer [48, 111, 49, 55] = some 15 := by decide +kernel
  have hread : toml_table_int octal_ctx.heap root [110] = none := by decide +kernel
  have hstamp : toml_table_timestamp octal_ctx.heap root [110] =
      some ⟨0, -1, -1, -1, -1, -1, -1, 0, 0⟩ := by decide +kernel
  refine ⟨⟨by decide +kernel, by decide +kernel⟩, by decide +kernel, hint, hread, fun h => ?_,
    fun h => ?_⟩
  · have hfifteen := (h 15).mpr ⟨hint, by decide +kernel⟩
    rw [hread] at hfifteen
    cases hfifteen
  · -- no date-time has the length of the lexeme
    obtain ⟨stamp, htext, -⟩ := h.sound _ hstamp
    have hlength := congrArg List.length htext
    cases stamp <;> simp [Stamp.text, Date.text, Time.text, two] at hlength

end SaltsUtils.Toml
