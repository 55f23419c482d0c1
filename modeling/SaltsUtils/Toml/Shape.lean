import SaltsUtils.Library.Owners
import SaltsUtils.Toml.Parse

/-!
# The shape of the parsed tables

A table has an edge for each of its keys and an array for each of its positions with an
array or a table.
-/

set_option autoImplicit false

namespace SaltsUtils.Toml

open Owners

inductive Step where
  | key (key : Bytes)
  | index (i : ℕ)
  deriving DecidableEq

def Item.obj? : Item → Option Obj
  | .value _ => none
  | .array p => some (.array p)
  | .table p => some (.table p)

def Table.keys (tbl : Table) : List Bytes :=
  tbl.kval.map Prod.fst ++ tbl.arr.map Prod.fst ++ tbl.tbl.map Prod.fst

namespace Heap

def edge (h : Heap) : Obj → Step → Option Obj
  | .table t, .key key => h.check_key t key
  | .array a, .index i => (h.arrays[a]?.bind (fun items => items[i]?)).bind Item.obj?
  | _, _ => none

/-- An object that has been allocated. -/
def Has (h : Heap) : Obj → Prop
  | .keyval p => p < h.keyvals.length
  | .array p => p < h.arrays.length
  | .table p => p < h.tables.length

structure Sound (h : Heap) : Prop where
  exclusive : Exclusive h.edge
  closed : ∀ {n o : Obj} {s : Step}, h.edge n s = some o → h.Has o
  root_free : Orphan h.edge (.table root)
  has_root : h.Has (.table root)
  distinct : ∀ tbl ∈ h.tables, tbl.keys.Nodup

end Heap

variable {key : Bytes}

theorem lookup_eq_none {members : List (Bytes × ℕ)} :
    members.lookup key = none ↔ key ∉ members.map Prod.fst := by
  rw [List.lookup_eq_none_iff]
  simp only [List.mem_map, bne_iff_ne]
  grind

theorem check_key_none {tbl : Table} : tbl.check_key key = none ↔ key ∉ tbl.keys := by
  unfold Table.check_key
  rw [Table.keys, List.mem_append, List.mem_append, not_or, not_or, ← lookup_eq_none,
    ← lookup_eq_none, ← lookup_eq_none]
  cases tbl.kval.lookup key with
  | some p => simp only [reduceCtorEq, false_and]
  | none =>
    cases tbl.arr.lookup key with
    | some p => simp only [reduceCtorEq, false_and, and_false]
    | none => simp only [Option.map_eq_none_iff, true_and]

theorem keys_insert (tbl : Table) (key : Bytes) (o : Obj) :
    (tbl.insert key o).keys.Perm (key :: tbl.keys) := by
  cases o with
  | keyval p =>
    simp only [Table.insert, Table.keys, List.map_append, List.map_cons, List.map_nil]
    grind [List.perm_middle]
  | array p =>
    simp only [Table.insert, Table.keys, List.map_append, List.map_cons, List.map_nil]
    grind [List.perm_middle]
  | table p =>
    simp only [Table.insert, Table.keys, List.map_append, List.map_cons, List.map_nil]
    grind [List.perm_middle]

theorem check_key_insert {tbl : Table} (o : Obj) (h : tbl.check_key key = none) (key' : Bytes) :
    (tbl.insert key o).check_key key' = if key' = key then some o else tbl.check_key key' := by
  rw [check_key_none, Table.keys, List.mem_append, List.mem_append, not_or, not_or,
    ← lookup_eq_none, ← lookup_eq_none, ← lookup_eq_none] at h
  obtain ⟨⟨hk, ha⟩, ht⟩ := h
  by_cases he : key' = key
  · subst he
    cases o <;>
      simp [Table.check_key, Table.insert, List.lookup_append, hk, ha, ht]
  · have hn : (key' == key) = false := by simpa using he
    cases o <;>
      simp [Table.check_key, Table.insert, List.lookup_append, he, List.lookup_cons, hn]

namespace Heap

variable {t a : ℕ} {o : Obj} {item : Item}

section Edges
variable {h : Heap}

theorem edge_table (t : ℕ) (key : Bytes) :
    h.edge (.table t) (.key key) = h.tables[t]?.bind (fun tbl => tbl.check_key key) := rfl

theorem edge_new_table (readonly implicit : Bool) : (h.new_table readonly implicit).edge = h.edge := by
  funext n s
  cases n <;> cases s <;> try rfl
  next t key =>
  rw [edge_table, edge_table, new_table]
  rcases lt_trichotomy t h.tables.length with ht | rfl | ht
  · rw [List.getElem?_append_left ht]
  · simp [Table.check_key]
  · rw [List.getElem?_eq_none (by simp; omega), List.getElem?_eq_none (by omega)]

theorem edge_new_array : h.new_array.edge = h.edge := by
  funext n s
  cases n <;> cases s <;> try rfl
  next a i =>
  simp only [edge, new_array]
  rcases lt_trichotomy a h.arrays.length with ha | rfl | ha
  · rw [List.getElem?_append_left ha]
  · simp
  · rw [List.getElem?_eq_none (by simp; omega), List.getElem?_eq_none (by omega)]

theorem edge_new_keyval (val : Bytes) : (h.new_keyval val).edge = h.edge := rfl

theorem edge_set_explicit (t : ℕ) : (h.set_explicit t).edge = h.edge := by
  funext n s
  cases n <;> cases s <;> try rfl
  next t' key =>
  rw [edge_table, edge_table, set_explicit, List.getElem?_modify]
  cases h.tables[t']? with
  | none => rfl
  | some tbl =>
    by_cases ht : t = t' <;> simp [ht, Table.check_key]

theorem edge_link (ht : h.Has (.table t)) (hk : h.check_key t key = none) :
    (h.link t key o).edge = attach h.edge (.table t) (.key key) o := by
  obtain ⟨tbl, htbl⟩ : ∃ tbl, h.tables[t]? = some tbl := ⟨_, List.getElem?_eq_getElem ht⟩
  have hfree : tbl.check_key key = none := by simpa [check_key, htbl] using hk
  funext n s
  cases n with
  | keyval p => simp [edge, attach]
  | array a => cases s <;> simp [edge, attach, link]
  | table t' =>
    cases s with
    | index i => simp [edge, attach]
    | key key' =>
      rw [edge_table, link, List.getElem?_modify]
      by_cases hne : t = t'
      · subst hne
        simp [htbl, attach, edge_table, check_key_insert o hfree]
      · have hne' : t' ≠ t := fun h => hne h.symm
        simp [hne, hne', attach, edge_table]

theorem items_append (items : List Item) (item : Item) (i : ℕ) :
    (items ++ [item])[i]?.bind Item.obj? =
      if i = items.length then item.obj? else items[i]?.bind Item.obj? := by
  rcases lt_trichotomy i items.length with hi | rfl | hi
  · rw [List.getElem?_append_left hi, if_neg hi.ne]
  · simp
  · rw [List.getElem?_eq_none (by simp; omega), List.getElem?_eq_none hi.le, if_neg hi.ne']

theorem edge_array (a i : ℕ) :
    h.edge (.array a) (.index i) = h.arrays[a]?.bind (fun items => items[i]?.bind Item.obj?) := by
  exact Option.bind_assoc _ _ _

theorem has_owner {n : Obj} {s : Step} (he : h.edge n s = some o) : h.Has n := by
  cases n with
  | keyval p => cases he
  | array a =>
    cases s with
    | key key => cases he
    | index i =>
      rw [edge_array] at he
      obtain ⟨items, hi, -⟩ := Option.bind_eq_some_iff.mp he
      exact (List.getElem?_eq_some_iff.mp hi).1
  | table t =>
    cases s with
    | index i => cases he
    | key key =>
      obtain ⟨tbl, ht, -⟩ := Option.bind_eq_some_iff.mp he
      exact (List.getElem?_eq_some_iff.mp ht).1

/-- The position behind the last item of an array. -/
def next_index (h : Heap) (a : ℕ) : ℕ := (h.arrays[a]?.map List.length).getD 0

theorem edge_next_index (a : ℕ) : h.edge (.array a) (.index (h.next_index a)) = none := by
  rw [edge_array, next_index]
  cases h.arrays[a]? with
  | none => rfl
  | some items => simp

theorem edge_appended (a : ℕ) (item : Item) (a' i : ℕ) :
    (h.append_item a item).edge (.array a') (.index i) =
      if a' = a ∧ i = h.next_index a ∧ a < h.arrays.length then item.obj?
      else h.edge (.array a') (.index i) := by
  rw [edge_array, edge_array, append_item, List.getElem?_modify]
  by_cases hne : a = a'
  · subst hne
    cases hitems : h.arrays[a]? with
    | none =>
      have ha : ¬ a < h.arrays.length := Nat.not_lt.mpr (List.getElem?_eq_none_iff.mp hitems)
      simp [ha]
    | some items =>
      have hn : h.next_index a = items.length := by rw [next_index, hitems]; rfl
      have ha : a < h.arrays.length := (List.getElem?_eq_some_iff.mp hitems).1
      simp [ha, items_append, hn]
  · have hne' : a' ≠ a := fun h => hne h.symm
    simp [hne, hne']

theorem edge_append_value (a : ℕ) (val : Bytes) : (h.append_item a (.value val)).edge = h.edge := by
  funext n s
  cases n <;> cases s <;> try rfl
  next a' i =>
  rw [edge_appended]
  split
  · next hi => rw [hi.1, hi.2.1, edge_next_index, Item.obj?]
  · rfl

theorem edge_append_item (ha : h.Has (.array a)) (ho : item.obj? = some o) :
    (h.append_item a item).edge = attach h.edge (.array a) (.index (h.next_index a)) o := by
  funext n s
  cases n with
  | keyval p => simp [edge, attach]
  | table t => cases s <;> simp [edge, attach, append_item, check_key]
  | array a' =>
    cases s with
    | key key => simp [edge, attach]
    | index i => simp [edge_appended, attach, show a < h.arrays.length from ha, ho]

end Edges

structure Grown (h h' : Heap) : Prop where
  edges : Grows h.edge h'.edge
  has : ∀ {o : Obj}, h.Has o → h'.Has o
  texts : h.keyvals <+: h'.keyvals

/-- What nothing pointed to stays so. -/
structure Kept (h h' : Heap) : Prop extends Grown h h' where
  orphans : ∀ {o : Obj}, h.Has o → Orphan h.edge o → Orphan h'.edge o

variable {h h' h'' : Heap}

theorem Grown.refl : Grown h h := ⟨Grows.refl, id, List.prefix_rfl⟩

theorem Grown.trans (hg : Grown h h') (hg' : Grown h' h'') : Grown h h'' :=
  ⟨fun he => hg'.edges (hg.edges he), fun ho => hg'.has (hg.has ho), hg.texts.trans hg'.texts⟩

theorem Kept.refl : Kept h h := ⟨Grown.refl, fun _ ho => ho⟩

theorem Kept.trans (hk : Kept h h') (hk' : Kept h' h'') : Kept h h'' :=
  ⟨hk.toGrown.trans hk'.toGrown, fun hh ho => hk'.orphans (hk.has hh) (hk.orphans hh ho)⟩

theorem Grown.of_edge (he : h'.edge = h.edge) (hh : ∀ {o : Obj}, h.Has o → h'.Has o)
    (ht : h.keyvals <+: h'.keyvals) : Grown h h' :=
  ⟨fun hn => by rw [he]; exact hn, hh, ht⟩

theorem Kept.of_edge (he : h'.edge = h.edge) (hh : ∀ {o : Obj}, h.Has o → h'.Has o)
    (ht : h.keyvals <+: h'.keyvals) : Kept h h' :=
  ⟨.of_edge he hh ht, fun _ ho => by rw [he]; exact ho⟩

theorem has_new_table (r i : Bool) (ho : h.Has o) : (h.new_table r i).Has o := by
  cases o with
  | keyval p => exact ho
  | array p => exact ho
  | table p => exact ho.trans (by simp [new_table])

theorem has_new_array (ho : h.Has o) : h.new_array.Has o := by
  cases o with
  | keyval p => exact ho
  | array p => exact ho.trans (by simp [new_array])
  | table p => exact ho

theorem has_new_keyval (val : Bytes) (ho : h.Has o) : (h.new_keyval val).Has o := by
  cases o with
  | keyval p => exact ho.trans (by simp [new_keyval])
  | array p => exact ho
  | table p => exact ho

theorem has_link (t : ℕ) (key : Bytes) (l : Obj) : (h.link t key l).Has o ↔ h.Has o := by
  cases o <;> simp [Has, link]

theorem has_append_item (a : ℕ) (item : Item) : (h.append_item a item).Has o ↔ h.Has o := by
  cases o <;> simp [Has, append_item]

theorem has_set_explicit (t : ℕ) : (h.set_explicit t).Has o ↔ h.Has o := by
  cases o <;> simp [Has, set_explicit]

theorem kept_new_table (r i : Bool) : Kept h (h.new_table r i) :=
  .of_edge (edge_new_table r i) (has_new_table r i) List.prefix_rfl

theorem kept_new_array : Kept h h.new_array :=
  .of_edge edge_new_array has_new_array List.prefix_rfl

theorem kept_new_keyval (val : Bytes) : Kept h (h.new_keyval val) :=
  .of_edge (edge_new_keyval val) (has_new_keyval val) (List.prefix_append _ _)

theorem kept_set_explicit (t : ℕ) : Kept h (h.set_explicit t) :=
  .of_edge (edge_set_explicit t) (has_set_explicit t).mpr List.prefix_rfl

theorem kept_append_value (a : ℕ) (val : Bytes) : Kept h (h.append_item a (.value val)) :=
  .of_edge (edge_append_value a val) (has_append_item a _).mpr List.prefix_rfl

theorem Sound.orphan (hs : h.Sound) (ho : ¬ h.Has o) : Orphan h.edge o :=
  fun _ _ he => ho (hs.closed he)

theorem Sound.of_edge (hs : h.Sound) (he : h'.edge = h.edge)
    (hh : ∀ {o : Obj}, h.Has o → h'.Has o) (hd : ∀ tbl ∈ h'.tables, tbl.keys.Nodup) : h'.Sound where
  exclusive := he ▸ hs.exclusive
  closed := fun h => hh (hs.closed (he ▸ h))
  root_free := he ▸ hs.root_free
  has_root := hh hs.has_root
  distinct := hd

theorem Sound.of_attach (hs : h.Sound) {n : Obj} {k : Step} (he : h'.edge = attach h.edge n k o)
    (hh : ∀ {o : Obj}, h.Has o → h'.Has o) (hd : ∀ tbl ∈ h'.tables, tbl.keys.Nodup)
    (ho : Orphan h.edge o) (hho : h'.Has o) (hroot : o ≠ .table root) : h'.Sound where
  exclusive := by
    rw [he]
    exact Exclusive.attach hs.exclusive ho
  closed := by
    intro m l s hm
    rw [he] at hm
    rcases attach_cases hm with ⟨-, -, rfl⟩ | hm
    · exact hho
    · exact hh (hs.closed hm)
  root_free := by
    rw [he]
    exact hs.root_free.attach hroot.symm
  has_root := hh hs.has_root
  distinct := hd

theorem distinct_link (hs : h.Sound) (o : Obj) (hk : h.check_key t key = none) :
    ∀ tbl ∈ (h.link t key o).tables, tbl.keys.Nodup := by
  intro tbl htbl
  obtain ⟨t', ht'⟩ := List.mem_iff_getElem?.mp htbl
  rw [link, List.getElem?_modify] at ht'
  obtain ⟨old, hold, rfl⟩ := Option.map_eq_some_iff.mp ht'
  have hd := hs.distinct old (List.mem_of_getElem? hold)
  by_cases hne : t = t'
  · subst hne
    have hfree : old.check_key key = none := by simpa [check_key, hold] using hk
    rw [if_pos rfl, (keys_insert old key o).nodup_iff]
    exact List.nodup_cons.mpr ⟨check_key_none.mp hfree, hd⟩
  · rw [if_neg hne]
    exact hd

theorem Sound.new_table (hs : h.Sound) (r i : Bool) : (h.new_table r i).Sound := by
  refine hs.of_edge (edge_new_table r i) (has_new_table r i) (fun tbl htbl => ?_)
  rcases List.mem_append.mp htbl with htbl | htbl
  · exact hs.distinct tbl htbl
  · rw [List.mem_singleton.mp htbl]
    exact List.nodup_nil

theorem Sound.new_array (hs : h.Sound) : h.new_array.Sound :=
  hs.of_edge edge_new_array has_new_array hs.distinct

theorem Sound.new_keyval (hs : h.Sound) (val : Bytes) : (h.new_keyval val).Sound :=
  hs.of_edge (edge_new_keyval val) (has_new_keyval val) hs.distinct

theorem Sound.set_explicit (hs : h.Sound) (t : ℕ) : (h.set_explicit t).Sound := by
  refine hs.of_edge (edge_set_explicit t) (has_set_explicit t).mpr (fun tbl htbl => ?_)
  obtain ⟨t', ht'⟩ := List.mem_iff_getElem?.mp htbl
  rw [Heap.set_explicit, List.getElem?_modify] at ht'
  obtain ⟨old, hold, rfl⟩ := Option.map_eq_some_iff.mp ht'
  have hd := hs.distinct old (List.mem_of_getElem? hold)
  by_cases hne : t = t'
  · rw [if_pos hne]
    exact hd
  · rw [if_neg hne]
    exact hd

theorem Sound.append_value (hs : h.Sound) (a : ℕ) (val : Bytes) :
    (h.append_item a (.value val)).Sound :=
  hs.of_edge (edge_append_value a val) (has_append_item a _).mpr hs.distinct

/-- What may be attached: an object that nothing points to, other than the root. -/
structure Loose (h : Heap) (o : Obj) : Prop where
  has : h.Has o
  orphan : Orphan h.edge o
  not_root : o ≠ .table root

theorem Sound.link (hs : h.Sound) (ht : h.Has (.table t)) (hk : h.check_key t key = none)
    (ho : h.Loose o) : (h.link t key o).Sound :=
  hs.of_attach (edge_link ht hk) (has_link t key o).mpr (distinct_link hs o hk) ho.orphan
    ((has_link t key o).mpr ho.has) ho.not_root

theorem Sound.append_item (hs : h.Sound) (ha : h.Has (.array a)) (hi : item.obj? = some o)
    (ho : h.Loose o) : (h.append_item a item).Sound :=
  hs.of_attach (edge_append_item ha hi) (has_append_item a item).mpr hs.distinct ho.orphan
    ((has_append_item a item).mpr ho.has) ho.not_root

theorem grown_link (o : Obj) (ht : h.Has (.table t)) (hk : h.check_key t key = none) :
    Grown h (h.link t key o) where
  edges := by
    rw [edge_link ht hk]
    exact grows_attach hk
  has := (has_link t key o).mpr
  texts := List.prefix_rfl

theorem grown_append_item (ha : h.Has (.array a)) (hi : item.obj? = some o) :
    Grown h (h.append_item a item) where
  edges := by
    rw [edge_append_item ha hi]
    exact grows_attach (edge_next_index a)
  has := (has_append_item a item).mpr
  texts := List.prefix_rfl

end Heap

end SaltsUtils.Toml
