import SaltsUtils.Library.Forest
import SaltsUtils.Library.Owners
import SaltsUtils.Json.Arenas

/-!
# Documents are trees

The arenas are a forest, in which each adoption hangs a root under an arena that is not
below it.
-/

set_option autoImplicit false

namespace SaltsUtils.Json.Building

open Owners Forest

variable {dst src a : ℕ}

section

def owns (parents : List (Option ℕ)) (dst src : ℕ) : Prop := parent_of parents src = some dst

structure ArenasOk (parents : List (Option ℕ)) : Prop where
  acyclic : ∀ a, ¬ Relation.TransGen (owns parents) a a
  inside : ∀ {dst src : ℕ}, owns parents dst src → dst < parents.length

variable {parents : List (Option ℕ)}

theorem ArenasOk.forest (ho : ArenasOk parents) : IsForest (owns parents) where
  unique := fun h h' => Option.some.inj (h.symm.trans h')
  acyclic := ho.acyclic

theorem ArenasOk.acyclic_up (ho : ArenasOk parents) (a : ℕ) :
    ¬ Relation.TransGen (Function.swap (owns parents)) a a := by
  rw [Relation.transGen_swap]
  exact ho.acyclic a

theorem owns_none (h : parent_of parents src = none) : ¬ owns parents dst src := by
  rw [owns, h]
  exact nofun

theorem has_parent_iff (ho : ArenasOk parents) {rounds : ℕ}
    (hr : under (Function.swap (owns parents)) parents.length a < rounds) :
    has_parent parents src rounds (some a) = true ↔ Below (owns parents) src a := by
  induction rounds generalizing a with
  | zero => exact absurd hr (Nat.not_lt_zero _)
  | succ rounds ih =>
    rw [has_parent]
    by_cases ha : a = src
    · rw [if_pos ha, ha]
      exact ⟨fun _ => below_refl _, fun _ => rfl⟩
    · rw [if_neg ha]
      cases hp : parent_of parents a with
      | none =>
        rw [has_parent]
        refine ⟨nofun, fun hb => ?_⟩
        rcases Relation.ReflTransGen.cases_tail hb with h | ⟨p, -, hpa⟩
        · exact absurd h ha
        · exact absurd hpa (owns_none hp)
      | some p =>
        have hlt := @under_lt (Function.swap (owns parents)) ho.acyclic_up parents.length a p hp
          (ho.inside hp)
        rw [ih (by omega)]
        constructor
        · exact fun hb => Relation.ReflTransGen.tail hb hp
        · intro hb
          rcases below_parent ho.forest hb hp with h | h
          · exact absurd h ha
          · exact h

theorem can_adopt_cases (ho : ArenasOk parents) (hdst : dst < parents.length)
    (h : json_arena_can_adopt parents dst src = true) : dst = src ∨ owns parents dst src ∨
      parent_of parents src = none ∧ ¬ Below (owns parents) src dst := by
  rw [json_arena_can_adopt] at h
  split_ifs at h with hsame hparent
  · exact hsame.imp_right .inl
  · refine .inr (.inr ⟨Option.not_isSome_iff_eq_none.mp hparent, fun hb => ?_⟩)
    rw [(has_parent_iff ho (under_lt_bound ho.acyclic_up hdst)).mpr hb] at h
    cases h

theorem parent_of_set (hs : src < parents.length) : parent_of (parents.set src (some dst)) a =
      if src = a then some dst else parent_of parents a := by
  rw [parent_of, List.getElem?_set]
  split_ifs
  · rfl
  · rfl

theorem parent_of_concat (a : ℕ) : parent_of (parents ++ [none]) a = parent_of parents a := by
  rw [parent_of, parent_of, List.getElem?_append]
  split_ifs with ha
  · rfl
  · rw [List.getElem?_eq_none (Nat.le_of_not_lt ha)]
    cases a - parents.length <;> rfl

theorem ArenasOk.concat (ho : ArenasOk parents) : ArenasOk (parents ++ [none]) where
  acyclic := by
    have hsame : owns (parents ++ [none]) = owns parents := by
      funext dst src
      rw [owns, owns, parent_of_concat]
    rw [hsame]
    exact ho.acyclic
  inside := by
    intro dst src h
    rw [owns, parent_of_concat] at h
    rw [List.length_append]
    exact Nat.lt_add_right _ (ho.inside h)

structure Adopted (parents parents' : List (Option ℕ)) (dst src : ℕ) : Prop where
  ok : ArenasOk parents'
  size : parents'.length = parents.length
  hung : dst = src ∨ owns parents' dst src
  kept : ∀ {a b : ℕ}, owns parents a b → owns parents' a b
  other : ∀ {a : ℕ}, a ≠ src → parent_of parents' a = parent_of parents a

theorem adopted (ho : ArenasOk parents) (hdst : dst < parents.length) (hsrc : src < parents.length)
    (h : json_arena_can_adopt parents dst src = true) :
    ∃ parents', json_arena_adopt parents dst src = (parents', true) ∧
      Adopted parents parents' dst src := by
  rw [json_arena_adopt, h, Bool.not_true, if_neg Bool.false_ne_true]
  rcases can_adopt_cases ho hdst h with hsame | hparent | ⟨hnone, hb⟩
  · exact ⟨parents, if_pos (Or.inl hsame), ho, rfl, .inl hsame, id, fun _ => rfl⟩
  · exact ⟨parents, if_pos (Or.inr hparent), ho, rfl, .inr hparent, id, fun _ => rfl⟩
  · have hne : dst ≠ src := by
      rintro rfl
      exact hb (below_refl _)
    refine ⟨parents.set src (some dst), if_neg ?_, ⟨?_, ?_⟩, List.length_set .., .inr ?_, ?_, ?_⟩
    · rintro (hsame | hparent)
      · exact hne hsame
      · exact owns_none hnone hparent
    · refine (ho.forest.join (p := dst) (c := src) (fun a => owns_none hnone) hb ?_).acyclic
      intro a b hab
      rw [owns, parent_of_set hsrc] at hab
      split_ifs at hab with hb
      · exact .inr ⟨(Option.some.inj hab).symm, hb.symm⟩
      · exact .inl hab
    · intro a b hab
      rw [owns, parent_of_set hsrc] at hab
      rw [List.length_set]
      split_ifs at hab with hb
      · exact Option.some.inj hab ▸ hdst
      · exact ho.inside hab
    · rw [owns, parent_of_set hsrc, if_pos rfl]
    · intro a b hab
      rw [owns, parent_of_set hsrc, if_neg]
      · exact hab
      · rintro rfl
        exact owns_none hnone hab
    · intro a ha
      rw [parent_of_set hsrc, if_neg ha.symm]

end

section

variable {D : Type}

def Data.children : Data D → List ℕ
  | .array arr => arr.elements
  | .object obj => obj.pairs.map Prod.snd
  | _ => []

def Data.holds : Data D → Bool
  | .array _ => true
  | .object _ => true
  | _ => false

def Data.Ok : Data D → Prop
  | .array arr => arr.Ok
  | .object obj => obj.Ok
  | _ => True

theorem Data.children_of_not_holds {data : Data D} (h : data.holds = false) : data.children = [] := by
  cases data <;> first | rfl | cases h

def position (h : Heap D) (v k : ℕ) : Option ℕ :=
  (h.values[v]?).bind fun value => value.data.children[k]?

def child (h : Heap D) (p c : ℕ) : Prop := ∃ k, position h p k = some c

def Heap.arena (h : Heap D) (v : ℕ) : Option ℕ := (h.values[v]?).map JsonValue.arena

/-- The arena of a child is that of its parent or hangs on it. -/
def Within (h : Heap D) (p c : ℕ) : Prop :=
  ∃ a b, h.arena p = some a ∧ h.arena c = some b ∧ (a = b ∨ owns h.parents a b)

structure Ok (h : Heap D) : Prop where
  arenas : ArenasOk h.parents
  data : ∀ {v : ℕ} {value : JsonValue D}, h.values[v]? = some value → value.data.Ok
  in_arena : ∀ {v a : ℕ}, h.arena v = some a → a < h.parents.length
  in_heap : ∀ {p c : ℕ}, child h p c → c < h.values.length
  exclusive : Exclusive (position h)
  acyclic : ∀ v, ¬ Relation.TransGen (child h) v v
  within : ∀ {p c : ℕ}, child h p c → Within h p c
  alone : ∀ {v v' : ℕ} {value value' : JsonValue D}, h.values[v]? = some value →
    h.values[v']? = some value' → value.data.holds = true → value'.data.holds = true →
    value.arena = value'.arena → v = v'

variable {h : Heap D}

theorem Ok.forest (ho : Ok h) : IsForest (child h) where
  unique := by
    rintro a b c ⟨k, hk⟩ ⟨k', hk'⟩
    exact (ho.exclusive hk hk').1
  acyclic := ho.acyclic

theorem empty_ok : Ok (Heap.empty : Heap D) where
  arenas := by
    have hnone : ∀ a b, ¬ owns [] a b := fun a b hab => by cases hab
    refine ⟨fun a ha => ?_, fun hab => absurd hab (hnone _ _)⟩
    rcases Relation.TransGen.head'_iff.mp ha with ⟨b, hab, -⟩
    exact hnone a b hab
  data := nofun
  in_arena := nofun
  in_heap := fun hc => by
    obtain ⟨k, hk⟩ := hc
    cases hk
  exclusive := nofun
  acyclic := fun v hv => by
    rcases Relation.TransGen.head'_iff.mp hv with ⟨b, ⟨k, hk⟩, -⟩
    cases hk
  within := fun hc => by
    obtain ⟨k, hk⟩ := hc
    cases hk
  alone := nofun

theorem below_arena (ho : Ok h) {p c : ℕ} (hp : h.arena p = some a) (hb : Below (child h) p c) :
    ∃ b, h.arena c = some b ∧ Below (owns h.parents) a b := by
  induction hb with
  | refl => exact ⟨a, hp, below_refl _⟩
  | tail _ hc ih =>
    obtain ⟨b, hb, hab⟩ := ih
    obtain ⟨b', d, hb', hd, hown⟩ := ho.within hc
    obtain rfl := Option.some.inj (hb.symm.trans hb')
    refine ⟨d, hd, ?_⟩
    rcases hown with rfl | hown
    · exact hab
    · exact below_trans hab (below_child hown)

/-- A value whose arena a container may adopt is not above the container, unless it is the
container itself. -/
theorem not_below (ho : Ok h) {v c : ℕ} {value other : JsonValue D}
    (hv : h.values[v]? = some value) (hc : h.values[c]? = some other)
    (hholds : value.data.holds = true)
    (hadopt : json_arena_can_adopt h.parents value.arena other.arena = true) (hne : c ≠ v) :
    ¬ Below (child h) c v := by
  intro hb
  have hva : h.arena v = some value.arena := by rw [Heap.arena, hv]; rfl
  have hca : h.arena c = some other.arena := by rw [Heap.arena, hc]; rfl
  obtain ⟨b, hvb, hup⟩ := below_arena ho hca hb
  obtain rfl := Option.some.inj (hva.symm.trans hvb)
  rcases can_adopt_cases ho.arenas (ho.in_arena hva) hadopt with hsame | hown | ⟨-, hno⟩
  · rcases below_cases hb with h | ⟨d, ⟨k, hk⟩, -⟩
    · exact hne h.symm
    · have hother : other.data.holds = true := by
        by_contra hnot
        rw [position, hc, Option.bind_some,
          Data.children_of_not_holds (Bool.not_eq_true _ ▸ hnot)] at hk
        cases hk
      exact hne (ho.alone hc hv hother hholds hsame.symm)
  · exact not_below_parent ho.arenas.forest hown hup
  · exact hno hup

theorem grow_ok (ho : Ok h) : Ok { h with parents := h.parents ++ [none] } where
  arenas := ho.arenas.concat
  data := ho.data
  in_arena := fun ha => by
    rw [List.length_append]
    exact Nat.lt_add_right _ (ho.in_arena ha)
  in_heap := ho.in_heap
  exclusive := ho.exclusive
  acyclic := ho.acyclic
  within := fun hc => by
    obtain ⟨a, b, ha, hb, hown⟩ := ho.within hc
    refine ⟨a, b, ha, hb, hown.imp_right fun hown => ?_⟩
    rw [owns, parent_of_concat]
    exact hown
  alone := ho.alone

theorem position_new {arena : ℕ} {data : Data D} (hnone : data.children = []) :
    position (json_value_new_arena h arena data).1 = position h := by
  funext v k
  rw [position, position, json_value_new_arena]
  rcases Nat.lt_trichotomy v h.values.length with hlt | rfl | hgt
  · rw [List.getElem?_append_left hlt]
  · rw [List.getElem?_concat_length, List.getElem?_eq_none (Nat.le_refl _), Option.bind_some, hnone]
    rfl
  · rw [List.getElem?_eq_none hgt.le, List.getElem?_eq_none (by simpa using hgt)]

theorem values_new {arena v : ℕ} {data : Data D} (hv : v < h.values.length) :
    (json_value_new_arena h arena data).1.values[v]? = h.values[v]? :=
  List.getElem?_append_left hv

theorem values_new_self {arena : ℕ} {data : Data D} :
    (json_value_new_arena h arena data).1.values[h.values.length]? = some ⟨arena, data⟩ :=
  List.getElem?_concat_length

theorem new_cases {arena v : ℕ} {data : Data D} {value : JsonValue D}
    (hv : (json_value_new_arena h arena data).1.values[v]? = some value) :
    h.values[v]? = some value ∨ v = h.values.length ∧ value = ⟨arena, data⟩ := by
  rcases Nat.lt_trichotomy v h.values.length with hlt | rfl | hgt
  · rw [values_new hlt] at hv
    exact .inl hv
  · rw [values_new_self] at hv
    exact .inr ⟨rfl, (Option.some.inj hv).symm⟩
  · rw [json_value_new_arena, List.getElem?_eq_none (by simpa using hgt)] at hv
    cases hv

theorem lt_of_value {v : ℕ} {value : JsonValue D} (hv : h.values[v]? = some value) :
    v < h.values.length := (List.getElem?_eq_some_iff.mp hv).1

theorem new_ok (ho : Ok h) {arena : ℕ} {data : Data D} (ha : arena < h.parents.length)
    (hd : data.Ok) (hnone : data.children = [])
    (halone : data.holds = true → ∀ v, h.arena v ≠ some arena) :
    Ok (json_value_new_arena h arena data).1 := by
  have hchild : child (json_value_new_arena h arena data).1 = child h := by
    funext p c
    rw [child, child, position_new hnone]
  have harena : ∀ {v a : ℕ}, h.arena v = some a →
      (json_value_new_arena h arena data).1.arena v = some a := by
    intro v a hv
    obtain ⟨value, hvalue, rfl⟩ := Option.map_eq_some_iff.mp hv
    rw [Heap.arena, values_new (lt_of_value hvalue), hvalue]
    rfl
  refine ⟨ho.arenas, fun hv => ?_, fun hv => ?_, fun hc => ?_, ?_, ?_, fun hc => ?_, ?_⟩
  · rcases new_cases hv with hv | ⟨-, rfl⟩
    · exact ho.data hv
    · exact hd
  · obtain ⟨value, hvalue, rfl⟩ := Option.map_eq_some_iff.mp hv
    rcases new_cases hvalue with hv | ⟨-, rfl⟩
    · exact ho.in_arena (by rw [Heap.arena, hv]; rfl)
    · exact ha
  · rw [hchild] at hc
    rw [json_value_new_arena, List.length_append]
    exact Nat.lt_add_right _ (ho.in_heap hc)
  · rw [position_new hnone]
    exact ho.exclusive
  · rw [hchild]
    exact ho.acyclic
  · rw [hchild] at hc
    obtain ⟨a, b, hpa, hcb, hown⟩ := ho.within hc
    exact ⟨a, b, harena hpa, harena hcb, hown⟩
  · intro v v' value value' hv hv' hh hh' heq
    rcases new_cases hv with hv | ⟨rfl, rfl⟩ <;> rcases new_cases hv' with hv' | ⟨rfl, rfl⟩
    · exact ho.alone hv hv' hh hh' heq
    · exact absurd (by rw [Heap.arena, hv, Option.map_some, heq]) (halone hh' v)
    · exact absurd (by rw [Heap.arena, hv', Option.map_some, ← heq]) (halone hh v')
    · rfl

theorem root_ok (ho : Ok h) {data : Data D} (hd : data.Ok) (hnone : data.children = []) :
    Ok (json_create_root h data).1 := by
  refine new_ok (grow_ok ho) ?_ hd hnone fun _ v hv => ?_
  · rw [List.length_append]
    exact Nat.lt_succ_self _
  · exact Nat.lt_irrefl _ (ho.in_arena hv)

/-- One more child, or another one in a place. -/
def Put (old new : List ℕ) (c : ℕ) : Prop :=
  ∃ l : ℕ, ∀ k : ℕ, new[k]? = if k = l then some c else old[k]?

theorem put_concat (old : List ℕ) (c : ℕ) : Put old (old ++ [c]) c := by
  refine ⟨old.length, fun k => ?_⟩
  rcases Nat.lt_trichotomy k old.length with hlt | rfl | hgt
  · rw [List.getElem?_append_left hlt, if_neg hlt.ne]
  · rw [List.getElem?_concat_length, if_pos rfl]
  · rw [if_neg hgt.ne', List.getElem?_eq_none hgt.le, List.getElem?_eq_none (by simpa using hgt)]

theorem put_modify {pairs : List (Bytes × ℕ)} {l : ℕ} (hl : l < pairs.length) (c : ℕ) :
    Put (pairs.map Prod.snd) ((pairs.modify l fun old => (old.1, c)).map Prod.snd) c := by
  refine ⟨l, fun k => ?_⟩
  rw [List.getElem?_map, List.getElem?_modify, List.getElem?_map]
  by_cases hk : k = l
  · simp [hk, hl]
  · simp only [if_neg hk, if_neg (Ne.symm hk)]
    cases pairs[k]? <;> rfl

/-- What a call leaves in a container. -/
structure Stored (old new : Data D) (c : ℕ) (added : Bool) : Prop where
  ok : new.Ok
  holds : new.holds = true
  put : added = true → Put old.children new.children c
  same : added = false → new.children = old.children

theorem array_append_stored (alloc : Alloc) {arr : ArrayVal ℕ} (ho : arr.Ok) (c : ℕ) :
    Stored (D := D) (.array arr) (.array (json_array_append_arena alloc arr c).1) c
      (json_array_append_arena alloc arr c).2 := by
  refine ⟨array_append_ok alloc c ho, rfl, ?_, ?_⟩ <;> rw [json_array_append_arena] <;> dsimp only
  · split_ifs with hfull halloc
    · nofun
    · nofun
    · intro _
      rw [Data.children, (reserved_reserved alloc ho).elements]
      exact put_concat _ c
  · split_ifs with hfull halloc
    · exact fun _ => rfl
    · exact fun _ => (reserved_reserved alloc ho).elements
    · nofun

theorem index_append_pairs (alloc : Alloc) (obj : ObjectVal ℕ) (key : Bytes) :
    (json_object_index_append alloc obj key).pairs = obj.pairs := by
  rw [json_object_index_append]
  split
  · rw [json_object_build_index]
    split_ifs
    · rfl
    · rfl
    · split <;> rfl
  · rfl

theorem object_set_stored (alloc : Alloc) {obj : ObjectVal ℕ} (ho : obj.Ok) (key : Bytes) (c : ℕ) :
    Stored (D := D) (.object obj) (.object (json_object_set_arena_ex alloc obj key c).1) c
      (json_object_set_arena_ex alloc obj key c).2 := by
  refine ⟨set_arena_ex_ok alloc key c ho, rfl, ?_, ?_⟩ <;> rw [json_object_set_arena_ex]
  · cases hpair : existing_pair obj key with
    | some pair =>
      intro _
      rw [existing_pair_eq ho, list_find] at hpair
      exact put_modify (List.findIdx?_eq_some_iff_getElem.mp hpair).1 c
    | none =>
      dsimp only
      split_ifs with halloc hcount
      · simp
      · intro _
        rw [Data.children, Data.children, index_append_pairs, List.map_append]
        exact put_concat _ c
      · intro _
        rw [Data.children, Data.children, List.map_append]
        exact put_concat _ c
  · cases hpair : existing_pair obj key with
    | some pair => simp
    | none =>
      dsimp only
      split_ifs with halloc hcount
      · exact fun _ => rfl
      · simp
      · simp

variable {n : ℕ}

theorem values_write {v : ℕ} {data : Data D} {value : JsonValue D} (hv : h.values[v]? = some value) :
    (h.write v data).values[n]? =
      if n = v then some ⟨value.arena, data⟩ else h.values[n]? := by
  rw [Heap.write, List.getElem?_modify]
  by_cases hn : n = v
  · rw [if_pos hn, hn, hv]
    simp
  · simp only [if_neg hn, if_neg (Ne.symm hn)]
    cases h.values[n]? <;> rfl

theorem arena_write {v : ℕ} {data : Data D} {value : JsonValue D} (hv : h.values[v]? = some value) :
    (h.write v data).arena n = h.arena n := by
  rw [Heap.arena, Heap.arena, values_write hv]
  split_ifs with hn
  · rw [hn, hv]
    rfl
  · rfl

theorem length_write (v : ℕ) (data : Data D) :
    (h.write v data).values.length = h.values.length := List.length_modify ..

theorem write_same {v : ℕ} {value : JsonValue D} (hv : h.values[v]? = some value) :
    h.write v value.data = h := by
  have hvalues : (h.write v value.data).values = h.values := by
    apply List.ext_getElem?
    intro n
    rw [values_write hv]
    split_ifs with hn
    · rw [hn, hv]
    · rfl
  exact congrArg (Heap.mk h.parents) hvalues

theorem position_write {v k : ℕ} {data : Data D} {value : JsonValue D}
    (hv : h.values[v]? = some value) : position (h.write v data) n k =
      if n = v then data.children[k]? else position h n k := by
  rw [position, position, values_write hv]
  split_ifs <;> rfl

section

variable {v : ℕ} {value : JsonValue D} {data : Data D}

theorem write_alone (ho : Ok h) (hv : h.values[v]? = some value)
    (hholds : data.holds = true → value.data.holds = true) {u u' : ℕ} {val val' : JsonValue D}
    (hu : (h.write v data).values[u]? = some val) (hu' : (h.write v data).values[u']? = some val')
    (hh : val.data.holds = true) (hh' : val'.data.holds = true) (heq : val.arena = val'.arena) :
    u = u' := by
  have hold : ∀ {u : ℕ} {val : JsonValue D}, (h.write v data).values[u]? = some val →
      val.data.holds = true → ∃ old, h.values[u]? = some old ∧ old.data.holds = true ∧
        old.arena = val.arena := by
    intro u val hu hh
    rw [values_write hv] at hu
    split_ifs at hu with huv
    · obtain rfl := Option.some.inj hu
      exact ⟨value, huv ▸ hv, hholds hh, rfl⟩
    · exact ⟨val, hu, hh, rfl⟩
  obtain ⟨old, hold₁, hh₁, ha₁⟩ := hold hu hh
  obtain ⟨old', hold₂, hh₂, ha₂⟩ := hold hu' hh'
  exact ho.alone hold₁ hold₂ hh₁ hh₂ (ha₁.trans (heq.trans ha₂.symm))

theorem write_data (ho : Ok h) (hv : h.values[v]? = some value) (hd : data.Ok) {u : ℕ}
    {val : JsonValue D} (hu : (h.write v data).values[u]? = some val) : val.data.Ok := by
  rw [values_write hv] at hu
  split_ifs at hu
  · exact Option.some.inj hu ▸ hd
  · exact ho.data hu

theorem position_keeps (hv : h.values[v]? = some value)
    (hsame : data.children = value.data.children) : position (h.write v data) = position h := by
  funext n k
  rw [position_write hv]
  split_ifs with hn
  · rw [hn, position, hv, hsame]
    rfl
  · rfl

theorem write_keeps (ho : Ok h) (hv : h.values[v]? = some value)
    (hholds : data.holds = true → value.data.holds = true) (hd : data.Ok)
    (hsame : data.children = value.data.children) : Ok (h.write v data) := by
  have hpos := position_keeps hv hsame
  have hchild : child (h.write v data) = child h := by
    funext p c
    rw [child, child, hpos]
  have harena : (h.write v data).arena = h.arena := by
    funext n
    exact arena_write hv
  refine ⟨ho.arenas, write_data ho hv hd, fun ha => ho.in_arena (harena ▸ ha), fun hc => ?_, ?_, ?_,
    fun hc => ?_, write_alone ho hv hholds⟩
  · rw [length_write]
    exact ho.in_heap (hchild ▸ hc)
  · exact hpos ▸ ho.exclusive
  · exact hchild ▸ ho.acyclic
  · rw [Within, harena]
    exact ho.within (hchild ▸ hc)

theorem write_ok (ho : Ok h) (hv : h.values[v]? = some value) (hholds : value.data.holds = true)
    (hd : data.Ok) {c : ℕ} (hput : Put value.data.children data.children c)
    (hc : c < h.values.length) (horphan : Orphan (position h) c) (hbelow : ¬ Below (child h) c v)
    (hwithin : Within h v c) : Ok (h.write v data) := by
  obtain ⟨l, hl⟩ := hput
  have hpos : position (h.write v data) = attach (position h) v l c := by
    funext n k
    rw [position_write hv, attach]
    by_cases hn : n = v
    · rw [if_pos hn, hl, hn, position, hv]
      simp only [true_and]
      rfl
    · rw [if_neg hn, if_neg fun hboth => hn hboth.1]
  have hchild : ∀ {p d : ℕ}, child (h.write v data) p d → child h p d ∨ p = v ∧ d = c := by
    rintro p d ⟨k, hk⟩
    rw [hpos] at hk
    rcases attach_cases hk with ⟨hp, -, hd⟩ | hk
    · exact .inr ⟨hp, hd⟩
    · exact .inl ⟨k, hk⟩
  have harena : (h.write v data).arena = h.arena := by
    funext n
    exact arena_write hv
  refine ⟨ho.arenas, write_data ho hv hd, fun ha => ho.in_arena (harena ▸ ha), fun hd => ?_, ?_, ?_,
    fun hd => ?_, write_alone ho hv fun _ => hholds⟩
  · rw [length_write]
    rcases hchild hd with hd | ⟨-, rfl⟩
    · exact ho.in_heap hd
    · exact hc
  · rw [hpos]
    exact Exclusive.attach ho.exclusive horphan
  · exact (ho.forest.join (fun a ⟨k, hk⟩ => horphan a k hk) hbelow hchild).acyclic
  · rw [Within, harena]
    rcases hchild hd with hd | ⟨rfl, rfl⟩
    · exact ho.within hd
    · exact hwithin

end

theorem adopt_ok (ho : Ok h) {parents : List (Option ℕ)} (ha : Adopted h.parents parents dst src) :
    Ok { h with parents := parents } where
  arenas := ha.ok
  data := ho.data
  in_arena := fun hv => ha.size ▸ ho.in_arena hv
  in_heap := ho.in_heap
  exclusive := ho.exclusive
  acyclic := ho.acyclic
  within := fun hc => by
    obtain ⟨a, b, hpa, hcb, hown⟩ := ho.within hc
    exact ⟨a, b, hpa, hcb, hown.imp_right ha.kept⟩
  alone := ho.alone

/-- What adding `c` to `v` changes at most. -/
structure Step (h h' : Heap D) (v c : ℕ) : Prop where
  ok : Ok h'
  size : h'.values.length = h.values.length
  sizes : h'.parents.length = h.parents.length
  others : ∀ {n : ℕ}, n ≠ v → h'.values[n]? = h.values[n]?
  arena : ∀ n : ℕ, h'.arena n = h.arena n
  edges : ∀ {n k m : ℕ}, position h' n k = some m → position h n k = some m ∨ n = v ∧ m = c
  parents : ∀ {a : ℕ}, h.arena c ≠ some a → parent_of h'.parents a = parent_of h.parents a

theorem Step.refl (ho : Ok h) (v c : ℕ) : Step h h v c :=
  ⟨ho, rfl, rfl, fun _ => rfl, fun _ => rfl, .inl, fun _ => rfl⟩

theorem write_step {v c : ℕ} {value : JsonValue D} {data : Data D}
    (hv : h.values[v]? = some value) (hok : Ok (h.write v data))
    (hedges : ∀ {k m : ℕ}, data.children[k]? = some m →
      value.data.children[k]? = some m ∨ m = c) : Step h (h.write v data) v c where
  ok := hok
  size := length_write v data
  sizes := rfl
  others := fun hn => by rw [values_write hv, if_neg hn]
  arena := fun n => arena_write hv
  edges := fun {n k m} hk => by
    rw [position_write hv] at hk
    split_ifs at hk with hn
    · rcases hedges hk with hk | hm
      · refine .inl ?_
        rw [hn, position, hv]
        exact hk
      · exact .inr ⟨hn, hm⟩
    · exact .inl hk
  parents := fun _ => rfl

theorem committed_step (ho : Ok h) {v c : ℕ} {value : JsonValue D} {data : Data D} {added : Bool}
    (hv : h.values[v]? = some value) (hholds : value.data.holds = true)
    (hs : Stored value.data data c added)
    (hadded : added = true → json_can_transfer_to_arena h value.arena c = true)
    (hsafe : json_can_transfer_to_arena h value.arena c = true → c ≠ v ∧ Orphan (position h) c) :
    Step h (committed (h.write v data) value.arena c added).1 v c := by
  cases added with
  | false =>
    have hok := write_keeps ho hv (fun _ => hholds) hs.ok (hs.same rfl)
    refine write_step hv hok fun {k m} hk => Or.inl ?_
    rw [← hs.same rfl]
    exact hk
  | true =>
    have htransfer := hadded rfl
    obtain ⟨hne, horphan⟩ := hsafe htransfer
    rw [json_can_transfer_to_arena] at htransfer
    cases hc : h.values[c]? with
    | none =>
      rw [hc] at htransfer
      cases htransfer
    | some other =>
      rw [hc] at htransfer
      have hva : h.arena v = some value.arena := by rw [Heap.arena, hv]; rfl
      have hca : h.arena c = some other.arena := by rw [Heap.arena, hc]; rfl
      obtain ⟨parents, hadopt, ha⟩ := adopted ho.arenas (ho.in_arena hva) (ho.in_arena hca) htransfer
      have hresult : committed (h.write v data) value.arena c true =
          (Heap.write { h with parents := parents } v data, true) := by
        have hval : (h.write v data).values[c]? = some other := by
          rw [values_write hv, if_neg hne, hc]
        simp only [committed, hval]
        rw [show (h.write v data).parents = h.parents from rfl, hadopt]
        rfl
      have hput := hs.put rfl
      have hok : Ok (Heap.write { h with parents := parents } v data) :=
        write_ok (adopt_ok ho ha) hv hholds hs.ok hput (lt_of_value hc) horphan
          (not_below ho hv hc hholds htransfer hne)
          ⟨value.arena, other.arena, hva, hca, ha.hung⟩
      have hstep := write_step (c := c) (h := { h with parents := parents }) hv hok fun {k m} hk => by
        obtain ⟨l, hl⟩ := hput
        rw [hl] at hk
        split_ifs at hk
        · exact .inr (Option.some.inj hk).symm
        · exact .inl hk
      rw [hresult]
      refine ⟨hok, hstep.size, hstep.sizes.trans ha.size, hstep.others, hstep.arena, hstep.edges,
        fun hne => ?_⟩
      rw [hca] at hne
      exact ha.other fun heq => hne (congrArg some heq.symm)

end

end SaltsUtils.Json.Building
