import SaltsUtils.Json.Containers

/-!
# The indexes agree with the lists

Every call keeps the invariant that an index, where there is one, answers as its list
does: a position with the element there, a key with the first pair that has it.
-/

set_option autoImplicit false

namespace SaltsUtils.Json

variable {V : Type*}

structure ArrayVal.Ok (arr : ArrayVal V) : Prop where
  size : arr.count = arr.elements.length
  absent : arr.index = none → arr.index_capacity = 0
  room : ∀ {index : List (Option V)}, arr.index = some index →
    index.length = arr.index_capacity ∧ arr.count ≤ arr.index_capacity
  agrees : ∀ {index : List (Option V)}, arr.index = some index →
    index.take arr.count = arr.elements.map some

theorem array_empty_ok : (ArrayVal.empty : ArrayVal V).Ok where
  size := rfl
  absent := fun _ => rfl
  room := nofun
  agrees := nofun

variable {capacity : ℕ}

theorem grow_capacity_le {rounds needed : ℕ} (hc : 0 < capacity) (hr : needed ≤ capacity + rounds) :
    needed ≤ grow_capacity rounds capacity needed := by
  induction rounds generalizing capacity with
  | zero => exact hr
  | succ rounds ih =>
    rw [grow_capacity]
    split
    · split
      · exact le_rfl
      · exact ih (by omega) (by omega)
    · omega

structure Reserved (arr arr' : ArrayVal V) : Prop where
  ok : arr'.Ok
  elements : arr'.elements = arr.elements
  count : arr'.count = arr.count
  room : ∀ {index : List (Option V)}, arr'.index = some index → arr.count + 1 ≤ arr'.index_capacity

theorem reserve_capacity_le (arr : ArrayVal V) (needed : ℕ) : needed ≤ reserve_capacity arr needed := by
  refine grow_capacity_le ?_ (Nat.le_add_left _ _)
  split <;> omega

variable {arr : ArrayVal V}

theorem index_cells_eq (ho : arr.Ok) : index_cells arr = arr.elements.map some := by
  unfold index_cells
  split
  · next index hi =>
    split
    · exact ho.agrees hi
    · rfl
  · rfl

theorem with_capacity_length {α : Type*} {cells : List (Option α)} (h : cells.length ≤ capacity) :
    (with_capacity cells capacity).length = capacity := by
  rw [with_capacity, List.length_append, List.length_replicate]
  omega

variable {alloc : Alloc}

theorem index_reserve_reserved {arr' : ArrayVal V} (ho : arr.Ok)
    (h : json_array_index_reserve alloc arr (arr.count + 1) = some arr') : Reserved arr arr' := by
  unfold json_array_index_reserve at h
  split at h
  · next hle =>
    obtain rfl := Option.some.inj h
    exact ⟨ho, rfl, rfl, fun _ => hle⟩
  · split at h
    · cases h
    · split at h
      · cases h
      · obtain rfl := Option.some.inj h
        have hneeded := reserve_capacity_le arr (arr.count + 1)
        have hlength : (index_cells arr).length = arr.count := by
          rw [index_cells_eq ho, List.length_map, ho.size]
        refine ⟨⟨ho.size, nofun, fun h => ?_, fun h => ?_⟩, rfl, rfl, fun _ => hneeded⟩
        · obtain rfl := Option.some.inj h
          exact ⟨with_capacity_length (by omega), Nat.le_of_succ_le hneeded⟩
        · obtain rfl := Option.some.inj h
          rw [← index_cells_eq ho]
          exact List.take_left' hlength

theorem reserved_reserved (alloc : Alloc) (ho : arr.Ok) : Reserved arr (reserved alloc arr) := by
  unfold reserved
  split
  · split
    · next h => exact index_reserve_reserved ho h
    · exact ⟨⟨ho.size, fun _ => rfl, nofun, nofun⟩,
        rfl, rfl, nofun⟩
  · next hn =>
    exact ⟨ho, rfl, rfl, fun h => absurd (Or.inl (by rw [h]; rfl)) hn⟩

theorem array_append_ok (alloc : Alloc) (val : V) (ho : arr.Ok) :
    (json_array_append_arena alloc arr val).1.Ok := by
  unfold json_array_append_arena
  split
  · exact ho
  · have hr := reserved_reserved alloc ho
    simp only
    split
    · exact hr.ok
    · refine ⟨?_, fun h => ?_, fun h => ?_, fun h => ?_⟩
      · simp only [List.length_append, List.length_singleton, hr.ok.size]
      · exact hr.ok.absent (Option.map_eq_none_iff.mp h)
      · obtain ⟨index, hi, rfl⟩ := Option.map_eq_some_iff.mp h
        rw [List.length_set]
        have := hr.room hi
        rw [← hr.count] at this
        exact ⟨(hr.ok.room hi).1, this⟩
      · obtain ⟨index, hi, rfl⟩ := Option.map_eq_some_iff.mp h
        have hroom := hr.room hi
        have hlt : (reserved alloc arr).count < index.length := by
          rw [(hr.ok.room hi).1, hr.count]
          exact hroom
        rw [List.take_add_one, List.getElem?_set_self hlt, List.take_set_of_le (Nat.le_refl _),
          hr.ok.agrees hi, List.map_append]
        rfl

theorem array_get_eq (ho : arr.Ok) (i : ℕ) : json_array_get arr i = arr.elements[i]? := by
  unfold json_array_get
  split
  · next hi =>
    rw [List.getElem?_eq_none]
    rw [← ho.size]
    exact hi
  · next hi =>
    split
    · next index hindex =>
      have hget : index[i]? = (arr.elements.map some)[i]? := by
        rw [← ho.agrees hindex, List.getElem?_take_of_lt (by omega)]
      rw [hget, List.getElem?_map]
      cases arr.elements[i]? <;> rfl
    · rfl

def key_position (capacity : ℕ) (key : Bytes) : ℕ → ℕ :=
  slot_position capacity (json_object_key_hash key)

/-- What the hash table answers. -/
def lookup_find (slots : Probing.Slots Bytes ℕ) (capacity : ℕ) (key : Bytes) : Option ℕ :=
  Probing.find (key_position capacity) slots key capacity 0

structure Lookup (slots : Probing.Slots Bytes ℕ) (capacity : ℕ) : Prop where
  positive : 0 < capacity
  length : slots.length = capacity
  found : Probing.Found (key_position capacity) capacity slots

theorem slot_position_lt (hc : 0 < capacity) (hash i : ℕ) :
    slot_position capacity hash i < capacity := by
  have : slot_position capacity hash i ≤ capacity - 1 := Nat.and_le_right
  omega

theorem key_hash_ne_zero (key : Bytes) : json_object_key_hash key ≠ 0 := by
  simp only [json_object_key_hash]
  split
  · exact Nat.one_ne_zero
  · next h => exact h

variable {slots : Probing.Slots Bytes ℕ}

theorem index_find_eq (hl : Lookup slots capacity) (key : Bytes) :
    json_object_index_find slots capacity key = lookup_find slots capacity key := by
  have hn : ¬ (capacity = 0 ∨ json_object_key_hash key = 0) :=
    not_or.mpr ⟨hl.positive.ne', key_hash_ne_zero key⟩
  rw [json_object_index_find, json_object_index_find_hashed, if_neg hn]
  exact Probing.find_congr (fun _ => rfl)

theorem empty_lookup (hc : 0 < capacity) : Lookup (empty_slots capacity) capacity :=
  ⟨hc, List.length_replicate, Probing.found_empty _ _ _⟩

variable {n : ℕ} {key : Bytes}

theorem index_insert_lookup {slots' : Probing.Slots Bytes ℕ} {pair n' : ℕ}
    (hl : Lookup slots capacity)
    (h : json_object_index_insert slots capacity key pair n = some (slots', n')) :
    Lookup slots' capacity ∧ ∀ k, lookup_find slots' capacity k =
      if k = key then (lookup_find slots capacity key).or (some pair)
      else lookup_find slots capacity k := by
  rw [json_object_index_insert, if_neg hl.positive.ne'] at h
  obtain ⟨⟨slots'', made⟩, hi, he⟩ := Option.map_eq_some_iff.mp h
  cases he
  have hp : ∀ i, key_position capacity key i < slots.length := by
    intro i
    rw [hl.length]
    exact slot_position_lt hl.positive _ _
  obtain ⟨hf, hall⟩ := Probing.Found.insert hl.found hp hi
  exact ⟨⟨hl.positive, (Probing.insert_length hi).trans hl.length, hf⟩, hall⟩

theorem insert_members_lookup {n' : ℕ} {entries : List (Bytes × ℕ)} {slots' : Probing.Slots Bytes ℕ}
    (hl : Lookup slots capacity)
    (h : insert_members capacity entries (slots, n) = some (slots', n')) :
    Lookup slots' capacity ∧ ∀ k, lookup_find slots' capacity k =
      (lookup_find slots capacity k).or (entries.lookup k) := by
  induction entries generalizing slots n with
  | nil =>
    cases h
    exact ⟨hl, fun k => (Option.or_none).symm⟩
  | cons entry entries ih =>
    obtain ⟨key, pair⟩ := entry
    rw [insert_members] at h
    split at h
    · cases h
    · next table ht =>
      obtain ⟨slots₁, n₁⟩ := table
      obtain ⟨hl₁, hall₁⟩ := index_insert_lookup hl ht
      obtain ⟨hl', hall'⟩ := ih hl₁ h
      refine ⟨hl', fun k => ?_⟩
      rw [hall' k, hall₁ k, List.lookup_cons]
      by_cases hk : k = key
      · subst hk
        rw [if_pos rfl, beq_self_eq_true]
        cases lookup_find slots capacity k <;> rfl
      · rw [if_neg hk, beq_false_of_ne hk]

theorem keyed_lookup (pairs : List (Bytes × V)) (i : ℕ) (key : Bytes) :
    (keyed i pairs).lookup key = (list_find pairs key).map (· + i) := by
  induction pairs generalizing i with
  | nil => rfl
  | cons pair pairs ih =>
    rw [keyed, list_find, List.findIdx?_cons, List.lookup_cons]
    by_cases hk : pair.1 = key
    · subst hk
      simp
    · have hk' : (key == pair.1) = false := beq_false_of_ne (fun h => hk h.symm)
      have hk'' : (pair.1 == key) = false := beq_false_of_ne hk
      rw [hk', hk'', if_neg Bool.false_ne_true, ih (i + 1), Option.map_map]
      change Option.map _ (list_find pairs key) = Option.map _ (list_find pairs key)
      congr 1
      funext j
      simp only [Function.comp_apply]
      omega

variable {pairs : List (Bytes × V)}

theorem members_keyed {i : ℕ} {keys : List (Bytes × ℕ)} (hn : i + n = pairs.length)
    (h : ((List.range' i n).map some).mapM (member_key pairs) = some keys) :
    keys = keyed i (pairs.drop i) := by
  induction n generalizing i keys with
  | zero =>
    rw [List.drop_of_length_le (by omega)]
    cases h
    rfl
  | succ n ih =>
    have hi : i < pairs.length := by omega
    rw [List.range'_succ, List.map_cons, List.mapM_cons] at h
    obtain ⟨first, hf, h⟩ := Option.bind_eq_some_iff.mp h
    obtain ⟨rest, hr, h⟩ := Option.bind_eq_some_iff.mp h
    obtain rfl := Option.some.inj h
    rw [ih (by omega) hr, List.drop_eq_getElem_cons hi, keyed]
    rw [member_key, List.getElem?_eq_getElem hi] at hf
    obtain rfl := Option.some.inj hf
    rfl

structure ObjectIndex.Ok (pairs : List (Bytes × V)) (index : ObjectIndex) : Prop where
  room : index.members.length = index.members_capacity ∧ pairs.length ≤ index.members_capacity
  members : index.members.take pairs.length = (List.range pairs.length).map some
  table : Lookup index.lookup index.lookup_capacity
  agrees : ∀ key, lookup_find index.lookup index.lookup_capacity key = list_find pairs key

structure ObjectVal.Ok (obj : ObjectVal V) : Prop where
  size : obj.count = obj.pairs.length
  large : ∀ {index : ObjectIndex}, obj.index = some index → object_index_threshold ≤ obj.count
  index : ∀ {index : ObjectIndex}, obj.index = some index → index.Ok obj.pairs

theorem object_empty_ok : (ObjectVal.empty : ObjectVal V).Ok := ⟨rfl, nofun, nofun⟩

theorem lookup_of_pairs (hc : 0 < capacity)
    (h : insert_members capacity (keyed 0 pairs) (empty_slots capacity, 0) = some (slots, n)) :
    Lookup slots capacity ∧ ∀ key, lookup_find slots capacity key = list_find pairs key := by
  obtain ⟨hl, hall⟩ := insert_members_lookup (empty_lookup hc) h
  refine ⟨hl, fun key => ?_⟩
  rw [hall key, lookup_find, empty_slots, Probing.find_empty, Option.none_or, keyed_lookup]
  exact Option.map_id'

theorem capacity_from_pos {rounds value wanted : ℕ} (hv : 0 < value)
    (h : capacity_from rounds value wanted = some capacity) : 0 < capacity := by
  induction rounds generalizing value with
  | zero => cases h
  | succ rounds ih =>
    rw [capacity_from] at h
    split at h
    · split at h
      · cases h
      · exact ih (by omega) h
    · cases h
      exact hv

variable {obj : ObjectVal V} {index : ObjectIndex}

theorem new_index_ok (h : new_index alloc obj = some index) (hs : obj.count = obj.pairs.length) :
    index.Ok obj.pairs := by
  obtain ⟨capacity, hc, h⟩ := Option.bind_eq_some_iff.mp h
  have hpos : 0 < capacity := by
    unfold json_object_index_capacity_for at hc
    split at hc
    · cases hc
    · exact capacity_from_pos (by decide) hc
  split at h
  · cases h
  · split at h
    · cases h
    · split at h
      · cases h
      · obtain ⟨⟨slots, n⟩, hi, h⟩ := Option.bind_eq_some_iff.mp h
        obtain rfl := Option.some.inj h
        obtain ⟨hl, hall⟩ := lookup_of_pairs hpos hi
        rw [hs]
        exact ⟨⟨by simp, le_rfl⟩, List.take_of_length_le (by simp), hl, hall⟩

theorem build_index_ok (alloc : Alloc) (ho : obj.Ok) :
    (json_object_build_index alloc obj).1.Ok := by
  unfold json_object_build_index
  split
  · exact ho
  · next hcount =>
    split
    · exact ho
    · split
      · next index hi =>
        refine ⟨ho.size, fun _ => Nat.not_lt.mp hcount, fun h => ?_⟩
        obtain rfl := Option.some.inj h
        exact new_index_ok hi ho.size
      · exact ho

variable {index' : ObjectIndex}

theorem rehash_ok (hs : obj.count = obj.pairs.length)
    (hroom : index.members.length = index.members_capacity ∧ obj.pairs.length ≤ index.members_capacity)
    (hm : index.members.take obj.pairs.length = (List.range obj.pairs.length).map some)
    (h : json_object_index_rehash alloc obj index capacity = some index') :
    index'.Ok obj.pairs := by
  unfold json_object_index_rehash at h
  split at h
  · cases h
  · next hc =>
    split at h
    · cases h
    · obtain ⟨keys, hk, h⟩ := Option.bind_eq_some_iff.mp h
      obtain ⟨⟨slots, n⟩, hi, h⟩ := Option.bind_eq_some_iff.mp h
      obtain rfl := Option.some.inj h
      rw [hs, hm, List.range_eq_range'] at hk
      have hkeys := members_keyed (Nat.zero_add _) hk
      rw [List.drop_zero] at hkeys
      subst hkeys
      obtain ⟨hl, hall⟩ := lookup_of_pairs (by omega) hi
      exact ⟨hroom, hm, hl, hall⟩

theorem grow_members_room (hlen : index.members.length = index.members_capacity)
    (hle : n ≤ index.members_capacity) (h : grow_members alloc (n + 1) index = some index') :
    index'.members.length = index'.members_capacity ∧ n + 1 ≤ index'.members_capacity ∧
      index'.members.take n = index.members.take n ∧ index'.lookup = index.lookup ∧
      index'.lookup_capacity = index.lookup_capacity := by
  unfold grow_members at h
  split at h
  · next hroom =>
    obtain rfl := Option.some.inj h
    exact ⟨hlen, hroom, rfl, rfl, rfl⟩
  · split at h
    · cases h
    · simp only [Nat.add_sub_cancel] at h
      generalize (if index.members_capacity = 0 then object_index_threshold
        else index.members_capacity * 2) = capacity at h
      split at h
      · cases h
      · next hc =>
        split at h
        · cases h
        · obtain rfl := Option.some.inj h
          have hn : (index.members.take n).length = n := by
            rw [List.length_take]
            omega
          have hroom : n + 1 ≤ capacity := Nat.not_lt.mp (not_or.mp hc).1
          exact ⟨with_capacity_length (by omega), hroom, List.take_left' hn, rfl, rfl⟩

theorem list_find_concat (pairs : List (Bytes × V)) (key k : Bytes) (val : V) :
    list_find (pairs ++ [(key, val)]) k =
      if k = key then (list_find pairs key).or (some pairs.length) else list_find pairs k := by
  unfold list_find
  rw [List.findIdx?_append, List.findIdx?_singleton]
  by_cases hk : k = key
  · subst hk
    simp
  · have hk' : (key == k) = false := beq_false_of_ne (fun h => hk h.symm)
    simp [hk, hk']

theorem append_to_index_ok {val : V} {old : Option ObjectIndex} (ho : index.Ok pairs)
    (h : append_to_index alloc ⟨pairs ++ [(key, val)], old, pairs.length + 1⟩ index key = some index') :
    index'.Ok (pairs ++ [(key, val)]) := by
  have hlength : (pairs ++ [(key, val)]).length = pairs.length + 1 := by simp
  obtain ⟨index₁, hg, h⟩ := Option.bind_eq_some_iff.mp h
  obtain ⟨hlen, hle, htake, hlookup, hcap⟩ := grow_members_room ho.room.1 ho.room.2 hg
  simp only [Nat.add_sub_cancel] at h
  have hmembers : (index₁.members.set pairs.length (some pairs.length)).take (pairs.length + 1) =
      (List.range (pairs.length + 1)).map some := by
    rw [List.take_add_one, List.getElem?_set_self (by omega), List.take_set_of_le (Nat.le_refl _),
      htake, ho.members, List.range_succ, List.map_append]
    rfl
  split at h
  · split at h
    · cases h
    · refine rehash_ok hlength.symm ?_ ?_ h
      · rw [List.length_set, hlength]
        exact ⟨hlen, hle⟩
      · rw [hlength]
        exact hmembers
  · obtain ⟨⟨slots, n⟩, hi, h⟩ := Option.bind_eq_some_iff.mp h
    obtain rfl := Option.some.inj h
    simp only [hlookup, hcap] at hi ⊢
    obtain ⟨hl, hall⟩ := index_insert_lookup ho.table hi
    refine ⟨?_, ?_, ?_, fun k => ?_⟩
    · rw [List.length_set, hlength]
      exact ⟨hlen, hle⟩
    · rw [hlength]
      exact hmembers
    · exact hcap ▸ hl
    · rw [list_find_concat, ← ho.agrees, ← ho.agrees]
      exact hcap ▸ hall k

theorem index_append_ok {val : V} (ho : obj.Ok) (hcount : object_index_threshold ≤ obj.count + 1) :
    (json_object_index_append alloc
      ⟨obj.pairs ++ [(key, val)], obj.index, obj.count + 1⟩ key).Ok := by
  have hsize : obj.count + 1 = (obj.pairs ++ [(key, val)]).length := by simp [ho.size]
  unfold json_object_index_append
  split
  · next hnone =>
    refine build_index_ok alloc ⟨hsize, fun h => ?_, fun h => ?_⟩
    · cases hnone.symm.trans h
    · cases hnone.symm.trans h
  · next index hi =>
    refine ⟨hsize, fun _ => hcount, fun h => ?_⟩
    simp only [ho.size] at h
    exact append_to_index_ok (ho.index hi) h

theorem existing_pair_eq (ho : obj.Ok) (key : Bytes) :
    existing_pair obj key = list_find obj.pairs key := by
  unfold existing_pair
  split
  · next index hi =>
    rw [index_find_eq (ho.index hi).table, (ho.index hi).agrees, Option.or_self]
  · rfl

theorem list_find_modify (pairs : List (Bytes × V)) (pair : ℕ) (key : Bytes) (val : V) :
    list_find (pairs.modify pair (fun old => (old.1, val))) key = list_find pairs key := by
  induction pairs generalizing pair with
  | nil => simp
  | cons first pairs ih =>
    cases pair with
    | zero => simp [list_find, List.findIdx?_cons]
    | succ pair =>
      rw [List.modify_succ_cons, list_find, List.findIdx?_cons, list_find, List.findIdx?_cons]
      exact congrArg _ (congrArg _ (ih pair))

theorem replaced_ok (ho : obj.Ok) (pair : ℕ) (val : V) :
    ({ obj with pairs := obj.pairs.modify pair (fun old => (old.1, val)) } : ObjectVal V).Ok := by
  have hl : (obj.pairs.modify pair (fun old => (old.1, val))).length = obj.pairs.length :=
    List.length_modify _ _ _
  refine ⟨by rw [hl, ho.size], fun h => ho.large h, fun h => ?_⟩
  have hi := ho.index h
  exact ⟨hl ▸ hi.room, by rw [hl, hi.members], hi.table,
    fun key => by rw [list_find_modify, hi.agrees]⟩

theorem set_arena_ex_ok (alloc : Alloc) (key : Bytes) (val : V) (ho : obj.Ok) :
    (json_object_set_arena_ex alloc obj key val).1.Ok := by
  unfold json_object_set_arena_ex
  split
  · next pair _ => exact replaced_ok ho pair val
  · split
    · exact ho
    · simp only
      split
      · next hcount => exact index_append_ok ho hcount
      · next hcount =>
        -- An object below the threshold has no index yet.
        have hnone : ∀ {index : ObjectIndex}, obj.index ≠ some index := by
          intro index hi
          have := ho.large hi
          omega
        exact ⟨by simp [ho.size], fun h => absurd h hnone, fun h => absurd h hnone⟩

theorem list_find_value (obj : ObjectVal V) (key : Bytes) :
    (list_find obj.pairs key).bind (pair_value obj) =
      (obj.pairs.find? (fun pair => pair.1 == key)).map Prod.snd := by
  unfold pair_value list_find
  induction obj.pairs with
  | nil => rfl
  | cons pair pairs ih =>
    rw [List.findIdx?_cons, List.find?_cons]
    cases hk : pair.1 == key with
    | true => rfl
    | false =>
      rw [if_neg Bool.false_ne_true, ← ih, Option.bind_map]
      rfl

theorem object_get_hashed_eq (ho : obj.Ok) (key : Bytes) :
    json_object_get_hashed_v obj key (json_object_key_hash key) =
      (obj.pairs.find? (fun pair => pair.1 == key)).map Prod.snd := by
  rw [← list_find_value]
  unfold json_object_get_hashed_v
  split
  · next index hi =>
    have hf := index_find_eq (ho.index hi).table key
    rw [json_object_index_find, (ho.index hi).agrees] at hf
    rw [hf]
  · rfl

theorem object_get_eq (ho : obj.Ok) (key : Bytes) :
    json_object_get_v obj key = (obj.pairs.find? (fun pair => pair.1 == key)).map Prod.snd := by
  unfold json_object_get_v
  split
  · exact object_get_hashed_eq ho key
  · exact list_find_value obj key

theorem json_pair_eq (key : Bytes) (val : V) : json_pair key val = ⟨[(key, val)], none, 1⟩ := rfl

theorem members_ok {M : ObjectVal V} (hm : M.Ok) (hnone : M.index = none) (rest : List (Bytes × V)) :
    (rest.foldl (fun M pair => json_members M (json_pair pair.1 pair.2)) M).Ok := by
  induction rest generalizing M with
  | nil => exact hm
  | cons pair rest ih =>
    refine ih ⟨?_, fun h => ?_, fun h => ?_⟩ hnone
    · simp [json_members, json_pair_eq, hm.size]
    · cases hnone.symm.trans h
    · cases hnone.symm.trans h

theorem parsed_object_ok (alloc : Alloc) (pairs : List (Bytes × V)) :
    (parsed_object alloc pairs).Ok := by
  cases pairs with
  | nil => exact object_empty_ok
  | cons first rest =>
    refine build_index_ok alloc (members_ok ?_ rfl rest)
    exact set_arena_ex_ok _ _ _ object_empty_ok

theorem parsed_array_ok (vals : List (V × Alloc)) : (parsed_array vals).Ok := by
  unfold parsed_array
  generalize hstart : (ArrayVal.empty : ArrayVal V) = arr
  have ho : arr.Ok := hstart ▸ array_empty_ok
  clear hstart
  induction vals generalizing arr with
  | nil => exact ho
  | cons val vals ih => exact ih _ (array_append_ok _ _ ho)

def Container.Ok : Container V → Prop
  | .array arr => arr.Ok
  | .object obj => obj.Ok

variable {tree : List (Container V)}

theorem modify_ok {f : Container V → Container V} (ht : ∀ c ∈ tree, c.Ok)
    (hf : ∀ c : Container V, c.Ok → (f c).Ok) (target : ℕ) : ∀ c ∈ tree.modify target f, c.Ok := by
  intro c hc
  obtain ⟨i, hi⟩ := List.mem_iff_getElem?.mp hc
  rw [List.getElem?_modify] at hi
  obtain ⟨old, hold, rfl⟩ := Option.map_eq_some_iff.mp hi
  have ho := ht old (List.mem_of_getElem? hold)
  by_cases hne : target = i
  · rw [if_pos hne]
    exact hf old ho
  · rw [if_neg hne]
    exact ho

theorem concat_ok {new : Container V} (ht : ∀ c ∈ tree, c.Ok) (hn : new.Ok) :
    ∀ c ∈ tree ++ [new], c.Ok := by
  intro c hc
  rcases List.mem_append.mp hc with hc | hc
  · exact ht c hc
  · rw [List.mem_singleton.mp hc]
    exact hn

theorem on_ok {array : ArrayVal V → ArrayVal V} {object : ObjectVal V → ObjectVal V}
    (ha : ∀ arr : ArrayVal V, arr.Ok → (array arr).Ok)
    (ho : ∀ obj : ObjectVal V, obj.Ok → (object obj).Ok) (c : Container V) (hc : c.Ok) :
    (Container.on array object c).Ok := by
  cases c with
  | array arr => exact ha arr hc
  | object obj => exact ho obj hc

theorem op_step_ok (op : Op V) (ht : ∀ c ∈ tree, c.Ok) : ∀ c ∈ op_step tree op, c.Ok := by
  cases op with
  | parse_array vals => exact concat_ok ht (parsed_array_ok vals)
  | parse_object pairs alloc => exact concat_ok ht (parsed_object_ok alloc pairs)
  | create_array => exact concat_ok ht array_empty_ok
  | create_object => exact concat_ok ht object_empty_ok
  | array_add target val adopts alloc =>
    refine modify_ok ht (on_ok (fun arr ha => ?_) (fun _ ho => ho)) target
    unfold json_array_add_checked
    split
    · exact ha
    · exact array_append_ok alloc val ha
  | object_add target key val adopts alloc =>
    refine modify_ok ht (on_ok (fun _ ha => ha) (fun obj ho => ?_)) target
    unfold json_object_add_n
    split
    · exact ho
    · split
      · exact ho
      · exact set_arena_ex_ok alloc key val ho
  | object_set target key val alloc =>
    refine modify_ok ht (on_ok (fun _ ha => ha) (fun obj ho => ?_)) target
    unfold json_object_set_arena
    split
    · exact ho
    · exact set_arena_ex_ok alloc key val ho

theorem op_run_ok (ops : List (Op V)) : ∀ c ∈ op_run ops, c.Ok := by
  induction ops using List.reverseRecOn with
  | nil => exact fun c hc => absurd hc (List.not_mem_nil)
  | append_singleton ops op ih =>
    rw [op_run, List.foldl_append]
    exact op_step_ok op ih

def Container.Agrees : Container V → Prop
  | .array arr => json_array_size arr = arr.elements.length ∧
      ∀ i, json_array_get arr i = arr.elements[i]?
  | .object obj => json_object_size obj = obj.pairs.length ∧
      ∀ key, json_object_get_v obj key =
          (obj.pairs.find? (fun pair => pair.1 == key)).map Prod.snd ∧
        json_object_get_hashed_v obj key (json_object_key_hash key) =
          (obj.pairs.find? (fun pair => pair.1 == key)).map Prod.snd

theorem indexes_agree_with_lists (ops : List (Op V)) : ∀ c ∈ op_run ops, c.Agrees := by
  intro c hc
  have ho := op_run_ok ops c hc
  cases c with
  | array arr => exact ⟨ho.size, array_get_eq ho⟩
  | object obj => exact ⟨ho.size, fun key => ⟨object_get_eq ho key, object_get_hashed_eq ho key⟩⟩

/-- Seventeen members, enough for an index, the first key twice. -/
theorem indexes_agree_parsed :
    (Container.object (parsed_object .all
      (([0], 100) :: (List.range 16).map (fun i => ([i], i))))).Agrees :=
  indexes_agree_with_lists
    [.parse_object (([0], 100) :: (List.range 16).map (fun i => ([i], i))) .all] _
    (List.mem_singleton.mpr rfl)

end SaltsUtils.Json
