import SaltsUtils.Toon.ValueNodes

/-!
# Values through nodes

`toon_json_to_value` reads the value again from the nodes that `toon_json_from_value` has
made of it.
-/

set_option autoImplicit false

namespace SaltsUtils.Toon.Adapter

open PointerGraph
open Json (size_max)

mutual

inductive Same : JsonValue → JsonValue → Prop where
  | null : Same .null .null
  | bool (val : Bool) : Same (.bool val) (.bool val)
  | number {a b : Number} (h : SameNumber a b) : Same (.number a) (.number b)
  | string (str : Bytes) : Same (.string str) (.string str)
  | array {l l' : List JsonValue} (h : SameElements l l') : Same (.array l) (.array l')
  | object {l l' : List (Bytes × JsonValue)} (h : SamePairs l l') : Same (.object l) (.object l')

inductive SameElements : List JsonValue → List JsonValue → Prop where
  | nil : SameElements [] []
  | cons {v v' : JsonValue} {l l' : List JsonValue} (hv : Same v v') (hl : SameElements l l') :
      SameElements (v :: l) (v' :: l')

inductive SamePairs : List (Bytes × JsonValue) → List (Bytes × JsonValue) → Prop where
  | nil : SamePairs [] []
  | cons {key : Bytes} {v v' : JsonValue} {l l' : List (Bytes × JsonValue)} (hv : Same v v')
      (hl : SamePairs l l') : SamePairs ((key, v) :: l) ((key, v') :: l')

end

mutual

def DistinctKeys : JsonValue → Prop
  | .array elements => DistinctElements elements
  | .object pairs => (pairs.map Prod.fst).Nodup ∧ DistinctPairs pairs
  | _ => True

def DistinctElements : List JsonValue → Prop
  | [] => True
  | v :: elements => DistinctKeys v ∧ DistinctElements elements

def DistinctPairs : List (Bytes × JsonValue) → Prop
  | [] => True
  | (_, v) :: pairs => DistinctKeys v ∧ DistinctPairs pairs

end

variable {rounds : ℕ}

section
variable {utf8 : Bytes → Bool} {node_at : ℕ → ToonObject ℕ}

variable {key : Bytes}

theorem cstring_eq (h : 0 ∉ key) : cstring key = key :=
  List.takeWhile_eq_self_iff.mpr fun _ hch => decide_eq_true fun hz => h (hz ▸ hch)

theorem no_prior_key {head : Option ℕ} {earlier : List ℕ} {current : ℕ}
    (hs : Segment (next_of node_at) head earlier (some current)) (hr : earlier.length < rounds)
    (h : ∀ c ∈ earlier, c ≠ current ∧ ∃ k, (node_at c).key = some k ∧ cstring k ≠ cstring key) :
    toon_json_has_prior_key node_at current key rounds head = .ok 0 := by
  generalize hstop : some current = stop at hs
  induction hs generalizing rounds with
  | nil p =>
    subst hstop
    cases rounds with
    | zero => exact absurd hr (Nat.not_lt_zero _)
    | succ rounds => rw [toon_json_has_prior_key, if_pos rfl]
  | @cons p l stop _ ih =>
    obtain ⟨⟨hne, k, hk, hdiffer⟩, hrest⟩ := List.forall_mem_cons.mp h
    cases rounds with
    | zero => exact absurd hr (Nat.not_lt_zero _)
    | succ rounds =>
      rw [toon_json_has_prior_key, if_neg hne, hk]
      dsimp only
      rw [if_neg hdiffer]
      exact ih (Nat.lt_of_succ_lt_succ hr) hrest hstop

theorem object_add_new {pairs : List (Bytes × JsonValue)} (val : JsonValue)
    (h : key ∉ pairs.map Prod.fst) : json_object_add_n pairs key val = pairs ++ [(key, val)] := by
  have hnone : Json.list_find pairs key = none :=
    List.findIdx?_eq_none_iff.mpr fun pair hp =>
      beq_eq_false_iff_ne.mpr fun he => h (he ▸ List.mem_map_of_mem hp)
  rw [json_object_add_n, hnone]

variable {starts : List ℕ}

theorem Table.has_items {array : ToonArray ℕ} (h : Table array starts) :
    ¬ (0 < array.len ∧ array.items = none) := by
  rintro ⟨hpos, hnone⟩
  obtain hi | ⟨-, -, rfl⟩ := h.items_eq
  · rw [hi] at hnone
    cases hnone
  · exact absurd h.len_eq hpos.ne'

theorem Table.entries {array : ToonArray ℕ} (h : Table array starts) :
    array.entries = starts.map some := by
  refine List.ext_getElem? fun i => ?_
  by_cases hi : i < array.len
  · obtain ⟨p, hp⟩ : ∃ p, starts[i]? = some p :=
      ⟨_, List.getElem?_eq_getElem (h.len_eq ▸ hi)⟩
    rw [entries_item array hi, List.getElem?_map, hp, ToonArray.item]
    obtain hitems | ⟨-, -, rfl⟩ := h.items_eq
    · rw [hitems, Option.bind_some, List.getElem?_map, hp]
      rfl
    · cases hp
  · have hlength := h.len_eq
    rw [List.getElem?_eq_none (by rw [ToonArray.entries, List.length_map, List.length_range]; omega),
      List.getElem?_eq_none (by rw [List.length_map]; omega)]

/-- What the walk gives for the values up to an address. -/
def Reads (utf8 : Bytes → Bool) (node_at : ℕ → ToonObject ℕ) (to_node : ToNode ℕ)
    (depth limit : ℕ) : Prop :=
  ∀ {v : JsonValue} {lo hi : ℕ} {seen : Finset ℕ}, Laid utf8 node_at depth v lo hi → hi ≤ limit →
    DistinctKeys v → (∀ q ∈ seen, q < lo) →
    ∃ v' seen', to_node (some lo) seen = .ok (v', seen') ∧ Same v v' ∧ ∀ q ∈ seen', q < hi

variable {to_node : ToNode ℕ} {depth limit : ℕ}

theorem elements_read (hr : Reads utf8 node_at to_node depth limit) {hi : ℕ} (hl : hi ≤ limit)
    {elements : List JsonValue} {lo : ℕ} {seen : Finset ℕ} {before : List JsonValue}
    (h : LaidElements utf8 node_at depth elements starts lo hi) (hd : DistinctElements elements)
    (hseen : ∀ q ∈ seen, q < lo) (hsize : before.length + elements.length ≤ size_max) :
    ∃ l' seen', to_elements node_at to_node (starts.map some) seen before =
        .ok (before ++ l', seen') ∧ SameElements elements l' ∧ ∀ q ∈ seen', q < hi := by
  induction elements generalizing starts lo seen before with
  | nil =>
    cases h
    exact ⟨[], seen, by rw [List.append_nil]; rfl, .nil, hseen⟩
  | cons v elements ih =>
    cases h with
    | @cons _ _ mid _ _ _ starts hv hplain hrest =>
      rw [List.length_cons] at hsize
      obtain ⟨v', seen₁, hok, hsame, hseen₁⟩ := hr hv (hrest.bound.trans hl) hd.1 hseen
      have hadd : json_array_add_checked before v' = some (before ++ [v']) := if_neg (by omega)
      obtain ⟨l', seen', hloop, hsame', hseen'⟩ := @ih starts mid seen₁ (before ++ [v']) hrest hd.2
        hseen₁ (by rw [List.length_append, List.length_singleton]; omega)
      refine ⟨v' :: l', seen', ?_, .cons hsame hsame', hseen'⟩
      rw [List.map_cons, to_elements, if_neg (by rw [hplain.1, hplain.2]; decide), hok]
      dsimp only [bind, Except.bind]
      rw [hadd]
      dsimp only
      rw [hloop, List.append_assoc]
      rfl

theorem pairs_read (hr : Reads utf8 node_at to_node depth limit) {hi : ℕ} (hl : hi ≤ limit)
    (hrounds : hi < rounds) {head : Option ℕ} {pairs : List (Bytes × JsonValue)}
    {current : Option ℕ} {lo left : ℕ} {seen : Finset ℕ} {before : List (Bytes × JsonValue)}
    {earlier : List ℕ} (h : LaidPairs utf8 node_at depth pairs current lo hi)
    (hd : DistinctPairs pairs) (hkeys : (before.map Prod.fst ++ pairs.map Prod.fst).Nodup)
    (hs : Segment (next_of node_at) head earlier current)
    (hearlier : ∀ c ∈ earlier, c < lo ∧ ∃ k ∈ before.map Prod.fst, (node_at c).key = some k ∧ 0 ∉ k)
    (hlength : earlier.length ≤ lo) (hleft : hi < left + lo) (hseen : ∀ q ∈ seen, q < lo) :
    ∃ l' seen', to_pairs utf8 node_at to_node rounds head left current seen before =
        .ok (before ++ l', seen') ∧ SamePairs pairs l' ∧ ∀ q ∈ seen', q < hi := by
  induction pairs generalizing current lo left seen before earlier with
  | nil =>
    cases h
    cases left with
    | zero => omega
    | succ left => exact ⟨[], seen, by rw [List.append_nil]; rfl, .nil, hseen⟩
  | cons pair pairs ih =>
    cases h with
    | @cons _ lo mid _ key v _ hkey hzero htext hv hrest =>
      have hbound := hv.bound
      have hbound' := hrest.bound
      obtain ⟨v', seen₁, hok, hsame, hseen₁⟩ := hr hv (hrest.bound.trans hl) hd.1 hseen
      rw [List.map_cons, List.append_cons] at hkeys
      have hnew : key ∉ before.map Prod.fst := by
        have := (List.nodup_append.mp hkeys).1
        rw [List.nodup_append] at this
        exact fun hmem => this.2.2 key hmem key List.mem_cons_self rfl
      have hprior : toon_json_has_prior_key node_at lo key rounds head = .ok 0 := by
        refine no_prior_key hs (by omega) fun c hc => ?_
        obtain ⟨hlt, k, hmem, hk, hk0⟩ := hearlier c hc
        refine ⟨hlt.ne, k, hk, ?_⟩
        rw [cstring_eq hk0, cstring_eq hzero]
        exact fun he => hnew (he ▸ hmem)
      have hbefore : (before ++ [(key, v')]).map Prod.fst = before.map Prod.fst ++ [key] :=
        List.map_append
      cases left with
      | zero => omega
      | succ left =>
        obtain ⟨l', seen', hloop, hsame', hseen'⟩ := @ih (node_at lo).next mid left seen₁
          (before ++ [(key, v')]) (earlier ++ [lo]) hrest hd.2 (by rw [hbefore]; exact hkeys)
          hs.snoc (by
            intro c hc
            rw [hbefore]
            obtain hc | hc := List.mem_append.mp hc
            · obtain ⟨hlt, k, hmem, hk⟩ := hearlier c hc
              exact ⟨by omega, k, List.mem_append_left _ hmem, hk⟩
            · rw [List.mem_singleton.mp hc]
              exact ⟨hbound, key, List.mem_append_right _ List.mem_cons_self, hkey, hzero⟩)
          (by rw [List.length_append, List.length_singleton]; omega) (by omega) hseen₁
        refine ⟨(key, v') :: l', seen', ?_, .cons hsame hsame', hseen'⟩
        rw [to_pairs, hkey]
        dsimp only
        rw [cstring_eq hzero, htext]
        dsimp only [bind, Except.bind]
        rw [hprior]
        dsimp only
        rw [if_neg (not_not.mpr rfl), hok]
        dsimp only
        rw [object_add_new v' hnew, hloop, List.append_assoc]
        rfl

theorem node_reads (hrounds : limit < rounds) (levels : ℕ) {depth : ℕ}
    (hlevels : max_depth + 2 ≤ levels + depth) :
    Reads utf8 node_at (toon_json_to_node utf8 node_at rounds levels depth) depth limit := by
  induction levels generalizing depth with
  | zero =>
    intro v lo hi seen h hl hd hseen
    have hle : depth ≤ max_depth := by cases h <;> assumption
    omega
  | succ levels ih =>
    intro v lo hi seen h hl hd hseen
    have hdepth : ¬ max_depth < depth := by
      have hle : depth ≤ max_depth := by cases h <;> assumption
      omega
    have hmark : toon_json_mark_seen seen lo = .ok (insert lo seen) :=
      if_neg fun hmem => lt_irrefl lo (hseen lo hmem)
    have hmarked : ∀ q ∈ insert lo seen, q < lo + 1 := by
      intro q hq
      obtain rfl | hq := Finset.mem_insert.mp hq
      · exact Nat.lt_succ_self _
      · exact (hseen q hq).trans (Nat.lt_succ_self _)
    rw [toon_json_to_node, if_neg hdepth, hmark]
    dsimp only [bind, Except.bind]
    cases h with
    | leaf _ hleaf hpay =>
      rw [hpay]
      cases hleaf with
      | null => exact ⟨_, _, rfl, .null, hmarked⟩
      | bool val =>
        refine ⟨_, _, rfl, ?_, hmarked⟩
        cases val
        · exact .bool false
        · exact .bool true
      | @number num hfinite hexact =>
        obtain ⟨i, hi⟩ | hdouble := number_payload_cases num.value
        · rw [hi]
          exact ⟨_, _, rfl, .number (int_converts hexact hi), hmarked⟩
        · obtain ⟨num', hcreate, hsame⟩ := double_converts hfinite hexact
          rw [hdouble]
          dsimp only
          rw [if_neg (by rw [hfinite]; decide), hcreate]
          exact ⟨_, _, rfl, .number hsame, hmarked⟩
      | @string str htext =>
        dsimp only
        rw [htext]
        exact ⟨_, _, rfl, .string str, hmarked⟩
    | @array _ _ _ elements array starts _ hsize hpay htable hkids =>
      obtain ⟨l', seen', hloop, hsame, hseen'⟩ := elements_read (@ih (depth + 1) (by omega)) hl hkids
        hd hmarked (show List.length [] + elements.length ≤ size_max by
          rw [List.length_nil, Nat.zero_add]
          omega)
      rw [hpay]
      dsimp only
      rw [if_neg htable.has_items, htable.entries, hloop]
      exact ⟨_, _, rfl, .array hsame, hseen'⟩
    | @object _ _ _ pairs _ hpay hkids =>
      rw [DistinctKeys] at hd
      obtain ⟨l', seen', hloop, hsame, hseen'⟩ := pairs_read (@ih (depth + 1) (by omega)) hl
        (by omega : hi < rounds) hkids hd.2 (show (List.map Prod.fst [] ++ _).Nodup from hd.1)
        (.nil _) (List.forall_mem_nil _) (Nat.zero_le _) (show hi < rounds + (lo + 1) by omega)
        hmarked
      rw [hpay]
      rw [hloop]
      exact ⟨_, _, rfl, .object hsame, hseen'⟩

end

theorem value_reads {utf8 : Bytes → Bool} {v : JsonValue} {arena : Arena} {root : ℕ}
    (h : toon_json_from_value utf8 v = .ok (arena, root)) (hd : DistinctKeys v)
    (hr : arena.used < rounds) :
    ∃ v', toon_json_to_value utf8 arena.node_at rounds (some root) = .ok v' ∧ Same v v' := by
  obtain ⟨rfl, -, hplain, hlaid⟩ := node_made h
  obtain ⟨v', seen, hok, hsame, -⟩ := node_reads hr (max_depth + 2) (le_refl _) hlaid (le_refl _) hd
    fun q (hq : q ∈ ∅) => absurd hq (Finset.notMem_empty q)
  refine ⟨v', ?_, hsame⟩
  rw [toon_json_to_value, if_neg (by rw [hplain.1, hplain.2]; decide), hok]
  rfl

/-- A value that becomes nodes becomes itself again. Every finite graph is walked to an end,
and one that becomes a value is a tree in which each node is reached once. -/
theorem converts_both_ways (vstr_utf8_valid : Bytes → Bool) :
    (∀ (v : JsonValue) (arena : Arena) (root : ℕ),
      toon_json_from_value vstr_utf8_valid v = .ok (arena, root) → DistinctKeys v →
      ∀ rounds, arena.used < rounds →
        ∃ v', toon_json_to_value vstr_utf8_valid arena.node_at rounds (some root) = .ok v' ∧
          Same v v') ∧
    (∀ (P : Type) [Fintype P] [DecidableEq P] (node_at : P → ToonObject P) (root : Option P)
      (rounds : ℕ), Fintype.card P < rounds →
        toon_json_to_value vstr_utf8_valid node_at rounds root ≠ .error .unfinished ∧
        ∀ v, toon_json_to_value vstr_utf8_valid node_at rounds root = .ok v →
          ∃ p, root = some p ∧ IsTree node_at p) := by
  constructor
  · intro v arena root h hd rounds hr
    exact value_reads h hd hr
  · intro P _ _ node_at root rounds hr
    have hends := @value_ends P node_at _ _ vstr_utf8_valid rounds hr root
    exact ⟨fun h => hends.of_error h rfl, fun v h => hends.of_ok h⟩

/-- An object with one member, a list. -/
def list_in_object : JsonValue := .object [([97], .array [.bool true, .null])]

def children_in_a_ring (p : Fin 2) : ToonObject (Fin 2) :=
  ⟨.obj, if p = 0 then none else some [97], some (1 - p), none⟩

theorem converts_both_ways_ring :
    (∃ arena root, toon_json_from_value (fun _ => true) list_in_object = .ok (arena, root) ∧
      ∃ v', toon_json_to_value (fun _ => true) arena.node_at 5 (some root) = .ok v' ∧
        Same list_in_object v') ∧
    toon_json_to_value (fun _ => true) children_in_a_ring 3 (some 0) ≠ .error .unfinished :=
  ⟨⟨_, _, rfl, (converts_both_ways _).1 list_in_object _ _ rfl
      ⟨List.nodup_singleton _, ⟨trivial, trivial, trivial⟩, trivial⟩ 5 (by decide)⟩,
    ((converts_both_ways _).2 (Fin 2) _ _ 3 (by decide)).1⟩

end SaltsUtils.Toon.Adapter
