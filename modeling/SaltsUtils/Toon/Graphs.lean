import SaltsUtils.Library.Outcome
import SaltsUtils.Toon.Adapter

/-!
# The graphs that become values

`toon_json_to_value` comes to an end on every finite graph.
-/

set_option autoImplicit false

namespace SaltsUtils.Toon.Adapter

open PointerGraph

variable {P : Type} (node_at : P → ToonObject P)

def next_of (p : P) : Option P := (node_at p).next

def child_of (p : P) (i : ℕ) : Option P :=
  match (node_at p).payload with
  | .list array => array.entries[i]?.join
  | .obj => nth (next_of node_at) (node_at p).child i
  | _ => none

def Plain (p : P) : Prop := (node_at p).key = none ∧ (node_at p).next = none

def HasKey (p : P) : Prop := ∃ key, (node_at p).key = some key

def KeysDiffer (p q : P) : Prop :=
  ∀ k l, (node_at p).key = some k → (node_at q).key = some l → cstring k ≠ cstring l

/-- What a walk demands of the children of a node. -/
structure WellFormed (p : P) : Prop where
  items : ∀ array, (node_at p).payload = .list array → ∀ i < array.len,
    ∃ c, array.item i = some c ∧ Plain node_at c
  keys : (node_at p).payload = .obj → ∀ i c,
    nth (next_of node_at) (node_at p).child i = some c → HasKey node_at c
  distinct : (node_at p).payload = .obj → ∀ i j c d, i < j →
    nth (next_of node_at) (node_at p).child i = some c →
    nth (next_of node_at) (node_at p).child j = some d → KeysDiffer node_at c d

def Fine (depth : ℕ) (p : P) : Prop := depth ≤ max_depth ∧ WellFormed node_at p

structure IsTree (root : P) : Prop where
  plain : Plain node_at root
  once : ∀ path path' q, follow (child_of node_at) root path = some q →
    follow (child_of node_at) root path' = some q → path = path'
  shallow : ∀ path q, follow (child_of node_at) root path = some q → path.length ≤ max_depth
  well_formed : ∀ path q, follow (child_of node_at) root path = some q → WellFormed node_at q

abbrev Walks [DecidableEq P] (depth : ℕ) (kids : List P) (before after : Finset P) : Prop :=
  Walked (child_of node_at) (Fine node_at) depth kids before after

variable {node_at}

theorem entries_item (array : ToonArray P) {i : ℕ} (h : i < array.len) :
    array.entries[i]? = some (array.item i) := by
  rw [ToonArray.entries, List.getElem?_map, List.getElem?_range h]
  rfl

abbrev Ends {α : Type} (Q : α → Prop) (x : Except Halt α) : Prop := Meets (· ≠ .unfinished) Q x

theorem text_ends (utf8 : Bytes → Bool) (text : Option Bytes) :
    Ends (fun text' => text = some text') (toon_json_validate_text utf8 text) := by
  cases text with
  | none => exact Halt.noConfusion
  | some text =>
    rw [toon_json_validate_text]
    split_ifs
    · exact Halt.noConfusion
    · exact rfl
    · exact Halt.noConfusion

section
variable [DecidableEq P]

theorem mark_ends (seen : Finset P) (p : P) :
    Ends (fun after => p ∉ seen ∧ after = insert p seen) (toon_json_mark_seen seen p) := by
  rw [toon_json_mark_seen]
  split_ifs with h
  · exact Halt.noConfusion
  · exact ⟨h, rfl⟩

theorem prior_key_ends {head : Option P} {earlier : List P} {current : P} {key : Bytes} {rounds : ℕ}
    (hs : Segment (next_of node_at) head earlier (some current)) (hr : earlier.length < rounds) :
    Ends (fun duplicate => duplicate = 0 → current ∉ earlier →
      ∀ c ∈ earlier, ∀ k, (node_at c).key = some k → cstring k ≠ cstring key)
      (toon_json_has_prior_key node_at current key rounds head) := by
  generalize hstop : some current = stop at hs
  induction hs generalizing rounds with
  | nil p =>
    subst hstop
    cases rounds with
    | zero => exact absurd hr (Nat.not_lt_zero _)
    | succ rounds =>
      rw [toon_json_has_prior_key, if_pos rfl]
      exact fun _ _ c hc => nomatch hc
  | @cons p l stop _ ih =>
    cases rounds with
    | zero => exact absurd hr (Nat.not_lt_zero _)
    | succ rounds =>
      rw [toon_json_has_prior_key]
      split_ifs with hp
      · exact fun _ hnew => absurd (hp ▸ List.mem_cons_self) hnew
      · split
        · exact fun h => nomatch h
        · next k hk =>
          split_ifs with hsame
          · exact fun h => nomatch h
          · refine (ih (Nat.lt_of_succ_lt_succ hr) hstop).mono fun d hall hd hnew => ?_
            refine List.forall_mem_cons.mpr ⟨fun k' hk' => ?_, ?_⟩
            · rw [hk] at hk'
              cases hk'
              exact hsame
            · exact hall hd fun hmem => hnew (List.mem_cons_of_mem p hmem)

variable {depth : ℕ} {to_node : ToNode P}

theorem elements_end
    (hw : ∀ c seen, Ends (fun r => Walks node_at depth [c] seen r.2) (to_node (some c) seen))
    (items : List (Option P)) (seen : Finset P) (elements : List JsonValue) :
    Ends (fun r => ∃ kids, items = kids.map some ∧ Walks node_at depth kids seen r.2 ∧
      ∀ c ∈ kids, Plain node_at c) (to_elements node_at to_node items seen elements) := by
  induction items generalizing seen elements with
  | nil => exact ⟨[], rfl, .nil _, fun c hc => nomatch hc⟩
  | cons item items ih =>
    cases item with
    | none => exact Halt.noConfusion
    | some item =>
      rw [to_elements]
      split_ifs with hplain
      · exact Halt.noConfusion
      rw [not_or, Option.not_isSome_iff_eq_none, Option.not_isSome_iff_eq_none] at hplain
      refine Meets.bind (hw item seen) fun r hr => ?_
      dsimp only
      split
      · exact Halt.noConfusion
      · refine (ih _ _).mono ?_
        rintro r' ⟨kids, rfl, hkids, hall⟩
        exact ⟨item :: kids, rfl, hr.cons hkids, List.forall_mem_cons.mpr ⟨hplain, hall⟩⟩

theorem pairs_end [Fintype P] (utf8 : Bytes → Bool) {rounds : ℕ} (hrounds : Fintype.card P < rounds)
    (hw : ∀ c seen, Ends (fun r => Walks node_at depth [c] seen r.2) (to_node (some c) seen))
    {head : Option P} (left : ℕ) (current : Option P) (seen : Finset P)
    (pairs : List (Bytes × JsonValue)) {earlier : List P}
    (hs : Segment (next_of node_at) head earlier current) (hseen : ∀ c ∈ earlier, c ∈ seen)
    (hlength : earlier.length ≤ seen.card) (hleft : Fintype.card P < left + seen.card) :
    Ends (fun r => ∃ kids, Segment (next_of node_at) current kids none ∧
      Walks node_at depth kids seen r.2 ∧ (∀ c ∈ kids, HasKey node_at c) ∧
      kids.Pairwise (KeysDiffer node_at) ∧ ∀ c ∈ earlier, ∀ d ∈ kids, KeysDiffer node_at c d)
      (to_pairs utf8 node_at to_node rounds head left current seen pairs) := by
  induction left generalizing current seen pairs earlier with
  | zero =>
    have := Finset.card_le_univ seen
    omega
  | succ left ih =>
    cases current with
    | none =>
      exact ⟨[], .nil _, .nil _, List.forall_mem_nil _, .nil, fun c _ => List.forall_mem_nil _⟩
    | some current =>
      rw [to_pairs]
      split
      · exact Halt.noConfusion
      next key hkey =>
      refine Meets.bind (text_ends utf8 _) fun text _ => ?_
      have hcard := Finset.card_le_univ seen
      refine Meets.bind (prior_key_ends hs (by omega)) fun duplicate hprior => ?_
      split_ifs with hdup
      · exact Halt.noConfusion
      refine Meets.bind (hw current seen) fun r hr => ?_
      obtain ⟨hin, hout⟩ := hr.root_mem
      have hgrow := hr.card_lt
      have hnew : current ∉ earlier := fun hmem => hout (hseen current hmem)
      have hdiffer := hprior (not_not.mp hdup) hnew
      have hin' : ∀ c ∈ earlier ++ [current], c ∈ r.2 := by
        intro c hc
        obtain hc | hc := List.mem_append.mp hc
        · exact hr.grows (hseen c hc)
        · rw [List.mem_singleton.mp hc]
          exact hin
      refine (ih _ _ _ hs.snoc hin' ?_ (by omega)).mono ?_
      · rw [List.length_append, List.length_singleton]
        omega
      · rintro r' ⟨kids, hseg, hkids, hkeys, hpair, hcross⟩
        refine ⟨current :: kids, .cons hseg, hr.cons hkids,
          List.forall_mem_cons.mpr ⟨⟨key, hkey⟩, hkeys⟩, List.pairwise_cons.mpr ⟨?_, hpair⟩, ?_⟩
        · exact hcross current (List.mem_append_right _ List.mem_cons_self)
        · intro c hc
          refine List.forall_mem_cons.mpr ⟨fun k l hk hl => ?_, ?_⟩
          · rw [hkey] at hl
            cases hl
            exact hdiffer c hc k hk
          · exact hcross c (List.mem_append_left _ hc)

def Payload.IsLeaf : Payload P → Prop
  | .list _ => False
  | .obj => False
  | _ => True

theorem leaf_walked {p : P} {seen : Finset P} {payload : Payload P} (hp : p ∉ seen)
    (hd : ¬ max_depth < depth) (hpay : (node_at p).payload = payload) (h : payload.IsLeaf) :
    Walks node_at depth [p] seen (insert p seen) := by
  have hlist : ∀ array, (node_at p).payload ≠ .list array := by
    intro array hne
    rw [← hpay, hne] at h
    exact h
  have hobj : (node_at p).payload ≠ .obj := by
    intro hne
    rw [← hpay, hne] at h
    exact h
  have hchild : ∀ i, child_of node_at p i = ([] : List P)[i]? := by
    intro i
    rw [child_of]
    split
    · next array h => exact absurd h (hlist array)
    · next h => exact absurd h hobj
    · rfl
  exact .node hchild hp ⟨not_lt.mp hd, fun array h => absurd h (hlist array),
    fun h => absurd h hobj, fun h => absurd h hobj⟩ (.nil _)

theorem list_walked {p : P} {seen after : Finset P} {array : ToonArray P} {kids : List P}
    (hp : p ∉ seen) (hd : ¬ max_depth < depth) (hpay : (node_at p).payload = .list array)
    (hitems : array.entries = kids.map some)
    (hkids : Walks node_at (depth + 1) kids (insert p seen) after)
    (hplain : ∀ c ∈ kids, Plain node_at c) : Walks node_at depth [p] seen after := by
  have hchild : ∀ i, child_of node_at p i = kids[i]? := by
    intro i
    rw [child_of, hpay]
    dsimp only
    rw [hitems, List.getElem?_map]
    cases kids[i]? <;> rfl
  refine .node hchild hp ⟨not_lt.mp hd, ?_, ?_, ?_⟩ hkids
  · intro array' h i hi
    rw [hpay] at h
    cases h
    have hitem := entries_item array hi
    rw [hitems, List.getElem?_map] at hitem
    obtain ⟨c, hc, hitem⟩ := Option.map_eq_some_iff.mp hitem
    exact ⟨c, hitem.symm, hplain c (List.mem_of_getElem? hc)⟩
  · exact fun h => nomatch hpay.symm.trans h
  · exact fun h => nomatch hpay.symm.trans h

theorem obj_walked {p : P} {seen after : Finset P} {kids : List P} (hp : p ∉ seen)
    (hd : ¬ max_depth < depth) (hpay : (node_at p).payload = .obj)
    (hseg : Segment (next_of node_at) (node_at p).child kids none)
    (hkids : Walks node_at (depth + 1) kids (insert p seen) after)
    (hkeys : ∀ c ∈ kids, HasKey node_at c) (hpair : kids.Pairwise (KeysDiffer node_at)) :
    Walks node_at depth [p] seen after := by
  have hchild : ∀ i, child_of node_at p i = kids[i]? := by
    intro i
    rw [child_of, hpay]
    exact hseg.nth_eq i
  refine .node hchild hp ⟨not_lt.mp hd, ?_, ?_, ?_⟩ hkids
  · exact fun array h => nomatch hpay.symm.trans h
  · intro _ i c hc
    rw [hseg.nth_eq] at hc
    exact hkeys c (List.mem_of_getElem? hc)
  · intro _ i j c d hij hc hd
    rw [hseg.nth_eq] at hc hd
    obtain ⟨hi, rfl⟩ := List.getElem?_eq_some_iff.mp hc
    obtain ⟨hj, rfl⟩ := List.getElem?_eq_some_iff.mp hd
    exact List.pairwise_iff_getElem.mp hpair i j hi hj hij

theorem node_ends [Fintype P] (utf8 : Bytes → Bool) {rounds : ℕ}
    (hrounds : Fintype.card P < rounds) (levels : ℕ) {depth : ℕ} (hl : max_depth + 2 ≤ levels + depth)
    (hd : depth ≤ max_depth + 1) (p : P) (seen : Finset P) :
    Ends (fun r => Walks node_at depth [p] seen r.2)
      (toon_json_to_node utf8 node_at rounds levels depth (some p) seen) := by
  induction levels generalizing depth p seen with
  | zero => omega
  | succ levels ih =>
    rw [toon_json_to_node]
    split_ifs with hdepth
    · exact Halt.noConfusion
    have hw := @ih (depth + 1) (by omega) (by omega)
    refine Meets.bind (mark_ends seen p) ?_
    rintro _ ⟨hp, rfl⟩
    split
    · next h => exact leaf_walked hp hdepth h trivial
    · next h => exact leaf_walked hp hdepth h trivial
    · next h => exact leaf_walked hp hdepth h trivial
    · next h =>
      split_ifs
      · exact Halt.noConfusion
      · split
        · exact Halt.noConfusion
        · exact leaf_walked hp hdepth h trivial
    · next h =>
      exact Meets.bind (text_ends utf8 _) fun _ _ => leaf_walked hp hdepth h trivial
    · next array h =>
      split_ifs
      · exact Halt.noConfusion
      · refine Meets.bind (elements_end hw _ _ _) ?_
        rintro r ⟨kids, hitems, hkids, hplain⟩
        exact list_walked hp hdepth h hitems hkids hplain
    · next h =>
      refine Meets.bind (pairs_end utf8 hrounds hw _ _ _ _ (.nil _) (List.forall_mem_nil _)
        (Nat.zero_le _) (by omega)) ?_
      rintro r ⟨kids, hseg, hkids, hkeys, hpair, -⟩
      exact obj_walked hp hdepth h hseg hkids hkeys hpair
    · exact Halt.noConfusion

theorem value_ends [Fintype P] (utf8 : Bytes → Bool) {rounds : ℕ}
    (hrounds : Fintype.card P < rounds) (root : Option P) :
    Ends (fun _ => ∃ p, root = some p ∧ IsTree node_at p)
      (toon_json_to_value utf8 node_at rounds root) := by
  cases root with
  | none => exact Halt.noConfusion
  | some p =>
    rw [toon_json_to_value]
    split_ifs with hplain
    · exact Halt.noConfusion
    rw [not_or, Option.not_isSome_iff_eq_none, Option.not_isSome_iff_eq_none] at hplain
    refine Meets.bind (node_ends utf8 hrounds (max_depth + 2) (le_refl _) (Nat.zero_le _) p ∅) ?_
    intro r hr
    refine ⟨p, rfl, hplain, ?_, ?_, ?_⟩
    · exact fun path path' q h h' => (hr.once 0 path 0 path' q h h').2
    · intro path q h
      have := (hr.found 0 path q h).2.2.1
      omega
    · exact fun path q h => (hr.found 0 path q h).2.2.2

end

end SaltsUtils.Toon.Adapter
