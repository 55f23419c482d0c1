import SaltsUtils.Json.Numbers
import SaltsUtils.Toon.Graphs

/-!
# Numbers and values as nodes
-/

set_option autoImplicit false

/-!
## Numbers through nodes

A number that the adapter lets through is the same double afterwards, and the same integer
if its text is one. An integer is let through only if doubles have it exactly.
-/

namespace SaltsUtils.Toon.Adapter

open Binary64

def Number.integer (num : Number) : Option ℤ := num.lexeme.bind Decimal.integer

def SameNumber (a b : Number) : Prop :=
  a.value = b.value ∧ ∀ n, a.integer = some n → b.integer = some n

theorem memcmp_value {as bs : Bytes} (hlength : as.length = bs.length)
    (ha : ∀ ch ∈ as, 48 ≤ ch ∧ ch ≤ 57) (hb : ∀ ch ∈ bs, 48 ≤ ch ∧ ch ≤ 57)
    (h : memcmp_above as bs = false) : Decimal.value as ≤ Decimal.value bs := by
  induction as generalizing bs with
  | nil => exact Nat.zero_le _
  | cons a as ih =>
    cases bs with
    | nil => cases hlength
    | cons b bs =>
      have hlength' := Nat.succ.inj hlength
      obtain ⟨ha, has⟩ := List.forall_mem_cons.mp ha
      obtain ⟨hb, hbs⟩ := List.forall_mem_cons.mp hb
      rw [memcmp_above] at h
      rw [Decimal.value_cons, Decimal.value_cons, hlength']
      split_ifs at h with hab
      · have := ih hlength' has hbs h
        rw [hab]
        omega
      · have hlt : a < b := by
          have := of_decide_eq_false h
          omega
        have hval := Decimal.value_lt has
        have hstep : (a - 48 + 1) * 10 ^ bs.length ≤ (b - 48) * 10 ^ bs.length :=
          Nat.mul_le_mul_right _ (by omega)
        rw [hlength'] at hval
        rw [Nat.add_mul] at hstep
        omega

theorem digits_exact {digits : Bytes} (hd : ∀ ch ∈ digits, 48 ≤ ch ∧ ch ≤ 57)
    (hlong : ¬ exact_integer_text.length < (digits.dropWhile (· == 48)).length)
    (h : ¬ (digits.dropWhile (· == 48)).length < exact_integer_text.length →
      memcmp_above (digits.dropWhile (· == 48)) exact_integer_text = false) :
    Decimal.value digits ≤ 2 ^ 53 := by
  have hkept : ∀ ch ∈ digits.dropWhile (· == 48), 48 ≤ ch ∧ ch ≤ 57 :=
    fun ch hch => hd ch ((List.dropWhile_sublist _).subset hch)
  rw [← Decimal.value_dropWhile]
  generalize digits.dropWhile (· == 48) = kept at *
  have hlimit : exact_integer_text.length = 16 := rfl
  by_cases hshort : kept.length < exact_integer_text.length
  · have hlt := Decimal.value_lt hkept
    have hpow : 10 ^ kept.length ≤ 10 ^ 15 := Nat.pow_le_pow_right (by decide) (by omega)
    omega
  · exact memcmp_value (by omega) hkept (by decide) (h hshort)

theorem integer_exact {num : Number} (h : toon_json_integer_token_exceeds_exact_double num = false)
    {n : ℤ} (hn : num.integer = some n) : n.natAbs ≤ 2 ^ 53 := by
  obtain ⟨text, htext, hn⟩ := Option.bind_eq_some_iff.mp hn
  rw [toon_json_integer_token_exceeds_exact_double, htext] at h
  have hcheck : ∀ {digits : Bytes} {m : ℕ}, Decimal.natural digits = some m →
      (if digits.any (fun ch => ch = 46 || ch = 101 || ch = 69) then false
        else
          let kept := digits.dropWhile (· == 48)
          if kept.length < exact_integer_text.length then false
          else if exact_integer_text.length < kept.length then true
          else memcmp_above kept exact_integer_text) = false → m ≤ 2 ^ 53 := by
    intro digits m hm h
    obtain ⟨-, hd, rfl⟩ := Decimal.natural_eq_some hm
    have hany : ¬ digits.any (fun ch => ch = 46 || ch = 101 || ch = 69) = true := by
      rw [List.any_eq_true]
      rintro ⟨ch, hch, hbad⟩
      have := hd ch hch
      simp only [Bool.or_eq_true, decide_eq_true_eq] at hbad
      omega
    dsimp only at h
    split_ifs at h with hshort hlong
    · exact digits_exact hd (by omega) fun hne => absurd hshort hne
    · exact digits_exact hd hlong fun _ => h
  obtain ⟨digits, m, rfl, hm, rfl⟩ | ⟨m, hm, rfl⟩ := Decimal.integer_cases hn
  · have := hcheck hm h
    omega
  · cases text with
    | nil => cases hm
    | cons ch rest =>
      have hch := (Decimal.natural_eq_some hm).2.1 ch List.mem_cons_self
      dsimp only at h
      rw [if_neg (by omega : ch ≠ 45)] at h
      have := hcheck hm h
      omega

theorem integer_value {num : Number} (h : toon_json_integer_token_exceeds_exact_double num = false)
    {n : ℤ} (hn : num.integer = some n) : num.value.value = some (n : ℚ) := by
  obtain ⟨text, htext, hi⟩ := Option.bind_eq_some_iff.mp hn
  exact num.exact text htext n hi (integer_exact h hn)

theorem double_of_int_eq {d : Double} {i : Int32}
    (hzero : (d.eq (double_of_int 0) && d.signbit) = false) (h : (double_of_int i).eq d = true) :
    d = double_of_int i := by
  cases d with
  | nan => cases h
  | infinity negative => cases negative <;> cases h
  | finite negative q hq =>
    have hvalue : signed negative q = (i.toInt : ℚ) := by
      rw [← Double.eq_finite h, Double.signed_natAbs]
    obtain ⟨hmag, hsign⟩ := signed_eq_int hq.nonneg hvalue
    have hneg : negative = decide (i.toInt < 0) := by
      cases negative with
      | false =>
        rw [if_neg Bool.false_ne_true] at hsign
        exact (decide_eq_false (by omega)).symm
      | true =>
        rw [if_pos rfl] at hsign
        by_cases hi : i.toInt = 0
        · rw [hi] at hmag
          have hq0 : q = 0 := hmag
          subst hq0
          exact absurd hzero (by simp [Double.eq, Double.le, double_of_int, Double.ofInt, signed,
            Double.signbit])
        · exact (decide_eq_true (by omega)).symm
    subst hmag hneg
    rfl

theorem int_converts {num : Number} {i : Int32}
    (hexact : toon_json_integer_token_exceeds_exact_double num = false)
    (h : number_payload num.value = .int i) : SameNumber num (json_create_int64 i) := by
  rw [number_payload] at h
  split_ifs at h with hc
  simp only [Bool.and_eq_true, Bool.not_eq_true'] at hc
  obtain ⟨⟨⟨hzero, -⟩, -⟩, heq⟩ := hc
  rw [Payload.int.inj h] at heq
  have hvalue := double_of_int_eq hzero heq
  refine ⟨hvalue, fun n hn => ?_⟩
  have hn' := integer_value hexact hn
  rw [hvalue, double_of_int, Double.value_ofInt] at hn'
  have hi : i.toInt = n := by exact_mod_cast Option.some.inj hn'
  rw [← hi]
  exact integer_integer_text i.toInt

theorem double_converts {num : Number} (hfinite : num.value.isfinite = true)
    (hexact : toon_json_integer_token_exceeds_exact_double num = false) :
    ∃ num', json_create_number num.value = some num' ∧ SameNumber num num' := by
  have hlength : ¬ (num.value.text.length = 0 ∨ 64 ≤ num.value.text.length) := by
    cases hv : num.value with
    | nan => rw [hv] at hfinite; cases hfinite
    | infinity negative => rw [hv] at hfinite; cases hfinite
    | finite negative q hq =>
      obtain ⟨hpos, hle⟩ := magnitude_text_length hq
      have hsign : (sign_text negative).length ≤ 1 := by cases negative <;> decide
      rw [Double.text, List.length_append]
      omega
  refine ⟨_, if_neg hlength, rfl, fun n hn => ?_⟩
  have hle := integer_exact hexact hn
  exact Double.integer_text (integer_value hexact hn) (by omega)

theorem number_payload_cases (d : Double) :
    (∃ i, number_payload d = .int i) ∨ number_payload d = .double d := by
  rw [number_payload]
  split_ifs
  · exact .inl ⟨_, rfl⟩
  · exact .inr rfl

/-!
## Values in an arena

The nodes that `toon_json_from_value` makes lie in the arena in the order of the values,
each before its children and those before the next sibling.
-/

open Json (size_max)

section
variable (utf8 : Bytes → Bool)

/-- The payload of the node of a value without children. -/
inductive Leaf : JsonValue → Payload ℕ → Prop where
  | null : Leaf .null .null
  | bool (val : Bool) : Leaf (.bool val) (.bool (if val then 1 else 0))
  | number {num : Number} (hfinite : num.value.isfinite = true)
      (hexact : toon_json_integer_token_exceeds_exact_double num = false) :
      Leaf (.number num) (number_payload num.value)
  | string {str : Bytes} (h : toon_json_validate_text utf8 (some str) = .ok str) :
      Leaf (.string str) (.string (some str))

structure Table (array : ToonArray ℕ) (starts : List ℕ) : Prop where
  len_eq : array.len = starts.length
  items_eq : array.items = some (starts.map some) ∨
    array.items = none ∧ array.capacity = 0 ∧ starts = []

variable (node_at : ℕ → ToonObject ℕ)

mutual

/-- A value that takes the addresses from one to another. -/
inductive Laid : ℕ → JsonValue → ℕ → ℕ → Prop where
  | leaf {depth lo : ℕ} {v : JsonValue} {payload : Payload ℕ} (hd : depth ≤ max_depth)
      (hleaf : Leaf utf8 v payload) (h : (node_at lo).payload = payload) : Laid depth v lo (lo + 1)
  | array {depth lo hi : ℕ} {elements : List JsonValue} {array : ToonArray ℕ} {starts : List ℕ}
      (hd : depth ≤ max_depth) (hsize : elements.length ≤ size_max / 8)
      (h : (node_at lo).payload = .list array) (ht : Table array starts)
      (hkids : LaidElements (depth + 1) elements starts (lo + 1) hi) :
      Laid depth (.array elements) lo hi
  | object {depth lo hi : ℕ} {pairs : List (Bytes × JsonValue)} (hd : depth ≤ max_depth)
      (h : (node_at lo).payload = .obj)
      (hkids : LaidPairs (depth + 1) pairs (node_at lo).child (lo + 1) hi) :
      Laid depth (.object pairs) lo hi

inductive LaidElements : ℕ → List JsonValue → List ℕ → ℕ → ℕ → Prop where
  | nil {depth lo : ℕ} : LaidElements depth [] [] lo lo
  | cons {depth lo mid hi : ℕ} {v : JsonValue} {elements : List JsonValue} {starts : List ℕ}
      (hv : Laid depth v lo mid) (hplain : Plain node_at lo)
      (hrest : LaidElements depth elements starts mid hi) :
      LaidElements depth (v :: elements) (lo :: starts) lo hi

inductive LaidPairs : ℕ → List (Bytes × JsonValue) → Option ℕ → ℕ → ℕ → Prop where
  | nil {depth lo : ℕ} : LaidPairs depth [] none lo lo
  | cons {depth lo mid hi : ℕ} {key : Bytes} {v : JsonValue} {pairs : List (Bytes × JsonValue)}
      (hkey : (node_at lo).key = some key) (hzero : 0 ∉ key)
      (htext : toon_json_validate_text utf8 (some key) = .ok key) (hv : Laid depth v lo mid)
      (hrest : LaidPairs depth pairs (node_at lo).next mid hi) :
      LaidPairs depth ((key, v) :: pairs) (some lo) lo hi

end

end

section
variable {utf8 : Bytes → Bool} {node_at node_at' : ℕ → ToonObject ℕ}

mutual

theorem Laid.bound {depth lo hi : ℕ} {v : JsonValue} : Laid utf8 node_at depth v lo hi → lo < hi
  | .leaf .. => Nat.lt_succ_self lo
  | .array _ _ _ _ hkids => hkids.bound
  | .object _ _ hkids => hkids.bound

theorem LaidElements.bound {depth lo hi : ℕ} {elements : List JsonValue} {starts : List ℕ} :
    LaidElements utf8 node_at depth elements starts lo hi → lo ≤ hi
  | .nil => le_refl lo
  | .cons hv _ hrest => hv.bound.le.trans hrest.bound

theorem LaidPairs.bound {depth lo hi : ℕ} {pairs : List (Bytes × JsonValue)} {head : Option ℕ} :
    LaidPairs utf8 node_at depth pairs head lo hi → lo ≤ hi
  | .nil => le_refl lo
  | .cons _ _ _ hv hrest => hv.bound.le.trans hrest.bound

end

/-- The memory of a value, all but the key and the successor of its first node. -/
structure Kept (node_at node_at' : ℕ → ToonObject ℕ) (lo hi : ℕ) : Prop where
  payload : (node_at' lo).payload = (node_at lo).payload
  child : (node_at' lo).child = (node_at lo).child
  rest : ∀ q, lo < q → q < hi → node_at' q = node_at q

theorem Kept.of_eq {lo hi : ℕ} (hle : lo < hi) (h : ∀ q, lo ≤ q → q < hi → node_at' q = node_at q) :
    Kept node_at node_at' lo hi := by
  have hlo := h lo (le_refl lo) hle
  exact ⟨by rw [hlo], by rw [hlo], fun q hq hq' => h q hq.le hq'⟩

mutual

theorem Laid.keep {depth lo hi : ℕ} {v : JsonValue} (h : Laid utf8 node_at depth v lo hi)
    (hk : Kept node_at node_at' lo hi) : Laid utf8 node_at' depth v lo hi :=
  match h with
  | .leaf hd hleaf hpay => .leaf hd hleaf (hk.payload.trans hpay)
  | .array hd hsize hpay ht hkids =>
    .array hd hsize (hk.payload.trans hpay) ht (hkids.keep hk.rest)
  | .object hd hpay hkids => by
    refine .object hd (hk.payload.trans hpay) ?_
    rw [hk.child]
    exact hkids.keep hk.rest

theorem LaidElements.keep {depth lo hi : ℕ} {elements : List JsonValue} {starts : List ℕ}
    (h : LaidElements utf8 node_at depth elements starts lo hi)
    (hk : ∀ q, lo ≤ q → q < hi → node_at' q = node_at q) :
    LaidElements utf8 node_at' depth elements starts lo hi :=
  match h with
  | .nil => .nil
  | .cons hv hplain hrest => by
    have hlo := hk lo (le_refl lo) (hv.bound.trans_le hrest.bound)
    refine .cons (hv.keep (.of_eq hv.bound fun q hq hq' => hk q hq (hq'.trans_le hrest.bound))) ?_
      (hrest.keep fun q hq hq' => hk q (hv.bound.le.trans hq) hq')
    rw [Plain, hlo]
    exact hplain

theorem LaidPairs.keep {depth lo hi : ℕ} {pairs : List (Bytes × JsonValue)} {head : Option ℕ}
    (h : LaidPairs utf8 node_at depth pairs head lo hi)
    (hk : ∀ q, lo ≤ q → q < hi → node_at' q = node_at q) :
    LaidPairs utf8 node_at' depth pairs head lo hi :=
  match h with
  | .nil => .nil
  | .cons hkey hzero htext hv hrest => by
    have hlo := hk lo (le_refl lo) (hv.bound.trans_le hrest.bound)
    refine .cons (by rw [hlo]; exact hkey) hzero htext
      (hv.keep (.of_eq hv.bound fun q hq hq' => hk q hq (hq'.trans_le hrest.bound))) ?_
    rw [hlo]
    exact hrest.keep fun q hq hq' => hk q (hv.bound.le.trans hq) hq'

end

end

theorem Table.push {array : ToonArray ℕ} {starts : List ℕ} (h : Table array starts) (item : ℕ)
    (hroom : array.len < array.capacity) :
    Table (TOONc_listPushArena array item) (starts ++ [item]) ∧
      (TOONc_listPushArena array item).len = array.len + 1 ∧
      (TOONc_listPushArena array item).capacity = array.capacity := by
  have hitems : array.items = some (starts.map some) := by
    obtain hi | ⟨-, hc, -⟩ := h.items_eq
    · exact hi
    · omega
  rw [TOONc_listPushArena, if_neg (not_le.mpr hroom)]
  refine ⟨⟨?_, .inl ?_⟩, rfl, rfl⟩
  · rw [List.length_append, List.length_singleton, ← h.len_eq]
  · dsimp only
    rw [hitems, Option.map_some, h.len_eq, List.map_append]
    congr 2
    exact List.take_of_length_le (List.length_map some).le

section
variable (utf8 : Bytes → Bool)

/-- A value has been put behind the nodes there were. -/
structure Made (arena arena' : Arena) (depth : ℕ) (v : JsonValue) (node : ℕ) : Prop where
  node_eq : node = arena.used
  kept : ∀ q < arena.used, arena'.node_at q = arena.node_at q
  plain : Plain arena'.node_at node
  laid : Laid utf8 arena'.node_at depth v node arena'.used

/-- The pointer that the next child of an object is put into. -/
def relink (last : Option ℕ) (old : ToonObject ℕ) (child : Option ℕ) : ToonObject ℕ :=
  match last with
  | some _ => { old with next := child }
  | none => { old with child := child }

def link_of (last : Option ℕ) (old : ToonObject ℕ) : Option ℕ :=
  match last with
  | some _ => old.next
  | none => old.child

theorem relink_none {last : Option ℕ} {old : ToonObject ℕ} (h : link_of last old = none) :
    relink last old none = old := by
  obtain ⟨payload, key, child, next⟩ := old
  cases last with
  | none =>
    cases h
    rfl
  | some last =>
    cases h
    rfl

theorem link_child_eq (arena : Arena) (node : ℕ) (last : Option ℕ) (child : ℕ) :
    link_child arena node last child =
      arena.write (last.getD node) fun old => relink last old (some child) := by
  cases last <;> rfl

end

variable {utf8 : Bytes → Bool}

theorem new_node_at (arena : Arena) (payload : Payload ℕ) :
    (TOONc_newObjectArena arena payload).1.node_at arena.used = ⟨payload, none, none, none⟩ :=
  Function.update_self ..

theorem new_node_kept (arena : Arena) (payload : Payload ℕ) {q : ℕ} (h : q < arena.used) :
    (TOONc_newObjectArena arena payload).1.node_at q = arena.node_at q :=
  Function.update_of_ne h.ne _ _

theorem leaf_made {arena : Arena} {depth : ℕ} {v : JsonValue} {payload : Payload ℕ}
    (hd : ¬ max_depth < depth) (h : Leaf utf8 v payload) :
    Made utf8 arena (TOONc_newObjectArena arena payload).1 depth v
      (TOONc_newObjectArena arena payload).2 := by
  have hnode := new_node_at arena payload
  refine ⟨rfl, fun q hq => new_node_kept arena payload hq, ?_, ?_⟩
  · rw [Plain, show (TOONc_newObjectArena arena payload).2 = arena.used from rfl, hnode]
    exact ⟨rfl, rfl⟩
  · refine .leaf (not_lt.mp hd) h ?_
    rw [show (TOONc_newObjectArena arena payload).2 = arena.used from rfl, hnode]

theorem write_kept (arena : Arena) (node : ℕ) (update : ToonObject ℕ → ToonObject ℕ) {q : ℕ}
    (h : q ≠ node) : (arena.write node update).node_at q = arena.node_at q :=
  Function.update_of_ne h _ _

theorem write_at (arena : Arena) (node : ℕ) (update : ToonObject ℕ → ToonObject ℕ) :
    (arena.write node update).node_at node = update (arena.node_at node) :=
  Function.update_self ..

theorem text_same {text : Option Bytes} {text' : Bytes}
    (h : toon_json_validate_text utf8 text = .ok text') : text = some text' :=
  (text_ends utf8 text).of_ok h

theorem new_list {arena arena' : Arena} {count node : ℕ} (hcount : ¬ count > size_max / 8)
    (h : TOONc_newListObjArena arena count = some (arena', node)) :
    ∃ array, Table array [] ∧ array.len = 0 ∧ count ≤ array.capacity ∧
      TOONc_newObjectArena arena (.list array) = (arena', node) := by
  rw [TOONc_newListObjArena] at h
  split_ifs at h with hpos hcap
  · rw [TOONc_listReserveArena, if_neg (not_le.mpr hpos), if_neg hcount] at h hcap
    exact ⟨_, ⟨rfl, .inl rfl⟩, rfl, not_lt.mp hcap, Option.some.inj h⟩
  · exact ⟨_, ⟨rfl, .inr ⟨rfl, rfl, rfl⟩⟩, rfl, by omega, Option.some.inj h⟩

structure ElementsMade (arena arena' : Arena) (depth node : ℕ) (starts : List ℕ)
    (elements : List JsonValue) : Prop where
  kept : ∀ q < arena.used, q ≠ node → arena'.node_at q = arena.node_at q
  plain : Plain arena.node_at node → Plain arena'.node_at node
  laid : ∃ array starts', (arena'.node_at node).payload = .list array ∧
    Table array (starts ++ starts') ∧
    LaidElements utf8 arena'.node_at depth elements starts' arena.used arena'.used

structure PairsMade (arena arena' : Arena) (depth node : ℕ) (last : Option ℕ)
    (pairs : List (Bytes × JsonValue)) : Prop where
  kept : ∀ q < arena.used, q ≠ last.getD node → arena'.node_at q = arena.node_at q
  laid : ∃ head, arena'.node_at (last.getD node) = relink last (arena.node_at (last.getD node)) head ∧
    LaidPairs utf8 arena'.node_at depth pairs head arena.used arena'.used

mutual

theorem node_made {arena arena' : Arena} {depth node : ℕ} : ∀ {v : JsonValue},
    toon_json_from_node utf8 arena depth v = .ok (arena', node) →
      Made utf8 arena arena' depth v node
  | .null, h => by
    rw [toon_json_from_node] at h
    obtain ⟨hd, h⟩ := guard_eq_ok.mp h
    cases h
    exact leaf_made hd .null
  | .bool val, h => by
    rw [toon_json_from_node] at h
    obtain ⟨hd, h⟩ := guard_eq_ok.mp h
    cases h
    exact leaf_made hd (.bool val)
  | .number num, h => by
    rw [toon_json_from_node] at h
    obtain ⟨hd, h⟩ := guard_eq_ok.mp h
    obtain ⟨hnum, h⟩ := guard_eq_ok.mp h
    rw [not_or, Bool.not_eq_false, Bool.not_eq_true] at hnum
    cases h
    exact leaf_made hd (.number hnum.1 hnum.2)
  | .string str, h => by
    rw [toon_json_from_node] at h
    obtain ⟨hd, h⟩ := guard_eq_ok.mp h
    obtain ⟨text, htext, h⟩ := bind_eq_ok.mp h
    cases Option.some.inj (text_same htext)
    cases h
    exact leaf_made hd (.string htext)
  | .array elements, h => by
    rw [toon_json_from_node] at h
    obtain ⟨hd, h⟩ := guard_eq_ok.mp h
    obtain ⟨hsize, h⟩ := guard_eq_ok.mp h
    split at h
    · cases h
    next arena₁ node₁ hnew =>
    obtain ⟨array, htable, hlen, hcap, hnew⟩ := new_list hsize hnew
    cases hnew
    obtain ⟨arena₂, hloop, h⟩ := bind_eq_ok.mp h
    cases h
    have hnode := new_node_at arena (.list array)
    obtain ⟨hkept, hplain, array', starts, hpay, htable', hlaid⟩ :=
      elements_made hloop (Nat.lt_succ_self _) (congrArg ToonObject.payload hnode) htable (by omega)
    refine ⟨rfl, fun q hq => ?_, hplain ⟨congrArg ToonObject.key hnode, congrArg ToonObject.next hnode⟩,
      .array (not_lt.mp hd) (not_lt.mp hsize) hpay htable' hlaid⟩
    exact (hkept q (Nat.lt_succ_of_lt hq) hq.ne).trans (new_node_kept arena _ hq)
  | .object pairs, h => by
    rw [toon_json_from_node] at h
    obtain ⟨hd, h⟩ := guard_eq_ok.mp h
    obtain ⟨arena₂, hloop, h⟩ := bind_eq_ok.mp h
    cases h
    have hnode := new_node_at arena .obj
    obtain ⟨hkept, head, htarget, hlaid⟩ :=
      pairs_made hloop (Nat.lt_succ_self _) (congrArg ToonObject.child hnode)
    have hobj : arena'.node_at arena.used = ⟨.obj, none, head, none⟩ :=
      htarget.trans (congrArg (relink none · head) hnode)
    refine ⟨rfl, fun q hq => ?_, by rw [Plain, hobj]; exact ⟨rfl, rfl⟩,
      .object (not_lt.mp hd) (by rw [hobj]) (by rw [hobj]; exact hlaid)⟩
    exact (hkept q (Nat.lt_succ_of_lt hq) hq.ne).trans (new_node_kept arena _ hq)

theorem elements_made {arena arena' : Arena} {depth node : ℕ} {array : ToonArray ℕ}
    {starts : List ℕ} : ∀ {elements : List JsonValue},
    from_elements utf8 arena depth node elements = .ok arena' → node < arena.used →
      (arena.node_at node).payload = .list array → Table array starts →
      array.len + elements.length ≤ array.capacity →
      @ElementsMade utf8 arena arena' depth node starts elements
  | [], h, _, hpay, htable, _ => by
    rw [from_elements] at h
    cases h
    exact ⟨fun q _ _ => rfl, id, array, [], hpay, by rw [List.append_nil]; exact htable, .nil⟩
  | v :: elements, h, hnode, hpay, htable, hroom => by
    rw [from_elements] at h
    obtain ⟨⟨after, item⟩, hv, h⟩ := bind_eq_ok.mp h
    obtain ⟨rfl, hkept, hplain, hlaid⟩ := node_made hv
    have hbound := hlaid.bound
    have hbefore := hkept node hnode
    have hlist : list_of (after.node_at node) = array := by rw [hbefore, list_of, hpay]
    have hlist' : list_of (arena.node_at node) = array := by rw [list_of, hpay]
    rw [List.length_cons] at hroom
    obtain ⟨hpush, hlen, hcap⟩ := htable.push arena.used (by omega : array.len < array.capacity)
    dsimp only at h
    rw [hlist, hlist', if_neg (by omega)] at h
    have hwrite := write_at after node fun old =>
      { old with payload := .list (TOONc_listPushArena array arena.used) }
    obtain ⟨hkept', hplain', array', starts', hpay', htable', hlaid'⟩ :=
      elements_made h (hnode.trans hbound) (by rw [hwrite]) hpush (by omega)
    have hsame : ∀ q < after.used, q ≠ node → arena'.node_at q = after.node_at q := fun q hq hne => by
      rw [hkept' q hq hne, write_kept after node _ hne]
    refine ⟨fun q hq hne => ?_, fun hp => hplain' ?_, array', arena.used :: starts', hpay', ?_,
      .cons (hlaid.keep (.of_eq hbound fun q hq hq' => hsame q hq' (by omega))) ?_ hlaid'⟩
    · rw [hsame q (hq.trans hbound) hne, hkept q hq]
    · rw [Plain, hwrite, hbefore]
      exact hp
    · rw [List.append_cons]
      exact htable'
    · rw [Plain, hsame arena.used hbound hnode.ne']
      exact hplain

theorem pairs_made {arena arena' : Arena} {depth node : ℕ} {last : Option ℕ} :
    ∀ {pairs : List (Bytes × JsonValue)},
    from_pairs utf8 arena depth node last pairs = .ok arena' → last.getD node < arena.used →
      link_of last (arena.node_at (last.getD node)) = none →
      @PairsMade utf8 arena arena' depth node last pairs
  | [], h, _, hnone => by
    rw [from_pairs] at h
    cases h
    exact ⟨fun q _ _ => rfl, none, (relink_none hnone).symm, .nil⟩
  | (key, v) :: pairs, h, htarget, _ => by
    rw [from_pairs] at h
    obtain ⟨-, h⟩ := guard_eq_ok.mp h
    obtain ⟨text, htext, h⟩ := bind_eq_ok.mp h
    cases Option.some.inj (text_same htext)
    obtain ⟨hzero, h⟩ := guard_eq_ok.mp h
    obtain ⟨⟨after, child⟩, hv, h⟩ := bind_eq_ok.mp h
    obtain ⟨rfl, hkept, hplain, hlaid⟩ := node_made hv
    have hbound := hlaid.bound
    dsimp only at h
    rw [link_child_eq] at h
    generalize ht : last.getD node = target at *
    have hchild : ((after.write arena.used fun old => { old with key := some key }).write target
        fun old => relink last old (some arena.used)).node_at arena.used =
          { after.node_at arena.used with key := some key } := by
      rw [write_kept _ target _ htarget.ne', write_at]
    obtain ⟨hkept', head, hhead, hlaid'⟩ := pairs_made h hbound
      ((congrArg ToonObject.next hchild).trans hplain.2)
    have hnode : arena'.node_at arena.used =
        ⟨(after.node_at arena.used).payload, some key, (after.node_at arena.used).child, head⟩ :=
      hhead.trans (congrArg (relink (some arena.used) · head) hchild)
    have hsame : ∀ q < after.used, q ≠ arena.used → q ≠ target →
        arena'.node_at q = after.node_at q := fun q hq hne hne' => by
      rw [hkept' q hq hne, write_kept _ target _ hne', write_kept after arena.used _ hne]
    have hval : Laid utf8 arena'.node_at depth v arena.used after.used :=
      hlaid.keep ⟨by rw [hnode], by rw [hnode],
        fun q hq hq' => hsame q hq' hq.ne' (by omega)⟩
    have hrest : LaidPairs utf8 arena'.node_at depth pairs (arena'.node_at arena.used).next
        after.used arena'.used := by
      rw [hnode]
      exact hlaid'
    refine ⟨fun q hq hne => ?_, some arena.used, ?_,
      .cons (by rw [hnode]) hzero htext hval hrest⟩
    · rw [ht] at hne
      rw [hsame q (hq.trans hbound) hq.ne hne, hkept q hq]
    · rw [ht, hkept' target (htarget.trans hbound) htarget.ne, write_at,
        write_kept after arena.used _ htarget.ne, hkept target htarget]

end

end SaltsUtils.Toon.Adapter
