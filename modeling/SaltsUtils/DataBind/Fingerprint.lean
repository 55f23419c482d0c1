import SaltsUtils.Library.ByteBuffer
import SaltsUtils.Library.PrefixCode

/-!
# Fingerprints of contracts

What is fed to the hash is a word for each node: its type, its name and either its text or
its count and its items.
-/

set_option autoImplicit false

namespace SaltsUtils.DataBind
open PrefixCode

abbrev Bytes := List UInt8

/-- A text that ends with a zero byte and fits the memory. -/
@[ext] structure CString where
  bytes : Bytes
  closed : 0 ∉ bytes
  size : bytes.length + 1 < 2 ^ 64

def strlen (text : CString) : BitVec 64 := BitVec.ofNat 64 text.bytes.length

inductive ItemsType
  | root
  | list
  | map
deriving DecidableEq

def ItemsType.code : ItemsType → UInt8
  | .root => 0
  | .list => 2
  | .map => 3

inductive Node
  | null
  | string (name string_val : Option CString)
  | items (type : ItemsType) (name : Option CString) (items : List Node)
  | unknown (type : BitVec 32) (other : 4 ≤ type.toNat) (name : Option CString)

def fingerprint_max_depth : ℕ := 64

def fingerprint_domain : Bytes :=
  "SaltsUtils.DataBind.Contract.v1".toUTF8.toList

def fingerprint_u64 (ctx : Bytes) (value : BitVec 64) : Bytes :=
  ctx ++ (List.range 8).map fun i => ⟨(value >>> (i * 8)).setWidth 8⟩

def fingerprint_text (ctx : Bytes) : Option CString → Bytes
  | none => fingerprint_u64 ctx (BitVec.allOnes 64)
  | some text =>
    let ctx := fingerprint_u64 ctx (strlen text)
    if strlen text ≠ 0 then ctx ++ text.bytes else ctx

mutual
def fingerprint_node (ctx : Bytes) : Node → ℕ → Bytes × Bool
  | .null, _ => (ctx, false)
  | .string name string_val, depth =>
    if fingerprint_max_depth < depth then (ctx, false)
    else (fingerprint_text (fingerprint_text (ctx ++ [1]) name) string_val, true)
  | .items type name items, depth =>
    if fingerprint_max_depth < depth then (ctx, false)
    else
      let ctx := fingerprint_text (ctx ++ [type.code]) name
      fingerprint_items (fingerprint_u64 ctx (BitVec.ofNat 64 items.length)) items (depth + 1)
  | .unknown type _ name, depth =>
    if fingerprint_max_depth < depth then (ctx, false)
    else (fingerprint_text (ctx ++ [⟨type.setWidth 8⟩]) name, false)

def fingerprint_items (ctx : Bytes) : List Node → ℕ → Bytes × Bool
  | [], _ => (ctx, true)
  | node :: rest, depth =>
    match fingerprint_node ctx node depth with
    | (ctx, false) => (ctx, false)
    | (ctx, true) => fingerprint_items ctx rest depth
end

def fed (root : Node) : Bytes := (fingerprint_node fingerprint_domain root 0).1

def data_bind_contract_fingerprint {D : Type} (blake2b : Bytes → D) (root : Node) : Option D :=
  if (fingerprint_node fingerprint_domain root 0).2 then some (blake2b (fed root)) else none

mutual
def Node.Known : Node → Prop
  | .null => False
  | .string _ _ => True
  | .items _ _ items => ItemsKnown items
  | .unknown _ _ _ => False

def ItemsKnown : List Node → Prop
  | [] => True
  | node :: rest => node.Known ∧ ItemsKnown rest
end

mutual
def Node.Counted : Node → Prop
  | .items _ _ items => items.length < 2 ^ 64 ∧ ItemsCounted items
  | _ => True

def ItemsCounted : List Node → Prop
  | [] => True
  | node :: rest => node.Counted ∧ ItemsCounted rest
end

mutual
def Node.height : Node → ℕ
  | .items _ _ items => items_height items
  | _ => 0

def items_height : List Node → ℕ
  | [] => 0
  | node :: rest => max (node.height + 1) (items_height rest)
end

theorem itemsKnown_iff (items : List Node) : ItemsKnown items ↔ ∀ n ∈ items, n.Known := by
  induction items with
  | nil => simp [ItemsKnown]
  | cons node rest ih => simp [ItemsKnown, ih]

theorem itemsCounted_iff (items : List Node) : ItemsCounted items ↔ ∀ n ∈ items, n.Counted := by
  induction items with
  | nil => simp [ItemsCounted]
  | cons node rest ih => simp [ItemsCounted, ih]

theorem items_height_le (items : List Node) (m : ℕ) :
    items_height items ≤ m ↔ ∀ n ∈ items, n.height + 1 ≤ m := by
  induction items with
  | nil => simp [items_height]
  | cons node rest ih => simp [items_height, ih]

mutual
theorem Node.every {P : Node → Prop} (null : P .null) (string : ∀ name s, P (.string name s))
    (items : ∀ type name l, (∀ n ∈ l, P n) → P (.items type name l))
    (unknown : ∀ type h name, P (.unknown type h name)) : ∀ n, P n
  | .null => null
  | .string name s => string name s
  | .items type name l => items type name l (items_every null string items unknown l)
  | .unknown type h name => unknown type h name

theorem items_every {P : Node → Prop} (null : P .null) (string : ∀ name s, P (.string name s))
    (items : ∀ type name l, (∀ n ∈ l, P n) → P (.items type name l))
    (unknown : ∀ type h name, P (.unknown type h name)) : ∀ l : List Node, ∀ n ∈ l, P n
  | [] => fun _ h => nomatch h
  | node :: rest => List.forall_mem_cons.2
    ⟨Node.every null string items unknown node, items_every null string items unknown rest⟩
end

structure ContractTree where
  node : Node
  known : node.Known
  counted : node.Counted
  shallow : node.height ≤ fingerprint_max_depth

def word_u64 (value : BitVec 64) : Bytes := LittleEndian.split 8 value

def word_text : Option CString → Bytes
  | none => word_u64 (BitVec.allOnes 64)
  | some text => word_u64 (strlen text) ++ text.bytes

mutual
def word : Node → Bytes
  | .string name string_val => 1 :: (word_text name ++ word_text string_val)
  | .items type name items =>
    type.code :: (word_text name ++ (word_u64 (BitVec.ofNat 64 items.length) ++ words items))
  | .null | .unknown _ _ _ => []

def words : List Node → Bytes
  | [] => []
  | node :: rest => word node ++ words rest
end

theorem words_eq (items : List Node) : words items = items.flatMap word := by
  induction items with
  | nil => rfl
  | cons node rest ih => rw [words, ih, List.flatMap_cons]

theorem fingerprint_u64_eq (ctx : Bytes) (value : BitVec 64) :
    fingerprint_u64 ctx value = ctx ++ word_u64 value := by
  simp [fingerprint_u64, word_u64, List.range_succ, LittleEndian.split]

theorem strlen_toNat (text : CString) : (strlen text).toNat = text.bytes.length := by
  have := text.size
  rw [strlen, BitVec.toNat_ofNat, Nat.mod_eq_of_lt (by omega)]

theorem fingerprint_text_eq (ctx : Bytes) (text : Option CString) :
    fingerprint_text ctx text = ctx ++ word_text text := by
  cases text with
  | none => exact fingerprint_u64_eq ctx _
  | some text =>
    simp only [fingerprint_text, word_text, fingerprint_u64_eq]
    split_ifs with h
    · rw [List.append_assoc]
    · have hlen : text.bytes.length = 0 := by
        rw [← strlen_toNat, not_not.1 h]
        rfl
      rw [List.length_eq_zero_iff.1 hlen, List.append_nil]

def Feeds (ctx word : Bytes) (good : Prop) (fed : Bytes × Bool) : Prop :=
  (good → fed = (ctx ++ word, true)) ∧ (¬ good → fed.2 = false)

theorem fingerprint_items_feeds {items : List Node} {depth : ℕ}
    (h : ∀ n ∈ items, ∀ ctx, Feeds ctx (word n) (n.Known ∧ depth + n.height ≤ fingerprint_max_depth)
      (fingerprint_node ctx n depth)) (ctx : Bytes) :
    Feeds ctx (words items) (∀ n ∈ items, n.Known ∧ depth + n.height ≤ fingerprint_max_depth)
      (fingerprint_items ctx items depth) := by
  induction items generalizing ctx with
  | nil => exact ⟨fun _ => by simp [fingerprint_items, words], fun h => absurd (by simp) h⟩
  | cons node rest ih =>
    obtain ⟨hgood, hbad⟩ := h node List.mem_cons_self ctx
    rw [fingerprint_items]
    by_cases hn : node.Known ∧ depth + node.height ≤ fingerprint_max_depth
    · have hrest := ih (fun n hm => h n (List.mem_cons_of_mem node hm)) (ctx ++ word node)
      rw [hgood hn]
      constructor
      · intro hall
        simp only [hrest.1 (List.forall_mem_cons.1 hall).2, words, List.append_assoc]
      · intro hnot
        exact hrest.2 fun hall => hnot (List.forall_mem_cons.2 ⟨hn, hall⟩)
    · refine ⟨fun hall => absurd (hall node List.mem_cons_self) hn, fun _ => ?_⟩
      have hfalse := hbad hn
      generalize fingerprint_node ctx node depth = fed at hfalse ⊢
      obtain ⟨ctx', ok⟩ := fed
      cases hfalse
      rfl

theorem fingerprint_node_feeds (n : Node) (ctx : Bytes) (depth : ℕ) :
    Feeds ctx (word n) (n.Known ∧ depth + n.height ≤ fingerprint_max_depth)
      (fingerprint_node ctx n depth) := by
  induction n using Node.every generalizing ctx depth with
  | null => exact ⟨fun h => absurd h.1 (by simp [Node.Known]), fun _ => rfl⟩
  | string name s =>
    rw [fingerprint_node]
    split_ifs with hd
    · exact ⟨fun h => absurd h.2 (by simp [Node.height, hd]), fun _ => rfl⟩
    · refine ⟨fun _ => ?_, fun h => absurd ⟨trivial, by simpa [Node.height] using hd⟩ h⟩
      simp [fingerprint_text_eq, word]
  | items type name l ih =>
    have hheight : depth + (Node.items type name l).height ≤ fingerprint_max_depth ↔
        depth ≤ fingerprint_max_depth ∧
          ∀ n ∈ l, depth + 1 + n.height ≤ fingerprint_max_depth := by
      rw [Node.height]
      constructor
      · intro h
        refine ⟨by omega, fun n hn => ?_⟩
        have := (items_height_le l _).1 le_rfl n hn
        omega
      · rintro ⟨hd, hall⟩
        have := (items_height_le l (fingerprint_max_depth - depth)).2 fun n hn => by
          have := hall n hn
          omega
        omega
    rw [fingerprint_node, hheight, Node.Known, itemsKnown_iff]
    split_ifs with hd
    · exact ⟨fun h => absurd h.2.1 (by omega), fun _ => rfl⟩
    · have hfeeds := fingerprint_items_feeds (fun n hn ctx => ih n hn ctx (depth + 1))
        (fingerprint_u64 (fingerprint_text (ctx ++ [type.code]) name) (BitVec.ofNat 64 l.length))
      constructor
      · intro h
        refine (hfeeds.1 fun n hn => ⟨h.1 n hn, h.2.2 n hn⟩).trans ?_
        simp only [fingerprint_u64_eq, fingerprint_text_eq, word, List.append_assoc,
          List.cons_append, List.nil_append]
      · intro h
        exact hfeeds.2 fun hall =>
          h ⟨fun n hn => (hall n hn).1, by omega, fun n hn => (hall n hn).2⟩
  | unknown type other name =>
    rw [fingerprint_node]
    refine ⟨fun h => absurd h.1 (by simp [Node.Known]), fun _ => ?_⟩
    split_ifs <;> rfl

theorem fed_eq (t : ContractTree) : fed t.node = fingerprint_domain ++ word t.node := by
  have h := (fingerprint_node_feeds t.node fingerprint_domain 0).1
    ⟨t.known, by rw [Nat.zero_add]; exact t.shallow⟩
  rw [fed, h]

theorem word_u64_decodes (v : BitVec 64) : Decodes word_u64 (fun _ => True) v := by
  refine decodes_of_length (fun v => LittleEndian.length_split 8 v) (fun a b h _ => ?_) v
  rw [← LittleEndian.join_split_width (n := 8) a (by omega),
    ← LittleEndian.join_split_width (n := 8) b (by omega)]
  exact congrArg (LittleEndian.join 64) h

theorem strlen_ne_allOnes (text : CString) : strlen text ≠ BitVec.allOnes 64 := by
  intro h
  have hlen := strlen_toNat text
  rw [h, BitVec.toNat_allOnes] at hlen
  have := text.size
  omega

theorem word_text_decodes (text : Option CString) : Decodes word_text (fun _ => True) text := by
  intro text' r s _ h
  cases text with
  | none =>
    cases text' with
    | none => exact ⟨rfl, List.append_cancel_left h⟩
    | some text' =>
      rw [word_text, word_text, List.append_assoc] at h
      exact absurd (word_u64_decodes _ _ _ _ trivial h).1.symm (strlen_ne_allOnes text')
  | some text =>
    cases text' with
    | none =>
      rw [word_text, word_text, List.append_assoc] at h
      exact absurd (word_u64_decodes _ _ _ _ trivial h).1 (strlen_ne_allOnes text)
    | some text' =>
      rw [word_text, word_text, List.append_assoc, List.append_assoc] at h
      obtain ⟨hlen, h⟩ := word_u64_decodes _ _ _ _ trivial h
      have hlength : text.bytes.length = text'.bytes.length := by
        rw [← strlen_toNat, hlen, strlen_toNat]
      obtain ⟨hbytes, h⟩ := List.append_inj h hlength
      exact ⟨congrArg some (CString.ext hbytes), h⟩

theorem code_injective {a b : ItemsType} (h : a.code = b.code) : a = b := by
  cases a <;> cases b <;> first | rfl | exact absurd h (by decide)

theorem code_ne_string (a : ItemsType) : a.code ≠ 1 := by
  cases a <;> decide

theorem word_decodes (n : Node) (hn : n.Known ∧ n.Counted) :
    Decodes word (fun b => b.Known ∧ b.Counted) n := by
  induction n using Node.every with
  | null => exact absurd hn.1 (by simp [Node.Known])
  | unknown type other name => exact absurd hn.1 (by simp [Node.Known])
  | string name text =>
    intro b r s hb h
    cases b with
    | null => exact absurd hb.1 (by simp [Node.Known])
    | unknown type other name => exact absurd hb.1 (by simp [Node.Known])
    | string name' text' =>
      simp only [word, List.cons_append, List.append_assoc, List.cons.injEq, true_and] at h
      obtain ⟨rfl, htext⟩ := word_text_decodes _ _ _ _ trivial h
      obtain ⟨rfl, hrest⟩ := word_text_decodes _ _ _ _ trivial htext
      exact ⟨rfl, hrest⟩
    | items type name' l =>
      simp only [word, List.cons_append, List.cons.injEq] at h
      exact absurd h.1.symm (code_ne_string type)
  | items type name l ih =>
    intro b r s hb h
    cases b with
    | null => exact absurd hb.1 (by simp [Node.Known])
    | unknown type other name => exact absurd hb.1 (by simp [Node.Known])
    | string name' text' =>
      simp only [word, List.cons_append, List.cons.injEq] at h
      exact absurd h.1 (code_ne_string type)
    | items type' name' l' =>
      simp only [word, List.cons_append, List.append_assoc, List.cons.injEq] at h
      obtain rfl := code_injective h.1
      obtain ⟨rfl, hcounted⟩ := word_text_decodes _ _ _ _ trivial h.2
      obtain ⟨hcount, hitems⟩ := word_u64_decodes _ _ _ _ trivial hcounted
      rw [Node.Known, Node.Counted, itemsKnown_iff, itemsCounted_iff] at hn hb
      have hlength : l.length = l'.length := by
        have := congrArg BitVec.toNat hcount
        rwa [BitVec.toNat_ofNat, BitVec.toNat_ofNat, Nat.mod_eq_of_lt hn.2.1,
          Nat.mod_eq_of_lt hb.2.1] at this
      rw [words_eq, words_eq] at hitems
      obtain ⟨rfl, hrest⟩ := flatMap_decodes
        (fun n hm => ih n hm ⟨hn.1 n hm, hn.2.2 n hm⟩)
        (fun n hm => ⟨hb.1 n hm, hb.2.2 n hm⟩) hlength r s hitems
      exact ⟨rfl, hrest⟩

theorem tree_of_fed {s t : ContractTree} (h : fed s.node <+: fed t.node) : s.node = t.node := by
  rw [fed_eq, fed_eq, List.prefix_append_right_inj] at h
  exact eq_of_prefix (word_decodes s.node ⟨s.known, s.counted⟩) ⟨t.known, t.counted⟩ h

theorem fingerprint_distinguishes {D : Type} (blake2b : Bytes → D) (s t : ContractTree) :
    (fed s.node = fed t.node ↔ s.node = t.node) ∧
      ¬ (fed s.node <+: fed t.node ∧ fed s.node ≠ fed t.node) ∧
      ¬ (fed t.node <+: fed s.node ∧ fed t.node ≠ fed s.node) ∧
      data_bind_contract_fingerprint blake2b s.node = some (blake2b (fed s.node)) ∧
      ∀ n : Node, data_bind_contract_fingerprint blake2b n = none ↔
        ¬ n.Known ∨ fingerprint_max_depth < n.height := by
  have hnone : ∀ n : Node, data_bind_contract_fingerprint blake2b n = none ↔
      ¬ n.Known ∨ fingerprint_max_depth < n.height := by
    intro n
    have hfeeds := fingerprint_node_feeds n fingerprint_domain 0
    rw [Nat.zero_add] at hfeeds
    rw [← not_le, ← not_and_or, data_bind_contract_fingerprint]
    by_cases hgood : n.Known ∧ n.height ≤ fingerprint_max_depth
    · simp [hfeeds.1 hgood, hgood]
    · simp [hfeeds.2 hgood, hgood]
  refine ⟨⟨fun h => tree_of_fed (h ▸ List.prefix_refl _), congrArg fed⟩,
    fun h => h.2 (congrArg fed (tree_of_fed h.1)),
    fun h => h.2 (congrArg fed (tree_of_fed h.1)), ?_, hnone⟩
  have hfeeds := (fingerprint_node_feeds s.node fingerprint_domain 0).1
    ⟨s.known, by rw [Nat.zero_add]; exact s.shallow⟩
  rw [data_bind_contract_fingerprint, hfeeds, if_pos rfl]

end SaltsUtils.DataBind
