import Mathlib.Algebra.Ring.Nat
import Mathlib.Tactic.SplitIfs

/-!
# Logical type expressions
-/

set_option autoImplicit false

namespace SaltsUtils.DataBind.TypeRef

abbrev Bytes := List UInt8

def ascii (text : String) : Bytes := text.toList.map fun c => c.toNat.toUInt8

def max_depth : ℕ := 32
def max_nodes : ℕ := 128
def max_bytes : ℕ := 4096

inductive IdlCollectionKind
  | none
  | array
  | list
  | set
  | map
  | group
deriving DecidableEq

/-- The spans of an expression by their bytes. -/
structure IdlTypeRef where
  collection_kind : IdlCollectionKind
  name : Bytes
  arguments : List Bytes
deriving DecidableEq

/-- `current` holds the bytes up to `end`. -/
structure IdlTypeRefCursor where
  nodes : ℕ
  current : Bytes
deriving DecidableEq

def type_name_start (value : UInt8) : Bool :=
  value == 95 || (97 ≤ value && value ≤ 122) || (65 ≤ value && value ≤ 90)

def type_name_continue (value : UInt8) : Bool :=
  type_name_start value || (48 ≤ value && value ≤ 57)

def type_constructor (name : Bytes) : IdlCollectionKind :=
  if name = ascii "list" then .list
  else if name = ascii "set" then .set
  else if name = ascii "map" then .map
  else .none

def arity (kind : IdlCollectionKind) : ℕ := if kind = .map then 2 else 1

def arguments_read (read : IdlTypeRefCursor → Option (IdlTypeRef × IdlTypeRefCursor)) :
    ℕ → IdlTypeRefCursor → Option (List Bytes × IdlTypeRefCursor)
  | 0, cursor => some ([], cursor)
  | left + 1, cursor =>
    (read cursor).bind fun (_, after) =>
      match after.current with
      | [] => none
      | c :: rest =>
        if c = if left = 0 then 62 else 44 then
          (arguments_read read left ⟨after.nodes, rest⟩).map fun (arguments, last) =>
            (cursor.current.take (cursor.current.length - after.current.length) :: arguments, last)
        else none

/-- At depth `max_depth + 1 - levels`. -/
def type_ref_read : ℕ → IdlTypeRefCursor → Option (IdlTypeRef × IdlTypeRefCursor)
  | 0, _ => none
  | levels + 1, cursor =>
    if max_nodes ≤ cursor.nodes then none
    else
      match cursor.current with
      | [] => none
      | c :: text =>
        if type_name_start c then
          let name := c :: text.takeWhile type_name_continue
          let after := text.dropWhile type_name_continue
          if after.head? = some 60 then
            let kind := type_constructor name
            if kind = .none then none
            else
              (arguments_read (type_ref_read levels) (arity kind) ⟨cursor.nodes + 1, after.tail⟩).map
                fun (arguments, last) => (⟨kind, name, arguments⟩, last)
          else some (⟨.none, name, []⟩, ⟨cursor.nodes + 1, after⟩)
        else none

def idl_type_ref_parse (text : Bytes) : Option IdlTypeRef :=
  if text = [] ∨ max_bytes < text.length then none
  else
    (type_ref_read max_depth ⟨0, text⟩).bind fun (result, cursor) =>
      if cursor.current = [] then some result else none

inductive IdlDataKind
  | message
  | composite
  | group
  | enum
  | union
deriving DecidableEq

structure IdlField where
  name : Option Bytes := none
  type_name : Option Bytes := none
  collection_kind : IdlCollectionKind := .none
  inner_type : Option Bytes := none
  key_type : Option Bytes := none
  value_type : Option Bytes := none

structure IdlDataDecl where
  kind : IdlDataKind
  name : Option Bytes := none
  fields : List IdlField := []

structure IdlContract where
  data : List IdlDataDecl

def logical_builtins : List String :=
  ["bool", "int8_t", "int8", "i8", "int16_t", "int16", "i16", "int32_t", "int32", "i32",
   "int64_t", "int64", "i64", "uint8_t", "uint8", "u8", "byte", "uint16_t", "uint16", "u16",
   "uint32_t", "uint32", "u32", "uint64_t", "uint64", "u64", "float", "f32", "double", "f64",
   "string", "bytes", "uuid", "datetime", "date", "time", "duration", "decimal", "bigint",
   "money", "varint"]

def idl_logical_builtin_type (name : Bytes) : Bool :=
  logical_builtins.any fun builtin => ascii builtin == name

variable (contract : IdlContract)

def idl_find_named_data (name : Bytes) : Option IdlDataDecl :=
  contract.data.find? fun decl => decl.name == some name

/-- The message in a buffer of 256 bytes. -/
def idl_type_error (owner field : Option Bytes) (reason : String) (type : Bytes) : Bytes :=
  (ascii "Data '" ++ owner.getD (ascii "<unnamed>") ++ ascii "' field '" ++
    field.getD (ascii "<unnamed>") ++ ascii "': " ++ ascii reason ++ ascii " '" ++
    type.take 64 ++ ascii "'").take 255

inductive TypeExpr
  | name (text : Bytes)
  | list (item : TypeExpr)
  | set (item : TypeExpr)
  | map (key value : TypeExpr)

namespace TypeExpr

def kind : TypeExpr → IdlCollectionKind
  | name _ => .none
  | list _ => .list
  | set _ => .set
  | map _ _ => .map

def arguments : TypeExpr → List TypeExpr
  | name _ => []
  | list t | set t => [t]
  | map k v => [k, v]

def text : TypeExpr → Bytes
  | name n => n
  | list t => ascii "list<" ++ t.text ++ [62]
  | set t => ascii "set<" ++ t.text ++ [62]
  | map k v => ascii "map<" ++ k.text ++ 44 :: v.text ++ [62]

/-- A letter or an underscore, then letters, underscores and digits. -/
def IsName : Bytes → Prop
  | [] => False
  | c :: rest => type_name_start c = true ∧ ∀ d ∈ rest, type_name_continue d = true

def Named : TypeExpr → Prop
  | name n => IsName n
  | list t | set t => t.Named
  | map k v => k.Named ∧ v.Named

def depth : TypeExpr → ℕ
  | name _ => 1
  | list t | set t => t.depth + 1
  | map k v => max k.depth v.depth + 1

def nodes : TypeExpr → ℕ
  | name _ => 1
  | list t | set t => t.nodes + 1
  | map k v => k.nodes + v.nodes + 1

def leaves : TypeExpr → List Bytes
  | name n => [n]
  | list t | set t => t.leaves
  | map k v => k.leaves ++ v.leaves

/-- What is reported for an expression. -/
def ref : TypeExpr → IdlTypeRef
  | name n => ⟨.none, n, []⟩
  | list t => ⟨.list, ascii "list", [t.text]⟩
  | set t => ⟨.set, ascii "set", [t.text]⟩
  | map k v => ⟨.map, ascii "map", [k.text, v.text]⟩

end TypeExpr

open TypeExpr

def Word (text : Bytes) (t : TypeExpr) : Prop :=
  t.Named ∧ t.text = text ∧ t.depth ≤ max_depth ∧ t.nodes ≤ max_nodes

def name_only : Bytes → Bool
  | [] => false
  | c :: rest => type_name_start c && rest.all type_name_continue

theorem isName_iff {n : Bytes} : IsName n ↔ name_only n = true := by
  cases n <;> simp [IsName, name_only]

variable {rest : Bytes}

theorem takeWhile_stop {p : UInt8 → Bool} {xs : Bytes} (hxs : ∀ x ∈ xs, p x = true)
    (hrest : ∀ x ∈ rest.head?, p x = false) : (xs ++ rest).takeWhile p = xs := by
  rw [List.takeWhile_append_of_pos hxs]
  cases rest with
  | nil => simp
  | cons c rest => simp [hrest c rfl]

theorem dropWhile_stop {p : UInt8 → Bool} {xs : Bytes} (hxs : ∀ x ∈ xs, p x = true)
    (hrest : ∀ x ∈ rest.head?, p x = false) : (xs ++ rest).dropWhile p = rest := by
  rw [List.dropWhile_append_of_pos hxs]
  cases rest with
  | nil => rfl
  | cons c rest => simp [hrest c rfl]

/-- No name goes on here. -/
def Stops (rest : Bytes) : Prop := ∀ c ∈ rest.head?, type_name_continue c = false

/-- A name is read to its end. -/
theorem type_ref_read_name (levels nodes : ℕ) {n : Bytes} (hn : IsName n) (hr : Stops rest) :
    type_ref_read (levels + 1) ⟨nodes, n ++ rest⟩ =
      if max_nodes ≤ nodes then none
      else if rest.head? = some 60 then
        if type_constructor n = .none then none
        else (arguments_read (type_ref_read levels) (arity (type_constructor n))
          ⟨nodes + 1, rest.tail⟩).map fun (arguments, last) =>
            (⟨type_constructor n, n, arguments⟩, last)
      else some (⟨.none, n, []⟩, ⟨nodes + 1, rest⟩) := by
  cases n with
  | nil => exact hn.elim
  | cons c n =>
    rw [type_ref_read, List.cons_append]
    dsimp only
    rw [if_pos hn.1, takeWhile_stop hn.2 hr, dropWhile_stop hn.2 hr]

variable {levels : ℕ} {cursor : IdlTypeRefCursor}

/-- Whatever is read starts with a name. -/
theorem exists_name (h : (type_ref_read levels cursor).isSome = true) :
    ∃ n rest, cursor.current = n ++ rest ∧ IsName n ∧ Stops rest := by
  cases levels with
  | zero => cases h
  | succ levels =>
    rw [type_ref_read] at h
    cases hcurrent : cursor.current with
    | nil =>
      rw [hcurrent] at h
      split_ifs at h <;> cases h
    | cons c text =>
      rw [hcurrent] at h
      by_cases hc : type_name_start c = true
      · refine ⟨c :: text.takeWhile type_name_continue, text.dropWhile type_name_continue,
          by simp, ⟨hc, fun d hd => ?_⟩, fun d hd => ?_⟩
        · exact List.all_eq_true.1 List.all_takeWhile d hd
        · have hhead := List.head?_dropWhile_not type_name_continue text
          rw [hd] at hhead
          simpa using hhead
      · dsimp only at h
        rw [if_neg hc, ite_self] at h
        cases h

/-- What the arguments of a constructor look like behind its bracket. -/
def joined : List TypeExpr → Bytes
  | [] => []
  | [t] => t.text ++ [62]
  | t :: ts => t.text ++ 44 :: joined ts

def total (ts : List TypeExpr) : ℕ := (ts.map TypeExpr.nodes).sum

variable (t : TypeExpr)

theorem total_cons (ts : List TypeExpr) : total (t :: ts) = t.nodes + total ts := by
  rw [total, List.map_cons, List.sum_cons, total]

theorem joined_cons (ts : List TypeExpr) :
    joined (t :: ts) = t.text ++ (if ts.length = 0 then 62 else 44) :: joined ts := by
  cases ts <;> rfl

theorem text_eq : t.text = t.ref.name ++
    if t.kind = .none then [] else 60 :: joined t.arguments := by
  cases t <;> simp [TypeExpr.text, ref, kind, arguments, joined, ascii]

theorem ref_eq : t.ref = ⟨t.kind, t.ref.name, t.arguments.map TypeExpr.text⟩ := by
  cases t <;> rfl

theorem constructor_of_kind {t : TypeExpr} (h : t.kind ≠ .none) :
    type_constructor t.ref.name = t.kind ∧ arity t.kind = t.arguments.length ∧
      IsName t.ref.name := by
  cases t with
  | name n => exact absurd rfl h
  | list t =>
    exact ⟨show type_constructor (ascii "list") = .list by decide, rfl,
      isName_iff.2 (show name_only (ascii "list") = true by decide)⟩
  | set t =>
    exact ⟨show type_constructor (ascii "set") = .set by decide, rfl,
      isName_iff.2 (show name_only (ascii "set") = true by decide)⟩
  | map k v =>
    exact ⟨show type_constructor (ascii "map") = .map by decide, rfl,
      isName_iff.2 (show name_only (ascii "map") = true by decide)⟩

theorem nodes_eq : t.nodes = total t.arguments + 1 := by
  cases t <;> simp [TypeExpr.nodes, total, arguments]

theorem stops_close (c : UInt8) (h : c = 62 ∨ c = 44 ∨ c = 60) (rest : Bytes) :
    Stops (c :: rest) := by
  rintro _ ⟨⟩
  rcases h with rfl | rfl | rfl <;> decide

def Reads (levels : ℕ) (t : TypeExpr) : Prop :=
  ∀ (nodes : ℕ) (rest : Bytes), nodes + t.nodes ≤ max_nodes → Stops rest →
    rest.head? ≠ some 60 → type_ref_read levels ⟨nodes, t.text ++ rest⟩ =
      some (t.ref, ⟨nodes + t.nodes, rest⟩)

theorem arguments_read_joined {ts : List TypeExpr} (h : ∀ t ∈ ts, Reads levels t) (nodes : ℕ)
    (hn : nodes + total ts ≤ max_nodes) (rest : Bytes) :
    arguments_read (type_ref_read levels) ts.length ⟨nodes, joined ts ++ rest⟩ =
      some (ts.map TypeExpr.text, ⟨nodes + total ts, rest⟩) := by
  induction ts generalizing nodes with
  | nil => rfl
  | cons t ts ih =>
    obtain ⟨ht, hts⟩ := List.forall_mem_cons.1 h
    rw [total_cons, ← Nat.add_assoc] at hn ⊢
    have hread := ht nodes ((if ts.length = 0 then 62 else 44) :: (joined ts ++ rest)) (by omega)
      (stops_close _ (by split_ifs <;> simp) _) (by split_ifs <;> simp)
    rw [joined_cons, List.append_assoc, List.cons_append, List.length_cons, arguments_read, hread,
      Option.bind_some]
    dsimp only
    rw [if_pos rfl, ih hts _ hn, Option.map_some, List.map_cons]
    simp

theorem reads {t : TypeExpr} (hn : t.Named) (hd : t.depth ≤ levels) : Reads levels t := by
  have happly : ∀ {t : TypeExpr} {levels : ℕ}, t.kind ≠ .none →
      (∀ a ∈ t.arguments, Reads levels a) → Reads (levels + 1) t := by
    intro t levels hk ha nodes rest hnodes _ _
    obtain ⟨hcons, harity, hname⟩ := constructor_of_kind hk
    rw [nodes_eq] at hnodes ⊢
    rw [text_eq, if_neg hk, List.append_assoc, List.cons_append,
      type_ref_read_name _ _ hname (stops_close 60 (by simp) _), if_neg (by omega),
      if_pos (by rfl), hcons, if_neg hk, harity, List.tail_cons,
      arguments_read_joined ha (nodes + 1) (by omega) rest, Option.map_some, ref_eq,
      Nat.add_right_comm, ← Nat.add_assoc]
  induction t generalizing levels with
  | name n =>
    cases levels with
    | zero => simp [TypeExpr.depth] at hd
    | succ levels =>
      intro nodes rest hnodes hstop hopen
      have hroom : ¬ max_nodes ≤ nodes := by
        rw [TypeExpr.nodes] at hnodes
        omega
      rw [TypeExpr.text, type_ref_read_name levels nodes hn hstop, if_neg hroom, if_neg hopen]
      rfl
  | list t ih | set t ih =>
    cases levels with
    | zero => simp [TypeExpr.depth] at hd
    | succ levels =>
      refine happly (by simp [kind]) (List.forall_mem_cons.2 ⟨ih hn ?_, by simp⟩)
      exact Nat.le_of_succ_le_succ hd
  | map k v ihk ihv =>
    cases levels with
    | zero => simp [TypeExpr.depth] at hd
    | succ levels =>
      have hboth := Nat.max_le.1 (Nat.le_of_succ_le_succ hd)
      refine happly (by simp [kind]) (List.forall_mem_cons.2 ⟨ihk hn.1 hboth.1,
        List.forall_mem_cons.2 ⟨ihv hn.2 hboth.2, by simp⟩⟩)

structure Found (levels : ℕ) (cursor : IdlTypeRefCursor) (t : TypeExpr)
    (last : IdlTypeRefCursor) : Prop where
  named : t.Named
  depth : t.depth ≤ levels
  text : cursor.current = t.text ++ last.current
  nodes : last.nodes = cursor.nodes + t.nodes
  room : last.nodes ≤ max_nodes

theorem arguments_read_found
    (h : ∀ {cursor result last}, type_ref_read levels cursor = some (result, last) → ∃ t, Found levels cursor t last ∧ result = t.ref)
    {left : ℕ} {last : IdlTypeRefCursor} {arguments : List Bytes} (hroom : cursor.nodes ≤ max_nodes)
    (ha : arguments_read (type_ref_read levels) left cursor = some (arguments, last)) :
    ∃ ts : List TypeExpr, ts.length = left ∧ (∀ t ∈ ts, t.Named ∧ t.depth ≤ levels) ∧
      cursor.current = joined ts ++ last.current ∧ last.nodes = cursor.nodes + total ts ∧
      last.nodes ≤ max_nodes ∧ arguments = ts.map TypeExpr.text := by
  induction left generalizing cursor last arguments with
  | zero =>
    cases ha
    exact ⟨[], rfl, by simp, rfl, rfl, hroom, rfl⟩
  | succ left ih =>
    rw [arguments_read] at ha
    obtain ⟨⟨result, after⟩, hread, ha⟩ := Option.bind_eq_some_iff.1 ha
    obtain ⟨t, ht, -⟩ := h hread
    dsimp only at ha
    cases hc : after.current with
    | nil =>
      rw [hc] at ha
      cases ha
    | cons c rest =>
      rw [hc] at ha
      obtain ⟨rfl, ha⟩ := Option.ite_none_right_eq_some.1 ha
      obtain ⟨⟨others, last'⟩, hothers, ha⟩ := Option.map_eq_some_iff.1 ha
      obtain ⟨rfl, rfl⟩ := Prod.mk.inj ha
      obtain ⟨ts, hlen, hts, htext, hnodes, hlast, rfl⟩ :=
        ih (show IdlTypeRefCursor.nodes ⟨after.nodes, rest⟩ ≤ max_nodes from ht.room) hothers
      refine ⟨t :: ts, by rw [List.length_cons, hlen],
        List.forall_mem_cons.2 ⟨⟨ht.named, ht.depth⟩, hts⟩, ?_, ?_, hlast, ?_⟩
      · rw [joined_cons, hlen, ht.text, hc]
        simp only [List.append_assoc, List.cons_append]
        rw [← htext]
      · rw [hnodes, ht.nodes, total_cons, Nat.add_assoc]
      · rw [ht.text, hc, List.map_cons]
        simp

theorem type_ref_read_found {last : IdlTypeRefCursor} {result : IdlTypeRef}
    (h : type_ref_read levels cursor = some (result, last)) :
    ∃ t, Found levels cursor t last ∧ result = t.ref := by
  induction levels generalizing cursor last result with
  | zero => cases h
  | succ levels ih =>
    obtain ⟨n, rest, hcurrent, hn, hstop⟩ := exists_name (by rw [h]; rfl)
    obtain ⟨nodes, current⟩ := cursor
    subst hcurrent
    rw [type_ref_read_name levels nodes hn hstop] at h
    obtain ⟨hroom, h⟩ := Option.ite_none_left_eq_some.1 h
    split_ifs at h with hopen hk
    · obtain ⟨⟨arguments, last'⟩, ha, h⟩ := Option.map_eq_some_iff.1 h
      obtain ⟨rfl, rfl⟩ := Prod.mk.inj h
      obtain ⟨tail, rfl⟩ : ∃ tail, rest = 60 :: tail := by
        cases rest with
        | nil => cases hopen
        | cons c tail => exact ⟨tail, by rw [Option.some.inj hopen]⟩
      obtain ⟨ts, hlen, hts, htext, hnodes, hlast, rfl⟩ :=
        arguments_read_found ih (show nodes + 1 ≤ max_nodes by omega) ha
      obtain ⟨t, hkind, hname, rfl⟩ : ∃ t : TypeExpr, t.kind = type_constructor n ∧
          t.ref.name = n ∧ t.arguments = ts := by
        unfold type_constructor at hlen hk ⊢
        split_ifs at hlen hk ⊢ with hlist hset hmap
        · obtain ⟨t, rfl⟩ := List.length_eq_one_iff.1 hlen
          exact ⟨.list t, rfl, hlist.symm, rfl⟩
        · obtain ⟨t, rfl⟩ := List.length_eq_one_iff.1 hlen
          exact ⟨.set t, rfl, hset.symm, rfl⟩
        · obtain ⟨k, v, rfl⟩ : ∃ k v, ts = [k, v] := by
            match ts, hlen with
            | [k, v], _ => exact ⟨k, v, rfl⟩
          exact ⟨.map k v, rfl, hmap.symm, rfl⟩
        · exact absurd rfl hk
      refine ⟨t, ⟨?_, ?_, ?_, ?_, hlast⟩, by rw [ref_eq, hkind, hname]⟩
      · cases t <;> simp_all [kind, arguments, Named]
      · cases t <;> simp_all [kind, arguments, TypeExpr.depth] <;> omega
      · dsimp only at htext ⊢
        rw [List.tail_cons] at htext
        rw [text_eq, hname, hkind, if_neg hk, List.append_assoc, List.cons_append, ← htext]
      · dsimp only at hnodes ⊢
        rw [hnodes, nodes_eq]
        omega
    · obtain ⟨rfl, rfl⟩ := Prod.mk.inj (Option.some.inj h)
      refine ⟨.name n, ⟨hn, by simp [TypeExpr.depth], rfl, rfl, ?_⟩, rfl⟩
      show nodes + 1 ≤ max_nodes
      omega

theorem idl_type_ref_parse_iff (text : Bytes) (result : IdlTypeRef) :
    idl_type_ref_parse text = some result ↔
      text.length ≤ max_bytes ∧ ∃ t, Word text t ∧ result = t.ref := by
  rw [idl_type_ref_parse]
  constructor
  · intro h
    obtain ⟨hlen, h⟩ := Option.ite_none_left_eq_some.1 h
    obtain ⟨⟨result', cursor⟩, hread, h⟩ := Option.bind_eq_some_iff.1 h
    obtain ⟨hend, h⟩ := Option.ite_none_right_eq_some.1 h
    obtain ⟨t, ht, rfl⟩ := type_ref_read_found hread
    have htext := ht.text
    have hnodes := ht.nodes
    have hroom := ht.room
    rw [hend, List.append_nil] at htext
    refine ⟨by omega, t, ⟨ht.named, htext.symm, ht.depth, by omega⟩, (Option.some.inj h).symm⟩
  · rintro ⟨hlen, t, ⟨hnamed, rfl, hdepth, hnodes⟩, rfl⟩
    have hread := reads hnamed hdepth 0 [] (by omega) (fun c hc => nomatch hc) (by simp)
    rw [List.append_nil] at hread
    have hne : t.text ≠ [] := by
      intro hnil
      rw [hnil] at hread
      cases hread
    rw [if_neg (by simp only [hne, false_or]; omega), hread, Option.bind_some]
    exact if_pos rfl

theorem Word.argument {text : Bytes} {t a : TypeExpr} (h : Word text t) (ha : a ∈ t.arguments) :
    Word a.text a ∧ a.text.length < text.length := by
  obtain ⟨hnamed, rfl, hdepth, hnodes⟩ := h
  cases t <;> simp only [arguments, List.mem_cons, List.not_mem_nil, or_false] at ha
  case map k v =>
    have hsize := Nat.max_le.1 (Nat.le_of_succ_le hdepth)
    simp only [TypeExpr.nodes] at hnodes
    rcases ha with rfl | rfl
    · refine ⟨⟨hnamed.1, rfl, hsize.1, by omega⟩, ?_⟩
      simp [TypeExpr.text]
      omega
    · refine ⟨⟨hnamed.2, rfl, hsize.2, by omega⟩, ?_⟩
      simp [TypeExpr.text]
      omega
  all_goals
    subst ha
    refine ⟨⟨hnamed, rfl, Nat.le_of_succ_le hdepth, Nat.le_of_succ_le hnodes⟩, ?_⟩
    simp only [TypeExpr.text, List.length_append, List.length_singleton]
    omega

/-- The spans of an accepted expression are accepted, and they are shorter. -/
theorem argument_accepted {text a : Bytes} {result : IdlTypeRef}
    (h : idl_type_ref_parse text = some result) (ha : a ∈ result.arguments) :
    (idl_type_ref_parse a).isSome = true ∧ a.length < text.length := by
  obtain ⟨hlen, t, ht, rfl⟩ := (idl_type_ref_parse_iff text result).1 h
  rw [ref_eq] at ha
  obtain ⟨arg, harg, rfl⟩ := List.mem_map.1 ha
  obtain ⟨hword, hshort⟩ := ht.argument harg
  have hparse := (idl_type_ref_parse_iff arg.text arg.ref).2 ⟨by omega, arg, hword, rfl⟩
  exact ⟨by rw [hparse]; rfl, hshort⟩

/-- The spans with the bytes between them. -/
def IdlTypeRef.spell (result : IdlTypeRef) : Bytes :=
  result.name ++ if result.arguments = [] then []
    else 60 :: ([44].intercalate result.arguments ++ [62])

theorem ref_spell : t.ref.spell = t.text := by
  cases t <;> simp [IdlTypeRef.spell, ref, TypeExpr.text, List.intercalate, ascii]

def check_leaf (owner field : Option Bytes) (name : Bytes) : Except Bytes Unit :=
  if idl_logical_builtin_type name || (idl_find_named_data contract name).isSome then .ok ()
  else .error (idl_type_error owner field "unknown logical type" name)

def idl_check_type_expression (contract : IdlContract) (owner field : Option Bytes)
    (expression : Bytes) : Except Bytes Unit :=
  match h : idl_type_ref_parse expression with
  | none => .error (idl_type_error owner field "malformed logical type" expression)
  | some parsed =>
    if parsed.collection_kind = .none then check_leaf contract owner field parsed.name
    else
      parsed.arguments.attach.forM fun argument =>
        idl_check_type_expression contract owner field argument.1
termination_by expression.length
decreasing_by exact (argument_accepted h argument.2).2

def check_text (owner field : Option Bytes) : Option Bytes → Except Bytes Unit
  | none => .error (idl_type_error owner field "malformed logical type" [])
  | some text => idl_check_type_expression contract owner field text

def idl_check_field (decl : IdlDataDecl) (field : IdlField) : Except Bytes Unit :=
  match field.collection_kind with
  | .none => check_text contract decl.name field.name field.type_name
  | .group =>
    if ((field.inner_type.bind fun inner => idl_find_named_data contract inner).map
      IdlDataDecl.kind) = some .group then .ok ()
    else
      .error (idl_type_error decl.name field.name "group element must name a declared group"
        (field.inner_type.getD []))
  | .array | .list | .set => check_text contract decl.name field.name field.inner_type
  | .map => do
    check_text contract decl.name field.name field.key_type
    check_text contract decl.name field.name field.value_type

def check_data (decl : IdlDataDecl) : Except Bytes Unit :=
  if decl.name.any idl_logical_builtin_type then
    .error ((ascii "Data declaration '" ++ decl.name.getD [] ++
      ascii "' shadows a logical builtin type").take 255)
  else decl.fields.forM (idl_check_field contract decl)

def idl_contract_validate_types : Except Bytes Unit :=
  contract.data.forM (check_data contract)

/-- An expression of the grammar with every leaf a builtin or declared. -/
def Accepted (text : Option Bytes) : Prop :=
  ∃ t : TypeExpr, text = some t.text ∧ t.text.length ≤ max_bytes ∧ Word t.text t ∧
    ∀ leaf ∈ t.leaves, idl_logical_builtin_type leaf = true ∨
      ∃ decl ∈ contract.data, decl.name = some leaf

/-- The element of a group is no expression but the name of a group. -/
def FieldAccepted (field : IdlField) : Prop :=
  match field.collection_kind with
  | .none => Accepted contract field.type_name
  | .group => ∃ name decl, field.inner_type = some name ∧
      idl_find_named_data contract name = some decl ∧ decl.kind = .group
  | .array | .list | .set => Accepted contract field.inner_type
  | .map => Accepted contract field.key_type ∧ Accepted contract field.value_type

variable {α ε : Type}

theorem forM_ok {f : α → Except ε Unit} {l : List α} :
    l.forM f = .ok () ↔ ∀ a ∈ l, f a = .ok () := by
  induction l with
  | nil => simp [pure, Except.pure]
  | cons a l ih =>
    rw [List.forall_mem_cons, ← ih]
    show (f a >>= fun _ => l.forM f) = .ok () ↔ _
    cases f a <;> simp [bind, Except.bind]

theorem forM_append (f : α → Except ε Unit) (l l' : List α) :
    (l ++ l').forM f = (l.forM f >>= fun _ => l'.forM f) := List.forM_append

theorem forM_attach (f : α → Except ε Unit) (l : List α) :
    (l.attach.forM fun a => f a.1) = l.forM f := by
  have hmap : forM (l.attach.map Subtype.val) f = forM l.attach fun a => f a.1 := List.forM_map
  rw [List.attach_map_subtype_val] at hmap
  exact hmap.symm

theorem check_arguments (owner field : Option Bytes) {t : TypeExpr} (hk : t.kind ≠ .none)
    (hw : Word t.text t) (hl : t.text.length ≤ max_bytes) :
    idl_check_type_expression contract owner field t.text = (t.arguments.map TypeExpr.text).forM
    (idl_check_type_expression contract owner field) := by
  have hparse := (idl_type_ref_parse_iff _ _).2 ⟨hl, _, hw, rfl⟩
  rw [idl_check_type_expression]
  split
  · next h => simp [hparse] at h
  · next parsed h =>
    obtain rfl := Option.some.inj (h.symm.trans hparse)
    rw [if_neg (by rwa [ref_eq]), forM_attach (idl_check_type_expression contract owner field),
      ref_eq]

/-- The leaves are looked up from left to right, and nothing below is malformed. -/
theorem check_word (owner field : Option Bytes) {t : TypeExpr} (hw : Word t.text t)
    (hl : t.text.length ≤ max_bytes) :
    idl_check_type_expression contract owner field t.text = t.leaves.forM
    (check_leaf contract owner field) := by
  induction t with
  | name n =>
    have hparse := (idl_type_ref_parse_iff _ _).2 ⟨hl, _, hw, rfl⟩
    rw [idl_check_type_expression]
    split
    · next h => simp [hparse] at h
    · next parsed h =>
      obtain rfl := Option.some.inj (h.symm.trans hparse)
      simp [ref, TypeExpr.leaves]
  | list t ih | set t ih =>
    obtain ⟨hword, hshort⟩ := hw.argument List.mem_cons_self
    rw [check_arguments contract owner field (by simp [kind]) hw hl, arguments, List.map_singleton,
      TypeExpr.leaves, ← ih hword (by omega)]
    simp
  | map k v ihk ihv =>
    obtain ⟨hkey, hkeyshort⟩ := hw.argument List.mem_cons_self
    obtain ⟨hvalue, hvalueshort⟩ := hw.argument (List.mem_cons_of_mem _ List.mem_cons_self)
    rw [check_arguments contract owner field (by simp [kind]) hw hl, arguments, TypeExpr.leaves,
      forM_append, ← ihk hkey (by omega), ← ihv hvalue (by omega)]
    simp

theorem check_leaf_ok {contract : IdlContract} {owner field : Option Bytes} {name : Bytes} :
    check_leaf contract owner field name = .ok () ↔ idl_logical_builtin_type name = true ∨
      ∃ decl ∈ contract.data, decl.name = some name := by
  rw [check_leaf]
  split_ifs with h
  · simpa [idl_find_named_data] using h
  · simpa [idl_find_named_data] using h

theorem check_text_ok {contract : IdlContract} {owner field text : Option Bytes} :
    check_text contract owner field text = .ok () ↔ Accepted contract text := by
  cases text with
  | none => simp [check_text, Accepted]
  | some text =>
    rw [check_text]
    cases hparse : idl_type_ref_parse text with
    | none =>
      have hrefused : idl_check_type_expression contract owner field text ≠ .ok () := by
        rw [idl_check_type_expression]
        split <;> simp_all
      refine iff_of_false hrefused ?_
      rintro ⟨t, ht, hlen, hword, -⟩
      obtain rfl := Option.some.inj ht
      rw [(idl_type_ref_parse_iff _ _).2 ⟨hlen, t, hword, rfl⟩] at hparse
      cases hparse
    | some result =>
      obtain ⟨hlen, t, hword, -⟩ := (idl_type_ref_parse_iff _ _).1 hparse
      obtain ⟨-, rfl, -⟩ := id hword
      rw [check_word contract owner field hword hlen, forM_ok]
      simp only [check_leaf_ok]
      constructor
      · exact fun h => ⟨t, rfl, hlen, hword, h⟩
      · rintro ⟨t', ht, hlen', hword', h⟩
        -- a text has one tree only as far as its leaves go
        have hsame : t.leaves.forM (check_leaf contract owner field) = .ok () := by
          rw [← check_word contract owner field hword hlen, Option.some.inj ht,
            check_word contract owner field hword' hlen', forM_ok]
          exact fun leaf hleaf => check_leaf_ok.2 (h leaf hleaf)
        exact fun leaf hleaf => check_leaf_ok.1 (forM_ok.1 hsame leaf hleaf)

theorem idl_check_field_ok (decl : IdlDataDecl) (field : IdlField) :
    idl_check_field contract decl field = .ok () ↔ FieldAccepted contract field := by
  rw [idl_check_field, FieldAccepted]
  cases field.collection_kind with
  | none | array | list | set => exact check_text_ok
  | group =>
    split_ifs with h
    · simp only [true_iff]
      obtain ⟨found, hfound, hkind⟩ := Option.map_eq_some_iff.1 h
      obtain ⟨name, hname, hfind⟩ := Option.bind_eq_some_iff.1 hfound
      exact ⟨name, found, hname, hfind, hkind⟩
    · simp only [false_iff]
      rintro ⟨name, found, hname, hfind, hkind⟩
      exact h (by rw [hname, Option.bind_some, hfind, Option.map_some, hkind])
  | map =>
    dsimp only
    rw [← @check_text_ok contract decl.name field.name field.key_type,
      ← @check_text_ok contract decl.name field.name field.value_type]
    cases check_text contract decl.name field.name field.key_type <;>
      simp [bind, Except.bind]

theorem type_expressions_exact :
    (∀ text : Bytes, text.length ≤ max_bytes →
      ((idl_type_ref_parse text).isSome = true ↔ ∃ t, Word text t)) ∧
    (∀ (text : Bytes) (result : IdlTypeRef), idl_type_ref_parse text = some result →
      result.spell = text ∧ ∀ a ∈ result.arguments, (idl_type_ref_parse a).isSome = true) ∧
    (∀ (contract : IdlContract) (decl : IdlDataDecl) (field : IdlField),
      idl_check_field contract decl field = .ok () ↔ FieldAccepted contract field) ∧
    ∀ contract : IdlContract, idl_contract_validate_types contract = .ok () ↔
      ∀ decl ∈ contract.data, (∀ name, decl.name = some name →
        idl_logical_builtin_type name = false) ∧ ∀ field ∈ decl.fields,
          FieldAccepted contract field := by
  refine ⟨fun text hlen => ?_, fun text result h => ?_, idl_check_field_ok, fun contract => ?_⟩
  · rw [Option.isSome_iff_exists]
    simp only [idl_type_ref_parse_iff, hlen, true_and]
    exact ⟨fun ⟨_, t, ht, _⟩ => ⟨t, ht⟩, fun ⟨t, ht⟩ => ⟨_, t, ht, rfl⟩⟩
  · refine ⟨?_, fun a ha => (argument_accepted h ha).1⟩
    obtain ⟨-, t, ht, rfl⟩ := (idl_type_ref_parse_iff text result).1 h
    rw [ref_spell, ht.2.1]
  · rw [idl_contract_validate_types, forM_ok]
    refine forall₂_congr fun decl _ => ?_
    have hname : decl.name.any idl_logical_builtin_type = true ↔
        ¬ ∀ name, decl.name = some name → idl_logical_builtin_type name = false := by
      cases decl.name <;> simp
    rw [check_data]
    split_ifs with h
    · simp only [false_iff, not_and]
      exact fun hall => absurd hall (hname.1 h)
    · rw [hname, Classical.not_not] at h
      rw [forM_ok, and_iff_right h]
      simp only [idl_check_field_ok]

/-- A composite in a place for groups. -/
def composite_element : IdlContract :=
  ⟨[⟨.composite, some (ascii "S"), []⟩,
    ⟨.message, some (ascii "M"),
      [{ type_name := some (ascii "S"), collection_kind := .group, inner_type := some (ascii "S") }]⟩]⟩

theorem composite_element_refused : Accepted composite_element (some (ascii "S")) ∧
    ∃ message, idl_contract_validate_types composite_element = .error message :=
  ⟨⟨.name (ascii "S"), rfl, by decide, ⟨isName_iff.2 (by decide), rfl, by decide,
    by decide⟩, by
    simp [TypeExpr.leaves, composite_element]⟩, _, rfl⟩

end SaltsUtils.DataBind.TypeRef
