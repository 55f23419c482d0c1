import SaltsUtils.Binary.States

/-!
# Format plans and the fields they hold
-/

set_option autoImplicit false

/-!
## The format plan

`databind_binary_format_plan_build`: the projection of the annotated tree to offsets, extents and
state bits, one plan for each record of the contract.
-/

namespace SaltsUtils.Binary

def DATABIND_BINARY_FORMAT_MAX_TYPES : ℕ := 4096
def DATABIND_BINARY_FORMAT_MAX_FIELDS : ℕ := 65536

inductive FormatFieldKind
  | fixed
  | group
  | varData
  | counted
  | cursorFixed
deriving DecidableEq

structure FormatFieldPlan where
  name : String
  kind : FormatFieldKind
  wire_offset : ℕ := 0
  wire_extent : ℕ := 0
  child_fixed_block_size : ℕ := 0
  tail_prefix_bytes : ℕ := 0
  optional : Bool := false
  nullable : Bool := false
  optional_bit : ℕ := 0
  nullable_bit : ℕ := 0
deriving DecidableEq

structure FormatTypePlan where
  name : String
  fixed_block_size : ℕ
  presence_size : ℕ
  null_size : ℕ
  wire_big_endian : Bool
  fields : List FormatFieldPlan
deriving DecidableEq

structure FormatPlan where
  types : List FormatTypePlan
deriving DecidableEq

def databind_binary_format_plan_find_type (plan : FormatPlan) (type_name : String) :
    Option FormatTypePlan :=
  plan.types.find? fun t => t.name = type_name

def binary_plan_list (root : Schema) : IdlDataKind → Option (List Record)
  | .message => some root.messages
  | .composite => some root.composites
  | .group => some root.groups
  | .enum => none
  | .union => none

def binary_plan_find_record (root : Schema) (kind : IdlDataKind) (name : String) :
    Option Record :=
  (binary_plan_list root kind).bind fun records => records.find? fun r => r.name = name

def binary_plan_find_field (record : Record) (name : String) : Option Field :=
  record.fields.find? fun f => f.name = name

def binary_plan_parse_optional_size (size : Option ℕ) : Option ℕ :=
  if size = none then some 0 else parse_size_text size

def binary_plan_parse_bit (bit : Option ℕ) : Option ℕ :=
  (parse_size_text bit).filter (· ≤ UINT_MAX)

def binary_plan_build_representation (contract : IdlContract) (wire_ir : Schema)
    (typed_field : IdlField) (field_node : Field) (cursor_fixed : Bool) (out : FormatFieldPlan) :
    Except String FormatFieldPlan :=
  if field_node.is_group_field then
    let group_type := typed_field.inner_type.or field_node.group_type
    let group_record := group_type.bind fun name =>
      (idl_contract_find_data contract name).bind fun decl =>
        binary_plan_find_record wire_ir decl.kind name
    match group_record.bind fun record => parse_size_text record.fixed_block_size with
    | some size =>
      .ok { out with kind := .group, tail_prefix_bytes := 4, child_fixed_block_size := size }
    | none => .error "Binary group child layout is unavailable"
  else if field_node.is_var_data then
    .ok { out with kind := .varData, tail_prefix_bytes := 4 }
  else if binary_field_is_counted field_node then
    .ok { out with kind := .counted, tail_prefix_bytes := 4 }
  else if cursor_fixed then
    match (resolve_field_fixed_size wire_ir field_node).filter (· ≠ 0) with
    | some extent => .ok { out with kind := .cursorFixed, wire_extent := extent }
    | none => .error "Binary cursor field extent is unavailable"
  else
    match parse_size_text field_node.offset with
    | none => .error "Binary fixed field offset is unavailable"
    | some offset =>
      let extent :=
        ((binary_plan_parse_optional_size field_node.field_size_bytes).filter (· ≠ 0)).or
          ((parse_size_text field_node.size_bytes).filter (· ≠ 0))
      match extent with
      | some extent => .ok { out with kind := .fixed, wire_offset := offset, wire_extent := extent }
      | none => .error "Binary fixed field extent is unavailable"

def binary_plan_build_field (contract : IdlContract) (wire_ir : Schema) (typed_field : IdlField)
    (field_node : Field) (cursor_fixed : Bool) : Except String FormatFieldPlan :=
  if typed_field.name = "" then .error "Binary field identity is missing"
  else
    let optional_bit :=
      if typed_field.optional then binary_plan_parse_bit field_node.optional_bit_index else some 0
    let nullable_bit :=
      if typed_field.nullable then binary_plan_parse_bit field_node.nullable_bit_index else some 0
    match optional_bit, nullable_bit with
    | none, _ => .error "Binary optional bit is invalid"
    | some _, none => .error "Binary nullable bit is invalid"
    | some optional_bit, some nullable_bit =>
      binary_plan_build_representation contract wire_ir typed_field field_node cursor_fixed
        { name := typed_field.name, kind := .fixed, optional := typed_field.optional,
          nullable := typed_field.nullable, optional_bit := optional_bit,
          nullable_bit := nullable_bit }

def binary_plan_incomplete (type_name : String) : String :=
  s!"Binary wire overlay is incomplete for '{type_name}'"

def binary_plan_build_fields (contract : IdlContract) (wire_ir : Schema) (decl : IdlDataDecl)
    (record : Record) : Bool → List IdlField → Except String (List FormatFieldPlan)
  | _, [] => .ok []
  | cursor_fixed, typed_field :: typed_fields =>
    match binary_plan_find_field record typed_field.name with
    | none => .error (binary_plan_incomplete decl.name)
    | some field_node => do
      let field ← binary_plan_build_field contract wire_ir typed_field field_node cursor_fixed
      let fields ← binary_plan_build_fields contract wire_ir decl record
        (cursor_fixed || field.kind = .counted) typed_fields
      pure (field :: fields)

def binary_plan_build_type (contract : IdlContract) (wire_ir : Schema) (decl : IdlDataDecl) :
    Except String FormatTypePlan :=
  match binary_plan_find_record wire_ir decl.kind decl.name with
  | none => .error (binary_plan_incomplete decl.name)
  | some record =>
    match parse_size_text record.fixed_block_size,
        binary_plan_parse_optional_size record.presence_bitmap_bytes,
        binary_plan_parse_optional_size record.null_bitmap_bytes with
    | some fixed_block_size, some presence_size, some null_size => do
      let fields ← binary_plan_build_fields contract wire_ir decl record false decl.fields
      pure
        { name := decl.name
          fixed_block_size := fixed_block_size
          presence_size := presence_size
          null_size := null_size
          wire_big_endian := wire_ir.schema_wire_big_endian_value.any (· ≠ "0")
          fields := fields }
    | _, _, _ => .error (binary_plan_incomplete decl.name)

def IdlDataKind.isRecord : IdlDataKind → Bool
  | .message | .composite | .group => true
  | .enum | .union => false

def databind_binary_format_plan_build (contract : IdlContract) (wire_ir : Schema) :
    Except String FormatPlan :=
  let selected := contract.data.filter fun d => d.kind.isRecord
  if DATABIND_BINARY_FORMAT_MAX_TYPES < contract.data.length then
    .error "Binary format projection exceeds its type budget"
  else do
    binary_validate_layout_policy wire_ir
    if DATABIND_BINARY_FORMAT_MAX_FIELDS < (selected.map fun d => d.fields.length).sum then
      .error "Binary format projection exceeds its field budget"
    else
      let types ← selected.mapM (binary_plan_build_type contract wire_ir)
      pure ⟨types⟩

/-!
## The planned fields of a record

What `binary_plan_build_field` reads off a field, and from it what the fields of a record come to:
the fixed ones lie behind each other, none of them stands behind a tail field, and the state bits
are numbered from zero.
-/

variable {contract : IdlContract} {wire_ir : Schema}

/-- The answer for a field of a given kind. -/
structure Planned (field : Field) (cursor_fixed : Bool) (plan : FormatFieldPlan) : Prop where
  optional : plan.optional = field.is_optional
  nullable : plan.nullable = field.is_nullable
  optional_bit : field.is_optional → field.optional_bit_index = some plan.optional_bit
  nullable_bit : field.is_nullable → field.nullable_bit_index = some plan.nullable_bit
  fixed : plan.kind = .fixed ↔ ¬ field.isTail ∧ ¬ cursor_fixed
  counted : plan.kind = .counted ↔
    ¬ field.is_group_field ∧ ¬ field.is_var_data ∧ binary_field_is_counted field
  offset : plan.kind = .fixed → field.offset = some plan.wire_offset
  extent : plan.kind = .fixed → plan.wire_extent ≠ 0 ∧
    (field.field_size_bytes = some plan.wire_extent ∨
      (binary_plan_parse_optional_size field.field_size_bytes).filter (· ≠ 0) = none ∧
        parse_size_text field.size_bytes = some plan.wire_extent)

theorem parse_size_text_eq_some {size : Option ℕ} {n : ℕ} (h : parse_size_text size = some n) :
    size = some n :=
  (Option.filter_eq_some_iff.mp h).1

theorem extent_of_or {first second : Option ℕ} {extent : ℕ}
    (h : (((binary_plan_parse_optional_size first).filter (· ≠ 0)).or
      ((parse_size_text second).filter (· ≠ 0))) = some extent) :
    extent ≠ 0 ∧ (first = some extent ∨
      (binary_plan_parse_optional_size first).filter (· ≠ 0) = none ∧
        parse_size_text second = some extent) := by
  rw [Option.or_eq_some_iff] at h
  obtain h | ⟨hnone, h⟩ := h
  · obtain ⟨hsize, hne⟩ := Option.filter_eq_some_iff.mp h
    have h0 : extent ≠ 0 := by simpa using hne
    refine ⟨h0, .inl ?_⟩
    rw [binary_plan_parse_optional_size] at hsize
    split_ifs at hsize
    · cases hsize
      exact absurd rfl h0
    · exact parse_size_text_eq_some hsize
  · obtain ⟨hsize, hne⟩ := Option.filter_eq_some_iff.mp h
    exact ⟨by simpa using hne, .inr ⟨hnone, hsize⟩⟩

variable {field : Field} {cursor_fixed : Bool} {plan : FormatFieldPlan}

theorem representation_spec {typed_field : IdlField} {out : FormatFieldPlan}
    (h : binary_plan_build_representation contract wire_ir typed_field field cursor_fixed out =
      .ok plan) :
    plan.optional = out.optional ∧ plan.nullable = out.nullable ∧
      plan.optional_bit = out.optional_bit ∧ plan.nullable_bit = out.nullable_bit ∧
      (plan.kind = .fixed ↔ ¬ field.isTail ∧ ¬ cursor_fixed) ∧
      (plan.kind = .counted ↔
        ¬ field.is_group_field ∧ ¬ field.is_var_data ∧ binary_field_is_counted field) ∧
      (plan.kind = .fixed → field.offset = some plan.wire_offset) ∧
      (plan.kind = .fixed → plan.wire_extent ≠ 0 ∧
        (field.field_size_bytes = some plan.wire_extent ∨
          (binary_plan_parse_optional_size field.field_size_bytes).filter (· ≠ 0) = none ∧
            parse_size_text field.size_bytes = some plan.wire_extent)) := by
  rw [binary_plan_build_representation] at h
  rw [Field.isTail]
  by_cases hg : field.is_group_field
  · rw [if_pos hg] at h
    dsimp only at h
    split at h <;> cases h
    simp [hg]
  rw [if_neg hg] at h
  by_cases hv : field.is_var_data
  · rw [if_pos hv] at h
    cases h
    simp [hg, hv]
  rw [if_neg hv] at h
  by_cases hc : binary_field_is_counted field
  · rw [if_pos hc] at h
    cases h
    simp [hg, hv, hc]
  rw [if_neg hc] at h
  by_cases hcur : cursor_fixed
  · rw [if_pos hcur] at h
    split at h <;> cases h
    simp [hg, hv, hc, hcur]
  rw [if_neg hcur] at h
  cases ho : parse_size_text field.offset with
  | none =>
    rw [ho] at h
    cases h
  | some offset =>
    rw [ho] at h
    dsimp only at h
    split at h
    · rename_i extent hextent
      cases h
      refine ⟨rfl, rfl, rfl, rfl, by simp [hg, hv, hc, hcur], by simp [hg, hv, hc],
        fun _ => parse_size_text_eq_some ho, fun _ => extent_of_or hextent⟩
    · cases h

theorem parse_bit_eq_some {bit : Option ℕ} {n : ℕ} (h : binary_plan_parse_bit bit = some n) :
    bit = some n :=
  parse_size_text_eq_some (Option.filter_eq_some_iff.mp h).1

theorem planned_of_build
    (h : binary_plan_build_field contract wire_ir (field_build field) field cursor_fixed = .ok plan) :
    Planned field cursor_fixed plan := by
  rw [binary_plan_build_field, guard_eq_ok] at h
  replace h := h.2
  dsimp only [field_build] at h
  split at h
  · cases h
  · cases h
  · rename_i optional_bit nullable_bit hopt hnull
    obtain ⟨ho, hn, hob, hnb, hfixed, hcounted, hoffset, hextent⟩ := representation_spec h
    refine ⟨ho, hn, fun hf => ?_, fun hf => ?_, hfixed, hcounted, hoffset, hextent⟩
    · rw [hob]
      exact parse_bit_eq_some ((if_pos hf).symm.trans hopt)
    · rw [hnb]
      exact parse_bit_eq_some ((if_pos hf).symm.trans hnull)

variable {root : Schema}

theorem extent_eq_size {size : ℕ} (hp : Planned field false plan) (ht : field.Typed)
    (hc : binary_field_collection_supported field) (hk : plan.kind = .fixed)
    (hsize : field.field_size_bytes = some size)
    (hres : resolve_field_fixed_size root field = some size) : plan.wire_extent = size := by
  obtain ⟨h0, hext | ⟨hnone, hext⟩⟩ := hp.extent hk
  · rw [hsize] at hext
    exact (Option.some.inj hext).symm
  have htail := (hp.fixed.mp hk).1
  have hle := (Option.filter_eq_some_iff.mp hext).2
  -- the recorded size was zero or out of range, and the profile has another one
  exfalso
  have hbad : size = 0 ∨ PTRDIFF_MAX < size := by
    rw [hsize, binary_plan_parse_optional_size, if_neg (by simp), parse_size_text] at hnone
    by_contra hgood
    have hz : ¬ size = 0 := fun h => hgood (.inl h)
    have hmax : size ≤ PTRDIFF_MAX := Nat.not_lt.mp fun h => hgood (.inr h)
    simp [Option.filter, hz, hmax] at hnone
  rw [resolve_field_fixed_size] at hres
  have htail' : ¬ (field.is_group_field || field.is_var_data) = true := by
    intro h
    refine htail ?_
    rw [Field.isTail, h]
    rfl
  rw [if_neg htail'] at hres
  by_cases hnb : (field.is_numeric || field.is_bytes) = true
  · rw [if_pos hnb, hext] at hres
    cases hres
    obtain hz | hmax := hbad
    · exact h0 hz
    · exact absurd (by simpa using hle) (Nat.not_le.mpr hmax)
  rw [if_neg hnb] at hres
  have hsome : field.size_bytes ≠ none := by
    rw [parse_size_text_eq_some hext]
    exact Option.some_ne_none _
  have huuid : field.type = "uuid" := by
    obtain h | h | h := ht.sized hsome
    · simp [h] at hnb
    · simp [h] at hnb
    · exact h
  have hcoll : ¬ field.is_collection := by
    intro hcol
    rw [binary_field_collection_supported, if_neg (by simp [hcol])] at hc
    have hkind := ht.kind
    cases hck : field.collection_kind with
    | none => simp [hck] at hc
    | some kind =>
      have hkind := ht.kind kind hck
      rw [huuid] at hkind
      subst hkind
      simp [hck] at hc
  rw [if_neg hcoll, huuid] at hres
  cases (show some 16 = some size from hres)
  obtain hz | hmax := hbad
  · cases hz
  · exact absurd hmax (by decide)

/-- The plans of fields one after the other, with the cursor that counted fields set. -/
def Built (contract : IdlContract) (wire_ir : Schema) :
    Bool → List Field → List FormatFieldPlan → Prop
  | _, [], plans => plans = []
  | cursor_fixed, field :: fields, plans =>
    ∃ plan rest, plans = plan :: rest ∧ Planned field cursor_fixed plan ∧
      Built contract wire_ir (cursor_fixed || plan.kind = .counted) fields rest

variable {fields : List Field} {plans : List FormatFieldPlan}

theorem built_of_fields {decl : IdlDataDecl} {record : Record}
    (hfind : ∀ f ∈ fields, binary_plan_find_field record f.name = some f)
    (h : binary_plan_build_fields contract wire_ir decl record cursor_fixed
      (fields.map field_build) = .ok plans) : Built contract wire_ir cursor_fixed fields plans := by
  induction fields generalizing cursor_fixed plans with
  | nil =>
    cases h
    rfl
  | cons field fields ih =>
    rw [List.map_cons, binary_plan_build_fields] at h
    rw [show (field_build field).name = field.name from rfl,
      hfind field List.mem_cons_self] at h
    obtain ⟨plan, hplan, h⟩ := bind_eq_ok.mp h
    obtain ⟨rest, hrest, h⟩ := bind_eq_ok.mp h
    cases h
    exact ⟨plan, rest, rfl, planned_of_build hplan,
      ih (fun f hf => hfind f (List.mem_cons_of_mem field hf)) hrest⟩

/-- Fixed fields behind each other from an offset to an end. -/
def Packed : ℕ → List FormatFieldPlan → ℕ → Prop
  | start, [], stop => start = stop
  | start, plan :: plans, stop =>
    plan.wire_offset = start ∧ 0 < plan.wire_extent ∧
      Packed (start + plan.wire_extent) plans stop

variable {stop : ℕ}

theorem Packed.start_le {start : ℕ} (h : Packed start plans stop) :
    ∀ p ∈ plans, start ≤ p.wire_offset := by
  induction plans generalizing start with
  | nil => simp
  | cons plan plans ih =>
    obtain ⟨ho, -, hr⟩ := h
    rw [List.forall_mem_cons]
    exact ⟨Nat.le_of_eq ho.symm, fun p hp => Nat.le_trans (Nat.le_add_right _ _) (ih hr p hp)⟩

theorem Packed.pairwise {start : ℕ} (h : Packed start plans stop) :
    plans.Pairwise fun p q => p.wire_offset + p.wire_extent ≤ q.wire_offset := by
  induction plans generalizing start with
  | nil => exact .nil
  | cons plan plans ih =>
    obtain ⟨ho, -, hr⟩ := h
    refine .cons (fun q hq => ?_) (ih hr)
    rw [ho]
    exact hr.start_le q hq

theorem packed_of_placed {offset : ℕ} (hp : Placed root offset fields stop)
    (hb : Built contract wire_ir false fields plans)
    (ht : ∀ f ∈ fields, f.Typed ∧ binary_field_collection_supported f) :
    Packed offset (plans.takeWhile fun p => p.kind = .fixed) stop := by
  induction fields generalizing offset plans with
  | nil =>
    cases hb
    exact hp
  | cons field fields ih =>
    obtain ⟨plan, rest, rfl, hplan, hrest⟩ := hb
    rw [Placed] at hp
    rw [List.forall_mem_cons] at ht
    by_cases htail : field.isTail
    · rw [if_pos htail] at hp
      have hk : ¬ plan.kind = .fixed := fun h => (hplan.fixed.mp h).1 htail
      rw [List.takeWhile_cons_of_neg (by simpa using hk)]
      exact hp
    · rw [if_neg htail] at hp
      obtain ⟨size, hres, hoffset, hsize, hp⟩ := hp
      have hk : plan.kind = .fixed := hplan.fixed.mpr ⟨htail, by simp⟩
      have hcur : (false || decide (plan.kind = .counted)) = false := by simp [hk]
      rw [hcur] at hrest
      have hext := extent_eq_size hplan ht.1.1 ht.1.2 hk hsize hres
      have hoff := hplan.offset hk
      rw [hoffset] at hoff
      rw [List.takeWhile_cons_of_pos (by simpa using hk)]
      refine ⟨(Option.some.inj hoff).symm, Nat.pos_of_ne_zero (hplan.extent hk).1, ?_⟩
      rw [hext]
      exact ih hp hrest ht.2

theorem section_of_not_tail (h : ¬ field.isTail) :
    binary_field_section_of field = .fixed ∧ ¬ binary_field_is_counted field := by
  rw [Field.isTail] at h
  simp only [Bool.or_eq_true, not_or] at h
  rw [binary_field_section_of, if_neg h.1.1, if_neg h.1.2]
  exact ⟨rfl, h.2⟩

theorem not_var_of_counted (ht : field.Typed) (hc : binary_field_is_counted field) :
    ¬ field.is_var_data := by
  intro hv
  have hkind := ht.kind
  rw [binary_field_is_counted] at hc
  obtain h | h := ht.var hv <;> cases hk : field.collection_kind with
  | none => simp [hk] at hc
  | some kind =>
    have := hkind kind hk
    rw [h] at this
    subst this
    simp [hk] at hc

/-- Behind a counted field the cursor is set, and behind the other tail fields the order of
sections admits no fixed field. -/
theorem no_fixed_behind {previous : BinaryFieldSection} {counted_cursor : Bool}
    (hv : validate_fields false previous counted_cursor fields = .ok ())
    (hb : Built contract wire_ir cursor_fixed fields plans) (ht : ∀ f ∈ fields, f.Typed)
    (hcur : counted_cursor → cursor_fixed) (hp : counted_cursor ∨ 0 < previous.rank) :
    ∀ p ∈ plans, p.kind ≠ .fixed := by
  induction fields generalizing previous counted_cursor cursor_fixed plans with
  | nil =>
    cases hb
    simp
  | cons field fields ih =>
    obtain ⟨plan, rest, rfl, hplan, hrest⟩ := hb
    rw [validate_fields, guard_eq_ok, guard_eq_ok, guard_eq_ok] at hv
    obtain ⟨-, -, horder, hv⟩ := hv
    rw [List.forall_mem_cons] at ht ⊢
    constructor
    · intro hk
      obtain ⟨htail, hncur⟩ := hplan.fixed.mp hk
      obtain ⟨hsec, hcount⟩ := section_of_not_tail htail
      have hncc : ¬ counted_cursor := fun h => hncur (hcur h)
      have hrank := hp.resolve_left hncc
      have hzero : BinaryFieldSection.rank .fixed < previous.rank := hrank
      refine horder ?_
      rw [hsec]
      simp [hcount, hncc, hzero]
    · refine ih hv hrest ht.2 (fun h => ?_) ?_
      · rw [Bool.or_eq_true] at h ⊢
        refine h.imp hcur fun hc => ?_
        have hg : ¬ field.is_group_field := fun hg => by simp [binary_field_is_counted, hg] at hc
        simpa using hplan.counted.mpr ⟨hg, not_var_of_counted ht.1 hc, hc⟩
      · obtain h | h := hp
        · exact .inl (by simp [h])
        · refine .inr ?_
          split_ifs
          · omega
          · exact h

variable {composite : Bool}

theorem no_fixed_behind_tail
    (hv : validate_fields composite .fixed false (field :: fields) = .ok ()) (htail : field.isTail)
    (hplan : Planned field false plan)
    (hb : Built contract wire_ir (false || plan.kind = .counted) fields plans)
    (ht : ∀ f ∈ field :: fields, f.Typed) : ∀ p ∈ plans, p.kind ≠ .fixed := by
  rw [List.forall_mem_cons] at ht
  rw [validate_fields, guard_eq_ok, guard_eq_ok, guard_eq_ok] at hv
  obtain ⟨-, hcomposite, -, hv⟩ := hv
  have hmark : binary_field_section_of field ≠ .fixed ∨ binary_field_is_counted field := by
    rw [Field.isTail, Bool.or_eq_true, Bool.or_eq_true] at htail
    rw [binary_field_section_of]
    obtain (hg | hvar) | hc := htail
    · exact .inl (by simp [hg])
    · refine .inl ?_
      split_ifs <;> nofun
    · exact .inr hc
  have hfalse : composite = false := by
    cases composite with
    | false => rfl
    | true => simp_all
  subst hfalse
  refine no_fixed_behind hv hb ht.2 (fun hc => ?_) ?_
  · rw [Bool.false_or] at hc
    have hg : ¬ field.is_group_field := fun hg => by simp [binary_field_is_counted, hg] at hc
    simpa using hplan.counted.mpr ⟨hg, not_var_of_counted ht.1 hc, hc⟩
  · obtain hsec | hc := hmark
    · refine .inr ?_
      cases hs : binary_field_section_of field with
      | fixed => exact absurd hs hsec
      | group => simp [BinaryFieldSection.rank]
      | varData => simp [BinaryFieldSection.rank]
    · exact .inl (by simp [hc])

theorem validate_behind_fixed
    (hv : validate_fields composite .fixed false (field :: fields) = .ok ())
    (htail : ¬ field.isTail) : validate_fields composite .fixed false fields = .ok () := by
  rw [validate_fields, guard_eq_ok, guard_eq_ok, guard_eq_ok] at hv
  obtain ⟨hsec, hcount⟩ := section_of_not_tail htail
  obtain ⟨-, -, -, hv⟩ := hv
  rw [hsec, (Bool.not_eq_true _).mp hcount] at hv
  exact hv

theorem filter_fixed (hv : validate_fields composite .fixed false fields = .ok ())
    (hb : Built contract wire_ir false fields plans) (ht : ∀ f ∈ fields, f.Typed) :
    plans.filter (fun p => p.kind = .fixed) = plans.takeWhile fun p => p.kind = .fixed := by
  induction fields generalizing plans with
  | nil =>
    cases hb
    rfl
  | cons field fields ih =>
    obtain ⟨plan, rest, rfl, hplan, hrest⟩ := hb
    by_cases htail : field.isTail
    · have hk : ¬ plan.kind = .fixed := fun h => (hplan.fixed.mp h).1 htail
      have hnone := no_fixed_behind_tail hv htail hplan hrest ht
      rw [List.takeWhile_cons_of_neg (by simpa using hk),
        List.filter_cons_of_neg (by simpa using hk), List.filter_eq_nil_iff]
      simpa using hnone
    · have hk : plan.kind = .fixed := hplan.fixed.mpr ⟨htail, by simp⟩
      have hcur : (false || decide (plan.kind = .counted)) = false := by simp [hk]
      rw [hcur] at hrest
      rw [List.takeWhile_cons_of_pos (by simpa using hk),
        List.filter_cons_of_pos (by simpa using hk)]
      exact congrArg _ (ih (validate_behind_fixed hv htail) hrest
        fun f hf => ht f (List.mem_cons_of_mem field hf))

variable {i : ℕ}

theorem fixed_at {offset : ℕ} (hp : Placed root offset fields stop)
    (hv : validate_fields composite .fixed false fields = .ok ())
    (hb : Built contract wire_ir false fields plans)
    (ht : ∀ f ∈ fields, f.Typed ∧ binary_field_collection_supported f)
    (hf : fields[i]? = some field) (hi : plans[i]? = some plan) (hk : plan.kind = .fixed) :
    ¬ field.isTail ∧ resolve_field_fixed_size root field = some plan.wire_extent ∧
      plan.wire_extent ≠ 0 := by
  induction fields generalizing offset plans i with
  | nil => cases hf
  | cons head fields ih =>
    obtain ⟨first, rest, rfl, hplan, hrest⟩ := hb
    have ht' := List.forall_mem_cons.mp ht
    rw [Placed] at hp
    by_cases htail : head.isTail
    · cases i with
      | zero =>
        cases hi
        exact absurd htail (hplan.fixed.mp hk).1
      | succ i =>
        have hnone := no_fixed_behind_tail hv htail hplan hrest fun f hf => (ht f hf).1
        exact absurd hk (hnone plan (List.mem_of_getElem? hi))
    · rw [if_neg htail] at hp
      obtain ⟨size, hres, -, hsize, hp⟩ := hp
      cases i with
      | zero =>
        cases hf
        cases hi
        have hext := extent_eq_size hplan ht'.1.1 ht'.1.2 hk hsize hres
        exact ⟨htail, hext ▸ hres, (hplan.extent hk).1⟩
      | succ i =>
        have hfirst : first.kind = .fixed := hplan.fixed.mpr ⟨htail, by simp⟩
        have hcur : (false || decide (first.kind = .counted)) = false := by simp [hfirst]
        rw [hcur] at hrest
        exact ih hp (validate_behind_fixed hv htail) hrest ht'.2 hf hi

theorem supported_of_validate {previous : BinaryFieldSection} {counted_cursor : Bool}
    (hv : validate_fields composite previous counted_cursor fields = .ok ()) :
    ∀ f ∈ fields, binary_field_collection_supported f := by
  induction fields generalizing previous counted_cursor with
  | nil => simp
  | cons field fields ih =>
    rw [validate_fields, guard_eq_ok, guard_eq_ok, guard_eq_ok] at hv
    obtain ⟨hsup, -, -, hv⟩ := hv
    rw [List.forall_mem_cons]
    exact ⟨by simpa using hsup, ih hv⟩

theorem optional_indices (i j : ℕ) (fields : List Field) :
    ((number_fields i j fields).filter Field.is_optional).map Field.optional_bit_index =
      (List.range' i (optional_count fields)).map some := by
  induction fields generalizing i j with
  | nil => rfl
  | cons field fields ih =>
    rw [optional_count, List.countP_cons, number_fields]
    by_cases h : field.is_optional
    · simp [h, ih, List.range'_succ, optional_count]
    · simp [h, ih, optional_count]

theorem nullable_indices (i j : ℕ) (fields : List Field) :
    ((number_fields i j fields).filter Field.is_nullable).map Field.nullable_bit_index =
      (List.range' j (nullable_count fields)).map some := by
  induction fields generalizing i j with
  | nil => rfl
  | cons field fields ih =>
    rw [nullable_count, List.countP_cons, number_fields]
    by_cases h : field.is_nullable
    · simp [h, ih, List.range'_succ, nullable_count]
    · simp [h, ih, nullable_count]

theorem bits_of_indices {flag : Field → Bool} {index : Field → Option ℕ}
    {marked : FormatFieldPlan → Bool} {bit : FormatFieldPlan → ℕ}
    (hplan : ∀ f c p, Planned f c p → marked p = flag f ∧ (flag f → index f = some (bit p)))
    (hb : Built contract wire_ir cursor_fixed fields plans) :
    ((plans.filter marked).map bit).map some = (fields.filter flag).map index := by
  induction fields generalizing cursor_fixed plans with
  | nil =>
    cases hb
    rfl
  | cons field fields ih =>
    obtain ⟨plan, rest, rfl, hp, hrest⟩ := hb
    obtain ⟨hmark, hbit⟩ := hplan field cursor_fixed plan hp
    have hrest := ih hrest
    by_cases hf : flag field
    · rw [List.filter_cons_of_pos (hmark.trans hf), List.filter_cons_of_pos hf, List.map_cons,
        List.map_cons, List.map_cons, hrest, hbit hf]
    · rw [List.filter_cons_of_neg (by rw [hmark]; exact hf), List.filter_cons_of_neg hf, hrest]

theorem optional_bits {j : ℕ}
    (hb : Built contract wire_ir cursor_fixed (number_fields i j fields) plans) :
    (plans.filter FormatFieldPlan.optional).map FormatFieldPlan.optional_bit =
      List.range' i (optional_count fields) := by
  have h := bits_of_indices (fun f c p hp => ⟨hp.optional, hp.optional_bit⟩) hb
  rw [optional_indices] at h
  exact List.map_injective_iff.mpr (fun _ _ => Option.some.inj) h

theorem nullable_bits {j : ℕ}
    (hb : Built contract wire_ir cursor_fixed (number_fields i j fields) plans) :
    (plans.filter FormatFieldPlan.nullable).map FormatFieldPlan.nullable_bit =
      List.range' j (nullable_count fields) := by
  have h := bits_of_indices (fun f c p hp => ⟨hp.nullable, hp.nullable_bit⟩) hb
  rw [nullable_indices] at h
  exact List.map_injective_iff.mpr (fun _ _ => Option.some.inj) h

end SaltsUtils.Binary
