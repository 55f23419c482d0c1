import SaltsUtils.Binary.PlanFields

/-!
# Layouts across record boundaries

The plan of a whole schema. In each record the fixed fields and the state bits are as they
should be.
-/

set_option autoImplicit false

namespace SaltsUtils.Binary

/-- The tree that the passes leave, against the tree as it was laid out. -/
structure Overlaid (laid root : Schema) : Prop where
  composites : List.Forall₂ (Widened laid) laid.composites root.composites
  groups : List.Forall₂ (Widened laid) laid.groups root.groups
  messages : List.Forall₂ (Widened laid) laid.messages root.messages
  noClash : NoClash laid

/-- A record of the tree before the rounds. -/
structure Fresh (record : Record) : Prop where
  typed : ∀ f ∈ record.fields, f.Typed
  block : record.fixed_block_size = none ∧ record.has_fixed_block_size = false
  presence : record.presence_bitmap_bytes = none
  null : record.null_bitmap_bytes = none

theorem forall₂_split {α β γ : Type} {R : α → β → Prop} {P : β → Prop} {f : α → γ} {g : β → γ}
    (hR : ∀ a b, R a b → P b ∧ g b = f a) {l : List α} {l' : List β}
    (h : List.Forall₂ R l l') : (∀ b ∈ l', P b) ∧ l'.map g = l.map f := by
  induction h with
  | nil => simp
  | cons hab _ ih =>
    obtain ⟨hp, hg⟩ := hR _ _ hab
    rw [List.forall_mem_cons, List.map_cons, List.map_cons, hg, ih.2]
    exact ⟨⟨hp, ih.1⟩, rfl⟩

theorem forall₂_mem_right {α β : Type} {R : α → β → Prop} {l : List α} {l' : List β}
    (h : List.Forall₂ R l l') : ∀ b ∈ l', ∃ a ∈ l, R a b := by
  induction h with
  | nil => simp
  | @cons a b l l' hab _ ih =>
    rw [List.forall_mem_cons]
    refine ⟨⟨a, List.mem_cons_self, hab⟩, fun c hc => ?_⟩
    obtain ⟨a', ha', hac⟩ := ih c hc
    exact ⟨a', List.mem_cons_of_mem a ha', hac⟩

variable {records : List Record}

theorem profile_records {decls : List RecordDecl}
    (h : (decls.map RecordDecl.record).mapM annotate_record_profiles = .ok records) :
    (∀ r ∈ records, Fresh r) ∧
      ∀ kind, records.map (record_build kind) =
        (decls.map RecordDecl.record).map (record_build kind) := by
  have hrel := mapM_eq_ok h
  rw [List.forall₂_map_left_iff] at hrel
  have hone : ∀ kind (d : RecordDecl) (r : Record), annotate_record_profiles d.record = .ok r →
      Fresh r ∧ record_build kind r = record_build kind d.record := by
    intro kind d r hr
    obtain ⟨fields, hf, rfl⟩ := map_eq_ok.mp hr
    have hfields := mapM_eq_ok hf
    rw [RecordDecl.record, List.forall₂_map_left_iff] at hfields
    obtain ⟨ht, hb⟩ := forall₂_split (fun _ _ h => profile_spec h) hfields
    refine ⟨⟨ht, ⟨rfl, rfl⟩, rfl, rfl⟩, ?_⟩
    rw [record_build, record_build, RecordDecl.record, List.map_map]
    exact congrArg _ hb
  refine ⟨(forall₂_split (hone .message) hrel).1, fun kind => ?_⟩
  rw [List.map_map]
  exact (forall₂_split (hone kind) hrel).2

theorem record_build_core {record record' : Record} (hn : record'.name = record.name)
    (hf : record'.fields.map Field.core = record.fields.map Field.core) (kind : IdlDataKind) :
    record_build kind record' = record_build kind record := by
  have hmap : ∀ l : List Field, l.map field_build = (l.map Field.core).map field_build := by
    intro l
    rw [List.map_map]
    exact List.map_congr_left fun f _ => rfl
  rw [record_build, record_build, hn, hmap, hf, ← hmap]

theorem fresh_of_core {laid : List Record} (hc : laid.map Record.core = records.map Record.core)
    (hf : ∀ r ∈ records, Fresh r) :
    ∀ r ∈ laid, (∀ f ∈ r.fields, f.Typed) ∧ r.presence_bitmap_bytes = none ∧
      r.null_bitmap_bytes = none := by
  intro r hr
  obtain ⟨r₀, hr₀, hcore⟩ := List.mem_map.mp (hc ▸ List.mem_map_of_mem hr)
  have hfresh := hf r₀ hr₀
  have hp : r₀.core.presence_bitmap_bytes = r.core.presence_bitmap_bytes :=
    congrArg Record.presence_bitmap_bytes hcore
  have hn : r₀.core.null_bitmap_bytes = r.core.null_bitmap_bytes :=
    congrArg Record.null_bitmap_bytes hcore
  have hfields : r₀.core.fields = r.core.fields := congrArg Record.fields hcore
  refine ⟨fun f hfr => ?_, hp.symm.trans hfresh.presence, hn.symm.trans hfresh.null⟩
  have hmem : f.core ∈ r₀.core.fields := hfields ▸ List.mem_map_of_mem hfr
  obtain ⟨f₀, hf₀, hfc⟩ := List.mem_map.mp hmem
  exact (hfresh.typed f₀ hf₀).of_core hfc.symm

theorem record_build_of_core {laid : List Record}
    (hc : laid.map Record.core = records.map Record.core) (kind : IdlDataKind) :
    laid.map (record_build kind) = records.map (record_build kind) := by
  have hcore : ∀ r : Record, r.core.fields.map Field.core = r.fields.map Field.core := by
    intro r
    simp only [Record.core, List.map_map]
    exact List.map_congr_left fun f _ => rfl
  have hmap : ∀ l : List Record,
      (l.map Record.core).map (record_build kind) = l.map (record_build kind) := by
    intro l
    rw [List.map_map]
    apply List.map_congr_left
    intro r _
    exact @record_build_core r r.core rfl (hcore r) kind
  rw [← hmap, hc, hmap]

variable {records' : List Record}

theorem widened_all {laid root' : Schema}
    (h : (records.map (annotate_record_references root')).mapM annotate_record_states = some records')
    (hr : ∀ r ∈ records, Settled laid r ∧ (∀ f ∈ r.fields, f.Typed) ∧ r.presence_bitmap_bytes = none ∧ r.null_bitmap_bytes = none) :
    List.Forall₂ (Widened laid) records records' ∧
      ∀ r ∈ records', ∀ f ∈ r.fields, f.Typed := by
  have hrel := mapM_eq_some h
  rw [List.forall₂_map_left_iff] at hrel
  clear h
  induction hrel with
  | nil => simp
  | @cons r r' records records' hstate _ ih =>
    rw [List.forall_mem_cons] at hr
    obtain ⟨hs, ht, hp, hn⟩ := hr.1
    have hw := widened_of_states hs hp hn hstate
    obtain ⟨hrest, htyped⟩ := ih hr.2
    refine ⟨.cons hw hrest, List.forall_mem_cons.mpr ⟨fun f hf => ?_, htyped⟩⟩
    have hmem : f.core ∈ r.fields.map Field.core := hw.fields ▸ List.mem_map_of_mem hf
    obtain ⟨f₀, hf₀, hfc⟩ := List.mem_map.mp hmem
    exact (ht f₀ hf₀).of_core hfc.symm

variable {root : Schema} {contract : IdlContract}

theorem noClash_of_contract (h : idl_contract_build_from_tree root = some contract) :
    NoClash root := by
  rw [idl_contract_build_from_tree] at h
  split_ifs at h with hc
  simp only [idl_contract_validate_data_names, Bool.and_eq_true, decide_eq_true_eq] at hc
  have hnodup := hc.1.2
  simp only [data_build, List.map_append, List.map_map] at hnodup
  intro r hr
  rw [find_enum_by_name, List.find?_eq_none]
  intro e he heq
  have hname : e.name = r.name := by simpa using heq
  have hleft : r.name ∈ List.map (IdlDataDecl.name ∘ record_build .message) root.messages ++
      List.map (IdlDataDecl.name ∘ record_build .composite) root.composites ++
      List.map (IdlDataDecl.name ∘ record_build .group) root.groups := by
    refine List.mem_append_left _ (List.mem_append_right _ ?_)
    exact List.mem_map.mpr ⟨r, hr, rfl⟩
  have hright : r.name ∈ root.enums.map
      (IdlDataDecl.name ∘ fun e => (⟨.enum, e.name, []⟩ : IdlDataDecl)) :=
    List.mem_map.mpr ⟨e, he, hname⟩
  have hparts := (List.nodup_append.mp hnodup).1
  exact (List.nodup_append.mp hparts).2.2 _ hleft _ hright rfl

/-- The annotated tree of a schema, with the tree before its state bitmaps. -/
structure Applied (contract : IdlContract) (laid root : Schema) : Prop where
  overlaid : Overlaid laid root
  data : contract.data = data_build root
  composites : ∀ r ∈ root.composites, ∀ f ∈ r.fields, f.Typed
  groups : ∀ r ∈ root.groups, ∀ f ∈ r.fields, f.Typed
  messages : ∀ r ∈ root.messages, ∀ f ∈ r.fields, f.Typed

theorem widened_build {laid : Schema} (h : List.Forall₂ (Widened laid) records records')
    (kind : IdlDataKind) : records'.map (record_build kind) = records.map (record_build kind) :=
  (@forall₂_split _ _ _ _ (fun _ => True) _ _
    (fun _ _ hw => ⟨trivial, record_build_core hw.name hw.fields kind⟩) _ _ h).2

variable {tree : Schema}

theorem noClash_of_build (he : root.enums = tree.enums)
    (hc : root.composites.map (record_build .composite) = tree.composites.map (record_build .composite))
    (h : NoClash tree) : NoClash root := by
  intro r hr
  obtain ⟨r₀, hr₀, hbuild⟩ := List.mem_map.mp (hc ▸ List.mem_map_of_mem hr)
  have hname : (record_build .composite r₀).name = (record_build .composite r).name :=
    congrArg IdlDataDecl.name hbuild
  change r₀.name = r.name at hname
  rw [find_enum_by_name, he, ← hname]
  exact h r₀ hr₀

structure Profiled (source tree : Schema) : Prop where
  composites : ∀ r ∈ tree.composites, Fresh r
  groups : ∀ r ∈ tree.groups, Fresh r
  messages : ∀ r ∈ tree.messages, Fresh r
  composites_build : ∀ kind, tree.composites.map (record_build kind) =
    source.composites.map (record_build kind)
  enums : tree.enums = source.enums
  data : data_build tree = data_build source

theorem profiled_of_profiles {d : SchemaDecl} (h : binary_annotate_field_profiles d.tree = .ok tree) :
    Profiled d.tree tree := by
  obtain ⟨composites, hcomposites, h⟩ := bind_eq_ok.mp h
  obtain ⟨groups, hgroups, h⟩ := bind_eq_ok.mp h
  obtain ⟨messages, hmessages, h⟩ := bind_eq_ok.mp h
  obtain ⟨unions, hunions, h⟩ := bind_eq_ok.mp h
  cases h
  have hc := profile_records hcomposites
  have hg := profile_records hgroups
  have hm := profile_records hmessages
  have hu := profile_records hunions
  refine ⟨hc.1, hg.1, hm.1, hc.2, rfl, ?_⟩
  rw [data_build, data_build]
  rw [hc.2, hg.2, hm.2, hu.2]
  rfl

variable {record : Record}

theorem Fresh.settled (h : Fresh record) (root : Schema) : Settled root record := by
  rw [Settled, if_neg (by simp [h.block.2])]
  exact h.block.1

theorem applied_of_apply {d : SchemaDecl} {fuel : ℕ}
    (ha : databind_binary_contract_apply fuel d.tree = .ok root)
    (hc : idl_contract_build_from_tree d.tree = some contract) :
    ∃ laid, Applied contract laid root := by
  have hclash := noClash_of_contract hc
  have hdata : contract.data = data_build d.tree := by
    rw [idl_contract_build_from_tree] at hc
    split_ifs at hc
    cases hc
    rfl
  obtain ⟨tree, hprofiles, ha⟩ := bind_eq_ok.mp ha
  obtain ⟨-, -, ha⟩ := bind_eq_ok.mp ha
  have hp := profiled_of_profiles hprofiles
  have hn := noClash_of_build hp.enums (hp.composites_build .composite) hclash
  cases htree : annotate_schema_tree fuel tree with
  | none =>
    rw [htree] at ha
    cases ha
  | some root' =>
    rw [htree] at ha
    cases ha
    obtain ⟨laid, hlaid, hstates⟩ := Option.bind_eq_some_iff.mp htree
    -- the layouts
    have hr := @annotate_layouts_rounded _ (annotate_schema_metadata tree) _ hn
      ⟨fun r hr => (hp.composites r hr).settled _, fun r hr => (hp.groups r hr).settled _,
        fun r hr => (hp.messages r hr).settled _⟩ hlaid
    have hcc : laid.composites.map Record.core = tree.composites.map Record.core :=
      congrArg Schema.composites hr.core
    have hcg : laid.groups.map Record.core = tree.groups.map Record.core :=
      congrArg Schema.groups hr.core
    have hcm : laid.messages.map Record.core = tree.messages.map Record.core :=
      congrArg Schema.messages hr.core
    have hce : laid.core.enums = (annotate_schema_metadata tree).core.enums :=
      congrArg Schema.enums hr.core
    have hcu : laid.core.unions = (annotate_schema_metadata tree).core.unions :=
      congrArg Schema.unions hr.core
    -- the state bitmaps
    obtain ⟨messages, hmessages, hstates⟩ := Option.bind_eq_some_iff.mp hstates
    obtain ⟨composites, hcomposites, hstates⟩ := Option.bind_eq_some_iff.mp hstates
    obtain ⟨groups, hgroups, hstates⟩ := Option.bind_eq_some_iff.mp hstates
    cases hstates
    obtain ⟨hwm, htm⟩ := widened_all hmessages fun r hm =>
      ⟨hr.settled.messages r hm, fresh_of_core hcm hp.messages r hm⟩
    obtain ⟨hwc, htc⟩ := widened_all hcomposites fun r hm =>
      ⟨hr.settled.composites r hm, fresh_of_core hcc hp.composites r hm⟩
    obtain ⟨hwg, htg⟩ := widened_all hgroups fun r hm =>
      ⟨hr.settled.groups r hm, fresh_of_core hcg hp.groups r hm⟩
    refine ⟨laid, ⟨hwc, hwg, hwm, hn.of_core hr.core⟩, ?_, htc, htg, htm⟩
    rw [hdata, ← hp.data, data_build, data_build]
    rw [widened_build hwm, widened_build hwc, widened_build hwg, record_build_of_core hcm,
      record_build_of_core hcc, record_build_of_core hcg]
    change _ = _ ++ laid.core.enums.map _ ++ laid.core.unions.map _
    rw [hce, hcu]
    rfl

theorem find_key {α : Type} {key : α → String} {l : List α} (hn : (l.map key).Nodup) {a : α}
    (ha : a ∈ l) : l.find? (fun b => key b = key a) = some a := by
  induction l with
  | nil => cases ha
  | cons b l ih =>
    rw [List.map_cons, List.nodup_cons] at hn
    rw [List.find?_cons]
    obtain rfl | ha := List.mem_cons.mp ha
    · simp
    · have hne : key b ≠ key a := fun h => hn.1 (h ▸ List.mem_map_of_mem ha)
      simp [hne, ih hn.2 ha]

structure TypePlanned (contract : IdlContract) (laid wire_ir : Schema) (composite : Bool)
    (record : Record) (type : FormatTypePlan) : Prop where
  policy : validate_fields composite .fixed false record.fields = .ok ()
  typed : ∀ f ∈ record.fields, f.Typed ∧ binary_field_collection_supported f
  built : Built contract wire_ir false record.fields type.fields
  numbered : ∃ fields, record.fields = number_fields 0 0 fields
  placed : Placed laid (state_bytes record) record.fields type.fixed_block_size
  presence : type.presence_size = bitmap_bytes (optional_count record.fields)
  null : type.null_size = bitmap_bytes (nullable_count record.fields)

theorem parse_bitmap {n count : ℕ}
    (h : binary_plan_parse_optional_size (if 0 < count then some (bitmap_bytes count) else none) =
      some n) : n = bitmap_bytes count := by
  rw [binary_plan_parse_optional_size] at h
  by_cases hc : 0 < count
  · rw [if_pos hc, if_neg (by simp)] at h
    exact (Option.some.inj (parse_size_text_eq_some h)).symm
  · rw [if_neg hc, if_pos rfl] at h
    cases h
    rw [Nat.eq_zero_of_not_pos hc]
    rfl

variable {wire_ir : Schema} {composite : Bool} {type : FormatTypePlan}

theorem typePlanned_of_build {laid : Schema} {kind : IdlDataKind} {record₀ : Record}
    (hw : Widened laid record₀ record) (ht : ∀ f ∈ record.fields, f.Typed)
    (hnames : (record.fields.map Field.name).Nodup)
    (hfind : binary_plan_find_record wire_ir kind record.name = some record)
    (hpolicy : binary_validate_record_fields composite record = .ok ())
    (h : binary_plan_build_type contract wire_ir (record_build kind record) = .ok type) :
    TypePlanned contract laid wire_ir composite record type ∧ type.name = record.name ∧
      ∃ size, record₀.has_fixed_block_size ∧ record₀.fixed_block_size = some size ∧
        type.fixed_block_size = size + state_bytes record := by
  rw [binary_plan_build_type] at h
  dsimp only [record_build] at h
  rw [hfind] at h
  dsimp only at h
  split at h
  · rename_i fixed_block_size presence_size null_size hblock hpresence hnull
    obtain ⟨fields, hfields, h⟩ := bind_eq_ok.mp h
    cases h
    obtain ⟨size, hb, hsize, hstop, hplaced⟩ := hw.placed _ (parse_size_text_eq_some hblock)
    rw [hw.presence] at hpresence
    rw [hw.null] at hnull
    refine ⟨⟨hpolicy, fun f hf => ⟨ht f hf, supported_of_validate hpolicy f hf⟩, ?_, hw.numbered,
      hplaced, parse_bitmap hpresence, parse_bitmap hnull⟩, rfl, size, hb, hsize, hstop⟩
    exact built_of_fields (fun f hf => find_key hnames hf) hfields
  · cases h

/-- The layout of a record is consistent: its fixed fields come first and fill the block from the
bitmaps to its end, and the state bits are numbered within the bitmaps. -/
structure FormatTypePlan.Consistent (type : FormatTypePlan) : Prop where
  first : type.fields.filter (fun p => p.kind = .fixed) =
    type.fields.takeWhile fun p => p.kind = .fixed
  packed : Packed (type.presence_size + type.null_size)
    (type.fields.filter fun p => p.kind = .fixed) type.fixed_block_size
  disjoint : (type.fields.filter fun p => p.kind = .fixed).Pairwise
    fun p q => p.wire_offset + p.wire_extent ≤ q.wire_offset
  optional_bits : (type.fields.filter FormatFieldPlan.optional).map FormatFieldPlan.optional_bit =
    List.range (type.fields.countP FormatFieldPlan.optional)
  optional_room : type.fields.countP FormatFieldPlan.optional ≤ 8 * type.presence_size
  nullable_bits : (type.fields.filter FormatFieldPlan.nullable).map FormatFieldPlan.nullable_bit =
    List.range (type.fields.countP FormatFieldPlan.nullable)
  nullable_room : type.fields.countP FormatFieldPlan.nullable ≤ 8 * type.null_size

theorem bits_range {plans : List FormatFieldPlan} {marked : FormatFieldPlan → Bool}
    {bit : FormatFieldPlan → ℕ} {count : ℕ}
    (h : (plans.filter marked).map bit = List.range' 0 count) :
    plans.countP marked = count ∧
      (plans.filter marked).map bit = List.range (plans.countP marked) := by
  have hlen := congrArg List.length h
  rw [List.length_map, List.length_range', ← List.countP_eq_length_filter] at hlen
  rw [hlen, List.range_eq_range']
  exact ⟨rfl, h⟩

theorem le_bitmap (count : ℕ) : count ≤ 8 * bitmap_bytes count := by
  rw [bitmap_bytes]
  omega

theorem TypePlanned.consistent {laid : Schema}
    (h : TypePlanned contract laid wire_ir composite record type) : type.Consistent := by
  have hfirst := filter_fixed h.policy h.built fun f hf => (h.typed f hf).1
  have hpacked := packed_of_placed h.placed h.built h.typed
  rw [state_bytes, ← h.presence, ← h.null, ← hfirst] at hpacked
  obtain ⟨fields, hnum⟩ := h.numbered
  have hb := h.built
  rw [hnum] at hb
  have hcore := core_of_moved (moved_numbers 0 0 fields)
  obtain ⟨hoc, hob⟩ := bits_range (Binary.optional_bits hb)
  obtain ⟨hnc, hnb⟩ := bits_range (Binary.nullable_bits hb)
  refine ⟨hfirst, hpacked, hpacked.pairwise, hob, ?_, hnb, ?_⟩
  · rw [hoc, h.presence, hnum, optional_count_core hcore]
    exact le_bitmap _
  · rw [hnc, h.null, hnum, nullable_count_core hcore]
    exact le_bitmap _

/-- The bytes of one value of the type that a fixed field holds. -/
def element_extent (field : IdlField) (plan : FormatFieldPlan) : ℕ :=
  match field.collection_kind with
  | .array => plan.wire_extent / (schema_parse_fixed_layout_size field.length).getD 0
  | _ => plan.wire_extent

theorem builtin_of_primitive {name : String} (h : primitive_type_size name ≠ none) :
    idl_logical_builtin_type name = true := by
  rw [primitive_type_size] at h
  split_ifs at h with hu
  · rw [hu]
    decide
  · rw [databind_binary_scalar_profile_find] at h
    cases hf : scalar_profiles.find? fun p => p.1.contains name with
    | none =>
      rw [hf] at h
      exact absurd rfl h
    | some entry =>
      have hall : ∀ p ∈ scalar_profiles, ∀ n ∈ p.1, idl_logical_builtin_type n = true := by
        decide
      have hmem := List.find?_some hf
      exact hall entry (List.mem_of_find?_eq_some hf) name (by simpa using hmem)

variable {field : Field}

theorem collection_of_none (hc : binary_field_collection_supported field)
    (hk : collection_kind field = .none) : ¬ field.is_group_field ∧ ¬ field.is_collection := by
  rw [collection_kind] at hk
  rw [binary_field_collection_supported] at hc
  by_cases hg : field.is_group_field
  · simp [hg] at hk
  · refine ⟨hg, fun hcol => ?_⟩
    rw [if_neg hg, if_neg (by simp [hcol])] at hk
    rw [if_neg (by simp [hcol])] at hc
    split at hk <;> simp_all

theorem collection_of_array (hc : binary_field_collection_supported field)
    (hk : collection_kind field = .array) :
    field.is_collection ∧ field.is_fixed_size ∧ field.collection_kind = some "array" := by
  rw [collection_kind] at hk
  rw [binary_field_collection_supported] at hc
  by_cases hg : field.is_group_field
  · simp [hg] at hk
  · by_cases hcol : field.is_collection
    · rw [if_neg hg, if_neg (by simp [hcol])] at hk
      rw [if_neg (by simp [hcol])] at hc
      split at hk <;> simp_all
    · simp [hg, hcol] at hk

theorem element_extent_eq {laid : Schema} {plan : FormatFieldPlan} {name : String} {size : ℕ}
    (ht : field.Typed) (hc : binary_field_collection_supported field) (htail : ¬ field.isTail)
    (hres : resolve_field_fixed_size laid field = some plan.wire_extent) (h0 : plan.wire_extent ≠ 0)
    (hheld : (field_build field).held_type = some name)
    (hbuiltin : idl_logical_builtin_type name = false)
    (hfind : find_composite_by_name laid name = some record)
    (hsize : record.fixed_block_size = some size) (henum : find_enum_by_name laid name = none) :
    element_extent (field_build field) plan = size := by
  have hprim : primitive_type_size name = none := by
    by_contra hp
    rw [builtin_of_primitive hp] at hbuiltin
    cases hbuiltin
  have htype : ∀ n, resolve_type_fixed_size laid name = some n → n = size := by
    intro n hn
    rw [resolve_type_fixed_size, hprim] at hn
    rw [hfind] at hn
    dsimp only at hn
    split_ifs at hn
    · exact (Option.some.inj (hsize.symm.trans (parse_size_text_eq_some hn))).symm
    · simp [resolve_enum_fixed_size, henum] at hn
  rw [Field.isTail] at htail
  simp only [Bool.or_eq_true, not_or] at htail
  rw [resolve_field_fixed_size, if_neg (by simp [htail.1.1, htail.1.2])] at hres
  rw [IdlField.held_type] at hheld
  rw [element_extent]
  cases hk : (field_build field).collection_kind with
  | none =>
    rw [hk] at hheld
    have hname : field.type = name := Option.some.inj hheld
    obtain ⟨-, hcol⟩ := collection_of_none hc hk
    have hnum : ¬ field.is_numeric := fun h => ht.numeric h (hname ▸ hprim)
    have hbytes : ¬ field.is_bytes := fun h => by
      rw [← hname, ht.bytes h] at hbuiltin
      exact absurd hbuiltin (by decide)
    rw [if_neg (by simp [hnum, hbytes]), if_neg hcol, hname] at hres
    exact htype _ hres
  | array =>
    rw [hk] at hheld
    obtain ⟨hcol, hfix, hkind⟩ := collection_of_array hc hk
    have harray := ht.kind _ hkind
    have hnum : ¬ field.is_numeric := fun h => ht.numeric h (by rw [harray]; decide)
    have hbytes : ¬ field.is_bytes := fun h => by
      have := harray.symm.trans (ht.bytes h)
      exact absurd this (by decide)
    rw [if_neg (by simp [hnum, hbytes]), if_pos hcol, if_neg (by simp [hfix])] at hres
    obtain ⟨count, hcount, hres⟩ := Option.bind_eq_some_iff.mp hres
    obtain ⟨inner, hinner, hres⟩ := Option.bind_eq_some_iff.mp hres
    have hheld' : field.inner_type = some name := hheld
    rw [hheld'] at hinner
    have hin := htype inner hinner
    split_ifs at hres
    have hext : inner * count = plan.wire_extent := Option.some.inj hres
    have hpos : 0 < count := Nat.pos_of_ne_zero fun hz => h0 (by rw [← hext, hz, Nat.mul_zero])
    have hlen : schema_parse_fixed_layout_size (field_build field).length = some count := hcount
    simp only [hlen, Option.getD_some]
    rw [← hext, Nat.mul_div_cancel _ hpos, hin]
  | group | list | set | map =>
    rw [hk] at hheld
    cases hheld

theorem names_nodup (h : idl_contract_build_from_tree tree = some contract) :
    (contract.data.map IdlDataDecl.name).Nodup ∧
      (∀ d ∈ contract.data, (d.fields.map IdlField.name).Nodup) ∧
      ∀ d ∈ contract.data, idl_logical_builtin_type d.name = false := by
  rw [idl_contract_build_from_tree] at h
  split_ifs at h with hc
  cases h
  simp only [idl_contract_validate_data_names, Bool.and_eq_true, decide_eq_true_eq,
    List.all_eq_true, Bool.not_eq_true'] at hc
  exact ⟨hc.1.2, fun d hd => (hc.1.1 d hd).2, hc.2⟩

/-- The node of a declaration, in the tree as it was laid out and in the annotated one. -/
structure Owned (laid wire_ir : Schema) (owner : IdlDataDecl) (composite : Bool)
    (record₀ record : Record) : Prop where
  build : owner = record_build owner.kind record
  widened : Widened laid record₀ record
  typed : ∀ f ∈ record.fields, f.Typed
  find : binary_plan_find_record wire_ir owner.kind record.name = some record
  policy : binary_validate_record_fields composite record = .ok ()
  laid : owner.kind = .composite → find_composite_by_name laid record.name = some record₀

theorem widened_names {laid : Schema} (h : List.Forall₂ (Widened laid) records records') :
    records'.map Record.name = records.map Record.name :=
  (@forall₂_split _ _ _ _ (fun _ => True) _ _ (fun _ _ hw => ⟨trivial, hw.name⟩) _ _ h).2

theorem owned_of_mem {laid : Schema} (ha : Applied contract laid root)
    (hn : (contract.data.map IdlDataDecl.name).Nodup)
    (hp : binary_validate_layout_policy root = .ok ()) {owner : IdlDataDecl}
    (ho : owner ∈ contract.data) (hk : owner.kind.isRecord) :
    ∃ composite record₀ record, Owned laid root owner composite record₀ record := by
  obtain ⟨_, hcomposites, hp⟩ := bind_eq_ok.mp hp
  obtain ⟨_, hgroups, hmessages⟩ := bind_eq_ok.mp hp
  rw [ha.data] at ho hn
  have hname : ∀ kind (records : List Record),
      (records.map (record_build kind)).map IdlDataDecl.name = records.map Record.name := by
    intro kind records
    rw [List.map_map]
    rfl
  simp only [data_build, List.map_append, hname] at hn
  rw [List.nodup_append, List.nodup_append, List.nodup_append, List.nodup_append] at hn
  simp only [data_build, List.mem_append, List.mem_map] at ho
  obtain (((⟨r, hr, rfl⟩ | ⟨r, hr, rfl⟩) | ⟨r, hr, rfl⟩) | ⟨e, -, rfl⟩) | ⟨r, -, rfl⟩ := ho
  · obtain ⟨r₀, -, hw⟩ := forall₂_mem_right ha.overlaid.messages r hr
    exact ⟨false, r₀, r, rfl, hw, ha.messages r hr, find_key hn.1.1.1.1 hr,
      forM_eq_ok hmessages r hr, nofun⟩
  · obtain ⟨r₀, hr₀, hw⟩ := forall₂_mem_right ha.overlaid.composites r hr
    have hc := hn.1.1.1.2.1
    refine ⟨true, r₀, r, rfl, hw, ha.composites r hr, find_key hc hr,
      forM_eq_ok hcomposites r hr, fun _ => ?_⟩
    rw [widened_names ha.overlaid.composites] at hc
    rw [hw.name]
    exact find_key hc hr₀
  · obtain ⟨r₀, -, hw⟩ := forall₂_mem_right ha.overlaid.groups r hr
    exact ⟨false, r₀, r, rfl, hw, ha.groups r hr, find_key hn.1.1.2.1 hr,
      forM_eq_ok hgroups r hr, nofun⟩
  · cases hk
  · cases hk

theorem build_type_name {decl : IdlDataDecl}
    (h : binary_plan_build_type contract wire_ir decl = .ok type) : type.name = decl.name := by
  rw [binary_plan_build_type] at h
  split at h
  · cases h
  · split at h
    · obtain ⟨fields, -, h⟩ := bind_eq_ok.mp h
      cases h
      rfl
    · cases h

theorem find_type_of_mem {plan : FormatPlan} (hn : (contract.data.map IdlDataDecl.name).Nodup)
    (hp : databind_binary_format_plan_build contract root = .ok plan) :
    binary_validate_layout_policy root = .ok () ∧
      ∀ owner ∈ contract.data, owner.kind.isRecord →
        ∃ type, databind_binary_format_plan_find_type plan owner.name = some type ∧
          binary_plan_build_type contract root owner = .ok type := by
  rw [databind_binary_format_plan_build, guard_eq_ok] at hp
  obtain ⟨_, hpolicy, hp⟩ := bind_eq_ok.mp hp.2
  rw [guard_eq_ok] at hp
  obtain ⟨types, htypes, hp⟩ := bind_eq_ok.mp hp.2
  cases hp
  refine ⟨hpolicy, fun owner ho hk => ?_⟩
  have hrel := mapM_eq_ok htypes
  have hnames := (@forall₂_split _ _ _ _ (fun _ => True) IdlDataDecl.name FormatTypePlan.name
    (fun _ _ ht => ⟨trivial, build_type_name ht⟩) _ _ hrel).2
  have hnodup : (types.map FormatTypePlan.name).Nodup := by
    rw [hnames]
    exact hn.sublist (List.filter_sublist.map _)
  obtain ⟨type, hmem, hbuild⟩ := forall₂_mem_right hrel.flip owner
    (List.mem_filter.mpr ⟨ho, hk⟩)
  refine ⟨type, ?_, hbuild⟩
  rw [databind_binary_format_plan_find_type, ← build_type_name hbuild]
  exact find_key hnodup hmem

theorem owner_planned {laid : Schema} {owner : IdlDataDecl} {record₀ : Record}
    (hc : idl_contract_build_from_tree tree = some contract) (ho : owner ∈ contract.data)
    (hw : Owned laid root owner composite record₀ record)
    (hb : binary_plan_build_type contract root owner = .ok type) :
    TypePlanned contract laid root composite record type ∧
      ∃ size, record₀.fixed_block_size = some size ∧
        type.fixed_block_size = size + state_bytes record := by
  have hfields := (names_nodup hc).2.1 owner ho
  rw [hw.build] at hb hfields
  have hnames : (record.fields.map Field.name).Nodup := by
    rw [record_build, List.map_map] at hfields
    exact hfields
  obtain ⟨hplanned, -, size, -, hsize, hstop⟩ :=
    typePlanned_of_build hw.widened hw.typed hnames hw.find hw.policy hb
  exact ⟨hplanned, size, hsize, hstop⟩

theorem state_bytes_eq_zero_iff (kind : IdlDataKind) (record : Record) :
    state_bytes record = 0 ↔
      ∀ m ∈ (record_build kind record).fields, m.optional = false ∧ m.nullable = false := by
  have hz : ∀ n, bitmap_bytes n = 0 ↔ n = 0 := by
    intro n
    rw [bitmap_bytes]
    omega
  rw [state_bytes, Nat.add_eq_zero_iff, hz, hz, optional_count, nullable_count,
    List.countP_eq_zero, List.countP_eq_zero]
  simp only [record_build, List.mem_map, forall_exists_index, and_imp,
    forall_apply_eq_imp_iff₂, field_build, Bool.not_eq_true]
  exact ⟨fun h f hf => ⟨h.1 f hf, h.2 f hf⟩, fun h => ⟨fun f hf => (h f hf).1,
    fun f hf => (h f hf).2⟩⟩

/-- In the plan of a schema every record has a consistent layout. The extent of a field, or of an
element of a fixed array, that holds a composite is the block size of the composite without its
bitmaps, so it is the block size itself just for a composite without optional and nullable
fields. -/
theorem overlay_layout_consistent {d : SchemaDecl} {fuel : ℕ} {root : Schema}
    {contract : IdlContract} {plan : FormatPlan}
    (happly : databind_binary_contract_apply fuel d.tree = .ok root)
    (hcontract : idl_contract_build_from_tree d.tree = some contract)
    (hplan : databind_binary_format_plan_build contract root = .ok plan) :
    ∀ owner ∈ contract.data, owner.kind.isRecord →
      ∃ type, databind_binary_format_plan_find_type plan owner.name = some type ∧
        type.Consistent ∧
        ∀ (i : ℕ) (field : IdlField) (p : FormatFieldPlan), owner.fields[i]? = some field →
          type.fields[i]? = some p → p.kind = .fixed →
          ∀ c ∈ contract.data, c.kind = .composite → field.held_type = some c.name →
            ∃ child, databind_binary_format_plan_find_type plan c.name = some child ∧
              element_extent field p + (child.presence_size + child.null_size) =
                child.fixed_block_size ∧
              (element_extent field p = child.fixed_block_size ↔
                ∀ m ∈ c.fields, m.optional = false ∧ m.nullable = false) := by
  obtain ⟨laid, happlied⟩ := applied_of_apply happly hcontract
  obtain ⟨hnodup, -, hbuiltin⟩ := names_nodup hcontract
  obtain ⟨hpolicy, htypes⟩ := find_type_of_mem hnodup hplan
  intro owner howner hrecord
  obtain ⟨type, htype, hbuild⟩ := htypes owner howner hrecord
  obtain ⟨composite, record₀, record, howned⟩ :=
    owned_of_mem happlied hnodup hpolicy howner hrecord
  obtain ⟨hplanned, -⟩ := owner_planned hcontract howner howned hbuild
  refine ⟨type, htype, hplanned.consistent, ?_⟩
  intro i field p hfield hp hfixed c hc hkind hheld
  -- the field and the composite that it holds
  rw [howned.build, record_build, List.getElem?_map, Option.map_eq_some_iff] at hfield
  obtain ⟨node, hnode, rfl⟩ := hfield
  obtain ⟨htail, hres, h0⟩ := fixed_at hplanned.placed hplanned.policy hplanned.built
    hplanned.typed hnode hp hfixed
  obtain ⟨ht, hsup⟩ := hplanned.typed node (List.mem_of_getElem? hnode)
  have hcr : c.kind.isRecord := by rw [hkind]; rfl
  obtain ⟨child, hchild, hcbuild⟩ := htypes c hc hcr
  obtain ⟨_, child₀, childRecord, hcowned⟩ := owned_of_mem happlied hnodup hpolicy hc hcr
  obtain ⟨hcplanned, size, hsize, hstop⟩ := owner_planned hcontract hc hcowned hcbuild
  have hname : c.name = childRecord.name := congrArg IdlDataDecl.name hcowned.build
  have hfind : find_composite_by_name laid c.name = some child₀ := hname ▸ hcowned.laid hkind
  have henum : find_enum_by_name laid c.name = none := by
    have hmem : child₀ ∈ laid.composites := List.mem_of_find?_eq_some hfind
    rw [hname, hcowned.widened.name]
    exact happlied.overlaid.noClash child₀ hmem
  have hextent := element_extent_eq ht hsup htail hres h0 hheld (hbuiltin c hc) hfind hsize henum
  have hstate : child.presence_size + child.null_size = state_bytes childRecord := by
    rw [hcplanned.presence, hcplanned.null, state_bytes]
  refine ⟨child, hchild, by rw [hextent, hstate, hstop], ?_⟩
  have hiff := state_bytes_eq_zero_iff c.kind childRecord
  rw [← hcowned.build] at hiff
  rw [hextent, hstop, ← hiff]
  omega

def pairSchema : SchemaDecl :=
  { composites := [⟨"Pair", [{ type_str := "uint8", name_str := "left", is_optional := true }]⟩]
    messages := [⟨"Frame", [{ type_str := "Pair", name_str := "pair" }]⟩] }

def pairContract : IdlContract := ⟨data_build pairSchema.tree⟩

def pairRoot : Schema := (databind_binary_contract_apply 3 pairSchema.tree).toOption.getD {}

def pairPlan : FormatPlan :=
  (databind_binary_format_plan_build pairContract pairRoot).toOption.getD ⟨[]⟩

theorem pair_built : databind_binary_contract_apply 3 pairSchema.tree = .ok pairRoot ∧
    idl_contract_build_from_tree pairSchema.tree = some pairContract ∧
    databind_binary_format_plan_build pairContract pairRoot = .ok pairPlan := by
  decide +kernel

theorem overlay_layout_consistent_pair :
    ∃ type, databind_binary_format_plan_find_type pairPlan "Frame" = some type ∧
      type.Consistent := by
  have hmem : record_build .message (RecordDecl.record
      ⟨"Frame", [{ type_str := "Pair", name_str := "pair" }]⟩) ∈ pairContract.data :=
    List.mem_cons_self
  obtain ⟨type, hfind, hconsistent, -⟩ :=
    overlay_layout_consistent pair_built.1 pair_built.2.1 pair_built.2.2 _ hmem rfl
  exact ⟨type, hfind, hconsistent⟩

/-- The message keeps one byte for a composite whose block has two. -/
theorem overlay_extent_misses_bitmap :
    databind_binary_contract_apply 3 pairSchema.tree = .ok pairRoot ∧
      idl_contract_build_from_tree pairSchema.tree = some pairContract ∧
      databind_binary_format_plan_build pairContract pairRoot = .ok pairPlan ∧
      ∃ type child p, databind_binary_format_plan_find_type pairPlan "Frame" = some type ∧
        databind_binary_format_plan_find_type pairPlan "Pair" = some child ∧
        type.fields = [p] ∧ p.kind = .fixed ∧ p.wire_extent = 1 ∧ child.fixed_block_size = 2 := by
  refine ⟨pair_built.1, pair_built.2.1, pair_built.2.2, ?_⟩
  exact ⟨⟨"Frame", 1, 0, 0, false, [{ name := "pair", kind := .fixed, wire_extent := 1 }]⟩,
    ⟨"Pair", 2, 1, 0, false,
      [{ name := "left", kind := .fixed, wire_offset := 1, wire_extent := 1, optional := true }]⟩,
    { name := "pair", kind := .fixed, wire_extent := 1 }, by decide +kernel, by decide +kernel,
    rfl, rfl, rfl, rfl⟩

end SaltsUtils.Binary
