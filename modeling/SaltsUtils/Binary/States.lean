import SaltsUtils.Binary.Overlay

/-!
# Profiles and state bitmaps

What the first pass knows of a field by its type, and what the last pass makes of a record that is
laid out: every offset and the block size move behind the bitmaps, and the state bits are numbered.
-/

set_option autoImplicit false

namespace SaltsUtils.Binary

structure Field.Typed (field : Field) : Prop where
  numeric : field.is_numeric → primitive_type_size field.type ≠ none
  bytes : field.is_bytes → field.type = "bytes"
  sized : field.size_bytes ≠ none → field.is_numeric ∨ field.is_bytes ∨ field.type = "uuid"
  kind : ∀ kind, field.collection_kind = some kind → field.type = kind
  var : field.is_var_data → field.type = "string" ∨ field.type = "bytes"

theorem Field.Typed.of_core {f g : Field} (h : f.core = g.core) (hg : g.Typed) : f.Typed := by
  have ht : g.core.Typed := ⟨hg.numeric, hg.bytes, hg.sized, hg.kind, hg.var⟩
  rw [← h] at ht
  exact ⟨ht.numeric, ht.bytes, ht.sized, ht.kind, ht.var⟩

theorem add_field_kind (d : FieldDecl) :
    (add_field d).type = d.type_str ∧ (add_field d).is_numeric = false ∧
      (add_field d).size_bytes = none ∧
      ((add_field d).is_bytes = true ↔ d.is_group_field = false ∧ d.type_str = "bytes") ∧
      (add_field d).is_group_field = d.is_group_field ∧ (add_field d).is_var_data = false ∧
      ∀ kind, (add_field d).collection_kind = some kind → d.type_str = kind := by
  rw [add_field, annotate_field]
  by_cases hg : d.is_group_field
  · simp [hg]
  by_cases hb : d.type_str = "bytes"
  · simp [hg, hb]
  by_cases hs : d.type_str = "string"
  · simp [hg, hs]
  simp only [hg, hb, hs, if_false, Bool.false_eq_true]
  split_ifs with hc hm
  · cases split_map_inner 0 d.inner.toList <;> simp
  · simp
  · simp

theorem primitive_of_profile {name : String} {profile : ScalarProfile}
    (h : databind_binary_scalar_profile_find name = some profile) :
    primitive_type_size name ≠ none := by
  rw [primitive_type_size]
  split_ifs
  · simp
  · simp [h]

theorem profile_spec {d : FieldDecl} {field : Field}
    (h : binary_annotate_field_profile (add_field d) = .ok field) :
    field.Typed ∧ field_build field = field_build (add_field d) := by
  obtain ⟨htype, hnumeric, hsize, hbytes, hgroup, hvar, hkind⟩ := add_field_kind d
  generalize add_field d = f at *
  rw [binary_annotate_field_profile, guard_eq_ok] at h
  obtain ⟨g, hg, hfield⟩ := map_eq_ok.mp h.2
  -- the last step only adds the mark of variable data
  suffices hgt : g.Typed ∧ field_build g = field_build f by
    obtain ⟨ht, hb⟩ := hgt
    split_ifs at hfield with hvar
    · subst hfield
      refine ⟨⟨ht.numeric, ht.bytes, ht.sized, ht.kind, fun _ => ?_⟩, hb⟩
      simp only [Bool.and_eq_true, Bool.or_eq_true, decide_eq_true_eq] at hvar
      exact hvar.2.imp_right And.left
    · subst hfield
      exact ⟨ht, hb⟩
  have hplain : f.Typed :=
    ⟨by simp [hnumeric], fun hb => htype.trans (hbytes.mp hb).2, by simp [hsize],
      fun kind hk => htype.trans (hkind kind hk), by simp [hvar]⟩
  by_cases hgr : f.is_group_field
  · rw [if_pos hgr] at hg
    cases hg
    exact ⟨hplain, rfl⟩
  rw [if_neg hgr] at hg
  cases hp : (databind_binary_scalar_profile_find f.type).filter fun p => p.kind ≠ .bool with
  | some profile =>
    rw [hp] at hg
    cases hg
    have hfind := (Option.filter_eq_some_iff.mp hp).1
    exact ⟨⟨fun _ => primitive_of_profile hfind, hplain.bytes, fun _ => .inl rfl, hplain.kind,
      hplain.var⟩,
      rfl⟩
  | none =>
    rw [hp] at hg
    dsimp only at hg
    by_cases hu : f.type = "uuid"
    · rw [if_pos hu] at hg
      cases hg
      exact ⟨⟨hplain.numeric, hplain.bytes, fun _ => .inr (.inr hu), hplain.kind, hplain.var⟩, rfl⟩
    rw [if_neg hu] at hg
    by_cases hb : f.type = "bytes"
    · rw [if_pos hb] at hg
      have hisb : f.is_bytes = true := hbytes.mpr ⟨by rw [← hgroup]; simpa using hgr, htype ▸ hb⟩
      by_cases hl : binary_numeric_literal f.length_field
      · rw [if_pos hl] at hg
        split at hg
        · cases hg
          exact ⟨⟨hplain.numeric, hplain.bytes, fun _ => .inr (.inl hisb), hplain.kind,
            hplain.var⟩, rfl⟩
        · cases hg
      · rw [if_neg hl] at hg
        cases hg
        exact ⟨hplain, rfl⟩
    rw [if_neg hb] at hg
    split_ifs at hg <;> cases hg <;>
      exact ⟨⟨hplain.numeric, hplain.bytes, hplain.sized, hplain.kind, hplain.var⟩, rfl⟩

/-- `LaidOut` without the bound on offsets, which moving the fields does not keep. -/
def Placed (root : Schema) : ℕ → List Field → ℕ → Prop
  | offset, [], stop => offset = stop
  | offset, field :: fields, stop =>
    if field.isTail then offset = stop
    else
      ∃ size, resolve_field_fixed_size root field = some size ∧ field.offset = some offset ∧
        field.field_size_bytes = some size ∧ Placed root (offset + size) fields stop

variable {root : Schema} {fields : List Field}

theorem LaidOut.placed {offset stop : ℕ} (h : LaidOut root offset fields stop) :
    Placed root offset fields stop := by
  induction fields generalizing offset with
  | nil => exact h
  | cons field fields ih =>
    rw [LaidOut] at h
    rw [Placed]
    split_ifs at h ⊢
    · exact h
    · obtain ⟨size, hs, ho, hf, -, hl⟩ := h
      exact ⟨size, hs, ho, hf, ih hl⟩

def Moved (bytes : ℕ) (f g : Field) : Prop :=
  g.core = f.core ∧ g.offset = f.offset.map (· + bytes) ∧ g.field_size_bytes = f.field_size_bytes

variable {bytes : ℕ} {fields' : List Field}

theorem Placed.moved {offset stop : ℕ} (h : Placed root offset fields stop)
    (hm : List.Forall₂ (Moved bytes) fields fields') :
    Placed root (offset + bytes) fields' (stop + bytes) := by
  induction hm generalizing offset with
  | nil => exact congrArg (· + bytes) h
  | @cons f g fields fields' hfg _ ih =>
    obtain ⟨hc, ho, hs⟩ := hfg
    rw [Placed] at h ⊢
    rw [isTail_core hc]
    split_ifs at h ⊢
    · exact congrArg (· + bytes) h
    · obtain ⟨size, hr, hfo, hfs, hl⟩ := h
      refine ⟨size, (resolve_field_core root hc).trans hr, by rw [ho, hfo]; rfl, hs.trans hfs, ?_⟩
      rw [Nat.add_right_comm]
      exact ih hl

theorem core_of_moved (h : List.Forall₂ (Moved bytes) fields fields') :
    fields'.map Field.core = fields.map Field.core := by
  induction h with
  | nil => rfl
  | cons hfg _ ih => rw [List.map_cons, List.map_cons, hfg.1, ih]

theorem moved_references (root : Schema) (fields : List Field) :
    List.Forall₂ (Moved 0) fields (fields.map (annotate_field_references root)) := by
  induction fields with
  | nil => exact .nil
  | cons field fields ih =>
    refine .cons ?_ ih
    rw [annotate_field_references]
    split_ifs
    · split
      · exact ⟨rfl, by simp, rfl⟩
      · exact ⟨rfl, by simp, rfl⟩
    · exact ⟨rfl, by simp, rfl⟩

theorem moved_numbers (i j : ℕ) (fields : List Field) :
    List.Forall₂ (Moved 0) fields (number_fields i j fields) := by
  induction fields generalizing i j with
  | nil => exact .nil
  | cons field fields ih => exact .cons ⟨rfl, by simp, rfl⟩ (ih _ _)

theorem shift_size_eq_some {size : ℕ} {old : Option ℕ} (h : shift_size bytes old = some size) :
    ∃ n, old = some n ∧ size = n + bytes := by
  obtain ⟨n, hn, h⟩ := Option.bind_eq_some_iff.mp h
  split_ifs at h
  exact ⟨n, (Option.filter_eq_some_iff.mp hn).1, (Option.some.inj h).symm⟩

theorem moved_shift (h : fields.mapM (shift_field bytes) = some fields') :
    List.Forall₂ (Moved bytes) fields fields' := by
  refine (mapM_eq_some h).imp fun f g hfg => ?_
  rw [shift_field] at hfg
  split_ifs at hfg with ho
  · cases hfg
    exact ⟨rfl, by simp [ho], rfl⟩
  · obtain ⟨offset, hs, rfl⟩ := Option.map_eq_some_iff.mp hfg
    obtain ⟨n, hn, rfl⟩ := shift_size_eq_some hs
    exact ⟨rfl, by simp [hn], rfl⟩

def optional_count (fields : List Field) : ℕ := fields.countP Field.is_optional
def nullable_count (fields : List Field) : ℕ := fields.countP Field.is_nullable

def state_bytes (record : Record) : ℕ :=
  bitmap_bytes (optional_count record.fields) + bitmap_bytes (nullable_count record.fields)

theorem optional_count_core (h : fields'.map Field.core = fields.map Field.core) :
    optional_count fields' = optional_count fields := by
  have hc : ∀ l : List Field, optional_count l = (l.map Field.core).countP Field.is_optional :=
    fun l => by rw [List.countP_map]; rfl
  rw [hc, hc, h]

theorem nullable_count_core (h : fields'.map Field.core = fields.map Field.core) :
    nullable_count fields' = nullable_count fields := by
  have hc : ∀ l : List Field, nullable_count l = (l.map Field.core).countP Field.is_nullable :=
    fun l => by rw [List.countP_map]; rfl
  rw [hc, hc, h]

/-- What the last two passes make of a record. -/
structure Widened (root : Schema) (record record' : Record) : Prop where
  name : record'.name = record.name
  fields : record'.fields.map Field.core = record.fields.map Field.core
  numbered : ∃ fields, record'.fields = number_fields 0 0 fields
  presence : record'.presence_bitmap_bytes =
    if 0 < optional_count record'.fields then some (bitmap_bytes (optional_count record'.fields))
    else none
  null : record'.null_bitmap_bytes =
    if 0 < nullable_count record'.fields then some (bitmap_bytes (nullable_count record'.fields))
    else none
  placed : ∀ stop, record'.fixed_block_size = some stop →
    ∃ size, record.has_fixed_block_size ∧ record.fixed_block_size = some size ∧
      stop = size + state_bytes record' ∧
      Placed root (state_bytes record') record'.fields stop

theorem number_fields_none (ho : optional_count fields = 0) (hn : nullable_count fields = 0)
    (i j : ℕ) : number_fields i j fields = fields := by
  induction fields generalizing i j with
  | nil => rfl
  | cons field fields ih =>
    rw [optional_count, List.countP_eq_zero, List.forall_mem_cons] at ho
    rw [nullable_count, List.countP_eq_zero, List.forall_mem_cons] at hn
    rw [number_fields, if_neg ho.1, if_neg hn.1, if_neg ho.1, if_neg hn.1,
      ih (List.countP_eq_zero.mpr ho.2) (List.countP_eq_zero.mpr hn.2)]

theorem placed_of_settled {record : Record} (hs : Settled root record) {size : ℕ}
    (h : record.fixed_block_size = some size) :
    record.has_fixed_block_size ∧ Placed root 0 record.fields size := by
  rw [Settled] at hs
  split_ifs at hs with hb
  · obtain ⟨stop, hf, hl⟩ := hs
    cases hf.symm.trans h
    exact ⟨hb, hl.placed⟩
  · rw [hs] at h
    cases h

theorem bitmap_sizes_spec (i j : ℕ) (record : Record) :
    (annotate_bitmap_sizes i j record).name = record.name ∧
      (annotate_bitmap_sizes i j record).fields = record.fields ∧
      (annotate_bitmap_sizes i j record).fixed_block_size = record.fixed_block_size ∧
      (annotate_bitmap_sizes i j record).presence_bitmap_bytes =
        (if 0 < i then some (bitmap_bytes i) else record.presence_bitmap_bytes) ∧
      (annotate_bitmap_sizes i j record).null_bitmap_bytes =
        (if 0 < j then some (bitmap_bytes j) else record.null_bitmap_bytes) := by
  rw [annotate_bitmap_sizes]
  split_ifs <;> exact ⟨rfl, rfl, rfl, rfl, rfl⟩

theorem widened_of_states {root' : Schema} {record record' : Record} (hs : Settled root record)
    (hp : record.presence_bitmap_bytes = none) (hn : record.null_bitmap_bytes = none)
    (h : annotate_record_states (annotate_record_references root' record) = some record') :
    Widened root record record' := by
  have hrefs := moved_references root' record.fields
  have hplaced : ∀ size, record.fixed_block_size = some size →
      record.has_fixed_block_size ∧
        Placed root 0 (record.fields.map (annotate_field_references root')) size := fun size hf =>
    ⟨(placed_of_settled hs hf).1, (placed_of_settled hs hf).2.moved hrefs⟩
  have hcore := core_of_moved hrefs
  generalize hfs : record.fields.map (annotate_field_references root') = fields at *
  rw [annotate_record_references, hfs, annotate_record_states] at h
  dsimp only at h
  rw [← optional_count, ← nullable_count] at h
  by_cases hc : optional_count fields = 0 ∧ nullable_count fields = 0
  · rw [if_pos hc] at h
    cases h
    refine ⟨rfl, hcore, ⟨fields, (number_fields_none hc.1 hc.2 0 0).symm⟩, ?_, ?_, ?_⟩
    · simp [hc.1, hp]
    · simp [hc.2, hn]
    · intro stop hstop
      have hz : state_bytes { record with fields := fields } = 0 := by
        simp [state_bytes, hc.1, hc.2, bitmap_bytes]
      rw [hz]
      exact ⟨stop, (hplaced stop hstop).1, hstop, rfl, (hplaced stop hstop).2⟩
  rw [if_neg hc] at h
  split_ifs at h with hmax hfixed
  · obtain ⟨hname, hfields, hblock, hpresence, hnull⟩ := bitmap_sizes_spec
      (optional_count fields) (nullable_count fields) { record with fields := fields }
    generalize annotate_bitmap_sizes _ _ _ = sized at *
    cases h
    rw [hfields]
    have hnumbers := core_of_moved (moved_numbers 0 0 fields)
    refine ⟨hname, hnumbers.trans hcore, ⟨fields, rfl⟩, ?_, ?_, ?_⟩
    · rw [optional_count_core hnumbers, hpresence, hp]
    · rw [nullable_count_core hnumbers, hnull, hn]
    · intro stop hstop
      rw [hfixed] at hstop
      cases hstop
  · obtain ⟨hname, hfields, hblock, hpresence, hnull⟩ := bitmap_sizes_spec
      (optional_count fields) (nullable_count fields) { record with fields := fields }
    generalize annotate_bitmap_sizes _ _ _ = sized at *
    dsimp only at hfields hblock hpresence hnull
    obtain ⟨size, hsize, h⟩ := Option.bind_eq_some_iff.mp h
    obtain ⟨shifted, hshift, h⟩ := Option.bind_eq_some_iff.mp h
    cases h
    rw [hfields] at hshift
    rw [hblock] at hsize
    have hmoved := moved_shift hshift
    have hnumbers := moved_numbers 0 0 shifted
    have hall := (core_of_moved hnumbers).trans (core_of_moved hmoved)
    refine ⟨hname, hall.trans hcore, ⟨shifted, rfl⟩, ?_, ?_, ?_⟩
    · rw [optional_count_core hall, hpresence, hp]
    · rw [nullable_count_core hall, hnull, hn]
    · intro stop hstop
      cases hstop
      obtain ⟨old, hold, hstop⟩ := shift_size_eq_some hsize
      have hstate : state_bytes { sized with
          fixed_block_size := some size, fields := number_fields 0 0 shifted } =
          bitmap_bytes (optional_count fields) + bitmap_bytes (nullable_count fields) := by
        rw [state_bytes, optional_count_core hall, nullable_count_core hall]
      rw [hstate]
      refine ⟨old, (hplaced old hold).1, hold, hstop, ?_⟩
      have := ((hplaced old hold).2.moved hmoved).moved hnumbers
      rw [hstop]
      simpa only [Nat.zero_add, Nat.add_zero] using this

end SaltsUtils.Binary
