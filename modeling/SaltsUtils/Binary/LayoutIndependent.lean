import SaltsUtils.Binary.LayoutSteps

/-!
# The fields of an accepted plan under the writer

Over every run of the writer: when the state bits have one owner each, a call
changes nothing of what the reader takes from the fields that it does not
write. That is all that validation leaves open.
-/

set_option autoImplicit false

namespace SaltsUtils.Binary.Layout

section Reports
variable {plan : LayoutPlan} {field : FieldPlan} {before after : List Byte} {base : ℕ}

theorem byte_eq {p : ℕ} (hlen : before.length ≤ after.length) (hp : p < before.length)
    (h : ∀ i, bit after p i = bit before p i) : after[p]? = before[p]? := by
  have hp' : p < after.length := lt_of_lt_of_le hp hlen
  unfold bit at h
  rw [List.getElem?_eq_getElem hp, List.getElem?_eq_getElem hp'] at h ⊢
  congr 1
  apply BitVec.eq_of_getLsbD_eq
  intro i _
  simpa using h i

theorem state_bit_drop (buffer : List Byte) (base offset place : ℕ) :
    binary_state_bit (buffer.drop base) offset place =
      bit buffer (base + (offset + place / 8)) (place % 8) := by
  simp [binary_state_bit, bit]

theorem report_eq (hlen : before.length ≤ after.length)
    (hroom : field.representation = .fixed →
      base + field.wire_offset + field.wire_extent ≤ before.length)
    (h : ∀ o i, (o, i) ∈ owned plan field → bit after (base + o) i = bit before (base + o) i) :
    binary_field_report plan (after.drop base) field =
      binary_field_report plan (before.drop base) field := by
  have hpresent : field.optional = true →
      binary_state_bit (after.drop base) plan.presence_offset field.optional_bit =
        binary_state_bit (before.drop base) plan.presence_offset field.optional_bit := by
    intro ho
    rw [state_bit_drop, state_bit_drop]
    exact h _ _ (.inr (.inl ⟨ho, rfl⟩))
  have hnull : field.nullable = true →
      binary_state_bit (after.drop base) plan.null_offset field.nullable_bit =
        binary_state_bit (before.drop base) plan.null_offset field.nullable_bit := by
    intro hn
    rw [state_bit_drop, state_bit_drop]
    exact h _ _ (.inr (.inr ⟨hn, rfl⟩))
  have hvalue : field.representation = .fixed →
      view (after.drop base) field.wire_offset field.wire_extent =
        view (before.drop base) field.wire_offset field.wire_extent := by
    intro hrep
    apply List.ext_getElem?
    intro k
    by_cases hk : k < field.wire_extent
    · rw [getElem?_view hk, getElem?_view hk, List.getElem?_drop, List.getElem?_drop]
      refine byte_eq hlen (by have := hroom hrep; omega) fun i => h _ _ (.inl ⟨hrep, ?_, ?_⟩)
      · dsimp only
        omega
      · dsimp only
        omega
    · simp [view, hk]
  unfold binary_field_report
  rw [FieldReport.mk.injEq]
  refine ⟨?_, ?_, ?_⟩
  · cases ho : field.optional
    · simp
    · simp [hpresent ho]
  · cases hn : field.nullable
    · simp
    · simp [hnull hn]
  · by_cases hrep : field.representation = .fixed
    · rw [if_pos hrep, if_pos hrep, hvalue hrep]
    · rw [if_neg hrep, if_neg hrep]

end Reports

section Runs
variable (plans : ℕ → LayoutPlan) (ops : FloatOps) (root : ℕ)

def opened_run (max_depth : ℕ) (tokens : List Token) : WriterOwner :=
  writer_run plans ops (data_bind_binary_writer_open plans root max_depth) tokens

/-- A field that a call is about, in the frame that has `k` frames above it: of the record on top
those that the token is for, and of a record below the one that holds the frames above. -/
def AtWork (k : ℕ) (frame : WriterFrame) (token : Token) (j : ℕ) : Prop :=
  if k = 0 then Written plans frame token j else j = frame.current_field

/-- Whatever was written before, a call changes nothing of what the reader reports for the fields of
the open records that it is not about, and no byte of the buffer outside the areas of the frame on
top and of those between it and the root. -/
structure WriterIndependent : Prop where
  report : ∀ max_depth tokens token k frame j field,
    (opened_run plans ops root max_depth tokens).frames[k]? = some frame →
    frame.stage ≠ .group → (plans frame.plan).fieldList[j]? = some field →
    ¬ AtWork plans k frame token j →
    binary_field_report (plans frame.plan) ((binary_writer_write plans ops
      (opened_run plans ops root max_depth tokens) token).2.buffer.drop frame.base_offset) field =
    binary_field_report (plans frame.plan)
      ((opened_run plans ops root max_depth tokens).buffer.drop frame.base_offset) field
  outside : ∀ max_depth tokens token k frame p,
    (opened_run plans ops root max_depth tokens).frames[k]? = some frame →
    (k = 0 ∨ k + 1 < (opened_run plans ops root max_depth tokens).frames.length) →
    p < (opened_run plans ops root max_depth tokens).buffer.length → p ∉ area plans frame →
    (binary_writer_write plans ops (opened_run plans ops root max_depth tokens) token).2.buffer[p]? =
      (opened_run plans ops root max_depth tokens).buffer[p]?

variable {plans ops root}

theorem open_stacked (max_depth : ℕ) :
    Stacked plans root (data_bind_binary_writer_open plans root max_depth).frames
      (data_bind_binary_writer_open plans root max_depth).buffer.length := by
  constructor
  · intro frame hf
    obtain rfl : frame = { plan := root, stage := .root } := by
      simpa [data_bind_binary_writer_open] using hf
    refine ⟨fun _ => ⟨.root, ?_⟩, ?_, ?_, ?_⟩
    · simp [data_bind_binary_writer_open, zeros]
    · simp
    · simp
    · simp
  · simp [data_bind_binary_writer_open]

theorem run_stacked (hroot : Accepted plans false root) (tokens : List Token) :
    ∀ owner : WriterOwner, Stacked plans root owner.frames owner.buffer.length →
      Stacked plans root (writer_run plans ops owner tokens).frames
        (writer_run plans ops owner tokens).buffer.length := by
  induction tokens with
  | nil =>
    intro owner hs
    exact hs
  | cons token rest ih =>
    intro owner hs
    unfold writer_run
    rw [List.foldl_cons]
    refine ih _ ?_
    cases hf : owner.frames with
    | nil =>
      unfold binary_writer_write
      simp only [hf]
      rw [hf] at hs
      exact hs
    | cons frame frames => exact (write_sound hroot hs hf token).frames

theorem opened_stacked (hroot : Accepted plans false root) (max_depth : ℕ) (tokens : List Token) :
    Stacked plans root (opened_run plans ops root max_depth tokens).frames
      (opened_run plans ops root max_depth tokens).buffer.length :=
  run_stacked hroot tokens _ (open_stacked max_depth)

end Runs

section Frames
variable {plans : ℕ → LayoutPlan} {root n : ℕ} {frame top : WriterFrame} {rest : List WriterFrame}
  {field : FieldPlan}

theorem owned_inside {plan : LayoutPlan} {fixed_only : Bool} {o i : ℕ}
    (h : RecordOk plans fixed_only plan) (hmem : field ∈ plan.fieldList)
    (ho : (o, i) ∈ owned plan field) : o < plan.fixed_block_size := by
  obtain ⟨k, hk⟩ := List.getElem?_of_mem hmem
  have hok := h.fields k field hk
  have hbitmaps := h.bitmaps
  have hpresence := h.presence
  have hnull := h.null
  rcases ho with ⟨hrep, -, hlt⟩ | ⟨hopt, he⟩ | ⟨hnul, he⟩
  · have := (hok.placed hrep).2.1
    omega
  · have := hok.optional hopt
    have := (Prod.mk.inj he).1
    omega
  · have := hok.nullable hnul
    have := (Prod.mk.inj he).1
    omega

theorem target_inside (hroot : Accepted plans false root) (hok : FrameOk plans root n frame)
    {token : Token} {p i : ℕ} (h : (p, i) ∈ target plans frame token) : p ∈ area plans frame := by
  by_cases hg : frame.stage = .group
  · unfold target at h
    rw [if_pos hg] at h
    exact h
  · unfold target at h
    rw [if_neg hg] at h
    obtain ⟨j, field, -, hfield, o, ho, hp⟩ := h
    obtain ⟨fixed_only, ha⟩ := (hok.record hg).1.accepted hroot
    have := owned_inside ha.recordOk (List.mem_of_getElem? hfield) ho
    unfold area
    rw [if_neg hg]
    exact ⟨by omega, by omega⟩

theorem owned_outside_slot (hroot : Accepted plans false root) (hok : FrameOk plans root n frame)
    (hn : frame.stage ≠ .group) (hs : Separate (plans frame.plan)) {j o i : ℕ}
    (hfield : (plans frame.plan).fieldList[j]? = some field) (hj : j ≠ frame.current_field)
    (ho : (o, i) ∈ owned (plans frame.plan) field) : frame.base_offset + o ∉ slot plans frame := by
  obtain ⟨fixed_only, ha⟩ := (hok.record hn).1.accepted hroot
  have hin := owned_inside ha.recordOk (List.mem_of_getElem? hfield) ho
  unfold slot
  rw [if_neg hn]
  rintro ⟨current, hcurrent, hplace⟩
  split_ifs at hplace with hrep
  · refine Set.disjoint_left.mp (hs.apart j _ field current hfield hcurrent hj) ho (.inl ⟨hrep, ?_⟩)
    omega
  · omega

end Frames

section Independence
variable {plans : ℕ → LayoutPlan} {ops : FloatOps} {root : ℕ}

theorem independent (hroot : Accepted plans false root)
    (hsep : ∀ p, Reaches plans root p → Separate (plans p)) : WriterIndependent plans ops root := by
  constructor
  · intro max_depth tokens token k frame j field hk hn hfield hwork
    have hs := @opened_stacked plans ops root hroot max_depth tokens
    generalize opened_run plans ops root max_depth tokens = owner at hk hs ⊢
    cases hf : owner.frames with
    | nil => simp [hf] at hk
    | cons top rest =>
      have hwrite := @write_sound plans ops root owner top rest hroot hs hf token
      have hmem : frame ∈ owner.frames := List.mem_of_getElem? hk
      have hok := hs.ok frame hmem
      obtain ⟨hreach, hroom⟩ := hok.record hn
      obtain ⟨fixed_only, ha⟩ := hreach.accepted hroot
      have hin : ∀ o i, (o, i) ∈ owned (plans frame.plan) field →
          frame.base_offset + o < owner.buffer.length := by
        intro o i ho
        have := owned_inside ha.recordOk (List.mem_of_getElem? hfield) ho
        omega
      refine report_eq hwrite.buffer.1 ?_ fun o i ho => hwrite.buffer.2 _ _ (hin o i ho) ?_
      · intro hrep
        have := ((ha.recordOk.fields j field hfield).placed hrep).2.1
        omega
      · intro htarget
        cases k with
        | zero =>
          rw [hf] at hk
          obtain rfl : top = frame := by simpa using hk
          unfold target at htarget
          rw [if_neg hn] at htarget
          obtain ⟨j', field', hw, hfield', o', ho', hp⟩ := htarget
          have hj : j ≠ j' := by
            rintro rfl
            exact hwork (by rwa [AtWork, if_pos rfl])
          have ho'' : o = o' := Nat.add_left_cancel hp
          rw [← ho''] at ho'
          exact Set.disjoint_left.mp ((hsep _ hreach).apart j j' field field' hfield hfield' hj) ho ho'
        | succ k =>
          rw [hf] at hk hs
          have hrest : frame ∈ rest := List.mem_of_getElem? (by simpa using hk)
          have hinside := hs.inside frame hrest (target_inside hroot (hs.ok top (by simp)) htarget)
          exact owned_outside_slot hroot hok hn (hsep _ hreach) hfield
            (by rwa [AtWork, if_neg (by omega)] at hwork) ho hinside
  · intro max_depth tokens token k frame p hk hplace hp hout
    have hs := @opened_stacked plans ops root hroot max_depth tokens
    generalize opened_run plans ops root max_depth tokens = owner at hk hs hp hplace ⊢
    cases hf : owner.frames with
    | nil => simp [hf] at hk
    | cons top rest =>
      have hwrite := @write_sound plans ops root owner top rest hroot hs hf token
      refine byte_eq hwrite.buffer.1 hp fun i => hwrite.buffer.2 p i hp fun htarget => hout ?_
      rw [hf] at hk hs hplace
      have htop := target_inside hroot (hs.ok top (by simp)) htarget
      cases k with
      | zero =>
        obtain rfl : top = frame := by simpa using hk
        exact htop
      | succ k =>
        have hrest : frame ∈ rest := List.mem_of_getElem? (by simpa using hk)
        -- the frame is not the root, so it lies above another one
        have hlt : k + 1 < rest.length := by simpa using hplace
        have hbelow := List.isChain_iff_getElem.mp hs.tail.chain k hlt
        have hget : rest[k] = frame := by
          have := List.getElem?_eq_getElem (Nat.lt_of_succ_lt hlt)
          rw [List.getElem?_cons_succ, this] at hk
          exact Option.some_inj.mp hk
        rw [hget] at hbelow
        exact slot_subset_area hbelow.only (hs.inside frame hrest htop)

/-- An accepted plan keeps the fields of its records apart, and the writer with them, exactly if no
two optional fields of a record share a presence bit and no two nullable ones a null bit. -/
theorem storage_apart_iff (ops : FloatOps) (plans : ℕ → LayoutPlan) (root : ℕ)
    (h : data_bind_binary_layout_plan_validate plans (some root) = .ok ()) :
    ((∀ p, Reaches plans root p → Separate (plans p)) ∧ WriterIndependent plans ops root) ↔
      ∀ p, Reaches plans root p → DistinctBits (plans p) := by
  have hroot : Accepted plans false root := ⟨_, _, h⟩
  have hiff : ∀ p, Reaches plans root p → (Separate (plans p) ↔ DistinctBits (plans p)) := by
    intro p hp
    obtain ⟨fixed_only, ha⟩ := hp.accepted hroot
    exact separate_iff ha.recordOk
  constructor
  · rintro ⟨hsep, -⟩ p hp
    exact (hiff p hp).mp (hsep p hp)
  · intro hbits
    have hsep : ∀ p, Reaches plans root p → Separate (plans p) := fun p hp =>
      (hiff p hp).mpr (hbits p hp)
    exact ⟨hsep, independent hroot hsep⟩

/-- Two optional bytes `a` and `b` behind one byte of presence bits. -/
def two_optionals (bit : ℕ) : LayoutPlan where
  type_name := some "T"
  fixed_block_size := 3
  presence_size := 1
  null_offset := 1
  fields := some
    [{ field_name := some "a", token_kind := .uint, scalar_bits := 8, wire_offset := 1,
       wire_extent := 1, optional_bit := 0, flags := 1 },
     { field_name := some "b", token_kind := .uint, scalar_bits := 8, wire_offset := 2,
       wire_extent := 1, optional_bit := bit, flags := 1 }]

theorem storage_apart_distinct :
    (∀ p, Reaches (fun _ => two_optionals 1) 0 p → Separate (two_optionals 1)) ∧
      WriterIndependent (fun _ => two_optionals 1) ⟨id, fun _ => true⟩ 0 := by
  apply (storage_apart_iff ⟨id, fun _ => true⟩ (fun _ => two_optionals 1) 0 (by decide +kernel)).mpr
  intro p _ i j f g hf hg hne
  have hi : i < 2 := (List.getElem?_eq_some_iff.mp hf).1
  have hj : j < 2 := (List.getElem?_eq_some_iff.mp hg).1
  have hbits : ∀ k field, (two_optionals 1).fieldList[k]? = some field → k < 2 →
      field.optional_bit = k ∧ field.nullable = false := by
    intro k field hk hlt
    have hcases : k = 0 ∨ k = 1 := by omega
    rcases hcases with rfl | rfl <;> obtain rfl := Option.some_inj.mp hk <;> decide
  obtain ⟨hbit, hnull⟩ := hbits i f hf hi
  obtain ⟨hbit', -⟩ := hbits j g hg hj
  rw [hbit, hbit', hnull]
  exact ⟨fun _ _ => hne, by simp⟩

/-- With one presence bit for both the plan is accepted, and the end of a record that has `a` only
takes `a` away again. -/
theorem shared_presence_bit :
    data_bind_binary_layout_plan_validate (fun _ => two_optionals 0) (some 0) = .ok () ∧
      ¬ Separate (two_optionals 0) ∧
      let plans : ℕ → LayoutPlan := fun _ => two_optionals 0
      let owner := opened_run plans ⟨id, fun _ => true⟩ 0 0
        [.map_begin, .string (nameBytes "a"), .uint 5]
      ((two_optionals 0).fieldList[0]?.map (binary_field_report (two_optionals 0) owner.buffer) =
          some ⟨true, false, some [5]⟩) ∧
        ((two_optionals 0).fieldList[0]?.map (binary_field_report (two_optionals 0)
            (binary_writer_write plans ⟨id, fun _ => true⟩ owner .map_end).2.buffer) =
          some ⟨false, false, some [5]⟩) ∧
        (binary_writer_write plans ⟨id, fun _ => true⟩ owner .map_end).1 = .ok := by
  refine ⟨by decide +kernel, ?_, by decide +kernel⟩
  intro hs
  have hapart := hs.apart 0 1 _ _ rfl rfl (by decide)
  exact Set.disjoint_left.mp hapart (.inr (.inl ⟨rfl, rfl⟩)) (.inr (.inl ⟨rfl, rfl⟩))

end Independence

end SaltsUtils.Binary.Layout
