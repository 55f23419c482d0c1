import SaltsUtils.Binary.LayoutFrame

/-!
# One call of the writer

The bits that a call may change, from the frame on top and the token, and what
it keeps of the frames.
-/

set_option autoImplicit false

namespace SaltsUtils.Binary.Layout

/-- The owner after a part of a call that leaves the frames as they are. -/
structure Touches (W : Set (ℕ × ℕ)) (owner owner' : WriterOwner) : Prop where
  frames : owner'.frames = owner.frames
  buffer : Changes W owner.buffer owner'.buffer

namespace Touches
variable {V W : Set (ℕ × ℕ)} {o o' o'' : WriterOwner}

theorem refl (W : Set (ℕ × ℕ)) (o : WriterOwner) : Touches W o o := ⟨rfl, Changes.refl W _⟩

theorem trans (h : Touches W o o') (h' : Touches W o' o'') : Touches W o o'' :=
  ⟨h'.frames.trans h.frames, h.buffer.trans h'.buffer⟩

theorem mono (h : Touches V o o') (hVW : V ⊆ W) : Touches W o o' := ⟨h.frames, h.buffer.mono hVW⟩

theorem behind (h : Touches ∅ o o') : Touches W o o' := h.mono (Set.empty_subset W)

end Touches

theorem length_wire_bytes (big_endian : Bool) (count value : ℕ) :
    (wire_bytes big_endian count value).length = count := by
  cases big_endian <;> simp [wire_bytes]

theorem reserve_append_touches (owner : WriterOwner) (data : List Byte) :
    Touches ∅ owner (reserve_append owner data).2 := by
  unfold reserve_append
  split_ifs
  · exact ⟨rfl, Changes.append _ _⟩
  · exact Touches.refl ∅ owner

variable {data : List Byte}

theorem reserve_append_fails {owner owner' : WriterOwner}
    (h : reserve_append owner data = (false, owner')) : Touches ∅ owner owner' := by
  have ht := reserve_append_touches owner data
  rwa [h] at ht

theorem reserve_append_eq {owner owner' : WriterOwner}
    (h : reserve_append owner data = (true, owner')) : owner' = owner.append data := by
  unfold reserve_append at h
  split_ifs at h
  · exact (Prod.mk.inj h).2.symm
  · cases (Prod.mk.inj h).1

theorem reserve_append_room {owner owner' : WriterOwner}
    (h : reserve_append owner data = (true, owner')) :
    Touches ∅ owner owner' ∧ owner'.buffer.length = owner.buffer.length + data.length := by
  rw [reserve_append_eq h]
  exact ⟨⟨rfl, Changes.append _ _⟩, by simp [WriterOwner.append]⟩

theorem put_touches {owner : WriterOwner} {offset : ℕ} (data : List Byte)
    (ho : offset ≤ owner.buffer.length) :
    Touches {x | offset ≤ x.1 ∧ x.1 < offset + data.length} owner (owner.put offset data) :=
  ⟨rfl, Changes.overwrite _ data ho⟩

section Fields
variable (plans : ℕ → LayoutPlan) (ops : FloatOps)

/-- The bits of a field where its record lies in the buffer. -/
def place (frame : WriterFrame) (field : FieldPlan) : Set (ℕ × ℕ) :=
  {x | ∃ o, (o, x.2) ∈ owned (plans frame.plan) field ∧ x.1 = frame.base_offset + o}

variable {plans ops} {owner : WriterOwner} {frame : WriterFrame} {field : FieldPlan}

theorem presence_touches (value : Bool) (ho : field.optional = true) :
    Touches (place plans frame field) owner (binary_writer_state_bit owner frame
      (plans frame.plan).presence_offset field.optional_bit value) := by
  refine ⟨rfl, (Changes.modify _ _ _ value).mono ?_⟩
  rintro x rfl
  exact ⟨(plans frame.plan).presence_offset + field.optional_bit / 8, .inr (.inl ⟨ho, rfl⟩),
    by dsimp only; omega⟩

theorem null_touches (value : Bool) (hn : field.nullable = true) :
    Touches (place plans frame field) owner (binary_writer_state_bit owner frame
      (plans frame.plan).null_offset field.nullable_bit value) := by
  refine ⟨rfl, (Changes.modify _ _ _ value).mono ?_⟩
  rintro x rfl
  exact ⟨(plans frame.plan).null_offset + field.nullable_bit / 8, .inr (.inr ⟨hn, rfl⟩),
    by dsimp only; omega⟩

theorem append_empty_tail_touches (i : ℕ) :
    Touches ∅ owner (binary_writer_append_empty_tail plans owner frame i field).2 := by
  unfold binary_writer_append_empty_tail
  cases field.representation with
  | var_data =>
    unfold binary_writer_append_var_data
    simp only [List.length_nil, Nat.not_lt_zero, gt_iff_lt, if_false]
    exact reserve_append_touches _ _
  | group => exact reserve_append_touches _ _
  | counted => exact reserve_append_touches _ _
  | cursor_fixed => exact reserve_append_touches _ _
  | fixed => exact Touches.refl ∅ owner
  | unknown value => exact Touches.refl ∅ owner

theorem skip_field_touches (i : ℕ) :
    Touches (place plans frame field) owner (binary_writer_skip_field plans owner frame i field).2 := by
  unfold binary_writer_skip_field
  by_cases ho : field.optional = false
  · rw [if_pos ho]
    exact Touches.refl _ owner
  · rw [if_neg ho]
    have hpresence := @presence_touches plans owner frame field false (by simpa using ho)
    by_cases hn : field.nullable = true
    · simp only [hn, if_true]
      exact (hpresence.trans (null_touches false hn)).trans (append_empty_tail_touches i).behind
    · simp only [hn]
      exact hpresence.trans (append_empty_tail_touches i).behind

theorem skip_fields_touches (W : Set (ℕ × ℕ)) (fields : List FieldPlan) :
    ∀ (i : ℕ) (owner : WriterOwner), (∀ f ∈ fields, place plans frame f ⊆ W) →
      Touches W owner (skip_fields plans frame i fields owner).2.2 := by
  induction fields with
  | nil =>
    intro i owner _
    exact Touches.refl W owner
  | cons field rest ih =>
    intro i owner hW
    have hfirst := (@skip_field_touches plans owner frame field i).mono (hW field (by simp))
    unfold skip_fields
    generalize binary_writer_skip_field plans owner frame i field = skipped at hfirst
    obtain ⟨fine, owner'⟩ := skipped
    cases fine
    · exact hfirst
    · exact hfirst.trans (ih (i + 1) owner' fun f hf => hW f (by simp [hf]))

theorem length_fixed_bytes {big_endian : Bool} {token : Token}
    (hshape : field.token_kind ≠ .map_begin → field.token_kind ≠ .array_begin → field.token_kind ≠ .bytes → field.wire_extent = field.scalar_bits / 8)
    (h : fixed_bytes ops big_endian field token = some data) : data.length = field.wire_extent := by
  unfold fixed_bytes at h
  split at h
  · cases h
  · split at h
    · split_ifs at h with hl
      cases h
      exact hl
    · rename_i hk _
      split_ifs at h with hl
      cases h
      rw [length_wire_bytes, hshape (by simp [hk]) (by simp [hk]) (by simp [hk]), hl]
    · rename_i hk _
      split_ifs at h
      cases h
      rw [length_wire_bytes, hshape (by simp [hk]) (by simp [hk]) (by simp [hk])]
    · rename_i hk _
      split_ifs at h
      cases h
      rw [length_wire_bytes, hshape (by simp [hk]) (by simp [hk]) (by simp [hk])]
    · rename_i hk _
      have hextent := hshape (by simp [hk]) (by simp [hk]) (by simp [hk])
      split_ifs at h with h₁ h₂ h₃
      · cases h
        rw [length_wire_bytes, hextent, h₁]
      · cases h
        rw [length_wire_bytes, hextent, h₃]
    · cases h

theorem fixed_value_touches (token : Token)
    (hshape : field.token_kind ≠ .map_begin → field.token_kind ≠ .array_begin →
      field.token_kind ≠ .bytes → field.wire_extent = field.scalar_bits / 8) :
    Touches {x | frame.base_offset + field.wire_offset ≤ x.1 ∧
        x.1 < frame.base_offset + field.wire_offset + field.wire_extent} owner
      (binary_writer_fixed_value plans ops owner frame field token).2 := by
  unfold binary_writer_fixed_value
  split_ifs with hroom
  · exact Touches.refl _ owner
  · cases hdata : fixed_bytes ops (plans frame.plan).wire_big_endian field token with
    | none => exact Touches.refl _ owner
    | some data =>
      rw [← length_fixed_bytes hshape hdata]
      exact put_touches data (by omega)

theorem positioned_value_touches (token : Token)
    (hshape : field.token_kind ≠ .map_begin → field.token_kind ≠ .array_begin →
      field.token_kind ≠ .bytes → field.wire_extent = field.scalar_bits / 8) :
    Touches ∅ owner (positioned_value plans ops owner frame field token).2 := by
  unfold positioned_value
  cases hroom : reserve_append owner (zeros field.wire_extent) with
  | mk fine owner' =>
    cases fine
    · exact reserve_append_fails hroom
    · obtain ⟨hgrown, -⟩ := reserve_append_room hroom
      have hput := @fixed_value_touches plans ops owner' frame
        { field with wire_offset := owner.buffer.length - frame.base_offset } token hshape
      have hall : Touches ∅ owner (binary_writer_fixed_value plans ops owner' frame
          { field with wire_offset := owner.buffer.length - frame.base_offset } token).2 := by
        refine ⟨hput.frames.trans hgrown.frames, hgrown.buffer.1.trans hput.buffer.1, ?_⟩
        intro p i hp _
        rw [hput.buffer.2 p i (lt_of_lt_of_le hp hgrown.buffer.1), hgrown.buffer.2 p i hp (by simp)]
        rintro ⟨hlo, -⟩
        dsimp only at hlo
        omega
      dsimp only
      generalize binary_writer_fixed_value plans ops owner' frame
        { field with wire_offset := owner.buffer.length - frame.base_offset } token = r at hall
      obtain ⟨fine, owner''⟩ := r
      cases fine <;> exact hall

theorem append_var_data_touches (data : List Byte) :
    Touches ∅ owner (binary_writer_append_var_data plans owner data).2 := by
  unfold binary_writer_append_var_data
  split_ifs
  · exact Touches.refl ∅ owner
  · exact reserve_append_touches _ _

theorem append_var_data_keeps {Q : WriterOwner → Prop} {f : WriterOwner → WriterOwner}
    (data : List Byte) (hfail : ∀ owner', Touches ∅ owner owner' → Q owner')
    (hok : ∀ owner', Touches ∅ owner owner' → Q (f owner')) :
    Q (match binary_writer_append_var_data plans owner data with
      | (false, owner) => (WriteStatus.limit_exceeded, owner)
      | (true, owner) => (.ok, f owner)).2 := by
  have ht := @append_var_data_touches plans owner data
  generalize binary_writer_append_var_data plans owner data = r at ht
  obtain ⟨fine, owner'⟩ := r
  cases fine
  · exact hfail owner' ht
  · exact hok owner' ht

end Fields

section Calls
variable (plans : ℕ → LayoutPlan) (ops : FloatOps) (root : ℕ)

def Written (frame : WriterFrame) (token : Token) (j : ℕ) : Prop :=
  match frame.stage with
  | .key =>
    frame.next_field ≤ j ∧ (token = .map_end ∨ ∃ i, find_index token frame.next_field
      ((plans frame.plan).fieldList.drop frame.next_field) = some i ∧ j < i)
  | .value => j = frame.current_field
  | _ => False

/-- The bits that a call may change. -/
def target (frame : WriterFrame) (token : Token) : Set (ℕ × ℕ) :=
  if frame.stage = .group then {x | x.1 ∈ area plans frame}
  else {x | ∃ j field, Written plans frame token j ∧
    (plans frame.plan).fieldList[j]? = some field ∧ x ∈ place plans frame field}

structure Sound (W : Set (ℕ × ℕ)) (owner owner' : WriterOwner) : Prop where
  buffer : Changes W owner.buffer owner'.buffer
  frames : Stacked plans root owner'.frames owner'.buffer.length

variable {plans ops root} {W : Set (ℕ × ℕ)} {owner owner' : WriterOwner}
  {frame parent child : WriterFrame} {rest : List WriterFrame} {n : ℕ}

theorem alike_record {next current : ℕ} {stage : WriterStage} (h : frame.stage ≠ .group)
    (h' : stage ≠ .group) :
    Alike frame { frame with next_field := next, current_field := current, stage := stage } :=
  ⟨rfl, rfl, rfl, rfl, ⟨fun hg => absurd hg h', fun hg => absurd hg h⟩⟩

theorem alike_count {count : ℕ} {pending : Bool} :
    Alike frame { frame with group_count := count, key_pending := pending } :=
  ⟨rfl, rfl, rfl, rfl, Iff.rfl⟩

theorem alike_resume_parent : Alike frame (resume_parent frame) := by
  unfold resume_parent
  by_cases hg : frame.stage = .group
  · rw [if_pos hg]
    exact alike_count
  · rw [if_neg hg]
    exact alike_record hg (by simp)

theorem alike_count_element : Alike frame (count_element frame) := by
  unfold count_element
  split_ifs
  · exact ⟨rfl, rfl, rfl, rfl, Iff.rfl⟩
  · exact alike_count

theorem sound_same (hs : Stacked plans root owner.frames owner.buffer.length)
    (ht : Touches W owner owner') : Sound plans root W owner owner' := by
  refine ⟨ht.buffer, ?_⟩
  rw [ht.frames]
  exact hs.mono ht.buffer.1

section Moves
variable (hs : Stacked plans root owner.frames owner.buffer.length)
  (hf : owner.frames = frame::rest) (ht : Touches W owner owner')
include hs hf ht

theorem touched : Stacked plans root (frame::rest) owner'.buffer.length := by
  rw [← hf]
  exact hs.mono ht.buffer.1

theorem sound_setTop {change : WriterFrame → WriterFrame} (ha : Alike frame (change frame)) :
    Sound plans root W owner (owner'.setTop change) := by
  refine ⟨ht.buffer, ?_⟩
  simp only [WriterOwner.setTop, ht.frames, hf]
  exact (touched hs hf ht).change ha

theorem sound_push (hc : FrameOk plans root owner'.buffer.length child)
    (ha : Above plans child frame) : Sound plans root W owner (owner'.push child) := by
  refine ⟨ht.buffer, ?_⟩
  simp only [WriterOwner.push, ht.frames, hf]
  exact (touched hs hf ht).push hc ha

theorem sound_pop {change : WriterFrame → WriterFrame}
    (ha : ∀ parent ∈ rest.head?, Alike parent (change parent)) :
    Sound plans root W owner (owner'.pop.setTop change) := by
  refine ⟨ht.buffer, ?_⟩
  simp only [WriterOwner.setTop, WriterOwner.pop, ht.frames, hf, List.tail_cons]
  have htail := (touched hs hf ht).tail
  cases rest with
  | nil => exact htail
  | cons parent rest => exact htail.change (ha parent (by simp))

end Moves

theorem resumes (hs : Stacked plans root owner.frames n) (hf : owner.frames = frame::rest)
    (hg : frame.stage = .group) : ∀ parent ∈ rest.head?, Alike parent (resume_record parent) := by
  rw [hf] at hs
  intro parent hp
  cases rest with
  | nil => simp at hp
  | cons first rest =>
    obtain rfl : first = parent := by simpa using hp
    rcases (List.isChain_cons_cons.mp hs.chain).1.stage with hv | ⟨-, hn⟩
    · exact alike_record (by simp [hv]) (by simp)
    · exact absurd hg hn

theorem place_subset {token : Token} {j : ℕ} {field : FieldPlan} (hn : frame.stage ≠ .group)
    (hw : Written plans frame token j) (hfield : (plans frame.plan).fieldList[j]? = some field) :
    place plans frame field ⊆ target plans frame token := by
  intro x hx
  unfold target
  rw [if_neg hn]
  exact ⟨j, field, hw, hfield, hx⟩

variable {p : ℕ}

theorem children_below {k c : ℕ} (hroot : Accepted plans false root) (hr : Reaches plans root p)
    (hk : k < (plans p).fieldList.length) (hc : (plans p).child_at k = some c) :
    Below plans root c := by
  obtain ⟨fixed_only, ha⟩ := hr.accepted hroot
  exact ⟨.child hr hk hc, ha.recordOk.children k c hk hc⟩

theorem find_field_touches {token : Token} (hkey : frame.stage = .key) :
    Touches (target plans frame token) owner (binary_writer_find_field plans owner frame token).2 := by
  have hn : frame.stage ≠ .group := by simp [hkey]
  unfold binary_writer_find_field
  dsimp only
  cases hi : find_index token frame.next_field
      ((plans frame.plan).fieldList.drop frame.next_field) with
  | none => exact Touches.refl _ owner
  | some i =>
    have hskip := @skip_fields_touches plans frame (target plans frame token)
      (((plans frame.plan).fieldList.drop frame.next_field).take (i - frame.next_field))
      frame.next_field owner (by
        intro f hmem
        obtain ⟨k, hk⟩ := List.getElem?_of_mem hmem
        have hlt : k < i - frame.next_field := by
          by_contra hge
          rw [List.getElem?_take_eq_none (by omega)] at hk
          cases hk
        rw [List.getElem?_take_of_lt hlt, List.getElem?_drop] at hk
        refine place_subset hn ?_ hk
        simp only [Written, hkey]
        exact ⟨by omega, .inr ⟨i, hi, by omega⟩⟩)
    dsimp only
    generalize skip_fields plans frame frame.next_field
      (((plans frame.plan).fieldList.drop frame.next_field).take (i - frame.next_field)) owner =
      skipped at hskip
    obtain ⟨fine, next, owner'⟩ := skipped
    cases fine <;> exact hskip

variable {a : ArrayPlan}

theorem element_inside (hg : frame.stage = .group) (ha : frame.array = some a)
    (hc : frame.counted = false) (hcount : frame.group_count < a.count)
    (hlo : frame.base_offset + frame.group_count * a.element_extent ≤ p)
    (hhi : p < frame.base_offset + frame.group_count * a.element_extent + a.element_extent) :
    p ∈ area plans frame := by
  have hmul : (frame.group_count + 1) * a.element_extent ≤ a.count * a.element_extent :=
    Nat.mul_le_mul_right _ hcount
  rw [Nat.succ_mul] at hmul
  unfold area
  rw [if_pos hg, ha, hc]
  exact ⟨by omega, by omega⟩

section Records
variable (hs : Stacked plans root owner.frames owner.buffer.length)
  (hf : owner.frames = frame::rest)
include hs hf

theorem end_record_sound (hkey : frame.stage = .key) :
    Sound plans root (target plans frame .map_end) owner (end_record plans owner frame).2 := by
  have hn : frame.stage ≠ .group := by simp [hkey]
  have hskip := @skip_fields_touches plans frame (target plans frame .map_end)
    ((plans frame.plan).fieldList.drop frame.next_field) frame.next_field owner (by
      intro f hmem
      obtain ⟨k, hk⟩ := List.getElem?_of_mem hmem
      rw [List.getElem?_drop] at hk
      refine place_subset hn ?_ hk
      simp [Written, hkey])
  unfold end_record
  generalize skip_fields plans frame frame.next_field
    ((plans frame.plan).fieldList.drop frame.next_field) owner = skipped at hskip
  obtain ⟨fine, next, owner'⟩ := skipped
  cases fine
  · exact sound_setTop hs hf hskip (alike_record hn hn)
  · by_cases hmore : owner'.frames.length > 1
    · simp only [if_pos hmore]
      exact sound_pop hs hf hskip fun parent _ => alike_resume_parent
    · simp only [if_neg hmore]
      exact sound_setTop hs hf hskip (alike_record hn (by simp))

theorem header_sound {offset count value : ℕ} {big_endian : Bool} {token : Token}
    (hg : frame.stage = .group) (hseq : frame.array = none ∨ frame.counted = true)
    (hoffset : offset + count ≤ 4) :
    Sound plans root (target plans frame token) owner
      (((owner.put (frame.base_offset + offset) (wire_bytes big_endian count value)).pop).setTop
        resume_record) := by
  have hok := hs.ok frame (by simp [hf])
  have hroom := hok.header hg hseq
  have hput := (put_touches (wire_bytes big_endian count value)
    (show frame.base_offset + offset ≤ owner.buffer.length by omega)).mono
    (show _ ⊆ target plans frame token by
      rintro ⟨p, i⟩ ⟨hlo, -⟩
      have hin : frame.base_offset ≤ p := le_trans (Nat.le_add_right _ _) hlo
      unfold target area
      rw [if_pos hg, if_pos hg]
      rcases hseq with ha | hc
      · rw [ha]
        exact hin
      · rw [hc]
        split
        · rename_i hb
          cases hb
        · exact hin)
  exact sound_pop hs hf hput (resumes hs hf hg)

theorem end_sequence_sound {token : Token} (hg : frame.stage = .group) :
    Sound plans root (target plans frame token) owner (end_sequence plans owner frame).2 := by
  have hsame := sound_same hs (Touches.refl (target plans frame token) owner)
  unfold end_sequence
  split_ifs with hc hm
  · exact hsame
  · exact @header_sound plans root owner frame rest hs hf 0 4 _ _ token hg (.inr hc) (by omega)
  · cases ha : frame.array with
    | some a =>
      dsimp only
      split_ifs
      · exact hsame
      · exact sound_pop hs hf (Touches.refl _ owner) (resumes hs hf hg)
    | none => exact header_sound hs hf hg (.inl ha) (by omega)

theorem push_element_sound {W : Set (ℕ × ℕ)} {base extent : ℕ} (hg : frame.stage = .group)
    (hbelow : Below plans root frame.plan) (hextent : (plans frame.plan).fixed_block_size = extent)
    (ht : Touches W owner owner') (hroom : base + extent ≤ owner'.buffer.length)
    (hin : ∀ p, base ≤ p → p < base + extent → p ∈ area plans frame) :
    Sound plans root W owner
      (owner'.push { plan := frame.plan, base_offset := base, stage := .key }) := by
  refine sound_push hs hf ht ⟨fun _ => ⟨hbelow.1, ?_⟩, ?_, ?_, ?_⟩ ⟨.inr ⟨hg, by simp⟩, ?_, ?_⟩
  · dsimp only
    omega
  · simp
  · simp
  · simp
  · intro p hp
    unfold slot
    rw [if_pos hg]
    unfold area at hp
    simp only [reduceCtorEq, if_false] at hp
    exact hin p hp.1 (hextent ▸ hp.2)
  · exact fun _ => hbelow.2

theorem write_counted_sound {token : Token} (hg : frame.stage = .group) (ha : frame.array = some a)
    (hc : frame.counted = true) : Sound plans root (target plans frame token) owner
      (write_counted plans ops owner frame a token).2 := by
  have hok := hs.ok frame (by simp [hf])
  have hroom := hok.header hg (.inr hc)
  obtain ⟨-, hrecord, hscalar⟩ := hok.element a hg ha
  have hsame := sound_same hs (Touches.refl (target plans frame token) owner)
  unfold write_counted
  by_cases hitems : frame.group_count ≥ DATA_BIND_BINARY_LAYOUT_MAX_ITEMS
  · rw [if_pos hitems]
    exact hsame
  rw [if_neg hitems]
  -- a key is a string, and what is no string has the kind of the elements
  have hkind : ∀ kind, kind = (if frame.key_pending then TokenKind.string else a.element_token_kind) →
      kind ≠ .string → kind = a.element_token_kind := by
    intro kind hk hne
    split_ifs at hk
    · exact absurd hk hne
    · exact hk
  generalize hk : (if frame.key_pending then TokenKind.string else a.element_token_kind) = kind
  have hkind := hkind kind hk.symm
  by_cases hmap : kind = .map_begin
  · rw [if_pos hmap]
    split_ifs
    · exact hsame
    · exact hsame
    · cases hextra : reserve_append owner (zeros a.element_extent) with
      | mk fine owner' =>
        cases fine
        · exact sound_same hs (reserve_append_fails hextra).behind
        · obtain ⟨ht, hl⟩ := reserve_append_room hextra
          obtain ⟨hbelow, hextent⟩ := hrecord ((hkind (by simp [hmap])).symm.trans hmap)
          refine push_element_sound hs hf hg hbelow hextent ht.behind ?_ ?_
          · simp [hl, zeros]
          · intro p hlo _
            unfold area
            rw [if_pos hg, ha, hc]
            exact le_trans (by omega) hlo
  rw [if_neg hmap]
  by_cases htext : kind = .string ∨ kind = .bytes
  · rw [if_pos htext]
    have hvar := fun slice => @append_var_data_keeps plans owner
      (Sound plans root (target plans frame token) owner) (WriterOwner.setTop · count_element) slice
      (fun _ ht => sound_same hs ht.behind) fun _ ht => sound_setTop hs hf ht.behind alike_count_element
    cases token
    case string slice =>
      split_ifs
      · exact hsame
      · exact hvar slice
    case bytes slice =>
      dsimp only
      split_ifs
      · exact hsame
      · exact hvar slice
    all_goals exact hsame
  · rw [if_neg htext]
    rw [not_or] at htext
    have helem := hkind htext.1
    have ht := @positioned_value_touches plans ops owner frame (element_field a kind 0) token (by
      intro hm _ hb
      exact hscalar (helem ▸ hm) (helem ▸ hb) fun _ => helem ▸ htext.1)
    generalize positioned_value plans ops owner frame (element_field a kind 0) token = r at ht
    obtain ⟨status, owner'⟩ := r
    cases status
    · exact sound_setTop hs hf ht.behind alike_count_element
    · exact sound_same hs ht.behind
    · exact sound_same hs ht.behind

theorem write_array_sound {token : Token} (hg : frame.stage = .group) (ha : frame.array = some a)
    (hc : frame.counted = false) : Sound plans root (target plans frame token) owner
      (write_array plans ops owner frame a token).2 := by
  have hok := hs.ok frame (by simp [hf])
  obtain ⟨hroom, hrecord, hscalar⟩ := hok.element a hg ha
  have hsame := sound_same hs (Touches.refl (target plans frame token) owner)
  unfold write_array
  by_cases hmap : a.element_token_kind ≠ .map_begin
  · rw [if_pos hmap]
    by_cases hfull : frame.group_count ≥ a.count
    · rw [if_pos hfull]
      exact hsame
    · rw [if_neg hfull]
      have hvalue := @fixed_value_touches plans ops owner frame (element_field a
        a.element_token_kind (frame.group_count * a.element_extent)) token (by
          intro hm _ hb
          exact hscalar hm hb (by simp [hc]))
      have ht := hvalue.mono (show _ ⊆ target plans frame token by
        rintro ⟨p, i⟩ ⟨hlo, hhi⟩
        unfold target
        rw [if_pos hg]
        exact element_inside hg ha hc (by omega) hlo hhi)
      generalize binary_writer_fixed_value plans ops owner frame (element_field a
        a.element_token_kind (frame.group_count * a.element_extent)) token = r at ht
      obtain ⟨fine, owner'⟩ := r
      cases fine
      · exact sound_same hs ht
      · exact sound_setTop hs hf ht alike_count
  · rw [if_neg hmap]
    rw [not_not] at hmap
    obtain ⟨hbelow, hextent⟩ := hrecord hmap
    split_ifs with _ _ hfull
    · exact hsame
    · exact hsame
    · exact hsame
    · have hmul : (frame.group_count + 1) * a.element_extent ≤ a.count * a.element_extent :=
        Nat.mul_le_mul_right _ (by omega)
      rw [Nat.succ_mul] at hmul
      have := hroom hc
      refine push_element_sound hs hf hg hbelow hextent (Touches.refl _ owner) (by omega) ?_
      intro p hlo hhi
      exact element_inside hg ha hc (by omega) hlo hhi

theorem write_entry_sound {token : Token} (hg : frame.stage = .group) (ha : frame.array = none) :
    Sound plans root (target plans frame token) owner (write_entry plans owner frame token).2 := by
  have hok := hs.ok frame (by simp [hf])
  have hroom := hok.header hg (.inl ha)
  have hsame := sound_same hs (Touches.refl (target plans frame token) owner)
  unfold write_entry
  split_ifs
  · exact hsame
  · exact hsame
  · exact hsame
  · cases hextra : reserve_append owner (zeros (plans frame.plan).fixed_block_size) with
    | mk fine owner' =>
      cases fine
      · exact sound_same hs (reserve_append_fails hextra).behind
      · obtain ⟨ht, hl⟩ := reserve_append_room hextra
        refine push_element_sound hs hf hg (hok.entry hg ha) rfl ht.behind ?_ ?_
        · simp [hl, zeros]
        · intro p hlo _
          unfold area
          rw [if_pos hg, ha]
          exact le_trans (by omega) hlo

end Records

theorem in_slot_behind {field : FieldPlan} (hv : frame.stage = .value)
    (hfield : (plans frame.plan).fieldList[frame.current_field]? = some field)
    (hrep : field.representation ≠ .fixed)
    (hp : frame.base_offset + (plans frame.plan).fixed_block_size ≤ p) : p ∈ slot plans frame := by
  unfold slot
  rw [if_neg (by simp [hv])]
  exact ⟨field, hfield, by rwa [if_neg hrep]⟩

theorem child_plan_eq {c : ℕ} (hc : (plans frame.plan).child_at frame.current_field = some c) :
    child_plan plans frame frame.current_field = c := by
  simp [child_plan, hc]

theorem reserve_cursor_fails {field : FieldPlan} (h : reserve_cursor owner field = (false, owner')) :
    Touches ∅ owner owner' := by
  unfold reserve_cursor at h
  split_ifs at h
  · exact reserve_append_fails h
  · cases (Prod.mk.inj h).1

section Values
variable {field : FieldPlan} {token : Token} (hroot : Accepted plans false root)
  (hs : Stacked plans root owner.frames owner.buffer.length)
  (hf : owner.frames = frame::rest) (hv : frame.stage = .value)
  (hfield : (plans frame.plan).fieldList[frame.current_field]? = some field)
include hroot hs hf hv hfield

theorem field_on_top : ∃ fixed_only,
    FieldOk plans (plans frame.plan) fixed_only
      ((plans frame.plan).fieldList.take frame.current_field) field ∧
    ((plans frame.plan).fieldList.take frame.current_field).length = frame.current_field ∧
    frame.base_offset + (plans frame.plan).fixed_block_size ≤ owner.buffer.length ∧
    ∀ c, (plans frame.plan).child_at frame.current_field = some c → Below plans root c := by
  obtain ⟨hreach, hroom⟩ := (hs.ok frame (by simp [hf])).record (by simp [hv])
  obtain ⟨fixed_only, haccepted⟩ := hreach.accepted hroot
  have hlt := (List.getElem?_eq_some_iff.mp hfield).1
  refine ⟨fixed_only, haccepted.recordOk.fields _ field hfield, ?_, hroom, ?_⟩
  · rw [List.length_take]
    omega
  · exact fun c hc => children_below hroot hreach hlt hc

theorem reserve_cursor_room {owner' : WriterOwner} (hfixed : field.isFixed = true)
    (h : reserve_cursor owner field = (true, owner')) :
    Touches ∅ owner owner' ∧
      field_start owner frame field + field.wire_extent ≤ owner'.buffer.length ∧
      ∀ p, field_start owner frame field ≤ p → p < field_start owner frame field + field.wire_extent →
        p ∈ slot plans frame := by
  obtain ⟨fixed_only, hok, -, hroom, -⟩ := field_on_top hroot hs hf hv hfield
  unfold reserve_cursor at h
  unfold field_start
  by_cases hcursor : field.representation = .cursor_fixed
  · rw [if_pos hcursor] at h
    obtain ⟨ht, hl⟩ := reserve_append_room h
    rw [if_pos hcursor]
    refine ⟨ht, by simp [hl, zeros], fun p hlo _ => ?_⟩
    exact in_slot_behind hv hfield (by simp [hcursor]) (by omega)
  · rw [if_neg hcursor] at h
    obtain rfl := (Prod.mk.inj h).2
    have hrep : field.representation = .fixed := by
      simpa [FieldPlan.isFixed, hcursor] using hfixed
    obtain ⟨-, hplace, -⟩ := hok.placed hrep
    rw [if_neg hcursor]
    refine ⟨Touches.refl ∅ owner, by omega, fun p hlo hhi => ?_⟩
    unfold slot
    rw [if_neg (by simp [hv])]
    exact ⟨field, hfield, by rw [if_pos hrep]; exact ⟨hlo, hhi⟩⟩

theorem push_counted_sound {W : Set (ℕ × ℕ)} {map : Bool} (hrep : field.representation = .counted)
    (ha : (plans frame.plan).data_bind_binary_array_plan_at frame.current_field = some a)
    (ht : Touches W owner owner') (hl : owner'.buffer.length = owner.buffer.length + 4) :
    Sound plans root W owner (owner'.push
      { plan :=
          if a.element_token_kind = .map_begin then child_plan plans frame frame.current_field
          else frame.plan
        base_offset := owner.buffer.length
        array := some a
        counted := true
        map := map
        key_pending := map
        stage := .group }) := by
  obtain ⟨fixed_only, hok, hlen, hroom, hchildren⟩ := field_on_top hroot hs hf hv hfield
  obtain ⟨a', ha', hrecord, hscalar⟩ := hok.counted hrep
  rw [hlen, ha] at ha'
  obtain rfl := Option.some_inj.mp ha'
  refine sound_push hs hf ht ⟨?_, ?_, ?_, ?_⟩ ⟨.inl hv, ?_, ?_⟩
  · simp
  · intro _ _
    dsimp only
    omega
  · simp
  · intro b _ hb
    obtain rfl := Option.some_inj.mp hb
    refine ⟨by simp, fun hm => ?_, fun hm hbytes hs => hscalar hm (hs rfl) hbytes⟩
    obtain ⟨c, hc, hextent⟩ := hrecord hm
    rw [hlen] at hc
    simp only [hm, if_true, child_plan_eq hc]
    exact ⟨hchildren c hc, hextent⟩
  · intro p hp
    unfold area at hp
    simp only [if_true] at hp
    exact in_slot_behind hv hfield (by simp [hrep]) (hroom.trans hp)
  · simp

theorem push_array_sound {W : Set (ℕ × ℕ)} (hfixed : field.isFixed = true)
    (hkind : field.token_kind = .array_begin)
    (ha : (plans frame.plan).data_bind_binary_array_plan_at frame.current_field = some a)
    (hroom' : reserve_cursor owner field = (true, owner')) : Sound plans root W owner (owner'.push
      { plan :=
          if a.element_token_kind = .map_begin then child_plan plans frame frame.current_field
          else frame.plan
        base_offset := field_start owner frame field
        array := some a
        stage := .group }) := by
  obtain ⟨fixed_only, hok, hlen, -, hchildren⟩ := field_on_top hroot hs hf hv hfield
  obtain ⟨ht, hl, hin⟩ := reserve_cursor_room hroot hs hf hv hfield hfixed hroom'
  obtain ⟨a', ha', hextent, hrecord, hscalar⟩ := (hok.shape hfixed).array hkind
  rw [hlen, ha] at ha'
  obtain rfl := Option.some_inj.mp ha'
  refine sound_push hs hf ht.behind ⟨?_, ?_, ?_, ?_⟩ ⟨.inl hv, ?_, ?_⟩
  · simp
  · simp
  · simp
  · intro b _ hb
    obtain rfl := Option.some_inj.mp hb
    refine ⟨fun _ => by dsimp only; omega, fun hm => ?_, fun hm hbytes _ => hscalar hm hbytes⟩
    obtain ⟨c, hc, hsize⟩ := hrecord hm
    rw [hlen] at hc
    simp only [hm, if_true, child_plan_eq hc]
    exact ⟨hchildren c hc, hsize⟩
  · intro p hp
    unfold area at hp
    simp only [if_true] at hp
    exact hin p hp.1 (hextent ▸ hp.2)
  · simp

theorem push_group_sound {W : Set (ℕ × ℕ)} (hrep : field.representation = .group)
    (ht : Touches W owner owner') (hl : owner'.buffer.length = owner.buffer.length + 4) :
    Sound plans root W owner (owner'.push
      { plan := child_plan plans frame frame.current_field
        base_offset := owner.buffer.length
        stage := .group }) := by
  obtain ⟨fixed_only, hok, hlen, hroom, hchildren⟩ := field_on_top hroot hs hf hv hfield
  obtain ⟨c, hc⟩ := hok.group hrep
  rw [hlen] at hc
  refine sound_push hs hf ht ⟨?_, ?_, ?_, ?_⟩ ⟨.inl hv, ?_, ?_⟩
  · simp
  · intro _ _
    dsimp only
    omega
  · intro _ _
    rw [child_plan_eq hc]
    exact hchildren c hc
  · simp
  · intro p hp
    unfold area at hp
    simp only [if_true] at hp
    exact in_slot_behind hv hfield (by simp [hrep]) (hroom.trans hp)
  · simp

theorem push_record_sound {W : Set (ℕ × ℕ)} (hfixed : field.isFixed = true)
    (hkind : field.token_kind = .map_begin) (hroom' : reserve_cursor owner field = (true, owner')) :
    Sound plans root W owner (owner'.push
      { plan := child_plan plans frame frame.current_field
        base_offset := field_start owner frame field
        stage := .key }) := by
  obtain ⟨fixed_only, hok, hlen, -, hchildren⟩ := field_on_top hroot hs hf hv hfield
  obtain ⟨ht, hl, hin⟩ := reserve_cursor_room hroot hs hf hv hfield hfixed hroom'
  obtain ⟨c, hc, hsize⟩ := (hok.shape hfixed).record hkind
  rw [hlen] at hc
  have hbelow := hchildren c hc
  rw [child_plan_eq hc]
  refine sound_push hs hf ht.behind ⟨fun _ => ⟨hbelow.1, ?_⟩, ?_, ?_, ?_⟩ ⟨.inl hv, ?_, ?_⟩
  · dsimp only
    omega
  · simp
  · simp
  · simp
  · intro p hp
    unfold area at hp
    simp only [reduceCtorEq, if_false] at hp
    exact hin p hp.1 (hsize ▸ hp.2)
  · exact fun _ => hbelow.2

theorem scalar_value_touches :
    Touches (place plans frame field) owner (scalar_value plans ops owner frame field token).2 := by
  obtain ⟨fixed_only, hok, -⟩ := field_on_top hroot hs hf hv hfield
  have hsame := Touches.refl (place plans frame field) owner
  have hshape : field.isFixed = true → field.token_kind ≠ .map_begin →
      field.token_kind ≠ .array_begin → field.token_kind ≠ .bytes →
      field.wire_extent = field.scalar_bits / 8 := fun hfixed => (hok.shape hfixed).scalar
  unfold scalar_value
  cases hrep : field.representation with
  | cursor_fixed => exact
    (positioned_value_touches token (hshape (by simp [FieldPlan.isFixed, hrep]))).behind
  | fixed =>
    have hvalue := @fixed_value_touches plans ops owner frame field token
      (hshape (by simp [FieldPlan.isFixed, hrep]))
    have ht : Touches (place plans frame field) owner
        (binary_writer_fixed_value plans ops owner frame field token).2 := by
      refine hvalue.mono ?_
      rintro ⟨p, i⟩ ⟨hlo, hhi⟩
      exact ⟨p - frame.base_offset, .inl ⟨hrep, by dsimp only; omega, by dsimp only; omega⟩,
        by dsimp only; omega⟩
    generalize binary_writer_fixed_value plans ops owner frame field token = r at ht
    obtain ⟨fine, owner'⟩ := r
    cases fine <;> exact ht
  | var_data =>
    have hvar := fun slice => @append_var_data_keeps plans owner
      (Touches (place plans frame field) owner) id slice (fun _ ht => ht.behind) fun _ ht => ht.behind
    cases token
    case string slice =>
      split_ifs
      · exact hsame
      · exact hvar slice
    case bytes slice =>
      dsimp only
      split_ifs
      · exact hsame
      · exact hvar slice
    all_goals exact hsame
  | group => exact hsame
  | counted => exact hsame
  | unknown value => exact hsame

theorem write_value_sound : Sound plans root (place plans frame field) owner
    (write_value plans ops owner frame field token).2 := by
  have hsame := sound_same hs (Touches.refl (place plans frame field) owner)
  unfold write_value
  dsimp only
  by_cases hcounted : field.representation = .counted
  · rw [if_pos hcounted]
    cases ha : (plans frame.plan).data_bind_binary_array_plan_at frame.current_field with
    | none => exact hsame
    | some a =>
      dsimp only
      by_cases htoken : token ≠
          (if decide (field.token_kind = .map_begin) = true then .map_begin else .array_begin)
      · rw [if_pos htoken]
        exact hsame
      rw [if_neg htoken]
      by_cases hdeep : owner.frames.length ≥ owner.max_depth
      · rw [if_pos hdeep]
        exact hsame
      rw [if_neg hdeep]
      cases hroom : binary_writer_append_count_header owner with
      | mk fine owner' =>
        cases fine
        · exact sound_same hs (reserve_append_fails hroom).behind
        · obtain ⟨ht, hl⟩ := reserve_append_room hroom
          exact push_counted_sound hroot hs hf hv hfield hcounted ha ht.behind
            (by simpa [zeros] using hl)
  rw [if_neg hcounted]
  by_cases harray : field.isFixed = true ∧ field.token_kind = .array_begin
  · rw [if_pos harray]
    cases ha : (plans frame.plan).data_bind_binary_array_plan_at frame.current_field with
    | none => exact hsame
    | some a =>
      dsimp only
      by_cases htoken : token ≠ .array_begin
      · rw [if_pos htoken]
        exact hsame
      rw [if_neg htoken]
      by_cases hdeep : owner.frames.length ≥ owner.max_depth
      · rw [if_pos hdeep]
        exact hsame
      rw [if_neg hdeep]
      cases hroom : reserve_cursor owner field with
      | mk fine owner' =>
        cases fine
        · exact sound_same hs (reserve_cursor_fails hroom).behind
        · exact push_array_sound hroot hs hf hv hfield harray.1 harray.2 ha hroom
  rw [if_neg harray]
  by_cases hgroup : field.representation = .group
  · rw [if_pos hgroup]
    split_ifs
    · exact hsame
    · exact hsame
    · cases hroom : binary_writer_append_group_header owner
          (plans (child_plan plans frame frame.current_field)) with
      | mk fine owner' =>
        unfold binary_writer_append_group_header at hroom
        cases fine
        · exact sound_same hs (reserve_append_fails hroom).behind
        · obtain ⟨ht, hl⟩ := reserve_append_room hroom
          refine push_group_sound hroot hs hf hv hfield hgroup ht.behind ?_
          rw [hl, List.length_append, length_wire_bytes, length_wire_bytes]
  rw [if_neg hgroup]
  by_cases hrecord : field.token_kind = .map_begin
  · obtain ⟨fixed_only, hok, -⟩ := field_on_top hroot hs hf hv hfield
    rw [if_pos hrecord]
    split_ifs
    · exact hsame
    · exact hsame
    · cases hroom : reserve_cursor owner field with
      | mk fine owner' =>
        cases fine
        · exact sound_same hs (reserve_cursor_fails hroom).behind
        · exact push_record_sound hroot hs hf hv hfield (hok.record hrecord hcounted hgroup) hrecord
            hroom
  rw [if_neg hrecord]
  have ht := @scalar_value_touches plans ops root owner frame rest field token hroot hs hf hv hfield
  generalize scalar_value plans ops owner frame field token = r at ht
  obtain ⟨status, owner'⟩ := r
  cases status
  · exact sound_setTop hs hf ht (alike_record (by simp [hv]) (by simp))
  · exact sound_same hs ht
  · exact sound_same hs ht

theorem value_sound : Sound plans root (place plans frame field) owner
    (binary_writer_value plans ops owner frame token).2 := by
  have hbit : ∀ (owner : WriterOwner) (value : Bool), Touches (place plans frame field) owner
      (if field.nullable then binary_writer_state_bit owner frame (plans frame.plan).null_offset
        field.nullable_bit value else owner) := by
    intro owner value
    split_ifs with hn
    · exact null_touches value hn
    · exact Touches.refl _ owner
  unfold binary_writer_value
  simp only [hfield]
  have hpresence : Touches (place plans frame field) owner
      (if field.optional then binary_writer_state_bit owner frame
        (plans frame.plan).presence_offset field.optional_bit true else owner) := by
    split_ifs with ho
    · exact presence_touches true ho
    · exact Touches.refl _ owner
  generalize (if field.optional then binary_writer_state_bit owner frame
    (plans frame.plan).presence_offset field.optional_bit true else owner) = present at hpresence
  by_cases hnull : token = .null
  · rw [if_pos hnull]
    by_cases hn : field.nullable = false
    · rw [if_pos hn]
      exact sound_same hs hpresence
    · rw [if_neg hn]
      have hset := hpresence.trans (null_touches true (by simpa using hn))
      have ht := hset.trans
        (@append_empty_tail_touches plans _ frame field frame.current_field).behind
      generalize binary_writer_append_empty_tail plans (binary_writer_state_bit present frame
        (plans frame.plan).null_offset field.nullable_bit true) frame frame.current_field field = r
        at ht
      obtain ⟨fine, owner'⟩ := r
      cases fine
      · exact sound_same hs ht
      · exact sound_setTop hs hf ht (alike_record (by simp [hv]) (by simp))
  · rw [if_neg hnull]
    have ht := hpresence.trans (hbit present false)
    generalize (if field.nullable then binary_writer_state_bit present frame
      (plans frame.plan).null_offset field.nullable_bit false else present) = ready at ht
    have hready := sound_same hs ht
    have hwrite := @write_value_sound plans ops root ready frame rest field token hroot
      hready.frames (ht.frames.trans hf) hv hfield
    exact ⟨ht.buffer.trans hwrite.buffer, hwrite.frames⟩

end Values

theorem write_sound (hroot : Accepted plans false root)
    (hs : Stacked plans root owner.frames owner.buffer.length)
    (hf : owner.frames = frame::rest) (token : Token) :
    Sound plans root (target plans frame token) owner
      (binary_writer_write plans ops owner token).2 := by
  have hsame := sound_same hs (Touches.refl (target plans frame token) owner)
  unfold binary_writer_write
  simp only [hf]
  cases hstage : frame.stage with
  | root =>
    dsimp only
    split_ifs
    · exact hsame
    · exact sound_setTop hs hf (Touches.refl _ owner) (alike_record (by simp [hstage]) (by simp))
  | key =>
    by_cases hend : token = .map_end
    · rw [if_pos hend, hend]
      exact end_record_sound hs hf hstage
    · rw [if_neg hend]
      have ht := @find_field_touches plans owner frame token hstage
      generalize binary_writer_find_field plans owner frame token = r at ht
      obtain ⟨found, owner'⟩ := r
      cases found with
      | none => exact sound_same hs ht
      | some i => exact sound_setTop hs hf ht (alike_record (by simp [hstage]) (by simp))
  | value =>
    dsimp only
    cases hfield : (plans frame.plan).fieldList[frame.current_field]? with
    | none =>
      unfold binary_writer_value
      simp only [hfield]
      exact hsame
    | some field =>
      have hvalue := @value_sound plans ops root owner frame rest field token hroot hs hf hstage hfield
      have hw : Written plans frame token frame.current_field := by simp [Written, hstage]
      exact ⟨hvalue.buffer.mono (place_subset (by simp [hstage]) hw hfield), hvalue.frames⟩
  | group =>
    by_cases hend : token = (if frame.map = true then .map_end else .array_end)
    · rw [if_pos hend]
      exact end_sequence_sound hs hf hstage
    · rw [if_neg hend]
      cases ha : frame.array with
      | some a =>
        dsimp only
        by_cases hc : frame.counted = true
        · rw [if_pos hc]
          exact write_counted_sound hs hf hstage ha hc
        · rw [if_neg hc]
          exact write_array_sound hs hf hstage ha (by simpa using hc)
      | none => exact write_entry_sound hs hf hstage ha
  | done => exact hsame

end Calls

end SaltsUtils.Binary.Layout
