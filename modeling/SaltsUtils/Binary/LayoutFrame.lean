import SaltsUtils.Binary.LayoutStorage
import SaltsUtils.Binary.LayoutWriter

/-!
# What a call of the writer leaves alone

Each frame of the writer has an area of the buffer, and the frame above it stays
in the slot of the field that is being written. A call changes bits of the
frame on top only, and there of the fields that it writes.
-/

set_option autoImplicit false

namespace SaltsUtils.Binary.Layout

def bit (buffer : List Byte) (p i : ℕ) : Bool := ((buffer[p]?).getD 0).getLsbD i

/-- The buffer may grow, and behind that only the bits of a set may change. -/
def Changes (W : Set (ℕ × ℕ)) (before after : List Byte) : Prop :=
  before.length ≤ after.length ∧
    ∀ p i, p < before.length → (p, i) ∉ W → bit after p i = bit before p i

namespace Changes
variable {V W : Set (ℕ × ℕ)} {b c d : List Byte}

theorem refl (W : Set (ℕ × ℕ)) (b : List Byte) : Changes W b b :=
  ⟨le_refl _, fun _ _ _ _ => rfl⟩

theorem mono (h : Changes V b c) (hVW : V ⊆ W) : Changes W b c :=
  ⟨h.1, fun p i hp hW => h.2 p i hp (fun hV => hW (hVW hV))⟩

theorem trans (h : Changes W b c) (h' : Changes W c d) : Changes W b d := by
  refine ⟨h.1.trans h'.1, fun p i hp hW => ?_⟩
  have hp' : p < c.length := lt_of_lt_of_le hp h.1
  rw [h'.2 p i hp' hW, h.2 p i hp hW]

theorem append (b data : List Byte) : Changes ∅ b (b ++ data) := by
  constructor
  · simp
  · intro p i hp _
    simp [bit, List.getElem?_append_left hp]

theorem overwrite {offset : ℕ} (b data : List Byte) (ho : offset ≤ b.length) :
    Changes {x | offset ≤ x.1 ∧ x.1 < offset + data.length} b
      (SaltsUtils.overwrite b offset data) := by
  constructor
  · simp only [SaltsUtils.overwrite, List.length_append, List.length_take, List.length_drop]
    omega
  · intro p i _ hW
    have hp : ¬ (offset ≤ p ∧ p < offset + data.length) := hW
    unfold bit
    rw [getElem?_overwrite ho, if_neg hp]

end Changes

theorem getLsbD_assign {byte : Byte} {k i : ℕ} {value : Bool} (hi : i < 8) (hne : i ≠ k % 8) :
    (Byte.assign byte k value).getLsbD i = byte.getLsbD i := by
  have hone : (1#8 <<< (k % 8)).getLsbD i = false := by
    rw [BitVec.getLsbD_shiftLeft]
    by_cases hlt : i < k % 8
    · simp [hlt]
    · have : i - k % 8 ≠ 0 := by omega
      simp [BitVec.getLsbD_one, this]
  unfold Byte.assign
  cases value
  · simp only [Bool.false_eq_true, if_false, BitVec.getLsbD_and, BitVec.getLsbD_not, hone]
    simp [hi]
  · simp [hone]

theorem Changes.modify (b : List Byte) (k place : ℕ) (value : Bool) :
    Changes {(k, place % 8)} b (b.modify k fun byte => Byte.assign byte place value) := by
  constructor
  · simp
  · intro p i hp hW
    unfold bit
    rw [List.getElem?_modify, List.getElem?_eq_getElem hp]
    by_cases hk : k = p
    · subst hk
      have hne : i ≠ place % 8 := by
        rintro rfl
        exact hW rfl
      simp only [if_true, Option.getD_some]
      by_cases hi : i < 8
      · exact getLsbD_assign hi hne
      · rw [BitVec.getLsbD_of_ge _ _ (by omega), BitVec.getLsbD_of_ge _ _ (by omega)]
    · simp [hk]

section Frames
variable (plans : ℕ → LayoutPlan)

/-- The bytes of a frame: the fixed block of a record, the elements of a fixed array, and all that
comes from the header of a group or a counted collection on. -/
def area (frame : WriterFrame) : Set ℕ :=
  if frame.stage = .group then
    match frame.array, frame.counted with
    | some a, false =>
      {p | frame.base_offset ≤ p ∧ p < frame.base_offset + a.count * a.element_extent}
    | _, _ => {p | frame.base_offset ≤ p}
  else
    {p | frame.base_offset ≤ p ∧ p < frame.base_offset + (plans frame.plan).fixed_block_size}

/-- Where the frame above may lie: in the range of the field that is being written, or behind the
fixed block if the field has its place there. -/
def slot (frame : WriterFrame) : Set ℕ :=
  if frame.stage = .group then area plans frame
  else
    {p | ∃ field, (plans frame.plan).fieldList[frame.current_field]? = some field ∧
      if field.representation = .fixed then
        frame.base_offset + field.wire_offset ≤ p ∧
          p < frame.base_offset + field.wire_offset + field.wire_extent
      else frame.base_offset + (plans frame.plan).fixed_block_size ≤ p}

variable (root : ℕ)

def Below (p : ℕ) : Prop := Reaches plans root p ∧ Accepted plans true p

structure FrameOk (length : ℕ) (frame : WriterFrame) : Prop where
  record : frame.stage ≠ .group → Reaches plans root frame.plan ∧
    frame.base_offset + (plans frame.plan).fixed_block_size ≤ length
  header : frame.stage = .group → (frame.array = none ∨ frame.counted = true) →
    frame.base_offset + 4 ≤ length
  entry : frame.stage = .group → frame.array = none → Below plans root frame.plan
  element : ∀ a, frame.stage = .group → frame.array = some a →
    (frame.counted = false → frame.base_offset + a.count * a.element_extent ≤ length) ∧
    (a.element_token_kind = .map_begin → Below plans root frame.plan ∧
      (plans frame.plan).fixed_block_size = a.element_extent) ∧
    (a.element_token_kind ≠ .map_begin → a.element_token_kind ≠ .bytes →
      (frame.counted = true → a.element_token_kind ≠ .string) →
      a.element_extent = a.element_scalar_bits / 8)

/-- A frame and the one under it. -/
structure Above (child parent : WriterFrame) : Prop where
  stage : parent.stage = .value ∨ (parent.stage = .group ∧ child.stage ≠ .group)
  inside : area plans child ⊆ slot plans parent
  only : child.stage ≠ .group → Accepted plans true child.plan

/-- The frames of a writer, the one on top first. -/
structure Stacked (frames : List WriterFrame) (length : ℕ) : Prop where
  ok : ∀ frame ∈ frames, FrameOk plans root length frame
  chain : frames.IsChain (Above plans)

end Frames

section Stack
variable {plans : ℕ → LayoutPlan} {root : ℕ} {frame frame' child : WriterFrame}
  {rest frames : List WriterFrame} {n m : ℕ}

theorem FrameOk.mono (h : FrameOk plans root n frame) (hnm : n ≤ m) :
    FrameOk plans root m frame := by
  refine ⟨fun hs => ?_, fun hs ha => ?_, h.entry, fun a hs ha => ?_⟩
  · obtain ⟨hr, hl⟩ := h.record hs
    exact ⟨hr, hl.trans hnm⟩
  · exact (h.header hs ha).trans hnm
  · obtain ⟨hc, hm, hb⟩ := h.element a hs ha
    exact ⟨fun hf => (hc hf).trans hnm, hm, hb⟩

theorem Stacked.mono (h : Stacked plans root frames n) (hnm : n ≤ m) :
    Stacked plans root frames m :=
  ⟨fun f hf => (h.ok f hf).mono hnm, h.chain⟩

/-- Frames that differ in where they stand only. -/
structure Alike (f g : WriterFrame) : Prop where
  plan : g.plan = f.plan
  base : g.base_offset = f.base_offset
  array : g.array = f.array
  counted : g.counted = f.counted
  group : g.stage = .group ↔ f.stage = .group

theorem Alike.area (h : Alike frame frame') : area plans frame' = area plans frame := by
  unfold Layout.area
  rw [h.base, h.array, h.counted, h.plan]
  by_cases hg : frame.stage = .group
  · rw [if_pos hg, if_pos (h.group.mpr hg)]
  · rw [if_neg hg, if_neg (fun hg' => hg (h.group.mp hg'))]

theorem Alike.ok (h : Alike frame frame') (hok : FrameOk plans root n frame) :
    FrameOk plans root n frame' := by
  have hne : frame'.stage ≠ .group → frame.stage ≠ .group := fun hs hg => hs (h.group.mpr hg)
  constructor
  · rw [h.plan, h.base]
    exact fun hs => hok.record (hne hs)
  · rw [h.array, h.counted, h.base]
    exact fun hs => hok.header (h.group.mp hs)
  · rw [h.array, h.plan]
    exact fun hs => hok.entry (h.group.mp hs)
  · rw [h.array, h.counted, h.base, h.plan]
    exact fun a hs => hok.element a (h.group.mp hs)

theorem Stacked.change (h : Stacked plans root (frame::rest) n) (ha : Alike frame frame') :
    Stacked plans root (frame'::rest) n := by
  constructor
  · intro f hf
    rcases List.mem_cons.mp hf with rfl | hf
    · exact ha.ok (h.ok frame (by simp))
    · exact h.ok f (by simp [hf])
  · cases rest with
    | nil => simp
    | cons parent rest =>
      obtain ⟨habove, hrest⟩ := List.isChain_cons_cons.mp h.chain
      refine List.isChain_cons_cons.mpr ⟨⟨?_, ?_, ?_⟩, hrest⟩
      · exact habove.stage.imp id (fun hs => ⟨hs.1, fun hg => hs.2 (ha.group.mp hg)⟩)
      · rw [ha.area]
        exact habove.inside
      · intro hs
        rw [ha.plan]
        exact habove.only (fun hg => hs (ha.group.mpr hg))

theorem Stacked.push (h : Stacked plans root (frame::rest) n) (hc : FrameOk plans root n child)
    (ha : Above plans child frame) : Stacked plans root (child::frame::rest) n := by
  constructor
  · intro f hf
    rcases List.mem_cons.mp hf with rfl | hf
    · exact hc
    · exact h.ok f hf
  · exact List.isChain_cons_cons.mpr ⟨ha, h.chain⟩

theorem Stacked.tail (h : Stacked plans root (frame::rest) n) : Stacked plans root rest n :=
  ⟨fun f hf => h.ok f (by simp [hf]), h.chain.tail⟩

theorem slot_subset_area (ho : frame.stage ≠ .group → Accepted plans true frame.plan) :
    slot plans frame ⊆ area plans frame := by
  by_cases hg : frame.stage = .group
  · unfold slot
    rw [if_pos hg]
  · have hrecord := (ho hg).recordOk
    unfold slot area
    rw [if_neg hg, if_neg hg]
    rintro p ⟨field, hfield, hp⟩
    have hok := hrecord.fields _ field hfield
    have hfixed := hok.only rfl
    have := (hok.placed hfixed).2.1
    rw [if_pos hfixed] at hp
    exact ⟨by omega, by omega⟩

theorem Stacked.inside (h : Stacked plans root (frame::rest) n) :
    ∀ f ∈ rest, area plans frame ⊆ slot plans f := by
  induction rest generalizing frame with
  | nil => simp
  | cons parent rest ih =>
    obtain ⟨habove, -⟩ := List.isChain_cons_cons.mp h.chain
    intro f hf
    rcases List.mem_cons.mp hf with rfl | hf
    · exact habove.inside
    · have hparent : slot plans parent ⊆ area plans parent := by
        cases rest with
        | nil => simp at hf
        | cons grand rest =>
          exact slot_subset_area (List.isChain_cons_cons.mp h.tail.chain).1.only
      exact (habove.inside.trans hparent).trans (ih h.tail f hf)

end Stack

end SaltsUtils.Binary.Layout
