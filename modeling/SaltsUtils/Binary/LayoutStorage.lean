import Mathlib.Data.Set.BooleanAlgebra
import Mathlib.Order.CompletePartialOrder
import SaltsUtils.Binary.LayoutPlan

/-!
# The storage of the fields of a record

What an accepted plan promises of each of its records.
-/

set_option autoImplicit false

namespace SaltsUtils.Binary.Layout

structure FixedOk (plans : ℕ → LayoutPlan) (plan : LayoutPlan) (i : ℕ) (field : FieldPlan) :
    Prop where
  record : field.token_kind = .map_begin →
    ∃ c, plan.child_at i = some c ∧ (plans c).fixed_block_size = field.wire_extent
  array : field.token_kind = .array_begin →
    ∃ a, plan.data_bind_binary_array_plan_at i = some a ∧
      a.count * a.element_extent = field.wire_extent ∧
      (a.element_token_kind = .map_begin →
        ∃ c, plan.child_at i = some c ∧ (plans c).fixed_block_size = a.element_extent) ∧
      (a.element_token_kind ≠ .map_begin → a.element_token_kind ≠ .bytes →
        a.element_extent = a.element_scalar_bits / 8)
  scalar : field.token_kind ≠ .map_begin → field.token_kind ≠ .array_begin →
    field.token_kind ≠ .bytes → field.wire_extent = field.scalar_bits / 8

structure FieldOk (plans : ℕ → LayoutPlan) (plan : LayoutPlan) (fixed_only : Bool)
    (prior : List FieldPlan) (field : FieldPlan) : Prop where
  only : fixed_only = true → field.representation = .fixed
  placed : field.representation = .fixed → field.wire_extent ≠ 0 ∧
    field.wire_offset + field.wire_extent ≤ plan.fixed_block_size ∧
    plan.presence_size + plan.null_size ≤ field.wire_offset
  shape : field.isFixed = true → FixedOk plans plan prior.length field
  counted : field.representation = .counted →
    ∃ a, plan.data_bind_binary_array_plan_at prior.length = some a ∧
      (a.element_token_kind = .map_begin → ∃ c, plan.child_at prior.length = some c ∧
        (plans c).fixed_block_size = a.element_extent) ∧
      (a.element_token_kind ≠ .map_begin → a.element_token_kind ≠ .string →
        a.element_token_kind ≠ .bytes → a.element_extent = a.element_scalar_bits / 8)
  group : field.representation = .group → ∃ c, plan.child_at prior.length = some c
  record : field.token_kind = .map_begin → field.representation ≠ .counted →
    field.representation ≠ .group → field.isFixed = true
  optional : field.optional = true → field.optional_bit / 8 < plan.presence_size
  nullable : field.nullable = true → field.nullable_bit / 8 < plan.null_size
  named : ∀ q ∈ prior, q.field_name ≠ field.field_name
  apart : field.representation = .fixed → ∀ q ∈ prior, q.representation = .fixed →
    q.wire_extent ≠ 0 → q.wire_offset + q.wire_extent ≤ field.wire_offset ∨
      field.wire_offset + field.wire_extent ≤ q.wire_offset

section Checks
variable {plans : ℕ → LayoutPlan} {plan : LayoutPlan}
  {record : Option ℕ → Except PlanError Unit} {entry : Option (Option ℕ → Except PlanError Unit)}
  {i : ℕ} {field : FieldPlan} {u : Unit}

/-- A child was validated, as a record or below a sequence. -/
def Checked (record : Option ℕ → Except PlanError Unit)
    (entry : Option (Option ℕ → Except PlanError Unit)) (c : ℕ) : Prop :=
  record (some c) = .ok () ∨ ∃ e, entry = some e ∧ e (some c) = .ok ()

theorem agrees_of_not {c extent : ℕ} (h : ¬ child_disagrees plans plan c extent) :
    (plans c).fixed_block_size = extent := by
  by_contra hne
  exact h (.inl hne)

theorem fixed_spec (h : validate_fixed plans plan record entry i field = .ok u) :
    FixedOk plans plan i field ∧
      (field.token_kind = .map_begin ∨ field.token_kind = .array_begin →
        ∀ c, plan.child_at i = some c → Checked record entry c) := by
  unfold validate_fixed at h
  split at h
  · rename_i hkind
    split at h
    · cases h
    · rename_i child hchild
      obtain ⟨_, -, h⟩ := bind_eq_ok.mp h
      obtain ⟨_, hrec, h⟩ := bind_eq_ok.mp h
      refine ⟨⟨?_, ?_, ?_⟩, ?_⟩
      · intro _
        exact ⟨child, hchild, agrees_of_not (reject_eq_ok.mp h)⟩
      · simp [hkind]
      · simp [hkind]
      · intro _ c hc
        rw [hchild] at hc
        cases hc
        exact .inl hrec
  · rename_i hkind
    split at h
    · cases h
    · rename_i array harray
      obtain ⟨_, hsize, h⟩ := bind_eq_ok.mp h
      obtain ⟨_, -, h⟩ := bind_eq_ok.mp h
      have hsize := reject_eq_ok.mp hsize
      have hextent : array.count * array.element_extent = field.wire_extent := by
        by_contra hne
        exact hsize (.inr (.inr (.inr (.inr (.inl hne)))))
      cases hentry : entry with
      | none =>
        rw [hentry] at h
        cases h
      | some e =>
        rw [hentry] at h
        dsimp only at h
        by_cases helem : array.element_token_kind = .map_begin
        · rw [if_pos helem] at h
          cases hchild : plan.child_at i with
          | none =>
            rw [hchild] at h
            cases h
          | some child =>
            rw [hchild] at h
            obtain ⟨_, -, h⟩ := bind_eq_ok.mp h
            obtain ⟨_, hrec, h⟩ := bind_eq_ok.mp h
            refine ⟨⟨?_, ?_, ?_⟩, ?_⟩
            · simp [hkind]
            · intro _
              exact ⟨array, harray, hextent, fun _ => ⟨child, hchild,
                agrees_of_not (reject_eq_ok.mp h)⟩, fun hne => absurd helem hne⟩
            · simp [hkind]
            · intro _ c hc
              cases hc
              exact .inr ⟨e, rfl, hrec⟩
        · rw [if_neg helem] at h
          have h := reject_eq_ok.mp h
          have hnone : plan.child_at i = none := by
            by_contra hne
            exact h (.inl hne)
          refine ⟨⟨?_, ?_, ?_⟩, ?_⟩
          · simp [hkind]
          · intro _
            refine ⟨array, harray, hextent, fun hm => absurd hm helem, fun _ hb => ?_⟩
            by_contra hne
            exact h (.inr (by rw [if_neg hb]; exact .inr hne))
          · simp [hkind]
          · intro _ c hc
            rw [hnone] at hc
            cases hc
  · rename_i hkind
    refine ⟨⟨?_, ?_, ?_⟩, ?_⟩ <;> simp [hkind]
  · rename_i hmap harr hbytes
    have h := reject_eq_ok.mp h
    refine ⟨⟨?_, ?_, ?_⟩, ?_⟩
    · intro hm
      exact absurd hm hmap
    · intro hm
      exact absurd hm harr
    · intro _ _ _
      by_contra hne
      exact h (.inr hne)
    · rintro (hm | hm)
      · exact absurd hm hmap
      · exact absurd hm harr

theorem counted_spec {fixed_only : Bool}
    (h : validate_counted plans plan fixed_only entry i field = .ok u) :
    fixed_only = false ∧ (∀ c, plan.child_at i = some c → Checked record entry c) ∧
      ∃ a, plan.data_bind_binary_array_plan_at i = some a ∧
        (a.element_token_kind = .map_begin → ∃ c, plan.child_at i = some c ∧
          (plans c).fixed_block_size = a.element_extent) ∧
        (a.element_token_kind ≠ .map_begin → a.element_token_kind ≠ .string →
          a.element_token_kind ≠ .bytes → a.element_extent = a.element_scalar_bits / 8) := by
  unfold validate_counted at h
  split at h
  · cases h
  · rename_i array harray
    obtain ⟨_, hcheck, h⟩ := bind_eq_ok.mp h
    have hcheck := reject_eq_ok.mp hcheck
    simp only [not_or] at hcheck
    obtain ⟨hfixed, -, -, -, -, -, -, -, hwidth, hchild, -⟩ := hcheck
    have hscalar : array.element_token_kind ≠ .map_begin → array.element_token_kind ≠ .string →
        array.element_token_kind ≠ .bytes →
        array.element_extent = array.element_scalar_bits / 8 := by
      intro hm hs hb
      rw [if_neg (by simp [hs, hb]), if_neg hm] at hwidth
      by_contra hne
      exact hwidth (.inr hne)
    cases hentry : entry with
    | none =>
      rw [hentry] at h
      cases h
    | some e =>
      rw [hentry] at h
      by_cases hm : array.element_token_kind = .map_begin
      · rw [if_pos hm] at hchild
        obtain ⟨c, hc⟩ := Option.ne_none_iff_exists'.mp hchild
        rw [hm, hc] at h
        obtain ⟨_, hrec, h⟩ := bind_eq_ok.mp h
        refine ⟨by simpa using hfixed, ?_, array, harray, fun _ => ⟨c, hc,
          agrees_of_not (reject_eq_ok.mp h)⟩, hscalar⟩
        intro c' hc'
        rw [hc] at hc'
        cases hc'
        exact .inr ⟨e, rfl, hrec⟩
      · rw [if_neg hm, not_not] at hchild
        refine ⟨by simpa using hfixed, ?_, array, harray, fun h => absurd h hm, hscalar⟩
        intro c' hc'
        rw [hchild] at hc'
        cases hc'

theorem group_spec {fixed_only : Bool} {saw : Saw}
    (h : validate_group plans plan fixed_only saw entry i field = .ok u) :
    fixed_only = false ∧ ∃ c e, plan.child_at i = some c ∧ entry = some e ∧
      e (some c) = .ok () := by
  unfold validate_group at h
  split at h
  · cases h
  · rename_i child hchild
    obtain ⟨_, hcheck, h⟩ := bind_eq_ok.mp h
    have hcheck := reject_eq_ok.mp hcheck
    simp only [not_or] at hcheck
    cases hentry : entry with
    | none =>
      rw [hentry] at h
      cases h
    | some e =>
      rw [hentry] at h
      obtain ⟨_, hrec, -⟩ := bind_eq_ok.mp h
      exact ⟨by simpa using hcheck.1, child, e, hchild, rfl, hrec⟩

theorem state_spec (h : validate_state plan i field = .ok u) :
    (field.token_kind ≠ .map_begin → field.token_kind ≠ .array_begin → plan.child_at i = none) ∧
      (field.optional = true → field.optional_bit / 8 < plan.presence_size) ∧
      (field.nullable = true → field.nullable_bit / 8 < plan.null_size) := by
  unfold validate_state at h
  obtain ⟨_, h₁, h⟩ := bind_eq_ok.mp h
  obtain ⟨_, -, h⟩ := bind_eq_ok.mp h
  obtain ⟨_, -, h⟩ := bind_eq_ok.mp h
  obtain ⟨_, h₂, h⟩ := bind_eq_ok.mp h
  obtain ⟨_, h₃, -⟩ := bind_eq_ok.mp h
  have h₁ := reject_eq_ok.mp h₁
  have h₂ := reject_eq_ok.mp h₂
  have h₃ := reject_eq_ok.mp h₃
  refine ⟨fun hm ha => ?_, fun ho => ?_, fun hn => ?_⟩
  · by_contra hne
    exact h₁ ⟨hm, ha, hne⟩
  · by_contra hlt
    exact h₂ ⟨ho, .inr (by omega)⟩
  · by_contra hlt
    exact h₃ ⟨hn, .inr (by omega)⟩

theorem overlap_false {a m b n : ℕ} (hm : m ≠ 0)
    (h : ¬ binary_ranges_overlap a m b n = true) : n = 0 ∨ a + m ≤ b ∨ b + n ≤ a := by
  unfold binary_ranges_overlap at h
  by_cases hn : n = 0
  · exact .inl hn
  · rw [if_neg (by simp [hm, hn])] at h
    cases hl : binary_size_add a m with
    | none => simp [hl] at h
    | some e =>
      cases hr : binary_size_add b n with
      | none => simp [hl, hr] at h
      | some e' =>
        have he : e = a + m := by
          unfold binary_size_add at hl
          split_ifs at hl
          exact (Option.some_inj.mp hl).symm
        have he' : e' = b + n := by
          unfold binary_size_add at hr
          split_ifs at hr
          exact (Option.some_inj.mp hr).symm
        simp only [hl, hr, Bool.and_eq_true, decide_eq_true_eq, not_and] at h
        omega

theorem add_le {a m n : ℕ}
    (h : ¬ (binary_size_add a m).all (fun stop => decide (stop > n)) = true) : a + m ≤ n := by
  unfold binary_size_add at h
  split_ifs at h
  · simp at h
  · simpa using h

theorem field_spec {fixed_only : Bool} {group_entry : Option (Option ℕ → Except PlanError Unit)}
    {prior : List FieldPlan} {saw saw' : Saw} (hg : ∀ e, group_entry = some e → entry = some e)
    (h : validate_field plans plan fixed_only (plan.presence_size + plan.null_size) record entry
      group_entry prior saw field = .ok saw') :
    FieldOk plans plan fixed_only prior field ∧
      ∀ c, plan.child_at prior.length = some c → Checked record entry c := by
  unfold validate_field at h
  obtain ⟨_, -, h⟩ := bind_eq_ok.mp h
  obtain ⟨_, -, h⟩ := bind_eq_ok.mp h
  obtain ⟨saw₁, hrep, h⟩ := bind_eq_ok.mp h
  obtain ⟨_, hstate, h⟩ := bind_eq_ok.mp h
  obtain ⟨_, hprior, -⟩ := bind_eq_ok.mp h
  obtain ⟨hscalar, hoptional, hnullable⟩ := state_spec hstate
  have hprior := reject_eq_ok.mp hprior
  have hclash : ∀ q ∈ prior, clashes field q = false := by
    simpa using hprior
  have hnamed : ∀ q ∈ prior, q.field_name ≠ field.field_name := by
    intro q hq heq
    have := hclash q hq
    simp [clashes, heq] at this
  have hshape : ∀ {w : Unit}, validate_fixed plans plan record entry prior.length field = .ok w →
      FixedOk plans plan prior.length field ∧
        ∀ c, plan.child_at prior.length = some c → Checked record entry c := by
    intro w hw
    obtain ⟨hok, hchild⟩ := fixed_spec hw
    refine ⟨hok, fun c hc => hchild ?_ c hc⟩
    by_contra hno
    rw [not_or] at hno
    rw [hscalar hno.1 hno.2] at hc
    cases hc
  unfold validate_representation at hrep
  split at hrep
  · -- FIXED
    rename_i hrep'
    obtain ⟨_, hplace, hrep⟩ := bind_eq_ok.mp hrep
    obtain ⟨_, hfixed, -⟩ := bind_eq_ok.mp hrep
    obtain ⟨hok, hchild⟩ := hshape hfixed
    have hplace := reject_eq_ok.mp hplace
    simp only [not_or] at hplace
    obtain ⟨-, hne, hstop, hstate_end⟩ := hplace
    have hbitmaps := overlap_false hne hstate_end
    refine ⟨⟨fun _ => hrep', fun _ => ⟨hne, add_le hstop, ?_⟩, fun _ => hok, ?_, ?_, ?_, hoptional,
      hnullable, hnamed, ?_⟩, hchild⟩
    · omega
    · simp [hrep']
    · simp [hrep']
    · simp [FieldPlan.isFixed, hrep']
    · intro _ q hq hqrep hqne
      have := hclash q hq
      simp only [clashes, hrep', hqrep, Bool.or_eq_false_iff] at this
      have := overlap_false hqne (by simpa using this.2)
      omega
  · -- CURSOR_FIXED
    rename_i hrep'
    obtain ⟨_, hplace, hrep⟩ := bind_eq_ok.mp hrep
    obtain ⟨_, hfixed, -⟩ := bind_eq_ok.mp hrep
    obtain ⟨hok, hchild⟩ := hshape hfixed
    have hplace := reject_eq_ok.mp hplace
    simp only [not_or] at hplace
    refine ⟨⟨fun ho => absurd ho hplace.1, ?_, fun _ => hok, ?_, ?_, ?_, hoptional, hnullable, hnamed,
      ?_⟩, hchild⟩ <;> simp [FieldPlan.isFixed, hrep']
  · -- COUNTED
    rename_i hrep'
    obtain ⟨_, hcounted, -⟩ := bind_eq_ok.mp hrep
    obtain ⟨hfixed, hchild, harray⟩ := @counted_spec plans plan record entry _ _ _ _ hcounted
    refine ⟨⟨fun ho => ?_, ?_, ?_, fun _ => harray, ?_, ?_, hoptional, hnullable, hnamed, ?_⟩,
      hchild⟩
    · rw [hfixed] at ho
      cases ho
    all_goals simp [hrep', FieldPlan.isFixed]
  · -- GROUP
    rename_i hrep'
    obtain ⟨_, hgroup, -⟩ := bind_eq_ok.mp hrep
    obtain ⟨hfixed, child, e, hchild, hentry, hrec⟩ := group_spec hgroup
    refine ⟨⟨fun ho => ?_, ?_, ?_, ?_, fun _ => ⟨child, hchild⟩, ?_, hoptional, hnullable, hnamed,
      ?_⟩, ?_⟩
    · rw [hfixed] at ho
      cases ho
    · simp [hrep']
    · simp [hrep', FieldPlan.isFixed]
    · simp [hrep']
    · simp [hrep']
    · simp [hrep']
    · intro c hc
      rw [hchild] at hc
      cases hc
      exact .inr ⟨e, hg e hentry, hrec⟩
  · -- VAR_DATA
    rename_i hrep'
    obtain ⟨_, hvar, -⟩ := bind_eq_ok.mp hrep
    have hvar := reject_eq_ok.mp hvar
    simp only [not_or] at hvar
    refine ⟨⟨fun ho => absurd ho hvar.1, ?_, ?_, ?_, ?_, ?_, hoptional, hnullable, hnamed, ?_⟩, ?_⟩
    · simp [hrep']
    · simp [hrep', FieldPlan.isFixed]
    · simp [hrep']
    · simp [hrep']
    · rintro hm
      simp [hm] at hvar
    · simp [hrep']
    · intro c hc
      rw [hscalar (by rintro hm; simp [hm] at hvar) (by rintro hm; simp [hm] at hvar)] at hc
      cases hc
  · cases hrep

end Checks

theorem fields_spec {plans : ℕ → LayoutPlan} {plan : LayoutPlan} {fixed_only : Bool}
    {record : Option ℕ → Except PlanError Unit}
    {entry group_entry : Option (Option ℕ → Except PlanError Unit)}
    (hg : ∀ e, group_entry = some e → entry = some e) (fields : List FieldPlan) :
    ∀ (prior : List FieldPlan) (saw saw' : Saw),
    validate_fields plans plan fixed_only (plan.presence_size + plan.null_size) record entry
      group_entry prior saw fields = .ok saw' →
    ∀ k field, fields[k]? = some field →
      FieldOk plans plan fixed_only (prior ++ fields.take k) field ∧
        ∀ c, plan.child_at (prior.length + k) = some c → Checked record entry c := by
  induction fields with
  | nil =>
    intro prior saw saw' _ k field hk
    cases hk
  | cons first rest ih =>
    intro prior saw saw' h k field hk
    unfold validate_fields at h
    obtain ⟨saw₁, hfirst, hrest⟩ := bind_eq_ok.mp h
    cases k with
    | zero =>
      cases hk
      simpa using field_spec hg hfirst
    | succ k =>
      have := ih _ _ _ hrest k field (by simpa using hk)
      rw [List.length_append, List.length_singleton, List.append_assoc] at this
      rwa [show prior.length + (k + 1) = prior.length + 1 + k by omega]

/-- A record that was validated, with any depth left. -/
def Accepted (plans : ℕ → LayoutPlan) (fixed_only : Bool) (p : ℕ) : Prop :=
  ∃ room ancestors, binary_layout_validate plans room ancestors fixed_only (some p) = .ok ()

structure RecordOk (plans : ℕ → LayoutPlan) (fixed_only : Bool) (plan : LayoutPlan) : Prop where
  presence : plan.presence_offset = 0
  null : plan.null_offset = plan.presence_size
  bitmaps : plan.presence_size + plan.null_size ≤ plan.fixed_block_size
  fields : ∀ k field, plan.fieldList[k]? = some field →
    FieldOk plans plan fixed_only (plan.fieldList.take k) field
  children : ∀ k c, k < plan.fieldList.length → plan.child_at k = some c → Accepted plans true c

theorem Accepted.recordOk {plans : ℕ → LayoutPlan} {fixed_only : Bool} {p : ℕ}
    (h : Accepted plans fixed_only p) : RecordOk plans fixed_only (plans p) := by
  obtain ⟨room, ancestors, h⟩ := h
  cases room with
  | zero => cases h
  | succ room =>
    unfold binary_layout_validate at h
    have hmem : some p ∉ ancestors := by
      intro hmem
      rw [if_pos hmem] at h
      cases h
    rw [if_neg hmem] at h
    obtain ⟨_, -, h⟩ := bind_eq_ok.mp h
    obtain ⟨_, hstate, h⟩ := bind_eq_ok.mp h
    obtain ⟨saw, hfields, -⟩ := bind_eq_ok.mp h
    have hstate := reject_eq_ok.mp hstate
    simp only [not_or, not_not] at hstate
    have hspec := fields_spec (by
      intro e he
      split_ifs at he
      exact he) _ _ _ _ hfields
    refine ⟨hstate.2.1, hstate.2.2, add_le hstate.1, ?_, ?_⟩
    · intro k field hk
      simpa using (hspec k field hk).1
    · intro k c hk hc
      rcases (hspec k _ (List.getElem?_eq_getElem hk)).2 c (by simpa using hc) with hr | ⟨e, he, hr⟩
      · exact ⟨room, _, hr⟩
      · cases room with
        | zero => cases he
        | succ below =>
          cases he
          exact ⟨below, _, hr⟩

/-- The records of the plan graph. -/
inductive Reaches (plans : ℕ → LayoutPlan) (root : ℕ) : ℕ → Prop
  | root : Reaches plans root root
  | child {p k c : ℕ} (hp : Reaches plans root p) (hk : k < (plans p).fieldList.length)
      (hc : (plans p).child_at k = some c) : Reaches plans root c

theorem Reaches.accepted {plans : ℕ → LayoutPlan} {root p : ℕ} (h : Reaches plans root p)
    (hroot : Accepted plans false root) : ∃ fixed_only, Accepted plans fixed_only p := by
  induction h with
  | root => exact ⟨false, hroot⟩
  | child hp hk hc ih =>
    obtain ⟨fixed_only, ha⟩ := ih
    exact ⟨true, ha.recordOk.children _ _ hk hc⟩

/-- The bits that a field owns of the fixed block of its record, by byte and by place. -/
def owned (plan : LayoutPlan) (field : FieldPlan) : Set (ℕ × ℕ) :=
  {b | (field.representation = .fixed ∧ field.wire_offset ≤ b.1 ∧
      b.1 < field.wire_offset + field.wire_extent) ∨
    (field.optional = true ∧
      b = (plan.presence_offset + field.optional_bit / 8, field.optional_bit % 8)) ∨
    (field.nullable = true ∧
      b = (plan.null_offset + field.nullable_bit / 8, field.nullable_bit % 8))}

/-- The fields of a record share no storage: fixed ranges lie apart from one another, inside the
fixed block and behind the bitmaps, and each state bit has one owner. -/
structure Separate (plan : LayoutPlan) : Prop where
  apart : ∀ (i j : ℕ) (f g : FieldPlan), plan.fieldList[i]? = some f →
    plan.fieldList[j]? = some g → i ≠ j → Disjoint (owned plan f) (owned plan g)
  inside : ∀ f ∈ plan.fieldList, f.representation = .fixed →
    plan.presence_size + plan.null_size ≤ f.wire_offset ∧
      f.wire_offset + f.wire_extent ≤ plan.fixed_block_size
  optional : ∀ f ∈ plan.fieldList, f.optional = true →
    f.optional_bit / 8 < plan.presence_size
  nullable : ∀ f ∈ plan.fieldList, f.nullable = true →
    f.nullable_bit / 8 < plan.null_size

/-- No two optional fields have one presence bit, and no two nullable fields one null bit. -/
def DistinctBits (plan : LayoutPlan) : Prop :=
  ∀ (i j : ℕ) (f g : FieldPlan), plan.fieldList[i]? = some f → plan.fieldList[j]? = some g →
    i ≠ j → (f.optional = true → g.optional = true → f.optional_bit ≠ g.optional_bit) ∧
      (f.nullable = true → g.nullable = true → f.nullable_bit ≠ g.nullable_bit)

section Storage
variable {plans : ℕ → LayoutPlan} {fixed_only : Bool} {plan : LayoutPlan}
  (h : RecordOk plans fixed_only plan)
include h

theorem ranges_apart {i j : ℕ} {f g : FieldPlan} (hf : plan.fieldList[i]? = some f)
    (hg : plan.fieldList[j]? = some g) (hne : i ≠ j) (hf' : f.representation = .fixed)
    (hg' : g.representation = .fixed) : f.wire_offset + f.wire_extent ≤ g.wire_offset ∨
      g.wire_offset + g.wire_extent ≤ f.wire_offset := by
  have hmem : ∀ {a b : ℕ} {x : FieldPlan}, plan.fieldList[a]? = some x → a < b →
      x ∈ plan.fieldList.take b := by
    intro a b x hx hab
    exact List.mem_of_getElem? (i := a) (by rw [List.getElem?_take_of_lt hab, hx])
  rcases Nat.lt_or_gt_of_ne hne with hlt | hgt
  · exact (h.fields j g hg).apart hg' f (hmem hf hlt) hf' ((h.fields i f hf).placed hf').1
  · exact ((h.fields i f hf).apart hf' g (hmem hg hgt) hg' ((h.fields j g hg).placed hg').1).symm

theorem separate_iff : Separate plan ↔ DistinctBits plan := by
  constructor
  · intro hs i j f g hf hg hne
    have hapart := Set.disjoint_left.mp (hs.apart i j f g hf hg hne)
    constructor
    · intro ho ho' heq
      exact hapart (.inr (.inl ⟨ho, rfl⟩)) (.inr (.inl ⟨ho', by rw [heq]⟩))
    · intro hn hn' heq
      exact hapart (.inr (.inr ⟨hn, rfl⟩)) (.inr (.inr ⟨hn', by rw [heq]⟩))
  · intro hd
    constructor
    · intro i j f g hf hg hne
      have hfield := h.fields i f hf
      have hfield' := h.fields j g hg
      have hpresence := h.presence
      have hnull := h.null
      apply Set.disjoint_left.mpr
      rintro ⟨byte, bit⟩ hb hb'
      rcases hb with ⟨hr, h₁, h₂⟩ | ⟨ho, hb⟩ | ⟨hn, hb⟩ <;>
        rcases hb' with ⟨hr', h₁', h₂'⟩ | ⟨ho', hb'⟩ | ⟨hn', hb'⟩
      · have := ranges_apart h hf hg hne hr hr'
        omega
      · have := (hfield.placed hr).2.2
        have := hfield'.optional ho'
        simp only [Prod.mk.injEq] at hb'
        omega
      · have := (hfield.placed hr).2.2
        have := hfield'.nullable hn'
        simp only [Prod.mk.injEq] at hb'
        dsimp only at h₁
        omega
      · have := (hfield'.placed hr').2.2
        have := hfield.optional ho
        simp only [Prod.mk.injEq] at hb
        omega
      · have := (hd i j f g hf hg hne).1 ho ho'
        simp only [Prod.mk.injEq] at hb hb'
        omega
      · have := hfield.optional ho
        simp only [Prod.mk.injEq] at hb hb'
        omega
      · have := (hfield'.placed hr').2.2
        have := hfield.nullable hn
        simp only [Prod.mk.injEq] at hb
        dsimp only at h₁'
        omega
      · have := hfield'.optional ho'
        simp only [Prod.mk.injEq] at hb hb'
        omega
      · have := (hd i j f g hf hg hne).2 hn hn'
        simp only [Prod.mk.injEq] at hb hb'
        omega
    · intro f hf hr
      obtain ⟨k, hlt, rfl⟩ := List.getElem_of_mem hf
      have := (h.fields k _ (List.getElem?_eq_getElem hlt)).placed hr
      exact ⟨this.2.2, this.2.1⟩
    · intro f hf
      obtain ⟨k, hlt, rfl⟩ := List.getElem_of_mem hf
      exact (h.fields k _ (List.getElem?_eq_getElem hlt)).optional
    · intro f hf
      obtain ⟨k, hlt, rfl⟩ := List.getElem_of_mem hf
      exact (h.fields k _ (List.getElem?_eq_getElem hlt)).nullable

end Storage

end SaltsUtils.Binary.Layout
