import SaltsUtils.QueryVm.Execute
import SaltsUtils.Library.ForwardFlow
import Mathlib.Order.CompletePartialOrder

/-!
# The verifier computes a meet over all control-flow paths

A control-flow path starts at the first instruction of the slice, takes both branches of a
conditional jump and carries the set of registers written so far.
-/

set_option autoImplicit false

namespace SaltsUtils.QueryVm
open SaltsUtils.Library

variable (insn : Instruction)

def Instruction.reads : List ℕ :=
  match insn.opcode with
  | some .cmp | some .match | some .contains | some .containsCi | some .matchFull
  | some .search | some .add | some .sub | some .mul | some .div | some .mod | some .union
  | some .band | some .bor | some .bxor | some .lshift | some .rshift | some .cat =>
    [insn.src1, insn.src2]
  | some .not | some .neg | some .bnot | some .jmpFalse | some .jmpTrue => [insn.src1]
  | some .select => [insn.src1, insn.src2, insn.arg]
  | _ => []

def Instruction.writes : Set ℕ :=
  match insn.opcode with
  | some .jmpFalse | some .jmpTrue | some .jmp | none => ∅
  | _ => {insn.dst}

def Instruction.successors (pc : ℕ) : List ℕ :=
  match insn.opcode with
  | some .jmp => [insn.arg]
  | some .jmpFalse | some .jmpTrue => [pc+1, insn.arg]
  | _ => [pc+1]

def flowGraph (instructions : ℕ → Instruction) (offset len : ℕ) :
    ForwardFlow.Graph (Set ℕ) where
  first := offset
  last := offset+len
  start := ∅
  succ pc := (instructions pc).successors pc
  transfer pc written := written ∪ (instructions pc).writes

/-- Some control-flow path from `offset` arrives at `pc` with exactly the
registers in `written` written on the way. -/
abbrev ControlPath (instructions : ℕ → Instruction) (offset len pc : ℕ)
    (written : Set ℕ) : Prop :=
  ForwardFlow.Path (flowGraph instructions offset len) pc written

def ReadsInitialized (instructions : ℕ → Instruction) (offset len pc : ℕ) : Prop :=
  ∀ written, ControlPath instructions offset len pc written →
    ∀ r ∈ (instructions pc).reads, r ∈ written

theorem mask_has_bit (mask : Mask) (r : ℕ) : mask.has r = mask.getLsbD r := by
  have hand : mask &&& (1#64 <<< r) = if mask.getLsbD r then 1#64 <<< r else 0#64 := by
    ext i hi
    by_cases hb : mask.getLsbD r
    · simp only [hb, if_true, BitVec.getElem_and, BitVec.getElem_shiftLeft]
      by_cases hir : i < r
      · simp [hir]
      · by_cases hei : i = r
        · subst hei
          simpa [BitVec.getLsbD_eq_getElem hi] using hb
        · simp [hir, BitVec.getElem_one, show i-r ≠ 0 by omega]
    · simp only [hb, BitVec.getElem_and, BitVec.getElem_shiftLeft]
      by_cases hir : i < r
      · simp [hir]
      · by_cases hei : i = r
        · subst hei
          simp only [BitVec.getLsbD_eq_getElem hi] at hb
          simp [hb]
        · simp [BitVec.getElem_one, show i-r ≠ 0 by omega]
  cases hb : mask.getLsbD r with
  | false => simp [Mask.has, hand, hb]
  | true =>
    have hr : r < 64 := by
      by_contra hge
      rw [BitVec.getLsbD_of_ge _ _ (by omega)] at hb
      exact Bool.false_ne_true hb
    have hne : (1#64 <<< r) ≠ 0#64 := by
      intro h0
      have h1 := congrArg (fun v => v.getLsbD r) h0
      simp [hr] at h1
    simp [Mask.has, hand, hb, hne]

@[simp] theorem mask_has_and (a b : Mask) (r : ℕ) : (a &&& b).has r = (a.has r && b.has r) := by
  simp [mask_has_bit]

theorem mask_has_or_bit (a : Mask) (d r : ℕ) (hd : d < 64) :
    (a ||| (1#64 <<< d)).has r = (a.has r || decide (r = d)) := by
  simp only [mask_has_bit, BitVec.getLsbD_or, BitVec.getLsbD_shiftLeft, BitVec.getLsbD_one]
  congr 1
  by_cases h : r = d
  · simp [h, hd]
  · by_cases hlt : r < d
    · simp [h, hlt]
    · simp [h, show r-d ≠ 0 by omega]

def Mask.registers (mask : Mask) : Set ℕ := {r | mask.has r = true}

def FlowArrays.view (offset : ℕ) (a : FlowArrays) (pc : ℕ) : Option (Set ℕ) :=
  if offset ≤ pc ∧ a.reachable (pc-offset) then some (a.states (pc-offset)).registers else none

theorem view_merge (offset q : ℕ) (hq : offset ≤ q) (state : Mask) (a : FlowArrays) :
    (qvmMergeState (q-offset) state a).view offset =
      ForwardFlow.merge q state.registers (a.view offset) := by
  funext pc
  by_cases hpc : pc = q
  · subst hpc
    by_cases hr : a.reachable (pc-offset)
    · simp only [qvmMergeState, hr, if_true, FlowArrays.view, ForwardFlow.merge, hq,
        Function.update_self, and_self]
      congr 1
      ext r
      simp [Mask.registers]
    · simp [qvmMergeState, hr, FlowArrays.view, ForwardFlow.merge, hq]
  · rw [ForwardFlow.merge, Function.update_of_ne hpc]
    by_cases hle : offset ≤ pc
    · have hne : pc-offset ≠ q-offset := by omega
      by_cases hr : a.reachable (q-offset)
      · simp [qvmMergeState, hr, FlowArrays.view, hle, Function.update_of_ne hne]
      · simp [qvmMergeState, hr, FlowArrays.view, hle, Function.update_of_ne hne]
    · simp [FlowArrays.view, hle]

theorem view_start (offset : ℕ) : flowStart.view offset =
    fun pc => if pc = offset then some (∅ : Set ℕ) else none := by
  funext pc
  by_cases h : pc = offset
  · subst h
    simp [FlowArrays.view, flowStart, Mask.registers, Mask.has]
  · by_cases hle : offset ≤ pc
    · simp [FlowArrays.view, flowStart, h, hle, show pc-offset ≠ 0 by omega]
    · simp [FlowArrays.view, h, hle]

/-- What the first loop has established about an instruction it lets pass. -/
structure Checked (insn : Instruction) (pc end_ registerCount operandCount regexCount : ℕ) :
    Prop where
  opcode : ∃ op, insn.opcode = some op ∧ insn.reserved = 0 ∧
    (op ∈ [.loadPath, .loadConst, .exists, .count, .notExists] → insn.src1 < operandCount) ∧
    (op = .length → insn.src1 = QVM_NO_OPERAND ∨ insn.src1 < operandCount) ∧
    (qvmIsLeaf op → insn.src2 < operandCount ∧ (insn.src1 < operandCount ∨
      (op = .cmpLengthLeaf ∧ insn.src1 = QVM_NO_OPERAND))) ∧
    (op ∈ [.match, .matchFull, .search] → insn.arg = QVM_NO_OPERAND ∨ insn.arg < regexCount)
  reads : ∀ r ∈ insn.reads, r < registerCount
  writes : ∀ r ∈ insn.writes, r < registerCount
  forward : pc < end_ → ∀ q ∈ insn.successors pc, pc < q ∧ q ≤ end_

theorem guarded_reads (op : Opcode) (hop : insn.opcode = some op) (registerCount : ℕ)
    (h2 : ¬ (qvmIsBinary op = true ∧ (registerCount ≤ insn.src1 ∨ registerCount ≤ insn.src2)))
    (h1 : ¬ (op ∈ [.not, .neg, .bnot] ∧ registerCount ≤ insn.src1))
    (h3 : ¬ (op = .select ∧ (registerCount ≤ insn.src1 ∨ registerCount ≤ insn.src2 ∨ registerCount ≤ insn.arg)))
    (hj : ¬ (op ∈ [.jmpFalse, .jmpTrue] ∧ registerCount ≤ insn.src1)) :
    ∀ r ∈ insn.reads, r < registerCount := by
  cases op <;> simp [Instruction.reads, hop, qvmIsBinary] at h1 h2 h3 hj ⊢ <;> omega

theorem guarded_writes (op : Opcode) (hop : insn.opcode = some op) (registerCount : ℕ)
    (h : ¬ (qvmWritesRegister op = true ∧ registerCount ≤ insn.dst)) :
    ∀ r ∈ insn.writes, r < registerCount := by
  cases op <;> simp [Instruction.writes, hop, qvmWritesRegister] at h ⊢ <;> omega

theorem guarded_forward (op : Opcode) (hop : insn.opcode = some op) (pc end_ : ℕ) (hpc : pc < end_)
    (h : ¬ (op ∈ [.jmpFalse, .jmpTrue, .jmp] ∧ (insn.arg ≤ pc ∨ end_ < insn.arg))) :
    ∀ q ∈ insn.successors pc, pc < q ∧ q ≤ end_ := by
  cases op <;> simp [Instruction.successors, hop] at h ⊢ <;> omega

theorem check_instruction (pc end_ registerCount operandCount regexCount : ℕ)
    (h : qvmCheckInstruction insn pc end_ registerCount operandCount regexCount = .ok ()) :
    Checked insn pc end_ registerCount operandCount regexCount := by
  unfold qvmCheckInstruction at h
  cases hop : insn.opcode with
  | none => simp [hop, qvmFail] at h
  | some op =>
    simp only [hop, fail_else_ok] at h
    obtain ⟨h1, h2, h3, h4, h5, h6, h7, h8, h9, h10, h11, -⟩ := h
    refine ⟨⟨op, hop, not_not.mp h1, ?_, ?_, ?_, ?_⟩,
      guarded_reads insn op hop registerCount h3 h4 h5 h10,
      guarded_writes insn op hop registerCount h2,
      fun hpc => guarded_forward insn op hop pc end_ hpc h11⟩
    · intro hm
      exact Nat.not_le.mp (fun hle => h6 ⟨hm, hle⟩)
    · intro hm
      by_cases he : insn.src1 = QVM_NO_OPERAND
      · exact Or.inl he
      · exact Or.inr (Nat.not_le.mp (fun hle => h7 ⟨hm, he, hle⟩))
    · intro hm
      refine ⟨Nat.not_le.mp (fun hle => h8 ⟨hm, Or.inl hle⟩), ?_⟩
      by_cases hlen : op = .cmpLengthLeaf
      · by_cases he : insn.src1 = QVM_NO_OPERAND
        · exact Or.inr ⟨hlen, he⟩
        · exact Or.inl (Nat.not_le.mp (fun hle => h8 ⟨hm, Or.inr (Or.inr ⟨hlen, he, hle⟩)⟩))
      · exact Or.inl (Nat.not_le.mp (fun hle => h8 ⟨hm, Or.inr (Or.inl ⟨hlen, hle⟩)⟩))
    · intro hm
      by_cases he : insn.arg = QVM_NO_OPERAND
      · exact Or.inl he
      · exact Or.inr (Nat.not_le.mp (fun hle => h9 ⟨hm, he, hle⟩))

theorem check_slice (instructions : ℕ → Instruction)
    (end_ registerCount operandCount regexCount n start : ℕ)
    (h : qvmCheckSlice instructions end_ registerCount operandCount regexCount n start = .ok ()) :
    ∀ pc, start ≤ pc → pc < start+n →
      Checked (instructions pc) pc end_ registerCount operandCount regexCount := by
  induction n generalizing start with
  | zero =>
    intro pc h1 h2
    omega
  | succ n ih =>
    rw [qvmCheckSlice] at h
    cases hi : qvmCheckInstruction (instructions start) start end_ registerCount operandCount
        regexCount with
    | error d => simp [hi] at h
    | ok u =>
      simp only [hi] at h
      intro pc h1 h2
      rcases Nat.eq_or_lt_of_le h1 with rfl | hlt
      · exact check_instruction _ _ _ _ _ _ hi
      · exact ih (start+1) h pc hlt (by omega)

theorem reads_uninitialized_iff (op : Opcode) (hop : insn.opcode = some op) (mask : Mask) :
    qvmReadsUninitialized op insn mask = false ↔ ∀ r ∈ insn.reads, r ∈ mask.registers := by
  cases op <;>
    simp [qvmReadsUninitialized, qvmIsBinary, Instruction.reads, hop, Mask.registers]
  tauto

theorem written_registers (op : Opcode) (hop : insn.opcode = some op)
    (hd : ∀ r ∈ insn.writes, r < 64) (mask : Mask) :
    Mask.registers (if qvmWritesRegister op then mask ||| (1#64 <<< insn.dst) else mask) =
      mask.registers ∪ insn.writes := by
  by_cases hw : qvmWritesRegister op
  · have hset : insn.writes = {insn.dst} := by
      cases op <;> simp_all [qvmWritesRegister, Instruction.writes]
    have hlt : insn.dst < 64 := hd _ (by simp [hset])
    ext r
    simp [hw, hset, Mask.registers, mask_has_or_bit _ _ _ hlt, or_comm]
  · have hset : insn.writes = ∅ := by
      cases op <;> simp_all [qvmWritesRegister, Instruction.writes]
    simp [hw, hset]

theorem flow_meets (instructions : ℕ → Instruction) (offset len : ℕ) :
    ForwardFlow.Meets (flowGraph instructions offset len) := by
  intro p s x hne hglb
  have hx : x = ⋂₀ s := hglb.unique (isGLB_sInf s)
  constructor
  · rintro _ ⟨w, hw, rfl⟩
    exact Set.union_subset_union_left _ (hglb.1 hw)
  · intro y hy r hr
    by_cases hm : r ∈ (instructions p).writes
    · exact Or.inr hm
    · left
      rw [hx]
      intro w hw
      exact (hy ⟨w, hw, rfl⟩ hr).resolve_right hm

theorem glb_mem {s : Set (Set ℕ)} {x : Set ℕ} (h : IsGLB s x) (r : ℕ) : r ∈ x ↔ ∀ w ∈ s, r ∈ w := by
  rw [h.unique (isGLB_sInf s)]
  rfl

section Slice
variable (instructions : ℕ → Instruction) (offset len registerCount operandCount regexCount : ℕ)
variable (hreg : registerCount ≤ 64)
variable (hc : ∀ pc, offset ≤ pc → pc < offset+len →
  Checked (instructions pc) pc (offset+len) registerCount operandCount regexCount)
include hc

theorem flow_forward : ForwardFlow.Forward (flowGraph instructions offset len) :=
  fun p h1 h2 => (hc p h1 h2).forward h2

include hreg

theorem flow_instruction (pc : ℕ) (h1 : offset ≤ pc) (h2 : pc < offset+len) (a : FlowArrays) :
    match qvmFlowInstruction (instructions pc) offset pc a with
    | .error _ => ¬ ∀ r ∈ (instructions pc).reads, r ∈ (a.states (pc-offset)).registers
    | .ok a' => (∀ r ∈ (instructions pc).reads, r ∈ (a.states (pc-offset)).registers) ∧
        a'.view offset = ForwardFlow.push ((instructions pc).successors pc)
          ((a.states (pc-offset)).registers ∪ (instructions pc).writes) (a.view offset) := by
  have hk := hc pc h1 h2
  obtain ⟨op, hop, -⟩ := hk.opcode
  have hw := written_registers (instructions pc) op hop
    (fun r hm => lt_of_lt_of_le (hk.writes r hm) hreg) (a.states (pc-offset))
  have hs : pc-offset+1 = pc+1-offset := by omega
  have hiff := reads_uninitialized_iff (instructions pc) op hop (a.states (pc-offset))
  unfold qvmFlowInstruction
  simp only [hop]
  cases hu : qvmReadsUninitialized op (instructions pc) (a.states (pc-offset)) with
  | true =>
    simp only [if_true, qvmFail]
    intro hall
    rw [hiff.mpr hall] at hu
    exact Bool.false_ne_true hu
  | false =>
    have hfw := hk.forward h2
    simp only [Bool.false_eq_true, if_false]
    by_cases hj : op = .jmp
    · have hsucc : (instructions pc).successors pc = [(instructions pc).arg] := by
        simp [Instruction.successors, hop, hj]
      have hb := (hfw (instructions pc).arg (by simp [hsucc])).1
      rw [if_pos hj]
      refine ⟨hiff.mp hu, ?_⟩
      rw [view_merge offset _ (by omega), hw, hsucc]
      rfl
    · rw [if_neg hj]
      by_cases hcj : op = .jmpFalse ∨ op = .jmpTrue
      · have hsucc : (instructions pc).successors pc = [pc+1, (instructions pc).arg] := by
          rcases hcj with rfl | rfl <;> simp [Instruction.successors, hop]
        have hb := (hfw (instructions pc).arg (by simp [hsucc])).1
        rw [if_pos hcj]
        refine ⟨hiff.mp hu, ?_⟩
        rw [view_merge offset _ (by omega), hs, view_merge offset _ (by omega), hw, hsucc]
        rfl
      · have hsucc : (instructions pc).successors pc = [pc+1] := by
          cases op <;> simp_all [Instruction.successors]
        rw [if_neg hcj]
        refine ⟨hiff.mp hu, ?_⟩
        rw [hs, view_merge offset _ (by omega), hw, hsucc]
        rfl

/-- The second loop stops exactly at a reachable instruction that reads a
register some path leaves unwritten; otherwise its arrays describe all paths. -/
theorem flow_slice (n pc : ℕ) (h1 : offset ≤ pc) (hn : pc+n = offset+len) (a : FlowArrays)
    (ht : ForwardFlow.Table (flowGraph instructions offset len) pc (a.view offset)) :
    match qvmFlowSlice instructions offset n pc a with
    | .error _ => ∃ q, pc ≤ q ∧ q < offset+len ∧ ¬ ReadsInitialized instructions offset len q
    | .ok a' => ForwardFlow.Table (flowGraph instructions offset len) (offset+len)
        (a'.view offset) ∧
        ∀ q, pc ≤ q → q < offset+len → ReadsInitialized instructions offset len q := by
  have hf := flow_forward instructions offset len registerCount operandCount regexCount hc
  induction n generalizing pc a with
  | zero =>
    have hpc : pc = offset+len := by omega
    subst hpc
    exact ⟨ht, fun q hq1 hq2 => absurd hq1 (Nat.not_le.mpr hq2)⟩
  | succ n ih =>
    have h2 : pc < offset+len := by omega
    have hnode := ForwardFlow.table_node _ hf pc _ ht
    -- A node the sweep has not reached lies on no path and is passed over.
    by_cases hr : a.reachable (pc-offset)
    · have hview : a.view offset pc = some (a.states (pc-offset)).registers := by
        simp [FlowArrays.view, h1, hr]
      rw [hview] at hnode
      have hreads : ReadsInitialized instructions offset len pc ↔
          ∀ r ∈ (instructions pc).reads, r ∈ (a.states (pc-offset)).registers := by
        constructor
        · intro h r hm
          exact (glb_mem hnode.2 r).mpr (fun w hw => h w hw r hm)
        · intro h w hw r hm
          exact (glb_mem hnode.2 r).mp (h r hm) w hw
      have hstep := flow_instruction instructions offset len registerCount operandCount
        regexCount hreg hc pc h1 h2 a
      rw [qvmFlowSlice, if_pos hr]
      cases hfi : qvmFlowInstruction (instructions pc) offset pc a with
      | error d =>
        rw [hfi] at hstep
        exact ⟨pc, le_refl _, h2, fun h => hstep (hreads.mp h)⟩
      | ok a' =>
        rw [hfi] at hstep
        have ht' := ForwardFlow.table_push _ hf (flow_meets instructions offset len) pc h2
          _ ht _ hview
        have hrest := ih (pc+1) (by omega) (by omega) a' (by rw [hstep.2]; exact ht')
        simp only
        cases hfs : qvmFlowSlice instructions offset n (pc+1) a' with
        | error d =>
          rw [hfs] at hrest
          obtain ⟨q, hq1, hq2, hq⟩ := hrest
          exact ⟨q, by omega, hq2, hq⟩
        | ok b =>
          rw [hfs] at hrest
          refine ⟨hrest.1, fun q hq1 hq2 => ?_⟩
          rcases Nat.eq_or_lt_of_le hq1 with rfl | hlt
          · exact hreads.mpr hstep.1
          · exact hrest.2 q hlt hq2
    · have hview : a.view offset pc = none := by simp [FlowArrays.view, hr]
      rw [hview] at hnode
      have hrest := ih (pc+1) (by omega) (by omega) a
        (ForwardFlow.table_skip _ hf pc _ ht hview)
      rw [qvmFlowSlice, if_neg hr]
      cases hfs : qvmFlowSlice instructions offset n (pc+1) a with
      | error d =>
        rw [hfs] at hrest
        obtain ⟨q, hq1, hq2, hq⟩ := hrest
        exact ⟨q, by omega, hq2, hq⟩
      | ok b =>
        rw [hfs] at hrest
        refine ⟨hrest.1, fun q hq1 hq2 => ?_⟩
        rcases Nat.eq_or_lt_of_le hq1 with rfl | hlt
        · exact fun w hw => absurd ⟨w, hw⟩ hnode
        · exact hrest.2 q hlt hq2

/-- The dataflow pass accepts exactly when no path reads an unwritten register,
some path leaves the slice, and every path that leaves it has written register 0. -/
theorem check_flow_iff (hsize : ¬ (SIZE_MAX ≤ len ∨ SIZE_MAX/8 < len+1 ∨ SIZE_MAX/1 < len+1)) :
    qvmCheckFlow true true instructions offset len = .ok () ↔
      (∀ pc, offset ≤ pc → pc < offset+len → ReadsInitialized instructions offset len pc) ∧
      (∃ written, ControlPath instructions offset len (offset+len) written) ∧
      ∀ written, ControlPath instructions offset len (offset+len) written → 0 ∈ written := by
  have hf := flow_forward instructions offset len registerCount operandCount regexCount hc
  have hstart := ForwardFlow.table_start (flowGraph instructions offset len) hf
    (flowStart.view offset) (view_start offset)
  have hrun := flow_slice instructions offset len registerCount operandCount regexCount hreg hc
    len offset (le_refl _) rfl flowStart hstart
  unfold qvmCheckFlow
  rw [if_neg hsize]
  simp only [Bool.not_true, Bool.or_self, Bool.false_eq_true, if_false]
  cases hfs : qvmFlowSlice instructions offset len offset flowStart with
  | error d =>
    rw [hfs] at hrun
    obtain ⟨q, hq1, hq2, hq⟩ := hrun
    constructor
    · intro h
      cases h
    · intro h
      exact absurd (h.1 q hq1 hq2) hq
  | ok a =>
    rw [hfs] at hrun
    have hlast := ForwardFlow.table_node _ hf (offset+len) _ hrun.1
    by_cases hr : a.reachable len
    · have hview : a.view offset (offset+len) = some (a.states len).registers := by
        simp [FlowArrays.view, hr]
      rw [hview] at hlast
      have hzero := glb_mem hlast.2 0
      simp only [hr, Bool.not_true, Bool.false_or, Bool.not_eq_true', fail_else_ok, and_true,
        Bool.not_eq_false]
      constructor
      · intro h
        exact ⟨hrun.2, hlast.1, hzero.mp h⟩
      · intro h
        exact hzero.mpr h.2.2
    · have hview : a.view offset (offset+len) = none := by simp [FlowArrays.view, hr]
      rw [hview] at hlast
      simp only [hr, fail_else_ok, Bool.not_false, Bool.true_or, not_true_eq_false, false_and,
        false_iff]
      intro h
      exact hlast h.2.1

end Slice

theorem check_bounds (instructionCount offset len registerCount operandCount regexCount : ℕ)
    (limits : Limits)
    (h : qvmCheckBounds instructionCount offset len registerCount operandCount regexCount
      limits = .ok ()) :
    0 < len ∧ 0 < registerCount ∧ registerCount ≤ 64 ∧ offset ≤ instructionCount ∧
      len ≤ instructionCount-offset ∧ len ≤ limits.maxInstructions := by
  unfold qvmCheckBounds at h
  simp only [fail_else_ok] at h
  obtain ⟨h1, h2, -⟩ := h
  simp only [QVM_MAX_REGISTERS] at h1
  omega

theorem verify_parts (callocStates callocReachable : Bool) (instructions : ℕ → Instruction)
    (instructionCount offset len registerCount operandCount regexCount : ℕ)
    (limits : Option Limits) :
    qvmVerifySliceEx callocStates callocReachable instructions instructionCount offset len
        registerCount operandCount regexCount limits = .ok () ↔
      qvmCheckBounds instructionCount offset len registerCount operandCount regexCount
        (qvmResolveLimits limits) = .ok () ∧
      qvmCheckSlice instructions (offset+len) registerCount operandCount regexCount
        len offset = .ok () ∧
      qvmCheckFlow callocStates callocReachable instructions offset len = .ok () := by
  unfold qvmVerifySliceEx
  cases qvmCheckBounds instructionCount offset len registerCount operandCount regexCount
      (qvmResolveLimits limits) with
  | error d => simp
  | ok u =>
    cases qvmCheckSlice instructions (offset+len) registerCount operandCount regexCount
        len offset with
    | error d => simp
    | ok u => simp

theorem path_congr (f g : ℕ → Instruction) (offset len : ℕ)
    (h : ∀ pc written, pc < offset+len → ControlPath f offset len pc written →
      ControlPath g offset len pc written → g pc = f pc)
    (pc : ℕ) (written : Set ℕ) (hp : ControlPath f offset len pc written) :
    ControlPath g offset len pc written := by
  induction hp with
  | start => exact ForwardFlow.Path.start
  | @step p q x hp hlt hq ih =>
    have he := h p x hlt hp ih
    have hs : q ∈ (flowGraph g offset len).succ p := by
      simpa only [flowGraph, he] using hq
    have ht : (flowGraph g offset len).transfer p x = (flowGraph f offset len).transfer p x := by
      simp only [flowGraph, he]
    exact ht ▸ ForwardFlow.Path.step ih hlt hs

/-- Exactness of the verifier on slices that pass the bounds, the limits and
the per-instruction checks. The last part is about code that no path reaches:
replacing it, by anything that still passes the checks, changes no verdict. -/
theorem verify_slice_exact (instructions : ℕ → Instruction)
    (instructionCount offset len registerCount operandCount regexCount : ℕ)
    (limits : Option Limits) (hlen : len < 2^32)
    (hb : qvmCheckBounds instructionCount offset len registerCount operandCount regexCount
      (qvmResolveLimits limits) = .ok ())
    (hs : qvmCheckSlice instructions (offset+len) registerCount operandCount regexCount
      len offset = .ok ()) :
    (qvmVerifySliceEx true true instructions instructionCount offset len registerCount
        operandCount regexCount limits = .ok () ↔
      (∀ pc written, pc < offset+len → ControlPath instructions offset len pc written →
        ∀ r ∈ (instructions pc).reads, r ∈ written) ∧
      (∃ written, ControlPath instructions offset len (offset+len) written) ∧
      ∀ written, ControlPath instructions offset len (offset+len) written → 0 ∈ written) ∧
    ∀ other : ℕ → Instruction,
      qvmCheckSlice other (offset+len) registerCount operandCount regexCount
        len offset = .ok () →
      (∀ pc written, pc < offset+len → ControlPath instructions offset len pc written →
        other pc = instructions pc) →
      (qvmVerifySliceEx true true other instructionCount offset len registerCount
          operandCount regexCount limits = .ok () ↔
        qvmVerifySliceEx true true instructions instructionCount offset len registerCount
          operandCount regexCount limits = .ok ()) := by
  have hreg := (check_bounds _ _ _ _ _ _ _ hb).2.2.1
  have hsize : ¬ (SIZE_MAX ≤ len ∨ SIZE_MAX/8 < len+1 ∨ SIZE_MAX/1 < len+1) := by
    simp only [SIZE_MAX]
    omega
  have key : ∀ code : ℕ → Instruction,
      qvmCheckSlice code (offset+len) registerCount operandCount regexCount
        len offset = .ok () →
      (qvmVerifySliceEx true true code instructionCount offset len registerCount
          operandCount regexCount limits = .ok () ↔
        (∀ pc written, pc < offset+len → ControlPath code offset len pc written →
          ∀ r ∈ (code pc).reads, r ∈ written) ∧
        (∃ written, ControlPath code offset len (offset+len) written) ∧
        ∀ written, ControlPath code offset len (offset+len) written → 0 ∈ written) := by
    intro code hcode
    have hc := check_slice code _ _ _ _ _ _ hcode
    have hf := flow_forward code offset len registerCount operandCount regexCount hc
    rw [verify_parts, check_flow_iff code offset len registerCount operandCount regexCount
      hreg hc hsize]
    simp only [hb, hcode, true_and]
    constructor
    · rintro ⟨h1, h2, h3⟩
      exact ⟨fun pc w hlt hp => h1 pc (ForwardFlow.path_first_le _ hf hp) hlt w hp, h2, h3⟩
    · rintro ⟨h1, h2, h3⟩
      exact ⟨fun pc _ hlt w hp => h1 pc w hlt hp, h2, h3⟩
  refine ⟨key instructions hs, fun other ho hagree => ?_⟩
  rw [key other ho, key instructions hs]
  have hpath : ∀ pc written, ControlPath other offset len pc written ↔
      ControlPath instructions offset len pc written := fun pc w =>
    ⟨path_congr other instructions offset len
        (fun p x hlt _ hp => (hagree p x hlt hp).symm) pc w,
      path_congr instructions other offset len (fun p x hlt hp _ => hagree p x hlt hp) pc w⟩
  simp only [hpath]
  constructor
  · rintro ⟨h1, h2⟩
    refine ⟨fun pc w hlt hp => ?_, h2⟩
    rw [← hagree pc w hlt hp]
    exact h1 pc w hlt hp
  · rintro ⟨h1, h2⟩
    refine ⟨fun pc w hlt hp => ?_, h2⟩
    rw [hagree pc w hlt hp]
    exact h1 pc w hlt hp

/-- `r0 := TRUE; jump to the end if r0; r1 := NOT r0; jump to the end; r0 := NOT r7`. -/
def branchProgram : ℕ → Instruction
  | 0 => ⟨31, 0, 0, 0, 0, 0⟩
  | 1 => ⟨29, 0, 0, 5, 0, 0⟩
  | 2 => ⟨27, 0, 1, 0, 0, 0⟩
  | 3 => ⟨30, 0, 0, 5, 0, 0⟩
  | _ => ⟨27, 0, 0, 0, 7, 0⟩

/-- The last instruction reads a register nothing writes, but no path reaches it. -/
theorem verify_slice_exact_branch :
    qvmVerifySliceEx true true branchProgram 5 0 5 8 0 0 none = .ok () ∧
      ∀ written, ControlPath branchProgram 0 5 5 written → 0 ∈ written := by
  have h := (verify_slice_exact branchProgram 5 0 5 8 0 0 none (by decide) rfl rfl).1
  exact ⟨rfl, (h.mp rfl).2.2⟩

end SaltsUtils.QueryVm
