import SaltsUtils.Dsv.LoweredSlice

/-!
# Lowering preserves the meaning of a filter

The slice of a filter passes the verifier under the default limits, and the VM then
computes what the native evaluators compute on every row.
-/

set_option autoImplicit false

namespace SaltsUtils.Dsv

open SaltsUtils.QueryVm SaltsUtils.Library

theorem foldl_max_le (regs : List ℕ) : ∀ count : ℕ,
    count ≤ regs.foldl (fun count reg => max count (reg + 1)) count ∧
      ∀ r ∈ regs, r + 1 ≤ regs.foldl (fun count reg => max count (reg + 1)) count := by
  induction regs with
  | nil => simp
  | cons reg regs ih =>
    intro count
    obtain ⟨h₁, h₂⟩ := ih (max count (reg + 1))
    rw [List.foldl_cons]
    refine ⟨by omega, fun r hr => ?_⟩
    rcases List.mem_cons.mp hr with rfl | hr
    · omega
    · exact h₂ r hr

theorem register_count_bounds (insns : List Instruction) :
    0 < dsv_qvm_register_count insns ∧ dsv_qvm_register_count insns ≤ QVM_MAX_REGISTERS := by
  have := (foldl_max_le (insns.flatMap Instruction.needs) 1).1
  dsimp only [dsv_qvm_register_count, QVM_MAX_REGISTERS]
  omega

variable {insn : Instruction}

theorem lt_register_count {insns : List Instruction} (hmem : insn ∈ insns) {r : ℕ}
    (hr : r ∈ Instruction.needs insn) (hlt : r < QVM_MAX_REGISTERS) :
    r < dsv_qvm_register_count insns := by
  have := (foldl_max_le (insns.flatMap Instruction.needs) 1).2 r
    (List.mem_flatMap.mpr ⟨insn, hmem, hr⟩)
  dsimp only [dsv_qvm_register_count, QVM_MAX_REGISTERS] at hlt ⊢
  omega

variable {op : Opcode}

theorem opcodeByte_inj {op' : Opcode} : opcodeByte op = opcodeByte op' ↔ op = op' := by
  constructor
  · intro h
    have := opcode_byte op 0 0 0 0
    rw [h, opcode_byte] at this
    exact (Option.some_inj.mp this).symm
  · exact congrArg _

theorem opcode_eq (h : insn.opcode = some op) : insn.op = opcodeByte op := by
  obtain ⟨hlt, hget⟩ := List.getElem?_eq_some_iff.mp h
  rw [← hget, opcodeByte]
  exact ((by decide : opcodes.Nodup).idxOf_getElem _ hlt).symm

variable {operandCount : ℕ}

theorem fit_needs {written : Set ℕ} (h : Fit written operandCount insn) :
    insn.dst ∈ Instruction.needs insn ∧ ∀ r ∈ insn.reads, r ∈ Instruction.needs insn := by
  obtain ⟨op, hmem, hop⟩ := h.opcode
  unfold Instruction.needs Instruction.reads
  rw [hop, opcode_eq hop]
  simp only [straightOpcodes, List.mem_cons, List.not_mem_nil, or_false] at hmem
  rcases hmem with rfl | rfl | rfl | rfl | rfl | rfl | rfl | rfl | rfl | rfl <;>
    simp [opcodeByte_inj]

variable {len pc : ℕ} {ready : ℕ → Set ℕ}

theorem stepOk_check {registerCount : ℕ} (h : StepOk operandCount len ready pc insn)
    (hneeds : ∀ r ∈ Instruction.needs insn, r < QVM_MAX_REGISTERS → r < registerCount)
    (hzero : 0 < registerCount) :
    qvmCheckInstruction insn pc len registerCount operandCount 0 = .ok () := by
  cases h with
  | straight hfit _ =>
    obtain ⟨hdst, hreads⟩ := fit_needs hfit
    have hdst := hneeds _ hdst hfit.dst
    have hreads := fun r hr => hneeds r (hreads r hr) (hfit.reads r hr).2
    have hload := hfit.load
    have hleaf := hfit.leaf
    obtain ⟨op, hmem, hop⟩ := hfit.opcode
    simp only [qvmCheckInstruction, hop, fail_else_ok, hfit.reserved]
    simp only [straightOpcodes, List.mem_cons, List.not_mem_nil, or_false] at hmem
    rcases hmem with rfl | rfl | rfl | rfl | rfl | rfl | rfl | rfl | rfl | rfl <;>
      simp [Instruction.reads, hop, qvmIsBinary, qvmIsLeaf, qvmWritesRegister]
        at hreads hload hleaf ⊢ <;> omega
  | jump hop hforward hend _ _ _ =>
    unfold qvmCheckInstruction
    rw [joinJump, opcode_byte]
    simp only [fail_else_ok]
    rcases hop with rfl | rfl <;>
      simp [qvmIsBinary, qvmIsLeaf, qvmWritesRegister] <;> omega

theorem checkSlice_ok (instructions : ℕ → Instruction) (end_ registerCount operandCount : ℕ)
    (n : ℕ) : ∀ start, (∀ pc, start ≤ pc → pc < start + n →
      qvmCheckInstruction (instructions pc) pc end_ registerCount operandCount 0 = .ok ()) →
    qvmCheckSlice instructions end_ registerCount operandCount 0 n start = .ok () := by
  induction n with
  | zero => exact fun _ _ => rfl
  | succ n ih =>
    intro start h
    rw [qvmCheckSlice, h start (by omega) (by omega)]
    exact ih (start + 1) fun pc h₁ h₂ => h pc (by omega) (by omega)

variable {code : List Instruction}

theorem fetch_getElem (h : pc < code.length) : code[pc]? = some (fetch code pc) := by
  simp [fetch, h]

theorem stepOk_successors (h : StepOk operandCount len ready pc insn) :
    pc + 1 ∈ insn.successors pc ∧
      ∀ q ∈ insn.successors pc, ready q ⊆ ready pc ∪ insn.writes := by
  cases h with
  | straight hfit hnext =>
    rw [hfit.successors, hfit.writes, Set.union_singleton]
    simpa using hnext
  | jump hop _ _ _ hnext htarget =>
    unfold joinJump at *
    rcases hop with rfl | rfl <;>
      simpa [Instruction.successors, Instruction.writes] using ⟨hnext, htarget⟩

theorem stepOk_reads (h : StepOk operandCount len ready pc insn) :
    ∀ r ∈ insn.reads, r ∈ ready pc := by
  cases h with
  | straight hfit _ => exact fun r hr => (hfit.reads r hr).1
  | jump hop _ _ hzero _ _ =>
    unfold joinJump
    rcases hop with rfl | rfl <;> simpa [Instruction.reads] using hzero

section Flow
variable {operandCount : ℕ} {code : List Instruction} {ready : ℕ → Set ℕ}

theorem Flows.path (h : Flows operandCount code ready) {written : Set ℕ}
    (hpath : ControlPath (fetch code) 0 code.length pc written) : ready pc ⊆ written := by
  induction hpath with
  | start =>
    change ready 0 ⊆ ∅
    rw [h.start]
  | @step p q written _ hp hq ih =>
    have hlt : p < code.length := by simpa [flowGraph] using hp
    have hstep := h.step p _ (fetch_getElem hlt)
    exact ((stepOk_successors hstep).2 q hq).trans (Set.union_subset_union_left _ ih)

theorem Flows.exists_path (h : Flows operandCount code ready) (pc : ℕ) (hpc : pc ≤ code.length) :
    ∃ written, ControlPath (fetch code) 0 code.length pc written := by
  induction pc with
  | zero => exact ⟨_, .start⟩
  | succ pc ih =>
    obtain ⟨written, hpath⟩ := ih (by omega)
    have hstep := h.step pc _ (fetch_getElem hpc)
    exact ⟨_, hpath.step (by simpa [flowGraph] using hpc) (stepOk_successors hstep).1⟩

theorem Flows.checkFlow (h : Flows operandCount code ready) {registerCount : ℕ}
    (hreg : registerCount ≤ 64) (hlen : code.length ≤ QVM_DEFAULT_MAX_INSTRUCTIONS)
    (hcheck : qvmCheckSlice (fetch code) (0 + code.length) registerCount operandCount 0
      code.length 0 = .ok ()) : qvmCheckFlow true true (fetch code) 0 code.length = .ok () := by
  have hsize : ¬ (SIZE_MAX ≤ code.length ∨ SIZE_MAX / 8 < code.length + 1 ∨
      SIZE_MAX / 1 < code.length + 1) := by
    unfold SIZE_MAX
    unfold QVM_DEFAULT_MAX_INSTRUCTIONS at hlen
    omega
  have hc := check_slice (fetch code) _ _ _ _ _ _ hcheck
  rw [check_flow_iff (fetch code) 0 code.length registerCount operandCount 0 hreg hc hsize,
    Nat.zero_add]
  refine ⟨fun pc _ hlt written hpath r hr => ?_, h.exists_path _ (Nat.le_refl _),
    fun written hpath => ?_⟩
  · exact h.path hpath (stepOk_reads (h.step pc _ (fetch_getElem hlt)) r hr)
  · have := h.path hpath
    rw [h.result] at this
    exact this rfl

end Flow

section Filter
variable {D : Type} [Arithmetic D] [Comparison D]

variable {filter : DsvFilter D} {limits : Option Limits}

theorem build_verified {b : DsvQvmBuilder D} (h : buildSlice filter = some b)
    (hinsns : b.insns.length ≤ (qvmResolveLimits limits).maxInstructions)
    (hoperands : b.operands.length ≤ (qvmResolveLimits limits).maxOperands) :
    verifySlice b limits = .ok () := by
  obtain ⟨hsized, hne⟩ := build_sized h
  have hpos : 0 < b.insns.length := List.length_pos_iff.mpr hne
  obtain ⟨hrpos, hrmax⟩ := register_count_bounds b.insns
  obtain ⟨result, hslice, -⟩ := build_slice h
    (show b.operands <+: (⟨b.operands, ⟨fun _ => none, fun _ => Arithmetic.ofNat 0⟩⟩ :
      DsvQvmCtx D).operands from List.prefix_rfl)
  obtain ⟨ready, hflows⟩ := hslice.flows
  have hcheck : qvmCheckSlice (fetch b.insns) (0 + b.insns.length)
      (dsv_qvm_register_count b.insns) b.operands.length 0 b.insns.length 0 = .ok () := by
    refine checkSlice_ok _ _ _ _ _ 0 fun pc _ hpc => ?_
    rw [Nat.zero_add] at hpc ⊢
    have hget := fetch_getElem hpc
    exact stepOk_check (hflows.step pc _ hget)
      (fun r hr hlt => lt_register_count (List.mem_of_getElem? hget) hr hlt) hrpos
  have hbounds : qvmCheckBounds b.insns.length 0 b.insns.length (dsv_qvm_register_count b.insns)
      b.operands.length 0 (qvmResolveLimits limits) = .ok () := by
    unfold qvmCheckBounds
    simp only [fail_else_ok, and_true]
    omega
  exact (verify_parts ..).mpr ⟨hbounds, hcheck,
    hflows.checkFlow hrmax (hsized.insns.trans hsized.capacity) hcheck⟩

theorem Flows.single (h : Flows operandCount code ready) (hone : code.length = 1) :
    Fit ∅ operandCount (fetch code 0) ∧ (fetch code 0).dst = 0 := by
  have hresult := h.result
  rw [hone] at hresult
  generalize hinsn : fetch code 0 = insn
  have hstep := h.step 0 insn (hinsn ▸ fetch_getElem (by omega))
  cases hstep with
  | jump _ _ _ hzero _ _ =>
    rw [h.start] at hzero
    exact absurd hzero (Set.notMem_empty 0)
  | straight hfit hnext =>
    rw [h.start] at hfit hnext
    rw [Nat.zero_add, hresult, insert_empty_eq, Set.singleton_subset_singleton] at hnext
    exact ⟨hfit, hnext.symm⟩

theorem single_eq_loop (hfit : Fit ∅ operandCount (fetch code 0)) (hdst : (fetch code 0).dst = 0)
    (hop : (fetch code 0).opcode = some op) (maxSteps : ℕ) (m : Machine (DsvQvmCtx D) (QvmValue D)) :
    ((qvmExecSingle dsv_qvm_ops 0 (fetch code 0) op (m.emit [.step 0])).getD
        (qvmExecLoop (fetch code) dsv_qvm_ops none 1 (maxSteps + 1) (maxSteps + 1) 0 m)).1 =
      (qvmExecLoop (fetch code) dsv_qvm_ops none 1 (maxSteps + 1) (maxSteps + 1) 0 m).1 := by
  have hleaf : ∀ leaf : Opcode, leaf = .cmpLeafNumber ∨ leaf = .cmpLeafString → op = leaf →
      returnWith (fetch code 0) 0 "QVM leaf backend failed"
          (qvmExecLeaf dsv_qvm_ops leaf (fetch code 0) 0 (m.emit [.step 0])) =
        qvmExecLoop (fetch code) dsv_qvm_ops none 1 (maxSteps + 1) (maxSteps + 1) 0 m := by
    rintro leaf hleaf rfl
    rw [qvmExecLoop, if_neg (by omega), hfit.validate hop]
    have hexec : qvmExecInstruction dsv_qvm_ops none 0 (fetch code 0) op (m.emit [.step 0]) =
        continueWith (fetch code 0) 0 "QVM leaf backend failed"
          (qvmExecLeaf dsv_qvm_ops op (fetch code 0) 0 (m.emit [.step 0])) := by
      rcases hleaf with rfl | rfl <;> rw [qvmExecInstruction, hdst]
    dsimp only
    rw [hexec, continueWith, returnWith]
    split_ifs
    · dsimp only
      rw [qvmExecLoop, if_pos (by omega)]
    · rfl
  obtain ⟨op', hmem, hop'⟩ := hfit.opcode
  obtain rfl : op = op' := Option.some_inj.mp (hop.symm.trans hop')
  simp only [straightOpcodes, List.mem_cons, List.not_mem_nil, or_false] at hmem
  unfold qvmExecSingle
  rcases hmem with rfl | rfl | rfl | rfl | rfl | rfl | rfl | rfl | rfl | rfl <;>
    simp [qvmIsLeaf, hleaf]

theorem execute_eq_loop (h : Flows operandCount code ready) (hne : code ≠ []) (ctx : DsvQvmCtx D)
    {limits : Limits} (hinsns : code.length ≤ limits.maxInstructions)
    (hsteps : code.length ≤ limits.maxSteps) :
    (qvmExecuteEx (fetch code) code.length 0 code.length dsv_qvm_ops ctx none (some limits)).1 =
      (qvmExecLoop (fetch code) dsv_qvm_ops none code.length limits.maxSteps limits.maxSteps 0
        ⟨ctx, fun _ => 0, []⟩).1 := by
  have hpos : 0 < code.length := List.length_pos_iff.mpr hne
  simp only [qvmExecuteEx, qvmResolveLimits, Option.getD_some, Nat.zero_add]
  rw [if_neg (by omega), if_neg (by omega)]
  by_cases hone : code.length = 1
  · obtain ⟨hfit, hdst⟩ := h.single hone
    obtain ⟨op, -, hop⟩ := hfit.opcode
    obtain ⟨maxSteps, hmax⟩ : ∃ n, limits.maxSteps = n + 1 := ⟨limits.maxSteps - 1, by omega⟩
    rw [if_pos hone, hfit.validate hop]
    dsimp only
    rw [if_neg (by omega), hone, hmax]
    exact single_eq_loop hfit hdst hop maxSteps _
  · rw [if_neg hone]

theorem run_slice {ctx : DsvQvmCtx D} {result : Bool} (h : SliceFor ctx code result)
    (hne : code ≠ []) {limits : Limits} (hinsns : code.length ≤ limits.maxInstructions)
    (hsteps : code.length ≤ limits.maxSteps) :
    (qvmExecuteEx (fetch code) code.length 0 code.length dsv_qvm_ops ctx none (some limits)).1 =
      .ok (.bool result) := by
  obtain ⟨ready, hflows⟩ := h.flows
  rw [execute_eq_loop hflows hne ctx hinsns hsteps]
  obtain ⟨steps, m', hle, -, hresult, hreach⟩ := h.runs [] ⟨ctx, fun _ => 0, []⟩ rfl
  rw [List.append_nil] at hreach
  have hbudget : limits.maxSteps - steps + steps = limits.maxSteps := by omega
  have hrun := hreach limits.maxSteps (limits.maxSteps - steps)
  rw [hbudget] at hrun
  rw [hrun, qvmExecLoop, if_pos (Nat.le_refl _), readOut, hresult]

theorem lowered_runs {lowered : LoweredFilter D} (h : dsv_lower_to_qvm filter limits = some lowered)
    (hsteps : lowered.expr_vm.length ≤ (qvmResolveLimits limits).maxSteps) (view : RowView D) :
    ∃ result, dsv_qvm_run lowered view = .ok result ∧
      checkNative filter view = some (dsv_qvm_truthy result) := by
  unfold dsv_lower_to_qvm at h
  split at h
  · contradiction
  · rename_i b hbuild
    split at h
    · contradiction
    · rename_i hverified
      cases h
      have hbounds := (verify_parts ..).mp hverified
      have hinsns := (check_bounds _ _ _ _ _ _ _ hbounds.1).2.2.2.2.2
      obtain ⟨result, hslice, hcheck⟩ := build_slice hbuild
        (show b.operands <+: (⟨b.operands, view⟩ : DsvQvmCtx D).operands from List.prefix_rfl)
      exact ⟨.bool result, run_slice hslice (build_sized hbuild).2 hinsns hsteps, hcheck⟩

theorem lowered_check {lowered : LoweredFilter D}
    (h : dsv_lower_to_qvm filter limits = some lowered)
    (hsteps : lowered.expr_vm.length ≤ (qvmResolveLimits limits).maxSteps) (view : RowView D) :
    checkFilter filter (some lowered) view = checkNative filter view := by
  obtain ⟨result, hresult, hnative⟩ := lowered_runs h hsteps view
  simp only [checkFilter, hresult, hnative]

theorem built_fits {b : DsvQvmBuilder D} (h : buildSlice filter = some b) :
    verifySlice b none = .ok () ∧ b.insns.length ≤ (qvmResolveLimits none).maxSteps := by
  obtain ⟨hsized, -⟩ := build_sized h
  have hinsns := hsized.insns.trans hsized.capacity
  exact ⟨build_verified h hinsns (hsized.operands.trans hsized.operand_capacity), hinsns⟩

end Filter

/-- Lowering keeps the meaning of a filter on every row, as long as the step limit covers the
slice. Under the default limits it does, and the verifier accepts every slice that is built. -/
theorem lowering_preserves {D : Type} [Arithmetic D] [Comparison D] (filter : DsvFilter D) :
    (∀ limits lowered, dsv_lower_to_qvm filter limits = some lowered →
      lowered.expr_vm.length ≤ (qvmResolveLimits limits).maxSteps →
      (∀ view, ∃ result, dsv_qvm_run lowered view = .ok result ∧
        checkNative filter view = some (dsv_qvm_truthy result)) ∧
      (∀ fields, dsv_filter_check_values filter (some lowered) fields =
        dsv_filter_check_values_native filter fields) ∧
      ∀ strtod doc row_index, dsv_filter_check_row strtod filter (some lowered) doc row_index =
        dsv_filter_check_row_native strtod filter doc row_index) ∧
    ∀ builder, buildSlice filter = some builder → verifySlice builder none = .ok () ∧
      builder.insns.length ≤ (qvmResolveLimits none).maxSteps := by
  constructor
  · intro limits lowered h hsteps
    have hcheck := lowered_check h hsteps
    refine ⟨lowered_runs h hsteps, fun fields => hcheck _, fun strtod doc row_index => ?_⟩
    unfold dsv_filter_check_row dsv_filter_check_row_native
    rw [hcheck]
  · intro b hbuild
    exact built_fits hbuild

/-- Integers in place of `double`. -/
@[reducible]
def wholeArithmetic : Arithmetic ℤ := ⟨Int.ofNat, Int.neg, Int.add, Int.sub, Int.mul, Int.tdiv⟩

@[reducible]
def wholeComparison : Comparison ℤ := ⟨fun x y => x < y, fun x y => x = y⟩

/-- `-0 + 1 * 2 >= 3 and 2 == "a" or 0 < 1` over three columns. -/
def mixedFilter : DsvFilter ℤ where
  col_count := 3
  clauses := [⟨0, false, true, [.ident 0, .neg, .ident 1, .number 2, .mul, .add], .ge, false, 3, []⟩,
    ⟨2, true, false, [], .eq, true, 0, [97]⟩, ⟨0, true, false, [], .lt, false, 1, []⟩]
  joins := [.and, .or]
  nonempty := nofun
  joined := by decide
  compiled := by
    simp only [List.forall_mem_cons]
    exact ⟨⟨rfl, by simp, by simp, by simp⟩, ⟨rfl, by simp, by simp, by simp⟩,
      ⟨rfl, by simp, by simp, by simp⟩, by simp⟩

/-- The values `1`, `2` and `a` satisfy the filter in the VM and in the native evaluator. -/
theorem lowering_preserves_mixed :
    let _ := wholeArithmetic
    let _ := wholeComparison
    ∃ lowered, dsv_lower_to_qvm mixedFilter none = some lowered ∧
      dsv_filter_check_values mixedFilter (some lowered) [[49], [50], [97]] =
        dsv_filter_check_values_native mixedFilter [[49], [50], [97]] ∧
      dsv_filter_check_values_native mixedFilter [[49], [50], [97]] = some true := by
  intro _ _
  have hlowered : (dsv_lower_to_qvm mixedFilter none).any
      (fun lowered => lowered.expr_vm.length ≤ 1048576) = true := by
    decide +kernel
  obtain ⟨lowered, hsome, hlen⟩ := Option.any_eq_true _ _ |>.mp hlowered
  exact ⟨lowered, hsome, ((lowering_preserves mixedFilter).1 none lowered hsome
    (of_decide_eq_true hlen)).2.1 _, by decide +kernel⟩

/-- With a step limit of its own a filter may be lowered and still not run. -/
theorem lowering_step_limit :
    let _ := wholeArithmetic
    let _ := wholeComparison
    let limits : Limits := { qvmDefaultLimits with maxSteps := 0 }
    ∃ lowered, dsv_lower_to_qvm mixedFilter (some limits) = some lowered ∧
      dsv_filter_check_values mixedFilter (some lowered) [[49], [50], [97]] = none ∧
      dsv_filter_check_values_native mixedFilter [[49], [50], [97]] = some true := by
  intro _ _ limits
  have hlowered : (dsv_lower_to_qvm mixedFilter (some limits)).any (fun lowered =>
      dsv_filter_check_values mixedFilter (some lowered) [[49], [50], [97]] = none) = true := by
    decide +kernel
  obtain ⟨lowered, hsome, hnone⟩ := Option.any_eq_true _ _ |>.mp hlowered
  exact ⟨lowered, hsome, of_decide_eq_true hnone, by decide +kernel⟩

end SaltsUtils.Dsv
