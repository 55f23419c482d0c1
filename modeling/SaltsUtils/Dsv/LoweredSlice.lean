import SaltsUtils.Dsv.Straight

/-!
# The slice of a whole filter

The blocks of the clauses are joined by jumps.
-/

set_option autoImplicit false

namespace SaltsUtils.Dsv

open SaltsUtils.QueryVm SaltsUtils.Library

def joinJump (op : Opcode) (arg : ℕ) : Instruction := ⟨opcodeByte op, 0, 0, arg, 0, 0⟩

/-- What an instruction may do where the registers `ready pc` are written. -/
inductive StepOk (operandCount len : ℕ) (ready : ℕ → Set ℕ) (pc : ℕ) : Instruction → Prop
  | straight {insn : Instruction} : Fit (ready pc) operandCount insn →
      ready (pc + 1) ⊆ insert insn.dst (ready pc) → StepOk operandCount len ready pc insn
  | jump {op : Opcode} {arg : ℕ} : op = .jmpFalse ∨ op = .jmpTrue → pc < arg → arg ≤ len →
      0 ∈ ready pc → ready (pc + 1) ⊆ ready pc → ready arg ⊆ ready pc →
      StepOk operandCount len ready pc (joinJump op arg)

/-- The code between the start, where nothing is written, and its end, where register 0 is. -/
structure Flows (operandCount : ℕ) (code : List Instruction) (ready : ℕ → Set ℕ) : Prop where
  start : ready 0 = ∅
  result : ready code.length = {0}
  step : ∀ pc insn, code[pc]? = some insn → StepOk operandCount code.length ready pc insn

/-- The same for code without jumps. -/
structure BlockFlows (operandCount : ℕ) (block : List Instruction) (ready : ℕ → Set ℕ) :
    Prop where
  start : ready 0 = ∅
  result : ready block.length = {0}
  step : ∀ pc insn, block[pc]? = some insn →
    Fit (ready pc) operandCount insn ∧ ready (pc + 1) ⊆ insert insn.dst (ready pc)

variable {block : List Instruction}

theorem BlockFlows.flows {operandCount : ℕ} {ready : ℕ → Set ℕ}
    (h : BlockFlows operandCount block ready) : Flows operandCount block ready :=
  ⟨h.start, h.result, fun pc insn hinsn =>
    .straight (h.step pc insn hinsn).1 (h.step pc insn hinsn).2⟩

section Blocks
variable {D : Type} [Arithmetic D] [Comparison D]

theorem Straight.ready {ctx : DsvQvmCtx D} {start registers : ℕ → QvmValue D} {written : Set ℕ}
    (h : Straight ctx start block registers written) :
    ∃ ready : ℕ → Set ℕ, ready 0 = ∅ ∧ ready block.length = written ∧
      ∀ pc insn, block[pc]? = some insn →
        Fit (ready pc) ctx.operands.length insn ∧ ready (pc + 1) = insert insn.dst (ready pc) := by
  induction h with
  | nil => exact ⟨fun _ => ∅, rfl, rfl, by simp⟩
  | @snoc block registers written insn value _ hfit _ ih =>
    obtain ⟨ready, hstart, hend, hstep⟩ := ih
    refine ⟨Function.update ready (block.length + 1) (insert insn.dst written), ?_, ?_, ?_⟩
    · rw [Function.update_of_ne (by omega), hstart]
    · rw [List.length_append, List.length_singleton, Function.update_self]
    · intro pc i hi
      rcases Nat.lt_trichotomy pc block.length with hlt | rfl | hgt
      · rw [List.getElem?_append_left hlt] at hi
        rw [Function.update_of_ne (by omega), Function.update_of_ne (by omega)]
        exact hstep pc i hi
      · obtain rfl : insn = i := by simpa using hi
        rw [Function.update_of_ne (by omega), Function.update_self, hend]
        exact ⟨hfit, rfl⟩
      · rw [List.getElem?_eq_none (by simp; omega)] at hi
        contradiction

theorem Decides.flows {ctx : DsvQvmCtx D} {value : Bool} (h : Decides ctx block value) :
    ∃ ready, BlockFlows ctx.operands.length block ready := by
  obtain ⟨registers, written, hstraight, -, hzero⟩ := h fun _ => .invalid
  obtain ⟨ready, hstart, hend, hstep⟩ := hstraight.ready
  have hne : block.length ≠ 0 := by
    intro hlen
    rw [← hend, hlen, hstart] at hzero
    exact hzero
  -- what else the block has written is forgotten at its end
  refine ⟨Function.update ready block.length {0}, ?_, Function.update_self .., ?_⟩
  · rw [Function.update_of_ne (Ne.symm hne), hstart]
  · intro pc insn hinsn
    obtain ⟨hlt, -⟩ := List.getElem?_eq_some_iff.mp hinsn
    obtain ⟨hfit, hnext⟩ := hstep pc insn hinsn
    refine ⟨?_, ?_⟩
    · rwa [Function.update_of_ne (by omega)]
    · rw [Function.update_of_ne (by omega : pc ≠ block.length), ← hnext]
      by_cases he : pc + 1 = block.length
      · rw [he, Function.update_self, hend]
        exact Set.singleton_subset_iff.mpr hzero
      · rw [Function.update_of_ne he]

/-- A slice after some of the clauses: it can be verified, and it leaves their truth in
register 0. -/
structure SliceFor (ctx : DsvQvmCtx D) (code : List Instruction) (result : Bool) : Prop where
  flows : ∃ ready, Flows ctx.operands.length code ready
  runs : ∀ (after : List Instruction) (m : Machine (DsvQvmCtx D) (QvmValue D)), m.backend = ctx →
    ∃ steps m', steps ≤ code.length ∧ m'.backend = ctx ∧ m'.registers 0 = .bool result ∧
      Reaches (code ++ after) steps 0 m code.length m'

theorem Decides.slice {ctx : DsvQvmCtx D} {block : List Instruction} {value : Bool}
    (h : Decides ctx block value) : SliceFor ctx block value where
  flows := h.flows.imp fun _ h => h.flows
  runs after m hctx := by
    obtain ⟨registers, written, hstraight, hzero, -⟩ := h m.registers
    obtain ⟨m', hctx', hregs', hreach⟩ := hstraight.reaches [] after m hctx rfl
    refine ⟨block.length, m', Nat.le_refl _, hctx', by rw [hregs', hzero], ?_⟩
    simpa using hreach

variable {code : List Instruction} {op : Opcode}

theorem reaches_jump {ctx : DsvQvmCtx D} (hop : op = .jmpFalse ∨ op = .jmpTrue) {pc arg : ℕ}
    (hcode : code[pc]? = some (joinJump op arg)) (hforward : pc < arg) (hend : arg ≤ code.length)
    {m : Machine (DsvQvmCtx D) (QvmValue D)} (hctx : m.backend = ctx) {result : Bool}
    (hresult : m.registers 0 = .bool result) : ∃ m', m'.backend = ctx ∧ m'.registers = m.registers ∧
      Reaches code 1 pc m (if result = decide (op = .jmpTrue) then arg else pc + 1) m' := by
  have hvalid : qvmValidateExecInstruction (joinJump op arg) pc code.length = .ok op := by
    unfold qvmValidateExecInstruction joinJump
    rcases hop with rfl | rfl <;>
      simp [qvmIsBinary, qvmWritesRegister, QVM_MAX_REGISTERS] <;> omega
  refine ⟨((m.emit [.step pc]).emit [.read 0]).setBackend ctx, rfl, rfl,
    reaches_step hcode hvalid ?_⟩
  rcases hop with rfl | rfl <;> cases result <;>
    simp [qvmExecInstruction, joinJump, Machine.emit, Machine.setBackend, dsv_qvm_ops, hresult,
      hctx, dsv_qvm_truthy]

theorem Flows.join {operandCount : ℕ} {ready ready' : ℕ → Set ℕ} (h : Flows operandCount code ready)
    (h' : BlockFlows operandCount block ready') (hop : op = .jmpFalse ∨ op = .jmpTrue) :
    Flows operandCount (code ++ joinJump op (code.length + 1 + block.length)::block) fun pc =>
      if pc ≤ code.length then ready pc else ready' (pc - (code.length + 1)) where
  start := by simp [h.start]
  result := by
    rw [List.length_append, List.length_cons, if_neg (by omega)]
    convert h'.result using 2
    omega
  step pc insn hinsn := by
    rw [List.length_append, List.length_cons]
    rcases Nat.lt_trichotomy pc code.length with hlt | rfl | hgt
    · rw [List.getElem?_append_left hlt] at hinsn
      cases h.step pc insn hinsn with
      | straight hfit hnext =>
        refine .straight ?_ ?_
        · rwa [if_pos (by omega)]
        · rwa [if_pos (by omega), if_pos (by omega)]
      | jump hop hforward hend hzero hnext htarget =>
        refine .jump hop hforward (by omega) ?_ ?_ ?_
        · rwa [if_pos (by omega)]
        · rwa [if_pos (by omega), if_pos (by omega)]
        · rwa [if_pos (by omega), if_pos (by omega)]
    · obtain rfl : joinJump op (code.length + 1 + block.length) = insn := by simpa using hinsn
      have hlast : code.length + 1 + block.length - (code.length + 1) = block.length := by omega
      refine .jump hop (by omega) (by omega) ?_ ?_ ?_
      · rw [if_pos (by omega), h.result]
        exact rfl
      · rw [if_neg (by omega), Nat.sub_self, h'.start]
        exact Set.empty_subset _
      · rw [if_neg (by omega), if_pos (by omega), hlast, h'.result, h.result]
    · have hpc : pc - code.length = (pc - (code.length + 1)) + 1 := by omega
      have hpc' : pc + 1 - (code.length + 1) = pc - (code.length + 1) + 1 := by omega
      rw [List.getElem?_append_right (by omega), hpc, List.getElem?_cons_succ] at hinsn
      obtain ⟨hfit, hnext⟩ := h'.step _ insn hinsn
      refine .straight ?_ ?_
      · rwa [if_neg (by omega)]
      · rwa [if_neg (by omega), if_neg (by omega), hpc']

/-- The jump after the clauses so far. -/
def joinOf (op : Opcode) (result value : Bool) : Bool :=
  if op = .jmpFalse then result && value else result || value

theorem SliceFor.join {ctx : DsvQvmCtx D} {result value : Bool} (h : SliceFor ctx code result)
    (hblock : Decides ctx block value) (hop : op = .jmpFalse ∨ op = .jmpTrue) :
    SliceFor ctx (code ++ joinJump op (code.length + 1 + block.length)::block)
      (joinOf op result value) where
  flows := by
    obtain ⟨ready, hready⟩ := h.flows
    obtain ⟨ready', hready'⟩ := hblock.flows
    exact ⟨_, hready.join hready' hop⟩
  runs after m hctx := by
    have hlen : (code ++ joinJump op (code.length + 1 + block.length)::block).length =
        code.length + 1 + block.length := by
      simp
      omega
    obtain ⟨steps, m₁, hsteps, hctx₁, hresult₁, hreach₁⟩ :=
      h.runs (joinJump op (code.length + 1 + block.length)::block ++ after) m hctx
    rw [← List.append_assoc] at hreach₁
    have hget : (code ++ joinJump op (code.length + 1 + block.length)::block ++ after)[code.length]? =
        some (joinJump op (code.length + 1 + block.length)) := by simp
    obtain ⟨m₂, hctx₂, hregs₂, hreach₂⟩ := reaches_jump hop hget (by omega)
      (by rw [List.length_append, hlen]; omega) hctx₁ hresult₁
    by_cases htaken : result = decide (op = .jmpTrue)
    · -- the code of the clause is skipped
      rw [if_pos htaken] at hreach₂
      refine ⟨steps + 1, m₂, by omega, hctx₂, ?_, by rw [hlen]; exact hreach₁.trans hreach₂⟩
      rw [hregs₂, hresult₁, joinOf]
      rcases hop with rfl | rfl <;> simp [htaken]
    · rw [if_neg htaken] at hreach₂
      obtain ⟨registers, written, hstraight, hzero, -⟩ := hblock m₂.registers
      obtain ⟨m₃, hctx₃, hregs₃, hreach₃⟩ := hstraight.reaches
        (code ++ [joinJump op (code.length + 1 + block.length)]) after m₂ hctx₂ rfl
      have hcode : code ++ [joinJump op (code.length + 1 + block.length)] ++ block ++ after =
          code ++ joinJump op (code.length + 1 + block.length)::block ++ after := by simp
      rw [hcode, List.length_append, List.length_singleton] at hreach₃
      refine ⟨steps + 1 + block.length, m₃, by omega, hctx₃, ?_,
        by rw [hlen]; exact (hreach₁.trans hreach₂).trans hreach₃⟩
      rw [hregs₃, hzero, joinOf]
      rcases hop with rfl | rfl <;> cases result <;> simp at htaken ⊢

end Blocks

section Clauses
variable {D : Type}

theorem modify_append {α : Type} (f : α → α) (front : List α) (x : α) (back : List α) :
    (front ++ x::back).modify front.length f = front ++ f x::back := by
  induction front with
  | nil => simp
  | cons y front ih => simpa using ih

theorem patch_operands (b : DsvQvmBuilder D) (pending : Option ℕ) :
    (patchJump b pending).operands = b.operands := by
  cases pending <;> rfl

theorem patch_sized {b : DsvQvmBuilder D} (h : b.Sized) (pending : Option ℕ) :
    (patchJump b pending).Sized := by
  cases pending with
  | none => exact h
  | some jump => exact ⟨by simpa [patchJump] using h.insns, h.capacity, h.operands, h.operand_capacity⟩

variable (joins : List DsvJoin)

theorem clauses_extends (clauses : List (DsvClause D)) :
    ∀ {i : ℕ} {b b' : DsvQvmBuilder D} {pending : Option ℕ}, lowerClauses joins i b pending clauses
    = some b' → b.operands <+: b'.operands ∧ (b.Sized → b'.Sized) := by
  induction clauses with
  | nil =>
    intro i b b' pending h
    rw [← Option.some_inj.mp h, patch_operands]
    exact ⟨List.prefix_rfl, fun hs => patch_sized hs pending⟩
  | cons clause rest ih =>
    intro i b b' pending h
    unfold lowerClauses at h
    obtain ⟨b₁, hclause, h⟩ := Option.bind_eq_some_iff.mp h
    have h₁ := clause_extends hclause
    split_ifs at h
    · obtain ⟨hp, hsized⟩ := ih h
      rw [patch_operands] at hp
      exact ⟨h₁.operands.trans hp, fun hs => hsized (patch_sized (h₁.sized hs) pending)⟩
    · obtain ⟨b₂, hemit, h⟩ := Option.bind_eq_some_iff.mp h
      have h₂ := emit_extends hemit
      obtain ⟨hp, hsized⟩ := ih h
      have hp₂ := h₂.operands
      rw [patch_operands] at hp₂
      exact ⟨h₁.operands.trans (hp₂.trans hp),
        fun hs => hsized (h₂.sized (patch_sized (h₁.sized hs) pending))⟩

def lowerRest (i : ℕ) (builder : DsvQvmBuilder D) (rest : List (DsvClause D)) :
    Option (DsvQvmBuilder D) :=
  if rest = [] then some builder
  else
    (dsv_qvm_emit builder (joinOpcode joins i) 0 0 0 0).bind fun builder =>
      lowerClauses joins (i + 1) builder (some (builder.insns.length - 1)) rest

theorem lowerClauses_cons (i : ℕ) (b : DsvQvmBuilder D)
    (pending : Option ℕ) (clause : DsvClause D) (rest : List (DsvClause D)) :
    lowerClauses joins i b pending (clause::rest) =
      (lowerClause b clause).bind fun b => lowerRest joins i (patchJump b pending) rest := by
  rw [lowerClauses]
  refine congrArg (Option.bind _) (funext fun b => ?_)
  dsimp only [lowerRest]
  split_ifs with hrest
  · rw [hrest]
    rfl
  · rfl

theorem rest_operands {joins : List DsvJoin} {i : ℕ} {b b' : DsvQvmBuilder D}
    {rest : List (DsvClause D)} (h : lowerRest joins i b rest = some b') :
    b.operands <+: b'.operands := by
  unfold lowerRest at h
  split_ifs at h
  · cases h
    exact List.prefix_rfl
  · obtain ⟨b₁, hemit, h⟩ := Option.bind_eq_some_iff.mp h
    exact (emit_extends hemit).operands.trans (clauses_extends joins rest h).1

theorem joinOpcode_cases (i : ℕ) :
    joinOpcode joins i = .jmpFalse ∨ joinOpcode joins i = .jmpTrue := by
  unfold joinOpcode
  split_ifs
  · exact .inl rfl
  · exact .inr rfl

variable [Arithmetic D] [Comparison D]

omit [Arithmetic D] [Comparison D] in
theorem joinResult_eq (i : ℕ) (result value : Bool) :
    joinResult joins (i + 1) result value = joinOf (joinOpcode joins i) result value := by
  unfold joinResult joinOf joinOpcode
  rw [if_neg (Nat.succ_ne_zero i), Nat.add_sub_cancel]
  split_ifs <;> simp_all

theorem rest_slice {ctx : DsvQvmCtx D} (joins : List DsvJoin) {col_count : ℕ}
    (rest : List (DsvClause D)) : ∀ {i : ℕ} {b b' : DsvQvmBuilder D} {result : Bool},
    (∀ clause ∈ rest, clause.Compiled col_count) → lowerRest joins i b rest = some b' →
    b'.operands <+: ctx.operands → SliceFor ctx b.insns result →
    ∃ final, SliceFor ctx b'.insns final ∧
      checkClauses col_count joins ctx.view (i + 1) result rest = some final := by
  induction rest with
  | nil =>
    intro i b b' result _ h _ hslice
    cases h
    exact ⟨result, hslice, rfl⟩
  | cons clause rest ih =>
    intro i b b' result hc h hp hslice
    rw [lowerRest, if_neg (List.cons_ne_nil _ _)] at h
    obtain ⟨b₁, hemit, h⟩ := Option.bind_eq_some_iff.mp h
    rw [lowerClauses_cons] at h
    obtain ⟨b₂, hclause, h⟩ := Option.bind_eq_some_iff.mp h
    obtain ⟨block, hblock, hdecides⟩ := clause_decides (hc clause (by simp)) hclause
    obtain ⟨value, hvalue, hdecides⟩ := hdecides ctx ((rest_operands h).trans hp)
    have hinsns₁ := (emit_eq hemit).1
    have hlen₁ : b₁.insns.length - 1 = b.insns.length := by simp [hinsns₁]
    have hlen₂ : b₂.insns.length = b.insns.length + 1 + block.length := by
      simp [hblock, hinsns₁]
      omega
    have hpatched : (patchJump b₂ (some (b₁.insns.length - 1))).insns =
        b.insns ++ joinJump (joinOpcode joins i) (b.insns.length + 1 + block.length)::block := by
      rw [patchJump, hlen₁, hlen₂, hblock, hinsns₁, List.append_assoc, List.singleton_append]
      exact modify_append _ _ _ _
    have hslice' := hslice.join hdecides (joinOpcode_cases joins i)
    rw [← hpatched, ← joinResult_eq] at hslice'
    obtain ⟨final, hfinal, hcheck⟩ := ih (fun c h => hc c (by simp [h])) h hp hslice'
    refine ⟨final, hfinal, ?_⟩
    rw [checkClauses, hvalue]
    exact hcheck

omit [Arithmetic D] [Comparison D] in
theorem build_sized {filter : DsvFilter D} {b : DsvQvmBuilder D} (h : buildSlice filter = some b) :
    b.Sized ∧ b.insns ≠ [] := by
  unfold buildSlice at h
  split at h
  · contradiction
  · rename_i b' hlower
    split_ifs at h with hempty
    cases h
    exact ⟨(clauses_extends _ _ hlower).2 ⟨by simp, by simp, by simp, by simp⟩,
      fun hnil => hempty (.inl hnil)⟩

theorem build_slice {filter : DsvFilter D} {b : DsvQvmBuilder D} (h : buildSlice filter = some b)
    {ctx : DsvQvmCtx D} (hp : b.operands <+: ctx.operands) :
    ∃ result, SliceFor ctx b.insns result ∧ checkNative filter ctx.view = some result := by
  unfold buildSlice at h
  split at h
  · contradiction
  · rename_i b' hlower
    split_ifs at h
    cases h
    unfold checkNative
    have hcompiled := filter.compiled
    cases hclauses : filter.clauses with
    | nil => exact absurd hclauses filter.nonempty
    | cons clause rest =>
      rw [hclauses, lowerClauses_cons] at hlower
      rw [hclauses] at hcompiled
      obtain ⟨b₁, hclause, hlower⟩ := Option.bind_eq_some_iff.mp hlower
      obtain ⟨block, hblock, hdecides⟩ := clause_decides (hcompiled clause (by simp)) hclause
      obtain ⟨value, hvalue, hdecides⟩ := hdecides ctx ((rest_operands hlower).trans hp)
      have hslice : SliceFor ctx b₁.insns value := by
        rw [hblock]
        exact hdecides.slice
      obtain ⟨final, hfinal, hcheck⟩ := rest_slice filter.joins rest
        (fun c h => hcompiled c (by simp [h])) hlower hp hslice
      refine ⟨final, hfinal, ?_⟩
      rw [checkClauses, hvalue]
      exact hcheck

end Clauses

end SaltsUtils.Dsv
