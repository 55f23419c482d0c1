import SaltsUtils.Dsv.Lowering
import SaltsUtils.QueryVm.Verifier

/-!
# The code of one clause

A clause is lowered to code without jumps.
-/

set_option autoImplicit false

namespace SaltsUtils.Dsv

open SaltsUtils.Csv (Bytes)
open SaltsUtils.QueryVm

@[simp]
theorem opcode_byte (op : Opcode) (dst arg src1 src2 : ℕ) :
    Instruction.opcode ⟨opcodeByte op, 0, dst, arg, src1, src2⟩ = some op := by
  cases op <;> rfl

def straightOpcodes : List Opcode :=
  [.loadPath, .loadConst, .cmp, .cmpLeafNumber, .cmpLeafString, .add, .sub, .mul, .div, .neg]

/-- An instruction that may follow code which has written the registers `written`. -/
structure Fit (written : Set ℕ) (operandCount : ℕ) (insn : Instruction) : Prop where
  opcode : ∃ op ∈ straightOpcodes, insn.opcode = some op
  reserved : insn.reserved = 0
  dst : insn.dst < QVM_MAX_REGISTERS
  reads : ∀ r ∈ insn.reads, r ∈ written ∧ r < QVM_MAX_REGISTERS
  load : insn.opcode = some .loadPath ∨ insn.opcode = some .loadConst → insn.src1 < operandCount
  leaf : insn.opcode = some .cmpLeafNumber ∨ insn.opcode = some .cmpLeafString →
    insn.src1 < operandCount ∧ insn.src2 < operandCount

variable {written : Set ℕ} {operandCount : ℕ} {insn : Instruction} {op : Opcode}

theorem Fit.validate (h : Fit written operandCount insn) (hop : insn.opcode = some op) (pc end_ : ℕ) :
    qvmValidateExecInstruction insn pc end_ = .ok op := by
  obtain ⟨op', hmem, hop'⟩ := h.opcode
  obtain rfl : op = op' := Option.some_inj.mp (hop.symm.trans hop')
  have hdst := h.dst
  have hreads := fun r hr => (h.reads r hr).2
  unfold qvmValidateExecInstruction
  simp only [hop, fail_else_ok]
  simp only [straightOpcodes, List.mem_cons, List.not_mem_nil, or_false] at hmem
  rcases hmem with rfl | rfl | rfl | rfl | rfl | rfl | rfl | rfl | rfl | rfl <;>
    simp [Instruction.reads, hop, qvmIsBinary, h.reserved] at hreads ⊢ <;> omega

theorem Fit.successors (h : Fit written operandCount insn) (pc : ℕ) :
    insn.successors pc = [pc + 1] := by
  obtain ⟨op, hmem, hop⟩ := h.opcode
  simp only [straightOpcodes, List.mem_cons, List.not_mem_nil, or_false] at hmem
  rcases hmem with rfl | rfl | rfl | rfl | rfl | rfl | rfl | rfl | rfl | rfl <;>
    simp [Instruction.successors, hop]

theorem Fit.writes (h : Fit written operandCount insn) : insn.writes = {insn.dst} := by
  obtain ⟨op, hmem, hop⟩ := h.opcode
  simp only [straightOpcodes, List.mem_cons, List.not_mem_nil, or_false] at hmem
  rcases hmem with rfl | rfl | rfl | rfl | rfl | rfl | rfl | rfl | rfl | rfl <;>
    simp [Instruction.writes, hop]

variable {reg arg lhs rhs : ℕ}

section Run
variable {D : Type} [Arithmetic D] [Comparison D]

/-- The instruction leaves `value` in its destination, and nothing else changes. -/
def Writes (ctx : DsvQvmCtx D) (insn : Instruction) (registers : ℕ → QvmValue D)
    (value : QvmValue D) : Prop :=
  ∀ op, insn.opcode = some op → ∀ (pc : ℕ) (m : Machine (DsvQvmCtx D) (QvmValue D)),
    m.backend = ctx → m.registers = registers →
    ∃ m', qvmExecInstruction dsv_qvm_ops none pc insn op m = (.ok (pc + 1), m') ∧
      m'.backend = ctx ∧ m'.registers = Function.update registers insn.dst value

theorem writes_load {ctx : DsvQvmCtx D} (hop : op = .loadPath ∨ op = .loadConst) {operand : ℕ}
    {value : QvmValue D} (h : dsv_qvm_resolve_value ctx operand .invalid = (true, value)) (dst : ℕ)
    (registers : ℕ → QvmValue D) :
    Writes ctx ⟨opcodeByte op, 0, dst, 0, operand, 0⟩ registers value := by
  intro op' hop' pc m hctx hregs
  obtain rfl : op = op' := by simpa using hop'
  have hresolve : dsv_qvm_ops.resolve m.backend operand (0 : QvmValue D) = ((true, value), ctx) := by
    rw [hctx]
    exact congrArg (·, ctx) h
  refine ⟨(m.emit [.operand op operand]).store ctx dst value, ?_, rfl, ?_⟩
  · rcases hop with rfl | rfl <;> simp [qvmExecInstruction, Machine.emit, hresolve]
  · simp [Machine.store, Machine.emit, hregs]

theorem writes_neg {ctx : DsvQvmCtx D} {registers : ℕ → QvmValue D} {x : D}
    (h : registers reg = .number x) (dst : ℕ) :
    Writes ctx ⟨opcodeByte .neg, 0, dst, 0, reg, 0⟩ registers (.number (Arithmetic.neg x)) := by
  intro op' hop' pc m hctx hregs
  obtain rfl : Opcode.neg = op' := by simpa using hop'
  refine ⟨(m.emit [.read reg]).store ctx dst (.number (Arithmetic.neg x)), ?_, rfl, ?_⟩
  · simp [qvmExecInstruction, dsv_qvm_ops, storeResult, Machine.emit, hregs, hctx, h, dsv_qvm_unary]
  · simp [Machine.store, Machine.emit, hregs]

theorem writes_binary {ctx : DsvQvmCtx D} {registers : ℕ → QvmValue D}
    (hop : op ∈ [.cmp, .add, .sub, .mul, .div]) {value : QvmValue D}
    (h : ∀ out, dsv_qvm_binary op arg (registers lhs) (registers rhs) out = (true, value)) (dst : ℕ) :
    Writes ctx ⟨opcodeByte op, 0, dst, arg, lhs, rhs⟩ registers value := by
  intro op' hop' pc m hctx hregs
  obtain rfl : op = op' := by simpa using hop'
  refine ⟨(m.emit [.read lhs, .read rhs]).store ctx dst value, ?_, rfl, ?_⟩
  · simp only [List.mem_cons, List.not_mem_nil, or_false] at hop
    rcases hop with rfl | rfl | rfl | rfl | rfl <;>
      simp [qvmExecInstruction, dsv_qvm_ops, storeResult, Machine.emit, hregs, hctx, h]
  · simp [Machine.store, Machine.emit, hregs]

theorem writes_leaf {ctx : DsvQvmCtx D} {registers : ℕ → QvmValue D}
    (hop : op = .cmpLeafNumber ∨ op = .cmpLeafString) {value : QvmValue D}
    (h : ∀ out, dsv_qvm_leaf ctx op arg lhs rhs out = (true, value)) (dst : ℕ) :
    Writes ctx ⟨opcodeByte op, 0, dst, arg, lhs, rhs⟩ registers value := by
  intro op' hop' pc m hctx hregs
  obtain rfl : op = op' := by simpa using hop'
  refine ⟨(m.emit [.operand op lhs, .operand op rhs]).store ctx dst value, ?_, rfl, ?_⟩
  · rcases hop with rfl | rfl <;>
      simp [qvmExecInstruction, dsv_qvm_ops, continueWith, qvmExecLeaf, Machine.emit, hctx, h]
  · simp [Machine.store, Machine.emit, hregs]

/-- The code from the start of a block, the registers after it and those that it has written. -/
inductive Straight (ctx : DsvQvmCtx D) (start : ℕ → QvmValue D) :
    List Instruction → (ℕ → QvmValue D) → Set ℕ → Prop
  | nil : Straight ctx start [] start ∅
  | snoc {block : List Instruction} {registers : ℕ → QvmValue D} {written : Set ℕ}
      {insn : Instruction} {value : QvmValue D} : Straight ctx start block registers written →
      Fit written ctx.operands.length insn → Writes ctx insn registers value →
      Straight ctx start (block ++ [insn]) (Function.update registers insn.dst value)
        (insert insn.dst written)

/-- The loop of the VM gets from one place in the code to another in `steps` steps. -/
def Reaches (code : List Instruction) (steps pc : ℕ) (m : Machine (DsvQvmCtx D) (QvmValue D))
    (pc' : ℕ) (m' : Machine (DsvQvmCtx D) (QvmValue D)) : Prop :=
  ∀ maxSteps budget,
    qvmExecLoop (fetch code) dsv_qvm_ops none code.length maxSteps (budget + steps) pc m =
      qvmExecLoop (fetch code) dsv_qvm_ops none code.length maxSteps budget pc' m'

theorem Reaches.refl (code : List Instruction) (pc : ℕ) (m : Machine (DsvQvmCtx D) (QvmValue D)) :
    Reaches code 0 pc m pc m :=
  fun _ _ => rfl

theorem Reaches.trans {code : List Instruction} {k k' pc pc' pc'' : ℕ}
    {m m' m'' : Machine (DsvQvmCtx D) (QvmValue D)} (h : Reaches code k pc m pc' m')
    (h' : Reaches code k' pc' m' pc'' m'') : Reaches code (k + k') pc m pc'' m'' := by
  intro maxSteps budget
  rw [Nat.add_comm k k', ← Nat.add_assoc, h, h']

theorem reaches_step {code : List Instruction} {pc pc' : ℕ}
    {m m' : Machine (DsvQvmCtx D) (QvmValue D)} (hcode : code[pc]? = some insn)
    (hvalid : qvmValidateExecInstruction insn pc code.length = .ok op)
    (hexec : qvmExecInstruction dsv_qvm_ops none pc insn op (m.emit [.step pc]) = (.ok pc', m')) :
    Reaches code 1 pc m pc' m' := by
  intro maxSteps budget
  obtain ⟨hlt, -⟩ := List.getElem?_eq_some_iff.mp hcode
  have hfetch : fetch code pc = insn := by simp [fetch, hcode]
  rw [qvmExecLoop, if_neg (by omega), hfetch, hvalid]
  simp only [hexec]

theorem Straight.reaches {ctx : DsvQvmCtx D} {start registers : ℕ → QvmValue D}
    {block : List Instruction} (h : Straight ctx start block registers written)
    (before : List Instruction) : ∀ (after : List Instruction)
    (m : Machine (DsvQvmCtx D) (QvmValue D)), m.backend = ctx → m.registers = start →
    ∃ m', m'.backend = ctx ∧ m'.registers = registers ∧
      Reaches (before ++ block ++ after) block.length before.length m
        (before.length + block.length) m' := by
  induction h with
  | nil => exact fun after m hctx hregs => ⟨m, hctx, hregs, Reaches.refl _ _ _⟩
  | @snoc block registers written insn value _ hfit hwrites ih =>
    intro after m hctx hregs
    obtain ⟨m', hctx', hregs', hreach⟩ := ih (insn::after) m hctx hregs
    obtain ⟨op, -, hop⟩ := hfit.opcode
    obtain ⟨m'', hexec, hctx'', hregs''⟩ := hwrites op hop (before.length + block.length)
      (m'.emit [.step (before.length + block.length)]) hctx' hregs'
    refine ⟨m'', hctx'', hregs'', ?_⟩
    have hcode : before ++ (block ++ [insn]) ++ after = before ++ block ++ insn::after := by simp
    have hget : (before ++ block ++ insn::after)[before.length + block.length]? = some insn := by
      rw [← List.length_append, List.getElem?_append_right (Nat.le_refl _)]
      simp
    rw [hcode, List.length_append, List.length_singleton]
    exact hreach.trans (reaches_step hget (hfit.validate hop _ _) hexec)

end Run

variable {i : ℕ} {s' : ArithRegisters}

section Emission
variable {D : Type}

/-- The two arrays of a builder fit into their capacities, and these into the default limits. -/
structure DsvQvmBuilder.Sized (b : DsvQvmBuilder D) : Prop where
  insns : b.insns.length ≤ b.capacity
  capacity : b.capacity ≤ QVM_DEFAULT_MAX_INSTRUCTIONS
  operands : b.operands.length ≤ b.operand_capacity
  operand_capacity : b.operand_capacity ≤ QVM_DEFAULT_MAX_OPERANDS

theorem growCapacity_room {count capacity first limit new : ℕ} (hfirst : 0 < first)
    (hcount : count ≤ capacity) (hlimit : capacity ≤ limit)
    (h : growCapacity count capacity first limit = some new) : count + 1 ≤ new ∧ new ≤ limit := by
  unfold growCapacity at h
  dsimp only at h
  split_ifs at h <;> rw [Option.some_inj] at h <;> omega

/-- A builder that went on from another one. -/
structure Extends (b b' : DsvQvmBuilder D) : Prop where
  insns : b.insns <+: b'.insns
  operands : b.operands <+: b'.operands
  sized : b.Sized → b'.Sized

theorem Extends.refl (b : DsvQvmBuilder D) : Extends b b :=
  ⟨List.prefix_rfl, List.prefix_rfl, id⟩

theorem Extends.trans {b b' b'' : DsvQvmBuilder D} (h : Extends b b') (h' : Extends b' b'') :
    Extends b b'' :=
  ⟨h.insns.trans h'.insns, h.operands.trans h'.operands, fun hs => h'.sized (h.sized hs)⟩

theorem emit_eq {b b' : DsvQvmBuilder D} {dst src1 src2 : ℕ}
    (h : dsv_qvm_emit b op dst arg src1 src2 = some b') :
    b'.insns = b.insns ++ [⟨opcodeByte op, 0, dst, arg, src1, src2⟩] ∧
      b'.operands = b.operands := by
  obtain ⟨capacity, -, rfl⟩ := Option.map_eq_some_iff.mp h
  exact ⟨rfl, rfl⟩

theorem emit_extends {b b' : DsvQvmBuilder D} {dst src1 src2 : ℕ}
    (h : dsv_qvm_emit b op dst arg src1 src2 = some b') : Extends b b' := by
  obtain ⟨h₁, h₂⟩ := emit_eq h
  refine ⟨h₁ ▸ List.prefix_append _ _, h₂ ▸ List.prefix_rfl, fun hs => ?_⟩
  obtain ⟨capacity, hgrow, rfl⟩ := Option.map_eq_some_iff.mp h
  obtain ⟨hroom, hlimit⟩ := growCapacity_room (by decide) hs.insns hs.capacity hgrow
  exact ⟨by simpa using hroom, hlimit, hs.operands, hs.operand_capacity⟩

theorem add_operand_eq {b b' : DsvQvmBuilder D} {operand : DsvOperand D}
    (h : dsv_qvm_add_operand b operand = some (i, b')) :
    i = b.operands.length ∧ b'.operands = b.operands ++ [operand] ∧ b'.insns = b.insns := by
  obtain ⟨capacity, -, h⟩ := Option.map_eq_some_iff.mp h
  cases h
  exact ⟨rfl, rfl, rfl⟩

theorem add_operand_extends {b b' : DsvQvmBuilder D} {operand : DsvOperand D}
    (h : dsv_qvm_add_operand b operand = some (i, b')) : Extends b b' := by
  obtain ⟨-, h₁, h₂⟩ := add_operand_eq h
  refine ⟨h₂ ▸ List.prefix_rfl, h₁ ▸ List.prefix_append _ _, fun hs => ?_⟩
  obtain ⟨capacity, hgrow, h⟩ := Option.map_eq_some_iff.mp h
  cases h
  obtain ⟨hroom, hlimit⟩ := growCapacity_room (by decide) hs.operands hs.operand_capacity hgrow
  exact ⟨hs.insns, hs.capacity, by simpa using hroom, hlimit⟩

theorem operand_getElem {b b' : DsvQvmBuilder D} {operand : DsvOperand D}
    (h : dsv_qvm_add_operand b operand = some (i, b')) {operands : List (DsvOperand D)}
    (hp : b'.operands <+: operands) : operands[i]? = some operand := by
  obtain ⟨rfl, h₁, -⟩ := add_operand_eq h
  obtain ⟨rest, rfl⟩ := hp
  simp [h₁]

variable {s : ArithRegisters}

theorem take_regs (h : s.take = some (reg, s')) : s'.regs = s.regs := by
  unfold ArithRegisters.take at h
  split at h
  · cases h
    rfl
  · split_ifs at h
    cases h
    rfl

theorem load_cases {b b' : DsvQvmBuilder D} {operand : DsvOperand D}
    (h : lowerLoad b s op operand = some (b', s')) :
    ∃ reg t i mid, s.take = some (reg, t) ∧ dsv_qvm_add_operand b operand = some (i, mid) ∧
      dsv_qvm_emit mid op reg 0 i 0 = some b' ∧ s' = { t with regs := reg::s.regs } := by
  unfold lowerLoad at h
  split_ifs at h
  obtain ⟨⟨reg, t⟩, htake, h⟩ := Option.bind_eq_some_iff.mp h
  obtain ⟨⟨i, mid⟩, hadd, h⟩ := Option.bind_eq_some_iff.mp h
  obtain ⟨b'', hemit, h⟩ := Option.bind_eq_some_iff.mp h
  cases h
  exact ⟨reg, t, i, mid, htake, hadd, hemit, by rw [take_regs htake]⟩

theorem binary_cases {b b' : DsvQvmBuilder D} (h : lowerBinary b s op = some (b', s')) :
    ∃ rhs lhs regs, s.regs = rhs::lhs::regs ∧ dsv_qvm_emit b op lhs 0 lhs rhs = some b' ∧
      s'.regs = lhs::regs ∧ s'.next_reg = s.next_reg ∧
      (s'.free_regs = rhs::s.free_regs ∨ s'.free_regs = s.free_regs) := by
  unfold lowerBinary at h
  split at h
  · rename_i rhs lhs regs hregs
    obtain ⟨b'', hemit, h⟩ := Option.bind_eq_some_iff.mp h
    cases h
    refine ⟨rhs, lhs, regs, hregs, hemit, rfl, rfl, ?_⟩
    split_ifs
    · exact .inl rfl
    · exact .inr rfl
  · contradiction

theorem item_extends {b b' : DsvQvmBuilder D} {item : DsvExprItem D}
    (h : lowerItem b s item = some (b', s')) : Extends b b' := by
  have hload : ∀ {op operand}, lowerLoad b s op operand = some (b', s') → Extends b b' := by
    intro op operand h
    obtain ⟨reg, t, i, mid, -, hadd, hemit, -⟩ := load_cases h
    exact (add_operand_extends hadd).trans (emit_extends hemit)
  have hbinary : ∀ {op}, lowerBinary b s op = some (b', s') → Extends b b' := by
    intro op h
    obtain ⟨rhs, lhs, regs, -, hemit, -⟩ := binary_cases h
    exact emit_extends hemit
  cases item with
  | number num => exact hload h
  | ident col_idx => exact hload h
  | neg =>
    unfold lowerItem at h
    dsimp only at h
    split at h
    · contradiction
    · obtain ⟨b'', hemit, h⟩ := Option.map_eq_some_iff.mp h
      cases h
      exact emit_extends hemit
  | add => exact hbinary h
  | sub => exact hbinary h
  | mul => exact hbinary h
  | div => exact hbinary h

theorem items_extends (items : List (DsvExprItem D)) : ∀ {b b' : DsvQvmBuilder D}
    {s s' : ArithRegisters}, lowerItems b s items = some (b', s') → Extends b b' := by
  induction items with
  | nil =>
    intro b b' s s' h
    cases h
    exact Extends.refl b
  | cons item items ih =>
    intro b b' s s' h
    unfold lowerItems at h
    split at h
    · contradiction
    · rename_i mid t hitem
      exact (item_extends hitem).trans (ih h)

end Emission

theorem fit_load (hop : op = .loadPath ∨ op = .loadConst) {operand : ℕ}
    (hreg : reg < QVM_MAX_REGISTERS) (hi : operand < operandCount) :
    Fit written operandCount ⟨opcodeByte op, 0, reg, 0, operand, 0⟩ where
  opcode := ⟨op, by rcases hop with rfl | rfl <;> simp [straightOpcodes], opcode_byte ..⟩
  reserved := rfl
  dst := hreg
  reads := by rcases hop with rfl | rfl <;> simp [Instruction.reads]
  load _ := hi
  leaf := by rcases hop with rfl | rfl <;> simp

theorem fit_neg (hreg : reg < QVM_MAX_REGISTERS) (hw : reg ∈ written) :
    Fit written operandCount ⟨opcodeByte .neg, 0, reg, 0, reg, 0⟩ where
  opcode := ⟨.neg, by simp [straightOpcodes], opcode_byte ..⟩
  reserved := rfl
  dst := hreg
  reads := by simp [Instruction.reads, hreg, hw]
  load := by simp
  leaf := by simp

theorem fit_binary (hop : op ∈ [.cmp, .add, .sub, .mul, .div]) {dst : ℕ}
    (hdst : dst < QVM_MAX_REGISTERS) (hl : lhs ∈ written ∧ lhs < QVM_MAX_REGISTERS)
    (hr : rhs ∈ written ∧ rhs < QVM_MAX_REGISTERS) :
    Fit written operandCount ⟨opcodeByte op, 0, dst, arg, lhs, rhs⟩ := by
  simp only [List.mem_cons, List.not_mem_nil, or_false] at hop
  constructor
  case opcode =>
    exact ⟨op, by rcases hop with rfl | rfl | rfl | rfl | rfl <;> simp [straightOpcodes],
      opcode_byte ..⟩
  case reserved => rfl
  case dst => exact hdst
  case reads => rcases hop with rfl | rfl | rfl | rfl | rfl <;> simp [Instruction.reads, hl, hr]
  case load => rcases hop with rfl | rfl | rfl | rfl | rfl <;> simp
  case leaf => rcases hop with rfl | rfl | rfl | rfl | rfl <;> simp

theorem fit_leaf (hop : op = .cmpLeafNumber ∨ op = .cmpLeafString) (hl : lhs < operandCount)
    (hr : rhs < operandCount) : Fit written operandCount ⟨opcodeByte op, 0, 0, arg, lhs, rhs⟩ where
  opcode := ⟨op, by rcases hop with rfl | rfl <;> simp [straightOpcodes], opcode_byte ..⟩
  reserved := rfl
  dst := by simp [QVM_MAX_REGISTERS]
  reads := by rcases hop with rfl | rfl <;> simp [Instruction.reads]
  load := by rcases hop with rfl | rfl <;> simp
  leaf _ := ⟨hl, hr⟩

variable {col_count : ℕ}

section Arithmetic
variable {D : Type} [Arithmetic D] [Comparison D]

/-- The registers in use after a part of an expression. -/
structure Holding (ctx : DsvQvmCtx D) (start : ℕ → QvmValue D) (block : List Instruction)
    (registers : ℕ → QvmValue D) (written : Set ℕ) (s : ArithRegisters) (stack : List D) :
    Prop where
  straight : Straight ctx start block registers written
  values : List.Forall₂ (fun reg x => registers reg = .number x) s.regs stack
  mem : ∀ reg ∈ s.regs, reg ∈ written
  nodup : (s.regs ++ s.free_regs).Nodup
  bound : ∀ reg ∈ s.regs ++ s.free_regs, reg < s.next_reg
  limit : s.next_reg ≤ QVM_MAX_REGISTERS

theorem holding_start (ctx : DsvQvmCtx D) (start : ℕ → QvmValue D) :
    Holding ctx start [] start ∅ {} [] where
  straight := .nil
  values := .nil
  mem := by simp
  nodup := by simp
  bound := by simp
  limit := by decide

variable {ctx : DsvQvmCtx D} {start registers : ℕ → QvmValue D} {block : List Instruction}
  {written : Set ℕ} {s : ArithRegisters} {stack : List D}

theorem Holding.take (h : Holding ctx start block registers written s stack)
    (htake : s.take = some (reg, s')) :
    reg < QVM_MAX_REGISTERS ∧ (reg::s.regs ++ s'.free_regs).Nodup ∧
      (∀ r ∈ reg::s.regs ++ s'.free_regs, r < s'.next_reg) ∧ s'.next_reg ≤ QVM_MAX_REGISTERS := by
  have hnodup := h.nodup
  have hbound := h.bound
  have hlimit := h.limit
  unfold ArithRegisters.take at htake
  split at htake
  · rename_i free hfree
    cases htake
    rw [hfree] at hnodup hbound
    have hperm : (s.regs ++ reg::free).Perm (reg::s.regs ++ free) := List.perm_middle
    refine ⟨?_, hperm.nodup_iff.mp hnodup, fun r hr => hbound r (hperm.mem_iff.mpr hr), hlimit⟩
    exact lt_of_lt_of_le (hbound reg (by simp)) hlimit
  · rename_i hfree
    split_ifs at htake with hlt
    cases htake
    rw [hfree, List.append_nil] at hnodup hbound
    have hnew : s.next_reg ∉ s.regs := fun hmem => lt_irrefl _ (hbound _ hmem)
    refine ⟨hlt, by simp [hfree, hnew, hnodup], fun r hr => ?_, hlt⟩
    rcases List.mem_cons.mp (by simpa [hfree] using hr) with rfl | hr
    · exact Nat.lt_succ_self _
    · exact Nat.lt_succ_of_lt (hbound r hr)

variable {regs : List ℕ}

omit [Arithmetic D] [Comparison D] in
theorem values_update (hv : List.Forall₂ (fun reg x => registers reg = .number x) regs stack)
    (hreg : reg ∉ regs) (value : QvmValue D) :
    List.Forall₂ (fun r x => Function.update registers reg value r = .number x) regs stack := by
  induction hv with
  | nil => exact .nil
  | @cons r x regs stack hr _ ih =>
    rw [List.mem_cons, not_or] at hreg
    exact .cons (by rw [Function.update_of_ne (Ne.symm hreg.1), hr]) (ih hreg.2)

theorem Holding.load (h : Holding ctx start block registers written s stack)
    {b b' : DsvQvmBuilder D} (hop : op = .loadPath ∨ op = .loadConst) {operand : DsvOperand D}
    {x : D} (hlower : lowerLoad b s op operand = some (b', s')) (hp : b'.operands <+: ctx.operands)
    (hx : ∀ i, ctx.operands[i]? = some operand → dsv_qvm_resolve_value ctx i .invalid =
      (true, .number x)) :
    ∃ insn registers' written', b'.insns = b.insns ++ [insn] ∧
      Holding ctx start (block ++ [insn]) registers' written' s' (x::stack) := by
  obtain ⟨reg, t, i, mid, htake, hadd, hemit, rfl⟩ := load_cases hlower
  obtain ⟨hreg, hnodup, hbound, hlimit⟩ := h.take htake
  have hi := operand_getElem hadd ((emit_extends hemit).operands.trans hp)
  have hlen : i < ctx.operands.length := (List.getElem?_eq_some_iff.mp hi).1
  have hnew : reg ∉ s.regs := by
    simp only [List.cons_append, List.nodup_cons, List.mem_append, not_or] at hnodup
    exact hnodup.1.1
  refine ⟨_, _, _, (emit_eq hemit).1.trans (by rw [(add_operand_eq hadd).2.2]),
    h.straight.snoc (fit_load hop hreg hlen) (writes_load hop (hx i hi) reg registers), ?_, ?_,
    hnodup, hbound, hlimit⟩
  · exact .cons (Function.update_self ..) (values_update h.values hnew _)
  · intro r hr
    rcases List.mem_cons.mp hr with rfl | hr
    · exact Set.mem_insert _ _
    · exact Set.mem_insert_of_mem _ (h.mem r hr)

theorem Holding.binary {y x z : D} (h : Holding ctx start block registers written s (y::x::stack))
    (hop : op ∈ [.add, .sub, .mul, .div])
    (hz : ∀ out, dsv_qvm_binary op 0 (.number x) (.number y) out = (true, .number z))
    {b b' : DsvQvmBuilder D} (hregs : s.regs = rhs::lhs::regs)
    (hemit : dsv_qvm_emit b op lhs 0 lhs rhs = some b') (hregs' : s'.regs = lhs::regs)
    (hnext : s'.next_reg = s.next_reg)
    (hfree : s'.free_regs = rhs::s.free_regs ∨ s'.free_regs = s.free_regs) :
    ∃ insn registers' written', b'.insns = b.insns ++ [insn] ∧
      Holding ctx start (block ++ [insn]) registers' written' s' (z::stack) := by
  have hvalues := h.values
  have hmem := h.mem
  have hnodup := h.nodup
  have hbound := h.bound
  rw [hregs] at hvalues hmem hnodup hbound
  obtain ⟨hy, hvalues⟩ := List.forall₂_cons.mp hvalues
  obtain ⟨hx, hvalues⟩ := List.forall₂_cons.mp hvalues
  have hlt : ∀ r ∈ rhs::lhs::regs ++ s.free_regs, r < QVM_MAX_REGISTERS := fun r hr =>
    lt_of_lt_of_le (hbound r hr) h.limit
  -- the registers in use are the old ones, the right operand perhaps apart
  have hsub : (s'.regs ++ s'.free_regs).Nodup ∧
      ∀ r ∈ s'.regs ++ s'.free_regs, r ∈ rhs::lhs::regs ++ s.free_regs := by
    rw [hregs']
    rcases hfree with hfree | hfree <;> rw [hfree]
    · have hperm : (lhs::regs ++ rhs::s.free_regs).Perm (rhs::lhs::regs ++ s.free_regs) :=
        List.perm_middle
      exact ⟨hperm.nodup_iff.mpr hnodup, fun r hr => hperm.mem_iff.mp hr⟩
    · exact ⟨(List.nodup_cons.mp hnodup).2, fun r hr => List.mem_cons_of_mem _ hr⟩
  have hnew : lhs ∉ regs := by
    have := (List.nodup_cons.mp (List.nodup_cons.mp hnodup).2).1
    exact fun hm => this (List.mem_append_left _ hm)
  have hop' : op ∈ [.cmp, .add, .sub, .mul, .div] := List.mem_cons_of_mem _ hop
  have hfit : Fit written ctx.operands.length ⟨opcodeByte op, 0, lhs, 0, lhs, rhs⟩ :=
    fit_binary hop' (hlt lhs (by simp)) ⟨hmem lhs (by simp), hlt lhs (by simp)⟩
      ⟨hmem rhs (by simp), hlt rhs (by simp)⟩
  have hwrites : Writes ctx ⟨opcodeByte op, 0, lhs, 0, lhs, rhs⟩ registers (.number z) :=
    writes_binary hop' (by simpa [hx, hy] using hz) lhs
  refine ⟨_, _, _, (emit_eq hemit).1, h.straight.snoc hfit hwrites, ?_, ?_, hsub.1, ?_,
    hnext ▸ h.limit⟩
  · rw [hregs']
    exact .cons (Function.update_self ..) (values_update hvalues hnew _)
  · rw [hregs']
    exact fun r hr => Set.mem_insert_of_mem _ (hmem r (List.mem_cons_of_mem _ hr))
  · rw [hnext]
    exact fun r hr => hbound r (hsub.2 r hr)

theorem Holding.neg {x : D} (h : Holding ctx start block registers written s (x::stack))
    (hregs : s.regs = reg::regs) {b b' : DsvQvmBuilder D}
    (hemit : dsv_qvm_emit b .neg reg 0 reg 0 = some b') :
    ∃ insn registers' written', b'.insns = b.insns ++ [insn] ∧
      Holding ctx start (block ++ [insn]) registers' written' s (Arithmetic.neg x::stack) := by
  have hvalues := h.values
  have hmem := h.mem
  have hnodup := h.nodup
  rw [hregs] at hvalues hmem hnodup
  obtain ⟨hx, hvalues⟩ := List.forall₂_cons.mp hvalues
  have hlt : reg < QVM_MAX_REGISTERS := lt_of_lt_of_le (h.bound reg (by simp [hregs])) h.limit
  have hnew : reg ∉ regs := fun hm => (List.nodup_cons.mp hnodup).1 (List.mem_append_left _ hm)
  refine ⟨_, _, _, (emit_eq hemit).1,
    h.straight.snoc (fit_neg hlt (hmem reg (by simp))) (writes_neg hx reg), ?_, ?_, h.nodup,
    h.bound, h.limit⟩
  · rw [hregs]
    exact .cons (Function.update_self ..) (values_update hvalues hnew _)
  · exact fun r hr => Set.mem_insert_of_mem _ (h.mem r hr)

omit [Arithmetic D] [Comparison D] in
theorem resolve_number {x : D} (h : ctx.operands[i]? = some (.number x)) (out : QvmValue D) :
    dsv_qvm_resolve_value ctx i out = (true, .number x) := by
  simp [dsv_qvm_resolve_value, h]

omit [Arithmetic D] [Comparison D] in
theorem resolve_column {col_idx : ℕ} (h : ctx.operands[i]? = some (.column col_idx true))
    (out : QvmValue D) :
    dsv_qvm_resolve_value ctx i out = (true, .number (ctx.view.number col_idx)) := by
  simp [dsv_qvm_resolve_value, h]

theorem item_holding (h : Holding ctx start block registers written s stack)
    {b b' : DsvQvmBuilder D} {item : DsvExprItem D} (hlower : lowerItem b s item = some (b', s'))
    (hp : b'.operands <+: ctx.operands) {cap : ℕ}
    (hcol : ∀ col_idx, .ident col_idx = item → col_idx < col_count) (hcap : stack.length < cap)
    (rest : List (DsvExprItem D)) :
    ∃ insn registers' written' stack', b'.insns = b.insns ++ [insn] ∧
      Holding ctx start (block ++ [insn]) registers' written' s' stack' ∧
      stack'.length ≤ stack.length + 1 ∧
      evalItems col_count cap ctx.view (item::rest) stack =
        evalItems col_count cap ctx.view rest stack' := by
  have hbinary : ∀ {op : Opcode} (f : D → D → D), op ∈ [.add, .sub, .mul, .div] →
      (∀ x y out, dsv_qvm_binary op 0 (.number x) (.number y) out = (true, .number (f x y))) →
      (∀ x y stack, evalItems col_count cap ctx.view (item::rest) (y::x::stack) =
        evalItems col_count cap ctx.view rest (f x y::stack)) →
      lowerBinary b s op = some (b', s') →
      ∃ insn registers' written' stack', b'.insns = b.insns ++ [insn] ∧
        Holding ctx start (block ++ [insn]) registers' written' s' stack' ∧
        stack'.length ≤ stack.length + 1 ∧
        evalItems col_count cap ctx.view (item::rest) stack =
          evalItems col_count cap ctx.view rest stack' := by
    intro op f hop hf heval hlower
    obtain ⟨rhs, lhs, regs, hregs, hemit, hregs', hnext, hfree⟩ := binary_cases hlower
    have hvalues := h.values
    rw [hregs] at hvalues
    cases hvalues with
    | @cons _ y _ _ _ hvalues =>
      cases hvalues with
      | @cons _ x _ stack _ _ =>
        obtain ⟨insn, registers', written', hinsns, h'⟩ :=
          h.binary hop (hf x y) hregs hemit hregs' hnext hfree
        exact ⟨insn, registers', written', _, hinsns, h', by simp, heval x y stack⟩
  cases item with
  | number num =>
    obtain ⟨insn, registers', written', hinsns, h'⟩ :=
      h.load (.inr rfl) hlower hp fun i hi => resolve_number hi _
    refine ⟨insn, registers', written', _, hinsns, h', by simp, ?_⟩
    rw [evalItems, if_neg (by omega)]
  | ident col_idx =>
    obtain ⟨insn, registers', written', hinsns, h'⟩ :=
      h.load (.inl rfl) hlower hp fun i hi => resolve_column hi _
    have := hcol col_idx rfl
    refine ⟨insn, registers', written', _, hinsns, h', by simp, ?_⟩
    rw [evalItems, if_neg (by omega), if_neg (by omega)]
  | neg =>
    unfold lowerItem at hlower
    dsimp only at hlower
    split at hlower
    · contradiction
    · rename_i reg regs hregs
      obtain ⟨b'', hemit, hlower⟩ := Option.map_eq_some_iff.mp hlower
      cases hlower
      have hvalues := h.values
      rw [hregs] at hvalues
      cases hvalues with
      | @cons _ x _ stack _ _ =>
        obtain ⟨insn, registers', written', hinsns, h'⟩ := h.neg hregs hemit
        exact ⟨insn, registers', written', _, hinsns, h', by simp, by rw [evalItems]⟩
  | add =>
    exact hbinary Arithmetic.add (by simp) (fun x y out => rfl) (fun x y stack => rfl) hlower
  | sub =>
    exact hbinary Arithmetic.sub (by simp) (fun x y out => rfl) (fun x y stack => rfl) hlower
  | mul =>
    exact hbinary Arithmetic.mul (by simp) (fun x y out => rfl) (fun x y stack => rfl) hlower
  | div =>
    exact hbinary Arithmetic.div (by simp) (fun x y out => rfl) (fun x y stack => rfl) hlower

theorem items_holding {cap : ℕ} (items : List (DsvExprItem D)) :
    ∀ {block : List Instruction} {registers : ℕ → QvmValue D} {written : Set ℕ}
      {s s' : ArithRegisters} {stack : List D} {b b' : DsvQvmBuilder D},
    Holding ctx start block registers written s stack →
    lowerItems b s items = some (b', s') → b'.operands <+: ctx.operands →
    (∀ col_idx, .ident col_idx ∈ items → col_idx < col_count) →
    stack.length + items.length ≤ cap →
    ∃ more registers' written' stack', b'.insns = b.insns ++ more ∧
      Holding ctx start (block ++ more) registers' written' s' stack' ∧
      evalItems col_count cap ctx.view items stack = some stack' := by
  induction items with
  | nil =>
    intro block registers written s s' stack b b' h hlower _ _ _
    cases hlower
    exact ⟨[], registers, written, stack, by simp, by simpa using h, rfl⟩
  | cons item items ih =>
    intro block registers written s s' stack b b' h hlower hp hcol hcap
    rw [List.length_cons] at hcap
    unfold lowerItems at hlower
    split at hlower
    · contradiction
    · rename_i mid t hitem
      obtain ⟨insn, registers₁, written₁, stack₁, hinsns₁, h₁, hlen, heval⟩ :=
        item_holding h hitem ((items_extends items hlower).operands.trans hp)
          (fun col_idx he => hcol col_idx (by simp [he])) (show stack.length < cap by omega) items
      have hcap₁ : stack₁.length + items.length ≤ cap := by omega
      obtain ⟨more, registers₂, written₂, stack₂, hinsns₂, h₂, heval₂⟩ :=
        ih h₁ hlower hp (fun col_idx hm => hcol col_idx (by simp [hm])) hcap₁
      refine ⟨insn::more, registers₂, written₂, stack₂, ?_, by simpa using h₂,
        heval.trans heval₂⟩
      rw [hinsns₂, hinsns₁, List.append_assoc, List.singleton_append]

end Arithmetic

section Clause
variable {D : Type}

theorem lower_arith_cases {b b' : DsvQvmBuilder D} {clause : DsvClause D}
    (h : dsv_qvm_lower_arith b clause = some b') :
    ∃ b₁ s reg i b₂ rhs t b₃, lowerItems b {} clause.lhs_expr = some (b₁, s) ∧ s.regs = [reg] ∧
      dsv_qvm_add_operand b₁ (.number clause.rhs_num) = some (i, b₂) ∧ s.take = some (rhs, t) ∧
      dsv_qvm_emit b₂ .loadConst rhs 0 i 0 = some b₃ ∧
      dsv_qvm_emit b₃ .cmp 0 clause.op.toNat reg rhs = some b' := by
  unfold dsv_qvm_lower_arith at h
  obtain ⟨⟨b₁, s⟩, hitems, h⟩ := Option.bind_eq_some_iff.mp h
  dsimp only at h
  split at h
  · rename_i reg hregs
    obtain ⟨⟨i, b₂⟩, hadd, h⟩ := Option.bind_eq_some_iff.mp h
    obtain ⟨⟨rhs, t⟩, htake, h⟩ := Option.bind_eq_some_iff.mp h
    obtain ⟨b₃, hload, h⟩ := Option.bind_eq_some_iff.mp h
    exact ⟨b₁, s, reg, i, b₂, rhs, t, b₃, hitems, hregs, hadd, htake, hload, h⟩
  · contradiction

theorem lower_simple_cases {b b' : DsvQvmBuilder D} {clause : DsvClause D}
    (h : dsv_qvm_lower_simple b clause = some b') :
    ∃ lhs b₁ rhs b₂,
      dsv_qvm_add_operand b (.column clause.col_idx !clause.rhs_is_string) = some (lhs, b₁) ∧
      dsv_qvm_add_operand b₁
        (if clause.rhs_is_string then .string clause.rhs_str else .number clause.rhs_num) =
          some (rhs, b₂) ∧
      dsv_qvm_emit b₂ (if clause.rhs_is_string then .cmpLeafString else .cmpLeafNumber) 0
        clause.op.toNat lhs rhs = some b' := by
  unfold dsv_qvm_lower_simple at h
  cases hstring : clause.rhs_is_string with
  | true =>
    rw [hstring, if_pos rfl] at h
    obtain ⟨⟨lhs, b₁⟩, hl, h⟩ := Option.bind_eq_some_iff.mp h
    obtain ⟨⟨rhs, b₂⟩, hr, h⟩ := Option.bind_eq_some_iff.mp h
    exact ⟨lhs, b₁, rhs, b₂, hl, hr, h⟩
  | false =>
    rw [hstring, if_neg Bool.false_ne_true] at h
    obtain ⟨⟨lhs, b₁⟩, hl, h⟩ := Option.bind_eq_some_iff.mp h
    obtain ⟨⟨rhs, b₂⟩, hr, h⟩ := Option.bind_eq_some_iff.mp h
    exact ⟨lhs, b₁, rhs, b₂, hl, hr, h⟩

theorem clause_extends {b b' : DsvQvmBuilder D} {clause : DsvClause D}
    (h : lowerClause b clause = some b') : Extends b b' := by
  unfold lowerClause at h
  split_ifs at h
  · obtain ⟨b₁, s, reg, i, b₂, rhs, t, b₃, hitems, -, hadd, -, hload, hcmp⟩ := lower_arith_cases h
    exact (items_extends _ hitems).trans ((add_operand_extends hadd).trans
      ((emit_extends hload).trans (emit_extends hcmp)))
  · obtain ⟨lhs, b₁, rhs, b₂, hl, hr, hemit⟩ := lower_simple_cases h
    exact (add_operand_extends hl).trans ((add_operand_extends hr).trans (emit_extends hemit))

theorem opOfNat_toNat (op : DsvOp) : opOfNat op.toNat = some op := by
  cases op <;> rfl

variable [Arithmetic D] [Comparison D]

/-- A block that leaves the truth of a clause in register 0, from any registers. -/
def Decides (ctx : DsvQvmCtx D) (block : List Instruction) (value : Bool) : Prop :=
  ∀ start, ∃ registers written, Straight ctx start block registers written ∧
    registers 0 = .bool value ∧ 0 ∈ written

theorem arith_decides {ctx : DsvQvmCtx D} {b b' : DsvQvmBuilder D} {clause : DsvClause D}
    {block : List Instruction} (hc : clause.Compiled col_count)
    (harith : clause.lhs_has_arith = true) (h : dsv_qvm_lower_arith b clause = some b')
    (hp : b'.operands <+: ctx.operands) (hblock : b'.insns = b.insns ++ block) :
    ∃ value, clauseHolds col_count clause ctx.view = some value ∧ Decides ctx block value := by
  obtain ⟨b₁, s, reg, i, b₂, rhs, t, b₃, hitems, hregs, hadd, htake, hload, hcmp⟩ :=
    lower_arith_cases h
  have hp₂ : b₂.operands <+: ctx.operands :=
    ((emit_extends hload).trans (emit_extends hcmp)).operands.trans hp
  have hp₁ := (add_operand_extends hadd).operands.trans hp₂
  have hi := operand_getElem hadd hp₂
  have hlen : i < ctx.operands.length := (List.getElem?_eq_some_iff.mp hi).1
  have hinsns : b'.insns = b₁.insns ++ [⟨opcodeByte .loadConst, 0, rhs, 0, i, 0⟩] ++
      [⟨opcodeByte .cmp, 0, 0, clause.op.toNat, reg, rhs⟩] := by
    rw [(emit_eq hcmp).1, (emit_eq hload).1, (add_operand_eq hadd).2.2]
  have hsimple : clause.lhs_is_simple_col = false := by simpa [harith] using hc.arith
  have hstring : clause.rhs_is_string = false := by
    cases hs : clause.rhs_is_string with
    | false => rfl
    | true => simpa [hsimple] using hc.text hs
  -- the native stack is as deep as the expression is long
  have hrun : ∀ start, ∃ registers written x,
      evalItems col_count (if clause.lhs_expr.length > 64 then clause.lhs_expr.length else 64)
        ctx.view clause.lhs_expr [] = some [x] ∧
      Straight ctx start block registers written ∧
      registers 0 = .bool (eval_num clause.op x clause.rhs_num) ∧ 0 ∈ written := by
    intro start
    obtain ⟨more, registers, written, stack, hmore, hh, heval⟩ :=
      items_holding clause.lhs_expr (holding_start ctx start) hitems hp₁ hc.items
        (show ([] : List D).length + clause.lhs_expr.length ≤
          if clause.lhs_expr.length > 64 then clause.lhs_expr.length else 64 by
            split_ifs <;> simp only [List.length_nil] <;> omega)
    have hvalues := hh.values
    rw [hregs] at hvalues
    obtain ⟨x, rfl, hx⟩ : ∃ x, stack = [x] ∧ registers reg = .number x := by
      cases hvalues with
      | @cons _ x _ _ hx hnil =>
        cases hnil
        exact ⟨x, rfl, hx⟩
    obtain ⟨hrhs, hnodup, -, -⟩ := hh.take htake
    have hne : reg ≠ rhs := by
      intro he
      rw [hregs, he] at hnodup
      simp at hnodup
    have hreg : reg ∈ written ∧ reg < QVM_MAX_REGISTERS :=
      ⟨hh.mem reg (by simp [hregs]), lt_of_lt_of_le (hh.bound reg (by simp [hregs])) hh.limit⟩
    have hstep := hh.straight.snoc (fit_load (.inr rfl) hrhs hlen)
      (writes_load (.inr rfl) (resolve_number hi .invalid) rhs registers)
    have hwrites : Writes ctx ⟨opcodeByte .cmp, 0, 0, clause.op.toNat, reg, rhs⟩
        (Function.update registers rhs (.number clause.rhs_num))
        (.bool (eval_num clause.op x clause.rhs_num)) := by
      refine writes_binary (by simp) (fun out => ?_) 0
      simp [Function.update_of_ne hne, hx, dsv_qvm_binary, evalNumArg, opOfNat_toNat]
    have hend := hstep.snoc (fit_binary (by simp) (by simp [QVM_MAX_REGISTERS])
      ⟨Set.mem_insert_of_mem _ hreg.1, hreg.2⟩ ⟨Set.mem_insert _ _, hrhs⟩) hwrites
    have hsame : block = more ++ [⟨opcodeByte .loadConst, 0, rhs, 0, i, 0⟩] ++
        [⟨opcodeByte .cmp, 0, 0, clause.op.toNat, reg, rhs⟩] := by
      rw [hmore, List.append_assoc, List.append_assoc, ← List.append_assoc more] at hinsns
      exact List.append_cancel_left (hblock.symm.trans hinsns)
    rw [hsame]
    exact ⟨_, _, x, heval, hend, Function.update_self .., Set.mem_insert _ _⟩
  obtain ⟨-, -, x, hx, -⟩ := hrun fun _ => .invalid
  have hne : clause.lhs_expr ≠ [] := by
    intro hnil
    rw [hnil] at hx
    simp [evalItems] at hx
  refine ⟨eval_num clause.op x clause.rhs_num, ?_, fun start => ?_⟩
  · simp [clauseHolds, hstring, eval_lhs_numeric_expr, hsimple, hne, hx]
  · obtain ⟨registers, written, y, hy, h₁, h₂, h₃⟩ := hrun start
    obtain rfl : y = x := by simpa using hy.symm.trans hx
    exact ⟨registers, written, h₁, h₂, h₃⟩

theorem simple_decides {ctx : DsvQvmCtx D} {b b' : DsvQvmBuilder D} {clause : DsvClause D}
    {block : List Instruction} (hc : clause.Compiled col_count)
    (harith : clause.lhs_has_arith = false) (h : dsv_qvm_lower_simple b clause = some b')
    (hp : b'.operands <+: ctx.operands) (hblock : b'.insns = b.insns ++ block) :
    ∃ value, clauseHolds col_count clause ctx.view = some value ∧ Decides ctx block value := by
  obtain ⟨lhs, b₁, rhs, b₂, hl, hr, hemit⟩ := lower_simple_cases h
  have hp₂ := (emit_extends hemit).operands.trans hp
  have hi := operand_getElem hl ((add_operand_extends hr).operands.trans hp₂)
  have hj := operand_getElem hr hp₂
  have hsimple : clause.lhs_is_simple_col = true := by simpa [harith] using hc.arith
  have hcol : ¬ clause.col_idx ≥ col_count := Nat.not_le_of_lt (hc.column hsimple)
  have hsame : block = [⟨opcodeByte (if clause.rhs_is_string then .cmpLeafString
      else .cmpLeafNumber), 0, 0, clause.op.toNat, lhs, rhs⟩] := by
    have hinsns := (emit_eq hemit).1
    rw [(add_operand_eq hr).2.2, (add_operand_eq hl).2.2] at hinsns
    exact List.append_cancel_left (hblock.symm.trans hinsns)
  have hlen := (List.getElem?_eq_some_iff.mp hi).1
  have hlen' := (List.getElem?_eq_some_iff.mp hj).1
  have hdecides : ∀ {op value}, op = .cmpLeafNumber ∨ op = .cmpLeafString →
      (∀ out, dsv_qvm_leaf ctx op clause.op.toNat lhs rhs out = (true, .bool value)) →
      Decides ctx [⟨opcodeByte op, 0, 0, clause.op.toNat, lhs, rhs⟩] value := fun hop hleaf start =>
    ⟨_, _, Straight.nil.snoc (fit_leaf hop hlen hlen') (writes_leaf hop hleaf 0),
      Function.update_self .., Set.mem_insert _ _⟩
  cases hstring : clause.rhs_is_string with
  | true =>
    refine ⟨eval_str clause.op (ctx.view.text clause.col_idx) clause.rhs_str, ?_, ?_⟩
    · simp [clauseHolds, hstring]
    · rw [hsame, hstring]
      refine hdecides (.inr rfl) fun out => ?_
      simp [dsv_qvm_leaf, dsv_qvm_resolve_value, hi, hj, hstring, evalStrArg, opOfNat_toNat]
      rfl
  | false =>
    refine ⟨eval_num clause.op (ctx.view.number clause.col_idx) clause.rhs_num, ?_, ?_⟩
    · simp [clauseHolds, hstring, eval_lhs_numeric_expr, hsimple, hcol]
    · rw [hsame, hstring]
      refine hdecides (.inl rfl) fun out => ?_
      simp [dsv_qvm_leaf, dsv_qvm_resolve_value, hi, hj, hstring, evalNumArg, opOfNat_toNat]

theorem clause_decides {b b' : DsvQvmBuilder D} {clause : DsvClause D}
    (hc : clause.Compiled col_count) (h : lowerClause b clause = some b') :
    ∃ block, b'.insns = b.insns ++ block ∧ ∀ ctx : DsvQvmCtx D, b'.operands <+: ctx.operands →
      ∃ value, clauseHolds col_count clause ctx.view = some value ∧ Decides ctx block value := by
  obtain ⟨block, hblock⟩ := (clause_extends h).insns
  refine ⟨block, hblock.symm, fun ctx hp => ?_⟩
  unfold lowerClause at h
  split_ifs at h with harith
  · exact arith_decides hc harith h hp hblock.symm
  · exact simple_decides hc (Bool.eq_false_iff.mpr harith) h hp hblock.symm

end Clause

end SaltsUtils.Dsv
