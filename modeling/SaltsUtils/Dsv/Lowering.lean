import SaltsUtils.Dsv.Filter
import SaltsUtils.QueryVm.Execute

/-!
# Lowering a filter to the register VM

`dsv_lower_to_qvm` of `src/parser/csv_parser/src/dsv_filter.c` and the callbacks with
which the VM runs the result.
-/

set_option autoImplicit false

namespace SaltsUtils.Dsv

open SaltsUtils.Csv (Bytes)
open SaltsUtils.QueryVm

def QVM_DEFAULT_MAX_INSTRUCTIONS : ℕ := 1048576
def QVM_DEFAULT_MAX_OPERANDS : ℕ := 1048576

inductive DsvOperand (D : Type)
  | column (col_idx : ℕ) (as_number : Bool)
  | number (num : D)
  | string (str : Bytes)
deriving DecidableEq

structure DsvQvmBuilder (D : Type) where
  insns : List Instruction := []
  capacity : ℕ := 0
  operands : List (DsvOperand D) := []
  operand_capacity : ℕ := 0
deriving DecidableEq

def opcodeByte (op : Opcode) : ℕ := opcodes.idxOf op

/-- The number of an operator in the enumeration. -/
def DsvOp.toNat : DsvOp → ℕ
  | .eq => 0
  | .ne => 1
  | .gt => 2
  | .ge => 3
  | .lt => 4
  | .le => 5

section Builder
variable {D : Type}

def growCapacity (count capacity first limit : ℕ) : Option ℕ :=
  if count = capacity then
    let new_capacity := if capacity = 0 then first else capacity * 2
    if new_capacity > limit then none else some new_capacity
  else some capacity

variable (builder : DsvQvmBuilder D)

def dsv_qvm_emit (op : Opcode) (dst arg src1 src2 : ℕ) : Option (DsvQvmBuilder D) :=
  (growCapacity builder.insns.length builder.capacity 32 QVM_DEFAULT_MAX_INSTRUCTIONS).map
    fun capacity =>
      { builder with
        insns := builder.insns ++ [⟨opcodeByte op, 0, dst, arg, src1, src2⟩]
        capacity := capacity }

def dsv_qvm_add_operand (operand : DsvOperand D) : Option (ℕ × DsvQvmBuilder D) :=
  (growCapacity builder.operands.length builder.operand_capacity 8 QVM_DEFAULT_MAX_OPERANDS).map
    fun capacity =>
      (builder.operands.length,
        { builder with operands := builder.operands ++ [operand], operand_capacity := capacity })

structure ArithRegisters where
  regs : List ℕ := []
  free_regs : List ℕ := []
  next_reg : ℕ := 1
deriving DecidableEq

def ArithRegisters.take (s : ArithRegisters) : Option (ℕ × ArithRegisters) :=
  match s.free_regs with
  | reg::free_regs => some (reg, { s with free_regs := free_regs })
  | [] =>
    if s.next_reg < QVM_MAX_REGISTERS then some (s.next_reg, { s with next_reg := s.next_reg + 1 })
    else none

def lowerLoad (s : ArithRegisters) (op : Opcode) (operand : DsvOperand D) :
    Option (DsvQvmBuilder D × ArithRegisters) := do
  if s.regs.length ≥ QVM_MAX_REGISTERS then none
  else
    let (reg, s) ← s.take
    let (index, builder) ← dsv_qvm_add_operand builder operand
    let builder ← dsv_qvm_emit builder op reg 0 index 0
    some (builder, { s with regs := reg::s.regs })

/-- The right operand of a binary operator is set free, and the left one takes the result. -/
def lowerBinary (s : ArithRegisters) (op : Opcode) : Option (DsvQvmBuilder D × ArithRegisters) :=
  match s.regs with
  | rhs::lhs::regs => do
    let free_regs :=
      if s.free_regs.length < QVM_MAX_REGISTERS then rhs::s.free_regs else s.free_regs
    let builder ← dsv_qvm_emit builder op lhs 0 lhs rhs
    some (builder, { s with regs := lhs::regs, free_regs := free_regs })
  | _ => none

def lowerItem (s : ArithRegisters) : DsvExprItem D → Option (DsvQvmBuilder D × ArithRegisters)
  | .number num => lowerLoad builder s .loadConst (.number num)
  | .ident col_idx => lowerLoad builder s .loadPath (.column col_idx true)
  | .neg =>
    match s.regs with
    | [] => none
    | reg::_ => (dsv_qvm_emit builder .neg reg 0 reg 0).map (·, s)
  | .add => lowerBinary builder s .add
  | .sub => lowerBinary builder s .sub
  | .mul => lowerBinary builder s .mul
  | .div => lowerBinary builder s .div

def lowerItems : DsvQvmBuilder D → ArithRegisters → List (DsvExprItem D) →
    Option (DsvQvmBuilder D × ArithRegisters)
  | builder, s, [] => some (builder, s)
  | builder, s, item::rest =>
    match lowerItem builder s item with
    | none => none
    | some (builder, s) => lowerItems builder s rest

def dsv_qvm_lower_arith (clause : DsvClause D) : Option (DsvQvmBuilder D) := do
  let (builder, s) ← lowerItems builder {} clause.lhs_expr
  match s.regs with
  | [reg] =>
    let (index, builder) ← dsv_qvm_add_operand builder (.number clause.rhs_num)
    let (rhs_reg, _) ← s.take
    let builder ← dsv_qvm_emit builder .loadConst rhs_reg 0 index 0
    dsv_qvm_emit builder .cmp 0 clause.op.toNat reg rhs_reg
  | _ => none

def dsv_qvm_lower_simple (clause : DsvClause D) : Option (DsvQvmBuilder D) := do
  if clause.rhs_is_string then
    let (lhs, builder) ← dsv_qvm_add_operand builder (.column clause.col_idx false)
    let (rhs, builder) ← dsv_qvm_add_operand builder (.string clause.rhs_str)
    dsv_qvm_emit builder .cmpLeafString 0 clause.op.toNat lhs rhs
  else
    let (lhs, builder) ← dsv_qvm_add_operand builder (.column clause.col_idx true)
    let (rhs, builder) ← dsv_qvm_add_operand builder (.number clause.rhs_num)
    dsv_qvm_emit builder .cmpLeafNumber 0 clause.op.toNat lhs rhs

def lowerClause (clause : DsvClause D) : Option (DsvQvmBuilder D) :=
  if clause.lhs_has_arith then dsv_qvm_lower_arith builder clause
  else dsv_qvm_lower_simple builder clause

def patchJump (pending_jump : Option ℕ) : DsvQvmBuilder D :=
  match pending_jump with
  | none => builder
  | some jump =>
    { builder with
      insns := builder.insns.modify jump fun insn => { insn with arg := builder.insns.length } }

/-- The jump that skips clause `i + 1`. -/
def joinOpcode (joins : List DsvJoin) (i : ℕ) : Opcode :=
  if joins[i]? = some .and then .jmpFalse else .jmpTrue

def lowerClauses (joins : List DsvJoin) : ℕ → DsvQvmBuilder D → Option ℕ → List (DsvClause D) →
    Option (DsvQvmBuilder D)
  | _, builder, pending_jump, [] => some (patchJump builder pending_jump)
  | i, builder, pending_jump, clause::rest => do
    let builder ← lowerClause builder clause
    let builder := patchJump builder pending_jump
    if rest = [] then lowerClauses joins (i + 1) builder none rest
    else
      let builder ← dsv_qvm_emit builder (joinOpcode joins i) 0 0 0 0
      lowerClauses joins (i + 1) builder (some (builder.insns.length - 1)) rest

def Instruction.needs (insn : Instruction) : List ℕ :=
  (if insn.op ≠ opcodeByte .jmp ∧ insn.op ≠ opcodeByte .jmpFalse ∧ insn.op ≠ opcodeByte .jmpTrue
    then [insn.dst] else []) ++
  (if insn.op ∈ [Opcode.cmp, .add, .sub, .mul, .div].map opcodeByte
    then [insn.src1, insn.src2] else []) ++
  (if insn.op ∈ [Opcode.neg, .jmpFalse, .jmpTrue].map opcodeByte then [insn.src1] else [])

def dsv_qvm_register_count (insns : List Instruction) : ℕ :=
  let max_register := (insns.flatMap Instruction.needs).foldl (fun count reg => max count (reg + 1)) 1
  min max_register QVM_MAX_REGISTERS

def buildSlice (filter : DsvFilter D) : Option (DsvQvmBuilder D) :=
  match lowerClauses filter.joins 0 {} none filter.clauses with
  | none => none
  | some builder => if builder.insns = [] ∨ builder.operands = [] then none else some builder

/-- An instruction of a slice. -/
def fetch (insns : List Instruction) (pc : ℕ) : Instruction := (insns[pc]?).getD ⟨0, 0, 0, 0, 0, 0⟩

def verifySlice (limits : Option Limits) : Except Diagnostic Unit :=
  qvmVerifySliceEx true true (fetch builder.insns) builder.insns.length 0 builder.insns.length
    (dsv_qvm_register_count builder.insns) builder.operands.length 0 limits

structure LoweredFilter (D : Type) where
  expr_vm : List Instruction
  operands : List (DsvOperand D)
  qvm_limits : Limits
deriving DecidableEq

/-- Nothing for a return value of 0. -/
def dsv_lower_to_qvm (filter : DsvFilter D) (limits : Option Limits) : Option (LoweredFilter D) :=
  match buildSlice filter with
  | none => none
  | some builder =>
    match verifySlice builder limits with
    | .error _ => none
    | .ok () => some ⟨builder.insns, builder.operands, qvmResolveLimits limits⟩

end Builder

inductive QvmValue (D : Type)
  | invalid
  | number (value : D)
  | string (value : Bytes)
  | bool (value : Bool)
deriving DecidableEq

instance {D : Type} : Zero (QvmValue D) := ⟨.invalid⟩

structure DsvQvmCtx (D : Type) where
  operands : List (DsvOperand D)
  view : RowView D

section Callbacks
variable {D : Type} [Arithmetic D] [Comparison D]

def dsv_qvm_resolve_value (ctx : DsvQvmCtx D) (operand : ℕ) (out : QvmValue D) :
    Bool × QvmValue D :=
  match ctx.operands[operand]? with
  | none => (false, out)
  | some (.column col_idx true) => (true, .number (ctx.view.number col_idx))
  | some (.column col_idx false) => (true, .string ((ctx.view.text col_idx).getD []))
  | some (.number num) => (true, .number num)
  | some (.string str) => (true, .string str)

def dsv_qvm_truthy : QvmValue D → Bool
  | .bool value => value
  | .number value => !Comparison.same value (Arithmetic.ofNat 0)
  | .string value => value.length > 0
  | .invalid => false

/-- The conversion of an argument to an operator. -/
def opOfNat (arg : ℕ) : Option DsvOp := [DsvOp.eq, .ne, .gt, .ge, .lt, .le][arg]?

def evalNumArg (arg : ℕ) (lhs rhs : D) : Bool := (opOfNat arg).any (eval_num · lhs rhs)

def evalStrArg (arg : ℕ) (lhs rhs : Bytes) : Bool := (opOfNat arg).any (eval_str · (some lhs) rhs)

def dsv_qvm_binary (op : Opcode) (arg : ℕ) (left right out : QvmValue D) : Bool × QvmValue D :=
  match op, left, right with
  | .add, .number lhs, .number rhs => (true, .number (Arithmetic.add lhs rhs))
  | .sub, .number lhs, .number rhs => (true, .number (Arithmetic.sub lhs rhs))
  | .mul, .number lhs, .number rhs => (true, .number (Arithmetic.mul lhs rhs))
  | .div, .number lhs, .number rhs => (true, .number (Arithmetic.div lhs rhs))
  | .cmp, .number lhs, .number rhs => (true, .bool (evalNumArg arg lhs rhs))
  | .cmp, .string lhs, .string rhs => (true, .bool (evalStrArg arg lhs rhs))
  | _, _, _ => (false, out)

def dsv_qvm_unary (op : Opcode) (input out : QvmValue D) : Bool × QvmValue D :=
  match op, input with
  | .neg, .number value => (true, .number (Arithmetic.neg value))
  | _, _ => (false, out)

def dsv_qvm_leaf (ctx : DsvQvmCtx D) (op : Opcode) (arg src1 src2 : ℕ) (out : QvmValue D) :
    Bool × QvmValue D :=
  if op ≠ .cmpLeafNumber ∧ op ≠ .cmpLeafString then (false, out)
  else
    match dsv_qvm_resolve_value ctx src1 .invalid, dsv_qvm_resolve_value ctx src2 .invalid with
    | (true, lhs), (true, rhs) =>
      match op, lhs, rhs with
      | .cmpLeafNumber, .number lhs, .number rhs => (true, .bool (evalNumArg arg lhs rhs))
      | .cmpLeafString, .string lhs, .string rhs => (true, .bool (evalStrArg arg lhs rhs))
      | _, _, _ => (false, out)
    | _, _ => (false, out)

def dsv_qvm_ops : ExecOps (DsvQvmCtx D) (QvmValue D) where
  resolve ctx operand out := (dsv_qvm_resolve_value ctx operand out, ctx)
  truthy ctx value := (dsv_qvm_truthy value, ctx)
  binary ctx op arg left right out := (dsv_qvm_binary op arg left right out, ctx)
  unary := some fun ctx op input out => (dsv_qvm_unary op input out, ctx)
  exists? := none
  length := none
  count := none
  leaf := some fun ctx op arg src1 src2 out => (dsv_qvm_leaf ctx op arg src1 src2 out, ctx)
  makeInvalid ctx _ := (.invalid, ctx)
  makeBool ctx value _ := (.bool (value ≠ 0), ctx)
  makeNumber ctx value _ := (.number (Arithmetic.ofNat value.toNat), ctx)
  makeString ctx value _ := (.string value, ctx)

/-- The result of the VM, or its diagnostic. -/
def dsv_qvm_run (filter : LoweredFilter D) (view : RowView D) : Except Diagnostic (QvmValue D) :=
  (qvmExecuteEx (fetch filter.expr_vm) filter.expr_vm.length 0 filter.expr_vm.length dsv_qvm_ops
    ⟨filter.operands, view⟩ none (some filter.qvm_limits)).1

def checkFilter (filter : DsvFilter D) (lowered : Option (LoweredFilter D)) (view : RowView D) :
    Option Bool :=
  match lowered with
  | none => checkNative filter view
  | some lowered =>
    match dsv_qvm_run lowered view with
    | .error _ => none
    | .ok result => some (dsv_qvm_truthy result)

def dsv_filter_check_values (filter : DsvFilter D) (lowered : Option (LoweredFilter D))
    (fields : List Bytes) : Option Bool :=
  checkFilter filter lowered (valuesView fields)

def dsv_filter_check_row (strtod : Bytes → D) (filter : DsvFilter D)
    (lowered : Option (LoweredFilter D)) (doc : SaltsUtils.Csv.CsvDoc) (row_index : ℕ) :
    Option Bool :=
  if row_index ≥ doc.row_count then none
  else checkFilter filter lowered (docView strtod doc row_index)

end Callbacks

end SaltsUtils.Dsv
