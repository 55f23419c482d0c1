import Mathlib.Tactic

/-!
# Programs of the register VM and their execution
-/

set_option autoImplicit false

/-!
## The register VM: instructions, verifier and executor

The format-neutral register VM of `query_vm.c`.
-/

namespace SaltsUtils.QueryVm

def QVM_MAX_REGISTERS : ℕ := 64
def QVM_NO_OPERAND : ℕ := 4294967295
def QVM_NO_INSTRUCTION : ℕ := 4294967295
def QVM_NO_OPCODE : ℕ := 255
def SIZE_MAX : ℕ := 18446744073709551615

inductive Opcode where
  | loadPath | loadConst | loadKey | loadIndex | loadInvalid | exists | length | count
  | cmp | cmpLeaf | cmpLeafNumber | cmpLeafString | notExists | match | contains
  | containsCi | matchFull | search | cmpLengthLeaf | cmpCountLeaf | add | sub | mul
  | div | mod | union | neg | not | jmpFalse | jmpTrue | jmp | true | false
  | band | bor | bxor | lshift | rshift | bnot | cat | select
  deriving DecidableEq

def opcodes : List Opcode :=
  [.loadPath, .loadConst, .loadKey, .loadIndex, .loadInvalid, .exists, .length, .count,
   .cmp, .cmpLeaf, .cmpLeafNumber, .cmpLeafString, .notExists, .match, .contains,
   .containsCi, .matchFull, .search, .cmpLengthLeaf, .cmpCountLeaf, .add, .sub, .mul,
   .div, .mod, .union, .neg, .not, .jmpFalse, .jmpTrue, .jmp, .true, .false,
   .band, .bor, .bxor, .lshift, .rshift, .bnot, .cat, .select]

structure Instruction where
  op : ℕ
  reserved : ℕ
  dst : ℕ
  arg : ℕ
  src1 : ℕ
  src2 : ℕ
  deriving DecidableEq

variable (insn : Instruction)

def Instruction.opcode : Option Opcode := opcodes[insn.op]?

inductive Status where
  | ok | invalidArgument | invalidProgram | unsupported | backendError | noMemory
  | resourceLimit | bufferTooSmall
  deriving DecidableEq

structure Diagnostic where
  status : Status
  instruction : ℕ
  opcode : ℕ
  operand : ℕ
  message : String
  deriving DecidableEq

structure Limits where
  maxInstructions : ℕ
  maxOperands : ℕ
  maxRegexes : ℕ
  maxSteps : ℕ
  deriving DecidableEq

def qvmDefaultLimits : Limits := ⟨1048576, 1048576, 65536, 1048576⟩

def qvmResolveLimits (limits : Option Limits) : Limits := limits.getD qvmDefaultLimits

def qvmFail {α : Type} (status : Status) (instruction opcode operand : ℕ)
    (message : String) : Except Diagnostic α :=
  .error ⟨status, instruction, opcode, operand, message⟩

theorem fail_else_ok {α : Type} (c : Prop) [Decidable c] (status : Status)
    (instruction opcode operand : ℕ) (message : String) (k : Except Diagnostic α) (x : α) :
    (if c then qvmFail status instruction opcode operand message else k) = .ok x ↔
      ¬ c ∧ k = .ok x := by
  by_cases h : c <;> simp [h, qvmFail]

def qvmWritesRegister (op : Opcode) : Bool :=
  op ≠ .jmpFalse && op ≠ .jmpTrue && op ≠ .jmp

def qvmIsBinary (op : Opcode) : Bool :=
  op ∈ [.cmp, .match, .contains, .containsCi, .matchFull, .search, .add, .sub, .mul, .div,
    .mod, .union, .band, .bor, .bxor, .lshift, .rshift, .cat]

def qvmIsLeaf (op : Opcode) : Bool :=
  op ∈ [.cmpLeaf, .cmpLeafNumber, .cmpLeafString, .cmpLengthLeaf, .cmpCountLeaf]

abbrev Mask := BitVec 64

/-- `initialized & (UINT64_C(1) << register)` as a truth value. -/
def Mask.has (mask : Mask) (register : ℕ) : Bool := mask &&& (1#64 <<< register) != 0#64

def qvmReadsUninitialized (op : Opcode) (insn : Instruction) (initialized : Mask) : Bool :=
  if qvmIsBinary op then
    !initialized.has insn.src1 || !initialized.has insn.src2
  else if op ∈ [.not, .neg, .bnot, .jmpFalse, .jmpTrue] then
    !initialized.has insn.src1
  else if op = .select then
    !initialized.has insn.src1 || !initialized.has insn.src2 || !initialized.has insn.arg
  else false

structure FlowArrays where
  states : ℕ → Mask
  reachable : ℕ → Bool

def qvmMergeState (successor : ℕ) (state : Mask) (a : FlowArrays) : FlowArrays :=
  if a.reachable successor then
    { a with states := Function.update a.states successor (a.states successor &&& state) }
  else
    { states := Function.update a.states successor state
      reachable := Function.update a.reachable successor true }

def qvmCheckInstruction (pc end_ registerCount operandCount regexCount : ℕ) :
    Except Diagnostic Unit :=
  match insn.opcode with
  | none => qvmFail .invalidProgram pc insn.op QVM_NO_OPERAND "unknown QVM opcode"
  | some op =>
    if insn.reserved ≠ 0 then
      qvmFail .invalidProgram pc insn.op insn.reserved "reserved instruction bits are nonzero"
    else if qvmWritesRegister op ∧ registerCount ≤ insn.dst then
      qvmFail .invalidProgram pc insn.op insn.dst "destination register is out of range"
    else if qvmIsBinary op ∧ (registerCount ≤ insn.src1 ∨ registerCount ≤ insn.src2) then
      qvmFail .invalidProgram pc insn.op
        (if registerCount ≤ insn.src1 then insn.src1 else insn.src2)
        "source register is out of range"
    else if op ∈ [.not, .neg, .bnot] ∧ registerCount ≤ insn.src1 then
      qvmFail .invalidProgram pc insn.op insn.src1 "unary source register is out of range"
    else if op = .select ∧ (registerCount ≤ insn.src1 ∨ registerCount ≤ insn.src2 ∨
        registerCount ≤ insn.arg) then
      qvmFail .invalidProgram pc insn.op
        (if registerCount ≤ insn.src1 then insn.src1 else insn.src2)
        "select source register is out of range"
    else if op ∈ [.loadPath, .loadConst, .exists, .count, .notExists] ∧
        operandCount ≤ insn.src1 then
      qvmFail .invalidProgram pc insn.op insn.src1 "operand is out of range"
    else if op = .length ∧ insn.src1 ≠ QVM_NO_OPERAND ∧ operandCount ≤ insn.src1 then
      qvmFail .invalidProgram pc insn.op insn.src1 "length operand is out of range"
    else if qvmIsLeaf op ∧ (operandCount ≤ insn.src2 ∨
        (op ≠ .cmpLengthLeaf ∧ operandCount ≤ insn.src1) ∨
        (op = .cmpLengthLeaf ∧ insn.src1 ≠ QVM_NO_OPERAND ∧ operandCount ≤ insn.src1)) then
      qvmFail .invalidProgram pc insn.op
        (if operandCount ≤ insn.src2 then insn.src2 else insn.src1)
        "leaf operand is out of range"
    else if op ∈ [.match, .matchFull, .search] ∧ insn.arg ≠ QVM_NO_OPERAND ∧
        regexCount ≤ insn.arg then
      qvmFail .invalidProgram pc insn.op insn.arg "regex operand is out of range"
    else if op ∈ [.jmpFalse, .jmpTrue] ∧ registerCount ≤ insn.src1 then
      qvmFail .invalidProgram pc insn.op insn.src1 "jump source register is out of range"
    else if op ∈ [.jmpFalse, .jmpTrue, .jmp] ∧ (insn.arg ≤ pc ∨ end_ < insn.arg) then
      qvmFail .invalidProgram pc insn.op insn.arg
        "jump target is not a forward in-range target"
    else .ok ()

/-- The first loop: `n` instructions starting at `pc`. -/
def qvmCheckSlice (instructions : ℕ → Instruction)
    (end_ registerCount operandCount regexCount : ℕ) : ℕ → ℕ → Except Diagnostic Unit
  | 0, _ => .ok ()
  | n+1, pc =>
    match qvmCheckInstruction (instructions pc) pc end_ registerCount operandCount regexCount with
    | .error d => .error d
    | .ok () => qvmCheckSlice instructions end_ registerCount operandCount regexCount n (pc+1)

def qvmFlowInstruction (offset pc : ℕ) (a : FlowArrays) : Except Diagnostic FlowArrays :=
  match insn.opcode with
  | none => .ok a
  | some op =>
    let relative := pc-offset
    let state := a.states relative
    if qvmReadsUninitialized op insn state then
      qvmFail .invalidProgram pc insn.op insn.src1
        "source register is not initialized on every path"
    else
      let state := if qvmWritesRegister op then state ||| (1#64 <<< insn.dst) else state
      if op = .jmp then
        .ok (qvmMergeState (insn.arg-offset) state a)
      else if op = .jmpFalse ∨ op = .jmpTrue then
        .ok (qvmMergeState (insn.arg-offset) state (qvmMergeState (relative+1) state a))
      else
        .ok (qvmMergeState (relative+1) state a)

/-- The second loop: `n` instructions starting at `pc`. -/
def qvmFlowSlice (instructions : ℕ → Instruction) (offset : ℕ) :
    ℕ → ℕ → FlowArrays → Except Diagnostic FlowArrays
  | 0, _, a => .ok a
  | n+1, pc, a =>
    if a.reachable (pc-offset) then
      match qvmFlowInstruction (instructions pc) offset pc a with
      | .error d => .error d
      | .ok a' => qvmFlowSlice instructions offset n (pc+1) a'
    else qvmFlowSlice instructions offset n (pc+1) a

/-- The zeroed arrays of the two `calloc` calls after `reachable[0] = 1`. -/
def flowStart : FlowArrays :=
  ⟨fun _ => 0#64, Function.update (fun _ => false) 0 true⟩

def qvmCheckBounds (instructionCount offset len registerCount operandCount regexCount : ℕ)
    (limits : Limits) : Except Diagnostic Unit :=
  if len = 0 ∨ registerCount = 0 ∨ QVM_MAX_REGISTERS < registerCount ∨
      instructionCount < offset ∨ instructionCount-offset < len then
    qvmFail .invalidArgument offset QVM_NO_OPCODE QVM_NO_OPERAND "invalid QVM program bounds"
  else if limits.maxInstructions < len then
    qvmFail .resourceLimit offset QVM_NO_OPCODE len "QVM instruction limit exceeded"
  else if limits.maxOperands < operandCount then
    qvmFail .resourceLimit offset QVM_NO_OPCODE operandCount "QVM operand limit exceeded"
  else if limits.maxRegexes < regexCount then
    qvmFail .resourceLimit offset QVM_NO_OPCODE regexCount "QVM regex limit exceeded"
  else .ok ()

/-- The dataflow pass with its allocations and its final test of register 0. -/
def qvmCheckFlow (callocStates callocReachable : Bool) (instructions : ℕ → Instruction)
    (offset len : ℕ) : Except Diagnostic Unit :=
  if SIZE_MAX ≤ len ∨ SIZE_MAX/8 < len+1 ∨ SIZE_MAX/1 < len+1 then
    qvmFail .noMemory offset QVM_NO_OPCODE len "QVM verifier state size overflows"
  else if !callocStates || !callocReachable then
    qvmFail .noMemory offset QVM_NO_OPCODE len "unable to allocate QVM verifier state"
  else
    match qvmFlowSlice instructions offset len offset flowStart with
    | .error d => .error d
    | .ok a =>
      if !a.reachable len || !(a.states len).has 0 then
        qvmFail .invalidProgram (offset+len) QVM_NO_OPCODE 0
          "result register is not initialized on every exit"
      else .ok ()

/-- `callocStates` and `callocReachable` say whether the two allocations succeed. -/
def qvmVerifySliceEx (callocStates callocReachable : Bool) (instructions : ℕ → Instruction)
    (instructionCount offset len registerCount operandCount regexCount : ℕ)
    (limits : Option Limits) : Except Diagnostic Unit :=
  match qvmCheckBounds instructionCount offset len registerCount operandCount regexCount
      (qvmResolveLimits limits) with
  | .error d => .error d
  | .ok () =>
    match qvmCheckSlice instructions (offset+len) registerCount operandCount regexCount
        len offset with
    | .error d => .error d
    | .ok () => qvmCheckFlow callocStates callocReachable instructions offset len

/-!
## The executor and what it lets an observer see

The backend is an arbitrary machine: each callback receives its private state and returns
the next one, so nothing restricts how answers depend on earlier calls. An out parameter
is passed with its old contents and returned with the new ones.
-/

/-- The common callbacks are always present; the others may be `NULL`. -/
structure ExecOps (σ V : Type) where
  resolve : σ → ℕ → V → (Bool × V) × σ
  truthy : σ → V → Bool × σ
  binary : σ → Opcode → ℕ → V → V → V → (Bool × V) × σ
  unary : Option (σ → Opcode → V → V → (Bool × V) × σ)
  exists? : Option (σ → ℕ → (Bool × ℤ) × σ)
  length : Option (σ → ℕ → V → (Bool × V) × σ)
  count : Option (σ → ℕ → V → (Bool × V) × σ)
  leaf : Option (σ → Opcode → ℕ → ℕ → ℕ → V → (Bool × V) × σ)
  makeInvalid : σ → V → V × σ
  makeBool : σ → ℤ → V → V × σ
  makeNumber : σ → ℤ → V → V × σ
  makeString : σ → List UInt8 → V → V × σ

structure ExecInput where
  arrayIndex : ℤ
  key : Option (List UInt8)
  deriving DecidableEq

inductive Event (V : Type) where
  | step (pc : ℕ)
  | read (register : ℕ)
  | write (register : ℕ) (value : V)
  | operand (op : Opcode) (index : ℕ)
  | regex (index : ℕ)
  deriving DecidableEq

structure Machine (σ V : Type) where
  backend : σ
  registers : ℕ → V
  events : List (Event V)

variable {σ V : Type}

namespace Machine

def emit (m : Machine σ V) (es : List (Event V)) : Machine σ V :=
  { m with events := m.events ++ es }

/-- A callback has left `v` in register `r` and the backend in state `b`. -/
def store (m : Machine σ V) (b : σ) (r : ℕ) (v : V) : Machine σ V :=
  { backend := b, registers := Function.update m.registers r v,
    events := m.events ++ [.write r v] }

def setBackend (m : Machine σ V) (b : σ) : Machine σ V := { m with backend := b }

end Machine

def qvmValidateExecInstruction (pc end_ : ℕ) : Except Diagnostic Opcode :=
  match insn.opcode with
  | none => qvmFail .invalidProgram pc insn.op QVM_NO_OPERAND "unknown QVM opcode"
  | some op =>
    if insn.reserved ≠ 0 then
      qvmFail .invalidProgram pc insn.op insn.reserved "reserved instruction bits are nonzero"
    else if qvmWritesRegister op ∧ QVM_MAX_REGISTERS ≤ insn.dst then
      qvmFail .invalidProgram pc insn.op insn.dst "destination register is out of range"
    else if qvmIsBinary op ∧ (QVM_MAX_REGISTERS ≤ insn.src1 ∨ QVM_MAX_REGISTERS ≤ insn.src2) then
      qvmFail .invalidProgram pc insn.op
        (if QVM_MAX_REGISTERS ≤ insn.src1 then insn.src1 else insn.src2)
        "source register is out of range"
    else if op ∈ [.not, .neg, .bnot, .jmpFalse, .jmpTrue] ∧ QVM_MAX_REGISTERS ≤ insn.src1 then
      qvmFail .invalidProgram pc insn.op insn.src1 "source register is out of range"
    else if op = .select ∧ (QVM_MAX_REGISTERS ≤ insn.src1 ∨ QVM_MAX_REGISTERS ≤ insn.src2 ∨
        QVM_MAX_REGISTERS ≤ insn.arg) then
      qvmFail .invalidProgram pc insn.op
        (if QVM_MAX_REGISTERS ≤ insn.src1 then insn.src1 else insn.src2)
        "select source register is out of range"
    else if op ∈ [.jmpFalse, .jmpTrue, .jmp] ∧ (insn.arg ≤ pc ∨ end_ < insn.arg) then
      qvmFail .invalidProgram pc insn.op insn.arg
        "jump target is not a forward in-range target"
    else .ok op

def qvmExecLeaf (ops : ExecOps σ V) (op : Opcode) (insn : Instruction) (dst : ℕ)
    (m : Machine σ V) : Status × Machine σ V :=
  match ops.leaf with
  | none => (.unsupported, m)
  | some leaf =>
    let m := m.emit [.operand op insn.src1, .operand op insn.src2]
    let r := leaf m.backend op insn.arg insn.src1 insn.src2 (m.registers dst)
    (if r.1.1 then .ok else .backendError, m.store r.2 dst r.1.2)

def qvmStoreExists (ops : ExecOps σ V) (op : Opcode) (operand : ℕ) (invert : Bool) (dst : ℕ)
    (m : Machine σ V) : Status × Machine σ V :=
  match ops.exists? with
  | none => (.backendError, m)
  | some exists_ =>
    let m := m.emit [.operand op operand]
    let e := exists_ m.backend operand
    if e.1.1 then
      let flag := if invert then (if e.1.2 = 0 then 1 else 0) else e.1.2
      let r := ops.makeBool e.2 flag (m.registers dst)
      (.ok, m.store r.2 dst r.1)
    else (.backendError, m.setBackend e.2)

def storeResult (insn : Instruction) (pc operand : ℕ) (message : String) (r : (Bool × V) × σ)
    (m : Machine σ V) : Except Diagnostic ℕ × Machine σ V :=
  (if r.1.1 then .ok (pc+1)
   else qvmFail .backendError pc insn.op operand message, m.store r.2 insn.dst r.1.2)

/-- The status of a helper turned into the next program counter or a failure. -/
def continueWith (insn : Instruction) (pc : ℕ) (message : String) (r : Status × Machine σ V) :
    Except Diagnostic ℕ × Machine σ V :=
  (if r.1 = .ok then .ok (pc+1) else qvmFail r.1 pc insn.op insn.src1 message, r.2)

def qvmExecInstruction (ops : ExecOps σ V) [Zero V] (input : Option ExecInput) (pc : ℕ)
    (insn : Instruction) (op : Opcode) (m : Machine σ V) :
    Except Diagnostic ℕ × Machine σ V :=
  match op with
  | .loadPath | .loadConst =>
    let m := m.emit [.operand op insn.src1]
    let r := ops.resolve m.backend insn.src1 0
    if r.1.1 then (.ok (pc+1), m.store r.2 insn.dst r.1.2)
    else
      let i := ops.makeInvalid r.2 r.1.2
      (.ok (pc+1), m.store i.2 insn.dst i.1)
  | .loadKey =>
    let r := match input.bind ExecInput.key with
      | some key => ops.makeString m.backend key (m.registers insn.dst)
      | none => ops.makeInvalid m.backend (m.registers insn.dst)
    (.ok (pc+1), m.store r.2 insn.dst r.1)
  | .loadIndex =>
    let r := match input with
      | some i =>
        if 0 ≤ i.arrayIndex then
          ops.makeNumber m.backend i.arrayIndex (m.registers insn.dst)
        else ops.makeInvalid m.backend (m.registers insn.dst)
      | none => ops.makeInvalid m.backend (m.registers insn.dst)
    (.ok (pc+1), m.store r.2 insn.dst r.1)
  | .loadInvalid =>
    let r := ops.makeInvalid m.backend (m.registers insn.dst)
    (.ok (pc+1), m.store r.2 insn.dst r.1)
  | .exists | .notExists =>
    continueWith insn pc "QVM exists backend failed"
      (qvmStoreExists ops op insn.src1 (op = .notExists) insn.dst m)
  | .length =>
    match ops.length with
    | none => (qvmFail .backendError pc insn.op insn.src1 "QVM length backend failed", m)
    | some length =>
      let m := m.emit [.operand op insn.src1]
      storeResult insn pc insn.src1 "QVM length backend failed"
        (length m.backend insn.src1 (m.registers insn.dst)) m
  | .count =>
    match ops.count with
    | none => (qvmFail .backendError pc insn.op insn.src1 "QVM count backend failed", m)
    | some count =>
      let m := m.emit [.operand op insn.src1]
      storeResult insn pc insn.src1 "QVM count backend failed"
        (count m.backend insn.src1 (m.registers insn.dst)) m
  | .cmpLeaf | .cmpLeafNumber | .cmpLeafString | .cmpLengthLeaf | .cmpCountLeaf =>
    continueWith insn pc "QVM leaf backend failed" (qvmExecLeaf ops op insn insn.dst m)
  | .match | .matchFull | .search =>
    let m := m.emit [.read insn.src1, .read insn.src2, .regex insn.arg]
    storeResult insn pc insn.arg "QVM binary backend failed"
      (ops.binary m.backend op insn.arg (m.registers insn.src1) (m.registers insn.src2)
        (m.registers insn.dst)) m
  | .cmp | .contains | .containsCi | .add | .sub | .mul | .div | .mod | .union | .band
  | .bor | .bxor | .lshift | .rshift | .cat =>
    let m := m.emit [.read insn.src1, .read insn.src2]
    storeResult insn pc insn.arg "QVM binary backend failed"
      (ops.binary m.backend op insn.arg (m.registers insn.src1) (m.registers insn.src2)
        (m.registers insn.dst)) m
  | .neg | .bnot =>
    match ops.unary with
    | none => (qvmFail .backendError pc insn.op insn.src1 "QVM unary backend failed", m)
    | some unary =>
      let m := m.emit [.read insn.src1]
      storeResult insn pc insn.src1 "QVM unary backend failed"
        (unary m.backend op (m.registers insn.src1) (m.registers insn.dst)) m
  | .select =>
    let m := m.emit [.read insn.src1]
    let t := ops.truthy m.backend (m.registers insn.src1)
    let source := if t.1 then insn.src2 else insn.arg
    let m := m.emit [.read source]
    (.ok (pc+1), m.store t.2 insn.dst (m.registers source))
  | .not =>
    let m := m.emit [.read insn.src1]
    let t := ops.truthy m.backend (m.registers insn.src1)
    let r := ops.makeBool t.2 (if t.1 then 0 else 1) (m.registers insn.dst)
    (.ok (pc+1), m.store r.2 insn.dst r.1)
  | .jmpFalse =>
    let m := m.emit [.read insn.src1]
    let t := ops.truthy m.backend (m.registers insn.src1)
    (.ok (if t.1 then pc+1 else insn.arg), m.setBackend t.2)
  | .jmpTrue =>
    let m := m.emit [.read insn.src1]
    let t := ops.truthy m.backend (m.registers insn.src1)
    (.ok (if t.1 then insn.arg else pc+1), m.setBackend t.2)
  | .jmp => (.ok insn.arg, m)
  | .true =>
    let r := ops.makeBool m.backend 1 (m.registers insn.dst)
    (.ok (pc+1), m.store r.2 insn.dst r.1)
  | .false =>
    let r := ops.makeBool m.backend 0 (m.registers insn.dst)
    (.ok (pc+1), m.store r.2 insn.dst r.1)

def readOut (m : Machine σ V) : Except Diagnostic V × Machine σ V :=
  (.ok (m.registers 0), m.emit [.read 0])

def qvmExecLoop (instructions : ℕ → Instruction) (ops : ExecOps σ V) [Zero V]
    (input : Option ExecInput) (end_ maxSteps : ℕ) :
    ℕ → ℕ → Machine σ V → Except Diagnostic V × Machine σ V
  | budget, pc, m =>
    if end_ ≤ pc then readOut m
    else
      match qvmValidateExecInstruction (instructions pc) pc end_ with
      | .error d => (.error d, m)
      | .ok op =>
        match budget with
        | 0 => (qvmFail .resourceLimit pc (instructions pc).op maxSteps
            "QVM execution step limit exceeded", m)
        | budget+1 =>
          match qvmExecInstruction ops input pc (instructions pc) op (m.emit [.step pc]) with
          | (.error d, m') => (.error d, m')
          | (.ok pc', m') => qvmExecLoop instructions ops input end_ maxSteps budget pc' m'

/-- A helper result of the single-instruction path, stored in register 0. -/
def returnWith (insn : Instruction) (pc : ℕ) (message : String) (r : Status × Machine σ V) :
    Except Diagnostic V × Machine σ V :=
  if r.1 = .ok then readOut r.2 else (qvmFail r.1 pc insn.op insn.src1 message, r.2)

def qvmExecSingle (ops : ExecOps σ V) (offset : ℕ) (insn : Instruction) (op : Opcode)
    (m : Machine σ V) : Option (Except Diagnostic V × Machine σ V) :=
  if qvmIsLeaf op then
    some (returnWith insn offset "QVM leaf backend failed" (qvmExecLeaf ops op insn 0 m))
  else if op = .exists ∨ op = .notExists then
    some (returnWith insn offset "QVM exists backend failed"
      (qvmStoreExists ops op insn.src1 (op = .notExists) 0 m))
  else if op = .true ∨ op = .false then
    let r := ops.makeBool m.backend (if op = .true then 1 else 0) (m.registers 0)
    some (readOut (m.store r.2 0 r.1))
  else none

def qvmExecuteEx (instructions : ℕ → Instruction) (instructionCount offset len : ℕ)
    (ops : ExecOps σ V) [Zero V] (ctx : σ) (input : Option ExecInput)
    (limits : Option Limits) : Except Diagnostic V × Machine σ V :=
  let limits := qvmResolveLimits limits
  let m : Machine σ V := ⟨ctx, fun _ => 0, []⟩
  if len = 0 ∨ instructionCount < offset ∨ instructionCount-offset < len then
    (qvmFail .invalidArgument offset QVM_NO_OPCODE QVM_NO_OPERAND
      "invalid QVM execution arguments", m)
  else if limits.maxInstructions < len then
    (qvmFail .resourceLimit offset QVM_NO_OPCODE len "QVM instruction limit exceeded", m)
  else
    let loop := qvmExecLoop instructions ops input (offset+len) limits.maxSteps
      limits.maxSteps offset m
    if len = 1 then
      match qvmValidateExecInstruction (instructions offset) offset (offset+len) with
      | .error d => (.error d, m)
      | .ok op =>
        if limits.maxSteps = 0 then
          (qvmFail .resourceLimit offset (instructions offset).op 0
            "QVM execution step limit exceeded", m)
        else
          (qvmExecSingle ops offset (instructions offset) op (m.emit [.step offset])).getD loop
    else loop

end SaltsUtils.QueryVm
