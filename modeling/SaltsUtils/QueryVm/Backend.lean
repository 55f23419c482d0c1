import Mathlib.Data.Option.Basic
import SaltsUtils.QueryVm.Execute

/-!
# Programs do not see how a backend is represented

Two sets of callbacks whose states are related by a function, and which answer
alike, let a program do the same. The executor hands the state from one callback
to the next and never looks at it.
-/

set_option autoImplicit false

namespace SaltsUtils.QueryVm

variable {σ τ V : Type}

def carry {α : Type} (f : σ → τ) (r : α × σ) : α × τ := (r.1, f r.2)

/-- The callbacks of both sides answer alike on states related by `f`, and keep them related. -/
structure Commutes (f : σ → τ) (ops : ExecOps σ V) (ops' : ExecOps τ V) : Prop where
  resolve : ∀ s i v, ops'.resolve (f s) i v = carry f (ops.resolve s i v)
  truthy : ∀ s v, ops'.truthy (f s) v = carry f (ops.truthy s v)
  binary : ∀ s op arg l r v, ops'.binary (f s) op arg l r v = carry f (ops.binary s op arg l r v)
  unary : Option.Rel (fun u u' => ∀ s op x v, u' (f s) op x v = carry f (u s op x v))
    ops.unary ops'.unary
  exists? : Option.Rel (fun e e' => ∀ s i, e' (f s) i = carry f (e s i)) ops.exists? ops'.exists?
  length : Option.Rel (fun l l' => ∀ s i v, l' (f s) i v = carry f (l s i v)) ops.length ops'.length
  count : Option.Rel (fun c c' => ∀ s i v, c' (f s) i v = carry f (c s i v)) ops.count ops'.count
  leaf : Option.Rel (fun l l' => ∀ s op arg x y v,
    l' (f s) op arg x y v = carry f (l s op arg x y v)) ops.leaf ops'.leaf
  makeInvalid : ∀ s v, ops'.makeInvalid (f s) v = carry f (ops.makeInvalid s v)
  makeBool : ∀ s b v, ops'.makeBool (f s) b v = carry f (ops.makeBool s b v)
  makeNumber : ∀ s n v, ops'.makeNumber (f s) n v = carry f (ops.makeNumber s n v)
  makeString : ∀ s t v, ops'.makeString (f s) t v = carry f (ops.makeString s t v)

def Machine.map (f : σ → τ) (m : Machine σ V) : Machine τ V := ⟨f m.backend, m.registers, m.events⟩

section Machine
variable (f : σ → τ) (m : Machine σ V)

@[simp] theorem map_backend : (m.map f).backend = f m.backend := rfl

@[simp] theorem map_registers : (m.map f).registers = m.registers := rfl

@[simp] theorem map_emit (es : List (Event V)) : (m.map f).emit es = (m.emit es).map f := rfl

@[simp] theorem map_store (b : σ) (r : ℕ) (v : V) :
    (m.map f).store (f b) r v = (m.store b r v).map f := rfl

@[simp] theorem map_setBackend (b : σ) : (m.map f).setBackend (f b) = (m.setBackend b).map f := rfl

end Machine

def carried {α : Type} (f : σ → τ) (r : α × Machine σ V) : α × Machine τ V := (r.1, r.2.map f)

theorem rel_cases {α β : Type} {r : α → β → Prop} {a : Option α} {b : Option β}
    (h : Option.Rel r a b) : (a = none ∧ b = none) ∨ ∃ x y, a = some x ∧ b = some y ∧ r x y := by
  cases h with
  | none => exact .inl ⟨rfl, rfl⟩
  | some h => exact .inr ⟨_, _, rfl, rfl, h⟩

section Results
variable {f : σ → τ}

theorem continue_carried (insn : Instruction) (pc : ℕ) (message : String)
    (r : Status × Machine σ V) : continueWith insn pc message (carried f r) =
      carried f (continueWith insn pc message r) := rfl

end Results

section Runs
variable {f : σ → τ} {ops : ExecOps σ V} {ops' : ExecOps τ V} (h : Commutes f ops ops')
include h

theorem leaf_carried (op : Opcode) (insn : Instruction) (dst : ℕ) (m : Machine σ V) :
    qvmExecLeaf ops' op insn dst (m.map f) = carried f (qvmExecLeaf ops op insn dst m) := by
  unfold qvmExecLeaf
  rcases rel_cases h.leaf with ⟨hl, hl'⟩ | ⟨leaf, leaf', hl, hl', hc⟩
  · rw [hl, hl']
    rfl
  · simp [hl, hl', hc, carried, carry]

theorem exists_carried (op : Opcode) (operand : ℕ) (invert : Bool) (dst : ℕ) (m : Machine σ V) :
    qvmStoreExists ops' op operand invert dst (m.map f) =
      carried f (qvmStoreExists ops op operand invert dst m) := by
  unfold qvmStoreExists
  rcases rel_cases h.exists? with ⟨he, he'⟩ | ⟨exists_, exists', he, he', hc⟩
  · rw [he, he']
    rfl
  · simp only [he, he', map_emit, map_backend, map_registers, hc, carry, h.makeBool]
    split_ifs <;> rfl

theorem instruction_carried [Zero V] (input : Option ExecInput) (pc : ℕ) (insn : Instruction)
    (op : Opcode) (m : Machine σ V) :
    qvmExecInstruction ops' input pc insn op (m.map f) =
      carried f (qvmExecInstruction ops input pc insn op m) := by
  cases op <;> simp only [qvmExecInstruction, leaf_carried h, exists_carried h, map_emit,
    map_backend, map_registers, h.resolve, h.truthy, h.binary, h.makeInvalid, h.makeBool,
    h.makeNumber, h.makeString, carry, map_setBackend, storeResult, continue_carried]
  case loadKey => cases input.bind ExecInput.key <;> rfl
  case loadIndex =>
    cases input with
    | none => rfl
    | some i => by_cases hi : 0 ≤ i.arrayIndex <;> simp only [hi, if_true, if_false] <;> rfl
  case length =>
    rcases rel_cases h.length with ⟨hn, hn'⟩ | ⟨u, u', hu, hu', hc⟩
    · rw [hn, hn']
      rfl
    · rw [hu, hu']
      simp only [hc]
      rfl
  case count =>
    rcases rel_cases h.count with ⟨hn, hn'⟩ | ⟨u, u', hu, hu', hc⟩
    · rw [hn, hn']
      rfl
    · rw [hu, hu']
      simp only [hc]
      rfl
  case neg =>
    rcases rel_cases h.unary with ⟨hn, hn'⟩ | ⟨u, u', hu, hu', hc⟩
    · rw [hn, hn']
      rfl
    · rw [hu, hu']
      simp only [hc]
      rfl
  case bnot =>
    rcases rel_cases h.unary with ⟨hn, hn'⟩ | ⟨u, u', hu, hu', hc⟩
    · rw [hn, hn']
      rfl
    · rw [hu, hu']
      simp only [hc]
      rfl
  all_goals first
    | rfl
    | split_ifs <;> rfl

theorem loop_carried [Zero V] (instructions : ℕ → Instruction) (input : Option ExecInput)
    (end_ maxSteps budget : ℕ) : ∀ (pc : ℕ) (m : Machine σ V),
    qvmExecLoop instructions ops' input end_ maxSteps budget pc (m.map f) =
      carried f (qvmExecLoop instructions ops input end_ maxSteps budget pc m) := by
  induction budget with
  | zero =>
    intro pc m
    unfold qvmExecLoop
    split_ifs
    · rfl
    · cases qvmValidateExecInstruction (instructions pc) pc end_ <;> rfl
  | succ budget ih =>
    intro pc m
    unfold qvmExecLoop
    split_ifs
    · rfl
    · cases qvmValidateExecInstruction (instructions pc) pc end_ with
      | error d => rfl
      | ok op =>
        simp only [map_emit, instruction_carried h]
        rcases qvmExecInstruction ops input pc (instructions pc) op (m.emit [.step pc]) with
          ⟨_ | pc', m'⟩
        · rfl
        · exact ih pc' m'

theorem single_carried (offset : ℕ) (insn : Instruction) (op : Opcode) (m : Machine σ V) :
    qvmExecSingle ops' offset insn op (m.map f) =
      (qvmExecSingle ops offset insn op m).map (carried f) := by
  have hreturn : ∀ message (r : Status × Machine σ V),
      returnWith insn offset message (carried f r) = carried f (returnWith insn offset message r) := by
    intro message r
    unfold returnWith carried
    split_ifs <;> rfl
  unfold qvmExecSingle
  simp only [leaf_carried h, exists_carried h, map_backend, map_registers, h.makeBool, hreturn]
  split_ifs <;> rfl

theorem execute_carried [Zero V] (instructions : ℕ → Instruction)
    (instructionCount offset len : ℕ) (ctx : σ) (input : Option ExecInput)
    (limits : Option Limits) :
    qvmExecuteEx instructions instructionCount offset len ops' (f ctx) input limits =
      carried f (qvmExecuteEx instructions instructionCount offset len ops ctx input limits) := by
  have hm : (⟨f ctx, fun _ => 0, []⟩ : Machine τ V) =
    (⟨ctx, fun _ => 0, []⟩ : Machine σ V).map f := rfl
  unfold qvmExecuteEx
  simp only [hm, map_emit, loop_carried h, single_carried h]
  split_ifs
  · rfl
  · rfl
  · cases qvmValidateExecInstruction (instructions offset) offset (offset + len) <;> rfl
  · cases qvmValidateExecInstruction (instructions offset) offset (offset + len) with
    | error d => rfl
    | ok op =>
      simp only
      cases qvmExecSingle ops offset (instructions offset) op _ <;> rfl
  · rfl

end Runs

end SaltsUtils.QueryVm
