import SaltsUtils.QueryVm.Verifier

/-!
# A verified slice executes safely

The events of a run are read from left to right with the set of registers written so far.
-/

set_option autoImplicit false

namespace SaltsUtils.QueryVm
open SaltsUtils.Library

variable {σ V : Type}

def written (es : List (Event V)) : Set ℕ := {r | ∃ v, Event.write r v ∈ es}

/-- How many instructions the events execute. -/
def stepCount (es : List (Event V)) : ℕ :=
  es.countP (fun e => match e with | .step _ => true | _ => false)

/-- Every read is of a register in `ready` or written earlier in the list, and
every index stays in the range that the verifier was called with. -/
def Safe (registerCount operandCount regexCount : ℕ) : Set ℕ → List (Event V) → Prop
  | _, [] => True
  | ready, .step _::es => Safe registerCount operandCount regexCount ready es
  | ready, .read r::es => (r ∈ ready ∧ r < registerCount) ∧
      Safe registerCount operandCount regexCount ready es
  | ready, .write r _::es => r < registerCount ∧
      Safe registerCount operandCount regexCount (insert r ready) es
  | ready, .operand op i::es =>
      (i < operandCount ∨ (i = QVM_NO_OPERAND ∧ (op = .length ∨ op = .cmpLengthLeaf))) ∧
      Safe registerCount operandCount regexCount ready es
  | ready, .regex i::es => (i < regexCount ∨ i = QVM_NO_OPERAND) ∧
      Safe registerCount operandCount regexCount ready es

theorem written_append (xs ys : List (Event V)) : written (xs++ys) = written xs ∪ written ys := by
  ext r
  simp only [written, List.mem_append, Set.mem_ofPred_eq, Set.mem_union]
  constructor
  · rintro ⟨v, h | h⟩
    · exact Or.inl ⟨v, h⟩
    · exact Or.inr ⟨v, h⟩
  · rintro (⟨v, h⟩ | ⟨v, h⟩)
    · exact ⟨v, Or.inl h⟩
    · exact ⟨v, Or.inr h⟩

theorem written_cons_write (r : ℕ) (v : V) (es : List (Event V)) :
    written (.write r v::es) = insert r (written es) := by
  ext q
  simp only [written, List.mem_cons, Event.write.injEq, Set.mem_ofPred_eq, Set.mem_insert_iff]
  constructor
  · rintro ⟨w, ⟨rfl, rfl⟩ | h⟩
    · exact Or.inl rfl
    · exact Or.inr ⟨w, h⟩
  · rintro (rfl | ⟨w, h⟩)
    · exact ⟨v, Or.inl ⟨rfl, rfl⟩⟩
    · exact ⟨w, Or.inr h⟩

theorem written_cons_other (e : Event V) (es : List (Event V))
    (he : ∀ r v, e ≠ .write r v) : written (e::es) = written es := by
  ext q
  simp only [written, List.mem_cons, Set.mem_ofPred_eq]
  constructor
  · rintro ⟨v, h | h⟩
    · exact absurd h.symm (he q v)
    · exact ⟨v, h⟩
  · rintro ⟨v, h⟩
    exact ⟨v, Or.inr h⟩

@[simp] theorem written_nil : written ([] : List (Event V)) = ∅ := by
  simp [written]

theorem stepCount_append (xs ys : List (Event V)) :
    stepCount (xs++ys) = stepCount xs+stepCount ys := List.countP_append

theorem safe_append (rc oc xc : ℕ) (ready : Set ℕ) (xs ys : List (Event V)) :
    Safe rc oc xc ready (xs++ys) ↔
      Safe rc oc xc ready xs ∧ Safe rc oc xc (ready ∪ written xs) ys := by
  induction xs generalizing ready with
  | nil => simp [Safe]
  | cons e xs ih =>
    cases e with
    | step pc =>
      rw [written_cons_other _ _ (by simp)]
      exact ih ready
    | read r =>
      rw [written_cons_other _ _ (by simp)]
      simp only [List.cons_append, Safe, ih, and_assoc]
    | write r v =>
      rw [written_cons_write, Set.union_insert, ← Set.insert_union]
      simp only [List.cons_append, Safe, ih, and_assoc]
    | operand op i =>
      rw [written_cons_other _ _ (by simp)]
      simp only [List.cons_append, Safe, ih, and_assoc]
    | regex i =>
      rw [written_cons_other _ _ (by simp)]
      simp only [List.cons_append, Safe, ih, and_assoc]

/-- A register that has been written holds a value that was written to it. -/
def Held (m : Machine σ V) : Prop :=
  ∀ r ∈ written m.events, Event.write r (m.registers r) ∈ m.events

/-- The machine has appended the events `es` and kept its registers honest. -/
structure Evolves (m m' : Machine σ V) (es : List (Event V)) : Prop where
  events : m'.events = m.events ++ es
  held : Held m → Held m'

theorem Evolves.refl (m : Machine σ V) : Evolves m m [] := ⟨by simp, id⟩

variable {m m' : Machine σ V}

theorem Evolves.trans {m'' : Machine σ V} {xs ys : List (Event V)} (h : Evolves m m' xs)
    (h' : Evolves m' m'' ys) : Evolves m m'' (xs++ys) :=
  ⟨by rw [h'.events, h.events, List.append_assoc], fun hm => h'.held (h.held hm)⟩

theorem evolves_emit (m : Machine σ V) (es : List (Event V))
    (hes : written es = ∅) : Evolves m (m.emit es) es := by
  refine ⟨rfl, fun hm r hr => ?_⟩
  rw [Machine.emit, written_append, hes, Set.union_empty] at hr
  exact List.mem_append_left _ (hm r hr)

theorem evolves_setBackend (m : Machine σ V) (b : σ) : Evolves m (m.setBackend b) [] :=
  ⟨by simp [Machine.setBackend], id⟩

theorem evolves_store (m : Machine σ V) (b : σ) (r : ℕ) (v : V) :
    Evolves m (m.store b r v) [.write r v] := by
  refine ⟨rfl, fun hm q hq => ?_⟩
  by_cases hqr : q = r
  · subst hqr
    simp [Machine.store]
  · have hold : q ∈ written m.events := by
      simpa [Machine.store, written_append, written_cons_write, hqr] using hq
    simpa [Machine.store, hqr] using hm q hold

/-- What one executed instruction may do. -/
def Outcome (rc oc xc pc : ℕ) (insn : Instruction) (m : Machine σ V)
    (r : Except Diagnostic ℕ × Machine σ V) : Prop :=
  ∃ es, Evolves m r.2 es ∧ stepCount es = 0 ∧
    (∀ ready, (∀ q ∈ insn.reads, q ∈ ready) → Safe rc oc xc ready es) ∧
    match r.1 with
    | .error d => d.status = .unsupported ∨ d.status = .backendError
    | .ok pc' => pc' ∈ insn.successors pc ∧ written es = insn.writes

def BackendFailure {α : Type} (verdict : Except Diagnostic α) : Prop :=
  ∃ d, verdict = .error d ∧ (d.status = .unsupported ∨ d.status = .backendError)

theorem status_verdict (insn : Instruction) (pc : ℕ) (message : String) (b : Bool) :
    (if (if b then Status.ok else Status.backendError) = .ok then Except.ok (pc+1)
      else qvmFail (if b then Status.ok else Status.backendError) pc insn.op insn.src1 message) =
        .ok (pc+1) ∨
    BackendFailure (if (if b then Status.ok else Status.backendError) = .ok
      then Except.ok (pc+1)
      else qvmFail (if b then Status.ok else Status.backendError) pc insn.op insn.src1 message) := by
  cases b with
  | true => exact Or.inl rfl
  | false => exact Or.inr ⟨_, rfl, Or.inr rfl⟩

variable {rc oc xc pc : ℕ} {insn : Instruction} {es : List (Event V)}

theorem outcome_fail {verdict : Except Diagnostic ℕ} (he : Evolves m m' es) (hn : stepCount es = 0)
    (hs : ∀ ready, (∀ q ∈ insn.reads, q ∈ ready) → Safe rc oc xc ready es)
    (hv : BackendFailure verdict) : Outcome rc oc xc pc insn m (verdict, m') := by
  obtain ⟨d, rfl, hd⟩ := hv
  exact ⟨es, he, hn, hs, hd⟩

theorem outcome_store {verdict : Except Diagnostic ℕ} (b : σ) (v : V) (he : Evolves m m' es)
    (hn : stepCount es = 0) (hq : written es = ∅)
    (hs : ∀ ready, (∀ q ∈ insn.reads, q ∈ ready) → Safe rc oc xc ready es) (hd : insn.dst < rc)
    (hw : insn.writes = {insn.dst}) (hsucc : insn.successors pc = [pc+1])
    (hv : verdict = .ok (pc+1) ∨ BackendFailure verdict) :
    Outcome rc oc xc pc insn m (verdict, m'.store b insn.dst v) := by
  have hsafe : ∀ ready, (∀ q ∈ insn.reads, q ∈ ready) →
      Safe rc oc xc ready (es ++ [.write insn.dst v]) := by
    intro ready hr
    rw [safe_append]
    exact ⟨hs ready hr, hd, trivial⟩
  have hn' : stepCount (es ++ [.write insn.dst v]) = 0 := by
    rw [stepCount_append, hn]
    rfl
  have hstore := he.trans (evolves_store m' b insn.dst v)
  rcases hv with rfl | hfail
  · refine ⟨_, hstore, hn', hsafe, by simp [hsucc], ?_⟩
    rw [written_append, hq, written_cons_write, written_nil, hw]
    simp
  · exact outcome_fail hstore hn' hsafe hfail

theorem outcome_jump {pc' : ℕ} (he : Evolves m m' es) (hn : stepCount es = 0) (hq : written es = ∅)
    (hs : ∀ ready, (∀ q ∈ insn.reads, q ∈ ready) → Safe rc oc xc ready es) (hw : insn.writes = ∅)
    (hsucc : pc' ∈ insn.successors pc) : Outcome rc oc xc pc insn m (.ok pc', m') :=
  ⟨es, he, hn, hs, hsucc, by rw [hq, hw]⟩

section Instruction
variable {rc oc xc pc end_ : ℕ} {insn : Instruction} {op : Opcode}
variable (ops : ExecOps σ V)
variable (hop : insn.opcode = some op) (hc : Checked insn pc end_ rc oc xc)
include hop hc

theorem checked_store (hw : qvmWritesRegister op) :
    insn.dst < rc ∧ insn.writes = {insn.dst} ∧ insn.successors pc = [pc+1] := by
  have hset : insn.writes = {insn.dst} := by
    cases op <;> simp_all [qvmWritesRegister, Instruction.writes]
  refine ⟨hc.writes _ (by simp [hset]), hset, ?_⟩
  cases op <;> simp_all [qvmWritesRegister, Instruction.successors]

theorem checked_operand : (op ∈ [.loadPath, .loadConst, .exists, .count, .notExists] →
      insn.src1 < oc) ∧
    (op = .length → insn.src1 = QVM_NO_OPERAND ∨ insn.src1 < oc) ∧
    (qvmIsLeaf op → insn.src2 < oc ∧ (insn.src1 < oc ∨
      (op = .cmpLengthLeaf ∧ insn.src1 = QVM_NO_OPERAND))) ∧
    (op ∈ [.match, .matchFull, .search] → insn.arg = QVM_NO_OPERAND ∨ insn.arg < xc) := by
  obtain ⟨op', hop', -, h⟩ := hc.opcode
  have : op' = op := Option.some.inj (hop'.symm.trans hop)
  exact this ▸ h

theorem leaf_outcome (hl : qvmIsLeaf op) (m : Machine σ V) :
    Outcome rc oc xc pc insn m
      (continueWith insn pc "QVM leaf backend failed" (qvmExecLeaf ops op insn insn.dst m)) := by
  have hw : qvmWritesRegister op := by cases op <;> simp_all [qvmIsLeaf, qvmWritesRegister]
  obtain ⟨hd, hset, hsucc⟩ := checked_store hop hc hw
  obtain ⟨h2, h1⟩ := (checked_operand hop hc).2.2.1 hl
  have hsrc1 : insn.src1 < oc ∨
      (insn.src1 = QVM_NO_OPERAND ∧ (op = .length ∨ op = .cmpLengthLeaf)) := by
    rcases h1 with h1 | ⟨h1, h3⟩
    · exact Or.inl h1
    · exact Or.inr ⟨h3, Or.inr h1⟩
  unfold qvmExecLeaf continueWith
  cases ops.leaf with
  | none =>
    exact outcome_fail (Evolves.refl m) rfl (fun _ _ => trivial) ⟨_, rfl, Or.inl rfl⟩
  | some leaf =>
    exact outcome_store _ _ (evolves_emit m [.operand op insn.src1, .operand op insn.src2]
      (by simp [written])) rfl (by simp [written])
      (fun _ _ => ⟨hsrc1, Or.inl h2, trivial⟩) hd hset hsucc (status_verdict insn pc _ _)

theorem exists_outcome (hl : op = .exists ∨ op = .notExists) (invert : Bool) (m : Machine σ V) :
    Outcome rc oc xc pc insn m (continueWith insn pc "QVM exists backend failed"
      (qvmStoreExists ops op insn.src1 invert insn.dst m)) := by
  have hw : qvmWritesRegister op := by rcases hl with rfl | rfl <;> rfl
  obtain ⟨hd, hset, hsucc⟩ := checked_store hop hc hw
  have h1 := (checked_operand hop hc).1 (by rcases hl with rfl | rfl <;> simp)
  unfold qvmStoreExists continueWith
  cases ops.exists? with
  | none =>
    exact outcome_fail (Evolves.refl m) rfl (fun _ _ => trivial) ⟨_, rfl, Or.inr rfl⟩
  | some exists_ =>
    have he := evolves_emit m [.operand op insn.src1] (by simp [written])
    have hs : ∀ ready, (∀ q ∈ insn.reads, q ∈ ready) →
        Safe (V := V) rc oc xc ready [.operand op insn.src1] := fun _ _ => ⟨Or.inl h1, trivial⟩
    simp only
    by_cases hb : (exists_ (m.emit [.operand op insn.src1]).backend insn.src1).1.1 = true
    · simp only [hb, if_true]
      exact outcome_store _ _ he rfl (by simp [written]) hs hd hset hsucc (Or.inl rfl)
    · simp only [hb]
      exact outcome_fail (he.trans (evolves_setBackend _ _)) rfl
        (fun r h => by simpa using hs r h) ⟨_, rfl, Or.inr rfl⟩

theorem result_outcome (hw : qvmWritesRegister op) (he : Evolves m m' es) (hn : stepCount es = 0)
    (hq : written es = ∅) (hs : ∀ ready, (∀ q ∈ insn.reads, q ∈ ready) → Safe rc oc xc ready es)
    (operand : ℕ) (message : String) (r : (Bool × V) × σ) :
    Outcome rc oc xc pc insn m (storeResult insn pc operand message r m') := by
  obtain ⟨hd, hset, hsucc⟩ := checked_store hop hc hw
  apply outcome_store _ _ he hn hq hs hd hset hsucc
  cases r.1.1 with
  | true => exact Or.inl rfl
  | false => exact Or.inr ⟨_, rfl, Or.inr rfl⟩

theorem instruction_outcome [Zero V] (input : Option ExecInput) (m : Machine σ V) :
    Outcome rc oc xc pc insn m (qvmExecInstruction ops input pc insn op m) := by
  have hnil : ∀ ready, (∀ q ∈ insn.reads, q ∈ ready) → Safe (V := V) rc oc xc ready [] :=
    fun _ _ => trivial
  have hread : ∀ q ∈ insn.reads, ∀ ready, (∀ q ∈ insn.reads, q ∈ ready) →
      Safe (V := V) rc oc xc ready [.read q] :=
    fun q hq ready hr => ⟨⟨hr q hq, hc.reads q hq⟩, trivial⟩
  have hread2 : insn.reads = [insn.src1, insn.src2] → ∀ ready,
      (∀ q ∈ insn.reads, q ∈ ready) →
      Safe (V := V) rc oc xc ready [.read insn.src1, .read insn.src2] := by
    intro he ready hr
    have h1 : insn.src1 ∈ insn.reads := by simp [he]
    have h2 : insn.src2 ∈ insn.reads := by simp [he]
    exact ⟨⟨hr _ h1, hc.reads _ h1⟩, ⟨hr _ h2, hc.reads _ h2⟩, trivial⟩
  have hregex : op ∈ [.match, .matchFull, .search] → insn.reads = [insn.src1, insn.src2] →
      ∀ ready, (∀ q ∈ insn.reads, q ∈ ready) → Safe (V := V) rc oc xc ready
        ([.read insn.src1, .read insn.src2] ++ [.regex insn.arg]) := by
    intro hm he ready hr
    rw [safe_append]
    exact ⟨hread2 he ready hr, ((checked_operand hop hc).2.2.2 hm).symm, trivial⟩
  have hstore := checked_store hop hc
  have hone : ∀ e : Event V, (∀ r v, e ≠ .write r v) → written [e] = ∅ := fun e he => by
    rw [written_cons_other e [] he, written_nil]
  -- The cases follow the arms of the switch; each names the events it emits.
  cases op with
  | loadPath | loadConst =>
    obtain ⟨hd, hset, hsucc⟩ := hstore rfl
    have h1 := (checked_operand hop hc).1 (by simp)
    have he := fun o => evolves_emit m [.operand o insn.src1] (hone _ (by simp))
    simp only [qvmExecInstruction]
    split_ifs with hb
    · exact outcome_store _ _ (he _) rfl (hone _ (by simp))
        (fun _ _ => ⟨Or.inl h1, trivial⟩) hd hset hsucc (Or.inl rfl)
    · exact outcome_store _ _ (he _) rfl (hone _ (by simp))
        (fun _ _ => ⟨Or.inl h1, trivial⟩) hd hset hsucc (Or.inl rfl)
  | loadKey | loadIndex | loadInvalid | true | false =>
    obtain ⟨hd, hset, hsucc⟩ := hstore rfl
    exact outcome_store _ _ (Evolves.refl m) rfl written_nil hnil hd hset hsucc (Or.inl rfl)
  | «exists» => exact exists_outcome ops hop hc (Or.inl rfl) _ m
  | notExists => exact exists_outcome ops hop hc (Or.inr rfl) _ m
  | cmpLeaf | cmpLeafNumber | cmpLeafString | cmpLengthLeaf | cmpCountLeaf =>
    exact leaf_outcome ops hop hc rfl m
  | length =>
    unfold qvmExecInstruction
    cases ops.length with
    | none => exact outcome_fail (Evolves.refl m) rfl hnil ⟨_, rfl, Or.inr rfl⟩
    | some length =>
      have h1 := (checked_operand hop hc).2.1 rfl
      exact result_outcome hop hc rfl
        (evolves_emit m [.operand .length insn.src1] (hone _ (by simp))) rfl (hone _ (by simp))
        (fun _ _ => ⟨h1.symm.imp_right (fun h => ⟨h, Or.inl rfl⟩), trivial⟩) _ _ _
  | count =>
    unfold qvmExecInstruction
    cases ops.count with
    | none => exact outcome_fail (Evolves.refl m) rfl hnil ⟨_, rfl, Or.inr rfl⟩
    | some count =>
      have h1 := (checked_operand hop hc).1 (by simp)
      exact result_outcome hop hc rfl
        (evolves_emit m [.operand .count insn.src1] (hone _ (by simp))) rfl (hone _ (by simp))
        (fun _ _ => ⟨Or.inl h1, trivial⟩) _ _ _
  | «match» | matchFull | search =>
    exact result_outcome hop hc rfl
      (evolves_emit m [.read insn.src1, .read insn.src2, .regex insn.arg] (by simp [written]))
      rfl (by simp [written]) (hregex (by simp) (by simp [Instruction.reads, hop])) _ _ _
  | cmp | contains | containsCi | add | sub | mul | div | mod | union | band | bor | bxor
  | lshift | rshift | cat =>
    exact result_outcome hop hc rfl
      (evolves_emit m [.read insn.src1, .read insn.src2] (by simp [written]))
      rfl (by simp [written]) (hread2 (by simp [Instruction.reads, hop])) _ _ _
  | neg | bnot =>
    unfold qvmExecInstruction
    cases ops.unary with
    | none => exact outcome_fail (Evolves.refl m) rfl hnil ⟨_, rfl, Or.inr rfl⟩
    | some unary =>
      exact result_outcome hop hc rfl
        (evolves_emit m [.read insn.src1] (hone _ (by simp))) rfl (hone _ (by simp))
        (hread _ (by simp [Instruction.reads, hop])) _ _ _
  | select =>
    obtain ⟨hd, hset, hsucc⟩ := hstore rfl
    have h1 : insn.src1 ∈ insn.reads := by simp [Instruction.reads, hop]
    have h2 : ∀ b : Bool, (if b then insn.src2 else insn.arg) ∈ insn.reads := by
      intro b
      cases b <;> simp [Instruction.reads, hop]
    have he1 := evolves_emit m [.read insn.src1] (hone _ (by simp))
    refine outcome_store _ _ (he1.trans (evolves_emit _ [.read _] (hone _ (by simp)))) rfl
      ?_ (fun ready hr => ?_) hd hset hsucc (Or.inl rfl)
    · rw [written_append, hone _ (by simp), hone _ (by simp), Set.union_empty]
    · rw [safe_append, hone _ (by simp), Set.union_empty]
      exact ⟨hread _ h1 ready hr, hread _ (h2 _) ready hr⟩
  | not =>
    obtain ⟨hd, hset, hsucc⟩ := hstore rfl
    exact outcome_store _ _ (evolves_emit m [.read insn.src1] (hone _ (by simp))) rfl
      (hone _ (by simp)) (hread _ (by simp [Instruction.reads, hop])) hd hset hsucc (Or.inl rfl)
  | jmpFalse | jmpTrue =>
    have he := evolves_emit m [.read insn.src1] (hone _ (by simp))
    refine outcome_jump (he.trans (evolves_setBackend _ _)) rfl (hone _ (by simp))
      (hread _ (by simp [Instruction.reads, hop])) (by simp [Instruction.writes, hop]) ?_
    split_ifs <;> simp [Instruction.successors, hop]
  | jmp =>
    exact outcome_jump (Evolves.refl m) rfl written_nil hnil
      (by simp [Instruction.writes, hop]) (by simp [Instruction.successors, hop])

end Instruction

theorem validate_checked {op : Opcode} {end_ : ℕ} (hop : insn.opcode = some op)
    (hc : Checked insn pc end_ rc oc xc) (hrc : rc ≤ 64) (hpc : pc < end_) :
    qvmValidateExecInstruction insn pc end_ = .ok op := by
  have hres : insn.reserved = 0 := by
    obtain ⟨_, _, h, -⟩ := hc.opcode
    exact h
  have hread : ∀ r ∈ insn.reads, ¬ QVM_MAX_REGISTERS ≤ r := fun r hr =>
    Nat.not_le.mpr (lt_of_lt_of_le (hc.reads r hr) hrc)
  have hwrite : ∀ r ∈ insn.writes, ¬ QVM_MAX_REGISTERS ≤ r := fun r hr =>
    Nat.not_le.mpr (lt_of_lt_of_le (hc.writes r hr) hrc)
  have hjump : op ∈ [.jmpFalse, .jmpTrue, .jmp] → ¬ (insn.arg ≤ pc ∨ end_ < insn.arg) := by
    intro hm
    have hf := hc.forward hpc insn.arg (by
      cases op <;> simp_all [Instruction.successors])
    omega
  unfold qvmValidateExecInstruction
  simp only [hop, fail_else_ok]
  refine ⟨by simp [hres], ?_, ?_, ?_, ?_, fun h => hjump h.1 h.2, trivial⟩
  · rintro ⟨hw, hle⟩
    exact hwrite insn.dst (by cases op <;> simp_all [qvmWritesRegister, Instruction.writes]) hle
  · rintro ⟨hb, hle⟩
    have hr : insn.reads = [insn.src1, insn.src2] := by
      cases op <;> simp_all [qvmIsBinary, Instruction.reads]
    rcases hle with hle | hle
    · exact hread _ (by simp [hr]) hle
    · exact hread _ (by simp [hr]) hle
  · rintro ⟨hm, hle⟩
    exact hread insn.src1 (by cases op <;> simp_all [Instruction.reads]) hle
  · rintro ⟨rfl, hle⟩
    have hr : insn.reads = [insn.src1, insn.src2, insn.arg] := by simp [Instruction.reads, hop]
    rcases hle with hle | hle | hle
    · exact hread _ (by simp [hr]) hle
    · exact hread _ (by simp [hr]) hle
    · exact hread _ (by simp [hr]) hle

structure SafeRun (rc oc xc len : ℕ) (r : Except Diagnostic V × Machine σ V) : Prop where
  steps : stepCount r.2.events ≤ len
  safe : Safe rc oc xc ∅ r.2.events
  failure : ∀ d, r.1 = .error d → d.status = .unsupported ∨ d.status = .backendError
  result : ∀ v, r.1 = .ok v → Event.write 0 v ∈ r.2.events

variable {len : ℕ}

theorem readOut_safe (m : Machine σ V) (hrc : 0 < rc) (hsteps : stepCount m.events ≤ len)
    (hsafe : Safe rc oc xc ∅ m.events) (hheld : Held m) (hzero : 0 ∈ written m.events) :
    SafeRun rc oc xc len (readOut m) := by
  constructor
  · change stepCount (m.events ++ [.read 0]) ≤ len
    rw [stepCount_append]
    exact hsteps
  · change Safe rc oc xc ∅ (m.events ++ [.read 0])
    rw [safe_append, Set.empty_union]
    exact ⟨hsafe, ⟨hzero, hrc⟩, trivial⟩
  · intro d h
    cases h
  · intro v h
    cases h
    exact List.mem_append_left _ (hheld 0 hzero)

theorem failed_safe (m : Machine σ V) (d : Diagnostic) (hsteps : stepCount m.events ≤ len)
    (hsafe : Safe rc oc xc ∅ m.events) (hd : d.status = .unsupported ∨ d.status = .backendError) :
    SafeRun rc oc xc len ((.error d, m) : Except Diagnostic V × Machine σ V) := by
  refine ⟨hsteps, hsafe, ?_, ?_⟩
  · intro d' h
    cases h
    exact hd
  · intro v h
    cases h

/-- The machine on which the path for `len == 1` works. -/
def oneStep (V : Type) [Zero V] (ctx : σ) (offset : ℕ) : Machine σ V :=
  (⟨ctx, fun _ => 0, []⟩ : Machine σ V).emit [.step offset]

theorem one_step_held [Zero V] (ctx : σ) (offset : ℕ) : Held (oneStep V ctx offset) := by
  intro r hr
  have : written (oneStep V ctx offset).events = ∅ := by
    simp [oneStep, Machine.emit, written]
  rw [this] at hr
  exact absurd hr (Set.notMem_empty r)

variable {offset : ℕ}

theorem one_step_stored (rc oc xc len : ℕ) [Zero V] (hrc0 : 0 < rc) (hlen : 0 < len) {ctx : σ}
    (b : σ) (v : V) (he : Evolves (oneStep V ctx offset) m es) (hn : stepCount es = 0)
    (hs : Safe rc oc xc ∅ es) : SafeRun rc oc xc len (readOut (m.store b 0 v)) ∧
      ∀ d : Diagnostic, d.status = .unsupported ∨ d.status = .backendError →
        SafeRun rc oc xc len
          ((.error d, m.store b 0 v) : Except Diagnostic V × Machine σ V) := by
  have hst := he.trans (evolves_store m b 0 v)
  have hevents : (m.store b 0 v).events = [.step offset] ++ (es ++ [.write 0 v]) := by
    rw [hst.events]
    rfl
  have hsteps : stepCount (m.store b 0 v).events ≤ len := by
    rw [hevents, stepCount_append, stepCount_append, hn]
    exact hlen
  have hsafe : Safe rc oc xc ∅ (m.store b 0 v).events := by
    rw [hevents]
    change Safe rc oc xc ∅ (es ++ [.write 0 v])
    rw [safe_append]
    exact ⟨hs, hrc0, trivial⟩
  refine ⟨readOut_safe _ hrc0 hsteps hsafe (hst.held (one_step_held ctx offset)) ?_,
    fun d hd => failed_safe _ d hsteps hsafe hd⟩
  exact ⟨v, by rw [hevents]; simp⟩

theorem one_step_failed [Zero V] (hlen : 0 < len) {ctx : σ}
    (he : Evolves (oneStep V ctx offset) m es) (hn : stepCount es = 0) (hs : Safe rc oc xc ∅ es)
    (d : Diagnostic) (hd : d.status = .unsupported ∨ d.status = .backendError) :
    SafeRun rc oc xc len ((.error d, m) : Except Diagnostic V × Machine σ V) := by
  have hevents : m.events = [.step offset] ++ es := by
    rw [he.events]
    rfl
  apply failed_safe _ d _ _ hd
  · rw [hevents, stepCount_append, hn]
    exact hlen
  · rw [hevents]
    exact hs

theorem single_safe {end_ : ℕ} [Zero V] (ops : ExecOps σ V) (hrc0 : 0 < rc) (hlen : 0 < len)
    {op : Opcode} (hop : insn.opcode = some op) (hc : Checked insn offset end_ rc oc xc) (ctx : σ)
    (r : Except Diagnostic V × Machine σ V)
    (hr : qvmExecSingle ops offset insn op (oneStep V ctx offset) = some r) :
    SafeRun rc oc xc len r := by
  have hself := Evolves.refl (oneStep V ctx offset)
  unfold qvmExecSingle at hr
  by_cases hl : qvmIsLeaf op = true
  · rw [if_pos hl] at hr
    obtain ⟨h2, h1⟩ := (checked_operand hop hc).2.2.1 hl
    have hsrc1 : insn.src1 < oc ∨
        (insn.src1 = QVM_NO_OPERAND ∧ (op = .length ∨ op = .cmpLengthLeaf)) :=
      h1.imp_right (fun h => ⟨h.2, Or.inr h.1⟩)
    unfold qvmExecLeaf returnWith at hr
    cases hleaf : ops.leaf with
    | none =>
      rw [hleaf] at hr
      cases hr
      exact one_step_failed hlen hself rfl trivial _ (Or.inl rfl)
    | some leaf =>
      rw [hleaf] at hr
      have hem := evolves_emit (oneStep V ctx offset)
        [.operand op insn.src1, .operand op insn.src2] (by simp [written])
      obtain ⟨hok, hfail⟩ := one_step_stored rc oc xc len hrc0 hlen
        _ _ hem rfl ⟨hsrc1, Or.inl h2, trivial⟩
      simp only at hr
      by_cases hb : (leaf ((oneStep V ctx offset).emit [.operand op insn.src1,
          .operand op insn.src2]).backend op insn.arg insn.src1 insn.src2
          (((oneStep V ctx offset).emit [.operand op insn.src1,
            .operand op insn.src2]).registers 0)).1.1 = true
      · simp only [hb, if_true] at hr
        cases hr
        exact hok
      · simp only [hb] at hr
        cases hr
        exact hfail _ (Or.inr rfl)
  rw [if_neg hl] at hr
  by_cases he : op = .exists ∨ op = .notExists
  · rw [if_pos he] at hr
    have h1 := (checked_operand hop hc).1 (by rcases he with rfl | rfl <;> simp)
    unfold qvmStoreExists returnWith at hr
    cases hex : ops.exists? with
    | none =>
      rw [hex] at hr
      cases hr
      exact one_step_failed hlen hself rfl trivial _ (Or.inr rfl)
    | some exists_ =>
      rw [hex] at hr
      have hem := evolves_emit (oneStep V ctx offset) [.operand op insn.src1] (by simp [written])
      simp only at hr
      by_cases hb : (exists_ ((oneStep V ctx offset).emit [.operand op insn.src1]).backend
          insn.src1).1.1 = true
      · simp only [hb, if_true] at hr
        cases hr
        exact (one_step_stored rc oc xc len hrc0 hlen _ _ hem rfl ⟨Or.inl h1, trivial⟩).1
      · simp only [hb] at hr
        cases hr
        exact one_step_failed hlen (hem.trans (evolves_setBackend _ _)) rfl
          ⟨Or.inl h1, trivial⟩ _ (Or.inr rfl)
  rw [if_neg he] at hr
  by_cases ht : op = .true ∨ op = .false
  · rw [if_pos ht] at hr
    cases hr
    exact (one_step_stored rc oc xc len hrc0 hlen _ _ hself rfl trivial).1
  · rw [if_neg ht] at hr
    cases hr

section Loop
variable (instructions : ℕ → Instruction) (ops : ExecOps σ V) [Zero V]
variable (input : Option ExecInput) (offset len rc oc xc maxSteps : ℕ)
variable (hrc0 : 0 < rc) (hrc : rc ≤ 64)
variable (hc : ∀ pc, offset ≤ pc → pc < offset+len →
  Checked (instructions pc) pc (offset+len) rc oc xc)
variable (hreads : ∀ pc ready, pc < offset+len →
  ControlPath instructions offset len pc ready → ∀ r ∈ (instructions pc).reads, r ∈ ready)
variable (hexit : ∀ ready, ControlPath instructions offset len (offset+len) ready → 0 ∈ ready)
include hrc0 hrc hc hreads hexit

/-- The loop invariant: the events so far are safe and their writes are those
of a control-flow path that has arrived at `pc`. -/
theorem loop_safe (budget pc : ℕ) (m : Machine σ V) (hpc : pc ≤ offset+len)
    (hbudget : offset+len-pc ≤ budget)
    (hpath : ControlPath instructions offset len pc (written m.events)) (hheld : Held m)
    (hsafe : Safe rc oc xc ∅ m.events) (hsteps : stepCount m.events+(offset+len-pc) ≤ len) :
    SafeRun rc oc xc len
      (qvmExecLoop instructions ops input (offset+len) maxSteps budget pc m) := by
  have hf := flow_forward instructions offset len rc oc xc hc
  induction budget generalizing pc m with
  | zero =>
    have he : pc = offset+len := by omega
    subst he
    unfold qvmExecLoop
    rw [if_pos (le_refl _)]
    exact readOut_safe m hrc0 (by omega) hsafe hheld (hexit _ hpath)
  | succ budget ih =>
    unfold qvmExecLoop
    by_cases hend : offset+len ≤ pc
    · have he : pc = offset+len := by omega
      subst he
      rw [if_pos (le_refl _)]
      exact readOut_safe m hrc0 (by omega) hsafe hheld (hexit _ hpath)
    · rw [if_neg hend]
      have hlt : pc < offset+len := Nat.not_le.mp hend
      have hck := hc pc (ForwardFlow.path_first_le _ hf hpath) hlt
      obtain ⟨op, hop, -⟩ := hck.opcode
      rw [validate_checked hop hck hrc hlt]
      simp only
      have hemit := evolves_emit m [.step pc] (by
        rw [written_cons_other _ _ (by simp), written_nil])
      obtain ⟨es, hev, hn, hs, hnext⟩ := instruction_outcome ops hop hck input (m.emit [.step pc])
      have hall := hemit.trans hev
      have hsafe' : Safe rc oc xc ∅ (m.events ++ ([.step pc] ++ es)) := by
        rw [safe_append, Set.empty_union]
        exact ⟨hsafe, hs _ (hreads pc _ hlt hpath)⟩
      have hcount : stepCount (m.events ++ ([.step pc] ++ es)) = stepCount m.events+1 := by
        rw [stepCount_append, stepCount_append, hn]
        rfl
      cases hr : qvmExecInstruction ops input pc (instructions pc) op (m.emit [.step pc]) with
      | mk verdict m' =>
        rw [hr] at hall hnext
        cases verdict with
        | error d =>
          refine ⟨?_, ?_, ?_, ?_⟩
          · change stepCount m'.events ≤ len
            rw [hall.events, hcount]
            omega
          · change Safe rc oc xc ∅ m'.events
            rw [hall.events]
            exact hsafe'
          · intro d' h
            cases h
            exact hnext
          · intro v h
            cases h
        | ok pc' =>
          have hsucc := hck.forward hlt pc' hnext.1
          have hwritten : written m'.events = written m.events ∪ (instructions pc).writes := by
            rw [hall.events, written_append, List.singleton_append,
              written_cons_other _ _ (by simp), hnext.2]
          have hp' : ControlPath instructions offset len pc' (written m'.events) := by
            rw [hwritten]
            exact ForwardFlow.Path.step hpath hlt hnext.1
          apply ih pc' m' hsucc.2 (by omega) hp' (hall.held hheld)
          · rw [hall.events]
            exact hsafe'
          · rw [hall.events, hcount]
            omega

end Loop

/-- Soundness of the verifier. A slice that it accepts runs to an end within
`len` instructions on every backend, touches only initialised registers and
indexes in range, and fails only where the backend itself fails. -/
theorem verified_slice_executes_safely (callocStates callocReachable : Bool)
    (instructions : ℕ → Instruction)
    (instructionCount offset len registerCount operandCount regexCount : ℕ)
    (limits : Option Limits) (ops : ExecOps σ V) [Zero V] (ctx : σ) (input : Option ExecInput)
    (hv : qvmVerifySliceEx callocStates callocReachable instructions instructionCount offset len
      registerCount operandCount regexCount limits = .ok ())
    (hsteps : len ≤ (qvmResolveLimits limits).maxSteps) :
    let r := qvmExecuteEx instructions instructionCount offset len ops ctx input limits
    stepCount r.2.events ≤ len ∧
    (∀ d, r.1 = .error d → d.status ≠ .invalidProgram ∧ d.status ≠ .resourceLimit) ∧
    Safe registerCount operandCount regexCount ∅ r.2.events ∧
    ∀ v, r.1 = .ok v → Event.write 0 v ∈ r.2.events := by
  obtain ⟨hb, hs, hflow⟩ := (verify_parts _ _ _ _ _ _ _ _ _ _).mp hv
  obtain ⟨hpos, hrc0, hrc, hoff, hfit, hmax⟩ := check_bounds _ _ _ _ _ _ _ hb
  have hc := check_slice instructions _ _ _ _ _ _ hs
  have hf := flow_forward instructions offset len registerCount operandCount regexCount hc
  have hmem : ¬ (SIZE_MAX ≤ len ∨ SIZE_MAX/8 < len+1 ∨ SIZE_MAX/1 < len+1) ∧
      callocStates = true ∧ callocReachable = true := by
    unfold qvmCheckFlow at hflow
    simp only [fail_else_ok] at hflow
    exact ⟨hflow.1, by simpa using hflow.2.1⟩
  rw [hmem.2.1, hmem.2.2, check_flow_iff instructions offset len registerCount operandCount
    regexCount hrc hc hmem.1] at hflow
  have hrun : SafeRun registerCount operandCount regexCount len
      (qvmExecuteEx instructions instructionCount offset len ops ctx input limits) := by
    have hloop := loop_safe instructions ops input offset len registerCount operandCount
      regexCount (qvmResolveLimits limits).maxSteps hrc0 hrc hc
      (fun pc w hlt hp => hflow.1 pc (ForwardFlow.path_first_le _ hf hp) hlt w hp) hflow.2.2
      (qvmResolveLimits limits).maxSteps offset ⟨ctx, fun _ => 0, []⟩ (by omega) (by omega)
      (by rw [written_nil]; exact ForwardFlow.Path.start)
      (fun r hr => absurd hr (by simp)) trivial (by simp [stepCount])
    unfold qvmExecuteEx
    simp only
    rw [if_neg (by omega), if_neg (by omega)]
    by_cases h1 : len = 1
    · rw [if_pos h1]
      have hck := hc offset (le_refl _) (by omega)
      obtain ⟨op, hop, -⟩ := hck.opcode
      rw [validate_checked hop hck hrc (by omega)]
      simp only
      rw [if_neg (by omega)]
      cases hr : qvmExecSingle ops offset (instructions offset) op (oneStep V ctx offset) with
      | none =>
        rw [oneStep] at hr
        rw [hr]
        exact hloop
      | some r =>
        have hsingle := single_safe ops hrc0 hpos hop hck ctx r hr
        rw [oneStep] at hr
        rw [hr]
        exact hsingle
    · rw [if_neg h1]
      exact hloop
  refine ⟨hrun.steps, fun d hd => ?_, hrun.safe, hrun.result⟩
  rcases hrun.failure d hd with h | h <;> simp [h]

/-- A backend over integers: `resolve` and the other optional callbacks fail. -/
def integerOps : ExecOps ℕ ℤ where
  resolve b _ v := ((false, v), b+1)
  truthy b v := (v ≠ 0, b+1)
  binary b _ _ x y _ := ((true, x+y), b+1)
  unary := none
  exists? := none
  length := none
  count := none
  leaf := none
  makeInvalid b _ := (-1, b+1)
  makeBool b v _ := (v, b+1)
  makeNumber b v _ := (v, b+1)
  makeString b key _ := (key.length, b+1)

theorem verified_slice_executes_safely_branch :
    (qvmExecuteEx branchProgram 5 0 5 integerOps 0 none none).1 = .ok 1 ∧
      Safe 8 0 0 ∅ (qvmExecuteEx branchProgram 5 0 5 integerOps 0 none none).2.events :=
  ⟨rfl, (verified_slice_executes_safely true true branchProgram 5 0 5 8 0 0 none integerOps 0
    none rfl (by decide)).2.2.1⟩

end SaltsUtils.QueryVm
