import SaltsUtils.QueryVm.Backend
import SaltsUtils.Dsv.LoweringSound

/-!
# A row of the document and its values

`dsv_filter_check_row` and `dsv_filter_check_values` of
`src/parser/csv_parser/src/dsv_filter.c` on the same fields, and `dsv_filter_run`. The
first converts a field with `strtod`, the others with `dsv_fast_atof`.
-/

set_option autoImplicit false

namespace SaltsUtils.Dsv

open SaltsUtils.Csv (Bytes CsvDoc Row nul)
open SaltsUtils.QueryVm

def DsvClause.ReadsNumber {D : Type} (clause : DsvClause D) (col : ℕ) : Prop :=
  clause.rhs_is_string = false ∧
    (clause.lhs_is_simple_col = true ∧ clause.col_idx = col ∨
      clause.lhs_is_simple_col = false ∧ .ident col ∈ clause.lhs_expr)

def DsvFilter.ReadsNumber {D : Type} (filter : DsvFilter D) (col : ℕ) : Prop :=
  ∃ clause ∈ filter.clauses, clause.ReadsNumber col

variable {col_count : ℕ}

section Operands
variable {D : Type} {b b' : DsvQvmBuilder D} {col : ℕ}

theorem add_operand_mem {operand : DsvOperand D} {i : ℕ} {x : DsvOperand D}
    (h : dsv_qvm_add_operand b operand = some (i, b')) (hx : x ∈ b'.operands) :
    x ∈ b.operands ∨ x = operand := by
  obtain ⟨-, ho, -⟩ := add_operand_eq h
  rw [ho] at hx
  simpa using hx

theorem load_mem {op : Opcode} {operand x : DsvOperand D} {s s' : ArithRegisters}
    (h : lowerLoad b s op operand = some (b', s')) (hx : x ∈ b'.operands) :
    x ∈ b.operands ∨ x = operand := by
  obtain ⟨reg, t, i, mid, -, hadd, hemit, -⟩ := load_cases h
  rw [(emit_eq hemit).2] at hx
  exact add_operand_mem hadd hx

theorem item_mem {s s' : ArithRegisters} {item : DsvExprItem D} {x : DsvOperand D}
    (h : lowerItem b s item = some (b', s')) (hx : x ∈ b'.operands) :
    x ∈ b.operands ∨ (∃ num, x = .number num) ∨ ∃ c, item = .ident c ∧ x = .column c true := by
  have hbinary : ∀ {op}, lowerBinary b s op = some (b', s') → x ∈ b.operands := by
    intro op h
    obtain ⟨rhs, lhs, regs, -, hemit, -⟩ := binary_cases h
    rw [(emit_eq hemit).2] at hx
    exact hx
  cases item with
  | number num =>
    rcases load_mem h hx with hx | hx
    · exact .inl hx
    · exact .inr (.inl ⟨num, hx⟩)
  | ident c =>
    rcases load_mem h hx with hx | hx
    · exact .inl hx
    · exact .inr (.inr ⟨c, rfl, hx⟩)
  | neg =>
    unfold lowerItem at h
    dsimp only at h
    split at h
    · contradiction
    · obtain ⟨b'', hemit, h⟩ := Option.map_eq_some_iff.mp h
      cases h
      rw [(emit_eq hemit).2] at hx
      exact .inl hx
  | add => exact .inl (hbinary h)
  | sub => exact .inl (hbinary h)
  | mul => exact .inl (hbinary h)
  | div => exact .inl (hbinary h)

theorem items_mem (items : List (DsvExprItem D)) : ∀ {b : DsvQvmBuilder D} {s s' : ArithRegisters},
    lowerItems b s items = some (b', s') → .column col true ∈ b'.operands →
    .column col true ∈ b.operands ∨ .ident col ∈ items := by
  induction items with
  | nil =>
    intro b s s' h hx
    cases h
    exact .inl hx
  | cons item items ih =>
    intro b s s' h hx
    unfold lowerItems at h
    split at h
    · contradiction
    · rename_i mid t hitem
      rcases ih h hx with hx | hx
      · rcases item_mem hitem hx with hx | ⟨num, hx⟩ | ⟨c, rfl, hx⟩
        · exact .inl hx
        · cases hx
        · cases hx
          exact .inr (by simp)
      · exact .inr (by simp [hx])

theorem clause_mem {clause : DsvClause D} (hc : clause.Compiled col_count)
    (h : lowerClause b clause = some b') (hx : .column col true ∈ b'.operands) :
    .column col true ∈ b.operands ∨ clause.ReadsNumber col := by
  unfold lowerClause at h
  have harith := hc.arith
  split_ifs at h with ha
  · have hsimple : clause.lhs_is_simple_col = false := by simpa [ha] using harith
    have htext : clause.rhs_is_string = false := by
      by_contra ht
      rw [hc.text (by simpa using ht)] at hsimple
      cases hsimple
    unfold dsv_qvm_lower_arith at h
    obtain ⟨⟨b₁, s⟩, hitems, h⟩ := Option.bind_eq_some_iff.mp h
    dsimp only at h
    split at h
    · obtain ⟨⟨i, b₂⟩, hadd, h⟩ := Option.bind_eq_some_iff.mp h
      obtain ⟨t, -, h⟩ := Option.bind_eq_some_iff.mp h
      obtain ⟨b₃, hload, hcmp⟩ := Option.bind_eq_some_iff.mp h
      rw [(emit_eq hcmp).2, (emit_eq hload).2] at hx
      rcases add_operand_mem hadd hx with hx | hx
      · exact (items_mem _ hitems hx).imp id fun hi => ⟨htext, .inr ⟨hsimple, hi⟩⟩
      · cases hx
    · contradiction
  · have hsimple : clause.lhs_is_simple_col = true := by simpa [ha] using harith
    unfold dsv_qvm_lower_simple at h
    split_ifs at h with ht
    · obtain ⟨⟨i, b₁⟩, hlhs, h⟩ := Option.bind_eq_some_iff.mp h
      obtain ⟨⟨j, b₂⟩, hrhs, hemit⟩ := Option.bind_eq_some_iff.mp h
      rw [(emit_eq hemit).2] at hx
      rcases add_operand_mem hrhs hx with hx | hx
      · rcases add_operand_mem hlhs hx with hx | hx
        · exact .inl hx
        · cases hx
      · cases hx
    · obtain ⟨⟨i, b₁⟩, hlhs, h⟩ := Option.bind_eq_some_iff.mp h
      obtain ⟨⟨j, b₂⟩, hrhs, hemit⟩ := Option.bind_eq_some_iff.mp h
      rw [(emit_eq hemit).2] at hx
      rcases add_operand_mem hrhs hx with hx | hx
      · rcases add_operand_mem hlhs hx with hx | hx
        · exact .inl hx
        · cases hx
          exact .inr ⟨by simpa using ht, .inl ⟨hsimple, rfl⟩⟩
      · cases hx

theorem clauses_mem (joins : List DsvJoin) (clauses : List (DsvClause D)) :
    ∀ {i : ℕ} {b : DsvQvmBuilder D} {pending : Option ℕ},
    (∀ clause ∈ clauses, clause.Compiled col_count) →
    lowerClauses joins i b pending clauses = some b' → .column col true ∈ b'.operands →
    .column col true ∈ b.operands ∨ ∃ clause ∈ clauses, clause.ReadsNumber col := by
  induction clauses with
  | nil =>
    intro i b pending _ h hx
    rw [← Option.some_inj.mp h, patch_operands] at hx
    exact .inl hx
  | cons clause rest ih =>
    intro i b pending hc h hx
    rw [lowerClauses_cons] at h
    obtain ⟨b₁, hclause, h⟩ := Option.bind_eq_some_iff.mp h
    have hrest : .column col true ∈ b₁.operands ∨ ∃ clause ∈ rest, clause.ReadsNumber col := by
      unfold lowerRest at h
      split_ifs at h
      · rw [← Option.some_inj.mp h, patch_operands] at hx
        exact .inl hx
      · obtain ⟨b₂, hemit, h⟩ := Option.bind_eq_some_iff.mp h
        rcases ih (fun c hm => hc c (by simp [hm])) h hx with hx | hx
        · rw [(emit_eq hemit).2, patch_operands] at hx
          exact .inl hx
        · exact .inr hx
    rcases hrest with hx | ⟨c, hm, hr⟩
    · exact (clause_mem (hc clause (by simp)) hclause hx).imp id fun hr => ⟨clause, by simp, hr⟩
    · exact .inr ⟨c, by simp [hm], hr⟩

theorem lowered_mem {filter : DsvFilter D} {limits : Option Limits} {lowered : LoweredFilter D}
    (h : dsv_lower_to_qvm filter limits = some lowered)
    (hx : .column col true ∈ lowered.operands) : filter.ReadsNumber col := by
  unfold dsv_lower_to_qvm at h
  split at h
  · contradiction
  · rename_i b hbuild
    split at h
    · contradiction
    · cases h
      unfold buildSlice at hbuild
      split at hbuild
      · contradiction
      · rename_i b' hlower
        split_ifs at hbuild
        cases hbuild
        rcases clauses_mem _ _ filter.compiled hlower hx with hx | hx
        · cases hx
        · exact hx

end Operands

section Views
variable {D : Type} [Arithmetic D] [Comparison D]

/-- Two views show the same texts, and the same numbers in some columns. -/
structure RowView.Alike (cols : ℕ → Prop) (view view' : RowView D) : Prop where
  text : ∀ col, (view.text col).getD [] = (view'.text col).getD []
  number : ∀ col, cols col → view.number col = view'.number col

open Classical in
/-- What the callbacks can see of a row. -/
noncomputable def DsvQvmCtx.seen (ctx : DsvQvmCtx D) : DsvQvmCtx D where
  operands := ctx.operands
  view :=
    { text := fun col => some ((ctx.view.text col).getD [])
      number := fun col =>
        if .column col true ∈ ctx.operands then ctx.view.number col else Arithmetic.ofNat 0 }

omit [Comparison D] in
theorem resolve_seen (ctx : DsvQvmCtx D) (operand : ℕ) (out : QvmValue D) :
    dsv_qvm_resolve_value ctx.seen operand out = dsv_qvm_resolve_value ctx operand out := by
  unfold dsv_qvm_resolve_value
  cases ho : ctx.operands[operand]? with
  | none =>
    have ho' : ctx.seen.operands[operand]? = none := ho
    rw [ho']
  | some o =>
    have ho' : ctx.seen.operands[operand]? = some o := ho
    rw [ho']
    cases o with
    | column col as_number =>
      cases as_number with
      | true => simp [DsvQvmCtx.seen, List.mem_of_getElem? ho]
      | false => rfl
    | number num => rfl
    | string str => rfl

theorem ops_seen : Commutes DsvQvmCtx.seen (dsv_qvm_ops (D := D)) dsv_qvm_ops where
  resolve s i v := by simp only [dsv_qvm_ops, carry, resolve_seen]
  truthy s v := rfl
  binary s op arg l r v := rfl
  unary := .some fun s op x v => rfl
  exists? := .none
  length := .none
  count := .none
  leaf := .some fun s op arg x y v => by simp only [dsv_qvm_leaf, carry, resolve_seen]
  makeInvalid s v := rfl
  makeBool s b v := rfl
  makeNumber s n v := rfl
  makeString s t v := rfl

theorem run_alike {lowered : LoweredFilter D} {view view' : RowView D}
    (h : view.Alike (fun col => .column col true ∈ lowered.operands) view') :
    dsv_qvm_run lowered view = dsv_qvm_run lowered view' := by
  have hseen : (⟨lowered.operands, view⟩ : DsvQvmCtx D).seen =
      (⟨lowered.operands, view'⟩ : DsvQvmCtx D).seen := by
    unfold DsvQvmCtx.seen
    congr 2
    · funext col
      exact congrArg some (h.text col)
    · funext col
      split_ifs with hc
      · exact h.number col hc
      · rfl
  have hrun : ∀ v : RowView D, dsv_qvm_run lowered v =
      (qvmExecuteEx (fetch lowered.expr_vm) lowered.expr_vm.length 0 lowered.expr_vm.length
        dsv_qvm_ops (⟨lowered.operands, v⟩ : DsvQvmCtx D).seen none
        (some lowered.qvm_limits)).1 := by
    intro v
    rw [execute_carried ops_seen]
    rfl
  rw [hrun, hrun, hseen]

omit [Comparison D] in
theorem items_alike {col_count cap : ℕ} {view view' : RowView D} (items : List (DsvExprItem D)) :
    ∀ stack : List D, (∀ col, .ident col ∈ items → view.number col = view'.number col) →
    evalItems col_count cap view items stack = evalItems col_count cap view' items stack := by
  induction items with
  | nil =>
    intro stack _
    cases stack <;> rfl
  | cons item items ih =>
    intro stack h
    have hrest : ∀ stack, evalItems col_count cap view items stack =
      evalItems col_count cap view' items stack := fun stack => ih stack fun col hm =>
        h col (by simp [hm])
    cases item with
    | number num => simp only [evalItems, hrest]
    | ident col => simp only [evalItems, hrest, h col (by simp)]
    | neg =>
      cases stack with
      | nil => rfl
      | cons x stack => simp only [evalItems, hrest]
    | add =>
      rcases stack with _ | ⟨x, _ | ⟨y, stack⟩⟩
      · rfl
      · rfl
      · simp only [evalItems, hrest]
    | sub =>
      rcases stack with _ | ⟨x, _ | ⟨y, stack⟩⟩
      · rfl
      · rfl
      · simp only [evalItems, hrest]
    | mul =>
      rcases stack with _ | ⟨x, _ | ⟨y, stack⟩⟩
      · rfl
      · rfl
      · simp only [evalItems, hrest]
    | div =>
      rcases stack with _ | ⟨x, _ | ⟨y, stack⟩⟩
      · rfl
      · rfl
      · simp only [evalItems, hrest]

theorem clause_alike {clause : DsvClause D} {view view' : RowView D}
    (h : view.Alike clause.ReadsNumber view') :
    clauseHolds col_count clause view = clauseHolds col_count clause view' := by
  unfold clauseHolds
  split_ifs with ht
  · simp only [eval_str, h.text]
  · have hn : clause.rhs_is_string = false := by simpa using ht
    congr 1
    unfold eval_lhs_numeric_expr
    by_cases hs : clause.lhs_is_simple_col = true
    · rw [if_pos hs, if_pos hs, h.number _ ⟨hn, .inl ⟨hs, rfl⟩⟩]
    · have hs' : clause.lhs_is_simple_col = false := by simpa using hs
      have hitems := fun cap => @items_alike D _ col_count cap view view' clause.lhs_expr []
        fun col hm => h.number col ⟨hn, .inr ⟨hs', hm⟩⟩
      simp only [hs', Bool.false_eq_true, if_false, hitems]

theorem clauses_alike {joins : List DsvJoin} {view view' : RowView D} (clauses : List (DsvClause D)) :
    ∀ (i : ℕ) (result : Bool),
    view.Alike (fun col => ∃ clause ∈ clauses, clause.ReadsNumber col) view' →
    checkClauses col_count joins view i result clauses =
      checkClauses col_count joins view' i result clauses := by
  induction clauses with
  | nil =>
    intro i result _
    rfl
  | cons clause clauses ih =>
    intro i result h
    have hclause : view.Alike clause.ReadsNumber view' :=
      ⟨h.text, fun col hr => h.number col ⟨clause, by simp, hr⟩⟩
    have hrest := fun i result => ih i result
      ⟨h.text, fun col ⟨c, hm, hr⟩ => h.number col ⟨c, by simp [hm], hr⟩⟩
    simp only [checkClauses, clause_alike hclause, hrest]

theorem check_alike {filter : DsvFilter D} {limits : Option Limits} {view view' : RowView D}
    (h : view.Alike filter.ReadsNumber view') :
    checkFilter filter (dsv_lower_to_qvm filter limits) view =
      checkFilter filter (dsv_lower_to_qvm filter limits) view' := by
  unfold checkFilter
  cases hl : dsv_lower_to_qvm filter limits with
  | none => exact clauses_alike _ _ _ h
  | some lowered =>
    have hrun := @run_alike D _ _ lowered view view'
      ⟨h.text, fun col hm => h.number col (lowered_mem hl hm)⟩
    simp only [hrun]

theorem check_default (filter : DsvFilter D) (view : RowView D) :
    checkFilter filter (dsv_lower_to_qvm filter none) view = checkNative filter view := by
  unfold checkFilter
  cases hl : dsv_lower_to_qvm filter none with
  | none => rfl
  | some lowered =>
    have hsteps : lowered.expr_vm.length ≤ (qvmResolveLimits none).maxSteps := by
      unfold dsv_lower_to_qvm at hl
      split at hl
      · contradiction
      · rename_i b hbuild
        split at hl
        · contradiction
        · cases hl
          exact (built_fits hbuild).2
    exact lowered_check hl hsteps view

end Views

section Rows
variable {D : Type} [Arithmetic D] [Comparison D]

/-- The number that `csv_get_double` makes of a field. -/
def strtodReading (strtod : Bytes → D) (field : Bytes) : D :=
  if field.takeWhile (· ≠ nul) = [] then Arithmetic.ofNat 0
  else strtod (field.takeWhile (· ≠ nul))

/-- The two conversions of a field give the same number. -/
def ReadAlike (strtod : Bytes → D) (field : Bytes) : Prop :=
  strtodReading strtod field = dsv_fast_atof field

/-- Two numbers are the same if no comparison of them tells them apart and none of their
reciprocals does: these differ for the two zeros. -/
class Separating (D : Type) [Arithmetic D] [Comparison D] : Prop where
  separated : ∀ x y : D, (∀ op c, eval_num op x c = eval_num op y c) →
    (∀ op c, eval_num op (Arithmetic.div (Arithmetic.ofNat 1) x) c =
      eval_num op (Arithmetic.div (Arithmetic.ofNat 1) y) c) → x = y

/-- The cursor loop of `dsv_filter_run` from a row on: the rows that the callback gets, by index
and fields. -/
def runLoop (filter : DsvFilter D) (lowered : Option (LoweredFilter D)) :
    ℕ → List Row → List (ℕ × Row)
  | _, [] => []
  | i, row::rest =>
    if dsv_filter_check_values filter lowered row = some true then
      (i, row)::runLoop filter lowered (i + 1) rest
    else runLoop filter lowered (i + 1) rest

def dsv_filter_run (filter : DsvFilter D) (lowered : Option (LoweredFilter D)) (doc : CsvDoc)
    (header_row : ℕ) : List (ℕ × Row) :=
  runLoop filter lowered (header_row + 1) (doc.rows.drop (header_row + 1))

variable {strtod : Bytes → D} {doc : CsvDoc} {r : ℕ} {row : Row}

omit [Comparison D] in
theorem doc_text (hrow : doc.rows[r]? = some row) (col : ℕ) :
    ((docView strtod doc r).text col).getD [] = dsv_value_at row col := by
  simp [docView, csv_get_v, hrow, dsv_value_at]

omit [Comparison D] in
theorem doc_number (hrow : doc.rows[r]? = some row) (col : ℕ) :
    (docView strtod doc r).number col =
      match row[col]? with
      | none => Arithmetic.ofNat 0
      | some field => strtodReading strtod field := by
  cases hfield : row[col]? <;>
    simp [docView, csv_get_double, csv_get_v, hrow, strtodReading, hfield]

omit [Comparison D] in
theorem values_number (row : Row) (col : ℕ) :
    (valuesView row : RowView D).number col =
      match row[col]? with
      | none => Arithmetic.ofNat 0
      | some field => dsv_fast_atof field := by
  simp only [valuesView, dsv_value_double_at, dsv_value_at]
  cases row[col]? <;> rfl

omit [Comparison D] in
theorem views_alike (hrow : doc.rows[r]? = some row) {cols : ℕ → Prop}
    (h : ∀ col field, cols col → row[col]? = some field → ReadAlike strtod field) :
    (docView strtod doc r).Alike cols (valuesView row) where
  text := doc_text hrow
  number col hc := by
    rw [doc_number hrow, values_number]
    cases hf : row[col]? with
    | none => rfl
    | some field => exact h col field hc hf

theorem check_row_eq (strtod : Bytes → D) (hrow : doc.rows[r]? = some row) (filter : DsvFilter D)
    (lowered : Option (LoweredFilter D)) : dsv_filter_check_row strtod filter lowered doc r =
      checkFilter filter lowered (docView strtod doc r) := by
  have hr : ¬ r ≥ doc.row_count := by
    have := (List.getElem?_eq_some_iff.mp hrow).1
    unfold CsvDoc.row_count
    omega
  unfold dsv_filter_check_row
  rw [if_neg hr]

theorem row_agrees (hrow : doc.rows[r]? = some row) (filter : DsvFilter D) (limits : Option Limits)
    (h : ∀ col field, filter.ReadsNumber col → row[col]? = some field → ReadAlike strtod field) :
    dsv_filter_check_row strtod filter (dsv_lower_to_qvm filter limits) doc r =
      dsv_filter_check_values filter (dsv_lower_to_qvm filter limits) row := by
  rw [check_row_eq strtod hrow]
  exact check_alike (views_alike hrow h)

def clauseFilter (col_count : ℕ) (clause : DsvClause D) (h : clause.Compiled col_count) :
    DsvFilter D where
  col_count := col_count
  clauses := [clause]
  joins := []
  nonempty := nofun
  joined := rfl
  compiled := by
    intro c hc
    rw [List.mem_singleton.mp hc]
    exact h

theorem alike_of_agree [Separating D] (hrow : doc.rows[r]? = some row)
    (h : ∀ filter : DsvFilter D, filter.col_count = doc.column_count →
      dsv_filter_check_row strtod filter (dsv_lower_to_qvm filter none) doc r =
        dsv_filter_check_values filter (dsv_lower_to_qvm filter none) row)
    {col : ℕ} {field : Bytes} (hcol : col < doc.column_count) (hf : row[col]? = some field) :
    ReadAlike strtod field := by
  have hdoc : (docView strtod doc r).number col = strtodReading strtod field := by
    rw [doc_number hrow, hf]
  have hvalues : (valuesView row : RowView D).number col = dsv_fast_atof field := by
    rw [values_number, hf]
  have hnative : ∀ clause : DsvClause D, clause.Compiled doc.column_count →
      clauseHolds doc.column_count clause (docView strtod doc r) =
        clauseHolds doc.column_count clause (valuesView row) := by
    intro clause hc
    have := h (clauseFilter doc.column_count clause hc) rfl
    rw [check_row_eq strtod hrow, check_default] at this
    unfold dsv_filter_check_values at this
    rw [check_default] at this
    simp only [checkNative, clauseFilter, checkClauses, joinResult, if_true] at this
    revert this
    cases clauseHolds doc.column_count clause (docView strtod doc r) <;>
      cases clauseHolds doc.column_count clause (valuesView row) <;> simp
  apply Separating.separated
  · intro op c
    have := hnative ⟨col, true, false, [], op, false, c, []⟩
      ⟨rfl, by simp, fun _ => hcol, by simp⟩
    simpa [clauseHolds, eval_lhs_numeric_expr, Nat.not_le.mpr hcol, hdoc, hvalues] using this
  · intro op c
    have := hnative ⟨0, false, true, [.number (Arithmetic.ofNat 1), .ident col, .div], op, false, c, []⟩
      ⟨rfl, by simp, by simp, by simpa using hcol⟩
    simpa [clauseHolds, eval_lhs_numeric_expr, evalItems, Nat.not_le.mpr hcol, hdoc, hvalues]
      using this

theorem runLoop_eq (filter : DsvFilter D) (lowered : Option (LoweredFilter D)) (rows : List Row) :
    ∀ i, (∀ k row, rows[k]? = some row →
      dsv_filter_check_row strtod filter lowered doc (i + k) =
        dsv_filter_check_values filter lowered row) →
    (runLoop filter lowered i rows).map Prod.fst = (List.range' i rows.length).filter fun k =>
      dsv_filter_check_row strtod filter lowered doc k = some true := by
  induction rows with
  | nil =>
    intro i _
    rfl
  | cons row rows ih =>
    intro i h
    have hfirst := h 0 row rfl
    have hrest := ih (i + 1) fun k row hk => by
      have := h (k + 1) row hk
      rwa [show i + (k + 1) = i + 1 + k by omega] at this
    rw [Nat.add_zero] at hfirst
    rw [List.length_cons, List.range'_succ, List.filter_cons, hfirst, runLoop]
    by_cases hc : dsv_filter_check_values filter lowered row = some true
    · rw [if_pos hc, if_pos (decide_eq_true hc), List.map_cons, hrest]
    · rw [if_neg hc, if_neg (by simpa using hc), hrest]

end Rows

theorem wholeSeparating : @Separating ℤ wholeArithmetic wholeComparison :=
  let _ := wholeArithmetic
  let _ := wholeComparison
  { separated := by
      intro x y h _
      have hxy : decide (x = y) = decide (y = y) := h .eq y
      simpa using hxy }

/-- `strtod` on numerals that are integers: digits and an exponent. -/
def wholeStrtod (text : Bytes) : ℤ :=
  let digits := readDigits 0 0 text
  match digits.2.2 with
  | e::rest => if e = 101 ∨ e = 69 then digits.1 * 10 ^ (readDigits 0 0 rest).1 else digits.1
  | [] => digits.1

/-- The header `n` and the row `5`. -/
def oneColumn : CsvDoc := { rows := [[[110]], [[53]]], column_count := 1 }

/-- `n > 500` over one column. -/
def largeFilter : DsvFilter ℤ where
  col_count := 1
  clauses := [⟨0, true, false, [], .gt, false, 500, []⟩]
  joins := []
  nonempty := nofun
  joined := rfl
  compiled := by
    simp only [List.forall_mem_cons]
    exact ⟨⟨rfl, by simp, by simp, by simp⟩, by simp⟩

end SaltsUtils.Dsv
