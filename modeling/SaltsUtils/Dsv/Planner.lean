import SaltsUtils.Dsv.RangeScan

/-!
# Planning a filter over an index

`dsv_filter_index_seek` of `src/parser/csv_parser/src/dsv_filter.c` turns a list of
clauses into at most `DSV_INDEX_MAX_QUERY_RANGES` ranges of the index.
-/

set_option autoImplicit false

namespace SaltsUtils.Dsv

open SaltsUtils.Csv (Bytes)

structure PlanRange (α : Type) where
  query : DsvQuery α
  has_text : Bool
deriving DecidableEq

section Plan
variable {α : Type} [LinearOrder α] [Arithmetic (Double α)]

def dsv_index_apply_lower (query : DsvQuery α) (value : Double α) (inclusive : Bool) :
    DsvQuery α :=
  if !query.has_lower_number || query.lower_number.lt value ||
      (value.same query.lower_number && !inclusive && query.lower_inclusive) then
    { query with has_lower_number := true, lower_number := value, lower_inclusive := inclusive }
  else query

def dsv_index_apply_upper (query : DsvQuery α) (value : Double α) (inclusive : Bool) :
    DsvQuery α :=
  if !query.has_upper_number || value.lt query.upper_number ||
      (value.same query.upper_number && !inclusive && query.upper_inclusive) then
    { query with has_upper_number := true, upper_number := value, upper_inclusive := inclusive }
  else query

namespace PlanRange

def lower (range : PlanRange α) (value : Double α) (inclusive : Bool) : PlanRange α :=
  { range with query := dsv_index_apply_lower range.query value inclusive }

def upper (range : PlanRange α) (value : Double α) (inclusive : Bool) : PlanRange α :=
  { range with query := dsv_index_apply_upper range.query value inclusive }

/-- The range after `memset`. -/
def zero : PlanRange α where
  query := ⟨none, false, false, Arithmetic.ofNat 0, false, false, Arithmetic.ofNat 0⟩
  has_text := false

end PlanRange

/-- Nothing if there is no room for the range. -/
def dsv_index_plan_append (ranges : List (PlanRange α)) (range : PlanRange α) :
    Option (List (PlanRange α)) :=
  if range.query.isEmpty then some ranges
  else if ranges.length ≥ DSV_INDEX_MAX_QUERY_RANGES then none
  else some (ranges ++ [range])

def intersectText (op : DsvOp) (value : Bytes) :
    List (PlanRange α) → Except String (List (PlanRange α))
  | [] => .ok []
  | range::rest =>
    if !range.has_text then
      if op = .ne then .error "text != requires an existing equality-constrained index prefix"
      else (intersectText op value rest).map
        (⟨{ range.query with text_equals := some value }, true⟩::·)
    else
      let equal := range.query.text_equals = some value
      if (op = .eq ∧ equal) ∨ (op = .ne ∧ ¬ equal) then
        (intersectText op value rest).map (range::·)
      else intersectText op value rest

def dsv_index_plan_intersect_text (ranges : List (PlanRange α)) (clause : DsvClause (Double α)) :
    Except String (List (PlanRange α)) :=
  if clause.op ≠ .eq ∧ clause.op ≠ .ne then
    .error "text index predicates support only == and !="
  else intersectText clause.op clause.rhs_str ranges

def numberRanges (op : DsvOp) (value : Double α) (range : PlanRange α) : List (PlanRange α) :=
  match op with
  | .eq => [(range.lower value true).upper value true]
  | .ne => [range.upper value false, range.lower value false]
  | .gt => [range.lower value false]
  | .ge => [range.lower value true]
  | .lt => [range.upper value false]
  | .le => [range.upper value true]

def capacityError : String := "index predicate exceeds DSV_INDEX_MAX_QUERY_RANGES"

def intersectNumber (op : DsvOp) (value : Double α) :
    List (PlanRange α) → List (PlanRange α) → Except String (List (PlanRange α))
  | next, [] => .ok next
  | next, range::rest =>
    match (numberRanges op value range).foldlM dsv_index_plan_append next with
    | none => .error capacityError
    | some next => intersectNumber op value next rest

def dsv_index_plan_intersect_number (ranges : List (PlanRange α)) (clause : DsvClause (Double α)) :
    Except String (List (PlanRange α)) :=
  intersectNumber clause.op clause.rhs_num [] ranges

def dsv_index_plan_intersect_clause (ranges : List (PlanRange α)) (clause : DsvClause (Double α))
    (text_column number_column : ℕ) : Except String (List (PlanRange α)) :=
  if clause.col_idx = text_column ∧ clause.rhs_is_string = true then
    dsv_index_plan_intersect_text ranges clause
  else if clause.col_idx = number_column ∧ clause.rhs_is_string = false then
    dsv_index_plan_intersect_number ranges clause
  else .error "filter contains a predicate not covered by this index"

def dsv_index_plan_union_clause (ranges : List (PlanRange α)) (clause : DsvClause (Double α))
    (text_column number_column : ℕ) : Except String (List (PlanRange α)) :=
  let range : PlanRange α := .zero
  if clause.col_idx = text_column ∧ clause.rhs_is_string = true then
    if clause.op ≠ .eq then .error "OR on the text index prefix requires equality"
    else
      match dsv_index_plan_append ranges
          ⟨{ range.query with text_equals := some clause.rhs_str }, true⟩ with
      | none => .error capacityError
      | some ranges => .ok ranges
  else if clause.col_idx = number_column ∧ clause.rhs_is_string = false then
    match dsv_index_plan_intersect_number [range] clause with
    | .error message => .error message
    | .ok additions =>
      if ranges.length > DSV_INDEX_MAX_QUERY_RANGES - additions.length then .error capacityError
      else .ok (ranges ++ additions)
  else .error "filter contains an OR predicate not covered by this index"

def planClauses (joins : List DsvJoin) (text_column number_column : ℕ) :
    ℕ → List (PlanRange α) → List (DsvClause (Double α)) → Except String (List (PlanRange α))
  | _, ranges, [] => .ok ranges
  | i, ranges, clause::rest =>
    if !clause.lhs_is_simple_col || clause.lhs_has_arith then
      .error "index seek requires simple column predicates"
    else
      match
        if i = 0 ∨ joins[i-1]? = some .and then
          dsv_index_plan_intersect_clause ranges clause text_column number_column
        else dsv_index_plan_union_clause ranges clause text_column number_column with
      | .error message => .error message
      | .ok ranges => planClauses joins text_column number_column (i + 1) ranges rest

def dsv_filter_index_seek (qsort : List (DsvRange α) → List (DsvRange α))
    (filter : DsvFilter (Double α)) (index : DsvIndex α) : Except String (DsvCursor α) :=
  match planClauses filter.joins index.text_column index.number_column 0 [.zero]
      filter.clauses with
  | .error message => .error message
  | .ok ranges =>
    if ∃ range ∈ ranges, range.has_text = false then
      .error "every OR range must constrain the leading text index column"
    else if ranges = [] then .ok {}
    else
      match dsv_index_seek_many qsort index (ranges.map PlanRange.query) with
      | none => .error "failed to seek DSV index"
      | some cursor => .ok cursor

end Plan

section Coverage
variable {α : Type} [LinearOrder α]

def DsvQuery.aboveLower (q : DsvQuery α) (x : Double α) : Bool :=
  !q.has_lower_number || q.lower_number.lt x || (x.same q.lower_number && q.lower_inclusive)

def DsvQuery.belowUpper (q : DsvQuery α) (x : Double α) : Bool :=
  !q.has_upper_number || x.lt q.upper_number || (x.same q.upper_number && q.upper_inclusive)

def PlanRange.Matches (r : PlanRange α) (e : DsvEntry α) : Bool :=
  (!r.has_text || r.query.text_equals = some e.text_key) &&
    r.query.aboveLower e.number_key && r.query.belowUpper e.number_key

variable {q : DsvQuery α}

theorem apply_lower_above (hq : q.Proper) (v x : α) (inclusive : Bool) :
    (dsv_index_apply_lower q (.num v) inclusive).aboveLower (.num x) =
      (q.aboveLower (.num x) && (decide (v < x) || (decide (x = v) && inclusive))) := by
  unfold dsv_index_apply_lower DsvQuery.aboveLower
  cases hl : q.has_lower_number with
  | false => simp
  | true =>
    obtain ⟨w, hw⟩ := Double.exists_of_ne_nan (hq.lower hl)
    rw [Bool.eq_iff_iff]
    split_ifs with h <;>
    · simp only [hw, Double.lt_num, Double.same_num, Bool.or_eq_true, Bool.and_eq_true,
        Bool.not_eq_true', decide_eq_true_eq, hl] at h ⊢
      grind

theorem apply_upper_below (hq : q.Proper) (v x : α) (inclusive : Bool) :
    (dsv_index_apply_upper q (.num v) inclusive).belowUpper (.num x) =
      (q.belowUpper (.num x) && (decide (x < v) || (decide (x = v) && inclusive))) := by
  unfold dsv_index_apply_upper DsvQuery.belowUpper
  cases hu : q.has_upper_number with
  | false => simp
  | true =>
    obtain ⟨w, hw⟩ := Double.exists_of_ne_nan (hq.upper hu)
    rw [Bool.eq_iff_iff]
    split_ifs with h <;>
    · simp only [hw, Double.lt_num, Double.same_num, Bool.or_eq_true, Bool.and_eq_true,
        Bool.not_eq_true', decide_eq_true_eq, hu] at h ⊢
      grind

theorem apply_lower_proper (hq : q.Proper) (v : α) (inclusive : Bool) :
    (dsv_index_apply_lower q (.num v) inclusive).Proper := by
  unfold dsv_index_apply_lower
  split_ifs
  · exact ⟨fun _ => nofun, hq.upper⟩
  · exact hq

theorem apply_upper_proper (hq : q.Proper) (v : α) (inclusive : Bool) :
    (dsv_index_apply_upper q (.num v) inclusive).Proper := by
  unfold dsv_index_apply_upper
  split_ifs
  · exact ⟨hq.lower, fun _ => nofun⟩
  · exact hq

variable {r : PlanRange α} {e : DsvEntry α} {x : α}

theorem lower_matches (hr : r.query.Proper) (hx : e.number_key = .num x) (v : α) (inclusive : Bool) :
    (r.lower (.num v) inclusive).Matches e =
      (r.Matches e && (decide (v < x) || (decide (x = v) && inclusive))) := by
  have hsame : (dsv_index_apply_lower r.query (.num v) inclusive).text_equals =
        r.query.text_equals ∧
      (dsv_index_apply_lower r.query (.num v) inclusive).belowUpper (.num x) =
        r.query.belowUpper (.num x) := by
    unfold dsv_index_apply_lower
    split_ifs <;> exact ⟨rfl, rfl⟩
  simp only [PlanRange.Matches, PlanRange.lower, hx, apply_lower_above hr, hsame]
  ac_rfl

theorem upper_matches (hr : r.query.Proper) (hx : e.number_key = .num x) (v : α) (inclusive : Bool) :
    (r.upper (.num v) inclusive).Matches e =
      (r.Matches e && (decide (x < v) || (decide (x = v) && inclusive))) := by
  have hsame : (dsv_index_apply_upper r.query (.num v) inclusive).text_equals =
        r.query.text_equals ∧
      (dsv_index_apply_upper r.query (.num v) inclusive).aboveLower (.num x) =
        r.query.aboveLower (.num x) := by
    unfold dsv_index_apply_upper
    split_ifs <;> exact ⟨rfl, rfl⟩
  simp only [PlanRange.Matches, PlanRange.upper, hx, apply_upper_below hr, hsame]
  ac_rfl

theorem empty_matches (hr : r.query.Proper) (hx : e.number_key = .num x)
    (h : r.query.isEmpty = true) : r.Matches e = false := by
  unfold DsvQuery.isEmpty at h
  rw [Bool.and_eq_true, Bool.and_eq_true] at h
  obtain ⟨v, hv⟩ := Double.exists_of_ne_nan (hr.lower h.1.1)
  obtain ⟨w, hw⟩ := Double.exists_of_ne_nan (hr.upper h.1.2)
  have h := h.2
  simp only [hv, hw, Double.lt_num, Double.same_num, Bool.or_eq_true, Bool.and_eq_true,
    Bool.not_eq_true', decide_eq_true_eq] at h
  rw [PlanRange.Matches, Bool.and_assoc, Bool.and_eq_false_iff]
  right
  unfold DsvQuery.aboveLower DsvQuery.belowUpper
  simp only [*, Double.lt_num, Double.same_num]
  grind

theorem numberRanges_matches (hr : r.query.Proper) (hx : e.number_key = .num x) (op : DsvOp) (v : α) :
    (numberRanges op (.num v) r).any (·.Matches e) =
      (r.Matches e && eval_num op e.number_key (.num v)) := by
  have hr' : (r.lower (.num v) true).query.Proper := apply_lower_proper hr v true
  rw [hx]
  cases op <;> simp only [numberRanges, List.any_cons, List.any_nil, Bool.or_false,
    lower_matches hr hx, upper_matches hr hx, upper_matches hr' hx, eval_num, Comparison.lt,
    Comparison.same, Double.lt_num, Double.same_num, Bool.and_true, Bool.and_false] <;>
    grind

theorem numberRanges_proper (hr : r.query.Proper) (op : DsvOp) (v : α) :
    ∀ s ∈ numberRanges op (.num v) r, s.query.Proper := by
  have hl := fun inclusive => apply_lower_proper hr v inclusive
  have hu := fun inclusive => apply_upper_proper hr v inclusive
  cases op <;> simp [numberRanges, PlanRange.lower, PlanRange.upper, hl, hu,
    apply_upper_proper (hl true)]

variable {ranges out : List (PlanRange α)}

theorem plan_append_matches (hr : r.query.Proper) (h : dsv_index_plan_append ranges r = some out)
    (hx : e.number_key = .num x) :
    out.any (·.Matches e) = (ranges.any (·.Matches e) || r.Matches e) := by
  unfold dsv_index_plan_append at h
  split_ifs at h with hempty
  · simp [← Option.some_inj.mp h, empty_matches hr hx hempty]
  · simp [← Option.some_inj.mp h]

theorem plan_append_proper (hr : r.query.Proper) (hranges : ∀ s ∈ ranges, s.query.Proper)
    (h : dsv_index_plan_append ranges r = some out) : ∀ s ∈ out, s.query.Proper := by
  unfold dsv_index_plan_append at h
  split_ifs at h
  · exact Option.some_inj.mp h ▸ hranges
  · rw [← Option.some_inj.mp h]
    simpa [or_imp, forall_and, hr] using hranges

structure Plans (ranges : List (PlanRange α)) (holds : DsvEntry α → Bool) : Prop where
  proper : ∀ r ∈ ranges, r.query.Proper
  covers : ∀ e, e.number_key ≠ .nan → ranges.any (·.Matches e) = holds e

variable {holds : DsvEntry α → Bool}

theorem Plans.append (h : Plans ranges holds) (hr : r.query.Proper)
    (hout : dsv_index_plan_append ranges r = some out) :
    Plans out fun e => holds e || r.Matches e where
  proper := plan_append_proper hr h.proper hout
  covers e he := by
    obtain ⟨x, hx⟩ := Double.exists_of_ne_nan he
    rw [plan_append_matches hr hout hx, h.covers e he]

theorem Plans.appendAll (pieces : List (PlanRange α)) : ∀ {ranges out : List (PlanRange α)}
    {holds : DsvEntry α → Bool}, Plans ranges holds → (∀ r ∈ pieces, r.query.Proper) →
    pieces.foldlM dsv_index_plan_append ranges = some out →
    Plans out fun e => holds e || pieces.any (·.Matches e) := by
  induction pieces with
  | nil =>
    intro ranges out holds h _ hout
    simpa [Option.some_inj.mp hout] using h
  | cons r pieces ih =>
    intro ranges out holds h hp hout
    rw [List.foldlM_cons] at hout
    obtain ⟨mid, hmid, hout⟩ := Option.bind_eq_some_iff.mp hout
    have := ih (h.append (hp r (by simp)) hmid) (fun s hs => hp s (by simp [hs])) hout
    simpa [Bool.or_assoc] using this

theorem intersectNumber_plans (op : DsvOp) (v : α) (ranges : List (PlanRange α)) :
    ∀ {next out : List (PlanRange α)} {holds : DsvEntry α → Bool}, Plans next holds →
    (∀ r ∈ ranges, r.query.Proper) → intersectNumber op (.num v) next ranges = .ok out →
    Plans out fun e => holds e ||
      (ranges.any (·.Matches e) && eval_num op e.number_key (.num v)) := by
  induction ranges with
  | nil =>
    intro next out holds h _ hout
    simpa [Except.ok.inj hout] using h
  | cons r ranges ih =>
    intro next out holds h hp hout
    have hr := hp r (by simp)
    rw [intersectNumber] at hout
    split at hout
    · contradiction
    · rename_i mid hmid
      have h₁ := h.appendAll _ (numberRanges_proper hr op v) hmid
      have h₂ := ih h₁ (fun s hs => hp s (by simp [hs])) hout
      refine ⟨h₂.proper, fun e he => ?_⟩
      obtain ⟨x, hx⟩ := Double.exists_of_ne_nan he
      rw [h₂.covers e he, numberRanges_matches hr hx, List.any_cons, Bool.and_or_distrib_right,
        Bool.or_assoc]

theorem Plans.nil : Plans ([] : List (PlanRange α)) fun _ => false :=
  ⟨by simp, by simp⟩

variable {clause : DsvClause (Double α)}

theorem intersect_number_plans (h : Plans ranges holds) (hv : clause.rhs_num ≠ .nan)
    (hout : dsv_index_plan_intersect_number ranges clause = .ok out) :
    Plans out fun e => holds e && eval_num clause.op e.number_key clause.rhs_num := by
  obtain ⟨v, hv⟩ := Double.exists_of_ne_nan hv
  rw [dsv_index_plan_intersect_number, hv] at hout
  have h' := intersectNumber_plans clause.op v ranges Plans.nil h.proper hout
  refine ⟨h'.proper, fun e he => ?_⟩
  rw [h'.covers e he, h.covers e he, hv, Bool.false_or]

theorem eval_str_eq (lhs rhs : Bytes) : eval_str .eq (some lhs) rhs = decide (lhs = rhs) := by
  simp [eval_str, cmp_bytes, compareText_eq_iff]

theorem eval_str_ne (lhs rhs : Bytes) : eval_str .ne (some lhs) rhs = decide (lhs ≠ rhs) := by
  simp [eval_str, cmp_bytes, compareText_eq_iff]

theorem matches_with_text (h : r.has_text = false) (value : Bytes) (e : DsvEntry α) :
    PlanRange.Matches ⟨{ r.query with text_equals := some value }, true⟩ e =
      (r.Matches e && decide (e.text_key = value)) := by
  have htext : decide (some value = some e.text_key) = decide (e.text_key = value) := by
    simp [eq_comm]
  simp only [PlanRange.Matches, h, Bool.not_true, Bool.not_false, Bool.false_or, Bool.true_or,
    htext, DsvQuery.aboveLower, DsvQuery.belowUpper]
  ac_rfl

theorem matches_text (htext : r.has_text = true) {op : DsvOp} (hop : op = .eq ∨ op = .ne)
    (value : Bytes) (h : r.Matches e = true) : eval_str op (some e.text_key) value = true ↔
      (op = .eq ∧ r.query.text_equals = some value) ∨
        (op = .ne ∧ ¬ r.query.text_equals = some value) := by
  have heq : r.query.text_equals = some e.text_key := by
    simp only [PlanRange.Matches, htext, Bool.not_true, Bool.false_or, Bool.and_eq_true,
      decide_eq_true_eq] at h
    exact h.1.1
  rcases hop with rfl | rfl
  · simp [eval_str_eq, heq]
  · simp [eval_str_ne, heq]

theorem intersectText_plans {op : DsvOp} (hop : op = .eq ∨ op = .ne) (value : Bytes)
    (ranges : List (PlanRange α)) : ∀ {out : List (PlanRange α)},
    (∀ r ∈ ranges, r.query.Proper) → intersectText op value ranges = .ok out →
    Plans out fun e => ranges.any (·.Matches e) && eval_str op (some e.text_key) value := by
  induction ranges with
  | nil =>
    intro out _ hout
    rw [← Except.ok.inj hout]
    exact ⟨by simp, by simp⟩
  | cons r ranges ih =>
    intro out hp hout
    have hr := hp r (by simp)
    have ih := fun {out} => @ih out fun s hs => hp s (by simp [hs])
    have hkept : ∀ {tail : List (PlanRange α)} {s : PlanRange α}, s.query.Proper →
        (∀ e, s.Matches e = (r.Matches e && eval_str op (some e.text_key) value)) →
        intersectText op value ranges = .ok tail →
        Plans (s::tail) fun e =>
          (r::ranges).any (·.Matches e) && eval_str op (some e.text_key) value := by
      intro tail s hs hmatch htail
      have h := ih htail
      refine ⟨by simpa [hs] using h.proper, fun e he => ?_⟩
      rw [List.any_cons, List.any_cons, h.covers e he, hmatch, Bool.and_or_distrib_right]
    unfold intersectText at hout
    dsimp only at hout
    split_ifs at hout with htext hne hequal
    · -- a range without a text takes the one of the clause
      obtain ⟨tail, htail, rfl⟩ := map_eq_ok.mp hout
      refine hkept ⟨hr.lower, hr.upper⟩ (fun e => ?_) htail
      rw [matches_with_text (by simpa using htext), hop.resolve_right hne, eval_str_eq]
    · obtain ⟨tail, htail, rfl⟩ := map_eq_ok.mp hout
      refine hkept hr (fun e => ?_) htail
      cases hm : r.Matches e with
      | false => rfl
      | true => exact ((matches_text (by simpa using htext) hop value hm).mpr hequal).symm
    · have h := ih hout
      refine ⟨h.proper, fun e he => ?_⟩
      rw [List.any_cons, h.covers e he, Bool.and_or_distrib_right]
      cases hm : r.Matches e with
      | false => rfl
      | true =>
        have := (matches_text (by simpa using htext) hop value hm).not.mpr hequal
        simp [Bool.eq_false_iff.mpr this]

def keysHold (clause : DsvClause (Double α)) (e : DsvEntry α) : Bool :=
  if clause.rhs_is_string then eval_str clause.op (some e.text_key) clause.rhs_str
  else eval_num clause.op e.number_key clause.rhs_num

/-- The clauses that a plan can stand for: they compare the text key for equality, or the number
key. -/
def Covered {D : Type} (text_column number_column : ℕ) (clause : DsvClause D) : Prop :=
  clause.lhs_is_simple_col = true ∧
    ((clause.col_idx = text_column ∧ clause.rhs_is_string = true ∧
        (clause.op = .eq ∨ clause.op = .ne)) ∨
      (clause.col_idx = number_column ∧ clause.rhs_is_string = false))

theorem intersect_clause_plans (h : Plans ranges holds) (hsimple : clause.lhs_is_simple_col = true)
    (hv : clause.rhs_num ≠ .nan) {tc nc : ℕ}
    (hout : dsv_index_plan_intersect_clause ranges clause tc nc = .ok out) :
    Covered tc nc clause ∧ Plans out fun e => holds e && keysHold clause e := by
  unfold dsv_index_plan_intersect_clause at hout
  split_ifs at hout with htext hnumber
  · obtain ⟨hop, hout⟩ := guard_eq_ok.mp hout
    have hop : clause.op = .eq ∨ clause.op = .ne := by tauto
    have h' := intersectText_plans hop clause.rhs_str ranges h.proper hout
    refine ⟨⟨hsimple, .inl ⟨htext.1, htext.2, hop⟩⟩, h'.proper, fun e he => ?_⟩
    rw [h'.covers e he, h.covers e he, keysHold, if_pos htext.2]
  · refine ⟨⟨hsimple, .inr hnumber⟩, ?_⟩
    simpa [keysHold, hnumber.2] using intersect_number_plans h hv hout

section Zero
variable [Arithmetic (Double α)]

theorem zero_plans : Plans [PlanRange.zero] fun _ : DsvEntry α => true where
  proper := by
    intro r hr
    obtain rfl := List.mem_singleton.mp hr
    exact ⟨nofun, nofun⟩
  covers e _ := by simp [PlanRange.zero, PlanRange.Matches, DsvQuery.aboveLower,
    DsvQuery.belowUpper]

theorem union_clause_plans (h : Plans ranges holds) (hsimple : clause.lhs_is_simple_col = true)
    (hv : clause.rhs_num ≠ .nan) {tc nc : ℕ}
    (hout : dsv_index_plan_union_clause ranges clause tc nc = .ok out) :
    Covered tc nc clause ∧ Plans out fun e => holds e || keysHold clause e := by
  unfold dsv_index_plan_union_clause at hout
  dsimp only at hout
  split_ifs at hout with htext hop hnumber
  · rw [not_not] at hop
    refine ⟨⟨hsimple, .inl ⟨htext.1, htext.2, .inl hop⟩⟩, ?_⟩
    split at hout
    · contradiction
    · rename_i appended happended
      rw [← Except.ok.inj hout]
      have h' := h.append (by constructor <;> simp [PlanRange.zero]) happended
      refine ⟨h'.proper, fun e he => ?_⟩
      rw [h'.covers e he, matches_with_text rfl, keysHold, if_pos htext.2, hop, eval_str_eq]
      simp [PlanRange.zero, PlanRange.Matches, DsvQuery.aboveLower, DsvQuery.belowUpper]
  · refine ⟨⟨hsimple, .inr hnumber⟩, ?_⟩
    split at hout
    · contradiction
    · rename_i additions hadditions
      obtain ⟨-, hout⟩ := guard_eq_ok.mp hout
      rw [← Except.ok.inj hout]
      have h' := intersect_number_plans zero_plans hv hadditions
      refine ⟨?_, fun e he => ?_⟩
      · simpa [or_imp, forall_and] using ⟨h.proper, h'.proper⟩
      · simp [h.covers e he, h'.covers e he, keysHold, hnumber.2]

end Zero

def keysResult (joins : List DsvJoin) (e : DsvEntry α) :
    ℕ → Bool → List (DsvClause (Double α)) → Bool
  | _, result, [] => result
  | i, result, clause::rest =>
    keysResult joins e (i + 1) (joinResult joins i result (keysHold clause e)) rest

/-- The ranges planned so far cover the entries for which the clauses so far hold. -/
theorem planClauses_plans [Arithmetic (Double α)] (joins : List DsvJoin) (tc nc : ℕ)
    (clauses : List (DsvClause (Double α))) : ∀ {i : ℕ} {ranges out : List (PlanRange α)}
    {holds : DsvEntry α → Bool}, (∀ clause ∈ clauses, clause.rhs_num ≠ .nan) →
    Plans ranges (fun e => decide (i = 0) || holds e) →
    planClauses joins tc nc i ranges clauses = .ok out →
    (∀ clause ∈ clauses, Covered tc nc clause) ∧
      Plans out fun e =>
        (decide (i = 0) && clauses.isEmpty) || keysResult joins e i (holds e) clauses := by
  induction clauses with
  | nil =>
    intro i ranges out holds _ h hout
    simpa [Except.ok.inj hout, keysResult] using h
  | cons clause rest ih =>
    intro i ranges out holds hv h hout
    unfold planClauses at hout
    obtain ⟨hsimple, hout⟩ := guard_eq_ok.mp hout
    have hsimple : clause.lhs_is_simple_col = true := by
      cases hc : clause.lhs_is_simple_col <;> simp [hc] at hsimple ⊢
    have hv' := hv clause (by simp)
    split at hout
    · contradiction
    · rename_i mid hmid
      have hstep : Covered tc nc clause ∧
          Plans mid fun e => joinResult joins i (holds e) (keysHold clause e) := by
        unfold joinResult
        split_ifs at hmid with hjoin
        · obtain ⟨hc, hp⟩ := intersect_clause_plans h hsimple hv' hmid
          refine ⟨hc, hp.proper, fun e he => (hp.covers e he).trans ?_⟩
          grind
        · obtain ⟨hc, hp⟩ := union_clause_plans h hsimple hv' hmid
          refine ⟨hc, hp.proper, fun e he => (hp.covers e he).trans ?_⟩
          grind
      obtain ⟨hcovered, hp⟩ := ih (fun c hc => hv c (by simp [hc])) (by simpa using hstep.2) hout
      exact ⟨by simpa [hstep.1] using hcovered, by simpa [keysResult] using hp⟩

/-- A row has the keys of an entry in the columns of an index. -/
structure CarriesKeys (index : DsvIndex α) (e : DsvEntry α) (view : RowView (Double α)) : Prop where
  text : (view.text index.text_column).getD [] = e.text_key
  number : view.number index.number_column = e.number_key

theorem clauseHolds_keys [Arithmetic (Double α)] {index : DsvIndex α} {view : RowView (Double α)}
    (hview : CarriesKeys index e view) {col_count : ℕ} (hc : clause.Compiled col_count)
    (hcovered : Covered index.text_column index.number_column clause) :
    clauseHolds col_count clause view = some (keysHold clause e) := by
  obtain ⟨hsimple, ⟨hcol, hstring, -⟩ | ⟨hcol, hstring⟩⟩ := hcovered
  · have hstr : eval_str clause.op (view.text clause.col_idx) clause.rhs_str =
        eval_str clause.op (some e.text_key) clause.rhs_str := by
      rw [← hview.text, hcol]
      rfl
    simp [clauseHolds, keysHold, hstring, hstr]
  · have hlt : ¬ index.number_column ≥ col_count := Nat.not_le_of_lt (hcol ▸ hc.column hsimple)
    simp [clauseHolds, keysHold, hstring, eval_lhs_numeric_expr, hsimple, hcol, hlt, hview.number]

theorem checkClauses_keys [Arithmetic (Double α)] {index : DsvIndex α} {view : RowView (Double α)}
    (hview : CarriesKeys index e view) (col_count : ℕ) (joins : List DsvJoin)
    (clauses : List (DsvClause (Double α))) : ∀ (i : ℕ) (result : Bool),
    (∀ clause ∈ clauses, clause.Compiled col_count) →
    (∀ clause ∈ clauses, Covered index.text_column index.number_column clause) →
    checkClauses col_count joins view i result clauses =
      some (keysResult joins e i result clauses) := by
  induction clauses with
  | nil => exact fun i result _ _ => rfl
  | cons clause rest ih =>
    intro i result hc hcovered
    rw [checkClauses, clauseHolds_keys hview (hc clause (by simp)) (hcovered clause (by simp))]
    exact ih _ _ (fun c h => hc c (by simp [h])) fun c h => hcovered c (by simp [h])

theorem plan_matches (h : r.has_text = true) (e : DsvEntry α) :
    r.query.Matches e = r.Matches e := by
  simp [DsvQuery.Matches, PlanRange.Matches, DsvQuery.aboveLower, DsvQuery.belowUpper, h]

end Coverage

/-- The cursor of a filter visits exactly the entries whose keys satisfy it, each once and in the
order of the index. A filter with a clause that no range of the index can stand for has no cursor. -/
theorem index_seek_exact {α : Type} [LinearOrder α] [Arithmetic (Double α)]
    (qsort : List (DsvRange α) → List (DsvRange α)) (filter : DsvFilter (Double α))
    (index : DsvIndex α)
    (hindex : dsv_index_validate_entries index.source_length none index.entries = .ok ())
    (hkeys : ∀ e ∈ index.entries, e.number_key ≠ .nan)
    (hnumbers : ∀ clause ∈ filter.clauses, clause.rhs_num ≠ .nan)
    (hsort : ∀ ranges, SortsWith qsort dsv_index_range_compare ranges) :
    (∀ cursor, dsv_filter_index_seek qsort filter index = .ok cursor →
      ∀ view : DsvEntry α → RowView (Double α),
        (∀ e ∈ index.entries, CarriesKeys index e (view e)) →
        Drains index cursor ((index.entries.filter fun e =>
          checkNative filter (view e) = some true).map DsvEntry.row)) ∧
    ((∃ clause ∈ filter.clauses, ¬ Covered index.text_column index.number_column clause) →
      ∃ message, dsv_filter_index_seek qsort filter index = .error message) := by
  unfold dsv_filter_index_seek
  cases hplan : planClauses filter.joins index.text_column index.number_column 0 [.zero]
      filter.clauses with
  | error message => exact ⟨nofun, fun _ => ⟨message, rfl⟩⟩
  | ok ranges =>
    have hstart : Plans [PlanRange.zero] fun _ : DsvEntry α => decide (0 = 0) || false := by
      simpa using zero_plans
    obtain ⟨hcovered, hplans⟩ := planClauses_plans filter.joins index.text_column
      index.number_column filter.clauses hnumbers hstart hplan
    refine ⟨fun cursor hseek view hview => ?_, fun ⟨clause, hclause, hnot⟩ =>
      absurd (hcovered clause hclause) hnot⟩
    have hcheck : ∀ e ∈ index.entries, decide (checkNative filter (view e) = some true) =
        ranges.any (·.Matches e) := by
      intro e he
      rw [checkNative, checkClauses_keys (hview e he) _ _ _ _ _ filter.compiled hcovered,
        hplans.covers e (hkeys e he)]
      simp [filter.nonempty]
    rw [List.filter_congr hcheck]
    obtain ⟨hordered, -⟩ := validate_ordered index.entries none hkeys (by simp) hindex
    obtain ⟨htext, hseek⟩ := guard_eq_ok.mp hseek
    have htext : ∀ r ∈ ranges, r.has_text = true := by simpa using htext
    split_ifs at hseek with hnil
    · subst hnil
      rw [← Except.ok.inj hseek]
      exact drains_scans index _ [] [] (by simp) (by simp [scans])
    · split at hseek
      · contradiction
      · rename_i found hfound
        rw [← Except.ok.inj hseek]
        have hany : ∀ e ∈ index.entries, ranges.any (·.Matches e) =
            (ranges.map PlanRange.query).any (·.Matches e) := by
          intro e _
          rw [List.any_map, Bool.eq_iff_iff, List.any_eq_true, List.any_eq_true]
          exact exists_congr fun r => and_congr_right fun hr => by
            rw [Function.comp_apply, plan_matches (htext r hr)]
        rw [List.filter_congr hany]
        refine seek_many_drains hordered ?_ (fun l _ => hsort l) hfound
        intro q hq
        obtain ⟨r, hr, rfl⟩ := List.mem_map.mp hq
        exact hplans.proper r hr

theorem insertRange_perm (r : DsvRange ℤ) (ranges : List (DsvRange ℤ)) :
    (insertRange r ranges).Perm (r::ranges) := by
  induction ranges with
  | nil => exact .refl _
  | cons s ranges ih =>
    rw [insertRange]
    split_ifs
    · exact (ih.cons s).trans (.swap r s ranges)
    · exact .refl _

theorem insertRange_sorted {l : List (DsvRange ℤ)} (hl : Consistent dsv_index_range_compare l)
    {r : DsvRange ℤ} (hr : r ∈ l) (ranges : List (DsvRange ℤ)) : (∀ s ∈ ranges, s ∈ l) →
    (ranges.Pairwise fun a b => dsv_index_range_compare a b ≠ .gt) →
    (insertRange r ranges).Pairwise fun a b => dsv_index_range_compare a b ≠ .gt := by
  induction ranges with
  | nil => simp [insertRange]
  | cons s ranges ih =>
    intro hmem hsorted
    obtain ⟨hs, hsorted'⟩ := List.pairwise_cons.mp hsorted
    have hmem' : ∀ t ∈ ranges, t ∈ l := fun t ht => hmem t (by simp [ht])
    rw [insertRange]
    split_ifs with h
    · refine List.pairwise_cons.mpr ⟨fun t ht => ?_, ih hmem' hsorted'⟩
      rcases List.mem_cons.mp ((insertRange_perm r ranges).mem_iff.mp ht) with rfl | ht
      · exact (hl.total _ hr s (hmem s (by simp))).resolve_left fun h' => h' h
      · exact hs t ht
    · refine List.pairwise_cons.mpr ⟨fun t ht => ?_, hsorted⟩
      rcases List.mem_cons.mp ht with rfl | ht
      · exact h
      · exact hl.trans r hr s (hmem s (by simp)) t (hmem' t ht) h (hs t ht)

theorem insertRange_sorts (l : List (DsvRange ℤ)) :
    SortsWith (fun l => l.foldr insertRange []) dsv_index_range_compare l := by
  intro hl
  have hsub : ∀ ranges : List (DsvRange ℤ), (∀ r ∈ ranges, r ∈ l) →
      (ranges.foldr insertRange []).Perm ranges ∧
        (ranges.foldr insertRange []).Pairwise fun a b => dsv_index_range_compare a b ≠ .gt := by
    intro ranges
    induction ranges with
    | nil => simp
    | cons r ranges ih =>
      intro hmem
      obtain ⟨hperm, hsorted⟩ := ih fun s hs => hmem s (by simp [hs])
      refine ⟨(insertRange_perm r _).trans (hperm.cons r), ?_⟩
      exact insertRange_sorted hl (hmem r (by simp)) _
        (fun s hs => hmem s (by simp [hperm.mem_iff.mp hs])) hsorted
  exact hsub l fun _ h => h

/-- `0 == "a" and 1 != 3 or 0 == "b"` over two columns. -/
def textAndNumber : DsvFilter (Double ℤ) where
  col_count := 2
  clauses := [⟨0, true, false, [], .eq, true, .num 0, [97]⟩,
    ⟨1, true, false, [], .ne, false, .num 3, []⟩, ⟨0, true, false, [], .eq, true, .num 0, [98]⟩]
  joins := [.and, .or]
  nonempty := nofun
  joined := rfl
  compiled := by
    simp only [List.forall_mem_cons]
    exact ⟨⟨rfl, by simp, by simp, by simp⟩, ⟨rfl, by simp, by simp, by simp⟩,
      ⟨rfl, by simp, by simp, by simp⟩, by simp⟩

@[reducible]
def integerArithmetic : Arithmetic (Double ℤ) where
  ofNat n := .num n
  neg
    | .num x => .num (-x)
    | .nan => .nan
  add
    | .num x, .num y => .num (x + y)
    | _, _ => .nan
  sub
    | .num x, .num y => .num (x - y)
    | _, _ => .nan
  mul
    | .num x, .num y => .num (x * y)
    | _, _ => .nan
  div _ _ := .nan

/-- Of three rows the second, with the number 3, is left out. -/
theorem index_seek_exact_three_rows :
    letI := integerArithmetic
    ∃ cursor, dsv_filter_index_seek (fun l => l.foldr insertRange []) textAndNumber threeRows =
        .ok cursor ∧
      Drains threeRows cursor [⟨0, 4, false, 0⟩, ⟨4, 4, false, 0⟩] := by
  let _ := integerArithmetic
  obtain ⟨h, -⟩ := index_seek_exact (fun l => l.foldr insertRange []) textAndNumber threeRows
    (by decide) (by decide) (by decide) insertRange_sorts
  exact ⟨_, rfl, h _ rfl (fun e => ⟨fun _ => some e.text_key, fun _ => e.number_key⟩)
    fun e _ => ⟨rfl, rfl⟩⟩

end SaltsUtils.Dsv
