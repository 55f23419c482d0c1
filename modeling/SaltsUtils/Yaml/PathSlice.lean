import SaltsUtils.Library.Slice

/-!
# Slices of YPATH

The slice of a bracket and its case of `ypath_eval` in
`src/parser/cyaml/src/cyaml_path.c`.
-/

set_option autoImplicit false

namespace SaltsUtils.Yaml

def YPATH_SLICE_HAS_START : UInt8 := 0x01
def YPATH_SLICE_HAS_END : UInt8 := 0x02
def YPATH_SLICE_HAS_STEP : UInt8 := 0x04

structure YpathSlice where
  start : Int64
  stop : Int64
  step : Int64
  flags : UInt8
deriving DecidableEq

def ypath_slice (start stop step : Option Int64) : YpathSlice where
  start := start.getD 0
  stop := stop.getD 0
  step := step.getD 1
  flags :=
    (if start.isSome then YPATH_SLICE_HAS_START else 0) |||
      (if stop.isSome then YPATH_SLICE_HAS_END else 0) |||
        (if step.isSome then YPATH_SLICE_HAS_STEP else 0)

def YPATH_CLAMP (v lo hi : ℤ) : ℤ := if v < lo then lo else if hi < v then hi else v

def int64 (value : ℤ) : Option ℤ :=
  if -9223372036854775808 ≤ value ∧ value ≤ 9223372036854775807 then some value else none

def ypath_norm_slice_idx (idx len : ℤ) : Option ℤ :=
  if YPATH_CLAMP idx (-len) len < 0 then int64 (YPATH_CLAMP idx (-len) len + len)
  else some (YPATH_CLAMP idx (-len) len)

def from_end (v limit len : ℤ) : Option ℤ := if v < limit then int64 (v + len) else some v

section
variable {α : Type} [DecidableEq α]

def ypath_nodebuf_add (b : List α) (n : α) : List α := if n ∈ b then b else b ++ [n]

def item (items : List α) (i : ℤ) : Option α := if 0 ≤ i then items[i.toNat]? else none

def slice_loop (items : List α) (goes : ℤ → Bool) (st : ℤ) : ℕ → ℤ → List α → Option (List α)
  | 0, _, _ => none
  | rounds + 1, i, out =>
    if goes i then do
      let n ← item items i
      let next ← int64 (i + st)
      slice_loop items goes st rounds next (ypath_nodebuf_add out n)
    else some out

def ypath_eval_slice (s : YpathSlice) (items : List α) (out : List α) : Option (List α) :=
  let len : ℤ := items.length
  let ss := if s.flags &&& YPATH_SLICE_HAS_START ≠ 0 then s.start.toInt else 0
  let se := if s.flags &&& YPATH_SLICE_HAS_END ≠ 0 then s.stop.toInt else len
  let st := if s.flags &&& YPATH_SLICE_HAS_STEP ≠ 0 then s.step.toInt else 1
  let st := if st = 0 then 1 else st
  if 0 < st then do
    let ss ← ypath_norm_slice_idx ss len
    let se ← ypath_norm_slice_idx se len
    slice_loop items (fun i => i < se) st (items.length + 1) ss out
  else do
    let ss := if s.flags &&& YPATH_SLICE_HAS_START ≠ 0 then
      YPATH_CLAMP s.start.toInt (-len) (len - 1) else len - 1
    let se := if s.flags &&& YPATH_SLICE_HAS_END ≠ 0 then
      YPATH_CLAMP s.stop.toInt (-len - 1) len else -len - 1
    let ss ← from_end ss 0 len
    let se ← from_end se (-1) len
    slice_loop items (fun i => se < i && 0 ≤ i) st (items.length + 1) ss out

def add_items (items : List α) (out : List α) (indexes : List ℤ) : List α :=
  (indexes.filterMap (item items)).foldl ypath_nodebuf_add out

open Slice

theorem int64_eq {value : ℤ}
    (h : -9223372036854775808 ≤ value ∧ value ≤ 9223372036854775807) : int64 value = some value :=
  if_pos h

variable {items : List α} {i : ℤ}

omit [DecidableEq α] in
theorem item_in (h : 0 ≤ i ∧ i < items.length) : ∃ n ∈ items, item items i = some n := by
  have hlt : i.toNat < items.length := by omega
  exact ⟨items[i.toNat], List.getElem_mem hlt, by rw [item, if_pos h.1, List.getElem?_eq_getElem hlt]⟩

theorem add_items_nil (items out : List α) : add_items items out [] = out := rfl

theorem add_items_cons {n : α} (h : item items i = some n) (out : List α) (indexes : List ℤ) :
    add_items items out (i :: indexes) =
      add_items items (ypath_nodebuf_add out n) indexes := by
  rw [add_items, List.filterMap_cons_some h, List.foldl_cons]
  rfl

theorem add_ne_nil (b : List α) (n : α) : ypath_nodebuf_add b n ≠ [] := by
  unfold ypath_nodebuf_add
  split
  · next h => exact List.ne_nil_of_mem h
  · simp

theorem add_items_ne_nil {out : List α} (h : out ≠ []) (indexes : List ℤ) :
    add_items items out indexes ≠ [] := by
  unfold add_items
  generalize indexes.filterMap (item items) = ns
  induction ns generalizing out with
  | nil => exact h
  | cons n ns ih => exact ih (add_ne_nil out n)

variable {st : ℤ}

/-- A loop whose test is that of the bounds goes through a progression, as long as the next
index can be computed. -/
theorem slice_loop_eq {goes : ℤ → Bool} {lower upper : ℤ} {R : ℤ → Prop}
    (hin : ∀ i, R i → Inside items.length st lower upper i)
    (hgoes : ∀ i, R i → (goes i = true ↔ remaining st lower upper i ≠ 0))
    (hnext : ∀ i, R i → remaining st lower upper i ≠ 0 →
      (-9223372036854775808 ≤ i + st ∧ i + st ≤ 9223372036854775807) ∧ R (i + st))
    (h : R i) {rounds : ℕ} (hr : remaining st lower upper i < rounds) (out : List α) :
    slice_loop items goes st rounds i out =
      some (add_items items out (progression st (remaining st lower upper i) i)) := by
  generalize hn : remaining st lower upper i = n at hr ⊢
  induction n generalizing i rounds out with
  | zero =>
    obtain ⟨rounds, rfl⟩ := Nat.exists_eq_add_one.mpr hr
    have hstop : ¬ goes i = true := fun hg => (hgoes i h).1 hg hn
    rw [slice_loop, if_neg hstop]
    rfl
  | succ n ih =>
    obtain ⟨rounds, rfl⟩ := Nat.exists_eq_add_one.mpr (Nat.zero_lt_of_lt hr)
    have hne : remaining st lower upper i ≠ 0 := by omega
    have hrest := remaining_succ (hin i h).ne_zero hne
    obtain ⟨m, -, hm⟩ := item_in ((hin i h).bounds hne)
    obtain ⟨hfit, hR⟩ := hnext i h hne
    rw [slice_loop, if_pos ((hgoes i h).2 hne), hm, int64_eq hfit, progression_succ,
      add_items_cons hm]
    exact ih hR _ (by omega) (by omega)

theorem slice_loop_up (hl : items.length < 4294967296) {ss se : ℤ} (hst : 0 < st) (hs : 0 ≤ ss)
    (he : se ≤ items.length) (hfit : ss < se → ss + st ≤ 9223372036854775807) (out : List α) :
    slice_loop items (fun i => i < se) st (items.length + 1) ss out =
      some (add_items items out (progression st (remaining st ss se ss) ss)) := by
  have hremaining : ∀ i, remaining st ss se i ≠ 0 ↔ i < se := by
    intro i
    rw [ne_eq, remaining_eq_zero (by omega)]
    omega
  refine slice_loop_eq (R := fun i => 0 ≤ i ∧ (i < se → i + st ≤ 9223372036854775807))
    (fun i hi => .inl ⟨hst, hi.1, he⟩) (fun i _ => by simp [hremaining]) ?_ ⟨hs, hfit⟩ ?_ out
  · intro i hi hne
    rw [hremaining] at hne
    exact ⟨by omega, by omega, fun _ => by omega⟩
  · refine Nat.lt_succ_of_le (remaining_le (by omega) ?_)
    omega

theorem slice_loop_down (hl : items.length < 4294967296) {ss se : ℤ} (hst : st < 0)
    (hmin : -9223372036854775808 ≤ st) (hs : ss < items.length) (he : -1 ≤ se) (out : List α) :
    slice_loop items (fun i => se < i && 0 ≤ i) st (items.length + 1) ss out =
      some (add_items items out (progression st (remaining st se ss ss) ss)) := by
  have hremaining : ∀ i, remaining st se ss i ≠ 0 ↔ se < i := by
    intro i
    rw [ne_eq, remaining_eq_zero (by omega)]
    omega
  refine slice_loop_eq (R := fun i => i < items.length)
    (fun i hi => .inr ⟨hst, hi, he⟩) (fun i _ => ?_) ?_ hs ?_ out
  · rw [hremaining, Bool.and_eq_true, decide_eq_true_eq, decide_eq_true_eq]
    omega
  · intro i hi hne
    rw [hremaining] at hne
    omega
  · refine Nat.lt_succ_of_le (remaining_le (by omega) ?_)
    omega

/-- A step of zero is one. -/
def stride (step : Option ℤ) : ℤ := if step.getD 1 = 0 then 1 else step.getD 1

def slice_indexes (len : ℤ) (start stop step : Option ℤ) : List ℤ :=
  selected len start stop (some (stride step))

/-- Downwards, the last element is not written as the end, and a start before the first
element comes with an end that is not before it. -/
def Downwards (len : ℤ) (start stop : Option ℤ) : Prop :=
  (stop = some (-1) → len = 0 ∧ ∀ a ∈ start, 0 ≤ a) ∧
    ∀ a ∈ start, a < -len → ∃ b ∈ stop, -len ≤ b

def Upwards (len st : ℤ) (start stop : Option ℤ) : Prop :=
  lower len st (start.getD 0) (stop.getD len) < upper len st (start.getD 0) (stop.getD len) →
    lower len st (start.getD 0) (stop.getD len) + st ≤ 9223372036854775807

def Regular (len : ℤ) (start stop step : Option ℤ) : Prop :=
  if 0 < stride step then Upwards len (stride step) start stop else Downwards len start stop

variable {len : ℤ}

theorem ypath_norm_slice_idx_eq {idx : ℤ} (hl : 0 ≤ len ∧ len < 4294967296) :
    ypath_norm_slice_idx idx len = some (min (max (Slice.normalize len idx) 0) len) := by
  unfold ypath_norm_slice_idx YPATH_CLAMP Slice.normalize
  split_ifs <;> first
    | (rw [int64_eq (by omega)]; congr 1; omega)
    | (congr 1; omega)

def start_down (len : ℤ) (start : Option ℤ) : ℤ :=
  (start.map fun v => YPATH_CLAMP v (-len) (len - 1)).getD (len - 1)

def stop_down (len : ℤ) (stop : Option ℤ) : ℤ :=
  (stop.map fun v => YPATH_CLAMP v (-len - 1) len).getD (-len - 1)

theorem flags_written (start stop step : Option Int64) :
    ((ypath_slice start stop step).flags &&& YPATH_SLICE_HAS_START ≠ 0 ↔ start.isSome) ∧
      ((ypath_slice start stop step).flags &&& YPATH_SLICE_HAS_END ≠ 0 ↔ stop.isSome) ∧
      ((ypath_slice start stop step).flags &&& YPATH_SLICE_HAS_STEP ≠ 0 ↔ step.isSome) := by
  cases start <;> cases stop <;> cases step <;>
    simp [ypath_slice, YPATH_SLICE_HAS_START, YPATH_SLICE_HAS_END, YPATH_SLICE_HAS_STEP] <;> decide

theorem component_getD (written : Option Int64) (c : Int64) (d : ℤ) :
    (if written.isSome then (written.getD c).toInt else d) = (written.map Int64.toInt).getD d := by
  cases written <;> rfl

theorem component_map (written : Option Int64) (c : Int64) (f : ℤ → ℤ) (d : ℤ) :
    (if written.isSome then f (written.getD c).toInt else d) =
      ((written.map Int64.toInt).map f).getD d := by
  cases written <;> rfl

variable {start stop step : Option Int64}

theorem ypath_eval_slice_up (hst : 0 < stride (step.map Int64.toInt)) (items out : List α) :
    ypath_eval_slice (ypath_slice start stop step) items out =
      (ypath_norm_slice_idx ((start.map Int64.toInt).getD 0) items.length).bind fun ss =>
        (ypath_norm_slice_idx ((stop.map Int64.toInt).getD items.length) items.length).bind fun se =>
          slice_loop items (fun i => i < se) (stride (step.map Int64.toInt)) (items.length + 1)
            ss out := by
  obtain ⟨hs, he, ht⟩ := flags_written start stop step
  simp only [ypath_eval_slice, hs, he, ht]
  rw [← component_getD start 0, ← component_getD stop 0]
  rw [stride, ← component_getD step 1] at hst ⊢
  exact if_pos hst

theorem ypath_eval_slice_down (hst : ¬ 0 < stride (step.map Int64.toInt)) (items out : List α) :
    ypath_eval_slice (ypath_slice start stop step) items out =
      (from_end (start_down items.length (start.map Int64.toInt)) 0 items.length).bind fun ss =>
        (from_end (stop_down items.length (stop.map Int64.toInt)) (-1) items.length).bind fun se =>
          slice_loop items (fun i => se < i && 0 ≤ i) (stride (step.map Int64.toInt))
            (items.length + 1) ss out := by
  obtain ⟨hs, he, ht⟩ := flags_written start stop step
  simp only [ypath_eval_slice, hs, he, ht]
  rw [start_down, stop_down, ← component_map start 0, ← component_map stop 0]
  rw [stride, ← component_getD step 1] at hst ⊢
  exact if_neg hst

theorem stride_ne_zero (step : Option ℤ) : stride step ≠ 0 := by
  unfold stride
  split
  · decide
  · assumption

theorem stride_min (step : Option Int64) :
    -9223372036854775808 ≤ stride (step.map Int64.toInt) := by
  unfold stride
  cases step with
  | none => decide
  | some v =>
    have := v.le_toInt
    simp only [Option.map_some, Option.getD_some]
    split <;> omega

theorem from_end_eq {v limit : ℤ} (h : -4294967296 ≤ v ∧ limit ≤ 0 ∧ 0 ≤ len ∧ len < 4294967296) :
    from_end v limit len = some (if v < limit then v + len else v) := by
  unfold from_end
  split
  · exact int64_eq (by omega)
  · rfl

theorem start_down_bounds (hl : 0 ≤ len) (start : Option ℤ) :
    -len - 1 ≤ start_down len start ∧ start_down len start ≤ len := by
  unfold start_down YPATH_CLAMP
  cases start with
  | none =>
    simp only [Option.map_none, Option.getD_none]
    omega
  | some a =>
    simp only [Option.map_some, Option.getD_some]
    split_ifs <;> omega

theorem stop_down_bounds (hl : 0 ≤ len) (stop : Option ℤ) :
    -len - 1 ≤ stop_down len stop ∧ stop_down len stop ≤ len := by
  unfold stop_down YPATH_CLAMP
  cases stop with
  | none =>
    simp only [Option.map_none, Option.getD_none]
    omega
  | some a =>
    simp only [Option.map_some, Option.getD_some]
    split_ifs <;> omega

def first_down (len : ℤ) (start : Option ℤ) : ℤ :=
  if start_down len start < 0 then start_down len start + len else start_down len start

def last_down (len : ℤ) (stop : Option ℤ) : ℤ :=
  if stop_down len stop < -1 then stop_down len stop + len else stop_down len stop

theorem last_down_ge (hl : 0 ≤ len) (stop : Option ℤ) : -1 ≤ last_down len stop := by
  have := stop_down_bounds hl stop
  unfold last_down
  split_ifs <;> omega

def bound_down (len i : ℤ) : ℤ := min (max (Slice.normalize len i) (-1)) (len - 1)

theorem first_down_none (hl : 0 ≤ len) :
    first_down len none = len - 1 ∧ bound_down len (len - 1) = len - 1 := by
  unfold first_down start_down bound_down Slice.normalize
  simp only [Option.map_none, Option.getD_none]
  split_ifs <;> omega

theorem first_down_some (hl : 0 ≤ len) (a : ℤ) :
    (a < -len ∧ first_down len (some a) = 0 ∧ bound_down len a = -1) ∨
      (-len ≤ a ∧ first_down len (some a) = bound_down len a ∧ bound_down len a < len ∧
        (0 < len → 0 ≤ bound_down len a) ∧ (len = 0 → bound_down len a = -1)) := by
  unfold first_down start_down YPATH_CLAMP bound_down Slice.normalize
  simp only [Option.map_some, Option.getD_some]
  split_ifs <;> omega

theorem last_down_none (hl : 0 ≤ len) :
    last_down len none = -1 ∧ bound_down len (-len - 1) = -1 := by
  unfold last_down stop_down bound_down Slice.normalize
  simp only [Option.map_none, Option.getD_none]
  split_ifs <;> omega

theorem last_down_some (hl : 0 ≤ len) (b : ℤ) :
    (b < -len ∧ last_down len (some b) = -1 ∧ bound_down len b = -1) ∨
      (b = -1 ∧ 0 < len ∧ last_down len (some b) = -1 ∧ bound_down len b = len - 1) ∨
      (-len ≤ b ∧ b ≠ -1 ∧ 0 ≤ last_down len (some b) ∧
        (last_down len (some b) = bound_down len b ∨
          last_down len (some b) = len ∧ bound_down len b = len - 1)) := by
  unfold last_down stop_down YPATH_CLAMP bound_down Slice.normalize
  simp only [Option.map_some, Option.getD_some]
  split_ifs <;> omega

theorem downwards_bounds (hl : 0 ≤ len) {start stop : Option ℤ} (h : Downwards len start stop) :
    (first_down len start ≤ last_down len stop ∧
      bound_down len (start.getD (len - 1)) ≤ bound_down len (stop.getD (-len - 1))) ∨
    (first_down len start = bound_down len (start.getD (len - 1)) ∧
      last_down len stop = bound_down len (stop.getD (-len - 1)) ∧ first_down len start < len) := by
  obtain ⟨hstop, hstart⟩ := h
  cases start with
  | none =>
    obtain ⟨hfirst, hhigh⟩ := first_down_none hl
    rw [Option.getD_none]
    cases stop with
    | none =>
      obtain ⟨hlast, hlow⟩ := last_down_none hl
      rw [Option.getD_none]
      omega
    | some b =>
      rw [Option.some.injEq] at hstop
      rw [Option.getD_some]
      rcases last_down_some hl b with hlast | hlast | hlast <;> omega
  | some a =>
    have hstart := hstart a rfl
    rw [Option.getD_some]
    cases stop with
    | none =>
      obtain ⟨hlast, hlow⟩ := last_down_none hl
      have hle : -len ≤ a := not_lt.1 fun hlt => by simpa using hstart hlt
      rw [Option.getD_none]
      rcases first_down_some hl a with hfirst | hfirst <;> omega
    | some b =>
      have hle : a < -len → -len ≤ b := fun hlt => by simpa using hstart hlt
      have hlast : b = -1 → len = 0 ∧ 0 ≤ a := fun hb => by simpa using hstop (by rw [hb])
      rw [Option.getD_some]
      rcases first_down_some hl a with hfirst | hfirst <;>
        rcases last_down_some hl b with hlast' | hlast' | hlast' <;> omega

theorem not_downwards_bounds (hl : 0 ≤ len) {start stop : Option ℤ} (h : ¬ Downwards len start stop) :
    last_down len stop < first_down len start ∧ 0 ≤ first_down len start ∧
      (0 < len → first_down len start < len) ∧
      bound_down len (start.getD (len - 1)) ≤ bound_down len (stop.getD (-len - 1)) := by
  unfold Downwards at h
  cases start with
  | none =>
    obtain ⟨hfirst, hhigh⟩ := first_down_none hl
    rw [Option.getD_none]
    cases stop with
    | none => simp at h
    | some b =>
      have hb : b = -1 ∧ len ≠ 0 := by simpa using h
      rw [Option.getD_some]
      rcases last_down_some hl b with hlast | hlast | hlast <;> omega
  | some a =>
    rw [Option.getD_some]
    cases stop with
    | none =>
      obtain ⟨hlast, hlow⟩ := last_down_none hl
      have ha : a < -len := by simpa using h
      rw [Option.getD_none]
      rcases first_down_some hl a with hfirst | hfirst <;> omega
    | some b =>
      have hb : (b = -1 → len = 0 ∧ 0 ≤ a) → a < -len ∧ b < -len := by simpa using h
      rw [Option.getD_some]
      rcases first_down_some hl a with hfirst | hfirst <;>
        rcases last_down_some hl b with hlast | hlast | hlast <;> omega

theorem slice_indexes_up {step : Option ℤ} (hst : 0 < stride step) (start stop : Option ℤ) :
    slice_indexes len start stop step =
      progression (stride step)
        (remaining (stride step) (lower len (stride step) (start.getD 0) (stop.getD len))
          (upper len (stride step) (start.getD 0) (stop.getD len))
          (lower len (stride step) (start.getD 0) (stop.getD len)))
        (lower len (stride step) (start.getD 0) (stop.getD len)) := by
  simp only [slice_indexes, selected, default_start, default_end, Option.getD_some]
  rw [if_neg hst.ne', if_pos hst.le, if_pos hst.le, if_pos hst]

theorem slice_indexes_down {step : Option ℤ} (hst : stride step < 0) (start stop : Option ℤ) :
    slice_indexes len start stop step =
      progression (stride step) (remaining (stride step) (bound_down len (stop.getD (-len - 1)))
          (bound_down len (start.getD (len - 1))) (bound_down len (start.getD (len - 1))))
        (bound_down len (start.getD (len - 1))) := by
  have hneg : ¬ 0 ≤ stride step := by omega
  have hnot : ¬ 0 < stride step := by omega
  simp only [slice_indexes, selected, default_start, default_end, Option.getD_some, lower, upper,
    bound_down, if_neg hst.ne, if_neg hneg, if_neg hnot]

theorem eval_up (hl : items.length < 4294967296) (hst : 0 < stride (step.map Int64.toInt))
    (out : List α) : ypath_eval_slice (ypath_slice start stop step) items out =
      slice_loop items
        (fun i => i < upper items.length (stride (step.map Int64.toInt))
          ((start.map Int64.toInt).getD 0) ((stop.map Int64.toInt).getD items.length))
        (stride (step.map Int64.toInt)) (items.length + 1)
        (lower items.length (stride (step.map Int64.toInt))
          ((start.map Int64.toInt).getD 0) ((stop.map Int64.toInt).getD items.length)) out := by
  have hlen : (0 : ℤ) ≤ items.length ∧ (items.length : ℤ) < 4294967296 := by omega
  rw [ypath_eval_slice_up hst, ypath_norm_slice_idx_eq hlen, ypath_norm_slice_idx_eq hlen, lower,
    upper, if_pos hst.le, if_pos hst.le]
  rfl

theorem eval_down (hl : items.length < 4294967296) (hst : ¬ 0 < stride (step.map Int64.toInt))
    (out : List α) : ypath_eval_slice (ypath_slice start stop step) items out =
      slice_loop items
        (fun i => last_down items.length (stop.map Int64.toInt) < i && 0 ≤ i)
        (stride (step.map Int64.toInt)) (items.length + 1)
        (first_down items.length (start.map Int64.toInt)) out := by
  have hlen : (0 : ℤ) ≤ items.length := by omega
  have hs := start_down_bounds hlen (start.map Int64.toInt)
  have he := stop_down_bounds hlen (stop.map Int64.toInt)
  rw [ypath_eval_slice_down hst, from_end_eq (by omega), from_end_eq (by omega)]
  rfl

theorem selects_up (hl : items.length < 4294967296) (hst : 0 < stride (step.map Int64.toInt)) :
    (∀ out, ypath_eval_slice (ypath_slice start stop step) items out =
      some (add_items items out (slice_indexes items.length (start.map Int64.toInt)
        (stop.map Int64.toInt) (step.map Int64.toInt)))) ↔
      Upwards items.length (stride (step.map Int64.toInt)) (start.map Int64.toInt)
        (stop.map Int64.toInt) := by
  simp only [eval_up hl hst, slice_indexes_up hst]
  unfold Upwards
  have hlow : 0 ≤ lower items.length (stride (step.map Int64.toInt))
      ((start.map Int64.toInt).getD 0) ((stop.map Int64.toInt).getD items.length) := by
    rw [lower, if_pos hst.le]
    omega
  have hhigh : upper items.length (stride (step.map Int64.toInt))
      ((start.map Int64.toInt).getD 0) ((stop.map Int64.toInt).getD items.length) ≤
        items.length := by
    rw [upper, if_pos hst.le]
    omega
  constructor
  · intro h hlt
    by_contra hover
    obtain ⟨n, -, hn⟩ := item_in ⟨hlow, lt_of_lt_of_le hlt hhigh⟩
    have h := h []
    rw [slice_loop, if_pos (by simpa using hlt), hn, int64, if_neg (fun hfit => hover hfit.2)] at h
    cases h
  · exact fun hfit out => slice_loop_up hl hst hlow hhigh hfit out

theorem slice_loop_stop {goes : ℤ → Bool} (h : ¬ goes i = true) (rounds : ℕ) (out : List α) :
    slice_loop items goes st (rounds + 1) i out = some out := by
  rw [slice_loop, if_neg h]

theorem selects_down (hl : items.length < 4294967296) (hst : ¬ 0 < stride (step.map Int64.toInt)) :
    (∀ out, ypath_eval_slice (ypath_slice start stop step) items out =
      some (add_items items out (slice_indexes items.length (start.map Int64.toInt)
        (stop.map Int64.toInt) (step.map Int64.toInt)))) ↔
      Downwards items.length (start.map Int64.toInt) (stop.map Int64.toInt) := by
  have hneg : stride (step.map Int64.toInt) < 0 := by
    have := stride_ne_zero (step.map Int64.toInt)
    omega
  have hmin := stride_min step
  have hlen : (0 : ℤ) ≤ items.length := by omega
  have hlast := last_down_ge hlen (stop.map Int64.toInt)
  simp only [eval_down hl hst, slice_indexes_down hneg]
  have hempty : ∀ {low high : ℤ}, high ≤ low →
      remaining (stride (step.map Int64.toInt)) low high high = 0 := fun hle =>
    (remaining_eq_zero hneg.ne).2 (.inr ⟨hneg, hle⟩)
  constructor
  · intro h
    by_contra hnot
    obtain ⟨hgoes, hnonneg, hlt, hnone⟩ := not_downwards_bounds hlen hnot
    have h := h []
    rw [hempty hnone, progression_zero, add_items_nil] at h
    rcases hlen.eq_or_lt with hzero | hpos
    · have hnil : items = [] := List.eq_nil_of_length_eq_zero (by omega)
      subst hnil
      rw [slice_loop, if_pos (by simpa using ⟨hgoes, hnonneg⟩), item, if_pos hnonneg] at h
      cases h
    · rw [slice_loop_down hl hneg hmin (hlt hpos) hlast, Option.some.injEq] at h
      have hne : remaining (stride (step.map Int64.toInt))
          (last_down items.length (stop.map Int64.toInt))
          (first_down items.length (start.map Int64.toInt))
          (first_down items.length (start.map Int64.toInt)) ≠ 0 := by
        rw [ne_eq, remaining_eq_zero hneg.ne]
        omega
      obtain ⟨n, hn⟩ := Nat.exists_eq_succ_of_ne_zero hne
      obtain ⟨m, -, hm⟩ := item_in ⟨hnonneg, hlt hpos⟩
      rw [hn, progression_succ, add_items_cons hm] at h
      exact add_items_ne_nil (add_ne_nil [] m) _ h
  · intro h out
    rcases downwards_bounds hlen h with ⟨hstop, hnone⟩ | ⟨hfirst, hend, hlt⟩
    · rw [slice_loop_stop (by simp; omega), hempty hnone]
      rfl
    · rw [slice_loop_down hl hneg hmin hlt hlast, hfirst, hend]

/-- The elements of a slice are selected in its order, with every index inside the sequence and
no overflow, if and only if the slice is regular. -/
theorem ypath_slice_selects {items : List α} (hl : items.length < 4294967296)
    (start stop step : Option Int64) :
    (∀ out, ypath_eval_slice (ypath_slice start stop step) items out =
      some (add_items items out (slice_indexes items.length (start.map Int64.toInt)
        (stop.map Int64.toInt) (step.map Int64.toInt)))) ↔
      Regular items.length (start.map Int64.toInt) (stop.map Int64.toInt)
        (step.map Int64.toInt) := by
  unfold Regular
  split
  · next hst => exact selects_up hl hst
  · next hst => exact selects_down hl hst

end

/-- Two of three elements, backwards from the last. -/
theorem ypath_slice_selects_backwards :
    ypath_eval_slice (ypath_slice none (some (-3)) (some (-1))) [7, 8, 9] [] = some [9, 8] :=
  (@ypath_slice_selects ℕ _ [7, 8, 9] (by decide) none (some (-3)) (some (-1))).2
    ((if_neg (by decide)).mpr ⟨fun h => absurd h (by decide), fun a ha => nomatch ha⟩) []

/-- The last element as the end is taken for the place before the first: `[2:-1:-1]` of three
elements selects all of them. -/
theorem ypath_slice_last_end : ¬ ∀ (items : List ℕ) (start stop step : Option Int64) (out : List ℕ),
    items.length < 4294967296 →
    ypath_eval_slice (ypath_slice start stop step) items out =
      some (add_items items out (slice_indexes items.length (start.map Int64.toInt)
        (stop.map Int64.toInt) (step.map Int64.toInt))) := by
  intro h
  have := h [7, 8, 9] (some 2) (some (-1)) (some (-1)) [] (by decide)
  revert this
  decide

end SaltsUtils.Yaml
