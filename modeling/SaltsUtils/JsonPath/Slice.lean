import SaltsUtils.Library.Slice

/-!
# Slices of JSONPath

The slice of `jsonpath_grammar.y` and its case of `jsonpath_program_match_next` in
`src/parser/json_parser/src/jsonpath.c`.
-/

set_option autoImplicit false

namespace SaltsUtils.JsonPath

def JSONPATH_SLICE_HAS_START : UInt32 := 0x01
def JSONPATH_SLICE_HAS_END : UInt32 := 0x02
def JSONPATH_SLICE_HAS_STEP : UInt32 := 0x04

structure SliceInstruction where
  num : Int32
  num2 : Int32
  num3 : Int32
  slice_mask : UInt32
deriving DecidableEq

def jsonpath_slice_op (start stop step : Option Int32) : SliceInstruction where
  num := start.getD 0
  num2 := stop.getD 0
  num3 := step.getD 0
  slice_mask :=
    (if start.isSome then JSONPATH_SLICE_HAS_START else 0) |||
      (if stop.isSome then JSONPATH_SLICE_HAS_END else 0) |||
        (if step.isSome then JSONPATH_SLICE_HAS_STEP else 0)

def long_long (value : ℤ) : Option ℤ :=
  if -9223372036854775808 ≤ value ∧ value ≤ 9223372036854775807 then some value else none

def array_index (len i : ℤ) : Option ℕ := if 0 ≤ i ∧ i < len then some i.toNat else none

variable {σ : Type}

def slice_loop (first_only : Bool) (next : ℕ → σ → Bool × σ) (len step lower upper : ℤ) :
    ℕ → ℤ → Bool → σ → Option (Bool × σ)
  | 0, _, _, _ => none
  | fuel + 1, i, matched, s =>
    if 0 < step ∧ upper ≤ i then some (matched, s)
    else if step < 0 ∧ i ≤ lower then some (matched, s)
    else do
      let index ← array_index len i
      let r := next index s
      if r.1 && first_only then some r
      else
        let i ← long_long (i + step)
        slice_loop first_only next len step lower upper fuel i r.1 r.2

def component (instruction : SliceInstruction) (has : UInt32) (num : Int32) : Option ℤ :=
  if instruction.slice_mask &&& has ≠ 0 then some num.toInt else none

def written_or (written : Option ℤ) (omitted : Option ℤ) : Option ℤ :=
  match written with
  | some value => some value
  | none => omitted

def from_end (len bound : ℤ) : Option ℤ :=
  if 0 ≤ bound then some bound else long_long (len + bound)

/-- The bounds of the loop, the lower one first. -/
def slice_limits (len step : ℤ) (start stop : Option ℤ) : Option (ℤ × ℤ) := do
  let start ← written_or start (if 0 ≤ step then some 0 else long_long (len - 1))
  let stop ← written_or stop
    (if 0 ≤ step then some len
      else long_long (-len) >>= fun negative => long_long (negative - 1))
  let start ← from_end len start
  let stop ← from_end len stop
  if 0 ≤ step then
    some (if start < 0 then 0 else if len < start then len else start,
      if stop < 0 then 0 else if len < stop then len else stop)
  else
    let last ← long_long (len - 1)
    some (if stop < -1 then -1 else if last < stop then last else stop,
      if start < -1 then -1 else if last < start then last else start)

def match_slice (instruction : SliceInstruction) (size : ℕ) (first_only : Bool)
    (next : ℕ → σ → Bool × σ) (fuel : ℕ) (s : σ) : Option (Bool × σ) := do
  let len ← long_long size
  let step := (component instruction JSONPATH_SLICE_HAS_STEP instruction.num3).getD 1
  if step = 0 then some (false, s)
  else
    let limits ← slice_limits len step
      (component instruction JSONPATH_SLICE_HAS_START instruction.num)
      (component instruction JSONPATH_SLICE_HAS_END instruction.num2)
    if limits.2 ≤ limits.1 then some (false, s)
    else
      slice_loop first_only next len step limits.1 limits.2 fuel
        (if 0 < step then limits.1 else limits.2) false s

/-- The rest of the path at one index after the other, up to the first match where one is
enough. -/
def visit_each (first_only : Bool) (next : ℕ → σ → Bool × σ) :
    List ℕ → Bool → σ → Bool × σ
  | [], matched, s => (matched, s)
  | index :: indexes, _, s =>
    let r := next index s
    if r.1 && first_only then r else visit_each first_only next indexes r.1 r.2

open Slice

theorem long_long_eq {value : ℤ} (h : -4294967296 ≤ value ∧ value ≤ 4294967296) :
    long_long value = some value := if_pos (by omega)

theorem slice_loop_eq {first_only : Bool} {next : ℕ → σ → Bool × σ} {len step lower upper i : ℤ}
    {fuel : ℕ} {matched : Bool} {s : σ} (h : Inside len step lower upper i)
    (hlen : len ≤ 2147483647) (hstep : -2147483648 ≤ step ∧ step ≤ 2147483647)
    (hfuel : remaining step lower upper i < fuel) :
    slice_loop first_only next len step lower upper fuel i matched s =
      some (visit_each first_only next
        ((progression step (remaining step lower upper i) i).map Int.toNat) matched s) := by
  generalize hn : remaining step lower upper i = n at hfuel ⊢
  induction n generalizing i fuel matched s with
  | zero =>
    obtain ⟨fuel, rfl⟩ := Nat.exists_eq_add_one.mpr hfuel
    rcases (remaining_eq_zero h.ne_zero).mp hn with hover | hover
    · rw [slice_loop, if_pos hover]
      rfl
    · have hup : ¬ (0 < step ∧ upper ≤ i) := by omega
      rw [slice_loop, if_neg hup, if_pos hover]
      rfl
  | succ n ih =>
    obtain ⟨fuel, rfl⟩ := Nat.exists_eq_add_one.mpr (Nat.zero_lt_of_lt hfuel)
    have hr : remaining step lower upper i ≠ 0 := by omega
    have hover := mt (remaining_eq_zero h.ne_zero).mpr hr
    have hbounds := h.bounds hr
    have hrest := remaining_succ h.ne_zero hr
    rw [slice_loop, if_neg (fun hc => hover (.inl hc)), if_neg (fun hc => hover (.inr hc)),
      array_index, if_pos hbounds, long_long_eq (by omega), progression_succ, List.map_cons,
      visit_each]
    dsimp only [Option.bind_eq_bind, Option.bind_some]
    by_cases hm : ((next i.toNat s).1 && first_only) = true
    · rw [if_pos hm, if_pos hm]
    · rw [if_neg hm, if_neg hm]
      exact ih h.next (by omega) (by omega)

/-- The range of an `int`. -/
def Small (value : ℤ) : Prop := -2147483648 ≤ value ∧ value ≤ 2147483647

theorem component_op (start stop step : Option Int32) :
    component (jsonpath_slice_op start stop step) JSONPATH_SLICE_HAS_START (start.getD 0) =
        start.map Int32.toInt ∧
      component (jsonpath_slice_op start stop step) JSONPATH_SLICE_HAS_END (stop.getD 0) =
        stop.map Int32.toInt ∧
      component (jsonpath_slice_op start stop step) JSONPATH_SLICE_HAS_STEP (step.getD 0) =
        step.map Int32.toInt := by
  cases start <;> cases stop <;> cases step <;>
    simp [component, jsonpath_slice_op, JSONPATH_SLICE_HAS_START, JSONPATH_SLICE_HAS_END,
      JSONPATH_SLICE_HAS_STEP] <;> decide

theorem toInt_small (value : Int32) : Small value.toInt :=
  ⟨value.le_toInt, Int.le_of_lt_add_one value.toInt_lt⟩

theorem slice_limits_eq {len step : ℤ} {start stop : Option ℤ} (hl : 0 ≤ len)
    (hlen : len ≤ 2147483647) (hstart : ∀ v ∈ start, Small v) (hstop : ∀ v ∈ stop, Small v) :
    slice_limits len step start stop =
      some (lower len step (start.getD (default_start len step))
          (stop.getD (default_end len step)),
        upper len step (start.getD (default_start len step))
          (stop.getD (default_end len step))) := by
  have hfrom : written_or start (if 0 ≤ step then some 0 else long_long (len - 1)) =
      some (start.getD (default_start len step)) := by
    cases start with
    | some v => rfl
    | none =>
      rw [written_or, default_start, Option.getD_none, long_long_eq (by omega)]
      split_ifs <;> rfl
  have hto : written_or stop (if 0 ≤ step then some len
      else long_long (-len) >>= fun negative => long_long (negative - 1)) =
      some (stop.getD (default_end len step)) := by
    cases stop with
    | some v => rfl
    | none =>
      rw [written_or, default_end, Option.getD_none, long_long_eq (by omega)]
      dsimp only [Option.bind_eq_bind, Option.bind_some]
      rw [long_long_eq (by omega)]
      split_ifs <;> rfl
  have hstart' : -2147483648 ≤ start.getD (default_start len step) ∧
      start.getD (default_start len step) ≤ 2147483647 := by
    cases start with
    | some v => exact hstart v rfl
    | none =>
      rw [Option.getD_none, default_start]
      split_ifs <;> omega
  have hstop' : -2147483648 ≤ stop.getD (default_end len step) ∧
      stop.getD (default_end len step) ≤ 2147483647 := by
    cases stop with
    | some v => exact hstop v rfl
    | none =>
      rw [Option.getD_none, default_end]
      split_ifs <;> omega
  generalize start.getD (default_start len step) = first at hfrom hstart' ⊢
  generalize stop.getD (default_end len step) = last at hto hstop' ⊢
  have hnorm : ∀ v : ℤ, -2147483648 ≤ v ∧ v ≤ 2147483647 →
      from_end len v = some (Slice.normalize len v) := by
    intro v hv
    rw [from_end, Slice.normalize, long_long_eq (by omega)]
    split_ifs <;> rfl
  rw [slice_limits, hfrom, hto, long_long_eq (show _ by omega)]
  dsimp only [Option.bind_eq_bind, Option.bind_some]
  rw [hnorm first hstart', hnorm last hstop']
  dsimp only [Option.bind_some]
  unfold lower upper
  by_cases hs : 0 ≤ step
  · rw [if_pos hs, if_pos hs, if_pos hs]
    congr 2 <;> split_ifs <;> omega
  · rw [if_neg hs, if_neg hs, if_neg hs]
    congr 2 <;> split_ifs <;> omega

/-- Every index that a slice selects is visited, in the order of the standard, and each of
them is below the length. No operation overflows and the loop ends. -/
theorem match_slice_selected {size : ℕ} (hsize : size ≤ 2147483647)
    (start stop step : Option Int32) (first_only : Bool) (next : ℕ → σ → Bool × σ)
    {fuel : ℕ} (hfuel : size < fuel) (s : σ) :
    match_slice (jsonpath_slice_op start stop step) size first_only next fuel s =
      some (visit_each first_only next ((selected size (start.map Int32.toInt)
        (stop.map Int32.toInt) (step.map Int32.toInt)).map Int.toNat) false s) ∧
    ∀ i ∈ selected size (start.map Int32.toInt) (stop.map Int32.toInt) (step.map Int32.toInt),
      0 ≤ i ∧ i < size := by
  refine ⟨?_, selected_bounds (by omega) _ _ _⟩
  have hsmall : ∀ c : Option Int32, ∀ v ∈ c.map Int32.toInt, Small v := by
    intro c v hv
    obtain ⟨value, -, rfl⟩ := Option.mem_map.mp hv
    exact toInt_small value
  have hc := component_op start stop step
  have hone : Small ((step.map Int32.toInt).getD 1) := by
    cases step with
    | some v => exact toInt_small v
    | none => exact ⟨by decide, by decide⟩
  rw [match_slice, long_long_eq (by omega)]
  dsimp only [Option.bind_eq_bind, Option.bind_some]
  have hnums : (jsonpath_slice_op start stop step).num = start.getD 0 ∧
      (jsonpath_slice_op start stop step).num2 = stop.getD 0 ∧
      (jsonpath_slice_op start stop step).num3 = step.getD 0 := ⟨rfl, rfl, rfl⟩
  rw [hnums.1, hnums.2.1, hnums.2.2, hc.1, hc.2.1, hc.2.2,
    slice_limits_eq (by omega) (by omega) (hsmall start) (hsmall stop), selected]
  dsimp only [Option.bind_some]
  generalize (step.map Int32.toInt).getD 1 = by_step at hone ⊢
  generalize (start.map Int32.toInt).getD (default_start size by_step) = first
  generalize (stop.map Int32.toInt).getD (default_end size by_step) = last
  by_cases hz : by_step = 0
  · rw [if_pos hz, if_pos hz]
    rfl
  rw [if_neg hz, if_neg hz]
  have hin := @inside_first size by_step first last (by omega) hz
  generalize hlow : lower size by_step first last = low at hin ⊢
  generalize hhigh : upper size by_step first last = high at hin ⊢
  by_cases hempty : high ≤ low
  · rw [if_pos hempty, (remaining_eq_zero hz).mpr ?_]
    · rfl
    · split_ifs <;> omega
  rw [if_neg hempty]
  have hrounds : remaining by_step low high (if 0 < by_step then low else high) ≤ size := by
    apply remaining_le hz
    unfold Inside at hin
    split_ifs at hin ⊢ <;> omega
  exact slice_loop_eq hin (by omega) hone (by omega)

theorem match_slice_backwards :
    match_slice (jsonpath_slice_op (some 3) none (some (-2))) 5 false
        (fun index (visited : List ℕ) => (true, visited ++ [index])) 6 [] =
      some (true, [3, 1]) :=
  (match_slice_selected (by decide) (some 3) none (some (-2)) false _ (by decide) []).1.trans
    (by decide)

end SaltsUtils.JsonPath
