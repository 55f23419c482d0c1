import Mathlib.Data.List.Basic
import Mathlib.Tactic

/-!
# Bytes in a buffer and bytes of a number
-/

set_option autoImplicit false

/-!
## Buffers and what is written into them

A buffer is the list of its cells.
-/

namespace SaltsUtils

variable {β : Type*}

/-- A null pointer with any size, or a pointer to as many cells as the size says. -/
inductive Span (β : Type*)
  | null (size : ℕ)
  | cells (data : List β)
deriving DecidableEq

namespace Span

def size : Span β → ℕ
  | null size => size
  | cells data => data.length

/-- What the pointer leads to. -/
def data : Span β → List β
  | null _ => []
  | cells data => data

def isNull : Span β → Bool
  | null _ => true
  | cells _ => false

@[simp] theorem size_null (n : ℕ) : (null n : Span β).size = n := rfl
@[simp] theorem size_cells (data : List β) : (cells data).size = data.length := rfl
@[simp] theorem data_null (n : ℕ) : (null n : Span β).data = [] := rfl
@[simp] theorem data_cells (data : List β) : (cells data).data = data := rfl
@[simp] theorem isNull_null (n : ℕ) : (null n : Span β).isNull = true := rfl
@[simp] theorem isNull_cells (data : List β) : (cells data).isNull = false := rfl

theorem data_length_le (s : Span β) : s.data.length ≤ s.size := by
  cases s <;> simp

end Span

/-- `memcpy` and `memmove` into a buffer at an offset. -/
def overwrite (buffer : List β) (offset : ℕ) (data : List β) : List β :=
  buffer.take offset ++ data ++ buffer.drop (offset + data.length)

/-- `size` cells of a buffer from an offset on. -/
def view (buffer : List β) (offset size : ℕ) : List β := (buffer.drop offset).take size

variable {buffer data : List β} {offset : ℕ}

theorem length_overwrite (h : offset + data.length ≤ buffer.length) :
    (overwrite buffer offset data).length = buffer.length := by
  simp only [overwrite, List.length_append, List.length_take, List.length_drop]
  omega

@[simp] theorem overwrite_nil (buffer : List β) (offset : ℕ) :
    overwrite buffer offset [] = buffer := by
  simp [overwrite]

theorem overwrite_append (front rest data : List β) :
    overwrite (front ++ rest) front.length data = front ++ data ++ rest.drop data.length := by
  simp [overwrite, List.drop_append]

theorem take_overwrite_zero (buffer data : List β) :
    (overwrite buffer 0 data).take data.length = data := by
  simp [overwrite]

/-- Writing behind the cells in use adds what is written to them. -/
theorem take_overwrite {used : ℕ} (h : used ≤ buffer.length) :
    (overwrite buffer used data).take (used + data.length) = buffer.take used ++ data := by
  rw [overwrite, List.take_append_of_le_length (by simp; omega)]
  exact List.take_of_length_le (by simp)

variable {size : ℕ}

theorem length_view (h : offset + size ≤ buffer.length) :
    (view buffer offset size).length = size := by
  simp only [view, List.length_take, List.length_drop]
  omega

@[simp] theorem view_zero (buffer : List β) (offset : ℕ) : view buffer offset 0 = [] := by
  simp [view]

/-- A view of the cells in use is a view of the buffer. -/
theorem view_take {used : ℕ} (h : offset + size ≤ used) :
    view (buffer.take used) offset size = view buffer offset size := by
  rw [view, view, List.drop_take, List.take_take, min_eq_left (by omega)]

theorem getElem?_overwrite {i : ℕ} (ho : offset ≤ buffer.length) :
    (overwrite buffer offset data)[i]? =
      if offset ≤ i ∧ i < offset + data.length then data[i - offset]? else buffer[i]? := by
  have hl : (buffer.take offset).length = offset := by simp [ho]
  unfold overwrite
  split_ifs with h
  · rw [List.append_assoc, List.getElem?_append_right (by omega), hl,
      List.getElem?_append_left (by omega)]
  · rw [List.append_assoc]
    by_cases hi : i < offset
    · rw [List.getElem?_append_left (by omega), List.getElem?_take_of_lt hi]
    · rw [List.getElem?_append_right (by omega), hl, List.getElem?_append_right (by omega),
        List.getElem?_drop]
      congr 1
      omega

theorem getElem?_view {i : ℕ} (h : i < size) :
    (view buffer offset size)[i]? = buffer[offset + i]? := by
  rw [view, List.getElem?_take_of_lt h, List.getElem?_drop]

/-- What is written to the front of a buffer is seen as far as it reaches into a view. -/
theorem view_overwrite_zero (buffer data : List β) (start size : ℕ) :
    view (overwrite buffer 0 data) start size =
      (data.drop start).take size ++ (view buffer start size).drop (data.length - start) := by
  simp only [view, overwrite, List.take_zero, List.nil_append, Nat.zero_add, List.drop_append,
    List.take_append, List.drop_drop, List.drop_take, List.length_drop]
  congr 2
  congr 1
  omega

/-- A view of a buffer survives a write to its front exactly if the part of it that is
overwritten is overwritten with itself. -/
theorem view_overwrite_zero_eq_iff {start : ℕ} (h : start + size ≤ buffer.length) :
    view (overwrite buffer 0 data) start size = view buffer start size ↔
      (data.drop start).take size <+: view buffer start size := by
  have hl := length_view h
  rw [view_overwrite_zero]
  generalize view buffer start size = old at hl ⊢
  have hx : ((data.drop start).take size).length = min size (data.length - start) := by
    rw [List.length_take, List.length_drop]
  have hdrop : old.drop (data.length - start) =
      old.drop ((data.drop start).take size).length := by
    rw [hx]
    by_cases hk : data.length - start ≤ size
    · rw [min_eq_right hk]
    · rw [min_eq_left (by omega), List.drop_of_length_le (by omega),
        List.drop_of_length_le (by omega)]
  rw [hdrop]
  generalize (data.drop start).take size = new
  constructor
  · intro he
    rw [← he]
    exact List.prefix_append _ _
  · rintro ⟨tail, rfl⟩
    rw [List.drop_left]

/-- Writing leaves a view as it is exactly if it writes there what is there already. -/
theorem view_overwrite_eq_iff (data : List β) (start size : ℕ) (ho : offset ≤ buffer.length) :
    view (overwrite buffer offset data) start size = view buffer start size ↔
      ∀ i, offset ≤ i → i < offset + data.length → start ≤ i → i < start + size →
        data[i - offset]? = buffer[i]? := by
  constructor
  · intro h i h1 h2 h3 h4
    have hi := congrArg (fun cells => cells[i - start]?) h
    rw [getElem?_view (by omega), getElem?_view (by omega), getElem?_overwrite ho,
      if_pos (by omega)] at hi
    rwa [show start + (i - start) = i by omega] at hi
  · intro h
    apply List.ext_getElem?
    intro i
    by_cases hi : i < size
    · rw [getElem?_view hi, getElem?_view hi, getElem?_overwrite ho]
      split_ifs with hin
      · exact h _ hin.1 hin.2 (by omega) (by omega)
      · rfl
    · simp [view, hi]

/-- A view of what was written is what was written. -/
theorem view_overwrite_self (data : List β) (ho : offset ≤ buffer.length) :
    view (overwrite buffer offset data) offset data.length = data := by
  apply List.ext_getElem?
  intro i
  by_cases hi : i < data.length
  · rw [getElem?_view hi, getElem?_overwrite ho, if_pos (by omega)]
    congr 1
    omega
  · simp [view, hi]

end SaltsUtils

/-!
## Numbers of a fixed width, lowest byte first
-/

namespace SaltsUtils.LittleEndian

variable {w : ℕ}

/-- The first `n` bytes of a number. -/
def split : ℕ → BitVec w → List UInt8
  | 0, _ => []
  | n + 1, v => ⟨v.setWidth 8⟩ :: split n (v >>> 8)

/-- The number that has these bytes, lowest first. -/
def join (w : ℕ) : List UInt8 → BitVec w
  | [] => 0
  | byte :: rest => byte.toBitVec.setWidth w ||| (join w rest <<< 8)

@[simp] theorem length_split (n : ℕ) (v : BitVec w) : (split n v).length = n := by
  induction n generalizing v with
  | zero => rfl
  | succ n ih => rw [split, List.length_cons, ih]

theorem join_cons (byte : UInt8) (rest : List UInt8) :
    join w (byte :: rest) = byte.toBitVec.setWidth w ||| (join w rest <<< 8) := rfl

theorem low_or_high (v : BitVec w) : (v.setWidth 8).setWidth w ||| ((v >>> 8) <<< 8) = v := by
  apply BitVec.eq_of_getLsbD_eq
  intro i hi
  rw [BitVec.getLsbD_or, BitVec.getLsbD_setWidth, BitVec.getLsbD_setWidth,
    BitVec.getLsbD_shiftLeft, BitVec.getLsbD_ushiftRight]
  by_cases h8 : i < 8
  · simp [h8, hi]
  · simp [h8, hi, show 8 + (i - 8) = i by omega]

/-- All bytes of a number make it again. -/
theorem join_split {n : ℕ} (v : BitVec w) (h : ∀ i, 8 * n ≤ i → v.getLsbD i = false) :
    join w (split n v) = v := by
  induction n generalizing v with
  | zero =>
    apply BitVec.eq_of_getLsbD_eq
    intro i _
    rw [h i (Nat.zero_le _)]
    simp [join, split]
  | succ n ih =>
    have hrest : ∀ i, 8 * n ≤ i → (v >>> 8).getLsbD i = false := by
      intro i hi
      rw [BitVec.getLsbD_ushiftRight]
      exact h _ (by omega)
    rw [split, join_cons, ih _ hrest]
    exact low_or_high v

theorem join_split_width {n : ℕ} (v : BitVec w) (h : w ≤ 8 * n) : join w (split n v) = v :=
  join_split v fun i hi => BitVec.getLsbD_of_ge _ _ (by omega)

end SaltsUtils.LittleEndian
