import Mathlib.Data.List.Basic
import Mathlib.Data.UInt
import Mathlib.Tactic

/-!
# Numbers in base 128
-/

set_option autoImplicit false

/-!
## Unsigned LEB128

A natural number as bytes of seven bits each, lowest first, where every byte but the last
has its high bit set.
-/

namespace SaltsUtils.Leb128

def write (n : ℕ) : List UInt8 :=
  if n < 128 then [n.toUInt8] else (n % 128 + 128).toUInt8 :: write (n / 128)
termination_by n
decreasing_by omega

/-- The number at the start of a text and how many bytes it takes; none where the text ends
inside it. -/
def read : List UInt8 → Option (ℕ × ℕ)
  | [] => none
  | byte :: rest =>
    if byte.toNat < 128 then some (byte.toNat, 1)
    else (read rest).map fun r => (byte.toNat - 128 + 128 * r.1, r.2 + 1)

theorem read_cons_last {byte : UInt8} (rest : List UInt8) (h : byte.toNat < 128) :
    read (byte :: rest) = some (byte.toNat, 1) := by
  simp [read, h]

theorem read_cons_more {byte : UInt8} (rest : List UInt8) (h : 128 ≤ byte.toNat) :
    read (byte :: rest) =
      (read rest).map fun r => (byte.toNat - 128 + 128 * r.1, r.2 + 1) := by
  simp [read, Nat.not_lt.mpr h]

theorem write_small {n : ℕ} (h : n < 128) : write n = [n.toUInt8] := by
  rw [write, if_pos h]

theorem write_large {n : ℕ} (h : 128 ≤ n) :
    write n = (n % 128 + 128).toUInt8 :: write (n / 128) := by
  rw [write, if_neg (by omega)]

theorem toNat_toUInt8 {n : ℕ} (h : n < 256) : n.toUInt8.toNat = n := by
  simp [Nat.mod_eq_of_lt h]

theorem read_write (n : ℕ) (after : List UInt8) :
    read (write n ++ after) = some (n, (write n).length) := by
  induction n using Nat.strongRecOn with
  | ind n ih =>
    by_cases h : n < 128
    · rw [write_small h, List.singleton_append,
        read_cons_last _ (by rw [toNat_toUInt8] <;> omega), toNat_toUInt8 (by omega)]
      rfl
    · have hb : (n % 128 + 128).toUInt8.toNat = n % 128 + 128 := toNat_toUInt8 (by omega)
      rw [write_large (by omega), List.cons_append, read_cons_more _ (by omega),
        ih _ (by omega), hb]
      simp only [Option.map_some, List.length_cons, Option.some.injEq, Prod.mk.injEq, and_true]
      omega

theorem write_length_pos (n : ℕ) : 0 < (write n).length := by
  rw [write]
  split <;> simp

/-- One more byte holds 128 times as many numbers. -/
theorem write_length_le {n k : ℕ} : (write n).length ≤ k + 1 ↔ n < 128 ^ (k + 1) := by
  induction k generalizing n with
  | zero =>
    by_cases h : n < 128
    · simp [write_small h, h]
    · have := write_length_pos (n / 128)
      rw [write_large (by omega), List.length_cons]
      omega
  | succ k ih =>
    by_cases h : n < 128
    · have : 128 ^ 1 ≤ 128 ^ (k + 1 + 1) := Nat.pow_le_pow_right (by decide) (by omega)
      simp only [write_small h, List.length_singleton]
      omega
    · rw [write_large (by omega), List.length_cons, Nat.add_le_add_iff_right, ih,
        Nat.div_lt_iff_lt_mul (by decide), ← pow_succ]

variable {text : List UInt8} {used : ℕ}

theorem read_used {n : ℕ} (h : read text = some (n, used)) : 0 < used ∧ used ≤ text.length := by
  induction text generalizing n used with
  | nil => cases h
  | cons byte rest ih =>
    by_cases hb : byte.toNat < 128
    · rw [read_cons_last _ hb] at h
      cases h
      simp
    · rw [read_cons_more _ (by omega), Option.map_eq_some_iff] at h
      obtain ⟨⟨m, k⟩, hr, he⟩ := h
      cases he
      have := ih hr
      simp only [List.length_cons]
      omega

theorem read_append {n : ℕ} (after : List UInt8) (h : read text = some (n, used)) :
    read (text ++ after) = some (n, used) := by
  induction text generalizing n used with
  | nil => cases h
  | cons byte rest ih =>
    by_cases hb : byte.toNat < 128
    · rw [read_cons_last _ hb] at h
      rw [List.cons_append, read_cons_last _ hb, h]
    · rw [read_cons_more _ (by omega), Option.map_eq_some_iff] at h
      obtain ⟨⟨m, k⟩, hr, he⟩ := h
      rw [List.cons_append, read_cons_more _ (by omega), ih hr]
      exact congrArg some he

/-- A text ends inside a number where all its bytes say that more follow. -/
theorem read_eq_none : read text = none ↔ ∀ byte ∈ text, 128 ≤ byte.toNat := by
  induction text with
  | nil => simp [read]
  | cons byte rest ih =>
    by_cases hb : byte.toNat < 128
    · simp only [read_cons_last _ hb, reduceCtorEq, List.mem_cons, forall_eq_or_imp, false_iff]
      omega
    · rw [read_cons_more _ (by omega), Option.map_eq_none_iff, ih]
      simp only [List.mem_cons, forall_eq_or_imp]
      exact (and_iff_right (by omega)).symm

theorem read_past {after : List UInt8} {n : ℕ} (h : read text = none)
    (h' : read (text ++ after) = some (n, used)) : text.length < used := by
  induction text generalizing n used with
  | nil => exact (read_used h').1
  | cons byte rest ih =>
    have hb := read_eq_none.mp h byte (by simp)
    rw [read_cons_more _ hb, Option.map_eq_none_iff] at h
    rw [List.cons_append, read_cons_more _ hb, Option.map_eq_some_iff] at h'
    obtain ⟨⟨m, k⟩, hr, he⟩ := h'
    cases he
    have := ih h hr
    simp only [List.length_cons]
    omega

/-- A number that is not at its end is closed by one more byte, in the shortest form. -/
theorem read_closed (h : ∀ byte ∈ text, 128 ≤ byte.toNat) :
    ∃ n, read (text ++ [1]) = some (n, text.length + 1) ∧ 128 ^ text.length ≤ n ∧
      n < 2 * 128 ^ text.length := by
  induction text with
  | nil => exact ⟨1, rfl, by decide, by decide⟩
  | cons byte rest ih =>
    obtain ⟨n, hn, hlow, hhigh⟩ := ih fun b hb => h b (by simp [hb])
    have hb := h byte (by simp)
    have hl := byte.toNat_lt
    refine ⟨byte.toNat - 128 + 128 * n, ?_, ?_, ?_⟩
    · rw [List.cons_append, read_cons_more _ hb, hn]
      rfl
    · rw [List.length_cons, pow_succ]
      omega
    · rw [List.length_cons, pow_succ]
      omega

/-- A number needs no more bytes than those it was read from. -/
theorem write_length_le_used {n : ℕ} (h : read text = some (n, used)) :
    (write n).length ≤ used := by
  induction text generalizing n used with
  | nil => cases h
  | cons byte rest ih =>
    by_cases hb : byte.toNat < 128
    · rw [read_cons_last _ hb] at h
      cases h
      simp [write_small hb]
    · rw [read_cons_more _ (by omega), Option.map_eq_some_iff] at h
      obtain ⟨⟨m, k⟩, hr, he⟩ := h
      cases he
      have := ih hr
      by_cases hn : byte.toNat - 128 + 128 * m < 128
      · rw [write_small hn]
        simp
      · have := byte.toNat_lt
        rw [write_large (by omega), List.length_cons,
          show (byte.toNat - 128 + 128 * m) / 128 = m by omega]
        omega

/-- A form of the shortest length is the one that is written. -/
theorem take_of_shortest {n : ℕ} (h : read text = some (n, used)) (hs : (write n).length = used) :
    text.take used = write n := by
  induction text generalizing n used with
  | nil => cases h
  | cons byte rest ih =>
    by_cases hb : byte.toNat < 128
    · rw [read_cons_last _ hb] at h
      cases h
      simp [write_small hb]
    · rw [read_cons_more _ (by omega), Option.map_eq_some_iff] at h
      obtain ⟨⟨m, k⟩, hr, he⟩ := h
      cases he
      have hk := (read_used hr).1
      have hl := byte.toNat_lt
      have hn : 128 ≤ byte.toNat - 128 + 128 * m := by
        by_contra hlt
        rw [write_small (by omega)] at hs
        simp only [List.length_singleton] at hs
        omega
      rw [write_large hn, show (byte.toNat - 128 + 128 * m) / 128 = m by omega] at hs ⊢
      rw [List.take_succ_cons, ih hr (by simpa using hs)]
      congr 1
      apply UInt8.toNat_inj.mp
      rw [toNat_toUInt8 (by omega)]
      omega

end SaltsUtils.Leb128

/-!
## Big-endian numbers in base 128

A number is written in groups of seven bits, the highest first. Every byte but the last has
128 added to its group.
-/

namespace SaltsUtils.Vlq

/-- The bytes in front of the last one, given the number without its last group. -/
def groups : ℕ → ℕ → List ℕ
  | 0, _ => []
  | rounds + 1, n => if n = 0 then [] else groups rounds (n / 128) ++ [128 + n % 128]

def write (n : ℕ) : List ℕ := groups n (n / 128) ++ [n % 128]

/-- How many bytes a number takes. -/
def size_rounds : ℕ → ℕ → ℕ
  | 0, _ => 1
  | rounds + 1, n => if n / 128 = 0 then 1 else size_rounds rounds (n / 128) + 1

def size (n : ℕ) : ℕ := size_rounds n n

/-- The number at the start of a text, behind the groups read so far, and its width. -/
def read (acc : ℕ) : List ℕ → Option (ℕ × ℕ)
  | [] => none
  | c :: text =>
    if 128 ≤ c then (read ((acc + c % 128) * 128) text).map fun r => (r.1, r.2 + 1)
    else some (acc + c, 1)

theorem read_groups {rounds n : ℕ} (h : n ≤ rounds) (text : List ℕ) :
    read 0 (groups rounds n ++ text) =
      (read (n * 128) text).map fun r => (r.1, r.2 + (groups rounds n).length) := by
  induction rounds generalizing n text with
  | zero =>
    obtain rfl : n = 0 := Nat.le_zero.mp h
    rw [groups, List.nil_append, Nat.zero_mul]
    exact Option.map_id'.symm
  | succ rounds ih =>
    rw [groups]
    split_ifs with hn
    · rw [hn, List.nil_append, Nat.zero_mul]
      exact Option.map_id'.symm
    · have hlt : n / 128 ≤ rounds := by omega
      have hc : 128 ≤ 128 + n % 128 := Nat.le_add_right _ _
      have hval : (n / 128 * 128 + (128 + n % 128) % 128) * 128 = n * 128 := by omega
      rw [List.append_assoc, ih hlt, List.singleton_append, read, if_pos hc, hval, Option.map_map,
        List.length_append]
      congr 1
      funext r
      rw [Function.comp, List.length_singleton]
      simp only [Prod.mk.injEq, true_and]
      omega

/-- A number that has been written is read whatever stands behind it. -/
theorem read_write (n : ℕ) (text : List ℕ) :
    read 0 (write n ++ text) = some (n, (write n).length) := by
  have hlast : ¬ 128 ≤ n % 128 := by omega
  have hval : n / 128 * 128 + n % 128 = n := by omega
  rw [write, List.append_assoc, read_groups (Nat.div_le_self n 128), List.singleton_append, read,
    if_neg hlast, hval, List.length_append]
  simp only [Option.map_some, Option.some.injEq, Prod.mk.injEq, true_and, List.length_singleton]
  omega

theorem size_groups {rounds m n : ℕ} (h : n ≤ rounds) (h' : n ≤ m) :
    size_rounds rounds n = (groups m (n / 128)).length + 1 := by
  induction rounds generalizing m n with
  | zero =>
    obtain rfl : n = 0 := Nat.le_zero.mp h
    cases m with
    | zero => rfl
    | succ m => rfl
  | succ rounds ih =>
    rw [size_rounds]
    split_ifs with hn
    · rw [hn]
      cases m with
      | zero => rfl
      | succ m => rfl
    · cases m with
      | zero => omega
      | succ m =>
        rw [groups, if_neg hn, ih (n := n / 128) (m := m) (by omega) (by omega),
          List.length_append]
        rfl

theorem write_length (n : ℕ) : (write n).length = size n := by
  rw [write, List.length_append, size, size_groups (Nat.le_refl n) (Nat.le_refl n)]
  rfl

end SaltsUtils.Vlq
