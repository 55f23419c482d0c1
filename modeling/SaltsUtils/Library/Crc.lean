import Mathlib.Data.List.GetD
import Mathlib.Tactic

/-!
# Cyclic redundancy checks

A reflected check of width `w` as a shift register: a bit of the message is added to the
lowest place and the register moves down by one.
-/

set_option autoImplicit false

namespace SaltsUtils.Crc

variable {w : ℕ} {poly : BitVec w}

/-- One step of the register. -/
def shift (poly c : BitVec w) : BitVec w :=
  if c.getLsbD 0 then (c >>> 1) ^^^ poly else c >>> 1

/-- A register with nothing but its lowest place. -/
def place (w : ℕ) (bit : Bool) : BitVec w := (BitVec.ofBool bit).setWidth w

def feed (poly c : BitVec w) (bit : Bool) : BitVec w := shift poly (c ^^^ place w bit)

/-- The register after a message. -/
def run (poly c : BitVec w) (message : List Bool) : BitVec w := message.foldl (feed poly) c

/-- The first bits of a message in the places of a register, the first one lowest. -/
def pack (w : ℕ) : List Bool → BitVec w
  | [] => 0
  | bit :: message => place w bit ^^^ (pack w message <<< 1)

def bits (c : BitVec w) : List Bool := (List.range w).map c.getLsbD

/-- A pattern with a bit set and all its set bits in a window of `n` places. -/
structure Burst (n : ℕ) (pattern : List Bool) : Prop where
  nonzero : true ∈ pattern
  window : ∃ start, ∀ i, pattern.getD i false = true → start ≤ i ∧ i < start + n

theorem xor_swap (a b c d : BitVec w) : a ^^^ b ^^^ (c ^^^ d) = a ^^^ c ^^^ (b ^^^ d) := by
  rw [BitVec.xor_assoc, ← BitVec.xor_assoc b, BitVec.xor_comm b c, BitVec.xor_assoc c,
    ← BitVec.xor_assoc]

theorem xor_eq_zero {a b : BitVec w} : a ^^^ b = 0 ↔ a = b := by
  constructor
  · intro h
    have := congrArg (· ^^^ b) h
    simpa [BitVec.xor_assoc] using this
  · intro h
    rw [h, BitVec.xor_self]
    rfl

theorem shift_xor (a b : BitVec w) : shift poly (a ^^^ b) = shift poly a ^^^ shift poly b := by
  have hsplit : ∀ c, shift poly c = (c >>> 1) ^^^ if c.getLsbD 0 then poly else 0 := by
    intro c
    unfold shift
    split_ifs <;> simp
  rw [hsplit, hsplit, hsplit, xor_swap, BitVec.getLsbD_xor, BitVec.ushiftRight_xor_distrib]
  congr 1
  cases a.getLsbD 0 <;> cases b.getLsbD 0 <;> simp

@[simp] theorem shift_zero : shift poly 0 = 0 := by
  simp [shift]

theorem iterate_shift_xor (k : ℕ) (a b : BitVec w) :
    (shift poly)^[k] (a ^^^ b) = (shift poly)^[k] a ^^^ (shift poly)^[k] b := by
  induction k generalizing a b with
  | zero => rfl
  | succ k ih => rw [Function.iterate_succ_apply, shift_xor, ih]; rfl

@[simp] theorem iterate_shift_zero (k : ℕ) : (shift poly)^[k] 0 = 0 :=
  Function.iterate_fixed shift_zero k

theorem place_xor (a b : Bool) : place w (a ^^ b) = place w a ^^^ place w b := by
  cases a <;> cases b <;> simp [place]

@[simp] theorem place_false : place w false = 0 := by
  simp [place]

theorem run_append (c : BitVec w) (m n : List Bool) :
    run poly c (m ++ n) = run poly (run poly c m) n := List.foldl_append

/-- Errors in the message go through the register on their own. -/
theorem run_xor {m e : List Bool} (h : e.length = m.length) (a b : BitVec w) :
    run poly (a ^^^ b) (List.zipWith (· ^^ ·) m e) = run poly a m ^^^ run poly b e := by
  induction m generalizing e a b with
  | nil =>
    obtain rfl := List.length_eq_zero_iff.mp h
    rfl
  | cons bit m ih =>
    cases e with
    | nil => cases h
    | cons flip e =>
      have hstep : feed poly (a ^^^ b) (bit ^^ flip) = feed poly a bit ^^^ feed poly b flip := by
        rw [feed, place_xor, xor_swap, shift_xor]
        rfl
      have hrest : e.length = m.length := by simpa using h
      rw [List.zipWith_cons_cons, run, List.foldl_cons, hstep]
      exact ih hrest _ _

theorem shift_left (c : BitVec w) (h : c.getLsbD (w - 1) = false) : shift poly (c <<< 1) = c := by
  have hlow : (c <<< 1).getLsbD 0 = false := by simp
  rw [shift, hlow, if_neg Bool.false_ne_true]
  apply BitVec.eq_of_getLsbD_eq
  intro i hi
  rw [BitVec.getLsbD_ushiftRight, BitVec.getLsbD_shiftLeft]
  by_cases hlast : i = w - 1
  · rw [hlast, h]
    simp [show ¬ 1 + (w - 1) < w by omega]
  · simp [show 1 + i < w by omega]

theorem getLsbD_place (bit : Bool) (i : ℕ) :
    (place w bit).getLsbD i = (decide (i = 0 ∧ 0 < w) && bit) := by
  cases i with
  | zero => cases bit <;> simp [place]
  | succ i => cases bit <;> simp [place]

theorem getLsbD_pack (m : List Bool) (i : ℕ) :
    (pack w m).getLsbD i = (decide (i < w) && m.getD i false) := by
  induction m generalizing i with
  | nil => simp [pack]
  | cons bit m ih =>
    rw [pack, BitVec.getLsbD_xor, getLsbD_place, BitVec.getLsbD_shiftLeft]
    cases i with
    | zero => by_cases hw : 0 < w <;> simp [hw]
    | succ i =>
      rw [Nat.add_sub_cancel, ih, List.getD_cons_succ]
      by_cases hi : i + 1 < w
      · simp [hi, show i < w by omega]
      · simp [hi]

/-- The bits of a short message may as well be added all at once. -/
theorem run_eq_pack {m : List Bool} (h : m.length ≤ w) (c : BitVec w) :
    run poly c m = (shift poly)^[m.length] (c ^^^ pack w m) := by
  induction m generalizing c with
  | nil => simp [run, pack]
  | cons bit m ih =>
    have hm : m.length < w := h
    have htop : (pack w m).getLsbD (w - 1) = false := by
      rw [getLsbD_pack, List.getD_eq_default _ _ (by omega), Bool.and_false]
    have hfirst : shift poly (c ^^^ pack w (bit :: m)) = feed poly c bit ^^^ pack w m := by
      rw [pack, ← BitVec.xor_assoc, shift_xor, shift_left _ htop]
      rfl
    rw [List.length_cons, Function.iterate_succ_apply, hfirst]
    exact ih (by omega) _

theorem pack_bits {v : ℕ} (c : BitVec v) : pack w (bits c) = c.setWidth w := by
  apply BitVec.eq_of_getLsbD_eq
  intro i hi
  rw [getLsbD_pack, BitVec.getLsbD_setWidth]
  by_cases hv : i < v
  · simp [bits, hv]
  · rw [List.getD_eq_default _ _ (by simp [bits]; omega), BitVec.getLsbD_of_ge _ _ (by omega)]

@[simp] theorem length_bits (c : BitVec w) : (bits c).length = w := by
  simp [bits]

theorem iterate_shift_left (k : ℕ) (c : BitVec w) (h : ∀ i, w - k ≤ i → c.getLsbD i = false) :
    (shift poly)^[k] (c <<< k) = c := by
  induction k with
  | zero => simp
  | succ k ih =>
    have htop : (c <<< k).getLsbD (w - 1) = false := by
      rw [BitVec.getLsbD_shiftLeft]
      by_cases hk : w - 1 < k
      · simp [hk]
      · rw [h (w - 1 - k) (by omega), Bool.and_false]
    rw [Function.iterate_succ_apply, BitVec.shiftLeft_add, shift_left _ htop]
    exact ih fun i hi => h i (by omega)

/-- Several steps at once: those of the lowest places, and the others moved down. -/
theorem iterate_shift_low (k : ℕ) (c : BitVec w) :
    (shift poly)^[k] c = (shift poly)^[k] ((c.setWidth k).setWidth w) ^^^ (c >>> k) := by
  have hsplit : c = (c.setWidth k).setWidth w ^^^ ((c >>> k) <<< k) := by
    apply BitVec.eq_of_getLsbD_eq
    intro i hi
    rw [BitVec.getLsbD_xor, BitVec.getLsbD_setWidth, BitVec.getLsbD_setWidth,
      BitVec.getLsbD_shiftLeft, BitVec.getLsbD_ushiftRight]
    by_cases hk : i < k
    · simp [hk, hi]
    · simp [hk, hi, show k + (i - k) = i by omega]
  have hhigh : (shift poly)^[k] ((c >>> k) <<< k) = c >>> k :=
    iterate_shift_left k (c >>> k) fun i hi => by
    rw [BitVec.getLsbD_ushiftRight, BitVec.getLsbD_of_ge _ _ (by omega)]
  calc (shift poly)^[k] c
      = (shift poly)^[k] ((c.setWidth k).setWidth w ^^^ ((c >>> k) <<< k)) := by rw [← hsplit]
    _ = _ := by rw [iterate_shift_xor, hhigh]

theorem run_bits {v : ℕ} (c : BitVec w) (word : BitVec v) (h : v ≤ w) :
    run poly c (bits word) = (shift poly)^[v] (c ^^^ word.setWidth w) := by
  rw [run_eq_pack (by rw [length_bits]; exact h), pack_bits word, length_bits]

theorem run_falses (c : BitVec w) (n : ℕ) :
    run poly c (List.replicate n false) = (shift poly)^[n] c := by
  induction n generalizing c with
  | zero => rfl
  | succ n ih =>
    have hfeed : feed poly c false = shift poly c := by
      simp [feed]
    rw [List.replicate_succ, run, List.foldl_cons, hfeed, Function.iterate_succ_apply]
    exact ih _

theorem Burst.split {n : ℕ} {e : List Bool} (h : Burst n e) :
    ∃ before window after,
      e = List.replicate before false ++ window ++ List.replicate after false ∧
        window.length ≤ n ∧ true ∈ window := by
  obtain ⟨start, hwin⟩ := h.window
  have hfront : e.take start = List.replicate (e.take start).length false := by
    apply List.eq_replicate_of_mem
    intro bit hbit
    obtain ⟨i, hi, rfl⟩ := List.mem_iff_getElem.mp hbit
    have hlt : i < start ∧ i < e.length := by simpa using hi
    by_contra hset
    rw [List.getElem_take] at hset
    have := hwin i (by rw [List.getD_eq_getElem _ _ hlt.2]; simpa using hset)
    omega
  have hback : e.drop (start + n) = List.replicate (e.drop (start + n)).length false := by
    apply List.eq_replicate_of_mem
    intro bit hbit
    obtain ⟨i, hi, rfl⟩ := List.mem_iff_getElem.mp hbit
    have hlt : start + n + i < e.length := by
      rw [List.length_drop] at hi
      omega
    by_contra hset
    rw [List.getElem_drop] at hset
    have := hwin (start + n + i) (by rw [List.getD_eq_getElem _ _ hlt]; simpa using hset)
    omega
  have hparts : e = e.take start ++ (e.drop start).take n ++ e.drop (start + n) := by
    rw [List.append_assoc, ← List.drop_drop, List.take_append_drop, List.take_append_drop]
  refine ⟨(e.take start).length, (e.drop start).take n, (e.drop (start + n)).length, ?_, by simp,
    ?_⟩
  · rw [← hfront, ← hback]
    exact hparts
  · have hset := h.nonzero
    rw [hparts, hfront, hback] at hset
    simpa using hset

theorem Burst.of_append_falses {n k : ℕ} {e : List Bool}
    (h : Burst n (e ++ List.replicate k false)) : Burst n e where
  nonzero := by simpa using h.nonzero
  window := by
    obtain ⟨start, hwin⟩ := h.window
    refine ⟨start, fun i hi => hwin i ?_⟩
    have hlt : i < e.length := by
      by_contra hge
      rw [List.getD_eq_default _ _ (Nat.le_of_not_lt hge)] at hi
      cases hi
    rw [List.getD_append _ _ _ _ hlt]
    exact hi

section

variable (hp : poly.getLsbD (w - 1) = true)
include hp

/-- The polynomial shows in the highest place whether the lowest bit has fallen out. -/
theorem shift_eq_zero {c : BitVec w} (h : shift poly c = 0) : c = 0 := by
  have htop : (c >>> 1).getLsbD (w - 1) = false := by
    rw [BitVec.getLsbD_ushiftRight, BitVec.getLsbD_of_ge _ _ (by omega)]
  unfold shift at h
  by_cases h0 : c.getLsbD 0 = true
  · rw [if_pos h0] at h
    have := congrArg (BitVec.getLsbD · (w - 1)) h
    simp only [BitVec.getLsbD_xor, htop, hp] at this
    simp at this
  · rw [if_neg h0] at h
    apply BitVec.eq_of_getLsbD_eq
    intro i hi
    cases i with
    | zero => simpa using h0
    | succ i =>
      have := congrArg (BitVec.getLsbD · i) h
      simpa [BitVec.getLsbD_ushiftRight, Nat.add_comm] using this

theorem iterate_shift_eq_zero {k : ℕ} {c : BitVec w} (h : (shift poly)^[k] c = 0) : c = 0 := by
  induction k generalizing c with
  | zero => exact h
  | succ k ih => exact shift_eq_zero hp (ih h)

/-- A message takes the register to one place if its check, with `final` added, follows it. -/
theorem run_trailer {c final : BitVec w} {data trailer : List Bool} (ht : trailer.length = w) :
    run poly c (data ++ trailer) = (shift poly)^[w] final ↔
      run poly c data ^^^ final = pack w trailer := by
  have hsum : run poly c data ^^^ pack w trailer ^^^ final =
      run poly c data ^^^ final ^^^ pack w trailer := by
    rw [BitVec.xor_assoc, BitVec.xor_comm _ final, ← BitVec.xor_assoc]
  rw [run_append, run_eq_pack ht.le, ht, ← xor_eq_zero, ← iterate_shift_xor, hsum]
  constructor
  · exact fun h => xor_eq_zero.mp (iterate_shift_eq_zero hp h)
  · intro h
    rw [xor_eq_zero.mpr h, iterate_shift_zero]

/-- A burst that fits into the register is not lost in it. -/
theorem run_burst {e : List Bool} (h : Burst w e) : run poly 0 e ≠ 0 := by
  obtain ⟨before, window, after, rfl, hlen, hset⟩ := h.split
  rw [run_append, run_append, run_falses, run_falses, iterate_shift_zero, run_eq_pack hlen]
  intro hzero
  have hpack : 0 ^^^ pack w window = 0 := iterate_shift_eq_zero hp (iterate_shift_eq_zero hp hzero)
  obtain ⟨i, hi, hbit⟩ := List.mem_iff_getElem.mp hset
  have := getLsbD_pack (w := w) window i
  rw [← xor_eq_zero.mp hpack, List.getD_eq_getElem _ _ hi, hbit] at this
  simp [show i < w by omega] at this

/-- A message with its check, or with `final` added to it, in its trailer. -/
theorem burst_detected {c final : BitVec w} {data trailer data' trailer' e : List Bool}
    (ht : trailer.length = w) (ht' : trailer'.length = w) (he : Burst w e)
    (hlen : e.length = (data ++ trailer).length)
    (hflip : data' ++ trailer' = List.zipWith (· ^^ ·) (data ++ trailer) e)
    (hgood : run poly c data ^^^ final = pack w trailer) :
    run poly c data' ^^^ final ≠ pack w trailer' := by
  intro hgood'
  have hsplit : run poly (c ^^^ 0) _ = _ := run_xor hlen c 0
  have hzero : c ^^^ 0 = c := BitVec.xor_zero
  rw [hzero, ← hflip, (run_trailer hp ht').mpr hgood', (run_trailer hp ht).mpr hgood] at hsplit
  have hnone : run poly 0 e = 0 := by
    have := congrArg ((shift poly)^[w] final ^^^ ·) hsplit
    simpa [← BitVec.xor_assoc] using this.symm
  exact run_burst hp he hnone

end

/-- The bits in the order in which they are sent, the lowest of each byte first. -/
def messageBits (data : List UInt8) : List Bool := data.flatMap fun byte => bits byte.toBitVec

def corrupt (data error : List UInt8) : List UInt8 := List.zipWith (· ^^^ ·) data error

theorem messageBits_cons (byte : UInt8) (data : List UInt8) :
    messageBits (byte :: data) = bits byte.toBitVec ++ messageBits data := List.flatMap_cons

@[simp] theorem corrupt_cons (byte flip : UInt8) (data error : List UInt8) :
    corrupt (byte :: data) (flip :: error) = (byte ^^^ flip) :: corrupt data error := rfl

@[simp] theorem messageBits_append (a b : List UInt8) :
    messageBits (a ++ b) = messageBits a ++ messageBits b := List.flatMap_append

theorem length_messageBits (data : List UInt8) : (messageBits data).length = 8 * data.length := by
  induction data with
  | nil => rfl
  | cons byte data ih =>
    rw [messageBits_cons, List.length_append, length_bits, List.length_cons]
    omega

theorem bits_xor (a b : BitVec w) : bits (a ^^^ b) = List.zipWith (· ^^ ·) (bits a) (bits b) := by
  simp [bits, List.zipWith_map]

theorem messageBits_corrupt {data error : List UInt8} (h : error.length = data.length) :
    messageBits (corrupt data error) =
      List.zipWith (· ^^ ·) (messageBits data) (messageBits error) := by
  induction data generalizing error with
  | nil => rfl
  | cons byte data ih =>
    cases error with
    | nil => cases h
    | cons flip error =>
      have hrest : error.length = data.length := by simpa using h
      have hbits : bits (byte ^^^ flip).toBitVec =
          List.zipWith (· ^^ ·) (bits byte.toBitVec) (bits flip.toBitVec) := bits_xor _ _
      rw [corrupt_cons, messageBits_cons, messageBits_cons, messageBits_cons,
        List.zipWith_append (by rw [length_bits, length_bits]), ← hbits, ih hrest]

@[simp] theorem length_corrupt {data error : List UInt8} (h : error.length = data.length) :
    (corrupt data error).length = data.length := by
  rw [corrupt, List.length_zipWith, h, Nat.min_self]

/-- Eight steps of the register take in a byte at once. -/
theorem run_byte (c : BitVec w) (byte : UInt8) (h : 8 ≤ w) :
    run poly c (bits byte.toBitVec) = (shift poly)^[8] (c ^^^ byte.toBitVec.setWidth w) :=
  run_bits c byte.toBitVec h

/-- Bytes in the register make the number that has them lowest first. -/
theorem pack_messageBits_cons (byte : UInt8) (data : List UInt8) :
    pack w (messageBits (byte :: data)) =
      byte.toBitVec.setWidth w ||| (pack w (messageBits data) <<< 8) := by
  apply BitVec.eq_of_getLsbD_eq
  intro i hi
  rw [getLsbD_pack, BitVec.getLsbD_or, BitVec.getLsbD_setWidth, BitVec.getLsbD_shiftLeft,
    getLsbD_pack, messageBits_cons]
  by_cases h8 : i < 8
  · rw [List.getD_append _ _ _ _ (by rw [length_bits]; exact h8)]
    simp [bits, h8, hi]
  · rw [List.getD_append_right _ _ _ _ (by rw [length_bits]; omega), length_bits,
      BitVec.getLsbD_of_ge _ _ (Nat.le_of_not_lt h8)]
    simp [h8, hi, show i - 8 < w by omega]

end SaltsUtils.Crc
