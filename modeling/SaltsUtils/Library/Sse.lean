import Mathlib.Algebra.Ring.Nat
import Mathlib.Data.List.Basic
import Mathlib.Data.Nat.Bits

/-!
# Searching sixteen bytes at a time

Byte vectors with a comparison and a mask, and a loop that looks at whole vectors and
leaves what is shorter to a loop over single bytes. There is nothing to load at the limit.
-/

set_option autoImplicit false

namespace SaltsUtils.Library.Sse

abbrev M128i := List UInt8

def set1_epi8 (c : UInt8) : M128i := List.replicate 16 c

def setzero_si128 : M128i := set1_epi8 0

/-- A lane of a comparison. -/
def lane (b : Bool) : UInt8 := if b then 0xFF else 0

def cmpeq_epi8 (a b : M128i) : M128i := List.zipWith (fun x y => lane (x == y)) a b

def cmplt_epi8 (a b : M128i) : M128i :=
  List.zipWith (fun x y => lane (decide (x.toInt8 < y.toInt8))) a b

def or_si128 (a b : M128i) : M128i := List.zipWith (· ||| ·) a b

/-- The first byte gives the lowest bit. -/
def movemask_epi8 : M128i → ℕ
  | [] => 0
  | c :: v => c.toNat / 128 + 2 * movemask_epi8 v

/-- `while ((mask & 1) == 0) { ++p; mask >>= 1; }` -/
def skip_zeros : ℕ → ℕ → ℕ → Option ℕ
  | 0, _, _ => none
  | rounds + 1, mask, p =>
    if mask &&& 1 = 0 then skip_zeros rounds (mask >>> 1) (p + 1) else some p

/-- `while ((mask & 1) != 0) { ++p; mask >>= 1; }` -/
def skip_ones : ℕ → ℕ → ℕ → Option ℕ
  | 0, _, _ => none
  | rounds + 1, mask, p =>
    if mask &&& 1 = 0 then some p else skip_ones rounds (mask >>> 1) (p + 1)

/-- What a search makes of a mask: the first bit that is set, if there is one. -/
def zeros_step (mask p : ℕ) : Option (Option ℕ) :=
  if mask = 0 then some none else (skip_zeros 32 mask p).map some

section
variable (data : List UInt8) (limit : ℕ)

def load (p : ℕ) : Option UInt8 := if p < limit then data[p]? else none

def loadu_si128 (p : ℕ) : Option M128i :=
  if p + 16 ≤ min limit data.length then some ((data.drop p).take 16) else none

variable {α : Type}

/-- The loop over single bytes. -/
def scan_bytes (stop : UInt8 → Bool) (found : UInt8 → ℕ → α) (fail : ℕ → α) : ℕ → ℕ → Option α
  | 0, _ => none
  | rounds + 1, p =>
    if p < limit then do
      let c ← load data limit p
      if stop c then some (found c p) else scan_bytes stop found fail rounds (p + 1)
    else some (fail p)

/-- The loop over vectors. What `step` makes of one is where the search ends in it, if it does. -/
def scan_vectors (step : M128i → ℕ → Option (Option ℕ)) (found tail : ℕ → Option α) :
    ℕ → ℕ → Option α
  | 0, _ => none
  | rounds + 1, p =>
    if 16 ≤ limit - p then do
      let bytes ← loadu_si128 data limit p
      match ← step bytes p with
      | none => scan_vectors step found tail rounds (p + 16)
      | some q => found q
    else tail p

/-- What lies between a position and the limit. -/
def ahead (p : ℕ) : List UInt8 := (data.take limit).drop p

/-- The outcome of a search, by the first byte at which it stops. -/
def search (stop : UInt8 → Bool) (found : ℕ → Option α) (fail : α) (p : ℕ) : Option α :=
  match (ahead data limit p).findIdx? stop with
  | none => some fail
  | some k => found (p + k)

end

variable {f g : UInt8 → Bool} {v : M128i} {p k rounds : ℕ}

theorem zipWith_set1 (h : UInt8 → UInt8 → UInt8) (hv : v.length = 16) (c : UInt8) :
    List.zipWith h v (set1_epi8 c) = v.map (h · c) := by
  apply List.ext_getElem
  · simp [set1_epi8, hv]
  · intro i h₁ h₂
    simp only [set1_epi8, List.getElem_zipWith, List.getElem_replicate, List.getElem_map]

theorem cmpeq_set1 (hv : v.length = 16) (c : UInt8) :
    cmpeq_epi8 v (set1_epi8 c) = v.map fun x => lane (x == c) :=
  zipWith_set1 _ hv c

theorem cmplt_set1 (hv : v.length = 16) (c : UInt8) :
    cmplt_epi8 v (set1_epi8 c) = v.map fun x => lane (decide (x.toInt8 < c.toInt8)) :=
  zipWith_set1 _ hv c

theorem lane_or (a b : Bool) : lane a ||| lane b = lane (a || b) := by cases a <;> cases b <;> rfl

theorem or_lanes (v : M128i) :
    or_si128 (v.map fun x => lane (f x)) (v.map fun x => lane (g x)) =
      v.map fun x => lane (f x || g x) := by
  rw [or_si128, List.zipWith_map, List.zipWith_self]
  simp only [lane_or]

/-- The mask of a comparison. -/
def mask (f : UInt8 → Bool) (v : M128i) : ℕ := movemask_epi8 (v.map fun x => lane (f x))

theorem mask_cons (f : UInt8 → Bool) (c : UInt8) (v : M128i) :
    mask f (c :: v) = (f c).toNat + 2 * mask f v := by
  rw [mask, List.map_cons, movemask_epi8, mask]
  cases f c <;> rfl

theorem mask_cons_and (f : UInt8 → Bool) (c : UInt8) (v : M128i) :
    mask f (c :: v) &&& 1 = (f c).toNat := by
  rw [mask_cons, Nat.and_one_is_mod]
  cases f c <;> simp

theorem mask_cons_shift (f : UInt8 → Bool) (c : UInt8) (v : M128i) :
    mask f (c :: v) >>> 1 = mask f v := by
  rw [mask_cons, Nat.shiftRight_one]
  cases f c <;> simp
  omega

theorem mask_eq_zero : mask f v = 0 ↔ v.findIdx? f = none := by
  induction v with
  | nil => simp [mask, movemask_epi8]
  | cons c v ih =>
    rw [mask_cons, List.findIdx?_cons]
    cases hc : f c
    · rw [if_neg (by decide), Option.map_eq_none_iff, ← ih, Bool.toNat_false]
      omega
    · simp

theorem mask_eq_ones : mask f v = 2 ^ v.length - 1 ↔ v.findIdx? (fun c => !f c) = none := by
  induction v with
  | nil => simp [mask, movemask_epi8]
  | cons c v ih =>
    have hpos := Nat.two_pow_pos v.length
    rw [mask_cons, List.findIdx?_cons, List.length_cons, Nat.pow_succ]
    cases hc : f c
    · simp
      omega
    · simp [← ih]
      omega

theorem skip_zeros_mask (h : v.findIdx? f = some k) (hr : k < rounds) (p : ℕ) :
    skip_zeros rounds (mask f v) p = some (p + k) := by
  induction v generalizing k rounds p with
  | nil => cases h
  | cons c v ih =>
    cases rounds with
    | zero => omega
    | succ rounds =>
      rw [List.findIdx?_cons] at h
      rw [skip_zeros, mask_cons_and, mask_cons_shift]
      cases hc : f c
      · rw [hc] at h
        obtain ⟨k, hk, rfl⟩ := Option.map_eq_some_iff.mp h
        show skip_zeros rounds (mask f v) (p + 1) = _
        rw [ih hk (by omega), Nat.add_right_comm, Nat.add_assoc]
      · rw [hc] at h
        cases h
        rfl

theorem skip_ones_mask (h : v.findIdx? (fun c => !f c) = some k) (hr : k < rounds) (p : ℕ) :
    skip_ones rounds (mask f v) p = some (p + k) := by
  induction v generalizing k rounds p with
  | nil => cases h
  | cons c v ih =>
    cases rounds with
    | zero => omega
    | succ rounds =>
      rw [List.findIdx?_cons] at h
      rw [skip_ones, mask_cons_and, mask_cons_shift]
      cases hc : f c
      · rw [hc] at h
        cases h
        rfl
      · rw [hc] at h
        obtain ⟨k, hk, rfl⟩ := Option.map_eq_some_iff.mp h
        rw [if_neg (by decide), ih hk (by omega), Nat.add_right_comm, Nat.add_assoc]

theorem zeros_step_mask (hv : v.length = 16) (q : ℕ) :
    zeros_step (mask f v) q = some ((v.findIdx? f).map (q + ·)) := by
  rw [zeros_step]
  cases hfind : v.findIdx? f with
  | none => exact if_pos (mask_eq_zero.mpr hfind)
  | some k =>
    have hk := (List.findIdx?_eq_some_iff_getElem.mp hfind).1
    rw [if_neg (fun h => by rw [mask_eq_zero.mp h] at hfind; cases hfind),
      skip_zeros_mask hfind (by omega)]
    rfl

section
variable {data : List UInt8} {limit : ℕ} {α : Type} {stop : UInt8 → Bool}

theorem ahead_length (hl : limit ≤ data.length) : (ahead data limit p).length = limit - p := by
  rw [ahead, List.length_drop, List.length_take, Nat.min_eq_left hl]

theorem ahead_cons (hl : limit ≤ data.length) (hp : p < limit) :
    ∃ c, load data limit p = some c ∧ ahead data limit p = c :: ahead data limit (p + 1) := by
  have hget : p < (data.take limit).length := by rw [List.length_take]; omega
  refine ⟨(data.take limit)[p], ?_, List.drop_eq_getElem_cons hget⟩
  rw [load, if_pos hp, List.getElem_take, List.getElem?_eq_getElem]

theorem ahead_vector (hl : limit ≤ data.length) (hp : 16 ≤ limit - p) :
    ∃ v, loadu_si128 data limit p = some v ∧ v.length = 16 ∧
      ahead data limit p = v ++ ahead data limit (p + 16) := by
  have hvector : (data.drop p).take 16 = (ahead data limit p).take 16 := by
    rw [ahead, List.drop_take, List.take_take, Nat.min_eq_left hp]
  refine ⟨(data.drop p).take 16, if_pos (by omega), ?_, ?_⟩
  · rw [List.length_take, List.length_drop]
    omega
  · rw [hvector, ahead, ahead, ← List.drop_drop, List.take_append_drop]

theorem scan_bytes_eq (hl : limit ≤ data.length) (found : UInt8 → ℕ → α) (fail : ℕ → α)
    (hp : p ≤ limit) (hr : limit - p < rounds) :
    scan_bytes data limit stop found fail rounds p =
      search data limit stop (fun q => (load data limit q).map (found · q)) (fail limit) p := by
  induction rounds generalizing p with
  | zero => omega
  | succ rounds ih =>
    rw [scan_bytes, search]
    by_cases hlt : p < limit
    · obtain ⟨c, hc, hahead⟩ := ahead_cons hl hlt
      rw [if_pos hlt, hc, hahead, List.findIdx?_cons]
      simp only [Option.bind_eq_bind, Option.bind_some]
      cases hstop : stop c
      · rw [if_neg (by decide), ih hlt (by omega), search, if_neg (by decide)]
        cases (ahead data limit (p + 1)).findIdx? stop with
        | none => rfl
        | some k => simp [Nat.add_right_comm, Nat.add_assoc]
      · simp [hc]
    · obtain rfl : p = limit := by omega
      have hnil : ahead data p p = [] := List.eq_nil_of_length_eq_zero (by rw [ahead_length hl]; omega)
      rw [if_neg hlt, hnil]
      rfl

theorem scan_bytes_position (hl : limit ≤ data.length) (hp : p ≤ limit) :
    scan_bytes data limit stop (fun _ q => q) (fun q => q) (limit - p + 1) p =
      search data limit stop some limit p := by
  rw [scan_bytes_eq hl _ _ hp (by omega), search, search]
  cases hfind : (ahead data limit p).findIdx? stop with
  | none => rfl
  | some k =>
    have hk := (List.findIdx?_eq_some_iff_getElem.mp hfind).1
    rw [ahead_length hl] at hk
    obtain ⟨c, hc, -⟩ := @ahead_cons (p + k) data limit hl (by omega)
    dsimp only
    rw [hc]
    rfl

/-- A loop over vectors finds what the loop behind it finds. -/
theorem scan_vectors_eq (hl : limit ≤ data.length) {step : M128i → ℕ → Option (Option ℕ)}
    (hstep : ∀ v q, v.length = 16 → step v q = some ((v.findIdx? stop).map (q + ·)))
    {found tail : ℕ → Option α} {fail : α}
    (htail : ∀ q, q ≤ limit → tail q = search data limit stop found fail q)
    (hp : p ≤ limit) (hr : limit - p < rounds) :
    scan_vectors data limit step found tail rounds p = search data limit stop found fail p := by
  induction rounds generalizing p with
  | zero => omega
  | succ rounds ih =>
    rw [scan_vectors]
    by_cases hwhole : 16 ≤ limit - p
    · obtain ⟨v, hv, hlen, hahead⟩ := ahead_vector hl hwhole
      rw [if_pos hwhole, hv, search, hahead, List.findIdx?_append]
      simp only [Option.bind_eq_bind, Option.bind_some, hstep v p hlen]
      cases v.findIdx? stop with
      | none =>
        simp only [Option.map_none, ih (show p + 16 ≤ limit by omega) (by omega), search]
        cases (ahead data limit (p + 16)).findIdx? stop with
        | none => rfl
        | some k => simp [hlen, Nat.add_right_comm, Nat.add_assoc]
      | some k => rfl
    · rw [if_neg hwhole, htail p hp]

theorem search_position (hl : limit ≤ data.length) (hp : p ≤ limit) :
    ∃ q, search data limit stop some limit p = some q ∧ p ≤ q ∧ q ≤ limit ∧
      (∀ i, p ≤ i → i < q → ∃ c, data[i]? = some c ∧ stop c = false) ∧
      (q < limit → ∃ c, data[q]? = some c ∧ stop c = true) := by
  have hlen := @ahead_length p data limit hl
  have hget : ∀ i (hi : i < (ahead data limit p).length),
      data[p + i]? = some (ahead data limit p)[i] := by
    intro i hi
    rw [List.getElem?_eq_getElem (by omega)]
    simp only [ahead, List.getElem_drop, List.getElem_take]
  rw [search]
  cases hfind : (ahead data limit p).findIdx? stop with
  | none =>
    rw [List.findIdx?_eq_none_iff] at hfind
    refine ⟨limit, rfl, hp, Nat.le_refl _, fun i hi hlt => ?_, fun h => absurd h (Nat.lt_irrefl _)⟩
    obtain ⟨k, rfl⟩ := Nat.exists_eq_add_of_le hi
    exact ⟨_, hget k (by omega), hfind _ (List.getElem_mem _)⟩
  | some k =>
    obtain ⟨hk, hstop, hbefore⟩ := List.findIdx?_eq_some_iff_getElem.mp hfind
    refine ⟨p + k, rfl, by omega, by omega, fun i hi hlt => ?_, fun _ => ⟨_, hget k hk, hstop⟩⟩
    obtain ⟨j, rfl⟩ := Nat.exists_eq_add_of_le hi
    have hj : j < k := by omega
    exact ⟨_, hget j (by omega), by simpa using hbefore j hj⟩

end

end SaltsUtils.Library.Sse
