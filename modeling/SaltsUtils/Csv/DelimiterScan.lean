import SaltsUtils.Csv.Document
import SaltsUtils.Library.Sse

/-!
# The end of an unquoted field, sixteen bytes at a time

The functions of `csv_lexer_simde.h` on a buffer, a position and the position behind the
text. A byte at or behind the latter cannot be loaded.
-/

set_option autoImplicit false

namespace SaltsUtils.Csv.Vectors
open Library.Sse

variable (data : Bytes) (limit : ℕ)

def csv_find_unquoted_field_end_scalar (p : ℕ) : Option ℕ :=
  scan_bytes data limit isSpecial (fun _ q => q) (fun q => q) (limit - p + 1) p

def special (bytes : M128i) : M128i :=
  or_si128
    (or_si128 (cmpeq_epi8 bytes setzero_si128) (cmpeq_epi8 bytes (set1_epi8 comma)))
    (or_si128
      (or_si128 (cmpeq_epi8 bytes (set1_epi8 doubleQuote)) (cmpeq_epi8 bytes (set1_epi8 cr)))
      (cmpeq_epi8 bytes (set1_epi8 lf)))

def special_step (bytes : M128i) (p : ℕ) : Option (Option ℕ) :=
  zeros_step (movemask_epi8 (special bytes)) p

def csv_find_unquoted_field_end_simde (p : ℕ) : Option ℕ :=
  scan_vectors data limit special_step some (csv_find_unquoted_field_end_scalar data limit)
    (limit - p + 1) p

variable {data limit} {p : ℕ}

theorem special_mask_eq {v : M128i} (hv : v.length = 16) :
    movemask_epi8 (special v) = mask isSpecial v := by
  have hspecial : isSpecial = fun c => (c == nul || c == comma) ||
      ((c == doubleQuote || c == cr) || c == lf) := by
    funext c
    simp only [isSpecial, Bool.or_assoc]
  rw [special, setzero_si128, cmpeq_set1 hv, cmpeq_set1 hv, cmpeq_set1 hv, cmpeq_set1 hv,
    cmpeq_set1 hv, or_lanes, or_lanes, or_lanes, or_lanes, mask, hspecial]
  rfl

theorem special_step_eq (v : M128i) (q : ℕ) (hv : v.length = 16) :
    special_step v q = some ((v.findIdx? isSpecial).map (q + ·)) := by
  rw [special_step, special_mask_eq hv, zeros_step_mask hv]

theorem scalar_eq (hl : limit ≤ data.length) (hp : p ≤ limit) :
    csv_find_unquoted_field_end_scalar data limit p = search data limit isSpecial some limit p :=
  scan_bytes_position hl hp

/-- Both searches end at the first special byte, or at the limit, and load nothing behind it. -/
theorem delimiter_search (hl : limit ≤ data.length) (hp : p ≤ limit) :
    csv_find_unquoted_field_end_simde data limit p =
      csv_find_unquoted_field_end_scalar data limit p ∧
    ∃ q, csv_find_unquoted_field_end_scalar data limit p = some q ∧ p ≤ q ∧ q ≤ limit ∧
      (∀ i, p ≤ i → i < q → ∃ c, data[i]? = some c ∧ isSpecial c = false) ∧
      (q < limit → ∃ c, data[q]? = some c ∧ isSpecial c = true) := by
  rw [csv_find_unquoted_field_end_simde, scan_vectors_eq hl special_step_eq
    (fun q hq => scalar_eq hl hq) hp (by omega), scalar_eq hl hp]
  exact ⟨rfl, search_position hl hp⟩

/-- Twenty plain bytes in front of a comma, and a byte behind the limit. -/
theorem delimiter_search_twenty :
    csv_find_unquoted_field_end_simde (List.replicate 20 97 ++ [44, 98]) 21 0 =
      csv_find_unquoted_field_end_scalar (List.replicate 20 97 ++ [44, 98]) 21 0 :=
  (delimiter_search (by decide) (by decide)).1

end SaltsUtils.Csv.Vectors
