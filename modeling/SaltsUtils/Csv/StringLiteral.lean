import SaltsUtils.Csv.StreamProcessor

/-!
# String literals of filters

The literal of `src/parser/csv_parser/src/dsv_filter.c` and its twin in
`csv_stream_processor.c`.
-/

set_option autoImplicit false

namespace SaltsUtils.Csv

/-- The value, what is left and the last byte that was read, `last` being the one before. -/
def literal_loop (last : UInt8) : Bytes → Bytes × Bytes × UInt8
  | [] => ([], [], last)
  | 34 :: rest => ([], rest, 34)
  | 92 :: esc :: rest =>
    let read := literal_loop esc rest
    if esc = 34 ∨ esc = 92 then (esc :: read.1, read.2) else (92 :: esc :: read.1, read.2)
  | ch :: rest =>
    let read := literal_loop ch rest
    (ch :: read.1, read.2)

def read_literal : Bytes → Option (Bytes × Bytes)
  | 34 :: text =>
    let read := literal_loop 34 text
    if read.2.2 = 34 then some (read.1, read.2.1) else none
  | _ => none

def parse_string_lit (text : Bytes) : Option (Bytes × Bytes) := read_literal text

theorem literal_body_eq (last : UInt8) (text : Bytes) :
    literal_body last text = literal_loop last text := by
  induction last, text using literal_loop.induct with
  | case1 last => rfl
  | case2 last rest => rfl
  | case3 last esc rest hc ih =>
    rw [literal_body, literal_loop, ih, if_pos hc]
    simp [hc]
  | case4 last esc rest hc ih =>
    rw [literal_body, literal_loop, ih, if_neg hc]
    simp [hc]
  | case5 last ch rest hq hb ih =>
    rw [literal_body, literal_loop, ih, if_neg hq]
    · exact hq
    · exact hb
    · exact hb

theorem parse_string_literal_eq (text : Bytes) :
    parse_string_literal (34 :: text) = parse_string_lit (34 :: text) := by
  rw [parse_string_literal, parse_string_lit, read_literal, List.drop_one, List.tail_cons,
    literal_body_eq]

/-- What is written between the quotes, and its value. -/
inductive Spelled : Bytes → Bytes → Prop
  | nil : Spelled [] []
  | plain {c : UInt8} {body value : Bytes} (hq : c ≠ 34) (hb : c ≠ 92) (h : Spelled body value) :
      Spelled (c :: body) (c :: value)
  | bare {c : UInt8} {body value : Bytes} (hc : c = 34 ∨ c = 92) (h : Spelled body value) :
      Spelled (92 :: c :: body) (c :: value)
  | pair {c : UInt8} {body value : Bytes} (hc : ¬ (c = 34 ∨ c = 92)) (h : Spelled body value) :
      Spelled (92 :: c :: body) (92 :: c :: value)

def Closed (text : Bytes) : Prop :=
  ∃ body value rest, text = body ++ 34 :: rest ∧ Spelled body value

def escape (text : Bytes) : Bytes :=
  text.flatMap fun c => if c = 34 ∨ c = 92 then [92, c] else [c]

theorem escape_spelled (text : Bytes) : Spelled (escape text) text := by
  induction text with
  | nil => exact .nil
  | cons c text ih =>
    rw [escape, List.flatMap_cons]
    by_cases hc : c = 34 ∨ c = 92
    · rw [if_pos hc]
      exact .bare hc ih
    · rw [if_neg hc]
      rw [not_or] at hc
      exact .plain hc.1 hc.2 ih

theorem literal_loop_plain {c last : UInt8} {rest : Bytes} (hq : c ≠ 34) (hb : c ≠ 92) :
    literal_loop last (c :: rest) =
      (c :: (literal_loop c rest).1, (literal_loop c rest).2) := by
  rw [literal_loop]
  · exact hq
  · intro esc rest' h
    exact absurd h hb

theorem literal_loop_closed {body value : Bytes} (h : Spelled body value) (last : UInt8)
    (rest : Bytes) : literal_loop last (body ++ 34 :: rest) = (value, rest, 34) := by
  induction h generalizing last with
  | nil => rw [List.nil_append, literal_loop]
  | plain hq hb h ih => rw [List.cons_append, literal_loop_plain hq hb, ih]
  | bare hc h ih => rw [List.cons_append, List.cons_append, literal_loop, if_pos hc, ih]
  | pair hc h ih => rw [List.cons_append, List.cons_append, literal_loop, if_neg hc, ih]

theorem not_closed_nil : ¬ Closed [] := by
  rintro ⟨body, value, rest, h, -⟩
  exact List.append_ne_nil_of_right_ne_nil body (List.cons_ne_nil _ _) h.symm

theorem closed_pair {c : UInt8} {text : Bytes} (h : Closed text) : Closed (92 :: c :: text) := by
  obtain ⟨body, value, rest, rfl, hs⟩ := h
  by_cases hc : c = 34 ∨ c = 92
  · exact ⟨92 :: c :: body, c :: value, rest, rfl, .bare hc hs⟩
  · exact ⟨92 :: c :: body, 92 :: c :: value, rest, rfl, .pair hc hs⟩

theorem literal_loop_open {text : Bytes} (h : ¬ Closed text) (last : UInt8) :
    (literal_loop last text).2 = ([], (last :: text).getLast (List.cons_ne_nil _ _)) := by
  fun_induction literal_loop last text with
  | case1 last => rfl
  | case2 last rest => exact absurd ⟨[], [], rest, rfl, .nil⟩ h
  | case3 last esc rest read hc ih => exact ih fun hr => h (closed_pair hr)
  | case4 last esc rest read hc ih => exact ih fun hr => h (closed_pair hr)
  | case5 last ch rest hq hb read ih =>
    refine ih fun hr => ?_
    by_cases hch : ch = 92
    · cases rest with
      | nil => exact not_closed_nil hr
      | cons esc rest => exact hb esc rest hch rfl
    · obtain ⟨body, value, rest', rfl, hs⟩ := hr
      exact h ⟨ch :: body, ch :: value, rest', rfl, .plain hq hch hs⟩

/-- A literal is read for what is between its quotes, unless no quote closes it and the text
ends with one that is escaped or opens it. What is quoted and escaped is always read back,
and the two parsers are the same. -/
theorem parse_string_lit_reads (text : Bytes) :
    ((∀ value rest, parse_string_lit (34 :: text) = some (value, rest) ↔
        ∃ body, text = body ++ 34 :: rest ∧ Spelled body value) ↔
      Closed text ∨ (34 :: text).getLast (List.cons_ne_nil _ _) ≠ 34) ∧
    (∀ s rest, parse_string_lit (34 :: (escape s ++ 34 :: rest)) = some (s, rest)) ∧
    ∀ s, parse_string_literal (34 :: s) = parse_string_lit (34 :: s) := by
  have hclosed : ∀ {body value rest}, Spelled body value →
      parse_string_lit (34 :: (body ++ 34 :: rest)) = some (value, rest) := by
    intro body value rest hs
    rw [parse_string_lit, read_literal, literal_loop_closed hs]
    rfl
  refine ⟨?_, fun s rest => hclosed (escape_spelled s), parse_string_literal_eq⟩
  by_cases hc : Closed text
  · refine iff_of_true (fun value rest => ?_) (.inl hc)
    obtain ⟨body, value', rest', rfl, hs⟩ := hc
    rw [hclosed hs]
    constructor
    · intro h
      cases h
      exact ⟨body, rfl, hs⟩
    · rintro ⟨body', hbody, hs'⟩
      rw [← hclosed hs, hbody, hclosed hs']
  · have hopen := literal_loop_open hc 34
    have hnot : ∀ value rest, ¬ ∃ body, text = body ++ 34 :: rest ∧ Spelled body value :=
      fun value rest ⟨body, hbody, hs⟩ => hc ⟨body, value, rest, hbody, hs⟩
    rw [parse_string_lit, read_literal, hopen]
    by_cases hlast : (34 :: text).getLast (List.cons_ne_nil _ _) = 34
    · refine iff_of_false (fun h => ?_) (by simp [hc, hlast])
      exact hnot _ _ ((h (literal_loop 34 text).1 []).mp (if_pos hlast))
    · refine iff_of_true (fun value rest => iff_of_false ?_ (hnot value rest)) (.inr hlast)
      rw [if_neg hlast]
      exact nofun

/-- The quote of an escape ends the literal when the text ends with it. -/
theorem parse_string_lit_unclosed :
    ¬ ∀ text value rest, parse_string_lit (34 :: text) = some (value, rest) ↔
      ∃ body, text = body ++ 34 :: rest ∧ Spelled body value := by
  intro h
  obtain ⟨body, hbody, hs⟩ := (h [97, 92, 34] [97, 34] []).mp (by decide +kernel)
  obtain rfl : [97, 92] = body := List.append_cancel_right hbody
  cases hs with
  | plain hq hb hs => cases hs

end SaltsUtils.Csv
