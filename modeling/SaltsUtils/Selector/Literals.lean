import SaltsUtils.Library.JsonText
import SaltsUtils.Selector.Tokens

/-!
# Selector string literals

The compiler's loop over a string token finds the string that the literal spells in JSON's
style.
-/

set_option autoImplicit false

namespace SaltsUtils.Selector

open SaltsUtils JsonText

def selector_hex_value (ch : ℕ) : ℕ :=
  if 48 ≤ ch ∧ ch ≤ 57 then ch - 48
  else if 97 ≤ ch ∧ ch ≤ 102 then ch - 97 + 10
  else if 65 ≤ ch ∧ ch ≤ 70 then ch - 65 + 10
  else 2 ^ 32 - 1

def selector_hex_quad (value : Bytes) : ℕ :=
  value.foldl (fun result ch => (result * 16 + selector_hex_value ch) % 2 ^ 32) 0

def escaped_char (escaped : ℕ) : Option ℕ :=
  if escaped = 34 then some 34
  else if escaped = 92 then some 92
  else if escaped = 47 then some 47
  else if escaped = 98 then some 8
  else if escaped = 102 then some 12
  else if escaped = 110 then some 10
  else if escaped = 114 then some 13
  else if escaped = 116 then some 9
  else none

/-- The decoding loop, over the token behind its opening quote; the closing quote is the last byte
and is not read. -/
def store_string_loop : Bytes → Bytes → Option Bytes
  | [], decoded => some decoded
  | ch :: rest, decoded =>
    match rest with
    | [] => some decoded
    | escaped :: tail =>
      if ch = 92 then
        if escaped = 117 then
          match tail with
          | a :: b :: c :: d :: tail =>
            let codepoint := selector_hex_quad [a, b, c, d]
            if tail = [] then none
            else if 0xd800 ≤ codepoint ∧ codepoint ≤ 0xdbff then
              match tail with
              | e :: f :: a :: b :: c :: d :: tail =>
                let low := selector_hex_quad [a, b, c, d]
                let utf8 := selector_utf8_encode
                  (0x10000 + (codepoint - 0xd800) <<< 10 + (low - 0xdc00))
                if tail = [] ∨ e ≠ 92 ∨ f ≠ 117 then none
                else if low < 0xdc00 ∨ 0xdfff < low then none
                else if max_string_bytes + 1 < decoded.length + utf8.length then none
                else store_string_loop tail (decoded ++ utf8)
              | _ => none
            else if 0xdc00 ≤ codepoint ∧ codepoint ≤ 0xdfff then none
            else
              let utf8 := selector_utf8_encode codepoint
              if max_string_bytes + 1 < decoded.length + utf8.length then none
              else store_string_loop tail (decoded ++ utf8)
          | _ => none
        else
          match escaped_char escaped with
          | none => none
          | some ch =>
            if max_string_bytes ≤ decoded.length then none
            else store_string_loop tail (decoded ++ [ch])
      else if max_string_bytes ≤ decoded.length then none
      else store_string_loop (escaped :: tail) (decoded ++ [ch])

example : store_string_loop [34] [] = some [] := by rw [store_string_loop.eq_def]

def decoded_string (value : Bytes) : Option Bytes :=
  if value.length < 2 ∨ value.head? ≠ some 34 ∨ value.getLast? ≠ some 34 then none
  else store_string_loop value.tail []

variable {ch : ℕ}

theorem escaped_char_eq {letter : ℕ} : escaped_char letter = some ch ↔ (letter, ch) ∈ escapes := by
  simp only [escapes, List.mem_cons, Prod.mk.injEq, List.not_mem_nil, or_false]
  unfold escaped_char
  split_ifs <;> simp only [Option.some.injEq, false_iff] <;> omega

theorem hex_value_digit (h : hex_digit ch = true) : digit ch = some (selector_hex_value ch) := by
  simp only [hex_digit, Bool.or_eq_true, Bool.and_eq_true, decide_eq_true_eq] at h
  unfold digit selector_hex_value
  split_ifs <;> first | rfl | omega

theorem digit_hex_value {x : ℕ} (h : digit ch = some x) :
    hex_digit ch = true ∧ selector_hex_value ch = x := by
  have hx : hex_digit ch = true := by
    unfold digit at h
    simp only [hex_digit, Bool.or_eq_true, Bool.and_eq_true, decide_eq_true_eq]
    split_ifs at h <;> omega
  exact ⟨hx, Option.some.inj ((hex_value_digit hx).symm.trans h)⟩

variable {a b c d : ℕ}

theorem hex_quad_eq {u : ℕ} (h : codeUnit a b c d = some u) :
    selector_hex_quad [a, b, c, d] = u ∧ u < 0x10000 := by
  simp only [codeUnit, Option.bind_eq_bind, Option.bind_eq_some_iff, Option.pure_def,
    Option.some.injEq] at h
  obtain ⟨w, hw, x, hx, y, hy, z, hz, rfl⟩ := h
  have hw' := (digit_bounds hw).2
  have hx' := (digit_bounds hx).2
  have hy' := (digit_bounds hy).2
  have hz' := (digit_bounds hz).2
  simp only [selector_hex_quad, List.foldl_cons, List.foldl_nil, (digit_hex_value hw).2,
    (digit_hex_value hx).2, (digit_hex_value hy).2, (digit_hex_value hz).2]
  omega

theorem hex_quad_unit (h : ∀ x ∈ [a, b, c, d], hex_digit x = true) :
    codeUnit a b c d = some (selector_hex_quad [a, b, c, d]) := by
  simp only [List.mem_cons, List.not_mem_nil, or_false, forall_eq_or_imp, forall_eq] at h
  have hu : ∃ u, codeUnit a b c d = some u := by
    simp [codeUnit, hex_value_digit h.1, hex_value_digit h.2.1, hex_value_digit h.2.2.1,
      hex_value_digit h.2.2.2]
  obtain ⟨u, hu⟩ := hu
  rw [hu, (hex_quad_eq hu).1]

theorem store_string_nil (decoded : Bytes) : store_string_loop [34] decoded = some decoded := rfl

theorem store_string_plain (hch : ch ≠ 92) (body decoded : Bytes) :
    store_string_loop (ch :: (body ++ [34])) decoded =
      if max_string_bytes ≤ decoded.length then none
      else store_string_loop (body ++ [34]) (decoded ++ [ch]) := by
  cases body with
  | nil =>
    rw [store_string_loop.eq_def]
    simp [hch]
  | cons c body =>
    rw [store_string_loop.eq_def]
    simp [hch]

theorem store_string_escape {letter : ℕ} (hl : letter ≠ 117) (body decoded : Bytes) :
    store_string_loop (92 :: letter :: (body ++ [34])) decoded =
      (escaped_char letter).bind fun ch =>
        if max_string_bytes ≤ decoded.length then none
        else store_string_loop (body ++ [34]) (decoded ++ [ch]) := by
  rw [store_string_loop.eq_def]
  simp only [↓reduceIte, if_neg hl]
  cases escaped_char letter <;> rfl

theorem store_string_point (body decoded : Bytes)
    (hs : ¬ (0xd800 ≤ selector_hex_quad [a, b, c, d] ∧ selector_hex_quad [a, b, c, d] ≤ 0xdfff)) :
    store_string_loop (92 :: 117 :: a :: b :: c :: d :: (body ++ [34])) decoded =
      let utf8 := selector_utf8_encode (selector_hex_quad [a, b, c, d])
      if max_string_bytes + 1 < decoded.length + utf8.length then none
      else store_string_loop (body ++ [34]) (decoded ++ utf8) := by
  rw [store_string_loop.eq_def]
  simp only [↓reduceIte]
  rw [if_neg (by simp), if_neg (by omega), if_neg (by omega)]

theorem store_string_high (body decoded : Bytes)
    (hs : 0xd800 ≤ selector_hex_quad [a, b, c, d] ∧ selector_hex_quad [a, b, c, d] ≤ 0xdbff) :
    store_string_loop (92 :: 117 :: a :: b :: c :: d :: (body ++ [34])) decoded =
      match body ++ [34] with
      | e :: f :: a' :: b' :: c' :: d' :: tail =>
        let low := selector_hex_quad [a', b', c', d']
        let utf8 := selector_utf8_encode
          (0x10000 + (selector_hex_quad [a, b, c, d] - 0xd800) <<< 10 + (low - 0xdc00))
        if tail = [] ∨ e ≠ 92 ∨ f ≠ 117 then none
        else if low < 0xdc00 ∨ 0xdfff < low then none
        else if max_string_bytes + 1 < decoded.length + utf8.length then none
        else store_string_loop tail (decoded ++ utf8)
      | _ => none := by
  rw [store_string_loop.eq_def]
  simp only [↓reduceIte]
  rw [if_neg (by simp), if_pos hs]
  rfl

theorem store_string_low (body decoded : Bytes)
    (hs : 0xdc00 ≤ selector_hex_quad [a, b, c, d] ∧ selector_hex_quad [a, b, c, d] ≤ 0xdfff) :
    store_string_loop (92 :: 117 :: a :: b :: c :: d :: (body ++ [34])) decoded = none := by
  rw [store_string_loop.eq_def]
  simp only [↓reduceIte]
  rw [if_neg (by simp), if_neg (by omega), if_pos hs]

variable {body : Bytes}

theorem literal_low {tail : Bytes} (hl : Literal body)
    (h : body ++ [34] = 92 :: 117 :: a :: b :: c :: d :: tail) :
    (∀ x ∈ [a, b, c, d], hex_digit x = true) ∧ ∃ body', Literal body' ∧ tail = body' ++ [34] ∧
      body = 92 :: 117 :: a :: b :: c :: d :: body' := by
  cases hl with
  | nil => simp at h
  | plain hch hl => exact absurd (List.cons.inj h).1 hch.2.1
  | escape hletter hl =>
    have he := (List.cons.inj (List.cons.inj h).2).1
    rw [he] at hletter
    exact absurd hletter (by decide)
  | point hx hl =>
    simp only [List.cons_append, List.cons.injEq, true_and] at h
    obtain ⟨rfl, rfl, rfl, rfl, h⟩ := h
    exact ⟨hx, _, hl, h.symm, rfl⟩

theorem store_string_sound {decoded out : Bytes} (hl : Literal body)
    (h : store_string_loop (body ++ [34]) decoded = some out) :
    ∃ s, Decodes body s ∧ out = decoded ++ s := by
  generalize hn : body.length = n
  induction n using Nat.strongRecOn generalizing body decoded with
  | _ n ih =>
    subst hn
    cases hl with
    | nil =>
      cases h
      exact ⟨[], .nil, by simp⟩
    | @plain ch body hch hl =>
      rw [List.cons_append, store_string_plain hch.2.1] at h
      split at h
      · cases h
      · obtain ⟨s, hs, rfl⟩ := ih _ (by simp) hl h rfl
        exact ⟨ch :: s, .plain hch hs, by simp⟩
    | @escape letter body hletter hl =>
      have hu : letter ≠ 117 := by
        intro he
        rw [he] at hletter
        exact absurd hletter (by decide)
      rw [List.cons_append, List.cons_append, store_string_escape hu] at h
      obtain ⟨ch, hch, h⟩ := Option.bind_eq_some_iff.mp h
      split at h
      · cases h
      · have hlt : body.length < (92 :: letter :: body).length := by
          simp only [List.length_cons]
          omega
        obtain ⟨s, hs, rfl⟩ := ih _ hlt hl h rfl
        exact ⟨ch :: s, .escape (escaped_char_eq.mp hch) hs, by simp⟩
    | @point a b c d body hx hl =>
      have hu := hex_quad_unit hx
      have hlt : body.length < (92 :: 117 :: a :: b :: c :: d :: body).length := by
        simp only [List.length_cons]
        omega
      have hbound := (hex_quad_eq hu).2
      by_cases hs : 0xd800 ≤ selector_hex_quad [a, b, c, d] ∧
          selector_hex_quad [a, b, c, d] ≤ 0xdfff
      · by_cases hhigh : selector_hex_quad [a, b, c, d] ≤ 0xdbff
        · simp only [List.cons_append] at h
          rw [store_string_high _ _ ⟨hs.1, hhigh⟩] at h
          split at h
          · next e f a' b' c' d' tail hbody =>
            dsimp only at h
            split at h
            · cases h
            next hshape =>
            split at h
            · cases h
            next hlow =>
            split at h
            · cases h
            simp only [not_or, ne_eq, not_not] at hshape
            obtain ⟨-, rfl, rfl⟩ := hshape
            obtain ⟨hx', body', hl', rfl, rfl⟩ := literal_low hl hbody
            have hv := hex_quad_unit hx'
            have hlt' : body'.length < (92 :: 117 :: a :: b :: c :: d ::
                92 :: 117 :: a' :: b' :: c' :: d' :: body').length := by
              simp only [List.length_cons]
              omega
            have hlow' : 0xdc00 ≤ selector_hex_quad [a', b', c', d'] ∧
                selector_hex_quad [a', b', c', d'] ≤ 0xdfff := by omega
            have hscalar := pair_scalar ⟨hs.1, hhigh⟩ hlow'
            obtain ⟨s, hd, rfl⟩ := ih _ hlt' hl' h rfl
            rw [Nat.shiftLeft_eq, selector_utf8_encode_eq hscalar.1, List.append_assoc]
            exact ⟨_, .pair hu hv ⟨hs.1, hhigh⟩ hlow' hd, rfl⟩
          · cases h
        · simp only [List.cons_append] at h
          rw [store_string_low _ _ ⟨by omega, hs.2⟩] at h
          cases h
      · simp only [List.cons_append] at h
        rw [store_string_point _ _ hs] at h
        dsimp only at h
        split at h
        · cases h
        · have hscalar : Utf8.Scalar (selector_hex_quad [a, b, c, d]) := ⟨by omega, hs⟩
          obtain ⟨s, hd, rfl⟩ := ih _ hlt hl h rfl
          rw [selector_utf8_encode_eq hscalar.1, List.append_assoc]
          exact ⟨_, .point hu hscalar hd, rfl⟩

variable {s : Bytes}

theorem store_string_complete (h : Decodes body s) (decoded : Bytes)
    (hlen : (decoded ++ s).length ≤ max_string_bytes) :
    store_string_loop (body ++ [34]) decoded = some (decoded ++ s) := by
  induction h generalizing decoded with
  | nil => rw [List.append_nil, List.nil_append, store_string_nil]
  | @plain ch body s hch h ih =>
    rw [List.length_append, List.length_cons] at hlen
    rw [List.cons_append, store_string_plain hch.2.1, if_neg (by omega), ih]
    · simp
    · simp only [List.length_append, List.length_cons, List.length_nil]
      omega
  | @escape letter ch body s hch h ih =>
    rw [List.length_append, List.length_cons] at hlen
    rw [List.cons_append, List.cons_append, store_string_escape (escapes_letter hch).2.2,
      escaped_char_eq.mpr hch, Option.bind_some, if_neg (by omega), ih]
    · simp
    · simp only [List.length_append, List.length_cons, List.length_nil]
      omega
  | @point a b c d u body s hu hs h ih =>
    have hq := (hex_quad_eq hu).1
    rw [List.length_append, List.length_append] at hlen
    have hs' := hs
    rw [← hq] at hs'
    simp only [List.cons_append]
    rw [store_string_point _ _ hs'.2, hq, selector_utf8_encode_eq hs.1]
    rw [if_neg (by omega), ih]
    · simp
    · simp only [List.length_append]
      omega
  | @pair a b c d a' b' c' d' u v body s hu hv hhigh hlow h ih =>
    have hq := (hex_quad_eq hu).1
    have hq' := (hex_quad_eq hv).1
    rw [List.length_append, List.length_append] at hlen
    have hscalar := pair_scalar hhigh hlow
    have hshift : (u - 0xd800) <<< 10 = (u - 0xd800) * 0x400 := Nat.shiftLeft_eq _ _
    have hhigh' : 0xd800 ≤ selector_hex_quad [a, b, c, d] ∧
        selector_hex_quad [a, b, c, d] ≤ 0xdbff := by omega
    change store_string_loop (92 :: 117 :: a :: b :: c :: d ::
      ((92 :: 117 :: a' :: b' :: c' :: d' :: body) ++ [34])) decoded = _
    rw [store_string_high _ _ hhigh']
    simp only [List.cons_append]
    rw [if_neg (by simp), hq', if_neg (by omega), hq, hshift, selector_utf8_encode_eq hscalar.1,
      if_neg (by omega), ih]
    · simp
    · simp only [List.length_append]
      omega

/-- What a string token means. -/
def Spelled (value s : Bytes) : Prop := ∃ body, value = 34 :: body ++ [34] ∧ Decodes body s

variable {value : Bytes}

theorem Spelled.unique {s' : Bytes} (h : Spelled value s) (h' : Spelled value s') : s = s' := by
  obtain ⟨body, rfl, hd⟩ := h
  obtain ⟨body', he, hd'⟩ := h'
  have hb : body = body' := by
    simpa using he
  subst hb
  exact hd.unique hd'

theorem literal_of_decodes (h : Decodes body s) : Literal body := by
  have hdigits : ∀ {a b c d u : ℕ}, codeUnit a b c d = some u →
      ∀ x ∈ [a, b, c, d], hex_digit x = true := by
    intro a b c d u hu
    simp only [codeUnit, Option.bind_eq_bind, Option.bind_eq_some_iff] at hu
    obtain ⟨w, hw, x, hx, y, hy, z, hz, -⟩ := hu
    simp [(digit_hex_value hw).1, (digit_hex_value hx).1, (digit_hex_value hy).1,
      (digit_hex_value hz).1]
  induction h with
  | nil => exact .nil
  | plain hch _ ih => exact .plain hch ih
  | @escape letter ch body s hch _ ih =>
    refine .escape ?_ ih
    simp only [escapes, List.mem_cons, Prod.mk.injEq, List.not_mem_nil, or_false] at hch
    simp only [escape_letter, Bool.or_eq_true, beq_iff_eq]
    omega
  | point hu _ _ ih => exact .point (hdigits hu) ih
  | pair hu hv _ _ _ ih => exact .point (hdigits hu) (.point (hdigits hv) ih)

theorem Spelled.text (h : Spelled value s) : StringText value := by
  obtain ⟨body, rfl, hd⟩ := h
  exact ⟨body, rfl, literal_of_decodes hd⟩

theorem decoded_string_sound (ht : StringText value) (h : decoded_string value = some s) :
    Spelled value s := by
  obtain ⟨body, rfl, hl⟩ := ht
  unfold decoded_string at h
  split at h
  · cases h
  · obtain ⟨s', hd, rfl⟩ := store_string_sound hl h
    exact ⟨body, rfl, hd⟩

theorem decoded_string_complete (h : Spelled value s) (hlen : s.length ≤ max_string_bytes) :
    decoded_string value = some s := by
  obtain ⟨body, rfl, hd⟩ := h
  have hc := store_string_complete hd [] hlen
  have hlast : (34 :: body ++ [34]).getLast? = some 34 := List.getLast?_concat
  unfold decoded_string
  rw [hlast, if_neg (by simp)]
  exact hc

theorem Spelled.valid (h : Spelled value s) (hv : Utf8.Valid value) : Utf8.Valid s := by
  obtain ⟨body, rfl, hd⟩ := h
  have hbody := (hv.of_ascii_cons (by decide)).of_append_singleton (by decide)
  exact hd.valid hbody

def hex_letter (n : ℕ) : ℕ := if n < 10 then 48 + n else 97 + (n - 10)

def writer_byte (ch : ℕ) : Bytes :=
  if ch = 34 then [92, 34]
  else if ch = 92 then [92, 92]
  else if ch = 8 then [92, 98]
  else if ch = 12 then [92, 102]
  else if ch = 10 then [92, 110]
  else if ch = 13 then [92, 114]
  else if ch = 9 then [92, 116]
  else if ch < 0x20 then [92, 117, 48, 48, hex_letter (ch >>> 4), hex_letter (ch &&& 0x0f)]
  else [ch]

def selector_writer_string (s : Bytes) : Bytes :=
  [34] ++ s.flatMap writer_byte ++ [34]

theorem writer_control : ∀ ch < 32, codeUnit 48 48 (hex_letter (ch >>> 4))
    (hex_letter (ch &&& 0x0f)) = some ch := by
  decide

theorem writer_control_digits : ∀ ch < 32,
    ∀ x ∈ [48, 48, hex_letter (ch >>> 4), hex_letter (ch &&& 0x0f)], hex_digit x = true := by
  decide

theorem writer_low : ∀ ch < 128, ∀ b ∈ writer_byte ch, 32 ≤ b ∧ b < 128 := by
  decide +kernel

theorem writer_high (h : 128 ≤ ch) : writer_byte ch = [ch] := by
  unfold writer_byte
  split_ifs <;> first | omega | rfl

theorem writer_high_all {l : Bytes} (h : ∀ b ∈ l, 128 ≤ b) : l.flatMap writer_byte = l := by
  induction l with
  | nil => rfl
  | cons c l ih =>
    rw [List.flatMap_cons, writer_high (h c List.mem_cons_self),
      ih fun d hd => h d (List.mem_cons_of_mem c hd)]
    rfl

theorem writer_byte_length (ch : ℕ) : (writer_byte ch).length ≤ 6 := by
  unfold writer_byte
  split_ifs <;> simp

theorem writer_byte_decodes (ch : ℕ) (h : Decodes body s) :
    Decodes (writer_byte ch ++ body) (ch :: s) := by
  unfold writer_byte
  split_ifs with h₁ h₂ h₃ h₄ h₅ h₆ h₇ h₈
  iterate 7
    · subst ch
      exact .escape (by decide) h
  · have hd := Decodes.point (writer_control ch h₈) (Utf8.scalar_ascii (by omega)) h
    rw [Utf8.encode_ascii (by omega)] at hd
    exact hd
  · exact .plain ⟨h₁, h₂, by omega⟩ h

theorem writer_byte_literal (ch : ℕ) (h : Literal body) : Literal (writer_byte ch ++ body) := by
  unfold writer_byte
  split_ifs with h₁ h₂ h₃ h₄ h₅ h₆ h₇ h₈
  iterate 7 exact .escape (by decide) h
  · exact .point (writer_control_digits ch h₈) h
  · exact .plain ⟨h₁, h₂, by omega⟩ h

theorem writer_body (s : Bytes) :
    Decodes (s.flatMap writer_byte) s ∧ Literal (s.flatMap writer_byte) := by
  induction s with
  | nil => exact ⟨.nil, .nil⟩
  | cons ch s ih =>
    rw [List.flatMap_cons]
    exact ⟨writer_byte_decodes ch ih.1, writer_byte_literal ch ih.2⟩

theorem writer_spelled (s : Bytes) : Spelled (selector_writer_string s) s :=
  ⟨s.flatMap writer_byte, rfl, (writer_body s).1⟩

theorem writer_text (s : Bytes) : StringText (selector_writer_string s) :=
  ⟨s.flatMap writer_byte, rfl, (writer_body s).2⟩

theorem writer_body_valid (h : Utf8.Valid s) : Utf8.Valid (s.flatMap writer_byte) := by
  induction h with
  | nil => exact .nil
  | @cons cp rest hcp h ih =>
    rw [List.flatMap_append]
    by_cases hlow : cp < 128
    · rw [Utf8.encode_ascii hlow]
      refine .append (.ascii fun b hb => ?_) ih
      rw [List.flatMap_singleton] at hb
      exact (writer_low cp hlow b hb).2
    · rw [writer_high_all (Utf8.encode_high (by omega))]
      exact .cons hcp ih

theorem writer_string_valid (h : Utf8.Valid s) : Utf8.Valid (selector_writer_string s) :=
  ((Utf8.Valid.ascii (by decide)).append (writer_body_valid h)).append (.ascii (by decide))

theorem writer_string_nonzero (s : Bytes) : 0 ∉ selector_writer_string s := by
  simp only [selector_writer_string, List.mem_append, List.mem_flatMap, not_or, not_exists, not_and]
  refine ⟨⟨by decide, ?_⟩, by decide⟩
  intro ch _ h
  by_cases hlow : ch < 128
  · have := writer_low ch hlow 0 h
    omega
  · rw [writer_high (by omega)] at h
    have := List.mem_singleton.mp h
    omega

theorem writer_string_length (s : Bytes) : (selector_writer_string s).length ≤ 6 * s.length + 2 := by
  have hbody : (s.flatMap writer_byte).length ≤ 6 * s.length := by
    induction s with
    | nil => simp
    | cons ch s ih =>
      have := writer_byte_length ch
      rw [List.flatMap_cons, List.length_append, List.length_cons]
      omega
  simp only [selector_writer_string, List.length_append, List.length_cons, List.length_nil]
  omega

end SaltsUtils.Selector
