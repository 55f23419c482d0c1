import SaltsUtils.Library.Utf8

/-!
# String literals in the style of JSON

Between its quotes a literal spells bytes: a plain byte spells itself, an escape
letter the character of the table, four hexadecimal digits a code point, and two
such groups that form a surrogate pair one code point beyond `0xffff`. A literal
spells at most one string of bytes, and UTF-8 spells UTF-8.
-/

set_option autoImplicit false

namespace SaltsUtils.JsonText

def digit (ch : ℕ) : Option ℕ :=
  if 48 ≤ ch ∧ ch ≤ 57 then some (ch - 48)
  else if 97 ≤ ch ∧ ch ≤ 102 then some (ch - 97 + 10)
  else if 65 ≤ ch ∧ ch ≤ 70 then some (ch - 65 + 10)
  else none

/-- The code unit of four hexadecimal digits. -/
def codeUnit (a b c d : ℕ) : Option ℕ := do
  let w ← digit a
  let x ← digit b
  let y ← digit c
  let z ← digit d
  return ((w * 16 + x) * 16 + y) * 16 + z

/-- The escape letters with the characters they stand for. -/
def escapes : List (ℕ × ℕ) :=
  [(34, 34), (92, 92), (47, 47), (98, 8), (102, 12), (110, 10), (114, 13), (116, 9)]

def Plain (ch : ℕ) : Prop := ch ≠ 34 ∧ ch ≠ 92 ∧ 0x20 ≤ ch

inductive Decodes : List ℕ → List ℕ → Prop where
  | nil : Decodes [] []
  | plain {ch : ℕ} {body s : List ℕ} (hch : Plain ch) (h : Decodes body s) :
      Decodes (ch :: body) (ch :: s)
  | escape {letter ch : ℕ} {body s : List ℕ} (hch : (letter, ch) ∈ escapes)
      (h : Decodes body s) : Decodes (92 :: letter :: body) (ch :: s)
  | point {a b c d u : ℕ} {body s : List ℕ} (hu : codeUnit a b c d = some u)
      (hs : Utf8.Scalar u) (h : Decodes body s) :
      Decodes (92 :: 117 :: a :: b :: c :: d :: body) (Utf8.encode u ++ s)
  | pair {a b c d a' b' c' d' u v : ℕ} {body s : List ℕ} (hu : codeUnit a b c d = some u)
      (hv : codeUnit a' b' c' d' = some v) (hhigh : 0xd800 ≤ u ∧ u ≤ 0xdbff)
      (hlow : 0xdc00 ≤ v ∧ v ≤ 0xdfff) (h : Decodes body s) :
      Decodes (92 :: 117 :: a :: b :: c :: d :: 92 :: 117 :: a' :: b' :: c' :: d' :: body)
        (Utf8.encode (0x10000 + (u - 0xd800) * 0x400 + (v - 0xdc00)) ++ s)

theorem escapes_letter {letter ch : ℕ} (h : (letter, ch) ∈ escapes) :
    letter < 128 ∧ ch < 128 ∧ letter ≠ 117 := by
  simp only [escapes, List.mem_cons, Prod.mk.injEq, List.not_mem_nil, or_false] at h
  omega

theorem escapes_unique {letter ch ch' : ℕ} (h : (letter, ch) ∈ escapes)
    (h' : (letter, ch') ∈ escapes) : ch = ch' := by
  simp only [escapes, List.mem_cons, Prod.mk.injEq, List.not_mem_nil, or_false] at h h'
  omega

theorem digit_bounds {ch x : ℕ} (h : digit ch = some x) : ch < 128 ∧ x < 16 := by
  unfold digit at h
  split_ifs at h <;> cases h <;> omega

theorem codeUnit_digits {a b c d u : ℕ} (h : codeUnit a b c d = some u) :
    a < 128 ∧ b < 128 ∧ c < 128 ∧ d < 128 := by
  simp only [codeUnit, Option.bind_eq_bind, Option.bind_eq_some_iff] at h
  obtain ⟨w, hw, x, hx, y, hy, z, hz, -⟩ := h
  exact ⟨(digit_bounds hw).1, (digit_bounds hx).1, (digit_bounds hy).1, (digit_bounds hz).1⟩

theorem pair_scalar {u v : ℕ} (hhigh : 0xd800 ≤ u ∧ u ≤ 0xdbff) (hlow : 0xdc00 ≤ v ∧ v ≤ 0xdfff) :
    Utf8.Scalar (0x10000 + (u - 0xd800) * 0x400 + (v - 0xdc00)) := by
  unfold Utf8.Scalar
  omega

theorem Decodes.unique {body s s' : List ℕ} (h : Decodes body s) (h' : Decodes body s') :
    s = s' := by
  induction h generalizing s' with
  | nil =>
    cases h'
    rfl
  | plain hch _ ih =>
    cases h' with
    | plain _ h' => rw [ih h']
    | escape _ _ => exact absurd rfl hch.2.1
    | point _ _ _ => exact absurd rfl hch.2.1
    | pair _ _ _ _ _ => exact absurd rfl hch.2.1
  | escape hch _ ih =>
    cases h' with
    | plain hch' _ => exact absurd rfl hch'.2.1
    | escape hch' h' => rw [escapes_unique hch hch', ih h']
    | point _ _ _ => exact absurd rfl (escapes_letter hch).2.2
    | pair _ _ _ _ _ => exact absurd rfl (escapes_letter hch).2.2
  | point hu hs _ ih =>
    cases h' with
    | plain hch' _ => exact absurd rfl hch'.2.1
    | escape hch' _ => exact absurd rfl (escapes_letter hch').2.2
    | point hu' _ h' =>
      rw [Option.some.inj (hu.symm.trans hu'), ih h']
    | pair hu' _ hhigh _ _ =>
      have := Option.some.inj (hu.symm.trans hu')
      unfold Utf8.Scalar at hs
      omega
  | pair hu hv hhigh hlow _ ih =>
    cases h' with
    | plain hch' _ => exact absurd rfl hch'.2.1
    | escape hch' _ => exact absurd rfl (escapes_letter hch').2.2
    | point hu' hs _ =>
      have := Option.some.inj (hu.symm.trans hu')
      unfold Utf8.Scalar at hs
      omega
    | pair hu' hv' _ _ h' =>
      rw [Option.some.inj (hu.symm.trans hu'), Option.some.inj (hv.symm.trans hv'), ih h']

/-- Bytes from `0x80` on stand for themselves. -/
theorem Decodes.high {high body s : List ℕ} (hh : ∀ ch ∈ high, 128 ≤ ch)
    (h : Decodes (high ++ body) s) : ∃ s', Decodes body s' ∧ s = high ++ s' := by
  induction high generalizing s with
  | nil => exact ⟨s, h, rfl⟩
  | cons ch high ih =>
    have hch := hh ch List.mem_cons_self
    rw [List.cons_append] at h
    generalize hb : ch :: (high ++ body) = b at h
    cases h with
    | nil => cases hb
    | plain _ h =>
      obtain ⟨rfl, rfl⟩ := List.cons.inj hb
      obtain ⟨s', hs', rfl⟩ := ih (fun d hd => hh d (List.mem_cons_of_mem ch hd)) h
      exact ⟨s', hs', rfl⟩
    | escape _ _ =>
      have := (List.cons.inj hb).1
      omega
    | point _ _ _ =>
      have := (List.cons.inj hb).1
      omega
    | pair _ _ _ _ _ =>
      have := (List.cons.inj hb).1
      omega

/-- A literal of UTF-8 spells UTF-8. -/
theorem Decodes.valid {body s : List ℕ} (h : Decodes body s) (hv : Utf8.Valid body) :
    Utf8.Valid s := by
  generalize hn : body.length = n
  induction n using Nat.strongRecOn generalizing body s with
  | _ n ih =>
    subst hn
    cases h with
    | nil => exact .nil
    | @plain ch body s hch h =>
      by_cases hlow : ch < 128
      · exact .ascii_cons hlow (ih _ (by simp) h (hv.of_ascii_cons hlow) rfl)
      · obtain ⟨cp, tail, hcp, hge, he, ht⟩ := hv.high_head (by omega)
        have hd : Decodes (Utf8.encode cp ++ tail) (ch :: s) := he ▸ .plain hch h
        obtain ⟨s', hs', hse⟩ := hd.high (Utf8.encode_high hge)
        have hl : 0 < (Utf8.encode cp).length := List.length_pos_iff.mpr (Utf8.encode_ne_nil cp)
        rw [hse]
        refine .cons hcp (ih tail.length ?_ hs' ht rfl)
        rw [he, List.length_append]
        omega
    | @escape letter ch body s hch h =>
      have hl := escapes_letter hch
      have hbody : Utf8.Valid body := (hv.of_ascii_cons (by decide)).of_ascii_cons hl.1
      refine .ascii_cons hl.2.1 (ih _ ?_ h hbody rfl)
      simp only [List.length_cons]
      omega
    | @point a b c d u body s hu hs h =>
      obtain ⟨ha, hb, hc, hd⟩ := codeUnit_digits hu
      have hbody : Utf8.Valid body :=
        (((((hv.of_ascii_cons (by decide)).of_ascii_cons (by decide)).of_ascii_cons ha).of_ascii_cons
          hb).of_ascii_cons hc).of_ascii_cons hd
      refine .cons hs (ih _ ?_ h hbody rfl)
      simp only [List.length_cons]
      omega
    | @pair a b c d a' b' c' d' u v body s hu hv' hhigh hlow h =>
      obtain ⟨ha, hb, hc, hd⟩ := codeUnit_digits hu
      obtain ⟨ha', hb', hc', hd'⟩ := codeUnit_digits hv'
      have hrest := (((((hv.of_ascii_cons (by decide)).of_ascii_cons (by decide)).of_ascii_cons
        ha).of_ascii_cons hb).of_ascii_cons hc).of_ascii_cons hd
      have hbody : Utf8.Valid body :=
        (((((hrest.of_ascii_cons (by decide)).of_ascii_cons (by decide)).of_ascii_cons
          ha').of_ascii_cons hb').of_ascii_cons hc').of_ascii_cons hd'
      refine .cons (pair_scalar hhigh hlow) (ih _ ?_ h hbody rfl)
      simp only [List.length_cons]
      omega

end SaltsUtils.JsonText
