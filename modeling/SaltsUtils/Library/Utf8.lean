import Mathlib.Data.List.Basic

/-!
# UTF-8 text

A text is a list of bytes that spells Unicode scalar values one after another.
-/

set_option autoImplicit false

namespace SaltsUtils.Utf8

def encode (cp : ℕ) : List ℕ :=
  if cp ≤ 0x7f then [cp]
  else if cp ≤ 0x7ff then [0xc0 + cp / 64, 0x80 + cp % 64]
  else if cp ≤ 0xffff then [0xe0 + cp / 4096, 0x80 + cp / 64 % 64, 0x80 + cp % 64]
  else [0xf0 + cp / 262144, 0x80 + cp / 4096 % 64, 0x80 + cp / 64 % 64, 0x80 + cp % 64]

def Scalar (cp : ℕ) : Prop := cp < 0x110000 ∧ ¬ (0xd800 ≤ cp ∧ cp ≤ 0xdfff)

instance (cp : ℕ) : Decidable (Scalar cp) := inferInstanceAs (Decidable (_ ∧ _))

inductive Valid : List ℕ → Prop where
  | nil : Valid []
  | cons {cp : ℕ} {rest : List ℕ} (hcp : Scalar cp) (h : Valid rest) : Valid (encode cp ++ rest)

variable {cp : ℕ}

theorem encode_ascii (h : cp < 128) : encode cp = [cp] := by
  simp only [encode, if_pos (show cp ≤ 0x7f by omega)]

theorem encode_ne_nil (cp : ℕ) : encode cp ≠ [] := by
  unfold encode
  split_ifs <;> simp

theorem encode_high (h : 128 ≤ cp) : ∀ b ∈ encode cp, 128 ≤ b := by
  intro b hb
  unfold encode at hb
  rw [if_neg (by omega)] at hb
  split_ifs at hb <;> simp only [List.mem_cons, List.not_mem_nil, or_false] at hb <;> omega

variable {c : ℕ}

theorem encode_of_mem (hc : c ∈ encode cp) (h : c < 128) : encode cp = [c] := by
  by_cases hcp : cp < 128
  · rw [encode_ascii hcp] at hc ⊢
    rw [List.mem_singleton.mp hc]
  · have := encode_high (by omega : 128 ≤ cp) c hc
    omega

theorem scalar_ascii (h : c < 128) : Scalar c := by
  unfold Scalar
  omega

namespace Valid

variable {rest : List ℕ}

theorem ascii_cons (hc : c < 128) (h : Valid rest) : Valid (c :: rest) := by
  have := Valid.cons (scalar_ascii hc) h
  rwa [encode_ascii hc] at this

theorem ascii {l : List ℕ} (h : ∀ c ∈ l, c < 128) : Valid l := by
  induction l with
  | nil => exact .nil
  | cons c l ih =>
    exact ascii_cons (h c List.mem_cons_self) (ih fun d hd => h d (List.mem_cons_of_mem c hd))

theorem append {a b : List ℕ} (ha : Valid a) (hb : Valid b) : Valid (a ++ b) := by
  induction ha with
  | nil => exact hb
  | cons hcp _ ih =>
    rw [List.append_assoc]
    exact .cons hcp ih

/-- A text may be cut at a byte below `0x80`, which no longer sequence holds. -/
theorem split {a b : List ℕ} {c : ℕ} (h : Valid (a ++ c :: b)) (hc : c < 128) :
    Valid a ∧ Valid b := by
  generalize ht : a ++ c :: b = t at h
  induction h generalizing a with
  | nil => simp at ht
  | @cons cp rest hcp h ih =>
    rcases List.append_eq_append_iff.mp ht with ⟨m, hm, hr⟩ | ⟨m, hm, hr⟩
    · cases m with
      | nil =>
        rw [List.append_nil] at hm
        have h' := @ih [] (by simpa using hr)
        refine ⟨?_, h'.2⟩
        rw [← hm, ← List.append_nil (encode cp)]
        exact .cons hcp .nil
      | cons d m =>
        obtain ⟨rfl, hb⟩ := List.cons.inj hr
        have hmem : c ∈ encode cp := by
          rw [hm]
          simp
        have he := encode_of_mem hmem hc
        rw [he] at hm
        have hl := congrArg List.length hm
        simp only [List.length_append, List.length_cons, List.length_nil] at hl
        have ha : a = [] := List.length_eq_zero_iff.mp (by omega)
        have hm' : m = [] := List.length_eq_zero_iff.mp (by omega)
        subst ha hm'
        have hb : b = rest := hb
        exact ⟨.nil, hb ▸ h⟩
    · have h' := ih hr.symm
      rw [hm]
      exact ⟨.cons hcp h'.1, h'.2⟩

theorem of_ascii_cons (h : Valid (c :: rest)) (hc : c < 128) : Valid rest :=
  (@split [] rest c h hc).2

theorem of_append_singleton {a : List ℕ} (h : Valid (a ++ [c])) (hc : c < 128) : Valid a :=
  (h.split hc).1

/-- The first sequence of a text that starts with a byte from `0x80` on. -/
theorem high_head (h : Valid (c :: rest)) (hc : 128 ≤ c) :
    ∃ cp tail, Scalar cp ∧ 128 ≤ cp ∧ c :: rest = encode cp ++ tail ∧ Valid tail := by
  generalize ht : c :: rest = t at h
  cases h with
  | nil => cases ht
  | @cons cp tail hcp h =>
    refine ⟨cp, tail, hcp, ?_, rfl, h⟩
    by_contra hlt
    rw [encode_ascii (by omega)] at ht
    have := (List.cons.inj ht).1
    omega

end Valid

end SaltsUtils.Utf8
