import Mathlib.Data.List.Basic

/-!
# Prefix codes

A word of a prefix code tells where it ends, so what follows it can be told apart from
it. `Decodes f P a` says this of the word of `a` among the words of what satisfies `P`.
-/

set_option autoImplicit false

namespace SaltsUtils.PrefixCode

variable {α β γ : Type*} {f : α → List β} {P : α → Prop}

def Decodes (f : α → List β) (P : α → Prop) (a : α) : Prop :=
  ∀ b r s, P b → f a ++ r = f b ++ s → a = b ∧ r = s

theorem decodes_of_length {n : ℕ} (hn : ∀ a, (f a).length = n)
    (hf : ∀ a b, f a = f b → P b → a = b) (a : α) : Decodes f P a := by
  intro b r s hb h
  obtain ⟨hab, hrs⟩ := List.append_inj h ((hn a).trans (hn b).symm)
  exact ⟨hf a b hab hb, hrs⟩

theorem flatMap_decodes {l l' : List α} (hl : ∀ a ∈ l, Decodes f P a) (hl' : ∀ b ∈ l', P b)
    (hn : l.length = l'.length) (r s : List β)
    (h : l.flatMap f ++ r = l'.flatMap f ++ s) : l = l' ∧ r = s := by
  induction l generalizing l' with
  | nil =>
    obtain rfl : l' = [] := List.length_eq_zero_iff.1 hn.symm
    exact ⟨rfl, h⟩
  | cons a l ih =>
    cases l' with
    | nil => cases hn
    | cons b l' =>
      rw [List.flatMap_cons, List.flatMap_cons, List.append_assoc, List.append_assoc] at h
      obtain ⟨rfl, htail⟩ := hl a List.mem_cons_self b _ _ (hl' b List.mem_cons_self) h
      obtain ⟨rfl, hrest⟩ := ih (fun c hc => hl c (List.mem_cons_of_mem a hc))
        (fun c hc => hl' c (List.mem_cons_of_mem a hc)) (Nat.succ.inj hn) htail
      exact ⟨rfl, hrest⟩

/-- No word of a prefix code begins another one. -/
theorem eq_of_prefix {a b : α} (ha : Decodes f P a) (hb : P b) (h : f a <+: f b) : a = b := by
  obtain ⟨r, h⟩ := h
  exact (ha b r [] hb (h.trans (List.append_nil _).symm)).1

end SaltsUtils.PrefixCode
