import Mathlib.Tactic

/-!
# Regular expressions and longest matches

What is left of an expression after one character is its derivative.
-/

set_option autoImplicit false

namespace SaltsUtils

inductive Regex where
  | never
  | nil
  | one (accepts : ℕ → Bool)
  | seq (first second : Regex)
  | alt (left right : Regex)
  | star (body : Regex)

namespace Regex

def nullable : Regex → Bool
  | never => false
  | nil => true
  | one _ => false
  | seq r s => nullable r && nullable s
  | alt r s => nullable r || nullable s
  | star _ => true

def followed : Regex → Regex → Regex
  | never, _ => never
  | r, s => seq r s

def either : Regex → Regex → Regex
  | never, s => s
  | r, never => r
  | r, s => alt r s

def deriv (ch : ℕ) : Regex → Regex
  | never => never
  | nil => never
  | one accepts => if accepts ch then nil else never
  | seq r s =>
    if nullable r then either (followed (deriv ch r) s) (deriv ch s)
    else followed (deriv ch r) s
  | alt r s => either (deriv ch r) (deriv ch s)
  | star r => followed (deriv ch r) (star r)

def stopped (r : Regex) : Option ℕ := if nullable r then some 0 else none

/-- The length of the longest match at the start of a text. -/
def longest : Regex → List ℕ → Option ℕ
  | never, _ => none
  | r, [] => stopped r
  | r, ch :: rest =>
    match longest (deriv ch r) rest with
    | some n => some (n + 1)
    | none => stopped r

def char (ch : ℕ) : Regex := one (fun c => c == ch)

def range (lo hi : ℕ) : Regex := one (fun c => decide (lo ≤ c) && decide (c ≤ hi))

def class_ (chars : List ℕ) : Regex := one (fun c => chars.contains c)

/-- Every character but these. -/
def except (chars : List ℕ) : Regex := one (fun c => !chars.contains c)

def word (chars : List ℕ) : Regex := chars.foldr (fun ch r => seq (char ch) r) nil

def plus (r : Regex) : Regex := seq r (star r)

def optional (r : Regex) : Regex := alt r nil

def times (n : ℕ) (r : Regex) : Regex := (List.replicate n r).foldr seq nil

def sequence (rs : List Regex) : Regex := rs.foldr seq nil

variable {n : ℕ} {text : List ℕ}

section Rules
variable {α : Type*}

def better (best : Option (ℕ × α)) (action : α) : Option ℕ → Option (ℕ × α)
  | none => best
  | some n =>
    match best with
    | some (m, action') => if m < n then some (n, action) else some (m, action')
    | none => some (n, action)

def choose (rules : List (Regex × α)) (text : List ℕ) : Option (ℕ × α) :=
  rules.foldl (fun best rule => better best rule.2 (longest rule.1 text)) none

theorem better_cases {best : Option (ℕ × α)} {action : α} {found : Option ℕ} {a : α}
    (h : better best action found = some (n, a)) :
    best = some (n, a) ∨ found = some n ∧ action = a := by
  cases found with
  | none => exact Or.inl h
  | some m =>
    cases best with
    | none =>
      cases h
      exact Or.inr ⟨rfl, rfl⟩
    | some b =>
      rw [better] at h
      split at h
      · cases h
        exact Or.inr ⟨rfl, rfl⟩
      · exact Or.inl h

/-- What is chosen is the match of one of the rules. -/
theorem choose_mem {rules : List (Regex × α)} {a : α} (h : choose rules text = some (n, a)) :
    ∃ rule ∈ rules, longest rule.1 text = some n ∧ rule.2 = a := by
  unfold choose at h
  induction rules using List.reverseRecOn with
  | nil => cases h
  | append_singleton rules rule ih =>
    rw [List.foldl_append] at h
    rcases better_cases h with h | h
    · obtain ⟨rule', hr, hrule'⟩ := ih h
      exact ⟨rule', List.mem_append_left _ hr, hrule'⟩
    · exact ⟨rule, by simp, h⟩

end Rules

variable {r : Regex}

theorem longest_pos (hr : nullable r = false) (h : longest r text = some n) : 0 < n := by
  rw [longest.eq_def] at h
  split at h
  · cases h
  · rw [stopped, hr] at h
    cases h
  · split at h
    · cases h
      exact Nat.succ_pos _
    · rw [stopped, hr] at h
      cases h

inductive Match : Regex → List ℕ → Prop where
  | nil : Match nil []
  | one {accepts : ℕ → Bool} {ch : ℕ} (h : accepts ch = true) : Match (one accepts) [ch]
  | seq {r s : Regex} {a b : List ℕ} (hr : Match r a) (hs : Match s b) : Match (seq r s) (a ++ b)
  | left {r s : Regex} {a : List ℕ} (h : Match r a) : Match (alt r s) a
  | right {r s : Regex} {a : List ℕ} (h : Match s a) : Match (alt r s) a
  | star_nil {r : Regex} : Match (star r) []
  | star_cons {r : Regex} {a b : List ℕ} (hr : Match r a) (hs : Match (star r) b) :
      Match (star r) (a ++ b)

theorem match_nullable (h : nullable r = true) : Match r [] := by
  induction r with
  | never => cases h
  | nil => exact .nil
  | one accepts => cases h
  | seq r s ihr ihs =>
    obtain ⟨hr, hs⟩ := Bool.and_eq_true_iff.mp h
    exact .seq (ihr hr) (ihs hs)
  | alt r s ihr ihs =>
    obtain hr | hs := Bool.or_eq_true_iff.mp h
    · exact .left (ihr hr)
    · exact .right (ihs hs)
  | star r => exact .star_nil

theorem match_nil (h : Match nil text) : text = [] := by
  cases h
  rfl

theorem match_one {accepts : ℕ → Bool} (h : Match (one accepts) text) :
    ∃ ch, text = [ch] ∧ accepts ch = true := by
  cases h with
  | one h => exact ⟨_, rfl, h⟩

variable {s : Regex}

theorem match_seq (h : Match (seq r s) text) : ∃ a b, text = a ++ b ∧ Match r a ∧ Match s b := by
  cases h with
  | seq hr hs => exact ⟨_, _, rfl, hr, hs⟩

theorem match_alt (h : Match (alt r s) text) : Match r text ∨ Match s text := by
  cases h with
  | left h => exact .inl h
  | right h => exact .inr h

theorem match_sequence {rs : List Regex} (h : Match (sequence rs) text) :
    ∃ parts : List (List ℕ), text = parts.flatten ∧ List.Forall₂ Match rs parts := by
  induction rs generalizing text with
  | nil => exact ⟨[], match_nil h, .nil⟩
  | cons r rs ih =>
    obtain ⟨a, b, rfl, ha, hb⟩ := match_seq h
    obtain ⟨parts, rfl, hparts⟩ := ih hb
    exact ⟨a :: parts, rfl, .cons ha hparts⟩

theorem match_followed (h : Match (followed r s) text) : Match (seq r s) text := by
  cases r with
  | never => cases h
  | _ => exact h

theorem match_either (h : Match (either r s) text) : Match r text ∨ Match s text := by
  unfold either at h
  split at h
  · exact .inr h
  · exact .inl h
  · exact match_alt h

/-- What a derivative matches, the expression matches behind the character. -/
theorem match_deriv {ch : ℕ} (h : Match (deriv ch r) text) : Match r (ch :: text) := by
  induction r generalizing text with
  | never => cases h
  | nil => cases h
  | one accepts =>
    rw [deriv] at h
    split at h
    · next hch =>
      rw [match_nil h]
      exact .one hch
    · cases h
  | seq r s ihr ihs =>
    have hfirst : ∀ {text}, Match (followed (deriv ch r) s) text → Match (seq r s) (ch :: text) := by
      intro text h
      obtain ⟨a, b, rfl, ha, hb⟩ := match_seq (match_followed h)
      exact .seq (ihr ha) hb
    rw [deriv] at h
    split at h
    · next hr =>
      obtain h | h := match_either h
      · exact hfirst h
      · exact .seq (match_nullable hr) (ihs h)
    · exact hfirst h
  | alt r s ihr ihs =>
    obtain h | h := match_either h
    · exact .left (ihr h)
    · exact .right (ihs h)
  | star r ih =>
    obtain ⟨a, b, rfl, ha, hb⟩ := match_seq (match_followed h)
    exact .star_cons (ih ha) hb

theorem match_stopped (text : List ℕ) (h : stopped r = some n) : Match r (text.take n) := by
  rw [stopped] at h
  split at h
  · next hr =>
    cases h
    exact match_nullable hr
  · cases h

theorem match_longest (h : longest r text = some n) : Match r (text.take n) := by
  induction text generalizing r n with
  | nil =>
    rw [longest.eq_def] at h
    split at h
    · cases h
    · exact match_stopped [] h
    · next he => cases he
  | cons ch rest ih =>
    rw [longest.eq_def] at h
    split at h
    · cases h
    · next he => cases he
    · next he =>
      cases he
      split at h
      · next hn =>
        cases h
        exact match_deriv (ih hn)
      · exact match_stopped _ h

section
variable {accepts : ℕ → Bool} {text : List ℕ}

theorem match_optional (h : Match (optional r) text) : Match r text ∨ text = [] :=
  (match_alt h).imp_right match_nil

theorem match_star_one (h : Match (star (one accepts)) text) : ∀ ch ∈ text, accepts ch = true := by
  generalize hr : star (one accepts) = r at h
  induction h with
  | star_nil => exact fun ch hch => nomatch hch
  | star_cons ha hb _ ih =>
    cases hr
    obtain ⟨ch, rfl, hch⟩ := match_one ha
    exact List.forall_mem_cons.mpr ⟨hch, ih rfl⟩
  | _ => cases hr

theorem match_plus_one (h : Match (plus (one accepts)) text) :
    text ≠ [] ∧ ∀ ch ∈ text, accepts ch = true := by
  obtain ⟨a, b, rfl, ha, hb⟩ := match_seq h
  obtain ⟨ch, rfl, hch⟩ := match_one ha
  exact ⟨List.cons_ne_nil _ _, List.forall_mem_cons.mpr ⟨hch, match_star_one hb⟩⟩

theorem match_times_one (h : Match (times n (one accepts)) text) :
    text.length = n ∧ ∀ ch ∈ text, accepts ch = true := by
  induction n generalizing text with
  | zero =>
    rw [match_nil h]
    exact ⟨rfl, fun ch hch => nomatch hch⟩
  | succ n ih =>
    obtain ⟨a, b, rfl, ha, hb⟩ := match_seq h
    obtain ⟨ch, rfl, hch⟩ := match_one ha
    obtain ⟨hlength, hall⟩ := ih hb
    exact ⟨congrArg (· + 1) hlength, List.forall_mem_cons.mpr ⟨hch, hall⟩⟩

theorem match_char {ch : ℕ} (h : Match (char ch) text) : text = [ch] := by
  obtain ⟨ch', rfl, hch⟩ := match_one h
  rw [beq_iff_eq.mp hch]

theorem match_word {chars : List ℕ} (h : Match (word chars) text) : text = chars := by
  induction chars generalizing text with
  | nil => exact match_nil h
  | cons ch chars ih =>
    obtain ⟨a, b, rfl, ha, hb⟩ := match_seq h
    rw [match_char ha, ih hb]
    rfl

theorem match_class {chars : List ℕ} (h : Match (class_ chars) text) :
    ∃ ch, text = [ch] ∧ ch ∈ chars := by
  obtain ⟨ch, rfl, hch⟩ := match_one h
  exact ⟨ch, rfl, List.contains_iff_mem.mp hch⟩

end

end Regex

end SaltsUtils
