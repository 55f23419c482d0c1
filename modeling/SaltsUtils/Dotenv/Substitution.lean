import Mathlib.Data.List.Basic
import Mathlib.Data.List.Infix

/-!
# References in dotenv values
-/

set_option autoImplicit false

namespace SaltsUtils.Dotenv

abbrev Bytes := List UInt8

structure Environment where
  getenv : Bytes → Option Bytes
  nameless : getenv [] = none

def dotenv_environment_get_copy (env : Environment) (name : Bytes) : Option Bytes :=
  if name = [] then none else env.getenv name

structure Strings (T : Type) where
  text : T → Bytes
  tstr_new : T
  tstr_dup : Bytes → T
  tstr_cat : Option T → Bytes → T
  text_new : text tstr_new = []
  text_dup : ∀ s, text (tstr_dup s) = s
  text_cat : ∀ t s, text (tstr_cat t s) = (t.map text).getD [] ++ s

/-- What stands before the first occurrence, and the rest that begins with it. -/
def strstr (needle : Bytes) : Bytes → Option (Bytes × Bytes)
  | [] => if needle = [] then some ([], []) else none
  | c :: text =>
    if needle <+: c :: text then some ([], c :: text)
    else (strstr needle text).map fun found => (c :: found.1, found.2)

theorem strstr_eq {needle text before rest : Bytes} (h : strstr needle text = some (before, rest)) :
    text = before ++ rest ∧ needle <+: rest := by
  induction text generalizing before with
  | nil =>
    rw [strstr] at h
    split_ifs at h with hn
    cases h
    exact ⟨rfl, hn ▸ List.prefix_rfl⟩
  | cons c text ih =>
    rw [strstr] at h
    split_ifs at h with hp
    · cases h
      exact ⟨rfl, hp⟩
    · obtain ⟨⟨front, rest'⟩, hf, he⟩ := Option.map_eq_some_iff.1 h
      cases he
      obtain ⟨rfl, hneedle⟩ := ih hf
      exact ⟨rfl, hneedle⟩

def opening : Bytes := [36, 123]

def closing : Bytes := [125]

variable {T : Type} (lib : Strings T) (env : Environment)

def concat (buffer : Option T) : Option Bytes → Option T
  | none => buffer
  | some string => some (lib.tstr_cat buffer string)

theorem strstr_shorter {needle text before rest : Bytes}
    (h : strstr needle text = some (before, rest)) : rest.length ≤ text.length := by
  rw [(strstr_eq h).1, List.length_append]
  omega

variable (result : Option T)

def copy_before (before : Bytes) : Option T :=
  if before ≠ [] then some (lib.tstr_cat result before) else result

def resolve_loop (result : Option T) (ptr : Bytes) : Option T × Bytes :=
  match hs : strstr opening ptr with
  | none => (result, ptr)
  | some (before, start) =>
    let result := copy_before lib result before
    match he : strstr closing start with
    | none => (result, ptr)
    | some (name, end_) =>
      let env_val := dotenv_environment_get_copy env (name.drop opening.length)
      resolve_loop (concat lib result env_val) (end_.drop 1)
termination_by ptr.length
decreasing_by
  have h₁ := strstr_shorter hs
  have h₂ := strstr_shorter he
  have h₃ := (strstr_eq he).2.length_le
  simp only [closing, List.length_drop, List.length_singleton] at h₃ ⊢
  omega

def resolve_nested (value : Bytes) : T :=
  if strstr opening value = none then lib.tstr_dup value
  else
    let (result, ptr) := resolve_loop lib env none value
    let result := if ptr ≠ [] then concat lib result (some ptr) else result
    result.getD lib.tstr_new

def references (text : Bytes) : List (Bytes × Bytes) × Bytes :=
  match hs : strstr opening text with
  | none => ([], text)
  | some (before, start) =>
    match he : strstr closing start with
    | none => ([], text)
    | some (name, end_) =>
      let found := references (end_.drop 1)
      ((before, name.drop opening.length) :: found.1, found.2)
termination_by text.length
decreasing_by
  have h₁ := strstr_shorter hs
  have h₂ := strstr_shorter he
  have h₃ := (strstr_eq he).2.length_le
  simp only [closing, List.length_drop, List.length_singleton] at h₃ ⊢
  omega

/-- The value of a reference behind the text before it. -/
def replaced (reference : Bytes × Bytes) : Bytes :=
  reference.1 ++ (dotenv_environment_get_copy env reference.2).getD []

/-- Each reference replaced by the value of its name, everything else as it is. -/
def substitute (text : Bytes) : Bytes :=
  (references text).1.flatMap (replaced env) ++ (references text).2

/-- What stands between the last reference and an opening without its closing. -/
def stump (text : Bytes) : Bytes :=
  ((strstr opening (references text).2).map Prod.fst).getD []

def Strings.read : Bytes := (result.map lib.text).getD []

theorem read_concat (string : Option Bytes) :
    lib.read (concat lib result string) = lib.read result ++ string.getD [] := by
  cases string with
  | none => exact (List.append_nil _).symm
  | some string => exact lib.text_cat result string

theorem read_before (before : Bytes) :
    lib.read (copy_before lib result before) = lib.read result ++ before := by
  rw [copy_before]
  split_ifs with h
  · exact lib.text_cat result before
  · rw [not_not.1 h, List.append_nil]

theorem references_none {text : Bytes} (hs : strstr opening text = none) :
    references text = ([], text) := by
  rw [references]
  split
  · rfl
  · rename_i hs'
    rw [hs] at hs'
    cases hs'

theorem references_open {text before start : Bytes}
    (hs : strstr opening text = some (before, start)) (he : strstr closing start = none) :
    references text = ([], text) := by
  rw [references]
  split
  · rfl
  · rename_i hs'
    rw [hs] at hs'
    cases hs'
    split
    · rfl
    · rename_i he'
      rw [he] at he'
      cases he'

theorem references_closed {text before start name end_ : Bytes}
    (hs : strstr opening text = some (before, start))
    (he : strstr closing start = some (name, end_)) :
    references text = ((before, name.drop opening.length) :: (references (end_.drop 1)).1,
      (references (end_.drop 1)).2) := by
  rw [references]
  split
  · rename_i hs'
    rw [hs] at hs'
    cases hs'
  · rename_i hs'
    rw [hs] at hs'
    cases hs'
    split
    · rename_i he'
      rw [he] at he'
      cases he'
    · rename_i he'
      rw [he] at he'
      cases he'
      rfl

theorem resolve_loop_reads (ptr : Bytes) :
    lib.read (resolve_loop lib env result ptr).1 = lib.read result ++
    ((references ptr).1.flatMap (replaced env) ++ stump ptr) ∧ (resolve_loop lib env result ptr).2 =
    (references ptr).2 := by
  induction result, ptr using resolve_loop.induct lib env with
  | case1 result ptr hs =>
    rw [resolve_loop, stump, references_none hs]
    split
    · simp [hs]
    · simp_all
  | case2 result ptr before start hs he =>
    rw [resolve_loop, stump, references_open hs he]
    split
    · simp_all
    · rename_i hs'
      rw [hs] at hs'
      cases hs'
      split
      · exact ⟨by simp [read_before, hs], rfl⟩
      · simp_all
  | case3 result ptr before start hs r name end_ he v ih =>
    rw [resolve_loop, stump, references_closed hs he]
    split
    · simp_all
    · rename_i hs'
      rw [hs] at hs'
      cases hs'
      split
      · simp_all
      · rename_i he'
        rw [he] at he'
        cases he'
        refine ⟨?_, ih.2⟩
        rw [ih.1, read_concat]
        simp [replaced, stump, r, v, read_before]

theorem resolve_nested_reads (value : Bytes) :
    lib.text (resolve_nested lib env value) =
      (references value).1.flatMap (replaced env) ++ (stump value ++ (references value).2) := by
  rw [resolve_nested]
  split_ifs with hs
  · rw [lib.text_dup, stump, references_none hs]
    simp [hs]
  · obtain ⟨hread, hptr⟩ := resolve_loop_reads lib env none value
    generalize resolve_loop lib env none value = left at hread hptr
    obtain ⟨result, ptr⟩ := left
    obtain rfl : ptr = _ := hptr
    have hdone : ∀ r : Option T, lib.text (r.getD lib.tstr_new) = lib.read r := by
      rintro (_ | t)
      · exact lib.text_new
      · rfl
    rw [hdone]
    split_ifs with hrest
    · rw [read_concat, hread]
      simp [Strings.read]
    · rw [hread, not_not.1 hrest]
      simp [Strings.read]

/-- The value comes out as it should unless something stands before an opening that is
never closed: that text is copied twice. -/
theorem resolve_nested_substitutes (value : Bytes) :
    lib.text (resolve_nested lib env value) = substitute env value ↔ stump value = [] := by
  rw [resolve_nested_reads, substitute, List.append_cancel_left_eq]
  constructor
  · intro h
    have := congrArg List.length h
    rw [List.length_append] at this
    exact List.length_eq_zero_iff.1 (by omega)
  · intro h
    rw [h, List.nil_append]

def byteStrings : Strings Bytes where
  text t := t
  tstr_new := []
  tstr_dup s := s
  tstr_cat t s := t.getD [] ++ s
  text_new := rfl
  text_dup _ := rfl
  text_cat t s := by cases t <;> rfl

/-- The value `a${` is read as `aa${`. -/
theorem prefix_copied_twice :
    byteStrings.text (resolve_nested byteStrings ⟨fun _ => none, rfl⟩ [97, 36, 123]) =
        [97, 97, 36, 123] ∧
      substitute ⟨fun _ => none, rfl⟩ [97, 36, 123] = [97, 36, 123] ∧
      byteStrings.text (resolve_nested byteStrings ⟨fun _ => none, rfl⟩ [97, 36, 123]) ≠
        substitute ⟨fun _ => none, rfl⟩ [97, 36, 123] := by
  have hs : strstr opening [97, 36, 123] = some ([97], [36, 123]) := by decide
  have he : strstr closing [36, 123] = none := by decide
  rw [resolve_nested_reads, substitute, stump, references_open hs he, hs]
  exact ⟨rfl, rfl, by decide⟩

end SaltsUtils.Dotenv
