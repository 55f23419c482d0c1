import Mathlib.Data.List.TakeWhile
import SaltsUtils.Cmd.Parser

/-!
# Response files

A file has its arguments between double quotes or bare, with white space between them.
The loop over its arguments takes an empty one for the end of the file.
-/

set_option autoImplicit false

namespace SaltsUtils.Cmd

/-! Texts of files. -/

def Quotable (arg : Bytes) : Prop := ∀ c ∈ arg, c ≠ 0 ∧ c ≠ 34

def Blank (text : Bytes) : Prop := ∀ c ∈ text, is_space c = true

/-- An argument as it stands in a file. -/
inductive Written (arg : Bytes) : Bytes → Prop
  | quoted : Written arg (34 :: (arg ++ [34]))
  | bare (h : arg ≠ []) (hs : ∀ c ∈ arg, is_space c = false) : Written arg arg

/-- The end of a text or white space. -/
def Breaks (text : Bytes) : Prop := ∀ c ∈ text.head?, is_space c = true

inductive FileOf : List Bytes → Bytes → Prop
  | nil {space : Bytes} (hb : Blank space) : FileOf [] space
  | cons {arg : Bytes} {args : List Bytes} {space word rest : Bytes} (hb : Blank space)
      (hw : Written arg word) (hr : Breaks rest) (hf : FileOf args rest) :
      FileOf (arg :: args) (space ++ (word ++ rest))

/-! One argument. -/

theorem not_space_zero : is_space 0 = false := rfl

theorem not_space_quote : is_space 34 = false := rfl

theorem Blank.ne_zero {space : Bytes} (hb : Blank space) : ∀ c ∈ space, (c != 0) = true := by
  intro c hc
  have hs := hb c hc
  simp only [bne_iff_ne, ne_eq]
  rintro rfl
  simp [not_space_zero] at hs

theorem lex_next_arg_blank {space : Bytes} (hb : Blank space) : lex_next_arg space = none := by
  have hz : space.takeWhile (· != 0) = space := List.takeWhile_eq_self_iff.2 hb.ne_zero
  have hd : space.dropWhile is_space = [] := List.dropWhile_eq_nil_iff.2 hb
  simp [lex_next_arg, hz, hd]

theorem takeWhile_breaks_length (word : Bytes) {rest : Bytes} (hr : Breaks rest) :
    ((word ++ rest).takeWhile fun c => !is_space c).length ≤ word.length := by
  induction word with
  | nil =>
    cases rest with
    | nil => simp
    | cons c rest => simp [hr c (by simp)]
  | cons c word ih =>
    rw [List.cons_append, List.takeWhile_cons]
    split
    · simpa using ih
    · simp

theorem takeWhile_breaks {word rest : Bytes} (hw : ∀ c ∈ word, is_space c = false)
    (hr : Breaks rest) : (word ++ rest).takeWhile (fun c => !is_space c) = word := by
  rw [List.takeWhile_append_of_pos fun c hc => by simp [hw c hc]]
  cases rest with
  | nil => simp
  | cons c rest => simp [hr c (by simp)]

theorem dropWhile_blank {space text : Bytes} {c : ℕ} (hb : Blank space) (hc : is_space c = false) :
    (space ++ c :: text).dropWhile is_space = c :: text := by
  rw [List.dropWhile_append_of_pos hb, List.dropWhile_cons]
  simp [hc]

theorem lex_next_arg_at {space text : Bytes} {c : ℕ} (hb : Blank space) (hc : is_space c = false)
    (hz : ∀ d ∈ c :: text, d ≠ 0) :
    lex_next_arg (space ++ c :: text) =
      if c = 34 ∧ (text.takeWhile (· != 34)).length < text.length ∧
          ((c :: text).takeWhile fun c => !is_space c).length ≤
            (text.takeWhile (· != 34)).length + 2 then
        some (text.takeWhile (· != 34), text.drop ((text.takeWhile (· != 34)).length + 1))
      else some ((c :: text).takeWhile fun c => !is_space c,
        (c :: text).drop ((c :: text).takeWhile fun c => !is_space c).length) := by
  have hw : (space ++ c :: text).takeWhile (· != 0) = space ++ c :: text := by
    refine List.takeWhile_eq_self_iff.2 fun d hd => ?_
    rcases List.mem_append.1 hd with hd | hd
    · exact hb.ne_zero d hd
    · simpa using hz d hd
  rw [lex_next_arg, hw, dropWhile_blank hb hc]

theorem takeWhile_quote {arg : Bytes} (ha : Quotable arg) (rest : Bytes) :
    (arg ++ 34 :: rest).takeWhile (· != 34) = arg := by
  rw [List.takeWhile_append_of_pos fun c hc => by simpa using (ha c hc).2]
  simp

theorem lex_next_arg_written {arg space word rest : Bytes} (ha : Quotable arg) (hb : Blank space)
    (hw : Written arg word) (hr : Breaks rest) (hz : ∀ c ∈ rest, c ≠ 0) :
    lex_next_arg (space ++ (word ++ rest)) = some (arg, rest) := by
  cases hw with
  | quoted =>
    have hlen := takeWhile_breaks_length (34 :: (arg ++ [34])) hr
    have hall : ∀ d ∈ 34 :: (arg ++ 34 :: rest), d ≠ 0 := by
      intro d hd
      simp only [List.mem_cons, List.mem_append] at hd
      rcases hd with rfl | hd | rfl | hd
      · decide
      · exact (ha d hd).1
      · decide
      · exact hz d hd
    simp only [List.cons_append, List.append_assoc, List.nil_append] at hlen ⊢
    rw [lex_next_arg_at hb not_space_quote hall, takeWhile_quote ha, if_pos]
    · simp
    · refine ⟨rfl, by simp, ?_⟩
      simpa using hlen
  | bare h hs =>
    have hall : ∀ d ∈ arg ++ rest, d ≠ 0 := by
      intro d hd
      rcases List.mem_append.1 hd with hd | hd
      · exact (ha d hd).1
      · exact hz d hd
    have hword := takeWhile_breaks hs hr
    cases arg with
    | nil => exact absurd rfl h
    | cons c arg =>
      rw [List.cons_append] at hall hword ⊢
      rw [lex_next_arg_at hb (hs c (by simp)) hall, if_neg fun hq => (ha c (by simp)).2 hq.1, hword]
      simp

/-! Whole files. -/

theorem FileOf.ne_zero {args : List Bytes} {text : Bytes} (hf : FileOf args text)
    (ha : ∀ arg ∈ args, Quotable arg) : ∀ c ∈ text, c ≠ 0 := by
  induction hf with
  | nil hb => exact fun c hc => by simpa using hb.ne_zero c hc
  | cons hb hw hr hf ih =>
    intro c hc
    have harg := ha _ (List.mem_cons_self ..)
    rcases List.mem_append.1 hc with hc | hc
    · simpa using hb.ne_zero c hc
    rcases List.mem_append.1 hc with hc | hc
    · cases hw with
      | quoted =>
        simp only [List.mem_cons, List.mem_append, List.not_mem_nil, or_false] at hc
        rcases hc with rfl | hc | rfl
        · decide
        · exact (harg c hc).1
        · decide
      | bare => exact (harg c hc).1
    · exact ih (fun a h => ha a (List.mem_cons_of_mem _ h)) c hc

theorem Written.length_pos {arg word : Bytes} (hw : Written arg word) : 0 < word.length := by
  cases hw with
  | quoted => simp
  | bare h => exact List.length_pos_iff.2 h

theorem response_args_file {args : List Bytes} {text : Bytes} (hf : FileOf args text)
    (ha : ∀ arg ∈ args, Quotable arg) (rounds : ℕ) (hr : text.length < rounds) :
    response_args rounds text = args.takeWhile (· ≠ []) := by
  induction hf generalizing rounds with
  | nil hb =>
    cases rounds with
    | zero => cases hr
    | succ rounds => simp [response_args, lex_next_arg_blank hb]
  | @cons arg args space word rest hb hw hbr hf ih =>
    cases rounds with
    | zero => cases hr
    | succ rounds =>
      have hrest : ∀ a ∈ args, Quotable a := fun a h => ha a (List.mem_cons_of_mem _ h)
      have hlex := lex_next_arg_written (ha _ (List.mem_cons_self ..)) hb hw hbr
        (hf.ne_zero hrest)
      have hlt : rest.length < rounds := by
        have := hw.length_pos
        simp only [List.length_append] at hr
        omega
      cases arg with
      | nil => simp [response_args, hlex]
      | cons c arg => simp [response_args, hlex, ih hrest rounds hlt]

theorem expand_args_append (read_file : Bytes → Option Bytes) (argv argv' : List Bytes) :
    expand_args read_file (argv ++ argv') =
      expand_args read_file argv ++ expand_args read_file argv' := List.flatMap_append

theorem expand_args_file {read_file : Bytes → Option Bytes} {path content : Bytes}
    {args : List Bytes} (before behind : List Bytes) (hp : path ≠ [])
    (hread : read_file path = some content) (hf : FileOf args content)
    (ha : ∀ arg ∈ args, Quotable arg) :
    expand_args read_file (before ++ (64 :: path) :: behind) =
      expand_args read_file before ++ args.takeWhile (· ≠ []) ++
        expand_args read_file behind := by
  have hone : expand_arg read_file (64 :: path) = args.takeWhile (· ≠ []) := by
    cases path with
    | nil => exact absurd rfl hp
    | cons c path =>
      rw [expand_arg, hread]
      exact response_args_file hf ha _ (Nat.lt_succ_self _)
  rw [expand_args_append]
  simp only [expand_args, List.flatMap_cons, hone, List.append_assoc]

/-- A response file stands for its arguments if and only if none of them is empty. -/
theorem response_file_faithful {read_file : Bytes → Option Bytes} {path content : Bytes}
    {args : List Bytes} (before behind : List Bytes) (hp : path ≠ [])
    (hread : read_file path = some content) (hf : FileOf args content)
    (ha : ∀ arg ∈ args, Quotable arg) :
    expand_args read_file (before ++ (64 :: path) :: behind) =
        expand_args read_file before ++ args ++ expand_args read_file behind ↔ [] ∉ args := by
  rw [expand_args_file before behind hp hread hf ha, List.append_left_inj, List.append_right_inj,
    List.takeWhile_eq_self_iff]
  constructor
  · intro h hm
    simpa using h [] hm
  · intro h arg harg
    have : arg ≠ [] := fun he => h (he ▸ harg)
    simpa using this

/-- The file `a "b c"`, named between two other arguments. -/
theorem response_file_faithful_two :
    expand_args (fun path => if path = [102] then some [97, 32, 34, 98, 32, 99, 34, 10] else none)
        ([[120]] ++ (64 :: [102]) :: [[121]]) = [[120]] ++ [[97], [98, 32, 99]] ++ [[121]] := by
  have hf : FileOf [[97], [98, 32, 99]] [97, 32, 34, 98, 32, 99, 34, 10] :=
    @FileOf.cons [97] [[98, 32, 99]] [] [97] [32, 34, 98, 32, 99, 34, 10] (by simp [Blank])
      (.bare (by simp) (by decide)) (by simp [Breaks, is_space])
      (@FileOf.cons [98, 32, 99] [] [32] _ [10] (by simp [Blank, is_space]) .quoted
        (by simp [Breaks, is_space]) (.nil (by simp [Blank, is_space])))
  exact (response_file_faithful [[120]] [[121]] (by simp) (by simp) hf (by simp [Quotable])).2 (by simp)

/-- The empty argument of `a "" b` ends the file. -/
theorem response_file_empty_argument : ¬ ∀ (read_file : Bytes → Option Bytes)
    (path content : Bytes) (args before behind : List Bytes), path ≠ [] →
    read_file path = some content → FileOf args content → (∀ arg ∈ args, Quotable arg) →
    expand_args read_file (before ++ (64 :: path) :: behind) =
      expand_args read_file before ++ args ++ expand_args read_file behind := by
  intro h
  have hf : FileOf [[97], [], [98]] [97, 32, 34, 34, 32, 98] :=
    @FileOf.cons [97] [[], [98]] [] [97] [32, 34, 34, 32, 98] (by simp [Blank])
      (.bare (by simp) (by decide)) (by simp [Breaks, is_space])
      (@FileOf.cons [] [[98]] [32] _ [32, 98] (by simp [Blank, is_space]) .quoted
        (by simp [Breaks, is_space])
        (@FileOf.cons [98] [] [32] _ [] (by simp [Blank, is_space]) (.bare (by simp) (by decide))
          (by simp [Breaks]) (.nil (by simp [Blank]))))
  have h' := h (fun _ => some [97, 32, 34, 34, 32, 98]) [102] _ _ [] [] (by simp) rfl hf
    (by simp [Quotable])
  exact absurd h' (by decide)

end SaltsUtils.Cmd
