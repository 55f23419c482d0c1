import Mathlib.Data.Int.Basic
import Mathlib.Data.List.Basic
import SaltsUtils.Library.Base128

/-!
# Mustache templates and their compiler
-/

set_option autoImplicit false

/-!
## Tags of a Mustache template

`mustache_parse` of `src/mustache/src/mustache.c`.
-/

namespace SaltsUtils.Mustache

abbrev Bytes := List ℕ

def is_whitespace (c : ℕ) : Bool := c = 32 || c = 9 || c = 11 || c = 12

def is_newline (c : ℕ) : Bool := c = 13 || c = 10

inductive TagType
  | none
  | delim
  | comment
  | var
  | verbatim_var
  | verbatim_var2
  | open_section
  | open_section_inv
  | close_section
  | close_section_inv
  | partial_tag
  | indent
deriving DecidableEq

structure TagInfo where
  type : TagType
  beg : ℕ
  stop : ℕ
  name_beg : ℕ
  name_end : ℕ
deriving DecidableEq

/-- The bytes from one position up to another. -/
def slice (text : Bytes) (beg stop : ℕ) : Bytes := (text.drop beg).take (stop - beg)

def TagInfo.name (text : Bytes) (tag : TagInfo) : Bytes := slice text tag.name_beg tag.name_end

def max_delimiter : ℕ := 32

def default_opener : Bytes := [123, 123]

def default_closer : Bytes := [125, 125]

def is_std_closer (closer : Bytes) : Bool := closer.all (· = 125)

/-- The opener and the closer that a directive gives. -/
def parse_delimiters (spec : Bytes) : Option (Bytes × Bytes) :=
  let opener := spec.takeWhile (!is_whitespace ·)
  let gap := spec.dropWhile (!is_whitespace ·)
  let closer := gap.dropWhile is_whitespace
  if opener.any (· = 61) then .none
  else if opener = [] ∨ max_delimiter < opener.length then .none
  else if gap = [] then .none
  else if closer.any is_whitespace then .none
  else if closer = [] ∨ max_delimiter < closer.length then .none
  else some (opener, closer)

def double_dot : Bytes → Bool
  | 46 :: 46 :: _ => true
  | _ :: name => double_dot name
  | [] => false

def valid_tagname (name : Bytes) : Bool :=
  name = [46] || !(name.head? = some 46 || name.getLast? = some 46 || name.any is_whitespace ||
    double_dot name)

structure ParseState where
  off : ℕ
  opener : Bytes
  closer : Bytes
  tag : TagInfo
  tags : List TagInfo
  n_errors : ℕ

section
variable (text : Bytes)

def stands_at (word : Bytes) (off : ℕ) : Bool := word.isPrefixOf (text.drop off)

/-- The position behind the bytes of a kind. -/
def skip (kind : ℕ → Bool) (off : ℕ) : ℕ := off + ((text.drop off).takeWhile kind).length

/-- The position in front of the bytes of a kind that end at a position. -/
def skip_back (kind : ℕ → Bool) (off : ℕ) : ℕ :=
  off - ((text.take off).reverse.takeWhile kind).length

def tag_type : ℕ → TagType
  | 61 => .delim
  | 33 => .comment
  | 123 => .verbatim_var
  | 38 => .verbatim_var2
  | 35 => .open_section
  | 94 => .open_section_inv
  | 47 => .close_section
  | 62 => .partial_tag
  | _ => .var

variable (s : ParseState)

def drop_tag : ParseState :=
  if s.tag.type ≠ .none ∧ s.tag.type ≠ .comment then
    { s with tag := { s.tag with type := .none }, n_errors := s.n_errors + 1 }
  else s

def open_tag : ParseState :=
  let s := drop_tag s
  let off := s.off + s.opener.length
  let type := (text[off]?.map tag_type).getD s.tag.type
  let off := if (text[off]?.map tag_type).getD .var = .var then off else off + 1
  let off := skip text is_whitespace off
  { s with off := off, tag := { s.tag with type := type, beg := s.off, name_beg := off } }

/-- What a verbatim variable and a change of delimiters need in front of the closer or behind
it. -/
def close_special : ParseState :=
  match s.tag.type with
  | .verbatim_var =>
    if s.tag.name_beg < s.tag.name_end ∧ text[s.tag.name_end - 1]? = some 125 then
      { s with tag := { s.tag with name_end := s.tag.name_end - 1 } }
    else if is_std_closer s.closer ∧ text[s.off]? = some 125 then { s with off := s.off + 1 }
    else { s with n_errors := s.n_errors + 1 }
  | .delim =>
    let s :=
      if text[s.tag.name_end - 1]? ≠ some 61 ∧ text[s.off]? = some 61 ∧
          stands_at text s.closer (s.off + 1) then
        { s with
          off := s.off + s.closer.length + 1
          tag := { s.tag with name_end := s.tag.name_end + s.closer.length + 1 } }
      else s
    if text[s.tag.name_end - 1]? ≠ some 61 then { s with n_errors := s.n_errors + 1 }
    else if s.tag.name_beg < s.tag.name_end then
      { s with tag := { s.tag with name_end := s.tag.name_end - 1 } }
    else s
  | _ => s

/-- A tag alone on its line takes the whole line. -/
def standalone (tag : TagInfo) : TagInfo :=
  let behind := skip text is_whitespace tag.stop
  let line_start := skip_back text (!is_newline ·) tag.beg
  if tag.type = .var ∨ tag.type = .verbatim_var ∨ tag.type = .verbatim_var2 then tag
  else if text[behind]?.all is_newline ∧
      (slice text line_start tag.beg).all is_whitespace then
    let stop := if text[behind]? = some 13 then behind + 1 else behind
    let stop := if text[stop]? = some 10 then stop + 1 else stop
    { tag with beg := line_start, stop := stop }
  else tag

def trim_name (tag : TagInfo) : TagInfo :=
  { tag with name_end := max tag.name_beg (skip_back text is_whitespace tag.name_end) }

def change_delimiters : ParseState :=
  if s.tag.type = .delim then
    let s := { s with tag := { s.tag with type := .comment } }
    match parse_delimiters (s.tag.name text) with
    | .none => { s with n_errors := s.n_errors + 1 }
    | some (opener, closer) => { s with opener := opener, closer := closer }
  else s

def check_name (passes : TagInfo → Bool) (s : ParseState) : ParseState :=
  if s.tag.type ≠ .comment ∧ passes s.tag = false then { s with n_errors := s.n_errors + 1 } else s

def keep_tag : ParseState :=
  { s with tags := s.tags ++ [s.tag], tag := { s.tag with type := .none } }

def close_tag : ParseState :=
  let s := { s with off := s.off + s.closer.length, tag := { s.tag with name_end := s.off } }
  let s := close_special text s
  let s := { s with tag := trim_name text (standalone text { s.tag with stop := s.off }) }
  let s := check_name (fun tag => tag.name_beg < tag.name_end) s
  let s := change_delimiters text s
  keep_tag (check_name (fun tag => valid_tagname (tag.name text)) s)

def line_tag (off : ℕ) (tag : TagInfo) : TagInfo :=
    { tag with type := .indent, beg := off, stop := off }

def end_line : ParseState :=
  let s := drop_tag s
  let off := if text[s.off]? = some 13 then s.off + 1 else s.off
  let off := if text[off]? = some 10 then off + 1 else off
  let s := { s with off := off }
  if s.tag.type = .none ∧ off < text.length then
    { s with
      tag := { line_tag off s.tag with type := .none }, tags := s.tags ++ [line_tag off s.tag] }
  else s

def parse_round : ParseState :=
  let is_opener := stands_at text s.opener s.off
  let is_closer := stands_at text s.closer s.off
  let both := is_opener && is_closer
  if is_opener && !(both && s.tag.type ≠ .none) then open_tag text s
  else if is_closer && s.tag.type = .none then
    { s with off := s.off + 1, n_errors := s.n_errors + 1 }
  else if is_closer then close_tag text s
  else if text[s.off]?.any is_newline then end_line text s
  else { s with off := s.off + 1 }

def parse_rounds : ℕ → ParseState → ParseState
  | 0, s => s
  | rounds + 1, s => if s.off < text.length then parse_rounds rounds (parse_round text s) else s

/-- Equal as far as `strncmp` looks: up to the first zero byte. -/
def same_name (name name' : Bytes) : Bool :=
  name.length = name'.length && name.takeWhile (· ≠ 0) = name'.takeWhile (· ≠ 0)

/-- The tags behind those that have been looked at, where a closer has the kind of its opener. -/
def validate_sections : List TagInfo → List TagInfo → Option (List TagInfo)
  | [], [] => some []
  | _ :: _, [] => .none
  | section_stack, tag :: tags =>
    match tag.type with
    | .open_section | .open_section_inv =>
      (validate_sections (tag :: section_stack) tags).map (tag :: ·)
    | .close_section | .close_section_inv =>
      match section_stack with
      | [] => .none
      | opener :: section_stack =>
        if same_name (opener.name text) (tag.name text) then
          let tag :=
            if opener.type = .open_section_inv then { tag with type := .close_section_inv } else tag
          (validate_sections section_stack tags).map (tag :: ·)
        else .none
    | _ => (validate_sections section_stack tags).map (tag :: ·)

def no_tag : TagInfo := ⟨.none, 0, 0, 0, 0⟩

def mustache_parse : Option (List TagInfo) :=
  let tags := if text = [] then [] else [line_tag 0 no_tag]
  let s := parse_rounds text text.length ⟨0, default_opener, default_closer, no_tag, tags, 0⟩
  match validate_sections text [] s.tags with
  | .none => .none
  | some tags =>
    if s.n_errors = 0 then
      some (tags ++ [{ s.tag with type := .none, beg := text.length, stop := text.length }])
    else .none

end

/-!
## The Mustache compiler

`mustache_compile` of `src/mustache/src/mustache.c`. The instructions are a sequence of
bytes.
-/

def op_exit : ℕ := 0
def op_literal : ℕ := 1
def op_resolve_setjmp : ℕ := 2
def op_resolve : ℕ := 3
def op_outverbatim : ℕ := 4
def op_outescaped : ℕ := 5
def op_enter : ℕ := 6
def op_leave : ℕ := 7
def op_enterinv : ℕ := 8
def op_partial_tag : ℕ := 9
def op_indent : ℕ := 10
def op_lambda : ℕ := 11

def insert_num (insns : Bytes) (off num : ℕ) : Bytes :=
  insns.take off ++ Vlq.write num ++ insns.drop off

def u64_bytes (num : ℕ) : Bytes := (List.range 8).map fun i => num / 256 ^ i % 256

def write_u64 (insns : Bytes) (off num : ℕ) : Bytes :=
  if off + 8 ≤ insns.length then insns.take off ++ u64_bytes num ++ insns.drop (off + 8) else insns

def string_bytes (text : Bytes) : Bytes := Vlq.write text.length ++ text

def name_tokens (name : Bytes) : List Bytes := if name = [46] then [] else name.splitOn 46

def tagname_bytes (name : Bytes) : Bytes :=
  Vlq.write (name_tokens name).length ++ (name_tokens name).flatMap string_bytes

structure LambdaInfo where
  len_pos : ℕ
  start_off : ℕ
deriving DecidableEq

structure CompileState where
  insns : Bytes
  jmp_pos_stack : List ℕ
  lambda_stack : List LambdaInfo
  off : ℕ
deriving DecidableEq

def CompileState.append (s : CompileState) (data : Bytes) : CompileState :=
  { s with insns := s.insns ++ data }

def CompileState.push_jmp_pos (s : CompileState) : CompileState :=
  { s with jmp_pos_stack := s.insns.length :: s.jmp_pos_stack }

def text_len (beg start_off : ℕ) : ℕ := (((beg : ℤ) - start_off) % 2 ^ 64).toNat

section
variable (text : Bytes)

def compile_literal (s : CompileState) (tag : TagInfo) : CompileState :=
  if s.off < tag.beg then
    { s.append ([op_literal] ++ string_bytes (slice text s.off tag.beg)) with off := tag.beg }
  else s

/-- What the openers of both kinds of sections write in front of their last instruction. -/
def compile_opener (s : CompileState) (tag : TagInfo) : CompileState :=
  let s := (s.append [op_resolve_setjmp]).push_jmp_pos
  let s := s.append (tagname_bytes (tag.name text) ++ [op_lambda] ++ u64_bytes tag.stop)
  { s.append (u64_bytes 0) with lambda_stack := ⟨s.insns.length, tag.stop⟩ :: s.lambda_stack }

def close_jump (s : CompileState) (tag : TagInfo) : CompileState :=
  match s.jmp_pos_stack, s.lambda_stack with
  | jmp_pos :: jmp_pos_stack, info :: lambda_stack =>
    let insns := insert_num s.insns jmp_pos (s.insns.length - jmp_pos)
    let insert_size := Vlq.size (insns.length - jmp_pos)
    let len_pos := if jmp_pos < info.len_pos then info.len_pos + insert_size else info.len_pos
    { s with
      insns := write_u64 insns len_pos (text_len tag.beg info.start_off)
      jmp_pos_stack := jmp_pos_stack, lambda_stack := lambda_stack }
  | _, _ => s

def compile_leave (s : CompileState) : CompileState :=
  let s := s.append [op_leave]
  match s.jmp_pos_stack with
  | loop_pos :: jmp_pos_stack =>
    { s.append (Vlq.write (s.insns.length - loop_pos)) with jmp_pos_stack := jmp_pos_stack }
  | [] => s

def partial_indent (tag : TagInfo) : Bytes := (text.drop tag.beg).takeWhile is_whitespace

def compile_insn (s : CompileState) (tag : TagInfo) : CompileState :=
  match tag.type with
  | .var => s.append ([op_resolve] ++ tagname_bytes (tag.name text) ++ [op_outescaped])
  | .verbatim_var | .verbatim_var2 =>
    s.append ([op_resolve] ++ tagname_bytes (tag.name text) ++ [op_outverbatim])
  | .open_section => ((compile_opener text s tag).append [op_enter]).push_jmp_pos
  | .close_section => close_jump (compile_leave s) tag
  | .open_section_inv => (compile_opener text s tag).append [op_enterinv]
  | .close_section_inv => close_jump s tag
  | .partial_tag =>
    s.append ([op_partial_tag] ++ string_bytes (tag.name text) ++
      string_bytes (partial_indent text tag))
  | .indent => s.append [op_indent]
  | .none => s.append [op_exit]
  | _ => s

def compile_tag (s : CompileState) (tag : TagInfo) : CompileState :=
  { compile_insn text (compile_literal text s tag) tag with off := tag.stop }

def compile_tags : CompileState → List TagInfo → CompileState
  | s, [] => s
  | s, tag :: tags =>
    let s := compile_tag text s tag
    if tag.type = .none then s else compile_tags s tags

def mustache_compile : Option Bytes :=
  (mustache_parse text).map fun tags => (compile_tags text ⟨[], [], [], 0⟩ tags).insns

end

end SaltsUtils.Mustache
