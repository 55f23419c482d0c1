import Mathlib.Algebra.Ring.Int.Defs
import Mathlib.Algebra.Ring.Nat
import Mathlib.Data.List.Basic

/-!
# The command line and its parser
-/

set_option autoImplicit false

/-!
## Arguments and response files

An argument is an option, a bundle of short options or neither by its characters alone.
A C string ends before its zero byte, so no zero byte is among the characters.
-/

namespace SaltsUtils.Cmd

abbrev Bytes := List ℕ

def is_alpha (c : ℕ) : Bool := (65 ≤ c && c ≤ 90) || (97 ≤ c && c ≤ 122)

def is_digit (c : ℕ) : Bool := 48 ≤ c && c ≤ 57

def is_alnum (c : ℕ) : Bool := is_alpha c || is_digit c

def is_word (c : ℕ) : Bool := is_alnum c || c = 45

inductive Token where
  | positional
  | dash_dash
  | help
  | option (key : Bytes)
  | option_with_value (key value : Bytes)
  | short_option (key : Bytes)
  deriving DecidableEq

def help_name : Bytes := [104, 101, 108, 112]

def lex_token : Bytes → Token
  | 45 :: 45 :: rest =>
    if rest = [] then .dash_dash
    else if rest = help_name then .help
    else
      match rest.dropWhile is_word with
      | [] => .option rest
      | 61 :: value =>
        if rest.takeWhile is_word = [] then .positional
        else .option_with_value (rest.takeWhile is_word) value
      | _ => .positional
  | 45 :: rest => if rest ≠ [] ∧ rest.all is_alnum then .short_option rest else .positional
  | _ => .positional

def is_space (c : ℕ) : Bool := c = 32 || c = 9 || c = 13 || c = 10

def lex_next_arg (text : Bytes) : Option (Bytes × Bytes) :=
  match (text.takeWhile (· != 0)).dropWhile is_space with
  | [] => none
  | c :: rest =>
    let word := (c :: rest).takeWhile fun c => !is_space c
    let inner := rest.takeWhile (· != 34)
    if c = 34 ∧ inner.length < rest.length ∧ word.length ≤ inner.length + 2 then
      some (inner, rest.drop (inner.length + 1))
    else some (word, (c :: rest).drop word.length)

/-- The arguments up to the end of the text or to the first that is empty. -/
def response_args : ℕ → Bytes → List Bytes
  | 0, _ => []
  | rounds + 1, text =>
    match lex_next_arg text with
    | none => []
    | some ([], _) => []
    | some (arg, rest) => arg :: response_args rounds rest

/-- An argument `@file` stands for those in the file, if it can be read. -/
def expand_arg (read_file : Bytes → Option Bytes) : Bytes → List Bytes
  | 64 :: c :: path =>
    match read_file (c :: path) with
    | none => [64 :: c :: path]
    | some content => response_args (content.length + 1) content
  | arg => [arg]

def expand_args (read_file : Bytes → Option Bytes) (argv : List Bytes) : List Bytes :=
  argv.flatMap (expand_arg read_file)

/-!
## The command line parser

The outputs are the places that the descriptors point to.
-/

variable {F : Type}

inductive Kind where
  | flag
  | string (choices : List Bytes)
  | integer
  | float
  | enum (descs : List (Bytes × ℤ))
  | string_list (max_count : ℕ)

/-- `value_out` is the place of the output; that of a list has its count. -/
structure Desc where
  name : Bytes
  short_name : Option Bytes
  env_var : Option Bytes
  kind : Kind
  value_out : ℕ
  validator : Option (Bytes → Bool)
  is_required : Bool

structure SubCommand where
  name : Bytes
  optional_args : List Desc
  required_args : List Desc

inductive Out (F : Type) where
  | flag (value : Bool)
  | string (value : Option Bytes)
  | integer (value : ℤ)
  | float (value : F)
  | list (items : List Bytes)

def Out.items : Out F → List Bytes
  | .list items => items
  | _ => []

abbrev Outs (F : Type) := ℕ → Out F

def Outs.set (outs : Outs F) (place : ℕ) (value : Out F) : Outs F :=
  fun i => if i = place then value else outs i

/-- The library and the system. -/
structure Platform (F : Type) where
  strtod : Bytes → F × Bytes
  getenv : Bytes → Option Bytes
  read_file : Bytes → Option Bytes

def tolower (c : ℕ) : ℕ := if 65 ≤ c ∧ c ≤ 90 then c + 32 else c

def casecmp (s t : Bytes) : Bool := s.map tolower = t.map tolower

def strtol_space (c : ℕ) : Bool := c = 32 || (9 ≤ c && c ≤ 13)

def digits_value (digits : Bytes) : ℕ := digits.foldl (fun n c => 10 * n + (c - 48)) 0

def saturate (v : ℤ) : ℤ := max (-2 ^ 63) (min (2 ^ 63 - 1) v)

/-- The number at the start of a text in base ten, and what is left; all of it when there
is no digit. -/
def strtol (text : Bytes) : ℤ × Bytes :=
  let body := text.dropWhile strtol_space
  let negative := body.head? = some 45
  let digits := if body.head? = some 45 ∨ body.head? = some 43 then body.drop 1 else body
  if digits.takeWhile is_digit = [] then (0, text)
  else
    let n : ℤ := digits_value (digits.takeWhile is_digit)
    (saturate (if negative then -n else n), digits.dropWhile is_digit)

section
variable (p : Platform F)

def apply_value (outs : Outs F) (desc : Desc) (value : Bytes) : Option (Outs F) :=
  if (desc.validator.map fun valid => valid value) = some false then none
  else
    match desc.kind with
    | .flag => some outs
    | .string choices =>
      if choices = [] ∨ value ∈ choices then some (outs.set desc.value_out (.string (some value)))
      else none
    | .integer =>
      if (strtol value).2 = [] then some (outs.set desc.value_out (.integer (strtol value).1))
      else none
    | .float =>
      if (p.strtod value).2 = [] then some (outs.set desc.value_out (.float (p.strtod value).1))
      else none
    | .enum descs =>
      (descs.find? fun d => casecmp value d.1).map fun d =>
        outs.set desc.value_out (.integer d.2)
    | .string_list max_count =>
      let items := (outs desc.value_out).items
      if items.length < max_count then some (outs.set desc.value_out (.list (items ++ [value])))
      else some outs

def env_true (value : Bytes) : Bool :=
  casecmp value [49] || casecmp value [116, 114, 117, 101] || casecmp value [121, 101, 115] ||
    casecmp value [111, 110]

def apply_env_var (outs : Outs F) (desc : Desc) : Outs F :=
  match desc.env_var.bind p.getenv with
  | none => outs
  | some value =>
    match desc.kind with
    | .flag => outs.set desc.value_out (.flag (env_true value))
    | .string _ => outs.set desc.value_out (.string (some value))
    | .integer =>
      if (strtol value).2 = [] then outs.set desc.value_out (.integer (strtol value).1) else outs
    | .float =>
      if (p.strtod value).2 = [] then outs.set desc.value_out (.float (p.strtod value).1)
      else outs
    | _ => outs

def apply_env_vars (outs : Outs F) (args : List Desc) : Outs F := args.foldl (apply_env_var p) outs

end

def by_short (key : Bytes) (desc : Desc) : Bool := desc.short_name = some key

def by_name (key : Bytes) (desc : Desc) : Bool := desc.name = key

def find_desc (fits : Desc → Bool) : List Desc → Option (ℕ × Desc)
  | [] => none
  | desc :: descs =>
    if fits desc then some (0, desc) else (find_desc fits descs).map fun r => (r.1 + 1, r.2)

structure Config where
  global_optional_args : List Desc
  required_args : List Desc
  subcommands : List SubCommand

/-- `pending` is an option whose value is the next argument. -/
structure State (F : Type) where
  outs : Outs F
  current_subcommand : Option ℕ
  active_optional : List Desc
  active_required : List Desc
  required_args_idx : ℕ
  seen_global : List Bool
  seen_subcommand : Option (List Bool)
  stop_options : Bool
  pending : Option Desc

/-- What is left of a run. -/
structure Result (F : Type) where
  returned : Bool
  outs : Outs F
  selected_subcommand : Option ℕ
  seen_global : List Bool
  seen_subcommand : Option (List Bool)

inductive Outcome (F : Type) where
  | crash
  | ended (result : Result F)

abbrev Run (F α : Type) := Except (Outcome F) α

def State.result (st : State F) (returned : Bool) : Outcome F :=
  .ended ⟨returned, st.outs, st.current_subcommand, st.seen_global, st.seen_subcommand⟩

def print_help {α : Type} (st : State F) : Run F α := .error (st.result false)

def see_global (st : State F) (i : ℕ) : State F :=
  { st with seen_global := st.seen_global.set i true }

def see_subcommand (st : State F) (i : ℕ) : Run F (State F) :=
  match st.seen_subcommand with
  | none => .error .crash
  | some seen => .ok { st with seen_subcommand := some (seen.set i true) }

def apply_or_help (p : Platform F) (st : State F) (desc : Desc) (value : Bytes) : Run F (State F) :=
  match apply_value p st.outs desc value with
  | some outs => .ok { st with outs := outs }
  | none => print_help st

def Desc.is_flag (desc : Desc) : Bool :=
  match desc.kind with
  | .flag => true
  | _ => false

def Desc.is_list (desc : Desc) : Option ℕ :=
  match desc.kind with
  | .string_list max_count => some max_count
  | _ => none

def raise_flag (st : State F) (desc : Desc) : State F :=
  { st with outs := st.outs.set desc.value_out (.flag true) }

section
variable (p : Platform F) (cfg : Config)

def take_option (st : State F) (desc : Desc) : State F :=
  if desc.is_flag then raise_flag st desc else { st with pending := some desc }

def lookup_option (st : State F) (fits : Desc → Bool) : Run F (State F × Desc) :=
  match find_desc fits st.active_optional with
  | some (i, desc) =>
    if st.current_subcommand.isSome then do
      let st ← see_subcommand st i
      return (st, desc)
    else .ok (see_global st i, desc)
  | none =>
    if st.current_subcommand.isSome then
      match find_desc fits cfg.global_optional_args with
      | some (i, desc) => .ok (see_global st i, desc)
      | none => print_help st
    else print_help st

def lookup_bundled (st : State F) (fits : Desc → Bool) : Run F (State F × Desc) :=
  match find_desc fits st.active_optional with
  | some (i, desc) => do
    let st ← see_subcommand st i
    return (st, desc)
  | none =>
    if st.current_subcommand.isSome then
      match find_desc fits cfg.global_optional_args with
      | some (i, desc) => .ok (see_global st i, desc)
      | none => print_help st
    else print_help st

def parse_bundle : State F → Bytes → Run F (State F)
  | st, [] => .ok st
  | st, k :: keys => do
    let (st, desc) ← lookup_bundled cfg st (by_short [k])
    if desc.is_flag then parse_bundle (raise_flag st desc) keys
    else if keys ≠ [] then print_help st
    else return { st with pending := some desc }

def parse_option (st : State F) (fits : Desc → Bool) : Run F (State F) := do
  let (st, desc) ← lookup_option cfg st fits
  return take_option st desc

def parse_option_with_value (st : State F) (key value : Bytes) : Run F (State F) := do
  let (st, desc) ← lookup_option cfg st (by_name key)
  if desc.is_flag then print_help st else apply_or_help p st desc value

def select_subcommand (name : Bytes) : List SubCommand → Option (ℕ × SubCommand)
  | [] => none
  | sub :: subs =>
    if sub.name = name then some (0, sub)
    else (select_subcommand name subs).map fun r => (r.1 + 1, r.2)

def enter_subcommand (st : State F) (i : ℕ) (sub : SubCommand) : State F :=
  { st with
    current_subcommand := some i, active_optional := sub.optional_args
    active_required := sub.required_args, required_args_idx := 0
    seen_subcommand :=
      if sub.optional_args = [] then st.seen_subcommand
      else some (List.replicate sub.optional_args.length false)
    outs := apply_env_vars p st.outs sub.optional_args }

def parse_positional (st : State F) (arg : Bytes) : Run F (State F) :=
  if st.current_subcommand = none ∧ cfg.subcommands ≠ [] then
    match select_subcommand arg cfg.subcommands with
    | some (i, sub) => .ok (enter_subcommand p st i sub)
    | none => print_help st
  else
    match st.active_required[st.required_args_idx]? with
    | none => print_help st
    | some desc =>
      match desc.is_list with
      | none =>
        apply_or_help p { st with required_args_idx := st.required_args_idx + 1 } desc arg
      | some max_count =>
        if (st.outs desc.value_out).items.length < max_count then apply_or_help p st desc arg
        else
          match st.active_required[st.required_args_idx + 1]? with
          | none => print_help { st with required_args_idx := st.required_args_idx + 1 }
          | some desc =>
            apply_or_help p { st with required_args_idx := st.required_args_idx + 2 } desc arg

/-- An argument in its turn. -/
def parse_arg (st : State F) (arg : Bytes) : Run F (State F) :=
  match st.pending with
  | some desc => apply_or_help p { st with pending := none } desc arg
  | none =>
    if st.stop_options then parse_positional p cfg st arg
    else
      match lex_token arg with
      | .dash_dash => .ok { st with stop_options := true }
      | .help => print_help st
      | .option key => parse_option cfg st (by_name key)
      | .option_with_value key value => parse_option_with_value p cfg st key value
      | .short_option key =>
        if 1 < key.length then parse_bundle cfg st key else parse_option cfg st (by_short key)
      | .positional => parse_positional p cfg st arg

def missing_option : List Desc → List Bool → Bool
  | [], _ => false
  | desc :: descs, seen =>
    (desc.is_required && !seen.headD false) || missing_option descs (seen.drop 1)

def positionals_given (st : State F) : Bool :=
  match st.active_required[st.required_args_idx]? with
  | none => true
  | some desc =>
    desc.is_list.isSome && (st.outs desc.value_out).items ≠ [] &&
      (st.active_required[st.required_args_idx + 1]?).isNone

/-- What is checked behind the last argument. -/
def finish (st : State F) : Outcome F :=
  if st.pending.isSome then st.result false
  else if !positionals_given st then st.result false
  else if missing_option cfg.global_optional_args st.seen_global then st.result false
  else if st.current_subcommand.isSome ∧
      missing_option st.active_optional (st.seen_subcommand.getD []) then st.result false
  else if cfg.subcommands ≠ [] ∧ st.current_subcommand = none then st.result false
  else st.result true

def initial (outs : Outs F) : State F where
  outs := apply_env_vars p outs cfg.global_optional_args
  current_subcommand := none
  active_optional := cfg.global_optional_args
  active_required := if cfg.subcommands = [] then cfg.required_args else []
  required_args_idx := 0
  seen_global := List.replicate cfg.global_optional_args.length false
  seen_subcommand := none
  stop_options := false
  pending := none

def parse_args (st : State F) (args : List Bytes) : Run F (State F) := args.foldlM (parse_arg p cfg) st

def ending : Run F (State F) → Outcome F
  | .error outcome => outcome
  | .ok st => finish cfg st

/-- The arguments behind the name of the program. -/
def active_args (argv : List Bytes) : List Bytes :=
  if (argv.drop 1).any (fun arg => arg.head? = some 64) then
    (expand_args p.read_file argv).drop 1
  else argv.drop 1

def cmd_arger_parse_internal (outs : Outs F) (argv : List Bytes) : Outcome F :=
  ending cfg (parse_args p cfg (initial p cfg outs) (active_args p argv))

end

end SaltsUtils.Cmd
