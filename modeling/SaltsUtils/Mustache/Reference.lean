import SaltsUtils.Mustache.Process

/-!
# What a template means

The tags of a template nest into a forest, which is rendered by recursion: the text between
tags, variables, the bodies of sections once for each item, partials in their place. How
much code a section takes does not come into it.
-/

set_option autoImplicit false

namespace SaltsUtils.Mustache

variable {N : Type}

/-- The last part stands behind those before it. -/
inductive Forest
  | nil
  | literal (before : Forest) (text : Bytes)
  | var (before : Forest) (escaped : Bool) (name : Bytes)
  | block (before : Forest) (inverted : Bool) (name : Bytes) (text_beg text_end : ℕ) (body : Forest)
  | embed (before : Forest) (name indent : Bytes)
  | line (before : Forest)
deriving DecidableEq

/-- A section whose end has not come. -/
structure Opened where
  before : Forest
  inverted : Bool
  name : Bytes
  text_beg : ℕ

/-- The sections that are open, the innermost first, and what has been read since. -/
structure Nesting where
  stack : List Opened
  forest : Forest
  off : ℕ

section
variable (text : Bytes)

def nest_literal (n : Nesting) (tag : TagInfo) : Forest :=
  if n.off < tag.beg then .literal n.forest (slice text n.off tag.beg) else n.forest

/-- A tag ends the innermost section, if it is of its kind. -/
def nest_close (n : Nesting) (forest : Forest) (inverted : Bool) (tag : TagInfo) : Option Nesting :=
  match n.stack with
  | [] => none
  | o :: stack =>
    if o.inverted = inverted then
      some ⟨stack, .block o.before inverted o.name o.text_beg tag.beg forest, tag.stop⟩
    else none

def nest_tag (n : Nesting) (tag : TagInfo) : Option Nesting :=
  let forest := nest_literal text n tag
  match tag.type with
  | .var => some ⟨n.stack, .var forest true (tag.name text), tag.stop⟩
  | .verbatim_var | .verbatim_var2 => some ⟨n.stack, .var forest false (tag.name text), tag.stop⟩
  | .open_section => some ⟨⟨forest, false, tag.name text, tag.stop⟩ :: n.stack, .nil, tag.stop⟩
  | .open_section_inv => some ⟨⟨forest, true, tag.name text, tag.stop⟩ :: n.stack, .nil, tag.stop⟩
  | .close_section => nest_close n forest false tag
  | .close_section_inv => nest_close n forest true tag
  | .partial_tag =>
    some ⟨n.stack, .embed forest (tag.name text) (partial_indent text tag), tag.stop⟩
  | .indent => some ⟨n.stack, .line forest, tag.stop⟩
  | _ => some ⟨n.stack, forest, tag.stop⟩

def nest : Nesting → List TagInfo → Option Forest
  | _, [] => none
  | n, tag :: tags =>
    if tag.type = .none then if n.stack = [] then some (nest_literal text n tag) else none
    else (nest_tag text n tag).bind fun n => nest n tags

end

/-- The forest of the tags of a text. -/
def template (text : Bytes) : Option Forest :=
  (mustache_parse text).bind (nest text ⟨[], .nil, 0⟩)

section
variable (pr : Provider N)

def lookup (context : List N) (name : Bytes) : Option N :=
  match name_tokens name with
  | [] => context.head?
  | first :: rest =>
    (context.findSome? fun node => pr.get_child_by_name node first).bind
      (rest.foldlM fun node name => pr.get_child_by_name node name)

def items_from (node : N) : ℕ → ℕ → List N
  | 0, _ => []
  | count + 1, i =>
    match pr.get_child_by_index node i with
    | none => []
    | some item => item :: items_from node count (i + 1)

def items (node : N) : List N := items_from pr node (2 ^ 32) 0

def render_var (context : List N) (escaped : Bool) (name : Bytes) : List Out :=
  match lookup pr context name with
  | none => []
  | some node => (pr.dump node).map fun text => ⟨escaped, text⟩

/-- The contexts that the body of a section is rendered in, given what its name stands for. -/
def entered (context : List N) (inverted : Bool) (node : Option N) : List (List N) :=
  match inverted, node with
  | false, none => []
  | false, some node => (items pr node).map fun item => item :: node :: context
  | true, none => [context]
  | true, some node => if items pr node = [] then [context] else []

/-- `none` is a rendering that meets the limit of the depth, in which `embedded` is the
rendering of a partial. -/
def render_with (embedded : Bytes → List N → Option (List Out)) :
    Forest → List N → Option (List Out)
  | .nil, _ => some []
  | .literal before text, context => do
    return (← render_with embedded before context) ++ [⟨false, text⟩]
  | .var before escaped name, context => do
    return (← render_with embedded before context) ++ render_var pr context escaped name
  | .block before inverted name _ _ body, context => do
    let outs ← render_with embedded before context
    let parts ← (entered pr context inverted (lookup pr context name)).mapM fun context =>
      render_with embedded body context
    return outs ++ parts.flatten
  | .embed before name _, context => do
    let outs ← render_with embedded before context
    match pr.partial_text name with
    | none => return outs
    | some text => return outs ++ (← embedded text context)
  | .line before, context => render_with embedded before context

/-- A text that is no template is no partial. -/
def render : ℕ → Forest → List N → Option (List Out)
  | 0 => render_with pr fun text _ => if template text = none then some [] else none
  | depth + 1 => render_with pr fun text context =>
    match template text with
    | none => some []
    | some forest => render depth forest context

def reference (text : Bytes) : Option (List Out) :=
  (template text).bind fun forest => render pr default_max_render_depth forest [pr.get_root]

end

/-- What stands behind the jump of a section whose body takes so many bytes. -/
def section_size (inverted : Bool) (name : Bytes) (body : ℕ) : ℕ :=
  (tagname_bytes name).length + 18 + if inverted then body else body + 1 + Vlq.size (body + 1)

def Forest.size : Forest → ℕ
  | .nil => 0
  | .literal before text => before.size + 1 + (string_bytes text).length
  | .var before _ name => before.size + 2 + (tagname_bytes name).length
  | .block before inverted name _ _ body =>
    let jump := section_size inverted name body.size
    before.size + 1 + Vlq.size jump + jump
  | .embed before name indent =>
    before.size + 1 + (string_bytes name).length + (string_bytes indent).length
  | .line before => before.size + 1

/-- The distance is still as wide when the bytes of the distance are added to it. -/
def Steady (jump : ℕ) : Prop := Vlq.size (jump + Vlq.size jump) = Vlq.size jump

instance (jump : ℕ) : Decidable (Steady jump) := inferInstanceAs (Decidable (_ = _))

def Forest.Fits : Forest → Prop
  | .nil => True
  | .literal before _ => before.Fits
  | .var before _ _ => before.Fits
  | .block before inverted name _ _ body =>
    before.Fits ∧ body.Fits ∧ Steady (section_size inverted name body.size)
  | .embed before _ _ => before.Fits
  | .line before => before.Fits

/-- No partial stands behind white space. -/
def Forest.Flush : Forest → Prop
  | .nil => True
  | .literal before _ => before.Flush
  | .var before _ _ => before.Flush
  | .block before _ _ _ _ body => before.Flush ∧ body.Flush
  | .embed before _ indent => before.Flush ∧ indent = []
  | .line before => before.Flush

instance Forest.decidable_fits : (f : Forest) → Decidable f.Fits
  | .nil => .isTrue trivial
  | .literal before _ => decidable_fits before
  | .var before _ _ => decidable_fits before
  | .block before _ _ _ _ body =>
    have := decidable_fits before
    have := decidable_fits body
    inferInstanceAs (Decidable (_ ∧ _ ∧ _))
  | .embed before _ _ => decidable_fits before
  | .line before => decidable_fits before

instance Forest.decidable_flush : (f : Forest) → Decidable f.Flush
  | .nil => .isTrue trivial
  | .literal before _ => decidable_flush before
  | .var before _ _ => decidable_flush before
  | .block before _ _ _ _ body =>
    have := decidable_flush before
    have := decidable_flush body
    inferInstanceAs (Decidable (_ ∧ _))
  | .embed before _ _ =>
    have := decidable_flush before
    inferInstanceAs (Decidable (_ ∧ _))
  | .line before => decidable_flush before

/-- The sections of a text keep the widths of their distances, and its partials stand behind
no white space. -/
def Sound (text : Bytes) : Prop := ∀ f, template text = some f → f.Fits ∧ f.Flush

theorem sound_of_all {text : Bytes}
    (h : (template text).all (fun f => decide (f.Fits ∧ f.Flush)) = true) : Sound text := by
  intro f hf
  rw [hf] at h
  exact of_decide_eq_true h

end SaltsUtils.Mustache
