import SaltsUtils.Mustache.Compile

/-!
# Applying a compiled template

`mustache_process_impl` of `src/mustache/src/mustache.c` for data without lambdas and
callbacks that succeed. The stack of nodes is the context. A partial takes over the program
until it exits.
-/

set_option autoImplicit false

namespace SaltsUtils.Mustache

variable {N : Type}

/-- The data. A list ends where a child has no node, and a partial is given by its text, which
the program has compiled. A node is dumped as the pieces that are handed to the renderer. -/
structure Provider (N : Type) where
  get_root : N
  get_child_by_name : N → Bytes → Option N
  get_child_by_index : N → ℕ → Option N
  dump : N → List Bytes
  partial_text : Bytes → Option Bytes

/-- A call of the renderer. -/
structure Out where
  escaped : Bool
  text : Bytes
deriving DecidableEq

/-- What is kept of a template while a partial runs. -/
structure Frame where
  insns : Bytes
  reg_pc : ℕ
  indent_len : ℕ
  reg_jmpaddr : ℕ
deriving DecidableEq

structure Machine (N : Type) where
  insns : Bytes
  reg_pc : ℕ
  reg_jmpaddr : ℕ
  reg_node : Option N
  node_stack : List N
  index_stack : List ℕ
  partial_stack : List Frame
  indent_buffer : Bytes
  partial_depth : ℕ
  output : List Out
deriving DecidableEq

inductive Next (N : Type)
  | more (m : Machine N)
  | done (m : Machine N)
  | failed
deriving DecidableEq

def decode_num (insns : Bytes) (off : ℕ) : Option (ℕ × ℕ) :=
  (Vlq.read 0 (insns.drop off)).map fun r => (r.1, off + r.2)

def decode_string (insns : Bytes) (off : ℕ) : Option (Bytes × ℕ) := do
  let (len, off) ← decode_num insns off
  if off + len ≤ insns.length then return (slice insns off (off + len), off + len) else none

def decode_names (insns : Bytes) : ℕ → ℕ → Option (List Bytes × ℕ)
  | 0, off => some ([], off)
  | n + 1, off => do
    let (name, off) ← decode_string insns off
    let (names, off) ← decode_names insns n off
    return (name :: names, off)

section
variable (pr : Provider N)

def get_partial_template (name : Bytes) : Option Bytes := (pr.partial_text name).bind mustache_compile

def walk_stack (name : Bytes) : List N → Option N
  | [] => none
  | node :: stack =>
    match pr.get_child_by_name node name with
    | some child => some child
    | none => walk_stack name stack

def resolve_names (stack : List N) : List Bytes → Option N
  | [] => stack.head?
  | name :: names =>
    names.foldl (fun node name => node.bind fun n => pr.get_child_by_name n name)
      (walk_stack pr name stack)

namespace Machine

variable (m : Machine N)

def emit (outs : List Out) : Machine N := { m with output := m.output ++ outs }

variable (pc : ℕ)

def literal : Option (Machine N) := do
  let (text, pc) ← decode_string m.insns pc
  return { m.emit [⟨false, text⟩] with reg_pc := pc }

def resolve : Option (Machine N) := do
  let (n_names, pc) ← decode_num m.insns pc
  let (names, pc) ← decode_names m.insns n_names pc
  return { m with reg_pc := pc, reg_node := resolve_names pr m.node_stack names }

def resolve_setjmp : Option (Machine N) := do
  let (jmp_len, pc) ← decode_num m.insns pc
  resolve pr { m with reg_jmpaddr := pc + jmp_len } pc

def dump (escaped : Bool) (pc : ℕ) : Machine N :=
  match m.reg_node with
  | none => { m with reg_pc := pc }
  | some node => { m.emit ((pr.dump node).map fun text => ⟨escaped, text⟩) with reg_pc := pc }

def enter : Machine N :=
  match m.reg_node with
  | none => { m with reg_pc := m.reg_jmpaddr }
  | some node =>
    match pr.get_child_by_index node 0 with
    | none => { m with reg_pc := m.reg_jmpaddr }
    | some item =>
      { m with
        reg_pc := pc, reg_node := some item, node_stack := item :: node :: m.node_stack
        index_stack := 0 :: m.index_stack }

/-- The next item, or the end of the section. -/
def leave : Option (Machine N) := do
  let (jmp_len, behind) ← decode_num m.insns pc
  match m.index_stack, m.node_stack with
  | index :: index_stack, _ :: node :: node_stack =>
    let index := (index + 1) % 2 ^ 32
    match pr.get_child_by_index node index with
    | some item =>
      return { m with
        reg_pc := pc - jmp_len, reg_node := some item, node_stack := item :: node :: node_stack
        index_stack := index :: index_stack }
    | none =>
      return { m with
        reg_pc := behind, reg_node := none, node_stack := node_stack, index_stack := index_stack }
  | _, _ => none

def enterinv : Machine N :=
  match m.reg_node.bind fun node => pr.get_child_by_index node 0 with
  | some _ => { m with reg_pc := m.reg_jmpaddr }
  | none => { m with reg_pc := pc }

def lambda : Option (Machine N) :=
  if pc + 16 ≤ m.insns.length then some { m with reg_pc := pc + 16 } else none

def enter_partial_template (max_render_depth pc : ℕ) : Option (Next N) := do
  let (name, pc) ← decode_string m.insns pc
  let (indent, pc) ← decode_string m.insns pc
  match get_partial_template pr name with
  | none => return .more { m with reg_pc := pc }
  | some insns =>
    if max_render_depth ≤ m.partial_depth then return .failed
    else
      return .more { m with
        insns := insns, reg_pc := 0
        partial_stack := ⟨m.insns, pc, indent.length, m.reg_jmpaddr⟩ :: m.partial_stack
        indent_buffer := m.indent_buffer ++ indent, partial_depth := m.partial_depth + 1 }

def indent : Machine N :=
  if m.indent_buffer = [] then { m with reg_pc := pc }
  else { m.emit [⟨false, m.indent_buffer⟩] with reg_pc := pc }

def exit : Next N :=
  match m.partial_stack with
  | [] => .done { m with reg_pc := pc }
  | frame :: partial_stack =>
    .more { m with
      insns := frame.insns, reg_pc := frame.reg_pc, reg_jmpaddr := frame.reg_jmpaddr
      partial_stack := partial_stack
      indent_buffer := m.indent_buffer.take (m.indent_buffer.length - frame.indent_len)
      partial_depth := m.partial_depth - 1 }

end Machine

/-- One round of the loop. -/
def step (max_render_depth : ℕ) (m : Machine N) : Option (Next N) := do
  let (opcode, pc) ← decode_num m.insns m.reg_pc
  match opcode with
  | 0 => return m.exit pc
  | 1 => (m.literal pc).map .more
  | 2 => (m.resolve_setjmp pr pc).map .more
  | 3 => (m.resolve pr pc).map .more
  | 4 => return .more (m.dump pr false pc)
  | 5 => return .more (m.dump pr true pc)
  | 6 => return .more (m.enter pr pc)
  | 7 => (m.leave pr pc).map .more
  | 8 => return .more (m.enterinv pr pc)
  | 9 => m.enter_partial_template pr max_render_depth pc
  | 10 => return .more (m.indent pc)
  | 11 => (m.lambda pc).map .more
  | _ => return .more { m with reg_pc := pc }

/-- The machine when the loop is over: `some none` is an error, and `none` a run that is not
over after the rounds or has left the program. -/
def process_rounds (max_render_depth : ℕ) : ℕ → Machine N → Option (Option (Machine N))
  | 0, _ => none
  | rounds + 1, m =>
    match step pr max_render_depth m with
    | none => none
    | some .failed => some none
    | some (.done m) => some (some m)
    | some (.more m) => process_rounds max_render_depth rounds m

def start (insns : Bytes) : Machine N where
  insns := insns
  reg_pc := 0
  reg_jmpaddr := 0
  reg_node := some pr.get_root
  node_stack := [pr.get_root]
  index_stack := []
  partial_stack := []
  indent_buffer := []
  partial_depth := 0
  output := []

def default_max_render_depth : ℕ := 128

def mustache_process (insns : Bytes) (rounds : ℕ) : Option (Option (Machine N)) :=
  process_rounds pr default_max_render_depth rounds (start pr insns)

end

end SaltsUtils.Mustache
