import Mathlib.Logic.Relation
import SaltsUtils.Mustache.Layout
import SaltsUtils.Mustache.Nested

/-!
# Compiled templates render as they should

Where the code of a forest lies in a program, the machine runs through it with the output of
the rendering, and its stacks are back where they were. The code only names distances, so it
does not matter where it lies.
-/

set_option autoImplicit false

namespace SaltsUtils.Mustache

variable {N : Type}

def CodeAt (insns : Bytes) (pc : ℕ) (code : Bytes) : Prop := ∃ behind, insns.drop pc = code ++ behind

variable {code text : Bytes}

section
variable {insns : Bytes} {pc : ℕ}

theorem CodeAt.left {a b : Bytes} (h : CodeAt insns pc (a ++ b)) : CodeAt insns pc a := by
  obtain ⟨behind, h⟩ := h
  exact ⟨b ++ behind, by rw [h, List.append_assoc]⟩

theorem CodeAt.right {a b : Bytes} (h : CodeAt insns pc (a ++ b)) : CodeAt insns (pc + a.length) b := by
  obtain ⟨behind, h⟩ := h
  refine ⟨behind, ?_⟩
  rw [← List.drop_drop, h, List.append_assoc, List.drop_left]

theorem CodeAt.length_le (h : CodeAt insns pc code) (hne : code ≠ []) :
    pc + code.length ≤ insns.length := by
  obtain ⟨behind, h⟩ := h
  have hlen := congrArg List.length h
  have hpos := List.length_pos_of_ne_nil hne
  rw [List.length_drop, List.length_append] at hlen
  omega

theorem decode_num_at {num : ℕ} (h : CodeAt insns pc (Vlq.write num)) :
    decode_num insns pc = some (num, pc + (Vlq.write num).length) := by
  obtain ⟨behind, h⟩ := h
  rw [decode_num, h, Vlq.read_write]
  rfl

theorem decode_op_at {op : ℕ} (hop : op < 128) (h : CodeAt insns pc [op]) :
    decode_num insns pc = some (op, pc + 1) := by
  obtain ⟨behind, h⟩ := h
  rw [decode_num, h, List.singleton_append, Vlq.read, if_neg (Nat.not_le.mpr hop), Nat.zero_add]
  rfl

theorem write_ne_nil (num : ℕ) : Vlq.write num ≠ [] :=
  List.append_ne_nil_of_right_ne_nil _ (List.cons_ne_nil _ _)

theorem slice_at (h : CodeAt insns pc code) : slice insns pc (pc + code.length) = code := by
  obtain ⟨behind, h⟩ := h
  rw [slice, h, Nat.add_sub_cancel_left, List.take_left]

theorem decode_string_at (h : CodeAt insns pc (string_bytes text)) :
    decode_string insns pc = some (text, pc + (string_bytes text).length) := by
  have hlen := h.length_le (List.append_ne_nil_of_left_ne_nil (write_ne_nil _) _)
  rw [string_bytes, List.length_append] at hlen ⊢
  rw [decode_string, decode_num_at h.left]
  change (if _ + text.length ≤ insns.length then some (slice insns _ (_ + text.length), _) else
    none) = _
  rw [if_pos (by omega), slice_at h.right, Nat.add_assoc]

theorem decode_names_at {names : List Bytes} (h : CodeAt insns pc (names.flatMap string_bytes)) :
    decode_names insns names.length pc =
      some (names, pc + (names.flatMap string_bytes).length) := by
  induction names generalizing pc with
  | nil => rfl
  | cons name names ih =>
    rw [List.length_cons, decode_names, decode_string_at h.left]
    change (decode_names insns names.length _ >>= fun r => some (name :: r.1, r.2)) = _
    rw [ih h.right, List.flatMap_cons, List.length_append, Nat.add_assoc]
    rfl

end

section
variable (pr : Provider N)

theorem walk_stack_eq (name : Bytes) (stack : List N) :
    walk_stack pr name stack = stack.findSome? fun node => pr.get_child_by_name node name := by
  induction stack with
  | nil => rfl
  | cons node stack ih =>
    rw [walk_stack, List.findSome?_cons, ih]
    cases pr.get_child_by_name node name <;> rfl

theorem foldl_bind_eq {α β : Type} (f : α → β → Option α) (bs : List β) (a : Option α) :
    bs.foldl (fun a b => a.bind fun x => f x b) a = a.bind fun x => bs.foldlM f x := by
  induction bs generalizing a with
  | nil => cases a <;> rfl
  | cons b bs ih =>
    rw [List.foldl_cons, ih]
    cases a with
    | none => rfl
    | some x => rfl

theorem resolve_names_eq (stack : List N) (name : Bytes) :
    resolve_names pr stack (name_tokens name) = lookup pr stack name := by
  rw [lookup]
  cases name_tokens name with
  | nil => rfl
  | cons first rest =>
    rw [resolve_names, foldl_bind_eq, walk_stack_eq]

variable (max_render_depth : ℕ)

def Steps (m m' : Machine N) : Prop := step pr max_render_depth m = some (.more m')

abbrev Reaches : Machine N → Machine N → Prop := Relation.ReflTransGen (Steps pr max_render_depth)

def Machine.past (m : Machine N) (len : ℕ) (outs : List Out) (node : Option N) (jmpaddr : ℕ) :
    Machine N :=
  { m with
    reg_pc := m.reg_pc + len, output := m.output ++ outs, reg_node := node, reg_jmpaddr := jmpaddr }

theorem past_past (m : Machine N) (len len' : ℕ) (outs outs' : List Out) (node node' : Option N)
    (jmpaddr jmpaddr' : ℕ) :
    (m.past len outs node jmpaddr).past len' outs' node' jmpaddr' =
      m.past (len + len') (outs ++ outs') node' jmpaddr' := by
  unfold Machine.past
  rw [Nat.add_assoc, List.append_assoc]

def Runs (m : Machine N) (len : ℕ) (outs : List Out) : Prop :=
  ∃ node jmpaddr, Reaches pr max_render_depth m (m.past len outs node jmpaddr)

variable {pr max_render_depth} {m : Machine N}

theorem Runs.nil : Runs pr max_render_depth m 0 [] := by
  refine ⟨m.reg_node, m.reg_jmpaddr, ?_⟩
  have hm : m.past 0 [] m.reg_node m.reg_jmpaddr = m := by
    rw [Machine.past, List.append_nil]
    rfl
  rw [hm]

variable {len : ℕ} {outs : List Out}

theorem Runs.append {len' : ℕ} {outs' : List Out} (h : Runs pr max_render_depth m len outs)
    (h' : ∀ node jmpaddr, Runs pr max_render_depth (m.past len outs node jmpaddr) len' outs') :
    Runs pr max_render_depth m (len + len') (outs ++ outs') := by
  obtain ⟨node, jmpaddr, hr⟩ := h
  obtain ⟨node', jmpaddr', hr'⟩ := h' node jmpaddr
  rw [past_past] at hr'
  exact ⟨node', jmpaddr', hr.trans hr'⟩

theorem Runs.still
    (h : step pr max_render_depth m = some (.more (m.past len outs m.reg_node m.reg_jmpaddr))) :
    Runs pr max_render_depth m len outs := ⟨m.reg_node, m.reg_jmpaddr, .single h⟩

variable {insns : Bytes} {pc : ℕ}

theorem CodeAt.behind_op {op : ℕ} (h : CodeAt insns pc ([op] ++ code)) :
    CodeAt insns (pc + 1) code := h.right

theorem literal_runs (h : CodeAt m.insns m.reg_pc ([op_literal] ++ string_bytes text)) :
    Runs pr max_render_depth m (1 + (string_bytes text).length) [⟨false, text⟩] := by
  refine .still ?_
  rw [step, decode_op_at (by decide) h.left]
  change (m.literal (m.reg_pc + 1)).map Next.more = _
  rw [Machine.literal, decode_string_at h.behind_op, Machine.past, ← Nat.add_assoc]
  rfl

variable {name : Bytes}

theorem resolve_at (h : CodeAt m.insns pc (tagname_bytes name)) : m.resolve pr pc = some { m with
      reg_pc := pc + (tagname_bytes name).length, reg_node := lookup pr m.node_stack name } := by
  rw [tagname_bytes] at h ⊢
  rw [Machine.resolve, decode_num_at h.left]
  change (decode_names m.insns (name_tokens name).length _ >>= fun r => _) = _
  rw [decode_names_at h.right, List.length_append, Nat.add_assoc]
  change some { m with reg_pc := _, reg_node := resolve_names pr m.node_stack (name_tokens name) } = _
  rw [resolve_names_eq]

/-- The pieces of a node, or nothing. -/
def dumped (pr : Provider N) (escaped : Bool) : Option N → List Out
  | none => []
  | some node => (pr.dump node).map fun text => ⟨escaped, text⟩

theorem dump_runs {escaped : Bool}
    (h : CodeAt m.insns m.reg_pc [if escaped then op_outescaped else op_outverbatim]) :
    Runs pr max_render_depth m 1 (dumped pr escaped m.reg_node) := by
  refine .still ?_
  have hm : m.dump pr escaped (m.reg_pc + 1) =
      m.past 1 (dumped pr escaped m.reg_node) m.reg_node m.reg_jmpaddr := by
    cases hn : m.reg_node with
    | none => simp only [Machine.dump, dumped, Machine.past, hn, List.append_nil]
    | some node => simp only [Machine.dump, dumped, Machine.past, Machine.emit, hn]
  cases escaped with
  | true =>
    rw [step, decode_op_at (by decide) h]
    exact congrArg (fun m => some (Next.more m)) hm
  | false =>
    rw [step, decode_op_at (by decide) h]
    exact congrArg (fun m => some (Next.more m)) hm

theorem var_runs {escaped : Bool}
    (h : CodeAt m.insns m.reg_pc ([op_resolve] ++ tagname_bytes name ++
      [if escaped then op_outescaped else op_outverbatim])) :
    Runs pr max_render_depth m (1 + (tagname_bytes name).length + 1)
      (render_var pr m.node_stack escaped name) := by
  have hstep : step pr max_render_depth m = some (.more
      (m.past (1 + (tagname_bytes name).length) [] (lookup pr m.node_stack name) m.reg_jmpaddr)) := by
    rw [step, decode_op_at (by decide) h.left.left]
    change (m.resolve pr (m.reg_pc + 1)).map Next.more = _
    rw [resolve_at h.left.behind_op, Machine.past, List.append_nil, ← Nat.add_assoc]
    rfl
  have hdump := h.right
  rw [List.length_append] at hdump
  have hrun : Runs pr max_render_depth
      (m.past (1 + (tagname_bytes name).length) [] (lookup pr m.node_stack name) m.reg_jmpaddr) 1
      (render_var pr m.node_stack escaped name) := dump_runs hdump
  obtain ⟨node, jmpaddr, hr⟩ := hrun
  rw [past_past, List.nil_append] at hr
  exact ⟨node, jmpaddr, .head hstep hr⟩

theorem line_runs (hi : m.indent_buffer = []) (h : CodeAt m.insns m.reg_pc [op_indent]) :
    Runs pr max_render_depth m 1 [] := by
  refine .still ?_
  rw [step, decode_op_at (by decide) h]
  change some (Next.more (m.indent (m.reg_pc + 1))) = _
  rw [Machine.indent, if_pos hi, Machine.past, List.append_nil]

theorem opener_reaches {jump : ℕ} {B L : Bytes} (hb : B.length = 8) (hl : L.length = 8)
    (h : CodeAt m.insns m.reg_pc
      ([op_resolve_setjmp] ++ Vlq.write jump ++ (tagname_bytes name ++ ([op_lambda] ++ B) ++ L))) :
    Reaches pr max_render_depth m
      (m.past (1 + Vlq.size jump + ((tagname_bytes name).length + 17)) []
        (lookup pr m.node_stack name) (m.reg_pc + 1 + Vlq.size jump + jump)) := by
  have hname := h.right.left.left
  have hlambda := h.right
  rw [List.append_assoc] at hlambda
  have hop := hlambda.right
  rw [List.length_append, List.length_singleton, Vlq.write_length, ← Nat.add_assoc] at hname hop
  have hstep : step pr max_render_depth m = some (.more
      (m.past (1 + Vlq.size jump + (tagname_bytes name).length) [] (lookup pr m.node_stack name)
        (m.reg_pc + 1 + Vlq.size jump + jump))) := by
    rw [step, decode_op_at (by decide) h.left.left]
    change (m.resolve_setjmp pr (m.reg_pc + 1)).map Next.more = _
    rw [Machine.resolve_setjmp, decode_num_at h.left.behind_op, Vlq.write_length]
    change (Machine.resolve pr _ (m.reg_pc + 1 + Vlq.size jump)).map Next.more = _
    rw [resolve_at (m := { m with reg_jmpaddr := m.reg_pc + 1 + Vlq.size jump + jump }) hname,
      Machine.past, List.append_nil, ← Nat.add_assoc, ← Nat.add_assoc]
    rfl
  have hlen := hop.length_le (List.append_ne_nil_of_left_ne_nil (List.cons_ne_nil _ _) _)
  rw [List.length_append, List.length_append, List.length_singleton, hb, hl] at hlen
  have hpast : step pr max_render_depth (m.past (1 + Vlq.size jump + (tagname_bytes name).length) []
      (lookup pr m.node_stack name) (m.reg_pc + 1 + Vlq.size jump + jump)) = some (.more
      (m.past (1 + Vlq.size jump + ((tagname_bytes name).length + 17)) []
        (lookup pr m.node_stack name) (m.reg_pc + 1 + Vlq.size jump + jump))) := by
    have hpc : m.reg_pc + (1 + Vlq.size jump + (tagname_bytes name).length) =
        m.reg_pc + 1 + Vlq.size jump + (tagname_bytes name).length := by omega
    have hroom : m.reg_pc + (1 + Vlq.size jump + (tagname_bytes name).length) + 1 + 16 ≤
        m.insns.length := by omega
    have hend : m.reg_pc + (1 + Vlq.size jump + (tagname_bytes name).length) + 1 + 16 =
        m.reg_pc + (1 + Vlq.size jump + ((tagname_bytes name).length + 17)) := by omega
    rw [← hpc] at hop
    rw [step, Machine.past, decode_op_at (by decide) hop.left.left]
    change (Machine.lambda _ (_ + 1)).map Next.more = _
    rw [Machine.lambda, if_pos hroom, hend]
    rfl
  exact .head hstep (.single hpast)

def BodyRuns (pr : Provider N) (max_render_depth : ℕ) (m : Machine N) (pc len : ℕ)
    (R : List N → Option (List Out)) : Prop :=
  ∀ m' outs, m'.insns = m.insns → m'.indent_buffer = m.indent_buffer →
    m'.partial_depth = m.partial_depth → m'.reg_pc = pc → R m'.node_stack = some outs →
    Runs pr max_render_depth m' len outs

def Machine.behind (m : Machine N) (pc jmpaddr : ℕ) (context : List N) (indexes : List ℕ)
    (outs : List Out) : Machine N :=
  { m with
    reg_pc := pc, reg_jmpaddr := jmpaddr, reg_node := none, node_stack := context
    index_stack := indexes, output := m.output ++ outs }

variable {item node : N} {context : List N}

theorem leave_step {index : ℕ} {indexes : List ℕ}
    (h : CodeAt m.insns m.reg_pc ([op_leave] ++ Vlq.write (len + 1)))
    (hn : m.node_stack = item :: node :: context) (hi : m.index_stack = index :: indexes)
    (hlt : index + 1 < 2 ^ 32) : step pr max_render_depth m = some (.more
      (match pr.get_child_by_index node (index + 1) with
        | some item =>
          { m with
            reg_pc := m.reg_pc + 1 - (len + 1), reg_node := some item
            node_stack := item :: node :: context, index_stack := (index + 1) :: indexes }
        | none =>
          { m with
            reg_pc := m.reg_pc + 1 + Vlq.size (len + 1), reg_node := none
            node_stack := context, index_stack := indexes })) := by
  rw [step, decode_op_at (by decide) h.left]
  change (m.leave pr (m.reg_pc + 1)).map Next.more = _
  rw [Machine.leave, decode_num_at h.behind_op, hn, hi, Vlq.write_length]
  change Option.map Next.more
    (match pr.get_child_by_index node ((index + 1) % 2 ^ 32) with
      | some item => _
      | none => _) = _
  rw [Nat.mod_eq_of_lt hlt]
  cases pr.get_child_by_index node (index + 1) with
  | none => rfl
  | some item => rfl

variable {R : List N → Option (List Out)} {parts : List (List Out)}

theorem loop_reaches {count i n : ℕ} {indexes : List ℕ}
    (hb : BodyRuns pr max_render_depth m pc len R)
    (hcode : CodeAt m.insns (pc + len) ([op_leave] ++ Vlq.write (len + 1))) (hpc : m.reg_pc = pc)
    (hn : m.node_stack = item :: node :: context) (hi : m.index_stack = i :: indexes)
    (hend : pr.get_child_by_index node n = none) (hlt : i < n) (hmax : n < 2 ^ 32)
    (hcount : n < i + 1 + count)
    (hparts : (item :: items_from pr node count (i + 1)).mapM
      (fun item => R (item :: node :: context)) = some parts) :
    ∃ jmpaddr, Reaches pr max_render_depth m
      (m.behind (pc + len + 1 + Vlq.size (len + 1)) jmpaddr context indexes parts.flatten) := by
  induction count generalizing m i item parts with
  | zero => omega
  | succ count ih =>
    rw [List.mapM_cons] at hparts
    obtain ⟨outs, houts, hparts⟩ := Option.bind_eq_some_iff.mp hparts
    obtain ⟨rest, hrest, hparts⟩ := Option.bind_eq_some_iff.mp hparts
    cases hparts
    obtain ⟨node', jmpaddr, hbody⟩ := hb m outs rfl rfl rfl hpc (by rw [hn]; exact houts)
    have hcode' : CodeAt (m.past len outs node' jmpaddr).insns (m.past len outs node' jmpaddr).reg_pc
        ([op_leave] ++ Vlq.write (len + 1)) := by
      rw [Machine.past, hpc]
      exact hcode
    have hreach := hbody.tail (leave_step hcode' hn hi (by omega))
    cases hget : pr.get_child_by_index node (i + 1) with
    | none =>
      rw [items_from, hget, List.mapM_nil] at hrest
      cases hrest
      rw [hget] at hreach
      refine ⟨jmpaddr, ?_⟩
      rw [List.flatten_cons, List.flatten_nil, List.append_nil, ← hpc]
      exact hreach
    | some next =>
      have hne : n ≠ i + 1 := by
        rintro rfl
        rw [hend] at hget
        cases hget
      rw [items_from, hget] at hrest
      rw [hget] at hreach
      have hback : m.reg_pc + len + 1 - (len + 1) = pc := by omega
      obtain ⟨jmpaddr', hloop⟩ := ih (m :=
        { m.past len outs node' jmpaddr with
          reg_pc := m.reg_pc + len + 1 - (len + 1), reg_node := some next
          node_stack := next :: node :: context, index_stack := (i + 1) :: indexes })
        hb hcode hback rfl rfl (by omega) (by omega) hrest
      refine ⟨jmpaddr', hreach.trans ?_⟩
      rw [List.flatten_cons, Machine.behind, ← List.append_assoc]
      exact hloop

/-- Every list ends at an index of 32 bits. -/
def Provider.Finite (pr : Provider N) : Prop :=
  ∀ node, ∃ n < 2 ^ 32, pr.get_child_by_index node n = none

theorem items_eq (node : N) :
    items pr node =
      match pr.get_child_by_index node 0 with
      | none => []
      | some item => item :: items_from pr node (2 ^ 32 - 1) 1 := by
  rw [items, show (2 : ℕ) ^ 32 = 2 ^ 32 - 1 + 1 from rfl, items_from]
  rfl

theorem enter_step (h : CodeAt m.insns m.reg_pc [op_enter]) (hn : m.reg_node = some node)
    (hitem : pr.get_child_by_index node 0 = some item) : step pr max_render_depth m = some (.more
      { m with
        reg_pc := m.reg_pc + 1, reg_node := some item, node_stack := item :: node :: m.node_stack
        index_stack := 0 :: m.index_stack }) := by
  rw [step, decode_op_at (by decide) h]
  change some (Next.more (m.enter pr (m.reg_pc + 1))) = _
  simp only [Machine.enter, hn, hitem]

theorem skip_step (h : CodeAt m.insns m.reg_pc [op_enter])
    (hn : (m.reg_node.bind fun node => pr.get_child_by_index node 0) = none) :
    step pr max_render_depth m = some (.more { m with reg_pc := m.reg_jmpaddr }) := by
  rw [step, decode_op_at (by decide) h]
  change some (Next.more (m.enter pr (m.reg_pc + 1))) = _
  rw [Machine.enter]
  cases hnode : m.reg_node with
  | none => simp only
  | some node =>
    rw [hnode, Option.bind_some] at hn
    simp only [hn]

theorem enterinv_step (h : CodeAt m.insns m.reg_pc [op_enterinv]) :
    step pr max_render_depth m = some (.more
      { m with
        reg_pc :=
          if (m.reg_node.bind fun node => pr.get_child_by_index node 0).isSome then m.reg_jmpaddr
          else m.reg_pc + 1 }) := by
  rw [step, decode_op_at (by decide) h]
  change some (Next.more (m.enterinv pr (m.reg_pc + 1))) = _
  rw [Machine.enterinv]
  cases m.reg_node.bind fun node => pr.get_child_by_index node 0 with
  | none => rfl
  | some item => rfl

theorem entered_none {node : Option N}
    (h : (node.bind fun node => pr.get_child_by_index node 0) = none) :
    entered pr context false node = [] ∧ entered pr context true node = [context] := by
  cases node with
  | none => exact ⟨rfl, rfl⟩
  | some node =>
    rw [Option.bind_some] at h
    have hitems : items pr node = [] := by rw [items_eq, h]
    rw [entered, entered, hitems]
    exact ⟨rfl, rfl⟩

theorem entered_some (h : pr.get_child_by_index node 0 = some item) :
    entered pr context false (some node) =
        (item :: items_from pr node (2 ^ 32 - 1) 1).map (fun item => item :: node :: context) ∧
      entered pr context true (some node) = [] := by
  have hitems : items pr node = item :: items_from pr node (2 ^ 32 - 1) 1 := by rw [items_eq, h]
  rw [entered, entered, hitems]
  exact ⟨rfl, if_neg (List.cons_ne_nil _ _)⟩

variable {body : Bytes}

theorem section_runs (hfin : pr.Finite) (hcode : CodeAt m.insns m.reg_pc (block_tail false body))
    (hjmp : m.reg_jmpaddr = m.reg_pc + (block_tail false body).length)
    (hb : BodyRuns pr max_render_depth m (m.reg_pc + 1) body.length R)
    (hparts : (entered pr m.node_stack false m.reg_node).mapM R = some parts) :
    Runs pr max_render_depth m (block_tail false body).length parts.flatten := by
  have htail : block_tail false body =
      [op_enter] ++ body ++ ([op_leave] ++ Vlq.write (body.length + 1)) := rfl
  have hlen : (block_tail false body).length = 1 + body.length + 1 + Vlq.size (body.length + 1) := by
    rw [htail]
    simp only [List.length_append, List.length_singleton, Vlq.write_length]
    omega
  cases hnode : m.reg_node.bind fun node => pr.get_child_by_index node 0 with
  | none =>
    rw [(entered_none hnode).1, List.mapM_nil] at hparts
    cases hparts
    refine .still ?_
    rw [skip_step hcode.left.left hnode, Machine.past, ← hjmp]
    simp only [List.flatten_nil, List.append_nil]
  | some item =>
    obtain ⟨node, hreg, hitem⟩ := Option.bind_eq_some_iff.mp hnode
    obtain ⟨n, hmax, hend⟩ := hfin node
    have hpos : 0 < n := by
      refine Nat.pos_of_ne_zero fun h => ?_
      rw [h, hitem] at hend
      cases hend
    rw [hreg, (entered_some hitem).1, List.mapM_map] at hparts
    have hleave := hcode.right
    rw [List.length_append, List.length_singleton, ← Nat.add_assoc] at hleave
    obtain ⟨jmpaddr, hloop⟩ := loop_reaches (m :=
      { m with
        reg_pc := m.reg_pc + 1, reg_node := some item, node_stack := item :: node :: m.node_stack
        index_stack := 0 :: m.index_stack }) hb hleave rfl rfl rfl hend hpos hmax (by omega) hparts
    refine ⟨none, jmpaddr, .head (enter_step hcode.left.left hreg hitem) ?_⟩
    rw [Machine.past, hlen, ← Nat.add_assoc, ← Nat.add_assoc, ← Nat.add_assoc]
    exact hloop

theorem inverted_runs (hcode : CodeAt m.insns m.reg_pc (block_tail true body))
    (hjmp : m.reg_jmpaddr = m.reg_pc + (block_tail true body).length)
    (hb : BodyRuns pr max_render_depth m (m.reg_pc + 1) body.length R)
    (hparts : (entered pr m.node_stack true m.reg_node).mapM R = some parts) :
    Runs pr max_render_depth m (block_tail true body).length parts.flatten := by
  have hlen : (block_tail true body).length = 1 + body.length := Nat.add_comm _ _
  have hop : CodeAt m.insns m.reg_pc [op_enterinv] := hcode.left
  cases hnode : m.reg_node.bind fun node => pr.get_child_by_index node 0 with
  | none =>
    rw [(entered_none hnode).2, List.mapM_cons, List.mapM_nil] at hparts
    obtain ⟨outs, houts, hparts⟩ := Option.bind_eq_some_iff.mp hparts
    cases hparts
    have hstep : step pr max_render_depth m = some (.more { m with reg_pc := m.reg_pc + 1 }) := by
      rw [enterinv_step hop, hnode]
      rfl
    obtain ⟨node, jmpaddr, hbody⟩ := hb { m with reg_pc := m.reg_pc + 1 } outs rfl rfl rfl rfl houts
    refine ⟨node, jmpaddr, .head hstep ?_⟩
    rw [Machine.past, hlen, ← Nat.add_assoc, List.flatten_cons, List.flatten_nil, List.append_nil]
    exact hbody
  | some item =>
    obtain ⟨node, hreg, hitem⟩ := Option.bind_eq_some_iff.mp hnode
    rw [hreg, (entered_some hitem).2, List.mapM_nil] at hparts
    cases hparts
    refine .still ?_
    rw [enterinv_step hop, hnode, Machine.past, ← hjmp]
    simp only [Option.isSome_some, if_true, List.flatten_nil, List.append_nil]

variable {inverted : Bool}

theorem tail_runs (hfin : pr.Finite) (hcode : CodeAt m.insns m.reg_pc (block_tail inverted body))
    (hjmp : m.reg_jmpaddr = m.reg_pc + (block_tail inverted body).length)
    (hb : BodyRuns pr max_render_depth m (m.reg_pc + 1) body.length R)
    (hparts : (entered pr m.node_stack inverted m.reg_node).mapM R = some parts) :
    Runs pr max_render_depth m (block_tail inverted body).length parts.flatten := by
  cases inverted with
  | false => exact section_runs hfin hcode hjmp hb hparts
  | true => exact inverted_runs hcode hjmp hb hparts

theorem tail_body (h : CodeAt insns pc (block_tail inverted body)) :
    CodeAt insns (pc + 1) body := by
  cases inverted with
  | false => exact h.left.right
  | true => exact h.right

theorem block_runs (hfin : pr.Finite) {B L : Bytes} (hB : B.length = 8) (hL : L.length = 8)
    (hcode : CodeAt m.insns m.reg_pc ([op_resolve_setjmp] ++
      Vlq.write (block_bytes inverted name B L body).length ++ block_bytes inverted name B L body))
    (hb : ∀ pc, CodeAt m.insns pc body → BodyRuns pr max_render_depth m pc body.length R)
    (hparts : (entered pr m.node_stack inverted (lookup pr m.node_stack name)).mapM R = some parts) :
    Runs pr max_render_depth m
      ([op_resolve_setjmp] ++ Vlq.write (block_bytes inverted name B L body).length ++
        block_bytes inverted name B L body).length parts.flatten := by
  have hlen : (block_bytes inverted name B L body).length =
      (tagname_bytes name).length + 17 + (block_tail inverted body).length := by
    rw [block_bytes]
    simp only [List.length_append, List.length_singleton, hB, hL]
  have htotal : ([op_resolve_setjmp] ++ Vlq.write (block_bytes inverted name B L body).length ++
      block_bytes inverted name B L body).length =
      1 + Vlq.size (block_bytes inverted name B L body).length +
        ((tagname_bytes name).length + 17) + (block_tail inverted body).length := by
    rw [List.length_append, List.length_append, List.length_singleton, Vlq.write_length]
    omega
  rw [htotal]
  generalize (block_bytes inverted name B L body).length = jump at hcode hlen ⊢
  rw [block_bytes, ← List.append_assoc] at hcode
  have hopener : Reaches pr max_render_depth m _ := opener_reaches hB hL hcode.left
  have hwidth : ([op_resolve_setjmp] ++ Vlq.write jump ++
      (tagname_bytes name ++ ([op_lambda] ++ B) ++ L)).length =
      1 + Vlq.size jump + ((tagname_bytes name).length + 17) := by
    simp only [List.length_append, List.length_singleton, hB, hL, Vlq.write_length]
  have htail := hcode.right
  rw [hwidth] at htail
  have hrun : Runs pr max_render_depth
      (m.past (1 + Vlq.size jump + ((tagname_bytes name).length + 17)) []
        (lookup pr m.node_stack name) (m.reg_pc + 1 + Vlq.size jump + jump))
      (block_tail inverted body).length parts.flatten := by
    refine tail_runs hfin htail ?_ (hb _ (tail_body htail)) hparts
    rw [Machine.past]
    simp only
    omega
  obtain ⟨node, jmpaddr, hr⟩ := hrun
  rw [past_past, List.nil_append] at hr
  exact ⟨node, jmpaddr, hopener.trans hr⟩

/-- The run through a partial, given by its name and what stands behind its instruction. -/
def EmbedRuns (pr : Provider N) (max_render_depth depth : ℕ)
    (embedded : Bytes → List N → Option (List Out)) : Prop :=
  ∀ (m : Machine N) (name text : Bytes) (outs : List Out),
    CodeAt m.insns m.reg_pc ([op_partial_tag] ++ string_bytes name ++ string_bytes []) →
    m.indent_buffer = [] → m.partial_depth + depth = max_render_depth →
    pr.partial_text name = some text → embedded text m.node_stack = some outs →
    Runs pr max_render_depth m (1 + (string_bytes name).length + (string_bytes []).length) outs

theorem enter_partial_step {indent : Bytes}
    (h : CodeAt m.insns m.reg_pc ([op_partial_tag] ++ string_bytes name ++ string_bytes indent)) :
    step pr max_render_depth m =
      match get_partial_template pr name with
      | none => some (.more { m with
          reg_pc := m.reg_pc + (1 + (string_bytes name).length + (string_bytes indent).length) })
      | some insns =>
        if max_render_depth ≤ m.partial_depth then some .failed
        else some (.more { m with
          insns := insns, reg_pc := 0
          partial_stack := ⟨m.insns,
            m.reg_pc + (1 + (string_bytes name).length + (string_bytes indent).length),
            indent.length, m.reg_jmpaddr⟩ :: m.partial_stack
          indent_buffer := m.indent_buffer ++ indent, partial_depth := m.partial_depth + 1 }) := by
  have hindent := h.right
  rw [List.length_append, List.length_singleton, ← Nat.add_assoc] at hindent
  rw [step, decode_op_at (by decide) h.left.left]
  change m.enter_partial_template pr max_render_depth (m.reg_pc + 1) = _
  rw [Machine.enter_partial_template, decode_string_at h.left.behind_op]
  change (decode_string m.insns (m.reg_pc + 1 + _) >>= _) = _
  rw [decode_string_at hindent, ← Nat.add_assoc, ← Nat.add_assoc]
  cases get_partial_template pr name with
  | none => rfl
  | some insns =>
    split_ifs
    · rfl
    · rfl

theorem no_partial_runs {indent : Bytes}
    (h : CodeAt m.insns m.reg_pc ([op_partial_tag] ++ string_bytes name ++ string_bytes indent))
    (hn : get_partial_template pr name = none) :
    Runs pr max_render_depth m (1 + (string_bytes name).length + (string_bytes indent).length) [] := by
  refine .still ?_
  rw [enter_partial_step h, hn, Machine.past, List.append_nil]

theorem exit_step (h : CodeAt m.insns m.reg_pc [op_exit]) :
    step pr max_render_depth m = some (m.exit (m.reg_pc + 1)) := by
  rw [step, decode_op_at (by decide) h]
  rfl

theorem partial_runs
    (h : CodeAt m.insns m.reg_pc ([op_partial_tag] ++ string_bytes name ++ string_bytes []))
    (hi : m.indent_buffer = []) (hn : get_partial_template pr name = some insns)
    (hcode : insns = code ++ [op_exit]) (hd : m.partial_depth < max_render_depth)
    (hrun : ∀ m' : Machine N, m'.insns = insns → m'.reg_pc = 0 → m'.indent_buffer = [] →
      m'.partial_depth = m.partial_depth + 1 → m'.node_stack = m.node_stack →
      Runs pr max_render_depth m' code.length outs) :
    Runs pr max_render_depth m (1 + (string_bytes name).length + (string_bytes []).length) outs := by
  generalize hlen : 1 + (string_bytes name).length + (string_bytes []).length = len
  have hstep : Steps pr max_render_depth m { m with
      insns := insns, reg_pc := 0
      partial_stack := ⟨m.insns, m.reg_pc + len, 0, m.reg_jmpaddr⟩ :: m.partial_stack
      indent_buffer := [], partial_depth := m.partial_depth + 1 } := by
    rw [Steps, enter_partial_step h, hn, hi, hlen]
    exact if_neg (Nat.not_le.mpr hd)
  obtain ⟨node, jmpaddr, hr⟩ := hrun { m with
    insns := insns, reg_pc := 0
    partial_stack := ⟨m.insns, m.reg_pc + len, 0, m.reg_jmpaddr⟩ :: m.partial_stack
    indent_buffer := [], partial_depth := m.partial_depth + 1 } rfl rfl rfl rfl rfl
  have hexit : CodeAt insns (0 + code.length) [op_exit] := by
    refine ⟨[], ?_⟩
    rw [hcode, Nat.zero_add, List.drop_left]
    rfl
  refine ⟨node, m.reg_jmpaddr, (Relation.ReflTransGen.head hstep hr).tail ?_⟩
  rw [Steps, exit_step hexit, Machine.past, Machine.exit]
  simp only [Nat.add_sub_cancel, Machine.past, hi]
  rfl

theorem forest_runs (hfin : pr.Finite) {depth : ℕ} {embedded : Bytes → List N → Option (List Out)}
    (he : EmbedRuns pr max_render_depth depth embedded) (f : Forest) (hflush : f.Flush)
    {m : Machine N} (hcode : CodeAt m.insns m.reg_pc f.code) (hi : m.indent_buffer = [])
    (hd : m.partial_depth + depth = max_render_depth)
    (hr : render_with pr embedded f m.node_stack = some outs) :
    Runs pr max_render_depth m f.code.length outs := by
  induction f generalizing m outs with
  | nil =>
    cases hr
    exact .nil
  | literal before text ih =>
    obtain ⟨first, hfirst, hr⟩ := Option.bind_eq_some_iff.mp hr
    cases hr
    rw [Forest.code] at hcode ⊢
    rw [List.length_append, List.length_append]
    refine (ih hflush hcode.left hi hd hfirst).append fun node jmpaddr => ?_
    exact literal_runs hcode.right
  | var before escaped name ih =>
    obtain ⟨first, hfirst, hr⟩ := Option.bind_eq_some_iff.mp hr
    cases hr
    rw [Forest.code] at hcode ⊢
    rw [List.length_append, List.length_append, List.length_append]
    refine (ih hflush hcode.left hi hd hfirst).append fun node jmpaddr => ?_
    exact var_runs hcode.right
  | block before inverted name text_beg text_end body ih ihb =>
    obtain ⟨first, hfirst, hr⟩ := Option.bind_eq_some_iff.mp hr
    obtain ⟨parts, hparts, hr⟩ := Option.bind_eq_some_iff.mp hr
    cases hr
    rw [Forest.code] at hcode ⊢
    rw [List.length_append]
    refine (ih hflush.1 hcode.left hi hd hfirst).append fun node jmpaddr => ?_
    refine block_runs hfin (u64_bytes_length _) (u64_bytes_length _) hcode.right ?_ hparts
    intro pc hbody m' outs hinsns hindent hdepth hpc hout
    exact ihb hflush.2 (hinsns ▸ hpc ▸ hbody) (hindent.trans hi) (by rw [hdepth]; exact hd) hout
  | embed before name indent ih =>
    obtain ⟨hbefore, rfl⟩ := hflush
    obtain ⟨first, hfirst, hr⟩ := Option.bind_eq_some_iff.mp hr
    rw [Forest.code] at hcode ⊢
    rw [List.length_append, List.length_append, List.length_append]
    cases htext : pr.partial_text name with
    | none =>
      rw [htext] at hr
      cases hr
      rw [← List.append_nil outs]
      refine (ih hbefore hcode.left hi hd hfirst).append fun node jmpaddr => ?_
      refine no_partial_runs hcode.right ?_
      rw [get_partial_template, htext]
      rfl
    | some text =>
      rw [htext] at hr
      obtain ⟨inner, hinner, hr⟩ := Option.bind_eq_some_iff.mp hr
      cases hr
      refine (ih hbefore hcode.left hi hd hfirst).append fun node jmpaddr => ?_
      exact he _ name text inner hcode.right hi hd htext hinner
  | line before ih =>
    rw [Forest.code] at hcode ⊢
    rw [List.length_append, ← List.append_nil outs]
    refine (ih hflush hcode.left hi hd hr).append fun node jmpaddr => ?_
    exact line_runs hi hcode.right

theorem no_template_runs
    (h : CodeAt m.insns m.reg_pc ([op_partial_tag] ++ string_bytes name ++ string_bytes []))
    (ht : pr.partial_text name = some text) (hn : template text = none) :
    Runs pr max_render_depth m (1 + (string_bytes name).length + (string_bytes []).length) [] := by
  refine no_partial_runs h ?_
  rw [get_partial_template, ht, Option.bind_some, Option.eq_none_iff_forall_ne_some]
  intro insns hc
  obtain ⟨f, hf⟩ := compiled_template hc
  rw [hn] at hf
  cases hf

theorem render_runs (hfin : pr.Finite)
    (hsound : ∀ name text, pr.partial_text name = some text → Sound text) (depth : ℕ) (f : Forest)
    (hflush : f.Flush) {m : Machine N} (hcode : CodeAt m.insns m.reg_pc f.code)
    (hi : m.indent_buffer = []) (hd : m.partial_depth + depth = max_render_depth)
    (hr : render pr depth f m.node_stack = some outs) :
    Runs pr max_render_depth m f.code.length outs := by
  induction depth generalizing f m outs with
  | zero =>
    refine forest_runs hfin ?_ f hflush hcode hi hd hr
    intro m name text outs h hi hd ht hout
    simp only at hout
    split_ifs at hout with hn
    cases hout
    exact no_template_runs h ht hn
  | succ depth ih =>
    refine forest_runs hfin ?_ f hflush hcode hi hd hr
    intro m name text outs h hi hd ht hout
    cases hn : template text with
    | none =>
      simp only [hn] at hout
      cases hout
      exact no_template_runs h ht hn
    | some inner =>
      simp only [hn] at hout
      obtain ⟨hfits, hinner⟩ := hsound name text ht inner hn
      obtain ⟨insns, hc⟩ := template_compiled hn
      have hget : get_partial_template pr name =
        some insns := by rw [get_partial_template, ht, Option.bind_some, hc]
      have hcode := compile_code hc hn hfits
      refine partial_runs h hi hget hcode (by omega) fun m' hinsns hpc hi' hdepth hstack => ?_
      refine ih inner hinner ?_ hi' (by omega) (by rw [hstack]; exact hout)
      rw [hinsns, hpc, hcode]
      exact ⟨[op_exit], rfl⟩

theorem process_rounds_unique {rounds rounds' : ℕ} {r r' : Option (Machine N)}
    (h : process_rounds pr max_render_depth rounds m = some r)
    (h' : process_rounds pr max_render_depth rounds' m = some r') : r = r' := by
  induction rounds generalizing rounds' m with
  | zero => cases h
  | succ rounds ih =>
    cases rounds' with
    | zero => cases h'
    | succ rounds' =>
      rw [process_rounds] at h h'
      cases hs : step pr max_render_depth m with
      | none =>
        rw [hs] at h
        cases h
      | some next =>
        rw [hs] at h h'
        cases next with
        | more m' => exact ih h h'
        | done m' =>
          cases h
          cases h'
          rfl
        | failed =>
          cases h
          cases h'
          rfl

theorem process_of_reaches {m' m'' : Machine N} (h : Reaches pr max_render_depth m m')
    (hd : step pr max_render_depth m' = some (.done m'')) :
    ∃ rounds, process_rounds pr max_render_depth rounds m = some (some m'') := by
  induction h using Relation.ReflTransGen.head_induction_on with
  | refl => exact ⟨1, by rw [process_rounds, hd]⟩
  | head hs _ ih =>
    obtain ⟨rounds, ih⟩ := ih
    refine ⟨rounds + 1, ?_⟩
    rw [process_rounds, show step pr max_render_depth _ = _ from hs]
    exact ih

/-- A template without a section at a limit of its width is rendered as its tags nest. -/
theorem process_renders (pr : Provider N) (hfin : pr.Finite)
    (hsound : ∀ name text, pr.partial_text name = some text → Sound text) {text insns : Bytes}
    (htext : Sound text) (hc : mustache_compile text = some insns) {outs : List Out}
    (hr : reference pr text = some outs) :
    ∃ rounds m, mustache_process pr insns rounds = some (some m) ∧ m.output = outs ∧
      m.node_stack = [pr.get_root] ∧ m.index_stack = [] := by
  obtain ⟨f, hf, hr⟩ := Option.bind_eq_some_iff.mp hr
  obtain ⟨hfits, hflush⟩ := htext f hf
  have hcode := compile_code hc hf hfits
  have hat : CodeAt (start pr insns).insns (start pr insns).reg_pc f.code := by
    refine ⟨[op_exit], ?_⟩
    exact hcode
  obtain ⟨node, jmpaddr, hreach⟩ := render_runs hfin hsound default_max_render_depth f hflush hat rfl
    (Nat.zero_add _) hr
  have hexit : CodeAt insns (0 + f.code.length) [op_exit] := by
    refine ⟨[], ?_⟩
    rw [hcode, Nat.zero_add, List.drop_left]
    rfl
  obtain ⟨rounds, hrun⟩ := process_of_reaches hreach (exit_step hexit)
  exact ⟨rounds, _, hrun, rfl, rfl, rfl⟩

end

def list_provider : Provider ℕ where
  get_root := 0
  get_child_by_name node name :=
    if node = 0 ∧ name = [97] then some 1
    else if 2 ≤ node ∧ name = [98] then some (node + 10)
    else none
  get_child_by_index node index := if node = 1 ∧ index < 2 then some (index + 2) else none
  dump node := [[node]]
  partial_text name := if name = [112] then some [123, 123, 98, 125, 125] else none

theorem list_provider_finite : list_provider.Finite := by
  intro node
  refine ⟨2, by decide, ?_⟩
  exact if_neg fun h => Nat.lt_irrefl 2 h.2

/-- `{{#a}}x{{>p}}{{/a}}` renders its body for both items. -/
def list_text : Bytes :=
  [123, 123, 35, 97, 125, 125, 120, 123, 123, 62, 112, 125, 125, 123, 123, 47, 97, 125, 125]

theorem process_renders_list :
    ∃ insns rounds m, mustache_compile list_text = some insns ∧
      mustache_process list_provider insns rounds = some (some m) ∧
      m.output = [⟨false, [120]⟩, ⟨true, [12]⟩, ⟨false, [120]⟩, ⟨true, [13]⟩] ∧
      m.node_stack = [0] ∧ m.index_stack = [] := by
  have hsound : ∀ name text, list_provider.partial_text name = some text → Sound text := by
    intro name text ht
    obtain ⟨-, rfl⟩ : name = [112] ∧ [123, 123, 98, 125, 125] = text := by
      simpa [list_provider] using ht
    exact sound_of_all (by decide +kernel)
  have htext : Sound list_text := sound_of_all (by decide +kernel)
  have hr : reference list_provider list_text =
      some [⟨false, [120]⟩, ⟨true, [12]⟩, ⟨false, [120]⟩, ⟨true, [13]⟩] := by decide +kernel
  obtain ⟨f, hf, -⟩ := Option.bind_eq_some_iff.mp hr
  obtain ⟨insns, hc⟩ := template_compiled hf
  obtain ⟨rounds, m, hm⟩ := process_renders list_provider list_provider_finite hsound htext hc hr
  exact ⟨insns, rounds, m, hc, hm⟩

/-- A section with 102 characters, whose jump is 127 bytes. -/
def lost_text : Bytes :=
  [123, 123, 35, 97, 125, 125] ++ List.replicate 102 120 ++ [123, 123, 47, 97, 125, 125]

/-- The opener of the section has been overwritten, and the run ends there. -/
theorem section_lost :
    reference list_provider lost_text =
        some [⟨false, List.replicate 102 120⟩, ⟨false, List.replicate 102 120⟩] ∧
      ∃ insns, mustache_compile lost_text = some insns ∧
        ∀ rounds m, mustache_process list_provider insns rounds = some (some m) → m.output = [] := by
  have hrun : (mustache_compile lost_text).bind (fun insns =>
      (mustache_process list_provider insns 10).bind fun r => r.map Machine.output) = some [] := by
    decide +kernel
  refine ⟨by decide +kernel, ?_⟩
  obtain ⟨insns, hc, hrun⟩ := Option.bind_eq_some_iff.mp hrun
  obtain ⟨r, hp, hrun⟩ := Option.bind_eq_some_iff.mp hrun
  obtain ⟨m₀, rfl, hout⟩ := Option.map_eq_some_iff.mp hrun
  refine ⟨insns, hc, fun rounds m hm => ?_⟩
  cases process_rounds_unique hm hp
  exact hout

end SaltsUtils.Mustache
