import SaltsUtils.Mustache.Reference

/-!
# The code of a template

While sections are open, the instructions are those of what stands in front of each opener,
the openers without their jumps, and the code since. Closing a section puts its jump in.
-/

set_option autoImplicit false

namespace SaltsUtils.Mustache

/-- The body of a section between the instructions that enter and leave it. -/
def block_tail (inverted : Bool) (body : Bytes) : Bytes :=
  if inverted then [op_enterinv] ++ body
  else [op_enter] ++ body ++ ([op_leave] ++ Vlq.write (body.length + 1))

/-- What stands behind the jump of a section. -/
def block_bytes (inverted : Bool) (name text_beg len body : Bytes) : Bytes :=
  tagname_bytes name ++ ([op_lambda] ++ text_beg) ++ len ++ block_tail inverted body

def Forest.code : Forest → Bytes
  | .nil => []
  | .literal before text => before.code ++ ([op_literal] ++ string_bytes text)
  | .var before escaped name =>
    before.code ++ ([op_resolve] ++ tagname_bytes name ++
      [if escaped then op_outescaped else op_outverbatim])
  | .block before inverted name text_beg text_end body =>
    let bytes := block_bytes inverted name (u64_bytes text_beg)
      (u64_bytes (text_len text_end text_beg)) body.code
    before.code ++ ([op_resolve_setjmp] ++ Vlq.write bytes.length ++ bytes)
  | .embed before name indent =>
    before.code ++ ([op_partial_tag] ++ string_bytes name ++ string_bytes indent)
  | .line before => before.code ++ [op_indent]

theorem u64_bytes_length (num : ℕ) : (u64_bytes num).length = 8 := rfl

theorem block_bytes_length (inverted : Bool) (name : Bytes) {text_beg len : Bytes} (body : Bytes)
    (hb : text_beg.length = 8) (hl : len.length = 8) :
    (block_bytes inverted name text_beg len body).length =
      section_size inverted name body.length := by
  unfold block_bytes block_tail section_size
  cases inverted <;> simp [hb, hl, Vlq.write_length] <;> omega

theorem code_length (f : Forest) : f.code.length = f.size := by
  induction f with
  | nil => rfl
  | literal before text ih => simp [Forest.code, Forest.size, ih]; omega
  | var before escaped name ih => simp [Forest.code, Forest.size, ih]; omega
  | block before inverted name text_beg text_end body ih ihb =>
    rw [Forest.code, Forest.size, List.length_append, ih]
    rw [List.length_append, List.length_append, Vlq.write_length,
      block_bytes_length _ _ _ (u64_bytes_length _) (u64_bytes_length _), ihb]
    simp only [List.length_singleton]
    omega
  | embed before name indent ih => simp [Forest.code, Forest.size, ih]; omega
  | line before ih => simp [Forest.code, Forest.size, ih]

theorem insert_num_at (pre post : Bytes) (num : ℕ) :
    insert_num (pre ++ post) pre.length num = pre ++ Vlq.write num ++ post := by
  rw [insert_num, List.take_left, List.drop_left]

theorem write_u64_at (pre : Bytes) {old : Bytes} (post : Bytes) (num : ℕ) (h : old.length = 8) :
    write_u64 (pre ++ old ++ post) pre.length num = pre ++ u64_bytes num ++ post := by
  have hlen : pre.length + 8 ≤ (pre ++ old ++ post).length := by
    simp only [List.length_append, h]
    omega
  have hdrop : (pre ++ old ++ post).drop (pre.length + 8) = post :=
    List.drop_left' (by rw [List.length_append, h])
  rw [write_u64, if_pos hlen, hdrop, List.append_assoc pre, List.take_left]

def Opened.bytes (o : Opened) : Bytes :=
  [op_resolve_setjmp] ++ (tagname_bytes o.name ++ ([op_lambda] ++ u64_bytes o.text_beg) ++
    u64_bytes 0 ++
    [if o.inverted then op_enterinv else op_enter])

def layout : List Opened → Bytes
  | [] => []
  | o :: stack => layout stack ++ o.before.code ++ o.bytes

def jump_pos (stack : List Opened) (o : Opened) : ℕ := (layout stack ++ o.before.code).length + 1

def jumps : List Opened → List ℕ
  | [] => []
  | o :: stack =>
    if o.inverted then jump_pos stack o :: jumps stack
    else (layout (o :: stack)).length :: jump_pos stack o :: jumps stack

def lambdas : List Opened → List LambdaInfo
  | [] => []
  | o :: stack => ⟨jump_pos stack o + (tagname_bytes o.name).length + 9, o.text_beg⟩ :: lambdas stack

/-- The compiler has come as far as the nesting. -/
structure Laid (n : Nesting) (s : CompileState) : Prop where
  insns : s.insns = layout n.stack ++ n.forest.code
  jmp_pos_stack : s.jmp_pos_stack = jumps n.stack
  lambda_stack : s.lambda_stack = lambdas n.stack
  off : s.off = n.off

variable {f : Forest}

section
variable (text : Bytes) {n : Nesting} {s : CompileState}

theorem literal_laid (h : Laid n s) (tag : TagInfo) :
    Laid { n with forest := nest_literal text n tag, off := (compile_literal text s tag).off }
      (compile_literal text s tag) := by
  unfold nest_literal compile_literal
  rw [h.off]
  split_ifs
  · refine ⟨?_, h.jmp_pos_stack, h.lambda_stack, rfl⟩
    change s.insns ++ _ = _
    rw [h.insns, List.append_assoc]
    rfl
  · exact ⟨h.insns, h.jmp_pos_stack, h.lambda_stack, rfl⟩

theorem append_laid (h : Laid n s) {data : Bytes} (hf : f.code = n.forest.code ++ data) (off : ℕ) :
    Laid ⟨n.stack, f, off⟩ { s.append data with off := off } := by
  refine ⟨?_, h.jmp_pos_stack, h.lambda_stack, rfl⟩
  change s.insns ++ data = _
  rw [h.insns, hf, List.append_assoc]

def compile_open (inverted : Bool) (s : CompileState) (tag : TagInfo) : CompileState :=
  if inverted then (compile_opener text s tag).append [op_enterinv]
  else ((compile_opener text s tag).append [op_enter]).push_jmp_pos

theorem compile_open_insns (inverted : Bool) (s : CompileState) (tag : TagInfo) (f : Forest) :
    (compile_open text inverted s tag).insns =
      s.insns ++ (Opened.mk f inverted (tag.name text) tag.stop).bytes := by
  cases inverted <;>
    simp [compile_open, compile_opener, CompileState.append, CompileState.push_jmp_pos, Opened.bytes]

theorem open_laid (h : Laid n s) (tag : TagInfo) (inverted : Bool) (off : ℕ) :
    Laid ⟨⟨n.forest, inverted, tag.name text, tag.stop⟩ :: n.stack, .nil, off⟩
      { compile_open text inverted s tag with off := off } := by
  have hinsns := compile_open_insns text inverted s tag n.forest
  have hpos : jump_pos n.stack ⟨n.forest, inverted, tag.name text, tag.stop⟩ = s.insns.length + 1 := by
    rw [jump_pos, h.insns]
  rw [h.insns] at hinsns
  refine ⟨?_, ?_, ?_, rfl⟩
  · rw [hinsns]
    exact (List.append_nil _).symm
  · rw [jumps, ← h.jmp_pos_stack, hpos, layout, ← hinsns]
    cases inverted with
    | true => simp [compile_open, compile_opener, CompileState.append, CompileState.push_jmp_pos]
    | false => simp [compile_open, compile_opener, CompileState.append, CompileState.push_jmp_pos]
  · rw [lambdas, ← h.lambda_stack, hpos]
    cases inverted <;>
      simp [compile_open, compile_opener, CompileState.append, CompileState.push_jmp_pos,
        u64_bytes_length] <;> omega

variable {off : ℕ}

/-- The jump is put in front of what stands behind it, and the length of the text where the
zeros are. -/
theorem close_jump_eq {A T B tail : Bytes} {js : List ℕ} {ls : List LambdaInfo} {beg : ℕ}
    (hb : B.length = 8) (hd : Steady (T ++ ([op_lambda] ++ B) ++ u64_bytes 0 ++ tail).length)
    (tag : TagInfo) : close_jump
      ⟨A ++ [op_resolve_setjmp] ++ (T ++ ([op_lambda] ++ B) ++ u64_bytes 0 ++ tail),
        (A.length + 1) :: js, ⟨A.length + 1 + T.length + 9, beg⟩ :: ls, off⟩ tag =
      ⟨A ++ [op_resolve_setjmp] ++
          Vlq.write (T ++ ([op_lambda] ++ B) ++ u64_bytes 0 ++ tail).length ++
          (T ++ ([op_lambda] ++ B) ++ u64_bytes (text_len tag.beg beg) ++ tail), js, ls, off⟩ := by
  generalize hS : T ++ ([op_lambda] ++ B) ++ u64_bytes 0 ++ tail = S at hd ⊢
  have hA : (A ++ [op_resolve_setjmp]).length = A.length + 1 := by
    rw [List.length_append, List.length_singleton]
  have hdist : (A ++ [op_resolve_setjmp] ++ S).length - (A.length + 1) = S.length := by
    rw [List.length_append, hA, Nat.add_sub_cancel_left]
  have hinsert : insert_num (A ++ [op_resolve_setjmp] ++ S) (A.length + 1) S.length =
      A ++ [op_resolve_setjmp] ++ Vlq.write S.length ++ S := by
    rw [← hA, insert_num_at]
  have hsize : Vlq.size ((A ++ [op_resolve_setjmp] ++ Vlq.write S.length ++ S).length -
      (A.length + 1)) = Vlq.size S.length := by
    rw [List.length_append, List.length_append, hA, Vlq.write_length, Nat.add_assoc,
      Nat.add_sub_cancel_left, Nat.add_comm]
    exact hd
  have hpos : A.length + 1 < A.length + 1 + T.length + 9 := by omega
  have hpre : A.length + 1 + T.length + 9 + Vlq.size S.length =
      (A ++ [op_resolve_setjmp] ++ Vlq.write S.length ++ (T ++ ([op_lambda] ++ B))).length := by
    simp only [List.length_append, List.length_singleton, Vlq.write_length, hb]
    omega
  unfold close_jump
  simp only
  rw [hdist, hinsert, hsize, if_pos hpos, hpre, ← hS]
  have hsplit : ∀ Z : Bytes, ∀ W : Bytes,
      A ++ [op_resolve_setjmp] ++ W ++ (T ++ ([op_lambda] ++ B) ++ Z ++ tail) =
        A ++ [op_resolve_setjmp] ++ W ++ (T ++ ([op_lambda] ++ B)) ++ Z ++ tail := by
    intro Z W
    simp only [List.append_assoc]
  rw [hsplit, hsplit, write_u64_at _ _ _ (u64_bytes_length 0)]

theorem closing_state {o : Opened} {stack : List Opened} (h : Laid ⟨o :: stack, f, off⟩ s) :
    (if o.inverted then s else compile_leave s) =
      ⟨layout stack ++ o.before.code ++ [op_resolve_setjmp] ++
          block_bytes o.inverted o.name (u64_bytes o.text_beg) (u64_bytes 0) f.code,
        jump_pos stack o :: jumps stack,
        ⟨jump_pos stack o + (tagname_bytes o.name).length + 9, o.text_beg⟩ :: lambdas stack, off⟩ := by
  obtain ⟨insns, jmp_pos_stack, lambda_stack, s_off⟩ := s
  obtain ⟨hinsns, hjumps, hlambdas, hoff⟩ := h
  simp only at hinsns hjumps hlambdas hoff
  rw [jumps] at hjumps
  rw [lambdas] at hlambdas
  subst hoff hlambdas hjumps
  cases hinv : o.inverted with
  | true =>
    rw [if_pos rfl, if_pos rfl, hinsns, layout, Opened.bytes, block_bytes, block_tail, hinv]
    simp only [if_true, List.append_assoc]
  | false =>
    have hdist : (insns ++ [op_leave]).length - (layout (o :: stack)).length = f.code.length + 1 := by
      rw [hinsns, List.length_append, List.length_append, List.length_singleton, Nat.add_assoc,
        Nat.add_sub_cancel_left]
    rw [if_neg Bool.false_ne_true, if_neg Bool.false_ne_true, compile_leave, CompileState.append]
    simp only
    rw [CompileState.append, hdist, hinsns, layout, Opened.bytes, block_bytes, block_tail, hinv]
    simp only [Bool.false_eq_true, if_false, List.append_assoc]

theorem close_laid {o : Opened} {stack : List Opened} (h : Laid ⟨o :: stack, f, off⟩ s)
    (hd : Steady (section_size o.inverted o.name f.size)) (tag : TagInfo) (off' : ℕ) :
    Laid ⟨stack, .block o.before o.inverted o.name o.text_beg tag.beg f, off'⟩
      { close_jump (if o.inverted then s else compile_leave s) tag with off := off' } := by
  have hlen : ∀ len : Bytes, len.length = 8 →
      (block_bytes o.inverted o.name (u64_bytes o.text_beg) len f.code).length =
        section_size o.inverted o.name f.size := by
    intro len hl
    rw [block_bytes_length _ _ _ (u64_bytes_length _) hl, code_length]
  rw [← hlen _ (u64_bytes_length 0)] at hd
  rw [closing_state h, block_bytes, jump_pos]
  rw [close_jump_eq (u64_bytes_length _) hd]
  refine ⟨?_, rfl, rfl, rfl⟩
  change _ = layout stack ++ (o.before.code ++ ([op_resolve_setjmp] ++ Vlq.write
    (block_bytes o.inverted o.name (u64_bytes o.text_beg) (u64_bytes (text_len tag.beg o.text_beg))
      f.code).length ++ _))
  rw [hlen _ (u64_bytes_length _), ← hlen _ (u64_bytes_length 0)]
  simp only [block_bytes, List.append_assoc]

/-- What has been read fits. -/
def Nesting.Fits (n : Nesting) : Prop := n.forest.Fits ∧ ∀ o ∈ n.stack, o.before.Fits

variable {tag : TagInfo}

theorem fits_literal (h : (nest_literal text n tag).Fits) : n.forest.Fits := by
  unfold nest_literal at h
  split_ifs at h
  · exact h
  · exact h

variable {n' : Nesting}

theorem fits_close {forest : Forest} {inverted : Bool}
    (hn : nest_close n forest inverted tag = some n') (h : n'.Fits) :
    ∃ o stack, n.stack = o :: stack ∧ o.inverted = inverted ∧
      n' = ⟨stack, .block o.before inverted o.name o.text_beg tag.beg forest, tag.stop⟩ ∧
      forest.Fits ∧ (∀ o ∈ n.stack, o.before.Fits) ∧
      Steady (section_size inverted o.name forest.size) := by
  unfold nest_close at hn
  cases hs : n.stack with
  | nil =>
    rw [hs] at hn
    cases hn
  | cons o stack =>
    rw [hs] at hn
    simp only at hn
    split_ifs at hn with hinv
    cases hn
    obtain ⟨⟨hbefore, hbody, hsteady⟩, hstack⟩ := h
    refine ⟨o, stack, rfl, hinv, rfl, hbody, fun o' ho' => ?_, hsteady⟩
    obtain rfl | ho' := List.mem_cons.mp ho'
    · exact hbefore
    · exact hstack o' ho'

theorem tag_fits (hn : nest_tag text n tag = some n') (hf : n'.Fits) : n.Fits := by
  have hclose : ∀ inverted, nest_close n (nest_literal text n tag) inverted tag = some n' →
      n.Fits := by
    intro inverted h
    obtain ⟨-, -, -, -, -, hbody, hstack, -⟩ := fits_close h hf
    exact ⟨fits_literal text hbody, hstack⟩
  unfold nest_tag at hn
  cases hty : tag.type with
  | none | delim | comment | var | verbatim_var | verbatim_var2 | partial_tag | indent =>
    rw [hty] at hn
    cases hn
    exact ⟨fits_literal text hf.1, hf.2⟩
  | open_section | open_section_inv =>
    rw [hty] at hn
    cases hn
    exact ⟨fits_literal text (hf.2 _ List.mem_cons_self),
      fun o ho => hf.2 o (List.mem_cons_of_mem _ ho)⟩
  | close_section =>
    rw [hty] at hn
    exact hclose false hn
  | close_section_inv =>
    rw [hty] at hn
    exact hclose true hn

theorem nest_fits {tags : List TagInfo} (hn : nest text n tags = some f) (hf : f.Fits) :
    n.Fits := by
  induction tags generalizing n with
  | nil => cases hn
  | cons tag tags ih =>
    rw [nest] at hn
    split_ifs at hn with ht hs
    · cases hn
      exact ⟨fits_literal text hf, fun o ho => by rw [hs] at ho; cases ho⟩
    · obtain ⟨n', hn', hrest⟩ := Option.bind_eq_some_iff.mp hn
      exact tag_fits text hn' (ih hrest)

theorem closed_laid {inverted : Bool}
    (hn : nest_close n (nest_literal text n tag) inverted tag = some n') (hf : n'.Fits)
    (h : Laid { n with forest := nest_literal text n tag, off := off } s) :
    Laid n' { close_jump (if inverted then s else compile_leave s) tag with off := tag.stop } := by
  obtain ⟨o, stack, hs, rfl, rfl, -, -, hsteady⟩ := fits_close hn hf
  rw [hs] at h
  exact close_laid h hsteady tag tag.stop

theorem tag_laid (ht : tag.type ≠ .none) (hn : nest_tag text n tag = some n') (hf : n'.Fits)
    (h : Laid n s) : Laid n' (compile_tag text s tag) := by
  have hl := literal_laid text h tag
  unfold nest_tag at hn
  unfold compile_tag compile_insn
  cases hty : tag.type with
  | none => exact absurd hty ht
  | delim | comment =>
    rw [hty] at hn
    cases hn
    exact ⟨hl.insns, hl.jmp_pos_stack, hl.lambda_stack, rfl⟩
  | var | verbatim_var | verbatim_var2 | partial_tag | indent =>
    rw [hty] at hn
    cases hn
    exact append_laid hl rfl _
  | open_section =>
    rw [hty] at hn
    cases hn
    exact open_laid text hl tag false _
  | open_section_inv =>
    rw [hty] at hn
    cases hn
    exact open_laid text hl tag true _
  | close_section | close_section_inv =>
    rw [hty] at hn
    exact closed_laid text hn hf hl

theorem tags_laid {tags : List TagInfo} (hn : nest text n tags = some f) (hf : f.Fits)
    (h : Laid n s) : (compile_tags text s tags).insns = f.code ++ [op_exit] := by
  induction tags generalizing n s with
  | nil => cases hn
  | cons tag tags ih =>
    rw [nest] at hn
    rw [compile_tags]
    split_ifs at hn ⊢ with ht hs
    · cases hn
      have hl := (literal_laid text h tag).insns
      rw [compile_tag, compile_insn, ht]
      change (compile_literal text s tag).insns ++ [op_exit] = _
      rw [hl, hs]
      rfl
    · obtain ⟨n', hn', hrest⟩ := Option.bind_eq_some_iff.mp hn
      exact ih hrest (tag_laid text ht hn' (nest_fits text hrest hf) h)

end

theorem compile_code {text insns : Bytes} (hc : mustache_compile text = some insns)
    (ht : template text = some f) (hf : f.Fits) : insns = f.code ++ [op_exit] := by
  obtain ⟨tags, hp, rfl⟩ := Option.map_eq_some_iff.mp hc
  rw [template, hp] at ht
  exact tags_laid text ht hf ⟨rfl, rfl, rfl, rfl⟩

end SaltsUtils.Mustache
