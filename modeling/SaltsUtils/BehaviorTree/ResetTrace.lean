import SaltsUtils.BehaviorTree.Reset

/-!
# The callbacks of a reset, node by node

A reset issues the callbacks of each node of its subtree once: the halt of a running leaf,
the aborts of marked branches, the abort of an open context.
-/

set_option autoImplicit false

namespace SaltsUtils.BehaviorTree
open SaltsUtils.Forest

variable {P : Plan} {ns : ℕ → NodeState}

variable {id index levels : ℕ} {n : NodeState} {below : ℕ → List Query} {l : List ℕ}

section Own

variable {q : Query}

theorem haltQueries_node (h : q ∈ haltQueries P id n) : q.node = id := by
  simp only [haltQueries] at h
  split_ifs at h <;> simp at h
  rw [h]
  rfl

theorem abortQueries_node (h : q ∈ abortQueries P id n) : q.node = id := by
  simp only [abortQueries] at h
  split_ifs at h <;> simp at h <;> rw [h] <;> rfl

theorem branchAbort_node (h : q ∈ branchAbort P id index n) : q.node = id := by
  simp only [branchAbort] at h
  split_ifs at h <;> simp at h
  rw [h]
  rfl

theorem branchQueries_mem (h : q ∈ branchQueries P ns below id index l) :
    q.node = id ∨ ∃ c ∈ l, q ∈ below c := by
  induction l generalizing index with
  | nil => exact absurd h (by simp [branchQueries])
  | cons c l ih =>
    rw [branchQueries, List.mem_append, List.mem_append] at h
    rcases h with (h | h) | h
    · exact Or.inr ⟨c, List.mem_cons_self, h⟩
    · exact Or.inl (branchAbort_node h)
    · rcases ih h with h | ⟨d, hd, h⟩
      · exact Or.inl h
      · exact Or.inr ⟨d, List.mem_cons_of_mem c hd, h⟩

theorem resetQueries_below (ht : Topology P) (ns : ℕ → NodeState)
    (hq : q ∈ resetQueries P ns levels id) : Below P id q.node := by
  induction levels generalizing id with
  | zero => simp [resetQueries] at hq
  | succ levels ih =>
    rw [resetQueries] at hq
    by_cases hid : nodeIdValid P id = true
    · rw [if_pos hid, List.mem_append, List.mem_append] at hq
      rcases hq with (h | h) | h
      · rw [haltQueries_node h]
        exact below_refl id
      · rcases branchQueries_mem h with h | ⟨c, hc, h⟩
        · rw [h]
          exact below_refl id
        · exact below_of_child ((mem_children ht hid).mp hc) (ih h)
      · rw [abortQueries_node h]
        exact below_refl id
    · rw [if_neg hid] at hq
      simp at hq

end Own

section Projection

/-- The callbacks of `i` itself in a reset that reaches it. -/
def ownQueries (P : Plan) (ns : ℕ → NodeState) (i : ℕ) : List Query :=
  haltQueries P i (ns i) ++ branchQueries P ns (fun _ => []) i 0 (children P i) ++
    abortQueries P i (ns i)

variable {i : ℕ}

theorem filter_of_node {l : List Query} (h : ∀ q ∈ l, q.node = id) :
    l.filter (fun q => q.node = i) = if id = i then l else [] := by
  by_cases hi : id = i
  · rw [if_pos hi, List.filter_eq_self]
    intro q hq
    simp [h q hq, hi]
  · rw [if_neg hi, List.filter_eq_nil_iff]
    intro q hq
    simp [h q hq, hi]

theorem filter_branchQueries_self (hbelow : ∀ c ∈ l, (below c).filter (fun q => q.node = id) = [])
    (index : ℕ) : (branchQueries P ns below id index l).filter (fun q => q.node = id) =
      branchQueries P ns (fun _ => []) id index l := by
  induction l generalizing index with
  | nil => rfl
  | cons c l ih =>
    rw [branchQueries, branchQueries, List.filter_append, List.filter_append,
      hbelow c List.mem_cons_self, ih (fun d hd => hbelow d (List.mem_cons_of_mem c hd)),
      filter_of_node (fun q hq => branchAbort_node hq), if_pos rfl]

theorem filter_branchQueries_other (hi : id ≠ i) (index : ℕ) :
    (branchQueries P ns below id index l).filter (fun q => q.node = i) =
      l.flatMap (fun c => (below c).filter (fun q => q.node = i)) := by
  induction l generalizing index with
  | nil => rfl
  | cons c l ih =>
    rw [branchQueries, List.filter_append, List.filter_append, ih, List.flatMap_cons,
      filter_of_node (fun q hq => branchAbort_node hq), if_neg hi, List.append_nil]

theorem flatMap_single {f : ℕ → List Query} {c : ℕ} (hnodup : l.Nodup) (hc : c ∈ l)
    (hother : ∀ d ∈ l, d ≠ c → f d = []) : l.flatMap f = f c := by
  induction l with
  | nil => exact absurd hc List.not_mem_nil
  | cons d l ih =>
    rw [List.nodup_cons] at hnodup
    rw [List.flatMap_cons]
    by_cases hd : d = c
    · subst hd
      have hrest : l.flatMap f = [] := by
        rw [List.flatMap_eq_nil_iff]
        intro e he
        apply hother e (List.mem_cons_of_mem d he)
        rintro rfl
        exact hnodup.1 he
      rw [hrest, List.append_nil]
    · have hmem : c ∈ l := by
        rcases List.mem_cons.mp hc with h | h
        · exact absurd h.symm hd
        · exact h
      rw [hother d List.mem_cons_self hd, List.nil_append]
      exact ih hnodup.2 hmem (fun e he => hother e (List.mem_cons_of_mem d he))

theorem resetQueries_outside (ht : Topology P) (ns : ℕ → NodeState) (hi : ¬ Below P id i) :
    (resetQueries P ns levels id).filter (fun q => q.node = i) = [] := by
  rw [List.filter_eq_nil_iff]
  intro q hq hnode
  apply hi
  rw [← of_decide_eq_true hnode]
  exact resetQueries_below ht ns hq

theorem resetQueries_filter (ht : Topology P) (ns : ℕ → NodeState) (hid : nodeIdValid P id = true)
    (hlevels : P.nodeCount < id+levels) (hi : Below P id i) :
    (resetQueries P ns levels id).filter (fun q => q.node = i) = ownQueries P ns i := by
  induction levels generalizing id with
  | zero =>
    have := (nodeIdValid_iff.mp hid).2
    omega
  | succ levels ih =>
    have hf := is_forest ht
    have hchild : ∀ c ∈ children P id, IsChild P id c := fun c hc => (mem_children ht hid).mp hc
    rw [resetQueries, if_pos hid, List.filter_append, List.filter_append,
      filter_of_node (fun q hq => haltQueries_node hq),
      filter_of_node (fun q hq => abortQueries_node hq)]
    rcases below_cases hi with rfl | ⟨c, hc, hci⟩
    · rw [if_pos rfl, if_pos rfl, filter_branchQueries_self]
      · rfl
      · exact fun c hc => resetQueries_outside ht ns (not_below_parent hf (hchild c hc))
    · have hne : id ≠ i := by
        rintro rfl
        exact not_below_parent hf hc hci
      have hlt := child_lt ht hc
      rw [if_neg hne, if_neg hne, filter_branchQueries_other hne, List.nil_append, List.append_nil,
        flatMap_single (nodup_children ht hid) ((mem_children ht hid).mpr hc)]
      · exact ih hc.1 (by omega) hci
      · intro d hd hdc
        exact resetQueries_outside ht ns (below_disjoint hf hc (hchild d hd) hdc.symm hci)

theorem halt_mem_ownQueries {j : ℕ} (hk : (P.node j).kind = .leaf) (hhalt : (P.node j).halt = true)
    (hrun : (ns j).running = true) : Query.halt j ∈ ownQueries P ns j := by
  simp [ownQueries, haltQueries, hk, hhalt, hrun]

theorem halt_mem_resetQueries (ht : Topology P) {j : ℕ} (hid : nodeIdValid P id = true)
    (hlevels : P.nodeCount < id+levels) (hj : Below P id j) (hk : (P.node j).kind = .leaf)
    (hhalt : (P.node j).halt = true) (hrun : (ns j).running = true) :
    Query.halt j ∈ resetQueries P ns levels id := by
  have hmem := halt_mem_ownQueries hk hhalt hrun
  rw [← resetQueries_filter ht ns hid hlevels hj] at hmem
  exact (List.mem_filter.mp hmem).1

end Projection

section Order

def InAborted (P : Plan) (q : Query) (j : ℕ) : Prop :=
  match q with
  | .pipelineAbort i _ | .queueAbort i => Below P i j
  | .parallelAbort i k => ∃ c, (children P i)[k]? = some c ∧ Below P c j
  | _ => False

/-- Wherever `l` aborts a context of `j`, after `done`, the halt of `j` has come before. -/
def HaltsFirst (P : Plan) (j : ℕ) (done l : List Query) : Prop :=
  ∀ A q B, l = A ++ q::B → InAborted P q j → Query.halt j ∈ done ++ A

variable {j : ℕ} {done l l' : List Query}

theorem haltsFirst_append (h : HaltsFirst P j done l) (h' : HaltsFirst P j (done ++ l) l') :
    HaltsFirst P j done (l ++ l') := by
  intro A q B hsplit hq
  rcases List.append_eq_append_iff.mp hsplit with ⟨C, hA, hl'⟩ | ⟨C, hl, hq'⟩
  · rw [hA, ← List.append_assoc]
    exact h' C q B hl' hq
  · cases C with
    | nil =>
      have hhead := h' [] q B (by simpa using hq'.symm) hq
      rw [hl] at hhead
      simpa using hhead
    | cons x C =>
      obtain ⟨rfl, rfl⟩ := List.cons.inj hq'
      exact h A q C hl hq

theorem haltsFirst_done (h : Query.halt j ∈ done) : HaltsFirst P j done l :=
  fun _ _ _ _ _ => List.mem_append_left _ h

theorem haltsFirst_mono {done' : List Query} (hsub : ∀ q ∈ done, q ∈ done')
    (h : HaltsFirst P j done l) : HaltsFirst P j done' l := by
  intro A q B hsplit hq
  rcases List.mem_append.mp (h A q B hsplit hq) with h | h
  · exact List.mem_append_left _ (hsub _ h)
  · exact List.mem_append_right _ h

theorem haltsFirst_nonaborting (h : ∀ q ∈ l, ¬ InAborted P q j) : HaltsFirst P j done l := by
  intro A q B hsplit hq
  exact absurd hq (h q (by rw [hsplit]; simp))

theorem haltsFirst_abortQueries (h : Below P id j → Query.halt j ∈ done) :
    HaltsFirst P j done (abortQueries P id n) := by
  by_cases hj : Below P id j
  · exact haltsFirst_done (h hj)
  · apply haltsFirst_nonaborting
    intro q hq hin
    simp only [abortQueries] at hq
    split_ifs at hq <;> simp at hq <;> rw [hq] at hin <;> exact hj hin

theorem haltsFirst_branchAbort {c : ℕ} (hc : (children P id)[index]? = some c)
    (h : Below P c j → Query.halt j ∈ done) : HaltsFirst P j done (branchAbort P id index n) := by
  by_cases hj : Below P c j
  · exact haltsFirst_done (h hj)
  · apply haltsFirst_nonaborting
    intro q hq hin
    simp only [branchAbort] at hq
    split_ifs at hq <;> simp at hq
    rw [hq] at hin
    obtain ⟨d, hd, hdj⟩ := hin
    rw [hc] at hd
    rw [← Option.some.inj hd] at hdj
    exact hj hdj

theorem halt_not_mem_abortQueries : Query.halt j ∉ abortQueries P id n := by
  intro h
  simp only [abortQueries] at h
  split_ifs at h <;> simp at h

theorem resetQueries_haltsFirst (ht : Topology P) (hid : nodeIdValid P id = true)
    (hlevels : P.nodeCount < id+levels) (hk : (P.node j).kind = .leaf)
    (hhalt : (P.node j).halt = true) (hrun : (ns j).running = true) :
    HaltsFirst P j [] (resetQueries P ns levels id) := by
  induction levels generalizing id with
  | zero =>
    have := (nodeIdValid_iff.mp hid).2
    omega
  | succ levels ih =>
    have hmem : ∀ c, IsChild P id c → Below P c j → Query.halt j ∈ resetQueries P ns levels c := by
      intro c hc hcj
      have hlt := child_lt ht hc
      exact halt_mem_resetQueries ht hc.1 (by omega) hcj hk hhalt hrun
    have hbranch : ∀ l l₁, children P id = l₁ ++ l → HaltsFirst P j []
        (branchQueries P ns (resetQueries P ns levels) id l₁.length l) := by
      intro l
      induction l with
      | nil => exact fun _ _ => haltsFirst_nonaborting (by simp [branchQueries])
      | cons c l ihl =>
        intro l₁ hl
        have hc : IsChild P id c := (mem_children ht hid).mp (by rw [hl]; simp)
        have hlt := child_lt ht hc
        have hrest := ihl (l₁ ++ [c]) (by rw [hl]; simp)
        rw [List.length_append, List.length_singleton] at hrest
        have hindex : (children P id)[l₁.length]? = some c := by rw [hl]; simp
        rw [branchQueries]
        apply haltsFirst_append
        · apply haltsFirst_append (ih hc.1 (by omega))
          exact haltsFirst_branchAbort hindex (fun hcj => by simpa using hmem c hc hcj)
        · exact haltsFirst_mono (by simp) hrest
    have hall : Below P id j → Query.halt j ∈ resetQueries P ns (levels+1) id :=
      fun hj => halt_mem_resetQueries ht hid hlevels hj hk hhalt hrun
    rw [resetQueries, if_pos hid] at hall ⊢
    apply haltsFirst_append
    · apply haltsFirst_append
      · apply haltsFirst_nonaborting
        intro q hq hin
        simp only [haltQueries] at hq
        split_ifs at hq <;> simp at hq
        rw [hq] at hin
        exact hin
      · exact haltsFirst_mono (by simp) (hbranch _ [] rfl)
    · apply haltsFirst_abortQueries
      intro hj
      rcases List.mem_append.mp (hall hj) with h | h
      · simpa using h
      · exact absurd h halt_not_mem_abortQueries

end Order

end SaltsUtils.BehaviorTree
