import SaltsUtils.BehaviorTree.Construction

/-!
# The effect of a reset

A reset reads and writes only the subtree it is given, and its callbacks have no results.
-/

set_option autoImplicit false

namespace SaltsUtils.BehaviorTree
open SaltsUtils.Forest

variable {σ : Type}

variable {id : ℕ}

section Worlds

def World.call (env : Env σ) (q : Query) (w : World σ) : World σ := (ask env q w).2

def World.answer (env : Env σ) (q : Query) (w : World σ) : Answer := (env w.env q).1

def World.set (w : World σ) (id : ℕ) (n : NodeState) : World σ :=
  { w with nodes := Function.update w.nodes id n }

def World.withNodes (w : World σ) (ns : ℕ → NodeState) : World σ := { w with nodes := ns }

def World.callAll (env : Env σ) : List Query → World σ → World σ
  | [], w => w
  | q::qs, w => callAll env qs (w.call env q)

variable (env : Env σ)

@[simp] theorem call_nodes (q : Query) (w : World σ) : (w.call env q).nodes = w.nodes := rfl

@[simp] theorem call_visits (q : Query) (w : World σ) : (w.call env q).visits = w.visits := rfl

@[simp] theorem call_trace (q : Query) (w : World σ) :
    (w.call env q).trace = w.trace ++ [⟨q, w.answer env q⟩] := rfl

@[simp] theorem set_trace (w : World σ) (id : ℕ) (n : NodeState) : (w.set id n).trace = w.trace :=
  rfl

@[simp] theorem set_visits (w : World σ) (id : ℕ) (n : NodeState) :
    (w.set id n).visits = w.visits := rfl

@[simp] theorem set_nodes_self (w : World σ) (id : ℕ) (n : NodeState) :
    (w.set id n).nodes id = n := Function.update_self _ _ _

theorem set_nodes_ne (w : World σ) {j : ℕ} (n : NodeState) (h : j ≠ id) :
    (w.set id n).nodes j = w.nodes j := Function.update_of_ne h _ _

theorem callAll_append (qs rs : List Query) (w : World σ) :
    w.callAll env (qs ++ rs) = (w.callAll env qs).callAll env rs := by
  induction qs generalizing w with
  | nil => rfl
  | cons q qs ih => exact ih (w.call env q)

@[simp] theorem callAll_nodes (qs : List Query) (w : World σ) :
    (w.callAll env qs).nodes = w.nodes := by
  induction qs generalizing w with
  | nil => rfl
  | cons q qs ih => exact ih (w.call env q)

@[simp] theorem callAll_visits (qs : List Query) (w : World σ) :
    (w.callAll env qs).visits = w.visits := by
  induction qs generalizing w with
  | nil => rfl
  | cons q qs ih => exact ih (w.call env q)

theorem callAll_withNodes (qs : List Query) (w : World σ) (ns : ℕ → NodeState) :
    (w.withNodes ns).callAll env qs = (w.callAll env qs).withNodes ns := by
  induction qs generalizing w with
  | nil => rfl
  | cons q qs ih => exact ih (w.call env q)

theorem callAll_trace (qs : List Query) (w : World σ) :
    ∃ evs : List Event, (w.callAll env qs).trace = w.trace ++ evs ∧ evs.map Event.query = qs := by
  induction qs generalizing w with
  | nil => exact ⟨[], by simp [World.callAll], rfl⟩
  | cons q qs ih =>
    obtain ⟨evs, htrace, hqs⟩ := ih (w.call env q)
    refine ⟨⟨q, w.answer env q⟩::evs, ?_, by simp [hqs]⟩
    simp [World.callAll, htrace]

end Worlds

section Effect
variable (P : Plan)

def haltQueries (id : ℕ) (n : NodeState) : List Query :=
  if (P.node id).kind = .leaf ∧ n.running = true then
    if (P.node id).halt then [.halt id] else []
  else []

def abortQueries (id : ℕ) (n : NodeState) : List Query :=
  if (P.node id).kind = .pipelineSequence ∧ n.prepared = true then
    if (P.node id).pipelineAbort then [.pipelineAbort id n.counter] else []
  else if (P.node id).kind = .consumeQueue ∧ n.prepared = true then
    if (P.node id).queueAbort then [.queueAbort id] else []
  else []

def branchAbort (id index : ℕ) (c : NodeState) : List Query :=
  if (P.node id).kind = .parallel ∧ c.parallelBranchPrepared = true then
    if (P.node id).parallelAbort then [.parallelAbort id index] else []
  else []

def branchQueries (ns : ℕ → NodeState) (below : ℕ → List Query) (id : ℕ) :
    ℕ → List ℕ → List Query
  | _, [] => []
  | index, child::rest =>
    below child ++ branchAbort P id index (ns child) ++ branchQueries ns below id (index+1) rest

def resetQueries (ns : ℕ → NodeState) : ℕ → ℕ → List Query
  | 0, _ => []
  | levels+1, id =>
    if nodeIdValid P id then
      haltQueries P id (ns id) ++
        branchQueries P ns (resetQueries ns levels) id 0 (children P id) ++
        abortQueries P id (ns id)
    else []

def resetOne (clear inside : Bool) (j : ℕ) (n : NodeState) : NodeState :=
  clearNode (P.node j) clear { n with
    running := n.running && decide ((P.node j).kind ≠ .leaf)
    parallelBranchPrepared := n.parallelBranchPrepared &&
      !(inside && decide ((P.node (P.node j).parent).kind = .parallel)) }

open Classical in
noncomputable def resetList (clear : Bool) (ns : ℕ → NodeState) (l : List ℕ) : ℕ → NodeState :=
  fun j => if ∃ c ∈ l, Below P c j then resetOne P clear true j (ns j) else ns j

open Classical in
noncomputable def resetNodes (clear : Bool) (ns : ℕ → NodeState) (id : ℕ) : ℕ → NodeState :=
  fun j => if Below P id j then resetOne P clear (decide (j ≠ id)) j (ns j) else ns j

end Effect

variable {l : List ℕ} {levels : ℕ}

section Congruence
variable {P : Plan}

/-- The fields of a node state that decide which callbacks a reset issues. -/
structure SameContexts (n n' : NodeState) : Prop where
  running : n'.running = n.running
  prepared : n'.prepared = n.prepared
  counter : n'.counter = n.counter

theorem branchQueries_congr {ns ns' : ℕ → NodeState} {below below' : ℕ → List Query}
    (hb : ∀ c ∈ l, below' c = below c)
    (hm : ∀ c ∈ l, (ns' c).parallelBranchPrepared = (ns c).parallelBranchPrepared) (index : ℕ) :
    branchQueries P ns' below' id index l = branchQueries P ns below id index l := by
  induction l generalizing index with
  | nil => rfl
  | cons c l ih =>
    have hc := hm c List.mem_cons_self
    rw [branchQueries, branchQueries, hb c List.mem_cons_self,
      ih (fun d hd => hb d (List.mem_cons_of_mem c hd))
        (fun d hd => hm d (List.mem_cons_of_mem c hd))]
    simp only [branchAbort, hc]

theorem resetQueries_congr (ht : Topology P) {ns ns' : ℕ → NodeState}
    (h : ∀ j, Below P id j → SameContexts (ns j) (ns' j))
    (hm : ∀ j, Below P id j → j ≠ id → (ns' j).parallelBranchPrepared = (ns j).parallelBranchPrepared) :
    resetQueries P ns' levels id = resetQueries P ns levels id := by
  induction levels generalizing id with
  | zero => rfl
  | succ levels ih =>
    rw [resetQueries, resetQueries]
    by_cases hid : nodeIdValid P id = true
    · have hown := h id (below_refl id)
      have hchild : ∀ c ∈ children P id, IsChild P id c := fun c hc => (mem_children ht hid).mp hc
      have hbelow : ∀ c ∈ children P id, resetQueries P ns' levels c = resetQueries P ns levels c := by
        intro c hc
        apply ih
        · exact fun j hj => h j (below_of_child (hchild c hc) hj)
        · intro j hj _
          have hne : j ≠ id := by
            rintro rfl
            exact not_below_parent (is_forest ht) (hchild c hc) hj
          exact hm j (below_of_child (hchild c hc) hj) hne
      have hmark : ∀ c ∈ children P id,
          (ns' c).parallelBranchPrepared = (ns c).parallelBranchPrepared := by
        intro c hc
        exact hm c (below_child (hchild c hc)) (child_lt ht (hchild c hc)).ne'
      rw [if_pos hid, if_pos hid, branchQueries_congr hbelow hmark]
      simp only [haltQueries, abortQueries, hown.running, hown.prepared, hown.counter]
    · rw [if_neg hid, if_neg hid]

end Congruence

section Equation
variable {P : Plan} (env : Env σ)

theorem bind_snd {α β : Type} (m : Run σ α) (k : α → Run σ β) (w : World σ) :
    ((m >>= k) w).2 = (k (m w).1 (m w).2).2 := rfl

theorem set_self (w : World σ) (id : ℕ) : w.set id (w.nodes id) = w := by
  simp [World.set]

theorem withNodes_withNodes (w : World σ) (ns ns' : ℕ → NodeState) :
    (w.withNodes ns).withNodes ns' = w.withNodes ns' := rfl

theorem set_eq_withNodes (w : World σ) (id : ℕ) (n : NodeState) :
    w.set id n = w.withNodes (Function.update w.nodes id n) := rfl

theorem notify_eq (present : Bool) (q : Query) (w : World σ) :
    (notify env present q w).2 = w.callAll env (if present then [q] else []) := by
  cases present
  · rfl
  · rfl

theorem haltLeaf_eq (id : ℕ) (w : World σ) :
    (haltLeaf P env id w).2 =
      (w.set id { w.nodes id with
        running := (w.nodes id).running && decide ((P.node id).kind ≠ .leaf) }).callAll env
        (haltQueries P id (w.nodes id)) := by
  by_cases h : (P.node id).kind = .leaf ∧ (w.nodes id).running = true
  · have hprog : (haltLeaf P env id w).2 =
        (notify env (P.node id).halt (.halt id)
          (w.set id { w.nodes id with running := false })).2 := by
      show ((if _ then _ else _ : Run σ Unit) w).2 = _
      rw [if_pos h]
      rfl
    rw [hprog, notify_eq, haltQueries, if_pos h]
    simp [h.1]
  · have hprog : (haltLeaf P env id w).2 = w := by
      show ((if _ then _ else _ : Run σ Unit) w).2 = _
      rw [if_neg h]
      rfl
    have hsame : ((w.nodes id).running && decide ((P.node id).kind ≠ .leaf)) =
        (w.nodes id).running := by
      by_cases hk : (P.node id).kind = .leaf
      · have hr : (w.nodes id).running = false := by
          simpa [hk] using h
        simp [hr]
      · simp [hk]
    rw [hprog, haltQueries, if_neg h, hsame]
    exact (set_self w id).symm

theorem abortContext_eq (id : ℕ) (n : NodeState) (w : World σ) :
    (abortContext P env id n w).2 = w.callAll env (abortQueries P id n) := by
  rw [abortContext, abortQueries]
  by_cases hp : (P.node id).kind = .pipelineSequence ∧ n.prepared = true
  · rw [if_pos hp, if_pos hp, notify_eq]
  · rw [if_neg hp, if_neg hp]
    by_cases hq : (P.node id).kind = .consumeQueue ∧ n.prepared = true
    · rw [if_pos hq, if_pos hq, notify_eq]
    · rw [if_neg hq, if_neg hq]
      rfl

theorem resetList_nil (clear : Bool) (ns : ℕ → NodeState) : resetList P clear ns [] = ns := by
  funext j
  simp [resetList]

theorem resetList_cons (ht : Topology P) {c : ℕ} (clear : Bool) (ns : ℕ → NodeState)
    (hchild : ∀ d ∈ c::l, IsChild P id d) (hnodup : (c::l).Nodup) :
    resetList P clear (resetList P clear ns [c]) l = resetList P clear ns (c::l) := by
  obtain ⟨hcl, -⟩ := List.nodup_cons.mp hnodup
  funext j
  by_cases hl : ∃ d ∈ l, Below P d j
  · obtain ⟨d, hd, hj⟩ := hl
    have hdc : d ≠ c := fun he => hcl (he ▸ hd)
    have hnc : ¬ Below P c j := below_disjoint (is_forest ht)
      (hchild d (List.mem_cons_of_mem c hd)) (hchild c List.mem_cons_self) hdc hj
    have hall : ∃ e ∈ c::l, Below P e j := ⟨d, List.mem_cons_of_mem c hd, hj⟩
    simp only [resetList, if_pos hall, if_pos (⟨d, hd, hj⟩ : ∃ d ∈ l, Below P d j)]
    simp [hnc]
  · by_cases hc : Below P c j
    · simp [resetList, hl, hc]
    · simp [resetList, hl, hc]

def ResetsTo (P : Plan) (env : Env σ) (clear : Bool) (levels : ℕ) (reset : ℕ → Run σ Unit)
    (c : ℕ) : Prop :=
  ∀ w : World σ, (reset c w).2 =
    (w.withNodes (resetNodes P clear w.nodes c)).callAll env (resetQueries P w.nodes levels c)

section
variable (ht : Topology P)
include ht

theorem resetBranch_eq {clear : Bool} {reset : ℕ → Run σ Unit} {c : ℕ} (index : ℕ)
    (hc : IsChild P id c) (hreset : ResetsTo P env clear levels reset c) (w : World σ) :
    (resetBranch P env reset id index c w).2 = (w.withNodes (resetList P clear w.nodes [c])).callAll
    env (resetQueries P w.nodes levels c ++ branchAbort P id index (w.nodes c)) := by
  have hparent := hc.2.2
  by_cases h : (P.node id).kind = .parallel ∧ (w.nodes c).parallelBranchPrepared = true
  · have hprog : (resetBranch P env reset id index c w).2 =
        (notify env (P.node id).parallelAbort (.parallelAbort id index)
          (reset c (w.set c { w.nodes c with parallelBranchPrepared := false })).2).2 := by
      show ((if _ then _ else _ : Run σ Unit) w).2 = _
      rw [if_pos h]
      rfl
    have hq : resetQueries P (w.set c { w.nodes c with parallelBranchPrepared := false }).nodes
        levels c = resetQueries P w.nodes levels c := by
      apply resetQueries_congr ht
      · intro j _
        by_cases hj : j = c
        · subst hj
          simp only [set_nodes_self]
          exact ⟨rfl, rfl, rfl⟩
        · rw [set_nodes_ne w _ hj]
          exact ⟨rfl, rfl, rfl⟩
      · intro j _ hj
        rw [set_nodes_ne w _ hj]
    have hn : resetNodes P clear
        (w.set c { w.nodes c with parallelBranchPrepared := false }).nodes c =
        resetList P clear w.nodes [c] := by
      funext j
      by_cases hj : j = c
      · subst hj
        simp [resetNodes, resetList, resetOne, below_refl, hparent, h.1]
      · by_cases hb : Below P c j
        · simp [resetNodes, resetList, set_nodes_ne w _ hj, hj, hb]
        · simp [resetNodes, resetList, set_nodes_ne w _ hj, hb]
    rw [hprog, hreset, hq, hn, notify_eq, callAll_append, branchAbort, if_pos h]
    rfl
  · have hprog : (resetBranch P env reset id index c w).2 = (reset c w).2 := by
      show ((if _ then _ else _ : Run σ Unit) w).2 = _
      rw [if_neg h]
    have hn : resetNodes P clear w.nodes c = resetList P clear w.nodes [c] := by
      funext j
      by_cases hj : j = c
      · subst hj
        simp only [resetNodes, resetList, resetOne, below_refl, hparent, if_true,
          List.mem_singleton, exists_eq_left, ne_eq, not_true_eq_false, decide_false,
          Bool.false_and, Bool.not_false, Bool.and_true, Bool.true_and]
        by_cases hk : (P.node id).kind = .parallel
        · have hm : (w.nodes j).parallelBranchPrepared = false := by simpa [hk] using h
          simp [hm]
        · simp [hk]
      · by_cases hb : Below P c j
        · simp [resetNodes, resetList, hj, hb]
        · simp [resetNodes, resetList, hb]
    rw [hprog, hreset, hn, branchAbort, if_neg h, List.append_nil]

theorem resetChildren_eq {clear : Bool} {reset : ℕ → Run σ Unit} (hchild : ∀ c ∈ l, IsChild P id c)
    (hnodup : l.Nodup) (hreset : ∀ c ∈ l, ResetsTo P env clear levels reset c) (index : ℕ)
    (w : World σ) : (resetChildren P env reset id index l w).2 =
      (w.withNodes (resetList P clear w.nodes l)).callAll env
        (branchQueries P w.nodes (resetQueries P w.nodes levels) id index l) := by
  induction l generalizing index w with
  | nil =>
    rw [resetList_nil]
    rfl
  | cons c l ih =>
    have hc := hchild c List.mem_cons_self
    have hl : ∀ d ∈ l, IsChild P id d := fun d hd => hchild d (List.mem_cons_of_mem c hd)
    obtain ⟨hcl, hnd⟩ := List.nodup_cons.mp hnodup
    have hout : ∀ d ∈ l, ∀ j, Below P d j → resetList P clear w.nodes [c] j = w.nodes j := by
      intro d hd j hj
      have hdc : d ≠ c := fun he => hcl (he ▸ hd)
      have hnc : ¬ Below P c j := below_disjoint (is_forest ht) (hl d hd) hc hdc hj
      simp [resetList, hnc]
    have hrest : branchQueries P (resetList P clear w.nodes [c])
        (resetQueries P (resetList P clear w.nodes [c]) levels) id (index+1) l =
        branchQueries P w.nodes (resetQueries P w.nodes levels) id (index+1) l := by
      apply branchQueries_congr
      · intro d hd
        apply resetQueries_congr ht
        · intro j hj
          rw [hout d hd j hj]
          exact ⟨rfl, rfl, rfl⟩
        · intro j hj _
          rw [hout d hd j hj]
      · intro d hd
        rw [hout d hd d (below_refl d)]
    have hbranch := resetBranch_eq env ht index hc (hreset c List.mem_cons_self) w
    have hnodes : (resetBranch P env reset id index c w).2.nodes =
        resetList P clear w.nodes [c] := by
      rw [hbranch, callAll_nodes]
      rfl
    rw [resetChildren, bind_snd, ih hl hnd (fun d hd => hreset d (List.mem_cons_of_mem c hd)),
      hnodes, hrest, resetList_cons ht clear w.nodes hchild hnodup, hbranch,
      ← callAll_withNodes, withNodes_withNodes, ← callAll_append]
    rfl

theorem resetList_children (hid : nodeIdValid P id = true) (clear : Bool) (ns : ℕ → NodeState) :
    resetList P clear (Function.update ns id (resetOne P clear false id (ns id))) (children P id) =
    resetNodes P clear ns id := by
  funext j
  have hbelow : (∃ c ∈ children P id, Below P c j) ↔ j ≠ id ∧ Below P id j := by
    constructor
    · rintro ⟨c, hc, hj⟩
      have hc := (mem_children ht hid).mp hc
      refine ⟨?_, below_of_child hc hj⟩
      rintro rfl
      exact not_below_parent (is_forest ht) hc hj
    · rintro ⟨hne, hj⟩
      rcases below_cases hj with h | ⟨c, hc, hcj⟩
      · exact absurd h hne
      · exact ⟨c, (mem_children ht hid).mpr hc, hcj⟩
  by_cases hj : j = id
  · subst hj
    simp [resetList, hbelow, resetNodes, below_refl]
  · by_cases hb : Below P id j
    · have hex := hbelow.mpr ⟨hj, hb⟩
      simp only [resetList, resetNodes, if_pos hex, if_pos hb, Function.update_of_ne hj]
      simp [hj]
    · have hex : ¬ ∃ c ∈ children P id, Below P c j := fun he => hb (hbelow.mp he).2
      simp only [resetList, resetNodes, if_neg hex, if_neg hb, Function.update_of_ne hj]

/-- The reset of a subtree: every descendant is cleared, nothing else changes,
and the callbacks are those of `resetQueries`. -/
theorem resetNodeStateImpl_eq (clear : Bool) (hid : nodeIdValid P id = true)
    (hl : P.nodeCount < id+levels) :
    ResetsTo P env clear levels (fun c => resetNodeStateImpl P env levels c clear) id := by
  induction levels generalizing id with
  | zero =>
    have := (nodeIdValid_iff.mp hid).2
    omega
  | succ levels ih =>
    intro w
    have hchild : ∀ c ∈ children P id, IsChild P id c := fun c hc => (mem_children ht hid).mp hc
    have hreset : ∀ c ∈ children P id,
        ResetsTo P env clear levels (fun c => resetNodeStateImpl P env levels c clear) c := by
      intro c hc
      have hlt := child_lt ht (hchild c hc)
      exact ih (hchild c hc).1 (by omega)
    let w₁ : World σ := ((haltLeaf P env id w).2).set id
      (clearNode (P.node id) clear ((haltLeaf P env id w).2.nodes id))
    have hone : clearNode (P.node id) clear ((haltLeaf P env id w).2.nodes id) =
        resetOne P clear false id (w.nodes id) := by
      rw [haltLeaf_eq, callAll_nodes, set_nodes_self]
      simp [resetOne]
    have hw₁ : w₁ = (w.set id (resetOne P clear false id (w.nodes id))).callAll env
        (haltQueries P id (w.nodes id)) := by
      show ((haltLeaf P env id w).2).set id _ = _
      rw [hone, haltLeaf_eq, set_eq_withNodes, set_eq_withNodes, callAll_nodes,
        ← callAll_withNodes, withNodes_withNodes]
      congr 1
      simp [World.set, World.withNodes]
    have hns : w₁.nodes = Function.update w.nodes id (resetOne P clear false id (w.nodes id)) := by
      rw [hw₁, callAll_nodes]
      rfl
    have hout : ∀ c ∈ children P id, ∀ j, Below P c j → w₁.nodes j = w.nodes j := by
      intro c hc j hj
      have hne : j ≠ id := by
        rintro rfl
        exact not_below_parent (is_forest ht) (hchild c hc) hj
      rw [hns, Function.update_of_ne hne]
    have hbranches : branchQueries P w₁.nodes (resetQueries P w₁.nodes levels) id 0
        (children P id) =
        branchQueries P w.nodes (resetQueries P w.nodes levels) id 0 (children P id) := by
      apply branchQueries_congr
      · intro c hc
        apply resetQueries_congr ht
        · intro j hj
          rw [hout c hc j hj]
          exact ⟨rfl, rfl, rfl⟩
        · intro j hj _
          rw [hout c hc j hj]
      · intro c hc
        rw [hout c hc c (below_refl c)]
    have hprog : (resetNodeStateImpl P env (levels+1) id clear w).2 =
        (abortContext P env id (w.nodes id) (resetChildren P env
          (fun c => resetNodeStateImpl P env levels c clear) id 0 (children P id) w₁).2).2 := by
      rw [resetNodeStateImpl, if_pos hid]
      rfl
    rw [hprog, abortContext_eq, resetChildren_eq env ht hchild (nodup_children ht hid) hreset,
      hbranches, hns, resetList_children ht hid, hw₁, ← callAll_withNodes, ← callAll_append,
      ← callAll_append, resetQueries, if_pos hid, List.append_assoc]
    rfl

theorem reset_eq (clear : Bool) (hid : nodeIdValid P id = true) (w : World σ) :
    (resetNodeStateImpl P env P.nodeCount id clear w).2 =
    (w.withNodes (resetNodes P clear w.nodes id)).callAll env
    (resetQueries P w.nodes P.nodeCount id) := by
  have h0 := (nodeIdValid_iff.mp hid).1
  exact resetNodeStateImpl_eq env ht clear hid (by omega) w

theorem reset_nodes (clear : Bool) (hid : nodeIdValid P id = true) (w : World σ) :
    (resetNodeStateImpl P env P.nodeCount id clear w).2.nodes = resetNodes P clear w.nodes id := by
  rw [reset_eq env ht clear hid, callAll_nodes]
  rfl

theorem reset_visits (clear : Bool) (hid : nodeIdValid P id = true) (w : World σ) :
    (resetNodeStateImpl P env P.nodeCount id clear w).2.visits = w.visits := by
  rw [reset_eq env ht clear hid, callAll_visits]
  rfl

end

end Equation

end SaltsUtils.BehaviorTree
