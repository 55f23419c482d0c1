import SaltsUtils.BehaviorTree.Reference

/-!
# Ticks carry out the reference evaluation

A tick of a sequential tree goes on where the position of the tree says, up to
the next leaf that is RUNNING, and leaves the position of that leaf. Repeated
ticks therefore perform one reference evaluation.
-/

set_option autoImplicit false

namespace SaltsUtils.BehaviorTree
open SaltsUtils.Forest SaltsUtils.Suspension

variable {σ : Type}

section States
variable (P : Plan) (ns : ℕ → NodeState)

/-- Nothing below `id` has been started or all of it has been finished. -/
def Inactive (id : ℕ) : Prop :=
  ∀ j, Below P id j → (ns j).cursor = 0 ∧ (ns j).counter = 0 ∧
    ((P.node j).kind = .leaf → (ns j).running = false)

/-- The states between ticks: under each node only the current child is active. -/
structure ReadyNode (j : ℕ) : Prop where
  cursor : (ns j).cursor = 0 ∨ IsChild P j (ns j).cursor
  others : ∀ c, IsChild P j c → c ≠ currentChild (P.node j) (ns j) → Inactive P ns c
  plain : (P.node j).kind ∈ [.leaf, .inverter, .forceSuccess, .forceFailure] →
    (ns j).cursor = 0 ∧ (ns j).counter = 0
  spent : (P.node j).kind ∈ [.retry, .repeat] → (P.node j).configuredLimit ≤ (ns j).counter →
    ∀ c, IsChild P j c → Inactive P ns c

def Ready (id : ℕ) : Prop := ∀ j, Below P id j → ReadyNode P ns j

def StaticLimits : Prop :=
  ∀ j, nodeIdValid P j = true → (ns j).limit = (P.node j).configuredLimit

end States

/-- What lies between two worlds of a tick below `id`: its returns and its leaf
invocations, which agree. -/
structure Trail (P : Plan) (id : ℕ) (w w' : World σ) (vs : List Visit) (evs : List Event) :
    Prop where
  visits : w'.visits = w.visits ++ vs
  trace : w'.trace = w.trace ++ evs
  calls : invocations evs = callsOf P (logOf P vs)
  outside : ∀ k, ¬ Below P id k → w'.nodes k = w.nodes k
  limits : ∀ k, (w'.nodes k).limit = (w.nodes k).limit

structure Ticked (P : Plan) (env : Env σ) (id : ℕ) (w : World σ) (status : NodeStatus)
    (vs : List Visit) (evs : List Event) (w' : World σ) : Prop where
  trail : Trail P id w w' vs evs
  advance : Advance (reference P env) (remaining P w.nodes) (.node id) (remaining P w'.nodes)
    (.node id) w.env (logOf P vs) (resultOf status) w'.env
  done : status ≠ .running → Inactive P w'.nodes id
  ready : status = .running → Ready P w'.nodes id

/-- The same for a part of the program of `id` that carries out the task `t`. -/
structure Worked (P : Plan) (env : Env σ) (id : ℕ) (t : Task ℕ Bool) (w : World σ)
    (status : NodeStatus) (vs : List Visit) (evs : List Event) (w' : World σ) : Prop where
  trail : Trail P id w w' vs evs
  advance : ∃ t', Advance (reference P env) (remaining P w.nodes) (.task t)
    (remaining P w'.nodes) (.task t') w.env (logOf P vs) (resultOf status) w'.env ∧
    (status = .running → remaining P w'.nodes id = some t')
  done : status ≠ .running → Inactive P w'.nodes id
  ready : status = .running → Ready P w'.nodes id

def Ticks (P : Plan) (env : Env σ) (id : ℕ) (w : World σ) (m : Run σ TickResult) : Prop :=
  ∃ status vs evs, (m w).1 = .ok status ∧ Ticked P env id w status vs evs (m w).2

def Works (P : Plan) (env : Env σ) (id : ℕ) (t : Task ℕ Bool) (w : World σ)
    (m : Run σ TickResult) : Prop :=
  ∃ status vs evs, (m w).1 = .ok status ∧ Worked P env id t w status vs evs (m w).2

/-- A tree of sequential nodes without resolvers whose leaves give a status. -/
structure Sequential (P : Plan) (env : Env σ) : Prop where
  plan : ValidPlan P
  kinds : ∀ i, nodeIdValid P i = true → SequentialKind (P.node i).kind = true
  static : ∀ i, nodeIdValid P i = true → (P.node i).parameterResolver = none
  answers : ∀ e id, statusOf (env e (.handler id)).1.status ≠ none

variable {c : ℕ} {n : NodeState}

section Trails
variable {P : Plan} {id : ℕ} {w w' w'' : World σ} {vs vs' : List Visit} {evs evs' : List Event}

theorem trail_trans (h : Trail P id w w' vs evs) (h' : Trail P id w' w'' vs' evs') :
    Trail P id w w'' (vs ++ vs') (evs ++ evs') where
  visits := by rw [h'.visits, h.visits, List.append_assoc]
  trace := by rw [h'.trace, h.trace, List.append_assoc]
  calls := by
    rw [logOf_append, callsOf_append, ← h.calls, ← h'.calls]
    simp [invocations]
  outside k hk := by rw [h'.outside k hk, h.outside k hk]
  limits k := by rw [h'.limits k, h.limits k]

theorem trail_child (hc : IsChild P id c) (h : Trail P c w w' vs evs) : Trail P id w w' vs evs :=
  ⟨h.visits, h.trace, h.calls, fun k hk => h.outside k (fun hb => hk (below_of_child hc hb)),
    h.limits⟩

theorem trail_set (hn : n.limit = (w.nodes id).limit) : Trail P id w (w.set id n) [] [] := by
  refine ⟨by simp, by simp, rfl, ?_, ?_⟩
  · intro k hk
    apply set_nodes_ne
    rintro rfl
    exact hk (below_refl k)
  · intro k
    by_cases hk : k = id
    · rw [hk, set_nodes_self, hn]
    · rw [set_nodes_ne w n hk]

theorem staticLimits_trail (h : Trail P id w w' vs evs) (hs : StaticLimits P w.nodes) :
    StaticLimits P w'.nodes :=
  fun j hj => (h.limits j).trans (hs j hj)

end Trails

section Positions
variable {P : Plan} {ns ns' : ℕ → NodeState} {id : ℕ}

theorem inactive_below (h : Inactive P ns id) {j : ℕ} (hj : Below P id j) : Inactive P ns j :=
  fun k hk => h k (below_trans hj hk)

/-- The fields that say where a node stands. -/
structure SamePlace (n n' : NodeState) : Prop where
  cursor : n'.cursor = n.cursor
  counter : n'.counter = n.counter
  running : n'.running = n.running

theorem inactive_place (h : Inactive P ns id)
    (hsame : ∀ j, Below P id j → SamePlace (ns j) (ns' j)) : Inactive P ns' id := by
  intro j hj
  obtain ⟨h₁, h₂, h₃⟩ := hsame j hj
  rw [h₁, h₂, h₃]
  exact h j hj

theorem ready_place (h : Ready P ns id) (hsame : ∀ j, Below P id j → SamePlace (ns j) (ns' j)) :
    Ready P ns' id := by
  intro j hj
  obtain ⟨hcursor, hothers, hplain, hspent⟩ := h j hj
  obtain ⟨h₁, h₂, -⟩ := hsame j hj
  have hkids : ∀ c, IsChild P j c → ∀ k, Below P c k → SamePlace (ns k) (ns' k) :=
    fun c hc k hk => hsame k (below_trans hj (below_of_child hc hk))
  constructor
  case cursor => rw [h₁]; exact hcursor
  case others =>
    intro c hc hne
    rw [currentChild, h₁] at hne
    exact inactive_place (hothers c hc hne) (hkids c hc)
  case plain => rw [h₁, h₂]; exact hplain
  case spent =>
    intro hk hle c hc
    rw [h₂] at hle
    exact inactive_place (hspent hk hle c hc) (hkids c hc)

theorem samePlace_of_eq {n' : NodeState} (h : n' = n) : SamePlace n n' := by
  rw [h]
  exact ⟨rfl, rfl, rfl⟩

theorem inactive_congr (h : Inactive P ns id) (hsame : ∀ j, Below P id j → ns' j = ns j) :
    Inactive P ns' id :=
  inactive_place h (fun j hj => samePlace_of_eq (hsame j hj))

theorem ready_congr (h : Ready P ns id) (hsame : ∀ j, Below P id j → ns' j = ns j) :
    Ready P ns' id :=
  ready_place h (fun j hj => samePlace_of_eq (hsame j hj))

theorem ready_of_inactive (h : Inactive P ns id) : Ready P ns id :=
  fun j hj => ⟨Or.inl (h j hj).1,
    fun _ hc _ => inactive_below h (below_trans hj (below_child hc)),
    fun _ => ⟨(h j hj).1, (h j hj).2.1⟩,
    fun _ _ _ hc => inactive_below h (below_trans hj (below_child hc))⟩

theorem ready_of_children (hown : ReadyNode P ns id)
    (hactive : c = currentChild (P.node id) (ns id)) (hc : Ready P ns c) : Ready P ns id := by
  intro j hj
  rcases below_cases hj with rfl | ⟨d, hd, hdj⟩
  · exact hown
  · by_cases hdc : d = c
    · exact hc j (hdc ▸ hdj)
    · exact ready_of_inactive (hown.others d hd (hactive ▸ hdc)) j hdj

theorem remaining_congr (h : (ns' id).cursor = (ns id).cursor)
    (h' : (ns' id).counter = (ns id).counter) : remaining P ns' id = remaining P ns id := by
  simp only [remaining, currentChild, h, h']

theorem currentChild_isChild (ht : Topology P) (hid : nodeIdValid P id = true)
    (hcursor : n.cursor = 0 ∨ IsChild P id n.cursor) (hne : currentChild (P.node id) n ≠ 0) :
    IsChild P id (currentChild (P.node id) n) := by
  rcases hcursor with h0 | hc
  · simp only [currentChild, h0, ne_eq, not_true_eq_false, if_false] at hne ⊢
    rw [← mem_children ht hid]
    rw [firstChild_eq ht hid] at hne ⊢
    cases hl : children P id with
    | nil =>
      rw [hl] at hne
      exact absurd rfl hne
    | cons c l => exact List.mem_cons_self
  · have h0 : n.cursor ≠ 0 := (nodeIdValid_iff.mp hc.1).1
    simp only [currentChild, if_pos h0]
    exact hc

theorem remaining_visit (hplan : ValidPlan P) (hid : nodeIdValid P id = true)
    (hcursor : (ns id).cursor = 0 ∨ IsChild P id (ns id).cursor) {d : ℕ}
    {next : Bool → Task ℕ Bool} (h : remaining P ns id = some (.visit d next)) :
    IsChild P id d := by
  have hsingle : nodeKindIsSingleChild (P.node id).kind = true →
      IsChild P id (currentChild (P.node id) (ns id)) := by
    intro hk
    apply currentChild_isChild hplan.top hid hcursor
    have hfirst := (nodeIdValid_iff.mp (first_isChild hplan hid hk).1).1
    simp only [currentChild]
    split_ifs with h0
    · exact h0
    · exact hfirst
  have hlist : ∀ stop, listTask stop (siblingsFrom P P.nodeCount
      (currentChild (P.node id) (ns id))) = .visit d next → IsChild P id d := by
    intro stop ht
    cases hcount : P.nodeCount with
    | zero =>
      have := nodeIdValid_iff.mp hid
      omega
    | succ count =>
      rw [hcount, siblingsFrom] at ht
      split_ifs at ht with h0 hv
      · exact absurd ht (by simp [listTask])
      · injection ht with hd
        exact hd ▸ currentChild_isChild hplan.top hid hcursor h0
      · injection ht with hd
        exact hd ▸ currentChild_isChild hplan.top hid hcursor h0
  have hretry : ∀ c n, retryTask c n = .visit d next → d = c := by
    intro c n ht
    cases n with
    | zero => exact absurd ht (by simp [retryTask])
    | succ n => injection ht with hd; exact hd.symm
  have hrepeat : ∀ c n, repeatTask c n = .visit d next → d = c := by
    intro c n ht
    cases n with
    | zero => exact absurd ht (by simp [repeatTask])
    | succ n => injection ht with hd; exact hd.symm
  rw [remaining, nodeTask, if_pos hid] at h
  cases hk : (P.node id).kind <;> rw [hk] at h hsingle
  case leaf => exact absurd h (by simp)
  all_goals have h := Option.some.inj h
  case sequence => exact hlist _ h
  case fallback => exact hlist _ h
  case retry => exact hretry _ _ h ▸ hsingle rfl
  case «repeat» => exact hrepeat _ _ h ▸ hsingle rfl
  case inverter | forceSuccess | forceFailure =>
    injection h with hd
    exact hd ▸ hsingle rfl
  all_goals exact absurd h (by simp)

theorem untouched_of_inactive (hplan : ValidPlan P) (env : Env σ) (h : Inactive P ns id) :
    Untouched (reference P env) (remaining P ns) id := by
  intro j hj
  have hj' : Below P id j := Relation.ReflTransGen.mono (fun _ _ he => edge_isChild hplan he) id j hj
  obtain ⟨hcursor, hcounter, -⟩ := h j hj'
  simp only [remaining, currentChild, hcursor, hcounter]
  rfl

end Positions

variable {ns : ℕ → NodeState}

section Resets
variable {P : Plan} {env : Env σ} {id : ℕ} {w : World σ}

variable {i : ℕ}

section
variable (h : Sequential P env) (hi : nodeIdValid P i = true)
include h hi

theorem kind_cases :
    (P.node i).kind ≠ .parallel ∧ (P.node i).kind ≠ .pipelineSequence ∧ (P.node i).kind ≠
    .consumeQueue := by
  have hk := h.kinds i hi
  cases hkind : (P.node i).kind <;> rw [hkind] at hk
  case parallel | pipelineSequence | consumeQueue => exact absurd hk (by decide)
  all_goals decide

theorem resetQueries_quiet
    (hquiet : ∀ j, Below P i j → (P.node j).kind = .leaf → (ns j).running = false) (levels : ℕ) :
    resetQueries P ns levels i = [] := by
  induction levels generalizing i with
  | zero => rfl
  | succ levels ih =>
    obtain ⟨hparallel, hpipeline, hqueue⟩ := kind_cases h hi
    have hhalt : haltQueries P i (ns i) = [] := by
      rw [haltQueries, if_neg]
      rintro ⟨hk, hr⟩
      rw [hquiet i (below_refl i) hk] at hr
      exact absurd hr (by decide)
    have habort : abortQueries P i (ns i) = [] := by
      rw [abortQueries, if_neg (fun hk => hpipeline hk.1), if_neg (fun hk => hqueue hk.1)]
    have hbranches : ∀ (l : List ℕ) (index : ℕ), (∀ c ∈ l, IsChild P i c) →
        branchQueries P ns (resetQueries P ns levels) i index l = [] := by
      intro l
      induction l with
      | nil => exact fun _ _ => rfl
      | cons c l ihl =>
        intro index hl
        have hc := hl c List.mem_cons_self
        rw [branchQueries, ih hc.1 (fun j hj => hquiet j (below_of_child hc hj)), branchAbort,
          if_neg (fun hk => hparallel hk.1), ihl _ (fun d hd => hl d (List.mem_cons_of_mem c hd))]
        rfl
    rw [resetQueries, hhalt, habort,
      hbranches _ _ (fun c hc => (mem_children h.plan.top hi).mp hc), if_pos hi]
    rfl

theorem reset_quiet
    (hquiet : ∀ j, Below P i j → (P.node j).kind = .leaf → (w.nodes j).running = false) :
    (resetNodeState P env i w).2 = w.withNodes (resetNodes P false w.nodes i) := by
  rw [resetNodeState, reset_eq env h.plan.top false hi, resetQueries_quiet h hi hquiet]
  rfl

end

theorem inactive_reset (ns : ℕ → NodeState) (i : ℕ) : Inactive P (resetNodes P false ns i) i := by
  intro j hj
  simp only [resetNodes, if_pos hj]
  refine ⟨rfl, rfl, ?_⟩
  intro hk
  simp [resetOne, clearNode, hk]

theorem trail_reset (i : ℕ) (w : World σ) :
    Trail P i w (w.withNodes (resetNodes P false w.nodes i)) [] [] := by
  refine ⟨by simp [World.withNodes], by simp [World.withNodes], rfl, ?_, ?_⟩
  · intro k hk
    simp only [World.withNodes, resetNodes, if_neg hk]
  · intro k
    by_cases hk : Below P i k
    · simp only [World.withNodes, resetNodes, if_pos hk, resetOne, clearNode]
    · simp only [World.withNodes, resetNodes, if_neg hk]

theorem quiet_of_children (hk : (P.node id).kind ≠ .leaf)
    (h : ∀ c, IsChild P id c → Inactive P ns c) :
    ∀ j, Below P id j → (P.node j).kind = .leaf → (ns j).running = false := by
  intro j hj hleaf
  rcases below_cases hj with rfl | ⟨c, hc, hcj⟩
  · exact absurd hleaf hk
  · exact (h c hc j hcj).2.2 hleaf

end Resets

variable {t : Task ℕ Bool} {m m' : Run σ TickResult}

section Works
variable {P : Plan} {env : Env σ} {id : ℕ} {w : World σ}

theorem works_terminate (h : Sequential P env) (hid : nodeIdValid P id = true)
    (hk : (P.node id).kind ≠ .leaf) (hkids : ∀ c, IsChild P id c → Inactive P w.nodes c)
    (b : Bool) : Works P env id (.done b) w (terminate P env id (ofResult b)) := by
  have hreset := reset_quiet h hid (quiet_of_children hk hkids)
  have hworld : (terminate P env id (ofResult b) w).2 =
      (w.withNodes (resetNodes P false w.nodes id)).set id
        { resetNodes P false w.nodes id id with lastStatus := ofResult b } := by
    show (finishWith id (ofResult b) (resetNodeState P env id w).2).2 = _
    rw [hreset]
    rfl
  have hstatus : resultOf (ofResult b) = some b := by cases b <;> rfl
  have hne : ofResult b ≠ .running := by cases b <;> decide
  refine ⟨ofResult b, [], [], rfl, ?_⟩
  rw [hworld]
  constructor
  case trail =>
    exact trail_trans (trail_reset id w) (trail_set rfl)
  case advance =>
    rw [hstatus]
    exact ⟨.done b, advance_done, fun hr => absurd hr hne⟩
  case done =>
    intro _ j hj
    have hinactive := inactive_reset (P := P) w.nodes id j hj
    by_cases hji : j = id
    · rw [hji] at hinactive ⊢
      rw [set_nodes_self]
      exact hinactive
    · rw [set_nodes_ne _ _ hji]
      exact hinactive
  case ready => exact fun hr => absurd hr hne

theorem advance_own_write (h : Sequential P env) (hc : IsChild P id c)
    {rem : ℕ → Option (Task ℕ Bool)} {ns' : ℕ → NodeState} {e e' : σ} {log : List (ℕ × Option Bool)}
    {o : Option Bool} (hsame : ∀ j, j ≠ id → ns' j = ns j)
    (ha : Advance (reference P env) rem (.node c) (remaining P ns) (.node c) e log o e')
    (hready : Ready P ns c) :
    Advance (reference P env) rem (.node c) (remaining P ns') (.node c) e log o e' := by
  refine ⟨ha.now, ?_⟩
  intro ho log' o' e'' hresume
  apply ha.later ho
  have hbelow : ∀ j, Below P c j → remaining P ns' j = remaining P ns j := by
    intro j hj
    have hne : j ≠ id := by
      rintro rfl
      exact not_below_parent (is_forest h.plan.top) hc hj
    rw [remaining, remaining, hsame j hne]
  apply resume_congr (A := {j | Below P c j}) _ (fun j hj => (hbelow j hj).symm) _ hresume
  · intro j hj d next hd
    rw [hbelow j hj] at hd
    exact below_trans hj (below_child
      (remaining_visit h.plan (below_valid hc.1 hj) (hready j hj).cursor hd))
  · rintro j rfl
    exact below_refl j

theorem ofResult_result {status : NodeStatus} (h : status ≠ .running) :
    ∃ b, status = ofResult b ∧ resultOf status = some b := by
  cases status with
  | success => exact ⟨true, rfl, rfl⟩
  | failure => exact ⟨false, rfl, rfl⟩
  | running => exact absurd rfl h

theorem works_congr {t : Task ℕ Bool} {m m' : Run σ TickResult} (hm : m w = m' w)
    (h : Works P env id t w m') : Works P env id t w m := by
  rw [Works, hm]
  exact h

/-- A tick of the current child and what follows it: the node waits with the
child, or it goes on with the child's result. -/
theorem works_visit (h : Sequential P env) (hc : IsChild P id c) {tick : ℕ → Run σ TickResult}
    {k : NodeStatus → Run σ TickResult} {next : Bool → Task ℕ Bool}
    (htick : ∀ w, StaticLimits P w.nodes → Ready P w.nodes c → Ticks P env c w (tick c))
    (hstatic : StaticLimits P w.nodes) (hready : Ready P w.nodes c)
    (hothers : ∀ d, IsChild P id d → d ≠ c → Inactive P w.nodes d)
    (hwait : ∀ w₁, w₁.nodes id = w.nodes id → k .running w₁ = (.ok .running, w₁.set id n))
    (hlimit : n.limit = (w.nodes id).limit)
    (hplace : ∀ ns : ℕ → NodeState, ns id = n → remaining P ns id = some (.visit c next))
    (hcurrent : currentChild (P.node id) n = c) (hcursor : n.cursor = 0 ∨ IsChild P id n.cursor)
    (hplain : (P.node id).kind ∈ [.leaf, .inverter, .forceSuccess, .forceFailure] → n.cursor = 0 ∧
      n.counter = 0)
    (hspent : (P.node id).kind ∈ [.retry, .repeat] → n.counter < (P.node id).configuredLimit)
    (hstarts : ∀ b d, (Goal.task (next b)).starts d → IsChild P id d)
    (hgo : ∀ b w₁, StaticLimits P w₁.nodes → w₁.nodes id = w.nodes id →
      (∀ d, IsChild P id d → Inactive P w₁.nodes d) → Works P env id (next b) w₁ (k (ofResult b))) :
    Works P env id (.visit c next) w (onOk (tick c) k) := by
  have hf := is_forest h.plan.top
  obtain ⟨status, vs, evs, hres, hticked⟩ := htick w hstatic hready
  have hrun : onOk (tick c) k w = k status (tick c w).2 := onOk_ok (Prod.ext hres rfl)
  have hown : (tick c w).2.nodes id = w.nodes id :=
    hticked.trail.outside id (not_below_parent hf hc)
  have hsiblings : ∀ d, IsChild P id d → d ≠ c → Inactive P (tick c w).2.nodes d := by
    intro d hd hdc
    apply inactive_congr (hothers d hd hdc)
    exact fun j hj => hticked.trail.outside j (below_disjoint hf hd hc hdc hj)
  rw [Works, hrun]
  by_cases hs : status = .running
  · subst hs
    rw [hwait _ hown]
    have hnodes : ∀ j, j ≠ id → ((tick c w).2.set id n).nodes j = (tick c w).2.nodes j :=
      fun j hj => set_nodes_ne _ _ hj
    have hchild : ∀ d, IsChild P id d → ∀ j, Below P d j →
        ((tick c w).2.set id n).nodes j = (tick c w).2.nodes j := by
      intro d hd j hj
      apply hnodes
      rintro rfl
      exact not_below_parent hf hd hj
    have htrail : Trail P id w ((tick c w).2.set id n) (vs ++ []) (evs ++ []) :=
      trail_trans (trail_child hc hticked.trail) (trail_set (by rw [hown, hlimit]))
    rw [List.append_nil, List.append_nil] at htrail
    refine ⟨.running, vs, evs, rfl, htrail, ?_, fun hr => absurd rfl hr, ?_⟩
    · have hadv := advance_own_write h hc hnodes hticked.advance (hticked.ready rfl)
      exact ⟨.visit c next, advance_visit_suspended hadv,
        fun _ => hplace _ (set_nodes_self _ _ _)⟩
    · intro _
      have hself : ((tick c w).2.set id n).nodes id = n := set_nodes_self _ _ _
      have hown' : ReadyNode P ((tick c w).2.set id n).nodes id := by
        constructor
        case others =>
          intro d hd hdc
          rw [hself, hcurrent] at hdc
          exact inactive_congr (hsiblings d hd hdc) (hchild d hd)
        all_goals rw [hself]
        case cursor => exact hcursor
        case plain => exact hplain
        case spent => exact fun hk hle => absurd (hspent hk) (by omega)
      apply ready_of_children hown' (by rw [hself, hcurrent])
      exact ready_congr (hticked.ready rfl) (hchild c hc)
  · obtain ⟨b, rfl, hb⟩ := ofResult_result hs
    have hkids : ∀ d, IsChild P id d → Inactive P (tick c w).2.nodes d := by
      intro d hd
      by_cases hdc : d = c
      · exact hdc ▸ hticked.done hs
      · exact hsiblings d hd hdc
    have hstatic' := staticLimits_trail hticked.trail hstatic
    obtain ⟨status', vs', evs', hres', hworked⟩ := hgo b _ hstatic' hown hkids
    obtain ⟨t', hadv', hrest'⟩ := hworked.advance
    have hadv := hticked.advance
    rw [hb] at hadv
    refine ⟨status', vs ++ vs', evs ++ evs', hres',
      trail_trans (trail_child hc hticked.trail) hworked.trail, ⟨t', ?_, hrest'⟩, hworked.done,
      hworked.ready⟩
    rw [logOf_append]
    apply advance_visit hadv _ hadv'
    exact fun d hd => untouched_of_inactive h.plan env (hkids d (hstarts b d hd))

theorem works_after (h : Sequential P env) {w₂ : World σ} (heq : m' w = m w₂)
    (htrail : Trail P id w w₂ [] []) (henv : w₂.env = w.env)
    (hsame : ∀ j, Below P id j → j ≠ id → remaining P w.nodes j = remaining P w₂.nodes j)
    (hstarts : ∀ d, (Goal.task t).starts d → IsChild P id d ∧ Ready P w₂.nodes d)
    (hw : Works P env id t w₂ m) : Works P env id t w m' := by
  obtain ⟨status, vs, evs, hres, hworked⟩ := hw
  obtain ⟨t', hadv, hplace⟩ := hworked.advance
  have hmove : ∀ {log o e''}, Resume (reference P env) (remaining P w₂.nodes) (.task t) w₂.env
      log o e'' → Resume (reference P env) (remaining P w.nodes) (.task t) w.env log o e'' := by
    intro log o e'' hresume
    rw [← henv]
    apply resume_congr (A := {j | ∃ d, (Goal.task t).starts d ∧ Below P d j}) _ _ _ hresume
    · rintro j ⟨d, hd, hdj⟩ b next hb
      obtain ⟨hc, hready⟩ := hstarts d hd
      exact ⟨d, hd, below_trans hdj (below_child (remaining_visit h.plan
        (below_valid hc.1 hdj) (hready j hdj).cursor hb))⟩
    · rintro j ⟨d, hd, hdj⟩
      have hc := (hstarts d hd).1
      apply hsame j (below_of_child hc hdj)
      rintro rfl
      exact not_below_parent (is_forest h.plan.top) hc hdj
    · exact fun d hd => ⟨d, hd, below_refl d⟩
  refine ⟨status, vs, evs, by rw [heq]; exact hres, ?_⟩
  rw [heq]
  refine ⟨trail_trans htrail hworked.trail, ⟨t', ⟨hmove hadv.now, ?_⟩, hplace⟩, hworked.done,
    hworked.ready⟩
  exact fun ho log' o' e'' hrest => hmove (hadv.later ho log' o' e'' hrest)

theorem works_set (h : Sequential P env) (heq : m' w = m (w.set id n))
    (hlimit : n.limit = (w.nodes id).limit)
    (hkids : ∀ d, (Goal.task t).starts d → IsChild P id d ∧ Ready P (w.set id n).nodes d)
    (hw : Works P env id t (w.set id n) m) : Works P env id t w m' := by
  apply works_after h heq (trail_set hlimit) rfl _ hkids hw
  intro j _ hj
  rw [remaining, remaining, set_nodes_ne w n hj]

theorem inactive_set (ht : Topology P) (hc : IsChild P id c) (h : Inactive P w.nodes c) :
    Inactive P (w.set id n).nodes c := by
  apply inactive_congr h
  intro j hj
  apply set_nodes_ne
  rintro rfl
  exact not_below_parent (is_forest ht) hc hj

end Works

section Kinds

/-- A status whose result, if it is one, is changed by `f`. -/
def mapResult (f : Bool → Bool) : NodeStatus → NodeStatus
  | .success => ofResult (f true)
  | .failure => ofResult (f false)
  | .running => .running

theorem finishWith_eq (id : ℕ) (status : NodeStatus) (w : World σ) :
    finishWith id status w = (.ok status, w.set id { w.nodes id with lastStatus := status }) := rfl

theorem wait_eq (id c : ℕ) (w : World σ) :
    (do setCursor id c; finishWith id .running : Run σ TickResult) w =
      (.ok .running, w.set id { w.nodes id with cursor := c, lastStatus := .running }) := by
  show finishWith id .running (w.set id { w.nodes id with cursor := c }) = _
  rw [finishWith_eq, set_nodes_self, set_set]

variable {P : Plan} {env : Env σ} {tick : ℕ → Run σ TickResult} {id : ℕ} (h : Sequential P env)
  (hid : nodeIdValid P id = true)
  (htick : ∀ c, IsChild P id c → ∀ w, StaticLimits P w.nodes → Ready P w.nodes c →
    Ticks P env c w (tick c))
include h hid htick

theorem works_memoryLoop {stop : Bool} (hk : (P.node id).kind ∈ [.sequence, .fallback])
    (htask : ∀ l c n, nodeTask P id l c n = some (listTask stop l)) (pre l : List ℕ)
    (hl : children P id = pre ++ l) (w : World σ) (hstatic : StaticLimits P w.nodes)
    (hhead : ∀ c rest, l = c::rest → Ready P w.nodes c)
    (hkids : ∀ d, IsChild P id d → (∀ rest, l ≠ d::rest) → Inactive P w.nodes d) :
    Works P env id (listTask stop l) w
      (memoryLoop P env tick id (ofResult stop) (ofResult (!stop)) l) := by
  have hplain : (P.node id).kind ∉ [.leaf, .inverter, .forceSuccess, .forceFailure] := by
    intro hk'
    cases hkind : (P.node id).kind <;> simp [hkind] at hk hk'
  have hleaf : (P.node id).kind ≠ .leaf := by
    intro hk'
    simp [hk'] at hk
  induction l generalizing pre w with
  | nil =>
    apply works_terminate h hid hleaf
    exact fun d hd => hkids d hd (fun rest => by simp)
  | cons c l ih =>
    have hc : IsChild P id c := by
      rw [← mem_children h.plan.top hid, hl]
      simp
    have hnext : ∀ d rest, l = d::rest → IsChild P id d := by
      intro d rest hd
      rw [← mem_children h.plan.top hid, hl, hd]
      simp
    rw [memoryLoop, if_neg (by simp [hc.1])]
    apply works_visit h hc (n := { w.nodes id with cursor := c, lastStatus := .running })
      (htick c hc) hstatic (hhead c l rfl)
    · intro d hd hdc
      apply hkids d hd
      intro rest heq
      exact hdc (List.cons.inj heq).1.symm
    · intro w₁ hw₁
      have hne : NodeStatus.running ≠ ofResult stop := by cases stop <;> decide
      rw [if_neg hne, if_pos rfl, wait_eq, hw₁]
    · rfl
    · intro ns hns
      have hcur : currentChild (P.node id) (ns id) = c := by
        have h0 : c ≠ 0 := (nodeIdValid_iff.mp hc.1).1
        simp [currentChild, hns, h0]
      rw [remaining, hcur, siblingsFrom_suffix h.plan.top hid hl, htask]
      rfl
    · have h0 : c ≠ 0 := (nodeIdValid_iff.mp hc.1).1
      simp [currentChild, h0]
    · exact Or.inr hc
    · exact fun hk' => absurd hk' hplain
    · intro hk'
      cases hkind : (P.node id).kind <;> simp [hkind] at hk hk'
    · intro b d hd
      split_ifs at hd
      · exact hd.elim
      · cases l with
        | nil => exact hd.elim
        | cons d' l =>
          obtain rfl : d = d' := hd
          exact hnext d l rfl
    · intro b w₁ hstatic₁ hw₁ hkids₁
      by_cases hb : b = stop
      · rw [if_pos hb, hb]
        rw [if_pos rfl]
        exact works_terminate h hid hleaf hkids₁ stop
      · have hb' : ofResult b ≠ ofResult stop := by
          cases b <;> cases stop <;> first | decide | exact absurd rfl hb
        have hrun : ofResult b ≠ .running := by cases b <;> decide
        rw [if_neg hb]
        rw [if_neg hb', if_neg hrun]
        have hkids₂ : ∀ d, IsChild P id d →
            Inactive P (w₁.set id { w₁.nodes id with cursor := l.headD 0 }).nodes d :=
          fun d hd => inactive_set h.plan.top hd (hkids₁ d hd)
        apply works_set h (n := { w₁.nodes id with cursor := l.headD 0 }) rfl rfl
        · intro d hd
          cases l with
          | nil => exact hd.elim
          | cons d' l =>
            obtain rfl : d = d' := hd
            exact ⟨hnext d l rfl, ready_of_inactive (hkids₂ d (hnext d l rfl))⟩
        · apply ih (pre ++ [c]) (by rw [hl, List.append_assoc]; rfl)
          · exact staticLimits_trail (trail_set (P := P) rfl) hstatic₁
          · intro d rest hd
            exact ready_of_inactive (hkids₂ d (hnext d rest hd))
          · exact fun d hd _ => hkids₂ d hd

omit htick in
theorem currentChild_single (hk : nodeKindIsSingleChild (P.node id).kind = true)
    (hcursor : n.cursor = 0 ∨ IsChild P id n.cursor) :
    currentChild (P.node id) n = (P.node id).firstChild := by
  rcases hcursor with h0 | hc
  · simp [currentChild, h0]
  · have hmem := (mem_children h.plan.top hid).mpr hc
    rw [only_child h.plan hid hk] at hmem
    have h0 : n.cursor ≠ 0 := (nodeIdValid_iff.mp hc.1).1
    simp only [currentChild, if_pos h0]
    exact List.mem_singleton.mp hmem

omit htick in
theorem eq_first (hk : nodeKindIsSingleChild (P.node id).kind = true) (hc : IsChild P id c) :
    c = (P.node id).firstChild := by
  have hmem := (mem_children h.plan.top hid).mpr hc
  rw [only_child h.plan hid hk] at hmem
  exact List.mem_singleton.mp hmem

omit htick in
theorem works_round (hk : nodeKindIsSingleChild (P.node id).kind = true) {w : World σ}
    (hstatic : StaticLimits P w.nodes) (hkids : ∀ d, IsChild P id d → Inactive P w.nodes d)
    (hm : m' w = m ((w.set id { w.nodes id with counter := (w.nodes id).counter+1 }).withNodes
      (resetNodes P false (w.set id { w.nodes id with counter := (w.nodes id).counter+1 }).nodes
        (P.node id).firstChild)))
    (hstarts : ∀ d, (Goal.task t).starts d → IsChild P id d)
    (hgo : ∀ w₂, StaticLimits P w₂.nodes →
      w₂.nodes id = { w.nodes id with counter := (w.nodes id).counter+1 } →
      (∀ d, IsChild P id d → Inactive P w₂.nodes d) → Works P env id t w₂ m) :
    Works P env id t w m' := by
  have hf := is_forest h.plan.top
  have hc := first_isChild h.plan hid hk
  generalize hw₁ : w.set id { w.nodes id with counter := (w.nodes id).counter+1 } = w₁ at hm
  generalize hw₂ : w₁.withNodes (resetNodes P false w₁.nodes (P.node id).firstChild) = w₂ at hm
  have htrail : Trail P id w w₂ ([] ++ []) ([] ++ []) := by
    rw [← hw₂]
    apply trail_trans _ (trail_child hc (trail_reset _ w₁))
    rw [← hw₁]
    exact trail_set rfl
  have hkids₂ : ∀ d, IsChild P id d → Inactive P w₂.nodes d := by
    intro d hd
    rw [eq_first h hid hk hd, ← hw₂]
    exact inactive_reset _ _
  apply works_after h hm htrail (by rw [← hw₂, ← hw₁]; rfl)
  · intro j hj hne
    rcases below_cases hj with heq | ⟨d, hd, hdj⟩
    · exact absurd heq hne
    · obtain ⟨h₁, h₂, -⟩ := hkids d hd j hdj
      obtain ⟨h₁', h₂', -⟩ := hkids₂ d hd j hdj
      exact remaining_congr (by rw [h₁, h₁']) (by rw [h₂, h₂'])
  · exact fun d hd => ⟨hstarts d hd, ready_of_inactive (hkids₂ d (hstarts d hd))⟩
  · apply hgo w₂ (staticLimits_trail htrail hstatic) _ hkids₂
    rw [← hw₂]
    show resetNodes P false w₁.nodes (P.node id).firstChild id = _
    rw [resetNodes, if_neg (not_below_parent hf hc), ← hw₁, set_nodes_self]

theorem works_retryLoop (hk : (P.node id).kind = .retry) (rounds : ℕ) (w : World σ)
    (hstatic : StaticLimits P w.nodes) (hready : Ready P w.nodes (P.node id).firstChild)
    (hcursor : (w.nodes id).cursor = 0 ∨ IsChild P id (w.nodes id).cursor)
    (hlt : (w.nodes id).counter < (P.node id).configuredLimit)
    (hrounds : (P.node id).configuredLimit-(w.nodes id).counter < rounds) :
    Works P env id
      (retryTask (P.node id).firstChild ((P.node id).configuredLimit-(w.nodes id).counter)) w
      (retryLoop P env tick id rounds (P.node id).firstChild) := by
  have hsingle : nodeKindIsSingleChild (P.node id).kind = true := by rw [hk]; decide
  have hleaf : (P.node id).kind ≠ .leaf := by rw [hk]; decide
  have hc := first_isChild h.plan hid hsingle
  have hc0 : (P.node id).firstChild ≠ 0 := (nodeIdValid_iff.mp hc.1).1
  induction rounds generalizing w with
  | zero => omega
  | succ rounds ih =>
    obtain ⟨m, hm⟩ : ∃ m, (P.node id).configuredLimit-(w.nodes id).counter = m+1 :=
      ⟨(P.node id).configuredLimit-(w.nodes id).counter-1, by omega⟩
    rw [hm]
    apply works_congr
    · show (if (w.nodes id).counter < (w.nodes id).limit then _ else _ : Run σ TickResult) w = _
      rewrite [hstatic id hid, if_pos hlt]
      exact congrFun (if_neg hc0) w
    apply works_visit h hc (n := { w.nodes id with lastStatus := .running }) (htick _ hc) hstatic
      hready
    · exact fun d hd hdc => absurd (eq_first h hid hsingle hd) hdc
    · intro w₁ hw₁
      rw [← hw₁]
      rfl
    · rfl
    · intro ns hns
      have hcur := currentChild_single h hid hsingle (n := ns id) (by rw [hns]; exact hcursor)
      have hleft : (P.node id).configuredLimit-(ns id).counter = m+1 := by rw [hns]; exact hm
      rw [remaining, hcur, hleft, nodeTask, if_pos hid, hk]
      rfl
    · exact currentChild_single h hid hsingle hcursor
    · exact hcursor
    · rw [hk]
      exact fun hk' => absurd hk' (by decide)
    · exact fun _ => hlt
    · intro b d hd
      cases b with
      | true => exact hd.elim
      | false =>
        cases m with
        | zero => exact hd.elim
        | succ m =>
          obtain rfl : d = (P.node id).firstChild := hd
          exact hc
    · intro b w₁ hstatic₁ hw₁ hkids₁
      cases b with
      | true => exact works_terminate h hid hleaf hkids₁ true
      | false =>
        have hquiet : ∀ j, Below P (P.node id).firstChild j → (P.node j).kind = .leaf →
            ((w₁.set id { w₁.nodes id with counter := (w₁.nodes id).counter+1 }).nodes j).running =
              false := fun j hj => (inactive_set h.plan.top hc (hkids₁ _ hc) j hj).2.2
        apply works_round h hid hsingle (m := (do
          let n ← getNode id
          if n.limit ≤ n.counter then terminate P env id .failure
          else retryLoop P env tick id rounds (P.node id).firstChild)) hstatic₁ hkids₁
        · rw [← reset_quiet h hc.1 hquiet]
          rfl
        · intro d hd
          cases m with
          | zero => exact hd.elim
          | succ m =>
            obtain rfl : d = (P.node id).firstChild := hd
            exact hc
        · intro w₂ hstatic₂ hw₂ hkids₂
          have hcount : (w₂.nodes id).counter = (w.nodes id).counter+1 := by rw [hw₂, hw₁]
          have hif : (do
              let n ← getNode id
              if n.limit ≤ n.counter then terminate P env id .failure
              else retryLoop P env tick id rounds (P.node id).firstChild : Run σ TickResult) w₂ =
              (if (P.node id).configuredLimit ≤ (w.nodes id).counter+1 then
                terminate P env id .failure
              else retryLoop P env tick id rounds (P.node id).firstChild : Run σ TickResult) w₂ := by
            show (if (w₂.nodes id).limit ≤ (w₂.nodes id).counter then _ else _ :
              Run σ TickResult) w₂ = _
            rw [hstatic₂ id hid, hcount]
          rw [Works, hif]
          by_cases hend : (P.node id).configuredLimit ≤ (w.nodes id).counter+1
          · obtain rfl : m = 0 := by omega
            rw [if_pos hend]
            exact works_terminate h hid hleaf hkids₂ false
          · obtain rfl : m = (P.node id).configuredLimit-(w₂.nodes id).counter := by omega
            rw [if_neg hend]
            apply ih w₂ hstatic₂ (ready_of_inactive (hkids₂ _ hc))
            · rw [hw₂, hw₁]
              exact hcursor
            · omega
            · omega

theorem works_repeatLoop (hk : (P.node id).kind = .repeat) (rounds : ℕ) (w : World σ)
    (hstatic : StaticLimits P w.nodes) (hready : Ready P w.nodes (P.node id).firstChild)
    (hcursor : (w.nodes id).cursor = 0 ∨ IsChild P id (w.nodes id).cursor)
    (hspent : (P.node id).configuredLimit ≤ (w.nodes id).counter →
      ∀ c, IsChild P id c → Inactive P w.nodes c)
    (hrounds : (P.node id).configuredLimit-(w.nodes id).counter < rounds) :
    Works P env id
      (repeatTask (P.node id).firstChild ((P.node id).configuredLimit-(w.nodes id).counter)) w
      (repeatLoop P env tick id rounds (P.node id).firstChild) := by
  have hsingle : nodeKindIsSingleChild (P.node id).kind = true := by rw [hk]; decide
  have hleaf : (P.node id).kind ≠ .leaf := by rw [hk]; decide
  have hc := first_isChild h.plan hid hsingle
  have hc0 : (P.node id).firstChild ≠ 0 := (nodeIdValid_iff.mp hc.1).1
  induction rounds generalizing w with
  | zero => omega
  | succ rounds ih =>
    by_cases hlt : (w.nodes id).counter < (P.node id).configuredLimit
    · obtain ⟨m, hm⟩ : ∃ m, (P.node id).configuredLimit-(w.nodes id).counter = m+1 :=
        ⟨(P.node id).configuredLimit-(w.nodes id).counter-1, by omega⟩
      rw [hm]
      apply works_congr
      · show (if (w.nodes id).counter < (w.nodes id).limit then _ else _ : Run σ TickResult) w = _
        rewrite [hstatic id hid, if_pos hlt]
        exact congrFun (if_neg hc0) w
      apply works_visit h hc (n := { w.nodes id with lastStatus := .running }) (htick _ hc) hstatic
        hready
      · exact fun d hd hdc => absurd (eq_first h hid hsingle hd) hdc
      · intro w₁ hw₁
        rw [← hw₁]
        rfl
      · rfl
      · intro ns hns
        have hcur := currentChild_single h hid hsingle (n := ns id) (by rw [hns]; exact hcursor)
        have hleft : (P.node id).configuredLimit-(ns id).counter = m+1 := by rw [hns]; exact hm
        rw [remaining, hcur, hleft, nodeTask, if_pos hid, hk]
        rfl
      · exact currentChild_single h hid hsingle hcursor
      · exact hcursor
      · rw [hk]
        exact fun hk' => absurd hk' (by decide)
      · exact fun _ => hlt
      · intro b d hd
        cases m with
        | zero => exact hd.elim
        | succ m =>
          obtain rfl : d = (P.node id).firstChild := hd
          exact hc
      · intro b w₁ hstatic₁ hw₁ hkids₁
        have hrun : ofResult b ≠ .running := by cases b <;> decide
        have hquiet : ∀ j, Below P (P.node id).firstChild j → (P.node j).kind = .leaf →
            ((w₁.set id { w₁.nodes id with counter := (w₁.nodes id).counter+1 }).nodes j).running =
              false := fun j hj => (inactive_set h.plan.top hc (hkids₁ _ hc) j hj).2.2
        rw [if_neg hrun]
        apply works_round h hid hsingle (m := repeatLoop P env tick id rounds (P.node id).firstChild)
          hstatic₁ hkids₁
        · rw [← reset_quiet h hc.1 hquiet]
          rfl
        · intro d hd
          cases m with
          | zero => exact hd.elim
          | succ m =>
            obtain rfl : d = (P.node id).firstChild := hd
            exact hc
        · intro w₂ hstatic₂ hw₂ hkids₂
          have hcount : (w₂.nodes id).counter = (w.nodes id).counter+1 := by rw [hw₂, hw₁]
          obtain rfl : m = (P.node id).configuredLimit-(w₂.nodes id).counter := by omega
          apply ih w₂ hstatic₂ (ready_of_inactive (hkids₂ _ hc))
          · rw [hw₂, hw₁]
            exact hcursor
          · exact fun _ => hkids₂
          · omega
    · have hzero : (P.node id).configuredLimit-(w.nodes id).counter = 0 := by omega
      have hbody : repeatLoop P env tick id (rounds+1) (P.node id).firstChild w =
          terminate P env id .success w := by
        show (if (w.nodes id).counter < (w.nodes id).limit then _ else _ : Run σ TickResult) w = _
        rw [hstatic id hid, if_neg hlt]
      rw [hzero, Works, hbody]
      exact works_terminate h hid hleaf (hspent (by omega)) true

theorem works_singleChild {f : Bool → Bool}
    (hk : (P.node id).kind ∈ [.inverter, .forceSuccess, .forceFailure])
    (htask : ∀ l c n, nodeTask P id l c n = some (.visit c (fun b => .done (f b))))
    (w : World σ) (hstatic : StaticLimits P w.nodes)
    (hready : Ready P w.nodes (P.node id).firstChild)
    (hcursor : (w.nodes id).cursor = 0) (hcounter : (w.nodes id).counter = 0) :
    Works P env id (.visit (P.node id).firstChild (fun b => .done (f b))) w
      (onOk (tick (P.node id).firstChild) (fun s => finishWith id (mapResult f s))) := by
  have hsingle : nodeKindIsSingleChild (P.node id).kind = true := by
    cases hkind : (P.node id).kind <;> simp [hkind] at hk <;> decide
  have hleaf : (P.node id).kind ≠ .leaf := by
    intro hk'
    simp [hk'] at hk
  have hc := first_isChild h.plan hid hsingle
  apply works_visit h hc (n := { w.nodes id with lastStatus := .running }) (htick _ hc) hstatic
    hready
  · exact fun d hd hdc => absurd (eq_first h hid hsingle hd) hdc
  · intro w₁ hw₁
    rw [mapResult, finishWith_eq, hw₁]
  · rfl
  · intro ns hns
    have hcur := currentChild_single h hid hsingle (n := ns id) (Or.inl (by rw [hns]; exact hcursor))
    rw [remaining, hcur, htask]
  · exact currentChild_single h hid hsingle (Or.inl hcursor)
  · exact Or.inl hcursor
  · exact fun _ => ⟨hcursor, hcounter⟩
  · intro hk'
    cases hkind : (P.node id).kind <;> simp [hkind] at hk hk'
  · exact fun b d hd => hd.elim
  · intro b w₁ hstatic₁ hw₁ hkids₁
    have hresult : resultOf (ofResult (f b)) = some (f b) := by cases f b <;> rfl
    have hrun : ofResult (f b) ≠ .running := by cases f b <;> decide
    have hmap : mapResult f (ofResult b) = ofResult (f b) := by cases b <;> rfl
    rw [hmap]
    refine ⟨ofResult (f b), [], [], rfl, ?_⟩
    rw [finishWith_eq]
    refine ⟨trail_set rfl, ⟨.done (f b), ?_, fun hr => absurd hr hrun⟩, ?_, fun hr => absurd hr hrun⟩
    · rw [hresult]
      exact advance_done
    · intro _ j hj
      rcases below_cases hj with rfl | ⟨d, hd, hdj⟩
      · rw [set_nodes_self, hw₁]
        exact ⟨hcursor, hcounter, fun hk' => absurd hk' hleaf⟩
      · exact inactive_set h.plan.top hd (hkids₁ d hd) j hdj

theorem works_memory {stop : Bool} (hk : (P.node id).kind ∈ [.sequence, .fallback])
    (htask : ∀ l c n, nodeTask P id l c n = some (listTask stop l)) (w : World σ)
    (hstatic : StaticLimits P w.nodes) (hready : Ready P w.nodes id) :
    Works P env id (listTask stop
        (siblingsFrom P P.nodeCount (currentChild (P.node id) (w.nodes id)))) w
      (memoryLoop P env tick id (ofResult stop) (ofResult (!stop))
        (siblingsFrom P P.nodeCount (currentChild (P.node id) (w.nodes id)))) := by
  have ht := h.plan.top
  have hown := hready id (below_refl id)
  have hsplit : ∀ d, IsChild P id d → ∃ pre rest, children P id = pre ++ d::rest ∧
      siblingsFrom P P.nodeCount d = d::rest := by
    intro d hd
    obtain ⟨pre, rest, hl⟩ := List.append_of_mem ((mem_children ht hid).mpr hd)
    exact ⟨pre, rest, hl, siblingsFrom_suffix ht hid hl⟩
  obtain ⟨pre, hl⟩ : ∃ pre, children P id =
      pre ++ siblingsFrom P P.nodeCount (currentChild (P.node id) (w.nodes id)) := by
    rcases hown.cursor with h0 | hc
    · refine ⟨[], ?_⟩
      simp [currentChild, h0, children]
    · obtain ⟨pre, rest, hl, hs⟩ := hsplit _ hc
      have h0 : (w.nodes id).cursor ≠ 0 := (nodeIdValid_iff.mp hc.1).1
      refine ⟨pre, ?_⟩
      rw [currentChild, if_pos h0, hs, hl]
  apply works_memoryLoop h hid htick hk htask pre _ hl w hstatic
  · intro c rest hc
    have hchild : IsChild P id c := by
      rw [← mem_children ht hid, hl, hc]
      simp
    exact fun j hj => hready j (below_of_child hchild hj)
  · intro d hd hne
    apply hown.others d hd
    rintro rfl
    obtain ⟨pre', rest, -, hs⟩ := hsplit _ hd
    exact hne rest hs

theorem works_tickKind (hleaf : (P.node id).kind ≠ .leaf) (w : World σ)
    (hstatic : StaticLimits P w.nodes) (hready : Ready P w.nodes id) :
    ∃ t, remaining P w.nodes id = some t ∧ Works P env id t w (tickKind P env tick id) := by
  have hown := hready id (below_refl id)
  have hkind := h.kinds id hid
  have hfirst : nodeKindIsSingleChild (P.node id).kind = true →
      Ready P w.nodes (P.node id).firstChild ∧
        currentChild (P.node id) (w.nodes id) = (P.node id).firstChild := by
    intro hs
    exact ⟨fun j hj => hready j (below_of_child (first_isChild h.plan hid hs) hj),
      currentChild_single h hid hs hown.cursor⟩
  have htask := nodeTask_valid hid
  rw [remaining]
  cases hk : (P.node id).kind <;> rw [hk] at hkind hfirst htask
  case leaf => exact absurd hk hleaf
  case sequence =>
    refine ⟨_, htask _ _ _, works_congr ?_
      (works_memory h hid htick (by rw [hk]; decide) htask w hstatic hready)⟩
    simp only [tickKind, hk]
    rfl
  case fallback =>
    refine ⟨_, htask _ _ _, works_congr ?_
      (works_memory h hid htick (by rw [hk]; decide) htask w hstatic hready)⟩
    simp only [tickKind, hk]
    rfl
  case inverter | forceSuccess | forceFailure =>
    obtain ⟨hf, hcur⟩ := hfirst rfl
    obtain ⟨hcursor, hcounter⟩ := hown.plain (by rw [hk]; decide)
    have hc0 : (P.node id).firstChild ≠ 0 :=
      (nodeIdValid_iff.mp (first_isChild h.plan hid (by rw [hk]; decide)).1).1
    rw [hcur]
    refine ⟨_, htask _ _ _, works_congr ?_ (works_singleChild h hid htick (by rw [hk]; decide) htask w
      hstatic hf hcursor hcounter)⟩
    have hprog : tickKind P env tick id w =
        tickSingleChild P tick id (currentChild (P.node id) (w.nodes id)) w := by
      simp only [tickKind, hk]
      rfl
    rw [hprog, hcur, tickSingleChild, if_neg hc0]
    congr 2
    funext s
    rw [hk]
    cases s <;> rfl
  case retry =>
    obtain ⟨hf, hcur⟩ := hfirst rfl
    rw [hcur]
    refine ⟨_, htask _ _ _, ?_⟩
    have hprog : tickKind P env tick id w =
        (if (w.nodes id).limit = 0 ∨ (w.nodes id).limit ≤ (w.nodes id).counter then
          terminate P env id .failure
        else retryLoop P env tick id ((w.nodes id).limit-(w.nodes id).counter+1)
          (currentChild (P.node id) (w.nodes id)) : Run σ TickResult) w := by
      simp only [tickKind, hk]
      rfl
    rw [hstatic id hid, hcur] at hprog
    apply works_congr hprog
    by_cases hlt : (w.nodes id).counter < (P.node id).configuredLimit
    · rw [if_neg (by omega)]
      exact works_retryLoop h hid htick hk _ w hstatic hf hown.cursor hlt (by omega)
    · have hzero : (P.node id).configuredLimit-(w.nodes id).counter = 0 := by omega
      rw [if_pos (by omega), hzero]
      exact works_terminate h hid hleaf (hown.spent (by rw [hk]; decide) (by omega)) false
  case «repeat» =>
    obtain ⟨hf, hcur⟩ := hfirst rfl
    rw [hcur]
    refine ⟨_, htask _ _ _, ?_⟩
    have hspent := hown.spent (by rw [hk]; decide)
    have hprog : tickKind P env tick id w =
        (if (w.nodes id).limit = 0 then terminate P env id .success
        else repeatLoop P env tick id ((w.nodes id).limit-(w.nodes id).counter+1)
          (currentChild (P.node id) (w.nodes id)) : Run σ TickResult) w := by
      simp only [tickKind, hk]
      rfl
    rw [hstatic id hid, hcur] at hprog
    apply works_congr hprog
    by_cases hzero : (P.node id).configuredLimit = 0
    · have hnone : (P.node id).configuredLimit-(w.nodes id).counter = 0 := by omega
      rw [if_pos hzero, hnone]
      exact works_terminate h hid hleaf (hspent (by omega)) true
    · rw [if_neg hzero]
      exact works_repeatLoop h hid htick hk _ w hstatic hf hown.cursor hspent (by omega)
  all_goals exact absurd hkind (by decide)

end Kinds

section Nodes
variable {P : Plan} {env : Env σ} {id : ℕ}

theorem samePlace_evaluated (w : World σ) (id : ℕ) (b : Bool) (j : ℕ) :
    SamePlace (w.nodes j) ((w.set id { w.nodes id with evaluated := b }).nodes j) := by
  by_cases hj : j = id
  · rw [hj, set_nodes_self]
    exact ⟨rfl, rfl, rfl⟩
  · rw [set_nodes_ne w _ hj]
    exact ⟨rfl, rfl, rfl⟩

theorem remaining_evaluated (w : World σ) (id : ℕ) (b : Bool) :
    remaining P (w.set id { w.nodes id with evaluated := b }).nodes = remaining P w.nodes := by
  funext j
  have hsame := samePlace_evaluated w id b j
  exact remaining_congr hsame.cursor hsame.counter

def leftWorld (id : ℕ) (status : NodeStatus) (w : World σ) : World σ :=
  (leaveNode id (.ok status) w).2

theorem leftWorld_eq (id : ℕ) (status : NodeStatus) (w : World σ) :
    leftWorld id status w = { w.set id { w.nodes id with evaluated := true } with
      visits := w.visits ++
        [⟨id, .ok status, (w.set id { w.nodes id with evaluated := true }).nodes⟩] } := rfl

theorem tickNode_static (h : Sequential P env) (hid : nodeIdValid P id = true) (levels : ℕ)
    {w w₁ : World σ} {status : NodeStatus}
    (hrun : tickKind P env (tickNode P env levels) id
      (w.set id { w.nodes id with evaluated := false }) = (.ok status, w₁)) :
    tickNode P env (levels+1) id w = (.ok status, leftWorld id status w₁) := by
  rw [tickNode, if_pos hid]
  have himpl : tickNodeImpl P env (tickNode P env levels) id w = (.ok status, w₁) := by
    rw [tickNodeImpl, resolveParameters, h.static id hid, ← hrun]
    rfl
  show leaveNode id (tickNodeImpl P env (tickNode P env levels) id w).1
    (tickNodeImpl P env (tickNode P env levels) id w).2 = _
  rw [himpl]
  rfl

theorem trail_left (hleaf : (P.node id).kind ≠ .leaf) (status : NodeStatus) (w : World σ) :
    Trail P id w (leftWorld id status w)
      [⟨id, .ok status, (leftWorld id status w).nodes⟩] [] := by
  have hset : Trail P id w (w.set id { w.nodes id with evaluated := true }) [] [] := trail_set rfl
  refine ⟨rfl, hset.trace, ?_, hset.outside, hset.limits⟩
  have hentries : ∀ x ∈ logOf P [⟨id, .ok status, (leftWorld id status w).nodes⟩], x.1 = id := by
    intro x hx
    obtain ⟨v, hv, he⟩ := List.mem_filterMap.mp hx
    rw [List.mem_singleton.mp hv] at he
    simp only [entry] at he
    split_ifs at he
    rw [← Option.some.inj he]
  have hnone : (logOf P [⟨id, .ok status, (leftWorld id status w).nodes⟩]).filter
      (fun x => (P.node x.1).kind = .leaf) = [] := by
    rw [List.filter_eq_nil_iff]
    intro x hx
    simpa [hentries x hx] using hleaf
  rw [callsOf, hnone]
  rfl

theorem ticks_leaf (h : Sequential P env) (hid : nodeIdValid P id = true)
    (hk : (P.node id).kind = .leaf) (levels : ℕ) (w : World σ) (hready : Ready P w.nodes id) :
    Ticks P env id w (tickNode P env (levels+1) id) := by
  obtain ⟨status, hstatus⟩ := Option.ne_none_iff_exists'.mp (h.answers w.env id)
  have hno : ∀ j, Below P id j → j = id := by
    intro j hj
    rcases below_cases hj with heq | ⟨c, hc, -⟩
    · exact heq
    · have hmem := (mem_children h.plan.top hid).mpr hc
      rw [leaf_no_children h.plan.top hid hk] at hmem
      exact absurd hmem List.not_mem_nil
  have hnochild : ∀ c, ¬ IsChild P id c := by
    intro c hc
    have hlt := child_lt h.plan.top hc
    rw [hno c (below_child hc)] at hlt
    exact absurd hlt (lt_irrefl id)
  obtain ⟨hcursor, hcounter⟩ := (hready id (below_refl id)).plain (by rw [hk]; decide)
  generalize hw₀ : w.set id { w.nodes id with evaluated := false } = w₀
  generalize hw₁ : (w₀.call env (.handler id)).set id { w₀.nodes id with
    running := decide (status = .running), lastStatus := status } = w₁
  have hrun : tickKind P env (tickNode P env levels) id w₀ = (.ok status, w₁) := by
    have hleaf : tickKind P env (tickNode P env levels) id w₀ = tickLeaf env id w₀ := by
      simp only [tickKind, hk]
      rfl
    have hanswer : statusOf (w₀.answer env (.handler id)).status = some status := by
      rw [← hw₀]
      exact hstatus
    rw [hleaf, ← hw₁]
    exact tickLeaf_some hanswer
  rw [← hw₀] at hrun
  have hnode : (leftWorld id status w₁).nodes id = { w.nodes id with
      running := decide (status = .running), lastStatus := status, evaluated := true } := by
    rw [leftWorld_eq, ← hw₁, ← hw₀]
    simp [World.set]
  have hbody : (reference P env).body id = none := by
    simp [reference, nodeTask, hid, hk]
  have hrem : ∀ ns, remaining P ns id = none := by
    intro ns
    simp [remaining, nodeTask, hid, hk]
  have hcall : (reference P env).call id w.env = (resultOf status, (leftWorld id status w₁).env) := by
    rw [leftWorld_eq, ← hw₁, ← hw₀]
    simp only [reference, hstatus]
    rfl
  have hlog : logOf P [⟨id, .ok status, (leftWorld id status w₁).nodes⟩] =
      [(id, resultOf status)] := by
    simp [logOf, entry, hk]
  refine ⟨status, [⟨id, .ok status, (leftWorld id status w₁).nodes⟩],
    [⟨.handler id, (env w.env (.handler id)).1⟩], ?_, ?_⟩
  · rw [tickNode_static h hid levels hrun]
  · rw [tickNode_static h hid levels hrun]
    constructor
    case trail =>
      refine ⟨?_, ?_, ?_, ?_, ?_⟩
      · rw [leftWorld_eq, ← hw₁, ← hw₀]
        rfl
      · rw [leftWorld_eq, ← hw₁, ← hw₀]
        rfl
      · rw [hlog]
        simp [invocations, callsOf, hstatus, hk]
      · intro k hk'
        have hne : k ≠ id := by
          rintro rfl
          exact hk' (below_refl k)
        rw [leftWorld_eq, ← hw₁, ← hw₀]
        simp [World.set, hne]
      · intro k
        by_cases hki : k = id
        · rw [hki, hnode]
        · rw [leftWorld_eq, ← hw₁, ← hw₀]
          simp [World.set, hki]
    case advance =>
      rw [hlog]
      cases hres : resultOf status with
      | none =>
        rw [hres] at hcall
        exact advance_unanswered hbody (hrem _) (hrem _) hcall
      | some b =>
        rw [hres] at hcall
        exact advance_answered hbody (hrem _) hcall
    case done =>
      intro hne j hj
      rw [hno j hj, hnode]
      exact ⟨hcursor, hcounter, fun _ => decide_eq_false hne⟩
    case ready =>
      intro _ j hj
      rw [hno j hj]
      constructor
      case others => exact fun c hc => absurd hc (hnochild c)
      case spent => exact fun _ _ c hc => absurd hc (hnochild c)
      all_goals rw [hnode]
      case cursor => exact Or.inl hcursor
      case plain => exact fun _ => ⟨hcursor, hcounter⟩

theorem ticks_tickNode (h : Sequential P env) (levels : ℕ) (hid : nodeIdValid P id = true)
    (hlevels : P.maxDepth < levels+(P.node id).depth) (w : World σ)
    (hstatic : StaticLimits P w.nodes) (hready : Ready P w.nodes id) :
    Ticks P env id w (tickNode P env levels id) := by
  induction levels generalizing id w with
  | zero =>
    have hdepth := h.plan.top.depth_le id hid
    omega
  | succ levels ih =>
    by_cases hk : (P.node id).kind = .leaf
    · exact ticks_leaf h hid hk levels w hready
    · generalize hw₀ : w.set id { w.nodes id with evaluated := false } = w₀
      have hstatic₀ : StaticLimits P w₀.nodes := by
        rw [← hw₀]
        exact staticLimits_trail (trail_set (P := P) rfl) hstatic
      have hready₀ : Ready P w₀.nodes id := by
        rw [← hw₀]
        exact ready_place hready (fun j _ => samePlace_evaluated w id false j)
      have htick : ∀ c, IsChild P id c → ∀ w, StaticLimits P w.nodes → Ready P w.nodes c →
          Ticks P env c w (tickNode P env levels c) := by
        intro c hc w hs hr
        have hdepth := h.plan.top.depth_child id c hc
        exact ih hc.1 (by omega) w hs hr
      obtain ⟨t, ht, status, vs, evs, hres, hworked⟩ :=
        works_tickKind h hid htick hk w₀ hstatic₀ hready₀
      generalize hw₁ : (tickKind P env (tickNode P env levels) id w₀).2 = w₁ at hworked
      have hrun : tickKind P env (tickNode P env levels) id
          (w.set id { w.nodes id with evaluated := false }) = (.ok status, w₁) := by
        rw [hw₀]
        exact Prod.ext hres hw₁
      obtain ⟨t', hadv, hplace⟩ := hworked.advance
      have hrem₀ : remaining P w₀.nodes = remaining P w.nodes := by
        rw [← hw₀]
        exact remaining_evaluated w id false
      have hrem₁ : remaining P (leftWorld id status w₁).nodes = remaining P w₁.nodes :=
        remaining_evaluated w₁ id true
      have henv₀ : w₀.env = w.env := by rw [← hw₀]; rfl
      rw [hrem₀, henv₀] at hadv
      rw [hrem₀] at ht
      have hset : Trail P id w w₀ [] [] := by
        rw [← hw₀]
        exact trail_set rfl
      have htrail := trail_trans (trail_trans hset hworked.trail) (trail_left hk status w₁)
      rw [List.nil_append, List.nil_append, List.append_nil] at htrail
      refine ⟨status, vs ++ [⟨id, .ok status, (leftWorld id status w₁).nodes⟩], evs, ?_, ?_⟩
      · rw [tickNode_static h hid levels hrun]
      · rw [tickNode_static h hid levels hrun]
        refine ⟨htrail, ?_, ?_, ?_⟩
        · rw [hrem₁, logOf_append]
          by_cases hs : status = .running
          · have hnone : logOf P [⟨id, .ok status, (leftWorld id status w₁).nodes⟩] = [] := by
              simp [logOf, entry, hk, hs]
            rw [hnone, List.append_nil]
            rw [hs] at hadv ⊢
            exact advance_inner_suspended ht (hplace hs) hadv
          · obtain ⟨b, -, hb⟩ := ofResult_result hs
            have hone : logOf P [⟨id, .ok status, (leftWorld id status w₁).nodes⟩] =
                [(id, some b)] := by
              simp [logOf, entry, hs, hb]
            rw [hone]
            rw [hb] at hadv ⊢
            exact advance_inner ht hadv
        · intro hs
          exact inactive_place (hworked.done hs) (fun j _ => samePlace_evaluated w₁ id true j)
        · intro hs
          exact ready_place (hworked.ready hs) (fun j _ => samePlace_evaluated w₁ id true j)

end Nodes

end SaltsUtils.BehaviorTree
