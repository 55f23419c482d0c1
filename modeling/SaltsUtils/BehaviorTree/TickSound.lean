import SaltsUtils.BehaviorTree.Branches

/-!
# Parallel nodes, and all nodes together
-/

set_option autoImplicit false

/-!
## Parallel

The program of Parallel meets the specification of `tick_node`.
-/

namespace SaltsUtils.BehaviorTree
open SaltsUtils.Forest

variable {σ : Type}

section Parallel
variable {P : Plan} {env : Env σ} {tick : ℕ → Run σ TickResult} {w₀ w w' : World σ} {id : ℕ}
  {n : NodeState}

theorem at_mark (h : TickContext P env tick id) (ha : At P env w₀ id Set.univ n w) {c : ℕ} {x : Bool}
    (hc : IsChild P id c) (hact : Act P env id w w')
    (hnodes : w'.nodes = Function.update w.nodes c
      { w.nodes c with parallelBranchPrepared := x }) : At P env w₀ id Set.univ n w' := by
  have hcid : id ≠ c := (child_lt h.top hc).ne
  refine ⟨steps_act h.valid ha.steps hact, typed_act h.top h.valid hact ha.typed, ?_, ?_⟩
  · rw [hnodes, Function.update_of_ne hcid]
    exact ha.own
  · intro d hd
    refine ⟨?_, fun hdB => absurd (Set.mem_univ d) hdB⟩
    apply good_congr h.top _ (ha.kids d hd).1
    rw [hnodes]
    by_cases hdc : d = c
    · subst hdc
      exact ⟨fun k _ hk => Function.update_of_ne hk _ _, x, Function.update_self _ _ _⟩
    · apply agree_of_eq
      intro k hk
      apply Function.update_of_ne
      rintro rfl
      exact below_disjoint (is_forest h.top) hd hc hdc hk (below_refl k)

theorem ownOk_parallel (hk : (P.node id).kind = .parallel) {B : Set ℕ}
    (hcursor : n.cursor = 0 ∨ IsChild P id n.cursor) : OwnOk P id B n :=
  ⟨hcursor, fun hne => absurd hk hne,
    fun hc => absurd hc (not_cached (by rw [hk]; decide) (by rw [hk]; decide)),
    fun hp => absurd (hk.symm.trans hp) (by decide)⟩

theorem univ_mono {m : Run σ TickResult} {B : Set ℕ} (hm : Meets P env w₀ id Set.univ n m) :
    Meets P env w₀ id B n m :=
  meets_mono (fun c _ _ => Set.mem_univ c) hm

theorem hooks_eq (h : TickContext P env tick id) :
    (P.node id).parallelStep = (P.node id).parallelEnter ∧
      (P.node id).parallelFinish = (P.node id).parallelEnter := by
  have hc := h.callbacks
  simp only [callbacksAccepted, Bool.and_eq_true, decide_eq_true_eq] at hc
  exact ⟨hc.1.1.1.1.1.1.1.2.symm, hc.1.1.1.1.1.2.symm⟩

theorem unmarked (h : TickContext P env tick id) (ha : At P env w₀ id Set.univ n w) {c : ℕ}
    (hc : IsChild P id c) (hf : (P.node id).parallelFinish = false) :
    (w.nodes c).parallelBranchPrepared = false := by
  by_contra hne
  have hm := (ha.typed c hc.1).mark (by simpa using hne)
  rw [hc.2.2, ← (hooks_eq h).2, hf] at hm
  exact absurd hm.2.2 (by decide)

theorem post_restartBranch (h : TickContext P env tick id) (ha : At P env w₀ id Set.univ n w)
    {c : ℕ} (hc : IsChild P id c) (hmark : (w.nodes c).parallelBranchPrepared = false)
    (aggregate : NodeStatus) (terminal : Bool) {next : Run σ TickResult}
    (hnext : Meets P env w₀ id Set.univ n next) :
    Post P env w₀ id (restartBranch P env aggregate c terminal next w).1
      (restartBranch P env aggregate c terminal next w).2 := by
  rw [restartBranch]
  by_cases hr : aggregate = .running ∧ terminal = true
  · rw [if_pos hr]
    have hsame : w.set c { w.nodes c with parallelBranchPrepared := false } = w := by
      have hn : ({ w.nodes c with parallelBranchPrepared := false } : NodeState) = w.nodes c := by
        rw [← hmark]
      rw [hn]
      exact set_self w c
    have hrun : (do
        modifyNode c (fun n => { n with parallelBranchPrepared := false })
        resetTreeState P env c
        next : Run σ TickResult) w = next (resetTreeState P env c w).2 := by
      show next (resetTreeState P env c
        (w.set c { w.nodes c with parallelBranchPrepared := false })).2 = _
      rw [hsame]
    rw [hrun]
    exact univ_mono hnext _ (at_reset_child h ha hc true)
  · rw [if_neg hr]
    exact hnext w ha

theorem post_read {c : ℕ} {k : Branch → Run σ TickResult}
    (hk : ∀ b : Branch, b.prepared = (w.nodes c).parallelBranchPrepared →
      Post P env w₀ id (k b w).1 (k b w).2) :
    Post P env w₀ id ((readBranch c >>= k) w).1 ((readBranch c >>= k) w).2 := hk _ rfl

theorem getElem?_split {l₁ l₂ : List ℕ} {c : ℕ} (h : children P id = l₁ ++ c::l₂) :
    (children P id)[l₁.length]? = some c := by
  rw [h]
  simp

section
variable (h : TickContext P env tick id)
include h

theorem meets_parallelFinishLoop
    (hk : (P.node id).kind = .parallel) (hcursor : n.cursor = 0 ∨ IsChild P id n.cursor)
    (aggregate : NodeStatus) (l₁ l : List ℕ) (hl : children P id = l₁ ++ l) :
    Meets P env w₀ id Set.univ n (parallelFinishLoop P env id aggregate l₁.length l) := by
  induction l generalizing l₁ with
  | nil =>
    rw [parallelFinishLoop]
    by_cases hr : aggregate = .running
    · rw [if_pos hr]
      exact meets_finishWith h (settled_running (ownOk_parallel hk (by exact hcursor)))
    · rw [if_neg hr]
      exact meets_terminate h _
  | cons c l ih =>
    have hmem : c ∈ children P id := by rw [hl]; simp
    have hc := (mem_children h.top h.valid).mp hmem
    have hnext := ih (l₁ ++ [c]) (by rw [hl]; simp)
    rw [List.length_append, List.length_singleton] at hnext
    rw [parallelFinishLoop, if_neg (by simp [hc.1])]
    intro w ha
    apply post_read
    intro b hb
    by_cases hfinish : (P.node id).parallelFinish = true ∧ b.prepared = true ∧ b.terminal = true
    · rw [if_pos hfinish]
      apply post_callElse h (Or.inr rfl) rfl
      · intro hcode
        have hneutral : Neutral P w.nodes (.parallelFinish id l₁.length b.lastStatus)
            (w.answer env (.parallelFinish id l₁.length b.lastStatus)) :=
          ⟨hcode, c, getElem?_split hl, hb ▸ hfinish.2.1⟩
        exact (at_call h ha rfl hneutral).steps
      · exact seen_at_call h ha _
      · intro a ha
        simp [faultOf, ha]
      · intro hcode
        have hat := at_mark h ha hc
          (Act.finish hk (getElem?_split hl) (hb ▸ hfinish.2.1) hcode) rfl
        exact post_restartBranch h hat hc (by simp) aggregate b.terminal hnext
    · rw [if_neg hfinish]
      by_cases hmark : (w.nodes c).parallelBranchPrepared = false
      · exact post_restartBranch h ha hc hmark aggregate b.terminal hnext
      · -- a marked branch that is not finished is not terminal, so it is not restarted
        have hf : (P.node id).parallelFinish = true := by
          by_contra hne
          exact hmark (unmarked h ha hc (by simpa using hne))
        have hterminal : b.terminal = false := by
          by_contra hne
          exact hfinish ⟨hf, by rw [hb]; simpa using hmark, by simpa using hne⟩
        rw [restartBranch, if_neg (by simp [hterminal])]
        exact hnext w ha

theorem meets_parallelJoin (hk : (P.node id).kind = .parallel)
    (hcursor : n.cursor = 0 ∨ IsChild P id n.cursor) (anyFailure anyRunning : Bool) :
    Meets P env w₀ id Set.univ n (parallelJoin P env id anyFailure anyRunning) := by
  have hloop : ∀ aggregate, Meets P env w₀ id Set.univ n
      (parallelFinishLoop P env id aggregate 0 (children P id)) :=
    fun aggregate => meets_parallelFinishLoop h hk hcursor aggregate [] _ rfl
  rw [parallelJoin]
  by_cases hj : (P.node id).parallelJoin = true
  · rw [if_pos hj]
    apply meets_callElse h (Or.inr rfl) rfl
    · exact fun _ _ => trivial
    · intro a ha
      simp [faultOf, ha]
    · exact fun a w _ hat _ => hloop _ w hat
  · rw [if_neg hj]
    exact hloop _

theorem meets_stepBranch {index c : ℕ} (hc : IsChild P id c)
    (hindex : (children P id)[index]? = some c) {next : NodeStatus → Run σ TickResult}
    (hnext : ∀ s, Meets P env w₀ id Set.univ n (next s)) :
    Meets P env w₀ id Set.univ n (stepBranch P env tick id index c next) := by
  apply meets_onOkElse h hc
  intro s
  apply univ_mono
  intro w ha
  apply post_read
  intro b hb
  by_cases hs : (P.node id).parallelStep = true ∧ b.prepared = true
  · rw [if_pos hs]
    have hat : At P env w₀ id Set.univ n (w.call env (.parallelStep id index s)) :=
      at_call h ha rfl ⟨c, hindex, hb ▸ hs.2⟩
    apply post_callElse h (Or.inr rfl) rfl
    · exact fun _ => hat.steps
    · exact seen_at_call h ha _
    · intro a ha
      simp [faultOf, ha]
    · exact fun _ => hnext s _ hat
  · rw [if_neg hs]
    exact hnext s w ha

theorem meets_parallelTickLoop
    (hk : (P.node id).kind = .parallel) (hcursor : n.cursor = 0 ∨ IsChild P id n.cursor)
    (l₁ l : List ℕ) (hl : children P id = l₁ ++ l) (anyFailure anyRunning : Bool) :
    Meets P env w₀ id Set.univ n
      (parallelTickLoop P env tick id l₁.length l anyFailure anyRunning) := by
  induction l generalizing l₁ anyFailure anyRunning with
  | nil => exact meets_parallelJoin h hk hcursor anyFailure anyRunning
  | cons c l ih =>
    have hmem : c ∈ children P id := by rw [hl]; simp
    have hc := (mem_children h.top h.valid).mp hmem
    have hnext : ∀ f r, Meets P env w₀ id Set.univ n
        (parallelTickLoop P env tick id (l₁.length+1) l f r) := by
      intro f r
      have hloop := ih (l₁ ++ [c]) (by rw [hl]; simp) f r
      rwa [List.length_append, List.length_singleton] at hloop
    rw [parallelTickLoop, if_neg (by simp [hc.1])]
    intro w ha
    apply post_read
    intro b hb
    by_cases ht : b.terminal = true
    · rw [if_pos ht]
      exact hnext _ _ w ha
    · rw [if_neg ht]
      by_cases he : (P.node id).parallelEnter = true
      · rw [if_pos he]
        have hat := at_mark h ha hc (Act.enter hk he (getElem?_split hl)) rfl
        rw [← hb] at hat
        apply post_modify
        apply post_callElse h (Or.inr rfl) rfl
        · exact fun _ => hat.steps
        · exact seen_at_call h ha (.parallelEnter id l₁.length (!b.prepared))
        · intro a ha
          simp [faultOf, ha]
        · exact fun _ => meets_stepBranch h hc (getElem?_split hl) (fun s => hnext _ _) _ hat
      · rw [if_neg he]
        exact meets_stepBranch h hc (getElem?_split hl) (fun s => hnext _ _) w ha

theorem meets_parallel (hk : (P.node id).kind = .parallel) {B : Set ℕ} (hn : OwnOk P id B n) :
    Meets P env w₀ id B n (tickParallel P env tick id) := by
  apply univ_mono
  rw [tickParallel, if_neg (first_ne_zero h (by simp [hk]))]
  exact meets_parallelTickLoop h hk hn.cursor [] _ rfl false false

end

end Parallel

/-!
## Every tick meets its specification

The programs of the 22 kinds are put together by recursion on the levels that are left.
-/

section Node
variable {P : Plan} {env : Env σ} {tick : ℕ → Run σ TickResult} {w₀ w : World σ} {id : ℕ}
  {B : Set ℕ} {n : NodeState}

theorem meets_tickKind (h : TickContext P env tick id) (hn : OwnOk P id B n) :
    Meets P env w₀ id B n (tickKind P env tick id) := by
  have hcursor := hn.cursor
  apply meets_get
  by_cases hsingle : nodeKindIsSingleChild (P.node id).kind = true
  · rw [single_childId h hsingle hcursor]
    have hplain : (P.node id).kind ∈ [NodeKind.inverter, .forceSuccess, .forceFailure, .retry,
        .repeat, .timeout, .delay, .keepRunningUntilFailure] → PlainSingle P id :=
      plainSingle_of_mem
    cases hk : (P.node id).kind with
    | inverter => exact meets_singleChild h (hplain (by simp [hk])) hcursor
    | forceSuccess => exact meets_singleChild h (hplain (by simp [hk])) hcursor
    | forceFailure => exact meets_singleChild h (hplain (by simp [hk])) hcursor
    | retry => exact meets_retry h (hplain (by simp [hk])) hcursor
    | «repeat» => exact meets_repeat h (hplain (by simp [hk])) hcursor
    | timeout => exact meets_timeout h (hplain (by simp [hk])) hcursor
    | delay => exact meets_delay h (hplain (by simp [hk])) hcursor
    | keepRunningUntilFailure => exact meets_keepRunning h (hplain (by simp [hk])) hcursor
    | runOnce => exact meets_runOnce h hk hn
    | entryUpdated => exact meets_entryUpdated h hk hn
    | consumeQueue => exact meets_consumeQueue h hk
    | leaf | sequence | fallback | parallel | reactiveSequence | ifThenElse | precondition
    | whileDo | switch | pipelineSequence | reactiveFallback =>
      rw [hk] at hsingle
      exact absurd hsingle (by decide)
  · cases hk : (P.node id).kind with
    | leaf => exact meets_leaf h hk hn
    | sequence => exact meets_memory h (Or.inl hk) _ _ hn
    | fallback => exact meets_memory h (Or.inr hk) _ _ hn
    | parallel => exact meets_parallel h hk hn
    | reactiveSequence => exact meets_reactive h (Or.inl hk) _ _
    | reactiveFallback => exact meets_reactive h (Or.inr hk) _ _
    | precondition => exact meets_guarded h (Or.inl hk) hn
    | ifThenElse => exact meets_guarded h (Or.inr hk) hn
    | whileDo => exact meets_whileDo h hk hn
    | switch => exact meets_switch h hk hn
    | pipelineSequence => exact meets_pipelineLoop h hk _ hn (by omega)
    | inverter | forceSuccess | forceFailure | retry | «repeat» | timeout | delay
    | keepRunningUntilFailure | runOnce | entryUpdated | consumeQueue =>
      rw [hk] at hsingle
      exact absurd rfl hsingle

theorem ownOk_applyParameters (hn : OwnOk P id B n) (a : Answer) :
    OwnOk P id B (applyParameters (P.node id) a n) := by
  simp only [applyParameters]
  split_ifs <;> exact ⟨hn.cursor, hn.active, hn.cached, hn.pipeline⟩

theorem at_resolve (h : TickContext P env tick id) (ha : At P env w₀ id B n w) {a : Answer}
    (hlimit : maskLimit (P.node id).dynamicParameterMask = true →
      a.limit ≤ P.maxControlIterations) :
    At P env w₀ id B (applyParameters (P.node id) a n)
      (w.set id (applyParameters (P.node id) a (w.nodes id))) := by
  apply at_act h ha (Act.resolve hlimit)
  · rw [set_nodes_self, ha.own]
  · exact fun k hk => set_nodes_ne w _ hk

theorem meets_resolveParameters (h : TickContext P env tick id) (hn : OwnOk P id B n)
    {k : Run σ TickResult} (hk : ∀ n', OwnOk P id B n' → Meets P env w₀ id B n' k) :
    Meets P env w₀ id B n (resolveParameters P env id k) := by
  rw [resolveParameters]
  cases hr : (P.node id).parameterResolver with
  | none => exact hk n hn
  | some resolver =>
    apply meets_get
    apply meets_callElse h (Or.inl rfl) rfl
    · exact fun _ _ => trivial
    · intro a ha
      simp [faultOf, ha]
    · intro a w hcode hat hseen
      by_cases hlimit : maskLimit (P.node id).dynamicParameterMask = true ∧
          P.maxControlIterations < a.limit
      · rw [if_pos hlimit]
        apply post_error hat.steps
        refine ⟨rfl, _, hseen, ?_⟩
        simp only [faultOf, hcode, ne_eq, not_true_eq_false, if_false]
        rw [if_pos hlimit]
      · rw [if_neg hlimit]
        have hle : maskLimit (P.node id).dynamicParameterMask = true →
            a.limit ≤ P.maxControlIterations := by
          intro hm
          by_contra hlt
          exact hlimit ⟨hm, by omega⟩
        exact hk _ (ownOk_applyParameters hn a) _ (at_resolve h hat hle)

theorem meets_tickNodeImpl (h : TickContext P env tick id) (hn : OwnOk P id B n) :
    Meets P env w₀ id B n (tickNodeImpl P env tick id) := by
  apply meets_resolveParameters h hn
  intro n' hn'
  apply meets_modify h ⟨rfl, rfl, rfl, rfl, rfl, fun _ => rfl⟩
  exact meets_tickKind h ⟨hn'.cursor, hn'.active, hn'.cached, hn'.pipeline⟩

theorem at_start (hgood : Good P w.nodes id) (htyped : Typed P w.nodes) :
    At P env w id (busyNodes P w.nodes) (w.nodes id) w := by
  refine ⟨steps_refl, htyped, rfl, ?_⟩
  intro c hc
  exact ⟨good_child hgood hc, fun hidle => not_not.mp hidle⟩

end Node

section Tick
variable {P : Plan} {env : Env σ} {w₀ w : World σ} {id : ℕ}

theorem good_evaluated (ht : Topology P) (hgood : Good P w.nodes id) (x : Bool) :
    Good P (w.set id { w.nodes id with evaluated := x }).nodes id := by
  have hidle : ∀ j, j ≠ id → Below P id j → Idle P w.nodes j →
      Idle P (w.set id { w.nodes id with evaluated := x }).nodes j := by
    intro j hne hj
    apply idle_congr
    apply agree_of_eq
    intro k hk
    apply set_nodes_ne
    rintro rfl
    exact hne (below_antisymm (is_forest ht) hk hj)
  intro j hj
  have hown : OwnOk P j _ (w.nodes j) := hgood j hj
  have hmono : OwnOk P j (busyNodes P (w.set id { w.nodes id with evaluated := x }).nodes)
      (w.nodes j) := by
    apply ownOk_mono hown
    intro c hc hbusy hc'
    apply hbusy
    apply hidle c _ (below_trans hj (below_child hc)) hc'
    rintro rfl
    exact not_below_parent (is_forest ht) hc hj
  show OwnOk P j _ _
  by_cases hji : j = id
  · subst hji
    rw [set_nodes_self]
    exact ⟨hmono.cursor, hmono.active, hmono.cached, hmono.pipeline⟩
  · rw [set_nodes_ne w _ hji]
    exact hmono

theorem idle_evaluated (hidle : Idle P w.nodes id) (x : Bool) :
    Idle P (w.set id { w.nodes id with evaluated := x }).nodes id := by
  intro j hj
  obtain ⟨hrest, hmark⟩ := hidle j hj
  by_cases hji : j = id
  · subst hji
    rw [set_nodes_self]
    exact ⟨⟨hrest.running, hrest.prepared⟩, fun hne => absurd rfl hne⟩
  · rw [set_nodes_ne w _ hji]
    exact ⟨hrest, hmark⟩

theorem post_leaveNode (ht : Topology P) (hv : nodeIdValid P id = true) {r : TickResult}
    (hpost : Post P env w₀ id r w) :
    Post P env w₀ id (leaveNode id r w).1 (leaveNode id r w).2 := by
  cases r with
  | error f =>
    have hact : Act P env id w (visit id (.error f) w).2 := by
      apply Act.visit (fun _ he => absurd he (by simp))
      intro f' he
      rw [← Except.error.inj he]
      exact (hpost.error f rfl).1
    apply post_error (steps_act hv hpost.steps hact)
    exact blamed_frame (hpost.error f rfl) (frame_act ht hv (below_refl id) hact)
  | ok status =>
    obtain ⟨hgood, hidle⟩ := hpost.ok status rfl
    have hwrite : Act P env id w (w.set id { w.nodes id with evaluated := true }) :=
      Act.write ⟨rfl, rfl, rfl, rfl, rfl, fun _ => rfl⟩
    have hvisit : Act P env id (w.set id { w.nodes id with evaluated := true })
        (visit id (.ok status) (w.set id { w.nodes id with evaluated := true })).2 := by
      apply Act.visit
      · intro status' he hne
        obtain rfl := Except.ok.inj he
        exact idle_evaluated (hidle hne) true
      · exact fun _ he => absurd he (by simp)
    have hresult : (leaveNode id (.ok status) w).1 = .ok status := rfl
    rw [hresult]
    refine ⟨steps_act hv (steps_act hv hpost.steps hwrite) hvisit, ?_,
      fun _ hr => absurd hr (by simp)⟩
    intro status' he
    obtain rfl : status = status' := Except.ok.inj he
    exact ⟨good_evaluated ht hgood true, fun hne => idle_evaluated (hidle hne) true⟩

structure ValidPlan (P : Plan) : Prop where
  top : Topology P
  arity : ∀ i, nodeIdValid P i = true → arityAccepted (P.node i) = true
  callbacks : ∀ i, nodeIdValid P i = true → callbacksAccepted (P.node i) = true

variable (env) in
theorem tickNode_sound (h : ValidPlan P) (levels : ℕ) (hv : nodeIdValid P id = true)
    (hlevels : P.maxDepth < levels+(P.node id).depth) (w : World σ) (htyped : Typed P w.nodes)
    (hgood : Good P w.nodes id) :
    Post P env w id (tickNode P env levels id w).1 (tickNode P env levels id w).2 := by
  induction levels generalizing id w with
  | zero =>
    have hdepth := h.top.depth_le id hv
    omega
  | succ levels ih =>
    have hcontext : TickContext P env (tickNode P env levels) id := by
      refine ⟨h.top, hv, h.arity id hv, h.callbacks id hv, ?_⟩
      intro c hc w htyped hgood
      have hdepth := h.top.depth_child id c hc
      exact ih hc.1 (by omega) w htyped hgood
    have hstart : At P env w id (busyNodes P w.nodes) (w.nodes id) w := at_start hgood htyped
    have hpost := meets_tickNodeImpl hcontext (hgood id (below_refl id)) w hstart
    rw [tickNode, if_pos hv]
    exact post_leaveNode h.top hv hpost

end Tick

end SaltsUtils.BehaviorTree
