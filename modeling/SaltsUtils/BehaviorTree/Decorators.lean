import SaltsUtils.BehaviorTree.TickRules

/-!
# Leaves, decorators and adapters
-/

set_option autoImplicit false

/-!
## Leaves and kinds with one child

The programs of Leaf and of the kinds with one child meet the specification of
`tick_node`.
-/

namespace SaltsUtils.BehaviorTree
open SaltsUtils.Forest

variable {σ : Type}

variable {status : NodeStatus}

section Settling
variable {P : Plan} {env : Env σ} {tick : ℕ → Run σ TickResult} {id : ℕ} {B : Set ℕ}
  {n : NodeState}

theorem settled_running (h : OwnOk P id B n) : Settled P id B n .running :=
  ⟨h, fun hne => absurd rfl hne⟩

theorem single_child (h : TickContext P env tick id)
    (hk : nodeKindIsSingleChild (P.node id).kind = true) :
    IsChild P id (P.node id).firstChild ∧ (P.node id).firstChild ≠ 0 ∧
      ∀ c, IsChild P id c → c = (P.node id).firstChild := by
  have hcount : (P.node id).childCount = 1 := by
    have ha := h.arity
    simp only [arityAccepted, hk, Bool.not_true, Bool.false_or, Bool.and_eq_true,
      decide_eq_true_eq] at ha
    exact ha.1.1.1.2
  have hlen : (children P id).length = 1 := by
    rw [← childCount_eq h.top h.valid]
    exact hcount
  obtain ⟨f, hf⟩ := List.length_eq_one_iff.mp hlen
  have hfirst : (P.node id).firstChild = f := by
    rw [firstChild_eq h.top h.valid, hf]
    rfl
  have hmem : ∀ c, IsChild P id c ↔ c = f := by
    intro c
    rw [← mem_children h.top h.valid, hf]
    exact List.mem_singleton
  have hchild : IsChild P id f := (hmem f).mpr rfl
  rw [hfirst]
  exact ⟨hchild, (nodeIdValid_iff.mp hchild.1).1, fun c hc => (hmem c).mp hc⟩

theorem single_childId (h : TickContext P env tick id)
    (hk : nodeKindIsSingleChild (P.node id).kind = true)
    (hcursor : n.cursor = 0 ∨ IsChild P id n.cursor) :
    (if n.cursor ≠ 0 then n.cursor else (P.node id).firstChild) = (P.node id).firstChild := by
  obtain ⟨-, -, hall⟩ := single_child h hk
  by_cases hc : n.cursor = 0
  · rw [if_neg (not_not.mpr hc)]
  · rw [if_pos hc]
    exact hall _ (hcursor.resolve_left hc)

theorem activeChild_single (hk : nodeKindIsSingleChild (P.node id).kind = true) :
    activeChild (P.node id) n = (P.node id).firstChild := by
  simp only [nodeKindIsSingleChild, decide_eq_true_eq, List.mem_cons, List.not_mem_nil,
    or_false] at hk
  rcases hk with hk | hk | hk | hk | hk | hk | hk | hk | hk | hk | hk <;>
    simp only [activeChild, hk]

theorem ownOk_single (h : TickContext P env tick id)
    (hk : nodeKindIsSingleChild (P.node id).kind = true)
    (hcursor : n.cursor = 0 ∨ IsChild P id n.cursor)
    (hcached : Cached (P.node id) n → ∀ c, IsChild P id c → c ∉ B) : OwnOk P id B n := by
  obtain ⟨-, -, hall⟩ := single_child h hk
  refine ⟨hcursor, ?_, hcached, ?_⟩
  · intro _ c hc _
    rw [activeChild_single hk]
    exact hall c hc
  · intro hp
    rw [hp] at hk
    exact absurd hk (by decide)

theorem not_cached (h₁ : (P.node id).kind ≠ .runOnce) (h₂ : (P.node id).kind ≠ .entryUpdated) :
    ¬ Cached (P.node id) n := by
  rintro (⟨hk, -⟩ | ⟨hk, -⟩)
  · exact h₁ hk
  · exact h₂ hk

theorem settled_single (h : TickContext P env tick id)
    (hk : nodeKindIsSingleChild (P.node id).kind = true) (h₁ : (P.node id).kind ≠ .runOnce)
    (h₂ : (P.node id).kind ≠ .entryUpdated) (h₃ : (P.node id).kind ≠ .consumeQueue)
    (hcursor : n.cursor = 0 ∨ IsChild P id n.cursor)
    (hidle : status ≠ .running → (P.node id).firstChild ∉ B) : Settled P id B n status := by
  obtain ⟨-, -, hall⟩ := single_child h hk
  refine ⟨ownOk_single h hk hcursor (fun hc => absurd hc (not_cached h₁ h₂)), ?_⟩
  intro hne
  refine ⟨?_, ⟨?_, ?_⟩, ?_⟩
  · intro c hc
    rw [hall c hc]
    exact hidle hne
  · intro hl
    rw [hl] at hk
    exact absurd hk (by decide)
  · rintro (hp | hq)
    · rw [hp] at hk
      exact absurd hk (by decide)
    · exact absurd hq h₃
  · intro hp
    rw [hp] at hk
    exact absurd hk (by decide)

theorem not_mem_ticked {c : ℕ} (h : status ≠ .running) : c ∉ ticked B c status := by
  rintro (⟨-, hr⟩ | ⟨hne, -⟩)
  · exact h hr
  · exact hne rfl

end Settling

section Leaf
variable {P : Plan} {env : Env σ} {tick : ℕ → Run σ TickResult} {w₀ : World σ} {id : ℕ}
  {B : Set ℕ} {n : NodeState}

theorem meets_leaf (h : TickContext P env tick id) (hk : (P.node id).kind = .leaf)
    (hn : OwnOk P id B n) : Meets P env w₀ id B n (tickLeaf env id) := by
  intro w ha
  have hact : Act P env id w (tickLeaf env id w).2 := Act.handler hk
  have hnone : ∀ c, ¬ IsChild P id c := by
    intro c hc
    have := (mem_children h.top h.valid).mpr hc
    rw [leaf_no_children h.top h.valid hk] at this
    exact absurd this List.not_mem_nil
  have hseen := seen_at_call h ha (.handler id)
  have hsteps := steps_act h.valid ha.steps hact
  cases hs : statusOf (w.answer env (.handler id)).status with
  | none =>
    rw [tickLeaf_none hs] at hsteps ⊢
    exact post_error hsteps ⟨rfl, _, hseen, by simp [faultOf, hs]⟩
  | some status =>
    let n' : NodeState := { n with running := decide (status = .running), lastStatus := status }
    have hrun : tickLeaf env id w = (.ok status, (w.call env (.handler id)).set id n') := by
      rw [tickLeaf_some hs, ha.own]
    have hat : At P env w₀ id B n' (tickLeaf env id w).2 := by
      apply at_act h ha hact
      · rw [hrun]
        exact set_nodes_self _ _ _
      · intro k hk
        rw [hrun]
        exact set_nodes_ne _ _ hk
    rw [hrun] at hat ⊢
    apply post_done hat
    refine ⟨⟨hn.cursor, fun _ c hc => absurd hc (hnone c), fun _ c hc => absurd hc (hnone c), ?_⟩, ?_⟩
    · intro hp
      rw [hp] at hk
      exact absurd hk (by decide)
    · intro hne
      refine ⟨fun c hc => absurd hc (hnone c), ⟨fun _ => by simp [n', hne], ?_⟩, ?_⟩
      · rw [hk]
        rintro (hp | hp) <;> exact absurd hp (by decide)
      · rw [hk]
        decide

end Leaf

section SingleChild
variable {P : Plan} {env : Env σ} {tick : ℕ → Run σ TickResult} {w₀ : World σ} {id : ℕ}
  {B : Set ℕ} {n : NodeState}

/-- The kinds with one child, no cache and no context of their own. -/
structure PlainSingle (P : Plan) (id : ℕ) : Prop where
  single : nodeKindIsSingleChild (P.node id).kind = true
  not_runOnce : (P.node id).kind ≠ .runOnce
  not_entryUpdated : (P.node id).kind ≠ .entryUpdated
  not_consumeQueue : (P.node id).kind ≠ .consumeQueue
  not_pipeline : (P.node id).kind ≠ .pipelineSequence

theorem plainSingle_of_mem (h : (P.node id).kind ∈ [NodeKind.inverter, .forceSuccess,
    .forceFailure, .retry, .repeat, .timeout, .delay, .keepRunningUntilFailure]) :
    PlainSingle P id := by
  simp only [List.mem_cons, List.not_mem_nil, or_false] at h
  rcases h with h | h | h | h | h | h | h | h <;> constructor <;> rw [h] <;> decide

section
variable (h : TickContext P env tick id) (hp : PlainSingle P id)
include h hp

theorem settled_plain (hcursor : n.cursor = 0 ∨ IsChild P id n.cursor)
    (hidle : status ≠ .running → (P.node id).firstChild ∉ B) : Settled P id B n status :=
  settled_single h hp.single hp.not_runOnce hp.not_entryUpdated hp.not_consumeQueue hcursor hidle

theorem meets_modify_plain
    {f : NodeState → NodeState} {m : Run σ TickResult}
    (hf : (f n).limit = n.limit ∧ (f n).durationNs = n.durationNs ∧ (f n).running = n.running ∧
      (f n).prepared = n.prepared ∧ (f n).parallelBranchPrepared = n.parallelBranchPrepared)
    (hk : Meets P env w₀ id B (f n) m) :
    Meets P env w₀ id B n (modifyNode id f >>= fun _ => m) := by
  obtain ⟨h₁, h₂, h₃, h₄, h₅⟩ := hf
  exact meets_modify h ⟨h₁, h₂, h₃, h₄, h₅, fun he => absurd he hp.not_pipeline⟩ hk

theorem meets_finish_plain (hcursor : n.cursor = 0 ∨ IsChild P id n.cursor)
    (hidle : status ≠ .running → (P.node id).firstChild ∉ B) :
    Meets P env w₀ id B n (finishWith id status) :=
  meets_finishWith h (settled_plain h hp (by exact hcursor) hidle)

theorem meets_singleChild (hcursor : n.cursor = 0 ∨ IsChild P id n.cursor) :
    Meets P env w₀ id B n (tickSingleChild P tick id (P.node id).firstChild) := by
  obtain ⟨hchild, hne, -⟩ := single_child h hp.single
  rw [tickSingleChild, if_neg hne]
  apply meets_onOk h hchild
  intro status
  apply meets_finish_plain h hp hcursor
  intro hmapped
  apply not_mem_ticked
  rintro rfl
  apply hmapped
  cases (P.node id).kind <;> rfl

theorem meets_keepRunning (hcursor : n.cursor = 0 ∨ IsChild P id n.cursor) :
    Meets P env w₀ id B n (tickKeepRunning P env tick id (P.node id).firstChild) := by
  obtain ⟨hchild, hne, -⟩ := single_child h hp.single
  apply meets_get
  rw [if_neg hne]
  by_cases hlimit : n.limit = 0 ∨ n.limit ≤ n.counter
  · rw [if_pos hlimit]
    exact meets_terminate h _
  · rw [if_neg hlimit]
    apply meets_onOk h hchild
    intro status
    cases status with
    | running => exact meets_finish_plain h hp hcursor (fun hr => absurd rfl hr)
    | failure => exact meets_terminate h _
    | success =>
      apply meets_modify_plain h hp ⟨rfl, rfl, rfl, rfl, rfl⟩
      apply meets_reset_child h hchild
      apply meets_get
      by_cases hdone : n.limit ≤ n.counter+1
      · rw [if_pos hdone]
        exact meets_terminate h _
      · rw [if_neg hdone]
        exact meets_finish_plain h hp (by exact hcursor) (fun hr => absurd rfl hr)

theorem meets_timeout (hcursor : n.cursor = 0 ∨ IsChild P id n.cursor) :
    Meets P env w₀ id B n (tickTimeout P env tick id (P.node id).firstChild) := by
  obtain ⟨hchild, hne, -⟩ := single_child h hp.single
  rw [tickTimeout, if_neg hne]
  apply meets_clock h
  intro a
  have hstart : (startTimer a.time n).cursor = n.cursor := by
    simp only [startTimer]
    split_ifs <;> rfl
  apply meets_modify_plain h hp
  · simp only [startTimer]
    split_ifs <;> exact ⟨rfl, rfl, rfl, rfl, rfl⟩
  rw [← hstart] at hcursor
  apply meets_get
  by_cases hlate : (startTimer a.time n).deadlineNs ≤ a.time
  · rw [if_pos hlate]
    exact meets_terminate h _
  · rw [if_neg hlate]
    apply meets_onOk h hchild
    intro status
    apply meets_clock h
    intro b
    apply meets_get
    by_cases hlate' : (startTimer a.time n).deadlineNs ≤ b.time
    · rw [if_pos hlate']
      exact meets_terminate h _
    · rw [if_neg hlate']
      by_cases hrun : status = .running
      · rw [if_pos hrun]
        exact meets_finish_plain h hp hcursor (fun hr => absurd rfl hr)
      · rw [if_neg hrun]
        exact meets_terminate h _

theorem meets_delayedTick (hcursor : n.cursor = 0 ∨ IsChild P id n.cursor) :
    Meets P env w₀ id B n (delayedTick P env tick id (P.node id).firstChild) := by
  obtain ⟨hchild, -, -⟩ := single_child h hp.single
  apply meets_onOk h hchild
  intro status
  by_cases hrun : status = .running
  · rw [if_pos hrun]
    exact meets_finish_plain h hp hcursor (fun hr => absurd rfl hr)
  · rw [if_neg hrun]
    exact meets_terminate h _

theorem meets_delay (hcursor : n.cursor = 0 ∨ IsChild P id n.cursor) :
    Meets P env w₀ id B n (tickDelay P env tick id (P.node id).firstChild) := by
  obtain ⟨hchild, hne, -⟩ := single_child h hp.single
  rw [tickDelay, if_neg hne]
  apply meets_get
  by_cases helapsed : n.delayElapsed = true
  · rw [if_pos helapsed]
    exact meets_delayedTick h hp hcursor
  · rw [if_neg helapsed]
    apply meets_clock h
    intro a
    have hstart : (startTimer a.time n).cursor = n.cursor := by
      simp only [startTimer]
      split_ifs <;> rfl
    apply meets_modify_plain h hp
    · simp only [startTimer]
      split_ifs <;> exact ⟨rfl, rfl, rfl, rfl, rfl⟩
    rw [← hstart] at hcursor
    apply meets_get
    by_cases hwait : a.time < (startTimer a.time n).deadlineNs
    · rw [if_pos hwait]
      exact meets_finish_plain h hp hcursor (fun hr => absurd rfl hr)
    · rw [if_neg hwait]
      apply meets_modify_plain h hp ⟨rfl, rfl, rfl, rfl, rfl⟩
      exact meets_delayedTick h hp hcursor

theorem meets_repeatLoop (rounds : ℕ)
    (hcursor : n.cursor = 0 ∨ IsChild P id n.cursor) (hr : n.limit-n.counter < rounds) :
    Meets P env w₀ id B n (repeatLoop P env tick id rounds (P.node id).firstChild) := by
  obtain ⟨hchild, hne, -⟩ := single_child h hp.single
  induction rounds generalizing n B with
  | zero => omega
  | succ rounds ih =>
    apply meets_get
    by_cases hmore : n.counter < n.limit
    · rw [if_pos hmore, if_neg hne]
      apply meets_onOk h hchild
      intro status
      by_cases hrun : status = .running
      · rw [if_pos hrun]
        exact meets_finish_plain h hp hcursor (fun hr => absurd rfl hr)
      · rw [if_neg hrun]
        apply meets_modify_plain h hp ⟨rfl, rfl, rfl, rfl, rfl⟩
        apply meets_reset_child h hchild
        exact ih hcursor (by show n.limit-(n.counter+1) < rounds; omega)
    · rw [if_neg hmore]
      exact meets_terminate h _

theorem meets_repeat (hcursor : n.cursor = 0 ∨ IsChild P id n.cursor) :
    Meets P env w₀ id B n (tickRepeat P env tick id (P.node id).firstChild) := by
  apply meets_get
  by_cases hzero : n.limit = 0
  · rw [if_pos hzero]
    exact meets_terminate h _
  · rw [if_neg hzero]
    exact meets_repeatLoop h hp _ hcursor (by omega)

theorem meets_retryLoop (rounds : ℕ)
    (hcursor : n.cursor = 0 ∨ IsChild P id n.cursor) (hr : n.limit-n.counter < rounds) :
    Meets P env w₀ id B n (retryLoop P env tick id rounds (P.node id).firstChild) := by
  obtain ⟨hchild, hne, -⟩ := single_child h hp.single
  induction rounds generalizing n B with
  | zero => omega
  | succ rounds ih =>
    apply meets_get
    by_cases hmore : n.counter < n.limit
    · rw [if_pos hmore, if_neg hne]
      apply meets_onOk h hchild
      intro status
      cases status with
      | running => exact meets_finish_plain h hp hcursor (fun hr => absurd rfl hr)
      | success => exact meets_terminate h _
      | failure =>
        apply meets_modify_plain h hp ⟨rfl, rfl, rfl, rfl, rfl⟩
        apply meets_reset_child h hchild
        apply meets_get
        by_cases hdone : n.limit ≤ n.counter+1
        · rw [if_pos hdone]
          exact meets_terminate h _
        · have hloop := ih (n := { n with counter := n.counter+1 })
            (B := ticked B (P.node id).firstChild .failure \ {(P.node id).firstChild}) hcursor
            (by show n.limit-(n.counter+1) < rounds; omega)
          rw [if_neg hdone]
          exact hloop
    · rw [if_neg hmore]
      exact meets_singleChild h hp hcursor

theorem meets_retry (hcursor : n.cursor = 0 ∨ IsChild P id n.cursor) :
    Meets P env w₀ id B n (tickRetry P env tick id (P.node id).firstChild) := by
  apply meets_get
  by_cases hzero : n.limit = 0 ∨ n.limit ≤ n.counter
  · rw [if_pos hzero]
    exact meets_terminate h _
  · rw [if_neg hzero]
    exact meets_retryLoop h hp _ hcursor (by omega)

end

end SingleChild

section Caches
variable {P : Plan} {env : Env σ} {tick : ℕ → Run σ TickResult} {w₀ : World σ} {id : ℕ}
  {B : Set ℕ} {n : NodeState}

theorem settled_cached (hn : OwnOk P id B n) (hcached : Cached (P.node id) n)
    (status : NodeStatus) : Settled P id B n status := by
  refine ⟨hn, fun _ => ⟨hn.cached hcached, ?_, ?_⟩⟩
  · rcases hcached with ⟨hk, -⟩ | ⟨hk, -⟩
    · exact ⟨fun hl => absurd (hk.symm.trans hl) (by decide),
        fun hp => by rcases hp with hp | hp <;> exact absurd (hk.symm.trans hp) (by decide)⟩
    · exact ⟨fun hl => absurd (hk.symm.trans hl) (by decide),
        fun hp => by rcases hp with hp | hp <;> exact absurd (hk.symm.trans hp) (by decide)⟩
  · rcases hcached with ⟨hk, -⟩ | ⟨hk, -⟩ <;> rw [hk] <;> decide

section
variable (h : TickContext P env tick id)
include h

theorem settled_stored (hk : (P.node id).kind = .runOnce ∨ (P.node id).kind = .entryUpdated)
    (hcursor : n.cursor = 0 ∨ IsChild P id n.cursor)
    (hstored : Cached (P.node id) n → status ≠ .running) :
    Settled P id (ticked B (P.node id).firstChild status) n status := by
  have hsingle : nodeKindIsSingleChild (P.node id).kind = true := by
    rcases hk with hk | hk <;> rw [hk] <;> rfl
  obtain ⟨-, -, hall⟩ := single_child h hsingle
  have hout : status ≠ .running →
      ∀ c, IsChild P id c → c ∉ ticked B (P.node id).firstChild status := by
    intro hne c hc
    rw [hall c hc]
    exact not_mem_ticked hne
  refine ⟨ownOk_single h hsingle hcursor (fun hc => hout (hstored hc)), ?_⟩
  intro hne
  refine ⟨hout hne, ⟨?_, ?_⟩, ?_⟩
  · rcases hk with hk | hk <;> rw [hk] <;> exact fun hl => absurd hl (by decide)
  · rcases hk with hk | hk <;> rw [hk] <;>
      exact fun hp => by rcases hp with hp | hp <;> exact absurd hp (by decide)
  · rcases hk with hk | hk <;> rw [hk] <;> decide

theorem meets_runOnce (hk : (P.node id).kind = .runOnce) (hn : OwnOk P id B n) :
    Meets P env w₀ id B n (tickRunOnce tick id (P.node id).firstChild) := by
  obtain ⟨hchild, hne, -⟩ := single_child h (by rw [hk]; rfl)
  apply meets_get
  by_cases hdone : n.runOnceComplete = true
  · rw [if_pos hdone]
    exact meets_done (settled_cached hn (Or.inl ⟨hk, hdone⟩) _)
  · rw [if_neg hdone, if_neg hne]
    apply meets_onOk h hchild
    intro status
    apply meets_modify h ⟨rfl, rfl, rfl, rfl, rfl, fun hp => absurd (hk.symm.trans hp) (by decide)⟩
    apply meets_done
    apply settled_stored h (Or.inl hk) (by exact hn.cursor)
    rintro (⟨-, hc⟩ | ⟨he, -⟩)
    · simpa [hdone] using hc
    · exact absurd (hk.symm.trans he) (by decide)

theorem meets_restartEntry (hchild : IsChild P id (P.node id).firstChild)
    (hcursor : n.cursor = 0 ∨ IsChild P id n.cursor) (changed : Bool) {m : Run σ TickResult}
    (hm : ∀ B' n', (n' = n ∨ n' = { n with cursor := 0 }) → Meets P env w₀ id B' n' m) :
    Meets P env w₀ id B n (restartEntry P env id changed >>= fun _ => m) := by
  intro w ha
  by_cases hc : changed = true ∧ n.cursor ≠ 0
  · have hrun : (restartEntry P env id changed >>= fun _ => m) w =
        (resetNodeState P env n.cursor >>= fun _ => setCursor id 0 >>= fun _ => m) w := by
      show ((if _ then _ else _ : Run σ Unit) >>= fun _ => m) w = _
      rw [ha.own, if_pos hc]
      rfl
    rw [hrun]
    exact meets_reset_child h (hcursor.resolve_left hc.2)
      (meets_setCursor h (hm _ _ (Or.inr rfl))) w ha
  · by_cases hchanged : changed = true
    · have hrun : (restartEntry P env id changed >>= fun _ => m) w =
          (resetNodeState P env (P.node id).firstChild >>= fun _ => m) w := by
        show ((if _ then _ else _ : Run σ Unit) >>= fun _ => m) w = _
        rw [ha.own, if_neg hc, if_pos hchanged]
      rw [hrun]
      exact meets_reset_child h hchild (hm _ _ (Or.inl rfl)) w ha
    · have hrun : (restartEntry P env id changed >>= fun _ => m) w = m w := by
        show ((if _ then _ else _ : Run σ Unit) >>= fun _ => m) w = _
        rw [ha.own, if_neg hc, if_neg hchanged]
        rfl
      rw [hrun]
      exact hm B n (Or.inl rfl) w ha

theorem meets_entryUpdated (hk : (P.node id).kind = .entryUpdated) (hn : OwnOk P id B n) :
    Meets P env w₀ id B n (tickEntryUpdated P env tick id) := by
  obtain ⟨hchild, hne, -⟩ := single_child h (by rw [hk]; rfl)
  have hcallback : (P.node id).entryChanged = true := by
    have hc := h.callbacks
    simp only [callbacksAccepted, hk, Bool.and_eq_true] at hc
    simpa using hc.1.2
  have hlocal : ∀ n n' : NodeState, n'.limit = n.limit → n'.durationNs = n.durationNs →
      n'.running = n.running → n'.prepared = n.prepared →
      n'.parallelBranchPrepared = n.parallelBranchPrepared → LocalWrite P id n n' :=
    fun n n' h₁ h₂ h₃ h₄ h₅ =>
      ⟨h₁, h₂, h₃, h₄, h₅, fun hp => absurd (hk.symm.trans hp) (by decide)⟩
  rw [tickEntryUpdated, if_neg (by simp [hcallback, hne])]
  apply meets_callElse h (Or.inr rfl) rfl
  · exact fun _ _ => trivial
  · intro a ha
    simp [faultOf, ha]
  · intro a w _ hat _
    refine meets_get ?_ w hat
    by_cases hcached : (a.flag || !n.observed) = false ∧ n.cursor = 0 ∧ n.observed = true ∧
        n.lastStatus ≠ .running
    · rw [if_pos hcached]
      exact meets_done (settled_cached hn (Or.inr ⟨hk, hcached.2.2.1, hcached.2.1, hcached.2.2.2⟩) _)
    · rw [if_neg hcached]
      apply meets_restartEntry h hchild hn.cursor
      intro B' n' hn'
      apply meets_modify h (hlocal _ _ rfl rfl rfl rfl rfl)
      apply meets_onOkElse h hchild
      intro status
      apply meets_modify h (hlocal _ _ rfl rfl rfl rfl rfl)
      apply meets_done
      apply settled_stored h (Or.inr hk)
      · by_cases hrun : status = .running
        · simp only [hrun, if_true]
          exact Or.inr hchild
        · simp only [hrun, if_false]
          exact Or.inl trivial
      · rintro (⟨hr, -⟩ | ⟨-, -, -, hlast⟩)
        · exact absurd (hk.symm.trans hr) (by decide)
        · exact hlast

end

end Caches

/-!
## Kinds with an adapter context

The programs of ConsumeQueue and PipelineSequence meet the specification of `tick_node`.
-/

section Contexts
variable {P : Plan} {env : Env σ} {tick : ℕ → Run σ TickResult} {w₀ w : World σ} {id : ℕ}
  {B : Set ℕ} {n : NodeState}

theorem set_set (w : World σ) (i : ℕ) (n n' : NodeState) : (w.set i n).set i n' = w.set i n' := by
  simp [World.set]

theorem at_begin (h : TickContext P env tick id) (hk : (P.node id).kind = .consumeQueue)
    (ha : At P env w₀ id B n w) (hp : n.prepared = false) :
    At P env w₀ id B { n with prepared :=
        !(decide ((w.answer env (.queueBegin id)).code = .ok) &&
          !(w.answer env (.queueBegin id)).flag) }
      ((w.call env (.queueBegin id)).set id { n with prepared :=
        !(decide ((w.answer env (.queueBegin id)).code = .ok) &&
          !(w.answer env (.queueBegin id)).flag) }) := by
  have hown := ha.own
  subst hown
  exact at_act h ha (Act.begin hk hp rfl) (set_nodes_self _ _ _) (fun k hk => set_nodes_ne _ _ hk)

theorem at_commit (h : TickContext P env tick id) (hk : (P.node id).kind = .consumeQueue)
    (ha : At P env w₀ id B n w) (hp : n.prepared = true)
    (hcode : (w.answer env (.queueFinish id)).code = .ok) :
    At P env w₀ id B { n with prepared := false }
      ((w.call env (.queueFinish id)).set id { n with prepared := false }) := by
  have hown := ha.own
  subst hown
  exact at_act h ha (Act.commit hk hp hcode) (set_nodes_self _ _ _)
    (fun k hk => set_nodes_ne _ _ hk)

theorem ownOk_queue (h : TickContext P env tick id) (hk : (P.node id).kind = .consumeQueue)
    (hcursor : n.cursor = 0 ∨ IsChild P id n.cursor) : OwnOk P id B n :=
  ownOk_single h (by rw [hk]; rfl) hcursor
    (fun hc => absurd hc (not_cached (by rw [hk]; decide) (by rw [hk]; decide)))

theorem meets_consumeItem (h : TickContext P env tick id) (hk : (P.node id).kind = .consumeQueue)
    (hp : n.prepared = true) :
    Meets P env w₀ id B n (consumeItem P env tick id) := by
  obtain ⟨hchild, -, -⟩ := single_child h (by rw [hk]; rfl)
  apply meets_onOkElse h hchild
  intro status
  cases status with
  | running =>
    apply meets_setCursor h
    exact meets_finishWith h (settled_running (ownOk_queue h hk (Or.inr hchild)))
  | failure => exact meets_terminate h _
  | success =>
    intro w ha
    apply post_callElse h (Or.inr rfl) rfl
    · intro hcode
      have hneutral : Neutral P w.nodes (.queueFinish id) (w.answer env (.queueFinish id)) :=
        ⟨hcode, by rw [ha.own]; exact hp⟩
      exact (at_call h ha rfl hneutral).steps
    · exact seen_at_call h ha _
    · intro a ha
      simp [faultOf, ha]
    · intro hcode
      have hat := at_commit h hk ha hp hcode
      apply post_modify
      rw [call_nodes, ha.own]
      by_cases hmore : (w.answer env (.queueFinish id)).flag = true
      · rw [if_pos hmore]
        refine meets_reset_child h hchild ?_ _ hat
        apply meets_setCursor h
        exact meets_finishWith h (settled_running (ownOk_queue h hk (Or.inl rfl)))
      · rw [if_neg hmore]
        exact meets_terminate h .success _ hat

theorem meets_consumeQueue (h : TickContext P env tick id) (hk : (P.node id).kind = .consumeQueue) :
    Meets P env w₀ id B n (tickConsumeQueue P env tick id) := by
  obtain ⟨hchild, hne, -⟩ := single_child h (by rw [hk]; rfl)
  have hcallbacks : (P.node id).queueBegin = true ∧ (P.node id).queueFinish = true := by
    have hc := h.callbacks
    simp only [callbacksAccepted, hk, Bool.and_eq_true] at hc
    simpa using hc.2
  rw [tickConsumeQueue, if_neg (by simp [hcallbacks.1, hcallbacks.2, hne])]
  apply meets_get
  by_cases hp : n.prepared = true
  · rw [if_pos hp]
    exact meets_consumeItem h hk hp
  · rw [if_neg hp]
    have hp : n.prepared = false := by simpa using hp
    intro w ha
    have hat := at_begin h hk ha hp
    apply post_modify
    rw [ha.own]
    -- the flag is set before the callback and cleared after it when there is no item
    apply post_callElse h (Or.inr rfl) rfl
    · intro hcode
      have hcode : (w.answer env (.queueBegin id)).code ≠ .ok := hcode
      simp only [hcode, decide_false, Bool.false_and, Bool.not_false] at hat
      exact hat.steps
    · exact seen_at_call h ha (.queueBegin id)
    · intro a ha
      simp [faultOf, ha]
    · intro hcode
      have hcode : (w.answer env (.queueBegin id)).code = .ok := hcode
      by_cases hitem : (w.answer env (.queueBegin id)).flag = true
      · simp only [hcode, hitem, decide_true, Bool.not_true, Bool.and_false, Bool.not_false] at hat
        have hpost := meets_consumeItem h hk rfl _ hat
        rw [if_pos (by exact hitem)]
        exact hpost
      · have hitem : (w.answer env (.queueBegin id)).flag = false := by simpa using hitem
        simp only [hcode, hitem, decide_true, Bool.not_false, Bool.and_true, Bool.not_true] at hat
        have hpost := meets_terminate h .failure _ hat
        rw [if_neg (by rw [Bool.not_eq_true]; exact hitem)]
        apply post_modify
        rw [show (w.set id { n with prepared := true }).call env (.queueBegin id) =
          (w.call env (.queueBegin id)).set id { n with prepared := true } from rfl,
          set_nodes_self, set_set]
        exact hpost

theorem at_prepare (h : TickContext P env tick id) (hk : (P.node id).kind = .pipelineSequence)
    (ha : At P env w₀ id B n w) (hp : n.prepared = false)
    (hcount : n.counter < (children P id).length) :
    At P env w₀ id B { n with prepared := true }
      ((w.set id { n with prepared := true }).call env (.pipelinePrepare id n.counter)) := by
  have hown := ha.own
  subst hown
  exact at_act h ha (Act.prepare hk hp hcount) (set_nodes_self _ _ _)
    (fun k hk => set_nodes_ne _ _ hk)

theorem at_advance (h : TickContext P env tick id) (hk : (P.node id).kind = .pipelineSequence)
    (ha : At P env w₀ id B n w) (hp : n.prepared = true)
    (hcode : (w.answer env (.pipelineComplete id n.counter .success)).code = .ok) :
    At P env w₀ id B { n with cursor := 0, prepared := false, counter := n.counter+1 }
      ((w.call env (.pipelineComplete id n.counter .success)).set id
        { n with cursor := 0, prepared := false, counter := n.counter+1 }) := by
  have hown := ha.own
  subst hown
  exact at_act h ha (Act.advance hk hp hcode) (set_nodes_self _ _ _)
    (fun k hk => set_nodes_ne _ _ hk)

theorem post_give_up (h : TickContext P env tick id) (hk : (P.node id).kind = .pipelineSequence)
    (ha : At P env w₀ id B n w) (hp : n.prepared = true)
    (hcode : (w.answer env (.pipelineComplete id n.counter .failure)).code = .ok)
    (status : NodeStatus) :
    let w₁ := (w.call env (.pipelineComplete id n.counter .failure)).set id
      { n with cursor := 0, prepared := false }
    Post P env w₀ id (terminate P env id status w₁).1 (terminate P env id status w₁).2 := by
  have hown := ha.own
  subst hown
  have hact := Act.give_up hk hp hcode
  exact post_after_reset h (steps_act h.valid ha.steps hact)
    (typed_act h.top h.valid hact ha.typed) status

/-- The tick of the prepared child of a pipeline. -/
theorem meets_pipelineChild (h : TickContext P env tick id)
    (hk : (P.node id).kind = .pipelineSequence) {current : ℕ} (hc : IsChild P id current)
    (hB : ∀ c, IsChild P id c → c ∈ B → c = current) (hp : n.prepared = true)
    (hcount : n.counter < (children P id).length) {next : Run σ TickResult}
    (hnext : ∀ B', (∀ c, IsChild P id c → c ∉ B') → Meets P env w₀ id B'
      { n with cursor := 0, prepared := false, counter := n.counter+1 } next) :
    Meets P env w₀ id B n (pipelineChild P env tick id next current n.counter) := by
  apply meets_onOkElse h hc
  intro status
  by_cases hrun : status = .running
  · rw [if_pos hrun]
    apply meets_setCursor h
    apply meets_finishWith h
    apply settled_running
    refine ⟨Or.inr hc, ?_, ?_, ?_⟩
    · intro _ c hcc hmem
      simp only [activeChild, hk]
      rcases hmem with ⟨he, -⟩ | ⟨-, hcB⟩
      · exact he
      · exact hB c hcc hcB
    · exact fun hcached => absurd hcached (not_cached (by rw [hk]; decide) (by rw [hk]; decide))
    · intro _
      simpa [hp] using hcount
  · rw [if_neg hrun]
    intro w ha
    have hout : ∀ c, IsChild P id c → c ∉ ticked B current status := by
      rintro c hcc (⟨-, hr⟩ | ⟨hne, hcB⟩)
      · exact hrun hr
      · exact hne (hB c hcc hcB)
    apply post_callElse h (Or.inr rfl) rfl
    · intro hcode
      have hneutral : Neutral P w.nodes (.pipelineComplete id n.counter status)
          (w.answer env (.pipelineComplete id n.counter status)) :=
        ⟨hcode, by rw [ha.own]; exact hp, by rw [ha.own], hrun⟩
      exact (at_call h ha rfl hneutral).steps
    · exact seen_at_call h ha _
    · intro a ha
      simp [faultOf, ha]
    · intro hcode
      apply post_modify
      rw [call_nodes, ha.own]
      cases status with
      | running => exact absurd rfl hrun
      | failure =>
        rw [if_pos rfl]
        exact post_give_up h hk ha hp hcode .failure
      | success =>
        rw [if_neg (by decide)]
        apply post_modify
        rw [set_nodes_self, set_set]
        exact hnext _ hout _ (at_advance h hk ha hp hcode)

theorem meets_pipelineLoop (h : TickContext P env tick id)
    (hk : (P.node id).kind = .pipelineSequence) (rounds : ℕ) (hn : OwnOk P id B n)
    (hr : (children P id).length-n.counter < rounds) :
    Meets P env w₀ id B n (pipelineLoop P env tick id rounds) := by
  have hcallbacks : (P.node id).pipelinePrepare = true ∧ (P.node id).pipelineComplete = true := by
    have hc := h.callbacks
    simp only [callbacksAccepted, hk, Bool.and_eq_true] at hc
    simpa using hc.1.1.2
  induction rounds generalizing n B with
  | zero => omega
  | succ rounds ih =>
    have hactive : ∀ c, IsChild P id c → c ∈ B → c = n.cursor := by
      intro c hc hcB
      have ha := hn.active (by rw [hk]; decide) c hc hcB
      simpa only [activeChild, hk] using ha
    have hpipeline := hn.pipeline hk
    apply meets_get
    by_cases hzero : (if n.cursor ≠ 0 then n.cursor else (children P id).getD n.counter 0) = 0
    · rw [if_pos hzero]
      exact meets_terminate h _
    rw [if_neg hzero]
    have hcurrent : IsChild P id
        (if n.cursor ≠ 0 then n.cursor else (children P id).getD n.counter 0) := by
      by_cases hcur : n.cursor = 0
      · rw [if_neg (not_not.mpr hcur)] at hzero ⊢
        apply (mem_children h.top h.valid).mp
        rw [List.getD_eq_getElem?_getD] at hzero ⊢
        cases hget : (children P id)[n.counter]? with
        | none =>
          rw [hget] at hzero
          exact absurd rfl hzero
        | some c => exact List.mem_of_getElem? hget
      · rw [if_pos hcur]
        exact hn.cursor.resolve_left hcur
    have hB : ∀ c, IsChild P id c → c ∈ B →
        c = (if n.cursor ≠ 0 then n.cursor else (children P id).getD n.counter 0) := by
      intro c hc hcB
      have hcur := hactive c hc hcB
      have hne : n.cursor ≠ 0 := by
        rw [← hcur]
        exact (nodeIdValid_iff.mp hc.1).1
      rw [if_pos hne]
      exact hcur
    have hnext : ∀ n' : NodeState, n'.counter = n.counter → n.counter < (children P id).length →
        ∀ B' : Set ℕ, (∀ c, IsChild P id c → c ∉ B') → Meets P env w₀ id B'
          { n' with cursor := 0, prepared := false, counter := n'.counter+1 }
          (pipelineLoop P env tick id rounds) := by
      intro n' hn' hlt B' hB'
      apply ih
      · exact ⟨Or.inl rfl, fun _ c hc hcB => absurd hcB (hB' c hc), fun _ => hB', fun _ => by simp⟩
      · show (children P id).length-(n'.counter+1) < rounds
        omega
    by_cases hp : n.prepared = true
    · rw [if_pos hp]
      rw [if_pos hp] at hpipeline
      exact meets_pipelineChild h hk hcurrent hB hp hpipeline (hnext n rfl hpipeline)
    · rw [if_neg hp] at hpipeline ⊢
      rw [if_neg (by simp [hcallbacks.1, hcallbacks.2])]
      have hcount : n.counter < (children P id).length := by
        rw [if_neg (not_not.mpr hpipeline), List.getD_eq_getElem?_getD] at hzero
        by_contra hge
        rw [List.getElem?_eq_none (Nat.le_of_not_lt hge)] at hzero
        exact hzero rfl
      intro w ha
      have hat := at_prepare h hk ha (by simpa using hp) hcount
      apply post_modify
      rw [ha.own]
      apply post_callElse h (Or.inr rfl) rfl
      · exact fun _ => hat.steps
      · exact seen_at_call h ha (.pipelinePrepare id n.counter)
      · intro a ha
        simp [faultOf, ha]
      · intro _
        exact meets_pipelineChild (n := { n with prepared := true }) h hk hcurrent hB rfl hcount
          (hnext { n with prepared := true } rfl hcount) _ hat

end Contexts

end SaltsUtils.BehaviorTree
