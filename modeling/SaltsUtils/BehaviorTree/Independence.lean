import SaltsUtils.BehaviorTree.Runs

/-!
# What a tick does not depend on

A parameter that a resolver is about to overwrite has no influence. Two worlds are related
when they differ only in such parameters.
-/

set_option autoImplicit false

namespace SaltsUtils.BehaviorTree
open SaltsUtils.Forest

variable {σ : Type}

section Relation
variable (P : Plan)

/-- Two states of node `i` that differ at most in the parameters its resolver sets. -/
def SameButMasked (i : ℕ) (n n' : NodeState) : Prop :=
  ∃ limit durationNs, n' = { n with limit := limit, durationNs := durationNs } ∧
    (maskLimit (P.node i).dynamicParameterMask = false → limit = n.limit) ∧
    (maskDuration (P.node i).dynamicParameterMask = false → durationNs = n.durationNs)

/-- The event without the values that the resolver is about to overwrite. -/
def eraseIncoming (e : Event) : Event :=
  match e.query with
  | .resolver id resolver user limit durationNs =>
    ⟨.resolver id resolver user
      (if maskLimit (P.node id).dynamicParameterMask then 0 else limit)
      (if maskDuration (P.node id).dynamicParameterMask then 0 else durationNs), e.answer⟩
  | _ => e

structure Related (A : Set ℕ) (w w' : World σ) : Prop where
  env : w'.env = w.env
  nodes : ∀ i, SameButMasked P i (w.nodes i) (w'.nodes i)
  equal : ∀ i ∈ A, w'.nodes i = w.nodes i
  trace : w'.trace.map (eraseIncoming P) = w.trace.map (eraseIncoming P)

/-- Two programs with equal results and related worlds from related worlds. -/
def Sim {α : Type} (A : Set ℕ) (m m' : Run σ α) : Prop :=
  ∀ w w', Related P A w w' → (m w).1 = (m' w').1 ∧ Related P A (m w).2 (m' w').2

/-- Resolvers do not read the parameters that they set. -/
def Overwrites (env : Env σ) : Prop :=
  ∀ e id resolver user limit durationNs limit' durationNs',
    (maskLimit (P.node id).dynamicParameterMask = false → limit' = limit) →
    (maskDuration (P.node id).dynamicParameterMask = false → durationNs' = durationNs) →
    env e (.resolver id resolver user limit' durationNs') =
      env e (.resolver id resolver user limit durationNs)

end Relation

variable {w w' : World σ} {i : ℕ} {n n' : NodeState}

section Rules
variable {P : Plan} {A : Set ℕ} {env : Env σ}

theorem sameButMasked_refl (i : ℕ) (n : NodeState) : SameButMasked P i n n :=
  ⟨n.limit, n.durationNs, rfl, fun _ => rfl, fun _ => rfl⟩

theorem related_mono {A' : Set ℕ} (hA : A' ⊆ A) (h : Related P A w w') : Related P A' w w' :=
  ⟨h.env, h.nodes, fun i hi => h.equal i (hA hi), h.trace⟩

variable {α : Type}

theorem sim_pure (a : α) : Sim (σ := σ) P A (pure a) (pure a) := fun _ _ h => ⟨rfl, h⟩

theorem sim_bind {β : Type} {m m' : Run σ α} {k k' : α → Run σ β} (hm : Sim P A m m')
    (hk : ∀ a, Sim P A (k a) (k' a)) : Sim P A (m >>= k) (m' >>= k') := by
  intro w w' h
  obtain ⟨hr, hw⟩ := hm w w' h
  have hkw := hk (m w).1 (m w).2 (m' w').2 hw
  show (k (m w).1 (m w).2).1 = (k' (m' w').1 (m' w').2).1 ∧
    Related P A (k (m w).1 (m w).2).2 (k' (m' w').1 (m' w').2).2
  rw [← hr]
  exact hkw

theorem sim_ite {c : Prop} [Decidable c] {m m' n n' : Run σ α} (hm : Sim P A m m')
    (hn : Sim P A n n') : Sim P A (if c then m else n) (if c then m' else n') := by
  by_cases hc : c
  · rw [if_pos hc, if_pos hc]
    exact hm
  · rw [if_neg hc, if_neg hc]
    exact hn

theorem sim_get_own (hi : i ∈ A) {k k' : NodeState → Run σ α} (hk : ∀ n, Sim P A (k n) (k' n)) :
    Sim P A (getNode i >>= k) (getNode i >>= k') := by
  intro w w' h
  show (k (w.nodes i) w).1 = (k' (w'.nodes i) w').1 ∧ _
  have hkw := hk (w.nodes i) w w' h
  rw [← h.equal i hi] at hkw
  rw [← h.equal i hi]
  show _ ∧ Related P A (k (w.nodes i) w).2 (k' (w'.nodes i) w').2
  rw [← h.equal i hi]
  exact hkw

theorem sim_get {k k' : NodeState → Run σ α}
    (hk : ∀ n n', SameButMasked P i n n' → Sim P A (k n) (k' n')) :
    Sim P A (getNode i >>= k) (getNode i >>= k') :=
  fun w w' h => hk (w.nodes i) (w'.nodes i) (h.nodes i) w w' h

theorem related_set (h : Related P A w w') (hn : SameButMasked P i n n') (heq : i ∈ A → n' = n) :
    Related P A (w.set i n) (w'.set i n') := by
  refine ⟨h.env, ?_, ?_, h.trace⟩
  · intro j
    by_cases hj : j = i
    · subst hj
      rw [set_nodes_self, set_nodes_self]
      exact hn
    · rw [set_nodes_ne w n hj, set_nodes_ne w' n' hj]
      exact h.nodes j
  · intro j hjA
    by_cases hj : j = i
    · subst hj
      rw [set_nodes_self, set_nodes_self]
      exact heq hjA
    · rw [set_nodes_ne w n hj, set_nodes_ne w' n' hj]
      exact h.equal j hjA

theorem sim_modify {f f' : NodeState → NodeState}
    (hf : ∀ n n', SameButMasked P i n n' → SameButMasked P i (f n) (f' n'))
    (heq : ∀ n, i ∈ A → f' n = f n) : Sim P A (modifyNode (σ := σ) i f) (modifyNode i f') := by
  intro w w' h
  refine ⟨rfl, related_set h (hf _ _ (h.nodes i)) ?_⟩
  intro hi
  rw [h.equal i hi]
  exact heq _ hi

theorem sim_modify_own (hi : i ∈ A) (f : NodeState → NodeState) :
    Sim P A (modifyNode (σ := σ) i f) (modifyNode i f) := by
  intro w w' h
  refine ⟨rfl, related_set h ?_ ?_⟩
  · rw [h.equal i hi]
    exact sameButMasked_refl i _
  · intro _
    rw [h.equal i hi]

theorem sim_ask (q : Query) : Sim P A (ask env q) (ask env q) := by
  intro w w' h
  have hanswer : env w'.env q = env w.env q := by rw [h.env]
  show (env w.env q).1 = (env w'.env q).1 ∧
    Related P A { w with env := (env w.env q).2, trace := w.trace ++ [⟨q, (env w.env q).1⟩] }
      { w' with env := (env w'.env q).2, trace := w'.trace ++ [⟨q, (env w'.env q).1⟩] }
  rw [hanswer]
  refine ⟨rfl, rfl, h.nodes, h.equal, ?_⟩
  simp only [List.map_append, h.trace]

theorem sim_onOk {m m' : Run σ TickResult} {k k' : NodeStatus → Run σ TickResult}
    (hm : Sim P A m m') (hk : ∀ s, Sim P A (k s) (k' s)) : Sim P A (onOk m k) (onOk m' k') := by
  apply sim_bind hm
  intro r
  cases r with
  | error e => exact sim_pure _
  | ok s => exact hk s

theorem sim_onOkElse {m m' : Run σ TickResult} {cleanup cleanup' : Run σ Unit}
    {k k' : NodeStatus → Run σ TickResult} (hm : Sim P A m m') (hc : Sim P A cleanup cleanup')
    (hk : ∀ s, Sim P A (k s) (k' s)) :
    Sim P A (onOkElse m cleanup k) (onOkElse m' cleanup' k') := by
  apply sim_bind hm
  intro r
  cases r with
  | error e => exact sim_bind hc (fun _ => sim_pure _)
  | ok s => exact hk s

theorem sim_callElse {q : Query} {cleanup cleanup' : Run σ Unit}
    {k k' : Answer → Run σ TickResult} (hc : Sim P A cleanup cleanup')
    (hk : ∀ a, Sim P A (k a) (k' a)) :
    Sim P A (callElse env q cleanup k) (callElse env q cleanup' k') := by
  apply sim_bind (sim_ask q)
  intro a
  apply sim_ite (hk a)
  exact sim_bind hc (fun _ => sim_pure _)

end Rules

section Resets
variable {P : Plan} {A : Set ℕ} {env : Env σ}

theorem sim_modify_plain {f : NodeState → NodeState}
    (hf : ∀ n limit durationNs, f { n with limit := limit, durationNs := durationNs } =
      { f n with limit := limit, durationNs := durationNs })
    (hlimit : ∀ n, (f n).limit = n.limit) (hduration : ∀ n, (f n).durationNs = n.durationNs) :
    Sim P A (modifyNode (σ := σ) i f) (modifyNode i f) := by
  apply sim_modify
  · intro n n' h
    obtain ⟨limit, durationNs, rfl, hl, hd⟩ := h
    refine ⟨limit, durationNs, hf n limit durationNs, ?_, ?_⟩
    · rw [hlimit]
      exact hl
    · rw [hduration]
      exact hd
  · exact fun _ _ => rfl

theorem sim_notify (present : Bool) (q : Query) :
    Sim P A (notify env present q) (notify env present q) := by
  apply sim_ite
  · exact sim_bind (sim_ask q) (fun _ => sim_pure _)
  · exact sim_pure _

theorem sim_haltLeaf (id : ℕ) : Sim P A (haltLeaf P env id) (haltLeaf P env id) := by
  apply sim_get
  intro n n' h
  obtain ⟨limit, durationNs, rfl, -, -⟩ := h
  apply sim_ite
  · apply sim_bind
    · exact sim_modify_plain (fun _ _ _ => rfl) (fun _ => rfl) (fun _ => rfl)
    · exact fun _ => sim_notify _ _
  · exact sim_pure _

theorem sim_abortContext (id : ℕ) (h : SameButMasked P id n n') :
    Sim P A (abortContext P env id n) (abortContext P env id n') := by
  obtain ⟨limit, durationNs, rfl, -, -⟩ := h
  apply sim_ite
  · exact sim_notify _ _
  · apply sim_ite
    · exact sim_notify _ _
    · exact sim_pure _

theorem sim_resetBranch {reset : ℕ → Run σ Unit} (hreset : ∀ c, Sim P A (reset c) (reset c))
    (id index child : ℕ) :
    Sim P A (resetBranch P env reset id index child) (resetBranch P env reset id index child) := by
  apply sim_get
  intro n n' h
  obtain ⟨limit, durationNs, rfl, -, -⟩ := h
  apply sim_ite
  · apply sim_bind
    · exact sim_modify_plain (fun _ _ _ => rfl) (fun _ => rfl) (fun _ => rfl)
    · exact fun _ => sim_bind (hreset child) (fun _ => sim_notify _ _)
  · exact hreset child

theorem sim_resetChildren {reset : ℕ → Run σ Unit} (hreset : ∀ c, Sim P A (reset c) (reset c))
    (id index : ℕ) (l : List ℕ) :
    Sim P A (resetChildren P env reset id index l) (resetChildren P env reset id index l) := by
  induction l generalizing index with
  | nil => exact sim_pure _
  | cons c l ih => exact sim_bind (sim_resetBranch hreset id index c) (fun _ => ih (index+1))

theorem sim_resetNodeStateImpl (levels id : ℕ) (clear : Bool) :
    Sim P A (resetNodeStateImpl P env levels id clear)
      (resetNodeStateImpl P env levels id clear) := by
  induction levels generalizing id with
  | zero => exact sim_pure _
  | succ levels ih =>
    apply sim_ite
    · apply sim_get
      intro n n' h
      apply sim_bind (sim_haltLeaf id)
      intro _
      apply sim_bind
      · exact sim_modify_plain (fun _ _ _ => rfl) (fun _ => rfl) (fun _ => rfl)
      · intro _
        apply sim_bind (sim_resetChildren (fun c => ih c) id 0 _)
        exact fun _ => sim_abortContext id h
    · exact sim_pure _

theorem sim_resetNodeState (id : ℕ) : Sim P A (resetNodeState P env id) (resetNodeState P env id) :=
  sim_resetNodeStateImpl _ _ _

theorem sim_resetTreeState (id : ℕ) : Sim P A (resetTreeState P env id) (resetTreeState P env id) :=
  sim_resetNodeStateImpl _ _ _

end Resets

section Kinds
variable {P : Plan} {A : Set ℕ} {env : Env σ} {tick : ℕ → Run σ TickResult} {id : ℕ}

theorem sim_finishWith (hid : id ∈ A) (status : NodeStatus) :
    Sim P A (finishWith (σ := σ) id status) (finishWith id status) :=
  sim_bind (sim_modify_own hid _) (fun _ => sim_pure _)

theorem sim_terminate (hid : id ∈ A) (status : NodeStatus) :
    Sim P A (terminate P env id status) (terminate P env id status) :=
  sim_bind (sim_resetNodeState id) (fun _ => sim_finishWith hid status)

theorem sim_setCursor (hid : id ∈ A) (child : ℕ) :
    Sim P A (setCursor (σ := σ) id child) (setCursor id child) :=
  sim_modify_own hid _

theorem sim_displaceBranch (hid : id ∈ A) (selected : ℕ) :
    Sim P A (displaceBranch P env id selected) (displaceBranch P env id selected) := by
  apply sim_get_own hid
  intro n
  apply sim_ite
  · exact sim_bind (sim_resetNodeState _) (fun _ => sim_setCursor hid 0)
  · exact sim_pure _

theorem sim_tickLeaf (hid : id ∈ A) : Sim P A (tickLeaf env id) (tickLeaf env id) := by
  apply sim_bind (sim_ask _)
  intro a
  cases statusOf a.status with
  | none => exact sim_pure _
  | some status => exact sim_bind (sim_modify_own hid _) (fun _ => sim_pure _)

variable (htick : ∀ c, Sim P A (tick c) (tick c))
include htick

theorem sim_pipelineChild (hid : id ∈ A) {next : Run σ TickResult} (hnext : Sim P A next next)
    (current counter : ℕ) :
    Sim P A (pipelineChild P env tick id next current counter)
      (pipelineChild P env tick id next current counter) := by
  apply sim_onOkElse (htick current) (sim_resetNodeState id)
  intro status
  apply sim_ite
  · exact sim_bind (sim_setCursor hid current) (fun _ => sim_finishWith hid _)
  · apply sim_callElse (sim_resetNodeState id)
    intro _
    apply sim_bind (sim_modify_own hid _)
    intro _
    apply sim_ite (sim_terminate hid _)
    exact sim_bind (sim_modify_own hid _) (fun _ => hnext)

theorem sim_pipelineLoop (hid : id ∈ A) (rounds : ℕ) :
    Sim P A (pipelineLoop P env tick id rounds) (pipelineLoop P env tick id rounds) := by
  induction rounds with
  | zero => exact sim_pure _
  | succ rounds ih =>
    apply sim_get_own hid
    intro n
    apply sim_ite (sim_terminate hid _)
    apply sim_ite (sim_pipelineChild htick hid ih _ _)
    apply sim_ite (sim_pure _)
    apply sim_bind (sim_modify_own hid _)
    intro _
    apply sim_callElse (sim_resetNodeState id)
    exact fun _ => sim_pipelineChild htick hid ih _ _

theorem sim_tickEntryUpdated (hid : id ∈ A) :
    Sim P A (tickEntryUpdated P env tick id) (tickEntryUpdated P env tick id) := by
  apply sim_ite (sim_pure _)
  apply sim_callElse (sim_resetNodeState id)
  intro a
  apply sim_get_own hid
  intro n
  apply sim_ite (sim_pure _)
  apply sim_bind
  · apply sim_get_own hid
    intro n
    apply sim_ite
    · exact sim_bind (sim_resetNodeState _) (fun _ => sim_setCursor hid 0)
    · exact sim_ite (sim_resetNodeState _) (sim_pure _)
  · intro _
    apply sim_bind (sim_modify_own hid _)
    intro _
    apply sim_onOkElse (htick _) (sim_resetNodeState id)
    exact fun _ => sim_bind (sim_modify_own hid _) (fun _ => sim_pure _)

theorem sim_consumeItem (hid : id ∈ A) :
    Sim P A (consumeItem P env tick id) (consumeItem P env tick id) := by
  apply sim_onOkElse (htick _) (sim_resetNodeState id)
  intro status
  cases status with
  | running => exact sim_bind (sim_setCursor hid _) (fun _ => sim_finishWith hid _)
  | failure => exact sim_terminate hid _
  | success =>
    apply sim_callElse (sim_resetNodeState id)
    intro a
    apply sim_bind (sim_modify_own hid _)
    intro _
    apply sim_ite
    · apply sim_bind (sim_resetNodeState _)
      exact fun _ => sim_bind (sim_setCursor hid 0) (fun _ => sim_finishWith hid _)
    · exact sim_terminate hid _

theorem sim_tickConsumeQueue (hid : id ∈ A) :
    Sim P A (tickConsumeQueue P env tick id) (tickConsumeQueue P env tick id) := by
  apply sim_ite (sim_pure _)
  apply sim_get_own hid
  intro n
  apply sim_ite (sim_consumeItem htick hid)
  apply sim_bind (sim_modify_own hid _)
  intro _
  apply sim_callElse (sim_resetNodeState id)
  intro a
  apply sim_ite (sim_consumeItem htick hid)
  exact sim_bind (sim_modify_own hid _) (fun _ => sim_terminate hid _)

theorem sim_conditionStatus :
    Sim P A (conditionStatus P env tick id) (conditionStatus P env tick id) := by
  apply sim_ite _ (htick _)
  apply sim_callElse (sim_pure _)
  intro a
  cases statusOf a.status with
  | none => exact sim_pure _
  | some status => exact sim_pure _

omit htick in
theorem sim_suspendBranch (hid : id ∈ A) :
    Sim P A (suspendBranch P env id) (suspendBranch P env id) :=
  sim_bind (sim_displaceBranch hid 0) (fun _ => sim_finishWith hid _)

theorem sim_tickBranch (hid : id ∈ A) (selected : ℕ) :
    Sim P A (tickBranch P env tick id selected) (tickBranch P env tick id selected) := by
  apply sim_bind (sim_displaceBranch hid selected)
  intro _
  apply sim_onOk (htick selected)
  intro status
  apply sim_bind (sim_modify_own hid _)
  intro _
  apply sim_ite
  · exact sim_bind (sim_setCursor hid selected) (fun _ => sim_pure _)
  · exact sim_terminate hid _

theorem sim_tickGuarded (hid : id ∈ A) :
    Sim P A (tickGuarded P env tick id) (tickGuarded P env tick id) := by
  apply sim_ite (sim_pure _)
  apply sim_onOk (sim_conditionStatus htick)
  intro condition
  apply sim_ite (sim_suspendBranch hid)
  apply sim_ite (sim_pure _)
  apply sim_ite
  · exact sim_ite (sim_terminate hid _) (sim_tickBranch htick hid _)
  · exact sim_ite (sim_terminate hid _) (sim_tickBranch htick hid _)

theorem sim_tickKeepRunning (hid : id ∈ A) (childId : ℕ) :
    Sim P A (tickKeepRunning P env tick id childId) (tickKeepRunning P env tick id childId) := by
  apply sim_get_own hid
  intro n
  apply sim_ite (sim_pure _)
  apply sim_ite (sim_terminate hid _)
  apply sim_onOk (htick childId)
  intro status
  cases status with
  | running => exact sim_finishWith hid _
  | failure => exact sim_terminate hid _
  | success =>
    apply sim_bind (sim_modify_own hid _)
    intro _
    apply sim_bind (sim_resetNodeState childId)
    intro _
    apply sim_get_own hid
    exact fun n => sim_ite (sim_terminate hid _) (sim_finishWith hid _)

theorem sim_tickWhileDo (hid : id ∈ A) :
    Sim P A (tickWhileDo P env tick id) (tickWhileDo P env tick id) := by
  apply sim_ite (sim_pure _)
  apply sim_ite (sim_pure _)
  apply sim_get_own hid
  intro n
  apply sim_ite (sim_terminate hid _)
  apply sim_onOk (sim_conditionStatus htick)
  intro condition
  cases condition with
  | running => exact sim_suspendBranch hid
  | failure => exact sim_terminate hid _
  | success =>
    apply sim_onOk (htick _)
    intro status
    apply sim_ite
    · exact sim_bind (sim_setCursor hid _) (fun _ => sim_finishWith hid _)
    · apply sim_bind (sim_setCursor hid 0)
      intro _
      apply sim_ite (sim_terminate hid _)
      apply sim_bind (sim_modify_own hid _)
      intro _
      apply sim_bind (sim_resetNodeState _)
      intro _
      apply sim_get_own hid
      exact fun n => sim_ite (sim_terminate hid _) (sim_finishWith hid _)

theorem sim_tickSwitch (hid : id ∈ A) :
    Sim P A (tickSwitch P env tick id) (tickSwitch P env tick id) := by
  apply sim_ite (sim_pure _)
  apply sim_callElse (sim_pure _)
  intro a
  cases (children P id)[a.index]? with
  | none => exact sim_terminate hid _
  | some selected =>
    apply sim_bind (sim_displaceBranch hid selected)
    intro _
    apply sim_onOk (htick selected)
    intro status
    apply sim_ite
    · exact sim_bind (sim_setCursor hid selected) (fun _ => sim_finishWith hid _)
    · exact sim_terminate hid _

theorem sim_tickRunOnce (hid : id ∈ A) (childId : ℕ) :
    Sim P A (tickRunOnce tick id childId) (tickRunOnce tick id childId) := by
  apply sim_get_own hid
  intro n
  apply sim_ite (sim_pure _)
  apply sim_ite (sim_pure _)
  apply sim_onOk (htick childId)
  exact fun _ => sim_bind (sim_modify_own hid _) (fun _ => sim_pure _)

theorem sim_tickTimeout (hid : id ∈ A) (childId : ℕ) :
    Sim P A (tickTimeout P env tick id childId) (tickTimeout P env tick id childId) := by
  apply sim_ite (sim_pure _)
  apply sim_bind (sim_ask _)
  intro a
  apply sim_bind (sim_modify_own hid _)
  intro _
  apply sim_get_own hid
  intro n
  apply sim_ite (sim_terminate hid _)
  apply sim_onOk (htick childId)
  intro status
  apply sim_bind (sim_ask _)
  intro b
  apply sim_get_own hid
  intro n
  apply sim_ite (sim_terminate hid _)
  exact sim_ite (sim_finishWith hid _) (sim_terminate hid _)

theorem sim_delayedTick (hid : id ∈ A) (childId : ℕ) :
    Sim P A (delayedTick P env tick id childId) (delayedTick P env tick id childId) := by
  apply sim_onOk (htick childId)
  exact fun status => sim_ite (sim_finishWith hid _) (sim_terminate hid _)

theorem sim_tickDelay (hid : id ∈ A) (childId : ℕ) :
    Sim P A (tickDelay P env tick id childId) (tickDelay P env tick id childId) := by
  apply sim_ite (sim_pure _)
  apply sim_get_own hid
  intro n
  apply sim_ite (sim_delayedTick htick hid childId)
  apply sim_bind (sim_ask _)
  intro a
  apply sim_bind (sim_modify_own hid _)
  intro _
  apply sim_get_own hid
  intro n
  apply sim_ite (sim_finishWith hid _)
  exact sim_bind (sim_modify_own hid _) (fun _ => sim_delayedTick htick hid childId)

theorem sim_repeatLoop (hid : id ∈ A) (rounds childId : ℕ) :
    Sim P A (repeatLoop P env tick id rounds childId)
      (repeatLoop P env tick id rounds childId) := by
  induction rounds generalizing childId with
  | zero => exact sim_pure _
  | succ rounds ih =>
    apply sim_get_own hid
    intro n
    apply sim_ite _ (sim_terminate hid _)
    apply sim_ite (sim_pure _)
    apply sim_onOk (htick childId)
    intro status
    apply sim_ite (sim_finishWith hid _)
    apply sim_bind (sim_modify_own hid _)
    intro _
    exact sim_bind (sim_resetNodeState childId) (fun _ => ih _)

theorem sim_tickRepeat (hid : id ∈ A) (childId : ℕ) :
    Sim P A (tickRepeat P env tick id childId) (tickRepeat P env tick id childId) := by
  apply sim_get_own hid
  exact fun n => sim_ite (sim_terminate hid _) (sim_repeatLoop htick hid _ childId)

theorem sim_tickSingleChild (hid : id ∈ A) (childId : ℕ) :
    Sim P A (tickSingleChild P tick id childId) (tickSingleChild P tick id childId) := by
  apply sim_ite (sim_pure _)
  apply sim_onOk (htick childId)
  exact fun _ => sim_finishWith hid _

theorem sim_retryLoop (hid : id ∈ A) (rounds childId : ℕ) :
    Sim P A (retryLoop P env tick id rounds childId)
      (retryLoop P env tick id rounds childId) := by
  induction rounds generalizing childId with
  | zero => exact sim_pure _
  | succ rounds ih =>
    apply sim_get_own hid
    intro n
    apply sim_ite _ (sim_tickSingleChild htick hid childId)
    apply sim_ite (sim_pure _)
    apply sim_onOk (htick childId)
    intro status
    cases status with
    | running => exact sim_finishWith hid _
    | success => exact sim_terminate hid _
    | failure =>
      apply sim_bind (sim_modify_own hid _)
      intro _
      apply sim_bind (sim_resetNodeState childId)
      intro _
      apply sim_get_own hid
      exact fun n => sim_ite (sim_terminate hid _) (ih _)

theorem sim_tickRetry (hid : id ∈ A) (childId : ℕ) :
    Sim P A (tickRetry P env tick id childId) (tickRetry P env tick id childId) := by
  apply sim_get_own hid
  exact fun n => sim_ite (sim_terminate hid _) (sim_retryLoop htick hid _ childId)

omit htick in
theorem sim_readBranch {child : ℕ} {k : Branch → Run σ TickResult} (hk : ∀ b, Sim P A (k b) (k b)) :
    Sim P A (readBranch child >>= k) (readBranch child >>= k) := by
  intro w w' h
  obtain ⟨limit, durationNs, hn, -, -⟩ := h.nodes child
  have hb : (readBranch child w').1 = (readBranch child w).1 := by
    simp only [readBranch]
    rw [hn]
  have hkw := hk (readBranch child w).1 w w' h
  show (k (readBranch child w).1 w).1 = (k (readBranch child w').1 w').1 ∧
    Related P A (k (readBranch child w).1 w).2 (k (readBranch child w').1 w').2
  rw [hb]
  exact hkw

omit htick in
theorem sim_mark (child : ℕ) (x : Bool) :
    Sim P A (modifyNode (σ := σ) child (fun n => { n with parallelBranchPrepared := x }))
      (modifyNode child (fun n => { n with parallelBranchPrepared := x })) :=
  sim_modify_plain (fun _ _ _ => rfl) (fun _ => rfl) (fun _ => rfl)

omit htick in
theorem sim_restartBranch (aggregate : NodeStatus) (child : ℕ) (terminal : Bool)
    {next : Run σ TickResult} (hnext : Sim P A next next) :
    Sim P A (restartBranch P env aggregate child terminal next)
      (restartBranch P env aggregate child terminal next) := by
  apply sim_ite _ hnext
  apply sim_bind (sim_mark child false)
  exact fun _ => sim_bind (sim_resetTreeState child) (fun _ => hnext)

omit htick in
theorem sim_parallelFinishLoop (hid : id ∈ A) (aggregate : NodeStatus) (index : ℕ) (l : List ℕ) :
    Sim P A (parallelFinishLoop P env id aggregate index l)
      (parallelFinishLoop P env id aggregate index l) := by
  induction l generalizing index with
  | nil => exact sim_ite (sim_finishWith hid _) (sim_terminate hid _)
  | cons child l ih =>
    apply sim_ite (sim_pure _)
    apply sim_readBranch
    intro b
    apply sim_ite
    · apply sim_callElse (sim_resetNodeState id)
      intro _
      apply sim_bind (sim_mark child false)
      exact fun _ => sim_restartBranch aggregate child _ (ih (index+1))
    · exact sim_restartBranch aggregate child _ (ih (index+1))

omit htick in
theorem sim_parallelJoin (hid : id ∈ A) (anyFailure anyRunning : Bool) :
    Sim P A (parallelJoin P env id anyFailure anyRunning)
      (parallelJoin P env id anyFailure anyRunning) := by
  apply sim_ite
  · apply sim_callElse (sim_resetNodeState id)
    exact fun _ => sim_parallelFinishLoop hid _ 0 _
  · exact sim_parallelFinishLoop hid _ 0 _

theorem sim_stepBranch (index child : ℕ) {next : NodeStatus → Run σ TickResult}
    (hnext : ∀ s, Sim P A (next s) (next s)) :
    Sim P A (stepBranch P env tick id index child next)
      (stepBranch P env tick id index child next) := by
  apply sim_onOkElse (htick child) (sim_resetNodeState id)
  intro status
  apply sim_readBranch
  intro b
  apply sim_ite _ (hnext status)
  apply sim_callElse (sim_resetNodeState id)
  exact fun _ => hnext status

theorem sim_parallelTickLoop (hid : id ∈ A) (index : ℕ) (l : List ℕ)
    (anyFailure anyRunning : Bool) :
    Sim P A (parallelTickLoop P env tick id index l anyFailure anyRunning)
      (parallelTickLoop P env tick id index l anyFailure anyRunning) := by
  induction l generalizing index anyFailure anyRunning with
  | nil => exact sim_parallelJoin hid _ _
  | cons child l ih =>
    apply sim_ite (sim_pure _)
    apply sim_readBranch
    intro b
    apply sim_ite (ih _ _ _)
    apply sim_ite
    · apply sim_bind (sim_mark child true)
      intro _
      apply sim_callElse (sim_resetNodeState id)
      exact fun _ => sim_stepBranch htick index child (fun s => ih _ _ _)
    · exact sim_stepBranch htick index child (fun s => ih _ _ _)

omit htick in
theorem sim_resetAll (l : List ℕ) : Sim P A (resetAll P env l) (resetAll P env l) := by
  induction l with
  | nil => exact sim_pure _
  | cons child l ih => exact sim_bind (sim_resetNodeState child) (fun _ => ih)

theorem sim_reactiveLoop (hid : id ∈ A) (early exhausted : NodeStatus) (l : List ℕ) :
    Sim P A (reactiveLoop P env tick id early exhausted l)
      (reactiveLoop P env tick id early exhausted l) := by
  induction l with
  | nil => exact sim_terminate hid _
  | cons child l ih =>
    apply sim_ite (sim_pure _)
    apply sim_onOk (htick child)
    intro status
    apply sim_ite (sim_terminate hid _)
    apply sim_ite _ ih
    apply sim_bind (sim_resetAll l)
    exact fun _ => sim_bind (sim_setCursor hid child) (fun _ => sim_finishWith hid _)

theorem sim_memoryLoop (hid : id ∈ A) (early exhausted : NodeStatus) (l : List ℕ) :
    Sim P A (memoryLoop P env tick id early exhausted l)
      (memoryLoop P env tick id early exhausted l) := by
  induction l with
  | nil => exact sim_terminate hid _
  | cons child l ih =>
    apply sim_ite (sim_pure _)
    apply sim_onOk (htick child)
    intro status
    apply sim_ite (sim_terminate hid _)
    apply sim_ite
    · exact sim_bind (sim_setCursor hid child) (fun _ => sim_finishWith hid _)
    · exact sim_bind (sim_setCursor hid _) (fun _ => ih)

theorem sim_tickKind (hid : id ∈ A) :
    Sim P A (tickKind P env tick id) (tickKind P env tick id) := by
  apply sim_get_own hid
  intro n
  cases (P.node id).kind with
  | leaf => exact sim_tickLeaf hid
  | sequence => exact sim_memoryLoop htick hid _ _ _
  | fallback => exact sim_memoryLoop htick hid _ _ _
  | inverter => exact sim_tickSingleChild htick hid _
  | forceSuccess => exact sim_tickSingleChild htick hid _
  | forceFailure => exact sim_tickSingleChild htick hid _
  | retry => exact sim_tickRetry htick hid _
  | «repeat» => exact sim_tickRepeat htick hid _
  | timeout => exact sim_tickTimeout htick hid _
  | delay => exact sim_tickDelay htick hid _
  | parallel => exact sim_ite (sim_pure _) (sim_parallelTickLoop htick hid _ _ _ _)
  | reactiveSequence => exact sim_ite (sim_pure _) (sim_reactiveLoop htick hid _ _ _)
  | runOnce => exact sim_tickRunOnce htick hid _
  | ifThenElse => exact sim_tickGuarded htick hid
  | precondition => exact sim_tickGuarded htick hid
  | whileDo => exact sim_tickWhileDo htick hid
  | switch => exact sim_tickSwitch htick hid
  | keepRunningUntilFailure => exact sim_tickKeepRunning htick hid _
  | pipelineSequence => exact sim_pipelineLoop htick hid _
  | entryUpdated => exact sim_tickEntryUpdated htick hid
  | consumeQueue => exact sim_tickConsumeQueue htick hid
  | reactiveFallback => exact sim_ite (sim_pure _) (sim_reactiveLoop htick hid _ _ _)

end Kinds

section Tick
variable {P : Plan} {A : Set ℕ} {env : Env σ} {id : ℕ}

theorem applyParameters_masked (h : SameButMasked P id n n') (a : Answer) :
    applyParameters (P.node id) a n' = applyParameters (P.node id) a n := by
  obtain ⟨limit, durationNs, rfl, hl, hd⟩ := h
  simp only [applyParameters]
  cases hm : maskLimit (P.node id).dynamicParameterMask with
  | true =>
    cases hm' : maskDuration (P.node id).dynamicParameterMask with
    | true => rfl
    | false =>
      rw [hd hm']
      rfl
  | false =>
    rw [hl hm]
    cases hm' : maskDuration (P.node id).dynamicParameterMask with
    | true => rfl
    | false => rw [hd hm']

theorem unmasked_eq (h : SameButMasked P id n n') (hmask : (P.node id).dynamicParameterMask = 0) :
    n' = n := by
  obtain ⟨limit, durationNs, rfl, hl, hd⟩ := h
  rw [hl (by rw [hmask]; decide), hd (by rw [hmask]; decide)]

theorem related_insert (h : Related P A w w') (heq : w'.nodes id = w.nodes id) :
    Related P (insert id A) w w' := by
  refine ⟨h.env, h.nodes, ?_, h.trace⟩
  intro i hi
  rcases Set.mem_insert_iff.mp hi with rfl | hi
  · exact heq
  · exact h.equal i hi

theorem related_resolver (henv : Overwrites P env) (h : Related P A w w') (resolver user : ℕ) :
    w'.answer env (.resolver id resolver user (w'.nodes id).limit (w'.nodes id).durationNs) =
      w.answer env (.resolver id resolver user (w.nodes id).limit (w.nodes id).durationNs) ∧
    Related P A
      (w.call env (.resolver id resolver user (w.nodes id).limit (w.nodes id).durationNs))
      (w'.call env (.resolver id resolver user (w'.nodes id).limit (w'.nodes id).durationNs)) := by
  obtain ⟨limit, durationNs, hn, hl, hd⟩ := h.nodes id
  have hlimit : (w'.nodes id).limit = limit := by rw [hn]
  have hduration : (w'.nodes id).durationNs = durationNs := by rw [hn]
  have hanswer : env w'.env (.resolver id resolver user limit durationNs) =
      env w.env (.resolver id resolver user (w.nodes id).limit (w.nodes id).durationNs) := by
    rw [h.env]
    exact henv _ _ _ _ _ _ _ _ hl hd
  have herase : eraseIncoming P ⟨.resolver id resolver user limit durationNs,
        w'.answer env (.resolver id resolver user limit durationNs)⟩ =
      eraseIncoming P
        ⟨.resolver id resolver user (w.nodes id).limit (w.nodes id).durationNs,
          w.answer env (.resolver id resolver user (w.nodes id).limit
            (w.nodes id).durationNs)⟩ := by
    simp only [eraseIncoming, World.answer, hanswer]
    cases hm : maskLimit (P.node id).dynamicParameterMask <;>
      cases hm' : maskDuration (P.node id).dynamicParameterMask <;> simp [hm, hm', hl, hd]
  rw [hlimit, hduration]
  refine ⟨congrArg Prod.fst hanswer, congrArg Prod.snd hanswer, h.nodes, h.equal, ?_⟩
  rw [call_trace, call_trace, List.map_append, List.map_append, h.trace, List.map_singleton,
    List.map_singleton, herase]

theorem sim_resolved {k : Run σ TickResult} (hk : Sim P (insert id A) k k) (a : Answer)
    (h : Related P A w w') : let m : Run σ TickResult := do
      modifyNode id (applyParameters (P.node id) a)
      k
    (m w).1 = (m w').1 ∧ Related P A (m w).2 (m w').2 := by
  have hsame : SameButMasked P id (applyParameters (P.node id) a (w.nodes id))
      (applyParameters (P.node id) a (w'.nodes id)) := by
    rw [applyParameters_masked (h.nodes id) a]
    exact sameButMasked_refl id _
  have hset : Related P (insert id A) (w.set id (applyParameters (P.node id) a (w.nodes id)))
      (w'.set id (applyParameters (P.node id) a (w'.nodes id))) := by
    apply related_insert
    · exact related_set h hsame (fun _ => applyParameters_masked (h.nodes id) a)
    · rw [set_nodes_self, set_nodes_self]
      exact applyParameters_masked (h.nodes id) a
  obtain ⟨hres, hrel⟩ := hk _ _ hset
  exact ⟨hres, related_mono (Set.subset_insert id A) hrel⟩

theorem sim_resolveParameters (henv : Overwrites P env)
    (hmask : (P.node id).parameterResolver = none → (P.node id).dynamicParameterMask = 0)
    {k : Run σ TickResult} (hk : Sim P (insert id A) k k) :
    Sim P A (resolveParameters P env id k) (resolveParameters P env id k) := by
  intro w w' h
  rw [resolveParameters]
  cases hr : (P.node id).parameterResolver with
  | none =>
    have heq := unmasked_eq (h.nodes id) (hmask hr)
    obtain ⟨hres, hrel⟩ := hk w w' (related_insert h heq)
    exact ⟨hres, related_mono (Set.subset_insert id A) hrel⟩
  | some resolver =>
    obtain ⟨hanswer, hcall⟩ := related_resolver henv h resolver (P.node id).parameterUser
    let j : Answer → Run σ TickResult := fun a =>
      if maskLimit (P.node id).dynamicParameterMask ∧ P.maxControlIterations < a.limit then
        pure (.error ⟨.einval, .callback⟩)
      else do
        modifyNode id (applyParameters (P.node id) a)
        k
    show (callElse env (.resolver id resolver (P.node id).parameterUser (w.nodes id).limit
        (w.nodes id).durationNs) (pure ()) j w).1 =
      (callElse env (.resolver id resolver (P.node id).parameterUser (w'.nodes id).limit
        (w'.nodes id).durationNs) (pure ()) j w').1 ∧ Related P A
      (callElse env (.resolver id resolver (P.node id).parameterUser (w.nodes id).limit
        (w.nodes id).durationNs) (pure ()) j w).2
      (callElse env (.resolver id resolver (P.node id).parameterUser (w'.nodes id).limit
        (w'.nodes id).durationNs) (pure ()) j w').2
    by_cases hcode : (w.answer env (.resolver id resolver (P.node id).parameterUser
        (w.nodes id).limit (w.nodes id).durationNs)).code = .ok
    · rw [callElse_ok hcode, callElse_ok (by rw [hanswer]; exact hcode), hanswer]
      by_cases hlimit : maskLimit (P.node id).dynamicParameterMask ∧ P.maxControlIterations <
          (w.answer env (.resolver id resolver (P.node id).parameterUser
            (w.nodes id).limit (w.nodes id).durationNs)).limit
      · simp only [j, if_pos hlimit]
        exact ⟨rfl, hcall⟩
      · simp only [j, if_neg hlimit]
        exact sim_resolved hk _ hcall
    · rw [callElse_fail hcode, callElse_fail (by rw [hanswer]; exact hcode), hanswer]
      exact ⟨rfl, hcall⟩

theorem sim_leaveNode (r : TickResult) : Sim P A (leaveNode (σ := σ) id r) (leaveNode id r) := by
  have hvisit : ∀ r, Sim P A (visit (σ := σ) id r) (visit id r) :=
    fun _ _ _ h => ⟨rfl, h.env, h.nodes, h.equal, h.trace⟩
  cases r with
  | error e => exact hvisit _
  | ok status =>
    apply sim_bind
    · exact sim_modify_plain (fun _ _ _ => rfl) (fun _ => rfl) (fun _ => rfl)
    · exact fun _ => hvisit _

theorem sim_tickNode (hw : WellBuilt P) (henv : Overwrites P env) (levels id : ℕ) :
    Sim P A (tickNode P env levels id) (tickNode P env levels id) := by
  induction levels generalizing id A with
  | zero => exact sim_pure _
  | succ levels ih =>
    by_cases hid : nodeIdValid P id = true
    · simp only [tickNode, if_pos hid]
      apply sim_bind
      · apply sim_resolveParameters henv (hw.configured id hid).mask_zero.mpr
        have hmem : id ∈ insert id A := Set.mem_insert id A
        apply sim_bind (sim_modify_own hmem _)
        exact fun _ => sim_tickKind (fun c => ih c) hmem
      · exact fun r => sim_leaveNode r
    · simp only [tickNode, if_neg hid]
      exact sim_pure _

end Tick

end SaltsUtils.BehaviorTree
