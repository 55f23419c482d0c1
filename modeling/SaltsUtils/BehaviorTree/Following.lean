import SaltsUtils.BehaviorTree.TickSound

/-!
# What every program of a node keeps

A predicate on worlds that own writes, callbacks, resets and branch markers keep is kept
by the programs of all node kinds, as far as the ticks of the children keep it.
-/

set_option autoImplicit false

namespace SaltsUtils.BehaviorTree
open SaltsUtils.Forest

variable {σ : Type}

/-- Two programs that do the same, unless the second refuses, and what holds after a status. -/
def Follows (K : World σ → Prop) (Q : NodeStatus → World σ → Prop) (m m' : Run σ TickResult) :
    Prop :=
  ∀ w, K w → (m' w).1 = guardFault ∨
    (m w = m' w ∧ ∀ status w', m w = (.ok status, w') → Q status w')

def Keeps (K : World σ → Prop) (m : Run σ Unit) : Prop := ∀ w, K w → K (m w).2

section Rules
variable {K : World σ → Prop} {Q : NodeStatus → World σ → Prop} {env : Env σ}

theorem follows_guardFault {m : Run σ TickResult} : Follows K Q m (pure guardFault) :=
  fun _ _ => .inl rfl

theorem follows_error (f : Fault) : Follows K Q (pure (.error f)) (pure (.error f)) :=
  fun _ _ => .inr ⟨rfl, fun _ _ h => by cases h⟩

theorem follows_ok {status : NodeStatus} (h : ∀ w, K w → Q status w) :
    Follows K Q (pure (.ok status)) (pure (.ok status)) := by
  intro w hw
  refine .inr ⟨rfl, fun s w' he => ?_⟩
  have he : (Except.ok status, w) = ((Except.ok s : TickResult), w') := he
  obtain ⟨hs, rfl⟩ := Prod.mk.inj he
  obtain rfl := Except.ok.inj hs
  exact h w hw

theorem follows_ite {c : Prop} [Decidable c] {m m' n n' : Run σ TickResult}
    (hm : Follows K Q m m') (hn : Follows K Q n n') :
    Follows K Q (if c then m else n) (if c then m' else n') := by
  by_cases hc : c
  · rw [if_pos hc, if_pos hc]
    exact hm
  · rw [if_neg hc, if_neg hc]
    exact hn

theorem follows_bind {α : Type} {m : Run σ α} {k k' : α → Run σ TickResult}
    (hm : ∀ w, K w → K (m w).2) (hk : ∀ a, Follows K Q (k a) (k' a)) :
    Follows K Q (m >>= k) (m >>= k') :=
  fun w hw => hk (m w).1 (m w).2 (hm w hw)

theorem follows_get {i : ℕ} {k k' : NodeState → Run σ TickResult}
    (hk : ∀ n, Follows K Q (k n) (k' n)) : Follows K Q (getNode i >>= k) (getNode i >>= k') :=
  follows_bind (fun _ hw => hw) hk

theorem follows_readBranch {child : ℕ} {k k' : Branch → Run σ TickResult}
    (hk : ∀ b, Follows K Q (k b) (k' b)) :
    Follows K Q (readBranch child >>= k) (readBranch child >>= k') :=
  follows_bind (fun _ hw => hw) hk

theorem follows_onOk {m m' : Run σ TickResult} {k k' : NodeStatus → Run σ TickResult}
    (hm : Follows K (fun _ => K) m m') (hk : ∀ s, Follows K Q (k s) (k' s)) :
    Follows K Q (onOk m k) (onOk m' k') := by
  intro w hw
  rcases hr' : m' w with ⟨r', w'⟩
  rcases hm w hw with hg | ⟨heq, hq⟩
  · left
    rw [hr'] at hg
    obtain rfl : r' = guardFault := hg
    rw [onOk_error hr']
    rfl
  · rw [hr'] at heq
    cases r' with
    | error f =>
      right
      rw [onOk_error heq, onOk_error hr']
      exact ⟨rfl, fun _ _ he => absurd (congrArg Prod.fst he) (by simp)⟩
    | ok s =>
      rw [onOk_ok heq, onOk_ok hr']
      exact hk s w' (hq s w' heq)

theorem follows_onOkElse {m m' : Run σ TickResult} {cleanup : Run σ Unit}
    {k k' : NodeStatus → Run σ TickResult} (hm : Follows K (fun _ => K) m m')
    (hk : ∀ s, Follows K Q (k s) (k' s)) :
    Follows K Q (onOkElse m cleanup k) (onOkElse m' cleanup k') := by
  intro w hw
  rcases hr' : m' w with ⟨r', w'⟩
  rcases hm w hw with hg | ⟨heq, hq⟩
  · left
    rw [hr'] at hg
    obtain rfl : r' = guardFault := hg
    rw [onOkElse_error hr']
    rfl
  · rw [hr'] at heq
    cases r' with
    | error f =>
      right
      rw [onOkElse_error heq, onOkElse_error hr']
      exact ⟨rfl, fun _ _ he => absurd (congrArg Prod.fst he) (by simp)⟩
    | ok s =>
      rw [onOkElse_ok heq, onOkElse_ok hr']
      exact hk s w' (hq s w' heq)

theorem follows_callElse {q : Query} {cleanup : Run σ Unit} {k k' : Answer → Run σ TickResult}
    (hq : ∀ w, K w → K (w.call env q)) (hk : ∀ a, Follows K Q (k a) (k' a)) :
    Follows K Q (callElse env q cleanup k) (callElse env q cleanup k') := by
  intro w hw
  by_cases hcode : (w.answer env q).code = .ok
  · rw [callElse_ok hcode, callElse_ok hcode]
    exact hk _ _ (hq w hw)
  · rw [callElse_fail hcode, callElse_fail hcode]
    exact .inr ⟨rfl, fun _ _ he => absurd (congrArg Prod.fst he) (by simp)⟩

end Rules

/-- A predicate that the writes of a node to itself, callbacks and branch markers keep. -/
structure Steady (env : Env σ) (id : ℕ) (K : World σ → Prop) : Prop where
  own : ∀ n w, K w → K (w.set id n)
  ask : ∀ q w, K w → K (w.call env q)
  mark : ∀ child x w, K w → K (w.set child { w.nodes child with parallelBranchPrepared := x })

section Kinds
variable {P : Plan} {env : Env σ} {K L : World σ → Prop} {Q : NodeStatus → World σ → Prop}
  {tick tick' : ℕ → Run σ TickResult} {id : ℕ}
  (hK : Steady env id K) (hreset : ∀ j, Keeps K (resetNodeState P env j))
  (hQ : ∀ s w, K w → Q s w)

section Own
include hK

theorem keeps_modify (f : NodeState → NodeState) : Keeps K (modifyNode id f) :=
  fun w hw => hK.own _ w hw

theorem keeps_mark (child : ℕ) (x : Bool) :
    Keeps K (modifyNode child (fun n => { n with parallelBranchPrepared := x })) :=
  fun w hw => hK.mark child x w hw

theorem keeps_setCursor (child : ℕ) : Keeps K (setCursor id child) := keeps_modify hK _

include hQ

theorem follows_finishWith (status : NodeStatus) :
    Follows K Q (finishWith id status) (finishWith id status) :=
  follows_bind (keeps_modify hK _) fun _ => follows_ok (hQ status)

theorem follows_tickLeaf : Follows K Q (tickLeaf env id) (tickLeaf env id) := by
  apply follows_bind (fun w hw => hK.ask _ w hw)
  intro a
  cases statusOf a.status with
  | none => exact follows_error _
  | some status => exact follows_bind (keeps_modify hK _) fun _ => follows_ok (hQ status)

end Own

section Resets
include hK hreset

theorem keeps_displaceBranch (selected : ℕ) : Keeps K (displaceBranch P env id selected) := by
  intro w hw
  unfold displaceBranch
  show K ((if _ then _ else _ : Run σ Unit) w).2
  split_ifs
  · exact keeps_setCursor hK 0 _ (hreset _ w hw)
  · exact hw

theorem keeps_restartEntry (changed : Bool) : Keeps K (restartEntry P env id changed) := by
  intro w hw
  unfold restartEntry
  show K ((if _ then _ else _ : Run σ Unit) w).2
  split_ifs
  · exact keeps_setCursor hK 0 _ (hreset _ w hw)
  · exact hreset _ w hw
  · exact hw

omit hK in
theorem keeps_resetAll (l : List ℕ) : Keeps K (resetAll P env l) := by
  induction l with
  | nil => exact fun _ hw => hw
  | cons child l ih => exact fun w hw => ih _ (hreset child w hw)

include hQ

theorem follows_terminate (status : NodeStatus) :
    Follows K Q (terminate P env id status) (terminate P env id status) :=
  follows_bind (hreset id) fun _ => follows_finishWith hK hQ status

theorem follows_suspendBranch : Follows K Q (suspendBranch P env id) (suspendBranch P env id) :=
  follows_bind (keeps_displaceBranch hK hreset 0) fun _ => follows_finishWith hK hQ _

end Resets

section Ticks
variable (htick : ∀ c, Follows K (fun _ => K) (tick c) (tick' c))
include hK htick

theorem follows_conditionStatus :
    Follows K (fun _ => K) (conditionStatus P env tick id) (conditionStatus P env tick' id) := by
  apply follows_ite _ (htick _)
  apply follows_callElse (fun w hw => hK.ask _ w hw)
  intro a
  cases statusOf a.status with
  | none => exact follows_error _
  | some status => exact follows_ok fun _ hw => hw

include hQ

variable (childId : ℕ)

theorem follows_tickSingleChild :
    Follows K Q (tickSingleChild P tick id childId) (tickSingleChild P tick' id childId) := by
  apply follows_ite follows_guardFault
  apply follows_onOk (htick childId)
  exact fun _ => follows_finishWith hK hQ _

include hreset

theorem follows_pipelineChild {next next' : Run σ TickResult} (hnext : Follows K Q next next')
    (current counter : ℕ) :
    Follows K Q (pipelineChild P env tick id next current counter)
      (pipelineChild P env tick' id next' current counter) := by
  apply follows_onOkElse (htick current)
  intro status
  apply follows_ite
  · exact follows_bind (keeps_setCursor hK current) fun _ => follows_finishWith hK hQ _
  · apply follows_callElse (fun w hw => hK.ask _ w hw)
    intro _
    apply follows_bind (keeps_modify hK _)
    intro _
    apply follows_ite (follows_terminate hK hreset hQ _)
    exact follows_bind (keeps_modify hK _) fun _ => hnext

theorem follows_pipelineLoop (rounds : ℕ) :
    Follows K Q (pipelineLoop P env tick id rounds) (pipelineLoop P env tick' id rounds) := by
  induction rounds with
  | zero => exact follows_guardFault
  | succ rounds ih =>
    apply follows_get
    intro n
    apply follows_ite (follows_terminate hK hreset hQ _)
    apply follows_ite (follows_pipelineChild hK hreset hQ htick ih _ _)
    apply follows_ite follows_guardFault
    apply follows_bind (keeps_modify hK _)
    intro _
    apply follows_callElse (fun w hw => hK.ask _ w hw)
    exact fun _ => follows_pipelineChild hK hreset hQ htick ih _ _

theorem follows_tickEntryUpdated :
    Follows K Q (tickEntryUpdated P env tick id) (tickEntryUpdated P env tick' id) := by
  apply follows_ite follows_guardFault
  apply follows_callElse (fun w hw => hK.ask _ w hw)
  intro a
  apply follows_get
  intro n
  apply follows_ite (follows_ok (hQ _))
  apply follows_bind (keeps_restartEntry hK hreset _)
  intro _
  apply follows_bind (keeps_modify hK _)
  intro _
  apply follows_onOkElse (htick _)
  exact fun _ => follows_bind (keeps_modify hK _) fun _ => follows_ok (hQ _)

theorem follows_consumeItem :
    Follows K Q (consumeItem P env tick id) (consumeItem P env tick' id) := by
  apply follows_onOkElse (htick _)
  intro status
  cases status with
  | running => exact follows_bind (keeps_setCursor hK _) fun _ => follows_finishWith hK hQ _
  | failure => exact follows_terminate hK hreset hQ _
  | success =>
    apply follows_callElse (fun w hw => hK.ask _ w hw)
    intro a
    apply follows_bind (keeps_modify hK _)
    intro _
    apply follows_ite
    · apply follows_bind (hreset _)
      intro _
      exact follows_bind (keeps_setCursor hK 0) fun _ => follows_finishWith hK hQ _
    · exact follows_terminate hK hreset hQ _

theorem follows_tickConsumeQueue :
    Follows K Q (tickConsumeQueue P env tick id) (tickConsumeQueue P env tick' id) := by
  apply follows_ite follows_guardFault
  apply follows_get
  intro n
  apply follows_ite (follows_consumeItem hK hreset hQ htick)
  apply follows_bind (keeps_modify hK _)
  intro _
  apply follows_callElse (fun w hw => hK.ask _ w hw)
  intro a
  apply follows_ite (follows_consumeItem hK hreset hQ htick)
  exact follows_bind (keeps_modify hK _) fun _ => follows_terminate hK hreset hQ _

theorem follows_tickBranch (selected : ℕ) :
    Follows K Q (tickBranch P env tick id selected) (tickBranch P env tick' id selected) := by
  apply follows_bind (keeps_displaceBranch hK hreset selected)
  intro _
  apply follows_onOk (htick selected)
  intro status
  apply follows_bind (keeps_modify hK _)
  intro _
  apply follows_ite
  · exact follows_bind (keeps_setCursor hK selected) fun _ => follows_ok (hQ _)
  · exact follows_terminate hK hreset hQ _

theorem follows_tickGuarded :
    Follows K Q (tickGuarded P env tick id) (tickGuarded P env tick' id) := by
  apply follows_ite follows_guardFault
  apply follows_onOk (follows_conditionStatus hK htick)
  intro condition
  apply follows_ite (follows_suspendBranch hK hreset hQ)
  apply follows_ite follows_guardFault
  apply follows_ite
  · exact follows_ite (follows_terminate hK hreset hQ _) (follows_tickBranch hK hreset hQ htick _)
  · exact follows_ite (follows_terminate hK hreset hQ _) (follows_tickBranch hK hreset hQ htick _)

theorem follows_tickKeepRunning :
    Follows K Q (tickKeepRunning P env tick id childId) (tickKeepRunning P env tick' id childId)
    := by
  apply follows_get
  intro n
  apply follows_ite follows_guardFault
  apply follows_ite (follows_terminate hK hreset hQ _)
  apply follows_onOk (htick childId)
  intro status
  cases status with
  | running => exact follows_finishWith hK hQ _
  | failure => exact follows_terminate hK hreset hQ _
  | success =>
    apply follows_bind (keeps_modify hK _)
    intro _
    apply follows_bind (hreset childId)
    intro _
    apply follows_get
    exact fun n => follows_ite (follows_terminate hK hreset hQ _) (follows_finishWith hK hQ _)

theorem follows_tickWhileDo :
    Follows K Q (tickWhileDo P env tick id) (tickWhileDo P env tick' id) := by
  apply follows_ite follows_guardFault
  apply follows_ite follows_guardFault
  apply follows_get
  intro n
  apply follows_ite (follows_terminate hK hreset hQ _)
  apply follows_onOk (follows_conditionStatus hK htick)
  intro condition
  cases condition with
  | running => exact follows_suspendBranch hK hreset hQ
  | failure => exact follows_terminate hK hreset hQ _
  | success =>
    apply follows_onOk (htick _)
    intro status
    apply follows_ite
    · exact follows_bind (keeps_setCursor hK _) fun _ => follows_finishWith hK hQ _
    · apply follows_bind (keeps_setCursor hK 0)
      intro _
      apply follows_ite (follows_terminate hK hreset hQ _)
      apply follows_bind (keeps_modify hK _)
      intro _
      apply follows_bind (hreset _)
      intro _
      apply follows_get
      exact fun n => follows_ite (follows_terminate hK hreset hQ _) (follows_finishWith hK hQ _)

theorem follows_tickSwitch :
    Follows K Q (tickSwitch P env tick id) (tickSwitch P env tick' id) := by
  apply follows_ite follows_guardFault
  apply follows_callElse (fun w hw => hK.ask _ w hw)
  intro a
  cases (children P id)[a.index]? with
  | none => exact follows_terminate hK hreset hQ _
  | some selected =>
    apply follows_bind (keeps_displaceBranch hK hreset selected)
    intro _
    apply follows_onOk (htick selected)
    intro status
    apply follows_ite
    · exact follows_bind (keeps_setCursor hK selected) fun _ => follows_finishWith hK hQ _
    · exact follows_terminate hK hreset hQ _

omit hreset in
theorem follows_tickRunOnce :
    Follows K Q (tickRunOnce tick id childId) (tickRunOnce tick' id childId) := by
  apply follows_get
  intro n
  apply follows_ite (follows_ok (hQ _))
  apply follows_ite follows_guardFault
  apply follows_onOk (htick childId)
  exact fun _ => follows_bind (keeps_modify hK _) fun _ => follows_ok (hQ _)

theorem follows_tickTimeout :
    Follows K Q (tickTimeout P env tick id childId) (tickTimeout P env tick' id childId) := by
  apply follows_ite follows_guardFault
  apply follows_bind (fun w hw => hK.ask _ w hw)
  intro a
  apply follows_bind (keeps_modify hK _)
  intro _
  apply follows_get
  intro n
  apply follows_ite (follows_terminate hK hreset hQ _)
  apply follows_onOk (htick childId)
  intro status
  apply follows_bind (fun w hw => hK.ask _ w hw)
  intro b
  apply follows_get
  intro n
  apply follows_ite (follows_terminate hK hreset hQ _)
  exact follows_ite (follows_finishWith hK hQ _) (follows_terminate hK hreset hQ _)

theorem follows_delayedTick :
    Follows K Q (delayedTick P env tick id childId) (delayedTick P env tick' id childId) := by
  apply follows_onOk (htick childId)
  exact fun status => follows_ite (follows_finishWith hK hQ _) (follows_terminate hK hreset hQ _)

theorem follows_tickDelay :
    Follows K Q (tickDelay P env tick id childId) (tickDelay P env tick' id childId) := by
  apply follows_ite follows_guardFault
  apply follows_get
  intro n
  apply follows_ite (follows_delayedTick hK hreset hQ htick childId)
  apply follows_bind (fun w hw => hK.ask _ w hw)
  intro a
  apply follows_bind (keeps_modify hK _)
  intro _
  apply follows_get
  intro n
  apply follows_ite (follows_finishWith hK hQ _)
  exact follows_bind (keeps_modify hK _) fun _ => follows_delayedTick hK hreset hQ htick childId

theorem follows_repeatLoop (rounds childId : ℕ) :
    Follows K Q (repeatLoop P env tick id rounds childId)
      (repeatLoop P env tick' id rounds childId) := by
  induction rounds generalizing childId with
  | zero => exact follows_guardFault
  | succ rounds ih =>
    apply follows_get
    intro n
    apply follows_ite _ (follows_terminate hK hreset hQ _)
    apply follows_ite follows_guardFault
    apply follows_onOk (htick childId)
    intro status
    apply follows_ite (follows_finishWith hK hQ _)
    apply follows_bind (keeps_modify hK _)
    intro _
    exact follows_bind (hreset childId) fun _ => ih _

theorem follows_tickRepeat :
    Follows K Q (tickRepeat P env tick id childId) (tickRepeat P env tick' id childId) := by
  apply follows_get
  exact fun n => follows_ite (follows_terminate hK hreset hQ _)
    (follows_repeatLoop hK hreset hQ htick _ childId)

theorem follows_retryLoop (rounds childId : ℕ) :
    Follows K Q (retryLoop P env tick id rounds childId)
      (retryLoop P env tick' id rounds childId) := by
  induction rounds generalizing childId with
  | zero => exact follows_guardFault
  | succ rounds ih =>
    apply follows_get
    intro n
    apply follows_ite _ (follows_tickSingleChild hK hQ htick childId)
    apply follows_ite follows_guardFault
    apply follows_onOk (htick childId)
    intro status
    cases status with
    | running => exact follows_finishWith hK hQ _
    | success => exact follows_terminate hK hreset hQ _
    | failure =>
      apply follows_bind (keeps_modify hK _)
      intro _
      apply follows_bind (hreset childId)
      intro _
      apply follows_get
      exact fun n => follows_ite (follows_terminate hK hreset hQ _) (ih _)

theorem follows_tickRetry :
    Follows K Q (tickRetry P env tick id childId) (tickRetry P env tick' id childId) := by
  apply follows_get
  exact fun n => follows_ite (follows_terminate hK hreset hQ _)
    (follows_retryLoop hK hreset hQ htick _ childId)

theorem follows_reactiveLoop (early exhausted : NodeStatus) (l : List ℕ) :
    Follows K Q (reactiveLoop P env tick id early exhausted l)
      (reactiveLoop P env tick' id early exhausted l) := by
  induction l with
  | nil => exact follows_terminate hK hreset hQ _
  | cons child l ih =>
    apply follows_ite follows_guardFault
    apply follows_onOk (htick child)
    intro status
    apply follows_ite (follows_terminate hK hreset hQ _)
    apply follows_ite _ ih
    apply follows_bind (keeps_resetAll hreset l)
    intro _
    exact follows_bind (keeps_setCursor hK child) fun _ => follows_finishWith hK hQ _

theorem follows_memoryLoop (early exhausted : NodeStatus) (l : List ℕ) :
    Follows K Q (memoryLoop P env tick id early exhausted l)
      (memoryLoop P env tick' id early exhausted l) := by
  induction l with
  | nil => exact follows_terminate hK hreset hQ _
  | cons child l ih =>
    apply follows_ite follows_guardFault
    apply follows_onOk (htick child)
    intro status
    apply follows_ite (follows_terminate hK hreset hQ _)
    apply follows_ite
    · exact follows_bind (keeps_setCursor hK child) fun _ => follows_finishWith hK hQ _
    · exact follows_bind (keeps_setCursor hK _) fun _ => ih

end Ticks

end Kinds

section Parallel
variable {P : Plan} {env : Env σ} {K L : World σ → Prop} {Q : NodeStatus → World σ → Prop}
  {tick tick' : ℕ → Run σ TickResult} {id : ℕ} {aggregate : NodeStatus}

theorem follows_weaken {m m' : Run σ TickResult} (hKL : ∀ w, K w → L w) (h : Follows L Q m m') :
    Follows K Q m m' :=
  fun w hw => h w (hKL w hw)

section Finish
variable (hL : Steady env id L)
  (hrestart : aggregate = .running → ∀ child, IsChild P id child →
    Keeps L (resetTreeState P env child))
include hL hrestart

theorem follows_restartBranch {child : ℕ} (hchild : IsChild P id child) (terminal : Bool)
    {next : Run σ TickResult} (hnext : Follows L Q next next) :
    Follows L Q (restartBranch P env aggregate child terminal next)
      (restartBranch P env aggregate child terminal next) := by
  unfold restartBranch
  by_cases hc : aggregate = .running ∧ terminal = true
  · rw [if_pos hc]
    apply follows_bind (keeps_mark hL child false)
    intro _
    exact follows_bind (hrestart hc.1 child hchild) fun _ => hnext
  · rw [if_neg hc]
    exact hnext

theorem follows_parallelFinishLoop
    (hend : Follows L Q (if aggregate = .running then finishWith id .running
      else terminate P env id aggregate) (if aggregate = .running then finishWith id .running
      else terminate P env id aggregate)) (index : ℕ) (l : List ℕ)
    (hl : ∀ child ∈ l, IsChild P id child) :
    Follows L Q (parallelFinishLoop P env id aggregate index l)
      (parallelFinishLoop P env id aggregate index l) := by
  induction l generalizing index with
  | nil => exact hend
  | cons child l ih =>
    have hrest := ih (index + 1) fun c hc => hl c (by simp [hc])
    have hbranch : ∀ terminal, Follows L Q
        (restartBranch P env aggregate child terminal
          (parallelFinishLoop P env id aggregate (index + 1) l))
        (restartBranch P env aggregate child terminal
          (parallelFinishLoop P env id aggregate (index + 1) l)) := fun terminal =>
      follows_restartBranch hL hrestart (hl child (by simp)) terminal hrest
    apply follows_ite follows_guardFault
    apply follows_readBranch
    intro b
    apply follows_ite
    · apply follows_callElse (fun w hw => hL.ask _ w hw)
      intro _
      exact follows_bind (keeps_mark hL child false) fun _ => hbranch _
    · exact hbranch _

end Finish

variable (hK : Steady env id K) (hreset : ∀ j, Keeps K (resetNodeState P env j))
  (hQ : ∀ s w, K w → Q s w) (hL : Steady env id L) (hKL : ∀ w, K w → L w)
  (hrestart : (P.node id).kind = .parallel →
    ∀ child, IsChild P id child → Keeps L (resetTreeState P env child))
  (hrunning : ∀ w, L w → Q .running w) (hkids : ∀ child ∈ children P id, IsChild P id child)
include hK hreset hQ hL hKL hrestart hrunning hkids

theorem follows_parallelJoin (hkind : (P.node id).kind = .parallel) (anyFailure anyRunning : Bool) :
    Follows K Q (parallelJoin P env id anyFailure anyRunning)
      (parallelJoin P env id anyFailure anyRunning) := by
  have hfinish : ∀ aggregate, Follows K Q (parallelFinishLoop P env id aggregate 0 (children P id))
      (parallelFinishLoop P env id aggregate 0 (children P id)) := by
    intro aggregate
    by_cases ha : aggregate = .running
    · apply follows_weaken hKL
      apply follows_parallelFinishLoop hL (fun _ => hrestart hkind) _ 0 _ hkids
      rw [if_pos ha]
      exact follows_bind (keeps_modify hL _) fun _ => follows_ok hrunning
    · apply follows_parallelFinishLoop hK (fun h => absurd h ha) _ 0 _ hkids
      rw [if_neg ha]
      exact follows_terminate hK hreset hQ _
  unfold parallelJoin
  apply follows_ite
  · exact follows_callElse (fun w hw => hK.ask _ w hw) fun _ => hfinish _
  · exact hfinish _

variable (htick : ∀ c, Follows K (fun _ => K) (tick c) (tick' c))
include htick

omit hreset hQ hL hKL hrestart hrunning hkids in
theorem follows_stepBranch (index child : ℕ) {next next' : NodeStatus → Run σ TickResult}
    (hnext : ∀ s, Follows K Q (next s) (next' s)) :
    Follows K Q (stepBranch P env tick id index child next)
      (stepBranch P env tick' id index child next') := by
  apply follows_onOkElse (htick child)
  intro status
  apply follows_readBranch
  intro b
  apply follows_ite _ (hnext status)
  exact follows_callElse (fun w hw => hK.ask _ w hw) fun _ => hnext status

theorem follows_parallelTickLoop (hkind : (P.node id).kind = .parallel) (index : ℕ) (l : List ℕ)
    (anyFailure anyRunning : Bool) :
    Follows K Q (parallelTickLoop P env tick id index l anyFailure anyRunning)
      (parallelTickLoop P env tick' id index l anyFailure anyRunning) := by
  induction l generalizing index anyFailure anyRunning with
  | nil => exact follows_parallelJoin hK hreset hQ hL hKL hrestart hrunning hkids hkind _ _
  | cons child l ih =>
    apply follows_ite follows_guardFault
    apply follows_readBranch
    intro b
    apply follows_ite (ih _ _ _)
    apply follows_ite
    · apply follows_bind (keeps_mark hK child true)
      intro _
      apply follows_callElse (fun w hw => hK.ask _ w hw)
      exact fun _ => follows_stepBranch hK htick index child fun s => ih _ _ _
    · exact follows_stepBranch hK htick index child fun s => ih _ _ _

theorem follows_tickKind : Follows K Q (tickKind P env tick id) (tickKind P env tick' id) := by
  apply follows_get
  intro n
  cases hkind : (P.node id).kind with
  | leaf => exact follows_tickLeaf hK hQ
  | sequence => exact follows_memoryLoop hK hreset hQ htick _ _ _
  | fallback => exact follows_memoryLoop hK hreset hQ htick _ _ _
  | inverter => exact follows_tickSingleChild hK hQ htick _
  | forceSuccess => exact follows_tickSingleChild hK hQ htick _
  | forceFailure => exact follows_tickSingleChild hK hQ htick _
  | retry => exact follows_tickRetry hK hreset hQ htick _
  | «repeat» => exact follows_tickRepeat hK hreset hQ htick _
  | timeout => exact follows_tickTimeout hK hreset hQ htick _
  | delay => exact follows_tickDelay hK hreset hQ htick _
  | parallel =>
    exact follows_ite follows_guardFault (follows_parallelTickLoop hK hreset hQ hL hKL hrestart
      hrunning hkids htick hkind _ _ _ _)
  | reactiveSequence =>
    exact follows_ite follows_guardFault (follows_reactiveLoop hK hreset hQ htick _ _ _)
  | runOnce => exact follows_tickRunOnce hK hQ htick _
  | ifThenElse => exact follows_tickGuarded hK hreset hQ htick
  | precondition => exact follows_tickGuarded hK hreset hQ htick
  | whileDo => exact follows_tickWhileDo hK hreset hQ htick
  | switch => exact follows_tickSwitch hK hreset hQ htick
  | keepRunningUntilFailure => exact follows_tickKeepRunning hK hreset hQ htick _
  | pipelineSequence => exact follows_pipelineLoop hK hreset hQ htick _
  | entryUpdated => exact follows_tickEntryUpdated hK hreset hQ htick
  | consumeQueue => exact follows_tickConsumeQueue hK hreset hQ htick
  | reactiveFallback =>
    exact follows_ite follows_guardFault (follows_reactiveLoop hK hreset hQ htick _ _ _)

theorem follows_tickNodeImpl :
    Follows K Q (tickNodeImpl P env tick id) (tickNodeImpl P env tick' id) := by
  have hkind := follows_bind (keeps_modify hK fun n => { n with evaluated := false }) fun _ =>
    follows_tickKind hK hreset hQ hL hKL hrestart hrunning hkids htick
  unfold tickNodeImpl resolveParameters
  cases (P.node id).parameterResolver with
  | none => exact hkind
  | some resolver =>
    apply follows_get
    intro n
    apply follows_callElse (fun w hw => hK.ask _ w hw)
    intro a
    apply follows_ite (follows_error _)
    exact follows_bind (keeps_modify hK _) fun _ => hkind

end Parallel

section Tick
variable {P : Plan} {env : Env σ} {K L : World σ → Prop} {Q : NodeStatus → World σ → Prop}
  {id levels : ℕ}

open Classical in
noncomputable def soundTick (P : Plan) (id : ℕ) (tick : ℕ → Run σ TickResult) (c : ℕ) :
    Run σ TickResult := fun w =>
  if IsChild P id c ∧ Typed P w.nodes ∧ Good P w.nodes c then tick c w else (guardFault, w)

theorem tickNodeImpl_keeps (h : ValidPlan P) (hv : nodeIdValid P id = true)
    (hlevels : P.maxDepth < levels + 1 + (P.node id).depth) (hK : Steady env id K)
    (hreset : ∀ j, Keeps K (resetNodeState P env j)) (hQ : ∀ s w, K w → Q s w)
    (hL : Steady env id L) (hKL : ∀ w, K w → L w)
    (hrestart : (P.node id).kind = .parallel →
      ∀ child, IsChild P id child → Keeps L (resetTreeState P env child))
    (hrunning : ∀ w, L w → Q .running w)
    (htick : ∀ c, IsChild P id c → ∀ w, Typed P w.nodes → Good P w.nodes c → K w →
      ∀ s w', tickNode P env levels c w = (.ok s, w') → K w')
    {w w' : World σ} {status : NodeStatus} (htyped : Typed P w.nodes) (hgood : Good P w.nodes id)
    (hw : K w) (hr : tickNodeImpl P env (tickNode P env levels) id w = (.ok status, w')) :
    Q status w' := by
  have hsound : ∀ c, Follows K (fun _ => K) (tickNode P env levels c)
      (soundTick P id (tickNode P env levels) c) := by
    intro c w hw
    by_cases hc : IsChild P id c ∧ Typed P w.nodes ∧ Good P w.nodes c
    · right
      unfold soundTick
      rw [if_pos hc]
      exact ⟨rfl, htick c hc.1 w hc.2.1 hc.2.2 hw⟩
    · left
      unfold soundTick
      rw [if_neg hc]
  have hcontext : TickContext P env (soundTick P id (tickNode P env levels)) id := by
    refine ⟨h.top, hv, h.arity id hv, h.callbacks id hv, ?_⟩
    intro c hc w ht hg
    have hdepth := h.top.depth_child id c hc
    unfold soundTick
    rw [if_pos ⟨hc, ht, hg⟩]
    exact tickNode_sound env h levels hc.1 (by omega) w ht hg
  have hkids : ∀ child ∈ children P id, IsChild P id child := fun child hchild =>
    (mem_children h.top hv).mp hchild
  have hpost := meets_tickNodeImpl hcontext (hgood id (below_refl id)) w (at_start hgood htyped)
  rcases follows_tickNodeImpl hK hreset hQ hL hKL hrestart hrunning hkids hsound w hw with
    hg | ⟨-, hkept⟩
  · exact absurd (hpost.error _ hg).1 (by decide)
  · exact hkept status w' hr

end Tick

end SaltsUtils.BehaviorTree
