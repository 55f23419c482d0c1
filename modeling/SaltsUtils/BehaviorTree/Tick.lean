import SaltsUtils.BehaviorTree.Node

/-!
# Resetting and ticking a node

The two recursive functions of `behavior_tree.c`.
-/

set_option autoImplicit false

namespace SaltsUtils.BehaviorTree

variable {σ : Type}

section Reset

def clearNode (plan : NodePlan) (clearPersistentState : Bool) (n : NodeState) : NodeState :=
  let preserveRunOnce := !clearPersistentState && plan.kind = .runOnce && n.runOnceComplete
  let preserveEntryUpdated := !clearPersistentState && plan.kind = .entryUpdated && n.observed
  { n with
    cursor := 0
    counter := 0
    deadlineNs := 0
    timerStartedNs := 0
    timerStarted := false
    delayElapsed := false
    evaluated := false
    runOnceComplete := preserveRunOnce
    observed := preserveEntryUpdated
    prepared := false
    lastStatus := if preserveRunOnce || preserveEntryUpdated then n.lastStatus else .failure }

/-- A callback without a result that may be absent. -/
def notify (env : Env σ) (present : Bool) (q : Query) : Run σ Unit :=
  if present then do
    let _ ← ask env q
    pure ()
  else pure ()

def haltLeaf (P : Plan) (env : Env σ) (id : ℕ) : Run σ Unit := do
  let n ← getNode id
  if (P.node id).kind = .leaf ∧ n.running = true then do
    modifyNode id (fun n => { n with running := false })
    notify env (P.node id).halt (.halt id)
  else pure ()

def resetBranch (P : Plan) (env : Env σ) (reset : ℕ → Run σ Unit) (id index child : ℕ) :
    Run σ Unit := do
  let c ← getNode child
  if (P.node id).kind = .parallel ∧ c.parallelBranchPrepared = true then do
    modifyNode child (fun n => { n with parallelBranchPrepared := false })
    reset child
    notify env (P.node id).parallelAbort (.parallelAbort id index)
  else reset child

def resetChildren (P : Plan) (env : Env σ) (reset : ℕ → Run σ Unit) (id : ℕ) :
    ℕ → List ℕ → Run σ Unit
  | _, [] => pure ()
  | index, child::rest => do
    resetBranch P env reset id index child
    resetChildren P env reset id (index+1) rest

def abortContext (P : Plan) (env : Env σ) (id : ℕ) (n : NodeState) : Run σ Unit :=
  if (P.node id).kind = .pipelineSequence ∧ n.prepared = true then
    notify env (P.node id).pipelineAbort (.pipelineAbort id n.counter)
  else if (P.node id).kind = .consumeQueue ∧ n.prepared = true then
    notify env (P.node id).queueAbort (.queueAbort id)
  else pure ()

def resetNodeStateImpl (P : Plan) (env : Env σ) : ℕ → ℕ → Bool → Run σ Unit
  | 0, _, _ => pure ()
  | levels+1, id, clearPersistentState =>
    if nodeIdValid P id then do
      let n ← getNode id
      haltLeaf P env id
      modifyNode id (clearNode (P.node id) clearPersistentState)
      resetChildren P env
        (fun child => resetNodeStateImpl P env levels child clearPersistentState)
        id 0 (children P id)
      abortContext P env id n
    else pure ()

def resetNodeState (P : Plan) (env : Env σ) (id : ℕ) : Run σ Unit :=
  resetNodeStateImpl P env P.nodeCount id false

def resetTreeState (P : Plan) (env : Env σ) (id : ℕ) : Run σ Unit :=
  resetNodeStateImpl P env P.nodeCount id true

end Reset

section Kinds
variable (P : Plan) (env : Env σ) (tick : ℕ → Run σ TickResult) (id : ℕ)

def setCursor (id child : ℕ) : Run σ Unit :=
  modifyNode id (fun n => { n with cursor := child })

def finishWith (id : ℕ) (status : NodeStatus) : Run σ TickResult := do
  modifyNode id (fun n => { n with lastStatus := status })
  pure (.ok status)

def terminate (status : NodeStatus) : Run σ TickResult := do
  resetNodeState P env id
  finishWith id status

def displaceBranch (selected : ℕ) : Run σ Unit := do
  let n ← getNode id
  if n.cursor ≠ 0 ∧ n.cursor ≠ selected then do
    resetNodeState P env n.cursor
    setCursor id 0
  else pure ()

def UINT64_MAX : UInt64 := 18446744073709551615

/-- `start + duration`, saturating at `UINT64_MAX`. -/
def deadlineAfter (start duration : UInt64) : UInt64 :=
  if duration > UINT64_MAX-start then UINT64_MAX else start+duration

/-- The values of the resolver that the mask selects, and the deadline they move. -/
def applyParameters (plan : NodePlan) (a : Answer) (n : NodeState) : NodeState :=
  let n := if maskLimit plan.dynamicParameterMask then { n with limit := a.limit } else n
  if maskDuration plan.dynamicParameterMask then
    { n with
      durationNs := a.durationNs
      deadlineNs := if n.timerStarted then deadlineAfter n.timerStartedNs a.durationNs
        else n.deadlineNs }
  else n

def resolveParameters (k : Run σ TickResult) : Run σ TickResult :=
  match (P.node id).parameterResolver with
  | none => k
  | some resolver => do
    let n ← getNode id
    callElse env (.resolver id resolver (P.node id).parameterUser n.limit n.durationNs)
      (pure ()) fun a =>
        if maskLimit (P.node id).dynamicParameterMask ∧ P.maxControlIterations < a.limit then
          pure (.error ⟨.einval, .callback⟩)
        else do
          modifyNode id (applyParameters (P.node id) a)
          k

def tickLeaf : Run σ TickResult := do
  let a ← ask env (.handler id)
  match statusOf a.status with
  | none => pure (.error ⟨.einval, .callback⟩)
  | some status => do
    modifyNode id (fun n => { n with running := decide (status = .running), lastStatus := status })
    pure (.ok status)

/-- The prepared child of a pipeline is ticked and completed; `next` is the next
round of the loop. -/
def pipelineChild (next : Run σ TickResult) (current counter : ℕ) : Run σ TickResult :=
  onOkElse (tick current) (resetNodeState P env id) fun childStatus =>
    if childStatus = .running then do
      setCursor id current
      finishWith id .running
    else
      callElse env (.pipelineComplete id counter childStatus) (resetNodeState P env id)
        fun _ => do
          modifyNode id (fun n => { n with cursor := 0, prepared := false })
          if childStatus = .failure then terminate P env id .failure
          else do
            modifyNode id (fun n => { n with counter := n.counter+1 })
            next

def pipelineLoop : ℕ → Run σ TickResult
  | 0 => pure guardFault
  | rounds+1 => do
    let n ← getNode id
    let scan := (children P id).getD n.counter 0
    let current := if n.cursor ≠ 0 then n.cursor else scan
    if current = 0 then terminate P env id .success
    else if n.prepared then pipelineChild P env tick id (pipelineLoop rounds) current n.counter
    else if !(P.node id).pipelinePrepare || !(P.node id).pipelineComplete then pure guardFault
    else do
      modifyNode id (fun n => { n with prepared := true })
      callElse env (.pipelinePrepare id n.counter) (resetNodeState P env id) fun _ =>
        pipelineChild P env tick id (pipelineLoop rounds) current n.counter

def restartEntry (changed : Bool) : Run σ Unit := do
  let n ← getNode id
  if changed = true ∧ n.cursor ≠ 0 then do
    resetNodeState P env n.cursor
    setCursor id 0
  else if changed = true then resetNodeState P env (P.node id).firstChild
  else pure ()

def tickEntryUpdated : Run σ TickResult := do
  let child := (P.node id).firstChild
  if !(P.node id).entryChanged || child = 0 then pure guardFault
  else
    callElse env (.entryChanged id) (resetNodeState P env id) fun a => do
      let n ← getNode id
      let changed := a.flag || !n.observed
      if changed = false ∧ n.cursor = 0 ∧ n.observed = true ∧ n.lastStatus ≠ .running then
        pure (.ok n.lastStatus)
      else do
        restartEntry P env id changed
        modifyNode id (fun n => { n with observed := true })
        onOkElse (tick child) (resetNodeState P env id) fun childStatus => do
          modifyNode id (fun n => { n with
            lastStatus := childStatus
            cursor := if childStatus = .running then child else 0 })
          pure (.ok childStatus)

def consumeItem : Run σ TickResult :=
  onOkElse (tick (P.node id).firstChild) (resetNodeState P env id) fun childStatus =>
    match childStatus with
    | .running => do
      setCursor id (P.node id).firstChild
      finishWith id .running
    | .failure => terminate P env id .failure
    | .success =>
      callElse env (.queueFinish id) (resetNodeState P env id) fun a => do
        modifyNode id (fun n => { n with prepared := false })
        if a.flag then do
          resetNodeState P env (P.node id).firstChild
          setCursor id 0
          finishWith id .running
        else terminate P env id .success

def tickConsumeQueue : Run σ TickResult := do
  if !(P.node id).queueBegin || !(P.node id).queueFinish || (P.node id).firstChild = 0 then
    pure guardFault
  else do
    let n ← getNode id
    if n.prepared then consumeItem P env tick id
    else do
      modifyNode id (fun n => { n with prepared := true })
      callElse env (.queueBegin id) (resetNodeState P env id) fun a =>
        if a.flag then consumeItem P env tick id
        else do
          modifyNode id (fun n => { n with prepared := false })
          terminate P env id .failure

def conditionStatus : Run σ TickResult :=
  if (P.node id).condition then
    callElse env (.condition id) (pure ()) fun a =>
      match statusOf a.status with
      | none => pure (.error ⟨.einval, .callback⟩)
      | some status => pure (.ok status)
  else tick (P.node id).firstChild

def suspendBranch : Run σ TickResult := do
  displaceBranch P env id 0
  finishWith id .running

def tickBranch (selected : ℕ) : Run σ TickResult := do
  displaceBranch P env id selected
  onOk (tick selected) fun status => do
    modifyNode id (fun n => { n with lastStatus := status })
    if status = .running then do
      setCursor id selected
      pure (.ok status)
    else terminate P env id status

def tickGuarded : Run σ TickResult :=
  let first := (P.node id).firstChild
  let inTree := !(P.node id).condition
  if inTree && (!nodeIdValid P first || (P.node first).nextSibling = 0 ||
      !nodeIdValid P (P.node first).nextSibling) then pure guardFault
  else
    let thenNode := if inTree then (P.node first).nextSibling else first
    onOk (conditionStatus P env tick id) fun condition =>
      if condition = .running then suspendBranch P env id
      else if !inTree && (P.node id).kind = .ifThenElse && !nodeIdValid P thenNode then
        pure guardFault
      else if (P.node id).kind = .ifThenElse then
        let selected := if condition = .success then thenNode else (P.node thenNode).nextSibling
        if selected = 0 then terminate P env id .failure
        else tickBranch P env tick id selected
      else if condition = .failure then terminate P env id .failure
      else tickBranch P env tick id thenNode

variable (childId : ℕ)

def tickKeepRunning : Run σ TickResult := do
  let n ← getNode id
  if childId = 0 then pure guardFault
  else if n.limit = 0 ∨ n.limit ≤ n.counter then terminate P env id .failure
  else
    onOk (tick childId) fun childStatus =>
      match childStatus with
      | .running => finishWith id .running
      | .failure => terminate P env id .success
      | .success => do
        modifyNode id (fun n => { n with counter := n.counter+1 })
        resetNodeState P env childId
        let n ← getNode id
        if n.limit ≤ n.counter then terminate P env id .failure
        else finishWith id .running

def tickWhileDo : Run σ TickResult :=
  let first := (P.node id).firstChild
  let inTree := !(P.node id).condition
  if inTree && (!nodeIdValid P first || (P.node first).nextSibling = 0) then pure guardFault
  else
    let body := if inTree then (P.node first).nextSibling else first
    if body = 0 then pure guardFault
    else do
      let n ← getNode id
      if n.limit ≤ n.counter then terminate P env id .success
      else
        onOk (conditionStatus P env tick id) fun condition =>
          match condition with
          | .running => suspendBranch P env id
          | .failure => terminate P env id .success
          | .success =>
            onOk (tick body) fun childStatus =>
              if childStatus = .running then do
                setCursor id body
                finishWith id .running
              else do
                setCursor id 0
                if childStatus = .failure then terminate P env id .failure
                else do
                  modifyNode id (fun n => { n with counter := n.counter+1 })
                  resetNodeState P env body
                  let n ← getNode id
                  if n.limit ≤ n.counter then terminate P env id .success
                  else finishWith id .running

def tickSwitch : Run σ TickResult :=
  if !(P.node id).selector then pure guardFault
  else
    callElse env (.selector id) (pure ()) fun a =>
      match (children P id)[a.index]? with
      | none => terminate P env id .failure
      | some selected => do
        displaceBranch P env id selected
        onOk (tick selected) fun childStatus =>
          if childStatus = .running then do
            setCursor id selected
            finishWith id childStatus
          else terminate P env id childStatus

def tickRunOnce : Run σ TickResult := do
  let n ← getNode id
  if n.runOnceComplete then pure (.ok n.lastStatus)
  else if childId = 0 then pure guardFault
  else
    onOk (tick childId) fun childStatus => do
      modifyNode id (fun n => { n with
        lastStatus := childStatus
        runOnceComplete := n.runOnceComplete || decide (childStatus ≠ .running) })
      pure (.ok childStatus)

def startTimer (now : UInt64) (n : NodeState) : NodeState :=
  if n.timerStarted then n
  else { n with
    timerStartedNs := now
    deadlineNs := deadlineAfter now n.durationNs
    timerStarted := true }

def tickTimeout : Run σ TickResult :=
  if childId = 0 then pure guardFault
  else do
    let a ← ask env (.hrtime id)
    modifyNode id (startTimer a.time)
    let n ← getNode id
    if n.deadlineNs ≤ a.time then terminate P env id .failure
    else
      onOk (tick childId) fun childStatus => do
        let b ← ask env (.hrtime id)
        let n ← getNode id
        if n.deadlineNs ≤ b.time then terminate P env id .failure
        else if childStatus = .running then finishWith id .running
        else terminate P env id childStatus

def delayedTick : Run σ TickResult :=
  onOk (tick childId) fun childStatus =>
    if childStatus = .running then finishWith id .running
    else terminate P env id childStatus

def tickDelay : Run σ TickResult :=
  if childId = 0 then pure guardFault
  else do
    let n ← getNode id
    if n.delayElapsed then delayedTick P env tick id childId
    else do
      let a ← ask env (.hrtime id)
      modifyNode id (startTimer a.time)
      let n ← getNode id
      if a.time < n.deadlineNs then finishWith id .running
      else do
        modifyNode id (fun n => { n with
          delayElapsed := true, timerStarted := false, deadlineNs := 0, timerStartedNs := 0 })
        delayedTick P env tick id childId

/-- `while (node->counter < node->limit)`; each further round has a larger counter. -/
def repeatLoop : ℕ → ℕ → Run σ TickResult
  | 0, _ => pure guardFault
  | rounds+1, childId => do
    let n ← getNode id
    if n.counter < n.limit then
      if childId = 0 then pure guardFault
      else
        onOk (tick childId) fun childStatus =>
          if childStatus = .running then finishWith id .running
          else do
            modifyNode id (fun n => { n with counter := n.counter+1 })
            resetNodeState P env childId
            repeatLoop rounds (P.node id).firstChild
    else terminate P env id .success

def tickRepeat : Run σ TickResult := do
  let n ← getNode id
  if n.limit = 0 then terminate P env id .success
  else repeatLoop P env tick id (n.limit-n.counter+1) childId

def tickSingleChild : Run σ TickResult :=
  if childId = 0 then pure guardFault
  else
    onOk (tick childId) fun childStatus =>
      finishWith id (match (P.node id).kind, childStatus with
        | .inverter, .success => .failure
        | .inverter, .failure => .success
        | .forceSuccess, .failure => .success
        | .forceFailure, .success => .failure
        | _, s => s)

def retryLoop : ℕ → ℕ → Run σ TickResult
  | 0, _ => pure guardFault
  | rounds+1, childId => do
    let n ← getNode id
    if n.counter < n.limit then
      if childId = 0 then pure guardFault
      else
        onOk (tick childId) fun childStatus =>
          match childStatus with
          | .running => finishWith id .running
          | .success => terminate P env id .success
          | .failure => do
            modifyNode id (fun n => { n with counter := n.counter+1 })
            resetNodeState P env childId
            let n ← getNode id
            if n.limit ≤ n.counter then terminate P env id .failure
            else retryLoop rounds (P.node id).firstChild
    else tickSingleChild P tick id childId

def tickRetry : Run σ TickResult := do
  let n ← getNode id
  if n.limit = 0 ∨ n.limit ≤ n.counter then terminate P env id .failure
  else retryLoop P env tick id (n.limit-n.counter+1) childId

/-- What a Parallel node reads of a child. -/
structure Branch where
  terminal : Bool
  prepared : Bool
  lastStatus : NodeStatus

def readBranch (child : ℕ) : Run σ Branch := fun w =>
  let n := w.nodes child
  (⟨n.evaluated && decide (n.lastStatus ≠ .running), n.parallelBranchPrepared, n.lastStatus⟩, w)

/-- A terminal branch starts a new activation when the node stays RUNNING. -/
def restartBranch (aggregate : NodeStatus) (child : ℕ) (terminal : Bool)
    (next : Run σ TickResult) : Run σ TickResult :=
  if aggregate = .running ∧ terminal = true then do
    modifyNode child (fun n => { n with parallelBranchPrepared := false })
    resetTreeState P env child
    next
  else next

/-- The second child loop of Parallel: terminal branches are finished, and
restarted when another branch keeps the node RUNNING. -/
def parallelFinishLoop (aggregate : NodeStatus) : ℕ → List ℕ → Run σ TickResult
  | _, [] =>
    if aggregate = .running then finishWith id .running else terminate P env id aggregate
  | index, child::rest =>
    if !nodeIdValid P child then pure guardFault
    else do
      let c ← readBranch child
      if (P.node id).parallelFinish = true ∧ c.prepared = true ∧ c.terminal = true then
        callElse env (.parallelFinish id index c.lastStatus) (resetNodeState P env id) fun _ => do
          modifyNode child (fun n => { n with parallelBranchPrepared := false })
          restartBranch P env aggregate child c.terminal
            (parallelFinishLoop aggregate (index+1) rest)
      else
        restartBranch P env aggregate child c.terminal
          (parallelFinishLoop aggregate (index+1) rest)

def parallelJoin (anyFailure anyRunning : Bool) : Run σ TickResult :=
  let aggregate := if anyRunning then .running else if anyFailure then .failure else .success
  if (P.node id).parallelJoin then
    callElse env (.parallelJoin id aggregate) (resetNodeState P env id) fun _ =>
      parallelFinishLoop P env id aggregate 0 (children P id)
  else parallelFinishLoop P env id aggregate 0 (children P id)

def stepBranch (index child : ℕ) (next : NodeStatus → Run σ TickResult) : Run σ TickResult :=
  onOkElse (tick child) (resetNodeState P env id) fun s => do
    let c ← readBranch child
    if (P.node id).parallelStep = true ∧ c.prepared = true then
      callElse env (.parallelStep id index s) (resetNodeState P env id) fun _ => next s
    else next s

def parallelTickLoop : ℕ → List ℕ → Bool → Bool → Run σ TickResult
  | _, [], anyFailure, anyRunning => parallelJoin P env id anyFailure anyRunning
  | index, child::rest, anyFailure, anyRunning =>
    if !nodeIdValid P child then pure guardFault
    else do
      let next := fun (s : NodeStatus) => parallelTickLoop (index+1) rest
        (anyFailure || decide (s = .failure)) (anyRunning || decide (s = .running))
      let c ← readBranch child
      if c.terminal then next c.lastStatus
      else if (P.node id).parallelEnter then do
        -- a marker that is already set stays set
        modifyNode child (fun n => { n with parallelBranchPrepared := true })
        callElse env (.parallelEnter id index (!c.prepared)) (resetNodeState P env id) fun _ =>
          stepBranch P env tick id index child next
      else stepBranch P env tick id index child next

def tickParallel : Run σ TickResult :=
  if (P.node id).firstChild = 0 then pure guardFault
  else parallelTickLoop P env tick id 0 (children P id) false false

def resetAll : List ℕ → Run σ Unit
  | [] => pure ()
  | child::rest => do
    resetNodeState P env child
    resetAll rest

def reactiveLoop (early exhausted : NodeStatus) : List ℕ → Run σ TickResult
  | [] => terminate P env id exhausted
  | child::rest =>
    if !nodeIdValid P child then pure guardFault
    else
      onOk (tick child) fun childStatus =>
        if childStatus = early then terminate P env id early
        else if childStatus = .running then do
          resetAll P env rest
          setCursor id child
          finishWith id .running
        else reactiveLoop early exhausted rest

def tickReactiveFallback : Run σ TickResult :=
  if (P.node id).firstChild = 0 then pure guardFault
  else reactiveLoop P env tick id .success .failure (children P id)

def tickReactiveSequence : Run σ TickResult :=
  if (P.node id).firstChild = 0 then pure guardFault
  else reactiveLoop P env tick id .failure .success (children P id)

/-- Sequence and Fallback differ in the status that ends them early. -/
def memoryLoop (early exhausted : NodeStatus) : List ℕ → Run σ TickResult
  | [] => terminate P env id exhausted
  | child::rest =>
    if !nodeIdValid P child then pure guardFault
    else
      onOk (tick child) fun childStatus =>
        if childStatus = early then terminate P env id early
        else if childStatus = .running then do
          setCursor id child
          finishWith id .running
        else do
          setCursor id (rest.headD 0)
          memoryLoop early exhausted rest

def tickSequence : Run σ TickResult :=
  memoryLoop P env tick id .failure .success (siblingsFrom P P.nodeCount childId)

def tickFallback : Run σ TickResult :=
  memoryLoop P env tick id .success .failure (siblingsFrom P P.nodeCount childId)

def tickKind : Run σ TickResult := do
  let n ← getNode id
  let childId := if n.cursor ≠ 0 then n.cursor else (P.node id).firstChild
  match (P.node id).kind with
  | .leaf => tickLeaf env id
  | .pipelineSequence => pipelineLoop P env tick id ((children P id).length+1)
  | .entryUpdated => tickEntryUpdated P env tick id
  | .consumeQueue => tickConsumeQueue P env tick id
  | .precondition | .ifThenElse => tickGuarded P env tick id
  | .keepRunningUntilFailure => tickKeepRunning P env tick id childId
  | .whileDo => tickWhileDo P env tick id
  | .switch => tickSwitch P env tick id
  | .runOnce => tickRunOnce tick id childId
  | .timeout => tickTimeout P env tick id childId
  | .delay => tickDelay P env tick id childId
  | .repeat => tickRepeat P env tick id childId
  | .retry => tickRetry P env tick id childId
  | .inverter | .forceSuccess | .forceFailure => tickSingleChild P tick id childId
  | .parallel => tickParallel P env tick id
  | .reactiveFallback => tickReactiveFallback P env tick id
  | .reactiveSequence => tickReactiveSequence P env tick id
  | .sequence => tickSequence P env tick id childId
  | .fallback => tickFallback P env tick id childId

def tickNodeImpl : Run σ TickResult :=
  resolveParameters P env id do
    modifyNode id (fun n => { n with evaluated := false })
    tickKind P env tick id

end Kinds

def leaveNode (id : ℕ) (r : TickResult) : Run σ TickResult :=
  match r with
  | .error e => visit id (.error e)
  | .ok status => do
    modifyNode id (fun n => { n with evaluated := true })
    visit id (.ok status)

def tickNode (P : Plan) (env : Env σ) : ℕ → ℕ → Run σ TickResult
  | 0, _ => pure guardFault
  | levels+1, id =>
    if nodeIdValid P id then do
      let r ← tickNodeImpl P env (tickNode P env levels) id
      leaveNode id r
    else pure guardFault

end SaltsUtils.BehaviorTree
