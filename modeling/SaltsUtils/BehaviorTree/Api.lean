import SaltsUtils.BehaviorTree.Tick

/-!
# The public functions of a tree

A system is a tree handle together with the environment's state and the record of every
call so far: the plan it ran under, the callback invocations it made and the returns of
`tick_node`. A handle without an implementation is one that has been destroyed.
-/

set_option autoImplicit false

namespace SaltsUtils.BehaviorTree

variable {σ : Type}

structure Impl where
  plan : Plan
  nodes : ℕ → NodeState
  busy : Bool

structure Record where
  plan : Plan
  events : List Event
  visits : List Visit

structure System (σ : Type) where
  impl : Option Impl
  env : σ
  history : List Record

section Construction

def UINT32_MAX : ℕ := 4294967295
def SALTS_BT_MAX_DEPTH : ℕ := 256
def SALTS_BT_MAX_CONTROL_ITERATIONS : ℕ := 4096

/-- A node record after `memset` and the assignments that follow it. -/
def freshPlan (kind : NodeKind) (handler : Bool) (parent : ℕ) (depth limit : ℕ) :
    NodePlan :=
  { kind := kind, handler := handler, halt := false
    parent := parent, firstChild := 0, lastChild := 0, nextSibling := 0
    depth := depth, childCount := 0
    configuredLimit := limit, configuredDurationNs := 0
    dynamicParameterMask := 0, parameterResolver := none, parameterUser := 0
    condition := false, selector := false
    pipelinePrepare := false, pipelineComplete := false, pipelineAbort := false
    entryChanged := false
    queueBegin := false, queueFinish := false, queueAbort := false
    parallelEnter := false, parallelStep := false, parallelJoin := false
    parallelFinish := false, parallelAbort := false }

def freshState (limit : ℕ) (durationNs : UInt64) : NodeState :=
  { lastStatus := .failure, cursor := 0, limit := limit, counter := 0
    durationNs := durationNs, deadlineNs := 0, timerStartedNs := 0
    timerStarted := false, delayElapsed := false, evaluated := false
    runOnceComplete := false, observed := false, prepared := false
    parallelBranchPrepared := false, running := false }

structure TreeConfig where
  maxNodes : ℕ
  maxDepth : ℕ
  maxControlIterations : ℕ

def treeConfigInit : TreeConfig := ⟨128, 64, 64⟩

def configAccepted (config : TreeConfig) : Bool :=
  config.maxNodes ≠ 0 && config.maxNodes ≤ UINT32_MAX &&
  config.maxDepth ≠ 0 && config.maxDepth ≤ SALTS_BT_MAX_DEPTH &&
  config.maxControlIterations ≠ 0 &&
  config.maxControlIterations ≤ SALTS_BT_MAX_CONTROL_ITERATIONS

def emptyImpl (config : TreeConfig) : Impl :=
  { plan :=
      { maxNodes := config.maxNodes, maxDepth := config.maxDepth
        maxControlIterations := config.maxControlIterations
        nodeCount := 0, root := 0, node := fun _ => freshPlan .leaf false 0 0 0 }
    nodes := fun _ => freshState 0 0
    busy := false }

def treeInit (config : TreeConfig) (env : σ) : Except Code (System σ) :=
  if configAccepted config then .ok ⟨some (emptyImpl config), env, []⟩ else .error .einval

def limitAccepted (maxControlIterations : ℕ) (kind : NodeKind) (limit : ℕ) : Bool :=
  match kind with
  | .retry | .whileDo | .keepRunningUntilFailure => limit ≠ 0 && limit ≤ maxControlIterations
  | .repeat => limit ≤ maxControlIterations
  | _ => limit = 0

/-- The arity checks that `add_node_with_limit_internal` makes on the parent. -/
def acceptsChild (parent : NodePlan) : Bool :=
  nodeKindAcceptsChildren parent.kind &&
  !(nodeKindIsSingleChild parent.kind && 1 ≤ parent.childCount) &&
  !(parent.kind = .ifThenElse && (if parent.condition then 2 else 3) ≤ parent.childCount) &&
  !((parent.kind = .precondition || parent.kind = .whileDo) &&
    (if parent.condition then 1 else 2) ≤ parent.childCount)

def newDepth (P : Plan) (parentId : ℕ) : Option ℕ :=
  if parentId = 0 then
    if P.root ≠ 0 then none else some 1
  else if nodeIdValid P parentId && acceptsChild (P.node parentId) then
    if P.maxDepth < (P.node parentId).depth+1 then none else some ((P.node parentId).depth+1)
  else none

def Plan.modify (P : Plan) (id : ℕ) (f : NodePlan → NodePlan) : Plan :=
  { P with node := Function.update P.node id (f (P.node id)) }

def linkNode (P : Plan) (parentId : ℕ) (plan : NodePlan) : Option Plan :=
  let id := P.nodeCount+1
  let P := { P with nodeCount := id, node := Function.update P.node id plan }
  if parentId = 0 then some { P with root := id }
  else if (P.node parentId).firstChild = 0 then
    some (P.modify parentId (fun p =>
      { p with firstChild := id, lastChild := id, childCount := p.childCount+1 }))
  else if nodeIdValid P (P.node parentId).lastChild then
    some ((P.modify (P.node parentId).lastChild (fun p => { p with nextSibling := id })).modify
      parentId (fun p => { p with lastChild := id, childCount := p.childCount+1 }))
  else none

variable (t : Impl)

variable (parentId : ℕ)

def addNodeWithLimitInternal (kind : NodeKind) (handler : Bool) (limit : ℕ)
    (outNodeId allowTypedConstructor : Bool) : Except Code (ℕ × Impl) :=
  if !outNodeId then .error .einval
  else if t.busy then .error .ebusy
  else if !allowTypedConstructor && nodeKindRequiresTypedConstructor kind then .error .einval
  else if handler ≠ decide (kind = .leaf) then .error .einval
  else if !limitAccepted t.plan.maxControlIterations kind limit then .error .einval
  else
    match newDepth t.plan parentId with
    | none => .error .einval
    | some depth =>
      if t.plan.maxNodes ≤ t.plan.nodeCount then .error .enobufs
      else
        match linkNode t.plan parentId (freshPlan kind handler parentId depth limit) with
        | none => .error .einval
        | some P =>
          .ok (t.plan.nodeCount+1,
            { t with
              plan := P
              nodes := Function.update t.nodes (t.plan.nodeCount+1) (freshState limit 0) })

/-- A typed constructor: its own argument checks, the shared function, then the
assignments to the new node. -/
def addTyped (accepted : Bool) (r : Except Code (ℕ × Impl))
    (configure : NodePlan → NodePlan) (initial : NodeState → NodeState) :
    Except Code (ℕ × Impl) :=
  if !accepted then .error .einval
  else
    match r with
    | .error e => .error e
    | .ok (id, t) =>
      .ok (id, { t with
        plan := t.plan.modify id configure
        nodes := Function.update t.nodes id (initial (t.nodes id)) })

def addNodeWithLimit (kind : NodeKind) (handler : Bool) (limit : ℕ) (outNodeId : Bool) :
    Except Code (ℕ × Impl) :=
  addNodeWithLimitInternal t parentId kind handler limit outNodeId false

def addNode (kind : NodeKind) (handler outNodeId : Bool) : Except Code (ℕ × Impl) :=
  addNodeWithLimit t parentId kind handler 0 outNodeId

def addParallelNode (enter step join finish abort outNodeId : Bool) : Except Code (ℕ × Impl) :=
  addTyped (enter && step && join && finish && outNodeId)
    (addNodeWithLimitInternal t parentId .parallel false 0 outNodeId true)
    (fun p => { p with
      parallelEnter := enter, parallelStep := step, parallelJoin := join
      parallelFinish := finish, parallelAbort := abort }) id

def addPipelineNode (prepare complete abort outNodeId : Bool) : Except Code (ℕ × Impl) :=
  addTyped (prepare && complete && outNodeId)
    (addNodeWithLimitInternal t parentId .pipelineSequence false 0 outNodeId true)
    (fun p => { p with
      pipelinePrepare := prepare, pipelineComplete := complete, pipelineAbort := abort }) id

def addEntryUpdatedNode (changed outNodeId : Bool) : Except Code (ℕ × Impl) :=
  addTyped (changed && outNodeId)
    (addNodeWithLimitInternal t parentId .entryUpdated false 0 outNodeId true)
    (fun p => { p with entryChanged := changed }) id

def addConsumeQueueNode (begin finish abort outNodeId : Bool) : Except Code (ℕ × Impl) :=
  addTyped (begin && finish && outNodeId)
    (addNodeWithLimitInternal t parentId .consumeQueue false 0 outNodeId true)
    (fun p => { p with queueBegin := begin, queueFinish := finish, queueAbort := abort }) id

def addConditionNode (kind : NodeKind) (condition : Bool) (limit : ℕ) (outNodeId : Bool) :
    Except Code (ℕ × Impl) :=
  addTyped (condition && outNodeId && kind ∈ [.ifThenElse, .precondition, .whileDo])
    (addNodeWithLimitInternal t parentId kind false limit outNodeId true)
    (fun p => { p with condition := condition }) id

def addSwitchNode (selector outNodeId : Bool) : Except Code (ℕ × Impl) :=
  addTyped (selector && outNodeId)
    (addNodeWithLimitInternal t parentId .switch false 0 outNodeId true)
    (fun p => { p with selector := selector }) id

def addLeaf (ops tick halt outNodeId : Bool) : Except Code (ℕ × Impl) :=
  addTyped (ops && tick && outNodeId) (addNode t parentId .leaf tick outNodeId)
    (fun p => { p with halt := halt }) id

def addTimedNode (kind : NodeKind) (durationNs : UInt64) (outNodeId : Bool) :
    Except Code (ℕ × Impl) :=
  addTyped (outNodeId && kind ∈ [.timeout, .delay]) (addNode t parentId kind false outNodeId)
    (fun p => { p with configuredDurationNs := durationNs })
    (fun n => { n with durationNs := durationNs })

end Construction

section Validation

def nodeKindHasLimit (kind : NodeKind) : Bool :=
  kind ∈ [.retry, .repeat, .whileDo, .keepRunningUntilFailure]

def nodeKindHasDuration (kind : NodeKind) : Bool := kind ∈ [.timeout, .delay]

def arityAccepted (p : NodePlan) : Bool :=
  (if p.kind = .leaf then p.handler && p.childCount = 0 else !p.handler) &&
  (!nodeKindIsSingleChild p.kind || p.childCount = 1) &&
  (p.kind ∉ [.parallel, .reactiveSequence, .reactiveFallback, .switch] || p.childCount ≠ 0) &&
  (p.kind ≠ .ifThenElse ||
    (if p.condition then p.childCount ≠ 0 && p.childCount ≤ 2
      else 2 ≤ p.childCount && p.childCount ≤ 3)) &&
  (p.kind ∉ [.precondition, .whileDo] ||
    (if p.condition then p.childCount = 1 else p.childCount = 2))

def callbacksAccepted (p : NodePlan) : Bool :=
  (p.kind ≠ .switch || p.selector) &&
  p.dynamicParameterMask ≤ 3 &&
  (!maskLimit p.dynamicParameterMask || nodeKindHasLimit p.kind) &&
  (!maskDuration p.dynamicParameterMask || nodeKindHasDuration p.kind) &&
  decide (p.dynamicParameterMask = 0) = decide (p.parameterResolver = none) &&
  p.parallelEnter = p.parallelStep && p.parallelEnter = p.parallelJoin &&
  p.parallelEnter = p.parallelFinish &&
  (p.kind = .parallel || !(p.parallelEnter || p.parallelStep || p.parallelJoin ||
    p.parallelFinish || p.parallelAbort)) &&
  (!p.parallelAbort || p.parallelEnter) &&
  (p.kind ≠ .pipelineSequence || (p.pipelinePrepare && p.pipelineComplete)) &&
  (p.kind ≠ .entryUpdated || p.entryChanged) &&
  (p.kind ≠ .consumeQueue || (p.queueBegin && p.queueFinish))

/-- The rule on the current limit: at least 1 unless a resolver sets it, and for
Repeat only bounded above. -/
def limitStateAccepted (maxControlIterations : ℕ) (p : NodePlan) (limit : ℕ) : Bool :=
  (p.kind ∉ [.retry, .whileDo, .keepRunningUntilFailure] ||
    ((limit ≠ 0 || maskLimit p.dynamicParameterMask) && limit ≤ maxControlIterations)) &&
  (p.kind ≠ .repeat || limit ≤ maxControlIterations)

def validateNode (P : Plan) (p : NodePlan) (n : NodeState) : Bool :=
  p.depth ≠ 0 && p.depth ≤ P.maxDepth && arityAccepted p && callbacksAccepted p &&
  limitStateAccepted P.maxControlIterations p n.limit

def validateImpl (t : Impl) : Code :=
  if !nodeIdValid t.plan t.plan.root then .einval
  else if (t.plan.node t.plan.root).parent ≠ 0 then .einval
  else if (List.range' 1 t.plan.nodeCount).all
      (fun i => validateNode t.plan (t.plan.node i) (t.nodes i)) then .ok
  else .einval

end Validation

section Calls

structure Outcome where
  code : Code
  status : Option NodeStatus
  nodeId : ℕ
  deriving DecidableEq

def Outcome.ofCode (code : Code) : Outcome := ⟨code, none, 0⟩

inductive Call where
  | addNodeWithLimit (parentId : ℕ) (kind : NodeKind) (handler : Bool) (limit : ℕ)
      (outNodeId : Bool)
  | addNode (parentId : ℕ) (kind : NodeKind) (handler outNodeId : Bool)
  | addParallelNode (parentId : ℕ) (enter step join finish abort outNodeId : Bool)
  | addPipelineNode (parentId : ℕ) (prepare complete abort outNodeId : Bool)
  | addEntryUpdatedNode (parentId : ℕ) (changed outNodeId : Bool)
  | addConsumeQueueNode (parentId : ℕ) (begin finish abort outNodeId : Bool)
  | addConditionNode (parentId : ℕ) (kind : NodeKind) (condition : Bool) (limit : ℕ)
      (outNodeId : Bool)
  | addSwitchNode (parentId : ℕ) (selector outNodeId : Bool)
  | addLeaf (parentId : ℕ) (ops handler halt outNodeId : Bool)
  | addTimedNode (parentId : ℕ) (kind : NodeKind) (durationNs : UInt64) (outNodeId : Bool)
  | setNodeParametersResolver (id : ℕ) (mask : ℕ) (resolver : Option ℕ) (user : ℕ)
  | tick (outStatus : Bool)
  | reset
  | cancel
  | validate
  | destroy
  deriving DecidableEq

def Call.add? (t : Impl) : Call → Option (Except Code (ℕ × Impl))
  | .addNodeWithLimit parentId kind handler limit out =>
    some (BehaviorTree.addNodeWithLimit t parentId kind handler limit out)
  | .addNode parentId kind handler out => some (BehaviorTree.addNode t parentId kind handler out)
  | .addParallelNode parentId enter step join finish abort out =>
    some (BehaviorTree.addParallelNode t parentId enter step join finish abort out)
  | .addPipelineNode parentId prepare complete abort out =>
    some (BehaviorTree.addPipelineNode t parentId prepare complete abort out)
  | .addEntryUpdatedNode parentId changed out =>
    some (BehaviorTree.addEntryUpdatedNode t parentId changed out)
  | .addConsumeQueueNode parentId begin finish abort out =>
    some (BehaviorTree.addConsumeQueueNode t parentId begin finish abort out)
  | .addConditionNode parentId kind condition limit out =>
    some (BehaviorTree.addConditionNode t parentId kind condition limit out)
  | .addSwitchNode parentId selector out =>
    some (BehaviorTree.addSwitchNode t parentId selector out)
  | .addLeaf parentId ops handler halt out =>
    some (BehaviorTree.addLeaf t parentId ops handler halt out)
  | .addTimedNode parentId kind durationNs out =>
    some (BehaviorTree.addTimedNode t parentId kind durationNs out)
  | _ => none

def System.start (s : System σ) (t : Impl) : World σ := ⟨t.nodes, s.env, [], []⟩

def System.after (s : System σ) (t : Impl) (w : World σ) : System σ :=
  ⟨some { t with nodes := w.nodes, busy := false }, w.env,
    s.history ++ [⟨t.plan, w.trace, w.visits⟩]⟩

def runProgram {α : Type} (s : System σ) (t : Impl) (m : Run σ α) : α × System σ :=
  ((m (s.start t)).1, s.after t (m (s.start t)).2)

def resolverTargets (kind : NodeKind) (mask : ℕ) : Bool :=
  (!maskLimit mask || nodeKindHasLimit kind) && (!maskDuration mask || nodeKindHasDuration kind)

def withResolver (P : Plan) (id mask : ℕ) (resolver : Option ℕ) (user : ℕ) : Plan :=
  P.modify id (fun p =>
    { p with dynamicParameterMask := mask, parameterResolver := resolver, parameterUser := user })

variable (env : Env σ)

/-- The subtree is reset and the constructor-time parameters are restored before
the resolver of the node is replaced. -/
def replaceResolver (s : System σ) (t : Impl) (id : ℕ) (mask : ℕ) (resolver : Option ℕ) (user : ℕ) :
    System σ :=
  let s' := (runProgram s t (do
    resetNodeStateImpl t.plan env t.plan.nodeCount id true
    modifyNode id (fun n => { n with
      limit := (t.plan.node id).configuredLimit
      durationNs := (t.plan.node id).configuredDurationNs }))).2
  { s' with impl := s'.impl.map (fun t =>
    { t with plan := withResolver t.plan id mask resolver user }) }

def setNodeParametersResolver (s : System σ) (id : ℕ) (mask : ℕ) (resolver : Option ℕ) (user : ℕ) :
    Outcome × System σ :=
  match s.impl with
  | none => (.ofCode .einval, s)
  | some t =>
    let p := t.plan.node id
    if t.busy then (.ofCode .ebusy, s)
    else if !nodeIdValid t.plan id then (.ofCode .einval, s)
    else if 3 < mask ∨ mask = 3 then (.ofCode .einval, s)
    else if resolver = none then
      if mask ≠ 0 ∨ user ≠ 0 then (.ofCode .einval, s)
      else if p.parameterResolver = none ∧ p.dynamicParameterMask = 0 then (.ofCode .ok, s)
      else (.ofCode .ok, replaceResolver env s t id 0 none 0)
    else if mask = 0 then (.ofCode .einval, s)
    else if !resolverTargets p.kind mask then (.ofCode .einval, s)
    else if p.parameterResolver = resolver ∧ p.parameterUser = user ∧
        p.dynamicParameterMask = mask then (.ofCode .ok, s)
    else (.ofCode .ok, replaceResolver env s t id mask resolver user)

def treeTick (s : System σ) (outStatus : Bool) : Outcome × System σ :=
  match s.impl with
  | none => (.ofCode .einval, s)
  | some t =>
    if !outStatus then (.ofCode .einval, s)
    else if t.busy then (.ofCode .ebusy, s)
    else if validateImpl t ≠ .ok then
      (.ofCode (validateImpl t), (runProgram s t
        (if nodeIdValid t.plan t.plan.root then resetTreeState t.plan env t.plan.root
          else pure ())).2)
    else
      let r := runProgram s t (do
        match ← tickNode t.plan env t.plan.maxDepth t.plan.root with
        | .ok status => pure (.ok status)
        | .error e => do
          resetTreeState t.plan env t.plan.root
          pure (.error e : TickResult))
      match r.1 with
      | .ok status => (⟨.ok, some status, 0⟩, r.2)
      | .error e => (.ofCode e.code, r.2)

def resetRoot (P : Plan) (env : Env σ) : Run σ Unit :=
  if P.root ≠ 0 then resetTreeState P env P.root else pure ()

def treeReset (s : System σ) : Outcome × System σ :=
  match s.impl with
  | none => (.ofCode .einval, s)
  | some t =>
    if t.busy then (.ofCode .ebusy, s)
    else (.ofCode .ok, (runProgram s t (resetRoot t.plan env)).2)

def treeCancel (s : System σ) : Outcome × System σ := treeReset env s

def treeValidate (s : System σ) : Outcome :=
  match s.impl with
  | none => .ofCode .einval
  | some t => .ofCode (validateImpl t)

def treeDestroy (s : System σ) : Outcome × System σ :=
  match s.impl with
  | none => (.ofCode .ok, s)
  | some t =>
    if t.busy then (.ofCode .ebusy, s)
    else
      let s' := (runProgram s t (resetRoot t.plan env)).2
      (.ofCode .ok, { s' with impl := none })

def treeAdd (s : System σ) (add : Impl → Except Code (ℕ × Impl)) : Outcome × System σ :=
  match s.impl with
  | none => (.ofCode .einval, s)
  | some t =>
    match add t with
    | .error e => (.ofCode e, s)
    | .ok (id, t) => (⟨.ok, none, id⟩, { s with impl := some t })

def exec (s : System σ) (call : Call) : Outcome × System σ :=
  match call with
  | .setNodeParametersResolver id mask resolver user =>
    setNodeParametersResolver env s id mask resolver user
  | .tick outStatus => treeTick env s outStatus
  | .reset => treeReset env s
  | .cancel => treeCancel env s
  | .validate => (treeValidate s, s)
  | .destroy => treeDestroy env s
  | call => treeAdd s (fun t => (call.add? t).getD (.error .einval))

def runCalls (env : Env σ) : System σ → List Call → System σ
  | s, [] => s
  | s, call::calls => runCalls env (exec env s call).2 calls

def Reachable (s : System σ) : Prop :=
  ∃ (config : TreeConfig) (e : σ) (s₀ : System σ) (calls : List Call),
    treeInit config e = .ok s₀ ∧ runCalls env s₀ calls = s

end Calls

end SaltsUtils.BehaviorTree
