import Mathlib.Tactic

/-!
# Behavior-tree nodes, plans and worlds

A node record of `behavior_tree.c` is split in two.
-/

set_option autoImplicit false

namespace SaltsUtils.BehaviorTree

inductive NodeKind where
  | leaf | sequence | fallback | inverter | forceSuccess | forceFailure | retry | repeat
  | timeout | delay | parallel | reactiveSequence | runOnce | ifThenElse | precondition
  | whileDo | switch | keepRunningUntilFailure | pipelineSequence | entryUpdated
  | consumeQueue | reactiveFallback
  deriving DecidableEq

inductive NodeStatus where
  | success | failure | running
  deriving DecidableEq

inductive Code where
  | ok | einval | ebusy | enobufs | enomem | other (code : ℕ)
  deriving DecidableEq

/-- The value of a `salts_bt_node_status` as an integer; other integers are invalid. -/
def statusOf : ℤ → Option NodeStatus
  | 0 => some .success
  | 1 => some .failure
  | 2 => some .running
  | _ => none

structure NodePlan where
  kind : NodeKind
  handler : Bool
  halt : Bool
  parent : ℕ
  firstChild : ℕ
  lastChild : ℕ
  nextSibling : ℕ
  depth : ℕ
  childCount : ℕ
  configuredLimit : ℕ
  configuredDurationNs : UInt64
  dynamicParameterMask : ℕ
  parameterResolver : Option ℕ
  parameterUser : ℕ
  condition : Bool
  selector : Bool
  pipelinePrepare : Bool
  pipelineComplete : Bool
  pipelineAbort : Bool
  entryChanged : Bool
  queueBegin : Bool
  queueFinish : Bool
  queueAbort : Bool
  parallelEnter : Bool
  parallelStep : Bool
  parallelJoin : Bool
  parallelFinish : Bool
  parallelAbort : Bool
  deriving DecidableEq

structure NodeState where
  lastStatus : NodeStatus
  cursor : ℕ
  limit : ℕ
  counter : ℕ
  durationNs : UInt64
  deadlineNs : UInt64
  timerStartedNs : UInt64
  timerStarted : Bool
  delayElapsed : Bool
  evaluated : Bool
  runOnceComplete : Bool
  observed : Bool
  prepared : Bool
  parallelBranchPrepared : Bool
  running : Bool
  deriving DecidableEq

structure Plan where
  maxNodes : ℕ
  maxDepth : ℕ
  maxControlIterations : ℕ
  nodeCount : ℕ
  root : ℕ
  node : ℕ → NodePlan

def maskLimit (mask : ℕ) : Bool := mask.testBit 0

def maskDuration (mask : ℕ) : Bool := mask.testBit 1

def nodeIdValid (P : Plan) (id : ℕ) : Bool := id ≠ 0 && id ≤ P.nodeCount

def nodeKindRequiresTypedConstructor (kind : NodeKind) : Bool :=
  kind ∈ [.switch, .pipelineSequence, .entryUpdated, .consumeQueue]

def nodeKindAcceptsChildren (kind : NodeKind) : Bool := kind ≠ .leaf

def nodeKindIsSingleChild (kind : NodeKind) : Bool :=
  kind ∈ [.inverter, .forceSuccess, .forceFailure, .retry, .repeat, .timeout, .delay,
    .runOnce, .keepRunningUntilFailure, .entryUpdated, .consumeQueue]

def siblingsFrom (P : Plan) : ℕ → ℕ → List ℕ
  | 0, _ => []
  | fuel+1, id =>
    if id = 0 then []
    else if nodeIdValid P id then id::siblingsFrom P fuel (P.node id).nextSibling
    else [id]

def children (P : Plan) (id : ℕ) : List ℕ :=
  siblingsFrom P P.nodeCount (P.node id).firstChild

inductive Query where
  | handler (id : ℕ)
  | halt (id : ℕ)
  | resolver (id : ℕ) (resolver user limit : ℕ) (durationNs : UInt64)
  | condition (id : ℕ)
  | selector (id : ℕ)
  | pipelinePrepare (id : ℕ) (child : ℕ)
  | pipelineComplete (id : ℕ) (child : ℕ) (status : NodeStatus)
  | pipelineAbort (id : ℕ) (child : ℕ)
  | entryChanged (id : ℕ)
  | queueBegin (id : ℕ)
  | queueFinish (id : ℕ)
  | queueAbort (id : ℕ)
  | parallelEnter (id : ℕ) (child : ℕ) (first : Bool)
  | parallelStep (id : ℕ) (child : ℕ) (status : NodeStatus)
  | parallelJoin (id : ℕ) (status : NodeStatus)
  | parallelFinish (id : ℕ) (child : ℕ) (status : NodeStatus)
  | parallelAbort (id : ℕ) (child : ℕ)
  | hrtime (id : ℕ)
  deriving DecidableEq

def Query.node : Query → ℕ
  | .handler id | .halt id | .resolver id _ _ _ _ | .condition id | .selector id
  | .pipelinePrepare id _ | .pipelineComplete id _ _ | .pipelineAbort id _
  | .entryChanged id | .queueBegin id | .queueFinish id | .queueAbort id
  | .parallelEnter id _ _ | .parallelStep id _ _ | .parallelJoin id _
  | .parallelFinish id _ _ | .parallelAbort id _ | .hrtime id => id

structure Answer where
  code : Code
  status : ℤ
  flag : Bool
  index : ℕ
  limit : ℕ
  durationNs : UInt64
  time : UInt64
  deriving DecidableEq

structure Event where
  query : Query
  answer : Answer
  deriving DecidableEq

/-- Which kind of `return` a failing tick has taken: one of the internal checks
of `tick_node_impl`, or one that a callback's answer has forced. -/
inductive Cause where
  | guard | callback
  deriving DecidableEq

structure Fault where
  code : Code
  cause : Cause
  deriving DecidableEq

abbrev TickResult := Except Fault NodeStatus

/-- A return of `tick_node`, with the node states it left. -/
structure Visit where
  node : ℕ
  result : TickResult
  nodes : ℕ → NodeState

/-- The node states, the environment's state and two ghost records: the callback
invocations and the returns of `tick_node`, both in order. -/
structure World (σ : Type) where
  nodes : ℕ → NodeState
  env : σ
  trace : List Event
  visits : List Visit

/-- The environment: how callbacks answer in each of its states. -/
abbrev Env (σ : Type) := σ → Query → Answer × σ

abbrev Run (σ α : Type) := StateM (World σ) α

section Actions
variable {σ : Type}

def getNode (id : ℕ) : Run σ NodeState := fun w => (w.nodes id, w)

def modifyNode (id : ℕ) (f : NodeState → NodeState) : Run σ Unit :=
  fun w => ((), { w with nodes := Function.update w.nodes id (f (w.nodes id)) })

def ask (env : Env σ) (q : Query) : Run σ Answer := fun w =>
  let r := env w.env q
  (r.1, { w with env := r.2, trace := w.trace ++ [⟨q, r.1⟩] })

/-- The ghost record of a return. -/
def visit (id : ℕ) (r : TickResult) : Run σ TickResult :=
  fun w => (r, { w with visits := w.visits ++ [⟨id, r, w.nodes⟩] })

def guardFault : TickResult := .error ⟨.einval, .guard⟩

/-- `if (status != SALTS_OK) return status;` after a call that yields a node status. -/
def onOk (m : Run σ TickResult) (k : NodeStatus → Run σ TickResult) : Run σ TickResult := do
  match ← m with
  | .error e => pure (.error e)
  | .ok s => k s

/-- A call whose failure runs `cleanup` before the code is returned. -/
def onOkElse (m : Run σ TickResult) (cleanup : Run σ Unit)
    (k : NodeStatus → Run σ TickResult) : Run σ TickResult := do
  match ← m with
  | .error e => do cleanup; pure (.error e)
  | .ok s => k s

def callElse (env : Env σ) (q : Query) (cleanup : Run σ Unit)
    (k : Answer → Run σ TickResult) : Run σ TickResult := do
  let a ← ask env q
  if a.code = .ok then k a
  else do cleanup; pure (.error ⟨a.code, .callback⟩)

end Actions

end SaltsUtils.BehaviorTree
