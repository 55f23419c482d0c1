import SaltsUtils.Library.Suspension
import SaltsUtils.BehaviorTree.Quiescence

/-!
# The reference evaluation of sequential trees

Leaf, Sequence, Fallback, Inverter, the two Force kinds, Retry and Repeat have a meaning
that knows nothing of ticks.
-/

set_option autoImplicit false

namespace SaltsUtils.BehaviorTree
open SaltsUtils.Forest SaltsUtils.Suspension

variable {σ : Type}

section Programs

def SequentialKind (kind : NodeKind) : Bool :=
  kind ∈ [.leaf, .sequence, .fallback, .inverter, .forceSuccess, .forceFailure, .retry, .repeat]

def resultOf : NodeStatus → Option Bool
  | .success => some true
  | .failure => some false
  | .running => none

def ofResult : Bool → NodeStatus
  | true => .success
  | false => .failure

/-- The children in order, up to the first one whose result is `stop`. -/
def listTask (stop : Bool) : List ℕ → Task ℕ Bool
  | [] => .done (!stop)
  | c::l => .visit c (fun b => if b = stop then .done stop else listTask stop l)

/-- The child until it succeeds, `n` times at most. -/
def retryTask (c : ℕ) : ℕ → Task ℕ Bool
  | 0 => .done false
  | n+1 => .visit c (fun b => if b then .done true else retryTask c n)

/-- The child `n` times. -/
def repeatTask (c : ℕ) : ℕ → Task ℕ Bool
  | 0 => .done true
  | n+1 => .visit c (fun _ => repeatTask c n)

/-- What a node does with the children `l`, or its child `c`, and `n` attempts or
rounds left. -/
def nodeTask (P : Plan) (id : ℕ) (l : List ℕ) (c n : ℕ) : Option (Task ℕ Bool) :=
  if nodeIdValid P id then
    match (P.node id).kind with
    | .leaf => none
    | .sequence => some (listTask false l)
    | .fallback => some (listTask true l)
    | .inverter => some (.visit c (fun b => .done (!b)))
    | .forceSuccess => some (.visit c (fun _ => .done true))
    | .forceFailure => some (.visit c (fun _ => .done false))
    | .retry => some (retryTask c n)
    | .repeat => some (repeatTask c n)
    | _ => some (.done false)
  else some (.done false)

theorem nodeTask_valid {P : Plan} {id : ℕ} (h : nodeIdValid P id) (l : List ℕ) (c n : ℕ) :
    nodeTask P id l c n = match (P.node id).kind with
    | .leaf => none
    | .sequence => some (listTask false l)
    | .fallback => some (listTask true l)
    | .inverter => some (.visit c (fun b => .done (!b)))
    | .forceSuccess => some (.visit c (fun _ => .done true))
    | .forceFailure => some (.visit c (fun _ => .done false))
    | .retry => some (retryTask c n)
    | .repeat => some (repeatTask c n)
    | _ => some (.done false) := if_pos h

/-- The reference: the whole program of each node, and leaves that answer as the
environment does. -/
def reference (P : Plan) (env : Env σ) : Machine ℕ Bool σ where
  body id := nodeTask P id (children P id) (P.node id).firstChild (P.node id).configuredLimit
  call id e :=
    ((statusOf (env e (.handler id)).1.status).bind resultOf, (env e (.handler id)).2)

def currentChild (p : NodePlan) (n : NodeState) : ℕ :=
  if n.cursor ≠ 0 then n.cursor else p.firstChild

def remaining (P : Plan) (ns : ℕ → NodeState) (id : ℕ) : Option (Task ℕ Bool) :=
  nodeTask P id (siblingsFrom P P.nodeCount (currentChild (P.node id) (ns id)))
    (currentChild (P.node id) (ns id)) ((P.node id).configuredLimit-(ns id).counter)

/-- The entry that a return of `tick_node` makes in the log: every answer of a
leaf, and the results of other nodes. -/
def entry (P : Plan) (v : Visit) : Option (ℕ × Option Bool) :=
  match v.result with
  | .error _ => none
  | .ok s =>
    if (P.node v.node).kind = .leaf ∨ s ≠ .running then some (v.node, resultOf s) else none

def logOf (P : Plan) (vs : List Visit) : List (ℕ × Option Bool) := vs.filterMap (entry P)

/-- The leaf invocations in a log. -/
def callsOf (P : Plan) (log : List (ℕ × Option Bool)) : List (Query × Option Bool) :=
  (log.filter (fun x => (P.node x.1).kind = .leaf)).map (fun x => (.handler x.1, x.2))

def invocations (evs : List Event) : List (Query × Option Bool) :=
  evs.map (fun e => (e.query, (statusOf e.answer.status).bind resultOf))

theorem logOf_append (P : Plan) (vs vs' : List Visit) :
    logOf P (vs ++ vs') = logOf P vs ++ logOf P vs' := List.filterMap_append

theorem callsOf_append (P : Plan) (l l' : List (ℕ × Option Bool)) :
    callsOf P (l ++ l') = callsOf P l ++ callsOf P l' := by
  simp [callsOf]

end Programs

section Shape
variable {P : Plan} {env : Env σ}

theorem visits_listTask {stop : Bool} {l : List ℕ} {b : ℕ} (h : Visits (listTask stop l) b) :
    b ∈ l := by
  induction l with
  | nil => cases h
  | cons c l ih =>
    cases h with
    | here => exact List.mem_cons_self
    | later h =>
      dsimp only at h
      split_ifs at h
      · cases h
      · exact List.mem_cons_of_mem c (ih h)

theorem simple_listTask {stop : Bool} {l : List ℕ} (h : l.Nodup) : (listTask stop l).Simple := by
  induction l with
  | nil => trivial
  | cons c l ih =>
    obtain ⟨hc, hl⟩ := List.nodup_cons.mp h
    intro b
    dsimp only
    split_ifs
    · refine ⟨?_, trivial⟩
      intro hv
      cases hv
    · exact ⟨fun hv => hc (visits_listTask hv), ih hl⟩

theorem visits_retryTask {c n b : ℕ} (h : Visits (retryTask c n) b) : b = c := by
  induction n with
  | zero => cases h
  | succ n ih =>
    cases h with
    | here => rfl
    | later h =>
      dsimp only at h
      split_ifs at h
      · cases h
      · exact ih h

theorem visits_repeatTask {c n b : ℕ} (h : Visits (repeatTask c n) b) : b = c := by
  induction n with
  | zero => cases h
  | succ n ih =>
    cases h with
    | here => rfl
    | later h => exact ih h

theorem only_child (hplan : ValidPlan P) {id : ℕ} (hid : nodeIdValid P id = true)
    (hk : nodeKindIsSingleChild (P.node id).kind = true) :
    children P id = [(P.node id).firstChild] := by
  have harity := hplan.arity id hid
  have hone : (P.node id).childCount = 1 := by
    simp only [arityAccepted, Bool.and_eq_true, Bool.or_eq_true, Bool.not_eq_true',
      decide_eq_true_eq] at harity
    rcases harity.1.1.1.2 with h | h
    · rw [hk] at h
      exact absurd h (by decide)
    · exact h
  rw [childCount_eq hplan.top hid] at hone
  obtain ⟨c, hc⟩ := List.length_eq_one_iff.mp hone
  rw [firstChild_eq hplan.top hid, hc]
  rfl

theorem first_isChild (hplan : ValidPlan P) {id : ℕ} (hid : nodeIdValid P id = true)
    (hk : nodeKindIsSingleChild (P.node id).kind = true) : IsChild P id (P.node id).firstChild := by
  rw [← mem_children hplan.top hid, only_child hplan hid hk]
  exact List.mem_singleton_self _

theorem edge_isChild (hplan : ValidPlan P) {i c : ℕ} (h : (reference P env).edge i c) :
    IsChild P i c := by
  obtain ⟨t, ht, hv⟩ := h
  simp only [reference, nodeTask] at ht
  by_cases hi : nodeIdValid P i = true
  · rw [if_pos hi] at ht
    have hsingle : nodeKindIsSingleChild (P.node i).kind = true → c = (P.node i).firstChild →
        IsChild P i c := fun hk hc => hc ▸ first_isChild hplan hi hk
    cases hk : (P.node i).kind <;> rw [hk] at ht hsingle
    case leaf => exact absurd ht (by simp)
    all_goals obtain rfl := Option.some.inj ht
    case sequence => exact (mem_children hplan.top hi).mp (visits_listTask hv)
    case fallback => exact (mem_children hplan.top hi).mp (visits_listTask hv)
    case retry => exact hsingle rfl (visits_retryTask hv)
    case «repeat» => exact hsingle rfl (visits_repeatTask hv)
    case inverter | forceSuccess | forceFailure =>
      cases hv with
      | here => exact hsingle rfl rfl
      | later h => cases h
    all_goals cases hv
  · rw [if_neg hi] at ht
    obtain rfl := Option.some.inj ht
    cases hv

theorem forest_reference (hplan : ValidPlan P) : IsForest (reference P env).edge := by
  have hf := is_forest hplan.top
  refine ⟨fun ha hb => hf.unique (edge_isChild hplan ha) (edge_isChild hplan hb), ?_⟩
  intro a h
  exact hf.acyclic a (Relation.TransGen.mono (fun _ _ he => edge_isChild hplan he) a a h)

end Shape

end SaltsUtils.BehaviorTree
