import SaltsUtils.BehaviorTree.Independence
import SaltsUtils.BehaviorTree.Quiescence

/-!
# A stopped tree starts again like a new one

After a reset every node is as its constructor left it, but for parameters that a resolver
sets.
-/

set_option autoImplicit false

namespace SaltsUtils.BehaviorTree
open SaltsUtils.Forest

variable {σ : Type}

variable {w : World σ}

section Rest
variable {P : Plan}

def freshNodes (P : Plan) : ℕ → NodeState := fun i =>
  if nodeIdValid P i then
    freshState (P.node i).configuredLimit (P.node i).configuredDurationNs
  else freshState 0 0

/-- Every node is as its constructor left it, but for what a resolver has set. -/
def AtRest (P : Plan) (ns : ℕ → NodeState) : Prop :=
  ∀ i, SameButMasked P i (freshNodes P i) (ns i)

theorem atRest_form {ns : ℕ → NodeState} (h : AtRest P ns) (i : ℕ) :
    ns i = freshState (ns i).limit (ns i).durationNs := by
  obtain ⟨limit, durationNs, hn, -, -⟩ := h i
  rw [hn]
  cases hi : nodeIdValid P i <;> simp [freshNodes, freshState, hi]

theorem atRest_freshNodes : AtRest P (freshNodes P) := fun i => sameButMasked_refl i _

theorem resetOne_typed (ht : Topology P) {i : ℕ} (hi : nodeIdValid P i = true) {n : NodeState}
    (hn : TypedNode P i n) :
    resetOne P true (decide (i ≠ P.root)) i n = freshState n.limit n.durationNs := by
  have hrunning : (n.running && decide ((P.node i).kind ≠ .leaf)) = false := by
    by_cases hk : (P.node i).kind = .leaf
    · simp [hk]
    · simp [hn.running hk]
  have hmark : (n.parallelBranchPrepared && !(decide (i ≠ P.root) &&
      decide ((P.node (P.node i).parent).kind = .parallel))) = false := by
    cases hm : n.parallelBranchPrepared with
    | false => rfl
    | true =>
      obtain ⟨hparent, hkind, -⟩ := hn.mark hm
      have hne : i ≠ P.root := by
        intro heq
        subst heq
        exact hparent (root_parent ht hi)
      simp [hne, hkind]
  rw [resetOne, hrunning, hmark]
  simp [clearNode, freshState]

theorem atRest_resetRoot (ht : Topology P) (env : Env σ) (htyped : Typed P w.nodes)
    (hout : ∀ i, nodeIdValid P i = false → w.nodes i = freshState 0 0) :
    AtRest P (resetRoot P env w).2.nodes := by
  intro i
  cases hi : nodeIdValid P i with
  | true =>
    have hn := htyped i hi
    rw [resetRoot_nodes ht w hi, resetOne_typed ht hi hn]
    refine ⟨(w.nodes i).limit, (w.nodes i).durationNs, ?_, ?_, ?_⟩
    · simp [freshNodes, freshState, hi]
    · intro hm
      simp [freshNodes, freshState, hi, hn.limit_static hm]
    · intro hm
      simp [freshNodes, freshState, hi, hn.duration_static hm]
  | false =>
    have hkeep : (resetRoot P env w).2.nodes i = w.nodes i := by
      cases hr : nodeIdValid P P.root with
      | false =>
        rw [resetRoot_empty ht hr]
        rfl
      | true =>
        have hnot : ¬ Below P P.root i := fun hb => by
          rw [below_valid hr hb] at hi
          exact absurd hi (by decide)
        exact (frame_steps ht (resetRoot_steps ht w)).outside i hnot
    rw [hkeep, hout i hi]
    have hfresh : freshNodes P i = freshState 0 0 := by simp [freshNodes, hi]
    rw [hfresh]
    exact sameButMasked_refl i _

end Rest

section Again
variable {P : Plan} {ns : ℕ → NodeState}

theorem branchQueries_rest (h : AtRest P ns) {below : ℕ → List Query} (hbelow : ∀ c, below c = [])
    (id index : ℕ) (l : List ℕ) : branchQueries P ns below id index l = [] := by
  induction l generalizing index with
  | nil => rfl
  | cons c l ih =>
    have habort : branchAbort P id index (ns c) = [] := by
      rw [branchAbort, atRest_form h c]
      exact if_neg (fun hc => absurd hc.2 (by simp [freshState]))
    rw [branchQueries, hbelow, habort, ih]
    rfl

theorem resetQueries_rest (h : AtRest P ns) (levels id : ℕ) : resetQueries P ns levels id = [] := by
  induction levels generalizing id with
  | zero => rfl
  | succ levels ih =>
    have hhalt : haltQueries P id (ns id) = [] := by
      rw [haltQueries, atRest_form h id]
      exact if_neg (fun hc => absurd hc.2 (by simp [freshState]))
    have habort : abortQueries P id (ns id) = [] := by
      rw [abortQueries, atRest_form h id]
      simp [freshState]
    rw [resetQueries, hhalt, habort, branchQueries_rest h ih]
    split_ifs <;> rfl

theorem resetOne_rest (h : AtRest P ns) (inside : Bool) (i : ℕ) :
    resetOne P true inside i (ns i) = ns i := by
  rw [atRest_form h i]
  simp [resetOne, clearNode, freshState]

theorem reset_rest (ht : Topology P) (env : Env σ) (h : AtRest P w.nodes) {id : ℕ}
    (hid : nodeIdValid P id = true) : (resetNodeStateImpl P env P.nodeCount id true w).2 = w := by
  have hnodes : resetNodes P true w.nodes id = w.nodes := by
    funext i
    simp only [resetNodes, resetOne_rest h, ite_self]
  rw [reset_eq env ht true hid, resetQueries_rest h, hnodes]
  rfl

theorem resetRoot_rest (ht : Topology P) (env : Env σ) (h : AtRest P w.nodes) :
    (resetRoot P env w).2 = w := by
  cases hr : nodeIdValid P P.root with
  | false =>
    rw [resetRoot_empty ht hr]
    rfl
  | true =>
    rw [resetRoot_valid hr]
    exact reset_rest ht env h hr

end Again

section Outside
variable {env : Env σ} {s : System σ} {t : Impl}

/-- Records without a node keep the state that `calloc` gave them. -/
def OutsideFresh (t : Impl) : Prop :=
  ∀ i, nodeIdValid t.plan i = false → t.nodes i = freshState 0 0

theorem outside_steps {P : Plan} (ht : Topology P) {i : ℕ} {w' : World σ} (h : Steps P env i w w')
    {k : ℕ} (hk : nodeIdValid P k = false) : w'.nodes k = w.nodes k := by
  apply steps_invariant (I := fun u => u.nodes k = w.nodes k) h _ rfl
  intro j u u' hv _ ha hu
  have hnot : ¬ Below P j k := fun hb => by
    rw [below_valid hv hb] at hk
    exact absurd hk (by decide)
  rw [(frame_act ht hv (below_refl j) ha).outside k hnot, hu]

theorem outside_reachable (h : Reachable env s) (hs : s.impl = some t) : OutsideFresh t := by
  have hall : ∀ t, s.impl = some t → OutsideFresh t := by
    apply reachable_invariant (I := fun s => ∀ t, s.impl = some t → OutsideFresh t) h
    · intro config e s₀ hs₀ t ht
      rw [treeInit] at hs₀
      split_ifs at hs₀
      rw [← Except.ok.inj hs₀] at ht
      rw [← Option.some.inj ht]
      exact fun _ _ => rfl
    · intro s t s' hs hinv heffect hI t' hs'
      have ht := hinv.built.toTopology
      cases heffect with
      | unchanged => exact hI t' hs'
      | added ha =>
        rw [← Option.some.inj hs']
        intro i hi
        have hnew : i ≠ t.plan.nodeCount+1 ∧ nodeIdValid t.plan i ≠ true := by
          rw [← not_or, ← added_valid ha, hi]
          decide
        rw [ha.nodes, Function.update_of_ne hnew.1]
        exact hI t hs i (Bool.not_eq_true _ ▸ hnew.2)
      | program hsteps hgood =>
        rw [← Option.some.inj hs']
        exact fun i hi => (outside_steps ht hsteps hi).trans (hI t hs i hi)
      | resolver hv hmask hzero htargets hw =>
        rename_i w id mask resolver user
        rw [← Option.some.inj hs']
        intro i hi
        have hi : nodeIdValid t.plan i = false := hi
        have hne : i ≠ id := fun heq => by
          rw [heq, hv] at hi
          exact absurd hi (by decide)
        have hsteps : Steps t.plan env id (s.start t) w := by
          rw [hw]
          exact steps_act hv steps_refl (Act.reset hv (below_refl _))
        rw [resolvedImpl_nodes_other hne, outside_steps ht hsteps hi]
        exact hI t hs i hi
      | destroyed hw => exact absurd hs' (by simp)
  exact hall t hs

end Outside

section Adds

def planned (r : Except Code (ℕ × Impl)) : Except Code (ℕ × Plan) :=
  r.map (fun x => (x.1, x.2.plan))

variable {t t' : Impl} (hplan : t'.plan = t.plan) (hbusy : t'.busy = t.busy)

include hplan hbusy in
theorem planned_internal (parentId : ℕ) (kind : NodeKind) (handler : Bool) (limit : ℕ)
    (out allow : Bool) :
    planned (addNodeWithLimitInternal t' parentId kind handler limit out allow) =
      planned (addNodeWithLimitInternal t parentId kind handler limit out allow) := by
  simp only [addNodeWithLimitInternal, hplan, hbusy]
  split_ifs
  all_goals try rfl
  cases newDepth t.plan parentId with
  | none => rfl
  | some depth =>
    dsimp only
    cases linkNode t.plan parentId (freshPlan kind handler parentId depth limit) with
    | none => rfl
    | some P => rfl

theorem planned_typed {r r' : Except Code (ℕ × Impl)} (h : planned r' = planned r)
    (accepted : Bool) (configure : NodePlan → NodePlan) (initial : NodeState → NodeState) :
    planned (addTyped accepted r' configure initial) =
      planned (addTyped accepted r configure initial) := by
  simp only [addTyped]
  split_ifs
  · rfl
  · cases r with
    | error e =>
      cases r' with
      | error e' => simpa [planned, Except.map] using h
      | ok x' => exact absurd h (by simp [planned, Except.map])
    | ok x =>
      cases r' with
      | error e' => exact absurd h (by simp [planned, Except.map])
      | ok x' =>
        obtain ⟨hid, hp⟩ : x'.1 = x.1 ∧ x'.2.plan = x.2.plan := by
          simpa [planned, Except.map] using h
        simp [planned, Except.map, hid, hp]

include hplan hbusy in
theorem planned_add (call : Call) : (call.add? t').map planned = (call.add? t).map planned := by
  have hint := planned_internal hplan hbusy
  cases call with
  | addNodeWithLimit => exact congrArg some (hint ..)
  | addNode => exact congrArg some (hint ..)
  | setNodeParametersResolver => rfl
  | tick => rfl
  | reset => rfl
  | cancel => rfl
  | validate => rfl
  | destroy => rfl
  | _ => exact congrArg some (planned_typed (hint ..) _ _ _)

end Adds

variable {s : System σ} {call : Call}

section Rebuild
variable {env : Env σ}

def Call.builds : Call → Bool
  | .tick _ | .reset | .cancel | .validate | .destroy => false
  | _ => true

/-- A tree that has been built and not yet run: its nodes are as the constructors
left them, no callback has been invoked and the environment is still in `e`. -/
structure Rebuilt (e : σ) (s : System σ) (t : Impl) : Prop where
  impl : s.impl = some t
  inv : ImplInv t
  nodes : t.nodes = freshNodes t.plan
  env : s.env = e
  silent : ∀ r ∈ s.history, r.events = []

variable {e : σ} {t t' : Impl}

theorem rebuilt_added {p : ℕ} {plan : NodePlan} (h : Rebuilt e s t) (ha : Added t t' p plan) :
    Rebuilt e { s with impl := some t' } t' := by
  refine ⟨rfl, inv_added h.inv ha, ?_, h.env, h.silent⟩
  funext i
  by_cases hnew : i = t.plan.nodeCount+1
  · subst hnew
    have hv : nodeIdValid t'.plan (t.plan.nodeCount+1) = true := (added_valid ha).mpr (Or.inl rfl)
    rw [added_nodes_new ha, freshNodes, if_pos hv, (added_bounds ha).2.2.2]
  · rw [ha.nodes, Function.update_of_ne hnew, h.nodes]
    by_cases hv : nodeIdValid t.plan i = true
    · have hv' : nodeIdValid t'.plan i = true := (added_valid ha).mpr (Or.inr hv)
      rw [freshNodes, freshNodes, if_pos hv, if_pos hv', added_old ha hv]
    · have hv' : nodeIdValid t'.plan i ≠ true := by
        intro hi
        rcases (added_valid ha).mp hi with heq | hi
        · exact hnew heq
        · exact hv hi
      rw [freshNodes, freshNodes, if_neg hv, if_neg hv']

theorem freshNodes_withResolver (P : Plan) (id mask : ℕ) (resolver : Option ℕ) (user : ℕ) :
    freshNodes (withResolver P id mask resolver user) = freshNodes P := by
  funext i
  simp only [freshNodes]
  rw [withResolver_keeps]
  rfl

theorem rebuilt_resolver (h : Rebuilt e s t) {id mask : ℕ} {resolver : Option ℕ} {user : ℕ}
    (hid : nodeIdValid t.plan id = true) (hmask : mask < 3) (hzero : mask = 0 ↔ resolver = none)
    (htargets : resolverTargets (t.plan.node id).kind mask = true) :
    Rebuilt e (replaceResolver env s t id mask resolver user)
      (resolvedImpl t t.nodes id mask resolver user) := by
  have ht := h.inv.built.toTopology
  have hrest : AtRest t.plan t.nodes := by
    rw [h.nodes]
    exact atRest_freshNodes
  have hreset : (resetNodeStateImpl t.plan env t.plan.nodeCount id true (s.start t)).2 =
      s.start t := reset_rest ht env hrest hid
  have hshape : replaceResolver env s t id mask resolver user =
      { s.after t (resetNodeStateImpl t.plan env t.plan.nodeCount id true (s.start t)).2 with
        impl := some (resolvedImpl t (resetNodeStateImpl t.plan env t.plan.nodeCount id true
          (s.start t)).2.nodes id mask resolver user) } := rfl
  have heffect : Effect env s t (replaceResolver env s t id mask resolver user) := by
    rw [hshape]
    exact Effect.resolver hid hmask hzero htargets rfl
  rw [hshape, hreset] at heffect ⊢
  refine ⟨rfl, inv_effect h.inv h.impl heffect rfl, ?_, h.env, ?_⟩
  · funext i
    show _ = freshNodes (withResolver t.plan id mask resolver user) i
    rw [freshNodes_withResolver, ← h.nodes]
    by_cases hi : i = id
    · subst hi
      rw [resolvedImpl_nodes_self, h.nodes]
      simp [freshNodes, freshState, hid]
    · exact resolvedImpl_nodes_other hi
  · intro r hr
    rcases List.mem_append.mp hr with hr | hr
    · exact h.silent r hr
    · rw [List.mem_singleton.mp hr]
      rfl

theorem rebuilt_init {config : TreeConfig} (h : treeInit config e = .ok s) (e' : σ) :
    s.impl = some (emptyImpl config) ∧
      Rebuilt e' ⟨some (emptyImpl config), e', []⟩ (emptyImpl config) := by
  have hc : configAccepted config = true := by
    by_contra hc
    rw [treeInit, if_neg hc] at h
    exact absurd h (by simp)
  have hinit : treeInit config e' = .ok ⟨some (emptyImpl config), e', []⟩ := if_pos hc
  rw [treeInit, if_pos hc] at h
  refine ⟨by rw [← Except.ok.inj h], rfl, inv_init hinit rfl, ?_, rfl, ?_⟩
  · funext i
    have hnone : nodeIdValid (emptyImpl config).plan i ≠ true := fun hi => by
      have := nodeIdValid_iff.mp hi
      have h0 : (emptyImpl config).plan.nodeCount = 0 := rfl
      omega
    rw [freshNodes, if_neg hnone]
    rfl
  · exact fun r hr => absurd hr List.not_mem_nil

theorem exec_plan (hinv : ImplInv t) (hs : s.impl = some t) (hcall : call.builds = false)
    (hs' : (exec env s call).2.impl = some t') : t'.plan = t.plan := by
  cases call with
  | tick out =>
    have hs' : (treeTick env s out).2.impl = some t' := hs'
    rcases treeTick_cases env hinv hs out with
      ⟨-, h⟩ | ⟨-, -, h⟩ | ⟨-, -, status, w, -, h⟩ | ⟨-, -, f, w, -, h⟩ <;> rw [h] at hs'
    · rw [← Option.some.inj (hs.symm.trans hs')]
    all_goals rw [← Option.some.inj hs']
  | reset =>
    have hs' : (treeReset env s).2.impl = some t' := hs'
    rw [treeReset_eq hinv hs] at hs'
    rw [← Option.some.inj hs']
  | cancel =>
    have hs' : (treeReset env s).2.impl = some t' := hs'
    rw [treeReset_eq hinv hs] at hs'
    rw [← Option.some.inj hs']
  | validate => rw [← Option.some.inj (hs.symm.trans hs')]
  | destroy =>
    have hs' : (treeDestroy env s).2.impl = some t' := hs'
    rw [treeDestroy_eq hinv hs] at hs'
    exact absurd hs' (by simp)
  | _ => exact absurd hcall (by simp [Call.builds])

variable {s₁ : System σ} {f : Impl}

theorem rebuilt_treeAdd (hinv : ImplInv t) (hs : s.impl = some t) (h : Rebuilt e s₁ f)
    (hplan : f.plan = t.plan) (call : Call)
    (hs' : (treeAdd s (fun t => (call.add? t).getD (.error .einval))).2.impl = some t') :
    ∃ f', Rebuilt e (treeAdd s₁ (fun t => (call.add? t).getD (.error .einval))).2 f' ∧
      f'.plan = t'.plan := by
  have hmap := planned_add hplan (h.inv.busy.trans hinv.busy.symm) call
  simp only [treeAdd, hs] at hs'
  simp only [treeAdd, h.impl]
  cases hr : call.add? t with
  | none =>
    rw [hr] at hmap hs'
    rw [Option.map_eq_none_iff.mp hmap]
    exact ⟨f, h, by rw [hplan, ← Option.some.inj (hs.symm.trans hs')]⟩
  | some r =>
    rw [hr] at hmap hs'
    obtain ⟨r', hr', hpl⟩ := Option.map_eq_some_iff.mp hmap
    rw [hr']
    cases r with
    | error c =>
      cases r' with
      | error c' => exact ⟨f, h, by rw [hplan, ← Option.some.inj (hs.symm.trans hs')]⟩
      | ok x' => exact absurd hpl (by simp [planned, Except.map])
    | ok x =>
      cases r' with
      | error c' => exact absurd hpl (by simp [planned, Except.map])
      | ok x' =>
        obtain ⟨-, hp⟩ : x'.1 = x.1 ∧ x'.2.plan = x.2.plan := by
          simpa [planned, Except.map] using hpl
        obtain ⟨-, -, p, plan, hadded⟩ := add_added h.inv.built.toTopology hr' rfl
        exact ⟨x'.2, rebuilt_added h hadded, by rw [hp, ← Option.some.inj hs']⟩

theorem rebuilt_exec (hinv : ImplInv t) (hs : s.impl = some t) (h : Rebuilt e s₁ f)
    (hplan : f.plan = t.plan) (hcall : call.builds = true)
    (hs' : (exec env s call).2.impl = some t') :
    ∃ f', Rebuilt e (exec env s₁ call).2 f' ∧ f'.plan = t'.plan := by
  cases call with
  | setNodeParametersResolver id mask resolver user =>
    have hs' : (setNodeParametersResolver env s id mask resolver user).2.impl = some t' := hs'
    show ∃ f', Rebuilt e (setNodeParametersResolver env s₁ id mask resolver user).2 f' ∧ _
    rcases resolver_decision env t.plan id mask resolver user with
      hsame | ⟨m, r, u, hv, hm, hzero, htargets, hset⟩
    · rw [hsame s t hs hinv.busy rfl] at hs'
      rw [hsame s₁ f h.impl h.inv.busy hplan]
      exact ⟨f, h, by rw [hplan, ← Option.some.inj (hs.symm.trans hs')]⟩
    · rw [hset s t hs hinv.busy rfl] at hs'
      rw [hset s₁ f h.impl h.inv.busy hplan]
      rw [← hplan] at hv htargets
      refine ⟨_, rebuilt_resolver h hv hm hzero htargets, ?_⟩
      rw [← Option.some.inj hs']
      show withResolver f.plan id m r u = withResolver t.plan id m r u
      rw [hplan]
  | tick => exact absurd hcall (by simp [Call.builds])
  | reset => exact absurd hcall (by simp [Call.builds])
  | cancel => exact absurd hcall (by simp [Call.builds])
  | validate => exact absurd hcall (by simp [Call.builds])
  | destroy => exact absurd hcall (by simp [Call.builds])
  | _ => exact rebuilt_treeAdd hinv hs h hplan _ hs'

theorem runCalls_destroyed (hs : s.impl = none) (calls : List Call) :
    (runCalls env s calls).impl = none := by
  induction calls with
  | nil => exact hs
  | cons call calls ih =>
    rw [runCalls, exec_destroyed hs]
    exact ih

theorem rebuilt_runCalls (calls : List Call) (hinv : ImplInv t) (hs : s.impl = some t)
    (h : Rebuilt e s₁ f) (hplan : f.plan = t.plan) (hs' : (runCalls env s calls).impl = some t') :
    ∃ f', Rebuilt e (runCalls env s₁ (calls.filter Call.builds)) f' ∧ f'.plan = t'.plan := by
  induction calls generalizing s s₁ t f with
  | nil => exact ⟨f, h, by rw [hplan, Option.some.inj (hs.symm.trans hs')]⟩
  | cons call calls ih =>
    have hs' : (runCalls env (exec env s call).2 calls).impl = some t' := hs'
    cases hnext : (exec env s call).2.impl with
    | none =>
      rw [runCalls_destroyed hnext] at hs'
      exact absurd hs' (by simp)
    | some u =>
      have hu := inv_effect hinv hs (exec_effect env hinv hs call) hnext
      cases hcall : call.builds with
      | true =>
        obtain ⟨f', h', hplan'⟩ := rebuilt_exec hinv hs h hplan hcall hnext
        rw [List.filter_cons_of_pos hcall]
        exact ih hu hnext h' hplan' hs'
      | false =>
        rw [List.filter_cons_of_neg (by rw [hcall]; decide)]
        exact ih hu hnext h (hplan.trans (exec_plan hinv hs hcall hnext).symm) hs'

end Rebuild

section Observation
variable {env : Env σ}

def Call.executes : Call → Bool
  | .tick _ | .reset | .cancel | .validate => true
  | _ => false

/-- The callback invocations since the history was that of `s`. -/
def newEvents (s s' : System σ) : List Event :=
  (s'.history.drop s.history.length).flatMap Record.events

/-- What a series of calls shows: the outcome of each call and the callbacks it invoked. -/
def observe (env : Env σ) : System σ → List Call → List (Outcome × List Event)
  | _, [] => []
  | s, call::calls =>
    ((exec env s call).1, newEvents s (exec env s call).2)::observe env (exec env s call).2 calls

def eraseObserved (P : Plan) (o : List (Outcome × List Event)) : List (Outcome × List Event) :=
  o.map (fun x => (x.1, x.2.map (eraseIncoming P)))

theorem newEvents_self (s : System σ) : newEvents s s = [] := by
  simp [newEvents]

theorem newEvents_after (s : System σ) (t : Impl) (w : World σ) :
    newEvents s (s.after t w) = w.trace := by
  simp [newEvents, System.after]

/-- Two systems with one plan and related worlds. -/
structure Alike (P : Plan) (s s' : System σ) (t t' : Impl) : Prop where
  impl : s.impl = some t
  impl' : s'.impl = some t'
  plan : t.plan = P
  plan' : t'.plan = P
  inv : ImplInv t
  inv' : ImplInv t'
  related : Related P ∅ (s.start t) (s'.start t')

def StepsAlike (P : Plan) (env : Env σ) (s s' : System σ) (call : Call) : Prop :=
  (exec env s call).1 = (exec env s' call).1 ∧
    (newEvents s (exec env s call).2).map (eraseIncoming P) =
      (newEvents s' (exec env s' call).2).map (eraseIncoming P) ∧
    ∃ t t', Alike P (exec env s call).2 (exec env s' call).2 t t'

variable {P : Plan} {s s' : System σ} {t t' : Impl}

theorem stepsAlike_after (h : Alike P s s' t t') {o : Outcome} {w' : World σ}
    (he : exec env s call = (o, s.after t w)) (he' : exec env s' call = (o, s'.after t' w'))
    (hrel : Related P ∅ w w') : StepsAlike P env s s' call := by
  have hinv := inv_effect h.inv h.impl (exec_effect env h.inv h.impl call) (by rw [he]; rfl)
  have hinv' := inv_effect h.inv' h.impl' (exec_effect env h.inv' h.impl' call) (by rw [he']; rfl)
  rw [StepsAlike, he, he', newEvents_after, newEvents_after]
  refine ⟨rfl, hrel.trace.symm, _, _, rfl, rfl, h.plan, h.plan', hinv, hinv', ?_⟩
  exact ⟨hrel.env, hrel.nodes, hrel.equal, rfl⟩

theorem stepsAlike_same (h : Alike P s s' t t') {o : Outcome} (he : exec env s call = (o, s))
    (he' : exec env s' call = (o, s')) : StepsAlike P env s s' call := by
  rw [StepsAlike, he, he', newEvents_self, newEvents_self]
  exact ⟨rfl, rfl, t, t', h⟩

variable (env P) in
theorem sim_resetRoot : Sim P ∅ (resetRoot P env) (resetRoot P env) :=
  sim_ite (sim_resetTreeState _) (sim_pure _)

theorem validateImpl_cases (t : Impl) : validateImpl t = .ok ∨ validateImpl t = .einval := by
  rw [validateImpl]
  split_ifs <;> simp

theorem validateImpl_plan (hinv : ImplInv t) (hinv' : ImplInv t') (h : t'.plan = t.plan) :
    validateImpl t' = validateImpl t := by
  have hiff : validateImpl t' = .ok ↔ validateImpl t = .ok := by
    rw [validate_iff hinv, validate_iff hinv', h]
  rcases validateImpl_cases t with hv | hv
  · rw [hv, hiff.mpr hv]
  · rcases validateImpl_cases t' with hv' | hv'
    · rw [hv', hiff.mp hv']
    · rw [hv, hv']

theorem stepsAlike_reset (h : Alike P s s' t t') (hcall : call = .reset ∨ call = .cancel) :
    StepsAlike P env s s' call := by
  have hexec : ∀ s : System σ, exec env s call = treeReset env s := by
    rcases hcall with rfl | rfl <;> exact fun _ => rfl
  have hrel := (sim_resetRoot env P _ _ h.related).2
  apply stepsAlike_after h _ _ hrel
  · exact .ofCode .ok
  · rw [hexec, treeReset_eq h.inv h.impl, h.plan]
  · rw [hexec, treeReset_eq h.inv' h.impl', h.plan']

section
variable (henv : Overwrites P env) (h : Alike P s s' t t')
include henv h

theorem stepsAlike_tick (out : Bool) : StepsAlike P env s s' (.tick out) := by
  have hw : WellBuilt P := h.plan ▸ h.inv.built
  have hsame := validateImpl_plan h.inv h.inv' (h.plan'.trans h.plan.symm)
  rcases treeTick_cases env h.inv h.impl out with
    ⟨ho, he⟩ | ⟨ho, hv, he⟩ | ⟨ho, hv, status, w, hrun, he⟩ | ⟨ho, hv, f, w, hrun, he⟩
  · rcases treeTick_cases env h.inv' h.impl' out with ⟨-, he'⟩ | ⟨ho', -⟩ | ⟨ho', -⟩ | ⟨ho', -⟩
    · exact stepsAlike_same h he he'
    all_goals rw [ho] at ho'; exact absurd ho' (by decide)
  · rcases treeTick_cases env h.inv' h.impl' out with ⟨ho', -⟩ | ⟨-, -, he'⟩ | ⟨-, hv', -⟩ | ⟨-, hv', -⟩
    · rw [ho] at ho'
      exact absurd ho' (by decide)
    · rw [hsame] at he'
      rw [h.plan] at he
      rw [h.plan'] at he'
      exact stepsAlike_after h he he' (sim_resetRoot env P _ _ h.related).2
    all_goals exact absurd (hsame.symm.trans hv') hv
  all_goals
    obtain ⟨hres, hrel⟩ := sim_tickNode hw henv P.maxDepth P.root _ _ h.related
    simp only [h.plan] at hrun he
    rw [hrun] at hres hrel
    rcases treeTick_cases env h.inv' h.impl' out with
      ⟨ho', -⟩ | ⟨-, hv', -⟩ | ⟨-, -, status', w', hrun', he'⟩ | ⟨-, -, f', w', hrun', he'⟩
    · rw [ho] at ho'
      exact absurd ho' (by decide)
    · exact absurd (hsame.trans hv) hv'
    all_goals
      simp only [h.plan'] at hrun' he'
      rw [hrun'] at hres hrel
  · obtain rfl := Except.ok.inj hres
    exact stepsAlike_after h he he' hrel
  · exact absurd hres (by simp)
  · exact absurd hres (by simp)
  · obtain rfl := Except.error.inj hres
    exact stepsAlike_after h he he' (sim_resetRoot env P _ _ hrel).2

theorem stepsAlike_exec
    (hcall : call.executes = true) : StepsAlike P env s s' call := by
  cases call with
  | tick out => exact stepsAlike_tick henv h out
  | reset => exact stepsAlike_reset h (Or.inl rfl)
  | cancel => exact stepsAlike_reset h (Or.inr rfl)
  | validate =>
    apply stepsAlike_same h rfl
    show (treeValidate s', s') = (treeValidate s, s')
    simp only [treeValidate, h.impl, h.impl',
      validateImpl_plan h.inv h.inv' (h.plan'.trans h.plan.symm)]
  | _ => exact absurd hcall (by simp [Call.executes])

theorem observe_alike (calls : List Call) (hcalls : ∀ call ∈ calls, call.executes = true) :
    eraseObserved P (observe env s calls) = eraseObserved P (observe env s' calls) := by
  induction calls generalizing s s' t t' with
  | nil => rfl
  | cons call calls ih =>
    obtain ⟨ho, hevents, u, u', hu⟩ := stepsAlike_exec henv h (hcalls call List.mem_cons_self)
    have hrest := ih hu (fun c hc => hcalls c (List.mem_cons_of_mem call hc))
    simp only [eraseObserved, observe, List.map_cons] at hrest ⊢
    rw [ho, hevents, hrest]

end

end Observation

section Restart
variable {env : Env σ} {config : TreeConfig} {e : σ} {s₀ : System σ} {calls : List Call}
  {t : Impl} {call : Call}

/-- The tree that the building calls of a run give in an environment in state `e`. -/
def rebuild (env : Env σ) (config : TreeConfig) (e : σ) (calls : List Call) : System σ :=
  runCalls env ⟨some (emptyImpl config), e, []⟩ (calls.filter Call.builds)

theorem stops_atRest (h : Reachable env s) (hs : s.impl = some t) (hstop : Stops env s call)
    (hcall : call ≠ .destroy) :
    ∃ t', (exec env s call).2.impl = some t' ∧ t'.plan = t.plan ∧ AtRest t.plan t'.nodes := by
  have hinv := inv_reachable h hs
  have ht := hinv.built.toTopology
  obtain ⟨w, hsteps, hexec⟩ := stops_reset hinv hs hstop
  rw [if_neg hcall] at hexec
  rw [hexec]
  refine ⟨_, rfl, rfl, ?_⟩
  apply atRest_resetRoot ht env (typed_steps ht hsteps hinv.typed)
  intro i hi
  rw [outside_steps ht hsteps hi]
  exact outside_reachable h hs i hi

theorem reset_again (hinv : ImplInv t) (hs : s.impl = some t) (hrest : AtRest t.plan t.nodes)
    (hcall : call = .reset ∨ call = .cancel) :
    (exec env s call).2.impl = some t ∧ (exec env s call).2.env = s.env ∧
      newEvents s (exec env s call).2 = [] := by
  have hexec : exec env s call = treeReset env s := by
    rcases hcall with rfl | rfl <;> rfl
  have hbusy : t = { t with busy := false } := by
    rw [← hinv.busy]
  rw [hexec, treeReset_eq hinv hs, resetRoot_rest hinv.built.toTopology env hrest, newEvents_after]
  refine ⟨?_, rfl, rfl⟩
  rw [hbusy]
  rfl

/-- After a reset, a cancellation or a failed tick each node of a tree is as its
constructor left it, but for the parameters that its resolver sets. The tree
then shows, in every series of ticks, what the newly built tree shows in the
same environment if resolvers overwrite what they set. A further reset changes
nothing and invokes nothing. -/
theorem restart_equivalence (hinit : treeInit config e = .ok s₀)
    (hs : (runCalls env s₀ calls).impl = some t)
    (hstop : Stops env (runCalls env s₀ calls) call) (hcall : call ≠ .destroy) :
    ∃ t' f,
      (exec env (runCalls env s₀ calls) call).2.impl = some t' ∧ t'.plan = t.plan ∧
      Rebuilt (exec env (runCalls env s₀ calls) call).2.env
        (rebuild env config (exec env (runCalls env s₀ calls) call).2.env calls) f ∧
      f.plan = t.plan ∧
      (∀ i, SameButMasked t.plan i (f.nodes i) (t'.nodes i)) ∧
      (Overwrites t.plan env →
        ∀ later : List Call, (∀ c ∈ later, c.executes = true) →
          eraseObserved t.plan
              (observe env (exec env (runCalls env s₀ calls) call).2 later) =
            eraseObserved t.plan (observe env
              (rebuild env config (exec env (runCalls env s₀ calls) call).2.env calls) later)) ∧
      ∀ again, again = .reset ∨ again = .cancel →
        (exec env (exec env (runCalls env s₀ calls) call).2 again).2.impl = some t' ∧
        (exec env (exec env (runCalls env s₀ calls) call).2 again).2.env =
          (exec env (runCalls env s₀ calls) call).2.env ∧
        newEvents (exec env (runCalls env s₀ calls) call).2
          (exec env (exec env (runCalls env s₀ calls) call).2 again).2 = [] := by
  have hreach : Reachable env (runCalls env s₀ calls) := ⟨config, e, s₀, calls, hinit, rfl⟩
  have hinv := inv_reachable hreach hs
  obtain ⟨t', hs', hplan', hrest⟩ := stops_atRest hreach hs hstop hcall
  have hinv' : ImplInv t' := inv_effect hinv hs (exec_effect env hinv hs call) hs'
  obtain ⟨hs₀, hstart⟩ := rebuilt_init hinit (exec env (runCalls env s₀ calls) call).2.env
  obtain ⟨f, hf, hplan⟩ := rebuilt_runCalls calls (inv_init hinit hs₀) hs₀ hstart rfl hs
  have hsame : ∀ i, SameButMasked t.plan i (f.nodes i) (t'.nodes i) := by
    rw [hf.nodes, hplan]
    exact hrest
  have halike : Alike t.plan
      (rebuild env config (exec env (runCalls env s₀ calls) call).2.env calls)
      (exec env (runCalls env s₀ calls) call).2 f t' :=
    ⟨hf.impl, hs', hplan, hplan', hf.inv, hinv', hf.env.symm, hsame, fun i hi => hi.elim, rfl⟩
  refine ⟨t', f, hs', hplan', hf, hplan, hsame, ?_, ?_⟩
  · intro henv later hlater
    exact (observe_alike henv halike later hlater).symm
  · intro again hagain
    exact reset_again hinv' hs' (hplan' ▸ hrest) hagain

end Restart

section Examples

/-- Leaves answer from a script and the resolver allows two attempts. -/
def retrying : Env (List ℤ) := fun script q =>
  match q with
  | .resolver .. => (⟨.ok, 0, false, 0, 2, 0, 0⟩, script)
  | q => scripted script q

/-- A Retry of three attempts whose resolver allows two, ticked while its leaf is RUNNING. -/
def retryCalls : List Call :=
  [.addNodeWithLimit 0 .retry false 3 true, .addLeaf 1 true true true true,
    .setNodeParametersResolver 1 1 (some 7) 0, .tick true]

theorem overwrites_retrying (P : Plan) : Overwrites P retrying :=
  fun _ _ _ _ _ _ _ _ _ _ => rfl

theorem restart_equivalence_retry :
    let s := runCalls retrying ⟨some (emptyImpl treeConfigInit), [1, 2, 1, 0], []⟩ retryCalls
    let stopped := (exec retrying s .reset).2
    ∃ P, eraseObserved P (observe retrying stopped [.tick true, .tick true]) =
      eraseObserved P (observe retrying (rebuild retrying treeConfigInit stopped.env retryCalls)
        [.tick true, .tick true]) := by
  obtain ⟨t, ht⟩ : ∃ t, (runCalls retrying
      ⟨some (emptyImpl treeConfigInit), [1, 2, 1, 0], []⟩ retryCalls).impl = some t :=
    Option.isSome_iff_exists.mp (by decide +kernel)
  have hinit : treeInit treeConfigInit ([1, 2, 1, 0] : List ℤ) =
      .ok ⟨some (emptyImpl treeConfigInit), [1, 2, 1, 0], []⟩ := rfl
  obtain ⟨t', f, -, -, -, -, -, hobserve, -⟩ :=
    restart_equivalence hinit ht (Or.inl rfl) (by decide)
  exact ⟨t.plan, hobserve (overwrites_retrying t.plan) _ (by decide)⟩

/-- A tick without a place for its status fails and restarts nothing. -/
theorem refused_tick_restarts_nothing :
    Reachable scripted runningSequence ∧
      (exec scripted runningSequence (.tick false)).1.code ≠ .ok ∧
      ∃ t', (exec scripted runningSequence (.tick false)).2.impl = some t' ∧
        (t'.nodes 2).running = true ∧ ¬ AtRest t'.plan t'.nodes := by
  refine ⟨runningSequence_reachable, by decide +kernel, ?_⟩
  obtain ⟨t, ht⟩ : ∃ t, runningSequence.impl = some t :=
    Option.isSome_iff_exists.mp (by decide +kernel)
  have hrunning : runningSequence.impl.map (fun t => (t.nodes 2).running) = some true := by
    decide +kernel
  rw [ht] at hrunning
  have hrunning : (t.nodes 2).running = true := Option.some.inj hrunning
  refine ⟨t, ?_, hrunning, ?_⟩
  · simp [exec, treeTick, ht]
  · intro hrest
    rw [atRest_form hrest 2] at hrunning
    exact absurd hrunning (by simp [freshState])

end Examples

end SaltsUtils.BehaviorTree
