import SaltsUtils.BehaviorTree.Runs

/-!
# Work that is left, and validation
-/

set_option autoImplicit false

/-!
## Work is left only where a tree says so

Two consequences of the activity invariant, for every run. A terminal status leaves
nothing active in the subtree that returned it.
-/

namespace SaltsUtils.BehaviorTree
open SaltsUtils.Forest

variable {σ : Type}

section Terminal
variable {env : Env σ} {s : System σ} {t : Impl}

/-- A return of `tick_node` with a terminal status leaves an idle subtree. -/
def VisitQuiet (P : Plan) (v : Visit) : Prop :=
  ∀ status, v.result = .ok status → status ≠ .running → Idle P v.nodes v.node

/-- Only callbacks make `tick_node` fail. -/
def VisitBlamed (v : Visit) : Prop := ∀ f, v.result = .error f → f.cause = .callback

theorem visits_act {P : Plan} (ht : Topology P) {j : ℕ} {w w' : World σ}
    (hv : nodeIdValid P j = true) (ha : Act P env j w w')
    (h : ∀ v ∈ w.visits, VisitQuiet P v ∧ VisitBlamed v) :
    ∀ v ∈ w'.visits, VisitQuiet P v ∧ VisitBlamed v := by
  cases ha with
  | handler hk =>
    rw [tickLeaf_world]
    cases statusOf (w.answer env (.handler j)).status with
    | none => exact h
    | some status => exact h
  | give_up h₁ h₂ h₃ =>
    rw [resetNodeState, reset_visits env ht false hv]
    exact h
  | reset hk hjk =>
    rw [reset_visits env ht _ hk]
    exact h
  | visit hquiet hblamed =>
    intro v hmem
    rcases List.mem_append.mp hmem with hmem | hmem
    · exact h v hmem
    · rw [List.mem_singleton.mp hmem]
      exact ⟨hquiet, hblamed⟩
  | _ => exact h

theorem visits_steps {P : Plan} (ht : Topology P) {i : ℕ} {w w' : World σ}
    (h : Steps P env i w w') (hw : ∀ v ∈ w.visits, VisitQuiet P v ∧ VisitBlamed v) :
    ∀ v ∈ w'.visits, VisitQuiet P v ∧ VisitBlamed v :=
  steps_invariant (I := fun u => ∀ v ∈ u.visits, VisitQuiet P v ∧ VisitBlamed v) h
    (fun _ _ _ hv _ ha hu => visits_act ht hv ha hu) hw

theorem history_visits (h : Reachable env s) :
    ∀ r ∈ s.history, ∀ v ∈ r.visits, VisitQuiet r.plan v ∧ VisitBlamed v := by
  apply reachable_invariant (I := fun s => ∀ r ∈ s.history, ∀ v ∈ r.visits,
    VisitQuiet r.plan v ∧ VisitBlamed v) h
  · intro config e s₀ hs₀ r hr
    rw [treeInit] at hs₀
    split_ifs at hs₀
    rw [← Except.ok.inj hs₀] at hr
    exact absurd hr List.not_mem_nil
  · intro s t s' hs hinv heffect hI
    have ht := hinv.built.toTopology
    have happend : ∀ w : World σ, Steps t.plan env t.plan.root (s.start t) w →
        ∀ r ∈ s.history ++ [⟨t.plan, w.trace, w.visits⟩], ∀ v ∈ r.visits,
          VisitQuiet r.plan v ∧ VisitBlamed v := by
      intro w hsteps r hr
      rcases List.mem_append.mp hr with hr | hr
      · exact hI r hr
      · rw [List.mem_singleton.mp hr]
        exact visits_steps ht hsteps (fun v hv => absurd hv List.not_mem_nil)
    cases heffect with
    | unchanged => exact hI
    | added ha => exact hI
    | program hsteps hgood => exact happend _ hsteps
    | resolver hv hmask hzero htargets hw =>
      apply happend
      rw [hw]
      exact steps_below (below_root ht hv) (steps_act hv steps_refl (Act.reset hv (below_refl _)))
    | destroyed hw =>
      apply happend
      rw [hw]
      exact resetRoot_steps ht _

/-- A terminal status means that nothing is left active below the node that
returned it: for every return inside the calls so far, for a tick of any node
of a valid tree now, and for the tick of the whole tree. -/
theorem terminal_status_leaves_idle (h : Reachable env s) (hs : s.impl = some t)
    (hv : validateImpl t = .ok) :
    (∀ r ∈ s.history, ∀ v ∈ r.visits, ∀ status, v.result = .ok status → status ≠ .running →
      Idle r.plan v.nodes v.node) ∧
    (∀ id, nodeIdValid t.plan id = true → ∀ status w,
      tickNode t.plan env (t.plan.maxDepth+1-(t.plan.node id).depth) id (s.start t) =
        (.ok status, w) → status ≠ .running → Idle t.plan w.nodes id) ∧
    (∀ status, (treeTick env s true).1.status = some status → status ≠ .running →
      ∃ t', (treeTick env s true).2.impl = some t' ∧ t'.plan = t.plan ∧
        Idle t.plan t'.nodes t.plan.root) := by
  have hinv := inv_reachable h hs
  refine ⟨fun r hr v hvis => (history_visits h r hr v hvis).1, ?_, ?_⟩
  · intro id hid status w hrun hne
    have hpost := tickNode_sound env (validate_plan hinv.built hv).1
      (t.plan.maxDepth+1-(t.plan.node id).depth) hid (by omega) (s.start t) hinv.typed
      (fun j hj => hinv.good j (below_valid hid hj))
    rw [hrun] at hpost
    exact (hpost.ok status rfl).2 hne
  · intro status hstatus hne
    rcases treeTick_cases env hinv hs true with
      ⟨ho, -⟩ | ⟨-, hnv, -⟩ | ⟨-, -, status', w, hrun, htick⟩ | ⟨-, -, f, w, -, htick⟩
    · exact absurd ho (by decide)
    · exact absurd hv hnv
    · rw [htick] at hstatus ⊢
      obtain rfl := Option.some.inj hstatus
      have hpost := root_tick_sound env hinv hv s.env [] []
      rw [System.start] at hrun
      rw [hrun] at hpost
      exact ⟨_, rfl, rfl, (hpost.ok status' rfl).2 hne⟩
    · rw [htick] at hstatus
      exact absurd hstatus (by simp [Outcome.ofCode])

/-- Leaves answer from a script; every other callback succeeds. -/
def scripted : Env (List ℤ) := fun script q =>
  match q with
  | .handler _ => (⟨.ok, script.headD 0, false, 0, 0, 0, 0⟩, script.tail)
  | _ => (⟨.ok, 0, false, 0, 0, 0, 0⟩, script)

def runningSequence : System (List ℤ) :=
  runCalls scripted ⟨some (emptyImpl treeConfigInit), [2, 0, 0], []⟩
    [.addNode 0 .sequence false true, .addLeaf 1 true true true true,
      .addLeaf 1 true true true true, .tick true]

theorem runningSequence_reachable : Reachable scripted runningSequence :=
  ⟨treeConfigInit, [2, 0, 0], _, _, rfl, rfl⟩

/-- The next tick of that Sequence succeeds and leaves nothing active. -/
theorem terminal_status_leaves_idle_sequence :
    (treeTick scripted runningSequence true).1.status = some .success ∧
      ∃ t', (treeTick scripted runningSequence true).2.impl = some t' ∧
        Idle t'.plan t'.nodes t'.plan.root := by
  have hstatus : (treeTick scripted runningSequence true).1.status = some .success := by
    decide +kernel
  obtain ⟨t, ht⟩ : ∃ t, runningSequence.impl = some t :=
    Option.isSome_iff_exists.mp (by decide +kernel)
  have hmap : runningSequence.impl.map validateImpl = some .ok := by decide +kernel
  have hv : validateImpl t = .ok := by
    rw [ht] at hmap
    exact Option.some.inj hmap
  obtain ⟨t', ht', hplan, hidle⟩ :=
    (terminal_status_leaves_idle runningSequence_reachable ht hv).2.2 .success hstatus (by decide)
  exact ⟨hstatus, t', ht', by rw [hplan]; exact hidle⟩

end Terminal

section Chain

/-- Node `i` has selected its child `c`. -/
def Selects (P : Plan) (ns : ℕ → NodeState) (i c : ℕ) : Prop :=
  c ≠ 0 ∧ c = activeChild (P.node i) (ns i)

def OnChain (P : Plan) (ns : ℕ → NodeState) : ℕ → ℕ → Prop :=
  Relation.ReflTransGen (Selects P ns)

structure RunningLeaf (t : Impl) (i : ℕ) : Prop where
  valid : nodeIdValid t.plan i = true
  leaf : (t.plan.node i).kind = .leaf
  running : (t.nodes i).running = true

variable {P : Plan} {ns : ℕ → NodeState} {t : Impl}

theorem leaf_selects_none {i c : ℕ} (hk : (P.node i).kind = .leaf) : ¬ Selects P ns i c := by
  rintro ⟨hne, hc⟩
  simp [activeChild, hk] at hc
  exact hne hc

theorem chain_total {i j k : ℕ} (hj : OnChain P ns i j) (hk : OnChain P ns i k) :
    OnChain P ns j k ∨ OnChain P ns k j := by
  apply Relation.ReflTransGen.total_of_right_unique _ hj hk
  intro a b c hb hc
  exact hb.2.trans hc.2.symm

theorem chain_leaf {i j : ℕ} (h : OnChain P ns i j) (hk : (P.node i).kind = .leaf) : j = i := by
  rcases Relation.ReflTransGen.cases_head h with h | ⟨c, hc, -⟩
  · exact h.symm
  · exact absurd hc (leaf_selects_none hk)

theorem running_on_chain (hinv : ImplInv t)
    (hpar : ∀ i, nodeIdValid t.plan i = true → (t.plan.node i).kind ≠ .parallel) {i j : ℕ}
    (hi : nodeIdValid t.plan i = true) (hij : Below t.plan i j) (hj : RunningLeaf t j) :
    OnChain t.plan t.nodes i j := by
  induction hij using Relation.ReflTransGen.head_induction_on with
  | refl => exact Relation.ReflTransGen.refl
  | head hc hbelow ih =>
    apply Relation.ReflTransGen.head _ (ih hc.1)
    refine ⟨(nodeIdValid_iff.mp hc.1).1, (hinv.good _ hi).active (hpar _ hi) _ hc ?_⟩
    intro hidle
    have hrest := (hidle j hbelow).1.running hj.leaf
    rw [hj.running] at hrest
    exact absurd hrest (by decide)

/-- Without Parallel at most one leaf is running between calls, and the chain of
cursors, single children and in-tree conditions from the root ends at it. -/
theorem single_running_leaf {env : Env σ} {s : System σ} (h : Reachable env s)
    (hs : s.impl = some t)
    (hpar : ∀ i, nodeIdValid t.plan i = true → (t.plan.node i).kind ≠ .parallel) :
    (∀ i j, RunningLeaf t i → RunningLeaf t j → i = j) ∧
      (∀ i, RunningLeaf t i → OnChain t.plan t.nodes t.plan.root i) := by
  have hinv := inv_reachable h hs
  have ht := hinv.built.toTopology
  have hchain : ∀ i, RunningLeaf t i → OnChain t.plan t.nodes t.plan.root i := by
    intro i hi
    exact running_on_chain hinv hpar (root_valid_of_valid ht hi.valid) (below_root ht hi.valid) hi
  refine ⟨?_, hchain⟩
  intro i j hi hj
  rcases chain_total (hchain i hi) (hchain j hj) with h | h
  · exact (chain_leaf h hi.leaf).symm
  · exact chain_leaf h hj.leaf

/-- In the Sequence above the running leaf is its first child. -/
theorem single_running_leaf_sequence :
    ∃ t, runningSequence.impl = some t ∧ RunningLeaf t 2 ∧
      ∀ i, RunningLeaf t i → i = 2 := by
  obtain ⟨t, ht⟩ : ∃ t, runningSequence.impl = some t :=
    Option.isSome_iff_exists.mp (by decide +kernel)
  have hleaf : runningSequence.impl.map (fun t => nodeIdValid t.plan 2 &&
      decide ((t.plan.node 2).kind = .leaf) && (t.nodes 2).running) = some true := by
    decide +kernel
  have hkinds : runningSequence.impl.map (fun t => (List.range' 1 t.plan.nodeCount).all
      (fun i => decide ((t.plan.node i).kind ≠ .parallel))) = some true := by
    decide +kernel
  rw [ht] at hleaf hkinds
  simp only [Option.map_some, Option.some.injEq, Bool.and_eq_true, decide_eq_true_eq,
    List.all_eq_true] at hleaf hkinds
  have hrunning : RunningLeaf t 2 := ⟨hleaf.1.1, hleaf.1.2, hleaf.2⟩
  have hpar : ∀ i, nodeIdValid t.plan i = true → (t.plan.node i).kind ≠ .parallel := by
    intro i hi
    apply hkinds i
    rw [List.mem_range'_1]
    have := nodeIdValid_iff.mp hi
    omega
  have hsingle := single_running_leaf runningSequence_reachable ht hpar
  exact ⟨t, ht, hrunning, fun i hi => hsingle.1 i 2 hi hrunning⟩

end Chain

/-!
## Validation is sufficient and stable

Of the conditions that `validate_impl` checks only the limits can change in a run, and
they always satisfy it: a limit is the configured one or one that the resolver check has
admitted.
-/

section Stable
variable {t : Impl}

theorem limitStateAccepted_typed (hw : WellBuilt t.plan) (htyped : Typed t.plan t.nodes) {i : ℕ}
    (hi : nodeIdValid t.plan i = true) :
    limitStateAccepted t.plan.maxControlIterations (t.plan.node i) (t.nodes i).limit = true := by
  have hlimit := (hw.configured i hi).limit
  cases hm : maskLimit (t.plan.node i).dynamicParameterMask with
  | true =>
    have hle := (htyped i hi).limit_dynamic hm
    simp [limitStateAccepted, hm, hle]
  | false =>
    rw [(htyped i hi).limit_static hm]
    cases hk : (t.plan.node i).kind <;> rw [hk] at hlimit <;>
      simp [limitAccepted] at hlimit <;> simp [limitStateAccepted, hk, hlimit]

/-- The part of the plan that decides whether a tree at rest is valid. -/
def PlanAccepted (P : Plan) : Prop :=
  nodeIdValid P P.root = true ∧ ∀ i, nodeIdValid P i = true →
    arityAccepted (P.node i) = true ∧ callbacksAccepted (P.node i) = true

theorem depth_ne_zero {P : Plan} (ht : Topology P) {i : ℕ} (hi : nodeIdValid P i = true) :
    (P.node i).depth ≠ 0 := by
  by_cases hp : (P.node i).parent = 0
  · rw [ht.depth_root i hi hp]
    decide
  · rw [ht.depth_child (P.node i).parent i ⟨hi, hp, rfl⟩]
    omega

theorem root_parent {P : Plan} (ht : Topology P) (hr : nodeIdValid P P.root = true) :
    (P.node P.root).parent = 0 := by
  have hlt := ht.parent_lt P.root hr
  have hroot := ht.root_eq
  omega

theorem validate_iff (hinv : ImplInv t) : validateImpl t = .ok ↔ PlanAccepted t.plan := by
  have ht := hinv.built.toTopology
  constructor
  · intro hv
    obtain ⟨hplan, hroot⟩ := validate_plan hinv.built hv
    exact ⟨hroot, fun i hi => ⟨hplan.arity i hi, hplan.callbacks i hi⟩⟩
  · rintro ⟨hroot, hnodes⟩
    have hall : (List.range' 1 t.plan.nodeCount).all
        (fun i => validateNode t.plan (t.plan.node i) (t.nodes i)) = true := by
      rw [List.all_eq_true]
      intro i hi
      have hi : nodeIdValid t.plan i = true := by
        rw [List.mem_range'_1] at hi
        exact nodeIdValid_iff.mpr ⟨by omega, by omega⟩
      simp [validateNode, (hnodes i hi).1, (hnodes i hi).2, depth_ne_zero ht hi,
        ht.depth_le i hi, limitStateAccepted_typed hinv.built hinv.typed hi]
    rw [validateImpl, if_neg (by simp [hroot]), if_neg (by simp [root_parent ht hroot]),
      if_pos hall]

theorem planAccepted_withResolver {P : Plan} {id mask : ℕ} {resolver : Option ℕ} {user : ℕ}
    (h : PlanAccepted P) (hmask : mask < 3) (hzero : mask = 0 ↔ resolver = none)
    (htargets : resolverTargets (P.node id).kind mask = true) :
    PlanAccepted (withResolver P id mask resolver user) := by
  refine ⟨h.1, ?_⟩
  intro i hi
  obtain ⟨harity, hcallbacks⟩ := h.2 i hi
  by_cases hid : i = id
  · subst hid
    rw [withResolver_self]
    refine ⟨harity, ?_⟩
    simp only [resolverTargets, Bool.and_eq_true] at htargets
    simp only [callbacksAccepted, Bool.and_eq_true, decide_eq_true_eq] at hcallbacks ⊢
    obtain ⟨⟨⟨⟨⟨⟨⟨⟨⟨⟨⟨⟨h₁, h₂⟩, h₃⟩, h₄⟩, h₅⟩, h₆⟩, h₇⟩, h₈⟩, h₉⟩, h₁₀⟩, h₁₁⟩, h₁₂⟩, h₁₃⟩ :=
      hcallbacks
    exact ⟨⟨⟨⟨⟨⟨⟨⟨⟨⟨⟨⟨h₁, by omega⟩, htargets.1⟩, htargets.2⟩, by simp [hzero]⟩, h₆⟩, h₇⟩, h₈⟩,
      h₉⟩, h₁₀⟩, h₁₁⟩, h₁₂⟩, h₁₃⟩
  · rw [withResolver_other hid]
    exact ⟨harity, hcallbacks⟩

end Stable

section Later
variable {env : Env σ} {s s' : System σ} {t : Impl}

def Call.keepsTree : Call → Bool
  | .setNodeParametersResolver .. | .tick _ | .reset | .cancel | .validate => true
  | _ => false

def ValidSystem (s : System σ) : Prop := ∃ t, s.impl = some t ∧ ImplInv t ∧ PlanAccepted t.plan

theorem valid_after (hinv : ImplInv t) (hplan : PlanAccepted t.plan) {w : World σ}
    (hsteps : Steps t.plan env t.plan.root (s.start t) w)
    (hgood : ∀ i, nodeIdValid t.plan i = true → NodeInv t.plan w.nodes i) :
    ValidSystem (s.after t w) :=
  ⟨_, rfl, ⟨rfl, hinv.built, typed_steps hinv.built.toTopology hsteps hinv.typed, hgood⟩, hplan⟩

theorem treeTick_valid (hs : s.impl = some t) (hinv : ImplInv t) (hplan : PlanAccepted t.plan)
    (out : Bool) : ValidSystem (treeTick env s out).2 := by
  have ht := hinv.built.toTopology
  have hv := (validate_iff hinv).mpr hplan
  have hpost := root_tick_sound env hinv hv s.env [] []
  rcases treeTick_cases env hinv hs out with
    ⟨-, h⟩ | ⟨-, hnv, -⟩ | ⟨-, -, status, w, hrun, h⟩ | ⟨-, -, f, w, hrun, h⟩
  · rw [h]
    exact ⟨t, hs, hinv, hplan⟩
  · exact absurd hv hnv
  · rw [System.start] at hrun
    rw [hrun] at hpost
    rw [h]
    exact valid_after hinv hplan hpost.steps
      (fun i hi => (hpost.ok status rfl).1 i (below_root ht hi))
  · rw [System.start] at hrun
    rw [hrun] at hpost
    rw [h]
    exact valid_after hinv hplan (steps_trans hpost.steps (resetRoot_steps ht w))
      (fun i hi => resetRoot_inv ht w hi)

theorem exec_valid (h : ValidSystem s) {call : Call} (hcall : call.keepsTree = true) :
    ValidSystem (exec env s call).2 := by
  obtain ⟨t, hs, hinv, hplan⟩ := h
  have ht := hinv.built.toTopology
  have hreset : ValidSystem (treeReset env s).2 := by
    rw [treeReset_eq hinv hs]
    exact valid_after hinv hplan (resetRoot_steps ht _) (fun i hi => resetRoot_inv ht _ hi)
  cases call with
  | tick out => exact treeTick_valid hs hinv hplan out
  | reset => exact hreset
  | cancel => exact hreset
  | validate => exact ⟨t, hs, hinv, hplan⟩
  | setNodeParametersResolver id mask resolver user =>
    have hinv' : ∀ t', (setNodeParametersResolver env s id mask resolver user).2.impl = some t' →
        ImplInv t' :=
      fun _ => inv_effect hinv hs (resolver_effect env hinv hs id mask resolver user)
    rcases resolver_cases env hinv hs id mask resolver user with
      h | ⟨m, r, u, hv, hm, hzero, htargets, h⟩
    · show ValidSystem (setNodeParametersResolver env s id mask resolver user).2
      rw [h]
      exact ⟨t, hs, hinv, hplan⟩
    · rw [h] at hinv'
      show ValidSystem (setNodeParametersResolver env s id mask resolver user).2
      rw [h]
      exact ⟨_, rfl, hinv' _ rfl, planAccepted_withResolver hplan hm hzero htargets⟩
  | _ => exact absurd hcall (by simp [Call.keepsTree])

variable (env) in
theorem runCalls_valid (h : ValidSystem s) (calls : List Call)
    (hcalls : ∀ call ∈ calls, call.keepsTree = true) : ValidSystem (runCalls env s calls) := by
  induction calls generalizing s with
  | nil => exact h
  | cons call calls ih =>
    exact ih (exec_valid h (hcalls call List.mem_cons_self))
      (fun c hc => hcalls c (List.mem_cons_of_mem call hc))

variable (env) in
theorem treeTick_blamed (hs : s.impl = some t) (hinv : ImplInv t) (hplan : PlanAccepted t.plan) :
    ∃ r, (treeTick env s true).2.history = s.history ++ [r] ∧ r.plan = t.plan ∧
      ((treeTick env s true).1.code = .ok ∨
        ∃ e ∈ r.events, faultOf t.plan e = some (treeTick env s true).1.code) ∧
      ∀ f, (tickNode t.plan env t.plan.maxDepth t.plan.root (s.start t)).1 = .error f →
        f.cause = .callback := by
  have ht := hinv.built.toTopology
  have hv := (validate_iff hinv).mpr hplan
  have hpost := root_tick_sound env hinv hv s.env [] []
  have hcause : ∀ f, (tickNode t.plan env t.plan.maxDepth t.plan.root (s.start t)).1 = .error f →
      f.cause = .callback := fun f hf => (hpost.error f hf).1
  rcases treeTick_cases env hinv hs true with
    ⟨ho, -⟩ | ⟨-, hnv, -⟩ | ⟨-, -, status, w, hrun, h⟩ | ⟨-, -, f, w, hrun, h⟩
  · exact absurd ho (by decide)
  · exact absurd hv hnv
  · rw [h]
    exact ⟨_, rfl, rfl, Or.inl rfl, hcause⟩
  · rw [h]
    refine ⟨_, rfl, rfl, Or.inr ?_, hcause⟩
    rw [System.start] at hrun
    rw [hrun] at hpost
    obtain ⟨-, e, ⟨evs, hevs, he⟩, hfault⟩ :=
      blamed_frame (hpost.error f rfl) (frame_steps ht (resetRoot_steps ht w))
    refine ⟨e, ?_, hfault⟩
    rw [hevs]
    exact List.mem_append_right _ he

/-- A valid tree stays valid through every later series of ticks, resets,
cancellations and resolver changes. Each such tick that has somewhere to store
its status succeeds or fails with the code of a callback; no return of
`tick_node` is due to one of its internal checks. -/
theorem validation_sufficient_and_stable (h : Reachable env s) (hv : (treeValidate s).code = .ok)
    (calls : List Call) (hcalls : ∀ call ∈ calls, call.keepsTree = true) :
    (treeValidate (runCalls env s calls)).code = .ok ∧
      ∃ t r, (runCalls env s calls).impl = some t ∧
        (treeTick env (runCalls env s calls) true).2.history =
          (runCalls env s calls).history ++ [r] ∧
        ((treeTick env (runCalls env s calls) true).1.code = .ok ∨
          ∃ e ∈ r.events, faultOf t.plan e =
            some (treeTick env (runCalls env s calls) true).1.code) ∧
        (∀ f, (tickNode t.plan env t.plan.maxDepth t.plan.root
          ((runCalls env s calls).start t)).1 = .error f → f.cause = .callback) ∧
        ∀ v ∈ r.visits, ∀ f, v.result = .error f → f.cause = .callback := by
  have hvalid : ValidSystem s := by
    cases hs : s.impl with
    | none =>
      rw [treeValidate, hs] at hv
      exact absurd hv (by simp [Outcome.ofCode])
    | some t =>
      rw [treeValidate, hs] at hv
      have hinv := inv_reachable h hs
      exact ⟨t, hs, hinv, (validate_iff hinv).mp hv⟩
  obtain ⟨t, hs, hinv, hplan⟩ := runCalls_valid env hvalid calls hcalls
  obtain ⟨r, hhistory, -, hcode, hcause⟩ := treeTick_blamed env hs hinv hplan
  refine ⟨?_, t, r, hs, hhistory, hcode, hcause, ?_⟩
  · rw [treeValidate, hs]
    exact (validate_iff hinv).mpr hplan
  · intro v hvis
    have hreach := reachable_runCalls (reachable_runCalls h calls) [.tick true]
    apply (history_visits hreach r _ v hvis).2
    show r ∈ (treeTick env (runCalls env s calls) true).2.history
    rw [hhistory]
    exact List.mem_append_right _ (List.mem_singleton_self r)

theorem validation_sufficient_and_stable_sequence :
    (treeValidate runningSequence).code = .ok ∧
      (treeValidate (runCalls scripted runningSequence [.tick true, .reset, .tick true])).code =
        .ok := by
  have hv : (treeValidate runningSequence).code = .ok := by decide +kernel
  exact ⟨hv, (validation_sufficient_and_stable runningSequence_reachable hv
    [.tick true, .reset, .tick true] (by decide)).1⟩

/-- A tick without a place for its status is refused before anything is run: the
tree is valid, no callback is invoked and the code is not OK. -/
theorem tick_without_status_refused :
    Reachable scripted runningSequence ∧ (treeValidate runningSequence).code = .ok ∧
      (treeTick scripted runningSequence false).1.code = .einval ∧
      (treeTick scripted runningSequence false).2 = runningSequence := by
  refine ⟨runningSequence_reachable, by decide +kernel, by decide +kernel, ?_⟩
  obtain ⟨t, ht⟩ : ∃ t, runningSequence.impl = some t :=
    Option.isSome_iff_exists.mp (by decide +kernel)
  simp [treeTick, ht]

end Later

end SaltsUtils.BehaviorTree
