import SaltsUtils.BehaviorTree.TickSound

/-!
# Runs of calls

What each call can do to a system is said once: it changes nothing, it adds a node, it
runs a node program under the plan of the tree, and after such a program it may replace a
resolver or drop the tree.
-/

set_option autoImplicit false

namespace SaltsUtils.BehaviorTree
open SaltsUtils.Forest

variable {σ : Type}

/-- The invariant of a tree at rest. -/
structure ImplInv (t : Impl) : Prop where
  busy : t.busy = false
  built : WellBuilt t.plan
  typed : Typed t.plan t.nodes
  good : ∀ i, nodeIdValid t.plan i = true → NodeInv t.plan t.nodes i

def resolvedImpl (t : Impl) (ns : ℕ → NodeState) (id mask : ℕ) (resolver : Option ℕ) (user : ℕ) :
    Impl :=
  { plan := withResolver t.plan id mask resolver user
    nodes := Function.update ns id { ns id with
      limit := (t.plan.node id).configuredLimit
      durationNs := (t.plan.node id).configuredDurationNs }
    busy := false }

/-- What a call can do to a system with tree `t`. -/
inductive Effect (env : Env σ) (s : System σ) (t : Impl) : System σ → Prop
  | unchanged : Effect env s t s
  | added {t' : Impl} {p : ℕ} {plan : NodePlan} :
      Added t t' p plan → Effect env s t { s with impl := some t' }
  | program {w : World σ} :
      Steps t.plan env t.plan.root (s.start t) w →
      (∀ i, nodeIdValid t.plan i = true → NodeInv t.plan w.nodes i) →
      Effect env s t (s.after t w)
  | resolver {w : World σ} {id mask : ℕ} {resolver : Option ℕ} {user : ℕ} :
      nodeIdValid t.plan id = true → mask < 3 → (mask = 0 ↔ resolver = none) →
      resolverTargets (t.plan.node id).kind mask = true →
      w = (resetNodeStateImpl t.plan env t.plan.nodeCount id true (s.start t)).2 →
      Effect env s t { s.after t w with impl := some (resolvedImpl t w.nodes id mask resolver user) }
  | destroyed {w : World σ} :
      w = (resetRoot t.plan env (s.start t)).2 →
      Effect env s t { s.after t w with impl := none }

variable {i : ℕ}

section Programs
variable {P : Plan} {env : Env σ}

theorem resetRoot_valid (hr : nodeIdValid P P.root = true) :
    resetRoot P env = resetTreeState P env P.root := by
  rw [resetRoot, if_pos (nodeIdValid_iff.mp hr).1]

theorem resetRoot_empty (ht : Topology P) (hr : nodeIdValid P P.root = false) :
    resetRoot P env = pure () := by
  have hroot : P.root = 0 := by
    have hcount : ¬ P.nodeCount ≠ 0 := by
      rw [← root_valid_iff ht, hr]
      decide
    rw [ht.root_eq]
    omega
  rw [resetRoot, if_neg (by simpa using hroot)]

theorem root_valid_of_valid (ht : Topology P) (hi : nodeIdValid P i = true) :
    nodeIdValid P P.root = true := by
  rw [root_valid_iff ht]
  have := nodeIdValid_iff.mp hi
  omega

theorem resetRoot_steps (ht : Topology P) (w : World σ) :
    Steps P env P.root w (resetRoot P env w).2 := by
  cases hr : nodeIdValid P P.root with
  | false =>
    rw [resetRoot_empty ht hr]
    exact steps_refl
  | true =>
    rw [resetRoot_valid hr]
    exact steps_act hr steps_refl (Act.reset hr (below_refl _))

theorem resetRoot_nodes (ht : Topology P) (w : World σ) (hi : nodeIdValid P i = true) :
    (resetRoot P env w).2.nodes i = resetOne P true (decide (i ≠ P.root)) i (w.nodes i) := by
  have hr := root_valid_of_valid ht hi
  rw [resetRoot_valid hr, resetTreeState, reset_nodes env ht true hr]
  simp only [resetNodes, if_pos (below_root ht hi)]

theorem resetRoot_inv (ht : Topology P) (w : World σ) (hi : nodeIdValid P i = true) :
    NodeInv P (resetRoot P env w).2.nodes i := by
  have hr := root_valid_of_valid ht hi
  rw [resetRoot_valid hr, resetTreeState, reset_nodes env ht true hr]
  exact nodeInv_resetNodes ht true (below_root ht hi)

theorem validate_plan {t : Impl} (hw : WellBuilt t.plan) (hv : validateImpl t = .ok) :
    ValidPlan t.plan ∧ nodeIdValid t.plan t.plan.root = true := by
  rw [validateImpl] at hv
  by_cases hroot : nodeIdValid t.plan t.plan.root = true
  · rw [if_neg (by simp [hroot])] at hv
    by_cases hparent : (t.plan.node t.plan.root).parent = 0
    · rw [if_neg (by simpa using hparent)] at hv
      by_cases hall : (List.range' 1 t.plan.nodeCount).all
          (fun i => validateNode t.plan (t.plan.node i) (t.nodes i)) = true
      · have hnode : ∀ i, nodeIdValid t.plan i = true →
            validateNode t.plan (t.plan.node i) (t.nodes i) = true := by
          intro i hi
          apply List.all_eq_true.mp hall
          rw [List.mem_range'_1]
          have := nodeIdValid_iff.mp hi
          omega
        refine ⟨⟨hw.toTopology, ?_, ?_⟩, hroot⟩ <;> intro i hi <;>
          have hn := hnode i hi <;>
          simp only [validateNode, Bool.and_eq_true] at hn
        · exact hn.1.1.2
        · exact hn.1.2
      · rw [if_neg hall] at hv
        exact absurd hv (by decide)
    · rw [if_pos (by simpa using hparent)] at hv
      exact absurd hv (by decide)
  · rw [if_pos (by simpa using hroot)] at hv
    exact absurd hv (by decide)

end Programs

section Tick
variable {env : Env σ} {s : System σ} {t : Impl}

variable (env) in
theorem root_tick_sound (hinv : ImplInv t) (hv : validateImpl t = .ok) (e : σ) (tr : List Event)
    (vs : List Visit) :
    Post t.plan env ⟨t.nodes, e, tr, vs⟩ t.plan.root
      (tickNode t.plan env t.plan.maxDepth t.plan.root ⟨t.nodes, e, tr, vs⟩).1
      (tickNode t.plan env t.plan.maxDepth t.plan.root ⟨t.nodes, e, tr, vs⟩).2 := by
  obtain ⟨hplan, hroot⟩ := validate_plan hinv.built hv
  have hdepth : (t.plan.node t.plan.root).depth = 1 := by
    apply hplan.top.depth_root _ hroot
    rw [validateImpl, if_neg (by simp [hroot])] at hv
    by_contra hne
    rw [if_pos hne] at hv
    exact absurd hv (by decide)
  apply tickNode_sound env hplan t.plan.maxDepth hroot (by omega) _ hinv.typed
  exact fun j hj => hinv.good j (below_valid hroot hj)

variable (env) in
theorem treeTick_cases (hinv : ImplInv t) (hs : s.impl = some t) (out : Bool) :
    (out = false ∧ treeTick env s out = (.ofCode .einval, s)) ∨
    (out = true ∧ validateImpl t ≠ .ok ∧ treeTick env s out =
      (.ofCode (validateImpl t), s.after t (resetRoot t.plan env (s.start t)).2)) ∨
    (out = true ∧ validateImpl t = .ok ∧ ∃ status w,
      tickNode t.plan env t.plan.maxDepth t.plan.root (s.start t) = (.ok status, w) ∧
      treeTick env s out = (⟨.ok, some status, 0⟩, s.after t w)) ∨
    (out = true ∧ validateImpl t = .ok ∧ ∃ f w,
      tickNode t.plan env t.plan.maxDepth t.plan.root (s.start t) = (.error f, w) ∧
      treeTick env s out =
        (.ofCode f.code, s.after t (resetRoot t.plan env w).2)) := by
  cases out with
  | false =>
    left
    exact ⟨rfl, by simp [treeTick, hs]⟩
  | true =>
    right
    by_cases hv : validateImpl t = .ok
    · right
      obtain ⟨-, hroot⟩ := validate_plan hinv.built hv
      cases hr : tickNode t.plan env t.plan.maxDepth t.plan.root (s.start t) with
      | mk r w =>
        cases r with
        | ok status =>
          left
          refine ⟨rfl, hv, status, w, rfl, ?_⟩
          simp only [treeTick, hs, hinv.busy, hv, runProgram]
          simp only [Bind.bind, StateT.bind, hr]
          rfl
        | error f =>
          right
          refine ⟨rfl, hv, f, w, rfl, ?_⟩
          rw [resetRoot_valid hroot]
          simp only [treeTick, hs, hinv.busy, hv, runProgram]
          simp only [Bind.bind, StateT.bind, hr]
          rfl
    · left
      refine ⟨rfl, hv, ?_⟩
      have hprogram : (if nodeIdValid t.plan t.plan.root = true then
          resetTreeState t.plan env t.plan.root else pure ()) = resetRoot t.plan env := by
        cases hroot : nodeIdValid t.plan t.plan.root with
        | false => rw [resetRoot_empty hinv.built.toTopology hroot]; rfl
        | true => rw [resetRoot_valid hroot]; rfl
      simp only [treeTick, hs, hinv.busy, runProgram, hprogram]
      simp [hv]

end Tick

section Effects
variable {env : Env σ} {s : System σ} {t : Impl}

theorem program_resetRoot (hw : WellBuilt t.plan) {w : World σ}
    (hsteps : Steps t.plan env t.plan.root (s.start t) w) :
    Effect env s t (s.after t (resetRoot t.plan env w).2) :=
  Effect.program (steps_trans hsteps (resetRoot_steps hw.toTopology w))
    (fun _ hi => resetRoot_inv hw.toTopology w hi)

theorem treeTick_effect (hinv : ImplInv t) (hs : s.impl = some t) (out : Bool) :
    Effect env s t (treeTick env s out).2 := by
  rcases treeTick_cases env hinv hs out with
    ⟨-, h⟩ | ⟨-, -, h⟩ | ⟨-, hv, status, w, hr, h⟩ | ⟨-, hv, f, w, hr, h⟩ <;> rw [h]
  · exact Effect.unchanged
  · exact program_resetRoot hinv.built steps_refl
  · have hpost := root_tick_sound env hinv hv s.env [] []
    rw [System.start] at hr
    rw [hr] at hpost
    apply Effect.program hpost.steps
    exact fun i hi => (hpost.ok status rfl).1 i (below_root hinv.built.toTopology hi)
  · have hpost := root_tick_sound env hinv hv s.env [] []
    rw [System.start] at hr
    rw [hr] at hpost
    exact program_resetRoot hinv.built hpost.steps

theorem treeReset_eq (hinv : ImplInv t) (hs : s.impl = some t) :
    treeReset env s = (.ofCode .ok, s.after t (resetRoot t.plan env (s.start t)).2) := by
  simp [treeReset, hs, hinv.busy, runProgram]

theorem treeDestroy_eq (hinv : ImplInv t) (hs : s.impl = some t) :
    treeDestroy env s =
      (.ofCode .ok, { s.after t (resetRoot t.plan env (s.start t)).2 with impl := none }) := by
  simp [treeDestroy, hs, hinv.busy, runProgram]

variable (env) in
/-- A resolver call changes nothing, or it replaces the resolver by one that may stand at the
node. -/
theorem resolver_decision (P : Plan) (id mask : ℕ) (resolver : Option ℕ) (user : ℕ) :
    (∀ (s : System σ) (t : Impl), s.impl = some t → t.busy = false → t.plan = P →
      (setNodeParametersResolver env s id mask resolver user).2 = s) ∨
    ∃ m r u, nodeIdValid P id = true ∧ m < 3 ∧ (m = 0 ↔ r = none) ∧
      resolverTargets (P.node id).kind m = true ∧
      ∀ (s : System σ) (t : Impl), s.impl = some t → t.busy = false → t.plan = P →
        (setNodeParametersResolver env s id mask resolver user).2 =
          replaceResolver env s t id m r u := by
  by_cases hv : nodeIdValid P id = true
  · by_cases hmask : 3 < mask ∨ mask = 3
    · left
      intro s t hs hb hp
      simp [setNodeParametersResolver, hs, hb, hp, hv, hmask]
    · cases resolver with
      | none =>
        by_cases hsame : (mask ≠ 0 ∨ user ≠ 0) ∨
            ((P.node id).parameterResolver = none ∧ (P.node id).dynamicParameterMask = 0)
        · left
          intro s t hs hb hp
          simp only [setNodeParametersResolver, hs, hb, hp, hv, hmask]
          rcases hsame with hsame | hsame
          · simp [hsame]
          · simp [hsame.1, hsame.2]
            split_ifs <;> rfl
        · right
          refine ⟨0, none, 0, hv, by omega, by simp, by simp [resolverTargets, maskLimit,
            maskDuration], ?_⟩
          intro s t hs hb hp
          obtain ⟨hargs, hold⟩ := not_or.mp hsame
          simp only [setNodeParametersResolver, hs, hb, hp, hv, hmask]
          rw [if_neg hargs, if_neg hold]
          rfl
      | some r =>
        by_cases hzero : mask = 0
        · left
          intro s t hs hb hp
          simp [setNodeParametersResolver, hs, hb, hp, hv, hzero]
        · by_cases htargets : resolverTargets (P.node id).kind mask = true
          · by_cases hsame : (P.node id).parameterResolver = some r ∧
                (P.node id).parameterUser = user ∧ (P.node id).dynamicParameterMask = mask
            · left
              intro s t hs hb hp
              simp only [setNodeParametersResolver, hs, hb, hp, hv, hmask]
              rw [if_pos hsame]
              simp [hzero, htargets]
            · right
              refine ⟨mask, some r, user, hv, by omega, by simp [hzero], htargets, ?_⟩
              intro s t hs hb hp
              simp only [setNodeParametersResolver, hs, hb, hp, hv, hmask]
              rw [if_neg hsame]
              simp [hzero, htargets]
          · left
            intro s t hs hb hp
            simp [setNodeParametersResolver, hs, hb, hp, hv, hmask, hzero, htargets]
  · left
    intro s t hs hb hp
    simp [setNodeParametersResolver, hs, hb, hp, hv]

variable (env) in
theorem resolver_cases (hinv : ImplInv t) (hs : s.impl = some t) (id mask : ℕ)
    (resolver : Option ℕ) (user : ℕ) :
    (setNodeParametersResolver env s id mask resolver user).2 = s ∨
    ∃ m r u, nodeIdValid t.plan id = true ∧ m < 3 ∧ (m = 0 ↔ r = none) ∧
      resolverTargets (t.plan.node id).kind m = true ∧
      (setNodeParametersResolver env s id mask resolver user).2 =
        replaceResolver env s t id m r u := by
  rcases resolver_decision env t.plan id mask resolver user with
    h | ⟨m, r, u, hv, hm, hzero, htargets, h⟩
  · exact Or.inl (h s t hs hinv.busy rfl)
  · exact Or.inr ⟨m, r, u, hv, hm, hzero, htargets, h s t hs hinv.busy rfl⟩

variable (env) in
theorem resolver_effect (hinv : ImplInv t) (hs : s.impl = some t) (id mask : ℕ)
    (resolver : Option ℕ) (user : ℕ) :
    Effect env s t (setNodeParametersResolver env s id mask resolver user).2 := by
  rcases resolver_cases env hinv hs id mask resolver user with
    h | ⟨m, r, u, hv, hm, hzero, htargets, h⟩ <;> rw [h]
  · exact Effect.unchanged
  · exact Effect.resolver hv hm hzero htargets rfl

theorem add_cases (hinv : ImplInv t) (hs : s.impl = some t) (call : Call) :
    (treeAdd s (fun t => (call.add? t).getD (.error .einval))).2 = s ∨
      ∃ t' p plan, Added t t' p plan ∧
        (treeAdd s (fun t => (call.add? t).getD (.error .einval))).2 = { s with impl := some t' } := by
  simp only [treeAdd, hs]
  cases hcall : call.add? t with
  | none => exact .inl rfl
  | some r =>
    cases hr : r with
    | error e => exact .inl rfl
    | ok x =>
      obtain ⟨id, t'⟩ := x
      obtain ⟨-, -, p, plan, hadded⟩ := add_added hinv.built.toTopology hcall hr
      exact .inr ⟨t', p, plan, hadded, rfl⟩

theorem add_effect (hinv : ImplInv t) (hs : s.impl = some t) (call : Call) :
    Effect env s t (treeAdd s (fun t => (call.add? t).getD (.error .einval))).2 := by
  rcases add_cases hinv hs call with h | ⟨t', p, plan, hadded, h⟩ <;> rw [h]
  · exact Effect.unchanged
  · exact Effect.added hadded

/-- The calls that stop all work of a tree: a reset, a cancellation, its
destruction, and a tick that has somewhere to store its status and fails. -/
def Stops (env : Env σ) (s : System σ) (call : Call) : Prop :=
  call = .reset ∨ call = .cancel ∨ call = .destroy ∨
    (call = .tick true ∧ (exec env s call).1.code ≠ .ok)

theorem stops_reset (hinv : ImplInv t) (hs : s.impl = some t) {call : Call}
    (hstop : Stops env s call) : ∃ w, Steps t.plan env t.plan.root (s.start t) w ∧
      (exec env s call).2 = { s.after t (resetRoot t.plan env w).2 with
        impl := if call = .destroy then none
          else (s.after t (resetRoot t.plan env w).2).impl } := by
  rcases hstop with rfl | rfl | rfl | ⟨rfl, hcode⟩
  · refine ⟨s.start t, steps_refl, ?_⟩
    show (treeReset env s).2 = _
    rw [treeReset_eq hinv hs]
    rfl
  · refine ⟨s.start t, steps_refl, ?_⟩
    show (treeReset env s).2 = _
    rw [treeReset_eq hinv hs]
    rfl
  · refine ⟨s.start t, steps_refl, ?_⟩
    show (treeDestroy env s).2 = _
    rw [treeDestroy_eq hinv hs]
    rfl
  · have hcode : (treeTick env s true).1.code ≠ .ok := hcode
    show ∃ w, _ ∧ (treeTick env s true).2 = _
    rcases treeTick_cases env hinv hs true with
      ⟨ho, -⟩ | ⟨-, -, h⟩ | ⟨-, -, status, w, -, h⟩ | ⟨-, hv, f, w, hr, h⟩
    · exact absurd ho (by decide)
    · rw [h]
      exact ⟨s.start t, steps_refl, rfl⟩
    · rw [h] at hcode
      exact absurd rfl hcode
    · have hpost := root_tick_sound env hinv hv s.env [] []
      rw [System.start] at hr
      rw [hr] at hpost
      rw [h]
      exact ⟨w, hpost.steps, rfl⟩

variable (env) in
theorem exec_effect (hinv : ImplInv t) (hs : s.impl = some t) (call : Call) :
    Effect env s t (exec env s call).2 := by
  cases call with
  | setNodeParametersResolver id mask resolver user =>
    exact resolver_effect env hinv hs id mask resolver user
  | tick out => exact treeTick_effect hinv hs out
  | reset =>
    show Effect env s t (treeReset env s).2
    rw [treeReset_eq hinv hs]
    exact program_resetRoot hinv.built steps_refl
  | cancel =>
    show Effect env s t (treeReset env s).2
    rw [treeReset_eq hinv hs]
    exact program_resetRoot hinv.built steps_refl
  | validate => exact Effect.unchanged
  | destroy =>
    show Effect env s t (treeDestroy env s).2
    rw [treeDestroy_eq hinv hs]
    exact Effect.destroyed rfl
  | _ => exact add_effect hinv hs _

end Effects

section Adding
variable {t t' : Impl} {p : ℕ} {plan : NodePlan}

section
variable (hw : WellBuilt t.plan) (ha : Added t t' p plan)
include hw ha

theorem idle_added (hi : nodeIdValid t.plan i = true) (h : Idle t.plan t.nodes i) :
    Idle t'.plan t'.nodes i := by
  intro j hj
  rcases below_added hw ha hj with hold | rfl
  · have hjv := below_valid hi hold
    obtain ⟨hrest, hmark⟩ := h j hold
    rw [added_nodes_old ha hjv, added_old ha hjv]
    refine ⟨⟨hrest.running, hrest.prepared⟩, ?_⟩
    intro hne hk
    rcases Relation.ReflTransGen.cases_tail hold with h | ⟨k, hk', hchild⟩
    · exact absurd h hne
    · apply hmark hne
      have hparent : (t.plan.node j).parent = k := hchild.2.2
      have hkv := below_valid hi hk'
      rw [hparent]
      have hkind : (t'.plan.node k).kind = .parallel := by simpa [hparent] using hk
      rw [added_old ha hkv] at hkind
      exact hkind
  · rw [added_nodes_new ha]
    exact ⟨⟨fun _ => rfl, fun _ => rfl⟩, fun _ _ => rfl⟩

theorem nodeInv_added (hi : nodeIdValid t.plan i = true) (h : NodeInv t.plan t.nodes i) :
    NodeInv t'.plan t'.nodes i := by
  have hold : ∀ c, IsChild t'.plan i c → c ∈ busyNodes t'.plan t'.nodes →
      IsChild t.plan i c ∧ c ∈ busyNodes t.plan t.nodes := by
    intro c hc hbusy
    rcases (isChild_added ha).mp hc with hc | ⟨rfl, -, -⟩
    · exact ⟨hc, fun hidle => hbusy (idle_added hw ha hc.1 hidle)⟩
    · refine absurd ?_ hbusy
      intro j hj
      rcases below_cases hj with rfl | ⟨d, hd, -⟩
      · rw [added_nodes_new ha]
        exact ⟨⟨fun _ => rfl, fun _ => rfl⟩, fun _ _ => rfl⟩
      · exact absurd hd (no_child_of_new hw ha)
  have hkind : (t'.plan.node i).kind = (t.plan.node i).kind := by rw [added_old ha hi]
  show OwnOk t'.plan i _ (t'.nodes i)
  rw [added_nodes_old ha hi]
  constructor
  case cursor =>
    rcases h.cursor with h0 | hc
    · exact Or.inl h0
    · exact Or.inr ((isChild_added ha).mpr (Or.inl hc))
  case active =>
    intro hk c hc hbusy
    obtain ⟨hc', hbusy'⟩ := hold c hc hbusy
    have hactive := h.active (hkind ▸ hk) c hc' hbusy'
    have hfirst := firstChild_added hw ha hi hc'
    rw [hactive]
    rw [added_old ha hi]
    simp only [activeChild, hfirst]
  case cached =>
    intro hcached c hc hbusy
    obtain ⟨hc', hbusy'⟩ := hold c hc hbusy
    apply h.cached _ c hc' hbusy'
    rw [added_old ha hi] at hcached
    exact hcached
  case pipeline =>
    intro hk
    have hp := h.pipeline (hkind ▸ hk)
    rw [added_children hw ha hi, List.length_append]
    split_ifs at hp ⊢
    all_goals omega

theorem typed_added (h : Typed t.plan t.nodes) : Typed t'.plan t'.nodes := by
  intro i hi
  rcases (added_valid ha).mp hi with rfl | hi
  · rw [added_nodes_new ha]
    have hplan := (added_bounds ha).2.2.2
    constructor
    case limit_dynamic =>
      rw [hplan, ha.mask]
      exact fun hm => absurd hm (by decide)
    case mark => exact fun hm => absurd hm (by simp [freshState])
    all_goals rw [hplan]
    all_goals intros; rfl
  · obtain ⟨h₁, h₂, h₃, h₄, h₅, h₆⟩ := h i hi
    rw [added_nodes_old ha hi]
    have hold := added_old ha hi
    constructor
    case limit_dynamic => rw [hold, (added_bounds ha).2.1]; exact h₂
    case mark =>
      intro hm
      obtain ⟨hp, hk, he⟩ := h₆ hm
      have hpv : nodeIdValid t.plan (t.plan.node i).parent = true := by
        have hlt := hw.parent_lt i hi
        have := nodeIdValid_iff.mp hi
        exact nodeIdValid_iff.mpr ⟨hp, by omega⟩
      have hparent : (t'.plan.node i).parent = (t.plan.node i).parent := by rw [hold]
      rw [hparent, added_old ha hpv]
      exact ⟨hp, hk, he⟩
    all_goals rw [hold]
    case limit_static => exact h₁
    case duration_static => exact h₃
    case running => exact h₄
    case prepared => exact h₅

end

theorem inv_added (hinv : ImplInv t) (ha : Added t t' p plan) : ImplInv t' := by
  have hw := hinv.built
  refine ⟨ha.busy.trans hinv.busy, well_built_added hw ha, typed_added hw ha hinv.typed, ?_⟩
  intro i hi
  rcases (added_valid ha).mp hi with rfl | hi
  · have hnone : ∀ c, ¬ IsChild t'.plan (t.plan.nodeCount+1) c := fun _ => no_child_of_new hw ha
    show OwnOk t'.plan _ _ (t'.nodes _)
    rw [added_nodes_new ha]
    exact ⟨Or.inl rfl, fun _ c hc => absurd hc (hnone c), fun _ c hc => absurd hc (hnone c),
      fun _ => rfl⟩
  · exact nodeInv_added hw ha hi (hinv.good i hi)

end Adding

section Resolving
variable {t : Impl} {id mask : ℕ} {resolver : Option ℕ} {user : ℕ} {ns : ℕ → NodeState}

theorem withResolver_other {P : Plan} (h : i ≠ id) :
    (withResolver P id mask resolver user).node i = P.node i := by
  simp [withResolver, Plan.modify, h]

theorem withResolver_self {P : Plan} : (withResolver P id mask resolver user).node id =
    { P.node id with
      dynamicParameterMask := mask, parameterResolver := resolver, parameterUser := user } := by
  simp [withResolver, Plan.modify]

theorem withResolver_keeps (P : Plan) (id mask : ℕ) (resolver : Option ℕ) (user i : ℕ) :
    (withResolver P id mask resolver user).node i = { P.node i with
      dynamicParameterMask := ((withResolver P id mask resolver user).node i).dynamicParameterMask
      parameterResolver := ((withResolver P id mask resolver user).node i).parameterResolver
      parameterUser := ((withResolver P id mask resolver user).node i).parameterUser } := by
  by_cases hi : i = id
  · rw [hi, withResolver_self]
  · rw [withResolver_other hi]

theorem below_withResolver {P : Plan} {j : ℕ} :
    Below (withResolver P id mask resolver user) i j ↔ Below P i j := by
  have hedge : IsChild (withResolver P id mask resolver user) = IsChild P := by
    funext i c
    exact propext (isChild_same_shape (same_shape_withResolver id mask resolver user) i c)
  show Forest.Below (IsChild _) i j ↔ _
  rw [hedge]

theorem limit_le_max {max : ℕ} {kind : NodeKind} {limit : ℕ}
    (h : limitAccepted max kind limit = true) : limit ≤ max := by
  cases kind <;> simp [limitAccepted] at h <;> omega

theorem resolvedImpl_nodes_other (h : i ≠ id) :
    (resolvedImpl t ns id mask resolver user).nodes i = ns i :=
  Function.update_of_ne h _ _

theorem resolvedImpl_nodes_self : (resolvedImpl t ns id mask resolver user).nodes id =
    { ns id with
      limit := (t.plan.node id).configuredLimit
      durationNs := (t.plan.node id).configuredDurationNs } :=
  Function.update_self _ _ _

theorem typed_resolved (hw : WellBuilt t.plan) (h : Typed t.plan ns) :
    Typed (resolvedImpl t ns id mask resolver user).plan
      (resolvedImpl t ns id mask resolver user).nodes := by
  have hmark : ∀ i, nodeIdValid t.plan i = true → (ns i).parallelBranchPrepared = true →
      ((resolvedImpl t ns id mask resolver user).plan.node i).parent ≠ 0 ∧
        ((resolvedImpl t ns id mask resolver user).plan.node
          ((resolvedImpl t ns id mask resolver user).plan.node i).parent).kind = .parallel ∧
        ((resolvedImpl t ns id mask resolver user).plan.node
          ((resolvedImpl t ns id mask resolver user).plan.node i).parent).parallelEnter = true := by
    intro i hi hm
    have hparent : ((resolvedImpl t ns id mask resolver user).plan.node i).parent =
        (t.plan.node i).parent := by
      simp only [resolvedImpl]
      rw [withResolver_keeps]
    rw [hparent]
    simp only [resolvedImpl]
    rw [withResolver_keeps]
    exact (h i hi).mark hm
  intro i hi
  have hi : nodeIdValid t.plan i = true := hi
  have htyped := h i hi
  by_cases hid : i = id
  · subst hid
    rw [resolvedImpl_nodes_self]
    constructor
    case limit_static => intro _; simp only [resolvedImpl, withResolver_self]
    case duration_static => intro _; simp only [resolvedImpl, withResolver_self]
    case limit_dynamic => exact fun _ => limit_le_max (hw.configured i hi).limit
    case mark => exact hmark i hi
    all_goals simp only [resolvedImpl, withResolver_self]
    case running => exact htyped.running
    case prepared => exact htyped.prepared
  · rw [resolvedImpl_nodes_other hid]
    constructor
    case mark => exact hmark i hi
    all_goals simp only [resolvedImpl]
    all_goals rw [withResolver_other hid]
    case limit_static => exact htyped.limit_static
    case limit_dynamic => exact htyped.limit_dynamic
    case duration_static => exact htyped.duration_static
    case running => exact htyped.running
    case prepared => exact htyped.prepared

theorem idle_resolved (h : Idle t.plan ns i) : Idle (resolvedImpl t ns id mask resolver user).plan
      (resolvedImpl t ns id mask resolver user).nodes i := by
  intro j hj
  have hj' : Below t.plan i j := below_withResolver.mp hj
  obtain ⟨hrest, hmark⟩ := h j hj'
  have hkind : ∀ k, ((resolvedImpl t ns id mask resolver user).plan.node k).kind =
      (t.plan.node k).kind := by
    intro k
    simp only [resolvedImpl]
    rw [withResolver_keeps]
  have hparent : ((resolvedImpl t ns id mask resolver user).plan.node j).parent =
      (t.plan.node j).parent := by
    simp only [resolvedImpl]
    rw [withResolver_keeps]
  rw [hparent, hkind]
  by_cases hid : j = id
  · subst hid
    rw [resolvedImpl_nodes_self]
    exact ⟨⟨fun hk => hrest.running (by rwa [hkind] at hk),
      fun hk => hrest.prepared (by rwa [hkind] at hk)⟩, hmark⟩
  · rw [resolvedImpl_nodes_other hid]
    exact ⟨⟨fun hk => hrest.running (by rwa [hkind] at hk),
      fun hk => hrest.prepared (by rwa [hkind] at hk)⟩, hmark⟩

theorem children_withResolver {P : Plan} (ht : Topology P) (hi : nodeIdValid P i = true) :
    children (withResolver P id mask resolver user) i = children P i := by
  have hs := same_shape_withResolver (P := P) id mask resolver user
  rw [children_eq (topology_same_shape ht hs) (by exact hi), children_eq ht hi,
    childrenOf_same_shape hs]

theorem nodeInv_resolved (ht : Topology t.plan) (hi : nodeIdValid t.plan i = true)
    (h : NodeInv t.plan ns i) : NodeInv (resolvedImpl t ns id mask resolver user).plan
      (resolvedImpl t ns id mask resolver user).nodes i := by
  have hchild : ∀ c, IsChild (resolvedImpl t ns id mask resolver user).plan i c ↔
      IsChild t.plan i c :=
    isChild_same_shape (same_shape_withResolver id mask resolver user) i
  have hbusy : ∀ c, c ∈ busyNodes (resolvedImpl t ns id mask resolver user).plan
      (resolvedImpl t ns id mask resolver user).nodes → c ∈ busyNodes t.plan ns :=
    fun c hc hidle => hc (idle_resolved hidle)
  have hown : OwnOk (resolvedImpl t ns id mask resolver user).plan i
      (busyNodes (resolvedImpl t ns id mask resolver user).plan
        (resolvedImpl t ns id mask resolver user).nodes) (ns i) := by
    have hplan : (resolvedImpl t ns id mask resolver user).plan.node i = { t.plan.node i with
        dynamicParameterMask :=
          ((withResolver t.plan id mask resolver user).node i).dynamicParameterMask
        parameterResolver := ((withResolver t.plan id mask resolver user).node i).parameterResolver
        parameterUser := ((withResolver t.plan id mask resolver user).node i).parameterUser } :=
      withResolver_keeps t.plan id mask resolver user i
    constructor
    case cursor => rw [hchild]; exact h.cursor
    case active =>
      rw [hplan]
      exact fun hk c hc hb => h.active hk c ((hchild c).mp hc) (hbusy c hb)
    case cached =>
      rw [hplan]
      exact fun hcached c hc hb => h.cached hcached c ((hchild c).mp hc) (hbusy c hb)
    case pipeline =>
      rw [hplan]
      show _ → if _ then _ < (children (withResolver t.plan id mask resolver user) i).length else _
      rw [children_withResolver ht hi]
      exact h.pipeline
  show OwnOk _ i _ _
  by_cases hid : i = id
  · subst hid
    rw [resolvedImpl_nodes_self]
    exact ⟨hown.cursor, hown.active, hown.cached, hown.pipeline⟩
  · rw [resolvedImpl_nodes_other hid]
    exact hown

end Resolving

section Invariant
variable {env : Env σ} {s s' : System σ} {t t' : Impl}

theorem start_reset_inv (hinv : ImplInv t) {id : ℕ} (hv : nodeIdValid t.plan id = true)
    (hi : nodeIdValid t.plan i = true) :
    NodeInv t.plan (resetNodeStateImpl t.plan env t.plan.nodeCount id true (s.start t)).2.nodes i := by
  have ht := hinv.built.toTopology
  rw [reset_nodes env ht true hv]
  exact good_resetNodes ht true id (fun j hj => hinv.good j (below_valid hi hj)) i (below_refl i)

theorem inv_effect (hinv : ImplInv t) (hs : s.impl = some t) (heffect : Effect env s t s')
    (hs' : s'.impl = some t') : ImplInv t' := by
  have ht := hinv.built.toTopology
  cases heffect with
  | unchanged =>
    rw [hs] at hs'
    rw [← Option.some.inj hs']
    exact hinv
  | added ha =>
    rw [← Option.some.inj hs']
    exact inv_added hinv ha
  | program hsteps hgood =>
    rw [← Option.some.inj hs']
    exact ⟨rfl, hinv.built, typed_steps ht hsteps hinv.typed, hgood⟩
  | resolver hv hmask hzero htargets hw =>
    rw [← Option.some.inj hs', hw]
    refine ⟨rfl, well_built_withResolver hinv.built _ hmask hzero htargets, ?_, ?_⟩
    · exact typed_resolved hinv.built (typed_reset ht hv true hinv.typed)
    · exact fun i hi => nodeInv_resolved ht hi (start_reset_inv hinv hv hi)
  | destroyed hw => exact absurd hs' (by simp)

theorem exec_destroyed (hs : s.impl = none) (call : Call) : (exec env s call).2 = s := by
  cases call <;> simp [exec, treeAdd, setNodeParametersResolver, treeTick, treeReset, treeCancel,
    treeDestroy, hs]

theorem inv_init {config : TreeConfig} {e : σ} (h : treeInit config e = .ok s)
    (hs : s.impl = some t) : ImplInv t := by
  rw [treeInit] at h
  by_cases hc : configAccepted config = true
  · rw [if_pos hc] at h
    rw [← Except.ok.inj h] at hs
    rw [← Option.some.inj hs]
    have hnone : ∀ i, nodeIdValid (emptyImpl config).plan i ≠ true := by
      intro i hi
      have := (nodeIdValid_iff.mp hi)
      have h0 : (emptyImpl config).plan.nodeCount = 0 := rfl
      omega
    exact ⟨rfl, well_built_empty hc, fun i hi => absurd hi (hnone i),
      fun i hi => absurd hi (hnone i)⟩
  · rw [if_neg hc] at h
    exact absurd h (by simp)

/-- The invariant rule for runs: what holds initially and is kept by every
effect holds in every reachable system. -/
theorem reachable_invariant {I : System σ → Prop} (h : Reachable env s)
    (hinit : ∀ config e s₀, treeInit config e = .ok s₀ → I s₀)
    (hstep : ∀ s t s', s.impl = some t → ImplInv t → Effect env s t s' → I s → I s') : I s := by
  obtain ⟨config, e, s₀, calls, hs₀, hrun⟩ := h
  have hall : ∀ (calls : List Call) (s₀ : System σ), (∀ t, s₀.impl = some t → ImplInv t) → I s₀ →
      I (runCalls env s₀ calls) := by
    intro calls
    induction calls with
    | nil => exact fun s₀ _ hI => hI
    | cons call calls ih =>
      intro s₀ hinv hI
      cases hs : s₀.impl with
      | none =>
        rw [runCalls, exec_destroyed hs]
        exact ih s₀ hinv hI
      | some t =>
        have heffect := exec_effect env (hinv t hs) hs call
        exact ih _ (fun t' ht' => inv_effect (hinv t hs) hs heffect ht')
          (hstep s₀ t _ hs (hinv t hs) heffect hI)
  rw [← hrun]
  exact hall calls s₀ (fun t ht => inv_init hs₀ ht) (hinit config e s₀ hs₀)

theorem runCalls_append (env : Env σ) (s : System σ) (calls calls' : List Call) :
    runCalls env s (calls ++ calls') = runCalls env (runCalls env s calls) calls' := by
  induction calls generalizing s with
  | nil => rfl
  | cons call calls ih => exact ih _

theorem reachable_runCalls (h : Reachable env s) (calls : List Call) :
    Reachable env (runCalls env s calls) := by
  obtain ⟨config, e, s₀, calls₀, hs₀, hrun⟩ := h
  exact ⟨config, e, s₀, calls₀ ++ calls, hs₀, by rw [runCalls_append, hrun]⟩

theorem inv_reachable (h : Reachable env s) (hs : s.impl = some t) : ImplInv t := by
  have hall : ∀ t, s.impl = some t → ImplInv t := by
    apply reachable_invariant (I := fun s => ∀ t, s.impl = some t → ImplInv t) h
    · exact fun config e s₀ hs₀ t ht => inv_init hs₀ ht
    · exact fun s t s' hs hinv heffect _ t' ht' => inv_effect hinv hs heffect ht'
  exact hall t hs

/-- A call of a constructor. -/
def Call.Adds (call : Call) : Prop := ∀ t, (call.add? t).isSome = true

theorem exec_adds {call : Call} (hadds : call.Adds) :
    exec env s call = treeAdd s (fun t => (call.add? t).getD (.error .einval)) := by
  cases call <;> first
    | rfl
    | exact nomatch hadds (emptyImpl ⟨0, 0, 0⟩)

theorem treeAdd_rejected {add : Impl → Except Code (ℕ × Impl)}
    (h : (treeAdd s add).1.code ≠ .ok) : (treeAdd s add).2 = s ∧ (treeAdd s add).1.nodeId = 0 := by
  unfold treeAdd at h ⊢
  split
  · exact ⟨rfl, rfl⟩
  · next t ht =>
    simp only [ht] at h
    split
    · exact ⟨rfl, rfl⟩
    · next id t' hadd =>
      simp only [hadd] at h
      exact absurd rfl h

theorem added_limits {p : ℕ} {plan : NodePlan} (ha : Added t t' p plan) :
    t'.plan.maxNodes = t.plan.maxNodes ∧ t'.plan.maxDepth = t.plan.maxDepth := by
  refine ⟨?_, (added_bounds ha).1⟩
  rcases ha.place with ⟨-, -, -, hplan⟩ | ⟨-, -, -, -, hatt⟩
  · rw [hplan]
    rfl
  · exact hatt.max_nodes

/-- The links of a plan, by what each node of it sees. -/
structure Arranged (P : Plan) : Prop where
  count_le : P.nodeCount ≤ P.maxNodes
  ids : ∀ i, nodeIdValid P i = true ↔ 1 ≤ i ∧ i ≤ P.nodeCount
  root : P.root = min P.nodeCount 1
  parent_zero : ∀ i, nodeIdValid P i = true → ((P.node i).parent = 0 ↔ i = P.root)
  parent : ∀ i, nodeIdValid P i = true → i ≠ P.root → nodeIdValid P (P.node i).parent = true ∧
    (P.node i).parent < i ∧ nodeKindAcceptsChildren (P.node (P.node i).parent).kind = true
  walk : ∀ i, nodeIdValid P i = true →
    Linked (fun c => (P.node c).nextSibling) (P.node i).firstChild (children P i)
  visited : ∀ i, nodeIdValid P i = true → ∀ c, c ∈ children P i ↔
    nodeIdValid P c = true ∧ (P.node c).parent = i
  ordered : ∀ i, nodeIdValid P i = true → (children P i).Pairwise (· < ·)
  last : ∀ i, nodeIdValid P i = true → (P.node i).lastChild = (children P i).getLast?.getD 0
  child_count : ∀ i, nodeIdValid P i = true → (P.node i).childCount = (children P i).length
  depth : ∀ i, nodeIdValid P i = true → (P.node i).depth =
    if i = P.root then 1 else (P.node (P.node i).parent).depth + 1
  depth_le : ∀ i, nodeIdValid P i = true → (P.node i).depth ≤ P.maxDepth

theorem Topology.arranged {P : Plan} (h : Topology P) : Arranged P := by
  have hroot : ∀ i, nodeIdValid P i = true → ((P.node i).parent = 0 ↔ i = P.root) := by
    refine fun i hi => ⟨h.parent_zero i hi, ?_⟩
    rintro rfl
    have hlt := h.parent_lt _ hi
    have heq := h.root_eq
    omega
  have hchild : ∀ i, nodeIdValid P i = true → i ≠ P.root → IsChild P (P.node i).parent i :=
    fun i hi hne => ⟨hi, fun hz => hne ((hroot i hi).mp hz), rfl⟩
  refine ⟨h.count_le, fun i => ?_, h.root_eq, hroot, fun i hi hne => ?_, fun i hi => ?_,
    fun i hi c => ?_, fun i hi => ?_, fun i hi => ?_, fun i hi => childCount_eq h hi,
    fun i hi => ?_, h.depth_le⟩
  · rw [nodeIdValid_iff]
    omega
  · exact ⟨parent_valid h (hchild i hi hne), h.parent_lt i hi, h.accepts _ i (hchild i hi hne)⟩
  · rw [children_eq h hi]
    exact h.linked i hi
  · rw [children_eq h hi, mem_childrenOf]
  · rw [children_eq h hi]
    exact List.Pairwise.filter _ List.pairwise_lt_range'
  · rw [children_eq h hi]
    exact h.last i hi
  · split_ifs with hr
    · exact h.depth_root i hi ((hroot i hi).mpr hr)
    · exact h.depth_child _ i (hchild i hi hr)

/-- Whatever constructors are called on a new tree, and whether or not they succeed, its nodes are
arranged, and a constructor that is refused leaves the tree as it is. -/
theorem add_calls_arranged {config : TreeConfig} {e : σ} {s₀ : System σ}
    (hs₀ : treeInit config e = .ok s₀) {calls : List Call} (hadds : ∀ call ∈ calls, call.Adds) :
    ∃ t, (runCalls env s₀ calls).impl = some t ∧ t.plan.maxNodes = config.maxNodes ∧
      t.plan.maxDepth = config.maxDepth ∧ Arranged t.plan ∧
      ∀ call, call.Adds → (exec env (runCalls env s₀ calls) call).1.code ≠ .ok →
        (exec env (runCalls env s₀ calls) call).2 = runCalls env s₀ calls ∧
        (exec env (runCalls env s₀ calls) call).1.nodeId = 0 := by
  have hrun : ∀ (calls : List Call) (s : System σ) (t : Impl), (∀ call ∈ calls, call.Adds) →
      s.impl = some t → ImplInv t → ∃ t', (runCalls env s calls).impl = some t' ∧
        t'.plan.maxNodes = t.plan.maxNodes ∧ t'.plan.maxDepth = t.plan.maxDepth ∧ ImplInv t' := by
    intro calls
    induction calls with
    | nil => exact fun s t _ hs hinv => ⟨t, hs, rfl, rfl, hinv⟩
    | cons call calls ih =>
      intro s t hcalls hs hinv
      obtain ⟨hcall, hcalls⟩ := List.forall_mem_cons.mp hcalls
      rw [runCalls, exec_adds hcall]
      rcases add_cases hinv hs call with h | ⟨t', p, plan, ha, h⟩ <;> rw [h]
      · exact ih s t hcalls hs hinv
      · obtain ⟨hnodes, hdepth⟩ := added_limits ha
        obtain ⟨t'', ht, hnodes', hdepth', hinv'⟩ := ih { s with impl := some t' } t' hcalls rfl (inv_added hinv ha)
        exact ⟨t'', ht, hnodes'.trans hnodes, hdepth'.trans hdepth, hinv'⟩
  have hinit : s₀.impl = some (emptyImpl config) := by
    rw [treeInit] at hs₀
    split at hs₀ <;> cases hs₀
    rfl
  obtain ⟨t, ht, hnodes, hdepth, hinv⟩ := hrun calls s₀ _ hadds hinit (inv_init hs₀ hinit)
  refine ⟨t, ht, hnodes, hdepth, hinv.built.toTopology.arranged, fun call hcall hcode => ?_⟩
  rw [exec_adds hcall] at hcode ⊢
  exact treeAdd_rejected hcode

/-- A leaf under a sequence, and a child that the leaf does not take. -/
theorem add_calls_arranged_leaf :
    ∃ t, (runCalls (fun e _ => (⟨.ok, 0, false, 0, 0, 0, 0⟩, e)) ⟨some (emptyImpl treeConfigInit),
        (), []⟩ [.addNode 0 .sequence false true, .addNode 1 .leaf true true,
          .addNode 2 .leaf true true]).impl = some t ∧ Arranged t.plan := by
  obtain ⟨t, ht, -, -, harranged, -⟩ := @add_calls_arranged Unit _ treeConfigInit ()
    ⟨some (emptyImpl treeConfigInit), (), []⟩ rfl
    [.addNode 0 .sequence false true, .addNode 1 .leaf true true, .addNode 2 .leaf true true]
    (by
      intro call hcall t
      simp only [List.mem_cons, List.not_mem_nil, or_false] at hcall
      rcases hcall with rfl | rfl | rfl <;> rfl)
  exact ⟨t, ht, harranged⟩

end Invariant

end SaltsUtils.BehaviorTree
