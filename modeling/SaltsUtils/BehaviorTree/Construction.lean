import SaltsUtils.BehaviorTree.Topology

/-!
# What the constructors do

All constructors go through `add_node_with_limit_internal`.
-/

set_option autoImplicit false

namespace SaltsUtils.BehaviorTree
open SaltsUtils.Forest

/-- The links, kind and depth of two node records agree. -/
structure SameShape (p q : NodePlan) : Prop where
  kind : q.kind = p.kind
  parent : q.parent = p.parent
  firstChild : q.firstChild = p.firstChild
  lastChild : q.lastChild = p.lastChild
  nextSibling : q.nextSibling = p.nextSibling
  depth : q.depth = p.depth
  childCount : q.childCount = p.childCount

theorem same_shape_refl (p : NodePlan) : SameShape p p := ⟨rfl, rfl, rfl, rfl, rfl, rfl, rfl⟩

structure SamePlanShape (P P' : Plan) : Prop where
  max_nodes : P'.maxNodes = P.maxNodes
  max_depth : P'.maxDepth = P.maxDepth
  max_control : P'.maxControlIterations = P.maxControlIterations
  count : P'.nodeCount = P.nodeCount
  root : P'.root = P.root
  node : ∀ i, SameShape (P.node i) (P'.node i)

section Shape
variable {P P' : Plan}

theorem same_shape_modify {id : ℕ} {f : NodePlan → NodePlan}
    (hf : SameShape (P.node id) (f (P.node id))) : SamePlanShape P (P.modify id f) := by
  constructor
  case node =>
    intro i
    by_cases hi : i = id
    · subst hi
      simpa [Plan.modify] using hf
    · simpa [Plan.modify, hi] using same_shape_refl (P.node i)
  all_goals rfl

theorem valid_same_shape (h : SamePlanShape P P') (i : ℕ) : nodeIdValid P' i = nodeIdValid P i := by
  simp [nodeIdValid, h.count]

theorem isChild_same_shape (h : SamePlanShape P P') (i c : ℕ) : IsChild P' i c ↔ IsChild P i c := by
  rw [IsChild, IsChild, valid_same_shape h, (h.node c).parent]

theorem childrenOf_same_shape (h : SamePlanShape P P') (i : ℕ) :
    childrenOf P' i = childrenOf P i := by
  rw [childrenOf, childrenOf, h.count]
  apply List.filter_congr
  intro c _
  rw [(h.node c).parent]

theorem topology_same_shape (ht : Topology P) (h : SamePlanShape P P') : Topology P' := by
  have hv := valid_same_shape h
  constructor
  case count_le => rw [h.count, h.max_nodes]; exact ht.count_le
  case root_eq => rw [h.count, h.root]; exact ht.root_eq
  case accepts =>
    intro i c hc
    rw [(h.node i).kind]
    exact ht.accepts i c ((isChild_same_shape h i c).mp hc)
  case depth_child =>
    intro i c hc
    rw [(h.node i).depth, (h.node c).depth]
    exact ht.depth_child i c ((isChild_same_shape h i c).mp hc)
  all_goals
    intro i hi
    rw [hv] at hi
  case parent_lt => rw [(h.node i).parent]; exact ht.parent_lt i hi
  case parent_zero => rw [(h.node i).parent, h.root]; exact ht.parent_zero i hi
  case linked =>
    rw [childrenOf_same_shape h, (h.node i).firstChild]
    exact linked_congr (ht.linked i hi) (fun c _ => (h.node c).nextSibling)
  case last => rw [childrenOf_same_shape h, (h.node i).lastChild]; exact ht.last i hi
  case child_count => rw [childrenOf_same_shape h, (h.node i).childCount]; exact ht.child_count i hi
  case depth_root => rw [(h.node i).parent, (h.node i).depth]; exact ht.depth_root i hi
  case depth_le => rw [(h.node i).depth, h.max_depth]; exact ht.depth_le i hi

end Shape

structure ConfiguredNode (maxControlIterations : ℕ) (p : NodePlan) : Prop where
  limit : limitAccepted maxControlIterations p.kind p.configuredLimit = true
  mask_lt : p.dynamicParameterMask < 3
  mask_zero : p.dynamicParameterMask = 0 ↔ p.parameterResolver = none
  targets : resolverTargets p.kind p.dynamicParameterMask = true

structure WellBuilt (P : Plan) : Prop extends Topology P where
  configured : ∀ i, nodeIdValid P i = true → ConfiguredNode P.maxControlIterations (P.node i)
  depth_pos : 0 < P.maxDepth

/-- A successful constructor: `plan` is the new node's record under parent `p`. -/
structure Added (t t' : Impl) (p : ℕ) (plan : NodePlan) : Prop where
  busy : t'.busy = t.busy
  nodes : t'.nodes = Function.update t.nodes (t.plan.nodeCount+1)
    (freshState plan.configuredLimit plan.configuredDurationNs)
  fresh : SameShape (freshPlan plan.kind plan.handler p plan.depth plan.configuredLimit) plan
  mask : plan.dynamicParameterMask = 0
  resolver : plan.parameterResolver = none
  limit : limitAccepted t.plan.maxControlIterations plan.kind plan.configuredLimit = true
  room : t.plan.nodeCount < t.plan.maxNodes
  place : (p = 0 ∧ t.plan.nodeCount = 0 ∧ plan.depth = 1 ∧ t'.plan = rootPlan t.plan plan) ∨
    (nodeIdValid t.plan p = true ∧ acceptsChild (t.plan.node p) = true ∧
      plan.depth = (t.plan.node p).depth+1 ∧ plan.depth ≤ t.plan.maxDepth ∧
      Attached t.plan t'.plan p plan)

section Added
variable {t t' : Impl}

theorem error_else_ok {α : Type} {c : Prop} [Decidable c] {e : Code} {x : Except Code α} {a : α}
    (h : (if c then .error e else x) = .ok a) : ¬ c ∧ x = .ok a := by
  by_cases hc : c
  · rw [if_pos hc] at h
    exact absurd h (by simp)
  · rw [if_neg hc] at h
    exact ⟨hc, h⟩

variable {p : ℕ} {handler : Bool}

theorem added_internal (ht : Topology t.plan) {kind : NodeKind} {limit id : ℕ} {out allow : Bool}
    (h : addNodeWithLimitInternal t p kind handler limit out allow = .ok (id, t')) :
    id = t.plan.nodeCount+1 ∧ t.busy = false ∧
      ∃ depth, Added t t' p (freshPlan kind handler p depth limit) := by
  rw [addNodeWithLimitInternal] at h
  obtain ⟨-, h⟩ := error_else_ok h
  obtain ⟨hbusy, h⟩ := error_else_ok h
  obtain ⟨-, h⟩ := error_else_ok h
  obtain ⟨-, h⟩ := error_else_ok h
  obtain ⟨hlimit, h⟩ := error_else_ok h
  cases hdepth : newDepth t.plan p with
  | none =>
    rw [hdepth] at h
    exact absurd h (by simp)
  | some depth =>
    rw [hdepth] at h
    obtain ⟨hroom, h⟩ := error_else_ok h
    have hlimit : limitAccepted t.plan.maxControlIterations kind limit = true := by
      simpa using hlimit
    have hroom : t.plan.nodeCount < t.plan.maxNodes := Nat.lt_of_not_le hroom
    by_cases hp : p = 0
    · subst hp
      rw [newDepth, if_pos rfl] at hdepth
      have hroot : t.plan.root = 0 := by
        by_contra hne
        rw [if_pos hne] at hdepth
        exact absurd hdepth (by simp)
      have hcount : t.plan.nodeCount = 0 := by
        have := ht.root_eq
        omega
      rw [if_neg (by simpa using hroot)] at hdepth
      have hone : depth = 1 := (Option.some.inj hdepth).symm
      subst hone
      simp only [linkNode, if_true, Except.ok.injEq, Prod.mk.injEq] at h
      obtain ⟨hid, ht'⟩ := h
      refine ⟨hid.symm, by simpa using hbusy, 1, ?_⟩
      subst ht'
      refine ⟨rfl, rfl, same_shape_refl _, rfl, rfl, hlimit, hroom, Or.inl ⟨rfl, hcount, rfl, ?_⟩⟩
      simp [rootPlan, hcount]
    · rw [newDepth, if_neg hp] at hdepth
      by_cases hvalid : (nodeIdValid t.plan p && acceptsChild (t.plan.node p)) = true
      · rw [if_pos hvalid] at hdepth
        obtain ⟨hpv, hacc⟩ := Bool.and_eq_true_iff.mp hvalid
        by_cases hmax : t.plan.maxDepth < (t.plan.node p).depth+1
        · rw [if_pos hmax] at hdepth
          exact absurd hdepth (by simp)
        · rw [if_neg hmax] at hdepth
          have hd : depth = (t.plan.node p).depth+1 := (Option.some.inj hdepth).symm
          obtain ⟨P', hlink, hatt⟩ := linkNode_attached ht
            (freshPlan kind handler p depth limit) hpv
          simp only [hlink, Except.ok.injEq, Prod.mk.injEq] at h
          obtain ⟨hid, ht'⟩ := h
          refine ⟨hid.symm, by simpa using hbusy, depth, ?_⟩
          subst ht'
          exact ⟨rfl, rfl, same_shape_refl _, rfl, rfl, hlimit, hroom,
            Or.inr ⟨hpv, hacc, hd, by simp only [freshPlan]; omega, hatt⟩⟩
      · rw [if_neg hvalid] at hdepth
        exact absurd hdepth (by simp)

/-- What the assignments of a typed constructor leave alone. -/
structure Configures (configure : NodePlan → NodePlan) (initial : NodeState → NodeState) : Prop where
  shape : ∀ p, SameShape p (configure p)
  limit : ∀ p, (configure p).configuredLimit = p.configuredLimit
  mask : ∀ p, (configure p).dynamicParameterMask = p.dynamicParameterMask
  resolver : ∀ p, (configure p).parameterResolver = p.parameterResolver
  initial : ∀ p limit, p.configuredDurationNs = 0 →
    initial (freshState limit 0) = freshState limit (configure p).configuredDurationNs

variable {configure : NodePlan → NodePlan}

theorem configures_callbacks (shape : ∀ p, SameShape p (configure p))
    (limit : ∀ p, (configure p).configuredLimit = p.configuredLimit)
    (duration : ∀ p, (configure p).configuredDurationNs = p.configuredDurationNs)
    (mask : ∀ p, (configure p).dynamicParameterMask = p.dynamicParameterMask)
    (resolver : ∀ p, (configure p).parameterResolver = p.parameterResolver) :
    Configures configure id :=
  ⟨shape, limit, mask, resolver, fun p limit hp => by rw [duration, hp]; rfl⟩

variable {plan : NodePlan}

theorem attached_modify {P P' : Plan} (ha : Attached P P' p plan) (configure : NodePlan → NodePlan) :
    Attached P (P'.modify (P.nodeCount+1) configure) p (configure plan) := by
  constructor
  case count => exact ha.count
  case max_nodes => exact ha.max_nodes
  case max_depth => exact ha.max_depth
  case max_control => exact ha.max_control
  case root => exact ha.root
  case new => simp [Plan.modify, ha.new]
  case old =>
    intro j hj
    have hne : j ≠ P.nodeCount+1 := by omega
    simp only [Plan.modify, Function.update_of_ne hne]
    exact ha.old j hj

theorem added_typed {id : ℕ} {kind : NodeKind} {depth limit : ℕ} {initial : NodeState → NodeState}
    (hc : Configures configure initial) (hid : id = t.plan.nodeCount+1)
    (ha : Added t t' p (freshPlan kind handler p depth limit)) : Added t { t' with
      plan := t'.plan.modify id configure
      nodes := Function.update t'.nodes id (initial (t'.nodes id)) } p
      (configure (freshPlan kind handler p depth limit)) := by
  have hs := hc.shape (freshPlan kind handler p depth limit)
  subst hid
  constructor
  case busy => exact ha.busy
  case nodes =>
    have hn := hc.initial (freshPlan kind handler p depth limit) limit rfl
    rw [ha.nodes, Function.update_self, Function.update_idem, hc.limit]
    exact congrArg (Function.update t.nodes (t.plan.nodeCount+1)) hn
  case fresh => exact ⟨rfl, hs.parent, hs.firstChild, hs.lastChild, hs.nextSibling, rfl, hs.childCount⟩
  case mask => rw [hc.mask]; rfl
  case resolver => rw [hc.resolver]; rfl
  case limit => rw [hs.kind, hc.limit]; exact ha.limit
  case room => exact ha.room
  case place =>
    rw [hs.depth]
    rcases ha.place with ⟨hp, hcount, hd, hplan⟩ | ⟨hp, hacc, hd, hle, hatt⟩
    · refine Or.inl ⟨hp, hcount, hd, ?_⟩
      rw [hplan, hcount]
      simp [Plan.modify, rootPlan]
    · exact Or.inr ⟨hp, hacc, hd, hle, attached_modify hatt configure⟩

theorem addTyped_added (ht : Topology t.plan) {accepted : Bool} {id : ℕ} {kind : NodeKind}
    {limit : ℕ} {out allow : Bool} {initial : NodeState → NodeState}
    (hc : Configures configure initial)
    (h : addTyped accepted (addNodeWithLimitInternal t p kind handler limit out allow) configure initial = .ok (id, t')) :
    id = t.plan.nodeCount+1 ∧ t.busy = false ∧ ∃ plan, Added t t' p plan := by
  unfold addTyped at h
  obtain ⟨-, h⟩ := error_else_ok h
  cases hr : addNodeWithLimitInternal t p kind handler limit out allow with
  | error e =>
    rw [hr] at h
    exact absurd h (by simp)
  | ok r =>
    obtain ⟨id', t₁⟩ := r
    rw [hr] at h
    obtain ⟨hid, hbusy, depth, ha⟩ := added_internal ht hr
    simp only [Except.ok.injEq, Prod.mk.injEq] at h
    obtain ⟨hid', ht'⟩ := h
    subst ht'
    exact ⟨hid' ▸ hid, hbusy, _, added_typed hc hid ha⟩

theorem add_added (ht : Topology t.plan) {call : Call} {r : Except Code (ℕ × Impl)} {id : ℕ}
    (hr : call.add? t = some r) (h : r = .ok (id, t')) :
    id = t.plan.nodeCount+1 ∧ t.busy = false ∧ ∃ p plan, Added t t' p plan := by
  have hconf : ∀ (accepted : Bool) (p : ℕ) (kind : NodeKind) (handler : Bool) (limit : ℕ)
      (out allow : Bool) (configure : NodePlan → NodePlan) (initial : NodeState → NodeState),
      addTyped accepted (addNodeWithLimitInternal t p kind handler limit out allow)
        configure initial = .ok (id, t') → Configures configure initial →
      id = t.plan.nodeCount+1 ∧ t.busy = false ∧ ∃ p plan, Added t t' p plan := by
    intro accepted p kind handler limit out allow configure initial h hc
    obtain ⟨hid, hbusy, plan, ha⟩ := addTyped_added ht hc h
    exact ⟨hid, hbusy, p, plan, ha⟩
  have hplain : ∀ (p : ℕ) (kind : NodeKind) (handler : Bool) (limit : ℕ) (out allow : Bool),
      addNodeWithLimitInternal t p kind handler limit out allow = .ok (id, t') →
      id = t.plan.nodeCount+1 ∧ t.busy = false ∧ ∃ p plan, Added t t' p plan := by
    intro p kind handler limit out allow h
    obtain ⟨hid, hbusy, depth, ha⟩ := added_internal ht h
    exact ⟨hid, hbusy, p, _, ha⟩
  subst h
  cases call <;> simp only [Call.add?, Option.some.injEq, reduceCtorEq] at hr
  case addNodeWithLimit => exact hplain _ _ _ _ _ _ hr
  case addNode => exact hplain _ _ _ _ _ _ hr
  case addTimedNode =>
    apply hconf _ _ _ _ _ _ _ _ _ hr
    exact ⟨fun p => ⟨rfl, rfl, rfl, rfl, rfl, rfl, rfl⟩, fun _ => rfl, fun _ => rfl,
      fun _ => rfl, fun _ _ _ => rfl⟩
  all_goals
    apply hconf _ _ _ _ _ _ _ _ _ hr
    exact configures_callbacks (fun p => ⟨rfl, rfl, rfl, rfl, rfl, rfl, rfl⟩)
      (fun _ => rfl) (fun _ => rfl) (fun _ => rfl) (fun _ => rfl)

theorem topology_added (hw : Topology t.plan) (hdeep : 0 < t.plan.maxDepth) (ha : Added t t' p plan) :
    Topology t'.plan := by
  have hs := ha.fresh
  rcases ha.place with ⟨hp, hcount, hd, hplan⟩ | ⟨hp, hacc, hd, hle, hatt⟩
  · rw [hplan]
    have hroom := ha.room
    rw [hcount] at hroom
    exact topology_root t.plan hroom hdeep (hs.parent.trans hp) hs.firstChild hs.lastChild
      hs.childCount hd
  · apply topology_attached hw hatt hp hs.parent hs.firstChild hs.lastChild hs.nextSibling
      hs.childCount hd hle ha.room
    simp only [acceptsChild, Bool.and_eq_true] at hacc
    exact hacc.1.1.1

theorem added_bounds (ha : Added t t' p plan) : t'.plan.maxDepth = t.plan.maxDepth ∧
      t'.plan.maxControlIterations = t.plan.maxControlIterations ∧
      t'.plan.nodeCount = t.plan.nodeCount+1 ∧ t'.plan.node (t.plan.nodeCount+1) = plan := by
  rcases ha.place with ⟨-, hcount, -, hplan⟩ | ⟨-, -, -, -, hatt⟩
  · rw [hplan, hcount]
    exact ⟨rfl, rfl, rfl, by simp [rootPlan]⟩
  · exact ⟨hatt.max_depth, hatt.max_control, hatt.count, hatt.new⟩

theorem added_old (ha : Added t t' p plan) {j : ℕ} (hj : nodeIdValid t.plan j = true) :
    t'.plan.node j = { t.plan.node j with
      firstChild := (t'.plan.node j).firstChild
      lastChild := (t'.plan.node j).lastChild
      nextSibling := (t'.plan.node j).nextSibling
      childCount := (t'.plan.node j).childCount } := by
  obtain ⟨hj0, hjle⟩ := nodeIdValid_iff.mp hj
  rcases ha.place with ⟨-, hcount, -, -⟩ | ⟨-, -, -, -, hatt⟩
  · omega
  · rw [hatt.old j hjle]

variable {i : ℕ}

theorem added_valid (ha : Added t t' p plan) :
    nodeIdValid t'.plan i = true ↔ i = t.plan.nodeCount+1 ∨ nodeIdValid t.plan i = true := by
  rw [nodeIdValid_iff, nodeIdValid_iff, (added_bounds ha).2.2.1]
  omega

theorem well_built_added (hw : WellBuilt t.plan) (ha : Added t t' p plan) : WellBuilt t'.plan := by
  obtain ⟨hdepth, hcontrol, -, hnew⟩ := added_bounds ha
  refine { topology_added hw.toTopology hw.depth_pos ha with
    configured := ?_, depth_pos := hdepth ▸ hw.depth_pos }
  intro i hi
  rw [hcontrol]
  rcases (added_valid ha).mp hi with rfl | hi
  · rw [hnew]
    refine ⟨ha.limit, by rw [ha.mask]; decide, by rw [ha.mask, ha.resolver]; simp, ?_⟩
    rw [ha.mask]
    simp [resolverTargets, maskLimit, maskDuration]
  · obtain ⟨h₁, h₂, h₃, h₄⟩ := hw.configured i hi
    rw [added_old ha hi]
    exact ⟨h₁, h₂, h₃, h₄⟩

theorem added_children (hw : WellBuilt t.plan) (ha : Added t t' p plan)
    (hi : nodeIdValid t.plan i = true) : children t'.plan i =
      children t.plan i ++ if i = p then [t.plan.nodeCount+1] else [] := by
  have hi' := (added_valid ha).mpr (Or.inr hi)
  obtain ⟨hi0, hile⟩ := nodeIdValid_iff.mp hi
  rw [children_eq (well_built_added hw ha).toTopology hi', children_eq hw.toTopology hi]
  rcases ha.place with ⟨-, hcount, -, -⟩ | ⟨-, -, -, -, hatt⟩
  · omega
  · exact attached_childrenOf hatt ha.fresh.parent i

theorem added_new_children (hw : WellBuilt t.plan) (ha : Added t t' p plan) :
    children t'.plan (t.plan.nodeCount+1) = [] := by
  have hv := (added_valid ha).mpr (Or.inl rfl)
  have ht := (well_built_added hw ha).toTopology
  have hcount := childCount_eq ht hv
  rw [(added_bounds ha).2.2.2, ha.fresh.childCount] at hcount
  exact List.length_eq_zero_iff.mp hcount.symm

variable {c : ℕ}

theorem isChild_added (ha : Added t t' p plan) :
    IsChild t'.plan i c ↔ IsChild t.plan i c ∨ (c = t.plan.nodeCount+1 ∧ i = p ∧ p ≠ 0) := by
  have hnew : (t'.plan.node (t.plan.nodeCount+1)).parent = p := by
    rw [(added_bounds ha).2.2.2]
    exact ha.fresh.parent
  constructor
  · intro h
    obtain ⟨hc, hi, hparent⟩ := h
    rcases (added_valid ha).mp hc with rfl | hc
    · right
      rw [hnew] at hparent
      exact ⟨rfl, hparent.symm, hparent ▸ hi⟩
    · left
      rw [added_old ha hc] at hparent
      exact ⟨hc, hi, hparent⟩
  · intro h
    rcases h with ⟨hc, hi, hparent⟩ | ⟨rfl, rfl, hp⟩
    · refine ⟨(added_valid ha).mpr (Or.inr hc), hi, ?_⟩
      rw [added_old ha hc]
      exact hparent
    · exact ⟨(added_valid ha).mpr (Or.inl rfl), hp, hnew⟩

theorem no_child_of_new (hw : WellBuilt t.plan) (ha : Added t t' p plan) :
    ¬ IsChild t'.plan (t.plan.nodeCount+1) c := by
  intro hc
  have hmem := (mem_children (well_built_added hw ha).toTopology
    ((added_valid ha).mpr (Or.inl rfl))).mpr hc
  rw [added_new_children hw ha] at hmem
  exact absurd hmem List.not_mem_nil

theorem below_added (hw : WellBuilt t.plan) (ha : Added t t' p plan) {j : ℕ} (h : Below t'.plan i j) :
    Below t.plan i j ∨ j = t.plan.nodeCount+1 := by
  induction h with
  | refl => exact Or.inl (below_refl i)
  | tail _ hc ih =>
    rcases ih with hb | rfl
    · rcases (isChild_added ha).mp hc with hc | ⟨rfl, -, -⟩
      · exact Or.inl (below_trans hb (below_child hc))
      · exact Or.inr rfl
    · exact absurd hc (no_child_of_new hw ha)

theorem added_nodes_old (ha : Added t t' p plan) (hi : nodeIdValid t.plan i = true) :
    t'.nodes i = t.nodes i := by
  rw [ha.nodes]
  apply Function.update_of_ne
  have := nodeIdValid_iff.mp hi
  omega

theorem added_nodes_new (ha : Added t t' p plan) : t'.nodes (t.plan.nodeCount+1) =
    freshState plan.configuredLimit plan.configuredDurationNs := by
  rw [ha.nodes, Function.update_self]

theorem firstChild_added (hw : WellBuilt t.plan) (ha : Added t t' p plan)
    (hi : nodeIdValid t.plan i = true) (hc : IsChild t.plan i c) :
    (t'.plan.node i).firstChild = (t.plan.node i).firstChild := by
  have hmem := (mem_children hw.toTopology hi).mpr hc
  rw [firstChild_eq (well_built_added hw ha).toTopology ((added_valid ha).mpr (Or.inr hi)),
    firstChild_eq hw.toTopology hi, added_children hw ha hi]
  cases hl : children t.plan i with
  | nil =>
    rw [hl] at hmem
    exact absurd hmem List.not_mem_nil
  | cons d l => rfl

end Added

section Resolvers
variable {P : Plan}

theorem same_shape_withResolver (id mask : ℕ) (resolver : Option ℕ) (user : ℕ) :
    SamePlanShape P (withResolver P id mask resolver user) :=
  same_shape_modify ⟨rfl, rfl, rfl, rfl, rfl, rfl, rfl⟩

theorem well_built_withResolver (hw : WellBuilt P) {id mask : ℕ} {resolver : Option ℕ} (user : ℕ)
    (hmask : mask < 3) (hzero : mask = 0 ↔ resolver = none)
    (htargets : resolverTargets (P.node id).kind mask = true) :
    WellBuilt (withResolver P id mask resolver user) := by
  have hs := same_shape_withResolver (P := P) id mask resolver user
  refine { topology_same_shape hw.toTopology hs with configured := ?_, depth_pos := hw.depth_pos }
  intro i hi
  rw [valid_same_shape hs] at hi
  have hc := hw.configured i hi
  by_cases he : i = id
  · subst he
    simp only [withResolver, Plan.modify, Function.update_self]
    exact ⟨hc.limit, hmask, hzero, htargets⟩
  · simp only [withResolver, Plan.modify, Function.update_of_ne he]
    exact hc

end Resolvers

theorem well_built_empty {config : TreeConfig} (hc : configAccepted config = true) :
    WellBuilt (emptyImpl config).plan := by
  simp only [configAccepted, Bool.and_eq_true, decide_eq_true_eq] at hc
  refine { topology_empty config with configured := ?_, depth_pos := Nat.pos_of_ne_zero hc.1.1.1.2 }
  intro i hi
  obtain ⟨h0, hle⟩ := nodeIdValid_iff.mp hi
  have hle : i ≤ 0 := hle
  omega

end SaltsUtils.BehaviorTree
