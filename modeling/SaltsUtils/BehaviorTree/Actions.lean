import SaltsUtils.BehaviorTree.ResetTrace

/-!
# Actions of a tick and what they leave idle
-/

set_option autoImplicit false

/-!
## What a tick can do to a world

An action is one atomic change that the tick of some node makes: an assignment to its own
fields, a callback, or a callback together with the flag that records it.
-/

namespace SaltsUtils.BehaviorTree
open SaltsUtils.Forest

variable {σ : Type}

structure RestNode (p : NodePlan) (n : NodeState) : Prop where
  running : p.kind = .leaf → n.running = false
  prepared : p.kind = .pipelineSequence ∨ p.kind = .consumeQueue → n.prepared = false

/-- No work and no context is active at `i` or below. -/
def Idle (P : Plan) (ns : ℕ → NodeState) (i : ℕ) : Prop :=
  ∀ j, Below P i j → RestNode (P.node j) (ns j) ∧
    (j ≠ i → (P.node (P.node j).parent).kind = .parallel →
      (ns j).parallelBranchPrepared = false)

/-- An assignment to own fields that no context or leaf depends on. -/
structure LocalWrite (P : Plan) (i : ℕ) (n n' : NodeState) : Prop where
  limit : n'.limit = n.limit
  durationNs : n'.durationNs = n.durationNs
  running : n'.running = n.running
  prepared : n'.prepared = n.prepared
  mark : n'.parallelBranchPrepared = n.parallelBranchPrepared
  counter : (P.node i).kind = .pipelineSequence → n'.counter = n.counter

def Marked (P : Plan) (ns : ℕ → NodeState) (i k : ℕ) : Prop :=
  ∃ c, (children P i)[k]? = some c ∧ (ns c).parallelBranchPrepared = true

/-- Callbacks that neither open nor close a context. -/
def Neutral (P : Plan) (ns : ℕ → NodeState) : Query → Answer → Prop
  | .resolver .., _ | .condition _, _ | .selector _, _ | .entryChanged _, _
  | .parallelJoin .., _ | .hrtime _, _ => True
  | .parallelStep i k _, _ => Marked P ns i k
  | .pipelineComplete i k status, a =>
    a.code ≠ .ok ∧ (ns i).prepared = true ∧ k = (ns i).counter ∧ status ≠ .running
  | .queueFinish i, a => a.code ≠ .ok ∧ (ns i).prepared = true
  | .parallelFinish i k _, a => a.code ≠ .ok ∧ Marked P ns i k
  | _, _ => False

inductive Act (P : Plan) (env : Env σ) : ℕ → World σ → World σ → Prop
  | write {i : ℕ} {w : World σ} {n : NodeState} :
      LocalWrite P i (w.nodes i) n → Act P env i w (w.set i n)
  | call {w : World σ} {q : Query} :
      Neutral P w.nodes q (w.answer env q) → Act P env q.node w (w.call env q)
  | resolve {i : ℕ} {w : World σ} {a : Answer} :
      (maskLimit (P.node i).dynamicParameterMask = true → a.limit ≤ P.maxControlIterations) →
      Act P env i w (w.set i (applyParameters (P.node i) a (w.nodes i)))
  | handler {i : ℕ} {w : World σ} :
      (P.node i).kind = .leaf → Act P env i w (tickLeaf env i w).2
  | prepare {i : ℕ} {w : World σ} :
      (P.node i).kind = .pipelineSequence → (w.nodes i).prepared = false →
      (w.nodes i).counter < (children P i).length →
      Act P env i w ((w.set i { w.nodes i with prepared := true }).call env
        (.pipelinePrepare i (w.nodes i).counter))
  | advance {i : ℕ} {w : World σ} :
      (P.node i).kind = .pipelineSequence → (w.nodes i).prepared = true →
      (w.answer env (.pipelineComplete i (w.nodes i).counter .success)).code = .ok →
      Act P env i w ((w.call env (.pipelineComplete i (w.nodes i).counter .success)).set i
        { w.nodes i with cursor := 0, prepared := false, counter := (w.nodes i).counter+1 })
  | give_up {i : ℕ} {w : World σ} :
      (P.node i).kind = .pipelineSequence → (w.nodes i).prepared = true →
      (w.answer env (.pipelineComplete i (w.nodes i).counter .failure)).code = .ok →
      Act P env i w (resetNodeState P env i
        ((w.call env (.pipelineComplete i (w.nodes i).counter .failure)).set i
          { w.nodes i with cursor := 0, prepared := false })).2
  | begin {i : ℕ} {w : World σ} {n : NodeState} :
      (P.node i).kind = .consumeQueue → (w.nodes i).prepared = false →
      n = { w.nodes i with prepared :=
        !(decide ((w.answer env (.queueBegin i)).code = .ok) &&
          !(w.answer env (.queueBegin i)).flag) } →
      Act P env i w ((w.call env (.queueBegin i)).set i n)
  | commit {i : ℕ} {w : World σ} :
      (P.node i).kind = .consumeQueue → (w.nodes i).prepared = true →
      (w.answer env (.queueFinish i)).code = .ok →
      Act P env i w ((w.call env (.queueFinish i)).set i { w.nodes i with prepared := false })
  | enter {i k c : ℕ} {w : World σ} :
      (P.node i).kind = .parallel → (P.node i).parallelEnter = true →
      (children P i)[k]? = some c →
      Act P env i w ((w.set c { w.nodes c with parallelBranchPrepared := true }).call env
        (.parallelEnter i k (!(w.nodes c).parallelBranchPrepared)))
  | finish {i k c : ℕ} {w : World σ} {status : NodeStatus} :
      (P.node i).kind = .parallel → (children P i)[k]? = some c →
      (w.nodes c).parallelBranchPrepared = true →
      (w.answer env (.parallelFinish i k status)).code = .ok →
      Act P env i w ((w.call env (.parallelFinish i k status)).set c
        { w.nodes c with parallelBranchPrepared := false })
  | reset {i j : ℕ} {w : World σ} {clear : Bool} :
      nodeIdValid P j = true → Below P i j →
      Act P env i w (resetNodeStateImpl P env P.nodeCount j clear w).2
  | visit {i : ℕ} {w : World σ} {r : TickResult} :
      (∀ status, r = .ok status → status ≠ .running → Idle P w.nodes i) →
      (∀ f, r = .error f → f.cause = .callback) → Act P env i w (visit i r w).2

/-- Actions of nodes in the subtree of `i`, one after the other. -/
def Steps (P : Plan) (env : Env σ) (i : ℕ) : World σ → World σ → Prop :=
  Relation.ReflTransGen (fun w w' => ∃ j, nodeIdValid P j = true ∧ Below P i j ∧ Act P env j w w')

section Steps
variable {P : Plan} {env : Env σ} {i c : ℕ} {w w' w'' : World σ}

theorem steps_refl : Steps P env i w w := Relation.ReflTransGen.refl

theorem steps_trans (h₁ : Steps P env i w w') (h₂ : Steps P env i w' w'') : Steps P env i w w'' :=
  Relation.ReflTransGen.trans h₁ h₂

theorem steps_below (hc : Below P i c) (h : Steps P env c w w') : Steps P env i w w' := by
  induction h with
  | refl => exact steps_refl
  | tail _ hact ih =>
    obtain ⟨j, hv, hj, ha⟩ := hact
    exact Relation.ReflTransGen.tail ih ⟨j, hv, below_trans hc hj, ha⟩

theorem steps_act (hi : nodeIdValid P i = true) (h₁ : Steps P env i w w')
    (h₂ : Act P env i w' w'') : Steps P env i w w'' :=
  Relation.ReflTransGen.tail h₁ ⟨i, hi, below_refl i, h₂⟩

theorem steps_invariant {I : World σ → Prop} (h : Steps P env i w w')
    (hact : ∀ j u u', nodeIdValid P j = true → Below P i j → Act P env j u u' → I u → I u')
    (hw : I w) : I w' := by
  induction h with
  | refl => exact hw
  | tail _ hstep ih =>
    obtain ⟨j, hv, hj, ha⟩ := hstep
    exact hact j _ _ hv hj ha ih

end Steps

variable {i j c : ℕ} {w w' : World σ} {n : NodeState}

section Frame
variable {P : Plan} {env : Env σ}

/-- What the subtree of `i` cannot change: the nodes outside it and the marker that belongs to the
parent of `i`. -/
structure Frame (P : Plan) (i : ℕ) (w w' : World σ) : Prop where
  outside : ∀ k, ¬ Below P i k → w'.nodes k = w.nodes k
  mark : (w'.nodes i).parallelBranchPrepared = (w.nodes i).parallelBranchPrepared
  trace : ∃ evs : List Event, w'.trace = w.trace ++ evs ∧ ∀ e ∈ evs, Below P i e.query.node

theorem frame_refl (i : ℕ) (w : World σ) : Frame P i w w :=
  ⟨fun _ _ => rfl, rfl, [], by simp, by simp⟩

theorem frame_trans {w'' : World σ} (h₁ : Frame P i w w') (h₂ : Frame P i w' w'') :
    Frame P i w w'' := by
  obtain ⟨ho₁, hm₁, evs₁, ht₁, he₁⟩ := h₁
  obtain ⟨ho₂, hm₂, evs₂, ht₂, he₂⟩ := h₂
  refine ⟨fun k hk => (ho₂ k hk).trans (ho₁ k hk), hm₂.trans hm₁, evs₁ ++ evs₂, ?_, ?_⟩
  · rw [ht₂, ht₁, List.append_assoc]
  · intro e he
    rcases List.mem_append.mp he with h | h
    · exact he₁ e h
    · exact he₂ e h

variable {q : Query}

theorem frame_call (hq : Below P i q.node) (w : World σ) : Frame P i w (w.call env q) := by
  refine ⟨fun _ _ => rfl, rfl, [⟨q, w.answer env q⟩], rfl, ?_⟩
  intro e he
  rw [List.mem_singleton.mp he]
  exact hq

theorem frame_set (hj : Below P i j)
    (hm : j = i → n.parallelBranchPrepared = (w.nodes j).parallelBranchPrepared) :
    Frame P i w (w.set j n) := by
  refine ⟨?_, ?_, [], by simp, by simp⟩
  · intro k hk
    apply set_nodes_ne
    rintro rfl
    exact hk hj
  · by_cases hij : i = j
    · subst hij
      rw [set_nodes_self]
      exact hm rfl
    · rw [set_nodes_ne w n hij]

theorem frame_call_set (hq : Below P i q.node) (hj : Below P i j)
    (hm : j = i → n.parallelBranchPrepared = (w.nodes j).parallelBranchPrepared) :
    Frame P i w ((w.call env q).set j n) := by
  have hcall : Frame P i w (w.call env q) := frame_call hq w
  exact frame_trans hcall (frame_set hj hm)

theorem frame_set_call (hq : Below P i q.node) (hj : Below P i j)
    (hm : j = i → n.parallelBranchPrepared = (w.nodes j).parallelBranchPrepared) :
    Frame P i w ((w.set j n).call env q) := by
  have hset : Frame P i w (w.set j n) := frame_set hj hm
  exact frame_trans hset (frame_call hq _)

theorem resetOne_mark_outer (clear : Bool) (j : ℕ) (n : NodeState) :
    (resetOne P clear false j n).parallelBranchPrepared = n.parallelBranchPrepared := by
  simp [resetOne, clearNode]

theorem frame_reset (ht : Topology P) (hv : nodeIdValid P j = true) (hj : Below P i j)
    (clear : Bool) (w : World σ) :
    Frame P i w (resetNodeStateImpl P env P.nodeCount j clear w).2 := by
  rw [reset_eq env ht clear hv]
  obtain ⟨evs, htrace, hqs⟩ := callAll_trace env (resetQueries P w.nodes P.nodeCount j)
    (w.withNodes (resetNodes P clear w.nodes j))
  refine ⟨?_, ?_, evs, htrace, ?_⟩
  · intro k hk
    rw [callAll_nodes]
    exact if_neg (fun hjk => hk (below_trans hj hjk))
  · rw [callAll_nodes]
    show (resetNodes P clear w.nodes j i).parallelBranchPrepared = _
    by_cases hji : Below P j i
    · have hij : i = j := below_antisymm (is_forest ht) hj hji
      subst hij
      simp only [resetNodes, if_pos hji, ne_eq, not_true_eq_false, decide_false]
      exact resetOne_mark_outer clear i _
    · simp only [resetNodes, if_neg hji]
  · intro e he
    have hmem : e.query ∈ evs.map Event.query := List.mem_map_of_mem he
    rw [hqs] at hmem
    exact below_trans hj (resetQueries_below ht w.nodes hmem)

theorem isChild_of_getElem? (ht : Topology P) {k : ℕ} (hi : nodeIdValid P i = true)
    (h : (children P i)[k]? = some c) : IsChild P i c :=
  (mem_children ht hi).mp (List.mem_of_getElem? h)

theorem tickLeaf_world (i : ℕ) (w : World σ) :
    (tickLeaf env i w).2 = match statusOf (w.answer env (.handler i)).status with
      | none => w.call env (.handler i)
      | some status => (w.call env (.handler i)).set i { w.nodes i with
          running := decide (status = .running), lastStatus := status } := by
  show ((match statusOf (w.answer env (.handler i)).status with
    | none => (pure (.error ⟨.einval, .callback⟩) : Run σ TickResult)
    | some status => _) (w.call env (.handler i))).2 = _
  cases statusOf (w.answer env (.handler i)).status with
  | none => rfl
  | some status => rfl

theorem applyParameters_keeps (plan : NodePlan) (a : Answer) (n : NodeState) :
    (applyParameters plan a n).running = n.running ∧
      (applyParameters plan a n).prepared = n.prepared ∧
      (applyParameters plan a n).parallelBranchPrepared = n.parallelBranchPrepared ∧
      (applyParameters plan a n).counter = n.counter := by
  simp only [applyParameters]
  split_ifs <;> exact ⟨rfl, rfl, rfl, rfl⟩

theorem frame_act (ht : Topology P) (hv : nodeIdValid P j = true) (hj : Below P i j)
    (ha : Act P env j w w') : Frame P i w w' := by
  have hkid : ∀ k c : ℕ, (children P j)[k]? = some c → Below P i c ∧ c ≠ i := by
    intro k c hc
    have hchild := isChild_of_getElem? ht hv hc
    refine ⟨below_trans hj (below_child hchild), ?_⟩
    rintro rfl
    exact not_below_parent (is_forest ht) hchild hj
  cases ha with
  | write h => exact frame_set hj (fun _ => h.mark)
  | call h => exact frame_call hj w
  | resolve h => exact frame_set hj (fun _ => (applyParameters_keeps _ _ _).2.2.1)
  | handler h =>
    rw [tickLeaf_world]
    cases statusOf (w.answer env (.handler j)).status with
    | none => exact frame_call hj w
    | some status => exact frame_call_set hj hj (fun _ => rfl)
  | prepare h₁ h₂ h₃ => exact frame_set_call hj hj (fun _ => rfl)
  | advance h₁ h₂ h₃ => exact frame_call_set hj hj (fun _ => rfl)
  | give_up h₁ h₂ h₃ =>
    have hgive : Frame P i w ((w.call env (.pipelineComplete j (w.nodes j).counter .failure)).set j
        { w.nodes j with cursor := 0, prepared := false }) :=
      frame_call_set hj hj (fun _ => rfl)
    exact frame_trans hgive (frame_reset ht hv hj false _)
  | begin h₁ h₂ h₃ => exact frame_call_set hj hj (fun _ => by rw [h₃])
  | commit h₁ h₂ h₃ => exact frame_call_set hj hj (fun _ => rfl)
  | enter h₁ h₂ h₃ =>
    obtain ⟨hc, hci⟩ := hkid _ _ h₃
    exact frame_set_call hj hc (fun he => absurd he hci)
  | finish h₁ h₂ h₃ h₄ =>
    obtain ⟨hc, hci⟩ := hkid _ _ h₂
    exact frame_call_set hj hc (fun he => absurd he hci)
  | reset hk hjk => exact frame_reset ht hk (below_trans hj hjk) _ w
  | visit _ _ => exact ⟨fun _ _ => rfl, rfl, [], by simp [visit], by simp⟩

theorem frame_steps (ht : Topology P) (h : Steps P env i w w') : Frame P i w w' :=
  steps_invariant (I := fun u => Frame P i w u) h
    (fun _ _ _ hv hj ha hf => frame_trans hf (frame_act ht hv hj ha)) (frame_refl i w)

end Frame

section Typed
variable {P : Plan} {env : Env σ}

/-- Which fields of a node state may differ from their constructor-time values,
by the kind of the node and of its parent. -/
structure TypedNode (P : Plan) (i : ℕ) (n : NodeState) : Prop where
  limit_static : maskLimit (P.node i).dynamicParameterMask = false →
    n.limit = (P.node i).configuredLimit
  limit_dynamic : maskLimit (P.node i).dynamicParameterMask = true →
    n.limit ≤ P.maxControlIterations
  duration_static : maskDuration (P.node i).dynamicParameterMask = false →
    n.durationNs = (P.node i).configuredDurationNs
  running : (P.node i).kind ≠ .leaf → n.running = false
  prepared : (P.node i).kind ≠ .pipelineSequence → (P.node i).kind ≠ .consumeQueue →
    n.prepared = false
  mark : n.parallelBranchPrepared = true → (P.node i).parent ≠ 0 ∧
    (P.node (P.node i).parent).kind = .parallel ∧
    (P.node (P.node i).parent).parallelEnter = true

def Typed (P : Plan) (ns : ℕ → NodeState) : Prop :=
  ∀ i, nodeIdValid P i = true → TypedNode P i (ns i)

/-- The fields that typing depends on are unchanged or have become false. -/
structure Tamer (n n' : NodeState) : Prop where
  limit : n'.limit = n.limit
  durationNs : n'.durationNs = n.durationNs
  running : n'.running = true → n.running = true
  prepared : n'.prepared = true → n.prepared = true
  mark : n'.parallelBranchPrepared = true → n.parallelBranchPrepared = true

theorem typed_tamer {n' : NodeState} (h : TypedNode P i n) (ht : Tamer n n') :
    TypedNode P i n' := by
  constructor
  case limit_static => rw [ht.limit]; exact h.limit_static
  case limit_dynamic => rw [ht.limit]; exact h.limit_dynamic
  case duration_static => rw [ht.durationNs]; exact h.duration_static
  case running =>
    intro hk
    have hr := h.running hk
    by_contra hne
    rw [ht.running (by simpa using hne)] at hr
    exact absurd hr (by decide)
  case prepared =>
    intro hk hk'
    have hr := h.prepared hk hk'
    by_contra hne
    rw [ht.prepared (by simpa using hne)] at hr
    exact absurd hr (by decide)
  case mark => exact fun hm => h.mark (ht.mark hm)

theorem typed_set (h : Typed P w.nodes) (hn : nodeIdValid P i = true → TypedNode P i n) :
    Typed P (w.set i n).nodes := by
  intro j hj
  by_cases hij : j = i
  · subst hij
    rw [set_nodes_self]
    exact hn hj
  · rw [set_nodes_ne w n hij]
    exact h j hj

theorem tamer_resetOne (clear inside : Bool) (j : ℕ) (n : NodeState) :
    Tamer n (resetOne P clear inside j n) := by
  constructor
  case limit => rfl
  case durationNs => rfl
  case running =>
    intro h
    simp only [resetOne, clearNode, Bool.and_eq_true] at h
    exact h.1
  case prepared =>
    intro h
    simp [resetOne, clearNode] at h
  case mark =>
    intro h
    simp only [resetOne, clearNode, Bool.and_eq_true] at h
    exact h.1

theorem typed_reset (ht : Topology P) (hv : nodeIdValid P j = true) (clear : Bool)
    (h : Typed P w.nodes) : Typed P (resetNodeStateImpl P env P.nodeCount j clear w).2.nodes := by
  rw [reset_nodes env ht clear hv]
  intro i hi
  by_cases hji : Below P j i
  · simp only [resetNodes, if_pos hji]
    exact typed_tamer (h i hi) (tamer_resetOne clear _ i _)
  · simp only [resetNodes, if_neg hji]
    exact h i hi

theorem typed_applyParameters {a : Answer} (h : TypedNode P i n)
    (ha : maskLimit (P.node i).dynamicParameterMask = true → a.limit ≤ P.maxControlIterations) :
    TypedNode P i (applyParameters (P.node i) a n) := by
  obtain ⟨hr, hp, hm, -⟩ := applyParameters_keeps (P.node i) a n
  constructor
  case limit_static =>
    intro hs
    have hlimit : (applyParameters (P.node i) a n).limit = n.limit := by
      simp only [applyParameters, hs]
      split_ifs <;> simp_all
    rw [hlimit]
    exact h.limit_static hs
  case limit_dynamic =>
    intro hs
    have hlimit : (applyParameters (P.node i) a n).limit = a.limit := by
      simp only [applyParameters, hs]
      split_ifs <;> rfl
    rw [hlimit]
    exact ha hs
  case duration_static =>
    intro hs
    have hduration : (applyParameters (P.node i) a n).durationNs = n.durationNs := by
      simp only [applyParameters, hs]
      split_ifs <;> simp_all
    rw [hduration]
    exact h.duration_static hs
  case running => rw [hr]; exact h.running
  case prepared => rw [hp]; exact h.prepared
  case mark => rw [hm]; exact h.mark

theorem typed_act (ht : Topology P) (hv : nodeIdValid P j = true) (ha : Act P env j w w')
    (h : Typed P w.nodes) : Typed P w'.nodes := by
  cases ha with
  | write hw =>
    exact typed_set h fun hj => typed_tamer (h j hj) ⟨hw.limit, hw.durationNs,
      fun e => hw.running ▸ e, fun e => hw.prepared ▸ e, fun e => hw.mark ▸ e⟩
  | call _ => exact h
  | resolve ha => exact typed_set h fun hj => typed_applyParameters (h j hj) ha
  | handler hk =>
    rw [tickLeaf_world]
    cases statusOf (w.answer env (.handler j)).status with
    | none => exact h
    | some status =>
      apply typed_set (w := w.call env (.handler j)) h
      intro hj
      obtain ⟨h₁, h₂, h₃, -, h₅, h₆⟩ := h j hj
      exact ⟨h₁, h₂, h₃, fun hne => absurd hk hne, h₅, h₆⟩
  | prepare hk _ _ =>
    apply typed_set h
    intro hj
    obtain ⟨h₁, h₂, h₃, h₄, -, h₆⟩ := h j hj
    exact ⟨h₁, h₂, h₃, h₄, fun hne => absurd hk hne, h₆⟩
  | advance _ _ _ =>
    apply typed_set (w := w.call env _) h
    exact fun hj => typed_tamer (h j hj) ⟨rfl, rfl, id, fun e => absurd e (by simp), id⟩
  | give_up _ _ _ =>
    apply typed_reset ht hv
    apply typed_set (w := w.call env _) h
    exact fun hj => typed_tamer (h j hj) ⟨rfl, rfl, id, fun e => absurd e (by simp), id⟩
  | begin hk _ hn =>
    apply typed_set (w := w.call env _) h
    intro hj
    obtain ⟨h₁, h₂, h₃, h₄, -, h₆⟩ := h j hj
    rw [hn]
    exact ⟨h₁, h₂, h₃, h₄, fun _ hne => absurd hk hne, h₆⟩
  | commit _ _ _ =>
    apply typed_set (w := w.call env _) h
    exact fun hj => typed_tamer (h j hj) ⟨rfl, rfl, id, fun e => absurd e (by simp), id⟩
  | enter hk he hc =>
    apply typed_set h
    intro hcv
    have hp := (isChild_of_getElem? ht hv hc).2.2
    obtain ⟨h₁, h₂, h₃, h₄, h₅, -⟩ := h _ hcv
    exact ⟨h₁, h₂, h₃, h₄, h₅, fun _ => by
      rw [hp]
      exact ⟨(nodeIdValid_iff.mp hv).1, hk, he⟩⟩
  | finish _ hc _ _ =>
    apply typed_set (w := w.call env _) h
    exact fun hcv => typed_tamer (h _ hcv) ⟨rfl, rfl, id, id, fun e => absurd e (by simp)⟩
  | reset hk _ => exact typed_reset ht hk _ h
  | visit _ _ => exact h

theorem typed_steps (ht : Topology P) (h : Steps P env i w w') (hw : Typed P w.nodes) :
    Typed P w'.nodes :=
  steps_invariant (I := fun u => Typed P u.nodes) h
    (fun _ _ _ hv _ ha hu => typed_act ht hv ha hu) hw

end Typed

/-!
## Idle subtrees and the activity invariant

A subtree is idle when no leaf in it is running and no adapter context in it is open.
-/

/-- The child that a node has selected, 0 if there is none: its only child, the
child under its cursor, or its condition while no branch is active. -/
def activeChild (p : NodePlan) (n : NodeState) : ℕ :=
  match p.kind with
  | .leaf => 0
  | .inverter | .forceSuccess | .forceFailure | .retry | .repeat | .timeout | .delay | .runOnce
  | .keepRunningUntilFailure | .entryUpdated | .consumeQueue => p.firstChild
  | .precondition | .ifThenElse | .whileDo =>
    if n.cursor ≠ 0 then n.cursor else if p.condition then 0 else p.firstChild
  | .sequence | .fallback | .reactiveSequence | .reactiveFallback | .switch | .pipelineSequence
  | .parallel => n.cursor

/-- The node answers its next tick, or may do so, without ticking its child. -/
def Cached (p : NodePlan) (n : NodeState) : Prop :=
  (p.kind = .runOnce ∧ n.runOnceComplete = true) ∨
  (p.kind = .entryUpdated ∧ n.observed = true ∧ n.cursor = 0 ∧ n.lastStatus ≠ .running)

/-- The activity invariant at one node, for a set `B` of children that may be
other than idle. -/
structure OwnOk (P : Plan) (i : ℕ) (B : Set ℕ) (n : NodeState) : Prop where
  cursor : n.cursor = 0 ∨ IsChild P i n.cursor
  active : (P.node i).kind ≠ .parallel → ∀ c, IsChild P i c → c ∈ B →
    c = activeChild (P.node i) n
  cached : Cached (P.node i) n → ∀ c, IsChild P i c → c ∉ B
  pipeline : (P.node i).kind = .pipelineSequence →
    if n.prepared then n.counter < (children P i).length else n.cursor = 0

def busyNodes (P : Plan) (ns : ℕ → NodeState) : Set ℕ := {c | ¬ Idle P ns c}

def NodeInv (P : Plan) (ns : ℕ → NodeState) (i : ℕ) : Prop := OwnOk P i (busyNodes P ns) (ns i)

/-- The activity invariant at `i` and everywhere below. -/
def Good (P : Plan) (ns : ℕ → NodeState) (i : ℕ) : Prop := ∀ j, Below P i j → NodeInv P ns j

section Congruence
variable {P : Plan} {ns ns' : ℕ → NodeState}

structure AgreeBelow (P : Plan) (ns ns' : ℕ → NodeState) (i : ℕ) : Prop where
  below : ∀ k, Below P i k → k ≠ i → ns' k = ns k
  root : ∃ x, ns' i = { ns i with parallelBranchPrepared := x }

theorem agree_of_eq (h : ∀ k, Below P i k → ns' k = ns k) : AgreeBelow P ns ns' i :=
  ⟨fun k hk _ => h k hk, (ns i).parallelBranchPrepared, h i (below_refl i)⟩

theorem agree_child (ht : Topology P) (h : AgreeBelow P ns ns' i) (hj : Below P i j)
    (hc : IsChild P j c) : AgreeBelow P ns ns' c := by
  apply agree_of_eq
  intro k hk
  apply h.below k (below_trans hj (below_of_child hc hk))
  rintro rfl
  exact not_below_parent (is_forest ht) hc (below_trans hk hj)

theorem idle_congr (h : AgreeBelow P ns ns' i) (hi : Idle P ns i) : Idle P ns' i := by
  intro j hj
  obtain ⟨hrest, hmark⟩ := hi j hj
  by_cases hji : j = i
  · subst hji
    obtain ⟨x, hx⟩ := h.root
    rw [hx]
    exact ⟨⟨hrest.running, hrest.prepared⟩, fun hne => absurd rfl hne⟩
  · rw [h.below j hj hji]
    exact ⟨hrest, hmark⟩

theorem ownOk_mono {B B' : Set ℕ} (h : OwnOk P i B n) (hB : ∀ c, IsChild P i c → c ∈ B' → c ∈ B) :
    OwnOk P i B' n :=
  ⟨h.cursor, fun hk c hc hcB => h.active hk c hc (hB c hc hcB),
    fun hcached c hc hcB => h.cached hcached c hc (hB c hc hcB), h.pipeline⟩

theorem good_congr (ht : Topology P) (h : AgreeBelow P ns ns' i) (hg : Good P ns i) :
    Good P ns' i := by
  intro j hj
  have hinv := hg j hj
  have hB : ∀ c, IsChild P j c → c ∈ busyNodes P ns' → c ∈ busyNodes P ns :=
    fun c hc hn hidle => hn (idle_congr (agree_child ht h hj hc) hidle)
  have hown := ownOk_mono hinv hB
  show OwnOk P j _ (ns' j)
  by_cases hji : j = i
  · subst hji
    obtain ⟨x, hx⟩ := h.root
    rw [hx]
    exact ⟨hown.cursor, hown.active, hown.cached, hown.pipeline⟩
  · rw [h.below j hj hji]
    exact hown

theorem good_child (hg : Good P ns i) (hc : IsChild P i c) : Good P ns c :=
  fun j hj => hg j (below_of_child hc hj)

end Congruence

section Reset
variable {P : Plan} {ns : ℕ → NodeState}

theorem restNode_resetOne (clear inside : Bool) (j : ℕ) (n : NodeState) :
    RestNode (P.node j) (resetOne P clear inside j n) := by
  constructor
  · intro hk
    simp [resetOne, clearNode, hk]
  · intro _
    rfl

theorem idle_resetNodes (clear : Bool) (id : ℕ) : Idle P (resetNodes P clear ns id) id := by
  intro j hj
  simp only [resetNodes, if_pos hj]
  refine ⟨restNode_resetOne clear _ j _, ?_⟩
  intro hne hk
  simp [resetOne, clearNode, hne, hk]

theorem idle_resetNodes_of_idle (clear : Bool) (id : ℕ) (h : Idle P ns i) :
    Idle P (resetNodes P clear ns id) i := by
  intro j hj
  obtain ⟨hrest, hmark⟩ := h j hj
  by_cases hb : Below P id j
  · simp only [resetNodes, if_pos hb]
    refine ⟨restNode_resetOne clear _ j _, ?_⟩
    intro hne hk
    simp [resetOne, clearNode, hmark hne hk]
  · simp only [resetNodes, if_neg hb]
    exact ⟨hrest, hmark⟩

theorem idle_of_below (ht : Topology P) (h : Idle P ns i) (hj : Below P i j) : Idle P ns j := by
  intro k hk
  obtain ⟨hrest, hmark⟩ := h k (below_trans hj hk)
  refine ⟨hrest, fun hne => hmark ?_⟩
  rintro rfl
  exact hne (below_antisymm (is_forest ht) hj hk)

theorem nodeInv_resetNodes (ht : Topology P) (clear : Bool) {id : ℕ} (hj : Below P id j) :
    NodeInv P (resetNodes P clear ns id) j := by
  have hcursor : (resetNodes P clear ns id j).cursor = 0 := by
    simp only [resetNodes, if_pos hj]
    rfl
  have hidle : ∀ c, IsChild P j c → Idle P (resetNodes P clear ns id) c := fun c hc =>
    idle_of_below ht (idle_resetNodes clear id) (below_trans hj (below_child hc))
  have hprepared : (resetNodes P clear ns id j).prepared = false := by
    simp only [resetNodes, if_pos hj]
    rfl
  exact ⟨Or.inl hcursor, fun _ c hc hn => absurd (hidle c hc) hn,
    fun _ c hc hn => hn (hidle c hc), fun _ => by simpa [hprepared] using hcursor⟩

theorem good_resetNodes (ht : Topology P) (clear : Bool) (id : ℕ) (h : Good P ns i) :
    Good P (resetNodes P clear ns id) i := by
  intro j hj
  by_cases hb : Below P id j
  · exact nodeInv_resetNodes ht clear hb
  · have hinv := h j hj
    have hns : resetNodes P clear ns id j = ns j := by simp only [resetNodes, if_neg hb]
    show OwnOk P j _ (resetNodes P clear ns id j)
    rw [hns]
    exact ownOk_mono hinv (fun c _ hn hidle => hn (idle_resetNodes_of_idle clear id hidle))

end Reset

end SaltsUtils.BehaviorTree
