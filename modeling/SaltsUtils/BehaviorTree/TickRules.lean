import SaltsUtils.BehaviorTree.Actions

/-!
# Rules for programs of a node

The programs of `tick_node_impl` are followed with an assertion about three things: the
world is reached by actions of the subtree, the node's own state is a known value, and the
children outside a known set are idle.
-/

set_option autoImplicit false

namespace SaltsUtils.BehaviorTree
open SaltsUtils.Forest

variable {σ : Type}

/-- The code with which an answer makes the tick fail, if it does. -/
def faultOf (P : Plan) (e : Event) : Option Code :=
  match e.query with
  | .handler _ => if statusOf e.answer.status = none then some .einval else none
  | .condition _ =>
    if e.answer.code ≠ .ok then some e.answer.code
    else if statusOf e.answer.status = none then some .einval else none
  | .resolver id _ _ _ _ =>
    if e.answer.code ≠ .ok then some e.answer.code
    else if maskLimit (P.node id).dynamicParameterMask ∧ P.maxControlIterations < e.answer.limit
      then some .einval else none
  | .selector _ | .pipelinePrepare .. | .pipelineComplete .. | .entryChanged _ | .queueBegin _
  | .queueFinish _ | .parallelEnter .. | .parallelStep .. | .parallelJoin ..
  | .parallelFinish .. => if e.answer.code ≠ .ok then some e.answer.code else none
  | .halt _ | .pipelineAbort .. | .queueAbort _ | .parallelAbort .. | .hrtime _ => none

/-- The event has occurred since `w₀`. -/
def Seen (w₀ : World σ) (e : Event) (w : World σ) : Prop :=
  ∃ evs : List Event, w.trace = w₀.trace ++ evs ∧ e ∈ evs

/-- Some callback since `w₀` has caused the fault, and it is reported as such. -/
def Blamed (P : Plan) (w₀ : World σ) (f : Fault) (w : World σ) : Prop :=
  f.cause = .callback ∧ ∃ e, Seen w₀ e w ∧ faultOf P e = some f.code

/-- The assertion carried through a program of node `id`. -/
structure At (P : Plan) (env : Env σ) (w₀ : World σ) (id : ℕ) (B : Set ℕ) (n : NodeState)
    (w : World σ) : Prop where
  steps : Steps P env id w₀ w
  typed : Typed P w.nodes
  own : w.nodes id = n
  kids : ∀ c, IsChild P id c → Good P w.nodes c ∧ (c ∉ B → Idle P w.nodes c)

/-- The specification of a tick: the activity invariant holds again, a terminal
status leaves the subtree idle, and a failure is due to a callback. -/
structure Post (P : Plan) (env : Env σ) (w₀ : World σ) (id : ℕ) (r : TickResult) (w : World σ) :
    Prop where
  steps : Steps P env id w₀ w
  ok : ∀ status, r = .ok status →
    Good P w.nodes id ∧ (status ≠ .running → Idle P w.nodes id)
  error : ∀ f, r = .error f → Blamed P w₀ f w

def Meets (P : Plan) (env : Env σ) (w₀ : World σ) (id : ℕ) (B : Set ℕ) (n : NodeState)
    (m : Run σ TickResult) : Prop :=
  ∀ w, At P env w₀ id B n w → Post P env w₀ id (m w).1 (m w).2

/-- What the programs of node `id` rely on: a validated node in a well-shaped
plan, and an action that ticks its children as specified. -/
structure TickContext (P : Plan) (env : Env σ) (tick : ℕ → Run σ TickResult) (id : ℕ) :
    Prop where
  top : Topology P
  valid : nodeIdValid P id = true
  arity : arityAccepted (P.node id) = true
  callbacks : callbacksAccepted (P.node id) = true
  tick : ∀ c, IsChild P id c → ∀ w, Typed P w.nodes → Good P w.nodes c →
    Post P env w c (tick c w).1 (tick c w).2

def ticked (B : Set ℕ) (c : ℕ) (status : NodeStatus) : Set ℕ :=
  {d | (d = c ∧ status = .running) ∨ (d ≠ c ∧ d ∈ B)}

/-- The condition under which a program may return `status`. -/
structure Settled (P : Plan) (id : ℕ) (B : Set ℕ) (n : NodeState) (status : NodeStatus) :
    Prop extends OwnOk P id B n where
  rest : status ≠ .running → (∀ c, IsChild P id c → c ∉ B) ∧ RestNode (P.node id) n ∧
    (P.node id).kind ≠ .parallel

section Blame
variable {P : Plan} {w₀ w w' : World σ} {e : Event} {f : Fault} {i : ℕ}

theorem seen_frame (h : Seen w₀ e w) (hf : Frame P i w w') : Seen w₀ e w' := by
  obtain ⟨evs, htrace, he⟩ := h
  obtain ⟨evs', htrace', -⟩ := hf.trace
  exact ⟨evs ++ evs', by rw [htrace', htrace, List.append_assoc], List.mem_append_left evs' he⟩

theorem frame_seen (hf : Frame P i w₀ w) (h : Seen w e w') : Seen w₀ e w' := by
  obtain ⟨evs, htrace, -⟩ := hf.trace
  obtain ⟨evs', htrace', he⟩ := h
  exact ⟨evs ++ evs', by rw [htrace', htrace, List.append_assoc], List.mem_append_right evs he⟩

theorem seen_call (env : Env σ) (q : Query) (w : World σ) :
    Seen w ⟨q, w.answer env q⟩ (w.call env q) :=
  ⟨[⟨q, w.answer env q⟩], rfl, List.mem_singleton_self _⟩

theorem blamed_frame (h : Blamed P w₀ f w) (hf : Frame P i w w') : Blamed P w₀ f w' := by
  obtain ⟨hc, e, hs, he⟩ := h
  exact ⟨hc, e, seen_frame hs hf, he⟩

theorem frame_blamed (hf : Frame P i w₀ w) (h : Blamed P w f w') : Blamed P w₀ f w' := by
  obtain ⟨hc, e, hs, he⟩ := h
  exact ⟨hc, e, frame_seen hf hs, he⟩

end Blame

variable {q : Query} {c : ℕ} {f : Fault} {cleanup : Run σ Unit} {status : NodeStatus}

section Rules
variable {P : Plan} {env : Env σ} {tick : ℕ → Run σ TickResult} {w₀ w w' : World σ} {id : ℕ}
  {B : Set ℕ} {n n' : NodeState}

section
variable (h : TickContext P env tick id) (ha : At P env w₀ id B n w)
include h ha

theorem at_frame : Frame P id w₀ w :=
  frame_steps h.top ha.steps

theorem at_act (hact : Act P env id w w') (hown : w'.nodes id = n')
    (hrest : ∀ k, k ≠ id → w'.nodes k = w.nodes k) : At P env w₀ id B n' w' := by
  refine ⟨steps_act h.valid ha.steps hact, typed_act h.top h.valid hact ha.typed, hown, ?_⟩
  intro c hc
  have hagree : AgreeBelow P w.nodes w'.nodes c := by
    apply agree_of_eq
    intro k hk
    apply hrest k
    rintro rfl
    exact not_below_parent (is_forest h.top) hc hk
  obtain ⟨hgood, hidle⟩ := ha.kids c hc
  exact ⟨good_congr h.top hagree hgood, fun hcB => idle_congr hagree (hidle hcB)⟩

theorem at_write (hw : LocalWrite P id n n') : At P env w₀ id B n' (w.set id n') := by
  have hact : Act P env id w (w.set id n') := Act.write (ha.own ▸ hw)
  exact at_act h ha hact (set_nodes_self w id n') (fun k hk => set_nodes_ne w n' hk)

theorem at_call (hq : q.node = id) (hneutral : Neutral P w.nodes q (w.answer env q)) :
    At P env w₀ id B n (w.call env q) := by
  subst hq
  exact at_act h ha (Act.call hneutral) ha.own (fun _ _ => rfl)

theorem at_reset_child (hc : IsChild P id c) (clear : Bool) :
    At P env w₀ id (B \ {c}) n (resetNodeStateImpl P env P.nodeCount c clear w).2 := by
  have hact : Act P env id w (resetNodeStateImpl P env P.nodeCount c clear w).2 :=
    Act.reset hc.1 (below_child hc)
  refine ⟨steps_act h.valid ha.steps hact, typed_act h.top h.valid hact ha.typed, ?_, ?_⟩
  · rw [(frame_reset h.top hc.1 (below_refl c) clear w).outside id
      (not_below_parent (is_forest h.top) hc)]
    exact ha.own
  · intro d hd
    obtain ⟨hgood, hidle⟩ := ha.kids d hd
    rw [reset_nodes env h.top clear hc.1]
    refine ⟨good_resetNodes h.top clear c hgood, ?_⟩
    intro hdB
    by_cases hdc : d = c
    · rw [hdc]
      exact idle_resetNodes clear c
    · apply idle_resetNodes_of_idle
      apply hidle
      intro hmem
      exact hdB ⟨hmem, hdc⟩

end

theorem at_mono (ha : At P env w₀ id B n w) {B' : Set ℕ}
    (hB : ∀ c, IsChild P id c → c ∈ B → c ∈ B') : At P env w₀ id B' n w :=
  ⟨ha.steps, ha.typed, ha.own, fun c hc =>
    ⟨(ha.kids c hc).1, fun hcB => (ha.kids c hc).2 (fun hmem => hcB (hB c hc hmem))⟩⟩

theorem at_tick (h : TickContext P env tick id) (ha : At P env w₀ id B n w) (hc : IsChild P id c) :
    (∀ status, (tick c w).1 = .ok status → At P env w₀ id (ticked B c status) n (tick c w).2) ∧
      (∀ f, (tick c w).1 = .error f →
        Steps P env id w₀ (tick c w).2 ∧ Blamed P w₀ f (tick c w).2) := by
  have hpost := h.tick c hc w ha.typed (ha.kids c hc).1
  have hframe := frame_steps h.top hpost.steps
  have hsteps : Steps P env id w₀ (tick c w).2 :=
    steps_trans ha.steps (steps_below (below_child hc) hpost.steps)
  constructor
  · intro status hr
    obtain ⟨hgood, hidle⟩ := hpost.ok status hr
    refine ⟨hsteps, typed_steps h.top hpost.steps ha.typed, ?_, ?_⟩
    · rw [hframe.outside id (not_below_parent (is_forest h.top) hc)]
      exact ha.own
    · intro d hd
      by_cases hdc : d = c
      · subst hdc
        refine ⟨hgood, fun hdB => hidle ?_⟩
        intro hrun
        exact hdB (Or.inl ⟨rfl, hrun⟩)
      · have hagree : AgreeBelow P w.nodes (tick c w).2.nodes d := by
          apply agree_of_eq
          intro k hk
          exact hframe.outside k (below_disjoint (is_forest h.top) hd hc hdc hk)
        obtain ⟨hg, hi⟩ := ha.kids d hd
        refine ⟨good_congr h.top hagree hg, fun hdB => idle_congr hagree (hi ?_)⟩
        intro hmem
        exact hdB (Or.inr ⟨hdc, hmem⟩)
  · intro f hr
    exact ⟨hsteps, frame_blamed (at_frame h ha) (hpost.error f hr)⟩

theorem post_error (hsteps : Steps P env id w₀ w) (hb : Blamed P w₀ f w) :
    Post P env w₀ id (.error f) w := by
  refine ⟨hsteps, fun _ hr => absurd hr (by simp), ?_⟩
  intro f' hr
  rw [← Except.error.inj hr]
  exact hb

theorem post_error_reset (h : TickContext P env tick id) (hsteps : Steps P env id w₀ w)
    (hb : Blamed P w₀ f w) : Post P env w₀ id (.error f) (resetNodeState P env id w).2 := by
  apply post_error
  · exact steps_act h.valid hsteps (Act.reset h.valid (below_refl id))
  · exact blamed_frame hb (frame_reset h.top h.valid (below_refl id) false w)

def Cleanup (P : Plan) (env : Env σ) (id : ℕ) (cleanup : Run σ Unit) : Prop :=
  cleanup = pure () ∨ cleanup = resetNodeState P env id

theorem post_cleanup (h : TickContext P env tick id) (hclean : Cleanup P env id cleanup)
    (hsteps : Steps P env id w₀ w) (hb : Blamed P w₀ f w) :
    Post P env w₀ id (.error f) (cleanup w).2 := by
  rcases hclean with rfl | rfl
  · exact post_error hsteps hb
  · exact post_error_reset h hsteps hb

theorem good_settled (ha : At P env w₀ id B n w) (hown : OwnOk P id B n) : Good P w.nodes id := by
  intro j hj
  rcases below_cases hj with rfl | ⟨c, hc, hcj⟩
  · show OwnOk P j _ (w.nodes j)
    rw [ha.own]
    apply ownOk_mono hown
    intro c hc hbusy
    by_contra hcB
    exact hbusy ((ha.kids c hc).2 hcB)
  · exact (ha.kids c hc).1 j hcj

theorem post_done (ha : At P env w₀ id B n w) (hs : Settled P id B n status) :
    Post P env w₀ id (.ok status) w := by
  refine ⟨ha.steps, ?_, fun _ hr => absurd hr (by simp)⟩
  intro status' hr
  obtain rfl := Except.ok.inj hr
  refine ⟨good_settled ha hs.toOwnOk, ?_⟩
  intro hne
  obtain ⟨hkids, hrest, hpar⟩ := hs.rest hne
  intro j hj
  rcases below_cases hj with rfl | ⟨c, hc, hcj⟩
  · rw [ha.own]
    exact ⟨hrest, fun hjj => absurd rfl hjj⟩
  · obtain ⟨hrest', hmark⟩ := (ha.kids c hc).2 (hkids c hc) j hcj
    refine ⟨hrest', ?_⟩
    intro _ hk
    apply hmark _ hk
    rintro rfl
    rw [hc.2.2] at hk
    exact hpar hk

theorem post_after_reset (h : TickContext P env tick id)
    (hsteps : Steps P env id w₀ (resetNodeState P env id w).2)
    (htyped : Typed P (resetNodeState P env id w).2.nodes) (status : NodeStatus) :
    Post P env w₀ id (terminate P env id status w).1 (terminate P env id status w).2 := by
  let w₁ : World σ := (resetNodeState P env id w).2
  have hnodes : w₁.nodes = resetNodes P false w.nodes id := reset_nodes env h.top false h.valid w
  have hres : (terminate P env id status w) =
      (.ok status, w₁.set id { w₁.nodes id with lastStatus := status }) := rfl
  have hwrite : LocalWrite P id (w₁.nodes id) { w₁.nodes id with lastStatus := status } :=
    ⟨rfl, rfl, rfl, rfl, rfl, fun _ => rfl⟩
  have hinv : ∀ j, Below P id j → NodeInv P w₁.nodes j := by
    intro j hj
    rw [hnodes]
    exact nodeInv_resetNodes h.top false hj
  have hidle : Idle P w₁.nodes id := by
    rw [hnodes]
    exact idle_resetNodes false id
  have hat : At P env w₀ id ∅ (w₁.nodes id) w₁ := by
    refine ⟨hsteps, htyped, rfl, ?_⟩
    intro c hc
    exact ⟨fun j hj => hinv j (below_of_child hc hj),
      fun _ => idle_of_below h.top hidle (below_child hc)⟩
  have hat' := at_write h hat hwrite
  have hself := hinv id (below_refl id)
  rw [hres]
  refine ⟨hat'.steps, ?_, fun _ hr => absurd hr (by simp)⟩
  intro status' _
  refine ⟨good_settled hat' ⟨hself.cursor, fun _ c _ hc => absurd hc (Set.notMem_empty c),
    fun _ c _ => Set.notMem_empty c, hself.pipeline⟩, ?_⟩
  intro _ j hj
  obtain ⟨hrest, hmark⟩ := hidle j hj
  by_cases hji : j = id
  · subst hji
    rw [set_nodes_self]
    exact ⟨⟨hrest.running, hrest.prepared⟩, fun hne => absurd rfl hne⟩
  · rw [set_nodes_ne _ _ hji]
    exact ⟨hrest, hmark⟩

theorem post_terminate (h : TickContext P env tick id) (hsteps : Steps P env id w₀ w)
    (htyped : Typed P w.nodes) (status : NodeStatus) :
    Post P env w₀ id (terminate P env id status w).1 (terminate P env id status w).2 :=
  post_after_reset h (steps_act h.valid hsteps (Act.reset h.valid (below_refl id)))
    (typed_reset h.top h.valid false htyped) status

end Rules

section Runs
variable {env : Env σ} {m : Run σ TickResult} {k : NodeStatus → Run σ TickResult}
  {cleanup : Run σ Unit} {w w' : World σ}

theorem onOk_ok (h : m w = (.ok status, w')) : onOk m k w = k status w' := by
  simp only [onOk, bind, StateT.bind, h]

theorem onOk_error (h : m w = (.error f, w')) : onOk m k w = (.error f, w') := by
  simp only [onOk, bind, StateT.bind, h]
  rfl

theorem onOkElse_ok (h : m w = (.ok status, w')) : onOkElse m cleanup k w = k status w' := by
  simp only [onOkElse, bind, StateT.bind, h]

theorem onOkElse_error (h : m w = (.error f, w')) :
    onOkElse m cleanup k w = (.error f, (cleanup w').2) := by
  simp only [onOkElse, bind, StateT.bind, h]
  rfl

variable {q : Query} {j : Answer → Run σ TickResult}

theorem callElse_ok (h : (w.answer env q).code = .ok) :
    callElse env q cleanup j w = j (w.answer env q) (w.call env q) := by
  show (if (w.answer env q).code = .ok then j (w.answer env q) else _ : Run σ TickResult)
    (w.call env q) = _
  rw [if_pos h]

theorem callElse_fail (h : (w.answer env q).code ≠ .ok) :
    callElse env q cleanup j w =
      (.error ⟨(w.answer env q).code, .callback⟩, (cleanup (w.call env q)).2) := by
  show (if (w.answer env q).code = .ok then j (w.answer env q) else _ : Run σ TickResult)
    (w.call env q) = _
  rw [if_neg h]
  rfl

variable {id : ℕ}

theorem tickLeaf_none (h : statusOf (w.answer env (.handler id)).status = none) :
    tickLeaf env id w = (.error ⟨.einval, .callback⟩, w.call env (.handler id)) := by
  rw [World.answer] at h
  simp only [tickLeaf, ask, bind, StateT.bind, h]
  rfl

theorem tickLeaf_some (h : statusOf (w.answer env (.handler id)).status = some status) :
    tickLeaf env id w = (.ok status, (w.call env (.handler id)).set id { w.nodes id with
      running := decide (status = .running), lastStatus := status }) := by
  rw [World.answer] at h
  simp only [tickLeaf, ask, bind, StateT.bind, h]
  rfl

end Runs

section Programs
variable {P : Plan} {env : Env σ} {tick : ℕ → Run σ TickResult} {w₀ : World σ} {id : ℕ}
  {B : Set ℕ} {n : NodeState} {m : Run σ TickResult}

theorem meets_mono {B' : Set ℕ} (hB : ∀ c, IsChild P id c → c ∈ B → c ∈ B')
    (hm : Meets P env w₀ id B' n m) : Meets P env w₀ id B n m :=
  fun w ha => hm w (at_mono ha hB)

theorem meets_get {k : NodeState → Run σ TickResult} (hk : Meets P env w₀ id B n (k n)) :
    Meets P env w₀ id B n (getNode id >>= k) := by
  intro w ha
  have hpost := hk w ha
  rw [← ha.own] at hpost
  exact hpost

theorem meets_modify (h : TickContext P env tick id) {f : NodeState → NodeState}
    (hw : LocalWrite P id n (f n)) (hk : Meets P env w₀ id B (f n) m) :
    Meets P env w₀ id B n (modifyNode id f >>= fun _ => m) := by
  intro w ha
  have hpost := hk _ (at_write h ha hw)
  rw [← ha.own] at hpost
  exact hpost

variable {w : World σ}

theorem post_modify {i : ℕ} {f : NodeState → NodeState}
    (hpost : Post P env w₀ id (m (w.set i (f (w.nodes i)))).1 (m (w.set i (f (w.nodes i)))).2) :
    Post P env w₀ id ((modifyNode i f >>= fun _ => m) w).1
      ((modifyNode i f >>= fun _ => m) w).2 := hpost

theorem meets_setCursor (h : TickContext P env tick id)
    (hk : Meets P env w₀ id B { n with cursor := c } m) :
    Meets P env w₀ id B n (setCursor id c >>= fun _ => m) :=
  meets_modify h (f := fun n => { n with cursor := c }) ⟨rfl, rfl, rfl, rfl, rfl, fun _ => rfl⟩ hk

theorem meets_reset_child (h : TickContext P env tick id) (hc : IsChild P id c)
    (hk : Meets P env w₀ id (B \ {c}) n m) :
    Meets P env w₀ id B n (resetNodeState P env c >>= fun _ => m) :=
  fun _ ha => hk _ (at_reset_child h ha hc false)

theorem meets_done (hs : Settled P id B n status) : Meets P env w₀ id B n (pure (.ok status)) :=
  fun _ ha => post_done ha hs

section
variable (h : TickContext P env tick id)
include h

theorem meets_finishWith (hs : Settled P id B { n with lastStatus := status } status) :
    Meets P env w₀ id B n (finishWith id status) :=
  meets_modify h ⟨rfl, rfl, rfl, rfl, rfl, fun _ => rfl⟩ (meets_done hs)

theorem meets_terminate (status : NodeStatus) : Meets P env w₀ id B n (terminate P env id status) :=
  fun _ ha => post_terminate h ha.steps ha.typed status

theorem meets_onOk (hc : IsChild P id c) {k : NodeStatus → Run σ TickResult}
    (hk : ∀ status, Meets P env w₀ id (ticked B c status) n (k status)) :
    Meets P env w₀ id B n (onOk (tick c) k) := by
  intro w ha
  obtain ⟨hok, herror⟩ := at_tick h ha hc
  cases hr : (tick c w).1 with
  | error f =>
    obtain ⟨hsteps, hb⟩ := herror f hr
    rw [onOk_error (Prod.ext hr rfl)]
    exact post_error hsteps hb
  | ok status =>
    rw [onOk_ok (Prod.ext hr rfl)]
    exact hk status _ (hok status hr)

theorem meets_onOkElse (hc : IsChild P id c) {k : NodeStatus → Run σ TickResult}
    (hk : ∀ status, Meets P env w₀ id (ticked B c status) n (k status)) :
    Meets P env w₀ id B n (onOkElse (tick c) (resetNodeState P env id) k) := by
  intro w ha
  obtain ⟨hok, herror⟩ := at_tick h ha hc
  cases hr : (tick c w).1 with
  | error f =>
    obtain ⟨hsteps, hb⟩ := herror f hr
    rw [onOkElse_error (Prod.ext hr rfl)]
    exact post_error_reset h hsteps hb
  | ok status =>
    rw [onOkElse_ok (Prod.ext hr rfl)]
    exact hk status _ (hok status hr)

end

variable {k : Answer → Run σ TickResult}

section
variable (h : TickContext P env tick id)
include h

theorem post_callElse {w₁ : World σ} (hclean : Cleanup P env id cleanup) (hw : w₁ = w.call env q)
    (hsteps : (w.answer env q).code ≠ .ok → Steps P env id w₀ w₁)
    (hseen : Seen w₀ ⟨q, w.answer env q⟩ w₁)
    (hfault : ∀ a, a.code ≠ .ok → faultOf P ⟨q, a⟩ = some a.code)
    (hk : (w.answer env q).code = .ok → Post P env w₀ id (k (w.answer env q) w₁).1
      (k (w.answer env q) w₁).2) :
    Post P env w₀ id (callElse env q cleanup k w).1 (callElse env q cleanup k w).2 := by
  by_cases hcode : (w.answer env q).code = .ok
  · rw [callElse_ok hcode, ← hw]
    exact hk hcode
  · rw [callElse_fail hcode, ← hw]
    exact post_cleanup h hclean (hsteps hcode) ⟨rfl, _, hseen, hfault _ hcode⟩

theorem seen_at_call (ha : At P env w₀ id B n w) (q : Query) :
    Seen w₀ ⟨q, w.answer env q⟩ (w.call env q) :=
  frame_seen (at_frame h ha) (seen_call env q w)

theorem meets_callElse (hclean : Cleanup P env id cleanup) (hq : q.node = id)
    (hneutral : ∀ ns a, Neutral P ns q a)
    (hfault : ∀ a, a.code ≠ .ok → faultOf P ⟨q, a⟩ = some a.code)
    (hk : ∀ a w, a.code = .ok → At P env w₀ id B n w → Seen w₀ ⟨q, a⟩ w →
      Post P env w₀ id (k a w).1 (k a w).2) : Meets P env w₀ id B n (callElse env q cleanup k) := by
  intro w ha
  have ha' := at_call h ha hq (hneutral w.nodes (w.answer env q))
  have hseen := seen_at_call h ha q
  exact post_callElse h hclean rfl (fun _ => ha'.steps) hseen hfault
    (fun hcode => hk _ _ hcode ha' hseen)

theorem meets_clock (hk : ∀ a, Meets P env w₀ id B n (k a)) :
    Meets P env w₀ id B n (ask env (.hrtime id) >>= k) := by
  intro w ha
  exact hk (w.answer env (.hrtime id)) _ (at_call h ha rfl trivial)

theorem meets_displace {selected : ℕ} (hcursor : n.cursor = 0 ∨ IsChild P id n.cursor)
    (hswitch : n.cursor ≠ 0 → n.cursor ≠ selected → Meets P env w₀ id (B \ {n.cursor}) { n with cursor
    := 0 } m)
    (hkeep : n.cursor = 0 ∨ n.cursor = selected → Meets P env w₀ id B n m) :
    Meets P env w₀ id B n (displaceBranch P env id selected >>= fun _ => m) := by
  by_cases hc : n.cursor ≠ 0 ∧ n.cursor ≠ selected
  · intro w ha
    have hchild : IsChild P id n.cursor := hcursor.resolve_left hc.1
    have hpost := meets_reset_child h hchild (meets_setCursor h (hswitch hc.1 hc.2)) w ha
    have hrun : (displaceBranch P env id selected >>= fun _ => m) w =
        (resetNodeState P env n.cursor >>= fun _ => setCursor id 0 >>= fun _ => m) w := by
      show (((if _ then _ else _ : Run σ Unit)) >>= fun _ => m) w = _
      rw [ha.own, if_pos hc]
      rfl
    rw [hrun]
    exact hpost
  · intro w ha
    have hrun : (displaceBranch P env id selected >>= fun _ => m) w = m w := by
      show (((if _ then _ else _ : Run σ Unit)) >>= fun _ => m) w = _
      rw [ha.own, if_neg hc]
      rfl
    rw [hrun]
    apply hkeep _ w ha
    by_cases h0 : n.cursor = 0
    · exact Or.inl h0
    · right
      by_contra hne
      exact hc ⟨h0, hne⟩

end

end Programs

end SaltsUtils.BehaviorTree
