import SaltsUtils.BehaviorTree.Tracking

/-!
# Leaves and contexts are bracketed

The events of a node over all calls are accepted by the monitor of its kind, and
after a reset, a cancellation, a failed tick or the destruction of the tree the
monitors are closed. When a context is aborted the running leaves in it have
been halted.
-/

set_option autoImplicit false

namespace SaltsUtils.BehaviorTree
open SaltsUtils.Forest

variable {σ : Type}

section Aborts
variable {P : Plan} {env : Env σ} {past : List Event} {w w' : World σ} {i j : ℕ}

/-- Wherever a context is aborted after `past`, no leaf in it that has a halt
callback is active. -/
def AbortsQuiet (P : Plan) (past l : List Event) : Prop :=
  ∀ l₁ e l₂, l = l₁ ++ e::l₂ → ∀ j, nodeIdValid P j = true → InAborted P e.query j →
    (P.node j).kind = .leaf → (P.node j).halt = true →
    leafMonitor.run false (eventsOf j (past ++ l₁)) = false

theorem abortsQuiet_append {l l' : List Event} (h : AbortsQuiet P past l)
    (h' : AbortsQuiet P (past ++ l) l') : AbortsQuiet P past (l ++ l') := by
  intro l₁ e l₂ hsplit j hj hin hk hhalt
  rcases List.append_eq_append_iff.mp hsplit with ⟨m, hl₁, hl'⟩ | ⟨m, hl, hm⟩
  · rw [hl₁, ← List.append_assoc]
    exact h' m e l₂ hl' j hj hin hk hhalt
  · cases m with
    | nil =>
      rw [List.append_nil] at hl
      rw [← hl]
      have hnil := h' [] e l₂ (by simpa using hm.symm) j hj hin hk hhalt
      rwa [List.append_nil] at hnil
    | cons x m =>
      obtain ⟨rfl, rfl⟩ := List.cons.inj hm
      exact h l₁ e m hl j hj hin hk hhalt

theorem abortsQuiet_single {e : Event} (h : ∀ j, ¬ InAborted P e.query j) :
    AbortsQuiet P past [e] := by
  intro l₁ e' l₂ hsplit j _ hin
  have hmem : e' ∈ [e] := by rw [hsplit]; simp
  rw [List.mem_singleton.mp hmem] at hin
  exact absurd hin (h j)

theorem abortsQuiet_call {q : Query} (hq : ∀ j, ¬ InAborted P q j)
    (h : AbortsQuiet P past w.trace) : AbortsQuiet P past (w.call env q).trace :=
  abortsQuiet_append h (abortsQuiet_single hq)

theorem ownQueries_leaf {ns : ℕ → NodeState} (hk : (P.node j).kind = .leaf)
    (hhalt : (P.node j).halt = true) :
    ownQueries P ns j = if (ns j).running = true then [.halt j] else [] := by
  rw [ownQueries_plain (by rw [hk]; decide)]
  by_cases hr : (ns j).running = true <;> simp [haltQueries, abortQueries, hk, hhalt, hr]

/-- Where a reset aborts a context of leaf `k`, it has halted the leaf if it was
running. -/
theorem leaf_halted_before_abort (ht : Topology P) (hj : nodeIdValid P j = true) {k : ℕ}
    {l l₁ l₂ : List Event} {e : Event}
    (hqs : (l₁ ++ e::l₂).map Event.query = resetQueries P w.nodes P.nodeCount j)
    (hin : InAborted P e.query k) (hk : (P.node k).kind = .leaf)
    (hhalt : (P.node k).halt = true) (htracked : Tracked P w.nodes k l) :
    leafMonitor.run false (l ++ eventsOf k l₁) = false := by
  have h0 := (nodeIdValid_iff.mp hj).1
  have hqs' : resetQueries P w.nodes P.nodeCount j =
      l₁.map Event.query ++ e.query::l₂.map Event.query := by
    rw [← hqs]
    simp
  have hfilter : (eventsOf k l₁).map Event.query ++ (eventsOf k (e::l₂)).map Event.query =
      (resetQueries P w.nodes P.nodeCount j).filter (fun q => q.node = k) := by
    rw [← hqs, ← eventsOf_query, eventsOf_append, List.map_append]
  obtain ⟨-, -, hactive⟩ := htracked.leaf hk
  by_cases hrun : (w.nodes k).running = true
  · have hmem : Query.halt k ∈ (eventsOf k l₁).map Event.query := by
      have hfirst := resetQueries_haltsFirst ht hj (by omega) hk hhalt hrun _ _ _ hqs' hin
      rw [eventsOf_query, List.mem_filter]
      exact ⟨by simpa using hfirst, by simp [Query.node]⟩
    have hbelow : Below P j k := by
      rw [eventsOf_query] at hmem
      have hall : Query.halt k ∈ resetQueries P w.nodes P.nodeCount j := by
        rw [hqs']
        exact List.mem_append_left _ (List.mem_filter.mp hmem).1
      exact resetQueries_below ht w.nodes hall
    rw [resetQueries_filter ht w.nodes hj (by omega) hbelow, ownQueries_leaf hk hhalt,
      if_pos hrun] at hfilter
    have hq : (eventsOf k l₁).map Event.query = [.halt k] := by
      rcases List.append_eq_singleton_iff.mp hfilter with ⟨hnil, -⟩ | ⟨hone, -⟩
      · rw [hnil] at hmem
        exact absurd hmem List.not_mem_nil
      · exact hone
    obtain ⟨a, ha⟩ := eq_singleton_of_query hq
    rw [ha, Monitor.run_snoc]
    rfl
  · have hnil : (resetQueries P w.nodes P.nodeCount j).filter (fun q => q.node = k) = [] := by
      by_cases hbelow : Below P j k
      · rw [resetQueries_filter ht w.nodes hj (by omega) hbelow, ownQueries_leaf hk hhalt,
          if_neg hrun]
      · exact resetQueries_outside ht w.nodes hbelow
    rw [hnil, List.append_eq_nil_iff, List.map_eq_nil_iff] at hfilter
    rw [hfilter.1, List.append_nil]
    by_contra hne
    exact hrun (hactive hhalt (by simpa using hne))

theorem abortsQuiet_reset (ht : Topology P) (hj : nodeIdValid P j = true) (clear : Bool)
    (htracked : ∀ k, nodeIdValid P k = true → (P.node k).kind = .leaf →
      Tracked P w.nodes k (eventsOf k (past ++ w.trace)))
    (h : AbortsQuiet P past w.trace) :
    AbortsQuiet P past (resetNodeStateImpl P env P.nodeCount j clear w).2.trace := by
  rw [reset_eq env ht clear hj]
  obtain ⟨evs, htrace, hqs⟩ := callAll_trace env (resetQueries P w.nodes P.nodeCount j)
    (w.withNodes (resetNodes P clear w.nodes j))
  rw [htrace]
  apply abortsQuiet_append (l := w.trace) h
  intro l₁ e l₂ hsplit k hkv hin hk hhalt
  rw [eventsOf_append]
  rw [hsplit] at hqs
  exact leaf_halted_before_abort ht hj hqs hin hk hhalt (htracked k hkv hk)

theorem abortsQuiet_act (ht : Topology P) (hj : nodeIdValid P j = true) (ha : Act P env j w w')
    (htracked : AllTracked P past w) (h : AbortsQuiet P past w.trace) :
    AbortsQuiet P past w'.trace := by
  cases ha with
  | call hn =>
    apply abortsQuiet_call _ h
    intro k hin
    rename_i q
    cases q <;> first | exact hin | exact hn
  | handler hk =>
    rw [tickLeaf_world]
    cases statusOf (w.answer env (.handler j)).status with
    | none => exact abortsQuiet_call (fun _ => id) h
    | some status => exact abortsQuiet_call (fun _ => id) h
  | prepare h₁ h₂ h₃ => exact abortsQuiet_call (w := w.set j _) (fun _ => id) h
  | advance h₁ h₂ h₃ => exact abortsQuiet_call (fun _ => id) h
  | give_up h₁ h₂ h₃ =>
    apply abortsQuiet_reset ht hj
    · intro k hkv hk
      have hkj : k ≠ j := by
        rintro rfl
        rw [h₁] at hk
        exact absurd hk (by decide)
      rw [set_trace, events_call_other (by exact Ne.symm hkj)]
      exact tracked_own (w := w.call env _) ht hkv hkj rfl (htracked k hkv)
    · exact abortsQuiet_call (fun _ => id) h
  | begin h₁ h₂ h₃ => exact abortsQuiet_call (fun _ => id) h
  | commit h₁ h₂ h₃ => exact abortsQuiet_call (fun _ => id) h
  | enter h₁ h₂ h₃ => exact abortsQuiet_call (w := w.set _ _) (fun _ => id) h
  | finish h₁ h₂ h₃ h₄ => exact abortsQuiet_call (fun _ => id) h
  | reset hk hjk => exact abortsQuiet_reset ht hk _ (fun k hkv _ => htracked k hkv) h
  | _ => exact h

/-- What a program keeps: tracking, quiet aborts, and events of nodes only. -/
structure Bracketed (P : Plan) (past : List Event) (w : World σ) : Prop where
  tracked : AllTracked P past w
  quiet : AbortsQuiet P past w.trace
  valid : ∀ e ∈ w.trace, nodeIdValid P e.query.node = true

theorem bracketed_steps (ht : Topology P) (h : Steps P env i w w') (hw : Bracketed P past w) :
    Bracketed P past w' := by
  apply steps_invariant (I := Bracketed P past) h _ hw
  intro j u u' hj _ ha hu
  refine ⟨tracked_act ht hj ha hu.tracked, abortsQuiet_act ht hj ha hu.tracked hu.quiet, ?_⟩
  intro e he
  obtain ⟨evs, htrace, hbelow⟩ := (frame_act ht hj (below_refl j) ha).trace
  rw [htrace] at he
  rcases List.mem_append.mp he with he | he
  · exact hu.valid e he
  · exact below_valid hj (hbelow e he)

end Aborts

section Systems
variable {env : Env σ} {s s' : System σ} {t t' : Impl}

def pastEvents (s : System σ) : List Event := s.history.flatMap Record.events

theorem pastEvents_after (s : System σ) (t : Impl) (w : World σ) :
    pastEvents (s.after t w) = pastEvents s ++ w.trace := by
  simp [pastEvents, System.after]

/-- The invariant of histories: at rest every node is tracked, and no abort of any
call left a leaf of its context active. -/
structure HistoryInv (s : System σ) : Prop where
  valid : ∀ t, s.impl = some t → ∀ e ∈ pastEvents s, nodeIdValid t.plan e.query.node = true
  tracked : ∀ t, s.impl = some t → ∀ i, nodeIdValid t.plan i = true →
    Tracked t.plan t.nodes i (eventsOf i (pastEvents s))
  quiet : ∀ h₁ r h₂, s.history = h₁ ++ r::h₂ →
    AbortsQuiet r.plan (h₁.flatMap Record.events) r.events

theorem bracketed_program (hI : HistoryInv s) (hs : s.impl = some t) (hinv : ImplInv t)
    {w : World σ} (hsteps : Steps t.plan env t.plan.root (s.start t) w) :
    Bracketed t.plan (pastEvents s) w := by
  apply bracketed_steps hinv.built.toTopology hsteps
  refine ⟨?_, ?_, fun e he => absurd he List.not_mem_nil⟩
  · intro i hi
    show Tracked t.plan t.nodes i (eventsOf i (pastEvents s ++ []))
    rw [List.append_nil]
    exact hI.tracked t hs i hi
  · intro l₁ e l₂ hsplit
    exact absurd hsplit.symm (by simp [System.start])

theorem quiet_after (hI : HistoryInv s) {w : World σ} (hw : Bracketed t.plan (pastEvents s) w) :
    ∀ h₁ r h₂, s.history ++ [⟨t.plan, w.trace, w.visits⟩] = h₁ ++ r::h₂ →
      AbortsQuiet r.plan (h₁.flatMap Record.events) r.events := by
  intro h₁ r h₂ hsplit
  rcases List.append_eq_append_iff.mp hsplit with ⟨m, hh₁, hm⟩ | ⟨m, hh, hm⟩
  · cases m with
    | nil =>
      obtain ⟨rfl, -⟩ := List.cons.inj hm
      rw [hh₁, List.append_nil]
      exact hw.quiet
    | cons x m =>
      have := congrArg List.length hm
      simp at this
  · cases m with
    | nil =>
      obtain ⟨rfl, -⟩ := List.cons.inj hm
      rw [List.append_nil] at hh
      rw [← hh]
      exact hw.quiet
    | cons x m =>
      obtain ⟨rfl, -⟩ := List.cons.inj hm
      exact hI.quiet h₁ r m hh

theorem valid_after_program (hI : HistoryInv s) (hs : s.impl = some t) {w : World σ}
    (hw : Bracketed t.plan (pastEvents s) w) :
    ∀ e ∈ pastEvents s ++ w.trace, nodeIdValid t.plan e.query.node = true := by
  intro e he
  rcases List.mem_append.mp he with he | he
  · exact hI.valid t hs e he
  · exact hw.valid e he

theorem tracked_added (hw : WellBuilt t.plan) {p : ℕ} {plan : NodePlan}
    (ha : Added t t' p plan) {l : List Event} (hl : ∀ e ∈ l, nodeIdValid t.plan e.query.node = true)
    (h : ∀ i, nodeIdValid t.plan i = true → Tracked t.plan t.nodes i (eventsOf i l)) {i : ℕ}
    (hi : nodeIdValid t'.plan i = true) : Tracked t'.plan t'.nodes i (eventsOf i l) := by
  rcases (added_valid ha).mp hi with rfl | hi
  · have hnone : eventsOf (t.plan.nodeCount+1) l = [] := by
      rw [eventsOf, List.filter_eq_nil_iff]
      intro e he hnode
      have := nodeIdValid_iff.mp (hl e he)
      have := of_decide_eq_true hnode
      omega
    rw [hnone]
    have hnot : ∀ k, ¬ Marked t'.plan t'.nodes (t.plan.nodeCount+1) k := by
      rintro k ⟨c, hc, -⟩
      rw [added_new_children hw ha] at hc
      exact absurd hc (by simp)
    constructor
    case parallel =>
      exact fun _ => ⟨trivial, fun k hm => absurd hm (hnot k), fun _ k hf =>
        absurd hf (by simp [Monitor.run])⟩
    all_goals rw [added_nodes_new ha]
    case leaf => exact fun _ => ⟨trivial, fun hf => absurd hf (by simp [freshState]),
      fun _ hf => absurd hf (by simp [Monitor.run])⟩
    case pipeline => exact fun _ => ⟨trivial, fun hf => absurd hf (by simp [freshState]),
      fun _ => Or.inl ⟨0, rfl, Or.inl rfl⟩⟩
    case queue => exact fun _ => ⟨trivial, fun hf => absurd hf (by simp [freshState]),
      fun _ hf => absurd hf (by simp [Monitor.run])⟩
  · have htracked := h i hi
    have hold := added_old ha hi
    have hmarked : ∀ k, Marked t'.plan t'.nodes i k ↔ Marked t.plan t.nodes i k := by
      intro k
      constructor
      · rintro ⟨c, hc, hm⟩
        rw [added_children hw ha hi] at hc
        rcases lt_or_ge k (children t.plan i).length with hk | hk
        · rw [List.getElem?_append_left hk] at hc
          have hcv := (isChild_of_getElem? hw.toTopology hi hc).1
          rw [added_nodes_old ha hcv] at hm
          exact ⟨c, hc, hm⟩
        · rw [List.getElem?_append_right hk] at hc
          have hnew : c = t.plan.nodeCount+1 := by
            split_ifs at hc
            · have hmem := List.mem_of_getElem? hc
              exact List.mem_singleton.mp hmem
            · exact absurd hc (by simp)
          rw [hnew, added_nodes_new ha] at hm
          exact absurd hm (by simp [freshState])
      · rintro ⟨c, hc, hm⟩
        have hcv := (isChild_of_getElem? hw.toTopology hi hc).1
        refine ⟨c, ?_, by rw [added_nodes_old ha hcv]; exact hm⟩
        rw [added_children hw ha hi,
          List.getElem?_append_left (List.getElem?_eq_some_iff.mp hc).1]
        exact hc
    constructor
    case parallel =>
      rw [hold]
      intro hk
      obtain ⟨h₁, h₂, h₃⟩ := htracked.parallel hk
      exact ⟨h₁, fun k hm => h₂ k ((hmarked k).mp hm), fun ha k hr => (hmarked k).mpr (h₃ ha k hr)⟩
    all_goals rw [added_nodes_old ha hi, hold]
    case leaf => exact htracked.leaf
    case pipeline => exact htracked.pipeline
    case queue => exact htracked.queue

theorem tracked_resolved (ht : Topology t.plan) {ns : ℕ → NodeState} {id mask : ℕ}
    {resolver : Option ℕ} {user i : ℕ} {l : List Event} (hi : nodeIdValid t.plan i = true)
    (h : Tracked t.plan ns i l) :
    Tracked (resolvedImpl t ns id mask resolver user).plan
      (resolvedImpl t ns id mask resolver user).nodes i l := by
  have hfields : ∀ k,
      ((resolvedImpl t ns id mask resolver user).nodes k).running = (ns k).running ∧
      ((resolvedImpl t ns id mask resolver user).nodes k).prepared = (ns k).prepared ∧
      ((resolvedImpl t ns id mask resolver user).nodes k).counter = (ns k).counter ∧
      ((resolvedImpl t ns id mask resolver user).nodes k).parallelBranchPrepared =
        (ns k).parallelBranchPrepared := by
    intro k
    by_cases hk : k = id
    · subst hk
      rw [resolvedImpl_nodes_self]
      exact ⟨rfl, rfl, rfl, rfl⟩
    · rw [resolvedImpl_nodes_other hk]
      exact ⟨rfl, rfl, rfl, rfl⟩
  have hplan : Tracked (resolvedImpl t ns id mask resolver user).plan ns i l := by
    have hmarked : ∀ k, Marked (resolvedImpl t ns id mask resolver user).plan ns i k ↔
        Marked t.plan ns i k := by
      intro k
      show (∃ c, (children (withResolver t.plan id mask resolver user) i)[k]? = some c ∧ _) ↔ _
      rw [children_withResolver ht hi]
      rfl
    have hnode := withResolver_keeps t.plan id mask resolver user i
    constructor
    case parallel =>
      show ((withResolver t.plan id mask resolver user).node i).kind = .parallel → _
      intro hk
      simp only [hmarked]
      simp only [resolvedImpl]
      rw [hnode] at hk ⊢
      exact h.parallel hk
    all_goals simp only [resolvedImpl]
    all_goals rw [hnode]
    case leaf => exact h.leaf
    case pipeline => exact h.pipeline
    case queue => exact h.queue
  apply tracked_quiet (topology_same_shape ht (same_shape_withResolver id mask resolver user))
    (by exact hi) hplan (hfields i).1 (hfields i).2.1 (fun _ => (hfields i).2.2.1)
  exact fun c _ => (hfields c).2.2.2

theorem historyInv_effect (hs : s.impl = some t) (hinv : ImplInv t)
    (heffect : Effect env s t s') (hI : HistoryInv s) : HistoryInv s' := by
  have ht := hinv.built.toTopology
  cases heffect with
  | unchanged => exact hI
  | added ha =>
    have hpast : ∀ e ∈ pastEvents s, nodeIdValid t.plan e.query.node = true := hI.valid t hs
    refine ⟨?_, ?_, hI.quiet⟩
    · intro t' ht' e he
      rw [← Option.some.inj ht']
      exact (added_valid ha).mpr (Or.inr (hpast e he))
    · intro t' ht' i hi
      rw [← Option.some.inj ht'] at hi ⊢
      exact tracked_added hinv.built ha hpast (hI.tracked t hs) hi
  | program hsteps hgood =>
    rename_i w
    have hw := bracketed_program hI hs hinv hsteps
    refine ⟨?_, ?_, quiet_after hI hw⟩
    · intro t' ht'
      rw [← Option.some.inj ht', pastEvents_after]
      exact valid_after_program hI hs hw
    · intro t' ht'
      rw [← Option.some.inj ht', pastEvents_after]
      exact hw.tracked
  | resolver hv hmask hzero htargets hweq =>
    rename_i w id mask resolver user
    have hsteps : Steps t.plan env t.plan.root (s.start t) w := by
      rw [hweq]
      exact steps_below (below_root ht hv) (steps_act hv steps_refl (Act.reset hv (below_refl _)))
    have hw := bracketed_program hI hs hinv hsteps
    have hpast : pastEvents { s.after t w with
        impl := some (resolvedImpl t w.nodes id mask resolver user) } =
          pastEvents s ++ w.trace := pastEvents_after s t w
    refine ⟨?_, ?_, quiet_after hI hw⟩
    · intro t' ht'
      rw [← Option.some.inj ht', hpast]
      exact valid_after_program hI hs hw
    · intro t' ht' i hi
      rw [← Option.some.inj ht'] at hi ⊢
      rw [hpast]
      exact tracked_resolved ht hi (hw.tracked i hi)
  | destroyed hweq =>
    rename_i w
    have hsteps : Steps t.plan env t.plan.root (s.start t) w := by
      rw [hweq]
      exact resetRoot_steps ht _
    have hw := bracketed_program hI hs hinv hsteps
    exact ⟨fun t' ht' => absurd ht' (by simp), fun t' ht' => absurd ht' (by simp),
      quiet_after hI hw⟩

theorem historyInv_reachable (h : Reachable env s) : HistoryInv s := by
  apply reachable_invariant h
  · intro config e s₀ hs₀
    rw [treeInit] at hs₀
    split_ifs at hs₀
    rw [← Except.ok.inj hs₀]
    refine ⟨fun t _ e he => absurd he (by simp [pastEvents]), ?_, ?_⟩
    · intro t ht i hi
      rw [← Option.some.inj ht] at hi
      have hcount : (emptyImpl config).plan.nodeCount = 0 := rfl
      have := nodeIdValid_iff.mp hi
      omega
    · intro h₁ r h₂ hsplit
      exact absurd hsplit.symm (by simp)
  · exact fun s t s' hs hinv heffect hI => historyInv_effect hs hinv heffect hI

/-- The events of a call and of all calls before it are tracked by some states of
the tree that the call was made on. -/
theorem tracked_exec (h : Reachable env s) (hs : s.impl = some t) (call : Call) :
    ∃ ns, ∀ i, nodeIdValid t.plan i = true →
      Tracked t.plan ns i (eventsOf i (pastEvents (exec env s call).2)) := by
  have hinv := inv_reachable h hs
  have ht := hinv.built.toTopology
  have hI := historyInv_reachable h
  have heffect := exec_effect env hinv hs call
  generalize (exec env s call).2 = s' at heffect
  have hprogram : ∀ w : World σ, Steps t.plan env t.plan.root (s.start t) w → ∃ ns, ∀ i,
      nodeIdValid t.plan i = true → Tracked t.plan ns i (eventsOf i (pastEvents s ++ w.trace)) :=
    fun w hsteps => ⟨w.nodes, (bracketed_program hI hs hinv hsteps).tracked⟩
  cases heffect with
  | unchanged => exact ⟨t.nodes, hI.tracked t hs⟩
  | added ha => exact ⟨t.nodes, hI.tracked t hs⟩
  | program hsteps hgood =>
    rename_i w
    rw [pastEvents_after]
    exact hprogram w hsteps
  | resolver hv hmask hzero htargets hweq =>
    rename_i w id mask resolver user
    show ∃ ns, ∀ i, _ → Tracked t.plan ns i (eventsOf i (pastEvents (s.after t w)))
    rw [pastEvents_after]
    apply hprogram w
    rw [hweq]
    exact steps_below (below_root ht hv) (steps_act hv steps_refl (Act.reset hv (below_refl _)))
  | destroyed hweq =>
    rename_i w
    show ∃ ns, ∀ i, _ → Tracked t.plan ns i (eventsOf i (pastEvents (s.after t w)))
    rw [pastEvents_after]
    apply hprogram w
    rw [hweq]
    exact resetRoot_steps ht _

theorem idle_rest (ht : Topology t.plan) {ns : ℕ → NodeState} (hidle : Idle t.plan ns t.plan.root)
    {i : ℕ} (hi : nodeIdValid t.plan i = true) :
    RestNode (t.plan.node i) (ns i) ∧
      ((t.plan.node i).kind = .parallel → ∀ k, ¬ Marked t.plan ns i k) := by
  refine ⟨(hidle i (below_root ht hi)).1, ?_⟩
  rintro hk k ⟨c, hc, hm⟩
  have hchild := isChild_of_getElem? ht hi hc
  have hmark := (hidle c (below_root ht hchild.1)).2
    (by
      have hlt := child_lt ht hchild
      have hroot := ht.root_eq
      have := nodeIdValid_iff.mp hi
      omega)
    (by rw [hchild.2.2]; exact hk)
  rw [hm] at hmark
  exact absurd hmark (by decide)

theorem tracked_stopped (h : Reachable env s) (hs : s.impl = some t) {call : Call}
    (hstop : Stops env s call) :
    ∃ ns, (∀ i, nodeIdValid t.plan i = true →
      Tracked t.plan ns i (eventsOf i (pastEvents (exec env s call).2)) ∧
      RestNode (t.plan.node i) (ns i) ∧
      ((t.plan.node i).kind = .parallel → ∀ k, ¬ Marked t.plan ns i k)) ∧
      ∀ t', (exec env s call).2.impl = some t' → t'.plan = t.plan ∧ t'.nodes = ns := by
  have hinv := inv_reachable h hs
  have ht := hinv.built.toTopology
  obtain ⟨w, hsteps, hexec⟩ := stops_reset hinv hs hstop
  rw [hexec]
  refine ⟨(resetRoot t.plan env w).2.nodes, ?_, ?_⟩
  · intro i hi
    have hr := root_valid_of_valid ht hi
    have htracked := (bracketed_program (historyInv_reachable h) hs hinv
      (steps_trans hsteps (resetRoot_steps ht w))).tracked i hi
    have hidle : Idle t.plan (resetRoot t.plan env w).2.nodes t.plan.root := by
      rw [resetRoot_valid hr, resetTreeState, reset_nodes env ht true hr]
      exact idle_resetNodes true t.plan.root
    rw [← pastEvents_after s t] at htracked
    exact ⟨htracked, idle_rest ht hidle hi⟩
  · intro t' ht'
    split_ifs at ht'
    rw [← Option.some.inj ht']
    exact ⟨rfl, rfl⟩

/-- The life of a leaf over any run: a halt comes only after a RUNNING result
that has been followed by no other valid result and no halt, and after a call
that stops all work every RUNNING result has been followed by its halt. -/
theorem leaf_halts_bracketed (h : Reachable env s) (hs : s.impl = some t) (call : Call) {i : ℕ}
    (hi : nodeIdValid t.plan i = true) (hk : (t.plan.node i).kind = .leaf) :
    leafMonitor.Accepts false (eventsOf i (pastEvents (exec env s call).2)) ∧
      (Stops env s call →
        ((t.plan.node i).halt = true →
          leafMonitor.run false (eventsOf i (pastEvents (exec env s call).2)) = false) ∧
        ∀ t', (exec env s call).2.impl = some t' → (t'.nodes i).running = false) := by
  obtain ⟨ns, htracked⟩ := tracked_exec h hs call
  refine ⟨((htracked i hi).leaf hk).1, ?_⟩
  intro hstop
  obtain ⟨ns', hstopped, himpl⟩ := tracked_stopped h hs hstop
  obtain ⟨htracked', hrest, -⟩ := hstopped i hi
  constructor
  · intro hhalt
    by_contra hne
    have hrun := (htracked'.leaf hk).2.2 hhalt (by simpa using hne)
    rw [hrest.running hk] at hrun
    exact absurd hrun (by decide)
  · intro t' ht'
    rw [(himpl t' ht').2]
    exact hrest.running hk

/-- The reset of the running Sequence halts its running leaf. -/
theorem leaf_halts_bracketed_sequence :
    Stops scripted runningSequence .reset ∧
      leafMonitor.run false (eventsOf 2 (pastEvents runningSequence)) = true ∧
      leafMonitor.run false
        (eventsOf 2 (pastEvents (exec scripted runningSequence .reset).2)) = false := by
  obtain ⟨t, ht⟩ : ∃ t, runningSequence.impl = some t :=
    Option.isSome_iff_exists.mp (by decide +kernel)
  have hleaf : runningSequence.impl.map (fun t => nodeIdValid t.plan 2 &&
      decide ((t.plan.node 2).kind = .leaf) && (t.plan.node 2).halt) = some true := by
    decide +kernel
  rw [ht] at hleaf
  simp only [Option.map_some, Option.some.injEq, Bool.and_eq_true, decide_eq_true_eq] at hleaf
  have hstop : Stops scripted runningSequence .reset := Or.inl rfl
  have hbracketed := leaf_halts_bracketed runningSequence_reachable ht .reset hleaf.1.1 hleaf.1.2
  exact ⟨hstop, by decide +kernel, (hbracketed.2 hstop).1 hleaf.2⟩

/-- A tick without a place for its status fails, and the leaf that is running is
not halted. -/
theorem refused_tick_halts_nothing :
    Reachable scripted runningSequence ∧
      (exec scripted runningSequence (.tick false)).1.code = .einval ∧
      leafMonitor.run false (eventsOf 2 (pastEvents runningSequence)) = true ∧
      (eventsOf 2 (pastEvents (exec scripted runningSequence (.tick false)).2)).map Event.query =
        [.handler 2] := by
  exact ⟨runningSequence_reachable, by decide +kernel, by decide +kernel, by decide +kernel⟩

/-- Leaves answer from a script; a queue always has an item. -/
def offering : Env (List ℤ) := fun script q =>
  match q with
  | .handler _ => (⟨.ok, script.headD 0, false, 0, 0, 0, 0⟩, script.tail)
  | _ => (⟨.ok, 0, true, 0, 0, 0, 0⟩, script)

/-- A queue over one leaf, with or without an abort callback, after a tick in
which the leaf fails and one in which it is RUNNING. -/
def startedQueue (abort : Bool) : System (List ℤ) :=
  runCalls offering ⟨some (emptyImpl treeConfigInit), [1, 2], []⟩
    [.addConsumeQueueNode 0 true true abort true, .addLeaf 1 true true true true, .tick true,
      .tick true]

theorem startedQueue_reachable (abort : Bool) : Reachable offering (startedQueue abort) :=
  ⟨treeConfigInit, [1, 2], _, _, rfl, rfl⟩

end Systems

end SaltsUtils.BehaviorTree
