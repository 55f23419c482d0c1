import SaltsUtils.BehaviorTree.Completion

/-!
# Running a sequential tree to completion

Ticks of a sequential tree up to the first result that is not RUNNING perform
one reference evaluation: the same leaves with the same answers, the same node
results and the same result of the tree. Conversely, when the reference has a
result some tick returns it.
-/

set_option autoImplicit false

namespace SaltsUtils.BehaviorTree
open SaltsUtils.Forest SaltsUtils.Suspension

variable {σ : Type}

section Ticks

def afterTicks (env : Env σ) (s : System σ) (n : ℕ) : System σ :=
  runCalls env s (List.replicate n (.tick true))

def tickOutcome (env : Env σ) (s : System σ) (n : ℕ) : Outcome :=
  (treeTick env (afterTicks env s n) true).1

def tickRecords (env : Env σ) (s : System σ) (n : ℕ) : List Record :=
  (afterTicks env s n).history.drop s.history.length

def tickLog (P : Plan) (env : Env σ) (s : System σ) (n : ℕ) : List (ℕ × Option Bool) :=
  logOf P ((tickRecords env s n).flatMap Record.visits)

def tickEvents (env : Env σ) (s : System σ) (n : ℕ) : List Event :=
  (tickRecords env s n).flatMap Record.events

theorem afterTicks_succ (env : Env σ) (s : System σ) (n : ℕ) :
    afterTicks env s (n+1) = (treeTick env (afterTicks env s n) true).2 := by
  rw [afterTicks, List.replicate_succ', runCalls_append]
  rfl

end Ticks

section Standing
variable {env : Env σ} {s : System σ} {t u : Impl} {n : ℕ}

/-- The first `n` ticks have all been RUNNING: the tree stands at the position
that the reference evaluation has reached. -/
structure Standing (env : Env σ) (s : System σ) (t : Impl) (n : ℕ) (u : Impl) : Prop where
  impl : (afterTicks env s n).impl = some u
  plan : u.plan = t.plan
  inv : ImplInv u
  static : StaticLimits t.plan u.nodes
  ready : Ready t.plan u.nodes t.plan.root
  history : ∃ recs, (afterTicks env s n).history = s.history ++ recs
  calls : invocations (tickEvents env s n) = callsOf t.plan (tickLog t.plan env s n)
  length : n ≤ (tickLog t.plan env s n).length
  progress : ∀ log o e, Resume (reference t.plan env) (remaining t.plan u.nodes)
    (.node t.plan.root) (afterTicks env s n).env log o e →
    Resume (reference t.plan env) (remaining t.plan t.nodes) (.node t.plan.root) s.env
      (tickLog t.plan env s n ++ log) o e

theorem standing_start (hs : s.impl = some t) (hinv : ImplInv t)
    (hstatic : StaticLimits t.plan t.nodes) (hrest : Inactive t.plan t.nodes t.plan.root) :
    Standing env s t 0 t := by
  refine ⟨hs, rfl, hinv, hstatic, ready_of_inactive hrest, ⟨[], by simp [afterTicks, runCalls]⟩,
    ?_, Nat.zero_le _, ?_⟩
  · simp [tickEvents, tickLog, tickRecords, afterTicks, runCalls, invocations, logOf, callsOf]
  · intro log o e h
    simpa [tickLog, tickRecords, afterTicks, runCalls, logOf] using h

theorem tick_appends {w : World σ} {vs : List Visit} {evs : List Event}
    (hhistory : ∃ recs, (afterTicks env s n).history = s.history ++ recs)
    (hafter : afterTicks env s (n+1) = (afterTicks env s n).after u w)
    (htrail : Trail u.plan u.plan.root ((afterTicks env s n).start u) w vs evs) (P : Plan) :
    tickLog P env s (n+1) = tickLog P env s n ++ logOf P vs ∧
      tickEvents env s (n+1) = tickEvents env s n ++ evs := by
  obtain ⟨recs, hrecs⟩ := hhistory
  have hrecords : tickRecords env s n = recs := by simp [tickRecords, hrecs]
  have hnext : tickRecords env s (n+1) = recs ++ [⟨u.plan, w.trace, w.visits⟩] := by
    simp [tickRecords, hafter, System.after, hrecs, List.append_assoc]
  have hvisits : w.visits = vs := by simpa [System.start] using htrail.visits
  have htrace : w.trace = evs := by simpa [System.start] using htrail.trace
  simp [tickLog, tickEvents, hrecords, hnext, hvisits, htrace, logOf_append]

section
variable (h : Sequential t.plan env) (haccepted : PlanAccepted t.plan)
include h haccepted

theorem standing_tick (hu : Standing env s t n u) :
    ∃ status vs evs w, tickOutcome env s n = ⟨.ok, some status, 0⟩ ∧ afterTicks env s (n+1) =
    (afterTicks env s n).after u w ∧ Ticked t.plan env t.plan.root ((afterTicks env s n).start u)
    status vs evs w := by
  have hv : validateImpl u = .ok := (validate_iff hu.inv).mpr (hu.plan ▸ haccepted)
  have hroot := haccepted.1
  have hdepth : (t.plan.node t.plan.root).depth = 1 :=
    h.plan.top.depth_root _ hroot (root_parent h.plan.top hroot)
  obtain ⟨status, vs, evs, hres, hticked⟩ := ticks_tickNode h t.plan.maxDepth hroot (by omega)
    ((afterTicks env s n).start u) hu.static hu.ready
  rw [afterTicks_succ, tickOutcome]
  rcases treeTick_cases env hu.inv hu.impl true with
    ⟨ho, -⟩ | ⟨-, hnv, -⟩ | ⟨-, -, status', w, hrun, htick⟩ | ⟨-, -, f, w, hrun, -⟩
  · exact absurd ho (by decide)
  · exact absurd hv hnv
  · rw [hu.plan] at hrun
    rw [hrun] at hres hticked
    obtain rfl : status' = status := Except.ok.inj hres
    exact ⟨status', vs, evs, w, by rw [htick], by rw [htick], hticked⟩
  · rw [hu.plan] at hrun
    rw [hrun] at hres
    exact absurd hres (by simp)

theorem standing_step (hrest : Inactive t.plan t.nodes t.plan.root) (hu : Standing env s t n u) :
    ∃ status, tickOutcome env s n = ⟨.ok, some status, 0⟩ ∧ Eval (reference t.plan env)
    (.node t.plan.root) s.env (tickLog t.plan env s (n+1)) (resultOf status)
    (afterTicks env s (n+1)).env ∧ invocations (tickEvents env s (n+1)) = callsOf t.plan
    (tickLog t.plan env s (n+1)) ∧ (status = .running → ∃ u', Standing env s t (n+1) u') ∧
    (status ≠ .running → ∃ u', (afterTicks env s (n+1)).impl = some u' ∧ u'.plan = t.plan ∧
      Inactive t.plan u'.nodes t.plan.root) := by
  obtain ⟨status, vs, evs, w, hout, hafter, hticked⟩ := standing_tick h haccepted hu
  obtain ⟨hlog, hevents⟩ := tick_appends hu.history hafter (by rw [hu.plan]; exact hticked.trail)
    t.plan
  have henv : (afterTicks env s (n+1)).env = w.env := by rw [hafter]; rfl
  have hcalls : invocations (tickEvents env s (n+1)) =
      callsOf t.plan (tickLog t.plan env s (n+1)) := by
    rw [hlog, hevents, callsOf_append, ← hu.calls, ← hticked.trail.calls]
    simp [invocations]
  have hstart := untouched_of_inactive h.plan env hrest
  have hnext : (afterTicks env s (n+1)).impl = some { u with nodes := w.nodes, busy := false } := by
    rw [hafter]
    rfl
  refine ⟨status, hout, ?_, hcalls, ?_, ?_⟩
  · rw [hlog, henv]
    apply eval_of_resume (hu.progress _ _ _ hticked.advance.now)
    rintro a rfl
    exact hstart
  · intro hrun
    have hnow := hticked.advance.now
    have hnone : resultOf status = none := by rw [hrun]; rfl
    rw [hnone] at hnow
    have hne := List.length_pos_of_ne_nil (resume_suspended_ne_nil hnow)
    have hinv : ImplInv { u with nodes := w.nodes, busy := false } := by
      apply inv_effect hu.inv hu.impl (exec_effect env hu.inv hu.impl (.tick true))
      show (treeTick env (afterTicks env s n) true).2.impl = _
      rw [← afterTicks_succ, hnext]
    obtain ⟨recs, hrecs⟩ := hu.history
    refine ⟨{ u with nodes := w.nodes, busy := false }, hnext, hu.plan, hinv,
      staticLimits_trail hticked.trail hu.static, hticked.ready hrun, ?_, hcalls, ?_, ?_⟩
    · exact ⟨recs ++ [⟨u.plan, w.trace, w.visits⟩], by
        rw [hafter]
        simp [System.after, hrecs, List.append_assoc]⟩
    · have := hu.length
      rw [hlog, List.length_append]
      omega
    · intro log o e hresume
      rw [henv] at hresume
      rw [hlog, List.append_assoc]
      exact hu.progress _ _ _ (hticked.advance.later hnone _ _ _ hresume)
  · intro hne
    exact ⟨_, hnext, hu.plan, hticked.done hne⟩

theorem standing_running
    (hs : s.impl = some t) (hinv : ImplInv t) (hstatic : StaticLimits t.plan t.nodes)
    (hrest : Inactive t.plan t.nodes t.plan.root)
    (hrun : ∀ k < n, (tickOutcome env s k).status = some .running) : ∃ u, Standing env s t n u := by
  induction n with
  | zero => exact ⟨t, standing_start hs hinv hstatic hrest⟩
  | succ n ih =>
    obtain ⟨u, hu⟩ := ih (fun k hk => hrun k (by omega))
    obtain ⟨status, hout, -, -, hnext, -⟩ := standing_step h haccepted hrest hu
    have hlast := hrun n (Nat.lt_succ_self n)
    rw [hout] at hlast
    exact hnext (Option.some.inj hlast)

end

end Standing

section Order
variable {P : Plan} {env : Env σ}

theorem visits_of_mem {stop : Bool} {l : List ℕ} {c : ℕ} (h : c ∈ l) :
    Visits (listTask stop l) c := by
  induction l with
  | nil => exact absurd h List.not_mem_nil
  | cons d l ih =>
    rcases List.mem_cons.mp h with rfl | h
    · exact .here
    · apply Visits.later (s := !stop)
      have hne : (!stop) ≠ stop := by cases stop <;> decide
      rw [if_neg hne]
      exact ih h

variable (env) in
theorem composite_body (hplan : ValidPlan P) {p c : ℕ}
    (hk : (P.node p).kind ∈ [.sequence, .fallback]) (hc : IsChild P p c) :
    (reference P env).edge p c ∧ ∀ t, (reference P env).body p = some t → t.Simple := by
  have hp := parent_valid hplan.top hc
  have hbody : ∃ stop, (reference P env).body p = some (listTask stop (children P p)) := by
    simp only [reference, nodeTask, if_pos hp]
    cases hkind : (P.node p).kind <;> simp [hkind] at hk
    · exact ⟨false, rfl⟩
    · exact ⟨true, rfl⟩
  obtain ⟨stop, hbody⟩ := hbody
  refine ⟨⟨_, hbody, visits_of_mem ((mem_children hplan.top hp).mpr hc)⟩, ?_⟩
  intro t ht
  obtain rfl := Option.some.inj (hbody.symm.trans ht)
  exact simple_listTask (nodup_children hplan.top hp)

theorem below_edge (hplan : ValidPlan P) {a c x : ℕ} (h : Forest.Below (reference P env).edge a x)
    (hac : Below P a c) (hcx : Below P c x) : Forest.Below (reference P env).edge c x := by
  have hf := is_forest hplan.top
  induction h with
  | refl => exact below_antisymm hf hac hcx ▸ below_refl _
  | tail _ hedge ih =>
    rcases below_parent hf hcx (edge_isChild hplan hedge) with rfl | hcy
    · exact below_refl _
    · exact below_trans (ih hcy) (below_child hedge)

end Order

section Main
variable {env : Env σ} {s : System σ} {t : Impl}

/-- Ticks of a sequential tree carry out one reference evaluation. As long as all
earlier ticks were RUNNING, the next one succeeds, and all of them together have
performed the evaluation up to its result or up to a leaf that is still RUNNING;
the only callbacks were the leaf invocations of the evaluation, and nothing below
a child that has a result is named again before its composite has one. If the
reference has a result, some tick returns it. -/
theorem run_to_completion (h : Reachable env s) (hs : s.impl = some t)
    (hv : validateImpl t = .ok)
    (hkinds : ∀ i, nodeIdValid t.plan i = true → SequentialKind (t.plan.node i).kind = true)
    (hlimits : ∀ i, nodeIdValid t.plan i = true → (t.plan.node i).parameterResolver = none)
    (hanswers : ∀ e id, statusOf (env e (.handler id)).1.status ≠ none)
    (hrest : Inactive t.plan t.nodes t.plan.root) :
    (∀ n, (∀ k < n, (tickOutcome env s k).status = some .running) →
      ∃ status, tickOutcome env s n = ⟨.ok, some status, 0⟩ ∧
        Eval (reference t.plan env) (.node t.plan.root) s.env (tickLog t.plan env s (n+1))
          (resultOf status) (afterTicks env s (n+1)).env ∧
        invocations (tickEvents env s (n+1)) = callsOf t.plan (tickLog t.plan env s (n+1)) ∧
        (∀ p c, (t.plan.node p).kind ∈ [.sequence, .fallback] → IsChild t.plan p c →
          ∀ l₁ b l₂ x l₃, tickLog t.plan env s (n+1) = l₁ ++ (c, some b)::(l₂ ++ x::l₃) →
            Below t.plan c x.1 → ∃ b', (p, some b') ∈ l₂) ∧
        (status ≠ .running → ∃ u, (afterTicks env s (n+1)).impl = some u ∧ u.plan = t.plan ∧
          Inactive t.plan u.nodes t.plan.root)) ∧
    ∀ log b e, Eval (reference t.plan env) (.node t.plan.root) s.env log (some b) e →
      ∃ n, (∀ k < n, (tickOutcome env s k).status = some .running) ∧
        tickOutcome env s n = ⟨.ok, some (ofResult b), 0⟩ ∧
        tickLog t.plan env s (n+1) = log ∧ (afterTicks env s (n+1)).env = e := by
  have hinv := inv_reachable h hs
  have haccepted := (validate_iff hinv).mp hv
  have hplan := (validate_plan hinv.built hv).1
  have hseq : Sequential t.plan env := ⟨hplan, hkinds, hlimits, hanswers⟩
  have hstatic : StaticLimits t.plan t.nodes := by
    intro j hj
    apply (hinv.typed j hj).limit_static
    rw [(hinv.built.configured j hj).mask_zero.mpr (hlimits j hj)]
    decide
  have hfirst : ∀ n, (∀ k < n, (tickOutcome env s k).status = some .running) →
      ∃ u, Standing env s t n u :=
    fun n hrun => standing_running hseq haccepted hs hinv hstatic hrest hrun
  constructor
  · intro n hrun
    obtain ⟨u, hu⟩ := hfirst n hrun
    obtain ⟨status, hout, heval, hcalls, -, hdone⟩ := standing_step hseq haccepted hrest hu
    refine ⟨status, hout, heval, hcalls, ?_, hdone⟩
    intro p c hk hc l₁ b l₂ x l₃ hlog hx
    obtain ⟨hedge, hsimple⟩ := composite_body env hplan hk hc
    have hnames := eval_below heval
    have hroot : Below t.plan t.plan.root c := below_root hplan.top hc.1
    have hmem : x ∈ tickLog t.plan env s (n+1) := by
      rw [hlog]
      simp
    exact result_between (forest_reference hplan) hedge hsimple heval hlog
      (below_edge hplan (hnames x hmem) hroot hx)
  · intro log b e heval
    by_contra hnone
    have hstep : ∀ n, (∀ k < n, (tickOutcome env s k).status = some .running) →
        (tickOutcome env s n).status = some .running ∧
          tickLog t.plan env s (n+1) <+: log ∧ n ≤ (tickLog t.plan env s n).length := by
      intro n hrun
      obtain ⟨u, hu⟩ := hfirst n hrun
      obtain ⟨status, hout, heval', -, -, -⟩ := standing_step hseq haccepted hrest hu
      obtain ⟨hpre, hsame⟩ := eval_determined heval heval'
      refine ⟨?_, hpre, hu.length⟩
      rw [hout]
      by_contra hne
      obtain ⟨b', hb', hres⟩ := ofResult_result (fun heq => hne (congrArg some heq))
      obtain ⟨hlog, rfl, henv⟩ := hsame b' hres
      exact hnone ⟨n, hrun, by rw [hout, hb'], hlog, henv⟩
    have hall : ∀ n, ∀ k < n, (tickOutcome env s k).status = some .running := by
      intro n
      induction n with
      | zero => exact fun k hk => absurd hk (Nat.not_lt_zero k)
      | succ n ih =>
        intro k hk
        rcases Nat.lt_succ_iff_lt_or_eq.mp hk with hk | rfl
        · exact ih k hk
        · exact (hstep k ih).1
    have hlong := (hstep (log.length+1) (hall _)).2.2
    have hshort := (hstep log.length (hall _)).2.1.length_le
    omega

/-- Leaves answer SUCCESS, FAILURE or RUNNING from a script. -/
def answering : Env (List (Fin 3)) := fun script q =>
  match q with
  | .handler _ => (⟨.ok, (script.headD 0).val, false, 0, 0, 0, 0⟩, script.tail)
  | _ => (⟨.ok, 0, false, 0, 0, 0, 0⟩, script)

def retriedSequence : System (List (Fin 3)) :=
  runCalls answering ⟨some (emptyImpl treeConfigInit), [0, 2, 1, 0], []⟩
    [.addNode 0 .sequence false true, .addLeaf 1 true true true true,
      .addNodeWithLimit 1 .retry false 2 true, .addLeaf 3 true true true true]

theorem run_to_completion_retry : ∃ t, retriedSequence.impl = some t ∧
    tickLog t.plan answering retriedSequence 2 =
      [(2, some true), (4, none), (4, some false), (4, some true), (3, some true), (1, some true)] ∧
    Eval (reference t.plan answering) (.node t.plan.root) [0, 2, 1, 0]
      (tickLog t.plan answering retriedSequence 2) (some true) [] := by
  obtain ⟨t, ht⟩ : ∃ t, retriedSequence.impl = some t :=
    Option.isSome_iff_exists.mp (by decide +kernel)
  have hreach : Reachable answering retriedSequence := ⟨treeConfigInit, [0, 2, 1, 0], _, _, rfl, rfl⟩
  have hnodes : retriedSequence.impl.map (fun t => (List.range' 1 t.plan.nodeCount).all (fun i =>
      SequentialKind (t.plan.node i).kind && decide ((t.plan.node i).parameterResolver = none) &&
        decide ((t.nodes i).cursor = 0) && decide ((t.nodes i).counter = 0) &&
        decide ((t.nodes i).running = false))) = some true := by
    decide +kernel
  have hvalid : retriedSequence.impl.map validateImpl = some .ok := by decide +kernel
  have hlog : retriedSequence.impl.map (fun t => tickLog t.plan answering retriedSequence 2) =
      some [(2, some true), (4, none), (4, some false), (4, some true), (3, some true),
        (1, some true)] := by
    decide +kernel
  have hfirst : (tickOutcome answering retriedSequence 0).status = some .running := by
    decide +kernel
  have hsecond : tickOutcome answering retriedSequence 1 = ⟨.ok, some .success, 0⟩ := by
    decide +kernel
  have hend : (afterTicks answering retriedSequence 2).env = [] := by decide +kernel
  rw [ht] at hnodes hvalid hlog
  simp only [Option.map_some, Option.some.injEq, List.all_eq_true, Bool.and_eq_true,
    decide_eq_true_eq] at hnodes
  have hall : ∀ i, nodeIdValid t.plan i = true → i ∈ List.range' 1 t.plan.nodeCount := by
    intro i hi
    rw [List.mem_range'_1]
    have := nodeIdValid_iff.mp hi
    omega
  have hanswers : ∀ e id, statusOf (answering e (.handler id)).1.status ≠ none := by
    intro e id
    show statusOf ((e.headD 0).val : ℤ) ≠ none
    generalize e.headD 0 = x
    revert x
    decide
  have hinv := inv_reachable hreach ht
  have hv := Option.some.inj hvalid
  obtain ⟨status, hout, heval, -⟩ := (run_to_completion hreach ht hv
    (fun i hi => (hnodes i (hall i hi)).1.1.1.1) (fun i hi => (hnodes i (hall i hi)).1.1.1.2)
    hanswers (by
      intro j hj
      have hj := hnodes j (hall j (below_valid (validate_plan hinv.built hv).2 hj))
      exact ⟨hj.1.1.2, hj.1.2, fun _ => hj.2⟩)).1 1 (by
      intro k hk
      obtain rfl : k = 0 := by omega
      exact hfirst)
  obtain rfl : status = .success :=
    Option.some.inj (congrArg Outcome.status (hout.symm.trans hsecond))
  rw [one_add_one_eq_two, hend] at heval
  exact ⟨t, ht, Option.some.inj hlog, heval⟩

end Main

end SaltsUtils.BehaviorTree
