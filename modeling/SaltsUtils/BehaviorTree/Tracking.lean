import SaltsUtils.Library.Invariants
import SaltsUtils.BehaviorTree.Quiescence

/-!
# Monitors of leaves and adapter contexts

For each node the events of all calls so far are read by a monitor of its kind. The
monitor of a leaf is active from a RUNNING result to the next valid result or halt.
-/

set_option autoImplicit false

namespace SaltsUtils.BehaviorTree
open SaltsUtils.Forest

variable {σ : Type}

def eventsOf (i : ℕ) (l : List Event) : List Event := l.filter (fun e => e.query.node = i)

theorem eventsOf_append (i : ℕ) (l l' : List Event) :
    eventsOf i (l ++ l') = eventsOf i l ++ eventsOf i l' := List.filter_append ..

theorem eventsOf_self {e : Event} : eventsOf e.query.node [e] = [e] := by simp [eventsOf]

theorem eventsOf_other {i : ℕ} {e : Event} (h : e.query.node ≠ i) : eventsOf i [e] = [] := by
  simp [eventsOf, h]

theorem eventsOf_query (i : ℕ) (l : List Event) :
    (eventsOf i l).map Event.query = (l.map Event.query).filter (fun q => q.node = i) := by
  rw [eventsOf, List.filter_map]
  rfl

section Monitors

/-- A leaf is active after a RUNNING result, until another valid result or a halt. -/
def leafMonitor : Monitor Bool Event where
  step active e :=
    match e.query with
    | .handler _ =>
      match statusOf e.answer.status with
      | none => active
      | some status => decide (status = .running)
    | .halt _ => false
    | _ => active
  allowed active e :=
    match e.query with
    | .halt _ => active = true
    | _ => True

inductive PipelineState where
  | closed (next : ℕ)
  | opened (child : ℕ)

/-- A pipeline prepares child 0 or the child after the one just completed, and only when no
context is open. -/
def pipelineMonitor (abort : Bool) : Monitor PipelineState Event where
  step s e :=
    match e.query with
    | .pipelinePrepare _ child => .opened child
    | .pipelineComplete _ child status =>
      if e.answer.code = .ok then .closed (if status = .success then child+1 else 0) else s
    | .pipelineAbort _ _ => .closed 0
    | _ => s
  allowed s e :=
    match e.query with
    | .pipelinePrepare _ child =>
      (∃ next, s = .closed next ∧ (child = next ∨ child = 0)) ∨ (abort = false ∧ child = 0)
    | .pipelineComplete _ child status => s = .opened child ∧ status ≠ .running
    | .pipelineAbort _ child => s = .opened child
    | _ => True

/-- A queue context is open from a begin, unless it reports that there is no
item, to a successful finish or an abort. -/
def queueMonitor (abort : Bool) : Monitor Bool Event where
  step s e :=
    match e.query with
    | .queueBegin _ => !(decide (e.answer.code = .ok) && !e.answer.flag)
    | .queueFinish _ => if e.answer.code = .ok then false else s
    | .queueAbort _ => false
    | _ => s
  allowed s e :=
    match e.query with
    | .queueBegin _ => s = false ∨ abort = false
    | .queueFinish _ | .queueAbort _ => s = true
    | _ => True

/-- The context of each branch of a Parallel node is open from its first enter to
a successful finish or an abort. -/
def parallelMonitor (abort : Bool) : Monitor (ℕ → Bool) Event where
  step s e :=
    match e.query with
    | .parallelEnter _ child _ => Function.update s child true
    | .parallelFinish _ child _ =>
      if e.answer.code = .ok then Function.update s child false else s
    | .parallelAbort _ child => Function.update s child false
    | _ => s
  allowed s e :=
    match e.query with
    | .parallelEnter _ child first => if first then s child = false ∨ abort = false else s child = true
    | .parallelStep _ child _ | .parallelFinish _ child _ | .parallelAbort _ child => s child = true
    | _ => True

end Monitors

section Tracking

/-- The events `l` of node `i` are accepted by its monitor, whose state agrees
with the flags of the node. -/
structure Tracked (P : Plan) (ns : ℕ → NodeState) (i : ℕ) (l : List Event) : Prop where
  leaf : (P.node i).kind = .leaf → leafMonitor.Accepts false l ∧
    ((ns i).running = true → leafMonitor.run false l = true) ∧
    ((P.node i).halt = true → leafMonitor.run false l = true → (ns i).running = true)
  pipeline : (P.node i).kind = .pipelineSequence →
    (pipelineMonitor (P.node i).pipelineAbort).Accepts (.closed 0) l ∧
    ((ns i).prepared = true →
      (pipelineMonitor (P.node i).pipelineAbort).run (.closed 0) l = .opened (ns i).counter) ∧
    ((ns i).prepared = false → (∃ next,
      (pipelineMonitor (P.node i).pipelineAbort).run (.closed 0) l = .closed next ∧
        ((ns i).counter = next ∨ (ns i).counter = 0)) ∨
      ((P.node i).pipelineAbort = false ∧ (ns i).counter = 0))
  queue : (P.node i).kind = .consumeQueue →
    (queueMonitor (P.node i).queueAbort).Accepts false l ∧
    ((ns i).prepared = true → (queueMonitor (P.node i).queueAbort).run false l = true) ∧
    ((P.node i).queueAbort = true →
      (queueMonitor (P.node i).queueAbort).run false l = true → (ns i).prepared = true)
  parallel : (P.node i).kind = .parallel →
    (parallelMonitor (P.node i).parallelAbort).Accepts (fun _ => false) l ∧
    (∀ k, Marked P ns i k →
      (parallelMonitor (P.node i).parallelAbort).run (fun _ => false) l k = true) ∧
    ((P.node i).parallelAbort = true → ∀ k,
      (parallelMonitor (P.node i).parallelAbort).run (fun _ => false) l k = true →
      Marked P ns i k)

variable {P : Plan} {ns ns' : ℕ → NodeState} {i : ℕ} {l : List Event}

theorem marked_congr (ht : Topology P) (hi : nodeIdValid P i = true)
    (h : ∀ c, IsChild P i c → (ns' c).parallelBranchPrepared = (ns c).parallelBranchPrepared)
    (k : ℕ) : Marked P ns' i k ↔ Marked P ns i k := by
  constructor <;> rintro ⟨c, hc, hm⟩ <;> refine ⟨c, hc, ?_⟩
  · rw [← h c (isChild_of_getElem? ht hi hc)]
    exact hm
  · rw [h c (isChild_of_getElem? ht hi hc)]
    exact hm

theorem tracked_quiet (ht : Topology P) (hi : nodeIdValid P i = true) (h : Tracked P ns i l)
    (hrunning : (ns' i).running = (ns i).running) (hprepared : (ns' i).prepared = (ns i).prepared)
    (hcounter : (P.node i).kind = .pipelineSequence → (ns' i).counter = (ns i).counter)
    (hmarks : ∀ c, IsChild P i c →
      (ns' c).parallelBranchPrepared = (ns c).parallelBranchPrepared) : Tracked P ns' i l := by
  constructor
  case leaf => rw [hrunning]; exact h.leaf
  case pipeline =>
    intro hk
    rw [hprepared, hcounter hk]
    exact h.pipeline hk
  case queue => rw [hprepared]; exact h.queue
  case parallel =>
    intro hk
    obtain ⟨h₁, h₂, h₃⟩ := h.parallel hk
    refine ⟨h₁, ?_, ?_⟩
    · exact fun k hm => h₂ k ((marked_congr ht hi hmarks k).mp hm)
    · exact fun ha k hr => (marked_congr ht hi hmarks k).mpr (h₃ ha k hr)

theorem tracked_neutral {q : Query} {a : Answer} (hq : q.node = i) (hn : Neutral P ns q a)
    (h : Tracked P ns i l) : Tracked P ns i (l ++ [⟨q, a⟩]) := by
  constructor
  case leaf =>
    intro hk
    rw [Monitor.accepts_snoc, Monitor.run_snoc]
    have hstep : leafMonitor.step (leafMonitor.run false l) ⟨q, a⟩ = leafMonitor.run false l := by
      cases q <;> first | rfl | exact absurd hn id
    have hallowed : leafMonitor.allowed (leafMonitor.run false l) ⟨q, a⟩ := by
      cases q <;> trivial
    obtain ⟨h₁, h₂⟩ := h.leaf hk
    rw [hstep]
    exact ⟨⟨h₁, hallowed⟩, h₂⟩
  case pipeline =>
    intro hk
    obtain ⟨h₁, h₂, h₃⟩ := h.pipeline hk
    rw [Monitor.accepts_snoc, Monitor.run_snoc]
    have hboth : (pipelineMonitor (P.node i).pipelineAbort).step
        ((pipelineMonitor (P.node i).pipelineAbort).run (.closed 0) l) ⟨q, a⟩ =
          (pipelineMonitor (P.node i).pipelineAbort).run (.closed 0) l ∧
        (pipelineMonitor (P.node i).pipelineAbort).allowed
          ((pipelineMonitor (P.node i).pipelineAbort).run (.closed 0) l) ⟨q, a⟩ := by
      cases q with
      | pipelineComplete j child status =>
        obtain ⟨hcode, hp, rfl, hs⟩ := hn
        obtain rfl : j = i := hq
        exact ⟨if_neg hcode, h₂ hp, hs⟩
      | _ => first | exact ⟨rfl, trivial⟩ | exact absurd hn id
    rw [hboth.1]
    exact ⟨⟨h₁, hboth.2⟩, h₂, h₃⟩
  case queue =>
    intro hk
    obtain ⟨h₁, h₂, h₃⟩ := h.queue hk
    rw [Monitor.accepts_snoc, Monitor.run_snoc]
    have hboth : (queueMonitor (P.node i).queueAbort).step
        ((queueMonitor (P.node i).queueAbort).run false l) ⟨q, a⟩ =
          (queueMonitor (P.node i).queueAbort).run false l ∧
        (queueMonitor (P.node i).queueAbort).allowed
          ((queueMonitor (P.node i).queueAbort).run false l) ⟨q, a⟩ := by
      cases q with
      | queueFinish j =>
        obtain ⟨hcode, hp⟩ := hn
        obtain rfl : j = i := hq
        exact ⟨if_neg hcode, h₂ hp⟩
      | _ => first | exact ⟨rfl, trivial⟩ | exact absurd hn id
    rw [hboth.1]
    exact ⟨⟨h₁, hboth.2⟩, h₂, h₃⟩
  case parallel =>
    intro hk
    obtain ⟨h₁, h₂, h₃⟩ := h.parallel hk
    rw [Monitor.accepts_snoc, Monitor.run_snoc]
    have hboth : (parallelMonitor (P.node i).parallelAbort).step
        ((parallelMonitor (P.node i).parallelAbort).run (fun _ => false) l) ⟨q, a⟩ =
          (parallelMonitor (P.node i).parallelAbort).run (fun _ => false) l ∧
        (parallelMonitor (P.node i).parallelAbort).allowed
          ((parallelMonitor (P.node i).parallelAbort).run (fun _ => false) l) ⟨q, a⟩ := by
      cases q with
      | parallelFinish j child status =>
        obtain ⟨hcode, hm⟩ := hn
        obtain rfl : j = i := hq
        exact ⟨if_neg hcode, h₂ child hm⟩
      | parallelStep j child status =>
        obtain rfl : j = i := hq
        exact ⟨rfl, h₂ child hn⟩
      | _ => first | exact ⟨rfl, trivial⟩ | exact absurd hn id
    rw [hboth.1]
    exact ⟨⟨h₁, hboth.2⟩, h₂, h₃⟩

end Tracking

section Reset
variable {P : Plan} {ns : ℕ → NodeState} {i : ℕ} {l : List Event}

/-- Tracking as far as a reset depends on it: the counter of a pipeline whose
context is closed does not matter. -/
structure Resettable (P : Plan) (ns : ℕ → NodeState) (i : ℕ) (l : List Event) : Prop where
  others : (P.node i).kind ≠ .pipelineSequence → Tracked P ns i l
  pipeline : (P.node i).kind = .pipelineSequence →
    (pipelineMonitor (P.node i).pipelineAbort).Accepts (.closed 0) l ∧
    ((ns i).prepared = true →
      (pipelineMonitor (P.node i).pipelineAbort).run (.closed 0) l = .opened (ns i).counter) ∧
    ((ns i).prepared = false → (∃ next,
      (pipelineMonitor (P.node i).pipelineAbort).run (.closed 0) l = .closed next) ∨
      (P.node i).pipelineAbort = false)

theorem resettable_of_tracked (h : Tracked P ns i l) : Resettable P ns i l := by
  refine ⟨fun _ => h, ?_⟩
  intro hk
  obtain ⟨h₁, h₂, h₃⟩ := h.pipeline hk
  refine ⟨h₁, h₂, ?_⟩
  intro hp
  rcases h₃ hp with ⟨next, hrun, -⟩ | ⟨ha, -⟩
  · exact Or.inl ⟨next, hrun⟩
  · exact Or.inr ha

theorem branchQueries_plain (hk : (P.node i).kind ≠ .parallel) (index : ℕ) (cs : List ℕ) :
    branchQueries P ns (fun _ => []) i index cs = [] := by
  induction cs generalizing index with
  | nil => rfl
  | cons c cs ih => simp [branchQueries, branchAbort, hk, ih]

theorem ownQueries_plain (hk : (P.node i).kind ≠ .parallel) :
    ownQueries P ns i = haltQueries P i (ns i) ++ abortQueries P i (ns i) := by
  rw [ownQueries, branchQueries_plain hk, List.append_nil]

theorem ownQueries_parallel (hk : (P.node i).kind = .parallel) :
    ownQueries P ns i = branchQueries P ns (fun _ => []) i 0 (children P i) := by
  simp [ownQueries, haltQueries, abortQueries, hk]

variable {evs : List Event}

theorem eq_singleton_of_query {q : Query} (h : evs.map Event.query = [q]) :
    ∃ a, evs = [⟨q, a⟩] := by
  obtain ⟨e, rfl, he⟩ := List.map_eq_singleton_iff.mp h
  exact ⟨e.answer, by rw [← he]⟩

theorem accepts_branchQueries (abort : Bool) (hk : (P.node i).kind = .parallel)
    (habort : (P.node i).parallelAbort = true) (cs : List ℕ) (index : ℕ) (s : ℕ → Bool)
    (hs : ∀ k c, cs[k]? = some c → (ns c).parallelBranchPrepared = true → s (index+k) = true)
    (hevs : evs.map Event.query = branchQueries P ns (fun _ => []) i index cs) :
    (parallelMonitor abort).Accepts s evs ∧ ∀ m, (parallelMonitor abort).run s evs m = true →
      s m = true ∧ ∀ k c, m = index+k → cs[k]? = some c →
        (ns c).parallelBranchPrepared = false := by
  induction cs generalizing index s evs with
  | nil =>
    rw [branchQueries, List.map_eq_nil_iff] at hevs
    rw [hevs]
    exact ⟨trivial, fun m hm => ⟨hm, fun k c _ hc => absurd hc (by simp)⟩⟩
  | cons c cs ih =>
    have htail : ∀ k d, cs[k]? = some d → (ns d).parallelBranchPrepared = true →
        s (index+1+k) = true := by
      intro k d hd hm
      have hnext := hs (k+1) d (by simpa using hd) hm
      rwa [show index+1+k = index+(k+1) by omega]
    rw [branchQueries, List.nil_append] at hevs
    by_cases hm : (ns c).parallelBranchPrepared = true
    · rw [branchAbort, if_pos ⟨hk, hm⟩, if_pos habort, List.singleton_append,
        List.map_eq_cons_iff] at hevs
      obtain ⟨e, evs', rfl, he, hevs'⟩ := hevs
      have hclose : (parallelMonitor abort).step s e = Function.update s index false := by
        simp [parallelMonitor, he]
      have hallowed : (parallelMonitor abort).allowed s e := by
        have := hs 0 c rfl hm
        simpa [parallelMonitor, he] using this
      obtain ⟨haccepts, hrun⟩ := ih (index+1) (Function.update s index false) (by
        intro k d hd hmd
        rw [Function.update_of_ne (by omega)]
        exact htail k d hd hmd) hevs'
      have hstep : (parallelMonitor abort).run s (e::evs') =
          (parallelMonitor abort).run (Function.update s index false) evs' := by
        rw [← hclose]
        rfl
      refine ⟨⟨hallowed, by rw [hclose]; exact haccepts⟩, ?_⟩
      intro m hmrun
      rw [hstep] at hmrun
      obtain ⟨hsm, hrest⟩ := hrun m hmrun
      have hne : m ≠ index := by
        rintro rfl
        rw [Function.update_self] at hsm
        exact absurd hsm (by decide)
      rw [Function.update_of_ne hne] at hsm
      refine ⟨hsm, ?_⟩
      intro k d hmk hd
      cases k with
      | zero => exact absurd hmk hne
      | succ k => exact hrest k d (by omega) (by simpa using hd)
    · rw [branchAbort, if_neg (fun h => hm h.2), List.nil_append] at hevs
      obtain ⟨haccepts, hrun⟩ := ih (index+1) s htail hevs
      refine ⟨haccepts, ?_⟩
      intro m hmrun
      obtain ⟨hsm, hrest⟩ := hrun m hmrun
      refine ⟨hsm, ?_⟩
      intro k d hmk hd
      cases k with
      | zero =>
        rw [List.getElem?_cons_zero, Option.some.injEq] at hd
        rw [← hd]
        simpa using hm
      | succ k => exact hrest k d (by omega) (by simpa using hd)

theorem resetNodes_inside (clear : Bool) (ns : ℕ → NodeState) {j : ℕ} (hi : Below P j i) :
    (resetNodes P clear ns j i).prepared = false ∧ (resetNodes P clear ns j i).counter = 0 ∧
      ((P.node i).kind = .leaf → (resetNodes P clear ns j i).running = false) := by
  simp only [resetNodes, if_pos hi]
  exact ⟨rfl, rfl, (restNode_resetOne clear _ i _).running⟩

theorem not_marked_inside (ht : Topology P) (clear : Bool) (ns : ℕ → NodeState) {j : ℕ}
    (hi : Below P j i) (hv : nodeIdValid P i = true) (hk : (P.node i).kind = .parallel) (k : ℕ) :
    ¬ Marked P (resetNodes P clear ns j) i k := by
  rintro ⟨c, hc, hm⟩
  have hchild := isChild_of_getElem? ht hv hc
  have hidle : Idle P (resetNodes P clear ns j) i := idle_of_below ht (idle_resetNodes clear j) hi
  have hmark := (hidle c (below_child hchild)).2 (child_lt ht hchild).ne'
    (by rw [hchild.2.2]; exact hk)
  rw [hm] at hmark
  exact absurd hmark (by decide)

theorem tracked_reset_inside (ht : Topology P) {clear : Bool} {j : ℕ} (hi : Below P j i)
    (hv : nodeIdValid P i = true) (hevs : evs.map Event.query = ownQueries P ns i)
    (h : Resettable P ns i l) : Tracked P (resetNodes P clear ns j) i (l ++ evs) := by
  obtain ⟨hprepared, hcounter, hrunning⟩ := resetNodes_inside clear ns hi
  constructor
  case leaf =>
    intro hk
    obtain ⟨h₁, h₂, h₃⟩ := (h.others (by rw [hk]; decide)).leaf hk
    rw [ownQueries_plain (by rw [hk]; decide)] at hevs
    rw [hrunning hk]
    by_cases hr : (ns i).running = true ∧ (P.node i).halt = true
    · have hq : evs.map Event.query = [.halt i] := by
        rw [hevs]
        simp [haltQueries, abortQueries, hk, hr.1, hr.2]
      obtain ⟨a, rfl⟩ := eq_singleton_of_query hq
      rw [Monitor.accepts_snoc, Monitor.run_snoc]
      exact ⟨⟨h₁, h₂ hr.1⟩, fun hf => absurd hf (by decide), fun _ hf => absurd hf Bool.false_ne_true⟩
    · have hq : evs = [] := by
        rw [← List.map_eq_nil_iff, hevs]
        simp only [haltQueries, abortQueries, hk]
        by_cases hrun : (ns i).running = true
        · have hhalt : (P.node i).halt = false := by
            by_contra hne
            exact hr ⟨hrun, by simpa using hne⟩
          simp [hrun, hhalt]
        · simp [hrun]
      rw [hq, List.append_nil]
      refine ⟨h₁, fun hf => absurd hf (by decide), ?_⟩
      intro hhalt hactive
      exact absurd ⟨h₃ hhalt hactive, hhalt⟩ hr
  case pipeline =>
    intro hk
    obtain ⟨h₁, h₂, h₃⟩ := h.pipeline hk
    rw [ownQueries_plain (by rw [hk]; decide)] at hevs
    rw [hprepared, hcounter]
    by_cases hp : (ns i).prepared = true
    · by_cases ha : (P.node i).pipelineAbort = true
      · have hq : evs.map Event.query = [.pipelineAbort i (ns i).counter] := by
          rw [hevs]
          simp [haltQueries, abortQueries, hk, hp, ha]
        obtain ⟨a, rfl⟩ := eq_singleton_of_query hq
        rw [Monitor.accepts_snoc, Monitor.run_snoc]
        exact ⟨⟨h₁, h₂ hp⟩, fun hf => absurd hf (by decide),
          fun _ => Or.inl ⟨0, rfl, Or.inl rfl⟩⟩
      · have hq : evs = [] := by
          rw [← List.map_eq_nil_iff, hevs]
          simp [haltQueries, abortQueries, hk, ha]
        rw [hq, List.append_nil]
        exact ⟨h₁, fun hf => absurd hf (by decide), fun _ => Or.inr ⟨by simpa using ha, rfl⟩⟩
    · have hq : evs = [] := by
        rw [← List.map_eq_nil_iff, hevs]
        simp [haltQueries, abortQueries, hk, hp]
      rw [hq, List.append_nil]
      refine ⟨h₁, fun hf => absurd hf (by decide), ?_⟩
      intro _
      rcases h₃ (by simpa using hp) with ⟨next, hrun⟩ | ha
      · exact Or.inl ⟨next, hrun, Or.inr rfl⟩
      · exact Or.inr ⟨ha, rfl⟩
  case queue =>
    intro hk
    obtain ⟨h₁, h₂, h₃⟩ := (h.others (by rw [hk]; decide)).queue hk
    rw [ownQueries_plain (by rw [hk]; decide)] at hevs
    rw [hprepared]
    by_cases hp : (ns i).prepared = true ∧ (P.node i).queueAbort = true
    · have hq : evs.map Event.query = [.queueAbort i] := by
        rw [hevs]
        simp [haltQueries, abortQueries, hk, hp.1, hp.2]
      obtain ⟨a, rfl⟩ := eq_singleton_of_query hq
      rw [Monitor.accepts_snoc, Monitor.run_snoc]
      exact ⟨⟨h₁, h₂ hp.1⟩, fun hf => absurd hf (by decide), fun _ hf => absurd hf Bool.false_ne_true⟩
    · have hq : evs = [] := by
        rw [← List.map_eq_nil_iff, hevs]
        simp only [haltQueries, abortQueries, hk]
        by_cases hprep : (ns i).prepared = true
        · have habort : (P.node i).queueAbort = false := by
            by_contra hne
            exact hp ⟨hprep, by simpa using hne⟩
          simp [hprep, habort]
        · simp [hprep]
      rw [hq, List.append_nil]
      refine ⟨h₁, fun hf => absurd hf (by decide), ?_⟩
      intro ha hopen
      exact absurd ⟨h₃ ha hopen, ha⟩ hp
  case parallel =>
    intro hk
    obtain ⟨h₁, h₂, h₃⟩ := (h.others (by rw [hk]; decide)).parallel hk
    rw [ownQueries_parallel hk] at hevs
    have hclosed := not_marked_inside ht clear ns hi hv hk
    by_cases ha : (P.node i).parallelAbort = true
    · obtain ⟨haccepts, hrun⟩ := accepts_branchQueries (P.node i).parallelAbort hk ha
        (children P i) 0 _ (fun k c hc hm => h₂ (0+k) (by
          rw [Nat.zero_add]
          exact ⟨c, hc, hm⟩)) hevs
      rw [Monitor.accepts_append, Monitor.run_append]
      refine ⟨⟨h₁, haccepts⟩, fun k hm => absurd hm (hclosed k), ?_⟩
      intro _ k hopen
      obtain ⟨hold, hunmarked⟩ := hrun k hopen
      obtain ⟨c, hc, hm⟩ := h₃ ha k hold
      rw [hunmarked k c (by omega) hc] at hm
      exact absurd hm (by decide)
    · have hq : evs = [] := by
        rw [← List.map_eq_nil_iff, hevs]
        have hnone : ∀ (cs : List ℕ) (index : ℕ),
            branchQueries P ns (fun _ => []) i index cs = [] := by
          intro cs
          induction cs with
          | nil => exact fun _ => rfl
          | cons c cs ih => exact fun index => by simp [branchQueries, branchAbort, ha, ih]
        exact hnone _ _
      rw [hq, List.append_nil]
      exact ⟨h₁, fun k hm => absurd hm (hclosed k), fun hf => absurd hf ha⟩

theorem tracked_reset_outside (ht : Topology P) {clear : Bool} {j : ℕ} (hi : ¬ Below P j i)
    (hv : nodeIdValid P i = true) (h : Tracked P ns i l) :
    Tracked P (resetNodes P clear ns j) i l := by
  have hsame : resetNodes P clear ns j i = ns i := by simp only [resetNodes, if_neg hi]
  apply tracked_quiet ht hv h
  · rw [hsame]
  · rw [hsame]
  · rw [hsame]
    exact fun _ => rfl
  · intro c hc
    by_cases hjc : Below P j c
    · rcases below_parent (is_forest ht) hjc hc with rfl | hji
      · simp only [resetNodes, if_pos hjc, ne_eq, not_true_eq_false, decide_false]
        exact resetOne_mark_outer clear c _
      · exact absurd hji hi
    · simp only [resetNodes, if_neg hjc]

end Reset

section Actions
variable {P : Plan} {env : Env σ} {past : List Event} {w w' : World σ} {i j : ℕ}

def AllTracked (P : Plan) (past : List Event) (w : World σ) : Prop :=
  ∀ i, nodeIdValid P i = true → Tracked P w.nodes i (eventsOf i (past ++ w.trace))

theorem events_call (q : Query) (w : World σ) (i : ℕ) :
    eventsOf i (past ++ (w.call env q).trace) =
      eventsOf i (past ++ w.trace) ++ eventsOf i [⟨q, w.answer env q⟩] := by
  rw [call_trace, ← List.append_assoc, eventsOf_append]

theorem events_call_self (q : Query) (w : World σ) :
    eventsOf q.node (past ++ (w.call env q).trace) =
      eventsOf q.node (past ++ w.trace) ++ [⟨q, w.answer env q⟩] := by
  rw [events_call]
  congr 1
  exact eventsOf_self (e := ⟨q, w.answer env q⟩)

theorem events_call_other {q : Query} (h : q.node ≠ i) (w : World σ) :
    eventsOf i (past ++ (w.call env q).trace) = eventsOf i (past ++ w.trace) := by
  rw [events_call, eventsOf_other h, List.append_nil]

/-- A reset keeps tracking, also from a state in which only `Resettable` holds of
the nodes it reaches. -/
theorem tracked_reset (ht : Topology P) (hj : nodeIdValid P j = true) (clear : Bool)
    (hout : ∀ i, nodeIdValid P i = true → ¬ Below P j i →
      Tracked P w.nodes i (eventsOf i (past ++ w.trace)))
    (hin : ∀ i, Below P j i → Resettable P w.nodes i (eventsOf i (past ++ w.trace))) :
    AllTracked P past (resetNodeStateImpl P env P.nodeCount j clear w).2 := by
  rw [reset_eq env ht clear hj]
  obtain ⟨evs, htrace, hqs⟩ := callAll_trace env (resetQueries P w.nodes P.nodeCount j)
    (w.withNodes (resetNodes P clear w.nodes j))
  have h0 := (nodeIdValid_iff.mp hj).1
  intro i hi
  have hevents : eventsOf i (past ++ ((w.withNodes (resetNodes P clear w.nodes j)).callAll env
      (resetQueries P w.nodes P.nodeCount j)).trace) =
        eventsOf i (past ++ w.trace) ++ eventsOf i evs := by
    rw [htrace, ← List.append_assoc, eventsOf_append]
    rfl
  rw [hevents, callAll_nodes]
  by_cases hji : Below P j i
  · apply tracked_reset_inside ht hji hi _ (hin i hji)
    rw [eventsOf_query, hqs]
    exact resetQueries_filter ht w.nodes hj (by omega) hji
  · have hnone : eventsOf i evs = [] := by
      rw [← List.map_eq_nil_iff, eventsOf_query, hqs]
      exact resetQueries_outside ht w.nodes hji
    rw [hnone, List.append_nil]
    exact tracked_reset_outside ht hji hi (hout i hi hji)

theorem tracked_own {n : NodeState} {l : List Event} (ht : Topology P)
    (hi : nodeIdValid P i = true) (hij : i ≠ j)
    (hmark : n.parallelBranchPrepared = (w.nodes j).parallelBranchPrepared)
    (h : Tracked P w.nodes i l) : Tracked P (w.set j n).nodes i l := by
  have hself : (w.set j n).nodes i = w.nodes i := set_nodes_ne w n hij
  apply tracked_quiet ht hi h
  · rw [hself]
  · rw [hself]
  · rw [hself]
    exact fun _ => rfl
  · intro c _
    by_cases hcj : c = j
    · rw [hcj, set_nodes_self]
      exact hmark
    · rw [set_nodes_ne w n hcj]

variable {c : ℕ}

theorem marks_own (ht : Topology P) {n : NodeState} (hc : IsChild P j c) :
    ((w.set j n).nodes c).parallelBranchPrepared = (w.nodes c).parallelBranchPrepared := by
  rw [set_nodes_ne w n (child_lt ht hc).ne']

variable {x : Bool}

theorem tracked_mark {l : List Event} (ht : Topology P) (hi : nodeIdValid P i = true)
    (hc : IsChild P j c) (hij : i ≠ j) (h : Tracked P w.nodes i l) :
    Tracked P (w.set c { w.nodes c with parallelBranchPrepared := x }).nodes i l := by
  have hself : ((w.set c { w.nodes c with parallelBranchPrepared := x }).nodes i).running =
        (w.nodes i).running ∧
      ((w.set c { w.nodes c with parallelBranchPrepared := x }).nodes i).prepared =
        (w.nodes i).prepared ∧
      ((w.set c { w.nodes c with parallelBranchPrepared := x }).nodes i).counter =
        (w.nodes i).counter := by
    by_cases hic : i = c
    · subst hic
      rw [set_nodes_self]
      exact ⟨rfl, rfl, rfl⟩
    · rw [set_nodes_ne w _ hic]
      exact ⟨rfl, rfl, rfl⟩
  apply tracked_quiet ht hi h hself.1 hself.2.1 (fun _ => hself.2.2)
  intro d hd
  have hdc : d ≠ c := by
    rintro rfl
    exact hij (hd.2.2.symm.trans hc.2.2)
  rw [set_nodes_ne w _ hdc]

section Own
variable {l : List Event}

theorem tracked_of_leaf {ns : ℕ → NodeState} (hk : (P.node j).kind = .leaf)
    (h : leafMonitor.Accepts false l ∧
      ((ns j).running = true → leafMonitor.run false l = true) ∧
      ((P.node j).halt = true → leafMonitor.run false l = true → (ns j).running = true)) :
    Tracked P ns j l := by
  constructor
  case leaf => exact fun _ => h
  all_goals
    intro hk'
    rw [hk] at hk'
    exact absurd hk' (by decide)

theorem tracked_of_pipeline {ns : ℕ → NodeState} (hk : (P.node j).kind = .pipelineSequence)
    (h : (pipelineMonitor (P.node j).pipelineAbort).Accepts (.closed 0) l ∧
      ((ns j).prepared = true →
        (pipelineMonitor (P.node j).pipelineAbort).run (.closed 0) l = .opened (ns j).counter) ∧
      ((ns j).prepared = false → (∃ next,
        (pipelineMonitor (P.node j).pipelineAbort).run (.closed 0) l = .closed next ∧
          ((ns j).counter = next ∨ (ns j).counter = 0)) ∨
        ((P.node j).pipelineAbort = false ∧ (ns j).counter = 0))) : Tracked P ns j l := by
  constructor
  case pipeline => exact fun _ => h
  all_goals
    intro hk'
    rw [hk] at hk'
    exact absurd hk' (by decide)

theorem tracked_of_queue {ns : ℕ → NodeState} (hk : (P.node j).kind = .consumeQueue)
    (h : (queueMonitor (P.node j).queueAbort).Accepts false l ∧
      ((ns j).prepared = true → (queueMonitor (P.node j).queueAbort).run false l = true) ∧
      ((P.node j).queueAbort = true →
        (queueMonitor (P.node j).queueAbort).run false l = true → (ns j).prepared = true)) :
    Tracked P ns j l := by
  constructor
  case queue => exact fun _ => h
  all_goals
    intro hk'
    rw [hk] at hk'
    exact absurd hk' (by decide)

theorem tracked_of_parallel {ns : ℕ → NodeState} (hk : (P.node j).kind = .parallel)
    (h : (parallelMonitor (P.node j).parallelAbort).Accepts (fun _ => false) l ∧
      (∀ k, Marked P ns j k →
        (parallelMonitor (P.node j).parallelAbort).run (fun _ => false) l k = true) ∧
      ((P.node j).parallelAbort = true → ∀ k,
        (parallelMonitor (P.node j).parallelAbort).run (fun _ => false) l k = true →
        Marked P ns j k)) : Tracked P ns j l := by
  constructor
  case parallel => exact fun _ => h
  all_goals
    intro hk'
    rw [hk] at hk'
    exact absurd hk' (by decide)

theorem tracked_handler (hk : (P.node j).kind = .leaf)
    (h : Tracked P w.nodes j (eventsOf j (past ++ w.trace))) :
    Tracked P (tickLeaf env j w).2.nodes j (eventsOf j (past ++ (tickLeaf env j w).2.trace)) := by
  obtain ⟨h₁, h₂, h₃⟩ := h.leaf hk
  have hevents : eventsOf j (past ++ (w.call env (.handler j)).trace) =
      eventsOf j (past ++ w.trace) ++ [⟨.handler j, w.answer env (.handler j)⟩] :=
    events_call_self (.handler j) w
  apply tracked_of_leaf hk
  rw [tickLeaf_world]
  cases hs : statusOf (w.answer env (.handler j)).status with
  | none =>
    have hstep : leafMonitor.step (leafMonitor.run false (eventsOf j (past ++ w.trace)))
        ⟨.handler j, w.answer env (.handler j)⟩ =
          leafMonitor.run false (eventsOf j (past ++ w.trace)) := by
      simp [leafMonitor, hs]
    rw [hevents, Monitor.accepts_snoc, Monitor.run_snoc, hstep]
    exact ⟨⟨h₁, trivial⟩, h₂, h₃⟩
  | some status =>
    have hstep : leafMonitor.step (leafMonitor.run false (eventsOf j (past ++ w.trace)))
        ⟨.handler j, w.answer env (.handler j)⟩ = decide (status = .running) := by
      simp [leafMonitor, hs]
    simp only [set_trace, set_nodes_self]
    rw [hevents, Monitor.accepts_snoc, Monitor.run_snoc, hstep]
    exact ⟨⟨h₁, trivial⟩, id, fun _ => id⟩

theorem tracked_prepare (hk : (P.node j).kind = .pipelineSequence)
    (hp : (w.nodes j).prepared = false)
    (h : Tracked P w.nodes j (eventsOf j (past ++ w.trace))) {e : Event}
    (he : e.query = .pipelinePrepare j (w.nodes j).counter) :
    Tracked P (w.set j { w.nodes j with prepared := true }).nodes j
      (eventsOf j (past ++ w.trace) ++ [e]) := by
  obtain ⟨h₁, h₂, h₃⟩ := h.pipeline hk
  apply tracked_of_pipeline hk
  rw [Monitor.accepts_snoc, Monitor.run_snoc, set_nodes_self]
  refine ⟨⟨h₁, ?_⟩, ?_, fun hf => absurd hf (by simp)⟩
  · simp only [pipelineMonitor, he]
    exact h₃ hp
  · intro _
    simp [pipelineMonitor, he]

theorem accepts_complete (hk : (P.node j).kind = .pipelineSequence)
    (hp : (w.nodes j).prepared = true)
    (h : Tracked P w.nodes j l) {e : Event} (status : NodeStatus) (hs : status ≠ .running)
    (he : e.query = .pipelineComplete j (w.nodes j).counter status) (hcode : e.answer.code = .ok) :
    (pipelineMonitor (P.node j).pipelineAbort).Accepts (.closed 0) (l ++ [e]) ∧
      (pipelineMonitor (P.node j).pipelineAbort).run (.closed 0) (l ++ [e]) =
        .closed (if status = .success then (w.nodes j).counter+1 else 0) := by
  obtain ⟨h₁, h₂, h₃⟩ := h.pipeline hk
  rw [Monitor.accepts_snoc, Monitor.run_snoc, h₂ hp]
  refine ⟨⟨h₁, ?_⟩, ?_⟩
  · simp only [pipelineMonitor, he]
    exact ⟨trivial, hs⟩
  · simp [pipelineMonitor, he, hcode]

theorem tracked_advance (hk : (P.node j).kind = .pipelineSequence)
    (hp : (w.nodes j).prepared = true) (h : Tracked P w.nodes j l) {e : Event}
    (he : e.query = .pipelineComplete j (w.nodes j).counter .success)
    (hcode : e.answer.code = .ok) {n : NodeState} (hn : n.prepared = false)
    (hcounter : n.counter = (w.nodes j).counter+1) : Tracked P (w.set j n).nodes j (l ++ [e]) := by
  obtain ⟨haccepts, hrun⟩ := accepts_complete hk hp h .success (by decide) he hcode
  apply tracked_of_pipeline hk
  rw [set_nodes_self, hn, hcounter]
  exact ⟨haccepts, fun hf => absurd hf (by decide), fun _ => Or.inl ⟨_, hrun, Or.inl rfl⟩⟩

theorem tracked_begin (hk : (P.node j).kind = .consumeQueue) (hp : (w.nodes j).prepared = false)
    (h : Tracked P w.nodes j l) {e : Event} (he : e.query = .queueBegin j) {n : NodeState}
    (hn : n.prepared = !(decide (e.answer.code = .ok) && !e.answer.flag)) :
    Tracked P (w.set j n).nodes j (l ++ [e]) := by
  obtain ⟨h₁, h₂, h₃⟩ := h.queue hk
  apply tracked_of_queue hk
  have hstep : (queueMonitor (P.node j).queueAbort).step
      ((queueMonitor (P.node j).queueAbort).run false l) e = n.prepared := by
    simp [queueMonitor, he, hn]
  rw [Monitor.accepts_snoc, Monitor.run_snoc, set_nodes_self, hstep]
  refine ⟨⟨h₁, ?_⟩, id, fun _ => id⟩
  simp only [queueMonitor, he]
  by_contra hne
  push Not at hne
  have hopen := h₃ (by simpa using hne.2) (by simpa [queueMonitor] using hne.1)
  rw [hp] at hopen
  exact absurd hopen (by decide)

theorem tracked_commit (hk : (P.node j).kind = .consumeQueue) (hp : (w.nodes j).prepared = true)
    (h : Tracked P w.nodes j l) {e : Event} (he : e.query = .queueFinish j)
    (hcode : e.answer.code = .ok) {n : NodeState} (hn : n.prepared = false) :
    Tracked P (w.set j n).nodes j (l ++ [e]) := by
  obtain ⟨h₁, h₂, h₃⟩ := h.queue hk
  apply tracked_of_queue hk
  have hstep : (queueMonitor (P.node j).queueAbort).step
      ((queueMonitor (P.node j).queueAbort).run false l) e = false := by
    simp [queueMonitor, he, hcode]
  rw [Monitor.accepts_snoc, Monitor.run_snoc, set_nodes_self, hstep, hn]
  refine ⟨⟨h₁, ?_⟩, id, fun _ => id⟩
  simp only [queueMonitor, he]
  exact h₂ hp

variable {k : ℕ}

theorem marked_set (ht : Topology P) (hj : nodeIdValid P j = true)
    (hc : (children P j)[k]? = some c) (m : ℕ) :
    Marked P (w.set c { w.nodes c with parallelBranchPrepared := x }).nodes j m ↔
      if m = k then x = true else Marked P w.nodes j m := by
  by_cases hm : m = k
  · subst hm
    rw [if_pos rfl]
    constructor
    · rintro ⟨d, hd, hmark⟩
      rw [hc] at hd
      rw [← Option.some.inj hd, set_nodes_self] at hmark
      exact hmark
    · intro hx
      exact ⟨c, hc, by rw [set_nodes_self]; exact hx⟩
  · rw [if_neg hm]
    have hne : ∀ d, (children P j)[m]? = some d → d ≠ c := by
      rintro d hd rfl
      have hlt : m < (children P j).length := (List.getElem?_eq_some_iff.mp hd).1
      exact hm ((List.getElem?_inj hlt (nodup_children ht hj)).mp (hd.trans hc.symm))
    constructor
    · rintro ⟨d, hd, hmark⟩
      rw [set_nodes_ne w _ (hne d hd)] at hmark
      exact ⟨d, hd, hmark⟩
    · rintro ⟨d, hd, hmark⟩
      exact ⟨d, hd, by rw [set_nodes_ne w _ (hne d hd)]; exact hmark⟩

theorem tracked_enter (ht : Topology P) (hj : nodeIdValid P j = true)
    (hk : (P.node j).kind = .parallel) (hc : (children P j)[k]? = some c)
    (h : Tracked P w.nodes j l) {e : Event}
    (he : e.query = .parallelEnter j k (!(w.nodes c).parallelBranchPrepared)) :
    Tracked P (w.set c { w.nodes c with parallelBranchPrepared := true }).nodes j (l ++ [e]) := by
  obtain ⟨h₁, h₂, h₃⟩ := h.parallel hk
  apply tracked_of_parallel hk
  have hstep : (parallelMonitor (P.node j).parallelAbort).step
      ((parallelMonitor (P.node j).parallelAbort).run (fun _ => false) l) e =
        Function.update ((parallelMonitor (P.node j).parallelAbort).run (fun _ => false) l) k
          true := by
    simp [parallelMonitor, he]
  rw [Monitor.accepts_snoc, Monitor.run_snoc, hstep]
  refine ⟨⟨h₁, ?_⟩, ?_, ?_⟩
  · simp only [parallelMonitor, he]
    cases hmark : (w.nodes c).parallelBranchPrepared with
    | true =>
      rw [if_neg (by decide)]
      exact h₂ k ⟨c, hc, hmark⟩
    | false =>
      rw [if_pos (by decide)]
      by_contra hne
      push Not at hne
      obtain ⟨d, hd, hm⟩ := h₃ (by simpa using hne.2) k (by simpa [parallelMonitor] using hne.1)
      rw [hc] at hd
      rw [← Option.some.inj hd, hmark] at hm
      exact absurd hm (by decide)
  · intro m hm
    rw [marked_set ht hj hc] at hm
    by_cases hmk : m = k
    · rw [hmk, Function.update_self]
    · rw [if_neg hmk] at hm
      rw [Function.update_of_ne hmk]
      exact h₂ m hm
  · intro ha m hm
    rw [marked_set ht hj hc]
    by_cases hmk : m = k
    · rw [if_pos hmk]
    · rw [Function.update_of_ne hmk] at hm
      rw [if_neg hmk]
      exact h₃ ha m hm

theorem tracked_finish (ht : Topology P) (hj : nodeIdValid P j = true)
    (hk : (P.node j).kind = .parallel) (hc : (children P j)[k]? = some c)
    (hmark : (w.nodes c).parallelBranchPrepared = true) (h : Tracked P w.nodes j l) {e : Event}
    {status : NodeStatus} (he : e.query = .parallelFinish j k status) (hcode : e.answer.code = .ok) :
    Tracked P (w.set c { w.nodes c with parallelBranchPrepared := false }).nodes j (l ++ [e]) := by
  obtain ⟨h₁, h₂, h₃⟩ := h.parallel hk
  apply tracked_of_parallel hk
  have hstep : (parallelMonitor (P.node j).parallelAbort).step
      ((parallelMonitor (P.node j).parallelAbort).run (fun _ => false) l) e =
        Function.update ((parallelMonitor (P.node j).parallelAbort).run (fun _ => false) l) k
          false := by
    simp [parallelMonitor, he, hcode]
  rw [Monitor.accepts_snoc, Monitor.run_snoc, hstep]
  refine ⟨⟨h₁, ?_⟩, ?_, ?_⟩
  · simp only [parallelMonitor, he]
    exact h₂ k ⟨c, hc, hmark⟩
  · intro m hm
    rw [marked_set ht hj hc] at hm
    by_cases hmk : m = k
    · rw [if_pos hmk] at hm
      exact absurd hm (by decide)
    · rw [if_neg hmk] at hm
      rw [Function.update_of_ne hmk]
      exact h₂ m hm
  · intro ha m hm
    rw [marked_set ht hj hc]
    by_cases hmk : m = k
    · rw [hmk, Function.update_self] at hm
      exact absurd hm (by decide)
    · rw [Function.update_of_ne hmk] at hm
      rw [if_neg hmk]
      exact h₃ ha m hm

end Own

theorem allTracked_own {q : Query} (ht : Topology P) (hq : q.node = j) {n : NodeState}
    (hmark : n.parallelBranchPrepared = (w.nodes j).parallelBranchPrepared)
    (hown : nodeIdValid P j = true → Tracked P (w.set j n).nodes j
      (eventsOf j (past ++ w.trace) ++ [⟨q, w.answer env q⟩]))
    (h : AllTracked P past w) : AllTracked P past ((w.call env q).set j n) := by
  subst hq
  intro i hi
  by_cases hij : i = q.node
  · rw [hij] at hi ⊢
    rw [set_trace, events_call_self]
    exact hown hi
  · rw [set_trace, events_call_other (Ne.symm hij)]
    exact tracked_own (w := w.call env q) ht hi hij hmark (h i hi)

theorem allTracked_mark {q : Query} (ht : Topology P) (hq : q.node = j) (hc : IsChild P j c)
    (hown : nodeIdValid P j = true →
      Tracked P (w.set c { w.nodes c with parallelBranchPrepared := x }).nodes j
        (eventsOf j (past ++ w.trace) ++ [⟨q, w.answer env q⟩]))
    (h : AllTracked P past w) :
    AllTracked P past ((w.call env q).set c { w.nodes c with parallelBranchPrepared := x }) := by
  subst hq
  intro i hi
  by_cases hij : i = q.node
  · rw [hij] at hi ⊢
    rw [set_trace, events_call_self]
    exact hown hi
  · rw [set_trace, events_call_other (Ne.symm hij)]
    exact tracked_mark (w := w.call env q) ht hi hc hij (h i hi)

theorem tracked_give_up (ht : Topology P) (hj : nodeIdValid P j = true)
    (hk : (P.node j).kind = .pipelineSequence) (hp : (w.nodes j).prepared = true)
    (hcode : (w.answer env (.pipelineComplete j (w.nodes j).counter .failure)).code = .ok)
    (h : AllTracked P past w) :
    AllTracked P past (resetNodeState P env j
      ((w.call env (.pipelineComplete j (w.nodes j).counter .failure)).set j
        { w.nodes j with cursor := 0, prepared := false })).2 := by
  have hothers : ∀ i, nodeIdValid P i = true → i ≠ j →
      Tracked P ((w.call env (.pipelineComplete j (w.nodes j).counter .failure)).set j
        { w.nodes j with cursor := 0, prepared := false }).nodes i
      (eventsOf i (past ++ ((w.call env (.pipelineComplete j (w.nodes j).counter .failure)).set j
        { w.nodes j with cursor := 0, prepared := false }).trace)) := by
    intro i hi hij
    rw [set_trace, events_call_other (by exact Ne.symm hij)]
    exact tracked_own (w := w.call env _) ht hi hij rfl (h i hi)
  apply tracked_reset ht hj
  · intro i hi hji
    apply hothers i hi
    rintro rfl
    exact hji (below_refl i)
  · intro i hji
    by_cases hij : i = j
    · subst hij
      refine ⟨fun hne => absurd hk hne, ?_⟩
      intro _
      obtain ⟨haccepts, hrun⟩ := accepts_complete hk hp (h i hj)
        (e := ⟨.pipelineComplete i (w.nodes i).counter .failure,
          w.answer env (.pipelineComplete i (w.nodes i).counter .failure)⟩) .failure (by decide)
        rfl hcode
      have hevents : eventsOf i (past ++ (w.call env (.pipelineComplete i (w.nodes i).counter
          .failure)).trace) = eventsOf i (past ++ w.trace) ++
            [⟨.pipelineComplete i (w.nodes i).counter .failure,
              w.answer env (.pipelineComplete i (w.nodes i).counter .failure)⟩] :=
        events_call_self (.pipelineComplete i (w.nodes i).counter .failure) w
      rw [set_trace, set_nodes_self, hevents]
      exact ⟨haccepts, fun hf => absurd hf (by simp), fun _ => Or.inl ⟨_, hrun⟩⟩
    · exact resettable_of_tracked (hothers i (below_valid hj hji) hij)

theorem tracked_act (ht : Topology P) (hj : nodeIdValid P j = true) (ha : Act P env j w w')
    (h : AllTracked P past w) : AllTracked P past w' := by
  cases ha with
  | write hw =>
    intro i hi
    rw [set_trace]
    by_cases hij : i = j
    · subst hij
      apply tracked_quiet ht hi (h i hi)
      · rw [set_nodes_self]; exact hw.running
      · rw [set_nodes_self]; exact hw.prepared
      · rw [set_nodes_self]; exact hw.counter
      · exact fun c hc => marks_own ht hc
    · exact tracked_own ht hi hij hw.mark (h i hi)
  | call hn =>
    rename_i q
    intro i hi
    by_cases hij : i = q.node
    · rw [hij] at hi ⊢
      rw [events_call_self]
      exact tracked_neutral rfl hn (h _ hi)
    · rw [events_call_other (Ne.symm hij)]
      exact h i hi
  | resolve hlimit =>
    rename_i a
    obtain ⟨hr, hp, hm, hc⟩ := applyParameters_keeps (P.node j) a (w.nodes j)
    intro i hi
    rw [set_trace]
    by_cases hij : i = j
    · subst hij
      apply tracked_quiet ht hi (h i hi)
      · rw [set_nodes_self]; exact hr
      · rw [set_nodes_self]; exact hp
      · rw [set_nodes_self]; exact fun _ => hc
      · exact fun c hc => marks_own ht hc
    · exact tracked_own ht hi hij hm (h i hi)
  | handler hk =>
    intro i hi
    by_cases hij : i = j
    · rw [hij] at hi ⊢
      exact tracked_handler hk (h j hi)
    · rw [tickLeaf_world]
      cases statusOf (w.answer env (.handler j)).status with
      | none =>
        rw [events_call_other (by exact Ne.symm hij)]
        exact h i hi
      | some status =>
        show Tracked P _ i (eventsOf i (past ++ (w.call env (.handler j)).trace))
        rw [events_call_other (by exact Ne.symm hij)]
        exact tracked_own (w := w.call env (.handler j)) ht hi hij rfl (h i hi)
  | prepare hk hp hcount =>
    exact allTracked_own (q := .pipelinePrepare j (w.nodes j).counter) ht rfl rfl
      (fun hv => tracked_prepare hk hp (h j hv) rfl) h
  | advance hk hp hcode =>
    refine allTracked_own (q := .pipelineComplete j (w.nodes j).counter .success) ht rfl (by rfl)
      ?_ h
    exact fun hv => tracked_advance hk hp (h j hv) rfl hcode rfl rfl
  | give_up hk hp hcode => exact tracked_give_up ht hj hk hp hcode h
  | begin hk hp hn =>
    refine allTracked_own (q := .queueBegin j) ht rfl (by rw [hn]; rfl) ?_ h
    exact fun hv => tracked_begin hk hp (h j hv) rfl (by rw [hn])
  | commit hk hp hcode =>
    refine allTracked_own (q := .queueFinish j) ht rfl (by rfl) ?_ h
    exact fun hv => tracked_commit hk hp (h j hv) rfl hcode rfl
  | enter hk he hc =>
    rename_i k c
    exact allTracked_mark
      (q := .parallelEnter j k (!(w.nodes c).parallelBranchPrepared)) ht rfl
      (isChild_of_getElem? ht hj hc) (fun hv => tracked_enter ht hv hk hc (h j hv) rfl) h
  | finish hk hc hmark hcode =>
    rename_i k c status
    refine allTracked_mark (q := .parallelFinish j k status) ht rfl
      (isChild_of_getElem? ht hj hc) ?_ h
    exact fun hv => tracked_finish ht hv hk hc hmark (h j hv) rfl hcode
  | reset hk hjk =>
    apply tracked_reset ht hk
    · exact fun i hi _ => h i hi
    · exact fun i hi => resettable_of_tracked (h i (below_valid hk hi))
  | visit _ _ => exact h

end Actions

end SaltsUtils.BehaviorTree
