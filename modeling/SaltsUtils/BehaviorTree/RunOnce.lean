import SaltsUtils.BehaviorTree.Following
import SaltsUtils.BehaviorTree.Quiescence

/-!
# RunOnce over whole runs

The cache of a RunOnce node survives every reset that an ancestor issues but one: a
Parallel node that stays RUNNING restarts its ended branches with the reset that clears
persistent state.
-/

set_option autoImplicit false

namespace SaltsUtils.BehaviorTree
open SaltsUtils.Forest

variable {σ : Type}

/-- The returns of `tick_node` in a list of records, each with the plan it ran under. -/
def played (records : List Record) : List (Plan × Visit) :=
  records.flatMap fun record => record.visits.map fun v => (record.plan, v)

/-- The child has returned a terminal status. -/
def Ended (c : ℕ) (status : NodeStatus) (v : Visit) : Prop :=
  v.node = c ∧ v.result = .ok status ∧ status ≠ .running

/-- A Parallel node has returned RUNNING after it has restarted a branch that holds `r`: of the
branches of a Parallel node that returns RUNNING, those that did not end are RUNNING too. -/
def Restarted (r : ℕ) (x : Plan × Visit) : Prop :=
  (x.1.node x.2.node).kind = .parallel ∧ x.2.result = .ok .running ∧
    ∃ b, IsChild x.1 x.2.node b ∧ Below x.1 b r ∧ (x.2.nodes b).lastStatus ≠ .running

variable {status : NodeStatus}

section Once
variable {r c : ℕ} {xs : List (Plan × Visit)} {n n' : NodeState}

/-- From the end of the child up to a restart, the child is not ticked and the node returns the
status of the child. -/
def OnceOnly (r c : ℕ) (xs : List (Plan × Visit)) : Prop :=
  ∀ (i k : ℕ) (x y : Plan × Visit) (status : NodeStatus), i < k → xs[i]? = some x →
    xs[k]? = some y → Ended c status x.2 →
    (∀ (j : ℕ) (z : Plan × Visit), i < j → j < k → xs[j]? = some z → ¬ Restarted r z) →
    y.2.node ≠ c ∧ (y.2.node = r → y.2.result = .ok status)

/-- The end of the child at `i` has not been followed by a restart. -/
def Lasting (r c : ℕ) (xs : List (Plan × Visit)) (i : ℕ) (status : NodeStatus) : Prop :=
  (∃ x, xs[i]? = some x ∧ Ended c status x.2) ∧
    ∀ (j : ℕ) (z : Plan × Visit), i < j → xs[j]? = some z → ¬ Restarted r z

/-- The invariant: such an end is cached in the node. -/
structure OnceInv (r c : ℕ) (xs : List (Plan × Visit)) (n : NodeState) : Prop where
  only : OnceOnly r c xs
  held : ∀ i status, Lasting r c xs i status → n.runOnceComplete = true ∧ n.lastStatus = status

theorem onceInv_nil (r c : ℕ) (n : NodeState) : OnceInv r c [] n :=
  ⟨fun _ _ _ _ _ _ hi => by simp at hi, fun _ _ hl => by simp [Lasting] at hl⟩

theorem onceInv_congr (h : OnceInv r c xs n)
    (hn : n.runOnceComplete = true → n'.runOnceComplete = true ∧ n'.lastStatus = n.lastStatus) :
    OnceInv r c xs n' := by
  refine ⟨h.only, fun i status hl => ?_⟩
  obtain ⟨h₁, h₂⟩ := h.held i status hl
  exact ⟨(hn h₁).1, (hn h₁).2.trans h₂⟩

omit xs n n' in
theorem getElem?_concat_cases {α : Type} {l : List α} {x y : α} {i : ℕ}
    (h : (l ++ [y])[i]? = some x) : l[i]? = some x ∨ (i = l.length ∧ x = y) := by
  have hlen : i < (l ++ [y]).length := (List.getElem?_eq_some_iff.mp h).1
  rw [List.length_append, List.length_singleton] at hlen
  by_cases hlt : i < l.length
  · rw [List.getElem?_append_left hlt] at h
    exact .inl h
  · obtain rfl : i = l.length := by omega
    rw [List.getElem?_concat_length] at h
    exact .inr ⟨rfl, (Option.some_inj.mp h).symm⟩

variable {y : Plan × Visit}

theorem lasting_concat {i : ℕ} (h : Lasting r c (xs ++ [y]) i status) :
    (Lasting r c xs i status ∧ ¬ Restarted r y) ∨
      (i = xs.length ∧ Ended c status y.2) := by
  obtain ⟨⟨x, hi, he⟩, hl⟩ := h
  rcases getElem?_concat_cases hi with hi | ⟨rfl, rfl⟩
  · have hlt := (List.getElem?_eq_some_iff.mp hi).1
    refine .inl ⟨⟨⟨x, hi, he⟩, fun j z hij hz => hl j z hij ?_⟩,
      hl xs.length y hlt List.getElem?_concat_length⟩
    rwa [List.getElem?_append_left (List.getElem?_eq_some_iff.mp hz).1]
  · exact .inr ⟨rfl, he⟩

theorem onceInv_concat (h : OnceOnly r c xs)
    (hy : ∀ i status, Lasting r c xs i status → y.2.node ≠ c ∧ (y.2.node = r → y.2.result = .ok status))
    (hheld : ∀ i status, Lasting r c xs i status → ¬ Restarted r y → n.runOnceComplete = true ∧
      n.lastStatus = status)
    (hend : ∀ status, Ended c status y.2 → n.runOnceComplete = true ∧ n.lastStatus = status) :
    OnceInv r c (xs ++ [y]) n := by
  constructor
  · intro i k x y' status hik hi hk he hr
    rcases getElem?_concat_cases hk with hk | ⟨rfl, rfl⟩
    · have hlt := (List.getElem?_eq_some_iff.mp hk).1
      rw [List.getElem?_append_left (by omega)] at hi
      refine h i k x y' status hik hi hk he fun j z hij hjk hz => hr j z hij hjk ?_
      rwa [List.getElem?_append_left (by omega)]
    · rw [List.getElem?_append_left hik] at hi
      refine hy i status ⟨⟨x, hi, he⟩, fun j z hij hz => ?_⟩
      have hj := (List.getElem?_eq_some_iff.mp hz).1
      exact hr j z hij hj (by rwa [List.getElem?_append_left hj])
  · intro i status hl
    rcases lasting_concat hl with ⟨hlast, hy⟩ | ⟨-, he⟩
    · exact hheld i status hlast hy
    · exact hend status he

theorem onceInv_append (h : OnceInv r c xs n) (hc : y.2.node ≠ c)
    (hr : y.2.node = r → n.runOnceComplete = true → y.2.result = .ok n.lastStatus) :
    OnceInv r c (xs ++ [y]) n := by
  refine onceInv_concat h.only ?_ (fun i status hl _ => h.held i status hl)
    (fun _ he => absurd he.1 hc)
  intro i status hl
  obtain ⟨h₁, h₂⟩ := h.held i status hl
  exact ⟨hc, fun hn => h₂ ▸ hr hn h₁⟩

theorem onceInv_restarted (h : OnceOnly r c xs) (hc : y.2.node ≠ c) (hr : y.2.node ≠ r)
    (hy : Restarted r y) : OnceInv r c (xs ++ [y]) n :=
  onceInv_concat h (fun _ _ _ => ⟨hc, fun hn => absurd hn hr⟩) (fun _ _ _ hn => absurd hy hn)
    (fun _ he => absurd he.1 hc)

theorem onceInv_others {ys : List (Plan × Visit)} (h : OnceInv r c xs n)
    (hys : ∀ y ∈ ys, y.2.node ≠ c ∧ y.2.node ≠ r) : OnceInv r c (xs ++ ys) n := by
  induction ys generalizing xs with
  | nil => simpa using h
  | cons y ys ih =>
    have hy := hys y (by simp)
    have hfirst := onceInv_append h hy.1 fun hr => absurd hr hy.2
    have := ih hfirst fun y' hy' => hys y' (by simp [hy'])
    rwa [List.append_assoc, List.singleton_append] at this

theorem onceInv_child (h : OnceInv r c xs n) (hn : n.runOnceComplete = false)
    (hy : y.2.result = .ok status) (hcomplete : n'.runOnceComplete = decide (status ≠ .running))
    (hstatus : n'.lastStatus = status) : OnceInv r c (xs ++ [y]) n' := by
  have hnone : ∀ i s, ¬ Lasting r c xs i s := by
    intro i s hl
    have := (h.held i s hl).1
    rw [hn] at this
    cases this
  refine onceInv_concat h.only (fun i s hl => absurd hl (hnone i s))
    (fun i s hl _ => absurd hl (hnone i s)) fun s he => ?_
  obtain rfl : status = s := Except.ok.inj (hy.symm.trans he.2.1)
  rw [hcomplete, decide_eq_true he.2.2]
  exact ⟨rfl, hstatus⟩

end Once

variable {w w' : World σ}

section Visits
variable {P : Plan} {env : Env σ} {id levels : ℕ}

def AddsBelow (P : Plan) (id : ℕ) (past : List Visit) (w : World σ) : Prop :=
  ∃ added, w.visits = past ++ added ∧ ∀ v ∈ added, Below P id v.node ∧ v.node ≠ id

theorem steady_addsBelow (past : List Visit) : Steady env id (AddsBelow (σ := σ) P id past) :=
  ⟨fun _ _ h => h, fun _ _ h => h, fun _ _ _ h => h⟩

theorem resetNodeStateImpl_invalid (clear : Bool) {j : ℕ} (hj : ¬ nodeIdValid P j = true)
    (w : World σ) : (resetNodeStateImpl P env P.nodeCount j clear w).2 = w := by
  cases hcount : P.nodeCount with
  | zero => rfl
  | succ count =>
    rw [resetNodeStateImpl, if_neg hj]
    rfl

theorem reset_keeps_visits (ht : Topology P) (clear : Bool) (j : ℕ) (w : World σ) :
    (resetNodeStateImpl P env P.nodeCount j clear w).2.visits = w.visits := by
  by_cases hj : nodeIdValid P j = true
  · exact reset_visits env ht clear hj w
  · rw [resetNodeStateImpl_invalid clear hj]

theorem leaveNode_ok (h : leaveNode id (.ok status) w = (.ok status, w')) :
    w'.nodes = Function.update w.nodes id { w.nodes id with evaluated := true } ∧
      w'.visits = w.visits ++ [⟨id, .ok status, w'.nodes⟩] := by
  obtain ⟨-, rfl⟩ := Prod.mk.inj h
  exact ⟨rfl, rfl⟩

theorem tickNode_ok (hv : nodeIdValid P id = true)
    (h : tickNode P env (levels + 1) id w = (.ok status, w')) :
    ∃ u, tickNodeImpl P env (tickNode P env levels) id w = (.ok status, u) ∧
      leaveNode id (.ok status) u = (.ok status, w') := by
  rw [tickNode, if_pos hv] at h
  cases hr : tickNodeImpl P env (tickNode P env levels) id w with
  | mk result u =>
    have h : leaveNode id result u = (.ok status, w') := by
      rw [← h]
      show _ = (leaveNode id (tickNodeImpl P env (tickNode P env levels) id w).1
        (tickNodeImpl P env (tickNode P env levels) id w).2)
      rw [hr]
    cases result with
    | error f => exact absurd (congrArg Prod.fst h) (by simp [leaveNode, visit])
    | ok s =>
      obtain rfl : s = status := Except.ok.inj (congrArg Prod.fst h)
      exact ⟨u, rfl, h⟩

theorem tickNode_visits (h : ValidPlan P) (hv : nodeIdValid P id = true)
    (hlevels : P.maxDepth < levels + (P.node id).depth) (htyped : Typed P w.nodes)
    (hgood : Good P w.nodes id) (hr : tickNode P env levels id w = (.ok status, w')) :
    ∃ added, w'.visits = w.visits ++ added ++ [⟨id, .ok status, w'.nodes⟩] ∧
      ∀ v ∈ added, Below P id v.node ∧ v.node ≠ id := by
  induction levels generalizing id w w' status with
  | zero => cases congrArg Prod.fst hr
  | succ levels ih =>
    obtain ⟨u, himpl, hleave⟩ := tickNode_ok hv hr
    have hreset : ∀ clear j, Keeps (AddsBelow (σ := σ) P id w.visits)
        (resetNodeStateImpl P env P.nodeCount j clear) := by
      rintro clear j x ⟨added, hx, hb⟩
      exact ⟨added, (reset_keeps_visits h.top clear j x).trans hx, hb⟩
    have hadds : AddsBelow P id w.visits u := by
      refine tickNodeImpl_keeps (Q := fun _ => AddsBelow P id w.visits) h hv hlevels
        (steady_addsBelow _) (hreset false) (fun _ _ hx => hx) (steady_addsBelow _)
        (fun _ hx => hx) (fun _ j _ => hreset true j) (fun _ hx => hx) ?_ htyped hgood
        ⟨[], by simp, by simp⟩ himpl
      rintro c hc x hxt hxg ⟨added, hx, hb⟩ s x' hx'
      have hdepth := h.top.depth_child id c hc
      obtain ⟨more, hmore, hbelow⟩ := ih hc.1 (by omega) hxt hxg hx'
      refine ⟨added ++ more ++ [⟨c, .ok s, x'.nodes⟩], ?_, ?_⟩
      · rw [hmore, hx]
        simp only [List.append_assoc]
      · have hstrict : ∀ v : Visit, Below P c v.node → Below P id v.node ∧ v.node ≠ id := by
          intro v hv
          refine ⟨below_of_child hc hv, fun he => ?_⟩
          rw [he] at hv
          exact not_below_parent (is_forest h.top) hc hv
        intro v hv
        rcases List.mem_append.mp hv with hv | hv
        · rcases List.mem_append.mp hv with hv | hv
          · exact hb v hv
          · exact hstrict v (hbelow v hv).1
        · rw [List.mem_singleton.mp hv]
          exact hstrict _ (below_refl c)
    obtain ⟨added, hu, hb⟩ := hadds
    obtain ⟨-, hvisits⟩ := leaveNode_ok hleave
    exact ⟨added, by rw [hvisits, hu], hb⟩

end Visits

section Ticks
variable {P : Plan} {env : Env σ} {id levels r c : ℕ} {past : List (Plan × Visit)}

/-- The invariant within a program under the plan `P`. -/
def OnceAt (P : Plan) (r c : ℕ) (past : List (Plan × Visit)) (w : World σ) : Prop :=
  OnceInv r c (past ++ w.visits.map (fun v => (P, v))) (w.nodes r)

structure Restarting (P : Plan) (id r c : ℕ) (past : List (Plan × Visit)) (w : World σ) : Prop where
  only : OnceOnly r c (past ++ w.visits.map (fun v => (P, v)))
  kind : (P.node id).kind = .parallel
  branch : ∃ b, IsChild P id b ∧ Below P b r ∧ (w.nodes b).lastStatus ≠ .running

theorem onceAt_nodes (h : OnceAt P r c past w) (hv : w'.visits = w.visits)
    (hn : (w.nodes r).runOnceComplete = true → (w'.nodes r).runOnceComplete = true ∧
      (w'.nodes r).lastStatus = (w.nodes r).lastStatus) : OnceAt P r c past w' := by
  unfold OnceAt
  rw [hv]
  exact onceInv_congr h hn

theorem steady_onceAt (hid : id ≠ r) : Steady env id (OnceAt (σ := σ) P r c past) := by
  refine ⟨fun n w h => ?_, fun _ _ h => h, fun child x w h => ?_⟩
  · refine onceAt_nodes h rfl fun hc => ?_
    rw [set_nodes_ne w n (Ne.symm hid)]
    exact ⟨hc, rfl⟩
  · refine onceAt_nodes h rfl fun hc => ?_
    by_cases hr : r = child
    · subst hr
      rw [set_nodes_self]
      exact ⟨hc, rfl⟩
    · rw [set_nodes_ne w _ hr]
      exact ⟨hc, rfl⟩

theorem reset_onceAt (ht : Topology P) (hk : (P.node r).kind = .runOnce) (j : ℕ) :
    Keeps (OnceAt (σ := σ) P r c past) (resetNodeState P env j) := by
  intro w h
  by_cases hj : nodeIdValid P j = true
  · refine onceAt_nodes h (reset_keeps_visits ht false j w) fun hc => ?_
    rw [resetNodeState, reset_nodes env ht false hj]
    by_cases hb : Below P j r
    · simp only [resetNodes, if_pos hb]
      simp [resetOne, clearNode, hk, hc]
    · simp only [resetNodes, if_neg hb]
      exact ⟨hc, trivial⟩
  · rw [resetNodeState, resetNodeStateImpl_invalid false hj]
    exact h

theorem steady_restarting (ht : Topology P) : Steady env id (Restarting (σ := σ) P id r c past) := by
  refine ⟨?_, fun _ _ h => ⟨h.only, h.kind, h.branch⟩, ?_⟩
  · rintro n w ⟨ho, hk, b, hb, hr, hl⟩
    refine ⟨ho, hk, b, hb, hr, ?_⟩
    have hne : b ≠ id := by
      rintro rfl
      exact not_below_parent (is_forest ht) hb (below_refl b)
    rwa [set_nodes_ne w n hne]
  · rintro child x w ⟨ho, hk, b, hb, hr, hl⟩
    refine ⟨ho, hk, b, hb, hr, ?_⟩
    by_cases hbc : b = child
    · subst hbc
      rwa [set_nodes_self]
    · rwa [set_nodes_ne w _ hbc]

theorem steady_or {K L : World σ → Prop} (hK : Steady env id K) (hL : Steady env id L) :
    Steady env id (fun w => K w ∨ L w) :=
  ⟨fun n w h => h.imp (hK.own n w) (hL.own n w), fun q w h => h.imp (hK.ask q w) (hL.ask q w),
    fun child x w h => h.imp (hK.mark child x w) (hL.mark child x w)⟩

theorem restart_onceAt (ht : Topology P) (hk : (P.node id).kind = .parallel) {child : ℕ}
    (hchild : IsChild P id child) :
    Keeps (fun w : World σ => OnceAt P r c past w ∨ Restarting P id r c past w)
      (resetTreeState P env child) := by
  intro w h
  have hnodes : ∀ j, Below P child j →
      ((resetTreeState P env child w).2.nodes j).lastStatus = .failure := by
    intro j hj
    rw [resetTreeState, reset_nodes env ht true hchild.1]
    simp [resetNodes, if_pos hj, resetOne, clearNode]
  have hother : ∀ j, ¬ Below P child j → (resetTreeState P env child w).2.nodes j = w.nodes j := by
    intro j hj
    rw [resetTreeState, reset_nodes env ht true hchild.1]
    simp only [resetNodes, if_neg hj]
  have honly : OnceOnly r c (past ++ (resetTreeState P env child w).2.visits.map
      (fun v => (P, v))) := by
    rw [show (resetTreeState P env child w).2.visits = w.visits from
      reset_keeps_visits ht true child w]
    exact h.elim (fun h => h.only) (fun h => h.only)
  by_cases hb : Below P child r
  · right
    exact ⟨honly, hk, child, hchild, hb, by rw [hnodes child (below_refl child)]; decide⟩
  · rcases h with h | ⟨-, -, b, hbid, hbr, hl⟩
    · left
      refine onceAt_nodes h (reset_keeps_visits ht true child w) fun hc => ?_
      rw [hother r hb]
      exact ⟨hc, rfl⟩
    · right
      refine ⟨honly, hk, b, hbid, hbr, ?_⟩
      by_cases hcb : Below P child b
      · rw [hnodes b hcb]
        decide
      · rwa [hother b hcb]

theorem leave_other (hid : id ≠ r) (hc : id ≠ c) (ht : Topology P)
    (h : OnceAt P r c past w ∨ (status = .running ∧ Restarting P id r c past w))
    (hleave : leaveNode id (.ok status) w = (.ok status, w')) : OnceAt P r c past w' := by
  obtain ⟨hnodes, hvisits⟩ := leaveNode_ok hleave
  have hr : w'.nodes r = w.nodes r := by
    rw [hnodes, Function.update_of_ne (Ne.symm hid)]
  have hlist : past ++ w'.visits.map (fun v => (P, v)) =
      past ++ w.visits.map (fun v => (P, v)) ++ [(P, ⟨id, .ok status, w'.nodes⟩)] := by
    rw [hvisits, List.map_append, List.append_assoc]
    rfl
  unfold OnceAt at h ⊢
  rw [hlist, hr]
  rcases h with h | ⟨rfl, honly, hk, b, hb, hbr, hl⟩
  · exact onceInv_append h hc fun he => absurd he hid
  · refine onceInv_restarted honly hc hid ⟨hk, rfl, b, hb, hbr, ?_⟩
    have hne : b ≠ id := by
      rintro rfl
      exact not_below_parent (is_forest ht) hb (below_refl b)
    show (w'.nodes b).lastStatus ≠ .running
    rwa [hnodes, Function.update_of_ne hne]

theorem runOnce_resolver (hw : WellBuilt P) (hv : nodeIdValid P r = true)
    (hk : (P.node r).kind = .runOnce) : (P.node r).parameterResolver = none := by
  have hconfigured := hw.configured r hv
  apply hconfigured.mask_zero.mp
  have htargets := hconfigured.targets
  have hmask := hconfigured.mask_lt
  rw [hk] at htargets
  generalize (P.node r).dynamicParameterMask = mask at htargets hmask
  interval_cases mask <;> revert htargets <;> decide

/-- The program of the RunOnce node itself: it answers from its cache, or it ticks its child and
caches a terminal status. -/
theorem runOnce_program (hw : WellBuilt P) (hv : nodeIdValid P r = true)
    (hk : (P.node r).kind = .runOnce) {tick : ℕ → Run σ TickResult}
    (hchild : (if (w.nodes r).cursor ≠ 0 then (w.nodes r).cursor else (P.node r).firstChild) = c)
    (hr : tickNodeImpl P env tick r w = (.ok status, w')) :
    ((w.nodes r).runOnceComplete = true ∧ status = (w.nodes r).lastStatus ∧
        w' = w.set r { w.nodes r with evaluated := false }) ∨
      ((w.nodes r).runOnceComplete = false ∧ ∃ u,
        tick c (w.set r { w.nodes r with evaluated := false }) = (.ok status, u) ∧
        w' = u.set r { u.nodes r with
          lastStatus := status
          runOnceComplete := (u.nodes r).runOnceComplete || decide (status ≠ .running) }) := by
  have hkind : tickKind P env tick r = (do
      let n ← getNode r
      tickRunOnce tick r (if n.cursor ≠ 0 then n.cursor else (P.node r).firstChild)) := by
    unfold tickKind
    simp only [hk]
  have hprogram : tickNodeImpl P env tick r w =
      tickRunOnce tick r c (w.set r { w.nodes r with evaluated := false }) := by
    unfold tickNodeImpl resolveParameters
    rw [runOnce_resolver hw hv hk, hkind, ← hchild]
    show tickRunOnce tick r (if ((w.set r { w.nodes r with evaluated := false }).nodes r).cursor ≠ 0
      then ((w.set r { w.nodes r with evaluated := false }).nodes r).cursor
      else (P.node r).firstChild) _ = _
    rw [set_nodes_self]
    rfl
  rw [hprogram] at hr
  unfold tickRunOnce at hr
  have hr : (if (w.nodes r).runOnceComplete = true then pure (.ok (w.nodes r).lastStatus)
      else if c = 0 then pure guardFault
      else onOk (tick c) fun childStatus => do
        modifyNode r (fun n => { n with
          lastStatus := childStatus
          runOnceComplete := n.runOnceComplete || decide (childStatus ≠ .running) })
        pure (.ok childStatus) : Run σ TickResult)
      (w.set r { w.nodes r with evaluated := false }) = (.ok status, w') := by
    rw [← hr]
    show _ = (if ((w.set r { w.nodes r with evaluated := false }).nodes r).runOnceComplete = true
      then pure (.ok ((w.set r { w.nodes r with evaluated := false }).nodes r).lastStatus)
      else _ : Run σ TickResult) _
    rw [set_nodes_self]
  by_cases hdone : (w.nodes r).runOnceComplete = true
  · rw [if_pos hdone] at hr
    obtain ⟨hs, rfl⟩ := Prod.mk.inj hr
    exact .inl ⟨hdone, (Except.ok.inj hs).symm, rfl⟩
  · rw [if_neg hdone] at hr
    by_cases hzero : c = 0
    · rw [if_pos hzero] at hr
      cases congrArg Prod.fst hr
    · rw [if_neg hzero] at hr
      refine .inr ⟨by simpa using hdone, ?_⟩
      cases htick : tick c (w.set r { w.nodes r with evaluated := false }) with
      | mk result u =>
        cases result with
        | error f =>
          rw [onOk_error htick] at hr
          cases congrArg Prod.fst hr
        | ok s =>
          rw [onOk_ok htick] at hr
          obtain ⟨hs, rfl⟩ := Prod.mk.inj hr
          obtain rfl := Except.ok.inj hs
          exact ⟨u, rfl, rfl⟩

theorem runOnce_tick (h : ValidPlan P) (hw : WellBuilt P) (hv : nodeIdValid P r = true)
    (hk : (P.node r).kind = .runOnce) (hc : IsChild P r c)
    (hlevels : P.maxDepth < levels + 1 + (P.node r).depth) (htyped : Typed P w.nodes)
    (hgood : Good P w.nodes r) (hw' : OnceAt P r c past w)
    (hr : tickNode P env (levels + 1) r w = (.ok status, w')) : OnceAt P r c past w' := by
  have hne : r ≠ c := by
    rintro rfl
    exact not_below_parent (is_forest h.top) hc (below_refl r)
  have hdepth := h.top.depth_child r c hc
  have hcontext : TickContext P env (tickNode P env levels) r := by
    refine ⟨h.top, hv, h.arity r hv, h.callbacks r hv, ?_⟩
    intro d hd x hxt hxg
    have hdepth := h.top.depth_child r d hd
    exact tickNode_sound env h levels hd.1 (by omega) x hxt hxg
  have hsingle : nodeKindIsSingleChild (P.node r).kind = true := by
    rw [hk]
    rfl
  have hchild : (if (w.nodes r).cursor ≠ 0 then (w.nodes r).cursor else (P.node r).firstChild) =
      c := by
    have hcursor : OwnOk P r (busyNodes P w.nodes) (w.nodes r) := hgood r (below_refl r)
    rw [single_childId hcontext hsingle hcursor.cursor]
    exact ((single_child hcontext hsingle).2.2 c hc).symm
  obtain ⟨u, himpl, hleave⟩ := tickNode_ok hv hr
  obtain ⟨hnodes, hvisits⟩ := leaveNode_ok hleave
  have hlist : past ++ w'.visits.map (fun v => (P, v)) =
      past ++ u.visits.map (fun v => (P, v)) ++ [(P, ⟨r, .ok status, w'.nodes⟩)] := by
    rw [hvisits, List.map_append, List.append_assoc]
    rfl
  have hown : w'.nodes r = { u.nodes r with evaluated := true } := by
    rw [hnodes, Function.update_self]
  unfold OnceAt at hw' ⊢
  rw [hlist, hown]
  rcases runOnce_program hw hv hk hchild himpl with ⟨hdone, rfl, rfl⟩ | ⟨hdone, x, htick, rfl⟩
  · -- the answer from the cache
    have hkept : OnceInv r c (past ++ w.visits.map (fun v => (P, v)))
        { (w.set r { w.nodes r with evaluated := false }).nodes r with evaluated := true } := by
      refine onceInv_congr hw' fun hn => ?_
      rw [set_nodes_self]
      exact ⟨hn, rfl⟩
    refine onceInv_append hkept hne fun _ _ => ?_
    rw [set_nodes_self]
  · -- the child is ticked, and what it returns is cached
    have hstart : Typed P (w.set r { w.nodes r with evaluated := false }).nodes := by
      refine typed_set htyped fun _ => typed_tamer (htyped r hv) ⟨rfl, rfl, id, id, id⟩
    have hgoodc : Good P (w.set r { w.nodes r with evaluated := false }).nodes c :=
      good_child (good_evaluated h.top hgood false) hc
    obtain ⟨added, hadded, hbelow⟩ := tickNode_visits h hc.1 (by omega) hstart hgoodc htick
    have hpost := tickNode_sound env h levels hc.1 (by omega) _ hstart hgoodc
    rw [htick] at hpost
    have houtside : x.nodes r = { w.nodes r with evaluated := false } := by
      rw [(frame_steps h.top hpost.steps).outside r (not_below_parent (is_forest h.top) hc),
        set_nodes_self]
    have hfree : x.nodes r = { w.nodes r with evaluated := false } → (x.nodes r).runOnceComplete =
        false := fun he => by rw [he]; exact hdone
    have hsplit : past ++ x.visits.map (fun v => (P, v)) =
        past ++ w.visits.map (fun v => (P, v)) ++ added.map (fun v => (P, v)) ++
          [(P, ⟨c, .ok status, x.nodes⟩)] := by
      rw [hadded, List.map_append, List.map_append]
      simp only [List.append_assoc]
      rfl
    have hothers := onceInv_others hw' (show ∀ y ∈ added.map (fun v => (P, v)),
        y.2.node ≠ c ∧ y.2.node ≠ r by
      intro y hy
      obtain ⟨v, hv, rfl⟩ := List.mem_map.mp hy
      refine ⟨(hbelow v hv).2, fun he => ?_⟩
      exact not_below_parent (is_forest h.top) hc (he ▸ (hbelow v hv).1))
    have hchildren : OnceInv r c (past ++ x.visits.map (fun v => (P, v)))
        { (x.set r { x.nodes r with
            lastStatus := status
            runOnceComplete := (x.nodes r).runOnceComplete || decide (status ≠ .running) }).nodes r
          with evaluated := true } := by
      rw [hsplit]
      refine onceInv_child hothers hdone rfl ?_ ?_
      · rw [set_nodes_self, hfree houtside]
        simp
      · rw [set_nodes_self]
    refine onceInv_append hchildren hne fun _ _ => ?_
    rw [set_nodes_self]

theorem once_tick (h : ValidPlan P) (hw : WellBuilt P) (hv : nodeIdValid P id = true)
    (hvr : nodeIdValid P r = true) (hk : (P.node r).kind = .runOnce) (hc : IsChild P r c)
    (hid : id ≠ c) (hlevels : P.maxDepth < levels + (P.node id).depth) (htyped : Typed P w.nodes)
    (hgood : Good P w.nodes id) (hw' : OnceAt P r c past w)
    (hr : tickNode P env levels id w = (.ok status, w')) : OnceAt P r c past w' := by
  induction levels generalizing id w w' status with
  | zero => cases congrArg Prod.fst hr
  | succ levels ih =>
    by_cases hne : id = r
    · subst hne
      exact runOnce_tick h hw hv hk hc hlevels htyped hgood hw' hr
    · obtain ⟨u, himpl, hleave⟩ := tickNode_ok hv hr
      refine leave_other hne hid h.top ?_ hleave
      have hsteady : Steady env id (OnceAt (σ := σ) P r c past) := steady_onceAt hne
      refine tickNodeImpl_keeps (Q := fun s w => OnceAt P r c past w ∨
          (s = .running ∧ Restarting P id r c past w))
        (L := fun w => OnceAt P r c past w ∨ Restarting P id r c past w) h hv hlevels hsteady
        (reset_onceAt h.top hk) (fun _ _ hx => .inl hx)
        (steady_or hsteady (steady_restarting h.top)) (fun _ hx => .inl hx)
        (fun hp _ hd => restart_onceAt h.top hp hd)
        (fun _ hx => hx.elim .inl fun hx => .inr ⟨rfl, hx⟩) ?_ htyped hgood hw' himpl
      intro d hd x hxt hxg hx s x' hx'
      have hdepth := h.top.depth_child id d hd
      refine ih hd.1 ?_ (by omega) hxt hxg hx hx'
      rintro rfl
      exact hne (hd.2.2.symm.trans hc.2.2)

end Ticks

section Runs
variable {env : Env σ} {s : System σ} {t : Impl} {r c : ℕ}

/-- A run without an explicit reset, a cancellation, a tick that fails or a change of a resolver. -/
def Quiet (env : Env σ) : System σ → List Call → Prop
  | _, [] => True
  | s, call::calls => ¬ Stops env s call ∧
      (∀ id mask resolver user, call = .setNodeParametersResolver id mask resolver user →
        (exec env s call).2 = s) ∧
      Quiet env (exec env s call).2 calls

/-- The RunOnce node is there, and its cache agrees with the returns so far. -/
structure OnceReady (r c : ℕ) (xs : List (Plan × Visit)) (t : Impl) : Prop where
  valid : nodeIdValid t.plan r = true
  kind : (t.plan.node r).kind = .runOnce
  child : IsChild t.plan r c
  inv : OnceInv r c xs (t.nodes r)

theorem fault_not_ok {P : Plan} {e : Event} {code : Code} (h : faultOf P e = some code) :
    code ≠ .ok := by
  rintro rfl
  unfold faultOf at h
  split at h <;> (try split_ifs at h) <;> simp_all

theorem played_append (xs ys : List Record) : played (xs ++ ys) = played xs ++ played ys :=
  List.flatMap_append

variable {xs : List (Plan × Visit)}

theorem onceReady_added {t' : Impl} {p : ℕ} {plan : NodePlan} (ha : Added t t' p plan)
    (h : OnceReady r c xs t) : OnceReady r c xs t' := by
  refine ⟨(added_valid ha).mpr (.inr h.valid), ?_, (isChild_added ha).mpr (.inl h.child), ?_⟩
  · rw [added_old ha h.valid]
    exact h.kind
  · rw [added_nodes_old ha h.valid]
    exact h.inv

theorem onceReady_tick (hinv : ImplInv t) (hv : validateImpl t = .ok) (h : OnceReady r c xs t)
    (hr : tickNode t.plan env t.plan.maxDepth t.plan.root (s.start t) = (.ok status, w)) :
    OnceReady r c (xs ++ played [⟨t.plan, w.trace, w.visits⟩])
      { t with nodes := w.nodes, busy := false } := by
  obtain ⟨hplan, hroot⟩ := validate_plan hinv.built hv
  have hparent : (t.plan.node t.plan.root).parent = 0 := by
    rw [validateImpl, if_neg (by simp [hroot])] at hv
    by_contra hne
    rw [if_pos hne] at hv
    cases hv
  have hdepth := hplan.top.depth_root _ hroot hparent
  have hne : t.plan.root ≠ c := by
    intro he
    have := h.child.2.2
    rw [← he, hparent] at this
    exact h.child.2.1 this.symm
  have hstart : OnceAt t.plan r c xs (s.start t) := by
    unfold OnceAt System.start
    simpa using h.inv
  have hkept := once_tick hplan hinv.built hroot h.valid h.kind h.child hne (by omega) hinv.typed
    (fun j hj => hinv.good j (below_valid hroot hj)) hstart hr
  refine ⟨h.valid, h.kind, h.child, ?_⟩
  unfold OnceAt at hkept
  simpa [played] using hkept

theorem once_call (hinv : ImplInv t) (hs : s.impl = some t) {call : Call}
    (hstop : ¬ Stops env s call)
    (hresolver : ∀ id mask resolver user, call = .setNodeParametersResolver id mask resolver user
      → (exec env s call).2 = s)
    (h : OnceReady r c xs t) : ∃ records t', (exec env s call).2.history = s.history ++ records ∧
      (exec env s call).2.impl = some t' ∧ OnceReady r c (xs ++ played records) t' := by
  have hsame : (exec env s call).2 = s → ∃ records t',
      (exec env s call).2.history = s.history ++ records ∧
        (exec env s call).2.impl = some t' ∧ OnceReady r c (xs ++ played records) t' := by
    intro he
    rw [he]
    exact ⟨[], t, by simp, hs, by simpa [played] using h⟩
  have hadd : (exec env s call).2 =
      (treeAdd s (fun t => (call.add? t).getD (.error .einval))).2 → ∃ records t',
      (exec env s call).2.history = s.history ++ records ∧
        (exec env s call).2.impl = some t' ∧ OnceReady r c (xs ++ played records) t' := by
    intro he
    rcases add_cases hinv hs call with hu | ⟨t', p, plan, ha, hu⟩
    · exact hsame (he.trans hu)
    · rw [he, hu]
      exact ⟨[], t', by simp, rfl, by simpa [played] using onceReady_added ha h⟩
  cases call with
  | setNodeParametersResolver id mask resolver user => exact hsame (hresolver _ _ _ _ rfl)
  | tick out =>
    rcases treeTick_cases env hinv hs out with
      ⟨-, he⟩ | ⟨rfl, hv, he⟩ | ⟨rfl, hv, status, w, hr, he⟩ | ⟨rfl, hv, f, w, hr, he⟩
    · exact hsame (congrArg Prod.snd he)
    · refine absurd (.inr (.inr (.inr ⟨rfl, ?_⟩))) hstop
      show (treeTick env s true).1.code ≠ .ok
      rw [he]
      exact hv
    · have he' : (exec env s (.tick true)).2 = s.after t w := congrArg Prod.snd he
      rw [he']
      exact ⟨[⟨t.plan, w.trace, w.visits⟩], _, rfl, rfl, onceReady_tick hinv hv h hr⟩
    · refine absurd (.inr (.inr (.inr ⟨rfl, ?_⟩))) hstop
      show (treeTick env s true).1.code ≠ .ok
      have hpost := root_tick_sound env hinv hv s.env [] []
      rw [System.start] at hr
      rw [hr] at hpost
      obtain ⟨-, e, -, hfault⟩ := hpost.error f rfl
      rw [he]
      exact fault_not_ok hfault
  | reset => exact absurd (.inl rfl) hstop
  | cancel => exact absurd (.inr (.inl rfl)) hstop
  | destroy => exact absurd (.inr (.inr (.inl rfl))) hstop
  | validate => exact hsame rfl
  | _ => exact hadd rfl

theorem once_run (calls : List Call) : ∀ (s : System σ) (t : Impl) (xs : List (Plan × Visit)),
    ImplInv t → s.impl = some t → Quiet env s calls → OnceReady r c xs t →
    ∃ records, (runCalls env s calls).history = s.history ++ records ∧
      OnceOnly r c (xs ++ played records) := by
  induction calls with
  | nil =>
    intro s t xs _ _ _ h
    exact ⟨[], by simp [runCalls], by simpa [played] using h.inv.only⟩
  | cons call calls ih =>
    rintro s t xs hinv hs ⟨hstop, hresolver, hquiet⟩ h
    obtain ⟨records, t', hhistory, hs', h'⟩ := once_call hinv hs hstop hresolver h
    have hinv' : ImplInv t' := inv_effect hinv hs (exec_effect env hinv hs call) hs'
    obtain ⟨more, hmore, honly⟩ := ih _ t' _ hinv' hs' hquiet h'
    refine ⟨records ++ more, ?_, ?_⟩
    · rw [runCalls, hmore, hhistory, List.append_assoc]
    · rwa [played_append, ← List.append_assoc]

/-- In a quiet run a RunOnce node runs its child to one terminal status, unless a Parallel node
restarts it. -/
theorem once_until_restarted (hreach : Reachable env s) (hs : s.impl = some t)
    (hv : nodeIdValid t.plan r = true) (hk : (t.plan.node r).kind = .runOnce)
    (hc : IsChild t.plan r c) (calls : List Call) (hquiet : Quiet env s calls) :
    OnceOnly r c (played ((runCalls env s calls).history.drop s.history.length)) := by
  obtain ⟨records, hhistory, honly⟩ := once_run calls s t [] (inv_reachable hreach hs) hs hquiet
    ⟨hv, hk, hc, onceInv_nil r c _⟩
  rw [hhistory, List.drop_left]
  exact honly

/-- What a run returns, node by node. -/
def returned (env : Env σ) (s : System σ) (calls : List Call) : List (ℕ × TickResult) :=
  (played ((runCalls env s calls).history.drop s.history.length)).map
    fun x => (x.2.node, x.2.result)

def onceInSequence : System (List ℤ) :=
  runCalls scripted ⟨some (emptyImpl treeConfigInit), [0, 2, 2], []⟩
    [.addNode 0 .sequence false true, .addNode 1 .runOnce false true,
      .addLeaf 2 true true true true, .addLeaf 1 true true true true]

theorem quiet_two_ticks {env : Env σ} {s : System σ} (h₁ : (exec env s (.tick true)).1.code = .ok)
    (h₂ : (exec env (exec env s (.tick true)).2 (.tick true)).1.code = .ok) :
    Quiet env s [.tick true, .tick true] := by
  refine ⟨?_, fun _ _ _ _ he => absurd he (by simp), ?_, fun _ _ _ _ he => absurd he (by simp),
    trivial⟩
  · rintro (he | he | he | ⟨-, he⟩)
    · cases he
    · cases he
    · cases he
    · exact he h₁
  · rintro (he | he | he | ⟨-, he⟩)
    · cases he
    · cases he
    · cases he
    · exact he h₂

theorem once_until_restarted_sequence :
    OnceOnly 2 3 (played ((runCalls scripted onceInSequence [.tick true, .tick true]).history.drop
      onceInSequence.history.length)) := by
  obtain ⟨t, ht⟩ : ∃ t, onceInSequence.impl = some t :=
    Option.isSome_iff_exists.mp (by decide +kernel)
  have hplan : onceInSequence.impl.map (fun t => (nodeIdValid t.plan 2 && nodeIdValid t.plan 3,
      (t.plan.node 2).kind, (t.plan.node 3).parent)) = some (true, .runOnce, 2) := by
    decide +kernel
  rw [ht] at hplan
  simp only [Option.map_some, Option.some.injEq, Prod.mk.injEq, Bool.and_eq_true] at hplan
  obtain ⟨⟨hv, hv'⟩, hk, hp⟩ := hplan
  exact once_until_restarted ⟨treeConfigInit, [0, 2, 2], _, _, rfl, rfl⟩ ht hv hk
    ⟨hv', by decide, hp⟩ _ (quiet_two_ticks (by decide +kernel) (by decide +kernel))

def onceInParallel : System (List ℤ) :=
  runCalls scripted ⟨some (emptyImpl treeConfigInit), [0, 2, 1, 2], []⟩
    [.addNode 0 .parallel false true, .addNode 1 .runOnce false true,
      .addLeaf 2 true true true true, .addLeaf 1 true true true true]

/-- Node 3, the child of the RunOnce node 2, is ticked again after it has succeeded, and node 2 then
returns another status. -/
theorem once_restarted_parallel :
    Reachable scripted onceInParallel ∧
      onceInParallel.impl.map (fun t => ((t.plan.node 2).kind, (t.plan.node 3).parent)) =
        some (.runOnce, 2) ∧
      Quiet scripted onceInParallel [.tick true, .tick true] ∧
      returned scripted onceInParallel [.tick true, .tick true] =
        [(3, .ok .success), (2, .ok .success), (4, .ok .running), (1, .ok .running),
          (3, .ok .failure), (2, .ok .failure), (4, .ok .running), (1, .ok .running)] ∧
      ¬ ∀ (i k : ℕ) (x y : ℕ × TickResult) (status : NodeStatus), i < k →
        (returned scripted onceInParallel [.tick true, .tick true])[i]? = some x →
        (returned scripted onceInParallel [.tick true, .tick true])[k]? = some y →
        x = (3, .ok status) → status ≠ .running → y.1 ≠ 3 ∧ (y.1 = 2 → y.2 = .ok status) := by
  have hreturned : returned scripted onceInParallel [.tick true, .tick true] =
      [(3, .ok .success), (2, .ok .success), (4, .ok .running), (1, .ok .running),
        (3, .ok .failure), (2, .ok .failure), (4, .ok .running), (1, .ok .running)] := by
    decide +kernel
  refine ⟨⟨treeConfigInit, [0, 2, 1, 2], _, _, rfl, rfl⟩, by decide +kernel,
    quiet_two_ticks (by decide +kernel) (by decide +kernel), hreturned, fun hall => ?_⟩
  rw [hreturned] at hall
  exact (hall 0 4 _ _ .success (by decide) rfl rfl rfl (by decide)).1 rfl

end Runs

end SaltsUtils.BehaviorTree
