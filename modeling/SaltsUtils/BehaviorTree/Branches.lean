import SaltsUtils.BehaviorTree.Decorators

/-!
# Kinds with a cursor

The programs of Switch, the guarded kinds and the four composites meet the specification
of `tick_node`.
-/

set_option autoImplicit false

namespace SaltsUtils.BehaviorTree
open SaltsUtils.Forest

variable {σ : Type}

section Branches
variable {P : Plan} {env : Env σ} {tick : ℕ → Run σ TickResult} {w₀ : World σ} {id : ℕ}
  {B : Set ℕ} {n : NodeState}

def CursorKind (P : Plan) (id : ℕ) : Prop :=
  (P.node id).kind ∈ [NodeKind.precondition, .ifThenElse, .whileDo, .switch, .sequence, .fallback,
    .reactiveSequence, .reactiveFallback]

theorem activeChild_cursor (hk : CursorKind P id) (hc : n.cursor ≠ 0) :
    activeChild (P.node id) n = n.cursor := by
  simp only [CursorKind, List.mem_cons, List.not_mem_nil, or_false] at hk
  rcases hk with hk | hk | hk | hk | hk | hk | hk | hk <;> simp [activeChild, hk, hc]

theorem cursorKind_ne (hk : CursorKind P id) : (P.node id).kind ≠ .pipelineSequence ∧
    (P.node id).kind ≠ .runOnce ∧ (P.node id).kind ≠ .entryUpdated := by
  simp only [CursorKind, List.mem_cons, List.not_mem_nil, or_false] at hk
  rcases hk with hk | hk | hk | hk | hk | hk | hk | hk <;> rw [hk] <;> decide

theorem ownOk_branch (hk : CursorKind P id) (hcursor : n.cursor = 0 ∨ IsChild P id n.cursor)
    (hB : ∀ c, IsChild P id c → c ∈ B → c = activeChild (P.node id) n) : OwnOk P id B n := by
  obtain ⟨h₁, h₂, h₃⟩ := cursorKind_ne hk
  exact ⟨hcursor, fun _ => hB, fun hc => absurd hc (not_cached h₂ h₃), fun hp => absurd hp h₁⟩

theorem meets_suspend_at (h : TickContext P env tick id) (hk : CursorKind P id) {c : ℕ}
    (hc : IsChild P id c) (hB : ∀ d, IsChild P id d → d ∈ B → d = c) :
    Meets P env w₀ id B n (setCursor id c >>= fun _ => finishWith id .running) := by
  apply meets_setCursor h
  apply meets_finishWith h
  apply settled_running
  have hne : c ≠ 0 := (nodeIdValid_iff.mp hc.1).1
  apply ownOk_branch hk (Or.inr hc)
  intro d hd hdB
  rw [activeChild_cursor hk hne]
  exact hB d hd hdB

theorem meets_suspend_empty (h : TickContext P env tick id) (hk : CursorKind P id)
    (hcursor : n.cursor = 0 ∨ IsChild P id n.cursor)
    (hB : ∀ d, IsChild P id d → d ∉ B) : Meets P env w₀ id B n (finishWith id .running) := by
  apply meets_finishWith h
  apply settled_running
  exact ownOk_branch hk hcursor (fun d hd hdB => absurd hdB (hB d hd))

theorem child_ne_zero {c : ℕ} (hc : IsChild P id c) : c ≠ 0 := (nodeIdValid_iff.mp hc.1).1

section Switch

theorem activeChild_switch (hk : (P.node id).kind = .switch) :
    activeChild (P.node id) n = n.cursor := by
  simp only [activeChild, hk]

theorem meets_select (h : TickContext P env tick id) {selected : ℕ}
    (hcursor : n.cursor = 0 ∨ IsChild P id n.cursor)
    (hB : ∀ c, IsChild P id c → c ∈ B → c = n.cursor) {m : Run σ TickResult}
    (hm : ∀ B' n', (∀ c, IsChild P id c → c ∈ B' → c = selected) → Meets P env w₀ id B' n' m) :
    Meets P env w₀ id B n (displaceBranch P env id selected >>= fun _ => m) := by
  apply meets_displace h hcursor
  · intro _ _
    apply hm
    rintro c hc ⟨hcB, hne⟩
    exact absurd (hB c hc hcB) hne
  · intro hkeep
    apply hm
    intro c hc hcB
    have hcur := hB c hc hcB
    rcases hkeep with h0 | hsel
    · exact absurd (hcur.trans h0) (child_ne_zero hc)
    · exact hcur.trans hsel

theorem ticked_subset {c : ℕ} {status : NodeStatus} (hB : ∀ d, IsChild P id d → d ∈ B → d = c) :
    ∀ d, IsChild P id d → d ∈ ticked B c status → d = c := by
  rintro d hd (⟨he, -⟩ | ⟨-, hdB⟩)
  · exact he
  · exact hB d hd hdB

theorem meets_switch (h : TickContext P env tick id) (hk : (P.node id).kind = .switch)
    (hn : OwnOk P id B n) : Meets P env w₀ id B n (tickSwitch P env tick id) := by
  have hcursorKind : CursorKind P id := by simp [CursorKind, hk]
  have hselector : (P.node id).selector = true := by
    have hc := h.callbacks
    simp only [callbacksAccepted, hk, Bool.and_eq_true] at hc
    simpa using hc.1.1.1.1.1.1.1.1.1.1.1.1
  rw [tickSwitch, if_neg (by simp [hselector])]
  apply meets_callElse h (Or.inl rfl) rfl
  · exact fun _ _ => trivial
  · intro a ha
    simp [faultOf, ha]
  · intro a w _ hat _
    cases hsel : (children P id)[a.index]? with
    | none => exact meets_terminate h .failure w hat
    | some selected =>
      have hchild := isChild_of_getElem? h.top h.valid hsel
      refine meets_select h hn.cursor ?_ ?_ w hat
      · intro c hc hcB
        rw [← activeChild_switch hk]
        exact hn.active (by rw [hk]; decide) c hc hcB
      · intro B' n' hB'
        apply meets_onOk h hchild
        intro status
        by_cases hrun : status = .running
        · rw [if_pos hrun, hrun]
          exact meets_suspend_at h hcursorKind hchild (ticked_subset hB')
        · rw [if_neg hrun]
          exact meets_terminate h _

end Switch

section Guards

def GuardKind (P : Plan) (id : ℕ) : Prop :=
  (P.node id).kind ∈ [NodeKind.precondition, .ifThenElse, .whileDo]

theorem guardKind_cursorKind (hk : GuardKind P id) : CursorKind P id := by
  simp only [GuardKind, List.mem_cons, List.not_mem_nil, or_false] at hk
  rcases hk with hk | hk | hk <;> simp [CursorKind, hk]

theorem guardKind_not_parallel (hk : GuardKind P id) : (P.node id).kind ≠ .parallel := by
  simp only [GuardKind, List.mem_cons, List.not_mem_nil, or_false] at hk
  rcases hk with hk | hk | hk <;> rw [hk] <;> decide

theorem activeChild_guard (hk : GuardKind P id) : activeChild (P.node id) n =
    if n.cursor ≠ 0 then n.cursor else if (P.node id).condition then 0
      else (P.node id).firstChild := by
  simp only [GuardKind, List.mem_cons, List.not_mem_nil, or_false] at hk
  rcases hk with hk | hk | hk <;> simp [activeChild, hk]

theorem guard_children (h : TickContext P env tick id) (hk : GuardKind P id) :
    ((P.node id).condition = false → ∃ c₀ c₁ l, children P id = c₀::c₁::l) ∧
      ∃ c₀ l, children P id = c₀::l := by
  have ha := h.arity
  have hlen := childCount_eq h.top h.valid
  simp only [GuardKind, List.mem_cons, List.not_mem_nil, or_false] at hk
  have hcount : 1 ≤ (P.node id).childCount ∧
      ((P.node id).condition = false → 2 ≤ (P.node id).childCount) := by
    rcases hk with hk | hk | hk <;> simp only [arityAccepted, hk] at ha <;>
      cases hc : (P.node id).condition <;> simp [hc, nodeKindIsSingleChild] at ha <;>
      simp <;> omega
  rw [hlen] at hcount
  cases hl : children P id with
  | nil =>
    rw [hl] at hcount
    exact absurd hcount.1 (by simp)
  | cons c₀ l =>
    refine ⟨?_, c₀, l, rfl⟩
    intro hcond
    cases l with
    | nil =>
      rw [hl] at hcount
      exact absurd (hcount.2 hcond) (by simp)
    | cons c₁ l => exact ⟨c₀, c₁, l, rfl⟩

theorem isChild_of_mem (h : TickContext P env tick id) {c : ℕ} (hc : c ∈ children P id) :
    IsChild P id c := (mem_children h.top h.valid).mp hc

theorem meets_condition (h : TickContext P env tick id) {k : NodeStatus → Run σ TickResult}
    (hfirst : (P.node id).condition = false → IsChild P id (P.node id).firstChild)
    (hcall : (P.node id).condition = true → ∀ status, Meets P env w₀ id B n (k status))
    (htree : (P.node id).condition = false →
      ∀ status, Meets P env w₀ id (ticked B (P.node id).firstChild status) n (k status)) :
    Meets P env w₀ id B n (onOk (conditionStatus P env tick id) k) := by
  by_cases hcond : (P.node id).condition = true
  · intro w ha
    have hat := at_call h ha (q := .condition id) rfl trivial
    have hseen := seen_at_call h ha (.condition id)
    rw [conditionStatus, if_pos hcond]
    by_cases hcode : (w.answer env (.condition id)).code = .ok
    · cases hs : statusOf (w.answer env (.condition id)).status with
      | none =>
        rw [onOk_error (f := ⟨.einval, .callback⟩) (by rw [callElse_ok hcode, hs]; rfl)]
        exact post_error hat.steps ⟨rfl, _, hseen, by simp [faultOf, hcode, hs]⟩
      | some status =>
        rw [onOk_ok (by rw [callElse_ok hcode, hs]; rfl)]
        exact hcall hcond status _ hat
    · rw [onOk_error (callElse_fail hcode)]
      exact post_error hat.steps ⟨rfl, _, hseen, by simp [faultOf, hcode]⟩
  · rw [conditionStatus, if_neg hcond]
    have hcond : (P.node id).condition = false := by simpa using hcond
    exact meets_onOk h (hfirst hcond) (htree hcond)

theorem guard_active (hk : GuardKind P id) (hn : OwnOk P id B n) {status : NodeStatus}
    (hrun : status ≠ .running) :
    ((P.node id).condition = true → ∀ c, IsChild P id c → c ∈ B → c = n.cursor) ∧
      ((P.node id).condition = false → ∀ c, IsChild P id c →
        c ∈ ticked B (P.node id).firstChild status → c = n.cursor) := by
  have hpar := guardKind_not_parallel hk
  constructor
  · intro hcond c hc hcB
    have ha := hn.active hpar c hc hcB
    rw [activeChild_guard hk, if_pos hcond] at ha
    by_cases hcur : n.cursor = 0
    · rw [if_neg (not_not.mpr hcur)] at ha
      exact absurd ha (child_ne_zero hc)
    · rw [if_pos hcur] at ha
      exact ha
  · rintro hcond c hc (⟨-, hr⟩ | ⟨hne, hcB⟩)
    · exact absurd hr hrun
    · have ha := hn.active hpar c hc hcB
      rw [activeChild_guard hk] at ha
      by_cases hcur : n.cursor = 0
      · rw [if_neg (not_not.mpr hcur), if_neg (by simp [hcond])] at ha
        exact absurd ha hne
      · rw [if_pos hcur] at ha
        exact ha

section
variable (h : TickContext P env tick id)
include h

theorem meets_suspendBranch (hk : GuardKind P id) (hn : OwnOk P id B n) {B' : Set ℕ}
    (hB' : ∀ c, IsChild P id c → c ∈ B' → c ∈ B ∨
      ((P.node id).condition = false ∧ c = (P.node id).firstChild)) :
    Meets P env w₀ id B' n (suspendBranch P env id) := by
  have hcursorKind := guardKind_cursorKind hk
  have hpar := guardKind_not_parallel hk
  apply meets_displace h hn.cursor
  · intro hcur _
    apply meets_finishWith h
    apply settled_running
    apply ownOk_branch hcursorKind (Or.inl rfl)
    rintro c hc ⟨hmem, hne⟩
    rw [activeChild_guard hk, if_neg (by simp)]
    rcases hB' c hc hmem with hcB | ⟨hcond, hfirst⟩
    · have ha := hn.active hpar c hc hcB
      rw [activeChild_guard hk, if_pos hcur] at ha
      exact absurd ha hne
    · rw [if_neg (by simp [hcond])]
      exact hfirst
  · intro hcur
    have hcur : n.cursor = 0 := by rcases hcur with h0 | h0 <;> exact h0
    apply meets_finishWith h
    apply settled_running
    apply ownOk_branch hcursorKind (Or.inl (by exact hcur))
    intro c hc hmem
    rw [activeChild_guard hk, if_neg (not_not.mpr hcur)]
    rcases hB' c hc hmem with hcB | ⟨hcond, hfirst⟩
    · have ha := hn.active hpar c hc hcB
      rw [activeChild_guard hk, if_neg (not_not.mpr hcur)] at ha
      exact ha
    · rw [if_neg (by simp [hcond])]
      exact hfirst

theorem meets_tickBranch (hk : GuardKind P id) {selected : ℕ} (hsel : IsChild P id selected)
    (hcursor : n.cursor = 0 ∨ IsChild P id n.cursor)
    (hB : ∀ c, IsChild P id c → c ∈ B → c = n.cursor) :
    Meets P env w₀ id B n (tickBranch P env tick id selected) := by
  have hcursorKind := guardKind_cursorKind hk
  apply meets_select h hcursor hB
  intro B' n' hB'
  apply meets_onOk h hsel
  intro status
  apply meets_modify h ⟨rfl, rfl, rfl, rfl, rfl, fun _ => rfl⟩
  by_cases hrun : status = .running
  · rw [if_pos hrun, hrun]
    apply meets_setCursor h
    apply meets_done
    apply settled_running
    apply ownOk_branch hcursorKind (Or.inr hsel)
    intro c hc hmem
    rw [activeChild_cursor hcursorKind (child_ne_zero hsel)]
    exact ticked_subset hB' c hc hmem
  · rw [if_neg hrun]
    exact meets_terminate h _

theorem guard_first (hk : GuardKind P id) :
    IsChild P id (P.node id).firstChild ∧
    ((P.node id).condition = false → IsChild P id (P.node (P.node id).firstChild).nextSibling ∧
      (P.node (P.node id).firstChild).nextSibling ≠ (P.node id).firstChild) := by
  obtain ⟨htree, c₀, l, hl⟩ := guard_children h hk
  have hfirst : (P.node id).firstChild = c₀ := by
    rw [firstChild_eq h.top h.valid, hl]
    rfl
  rw [hfirst]
  refine ⟨isChild_of_mem h (by rw [hl]; exact List.mem_cons_self), ?_⟩
  intro hcond
  obtain ⟨d₀, d₁, l', hl'⟩ := htree hcond
  rw [hl] at hl'
  obtain ⟨rfl, rfl⟩ := List.cons.inj hl'
  have hnext : (P.node c₀).nextSibling = d₁ :=
    nextSibling_eq h.top h.valid (show children P id = [] ++ c₀::d₁::l' from hl)
  have hnodup := nodup_children h.top h.valid
  rw [hl, List.nodup_cons] at hnodup
  rw [hnext]
  refine ⟨isChild_of_mem h (by rw [hl]; simp), ?_⟩
  rintro rfl
  exact hnodup.1 List.mem_cons_self

theorem nextSibling_isChild {c : ℕ} (hc : IsChild P id c) :
    (P.node c).nextSibling = 0 ∨ IsChild P id (P.node c).nextSibling := by
  obtain ⟨l₁, l₂, hl⟩ := List.append_of_mem ((mem_children h.top h.valid).mpr hc)
  rw [nextSibling_eq h.top h.valid hl]
  cases l₂ with
  | nil => exact Or.inl rfl
  | cons d l => exact Or.inr (isChild_of_mem h (by rw [hl]; simp))

theorem meets_guarded (hkind : (P.node id).kind = .precondition ∨ (P.node id).kind = .ifThenElse)
    (hn : OwnOk P id B n) : Meets P env w₀ id B n (tickGuarded P env tick id) := by
  have hk : GuardKind P id := by rcases hkind with hk | hk <;> simp [GuardKind, hk]
  obtain ⟨hfirst, htree⟩ := guard_first h hk
  -- the node behind the condition, or the first child when the condition is a callback
  obtain ⟨thenNode, hthen⟩ : ∃ t, t = (if !(P.node id).condition
      then (P.node (P.node id).firstChild).nextSibling else (P.node id).firstChild) := ⟨_, rfl⟩
  have hthenChild : IsChild P id thenNode := by
    rw [hthen]
    cases hcond : (P.node id).condition with
    | true => exact hfirst
    | false => exact (htree hcond).1
  have hguard : ¬ (!(P.node id).condition && (!nodeIdValid P (P.node id).firstChild ||
      decide ((P.node (P.node id).firstChild).nextSibling = 0) ||
      !nodeIdValid P (P.node (P.node id).firstChild).nextSibling)) = true := by
    cases hcond : (P.node id).condition with
    | true => simp
    | false =>
      have hnext := (htree hcond).1
      simp [hfirst.1, hnext.1, child_ne_zero hnext]
  rw [tickGuarded, if_neg hguard]
  simp only [← hthen]
  have hrest : ∀ B' (condition : NodeStatus), condition ≠ .running →
      (∀ c, IsChild P id c → c ∈ B' → c = n.cursor) → Meets P env w₀ id B' n
        (if !!(P.node id).condition && decide ((P.node id).kind = .ifThenElse) &&
            !nodeIdValid P thenNode then pure guardFault
          else if (P.node id).kind = .ifThenElse then
            if (if condition = .success then thenNode else (P.node thenNode).nextSibling) = 0
              then terminate P env id .failure
            else tickBranch P env tick id
              (if condition = .success then thenNode else (P.node thenNode).nextSibling)
          else if condition = .failure then terminate P env id .failure
          else tickBranch P env tick id thenNode) := by
    intro B' condition hrun hB'
    rw [if_neg (by simp [hthenChild.1])]
    by_cases hite : (P.node id).kind = .ifThenElse
    · rw [if_pos hite]
      have hsel : (if condition = .success then thenNode else (P.node thenNode).nextSibling) = 0 ∨
          IsChild P id
            (if condition = .success then thenNode else (P.node thenNode).nextSibling) := by
        by_cases hs : condition = .success
        · rw [if_pos hs]
          exact Or.inr hthenChild
        · rw [if_neg hs]
          exact nextSibling_isChild h hthenChild
      by_cases hzero :
          (if condition = .success then thenNode else (P.node thenNode).nextSibling) = 0
      · rw [if_pos hzero]
        exact meets_terminate h _
      · rw [if_neg hzero]
        exact meets_tickBranch h hk (hsel.resolve_left hzero) hn.cursor hB'
    · rw [if_neg hite]
      by_cases hfail : condition = .failure
      · rw [if_pos hfail]
        exact meets_terminate h _
      · rw [if_neg hfail]
        exact meets_tickBranch h hk hthenChild hn.cursor hB'
  apply meets_condition h (fun _ => hfirst)
  · intro hcond status
    by_cases hrun : status = .running
    · rw [if_pos hrun]
      exact meets_suspendBranch h hk hn (fun c _ hcB => Or.inl hcB)
    · rw [if_neg hrun]
      exact hrest B status hrun ((guard_active hk hn hrun).1 hcond)
  · intro hcond status
    by_cases hrun : status = .running
    · rw [if_pos hrun]
      apply meets_suspendBranch h hk hn
      rintro c _ (⟨he, -⟩ | ⟨-, hcB⟩)
      · exact Or.inr ⟨hcond, he⟩
      · exact Or.inl hcB
    · rw [if_neg hrun]
      exact hrest _ status hrun ((guard_active hk hn hrun).2 hcond)

theorem while_children (hkind : (P.node id).kind = .whileDo) :
    ∀ c, IsChild P id c → c = (if !(P.node id).condition
        then (P.node (P.node id).firstChild).nextSibling else (P.node id).firstChild) ∨
      ((P.node id).condition = false ∧ c = (P.node id).firstChild) := by
  intro c hc
  have hmem := (mem_children h.top h.valid).mpr hc
  have hlen := childCount_eq h.top h.valid
  have hfirst := firstChild_eq h.top h.valid
  have ha := h.arity
  simp only [arityAccepted, hkind] at ha
  cases hcond : (P.node id).condition with
  | true =>
    have hone : (children P id).length = 1 := by
      simp [hcond, nodeKindIsSingleChild] at ha
      omega
    obtain ⟨d, hd⟩ := List.length_eq_one_iff.mp hone
    rw [hd] at hmem hfirst
    left
    exact (List.mem_singleton.mp hmem).trans hfirst.symm
  | false =>
    have htwo : (children P id).length = 2 := by
      simp [hcond, nodeKindIsSingleChild] at ha
      omega
    obtain ⟨d, e, hd⟩ := List.length_eq_two.mp htwo
    have hnext : (P.node d).nextSibling = e :=
      nextSibling_eq h.top h.valid (show children P id = [] ++ [d, e] from hd)
    rw [hd] at hmem hfirst
    have hfirst : (P.node id).firstChild = d := hfirst
    rw [hfirst]
    rcases List.mem_cons.mp hmem with he | he
    · exact Or.inr ⟨rfl, he⟩
    · left
      simp only [Bool.not_false, if_true]
      exact (List.mem_singleton.mp he).trans hnext.symm

theorem meets_whileDo (hkind : (P.node id).kind = .whileDo) (hn : OwnOk P id B n) :
    Meets P env w₀ id B n (tickWhileDo P env tick id) := by
  have hk : GuardKind P id := by simp [GuardKind, hkind]
  have hcursorKind := guardKind_cursorKind hk
  have hnotPipeline := (cursorKind_ne hcursorKind).1
  obtain ⟨hfirst, htree⟩ := guard_first h hk
  obtain ⟨body, hbody⟩ : ∃ t, t = (if !(P.node id).condition
      then (P.node (P.node id).firstChild).nextSibling else (P.node id).firstChild) := ⟨_, rfl⟩
  have hbodyChild : IsChild P id body := by
    rw [hbody]
    cases hcond : (P.node id).condition with
    | true => exact hfirst
    | false => exact (htree hcond).1
  have hguard : ¬ (!(P.node id).condition && (!nodeIdValid P (P.node id).firstChild ||
      decide ((P.node (P.node id).firstChild).nextSibling = 0))) = true := by
    cases hcond : (P.node id).condition with
    | true => simp
    | false => simp [hfirst.1, child_ne_zero (htree hcond).1]
  have harity : ∀ c, IsChild P id c → c = body ∨
      ((P.node id).condition = false ∧ c = (P.node id).firstChild) := by
    rw [hbody]
    exact while_children h hkind
  rw [tickWhileDo, if_neg hguard]
  simp only [← hbody]
  rw [if_neg (child_ne_zero hbodyChild)]
  apply meets_get
  by_cases hlimit : n.limit ≤ n.counter
  · rw [if_pos hlimit]
    exact meets_terminate h _
  rw [if_neg hlimit]
  have hrest : ∀ B', (∀ c, IsChild P id c → c ∈ B' → c = body) → Meets P env w₀ id B' n
      (onOk (tick body) fun childStatus =>
        if childStatus = .running then do
          setCursor id body
          finishWith id .running
        else do
          setCursor id 0
          if childStatus = .failure then terminate P env id .failure
          else do
            modifyNode id (fun n => { n with counter := n.counter+1 })
            resetNodeState P env body
            let n ← getNode id
            if n.limit ≤ n.counter then terminate P env id .success
            else finishWith id .running) := by
    intro B' hB'
    apply meets_onOk h hbodyChild
    intro status
    by_cases hrun : status = .running
    · rw [if_pos hrun]
      exact meets_suspend_at h hcursorKind hbodyChild (ticked_subset hB')
    · rw [if_neg hrun]
      apply meets_setCursor h
      by_cases hfail : status = .failure
      · rw [if_pos hfail]
        exact meets_terminate h _
      · rw [if_neg hfail]
        apply meets_modify h ⟨rfl, rfl, rfl, rfl, rfl, fun hp => absurd hp hnotPipeline⟩
        apply meets_reset_child h hbodyChild
        apply meets_get
        by_cases hdone : n.limit ≤ n.counter+1
        · rw [if_pos hdone]
          exact meets_terminate h _
        · rw [if_neg hdone]
          apply meets_suspend_empty h hcursorKind (Or.inl rfl)
          rintro d hd ⟨hmem, hne⟩
          exact hne (ticked_subset hB' d hd hmem)
  apply meets_condition h (fun _ => hfirst)
  · intro hcond status
    cases status with
    | running => exact meets_suspendBranch h hk hn (fun c _ hcB => Or.inl hcB)
    | failure => exact meets_terminate h _
    | success =>
      apply hrest
      intro c hc _
      rcases harity c hc with he | ⟨hf, -⟩
      · exact he
      · rw [hcond] at hf
        exact absurd hf (by decide)
  · intro hcond status
    cases status with
    | running =>
      apply meets_suspendBranch h hk hn
      rintro c _ (⟨he, -⟩ | ⟨-, hcB⟩)
      · exact Or.inr ⟨hcond, he⟩
      · exact Or.inl hcB
    | failure => exact meets_terminate h _
    | success =>
      apply hrest
      rintro c hc (⟨-, hr⟩ | ⟨hne, -⟩)
      · exact absurd hr (by decide)
      · rcases harity c hc with he | ⟨-, hf⟩
        · exact he
        · exact absurd hf hne

end

end Guards

section Composites

section
variable (h : TickContext P env tick id)
include h

theorem first_ne_zero
    (hk : (P.node id).kind ∈ [NodeKind.parallel, .reactiveSequence, .reactiveFallback, .switch]) :
    (P.node id).firstChild ≠ 0 := by
  have ha := h.arity
  have hlen := childCount_eq h.top h.valid
  rw [firstChild_eq h.top h.valid]
  cases hl : children P id with
  | nil =>
    rw [hl] at hlen
    simp only [arityAccepted, hk, hlen, Bool.and_eq_true] at ha
    simp at ha
  | cons c l =>
    have hc : IsChild P id c := isChild_of_mem h (by rw [hl]; exact List.mem_cons_self)
    exact child_ne_zero hc

theorem meets_memoryLoop (hk : CursorKind P id)
    (early exhausted : NodeStatus) (l : List ℕ) (hl : ∀ c ∈ l, IsChild P id c)
    (hB : ∀ c, IsChild P id c → c ∈ B → l.head? = some c) :
    Meets P env w₀ id B n (memoryLoop P env tick id early exhausted l) := by
  induction l generalizing B n with
  | nil => exact meets_terminate h _
  | cons c l ih =>
    have hc := hl c List.mem_cons_self
    have hBc : ∀ d, IsChild P id d → d ∈ B → d = c := by
      intro d hd hdB
      exact (Option.some.inj (hB d hd hdB)).symm
    rw [memoryLoop, if_neg (by simp [hc.1])]
    apply meets_onOk h hc
    intro status
    by_cases hearly : status = early
    · rw [if_pos hearly]
      exact meets_terminate h _
    · rw [if_neg hearly]
      by_cases hrun : status = .running
      · rw [if_pos hrun]
        exact meets_suspend_at h hk hc (ticked_subset hBc)
      · rw [if_neg hrun]
        apply meets_setCursor h
        apply ih (fun d hd => hl d (List.mem_cons_of_mem c hd))
        rintro d hd (⟨-, hr⟩ | ⟨hne, hdB⟩)
        · exact absurd hr hrun
        · exact absurd (hBc d hd hdB) hne

theorem siblings_from_cursor (hcursor : n.cursor = 0 ∨ IsChild P id n.cursor) :
    ∃ l, siblingsFrom P P.nodeCount (if n.cursor ≠ 0 then n.cursor else (P.node id).firstChild) = l
    ∧ (∀ c ∈ l, IsChild P id c) ∧ (n.cursor ≠ 0 → l.head? = some n.cursor) := by
  refine ⟨_, rfl, ?_⟩
  by_cases hcur : n.cursor = 0
  · rw [if_neg (not_not.mpr hcur)]
    exact ⟨fun c hc => isChild_of_mem h hc, fun hne => absurd hcur hne⟩
  · rw [if_pos hcur]
    have hc := hcursor.resolve_left hcur
    obtain ⟨l₁, l₂, hl⟩ := List.append_of_mem ((mem_children h.top h.valid).mpr hc)
    rw [siblingsFrom_suffix h.top h.valid hl]
    refine ⟨?_, fun _ => rfl⟩
    intro d hd
    apply isChild_of_mem h
    rw [hl]
    exact List.mem_append_right l₁ hd

theorem meets_memory (hkind : (P.node id).kind = .sequence ∨ (P.node id).kind = .fallback)
    (early exhausted : NodeStatus) (hn : OwnOk P id B n) :
    Meets P env w₀ id B n
    (memoryLoop P env tick id early exhausted
      (siblingsFrom P P.nodeCount (if n.cursor ≠ 0 then n.cursor else (P.node id).firstChild)))
    := by
  have hk : CursorKind P id := by rcases hkind with hk | hk <;> simp [CursorKind, hk]
  obtain ⟨l, hl, hchild, hhead⟩ := siblings_from_cursor h hn.cursor
  rw [hl]
  apply meets_memoryLoop h hk early exhausted l hchild
  intro c hc hcB
  have ha := hn.active (by rcases hkind with hk | hk <;> rw [hk] <;> decide) c hc hcB
  have hcur : activeChild (P.node id) n = n.cursor := by
    rcases hkind with hk | hk <;> simp only [activeChild, hk]
  rw [hcur] at ha
  rw [hhead (ha ▸ child_ne_zero hc), ha]

theorem meets_resetAll (l : List ℕ) (hl : ∀ c ∈ l, IsChild P id c) {m : Run σ TickResult}
    (hm : Meets P env w₀ id (B \ {c | c ∈ l}) n m) :
    Meets P env w₀ id B n (resetAll P env l >>= fun _ => m) := by
  induction l generalizing B with
  | nil =>
    apply meets_mono _ hm
    exact fun c _ hcB => ⟨hcB, by simp⟩
  | cons c l ih =>
    have hrun : (resetAll P env (c::l) >>= fun _ => m) =
        (resetNodeState P env c >>= fun _ => resetAll P env l >>= fun _ => m) := rfl
    rw [hrun]
    apply meets_reset_child h (hl c List.mem_cons_self)
    apply ih (fun d hd => hl d (List.mem_cons_of_mem c hd))
    apply meets_mono _ hm
    rintro d _ ⟨⟨hdB, hne⟩, hdl⟩
    refine ⟨hdB, ?_⟩
    intro hmem
    rcases List.mem_cons.mp hmem with he | he
    · exact hne he
    · exact hdl he

theorem meets_reactiveLoop (hk : CursorKind P id)
    (early exhausted : NodeStatus) (l : List ℕ) (hl : ∀ c ∈ l, IsChild P id c)
    (hB : ∀ c, IsChild P id c → c ∈ B → c ∈ l) :
    Meets P env w₀ id B n (reactiveLoop P env tick id early exhausted l) := by
  induction l generalizing B with
  | nil => exact meets_terminate h _
  | cons c l ih =>
    have hc := hl c List.mem_cons_self
    have hl' : ∀ d ∈ l, IsChild P id d := fun d hd => hl d (List.mem_cons_of_mem c hd)
    rw [reactiveLoop, if_neg (by simp [hc.1])]
    apply meets_onOk h hc
    intro status
    by_cases hearly : status = early
    · rw [if_pos hearly]
      exact meets_terminate h _
    · rw [if_neg hearly]
      by_cases hrun : status = .running
      · rw [if_pos hrun]
        apply meets_resetAll h l hl'
        apply meets_suspend_at h hk hc
        rintro d hd ⟨hmem, hdl⟩
        rcases hmem with ⟨he, -⟩ | ⟨hne, hdB⟩
        · exact he
        · rcases List.mem_cons.mp (hB d hd hdB) with he | he
          · exact he
          · exact absurd he hdl
      · rw [if_neg hrun]
        apply ih hl'
        rintro d hd (⟨-, hr⟩ | ⟨hne, hdB⟩)
        · exact absurd hr hrun
        · exact (List.mem_cons.mp (hB d hd hdB)).resolve_left hne

theorem meets_reactive
    (hkind : (P.node id).kind = .reactiveSequence ∨ (P.node id).kind = .reactiveFallback)
    (early exhausted : NodeStatus) :
    Meets P env w₀ id B n
    (if (P.node id).firstChild = 0 then pure guardFault else reactiveLoop P env tick id early
      exhausted (children P id)) := by
  have hk : CursorKind P id := by rcases hkind with hk | hk <;> simp [CursorKind, hk]
  have hne : (P.node id).firstChild ≠ 0 := by
    apply first_ne_zero h
    rcases hkind with hk | hk <;> simp [hk]
  rw [if_neg hne]
  exact meets_reactiveLoop h hk early exhausted _ (fun c hc => isChild_of_mem h hc)
    (fun c hc _ => (mem_children h.top h.valid).mpr hc)

end

end Composites

end Branches

end SaltsUtils.BehaviorTree
