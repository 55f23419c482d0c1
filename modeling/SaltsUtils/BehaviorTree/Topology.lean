import SaltsUtils.Library.Forest
import SaltsUtils.BehaviorTree.Api

/-!
# The shape of a built plan

Every constructor links the new node behind the last child of its parent.
-/

set_option autoImplicit false

namespace SaltsUtils.BehaviorTree
open SaltsUtils.Forest

theorem nodeIdValid_iff {P : Plan} {id : ℕ} :
    nodeIdValid P id = true ↔ id ≠ 0 ∧ id ≤ P.nodeCount := by
  simp [nodeIdValid]

/-- `c` is a node whose parent is the node `i`. -/
def IsChild (P : Plan) (i c : ℕ) : Prop :=
  nodeIdValid P c = true ∧ i ≠ 0 ∧ (P.node c).parent = i

abbrev Below (P : Plan) : ℕ → ℕ → Prop := Forest.Below (IsChild P)

/-- The nodes with parent `i` in creation order. -/
def childrenOf (P : Plan) (i : ℕ) : List ℕ :=
  (List.range' 1 P.nodeCount).filter (fun c => (P.node c).parent = i)

structure Topology (P : Plan) : Prop where
  count_le : P.nodeCount ≤ P.maxNodes
  root_eq : P.root = min P.nodeCount 1
  parent_lt : ∀ i, nodeIdValid P i = true → (P.node i).parent < i
  parent_zero : ∀ i, nodeIdValid P i = true → (P.node i).parent = 0 → i = P.root
  linked : ∀ i, nodeIdValid P i = true →
    Linked (fun c => (P.node c).nextSibling) (P.node i).firstChild (childrenOf P i)
  last : ∀ i, nodeIdValid P i = true →
    (P.node i).lastChild = (childrenOf P i).getLast?.getD 0
  child_count : ∀ i, nodeIdValid P i = true → (P.node i).childCount = (childrenOf P i).length
  accepts : ∀ i c, IsChild P i c → nodeKindAcceptsChildren (P.node i).kind = true
  depth_root : ∀ i, nodeIdValid P i = true → (P.node i).parent = 0 → (P.node i).depth = 1
  depth_child : ∀ i c, IsChild P i c → (P.node c).depth = (P.node i).depth+1
  depth_le : ∀ i, nodeIdValid P i = true → (P.node i).depth ≤ P.maxDepth

variable {i : ℕ}

section Reading

variable {P : Plan}

variable {c : ℕ}

theorem mem_childrenOf : c ∈ childrenOf P i ↔ nodeIdValid P c = true ∧ (P.node c).parent = i := by
  simp only [childrenOf, List.mem_filter, List.mem_range'_1, nodeIdValid_iff, decide_eq_true_eq]
  constructor
  · intro h
    exact ⟨⟨by omega, by omega⟩, h.2⟩
  · intro h
    exact ⟨⟨by omega, by omega⟩, h.2⟩

theorem nodup_childrenOf (i : ℕ) : (childrenOf P i).Nodup :=
  List.Nodup.filter _ List.nodup_range'

theorem length_childrenOf_le (i : ℕ) : (childrenOf P i).length ≤ P.nodeCount := by
  have h := List.length_filter_le (fun c => decide ((P.node c).parent = i))
    (List.range' 1 P.nodeCount)
  simpa [childrenOf] using h

theorem siblingsFrom_eq {start : ℕ} {l : List ℕ}
    (h : Linked (fun c => (P.node c).nextSibling) start l)
    (hv : ∀ c ∈ l, nodeIdValid P c = true) (fuel : ℕ) (hf : l.length ≤ fuel) :
    siblingsFrom P fuel start = l := by
  induction fuel generalizing start l with
  | zero =>
    have hl : l = [] := List.length_eq_zero_iff.mp (Nat.le_zero.mp hf)
    rw [hl, siblingsFrom]
  | succ fuel ih =>
    cases l with
    | nil =>
      have hs : start = 0 := h
      rw [siblingsFrom, if_pos hs]
    | cons c l =>
      obtain ⟨hs, hc, hl⟩ := h
      have hv' : ∀ d ∈ l, nodeIdValid P d = true := fun d hd => hv d (List.mem_cons_of_mem c hd)
      have hlen : l.length ≤ fuel := by simpa using hf
      rw [hs, siblingsFrom, if_neg hc, if_pos (hv c List.mem_cons_self), ih hl hv' hlen]

section
variable (h : Topology P) (hi : nodeIdValid P i = true)
include h hi

theorem children_eq : children P i = childrenOf P i :=
  siblingsFrom_eq (h.linked i hi) (fun _ hc => (mem_childrenOf.mp hc).1) _
    (length_childrenOf_le i)

theorem mem_children : c ∈ children P i ↔ IsChild P i c := by
  rw [children_eq h hi, mem_childrenOf, IsChild]
  have h0 : i ≠ 0 := (nodeIdValid_iff.mp hi).1
  tauto

theorem nodup_children : (children P i).Nodup := by
  rw [children_eq h hi]
  exact nodup_childrenOf i

theorem firstChild_eq : (P.node i).firstChild = (children P i).headD 0 := by
  have hl := h.linked i hi
  rw [children_eq h hi]
  cases hc : childrenOf P i with
  | nil =>
    rw [hc] at hl
    exact hl
  | cons c l =>
    rw [hc] at hl
    exact hl.1

theorem childCount_eq : (P.node i).childCount = (children P i).length := by
  rw [h.child_count i hi, children_eq h hi]

end

variable {l₁ l₂ : List ℕ}

theorem linked_suffix {next : ℕ → ℕ} {start : ℕ} (h : Linked next start (l₁ ++ c::l₂)) :
    Linked next (next c) l₂ := by
  induction l₁ generalizing start with
  | nil => exact h.2.2
  | cons d l₁ ih => exact ih h.2.2

theorem nextSibling_eq (h : Topology P) (hi : nodeIdValid P i = true)
    (hc : children P i = l₁ ++ c::l₂) : (P.node c).nextSibling = l₂.headD 0 := by
  have hl := h.linked i hi
  rw [← children_eq h hi, hc] at hl
  have hs := linked_suffix hl
  cases l₂ with
  | nil => exact hs
  | cons d l => exact hs.1

theorem siblingsFrom_suffix (h : Topology P) (hi : nodeIdValid P i = true)
    (hc : children P i = l₁ ++ c::l₂) : siblingsFrom P P.nodeCount c = c::l₂ := by
  have hl := h.linked i hi
  rw [← children_eq h hi, hc] at hl
  have hmem : ∀ d ∈ c::l₂, nodeIdValid P d = true := by
    intro d hd
    have hd' : d ∈ children P i := by rw [hc]; exact List.mem_append_right l₁ hd
    exact ((mem_children h hi).mp hd').1
  have hlen : (c::l₂).length ≤ P.nodeCount := by
    have := length_childrenOf_le (P := P) i
    rw [← children_eq h hi, hc, List.length_append] at this
    omega
  have hc0 : c ≠ 0 := (nodeIdValid_iff.mp (hmem c List.mem_cons_self)).1
  have hlinked : Linked (fun d => (P.node d).nextSibling) c (c::l₂) := ⟨rfl, hc0, linked_suffix hl⟩
  exact siblingsFrom_eq hlinked hmem _ hlen

theorem parent_valid (h : Topology P) (hc : IsChild P i c) : nodeIdValid P i = true := by
  have hlt := h.parent_lt c hc.1
  have hle := (nodeIdValid_iff.mp hc.1).2
  rw [hc.2.2] at hlt
  exact nodeIdValid_iff.mpr ⟨hc.2.1, by omega⟩

theorem child_lt (h : Topology P) (hc : IsChild P i c) : i < c :=
  hc.2.2 ▸ h.parent_lt c hc.1

theorem is_forest (h : Topology P) : IsForest (IsChild P) :=
  forest_of_lt (fun ha hb => ha.2.2.symm.trans hb.2.2) (fun ha => child_lt h ha)

theorem below_valid {j : ℕ} (hi : nodeIdValid P i = true) (hj : Below P i j) :
    nodeIdValid P j = true := by
  rcases Relation.ReflTransGen.cases_tail hj with h | ⟨_, _, h⟩
  · exact h ▸ hi
  · exact h.1

theorem root_valid_iff (h : Topology P) : nodeIdValid P P.root = true ↔ P.nodeCount ≠ 0 := by
  rw [nodeIdValid_iff, h.root_eq]
  omega

theorem below_root (h : Topology P) (hi : nodeIdValid P i = true) : Below P P.root i := by
  induction i using Nat.strong_induction_on with
  | h i ih =>
    by_cases hp : (P.node i).parent = 0
    · rw [h.parent_zero i hi hp]
      exact below_refl _
    · have hlt := h.parent_lt i hi
      have hchild : IsChild P (P.node i).parent i := ⟨hi, hp, rfl⟩
      exact below_trans (ih _ hlt (parent_valid h hchild)) (below_child hchild)

theorem leaf_no_children (h : Topology P) (hi : nodeIdValid P i = true)
    (hk : (P.node i).kind = .leaf) : children P i = [] := by
  rw [List.eq_nil_iff_forall_not_mem]
  intro c hc
  have ha := h.accepts i c ((mem_children h hi).mp hc)
  rw [hk] at ha
  simp [nodeKindAcceptsChildren] at ha

end Reading

section Building

variable {P P' : Plan}

theorem topology_empty (config : TreeConfig) : Topology (emptyImpl config).plan := by
  have hinvalid : ∀ i, nodeIdValid (emptyImpl config).plan i = true → False := by
    intro i hi
    obtain ⟨h0, hle⟩ := nodeIdValid_iff.mp hi
    have hle : i ≤ 0 := hle
    omega
  constructor
  case count_le => exact Nat.zero_le _
  case root_eq => rfl
  case accepts => exact fun i c h => (hinvalid c h.1).elim
  case depth_child => exact fun i c h => (hinvalid c h.1).elim
  all_goals exact fun i hi => (hinvalid i hi).elim

/-- What linking the node `plan` under the existing node `p` does to a plan. -/
structure Attached (P P' : Plan) (p : ℕ) (plan : NodePlan) : Prop where
  count : P'.nodeCount = P.nodeCount+1
  max_nodes : P'.maxNodes = P.maxNodes
  max_depth : P'.maxDepth = P.maxDepth
  max_control : P'.maxControlIterations = P.maxControlIterations
  root : P'.root = P.root
  new : P'.node (P.nodeCount+1) = plan
  old : ∀ j, j ≤ P.nodeCount → P'.node j = { P.node j with
    firstChild := if j = p ∧ (P.node p).firstChild = 0 then P.nodeCount+1
      else (P.node j).firstChild
    lastChild := if j = p then P.nodeCount+1 else (P.node j).lastChild
    nextSibling := if (P.node p).firstChild ≠ 0 ∧ j = (P.node p).lastChild then P.nodeCount+1
      else (P.node j).nextSibling
    childCount := if j = p then (P.node j).childCount+1 else (P.node j).childCount }

variable {p : ℕ}

theorem lastChild_isChild (h : Topology P) (hp : nodeIdValid P p = true)
    (hf : (P.node p).firstChild ≠ 0) : (childrenOf P p).getLast? = some (P.node p).lastChild := by
  have hne : childrenOf P p ≠ [] := by
    intro he
    exact hf ((linked_start_eq_zero (h.linked p hp)).mpr he)
  obtain ⟨l, hl⟩ := Option.ne_none_iff_exists'.mp (mt List.getLast?_eq_none_iff.mp hne)
  rw [h.last p hp, hl]
  rfl

theorem linkNode_attached (h : Topology P) (plan : NodePlan) (hp : nodeIdValid P p = true) :
    ∃ P', linkNode P p plan = some P' ∧ Attached P P' p plan := by
  obtain ⟨hp0, hple⟩ := nodeIdValid_iff.mp hp
  have hpne : p ≠ P.nodeCount+1 := by omega
  have hnode : Function.update P.node (P.nodeCount+1) plan p = P.node p :=
    Function.update_of_ne hpne _ _
  by_cases hf : (P.node p).firstChild = 0
  · refine ⟨_, by simp only [linkNode, if_neg hp0, hnode, if_pos hf]; rfl, ?_⟩
    constructor
    case new => simp [Plan.modify, Function.update_of_ne hpne.symm]
    case old =>
      intro j hj
      have hjne : j ≠ P.nodeCount+1 := by omega
      by_cases hjp : j = p
      · subst hjp
        simp [Plan.modify, Function.update_of_ne hpne, hf]
      · simp [Plan.modify, Function.update_of_ne hjne, hjp, hf]
    all_goals rfl
  · have hlast := lastChild_isChild h hp hf
    obtain ⟨hlv, hlp⟩ := mem_childrenOf.mp (List.mem_of_getLast? hlast)
    obtain ⟨hl0, hlle⟩ := nodeIdValid_iff.mp hlv
    have hlne : (P.node p).lastChild ≠ P.nodeCount+1 := by omega
    have hlp' : (P.node p).lastChild ≠ p := by
      have hlt := h.parent_lt _ hlv
      omega
    have hvalid : ∀ Q : Plan, Q.nodeCount = P.nodeCount+1 →
        nodeIdValid Q (P.node p).lastChild = true :=
      fun Q hQ => nodeIdValid_iff.mpr ⟨hl0, by omega⟩
    refine ⟨_, by simp only [linkNode, if_neg hp0, hnode, if_neg hf]; exact if_pos (hvalid _ rfl),
      ?_⟩
    constructor
    case new =>
      simp [Plan.modify, Function.update_of_ne hpne.symm, Function.update_of_ne hlne.symm]
    case old =>
      intro j hj
      have hjne : j ≠ P.nodeCount+1 := by omega
      by_cases hjp : j = p
      · subst hjp
        simp [Plan.modify, Function.update_of_ne hpne, hlp'.symm, hf]
      · by_cases hjl : j = (P.node p).lastChild
        · subst hjl
          simp [Plan.modify, Function.update_of_ne hlne, hjp, hf]
        · simp [Plan.modify, Function.update_of_ne hjne, hjp, hjl]
    all_goals rfl

variable {plan : NodePlan}

theorem attached_valid (ha : Attached P P' p plan) (hi : nodeIdValid P' i = true) :
    i = P.nodeCount+1 ∨ nodeIdValid P i = true := by
  obtain ⟨h0, hle⟩ := nodeIdValid_iff.mp hi
  rw [ha.count] at hle
  by_cases he : i = P.nodeCount+1
  · exact Or.inl he
  · exact Or.inr (nodeIdValid_iff.mpr ⟨h0, by omega⟩)

theorem attached_childrenOf (ha : Attached P P' p plan) (hplan : plan.parent = p) (i : ℕ) :
    childrenOf P' i = childrenOf P i ++ if i = p then [P.nodeCount+1] else [] := by
  have hrange : List.range' 1 P'.nodeCount = List.range' 1 P.nodeCount ++ [P.nodeCount+1] := by
    rw [ha.count, List.range'_concat, Nat.one_mul, Nat.add_comm 1]
  have hold : (List.range' 1 P.nodeCount).filter (fun c => decide ((P'.node c).parent = i)) =
      childrenOf P i := by
    apply List.filter_congr
    intro c hc
    have hle : c ≤ P.nodeCount := by
      have := List.mem_range'_1.mp hc
      omega
    rw [ha.old c hle]
  rw [childrenOf, hrange, List.filter_append, hold]
  by_cases hi : i = p
  · rw [if_pos hi]
    simp [ha.new, hplan, hi]
  · rw [if_neg hi]
    simp [ha.new, hplan, Ne.symm hi]

theorem topology_attached (h : Topology P) (ha : Attached P P' p plan) (hp : nodeIdValid P p = true)
    (hparent : plan.parent = p) (hfirst : plan.firstChild = 0) (hlast : plan.lastChild = 0)
    (hnext : plan.nextSibling = 0) (hcount : plan.childCount = 0)
    (hdepth : plan.depth = (P.node p).depth+1) (hdepth_le : plan.depth ≤ P.maxDepth)
    (hroom : P.nodeCount < P.maxNodes) (haccepts : nodeKindAcceptsChildren (P.node p).kind = true) :
    Topology P' := by
  obtain ⟨hp0, hple⟩ := nodeIdValid_iff.mp hp
  have hkids := attached_childrenOf ha hparent
  have hnewKids : childrenOf P (P.nodeCount+1) = [] := by
    rw [List.eq_nil_iff_forall_not_mem]
    intro c hc
    obtain ⟨hcv, hcp⟩ := mem_childrenOf.mp hc
    have := h.parent_lt c hcv
    have := (nodeIdValid_iff.mp hcv).2
    omega
  have hpne : P.nodeCount+1 ≠ p := by omega
  have hold : ∀ i, nodeIdValid P i = true → i ≤ P.nodeCount := fun i hi =>
    (nodeIdValid_iff.mp hi).2
  constructor
  case count_le => rw [ha.count, ha.max_nodes]; exact hroom
  case root_eq =>
    rw [ha.root, h.root_eq, ha.count]
    omega
  case parent_lt =>
    intro i hi
    rcases attached_valid ha hi with rfl | hi
    · rw [ha.new, hparent]
      omega
    · rw [ha.old i (hold i hi)]
      exact h.parent_lt i hi
  case parent_zero =>
    intro i hi hz
    rw [ha.root]
    rcases attached_valid ha hi with rfl | hi
    · rw [ha.new, hparent] at hz
      exact absurd hz hp0
    · rw [ha.old i (hold i hi)] at hz
      exact h.parent_zero i hi hz
  case linked =>
    intro i hi
    rw [hkids i]
    rcases attached_valid ha hi with rfl | hi
    · rw [hnewKids, if_neg hpne, ha.new]
      exact hfirst
    · have hkeep : ∀ c ∈ childrenOf P i, (i = p → c ≠ (P.node p).lastChild) →
          (P'.node c).nextSibling = (P.node c).nextSibling := by
        intro c hc hne
        obtain ⟨hcv, hcp⟩ := mem_childrenOf.mp hc
        rw [ha.old c (hold c hcv)]
        apply if_neg
        rintro ⟨hf, he⟩
        obtain ⟨-, hlp⟩ := mem_childrenOf.mp (List.mem_of_getLast? (lastChild_isChild h hp hf))
        rw [← he, hcp] at hlp
        exact hne hlp he
      by_cases hip : i = p
      · subst hip
        rw [if_pos rfl, ha.old i hple]
        by_cases hf : (P.node i).firstChild = 0
        · have hnil := (linked_start_eq_zero (h.linked i hi)).mp hf
          rw [hnil]
          simp only [hf, and_self, if_true, List.nil_append]
          exact linked_singleton (Nat.succ_ne_zero _) (by rw [ha.new]; exact hnext)
        · have hl := lastChild_isChild h hi hf
          obtain ⟨hlv, -⟩ := mem_childrenOf.mp (List.mem_of_getLast? hl)
          simp only [hf, and_false, if_false]
          apply linked_append (h.linked i hi) hl (nodup_childrenOf i) (Nat.succ_ne_zero _)
          · exact fun c hc hne => hkeep c hc (fun _ => hne)
          · show (P'.node (P.node i).lastChild).nextSibling = P.nodeCount+1
            rw [ha.old _ (hold _ hlv)]
            exact if_pos ⟨hf, rfl⟩
          · show (P'.node (P.nodeCount+1)).nextSibling = 0
            rw [ha.new]
            exact hnext
      · rw [if_neg hip, List.append_nil, ha.old i (hold i hi)]
        simp only [hip, false_and, if_false]
        exact linked_congr (h.linked i hi) (fun c hc => hkeep c hc (fun he => absurd he hip))
  case last =>
    intro i hi
    rw [hkids i]
    rcases attached_valid ha hi with rfl | hi
    · rw [hnewKids, if_neg hpne, ha.new, hlast]
      rfl
    · rw [ha.old i (hold i hi)]
      by_cases hip : i = p
      · simp [hip]
      · simp [hip, h.last i hi]
  case child_count =>
    intro i hi
    rw [hkids i]
    rcases attached_valid ha hi with rfl | hi
    · rw [hnewKids, if_neg hpne, ha.new, hcount]
      rfl
    · rw [ha.old i (hold i hi)]
      by_cases hip : i = p
      · simp [hip, ← h.child_count p hp]
      · simp [hip, h.child_count i hi]
  case accepts =>
    intro i c hc
    rcases attached_valid ha hc.1 with rfl | hcv
    · have hip : p = i := by rw [← hparent, ← ha.new]; exact hc.2.2
      rw [← hip, ha.old p hple]
      exact haccepts
    · have hcp : (P.node c).parent = i := by
        rw [← hc.2.2, ha.old c (hold c hcv)]
      have hchild : IsChild P i c := ⟨hcv, hc.2.1, hcp⟩
      rw [ha.old i (hold i (parent_valid h hchild))]
      exact h.accepts i c hchild
  case depth_root =>
    intro i hi hz
    rcases attached_valid ha hi with rfl | hi
    · rw [ha.new, hparent] at hz
      exact absurd hz hp0
    · rw [ha.old i (hold i hi)] at hz ⊢
      exact h.depth_root i hi hz
  case depth_child =>
    intro i c hc
    rcases attached_valid ha hc.1 with rfl | hcv
    · have hip : p = i := by rw [← hparent, ← ha.new]; exact hc.2.2
      rw [← hip, ha.old p hple, ha.new]
      exact hdepth
    · have hcp : (P.node c).parent = i := by
        rw [← hc.2.2, ha.old c (hold c hcv)]
      have hchild : IsChild P i c := ⟨hcv, hc.2.1, hcp⟩
      rw [ha.old i (hold i (parent_valid h hchild)), ha.old c (hold c hcv)]
      exact h.depth_child i c hchild
  case depth_le =>
    intro i hi
    rw [ha.max_depth]
    rcases attached_valid ha hi with rfl | hi
    · rw [ha.new]
      exact hdepth_le
    · rw [ha.old i (hold i hi)]
      exact h.depth_le i hi

def rootPlan (P : Plan) (plan : NodePlan) : Plan :=
  { P with nodeCount := 1, root := 1, node := Function.update P.node 1 plan }

theorem topology_root (P : Plan) (hroom : 0 < P.maxNodes) (hdeep : 0 < P.maxDepth)
    (hparent : plan.parent = 0) (hfirst : plan.firstChild = 0) (hlast : plan.lastChild = 0)
    (hcount : plan.childCount = 0) (hdepth : plan.depth = 1) : Topology (rootPlan P plan) := by
  have hnode : (rootPlan P plan).node 1 = plan := by simp [rootPlan]
  have hone : ∀ i, nodeIdValid (rootPlan P plan) i = true → i = 1 := by
    intro i hi
    obtain ⟨h0, hle⟩ := nodeIdValid_iff.mp hi
    have hle : i ≤ 1 := hle
    omega
  have hkids : childrenOf (rootPlan P plan) 1 = [] := by
    have hrange : List.range' 1 (rootPlan P plan).nodeCount = [1] := rfl
    rw [childrenOf, hrange]
    simp [hnode, hparent]
  constructor
  case count_le => exact hroom
  case root_eq => rfl
  case accepts =>
    intro i c hc
    have hcp := hc.2.2
    rw [hone c hc.1, hnode, hparent] at hcp
    exact absurd hcp.symm hc.2.1
  case depth_child =>
    intro i c hc
    have hcp := hc.2.2
    rw [hone c hc.1, hnode, hparent] at hcp
    exact absurd hcp.symm hc.2.1
  all_goals
    intro i hi
    rw [hone i hi]
  case parent_lt => rw [hnode, hparent]; exact Nat.one_pos
  case parent_zero => exact fun _ => rfl
  case linked => rw [hkids, hnode]; exact hfirst
  case last => rw [hkids, hnode, hlast]; rfl
  case child_count => rw [hkids, hnode, hcount]; rfl
  case depth_root => rw [hnode]; exact fun _ => hdepth
  case depth_le => rw [hnode, hdepth]; exact hdeep

end Building

end SaltsUtils.BehaviorTree
