import Mathlib.Tactic
import SaltsUtils.Library.Forest
import SaltsUtils.Library.Invariants

/-!
# Evaluation that can be suspended

A node is a leaf, which is called and answers or asks to be called again, or it has a
program that visits other nodes and continues with their results. The reference evaluation
calls a leaf again in place until it answers.
-/

set_option autoImplicit false

namespace SaltsUtils.Suspension
open SaltsUtils.Forest

/-- A program that visits nodes of type `α` and continues with their results. -/
inductive Task (α S : Type*) where
  | done (s : S)
  | visit (a : α) (next : S → Task α S)

/-- Which nodes are leaves, what the others do, and how leaves answer. -/
structure Machine (α S σ : Type*) where
  body : α → Option (Task α S)
  call : α → σ → Option S × σ

inductive Goal (α S : Type*) where
  | node (a : α)
  | task (t : Task α S)

variable {α S σ : Type*}

/-- The evaluation of a goal from state `e`: its log, its result unless it is
suspended, and the state it leaves. -/
inductive Eval (M : Machine α S σ) : Goal α S → σ → List (α × Option S) → Option S → σ → Prop
  | again {a : α} {e e₁ e' : σ} {log : List (α × Option S)} {o : Option S} :
      M.body a = none → M.call a e = (none, e₁) → Eval M (.node a) e₁ log o e' →
      Eval M (.node a) e ((a, none)::log) o e'
  | unanswered {a : α} {e e₁ : σ} :
      M.body a = none → M.call a e = (none, e₁) → Eval M (.node a) e [(a, none)] none e₁
  | answered {a : α} {e e₁ : σ} {s : S} :
      M.body a = none → M.call a e = (some s, e₁) →
      Eval M (.node a) e [(a, some s)] (some s) e₁
  | inner {a : α} {t : Task α S} {e e' : σ} {log : List (α × Option S)} {s : S} :
      M.body a = some t → Eval M (.task t) e log (some s) e' →
      Eval M (.node a) e (log ++ [(a, some s)]) (some s) e'
  | inner_suspended {a : α} {t : Task α S} {e e' : σ} {log : List (α × Option S)} :
      M.body a = some t → Eval M (.task t) e log none e' → Eval M (.node a) e log none e'
  | done {s : S} {e : σ} : Eval M (.task (.done s)) e [] (some s) e
  | visit {a : α} {next : S → Task α S} {e e₁ e' : σ} {log log' : List (α × Option S)} {s : S}
      {o : Option S} :
      Eval M (.node a) e log (some s) e₁ → Eval M (.task (next s)) e₁ log' o e' →
      Eval M (.task (.visit a next)) e (log ++ log') o e'
  | visit_suspended {a : α} {next : S → Task α S} {e e' : σ} {log : List (α × Option S)} :
      Eval M (.node a) e log none e' → Eval M (.task (.visit a next)) e log none e'

variable {g : Goal α S} {e e' : σ} {log : List (α × Option S)} {s : S} {o : Option S}

section Determinism
variable {M : Machine α S σ}

/-- A second evaluation of a goal that has a result is a part of the first, and
the whole of it if it has a result too. -/
theorem eval_determined {e'' : σ} {log' : List (α × Option S)} (h : Eval M g e log (some s) e')
    (h' : Eval M g e log' o e'') :
    log' <+: log ∧ ∀ s', o = some s' → log' = log ∧ s' = s ∧ e'' = e' := by
  generalize hr : some s = r at h
  induction h generalizing log' o e'' s with
  | again hb hc hrest ih =>
    cases h' with
    | again hb' hc' hrest' =>
      obtain rfl := (Prod.mk.inj (hc.symm.trans hc')).2
      obtain ⟨hpre, hsame⟩ := ih hrest' hr
      refine ⟨List.cons_prefix_cons.mpr ⟨rfl, hpre⟩, fun s' hs' => ?_⟩
      obtain ⟨hlog, hs, he⟩ := hsame s' hs'
      exact ⟨by rw [hlog], hs, he⟩
    | unanswered hb' hc' =>
      exact ⟨List.cons_prefix_cons.mpr ⟨rfl, List.nil_prefix⟩, fun s' hs' => absurd hs' (by simp)⟩
    | answered hb' hc' => exact absurd (hc.symm.trans hc') (by simp)
    | inner hb' _ => exact absurd (hb.symm.trans hb') (by simp)
    | inner_suspended hb' _ => exact absurd (hb.symm.trans hb') (by simp)
  | unanswered hb hc => exact absurd hr (by simp)
  | answered hb hc =>
    cases h' with
    | again hb' hc' _ => exact absurd (hc.symm.trans hc') (by simp)
    | unanswered hb' hc' => exact absurd (hc.symm.trans hc') (by simp)
    | answered hb' hc' =>
      have hcall := Prod.mk.inj (hc.symm.trans hc')
      obtain rfl := Option.some.inj hcall.1
      exact ⟨List.prefix_refl _, fun s' hs' => ⟨rfl, Option.some.inj (hs'.symm.trans hr.symm),
        hcall.2.symm⟩⟩
    | inner hb' _ => exact absurd (hb.symm.trans hb') (by simp)
    | inner_suspended hb' _ => exact absurd (hb.symm.trans hb') (by simp)
  | inner hb hbody ih =>
    cases h' with
    | again hb' _ _ => exact absurd (hb.symm.trans hb') (by simp)
    | unanswered hb' _ => exact absurd (hb.symm.trans hb') (by simp)
    | answered hb' _ => exact absurd (hb.symm.trans hb') (by simp)
    | inner hb' hbody' =>
      obtain rfl := Option.some.inj (hb.symm.trans hb')
      obtain ⟨rfl, rfl, rfl⟩ := (ih hbody' hr).2 _ rfl
      obtain rfl := Option.some.inj hr
      exact ⟨List.prefix_refl _, fun s' hs' => ⟨rfl, (Option.some.inj hs').symm, rfl⟩⟩
    | inner_suspended hb' hbody' =>
      obtain rfl := Option.some.inj (hb.symm.trans hb')
      exact ⟨(ih hbody' hr).1.trans (List.prefix_append _ _), fun s' hs' => absurd hs' (by simp)⟩
  | inner_suspended hb _ _ => exact absurd hr (by simp)
  | done =>
    cases h' with
    | done =>
      exact ⟨List.prefix_refl _, fun s' hs' => ⟨rfl, Option.some.inj (hs'.symm.trans hr.symm), rfl⟩⟩
  | visit hnode hrest ihnode ihrest =>
    cases h' with
    | visit hnode' hrest' =>
      obtain ⟨rfl, rfl, rfl⟩ := (ihnode hnode' rfl).2 _ rfl
      obtain ⟨hpre, hsame⟩ := ihrest hrest' hr
      refine ⟨(List.prefix_append_right_inj _).mpr hpre, fun s' hs' => ?_⟩
      obtain ⟨hlog, hs, he⟩ := hsame s' hs'
      exact ⟨by rw [hlog], hs, he⟩
    | visit_suspended hnode' =>
      exact ⟨(ihnode hnode' rfl).1.trans (List.prefix_append _ _),
        fun s' hs' => absurd hs' (by simp)⟩
  | visit_suspended _ _ => exact absurd hr (by simp)

end Determinism

section Descent

/-- The task may come to visit the node. -/
inductive Visits : Task α S → α → Prop
  | here {a : α} {next : S → Task α S} : Visits (.visit a next) a
  | later {a b : α} {next : S → Task α S} {s : S} :
      Visits (next s) b → Visits (.visit a next) b

def Machine.edge (M : Machine α S σ) (a b : α) : Prop := ∃ t, M.body a = some t ∧ Visits t b

/-- A goal names only nodes below those it visits. -/
theorem eval_below {M : Machine α S σ} (h : Eval M g e log o e') : match g with
    | .node a => ∀ x ∈ log, Below M.edge a x.1
    | .task t => ∀ x ∈ log, ∃ b, Visits t b ∧ Below M.edge b x.1 := by
  induction h with
  | again hb hc hrest ih =>
    intro x hx
    rcases List.mem_cons.mp hx with rfl | hx
    · exact below_refl _
    · exact ih x hx
  | unanswered hb hc =>
    intro x hx
    rw [List.mem_singleton.mp hx]
    exact below_refl _
  | answered hb hc =>
    intro x hx
    rw [List.mem_singleton.mp hx]
    exact below_refl _
  | inner hb hbody ih =>
    intro x hx
    rcases List.mem_append.mp hx with hx | hx
    · obtain ⟨b, hv, hbelow⟩ := ih x hx
      exact below_of_child ⟨_, hb, hv⟩ hbelow
    · rw [List.mem_singleton.mp hx]
      exact below_refl _
  | inner_suspended hb hbody ih =>
    intro x hx
    obtain ⟨b, hv, hbelow⟩ := ih x hx
    exact below_of_child ⟨_, hb, hv⟩ hbelow
  | done => exact fun x hx => absurd hx List.not_mem_nil
  | visit hnode hrest ihnode ihrest =>
    intro x hx
    rcases List.mem_append.mp hx with hx | hx
    · exact ⟨_, .here, ihnode x hx⟩
    · obtain ⟨b, hv, hbelow⟩ := ihrest x hx
      exact ⟨b, .later hv, hbelow⟩
  | visit_suspended hnode ihnode => exact fun x hx => ⟨_, .here, ihnode x hx⟩

end Descent

section Positions

/-- The evaluation that goes on from a position: a node that is met on the way
to the suspended leaf does what remains of its program, later nodes all of it. -/
inductive Resume (M : Machine α S σ) (rem : α → Option (Task α S)) :
    Goal α S → σ → List (α × Option S) → Option S → σ → Prop
  | leaf {a : α} {e e' : σ} {log : List (α × Option S)} {o : Option S} :
      rem a = none → Eval M (.node a) e log o e' → Resume M rem (.node a) e log o e'
  | inner {a : α} {t : Task α S} {e e' : σ} {log : List (α × Option S)} {s : S} :
      rem a = some t → Resume M rem (.task t) e log (some s) e' →
      Resume M rem (.node a) e (log ++ [(a, some s)]) (some s) e'
  | inner_suspended {a : α} {t : Task α S} {e e' : σ} {log : List (α × Option S)} :
      rem a = some t → Resume M rem (.task t) e log none e' →
      Resume M rem (.node a) e log none e'
  | done {s : S} {e : σ} : Resume M rem (.task (.done s)) e [] (some s) e
  | visit {a : α} {next : S → Task α S} {e e₁ e' : σ} {log log' : List (α × Option S)} {s : S}
      {o : Option S} :
      Resume M rem (.node a) e log (some s) e₁ → Eval M (.task (next s)) e₁ log' o e' →
      Resume M rem (.task (.visit a next)) e (log ++ log') o e'
  | visit_suspended {a : α} {next : S → Task α S} {e e' : σ} {log : List (α × Option S)} :
      Resume M rem (.node a) e log none e' → Resume M rem (.task (.visit a next)) e log none e'

/-- Nothing of the programs below `a` has been done. -/
def Untouched (M : Machine α S σ) (rem : α → Option (Task α S)) (a : α) : Prop :=
  ∀ b, Below M.edge a b → rem b = M.body b

/-- The nodes at which a goal goes on. -/
def Goal.starts : Goal α S → α → Prop
  | .node a, b => b = a
  | .task (.done _), _ => False
  | .task (.visit a _), b => b = a

variable {M : Machine α S σ} {rem rem' rem'' : α → Option (Task α S)}

/-- From a position where nothing is done the evaluation is the reference. -/
theorem eval_of_resume (h : Resume M rem g e log o e')
    (hstart : ∀ a, g.starts a → Untouched M rem a) : Eval M g e log o e' := by
  have hbody : ∀ {a : α} {t : Task α S}, rem a = some t →
      (∀ b, (Goal.node (S := S) a).starts b → Untouched M rem b) →
      M.body a = some t ∧ ∀ b, (Goal.task t).starts b → Untouched M rem b := by
    intro a t ha hs
    have hsame : M.body a = some t := (hs a rfl a (below_refl a)).symm.trans ha
    refine ⟨hsame, ?_⟩
    cases t with
    | done s => exact fun b hb => hb.elim
    | visit c next =>
      rintro b rfl
      exact fun d hd => hs a rfl d (below_of_child ⟨_, hsame, .here⟩ hd)
  induction h with
  | leaf hr heval => exact heval
  | inner hr hrest ih =>
    obtain ⟨hb, ht⟩ := hbody hr hstart
    exact .inner hb (ih ht)
  | inner_suspended hr hrest ih =>
    obtain ⟨hb, ht⟩ := hbody hr hstart
    exact .inner_suspended hb (ih ht)
  | done => exact .done
  | visit hnode hrest ih => exact .visit (ih (fun b hb => hstart b hb)) hrest
  | visit_suspended hnode ih => exact .visit_suspended (ih (fun b hb => hstart b hb))

/-- An evaluation looks only at the positions of nodes that it can reach. -/
theorem resume_congr {A : Set α} (hclosed : ∀ a ∈ A, ∀ b next, rem a = some (.visit b next) → b ∈ A)
    (hsame : ∀ a ∈ A, rem' a = rem a) (hstart : ∀ a, g.starts a → a ∈ A)
    (h : Resume M rem g e log o e') : Resume M rem' g e log o e' := by
  have hbody : ∀ {a : α} {t : Task α S}, rem a = some t →
      (∀ b, (Goal.node (S := S) a).starts b → b ∈ A) →
      rem' a = some t ∧ ∀ b, (Goal.task t).starts b → b ∈ A := by
    intro a t ha hs
    refine ⟨(hsame a (hs a rfl)).trans ha, ?_⟩
    cases t with
    | done s => exact fun b hb => hb.elim
    | visit c next =>
      rintro b rfl
      exact hclosed a (hs a rfl) b next ha
  induction h with
  | leaf hr heval => exact .leaf ((hsame _ (hstart _ rfl)).trans hr) heval
  | inner hr hrest ih =>
    obtain ⟨hb, ht⟩ := hbody hr hstart
    exact .inner hb (ih ht)
  | inner_suspended hr hrest ih =>
    obtain ⟨hb, ht⟩ := hbody hr hstart
    exact .inner_suspended hb (ih ht)
  | done => exact .done
  | visit hnode hrest ih => exact .visit (ih (fun b hb => hstart b hb)) hrest
  | visit_suspended hnode ih => exact .visit_suspended (ih (fun b hb => hstart b hb))

end Positions

section Suspended
variable {M : Machine α S σ}

/-- An evaluation is suspended by a call. -/
theorem eval_suspended_ne_nil (h : Eval M g e log none e') : log ≠ [] := by
  generalize ho : (none : Option S) = o at h
  induction h with
  | again => simp
  | unanswered => simp
  | answered => simp
  | inner => simp
  | inner_suspended _ _ ih => exact ih ho
  | done => exact absurd ho (by simp)
  | visit _ _ _ ih =>
    intro hnil
    exact ih ho (List.append_eq_nil_iff.mp hnil).2
  | visit_suspended _ ih => exact ih ho

theorem resume_suspended_ne_nil {rem : α → Option (Task α S)} (h : Resume M rem g e log none e') :
    log ≠ [] := by
  generalize ho : (none : Option S) = o at h
  induction h with
  | leaf _ heval => exact eval_suspended_ne_nil (ho ▸ heval)
  | inner => simp
  | inner_suspended _ _ ih => exact ih ho
  | done => exact absurd ho (by simp)
  | visit _ hrest _ =>
    intro hnil
    exact eval_suspended_ne_nil (ho ▸ hrest) (List.append_eq_nil_iff.mp hnil).2
  | visit_suspended _ ih => exact ih ho

end Suspended

variable {a : α}

section Advances
variable {M : Machine α S σ}

/-- A part of the evaluation of `g` from one position to another: its log, its
result unless it is suspended, and that what goes on from there completes it. -/
structure Advance (M : Machine α S σ) (rem : α → Option (Task α S)) (g : Goal α S)
    (rem' : α → Option (Task α S)) (g' : Goal α S) (e : σ) (log : List (α × Option S))
    (o : Option S) (e' : σ) : Prop where
  now : Resume M rem g e log o e'
  later : o = none → ∀ log' o' e'', Resume M rem' g' e' log' o' e'' →
    Resume M rem g e (log ++ log') o' e''

variable {rem rem' rem'' : α → Option (Task α S)}

variable {e₁ : σ}

theorem advance_unanswered (hb : M.body a = none) (hr : rem a = none) (hr' : rem' a = none)
    (hc : M.call a e = (none, e₁)) :
    Advance M rem (.node a) rem' (.node a) e [(a, none)] none e₁ := by
  refine ⟨.leaf hr (.unanswered hb hc), ?_⟩
  intro _ log' o' e'' h
  cases h with
  | leaf _ heval => exact .leaf hr (.again hb hc heval)
  | inner hr'' _ => exact absurd (hr'.symm.trans hr'') (by simp)
  | inner_suspended hr'' _ => exact absurd (hr'.symm.trans hr'') (by simp)

theorem advance_answered (hb : M.body a = none) (hr : rem a = none) (hc : M.call a e = (some s, e₁)) :
    Advance M rem (.node a) rem' (.node a) e [(a, some s)] (some s) e₁ :=
  ⟨.leaf hr (.answered hb hc), fun h => absurd h (by simp)⟩

variable {t' : Task α S}

theorem advance_inner {t : Task α S} (hr : rem a = some t)
    (h : Advance M rem (.task t) rem' (.task t') e log (some s) e') :
    Advance M rem (.node a) rem' (.node a) e (log ++ [(a, some s)]) (some s) e' :=
  ⟨.inner hr h.now, fun h => absurd h (by simp)⟩

theorem advance_inner_suspended {t : Task α S} (hr : rem a = some t) (hr' : rem' a = some t')
    (h : Advance M rem (.task t) rem' (.task t') e log none e') :
    Advance M rem (.node a) rem' (.node a) e log none e' := by
  refine ⟨.inner_suspended hr h.now, ?_⟩
  intro _ log' o' e'' hrest
  cases hrest with
  | leaf hr'' _ => exact absurd (hr'.symm.trans hr'') (by simp)
  | inner hr'' hrest =>
    obtain rfl := Option.some.inj (hr'.symm.trans hr'')
    rw [← List.append_assoc]
    exact .inner hr (h.later rfl _ _ _ hrest)
  | inner_suspended hr'' hrest =>
    obtain rfl := Option.some.inj (hr'.symm.trans hr'')
    exact .inner_suspended hr (h.later rfl _ _ _ hrest)

theorem advance_done : Advance M rem (.task (.done s)) rem' (.task t') e [] (some s) e :=
  ⟨.done, fun h => absurd h (by simp)⟩

theorem advance_visit_suspended {next : S → Task α S}
    (h : Advance M rem (.node a) rem' (.node a) e log none e') :
    Advance M rem (.task (.visit a next)) rem' (.task (.visit a next)) e log none e' := by
  refine ⟨.visit_suspended h.now, ?_⟩
  intro _ log' o' e'' hrest
  cases hrest with
  | visit hnode hrest =>
    rw [← List.append_assoc]
    exact .visit (h.later rfl _ _ _ hnode) hrest
  | visit_suspended hnode => exact .visit_suspended (h.later rfl _ _ _ hnode)

/-- A visit with a result, and the task that goes on from it. -/
theorem advance_visit {next : S → Task α S} {log' : List (α × Option S)}
    (h : Advance M rem (.node a) rem' (.node a) e log (some s) e₁)
    (hfresh : ∀ b, (Goal.task (next s)).starts b → Untouched M rem' b)
    (h' : Advance M rem' (.task (next s)) rem'' (.task t') e₁ log' o e') :
    Advance M rem (.task (.visit a next)) rem'' (.task t') e (log ++ log') o e' := by
  refine ⟨.visit h.now (eval_of_resume h'.now hfresh), ?_⟩
  intro ho log'' o' e'' hrest
  rw [List.append_assoc]
  exact .visit h.now (eval_of_resume (h'.later ho _ _ _ hrest) hfresh)

end Advances

section Once

/-- A task that visits no node twice. -/
def Task.Simple : Task α S → Prop
  | .done _ => True
  | .visit a next => ∀ s, ¬ Visits (next s) a ∧ (next s).Simple

variable [DecidableEq α]

/-- Reads a log and remembers whether `c` has a result since `p` last had one. -/
def passMonitor (M : Machine α S σ) (p c : α) : Monitor Bool (α × Option S) where
  step closed x := if x.2.isSome then (if x.1 = c then true else if x.1 = p then false else closed)
    else closed
  allowed closed x := closed = true → ¬ Below M.edge c x.1

variable {M : Machine α S σ} {p c : α}

theorem pass_elsewhere (h : ∀ x ∈ log, ¬ Below M.edge c x.1) (closed : Bool) :
    (passMonitor M p c).Accepts closed log := by
  induction log generalizing closed with
  | nil => trivial
  | cons x log ih =>
    exact ⟨fun _ => h x List.mem_cons_self, ih (fun y hy => h y (List.mem_cons_of_mem x hy)) _⟩

theorem pass_step_none (a : α) (closed : Bool) :
    (passMonitor M p c).step closed (a, none) = closed := by
  simp [passMonitor]

theorem pass_open_allowed (x : α × Option S) : (passMonitor M p c).allowed false x :=
  fun h => absurd h (by decide)

/-- The result of a node leaves the monitor open unless the node is `c`. -/
theorem pass_step_some (hpc : p ≠ c) {closed : Bool} (h : a ≠ p → closed = false) :
    (passMonitor M p c).step closed (a, some s) = decide (a = c) := by
  by_cases hac : a = c
  · simp [passMonitor, hac]
  · by_cases hap : a = p
    · simp [passMonitor, hap, hpc]
    · simp [passMonitor, hac, hap, h hap]

variable (hf : IsForest M.edge) (hpc : M.edge p c) (hsimple : ∀ t, M.body p = some t → t.Simple)
include hf hpc hsimple

omit [DecidableEq α] hsimple in
theorem ne_of_edge : p ≠ c := by
  rintro rfl
  exact hf.acyclic p (Relation.TransGen.single hpc)

/-- What a goal reads: a node from the open state, a task of some node `q`. -/
theorem pass_eval (h : Eval M g e log o e') : match g with
    | .node a => (passMonitor M p c).Accepts false log ∧
        (o.isSome → (passMonitor M p c).run false log = decide (a = c))
    | .task t => ∀ q, (∀ b, Visits t b → M.edge q b) → (q = p → t.Simple) →
        (passMonitor M p c).Accepts false log ∧
        (q ≠ p → o.isSome → (passMonitor M p c).run false log = false) := by
  have hne := ne_of_edge hf hpc
  induction h with
  | again hb hc hrest ih =>
    refine ⟨⟨pass_open_allowed _, ?_⟩, fun ho => ?_⟩
    · rw [pass_step_none]
      exact ih.1
    · show (passMonitor M p c).run ((passMonitor M p c).step false _) _ = _
      rw [pass_step_none]
      exact ih.2 ho
  | unanswered hb hc => exact ⟨⟨pass_open_allowed _, trivial⟩, fun ho => absurd ho (by simp)⟩
  | answered hb hc =>
    exact ⟨⟨pass_open_allowed _, trivial⟩, fun _ => pass_step_some hne (fun _ => rfl)⟩
  | inner hb hbody ih =>
    rename_i a t e e' log s
    obtain ⟨hacc, hrun⟩ := ih a (fun b hv => ⟨t, hb, hv⟩) (fun hap => hsimple t (hap ▸ hb))
    have hclosed : a ≠ p → (passMonitor M p c).run false log = false := fun hap => hrun hap rfl
    refine ⟨(Monitor.accepts_snoc _ _ _ _).mpr ⟨hacc, ?_⟩, fun _ => ?_⟩
    · intro hcl hbelow
      -- only `p` itself can have a result while the monitor is closed, and `p` is not below `c`
      by_cases hap : a = p
      · rw [hap] at hbelow
        exact not_below_parent hf hpc hbelow
      · rw [hclosed hap] at hcl
        exact absurd hcl (by decide)
    · rw [Monitor.run_snoc]
      exact pass_step_some hne hclosed
  | inner_suspended hb hbody ih =>
    rename_i a t e e' log
    exact ⟨(ih a (fun b hv => ⟨t, hb, hv⟩) (fun hap => hsimple t (hap ▸ hb))).1,
      fun ho => absurd ho (by simp)⟩
  | done => exact fun q _ _ => ⟨trivial, fun _ _ => rfl⟩
  | visit hnode hrest ihnode ihrest =>
    rename_i a next e e₁ e' log log' s o
    intro q hq hs
    obtain ⟨hacc, hrun⟩ := ihnode
    have hnext : ∀ b, Visits (next s) b → M.edge q b := fun b hv => hq b (.later hv)
    have hsnext : q = p → (next s).Simple := fun hqp => (hs hqp s).2
    rw [Monitor.accepts_append, Monitor.run_append, hrun rfl]
    by_cases hac : a = c
    · subst hac
      have hqp : q = p := hf.unique (hq a .here) hpc
      refine ⟨⟨hacc, pass_elsewhere ?_ _⟩, fun hqp' => absurd hqp hqp'⟩
      intro x hx
      obtain ⟨b, hv, hbelow⟩ := eval_below hrest x hx
      have hba : b ≠ a := by
        rintro rfl
        exact (hs hqp s).1 hv
      exact below_disjoint hf (hnext b hv) (hq a .here) hba hbelow
    · obtain ⟨hacc', hrun'⟩ := ihrest q hnext hsnext
      rw [decide_eq_false hac]
      exact ⟨⟨hacc, hacc'⟩, hrun'⟩
  | visit_suspended hnode ihnode =>
    exact fun q _ _ => ⟨ihnode.1, fun _ ho => absurd ho (by simp)⟩

/-- Between a result of `c` and the next time that something below `c` is named,
`p` has a result. -/
theorem result_between {l₁ l₂ l₃ : List (α × Option S)} {x : α × Option S}
    (h : Eval M (.node a) e log o e') (hlog : log = l₁ ++ (c, some s)::(l₂ ++ x::l₃))
    (hx : Below M.edge c x.1) : ∃ s', (p, some s') ∈ l₂ := by
  by_contra hnone
  have hstay : ∀ l : List (α × Option S), (∀ s', (p, some s') ∉ l) →
      (passMonitor M p c).run true l = true := by
    intro l
    induction l with
    | nil => exact fun _ => rfl
    | cons y l ih =>
      intro hl
      have hy : (passMonitor M p c).step true y = true := by
        obtain ⟨b, o⟩ := y
        cases o with
        | none => exact pass_step_none b true
        | some s' =>
          have hbp : b ≠ p := by
            rintro rfl
            exact hl s' List.mem_cons_self
          simp [passMonitor, hbp]
      show (passMonitor M p c).run ((passMonitor M p c).step true y) l = true
      rw [hy]
      exact ih (fun s' hs' => hl s' (List.mem_cons_of_mem y hs'))
  have hacc := (pass_eval hf hpc hsimple h).1
  have hsplit : log = (l₁ ++ (c, some s)::l₂) ++ x::l₃ := by
    rw [hlog]
    simp
  rw [hsplit] at hacc
  apply Monitor.allowed_of_accepts _ hacc _ hx
  have hc : (passMonitor M p c).step ((passMonitor M p c).run false l₁) (c, some s) = true := by
    simp [passMonitor]
  rw [Monitor.run_append]
  show (passMonitor M p c).run ((passMonitor M p c).step _ _) l₂ = true
  rw [hc]
  exact hstay l₂ (fun s' hs' => hnone ⟨s', hs'⟩)

end Once

end SaltsUtils.Suspension
