import SaltsUtils.Toml.Written

/-!
# Values stay as they are written

The parser marks an inline table as read-only and looks at the mark nowhere.
-/

set_option autoImplicit false

namespace SaltsUtils.Toml

open Owners Heap

def InValue (before : Document) (h : Heap) (m : Obj) : Prop :=
  ∃ first P V ctx o, Stores before first P V ctx o ∧ Inside h.edge o m

/-- No statement adds to a value of an earlier one, and no path of an inline table to a value
of the same table. -/
structure Respected (doc : Document) : Prop where
  proper : ∀ {before after : Document} {P : Path} {V : Value},
    doc = before ++ .key_val P V :: after → Proper V
  outside : ∀ {before after : Document} {S : Statement} {ctx : Ctx} {m : Obj},
    doc = before ++ S :: after → statements start before = some ctx → adds_to ctx S = some m →
      ¬ InValue before ctx.heap m

/-- Every value is read as it is written, and has what it had behind its own statement. -/
structure ClosedIn (doc : Document) (h : Heap) : Prop where
  written : ∀ {before : Document} {P : Path} {V : Value} {ctx : Ctx} {o : Obj},
    Stores doc before P V ctx o → ∃ i, h.read o = some i ∧ Written h i V
  same : ∀ {before : Document} {P : Path} {V : Value} {ctx ctx' : Ctx} {o m : Obj},
    Stores doc before P V ctx o → statement ctx (.key_val P V) = some ctx' →
      Inside ctx'.heap.edge o m → Same ctx'.heap h m

variable {doc : Document}

theorem Respected.init {rest : Document} (hr : Respected (doc ++ rest)) : Respected doc where
  proper hd := hr.proper (by rw [hd, List.append_assoc]; rfl)
  outside hd := hr.outside (by rw [hd, List.append_assoc]; rfl)

variable {before : Document} {S : Statement} {P : Path} {V : Value} {ctx : Ctx}

theorem Stores.init_or_last {o : Obj} (hs : Stores (doc ++ [S]) before P V ctx o) :
    Stores doc before P V ctx o ∨ before = doc ∧ S = .key_val P V := by
  obtain ⟨after, hd⟩ := hs.split
  rcases List.eq_nil_or_concat after with rfl | ⟨after, S', rfl⟩
  · obtain ⟨h₁, h₂⟩ := List.append_inj' hd rfl
    exact .inr ⟨h₁.symm, List.singleton_inj.mp h₂⟩
  · rw [List.concat_eq_append, ← List.cons_append, ← List.append_assoc] at hd
    exact .inl ⟨⟨after, (List.append_inj' hd rfl).1⟩, hs.reached, hs.stored⟩

variable {ctx' : Ctx}

theorem key_val_written {H : Header} {h : Heap} {v : Val} (hr : Ready ctx H) (hp : Plain V.yield)
    (hv' : Proper V) (hk : statement ctx (.key_val P V) = some ctx')
    (hv : any_value ctx.heap V = some (h, v)) :
    ∃ i, ctx'.heap.read (v.stored h) = some i ∧ Written ctx'.heap i V := by
  obtain ⟨h', v', hv₁, hb, ha, -, -⟩ := key_val_added hr hk
  cases hv.symm.trans hv₁
  exact ⟨v.item, stored_written hb.sound (hb.kept.has hr.has) hb.loose
    (any_value_written hr.sound V hp hv' hv) (hb.joint_outside hr.sound hr.has P.record) ha⟩

theorem value_kept (hrun : statements start doc = some ctx) (hs : statement ctx S = some ctx')
    (hout : ∀ m, adds_to ctx S = some m → ¬ InValue doc ctx.heap m) {ctx₁ : Ctx} {o : Obj}
    (hst : Stores doc before P V ctx₁ o) :
    ∀ m, Inside ctx.heap.edge o m → Same ctx.heap ctx'.heap m := by
  intro m hm
  have hr := (statements_ready start_ready hrun).1
  obtain ⟨ctx₂, -, hhas, hg⟩ := (stores_around hrun hst).added
  refine statement_same hr hs (inside_has hr.sound (hg.has hhas) hm) fun he => ?_
  exact hout m he ⟨before, P, V, ctx₁, o, hst, hm⟩

theorem closed_in_snoc (hrun : statements start doc = some ctx) (hc : ClosedIn doc ctx.heap)
    (hs : statement ctx S = some ctx') (hp : Plain S.yield) (hr : Respected (doc ++ [S])) :
    ClosedIn (doc ++ [S]) ctx'.heap := by
  have hsplit : doc ++ [S] = doc ++ S :: [] := rfl
  have hout : ∀ m, adds_to ctx S = some m → ¬ InValue doc ctx.heap m := fun m hm =>
    hr.outside hsplit hrun hm
  constructor
  · intro before P V ctx₁ o hst
    rcases hst.init_or_last with hst | ⟨rfl, rfl⟩
    · obtain ⟨i, hi, hw⟩ := hc.written hst
      have hsame := value_kept hrun hs hout hst
      refine ⟨i, (hsame o (inside_self o)).read.trans hi, written_same (fun n hn m hm => ?_) V hw⟩
      obtain rfl := read_obj hi hn
      exact hsame m hm
    · obtain rfl := Option.some.inj (hst.reached.symm.trans hrun)
      obtain ⟨h, v, hv, rfl⟩ := hst.stored
      exact key_val_written (statements_ready start_ready hrun).1
        (fun tok ht => hp tok (by simp [Statement.yield, ht])) (hr.proper hsplit) hs hv
  · intro before P V ctx₁ ctx₂ o m hst hst' hm
    rcases hst.init_or_last with hst | ⟨rfl, rfl⟩
    · have hsame := fun m hm => hc.same (m := m) hst hst' hm
      have hm' : Inside ctx.heap.edge o m := (inside_congr fun n hn s => (hsame n hn).edge s).mpr hm
      exact (hsame m hm).trans (value_kept hrun hs hout hst m hm')
    · obtain rfl := Option.some.inj (hst.reached.symm.trans hrun)
      obtain rfl := Option.some.inj (hst'.symm.trans hs)
      exact Same.refl _ m

theorem closed_in (hrun : statements start doc = some ctx) (hp : Plain doc.yield)
    (hr : Respected doc) : ClosedIn doc ctx.heap := by
  induction doc using List.reverseRecOn generalizing ctx with
  | nil =>
    refine ⟨fun hs => ?_, fun hs => ?_⟩
    · obtain ⟨after, hd⟩ := hs.split
      exact absurd hd.symm (List.append_ne_nil_of_right_ne_nil _ (List.cons_ne_nil _ _))
    · obtain ⟨after, hd⟩ := hs.split
      exact absurd hd.symm (List.append_ne_nil_of_right_ne_nil _ (List.cons_ne_nil _ _))
  | append_singleton doc S ih =>
    rw [statements, List.foldlM_append] at hrun
    obtain ⟨ctx₁, h₁, hrun⟩ := Option.bind_eq_some_iff.mp hrun
    obtain ⟨ctx₂, h₂, hrun⟩ := Option.bind_eq_some_iff.mp hrun
    obtain rfl := Option.some.inj hrun
    rw [Document.yield, List.flatMap_append] at hp
    refine closed_in_snoc h₁ (ih h₁ (fun tok ht => hp tok (List.mem_append_left _ ht)) hr.init) h₂
      (fun tok ht => hp tok (List.mem_append_right _ ?_)) hr
    simpa using ht

theorem Parses.plain {toml : Bytes} (h : Parses toml doc ctx) : Plain doc.yield := by
  intro tok ht
  rw [cstring, List.takeWhile_eq_self_iff]
  intro ch hch
  have hm : ch ∈ toml.takeWhile (· != 0) := tokens_mem h.tokens tok ht ch hch
  exact List.mem_takeWhile_imp (p := (· != 0)) hm

/-- In every state that the statements of a document reach, the values are read as they are
written and as they were when their own statement was done. -/
theorem values_closed {toml : Bytes} {doc : Document} {final : Ctx} (h : Parses toml doc final)
    (hr : Respected doc) {first rest : Document} {ctx : Ctx} (hd : doc = first ++ rest)
    (hrun : statements start first = some ctx) : ClosedIn first ctx.heap := by
  have hp : Plain first.yield := by
    intro tok ht
    refine h.plain tok ?_
    rw [hd, Document.yield, List.flatMap_append]
    exact List.mem_append_left _ ht
  rw [hd] at hr
  exact closed_in hrun hp hr.init

theorem root_outside (hrun : statements start before = some ctx) :
    ¬ InValue before ctx.heap (.table root) := by
  rintro ⟨first, P, V, ctx₁, o, hst, hin⟩
  have hfree := (statements_ready start_ready hrun).1.sound.root_free
  have ha := stores_around hrun hst
  exact ha.new (hin.orphan hfree ▸ ha.ready.sound.has_root)

theorem respected_of_root
    (hproper : ∀ {before after : Document} {P : Path} {V : Value}, doc = before ++ .key_val P V ::
      after → Proper V)
    (hroot : ∀ {before after : Document} {S : Statement}, doc = before ++ S :: after → ∀ m,
      (statements start before).bind (fun ctx => adds_to ctx S) = some m → m = .table root) :
    Respected doc := by
  refine ⟨hproper, fun {before after S ctx m} hd hrun hm => ?_⟩
  have hm := hroot hd m (by rw [hrun, Option.bind_some, hm])
  rw [hm]
  exact root_outside hrun

def table_of_one (key : ℕ) (V : Value) : Value :=
  .inline_table (.one (.part (letter key)) V) false

/-- `a={b=[1]}`, and `c=1` on the next line. -/
def closed_document : Document :=
  [.key_val (.part (letter 97)) (table_of_one 98 (.array (.one one_value) false)), .newline,
    .key_val (.part (letter 99)) one_value]

def closed_text : Bytes := [97, 61, 123, 98, 61, 91, 49, 93, 125, 10, 99, 61, 49]

theorem closed_document_respected : Respected closed_document := by
  refine respected_of_root (fun {before after P V} hd => ?_) fun {before after S} hd m hm => ?_
  · rcases before with _ | ⟨_, _ | ⟨_, _ | ⟨_, before⟩⟩⟩
    · cases hd
      exact ⟨by decide, trivial⟩
    · cases hd
    · cases hd
      exact trivial
    · simp [closed_document] at hd
  · have hall : ∀ o : Option Obj, o = none ∨ o = some (.table root) → o = some m →
        m = .table root := by
      rintro o (rfl | rfl) he
      · cases he
      · exact (Option.some.inj he).symm
    rcases before with _ | ⟨_, _ | ⟨_, _ | ⟨_, before⟩⟩⟩
    · cases hd
      exact hall _ (by decide +kernel) hm
    · cases hd
      exact hall _ (by decide +kernel) hm
    · cases hd
      exact hall _ (by decide +kernel) hm
    · simp [closed_document] at hd

theorem values_closed_document :
    ∃ final, Parses closed_text closed_document final ∧ ClosedIn closed_document final.heap := by
  obtain ⟨final, hrun⟩ := Option.isSome_iff_exists.mp
    (by decide +kernel : (statements start closed_document).isSome = true)
  have h : Parses closed_text closed_document final := ⟨by decide +kernel, hrun⟩
  exact ⟨final, h, values_closed h closed_document_respected (List.append_nil _).symm hrun⟩

/-- `a={x=1}`, and `a.b=1` on the next line. -/
def extended_document : Document :=
  [.key_val (.part (letter 97)) (table_of_one 120 one_value), .newline,
    .key_val (.dot (.part (letter 97)) (letter 98)) one_value]

def extended_text : Bytes := [97, 61, 123, 120, 61, 49, 125, 10, 97, 46, 98, 61, 49]

/-- The inline table of the first statement has a second member in the end. -/
theorem extended_not_closed :
    ∃ final, Parses extended_text extended_document final ∧
      ¬ ClosedIn extended_document final.heap := by
  let outer : Table := ⟨false, false, [], [], [([97], 1)]⟩
  let first : Ctx := ⟨⟨[[49]], [], [outer, ⟨true, false, [([120], 0)], [], []⟩]⟩, 0⟩
  let final : Ctx :=
    ⟨⟨[[49], [49]], [], [outer, ⟨true, false, [([120], 0), ([98], 1)], [], []⟩]⟩, 0⟩
  have h : Parses extended_text extended_document final := ⟨by decide +kernel, by decide +kernel⟩
  refine ⟨final, h, fun hc => ?_⟩
  have hst : Stores extended_document [] (.part (letter 97)) (table_of_one 120 one_value) start
      (.table 1) := ⟨⟨_, rfl⟩, rfl, _, .table 1, rfl, rfl⟩
  have hs : statement start (.key_val (.part (letter 97)) (table_of_one 120 one_value)) =
      some first := by decide +kernel
  have hsame : Same first.heap final.heap (.table 1) := hc.same hst hs (inside_self _)
  have hmembers : final.heap.tables[1]?.map Table.members =
      first.heap.tables[1]?.map Table.members := hsame
  exact absurd hmembers (by decide)

end SaltsUtils.Toml
