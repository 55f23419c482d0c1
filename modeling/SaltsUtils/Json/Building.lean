import SaltsUtils.Json.Trees

/-!
# Documents of any run

As long as no call that the arenas allow adds a container to itself, or a value that is
held already, every value is a finite tree: what is copied and what is written comes to an
end. A container that is below the value is refused by the arenas alone.
-/

set_option autoImplicit false

namespace SaltsUtils.Json.Building

open Owners Forest

variable {members : ObjectVal ℕ} {v rounds i : ℕ}

section

variable {D : Type} {h : Heap D}

/-- A value that the arenas allow is not the container and nothing holds it. -/
def Harmless (h : Heap D) (v c : ℕ) : Prop :=
  ∀ a, h.arena v = some a → json_can_transfer_to_arena h a c = true →
    c ≠ v ∧ Orphan (position h) c

/-- The value is held, or the container is below it. -/
def Improper (h : Heap D) (v c : ℕ) : Prop := ¬ Orphan (position h) c ∨ Below (child h) c v

theorem stored_refused (data : Data D) (hd : data.Ok) (hholds : data.holds = true) (c : ℕ) :
    Stored data data c false := ⟨hd, hholds, nofun, fun _ => rfl⟩

theorem array_add_stored (alloc : Alloc) (adopts : Bool) {elements : ArrayVal ℕ}
    (hok : elements.Ok) (c : ℕ) : Stored (D := D) (.array elements)
      (.array (Json.json_array_add_checked alloc adopts elements c).1) c
      (Json.json_array_add_checked alloc adopts elements c).2 := by
  cases adopts with
  | false => exact stored_refused (.array elements) hok rfl c
  | true => exact array_append_stored alloc hok c

theorem object_set_arena_stored (alloc : Alloc) (key : Bytes) (hok : members.Ok) (c : ℕ) :
    Stored (D := D) (.object members)
      (.object (json_object_set_arena alloc members key c).1) c
      (json_object_set_arena alloc members key c).2 := by
  rw [json_object_set_arena]
  split_ifs
  · exact stored_refused (.object members) hok rfl c
  · exact object_set_stored alloc hok key c

theorem object_add_stored (alloc : Alloc) (adopts : Bool) (key : Bytes) (hok : members.Ok) (c : ℕ) :
    Stored (D := D) (.object members)
      (.object (Json.json_object_add_n alloc adopts members key c).1) c
      (Json.json_object_add_n alloc adopts members key c).2 := by
  cases adopts with
  | false => exact stored_refused (.object members) hok rfl c
  | true => exact object_set_arena_stored alloc key hok c

variable {c : ℕ}

theorem array_add_step (alloc : Alloc) (ho : Ok h) (hsafe : Harmless h v c) :
    Step h (json_array_add_checked alloc h v c).1 v c := by
  rw [json_array_add_checked]
  split
  · next arena elements hv =>
    have hva : h.arena v = some arena := by rw [Heap.arena, hv]; rfl
    refine committed_step ho hv rfl (array_add_stored alloc _ (ho.data hv) c) (fun hadded => ?_)
      (hsafe arena hva)
    cases htransfer : json_can_transfer_to_arena h arena c with
    | true => rfl
    | false =>
      rw [htransfer] at hadded
      cases hadded
  · exact Step.refl ho v c

theorem object_add_step (alloc : Alloc) (key : Bytes) (ho : Ok h) (hsafe : Harmless h v c) :
    Step h (json_object_add_n alloc h v key c).1 v c := by
  rw [json_object_add_n]
  split
  · next arena members hv =>
    have hva : h.arena v = some arena := by rw [Heap.arena, hv]; rfl
    refine committed_step ho hv rfl (object_add_stored alloc _ key (ho.data hv) c)
      (fun hadded => ?_) (hsafe arena hva)
    cases htransfer : json_can_transfer_to_arena h arena c with
    | true => rfl
    | false =>
      rw [htransfer] at hadded
      cases hadded
  · exact Step.refl ho v c

theorem improper_refused (ho : Ok h) {a : ℕ} (hsafe : Harmless h v c) (himp : Improper h v c)
    (hva : h.arena v = some a)
    (hholds : ∀ value, h.values[v]? = some value → value.data.holds = true) :
    json_can_transfer_to_arena h a c = false := by
  by_contra hyes
  have hyes := Bool.not_eq_false _ ▸ hyes
  obtain ⟨hne, horphan⟩ := hsafe a hva hyes
  rcases himp with himp | hbelow
  · exact himp horphan
  · obtain ⟨value, hv, rfl⟩ := Option.map_eq_some_iff.mp hva
    rw [json_can_transfer_to_arena] at hyes
    split at hyes
    · next other hc => exact not_below ho hv hc (hholds value hv) hyes hne hbelow
    · cases hyes

theorem array_add_refused (alloc : Alloc) (ho : Ok h) (hsafe : Harmless h v c)
    (himp : Improper h v c) : json_array_add_checked alloc h v c = (h, false) := by
  rw [json_array_add_checked]
  split
  · next arena elements hv =>
    have hno := improper_refused ho hsafe himp (a := arena) (by rw [Heap.arena, hv]; rfl)
      fun value hvalue => by
        rw [hv] at hvalue
        exact Option.some.inj hvalue ▸ rfl
    rw [hno]
    exact congrArg (·, false) (write_same hv)
  · rfl

theorem object_add_refused (alloc : Alloc) (key : Bytes) (ho : Ok h) (hsafe : Harmless h v c)
    (himp : Improper h v c) : json_object_add_n alloc h v key c = (h, false) := by
  rw [json_object_add_n]
  split
  · next arena members hv =>
    have hno := improper_refused ho hsafe himp (a := arena) (by rw [Heap.arena, hv]; rfl)
      fun value hvalue => by
        rw [hv] at hvalue
        exact Option.some.inj hvalue ▸ rfl
    rw [hno]
    exact congrArg (·, false) (write_same hv)
  · rfl

theorem object_set_ok (alloc : Alloc) (ho : Ok h) (obj : ℕ) (key : Bytes) {data : Data D}
    (hd : data.Ok) (hscalar : data.holds = false) : Ok (object_set alloc h obj key data) := by
  have hnone := Data.children_of_not_holds hscalar
  rw [object_set]
  split
  · next arena members hv =>
    have hva : h.arena obj = some arena := by rw [Heap.arena, hv]; rfl
    have hlt := lt_of_value hv
    have hnew := new_ok ho (ho.in_arena hva) hd hnone fun hh => by
      rw [hscalar] at hh
      cases hh
    have hvnew := (@values_new D h arena obj data hlt).trans hv
    have hpos := @position_new D h arena data hnone
    have hok : members.Ok := ho.data hv
    have horphan : Orphan (position h) h.values.length := by
      intro n k hk
      exact Nat.lt_irrefl _ (ho.in_heap ⟨k, hk⟩)
    have hbelow : ¬ Below (child (json_value_new_arena h arena data).1) h.values.length obj := by
      intro hb
      rcases below_cases hb with hb | ⟨d, ⟨k, hk⟩, -⟩
      · exact hlt.ne hb
      · rw [hpos, position, List.getElem?_eq_none (Nat.le_refl _)] at hk
        cases hk
    have hstored := object_set_arena_stored (D := D) alloc key hok h.values.length
    cases hadded : (json_object_set_arena alloc members key h.values.length).2 with
    | false => exact write_keeps hnew hvnew (fun _ => rfl) hstored.ok (hstored.same hadded)
    | true =>
      have hobj : (json_value_new_arena h arena data).1.arena obj = some arena := by
        rw [Heap.arena, hvnew]
        rfl
      have hself : (json_value_new_arena h arena data).1.arena h.values.length = some arena := by
        rw [Heap.arena, values_new_self]
        rfl
      exact write_ok hnew hvnew rfl hstored.ok (hstored.put hadded) (lt_of_value values_new_self)
        (hpos ▸ horphan) hbelow ⟨arena, arena, hobj, hself, .inl rfl⟩
  · exact ho

/-- No value from `n` on holds one before it. -/
def Apart (n : ℕ) (h : Heap D) : Prop :=
  ∀ {u k m : ℕ}, n ≤ u → position h u k = some m → n ≤ m

/-- What a call that copies a value leaves, and its result. -/
structure Cloned (h h' : Heap D) (result : Option ℕ) : Prop where
  ok : Ok h'
  size : h.values.length ≤ h'.values.length
  old : ∀ u < h.values.length, h'.values[u]? = h.values[u]?
  apart : Apart h.values.length h'
  fresh : ∀ c, result = some c →
    h.values.length ≤ c ∧ c < h'.values.length ∧ Orphan (position h') c

def Clones (clone : Heap D → Option ℕ → Option (Heap D × Option ℕ)) : Prop :=
  ∀ (h h' : Heap D) (v result : Option ℕ), Ok h → clone h v = some (h', result) →
    Cloned h h' result

theorem orphan_end (ho : Ok h) : Orphan (position h) h.values.length := by
  intro n k hk
  exact Nat.lt_irrefl _ (ho.in_heap ⟨k, hk⟩)

theorem root_cloned (ho : Ok h) {data : Data D} (hd : data.Ok) (hnone : data.children = []) :
    Cloned h (json_create_root h data).1 (some (json_create_root h data).2) where
  ok := root_ok ho hd hnone
  size := by
    rw [json_create_root, json_value_new_arena, List.length_append]
    exact Nat.le_add_right _ _
  old := fun u hu => values_new (h := { h with parents := h.parents ++ [none] }) hu
  apart := by
    intro u k m hu hk
    rw [json_create_root, position_new hnone, position,
      List.getElem?_eq_none (by exact hu)] at hk
    cases hk
  fresh := by
    rintro c hc
    obtain rfl : h.values.length = c := Option.some.inj hc
    refine ⟨Nat.le_refl _, ?_, ?_⟩
    · exact lt_of_value (values_new_self (h := { h with parents := h.parents ++ [none] }))
    · rw [json_create_root, position_new hnone]
      exact orphan_end (grow_ok ho)

theorem Cloned.refl (ho : Ok h) : Cloned h h none where
  ok := ho
  size := Nat.le_refl _
  old := fun _ _ => rfl
  apart := fun hu hk => by
    rw [position, List.getElem?_eq_none hu] at hk
    cases hk
  fresh := nofun

structure Filling (base : Heap D) (copy : ℕ) (h : Heap D) : Prop where
  ok : Ok h
  old : ∀ u < base.values.length, h.values[u]? = base.values[u]?
  apart : Apart base.values.length h
  new : base.values.length ≤ copy
  inside : copy < h.values.length
  orphan : Orphan (position h) copy

section

variable {base h' : Heap D} {copy : ℕ} {clone : Heap D → Option ℕ → Option (Heap D × Option ℕ)}

theorem Cloned.filling (hc : Cloned base h (some c)) : Filling base c h :=
  have hf := hc.fresh c rfl
  ⟨hc.ok, hc.old, hc.apart, hf.1, hf.2.1, hf.2.2⟩

variable {result : Option ℕ}

theorem Filling.cloned (hf : Filling base copy h) (hr : ∀ c, result = some c → c = copy) :
    Cloned base h result where
  ok := hf.ok
  size := (hf.new.trans_lt hf.inside).le
  old := hf.old
  apart := hf.apart
  fresh := fun c hc => by
    obtain rfl := hr c hc
    exact ⟨hf.new, hf.inside, hf.orphan⟩

theorem Filling.child (hf : Filling base copy h) (hc : Cloned h h' result) :
    Filling base copy h' := by
  have hsize : base.values.length ≤ h.values.length := (hf.new.trans_lt hf.inside).le
  have hsame : ∀ {u : ℕ} (k : ℕ), u < h.values.length → position h' u k = position h u k := by
    intro u k hu
    rw [position, position, hc.old u hu]
  refine ⟨hc.ok, fun u hu => ?_, fun {u k m} hu hk => ?_, hf.new, hf.inside.trans_le hc.size, ?_⟩
  · rw [hc.old u (hu.trans_le hsize)]
    exact hf.old u hu
  · rcases Nat.lt_or_ge u h.values.length with hlt | hge
    · exact hf.apart hu (hsame k hlt ▸ hk)
    · exact hsize.trans (hc.apart hge hk)
  · intro u k hk
    rcases Nat.lt_or_ge u h.values.length with hlt | hge
    · exact hf.orphan u k (hsame k hlt ▸ hk)
    · exact Nat.not_le_of_lt hf.inside (hc.apart hge hk)

theorem Filling.add (hf : Filling base copy h) (hc : base.values.length ≤ c) (hne : c ≠ copy)
    (hs : Step h h' copy c) : Filling base copy h' where
  ok := hs.ok
  old := fun u hu => by
    rw [hs.others (hu.trans_le hf.new).ne]
    exact hf.old u hu
  apart := fun {u k m} hu hk => by
    rcases hs.edges hk with hk | ⟨-, rfl⟩
    · exact hf.apart hu hk
    · exact hc
  new := hf.new
  inside := hs.size ▸ hf.inside
  orphan := fun u k hk => by
    rcases hs.edges hk with hk | ⟨-, heq⟩
    · exact hf.orphan u k hk
    · exact hne heq.symm

def Adds (copy : ℕ) (add : ℕ → Heap D → ℕ → Heap D × Bool) : Prop :=
  ∀ (i c : ℕ) (h : Heap D), Ok h → Harmless h copy c → Step h (add i h c).1 copy c

theorem add_element_adds : Adds (D := D) copy fun _ => add_element copy :=
  fun _ _ _ ho hsafe => array_add_step .all ho hsafe

theorem add_member_adds (members : ObjectVal ℕ) : Adds (D := D) copy (add_member members copy) := by
  intro i c h ho hsafe
  rw [add_member]
  split
  · next key _ _ => exact object_add_step .all key ho hsafe
  · exact Step.refl ho copy c

theorem Filling.round (hf : Filling base copy h) {add : ℕ → Heap D → ℕ → Heap D × Bool}
    (hadd : Adds copy add) (hc : Cloned h h' (some c)) (i : ℕ) :
    Filling base copy (add i h' c).1 := by
  obtain ⟨hnew, -, horphan⟩ := hc.fresh c rfl
  have hne : c ≠ copy := (hf.inside.trans_le hnew).ne'
  exact (hf.child hc).add ((hf.new.trans_lt hf.inside).le.trans hnew) hne
    (hadd i c h' hc.ok fun _ _ _ => ⟨hne, horphan⟩)

theorem clone_children_cloned (hclone : Clones clone) {get : ℕ → Option ℕ}
    {add : ℕ → Heap D → ℕ → Heap D × Bool} (hadd : Adds copy add) (hf : Filling base copy h)
    (hr : clone_children clone get add copy rounds i h = some (h', result)) :
    Cloned base h' result := by
  induction rounds generalizing i h with
  | zero =>
    obtain ⟨rfl, rfl⟩ := Prod.mk.inj (Option.some.inj hr)
    exact hf.cloned fun c hc => (Option.some.inj hc).symm
  | succ rounds ih =>
    rw [clone_children] at hr
    split at hr
    · cases hr
    · next hone =>
      obtain ⟨rfl, rfl⟩ := Prod.mk.inj (Option.some.inj hr)
      exact (hf.child (hclone _ _ _ _ hf.ok hone)).cloned nofun
    · next c hone =>
      have hround := hf.round hadd (hclone _ _ _ _ hf.ok hone) i
      split at hr
      · next hadded =>
        rw [hadded] at hround
        exact ih hround hr
      · next hadded =>
        rw [hadded] at hround
        obtain ⟨rfl, rfl⟩ := Prod.mk.inj (Option.some.inj hr)
        exact hround.cloned nofun

end

theorem Cloned.write {h' : Heap D} {value : JsonValue D} {data : Data D} (hc : Cloned h h' (some c))
    (hv : h'.values[c]? = some value) (hd : data.Ok) (hscalar : data.holds = false)
    (hsame : value.data.children = []) : Cloned h (h'.write c data) (some c) := by
  have hchildren : data.children = value.data.children :=
    (Data.children_of_not_holds hscalar).trans hsame.symm
  obtain ⟨hnew, hlt, horphan⟩ := hc.fresh c rfl
  have hok := write_keeps hc.ok hv (fun hh => by rw [hscalar] at hh; cases hh) hd hchildren
  refine ⟨hok, ?_, fun u hu => ?_, fun hu hk => ?_, fun d hd => ?_⟩
  · rw [length_write]
    exact hc.size
  · rw [values_write hv, if_neg (hu.trans_le hnew).ne]
    exact hc.old u hu
  · rw [position_keeps hv hchildren] at hk
    exact hc.apart hu hk
  · obtain rfl := Option.some.inj hd
    rw [length_write, position_keeps hv hchildren]
    exact ⟨hnew, hlt, horphan⟩

end

section

variable {F : Doubles} {h h₀ : Heap F.double}

theorem create_number_cloned (ho : Ok h) (num : F.double) :
    Cloned h (json_create_number F h num).1 (json_create_number F h num).2 := by
  rw [json_create_number]
  split_ifs
  · exact Cloned.refl ho
  · exact root_cloned ho trivial rfl

theorem clone_number_cloned (ho : Ok h) (value : F.double) (lexeme : Option Bytes) :
    Cloned h (clone_number F h value lexeme).1 (clone_number F h value lexeme).2 := by
  have hcreate := create_number_cloned (F := F) ho value
  unfold clone_number
  split
  · next h' copy text hnew =>
    rw [hnew] at hcreate
    rw [json_create_number] at hnew
    split_ifs at hnew
    · cases hnew
    obtain ⟨rfl, hcopy⟩ := Prod.mk.inj hnew
    obtain rfl := Option.some.inj hcopy
    have hself := @values_new_self F.double { h with parents := h.parents ++ [none] } h.parents.length
      (.number value (some (F.snprintf value)))
    exact hcreate.write hself trivial rfl rfl
  · exact hcreate

theorem json_clone_clones (rounds : ℕ) : Clones (json_clone F rounds) := by
  induction rounds with
  | zero =>
    intro h h' v result ho hr
    cases v with
    | none =>
      obtain ⟨rfl, rfl⟩ := Prod.mk.inj (Option.some.inj hr)
      exact Cloned.refl ho
    | some v => cases hr
  | succ rounds ih =>
    intro h h' v result ho hr
    cases v with
    | none =>
      obtain ⟨rfl, rfl⟩ := Prod.mk.inj (Option.some.inj hr)
      exact Cloned.refl ho
    | some v =>
      rw [json_clone] at hr
      split at hr
      · obtain ⟨rfl, rfl⟩ := Prod.mk.inj (Option.some.inj hr)
        exact Cloned.refl ho
      · obtain ⟨rfl, rfl⟩ := Prod.mk.inj (Option.some.inj hr)
        exact root_cloned ho trivial rfl
      · obtain ⟨rfl, rfl⟩ := Prod.mk.inj (Option.some.inj hr)
        exact root_cloned ho trivial rfl
      · next value lexeme _ =>
        have hnumber := clone_number_cloned ho value lexeme
        rw [Option.some.inj hr] at hnumber
        exact hnumber
      · obtain ⟨rfl, rfl⟩ := Prod.mk.inj (Option.some.inj hr)
        exact root_cloned ho trivial rfl
      · have hroot : Cloned h (json_create_array h).1 (some (json_create_array h).2) :=
          root_cloned ho array_empty_ok rfl
        exact clone_children_cloned ih add_element_adds hroot.filling hr
      · next members _ =>
        have hroot : Cloned h (json_create_object h).1 (some (json_create_object h).2) :=
          root_cloned ho object_empty_ok rfl
        exact clone_children_cloned ih (add_member_adds members) hroot.filling hr

theorem clone_children_returns {D : Type} {base h : Heap D} {copy : ℕ}
    {clone : Heap D → Option ℕ → Option (Heap D × Option ℕ)} (hclone : Clones clone)
    (get : ℕ → Option ℕ) {add : ℕ → Heap D → ℕ → Heap D × Bool} (hadd : Adds copy add)
    (hreturns : ∀ (i : ℕ) (h : Heap D), Filling base copy h → (clone h (get i)).isSome)
    (hf : Filling base copy h) : (clone_children clone get add copy rounds i h).isSome := by
  induction rounds generalizing i h with
  | zero => rfl
  | succ rounds ih =>
    rw [clone_children]
    split
    · next hnone =>
      have := hreturns i h hf
      rw [hnone] at this
      exact this
    · rfl
    · next c hone =>
      have hround := hf.round hadd (hclone _ _ _ _ hf.ok hone) i
      split
      · next hadded =>
        rw [hadded] at hround
        exact ih hround
      · rfl

theorem child_of_element (ho : Ok h) {a u : ℕ} {elements : ArrayVal ℕ}
    (hv : h.values[v]? = some ⟨a, .array elements⟩) (hu : json_array_get elements i = some u) :
    child h v u := by
  rw [array_get_eq (ho.data hv)] at hu
  refine ⟨i, ?_⟩
  rw [position, hv]
  exact hu

theorem child_of_member {a u : ℕ} (hv : h.values[v]? = some ⟨a, .object members⟩)
    (hu : (object_member members i).map Prod.snd = some u) : child h v u := by
  obtain ⟨pair, hpair, rfl⟩ := Option.map_eq_some_iff.mp hu
  have hfound : ∃ k : ℕ, members.pairs[k]? = some pair := by
    rw [object_member] at hpair
    split at hpair
    · cases hpair
    · split at hpair
      · obtain ⟨k, -, hk⟩ := Option.bind_eq_some_iff.mp hpair
        exact ⟨k, hk⟩
      · exact ⟨i, hpair⟩
  obtain ⟨k, hk⟩ := hfound
  refine ⟨k, ?_⟩
  rw [position, hv, Option.bind_some, Data.children, List.getElem?_map, hk]
  rfl

theorem json_clone_returns (ho₀ : Ok h₀) {v : Option ℕ} (ho : Ok h)
    (hsize : h₀.values.length ≤ h.values.length)
    (hold : ∀ u < h₀.values.length, h.values[u]? = h₀.values[u]?)
    (hv : ∀ u, v = some u → u < h₀.values.length ∧ under (child h₀) h₀.values.length u < rounds) :
    (json_clone F rounds h v).isSome := by
  induction rounds generalizing h v with
  | zero =>
    cases v with
    | none => rfl
    | some v => exact absurd (hv v rfl).2 (Nat.not_lt_zero _)
  | succ rounds ih =>
    cases v with
    | none => rfl
    | some v =>
      obtain ⟨hlt, hrounds⟩ := hv v rfl
      have hchildren : ∀ {copy : ℕ} {get : ℕ → Option ℕ},
          (∀ i u, get i = some u → child h₀ v u) → ∀ (i : ℕ) (h' : Heap F.double),
          Filling h copy h' → (json_clone F rounds h' (get i)).isSome := by
        intro copy get hget i h' hf
        refine ih hf.ok (hsize.trans (hf.new.trans hf.inside.le)) (fun u hu => ?_) fun u hu => ?_
        · rw [hf.old u (hu.trans_le hsize), hold u hu]
        · have hchild := hget i u hu
          have hless := under_lt ho₀.acyclic hchild (ho₀.in_heap hchild)
          exact ⟨ho₀.in_heap hchild, by omega⟩
      rw [json_clone]
      split
      · rfl
      · rfl
      · rfl
      · rfl
      · rfl
      · next elements hvalue =>
        rw [hold v hlt] at hvalue
        have hroot : Cloned h (json_create_array h).1 (some (json_create_array h).2) :=
          root_cloned ho array_empty_ok rfl
        exact clone_children_returns (json_clone_clones rounds) (json_array_get elements)
          add_element_adds (hchildren fun i u hu => child_of_element ho₀ hvalue hu) hroot.filling
      · next members hvalue =>
        rw [hold v hlt] at hvalue
        have hroot : Cloned h (json_create_object h).1 (some (json_create_object h).2) :=
          root_cloned ho object_empty_ok rfl
        exact clone_children_returns (json_clone_clones rounds)
          (fun i => (object_member members i).map Prod.snd) (add_member_adds members)
          (hchildren fun i u hu => child_of_member hvalue hu) hroot.filling

theorem clone_ends (ho : Ok h) (v : ℕ) :
    (json_clone F (h.values.length + 1) h (some v)).isSome := by
  rcases Nat.lt_or_ge v h.values.length with hlt | hge
  · refine json_clone_returns ho ho (Nat.le_refl _) (fun _ _ => rfl) fun u hu => ?_
    obtain rfl := Option.some.inj hu
    exact ⟨hlt, Nat.lt_succ_of_le (under_le ..)⟩
  · rw [json_clone, List.getElem?_eq_none hge]
    rfl

theorem serialize_elements_ends {serialize : ℕ → Option Bytes} {l : List ℕ}
    (hl : ∀ c ∈ l, (serialize c).isSome) : (serialize_elements serialize l).isSome := by
  induction l with
  | nil => rfl
  | cons c l ih =>
    obtain ⟨text, htext⟩ := Option.isSome_iff_exists.mp (hl c List.mem_cons_self)
    obtain ⟨more, hmore⟩ := Option.isSome_iff_exists.mp
      (ih fun d hd => hl d (List.mem_cons_of_mem c hd))
    rw [serialize_elements, htext, hmore]
    rfl

theorem serialize_pairs_ends {serialize : ℕ → Option Bytes} {l : List (Bytes × ℕ)}
    (hl : ∀ c ∈ l.map Prod.snd, (serialize c).isSome) : (serialize_pairs serialize l).isSome := by
  induction l with
  | nil => rfl
  | cons pair l ih =>
    obtain ⟨text, htext⟩ := Option.isSome_iff_exists.mp (hl pair.2 List.mem_cons_self)
    obtain ⟨more, hmore⟩ := Option.isSome_iff_exists.mp
      (ih fun d hd => hl d (List.mem_cons_of_mem _ hd))
    rw [serialize_pairs, htext, hmore]
    rfl

theorem serialize_ends_under (ho : Ok h) (hv : v < h.values.length)
    (hr : under (child h) h.values.length v < rounds) :
    (json_serialize_value F h rounds v).isSome := by
  induction rounds generalizing v with
  | zero => exact absurd hr (Nat.not_lt_zero _)
  | succ rounds ih =>
    have hchildren : ∀ value, h.values[v]? = some value → ∀ c ∈ value.data.children,
        (json_serialize_value F h rounds c).isSome := by
      intro value hvalue c hc
      obtain ⟨k, hk⟩ := List.mem_iff_getElem?.mp hc
      have hchild : child h v c := ⟨k, by rw [position, hvalue]; exact hk⟩
      have hless := under_lt ho.acyclic hchild (ho.in_heap hchild)
      exact ih (ho.in_heap hchild) (by omega)
    rw [json_serialize_value]
    split
    · rfl
    · rfl
    · rfl
    · rfl
    · rfl
    · next elements hvalue =>
      have hends : (serialize_elements (json_serialize_value F h rounds) elements.elements).isSome :=
        serialize_elements_ends (hchildren _ hvalue)
      obtain ⟨text, htext⟩ := Option.isSome_iff_exists.mp hends
      rw [htext]
      rfl
    · next members hvalue =>
      have hends : (serialize_pairs (json_serialize_value F h rounds) members.pairs).isSome :=
        serialize_pairs_ends (hchildren _ hvalue)
      obtain ⟨text, htext⟩ := Option.isSome_iff_exists.mp hends
      rw [htext]
      rfl

theorem serialize_ends (ho : Ok h) (v : ℕ) :
    (json_serialize_value F h (h.values.length + 1) v).isSome := by
  rcases Nat.lt_or_ge v h.values.length with hlt | hge
  · exact serialize_ends_under ho hlt (Nat.lt_succ_of_le (under_le ..))
  · rw [json_serialize_value, List.getElem?_eq_none hge]
    rfl

def Call.Harmless (h : Heap F.double) : Call F → Prop
  | .object_add _ obj _ val => Building.Harmless h obj val
  | .array_add _ arr val => Building.Harmless h arr val
  | _ => True

def Call.Improper (h : Heap F.double) : Call F → Prop
  | .object_add _ obj _ val => Building.Improper h obj val
  | .array_add _ arr val => Building.Improper h arr val
  | _ => False

/-- The heaps of the runs all of whose calls are allowed. -/
inductive Run (F : Doubles) (allowed : Heap F.double → Call F → Prop) : Heap F.double → Prop
  | start : Run F allowed .empty
  | call {h h' : Heap F.double} {c : Call F} {rounds : ℕ} {success : Bool} :
      Run F allowed h → allowed h c → step rounds h c = some (h', success) → Run F allowed h'

/-- Every value is a finite tree, which is copied and written, and what would make it none is
refused. -/
structure Trees (allowed : Heap F.double → Call F → Prop) (h : Heap F.double) : Prop where
  one_parent : Exclusive (position h)
  acyclic : ∀ v, ¬ Relation.TransGen (child h) v v
  cloned : ∀ v, (json_clone F (h.values.length + 1) h (some v)).isSome
  serialized : ∀ v, (json_serialize_value F h (h.values.length + 1) v).isSome
  refused : ∀ (c : Call F) (rounds : ℕ), allowed h c → c.Improper h →
    step rounds h c = some (h, false)

theorem step_ok (ho : Ok h) {h' : Heap F.double} {c : Call F} {success : Bool} (hc : c.Harmless h)
    (hs : step rounds h c = some (h', success)) : Ok h' := by
  cases c with
  | create_object => exact (Prod.mk.inj (Option.some.inj hs)).1 ▸ root_ok ho object_empty_ok rfl
  | create_array => exact (Prod.mk.inj (Option.some.inj hs)).1 ▸ root_ok ho array_empty_ok rfl
  | create_string => exact (Prod.mk.inj (Option.some.inj hs)).1 ▸ root_ok ho trivial rfl
  | create_number num =>
    exact (Prod.mk.inj (Option.some.inj hs)).1 ▸ (create_number_cloned ho num).ok
  | create_int64 => exact (Prod.mk.inj (Option.some.inj hs)).1 ▸ root_ok ho trivial rfl
  | create_uint64 => exact (Prod.mk.inj (Option.some.inj hs)).1 ▸ root_ok ho trivial rfl
  | create_bool => exact (Prod.mk.inj (Option.some.inj hs)).1 ▸ root_ok ho trivial rfl
  | create_null => exact (Prod.mk.inj (Option.some.inj hs)).1 ▸ root_ok ho trivial rfl
  | clone v =>
    obtain ⟨⟨copied, result⟩, hcopy, hresult⟩ := Option.map_eq_some_iff.mp hs
    obtain ⟨rfl, -⟩ := Prod.mk.inj hresult
    exact (json_clone_clones rounds _ _ _ _ ho hcopy).ok
  | object_add alloc obj key val =>
    have hstep := object_add_step alloc key ho hc
    rw [Option.some.inj hs] at hstep
    exact hstep.ok
  | array_add alloc arr val =>
    have hstep := array_add_step alloc ho hc
    rw [Option.some.inj hs] at hstep
    exact hstep.ok
  | set_string alloc obj key val =>
    exact (Prod.mk.inj (Option.some.inj hs)).1 ▸ object_set_ok alloc ho obj key trivial rfl
  | set_number alloc obj key val =>
    exact (Prod.mk.inj (Option.some.inj hs)).1 ▸ object_set_ok alloc ho obj key trivial rfl
  | set_bool alloc obj key val =>
    exact (Prod.mk.inj (Option.some.inj hs)).1 ▸ object_set_ok alloc ho obj key trivial rfl
  | set_null alloc obj key =>
    exact (Prod.mk.inj (Option.some.inj hs)).1 ▸ object_set_ok alloc ho obj key trivial rfl

theorem run_ok (hr : Run F (fun h c => c.Harmless h) h) : Ok h := by
  induction hr with
  | start => exact empty_ok
  | call _ hc hs ih => exact step_ok ih hc hs

theorem step_refused (ho : Ok h) {c : Call F} (rounds : ℕ) (hc : c.Harmless h)
    (himp : c.Improper h) : step rounds h c = some (h, false) := by
  cases c with
  | object_add alloc obj key val => exact congrArg some (object_add_refused alloc key ho hc himp)
  | array_add alloc arr val => exact congrArg some (array_add_refused alloc ho hc himp)
  | _ => exact himp.elim

/-- In a run of harmless calls the documents are trees. -/
theorem harmless_trees {F : Doubles} {h : Heap F.double}
    (hr : Run F (fun h c => c.Harmless h) h) : Trees (fun h c => c.Harmless h) h where
  one_parent := (run_ok hr).exclusive
  acyclic := (run_ok hr).acyclic
  cloned := clone_ends (run_ok hr)
  serialized := serialize_ends (run_ok hr)
  refused := fun _ rounds hc himp => step_refused (run_ok hr) rounds hc himp

/-- The numbers of documents that have none. -/
def no_doubles : Doubles := ⟨Unit, fun _ => (), fun _ => [], fun _ => []⟩

def array_and_null : Heap no_doubles.double := (json_create_null (json_create_array .empty).1).1

theorem array_and_null_orphan : Orphan (position array_and_null) 1 := by
  intro n k hk
  rcases n with _ | _ | n
  · cases hk
  · cases hk
  · cases hk

theorem harmless_trees_one :
    Trees (fun h c => c.Harmless h) (json_array_add_checked .all array_and_null 0 1).1 :=
  harmless_trees (@Run.call no_doubles _ _ _ (.array_add .all 0 1) 0 _
    (@Run.call no_doubles _ _ _ .create_null 0 _
      (@Run.call no_doubles _ _ _ .create_array 0 _ .start trivial rfl) trivial rfl)
    (fun _ _ _ => ⟨by decide, array_and_null_orphan⟩) rfl)

/-- An array is added to itself. -/
theorem added_to_itself : ¬ ∀ h : Heap no_doubles.double, Run no_doubles (fun _ _ => True) h →
    Trees (fun _ _ => True) h := by
  intro hall
  have hrun : Run no_doubles (fun _ _ => True)
      (json_array_add_checked .all (json_create_array (.empty : Heap no_doubles.double)).1 0 0).1 :=
    @Run.call no_doubles _ _ _ (.array_add .all 0 0) 0 _
      (@Run.call no_doubles _ _ _ .create_array 0 _ .start trivial rfl) trivial rfl
  exact (hall _ hrun).acyclic 0 (.single ⟨0, rfl⟩)

end

end SaltsUtils.Json.Building
