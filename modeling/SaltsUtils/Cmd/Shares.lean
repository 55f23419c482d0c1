import Mathlib.Data.List.Forall2
import Mathlib.Data.List.Nodup
import SaltsUtils.Cmd.Parser

/-!
# Shares of required descriptors

The positional arguments are meant to be split between the required descriptors: a single
value takes one and a list as many as it has room for. A list that is reached from a full
one takes only one.
-/

set_option autoImplicit false

namespace SaltsUtils.Cmd

def Desc.capacity (desc : Desc) : ℕ := desc.is_list.getD 1

/-- A list is left before it is full only when the arguments are used up. -/
inductive Split : List Desc → List Bytes → List (List Bytes) → Prop
  | nil : Split [] [] []
  | cons {desc : Desc} {descs : List Desc} {run rest : List Bytes} {runs : List (List Bytes)}
      (hne : run ≠ []) (hle : run.length ≤ desc.capacity)
      (hfull : run.length = desc.capacity ∨ rest = []) (h : Split descs rest runs) :
      Split (desc :: descs) (run ++ rest) (run :: runs)

def room (descs : List Desc) : ℕ := (descs.map Desc.capacity).sum

@[simp] theorem room_nil : room [] = 0 := rfl

@[simp] theorem room_cons (desc : Desc) (descs : List Desc) :
    room (desc :: descs) = desc.capacity + room descs := by
  simp [room]

@[simp] theorem room_append (descs descs' : List Desc) :
    room (descs ++ descs') = room descs + room descs' := by
  simp [room]

theorem Split.length_le {descs : List Desc} {args : List Bytes} {runs : List (List Bytes)}
    (h : Split descs args runs) : args.length ≤ room descs := by
  induction h with
  | nil => exact Nat.le_refl 0
  | cons hne hle hfull h ih =>
    rw [List.length_append, room_cons]
    exact Nat.add_le_add hle ih

theorem Split.ne_nil {desc : Desc} {descs : List Desc} {args : List Bytes}
    {runs : List (List Bytes)} (h : Split (desc :: descs) args runs) : args ≠ [] := by
  cases h with
  | cons hne => simp [hne]

theorem Split.lt_length {descs behind : List Desc} {args : List Bytes}
    {runs : List (List Bytes)} (h : Split (descs ++ behind) args runs) (hb : behind ≠ []) :
    room descs < args.length := by
  induction descs generalizing args runs with
  | nil =>
    cases behind with
    | nil => exact absurd rfl hb
    | cons d behind => exact List.length_pos_iff.2 h.ne_nil
  | cons desc descs ih =>
    cases h with
    | @cons _ _ run rest runs hne hle hfull h =>
      have hlt := ih h
      have hrest : rest ≠ [] := List.ne_nil_of_length_pos (by omega)
      have hlen := hfull.resolve_right hrest
      rw [List.length_append, room_cons]
      omega

theorem exists_split {descs : List Desc} (hd : ∀ desc ∈ descs, 0 < desc.capacity)
    {args : List Bytes} (hl : args.length = room descs) : ∃ runs, Split descs args runs := by
  induction descs generalizing args with
  | nil => exact ⟨[], List.eq_nil_of_length_eq_zero hl ▸ .nil⟩
  | cons desc descs ih =>
    have hpos := hd desc List.mem_cons_self
    rw [room_cons] at hl
    have htake : (args.take desc.capacity).length = desc.capacity := by
      rw [List.length_take]
      omega
    obtain ⟨runs, hr⟩ := @ih (fun d h => hd d (List.mem_cons_of_mem _ h))
      (args.drop desc.capacity) (by rw [List.length_drop]; omega)
    refine ⟨args.take desc.capacity :: runs, ?_⟩
    rw [← List.take_append_drop desc.capacity args]
    have hne : args.take desc.capacity ≠ [] := List.ne_nil_of_length_pos (by omega)
    simpa using Split.cons hne (Nat.le_of_eq htake) (.inl htake) hr

/-- Shares of descriptors that the parser has left behind. -/
inductive Closed : List Desc → List (List Bytes) → Prop
  | nil : Closed [] []
  | single {desc : Desc} {descs : List Desc} {runs : List (List Bytes)} (value : Bytes)
      (hs : desc.is_list = none) (h : Closed descs runs) : Closed (desc :: descs) ([value] :: runs)
  | handed {full desc : Desc} {descs : List Desc} {run : List Bytes} {runs : List (List Bytes)}
      {max_count : ℕ} (value : Bytes) (hl : full.is_list = some max_count)
      (hf : run.length = max_count) (h : Closed descs runs) :
      Closed (full :: desc :: descs) (run :: [value] :: runs)

/-- Among `n` arguments, a list that is reached from a full one has room for one only or
takes the last. -/
def Steady : List Desc → ℕ → Prop
  | desc :: behind :: descs, n =>
    match desc.is_list with
    | none => Steady (behind :: descs) (n - 1)
    | some max_count =>
      (behind.capacity = 1 ∨ n ≤ max_count + 1) ∧ Steady descs (n - max_count - 1)
  | _, _ => True

example : Steady [] 1 := by simp [Steady]

theorem steady_short {descs : List Desc} (hs : descs.length ≤ 1) (n : ℕ) : Steady descs n := by
  match descs with
  | [] => simp [Steady]
  | [_] => simp [Steady]
  | _ :: _ :: _ => simp at hs

theorem steady_single {desc : Desc} (hs : desc.is_list = none) (descs : List Desc) (n : ℕ) :
    Steady (desc :: descs) (n + 1) ↔ Steady descs n := by
  cases descs with
  | nil => simp [Steady]
  | cons behind descs => simp [Steady, hs]

variable {max_count : ℕ}

theorem steady_full {full desc : Desc} (hl : full.is_list = some max_count) (descs : List Desc)
    (n : ℕ) : Steady (full :: desc :: descs) (max_count + (n + 1)) ↔
      (desc.capacity = 1 ∨ n = 0) ∧ Steady descs n := by
  rw [Steady, hl]
  have hn : max_count + (n + 1) - max_count - 1 = n := by omega
  have hle : max_count + (n + 1) ≤ max_count + 1 ↔ n = 0 := by omega
  simp only [hn, hle]

theorem capacity_single {desc : Desc} (hs : desc.is_list = none) : desc.capacity = 1 := by
  rw [Desc.capacity, hs]
  rfl

theorem capacity_list {desc : Desc} (hl : desc.is_list = some max_count) :
    desc.capacity = max_count := by
  rw [Desc.capacity, hl]
  rfl

theorem Closed.append {descs descs' : List Desc} {runs runs' : List (List Bytes)}
    (h : Closed descs runs) (h' : Closed descs' runs') : Closed (descs ++ descs') (runs ++ runs') := by
  induction h with
  | nil => exact h'
  | single value hs h ih => exact .single value hs ih
  | handed value hl hf h ih => exact .handed value hl hf ih

theorem Closed.le_room {descs : List Desc} {runs : List (List Bytes)} (h : Closed descs runs)
    (hd : ∀ desc ∈ descs, 0 < desc.capacity) : runs.flatten.length ≤ room descs := by
  induction h with
  | nil => exact Nat.le_refl 0
  | single value hs h ih =>
    have := ih fun d hm => hd d (List.mem_cons_of_mem _ hm)
    simp only [List.flatten_cons, List.length_append, List.length_singleton, room_cons,
      capacity_single hs]
    omega
  | @handed full desc descs run runs max_count value hl hf h ih =>
    have := ih fun d hm => hd d (List.mem_cons_of_mem _ (List.mem_cons_of_mem _ hm))
    have := hd desc (by simp)
    simp only [List.flatten_cons, List.length_append, List.length_singleton, room_cons,
      capacity_list hl, hf]
    omega

/-- Nothing is lost when the lists are steady: the shares make up a split with what the
other descriptors take. -/
theorem Closed.split {descs behind : List Desc} {runs runs' : List (List Bytes)}
    {rest : List Bytes} (h : Closed descs runs) (hd : ∀ desc ∈ descs, 0 < desc.capacity)
    (hs : Steady (descs ++ behind) (runs.flatten.length + rest.length))
    (hb : Split behind rest runs') :
    Split (descs ++ behind) (runs.flatten ++ rest) (runs ++ runs') := by
  induction h with
  | nil => simpa using hb
  | @single desc descs runs value hl h ih =>
    have hn : ([value] :: runs).flatten.length + rest.length =
        runs.flatten.length + rest.length + 1 := by
      simp only [List.flatten_cons, List.length_append, List.length_singleton]
      omega
    rw [List.cons_append, hn, steady_single hl] at hs
    have hsplit := ih (fun d hm => hd d (List.mem_cons_of_mem _ hm)) hs
    have hcap := capacity_single hl
    simpa using @Split.cons _ _ [value] _ _ (by simp) (by simp [hcap]) (.inl (by simp [hcap])) hsplit
  | @handed full desc descs run runs max_count value hl hf h ih =>
    have hn : (run :: [value] :: runs).flatten.length + rest.length =
        max_count + (runs.flatten.length + rest.length + 1) := by
      simp only [List.flatten_cons, List.length_append, List.length_singleton, hf]
      omega
    rw [List.cons_append, List.cons_append, hn, steady_full hl] at hs
    have hpos := hd desc (by simp)
    have hcap := capacity_list hl
    have hrun : run ≠ [] := by
      have := hd full (by simp)
      exact List.ne_nil_of_length_pos (by omega)
    have hsplit := ih (fun d hm => hd d (List.mem_cons_of_mem _ (List.mem_cons_of_mem _ hm))) hs.2
    have hlast : [value].length = desc.capacity ∨ runs.flatten ++ rest = [] :=
      hs.1.imp Eq.symm fun h0 => by
        rw [← List.length_eq_zero_iff, List.length_append]
        exact h0
    have hone := @Split.cons _ _ [value] _ _ (by simp) hpos hlast hsplit
    simpa using Split.cons hrun (by omega) (.inl (by omega)) hone

theorem Closed.steady_of_split {descs behind : List Desc} {runs last runs' : List (List Bytes)}
    {args : List Bytes} (h : Closed descs runs) (hb : behind.length ≤ 1)
    (hs : Split (descs ++ behind) args runs')
    (hlen : List.Forall₂ (fun run run' => run.length = run'.length) (runs ++ last) runs') :
    Steady (descs ++ behind) args.length := by
  induction h generalizing args runs' with
  | nil => exact steady_short hb _
  | @single desc descs runs value hl h ih =>
    cases hs with
    | @cons _ _ run rest runs' hne hle hfull hs =>
      obtain _ | ⟨hrun, hlen⟩ := hlen
      have hn : (run ++ rest).length = rest.length + 1 := by
        rw [List.length_append, ← hrun, List.length_singleton, Nat.add_comm]
      rw [hn, List.cons_append, steady_single hl]
      exact ih hs hlen
  | @handed full desc descs run runs max_count value hl hf h ih =>
    cases hs with
    | @cons _ _ run₁ rest runs' _ _ _ hs =>
      cases hs with
      | @cons _ _ run₂ rest runs' _ _ hlast hs =>
        obtain _ | ⟨hrun₁, _ | ⟨hrun₂, hlen⟩⟩ := hlen
        have hn : (run₁ ++ (run₂ ++ rest)).length = max_count + (rest.length + 1) := by
          rw [List.length_append, List.length_append, ← hrun₁, ← hrun₂, hf, List.length_singleton]
          omega
        rw [hn, List.cons_append, List.cons_append, steady_full hl]
        refine ⟨hlast.imp (fun hc => ?_) fun hr => by rw [hr]; rfl, ih hs hlen⟩
        rw [← hc, ← hrun₂]
        rfl

/-- Another argument is behind the shares: they fill their descriptors exactly when the
lists are steady. -/
theorem Closed.full_iff {descs behind : List Desc} {runs : List (List Bytes)} (h : Closed descs runs)
    (hd : ∀ desc ∈ descs, 0 < desc.capacity) (hb : behind.length ≤ 1) (n : ℕ) :
    Steady (descs ++ behind) (runs.flatten.length + (n + 1)) ↔ runs.flatten.length = room descs := by
  induction h with
  | nil => simp [steady_short hb]
  | @single desc descs runs value hl h ih =>
    have hn : ([value] :: runs).flatten.length + (n + 1) =
        runs.flatten.length + (n + 1) + 1 := by
      simp only [List.flatten_cons, List.length_append, List.length_singleton]
      omega
    rw [List.cons_append, hn, steady_single hl, ih fun d hm => hd d (List.mem_cons_of_mem _ hm)]
    simp only [List.flatten_cons, List.length_append, List.length_singleton, room_cons,
      capacity_single hl]
    omega
  | @handed full desc descs run runs max_count value hl hf h ih =>
    have htail : ∀ d ∈ descs, 0 < d.capacity :=
      fun d hm => hd d (List.mem_cons_of_mem _ (List.mem_cons_of_mem _ hm))
    have hn : (run :: [value] :: runs).flatten.length + (n + 1) =
        max_count + (runs.flatten.length + (n + 1) + 1) := by
      simp only [List.flatten_cons, List.length_append, List.length_singleton, hf]
      omega
    have hpos := hd desc (by simp)
    have hle := h.le_room htail
    rw [List.cons_append, List.cons_append, hn, steady_full hl, ih htail]
    simp only [List.flatten_cons, List.length_append, List.length_singleton, room_cons,
      capacity_list hl, hf]
    omega

section
variable {F : Type} (p : Platform F)

/-- What a descriptor has when these arguments are its share. -/
def Holds (outs : Outs F) (desc : Desc) (run : List Bytes) : Prop :=
  match desc.is_list with
  | some _ => outs desc.value_out = .list run
  | none => ∃ value, run = [value] ∧ ∀ before : Outs F,
      apply_value p before desc value = some (before.set desc.value_out (outs desc.value_out))

/-- A list that has no items yet. -/
def Empty (outs : Outs F) (desc : Desc) : Prop :=
  desc.is_list.isSome → (outs desc.value_out).items = []

variable {p} {outs outs' : Outs F} {desc : Desc} {value : Bytes}

theorem set_same (place : ℕ) (x : Out F) : outs.set place x place = x := if_pos rfl

variable {place : ℕ}

theorem set_other {place' : ℕ} (h : place' ≠ place) (x : Out F) :
    outs.set place x place' = outs place' := if_neg h

theorem apply_value_single (hl : desc.is_list = none) (hf : desc.is_flag = false)
    (h : apply_value p outs desc value = some outs') :
    ∃ x, outs' = outs.set desc.value_out x ∧
      ∀ before : Outs F, apply_value p before desc value = some (before.set desc.value_out x) := by
  unfold apply_value at h ⊢
  split at h
  · cases h
  · next hv =>
    simp only [if_neg hv]
    cases hk : desc.kind with
    | flag => simp [Desc.is_flag, hk] at hf
    | string_list max_count => simp [Desc.is_list, hk] at hl
    | string choices =>
      simp only [hk, Option.ite_none_right_eq_some] at h
      exact ⟨_, (Option.some.inj h.2).symm, fun before => if_pos h.1⟩
    | integer =>
      simp only [hk, Option.ite_none_right_eq_some] at h
      exact ⟨_, (Option.some.inj h.2).symm, fun before => if_pos h.1⟩
    | float =>
      simp only [hk, Option.ite_none_right_eq_some] at h
      exact ⟨_, (Option.some.inj h.2).symm, fun before => if_pos h.1⟩
    | enum descs =>
      simp only [hk, Option.map_eq_some_iff] at h
      obtain ⟨d, hd, rfl⟩ := h
      exact ⟨_, rfl, fun before => by simp only [hd, Option.map_some]⟩

theorem apply_value_list (hl : desc.is_list = some max_count)
    (hlt : (outs desc.value_out).items.length < max_count)
    (h : apply_value p outs desc value = some outs') :
    outs' = outs.set desc.value_out (.list ((outs desc.value_out).items ++ [value])) := by
  unfold apply_value at h
  split at h
  · cases h
  · cases hk : desc.kind <;> simp only [Desc.is_list, hk, reduceCtorEq, Option.some.injEq] at hl
    subst hl
    simp only [hk, if_pos hlt, Option.some.injEq] at h
    exact h.symm

theorem apply_value_other (h : apply_value p outs desc value = some outs')
    (hp : desc.value_out ≠ place) : outs' place = outs place := by
  unfold apply_value at h
  split at h
  · cases h
  · cases hk : desc.kind with
    | flag =>
      simp only [hk, Option.some.injEq] at h
      rw [h]
    | string choices =>
      simp only [hk, Option.ite_none_right_eq_some, Option.some.injEq] at h
      rw [← h.2, set_other hp.symm]
    | integer =>
      simp only [hk, Option.ite_none_right_eq_some, Option.some.injEq] at h
      rw [← h.2, set_other hp.symm]
    | float =>
      simp only [hk, Option.ite_none_right_eq_some, Option.some.injEq] at h
      rw [← h.2, set_other hp.symm]
    | enum descs =>
      simp only [hk, Option.map_eq_some_iff] at h
      obtain ⟨d, hd, rfl⟩ := h
      rw [set_other hp.symm]
    | string_list max_count =>
      simp only [hk] at h
      split at h
      · cases h
        rw [set_other hp.symm]
      · cases h
        rfl

theorem apply_env_var_other (hp : desc.value_out ≠ place) :
    apply_env_var p outs desc place = outs place := by
  unfold apply_env_var
  cases desc.env_var.bind p.getenv with
  | none => rfl
  | some value =>
    cases desc.kind with
    | flag => exact set_other hp.symm _
    | string choices => exact set_other hp.symm _
    | integer =>
      simp only
      split
      · exact set_other hp.symm _
      · rfl
    | float =>
      simp only
      split
      · exact set_other hp.symm _
      · rfl
    | enum descs => rfl
    | string_list max_count => rfl

theorem apply_env_vars_other {args : List Desc} (hp : ∀ d ∈ args, d.value_out ≠ place) :
    apply_env_vars p outs args place = outs place := by
  induction args generalizing outs with
  | nil => rfl
  | cons d args ih =>
    rw [apply_env_vars, List.foldl_cons]
    exact (ih fun d' h => hp d' (List.mem_cons_of_mem _ h)).trans
      (apply_env_var_other (hp d List.mem_cons_self))

theorem Holds.congr {run : List Bytes} (h : Holds p outs desc run)
    (ho : outs' desc.value_out = outs desc.value_out) : Holds p outs' desc run := by
  unfold Holds at h ⊢
  rw [ho]
  exact h

theorem Holds.length_eq {run run' : List Bytes} (h : Holds p outs desc run)
    (h' : Holds p outs desc run') : run.length = run'.length := by
  unfold Holds at h h'
  cases hl : desc.is_list with
  | some max_count =>
    simp only [hl] at h h'
    rw [h, Out.list.injEq] at h'
    rw [h']
  | none =>
    simp only [hl] at h h'
    obtain ⟨v, rfl, -⟩ := h
    obtain ⟨v', rfl, -⟩ := h'
    rfl

theorem forall₂_length_eq {descs : List Desc} {runs runs' : List (List Bytes)}
    (h : List.Forall₂ (Holds p outs) descs runs) (h' : List.Forall₂ (Holds p outs) descs runs') :
    List.Forall₂ (fun run run' => run.length = run'.length) runs runs' := by
  induction h generalizing runs' with
  | nil =>
    cases h'
    exact .nil
  | cons hd h ih =>
    obtain _ | ⟨hd', h'⟩ := h'
    exact .cons (hd.length_eq hd') (ih h')

theorem Empty.congr (h : Empty outs desc) (ho : outs' desc.value_out = outs desc.value_out) :
    Empty outs' desc := fun hl => by rw [ho]; exact h hl

def filling (outs : Outs F) : List Desc → List Bytes
  | [] => []
  | desc :: _ => if desc.is_list.isSome then (outs desc.value_out).items else []

theorem filling_congr {tail : List Desc}
    (ho : ∀ d ∈ tail, outs' d.value_out = outs d.value_out) : filling outs' tail =
      filling outs tail := by
  cases tail with
  | nil => rfl
  | cons d tail => rw [filling, filling, ho d List.mem_cons_self]

theorem filling_empty {tail : List Desc} (h : ∀ d ∈ tail, Empty outs d) : filling outs tail = [] := by
  cases tail with
  | nil => rfl
  | cons d tail =>
    rw [filling]
    split
    · next hl => exact h d List.mem_cons_self hl
    · rfl

theorem filling_list (hl : desc.is_list = some max_count) (tail : List Desc) :
    filling outs (desc :: tail) = (outs desc.value_out).items := by
  rw [filling, hl]
  exact if_pos rfl

theorem holds_filling {tail : List Desc} (h : filling outs (desc :: tail) ≠ []) :
    Holds p outs desc (filling outs (desc :: tail)) := by
  rw [filling] at h ⊢
  split at h
  · next hl =>
    rw [if_pos hl]
    obtain ⟨m, hm⟩ := Option.isSome_iff_exists.1 hl
    rw [Holds, hm]
    cases ho : outs desc.value_out with
    | list items => rfl
    | _ => exact absurd (by rw [ho]; rfl) h
  · exact absurd rfl h

theorem holds_all_congr {descs : List Desc} {runs : List (List Bytes)}
    (h : List.Forall₂ (Holds p outs) descs runs)
    (ho : ∀ d ∈ descs, outs' d.value_out = outs d.value_out) :
    List.Forall₂ (Holds p outs') descs runs :=
  ((List.forall₂_and_left descs runs).2 ⟨fun _ hd => hd, h⟩).imp fun d _ hr =>
    hr.2.congr (ho d hr.1)

/-- What the descriptors have after some arguments: `done` are left behind, and the first
of `tail` is the next to take one. -/
structure Shared (p : Platform F) (outs : Outs F) (done tail : List Desc)
    (runs : List (List Bytes)) : Prop where
  closed : Closed done runs
  holds : List.Forall₂ (Holds p outs) done runs
  le : ∀ desc ∈ tail.head?, (filling outs tail).length ≤ desc.capacity
  fresh : ∀ desc ∈ tail.tail, Empty outs desc

variable {done tail : List Desc} {runs : List (List Bytes)}

theorem Shared.congr (h : Shared p outs done tail runs)
    (ho : ∀ d ∈ done ++ tail, outs' d.value_out = outs d.value_out) :
    Shared p outs' done tail runs where
  closed := h.closed
  holds := holds_all_congr h.holds fun d hd => ho d (List.mem_append_left _ hd)
  le := by
    rw [filling_congr fun d hd => ho d (List.mem_append_right _ hd)]
    exact h.le
  fresh := fun d hd =>
    (h.fresh d hd).congr (ho d (List.mem_append_right _ (List.mem_of_mem_tail hd)))

theorem places_apart {behind : List Desc}
    (hn : ((done ++ desc :: behind).map Desc.value_out).Nodup) :
    ∀ d ∈ done ++ behind, desc.value_out ≠ d.value_out := by
  rw [List.map_append, List.map_cons, List.nodup_middle, List.nodup_cons, ← List.map_append] at hn
  exact fun d hd he => hn.1 (he ▸ List.mem_map_of_mem hd)

theorem holds_apply (hf : desc.is_flag = false) (hc : 0 < desc.capacity) (he : Empty outs desc)
    (h : apply_value p outs desc value = some outs') : Holds p outs' desc [value] := by
  unfold Holds
  cases hl : desc.is_list with
  | some max_count =>
    have hitems := he (by rw [hl]; rfl)
    rw [capacity_list hl] at hc
    rw [apply_value_list hl (by rw [hitems]; exact hc) h, hitems]
    exact set_same _ _
  | none =>
    obtain ⟨x, rfl, hx⟩ := apply_value_single hl hf h
    exact ⟨value, rfl, fun before => by rw [set_same]; exact hx before⟩

theorem Shared.single {behind : List Desc} (h : Shared p outs done (desc :: behind) runs)
    (hn : ((done ++ desc :: behind).map Desc.value_out).Nodup) (hl : desc.is_list = none)
    (hf : desc.is_flag = false) (ha : apply_value p outs desc value = some outs') :
    Shared p outs' (done ++ [desc]) behind (runs ++ [[value]]) ∧ filling outs' behind = [] := by
  have hother : ∀ d ∈ done ++ behind, outs' d.value_out = outs d.value_out :=
    fun d hd => apply_value_other ha (places_apart hn d hd)
  have hempty : ∀ d ∈ behind, Empty outs' d :=
    fun d hd => (h.fresh d hd).congr (hother d (List.mem_append_right _ hd))
  have hone : Holds p outs' desc [value] :=
    holds_apply hf (by rw [capacity_single hl]; exact Nat.one_pos) (fun hs => by simp [hl] at hs) ha
  have hdone := holds_all_congr h.holds fun d hd => hother d (List.mem_append_left _ hd)
  refine ⟨⟨h.closed.append (.single value hl .nil), ?_, ?_, ?_⟩, filling_empty hempty⟩
  · exact List.rel_append hdone (.cons hone .nil)
  · rw [filling_empty hempty]
    exact fun _ _ => Nat.zero_le _
  · exact fun d hd => hempty d (List.mem_of_mem_tail hd)

theorem Shared.fill {behind : List Desc} (h : Shared p outs done (desc :: behind) runs)
    (hn : ((done ++ desc :: behind).map Desc.value_out).Nodup) (hl : desc.is_list = some max_count)
    (hlt : (outs desc.value_out).items.length < max_count)
    (ha : apply_value p outs desc value = some outs') : Shared p outs' done (desc :: behind) runs ∧
      filling outs' (desc :: behind) = filling outs (desc :: behind) ++ [value] := by
  have hother : ∀ d ∈ done ++ behind, outs' d.value_out = outs d.value_out :=
    fun d hd => apply_value_other ha (places_apart hn d hd)
  have hfill : filling outs' (desc :: behind) = filling outs (desc :: behind) ++ [value] := by
    rw [filling_list hl, filling_list hl, apply_value_list hl hlt ha, set_same]
    rfl
  refine ⟨⟨h.closed, ?_, ?_, ?_⟩, hfill⟩
  · exact holds_all_congr h.holds fun d hd => hother d (List.mem_append_left _ hd)
  · rintro d hd
    obtain rfl : desc = d := Option.some.inj hd
    rw [hfill, filling_list hl, capacity_list hl, List.length_append]
    exact hlt
  · exact fun d hd => (h.fresh d hd).congr (hother d (List.mem_append_right _ hd))

theorem Shared.hand {full : Desc} {behind : List Desc}
    (h : Shared p outs done (full :: desc :: behind) runs)
    (hn : ((done ++ full :: desc :: behind).map Desc.value_out).Nodup)
    (hl : full.is_list = some max_count) (hpos : 0 < max_count)
    (hfull : ¬ (outs full.value_out).items.length < max_count) (hf : desc.is_flag = false)
    (hc : 0 < desc.capacity) (ha : apply_value p outs desc value = some outs') :
    Shared p outs' (done ++ [full, desc]) behind
        (runs ++ [filling outs (full :: desc :: behind), [value]]) ∧
      filling outs' behind = [] := by
  have hn' : (((done ++ [full]) ++ desc :: behind).map Desc.value_out).Nodup := by
    rw [List.append_assoc]
    exact hn
  have hother : ∀ d ∈ (done ++ [full]) ++ behind, outs' d.value_out = outs d.value_out :=
    fun d hd => apply_value_other ha (places_apart hn' d hd)
  have hempty : ∀ d ∈ behind, Empty outs' d := fun d hd =>
    (h.fresh d (List.mem_cons_of_mem _ hd)).congr (hother d (List.mem_append_right _ hd))
  have hlen : (filling outs (full :: desc :: behind)).length = max_count := by
    have hle := h.le full rfl
    rw [capacity_list hl] at hle
    rw [filling_list hl] at hle ⊢
    omega
  have hitems : Holds p outs' full (filling outs (full :: desc :: behind)) :=
    (holds_filling (List.ne_nil_of_length_pos (by omega))).congr (hother full (by simp))
  have hone : Holds p outs' desc [value] := holds_apply hf hc (h.fresh desc (by simp)) ha
  have hdone := holds_all_congr h.holds fun d hd => hother d (by simp [hd])
  refine ⟨⟨h.closed.append (.handed value hl hlen .nil), ?_, ?_, ?_⟩, filling_empty hempty⟩
  · exact List.rel_append hdone (.cons hitems (.cons hone .nil))
  · rw [filling_empty hempty]
    exact fun _ _ => Nat.zero_le _
  · exact fun d hd => hempty d (List.mem_of_mem_tail hd)

end

end SaltsUtils.Cmd
