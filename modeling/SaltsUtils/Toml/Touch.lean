import SaltsUtils.Toml.Landing

/-!
# What a statement adds to

The keys of a path are followed as far as there are tables for them, and the table that
is come to is given what is new. Every other array and table keeps its members.
-/

set_option autoImplicit false

namespace SaltsUtils.Toml

open Owners Heap

section

/-- The table that the keys lead to as far as they do, and the keys that are left. -/
def joint (h : Heap) : ℕ → List Token → ℕ × List Token
  | t, [] => (t, [])
  | t, key :: keys =>
    match h.check_key t (normalize_key key) with
    | some (.table next) => joint h next keys
    | _ => (t, key :: keys)

example (h : Heap) (t : ℕ) : joint h t [] = (t, []) := by rw [joint]

/-- The table that is given a member, or the array that is given an item. -/
def adds_to (ctx : Ctx) : Statement → Option Obj
  | .key_val P _ => some (.table (joint ctx.heap ctx.current_table P.record).1)
  | .table_def P =>
    match joint ctx.heap root P.record with
    | (_, []) => none
    | (t, _) => some (.table t)
  | .array_def P =>
    match joint ctx.heap root P.record with
    | (_, []) => none
    | (t, [key]) =>
      match ctx.heap.check_key t (normalize_key key) with
      | some (.array a) => some (.array a)
      | _ => some (.table t)
    | (t, _) => some (.table t)
  | .newline => none

def Table.members (tbl : Table) : List (Bytes × ℕ) × List (Bytes × ℕ) × List (Bytes × ℕ) :=
  (tbl.kval, tbl.arr, tbl.tbl)

def Same (h h' : Heap) : Obj → Prop
  | .keyval p => h'.keyvals[p]? = h.keyvals[p]?
  | .array p => h'.arrays[p]? = h.arrays[p]?
  | .table p => h'.tables[p]?.map Table.members = h.tables[p]?.map Table.members

theorem Same.refl (h : Heap) (m : Obj) : Same h h m := by
  cases m <;> exact rfl

variable {h' : Heap}

theorem Same.trans {h h'' : Heap} {m : Obj} (hs : Same h h' m) (hs' : Same h' h'' m) :
    Same h h'' m := by
  cases m with
  | keyval p => exact Eq.trans hs' hs
  | array p => exact Eq.trans hs' hs
  | table p => exact Eq.trans hs' hs

theorem Same.edge {h : Heap} {m : Obj} (hs : Same h h' m) (s : Step) :
    h'.edge m s = h.edge m s := by
  cases m with
  | keyval p => rfl
  | array p =>
    cases s with
    | key key => rfl
    | index i =>
      have hs : h'.arrays[p]? = h.arrays[p]? := hs
      rw [edge_array, edge_array, hs]
  | table p =>
    cases s with
    | index i => rfl
    | key key =>
      have hs : h'.tables[p]?.map Table.members = h.tables[p]?.map Table.members := hs
      have hmap : ∀ o : Option Table, o.bind (fun tbl => tbl.check_key key) =
          (o.map Table.members).bind fun m =>
            Table.check_key ⟨false, false, m.1, m.2.1, m.2.2⟩ key := by
        intro o
        cases o <;> rfl
      rw [edge_table, edge_table, hmap, hmap, hs]

variable {t : ℕ}

section
variable {h : Heap} {m : Obj}

theorem same_new_table (r i : Bool) (hm : h.Has m) : Same h (h.new_table r i) m := by
  cases m with
  | keyval p => rfl
  | array p => rfl
  | table p =>
    change Option.map _ (h.tables ++ [_])[p]? = _
    rw [List.getElem?_append_left hm]

theorem same_new_array (hm : h.Has m) : Same h h.new_array m := by
  cases m with
  | keyval p => rfl
  | array p => exact List.getElem?_append_left hm
  | table p => rfl

theorem same_new_keyval (val : Bytes) (hm : h.Has m) : Same h (h.new_keyval val) m := by
  cases m with
  | keyval p => exact List.getElem?_append_left hm
  | array p => rfl
  | table p => rfl

theorem same_link (key : Bytes) (o : Obj) (hm : m ≠ .table t) : Same h (h.link t key o) m := by
  cases m with
  | keyval p => rfl
  | array p => rfl
  | table p =>
    have hp : ¬ t = p := fun he => hm (he ▸ rfl)
    change Option.map _ (h.tables.modify t _)[p]? = _
    rw [List.getElem?_modify]
    simp [hp]

theorem same_append_item {a : ℕ} (item : Item) (hm : m ≠ .array a) :
    Same h (h.append_item a item) m := by
  cases m with
  | keyval p => rfl
  | array p =>
    have hp : ¬ a = p := fun he => hm (he ▸ rfl)
    change (h.arrays.modify a _)[p]? = _
    rw [List.getElem?_modify]
    simp [hp]
  | table p => rfl

theorem same_set_explicit (t : ℕ) : Same h (h.set_explicit t) m := by
  cases m with
  | keyval p => rfl
  | array p => rfl
  | table p =>
    change Option.map _ (h.tables.modify t _)[p]? = _
    rw [List.getElem?_modify]
    by_cases hp : t = p <;> cases h.tables[p]? <;> simp [hp, Table.members]

end

theorem joint_found (h : Heap) (t : ℕ) (keys : List Token) :
    ∃ taken, keys = taken ++ (joint h t keys).2 ∧
      follow h.edge (.table t) (taken.map step) = some (.table (joint h t keys).1) := by
  induction keys generalizing t with
  | nil => exact ⟨[], rfl, rfl⟩
  | cons key keys ih =>
    rw [joint]
    split
    · next next he =>
      obtain ⟨taken, hk, hf⟩ := ih next
      refine ⟨key :: taken, congrArg (key :: ·) hk, ?_⟩
      have he : h.edge (.table t) (step key) = some (.table next) := he
      rw [List.map_cons, follow, he]
      exact hf
    · exact ⟨[], rfl, rfl⟩

theorem joint_inside (h : Heap) (t : ℕ) (keys : List Token) :
    Inside h.edge (.table t) (.table (joint h t keys).1) := by
  obtain ⟨taken, -, hf⟩ := joint_found h t keys
  exact ⟨_, hf⟩

theorem joint_append (h : Heap) (t : ℕ) (keys : List Token) (key : Token) :
    joint h t (keys ++ [key]) =
      if (joint h t keys).2 = [] then joint h (joint h t keys).1 [key]
      else ((joint h t keys).1, (joint h t keys).2 ++ [key]) := by
  induction keys generalizing t with
  | nil => rfl
  | cons k keys ih =>
    rw [List.cons_append, joint, joint]
    split
    · exact ih _
    · rfl

theorem joint_free {h : Heap} {key : Token} (hk : h.check_key t (normalize_key key) = none) :
    joint h t [key] = (t, [key]) := by
  rw [joint, hk]

theorem joint_congr {h : Heap} (hs : h.Sound) (he : ∀ m, h.Has m → ∀ s, h'.edge m s = h.edge m s)
    (ht : h.Has (.table t)) (keys : List Token) : joint h' t keys = joint h t keys := by
  induction keys generalizing t with
  | nil => rfl
  | cons key keys ih =>
    have hkey : h'.check_key t (normalize_key key) = h.check_key t (normalize_key key) :=
      he (.table t) ht (step key)
    rw [joint, joint, hkey]
    split
    · next next hn =>
      have hn : h.edge (.table t) (step key) = some (.table next) := hn
      exact ih (hs.closed hn)
    · rfl

theorem joint_blank {h : Heap} (ht : ∀ s, h.edge (.table t) s = none) (keys : List Token) :
    joint h t keys = (t, keys) := by
  cases keys with
  | nil => rfl
  | cons key keys =>
    have hk : h.check_key t (normalize_key key) = none := ht (step key)
    rw [joint, hk]

theorem Linked.blank {h : Heap} {t' : ℕ} {key : Bytes} (hl : Linked h t key (.table t') h')
    (ht : h.Has (.table t)) (s : Step) : h'.edge (.table t') s = none := by
  rw [hl.edge]
  have hne : ¬ (Obj.table t' = .table t ∧ s = .key key) := fun he => hl.new (he.1 ▸ ht)
  refine (if_neg hne).trans ?_
  cases he : h.edge (.table t') s with
  | none => rfl
  | some o => exact absurd (has_owner he) hl.new

theorem walk_joint {keys : List Token} {h : Heap} {curr : ℕ} (hs : h.Sound)
    (hc : h.Has (.table curr)) (hw : toml_helper_walk_path h curr keys = some (h', t)) :
    joint h curr keys = (t, []) ∧ h' = h ∨
      (joint h curr keys).2 ≠ [] ∧ ¬ h.Has (.table t) ∧ ∀ s, h'.edge (.table t) s = none := by
  induction keys generalizing h curr with
  | nil =>
    cases hw
    exact .inl ⟨rfl, rfl⟩
  | cons key keys ih =>
    rw [toml_helper_walk_path] at hw
    rw [joint]
    cases he : h.check_key curr (normalize_key key) with
    | none =>
      rw [he] at hw
      have hl := linked_new_table hs false true hc he
      right
      refine ⟨List.cons_ne_nil _ _, ?_⟩
      rcases ih hl.sound hl.has hw with ⟨hj, rfl⟩ | ⟨-, hn, he'⟩
      · rw [joint_blank (hl.blank hc)] at hj
        cases hj
        exact ⟨hl.new, hl.blank hc⟩
      · exact ⟨fun ht => hn (hl.kept.has ht), he'⟩
    | some o =>
      rw [he] at hw
      cases o with
      | keyval p => cases hw
      | array p => cases hw
      | table next =>
        have hedge : h.edge (.table curr) (step key) = some (.table next) := he
        exact ih hs (hs.closed hedge) hw

theorem walk_same {keys : List Token} {h : Heap} {curr : ℕ} {m : Obj} (hs : h.Sound)
    (hc : h.Has (.table curr)) (hw : toml_helper_walk_path h curr keys = some (h', t))
    (hm : h.Has m) (hne : m ≠ .table (joint h curr keys).1) : Same h h' m := by
  induction keys generalizing h curr with
  | nil =>
    cases hw
    exact Same.refl _ m
  | cons key keys ih =>
    rw [toml_helper_walk_path] at hw
    rw [joint] at hne
    cases he : h.check_key curr (normalize_key key) with
    | none =>
      rw [he] at hw hne
      have hl := linked_new_table hs false true hc he
      have hnew : m ≠ .table h.tables.length := fun he => hl.new (he ▸ hm)
      refine ((same_new_table false true hm).trans (same_link _ _ hne)).trans
        (ih hl.sound hl.has hw (hl.kept.has hm) ?_)
      rw [joint_blank (hl.blank hc)]
      exact hnew
    | some o =>
      rw [he] at hw hne
      cases o with
      | keyval p => cases hw
      | array p => cases hw
      | table next =>
        have hedge : h.edge (.table curr) (step key) = some (.table next) := he
        exact ih hs (hs.closed hedge) hw hm hne

variable {path : Path}

theorem member_same {h h₁ h₂ : Heap} {parent : ℕ} {o m : Obj} (hs : h.Sound)
    (hp : h.Has (.table parent)) (hw : toml_helper_walk_path h parent path.before = some (h₁, t))
    (hk : ∀ m, h₁.Has m → Same h₁ h₂ m) (ha : add_member h₂ t path.last o = some h') (hm : h.Has m)
    (hne : m ≠ .table (joint h parent path.record).1) : Same h h' m := by
  have w := walk_path_walked hs hp hw
  unfold add_member at ha
  split at ha
  · cases ha
  · next hfree =>
    obtain rfl := Option.some.inj ha
    rw [path_record, joint_append] at hne
    rcases walk_joint hs hp hw with ⟨hj, rfl⟩ | ⟨hj, hn, -⟩
    · rw [hj, if_pos rfl] at hne
      have hfree : h₁.check_key t (normalize_key path.last) = none :=
        ((hk _ w.has).edge (step path.last)).symm.trans hfree
      rw [joint_free hfree] at hne
      exact (hk m hm).trans (same_link _ _ hne)
    · rw [if_neg hj] at hne
      have hnt : m ≠ .table t := fun he => hn (he ▸ hm)
      exact (walk_same hs hp hw hm hne).trans
        ((hk m (w.kept.has hm)).trans (same_link _ _ hnt))

variable {v : Val}

theorem add_any_same {h : Heap} {parent : ℕ} {m : Obj} (hs : h.Sound) (hp : h.Has (.table parent))
    (ha : toml_helper_add_any h parent path v = some h') (hm : h.Has m)
    (hne : m ≠ .table (joint h parent path.record).1) : Same h h' m := by
  cases v with
  | simple tok =>
    obtain ⟨⟨h₁, t⟩, hw, ha⟩ := Option.bind_eq_some_iff.mp ha
    exact member_same hs hp hw (fun _ => same_new_keyval _) ha hm hne
  | array p =>
    obtain ⟨⟨h₁, t⟩, hw, ha⟩ := Option.bind_eq_some_iff.mp ha
    exact member_same hs hp hw (fun m _ => Same.refl h₁ m) ha hm hne
  | table p =>
    obtain ⟨⟨h₁, t⟩, hw, ha⟩ := Option.bind_eq_some_iff.mp ha
    exact member_same hs hp hw (fun m _ => Same.refl h₁ m) ha hm hne

theorem append_same {h : Heap} {a : ℕ} {m : Obj} (hne : m ≠ .array a) :
    Same h (array_append h a v) m := by
  cases v <;> exact same_append_item _ hne

theorem Built.add_same {h h₁ h₂ : Heap} {m : Obj} (hb : Built h (.table t) h₁)
    (ha : toml_helper_add_any h₁ t path v = some h₂) (hm : h.Has m) : Same h₁ h₂ m := by
  refine add_any_same hb.sound hb.loose.has ha (hb.kept.has hm) fun he => ?_
  exact hb.apart.outside hb.new (joint_inside h₁ t path.record) (he ▸ hm)

end

mutual

theorem any_value_same {h h' : Heap} {v : Val} (hs : h.Sound) {m : Obj} (hm : h.Has m) :
    (V : Value) → any_value h V = some (h', v) → Same h h' m
  | .simple T, hv => by
    cases hv
    exact Same.refl h m
  | .empty_array, hv => by
    cases hv
    exact same_new_array hm
  | .array L comma, hv => by
    obtain ⟨⟨h₁, a⟩, hl, he⟩ := Option.bind_eq_some_iff.mp hv
    cases he
    exact array_list_same hs hm L hl
  | .empty_table, hv => by
    cases hv
    exact same_new_table true false hm
  | .inline_table L comma, hv => by
    obtain ⟨⟨h₁, t⟩, hl, he⟩ := Option.bind_eq_some_iff.mp hv
    cases he
    exact inline_list_same hs hm L hl

theorem array_list_same {h h' : Heap} {a : ℕ} (hs : h.Sound) {m : Obj} (hm : h.Has m) :
    (L : ArrayList) → array_list h L = some (h', a) → Same h h' m
  | .one V, hl => by
    obtain ⟨⟨h₁, v⟩, hv, he⟩ := Option.bind_eq_some_iff.mp hl
    cases he
    have hb := any_value_built hs V hv
    have hn : ¬ h.Has (.array h₁.arrays.length) := hb.array_made.new
    have hne : m ≠ .array h₁.arrays.length := fun he => hn (he ▸ hm)
    exact (any_value_same hs hm V hv).trans
      ((same_new_array (hb.kept.has hm)).trans (append_same hne))
  | .append L V, hl => by
    obtain ⟨⟨h₁, a⟩, hl₁, hl'⟩ := Option.bind_eq_some_iff.mp hl
    obtain ⟨⟨h₂, v⟩, hv, he⟩ := Option.bind_eq_some_iff.mp hl'
    cases he
    have hb := array_list_built hs L hl₁
    have hn : ¬ h.Has (.array a) := hb.new
    have hne : m ≠ .array a := fun he => hn (he ▸ hm)
    exact ((array_list_same hs hm L hl₁).trans
      (any_value_same hb.sound (hb.kept.has hm) V hv)).trans (append_same hne)

theorem inline_list_same {h h' : Heap} {t : ℕ} (hs : h.Sound) {m : Obj} (hm : h.Has m) :
    (L : InlineList) → inline_list h L = some (h', t) → Same h h' m
  | .one P V, hl => by
    obtain ⟨⟨h₁, v⟩, hv, hl'⟩ := Option.bind_eq_some_iff.mp hl
    obtain ⟨h₂, ha, he⟩ := Option.bind_eq_some_iff.mp hl'
    cases he
    have hb := any_value_built hs V hv
    exact (any_value_same hs hm V hv).trans ((same_new_table _ _ (hb.kept.has hm)).trans
      ((hb.table_made true false).add_same ha hm))
  | .append L P V, hl => by
    obtain ⟨⟨h₁, t⟩, hl₁, hl'⟩ := Option.bind_eq_some_iff.mp hl
    obtain ⟨⟨h₂, v⟩, hv, hl''⟩ := Option.bind_eq_some_iff.mp hl'
    obtain ⟨h₃, ha, he⟩ := Option.bind_eq_some_iff.mp hl''
    cases he
    have hb := inline_list_built hs L hl₁
    have hb' := any_value_built hb.sound V hv
    exact ((inline_list_same hs hm L hl₁).trans
      (any_value_same hb.sound (hb.kept.has hm) V hv)).trans
        ((hb.later hb'.sound hb'.kept hb'.apart).add_same ha hm)

end

theorem append_table_same {h : Heap} {a : ℕ} {m : Obj} (hm : h.Has m) (hne : m ≠ .array a) :
    Same h (append_table h a).1 m :=
  (same_new_table false false hm).trans (same_append_item _ hne)

theorem table_def_same {ctx ctx' : Ctx} {P : Path} {m : Obj} (hs : ctx.heap.Sound)
    (hd : statement ctx (.table_def P) = some ctx') (hm : ctx.heap.Has m)
    (hne : adds_to ctx (.table_def P) ≠ some m) : Same ctx.heap ctx'.heap m := by
  obtain ⟨⟨h₁, parent⟩, hw, hd⟩ := Option.bind_eq_some_iff.mp hd
  obtain ⟨⟨h₂, t⟩, hc, hd⟩ := Option.bind_eq_some_iff.mp hd
  obtain rfl := Option.some.inj hd
  have w := walk_path_walked hs hs.has_root hw
  rw [adds_to, path_record, joint_append] at hne
  rw [toml_helper_create_table, if_neg Bool.false_ne_true] at hc
  rcases walk_joint hs hs.has_root hw with ⟨hj, rfl⟩ | ⟨hj, hn, hb⟩
  · rw [hj, if_pos rfl] at hne
    simp only at hne
    cases hk : ctx.heap.check_key parent (normalize_key P.last) with
    | none =>
      rw [hk] at hc
      rw [joint_free hk] at hne
      cases hc
      exact (same_new_table false false hm).trans (same_link _ _ fun he => hne (he ▸ rfl))
    | some o =>
      rw [hk] at hc
      cases o with
      | keyval p => cases hc
      | array p => cases hc
      | table t' =>
        simp only at hc
        split at hc
        · cases hc
          exact same_set_explicit _
        · cases hc
  · rw [if_neg hj] at hne
    have hk : h₁.check_key parent (normalize_key P.last) = none := hb (step P.last)
    rw [hk] at hc
    cases hc
    have hnt : m ≠ .table parent := fun he => hn (he ▸ hm)
    refine (walk_same hs hs.has_root hw hm fun he => hne ?_).trans
      ((same_new_table false false (w.kept.has hm)).trans (same_link _ _ hnt))
    rw [he]
    cases hr : (joint ctx.heap root P.before).2 with
    | nil => exact absurd hr hj
    | cons key keys => rfl

theorem array_def_same {ctx ctx' : Ctx} {P : Path} {m : Obj} (hs : ctx.heap.Sound)
    (hd : statement ctx (.array_def P) = some ctx') (hm : ctx.heap.Has m)
    (hne : adds_to ctx (.array_def P) ≠ some m) : Same ctx.heap ctx'.heap m := by
  obtain ⟨⟨h₁, parent⟩, hw, hd⟩ := Option.bind_eq_some_iff.mp hd
  obtain ⟨⟨h₂, t⟩, hc, hd⟩ := Option.bind_eq_some_iff.mp hd
  obtain rfl := Option.some.inj hd
  have w := walk_path_walked hs hs.has_root hw
  rw [adds_to, path_record, joint_append] at hne
  rw [toml_helper_create_table, if_pos rfl] at hc
  rcases walk_joint hs hs.has_root hw with ⟨hj, rfl⟩ | ⟨hj, hn, hb⟩
  · rw [hj, if_pos rfl] at hne
    simp only at hne
    cases hk : ctx.heap.check_key parent (normalize_key P.last) with
    | none =>
      rw [hk] at hc
      rw [joint_free hk] at hne
      simp only [hk] at hne
      cases hc
      have hna : m ≠ .array ctx.heap.arrays.length := fun he => by
        rw [he] at hm
        exact Nat.lt_irrefl _ hm
      have hlink := (same_new_array hm).trans
        (same_link (normalize_key P.last) (.array ctx.heap.arrays.length) fun he => hne (he ▸ rfl))
      exact hlink.trans (append_table_same ((has_link _ _ _).mpr (has_new_array hm)) hna)
    | some o =>
      rw [hk] at hc
      cases o with
      | keyval p => cases hc
      | table p => cases hc
      | array a =>
        have hj : joint ctx.heap parent [P.last] = (parent, [P.last]) := by rw [joint, hk]
        rw [hj] at hne
        simp only [hk] at hne
        cases hc
        exact append_table_same hm fun he => hne (he ▸ rfl)
  · rw [if_neg hj] at hne
    have hk : h₁.check_key parent (normalize_key P.last) = none := hb (step P.last)
    rw [hk] at hc
    cases hc
    have hnt : m ≠ .table parent := fun he => hn (he ▸ hm)
    have hm₁ := w.kept.has hm
    have hna : m ≠ .array h₁.arrays.length := fun he => by
      rw [he] at hm₁
      exact Nat.lt_irrefl _ hm₁
    have hlink := (same_new_array hm₁).trans
      (same_link (normalize_key P.last) (.array h₁.arrays.length) hnt)
    refine (walk_same hs hs.has_root hw hm fun he => hne ?_).trans
      (hlink.trans (append_table_same ((has_link _ _ _).mpr (has_new_array hm₁)) hna))
    rw [he]
    cases hr : (joint ctx.heap root P.before).2 with
    | nil => exact absurd hr hj
    | cons key keys =>
      cases keys <;> rfl

theorem key_val_same {ctx ctx' : Ctx} {H : Header} {P : Path} {V : Value} {m : Obj}
    (hr : Ready ctx H) (hk : statement ctx (.key_val P V) = some ctx') (hm : ctx.heap.Has m)
    (hne : adds_to ctx (.key_val P V) ≠ some m) : Same ctx.heap ctx'.heap m := by
  obtain ⟨h, v, hv, hb, ha, -, -⟩ := key_val_added hr hk
  refine (any_value_same hr.sound hm V hv).trans
    (add_any_same hb.sound (hb.kept.has hr.has) ha (hb.kept.has hm) fun he => hne ?_)
  rw [adds_to, he, joint_congr hr.sound (fun n hn s => hb.apart.same s hn) hr.has]

theorem statement_same {ctx ctx' : Ctx} {H : Header} {S : Statement} {m : Obj} (hr : Ready ctx H)
    (hs : statement ctx S = some ctx') (hm : ctx.heap.Has m) (hne : adds_to ctx S ≠ some m) :
    Same ctx.heap ctx'.heap m := by
  cases S with
  | table_def P => exact table_def_same hr.sound hs hm hne
  | array_def P => exact array_def_same hr.sound hs hm hne
  | key_val P V => exact key_val_same hr hs hm hne
  | newline =>
    cases hs
    exact Same.refl _ m

end SaltsUtils.Toml
