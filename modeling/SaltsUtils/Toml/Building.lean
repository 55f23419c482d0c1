import SaltsUtils.Toml.Shape

/-!
# What the helpers build

A walk finds or makes the tables on its path, and an assignment puts its object at the end
of the path.
-/

set_option autoImplicit false

namespace SaltsUtils.Toml

open Owners Heap

section

def step (tok : Token) : Step := .key (normalize_key tok)

structure Linked (h : Heap) (t : ℕ) (key : Bytes) (o : Obj) (h' : Heap) : Prop where
  sound : h'.Sound
  kept : Kept h h'
  edge : h'.edge = attach h.edge (.table t) (.key key) o
  has : h'.Has o
  new : ¬ h.Has o

theorem Loose.of_new {h h' : Heap} {o : Obj} (hs : h.Sound) (he : h'.edge = h.edge)
    (hn : ¬ h.Has o) (ho : h'.Has o) : h'.Loose o where
  has := ho
  orphan := he ▸ hs.orphan hn
  not_root := fun hr => hn (hr ▸ hs.has_root)

variable {t : ℕ} {key : Bytes}

theorem linked_of_new {h h' : Heap} {o : Obj} (hs : h.Sound) (hs' : h'.Sound) (hk : Kept h h')
    (he : h'.edge = h.edge) (ht : h.Has (.table t)) (hfree : h.check_key t key = none)
    (hn : ¬ h.Has o) (ho : h'.Has o) : Linked h t key o (h'.link t key o) := by
  have hfree' : h'.check_key t key = none := by
    have := congrFun (congrFun he (.table t)) (.key key)
    exact this.trans hfree
  have hl := Loose.of_new hs he hn ho
  have hedge : (h'.link t key o).edge = attach h.edge (.table t) (.key key) o := by
    rw [edge_link (hk.has ht) hfree', he]
  have hg := grown_link o (hk.has ht) hfree'
  refine ⟨hs'.link (hk.has ht) hfree' hl, ⟨hk.toGrown.trans hg, fun hm hom => ?_⟩, hedge,
    (has_link t key o).mpr ho, hn⟩
  rw [hedge]
  exact hom.attach (fun hmo => hn (hmo ▸ hm))

theorem linked_new_table {h : Heap} (hs : h.Sound) (r i : Bool) (ht : h.Has (.table t))
    (hfree : h.check_key t key = none) : Linked h t key (.table h.tables.length)
      ((h.new_table r i).link t key (.table h.tables.length)) :=
  linked_of_new hs (hs.new_table r i) (kept_new_table r i) (edge_new_table r i) ht hfree
    (Nat.lt_irrefl _) (by simp [Has, new_table])

theorem linked_new_array {h : Heap} (hs : h.Sound) (ht : h.Has (.table t))
    (hfree : h.check_key t key = none) :
    Linked h t key (.array h.arrays.length) (h.new_array.link t key (.array h.arrays.length)) :=
  linked_of_new hs hs.new_array kept_new_array edge_new_array ht hfree
    (Nat.lt_irrefl _) (by simp [Has, new_array])

theorem Linked.apart {h h' : Heap} {o : Obj} (hl : Linked h t key o h') {old : Obj → Prop}
    {e : Obj → Step → Option Obj} (ha : Apart old e h.edge) (hold : ∀ {o : Obj}, old o → h.Has o)
    (ht : ¬ old (.table t)) : Apart old e h'.edge := by
  rw [hl.edge]
  exact ha.attach ht (fun ho => hl.new (hold ho))

structure Walked (h : Heap) (curr : ℕ) (keys : List Token) (h' : Heap) (t : ℕ) : Prop where
  sound : h'.Sound
  kept : Kept h h'
  has : h'.Has (.table t)
  keyvals : h'.keyvals = h.keyvals
  found : follow h'.edge (.table curr) (keys.map step) = some (.table t)
  apart : ∀ {old : Obj → Prop} {e : Obj → Step → Option Obj}, Apart old e h.edge →
    (∀ {o : Obj}, old o → h.Has o) → ¬ old (.table curr) →
    Apart old e h'.edge ∧ ¬ old (.table t)

theorem walk_path_walked {keys : List Token} {h h' : Heap} {curr : ℕ} (hs : h.Sound)
    (hc : h.Has (.table curr)) (hw : toml_helper_walk_path h curr keys = some (h', t)) :
    Walked h curr keys h' t := by
  induction keys generalizing h curr with
  | nil =>
    cases hw
    exact ⟨hs, Kept.refl, hc, rfl, rfl, fun ha _ hn => ⟨ha, hn⟩⟩
  | cons key keys ih =>
    rw [toml_helper_walk_path] at hw
    split at hw
    · next next he =>
      have hedge : h.edge (.table curr) (step key) = some (.table next) := he
      have w := ih hs (hs.closed hedge) hw
      refine ⟨w.sound, w.kept, w.has, w.keyvals, ?_, fun ha hold hn => ?_⟩
      · rw [List.map_cons, follow, w.kept.edges hedge]
        exact w.found
      · exact w.apart ha hold (ha.fresh hn hedge)
    · cases hw
    · next he =>
      have hl := linked_new_table hs false true hc he
      have w := ih hl.sound hl.has hw
      have hnext : h'.edge (.table curr) (step key) = some (.table h.tables.length) := by
        refine w.kept.edges ?_
        rw [hl.edge]
        exact attach_self
      refine ⟨w.sound, hl.kept.trans w.kept, w.has, w.keyvals, ?_, fun ha hold hn => ?_⟩
      · rw [List.map_cons, follow, hnext]
        exact w.found
      · exact w.apart (hl.apart ha hold hn) (fun ho => hl.kept.has (hold ho))
          (fun ho => hl.new (hold ho))

def Val.stored (h : Heap) : Val → Obj
  | .simple _ => .keyval h.keyvals.length
  | .array p => .array p
  | .table p => .table p

/-- The arrays and tables of a value may be attached. -/
def Val.Loose (h : Heap) : Val → Prop
  | .simple _ => True
  | .array p => h.Loose (.array p)
  | .table p => h.Loose (.table p)

/-- An object stands at the end of a path. -/
structure Added (h : Heap) (parent : ℕ) (path : Path) (o : Obj) (h' : Heap) : Prop where
  sound : h'.Sound
  grown : Grown h h'
  has : h'.Has o
  found : follow h'.edge (.table parent) (path.record.map step) = some o
  orphans : ∀ {m : Obj}, h.Has m → Orphan h.edge m → m ≠ o → Orphan h'.edge m
  apart : ∀ {old : Obj → Prop} {e : Obj → Step → Option Obj}, Apart old e h.edge →
    (∀ {m : Obj}, old m → h.Has m) → ¬ old (.table parent) → ¬ old o → Apart old e h'.edge

theorem path_record (path : Path) : path.record = path.before ++ [path.last] :=
  (List.dropLast_append_getLast path.record_ne_nil).symm

variable {parent : ℕ} {path : Path}

/-- The object is linked in `h₂`, which is what the walk left but for the edgeless
objects made since. -/
theorem member_added {h h₁ h₂ h' : Heap} {o : Obj} (w : Walked h parent path.before h₁ t)
    (hs : h₂.Sound) (hk : Kept h₁ h₂) (he : h₂.edge = h₁.edge) (ho : h₂.Loose o)
    (ha : add_member h₂ t path.last o = some h') : Added h parent path o h' := by
  unfold add_member at ha
  split at ha
  · cases ha
  · next hfree =>
    obtain rfl := Option.some.inj ha
    have ht := hk.has w.has
    have hg := grown_link o ht hfree
    have hedge := edge_link (o := o) ht hfree
    refine ⟨hs.link ht hfree ho, w.kept.toGrown.trans (hk.toGrown.trans hg),
      hg.has ho.has, ?_, fun hm hom hne => ?_, fun hap hold hp hno => ?_⟩
    · rw [path_record, List.map_append, follow_append,
        Grows.follow hg.edges (Grows.follow hk.edges w.found), hedge]
      simp only [Option.bind_some, List.map_cons, List.map_nil, follow]
      rw [step, attach_self]
      rfl
    · rw [hedge]
      exact (hk.orphans (w.kept.has hm) (w.kept.orphans hm hom)).attach hne
    · obtain ⟨hap, hnt⟩ := w.apart hap hold hp
      rw [hedge, he]
      exact hap.attach hnt hno

theorem Heap.Loose.kept {h h' : Heap} {o : Obj} (hl : h.Loose o) (hk : Kept h h') : h'.Loose o :=
  ⟨hk.has hl.has, hk.orphans hl.has hl.orphan, hl.not_root⟩

variable {v : Val}

theorem add_any_added {h h' : Heap} (hs : h.Sound) (hp : h.Has (.table parent)) (hv : v.Loose h)
    (ha : toml_helper_add_any h parent path v = some h') : Added h parent path (v.stored h) h' := by
  cases v with
  | simple tok =>
    obtain ⟨⟨h₁, t⟩, hw, ha⟩ := Option.bind_eq_some_iff.mp ha
    have w := walk_path_walked hs hp hw
    have hl : (h₁.new_keyval (cstring tok.value)).Loose (.keyval h₁.keyvals.length) :=
      Loose.of_new w.sound rfl (Nat.lt_irrefl _) (by simp [Has, new_keyval])
    rw [Val.stored, ← w.keyvals]
    exact member_added w (w.sound.new_keyval _) (kept_new_keyval _) rfl hl ha
  | array p =>
    obtain ⟨⟨h₁, t⟩, hw, ha⟩ := Option.bind_eq_some_iff.mp ha
    have w := walk_path_walked hs hp hw
    exact member_added w w.sound Kept.refl rfl (hv.kept w.kept) ha
  | table p =>
    obtain ⟨⟨h₁, t⟩, hw, ha⟩ := Option.bind_eq_some_iff.mp ha
    have w := walk_path_walked hs hp hw
    exact member_added w w.sound Kept.refl rfl (hv.kept w.kept) ha

theorem add_any_text {h h' : Heap} {tok : Token} (hs : h.Sound) (hp : h.Has (.table parent))
    (ha : toml_helper_add_any h parent path (.simple tok) = some h') :
    h'.keyvals[h.keyvals.length]? = some (cstring tok.value) := by
  obtain ⟨⟨h₁, t⟩, hw, ha⟩ := Option.bind_eq_some_iff.mp ha
  have w := walk_path_walked hs hp hw
  replace ha : add_member (h₁.new_keyval (cstring tok.value)) t path.last
    (.keyval h₁.keyvals.length) = some h' := ha
  unfold add_member at ha
  split at ha
  · cases ha
  · obtain rfl := Option.some.inj ha
    rw [← w.keyvals]
    exact List.getElem?_concat_length

/-- A value has been built: nothing that was there before has changed or has it. -/
structure Built (h : Heap) (v : Val) (h' : Heap) : Prop where
  sound : h'.Sound
  kept : Kept h h'
  apart : Apart h.Has h.edge h'.edge
  loose : v.Loose h'
  new : ¬ h.Has (v.stored h')

theorem apart_self (h : Heap) : Apart h.Has h.edge h.edge where
  same := fun _ _ => rfl
  fresh := fun hn he => absurd (has_owner he) hn

theorem Val.Loose.kept {h h' : Heap} (hv : v.Loose h) (hk : Kept h h') : v.Loose h' := by
  cases v with
  | simple tok => trivial
  | array p => exact Heap.Loose.kept hv hk
  | table p => exact Heap.Loose.kept hv hk

theorem Val.Loose.ne_array {h h' : Heap} (hv : v.Loose h) :
    Obj.array h.arrays.length ≠ v.stored h' := by
  cases v with
  | simple tok => exact fun he => Obj.noConfusion he
  | array p =>
    intro he
    exact (ne_of_lt hv.has) (Obj.array.inj he).symm
  | table p => exact fun he => Obj.noConfusion he

theorem Val.Loose.ne_table {h h' : Heap} (hv : v.Loose h) :
    Obj.table h.tables.length ≠ v.stored h' := by
  cases v with
  | simple tok => exact fun he => Obj.noConfusion he
  | array p => exact fun he => Obj.noConfusion he
  | table p =>
    intro he
    exact (ne_of_lt hv.has) (Obj.table.inj he).symm

theorem Val.new_later {h h₁ h₂ : Heap} (hk : Grown h₁ h₂) (hn : ¬ h.Has (v.stored h₁)) :
    ¬ h.Has (v.stored h₂) := by
  cases v with
  | simple tok =>
    have hle : h₁.keyvals.length ≤ h₂.keyvals.length := hk.texts.length_le
    simp only [stored, Has] at hn ⊢
    omega
  | array p => exact hn
  | table p => exact hn

namespace Built
variable {h h₁ h₂ h' : Heap}

theorem later (hb : Built h v h₁) (hs : h₂.Sound) (hk : Kept h₁ h₂)
    (ha : Apart h₁.Has h₁.edge h₂.edge) : Built h v h₂ :=
  ⟨hs, hb.kept.trans hk, hb.apart.trans ha (fun _ ho => hb.kept.has ho), hb.loose.kept hk,
    Val.new_later hk.toGrown hb.new⟩

theorem simple (tok : Token) (hs : h.Sound) : Built h (.simple tok) h :=
  ⟨hs, Kept.refl, apart_self h, trivial, Nat.lt_irrefl _⟩

variable {w : Val}

theorem made (hb : Built h v h₁) (hs : h₂.Sound) (hk : Kept h₁ h₂) (he : h₂.edge = h₁.edge)
    (hw : w.Loose h₂) (hn : ¬ h₁.Has (w.stored h₂)) : Built h w h₂ where
  sound := hs
  kept := hb.kept.trans hk
  apart := he ▸ hb.apart
  loose := hw
  new := fun ho => hn (hb.kept.has ho)

theorem array_made (hb : Built h v h₁) : Built h (.array h₁.arrays.length) h₁.new_array :=
  hb.made hb.sound.new_array kept_new_array edge_new_array
    (Loose.of_new hb.sound edge_new_array (Nat.lt_irrefl _) (by simp [Has, Heap.new_array]))
    (Nat.lt_irrefl _)

theorem table_made (hb : Built h v h₁) (r i : Bool) :
    Built h (.table h₁.tables.length) (h₁.new_table r i) :=
  hb.made (hb.sound.new_table r i) (kept_new_table r i) (edge_new_table r i)
    (Loose.of_new hb.sound (edge_new_table r i) (Nat.lt_irrefl _) (by simp [Has, Heap.new_table]))
    (Nat.lt_irrefl _)

theorem item_appended {a : ℕ} {item : Item} {o : Obj} (hb : Built h (.array a) h₁)
    (hi : item.obj? = some o) (ho : h₁.Loose o) (hn : ¬ h.Has o) (hne : Obj.array a ≠ o) :
    Built h (.array a) (h₁.append_item a item) := by
  have ha : h₁.Has (.array a) := hb.loose.has
  have hedge := edge_append_item ha hi
  have hg := grown_append_item ha hi
  have horphan : ∀ {m : Obj}, Orphan h₁.edge m → m ≠ o → Orphan (h₁.append_item a item).edge m := by
    intro m hm hmo
    rw [hedge]
    exact hm.attach hmo
  refine ⟨hb.sound.append_item ha hi ho, ⟨hb.kept.toGrown.trans hg, fun hm hom => ?_⟩, ?_,
    ⟨hg.has ha, horphan hb.loose.orphan hne, hb.loose.not_root⟩, hb.new⟩
  · exact horphan (hb.kept.orphans hm hom) (fun hmo => hn (hmo ▸ hm))
  · rw [hedge]
    exact hb.apart.attach hb.new hn

theorem appended {a : ℕ} (hb : Built h (.array a) h₁) (hv : v.Loose h₁) (hn : ¬ h.Has (v.stored h₁))
    (hne : Obj.array a ≠ v.stored h₁) : Built h (.array a) (array_append h₁ a v) := by
  cases v with
  | simple tok =>
    have hk := kept_append_value (h := h₁) a (cstring tok.value)
    have he : Apart h₁.Has h₁.edge (h₁.append_item a (.value (cstring tok.value))).edge := by
      rw [edge_append_value]
      exact apart_self h₁
    exact hb.later (hb.sound.append_value a _) hk he
  | array p => exact hb.item_appended rfl hv hn hne
  | table p => exact hb.item_appended rfl hv hn hne

theorem added (hb : Built h (.table t) h₁) (hv : v.Loose h₁) (hn : ¬ h.Has (v.stored h₁))
    (hne : Obj.table t ≠ v.stored h₁) (ha : toml_helper_add_any h₁ t path v = some h₂) :
    Built h (.table t) h₂ := by
  have d := add_any_added hb.sound hb.loose.has hv ha
  refine ⟨d.sound, ⟨hb.kept.toGrown.trans d.grown, fun hm hom => ?_⟩, ?_,
    ⟨d.grown.has hb.loose.has, d.orphans hb.loose.has hb.loose.orphan hne, hb.loose.not_root⟩,
    hb.new⟩
  · exact d.orphans (hb.kept.has hm) (hb.kept.orphans hm hom) (fun hmo => hn (hmo ▸ hm))
  · exact d.apart hb.apart (fun hm => hb.kept.has hm) hb.new hn

theorem stored_ne (hb' : Built h₁ w h₂) {o : Obj} (ho : h₁.Has o) : o ≠ w.stored h₂ :=
  fun he => hb'.new (he ▸ ho)

theorem new_after (hb : Built h v h₁) (hb' : Built h₁ w h₂) : ¬ h.Has (w.stored h₂) :=
  fun ho => hb'.new (hb.kept.has ho)

end Built

end

mutual

theorem any_value_built {h h' : Heap} {v : Val} (hs : h.Sound) :
    (V : Value) → any_value h V = some (h', v) → Built h v h'
  | .simple T, hv => by
    cases hv
    exact .simple T.tok hs
  | .empty_array, hv => by
    cases hv
    exact (Built.simple ⟨.key, []⟩ hs).array_made
  | .array L comma, hv => by
    obtain ⟨⟨h₁, a⟩, hl, he⟩ := Option.bind_eq_some_iff.mp hv
    cases he
    exact array_list_built hs L hl
  | .empty_table, hv => by
    cases hv
    exact (Built.simple ⟨.key, []⟩ hs).table_made true false
  | .inline_table L comma, hv => by
    obtain ⟨⟨h₁, t⟩, hl, he⟩ := Option.bind_eq_some_iff.mp hv
    cases he
    exact inline_list_built hs L hl

theorem array_list_built {h h' : Heap} {a : ℕ} (hs : h.Sound) :
    (L : ArrayList) → array_list h L = some (h', a) → Built h (.array a) h'
  | .one V, hl => by
    obtain ⟨⟨h₁, v⟩, hv, he⟩ := Option.bind_eq_some_iff.mp hl
    cases he
    have hb := any_value_built hs V hv
    exact hb.array_made.appended (hb.loose.kept kept_new_array)
      (Val.new_later kept_new_array.toGrown hb.new) hb.loose.ne_array
  | .append L V, hl => by
    obtain ⟨⟨h₁, a⟩, hl₁, hl'⟩ := Option.bind_eq_some_iff.mp hl
    obtain ⟨⟨h₂, v⟩, hv, he⟩ := Option.bind_eq_some_iff.mp hl'
    cases he
    have hb := array_list_built hs L hl₁
    have hb' := any_value_built hb.sound V hv
    exact (hb.later hb'.sound hb'.kept hb'.apart).appended hb'.loose (hb.new_after hb')
      (hb'.stored_ne hb.loose.has)

theorem inline_list_built {h h' : Heap} {t : ℕ} (hs : h.Sound) :
    (L : InlineList) → inline_list h L = some (h', t) → Built h (.table t) h'
  | .one P V, hl => by
    obtain ⟨⟨h₁, v⟩, hv, hl'⟩ := Option.bind_eq_some_iff.mp hl
    obtain ⟨h₂, ha, he⟩ := Option.bind_eq_some_iff.mp hl'
    cases he
    have hb := any_value_built hs V hv
    exact (hb.table_made true false).added (hb.loose.kept (kept_new_table _ _))
      (Val.new_later (kept_new_table _ _).toGrown hb.new) hb.loose.ne_table ha
  | .append L P V, hl => by
    obtain ⟨⟨h₁, t⟩, hl₁, hl'⟩ := Option.bind_eq_some_iff.mp hl
    obtain ⟨⟨h₂, v⟩, hv, hl''⟩ := Option.bind_eq_some_iff.mp hl'
    obtain ⟨h₃, ha, he⟩ := Option.bind_eq_some_iff.mp hl''
    cases he
    have hb := inline_list_built hs L hl₁
    have hb' := any_value_built hb.sound V hv
    exact (hb.later hb'.sound hb'.kept hb'.apart).added hb'.loose (hb.new_after hb')
      (hb'.stored_ne hb.loose.has) ha

end

end SaltsUtils.Toml
