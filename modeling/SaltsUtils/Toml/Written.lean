import SaltsUtils.Toml.Touch

/-!
# Values as they are written

An array has the elements that are written, and an inline table a member at the end of
each path and nothing beside the paths.
-/

set_option autoImplicit false

namespace SaltsUtils.Toml

open Owners Heap

def Heap.read (h : Heap) : Obj → Option Item
  | .keyval p => h.keyvals[p]?.map .value
  | .array p => some (.array p)
  | .table p => some (.table p)

namespace InlineList

def paths : InlineList → List Path
  | one P _ => [P]
  | append L P _ => paths L ++ [P]

end InlineList

def Path.names (P : Path) : List Bytes := P.keys.map normalize_key

/-- One of two paths goes on where the other ends, if it does. -/
def Along (ks ks' : List Bytes) : Prop := ks <+: ks' ∨ ks' <+: ks

/-- The keys that lead somewhere from a table lead along the paths. -/
def Only (h : Heap) (t : ℕ) (paths : List Path) : Prop :=
  ∀ ks m, follow h.edge (.table t) (ks.map .key) = some m → ∃ P ∈ paths, Along ks P.names

mutual

def Written (h : Heap) : Item → Value → Prop
  | i, .simple T => i = .value T.tok.value
  | i, .empty_array => ∃ a, i = .array a ∧ h.arrays[a]? = some []
  | i, .array L _ => ∃ a items, i = .array a ∧ h.arrays[a]? = some items ∧ WrittenItems h items L
  | i, .empty_table => ∃ t, i = .table t ∧ ∀ s, h.edge (.table t) s = none
  | i, .inline_table L _ => ∃ t, i = .table t ∧ WrittenMembers h t L ∧ Only h t L.paths

def WrittenItems (h : Heap) : List Item → ArrayList → Prop
  | items, .one V => ∃ i, items = [i] ∧ Written h i V
  | items, .append L V => ∃ first i, items = first ++ [i] ∧ WrittenItems h first L ∧ Written h i V

def WrittenMembers (h : Heap) (t : ℕ) : InlineList → Prop
  | .one P V => ∃ o i, follow h.edge (.table t) (P.names.map .key) = some o ∧
      h.read o = some i ∧ Written h i V
  | .append L P V => WrittenMembers h t L ∧
      ∃ o i, follow h.edge (.table t) (P.names.map .key) = some o ∧
        h.read o = some i ∧ Written h i V

end

mutual

/-- In an inline table no path goes on from where an earlier one ends, and none has more
keys than a record keeps. -/
def Proper : Value → Prop
  | .simple _ => True
  | .empty_array => True
  | .array L _ => ProperItems L
  | .empty_table => True
  | .inline_table L _ => ProperMembers L

def ProperItems : ArrayList → Prop
  | .one V => Proper V
  | .append L V => ProperItems L ∧ Proper V

def ProperMembers : InlineList → Prop
  | .one P V => P.keys.length ≤ 10 ∧ Proper V
  | .append L P V => ProperMembers L ∧ (∀ Q ∈ L.paths, ¬ Q.names <+: P.names) ∧
      P.keys.length ≤ 10 ∧ Proper V

end

theorem Same.read {h h' : Heap} {o : Obj} (hs : Same h h' o) : h'.read o = h.read o := by
  cases o with
  | keyval p => exact congrArg (Option.map Item.value) hs
  | array p => rfl
  | table p => rfl

theorem item_edge {h : Heap} {a : ℕ} {items : List Item} {i : Item} {o : Obj}
    (ha : h.arrays[a]? = some items) (hi : i ∈ items) (ho : i.obj? = some o) :
    ∃ s, h.edge (.array a) s = some o := by
  obtain ⟨n, hn⟩ := List.mem_iff_getElem?.mp hi
  refine ⟨.index n, ?_⟩
  rw [edge_array, ha, Option.bind_some, hn, Option.bind_some, ho]

def SameItem (h h' : Heap) (i : Item) : Prop :=
  ∀ o, i.obj? = some o → ∀ m, Inside h.edge o m → Same h h' m

section
variable {h h' : Heap}

theorem same_follow {o : Obj} (hs : ∀ m, Inside h.edge o m → Same h h' m) (ks : List Step) :
    follow h'.edge o ks = follow h.edge o ks :=
  follow_congr (fun m hm => (hs m hm).edge) ks

theorem same_only {t : ℕ} {paths : List Path}
    (hs : ∀ m, Inside h.edge (.table t) m → Same h h' m) (ho : Only h t paths) :
    Only h' t paths := by
  intro ks m hm
  rw [same_follow hs] at hm
  exact ho ks m hm

theorem read_obj {o m : Obj} {i : Item} (hr : h.read o = some i) (hm : i.obj? = some m) :
    m = o := by
  cases o with
  | keyval p =>
    obtain ⟨val, -, rfl⟩ := Option.map_eq_some_iff.mp hr
    cases hm
  | array p =>
    cases hr
    exact (Option.some.inj hm).symm
  | table p =>
    cases hr
    exact (Option.some.inj hm).symm

mutual

theorem written_same {i : Item} (hs : SameItem h h' i) :
    (V : Value) → Written h i V → Written h' i V
  | .simple T, hw => hw
  | .empty_array, hw => by
    obtain ⟨a, rfl, ha⟩ := hw
    have hsame : h'.arrays[a]? = h.arrays[a]? := hs _ rfl _ (inside_self _)
    exact ⟨a, rfl, hsame.trans ha⟩
  | .array L comma, hw => by
    obtain ⟨a, items, rfl, ha, hw⟩ := hw
    have hsame : h'.arrays[a]? = h.arrays[a]? := hs _ rfl _ (inside_self _)
    refine ⟨a, items, rfl, hsame.trans ha, items_same (fun i hi o ho m hm => ?_) L hw⟩
    obtain ⟨s, he⟩ := item_edge ha hi ho
    exact hs _ rfl m (hm.head he)
  | .empty_table, hw => by
    obtain ⟨t, rfl, ht⟩ := hw
    refine ⟨t, rfl, fun s => ?_⟩
    rw [(hs _ rfl _ (inside_self _)).edge]
    exact ht s
  | .inline_table L comma, hw => by
    obtain ⟨t, rfl, hw, ho⟩ := hw
    have hs := hs _ rfl
    exact ⟨t, rfl, members_same hs L hw, same_only hs ho⟩

theorem items_same {items : List Item} (hs : ∀ i ∈ items, SameItem h h' i) :
    (L : ArrayList) → WrittenItems h items L → WrittenItems h' items L
  | .one V, hw => by
    obtain ⟨i, rfl, hw⟩ := hw
    exact ⟨i, rfl, written_same (hs i (List.mem_singleton.mpr rfl)) V hw⟩
  | .append L V, hw => by
    obtain ⟨first, i, rfl, hf, hw⟩ := hw
    exact ⟨first, i, rfl, items_same (fun j hj => hs j (List.mem_append_left _ hj)) L hf,
      written_same (hs i (List.mem_append_right _ (List.mem_singleton.mpr rfl))) V hw⟩

theorem members_same {t : ℕ} (hs : ∀ m, Inside h.edge (.table t) m → Same h h' m) :
    (L : InlineList) → WrittenMembers h t L → WrittenMembers h' t L
  | .one P V, hw => by
    obtain ⟨o, i, hf, hr, hw⟩ := hw
    have ho : Inside h.edge (.table t) o := ⟨_, hf⟩
    refine ⟨o, i, (same_follow hs _).trans hf, (hs o ho).read.trans hr,
      written_same (fun n hn m hm => ?_) V hw⟩
    obtain rfl := read_obj hr hn
    exact hs m (ho.trans hm)
  | .append L P V, hw => by
    obtain ⟨hl, o, i, hf, hr, hw⟩ := hw
    have ho : Inside h.edge (.table t) o := ⟨_, hf⟩
    refine ⟨members_same hs L hl, o, i, (same_follow hs _).trans hf, (hs o ho).read.trans hr,
      written_same (fun n hn m hm => ?_) V hw⟩
    obtain rfl := read_obj hr hn
    exact hs m (ho.trans hm)

end

end

/-- On the way to the end of a new path some of its keys lead somewhere. -/
def Toward (h : Heap) (t : ℕ) (paths : List Path) (names : List Bytes) : Prop :=
  ∀ ks m, follow h.edge (.table t) (ks.map .key) = some m →
    (∃ P ∈ paths, Along ks P.names) ∨ ks <+: names

theorem map_key_inj {ks ks' : List Bytes} (h : ks.map Step.key = ks'.map Step.key) : ks = ks' :=
  List.map_injective_iff.mpr (fun _ _ he => Step.key.inj he) h

/-- A path that is there after a link was there before it, or it goes on from where the new
object stands. -/
theorem follow_linked {h h' : Heap} {t n : ℕ} {pre ks : List Bytes} {key : Bytes} {o m : Obj}
    (hs : h.Sound) (ht : Orphan h.edge (.table t))
    (hp : follow h.edge (.table t) (pre.map .key) = some (.table n))
    (he : h'.edge = attach h.edge (.table n) (.key key) o)
    (hf : follow h'.edge (.table t) (ks.map .key) = some m) :
    follow h.edge (.table t) (ks.map .key) = some m ∨
      ∃ more, ks = pre ++ key :: more ∧ follow h'.edge o (more.map .key) = some m := by
  rw [he] at hf
  rcases follow_attach hf with hf | ⟨ks₁, ks₂, hk, h₁, h₂⟩
  · exact .inl hf
  · right
    obtain ⟨first, rest, rfl, rfl, hrest⟩ := List.map_eq_append_iff.mp hk
    obtain ⟨k, more, rfl, hkey, rfl⟩ := List.map_eq_cons_iff.mp hrest
    obtain rfl := Step.key.inj hkey
    obtain rfl := map_key_inj (follow_unique hs.exclusive ht h₁ hp)
    rw [← he] at h₂
    exact ⟨more, rfl, h₂⟩

theorem follow_blank {h : Heap} {o m : Obj} {ks : List Bytes} (hb : ∀ s, h.edge o s = none)
    (hf : follow h.edge o (ks.map .key) = some m) : ks = [] := by
  cases ks with
  | nil => rfl
  | cons k ks =>
    rw [List.map_cons, follow, hb] at hf
    cases hf

theorem walk_toward {keys : List Token} {h h' : Heap} {t curr t' : ℕ} {pre names : List Bytes}
    {paths : List Path} (hs : h.Sound) (hc : h.Has (.table curr)) (ht : h.Has (.table t))
    (horphan : Orphan h.edge (.table t))
    (hp : follow h.edge (.table t) (pre.map .key) = some (.table curr))
    (hn : pre ++ keys.map normalize_key <+: names) (ho : Toward h t paths names)
    (hw : toml_helper_walk_path h curr keys = some (h', t')) :
    Toward h' t paths names ∧
      follow h'.edge (.table t) ((pre ++ keys.map normalize_key).map .key) = some (.table t') := by
  induction keys generalizing h curr pre with
  | nil =>
    cases hw
    rw [List.map_nil, List.append_nil]
    exact ⟨ho, hp⟩
  | cons key keys ih =>
    rw [toml_helper_walk_path] at hw
    rw [List.map_cons, List.append_cons] at hn ⊢
    cases he : h.check_key curr (normalize_key key) with
    | none =>
      rw [he] at hw
      have hl := linked_new_table hs false true hc he
      refine ih hl.sound hl.has (hl.kept.has ht) (hl.kept.orphans ht horphan) ?_ hn ?_ hw
      · rw [List.map_append, follow_append, Grows.follow hl.kept.edges hp, Option.bind_some, hl.edge]
        simp only [List.map_cons, List.map_nil, follow]
        rw [attach_self]
        rfl
      · intro ks m hf
        rcases follow_linked hs horphan hp hl.edge hf with hf | ⟨more, rfl, hmore⟩
        · exact ho ks m hf
        · obtain rfl := follow_blank (hl.blank hc) hmore
          exact .inr ((List.prefix_append _ _).trans hn)
    | some o =>
      rw [he] at hw
      cases o with
      | keyval p => cases hw
      | array p => cases hw
      | table next =>
        have hedge : h.edge (.table curr) (.key (normalize_key key)) = some (.table next) := he
        refine ih hs (hs.closed hedge) ht horphan ?_ hn ho hw
        rw [List.map_append, follow_append, hp, Option.bind_some]
        simp only [List.map_cons, List.map_nil, follow, hedge]
        rfl

theorem names_record {P : Path} (hl : P.keys.length ≤ 10) :
    P.names = P.before.map normalize_key ++ [normalize_key P.last] := by
  have hr : P.record = P.keys := by rw [record_eq_take, List.take_of_length_le hl]
  rw [Path.names, ← hr, path_record, List.map_append]
  rfl

theorem member_only {h h₁ h₂ h' : Heap} {t t' : ℕ} {P : Path} {o : Obj} {paths : List Path}
    (hs : h.Sound) (ht : h.Loose (.table t)) (hl : P.keys.length ≤ 10)
    (ho : Toward h t paths P.names) (hw : toml_helper_walk_path h t P.before = some (h₁, t'))
      (hs₂ : h₂.Sound) (hk : Kept h₁ h₂) (he : h₂.edge = h₁.edge)
    (ha : add_member h₂ t' P.last o = some h') : Only h' t (paths ++ [P]) := by
  have w := walk_path_walked hs ht.has hw
  have hnames := names_record hl
  have hpre : [] ++ P.before.map normalize_key <+: P.names := by
    rw [hnames]
    exact List.prefix_append _ _
  obtain ⟨htoward, hfound⟩ := walk_toward hs ht.has ht.has ht.orphan rfl hpre ho hw
  unfold add_member at ha
  split at ha
  · cases ha
  · next hfree =>
    obtain rfl := Option.some.inj ha
    have hedge := edge_link (o := o) (hk.has w.has) hfree
    rw [List.nil_append, ← he] at hfound
    have horphan : Orphan h₂.edge (.table t) :=
      hk.orphans (w.kept.has ht.has) (w.kept.orphans ht.has ht.orphan)
    intro ks m hf
    rcases follow_linked hs₂ horphan hfound hedge hf with hf | ⟨more, rfl, -⟩
    · rw [he] at hf
      rcases htoward ks m hf with ⟨Q, hQ, hq⟩ | hq
      · exact ⟨Q, List.mem_append_left _ hQ, hq⟩
      · exact ⟨P, List.mem_append_right _ (List.mem_singleton.mpr rfl), .inl hq⟩
    · refine ⟨P, List.mem_append_right _ (List.mem_singleton.mpr rfl), .inr ?_⟩
      rw [hnames, List.append_cons _ _ more]
      exact List.prefix_append _ _

theorem add_any_only {h h' : Heap} {t : ℕ} {P : Path} {v : Val} {paths : List Path}
    (hs : h.Sound) (ht : h.Loose (.table t)) (hl : P.keys.length ≤ 10)
    (ho : Toward h t paths P.names) (ha : toml_helper_add_any h t P v = some h') :
      Only h' t (paths ++ [P]) := by
  cases v with
  | simple tok =>
    obtain ⟨⟨h₁, t'⟩, hw, ha⟩ := Option.bind_eq_some_iff.mp ha
    have w := walk_path_walked hs ht.has hw
    exact member_only hs ht hl ho hw (w.sound.new_keyval _) (kept_new_keyval _) rfl ha
  | array p =>
    obtain ⟨⟨h₁, t'⟩, hw, ha⟩ := Option.bind_eq_some_iff.mp ha
    exact member_only hs ht hl ho hw (walk_path_walked hs ht.has hw).sound Kept.refl rfl ha
  | table p =>
    obtain ⟨⟨h₁, t'⟩, hw, ha⟩ := Option.bind_eq_some_iff.mp ha
    exact member_only hs ht hl ho hw (walk_path_walked hs ht.has hw).sound Kept.refl rfl ha

def Val.item : Val → Item
  | .simple tok => .value (cstring tok.value)
  | .array p => .array p
  | .table p => .table p

theorem array_append_item (h : Heap) (a : ℕ) (v : Val) :
    array_append h a v = h.append_item a v.item := by
  cases v <;> rfl

theorem item_stored {h : Heap} {v : Val} {o : Obj} (ho : v.item.obj? = some o) :
    v.stored h = o := by
  cases v with
  | simple tok => cases ho
  | array p => exact Option.some.inj ho
  | table p => exact Option.some.inj ho

theorem inside_has {h : Heap} {o m : Obj} (hs : h.Sound) (ho : h.Has o) (hm : Inside h.edge o m) :
    h.Has m :=
  hm.closed ho fun _ he => hs.closed he

theorem Val.Loose.has_item {h : Heap} {v : Val} {o : Obj} (hv : v.Loose h)
    (ho : v.item.obj? = some o) : h.Has o := by
  cases v with
  | simple tok => cases ho
  | array p =>
    obtain rfl := Option.some.inj ho
    exact hv.has
  | table p =>
    obtain rfl := Option.some.inj ho
    exact hv.has

section
variable {h h' : Heap} {t : ℕ} {P : Path} {v : Val}

theorem stored_written {V : Value} (hs : h.Sound) (ht : h.Has (.table t)) (hv : v.Loose h)
    (hw : Written h v.item V)
    (hout : ∀ o, v.item.obj? = some o → ¬ Inside h.edge o (.table (joint h t P.record).1))
    (ha : toml_helper_add_any h t P v = some h') :
    h'.read (v.stored h) = some v.item ∧ Written h' v.item V := by
  refine ⟨?_, written_same (fun o ho m hm => ?_) V hw⟩
  · cases v with
    | simple tok =>
      change Option.map Item.value h'.keyvals[h.keyvals.length]? = _
      rw [add_any_text hs ht ha]
      rfl
    | array p => rfl
    | table p => rfl
  · refine add_any_same hs ht ha (inside_has hs (hv.has_item ho) hm) fun he => ?_
    exact hout o ho (he ▸ hm)

theorem member_added_written {V : Value} (hs : h.Sound) (ht : h.Has (.table t)) (hv : v.Loose h)
    (hl : P.keys.length ≤ 10) (hw : Written h v.item V)
    (hout : ∀ o, v.item.obj? = some o → ¬ Inside h.edge o (.table (joint h t P.record).1))
    (ha : toml_helper_add_any h t P v = some h') :
    ∃ o i, follow h'.edge (.table t) (P.names.map .key) = some o ∧ h'.read o = some i ∧
      Written h' i V := by
  have hf := (add_any_added hs ht hv ha).found
  have hrec : P.record = P.keys := by rw [record_eq_take, List.take_of_length_le hl]
  rw [hrec] at hf
  refine ⟨v.stored h, v.item, ?_, stored_written hs ht hv hw hout ha⟩
  rw [Path.names, List.map_map]
  exact hf

theorem member_kept {Q : Path} {V : Value} (hs : h.Sound) (ht : h.Loose (.table t))
    (hv : v.Loose h) (hl : P.keys.length ≤ 10) (hq : ¬ Q.names <+: P.names)
    (ha : toml_helper_add_any h t P v = some h')
    (hw : ∃ o i, follow h.edge (.table t) (Q.names.map .key) = some o ∧ h.read o = some i ∧
      Written h i V) :
    ∃ o i, follow h'.edge (.table t) (Q.names.map .key) = some o ∧ h'.read o = some i ∧
      Written h' i V := by
  obtain ⟨o, i, hf, hr, hw⟩ := hw
  have hd := add_any_added hs ht.has hv ha
  have ho : Inside h.edge (.table t) o := ⟨_, hf⟩
  have hsame : ∀ m, Inside h.edge o m → Same h h' m := by
    intro m hm
    refine add_any_same hs ht.has ha (inside_has hs ht.has (ho.trans hm)) fun he => hq ?_
    obtain ⟨taken, hk, hj⟩ := joint_found h t P.record
    obtain ⟨ks, hm⟩ := hm
    have hpath : follow h.edge (.table t) (Q.names.map .key ++ ks) = some m := by
      rw [follow_append, hf]
      exact hm
    rw [he] at hpath
    have huniq := follow_unique hs.exclusive ht.orphan hpath hj
    have hnames : P.names = taken.map normalize_key ++ (joint h t P.record).2.map normalize_key := by
      have hrec : P.record = P.keys := by rw [record_eq_take, List.take_of_length_le hl]
      rw [Path.names, ← hrec, ← List.map_append, ← hk]
    have hpre : Q.names.map Step.key <+: (taken.map normalize_key).map Step.key := by
      refine ⟨ks, huniq.trans ?_⟩
      rw [List.map_map]
      rfl
    rw [hnames]
    refine List.IsPrefix.trans ?_ (List.prefix_append _ _)
    obtain ⟨rest, hrest⟩ := hpre
    obtain ⟨first, second, he, hfirst, -⟩ := List.map_eq_append_iff.mp hrest.symm
    rw [he, map_key_inj hfirst.symm]
    exact List.prefix_append _ _
  refine ⟨o, i, Grows.follow hd.grown.edges hf, (hsame o (inside_self o)).read.trans hr,
    written_same (fun n hn m hm => ?_) V hw⟩
  obtain rfl := read_obj hr hn
  exact hsame m hm

theorem members_kept (hs : h.Sound) (ht : h.Loose (.table t)) (hv : v.Loose h)
    (hl : P.keys.length ≤ 10) (ha : toml_helper_add_any h t P v = some h') :
    (L : InlineList) → (∀ Q ∈ L.paths, ¬ Q.names <+: P.names) → WrittenMembers h t L →
      WrittenMembers h' t L
  | .one Q _, hq, hw => member_kept hs ht hv hl (hq Q (List.mem_singleton.mpr rfl)) ha hw
  | .append L Q _, hq, hw =>
    ⟨members_kept hs ht hv hl ha L (fun R hR => hq R (List.mem_append_left _ hR)) hw.1,
      member_kept hs ht hv hl
        (hq Q (List.mem_append_right _ (List.mem_singleton.mpr rfl))) ha hw.2⟩

end

/-- The texts of the tokens have no zero byte. -/
def Plain (toks : List Token) : Prop := ∀ tok ∈ toks, cstring tok.value = tok.value

section
variable {h : Heap} {a : ℕ} {v : Val}

theorem append_same_item (horphan : Orphan h.edge (.array a)) {i : Item} {o m : Obj}
    (ho : Obj.array a ≠ o) (hm : Inside h.edge o m) : Same h (h.append_item a i) m :=
  same_append_item i fun he => ho ((he ▸ hm).orphan horphan)

theorem items_appended {items : List Item} {L : ArrayList} {V : Value}
    (horphan : Orphan h.edge (.array a)) (hne : Obj.array a ≠ v.stored h)
    (ha : h.arrays[a]? = some items) (hw : Written h v.item V) :
    (array_append h a v).arrays[a]? = some (items ++ [v.item]) ∧
      Written (array_append h a v) v.item V ∧
        (WrittenItems h items L → WrittenItems (array_append h a v) items L) := by
  rw [array_append_item]
  refine ⟨?_, written_same (fun o ho m hm => ?_) V hw, items_same (fun i hi o ho m hm => ?_) L⟩
  · rw [append_item, List.getElem?_modify, ha]
    simp
  · exact append_same_item horphan (item_stored ho ▸ hne) hm
  · obtain ⟨s, he⟩ := item_edge ha hi ho
    exact append_same_item horphan
      (fun heq => horphan _ s (he.trans (congrArg some heq.symm))) hm

theorem item_kept {h' : Heap} {V : Value} (hs : h.Sound) (hv : v.Loose h)
    (hsame : ∀ m, h.Has m → Same h h' m) (hw : Written h v.item V) : Written h' v.item V :=
  written_same (fun _ ho m hm => hsame m (inside_has hs (hv.has_item ho) hm)) V hw

end

theorem Built.joint_outside {h h' : Heap} {v : Val} {t : ℕ} (hb : Built h v h') (hs : h.Sound)
    (ht : h.Has (.table t)) (keys : List Token) (o : Obj) (ho : v.item.obj? = some o) :
    ¬ Inside h'.edge o (.table (joint h' t keys).1) := by
  intro hin
  have hold : h.Has (.table (joint h' t keys).1) :=
    (joint_inside h' t keys).closed (P := h.Has) ht fun {n m k} hn he => by
      rw [hb.apart.same k hn] at he
      exact hs.closed he
  have hnew := hb.new
  rw [item_stored ho] at hnew
  exact hb.apart.outside hnew hin hold

mutual

theorem any_value_written {h h' : Heap} {v : Val} (hs : h.Sound) :
    (V : Value) → Plain V.yield → Proper V → any_value h V = some (h', v) → Written h' v.item V
  | .simple T, hp, _, hv => by
    cases hv
    exact congrArg Item.value (hp T.tok (List.mem_singleton.mpr rfl))
  | .empty_array, _, _, hv => by
    cases hv
    exact ⟨_, rfl, List.getElem?_concat_length⟩
  | .array L comma, hp, hv', hv => by
    obtain ⟨⟨h₁, a⟩, hl, he⟩ := Option.bind_eq_some_iff.mp hv
    cases he
    have hpl : Plain L.yield := fun tok ht => hp tok (by simp [Value.yield, ht])
    obtain ⟨items, ha, hw⟩ := array_list_written hs L hpl hv' hl
    exact ⟨a, items, rfl, ha, hw⟩
  | .empty_table, _, _, hv => by
    cases hv
    refine ⟨_, rfl, fun s => ?_⟩
    rw [edge_new_table]
    cases he : h.edge (.table h.tables.length) s with
    | none => rfl
    | some o => exact absurd (has_owner he) (Nat.lt_irrefl _)
  | .inline_table L comma, hp, hv', hv => by
    obtain ⟨⟨h₁, t⟩, hl, he⟩ := Option.bind_eq_some_iff.mp hv
    cases he
    have hpl : Plain L.yield := fun tok ht => hp tok (by simp [Value.yield, ht])
    exact ⟨t, rfl, inline_list_written hs L hpl hv' hl⟩

theorem array_list_written {h h' : Heap} {a : ℕ} (hs : h.Sound) :
    (L : ArrayList) → Plain L.yield → ProperItems L → array_list h L = some (h', a) →
      ∃ items, h'.arrays[a]? = some items ∧ WrittenItems h' items L
  | .one V, hp, hv', hl => by
    obtain ⟨⟨h₁, v⟩, hv, he⟩ := Option.bind_eq_some_iff.mp hl
    cases he
    have hb := any_value_built hs V hv
    have hw := item_kept hb.sound hb.loose (fun m hm => same_new_array hm)
      (any_value_written hs V hp hv' hv)
    have hempty : h₁.new_array.arrays[h₁.arrays.length]? = some [] := List.getElem?_concat_length
    obtain ⟨hitems, hw, -⟩ := items_appended (L := .one V) hb.array_made.loose.orphan
      hb.loose.ne_array hempty hw
    exact ⟨[v.item], hitems, v.item, rfl, hw⟩
  | .append L V, hp, hv', hl => by
    obtain ⟨⟨h₁, a⟩, hl₁, hl'⟩ := Option.bind_eq_some_iff.mp hl
    obtain ⟨⟨h₂, v⟩, hv, he⟩ := Option.bind_eq_some_iff.mp hl'
    cases he
    have hb := array_list_built hs L hl₁
    have hb' := any_value_built hb.sound V hv
    have hsame : ∀ m, h₁.Has m → Same h₁ h₂ m := fun m hm => any_value_same hb.sound hm V hv
    obtain ⟨items, ha, hfirst⟩ := array_list_written hs L
      (fun tok ht => hp tok (by simp [ArrayList.yield, ht])) hv'.1 hl₁
    have hw := any_value_written hb.sound V
      (fun tok ht => hp tok (by simp [ArrayList.yield, ht])) hv'.2 hv
    have hsa : h₂.arrays[a]? = h₁.arrays[a]? := hsame (.array a) hb.loose.has
    have hfirst₂ : WrittenItems h₂ items L := by
      refine items_same (fun i hi o ho m hm => ?_) L hfirst
      obtain ⟨s, he⟩ := item_edge ha hi ho
      exact hsame m (inside_has hb.sound (hb.sound.closed he) hm)
    obtain ⟨hitems, hw, hkeep⟩ := items_appended
      (hb.later hb'.sound hb'.kept hb'.apart).loose.orphan (hb'.stored_ne hb.loose.has)
      (hsa.trans ha) hw
    exact ⟨items ++ [v.item], hitems, items, v.item, rfl, hkeep hfirst₂, hw⟩

theorem inline_list_written {h h' : Heap} {t : ℕ} (hs : h.Sound) :
    (L : InlineList) → Plain L.yield → ProperMembers L → inline_list h L = some (h', t) →
      WrittenMembers h' t L ∧ Only h' t L.paths
  | .one P V, hp, hv', hl => by
    obtain ⟨⟨h₁, v⟩, hv, hl'⟩ := Option.bind_eq_some_iff.mp hl
    obtain ⟨h₂, ha, he⟩ := Option.bind_eq_some_iff.mp hl'
    cases he
    have hb := any_value_built hs V hv
    have hm := hb.table_made true false
    have hw := item_kept hb.sound hb.loose (fun m hm => same_new_table true false hm)
      (any_value_written hs V (fun tok ht => hp tok (by simp [InlineList.yield, ht])) hv'.2 hv)
    have hblank : ∀ s, (h₁.new_table true false).edge (.table h₁.tables.length) s = none := by
      intro s
      rw [edge_new_table]
      cases he : h₁.edge (.table h₁.tables.length) s with
      | none => rfl
      | some o => exact absurd (has_owner he) (Nat.lt_irrefl _)
    constructor
    · refine member_added_written hm.sound hm.loose.has (hb.loose.kept (kept_new_table _ _)) hv'.1
        hw (fun o ho hin => ?_) ha
      rw [joint_blank hblank] at hin
      have hne : Obj.table h₁.tables.length ≠ v.stored h₁ := hb.loose.ne_table
      rw [item_stored ho] at hne
      exact hne (hin.orphan hm.loose.orphan)
    · have htoward : Toward (h₁.new_table true false) h₁.tables.length [] P.names := by
        intro ks m hf
        rw [follow_blank hblank hf]
        exact .inr List.nil_prefix
      exact add_any_only hm.sound hm.loose hv'.1 htoward ha
  | .append L P V, hp, hv', hl => by
    obtain ⟨⟨h₁, t⟩, hl₁, hl'⟩ := Option.bind_eq_some_iff.mp hl
    obtain ⟨⟨h₂, v⟩, hv, hl''⟩ := Option.bind_eq_some_iff.mp hl'
    obtain ⟨h₃, ha, he⟩ := Option.bind_eq_some_iff.mp hl''
    cases he
    have hb := inline_list_built hs L hl₁
    have hb' := any_value_built hb.sound V hv
    have hlate := hb.later hb'.sound hb'.kept hb'.apart
    obtain ⟨hproper, hfree, hshort, hval⟩ := hv'
    obtain ⟨hmembers, honly⟩ := inline_list_written hs L
      (fun tok ht => hp tok (by simp [InlineList.yield, ht])) hproper hl₁
    have hw := any_value_written hb.sound V
      (fun tok ht => hp tok (by simp [InlineList.yield, ht])) hval hv
    have hsame : ∀ m, Inside h₁.edge (.table t) m → Same h₁ h₂ m := fun m hm =>
      any_value_same hb.sound (inside_has hb.sound hb.loose.has hm) V hv
    have honly₂ := same_only hsame honly
    constructor
    · exact ⟨members_kept hlate.sound hlate.loose hb'.loose hshort ha L hfree
        (members_same hsame L hmembers), member_added_written hlate.sound hlate.loose.has hb'.loose
          hshort hw (hb'.joint_outside hb.sound hb.loose.has P.record) ha⟩
    · exact add_any_only hlate.sound hlate.loose hshort (fun ks m hf => .inl (honly₂ ks m hf)) ha

end

end SaltsUtils.Toml
