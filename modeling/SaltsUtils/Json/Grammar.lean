import SaltsUtils.Json.Sax

/-!
# The JSON grammar

The productions of the parser with the values their actions build; `object` and `array`
are written into the productions of `value`.
-/

set_option autoImplicit false

namespace SaltsUtils.Json

inductive Value where
  | null
  | bool (val : Bool)
  | number (lexeme : Bytes)
  | string (val : Bytes)
  | array (elements : List Value)
  | object (pairs : List (Bytes × Value))

inductive Symbol where
  | value (V : Value)
  | members (M : List (Bytes × Value))
  | pair (K : Bytes) (V : Value)
  | elements (E : List Value)

/-- The grammar of the parser is the one without `commas`. -/
inductive Derives (commas : Bool) : Symbol → List Token → Prop where
  | null : Derives commas (.value .null) [.null]
  | literal_true : Derives commas (.value (.bool true)) [.true]
  | literal_false : Derives commas (.value (.bool false)) [.false]
  | number (T : Bytes) : Derives commas (.value (.number T)) [.number T]
  | string {T str : Bytes} (h : string_value T = some str) :
      Derives commas (.value (.string str)) [.string T]
  | empty_object : Derives commas (.value (.object [])) [.lbrace, .rbrace]
  | object {M : List (Bytes × Value)} {ts : List Token} (h : Derives commas (.members M) ts) :
      Derives commas (.value (.object M)) (.lbrace :: ts ++ [.rbrace])
  | empty_array : Derives commas (.value (.array [])) [.lbracket, .rbracket]
  | array {E : List Value} {ts : List Token} (h : Derives commas (.elements E) ts) :
      Derives commas (.value (.array E)) (.lbracket :: ts ++ [.rbracket])
  | members_pair {K : Bytes} {V : Value} {ts : List Token} (h : Derives commas (.pair K V) ts) :
      Derives commas (.members [(K, V)]) ts
  | members_comma {M : List (Bytes × Value)} {K : Bytes} {V : Value} {ts us : List Token}
      (hm : Derives commas (.members M) ts) (hp : Derives commas (.pair K V) us) :
      Derives commas (.members (M ++ [(K, V)])) (ts ++ .comma :: us)
  | pair {T K : Bytes} {V : Value} {ts : List Token} (hk : string_value T = some K)
      (hv : Derives commas (.value V) ts) : Derives commas (.pair K V) (.string T :: .colon :: ts)
  | elements_value {V : Value} {ts : List Token} (h : Derives commas (.value V) ts) :
      Derives commas (.elements [V]) ts
  | elements_comma {E : List Value} {V : Value} {ts us : List Token}
      (he : Derives commas (.elements E) ts) (hv : Derives commas (.value V) us) :
      Derives commas (.elements (E ++ [V])) (ts ++ .comma :: us)
  | object_last {M : List (Bytes × Value)} {ts : List Token} (hc : commas = true)
      (h : Derives commas (.members M) ts) :
      Derives commas (.value (.object M)) (.lbrace :: (ts ++ [.comma]) ++ [.rbrace])
  | array_last {E : List Value} {ts : List Token} (hc : commas = true)
      (h : Derives commas (.elements E) ts) :
      Derives commas (.value (.array E)) (.lbracket :: (ts ++ [.comma]) ++ [.rbracket])

def json_parse (text : Bytes) (V : Value) : Prop :=
  ∃ ts, json_tokens text = some ts ∧ Derives false (.value V) ts

theorem Derives.loosen {S : Symbol} {ts : List Token} (h : Derives false S ts) :
    Derives true S ts := by
  induction h with
  | null => exact .null
  | literal_true => exact .literal_true
  | literal_false => exact .literal_false
  | number T => exact .number T
  | string h => exact .string h
  | empty_object => exact .empty_object
  | object _ ih => exact .object ih
  | empty_array => exact .empty_array
  | array _ ih => exact .array ih
  | members_pair _ ih => exact .members_pair ih
  | members_comma _ _ ihm ihp => exact .members_comma ihm ihp
  | pair hk _ ih => exact .pair hk ih
  | elements_value _ ih => exact .elements_value ih
  | elements_comma _ _ ihe ihv => exact .elements_comma ihe ihv
  | object_last hc => cases hc
  | array_last hc => cases hc

theorem Derives.last {commas : Bool} {S : Symbol} {ts : List Token} (h : Derives commas S ts) :
    ∃ us token, ts = us ++ [token] ∧ token ≠ .comma := by
  induction h with
  | null => exact ⟨[], _, rfl, nofun⟩
  | literal_true => exact ⟨[], _, rfl, nofun⟩
  | literal_false => exact ⟨[], _, rfl, nofun⟩
  | number => exact ⟨[], _, rfl, nofun⟩
  | string => exact ⟨[], _, rfl, nofun⟩
  | empty_object => exact ⟨[.lbrace], _, rfl, nofun⟩
  | object => exact ⟨_, _, rfl, nofun⟩
  | empty_array => exact ⟨[.lbracket], _, rfl, nofun⟩
  | array => exact ⟨_, _, rfl, nofun⟩
  | members_pair _ ih => exact ih
  | @members_comma M K V ts us _ _ _ ih =>
    obtain ⟨vs, token, rfl, ht⟩ := ih
    exact ⟨ts ++ .comma :: vs, token, (List.append_assoc ts (.comma :: vs) [token]).symm, ht⟩
  | @pair T K V ts _ _ ih =>
    obtain ⟨vs, token, rfl, ht⟩ := ih
    exact ⟨.string T :: .colon :: vs, token, rfl, ht⟩
  | elements_value _ ih => exact ih
  | @elements_comma E V ts us _ _ _ ih =>
    obtain ⟨vs, token, rfl, ht⟩ := ih
    exact ⟨ts ++ .comma :: vs, token, (List.append_assoc ts (.comma :: vs) [token]).symm, ht⟩
  | object_last => exact ⟨_, _, rfl, nofun⟩
  | array_last => exact ⟨_, _, rfl, nofun⟩

mutual

def preorder : Value → List Event
  | .null => [.null]
  | .bool val => [.bool val]
  | .number lexeme => [.number lexeme]
  | .string val => [.string val]
  | .array elements => .array_start :: preorder_elements elements ++ [.array_end]
  | .object pairs => .object_start :: preorder_pairs pairs ++ [.object_end]

def preorder_elements : List Value → List Event
  | [] => []
  | V :: rest => preorder V ++ preorder_elements rest

def preorder_pairs : List (Bytes × Value) → List Event
  | [] => []
  | (K, V) :: rest => .object_key K :: preorder V ++ preorder_pairs rest

end

theorem preorder_elements_concat (E : List Value) (V : Value) :
    preorder_elements (E ++ [V]) = preorder_elements E ++ preorder V := by
  induction E with
  | nil => simp only [preorder_elements, List.nil_append, List.append_nil]
  | cons W E ih => rw [List.cons_append, preorder_elements, preorder_elements, ih,
      List.append_assoc]

theorem preorder_pairs_concat (M : List (Bytes × Value)) (K : Bytes) (V : Value) :
    preorder_pairs (M ++ [(K, V)]) = preorder_pairs M ++ .object_key K :: preorder V := by
  induction M with
  | nil => simp only [preorder_pairs, List.nil_append, List.append_nil]
  | cons W M ih => rw [List.cons_append, preorder_pairs, preorder_pairs, ih, List.append_assoc]

mutual

theorem preorder_unique : ∀ (V W : Value) (r r' : List Event),
    preorder V ++ r = preorder W ++ r' → V = W ∧ r = r'
  | .null, W, r, r', h => by
    cases W <;> simp_all [preorder]
  | .bool val, W, r, r', h => by
    cases W <;> simp_all [preorder]
  | .number lexeme, W, r, r', h => by
    cases W <;> simp_all [preorder]
  | .string val, W, r, r', h => by
    cases W <;> simp_all [preorder]
  | .array E, W, r, r', h => by
    cases W with
    | array E' =>
      have := preorder_elements_unique E E' r r' (by simpa [preorder] using h)
      exact ⟨by rw [this.1], this.2⟩
    | _ => simp [preorder] at h
  | .object M, W, r, r', h => by
    cases W with
    | object M' =>
      have := preorder_pairs_unique M M' r r' (by simpa [preorder] using h)
      exact ⟨by rw [this.1], this.2⟩
    | _ => simp [preorder] at h

theorem preorder_elements_unique : ∀ (E E' : List Value) (r r' : List Event),
    preorder_elements E ++ .array_end :: r = preorder_elements E' ++ .array_end :: r' →
      E = E' ∧ r = r'
  | [], [], r, r', h => by simpa [preorder_elements] using h
  | [], W :: E', r, r', h => by
    cases W <;> simp [preorder_elements, preorder] at h
  | V :: E, [], r, r', h => by
    cases V <;> simp [preorder_elements, preorder] at h
  | V :: E, W :: E', r, r', h => by
    obtain ⟨hv, hr⟩ := preorder_unique V W _ _ (by simpa [preorder_elements] using h)
    obtain ⟨he, hr⟩ := preorder_elements_unique E E' r r' hr
    exact ⟨by rw [hv, he], hr⟩

theorem preorder_pairs_unique : ∀ (M M' : List (Bytes × Value)) (r r' : List Event),
    preorder_pairs M ++ .object_end :: r = preorder_pairs M' ++ .object_end :: r' →
      M = M' ∧ r = r'
  | [], [], r, r', h => by simpa [preorder_pairs] using h
  | [], W :: M', r, r', h => by simp [preorder_pairs] at h
  | V :: M, [], r, r', h => by simp [preorder_pairs] at h
  | (K, V) :: M, (K', W) :: M', r, r', h => by
    simp only [preorder_pairs, List.cons_append, List.cons.injEq, Event.object_key.injEq,
      List.append_assoc] at h
    obtain ⟨hv, hr⟩ := preorder_unique V W _ _ h.2
    obtain ⟨hm, hr⟩ := preorder_pairs_unique M M' r r' hr
    exact ⟨by rw [h.1, hv, hm], hr⟩

end

variable (depth : ℕ)

def shift : Token → ℕ
  | .lbrace => depth + 1
  | .lbracket => depth + 1
  | .rbrace => depth - 1
  | .rbracket => depth - 1
  | _ => depth

def level (ts : List Token) : ℕ := ts.foldl shift depth

def peak (depth : ℕ) : List Token → ℕ
  | [] => depth
  | token :: ts => max depth (peak (shift depth token) ts)

def nesting (ts : List Token) : ℕ := peak 0 ts

theorem level_append (ts us : List Token) :
    level depth (ts ++ us) = level (level depth ts) us := List.foldl_append

theorem le_peak (ts : List Token) : depth ≤ peak depth ts := by
  cases ts with
  | nil => exact Nat.le_refl _
  | cons token ts => exact Nat.le_max_left _ _

theorem peak_append (ts us : List Token) :
    peak depth (ts ++ us) = max (peak depth ts) (peak (level depth ts) us) := by
  induction ts generalizing depth with
  | nil => exact (Nat.max_eq_right (le_peak depth us)).symm
  | cons token ts ih =>
    rw [List.cons_append, peak, peak, ih, Nat.max_assoc]
    rfl

@[simp] theorem level_nil : level depth [] = depth := rfl

@[simp] theorem level_cons (token : Token) (ts : List Token) :
    level depth (token :: ts) = level (shift depth token) ts := rfl

theorem Derives.balanced {commas : Bool} {S : Symbol} {ts : List Token} (h : Derives commas S ts)
    (depth : ℕ) : level depth ts = depth := by
  induction h generalizing depth with
  | null => rfl
  | literal_true => rfl
  | literal_false => rfl
  | number => rfl
  | string => rfl
  | empty_object => rfl
  | empty_array => rfl
  | object _ ih => simp only [level_append, level_cons, level_nil, ih, shift, Nat.add_sub_cancel]
  | array _ ih => simp only [level_append, level_cons, level_nil, ih, shift, Nat.add_sub_cancel]
  | members_pair _ ih => exact ih depth
  | members_comma _ _ ihm ihp => simp only [level_append, level_cons, shift, ihm, ihp]
  | pair _ _ ih => simp only [level_cons, shift, ih]
  | elements_value _ ih => exact ih depth
  | elements_comma _ _ ihe ihv => simp only [level_append, level_cons, shift, ihe, ihv]
  | object_last _ _ ih =>
    simp only [level_append, level_cons, level_nil, ih, shift, Nat.add_sub_cancel]
  | array_last _ _ ih =>
    simp only [level_append, level_cons, level_nil, ih, shift, Nat.add_sub_cancel]

end SaltsUtils.Json
