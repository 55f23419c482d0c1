import SaltsUtils.Json.Grammar

/-!
# The JSON serialisers

The compact text of a value and the indented one, with either newline. A number is written
as it was read.
-/

set_option autoImplicit false

namespace SaltsUtils.Json

def hex_char (x : ℕ) : ℕ := if x < 10 then 48 + x else 87 + x

def unicode_escape (c : ℕ) : Bytes :=
  [92, 117, hex_char (c / 4096 % 16), hex_char (c / 256 % 16), hex_char (c / 16 % 16),
    hex_char (c % 16)]

def escaped_byte (c : ℕ) : Bytes :=
  if c = 34 then [92, 34]
  else if c = 92 then [92, 92]
  else if c = 8 then [92, 98]
  else if c = 12 then [92, 102]
  else if c = 10 then [92, 110]
  else if c = 13 then [92, 114]
  else if c = 9 then [92, 116]
  else if c < 32 then unicode_escape c
  else [c]

def escaped (str : Bytes) : Bytes := str.flatMap escaped_byte

def json_serialize_string (str : Bytes) : Bytes := 34 :: escaped str ++ [34]

/-- A comma, if there is a child to come. -/
def separator {α : Type} (rest : List α) : Bytes := if rest.isEmpty then [] else [44]

mutual

def json_serialize_value : Value → Bytes
  | .null => null_word
  | .bool val => if val then true_word else false_word
  | .number lexeme => lexeme
  | .string str => json_serialize_string str
  | .array elements => 91 :: serialize_elements elements ++ [93]
  | .object pairs => 123 :: serialize_pairs pairs ++ [125]

def serialize_elements : List Value → Bytes
  | [] => []
  | V :: rest => json_serialize_value V ++ separator rest ++ serialize_elements rest

def serialize_pairs : List (Bytes × Value) → Bytes
  | [] => []
  | (K, V) :: rest =>
    json_serialize_string K ++ [58] ++ json_serialize_value V ++ separator rest ++
      serialize_pairs rest

end

def json_serialize_indent (level : ℕ) : Bytes := (List.replicate level [32, 32]).flatten

mutual

def json_serialize_pretty_value_ex (newline : Bytes) (level : ℕ) : Value → Bytes
  | .null => null_word
  | .bool val => if val then true_word else false_word
  | .number lexeme => lexeme
  | .string str => json_serialize_value (.string str)
  | .array elements =>
    if elements.length = 0 then [91, 93]
    else
      91 :: newline ++ pretty_elements newline level elements ++ json_serialize_indent level ++ [93]
  | .object pairs =>
    if pairs.length = 0 then [123, 125]
    else
      123 :: newline ++ pretty_pairs newline level pairs ++ json_serialize_indent level ++ [125]

def pretty_elements (newline : Bytes) (level : ℕ) : List Value → Bytes
  | [] => []
  | V :: rest =>
    json_serialize_indent (level + 1) ++ json_serialize_pretty_value_ex newline (level + 1) V ++
      separator rest ++ newline ++ pretty_elements newline level rest

def pretty_pairs (newline : Bytes) (level : ℕ) : List (Bytes × Value) → Bytes
  | [] => []
  | (K, V) :: rest =>
    json_serialize_indent (level + 1) ++ json_serialize_string K ++ [58, 32] ++
      json_serialize_pretty_value_ex newline (level + 1) V ++ separator rest ++ newline ++
      pretty_pairs newline level rest

end

def json_serialize (V : Value) : Bytes := json_serialize_value V

def json_serialize_pretty (V : Value) : Bytes := json_serialize_pretty_value_ex [10] 0 V

def json_serialize_pretty_crlf (V : Value) : Bytes := json_serialize_pretty_value_ex [13, 10] 0 V

/-! The layout that both are: whitespace may stand behind an opening bracket, a colon
and a comma, and before a closing bracket. -/

structure Layout where
  newline : Bytes
  unit : Bytes
  gap : Bytes

namespace Layout

def indent (lay : Layout) (level : ℕ) : Bytes := (List.replicate level lay.unit).flatten

mutual

def value (lay : Layout) (level : ℕ) : Value → Bytes
  | .null => null_word
  | .bool val => if val then true_word else false_word
  | .number lexeme => lexeme
  | .string str => json_serialize_string str
  | .array elements =>
    if elements.isEmpty then [91, 93]
    else 91 :: lay.newline ++ lay.elements level elements ++ lay.indent level ++ [93]
  | .object pairs =>
    if pairs.isEmpty then [123, 125]
    else 123 :: lay.newline ++ lay.pairs level pairs ++ lay.indent level ++ [125]

def elements (lay : Layout) (level : ℕ) : List Value → Bytes
  | [] => []
  | V :: rest =>
    lay.indent (level + 1) ++ lay.value (level + 1) V ++ separator rest ++ lay.newline ++
      lay.elements level rest

def pairs (lay : Layout) (level : ℕ) : List (Bytes × Value) → Bytes
  | [] => []
  | (K, V) :: rest =>
    lay.indent (level + 1) ++ json_serialize_string K ++ 58 :: lay.gap ++
      lay.value (level + 1) V ++ separator rest ++ lay.newline ++ lay.pairs level rest

end

def compact : Layout := ⟨[], [], []⟩

def pretty (newline : Bytes) : Layout := ⟨newline, [32, 32], [32]⟩

theorem compact_indent (level : ℕ) : compact.indent level = [] := by
  unfold indent compact
  induction level with
  | zero => rfl
  | succ level ih => rw [List.replicate_succ, List.flatten_cons, ih]; rfl

mutual

theorem compact_value : ∀ (level : ℕ) (V : Value),
    compact.value level V = json_serialize_value V
  | level, .null => rfl
  | level, .bool val => rfl
  | level, .number lexeme => rfl
  | level, .string str => by rw [value, json_serialize_value]
  | level, .array [] => by simp [value, json_serialize_value, serialize_elements]
  | level, .array (V :: rest) => by
    rw [value, json_serialize_value, compact_elements, compact_indent, List.append_nil]
    rfl
  | level, .object [] => by simp [value, json_serialize_value, serialize_pairs]
  | level, .object (P :: rest) => by
    rw [value, json_serialize_value, compact_pairs, compact_indent, List.append_nil]
    rfl

theorem compact_elements : ∀ (level : ℕ) (E : List Value),
    compact.elements level E = serialize_elements E
  | level, [] => rfl
  | level, V :: rest => by
    rw [elements, serialize_elements, compact_indent, compact_value, compact_elements]
    simp [compact]

theorem compact_pairs : ∀ (level : ℕ) (M : List (Bytes × Value)),
    compact.pairs level M = serialize_pairs M
  | level, [] => rfl
  | level, (K, V) :: rest => by
    rw [pairs, serialize_pairs, compact_indent, compact_value, compact_pairs]
    simp [compact]

end

theorem pretty_indent (newline : Bytes) (level : ℕ) :
    (pretty newline).indent level = json_serialize_indent level := rfl

mutual

theorem pretty_value : ∀ (newline : Bytes) (level : ℕ) (V : Value),
    (pretty newline).value level V = json_serialize_pretty_value_ex newline level V
  | newline, level, .null => rfl
  | newline, level, .bool val => rfl
  | newline, level, .number lexeme => rfl
  | newline, level, .string str => by
    rw [value, json_serialize_pretty_value_ex, json_serialize_value]
  | newline, level, .array [] => rfl
  | newline, level, .array (V :: rest) => by
    rw [value, json_serialize_pretty_value_ex, pretty_elements, pretty_indent]
    rfl
  | newline, level, .object [] => rfl
  | newline, level, .object (P :: rest) => by
    rw [value, json_serialize_pretty_value_ex, pretty_pairs, pretty_indent]
    rfl

theorem pretty_elements : ∀ (newline : Bytes) (level : ℕ) (E : List Value),
    (pretty newline).elements level E = Json.pretty_elements newline level E
  | newline, level, [] => rfl
  | newline, level, V :: rest => by
    rw [elements, Json.pretty_elements, pretty_indent, pretty_value, pretty_elements]
    rfl

theorem pretty_pairs : ∀ (newline : Bytes) (level : ℕ) (M : List (Bytes × Value)),
    (pretty newline).pairs level M = Json.pretty_pairs newline level M
  | newline, level, [] => rfl
  | newline, level, (K, V) :: rest => by
    rw [pairs, Json.pretty_pairs, pretty_indent, pretty_value, pretty_pairs]
    rfl

end

end Layout

def comma_before {α : Type} (rest : List α) : List Token := if rest.isEmpty then [] else [.comma]

mutual

def spelled : Value → List Token
  | .null => [.null]
  | .bool val => [if val then .true else .false]
  | .number lexeme => [.number lexeme]
  | .string str => [.string (escaped str)]
  | .array elements => .lbracket :: spelled_elements elements ++ [.rbracket]
  | .object pairs => .lbrace :: spelled_pairs pairs ++ [.rbrace]

def spelled_elements : List Value → List Token
  | [] => []
  | V :: rest => spelled V ++ comma_before rest ++ spelled_elements rest

def spelled_pairs : List (Bytes × Value) → List Token
  | [] => []
  | (K, V) :: rest =>
    .string (escaped K) :: .colon :: spelled V ++ comma_before rest ++ spelled_pairs rest

end

theorem digit_hex_char : ∀ x < 16, JsonText.digit (hex_char x) = some x := by decide

theorem hex_digit_hex_char : ∀ x < 16, hex_digit (hex_char x) = true := by decide

theorem unicode_escape_unit {c : ℕ} (h : c < 65536) :
    JsonText.codeUnit (hex_char (c / 4096 % 16)) (hex_char (c / 256 % 16))
      (hex_char (c / 16 % 16)) (hex_char (c % 16)) = some c := by
  rw [JsonText.codeUnit, digit_hex_char _ (by omega), digit_hex_char _ (by omega),
    digit_hex_char _ (by omega), digit_hex_char _ (by omega)]
  simp only [Option.bind_eq_bind, Option.bind_some, Option.pure_def, Option.some.injEq]
  omega

theorem unescape_escaped_byte (c : ℕ) (rest : Bytes) :
    json_unescape (escaped_byte c ++ rest) = (json_unescape rest).map (c :: ·) := by
  unfold escaped_byte
  split
  · next h => subst h; rw [List.cons_append, json_unescape.eq_def]; rfl
  split
  · next h => subst h; rw [List.cons_append, json_unescape.eq_def]; rfl
  split
  · next h => subst h; rw [List.cons_append, json_unescape.eq_def]; rfl
  split
  · next h => subst h; rw [List.cons_append, json_unescape.eq_def]; rfl
  split
  · next h => subst h; rw [List.cons_append, json_unescape.eq_def]; rfl
  split
  · next h => subst h; rw [List.cons_append, json_unescape.eq_def]; rfl
  split
  · next h => subst h; rw [List.cons_append, json_unescape.eq_def]; rfl
  split
  · next h =>
    have hc : Utf8.encode c = [c] := by
      unfold Utf8.encode
      rw [if_pos (by omega)]
    rw [unicode_escape, List.cons_append, json_unescape.eq_def]
    simp only [List.cons_append, if_pos, unicode_escape_unit (show c < 65536 by omega)]
    rw [if_neg (by omega), if_neg (by omega), hc]
    rfl
  · next h92 _ _ _ _ _ _ =>
    rw [List.singleton_append, json_unescape.eq_def]
    simp only [if_neg h92]

theorem string_value_escaped (str : Bytes) : string_value (escaped str) = some str := by
  rw [string_value_eq]
  induction str with
  | nil => rfl
  | cons c str ih =>
    rw [escaped, List.flatMap_cons, unescape_escaped_byte]
    exact congrArg (Option.map (c :: ·)) ih

theorem comma_before_cons {α : Type} (x : α) (rest : List α) : comma_before (x :: rest) = [.comma] :=
  rfl

theorem derives_more_elements {E rest : List Value} {V : Value} {ts : List Token}
    (hE : Derives false (.elements E) ts)
    (hrest : ∀ W ∈ V :: rest, Derives false (.value W) (spelled W)) :
    Derives false (.elements (E ++ V :: rest)) (ts ++ .comma :: spelled_elements (V :: rest)) := by
  induction rest generalizing E V ts with
  | nil =>
    have := Derives.elements_comma hE (hrest V List.mem_cons_self)
    simpa [spelled_elements, comma_before] using this
  | cons W rest ih =>
    have := ih (Derives.elements_comma hE (hrest V List.mem_cons_self))
      (fun X hX => hrest X (List.mem_cons_of_mem V hX))
    rw [spelled_elements, comma_before_cons]
    simpa using this

theorem derives_elements {V : Value} {rest : List Value}
    (h : ∀ W ∈ V :: rest, Derives false (.value W) (spelled W)) :
    Derives false (.elements (V :: rest)) (spelled_elements (V :: rest)) := by
  have hV := Derives.elements_value (h V List.mem_cons_self)
  cases rest with
  | nil => simpa [spelled_elements, comma_before] using hV
  | cons W rest =>
    have := derives_more_elements hV (fun X hX => h X (List.mem_cons_of_mem V hX))
    rw [spelled_elements, comma_before_cons]
    simpa using this

theorem derives_more_members {M rest : List (Bytes × Value)} {P : Bytes × Value}
    {ts : List Token} (hM : Derives false (.members M) ts)
    (hrest : ∀ W ∈ P :: rest, Derives false (.value W.2) (spelled W.2)) :
    Derives false (.members (M ++ P :: rest)) (ts ++ .comma :: spelled_pairs (P :: rest)) := by
  induction rest generalizing M P ts with
  | nil =>
    have := Derives.members_comma hM
      (.pair (string_value_escaped P.1) (hrest P List.mem_cons_self))
    simpa [spelled_pairs, comma_before] using this
  | cons W rest ih =>
    have := ih (Derives.members_comma hM
      (.pair (string_value_escaped P.1) (hrest P List.mem_cons_self)))
      (fun X hX => hrest X (List.mem_cons_of_mem P hX))
    rw [spelled_pairs, comma_before_cons]
    simpa using this

theorem derives_members {P : Bytes × Value} {rest : List (Bytes × Value)}
    (h : ∀ W ∈ P :: rest, Derives false (.value W.2) (spelled W.2)) :
    Derives false (.members (P :: rest)) (spelled_pairs (P :: rest)) := by
  have hP := Derives.members_pair
    (.pair (string_value_escaped P.1) (h P List.mem_cons_self))
  cases rest with
  | nil => simpa [spelled_pairs, comma_before] using hP
  | cons W rest =>
    have := derives_more_members hP (fun X hX => h X (List.mem_cons_of_mem P hX))
    rw [spelled_pairs, comma_before_cons]
    simpa using this

mutual

theorem derives_spelled : ∀ V : Value, Derives false (.value V) (spelled V)
  | .null => .null
  | .bool true => .literal_true
  | .bool false => .literal_false
  | .number lexeme => .number lexeme
  | .string str => .string (string_value_escaped str)
  | .array [] => .empty_array
  | .array (V :: rest) => .array (derives_elements (derives_each (V :: rest)))
  | .object [] => .empty_object
  | .object (P :: rest) => .object (derives_members (derives_each_pair (P :: rest)))

theorem derives_each : ∀ (E : List Value), ∀ W ∈ E, Derives false (.value W) (spelled W)
  | [], W, h => nomatch h
  | V :: rest, W, h => by
    rw [List.mem_cons] at h
    obtain rfl | h := h
    · exact derives_spelled W
    · exact derives_each rest W h

theorem derives_each_pair : ∀ (M : List (Bytes × Value)), ∀ W ∈ M,
    Derives false (.value W.2) (spelled W.2)
  | [], W, h => nomatch h
  | (K, V) :: rest, W, h => by
    rw [List.mem_cons] at h
    obtain rfl | h := h
    · exact derives_spelled V
    · exact derives_each_pair rest W h

end

end SaltsUtils.Json
