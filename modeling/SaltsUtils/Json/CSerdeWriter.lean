import SaltsUtils.Json.CSerde

/-!
# What the CSerde writer takes

A document is a tree, and its tokens are the tree in the order of its text.
-/

set_option autoImplicit false

namespace SaltsUtils.Json

inductive Document (F : Type) where
  | null
  | boolean (val : Bool)
  | sint (val : Int64)
  | uint (val : UInt64)
  | floating (val : F)
  | string (slice : Bytes)
  | array (elements : List (Document F))
  | map (members : List (Bytes × Document F))

namespace Document
variable {F : Type}

mutual

def tokens : Document F → List (CSerdeToken F)
  | .null => [.null]
  | .boolean val => [.boolean val]
  | .sint val => [.sint val]
  | .uint val => [.uint val]
  | .floating val => [.floating val]
  | .string slice => [.string slice]
  | .array elements => .array_begin :: element_tokens elements ++ [.array_end]
  | .map members => .map_begin :: member_tokens members ++ [.map_end]

def element_tokens : List (Document F) → List (CSerdeToken F)
  | [] => []
  | d :: rest => tokens d ++ element_tokens rest

def member_tokens : List (Bytes × Document F) → List (CSerdeToken F)
  | [] => []
  | (K, d) :: rest => .string K :: tokens d ++ member_tokens rest

end

mutual

/-- How many containers are open at once. -/
def depth : Document F → ℕ
  | .array elements => element_depth elements + 1
  | .map members => member_depth members + 1
  | _ => 0

def element_depth : List (Document F) → ℕ
  | [] => 0
  | d :: rest => max (depth d) (element_depth rest)

def member_depth : List (Bytes × Document F) → ℕ
  | [] => 0
  | (_, d) :: rest => max (depth d) (member_depth rest)

end

mutual

/-- Strings and keys are UTF-8 and doubles are finite. -/
def Valid (isfinite : F → Bool) : Document F → Prop
  | .floating val => isfinite val = true
  | .string slice => Utf8.Valid slice
  | .array elements => ValidElements isfinite elements
  | .map members => ValidMembers isfinite members
  | _ => True

def ValidElements (isfinite : F → Bool) : List (Document F) → Prop
  | [] => True
  | d :: rest => Valid isfinite d ∧ ValidElements isfinite rest

def ValidMembers (isfinite : F → Bool) : List (Bytes × Document F) → Prop
  | [] => True
  | (K, d) :: rest => Utf8.Valid K ∧ Valid isfinite d ∧ ValidMembers isfinite rest

end

mutual

def value (format : F → Bytes) : Document F → Value
  | .null => .null
  | .boolean val => .bool val
  | .sint val => .number (format_sint val)
  | .uint val => .number (format_uint val)
  | .floating val => .number (format val)
  | .string slice => .string slice
  | .array elements => .array (element_values format elements)
  | .map members => .object (member_values format members)

def element_values (format : F → Bytes) : List (Document F) → List Value
  | [] => []
  | d :: rest => value format d :: element_values format rest

def member_values (format : F → Bytes) : List (Bytes × Document F) → List (Bytes × Value)
  | [] => []
  | (K, d) :: rest => (K, value format d) :: member_values format rest

end

theorem element_depth_le {E : List (Document F)} {k : ℕ} :
    element_depth E ≤ k ↔ ∀ d ∈ E, depth d ≤ k := by
  induction E with
  | nil => simp [element_depth]
  | cons d E ih => simp [element_depth, ih]

theorem member_depth_le {M : List (Bytes × Document F)} {k : ℕ} :
    member_depth M ≤ k ↔ ∀ P ∈ M, depth P.2 ≤ k := by
  induction M with
  | nil => simp [member_depth]
  | cons P M ih => simp [member_depth, ih]

theorem valid_elements {isfinite : F → Bool} {E : List (Document F)} :
    ValidElements isfinite E ↔ ∀ d ∈ E, Valid isfinite d := by
  induction E with
  | nil => simp [ValidElements]
  | cons d E ih => simp [ValidElements, ih]

theorem valid_members {isfinite : F → Bool} {M : List (Bytes × Document F)} :
    ValidMembers isfinite M ↔ ∀ P ∈ M, Utf8.Valid P.1 ∧ Valid isfinite P.2 := by
  induction M with
  | nil => simp [ValidMembers]
  | cons P M ih => simp [ValidMembers, ih, and_assoc]

theorem element_tokens_concat (E : List (Document F)) (d : Document F) :
    element_tokens (E ++ [d]) = element_tokens E ++ tokens d := by
  induction E with
  | nil => simp [element_tokens]
  | cons e E ih => rw [List.cons_append, element_tokens, element_tokens, ih, List.append_assoc]

theorem member_tokens_concat (M : List (Bytes × Document F)) (K : Bytes) (d : Document F) :
    member_tokens (M ++ [(K, d)]) = member_tokens M ++ .string K :: tokens d := by
  induction M with
  | nil => simp [member_tokens]
  | cons P M ih => rw [List.cons_append, member_tokens, member_tokens, ih, List.append_assoc]

/-- A valid document with so many containers open around it. -/
structure Fits (isfinite : F → Bool) (max_depth level : ℕ) (d : Document F) : Prop where
  valid : d.Valid isfinite
  depth : level + d.depth ≤ max_depth

theorem fits_array {isfinite : F → Bool} {max_depth level : ℕ} {E : List (Document F)} :
    Fits isfinite max_depth level (.array E) ↔
      level < max_depth ∧ ∀ d ∈ E, Fits isfinite max_depth (level + 1) d := by
  constructor
  · intro h
    have hd : element_depth E ≤ max_depth - (level + 1) := by
      have := h.depth
      rw [Document.depth] at this
      omega
    have hroom : level < max_depth := by
      have := h.depth
      rw [Document.depth] at this
      omega
    refine ⟨hroom, fun d hmem => ⟨valid_elements.mp h.valid d hmem, ?_⟩⟩
    have := element_depth_le.mp hd d hmem
    omega
  · rintro ⟨hroom, h⟩
    refine ⟨valid_elements.mpr fun d hmem => (h d hmem).valid, ?_⟩
    have hd : element_depth E ≤ max_depth - (level + 1) := by
      refine element_depth_le.mpr fun d hmem => ?_
      have := (h d hmem).depth
      omega
    rw [Document.depth]
    omega

theorem fits_map {isfinite : F → Bool} {max_depth level : ℕ} {M : List (Bytes × Document F)} :
    Fits isfinite max_depth level (.map M) ↔
      level < max_depth ∧ ∀ P ∈ M, Utf8.Valid P.1 ∧ Fits isfinite max_depth (level + 1) P.2 := by
  constructor
  · intro h
    have hd : member_depth M ≤ max_depth - (level + 1) := by
      have := h.depth
      rw [Document.depth] at this
      omega
    have hroom : level < max_depth := by
      have := h.depth
      rw [Document.depth] at this
      omega
    refine ⟨hroom, fun P hmem => ?_⟩
    obtain ⟨hkey, hvalid⟩ := valid_members.mp h.valid P hmem
    have := member_depth_le.mp hd P hmem
    exact ⟨hkey, hvalid, by omega⟩
  · rintro ⟨hroom, h⟩
    refine ⟨valid_members.mpr fun P hmem => ⟨(h P hmem).1, (h P hmem).2.valid⟩, ?_⟩
    have hd : member_depth M ≤ max_depth - (level + 1) := by
      refine member_depth_le.mpr fun P hmem => ?_
      have := (h P hmem).2.depth
      omega
    rw [Document.depth]
    omega

end Document

/-- What the adapters rely on. -/
structure Platform.Sound {F : Type} (platform : Platform F) : Prop where
  utf8 : ∀ s, platform.vstr_utf8_valid s = true ↔ Utf8.Valid s
  format : ∀ x, platform.isfinite x = true →
    0 < (platform.format x).length ∧ (platform.format x).length < 64
  integers : ∀ n : ℕ, n < 2 ^ 64 → platform.number_finite (Decimal.numeral n) = true ∧
    platform.number_finite (45 :: Decimal.numeral n) = true

theorem writer_escape_eq (ch : ℕ) : writer_escape ch = escaped_byte ch := by
  unfold writer_escape escaped_byte unicode_escape
  by_cases h : ch < 0x20
  · have h1 : ch / 4096 % 16 = 0 := by omega
    have h2 : ch / 256 % 16 = 0 := by omega
    rw [if_pos h, if_pos h, h1, h2]
    rfl
  · rw [if_neg h, if_neg h]

theorem sint_magnitude (val : Int64) : (-val.toInt).toNat ≤ 2 ^ 63 ∧ val.toInt.toNat < 2 ^ 63 := by
  have h1 := val.le_toInt
  have h2 := val.toInt_lt
  omega

theorem numeral_positive (n : ℕ) : 0 < (Decimal.numeral n).length := by
  obtain ⟨ch, rest, hn, -⟩ := Decimal.numeral_head n
  rw [hn]
  exact Nat.succ_pos _

theorem format_sint_length (val : Int64) :
    0 < (format_sint val).length ∧ (format_sint val).length < 64 := by
  obtain ⟨hn, hp⟩ := sint_magnitude val
  unfold format_sint
  split
  · have := Decimal.numeral_length (n := (-val.toInt).toNat) (k := 18) (by omega)
    rw [List.length_cons]
    omega
  · have := Decimal.numeral_length (n := val.toInt.toNat) (k := 18) (by omega)
    exact ⟨numeral_positive _, by omega⟩

theorem format_uint_length (val : UInt64) :
    0 < (format_uint val).length ∧ (format_uint val).length < 64 := by
  have hv := val.toNat_lt
  have := Decimal.numeral_length (n := val.toNat) (k := 19) (by omega)
  exact ⟨numeral_positive _, by unfold format_uint; omega⟩

namespace Writer
variable {F : Type} {platform : Platform F} {max_depth : ℕ}

def run (platform : Platform F) (max_depth : ℕ) (w : Writer) (tokens : List (CSerdeToken F)) :
    Option Writer :=
  tokens.foldlM (json_cserde_write platform max_depth) w

theorem run_nil (w : Writer) : w.run platform max_depth [] = some w := rfl

theorem run_cons (w : Writer) (token : CSerdeToken F) (tokens : List (CSerdeToken F)) :
    w.run platform max_depth (token :: tokens) =
      (w.json_cserde_write platform max_depth token).bind fun w =>
        w.run platform max_depth tokens := List.foldlM_cons

theorem run_append (w : Writer) (tokens more : List (CSerdeToken F)) :
    w.run platform max_depth (tokens ++ more) =
      (w.run platform max_depth tokens).bind fun w => w.run platform max_depth more :=
  List.foldlM_append

variable {w w' : Writer}

section
variable (h : w.json_writer_before_value = some w')
include h

theorem before_value_cases :
    (w.frames = [] ∧ w.root_written = false ∧ w' = ⟨[], true, w.sink⟩) ∨
    (∃ count expect_key frames, w.frames = ⟨.array, count, expect_key⟩ :: frames ∧
      w' = ⟨⟨.array, count + 1, expect_key⟩ :: frames, w.root_written,
        w.sink ++ comma_for count⟩) ∨
    (∃ count frames, w.frames = ⟨.map, count, false⟩ :: frames ∧
      w' = ⟨⟨.map, count + 1, true⟩ :: frames, w.root_written, w.sink⟩) := by
  obtain ⟨frames, root, sink⟩ := w
  unfold json_writer_before_value at h
  cases frames with
  | nil =>
    simp only at h
    split at h
    · cases h
    · next hr =>
      cases h
      exact Or.inl ⟨rfl, by simpa using hr, rfl⟩
  | cons frame frames =>
    obtain ⟨kind, count, expect_key⟩ := frame
    cases kind with
    | array =>
      cases h
      exact Or.inr (Or.inl ⟨count, expect_key, frames, rfl, rfl⟩)
    | map =>
      cases expect_key with
      | true => cases h
      | false =>
        cases h
        exact Or.inr (Or.inr ⟨count, frames, rfl, rfl⟩)

theorem before_value_level : w'.frames.length = w.frames.length := by
  obtain ⟨hf, -, rfl⟩ | ⟨count, expect_key, frames, hf, rfl⟩ | ⟨count, frames, hf, rfl⟩ :=
    before_value_cases h
  all_goals simp [hf]

theorem before_value_not_key : w.at_key = false := by
  unfold at_key
  obtain ⟨hf, -⟩ | ⟨count, expect_key, frames, hf, -⟩ | ⟨count, frames, hf, -⟩ :=
    before_value_cases h
  all_goals simp [hf]

theorem write_as_value (token : CSerdeToken F) :
    w.json_cserde_write platform max_depth token = w.write_value platform max_depth token := by
  unfold json_cserde_write
  rw [before_value_not_key h]
  cases token <;> rfl

end

theorem run_scalar {w'' : Writer} {token : CSerdeToken F} (h : w.json_writer_before_value = some w')
    (hv : w.write_value platform max_depth token = w.json_writer_before_value.bind fun w =>
      w.write_scalar platform token)
    (hs : w'.write_scalar platform token = some w'') :
    w.run platform max_depth [token] = some w'' := by
  rw [run_cons, write_as_value h, hv, h, Option.bind_some, hs]
  rfl

variable {text : Bytes}

theorem number_put (h : 0 < text.length ∧ text.length < 64) :
    w.json_writer_number text = some (w.put text) :=
  if_neg (by omega)

theorem string_put (hp : platform.Sound) {slice : Bytes} (h : Utf8.Valid slice) :
    w.json_writer_string platform slice = some (w.put (json_serialize_string slice)) := by
  unfold json_writer_string json_serialize_string escaped
  rw [if_pos ((hp.utf8 slice).mpr h)]
  have he : writer_escape = escaped_byte := funext writer_escape_eq
  rw [he]

def elements_text (count : ℕ) : List Value → Bytes
  | [] => []
  | V :: rest => comma_for count ++ json_serialize_value V ++ elements_text (count + 1) rest

def members_text (count : ℕ) : List (Bytes × Value) → Bytes
  | [] => []
  | (K, V) :: rest =>
    comma_for count ++ json_serialize_string K ++ [58] ++ json_serialize_value V ++
      members_text (count + 1) rest

theorem elements_text_next (count : ℕ) (V : Value) (rest : List Value) :
    elements_text (count + 1) (V :: rest) = 44 :: serialize_elements (V :: rest) := by
  induction rest generalizing count V with
  | nil => simp [elements_text, serialize_elements, comma_for, separator]
  | cons W rest ih =>
    rw [elements_text, ih]
    conv_rhs => rw [serialize_elements]
    simp [comma_for, separator]

theorem elements_text_zero (E : List Value) : elements_text 0 E = serialize_elements E := by
  cases E with
  | nil => rfl
  | cons V rest =>
    cases rest with
    | nil => simp [elements_text, serialize_elements, comma_for, separator]
    | cons W rest =>
      rw [elements_text, elements_text_next]
      conv_rhs => rw [serialize_elements]
      simp [comma_for, separator]

theorem members_text_next (count : ℕ) (P : Bytes × Value) (rest : List (Bytes × Value)) :
    members_text (count + 1) (P :: rest) = 44 :: serialize_pairs (P :: rest) := by
  induction rest generalizing count P with
  | nil => simp [members_text, serialize_pairs, comma_for, separator]
  | cons W rest ih =>
    rw [members_text, ih]
    conv_rhs => rw [serialize_pairs]
    simp [comma_for, separator]

theorem members_text_zero (M : List (Bytes × Value)) : members_text 0 M = serialize_pairs M := by
  cases M with
  | nil => rfl
  | cons P rest =>
    cases rest with
    | nil => simp [members_text, serialize_pairs, comma_for, separator]
    | cons W rest =>
      rw [members_text, members_text_next]
      conv_rhs => rw [serialize_pairs]
      simp [comma_for, separator]

theorem run_container {kind : BeginKind} {children : List (CSerdeToken F)} {count : ℕ}
    (opening closing : CSerdeToken F) (h : w.json_writer_before_value = some w')
    (hroom : w.frames.length < max_depth)
    (hopen : w.write_value platform max_depth opening = w.write_begin max_depth kind)
    (hclose : ∀ (v : Writer) (frames : List WriterFrame), v.frames =
      ⟨kind, count, decide (kind = .map)⟩ :: frames → v.json_cserde_write platform max_depth
      closing = v.write_end kind)
    (hchildren : run platform max_depth ⟨⟨kind, 0, decide (kind = .map)⟩ :: w'.frames,
      w'.root_written, w'.sink ++ if kind = .array then [91] else [123]⟩ children =
      some ⟨⟨kind, count, decide (kind = .map)⟩ :: w'.frames, w'.root_written, w'.sink ++
      (if kind = .array then [91] else [123]) ++ text⟩) :
    w.run platform max_depth (opening :: children ++ [closing]) =
      some (w'.put ((if kind = .array then [91] else [123]) ++ text ++
        if kind = .array then [93] else [125])) := by
  have hbegin : w.write_begin max_depth kind =
      some ⟨⟨kind, 0, decide (kind = .map)⟩ :: w'.frames, w'.root_written,
        w'.sink ++ if kind = .array then [91] else [123]⟩ := by
    unfold write_begin
    rw [if_neg (by omega), h]
    rfl
  rw [List.cons_append, run_cons, write_as_value h, hopen, hbegin, Option.bind_some, run_append,
    hchildren, Option.bind_some, run_cons, hclose _ _ rfl, write_end]
  cases kind with
  | array => simp [run_nil, put]
  | map => simp [run_nil, put]

theorem write_array_end {v : Writer} (h : v.at_key = false) :
    v.json_cserde_write platform max_depth .array_end = v.write_end .array := by
  unfold json_cserde_write
  simp only [h]
  rfl

variable {frames : List WriterFrame} {root : Bool}

theorem write_key (hp : platform.Sound) {count : ℕ} {sink K : Bytes} (hK : Utf8.Valid K) :
    json_cserde_write platform max_depth ⟨⟨.map, count, true⟩ :: frames, root, sink⟩ (.string K) =
      some ⟨⟨.map, count, false⟩ :: frames, root,
        sink ++ comma_for count ++ json_serialize_string K ++ [58]⟩ := by
  unfold json_cserde_write at_key json_writer_map_key
  simp only [string_put hp hK]
  rfl

mutual

theorem run_document (hp : platform.Sound) : ∀ (d : Document F) (w w' : Writer),
    w.json_writer_before_value = some w' →
    d.Fits platform.isfinite max_depth w.frames.length →
    w.run platform max_depth d.tokens =
      some (w'.put (json_serialize_value (d.value platform.format)))
  | .null, w, w', h, _ => run_scalar h rfl rfl
  | .boolean val, w, w', h, _ => run_scalar h rfl rfl
  | .sint val, w, w', h, _ => run_scalar h rfl (number_put (format_sint_length val))
  | .uint val, w, w', h, _ => run_scalar h rfl (number_put (format_uint_length val))
  | .floating val, w, w', h, hfit => by
    have hval : platform.isfinite val = true := hfit.valid
    refine run_scalar h rfl ?_
    rw [write_scalar, if_pos hval]
    exact number_put (hp.format val hval)
  | .string slice, w, w', h, hfit => by
    refine run_scalar h rfl ?_
    rw [Document.value, json_serialize_value]
    exact string_put hp hfit.valid
  | .array E, w, w', h, hfit => by
    obtain ⟨hroom, hE⟩ := Document.fits_array.mp hfit
    rw [← before_value_level h] at hE
    have := run_container .array_begin .array_end h hroom rfl
      (fun v frames hv => write_array_end (by rw [at_key, hv]; rfl))
      (run_elements hp E 0 w'.frames w'.root_written (w'.sink ++ [91]) hE)
    rw [Document.tokens, this, Document.value, json_serialize_value, elements_text_zero]
    rfl
  | .map M, w, w', h, hfit => by
    obtain ⟨hroom, hM⟩ := Document.fits_map.mp hfit
    rw [← before_value_level h] at hM
    have := run_container .map_begin .map_end h hroom rfl (fun _ _ _ => rfl)
      (run_members hp M 0 w'.frames w'.root_written (w'.sink ++ [123]) hM)
    rw [Document.tokens, this, Document.value, json_serialize_value, members_text_zero]
    rfl

theorem run_elements (hp : platform.Sound) : ∀ (E : List (Document F)) (count : ℕ)
    (frames : List WriterFrame) (root : Bool) (sink : Bytes),
    (∀ d ∈ E, d.Fits platform.isfinite max_depth (frames.length + 1)) →
    run platform max_depth ⟨⟨.array, count, false⟩ :: frames, root, sink⟩
        (Document.element_tokens E) =
      some ⟨⟨.array, count + E.length, false⟩ :: frames, root,
        sink ++ elements_text count (Document.element_values platform.format E)⟩
  | [], count, frames, root, sink, _ => by
    simp [Document.element_tokens, Document.element_values, elements_text, run_nil]
  | d :: rest, count, frames, root, sink, h => by
    have hd := run_document hp d ⟨⟨.array, count, false⟩ :: frames, root, sink⟩
      ⟨⟨.array, count + 1, false⟩ :: frames, root, sink ++ comma_for count⟩ rfl
      (h d List.mem_cons_self)
    have hrest := run_elements hp rest (count + 1) frames root
      (sink ++ comma_for count ++ json_serialize_value (d.value platform.format))
      (fun e he => h e (List.mem_cons_of_mem d he))
    rw [Document.element_tokens, run_append, hd, Option.bind_some]
    rw [put, hrest, Document.element_values, elements_text, List.length_cons]
    simp only [List.append_assoc, Nat.add_assoc, Nat.add_comm 1]

theorem run_members (hp : platform.Sound) : ∀ (M : List (Bytes × Document F)) (count : ℕ)
    (frames : List WriterFrame) (root : Bool) (sink : Bytes),
    (∀ P ∈ M, Utf8.Valid P.1 ∧ P.2.Fits platform.isfinite max_depth (frames.length + 1)) →
    run platform max_depth ⟨⟨.map, count, true⟩ :: frames, root, sink⟩
        (Document.member_tokens M) =
      some ⟨⟨.map, count + M.length, true⟩ :: frames, root,
        sink ++ members_text count (Document.member_values platform.format M)⟩
  | [], count, frames, root, sink, _ => by
    simp [Document.member_tokens, Document.member_values, members_text, run_nil]
  | (K, d) :: rest, count, frames, root, sink, h => by
    obtain ⟨hK, hfit⟩ := h (K, d) List.mem_cons_self
    have hd := run_document hp d ⟨⟨.map, count, false⟩ :: frames, root,
      sink ++ comma_for count ++ json_serialize_string K ++ [58]⟩
      ⟨⟨.map, count + 1, true⟩ :: frames, root,
        sink ++ comma_for count ++ json_serialize_string K ++ [58]⟩ rfl hfit
    have hrest := run_members hp rest (count + 1) frames root
      (sink ++ comma_for count ++ json_serialize_string K ++ [58] ++
        json_serialize_value (d.value platform.format))
      (fun e he => h e (List.mem_cons_of_mem _ he))
    rw [Document.member_tokens, List.cons_append, run_cons, write_key hp hK, Option.bind_some,
      run_append, hd, Option.bind_some]
    rw [put, hrest, Document.member_values, members_text, List.length_cons]
    simp only [List.append_assoc, Nat.add_assoc, Nat.add_comm 1]

end

/-- The frames around a value, once it has been announced. -/
def entered (frames : List WriterFrame) (root : Bool) : Option (List WriterFrame × Bool) :=
  (json_writer_before_value ⟨frames, root, []⟩).map fun w => (w.frames, w.root_written)

theorem before_value_entered (h : w.json_writer_before_value = some w') :
    entered w.frames w.root_written = some (w'.frames, w'.root_written) := by
  obtain ⟨frames, root, sink⟩ := w
  obtain ⟨rfl, rfl, rfl⟩ | ⟨count, expect_key, frames, rfl, rfl⟩ | ⟨count, frames, rfl, rfl⟩ :=
    before_value_cases h
  all_goals rfl

/-- The tokens taken so far, with what is open behind them. -/
inductive Inside (isfinite : F → Bool) (max_depth : ℕ) :
    List (CSerdeToken F) → List WriterFrame → Bool → Prop where
  | start : Inside isfinite max_depth [] [] false
  | whole {d : Document F} (hd : d.Fits isfinite max_depth 0) :
      Inside isfinite max_depth d.tokens [] true
  | array {ts : List (CSerdeToken F)} {frames frames' : List WriterFrame} {root root' : Bool}
      {E : List (Document F)} (h : Inside isfinite max_depth ts frames root)
      (he : entered frames root = some (frames', root')) (hroom : frames'.length < max_depth)
      (hE : ∀ d ∈ E, d.Fits isfinite max_depth (frames'.length + 1)) :
      Inside isfinite max_depth (ts ++ .array_begin :: Document.element_tokens E)
        (⟨.array, E.length, false⟩ :: frames') root'
  | key {ts : List (CSerdeToken F)} {frames frames' : List WriterFrame} {root root' : Bool}
      {M : List (Bytes × Document F)} (h : Inside isfinite max_depth ts frames root)
      (he : entered frames root = some (frames', root')) (hroom : frames'.length < max_depth)
      (hM : ∀ P ∈ M, Utf8.Valid P.1 ∧ P.2.Fits isfinite max_depth (frames'.length + 1)) :
      Inside isfinite max_depth (ts ++ .map_begin :: Document.member_tokens M)
        (⟨.map, M.length, true⟩ :: frames') root'
  | value {ts : List (CSerdeToken F)} {frames frames' : List WriterFrame} {root root' : Bool}
      {M : List (Bytes × Document F)} {K : Bytes} (h : Inside isfinite max_depth ts frames root)
      (he : entered frames root = some (frames', root')) (hroom : frames'.length < max_depth)
      (hM : ∀ P ∈ M, Utf8.Valid P.1 ∧ P.2.Fits isfinite max_depth (frames'.length + 1))
      (hK : Utf8.Valid K) :
      Inside isfinite max_depth (ts ++ .map_begin :: Document.member_tokens M ++ [.string K])
        (⟨.map, M.length, false⟩ :: frames') root'

theorem forall_concat {α : Type} {P : α → Prop} {xs : List α} {x : α} (h : ∀ y ∈ xs, P y)
    (hx : P x) : ∀ y ∈ xs ++ [x], P y := by
  intro y hy
  rw [List.mem_append, List.mem_singleton] at hy
  obtain hy | rfl := hy
  · exact h y hy
  · exact hx

theorem Inside.complete {isfinite : F → Bool} {ts : List (CSerdeToken F)}
    {frames' : List WriterFrame} {root' : Bool} {d : Document F}
    (h : Inside isfinite max_depth ts frames root)
    (he : entered frames root = some (frames', root'))
    (hd : d.Fits isfinite max_depth frames.length) :
    Inside isfinite max_depth (ts ++ d.tokens) frames' root' := by
  cases h with
  | start =>
    cases he
    exact .whole hd
  | whole => cases he
  | @array ts frames _ root _ E h hent hroom hE =>
    cases he
    have := Inside.array h hent hroom (forall_concat hE hd)
    rw [Document.element_tokens_concat, List.length_append] at this
    simpa [put] using this
  | key => cases he
  | @value ts frames _ root _ M K h hent hroom hM hK =>
    cases he
    have hchild : Utf8.Valid (K, d).1 ∧ (K, d).2.Fits isfinite max_depth _ := ⟨hK, hd⟩
    have := Inside.key h hent hroom (forall_concat hM hchild)
    rw [Document.member_tokens_concat, List.length_append] at this
    simpa using this

theorem Inside.scalar {isfinite : F → Bool} {ts : List (CSerdeToken F)} {w'' : Writer}
    {token : CSerdeToken F} {d : Document F}
    (h : Inside isfinite max_depth ts w.frames w.root_written)
    (he : w.json_writer_before_value = some w') (hd : d.tokens = [token])
    (hfit : d.Fits isfinite max_depth w.frames.length) (hf : w''.frames = w'.frames)
    (hr : w''.root_written = w'.root_written) :
    Inside isfinite max_depth (ts ++ [token]) w''.frames w''.root_written := by
  rw [hf, hr, ← hd]
  exact h.complete (before_value_entered he) hfit

theorem number_same (h : w.json_writer_number text = some w') :
    w'.frames = w.frames ∧ w'.root_written = w.root_written := by
  unfold json_writer_number at h
  split at h
  · cases h
  · cases h
    exact ⟨rfl, rfl⟩

theorem string_same (hp : platform.Sound) {slice : Bytes}
    (h : w.json_writer_string platform slice = some w') :
    Utf8.Valid slice ∧ w'.frames = w.frames ∧ w'.root_written = w.root_written := by
  unfold json_writer_string at h
  split at h
  · next hs =>
    cases h
    exact ⟨(hp.utf8 slice).mp hs, rfl, rfl⟩
  · cases h

theorem Inside.begin_container {ts : List (CSerdeToken F)}
    (h : Inside platform.isfinite max_depth ts w.frames w.root_written) (kind : BeginKind)
    (hw : w.write_begin max_depth kind = some w') : Inside platform.isfinite max_depth
      (ts ++ [if kind = .array then .array_begin else .map_begin]) w'.frames w'.root_written := by
  unfold write_begin at hw
  split at hw
  · cases hw
  · next hroom =>
    split at hw
    · cases hw
    · next v hv =>
      cases hw
      have hlevel : v.frames.length < max_depth := by
        rw [before_value_level hv]
        omega
      cases kind with
      | array => exact .array h (before_value_entered hv) hlevel (E := []) nofun
      | map => exact .key h (before_value_entered hv) hlevel (M := []) nofun

theorem Inside.end_container {ts : List (CSerdeToken F)} {isfinite : F → Bool}
    (h : Inside isfinite max_depth ts w.frames w.root_written) (kind : BeginKind)
    (hw : w.write_end kind = some w') : Inside isfinite max_depth
      (ts ++ [if kind = .array then .array_end else .map_end]) w'.frames w'.root_written := by
  obtain ⟨frames, root, sink⟩ := w
  unfold write_end at hw
  cases h with
  | start => cases hw
  | whole => cases hw
  | @array ts outer frames root _ E h hent hroom hE =>
    cases kind with
    | map => simp at hw
    | array =>
      cases hw
      have hlevel : frames.length = outer.length := by
        obtain ⟨v, hv, he⟩ := Option.map_eq_some_iff.mp hent
        cases he
        exact before_value_level hv
      rw [hlevel] at hroom hE
      have := h.complete hent (Document.fits_array.mpr ⟨hroom, hE⟩)
      simpa [Document.tokens, put] using this
  | @key ts outer frames root _ M h hent hroom hM =>
    cases kind with
    | array => simp at hw
    | map =>
      cases hw
      have hlevel : frames.length = outer.length := by
        obtain ⟨v, hv, he⟩ := Option.map_eq_some_iff.mp hent
        cases he
        exact before_value_level hv
      rw [hlevel] at hroom hM
      have := h.complete hent (Document.fits_map.mpr ⟨hroom, hM⟩)
      simpa [Document.tokens, put] using this
  | value => cases kind <;> simp at hw

theorem Inside.level {isfinite : F → Bool} {ts : List (CSerdeToken F)}
    (h : Inside isfinite max_depth ts frames root) : frames.length ≤ max_depth := by
  cases h with
  | start => exact Nat.zero_le _
  | whole => exact Nat.zero_le _
  | array _ _ hroom _ => exact hroom
  | key _ _ hroom _ => exact hroom
  | value _ _ hroom _ _ => exact hroom

theorem write_value_inside (hp : platform.Sound) {ts : List (CSerdeToken F)} {token : CSerdeToken F}
    (h : Inside platform.isfinite max_depth ts w.frames w.root_written)
    (hw : w.write_value platform max_depth token = some w') :
    Inside platform.isfinite max_depth (ts ++ [token]) w'.frames w'.root_written := by
  cases token with
  | null =>
    obtain ⟨v, hv, hs⟩ := Option.bind_eq_some_iff.mp hw
    cases hs
    exact h.scalar (d := .null) hv rfl ⟨trivial, h.level⟩ rfl rfl
  | boolean val =>
    obtain ⟨v, hv, hs⟩ := Option.bind_eq_some_iff.mp hw
    cases hs
    exact h.scalar (d := .boolean val) hv rfl ⟨trivial, h.level⟩ rfl rfl
  | sint val =>
    obtain ⟨v, hv, hs⟩ := Option.bind_eq_some_iff.mp hw
    exact h.scalar (d := .sint val) hv rfl ⟨trivial, h.level⟩ (number_same hs).1 (number_same hs).2
  | uint val =>
    obtain ⟨v, hv, hs⟩ := Option.bind_eq_some_iff.mp hw
    exact h.scalar (d := .uint val) hv rfl ⟨trivial, h.level⟩ (number_same hs).1 (number_same hs).2
  | floating val =>
    obtain ⟨v, hv, hs⟩ := Option.bind_eq_some_iff.mp hw
    rw [write_scalar] at hs
    split at hs
    · next hval =>
      exact h.scalar (d := .floating val) hv rfl ⟨hval, h.level⟩ (number_same hs).1
        (number_same hs).2
    · cases hs
  | string slice =>
    obtain ⟨v, hv, hs⟩ := Option.bind_eq_some_iff.mp hw
    obtain ⟨hslice, hf, hr⟩ := string_same hp hs
    exact h.scalar (d := .string slice) hv rfl ⟨hslice, h.level⟩ hf hr
  | bytes slice => cases hw
  | array_begin => exact h.begin_container .array hw
  | array_end => exact h.end_container .array hw
  | map_begin => exact h.begin_container .map hw
  | map_end => exact h.end_container .map hw

theorem map_key_inside (hp : platform.Sound) {ts : List (CSerdeToken F)} {token : CSerdeToken F}
    (h : Inside platform.isfinite max_depth ts w.frames w.root_written)
    (hw : w.json_writer_map_key platform token = some w') :
    Inside platform.isfinite max_depth (ts ++ [token]) w'.frames w'.root_written := by
  obtain ⟨frames, root, sink⟩ := w
  cases token with
  | string slice =>
    cases h with
    | start => cases hw
    | whole => cases hw
    | array => cases hw
    | value => cases hw
    | key h hent hroom hM =>
      unfold json_writer_map_key at hw
      simp only [ne_eq, not_true_eq_false, Bool.true_eq_false, or_self, if_false] at hw
      split at hw
      · cases hw
      · next v hv =>
        obtain ⟨hslice, hf, hr⟩ := string_same hp hv
        cases hw
        rw [show (v.put [58]).root_written = root from hr]
        exact .value h hent hroom hM hslice
  | null => cases hw
  | boolean val => cases hw
  | sint val => cases hw
  | uint val => cases hw
  | floating val => cases hw
  | bytes slice => cases hw
  | array_begin => cases hw
  | array_end => cases hw
  | map_begin => cases hw
  | map_end => cases hw

theorem write_inside (hp : platform.Sound) {ts : List (CSerdeToken F)} {token : CSerdeToken F}
    (h : Inside platform.isfinite max_depth ts w.frames w.root_written)
    (hw : w.json_cserde_write platform max_depth token = some w') :
    Inside platform.isfinite max_depth (ts ++ [token]) w'.frames w'.root_written := by
  unfold json_cserde_write at hw
  split at hw
  · exact write_value_inside hp h hw
  · split at hw
    · exact map_key_inside hp h hw
    · exact write_value_inside hp h hw

theorem run_inside (hp : platform.Sound) {us : List (CSerdeToken F)} (ts : List (CSerdeToken F))
    (h : Inside platform.isfinite max_depth ts w.frames w.root_written)
    (hw : w.run platform max_depth us = some w') :
    Inside platform.isfinite max_depth (ts ++ us) w'.frames w'.root_written := by
  induction us generalizing ts w with
  | nil =>
    cases hw
    rw [List.append_nil]
    exact h
  | cons token us ih =>
    rw [run_cons] at hw
    obtain ⟨v, hv, hw⟩ := Option.bind_eq_some_iff.mp hw
    have := ih _ (write_inside hp h hv) hw
    rwa [List.append_assoc] at this

/-- The writer takes the tokens of the valid documents within its depth, and their text
is the compact text of the value. -/
theorem text_iff (hp : platform.Sound) {tokens : List (CSerdeToken F)} :
    json_cserde_text platform max_depth tokens = some text ↔
      ∃ d : Document F, d.tokens = tokens ∧ d.Valid platform.isfinite ∧ d.depth ≤ max_depth ∧
        text = json_serialize (d.value platform.format) := by
  constructor
  · intro h
    obtain ⟨w, hw, hfin⟩ := Option.bind_eq_some_iff.mp h
    have hin := run_inside hp [] .start hw
    unfold json_cserde_finish at hfin
    split at hfin
    · cases hfin
    · next hno =>
      cases hfin
      obtain ⟨frames, root, sink⟩ := w
      obtain rfl : root = true := by simpa using fun hr => hno (Or.inl hr)
      obtain rfl : frames = [] := by
        by_contra hne
        exact hno (Or.inr (by simpa using hne))
      cases hin with
      | @whole d hd =>
        have hrun := run_document hp d start ⟨[], true, []⟩ rfl hd
        have he := Option.some.inj (hw.symm.trans hrun)
        refine ⟨d, rfl, hd.valid, by simpa using hd.depth, ?_⟩
        exact congrArg Writer.sink he
  · rintro ⟨d, rfl, hvalid, hdepth, rfl⟩
    have hfit : d.Fits platform.isfinite max_depth start.frames.length :=
      ⟨hvalid, Nat.le_trans (Nat.le_of_eq (Nat.zero_add _)) hdepth⟩
    have hrun := run_document hp d start ⟨[], true, []⟩ rfl hfit
    unfold json_cserde_text
    rw [show d.tokens.foldlM (json_cserde_write platform max_depth) start = _ from hrun]
    rfl

end Writer

end SaltsUtils.Json
