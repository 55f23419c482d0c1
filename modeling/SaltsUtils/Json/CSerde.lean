import SaltsUtils.Library.Decimal
import SaltsUtils.Json.Serialize

/-!
# JSON as a stream of CSerde tokens

The writer sends the text of each token to its sink, which takes all of it here; the
frames of the open containers say where a comma or a key belongs. The reader walks a
parsed value.
-/

set_option autoImplicit false

namespace SaltsUtils.Json

inductive CSerdeToken (F : Type) where
  | null
  | boolean (val : Bool)
  | sint (val : Int64)
  | uint (val : UInt64)
  | floating (val : F)
  | string (slice : Bytes)
  | bytes (slice : Bytes)
  | array_begin
  | array_end
  | map_begin
  | map_end

/-- What the adapters call: the UTF-8 check, the doubles with `isfinite` and the format
`%.17g`, and whether the double of a number text is finite. -/
structure Platform (F : Type) where
  vstr_utf8_valid : Bytes → Bool
  isfinite : F → Bool
  format : F → Bytes
  number_finite : Bytes → Bool

def format_sint (val : Int64) : Bytes :=
  if val.toInt < 0 then 45 :: Decimal.numeral (-val.toInt).toNat
  else Decimal.numeral val.toInt.toNat

def format_uint (val : UInt64) : Bytes := Decimal.numeral val.toNat

inductive BeginKind where
  | array
  | map
  deriving DecidableEq

structure WriterFrame where
  begin_kind : BeginKind
  count : ℕ
  expect_key : Bool
  deriving DecidableEq

structure Writer where
  frames : List WriterFrame
  root_written : Bool
  sink : Bytes
  deriving DecidableEq

def writer_escape (ch : ℕ) : Bytes :=
  if ch = 34 then [92, 34]
  else if ch = 92 then [92, 92]
  else if ch = 8 then [92, 98]
  else if ch = 12 then [92, 102]
  else if ch = 10 then [92, 110]
  else if ch = 13 then [92, 114]
  else if ch = 9 then [92, 116]
  else if ch < 0x20 then [92, 117, 48, 48, hex_char (ch / 16 % 16), hex_char (ch % 16)]
  else [ch]

def comma_for (count : ℕ) : Bytes := if count ≠ 0 then [44] else []

namespace Writer
variable {F : Type} (platform : Platform F)

variable (w : Writer)

def put (text : Bytes) : Writer := { w with sink := w.sink ++ text }

def json_writer_string (slice : Bytes) : Option Writer :=
  if platform.vstr_utf8_valid slice then
    some (w.put (34 :: slice.flatMap writer_escape ++ [34]))
  else none

def json_writer_before_value : Option Writer :=
  match w.frames with
  | [] => if w.root_written then none else some { w with root_written := true }
  | frame :: frames =>
    if frame.begin_kind = .array then
      some { w.put (comma_for frame.count) with
        frames := { frame with count := frame.count + 1 } :: frames }
    else if frame.begin_kind ≠ .map ∨ frame.expect_key = true then none
    else some { w with frames := { frame with expect_key := true, count := frame.count + 1 } :: frames }

def json_writer_map_key : CSerdeToken F → Option Writer
  | .string slice =>
    match w.frames with
    | [] => none
    | frame :: frames =>
      if frame.begin_kind ≠ .map ∨ frame.expect_key = false then none
      else
        match (w.put (comma_for frame.count)).json_writer_string platform slice with
        | none => none
        | some w => some { w.put [58] with frames := { frame with expect_key := false } :: frames }
  | _ => none

def json_writer_number (text : Bytes) : Option Writer :=
  if text.length = 0 ∨ 64 ≤ text.length then none else some (w.put text)

def write_end (kind : BeginKind) : Option Writer :=
  match w.frames with
  | [] => none
  | frame :: frames =>
    if kind = .array ∧ frame.begin_kind ≠ .array ∨
        kind = .map ∧ (frame.begin_kind ≠ .map ∨ frame.expect_key = false) then none
    else some { w.put (if kind = .array then [93] else [125]) with frames := frames }

def write_begin (max_depth : ℕ) (w : Writer) (kind : BeginKind) : Option Writer :=
  if max_depth ≤ w.frames.length then none
  else
    match w.json_writer_before_value with
    | none => none
    | some w =>
      some { w.put (if kind = .array then [91] else [123]) with
        frames := ⟨kind, 0, decide (kind = .map)⟩ :: w.frames }

def write_scalar : CSerdeToken F → Option Writer
  | .null => some (w.put null_word)
  | .boolean val => some (w.put (if val then true_word else false_word))
  | .sint val => w.json_writer_number (format_sint val)
  | .uint val => w.json_writer_number (format_uint val)
  | .floating val =>
    if platform.isfinite val then w.json_writer_number (platform.format val) else none
  | .string slice => w.json_writer_string platform slice
  | _ => none

def at_key : Bool :=
  match w.frames with
  | [] => false
  | frame :: _ => decide (frame.begin_kind = .map) && frame.expect_key

def write_value (max_depth : ℕ) (w : Writer) : CSerdeToken F → Option Writer
  | .array_end => w.write_end .array
  | .map_end => w.write_end .map
  | .array_begin => w.write_begin max_depth .array
  | .map_begin => w.write_begin max_depth .map
  | .bytes _ => none
  | token => w.json_writer_before_value.bind fun w => w.write_scalar platform token

def json_cserde_write (max_depth : ℕ) (w : Writer) (token : CSerdeToken F) : Option Writer :=
  match token with
  | .map_end => w.write_value platform max_depth .map_end
  | token =>
    if w.at_key then w.json_writer_map_key platform token
    else w.write_value platform max_depth token

def json_cserde_finish : Option Bytes :=
  if w.root_written = false ∨ w.frames.length ≠ 0 then none else some w.sink

def start : Writer := ⟨[], false, []⟩

def json_cserde_text (max_depth : ℕ) (tokens : List (CSerdeToken F)) : Option Bytes :=
  (tokens.foldlM (json_cserde_write platform max_depth) start).bind json_cserde_finish

end Writer

inductive ReaderFrame where
  | array (next : List Value)
  | object (next : List (Bytes × Value)) (object_value_pending : Bool)

structure Reader where
  pending : Option Value
  frames : List ReaderFrame

def int64_limit : ℕ := 2 ^ 63

def uint64_max : ℕ := 2 ^ 64 - 1

/-- The loop over the digits of an integer. -/
def json_cserde_magnitude (limit magnitude : ℕ) : Bytes → Option ℕ
  | [] => some magnitude
  | ch :: rest =>
    if is_digit ch = false then none
    else if (limit - (ch - 48)) / 10 < magnitude then none
    else json_cserde_magnitude limit (magnitude * 10 + (ch - 48)) rest

def json_cserde_integer_token {F : Type} (text : Bytes) : Option (CSerdeToken F) :=
  match text with
  | [] => none
  | ch :: rest =>
    if ch = 45 then
      if rest = [] then none
      else
        (json_cserde_magnitude int64_limit 0 rest).map fun magnitude =>
          .sint (if magnitude = int64_limit then Int64.minValue else -Int64.ofNat magnitude)
    else
      (json_cserde_magnitude uint64_max 0 (ch :: rest)).map fun magnitude =>
        .uint (UInt64.ofNat magnitude)

namespace Reader
variable {F : Type} (platform : Platform F) (value_of : Bytes → F)

def json_cserde_number_token (text : Bytes) : Option (CSerdeToken F) :=
  if platform.number_finite text = false then none
  else if text.contains 46 = false ∧ text.contains 101 = false ∧ text.contains 69 = false then
    json_cserde_integer_token text
  else some (.floating (value_of text))

def json_cserde_push_container (max_depth : ℕ) (r : Reader) (frame : ReaderFrame) : Option Reader :=
  if max_depth ≤ r.frames.length then none else some { r with frames := frame :: r.frames }

def json_cserde_emit_value (max_depth : ℕ) (r : Reader) : Value → Option (CSerdeToken F × Reader)
  | .null => some (.null, r)
  | .bool val => some (.boolean val, r)
  | .number lexeme =>
    (json_cserde_number_token platform value_of lexeme).map fun token => (token, r)
  | .string str => some (.string str, r)
  | .array elements =>
    (json_cserde_push_container max_depth r (.array elements)).map fun r => (.array_begin, r)
  | .object pairs =>
    (json_cserde_push_container max_depth r (.object pairs false)).map fun r => (.map_begin, r)

def json_cserde_next (max_depth : ℕ) (r : Reader) : Option (Option (CSerdeToken F × Reader)) :=
  match r.pending with
  | some V => (json_cserde_emit_value platform value_of max_depth { r with pending := none } V).map some
  | none =>
    match r.frames with
    | [] => some none
    | .array [] :: frames => some (some (.array_end, { r with frames := frames }))
    | .array (V :: rest) :: frames =>
      (json_cserde_emit_value platform value_of max_depth ⟨none, .array rest :: frames⟩ V).map some
    | .object [] _ :: frames => some (some (.map_end, { r with frames := frames }))
    | .object ((K, V) :: rest) false :: frames =>
      some (some (.string K, ⟨none, .object ((K, V) :: rest) true :: frames⟩))
    | .object ((_, V) :: rest) true :: frames =>
      (json_cserde_emit_value platform value_of max_depth ⟨none, .object rest false :: frames⟩ V).map
        some

/-- The tokens up to the end of the document, if there are at most `fuel`. -/
def read_run (max_depth : ℕ) : ℕ → Reader → Option (List (CSerdeToken F))
  | 0, _ => none
  | fuel + 1, r =>
    match json_cserde_next platform value_of max_depth r with
    | none => none
    | some none => some []
    | some (some (token, r)) => (read_run max_depth fuel r).map (token :: ·)

def create (root : Value) : Reader := ⟨some root, []⟩

end Reader

end SaltsUtils.Json
