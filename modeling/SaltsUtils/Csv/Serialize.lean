import Mathlib.Algebra.Ring.Nat
import SaltsUtils.Csv.Agreement

/-!
# Writing documents

`csv_to_string_n` of `src/parser/csv_parser/src/csv_parser.c`: a first pass adds up the
size of the rows, with every addition checked against `SIZE_MAX`, and a second one writes
them. Memory is taken to be available.
-/

set_option autoImplicit false

namespace SaltsUtils.Csv

def SIZE_MAX : ℕ := 2 ^ 64 - 1

def csv_field_needs_quoting (s : Bytes) : Bool :=
  s.any fun c => c == comma || c == doubleQuote || c == lf || c == cr

def csv_size_add (total amount : ℕ) : Option ℕ :=
  if amount > SIZE_MAX - total then none else some (total + amount)

def csv_field_quoted_len (s : Bytes) : Option ℕ :=
  s.foldlM (fun n c => csv_size_add n (if c = doubleQuote then 2 else 1)) 2

/-- The bytes of a field between its quotes. -/
def escaped (s : Bytes) : Bytes := s.flatMap fun c => if c = doubleQuote then [c, c] else [c]

def csv_write_field (s : Bytes) (quote : Bool) : Bytes :=
  if quote then doubleQuote::escaped s ++ [doubleQuote] else s

def csv_row_len_fields : ℕ → ℕ → Row → Option ℕ
  | _, total, [] => some total
  | col, total, f::rest => do
    let total ← (if col > 0 then csv_size_add total 1 else some total : Option ℕ)
    let field_len ← (if csv_field_needs_quoting f then csv_field_quoted_len f
      else some f.length : Option ℕ)
    let total ← csv_size_add total field_len
    csv_row_len_fields (col + 1) total rest

def csv_row_serialized_len (row : Row) : Option ℕ := do
  let total ← csv_row_len_fields 0 0 row
  csv_size_add total 1

def csv_row_write_fields : ℕ → Row → Bytes
  | _, [] => []
  | col, f::rest =>
    (if col > 0 then [comma] else []) ++ csv_write_field f (csv_field_needs_quoting f) ++
      csv_row_write_fields (col + 1) rest

def csv_row_write (row : Row) : Bytes := csv_row_write_fields 0 row ++ [lf]

/-- The header, if there is one, and the rows. -/
def CsvDoc.records (doc : CsvDoc) : List Row := doc.header.toList ++ doc.rows

def csv_total_len (records : List Row) : Option ℕ :=
  records.foldlM (fun total row => do
    let row_len ← csv_row_serialized_len row
    csv_size_add total row_len) 0

def csv_to_string_n (doc : CsvDoc) : Option Bytes := do
  let total ← csv_total_len doc.records
  if total = SIZE_MAX then none else some (doc.records.flatMap csv_row_write)

def sized (n : ℕ) : Option ℕ := if n ≤ SIZE_MAX then some n else none

theorem sized_add (a b : ℕ) : (sized a).bind (csv_size_add · b) = sized (a + b) := by
  unfold sized csv_size_add
  by_cases ha : a ≤ SIZE_MAX
  · rw [if_pos ha, Option.bind_some]
    split_ifs <;> first | rfl | omega
  · rw [if_neg ha, if_neg (by omega)]
    rfl

theorem size_add_sized (total n : ℕ) :
    (sized n).bind (csv_size_add total) = csv_size_add total n := by
  unfold sized
  split_ifs with h
  · rfl
  · exact (if_pos (by omega)).symm

theorem escaped_cons (c : UInt8) (s : Bytes) :
    escaped (c::s) = (if c = doubleQuote then [c, c] else [c]) ++ escaped s := List.flatMap_cons

theorem quoted_len_eq (s : Bytes) :
    csv_field_quoted_len s = sized (csv_write_field s true).length := by
  have h : ∀ (s : Bytes) (k : ℕ), ((sized k).bind fun k =>
      s.foldlM (fun n c => csv_size_add n (if c = doubleQuote then 2 else 1)) k) =
        sized (k + (escaped s).length) := by
    intro s
    induction s with
    | nil =>
      intro k
      exact Option.bind_fun_some (sized k)
    | cons c s ih =>
      intro k
      have hlen : (escaped (c::s)).length =
          (if c = doubleQuote then 2 else 1) + (escaped s).length := by
        rw [escaped_cons, List.length_append]
        split_ifs <;> rfl
      rw [hlen, ← Nat.add_assoc, ← ih, ← sized_add, Option.bind_assoc]
      rfl
  have hlen : (csv_write_field s true).length = 2 + (escaped s).length := by
    simp [csv_write_field]
    omega
  rw [hlen, ← h s 2]
  rfl

theorem row_len_fields_eq (row : Row) : ∀ col total : ℕ,
    ((sized total).bind fun total => csv_row_len_fields col total row) =
      sized (total + (csv_row_write_fields col row).length) := by
  induction row with
  | nil =>
    intro col total
    exact Option.bind_fun_some (sized total)
  | cons f row ih =>
    intro col total
    have hfield : ∀ k : ℕ, (if csv_field_needs_quoting f then csv_field_quoted_len f
        else some f.length).bind (csv_size_add k) =
          csv_size_add k (csv_write_field f (csv_field_needs_quoting f)).length := by
      intro k
      split_ifs with h
      · rw [quoted_len_eq, h, size_add_sized]
      · rw [eq_false_of_ne_true h]
        rfl
    have hcomma : ((sized total).bind fun total =>
        if col > 0 then csv_size_add total 1 else some total) =
          sized (total + (if col > 0 then [comma] else []).length) := by
      split_ifs
      · exact sized_add total 1
      · exact Option.bind_fun_some (sized total)
    rw [csv_row_write_fields, List.length_append, List.length_append, ← Nat.add_assoc,
      ← Nat.add_assoc, ← ih, ← sized_add, ← hcomma, Option.bind_assoc, Option.bind_assoc]
    simp only [csv_row_len_fields, Option.bind_eq_bind, ← hfield, Option.bind_assoc]

/-- The first pass finds the number of bytes that the second one writes, or that it is too
large. -/
theorem row_serialized_len_eq (row : Row) :
    csv_row_serialized_len row = sized (csv_row_write row).length := by
  have h := row_len_fields_eq row 0 0
  rw [show sized 0 = some 0 from rfl, Option.bind_some, Nat.zero_add] at h
  unfold csv_row_serialized_len csv_row_write
  rw [List.length_append, ← sized_add, h]
  rfl

theorem unescape_escaped (s : Bytes) : unescape_quotes_impl (escaped s) = s := by
  induction s with
  | nil => rfl
  | cons c s ih =>
    rw [escaped_cons]
    split_ifs with hc
    · rw [hc, List.cons_append, List.singleton_append, unescape_quotes_impl, if_pos ⟨rfl, rfl⟩, ih]
    · rw [List.singleton_append, unescape_cons hc, ih]

variable {after : Bytes}

theorem matchQuoted_escaped {s : Bytes} (hs : nul ∉ s) (hafter : after.head? ≠ some doubleQuote) :
    matchQuoted (escaped s ++ doubleQuote::after) = some (escaped s, after) := by
  induction s with
  | nil =>
    have hne : doubleQuote ≠ nul := by decide
    cases after with
    | nil => rfl
    | cons d after =>
      have hd : d ≠ doubleQuote := by simpa using hafter
      simp [escaped, matchQuoted, hne, hd]
  | cons c s ih =>
    have hne : doubleQuote ≠ nul := by decide
    have hc : c ≠ nul := fun h => hs (by simp [h])
    have ih := ih fun h => hs (by simp [h])
    rw [escaped_cons]
    split_ifs with hquote
    · subst hquote
      simp only [List.cons_append, List.nil_append, matchQuoted, if_neg hne, if_true, ih]
    · rw [List.cons_append, List.nil_append, List.cons_append, matchQuoted.eq_def]
      simp only [if_neg hc, if_neg hquote, ih, Option.map_some]

theorem write_fields_head (col : ℕ) (row : Row) (after : Bytes) :
    ∀ c ∈ (csv_row_write_fields (col + 1) row ++ lf::after).head?, c = comma ∨ c = lf := by
  cases row with
  | nil => simp [csv_row_write_fields]
  | cons f row => simp [csv_row_write_fields]

theorem not_quoting {f : Bytes} (h : ¬ csv_field_needs_quoting f = true) :
    ∀ c ∈ f, c ≠ comma ∧ c ≠ doubleQuote ∧ c ≠ lf ∧ c ≠ cr := by
  intro c hc
  simp only [csv_field_needs_quoting, List.any_eq_true, not_exists, not_and, Bool.or_eq_true,
    beq_iff_eq, not_or] at h
  obtain ⟨⟨⟨h₁, h₂⟩, h₃⟩, h₄⟩ := h c hc
  exact ⟨h₁, h₂, h₃, h₄⟩

section Lexer

theorem field_reads {st : LexerState} {f after : Bytes} (hf : nul ∉ f)
    (hafter : ∀ c ∈ after.head?, c = comma ∨ c = lf) (hst : f = [] → Gap st after) :
    ∃ token : CsvToken, token.type = .field ∧ token.fieldValue = f ∧
      Reads st (csv_write_field f (csv_field_needs_quoting f) ++ after) (.token token) after
        .afterField := by
  unfold csv_write_field
  split_ifs with hq
  · refine ⟨_, rfl, (fieldValue_quoted (escaped f)).trans (unescape_escaped f), ?_⟩
    simp only [List.cons_append, List.append_assoc, List.nil_append]
    refine .quoted (matchQuoted_escaped hf ?_)
    intro h
    rcases hafter _ h with h | h <;> exact absurd h (by decide)
  · by_cases hne : f = []
    · subst hne
      exact ⟨_, rfl, rfl, .gap (hst rfl)⟩
    · refine ⟨{ type := .field, value := f }, rfl, rfl, .plain hne ?_ ?_⟩
      · intro c hc
        obtain ⟨h₁, h₂, h₃, h₄⟩ := not_quoting hq c hc
        have h₅ : c ≠ nul := fun h => hf (h ▸ hc)
        simp [isSpecial, h₁, h₂, h₃, h₄, h₅]
      · intro c hc
        rcases hafter c hc with rfl | rfl <;> decide

theorem fields_parse {doc out : CsvDoc} (fields : Row) : ∀ (col : ℕ) (row : Row),
    (∀ f ∈ fields, nul ∉ f) → Parses .rowStart after [] (addNonempty doc (row ++ fields)) out →
    Parses .afterField (csv_row_write_fields (col + 1) fields ++ lf::after) row doc out := by
  induction fields with
  | nil =>
    intro col row _ h
    rw [List.append_nil] at h
    exact .newline (Reads.newline (n := [lf]) (by decide) (Or.inl rfl)) rfl h
  | cons f fields ih =>
    intro col row hf h
    have hhead := write_fields_head (col + 1) fields after
    obtain ⟨token, h₁, h₂, h₃⟩ := @field_reads .afterComma _ _ (hf f (by simp)) hhead fun _ =>
      Or.inl ⟨rfl, fun c hc => (hhead c hc).imp id Or.inl⟩
    have h₄ := ih (col + 1) (row ++ [f]) (fun g hg => hf g (by simp [hg]))
      (by rwa [List.append_assoc, List.singleton_append])
    rw [csv_row_write_fields, if_pos (Nat.succ_pos col)]
    simp only [List.append_assoc, List.cons_append, List.nil_append]
    exact .comma .comma rfl (.field h₃ h₁ (by rwa [h₂]))

/-- The rows that are written as an empty line. -/
def blank (row : Row) : Prop := row = [] ∨ row = [[]]

instance (row : Row) : Decidable (blank row) := inferInstanceAs (Decidable (_ ∨ _))

theorem row_parse {row : Row} {doc out : CsvDoc} (hrow : ∀ f ∈ row, nul ∉ f)
    (h : Parses .rowStart after [] (if blank row then doc else csv_doc_add_row doc row) out) :
    Parses .rowStart (csv_row_write row ++ after) [] doc out := by
  unfold csv_row_write
  rw [List.append_assoc, List.singleton_append]
  by_cases hb : blank row
  · rw [if_pos hb] at h
    have hline : csv_row_write_fields 0 row = [] := by
      rcases hb with rfl | rfl <;> rfl
    rw [hline]
    exact .newline (Reads.newline (n := [lf]) (by decide) (Or.inl rfl)) rfl h
  · rw [if_neg hb] at h
    cases row with
    | nil => exact absurd (Or.inl rfl) hb
    | cons f fields =>
      have hhead := write_fields_head 0 fields after
      have hgap : f = [] → Gap .rowStart (csv_row_write_fields 1 fields ++ lf::after) := by
        rintro rfl
        cases fields with
        | nil => exact absurd (Or.inr rfl) hb
        | cons g fields => exact Or.inr ⟨rfl, by simp [csv_row_write_fields]⟩
      obtain ⟨token, h₁, h₂, h₃⟩ := field_reads (hrow f (by simp)) hhead hgap
      have hadd : addNonempty doc ([f] ++ fields) = csv_doc_add_row doc (f::fields) := by
        simp [addNonempty]
      rw [← hadd] at h
      have h₄ := fields_parse fields 0 [f] (fun g hg => hrow g (by simp [hg])) h
      rw [csv_row_write_fields, if_neg (Nat.lt_irrefl 0), List.nil_append, List.append_assoc]
      exact .field h₃ h₁ (by rwa [h₂])

theorem records_parse (records : List Row) : ∀ doc : CsvDoc,
    (∀ row ∈ records, ∀ f ∈ row, nul ∉ f) →
    Parses .rowStart (records.flatMap csv_row_write) [] doc
      ((records.filter fun row => ¬ blank row).foldl csv_doc_add_row doc) := by
  induction records with
  | nil =>
    intro doc _
    exact .done (.done (by decide))
  | cons row records ih =>
    intro doc hrec
    rw [List.flatMap_cons]
    apply row_parse (hrec row (by simp))
    have h := ih (if blank row then doc else csv_doc_add_row doc row)
      fun r hr => hrec r (by simp [hr])
    by_cases hb : blank row
    · simpa [hb] using h
    · simpa [hb] using h

end Lexer

section Scanner
variable {o : CsvOptions} (hd : o.delimiter = comma) (hq : o.quote = doubleQuote)
include hq

theorem read_escaped (hafter : after.head? ≠ some doubleQuote) (s : Bytes) :
    ∀ r : Reading, r.in_quote = true → r.field_started = true → r.row_started = true →
    read o (escaped s ++ doubleQuote::after) r =
      read o after { r with field := r.field ++ s, in_quote := false } := by
  induction s with
  | nil =>
    intro r h₁ h₂ h₃
    rw [List.append_nil]
    exact read_close hq hafter h₁ h₂ h₃
  | cons c s ih =>
    intro r h₁ h₂ h₃
    have hpush : read o (escaped s ++ doubleQuote::after) (r.push c) =
        read o after { r with field := r.field ++ c::s, in_quote := false } := by
      rw [ih (r.push c) h₁ rfl rfl]
      cases r
      simp only at h₂ h₃
      subst h₂ h₃
      simp [Reading.push]
    rw [escaped_cons, ← hpush]
    split_ifs with hc
    · subst hc
      simp only [List.cons_append, List.nil_append]
      rw [read_cons, hq, if_pos h₁, if_pos rfl, List.head?_cons, if_pos rfl, List.tail_cons]
    · simp only [List.cons_append, List.nil_append]
      rw [read_cons, hq, if_pos h₁, if_neg hc]

include hd

theorem read_field {f after : Bytes} (hafter : ∀ c ∈ after.head?, c = comma ∨ c = lf) {r : Reading}
    (h₁ : r.in_quote = false) (h₂ : r.field_started = false) (h₃ : r.field = []) :
    ∃ r' : Reading, read o (csv_write_field f (csv_field_needs_quoting f) ++ after) r =
        read o after r' ∧ r'.in_quote = false ∧ r'.field = f ∧ r'.row = r.row ∧ r'.doc = r.doc ∧
        (r'.started = true ↔ r.started = true ∨ f ≠ []) := by
  unfold csv_write_field
  split_ifs with hquote
  · have hne : f ≠ [] := by
      rintro rfl
      cases hquote
    have hhead : after.head? ≠ some doubleQuote := by
      intro h
      rcases hafter _ h with h | h <;> exact absurd h (by decide)
    refine ⟨{ r with field := f, field_started := true, row_started := true }, ?_, h₁, rfl, rfl, rfl,
      by simp [Reading.started, hne]⟩
    simp only [List.cons_append, List.append_assoc, List.nil_append]
    rw [read_cons, if_neg (by simp [h₁]), if_pos ⟨h₂, hq.symm⟩,
      read_escaped hq hhead f (r.turn true) rfl rfl rfl]
    cases r
    simp only at h₁ h₃
    subst h₁ h₃
    rfl
  · have hword : ∀ (w : Bytes) (r : Reading), (∀ c ∈ w, c ≠ comma ∧ c ≠ doubleQuote ∧ c ≠ lf ∧
        c ≠ cr) → r.in_quote = false →
        read o (w ++ after) r = read o after (w.foldl Reading.push r) := by
      intro w
      induction w with
      | nil => exact fun _ _ _ => rfl
      | cons c w ih =>
        intro r hw hin
        obtain ⟨hc₁, hc₂, hc₃, hc₄⟩ := hw c (by simp)
        rw [List.cons_append, read_push hd hq hin ⟨hc₁, hc₄, hc₃⟩ (Or.inr hc₂)]
        exact ih (r.push c) (fun d hd => hw d (by simp [hd])) hin
    rw [hword f r (not_quoting hquote) h₁]
    by_cases hne : f = []
    · subst hne
      exact ⟨r, rfl, h₁, h₃, rfl, rfl, by simp⟩
    · refine ⟨_, rfl, ?_⟩
      rw [push_foldl hne, h₃]
      exact ⟨h₁, rfl, rfl, rfl, by simp [Reading.started, hne]⟩

theorem read_fields (fields : Row) : ∀ (col : ℕ) (r : Reading),
    r.in_quote = false → (r.started = true ∨ fields ≠ []) →
    read o (csv_row_write_fields (col + 1) fields ++ lf::after) r =
      read o after { doc := csv_doc_add_row r.doc (r.row ++ r.field::fields) } := by
  induction fields with
  | nil =>
    intro col r h₁ h₂
    have h₂ : r.started = true := by simpa using h₂
    rw [show csv_row_write_fields (col + 1) [] ++ lf::after = [lf] ++ after from rfl,
      read_newline hd hq h₁ (Or.inl rfl)]
    unfold Reading.endRow Reading.lastRow
    rw [h₂, h₁]
    rfl
  | cons f fields ih =>
    intro col r h₁ _
    rw [csv_row_write_fields, if_pos (Nat.succ_pos col)]
    simp only [List.append_assoc, List.cons_append, List.nil_append]
    rw [read_comma hd hq h₁]
    obtain ⟨r', h₃, h₄, h₅, h₆, h₇, h₈⟩ := @read_field o hd hq f _
      (write_fields_head (col + 1) fields after) r.endField h₁ rfl rfl
    rw [h₃, ih (col + 1) r' h₄ (Or.inl (h₈.mpr (Or.inl rfl))), h₅, h₆, h₇]
    simp [Reading.endField]

/-- What the scanner makes of a row that is written, where empty lines count. -/
def reread (row : Row) : Row := if row = [[]] then [] else row

theorem read_row (ho : o.skip_empty_rows = false) (row : Row) (doc : CsvDoc) :
    read o (csv_row_write row ++ after) { doc := doc } =
      read o after { doc := csv_doc_add_row doc (reread row) } := by
  unfold csv_row_write
  rw [List.append_assoc, List.singleton_append]
  by_cases hb : blank row
  · have hline : csv_row_write_fields 0 row = [] ∧ reread row = [] := by
      rcases hb with rfl | rfl <;> exact ⟨rfl, rfl⟩
    rw [hline.1, hline.2, List.nil_append, ← List.singleton_append,
      read_newline hd hq rfl (Or.inl rfl)]
    unfold Reading.endRow
    rw [ho]
    rfl
  · cases row with
    | nil => exact absurd (Or.inl rfl) hb
    | cons f fields =>
      obtain ⟨r', h₃, h₄, h₅, h₆, h₇, h₈⟩ := @read_field o hd hq f _
        (write_fields_head 0 fields after) { doc := doc } rfl rfl rfl
      have hstarted : r'.started = true ∨ fields ≠ [] := by
        by_cases hf : fields = []
        · exact Or.inl (h₈.mpr (Or.inr fun h => hb (Or.inr (by rw [h, hf]))))
        · exact Or.inr hf
      rw [csv_row_write_fields, if_neg (Nat.lt_irrefl 0), List.nil_append, List.append_assoc, h₃,
        read_fields hd hq fields 0 r' h₄ hstarted, h₅, h₆, h₇, reread,
        if_neg (fun h => hb (Or.inr h))]
      rfl

theorem records_read (ho : o.skip_empty_rows = false) (records : List Row) : ∀ doc : CsvDoc,
    read o (records.flatMap csv_row_write) { doc := doc } =
      some ((records.map reread).foldl csv_doc_add_row doc) := by
  induction records with
  | nil => exact fun _ => rfl
  | cons row records ih =>
    intro doc
    rw [List.flatMap_cons, read_row hd hq ho, ih]
    rfl

end Scanner

end SaltsUtils.Csv
