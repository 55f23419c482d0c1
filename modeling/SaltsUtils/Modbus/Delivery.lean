import SaltsUtils.Library.Outcome
import SaltsUtils.Modbus.Stream

/-!
# What serial lines and TCP streams deliver
-/

set_option autoImplicit false

/-!
## Frames on a serial line

An RTU stream gets data and, between frames, calls that mark a boundary.
-/

namespace SaltsUtils.Modbus

inductive RtuCall
  | feed (bytes : Bytes)
  | boundary
deriving DecidableEq

def RtuCall.span : RtuCall → Span UInt8
  | feed bytes => .cells bytes
  | boundary => .null 0

def rtu_after (s : ModbusStream) (calls : List RtuCall) : ModbusStream :=
  calls.foldl (fun s c => (modbus_stream_feed s c.span).2) s

def rtu_answer (s : ModbusStream) (calls : List RtuCall) : Except ModbusParseResult ModbusAdu :=
  (modbus_stream_feed (rtu_after s calls) RtuCall.boundary.span).1

/-- Every feed has data and found room for it. -/
def Accepted : ModbusStream → List RtuCall → Prop
  | _, [] => True
  | s, .boundary :: calls => Accepted (modbus_stream_feed s RtuCall.boundary.span).2 calls
  | s, .feed bytes :: calls => bytes ≠ [] ∧
      (modbus_stream_feed s (.cells bytes)).1 ≠ .error .bufferOverflow ∧
      Accepted (modbus_stream_feed s (.cells bytes)).2 calls

/-- The frames between the boundaries, the first one begun with `piece`, and what has been
fed behind the last boundary. -/
def pieces (piece : Bytes) : List RtuCall → List Bytes × Bytes
  | [] => ([], piece)
  | .feed bytes :: calls => pieces (piece ++ bytes) calls
  | .boundary :: calls => ((pieces [] calls).1.cons piece, (pieces [] calls).2)

def parses (frame : Bytes) : Bool := (modbus_rtu_parse frame).toBool

/-- What the stream still has of frames that it has refused. -/
def unread (left piece : Bytes) : List RtuCall → Bytes
  | [] => left
  | .feed bytes :: calls => unread left (piece ++ bytes) calls
  | .boundary :: calls =>
    unread (if parses (left ++ piece) then [] else left ++ piece) [] calls

structure ModbusStream.Serial (s : ModbusStream) (text : Bytes) : Prop where
  transport : s.transport = .rtu
  size : s.buffer.length = s.buffer_size
  buffered_le : s.buffered ≤ s.buffer_size
  text : s.text = text

namespace ModbusStream.Serial

variable {s : ModbusStream} {text bytes : Bytes}

theorem length (h : s.Serial text) : text.length = s.buffered := by
  have := h.size
  have := h.buffered_le
  rw [← h.text, ModbusStream.text, List.length_take]
  omega

theorem create (buffer_size : ℕ) (fresh : ℕ → UInt8) :
    (modbus_stream_create .rtu buffer_size fresh).Serial [] := by
  constructor <;> simp [modbus_stream_create, ModbusStream.text]

theorem feed (h : s.Serial text) (hb : bytes ≠ [])
    (ha : (modbus_stream_feed s (.cells bytes)).1 ≠ .error .bufferOverflow) :
    (modbus_stream_feed s (.cells bytes)).2.Serial (text ++ bytes) := by
  have hpos : 0 < bytes.length := List.length_pos_iff.mpr hb
  have hsize := h.size
  rw [modbus_stream_feed] at ha ⊢
  simp only [Span.size_cells, Span.isNull_cells, Span.data_cells, Bool.false_eq_true, and_false,
    if_false, if_pos hpos, h.transport] at ha ⊢
  by_cases hroom : s.buffer_size < s.buffered + bytes.length
  · rw [if_pos hroom] at ha
    exact absurd rfl ha
  · rw [if_neg hroom, modbus_stream_boundary, if_pos hpos]
    refine ⟨rfl, (length_overwrite (by omega)).trans hsize, by dsimp only; omega, ?_⟩
    rw [← h.text]
    exact take_overwrite (by omega)

theorem boundary (h : s.Serial text) :
    (text ≠ [] → (modbus_stream_feed s RtuCall.boundary.span).1 =
      (modbus_rtu_parse text).map .rtu) ∧
    (modbus_stream_feed s RtuCall.boundary.span).2.Serial (if parses text then [] else text) := by
  have hlen := h.length
  have hle := h.buffered_le
  have htext : s.buffer.take s.buffered = text := h.text
  rw [modbus_stream_feed]
  simp only [RtuCall.span, Span.size_null, Nat.lt_irrefl, false_and, if_false, Nat.add_zero,
    if_neg (Nat.not_lt.mpr hle), h.transport]
  rw [modbus_stream_boundary, if_neg (Nat.lt_irrefl 0)]
  by_cases hzero : s.buffered = 0
  · have hnil : text = [] := List.eq_nil_of_length_eq_zero (hlen.trans hzero)
    rw [if_pos hzero]
    refine ⟨fun hne => absurd hnil hne, ?_⟩
    rw [hnil, ite_self]
    exact hnil ▸ h
  · rw [if_neg hzero, htext]
    cases hparse : modbus_rtu_parse text with
    | error e =>
      have : parses text = false := by rw [parses, hparse]; rfl
      rw [this]
      exact ⟨fun _ => rfl, h⟩
    | ok adu =>
      have : parses text = true := by rw [parses, hparse]; rfl
      rw [this]
      exact ⟨fun _ => rfl, h.transport, h.size, Nat.zero_le _, List.take_zero⟩

end ModbusStream.Serial

/-- The text of a stream is what is unread of refused frames and what has been fed since
the last boundary. -/
theorem rtu_after_serial {s : ModbusStream} {left piece : Bytes} {calls : List RtuCall}
    (h : s.Serial (left ++ piece)) (ha : Accepted s calls) :
    (rtu_after s calls).Serial (unread left piece calls ++ (pieces piece calls).2) := by
  induction calls generalizing s left piece with
  | nil => exact h
  | cons c calls ih =>
    cases c with
    | feed bytes =>
      have hfed := h.feed ha.1 ha.2.1
      rw [List.append_assoc] at hfed
      exact ih hfed ha.2.2
    | boundary =>
      have hb := h.boundary.2
      rw [← List.append_nil (if parses (left ++ piece) = true then [] else left ++ piece)] at hb
      exact ih hb ha

theorem unread_of_parses {piece : Bytes} {calls : List RtuCall}
    (h : ∀ frame ∈ (pieces piece calls).1, frame ≠ [] → parses frame = true) :
    unread [] piece calls = [] := by
  induction calls generalizing piece with
  | nil => rfl
  | cons c calls ih =>
    cases c with
    | feed bytes => exact ih h
    | boundary =>
      have hhead := h piece (List.mem_cons_self ..)
      have hnext : (if parses ([] ++ piece) then [] else [] ++ piece) = [] := by
        rw [List.nil_append]
        by_cases hp : piece = []
        · rw [hp, ite_self]
        · rw [if_pos (hhead hp)]
      rw [unread, hnext]
      exact ih fun frame hf => h frame (List.mem_cons_of_mem _ hf)

/-- In a run in which every frame before the last has been a good one, a boundary call
answers what its frame parses to. -/
theorem modbus_rtu_framed (buffer_size : ℕ) (fresh : ℕ → UInt8) (calls : List RtuCall)
    (ha : Accepted (modbus_stream_create .rtu buffer_size fresh) calls)
    (hp : ∀ frame ∈ (pieces [] calls).1, frame ≠ [] → parses frame = true)
    (hd : (pieces [] calls).2 ≠ []) :
    rtu_answer (modbus_stream_create .rtu buffer_size fresh) calls =
      (modbus_rtu_parse (pieces [] calls).2).map .rtu := by
  have h := @rtu_after_serial _ [] [] calls
    (ModbusStream.Serial.create buffer_size fresh) ha
  rw [unread_of_parses hp, List.nil_append] at h
  exact h.boundary.1 hd

def statusFrame : Bytes := [1, 7, 0x41, 0xE2]

theorem modbus_rtu_framed_twice :
    rtu_answer (modbus_stream_create .rtu 0 fun _ => 0)
        [.feed [1, 7], .feed [0x41, 0xE2], .boundary, .feed statusFrame] =
      (modbus_rtu_parse statusFrame).map .rtu :=
  modbus_rtu_framed 0 (fun _ => 0) _
    ⟨by decide, by decide +kernel, by decide, by decide +kernel, by decide, by decide +kernel,
      trivial⟩
    (by decide +kernel) (by decide)

/-- An intact frame is refused because one byte was lost in front of it. -/
theorem modbus_rtu_spoils :
    ¬ ∀ (buffer_size : ℕ) (fresh : ℕ → UInt8) (calls : List RtuCall),
      Accepted (modbus_stream_create .rtu buffer_size fresh) calls → (pieces [] calls).2 ≠ [] →
      rtu_answer (modbus_stream_create .rtu buffer_size fresh) calls =
        (modbus_rtu_parse (pieces [] calls).2).map .rtu := by
  intro h
  have := h 0 (fun _ => 0) [.feed [0], .boundary, .feed statusFrame]
    ⟨by decide, by decide +kernel, by decide, by decide +kernel, trivial⟩ (by decide)
  revert this
  decide +kernel

/-!
## What a TCP stream delivers

The units come out of a stream in order, each once, with all their fields.
-/

/-- A call of a stream. -/
abbrev Call := Feed ModbusStream (Span UInt8) (Except ModbusParseResult ModbusAdu)

def Call.shown (c : Call) : Option Letter :=
  match c.result with
  | .ok (.tcp adu) => some (adu.letter c.after.buffer)
  | _ => none

def Call.sent (c : Call) : Option Letter :=
  match c.result with
  | .ok (.tcp adu) => some (adu.letter (c.before.text ++ c.data.data))
  | _ => none

/-- Where the unread text starts with a whole unit, the bytes behind the unit repeat its data from
their ninth on, as far as there are any. -/
def Undisturbed (text : Bytes) : Prop :=
  ∀ adu, modbus_tcp_parse text = .ok adu →
    ((text.drop adu.consumed).drop 8).take adu.pdu.data_size <+: adu.pdu.read text

instance (text : Bytes) : Decidable (Undisturbed text) :=
  match h : modbus_tcp_parse text with
  | .error e => isTrue fun adu ha => by rw [h] at ha; cases ha
  | .ok adu =>
    decidable_of_iff
      (((text.drop adu.consumed).drop 8).take adu.pdu.data_size <+: adu.pdu.read text) (by
        rw [Undisturbed, h]
        simp)

def Chunk (data : Span UInt8) : Prop := data.isNull → data.size = 0

def tcpReceiver : Receiver modbus_tcp_framing modbus_stream_feed where
  Holds := ModbusStream.Holds
  text := ModbusStream.text
  bytes := Span.data
  Good result := result ≠ .error .bufferOverflow
  Looks := Chunk
  message := Call.sent
  holds_feed d h _ := (feed_spec h d).1
  text_message {s} d {l} h _ hl := by
    have hfed := (feed_spec h d).2
    cases hout : modbus_stream_feed s d with
    | mk r s' =>
      rw [hout] at hfed hl
      cases hfed with
      | null _ _ => cases hl
      | full _ => cases hl
      | scanned hscan =>
        cases hscan with
        | message parsed left _ =>
          cases hl
          exact ⟨_, modbus_tcp_verdict_message.mpr ⟨_, parsed, rfl, rfl⟩, left⟩
        | waiting _ _ => cases hl
        | oversized => cases hl
  text_none {s} d h hg hl := by
    have hfed := (feed_spec h d).2
    cases hout : modbus_stream_feed s d with
    | mk r s' =>
      rw [hout] at hfed hl hg
      cases hfed with
      | null hn hsize =>
        refine ⟨?_, fun hlook => absurd (hlook hn) (by omega)⟩
        cases d with
        | null n => rw [Span.data_null, List.append_nil]
        | cells d => cases hn
      | full _ => exact absurd rfl hg
      | scanned hscan =>
        cases hscan with
        | message _ _ _ => cases hl
        | waiting parsed left => exact ⟨left, fun _ => left ▸ stuck_of_parse parsed⟩
        | oversized => exact absurd rfl hg

theorem shown_eq_sent_iff {s : ModbusStream} (h : s.Holds) (d : Span UInt8)
    (hg : (modbus_stream_feed s d).1 ≠ .error .bufferOverflow) (hn : Chunk d) :
    Call.shown ⟨s, d, (modbus_stream_feed s d).1, (modbus_stream_feed s d).2⟩ =
        Call.sent ⟨s, d, (modbus_stream_feed s d).1, (modbus_stream_feed s d).2⟩ ↔
      Undisturbed (s.text ++ d.data) := by
  have hfed := (feed_spec h d).2
  cases hout : modbus_stream_feed s d with
  | mk r s' =>
    rw [hout] at hfed hg
    cases hfed with
    | null hnull hsize => exact absurd (hn hnull) (by omega)
    | full _ => exact absurd rfl hg
    | scanned hscan =>
      cases hscan with
      | message parsed _ shown =>
        simp only [Call.shown, Call.sent, ModbusTcpAdu.letter, Option.some.injEq, Prod.mk.injEq,
          true_and, shown, Undisturbed, parsed, Except.ok.injEq, forall_eq']
      | waiting parsed _ =>
        refine iff_of_true rfl fun adu ha => ?_
        rw [parsed] at ha
        cases ha
      | oversized => exact absurd rfl hg

def tcp_run (buffer_size : ℕ) (fresh : ℕ → UInt8) (calls : List (Span UInt8)) : List Call :=
  feeds modbus_stream_feed (modbus_stream_create .tcp buffer_size fresh) calls

def TcpUnit.letter (u : TcpUnit) : Letter := (u.adu, u.data)

section
variable {s : ModbusStream} {calls : List (Span UInt8)}

theorem reads_units {units : List TcpUnit} (hv : ∀ u ∈ units, u.Valid) :
    modbus_tcp_framing.Reads (units.flatMap TcpUnit.wire) (units.map TcpUnit.letter) [] := by
  induction units with
  | nil => exact .stop _
  | cons u units ih =>
    rw [List.flatMap_cons]
    refine .next (modbus_tcp_verdict_wire (hv u (by simp)) _) ?_
    rw [List.drop_left]
    exact ih fun u' hu' => hv u' (by simp [hu'])

/-- The text gives the units in order, each once, and all of them once there is no whole unit
left. -/
theorem sent_units {units : List TcpUnit} (hs : s.Holds) (ht : s.text = [])
    (hv : ∀ u ∈ units, u.Valid) (hcut : calls.flatMap Span.data = units.flatMap TcpUnit.wire)
    (hg : tcpReceiver.AllGood s calls) :
    ∃ more, units.map TcpUnit.letter =
        (feeds modbus_stream_feed s calls).filterMap Call.sent ++ more ∧
      modbus_tcp_framing.Reads (fed modbus_stream_feed s calls).text more [] := by
  have hr := (Receiver.reads_feeds (R := tcpReceiver) hs hg).1
  change modbus_tcp_framing.Reads (s.text ++ calls.flatMap Span.data) _ _ at hr
  rw [ht, List.nil_append, hcut] at hr
  exact Framing.reads_complete hr (reads_units hv)

theorem stuck_of_needMore {d : Span UInt8} (h : s.Holds)
    (hr : (modbus_stream_feed s d).1 = .error .needMore) :
    modbus_tcp_framing.Stuck (modbus_stream_feed s d).2.text := by
  have hfed := (feed_spec h d).2
  cases hout : modbus_stream_feed s d with
  | mk r s' =>
    rw [hout] at hfed hr
    subst hr
    cases hfed with
    | scanned hscan =>
      cases hscan with
      | waiting parsed left => exact left ▸ stuck_of_parse parsed

theorem fed_stuck (hs : s.Holds) (hg : tcpReceiver.AllGood s calls) {c : Call}
    (hc : (feeds modbus_stream_feed s calls).getLast? = some c)
    (hr : c.result = .error .needMore) :
    modbus_tcp_framing.Stuck (fed modbus_stream_feed s calls).text := by
  induction calls using List.reverseRecOn with
  | nil => cases hc
  | append_singleton calls d _ =>
    obtain ⟨hg₁, -⟩ := Receiver.allGood_append.mp hg
    rw [feeds_append] at hc
    simp only [feeds, List.getLast?_append, List.getLast?_singleton, Option.some_or,
      Option.some.injEq] at hc
    subst hc
    rw [fed_append]
    exact stuck_of_needMore (Receiver.reads_feeds (R := tcpReceiver) hs hg₁).2 hr

theorem shown_eq_sent_feeds (hs : s.Holds) (hg : tcpReceiver.AllGood s calls)
    (hw : ∀ d ∈ calls, Chunk d) :
    (∀ c ∈ feeds modbus_stream_feed s calls, Call.shown c = Call.sent c) ↔
      ∀ c ∈ feeds modbus_stream_feed s calls, Undisturbed (c.before.text ++ c.data.data) := by
  induction calls generalizing s with
  | nil => simp [feeds]
  | cons d calls ih =>
    obtain ⟨hd, hds⟩ := Receiver.allGood_cons.mp hg
    simp only [feeds, List.forall_mem_cons]
    rw [shown_eq_sent_iff hs d hd (hw d (by simp)),
      ih (tcpReceiver.holds_feed d hs hd) hds fun d' hd' => hw d' (by simp [hd'])]

end

theorem shown_isSome (c : Call) : (Call.shown c).isSome = (Call.sent c).isSome := by
  obtain ⟨before, data, result, after⟩ := c
  rcases result with e | adu
  · rfl
  · cases adu <;> rfl

/-- The calls show the units in order with all their fields and their data, each once, and all of
them when the last call asks for more. -/
structure Delivers (run : List Call) (units : List TcpUnit) : Prop where
  in_order : run.filterMap Call.shown <+: units.map TcpUnit.letter
  complete : ∀ c, run.getLast? = some c → c.result = .error .needMore →
    run.filterMap Call.shown = units.map TcpUnit.letter

/-- A stream delivers the units that were put on the wire, however their bytes are cut into
feeds, exactly if no feed moves other bytes over the data of the unit it returns. -/
theorem modbus_tcp_delivers (units : List TcpUnit) (hv : ∀ u ∈ units, u.Valid) (buffer_size : ℕ)
    (fresh : ℕ → UInt8) (calls : List (Span UInt8)) (hw : ∀ d ∈ calls, Chunk d)
    (hcut : calls.flatMap Span.data = units.flatMap TcpUnit.wire)
    (hover : ∀ c ∈ tcp_run buffer_size fresh calls, c.result ≠ .error .bufferOverflow) :
    Delivers (tcp_run buffer_size fresh calls) units ↔
      ∀ c ∈ tcp_run buffer_size fresh calls, Undisturbed (c.before.text ++ c.data.data) := by
  have hs := create_holds buffer_size fresh
  obtain ⟨more, hmore, hread⟩ := sent_units hs (create_text _ _ _) hv hcut hover
  rw [tcp_run, ← shown_eq_sent_feeds hs hover hw]
  constructor
  · intro h
    refine eq_of_filterMap_initial (fun c _ => shown_isSome c) h.in_order ?_
    rw [hmore]
    exact List.prefix_append _ _
  · intro h
    have heq : (feeds modbus_stream_feed (modbus_stream_create .tcp buffer_size fresh)
        calls).filterMap Call.shown = (feeds modbus_stream_feed
          (modbus_stream_create .tcp buffer_size fresh) calls).filterMap Call.sent :=
      List.filterMap_congr h
    refine ⟨?_, fun c hc hr => ?_⟩
    · rw [heq, hmore]
      exact List.prefix_append _ _
    · have hstuck := fed_stuck hs hover hc hr
      obtain ⟨rfl, -⟩ := Framing.stuck_reads hstuck hread
      rw [heq, hmore, List.append_nil]

def firstUnit : TcpUnit := ⟨1, 1, 3, [0xAA]⟩
def secondUnit : TcpUnit := ⟨2, 1, 3, [0xBB]⟩

/-- Two units in one feed, with an empty feed behind: the first is returned with the data byte of
the second. -/
theorem modbus_tcp_moves_over :
    [Span.cells (firstUnit.wire ++ secondUnit.wire), .null 0, .null 0].flatMap Span.data =
        [firstUnit, secondUnit].flatMap TcpUnit.wire ∧
      (∀ c ∈ tcp_run 260 (fun _ => 0)
        [.cells (firstUnit.wire ++ secondUnit.wire), .null 0, .null 0],
        c.result ≠ .error .bufferOverflow) ∧
      ((tcp_run 260 (fun _ => 0)
        [.cells (firstUnit.wire ++ secondUnit.wire), .null 0, .null 0]).filterMap
          Call.shown).map Prod.snd = [[0xBB], [0xBB]] ∧
      ¬ Delivers (tcp_run 260 (fun _ => 0)
        [.cells (firstUnit.wire ++ secondUnit.wire), .null 0, .null 0])
          [firstUnit, secondUnit] := by
  refine ⟨by decide, by decide +kernel, by decide +kernel, fun h => ?_⟩
  exact absurd h.in_order (by decide +kernel)

/-- The same units in two feeds. -/
theorem modbus_tcp_delivers_apart :
    (∀ c ∈ tcp_run 260 (fun _ => 0) [.cells firstUnit.wire, .null 0, .cells secondUnit.wire,
      .null 0], Undisturbed (c.before.text ++ c.data.data)) ∧
    Delivers (tcp_run 260 (fun _ => 0) [.cells firstUnit.wire, .null 0, .cells secondUnit.wire,
      .null 0]) [firstUnit, secondUnit] := by
  have h : ∀ c ∈ tcp_run 260 (fun _ => 0) [.cells firstUnit.wire, .null 0,
      .cells secondUnit.wire, .null 0], Undisturbed (c.before.text ++ c.data.data) := by
    decide +kernel
  refine ⟨h, (modbus_tcp_delivers [firstUnit, secondUnit] (by decide) 260 (fun _ => 0)
    [.cells firstUnit.wire, .null 0, .cells secondUnit.wire, .null 0] ?_ (by decide)
    (by decide +kernel)).mpr h⟩
  simp [Chunk]

end SaltsUtils.Modbus
