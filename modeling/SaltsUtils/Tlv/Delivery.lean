import SaltsUtils.Tlv.Stream

/-!
# What a frame stream delivers

However the bytes of a list of frames are cut into feeds, the stream returns the
frames that parsing each of them alone gives.
-/

set_option autoImplicit false

namespace SaltsUtils.Tlv

def frame_verdict (data : Bytes) : Verdict Letter :=
  match frame_parse data false with
  | .ok frame => .message (frame.letter data none) (frame_consumed frame)
  | .error .needMore => .more
  | .error _ => .refused

variable {data : Bytes} {l : Letter}

theorem frame_verdict_message {n : ℕ} :
    frame_verdict data = .message l n ↔ ∃ frame, frame_parse data false = .ok frame ∧
      frame.letter data none = l ∧ frame_consumed frame = n := by
  rw [frame_verdict]
  cases frame_parse data false with
  | ok frame => simp
  | error e => cases e <;> simp

variable {frame : Frame}

theorem frame_consumed_le (h : frame_parse data false = .ok frame) :
    frame_consumed frame ≤ data.length := by
  obtain ⟨payload_size, -, hl, hs, -⟩ := frame_parse_ok h
  rw [frame_consumed, hs]
  exact hl

theorem frame_letter_append (after : Bytes) (h : frame_parse data false = .ok frame) :
    frame.letter (data ++ after) none = frame.letter data none := by
  obtain ⟨payload_size, -, hl, hs, hp⟩ := frame_parse_ok h
  have hl' : 16 + payload_size.toNat ≤ data.length := hl
  rw [Frame.letter, Frame.letter, frame_read_input hp, frame_read_input hp, view, view,
    List.drop_append_of_le_length (by omega),
    List.take_append_of_le_length (by rw [List.length_drop]; omega)]

def frame_framing : Framing UInt8 Letter where
  verdict := frame_verdict
  size_pos h := by
    obtain ⟨frame, -, -, rfl⟩ := frame_verdict_message.mp h
    exact Nat.lt_add_right _ (by decide)
  size_le h := by
    obtain ⟨frame, hp, -, rfl⟩ := frame_verdict_message.mp h
    exact frame_consumed_le hp
  message_append after h := by
    obtain ⟨frame, hp, rfl, rfl⟩ := frame_verdict_message.mp h
    exact frame_verdict_message.mpr
      ⟨frame, frame_parse_append after hp (by simp), frame_letter_append after hp, rfl⟩
  refused_append {data} after h := by
    rw [frame_verdict] at h ⊢
    cases hp : frame_parse data false with
    | ok frame => simp [hp] at h
    | error e =>
      have he : e ≠ .needMore := by
        rintro rfl
        simp [hp] at h
      rw [frame_parse_append after hp (by simpa using he)]
      cases e <;> simp at he ⊢

theorem verdict_wire (h : l.payload.length ≤ MAX_PAYLOAD_SIZE) (after : Bytes) :
    frame_framing.verdict (l.wire ++ after) = .message l l.wire.length := by
  obtain ⟨frame, hp, hs, hl⟩ := frame_parse_wire h after false
  refine frame_verdict_message.mpr ⟨frame, hp, hl none, ?_⟩
  rw [frame_consumed, hs, Letter.wire_length]
  rfl

theorem stuck_of_needMore (h : frame_parse data false = .error .needMore) :
    frame_framing.Stuck data := by
  intro l n hv
  obtain ⟨frame, hp, -⟩ := frame_verdict_message.mp hv
  rw [h] at hp
  cases hp

/-- A feed is given its data and the pool of the thread as it is then. -/
abbrev Chunk := Span UInt8 × Option MemoryPool

def stream_call (sp : StreamParser) (d : Chunk) : (StreamState × Option MemoryPool) × StreamParser :=
  let (state, sp, pool) := stream_parser_feed sp d.1 d.2
  ((state, pool), sp)

abbrev Call := Feed StreamParser Chunk (StreamState × Option MemoryPool)

def Call.received (c : Call) : Option Letter :=
  match c.result.1 with
  | .frameComplete frame => some (frame.letter [] c.result.2)
  | _ => none

theorem received_none {c : Call} (h : c.result.1 = .needMoreData) : c.received = none := by
  rw [Call.received, h]

theorem copied_received {text : Bytes} {parsed : Frame} {pool pool' : Option MemoryPool}
    (hp : frame_parse text false = .ok parsed)
    (hc : Copied parsed (parsed.read text none) pool frame pool') :
    frame.letter [] pool' = parsed.letter text none := by
  obtain ⟨payload_size, -, hl, hs, hpayload⟩ := frame_parse_ok hp
  have hl' : 16 + payload_size.toNat ≤ text.length := hl
  refine (copied_letter _ hpayload ?_ hc).1
  rw [frame_read_input hpayload]
  exact length_view (by omega)

def streamReceiver : Receiver frame_framing stream_call where
  Holds := StreamParser.Holds
  text := StreamParser.text
  bytes d := d.1.data
  Good result := result.1 ≠ .error
  Looks _ := True
  message := Call.received
  holds_feed d h _ := (feed_spec h d.1 d.2).1
  text_message {sp} d {l} h _ hl := by
    have hfed := (feed_spec h d.1 d.2).2.2
    dsimp only [stream_call] at hl ⊢
    cases hout : stream_parser_feed sp d.1 d.2 with
    | mk state out =>
      rw [hout] at hfed hl
      cases hfed with
      | null _ _ => cases hl
      | full _ _ => cases hl
      | scanned _ _ hscan =>
        cases hscan with
        | message parse copied left _ =>
          cases hl
          exact ⟨_, frame_verdict_message.mpr
            ⟨_, parse, (copied_received parse copied).symm, rfl⟩, left⟩
        | waiting _ _ => cases hl
        | refused _ _ _ => cases hl
        | oversized _ _ _ => cases hl
  text_none {sp} d h hg hl := by
    have hfed := (feed_spec h d.1 d.2).2.2
    dsimp only [stream_call] at hg hl ⊢
    cases hout : stream_parser_feed sp d.1 d.2 with
    | mk state out =>
      rw [hout] at hfed hl hg
      cases hfed with
      | null _ _ => exact absurd rfl hg
      | full _ _ => exact absurd rfl hg
      | scanned _ _ hscan =>
        cases hscan with
        | message _ _ _ _ => cases hl
        | waiting parse left => exact ⟨left, fun _ => left ▸ stuck_of_needMore parse⟩
        | refused _ _ _ => exact absurd rfl hg
        | oversized _ _ _ => exact absurd rfl hg

def Letter.Fits (l : Letter) (buffer_size : ℕ) : Prop :=
  l.payload.length ≤ MAX_PAYLOAD_SIZE ∧ l.wire.length ≤ buffer_size

def HasRoom (run : List Call) : Prop :=
  ∀ c ∈ run, c.before.buffered + c.data.1.size ≤ c.before.buffer_size

theorem scanned_good {buffer_size : ℕ} {text after : Bytes} {letters : List Letter}
    {pool : Option MemoryPool} {out : StreamState × StreamParser × Option MemoryPool}
    (hr : frame_framing.Reads (text ++ after) letters [])
    (hf : ∀ l ∈ letters, 16 + l.payload.length ≤ buffer_size)
    (h : Scanned buffer_size text pool out) : out.1 ≠ .error := by
  cases h with
  | message _ _ _ _ => simp
  | waiting _ _ => simp
  | @refused e sp' parse real _ =>
    obtain he | ⟨l, n, -, hv⟩ := Framing.reads_head hr
    · rw [(List.append_eq_nil_iff.mp he).1] at parse
      cases parse
      exact absurd rfl real
    · obtain ⟨frame, hp, -⟩ := frame_verdict_message.mp hv
      rw [frame_parse_append after parse (by simpa using real)] at hp
      cases hp
  | @oversized payload_size sp' peek large _ =>
    obtain he | ⟨l, n, hl, hv⟩ := Framing.reads_head hr
    · rw [(List.append_eq_nil_iff.mp he).1] at peek
      cases peek
    · obtain ⟨frame, hp, rfl, -⟩ := frame_verdict_message.mp hv
      obtain ⟨size, hpeek, htl, hs, hpayload⟩ := frame_parse_ok hp
      rw [frame_peek_size_append after peek (by simp)] at hpeek
      cases hpeek
      have hfit := hf _ hl
      have htl' : 16 + payload_size.toNat ≤ (text ++ after).length := htl
      have large' : buffer_size < 16 + payload_size.toNat := large
      rw [Frame.letter, frame_read_input hpayload, hs] at hfit
      rw [length_view (by omega)] at hfit
      omega

section
variable {sp : StreamParser} {calls : List Chunk} {letters : List Letter}

theorem feeds_good (hs : sp.Holds)
    (hr : frame_framing.Reads (sp.text ++ calls.flatMap fun d => d.1.data) letters [])
    (hf : ∀ l ∈ letters, 16 + l.payload.length ≤ sp.buffer_size)
    (hn : ∀ d ∈ calls, ¬ d.1.isNull) (hroom : HasRoom (feeds stream_call sp calls)) :
    streamReceiver.AllGood sp calls := by
  induction calls generalizing sp letters with
  | nil =>
    intro c hc
    cases hc
  | cons d calls ih =>
    have hspec := feed_spec hs d.1 d.2
    obtain ⟨hroom₁, hroom₂⟩ := List.forall_mem_cons.mp hroom
    dsimp only at hroom₁
    rw [List.flatMap_cons, ← List.append_assoc] at hr
    have hgood : (stream_call sp d).1.1 ≠ .error := by
      have hfed := hspec.2.2
      dsimp only [stream_call]
      cases hout : stream_parser_feed sp d.1 d.2 with
      | mk state out =>
        rw [hout] at hfed
        cases hfed with
        | null h _ => exact absurd h (hn d (by simp))
        | full h _ => omega
        | scanned _ _ hscan => exact scanned_good hr hf hscan
    refine Receiver.allGood_cons.mpr ⟨hgood, ?_⟩
    have hsize : (stream_call sp d).2.buffer_size = sp.buffer_size := hspec.2.1
    have hholds := streamReceiver.holds_feed d hs hgood
    have hn' : ∀ d' ∈ calls, ¬ d'.1.isNull := fun d' hd' => hn d' (by simp [hd'])
    cases hm : Call.received ⟨sp, d, (stream_call sp d).1, (stream_call sp d).2⟩ with
    | none =>
      obtain ⟨ht, -⟩ := streamReceiver.text_none d hs hgood hm
      exact ih hholds (ht ▸ hr) (hsize ▸ hf) hn' hroom₂
    | some l =>
      obtain ⟨n, hv, ht⟩ := streamReceiver.text_message d hs hgood hm
      change frame_framing.verdict (sp.text ++ d.1.data) = .message l n at hv
      change (stream_call sp d).2.text = (sp.text ++ d.1.data).drop n at ht
      have hv' := frame_framing.message_append (calls.flatMap fun d => d.1.data) hv
      generalize htext : sp.text ++ d.1.data ++ (calls.flatMap fun d => d.1.data) = text at hr hv'
      cases hr with
      | stop _ =>
        have := frame_framing.size_pos hv'
        have := frame_framing.size_le hv'
        simp only [List.length_nil] at this
        omega
      | next hv₂ hr' =>
        rw [hv'] at hv₂
        cases hv₂
        rw [← htext, List.drop_append_of_le_length (frame_framing.size_le hv), ← ht] at hr'
        refine ih hholds hr' (fun l' hl' => ?_) hn' hroom₂
        rw [hsize]
        exact hf l' (by simp [hl'])

theorem fed_buffer_size (hs : sp.Holds) :
    (fed stream_call sp calls).buffer_size = sp.buffer_size := by
  induction calls generalizing sp with
  | nil => rfl
  | cons d calls ih =>
    have hspec := feed_spec hs d.1 d.2
    exact (ih hspec.1).trans hspec.2.1

theorem hasRoom_of_empty (hs : sp.Holds) (he : ∀ d ∈ calls, d.1 = .cells []) :
    HasRoom (feeds stream_call sp calls) := by
  induction calls generalizing sp with
  | nil =>
    intro c hc
    cases hc
  | cons d calls ih =>
    refine List.forall_mem_cons.mpr ⟨?_, ih (feed_spec hs d.1 d.2).1
      fun d' hd' => he d' (by simp [hd'])⟩
    rw [he d (by simp)]
    exact hs.buffered_le

theorem reads_letters (hl : ∀ l ∈ letters, l.payload.length ≤ MAX_PAYLOAD_SIZE) :
    frame_framing.Reads (letters.flatMap Letter.wire) letters [] := by
  have := Framing.reads_flatMap (F := frame_framing)
    (fun l hm after => verdict_wire (hl l hm) after) []
  rwa [List.append_nil] at this

theorem fed_text {c : Call} (hc : (feeds stream_call sp calls).getLast? = some c) :
    c.after = fed stream_call sp calls ∧ ∃ before d, calls = before ++ [d] ∧
      c = ⟨fed stream_call sp before, d, (stream_call (fed stream_call sp before) d).1,
        (stream_call (fed stream_call sp before) d).2⟩ := by
  induction calls using List.reverseRecOn with
  | nil => cases hc
  | append_singleton calls d _ =>
    rw [feeds_append] at hc
    simp only [feeds, List.getLast?_append, List.getLast?_singleton, Option.some_or,
      Option.some.injEq] at hc
    subst hc
    exact ⟨by rw [fed_append]; rfl, calls, d, rfl, rfl⟩

end

def stream_run (buffer_size : ℕ) (fresh : ℕ → UInt8) (calls : List Chunk) : List Call :=
  feeds stream_call (stream_parser_create buffer_size fresh) calls

/-- A stream returns the frames that were put on the wire: no call fails, the frames come out in
order, all of them are out when a call asks for more, the parser is then as it was at the start,
and as many empty feeds as there are frames get there. -/
theorem stream_parser_delivers (letters : List Letter) (buffer_size : ℕ) (fresh : ℕ → UInt8)
    (calls : List Chunk)
    (hf : ∀ l ∈ letters, l.Fits (stream_parser_create buffer_size fresh).buffer_size)
    (hn : ∀ d ∈ calls, ¬ d.1.isNull)
    (hcut : (calls.flatMap fun d => d.1.data) = letters.flatMap Letter.wire)
    (hroom : HasRoom (stream_run buffer_size fresh calls)) :
    (∀ l ∈ letters, ∃ frame, frame_parse l.wire false = .ok frame ∧
      frame.letter l.wire none = l) ∧
    (∀ c ∈ stream_run buffer_size fresh calls, c.result.1 ≠ .error) ∧
    (stream_run buffer_size fresh calls).filterMap Call.received <+: letters ∧
    (∀ c, (stream_run buffer_size fresh calls).getLast? = some c →
      c.result.1 = .needMoreData →
      (stream_run buffer_size fresh calls).filterMap Call.received = letters ∧
        c.after.buffered = 0 ∧ c.after.expected = 0) ∧
    ∀ empties : List Chunk, (∀ d ∈ empties, d.1 = .cells []) → letters.length ≤ empties.length →
      (stream_run buffer_size fresh (calls ++ empties)).filterMap Call.received = letters := by
  have hs := create_holds buffer_size fresh
  have hread := reads_letters fun l hl => (hf l hl).1
  have hfit : ∀ l ∈ letters, 16 + l.payload.length ≤
      (stream_parser_create buffer_size fresh).buffer_size := fun l hl => by
    rw [← Letter.wire_length]
    exact (hf l hl).2
  have htext : (stream_parser_create buffer_size fresh).text ++
      (calls.flatMap fun d => d.1.data) = letters.flatMap Letter.wire := by
    rw [create_text, List.nil_append, hcut]
  have hgood := feeds_good hs (htext ▸ hread) hfit hn hroom
  obtain ⟨hr, hh⟩ := Receiver.reads_feeds (R := streamReceiver) hs hgood
  change frame_framing.Reads ((stream_parser_create buffer_size fresh).text ++
    (calls.flatMap fun d => d.1.data)) _ _ at hr
  rw [htext] at hr
  obtain ⟨more, hmore, hleft⟩ := Framing.reads_complete hr hread
  change letters = (stream_run buffer_size fresh calls).filterMap Call.received ++ more at hmore
  refine ⟨fun l hl => ?_, hgood, ⟨more, hmore.symm⟩, fun c hc hr => ?_, fun empties he hle => ?_⟩
  · obtain ⟨frame, hp, -, hletter⟩ := frame_parse_wire (hf l hl).1 [] false
    rw [List.append_nil] at hp hletter
    exact ⟨frame, hp, hletter none⟩
  · obtain ⟨hafter, before, d, rfl, rfl⟩ := fed_text hc
    obtain ⟨hg₁, hg₂⟩ := Receiver.allGood_append.mp hgood
    have hh₁ := (Receiver.reads_feeds (R := streamReceiver) hs hg₁).2
    obtain ⟨-, hstuck⟩ := streamReceiver.text_none d hh₁
      (Receiver.allGood_cons.mp hg₂).1 (received_none hr)
    have hend := hstuck trivial
    dsimp only at hafter ⊢
    rw [hafter] at hend ⊢
    obtain ⟨rfl, he⟩ := Framing.stuck_reads hend hleft
    have hlen := text_length hh
    change [] = (fed stream_call _ _).text at he
    rw [← he] at hlen
    refine ⟨by rw [hmore, List.append_nil], hlen.symm, ?_⟩
    by_contra hne
    obtain ⟨payload_size, hpeek, -⟩ := hh.cached hne
    rw [← he] at hpeek
    cases hpeek
  · have hdata : ∀ d ∈ empties, d.1.data = [] := fun d hd => by
      rw [he d hd]
      rfl
    have hnil : (empties.flatMap fun d => d.1.data) = [] := List.flatMap_eq_nil_iff.mpr hdata
    have hgood₂ : streamReceiver.AllGood
        (fed stream_call (stream_parser_create buffer_size fresh) calls) empties := by
      refine feeds_good hh (?_ : frame_framing.Reads _ more [])  (fun l hl => ?_) (fun d hd => ?_)
        (hasRoom_of_empty hh he)
      · rw [hnil, List.append_nil]
        exact hleft
      · rw [fed_buffer_size hs]
        exact hfit l (by rw [hmore]; simp [hl])
      · rw [he d hd]
        simp
    have hlen := congrArg List.length hmore
    rw [List.length_append] at hlen
    have hdrain := Receiver.messages_drain (R := streamReceiver) hh hgood₂
      (fun d hd => ⟨trivial, hdata d hd⟩) hleft (by omega)
    rw [stream_run, feeds_append, List.filterMap_append]
    conv_rhs => rw [hmore]
    exact congrArg _ hdrain

/-- Two frames cut inside the header of the first and of the second, an empty feed at the end. -/
theorem stream_parser_delivers_cut :
    let first : Letter := ⟨7, 1, 0, [1, 2]⟩
    let second : Letter := ⟨8, 1, 3, []⟩
    let calls : List Chunk := [(.cells (first.wire.take 5), none),
      (.cells (first.wire.drop 5 ++ second.wire.take 9), some ⟨[0, 0, 0], 1⟩),
      (.cells (second.wire.drop 9), none), (.cells [], none)]
    (stream_run 64 (fun _ => 0) calls).filterMap Call.received <+: [first, second] := by
  intro first second calls
  exact (stream_parser_delivers [first, second] 64 (fun _ => 0) calls
    (by
      rintro l (_ | ⟨_, _ | ⟨_, h⟩⟩)
      · exact ⟨by decide, by decide⟩
      · exact ⟨by decide, by decide⟩
      · cases h)
    (by decide) (by decide +kernel) (by
      rw [HasRoom]
      decide +kernel)).2.2.1

theorem feed_large (buffer_size : ℕ) (fresh : ℕ → UInt8) (pool : Option MemoryPool)
    (hl : MAX_PAYLOAD_SIZE < l.payload.length) (hn : l.payload.length < 2 ^ 32) :
    (stream_parser_feed (stream_parser_create buffer_size fresh) (.cells l.wire) pool).1 =
      .error := by
  have hfed := (feed_spec (create_holds buffer_size fresh) (.cells l.wire) pool).2.2
  have hpeek := wire_peek_size l [] hn
  rw [if_pos hl, List.append_nil] at hpeek
  have hparse : frame_parse l.wire false = .error .invalidSize := by
    rw [frame_parse, hpeek]
  cases hout : stream_parser_feed (stream_parser_create buffer_size fresh) (.cells l.wire) pool with
  | mk state out =>
    rw [hout] at hfed
    cases hfed with
    | null _ _ => rfl
    | full _ _ => rfl
    | scanned _ _ hscan =>
      rw [create_text, Span.data_cells, List.nil_append] at hscan
      cases hscan with
      | message parse _ _ _ =>
        rw [hparse] at parse
        cases parse
      | waiting parse _ =>
        rw [hparse] at parse
        cases parse
      | refused _ _ _ => rfl
      | oversized _ _ _ => rfl

theorem run_large (hl : MAX_PAYLOAD_SIZE < l.payload.length) (hn : l.payload.length < 2 ^ 32) :
    let run := stream_run l.wire.length (fun _ => 0) [(.cells l.wire, none)]
    l.wire.length ≤ (stream_parser_create l.wire.length fun _ => 0).buffer_size ∧
      HasRoom run ∧ (∃ c ∈ run, c.result.1 = .error) ∧
      run.filterMap Call.received ≠ [l] := by
  have hwire := l.wire_length
  have h16 : ¬ l.wire.length < FRAME_MIN_SIZE := by
    rw [hwire]
    exact Nat.not_lt.mpr (Nat.le_add_right _ _)
  have hsize : (stream_parser_create l.wire.length fun _ => 0).buffer_size = l.wire.length := by
    simp only [stream_parser_create, if_neg h16]
  have hbuffered : (stream_parser_create l.wire.length fun _ => 0).buffered = 0 := by
    rw [stream_parser_create]
  have herr := feed_large l.wire.length (fun _ => 0) none hl hn
  simp only [stream_run, feeds, HasRoom, List.mem_singleton, forall_eq, exists_eq_left,
    List.filterMap_cons, List.filterMap_nil, Call.received, stream_call, herr, Span.size_cells,
    hbuffered, hsize]
  exact ⟨le_rfl, by omega, trivial, by simp⟩

def largeLetter : Letter := ⟨0, 1, 0, List.replicate (MAX_PAYLOAD_SIZE + 1) 0⟩

/-- A frame with one payload byte more than the cap. -/
theorem stream_parser_refuses_large :
    let run := stream_run largeLetter.wire.length (fun _ => 0) [(.cells largeLetter.wire, none)]
    largeLetter.wire.length ≤
        (stream_parser_create largeLetter.wire.length fun _ => 0).buffer_size ∧
      HasRoom run ∧ (∃ c ∈ run, c.result.1 = .error) ∧
      run.filterMap Call.received ≠ [largeLetter] := by
  have hl : largeLetter.payload.length = MAX_PAYLOAD_SIZE + 1 := by
    rw [largeLetter]
    exact List.length_replicate
  have hlow : MAX_PAYLOAD_SIZE < largeLetter.payload.length := by
    rw [hl]
    exact Nat.lt_succ_self _
  have hhigh : largeLetter.payload.length < 2 ^ 32 := by
    rw [hl]
    decide
  exact run_large hlow hhigh

end SaltsUtils.Tlv
