import SaltsUtils.Tlv.Stream

/-!
# Frames that share the pool of a thread

The streams of a thread copy the payloads of their frames into one pool, and giving
back a frame rewinds that pool to where it was before the frame was copied. What lies
behind it in the pool is given away with it.
-/

set_option autoImplicit false

namespace SaltsUtils.Tlv

structure Returned where
  frame : Frame
  received : Bytes
  freed : Bool := false

structure Thread where
  pool : Option MemoryPool
  parsers : ℕ → StreamParser
  frames : List Returned := []

inductive ThreadOp
  | feed (stream : ℕ) (data : Span UInt8)
  | free (frame : ℕ)

/-- The unread bytes of a stream with those that it is fed. -/
def Thread.text (t : Thread) (stream : ℕ) (data : Span UInt8) : Bytes :=
  (t.parsers stream).text ++ data.data

def Thread.feed (t : Thread) (stream : ℕ) (data : Span UInt8) : Thread :=
  let (state, sp, pool) := stream_parser_feed (t.parsers stream) data t.pool
  { pool := pool
    parsers := Function.update t.parsers stream sp
    frames :=
      match state with
      | .frameComplete frame =>
        t.frames ++ [{ frame, received := view (t.text stream data) 11 frame.payload_size }]
      | _ => t.frames }

def Thread.free (t : Thread) (frame : ℕ) : Thread :=
  match t.frames[frame]? with
  | none => t
  | some r =>
    let (frame', pool) := frame_free r.frame t.pool
    { t with pool, frames := t.frames.set frame { r with frame := frame', freed := true } }

def Thread.step (t : Thread) : ThreadOp → Thread
  | .feed stream data => t.feed stream data
  | .free frame => t.free frame

def Thread.run (t : Thread) (ops : List ThreadOp) : Thread := ops.foldl Thread.step t

def Thread.Holds (t : Thread) : Prop := ∀ stream, (t.parsers stream).Holds

/-- Every frame that is not given back has the payload that was received for it. -/
def Thread.Intact (t : Thread) : Prop :=
  ∀ r ∈ t.frames, ¬ r.freed → r.frame.read [] t.pool = r.received

/-- Where a feed completes a frame whose payload goes into the pool, it writes to no cell of a
frame that is not given back, unless it writes there what is there already. -/
def Thread.Spares (t : Thread) (stream : ℕ) (data : Span UInt8) : Prop :=
  ∀ parsed pool, ¬ data.isNull →
    (t.parsers stream).buffered + data.size ≤ (t.parsers stream).buffer_size →
    frame_parse (t.text stream data) false = .ok parsed → t.pool = some pool →
    0 < parsed.payload_size → pool.offset + parsed.payload_size ≤ pool.memory.length →
    ∀ r ∈ t.frames, ¬ r.freed → ∀ start, r.frame.payload = .pool start →
      ∀ i, pool.offset ≤ i → i < pool.offset + parsed.payload_size → start ≤ i →
        i < start + r.frame.payload_size →
        (view (t.text stream data) 11 parsed.payload_size)[i - pool.offset]? = pool.memory[i]?

variable {t : Thread}

theorem feed_holds (h : t.Holds) (stream : ℕ) (data : Span UInt8) : (t.feed stream data).Holds := by
  intro other
  dsimp only [Thread.feed]
  by_cases ho : other = stream
  · subst ho
    rw [Function.update_self]
    exact (feed_spec (h other) data t.pool).1
  · rw [Function.update_of_ne ho]
    exact h other

theorem free_parsers (frame : ℕ) : (t.free frame).parsers = t.parsers := by
  rw [Thread.free]
  split <;> rfl

theorem frame_free_memory (frame : Frame) (pool : Option MemoryPool) :
    (frame_free frame pool).2.map MemoryPool.memory = pool.map MemoryPool.memory := by
  rw [frame_free]
  cases frame.payload with
  | null => rfl
  | input offset =>
    split_ifs
    · cases pool <;> rfl
    · rfl
  | pool offset =>
    dsimp only
    split_ifs
    · cases pool <;> rfl
    · rfl
  | heap block =>
    split_ifs
    · cases pool <;> rfl
    · rfl

theorem read_of_memory {frame : Frame} {pool pool' : Option MemoryPool}
    (h : pool'.map MemoryPool.memory = pool.map MemoryPool.memory) :
    frame.read [] pool' = frame.read [] pool := by
  rw [Frame.read, Frame.read, h]

theorem read_pool {frame : Frame} {start : ℕ} {input : Bytes} {p : MemoryPool}
    (h : frame.payload = .pool start) :
    frame.read input (some p) = view p.memory start frame.payload_size := by
  rw [Frame.read, h]
  rfl

theorem free_intact (h : t.Intact) (frame : ℕ) : (t.free frame).Intact := by
  rw [Thread.free]
  cases hr : t.frames[frame]? with
  | none => exact h
  | some r =>
    intro r' hr' hlive
    have hmem := frame_free_memory r.frame t.pool
    obtain hold | rfl := List.mem_or_eq_of_mem_set hr'
    · rw [read_of_memory hmem]
      exact h r' hold hlive
    · exact absurd rfl hlive

/-- What a feed does to the pool and to the frames. -/
inductive Handed (t : Thread) (stream : ℕ) (data : Span UInt8) (t' : Thread) : Prop
  | nothing (none : ∀ parsed, ¬ data.isNull →
      (t.parsers stream).buffered + data.size ≤ (t.parsers stream).buffer_size →
      frame_parse (t.text stream data) false ≠ .ok parsed)
      (pool : t'.pool = t.pool) (frames : t'.frames = t.frames)
  | frame {parsed frame} (some : ¬ data.isNull ∧
      (t.parsers stream).buffered + data.size ≤ (t.parsers stream).buffer_size)
      (parse : frame_parse (t.text stream data) false = .ok parsed)
      (copied : Copied parsed (parsed.read (t.text stream data) none) t.pool frame t'.pool)
      (frames : t'.frames = t.frames ++
        [{ frame, received := view (t.text stream data) 11 frame.payload_size }])

theorem feed_handed (h : t.Holds) (stream : ℕ) (data : Span UInt8) :
    Handed t stream data (t.feed stream data) := by
  have hs := h stream
  have hfed := (feed_spec hs data t.pool).2.2
  have hlen := text_length hs
  have hdata := data.data_length_le
  have hroom : ∀ parsed, (t.parsers stream).buffered + data.size ≤
      (t.parsers stream).buffer_size → frame_parse (t.text stream data) false = .ok parsed →
      ∃ size, frame_peek_size (t.text stream data) = .ok size ∧
        frame_total_size size ≤ (t.parsers stream).buffer_size := by
    intro parsed hroom hparse
    obtain ⟨size, hpeek, hl, -⟩ := frame_parse_ok hparse
    refine ⟨size, hpeek, ?_⟩
    rw [Thread.text, List.length_append] at hl
    omega
  rw [Thread.feed]
  cases hout : stream_parser_feed (t.parsers stream) data t.pool with
  | mk state out =>
    obtain ⟨sp', pool'⟩ := out
    rw [hout] at hfed
    cases hfed with
    | null hnull _ => exact .nothing (fun _ hn _ _ => hn hnull) rfl rfl
    | full hfull _ => exact .nothing (fun _ _ hr _ => absurd hfull (by omega)) rfl rfl
    | scanned here room hscan =>
      cases hscan with
      | message parse copied _ _ => exact .frame ⟨here, room⟩ parse copied rfl
      | waiting parse _ =>
        refine .nothing (fun parsed _ _ hp => ?_) rfl rfl
        rw [Thread.text, parse] at hp
        cases hp
      | refused parse _ _ =>
        refine .nothing (fun parsed _ _ hp => ?_) rfl rfl
        rw [Thread.text, parse] at hp
        cases hp
      | oversized peek large _ =>
        refine .nothing (fun parsed _ hr hp => ?_) rfl rfl
        obtain ⟨size, hpeek, hle⟩ := hroom parsed hr hp
        rw [Thread.text, peek] at hpeek
        cases hpeek
        omega

theorem feed_intact_iff (h : t.Holds) (hi : t.Intact) (stream : ℕ) (data : Span UInt8) :
    (t.feed stream data).Intact ↔ t.Spares stream data := by
  cases feed_handed h stream data with
  | nothing none pool frames =>
    refine iff_of_true ?_ fun parsed _ hn hr hp => absurd hp (none parsed hn hr)
    intro r hr hlive
    rw [pool]
    rw [frames] at hr
    exact hi r hr hlive
  | @frame parsed frame here parse copied frames =>
    obtain ⟨size, -, hl, hs, hpayload⟩ := frame_parse_ok parse
    have hl' : 16 + size.toNat ≤ (t.text stream data).length := hl
    have hread : parsed.read (t.text stream data) none =
        view (t.text stream data) 11 parsed.payload_size := frame_read_input hpayload
    have hlen : (parsed.read (t.text stream data) none).length = parsed.payload_size := by
      rw [hread]
      exact length_view (by omega)
    -- the frame that is returned now
    have hnew : frame.read [] (t.feed stream data).pool =
        view (t.text stream data) 11 frame.payload_size := by
      obtain ⟨hletter, hsize⟩ := copied_letter [] hpayload hlen copied
      rw [hsize, ← hread]
      exact congrArg Letter.payload hletter
    have hsplit : (t.feed stream data).Intact ↔ ∀ r ∈ t.frames, ¬ r.freed →
        r.frame.read [] (t.feed stream data).pool = r.received := by
      rw [Thread.Intact, frames]
      constructor
      · exact fun hall r hr => hall r (List.mem_append_left _ hr)
      · intro hall r hr hlive
        obtain hr | hr := List.mem_append.mp hr
        · exact hall r hr hlive
        · obtain rfl := List.mem_singleton.mp hr
          exact hnew
    rw [hsplit]
    generalize (t.feed stream data).pool = pool' at copied
    cases copied with
    | empty size0 =>
      refine iff_of_true hi fun parsed' _ _ _ hp _ hpos => ?_
      rw [parse] at hp
      cases hp
      omega
    | heap _ full =>
      refine iff_of_true hi fun parsed' p _ _ hp hpool _ hfits => ?_
      rw [parse] at hp
      cases hp
      exact absurd (full p hpool) (by omega)
    | @slice p hpos hpool fits =>
      have hsame : ∀ r ∈ t.frames, ¬ r.freed →
          (r.frame.read [] (some
              { memory := overwrite p.memory p.offset (parsed.read (t.text stream data) none)
                offset := p.offset + parsed.payload_size }) = r.received ↔
            ∀ start, r.frame.payload = .pool start →
              ∀ i, p.offset ≤ i → i < p.offset + parsed.payload_size → start ≤ i →
                i < start + r.frame.payload_size →
                (view (t.text stream data) 11 parsed.payload_size)[i - p.offset]? =
                  p.memory[i]?) := by
        intro r hr hlive
        rw [← hi r hr hlive, hpool]
        cases hwhere : r.frame.payload with
        | null => simp [Frame.read, hwhere]
        | input offset => simp [Frame.read, hwhere]
        | heap block => simp [Frame.read, hwhere]
        | pool start =>
          have hiff := view_overwrite_eq_iff (parsed.read (t.text stream data) none)
            start r.frame.payload_size
            (show p.offset ≤ p.memory.length by omega)
          rw [hlen, hread] at hiff
          rw [read_pool hwhere, read_pool hwhere, hread]
          simp only [Payload.pool.injEq, forall_eq']
          exact hiff
      constructor
      · intro hall parsed' p' _ _ hp hpool' _ _ r hr hlive
        rw [parse] at hp
        rw [hpool] at hpool'
        cases hp
        cases hpool'
        exact (hsame r hr hlive).mp (hall r hr hlive)
      · intro hspare r hr hlive
        exact (hsame r hr hlive).mpr
          (hspare parsed p here.1 here.2 parse hpool hpos fits r hr hlive)

def newThread (pool : Option MemoryPool) (sizes : ℕ → ℕ) (fresh : ℕ → ℕ → UInt8) : Thread where
  pool := pool
  parsers stream := stream_parser_create (sizes stream) (fresh stream)

theorem run_snoc (ops : List ThreadOp) (op : ThreadOp) :
    t.run (ops ++ [op]) = (t.run ops).step op := by
  simp [Thread.run]

theorem run_holds (h : t.Holds) (ops : List ThreadOp) : (t.run ops).Holds := by
  induction ops using List.reverseRecOn with
  | nil => exact h
  | append_singleton ops op ih =>
    rw [run_snoc]
    cases op with
    | feed stream data => exact feed_holds ih stream data
    | free frame =>
      intro stream
      rw [Thread.step, free_parsers]
      exact ih stream

/-- In every run of the streams of a thread the frames that are not given back are intact in each
state exactly if each feed spares them. -/
theorem frames_intact (pool : Option MemoryPool) (sizes : ℕ → ℕ) (fresh : ℕ → ℕ → UInt8)
    (ops : List ThreadOp) :
    (∀ before, before <+: ops → ((newThread pool sizes fresh).run before).Intact) ↔
      ∀ before stream data, before ++ [.feed stream data] <+: ops →
        ((newThread pool sizes fresh).run before).Spares stream data := by
  have hnew : (newThread pool sizes fresh).Holds := fun stream => create_holds _ _
  constructor
  · intro hall before stream data hb
    have hi := hall before ((List.prefix_append _ _).trans hb)
    have hi' := hall _ hb
    rw [run_snoc] at hi'
    exact (feed_intact_iff (run_holds hnew before) hi stream data).mp hi'
  · intro hall before
    induction before using List.reverseRecOn with
    | nil =>
      intro _ r hr
      cases hr
    | append_singleton before op ih =>
      intro hb
      have hi := ih ((List.prefix_append _ _).trans hb)
      rw [run_snoc]
      cases op with
      | feed stream data =>
        exact (feed_intact_iff (run_holds hnew before) hi stream data).mpr
          (hall before stream data hb)
      | free frame => exact free_intact hi frame

/-- The first of two frames is given back and a third one is received: the second frame has
changed. -/
theorem freed_frame_gives_away_next :
    let first : Letter := ⟨1, 1, 0, [1, 2]⟩
    let second : Letter := ⟨2, 1, 0, [3, 4]⟩
    let third : Letter := ⟨3, 1, 0, [5, 6, 7]⟩
    let t := (newThread (some ⟨[0, 0, 0, 0, 0, 0, 0, 0], 0⟩) (fun _ => 64) fun _ _ => 0).run
      [.feed 0 (.cells first.wire), .feed 1 (.cells second.wire), .free 0,
        .feed 0 (.cells third.wire)]
    t.frames.map (fun r => (r.freed, r.received, r.frame.read [] t.pool)) =
        [(true, [1, 2], []), (false, [3, 4], [7, 4]), (false, [5, 6, 7], [5, 6, 7])] ∧
      ¬ t.Intact := by
  intro first second third t
  have h : t.frames.map (fun r => (r.freed, r.received, r.frame.read [] t.pool)) =
      [(true, [1, 2], []), (false, [3, 4], [7, 4]), (false, [5, 6, 7], [5, 6, 7])] := by
    decide +kernel
  refine ⟨h, fun hi => ?_⟩
  obtain ⟨r, hr, he⟩ := List.mem_map.mp
    (show (false, [3, 4], [7, 4]) ∈ t.frames.map fun r =>
      (r.freed, r.received, r.frame.read [] t.pool) by rw [h]; simp)
  simp only [Prod.mk.injEq] at he
  have := hi r hr (by simp [he.1])
  rw [he.2.1, he.2.2] at this
  exact absurd this (by decide)

end SaltsUtils.Tlv
