import SimpleModule.Lib.Octets
import SimpleModule.Lib.Incremental

/-!
# Length-prefixed frames

A frame is a four-byte little-endian length followed by that many bytes.  The
parser holds the length of the frame it is reading, once known, and the bytes not
consumed yet.  It is an incremental machine, so what it delivers does not depend
on how the stream was cut.
-/

namespace Frames

open Octets

/-- A body preceded by its length. -/
def frame (body : Bytes) : Bytes := le 4 body.length ++ body

/-- The frames of a list of bodies, one after the other. -/
def stream (bodies : List Bytes) : Bytes := bodies.flatMap frame

/-- The number of bytes that the frames of a list of bodies occupy. -/
def weight (bodies : List Bytes) : ℕ := (bodies.map fun body => 4 + body.length).sum

@[simp]
theorem stream_cons (body : Bytes) (rest : List Bytes) :
    stream (body :: rest) = frame body ++ stream rest := rfl

@[simp]
theorem weight_nil : weight [] = 0 := rfl

@[simp]
theorem weight_cons (body : Bytes) (rest : List Bytes) :
    weight (body :: rest) = 4 + body.length + weight rest := rfl

@[simp]
theorem weight_append (first second : List Bytes) :
    weight (first ++ second) = weight first + weight second := by
  simp [weight]

theorem four_le_weight {bodies : List Bytes} (nonempty : bodies ≠ []) : 4 ≤ weight bodies := by
  cases bodies with
  | nil => exact absurd rfl nonempty
  | cons body rest =>
      rw [weight_cons]
      omega

@[simp]
theorem length_stream (bodies : List Bytes) : (stream bodies).length = weight bodies := by
  induction bodies with
  | nil => rfl
  | cons body rest ih =>
      simp [frame, ih]
      omega

theorem length_frame (body : Bytes) : (frame body).length = 4 + body.length := by
  simp [frame]

theorem weight_cons_sub (body : Bytes) (rest : List Bytes) :
    weight (body :: rest) - (4 + body.length) = weight rest := by
  rw [weight_cons]
  omega

/-! ### The first bytes of a stream end in a header, in a body or behind a frame. -/

theorem take_stream_header (body : Bytes) (rest : List Bytes) {received : ℕ}
    (short : received < 4) :
    (stream (body :: rest)).take received = (frame body).take received := by
  have inside : received ≤ (frame body).length := by
    rw [length_frame]
    omega
  rw [stream_cons, List.take_append_of_le_length inside]

theorem take_stream_body (body : Bytes) (rest : List Bytes) {received : ℕ}
    (header : 4 ≤ received) (short : received ≤ 4 + body.length) :
    (stream (body :: rest)).take received = le 4 body.length ++ body.take (received - 4) := by
  rw [stream_cons, List.take_append_of_le_length (by rwa [length_frame]), frame, List.take_append,
    length_le, List.take_of_length_le (by rwa [length_le])]

theorem take_stream_frame (body : Bytes) (rest : List Bytes) {received : ℕ}
    (whole : 4 + body.length ≤ received) :
    (stream (body :: rest)).take received =
      frame body ++ (stream rest).take (received - (4 + body.length)) := by
  rw [stream_cons, List.take_append, length_frame, List.take_of_length_le (by rwa [length_frame])]

/-- The state of the parser: a pending length and the unconsumed bytes. -/
structure Parser where
  pending : Option ℕ
  buffered : Bytes

namespace Parser

/-- The parser before any input. -/
def initial : Parser := ⟨none, []⟩

/-- One step: read a length, or cut off a complete body. -/
def step (parser : Parser) : Option (Parser × List Bytes) :=
  match parser.pending with
  | none =>
      if parser.buffered.length < 4 then none
      else some (⟨some (ofLe (parser.buffered.take 4)), parser.buffered.drop 4⟩, [])
  | some size =>
      if parser.buffered.length < size then none
      else some (⟨none, parser.buffered.drop size⟩, [parser.buffered.take size])

/-- The bytes that the parser has been given and not delivered. -/
def bytes (parser : Parser) : Bytes :=
  (match parser.pending with
    | none => []
    | some size => le 4 size) ++ parser.buffered

/-- Bytes the parser accounts for: those buffered and the header already read. -/
def held (parser : Parser) : ℕ :=
  parser.buffered.length + if parser.pending.isSome then 4 else 0

theorem step_header {parser : Parser} (pending : parser.pending = none)
    (enough : 4 ≤ parser.buffered.length) :
    parser.step =
      some (⟨some (ofLe (parser.buffered.take 4)), parser.buffered.drop 4⟩, []) := by
  simp only [step, pending]
  rw [if_neg (by omega)]

theorem step_body {parser : Parser} {size : ℕ} (pending : parser.pending = some size)
    (enough : size ≤ parser.buffered.length) :
    parser.step = some (⟨none, parser.buffered.drop size⟩, [parser.buffered.take size]) := by
  simp only [step, pending]
  rw [if_neg (by omega)]

theorem step_cases {parser next : Parser} {bodies : List Bytes}
    (stepped : parser.step = some (next, bodies)) :
    (parser.pending = none ∧ 4 ≤ parser.buffered.length ∧ bodies = [] ∧
        next = ⟨some (ofLe (parser.buffered.take 4)), parser.buffered.drop 4⟩) ∨
      ∃ size, parser.pending = some size ∧ size ≤ parser.buffered.length ∧
        bodies = [parser.buffered.take size] ∧ next = ⟨none, parser.buffered.drop size⟩ := by
  cases pending : parser.pending with
  | none =>
      simp only [step, pending] at stepped
      split at stepped
      · simp at stepped
      · simp only [Option.some.injEq, Prod.mk.injEq] at stepped
        exact Or.inl ⟨rfl, by omega, stepped.2.symm, stepped.1.symm⟩
  | some size =>
      simp only [step, pending] at stepped
      split at stepped
      · simp at stepped
      · simp only [Option.some.injEq, Prod.mk.injEq] at stepped
        exact Or.inr ⟨size, rfl, by omega, stepped.2.symm, stepped.1.symm⟩

theorem bytes_step {parser next : Parser} {bodies : List Bytes}
    (stepped : parser.step = some (next, bodies)) :
    parser.bytes = stream bodies ++ next.bytes := by
  rcases step_cases stepped with ⟨pending, enough, rfl, rfl⟩ | ⟨size, pending, enough, rfl, rfl⟩
  · have header : le 4 (ofLe (parser.buffered.take 4)) = parser.buffered.take 4 := by
      have length : (parser.buffered.take 4).length = 4 := by simpa using enough
      simpa only [length] using le_ofLe (parser.buffered.take 4)
    simp [bytes, pending, header, stream]
  · have length : (parser.buffered.take size).length = size := by simpa using enough
    simp [bytes, pending, frame, stream, length]

theorem length_step_le {parser next : Parser} {bodies : List Bytes}
    (stepped : parser.step = some (next, bodies)) :
    next.buffered.length ≤ parser.buffered.length := by
  rcases step_cases stepped with ⟨_, _, _, rfl⟩ | ⟨_, _, _, _, rfl⟩
  · simp
  · simp

/-- A step conserves bytes: what leaves the parser was held by it. -/
theorem held_step {parser next : Parser} {bodies : List Bytes}
    (stepped : parser.step = some (next, bodies)) :
    parser.held = next.held + weight bodies := by
  rcases step_cases stepped with ⟨pending, enough, rfl, rfl⟩ | ⟨size, pending, enough, rfl, rfl⟩
  · simp [held, pending]
    omega
  · simp [held, pending]
    omega

end Parser

/-- The parser as an incremental machine. -/
def machine : Incremental Parser Byte Bytes where
  feed parser items := { parser with buffered := parser.buffered ++ items }
  step := Parser.step
  size parser := 2 * parser.buffered.length + if parser.pending.isSome then 1 else 0
  feed_nil parser := by simp
  feed_feed parser first second := by simp [List.append_assoc]
  step_size := by
    intro parser next bodies stepped
    rcases Parser.step_cases stepped with
      ⟨pending, enough, -, rfl⟩ | ⟨size, pending, enough, -, rfl⟩
    · simp [pending]
      omega
    · simp [pending]
  step_feed := by
    intro parser next bodies items stepped
    rcases Parser.step_cases stepped with
      ⟨pending, enough, rfl, rfl⟩ | ⟨size, pending, enough, rfl, rfl⟩
    · rw [Parser.step_header (by simpa using pending) (by simp; omega)]
      simp [List.take_append_of_le_length enough, List.drop_append_of_le_length enough]
    · rw [Parser.step_body (by simpa using pending) (by simp; omega)]
      simp [List.take_append_of_le_length enough, List.drop_append_of_le_length enough]

@[simp]
theorem machine_step (parser : Parser) : machine.step parser = parser.step := rfl

theorem quiet_initial : machine.Quiet Parser.initial := rfl

theorem held_drain (parser : Parser) :
    parser.held = (machine.drain parser).1.held + weight (machine.drain parser).2 := by
  induction parser using Incremental.step_induction machine with
  | quiet parser quiet => simp [Incremental.drain_of_quiet quiet]
  | step parser next bodies stepped ih =>
      rw [Incremental.drain_of_step stepped, Parser.held_step stepped, ih]
      simp
      omega

/-- Draining loses and invents nothing, whatever the lengths in the headers are. -/
theorem bytes_drain (parser : Parser) :
    parser.bytes = stream (machine.drain parser).2 ++ (machine.drain parser).1.bytes := by
  induction parser using Incremental.step_induction machine with
  | quiet parser quiet => simp [Incremental.drain_of_quiet quiet, stream]
  | step parser next bodies stepped ih =>
      rw [Incremental.drain_of_step stepped, Parser.bytes_step stepped, ih]
      simp [stream]

theorem length_drain_le (parser : Parser) :
    (machine.drain parser).1.buffered.length ≤ parser.buffered.length := by
  induction parser using Incremental.step_induction machine with
  | quiet parser quiet => rw [Incremental.drain_of_quiet quiet]
  | step parser next bodies stepped ih =>
      rw [Incremental.drain_of_step stepped]
      exact ih.trans (Parser.length_step_le stepped)

theorem quiet_cases {parser : Parser} (quiet : machine.Quiet parser) :
    (parser.pending = none → parser.buffered.length < 4) ∧
      ∀ size, parser.pending = some size → parser.buffered.length < size := by
  constructor
  · intro pending
    by_contra enough
    have stepped := Parser.step_header pending (not_lt.mp enough)
    rw [← machine_step, quiet] at stepped
    cases stepped
  · intro size pending
    by_contra enough
    have stepped := Parser.step_body pending (not_lt.mp enough)
    rw [← machine_step, quiet] at stepped
    cases stepped

theorem drain_frame {body : Bytes} (bounded : body.length < 256 ^ 4) (rest : Bytes) :
    machine.drain ⟨none, frame body ++ rest⟩ =
      ((machine.drain ⟨none, rest⟩).1, body :: (machine.drain ⟨none, rest⟩).2) := by
  have header : machine.step ⟨none, frame body ++ rest⟩ =
      some (⟨some body.length, body ++ rest⟩, []) := by
    rw [machine_step, Parser.step_header rfl (by simp [frame])]
    simp only [frame, List.append_assoc]
    rw [List.take_left' (length_le 4 _), List.drop_left' (length_le 4 _), ofLe_le bounded]
  have body_step : machine.step ⟨some body.length, body ++ rest⟩ = some (⟨none, rest⟩, [body]) := by
    rw [machine_step, Parser.step_body rfl (by simp)]
    simp
  rw [Incremental.drain_of_step header, Incremental.drain_of_step body_step]
  rfl

/-- The parser delivers the bodies of a stream of frames and leaves what follows it. -/
theorem drain_stream {bodies : List Bytes} (bounded : ∀ body ∈ bodies, body.length < 256 ^ 4)
    (rest : Bytes) :
    machine.drain ⟨none, stream bodies ++ rest⟩ =
      ((machine.drain ⟨none, rest⟩).1, bodies ++ (machine.drain ⟨none, rest⟩).2) := by
  induction bodies with
  | nil => rfl
  | cons body later ih =>
      have headBounded : body.length < 256 ^ 4 := bounded body List.mem_cons_self
      have laterBounded : ∀ body ∈ later, body.length < 256 ^ 4 :=
        fun body member => bounded body (List.mem_cons_of_mem _ member)
      rw [stream_cons, List.append_assoc, drain_frame headBounded, ih laterBounded]
      rfl

theorem drain_whole_stream {bodies : List Bytes}
    (bounded : ∀ body ∈ bodies, body.length < 256 ^ 4) :
    machine.drain ⟨none, stream bodies⟩ = (Parser.initial, bodies) := by
  have parsed := drain_stream bounded []
  have nothing : machine.drain ⟨none, []⟩ = (Parser.initial, []) :=
    Incremental.drain_of_quiet quiet_initial
  simpa [nothing] using parsed

/-- The bytes of a stream's first `received` that belong to no complete header or body. -/
def heldBack : List Bytes → ℕ → ℕ
  | [], received => received
  | body :: rest, received =>
      if received < 4 then received
      else if received < 4 + body.length then received - 4
      else heldBack rest (received - (4 + body.length))

theorem heldBack_le (bodies : List Bytes) (received : ℕ) : heldBack bodies received ≤ received := by
  induction bodies generalizing received with
  | nil => exact le_rfl
  | cons body rest ih =>
      simp only [heldBack]
      split_ifs
      · exact le_rfl
      · omega
      · exact (ih _).trans (by omega)

/-- More bytes of a stream cannot make more of the earlier ones incomplete. -/
theorem heldBack_add_le (bodies : List Bytes) (received more : ℕ) :
    heldBack bodies (received + more) ≤ heldBack bodies received + more := by
  induction bodies generalizing received with
  | nil => exact le_rfl
  | cons body rest ih =>
      by_cases header : received < 4
      · rw [show heldBack (body :: rest) received = received by rw [heldBack, if_pos header]]
        exact heldBack_le _ _
      · have after : heldBack rest (received + more - (4 + body.length)) ≤
            received + more - (4 + body.length) := heldBack_le _ _
        simp only [heldBack, if_neg header, if_neg (show ¬received + more < 4 by omega)]
        split_ifs with inside before
        · omega
        · omega
        · omega
        · have split : received + more - (4 + body.length) =
              received - (4 + body.length) + more := by omega
          rw [split]
          exact ih _

/-- The bodies whose frames are complete in the first `received` bytes of a stream. -/
def complete : List Bytes → ℕ → List Bytes
  | [], _ => []
  | body :: rest, received =>
      if received < 4 + body.length then []
      else body :: complete rest (received - (4 + body.length))

@[simp]
theorem complete_zero (bodies : List Bytes) : complete bodies 0 = [] := by
  cases bodies with
  | nil => rfl
  | cons body rest => exact if_pos (by omega)

theorem complete_isPrefix (bodies : List Bytes) (received : ℕ) :
    complete bodies received <+: bodies := by
  induction bodies generalizing received with
  | nil => exact List.nil_prefix
  | cons body rest ih =>
      rw [complete]
      split_ifs
      · exact List.nil_prefix
      · exact (List.prefix_cons_inj body).mpr (ih _)

theorem complete_weight (bodies : List Bytes) : complete bodies (weight bodies) = bodies := by
  induction bodies with
  | nil => rfl
  | cons body rest ih =>
      rw [complete, if_neg (by rw [weight_cons]; omega), weight_cons_sub, ih]

/-- No more than a body is held back, or an incomplete header. -/
theorem heldBack_le_of_bounded {bodies : List Bytes} {limit received : ℕ} (header : 3 ≤ limit)
    (bounded : ∀ body ∈ bodies, body.length ≤ limit) (available : received ≤ weight bodies) :
    heldBack bodies received ≤ limit := by
  induction bodies generalizing received with
  | nil =>
      rw [weight_nil] at available
      rw [heldBack]
      omega
  | cons body rest ih =>
      have first := bounded body List.mem_cons_self
      rw [weight_cons] at available
      rw [heldBack]
      split_ifs
      · omega
      · omega
      · exact ih (fun other member => bounded other (List.mem_cons_of_mem _ member)) (by omega)

theorem drain_partial_header {buffered : Bytes} (short : buffered.length < 4) :
    machine.drain ⟨none, buffered⟩ = (⟨none, buffered⟩, []) := by
  apply Incremental.drain_of_quiet
  simp only [Incremental.Quiet, machine_step, Parser.step, if_pos short]

theorem drain_partial_body {body : Bytes} (bounded : body.length < 256 ^ 4) {count : ℕ}
    (short : count < body.length) :
    machine.drain ⟨none, le 4 body.length ++ body.take count⟩ =
      (⟨some body.length, body.take count⟩, []) := by
  have header : machine.step ⟨none, le 4 body.length ++ body.take count⟩ =
      some (⟨some body.length, body.take count⟩, []) := by
    rw [machine_step, Parser.step_header rfl (by simp), List.take_left' (length_le 4 _),
      List.drop_left' (length_le 4 _), ofLe_le bounded]
  have quiet : machine.Quiet ⟨some body.length, body.take count⟩ := by
    simp only [Incremental.Quiet, machine_step, Parser.step, List.length_take]
    exact if_pos (by omega)
  rw [Incremental.drain_of_step header, Incremental.drain_of_quiet quiet]
  rfl

/-- What a parser that was given the first `received` bytes of a stream keeps and delivers. -/
theorem drain_take {bodies : List Bytes} (bounded : ∀ body ∈ bodies, body.length < 256 ^ 4)
    {received : ℕ} (available : received ≤ weight bodies) :
    (machine.drain ⟨none, (stream bodies).take received⟩).1.buffered.length =
        heldBack bodies received ∧
      (machine.drain ⟨none, (stream bodies).take received⟩).2 = complete bodies received := by
  induction bodies generalizing received with
  | nil =>
      rw [weight_nil, Nat.le_zero] at available
      subst available
      exact ⟨rfl, rfl⟩
  | cons body rest ih =>
      have headBounded : body.length < 256 ^ 4 := bounded body List.mem_cons_self
      simp only [heldBack, complete]
      by_cases headerPartial : received < 4
      · have taken : ((stream (body :: rest)).take received).length = received := by
          rw [List.length_take, length_stream]
          omega
        rw [drain_partial_header (by omega), if_pos headerPartial, if_pos (by omega)]
        exact ⟨taken, rfl⟩
      · by_cases bodyPartial : received < 4 + body.length
        · rw [take_stream_body body rest (not_lt.mp headerPartial) bodyPartial.le,
            drain_partial_body headBounded (by omega), if_neg headerPartial,
            if_pos bodyPartial, if_pos bodyPartial]
          refine ⟨?_, rfl⟩
          simp only [List.length_take]
          omega
        · rw [weight_cons] at available
          rcases ih (fun body member => bounded body (List.mem_cons_of_mem _ member))
            (Nat.sub_le_of_le_add (by omega) : received - (4 + body.length) ≤ weight rest) with
            ⟨kept, delivered⟩
          rw [take_stream_frame body rest (not_lt.mp bodyPartial), drain_frame headBounded,
            if_neg headerPartial, if_neg bodyPartial, if_neg bodyPartial]
          exact ⟨kept, congrArg (body :: ·) delivered⟩

end Frames
