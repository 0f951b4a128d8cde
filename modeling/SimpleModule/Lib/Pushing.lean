import SimpleModule.Lib.Frames

/-!
# Frames byte by byte

A pusher is given a stream of frames one byte at a time.  It gathers a header, then as many
bytes as the header says, and delivers a body with its last byte.  A body without bytes has
no last byte; it is delivered with the first byte behind it.

What a pusher does with a stream does not depend on how the stream was cut.  `position` and
`pushed` are its state and its deliveries after a part of a stream.
-/

namespace Frames

open Octets

/-- The bytes of a header, or the bytes that a body still needs and those it has. -/
structure Pusher where
  header : Bytes
  need : Option ℕ
  body : Bytes

namespace Pusher

/-- The pusher between two frames. -/
def initial : Pusher := ⟨[], none, []⟩

/-- The pusher after another byte of a header. -/
def gather (header : Bytes) (byte : Byte) : Pusher :=
  if header.length + 1 = 4 then ⟨[], some (ofLe (header ++ [byte])), []⟩
  else ⟨header ++ [byte], none, []⟩

/-- The next byte, and the bodies that are delivered with it. -/
def push (pusher : Pusher) (byte : Byte) : Pusher × List Bytes :=
  match pusher.need with
  | none => (gather pusher.header byte, [])
  | some 0 => (gather [] byte, [pusher.body])
  | some 1 => (initial, [pusher.body ++ [byte]])
  | some (size + 2) => (⟨[], some (size + 1), pusher.body ++ [byte]⟩, [])

def pushAll : Pusher → Bytes → Pusher × List Bytes
  | pusher, [] => (pusher, [])
  | pusher, byte :: rest =>
      ((pushAll (pusher.push byte).1 rest).1,
        (pusher.push byte).2 ++ (pushAll (pusher.push byte).1 rest).2)

theorem pushAll_append (pusher : Pusher) (first second : Bytes) :
    pusher.pushAll (first ++ second) =
      (((pusher.pushAll first).1.pushAll second).1,
        (pusher.pushAll first).2 ++ ((pusher.pushAll first).1.pushAll second).2) := by
  induction first generalizing pusher with
  | nil => rfl
  | cons byte rest ih => simp [pushAll, ih]

/-! ## Headers and bodies -/

theorem pushAll_short_header {header : Bytes} (short : header.length < 4) :
    pushAll initial header = (⟨header, none, []⟩, []) := by
  rcases header with _ | ⟨a, _ | ⟨b, _ | ⟨c, _ | ⟨d, rest⟩⟩⟩⟩
  · rfl
  · rfl
  · rfl
  · rfl
  · simp at short
    omega

/-- Bytes that do not end inside of a header have a whole one. -/
theorem four_le_of_aligned {bytes : Bytes} (nonempty : bytes ≠ [])
    (aligned : (pushAll initial bytes).1.header = []) : 4 ≤ bytes.length := by
  by_contra short
  rw [pushAll_short_header (not_le.mp short)] at aligned
  exact nonempty aligned

theorem pushAll_header {header : Bytes} (whole : header.length = 4) :
    pushAll initial header = (⟨[], some (ofLe header), []⟩, []) := by
  rcases header with _ | ⟨a, _ | ⟨b, _ | ⟨c, _ | ⟨d, _ | ⟨e, rest⟩⟩⟩⟩⟩
  · cases whole
  · cases whole
  · cases whole
  · cases whole
  · rfl
  · simp at whole

theorem pushAll_part {size : ℕ} {part : Bytes} (short : part.length < size) (body : Bytes) :
    pushAll ⟨[], some size, body⟩ part =
      (⟨[], some (size - part.length), body ++ part⟩, []) := by
  induction part generalizing size body with
  | nil => simp [pushAll]
  | cons byte rest ih =>
      rw [List.length_cons] at short
      rcases size with _ | _ | size
      · omega
      · omega
      · rw [pushAll, push]
        simp only
        rw [ih (by omega), List.length_cons]
        simp only [List.append_assoc, List.singleton_append, List.nil_append]
        congr 3
        omega

theorem pushAll_body {part : Bytes} (nonempty : part ≠ []) (body : Bytes) :
    pushAll ⟨[], some part.length, body⟩ part = (initial, [body ++ part]) := by
  rcases List.eq_nil_or_concat part with empty | ⟨front, last, rfl⟩
  · exact absurd empty nonempty
  · have size : (front.concat last).length = front.length + 1 := by simp
    have before := pushAll_part (show front.length < front.length + 1 by omega) body
    rw [Nat.add_sub_cancel_left] at before
    rw [size, List.concat_eq_append, pushAll_append, before]
    simp [pushAll, push]

/-- A body without bytes is delivered with the next byte. -/
theorem pushAll_empty (body : Bytes) {rest : Bytes} (nonempty : rest ≠ []) :
    pushAll ⟨[], some 0, body⟩ rest =
      ((pushAll initial rest).1, body :: (pushAll initial rest).2) := by
  cases rest with
  | nil => exact absurd rfl nonempty
  | cons byte rest => rfl

/-- A frame is delivered with its last byte, or with the next one if it has no body. -/
theorem pushAll_frame {body rest : Bytes} (bounded : body.length < 256 ^ 4)
    (ends : body ≠ [] ∨ rest ≠ []) :
    pushAll initial (frame body ++ rest) =
      ((pushAll initial rest).1, body :: (pushAll initial rest).2) := by
  rw [frame, List.append_assoc, pushAll_append, pushAll_header (length_le 4 _), ofLe_le bounded]
  by_cases empty : body = []
  · subst empty
    rw [List.nil_append, List.length_nil, pushAll_empty [] (by simpa using ends)]
    rfl
  · rw [pushAll_append, pushAll_body empty]
    rfl

/-- Only a pusher behind a header has bytes of a body. -/
def Proper (pusher : Pusher) : Prop := pusher.need = none → pusher.body = []

theorem proper_gather (header : Bytes) (byte : Byte) : (gather header byte).Proper := by
  intro waits
  simp only [gather] at waits ⊢
  split_ifs <;> rfl

theorem Proper.push {pusher : Pusher} (proper : pusher.Proper) (byte : Byte) :
    (pusher.push byte).1.Proper ∧
      pusher.body.length ≤
        (pusher.push byte).2.flatten.length + (pusher.push byte).1.body.length := by
  rcases pusher with ⟨header, _ | _ | _ | size, body⟩
  · have empty : body = [] := proper rfl
    exact ⟨proper_gather header byte, by simp [empty]⟩
  · exact ⟨proper_gather [] byte, by simp [Pusher.push]⟩
  · exact ⟨fun _ => rfl, by simp [Pusher.push, initial]⟩
  · refine ⟨fun waits => ?_, by simp [Pusher.push]⟩
    cases waits

/-- The bytes of a body are kept until it is delivered. -/
theorem Proper.pushAll {pusher : Pusher} (proper : pusher.Proper) (input : Bytes) :
    (pusher.pushAll input).1.Proper ∧
      pusher.body.length ≤
        (pusher.pushAll input).2.flatten.length + (pusher.pushAll input).1.body.length := by
  induction input generalizing pusher with
  | nil => exact ⟨proper, by simp [Pusher.pushAll]⟩
  | cons byte rest ih =>
      have first := proper.push byte
      have later := ih first.1
      refine ⟨later.1, ?_⟩
      simp only [Pusher.pushAll, List.flatten_append, List.length_append]
      omega

/-- No byte of the input arrives while this many bytes are needed. -/
def FedBelow (limit : ℕ) : Pusher → Bytes → Prop
  | _, [] => True
  | pusher, byte :: rest =>
      (∀ size, pusher.need = some size → size < limit) ∧ FedBelow limit (pusher.push byte).1 rest

theorem fedBelow_append {limit : ℕ} {pusher : Pusher} {first second : Bytes} :
    pusher.FedBelow limit (first ++ second) ↔
      pusher.FedBelow limit first ∧ (pusher.pushAll first).1.FedBelow limit second := by
  induction first generalizing pusher with
  | nil => simp [FedBelow, pushAll]
  | cons byte rest ih => simp [FedBelow, pushAll, ih, and_assoc]

theorem fedBelow_of_take {limit : ℕ} {pusher : Pusher} {input : Bytes}
    (below : ∀ count size, (pusher.pushAll (input.take count)).1.need = some size → size < limit) :
    pusher.FedBelow limit input := by
  induction input generalizing pusher with
  | nil => trivial
  | cons byte rest ih =>
      constructor
      · exact below 0
      · apply ih
        intro count
        exact below (count + 1)

theorem fedBelow_header {header : Bytes} (whole : header.length = 4) (limit : ℕ) :
    initial.FedBelow limit header := by
  rcases header with _ | ⟨a, _ | ⟨b, _ | ⟨c, _ | ⟨d, _ | ⟨e, rest⟩⟩⟩⟩⟩
  · cases whole
  · cases whole
  · cases whole
  · cases whole
  · simp [FedBelow, initial, push, gather]
  · simp at whole

theorem fedBelow_part {limit size : ℕ} {body part : Bytes} (small : size < limit)
    (short : part.length ≤ size) : Pusher.FedBelow limit ⟨[], some size, body⟩ part := by
  induction part generalizing size body with
  | nil => trivial
  | cons byte rest ih =>
      rw [List.length_cons] at short
      refine ⟨fun needed same => Option.some.inj same ▸ small, ?_⟩
      rcases size with _ | _ | size
      · omega
      · rw [List.eq_nil_of_length_eq_zero (by omega : rest.length = 0)]
        trivial
      · exact ih (by omega) (by omega)

/-- An empty body adds nothing to what is needed behind it. -/
theorem fedBelow_empty {limit : ℕ} (positive : 0 < limit) (body input : Bytes) :
    Pusher.FedBelow limit ⟨[], some 0, body⟩ input ↔ initial.FedBelow limit input := by
  cases input with
  | nil => exact Iff.rfl
  | cons byte rest => simp [FedBelow, push, initial, positive]

theorem fedBelow_of_le {limit size : ℕ} {body input : Bytes} (large : limit ≤ size) :
    Pusher.FedBelow limit ⟨[], some size, body⟩ input ↔ input = [] := by
  cases input with
  | nil => simp [FedBelow]
  | cons byte rest => simp [FedBelow, not_lt.mpr large]

end Pusher

open Pusher

/-! ## Streams -/

/-- The pusher that was given the first bytes of a stream. -/
def position : List Bytes → (received : ℕ) → Pusher
  | [], _ => initial
  | body :: rest, received =>
      if received < 4 then ⟨(frame body).take received, none, []⟩
      else if received < 4 + max 1 body.length then
        ⟨[], some (4 + body.length - received), body.take (received - 4)⟩
      else position rest (received - (4 + body.length))

/-- The bodies that it has delivered. -/
def pushed : List Bytes → (received : ℕ) → List Bytes
  | [], _ => []
  | body :: rest, received =>
      if received < 4 + max 1 body.length then []
      else body :: pushed rest (received - (4 + body.length))

/-- Between the first header and the end of its body, which has to wait for a byte if empty. -/
theorem pushAll_take_body {body : Bytes} (bounded : body.length < 256 ^ 4) (rest : List Bytes)
    {received : ℕ} (header : 4 ≤ received) (short : received < 4 + max 1 body.length) :
    initial.pushAll ((stream (body :: rest)).take received) =
      (⟨[], some (4 + body.length - received), body.take (received - 4)⟩, []) := by
  rw [take_stream_body body rest header (by omega), pushAll_append, pushAll_header (length_le 4 _),
    ofLe_le bounded]
  by_cases empty : body = []
  · subst empty
    obtain rfl : received = 4 := by simp at short; omega
    rfl
  · have nonempty := List.length_pos_iff.mpr empty
    have length : (body.take (received - 4)).length = received - 4 := by
      rw [List.length_take]
      omega
    have left : body.length - (received - 4) = 4 + body.length - received := by omega
    rw [pushAll_part (by omega), length, left]
    rfl

theorem pushAll_take {bodies : List Bytes} (bounded : ∀ body ∈ bodies, body.length < 256 ^ 4)
    {received : ℕ} (available : received ≤ weight bodies) :
    initial.pushAll ((stream bodies).take received) =
      (position bodies received, pushed bodies received) := by
  induction bodies generalizing received with
  | nil => simp [stream, pushAll, position, pushed]
  | cons body rest ih =>
      have headBounded : body.length < 256 ^ 4 := bounded body List.mem_cons_self
      simp only [position, pushed]
      by_cases headerPartial : received < 4
      · rw [take_stream_header body rest headerPartial,
          pushAll_short_header (by rw [List.length_take]; omega), if_pos headerPartial,
          if_pos (by omega)]
      · rw [if_neg headerPartial]
        by_cases bodyPartial : received < 4 + max 1 body.length
        · rw [if_pos bodyPartial, if_pos bodyPartial]
          exact pushAll_take_body headBounded rest (not_lt.mp headerPartial) bodyPartial
        · rw [weight_cons] at available
          have later := ih (fun body member => bounded body (List.mem_cons_of_mem _ member))
            (Nat.sub_le_of_le_add (by omega) : received - (4 + body.length) ≤ weight rest)
          have ends : body ≠ [] ∨ (stream rest).take (received - (4 + body.length)) ≠ [] := by
            by_cases empty : body = []
            · right
              subst empty
              apply List.ne_nil_of_length_pos
              rw [List.length_take, length_stream]
              simp at bodyPartial available ⊢
              omega
            · exact .inl empty
          rw [if_neg bodyPartial, if_neg bodyPartial, take_stream_frame body rest (by omega),
            pushAll_frame headBounded ends, later]

/-! ## Places in a stream -/

/-- The place is inside a header. -/
def InHeader : List Bytes → (received : ℕ) → Prop
  | [], _ => False
  | body :: rest, received =>
      if received < 4 + body.length then 0 < received ∧ received < 4
      else InHeader rest (received - (4 + body.length))

instance decidableInHeader : (bodies : List Bytes) → (received : ℕ) →
    Decidable (InHeader bodies received)
  | [], _ => isFalse id
  | body :: rest, received =>
      have := decidableInHeader rest (received - (4 + body.length))
      inferInstanceAs (Decidable (if received < 4 + body.length then
        0 < received ∧ received < 4 else InHeader rest (received - (4 + body.length))))

/-- The place is right behind the header of a body without bytes. -/
def AfterEmpty : List Bytes → (received : ℕ) → Prop
  | [], _ => False
  | body :: rest, received =>
      4 + body.length ≤ received ∧
        (body = [] ∧ received = 4 ∨ AfterEmpty rest (received - (4 + body.length)))

instance decidableAfterEmpty : (bodies : List Bytes) → (received : ℕ) →
    Decidable (AfterEmpty bodies received)
  | [], _ => isFalse id
  | body :: rest, received =>
      have := decidableAfterEmpty rest (received - (4 + body.length))
      inferInstanceAs (Decidable (_ ∧ (_ ∨ _)))

@[simp]
theorem not_afterEmpty_zero (bodies : List Bytes) : ¬AfterEmpty bodies 0 := by
  cases bodies with
  | nil => exact id
  | cons body rest =>
      rintro ⟨beyond, -⟩
      omega

theorem header_position {bodies : List Bytes} {received : ℕ}
    (aligned : ¬InHeader bodies received) : (position bodies received).header = [] := by
  induction bodies generalizing received with
  | nil => rfl
  | cons body rest ih =>
      simp only [position]
      split_ifs with headerPartial bodyPartial
      · rw [InHeader, if_pos (by omega)] at aligned
        obtain rfl : received = 0 := by omega
        rfl
      · rfl
      · rw [InHeader, if_neg (by omega)] at aligned
        exact ih aligned

theorem need_position {bodies : List Bytes} {received size : ℕ}
    (needs : (position bodies received).need = some size) :
    ∃ body ∈ bodies, size ≤ body.length := by
  induction bodies generalizing received with
  | nil => cases needs
  | cons body rest ih =>
      simp only [position] at needs
      split_ifs at needs with headerPartial bodyPartial
      · rw [Option.some.injEq] at needs
        exact ⟨body, by simp, by omega⟩
      · rcases ih needs with ⟨other, member, small⟩
        exact ⟨other, by simp [member], small⟩

/-- Everything that is complete has been delivered, except for an empty body at the end. -/
theorem pushed_eq_complete {bodies : List Bytes} {received : ℕ}
    (settled : ¬AfterEmpty bodies received) :
    pushed bodies received = complete bodies received := by
  induction bodies generalizing received with
  | nil => rfl
  | cons body rest ih =>
      have empty : body.length = 0 → body = [] := List.eq_nil_of_length_eq_zero
      simp only [pushed, complete]
      by_cases short : received < 4 + body.length
      · rw [if_pos (by omega), if_pos short]
      · have later : ¬(body = [] ∧ received = 4) ∧
            ¬AfterEmpty rest (received - (4 + body.length)) := by
          rw [AfterEmpty] at settled
          exact not_or.mp fun both => settled ⟨not_lt.mp short, both⟩
        have long : ¬received < 4 + max 1 body.length := by
          intro cut
          exact later.1 ⟨empty (by omega), by omega⟩
        rw [if_neg long, if_neg short, ih later.2]

theorem length_complete {bodies : List Bytes} {received : ℕ}
    (pending : AfterEmpty bodies received) :
    (complete bodies received).length = (pushed bodies received).length + 1 := by
  induction bodies generalizing received with
  | nil => cases pending
  | cons body rest ih =>
      rcases pending with ⟨beyond, ⟨rfl, rfl⟩ | later⟩
      · simp [complete, pushed]
      · have long : ¬received < 4 + max 1 body.length := by
          intro cut
          have start : received - (4 + body.length) = 0 := by omega
          rw [start] at later
          exact not_afterEmpty_zero rest later
        rw [complete, pushed, if_neg (by omega), if_neg long, List.length_cons, List.length_cons,
          ih later]

/-- Between two frames the pusher is in its initial state, unless it waits for a byte. -/
theorem position_weight (front back : List Bytes)
    (settled : ¬AfterEmpty (front ++ back) (weight front)) :
    position (front ++ back) (weight front) = initial := by
  induction front with
  | nil =>
      cases back with
      | nil => rfl
      | cons body rest => rfl
  | cons body front ih =>
      have empty : body.length = 0 → body = [] := List.eq_nil_of_length_eq_zero
      have behind := weight_cons_sub body front
      have later : ¬(body = [] ∧ weight (body :: front) = 4) ∧
          ¬AfterEmpty (front ++ back) (weight front) := by
        rw [List.cons_append, AfterEmpty, behind] at settled
        apply not_or.mp
        intro both
        exact settled ⟨by rw [weight_cons]; omega, both⟩
      have long : ¬weight (body :: front) < 4 + max 1 body.length := by
        intro cut
        rw [weight_cons] at cut later
        exact later.1 ⟨empty (by omega), by omega⟩
      rw [List.cons_append, position, if_neg (by rw [weight_cons]; omega), if_neg long, behind,
        ih later.2]

/-- At its end a stream has delivered everything except for an empty last body. -/
theorem pushed_weight (bodies : List Bytes) :
    pushed bodies (weight bodies) =
      if bodies.getLast? = some [] then bodies.dropLast else bodies := by
  induction bodies with
  | nil => rfl
  | cons body rest ih =>
      rw [pushed, weight_cons_sub, ih, weight_cons]
      cases rest with
      | nil =>
          cases body with
          | nil => rfl
          | cons byte body => simp
      | cons next rest =>
          have more := four_le_weight (List.cons_ne_nil next rest)
          rw [if_neg (by omega), List.getLast?_cons_cons, List.dropLast_cons_cons]
          split_ifs <;> rfl

end Frames
