import SimpleModule.Encrypt.Reassembly
import SimpleModule.Packet.ReadLoop

/-!
# Completed bodies

`PacketHeaderProcess` reads the frames that `WriteData` makes.  This file says which bodies
it completes after a part of a stream, and what `GetBufHead` shows for each of them: since
the buffer is never emptied, this is the body itself only if all bodies before it were
empty.

The decoder of `PacketDecrypt` reads the same frames.  It has completed the same bodies,
except that `PacketHeaderProcess` waits for another byte before it completes an empty one.
-/

namespace SimpleModule

open Octets

namespace PacketHeaderProcess

open Frames (Pusher)

/-- The lengths that a header can announce. -/
def Announceable (payload : Bytes) : Prop := payload.length < 2 ^ 31

theorem bounded_of_announceable {payloads : List Bytes}
    (announceable : ∀ payload ∈ payloads, Announceable payload) :
    ∀ payload ∈ payloads, payload.length < 256 ^ 4 := by
  intro payload member
  have := announceable payload member
  simp only [Announceable] at this
  omega

section Streams

variable {payloads chunks : List Bytes} {memory : Bytes}

theorem pushAll_flatten (announceable : ∀ payload ∈ payloads, Announceable payload)
    (cut : chunks.flatten <+: Frames.stream payloads) :
    Pusher.initial.pushAll chunks.flatten =
      (Frames.position payloads chunks.flatten.length,
        Frames.pushed payloads chunks.flatten.length) := by
  have bounded := bounded_of_announceable announceable
  have available : chunks.flatten.length ≤ Frames.weight payloads := by
    simpa using cut.length_le
  rw [← Frames.pushAll_take bounded available, ← List.prefix_iff_eq_take.mp cut]

theorem need_position_lt (announceable : ∀ payload ∈ payloads, Announceable payload)
    (received : ℕ) : ∀ size, (Frames.position payloads received).need = some size →
      size < 2 ^ 31 := by
  intro size needs
  rcases Frames.need_position needs with ⟨payload, member, small⟩
  exact small.trans_lt (announceable payload member)

theorem fedBelow_stream (announceable : ∀ payload ∈ payloads, Announceable payload) :
    Pusher.initial.FedBelow (2 ^ 31) (Frames.stream payloads) := by
  apply Pusher.fedBelow_of_take
  intro count size needs
  have single : [(Frames.stream payloads).take count].flatten <+: Frames.stream payloads := by
    simpa using List.take_prefix count _
  have position := pushAll_flatten announceable single
  rw [List.flatten_singleton] at position
  rw [position] at needs
  exact need_position_lt announceable _ size needs

/-- What the process has completed after chunks from the beginning of a stream. -/
theorem readChunks_prefix (announceable : ∀ payload ∈ payloads, Announceable payload)
    (whole : memory.length = 4) (vfd : ℤ) (cut : chunks.flatten <+: Frames.stream payloads)
    (aligned : ∀ front, front <+: chunks →
      ¬Frames.InHeader payloads front.flatten.length) :
    (readChunks vfd (create memory) chunks = none ∧
        ¬AllInsertsReturn [] Pusher.initial chunks) ∨
      ∃ final, readChunks vfd (create memory) chunks =
          some (final, heads [] (Frames.pushed payloads chunks.flatten.length)) ∧
        AllInsertsReturn [] Pusher.initial chunks ∧
        final.Refines vfd (Frames.position payloads chunks.flatten.length)
          (Frames.pushed payloads chunks.flatten.length).flatten := by
  have reached := pushAll_flatten announceable cut
  have fed : Pusher.initial.FedBelow (2 ^ 31) chunks.flatten := by
    rcases cut with ⟨later, whole⟩
    have stream := fedBelow_stream announceable
    rw [← whole, Pusher.fedBelow_append] at stream
    exact stream.1
  have headerless : ∀ front, front <+: chunks →
      (Pusher.initial.pushAll front.flatten).1.header = [] := by
    rintro front ⟨later, rfl⟩
    rw [List.flatten_append] at cut
    rw [pushAll_flatten announceable ((List.prefix_append _ _).trans cut)]
    exact Frames.header_position (aligned front (List.prefix_append _ _))
  rcases (create_shadows whole vfd).readChunks_cases headerless fed with
    stuck | ⟨final, returned, inside, shadows⟩
  · exact Or.inl stuck
  · rw [reached] at returned shadows
    have refines := shadows.refines_of_small (need_position_lt announceable _)
    exact Or.inr ⟨final, returned, inside, by simpa using refines⟩

end Streams

/-! ## Bodies handed out -/

/-- A payload by itself, as `GetBufHead` would show it. -/
def alone (payload : Bytes) : Found := (payload, (payload.length : ℤ))

/-- The chunks are read, and the `k`-th body is handed out as the `k`-th payload. -/
def HandsOutBodies (vfd : ℤ) (memory : Bytes) (payloads chunks : List Bytes) : Prop :=
  ∃ final found, readChunks vfd (create memory) chunks = some (final, found) ∧
    found <+: payloads.map alone

/-- The payloads that a whole stream completes: an empty one at the end waits for a byte. -/
def completed (payloads : List Bytes) : List Bytes :=
  if payloads.getLast? = some [] then payloads.dropLast else payloads

theorem completed_beginning (payloads : List Bytes) : completed payloads <+: payloads := by
  simp only [completed]
  split_ifs
  · exact List.dropLast_prefix payloads
  · exact List.prefix_rfl

/-- What was read before a body comes with it. -/
theorem heads_eq_map_iff (earlier : Bytes) (bodies : List Bytes) :
    heads earlier bodies = bodies.map alone ↔
      bodies = [] ∨ earlier = [] ∧ ∀ body ∈ bodies.dropLast, body = [] := by
  induction bodies generalizing earlier with
  | nil => simp [heads]
  | cons body rest ih =>
      rw [heads, List.map_cons, List.cons.injEq, ih]
      have first : (earlier ++ body, ((earlier ++ body).length : ℤ)) = alone body ↔
          earlier = [] := by
        simp [alone]
      rw [first]
      cases rest with
      | nil => simp
      | cons next rest => simp [List.dropLast_cons_cons, and_assoc]

theorem heads_prefix_iff (payloads : List Bytes) :
    heads [] (completed payloads) <+: payloads.map alone ↔
      ∀ payload ∈ (completed payloads).dropLast, payload = [] := by
  have found := (completed_beginning payloads).map alone
  have same : heads [] (completed payloads) <+: payloads.map alone ↔
      heads [] (completed payloads) = (completed payloads).map alone := by
    constructor
    · intro handed
      apply (List.prefix_of_prefix_length_le handed found (by simp)).eq_of_length
      simp
    · intro equal
      rw [equal]
      exact found
  rw [same, heads_eq_map_iff]
  constructor
  · rintro (none | ⟨-, empty⟩)
    · simp [none]
    · exact empty
  · intro empty
    exact Or.inr ⟨rfl, empty⟩

theorem flatten_writeData {payloads : List Bytes}
    (framable : ∀ payload ∈ payloads, payload.length + 4 < 2 ^ 31) :
    (payloads.map writeData).flatten = Frames.stream payloads := by
  rw [Frames.stream, List.flatMap]
  apply congrArg List.flatten
  apply List.map_congr_left
  intro payload member
  exact writeData_eq (framable payload member)

/--
Bodies are handed out alone exactly if every insert stays inside the block of the buffer and
every completed payload except for the last is empty.
-/
theorem handsOutBodies_iff {payloads chunks : List Bytes} {memory : Bytes}
    (framable : ∀ payload ∈ payloads, payload.length + 4 < 2 ^ 31) (whole : memory.length = 4)
    (vfd : ℤ) (cut : chunks.flatten = (payloads.map writeData).flatten)
    (aligned : ∀ front, front <+: chunks →
      ¬Frames.InHeader payloads front.flatten.length) :
    HandsOutBodies vfd memory payloads chunks ↔
      AllInsertsReturn [] Pusher.initial chunks ∧
        ∀ payload ∈ (completed payloads).dropLast, payload = [] := by
  have announceable : ∀ payload ∈ payloads, Announceable payload := by
    intro payload member
    have := framable payload member
    simp only [Announceable]
    omega
  rw [flatten_writeData framable] at cut
  rcases readChunks_prefix announceable whole vfd (cut ▸ List.prefix_rfl) aligned with
    ⟨stuck, outside⟩ | ⟨final, returned, inside, refines⟩
  · constructor
    · rintro ⟨final, found, returned, -⟩
      rw [stuck] at returned
      cases returned
    · rintro ⟨inside, -⟩
      exact absurd inside outside
  · rw [cut, Frames.length_stream, Frames.pushed_weight, ← completed] at returned
    rw [← heads_prefix_iff]
    constructor
    · rintro ⟨other, found, again, handed⟩
      rw [returned, Option.some.injEq, Prod.mk.injEq] at again
      exact ⟨inside, again.2 ▸ handed⟩
    · rintro ⟨-, handed⟩
      exact ⟨final, _, returned, handed⟩

/-- An empty payload and one of two bytes, cut inside the second body. -/
theorem handsOutBodies_empty_first :
    HandsOutBodies 7 [0, 0, 0, 0] [[], [65, 66]] [[0, 0, 0, 0], [2, 0, 0, 0, 65], [66]] := by
  have places : ∀ front ∈ List.inits ([[0, 0, 0, 0], [2, 0, 0, 0, 65], [66]] : List Bytes),
      ¬Frames.InHeader [[], [65, 66]] front.flatten.length := by
    decide
  apply (handsOutBodies_iff (by decide) rfl 7 (by decide) ?_).mpr
  · decide
  · intro front before
    exact places front ((List.mem_inits front _).mpr before)

/-- The second body is handed out with the first one before it. -/
theorem not_handsOutBodies_two :
    ¬HandsOutBodies 7 [0, 0, 0, 0] [[1], [2]] [[1, 0, 0, 0, 1], [1, 0, 0, 0, 2]] := by
  rintro ⟨final, found, returned, handed⟩
  have pairs : (readChunks 7 (create [0, 0, 0, 0]) [[1, 0, 0, 0, 1], [1, 0, 0, 0, 2]]).map
      Prod.snd = some [([1], 1), ([1, 2], 2)] := by
    decide +kernel
  rw [returned, Option.map_some, Option.some.injEq] at pairs
  have second : found = [([1], 1), ([1, 2], 2)] := pairs
  rw [second] at handed
  revert handed
  decide

/-! ## Two decoders -/

/--
After each chunk both decoders have completed the same number of bodies, and after whole
frames the process waits for a header.
-/
def DecodersAgree (vfd : ℤ) (memory : Bytes) (payloads chunks : List Bytes) : Prop :=
  ∀ front, front <+: chunks →
    ∃ process found decoder bags,
      readChunks vfd (create memory) front = some (process, found) ∧
      PacketDecrypt.decryptPackets .requested vfd (PacketDecrypt.create none) front =
        some (decoder, bags) ∧
      found.length = bags.length ∧
      ∀ frames, frames <+: payloads → front.flatten.length = Frames.weight frames →
        process.status = .header ∧ process.needBufLen = 4

section Agreement

variable {payloads chunks : List Bytes} {memory : Bytes}

theorem flatten_beginning {front : List Bytes} (before : front <+: chunks)
    (cut : chunks.flatten = Frames.stream payloads) : front.flatten <+: Frames.stream payloads := by
  rcases before with ⟨later, rfl⟩
  rw [← cut, List.flatten_append]
  exact List.prefix_append _ _

/-- What both decoders have done after some of the chunks, as long as their buffers suffice. -/
theorem agree_prefix (announceable : ∀ payload ∈ payloads, Announceable payload)
    (whole : memory.length = 4) (vfd : ℤ) (cut : chunks.flatten = Frames.stream payloads)
    (aligned : ∀ front, front <+: chunks →
      ¬Frames.InHeader payloads front.flatten.length)
    (inside : AllInsertsReturn [] Pusher.initial chunks)
    (hasRoom : PacketDecrypt.HasRoom .requested payloads PacketDecrypt.newRoom 0
      (chunks.map List.length))
    {front : List Bytes} (before : front <+: chunks) :
    ∃ process decoder,
      readChunks vfd (create memory) front =
        some (process, heads [] (Frames.pushed payloads front.flatten.length)) ∧
      process.Refines vfd (Frames.position payloads front.flatten.length)
        (Frames.pushed payloads front.flatten.length).flatten ∧
      PacketDecrypt.decryptPackets .requested vfd (PacketDecrypt.create none) front =
        some (decoder, (Frames.complete payloads front.flatten.length).map (Bag.mk vfd)) := by
  have beginning := flatten_beginning before cut
  have space : AllInsertsReturn [] Pusher.initial front ∧
      PacketDecrypt.HasRoom .requested payloads PacketDecrypt.newRoom 0
        (front.map List.length) := by
    rcases before with ⟨later, rfl⟩
    rw [List.map_append] at hasRoom
    exact ⟨inside.of_append, hasRoom.of_append⟩
  have delivered := PacketDecrypt.decryptPackets_prefix (bounded_of_announceable announceable) vfd
    (show (PacketDecrypt.decipherAll none front).flatten <+: _ by simpa using beginning)
    (by simpa using space.2)
  rw [PacketDecrypt.decipherAll_none] at delivered
  rcases delivered with ⟨decoder, delivered⟩
  rcases readChunks_prefix announceable whole vfd beginning
      (fun shorter earlier => aligned shorter (earlier.trans before)) with
    ⟨-, outside⟩ | ⟨process, returned, -, refines⟩
  · exact absurd space.1 outside
  · exact ⟨process, decoder, returned, refines, delivered⟩

/-- If both decoders read all chunks, their buffers suffice. -/
theorem DecodersAgree.space (announceable : ∀ payload ∈ payloads, Announceable payload)
    (whole : memory.length = 4) {vfd : ℤ} (cut : chunks.flatten = Frames.stream payloads)
    (aligned : ∀ front, front <+: chunks →
      ¬Frames.InHeader payloads front.flatten.length)
    (agree : DecodersAgree vfd memory payloads chunks) :
    AllInsertsReturn [] Pusher.initial chunks ∧
      PacketDecrypt.HasRoom .requested payloads PacketDecrypt.newRoom 0
        (chunks.map List.length) := by
  rcases agree chunks List.prefix_rfl with
    ⟨process, found, decoder, bags, returned, delivered, -⟩
  have beginning := flatten_beginning List.prefix_rfl cut
  constructor
  · rcases readChunks_prefix announceable whole vfd beginning aligned with
      ⟨stuck, -⟩ | ⟨final, -, inside, -⟩
    · rw [returned] at stuck
      cases stuck
    · exact inside
  · by_contra beyond
    have stuck := PacketDecrypt.decryptPackets_prefix_none (bounded_of_announceable announceable)
      vfd (show (PacketDecrypt.decipherAll none chunks).flatten <+: _ by simpa using beginning)
      (by simpa using beyond)
    rw [delivered] at stuck
    cases stuck

/--
The decoders agree exactly if no chunk ends right behind the header of an empty body and
the buffers of both suffice.
-/
theorem decodersAgree_iff (announceable : ∀ payload ∈ payloads, Announceable payload)
    (whole : memory.length = 4) (vfd : ℤ) (cut : chunks.flatten = Frames.stream payloads)
    (aligned : ∀ front, front <+: chunks →
      ¬Frames.InHeader payloads front.flatten.length) :
    DecodersAgree vfd memory payloads chunks ↔
      (∀ front, front <+: chunks → ¬Frames.AfterEmpty payloads front.flatten.length) ∧
        AllInsertsReturn [] Pusher.initial chunks ∧
        PacketDecrypt.HasRoom .requested payloads PacketDecrypt.newRoom 0
          (chunks.map List.length) := by
  constructor
  · intro agree
    have buffers := agree.space announceable whole cut aligned
    refine ⟨?_, buffers⟩
    intro front before pending
    rcases agree_prefix announceable whole vfd cut aligned buffers.1 buffers.2 before with
      ⟨process, decoder, returned, -, delivered⟩
    rcases agree front before with
      ⟨process', found, decoder', bags, returned', delivered', same, -⟩
    rw [returned, Option.some.injEq, Prod.mk.injEq] at returned'
    rw [delivered, Option.some.injEq, Prod.mk.injEq] at delivered'
    rw [← returned'.2, ← delivered'.2, length_heads, List.length_map,
      Frames.length_complete pending] at same
    omega
  · rintro ⟨settled, inside, hasRoom⟩ front before
    rcases agree_prefix announceable whole vfd cut aligned inside hasRoom before with
      ⟨process, decoder, returned, refines, delivered⟩
    refine ⟨process, _, decoder, _, returned, delivered, ?_, ?_⟩
    · rw [length_heads, List.length_map, Frames.pushed_eq_complete (settled front before)]
    · rintro frames ⟨later, rfl⟩ place
      have between := settled front before
      rw [place] at between refines
      rw [Frames.position_weight frames later between] at refines
      exact refines.status_header

/-- An empty body whose header comes with the next frame. -/
theorem decodersAgree_empty_body :
    DecodersAgree 7 [0, 0, 0, 0] [[], [65, 66]] [[0, 0, 0, 0, 2, 0, 0, 0, 65], [66]] := by
  have places : ∀ front ∈ List.inits ([[0, 0, 0, 0, 2, 0, 0, 0, 65], [66]] : List Bytes),
      ¬Frames.InHeader [[], [65, 66]] front.flatten.length ∧
        ¬Frames.AfterEmpty [[], [65, 66]] front.flatten.length := by
    decide
  have announceable : ∀ payload ∈ ([[], [65, 66]] : List Bytes), Announceable payload := by
    simp [Announceable]
  apply (decodersAgree_iff announceable rfl 7 (by decide) ?_).mpr
  · refine ⟨?_, by decide, by decide⟩
    intro front before
    exact (places front ((List.mem_inits front _).mpr before)).2
  · intro front before
    exact (places front ((List.mem_inits front _).mpr before)).1

/-- After the header of an empty body one decoder has completed it and the other has not. -/
theorem not_decodersAgree_header_only :
    ¬DecodersAgree 7 [0, 0, 0, 0] [[]] [[0, 0, 0, 0]] := by
  intro agree
  rcases agree [[0, 0, 0, 0]] List.prefix_rfl with
    ⟨process, found, decoder, bags, returned, -, -, back⟩
  have waits : (readChunks 7 (create [0, 0, 0, 0]) [[0, 0, 0, 0]]).map
      (fun result => result.1.status) = some .body := by
    decide +kernel
  have status := (back [[]] List.prefix_rfl (by decide)).1
  rw [returned, Option.map_some, status] at waits
  cases waits

end Agreement

end PacketHeaderProcess

end SimpleModule
