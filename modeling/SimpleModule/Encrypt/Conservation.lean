import SimpleModule.Encrypt.Reassembly

/-!
# Conservation of arbitrary input

A receiver without cipher may be sent anything, also lengths that no sender would write.
It neither loses nor invents bytes: the packets it has handed over, with their lengths in
front, the length it is waiting on and the bytes it still buffers are what it was sent.

The pending length is unsigned and the number of buffered bytes is not.  The comparison of
the two is made on unsigned numbers, so a length beyond the range of `int` is only waited
on and never reaches `GetBufData`.

All this is true of the chunks for which the receiver's buffer has room.  The buffer grows
to just the bytes it needs, and a later chunk that fits the recorded capacity may end
behind the block; `RoomFor` says for which chunks this does not happen.
-/

namespace SimpleModule

open Octets

namespace PacketDecrypt

open Frames (Parser)

/-- The bytes that the receiver has been sent and not handed over. -/
def pendingBytes (decoder : PacketDecrypt) : Bytes :=
  (if decoder.bagFlag then le 4 decoder.bagLen else []) ++ decoder.decryptBuf.getBufHead.1

/-- The receiver can do nothing without further input. -/
def Maximal (decoder : PacketDecrypt) : Prop :=
  if decoder.bagFlag then decoder.decryptBuf.getBufLen < decoder.bagLen
  else decoder.decryptBuf.getBufLen < 4

/-- The length that an iteration of the loop gives to `GetBufData`, if it calls it. -/
def bagRequest (decoder : PacketDecrypt) : ℤ :=
  if decoder.bagFlag then int32 decoder.bagLen else 4

theorem bagStep_getBufData {decoder next : PacketDecrypt} {bodies : List Bytes}
    (stepped : decoder.bagStep = some (next, bodies)) :
    next.decryptBuf = (decoder.decryptBuf.getBufData decoder.bagRequest).1 := by
  unfold bagStep at stepped
  cases flag : decoder.bagFlag with
  | false =>
      simp only [flag, Bool.not_false, if_true] at stepped
      split_ifs at stepped with few
      cases stepped
      simp [bagRequest, flag]
  | true =>
      simp only [flag, Bool.not_true, Bool.false_eq_true, if_false] at stepped
      split_ifs at stepped with few
      cases stepped
      simp [bagRequest, flag]

/-- The lengths that the loop of `BagProcess` gives to `GetBufData`. -/
def loopRequests : (fuel : ℕ) → PacketDecrypt → List ℤ
  | 0, _ => []
  | fuel + 1, decoder =>
      match decoder.bagStep with
      | none => []
      | some (next, _) => decoder.bagRequest :: loopRequests fuel next

/-- The lengths that `DecryptPacket` gives to `GetBufData`. -/
def packetRequests (decoder : PacketDecrypt) (buf : Bytes) : List ℤ :=
  match insertDecrypted .requested decoder.decryptBuf (decipher decoder.encryptClass buf).2 with
  | none => []
  | some decryptBuf =>
      loopRequests (2 * decryptBuf.getBufLen.toNat + 2)
        { decoder with
          decryptBuf := decryptBuf, encryptClass := (decipher decoder.encryptClass buf).1 }

/-- The lengths that successive calls of `DecryptPacket` give to `GetBufData`. -/
def requests (vfd : ℤ) : PacketDecrypt → List Bytes → List ℤ
  | _, [] => []
  | decoder, chunk :: rest =>
      decoder.packetRequests chunk ++
        match decoder.decryptPacket .requested vfd chunk with
        | none => []
        | some first => requests vfd first.1 rest

namespace Refines

variable {decoder : PacketDecrypt} {parser : Parser}

theorem pendingBytes_eq (refines : decoder.Refines parser) :
    decoder.pendingBytes = parser.bytes := by
  have flag := refines.bagFlag_eq
  simp only [pendingBytes, Parser.bytes, refines.stores.getBufHead_eq]
  cases pending : parser.pending with
  | none => simp [flag, pending]
  | some size => simp [flag, pending, refines.bagLen_eq size pending]

theorem maximal (refines : decoder.Refines parser) (quiet : Frames.machine.Quiet parser) :
    decoder.Maximal := by
  have flag := refines.bagFlag_eq
  rcases Frames.quiet_cases quiet with ⟨header, body⟩
  simp only [Maximal, refines.stores.getBufLen_eq]
  cases pending : parser.pending with
  | none =>
      have few := header pending
      simp only [flag, pending, Option.isSome_none, Bool.false_eq_true, if_false]
      omega
  | some size =>
      have few := body size pending
      simp only [flag, pending, Option.isSome_some, if_true, refines.bagLen_eq size pending]
      omega

/-- An iteration that calls `GetBufData` has as many bytes buffered as it asks for. -/
theorem bagRequest_nonneg (refines : decoder.Refines parser) {next : PacketDecrypt}
    {bodies : List Bytes} (stepped : decoder.bagStep = some (next, bodies)) :
    0 ≤ decoder.bagRequest := by
  have short := refines.length_lt
  unfold bagRequest
  split_ifs with flag
  · simp only [bagStep, flag, Bool.not_true, Bool.false_eq_true, if_false,
      refines.stores.getBufLen_eq] at stepped
    split_ifs at stepped with few
    simp only [unsigned32] at few
    simp only [int32]
    omega
  · decide

theorem loopRequests_nonneg (refines : decoder.Refines parser) (fuel : ℕ) :
    ∀ request ∈ loopRequests fuel decoder, 0 ≤ request := by
  induction fuel generalizing decoder parser with
  | zero => simp [loopRequests]
  | succ fuel ih =>
      intro request member
      cases stepped : parser.step with
      | none => simp [loopRequests, refines.bagStep_eq_none stepped] at member
      | some result =>
          rcases refines.bagStep_eq_some stepped with ⟨next, moved, nextRefines, -⟩
          simp only [loopRequests, moved, List.mem_cons] at member
          rcases member with rfl | later
          · exact refines.bagRequest_nonneg moved
          · exact ih nextRefines request later

theorem requests_nonneg (refines : decoder.Refines parser) (vfd : ℤ) {chunks : List Bytes}
    (within : Within .requested decoder.decryptBuf.room parser
      (decipherAll decoder.encryptClass chunks)) :
    ∀ request ∈ requests vfd decoder chunks, 0 ≤ request := by
  induction chunks generalizing decoder parser with
  | nil => simp [requests]
  | cons chunk rest ih =>
      intro request member
      rcases within with ⟨takes, later⟩
      rcases refines.insertDecrypted_eq .requested (decipher decoder.encryptClass chunk).1
        takes with ⟨buffer, inserted, fed, -⟩
      rcases refines.decryptPacket_eq .requested vfd takes with
        ⟨next, decrypted, nextRefines, nextClass, nextRoom⟩
      rw [← nextClass, ← nextRoom] at later
      simp only [requests, packetRequests, inserted, decrypted, List.mem_append] at member
      rcases member with here | after
      · exact fed.loopRequests_nonneg _ request here
      · exact ih nextRefines later request after

end Refines

/-- A new receiver's buffer has room for every chunk. -/
def RoomFor (chunks : List Bytes) : Prop := Within .requested newRoom Parser.initial chunks

/-- Chunks that never make a buffer grow have room. -/
theorem within_of_length_le {heap : MyBuf.Heap} {room : MyBuf.Room} {parser : Parser}
    {chunks : List Bytes} (full : room.Full) (sound : room.Sound)
    (kept : room.kept = parser.buffered.length)
    (small : parser.buffered.length + chunks.flatten.length ≤ room.bufSize) :
    Within heap room parser chunks := by
  induction chunks generalizing room parser with
  | nil => trivial
  | cons chunk rest ih =>
      rw [List.flatten_cons, List.length_append, ← kept] at small
      have drained := Frames.length_drain_le (Frames.machine.feed parser chunk)
      have fed : (Frames.machine.feed parser chunk).buffered.length =
          parser.buffered.length + chunk.length := List.length_append
      have here : room.kept + chunk.length ≤ room.bufSize := by omega
      have takes : room.Takes chunk.length :=
        (full.takes_iff sound).mpr (here.trans sound.bufSize_le)
      rcases full.insert_of_fits heap here with ⟨nextFull, sameSize⟩
      refine ⟨takes, ih nextFull ((sound.insert takes heap).keep ?_) rfl ?_⟩
      · rw [MyBuf.Room.kept_insert]
        omega
      · show _ ≤ (room.insert heap chunk.length).bufSize
        omega

theorem roomFor_of_length_le {chunks : List Bytes} (small : chunks.flatten.length ≤ 1024) :
    RoomFor chunks := by
  rcases newRoom_facts [] with ⟨full, sound, -⟩
  apply within_of_length_le full sound rfl
  simpa [Parser.initial, newRoom, MyBuf.Room.create] using small

/-- Once 1025 bytes have made the buffer grow, a chunk within its capacity overruns its block. -/
theorem not_roomFor_of_growth {first second : Bytes} {rest : List Bytes}
    (grows : first.length = 1025) (some_bytes : 0 < second.length)
    (fits : second.length ≤ 1023) : ¬RoomFor (first :: second :: rest) := by
  rintro ⟨-, takes, -⟩
  have kept := Frames.length_drain_le (Frames.machine.feed Parser.initial first)
  have fed : (Frames.machine.feed Parser.initial first).buffered.length = first.length := by
    simp [Frames.machine, Parser.initial]
  rw [fed, grows] at kept
  have grown : newRoom.insert .requested first.length = ⟨2048, 1025, 1025, 1025⟩ := by
    rw [grows]
    decide
  rw [grown] at takes
  refine MyBuf.Room.not_takes_of_overrun kept ?_ ?_ takes
  · show 1025 + second.length ≤ 2048
    omega
  · show 1025 < 1025 + second.length
    omega

/-- A receiver without cipher is, after chunks it has room for, where the parser is. -/
theorem decryptPackets_plain (vfd : ℤ) {chunks : List Bytes} (room : RoomFor chunks) :
    ∃ final, decryptPackets .requested vfd (create none) chunks =
        some (final,
          (Frames.machine.drain ⟨none, chunks.flatten⟩).2.map (Bag.mk vfd)) ∧
      final.Refines (Frames.machine.drain ⟨none, chunks.flatten⟩).1 ∧
      ∀ request ∈ requests vfd (create none) chunks, 0 ≤ request := by
  have within : Within .requested (create none).decryptBuf.room Parser.initial
      (decipherAll (create none).encryptClass chunks) := by
    rwa [encryptClass_create, decipherAll_none]
  have parsed := Incremental.deliver_eq_drain Frames.quiet_initial chunks
  have start : Frames.machine.feed Parser.initial chunks.flatten = ⟨none, chunks.flatten⟩ := rfl
  rcases decryptPackets_eq (create_refines none) vfd within with ⟨final, delivered, refines⟩
  rw [encryptClass_create, decipherAll_none, parsed, start] at delivered refines
  exact ⟨final, delivered, refines, (create_refines none).requests_nonneg vfd within⟩

/--
The receiver returns from every chunk.  The packets handed over with their lengths, a pending
length and the buffered bytes are the bytes sent, the receiver is waiting for more, and it has
never asked for a negative number of bytes.
-/
def Conserves (vfd : ℤ) (chunks : List Bytes) : Prop :=
  ∃ final bags, decryptPackets .requested vfd (create none) chunks = some (final, bags) ∧
    Frames.stream (bags.map Bag.contents) ++ final.pendingBytes = chunks.flatten ∧
    final.Maximal ∧ ∀ request ∈ requests vfd (create none) chunks, 0 ≤ request

/-- Two sequences of chunks lead to the same packets and the same pending input. -/
def SameOutcome (vfd : ℤ) (chunks others : List Bytes) : Prop :=
  ∃ final otherFinal bags,
    decryptPackets .requested vfd (create none) chunks = some (final, bags) ∧
    decryptPackets .requested vfd (create none) others = some (otherFinal, bags) ∧
    otherFinal.bagFlag = final.bagFlag ∧
    (final.bagFlag = true → otherFinal.bagLen = final.bagLen) ∧
    otherFinal.decryptBuf.getBufHead = final.decryptBuf.getBufHead

theorem conserves_of_roomFor (vfd : ℤ) {chunks : List Bytes} (room : RoomFor chunks) :
    Conserves vfd chunks := by
  rcases decryptPackets_plain vfd room with ⟨final, delivered, refines, nonneg⟩
  have contents : ((Frames.machine.drain ⟨none, chunks.flatten⟩).2.map (Bag.mk vfd)).map
      Bag.contents = (Frames.machine.drain ⟨none, chunks.flatten⟩).2 := by
    simp [Function.comp_def]
  refine ⟨final, _, delivered, ?_, ?_, nonneg⟩
  · rw [contents, refines.pendingBytes_eq, ← Frames.bytes_drain]
    rfl
  · exact refines.maximal (Incremental.quiet_drain _)

theorem sameOutcome_of_roomFor (vfd : ℤ) {chunks others : List Bytes} (room : RoomFor chunks)
    (same : others.flatten = chunks.flatten) (otherRoom : RoomFor others) :
    SameOutcome vfd chunks others := by
  rcases decryptPackets_plain vfd room with ⟨final, delivered, refines, -⟩
  rcases decryptPackets_plain vfd otherRoom with ⟨otherFinal, otherDelivered, otherRefines, -⟩
  rw [same] at otherDelivered otherRefines
  refine ⟨final, otherFinal, _, delivered, otherDelivered, ?_, ?_, ?_⟩
  · rw [otherRefines.bagFlag_eq, refines.bagFlag_eq]
  · intro flag
    rw [refines.bagFlag_eq, Option.isSome_iff_exists] at flag
    rcases flag with ⟨size, pending⟩
    rw [otherRefines.bagLen_eq size pending, refines.bagLen_eq size pending]
  · rw [otherRefines.stores.getBufHead_eq, refines.stores.getBufHead_eq]

/--
Whatever a receiver without cipher is sent, it conserves it exactly if its buffer has room
for every chunk; and then another cutting of the same bytes for whose chunks there is room
leads to the same packets and the same pending input.
-/
theorem conserves_iff_roomFor (vfd : ℤ) (chunks : List Bytes) :
    (Conserves vfd chunks ∧
        ∀ others, others.flatten = chunks.flatten → RoomFor others →
          SameOutcome vfd chunks others) ↔
      RoomFor chunks := by
  constructor
  · rintro ⟨⟨final, bags, delivered, -⟩, -⟩
    by_contra beyond
    have stuck := decryptPackets_eq_none (create_refines none) vfd
      (show ¬Within .requested newRoom Parser.initial (decipherAll none chunks) by
        rwa [decipherAll_none])
    rw [delivered] at stuck
    cases stuck
  · intro room
    exact ⟨conserves_of_roomFor vfd room,
      fun others same otherRoom => sameOutcome_of_roomFor vfd room same otherRoom⟩

/-- A packet of one byte, and a header with a length that no `int` can represent. -/
theorem conserves_hostile :
    Conserves 5 [[1, 0, 0], [0, 65, 255, 255, 255, 255, 66]] ∧
      SameOutcome 5 [[1, 0, 0], [0, 65, 255, 255, 255, 255, 66]]
        [[1, 0, 0, 0, 65, 255], [255, 255], [255, 66]] := by
  have room : RoomFor [[1, 0, 0], [0, 65, 255, 255, 255, 255, 66]] :=
    roomFor_of_length_le (by decide)
  have conserved := (conserves_iff_roomFor 5 [[1, 0, 0], [0, 65, 255, 255, 255, 255, 66]]).mpr room
  exact ⟨conserved.1, conserved.2 _ (by decide) (roomFor_of_length_le (by decide))⟩

/--
A chunk of 1025 bytes makes the buffer of 1024 bytes grow to 1025 with a recorded capacity
of 2048; the next chunk of 100 bytes is copied behind the end of the block.
-/
theorem not_conserves_after_growth :
    [List.replicate 1025 (7 : Byte), List.replicate 100 7].flatten.length < 2 ^ 30 ∧
      decryptPackets .requested 5 (create none)
        [List.replicate 1025 7, List.replicate 100 7] = none ∧
      ¬Conserves 5 [List.replicate 1025 7, List.replicate 100 7] := by
  have beyond : ¬RoomFor [List.replicate 1025 7, List.replicate 100 7] :=
    not_roomFor_of_growth List.length_replicate (by decide) (by simp)
  have stuck : decryptPackets .requested 5 (create none)
      [List.replicate 1025 7, List.replicate 100 7] = none := by
    apply decryptPackets_eq_none (create_refines none)
    rwa [encryptClass_create, decipherAll_none]
  refine ⟨by rw [List.flatten_cons, List.length_append, List.length_replicate]; decide, stuck, ?_⟩
  rintro ⟨final, bags, delivered, -⟩
  rw [stuck] at delivered
  cases delivered

end PacketDecrypt

end SimpleModule
