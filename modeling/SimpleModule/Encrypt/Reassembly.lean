import SimpleModule.Encrypt.PacketProcess

/-!
# Reassembly

A receiver obtains the sender's stream in chunks whose boundaries may fall anywhere.
This file describes the buffer space a cutting needs in terms of the packets sent.
`HasRoom` says that each chunk ends inside the block or makes it grow, where the bytes
kept from earlier chunks are those held back by incomplete frames.  `Fits` bounds these
bytes together with the chunk.  A bound of 1024 bytes, the capacity of a new receiver,
is enough for `HasRoom`; if a block that grows had the recorded capacity, the limit of
the doubling loop would be enough.

`delivers_iff` is the description of a delivery by the frame parser on which the
encrypted sessions build as well.
-/

namespace SimpleModule

open Octets

/-- The packets for which no length computed by `EncryptPacket` or `Encrypt` overflows an `int`. -/
def Sendable (packet : Bytes) : Prop := packet.length + 8 < 2 ^ 31

namespace PacketDecrypt

open Frames (Parser)
open MyBuf (Heap Room)

/-- The chunks make the receiver deliver exactly these packets, each once and in order. -/
def Delivers (vfd : ℤ) (decoder : PacketDecrypt) (chunks packets : List Bytes) : Prop :=
  ∃ final, decryptPackets .requested vfd decoder chunks = some (final, packets.map (Bag.mk vfd))

/-- The room in the buffer of a new receiver. -/
def newRoom : Room := Room.create 1024

theorem room_create (encryptClass : Option SimpleXOR) :
    (create encryptClass).decryptBuf.room = newRoom := rfl

/--
The buffer has room for chunks of the given lengths that follow the first `received` bytes
of the packets' frames.
-/
def HasRoom (heap : Heap) (packets : List Bytes) :
    Room → (received : ℕ) → (sizes : List ℕ) → Prop
  | _, _, [] => True
  | room, received, size :: rest =>
      room.Takes size ∧
        HasRoom heap packets
          ((room.insert heap size).keep (Frames.heldBack packets (received + size)))
          (received + size) rest

instance decidableHasRoom (heap : Heap) (packets : List Bytes) :
    (room : Room) → (received : ℕ) → (sizes : List ℕ) →
      Decidable (HasRoom heap packets room received sizes)
  | _, _, [] => isTrue trivial
  | room, received, size :: rest =>
      have := decidableHasRoom heap packets
        ((room.insert heap size).keep (Frames.heldBack packets (received + size)))
        (received + size) rest
      inferInstanceAs (Decidable (_ ∧ _))

theorem HasRoom.of_append {heap : Heap} {packets : List Bytes} {room : Room} {received : ℕ}
    {first second : List ℕ} (hasRoom : HasRoom heap packets room received (first ++ second)) :
    HasRoom heap packets room received first := by
  induction first generalizing room received with
  | nil => trivial
  | cons size rest ih => exact ⟨hasRoom.1, ih hasRoom.2⟩

/--
The bytes held back and the next chunk are never more than the limit, for chunks of the
given lengths that follow the first `received` bytes of the packets' frames.
-/
def Fits (limit : ℕ) (packets : List Bytes) : (received : ℕ) → (sizes : List ℕ) → Prop
  | _, [] => True
  | received, size :: rest =>
      Frames.heldBack packets received + size ≤ limit ∧
        Fits limit packets (received + size) rest

instance decidableFits (limit : ℕ) (packets : List Bytes) :
    (received : ℕ) → (sizes : List ℕ) → Decidable (Fits limit packets received sizes)
  | _, [] => isTrue trivial
  | received, size :: rest =>
      have := decidableFits limit packets (received + size) rest
      inferInstanceAs (Decidable (_ ∧ _))

section Space

variable {heap : Heap} {packets : List Bytes} {room : Room} {received : ℕ} {sizes : List ℕ}

/-- Short chunks fit the buffer beside a packet, however many there are. -/
theorem fits_of_short {limit longest chunk : ℕ} (header : 3 ≤ longest)
    (space : longest + chunk ≤ limit) (bounded : ∀ packet ∈ packets, packet.length ≤ longest)
    (short : ∀ size ∈ sizes, size ≤ chunk)
    (available : received + sizes.sum ≤ Frames.weight packets) :
    Fits limit packets received sizes := by
  induction sizes generalizing received with
  | nil => trivial
  | cons size rest ih =>
      rw [List.sum_cons] at available
      have kept : Frames.heldBack packets received ≤ longest :=
        Frames.heldBack_le_of_bounded header bounded (by omega)
      have first := short size List.mem_cons_self
      refine ⟨by omega, ih ?_ (by omega)⟩
      intro other member
      exact short other (List.mem_cons_of_mem _ member)

/-- What is kept after a chunk was kept before it or belongs to it. -/
theorem sound_after (sound : room.Sound) (kept : room.kept = Frames.heldBack packets received)
    {size : ℕ} (takes : room.Takes size) :
    ((room.insert heap size).keep (Frames.heldBack packets (received + size))).Sound := by
  apply (sound.insert takes heap).keep
  rw [Room.kept_insert, kept]
  exact Frames.heldBack_add_le packets received size

/-- Chunks that never make the buffer grow have room. -/
theorem hasRoom_of_fits (full : room.Full) (sound : room.Sound)
    (kept : room.kept = Frames.heldBack packets received)
    (fits : Fits room.bufSize packets received sizes) :
    HasRoom heap packets room received sizes := by
  induction sizes generalizing room received with
  | nil => trivial
  | cons size rest ih =>
      rcases fits with ⟨here, later⟩
      rw [← kept] at here
      have takes : room.Takes size :=
        (full.takes_iff sound).mpr (here.trans sound.bufSize_le)
      rcases full.insert_of_fits heap here with ⟨nextFull, sameSize⟩
      refine ⟨takes, ih nextFull (sound_after sound kept takes) rfl ?_⟩
      show Fits (room.insert heap size).bufSize packets (received + size) rest
      rwa [sameSize]

/-- In a block as large as recorded there is room up to the limit of the doubling loop. -/
theorem hasRoom_recorded (full : room.Full) (sound : room.Sound)
    (kept : room.kept = Frames.heldBack packets received)
    (fits : Fits MyBuf.bufferLimit packets received sizes) :
    HasRoom .recorded packets room received sizes := by
  induction sizes generalizing room received with
  | nil => trivial
  | cons size rest ih =>
      rcases fits with ⟨here, later⟩
      rw [← kept] at here
      have takes : room.Takes size := (full.takes_iff sound).mpr here
      exact ⟨takes, ih full.insert_recorded (sound_after sound kept takes) rfl later⟩

/-- The facts about the room of a new receiver that the lemmas above need. -/
theorem newRoom_facts (packets : List Bytes) :
    newRoom.Full ∧ newRoom.Sound ∧ newRoom.kept = Frames.heldBack packets 0 := by
  refine ⟨rfl, Room.sound_create (by decide), ?_⟩
  exact (Nat.eq_zero_of_le_zero (Frames.heldBack_le packets 0)).symm

/-- A new receiver has room for short chunks, if there is no packet that is too long for them. -/
theorem hasRoom_of_short {longest chunk : ℕ} (header : 3 ≤ longest)
    (space : longest + chunk ≤ 1024) (bounded : ∀ packet ∈ packets, packet.length ≤ longest)
    (short : ∀ size ∈ sizes, size ≤ chunk) (available : sizes.sum ≤ Frames.weight packets) :
    HasRoom heap packets newRoom 0 sizes := by
  rcases newRoom_facts packets with ⟨full, sound, kept⟩
  refine hasRoom_of_fits full sound kept (fits_of_short header space bounded short ?_)
  rwa [Nat.zero_add]

theorem hasRoom_of_sum_eq_zero (sound : room.Sound)
    (kept : room.kept = Frames.heldBack packets received) (nothing : sizes.sum = 0) :
    HasRoom heap packets room received sizes := by
  induction sizes with
  | nil => trivial
  | cons size rest ih =>
      rw [List.sum_cons] at nothing
      obtain rfl : size = 0 := by omega
      refine ⟨Room.takes_zero sound, ?_⟩
      rw [Room.insert_zero sound, Nat.add_zero, ← kept]
      exact ih (by omega)

/-- A buffer that can only grow with the last byte has room for all of them. -/
theorem hasRoom_of_sum_le (full : room.Full) (sound : room.Sound)
    (kept : room.kept = Frames.heldBack packets received)
    (limit : room.bufSize < MyBuf.bufferLimit)
    (small : received + sizes.sum ≤ room.bufSize + 1) :
    HasRoom heap packets room received sizes := by
  induction sizes generalizing room received with
  | nil => trivial
  | cons size rest ih =>
      rw [List.sum_cons] at small
      have fewer := Frames.heldBack_le packets received
      have takes : room.Takes size := (full.takes_iff sound).mpr (by omega)
      refine ⟨takes, ?_⟩
      rcases le_or_gt (room.kept + size) room.bufSize with fits | exceeds
      · rcases full.insert_of_fits heap fits with ⟨nextFull, sameSize⟩
        refine ih nextFull (sound_after sound kept takes) rfl ?_ ?_
        · show (room.insert heap size).bufSize < _
          omega
        · show _ ≤ (room.insert heap size).bufSize + 1
          omega
      · exact hasRoom_of_sum_eq_zero (sound_after sound kept takes) rfl (by omega)

/-- Up to 1025 bytes, a new receiver has room whatever the cutting. -/
theorem hasRoom_of_sum_le_newRoom (small : sizes.sum ≤ 1025) :
    HasRoom heap packets newRoom 0 sizes := by
  rcases newRoom_facts packets with ⟨full, sound, kept⟩
  apply hasRoom_of_sum_le full sound kept (by decide)
  rw [Nat.zero_add]
  exact small

/-- After 1025 bytes at once the next byte is copied behind the end of the block. -/
theorem not_hasRoom_of_growth : ¬HasRoom .requested packets newRoom 0 (1025 :: 1 :: sizes) := by
  rintro ⟨-, takes, -⟩
  have grown : newRoom.insert .requested 1025 = ⟨2048, 1025, 1025, 1025⟩ := by decide
  rw [grown] at takes
  have fewer : Frames.heldBack packets (0 + 1025) ≤ 1025 := Frames.heldBack_le packets (0 + 1025)
  exact Room.not_takes_of_overrun fewer (show 1025 + 1 ≤ 2048 by decide)
    (show 1025 < 1025 + 1 by decide) takes

end Space

theorem bag_mk_injective (vfd : ℤ) : Function.Injective (Bag.mk vfd) := by
  intro left right same
  injection same

theorem delivers_iff (vfd : ℤ) (encryptClass : Option SimpleXOR) (chunks packets : List Bytes) :
    Delivers vfd (create encryptClass) chunks packets ↔
      Within .requested newRoom Parser.initial (decipherAll encryptClass chunks) ∧
        (Frames.machine.drain ⟨none, (decipherAll encryptClass chunks).flatten⟩).2 = packets := by
  have parsed : Frames.machine.deliver Parser.initial (decipherAll encryptClass chunks) =
      Frames.machine.drain ⟨none, (decipherAll encryptClass chunks).flatten⟩ :=
    Incremental.deliver_eq_drain Frames.quiet_initial _
  constructor
  · rintro ⟨final, delivered⟩
    by_cases within :
      Within .requested newRoom Parser.initial (decipherAll encryptClass chunks)
    · rcases decryptPackets_eq (create_refines encryptClass) vfd within with ⟨other, expected, -⟩
      rw [delivered, Option.some.injEq, Prod.mk.injEq] at expected
      refine ⟨within, ?_⟩
      rw [← parsed]
      exact ((bag_mk_injective vfd).list_map expected.2).symm
    · have stuck := decryptPackets_eq_none (create_refines encryptClass) vfd within
      rw [delivered] at stuck
      contradiction
  · rintro ⟨within, found⟩
    rcases decryptPackets_eq (create_refines encryptClass) vfd within with ⟨final, delivered, -⟩
    refine ⟨final, ?_⟩
    rw [← found, ← parsed]
    exact delivered

theorem bounded_of_sendable {packets : List Bytes}
    (sendable : ∀ packet ∈ packets, Sendable packet) :
    ∀ packet ∈ packets, packet.length < 256 ^ 4 := by
  intro packet member
  have := sendable packet member
  simp only [Sendable] at this
  omega

/-- The parser that continues with the next chunk has seen that much more of the stream. -/
theorem drain_feed_take {packets : List Bytes} {received : ℕ} {plain later : Bytes}
    (rest : plain ++ later <+: (Frames.stream packets).drop received) :
    (Frames.machine.drain (Frames.machine.feed
        (Frames.machine.drain ⟨none, (Frames.stream packets).take received⟩).1 plain)).1 =
      (Frames.machine.drain ⟨none, (Frames.stream packets).take (received + plain.length)⟩).1 := by
  have taken : (Frames.stream packets).take (received + plain.length) =
      (Frames.stream packets).take received ++ plain := by
    rw [List.take_add]
    rcases rest with ⟨unseen, whole⟩
    rw [← whole, List.append_assoc, List.take_left]
  rw [taken]
  exact (congrArg Prod.fst (Incremental.drain_feed _ plain)).symm

/-- What the parser keeps along a cut stream is what the packets held back. -/
theorem within_iff_hasRoom {heap : Heap} {packets : List Bytes}
    (bounded : ∀ packet ∈ packets, packet.length < 256 ^ 4) {room : Room} {received : ℕ}
    {plains : List Bytes} (available : received ≤ Frames.weight packets)
    (rest : plains.flatten <+: (Frames.stream packets).drop received) :
    Within heap room (Frames.machine.drain ⟨none, (Frames.stream packets).take received⟩).1
        plains ↔
      HasRoom heap packets room received (plains.map List.length) := by
  induction plains generalizing room received with
  | nil => exact Iff.rfl
  | cons plain later ih =>
      rw [List.flatten_cons] at rest
      have lengths := rest.length_le
      simp only [List.length_append, List.length_drop, Frames.length_stream] at lengths
      have laterRest :
          later.flatten <+: (Frames.stream packets).drop (received + plain.length) := by
        rcases rest with ⟨unseen, whole⟩
        refine ⟨unseen, ?_⟩
        rw [← List.drop_drop, ← whole, List.append_assoc, List.drop_left]
      have after : received + plain.length ≤ Frames.weight packets := by omega
      simp only [Within, HasRoom, List.map_cons, drain_feed_take rest,
        (Frames.drain_take bounded after).1]
      rw [ih after laterRest]

/-- Deciphered chunks from the beginning of a stream make the receiver deliver what is complete. -/
theorem decryptPackets_prefix {heap : Heap} {packets : List Bytes}
    (bounded : ∀ packet ∈ packets, packet.length < 256 ^ 4) (vfd : ℤ)
    {encryptClass : Option SimpleXOR} {chunks : List Bytes}
    (plain : (decipherAll encryptClass chunks).flatten <+: Frames.stream packets)
    (hasRoom : HasRoom heap packets newRoom 0
      ((decipherAll encryptClass chunks).map List.length)) :
    ∃ final, decryptPackets heap vfd (create encryptClass) chunks =
      some (final, (Frames.complete packets
        (decipherAll encryptClass chunks).flatten.length).map (Bag.mk vfd)) := by
  have within : Within heap newRoom Parser.initial (decipherAll encryptClass chunks) :=
    (within_iff_hasRoom bounded (Nat.zero_le _) plain).mpr hasRoom
  have available : (decipherAll encryptClass chunks).flatten.length ≤ Frames.weight packets := by
    simpa using plain.length_le
  have parsed : (Frames.machine.deliver Parser.initial (decipherAll encryptClass chunks)).2 =
      Frames.complete packets (decipherAll encryptClass chunks).flatten.length := by
    rw [Incremental.deliver_eq_drain Frames.quiet_initial,
      ← (Frames.drain_take bounded available).2,
      ← List.prefix_iff_eq_take.mp plain]
    rfl
  rcases decryptPackets_eq (create_refines encryptClass) vfd within with ⟨final, delivered, -⟩
  simp only [encryptClass_create, parsed] at delivered
  exact ⟨final, delivered⟩

theorem decryptPackets_prefix_none {heap : Heap} {packets : List Bytes}
    (bounded : ∀ packet ∈ packets, packet.length < 256 ^ 4) (vfd : ℤ)
    {encryptClass : Option SimpleXOR} {chunks : List Bytes}
    (plain : (decipherAll encryptClass chunks).flatten <+: Frames.stream packets)
    (beyond : ¬HasRoom heap packets newRoom 0
      ((decipherAll encryptClass chunks).map List.length)) :
    decryptPackets heap vfd (create encryptClass) chunks = none := by
  apply decryptPackets_eq_none (create_refines encryptClass)
  intro within
  exact beyond ((within_iff_hasRoom bounded (Nat.zero_le _) plain).mp within)

theorem decryptPackets_stream {heap : Heap} {packets : List Bytes}
    (sendable : ∀ packet ∈ packets, Sendable packet) (vfd : ℤ)
    {encryptClass : Option SimpleXOR} {chunks : List Bytes}
    (plain : (decipherAll encryptClass chunks).flatten = Frames.stream packets)
    (hasRoom : HasRoom heap packets newRoom 0
      ((decipherAll encryptClass chunks).map List.length)) :
    ∃ final, decryptPackets heap vfd (create encryptClass) chunks =
        some (final, packets.map (Bag.mk vfd)) ∧
      final.Refines Parser.initial := by
  have bounded := bounded_of_sendable sendable
  have within : Within heap newRoom Parser.initial (decipherAll encryptClass chunks) :=
    (within_iff_hasRoom bounded (Nat.zero_le _) (plain ▸ List.prefix_rfl)).mpr hasRoom
  have parsed : Frames.machine.deliver Parser.initial (decipherAll encryptClass chunks) =
      (Parser.initial, packets) := by
    rw [Incremental.deliver_eq_drain Frames.quiet_initial, plain]
    exact Frames.drain_whole_stream bounded
  rcases decryptPackets_eq (create_refines encryptClass) vfd within with
    ⟨final, delivered, refines⟩
  simp only [encryptClass_create, parsed] at delivered refines
  exact ⟨final, delivered, refines⟩

/-- Room in the buffer is also necessary. -/
theorem delivers_iff_hasRoom {packets : List Bytes}
    (sendable : ∀ packet ∈ packets, Sendable packet) (vfd : ℤ)
    {encryptClass : Option SimpleXOR} {chunks : List Bytes}
    (plain : (decipherAll encryptClass chunks).flatten = Frames.stream packets) :
    Delivers vfd (create encryptClass) chunks packets ↔
      HasRoom .requested packets newRoom 0
        ((decipherAll encryptClass chunks).map List.length) := by
  constructor
  · intro delivers
    have within := ((delivers_iff vfd encryptClass chunks packets).mp delivers).1
    exact (within_iff_hasRoom (bounded_of_sendable sendable) (Nat.zero_le _)
      (plain ▸ List.prefix_rfl)).mp within
  · intro hasRoom
    rcases decryptPackets_stream sendable vfd plain hasRoom with ⟨final, delivered, -⟩
    exact ⟨final, delivered⟩

/--
Without a cipher, and in blocks as large as recorded, every cutting of the packets' stream
that keeps no more than the limit makes the receiver deliver the packets and return to an
empty buffer without a header.
-/
theorem decryptPackets_reassembles (random : Int32) (vfd : ℤ) {packets chunks : List Bytes}
    (sendable : ∀ packet ∈ packets, Sendable packet)
    (cut : chunks.flatten = (PacketEncrypt.encryptPackets random ⟨none⟩ packets).2.flatten)
    (fits : Fits MyBuf.bufferLimit packets 0 (chunks.map List.length)) :
    ∃ final, decryptPackets .recorded vfd (create none) chunks =
        some (final, packets.map (Bag.mk vfd)) ∧
      final.bagFlag = false ∧ final.decryptBuf.getBufLen = 0 := by
  rw [PacketEncrypt.encryptPackets_plain] at cut
  rw [← decipherAll_none chunks] at cut fits
  rcases newRoom_facts packets with ⟨full, sound, kept⟩
  rcases decryptPackets_stream sendable vfd cut (hasRoom_recorded full sound kept fits) with
    ⟨final, delivered, refines⟩
  refine ⟨final, delivered, refines.bagFlag_eq, ?_⟩
  exact refines.stores.getBufLen_eq

/-- An empty packet and one of two bytes, cut inside the second header. -/
theorem decryptPackets_reassembles_two_packets :
    ∃ final, decryptPackets .recorded 7 (create none) [[0, 0, 0, 0, 2], [0, 0, 0, 65], [66]] =
        some (final, [[], [65, 66]].map (Bag.mk 7)) ∧
      final.bagFlag = false ∧ final.decryptBuf.getBufLen = 0 := by
  have sendable : ∀ packet ∈ ([[], [65, 66]] : List Bytes), Sendable packet := by
    simp [Sendable]
  exact decryptPackets_reassembles 0 7 sendable (by decide) (by decide)

end PacketDecrypt

end SimpleModule
