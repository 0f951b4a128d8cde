import SimpleModule.Lib.Frames
import SimpleModule.Encrypt.Room
import SimpleModule.Encrypt.SimpleXOR

/-!
# Packet encryption and reassembly

`clsPacketEncrypt` puts a packet behind its length and passes the result to the
cipher, if there is one.  `clsPacketDecrypt` is its receiver: it decrypts a chunk,
appends it to its buffer and then cuts complete packets off the buffer.

The loop of `BagProcess` is `Incremental.loop` around `bagStep`; out of fuel it gives
no result, so every statement about what it returns includes that it ends.
Allocations succeed, and `heap` says how large a reallocated block is.  A result of
`none` is a call that does not return.

`Refines` relates a receiver to the frame parser of `Frames`, and `decryptPackets_eq`
is the resulting description of a whole delivery: the receiver does what the parser
does with the deciphered chunks, as long as its buffer has room for each of them.
-/

namespace SimpleModule

open Octets

/-- A packet handed to the packet processing interface, with the connection it came from. -/
structure Bag where
  vfd : ℤ
  contents : Bytes
  deriving DecidableEq, Repr

/-- The class `clsPacketEncrypt`; the cipher is absent for a null pointer. -/
structure PacketEncrypt where
  encryptClass : Option SimpleXOR

namespace PacketEncrypt

/-- `clsPacketEncrypt::EncryptPacket`, which does not use its `Vfd`. -/
def encryptPacket (encoder : PacketEncrypt) (random : Int32) (buf : Bytes) :
    PacketEncrypt × Bytes :=
  let tmp := le 4 buf.length ++ buf
  match encoder.encryptClass with
  | some cipher => (⟨some (cipher.encrypt random tmp).1⟩, (cipher.encrypt random tmp).2)
  | none => (encoder, tmp)

/-- Successive packets; only the first call can draw a random number. -/
def encryptPackets (random : Int32) : PacketEncrypt → List Bytes → PacketEncrypt × List Bytes
  | encoder, [] => (encoder, [])
  | encoder, buf :: rest =>
      let encrypted := encoder.encryptPacket random buf
      ((encryptPackets random encrypted.1 rest).1,
        encrypted.2 :: (encryptPackets random encrypted.1 rest).2)

end PacketEncrypt

/-- The class `clsPacketDecrypt`; `_BagLen` is only read while `_BagFlag` is set. -/
structure PacketDecrypt where
  decryptBuf : MyBuf
  bagLen : ℕ
  bagFlag : Bool
  encryptClass : Option SimpleXOR

namespace PacketDecrypt

/-- The constructor, with the default size of `MyBuf`. -/
def create (encryptClass : Option SimpleXOR) : PacketDecrypt where
  decryptBuf := MyBuf.create 1024
  bagLen := 0
  bagFlag := false
  encryptClass := encryptClass

@[simp]
theorem encryptClass_create (encryptClass : Option SimpleXOR) :
    (create encryptClass).encryptClass = encryptClass := rfl

/-- One iteration of the loop in `BagProcess`; `none` is its `return`. -/
def bagStep (decoder : PacketDecrypt) : Option (PacketDecrypt × List Bytes) :=
  if !decoder.bagFlag then
    let head := decoder.decryptBuf.getBufHead
    if head.2 < 4 then none
    else
      some ({ decoder with
          bagLen := ofLe (head.1.take 4)
          bagFlag := true
          decryptBuf := (decoder.decryptBuf.getBufData 4).1 }, [])
  else
    if unsigned32 decoder.decryptBuf.getBufLen < decoder.bagLen then none
    else
      let taken := decoder.decryptBuf.getBufData (int32 decoder.bagLen)
      some ({ decoder with decryptBuf := taken.1, bagFlag := false }, [taken.2.1])

/-- `clsPacketDecrypt::BagProcess`. -/
def bagProcess (decoder : PacketDecrypt) : Option (PacketDecrypt × List Bytes) :=
  Incremental.loop bagStep (2 * decoder.decryptBuf.getBufLen.toNat + 2) decoder

/-- The decryption at the start of `DecryptPacket`. -/
def decipher (encryptClass : Option SimpleXOR) (buf : Bytes) : Option SimpleXOR × Bytes :=
  match encryptClass with
  | some cipher => (some (cipher.decrypt buf).1, (cipher.decrypt buf).2)
  | none => (none, buf)

/-- The insertion in `DecryptPacket`, made only if there is something to insert. -/
def insertDecrypted (heap : MyBuf.Heap) (decryptBuf : MyBuf) (plain : Bytes) : Option MyBuf :=
  if plain.length > 0 then (decryptBuf.insertData heap plain true).map MyBuf.Inserted.buffer
  else some decryptBuf

/-- `clsPacketDecrypt::DecryptPacket`. -/
def decryptPacket (heap : MyBuf.Heap) (decoder : PacketDecrypt) (vfd : ℤ) (buf : Bytes) :
    Option (PacketDecrypt × List Bag) := do
  let deciphered := decipher decoder.encryptClass buf
  let decryptBuf ← insertDecrypted heap decoder.decryptBuf deciphered.2
  let processed ←
    { decoder with decryptBuf := decryptBuf, encryptClass := deciphered.1 }.bagProcess
  return (processed.1, processed.2.map (Bag.mk vfd))

/-- Successive chunks of one connection. -/
def decryptPackets (heap : MyBuf.Heap) (vfd : ℤ) :
    PacketDecrypt → List Bytes → Option (PacketDecrypt × List Bag)
  | decoder, [] => some (decoder, [])
  | decoder, chunk :: rest => do
      let first ← decoder.decryptPacket heap vfd chunk
      let later ← decryptPackets heap vfd first.1 rest
      return (later.1, first.2 ++ later.2)

theorem decryptPackets_append {heap : MyBuf.Heap} {vfd : ℤ} {decoder : PacketDecrypt}
    {first : List Bytes} {front : PacketDecrypt × List Bag}
    (decrypted : decryptPackets heap vfd decoder first = some front) (second : List Bytes) :
    decryptPackets heap vfd decoder (first ++ second) =
      (decryptPackets heap vfd front.1 second).map fun back => (back.1, front.2 ++ back.2) := by
  induction first generalizing decoder front with
  | nil =>
      cases decrypted
      simp
  | cons chunk rest ih =>
      simp only [decryptPackets, bind, pure, Option.bind_eq_some_iff, Option.some.injEq]
        at decrypted
      rcases decrypted with ⟨head, returned, middle, tail, rfl⟩
      simp only [List.cons_append, decryptPackets, returned, ih tail, bind, pure,
        Option.bind_some, Option.bind_map]
      cases decryptPackets heap vfd middle.1 second with
      | none => rfl
      | some back => simp

end PacketDecrypt

/-! ## The sender's stream -/

namespace PacketEncrypt

/-- What the cipher gets is the frame of the packet. -/
theorem encryptPacket_some (cipher : SimpleXOR) (random : Int32) (packet : Bytes) :
    encryptPacket ⟨some cipher⟩ random packet =
      (⟨some (cipher.encrypt random (Frames.frame packet)).1⟩,
        (cipher.encrypt random (Frames.frame packet)).2) := rfl

theorem encryptPackets_plain (random : Int32) (packets : List Bytes) :
    (encryptPackets random ⟨none⟩ packets).2.flatten = Frames.stream packets := by
  induction packets with
  | nil => rfl
  | cons packet rest ih =>
      simp only [encryptPackets, encryptPacket, List.flatten_cons, ih]
      rfl

theorem encryptPackets_append (random : Int32) (encoder : PacketEncrypt)
    (first second : List Bytes) :
    encryptPackets random encoder (first ++ second) =
      ((encryptPackets random (encryptPackets random encoder first).1 second).1,
        (encryptPackets random encoder first).2 ++
          (encryptPackets random (encryptPackets random encoder first).1 second).2) := by
  induction first generalizing encoder with
  | nil => rfl
  | cons packet rest ih => simp [encryptPackets, ih]

theorem encryptPackets_seeded (random : Int32) {cipher : SimpleXOR}
    (seeded : cipher.seedFlag = true) (packets : List Bytes) :
    (encryptPackets random ⟨some cipher⟩ packets).2.flatten =
      (cipher.xmakes (Frames.stream packets)).2 := by
  induction packets generalizing cipher with
  | nil => rfl
  | cons packet rest ih =>
      simp only [encryptPackets, encryptPacket_some, SimpleXOR.encrypt_seeded seeded,
        List.flatten_cons, Frames.stream_cons, SimpleXOR.xmakes_append]
      rw [ih (by simpa using seeded)]

theorem encryptPacket_seedFlag (random : Int32) (cipher : SimpleXOR) (packet : Bytes) :
    ∃ next, (encryptPacket ⟨some cipher⟩ random packet).1 = ⟨some next⟩ ∧ next.seedFlag = true := by
  refine ⟨_, rfl, ?_⟩
  cases seeded : cipher.seedFlag <;> simp [SimpleXOR.encrypt, seeded]

theorem encryptPackets_seedFlag (random : Int32) (cipher : SimpleXOR) {packets : List Bytes}
    (nonempty : packets ≠ []) :
    ∃ next, (encryptPackets random ⟨some cipher⟩ packets).1 = ⟨some next⟩ ∧
      next.seedFlag = true := by
  induction packets generalizing cipher with
  | nil => exact absurd rfl nonempty
  | cons packet rest ih =>
      rcases encryptPacket_seedFlag random cipher packet with ⟨next, encrypted, seeded⟩
      simp only [encryptPackets, encrypted]
      by_cases last : rest = []
      · exact ⟨next, by simp [last, encryptPackets], seeded⟩
      · exact ih next last

theorem length_encryptPacket_seeded (random : Int32) {cipher : SimpleXOR}
    (seeded : cipher.seedFlag = true) (packet : Bytes) :
    (encryptPacket ⟨some cipher⟩ random packet).2.length = 4 + packet.length := by
  simp [encryptPacket, SimpleXOR.encrypt_seeded seeded]

/-- With a fresh cipher the stream is the seed and the masked frames. -/
theorem encryptPackets_fresh (random : Int32) {packets : List Bytes} (nonempty : packets ≠ []) :
    (encryptPackets random ⟨some SimpleXOR.create⟩ packets).2.flatten =
      SimpleXOR.seedBytes random ++
        ((SimpleXOR.setSeed random).xmakes (Frames.stream packets)).2 := by
  rcases packets with _ | ⟨packet, rest⟩
  · exact absurd rfl nonempty
  · simp only [encryptPackets, encryptPacket_some,
      SimpleXOR.encrypt_first SimpleXOR.seedFlag_create, List.flatten_cons, Frames.stream_cons,
      SimpleXOR.xmakes_append, List.append_assoc]
    rw [encryptPackets_seeded random (by simp)]

end PacketEncrypt

/-! ## Refinement of the frame parser -/

namespace PacketDecrypt

open Frames (Parser)

/-- The receiver's buffer and pending length are those of the parser. -/
structure Refines (decoder : PacketDecrypt) (parser : Parser) : Prop where
  stores : decoder.decryptBuf.Stores parser.buffered
  bagFlag_eq : decoder.bagFlag = parser.pending.isSome
  bagLen_eq : ∀ size, parser.pending = some size → decoder.bagLen = size

theorem create_refines (encryptClass : Option SimpleXOR) :
    (create encryptClass).Refines Parser.initial where
  stores := MyBuf.create_stores (show 10 ≤ 30 by decide)
  bagFlag_eq := rfl
  bagLen_eq := by simp [Parser.initial]

namespace Refines

variable {decoder : PacketDecrypt} {parser : Parser}

theorem length_lt (refines : decoder.Refines parser) : parser.buffered.length < 2 ^ 31 := by
  have := refines.stores.length_le_limit
  simp only [MyBuf.bufferLimit] at this
  omega

theorem bagStep_eq_none (refines : decoder.Refines parser) (quiet : parser.step = none) :
    decoder.bagStep = none := by
  have short := refines.length_lt
  cases pending : parser.pending with
  | none =>
      have flag : decoder.bagFlag = false := by simpa [pending] using refines.bagFlag_eq
      have few : parser.buffered.length < 4 := by
        by_contra enough
        simp [Parser.step_header pending (not_lt.mp enough)] at quiet
      simp only [bagStep, flag, refines.stores.getBufHead_eq]
      rw [if_pos (by decide), if_pos (by omega)]
  | some size =>
      have flag : decoder.bagFlag = true := by simpa [pending] using refines.bagFlag_eq
      have few : parser.buffered.length < size := by
        by_contra enough
        simp [Parser.step_body pending (not_lt.mp enough)] at quiet
      simp only [bagStep, flag, refines.stores.getBufLen_eq, refines.bagLen_eq size pending]
      rw [if_neg (by decide), if_pos (by simp only [unsigned32]; omega)]

/-- An iteration of the receiver's loop is a step of the parser; it only moves `_Head`. -/
theorem bagStep_eq_some (refines : decoder.Refines parser) {parserNext : Parser}
    {bodies : List Bytes} (stepped : parser.step = some (parserNext, bodies)) :
    ∃ next, decoder.bagStep = some (next, bodies) ∧ next.Refines parserNext ∧
      next.encryptClass = decoder.encryptClass ∧
      next.decryptBuf.room = decoder.decryptBuf.room.keep parserNext.buffered.length := by
  have short := refines.length_lt
  rcases Parser.step_cases stepped with
    ⟨pending, enough, rfl, rfl⟩ | ⟨size, pending, enough, rfl, rfl⟩
  · have flag : decoder.bagFlag = false := by simpa [pending] using refines.bagFlag_eq
    rcases refines.stores.getBufData_of_le enough with ⟨buffer, taken, nextStores, room⟩
    refine ⟨⟨buffer, ofLe (parser.buffered.take 4), true, decoder.encryptClass⟩, ?_, ?_, rfl,
      room⟩
    · have taken : decoder.decryptBuf.getBufData 4 = (buffer, parser.buffered.take 4, 4) := taken
      simp only [bagStep, flag, refines.stores.getBufHead_eq, taken]
      rw [if_pos (by decide), if_neg (by omega)]
    · exact ⟨nextStores, rfl, by simp⟩
  · have flag : decoder.bagFlag = true := by simpa [pending] using refines.bagFlag_eq
    have signed : int32 size = size := int32_eq_self (by simp only [IsInt32]; omega)
    rcases refines.stores.getBufData_of_le enough with ⟨buffer, taken, nextStores, room⟩
    refine ⟨⟨buffer, decoder.bagLen, false, decoder.encryptClass⟩, ?_, ?_, rfl, room⟩
    · simp only [bagStep, flag, refines.stores.getBufLen_eq, refines.bagLen_eq size pending,
        signed, taken]
      rw [if_neg (by decide), if_neg (by simp only [unsigned32]; omega)]
    · exact ⟨nextStores, rfl, by simp⟩

/-- `BagProcess` ends and hands over what the parser delivers. -/
theorem bagProcess_eq (refines : decoder.Refines parser) :
    ∃ final, decoder.bagProcess = some (final, (Frames.machine.drain parser).2) ∧
      final.Refines (Frames.machine.drain parser).1 ∧
      final.encryptClass = decoder.encryptClass ∧
      final.decryptBuf.room =
        decoder.decryptBuf.room.keep (Frames.machine.drain parser).1.buffered.length := by
  have enough : Frames.machine.size parser < 2 * decoder.decryptBuf.getBufLen.toNat + 2 := by
    rw [refines.stores.getBufLen_eq]
    simp only [Frames.machine, Int.toNat_natCast]
    split <;> omega
  have start : decoder.decryptBuf.room =
      decoder.decryptBuf.room.keep parser.buffered.length := by
    rw [← refines.stores.room_kept]
    rfl
  refine Incremental.loop_simulates
    (fun (state : PacketDecrypt) abstract =>
      state.Refines abstract ∧ state.encryptClass = decoder.encryptClass ∧
        state.decryptBuf.room = decoder.decryptBuf.room.keep abstract.buffered.length)
    ?_ ?_ ⟨refines, rfl, start⟩ enough
  · intro state abstract related quiet
    exact related.1.bagStep_eq_none quiet
  · intro state abstract abstractNext outputs related stepped
    rcases related with ⟨stateRefines, sameClass, sameRoom⟩
    rcases stateRefines.bagStep_eq_some stepped with ⟨next, moved, nextRefines, kept, room⟩
    refine ⟨next, moved, nextRefines, kept.trans sameClass, ?_⟩
    rw [room, sameRoom]
    rfl

theorem insertDecrypted_eq (refines : decoder.Refines parser) (heap : MyBuf.Heap)
    (encryptClass : Option SimpleXOR) {plain : Bytes}
    (takes : decoder.decryptBuf.room.Takes plain.length) :
    ∃ buffer, insertDecrypted heap decoder.decryptBuf plain = some buffer ∧
      Refines { decoder with decryptBuf := buffer, encryptClass := encryptClass }
        (Frames.machine.feed parser plain) ∧
      buffer.room = decoder.decryptBuf.room.insert heap plain.length := by
  by_cases some_plain : plain.length > 0
  · rcases refines.stores.insertData_eq heap takes with ⟨result, inserted, stores, -, room⟩
    refine ⟨result.buffer, by simp [insertDecrypted, some_plain, inserted], ?_, room⟩
    exact ⟨stores, refines.bagFlag_eq, refines.bagLen_eq⟩
  · have nothing : plain = [] := List.eq_nil_of_length_eq_zero (by omega)
    subst nothing
    refine ⟨decoder.decryptBuf, by simp [insertDecrypted], ?_, ?_⟩
    · rw [Frames.machine.feed_nil]
      exact ⟨refines.stores, refines.bagFlag_eq, refines.bagLen_eq⟩
    · exact (MyBuf.Room.insert_zero refines.stores.room_sound heap).symm

/-- `DecryptPacket` feeds the deciphered chunk to the parser and drains it. -/
theorem decryptPacket_eq (refines : decoder.Refines parser) (heap : MyBuf.Heap) (vfd : ℤ)
    {buf : Bytes}
    (takes : decoder.decryptBuf.room.Takes (decipher decoder.encryptClass buf).2.length) :
    ∃ next, decoder.decryptPacket heap vfd buf =
        some (next, (Frames.machine.drain (Frames.machine.feed parser
          (decipher decoder.encryptClass buf).2)).2.map (Bag.mk vfd)) ∧
      next.Refines (Frames.machine.drain (Frames.machine.feed parser
        (decipher decoder.encryptClass buf).2)).1 ∧
      next.encryptClass = (decipher decoder.encryptClass buf).1 ∧
      next.decryptBuf.room =
        (decoder.decryptBuf.room.insert heap (decipher decoder.encryptClass buf).2.length).keep
          (Frames.machine.drain (Frames.machine.feed parser
            (decipher decoder.encryptClass buf).2)).1.buffered.length := by
  rcases refines.insertDecrypted_eq heap (decipher decoder.encryptClass buf).1 takes with
    ⟨buffer, inserted, fed, room⟩
  rcases fed.bagProcess_eq with ⟨final, processed, finalRefines, sameClass, finalRoom⟩
  refine ⟨final, ?_, finalRefines, sameClass, by rw [finalRoom, room]⟩
  simp only [decryptPacket, inserted, processed, bind, Option.bind, pure]

theorem decryptPacket_eq_none (refines : decoder.Refines parser) (heap : MyBuf.Heap) (vfd : ℤ)
    {buf : Bytes}
    (full : ¬decoder.decryptBuf.room.Takes (decipher decoder.encryptClass buf).2.length) :
    decoder.decryptPacket heap vfd buf = none := by
  have some_plain : (decipher decoder.encryptClass buf).2.length > 0 := by
    by_contra nothing
    rw [Nat.eq_zero_of_not_pos nothing] at full
    exact full (MyBuf.Room.takes_zero refines.stores.room_sound)
  have stuck := refines.stores.insertData_eq_none heap full
  simp only [decryptPacket, insertDecrypted, if_pos some_plain, stuck, Option.map_none, bind,
    Option.bind]

end Refines

/-! ## Deliveries -/

/-- The deciphered chunks. -/
def decipherAll : Option SimpleXOR → List Bytes → List Bytes
  | _, [] => []
  | encryptClass, chunk :: rest =>
      (decipher encryptClass chunk).2 :: decipherAll (decipher encryptClass chunk).1 rest

@[simp]
theorem decipherAll_none (chunks : List Bytes) : decipherAll none chunks = chunks := by
  induction chunks with
  | nil => rfl
  | cons chunk rest ih => simp [decipherAll, decipher, ih]

/-- The buffer has room for each chunk; after it, it keeps what the parser has not consumed. -/
def Within (heap : MyBuf.Heap) : MyBuf.Room → Parser → List Bytes → Prop
  | _, _, [] => True
  | room, parser, plain :: rest =>
      room.Takes plain.length ∧
        Within heap
          ((room.insert heap plain.length).keep
            (Frames.machine.drain (Frames.machine.feed parser plain)).1.buffered.length)
          (Frames.machine.drain (Frames.machine.feed parser plain)).1 rest

instance decidableWithin (heap : MyBuf.Heap) :
    (room : MyBuf.Room) → (parser : Parser) → (plains : List Bytes) →
      Decidable (Within heap room parser plains)
  | _, _, [] => isTrue trivial
  | room, parser, plain :: rest =>
      have := decidableWithin heap
        ((room.insert heap plain.length).keep
          (Frames.machine.drain (Frames.machine.feed parser plain)).1.buffered.length)
        (Frames.machine.drain (Frames.machine.feed parser plain)).1 rest
      inferInstanceAs (Decidable (_ ∧ _))

/-- Within its buffer the receiver delivers what the parser delivers. -/
theorem decryptPackets_eq {heap : MyBuf.Heap} {decoder : PacketDecrypt} {parser : Parser}
    (refines : decoder.Refines parser) (vfd : ℤ) {chunks : List Bytes}
    (within : Within heap decoder.decryptBuf.room parser
      (decipherAll decoder.encryptClass chunks)) :
    ∃ final, decryptPackets heap vfd decoder chunks =
        some (final, (Frames.machine.deliver parser
          (decipherAll decoder.encryptClass chunks)).2.map (Bag.mk vfd)) ∧
      final.Refines
        (Frames.machine.deliver parser (decipherAll decoder.encryptClass chunks)).1 := by
  induction chunks generalizing decoder parser with
  | nil => exact ⟨decoder, rfl, refines⟩
  | cons chunk rest ih =>
      rcases within with ⟨takes, later⟩
      rcases refines.decryptPacket_eq heap vfd takes with
        ⟨next, decrypted, nextRefines, nextClass, nextRoom⟩
      rw [← nextRoom, ← nextClass] at later
      rcases ih nextRefines later with ⟨final, delivered, finalRefines⟩
      rw [nextClass] at delivered finalRefines
      refine ⟨final, ?_, finalRefines⟩
      simp only [decryptPackets, decrypted, delivered, bind, Option.bind, pure, decipherAll,
        Incremental.deliver, List.map_append]

/-- Beyond its buffer the receiver does not return. -/
theorem decryptPackets_eq_none {heap : MyBuf.Heap} {decoder : PacketDecrypt} {parser : Parser}
    (refines : decoder.Refines parser) (vfd : ℤ) {chunks : List Bytes}
    (beyond : ¬Within heap decoder.decryptBuf.room parser
      (decipherAll decoder.encryptClass chunks)) :
    decryptPackets heap vfd decoder chunks = none := by
  induction chunks generalizing decoder parser with
  | nil => exact absurd trivial beyond
  | cons chunk rest ih =>
      by_cases takes :
        decoder.decryptBuf.room.Takes (decipher decoder.encryptClass chunk).2.length
      · rcases refines.decryptPacket_eq heap vfd takes with
          ⟨next, decrypted, nextRefines, nextClass, nextRoom⟩
        have later : decryptPackets heap vfd next rest = none := by
          apply ih nextRefines
          intro within
          rw [nextClass, nextRoom] at within
          exact beyond ⟨takes, within⟩
        simp only [decryptPackets, decrypted, later, bind, Option.bind]
      · have stuck := refines.decryptPacket_eq_none heap vfd takes
        simp only [decryptPackets, stuck, bind, Option.bind]

end PacketDecrypt

end SimpleModule
