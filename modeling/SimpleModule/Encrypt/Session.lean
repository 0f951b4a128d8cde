import SimpleModule.Encrypt.Reassembly

/-!
# Encrypted sessions

A sender with a fresh cipher puts the seed in front of its stream, and a receiver
with a fresh cipher takes the seed from the first four bytes it sees.  Once both are
seeded they stay in step, so the receiver deciphers the sender's frames however they
are cut.

A first chunk of fewer than four bytes is discarded by `Decrypt`.  The receiver then
never obtains as many bytes as the packets' frames have, so it cannot deliver them:
`length_decipherAll_le` and `weight_le_of_delivers` are the two halves of this count.
-/

namespace SimpleModule

open Octets

namespace PacketDecrypt

open PacketEncrypt (encryptPackets)

theorem decipherAll_seeded {cipher : SimpleXOR} (seeded : cipher.seedFlag = true)
    (chunks : List Bytes) :
    (decipherAll (some cipher) chunks).flatten = (cipher.xmakes chunks.flatten).2 := by
  induction chunks generalizing cipher with
  | nil => rfl
  | cons chunk rest ih =>
      simp only [decipherAll, decipher, SimpleXOR.decrypt_seeded seeded, List.flatten_cons,
        SimpleXOR.xmakes_append]
      rw [ih (by simpa using seeded)]

theorem map_length_decipherAll_seeded {cipher : SimpleXOR} (seeded : cipher.seedFlag = true)
    (chunks : List Bytes) :
    (decipherAll (some cipher) chunks).map List.length = chunks.map List.length := by
  induction chunks generalizing cipher with
  | nil => rfl
  | cons chunk rest ih =>
      simp only [decipherAll, decipher, SimpleXOR.decrypt_seeded seeded, List.map_cons,
        SimpleXOR.length_xmakes]
      rw [ih (by simpa using seeded)]

/-- A fresh receiver whose first chunk contains the seed deciphers the rest of the stream. -/
theorem decipherAll_fresh {first : Bytes} (enough : 4 ≤ first.length) (rest : List Bytes) :
    (decipherAll (some SimpleXOR.create) (first :: rest)).flatten =
      ((SimpleXOR.setSeed (SimpleXOR.seedOf (first.take 4))).xmakes
        (first.drop 4 ++ rest.flatten)).2 := by
  simp only [decipherAll, decipher, SimpleXOR.decrypt_first SimpleXOR.seedFlag_create enough,
    List.flatten_cons, SimpleXOR.xmakes_append]
  rw [decipherAll_seeded (by simp)]

theorem map_length_decipherAll_fresh {first : Bytes} (enough : 4 ≤ first.length)
    (rest : List Bytes) :
    (decipherAll (some SimpleXOR.create) (first :: rest)).map List.length =
      (first.length - 4) :: rest.map List.length := by
  simp only [decipherAll, decipher, SimpleXOR.decrypt_first SimpleXOR.seedFlag_create enough,
    List.map_cons, SimpleXOR.length_xmakes, List.length_drop]
  rw [map_length_decipherAll_seeded (by simp)]

theorem length_decipherAll_le {cipher : SimpleXOR} (unseeded : cipher.seedFlag = false)
    (chunks : List Bytes) :
    (decipherAll (some cipher) chunks).flatten.length ≤ chunks.flatten.length - 4 := by
  induction chunks with
  | nil => simp [decipherAll]
  | cons chunk rest ih =>
      by_cases short : chunk.length < 4
      · simp only [decipherAll, decipher, SimpleXOR.decrypt_short unseeded short,
          List.flatten_cons, List.nil_append, List.length_append]
        omega
      · have enough : 4 ≤ chunk.length := not_lt.mp short
        simp only [decipherAll, decipher, SimpleXOR.decrypt_first unseeded enough,
          List.flatten_cons, List.length_append, SimpleXOR.length_xmakes, List.length_drop]
        rw [decipherAll_seeded (by simp), SimpleXOR.length_xmakes]
        omega

theorem weight_le_of_delivers {vfd : ℤ} {encryptClass : Option SimpleXOR}
    {chunks packets : List Bytes} (delivers : Delivers vfd (create encryptClass) chunks packets) :
    Frames.weight packets ≤ (decipherAll encryptClass chunks).flatten.length := by
  have found := ((delivers_iff vfd encryptClass chunks packets).mp delivers).2
  have conserved :=
    Frames.held_drain ⟨none, (decipherAll encryptClass chunks).flatten⟩
  rw [found] at conserved
  simp only [Frames.Parser.held, Option.isSome_none] at conserved
  simp only [Bool.false_eq_true, if_false, Nat.add_zero] at conserved
  omega

/-- The first chunk contains the four bytes of the seed. -/
def SeedArrivesWhole (chunks : List Bytes) : Prop := 4 ≤ (chunks.headD []).length

instance (chunks : List Bytes) : Decidable (SeedArrivesWhole chunks) :=
  inferInstanceAs (Decidable (_ ≤ _))

/-- The lengths of the chunks without the seed at the front of the first one. -/
def sizesAfterSeed (chunks : List Bytes) : List ℕ :=
  ((chunks.headD []).length - 4) :: chunks.tail.map List.length

theorem sum_sizesAfterSeed {chunks : List Bytes} (whole : SeedArrivesWhole chunks) :
    (sizesAfterSeed chunks).sum + 4 = chunks.flatten.length := by
  rcases chunks with _ | ⟨first, rest⟩
  · simp [SeedArrivesWhole] at whole
  · have enough : 4 ≤ first.length := whole
    simp only [sizesAfterSeed, List.headD_cons, List.tail_cons, List.sum_cons,
      List.flatten_cons, List.length_append, List.length_flatten]
    omega

theorem decipherAll_stream {seed : Int32} {chunks : List Bytes} {plain : Bytes}
    (cut : chunks.flatten =
      SimpleXOR.seedBytes seed ++ ((SimpleXOR.setSeed seed).xmakes plain).2)
    (whole : SeedArrivesWhole chunks) :
    (decipherAll (some SimpleXOR.create) chunks).flatten = plain ∧
      (decipherAll (some SimpleXOR.create) chunks).map List.length = sizesAfterSeed chunks := by
  rcases chunks with _ | ⟨first, rest⟩
  · simp [SeedArrivesWhole] at whole
  · have enough : 4 ≤ first.length := whole
    rw [List.flatten_cons] at cut
    have front : first.take 4 = SimpleXOR.seedBytes seed := by
      have taken := congrArg (List.take 4) cut
      rwa [List.take_append_of_le_length enough, List.take_left' (by simp)] at taken
    have back : first.drop 4 ++ rest.flatten = ((SimpleXOR.setSeed seed).xmakes plain).2 := by
      have dropped := congrArg (List.drop 4) cut
      rwa [List.drop_append_of_le_length enough, List.drop_left' (by simp)] at dropped
    refine ⟨?_, map_length_decipherAll_fresh enough rest⟩
    rw [decipherAll_fresh enough, front, back, SimpleXOR.seedOf_seedBytes, SimpleXOR.xmakes_xmakes]

/-- What a receiver deciphers from the beginning of a session's stream. -/
theorem decipherAll_session {seed : Int32} {packets chunks : List Bytes}
    (sent : chunks.flatten <+: (encryptPackets seed ⟨some SimpleXOR.create⟩ packets).2.flatten)
    (whole : SeedArrivesWhole chunks) :
    (decipherAll (some SimpleXOR.create) chunks).flatten <+: Frames.stream packets ∧
      (decipherAll (some SimpleXOR.create) chunks).flatten.length = chunks.flatten.length - 4 ∧
      (decipherAll (some SimpleXOR.create) chunks).map List.length = sizesAfterSeed chunks := by
  have total := sum_sizesAfterSeed whole
  have enough : 4 ≤ chunks.flatten.length := total ▸ Nat.le_add_left _ _
  have nonempty : packets ≠ [] := by
    rintro rfl
    have := sent.length_le
    simp only [encryptPackets, List.flatten_nil, List.length_nil] at this
    omega
  rw [PacketEncrypt.encryptPackets_fresh seed nonempty] at sent
  have cut : chunks.flatten = SimpleXOR.seedBytes seed ++ ((SimpleXOR.setSeed seed).xmakes
      ((Frames.stream packets).take (chunks.flatten.length - 4))).2 := by
    rw [SimpleXOR.xmakes_take]
    conv_lhs => rw [List.prefix_iff_eq_take.mp sent]
    rw [List.take_append, SimpleXOR.length_seedBytes,
      List.take_of_length_le (by simpa using enough)]
  rcases decipherAll_stream cut whole with ⟨plain, sizes⟩
  refine ⟨plain ▸ List.take_prefix _ _, ?_, sizes⟩
  rw [List.length_flatten, sizes]
  omega

/-- The beginning of a session's stream makes the receiver deliver the complete packets. -/
theorem decryptPackets_session_prefix {seed : Int32} (vfd : ℤ) {packets chunks : List Bytes}
    (sendable : ∀ packet ∈ packets, Sendable packet)
    (sent : chunks.flatten <+: (encryptPackets seed ⟨some SimpleXOR.create⟩ packets).2.flatten)
    (whole : SeedArrivesWhole chunks)
    (hasRoom : HasRoom .requested packets newRoom 0 (sizesAfterSeed chunks)) :
    ∃ final, decryptPackets .requested vfd (create (some SimpleXOR.create)) chunks =
      some (final, (Frames.complete packets (chunks.flatten.length - 4)).map (Bag.mk vfd)) := by
  rcases decipherAll_session sent whole with ⟨beginning, length, sizes⟩
  rw [← sizes] at hasRoom
  rw [← length]
  exact decryptPackets_prefix (bounded_of_sendable sendable) vfd beginning hasRoom

/-- Without room for a chunk the receiver does not return. -/
theorem decryptPackets_session_none {seed : Int32} (vfd : ℤ) {packets chunks : List Bytes}
    (sendable : ∀ packet ∈ packets, Sendable packet)
    (sent : chunks.flatten <+: (encryptPackets seed ⟨some SimpleXOR.create⟩ packets).2.flatten)
    (whole : SeedArrivesWhole chunks)
    (beyond : ¬HasRoom .requested packets newRoom 0 (sizesAfterSeed chunks)) :
    decryptPackets .requested vfd (create (some SimpleXOR.create)) chunks = none := by
  rcases decipherAll_session sent whole with ⟨beginning, -, sizes⟩
  rw [← sizes] at beyond
  exact decryptPackets_prefix_none (bounded_of_sendable sendable) vfd beginning beyond

/-- A first chunk that is too short makes the receiver lose bytes of the frames. -/
theorem not_delivers_of_short {vfd : ℤ} {chunks packets : List Bytes}
    (nonempty : packets ≠ []) (full : ∀ chunk ∈ chunks, chunk ≠ [])
    (total : chunks.flatten.length = 4 + Frames.weight packets)
    (short : ¬SeedArrivesWhole chunks) :
    ¬Delivers vfd (create (some SimpleXOR.create)) chunks packets := by
  intro delivers
  have covered := weight_le_of_delivers delivers
  have some_weight := Frames.four_le_weight nonempty
  rcases chunks with _ | ⟨first, rest⟩
  · simp only [List.flatten_nil, List.length_nil] at total
    omega
  · have few : first.length < 4 := not_le.mp short
    have some_lost : 0 < first.length :=
      List.length_pos_of_ne_nil (full first List.mem_cons_self)
    simp only [decipherAll, decipher, SimpleXOR.decrypt_short SimpleXOR.seedFlag_create few,
      List.flatten_cons, List.nil_append] at covered
    have remaining := length_decipherAll_le SimpleXOR.seedFlag_create rest
    rw [List.flatten_cons, List.length_append] at total
    omega

/--
A session delivers the packets sent exactly when its first chunk contains the whole
seed and the receiver's buffer has room for every chunk.
-/
theorem session_delivers_iff (seed : Int32) (vfd : ℤ) {packets chunks : List Bytes}
    (nonempty : packets ≠ []) (sendable : ∀ packet ∈ packets, Sendable packet)
    (full : ∀ chunk ∈ chunks, chunk ≠ [])
    (cut : chunks.flatten =
      (encryptPackets seed ⟨some SimpleXOR.create⟩ packets).2.flatten) :
    Delivers vfd (create (some SimpleXOR.create)) chunks packets ↔
      SeedArrivesWhole chunks ∧
        HasRoom .requested packets newRoom 0 (sizesAfterSeed chunks) := by
  rw [PacketEncrypt.encryptPackets_fresh seed nonempty] at cut
  by_cases whole : SeedArrivesWhole chunks
  · rcases decipherAll_stream cut whole with ⟨plain, sizes⟩
    rw [delivers_iff_hasRoom sendable vfd plain, sizes]
    exact (and_iff_right whole).symm
  · have total := congrArg List.length cut
    simp only [List.length_append, SimpleXOR.length_seedBytes, SimpleXOR.length_xmakes,
      Frames.length_stream] at total
    have lost : ¬Delivers vfd (create (some SimpleXOR.create)) chunks packets :=
      not_delivers_of_short nonempty full total whole
    constructor
    · intro delivers
      exact absurd delivers lost
    · intro condition
      exact absurd condition.1 whole

/-- The seed and one byte first, then the other bytes of an empty packet's frame. -/
theorem session_delivers_empty_packet :
    Delivers 7 (create (some SimpleXOR.create)) [[0, 0, 0, 0, 0], [0, 0, 0]] [[]] := by
  have sendable : ∀ packet ∈ ([[]] : List Bytes), Sendable packet := by
    simp [Sendable]
  exact (session_delivers_iff 0 7 (by decide) sendable (by decide) (by decide +kernel)).mpr
    (by decide)

/-- The same session with a first chunk of one byte. -/
theorem session_fails_after_one_byte :
    (∀ chunk ∈ ([[0], [0, 0, 0, 0, 0, 0, 0]] : List Bytes), chunk ≠ []) ∧
      [[0], [0, 0, 0, 0, 0, 0, 0]].flatten =
        (encryptPackets 0 ⟨some SimpleXOR.create⟩ [[]]).2.flatten ∧
      ¬Delivers 7 (create (some SimpleXOR.create)) [[0], [0, 0, 0, 0, 0, 0, 0]] [[]] := by
  refine ⟨by decide, by decide +kernel, ?_⟩
  rintro ⟨final, delivered⟩
  have none_delivered :
      (decryptPackets .requested 7 (create (some SimpleXOR.create))
        [[0], [0, 0, 0, 0, 0, 0, 0]]).map Prod.snd = some [] := by decide +kernel
  rw [delivered] at none_delivered
  simp at none_delivered

end PacketDecrypt

end SimpleModule
