import SimpleModule.Encrypt.SimpleXOR

/-!
# Independence of message boundaries

Two `SimpleXOR` objects exchange a stream.  The sender encrypts block by block and the
receiver decrypts chunk by chunk, and the two need not agree on the boundaries: both
advance `dic_i` by one for each byte of text, modulo 256, and the receiver skips the four
bytes of the seed.  All that is required is that the seed arrives in one piece.
-/

namespace SimpleModule

open Octets

namespace SimpleXOR

/-- Successive calls of `Encrypt`; only a call on an unseeded object uses `random`. -/
def encryptAll (random : Int32) : SimpleXOR → List Bytes → SimpleXOR × List Bytes
  | cipher, [] => (cipher, [])
  | cipher, block :: rest =>
      let encrypted := cipher.encrypt random block
      ((encryptAll random encrypted.1 rest).1,
        encrypted.2 :: (encryptAll random encrypted.1 rest).2)

/-- Successive calls of `Decrypt`. -/
def decryptAll : SimpleXOR → List Bytes → SimpleXOR × List Bytes
  | cipher, [] => (cipher, [])
  | cipher, chunk :: rest =>
      let decrypted := cipher.decrypt chunk
      ((decryptAll decrypted.1 rest).1, decrypted.2 :: (decryptAll decrypted.1 rest).2)

theorem encryptAll_seeded (random : Int32) {cipher : SimpleXOR} (seeded : cipher.seedFlag = true)
    (blocks : List Bytes) :
    (encryptAll random cipher blocks).2.flatten = (cipher.xmakes blocks.flatten).2 := by
  induction blocks generalizing cipher with
  | nil => rfl
  | cons block rest ih =>
      have still : (cipher.xmakes block).1.seedFlag = true := by simpa using seeded
      simp only [encryptAll, encrypt_seeded seeded, List.flatten_cons, xmakes_append, ih still]

theorem decryptAll_seeded {cipher : SimpleXOR} (seeded : cipher.seedFlag = true)
    (chunks : List Bytes) :
    (decryptAll cipher chunks).2.flatten = (cipher.xmakes chunks.flatten).2 := by
  induction chunks generalizing cipher with
  | nil => rfl
  | cons chunk rest ih =>
      have still : (cipher.xmakes chunk).1.seedFlag = true := by simpa using seeded
      simp only [decryptAll, decrypt_seeded seeded, List.flatten_cons, xmakes_append, ih still]

/-- However the plaintext is split, the ciphertext is the seed and the masked plaintext. -/
theorem encryptAll_fresh (random : Int32) {blocks : List Bytes} (nonempty : blocks ≠ []) :
    (encryptAll random create blocks).2.flatten =
      seedBytes random ++ ((setSeed random).xmakes blocks.flatten).2 := by
  cases blocks with
  | nil => exact absurd rfl nonempty
  | cons block rest =>
      have seeded : ((setSeed random).xmakes block).1.seedFlag = true := by simp
      simp only [encryptAll, encrypt_first seedFlag_create, List.flatten_cons, xmakes_append,
        encryptAll_seeded random seeded, List.append_assoc]

/-- However the ciphertext is cut behind the seed, it is unmasked from the first position on. -/
theorem decryptAll_fresh {first : Bytes} (enough : 4 ≤ first.length) (rest : List Bytes) :
    (decryptAll create (first :: rest)).2.flatten =
      ((setSeed (seedOf (first.take 4))).xmakes (first.drop 4 ++ rest.flatten)).2 := by
  have seeded : ((setSeed (seedOf (first.take 4))).xmakes (first.drop 4)).1.seedFlag = true := by
    simp
  simp only [decryptAll, decrypt_first seedFlag_create enough, List.flatten_cons, xmakes_append,
    decryptAll_seeded seeded]

/--
For every seed, the ciphertext of some blocks is four bytes longer than the plaintext and
is that of the whole plaintext in one block, and a new object recovers the plaintext from
every cutting of the ciphertext whose first chunk contains the seed.
-/
theorem decryptAll_encryptAll (seed : Int32) {blocks : List Bytes} (nonempty : blocks ≠ []) :
    (encryptAll seed create blocks).2.flatten.length = blocks.flatten.length + 4 ∧
      (encryptAll seed create blocks).2.flatten = (create.encrypt seed blocks.flatten).2 ∧
      ∀ (first : Bytes) (rest : List Bytes), 4 ≤ first.length →
        (first :: rest).flatten = (encryptAll seed create blocks).2.flatten →
        (decryptAll create (first :: rest)).2.flatten = blocks.flatten := by
  rw [encryptAll_fresh seed nonempty]
  refine ⟨?_, ?_, ?_⟩
  · simp
    omega
  · rw [encrypt_first seedFlag_create]
  · intro first rest enough cut
    have head : first.take 4 = seedBytes seed := by
      have taken := congrArg (List.take 4) cut
      rw [List.flatten_cons, List.take_append_of_le_length enough] at taken
      rw [taken, List.take_left' (length_seedBytes seed)]
    have tail : first.drop 4 ++ rest.flatten = ((setSeed seed).xmakes blocks.flatten).2 := by
      have dropped := congrArg (List.drop 4) cut
      rw [List.flatten_cons, List.drop_append_of_le_length enough] at dropped
      rw [dropped, List.drop_left' (length_seedBytes seed)]
    rw [decryptAll_fresh enough, head, tail, seedOf_seedBytes, xmakes_xmakes]

/-- Two blocks, decrypted with the seed and one byte first. -/
theorem decryptAll_encryptAll_two_blocks :
    (decryptAll create
        [(encryptAll 7 create [[1, 2], [3]]).2.flatten.take 5,
          (encryptAll 7 create [[1, 2], [3]]).2.flatten.drop 5]).2.flatten = [1, 2, 3] := by
  rcases decryptAll_encryptAll 7 (show [[1, 2], [3]] ≠ ([] : List Bytes) by simp) with
    ⟨length, _, recovered⟩
  apply recovered
  · rw [List.length_take, length]
    decide
  · simp

end SimpleXOR

end SimpleModule
