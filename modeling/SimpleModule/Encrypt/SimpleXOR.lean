import SimpleModule.Lib.Octets

/-!
# The stream cipher

`SimpleXOR` masks bytes with a dictionary of 256 bytes that `setSeed` derives from
a 32-bit seed.  The position `dic_i` advances with every byte.  The first call of
`encrypt` on an unseeded object draws a seed and puts its four bytes in front of
the output; the first call of `decrypt` on an unseeded object expects them there.

`random` is the result of the library call of that name, which is only made by an
unseeded object.  The constructor initialises neither `dic_i` nor `_Seed`; both are
zero here and `setSeed` overwrites them before they are read.

The cipher is its own inverse (`xmakes_xmakes`) and works byte by byte
(`xmakes_append`), so a seeded receiver in step with the sender can decrypt the
stream in any pieces.
-/

namespace SimpleModule

open Octets

/-- The class `SimpleXOR`. -/
structure SimpleXOR where
  dicI : Byte
  dic : List Byte
  seedFlag : Bool
  seed : Int32

namespace SimpleXOR

/-- `DIC_SIZE`. -/
def dicSize : ℕ := 256

/-- The constructor. -/
def create : SimpleXOR := ⟨0, List.replicate dicSize 0, false, 0⟩

/-- The update of `Seed` in the loop of `SetSeed`. -/
def nextSeed (seed : Int32) : Int32 := (seed <<< 3) + (seed >>> 3) + seed

/-- The loop of `SetSeed`: `count` further entries of the dictionary. -/
def fillDic : (count : ℕ) → Int32 → List Byte
  | 0, _ => []
  | count + 1, seed => (seed % 256).toInt8.toUInt8 :: fillDic count (nextSeed seed)

def setSeed (seed : Int32) : SimpleXOR := ⟨0, fillDic dicSize seed, true, seed⟩

def xmake (cipher : SimpleXOR) (octet : Byte) : SimpleXOR × Byte :=
  let dicI := cipher.dicI + 1
  ({ cipher with dicI := dicI }, cipher.dic.getD dicI.toNat 0 ^^^ octet)

/-- The loop over the input in `Encrypt` and `Decrypt`. -/
def xmakes : SimpleXOR → Bytes → SimpleXOR × Bytes
  | cipher, [] => (cipher, [])
  | cipher, octet :: rest =>
      let made := cipher.xmake octet
      ((xmakes made.1 rest).1, made.2 :: (xmakes made.1 rest).2)

/-- The image of an `int` in memory. -/
def seedBytes (seed : Int32) : Bytes := le 4 seed.toUInt32.toNat

/-- The `int` that four bytes in memory denote. -/
def seedOf (octets : Bytes) : Int32 := (UInt32.ofNat (ofLe octets)).toInt32

def encrypt (cipher : SimpleXOR) (random : Int32) (input : Bytes) : SimpleXOR × Bytes :=
  if cipher.seedFlag then cipher.xmakes input
  else (((setSeed random).xmakes input).1, seedBytes random ++ ((setSeed random).xmakes input).2)

def decrypt (cipher : SimpleXOR) (input : Bytes) : SimpleXOR × Bytes :=
  if cipher.seedFlag then cipher.xmakes input
  else if input.length < 4 then (cipher, [])
  else (setSeed (seedOf (input.take 4))).xmakes (input.drop 4)

@[simp]
theorem seedFlag_create : create.seedFlag = false := rfl

@[simp]
theorem seedFlag_setSeed (seed : Int32) : (setSeed seed).seedFlag = true := rfl

@[simp]
theorem length_seedBytes (seed : Int32) : (seedBytes seed).length = 4 := length_le 4 _

@[simp]
theorem seedOf_seedBytes (seed : Int32) : seedOf (seedBytes seed) = seed := by
  have bounded : seed.toUInt32.toNat < 256 ^ 4 := seed.toUInt32.toNat_lt
  simp only [seedOf, seedBytes, ofLe_le bounded]
  simp

@[simp]
theorem length_xmakes (cipher : SimpleXOR) (input : Bytes) :
    (cipher.xmakes input).2.length = input.length := by
  induction input generalizing cipher with
  | nil => rfl
  | cons octet rest ih => simp [xmakes, ih]

@[simp]
theorem seedFlag_xmakes (cipher : SimpleXOR) (input : Bytes) :
    (cipher.xmakes input).1.seedFlag = cipher.seedFlag := by
  induction input generalizing cipher with
  | nil => rfl
  | cons octet rest ih => exact ih (cipher.xmake octet).1

theorem xmakes_append (cipher : SimpleXOR) (first second : Bytes) :
    cipher.xmakes (first ++ second) =
      (((cipher.xmakes first).1.xmakes second).1,
        (cipher.xmakes first).2 ++ ((cipher.xmakes first).1.xmakes second).2) := by
  induction first generalizing cipher with
  | nil => rfl
  | cons octet rest ih => simp [xmakes, ih]

theorem xmakes_take (cipher : SimpleXOR) (input : Bytes) (count : ℕ) :
    (cipher.xmakes (input.take count)).2 = (cipher.xmakes input).2.take count := by
  induction input generalizing cipher count with
  | nil => simp
  | cons octet rest ih =>
      rcases count with _ | count
      · rfl
      · simp [xmakes, ih]

/-- Masking a masked text from the same position restores it. -/
theorem xmakes_xmakes (cipher : SimpleXOR) (input : Bytes) :
    cipher.xmakes (cipher.xmakes input).2 = ((cipher.xmakes input).1, input) := by
  induction input generalizing cipher with
  | nil => rfl
  | cons octet rest ih =>
      have restored : (cipher.xmake (cipher.xmake octet).2).2 = octet := by
        simp [xmake]
      have position : (cipher.xmake (cipher.xmake octet).2).1 = (cipher.xmake octet).1 := rfl
      simp only [xmakes, position, restored, ih]

theorem decrypt_seeded {cipher : SimpleXOR} (seeded : cipher.seedFlag = true) (input : Bytes) :
    cipher.decrypt input = cipher.xmakes input := by
  simp [decrypt, seeded]

theorem decrypt_short {cipher : SimpleXOR} (unseeded : cipher.seedFlag = false) {input : Bytes}
    (short : input.length < 4) : cipher.decrypt input = (cipher, []) := by
  simp [decrypt, unseeded, short]

theorem decrypt_first {cipher : SimpleXOR} (unseeded : cipher.seedFlag = false) {input : Bytes}
    (enough : 4 ≤ input.length) :
    cipher.decrypt input = (setSeed (seedOf (input.take 4))).xmakes (input.drop 4) := by
  simp [decrypt, unseeded, not_lt.mpr enough]

theorem encrypt_seeded {cipher : SimpleXOR} (seeded : cipher.seedFlag = true) (random : Int32)
    (input : Bytes) : cipher.encrypt random input = cipher.xmakes input := by
  simp [encrypt, seeded]

theorem encrypt_first {cipher : SimpleXOR} (unseeded : cipher.seedFlag = false) (random : Int32)
    (input : Bytes) :
    cipher.encrypt random input =
      (((setSeed random).xmakes input).1,
        seedBytes random ++ ((setSeed random).xmakes input).2) := by
  simp [encrypt, unseeded]

end SimpleXOR

end SimpleModule
