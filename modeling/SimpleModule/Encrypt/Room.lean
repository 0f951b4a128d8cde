import SimpleModule.Encrypt.MyBuf

/-!
# Room in a buffer

Whether `InsertData` returns depends on four sizes only: the recorded capacity, the block,
`_Tail` and the number of unread bytes.  `Room` has these sizes, and `Room.Takes` and
`Room.insert` say for a buffer whose capacity is a power of two, as all buffers of the
library have it, which inserts return and what sizes they leave.

An input beyond the capacity makes the block grow to just the bytes needed.  From then on
the capacity exceeds the block, and an input that fits the capacity can end behind the
block.  A buffer that never has to grow has no such inputs (`Room.Full`).
-/

namespace SimpleModule

open Octets

namespace MyBuf

/-- The capacity that a power of two cannot be doubled beyond. -/
def bufferLimit : ℕ := 2 ^ 30

/-- The sizes of a buffer: `_BufSize`, the block, `_Tail` and the unread bytes. -/
structure Room where
  bufSize : ℕ
  allocated : ℕ
  tail : ℕ
  kept : ℕ
  deriving DecidableEq, Repr

namespace Room

/-- The sizes of a new buffer. -/
def create (bufSize : ℕ) : Room := ⟨bufSize, bufSize, 0, 0⟩

/-- Where an input ends that does not make the buffer grow. -/
def inputEnd (room : Room) (inputLen : ℕ) : ℕ :=
  if room.tail + inputLen ≤ room.bufSize then room.tail + inputLen else room.kept + inputLen

/-- The input ends inside the block, or the buffer grows and the doubling loop ends. -/
def Takes (room : Room) (inputLen : ℕ) : Prop :=
  if room.kept + inputLen ≤ room.bufSize then room.inputEnd inputLen ≤ room.allocated
  else room.kept + inputLen ≤ bufferLimit

instance (room : Room) (inputLen : ℕ) : Decidable (room.Takes inputLen) :=
  inferInstanceAs (Decidable (if room.kept + inputLen ≤ room.bufSize then
    room.inputEnd inputLen ≤ room.allocated else room.kept + inputLen ≤ bufferLimit))

/-- The sizes after an insert. -/
def insert (heap : Heap) (room : Room) (inputLen : ℕ) : Room :=
  let needLen := room.kept + inputLen
  if needLen ≤ room.bufSize then
    { room with tail := room.inputEnd inputLen, kept := needLen }
  else
    let bufSize := 2 ^ Nat.clog 2 needLen
    ⟨bufSize, heap.size needLen bufSize, needLen, needLen⟩

/-- The sizes after `GetBufData` has left the given number of bytes. -/
def keep (room : Room) (kept : ℕ) : Room := { room with kept := kept }

/-- What the sizes of a buffer always satisfy. -/
structure Sound (room : Room) : Prop where
  kept_le : room.kept ≤ room.tail
  tail_le : room.tail ≤ room.allocated
  allocated_le : room.allocated ≤ room.bufSize
  bufSize_le : room.bufSize ≤ bufferLimit

/-- The block is as large as the recorded capacity. -/
def Full (room : Room) : Prop := room.allocated = room.bufSize

theorem sound_create {bufSize : ℕ} (bounded : bufSize ≤ bufferLimit) : (create bufSize).Sound where
  kept_le := le_rfl
  tail_le := Nat.zero_le _
  allocated_le := le_rfl
  bufSize_le := bounded

section Facts

variable {heap : Heap} {room : Room} {inputLen : ℕ}

theorem takes_of_fits (fits : room.kept + inputLen ≤ room.bufSize) :
    room.Takes inputLen ↔ room.inputEnd inputLen ≤ room.allocated := by
  rw [Takes, if_pos fits]

theorem takes_of_exceeds (exceeds : room.bufSize < room.kept + inputLen) :
    room.Takes inputLen ↔ room.kept + inputLen ≤ bufferLimit := by
  rw [Takes, if_neg (not_le.mpr exceeds)]

theorem insert_of_fits (fits : room.kept + inputLen ≤ room.bufSize) :
    room.insert heap inputLen =
      { room with tail := room.inputEnd inputLen, kept := room.kept + inputLen } := by
  simp only [insert, if_pos fits]

theorem insert_of_exceeds (exceeds : room.bufSize < room.kept + inputLen) :
    room.insert heap inputLen =
      ⟨2 ^ Nat.clog 2 (room.kept + inputLen),
        heap.size (room.kept + inputLen : ℕ) (2 ^ Nat.clog 2 (room.kept + inputLen) : ℕ),
        room.kept + inputLen, room.kept + inputLen⟩ := by
  simp only [insert, if_neg (not_le.mpr exceeds)]

theorem inputEnd_bounds (sound : room.Sound) (fits : room.kept + inputLen ≤ room.bufSize) :
    room.kept + inputLen ≤ room.inputEnd inputLen ∧ room.inputEnd inputLen ≤ room.bufSize := by
  have kept_le := sound.kept_le
  rw [inputEnd]
  split_ifs with behind
  · exact ⟨by omega, behind⟩
  · exact ⟨le_rfl, fits⟩

/-- Nothing can always be inserted, and changes nothing. -/
theorem takes_zero (sound : room.Sound) : room.Takes 0 := by
  have kept_le := sound.kept_le
  have tail_le := sound.tail_le
  have allocated_le := sound.allocated_le
  rw [takes_of_fits (by omega), inputEnd, if_pos (by omega)]
  omega

theorem insert_zero (sound : room.Sound) (heap : Heap) : room.insert heap 0 = room := by
  have kept_le := sound.kept_le
  have tail_le := sound.tail_le
  have allocated_le := sound.allocated_le
  rw [insert_of_fits (by omega), inputEnd, if_pos (by omega)]
  rfl

/-- An input that fits behind `_Tail` as recorded and not in the block. -/
theorem not_takes_of_overrun (kept_le : room.kept ≤ room.tail)
    (behind : room.tail + inputLen ≤ room.bufSize)
    (overrun : room.allocated < room.tail + inputLen) : ¬room.Takes inputLen := by
  rw [takes_of_fits (by omega), inputEnd, if_pos behind]
  omega

@[simp]
theorem kept_insert : (room.insert heap inputLen).kept = room.kept + inputLen := by
  rw [insert]
  split_ifs <;> rfl

theorem Sound.insert (sound : room.Sound) (takes : room.Takes inputLen) (heap : Heap) :
    (room.insert heap inputLen).Sound := by
  rcases le_or_gt (room.kept + inputLen) room.bufSize with fits | exceeds
  · rw [insert_of_fits fits]
    exact {
      kept_le := (inputEnd_bounds sound fits).1
      tail_le := (takes_of_fits fits).mp takes
      allocated_le := sound.allocated_le
      bufSize_le := sound.bufSize_le }
  · have small := (takes_of_exceeds exceeds).mp takes
    have enough : room.kept + inputLen ≤ 2 ^ Nat.clog 2 (room.kept + inputLen) :=
      Nat.le_pow_clog (by decide) _
    have bounds := heap.size_bounds (Int.natCast_nonneg (room.kept + inputLen))
      (Int.ofNat_le.mpr enough)
    rw [insert_of_exceeds exceeds]
    exact {
      kept_le := le_rfl
      tail_le := Int.ofNat_le.mp bounds.1
      allocated_le := Int.ofNat_le.mp bounds.2
      bufSize_le := Nat.pow_le_pow_right (by decide)
        ((Nat.clog_le_iff_le_pow (by decide)).mpr small) }

theorem Sound.keep (sound : room.Sound) {kept : ℕ} (fewer : kept ≤ room.kept) :
    (room.keep kept).Sound where
  kept_le := fewer.trans sound.kept_le
  tail_le := sound.tail_le
  allocated_le := sound.allocated_le
  bufSize_le := sound.bufSize_le

/-! ### Blocks as large as recorded -/

theorem Full.takes_iff (full : room.Full) (sound : room.Sound) :
    room.Takes inputLen ↔ room.kept + inputLen ≤ bufferLimit := by
  rcases le_or_gt (room.kept + inputLen) room.bufSize with fits | exceeds
  · have inside := (inputEnd_bounds sound fits).2
    have bufSize_le := sound.bufSize_le
    rw [takes_of_fits fits, show room.allocated = room.bufSize from full]
    exact iff_of_true inside (by omega)
  · exact takes_of_exceeds exceeds

theorem Full.insert_recorded (full : room.Full) : (room.insert .recorded inputLen).Full := by
  rcases le_or_gt (room.kept + inputLen) room.bufSize with fits | exceeds
  · rw [insert_of_fits fits]
    exact full
  · rw [insert_of_exceeds exceeds]
    rfl

/-- Without growth a block stays as large as recorded. -/
theorem Full.insert_of_fits (full : room.Full) (heap : Heap)
    (fits : room.kept + inputLen ≤ room.bufSize) :
    (room.insert heap inputLen).Full ∧ (room.insert heap inputLen).bufSize = room.bufSize := by
  rw [Room.insert_of_fits fits]
  exact ⟨full, rfl⟩

end Facts

end Room

/-! ## The room in a buffer -/

/-- The sizes of a buffer. -/
def room (buffer : MyBuf) : Room :=
  ⟨buffer.bufSize.toNat, buffer.allocated, buffer.tail.toNat, buffer.getBufLen.toNat⟩

theorem room_create (bufSize : ℕ) : (create bufSize).room = Room.create bufSize := rfl

/-- From a power of two the loop ends with the next power of two that is large enough. -/
theorem doubled_pow {needLen exponent : ℕ} (bounded : exponent ≤ 30)
    (short : 2 ^ exponent < needLen) (small : needLen ≤ bufferLimit) :
    doubled needLen doublingFuel (2 ^ exponent) = some (2 ^ Nat.clog 2 needLen) := by
  have limit : (2 : ℤ) ^ exponent ≤ 2 ^ 30 := pow_le_pow_right₀ (by norm_num) bounded
  have smallNeed : (needLen : ℤ) ≤ 2 ^ 30 := by
    simp only [bufferLimit] at small
    omega
  have positive : (0 : ℤ) < 2 ^ exponent := by positivity
  rcases doubled_of_small positive (by omega) smallNeed with
    ⟨rounds, ended, enough, -, least⟩
  rw [← pow_add] at ended enough
  have reached : Nat.clog 2 needLen = exponent + rounds := by
    apply le_antisymm
    · exact (Nat.clog_le_iff_le_pow (by decide)).mpr (by exact_mod_cast enough)
    · by_contra fewer
      have covered : needLen ≤ 2 ^ (exponent + (rounds - 1)) :=
        (Nat.clog_le_iff_le_pow (by decide)).mp (by omega)
      rcases Nat.eq_zero_or_pos rounds with rfl | positive
      · rw [Nat.zero_sub, Nat.add_zero] at covered
        omega
      · have before := least (rounds - 1) (by omega)
        rw [← pow_add] at before
        exact absurd covered (not_le.mpr (by exact_mod_cast before))
  rw [ended, reached]

/-- The buffer holds a queue, and its capacity is a power of two. -/
structure Stores (buffer : MyBuf) (queue : Bytes) : Prop extends Holds buffer queue where
  capacity : ∃ exponent ≤ 30, buffer.bufSize = 2 ^ exponent

theorem create_stores {exponent : ℕ} (bounded : exponent ≤ 30) :
    (create (2 ^ exponent)).Stores [] where
  toHolds := create_holds (by positivity)
  capacity := ⟨exponent, bounded, rfl⟩

namespace Stores

variable {buffer : MyBuf} {queue : Bytes}

theorem room_kept (stores : buffer.Stores queue) : buffer.room.kept = queue.length := by
  simp only [room, stores.getBufLen_eq, Int.toNat_natCast]

theorem bufSize_bounds (stores : buffer.Stores queue) :
    0 < buffer.bufSize ∧ buffer.bufSize ≤ 2 ^ 30 := by
  rcases stores.capacity with ⟨exponent, bounded, capacity⟩
  rw [capacity]
  exact ⟨by positivity, pow_le_pow_right₀ (by norm_num) bounded⟩

theorem room_sound (stores : buffer.Stores queue) : buffer.room.Sound := by
  have nonneg := stores.head_nonneg
  have tail_eq := stores.tail_eq
  have inside := stores.tail_le_allocated
  have within := stores.allocated_le
  have bounds := stores.bufSize_bounds
  have length_eq := stores.getBufLen_eq
  constructor
  · simp only [room]
    omega
  · simp only [room]
    omega
  · simp only [room]
    omega
  · simp only [room, bufferLimit]
    omega

theorem length_le_limit (stores : buffer.Stores queue) : queue.length ≤ bufferLimit := by
  have sound := stores.room_sound
  rw [← stores.room_kept]
  exact sound.kept_le.trans (sound.tail_le.trans (sound.allocated_le.trans sound.bufSize_le))

theorem room_inputEnd (stores : buffer.Stores queue) (inputLen : ℕ) :
    buffer.storeOffset inputLen + inputLen = (buffer.room.inputEnd inputLen : ℕ) := by
  have nonneg := stores.head_nonneg
  have tail_eq := stores.tail_eq
  have bounds := stores.bufSize_bounds
  have length_eq := stores.getBufLen_eq
  simp only [storeOffset, getTailLen]
  split_ifs with behind
  · rw [Room.inputEnd, if_pos (by simp only [room]; omega)]
    simp only [room]
    omega
  · rw [Room.inputEnd, if_neg (by simp only [room]; omega)]
    simp only [room]
    omega

/-- Bytes taken off the queue leave the block and `_Tail` as they are. -/
theorem getBufData_of_le (stores : buffer.Stores queue) {count : ℕ}
    (short : count ≤ queue.length) :
    ∃ next, buffer.getBufData count = (next, queue.take count, (count : ℤ)) ∧
      next.Stores (queue.drop count) ∧
      next.room = buffer.room.keep (queue.drop count).length := by
  rcases stores.toHolds.getBufData_of_le short with ⟨taken, holds⟩
  have next : MyBuf.Stores { buffer with head := buffer.head + count } (queue.drop count) :=
    ⟨holds, stores.capacity⟩
  refine ⟨_, taken, next, ?_⟩
  rw [← next.room_kept]
  rfl

section Insert

variable {input : Bytes}

theorem fits_of_room (stores : buffer.Stores queue)
    (fits : buffer.room.kept + input.length ≤ buffer.room.bufSize) :
    queue.length + input.length ≤ buffer.bufSize := by
  have bounds := stores.bufSize_bounds
  rw [stores.room_kept] at fits
  simp only [room] at fits
  omega

theorem exceeds_of_room (stores : buffer.Stores queue)
    (exceeds : buffer.room.bufSize < buffer.room.kept + input.length) :
    ∃ exponent ≤ 30, buffer.bufSize = 2 ^ exponent ∧
      2 ^ exponent < queue.length + input.length := by
  rcases stores.capacity with ⟨exponent, bounded, capacity⟩
  refine ⟨exponent, bounded, capacity, ?_⟩
  rw [stores.room_kept] at exceeds
  have same : (2 ^ exponent : ℤ).toNat = 2 ^ exponent := by
    rw [← Int.toNat_natCast (2 ^ exponent)]
    push_cast
    rfl
  simp only [room, capacity, same] at exceeds
  exact exceeds

/-- An insert that the room takes appends its input and leaves the sizes of `Room.insert`. -/
theorem insertData_eq (stores : buffer.Stores queue) (heap : Heap)
    (takes : buffer.room.Takes input.length) :
    ∃ result, buffer.insertData heap input true = some result ∧
      result.buffer.Stores (queue ++ input) ∧ result.realLen = input.length ∧
      result.buffer.room = buffer.room.insert heap input.length := by
  have kept := stores.room_kept
  rcases le_or_gt (buffer.room.kept + input.length) buffer.room.bufSize with fits | exceeds
  · have inside := (Room.takes_of_fits fits).mp takes
    have ends := stores.room_inputEnd input.length
    rcases stores.insertData_of_fits heap true (stores.fits_of_room fits)
        (by rw [ends]; exact Int.ofNat_le.mpr inside) with
      ⟨result, inserted, holds, realLen, sameSize, sameBlock, tail⟩
    have next : result.buffer.Stores (queue ++ input) := ⟨holds, sameSize ▸ stores.capacity⟩
    refine ⟨result, inserted, next, realLen, ?_⟩
    rw [Room.insert_of_fits fits, kept]
    have nextKept := next.room_kept
    rw [List.length_append] at nextKept
    rw [ends] at tail
    simp only [room] at nextKept ⊢
    rw [sameSize, sameBlock, tail, nextKept]
    rfl
  · rcases stores.exceeds_of_room exceeds with ⟨exponent, bounded, capacity, short⟩
    have small := (Room.takes_of_exceeds exceeds).mp takes
    rw [kept] at small
    have ended := doubled_pow bounded short small
    rw [← capacity, Nat.cast_add] at ended
    simp only [bufferLimit] at small
    rcases stores.insertData_of_exceeds heap
        (by rw [capacity]; exact_mod_cast short) (by omega) ended with
      ⟨result, inserted, holds, realLen, size, block, tail⟩
    have next : result.buffer.Stores (queue ++ input) :=
      ⟨holds, _, (Nat.clog_le_iff_le_pow (by decide)).mpr small, size⟩
    refine ⟨result, inserted, next, realLen, ?_⟩
    rw [Room.insert_of_exceeds exceeds, kept]
    have nextKept := next.room_kept
    rw [List.length_append] at nextKept
    simp only [room] at nextKept ⊢
    rw [nextKept, block, tail, size]
    push_cast
    rfl

/-- An insert that the room does not take does not return. -/
theorem insertData_eq_none (stores : buffer.Stores queue) (heap : Heap)
    (full : ¬buffer.room.Takes input.length) : buffer.insertData heap input true = none := by
  have kept := stores.room_kept
  rcases le_or_gt (buffer.room.kept + input.length) buffer.room.bufSize with fits | exceeds
  · rw [Room.takes_of_fits fits, not_le] at full
    have ends := stores.room_inputEnd input.length
    apply stores.insertData_of_overrun heap true (stores.fits_of_room fits)
    rw [ends]
    exact Int.ofNat_lt.mpr full
  · rcases stores.exceeds_of_room exceeds with ⟨exponent, bounded, capacity, short⟩
    rw [Room.takes_of_exceeds exceeds, not_le, kept] at full
    simp only [bufferLimit] at full
    apply stores.insertData_of_endless
    · rw [capacity]
      exact_mod_cast short
    · rw [capacity]
      exact doubled_pow_of_large bounded (by omega) _

end Insert

end Stores

end MyBuf

end SimpleModule
