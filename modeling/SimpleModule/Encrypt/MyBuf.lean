import SimpleModule.Lib.Octets
import SimpleModule.Lib.Memory

/-!
# The growable byte buffer

`MyBuf` keeps a heap block and three positions: the recorded capacity `_BufSize`,
the first unread byte `_Head` and the first free byte `_Tail`.  Positions are
offsets from `_Buf`.  The size of the block is the argument of the last `malloc`
or `realloc`, which the class itself does not record.

`insertData` is cut into the three stages of the C++ function: `compact` moves the
unread bytes to the front of the block, `grow` reallocates it and `store` copies
the input.  A result of `none` is a call that does not return: the doubling loop
never ends, an `int` overflows, `realloc` gets a pointer into the middle of the
block, or the input is copied to a null pointer or behind the end of the block.

`InsertData` asks `realloc` for `NeedLen` bytes, although it records the capacity
`_BufSize`.  `Heap` has a second reading in which the block has the recorded capacity.
Statements about the code are about `Heap.requested`; `Heap.recorded` is for those
that take the block to hold `_BufSize` bytes.

`GetBufData` with a negative length moves `_Head` back, possibly in front of the block.
What is read there is not checked.

`Holds` relates a buffer to the queue of bytes it represents.
-/

namespace SimpleModule

open Octets

/-- A heap block: its size in bytes and its contents. -/
structure Block where
  size : ℕ
  cells : ℤ → Byte

/-- The class `MyBuf`; `_Head` and `_Tail` are offsets from `_Buf`. -/
structure MyBuf where
  bufSize : ℤ
  buf : Option Block
  head : ℤ
  tail : ℤ

namespace MyBuf

/-- The calls of `insertData` into the C library. -/
inductive MemOp
  | memmove (target source count : ℤ)
  | realloc (source size : ℤ)
  | memcpy (target count : ℤ)
  deriving DecidableEq, Repr

/-- How large a reallocated block is: as requested, or as recorded in `_BufSize`. -/
inductive Heap
  | requested
  | recorded
  deriving DecidableEq, Repr

def Heap.size : Heap → (needLen bufSize : ℤ) → ℕ
  | .requested, needLen, _ => needLen.toNat
  | .recorded, _, bufSize => bufSize.toNat

/-- The constructor `MyBuf(int BufSize)`. -/
def create (bufSize : ℤ) : MyBuf where
  bufSize := bufSize
  buf := some ⟨bufSize.toNat, fun _ => 0⟩
  head := 0
  tail := 0

def getBufLen (buffer : MyBuf) : ℤ := buffer.tail - buffer.head

def getRemainLen (buffer : MyBuf) : ℤ := buffer.bufSize - buffer.getBufLen

def getTailLen (buffer : MyBuf) : ℤ := buffer.bufSize - buffer.tail

/-- The size of the block at `_Buf`, zero for a null pointer. -/
def allocated (buffer : MyBuf) : ℕ := (buffer.buf.map Block.size).getD 0

/-- The bytes that a pointer into the block shows. -/
def bytesAt (buffer : MyBuf) (offset : ℤ) (count : ℕ) : Bytes :=
  match buffer.buf with
  | some block => Memory.read block.cells offset count
  | none => []

/-- The first stage of `InsertData`: move the unread bytes to the front. -/
def compact (buffer : MyBuf) (inputLen : ℤ) : Option (MyBuf × List MemOp) :=
  if inputLen > buffer.getTailLen ∧ buffer.head ≠ 0 then
    buffer.buf.map fun block =>
      ({ buffer with
          buf := some { block with
            cells := Memory.move block.cells 0 buffer.head buffer.getBufLen.toNat }
          head := 0
          tail := buffer.getBufLen },
        [.memmove 0 buffer.head buffer.getBufLen])
  else some (buffer, [])

/-- The loop `while(_BufSize < NeedLen) _BufSize = _BufSize * 2` on 32-bit integers. -/
def doubled (needLen : ℤ) : (fuel : ℕ) → (bufSize : ℤ) → Option ℤ
  | 0, _ => none
  | fuel + 1, bufSize =>
      if bufSize < needLen then doubled needLen fuel (int32 (bufSize * 2)) else some bufSize

/-- Iterations after which the doubling loop has either ended or reached zero. -/
def doublingFuel : ℕ := 33

/-- The second stage of `InsertData`: double the recorded capacity and reallocate. -/
def grow (heap : Heap) (buffer : MyBuf) (inputLen : ℤ) (granted : Bool) :
    Option (MyBuf × ℤ × List MemOp) :=
  if inputLen > buffer.getRemainLen then
    let needLen := buffer.getBufLen + inputLen
    if needLen ≥ 2 ^ 31 ∨ buffer.head ≠ 0 then none
    else
      (doubled needLen doublingFuel buffer.bufSize).map fun bufSize =>
        let cells := (buffer.buf.map Block.cells).getD fun _ => 0
        let block := if granted then some ⟨heap.size needLen bufSize, cells⟩ else none
        (⟨bufSize, block, 0, buffer.getBufLen⟩, if granted then inputLen else 0,
          [.realloc buffer.head needLen])
  else some (buffer, inputLen, [])

/-- `InsertData` up to its `memcpy`, with the length to copy. -/
def makeRoom (heap : Heap) (buffer : MyBuf) (inputLen : ℤ) (granted : Bool) :
    Option (MyBuf × ℤ × List MemOp) := do
  let (compacted, moved) ← buffer.compact inputLen
  let (grown, realLen, reallocated) ← compacted.grow heap inputLen granted
  return (grown, realLen, moved ++ reallocated)

/-- The last stage of `InsertData`: copy the input behind the unread bytes. -/
def store (buffer : MyBuf) (input : Bytes) (realLen : ℤ) : Option (MyBuf × List MemOp) :=
  if realLen ≠ 0 then
    buffer.buf.bind fun block =>
      -- the copy ends inside the block
      if buffer.tail + realLen ≤ block.size then
        some ({ buffer with
            buf := some { block with cells := Memory.write block.cells buffer.tail input }
            tail := buffer.tail + realLen },
          [.memcpy buffer.tail realLen])
      else none
  else some (buffer, [])

/-- What a call of `InsertData` leaves behind. -/
structure Inserted where
  buffer : MyBuf
  realLen : ℤ
  memOps : List MemOp

/-- `MyBuf::InsertData`; `granted` is the outcome of `realloc`, if it is called. -/
def insertData (heap : Heap) (buffer : MyBuf) (input : Bytes) (granted : Bool) :
    Option Inserted := do
  let (ready, realLen, prepared) ← buffer.makeRoom heap input.length granted
  let (stored, copied) ← ready.store input realLen
  return ⟨stored, realLen, prepared ++ copied⟩

/-- `MyBuf::GetBufData`: the advanced buffer, the bytes passed over and `RealLen`. -/
def getBufData (buffer : MyBuf) (dataLen : ℤ) : MyBuf × Bytes × ℤ :=
  let realLen := if dataLen > buffer.getBufLen then buffer.getBufLen else dataLen
  ({ buffer with head := buffer.head + realLen }, buffer.bytesAt buffer.head realLen.toNat, realLen)

/-- `MyBuf::GetBufHead`: the unread bytes and their number. -/
def getBufHead (buffer : MyBuf) : Bytes × ℤ :=
  (buffer.bytesAt buffer.head buffer.getBufLen.toNat, buffer.getBufLen)

/-- A call on a buffer, with the outcome of the `realloc` that an insert may make. -/
inductive Call
  | insertData (input : Bytes) (granted : Bool)
  | getBufData (dataLen : ℤ)
  | getBufHead

/-- What a caller learns: the bytes at the returned pointer, and the length. -/
structure Reply where
  bytes : Bytes
  realLen : ℤ
  deriving DecidableEq

/-- The buffer after a call, with the reply and the memory calls. -/
def respond (heap : Heap) (buffer : MyBuf) : Call → Option (MyBuf × Reply × List MemOp)
  | .insertData input granted =>
      (buffer.insertData heap input granted).map fun result =>
        (result.buffer, ⟨[], result.realLen⟩, result.memOps)
  | .getBufData dataLen =>
      let taken := buffer.getBufData dataLen
      some (taken.1, ⟨taken.2.1, taken.2.2⟩, [])
  | .getBufHead => some (buffer, ⟨buffer.getBufHead.1, buffer.getBufHead.2⟩, [])

/-- The buffer after a call. -/
def call (heap : Heap) (buffer : MyBuf) (request : Call) : Option MyBuf :=
  (buffer.respond heap request).map Prod.fst

section Stages

variable {heap : Heap} {buffer next : MyBuf} {input : Bytes} {inputLen realLen : ℤ}
  {granted : Bool} {operations : List MemOp}

/-- The capacity and the number of unread bytes are kept. -/
theorem compact_keeps (compacted : buffer.compact inputLen = some (next, operations)) :
    next.bufSize = buffer.bufSize ∧ next.allocated = buffer.allocated ∧
      next.getBufLen = buffer.getBufLen := by
  by_cases moves : inputLen > buffer.getTailLen ∧ buffer.head ≠ 0
  · rw [compact, if_pos moves, Option.map_eq_some_iff] at compacted
    rcases compacted with ⟨block, found, same⟩
    cases same
    exact ⟨rfl, by simp [allocated, found], by simp [getBufLen]⟩
  · rw [compact, if_neg moves] at compacted
    cases compacted
    exact ⟨rfl, rfl, rfl⟩

/-- Either the input fits and nothing happens, or the loop ends and the block is reallocated. -/
theorem grow_eq_some
    (grown : buffer.grow heap inputLen granted = some (next, realLen, operations)) :
    (inputLen ≤ buffer.getRemainLen ∧ next = buffer ∧ realLen = inputLen ∧ operations = []) ∨
      (inputLen > buffer.getRemainLen ∧ buffer.head = 0 ∧
        operations = [.realloc buffer.head (buffer.getBufLen + inputLen)] ∧
        realLen = (if granted then inputLen else 0) ∧
        next.buf.map Block.size =
          (if granted then some (heap.size (buffer.getBufLen + inputLen) next.bufSize)
            else none) ∧
        next.head = 0 ∧ next.tail = buffer.getBufLen ∧
        doubled (buffer.getBufLen + inputLen) doublingFuel buffer.bufSize =
          some next.bufSize) := by
  by_cases grows : inputLen > buffer.getRemainLen
  · by_cases undefined : buffer.getBufLen + inputLen ≥ 2 ^ 31 ∨ buffer.head ≠ 0
    · simp only [grow, if_pos grows, if_pos undefined] at grown
      cases grown
    · simp only [grow, if_pos grows, if_neg undefined, Option.map_eq_some_iff] at grown
      rcases grown with ⟨size, ended, same⟩
      cases same
      rw [not_or, not_not] at undefined
      refine Or.inr ⟨grows, undefined.2, rfl, rfl, ?_, rfl, rfl, ended⟩
      cases granted
      · rfl
      · rfl
  · rw [grow, if_neg grows] at grown
    cases grown
    exact Or.inl ⟨not_lt.mp grows, rfl, rfl, rfl⟩

/-- Nothing is copied, or the whole length is copied into the block. -/
theorem store_eq_some (stored : buffer.store input realLen = some (next, operations)) :
    (realLen = 0 ∧ next = buffer ∧ operations = []) ∨
      (realLen ≠ 0 ∧ operations = [.memcpy buffer.tail realLen] ∧
        ∃ block, buffer.buf = some block ∧ buffer.tail + realLen ≤ block.size ∧
          next = { buffer with
            buf := some { block with cells := Memory.write block.cells buffer.tail input }
            tail := buffer.tail + realLen }) := by
  by_cases copies : realLen ≠ 0
  · rw [store, if_pos copies, Option.bind_eq_some_iff] at stored
    rcases stored with ⟨block, found, stored⟩
    split_ifs at stored with inside
    cases stored
    exact Or.inr ⟨copies, rfl, block, found, inside, rfl⟩
  · rw [store, if_neg copies] at stored
    cases stored
    exact Or.inl ⟨not_not.mp copies, rfl, rfl⟩

/-- A call that returns has gone through the three stages. -/
theorem insertData_eq_some {result : Inserted}
    (inserted : buffer.insertData heap input granted = some result) :
    ∃ first moved second realLen reallocated third copied,
      buffer.compact input.length = some (first, moved) ∧
      first.grow heap input.length granted = some (second, realLen, reallocated) ∧
      second.store input realLen = some (third, copied) ∧
      result = ⟨third, realLen, moved ++ reallocated ++ copied⟩ := by
  simp only [insertData, makeRoom, bind, Option.bind_eq_some_iff, pure, Option.some.injEq,
    Prod.exists, Prod.mk.injEq] at inserted
  rcases inserted with ⟨ready, realLen, prepared, ⟨first, moved, compacted, second, length,
    reallocated, grown, rfl, rfl, rfl⟩, third, copied, stored, rfl⟩
  exact ⟨first, moved, second, length, reallocated, third, copied, compacted, grown, stored, rfl⟩

end Stages

/-! ## The doubling loop -/

theorem doubled_zero {needLen : ℤ} (positive : 0 < needLen) (fuel : ℕ) :
    doubled needLen fuel 0 = none := by
  induction fuel with
  | zero => rfl
  | succ fuel ih => simpa [doubled, positive, int32] using ih

theorem doubled_succ_of_lt {needLen bufSize : ℤ} (short : bufSize < needLen) (fuel : ℕ) :
    doubled needLen (fuel + 1) bufSize = doubled needLen fuel (int32 (bufSize * 2)) := by
  simp [doubled, short]

theorem doubled_succ_of_le {needLen bufSize : ℤ} (enough : needLen ≤ bufSize) (fuel : ℕ) :
    doubled needLen (fuel + 1) bufSize = some bufSize := by
  simp [doubled, not_lt.mpr enough]

theorem doubled_eq_some {needLen bufSize : ℤ} {fuel : ℕ} (rounds : ℕ) (positive : 0 < bufSize)
    (representable : bufSize < 2 ^ 31) (small : needLen ≤ 2 ^ 30)
    (reaches : needLen ≤ bufSize * 2 ^ rounds) (enough : rounds < fuel) :
    ∃ exponent, doubled needLen fuel bufSize = some (bufSize * 2 ^ exponent) ∧
      needLen ≤ bufSize * 2 ^ exponent ∧ bufSize * 2 ^ exponent < 2 ^ 31 ∧
      ∀ fewer < exponent, bufSize * 2 ^ fewer < needLen := by
  induction rounds generalizing bufSize fuel with
  | zero =>
      rcases fuel with _ | fuel
      · omega
      · have large : needLen ≤ bufSize := by simpa using reaches
        exact ⟨0, by simpa using doubled_succ_of_le large fuel, by simpa using large,
          by simpa using representable, by simp⟩
  | succ rounds ih =>
      rcases fuel with _ | fuel
      · omega
      · rcases lt_or_ge bufSize needLen with short | large
        · have unwrapped : int32 (bufSize * 2) = bufSize * 2 :=
            int32_eq_self ⟨by omega, by omega⟩
          rw [doubled_succ_of_lt short, unwrapped]
          rw [pow_succ', ← mul_assoc] at reaches
          have remaining : rounds < fuel := by omega
          rcases ih (by omega) (by omega) reaches remaining with
            ⟨exponent, found, least, bounded, first⟩
          refine ⟨exponent + 1, ?_, ?_, ?_, ?_⟩
          · rw [found, pow_succ', mul_assoc]
          · rwa [pow_succ', ← mul_assoc]
          · rwa [pow_succ', ← mul_assoc]
          · intro fewer fewer_lt
            rcases fewer with _ | fewer
            · simpa using short
            · rw [pow_succ', ← mul_assoc]
              exact first fewer (by omega)
        · exact ⟨0, by simpa using doubled_succ_of_le large fuel, by simpa using large,
            by simpa using representable, by simp⟩

/-- Up to `2 ^ 30` bytes the loop ends with the least doubling that is large enough. -/
theorem doubled_of_small {needLen bufSize : ℤ} (positive : 0 < bufSize)
    (representable : bufSize < 2 ^ 31) (small : needLen ≤ 2 ^ 30) :
    ∃ exponent, doubled needLen doublingFuel bufSize = some (bufSize * 2 ^ exponent) ∧
      needLen ≤ bufSize * 2 ^ exponent ∧ bufSize * 2 ^ exponent < 2 ^ 31 ∧
      ∀ fewer < exponent, bufSize * 2 ^ fewer < needLen :=
  doubled_eq_some 30 positive representable small (by omega) (by decide)

/-- Beyond `2 ^ 30` bytes a power of two overflows to zero and the loop never ends. -/
theorem doubled_pow_of_large {needLen : ℤ} {exponent : ℕ} (bounded : exponent ≤ 30)
    (large : 2 ^ 30 < needLen) (fuel : ℕ) : doubled needLen fuel (2 ^ exponent) = none := by
  induction fuel generalizing exponent with
  | zero => rfl
  | succ fuel ih =>
      have short : (2 : ℤ) ^ exponent < needLen :=
        lt_of_le_of_lt (pow_le_pow_right₀ (by norm_num) bounded) large
      rw [doubled_succ_of_lt short]
      rcases Nat.lt_or_ge exponent 30 with inside | atTop
      · have next : (2 : ℤ) ^ (exponent + 1) ≤ 2 ^ 30 :=
          pow_le_pow_right₀ (by norm_num) (by omega)
        have positive : (0 : ℤ) < 2 ^ (exponent + 1) := by positivity
        rw [← pow_succ, int32_eq_self ⟨by omega, by omega⟩]
        exact ih (by omega)
      · have top : exponent = 30 := by omega
        subst top
        have wrapped : int32 (2 ^ 30 * 2) = -2 ^ 31 := by decide
        rw [wrapped]
        rcases fuel with _ | fuel
        · rfl
        · have zero : int32 (-2 ^ 31 * 2) = 0 := by decide
          rw [doubled_succ_of_lt (by omega), zero]
          exact doubled_zero (by omega) fuel

theorem doubled_none_pred {needLen bufSize : ℤ} {fuel : ℕ}
    (endless : doubled needLen (fuel + 1) bufSize = none) :
    doubled needLen fuel bufSize = none := by
  induction fuel generalizing bufSize with
  | zero => rfl
  | succ fuel ih =>
      rcases lt_or_ge bufSize needLen with short | large
      · rw [doubled_succ_of_lt short] at endless ⊢
        exact ih endless
      · simp [doubled_succ_of_le large] at endless

theorem doubled_none_of_le {needLen bufSize : ℤ} {fuel more : ℕ} (less : fuel ≤ more)
    (endless : doubled needLen more bufSize = none) : doubled needLen fuel bufSize = none := by
  induction more, less using Nat.le_induction with
  | base => exact endless
  | succ more _ ih => exact ih (doubled_none_pred endless)

theorem doubled_add {needLen bufSize : ℤ} (rounds fuel : ℕ)
    (endless : doubled needLen (rounds + 1) bufSize = none) :
    doubled needLen (rounds + 1 + fuel) bufSize =
      doubled needLen fuel (int32 (bufSize * 2 ^ (rounds + 1))) := by
  induction rounds generalizing fuel with
  | zero =>
      have short : bufSize < needLen := by
        by_contra large
        simp [doubled_succ_of_le (not_lt.mp large)] at endless
      rw [Nat.zero_add, Nat.add_comm, doubled_succ_of_lt short]
      rfl
  | succ rounds ih =>
      have earlier := doubled_none_pred endless
      have here := ih 1 earlier
      rw [endless] at here
      have short : int32 (bufSize * 2 ^ (rounds + 1)) < needLen := by
        by_contra large
        simp [doubled_succ_of_le (not_lt.mp large)] at here
      have split : rounds + 1 + 1 + fuel = rounds + 1 + (fuel + 1) := by omega
      rw [split, ih (fuel + 1) earlier, doubled_succ_of_lt short]
      congr 1
      rw [pow_succ 2 (rounds + 1), ← mul_assoc]
      simp only [int32]
      omega

/-- Running out of the loop's fuel means that the loop never ends. -/
theorem doubled_none_of_doublingFuel {needLen bufSize : ℤ}
    (endless : doubled needLen doublingFuel bufSize = none) (fuel : ℕ) :
    doubled needLen fuel bufSize = none := by
  have atZero := doubled_add 31 1 (doubled_none_pred endless)
  have wrapped : int32 (bufSize * 2 ^ (31 + 1)) = 0 := by
    simp only [int32]
    omega
  rw [wrapped, show 31 + 1 + 1 = doublingFuel from rfl, endless] at atZero
  have positive : 0 < needLen := by
    by_contra large
    simp [doubled_succ_of_le (not_lt.mp large)] at atZero
  apply doubled_none_of_le (Nat.le_add_left fuel (31 + 1))
  rw [doubled_add 31 fuel (doubled_none_pred endless), wrapped]
  exact doubled_zero positive fuel

/-- The doubling loop ends with a capacity that is large enough. -/
theorem needLen_le_doubled {needLen bufSize size : ℤ} {fuel : ℕ}
    (ended : doubled needLen fuel bufSize = some size) : needLen ≤ size := by
  induction fuel generalizing bufSize with
  | zero => cases ended
  | succ fuel ih =>
      rw [doubled] at ended
      split_ifs at ended with short
      · exact ih ended
      · cases ended
        exact not_lt.mp short

/-! ## The queue a buffer represents -/

/-- The buffer holds a queue of bytes between `_Head` and `_Tail`. -/
structure Holds (buffer : MyBuf) (queue : Bytes) : Prop where
  block : ∃ block, buffer.buf = some block ∧
    Memory.read block.cells buffer.head queue.length = queue
  head_nonneg : 0 ≤ buffer.head
  tail_eq : buffer.tail = buffer.head + queue.length
  tail_le_allocated : buffer.tail ≤ buffer.allocated
  allocated_le : buffer.allocated ≤ buffer.bufSize

theorem create_holds {bufSize : ℤ} (nonneg : 0 ≤ bufSize) : (create bufSize).Holds [] where
  block := ⟨_, rfl, rfl⟩
  head_nonneg := le_rfl
  tail_eq := rfl
  tail_le_allocated := Int.natCast_nonneg _
  allocated_le := (Int.toNat_of_nonneg nonneg).le

/-- A block that has grown has the bytes needed, and no more than are recorded. -/
theorem Heap.size_bounds (heap : Heap) {needLen bufSize : ℤ} (nonneg : 0 ≤ needLen)
    (enough : needLen ≤ bufSize) :
    needLen ≤ heap.size needLen bufSize ∧ (heap.size needLen bufSize : ℤ) ≤ bufSize := by
  cases heap with
  | requested =>
      simp only [Heap.size]
      omega
  | recorded =>
      simp only [Heap.size]
      omega

/-- Where an insert that does not grow the buffer copies its input. -/
def storeOffset (buffer : MyBuf) (inputLen : ℤ) : ℤ :=
  if inputLen ≤ buffer.getTailLen then buffer.tail else buffer.getBufLen

namespace Holds

variable {buffer : MyBuf} {queue : Bytes}

theorem getBufLen_eq (holds : buffer.Holds queue) : buffer.getBufLen = queue.length := by
  have := holds.tail_eq
  simp only [getBufLen]
  omega

theorem tail_le (holds : buffer.Holds queue) : buffer.tail ≤ buffer.bufSize :=
  holds.tail_le_allocated.trans holds.allocated_le

theorem bytesAt_take (holds : buffer.Holds queue) {count : ℕ} (short : count ≤ queue.length) :
    buffer.bytesAt buffer.head count = queue.take count := by
  rcases holds.block with ⟨block, found, contents⟩
  simp only [bytesAt, found]
  exact Memory.read_take count short contents

theorem getBufHead_eq (holds : buffer.Holds queue) :
    buffer.getBufHead = (queue, (queue.length : ℤ)) := by
  simp only [getBufHead, holds.getBufLen_eq, Int.toNat_natCast]
  rw [holds.bytesAt_take le_rfl, List.take_length]

/-- Bytes taken off the queue only move `_Head`. -/
theorem getBufData_of_le (holds : buffer.Holds queue) {count : ℕ} (short : count ≤ queue.length) :
    buffer.getBufData count =
        ({ buffer with head := buffer.head + count }, queue.take count, (count : ℤ)) ∧
      Holds { buffer with head := buffer.head + count } (queue.drop count) := by
  have realLen : (if (count : ℤ) > buffer.getBufLen then buffer.getBufLen else count) = count := by
    rw [holds.getBufLen_eq]
    exact if_neg (by omega)
  constructor
  · simp only [getBufData, realLen, Int.toNat_natCast, holds.bytesAt_take short]
  · rcases holds.block with ⟨block, found, contents⟩
    have nonneg := holds.head_nonneg
    have tail_eq := holds.tail_eq
    refine ⟨⟨block, found, Memory.read_drop count short contents⟩, ?_, ?_,
      holds.tail_le_allocated, holds.allocated_le⟩
    · show 0 ≤ buffer.head + count
      omega
    · show buffer.tail = buffer.head + count + ((queue.drop count).length : ℤ)
      rw [List.length_drop]
      omega

/-- The unread bytes stay where they are, or are moved to the front of the block. -/
theorem compact_eq (holds : buffer.Holds queue) (inputLen : ℤ) :
    ∃ next moved, buffer.compact inputLen = some (next, moved) ∧ next.Holds queue ∧
      next.bufSize = buffer.bufSize ∧ next.allocated = buffer.allocated ∧
      next.tail = buffer.storeOffset inputLen ∧
      (buffer.getTailLen < inputLen → next.head = 0) := by
  have nonneg := holds.head_nonneg
  have tail_eq := holds.tail_eq
  have length_eq := holds.getBufLen_eq
  by_cases moves : inputLen > buffer.getTailLen ∧ buffer.head ≠ 0
  · rcases holds.block with ⟨block, found, contents⟩
    have inside := holds.tail_le_allocated
    have offset : buffer.storeOffset inputLen = queue.length := by
      rw [storeOffset, if_neg (not_le.mpr moves.1), length_eq]
    have same : buffer.allocated = block.size := by simp [allocated, found]
    simp only [compact, if_pos moves, found, Option.map_some, length_eq, Int.toNat_natCast, offset]
    refine ⟨_, _, rfl, ⟨⟨_, rfl, ?_⟩, le_rfl, (zero_add _).symm, ?_, ?_⟩, rfl, same.symm, rfl,
      fun _ => rfl⟩
    · rw [Memory.read_move]
      exact contents
    · show (queue.length : ℤ) ≤ block.size
      omega
    · show (block.size : ℤ) ≤ buffer.bufSize
      exact same ▸ holds.allocated_le
  · refine ⟨buffer, [], by simp only [compact, if_neg moves], holds, rfl, rfl, ?_, ?_⟩
    · rw [storeOffset]
      split_ifs with room
      · rfl
      · have atFront : buffer.head = 0 := by
          by_contra inMiddle
          exact moves ⟨not_le.mp room, inMiddle⟩
        omega
    · intro full
      by_contra inMiddle
      exact moves ⟨full, inMiddle⟩

theorem grow_of_fits (holds : buffer.Holds queue) {inputLen : ℕ}
    (fits : queue.length + inputLen ≤ buffer.bufSize) (heap : Heap) (granted : Bool) :
    buffer.grow heap inputLen granted = some (buffer, (inputLen : ℤ), []) := by
  have length_eq := holds.getBufLen_eq
  rw [grow, if_neg]
  simp only [getRemainLen]
  omega

theorem grow_of_exceeds (holds : buffer.Holds queue) {inputLen : ℕ} {size : ℤ} (heap : Heap)
    (exceeds : buffer.bufSize < queue.length + inputLen) (atFront : buffer.head = 0)
    (small : queue.length + inputLen < 2 ^ 31)
    (ended : doubled (queue.length + inputLen) doublingFuel buffer.bufSize = some size) :
    ∃ next reallocated, buffer.grow heap inputLen true = some (next, (inputLen : ℤ), reallocated) ∧
      next.Holds queue ∧ next.bufSize = size ∧
      next.allocated = heap.size (queue.length + inputLen) size ∧ next.tail = queue.length := by
  have length_eq := holds.getBufLen_eq
  have grows : (inputLen : ℤ) > buffer.getRemainLen := by
    simp only [getRemainLen]
    omega
  have defined : ¬((queue.length : ℤ) + inputLen ≥ 2 ^ 31 ∨ buffer.head ≠ 0) := by
    simp only [atFront]
    omega
  have bounds : (queue.length : ℤ) + inputLen ≤ heap.size (queue.length + inputLen) size ∧
      (heap.size (queue.length + inputLen) size : ℤ) ≤ size :=
    heap.size_bounds (by omega) (needLen_le_doubled ended)
  rcases holds.block with ⟨block, found, contents⟩
  simp only [grow, if_pos grows, length_eq, if_neg defined, ended, Option.map_some, if_true]
  refine ⟨_, _, rfl, ⟨⟨_, rfl, ?_⟩, le_rfl, (zero_add _).symm, ?_, bounds.2⟩, rfl, rfl, rfl⟩
  · simpa [found, atFront] using contents
  · show (queue.length : ℤ) ≤ heap.size (queue.length + inputLen) size
    omega

theorem store_eq (holds : buffer.Holds queue) (input : Bytes)
    (room : buffer.tail + input.length ≤ buffer.allocated) :
    ∃ next copied, buffer.store input input.length = some (next, copied) ∧
      next.Holds (queue ++ input) ∧ next.bufSize = buffer.bufSize ∧
      next.allocated = buffer.allocated ∧ next.tail = buffer.tail + input.length := by
  by_cases copies : (input.length : ℤ) ≠ 0
  · rcases holds.block with ⟨block, found, contents⟩
    have tail_eq := holds.tail_eq
    have same : buffer.allocated = block.size := by simp [allocated, found]
    have inside : buffer.tail + input.length ≤ block.size := same ▸ room
    simp only [store, if_pos copies, found, Option.bind_some, if_pos inside]
    refine ⟨_, _, rfl, ⟨⟨_, rfl, ?_⟩, holds.head_nonneg, ?_, inside, ?_⟩, rfl, same.symm, rfl⟩
    · rw [tail_eq]
      exact Memory.read_write_append contents
    · simp only [List.length_append]
      omega
    · show (block.size : ℤ) ≤ buffer.bufSize
      exact same ▸ holds.allocated_le
  · have nothing : input = [] := List.eq_nil_of_length_eq_zero (by omega)
    subst nothing
    exact ⟨buffer, [], by simp [store], by simpa using holds, rfl, rfl, by simp⟩

/-- A copy that would end behind the block does not return. -/
theorem store_eq_none (holds : buffer.Holds queue) {input : Bytes}
    (overrun : buffer.allocated < buffer.tail + input.length) :
    buffer.store input input.length = none := by
  have inside := holds.tail_le_allocated
  have copies : (input.length : ℤ) ≠ 0 := by omega
  rcases holds.block with ⟨block, found, -⟩
  have outside : ¬buffer.tail + input.length ≤ block.size := by
    have same : buffer.allocated = block.size := by simp [allocated, found]
    omega
  simp only [store, if_pos copies, found, Option.bind_some, if_neg outside]

section Insert

variable (heap : Heap) {input : Bytes} (granted : Bool)

/-- An input that fits the capacity is appended if the block has room for it. -/
theorem insertData_of_fits (holds : buffer.Holds queue)
    (fits : queue.length + input.length ≤ buffer.bufSize)
    (room : buffer.storeOffset input.length + input.length ≤ buffer.allocated) :
    ∃ result, buffer.insertData heap input granted = some result ∧
      result.buffer.Holds (queue ++ input) ∧ result.realLen = input.length ∧
      result.buffer.bufSize = buffer.bufSize ∧ result.buffer.allocated = buffer.allocated ∧
      result.buffer.tail = buffer.storeOffset input.length + input.length := by
  rcases holds.compact_eq input.length with
    ⟨first, moved, compacted, firstHolds, firstSize, firstBlock, firstTail, -⟩
  have grown := firstHolds.grow_of_fits (firstSize ▸ fits) heap granted
  rw [← firstTail, ← firstBlock] at room
  rcases firstHolds.store_eq input room with
    ⟨second, copied, stored, secondHolds, secondSize, secondBlock, secondTail⟩
  refine ⟨⟨second, input.length, moved ++ [] ++ copied⟩, ?_, secondHolds, rfl,
    secondSize.trans firstSize, secondBlock.trans firstBlock, by rw [secondTail, firstTail]⟩
  simp only [insertData, makeRoom, compacted, grown, stored, bind, Option.bind, pure]

/-- An input that fits the capacity and not the block is copied behind the end of the block. -/
theorem insertData_of_overrun (holds : buffer.Holds queue)
    (fits : queue.length + input.length ≤ buffer.bufSize)
    (overrun : buffer.allocated < buffer.storeOffset input.length + input.length) :
    buffer.insertData heap input granted = none := by
  rcases holds.compact_eq input.length with
    ⟨first, moved, compacted, firstHolds, firstSize, firstBlock, firstTail, -⟩
  have grown := firstHolds.grow_of_fits (firstSize ▸ fits) heap granted
  rw [← firstTail, ← firstBlock] at overrun
  have outside := firstHolds.store_eq_none overrun
  simp only [insertData, makeRoom, compacted, grown, outside, bind, Option.bind, pure]

/-- The space behind `_Tail` is part of the free space. -/
theorem getTailLen_lt (holds : buffer.Holds queue)
    (exceeds : buffer.bufSize < queue.length + input.length) :
    buffer.getTailLen < input.length := by
  have nonneg := holds.head_nonneg
  have tail_eq := holds.tail_eq
  simp only [getTailLen]
  omega

/-- An input beyond the capacity is appended after the block has grown. -/
theorem insertData_of_exceeds (holds : buffer.Holds queue)
    (exceeds : buffer.bufSize < queue.length + input.length)
    (small : queue.length + input.length < 2 ^ 31) {size : ℤ}
    (ended : doubled (queue.length + input.length) doublingFuel buffer.bufSize = some size) :
    ∃ result, buffer.insertData heap input true = some result ∧
      result.buffer.Holds (queue ++ input) ∧ result.realLen = input.length ∧
      result.buffer.bufSize = size ∧
      result.buffer.allocated = heap.size (queue.length + input.length) size ∧
      result.buffer.tail = queue.length + input.length := by
  rcases holds.compact_eq input.length with
    ⟨first, moved, compacted, firstHolds, firstSize, -, -, atFront⟩
  rw [← firstSize] at ended
  rcases firstHolds.grow_of_exceeds heap (firstSize ▸ exceeds)
      (atFront (holds.getTailLen_lt exceeds)) small ended with
    ⟨second, reallocated, grown, secondHolds, secondSize, secondBlock, secondTail⟩
  have bounds : (queue.length : ℤ) + input.length ≤
      heap.size (queue.length + input.length) size :=
    (heap.size_bounds (by omega) (needLen_le_doubled ended)).1
  rcases secondHolds.store_eq input (by rw [secondTail, secondBlock]; exact bounds) with
    ⟨third, copied, stored, thirdHolds, thirdSize, thirdBlock, thirdTail⟩
  refine ⟨⟨third, input.length, moved ++ reallocated ++ copied⟩, ?_, thirdHolds, rfl,
    thirdSize.trans secondSize, thirdBlock.trans secondBlock, by rw [thirdTail, secondTail]⟩
  simp only [insertData, makeRoom, compacted, grown, stored, bind, Option.bind, pure]

/-- An input for which the doubling loop does not end. -/
theorem insertData_of_endless (holds : buffer.Holds queue)
    (exceeds : buffer.bufSize < queue.length + input.length)
    (endless : doubled (queue.length + input.length) doublingFuel buffer.bufSize = none) :
    buffer.insertData heap input granted = none := by
  rcases holds.compact_eq input.length with
    ⟨first, moved, compacted, firstHolds, firstSize, -, -, -⟩
  have length_eq := firstHolds.getBufLen_eq
  have grows : (input.length : ℤ) > first.getRemainLen := by
    simp only [getRemainLen]
    omega
  have stuck : first.grow heap input.length granted = none := by
    simp only [grow, if_pos grows, length_eq, firstSize, endless, Option.map_none, ite_self]
  simp only [insertData, makeRoom, compacted, stuck, bind, Option.bind]

end Insert

end Holds

end MyBuf

end SimpleModule
