import SimpleModule.Lib.Runs
import SimpleModule.Encrypt.MyBuf

/-!
# The buffer as a queue

The users of `MyBuf` see a queue of bytes: an insert appends its input, `GetBufData`
takes bytes off the front and `GetBufHead` shows them all.  This file shows that every
sequence of calls follows that queue.

`realloc` is called with `_Head`, which is a pointer into the middle of the block unless
the unread bytes have been moved to the front before.  They always have been: an insert
that does not fit the free space as a whole does not fit the space behind `_Tail` either.
The block is taken to be as large as the recorded capacity (`Heap.recorded`).
-/

namespace SimpleModule

open Octets Runs

namespace MyBuf

/-! ## The queue -/

/-- The queue after a call. -/
def queueAfter (queue : Bytes) : Call → Bytes
  | .insertData input _ => queue ++ input
  | .getBufData dataLen => queue.drop dataLen.toNat
  | .getBufHead => queue

/-- The reply of a queue. -/
def queueReply (queue : Bytes) : Call → Reply
  | .insertData input _ => ⟨[], input.length⟩
  | .getBufData dataLen =>
      ⟨queue.take dataLen.toNat, (min dataLen.toNat queue.length : ℕ)⟩
  | .getBufHead => ⟨queue, queue.length⟩

/--
An allocation succeeds and the bytes to keep after an insert number less than `2 ^ 30`;
no negative number of bytes is asked for.
-/
def KeepsBelow (queue : Bytes) : Call → Prop
  | .insertData input granted => granted = true ∧ queue.length + input.length < 2 ^ 30
  | .getBufData dataLen => 0 ≤ dataLen
  | .getBufHead => True

instance (queue : Bytes) (request : Call) : Decidable (KeepsBelow queue request) :=
  match request with
  | .insertData _ _ => inferInstanceAs (Decidable (_ ∧ _))
  | .getBufData _ => inferInstanceAs (Decidable (_ ≤ _))
  | .getBufHead => inferInstanceAs (Decidable True)

/--
The reply is that of the queue, and `realloc` gets the start of the block and a size
larger than the bytes to keep.
-/
def Conforms (queue : Bytes) (request : Call) (answer : Reply × List MemOp) : Prop :=
  answer.1 = queueReply queue request ∧
    ∀ source size, MemOp.realloc source size ∈ answer.2 → source = 0 ∧ queue.length < size

/-- The positions are in order and the bytes between `_Head` and `_Tail` are the queue. -/
structure Represents (buffer : MyBuf) (queue : Bytes) : Prop where
  head_nonneg : 0 ≤ buffer.head
  head_le : buffer.head ≤ buffer.tail
  tail_le : buffer.tail ≤ buffer.bufSize
  contents : buffer.bytesAt buffer.head buffer.getBufLen.toNat = queue

/-- What is kept along a run: the queue, and a block of the recorded capacity, an `int`. -/
structure Keeps (buffer : MyBuf) (queue : Bytes) : Prop where
  holds : buffer.Holds queue
  full : (buffer.allocated : ℤ) = buffer.bufSize
  size_pos : 0 < buffer.bufSize
  size_lt : buffer.bufSize < 2 ^ 31

theorem Keeps.represents {buffer : MyBuf} {queue : Bytes} (keeps : buffer.Keeps queue) :
    buffer.Represents queue := by
  have tail_eq := keeps.holds.tail_eq
  refine ⟨keeps.holds.head_nonneg, by omega, keeps.holds.tail_le, ?_⟩
  exact congrArg Prod.fst keeps.holds.getBufHead_eq

/-! ## The calls -/

section Calls

variable {buffer next : MyBuf} {queue : Bytes}

theorem compact_no_realloc {inputLen : ℤ} {moved : List MemOp}
    (compacted : buffer.compact inputLen = some (next, moved)) (source size : ℤ) :
    MemOp.realloc source size ∉ moved := by
  intro member
  unfold compact at compacted
  split_ifs at compacted with moves
  · rcases Option.map_eq_some_iff.mp compacted with ⟨block, _, same⟩
    cases same
    simp at member
  · cases compacted
    simp at member

theorem store_no_realloc {input : Bytes} {realLen : ℤ} {copied : List MemOp}
    (stored : buffer.store input realLen = some (next, copied)) (source size : ℤ) :
    MemOp.realloc source size ∉ copied := by
  intro member
  rcases store_eq_some stored with ⟨-, -, rfl⟩ | ⟨-, rfl, -⟩
  · simp at member
  · simp at member

theorem grow_realloc {heap : Heap} (holds : buffer.Holds queue) {inputLen realLen : ℤ}
    {granted : Bool} {reallocated : List MemOp}
    (grown : buffer.grow heap inputLen granted = some (next, realLen, reallocated))
    {source size : ℤ} (member : MemOp.realloc source size ∈ reallocated) :
    source = 0 ∧ queue.length < size := by
  rcases grow_eq_some grown with ⟨-, -, -, rfl⟩ | ⟨grows, atFront, rfl, -⟩
  · cases member
  · simp only [List.mem_singleton, MemOp.realloc.injEq] at member
    rcases member with ⟨rfl, rfl⟩
    have length_eq := holds.getBufLen_eq
    have tail_eq := holds.tail_eq
    have tail_le := holds.tail_le
    simp only [getRemainLen] at grows
    exact ⟨atFront, by omega⟩

theorem insertData_realloc {heap : Heap} (holds : buffer.Holds queue) {input : Bytes}
    {granted : Bool} {result : Inserted}
    (inserted : buffer.insertData heap input granted = some result) {source size : ℤ}
    (member : MemOp.realloc source size ∈ result.memOps) : source = 0 ∧ queue.length < size := by
  rcases insertData_eq_some inserted with
    ⟨first, moved, second, realLen, reallocated, third, copied, compacted, grown, stored, rfl⟩
  rcases holds.compact_eq input.length with ⟨front, shifted, same, firstHolds, -⟩
  rw [compacted, Option.some.injEq, Prod.mk.injEq] at same
  rw [← same.1] at firstHolds
  simp only [List.mem_append] at member
  rcases member with (inMoved | inGrown) | inCopied
  · exact absurd inMoved (compact_no_realloc compacted source size)
  · exact grow_realloc firstHolds grown inGrown
  · exact absurd inCopied (store_no_realloc stored source size)

/-- An insert that keeps no more than `2 ^ 30` bytes appends the whole input. -/
theorem Keeps.insertData_eq (keeps : buffer.Keeps queue) {input : Bytes}
    (small : queue.length + input.length ≤ 2 ^ 30) :
    ∃ result, buffer.insertData .recorded input true = some result ∧
      result.realLen = input.length ∧ result.buffer.Keeps (queue ++ input) := by
  have tail_le := keeps.holds.tail_le
  rcases le_or_gt ((queue.length : ℤ) + input.length) buffer.bufSize with fits | exceeds
  · have room : buffer.storeOffset input.length + input.length ≤ buffer.allocated := by
      have length_eq := keeps.holds.getBufLen_eq
      rw [keeps.full, storeOffset]
      split_ifs with behind
      · simp only [getTailLen] at behind
        omega
      · omega
    rcases keeps.holds.insertData_of_fits .recorded true fits room with
      ⟨result, inserted, holds, realLen, sameSize, sameBlock, -⟩
    refine ⟨result, inserted, realLen, ⟨holds, ?_, ?_, ?_⟩⟩
    · rw [sameSize, sameBlock, keeps.full]
    · exact sameSize ▸ keeps.size_pos
    · exact sameSize ▸ keeps.size_lt
  · have needed : (queue.length : ℤ) + input.length ≤ 2 ^ 30 := by omega
    rcases doubled_of_small keeps.size_pos keeps.size_lt needed with
      ⟨exponent, ended, enough, bounded, -⟩
    rcases keeps.holds.insertData_of_exceeds .recorded exceeds (by omega) ended with
      ⟨result, inserted, holds, realLen, size, block, -⟩
    have positive := keeps.size_pos
    refine ⟨result, inserted, realLen, ⟨holds, ?_, ?_, ?_⟩⟩
    · rw [block, size]
      exact Int.toNat_of_nonneg (by omega)
    · omega
    · omega

theorem Holds.getBufData_eq (holds : buffer.Holds queue) (dataLen : ℕ) :
    ∃ head, buffer.getBufData dataLen =
        ({ buffer with head := head }, queue.take dataLen,
          ((min dataLen queue.length : ℕ) : ℤ)) ∧
      Holds { buffer with head := head } (queue.drop dataLen) := by
  rcases Nat.le_total dataLen queue.length with short | long
  · rw [Nat.min_eq_left short]
    exact ⟨_, holds.getBufData_of_le short⟩
  · have whole := holds.getBufData_of_le (le_refl queue.length)
    have same : buffer.getBufData dataLen = buffer.getBufData (queue.length : ℕ) := by
      simp only [getBufData, holds.getBufLen_eq]
      split_ifs with more less
      · rfl
      · rfl
      · omega
      · have equal : dataLen = queue.length := by omega
        rw [equal]
    rw [same, Nat.min_eq_right long, List.take_of_length_le long, List.drop_eq_nil_of_le long]
    exact ⟨_, by simpa using whole⟩

/-- A call that keeps fewer than `2 ^ 30` bytes is answered as the queue would answer it. -/
theorem Keeps.respond_eq (keeps : buffer.Keeps queue) {request : Call}
    (small : KeepsBelow queue request) :
    ∃ next answer, buffer.respond .recorded request = some (next, answer) ∧
      Conforms queue request answer ∧ next.Keeps (queueAfter queue request) := by
  cases request with
  | insertData input granted =>
      rcases small with ⟨rfl, small⟩
      rcases keeps.insertData_eq small.le with ⟨result, inserted, whole, nextKeeps⟩
      refine ⟨result.buffer, (⟨[], result.realLen⟩, result.memOps), ?_, ⟨?_, ?_⟩, nextKeeps⟩
      · simp [respond, inserted]
      · simp [queueReply, whole]
      · intro source size member
        exact insertData_realloc keeps.holds inserted member
  | getBufData dataLen =>
      have count : ((dataLen.toNat : ℕ) : ℤ) = dataLen := Int.toNat_of_nonneg small
      rcases keeps.holds.getBufData_eq dataLen.toNat with ⟨head, taken, nextHolds⟩
      rw [count] at taken
      refine ⟨_, (⟨queue.take dataLen.toNat, (min dataLen.toNat queue.length : ℕ)⟩, []), ?_,
        ⟨rfl, ?_⟩, ⟨nextHolds, keeps.full, keeps.size_pos, keeps.size_lt⟩⟩
      · simp only [respond, taken]
      · intro source size member
        simp at member
  | getBufHead =>
      refine ⟨buffer, (⟨queue, queue.length⟩, []), ?_, ⟨rfl, ?_⟩, keeps⟩
      · simp only [respond, keeps.holds.getBufHead_eq]
      · intro source size member
        simp at member

end Calls

/--
Every sequence of calls on a new buffer that keeps fewer than `2 ^ 30` bytes follows the
queue: the positions stay in order, the unread bytes and all replies are those of the
queue, and `realloc` is only reached with the start of the block and a size larger than
the bytes to keep.
-/
theorem follows_queue {bufSize : ℤ} (positive : 0 < bufSize) (bounded : bufSize < 2 ^ 30)
    {requests : List Call}
    (small : StepsMeet (fun queue request => some (queueAfter queue request)) KeepsBelow []
      requests) :
    Follows (respond .recorded) queueAfter Conforms Represents (create bufSize) [] requests := by
  have initial : (create bufSize).Keeps [] := by
    refine ⟨create_holds positive.le, Int.toNat_of_nonneg positive.le, positive, ?_⟩
    show bufSize < 2 ^ 31
    omega
  have followed :
      Follows (respond .recorded) queueAfter Conforms Keeps (create bufSize) [] requests :=
    follows_of_step (fun keeps allowed => keeps.respond_eq allowed) initial small
  exact followed.imp Keeps.represents

/-- An insert, a read of two of its three bytes, and an insert that grows the buffer. -/
theorem follows_queue_growing :
    Follows (respond .recorded) queueAfter Conforms Represents (create 4) []
      [.insertData [1, 2, 3] true, .getBufData 2, .insertData [4, 5, 6, 7] true, .getBufHead] :=
  follows_queue (by decide) (by decide) (by decide)

end MyBuf

end SimpleModule
