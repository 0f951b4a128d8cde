import SimpleModule.Encrypt.Fifo

/-!
# Refused growth

`InsertData` assigns the result of `realloc` to `_Buf` before it looks at it, after it has
already doubled `_BufSize`.  When `realloc` returns a null pointer, the old block can no
longer be reached, and the recorded capacity belongs to no block.  This file compares the
buffer after such a call with the buffer before it.
-/

namespace SimpleModule

open Octets

namespace MyBuf

/-- What the callers learn from later calls. -/
def replies (heap : Heap) : MyBuf → List Call → Option (List Reply)
  | _, [] => some []
  | buffer, request :: rest => do
      let (next, reply, _) ← buffer.respond heap request
      let later ← replies heap next rest
      return reply :: later

/--
Nothing is lost by a call that has inserted nothing: the capacity, the unread bytes and
all later calls are as if it had not been made.
-/
structure LosesNothing (heap : Heap) (buffer : MyBuf) (result : Inserted) : Prop where
  realLen : result.realLen = 0
  bufSize : result.buffer.bufSize = buffer.bufSize
  unread : result.buffer.getBufHead = buffer.getBufHead
  later : ∀ requests, result.buffer.replies heap requests = buffer.replies heap requests

/-- If the call has asked for memory in vain, nothing is lost. -/
def SurvivesRefusal (heap : Heap) (buffer : MyBuf) (result : Inserted) : Prop :=
  (∃ source size, MemOp.realloc source size ∈ result.memOps) → buffer.LosesNothing heap result

section Refused

variable {heap : Heap} {buffer next : MyBuf} {input : Bytes} {inputLen : ℤ}

theorem grow_refused {realLen : ℤ} {reallocated : List MemOp}
    (grows : inputLen > buffer.getRemainLen)
    (grown : buffer.grow heap inputLen false = some (next, realLen, reallocated)) :
    realLen = 0 ∧ next.buf = none ∧ buffer.bufSize < next.bufSize ∧
      ∃ source size, MemOp.realloc source size ∈ reallocated := by
  rcases grow_eq_some grown with ⟨fits, -⟩ | ⟨-, -, rfl, noLength, noBlock, -, -, ended⟩
  · exact absurd grows (not_lt.mpr fits)
  · have enough := needLen_le_doubled ended
    simp only [getRemainLen] at grows
    exact ⟨noLength, Option.map_eq_none_iff.mp noBlock, by omega, _, _,
      List.mem_singleton_self _⟩

/-- A call that is refused the memory it needs leaves no block and a larger capacity. -/
theorem insertData_refused {result : Inserted}
    (grows : (input.length : ℤ) > buffer.getRemainLen)
    (returned : buffer.insertData heap input false = some result) :
    result.realLen = 0 ∧ result.buffer.buf = none ∧ buffer.bufSize < result.buffer.bufSize ∧
      ∃ source size, MemOp.realloc source size ∈ result.memOps := by
  rcases insertData_eq_some returned with
    ⟨first, moved, second, realLen, reallocated, third, copied, compacted, grown, stored, rfl⟩
  rcases compact_keeps compacted with ⟨sameSize, -, sameLen⟩
  have firstGrows : (input.length : ℤ) > first.getRemainLen := by
    rwa [getRemainLen, sameSize, sameLen]
  rcases grow_refused firstGrows grown with ⟨rfl, lost, larger, source, size, asked⟩
  rw [store, if_neg (by simp)] at stored
  cases stored
  exact ⟨rfl, lost, sameSize ▸ larger, source, size, by simp [asked]⟩

/-- A call whose input fits does not ask for memory. -/
theorem no_realloc_of_fits {result : Inserted}
    (fits : (input.length : ℤ) ≤ buffer.getRemainLen)
    (returned : buffer.insertData heap input false = some result) (source size : ℤ) :
    MemOp.realloc source size ∉ result.memOps := by
  rcases insertData_eq_some returned with
    ⟨first, moved, second, realLen, reallocated, third, copied, compacted, grown, stored, rfl⟩
  rcases compact_keeps compacted with ⟨sameSize, -, sameLen⟩
  have firstFits : ¬(input.length : ℤ) > first.getRemainLen := by
    rwa [getRemainLen, sameSize, sameLen, not_lt]
  rw [grow, if_neg firstFits] at grown
  cases grown
  simp [compact_no_realloc compacted, store_no_realloc stored]

end Refused

/--
A call that returns from an allocator without memory loses nothing exactly if it does not
have to grow.
-/
theorem survivesRefusal_iff_fits {heap : Heap} {buffer : MyBuf} {input : Bytes} {result : Inserted}
    (returned : buffer.insertData heap input false = some result) :
    buffer.SurvivesRefusal heap result ↔ (input.length : ℤ) ≤ buffer.getRemainLen := by
  constructor
  · intro survives
    by_contra grows
    rcases insertData_refused (not_le.mp grows) returned with ⟨-, -, larger, asked⟩
    exact absurd (survives asked).bufSize larger.ne'
  · rintro fits ⟨source, size, asked⟩
    exact absurd asked (no_realloc_of_fits fits returned source size)

theorem survivesRefusal_small_input :
    ∃ result, (create 4).insertData .requested [1, 2, 3] false = some result ∧
      (create 4).SurvivesRefusal .requested result := by
  have returns : ∃ result, (create 4).insertData .requested [1, 2, 3] false = some result :=
    ⟨_, rfl⟩
  rcases returns with ⟨result, returned⟩
  exact ⟨result, returned, (survivesRefusal_iff_fits returned).mpr (by decide)⟩

/--
Two bytes more than a buffer of four with three unread bytes can take: the unread bytes are
gone, and the next byte that would have fitted is stored through a null pointer.
-/
theorem not_survivesRefusal_full :
    ∃ kept result, (create 4).insertData .requested [1, 2, 3] true = some kept ∧
      kept.buffer.insertData .requested [4, 5] false = some result ∧
      result.realLen = 0 ∧ result.buffer.getBufHead = ([], 3) ∧
      kept.buffer.getBufHead = ([1, 2, 3], 3) ∧
      result.buffer.replies .requested [.insertData [6] true] = none ∧
      kept.buffer.replies .requested [.insertData [6] true] = some [⟨[], 1⟩] ∧
      ¬kept.buffer.SurvivesRefusal .requested result := by
  refine ⟨_, _, rfl, rfl, rfl, rfl, rfl, rfl, rfl, ?_⟩
  intro survives
  have same := (survives ⟨0, 5, by decide⟩).bufSize
  exact absurd same (by decide)

end MyBuf

end SimpleModule
