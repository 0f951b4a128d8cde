import SimpleModule.Lib.Runs
import SimpleModule.Encrypt.MyBuf

/-!
# Recorded capacity against the allocated block

`InsertData` doubles `_BufSize` until it covers the bytes to keep, but asks
`realloc` for exactly these bytes.  The recorded capacity therefore exceeds the
block unless the bytes to keep happen to be a doubling of the old capacity.  A
later insert that fits the recorded capacity then writes past the block.

The development follows every run of `InsertData` and `GetBufData` calls.
`Usable` is the invariant of such runs, `makeRoom_cases` says once what an insert
can do before it copies, and the condition of the last section is exact.
-/

namespace SimpleModule

open Octets Runs

namespace MyBuf

/-- An allocation succeeds, and the bytes to keep after an insert number less than `2 ^ 30`. -/
def SizeBelow (buffer : MyBuf) : Call → Prop
  | .insertData input granted => granted = true ∧ buffer.getBufLen + input.length < 2 ^ 30
  | .getBufData _ => True
  | .getBufHead => True

instance (buffer : MyBuf) (request : Call) : Decidable (buffer.SizeBelow request) :=
  match request with
  | .insertData _ _ => inferInstanceAs (Decidable (_ ∧ _))
  | .getBufData _ => inferInstanceAs (Decidable True)
  | .getBufHead => inferInstanceAs (Decidable True)

/-- What holds of every buffer in a run, whatever `GetBufData` is asked for. -/
structure Usable (buffer : MyBuf) : Prop where
  size_pos : 0 < buffer.bufSize
  size_lt : buffer.bufSize < 2 ^ 31
  block : buffer.buf.isSome
  tail_nonneg : 0 ≤ buffer.tail
  tail_le : buffer.tail ≤ buffer.bufSize
  head_le : buffer.head ≤ buffer.tail

theorem Usable.getBufLen_nonneg {buffer : MyBuf} (usable : buffer.Usable) :
    0 ≤ buffer.getBufLen := by
  have := usable.head_le
  simp only [getBufLen]
  omega

theorem create_usable {bufSize : ℤ} (positive : 0 < bufSize) (bounded : bufSize < 2 ^ 30) :
    (create bufSize).Usable where
  size_pos := positive
  size_lt := by simp only [create]; omega
  block := rfl
  tail_nonneg := le_rfl
  tail_le := by simp only [create]; omega
  head_le := le_rfl

theorem getBufData_usable {buffer : MyBuf} (usable : buffer.Usable) (dataLen : ℤ) :
    (buffer.getBufData dataLen).1.Usable where
  size_pos := usable.size_pos
  size_lt := usable.size_lt
  block := usable.block
  tail_nonneg := usable.tail_nonneg
  tail_le := usable.tail_le
  head_le := by
    have := usable.head_le
    simp only [getBufData, getBufLen]
    split_ifs <;> omega

theorem compact_cases {buffer next : MyBuf} {inputLen : ℤ} {moved : List MemOp}
    (usable : buffer.Usable) (compacted : buffer.compact inputLen = some (next, moved)) :
    next.buf.isSome ∧ 0 ≤ next.tail ∧ next.head ≤ next.tail ∧
      (inputLen ≤ next.getTailLen ∨ next.head = 0) := by
  have head_le := usable.head_le
  have tail_nonneg := usable.tail_nonneg
  by_cases moves : inputLen > buffer.getTailLen ∧ buffer.head ≠ 0
  · rw [compact, if_pos moves, Option.map_eq_some_iff] at compacted
    rcases compacted with ⟨block, -, same⟩
    cases same
    refine ⟨rfl, ?_, ?_, Or.inr rfl⟩
    · simp only [getBufLen]
      omega
    · simp only [getBufLen]
      omega
  · rw [compact, if_neg moves] at compacted
    cases compacted
    refine ⟨usable.block, tail_nonneg, head_le, ?_⟩
    by_contra neither
    rw [not_or] at neither
    exact moves ⟨not_le.mp neither.1, neither.2⟩

theorem grow_cases {buffer next : MyBuf} {inputLen realLen : ℤ} {reallocated : List MemOp}
    (positive : 0 < buffer.bufSize) (representable : buffer.bufSize < 2 ^ 31)
    (small : buffer.getBufLen + inputLen < 2 ^ 30)
    (grown : buffer.grow .requested inputLen true = some (next, realLen, reallocated)) :
    realLen = inputLen ∧
      ((buffer.getBufLen + inputLen ≤ buffer.bufSize ∧ next = buffer) ∨
        (buffer.bufSize < buffer.getBufLen + inputLen ∧
          next.allocated = (buffer.getBufLen + inputLen).toNat ∧ next.buf.isSome ∧
          next.head = 0 ∧ next.tail = buffer.getBufLen ∧ next.bufSize < 2 ^ 31 ∧
          ∃ exponent, next.bufSize = buffer.bufSize * 2 ^ exponent ∧
            buffer.getBufLen + inputLen ≤ next.bufSize ∧
            ∀ fewer < exponent, buffer.bufSize * 2 ^ fewer < buffer.getBufLen + inputLen)) := by
  rcases grow_eq_some grown with
    ⟨fits, rfl, rfl, rfl⟩ | ⟨grows, -, rfl, rfl, block, head, tail, ended⟩
  · simp only [getRemainLen] at fits
    exact ⟨rfl, Or.inl ⟨by omega, rfl⟩⟩
  · rcases doubled_of_small positive representable small.le with
      ⟨exponent, reached, large, bounded, first⟩
    rw [ended, Option.some.injEq] at reached
    rw [if_pos rfl] at block
    simp only [getRemainLen] at grows
    refine ⟨rfl, Or.inr ⟨by omega, ?_, ?_, head, tail, ?_, exponent, reached, ?_, first⟩⟩
    · rw [allocated, block, Option.getD_some]
      rfl
    · rcases Option.map_eq_some_iff.mp block with ⟨cells, found, -⟩
      rw [found, Option.isSome_some]
    · rwa [reached]
    · rwa [reached]

/-- Everything that happens to the capacity, the block and the positions before the copy. -/
theorem makeRoom_cases {buffer ready : MyBuf} {inputLen realLen : ℤ} {prepared : List MemOp}
    (usable : buffer.Usable) (small : buffer.getBufLen + inputLen < 2 ^ 30)
    (made : buffer.makeRoom .requested inputLen true = some (ready, realLen, prepared)) :
    realLen = inputLen ∧ ready.buf.isSome ∧ 0 < ready.bufSize ∧ ready.bufSize < 2 ^ 31 ∧
      0 ≤ ready.tail ∧ ready.head ≤ ready.tail ∧ ready.tail + inputLen ≤ ready.bufSize ∧
      ((buffer.getBufLen + inputLen ≤ buffer.bufSize ∧ ready.bufSize = buffer.bufSize ∧
          ready.allocated = buffer.allocated) ∨
        (buffer.bufSize < buffer.getBufLen + inputLen ∧
          ready.allocated = (buffer.getBufLen + inputLen).toNat ∧ ready.tail = buffer.getBufLen ∧
          ∃ exponent, ready.bufSize = buffer.bufSize * 2 ^ exponent ∧
            buffer.getBufLen + inputLen ≤ ready.bufSize ∧
            ∀ fewer < exponent, buffer.bufSize * 2 ^ fewer < buffer.getBufLen + inputLen)) := by
  simp only [makeRoom, bind, Option.bind_eq_some_iff, pure, Option.some.injEq, Prod.exists,
    Prod.mk.injEq] at made
  rcases made with ⟨first, moved, compacted, second, length, reallocated, grown, rfl, rfl, rfl⟩
  rcases compact_keeps compacted with ⟨firstSize, firstBlock, firstLen⟩
  rcases compact_cases usable compacted with ⟨present, tail_nonneg, head_le, front⟩
  have positive := usable.size_pos
  have representable := usable.size_lt
  have nonneg := usable.getBufLen_nonneg
  rw [← firstLen, ← firstSize, ← firstBlock]
  rw [← firstSize] at positive representable
  rw [← firstLen] at small nonneg
  rcases grow_cases positive representable small grown with ⟨rfl, outcome⟩
  refine ⟨rfl, ?_⟩
  rcases outcome with ⟨fits, rfl⟩ | ⟨short, block, found, head, tail, bounded, exponent, size,
    large, least⟩
  · refine ⟨present, positive, representable, tail_nonneg, head_le, ?_, Or.inl ⟨fits, rfl, rfl⟩⟩
    simp only [getBufLen, getTailLen] at fits front
    omega
  · refine ⟨found, by omega, bounded, by omega, by omega, by omega,
      Or.inr ⟨short, block, tail, exponent, size, large, least⟩⟩

/-- What an insert has done once it has copied its input. -/
theorem insertData_cases {buffer : MyBuf} {input : Bytes} {result : Inserted}
    (inserted : buffer.insertData .requested input true = some result) :
    ∃ ready realLen prepared,
      buffer.makeRoom .requested input.length true = some (ready, realLen, prepared) ∧
      result.buffer.bufSize = ready.bufSize ∧ result.buffer.allocated = ready.allocated ∧
      result.buffer.buf.isSome = ready.buf.isSome ∧ result.buffer.head = ready.head ∧
      result.buffer.tail = ready.tail + realLen := by
  simp only [insertData, bind, Option.bind_eq_some_iff, pure, Option.some.injEq,
    Prod.exists] at inserted
  rcases inserted with ⟨ready, realLen, prepared, made, stored, copied, copies, rfl⟩
  refine ⟨ready, realLen, prepared, made, ?_⟩
  rcases store_eq_some copies with ⟨rfl, rfl, -⟩ | ⟨-, -, block, found, -, rfl⟩
  · exact ⟨rfl, rfl, rfl, rfl, (add_zero _).symm⟩
  · exact ⟨rfl, by simp [allocated, found], by simp [found], rfl, rfl⟩

theorem insertData_usable {buffer : MyBuf} {input : Bytes} {result : Inserted}
    (usable : buffer.Usable) (small : buffer.getBufLen + input.length < 2 ^ 30)
    (inserted : buffer.insertData .requested input true = some result) :
    result.buffer.Usable := by
  rcases insertData_cases inserted with ⟨ready, realLen, prepared, made, size, -, present, head,
    tail⟩
  rcases makeRoom_cases usable small made with
    ⟨rfl, found, positive, representable, tail_nonneg, head_le, room, -⟩
  exact {
    size_pos := by omega
    size_lt := by omega
    block := present.trans found
    tail_nonneg := by omega
    tail_le := by omega
    head_le := by omega }

theorem call_usable {buffer next : MyBuf} {request : Call} (usable : buffer.Usable)
    (small : buffer.SizeBelow request) (called : buffer.call .requested request = some next) :
    next.Usable := by
  cases request with
  | insertData input granted =>
      rcases small with ⟨rfl, small⟩
      simp only [call, respond, Option.map_map, Option.map_eq_some_iff] at called
      rcases called with ⟨result, inserted, rfl⟩
      exact insertData_usable usable small inserted
  | getBufData dataLen =>
      cases called
      exact getBufData_usable usable dataLen
  | getBufHead =>
      cases called
      exact usable

/-! ## Runs -/

/-- The recorded capacity is at most the number of bytes last requested for the block. -/
def CapacityWithinBlock (buffer : MyBuf) : Prop := buffer.bufSize ≤ buffer.allocated

instance (buffer : MyBuf) : Decidable buffer.CapacityWithinBlock :=
  inferInstanceAs (Decidable (_ ≤ _))

/-- The `memcpy` that an insert comes to writes only offsets below the allocated size. -/
def StoresInside (buffer : MyBuf) : Call → Prop
  | .insertData input granted => ∀ ready realLen prepared,
      buffer.makeRoom .requested input.length granted = some (ready, realLen, prepared) →
        realLen ≠ 0 → 0 ≤ ready.tail ∧ ready.tail + realLen ≤ ready.allocated
  | .getBufData _ => True
  | .getBufHead => True

/-- An insert that has to grow reallocates a block whose unread bytes are at its front. -/
def ReallocatesBlock (buffer : MyBuf) (input : Bytes) : Prop :=
  buffer.bufSize < buffer.getBufLen + input.length ∧ buffer.getTailLen < input.length

/--
An insert that reallocates the block needs exactly a doubling of the capacity.  The
inserts that grow in spite of room behind `_Tail` are left out: a negative `DataLen`
has put `_Head` in front of the block, and `realloc` has no meaning for it.
-/
def GrowsExactly (buffer : MyBuf) : Call → Prop
  | .insertData input _ => buffer.ReallocatesBlock input →
      ∃ exponent : ℕ, buffer.getBufLen + input.length = buffer.bufSize * 2 ^ exponent
  | .getBufData _ => True
  | .getBufHead => True

theorem makeRoom_eq_none_of_room {buffer : MyBuf} {input : Bytes} (usable : buffer.Usable)
    (short : buffer.bufSize < buffer.getBufLen + input.length)
    (room : input.length ≤ buffer.getTailLen) :
    buffer.makeRoom .requested input.length true = none := by
  have stays : ¬((input.length : ℤ) > buffer.getTailLen ∧ buffer.head ≠ 0) :=
    fun moves => absurd room (not_le.mpr moves.1)
  have grows : (input.length : ℤ) > buffer.getRemainLen := by
    simp only [getRemainLen]
    omega
  have outside : buffer.getBufLen + input.length ≥ 2 ^ 31 ∨ buffer.head ≠ 0 := by
    have tail_le := usable.tail_le
    simp only [getBufLen, getTailLen] at short room
    omega
  simp only [makeRoom, compact, if_neg stays, grow, if_pos grows, if_pos outside, bind,
    Option.bind]

/-- Right after its block has grown a buffer has room for the input. -/
theorem insertData_of_reallocatesBlock {buffer : MyBuf} {input : Bytes} (usable : buffer.Usable)
    (small : buffer.getBufLen + input.length < 2 ^ 30)
    (reallocates : buffer.ReallocatesBlock input) :
    ∃ result, buffer.insertData .requested input true = some result := by
  rcases Option.isSome_iff_exists.mp usable.block with ⟨block, found⟩
  have front : ∃ first moved, buffer.compact input.length = some (first, moved) ∧
      first.head = 0 := by
    by_cases atFront : buffer.head = 0
    · exact ⟨buffer, [], by simp [compact, atFront], atFront⟩
    · have moves : (input.length : ℤ) > buffer.getTailLen ∧ buffer.head ≠ 0 :=
        ⟨reallocates.2, atFront⟩
      simp only [compact, if_pos moves, found, Option.map_some]
      exact ⟨_, _, rfl, rfl⟩
  rcases front with ⟨first, moved, compacted, atFront⟩
  rcases compact_keeps compacted with ⟨sameSize, -, sameLen⟩
  have grows : (input.length : ℤ) > first.getRemainLen := by
    have short := reallocates.1
    simp only [getRemainLen, sameSize, sameLen]
    omega
  have defined : ¬(first.getBufLen + input.length ≥ 2 ^ 31 ∨ first.head ≠ 0) := by
    simp only [atFront, sameLen]
    omega
  have inside : first.getBufLen + input.length ≤ ((first.getBufLen + input.length).toNat : ℤ) :=
    Int.self_le_toNat _
  rcases doubled_of_small (sameSize ▸ usable.size_pos) (sameSize ▸ usable.size_lt)
    (sameLen ▸ small.le) with ⟨exponent, ended, -, -, -⟩
  simp only [insertData, makeRoom, compacted, grow, if_pos grows, if_neg defined, ended, bind,
    Option.bind, Option.map_some, if_true, store, Heap.size, if_pos inside, pure]
  split_ifs <;> exact ⟨_, rfl⟩

theorem call_capacityWithinBlock {buffer next : MyBuf} {request : Call} (usable : buffer.Usable)
    (small : buffer.SizeBelow request) (within : buffer.CapacityWithinBlock)
    (exact : buffer.GrowsExactly request)
    (called : buffer.call .requested request = some next) : next.CapacityWithinBlock := by
  cases request with
  | getBufData dataLen =>
      cases called
      exact within
  | getBufHead =>
      cases called
      exact within
  | insertData input granted =>
      rcases small with ⟨rfl, small⟩
      simp only [call, respond, Option.map_map, Option.map_eq_some_iff] at called
      rcases called with ⟨result, inserted, rfl⟩
      unfold CapacityWithinBlock at within ⊢
      rcases insertData_cases inserted with ⟨ready, realLen, prepared, made, size, block, -⟩
      simp only [Function.comp_apply, size, block]
      rcases (makeRoom_cases usable small made).2.2.2.2.2.2.2 with
        ⟨-, sameSize, sameBlock⟩ | ⟨short, grown, -, exponent, newSize, large, least⟩
      · rwa [sameSize, sameBlock]
      · have full : buffer.getTailLen < input.length := by
          by_contra room
          rw [makeRoom_eq_none_of_room usable short (not_lt.mp room)] at made
          cases made
        rcases exact ⟨short, full⟩ with ⟨wanted, needed⟩
        have enough : exponent ≤ wanted := by
          by_contra fewer
          have := least wanted (by omega)
          omega
        have fewer : buffer.bufSize * 2 ^ exponent ≤ buffer.bufSize * 2 ^ wanted :=
          mul_le_mul_of_nonneg_left (pow_le_pow_right₀ (by norm_num) enough) usable.size_pos.le
        omega

theorem growsExactly_of_call {buffer : MyBuf} {request : Call} (usable : buffer.Usable)
    (small : buffer.SizeBelow request)
    (within : ∀ next, buffer.call .requested request = some next → next.CapacityWithinBlock) :
    buffer.GrowsExactly request := by
  cases request with
  | getBufData dataLen => trivial
  | getBufHead => trivial
  | insertData input granted =>
      rcases small with ⟨rfl, small⟩
      intro reallocates
      rcases insertData_of_reallocatesBlock usable small reallocates with ⟨result, inserted⟩
      have bounded := within result.buffer (by simp [call, respond, inserted])
      unfold CapacityWithinBlock at bounded
      rcases insertData_cases inserted with ⟨ready, realLen, prepared, made, size, block, -⟩
      rcases (makeRoom_cases usable small made).2.2.2.2.2.2.2 with
        ⟨fits, -, -⟩ | ⟨short, grown, -, exponent, newSize, large, -⟩
      · exact absurd fits (not_le.mpr reallocates.1)
      · have nonneg := usable.getBufLen_nonneg
        exact ⟨exponent, by omega⟩

/-- As long as the capacity is within the block, so is what an insert writes. -/
theorem storesInside_of_within {buffer : MyBuf} {request : Call} (usable : buffer.Usable)
    (small : buffer.SizeBelow request) (within : buffer.CapacityWithinBlock) :
    buffer.StoresInside request := by
  cases request with
  | getBufData dataLen => trivial
  | getBufHead => trivial
  | insertData input granted =>
      rcases small with ⟨rfl, small⟩
      intro ready realLen prepared made _
      unfold CapacityWithinBlock at within
      rcases makeRoom_cases usable small made with
        ⟨rfl, -, -, -, tail_nonneg, -, room, ⟨-, sameSize, sameBlock⟩ | ⟨-, grown, tail, -⟩⟩
      · exact ⟨tail_nonneg, by omega⟩
      · exact ⟨tail_nonneg, by omega⟩

/--
Along a run of calls the recorded capacity stays within the block and every store
stays inside it exactly when every insert of the run grows exactly.
-/
theorem capacity_within_block_iff_growsExactly {bufSize : ℤ} (positive : 0 < bufSize)
    (bounded : bufSize < 2 ^ 30) (requests : List Call)
    (sizes : StepsMeet (call .requested) SizeBelow (create bufSize) requests) :
    (StatesMeet (call .requested) CapacityWithinBlock (create bufSize) requests ∧
        StepsMeet (call .requested) StoresInside (create bufSize) requests) ↔
      StepsMeet (call .requested) GrowsExactly (create bufSize) requests := by
  have usable : StatesMeet (call .requested) Usable (create bufSize) requests :=
    statesMeet_of_stepsMeet call_usable (create_usable positive bounded) sizes
  constructor
  · rintro ⟨within, -⟩
    exact stepsMeet_of_statesMeet
      (fun state small next => growsExactly_of_call state.1 small fun _ called => (next _ called).2)
      (usable.and within) sizes
  · intro exact
    have initial : (create bufSize).Usable ∧ (create bufSize).CapacityWithinBlock := by
      refine ⟨create_usable positive bounded, ?_⟩
      simp only [CapacityWithinBlock, create, allocated, Option.map_some, Option.getD_some]
      omega
    have within : StatesMeet (call .requested)
        (fun buffer => buffer.Usable ∧ buffer.CapacityWithinBlock) (create bufSize) requests :=
      statesMeet_of_stepsMeet
        (fun state condition called =>
          ⟨call_usable state.1 condition.1 called,
            call_capacityWithinBlock state.1 condition.1 state.2 condition.2 called⟩)
        initial (sizes.and exact)
    refine ⟨within.imp fun state => state.2, ?_⟩
    exact stepsMeet_of_statesMeet
      (fun state small _ => storesInside_of_within state.1 small state.2) within sizes

/-- Four bytes of capacity, three bytes kept and then exactly eight. -/
theorem capacity_within_block_of_exact_doubling :
    StatesMeet (call .requested) CapacityWithinBlock (create 4)
        [.insertData [1, 2, 3] true, .insertData [4, 5, 6, 7, 8] true] ∧
      StepsMeet (call .requested) StoresInside (create 4)
        [.insertData [1, 2, 3] true, .insertData [4, 5, 6, 7, 8] true] :=
  (capacity_within_block_iff_growsExactly (by decide) (by decide)
    [.insertData [1, 2, 3] true, .insertData [4, 5, 6, 7, 8] true]
    (.cons rfl (by decide) (.cons rfl (by decide) trivial))).mpr
    (.cons rfl (fun reallocates => absurd reallocates.1 (by decide))
      (.cons rfl (fun _ => ⟨1, by decide⟩) trivial))

/--
Five bytes inserted into four bytes of capacity record eight bytes for a block of
five; two more bytes then fit the capacity and would be stored past the block.
-/
theorem capacity_exceeds_block :
    ¬StatesMeet (call .requested) CapacityWithinBlock (create 4)
        [.insertData [1, 2, 3, 4, 5] true, .insertData [6, 7] true] ∧
      ¬StepsMeet (call .requested) StoresInside (create 4)
        [.insertData [1, 2, 3, 4, 5] true, .insertData [6, 7] true] := by
  constructor
  · intro states
    have grown := (states.2 _ rfl).head
    exact absurd grown (by decide)
  · intro steps
    have second := (steps.2 _ rfl).1 _ 2 [] rfl (by decide)
    exact absurd second.2 (by decide)

end MyBuf

end SimpleModule
