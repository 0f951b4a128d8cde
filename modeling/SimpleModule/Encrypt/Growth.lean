import SimpleModule.Lib.Runs
import SimpleModule.Encrypt.Room

/-!
# The end of the growth loop

`InsertData` doubles the `int` `_BufSize` until it covers the bytes to keep.  Both sizes
that the library starts a buffer with, 1024 and 4096, are powers of two, and a run of calls
never leaves the powers of two up to `2 ^ 30`.  The next doubling wraps to `-2 ^ 31` and
the one after it to zero, where the loop stays.

The runs of this file include calls whose allocation is refused and calls of `GetBufData`
with any length.
-/

namespace SimpleModule

open Octets Runs

namespace MyBuf

/-- `NeedLen`, computed in an `int`. -/
def needLen (buffer : MyBuf) (input : Bytes) : ℤ := int32 (buffer.getBufLen + input.length)

/-- The loop of `InsertData` ends with a capacity that covers the bytes to keep. -/
def GrowthEnds (buffer : MyBuf) (input : Bytes) : Prop :=
  ∃ fuel bufSize, doubled (buffer.needLen input) fuel buffer.bufSize = some bufSize ∧
    buffer.getBufLen + input.length ≤ bufSize

/-- What holds of every buffer in a run that starts with a power of two. -/
structure Grown (buffer : MyBuf) : Prop where
  capacity : ∃ exponent ≤ 30, buffer.bufSize = 2 ^ exponent
  getBufLen_nonneg : 0 ≤ buffer.getBufLen

/-! ## One call -/

section Calls

variable {heap : Heap} {buffer next : MyBuf} {input : Bytes} {granted : Bool}

/-- From a power of two the doubling loop can only end with a power of two. -/
theorem doubled_pow_eq_some {need size : ℤ} {fuel exponent : ℕ} (bounded : exponent ≤ 30)
    (ended : doubled need fuel (2 ^ exponent) = some size) :
    ∃ reached ≤ 30, size = 2 ^ reached := by
  have small : need ≤ 2 ^ 30 := by
    by_contra large
    rw [doubled_pow_of_large bounded (not_le.mp large)] at ended
    cases ended
  induction fuel generalizing exponent with
  | zero => cases ended
  | succ fuel ih =>
      rcases lt_or_ge ((2 : ℤ) ^ exponent) need with short | large
      · have below : exponent < 30 := by
          apply (pow_lt_pow_iff_right₀ (show (1 : ℤ) < 2 by norm_num)).mp
          exact lt_of_lt_of_le short small
        have next : (2 : ℤ) ^ (exponent + 1) ≤ 2 ^ 30 :=
          pow_le_pow_right₀ (by norm_num) below
        have positive : (0 : ℤ) < 2 ^ (exponent + 1) := by positivity
        rw [doubled_succ_of_lt short, ← pow_succ, int32_eq_self ⟨by omega, by omega⟩] at ended
        exact ih below ended
      · rw [doubled_succ_of_le large] at ended
        exact ⟨exponent, bounded, (Option.some.inj ended).symm⟩

/-- The unread bytes are kept, and the capacity is the old one or the result of the loop. -/
theorem grow_keeps {inputLen realLen : ℤ} {reallocated : List MemOp}
    (grown : buffer.grow heap inputLen granted = some (next, realLen, reallocated)) :
    next.getBufLen = buffer.getBufLen ∧ (realLen = inputLen ∨ realLen = 0) ∧
      ((next.bufSize = buffer.bufSize ∧ buffer.getBufLen + inputLen ≤ buffer.bufSize) ∨
        doubled (buffer.getBufLen + inputLen) doublingFuel buffer.bufSize = some next.bufSize) := by
  rcases grow_eq_some grown with
    ⟨fits, rfl, rfl, -⟩ | ⟨-, -, -, length, -, head, tail, ended⟩
  · simp only [getRemainLen] at fits
    exact ⟨rfl, Or.inl rfl, Or.inl ⟨rfl, by omega⟩⟩
  · refine ⟨by rw [getBufLen, head, tail, sub_zero], ?_, Or.inr ended⟩
    cases granted
    · exact Or.inr length
    · exact Or.inl length

theorem store_keeps {realLen : ℤ} {copied : List MemOp}
    (stored : buffer.store input realLen = some (next, copied)) :
    next.bufSize = buffer.bufSize ∧ next.getBufLen = buffer.getBufLen + realLen := by
  rcases store_eq_some stored with ⟨rfl, rfl, -⟩ | ⟨-, -, block, -, -, rfl⟩
  · exact ⟨rfl, (add_zero _).symm⟩
  · exact ⟨rfl, by simp only [getBufLen]; omega⟩

theorem insertData_grown {result : Inserted} (grown : buffer.Grown)
    (inserted : buffer.insertData heap input granted = some result) : result.buffer.Grown := by
  rcases insertData_eq_some inserted with
    ⟨first, moved, second, realLen, reallocated, third, copied, compacted, enlarged, stored, rfl⟩
  rcases compact_keeps compacted with ⟨firstSize, -, firstLen⟩
  rcases grow_keeps enlarged with ⟨secondLen, lengths, sizes⟩
  rcases store_keeps stored with ⟨thirdSize, thirdLen⟩
  have nonneg := grown.getBufLen_nonneg
  refine ⟨?_, ?_⟩
  · show ∃ exponent ≤ 30, third.bufSize = 2 ^ exponent
    rcases grown.capacity with ⟨exponent, bounded, size⟩
    rw [thirdSize]
    rcases sizes with ⟨same, -⟩ | ended
    · exact ⟨exponent, bounded, by rw [same, firstSize, size]⟩
    · rw [firstSize, size] at ended
      exact doubled_pow_eq_some bounded ended
  · show 0 ≤ third.getBufLen
    omega

theorem getBufData_grown (grown : buffer.Grown) (dataLen : ℤ) :
    (buffer.getBufData dataLen).1.Grown := by
  refine ⟨grown.capacity, ?_⟩
  have nonneg := grown.getBufLen_nonneg
  simp only [getBufData, getBufLen] at nonneg ⊢
  split_ifs <;> omega

theorem call_grown {request : Call} (grown : buffer.Grown)
    (called : buffer.call heap request = some next) : next.Grown := by
  cases request with
  | insertData input granted =>
      simp only [call, respond, Option.map_map, Option.map_eq_some_iff] at called
      rcases called with ⟨result, inserted, rfl⟩
      exact insertData_grown grown inserted
  | getBufData dataLen =>
      cases called
      exact getBufData_grown grown dataLen
  | getBufHead =>
      cases called
      exact grown

end Calls

/-! ## Runs -/

theorem create_grown {exponent : ℕ} (bounded : exponent ≤ 30) :
    (create (2 ^ exponent)).Grown :=
  ⟨⟨exponent, bounded, rfl⟩, le_rfl⟩

/-- Every buffer of a run that starts with a power of two. -/
theorem run_grown {heap : Heap} {initial buffer : MyBuf} {requests : List Call}
    (start : initial.Grown) (reached : run (call heap) initial requests = some buffer) :
    buffer.Grown := by
  apply StatesMeet.last _ reached
  apply statesMeet_of_stepsMeet _ start (stepsMeet_of_run reached)
  intro state request next grown _ called
  exact call_grown grown called

theorem Grown.needLen_eq {buffer : MyBuf} {input : Bytes} (grown : buffer.Grown)
    (representable : buffer.getBufLen + input.length ≤ 2 ^ 31 - 1) :
    buffer.needLen input = buffer.getBufLen + input.length := by
  have nonneg := grown.getBufLen_nonneg
  exact int32_eq_self ⟨by omega, by omega⟩

theorem Grown.growthEnds_iff_le {buffer : MyBuf} {input : Bytes} (grown : buffer.Grown)
    (representable : buffer.getBufLen + input.length ≤ 2 ^ 31 - 1) :
    buffer.GrowthEnds input ↔ buffer.getBufLen + input.length ≤ 2 ^ 30 := by
  rcases grown.capacity with ⟨exponent, bounded, size⟩
  have limit : (2 : ℤ) ^ exponent ≤ 2 ^ 30 := pow_le_pow_right₀ (by norm_num) bounded
  have positive : (0 : ℤ) < 2 ^ exponent := by positivity
  rw [GrowthEnds, grown.needLen_eq representable, size]
  constructor
  · rintro ⟨fuel, bufSize, ended, -⟩
    by_contra large
    rw [doubled_pow_of_large bounded (not_le.mp large)] at ended
    cases ended
  · intro small
    rcases doubled_of_small positive (by omega) small with ⟨rounds, ended, enough, -, -⟩
    exact ⟨doublingFuel, _, ended, enough⟩

/-- A call that returns has left the loop. -/
theorem Grown.growthEnds_of_insertData {heap : Heap} {buffer : MyBuf} {input : Bytes}
    {granted : Bool} {result : Inserted} (grown : buffer.Grown)
    (representable : buffer.getBufLen + input.length ≤ 2 ^ 31 - 1)
    (returned : buffer.insertData heap input granted = some result) : buffer.GrowthEnds input := by
  rcases insertData_eq_some returned with
    ⟨first, moved, second, realLen, reallocated, -, -, compacted, enlarged, -, -⟩
  rcases compact_keeps compacted with ⟨sameSize, -, sameLen⟩
  rw [GrowthEnds, grown.needLen_eq representable, ← sameLen, ← sameSize]
  rcases (grow_keeps enlarged).2.2 with ⟨-, fits⟩ | ended
  · exact ⟨1, first.bufSize, doubled_succ_of_le fits 0, fits⟩
  · exact ⟨doublingFuel, second.bufSize, ended, needLen_le_doubled ended⟩

/--
In a buffer that the library has created, whatever has been done with it since, the growth
loop ends for a representable need exactly if the need is at most `2 ^ 30`.
-/
theorem growthEnds_iff (heap : Heap) {initial : ℤ} (size : initial = 1024 ∨ initial = 4096)
    (requests : List Call) {buffer : MyBuf}
    (reached : run (call heap) (create initial) requests = some buffer) {input : Bytes}
    (representable : buffer.getBufLen + input.length ≤ 2 ^ 31 - 1) :
    buffer.GrowthEnds input ↔ buffer.getBufLen + input.length ≤ 2 ^ 30 := by
  have start : (create initial).Grown := by
    rcases size with rfl | rfl
    · exact create_grown (show 10 ≤ 30 by decide)
    · exact create_grown (show 12 ≤ 30 by decide)
  exact (run_grown start reached).growthEnds_iff_le representable

/-- One byte is left of three, and 2000 more make 1024 bytes of capacity grow. -/
theorem growthEnds_after_taking : ∃ buffer,
    run (call .requested) (create 1024) [.insertData [1, 2, 3] true, .getBufData 2] =
        some buffer ∧
      buffer.getBufLen + (List.replicate 2000 (0 : Byte)).length ≤ 2 ^ 31 - 1 ∧
      buffer.GrowthEnds (List.replicate 2000 0) := by
  have length : (List.replicate 2000 (0 : Byte)).length = 2000 := List.length_replicate
  refine ⟨_, rfl, ?_, (growthEnds_iff .requested (Or.inl rfl)
    [.insertData [1, 2, 3] true, .getBufData 2] rfl ?_).mpr ?_⟩
  all_goals
    rw [length]
    decide

/-- Once `2 ^ 30` bytes are kept, no further byte can be inserted. -/
theorem Stores.endless_of_full {initial : MyBuf} {front input : Bytes} (heap : Heap)
    (empty : initial.Stores []) (short : initial.room.bufSize < 2 ^ 30)
    (full : front.length = 2 ^ 30) (more : 0 < input.length)
    (representable : front.length + input.length ≤ 2 ^ 31 - 1) :
    ∃ buffer, run (call heap) initial [.insertData front true] = some buffer ∧
      buffer.getBufLen = front.length ∧ ¬buffer.GrowthEnds input ∧
      ∀ granted, buffer.insertData heap input granted = none := by
  have takes : initial.room.Takes front.length := by
    have nothing : initial.room.kept = 0 := empty.room_kept
    rw [Room.takes_of_exceeds (by omega), nothing, full, zero_add]
    exact le_rfl
  rcases empty.insertData_eq heap takes with ⟨result, inserted, stores, -⟩
  have reached : run (call heap) initial [.insertData front true] = some result.buffer := by
    simp [run_cons, call, respond, inserted]
  have start : initial.Grown := ⟨empty.capacity, by simp [empty.getBufLen_eq]⟩
  have grown := run_grown start reached
  have kept : result.buffer.getBufLen = front.length := stores.getBufLen_eq
  have fits : result.buffer.getBufLen + input.length ≤ 2 ^ 31 - 1 := by omega
  have endless : ¬result.buffer.GrowthEnds input := by
    rw [grown.growthEnds_iff_le fits]
    omega
  refine ⟨result.buffer, reached, kept, endless, ?_⟩
  intro granted
  apply Option.eq_none_iff_forall_ne_some.mpr
  intro next returned
  exact endless (grown.growthEnds_of_insertData fits returned)

/-- The byte after the first `2 ^ 30` bytes is well within `int`, and `InsertData` never returns. -/
theorem growth_never_ends : ∃ buffer,
    run (call .requested) (create 1024) [.insertData (List.replicate (2 ^ 30) 0) true] =
        some buffer ∧
      buffer.getBufLen + ([0] : Bytes).length ≤ 2 ^ 31 - 1 ∧ ¬buffer.GrowthEnds [0] ∧
      ∀ granted, buffer.insertData .requested [0] granted = none := by
  have start : (create 1024).Stores [] := create_stores (show 10 ≤ 30 by decide)
  have more : 0 < ([0] : Bytes).length := by decide
  have full : (List.replicate (2 ^ 30) (0 : Byte)).length = 2 ^ 30 := List.length_replicate
  rcases start.endless_of_full .requested (by decide) full more
    (by rw [full]; decide) with ⟨buffer, reached, kept, endless, stuck⟩
  refine ⟨buffer, reached, ?_, endless, stuck⟩
  rw [kept, full]
  decide

end MyBuf

end SimpleModule
