import SimpleModule.Protocol.StackUse

/-!
# Buffers for formats

Each format that accepts a buffer at all gets a sample: bytes that it unpacks a value from,
whatever comes behind them.  A sample says what the value leaves on the stack, so that the
samples of the parts of a table or an array are put together to one for the whole.
-/

namespace SimpleModule

open Octets Exits

namespace FcallArg

/-! ## What a value leaves on the stack -/

/-- One value, or a table with other tables that are still open above it. -/
inductive ValueAbove (below : List LuaValue) : ℕ → List LuaValue → Prop
  | single (value : LuaValue) : ValueAbove below 0 (value :: below)
  | tables {left : ℕ} {stack : List LuaValue} (filling : Filling below (left + 1) stack) :
      ValueAbove below left stack

section Shapes

variable {below lower stack : List LuaValue} {depth left : ℕ}

theorem Filling.height (filling : Filling below depth stack) :
    below.length + (2 * depth - 1) = stack.length := by
  have length := filling.length
  cases filling with
  | root fields => rfl
  | nested key fields outer => omega

theorem Filling.depth_pos (filling : Filling below depth stack) : 0 < depth := by
  cases filling with
  | root fields => exact Nat.one_pos
  | nested key fields outer => exact Nat.succ_pos _

/-- Tables that are being filled above the key for an open table. -/
theorem Filling.above {key : LuaKey} (filling : Filling (key.toValue :: lower) left stack)
    (outer : Filling below depth lower) : Filling below (depth + left) stack := by
  induction filling with
  | root fields => exact .nested key fields outer
  | nested inner fields _ ih => exact .nested inner fields ih

theorem ValueAbove.exists_single (above : ValueAbove below 0 stack) :
    ∃ value, stack = value :: below := by
  cases above with
  | single value => exact ⟨value, rfl⟩
  | tables filling =>
      cases filling with
      | root fields => exact ⟨.table fields, rfl⟩
      | nested key fields outer => exact absurd outer.depth_pos (lt_irrefl 0)

theorem ValueAbove.length_eq (above : ValueAbove below left stack) :
    stack.length = below.length + (2 * left + 1) := by
  cases above with
  | single value => rfl
  | tables filling =>
      have length := filling.length
      omega

/-- What is above a key ends with a value and its key. -/
theorem ValueAbove.exists_entry {key : LuaKey}
    (above : ValueAbove (key.toValue :: lower) left stack) :
    ∃ (value : LuaValue) (entry : LuaKey) (upper : List LuaValue),
      stack = value :: entry.toValue :: (upper ++ lower) ∧ upper.length = 2 * left := by
  cases above with
  | single value => exact ⟨value, key, [], rfl, rfl⟩
  | tables filling =>
      cases filling with
      | root fields => exact ⟨.table fields, key, [], rfl, rfl⟩
      | @nested depth stack entry fields outer =>
          rcases outer.below_suffix with ⟨upper, rfl⟩
          have height := outer.length
          rw [List.length_append, List.length_cons] at height
          refine ⟨.table fields, entry, upper ++ [key.toValue], by simp, ?_⟩
          rw [List.length_append, List.length_singleton]
          omega

/-- Storing what a value has left in the table below it. -/
theorem ValueAbove.store {key : LuaKey} {fields : List (LuaKey × LuaValue)} {rest : List LuaValue}
    (above : ValueAbove (key.toValue :: .table fields :: rest) left stack)
    (outer : Filling below depth (.table fields :: rest)) (out : Bytes)
    (calls : List (LuaValue × List LuaValue)) :
    ∃ final, Filling below (depth + left) final ∧
      Lua.rawset (-3) ⟨stack, out, calls⟩ = (.ret (), ⟨final, out, calls⟩) := by
  have addressed (first second third : LuaValue) (others : List LuaValue) :
      LuaState.slot ⟨first :: second :: third :: others, out, calls⟩ (-3) = 2 := by
    simp [LuaState.slot]
  cases above with
  | single value =>
      exact ⟨_, outer.refill _,
        Lua.rawset_apply rest out calls fields key value (addressed _ _ _ _)⟩
  | tables filling =>
      cases filling with
      | root inner =>
          exact ⟨_, outer.refill _,
            Lua.rawset_apply rest out calls fields key (.table inner) (addressed _ _ _ _)⟩
      | nested entry inner within =>
          rcases within.exists_table with ⟨others, lower, rfl⟩
          exact ⟨_, (within.refill _).above outer,
            Lua.rawset_apply lower out calls others entry (.table inner) (addressed _ _ _ _)⟩

/-- Storing the innermost table in the one around it. -/
theorem Filling.exists_closed (filling : Filling below depth stack) (inner : 1 < depth)
    (out : Bytes) (calls : List (LuaValue × List LuaValue)) :
    ∃ final, Filling below (depth - 1) final ∧
      Lua.rawset (-3) ⟨stack, out, calls⟩ = (.ret (), ⟨final, out, calls⟩) := by
  cases filling with
  | root fields => exact absurd inner (lt_irrefl 1)
  | nested key fields outer =>
      rcases outer.exists_table with ⟨others, rest, rfl⟩
      exact (ValueAbove.single (.table fields)).store outer out calls

end Shapes

/-! ## Buffers that are accepted -/

/-- The program unpacks one value from these bytes, whatever comes behind them. -/
def Samples (program : Bytes → ℤ → LuaM ℤ) (left : ℕ) (bytes : Bytes) : Prop :=
  bytes ≠ [] ∧ ∀ (suffix : Bytes) (state : LuaState), ∃ stack,
    ValueAbove state.stack left stack ∧
      program (bytes ++ suffix) ((bytes ++ suffix).length : ℕ) state =
        (.ret bytes.length, ⟨stack, state.out, state.calls⟩)

theorem samples_of_unpacks {program : Bytes → ℤ → LuaM ℤ} {bytes : Bytes} {value : LuaValue}
    (present : bytes ≠ []) (unpacks : Unpacks program bytes value) : Samples program 0 bytes :=
  ⟨present, fun suffix state => ⟨_, .single value, unpacks suffix state⟩⟩

section Samples

variable {program : Bytes → ℤ → LuaM ℤ} {left : ℕ} {bytes : Bytes}

theorem Samples.length_ne_zero (samples : Samples program left bytes) :
    ¬(bytes.length : ℤ) = 0 := by
  have present := List.length_pos_iff.mpr samples.1
  omega

/-- A sample behind other bytes. -/
theorem Samples.step (samples : Samples program left bytes) (front rest : Bytes)
    (state : LuaState) :
    ∃ stack, ValueAbove state.stack left stack ∧
      program ((front ++ (bytes ++ rest)).drop (front.length : ℤ).toNat)
          ((front ++ (bytes ++ rest)).length - (front.length : ℤ)) state =
        (.ret bytes.length, ⟨stack, state.out, state.calls⟩) := by
  have inside : front.length ≤ (front ++ (bytes ++ rest)).length := by simp
  rw [length_sub_start inside, Int.toNat_natCast, List.drop_left]
  exact samples.2 rest state

/-- A sample for an entry of a table, which is then stored there. -/
theorem Samples.afterUnpack (samples : Samples program left bytes) (front more : Bytes)
    (key : LuaKey) {fields : List (LuaKey × LuaValue)} {below stack : List LuaValue} {depth : ℕ}
    (filling : Filling below depth (.table fields :: stack)) (top : ℤ) (rest : ℤ → LuaM ℤ)
    (out : Bytes) (calls : List (LuaValue × List LuaValue)) :
    ∃ final, Filling below (depth + left) final ∧
      (program ((front ++ (bytes ++ more)).drop (front.length : ℤ).toNat)
        ((front ++ (bytes ++ more)).length - (front.length : ℤ)) >>= fun curReaded =>
          FcallArg.afterUnpack top curReaded (-3) (rest curReaded))
        ⟨key.toValue :: .table fields :: stack, out, calls⟩ =
      rest bytes.length ⟨final, out, calls⟩ := by
  rcases samples.step front more ⟨key.toValue :: .table fields :: stack, out, calls⟩ with
    ⟨raised, above, read⟩
  rcases above.store filling out calls with ⟨final, filled, stored⟩
  refine ⟨final, filled, ?_⟩
  rw [Program.bind_of_ret read, FcallArg.afterUnpack, if_neg samples.length_ne_zero,
    Program.bind_of_ret stored]

end Samples

/-- `lua_rawset` on the table of an array, which may be far below the top. -/
theorem rawset_far (upper below : List LuaValue) (fields : List (LuaKey × LuaValue)) (key : LuaKey)
    (value : LuaValue) (out : Bytes) (calls : List (LuaValue × List LuaValue)) :
    Lua.rawset (below.length + 1)
        ⟨value :: key.toValue :: (upper ++ .table fields :: below), out, calls⟩ =
      (.ret (), ⟨upper ++ .table (LuaValue.setField fields key value) :: below, out, calls⟩) := by
  have addressed : LuaState.slot
      ⟨value :: key.toValue :: (upper ++ .table fields :: below), out, calls⟩ (below.length + 1) =
        (upper.length + 2 : ℕ) := by
    simp only [LuaState.slot, List.length_cons, List.length_append]
    split_ifs
    · push_cast
      omega
    · omega
  have place : (LuaState.slot ⟨value :: key.toValue :: (upper ++ .table fields :: below), out,
      calls⟩ (below.length + 1)).toNat = upper.length + 2 := by
    rw [addressed, Int.toNat_natCast]
  have found : LuaState.valueAt
      ⟨value :: key.toValue :: (upper ++ .table fields :: below), out, calls⟩ (below.length + 1) =
        .table fields := by
    rw [LuaState.valueAt, place, if_pos (addressed ▸ Int.natCast_nonneg _)]
    simp
  simp [Lua.rawset, Program.bind_apply, found, LuaState.setValueAt, place, Lua.pop]

/-- As many samples as counted. -/
theorem exists_samples_elements {unpackBase : Bytes → ℤ → LuaM ℤ} {element : Bytes}
    (samples : Samples unpackBase 0 element) (count : ℕ) :
    ∃ bytes : Bytes, (0 < count → bytes ≠ []) ∧
      ∀ (front suffix : Bytes) (i : ℤ) (below : List LuaValue)
        (fields : List (LuaKey × LuaValue)) (out : Bytes)
        (calls : List (LuaValue × List LuaValue)),
        ∃ others, unpackElements unpackBase below.length (below.length + 1)
            (front ++ (bytes ++ suffix)) ((front ++ (bytes ++ suffix)).length : ℕ) count i
            front.length ⟨.table fields :: below, out, calls⟩ =
          (.ret (front ++ bytes).length, ⟨.table others :: below, out, calls⟩) := by
  induction count with
  | zero =>
      refine ⟨[], fun absurdity => absurd absurdity (lt_irrefl 0), ?_⟩
      intro front suffix i below fields out calls
      refine ⟨fields, ?_⟩
      rw [unpackElements, Program.bind_of_ret (Lua.gettop_apply _),
        Program.bind_of_ret (Lua.assert_apply (by simp) _), List.append_nil]
      rfl
  | succ count ih =>
      rcases ih with ⟨others, -, reads⟩
      refine ⟨element ++ others, fun _ => by simp [samples.1], ?_⟩
      intro front suffix i below fields out calls
      rw [List.append_assoc]
      rcases samples.step front (others ++ suffix)
        ⟨.number (i + 1 : ℤ) :: .table fields :: below, out, calls⟩ with ⟨stack, above, read⟩
      rcases above.exists_single with ⟨value, rfl⟩
      have stored := rawset_far [] below fields (.number (i + 1 : ℤ)) value out calls
      rcases reads (front ++ element) suffix (i + 1) below
        (LuaValue.setField fields (.number (i + 1 : ℤ)) value) out calls with ⟨final, rest⟩
      refine ⟨final, ?_⟩
      have advanced : ((front ++ element).length : ℤ) = front.length + element.length := by simp
      rw [List.append_assoc, advanced] at rest
      rw [← List.append_assoc front element others, unpackElements,
        Program.bind_of_ret (Lua.push_apply _ _), Program.bind_of_ret read, FcallArg.afterUnpack,
        if_neg samples.length_ne_zero]
      exact (Program.bind_of_ret stored).trans rest

theorem samples_array_empty (unpackBase : Bytes → ℤ → LuaM ℤ) :
    Samples (unpackArray unpackBase 0) 0 [0] := by
  refine ⟨by simp, fun suffix state => ⟨_, .single (.table []), ?_⟩⟩
  have fetched : fetch ([0] ++ suffix) 0 1
      { state with stack := .table [] :: state.stack } = (.ret [0], _) :=
    fetch_of_le (by simp) _
  rw [unpackArray, Program.bind_of_ret (Lua.gettop_apply _),
    Program.bind_of_ret (Lua.newtable_apply _), if_pos rfl, checkBuf_of_le (by simp),
    Program.bind_of_ret fetched]
  show unpackElements unpackBase _ _ _ _ 0 0 1 _ = _
  rw [unpackElements, Program.bind_of_ret (Lua.gettop_apply _),
    Program.bind_of_ret (Lua.assert_apply (by simp) _)]
  rfl

theorem exists_samples_array {unpackBase : Bytes → ℤ → LuaM ℤ} {element : Bytes}
    (samples : Samples unpackBase 0 element) {size : ℤ} (positive : 0 < size) :
    ∃ bytes, Samples (unpackArray unpackBase size) 0 bytes := by
  rcases exists_samples_elements samples size.toNat with ⟨bytes, present, reads⟩
  refine ⟨bytes, present (by omega), fun suffix state => ?_⟩
  rcases reads [] suffix 0 state.stack [] state.out state.calls with ⟨others, read⟩
  refine ⟨_, .single (.table others), ?_⟩
  rw [unpackArray, Program.bind_of_ret (Lua.gettop_apply _),
    Program.bind_of_ret (Lua.newtable_apply _), if_neg positive.ne']
  exact read

/-- A sample for a value that is in the domain of a type. -/
theorem exists_samples_leaf (type : ArgType) {value : LuaValue} (wellFormed : type.WellFormed)
    (inDomain : type.InDomain value) (present : type.encode value ≠ []) :
    ∃ bytes, Samples type.compile.unpack 0 bytes :=
  ⟨type.encode value, samples_of_unpacks present (unpacks_unpack type wellFormed inDomain)⟩

mutual

/-- Every accepting format has a sample. -/
theorem exists_samples : (codec : FcallArg) → codec.Fillable → codec.accepts = true →
    ∃ bytes, Samples codec.unpack codec.leftOpen bytes
  | .number, _, _ => exists_samples_leaf .number trivial ⟨0, rfl, by decide⟩ (by decide)
  | .byte, _, _ => exists_samples_leaf .byte trivial ⟨0, rfl, by decide⟩ (by decide)
  | .word, _, _ => exists_samples_leaf .word trivial ⟨0, rfl, by decide⟩ (by decide)
  | .dword, _, _ => exists_samples_leaf .dword trivial ⟨0, rfl, by decide⟩ (by decide)
  | .string, _, _ => exists_samples_leaf .string trivial ⟨[], rfl, by decide⟩ (by decide)
  | .array basePacker size, fillable, accepted => by
      by_cases counted : size = 0
      · subst counted
        exact ⟨[0], samples_array_empty _⟩
      · rw [accepts] at accepted
        simp only [counted, decide_false, Bool.false_or, Bool.and_eq_true,
          decide_eq_true_eq] at accepted
        rcases exists_samples basePacker fillable accepted.1.2 with ⟨element, samples⟩
        rw [accepted.2] at samples
        exact exists_samples_array samples accepted.1.1
  | .table opcodes, fillable, accepted => by
      rw [accepts, Bool.and_eq_true] at accepted
      rcases exists_samples_opcodes opcodes fillable accepted.1 with ⟨bytes, present, reads⟩
      refine ⟨bytes, present accepted.2, fun suffix state => ?_⟩
      have root : Filling state.stack 1 (.table [] :: state.stack) := .root []
      rcases reads [] suffix root state.out state.calls with ⟨final, filled, read⟩
      have closed : leftOpen (.table opcodes) + 1 = openAfter opcodes 1 := by
        have positive := filled.depth_pos
        rw [leftOpen]
        omega
      rw [← closed] at filled
      refine ⟨final, .tables filled, ?_⟩
      rw [unpack, Program.bind_of_ret (Lua.gettop_apply _),
        Program.bind_of_ret (Lua.newtable_apply _)]
      exact read

theorem exists_samples_opcodes : (opcodes : List TableOpcode) → {depth : ℕ} →
    Fills opcodes depth → completes opcodes = true →
    ∃ bytes : Bytes, (hasLeaf opcodes = true → bytes ≠ []) ∧
      ∀ (front suffix : Bytes) {below stack : List LuaValue}, Filling below depth stack →
        ∀ (out : Bytes) (calls : List (LuaValue × List LuaValue)),
        ∃ final, Filling below (openAfter opcodes depth) final ∧
          unpackOpcodes opcodes below.length (front ++ (bytes ++ suffix))
            ((front ++ (bytes ++ suffix)).length : ℕ) front.length ⟨stack, out, calls⟩ =
          (.ret (front ++ bytes).length, ⟨final, out, calls⟩)
  | [], _, _, complete => by cases complete
  | [opcode], _, _, _ => by
      refine ⟨[], ?_, ?_⟩
      · intro leaf
        rw [hasLeaf_last] at leaf
        cases leaf
      · intro front suffix below stack filling out calls
        refine ⟨stack, ?_, ?_⟩
        · rw [openAfter_last]
          exact filling
        · rw [unpackOpcodes_last, List.append_nil]
          rfl
  | .tbBegin none :: next :: later, _, _, complete => by
      rw [completes] at complete
      cases complete
  | .tbBegin (some key) :: next :: later, _, fills, complete => by
      rw [completes] at complete
      rcases exists_samples_opcodes (next :: later) fills.tbBegin (by simpa using complete) with
        ⟨bytes, present, reads⟩
      rw [hasLeaf, openAfter, if_neg not_isEmpty_cons]
      refine ⟨bytes, by simpa using present, ?_⟩
      intro front suffix below stack filling out calls
      rw [unpackOpcodes]
      exact reads front suffix (.nested key [] filling) out calls
  | .pushValue key valueArg :: next :: later, _, fills, complete => by
      rw [completes] at complete
      have both : valueArg.accepts = true ∧ completes (next :: later) = true := by
        simpa using complete
      rcases exists_samples valueArg fills.pushValue.1 both.1 with ⟨leaf, samples⟩
      rcases exists_samples_opcodes (next :: later) fills.pushValue.2 both.2 with
        ⟨bytes, -, reads⟩
      rw [openAfter, if_neg not_isEmpty_cons]
      refine ⟨leaf ++ bytes, fun _ => by simp [samples.1], ?_⟩
      intro front suffix below stack filling out calls
      rcases filling.exists_table with ⟨fields, rest, rfl⟩
      rw [unpackOpcodes, if_neg not_isEmpty_cons, List.append_assoc]
      rcases samples.afterUnpack front (bytes ++ suffix) key filling below.length
        (fun curReaded => unpackOpcodes (next :: later) below.length
          (front ++ (leaf ++ (bytes ++ suffix)))
          ((front ++ (leaf ++ (bytes ++ suffix))).length : ℕ) (front.length + curReaded)) out calls
        with ⟨stored, filled, step⟩
      rcases reads (front ++ leaf) suffix filled out calls with ⟨final, finished, read⟩
      refine ⟨final, finished, step.trans ?_⟩
      have advanced : ((front ++ leaf).length : ℤ) = front.length + leaf.length := by simp
      rw [List.append_assoc, advanced] at read
      rw [← List.append_assoc front leaf bytes]
      exact read
  | .tbEnd :: next :: later, _, fills, complete => by
      rw [completes] at complete
      rcases exists_samples_opcodes (next :: later) fills.tbEnd.2 (by simpa using complete) with
        ⟨bytes, present, reads⟩
      rw [hasLeaf, openAfter, if_neg not_isEmpty_cons]
      refine ⟨bytes, by simpa using present, ?_⟩
      intro front suffix below stack filling out calls
      rcases filling.exists_closed fills.tbEnd.1 out calls with ⟨lower, filled, stored⟩
      rw [unpackOpcodes, if_neg not_isEmpty_cons, Program.bind_of_ret stored]
      exact reads front suffix filled out calls

end

end FcallArg

end SimpleModule
