import SimpleModule.Protocol.StackSamples

/-!
# The slots of a format

`unpack` needs no more slots than computed, whatever the buffer is, and it needs all of them
for some buffer.  Such a buffer has samples for everything that is read before the highest
point.
-/

namespace SimpleModule

open Octets Exits

namespace FcallArg

/-! ## No more slots than computed -/

/-- The stack is at most so much higher in the end, however the program ends. -/
def RaisesBy {α : Type} (slots : ℕ) (program : LuaM α) : Prop :=
  ∀ state, (program state).2.stack.length ≤ state.stack.length + slots

section Leaves

variable {α β : Type} {slots : ℕ} {buf : Bytes} {bufLen : ℤ}

theorem RaisesBy.fetch {offset count : ℕ} {rest : Bytes → LuaM α}
    (later : ∀ bytes, RaisesBy slots (rest bytes)) :
    RaisesBy slots (FcallArg.fetch buf offset count >>= rest) := by
  intro state
  unfold FcallArg.fetch
  split_ifs
  · exact later _ state
  · exact Nat.le_add_right _ _

theorem RaisesBy.ite {condition : Prop} [Decidable condition] {first second : LuaM α}
    (yes : RaisesBy slots first) (no : RaisesBy slots second) :
    RaisesBy slots (if condition then first else second) := by
  split_ifs
  · exact yes
  · exact no

theorem raisesBy_pure (value : α) : RaisesBy slots (pure value) := fun _ => Nat.le_add_right _ _

theorem raisesBy_push (value : LuaValue) (result : α) :
    RaisesBy 1 (Lua.push value >>= fun _ => pure result) := fun _ => le_refl _

theorem raisesBy_unpackNumber : RaisesBy 1 (unpackNumber buf bufLen) := by
  apply RaisesBy.ite (raisesBy_pure _)
  apply RaisesBy.fetch
  intro bytes
  apply RaisesBy.ite (raisesBy_pure _)
  apply RaisesBy.ite (raisesBy_pure _)
  apply RaisesBy.fetch
  intro data
  exact raisesBy_push _ _

theorem raisesBy_unpackFixed (width : ℕ) (read : ℤ → ℤ) :
    RaisesBy 1 (unpackFixed width read buf bufLen) := by
  apply RaisesBy.ite (raisesBy_pure _)
  apply RaisesBy.fetch
  intro data
  exact raisesBy_push _ _

theorem raisesBy_unpackChars (offset strId : ℕ) :
    RaisesBy 1 (unpackChars buf bufLen offset strId) := by
  apply RaisesBy.ite (raisesBy_pure _)
  apply RaisesBy.ite (raisesBy_pure _)
  apply RaisesBy.fetch
  intro data
  exact raisesBy_push _ _

theorem raisesBy_unpackString : RaisesBy 1 (unpackString buf bufLen) := by
  apply RaisesBy.ite (raisesBy_pure _)
  apply RaisesBy.fetch
  intro bytes
  apply RaisesBy.ite
  · exact RaisesBy.ite (raisesBy_push _ _) (raisesBy_unpackChars _ _)
  · apply RaisesBy.ite (raisesBy_pure _)
    apply RaisesBy.fetch
    intro more
    exact raisesBy_unpackChars _ _

end Leaves

section Enough

theorem le_opcodesUse (opcodes : List TableOpcode) (depth : ℕ) :
    2 * depth - 1 ≤ opcodesUse opcodes depth := by
  induction opcodes generalizing depth with
  | nil => exact le_refl _
  | cons opcode rest ih =>
      have deeper := ih (depth + 1)
      rw [opcodesUse.eq_def]
      simp only
      split_ifs
      · exact le_refl _
      · rcases opcode with (_ | key) | _ | ⟨key, valueArg⟩
        · exact le_refl _
        · exact (by omega : 2 * depth - 1 ≤ opcodesUse rest (depth + 1))
        · exact le_max_left _ _
        · exact le_max_of_le_left (by omega)

/-- The tables that are open in the end are among the slots. -/
theorem openAfter_le_opcodesUse {opcodes : List TableOpcode} (complete : completes opcodes = true)
    (depth : ℕ) : 2 * openAfter opcodes depth - 1 ≤ opcodesUse opcodes depth := by
  induction opcodes generalizing depth with
  | nil => cases complete
  | cons opcode rest ih =>
      cases rest with
      | nil => rw [openAfter_last, opcodesUse_last]
      | cons next later =>
          rw [completes.eq_def] at complete
          rw [openAfter.eq_def, opcodesUse.eq_def]
          simp only [if_neg not_isEmpty_cons]
          rcases opcode with (_ | key) | _ | ⟨key, valueArg⟩
          · cases complete
          · exact ih complete (depth + 1)
          · exact le_max_of_le_right (ih complete (depth - 1))
          · have both : valueArg.accepts = true ∧ completes (next :: later) = true := by
              simpa using complete
            simp only [both.1, if_true]
            exact le_max_of_le_right (ih both.2 (depth + valueArg.leftOpen))

theorem leftOpen_le_stackUse {codec : FcallArg} (accepted : codec.accepts = true) :
    2 * codec.leftOpen + 1 ≤ codec.stackUse := by
  cases codec with
  | array basePacker size => exact Nat.le_add_right 1 _
  | table opcodes =>
      rw [accepts, Bool.and_eq_true] at accepted
      have opened := openAfter_le_opcodesUse accepted.1 1
      have least := le_opcodesUse opcodes 1
      rw [leftOpen, stackUse]
      omega
  | _ => exact le_refl _

theorem elementsUse_mono {accepted : Bool} {left use count more : ℕ} (le : count ≤ more) :
    elementsUse accepted left use count ≤ elementsUse accepted left use more := by
  cases count with
  | zero => exact Nat.zero_le _
  | succ count =>
      cases more with
      | zero => exact absurd le (Nat.not_succ_le_zero count)
      | succ more =>
          apply Nat.add_le_add_left
          cases accepted with
          | false => exact le_refl _
          | true => exact Nat.mul_le_mul_left _ (Nat.le_of_succ_le_succ le)

end Enough

section Above

variable {buf : Bytes} {bufLen : ℤ} {state : LuaState} {limit : ℕ}

theorem RaisesBy.bind {α β : Type} {program : LuaM α} {next : α → LuaM β}
    (first : RaisesBy 0 program) (later : ∀ value, RaisesBy 0 (next value)) :
    RaisesBy 0 (program >>= next) := by
  intro state
  have before := first state
  rw [Program.bind_apply]
  generalize program state = ended at before ⊢
  rcases ended with ⟨value | _ | _ | _, after⟩
  · exact (later value after).trans before
  · exact before
  · exact before
  · exact before

theorem raisesBy_pop (count : ℕ) : RaisesBy 0 (Lua.pop count) := by
  intro state
  rw [Lua.pop]
  split_ifs
  · show (state.stack.drop count).length ≤ _
    rw [List.length_drop]
    omega
  · exact le_refl _

theorem raisesBy_rawset (index : ℤ) : RaisesBy 0 (Lua.rawset index) := by
  unfold Lua.rawset
  refine .bind (fun _ => le_refl _) fun table => .bind (fun _ => le_refl _) fun key =>
    .bind (fun _ => le_refl _) fun value => ?_
  split
  · exact .bind (fun _ => List.length_set.le) fun _ => raisesBy_pop 2
  · exact fun _ => le_refl _
  · exact fun _ => le_refl _

theorem fetch_state (offset count : ℕ) (state : LuaState) :
    (fetch buf offset count state).2 = state := by
  unfold fetch
  split_ifs
  · rfl
  · rfl

theorem ofLe_fetch_lt {offset count : ℕ} {bytes : Bytes} {final : LuaState}
    (fetched : fetch buf offset count state = (.ret bytes, final)) : ofLe bytes < 256 ^ count := by
  unfold fetch at fetched
  split_ifs at fetched
  · cases fetched
    exact ofLe_take_lt
  · cases fetched

/-- An operation that stays below the limit, and what comes behind it. -/
theorem peak_op_le {α β : Type} {program : LuaM α} {next : α → Metered LuaState β}
    (within : (program state).2.stack.length ≤ limit)
    (later : ∀ value after, program state = (.ret value, after) → (next value).peak after ≤ limit) :
    (Lua.op program >>= next).peak state ≤ limit :=
  Metered.peak_bind_le within later

/-- A nested value that needs no more than the limit, and what is done with it. -/
theorem peak_afterUnpack_le {nested : Metered LuaState ℤ} {rest : ℤ → Metered LuaState ℤ}
    {top : ℕ} {index : ℤ} (needs : nested.peak state ≤ limit) (lower : top ≤ limit)
    (height : ∀ curReaded after, nested.erase state = (.ret curReaded, after) → curReaded ≠ 0 →
      after.stack.length ≤ limit)
    (later : ∀ curReaded between after, nested.erase state = (.ret curReaded, between) →
      curReaded ≠ 0 → after.stack.length + 2 = between.stack.length →
      (rest curReaded).peak after ≤ limit) :
    (nested >>= fun curReaded => meteredAfterUnpack top curReaded index (rest curReaded)).peak
      state ≤ limit := by
  apply Metered.peak_bind_le needs
  intro curReaded between read
  unfold meteredAfterUnpack
  split_ifs with gaveUp
  · apply peak_op_le
    · refine le_trans ?_ lower
      show (between.stack.drop (between.stack.length - (top : ℤ).toNat)).length ≤ top
      rw [List.length_drop, Int.toNat_natCast]
      omega
    · intro _ _ _
      exact Nat.zero_le limit
  · apply peak_op_le
    · exact (raisesBy_rawset index between).trans (height curReaded between read gaveUp)
    · intro _ after stored
      exact later curReaded between after read gaveUp (height_rawset stored)

theorem peak_meteredElements_le {meteredBase : Bytes → ℤ → Metered LuaState ℤ} {accepted : Bool}
    {left use : ℕ} (adds : ∀ buf bufLen, Adds (2 * left + 1) (meteredBase buf bufLen).erase)
    (reads : ∀ buf bufLen state cur after,
      (meteredBase buf bufLen).erase state = (.ret cur, after) → cur ≠ 0 → accepted = true)
    (enough : accepted = true → 2 * left + 1 ≤ use)
    (needs : ∀ buf bufLen state, (meteredBase buf bufLen).peak state ≤ state.stack.length + use)
    {top : ℕ} (lower : top ≤ limit) {dataI : ℤ} (count : ℕ) (i readedLen : ℤ)
    (most : state.stack.length + elementsUse accepted left use count ≤ limit) :
    (meteredElements meteredBase top dataI buf bufLen count i readedLen).peak state ≤ limit := by
  induction count generalizing state i readedLen with
  | zero =>
      apply peak_op_le
      · exact most
      · intro height after returned
        cases returned
        apply peak_op_le
        · refine le_trans (le_of_eq ?_) most
          show (Lua.assert _ state).2.stack.length = state.stack.length
          rw [Lua.assert]
          split_ifs
          · rfl
          · rfl
        · intro _ _ _
          exact Nat.zero_le limit
  | succ count ih =>
      have own : state.stack.length + 1 + use ≤ limit := by
        rw [elementsUse] at most
        omega
      apply peak_op_le
      · exact (Nat.le_add_right _ use).trans own
      · intro _ after returned
        cases returned
        refine peak_afterUnpack_le ((needs _ _ _).trans own) lower ?_ ?_
        · intro curReaded after read nonzero
          have higher := adds _ _ _ _ _ read nonzero
          have fits := enough (reads _ _ _ _ _ read nonzero)
          rw [List.length_cons] at higher
          omega
        · intro curReaded between after read nonzero stored
          have higher := adds _ _ _ _ _ read nonzero
          have known := reads _ _ _ _ _ read nonzero
          have fits := enough known
          rw [List.length_cons] at higher
          apply ih
          subst known
          cases count with
          | zero =>
              rw [elementsUse]
              omega
          | succ count =>
              rw [elementsUse, if_pos rfl] at most ⊢
              have step : 2 * left * (count + 1) = 2 * left * count + 2 * left := by ring
              omega

theorem peak_meteredArray_le {meteredBase : Bytes → ℤ → Metered LuaState ℤ} {accepted : Bool}
    {left use : ℕ} (adds : ∀ buf bufLen, Adds (2 * left + 1) (meteredBase buf bufLen).erase)
    (reads : ∀ buf bufLen state cur after,
      (meteredBase buf bufLen).erase state = (.ret cur, after) → cur ≠ 0 → accepted = true)
    (enough : accepted = true → 2 * left + 1 ≤ use)
    (needs : ∀ buf bufLen state, (meteredBase buf bufLen).peak state ≤ state.stack.length + use)
    (size : ℤ) (state : LuaState) :
    (meteredArray meteredBase size buf bufLen).peak state ≤
      state.stack.length + (1 + elementsUse accepted left use (mostElements size)) := by
  have entry : state.stack.length ≤
      state.stack.length + (1 + elementsUse accepted left use (mostElements size)) :=
    Nat.le_add_right _ _
  have table : state.stack.length + 1 ≤
      state.stack.length + (1 + elementsUse accepted left use (mostElements size)) := by
    omega
  apply peak_op_le entry
  intro top after returned
  cases returned
  apply peak_op_le table
  intro _ after returned
  cases returned
  by_cases counted : size = 0
  · rw [if_pos counted]
    by_cases short : 1 > bufLen
    · rw [if_pos short]
      exact Nat.zero_le _
    · rw [if_neg short]
      apply peak_op_le
      · rw [fetch_state]
        exact table
      · intro bytes after fetched
        have few : ofLe bytes ≤ mostElements size := by
          rw [mostElements, if_pos counted]
          exact Nat.le_of_lt_succ (ofLe_fetch_lt fetched)
        rcases fetch_ret fetched with rfl
        refine peak_meteredElements_le adds reads enough needs entry _ _ _ ?_
        show state.stack.length + 1 + elementsUse accepted left use (ofLe bytes) ≤ _
        rw [Nat.add_assoc]
        exact Nat.add_le_add_left (Nat.add_le_add_left (elementsUse_mono few) _) _
  · have all : size.toNat = mostElements size := by rw [mostElements, if_neg counted]
    rw [if_neg counted, all]
    refine peak_meteredElements_le adds reads enough needs entry _ _ _ ?_
    rw [← Nat.add_assoc]
    exact le_refl _

end Above

mutual

/-- `unpack` needs no more slots than computed. -/
theorem peak_meteredUnpack_le : (codec : FcallArg) → codec.Fillable → (buf : Bytes) →
    (bufLen : ℤ) → (state : LuaState) →
    (codec.meteredUnpack buf bufLen).peak state ≤ state.stack.length + codec.stackUse
  | .number, _, _, _, state => raisesBy_unpackNumber state
  | .byte, _, _, _, state => raisesBy_unpackFixed 1 id state
  | .word, _, _, _, state => raisesBy_unpackFixed 2 int16 state
  | .dword, _, _, _, state => raisesBy_unpackFixed 4 int32 state
  | .string, _, _, _, state => raisesBy_unpackString state
  | .array basePacker size, fillable, buf, bufLen, state => by
      rw [meteredUnpack, stackUse]
      apply peak_meteredArray_le
      · intro buf bufLen
        rw [erase_meteredUnpack]
        exact adds_unpack basePacker fillable buf bufLen
      · intro buf bufLen state cur after read nonzero
        rw [erase_meteredUnpack] at read
        exact accepts_of_unpack basePacker fillable read nonzero
      · exact leftOpen_le_stackUse
      · exact peak_meteredUnpack_le basePacker fillable
  | .table opcodes, fillable, buf, bufLen, state => by
      have least := le_opcodesUse opcodes 1
      rw [meteredUnpack, stackUse]
      apply peak_op_le
      · exact Nat.le_add_right _ _
      · intro top after returned
        cases returned
        apply peak_op_le
        · show state.stack.length + 1 ≤ _
          omega
        · intro _ after returned
          cases returned
          exact peak_meteredOpcodes_le opcodes fillable (le_refl 1) rfl buf bufLen 0

theorem peak_meteredOpcodes_le : (opcodes : List TableOpcode) → {depth : ℕ} →
    Fills opcodes depth → 1 ≤ depth → {base : ℕ} → {state : LuaState} →
    state.stack.length + 1 = base + 2 * depth → (buf : Bytes) → (bufLen readedLen : ℤ) →
    (meteredOpcodes opcodes base buf bufLen readedLen).peak state ≤
      base + opcodesUse opcodes depth
  | [], depth, _, _, base, state, start, _, _, _ => by
      show state.stack.length ≤ base + (2 * depth - 1)
      omega
  | [opcode], _, _, _, _, _, _, _, _, _ => by
      rw [meteredOpcodes_last]
      exact Nat.zero_le _
  | .tbBegin none :: next :: later, depth, _, _, base, state, start, _, _, _ => by
      show state.stack.length ≤ base + (2 * depth - 1)
      omega
  | .tbBegin (some key) :: next :: later, depth, fills, _, base, state, start, buf, bufLen,
      readedLen => by
      have least := le_opcodesUse (next :: later) (depth + 1)
      rw [meteredOpcodes, if_neg not_isEmpty_cons, opcodesUse, if_neg not_isEmpty_cons]
      apply peak_op_le
      · show state.stack.length + 1 ≤ _
        omega
      · intro _ after returned
        cases returned
        apply peak_op_le
        · show state.stack.length + 1 + 1 ≤ _
          omega
        · intro _ after returned
          cases returned
          have deeper : state.stack.length + 1 + 1 + 1 = base + 2 * (depth + 1) := by omega
          refine peak_meteredOpcodes_le (next :: later) fills.tbBegin (Nat.le_add_left 1 depth) ?_
            buf bufLen readedLen
          exact deeper
  | .pushValue key valueArg :: next :: later, depth, fills, positive, base, state, start, buf,
      bufLen, readedLen => by
      have leaf : base + (2 * depth + valueArg.stackUse) ≤ base +
          max (2 * depth + valueArg.stackUse) (if valueArg.accepts then
            opcodesUse (next :: later) (depth + valueArg.leftOpen) else 0) :=
        Nat.add_le_add_left (le_max_left _ _) _
      rw [meteredOpcodes, if_neg not_isEmpty_cons, opcodesUse, if_neg not_isEmpty_cons]
      apply peak_op_le
      · show state.stack.length + 1 ≤ _
        omega
      · intro _ after returned
        cases returned
        have nested := peak_meteredUnpack_le valueArg fills.pushValue.1 (buf.drop readedLen.toNat)
          (bufLen - readedLen) ⟨key.toValue :: state.stack, state.out, state.calls⟩
        rw [List.length_cons] at nested
        refine peak_afterUnpack_le (nested.trans (by omega)) (Nat.le_add_right _ _) ?_ ?_
        · intro curReaded after read nonzero
          rw [erase_meteredUnpack] at read
          have higher := adds_unpack valueArg fills.pushValue.1 _ _ _ _ _ read nonzero
          have fits := leftOpen_le_stackUse
            (accepts_of_unpack valueArg fills.pushValue.1 read nonzero)
          rw [List.length_cons] at higher
          omega
        · intro curReaded between after read nonzero stored
          rw [erase_meteredUnpack] at read
          have higher := adds_unpack valueArg fills.pushValue.1 _ _ _ _ _ read nonzero
          rw [List.length_cons] at higher
          have deeper : after.stack.length + 1 = base + 2 * (depth + valueArg.leftOpen) := by omega
          rw [accepts_of_unpack valueArg fills.pushValue.1 read nonzero, if_pos rfl]
          have behind := peak_meteredOpcodes_le (next :: later) fills.pushValue.2
            (positive.trans (Nat.le_add_right _ _)) deeper buf bufLen (readedLen + curReaded)
          exact behind.trans (Nat.add_le_add_left (le_max_right _ _) _)
  | .tbEnd :: next :: later, depth, fills, _, base, state, start, buf, bufLen, readedLen => by
      have own : base + (2 * depth - 1) ≤ base + max (2 * depth - 1)
          (opcodesUse (next :: later) (depth - 1)) := Nat.add_le_add_left (le_max_left _ _) _
      have outer := fills.tbEnd.1
      rw [meteredOpcodes, if_neg not_isEmpty_cons, opcodesUse, if_neg not_isEmpty_cons]
      apply peak_op_le
      · exact (raisesBy_rawset (-3) state).trans (by omega)
      · intro _ after stored
        have lower := height_rawset stored
        have height : after.stack.length + 1 = base + 2 * (depth - 1) := by omega
        have behind := peak_meteredOpcodes_le (next :: later) fills.tbEnd.2 (by omega) height buf
          bufLen readedLen
        exact behind.trans (Nat.add_le_add_left (le_max_right _ _) _)

end

/-! ## As many slots as computed -/

section Operations

variable {α β : Type} {program : LuaM α} {next : α → Metered LuaState β}
  {state after : LuaState} {value : α} {height : ℕ}

theorem le_peak_of_height (returns : program state = (.ret value, after))
    (high : height ≤ after.stack.length) : height ≤ (Lua.op program >>= next).peak state := by
  refine le_trans ?_ Metered.le_peak_bind_left
  show height ≤ (program state).2.stack.length
  rw [returns]
  exact high

theorem le_peak_of_later (returns : program state = (.ret value, after))
    (later : height ≤ (next value).peak after) : height ≤ (Lua.op program >>= next).peak state :=
  later.trans (Metered.le_peak_bind_right returns)

/-- The height after an operation or what comes later. -/
theorem le_peak_of_max (returns : program state = (.ret value, after))
    (reached : height ≤ max after.stack.length ((next value).peak after)) :
    height ≤ (Lua.op program >>= next).peak state := by
  rcases le_max_iff.mp reached with high | later
  · exact le_peak_of_height returns high
  · exact le_peak_of_later returns later

end Operations

section Below

variable {metered : Bytes → ℤ → Metered LuaState ℤ} {bytes : Bytes} {left use : ℕ}

theorem exists_peak_leaf {program : Bytes → ℤ → LuaM ℤ}
    (sample : ∃ bytes, Samples program 0 bytes) :
    ∃ buf : Bytes, ∀ state : LuaState,
      state.stack.length + 1 ≤ (Lua.op (program buf (buf.length : ℕ))).peak state := by
  rcases sample with ⟨bytes, samples⟩
  refine ⟨bytes, fun state => ?_⟩
  rcases samples.2 [] state with ⟨stack, above, read⟩
  rcases above.exists_single with ⟨value, rfl⟩
  rw [List.append_nil] at read
  show _ ≤ (program bytes bytes.length state).2.stack.length
  rw [read]
  exact le_refl _

/-- What is reached behind a sample that is stored in a table. -/
theorem Samples.le_peak_afterUnpack
    (samples : Samples (fun buf bufLen => (metered buf bufLen).erase) left bytes)
    (front more : Bytes) (key : LuaKey) {fields : List (LuaKey × LuaValue)}
    {below stack : List LuaValue} {depth : ℕ}
    (filling : Filling below depth (.table fields :: stack)) (top : ℤ)
    (rest : ℤ → Metered LuaState ℤ) (out : Bytes) (calls : List (LuaValue × List LuaValue)) :
    ∃ final, Filling below (depth + left) final ∧
      (rest bytes.length).peak ⟨final, out, calls⟩ ≤
        (metered ((front ++ (bytes ++ more)).drop (front.length : ℤ).toNat)
          ((front ++ (bytes ++ more)).length - (front.length : ℤ)) >>= fun curReaded =>
            meteredAfterUnpack top curReaded (-3) (rest curReaded)).peak
          ⟨key.toValue :: .table fields :: stack, out, calls⟩ := by
  rcases samples.step front more ⟨key.toValue :: .table fields :: stack, out, calls⟩ with
    ⟨raised, above, read⟩
  rcases above.store filling out calls with ⟨final, filled, stored⟩
  refine ⟨final, filled, le_trans ?_ (Metered.le_peak_bind_right read)⟩
  rw [meteredAfterUnpack, if_neg samples.length_ne_zero]
  exact le_peak_of_later stored (le_refl _)

/-- What is reached by the first of some elements. -/
theorem le_peak_meteredElements
    (reached : ∀ state, state.stack.length + use ≤ (metered bytes bytes.length).peak state)
    (front : Bytes) (count : ℕ) (top dataI i : ℤ) (state : LuaState) :
    state.stack.length + 1 + use ≤ (meteredElements metered top dataI (front ++ bytes)
      ((front ++ bytes).length : ℕ) (count + 1) i front.length).peak state := by
  have inside : front.length ≤ (front ++ bytes).length := by simp
  rw [meteredElements]
  apply le_peak_of_later (Lua.push_apply _ state)
  refine le_trans ?_ Metered.le_peak_bind_left
  rw [length_sub_start inside, Int.toNat_natCast, List.drop_left]
  exact reached ⟨.number (i + 1 : ℤ) :: state.stack, state.out, state.calls⟩

/-- What is reached by the last of some elements, above what the others left. -/
theorem exists_peak_elements {element : Bytes}
    (samples : Samples (fun buf bufLen => (metered buf bufLen).erase) left element)
    (reached : ∀ state, state.stack.length + use ≤ (metered bytes bytes.length).peak state)
    (count : ℕ) : ∃ tail : Bytes, ∀ (front : Bytes) (top i : ℤ) (upper below : List LuaValue)
      (fields : List (LuaKey × LuaValue)) (out : Bytes)
      (calls : List (LuaValue × List LuaValue)),
      (upper ++ .table fields :: below).length + (1 + use + 2 * left * count) ≤
        (meteredElements metered top (below.length + 1) (front ++ tail)
          ((front ++ tail).length : ℕ) (count + 1) i front.length).peak
          ⟨upper ++ .table fields :: below, out, calls⟩ := by
  induction count with
  | zero =>
      refine ⟨bytes, fun front top i upper below fields out calls => ?_⟩
      have first := le_peak_meteredElements reached front 0 top (below.length + 1) i
        ⟨upper ++ .table fields :: below, out, calls⟩
      rw [Nat.mul_zero, Nat.add_zero, ← Nat.add_assoc]
      exact first
  | succ count ih =>
      rcases ih with ⟨tail, later⟩
      refine ⟨element ++ tail, fun front top i upper below fields out calls => ?_⟩
      rcases samples.step front tail
        ⟨.number (i + 1 : ℤ) :: (upper ++ .table fields :: below), out, calls⟩ with
        ⟨raised, above, read⟩
      have keyed : LuaValue.number (i + 1 : ℤ) = (LuaKey.number (i + 1 : ℤ)).toValue := rfl
      rw [keyed] at above
      rcases above.exists_entry with ⟨value, entry, more, rfl, length⟩
      have stored := rawset_far (more ++ upper) below fields entry value out calls
      have inner := later (front ++ element) top (i + 1) (more ++ upper) below
        (LuaValue.setField fields entry value) out calls
      have advanced : ((front ++ element).length : ℤ) = front.length + element.length := by simp
      rw [List.append_assoc front element tail, advanced] at inner
      rw [meteredElements]
      apply le_peak_of_later (Lua.push_apply _ _)
      refine le_trans ?_ (Metered.le_peak_bind_right read)
      rw [meteredAfterUnpack, if_neg samples.length_ne_zero]
      rw [List.append_assoc] at stored
      apply le_peak_of_later stored
      refine le_trans (le_of_eq ?_) inner
      simp only [List.length_append, List.length_cons, length]
      ring

/-- The elements of an array above its table. -/
theorem exists_peak_most {accepted : Bool}
    (samples : accepted = true → ∃ element,
      Samples (fun buf bufLen => (metered buf bufLen).erase) left element)
    (reached : ∀ state, state.stack.length + use ≤ (metered bytes bytes.length).peak state)
    (count : ℕ) : ∃ tail : Bytes, ∀ (front : Bytes) (state : LuaState),
      state.stack.length + 1 + elementsUse accepted left use count ≤
        max (state.stack.length + 1) ((meteredElements metered state.stack.length
          (state.stack.length + 1) (front ++ tail) ((front ++ tail).length : ℕ) count 0
          front.length).peak ⟨.table [] :: state.stack, state.out, state.calls⟩) := by
  cases count with
  | zero => exact ⟨[], fun front state => le_max_left _ _⟩
  | succ count =>
      cases accepted with
      | false =>
          refine ⟨bytes, fun front state => le_max_of_le_right ?_⟩
          have first := le_peak_meteredElements reached front count state.stack.length
            (state.stack.length + 1) 0 ⟨.table [] :: state.stack, state.out, state.calls⟩
          rw [List.length_cons, Nat.add_assoc] at first
          exact first
      | true =>
          rcases samples rfl with ⟨element, samples⟩
          rcases exists_peak_elements samples reached count with ⟨tail, last⟩
          refine ⟨tail, fun front state => le_max_of_le_right ?_⟩
          exact last front state.stack.length 0 [] state.stack [] state.out state.calls

theorem exists_peak_array {accepted : Bool}
    (samples : accepted = true → ∃ element,
      Samples (fun buf bufLen => (metered buf bufLen).erase) left element)
    (reached : ∀ state, state.stack.length + use ≤ (metered bytes bytes.length).peak state)
    (size : ℤ) : ∃ buf : Bytes, ∀ state,
      state.stack.length + (1 + elementsUse accepted left use (mostElements size)) ≤
        (meteredArray metered size buf (buf.length : ℕ)).peak state := by
  rcases exists_peak_most samples reached (mostElements size) with ⟨tail, most⟩
  by_cases counted : size = 0
  · refine ⟨[255] ++ tail, fun state => ?_⟩
    have long : ¬1 > (([255] ++ tail).length : ℤ) := by simp
    have fetched : fetch ([255] ++ tail) 0 1
        ⟨.table [] :: state.stack, state.out, state.calls⟩ = (.ret [255], _) :=
      fetch_of_le (by simp) _
    have all : mostElements size = ofLe [255] := by
      rw [mostElements, if_pos counted]
      rfl
    have inner := most [255] state
    rw [all] at inner ⊢
    rw [meteredArray, ← Nat.add_assoc]
    apply le_peak_of_later (Lua.gettop_apply state)
    rcases le_max_iff.mp inner with table | elements
    · exact le_peak_of_height (Lua.newtable_apply state) table
    · apply le_peak_of_later (Lua.newtable_apply state)
      rw [if_pos counted, if_neg long]
      exact le_peak_of_later fetched elements
  · refine ⟨tail, fun state => ?_⟩
    have all : mostElements size = size.toNat := by rw [mostElements, if_neg counted]
    have inner := most [] state
    rw [all] at inner ⊢
    rw [meteredArray, ← Nat.add_assoc]
    apply le_peak_of_later (Lua.gettop_apply state)
    rw [if_neg counted]
    exact le_peak_of_max (Lua.newtable_apply state) inner

end Below

mutual

/-- `unpack` needs as many slots as computed for some buffer. -/
theorem exists_peak : (codec : FcallArg) → codec.Fillable → ∃ buf : Bytes, ∀ state : LuaState,
    state.stack.length + codec.stackUse ≤ (codec.meteredUnpack buf (buf.length : ℕ)).peak state
  | .number, fillable => exists_peak_leaf (exists_samples .number fillable rfl)
  | .byte, fillable => exists_peak_leaf (exists_samples .byte fillable rfl)
  | .word, fillable => exists_peak_leaf (exists_samples .word fillable rfl)
  | .dword, fillable => exists_peak_leaf (exists_samples .dword fillable rfl)
  | .string, fillable => exists_peak_leaf (exists_samples .string fillable rfl)
  | .array basePacker size, fillable => by
      have samples (accepted : basePacker.accepts = true) : ∃ element,
          Samples (fun buf bufLen => (basePacker.meteredUnpack buf bufLen).erase)
            basePacker.leftOpen element := by
        simpa only [erase_meteredUnpack] using exists_samples basePacker fillable accepted
      rcases exists_peak basePacker fillable with ⟨bytes, reached⟩
      rcases exists_peak_array samples reached size with ⟨buf, high⟩
      refine ⟨buf, fun state => ?_⟩
      rw [meteredUnpack, stackUse]
      exact high state
  | .table opcodes, fillable => by
      rcases exists_peak_opcodes opcodes fillable with ⟨buf, reached⟩
      refine ⟨buf, fun state => ?_⟩
      have root : Filling state.stack 1 (.table [] :: state.stack) := .root []
      have inner := reached [] root state.out state.calls
      rw [meteredUnpack, stackUse]
      apply le_peak_of_later (Lua.gettop_apply state)
      exact le_peak_of_max (Lua.newtable_apply state) inner

theorem exists_peak_opcodes : (opcodes : List TableOpcode) → {depth : ℕ} →
    Fills opcodes depth → ∃ tail : Bytes, ∀ (front : Bytes)
      {below stack : List LuaValue}, Filling below depth stack → ∀ (out : Bytes)
      (calls : List (LuaValue × List LuaValue)),
      below.length + opcodesUse opcodes depth ≤ max stack.length
        ((meteredOpcodes opcodes below.length (front ++ tail) ((front ++ tail).length : ℕ)
          front.length).peak ⟨stack, out, calls⟩)
  | [], _, _ => ⟨[], fun _ _ _ filling _ _ => le_max_of_le_left filling.height.le⟩
  | [opcode], depth, _ => by
      rw [opcodesUse_last]
      exact ⟨[], fun _ _ _ filling _ _ => le_max_of_le_left filling.height.le⟩
  | .tbBegin none :: next :: later, _, _ =>
      ⟨[], fun _ _ _ filling _ _ => le_max_of_le_left filling.height.le⟩
  | .tbBegin (some key) :: next :: later, _, fills => by
      rcases exists_peak_opcodes (next :: later) fills.tbBegin with ⟨tail, reached⟩
      refine ⟨tail, ?_⟩
      intro front below stack filling out calls
      have inner := reached front (.nested key [] filling) out calls
      rw [opcodesUse, if_neg not_isEmpty_cons, meteredOpcodes, if_neg not_isEmpty_cons]
      apply le_max_of_le_right
      apply le_peak_of_later (Lua.getref_apply key _)
      exact le_peak_of_max (Lua.newtable_apply _) inner
  | .pushValue key valueArg :: next :: later, depth, fills => by
      by_cases behind : valueArg.accepts = true ∧ 2 * depth + valueArg.stackUse ≤
          opcodesUse (next :: later) (depth + valueArg.leftOpen)
      · rcases exists_samples valueArg fills.pushValue.1 behind.1 with ⟨leaf, samples⟩
        rcases exists_peak_opcodes (next :: later) fills.pushValue.2 with ⟨tail, reached⟩
        refine ⟨leaf ++ tail, ?_⟩
        intro front below stack filling out calls
        rcases filling.exists_table with ⟨fields, rest, rfl⟩
        have erased : Samples (fun buf bufLen => (valueArg.meteredUnpack buf bufLen).erase)
            valueArg.leftOpen leaf := by
          simpa only [erase_meteredUnpack] using samples
        rcases erased.le_peak_afterUnpack front tail key filling below.length
          (fun curReaded => meteredOpcodes (next :: later) below.length
            (front ++ (leaf ++ tail)) ((front ++ (leaf ++ tail)).length : ℕ)
            (front.length + curReaded)) out calls with ⟨final, filled, within⟩
        have inner := reached (front ++ leaf) filled out calls
        have advanced : ((front ++ leaf).length : ℤ) = front.length + leaf.length := by simp
        rw [List.append_assoc, advanced] at inner
        rw [opcodesUse, if_neg not_isEmpty_cons, behind.1, if_pos rfl, max_eq_right behind.2,
          meteredOpcodes, if_neg not_isEmpty_cons]
        apply le_max_of_le_right
        apply le_peak_of_later (Lua.getref_apply key _)
        rcases le_max_iff.mp inner with low | deep
        · have height := filled.height
          have fits := leftOpen_le_stackUse behind.1
          omega
        · exact deep.trans within
      · rcases exists_peak valueArg fills.pushValue.1 with ⟨tail, reached⟩
        refine ⟨tail, ?_⟩
        intro front below stack filling out calls
        have height := filling.length
        have inside : front.length ≤ (front ++ tail).length := by simp
        have most : max (2 * depth + valueArg.stackUse) (if valueArg.accepts then
              opcodesUse (next :: later) (depth + valueArg.leftOpen) else 0) =
            2 * depth + valueArg.stackUse := by
          apply max_eq_left
          split_ifs with accepted
          · exact (not_le.mp fun most => behind ⟨accepted, most⟩).le
          · exact Nat.zero_le _
        have nested := reached ⟨key.toValue :: stack, out, calls⟩
        rw [opcodesUse, if_neg not_isEmpty_cons, most, meteredOpcodes, if_neg not_isEmpty_cons]
        apply le_max_of_le_right
        apply le_peak_of_later (Lua.getref_apply key _)
        refine le_trans ?_ Metered.le_peak_bind_left
        rw [length_sub_start inside, Int.toNat_natCast, List.drop_left]
        refine le_trans (le_of_eq ?_) nested
        rw [List.length_cons]
        omega
  | .tbEnd :: next :: later, depth, fills => by
      rcases exists_peak_opcodes (next :: later) fills.tbEnd.2 with ⟨tail, reached⟩
      refine ⟨tail, ?_⟩
      intro front below stack filling out calls
      rw [opcodesUse, if_neg not_isEmpty_cons, ← Nat.add_max_add_left]
      apply max_le
      · exact le_max_of_le_left filling.height.le
      · rcases filling.exists_closed fills.tbEnd.1 out calls with ⟨final, filled, stored⟩
        have inner := reached front filled out calls
        apply le_max_of_le_right
        rw [meteredOpcodes, if_neg not_isEmpty_cons]
        exact le_peak_of_max stored inner

end

end FcallArg

end SimpleModule
