import SimpleModule.Lib.Meter
import SimpleModule.Protocol.StackDiscipline

/-!
# The slots that decoding needs

A C function may use twenty slots of the stack of Lua unless it asks for more, and the
protocol library never asks.  `unpack` puts the function, a number and one value for each
argument on the stack, and on top of them the tables that the current argument is made of.

`meteredUnpack` is `unpack` with a meter on the height of the stack.  `stackUse` is the height
that it needs for the worst buffer, computed from the formats alone: what comes behind an
argument that no buffer has a value for is never reached.

The opcodes of a description with too many tables end before all tables are closed.  Such a
format leaves the open tables on the stack, and everything behind it is read above them.
-/

namespace SimpleModule

open Octets Exits

/-- An operation on the stack with a meter on its height. -/
def Lua.op {α : Type} (program : LuaM α) : Metered LuaState α :=
  .of (fun state => state.stack.length) program

namespace FcallArg

/-! ## Metered formats -/

def meteredAfterUnpack (top curReaded index : ℤ) (rest : Metered LuaState ℤ) :
    Metered LuaState ℤ :=
  if curReaded = 0 then do
    Lua.op (Lua.settop top)
    return 0
  else do
    Lua.op (Lua.rawset index)
    rest

def meteredElements (unpackBase : Bytes → ℤ → Metered LuaState ℤ) (top dataI : ℤ) (buf : Bytes)
    (bufLen : ℤ) : (count : ℕ) → (i readedLen : ℤ) → Metered LuaState ℤ
  | 0, _, readedLen => do
      let height ← Lua.op Lua.gettop
      Lua.op (Lua.assert (height = dataI))
      return readedLen
  | count + 1, i, readedLen => do
      Lua.op (Lua.push (.number (i + 1 : ℤ)))
      let curReaded ← unpackBase (buf.drop readedLen.toNat) (bufLen - readedLen)
      meteredAfterUnpack top curReaded dataI
        (meteredElements unpackBase top dataI buf bufLen count (i + 1) (readedLen + curReaded))

def meteredArray (unpackBase : Bytes → ℤ → Metered LuaState ℤ) (size : ℤ) (buf : Bytes)
    (bufLen : ℤ) : Metered LuaState ℤ := do
  let top ← Lua.op Lua.gettop
  Lua.op Lua.newtable
  if size = 0 then
    if 1 > bufLen then return 0
    else do
      let arrayLen := ofLe (← Lua.op (fetch buf 0 1))
      meteredElements unpackBase top (top + 1) buf bufLen arrayLen 0 1
  else meteredElements unpackBase top (top + 1) buf bufLen size.toNat 0 0

mutual

/-- `unpack` with a meter.  The formats of numbers and strings end with their only push. -/
def meteredUnpack : FcallArg → (buf : Bytes) → (bufLen : ℤ) → Metered LuaState ℤ
  | .number, buf, bufLen => Lua.op (unpackNumber buf bufLen)
  | .byte, buf, bufLen => Lua.op (unpackByte buf bufLen)
  | .word, buf, bufLen => Lua.op (unpackWord buf bufLen)
  | .dword, buf, bufLen => Lua.op (unpackDword buf bufLen)
  | .string, buf, bufLen => Lua.op (unpackString buf bufLen)
  | .array basePacker size, buf, bufLen =>
      meteredArray (fun rest remaining => basePacker.meteredUnpack rest remaining) size buf bufLen
  | .table opcodes, buf, bufLen => do
      let top ← Lua.op Lua.gettop
      Lua.op Lua.newtable
      meteredOpcodes opcodes top buf bufLen 0

def meteredOpcodes :
    List TableOpcode → (top : ℤ) → (buf : Bytes) → (bufLen readedLen : ℤ) → Metered LuaState ℤ
  | [], _, _, _, _ => Lua.op (.exit .fault)
  | opcode :: rest, top, buf, bufLen, readedLen =>
      if rest.isEmpty then pure readedLen
      else
        match opcode with
        | .tbBegin none => Lua.op (.exit .abort)
        | .tbBegin (some key) => do
            Lua.op (Lua.getref key)
            Lua.op Lua.newtable
            meteredOpcodes rest top buf bufLen readedLen
        | .pushValue key valueArg => do
            Lua.op (Lua.getref key)
            let curReaded ← valueArg.meteredUnpack (buf.drop readedLen.toNat) (bufLen - readedLen)
            meteredAfterUnpack top curReaded (-3)
              (meteredOpcodes rest top buf bufLen (readedLen + curReaded))
        | .tbEnd => do
            Lua.op (Lua.rawset (-3))
            meteredOpcodes rest top buf bufLen readedLen

end

theorem meteredOpcodes_last (opcode : TableOpcode) (top : ℤ) (buf : Bytes)
    (bufLen readedLen : ℤ) :
    meteredOpcodes [opcode] top buf bufLen readedLen = pure readedLen := by
  rcases opcode with (_ | key) | _ | ⟨key, valueArg⟩
  · rw [meteredOpcodes]
    rfl
  · rw [meteredOpcodes]
    rfl
  · rw [meteredOpcodes]
    rfl
  · rw [meteredOpcodes]
    rfl

/-! ## The programs behind the meter -/

@[simp]
theorem erase_op {α : Type} (program : LuaM α) : (Lua.op program).erase = program := rfl

theorem erase_ite {condition : Prop} [Decidable condition] (first second : Metered LuaState ℤ) :
    (if condition then first else second).erase =
      if condition then first.erase else second.erase := by
  split_ifs
  · rfl
  · rfl

theorem erase_meteredAfterUnpack (top curReaded index : ℤ) (rest : Metered LuaState ℤ) :
    (meteredAfterUnpack top curReaded index rest).erase =
      afterUnpack top curReaded index rest.erase := by
  rw [meteredAfterUnpack, erase_ite, afterUnpack]
  simp

theorem erase_meteredElements {meteredBase : Bytes → ℤ → Metered LuaState ℤ}
    {unpackBase : Bytes → ℤ → LuaM ℤ}
    (base : ∀ buf bufLen, (meteredBase buf bufLen).erase = unpackBase buf bufLen) (top dataI : ℤ)
    (buf : Bytes) (bufLen : ℤ) (count : ℕ) (i readedLen : ℤ) :
    (meteredElements meteredBase top dataI buf bufLen count i readedLen).erase =
      unpackElements unpackBase top dataI buf bufLen count i readedLen := by
  induction count generalizing i readedLen with
  | zero =>
      rw [meteredElements, unpackElements]
      simp
  | succ count ih =>
      rw [meteredElements, unpackElements]
      simp [erase_meteredAfterUnpack, base, ih]

theorem erase_meteredArray {meteredBase : Bytes → ℤ → Metered LuaState ℤ}
    {unpackBase : Bytes → ℤ → LuaM ℤ}
    (base : ∀ buf bufLen, (meteredBase buf bufLen).erase = unpackBase buf bufLen) (size : ℤ)
    (buf : Bytes) (bufLen : ℤ) :
    (meteredArray meteredBase size buf bufLen).erase = unpackArray unpackBase size buf bufLen := by
  rw [meteredArray, unpackArray]
  simp [erase_ite, erase_meteredElements base, checkBuf]

mutual

theorem erase_meteredUnpack : (codec : FcallArg) → (buf : Bytes) → (bufLen : ℤ) →
    (codec.meteredUnpack buf bufLen).erase = codec.unpack buf bufLen
  | .number, _, _ => rfl
  | .byte, _, _ => rfl
  | .word, _, _ => rfl
  | .dword, _, _ => rfl
  | .string, _, _ => rfl
  | .array basePacker size, buf, bufLen => by
      rw [meteredUnpack, unpack]
      exact erase_meteredArray (erase_meteredUnpack basePacker) size buf bufLen
  | .table opcodes, buf, bufLen => by
      rw [meteredUnpack, unpack]
      simp [erase_meteredOpcodes opcodes]

theorem erase_meteredOpcodes : (opcodes : List TableOpcode) → (top : ℤ) → (buf : Bytes) →
    (bufLen readedLen : ℤ) →
    (meteredOpcodes opcodes top buf bufLen readedLen).erase =
      unpackOpcodes opcodes top buf bufLen readedLen
  | [], _, _, _, _ => rfl
  | .tbBegin none :: rest, _, _, _, _ => by
      rw [meteredOpcodes, unpackOpcodes, erase_ite]
      rfl
  | .tbBegin (some key) :: rest, _, _, _, _ => by
      rw [meteredOpcodes, unpackOpcodes, erase_ite]
      simp [erase_meteredOpcodes rest]
  | .pushValue key valueArg :: rest, _, _, _, _ => by
      rw [meteredOpcodes, unpackOpcodes, erase_ite]
      simp [erase_meteredAfterUnpack, erase_meteredUnpack valueArg, erase_meteredOpcodes rest]
  | .tbEnd :: rest, _, _, _, _ => by
      rw [meteredOpcodes, unpackOpcodes, erase_ite]
      simp [erase_meteredOpcodes rest]

end

/-! ## What a format needs -/

mutual

/-- The tables that stay open above the one that is the value. -/
def leftOpen : FcallArg → ℕ
  | .table opcodes => openAfter opcodes 1 - 1
  | _ => 0

/-- The tables that are open after the opcodes, the last of which is not run. -/
def openAfter : List TableOpcode → (depth : ℕ) → ℕ
  | [], depth => depth
  | opcode :: rest, depth =>
      if rest.isEmpty then depth
      else
        match opcode with
        | .tbBegin _ => openAfter rest (depth + 1)
        | .pushValue _ valueArg => openAfter rest (depth + valueArg.leftOpen)
        | .tbEnd => openAfter rest (depth - 1)

end

mutual

/-- The outermost table of a format stays open while the opcodes are run. -/
def Fillable : FcallArg → Prop
  | .table opcodes => Fills opcodes 1
  | .array basePacker _ => basePacker.Fillable
  | _ => True

def Fills : List TableOpcode → (depth : ℕ) → Prop
  | [], _ => True
  | opcode :: rest, depth =>
      rest.isEmpty = true ∨
        match opcode with
        | .tbBegin _ => Fills rest (depth + 1)
        | .pushValue _ valueArg => valueArg.Fillable ∧ Fills rest (depth + valueArg.leftOpen)
        | .tbEnd => 1 < depth ∧ Fills rest (depth - 1)

end

/-- Some value is read while the opcodes are run. -/
def hasLeaf : List TableOpcode → Bool
  | [] => false
  | opcode :: rest =>
      !rest.isEmpty &&
        match opcode with
        | .tbBegin _ => hasLeaf rest
        | .pushValue _ _ => true
        | .tbEnd => hasLeaf rest

mutual

/--
There is a buffer that the format unpacks a value from.  An array whose elements leave tables
open has the wrong height after the first of them.
-/
def accepts : FcallArg → Bool
  | .array basePacker size =>
      size = 0 || (0 < size && basePacker.accepts && basePacker.leftOpen = 0)
  | .table opcodes => completes opcodes && hasLeaf opcodes
  | _ => true

/-- There is a buffer for which the opcodes are run to the end. -/
def completes : List TableOpcode → Bool
  | [] => false
  | opcode :: rest =>
      rest.isEmpty ||
        match opcode with
        | .tbBegin none => false
        | .tbBegin (some _) => completes rest
        | .pushValue _ valueArg => valueArg.accepts && completes rest
        | .tbEnd => completes rest

end

/-- The most elements that an array unpacks; a count on the wire is one byte. -/
def mostElements (size : ℤ) : ℕ := if size = 0 then 255 else size.toNat

/-- The slots for the elements of an array: the last one is above what the others left. -/
def elementsUse (accepted : Bool) (left use : ℕ) : (count : ℕ) → ℕ
  | 0 => 0
  | count + 1 => 1 + use + if accepted then 2 * left * count else 0

mutual

/-- The slots that `unpack` needs for the worst buffer. -/
def stackUse : FcallArg → ℕ
  | .array basePacker size =>
      1 + elementsUse basePacker.accepts basePacker.leftOpen basePacker.stackUse (mostElements size)
  | .table opcodes => opcodesUse opcodes 1
  | _ => 1

/-- The same for opcodes, when some tables are open; each but the first is above a key. -/
def opcodesUse : List TableOpcode → (depth : ℕ) → ℕ
  | [], depth => 2 * depth - 1
  | opcode :: rest, depth =>
      if rest.isEmpty then 2 * depth - 1
      else
        match opcode with
        | .tbBegin none => 2 * depth - 1
        | .tbBegin (some _) => opcodesUse rest (depth + 1)
        | .pushValue _ valueArg =>
            max (2 * depth + valueArg.stackUse)
              (if valueArg.accepts then opcodesUse rest (depth + valueArg.leftOpen) else 0)
        | .tbEnd => max (2 * depth - 1) (opcodesUse rest (depth - 1))

end

/-! ## The shape of opcodes -/

section Opcodes

variable {opcode next : TableOpcode} {later : List TableOpcode} {depth : ℕ}

theorem openAfter_last (opcode : TableOpcode) (depth : ℕ) : openAfter [opcode] depth = depth := by
  rcases opcode with (_ | key) | _ | ⟨key, valueArg⟩
  · rfl
  · rfl
  · rfl
  · rfl

theorem hasLeaf_last (opcode : TableOpcode) : hasLeaf [opcode] = false := by
  rw [hasLeaf.eq_def]
  rfl

theorem opcodesUse_last (opcode : TableOpcode) (depth : ℕ) :
    opcodesUse [opcode] depth = 2 * depth - 1 := by
  rcases opcode with (_ | key) | _ | ⟨key, valueArg⟩
  · rfl
  · rfl
  · rfl
  · rfl

theorem fills_last (opcode : TableOpcode) (depth : ℕ) : Fills [opcode] depth := by
  rcases opcode with (_ | key) | _ | ⟨key, valueArg⟩
  · exact .inl rfl
  · exact .inl rfl
  · exact .inl rfl
  · exact .inl rfl

theorem Fills.tbBegin {key : Option LuaKey} (fills : Fills (.tbBegin key :: next :: later) depth) :
    Fills (next :: later) (depth + 1) :=
  fills.resolve_left not_isEmpty_cons

theorem Fills.pushValue {key : LuaKey} {valueArg : FcallArg}
    (fills : Fills (.pushValue key valueArg :: next :: later) depth) :
    valueArg.Fillable ∧ Fills (next :: later) (depth + valueArg.leftOpen) :=
  fills.resolve_left not_isEmpty_cons

theorem Fills.tbEnd (fills : Fills (.tbEnd :: next :: later) depth) :
    1 < depth ∧ Fills (next :: later) (depth - 1) :=
  fills.resolve_left not_isEmpty_cons

end Opcodes

/-! ## The height after a value -/

/-- A result other than zero comes with so many more slots in use. -/
def Adds (slots : ℕ) (program : LuaM ℤ) : Prop :=
  ∀ state result final, program state = (.ret result, final) → result ≠ 0 →
    final.stack.length = state.stack.length + slots

section Heights

variable {buf : Bytes} {bufLen : ℤ} {state final : LuaState} {result : ℤ}

theorem adds_of_lifts {program : LuaM ℤ} (lifts : ∀ state, Lifts program state state.stack) :
    Adds 1 program := by
  intro state result final returns accepted
  rcases lifts state result final returns with ⟨upper, same, one⟩
  rw [same, List.length_append, one accepted, Nat.add_comm]

theorem height_pop_set {index : ℤ} {value : LuaValue} {popped : Unit}
    (returns : Lua.pop 2 (state.setValueAt index value) = (.ret popped, final)) :
    final.stack.length + 2 = state.stack.length := by
  have kept : (state.setValueAt index value).stack.length = state.stack.length := List.length_set
  rw [Lua.pop] at returns
  split_ifs at returns with enough
  · cases returns
    show (List.drop 2 _).length + 2 = _
    rw [List.length_drop]
    omega
  · cases returns

theorem height_rawset {index : ℤ} {stored : Unit}
    (returns : Lua.rawset index state = (.ret stored, final)) :
    final.stack.length + 2 = state.stack.length := by
  rw [Lua.rawset, Program.bind_of_ret (Lua.valueAt_apply _ _),
    Program.bind_of_ret (Lua.valueAt_apply _ _),
    Program.bind_of_ret (Lua.valueAt_apply _ _)] at returns
  generalize state.valueAt index = found, (state.valueAt (-2)).toKey = key at returns
  rcases found with _ | truth | amount | text | ref | self | fields
  case table =>
    rcases key with _ | key
    · cases returns
    · exact height_pop_set returns
  all_goals cases returns

/-- A length at the end shows that the nested value was there and was stored. -/
theorem afterUnpack_ret {top curReaded index : ℤ} {rest : LuaM ℤ}
    (returns : afterUnpack top curReaded index rest state = (.ret result, final))
    (accepted : result ≠ 0) :
    curReaded ≠ 0 ∧ ∃ after : LuaState, after.stack.length + 2 = state.stack.length ∧
      rest after = (.ret result, final) := by
  unfold afterUnpack at returns
  split_ifs at returns with gaveUp
  · cases returns
    exact absurd rfl accepted
  · rcases Program.bind_eq_ret_iff.mp returns with ⟨_, after, stored, later⟩
    exact ⟨gaveUp, after, height_rawset stored, later⟩

/-- The elements of an array have been stored if the height at the end is as expected. -/
theorem unpackElements_ret {unpackBase : Bytes → ℤ → LuaM ℤ} {left : ℕ}
    (adds : ∀ buf bufLen, Adds (2 * left + 1) (unpackBase buf bufLen)) {top dataI i readedLen : ℤ}
    {count : ℕ} (returns : unpackElements unpackBase top dataI buf bufLen count i readedLen state =
      (.ret result, final)) (accepted : result ≠ 0) :
    final.stack.length = dataI ∧ state.stack.length + 2 * left * count = dataI ∧
      (count = 0 ∧ result = readedLen ∨
        0 < count ∧ ∃ rest remaining before cur after,
          unpackBase rest remaining before = (.ret cur, after) ∧ cur ≠ 0) := by
  induction count generalizing state i readedLen with
  | zero =>
      rcases Program.bind_eq_ret_iff.mp returns with ⟨height, between, measured, asserted⟩
      cases measured
      rcases Program.bind_eq_ret_iff.mp asserted with ⟨_, between, held, returned⟩
      rw [Lua.assert] at held
      split_ifs at held with same
      · have high : (state.stack.length : ℤ) = dataI := of_decide_eq_true same
        cases held
        cases returned
        exact ⟨high, by simpa using high, .inl ⟨rfl, rfl⟩⟩
      · cases held
  | succ count ih =>
      rcases Program.bind_eq_ret_iff.mp returns with ⟨_, before, pushed, nested⟩
      cases pushed
      rcases Program.bind_eq_ret_iff.mp nested with ⟨cur, between, read, goesOn⟩
      rcases afterUnpack_ret goesOn accepted with ⟨nonzero, after, stored, rest⟩
      have higher := adds _ _ _ _ _ read nonzero
      rcases ih rest with ⟨last, whole, -⟩
      refine ⟨last, ?_, .inr ⟨Nat.succ_pos count, _, _, _, cur, between, read, nonzero⟩⟩
      rw [List.length_cons] at higher
      have grown : after.stack.length = state.stack.length + 2 * left := by omega
      rw [← whole, grown]
      push_cast
      ring

end Heights

mutual

theorem adds_unpack : (codec : FcallArg) → codec.Fillable → (buf : Bytes) → (bufLen : ℤ) →
    Adds (2 * codec.leftOpen + 1) (codec.unpack buf bufLen)
  | .number, _, _, _ => adds_of_lifts fun _ => lifts_unpackNumber
  | .byte, _, _, _ => adds_of_lifts fun _ => lifts_unpackFixed 1 id
  | .word, _, _, _ => adds_of_lifts fun _ => lifts_unpackFixed 2 int16
  | .dword, _, _, _ => adds_of_lifts fun _ => lifts_unpackFixed 4 int32
  | .string, _, _, _ => adds_of_lifts fun _ => lifts_unpackString
  | .array basePacker size, fillable, buf, bufLen => by
      intro state result final returns accepted
      have adds := adds_unpack basePacker fillable
      rw [unpack] at returns
      rcases Program.bind_eq_ret_iff.mp returns with ⟨top, _, measured, returns⟩
      cases measured
      rcases Program.bind_eq_ret_iff.mp returns with ⟨_, _, pushed, returns⟩
      cases pushed
      have height : (final.stack.length : ℤ) = state.stack.length + 1 := by
        split_ifs at returns with counted
        · rw [checkBuf] at returns
          split_ifs at returns
          · cases returns
            exact absurd rfl accepted
          · rcases Program.bind_eq_ret_iff.mp returns with ⟨bytes, _, -, returns⟩
            exact (unpackElements_ret adds returns accepted).1
        · exact (unpackElements_ret adds returns accepted).1
      show final.stack.length = state.stack.length + 1
      omega
  | .table opcodes, fillable, buf, bufLen => by
      intro state result final returns accepted
      rw [unpack] at returns
      rcases Program.bind_eq_ret_iff.mp returns with ⟨top, _, measured, returns⟩
      cases measured
      rcases Program.bind_eq_ret_iff.mp returns with ⟨_, _, pushed, returns⟩
      cases pushed
      have start : state.stack.length + 1 + 1 = state.stack.length + 2 * 1 := rfl
      rcases height_unpackOpcodes opcodes fillable (le_refl 1) returns accepted start with
        ⟨positive, height⟩
      rw [leftOpen]
      omega

/-- Each open table but the first is above a key. -/
theorem height_unpackOpcodes : (opcodes : List TableOpcode) → {depth : ℕ} →
    Fills opcodes depth → 1 ≤ depth → {top : ℤ} → {buf : Bytes} → {bufLen readedLen : ℤ} →
    {state final : LuaState} → {result : ℤ} → {base : ℕ} →
    unpackOpcodes opcodes top buf bufLen readedLen state = (.ret result, final) → result ≠ 0 →
    state.stack.length + 1 = base + 2 * depth →
    1 ≤ openAfter opcodes depth ∧
      final.stack.length + 1 = base + 2 * openAfter opcodes depth
  | [], _, _, _, _, _, _, _, _, _, _, _, returns, _, _ => by cases returns
  | [opcode], _, _, positive, _, _, _, _, _, _, _, _, returns, _, start => by
      rw [unpackOpcodes_last] at returns
      cases returns
      rw [openAfter_last]
      exact ⟨positive, start⟩
  | .tbBegin none :: next :: later, _, _, _, _, _, _, _, _, _, _, _, returns, _, _ => by
      cases returns
  | .tbBegin (some key) :: next :: later, depth, fills, _, _, _, _, _, state, _, _, base, returns,
      accepted, start => by
      rw [unpackOpcodes, if_neg not_isEmpty_cons] at returns
      rcases Program.bind_eq_ret_iff.mp returns with ⟨_, _, keyed, returns⟩
      cases keyed
      rcases Program.bind_eq_ret_iff.mp returns with ⟨_, _, pushed, returns⟩
      cases pushed
      have deeper : state.stack.length + 1 + 1 + 1 = base + 2 * (depth + 1) := by omega
      rw [openAfter, if_neg not_isEmpty_cons]
      exact height_unpackOpcodes (next :: later) fills.tbBegin (Nat.le_add_left 1 depth) returns
        accepted deeper
  | .pushValue key valueArg :: next :: later, depth, fills, positive, _, _, _, _, state, _, _, base,
      returns, accepted, start => by
      rw [unpackOpcodes, if_neg not_isEmpty_cons] at returns
      rcases Program.bind_eq_ret_iff.mp returns with ⟨_, _, keyed, nested⟩
      cases keyed
      rcases Program.bind_eq_ret_iff.mp nested with ⟨cur, between, read, finish⟩
      rcases afterUnpack_ret finish accepted with ⟨nonzero, after, stored, rest⟩
      have higher := adds_unpack valueArg fills.pushValue.1 _ _ _ _ _ read nonzero
      rw [List.length_cons] at higher
      have deeper : after.stack.length + 1 = base + 2 * (depth + valueArg.leftOpen) := by omega
      rw [openAfter, if_neg not_isEmpty_cons]
      exact height_unpackOpcodes (next :: later) fills.pushValue.2 (positive.trans (by omega)) rest
        accepted deeper
  | .tbEnd :: next :: later, depth, fills, _, _, _, _, _, _, _, _, base, returns, accepted,
      start => by
      rw [unpackOpcodes, if_neg not_isEmpty_cons] at returns
      rcases Program.bind_eq_ret_iff.mp returns with ⟨_, after, stored, rest⟩
      have lower := height_rawset stored
      have outer := fills.tbEnd.1
      have height : after.stack.length + 1 = base + 2 * (depth - 1) := by omega
      rw [openAfter, if_neg not_isEmpty_cons]
      exact height_unpackOpcodes (next :: later) fills.tbEnd.2 (by omega) rest accepted height

end

/-! ## No value without acceptance -/

mutual

theorem accepts_of_unpack : (codec : FcallArg) → codec.Fillable → {buf : Bytes} → {bufLen : ℤ} →
    {state final : LuaState} → {result : ℤ} →
    codec.unpack buf bufLen state = (.ret result, final) → result ≠ 0 → codec.accepts = true
  | .number, _, _, _, _, _, _, _, _ => rfl
  | .byte, _, _, _, _, _, _, _, _ => rfl
  | .word, _, _, _, _, _, _, _, _ => rfl
  | .dword, _, _, _, _, _, _, _, _ => rfl
  | .string, _, _, _, _, _, _, _, _ => rfl
  | .array basePacker size, fillable, _, _, state, _, _, returns, accepted => by
      by_cases counted : size = 0
      · simp [accepts, counted]
      · rw [unpack] at returns
        rcases Program.bind_eq_ret_iff.mp returns with ⟨top, _, measured, returns⟩
        cases measured
        rcases Program.bind_eq_ret_iff.mp returns with ⟨_, _, pushed, returns⟩
        cases pushed
        rw [if_neg counted] at returns
        rcases unpackElements_ret (adds_unpack basePacker fillable) returns accepted with
          ⟨-, whole, ⟨-, zero⟩ | ⟨some, _, _, _, cur, _, read, nonzero⟩⟩
        · exact absurd zero accepted
        · have element := accepts_of_unpack basePacker fillable read nonzero
          have positive : 0 < size := by omega
          have closed : basePacker.leftOpen = 0 := by
            have none : 2 * (basePacker.leftOpen : ℤ) * (size.toNat : ℤ) = 0 := by
              have start : ((state.stack.length + 1 : ℕ) : ℤ) +
                  2 * (basePacker.leftOpen : ℤ) * (size.toNat : ℤ) = state.stack.length + 1 := whole
              push_cast at start
              linarith
            rcases mul_eq_zero.mp none with zero | zero
            · omega
            · omega
          simp [accepts, positive, element, closed]
  | .table opcodes, fillable, _, _, _, _, _, returns, accepted => by
      rw [unpack] at returns
      rcases Program.bind_eq_ret_iff.mp returns with ⟨top, _, -, returns⟩
      rcases Program.bind_eq_ret_iff.mp returns with ⟨_, _, -, returns⟩
      rcases completes_of_unpackOpcodes opcodes fillable returns accepted with ⟨complete, leaf⟩
      rw [accepts, complete, leaf rfl]
      rfl

theorem completes_of_unpackOpcodes : (opcodes : List TableOpcode) → {depth : ℕ} →
    Fills opcodes depth → {top : ℤ} → {buf : Bytes} →
    {bufLen readedLen : ℤ} → {state final : LuaState} → {result : ℤ} →
    unpackOpcodes opcodes top buf bufLen readedLen state = (.ret result, final) → result ≠ 0 →
    completes opcodes = true ∧ (readedLen = 0 → hasLeaf opcodes = true)
  | [], _, _, _, _, _, _, _, _, _, returns, _ => by cases returns
  | [opcode], _, _, _, _, _, _, _, _, _, returns, accepted => by
      rw [unpackOpcodes_last] at returns
      cases returns
      exact ⟨by simp [completes], fun zero => absurd zero accepted⟩
  | .tbBegin none :: next :: later, _, _, _, _, _, _, _, _, _, returns, _ => by cases returns
  | .tbBegin (some key) :: next :: later, _, fills, _, _, _, _, _, _, _, returns, accepted => by
      rw [unpackOpcodes] at returns
      have rest := completes_of_unpackOpcodes (next :: later) fills.tbBegin returns accepted
      rw [completes, hasLeaf]
      exact ⟨by simpa using rest.1, by simpa using rest.2⟩
  | .pushValue key valueArg :: next :: later, _, fills, _, _, _, _, _, _, _, returns, accepted => by
      rw [unpackOpcodes, if_neg not_isEmpty_cons] at returns
      rcases Program.bind_eq_ret_iff.mp returns with ⟨_, before, -, nested⟩
      rcases Program.bind_eq_ret_iff.mp nested with ⟨cur, after, read, finish⟩
      rcases afterUnpack_ret finish accepted with ⟨nonzero, between, -, rest⟩
      have leaf := accepts_of_unpack valueArg fills.pushValue.1 read nonzero
      have others := completes_of_unpackOpcodes (next :: later) fills.pushValue.2 rest accepted
      rw [completes, hasLeaf, leaf]
      exact ⟨by simpa using others.1, fun _ => rfl⟩
  | .tbEnd :: next :: later, _, fills, _, _, _, _, _, _, _, returns, accepted => by
      rw [unpackOpcodes, if_neg not_isEmpty_cons] at returns
      rcases Program.bind_eq_ret_iff.mp returns with ⟨_, between, -, rest⟩
      have others := completes_of_unpackOpcodes (next :: later) fills.tbEnd.2 rest accepted
      rw [completes, hasLeaf]
      exact ⟨by simpa using others.1, by simpa using others.2⟩

end

end FcallArg

end SimpleModule
