import SimpleModule.Protocol.Locality
import SimpleModule.Protocol.Multicast
import SimpleModule.Protocol.TableTypes

/-!
# The stack of Lua

The formats find their values on the stack of Lua and leave their results there.  They use
indices relative to the top and leave slots behind when they fail, so each of them relies on
what the others do to the stack.

A format with balanced opcodes pushes one value when it unpacks something, and drops what it
has pushed when it packs something.  There is one exception: a number in the slot of a string
is turned into a string there, by `luaL_checklstring`.
-/

namespace SimpleModule

open Octets Exits

/-! ## Balanced opcodes -/

mutual

/-- The opcodes of each table in a format end with the end of that table. -/
def FcallArg.Balanced : FcallArg → Prop
  | .table opcodes => TableOpcode.Closes opcodes 1
  | .array basePacker _ => basePacker.Balanced
  | _ => True

/-- Opcodes that close as many tables as are open, the last of them at the very end. -/
def TableOpcode.Closes : List TableOpcode → (depth : ℕ) → Prop
  | [], depth => depth = 0
  | .tbBegin _ :: rest, depth => 0 < depth ∧ TableOpcode.Closes rest (depth + 1)
  | .pushValue _ valueArg :: rest, depth =>
      0 < depth ∧ valueArg.Balanced ∧ TableOpcode.Closes rest depth
  | .tbEnd :: rest, depth => 0 < depth ∧ TableOpcode.Closes rest (depth - 1)

end

/-- One opcode that closes everything is the end of the only open table. -/
theorem TableOpcode.Closes.last {opcode : TableOpcode} {depth : ℕ}
    (closes : Closes [opcode] depth) : depth = 1 := by
  cases opcode with
  | tbBegin key => exact absurd closes.2 (Nat.succ_ne_zero depth)
  | pushValue key valueArg => exact absurd closes.2.2 closes.1.ne'
  | tbEnd =>
      have positive := closes.1
      have none : depth - 1 = 0 := closes.2
      omega

theorem TableOpcode.not_closes_zero (opcode : TableOpcode) (rest : List TableOpcode) :
    ¬Closes (opcode :: rest) 0 := by
  cases opcode with
  | tbBegin key => exact fun closes => absurd closes.1 (lt_irrefl 0)
  | pushValue key valueArg => exact fun closes => absurd closes.1 (lt_irrefl 0)
  | tbEnd => exact fun closes => absurd closes.1 (lt_irrefl 0)

mutual

/-- Every format that is compiled from a type is balanced. -/
theorem ArgType.balanced_compile : (type : ArgType) → type.compile.Balanced
  | .number => trivial
  | .byte => trivial
  | .word => trivial
  | .dword => trivial
  | .string => trivial
  | .array element _ => element.balanced_compile
  | .table fields => by
      have closes : TableOpcode.Closes [.tbEnd] 1 := ⟨Nat.one_pos, rfl⟩
      exact ArgType.closes_compileFields fields Nat.one_pos closes

/-- The opcodes of fields leave the same tables open. -/
theorem ArgType.closes_compileFields : (fields : TableShape ArgType) → {depth : ℕ} → 0 < depth →
    {later : List TableOpcode} → TableOpcode.Closes later depth →
    TableOpcode.Closes ((ArgType.compileFields fields).fieldOpcodes ++ later) depth
  | .nil, _, _, _, closes => closes
  | .value key type rest, _, positive, _, closes =>
      ⟨positive, type.balanced_compile, ArgType.closes_compileFields rest positive closes⟩
  | .sub key fields rest, depth, positive, later, closes => by
      have behind : TableOpcode.Closes
          (.tbEnd :: ((ArgType.compileFields rest).fieldOpcodes ++ later)) (depth + 1) :=
        ⟨Nat.succ_pos depth, ArgType.closes_compileFields rest positive closes⟩
      have inner := ArgType.closes_compileFields fields (Nat.succ_pos depth) behind
      rw [← List.cons_append, ← List.append_assoc] at inner
      exact ⟨positive, inner⟩

end

namespace FcallArg

/-! ## Unpacking -/

/-- The program leaves the stack below alone, and a result that is not zero is one value. -/
def Lifts (program : LuaM ℤ) (state : LuaState) (below : List LuaValue) : Prop :=
  ∀ result final, program state = (.ret result, final) →
    ∃ upper, final.stack = upper ++ below ∧ (result ≠ 0 → upper.length = 1)

/-- Tables that are being filled; each but the first is above the key that it is for. -/
inductive Filling (below : List LuaValue) : ℕ → List LuaValue → Prop
  | root (fields : List (LuaKey × LuaValue)) : Filling below 1 (.table fields :: below)
  | nested {depth : ℕ} {stack : List LuaValue} (key : LuaKey)
      (fields : List (LuaKey × LuaValue)) (outer : Filling below depth stack) :
      Filling below (depth + 1) (.table fields :: key.toValue :: stack)

section Filling

variable {below stack : List LuaValue} {depth : ℕ}

theorem Filling.length (filling : Filling below depth stack) :
    stack.length + 1 = below.length + 2 * depth := by
  induction filling with
  | root fields => simp
  | nested key fields outer ih =>
      rw [List.length_cons, List.length_cons]
      omega

theorem Filling.exists_table (filling : Filling below depth stack) :
    ∃ fields rest, stack = .table fields :: rest := by
  cases filling with
  | root fields => exact ⟨fields, below, rfl⟩
  | nested key fields outer => exact ⟨fields, _, rfl⟩

/-- The innermost table may get other entries. -/
theorem Filling.refill {fields : List (LuaKey × LuaValue)} {rest : List LuaValue}
    (filling : Filling below depth (.table fields :: rest)) (other : List (LuaKey × LuaValue)) :
    Filling below depth (.table other :: rest) := by
  cases filling with
  | root => exact .root other
  | nested key _ outer => exact .nested key other outer

theorem Filling.below_suffix (filling : Filling below depth stack) :
    ∃ upper, stack = upper ++ below := by
  induction filling with
  | root fields => exact ⟨[.table fields], rfl⟩
  | nested key fields outer ih =>
      rcases ih with ⟨upper, rfl⟩
      exact ⟨.table fields :: key.toValue :: upper, rfl⟩

end Filling

section Unpacking

variable {state : LuaState} {buf : Bytes} {bufLen : ℤ}

theorem settop_above (upper below : List LuaValue) (out : Bytes)
    (calls : List (LuaValue × List LuaValue)) :
    Lua.settop below.length ⟨upper ++ below, out, calls⟩ = (.ret (), ⟨below, out, calls⟩) := by
  rw [Lua.settop_apply, Int.toNat_natCast, List.length_append, Nat.add_sub_cancel, List.drop_left]

theorem fetch_ret {offset count : ℕ} {bytes : Bytes} {final : LuaState}
    (returns : fetch buf offset count state = (.ret bytes, final)) : final = state := by
  unfold fetch at returns
  split_ifs at returns
  · cases returns
    rfl
  · cases returns

/-- A check of the buffer is one more way to push nothing. -/
theorem lifts_checkBuf {dataLen : ℤ} {rest : LuaM ℤ} (lifts : Lifts rest state state.stack) :
    Lifts (checkBuf dataLen bufLen rest) state state.stack := by
  unfold checkBuf
  split_ifs
  · intro result final returns
    cases returns
    exact ⟨[], rfl, fun nonzero => absurd rfl nonzero⟩
  · exact lifts

theorem lifts_fetch {offset count : ℕ} {rest : Bytes → LuaM ℤ}
    (lifts : ∀ bytes, Lifts (rest bytes) state state.stack) :
    Lifts (fetch buf offset count >>= rest) state state.stack := by
  intro result final returns
  rcases Program.bind_eq_ret_iff.mp returns with ⟨bytes, between, fetched, later⟩
  rcases fetch_ret fetched with rfl
  exact lifts bytes result final later

theorem lifts_ite {condition : Prop} [Decidable condition] {first second : LuaM ℤ}
    {below : List LuaValue} (yes : Lifts first state below) (no : Lifts second state below) :
    Lifts (if condition then first else second) state below := by
  split_ifs
  · exact yes
  · exact no

theorem lifts_pure_zero : Lifts (pure 0) state state.stack := by
  intro result final returns
  cases returns
  exact ⟨[], rfl, fun nonzero => absurd rfl nonzero⟩

theorem lifts_push (value : LuaValue) (result : ℤ) :
    Lifts (Lua.push value >>= fun _ => pure result) state state.stack := by
  intro returned final returns
  cases returns
  exact ⟨[value], rfl, fun _ => rfl⟩

theorem lifts_unpackNumber : Lifts (unpackNumber buf bufLen) state state.stack := by
  apply lifts_checkBuf
  apply lifts_fetch
  intro bytes
  apply lifts_ite lifts_pure_zero
  apply lifts_checkBuf
  apply lifts_fetch
  intro data
  exact lifts_push _ _

theorem lifts_unpackFixed (width : ℕ) (read : ℤ → ℤ) :
    Lifts (unpackFixed width read buf bufLen) state state.stack := by
  apply lifts_checkBuf
  apply lifts_fetch
  intro bytes
  exact lifts_push _ _

theorem lifts_unpackChars (offset strId : ℕ) :
    Lifts (unpackChars buf bufLen offset strId) state state.stack := by
  apply lifts_ite lifts_pure_zero
  apply lifts_checkBuf
  apply lifts_fetch
  intro bytes
  exact lifts_push _ _

theorem lifts_unpackString : Lifts (unpackString buf bufLen) state state.stack := by
  apply lifts_checkBuf
  apply lifts_fetch
  intro bytes
  apply lifts_ite
  · exact lifts_ite (lifts_push _ _) (lifts_unpackChars _ _)
  · apply lifts_checkBuf
    apply lifts_fetch
    intro more
    exact lifts_unpackChars _ _

/-- A nested value is stored in the table below its key, or everything is dropped. -/
theorem lifts_afterUnpack {nested : LuaM ℤ} {rest : ℤ → LuaM ℤ} {key : LuaKey}
    {fields : List (LuaKey × LuaValue)} {stack below : List LuaValue} {index : ℤ} {out : Bytes}
    {calls : List (LuaValue × List LuaValue)}
    (inner : Lifts nested ⟨key.toValue :: .table fields :: stack, out, calls⟩
      (key.toValue :: .table fields :: stack))
    (above : ∃ upper, .table fields :: stack = upper ++ below)
    (addressed : ∀ value out calls,
      LuaState.slot ⟨value :: key.toValue :: .table fields :: stack, out, calls⟩ index = 2)
    (later : ∀ curReaded other out calls,
      Lifts (rest curReaded) ⟨.table other :: stack, out, calls⟩ below) :
    Lifts (nested >>= fun curReaded => afterUnpack below.length curReaded index (rest curReaded))
      ⟨key.toValue :: .table fields :: stack, out, calls⟩ below := by
  intro result final returns
  rcases Program.bind_eq_ret_iff.mp returns with ⟨curReaded, ⟨raised, out', calls'⟩, read, goesOn⟩
  rcases inner curReaded _ read with ⟨pushed, same, one⟩
  subst same
  unfold afterUnpack at goesOn
  split_ifs at goesOn with gaveUp
  · rcases above with ⟨upper, whole⟩
    rw [whole, ← List.cons_append, ← List.append_assoc,
      Program.bind_of_ret (settop_above _ below out' calls')] at goesOn
    cases goesOn
    exact ⟨[], rfl, fun nonzero => absurd rfl nonzero⟩
  · rcases List.length_eq_one_iff.mp (one gaveUp) with ⟨value, rfl⟩
    rw [List.singleton_append, Program.bind_of_ret
      (Lua.rawset_apply stack out' calls' fields key value (addressed value out' calls'))] at goesOn
    exact later curReaded _ out' calls' result final goesOn

theorem lifts_unpackElements {unpackBase : Bytes → ℤ → LuaM ℤ}
    (base : ∀ buf bufLen state, Lifts (unpackBase buf bufLen) state state.stack)
    {below : List LuaValue} (count : ℕ) (i readedLen : ℤ) (fields : List (LuaKey × LuaValue))
    (out : Bytes) (calls : List (LuaValue × List LuaValue)) :
    Lifts (unpackElements unpackBase below.length (below.length + 1) buf bufLen count i readedLen)
      ⟨.table fields :: below, out, calls⟩ below := by
  induction count generalizing i readedLen fields out calls with
  | zero =>
      intro result final returns
      rw [unpackElements, Program.bind_of_ret (Lua.gettop_apply _),
        Program.bind_of_ret (Lua.assert_apply (by simp) _)] at returns
      cases returns
      exact ⟨[.table fields], rfl, fun _ => rfl⟩
  | succ count ih =>
      rw [unpackElements]
      intro result final returns
      rw [Program.bind_of_ret (Lua.push_apply _ _)] at returns
      have key : LuaValue.number (i + 1 : ℤ) = (LuaKey.number (i + 1 : ℤ)).toValue := rfl
      rw [key] at returns
      refine lifts_afterUnpack (base _ _ _) ⟨[.table fields], rfl⟩ ?_ ?_ result final returns
      · intro value out calls
        exact LuaState.slot_third _ _ _ _ _ _
      · intro curReaded other out calls
        exact ih (i + 1) (readedLen + curReaded) other out calls

theorem lifts_unpackArray {unpackBase : Bytes → ℤ → LuaM ℤ}
    (base : ∀ buf bufLen state, Lifts (unpackBase buf bufLen) state state.stack) (size : ℤ) :
    Lifts (unpackArray unpackBase size buf bufLen) state state.stack := by
  intro result final returns
  rw [unpackArray, Program.bind_of_ret (Lua.gettop_apply _),
    Program.bind_of_ret (Lua.newtable_apply _)] at returns
  split_ifs at returns
  · unfold checkBuf at returns
    split_ifs at returns
    · cases returns
      exact ⟨[.table []], rfl, fun _ => rfl⟩
    · rcases Program.bind_eq_ret_iff.mp returns with ⟨bytes, between, fetched, later⟩
      rcases fetch_ret fetched with rfl
      exact lifts_unpackElements base _ _ _ _ _ _ result final later
  · exact lifts_unpackElements base _ _ _ _ _ _ result final returns

end Unpacking

theorem not_isEmpty_cons {next : TableOpcode} {later : List TableOpcode} :
    ¬(next :: later).isEmpty = true := Bool.false_ne_true

theorem unpackOpcodes_last (opcode : TableOpcode) (top : ℤ) (buf : Bytes)
    (bufLen readedLen : ℤ) :
    unpackOpcodes [opcode] top buf bufLen readedLen = pure readedLen := by
  rcases opcode with (_ | key) | _ | ⟨key, valueArg⟩
  · rw [unpackOpcodes]
    rfl
  · rw [unpackOpcodes]
    rfl
  · rw [unpackOpcodes]
    rfl
  · rw [unpackOpcodes]
    rfl

mutual

/-- `unpack` pushes one value if it returns a length, and leaves the slots below alone. -/
theorem lifts_unpack : (codec : FcallArg) → codec.Balanced → (buf : Bytes) → (bufLen : ℤ) →
    (state : LuaState) → Lifts (codec.unpack buf bufLen) state state.stack
  | .number, _, _, _, _ => by
      rw [unpack]
      exact lifts_unpackNumber
  | .byte, _, _, _, _ => by
      rw [unpack]
      exact lifts_unpackFixed 1 id
  | .word, _, _, _, _ => by
      rw [unpack]
      exact lifts_unpackFixed 2 int16
  | .dword, _, _, _, _ => by
      rw [unpack]
      exact lifts_unpackFixed 4 int32
  | .string, _, _, _, _ => by
      rw [unpack]
      exact lifts_unpackString
  | .array basePacker size, balanced, _, _, _ => by
      rw [unpack]
      exact lifts_unpackArray (lifts_unpack basePacker balanced) size
  | .table opcodes, balanced, buf, bufLen, state => by
      intro result final returns
      rw [unpack, Program.bind_of_ret (Lua.gettop_apply _),
        Program.bind_of_ret (Lua.newtable_apply _)] at returns
      exact lifts_unpackOpcodes opcodes balanced (.root []) buf bufLen 0 _ _ result final returns

theorem lifts_unpackOpcodes : (opcodes : List TableOpcode) → {depth : ℕ} →
    TableOpcode.Closes opcodes depth → {below stack : List LuaValue} →
    Filling below depth stack → (buf : Bytes) → (bufLen readedLen : ℤ) → (out : Bytes) →
    (calls : List (LuaValue × List LuaValue)) →
    Lifts (unpackOpcodes opcodes below.length buf bufLen readedLen) ⟨stack, out, calls⟩ below
  | [], _, _, _, _, _, _, _, _, _, _ => by
      intro result final returns
      cases returns
  | [opcode], _, closes, _, _, filling, _, _, _, _, _ => by
      intro result final returns
      rw [unpackOpcodes_last] at returns
      cases returns
      have one := closes.last
      subst one
      rcases filling.exists_table with ⟨fields, rest, rfl⟩
      cases filling with
      | root => exact ⟨[.table fields], rfl, fun _ => rfl⟩
      | nested key _ outer => cases outer
  | .tbBegin none :: next :: later, _, _, _, _, _, _, _, _, _, _ => by
      intro result final returns
      cases returns
  | .tbBegin (some key) :: next :: later, _, closes, _, _, filling, buf, bufLen, readedLen, out,
      calls => by
      intro result final returns
      rw [unpackOpcodes] at returns
      exact lifts_unpackOpcodes (next :: later) closes.2 (.nested key [] filling) buf bufLen
        readedLen out calls result final returns
  | .pushValue key valueArg :: next :: later, _, closes, below, _, filling, buf, bufLen, readedLen,
      out, calls => by
      intro result final returns
      rw [unpackOpcodes] at returns
      rcases filling.below_suffix with ⟨upper, whole⟩
      rcases filling.exists_table with ⟨fields, rest, rfl⟩
      refine lifts_afterUnpack (lifts_unpack valueArg closes.2.1 _ _ _) ⟨upper, whole⟩ ?_ ?_ result
        final returns
      · intro value out calls
        simp [LuaState.slot]
      · intro curReaded other out calls
        exact lifts_unpackOpcodes (next :: later) closes.2.2 (filling.refill other) buf bufLen
          (readedLen + curReaded) out calls
  | .tbEnd :: next :: later, _, closes, below, _, filling, buf, bufLen, readedLen, out, calls => by
      intro result final returns
      rw [unpackOpcodes, if_neg not_isEmpty_cons] at returns
      cases filling with
      | root fields => exact absurd closes.2 (TableOpcode.not_closes_zero next later)
      | nested key fields outer =>
          rcases outer.exists_table with ⟨others, rest, rfl⟩
          have addressed : LuaState.slot
              ⟨.table fields :: key.toValue :: .table others :: rest, out, calls⟩ (-3) = 2 := by
            simp [LuaState.slot]
          rw [Program.bind_of_ret
            (Lua.rawset_apply rest out calls others key _ addressed)] at returns
          exact lifts_unpackOpcodes (next :: later) closes.2 (outer.refill _) buf bufLen readedLen
            out calls result final returns

end

/-! ## Packing -/

/-- The program leaves this stack when it returns. -/
def Leaves (program : LuaM ℤ) (state : LuaState) (stack : List LuaValue) : Prop :=
  ∀ result final, program state = (.ret result, final) → final.stack = stack

/-- The stack after `pack`: a string is left in place of a number. -/
def stackAfter (numerals : Numerals) (dataIn : ℤ) (state : LuaState) : FcallArg → List LuaValue
  | .string => stringStack numerals dataIn state
  | _ => state.stack

section Packing

variable {numerals : Numerals} {state : LuaState} {dataIn bufLen : ℤ}

theorem leaves_pure (value : ℤ) : Leaves (pure value) state state.stack := by
  intro result final returns
  cases returns
  rfl

theorem leaves_checkBuf {dataLen : ℤ} {rest : LuaM ℤ} (leaves : Leaves rest state state.stack) :
    Leaves (checkBuf dataLen bufLen rest) state state.stack := by
  unfold checkBuf
  split_ifs
  · exact leaves_pure 0
  · exact leaves

theorem leaves_emit {bytes : Bytes} {rest : LuaM ℤ}
    (leaves : Leaves rest { state with out := state.out ++ bytes } state.stack) :
    Leaves (Lua.emit bytes >>= fun _ => rest) state state.stack := by
  intro result final returns
  rw [Program.bind_of_ret (Lua.emit_apply _ _)] at returns
  exact leaves result final returns

theorem leaves_packNumber : Leaves (packNumber dataIn bufLen) state state.stack := by
  intro result final returns
  rcases Program.bind_eq_ret_iff.mp returns with ⟨amount, between, read, written⟩
  rcases checknumber_ret read with rfl
  exact leaves_checkBuf (leaves_emit (leaves_emit (leaves_pure _))) result final written

theorem leaves_packFixed (width : ℕ) :
    Leaves (packFixed width dataIn bufLen) state state.stack := by
  intro result final returns
  rcases Program.bind_eq_ret_iff.mp returns with ⟨amount, between, read, written⟩
  rcases checknumber_ret read with rfl
  exact leaves_checkBuf (leaves_emit (leaves_pure _)) result final written

theorem leaves_packString :
    Leaves (packString numerals dataIn bufLen) state (stringStack numerals dataIn state) := by
  intro result final returns
  rcases Program.bind_eq_ret_iff.mp returns with ⟨text, between, read, written⟩
  have kept : between.stack = stringStack numerals dataIn state := by
    rw [checklstring_eq] at read
    split at read
    · cases read
    · rw [← (Prod.mk.inj read).2]
  rw [← kept]
  split_ifs at written
  · exact leaves_checkBuf (leaves_emit (leaves_emit (leaves_pure _))) result final written
  · exact leaves_checkBuf (leaves_emit (leaves_emit (leaves_emit (leaves_pure _)))) result final
      written
  · exact leaves_pure _ result final written

/-- A conversion in the slot on the top does not concern the others. -/
theorem stackAfter_top (codec : FcallArg) {value : LuaValue} {rest : List LuaValue} {out : Bytes}
    {calls : List (LuaValue × List LuaValue)}
    (addressed : LuaState.slot ⟨value :: rest, out, calls⟩ dataIn = 0) :
    ∃ converted, stackAfter numerals dataIn ⟨value :: rest, out, calls⟩ codec =
      converted :: rest := by
  have above : LuaState.slot ⟨[value] ++ rest, out, calls⟩ dataIn < ([value].length : ℕ) := by
    rw [List.singleton_append, addressed]
    exact Int.one_pos
  cases codec with
  | string =>
      have kept : ∃ converted, converted.length = [value].length ∧
          stringStack numerals dataIn ⟨[value] ++ rest, out, calls⟩ = converted ++ rest :=
        stringStack_append above
      rcases kept with ⟨converted, one, same⟩
      rcases List.length_eq_one_iff.mp one with ⟨text, rfl⟩
      exact ⟨text, same⟩
  | number => exact ⟨value, rfl⟩
  | byte => exact ⟨value, rfl⟩
  | word => exact ⟨value, rfl⟩
  | dword => exact ⟨value, rfl⟩
  | table opcodes => exact ⟨value, rfl⟩
  | array basePacker size => exact ⟨value, rfl⟩

theorem stackAfter_eq {codec : FcallArg}
    (noNumber : codec = .string → ∀ amount, state.valueAt dataIn ≠ .number amount) :
    stackAfter numerals dataIn state codec = state.stack := by
  cases codec with
  | string =>
      have absent := noNumber rfl
      rw [stackAfter]
      unfold stringStack
      split
      · rename_i amount given
        exact absurd given (absent amount)
      · rfl
  | number => rfl
  | byte => rfl
  | word => rfl
  | dword => rfl
  | table opcodes => rfl
  | array basePacker size => rfl

/-- A value on the top is packed and dropped, or everything above the entry is dropped. -/
theorem leaves_afterPack {nested : LuaM ℤ} {rest : ℤ → LuaM ℤ} {value : LuaValue}
    (upper : List LuaValue) {below : List LuaValue} {out : Bytes}
    {calls : List (LuaValue × List LuaValue)}
    (inner : ∃ converted, Leaves nested ⟨value :: (upper ++ below), out, calls⟩
      (converted :: (upper ++ below)))
    (later : ∀ curUsed out calls, Leaves (rest curUsed) ⟨upper ++ below, out, calls⟩ below) :
    Leaves (nested >>= fun curUsed => afterPack below.length curUsed (rest curUsed))
      ⟨value :: (upper ++ below), out, calls⟩ below := by
  intro result final returns
  rcases Program.bind_eq_ret_iff.mp returns with ⟨curUsed, ⟨kept, out', calls'⟩, packed, goesOn⟩
  rcases inner with ⟨converted, leaves⟩
  obtain rfl : kept = converted :: (upper ++ below) := leaves curUsed _ packed
  unfold afterPack at goesOn
  split_ifs at goesOn with gaveUp
  · rw [← List.cons_append, Program.bind_of_ret (settop_above _ below out' calls')] at goesOn
    cases goesOn
    rfl
  · rw [Program.bind_of_ret (Lua.pop_one_apply _ _ _ _)] at goesOn
    exact later curUsed out' calls' result final goesOn

theorem leaves_packElements {packBase : ℤ → ℤ → LuaM ℤ}
    (base : ∀ value rest out calls remaining, ∃ converted,
      Leaves (packBase (-1) remaining) ⟨value :: rest, out, calls⟩ (converted :: rest))
    (count : ℕ) (i usedLen : ℤ) (stack : List LuaValue) (out : Bytes)
    (calls : List (LuaValue × List LuaValue)) :
    Leaves (packElements packBase stack.length dataIn bufLen count i usedLen) ⟨stack, out, calls⟩
      stack := by
  induction count generalizing i usedLen out calls with
  | zero =>
      intro result final returns
      cases returns
      rfl
  | succ count ih =>
      intro result final returns
      rcases Program.bind_eq_ret_iff.mp returns with ⟨_, between, pushed, packed⟩
      by_cases isTable : (LuaState.valueAt ⟨stack, out, calls⟩ dataIn).isTable = true
      · rw [Lua.rawgeti_apply i isTable] at pushed
        cases pushed
        refine leaves_afterPack [] (base _ _ _ _ _) ?_ result final packed
        intro curUsed out calls
        exact ih (i + 1) (usedLen + curUsed) out calls
      · simp [Lua.rawgeti, Program.bind_apply, isTable] at pushed

theorem leaves_packArray {packBase : ℤ → ℤ → LuaM ℤ}
    (base : ∀ value rest out calls remaining, ∃ converted,
      Leaves (packBase (-1) remaining) ⟨value :: rest, out, calls⟩ (converted :: rest))
    (size : ℤ) : Leaves (packArray packBase size dataIn bufLen) state state.stack := by
  have counted (arrayLen usedLen : ℤ) (out : Bytes) :
      Leaves (packCounted packBase state.stack.length dataIn bufLen arrayLen usedLen)
        ⟨state.stack, out, state.calls⟩ state.stack := by
    unfold packCounted
    split_ifs
    · exact leaves_pure 0
    · exact leaves_packElements base _ _ _ _ _ _
  intro result final returns
  simp only [packArray, Program.bind_apply, Lua.gettop_apply, Lua.valueAt_apply] at returns
  split_ifs at returns
  · exact leaves_checkBuf (leaves_emit (counted _ _ _)) result final returns
  · exact counted _ _ _ result final returns
  · cases returns

end Packing

mutual

/-- `pack` leaves the stack as it was, up to the conversion of a number. -/
theorem leaves_pack (numerals : Numerals) : (codec : FcallArg) → codec.Balanced →
    (dataIn bufLen : ℤ) → (state : LuaState) →
    Leaves (codec.pack numerals dataIn bufLen) state (stackAfter numerals dataIn state codec)
  | .number, _, _, _, _ => by
      rw [pack]
      exact leaves_packNumber
  | .byte, _, _, _, _ => by
      rw [pack]
      exact leaves_packFixed 1
  | .word, _, _, _, _ => by
      rw [pack]
      exact leaves_packFixed 2
  | .dword, _, _, _, _ => by
      rw [pack]
      exact leaves_packFixed 4
  | .string, _, _, _, _ => by
      rw [pack]
      exact leaves_packString
  | .array basePacker size, balanced, _, _, _ => by
      rw [pack]
      apply leaves_packArray
      intro value rest out calls remaining
      have top : LuaState.slot ⟨value :: rest, out, calls⟩ (-1) = 0 := by simp [LuaState.slot]
      rcases stackAfter_top basePacker top with ⟨converted, same⟩
      exact ⟨converted, same ▸ leaves_pack numerals basePacker balanced (-1) remaining _⟩
  | .table opcodes, balanced, dataIn, bufLen, state => by
      intro result final returns
      simp only [pack, Program.bind_apply, Lua.gettop_apply, Lua.valueAt_apply] at returns
      split_ifs at returns with isTable
      · have one : [state.valueAt dataIn].length = 1 := rfl
        exact leaves_packOpcodes numerals opcodes balanced one bufLen 0 _ _ result final returns
      · cases returns

theorem leaves_packOpcodes (numerals : Numerals) : (opcodes : List TableOpcode) →
    {depth : ℕ} → TableOpcode.Closes opcodes depth → {tables below : List LuaValue} →
    tables.length = depth → (bufLen usedLen : ℤ) → (out : Bytes) →
    (calls : List (LuaValue × List LuaValue)) →
    Leaves (packOpcodes numerals opcodes below.length bufLen usedLen)
      ⟨tables ++ below, out, calls⟩ below
  | [], _, _, tables, below, _, _, _, out, calls => by
      intro result final returns
      rw [packOpcodes, Program.bind_of_ret (settop_above tables below out calls)] at returns
      cases returns
      rfl
  | .tbBegin none :: _, _, _, _, _, _, _, _, _, _ => by
      intro result final returns
      cases returns
  | .tbBegin (some key) :: rest, _, closes, tables, below, height, bufLen, usedLen, out, calls => by
      intro result final returns
      rw [packOpcodes, Program.bind_of_ret (Lua.getref_apply _ _)] at returns
      rcases Program.bind_eq_ret_iff.mp returns with ⟨_, between, got, later⟩
      rcases rawget_ret got with ⟨value, rfl⟩
      rw [Program.bind_of_ret (Lua.valueAt_apply _ _)] at later
      split_ifs at later
      · have deeper : (value :: tables).length = _ + 1 := congrArg Nat.succ height
        exact leaves_packOpcodes numerals rest closes.2 deeper bufLen usedLen out calls result final
          later
      · cases later
  | .pushValue key valueArg :: rest, _, closes, tables, below, height, bufLen, usedLen, out,
      calls => by
      intro result final returns
      rw [packOpcodes, Program.bind_of_ret (Lua.getref_apply _ _)] at returns
      rcases Program.bind_eq_ret_iff.mp returns with ⟨_, between, got, later⟩
      rcases rawget_ret got with ⟨value, rfl⟩
      rw [Program.bind_of_ret (Lua.gettop_apply _)] at later
      have top : LuaState.slot ⟨value :: (tables ++ below), out, calls⟩
          ((value :: (tables ++ below)).length : ℕ) = 0 := by
        simp [LuaState.slot]
        omega
      rcases stackAfter_top valueArg top with ⟨converted, same⟩
      refine leaves_afterPack tables ⟨converted, ?_⟩ ?_ result final later
      · exact same ▸ leaves_pack numerals valueArg closes.2.1 _ _ _
      · intro curUsed out calls
        exact leaves_packOpcodes numerals rest closes.2.2 height bufLen (usedLen + curUsed) out
          calls
  | .tbEnd :: rest, depth, closes, tables, below, height, bufLen, usedLen, out, calls => by
      intro result final returns
      cases tables with
      | nil =>
          have positive := closes.1
          rw [← height] at positive
          cases positive
      | cons table tables =>
          rw [packOpcodes, List.cons_append,
            Program.bind_of_ret (Lua.pop_one_apply _ _ _ _)] at returns
          have fewer : tables.length = depth - 1 := by
            rw [← height]
            rfl
          exact leaves_packOpcodes numerals rest closes.2 fewer bufLen usedLen out calls result
            final returns

end

/-- A string always returns, whatever the length of the text. -/
theorem packString_returns {numerals : Numerals} {dataIn : ℤ} {state : LuaState} {text : Bytes}
    (converted : (state.valueAt dataIn).toBytes numerals = some text) (bufLen : ℤ) :
    ∃ result final, packString numerals dataIn bufLen state = (.ret result, final) := by
  have read := checklstring_eq numerals dataIn state
  rw [converted] at read
  rw [packString, Program.bind_of_ret read]
  simp only [checkBuf]
  split_ifs
  · exact ⟨_, _, rfl⟩
  · exact ⟨_, _, rfl⟩
  · exact ⟨_, _, rfl⟩
  · exact ⟨_, _, rfl⟩
  · exact ⟨_, _, rfl⟩

/-- A number is not left in its slot. -/
theorem stringStack_ne {numerals : Numerals} {dataIn : ℤ} {state : LuaState} {amount : ℚ}
    (given : state.valueAt dataIn = .number amount) :
    stringStack numerals dataIn state ≠ state.stack := by
  intro same
  simp only [stringStack, given, LuaState.setValueAt] at same
  rw [LuaState.valueAt] at given
  split_ifs at given with inside
  have found : state.stack.getD (state.slot dataIn).toNat .nil =
      .string (numerals.number2str amount) := by
    have within : (state.slot dataIn).toNat < state.stack.length := by
      by_contra outside
      rw [List.getD_eq_default _ _ (not_lt.mp outside)] at given
      cases given
    rw [← same, List.getD_eq_getElem?_getD, List.getElem?_set_self (by simpa using within)]
    rfl
  rw [given] at found
  cases found

end FcallArg

namespace NetProtocol

open FcallArg

/-! ## Protocols -/

/-- The loop of `unpack` has read one value for each argument, in order. -/
inductive Decoded (buf : Bytes) (bufLen : ℤ) :
    List ArgObj → ℤ → LuaState → List LuaValue → ℤ → LuaState → Prop
  | nil (readedLen : ℤ) (state : LuaState) :
      Decoded buf bufLen [] readedLen state [] readedLen state
  | cons {arg : ArgObj} {rest : List ArgObj} {readedLen curReaded last : ℤ}
      {state next final : LuaState} {value : LuaValue} {values : List LuaValue}
      (read : arg.codec.unpack (buf.drop readedLen.toNat) (bufLen - readedLen) state =
        (.ret curReaded, next))
      (accepted : curReaded ≠ 0) (pushed : next.stack = value :: state.stack)
      (later : Decoded buf bufLen rest (readedLen + curReaded) next values last final) :
      Decoded buf bufLen (arg :: rest) readedLen state (value :: values) last final

/-- What the loop and the code behind it can do. -/
inductive LoopOutcome (buf : Bytes) (bufLen : ℤ) (finish : ℤ → LuaM ℤ) (args : List ArgObj)
    (readedLen : ℤ) (state : LuaState) (below : List LuaValue) : Exit ℤ × LuaState → Prop
  | finished {values : List LuaValue} {last : ℤ} {final : LuaState}
      (decoded : Decoded buf bufLen args readedLen state values last final) :
      LoopOutcome buf bufLen finish args readedLen state below (finish last final)
  | refused {final : LuaState} (dropped : final.stack = below)
      (uncalled : final.calls = state.calls) :
      LoopOutcome buf bufLen finish args readedLen state below (.ret errorUnpackFormat, final)
  | stopped {ended : Exit ℤ} {final : LuaState} (exits : ended.returned = none)
      (uncalled : final.calls = state.calls) :
      LoopOutcome buf bufLen finish args readedLen state below (ended, final)

section Loop

variable {buf : Bytes} {bufLen : ℤ} {args : List ArgObj} {readedLen : ℤ}
  {state : LuaState} {below : List LuaValue}

theorem Decoded.length_eq {values : List LuaValue} {last : ℤ} {final : LuaState}
    (decoded : Decoded buf bufLen args readedLen state values last final) :
    values.length = args.length := by
  induction decoded with
  | nil => rfl
  | cons read accepted pushed later ih => rw [List.length_cons, List.length_cons, ih]

theorem Decoded.stack_eq {values : List LuaValue} {last : ℤ} {final : LuaState}
    (decoded : Decoded buf bufLen args readedLen state values last final) :
    final.stack = values.reverse ++ state.stack := by
  induction decoded with
  | nil => rfl
  | cons read accepted pushed later ih => rw [ih, pushed, List.reverse_cons, List.append_cons]

theorem unpackArgs_outcome (finish : ℤ → LuaM ℤ) (balanced : ∀ arg ∈ args, arg.codec.Balanced)
    (above : ∃ upper, state.stack = upper ++ below) :
    LoopOutcome buf bufLen finish args readedLen state below
      (unpackArgs below.length buf bufLen finish args readedLen state) := by
  induction args generalizing readedLen state with
  | nil => exact .finished (.nil readedLen state)
  | cons arg rest ih =>
      rw [unpackArgs, Program.bind_apply]
      have uncalled := keeps_unpack arg.codec (buf.drop readedLen.toNat)
        (bufLen - readedLen) state
      have lifts := lifts_unpack arg.codec (balanced arg (.head _)) (buf.drop readedLen.toNat)
        (bufLen - readedLen) state
      rcases read : arg.codec.unpack (buf.drop readedLen.toNat) (bufLen - readedLen) state with
        ⟨curReaded | _ | _ | _, next⟩
      · rw [read] at uncalled
        rcases lifts curReaded next read with ⟨pushed, same, one⟩
        simp only
        split_ifs with gaveUp
        · rcases above with ⟨upper, whole⟩
          rw [whole, ← List.append_assoc] at same
          rcases next with ⟨raised, out, calls⟩
          obtain rfl : raised = (pushed ++ upper) ++ below := same
          rw [Program.bind_of_ret (settop_above _ below out calls)]
          exact .refused rfl uncalled
        · rcases List.length_eq_one_iff.mp (one gaveUp) with ⟨value, rfl⟩
          have higher : ∃ upper, next.stack = upper ++ below := by
            rcases above with ⟨upper, whole⟩
            exact ⟨value :: upper, by rw [same, whole]; rfl⟩
          have later : LoopOutcome buf bufLen finish rest (readedLen + curReaded) next below
              (unpackArgs below.length buf bufLen finish rest (readedLen + curReaded) next) :=
            ih (fun other member => balanced other (.tail _ member)) higher
          generalize unpackArgs below.length buf bufLen finish rest (readedLen + curReaded) next =
            outcome at later ⊢
          cases later with
          | finished decoded => exact .finished (.cons read gaveUp same decoded)
          | refused dropped kept => exact .refused dropped (kept.trans uncalled)
          | stopped exits kept => exact .stopped exits (kept.trans uncalled)
      · rw [read] at uncalled
        exact .stopped rfl uncalled
      · rw [read] at uncalled
        exact .stopped rfl uncalled
      · rw [read] at uncalled
        exact .stopped rfl uncalled

theorem checklstring_top {numerals : Numerals} {message : LuaValue} {stack : List LuaValue}
    {out text : Bytes} {calls : List (LuaValue × List LuaValue)} {final : LuaState}
    (checked : Lua.checklstring numerals (-1) ⟨message :: stack, out, calls⟩ =
      (.ret text, final)) : ∃ converted, final = ⟨converted :: stack, out, calls⟩ := by
  have top : LuaState.slot ⟨message :: stack, out, calls⟩ (-1) = 0 := by simp [LuaState.slot]
  have kept : ∃ converted, stackAfter numerals (-1) ⟨message :: stack, out, calls⟩ .string =
      converted :: stack := stackAfter_top .string top
  rcases kept with ⟨converted, replaced⟩
  rw [checklstring_eq] at checked
  split at checked
  · cases checked
  · refine ⟨converted, ?_⟩
    rw [← (Prod.mk.inj checked).2, ← replaced]
    rfl

/-- The call of the function takes it and its arguments from the stack, and what it raises. -/
theorem leaves_callHandler (numerals : Numerals) (script : Lua.Script) (readedLen : ℤ)
    {stack upper : List LuaValue} {count : ℕ} (height : upper.length = count + 1) (out : Bytes)
    (calls : List (LuaValue × List LuaValue)) :
    Leaves (callHandler numerals script stack.length count readedLen) ⟨upper ++ stack, out, calls⟩
      stack := by
  have dropped : (upper ++ stack).drop (count + 1) = stack := by rw [← height, List.drop_left]
  intro result final returns
  rw [callHandler] at returns
  rcases Program.bind_eq_ret_iff.mp returns with ⟨failed, after, called, goesOn⟩
  simp only [Lua.pcall, dropped] at called
  split at called
  · cases called
    have same : stack.drop (stack.length - (stack.length : ℤ).toNat) = stack := by simp
    cases goesOn
    exact same
  · rename_i message raised
    cases called
    rcases Program.bind_eq_ret_iff.mp goesOn with ⟨text, after, checked, later⟩
    rcases checklstring_top checked with ⟨converted, rfl⟩
    rw [← List.singleton_append, Program.bind_of_ret (settop_above _ stack _ _)] at later
    cases later
    rfl

/--
The function is called from a state in which the upper slots are the function, the number
that comes with the message and the decoded arguments in order.
-/
def AtHandler (numerals : Numerals) (script : Lua.Script) (proto : NetProtocol) (buf : Bytes)
    (bufLen ext : ℤ) (state : LuaState) : Prop :=
  ∃ handler values readedLen called, proto.unpackRef = some handler ∧
    Decoded buf bufLen proto.args 0
      ⟨.number ext :: handler :: state.stack, state.out, state.calls⟩ values readedLen called ∧
    values.length = proto.args.length ∧
    called.stack = values.reverse ++ .number ext :: handler :: state.stack ∧
    proto.unpack numerals script buf bufLen ext state =
      callHandler numerals script state.stack.length (proto.args.length + 1) readedLen called

/-- Each way through the loop keeps the stack, and only one of them calls a function. -/
theorem leaves_and_calls_of_outcome {numerals : Numerals} {script : Lua.Script}
    {proto : NetProtocol} {handler : LuaValue} {ext : ℤ} (bound : proto.unpackRef = some handler)
    (outcome : LoopOutcome buf bufLen
      (callHandler numerals script state.stack.length (proto.args.length + 1)) proto.args 0
      ⟨.number ext :: handler :: state.stack, state.out, state.calls⟩ state.stack
      (proto.unpack numerals script buf bufLen ext state)) :
    Leaves (proto.unpack numerals script buf bufLen ext) state state.stack ∧
      ((proto.unpack numerals script buf bufLen ext state).2.calls ≠ state.calls →
        proto.AtHandler numerals script buf bufLen ext state) := by
  generalize ended : proto.unpack numerals script buf bufLen ext state = result at outcome
  cases outcome with
  | @finished values last final decoded =>
      have height := decoded.length_eq
      have shape := decoded.stack_eq
      constructor
      · intro result last returns
        rw [ended] at returns
        have whole : final.stack = (values.reverse ++ [.number ext, handler]) ++ state.stack := by
          rw [shape, List.append_assoc]
          rfl
        rcases final with ⟨stack, out, calls⟩
        subst whole
        refine leaves_callHandler numerals script _ ?_ out calls result last returns
        simp [height]
      · intro _
        exact ⟨handler, values, last, final, bound, decoded, height, shape, ended⟩
  | refused dropped uncalled =>
      constructor
      · intro result last returns
        rw [ended] at returns
        cases returns
        exact dropped
      · intro called
        exact absurd uncalled called
  | @stopped exit final exits uncalled =>
      constructor
      · intro result last returns
        rw [ended] at returns
        cases returns
        cases exits
      · intro called
        exact absurd uncalled called

/-- What `unpack` does to the stack. -/
theorem unpack_outcome (numerals : Numerals) (script : Lua.Script) {proto : NetProtocol}
    (balanced : ∀ arg ∈ proto.args, arg.codec.Balanced) (buf : Bytes) (bufLen ext : ℤ)
    (state : LuaState) :
    Leaves (proto.unpack numerals script buf bufLen ext) state state.stack ∧
      ((proto.unpack numerals script buf bufLen ext state).2.calls ≠ state.calls →
        proto.AtHandler numerals script buf bufLen ext state) := by
  rcases bound : proto.unpackRef with _ | handler
  · have refused : proto.unpack numerals script buf bufLen ext state =
        (.ret errorUnpackFormat, state) := by
      rw [unpack, Program.bind_of_ret (Lua.gettop_apply state), bound]
      rfl
    constructor
    · intro result final returns
      rw [refused] at returns
      cases returns
      rfl
    · intro called
      rw [refused] at called
      exact absurd rfl called
  · by_cases callable : handler.isFunction = true
    · have begins : proto.unpack numerals script buf bufLen ext state =
          unpackArgs state.stack.length buf bufLen
            (callHandler numerals script state.stack.length (proto.args.length + 1)) proto.args 0
            ⟨.number ext :: handler :: state.stack, state.out, state.calls⟩ := by
        rw [unpack, Program.bind_of_ret (Lua.gettop_apply state), bound]
        simp only
        rw [Program.bind_of_ret (Lua.push_apply _ _),
          Program.bind_of_ret (Lua.assert_apply callable _),
          Program.bind_of_ret (Lua.push_apply _ _)]
      have outcome : LoopOutcome buf bufLen
          (callHandler numerals script state.stack.length (proto.args.length + 1)) proto.args 0
          ⟨.number ext :: handler :: state.stack, state.out, state.calls⟩ state.stack
          (unpackArgs state.stack.length buf bufLen
            (callHandler numerals script state.stack.length (proto.args.length + 1)) proto.args 0
            ⟨.number ext :: handler :: state.stack, state.out, state.calls⟩) :=
        unpackArgs_outcome _ balanced ⟨[.number ext, handler], rfl⟩
      rw [← begins] at outcome
      exact leaves_and_calls_of_outcome bound outcome
    · have aborts : proto.unpack numerals script buf bufLen ext state =
          (.abort, ⟨handler :: state.stack, state.out, state.calls⟩) := by
        rw [unpack, Program.bind_of_ret (Lua.gettop_apply state), bound]
        simp only
        rw [Program.bind_of_ret (Lua.push_apply _ _), Program.bind_apply, Lua.assert,
          if_neg callable]
        rfl
      constructor
      · intro result final returns
        rw [aborts] at returns
        cases returns
      · intro called
        rw [aborts] at called
        exact absurd rfl called

end Loop

/-- The stack discipline of a format, a protocol and the slot of a value. -/
structure StackDiscipline (numerals : Numerals) (script : Lua.Script) (codec : FcallArg)
    (proto : NetProtocol) (dataIn : ℤ) (state : LuaState) : Prop where
  packed : ∀ bufLen, Leaves (codec.pack numerals dataIn bufLen) state state.stack
  unpacked : ∀ buf bufLen result final, codec.unpack buf bufLen state = (.ret result, final) →
    result ≠ 0 → ∃ value, final.stack = value :: state.stack
  returned : ∀ buf bufLen ext,
    Leaves (proto.unpack numerals script buf bufLen ext) state state.stack
  called : ∀ buf bufLen ext,
    (proto.unpack numerals script buf bufLen ext state).2.calls ≠ state.calls →
      proto.AtHandler numerals script buf bufLen ext state

/-- The stack discipline is kept exactly if no number is packed as a string. -/
theorem stackDiscipline_iff (numerals : Numerals) (script : Lua.Script) {codec : FcallArg}
    {proto : NetProtocol} (balanced : codec.Balanced)
    (allBalanced : ∀ arg ∈ proto.args, arg.codec.Balanced) (dataIn : ℤ) (state : LuaState) :
    StackDiscipline numerals script codec proto dataIn state ↔
      ¬(codec = .string ∧ ∃ amount, state.valueAt dataIn = .number amount) := by
  constructor
  · rintro discipline ⟨rfl, amount, given⟩
    have converted : (state.valueAt dataIn).toBytes numerals =
        some (numerals.number2str amount) := by
      rw [given]
      rfl
    rcases packString_returns converted 0 with ⟨result, final, returns⟩
    have replaced := leaves_packString result final returns
    have kept : final.stack = state.stack := discipline.packed 0 result final returns
    exact stringStack_ne given (replaced.symm.trans kept)
  · intro noNumber
    constructor
    · intro bufLen
      have leaves := leaves_pack numerals codec balanced dataIn bufLen state
      have same : stackAfter numerals dataIn state codec = state.stack :=
        stackAfter_eq (fun isString amount given => noNumber ⟨isString, amount, given⟩)
      rwa [same] at leaves
    · intro buf bufLen result final returns accepted
      rcases lifts_unpack codec balanced buf bufLen state result final returns with
        ⟨pushed, same, one⟩
      rcases List.length_eq_one_iff.mp (one accepted) with ⟨value, rfl⟩
      exact ⟨value, same⟩
    · intro buf bufLen ext
      exact (unpack_outcome numerals script allBalanced buf bufLen ext state).1
    · intro buf bufLen ext
      exact (unpack_outcome numerals script allBalanced buf bufLen ext state).2

/-- Formats of all kinds, in a protocol with a number and a table. -/
theorem stackDiscipline_table :
    StackDiscipline noNumerals (fun _ => none)
      (ArgType.table (.value (.number 1) (.array .string 0) (.sub (.number 2) .nil .nil))).compile
      ⟨1, 1, [⟨[], [], .number⟩, ⟨[], [], .table [.tbEnd]⟩], [], some (.function 0), true⟩ 1
      ⟨[.table []], [], []⟩ := by
  have balanced : ∀ arg ∈ [(⟨[], [], .number⟩ : ArgObj), ⟨[], [], .table [.tbEnd]⟩],
      arg.codec.Balanced := by
    intro arg member
    simp only [List.mem_cons, List.not_mem_nil, or_false] at member
    rcases member with rfl | rfl
    · trivial
    · exact ⟨Nat.one_pos, rfl⟩
  apply (stackDiscipline_iff noNumerals (fun _ => none) (ArgType.balanced_compile _) balanced 1
    ⟨[.table []], [], []⟩).mpr
  rintro ⟨isString, -⟩
  cases isString

/-- A number that is packed as a string is a string afterwards. -/
theorem not_stackDiscipline_number :
    (∃ final, FcallArg.string.pack ⟨fun _ => none, fun _ => [53]⟩ 1 10 ⟨[.number 5], [], []⟩ =
        (.ret 2, final) ∧
      final.stack = [.string [53]]) ∧
    ¬StackDiscipline ⟨fun _ => none, fun _ => [53]⟩ (fun _ => none) .string
      ⟨1, 1, [], [], none, true⟩ 1 ⟨[.number 5], [], []⟩ := by
  refine ⟨⟨_, rfl, rfl⟩, ?_⟩
  intro discipline
  have same : [LuaValue.string [53]] = [.number 5] := discipline.packed 10 2 _ rfl
  cases same

end NetProtocol

end SimpleModule
