import SimpleModule.Protocol.ArgLists
import SimpleModule.Protocol.Marshal

/-!
# Sending

The `pack` closures in the caller table of a script marshal their arguments and give the
message to the send hook.  Their first argument is one destination or a list of them; the
destinations of a list are put behind the message as long as there is room in the buffer.

The list is read after the message has been written, so the formats must leave the first
argument alone.  They do if their opcodes close no more tables than they have opened
(`Nested`), and no description leads to other opcodes.
-/

namespace SimpleModule

open Octets Exits

/-! ## Nested opcodes -/

mutual

/-- The opcodes of the tables in a format close only tables that they have opened. -/
def FcallArg.Nested : FcallArg → Prop
  | .table opcodes => ∃ finish, TableOpcode.Opens opcodes 1 finish
  | .array basePacker _ => basePacker.Nested
  | _ => True

/-- How many tables are open before and after some opcodes. -/
def TableOpcode.Opens : List TableOpcode → (start finish : ℕ) → Prop
  | [], start, finish => start = finish
  | .tbBegin _ :: rest, start, finish => TableOpcode.Opens rest (start + 1) finish
  | .pushValue _ valueArg :: rest, start, finish =>
      valueArg.Nested ∧ TableOpcode.Opens rest start finish
  | .tbEnd :: rest, start, finish => 0 < start ∧ TableOpcode.Opens rest (start - 1) finish

end

theorem TableOpcode.Opens.append {first second : List TableOpcode} {start middle finish : ℕ}
    (before : Opens first start middle) (after : Opens second middle finish) :
    Opens (first ++ second) start finish := by
  induction first generalizing start with
  | nil =>
      obtain rfl : start = middle := before
      exact after
  | cons opcode rest ih =>
      cases opcode with
      | tbBegin key => exact ih before
      | tbEnd => exact ⟨before.1, ih before.2⟩
      | pushValue key valueArg => exact ⟨before.1, ih before.2⟩

/-- Every registered format has nested opcodes. -/
def AllNested (args : List ArgObj) : Prop := ∀ arg ∈ args, arg.codec.Nested

namespace Travel

/-- A part of the walk emits opcodes that close only tables they have opened. -/
def Emits (program : Program Travel Unit) : Prop :=
  ∀ travel final, program travel = (.ret (), final) →
    ∃ emitted, final.opcodes = travel.opcodes ++ emitted ∧
      ∀ start, ∃ finish, start ≤ finish ∧ TableOpcode.Opens emitted start finish

theorem emits_pure : Emits (pure ()) := by
  rintro travel final ⟨⟩
  exact ⟨[], by simp, fun start => ⟨start, le_refl start, rfl⟩⟩

theorem Emits.bind {first second : Program Travel Unit} (emits : Emits first)
    (emits' : Emits second) : Emits (first >>= fun _ => second) := by
  intro travel final returns
  rcases Program.bind_eq_ret_iff.mp returns with ⟨_, between, front, back⟩
  rcases emits travel between front with ⟨emitted, same, opens⟩
  rcases emits' between final back with ⟨more, same', opens'⟩
  refine ⟨emitted ++ more, by rw [same', same, List.append_assoc], ?_⟩
  intro start
  rcases opens start with ⟨middle, lower, before⟩
  rcases opens' middle with ⟨finish, upper, after⟩
  exact ⟨finish, lower.trans upper, before.append after⟩

theorem emits_readLeaf {args : List ArgObj} (nested : AllNested args) (keyRef : Option LuaKey)
    (typeName : Bytes) : Emits (readLeaf args keyRef typeName) := by
  intro travel final returns
  unfold readLeaf at returns
  rcases found : getArg args typeName with _ | arg
  · rw [found] at returns
    cases returns
    exact ⟨[], by simp, fun start => ⟨start, le_refl start, rfl⟩⟩
  · cases keyRef with
    | none =>
        rw [found] at returns
        cases returns
    | some key =>
        rw [found] at returns
        cases returns
        refine ⟨[.pushValue key arg.codec], rfl, ?_⟩
        intro start
        exact ⟨start, le_refl start, nested arg (List.mem_of_find?_eq_some found), rfl⟩

/-- The opcodes of a table, from its beginning on. -/
theorem enterTable_opens {loop : Program Travel Unit} (emits : Emits loop) {travel final : Travel}
    (returns : enterTable loop travel = (.ret (), final)) :
    ∃ emitted, final.opcodes = travel.opcodes ++ emitted ∧
      ∀ start, ∃ finish, start ≤ finish ∧ TableOpcode.Opens emitted (start + 1) finish := by
  rw [enterTable, Program.bind_of_ret (Program.modify_apply _ _),
    Program.bind_of_ret (Program.get_apply _ _)] at returns
  split_ifs at returns
  · cases returns
    exact ⟨[], by simp, fun start => ⟨start + 1, Nat.le_succ start, rfl⟩⟩
  · rcases Program.bind_eq_ret_iff.mp returns with ⟨_, between, looped, closed⟩
    rcases emits _ between looped with ⟨emitted, same, opens⟩
    cases closed
    refine ⟨emitted ++ [.tbEnd], ?_, ?_⟩
    · show between.opcodes ++ [TableOpcode.tbEnd] = _
      rw [same, List.append_assoc]
    · intro start
      rcases opens (start + 1) with ⟨finish, lower, before⟩
      refine ⟨finish - 1, by omega, before.append ?_⟩
      exact ⟨by omega, rfl⟩

theorem emits_readKey {numerals : Numerals} {key : LuaKey}
    {rest : Option LuaKey → Program Travel Unit}
    (emits : ∀ keyRef, Emits (rest keyRef)) : Emits (readKey numerals key >>= rest) := by
  intro travel final returns
  rcases Program.bind_eq_ret_iff.mp returns with ⟨keyRef, between, read, later⟩
  have same : between.opcodes = travel.opcodes := by
    unfold readKey at read
    split_ifs at read
    · cases read
      rfl
    · cases key with
      | number value =>
          cases read
          rfl
      | string text =>
          cases read
          rfl
      | boolean truth =>
          cases read
          rfl
  rw [← same]
  exact emits keyRef between final later

mutual

theorem emits_readValue {numerals : Numerals} {args : List ArgObj} (nested : AllNested args)
    (keyRef : Option LuaKey) : (value : LuaValue) → Emits (readValue numerals args keyRef value)
  | .number _ => by
      rw [readValue]
      exact emits_readLeaf nested keyRef _
  | .string text => by
      rw [readValue]
      split_ifs
      · exact emits_readLeaf nested keyRef _
      · exact emits_readLeaf nested keyRef _
  | .table fields => by
      rw [readValue]
      intro travel final returns
      rcases Program.bind_eq_ret_iff.mp returns with ⟨_, between, began, entered⟩
      cases began
      rcases enterTable_opens (emits_readFields nested fields) entered with ⟨emitted, same, opens⟩
      refine ⟨.tbBegin keyRef :: emitted, ?_, opens⟩
      rw [same]
      exact List.append_assoc _ _ _
  | .nil => by
      rw [readValue]
      · exact emits_pure
      all_goals simp
  | .boolean _ => by
      rw [readValue]
      · exact emits_pure
      all_goals simp
  | .function _ => by
      rw [readValue]
      · exact emits_pure
      all_goals simp
  | .packClosure _ => by
      rw [readValue]
      · exact emits_pure
      all_goals simp

theorem emits_readField {numerals : Numerals} {args : List ArgObj} (nested : AllNested args) :
    (field : LuaKey × LuaValue) → Emits (readField numerals args field)
  | (key, value) => by
      by_cases empty : value = .nil
      · rw [empty, readField]
        exact emits_pure
      rw [readField_of_value empty]
      apply emits_readKey
      intro keyRef
      exact emits_readValue nested keyRef value

theorem emits_readFields {numerals : Numerals} {args : List ArgObj} (nested : AllNested args) :
    (fields : List (LuaKey × LuaValue)) → Emits (readFields numerals args fields)
  | [] => by
      rw [readFields]
      exact emits_pure
  | field :: rest => by
      rw [readFields]
      exact (emits_readField nested field).bind (emits_readFields nested rest)

end

end Travel

/-- Every description, however many tables it has, leads to nested opcodes. -/
theorem AllNested.travelTable {numerals : Numerals} {args : List ArgObj} (nested : AllNested args)
    {fields : List (LuaKey × LuaValue)} {hashstr : Bytes} {final : Travel}
    (returns : SimpleModule.travelTable numerals args fields ⟨0, [], hashstr⟩ = (.ret (), final)) :
    (FcallArg.table final.opcodes).Nested := by
  rcases Travel.enterTable_opens (Travel.emits_readFields nested fields) returns with
    ⟨emitted, same, opens⟩
  rcases opens 0 with ⟨finish, -, opened⟩
  rw [List.nil_append] at same
  rw [same]
  exact ⟨finish, opened⟩

theorem allNested_initArgs : AllNested initArgs :=
  forall_initArgs trivial trivial trivial trivial trivial

/-- The arguments of a loaded protocol have nested opcodes. -/
theorem AllNested.load {setup : Setup} {file : DescFile} {proto new : NetProtocol}
    {world after : World} (nested : AllNested world.args)
    (returns : proto.load setup file world = (.ret (some new), after)) :
    AllNested new.args ∧ AllNested after.args :=
  NetProtocol.load_all (fun _ _ _ _ element => element) nested returns

namespace FcallArg

/-! ## The stack below the arguments -/

/--
A packing function that succeeds stays inside the buffer, and only the upper part of the
stack, of the given height, has changed.
-/
def Frames (program : LuaM ℤ) (state : LuaState) (height : ℕ) (lower : List LuaValue)
    (bufLen : ℤ) : Prop :=
  ∀ result final, program state = (.ret result, final) → result ≠ 0 →
    result ≤ bufLen ∧ ∃ upper, upper.length = height ∧ final.stack = upper ++ lower

theorem checkBuf_ret {dataLen bufLen result : ℤ} {rest : LuaM ℤ} {state final : LuaState}
    (returns : checkBuf dataLen bufLen rest state = (.ret result, final)) (accepted : result ≠ 0) :
    dataLen ≤ bufLen ∧ rest state = (.ret result, final) := by
  unfold checkBuf at returns
  split_ifs at returns with short
  · rw [Program.pure_apply, Prod.mk.injEq, Exit.ret.injEq] at returns
    exact absurd returns.1.symm accepted
  · exact ⟨not_lt.mp short, returns⟩

theorem checknumber_ret {index : ℤ} {state final : LuaState} {amount : ℚ}
    (returns : Lua.checknumber index state = (.ret amount, final)) : final = state := by
  rcases given : state.valueAt index with _ | truth | value | text | ref | self | entries
  case number =>
    rw [Lua.checknumber_apply given] at returns
    exact (Prod.mk.inj returns).2.symm
  all_goals
    rw [Lua.checknumber, Program.bind_apply, Lua.valueAt_apply, given] at returns
    cases returns

section Frames

variable {numerals : Numerals} {upper lower : List LuaValue} {out : Bytes}
  {calls : List (LuaValue × List LuaValue)} {dataIn bufLen : ℤ}

theorem frames_packNumber :
    Frames (packNumber dataIn bufLen) ⟨upper ++ lower, out, calls⟩ upper.length lower bufLen := by
  intro result final returns accepted
  rcases Program.bind_eq_ret_iff.mp returns with ⟨amount, between, read, written⟩
  rcases checknumber_ret read with rfl
  rcases checkBuf_ret written accepted with ⟨room, emitted⟩
  cases emitted
  exact ⟨room, upper, rfl, rfl⟩

theorem frames_packFixed (width : ℕ) :
    Frames (packFixed width dataIn bufLen) ⟨upper ++ lower, out, calls⟩ upper.length lower
      bufLen := by
  intro result final returns accepted
  rcases Program.bind_eq_ret_iff.mp returns with ⟨amount, between, read, written⟩
  rcases checknumber_ret read with rfl
  rcases checkBuf_ret written accepted with ⟨room, emitted⟩
  cases emitted
  exact ⟨room, upper, rfl, rfl⟩

/-- A string that is read from the upper part of the stack is converted there. -/
theorem stringStack_append
    (above : LuaState.slot ⟨upper ++ lower, out, calls⟩ dataIn < upper.length) :
    ∃ converted, converted.length = upper.length ∧
      stringStack numerals dataIn ⟨upper ++ lower, out, calls⟩ = converted ++ lower := by
  unfold stringStack
  rcases given : LuaState.valueAt ⟨upper ++ lower, out, calls⟩ dataIn with
    _ | truth | amount | text | ref | self | entries
  case number =>
    have inside : 0 ≤ LuaState.slot ⟨upper ++ lower, out, calls⟩ dataIn := by
      by_contra outside
      simp [LuaState.valueAt, outside] at given
    refine ⟨upper.set (LuaState.slot ⟨upper ++ lower, out, calls⟩ dataIn).toNat
      (.string (numerals.number2str amount)), List.length_set, ?_⟩
    exact List.set_append_left _ _ (by omega)
  all_goals exact ⟨upper, rfl, rfl⟩

theorem frames_packString
    (above : LuaState.slot ⟨upper ++ lower, out, calls⟩ dataIn < upper.length) :
    Frames (packString numerals dataIn bufLen) ⟨upper ++ lower, out, calls⟩ upper.length lower
      bufLen := by
  intro result final returns accepted
  rcases stringStack_append above with ⟨converted, height, same⟩
  rcases Program.bind_eq_ret_iff.mp returns with ⟨text, between, read, written⟩
  have kept : between.stack = converted ++ lower := by
    rw [checklstring_eq] at read
    split at read
    · cases read
    · rw [← (Prod.mk.inj read).2]
      exact same
  split_ifs at written
  · rcases checkBuf_ret written accepted with ⟨room, emitted⟩
    simp only [Program.bind_apply, Lua.emit_apply, Program.pure_apply, Prod.mk.injEq,
      Exit.ret.injEq] at emitted
    rcases emitted with ⟨rfl, rfl⟩
    exact ⟨room, converted, height, kept⟩
  · rcases checkBuf_ret written accepted with ⟨room, emitted⟩
    simp only [Program.bind_apply, Lua.emit_apply, Program.pure_apply, Prod.mk.injEq,
      Exit.ret.injEq] at emitted
    rcases emitted with ⟨rfl, rfl⟩
    exact ⟨room, converted, height, kept⟩
  · cases written
    exact absurd rfl accepted

/-- A nested value of the stack is packed and dropped again. -/
theorem frames_afterPack {nested : LuaM ℤ} {rest : ℤ → LuaM ℤ} {value : LuaValue}
    {top usedLen : ℤ} {height : ℕ} {below : List LuaValue}
    (inner : Frames nested ⟨value :: (upper ++ lower), out, calls⟩ (upper.length + 1) lower
      (bufLen - usedLen))
    (outer : ∀ curUsed after, curUsed ≤ bufLen - usedLen →
      (∃ kept, kept.length = upper.length ∧ after.stack = kept ++ lower) →
      Frames (rest (usedLen + curUsed)) after height below bufLen) :
    Frames (do
      let curUsed ← nested
      afterPack top curUsed (rest (usedLen + curUsed))) ⟨value :: (upper ++ lower), out, calls⟩
      height below bufLen := by
  intro result final returns accepted
  rcases Program.bind_eq_ret_iff.mp returns with ⟨curUsed, between, packed, goesOn⟩
  unfold afterPack at goesOn
  split_ifs at goesOn with gaveUp
  · cases goesOn
    exact absurd rfl accepted
  · rcases inner curUsed between packed gaveUp with ⟨room, kept, measured, same⟩
    rcases Program.bind_eq_ret_iff.mp goesOn with ⟨_, after, popped, later⟩
    cases kept with
    | nil => simp at measured
    | cons first kept =>
        rcases between with ⟨stack, written, recorded⟩
        obtain rfl : stack = first :: (kept ++ lower) := same
        rw [Lua.pop_one_apply] at popped
        cases popped
        exact outer curUsed _ room ⟨kept, by simpa using measured, rfl⟩ result final later accepted

theorem frames_packElements {packBase : ℤ → ℤ → LuaM ℤ} {top : ℤ}
    (base : ∀ (value : LuaValue) (upper : List LuaValue) (out : Bytes)
      (calls : List (LuaValue × List LuaValue)) (remaining : ℤ),
      Frames (packBase (-1) remaining) ⟨value :: (upper ++ lower), out, calls⟩ (upper.length + 1)
        lower remaining) (count : ℕ) (i : ℤ) {usedLen : ℤ} (start : usedLen ≠ 0 → usedLen ≤ bufLen)
    {state : LuaState} (shape : state.stack = upper ++ lower) :
    Frames (packElements packBase top dataIn bufLen count i usedLen) state upper.length lower
      bufLen := by
  induction count generalizing i usedLen upper state with
  | zero =>
      intro result final returns accepted
      cases returns
      exact ⟨start accepted, upper, rfl, shape⟩
  | succ count ih =>
      intro result final returns accepted
      rcases Program.bind_eq_ret_iff.mp returns with ⟨_, between, pushed, packed⟩
      rcases state with ⟨stack, out, calls⟩
      obtain rfl : stack = upper ++ lower := shape
      by_cases isTable : (LuaState.valueAt ⟨upper ++ lower, out, calls⟩ dataIn).isTable = true
      · rw [Lua.rawgeti_apply i isTable] at pushed
        cases pushed
        refine frames_afterPack (base _ upper out calls _) ?_ result final packed accepted
        rintro curUsed after room ⟨kept, measured, same⟩
        rw [← measured]
        exact ih (i + 1) (fun _ => by omega) same
      · simp [Lua.rawgeti, Program.bind_apply, isTable] at pushed

theorem frames_packArray {packBase : ℤ → ℤ → LuaM ℤ}
    (base : ∀ (value : LuaValue) (upper : List LuaValue) (out : Bytes)
      (calls : List (LuaValue × List LuaValue)) (remaining : ℤ),
      Frames (packBase (-1) remaining) ⟨value :: (upper ++ lower), out, calls⟩ (upper.length + 1)
        lower remaining) (size : ℤ) :
    Frames (packArray packBase size dataIn bufLen) ⟨upper ++ lower, out, calls⟩ upper.length lower
      bufLen := by
  have counted (top arrayLen : ℤ) {usedLen : ℤ} (start : usedLen ≠ 0 → usedLen ≤ bufLen)
      {state : LuaState} (shape : state.stack = upper ++ lower) :
      Frames (packCounted packBase top dataIn bufLen arrayLen usedLen) state upper.length lower
        bufLen := by
    unfold packCounted
    split_ifs
    · intro result final returns accepted
      cases returns
      exact absurd rfl accepted
    · exact frames_packElements base _ _ start shape
  intro result final returns accepted
  simp only [packArray, Program.bind_apply, Lua.gettop_apply, Lua.valueAt_apply] at returns
  split_ifs at returns
  · rcases checkBuf_ret returns accepted with ⟨room, emitted⟩
    rw [Program.bind_of_ret (Lua.emit_apply _ _)] at emitted
    refine counted _ _ (fun _ => room) ?_ result final emitted accepted
    rfl
  · refine counted _ _ ?_ ?_ result final returns accepted
    · intro absurdity
      exact absurd rfl absurdity
    · rfl
  · cases returns

theorem rawget_ret {key : LuaValue} {rest : List LuaValue} {index : ℤ} {final : LuaState}
    (returns : Lua.rawget index ⟨key :: rest, out, calls⟩ = (.ret (), final)) :
    ∃ value, final = ⟨value :: rest, out, calls⟩ := by
  rw [Lua.rawget, Program.bind_of_ret (Lua.valueAt_apply _ _),
    Program.bind_of_ret (Lua.valueAt_apply _ _),
    Program.bind_of_ret (Lua.pop_one_apply rest out calls key)] at returns
  generalize (LuaState.valueAt ⟨key :: rest, out, calls⟩ index) = table at returns
  generalize (LuaState.valueAt ⟨key :: rest, out, calls⟩ (-1)).toKey = found at returns
  cases isTable : table.isTable with
  | false =>
      rw [isTable] at returns
      cases returns
  | true =>
      rw [isTable] at returns
      cases found with
      | none => exact ⟨_, (Prod.mk.inj returns).2.symm⟩
      | some name => exact ⟨_, (Prod.mk.inj returns).2.symm⟩

end Frames

mutual

/-- A format with nested opcodes leaves the stack below its argument alone. -/
theorem frames_pack (numerals : Numerals) : (codec : FcallArg) → codec.Nested →
    {upper lower : List LuaValue} → {out : Bytes} → {calls : List (LuaValue × List LuaValue)} →
    {dataIn bufLen : ℤ} → LuaState.slot ⟨upper ++ lower, out, calls⟩ dataIn < upper.length →
    Frames (codec.pack numerals dataIn bufLen) ⟨upper ++ lower, out, calls⟩ upper.length lower
      bufLen
  | .number, _, _, _, _, _, _, _, _ => by
      rw [pack]
      exact frames_packNumber
  | .byte, _, _, _, _, _, _, _, _ => by
      rw [pack]
      exact frames_packFixed 1
  | .word, _, _, _, _, _, _, _, _ => by
      rw [pack]
      exact frames_packFixed 2
  | .dword, _, _, _, _, _, _, _, _ => by
      rw [pack]
      exact frames_packFixed 4
  | .string, _, _, _, _, _, _, _, above => by
      rw [pack]
      exact frames_packString above
  | .array basePacker size, nested, upper, lower, _, _, _, _, _ => by
      rw [pack]
      apply frames_packArray
      intro value upper out calls remaining
      have top : LuaState.slot ⟨(value :: upper) ++ lower, out, calls⟩ (-1) <
          (value :: upper).length := by
        simp [LuaState.slot]
      exact frames_pack numerals basePacker nested top
  | .table opcodes, ⟨finish, opens⟩, upper, lower, out, calls, dataIn, bufLen, _ => by
      intro result final returns accepted
      simp only [pack, Program.bind_apply, Lua.gettop_apply, Lua.valueAt_apply] at returns
      split_ifs at returns with isTable
      · have start : (0 : ℤ) ≠ 0 → 0 ≤ bufLen := fun absurdity => absurd rfl absurdity
        have one : [LuaState.valueAt ⟨upper ++ lower, out, calls⟩ dataIn].length = 1 := rfl
        exact frames_packOpcodes numerals opcodes opens one start result final returns accepted
      · cases returns

theorem frames_packOpcodes (numerals : Numerals) : (opcodes : List TableOpcode) →
    {start finish : ℕ} → TableOpcode.Opens opcodes start finish →
    {tables upper lower : List LuaValue} → tables.length = start → {out : Bytes} →
    {calls : List (LuaValue × List LuaValue)} → {bufLen usedLen : ℤ} →
    (usedLen ≠ 0 → usedLen ≤ bufLen) →
    Frames (packOpcodes numerals opcodes ((upper ++ lower).length : ℕ) bufLen usedLen)
      ⟨tables ++ (upper ++ lower), out, calls⟩ upper.length lower bufLen
  | [], _, _, _, tables, upper, lower, _, _, _, _, _, start => by
      intro result final returns accepted
      rw [packOpcodes, Program.bind_of_ret (Lua.settop_apply _ _)] at returns
      cases returns
      refine ⟨start accepted, upper, rfl, ?_⟩
      rw [Int.toNat_natCast, List.length_append, Nat.add_sub_cancel]
      exact List.drop_left
  | .tbBegin none :: _, _, _, _, _, _, _, _, _, _, _, _, _ => by
      intro result final returns accepted
      cases returns
  | .tbBegin (some key) :: rest, _, _, opens, tables, upper, lower, height, out, calls, _, _,
      start => by
      intro result final returns accepted
      rw [packOpcodes, Program.bind_of_ret (Lua.getref_apply _ _)] at returns
      rcases Program.bind_eq_ret_iff.mp returns with ⟨_, between, got, later⟩
      rcases rawget_ret got with ⟨value, rfl⟩
      rw [Program.bind_of_ret (Lua.valueAt_apply _ _)] at later
      split_ifs at later
      · have deeper : (value :: tables).length = _ + 1 := congrArg Nat.succ height
        exact frames_packOpcodes numerals rest opens deeper start result final later accepted
      · cases later
  | .pushValue key valueArg :: rest, _, _, opens, tables, upper, lower, height, out, calls, bufLen,
      usedLen, start => by
      intro result final returns accepted
      rw [packOpcodes, Program.bind_of_ret (Lua.getref_apply _ _)] at returns
      rcases Program.bind_eq_ret_iff.mp returns with ⟨_, between, got, later⟩
      rcases rawget_ret got with ⟨value, rfl⟩
      rw [Program.bind_of_ret (Lua.gettop_apply _)] at later
      have top : LuaState.slot ⟨(value :: tables) ++ (upper ++ lower), out, calls⟩
          ((value :: (tables ++ (upper ++ lower))).length : ℕ) < (value :: tables).length := by
        simp [LuaState.slot]
        omega
      refine frames_afterPack (frames_pack numerals valueArg opens.1 top) ?_ result final later
        accepted
      rintro curUsed ⟨stack, written, recorded⟩ room ⟨kept, measured, rfl⟩
      exact frames_packOpcodes numerals rest opens.2 (measured.trans height) fun _ => by omega
  | .tbEnd :: rest, opened, _, opens, tables, upper, lower, height, out, calls, _, _, start => by
      intro result final returns accepted
      cases tables with
      | nil =>
          have some := opens.1
          simp at height
          omega
      | cons first tables =>
          rw [packOpcodes, List.cons_append, Program.bind_of_ret (Lua.pop_one_apply _ _ _ _)]
            at returns
          have fewer : tables.length = opened - 1 := by
            rw [← height]
            rfl
          exact frames_packOpcodes numerals rest opens.2 fewer start result final returns accepted

end

end FcallArg

/-! ## The message hook -/

/-- A call of `send_hook_t`; `data` is what the buffer holds up to the end of the message. -/
structure Send where
  data : Bytes
  dataLen : ℤ
  ext : ℕ
  ismulticast : ℤ
  mcpayloadlen : ℤ

/-- The Lua state and the calls of the send hook, in order. -/
structure Sender where
  lua : LuaState
  sends : List Send

namespace Sender

def onLua {α : Type} (program : LuaM α) : Program Sender α :=
  .focus Sender.lua (fun sender lua => { sender with lua := lua }) program

def send (call : Send) : Program Sender Unit :=
  .modify fun sender => { sender with sends := sender.sends ++ [call] }

@[simp]
theorem onLua_apply {α : Type} (program : LuaM α) (sender : Sender) :
    onLua program sender =
      ((program sender.lua).1, { sender with lua := (program sender.lua).2 }) :=
  rfl

end Sender

namespace NetProtocol

/-- `MAXTONETD`. -/
def maxToNetd : ℕ := 0x8000

/-- `luaL_checknumber`, which takes a string that reads as a number. -/
def lCheckNumber (numerals : Numerals) (index : ℤ) : LuaM ℚ := do
  let value ← Lua.valueAt index
  if value.isNumber numerals then pure (value.toNumber numerals) else .exit .raise

/--
The loop over the list of destinations from position `i` on.  The result is the number of
destinations that were written behind the message, and what was written; the tables of
destinations have no metatables.
-/
def appendVfds (numerals : Numerals) (usedLen : ℤ) :
    (count i : ℕ) → (c : ℕ) → (written : Bytes) → LuaM (ℕ × Bytes)
  | 0, _, c, written => pure (c, written)
  | count + 1, i, c, written => do
      Lua.push (.number (i + 1 : ℤ))
      Lua.rawget 1
      let value ← lCheckNumber numerals (-1)
      let dest := unsigned32 (value.num.tdiv value.den)
      Lua.pop 1
      if dest > 0 then
        if usedLen + 4 * c + 4 ≤ maxToNetd then
          appendVfds numerals usedLen count (i + 1) (c + 1) (written ++ le 4 dest)
        else appendVfds numerals usedLen count (i + 1) c written
      else appendVfds numerals usedLen count (i + 1) c written

/-- The branch of `pack` for one destination. -/
def packUnicast (numerals : Numerals) (proto : NetProtocol) (vfd : ℚ) : Program Sender Unit :=
  let ext := unsigned32 (number2int vfd)
  if 0 ≥ ext then pure ()
  else do
    let usedLen ← Sender.onLua (proto.marshal numerals maxToNetd)
    if usedLen > 0 then do
      let data ← Sender.onLua (.get LuaState.out)
      Sender.send ⟨data.take usedLen.toNat, usedLen, ext, 0, 0⟩
    else pure ()

/-- The branch of `pack` for a list of `s` destinations. -/
def packMulticast (numerals : Numerals) (proto : NetProtocol) (s : ℕ) : Program Sender Unit :=
  if s > 0 then do
    let usedLen ← Sender.onLua (proto.marshal numerals maxToNetd)
    if usedLen > 0 then do
      let appended ← Sender.onLua (appendVfds numerals usedLen s 0 0 [])
      if appended.1 > 0 then do
        let data ← Sender.onLua (.get LuaState.out)
        Sender.send ⟨data.take usedLen.toNat ++ appended.2, usedLen + 4 * appended.1, appended.1, 1,
          usedLen⟩
      else pure ()
    else pure ()
  else pure ()

/-- `net_protocol::pack` for the object in the upvalue; the buffer belongs to the call. -/
def pack (numerals : Numerals) (proto : NetProtocol) : Program Sender ℤ := do
  let top ← Sender.onLua Lua.gettop
  Sender.onLua (.modify fun lua => { lua with out := [] })
  match ← Sender.onLua (Lua.valueAt 1) with
  | .number vfd => packUnicast numerals proto vfd
  | .table fields => packMulticast numerals proto (LuaValue.table fields).objlen
  | _ => pure ()
  Sender.onLua (Lua.settop top)
  return 0

/-! ## What is sent -/

/-- A marshalled message fits into the buffer, and the first argument is still there. -/
theorem marshalArgs_frame (numerals : Numerals) {args : List ArgObj}
    (nested : AllNested args) {bufLen : ℕ} (i : ℕ) {usedLen : ℤ}
    (within : usedLen ≤ bufLen) {state : LuaState} {upper : List LuaValue} {first : LuaValue}
    (shape : state.stack = upper ++ [first]) {result : ℤ} {final : LuaState}
    (returns : marshalArgs numerals bufLen args i usedLen state = (.ret result, final))
    (accepted : 0 < result) :
    result ≤ bufLen ∧ ∃ kept : List LuaValue, final.stack = kept ++ [first] := by
  induction args generalizing i usedLen state upper with
  | nil =>
      cases returns
      exact ⟨within, upper, shape⟩
  | cons arg args ih =>
      rcases Program.bind_eq_ret_iff.mp returns with ⟨curUsed, between, packed, later⟩
      split_ifs at later with gaveUp
      · cases later
        omega
      · rcases state with ⟨stack, out, calls⟩
        obtain rfl : stack = upper ++ [first] := shape
        have above : LuaState.slot ⟨upper ++ [first], out, calls⟩ (i + 2) < upper.length := by
          simp only [LuaState.slot, List.length_append, List.length_singleton]
          rw [if_pos (by omega)]
          omega
        rcases FcallArg.frames_pack numerals arg.codec (nested arg (by simp)) above curUsed between
          packed gaveUp with ⟨room, kept, -, same⟩
        have remaining : int32 (bufLen - usedLen) ≤ bufLen - usedLen := by
          simp only [int32]
          omega
        exact ih (fun other member => nested other (by simp [member])) (i + 1) (by omega) same
          later

theorem marshal_frame (numerals : Numerals) {proto : NetProtocol}
    (nested : AllNested proto.args) {bufLen : ℕ} {state : LuaState}
    {upper : List LuaValue} {first : LuaValue} (shape : state.stack = upper ++ [first])
    {result : ℤ} {final : LuaState}
    (returns : proto.marshal numerals bufLen state = (.ret result, final)) (accepted : 0 < result) :
    result ≤ bufLen ∧ ∃ kept : List LuaValue, final.stack = kept ++ [first] := by
  rcases Program.bind_eq_ret_iff.mp returns with ⟨_, between, asserted, later⟩
  have same : between = state := by
    by_cases numbered : proto.id = 0
    · simp [Lua.assert, numbered] at asserted
    · rw [Lua.assert_apply (by simpa using numbered)] at asserted
      exact (Prod.mk.inj asserted).2.symm
  subst same
  split_ifs at later with room
  · rw [Program.bind_of_ret (Lua.emit_apply _ _)] at later
    have start : ((idBytes proto.id).length : ℤ) ≤ bufLen := by exact_mod_cast room
    have kept : LuaState.stack ⟨between.stack, between.out ++ idBytes proto.id, between.calls⟩ =
        upper ++ [first] := shape
    exact marshalArgs_frame numerals nested 0 start kept later accepted
  · cases later

/-- A Lua table that lists some destinations. -/
structure Lists (value : LuaValue) (dests : List ℕ) : Prop where
  isTable : value.isTable = true
  objlen : value.objlen = dests.length
  index : ∀ (i : ℕ) (inside : i < dests.length),
    value.index (i + 1) = .number ((dests[i] : ℕ) : ℤ)

/-- The number of destinations that fit behind a message. -/
def sentCount (dests : List ℕ) (usedLen : ℤ) : ℕ :=
  min (dests.filter (0 < ·)).length ((maxToNetd - usedLen) / 4).toNat

theorem valueAt_one (upper : List LuaValue) (first : LuaValue) (out : Bytes)
    (calls : List (LuaValue × List LuaValue)) :
    LuaState.valueAt ⟨upper ++ [first], out, calls⟩ 1 = first := by
  simp [LuaState.valueAt, LuaState.slot]

/-- One turn of the loop reads the destination at its position. -/
theorem appendVfds_succ (numerals : Numerals) (usedLen : ℤ) (count i c : ℕ) (written : Bytes)
    {kept : List LuaValue} {first : LuaValue} {out : Bytes}
    {calls : List (LuaValue × List LuaValue)} (isTable : first.isTable = true) {dest : ℕ}
    (bounded : dest < 2 ^ 32) (listed : first.index (i + 1) = .number ((dest : ℕ) : ℤ)) :
    appendVfds numerals usedLen (count + 1) i c written ⟨kept ++ [first], out, calls⟩ =
      (if dest > 0 then
        if usedLen + 4 * c + 4 ≤ maxToNetd then
          appendVfds numerals usedLen count (i + 1) (c + 1) (written ++ le 4 dest)
        else appendVfds numerals usedLen count (i + 1) c written
      else appendVfds numerals usedLen count (i + 1) c written) ⟨kept ++ [first], out, calls⟩ := by
  have read : Lua.rawget 1 ⟨.number (i + 1 : ℤ) :: (kept ++ [first]), out, calls⟩ =
      (.ret (), ⟨.number ((dest : ℕ) : ℤ) :: (kept ++ [first]), out, calls⟩) := by
    have table := valueAt_one (.number (i + 1 : ℤ) :: kept) first out calls
    rw [List.cons_append] at table
    rw [Lua.rawget, Program.bind_of_ret (Lua.valueAt_apply _ _),
      Program.bind_of_ret (Lua.valueAt_apply _ _), Program.bind_of_ret (Lua.pop_one_apply _ _ _ _),
      table, LuaState.valueAt_neg_one, isTable]
    simp only [LuaValue.toKey, Lua.push_apply]
    rw [← listed]
    rfl
  have checked : lCheckNumber numerals (-1)
      ⟨.number ((dest : ℕ) : ℤ) :: (kept ++ [first]), out, calls⟩ =
      (.ret ((dest : ℕ) : ℤ), ⟨.number ((dest : ℕ) : ℤ) :: (kept ++ [first]), out, calls⟩) := by
    simp [lCheckNumber, Program.bind_apply, LuaValue.isNumber, LuaValue.toNumber]
  have same : unsigned32 ((((dest : ℕ) : ℤ) : ℚ).num.tdiv (((dest : ℕ) : ℤ) : ℚ).den) = dest := by
    rw [Rat.num_intCast, Rat.den_intCast, Nat.cast_one, Int.tdiv_one]
    simp only [unsigned32]
    omega
  rw [appendVfds, Program.bind_of_ret (Lua.push_apply _ _), Program.bind_of_ret read,
    Program.bind_of_ret checked, Program.bind_of_ret (Lua.pop_one_apply _ _ _ _)]
  simp only [same]

/-- The loop writes the positive destinations, as many as there is room for. -/
theorem appendVfds_eq (numerals : Numerals) {usedLen : ℤ} {dests : List ℕ}
    (bounded : ∀ dest ∈ dests, dest < 2 ^ 32) {i c : ℕ} (room : usedLen + 4 * c ≤ maxToNetd)
    {kept : List LuaValue} {first : LuaValue} {out : Bytes}
    {calls : List (LuaValue × List LuaValue)} (isTable : first.isTable = true)
    (listed : ∀ (j : ℕ) (inside : j < dests.length),
      first.index ((i + j : ℕ) + 1) = .number ((dests[j] : ℕ) : ℤ)) (written : Bytes) :
    appendVfds numerals usedLen dests.length i c written ⟨kept ++ [first], out, calls⟩ =
      (.ret (c + sentCount dests (usedLen + 4 * c), written ++
        ((dests.filter (0 < ·)).take (sentCount dests (usedLen + 4 * c))).flatMap (le 4)),
        ⟨kept ++ [first], out, calls⟩) := by
  induction dests generalizing i c written with
  | nil => simp [appendVfds, sentCount]
  | cons dest rest ih =>
      have small := bounded dest (by simp)
      have others (other : ℕ) (member : other ∈ rest) : other < 2 ^ 32 :=
        bounded other (by simp [member])
      have here : first.index (i + 1) = .number ((dest : ℕ) : ℤ) := listed 0 (by simp)
      have later (j : ℕ) (inside : j < rest.length) :
          first.index ((i + 1 + j : ℕ) + 1) = .number ((rest[j] : ℕ) : ℤ) := by
        have next := listed (j + 1) (by simpa using inside)
        rw [List.getElem_cons_succ] at next
        rw [← next]
        congr 2
        omega
      rw [List.length_cons, appendVfds_succ numerals usedLen _ i c written isTable small here]
      by_cases positive : dest > 0
      · rw [if_pos positive]
        by_cases fits : usedLen + 4 * c + 4 ≤ maxToNetd
        · have count : sentCount (dest :: rest) (usedLen + 4 * c) =
              sentCount rest (usedLen + 4 * (c + 1 : ℕ)) + 1 := by
            simp only [sentCount, List.filter_cons, positive, decide_true, if_true,
              List.length_cons]
            omega
          rw [if_pos fits, ih others (by omega) later, count]
          simp only [List.filter_cons, positive, decide_true, if_true, List.take_succ_cons,
            List.flatMap_cons, List.append_assoc, Nat.add_assoc, Nat.add_comm 1]
        · have none : sentCount (dest :: rest) (usedLen + 4 * c) = 0 ∧
              sentCount rest (usedLen + 4 * c) = 0 := by
            simp only [sentCount]
            omega
          rw [if_neg fits, ih others room later, none.1, none.2, List.take_zero, List.take_zero]
      · have count : sentCount (dest :: rest) (usedLen + 4 * c) =
            sentCount rest (usedLen + 4 * c) := by
          simp [sentCount, positive]
        rw [if_neg positive, ih others room later, count]
        simp [positive]

/-- A first argument other than `nil` is at the bottom of the stack. -/
theorem stack_eq_append {state : LuaState} {value : LuaValue} (given : state.valueAt 1 = value)
    (isTable : value.isTable = true) : ∃ upper, state.stack = upper ++ [value] := by
  rcases List.eq_nil_or_concat state.stack with empty | ⟨upper, first, same⟩
  · have absent : state.valueAt 1 = .nil := by
      simp [LuaState.valueAt, LuaState.slot, empty]
    rw [← given, absent] at isTable
    cases isTable
  · rcases state with ⟨stack, out, calls⟩
    obtain rfl : stack = upper ++ [first] := by simpa using same
    rw [valueAt_one] at given
    exact ⟨upper, by rw [given]⟩

/-- What `pack` sends is what its branch for lists sends, on an empty buffer. -/
theorem sends_pack (numerals : Numerals) (proto : NetProtocol) {sender : Sender} {value : LuaValue}
    (given : sender.lua.valueAt 1 = value) (isTable : value.isTable = true) :
    (proto.pack numerals sender).2.sends =
      (packMulticast numerals proto value.objlen
        ⟨{ sender.lua with out := [] }, sender.sends⟩).2.sends := by
  cases value with
  | table fields =>
      have found : LuaState.valueAt { sender.lua with out := [] } 1 = .table fields := given
      simp only [pack, Program.bind_apply, Sender.onLua_apply, Lua.gettop_apply,
        Program.modify_apply, Lua.valueAt_apply, found, Lua.settop_apply, Program.pure_apply]
      rcases packMulticast numerals proto (LuaValue.table fields).objlen
        ⟨{ sender.lua with out := [] }, sender.sends⟩ with ⟨ended, after⟩
      cases ended with
      | ret result => rfl
      | raise => rfl
      | abort => rfl
      | fault => rfl
  | nil => cases isTable
  | boolean truth => cases isTable
  | number amount => cases isTable
  | string text => cases isTable
  | function ref => cases isTable
  | packClosure self => cases isTable

/-- The call of the send hook for a marshalled message and a list of destinations. -/
def multicast (message : Bytes) (dests : List ℕ) (usedLen : ℤ) : Send :=
  ⟨message.take usedLen.toNat ++
      ((dests.filter (0 < ·)).take (sentCount dests usedLen)).flatMap (le 4),
    usedLen + 4 * sentCount dests usedLen, sentCount dests usedLen, 1, usedLen⟩

section Branch

variable {numerals : Numerals} {proto : NetProtocol} {dests : List ℕ} {lua final : LuaState}
  {sends : List Send}

theorem sends_packMulticast_ret (nested : AllNested proto.args)
    (nonempty : dests ≠ []) (bounded : ∀ dest ∈ dests, dest < 2 ^ 32) {value : LuaValue}
    (listed : Lists value dests) {upper : List LuaValue} (shape : lua.stack = upper ++ [value])
    {usedLen : ℤ} (marshalled : proto.marshal numerals maxToNetd lua = (.ret usedLen, final)) :
    (packMulticast numerals proto dests.length ⟨lua, sends⟩).2.sends =
      if 0 < usedLen ∧ 0 < sentCount dests usedLen then
        sends ++ [multicast final.out dests usedLen]
      else sends := by
  have positive : dests.length > 0 := List.length_pos_iff.mpr nonempty
  have first : Sender.onLua (proto.marshal numerals maxToNetd) ⟨lua, sends⟩ =
      (.ret usedLen, ⟨final, sends⟩) := by
    rw [Sender.onLua_apply, marshalled]
  rw [packMulticast, if_pos positive, Program.bind_of_ret first]
  by_cases accepted : 0 < usedLen
  · rcases marshal_frame numerals nested shape marshalled accepted with ⟨within, kept, same⟩
    rcases final with ⟨stack, out, calls⟩
    obtain rfl : stack = kept ++ [value] := same
    have start : usedLen + 4 * (0 : ℕ) ≤ maxToNetd := by simpa using within
    have entries (j : ℕ) (inside : j < dests.length) :
        value.index ((0 + j : ℕ) + 1) = .number ((dests[j] : ℕ) : ℤ) := by
      rw [Nat.zero_add]
      exact listed.index j inside
    have looped : appendVfds numerals usedLen dests.length 0 0 [] ⟨kept ++ [value], out, calls⟩ =
        _ := appendVfds_eq numerals bounded start listed.isTable entries []
    rw [Nat.cast_zero, mul_zero, add_zero, Nat.zero_add, List.nil_append] at looped
    have second : Sender.onLua (appendVfds numerals usedLen dests.length 0 0 [])
        ⟨⟨kept ++ [value], out, calls⟩, sends⟩ = _ :=
      (Sender.onLua_apply _ _).trans (by rw [looped])
    rw [if_pos accepted, Program.bind_of_ret second]
    by_cases some : 0 < sentCount dests usedLen
    · rw [if_pos some, if_pos ⟨accepted, some⟩]
      rfl
    · rw [if_neg some, if_neg fun both => some both.2]
      rfl
  · rw [if_neg accepted, if_neg fun both => accepted both.1]
    rfl

/-- Nothing is sent unless `marshal` returns. -/
theorem sends_packMulticast_exit {count : ℕ} {ended : Exit ℤ}
    (marshalled : proto.marshal numerals maxToNetd lua = (ended, final))
    (stopped : ended.returned = none) :
    (packMulticast numerals proto count ⟨lua, sends⟩).2.sends = sends := by
  unfold packMulticast
  split_ifs
  · rw [Program.bind_apply, Sender.onLua_apply, marshalled]
    cases ended with
    | ret result => cases stopped
    | raise => rfl
    | abort => rfl
    | fault => rfl
  · rfl

end Branch

/--
A message to a list of destinations is sent at most once, with the positive destinations
in the order of the list behind it, as many as fit into the buffer.  It is sent exactly if
it could be marshalled and there is room for a destination.
-/
theorem pack_multicast (numerals : Numerals) {proto : NetProtocol}
    (nested : AllNested proto.args) {dests : List ℕ} (nonempty : dests ≠ [])
    (bounded : ∀ dest ∈ dests, dest < 2 ^ 32) {sender : Sender}
    (listed : Lists (sender.lua.valueAt 1) dests) :
    (∀ usedLen final,
      proto.marshal numerals maxToNetd { sender.lua with out := [] } = (.ret usedLen, final) →
      0 < usedLen → 0 < sentCount dests usedLen →
      (proto.pack numerals sender).2.sends =
        sender.sends ++ [multicast final.out dests usedLen] ∧
      usedLen + 4 * sentCount dests usedLen ≤ 0x8000) ∧
    ((¬ ∃ usedLen final,
      proto.marshal numerals maxToNetd { sender.lua with out := [] } = (.ret usedLen, final) ∧
        0 < usedLen ∧ 0 < sentCount dests usedLen) →
      (proto.pack numerals sender).2.sends = sender.sends) := by
  generalize given : sender.lua.valueAt 1 = value at listed
  rcases stack_eq_append given listed.isTable with ⟨upper, shape⟩
  have kept : LuaState.stack { sender.lua with out := [] } = upper ++ [value] := shape
  rw [sends_pack numerals proto given listed.isTable, listed.objlen]
  constructor
  · intro usedLen final marshalled accepted some
    rw [sends_packMulticast_ret nested nonempty bounded listed kept marshalled,
      if_pos ⟨accepted, some⟩]
    refine ⟨rfl, ?_⟩
    have within := (marshal_frame numerals nested kept marshalled accepted).1
    simp only [sentCount, maxToNetd] at within ⊢
    omega
  · intro unsent
    rcases marshalled : proto.marshal numerals maxToNetd { sender.lua with out := [] } with
      ⟨ended, final⟩
    cases stopped : ended.returned with
    | none => exact sends_packMulticast_exit marshalled stopped
    | some usedLen =>
        rw [Exit.returned_eq_some.mp stopped] at marshalled
        rw [sends_packMulticast_ret nested nonempty bounded listed kept marshalled, if_neg]
        intro both
        exact unsent ⟨usedLen, final, marshalled, both⟩

/-- A protocol with one byte. -/
def byteProto : NetProtocol := ⟨1, 1, [⟨ofString "byte", [], .byte⟩], ofString "c_a", none, false⟩

/-- The list of the destinations 5, 0 and 7. -/
def threeDests : LuaValue :=
  .table [(.number 1, .number (5 : ℤ)), (.number 2, .number (0 : ℤ)), (.number 3, .number (7 : ℤ))]

/-- A call with the byte 9 for them. -/
def byteSender : Sender := ⟨⟨[.number (9 : ℤ), threeDests], [], []⟩, []⟩

theorem pack_multicast_byteProto :
    (byteProto.pack noNumerals byteSender).2.sends =
      [⟨[1, 9, 5, 0, 0, 0, 7, 0, 0, 0], 10, 2, 1, 2⟩] := by
  have nested : AllNested byteProto.args := by
    intro arg member
    rcases List.mem_singleton.mp member with rfl
    trivial
  have bounded : ∀ dest ∈ [5, 0, 7], dest < 2 ^ 32 := by decide
  have listed : Lists (byteSender.lua.valueAt 1) [5, 0, 7] := by
    refine ⟨rfl, by decide +kernel, ?_⟩
    intro i inside
    simp only [List.length_cons, List.length_nil] at inside
    interval_cases i
    · rfl
    · rfl
    · rfl
  have marshalled : byteProto.marshal noNumerals maxToNetd byteSender.lua =
      (.ret 2, ⟨[.number (9 : ℤ), threeDests], [1, 9], []⟩) := rfl
  rcases pack_multicast noNumerals nested (by decide) bounded listed with ⟨sent, -⟩
  rw [(sent 2 _ marshalled (by decide) (by decide)).1]
  rfl

end NetProtocol

end SimpleModule
