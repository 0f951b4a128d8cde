import SimpleModule.Protocol.Registry

/-!
# Registered table types

`fcall_table_arg::unpack` runs through its opcodes except for the last one.  For a list
without opcodes the bound `_opcodes.size() - 1` of the loop is the largest number, and the
loop reads outside of the list.  `unpackWith` is `unpack` with any behaviour in place of
such a read; a format stays inside its opcodes if this behaviour makes no difference.

`add_table_args` registers an object even if its file could not be read.  This file shows
which files lead to a type without opcodes.
-/

namespace SimpleModule

open Octets Exits Runs

/-! ## Reads outside of the opcodes -/

namespace FcallArg

mutual

/-- `unpack`, with the given behaviour in place of a read outside of the opcodes. -/
def unpackWith (outside : LuaM ℤ) : FcallArg → (buf : Bytes) → (bufLen : ℤ) → LuaM ℤ
  | .number, buf, bufLen => unpackNumber buf bufLen
  | .byte, buf, bufLen => unpackByte buf bufLen
  | .word, buf, bufLen => unpackWord buf bufLen
  | .dword, buf, bufLen => unpackDword buf bufLen
  | .string, buf, bufLen => unpackString buf bufLen
  | .array basePacker size, buf, bufLen =>
      unpackArray (fun rest remaining => basePacker.unpackWith outside rest remaining) size buf
        bufLen
  | .table opcodes, buf, bufLen => do
      let top ← Lua.gettop
      Lua.newtable
      unpackOpcodesWith outside opcodes top buf bufLen 0

def unpackOpcodesWith (outside : LuaM ℤ) :
    List TableOpcode → (top : ℤ) → (buf : Bytes) → (bufLen readedLen : ℤ) → LuaM ℤ
  | [], _, _, _, _ => outside
  | opcode :: rest, top, buf, bufLen, readedLen =>
      if rest.isEmpty then pure readedLen
      else
        match opcode with
        | .tbBegin none => .exit .abort
        | .tbBegin (some key) => do
            Lua.getref key
            Lua.newtable
            unpackOpcodesWith outside rest top buf bufLen readedLen
        | .pushValue key valueArg => do
            Lua.getref key
            let curReaded ←
              valueArg.unpackWith outside (buf.drop readedLen.toNat) (bufLen - readedLen)
            afterUnpack top curReaded (-3)
              (unpackOpcodesWith outside rest top buf bufLen (readedLen + curReaded))
        | .tbEnd => do
            Lua.rawset (-3)
            unpackOpcodesWith outside rest top buf bufLen readedLen

end

mutual

theorem unpackWith_fault : (codec : FcallArg) → codec.unpackWith (.exit .fault) = codec.unpack
  | .number => rfl
  | .byte => rfl
  | .word => rfl
  | .dword => rfl
  | .string => rfl
  | .array basePacker size => by
      funext buf bufLen
      rw [unpackWith, unpackWith_fault basePacker, unpack]
  | .table opcodes => by
      funext buf bufLen
      rw [unpackWith, unpackOpcodesWith_fault opcodes, unpack]

theorem unpackOpcodesWith_fault : (opcodes : List TableOpcode) →
    unpackOpcodesWith (.exit .fault) opcodes = unpackOpcodes opcodes
  | [] => rfl
  | .tbBegin none :: rest => rfl
  | .tbBegin (some key) :: rest => by
      funext top buf bufLen readedLen
      rw [unpackOpcodesWith, unpackOpcodesWith_fault rest, unpackOpcodes]
  | .pushValue key valueArg :: rest => by
      funext top buf bufLen readedLen
      rw [unpackOpcodesWith, unpackOpcodesWith_fault rest, unpackWith_fault valueArg,
        unpackOpcodes]
  | .tbEnd :: rest => by
      funext top buf bufLen readedLen
      rw [unpackOpcodesWith, unpackOpcodesWith_fault rest, unpackOpcodes]

end

/-- Nothing depends on what a read outside of the opcodes would do. -/
def StaysInside (codec : FcallArg) : Prop :=
  ∀ outside : LuaM ℤ, codec.unpackWith outside = codec.unpack

end FcallArg

mutual

/-- Every table in the format has opcodes. -/
def FcallArg.Filled : FcallArg → Prop
  | .table opcodes => opcodes ≠ [] ∧ TableOpcode.AllFilled opcodes
  | .array basePacker _ => basePacker.Filled
  | _ => True

def TableOpcode.AllFilled : List TableOpcode → Prop
  | [] => True
  | .pushValue _ valueArg :: rest => valueArg.Filled ∧ TableOpcode.AllFilled rest
  | .tbBegin _ :: rest => TableOpcode.AllFilled rest
  | .tbEnd :: rest => TableOpcode.AllFilled rest

end

namespace FcallArg

mutual

theorem unpackWith_filled (outside other : LuaM ℤ) : (codec : FcallArg) → codec.Filled →
    codec.unpackWith outside = codec.unpackWith other
  | .number, _ => rfl
  | .byte, _ => rfl
  | .word, _ => rfl
  | .dword, _ => rfl
  | .string, _ => rfl
  | .array basePacker size, filled => by
      funext buf bufLen
      rw [unpackWith, unpackWith, unpackWith_filled outside other basePacker filled]
  | .table opcodes, filled => by
      funext buf bufLen
      rw [unpackWith, unpackWith,
        unpackOpcodesWith_filled outside other opcodes filled.1 filled.2]

theorem unpackOpcodesWith_filled (outside other : LuaM ℤ) : (opcodes : List TableOpcode) →
    opcodes ≠ [] → TableOpcode.AllFilled opcodes →
    unpackOpcodesWith outside opcodes = unpackOpcodesWith other opcodes
  | [], nonempty, _ => absurd rfl nonempty
  | [_], _, _ => rfl
  | .tbBegin none :: _ :: _, _, _ => rfl
  | .tbBegin (some key) :: next :: rest, _, filled => by
      funext top buf bufLen readedLen
      rw [unpackOpcodesWith, unpackOpcodesWith,
        unpackOpcodesWith_filled outside other (next :: rest) (by simp) filled]
  | .pushValue key valueArg :: next :: rest, _, filled => by
      funext top buf bufLen readedLen
      rw [unpackOpcodesWith, unpackOpcodesWith,
        unpackOpcodesWith_filled outside other (next :: rest) (by simp) filled.2,
        unpackWith_filled outside other valueArg filled.1]
  | .tbEnd :: next :: rest, _, filled => by
      funext top buf bufLen readedLen
      rw [unpackOpcodesWith, unpackOpcodesWith,
        unpackOpcodesWith_filled outside other (next :: rest) (by simp) filled]

end

theorem Filled.staysInside {codec : FcallArg} (filled : codec.Filled) : codec.StaysInside := by
  intro outside
  rw [← unpackWith_fault codec]
  exact unpackWith_filled outside _ codec filled

end FcallArg

/-! ## The opcodes of a description -/

namespace Travel

/-- An opcode pushes a value of a registered format, if it pushes one. -/
def FromRegistry (args : List ArgObj) : TableOpcode → Prop
  | .pushValue _ valueArg => ∃ arg ∈ args, valueArg = arg.codec
  | _ => True

/-- The opcodes that a part of the walk has emitted are from the registry. -/
def Draws (args : List ArgObj) (travel final : Travel) : Prop :=
  ∃ emitted, final.opcodes = travel.opcodes ++ emitted ∧
    ∀ opcode ∈ emitted, FromRegistry args opcode

variable {args : List ArgObj}

theorem draws_of_same {travel final : Travel} (same : final.opcodes = travel.opcodes) :
    Draws args travel final :=
  ⟨[], by simp [same], by simp⟩

theorem draws_addOpcode (opcode : TableOpcode) (registered : FromRegistry args opcode)
    (travel : Travel) : Draws args travel (addOpcode opcode travel).2 :=
  ⟨[opcode], rfl, by simpa using registered⟩

theorem Draws.trans {first second third : Travel} (before : Draws args first second)
    (after : Draws args second third) : Draws args first third := by
  rcases before with ⟨emitted, same, registered⟩
  rcases after with ⟨more, same', registered'⟩
  refine ⟨emitted ++ more, by rw [same', same, List.append_assoc], ?_⟩
  intro opcode member
  rcases List.mem_append.mp member with old | new
  · exact registered opcode old
  · exact registered' opcode new

theorem draws_readKey (numerals : Numerals) (key : LuaKey) (travel : Travel) :
    Draws args travel (readKey numerals key travel).2 := by
  apply draws_of_same
  unfold readKey
  split_ifs
  · rfl
  · cases key with
    | number value => rfl
    | string text => rfl
    | boolean truth => rfl

theorem draws_readLeaf (keyRef : Option LuaKey) (typeName : Bytes) (travel : Travel) :
    Draws args travel (readLeaf args keyRef typeName travel).2 := by
  unfold readLeaf
  apply Program.bind_kept (Draws args) Draws.trans
  · exact draws_of_same rfl
  · intro _ after
    rcases found : getArg args typeName with _ | arg
    · exact draws_of_same rfl
    · cases keyRef with
      | none => exact draws_of_same rfl
      | some key =>
          exact draws_addOpcode (.pushValue key arg.codec)
            ⟨arg, List.mem_of_find?_eq_some found, rfl⟩ after

theorem draws_enterTable {loop : Program Travel Unit}
    (draws : ∀ travel, Draws args travel (loop travel).2) (travel : Travel) :
    Draws args travel (enterTable loop travel).2 := by
  unfold enterTable
  apply Program.bind_kept (Draws args) Draws.trans
  · exact draws_of_same rfl
  · intro _ entered
    apply Program.bind_kept (Draws args) Draws.trans
    · exact draws_of_same rfl
    · intro deep after
      split_ifs
      · exact draws_of_same rfl
      · apply Program.bind_kept (Draws args) Draws.trans (draws after)
        intro _ looped
        exact draws_addOpcode .tbEnd trivial looped

mutual

theorem draws_readValue (numerals : Numerals) (keyRef : Option LuaKey) :
    (value : LuaValue) → (travel : Travel) →
      Draws args travel (readValue numerals args keyRef value travel).2
  | .number _, travel => by
      rw [readValue]
      exact draws_readLeaf keyRef _ travel
  | .string text, travel => by
      rw [readValue]
      split_ifs
      · exact draws_readLeaf keyRef _ travel
      · exact draws_readLeaf keyRef _ travel
  | .table fields, travel => by
      rw [readValue]
      apply Program.bind_kept (Draws args) Draws.trans
        (draws_addOpcode (.tbBegin keyRef) trivial travel)
      intro _ begun
      exact draws_enterTable (draws_readFields numerals fields) begun
  | .nil, travel => by
      rw [readValue]
      · exact draws_of_same rfl
      all_goals simp
  | .boolean _, travel => by
      rw [readValue]
      · exact draws_of_same rfl
      all_goals simp
  | .function _, travel => by
      rw [readValue]
      · exact draws_of_same rfl
      all_goals simp
  | .packClosure _, travel => by
      rw [readValue]
      · exact draws_of_same rfl
      all_goals simp

theorem draws_readField (numerals : Numerals) : (field : LuaKey × LuaValue) →
    (travel : Travel) → Draws args travel (readField numerals args field travel).2
  | (key, value), travel => by
      by_cases empty : value = .nil
      · rw [empty, readField]
        exact draws_of_same rfl
      rw [readField_of_value empty]
      apply Program.bind_kept (Draws args) Draws.trans (draws_readKey numerals key travel)
      intro keyRef after
      exact draws_readValue numerals keyRef value after

theorem draws_readFields (numerals : Numerals) : (fields : List (LuaKey × LuaValue)) →
    (travel : Travel) → Draws args travel (readFields numerals args fields travel).2
  | [], travel => by
      rw [readFields]
      exact draws_of_same rfl
  | field :: rest, travel => by
      rw [readFields]
      apply Program.bind_kept (Draws args) Draws.trans (draws_readField numerals field travel)
      intro _ after
      exact draws_readFields numerals rest after

end

end Travel

theorem TableOpcode.allFilled_of_forall {opcodes : List TableOpcode}
    (filled : ∀ key valueArg, .pushValue key valueArg ∈ opcodes → valueArg.Filled) :
    TableOpcode.AllFilled opcodes := by
  induction opcodes with
  | nil => trivial
  | cons opcode rest ih =>
      have later : TableOpcode.AllFilled rest :=
        ih fun key valueArg member => filled key valueArg (by simp [member])
      cases opcode with
      | tbBegin key => exact later
      | tbEnd => exact later
      | pushValue key valueArg => exact ⟨filled key valueArg (by simp), later⟩

section Walk

variable {numerals : Numerals} {args : List ArgObj} {fields : List (LuaKey × LuaValue)}
  {hashstr : Bytes} {final : Travel}

/-- A walk that comes to its end has emitted the fields and the end of the sample table. -/
theorem travelTable_ret
    (returns : travelTable numerals args fields ⟨0, [], hashstr⟩ = (.ret (), final)) :
    ∃ between, Travel.readFields numerals args fields ⟨1, [], hashstr⟩ = (.ret (), between) ∧
      final.opcodes = between.opcodes ++ [.tbEnd] := by
  have within : ¬0 + 1 > maxTableDeep := by decide
  simp only [travelTable, Travel.enterTable] at returns
  rw [Program.bind_of_ret (Program.modify_apply _ _),
    Program.bind_of_ret (Program.get_apply _ _)] at returns
  simp only [if_neg within] at returns
  rcases Program.bind_eq_ret_iff.mp returns with ⟨_, between, looped, closed⟩
  cases closed
  exact ⟨between, looped, rfl⟩

theorem opcodes_travelTable_ne_nil
    (returns : travelTable numerals args fields ⟨0, [], hashstr⟩ = (.ret (), final)) :
    final.opcodes ≠ [] := by
  rcases travelTable_ret returns with ⟨between, -, closed⟩
  rw [closed]
  exact List.concat_ne_nil _ _

/-- The leaves of a described table are registered formats. -/
theorem leaves_travelTable {good : FcallArg → Prop} (all : ∀ arg ∈ args, good arg.codec)
    (returns : travelTable numerals args fields ⟨0, [], hashstr⟩ = (.ret (), final)) :
    ∀ key valueArg, .pushValue key valueArg ∈ final.opcodes → good valueArg := by
  have draws : Travel.Draws args ⟨0, [], hashstr⟩
      (travelTable numerals args fields ⟨0, [], hashstr⟩).2 :=
    Travel.draws_enterTable (Travel.draws_readFields numerals fields) _
  rw [returns] at draws
  rcases draws with ⟨emitted, same, registered⟩
  intro key valueArg member
  rw [same] at member
  rcases registered _ member with ⟨arg, known, rfl⟩
  exact all arg known

/-- The format of a described table has opcodes, and so have all formats in it. -/
theorem filled_travelTable (filled : ∀ arg ∈ args, arg.codec.Filled)
    (returns : travelTable numerals args fields ⟨0, [], hashstr⟩ = (.ret (), final)) :
    (FcallArg.table final.opcodes).Filled :=
  ⟨opcodes_travelTable_ne_nil returns,
    TableOpcode.allFilled_of_forall (leaves_travelTable filled returns)⟩

end Walk

/-! ## Registered types -/

namespace FcallArgManager

/-- A call that changes the registry. -/
inductive RegistryCall
  | addTableArgs (file : TableFile)
  | arglistProc (desc : LuaValue)

/-- The registry after a call that returns or raises an error. -/
def registryStep (numerals : Numerals) (args : List ArgObj) :
    RegistryCall → Option (List ArgObj)
  | .addTableArgs file => survived (addTableArgs numerals file args)
  | .arglistProc desc => survived (NetProtocol.arglistProc numerals desc args)

/-- A table type with opcodes is registered, or the registry is left as it was. -/
def AllOrNothing (numerals : Numerals) (args : List ArgObj) : RegistryCall → Prop
  | .addTableArgs file =>
      (addTableArgs numerals file args).2 = args ∨
        ∃ arg opcodes, (addTableArgs numerals file args).2 = args ++ [arg] ∧
          arg.codec = .table opcodes ∧ opcodes ≠ []
  | .arglistProc _ => True

/-- Every type that `get_arg` can return unpacks without a read outside of its opcodes. -/
def SafeTypes (args : List ArgObj) : Prop :=
  ∀ typeName arg, getArg args typeName = some arg → arg.codec.StaysInside

/--
The file is read, loaded and run, and its second result is a table.  If its first result is
no string, an error is raised and it does not matter what the second one is.
-/
def UsableFile (numerals : Numerals) : TableFile → Prop
  | .returns typeName sample => (typeName.toBytes numerals).isSome → sample.isTable = true
  | _ => False

def UsableCall (numerals : Numerals) (_ : List ArgObj) : RegistryCall → Prop
  | .addTableArgs file => UsableFile numerals file
  | .arglistProc _ => True

section Registered

variable {numerals : Numerals} {args after : List ArgObj}

/-- What a usable file makes of the registry. -/
theorem addTableArgs_usable {file : TableFile} (usable : UsableFile numerals file)
    (args : List ArgObj) :
    (addTableArgs numerals file args).2 = args ∨
      ∃ typeName fields travel,
        travelTable numerals args fields ⟨0, [], typeName⟩ = (.ret (), travel) ∧
        (addTableArgs numerals file args).2 =
          args ++ [⟨typeName, travel.hashstr, .table travel.opcodes⟩] := by
  rw [addTableArgs_eq]
  cases file with
  | unreadable => exact absurd usable id
  | loadError => exact absurd usable id
  | runError => exact absurd usable id
  | returns typeName sample =>
      rw [readFormat]
      rcases named : typeName.toBytes numerals with _ | text
      · exact .inl rfl
      · have isTable : sample.isTable = true := usable (by rw [named]; rfl)
        cases sample with
        | table fields =>
            simp only [readSample]
            rcases walked : travelTable numerals args fields ⟨0, [], cString text⟩ with
              ⟨_ | _ | _ | _, travel⟩
            · exact .inr ⟨_, fields, travel, walked, rfl⟩
            · exact .inl rfl
            · exact .inl rfl
            · exact .inl rfl
        | nil => cases isTable
        | boolean truth => cases isTable
        | number value => cases isTable
        | string value => cases isTable
        | function ref => cases isTable
        | packClosure self => cases isTable

/-- Any other file registers a type without opcodes. -/
theorem addTableArgs_unusable {file : TableFile} (unusable : ¬UsableFile numerals file)
    (args : List ArgObj) :
    ∃ arg : ArgObj, (addTableArgs numerals file args).2 = args ++ [arg] ∧
      arg.codec = .table [] := by
  rw [addTableArgs_eq]
  cases file with
  | unreadable => exact ⟨baseArg, rfl, rfl⟩
  | loadError => exact ⟨baseArg, rfl, rfl⟩
  | runError => exact ⟨baseArg, rfl, rfl⟩
  | returns typeName sample =>
      rw [readFormat]
      rcases named : typeName.toBytes numerals with _ | text
      · exact absurd (fun isSome => by rw [named] at isSome; cases isSome) unusable
      · cases sample with
        | table fields => exact absurd (fun _ => rfl) unusable
        | nil => exact ⟨_, rfl, rfl⟩
        | boolean truth => exact ⟨_, rfl, rfl⟩
        | number value => exact ⟨_, rfl, rfl⟩
        | string value => exact ⟨_, rfl, rfl⟩
        | function ref => exact ⟨_, rfl, rfl⟩
        | packClosure self => exact ⟨_, rfl, rfl⟩

theorem allOrNothing_iff (call : RegistryCall) :
    AllOrNothing numerals args call ↔ UsableCall numerals args call := by
  cases call with
  | arglistProc desc => exact Iff.rfl
  | addTableArgs file =>
      constructor
      · intro atomic
        by_contra unusable
        rcases addTableArgs_unusable unusable args with ⟨arg, registered, empty⟩
        rcases atomic with same | ⟨other, opcodes, registered', codec, nonempty⟩
        · rw [registered, List.append_right_eq_self] at same
          cases same
        · rw [registered, List.append_cancel_left_eq, List.cons.injEq] at registered'
          rw [← registered'.1, empty, FcallArg.table.injEq] at codec
          exact nonempty codec.symm
      · intro usable
        rcases addTableArgs_usable usable args with same | ⟨_, fields, travel, walked, registered⟩
        · exact .inl same
        · exact .inr ⟨_, _, registered, rfl, opcodes_travelTable_ne_nil walked⟩

theorem filled_registryStep {call : RegistryCall} (filled : ∀ arg ∈ args, arg.codec.Filled)
    (usable : UsableCall numerals args call)
    (stepped : registryStep numerals args call = some after) :
    ∀ arg ∈ after, arg.codec.Filled := by
  cases call with
  | arglistProc desc =>
      have last := survived_eq_some stepped
      have grows := NetProtocol.growsByArrays_arglistProc numerals desc args
      rw [last] at grows
      exact grows.all (fun _ _ element => element) filled
  | addTableArgs file =>
      have last := survived_eq_some stepped
      rcases addTableArgs_usable usable args with same | ⟨_, fields, travel, walked, registered⟩
      · rw [← last, same]
        exact filled
      · rw [← last, registered]
        intro arg member
        rw [List.mem_append, List.mem_singleton] at member
        rcases member with old | rfl
        · exact filled arg old
        · exact filled_travelTable filled walked

end Registered

/--
Along every sequence of calls, each registration of a table type is all or nothing and all
types stay inside their opcodes, exactly if every file that is added is usable.
-/
theorem table_types_safe_iff (numerals : Numerals) (calls : List RegistryCall) :
    (StepsMeet (registryStep numerals) (AllOrNothing numerals) initArgs calls ∧
        StatesMeet (registryStep numerals) SafeTypes initArgs calls) ↔
      StepsMeet (registryStep numerals) (UsableCall numerals) initArgs calls := by
  have builtIn : ∀ arg ∈ initArgs, arg.codec.Filled :=
    forall_initArgs trivial trivial trivial trivial trivial
  constructor
  · rintro ⟨atomic, -⟩
    exact atomic.imp (allOrNothing_iff _).mp
  · intro usable
    refine ⟨usable.imp (allOrNothing_iff _).mpr, ?_⟩
    apply (statesMeet_of_stepsMeet filled_registryStep builtIn usable).imp
    intro args filled typeName arg found
    exact (filled arg (List.mem_of_find?_eq_some found)).staysInside

/--
A file that cannot be read registers the type `base` without opcodes, and unpacking it reads
outside of them.
-/
theorem table_types_unsafe_unreadable :
    ¬AllOrNothing noNumerals initArgs (.addTableArgs .unreadable) ∧
      registryStep noNumerals initArgs (.addTableArgs .unreadable) = some (initArgs ++ [baseArg]) ∧
      getArg (initArgs ++ [baseArg]) (ofString "base") = some baseArg ∧
      ¬baseArg.codec.StaysInside := by
  refine ⟨?_, rfl, rfl, ?_⟩
  · intro atomic
    exact (allOrNothing_iff (.addTableArgs .unreadable)).mp atomic
  · intro inside
    have same := inside (pure 0)
    have exits := congrArg (fun unpack => (unpack [] 0 ⟨[], [], []⟩).1) same
    cases exits

end FcallArgManager

end SimpleModule
