import SimpleModule.Protocol.DataFormat

/-!
# Table descriptions

A table format is described by a sample table whose leaves name registered formats.
`_travel_table` walks through the description and emits opcodes: `tb_begin` and `tb_end`
around the fields of a sub-table and `push_value` for a leaf.

`TableShape` is the described structure itself and `TableShape.opcodes` its bracketed
form.  The walk counts the tables it enters in `_cur_table_deep` and gives up at the
eleventh.  It never counts down again, so the limit concerns the number of tables
and not their nesting: the emitted opcodes are those of the shape exactly when the
description has at most ten tables.
-/

namespace SimpleModule

open Octets Exits

/-- The characters of a C string. -/
def cString (bytes : Bytes) : Bytes := bytes.takeWhile fun octet => octet ≠ 0

/-- A format object with its name and its hash string. -/
structure ArgObj where
  typeName : Bytes
  hashstr : Bytes
  codec : FcallArg

/-- The formats that `fcall_arg_manager::init` registers. -/
def initArgs : List ArgObj :=
  [⟨ofString "number", ofString "number", .number⟩, ⟨ofString "byte", ofString "byte", .byte⟩,
    ⟨ofString "word", ofString "word", .word⟩, ⟨ofString "dword", ofString "dword", .dword⟩,
    ⟨ofString "string", ofString "string", .string⟩]

/-- What holds for the formats of numbers and strings holds for the built-in types. -/
theorem forall_initArgs {good : FcallArg → Prop} (number : good .number) (byte : good .byte)
    (word : good .word) (dword : good .dword) (string : good .string) :
    ∀ arg ∈ initArgs, good arg.codec := by
  intro arg member
  simp only [initArgs, List.mem_cons, List.not_mem_nil, or_false] at member
  rcases member with rfl | rfl | rfl | rfl | rfl
  · exact number
  · exact byte
  · exact word
  · exact dword
  · exact string

/-- `fcall_arg_manager::get_arg` by name. -/
def getArg (args : List ArgObj) (typeName : Bytes) : Option ArgObj :=
  args.find? fun arg => arg.typeName = cString typeName

/-! ## The walk -/

/-- The fields of a `fcall_table_arg` while its description is read. -/
structure Travel where
  curTableDeep : ℕ
  opcodes : List TableOpcode
  hashstr : Bytes

/-- The limit on `_cur_table_deep`. -/
def maxTableDeep : ℕ := 10

namespace Travel

def addHash (text : Bytes) : Program Travel Unit :=
  .modify fun travel => { travel with hashstr := travel.hashstr ++ text }

def addOpcode (opcode : TableOpcode) : Program Travel Unit :=
  .modify fun travel => { travel with opcodes := travel.opcodes ++ [opcode] }

/-- The treatment of a key: its contribution to the hash and the reference kept for it. -/
def readKey (numerals : Numerals) (key : LuaKey) : Program Travel (Option LuaKey) :=
  if key.toValue.isNumber numerals then do
    addHash (ofString "number")
    return some key
  else
    match key with
    | .string text => do
        addHash (cString text)
        return some key
    | _ => return none

/-- The treatment of a leaf that names a format. -/
def readLeaf (args : List ArgObj) (keyRef : Option LuaKey) (typeName : Bytes) :
    Program Travel Unit := do
  addHash (cString typeName)
  match getArg args typeName, keyRef with
  | none, _ => pure ()
  | some _, none => .exit .abort
  | some arg, some key => addOpcode (.pushValue key arg.codec)

/-- The frame of `_travel_table` around its loop. -/
def enterTable (loop : Program Travel Unit) : Program Travel Unit := do
  .modify fun travel => { travel with curTableDeep := travel.curTableDeep + 1 }
  if (← .get curTableDeep) > maxTableDeep then pure ()
  else do
    loop
    addOpcode .tbEnd

mutual

/-- The treatment of a value under a key. -/
def readValue (numerals : Numerals) (args : List ArgObj) (keyRef : Option LuaKey) :
    LuaValue → Program Travel Unit
  | .number _ => readLeaf args keyRef (ofString "number")
  | .string text =>
      if (LuaValue.string text).isNumber numerals then readLeaf args keyRef (ofString "number")
      else readLeaf args keyRef text
  | .table fields => do
      addOpcode (.tbBegin keyRef)
      enterTable (readFields numerals args fields)
  | _ => pure ()

/-- One turn of the loop in `_travel_table`; `lua_next` passes over entries without a value. -/
def readField (numerals : Numerals) (args : List ArgObj) :
    LuaKey × LuaValue → Program Travel Unit
  | (_, .nil) => pure ()
  | (key, value) => do
      let keyRef ← readKey numerals key
      readValue numerals args keyRef value

/-- The loop in `_travel_table`. -/
def readFields (numerals : Numerals) (args : List ArgObj) :
    List (LuaKey × LuaValue) → Program Travel Unit
  | [] => pure ()
  | field :: rest => do
      readField numerals args field
      readFields numerals args rest

end

end Travel

/-- `fcall_table_arg::_travel_table` on the sample table. -/
def travelTable (numerals : Numerals) (args : List ArgObj) (fields : List (LuaKey × LuaValue)) :
    Program Travel Unit :=
  Travel.enterTable (Travel.readFields numerals args fields)

/-! ## The described structure -/

/-- The fields of a table: leaves with a format, and sub-tables. -/
inductive TableShape (τ : Type)
  | nil
  | value (key : LuaKey) (leaf : τ) (rest : TableShape τ)
  | sub (key : LuaKey) (fields rest : TableShape τ)

namespace TableShape

variable {τ : Type}

/-- The number of tables below a table. -/
def subTables : TableShape τ → ℕ
  | nil => 0
  | value _ _ rest => rest.subTables
  | sub _ fields rest => 1 + fields.subTables + rest.subTables

/-- The number of tables in a description, the root included. -/
def tableCount (shape : TableShape τ) : ℕ := 1 + shape.subTables

/-- The nesting depth of a description, one for a table of leaves. -/
def depth : TableShape τ → ℕ
  | nil => 1
  | value _ _ rest => rest.depth
  | sub _ fields rest => max (1 + fields.depth) rest.depth

/-- The keys of a table's own fields. -/
def keys : TableShape τ → List LuaKey
  | nil => []
  | value key _ rest => key :: rest.keys
  | sub key _ rest => key :: rest.keys

/-- The number of leaves. -/
def valueCount : TableShape τ → ℕ
  | nil => 0
  | value _ _ rest => 1 + rest.valueCount
  | sub _ fields rest => fields.valueCount + rest.valueCount

/-- The opcodes for the fields of a table, each sub-table in its own brackets. -/
def fieldOpcodes : TableShape FcallArg → List TableOpcode
  | nil => []
  | value key arg rest => .pushValue key arg :: fieldOpcodes rest
  | sub key fields rest =>
      .tbBegin (some key) :: (fieldOpcodes fields ++ .tbEnd :: fieldOpcodes rest)

/-- The bracketed form of a description, closed by a single `tb_end` for the root. -/
def opcodes (shape : TableShape FcallArg) : List TableOpcode := shape.fieldOpcodes ++ [.tbEnd]

end TableShape

/-- The name of the format for a leaf of a description. -/
def leafName (numerals : Numerals) : LuaValue → Option Bytes
  | .number _ => some (ofString "number")
  | .string text =>
      if (LuaValue.string text).isNumber numerals then some (ofString "number") else some text
  | _ => none

/-- Whether a key of a description is a string or a number. -/
def LuaKey.IsName : LuaKey → Prop
  | .boolean _ => False
  | _ => True

/--
A sample table describes a shape: its keys are distinct strings or numbers, and its
leaves name registered formats.  Entries without a value do not matter.
-/
inductive Describes (numerals : Numerals) (args : List ArgObj) :
    List (LuaKey × LuaValue) → TableShape FcallArg → Prop
  | nil : Describes numerals args [] .nil
  | value {key : LuaKey} {leaf : LuaValue} {typeName : Bytes} {arg : ArgObj}
      {rest : List (LuaKey × LuaValue)} {shape : TableShape FcallArg} (named : key.IsName)
      (fresh : key ∉ rest.map Prod.fst) (leafNamed : leafName numerals leaf = some typeName)
      (registered : getArg args typeName = some arg) (tail : Describes numerals args rest shape) :
      Describes numerals args ((key, leaf) :: rest) (.value key arg.codec shape)
  | sub {key : LuaKey} {fields rest : List (LuaKey × LuaValue)}
      {inner shape : TableShape FcallArg} (named : key.IsName)
      (fresh : key ∉ rest.map Prod.fst) (head : Describes numerals args fields inner)
      (tail : Describes numerals args rest shape) :
      Describes numerals args ((key, .table fields) :: rest) (.sub key inner shape)
  | empty {key : LuaKey} {rest : List (LuaKey × LuaValue)} {shape : TableShape FcallArg}
      (tail : Describes numerals args rest shape) :
      Describes numerals args ((key, .nil) :: rest) shape

/-! ## What the walk emits -/

namespace Travel

theorem readKey_eq (numerals : Numerals) {key : LuaKey} (named : key.IsName) (travel : Travel) :
    ∃ hashstr, readKey numerals key travel =
      (.ret (some key), { travel with hashstr := hashstr }) := by
  cases key with
  | number value => exact ⟨_, rfl⟩
  | string text =>
      unfold readKey
      split_ifs
      · exact ⟨_, rfl⟩
      · exact ⟨_, rfl⟩
  | boolean value => exact absurd named id

variable {numerals : Numerals} {args : List ArgObj}

theorem readLeaf_eq {typeName : Bytes} {arg : ArgObj} (registered : getArg args typeName = some arg)
    (key : LuaKey) (travel : Travel) :
    ∃ hashstr, readLeaf args (some key) typeName travel =
      (.ret (), { travel with
        opcodes := travel.opcodes ++ [.pushValue key arg.codec], hashstr := hashstr }) := by
  simp only [readLeaf, registered]
  exact ⟨_, rfl⟩

theorem readValue_leaf {leaf : LuaValue} {typeName : Bytes}
    (leafNamed : leafName numerals leaf = some typeName) (keyRef : Option LuaKey) :
    readValue numerals args keyRef leaf = readLeaf args keyRef typeName := by
  cases leaf with
  | number value =>
      simp only [leafName, Option.some.injEq] at leafNamed
      rw [readValue, leafNamed]
  | string text =>
      simp only [leafName] at leafNamed
      rw [readValue]
      split_ifs at leafNamed ⊢ with numeric
      · rw [Option.some.inj leafNamed]
      · rw [Option.some.inj leafNamed]
  | nil => simp [leafName] at leafNamed
  | boolean value => simp [leafName] at leafNamed
  | function ref => simp [leafName] at leafNamed
  | packClosure self => simp [leafName] at leafNamed
  | table fields => simp [leafName] at leafNamed

@[simp]
theorem readFields_empty (key : LuaKey) (rest : List (LuaKey × LuaValue)) :
    readFields numerals args ((key, .nil) :: rest) = readFields numerals args rest := by
  rw [readFields, readField]
  rfl

/-- A field with a value is read under its key. -/
theorem readField_of_value {value : LuaValue} (present : value ≠ .nil) (key : LuaKey) :
    readField numerals args (key, value) =
      readKey numerals key >>= fun keyRef => readValue numerals args keyRef value := by
  cases value with
  | nil => exact absurd rfl present
  | boolean truth => rw [readField]; exact present
  | number number => rw [readField]; exact present
  | string text => rw [readField]; exact present
  | function ref => rw [readField]; exact present
  | packClosure self => rw [readField]; exact present
  | table entries => rw [readField]; exact present

theorem readField_leaf {key : LuaKey} {leaf : LuaValue} {typeName : Bytes} {arg : ArgObj}
    (named : key.IsName) (leafNamed : leafName numerals leaf = some typeName)
    (registered : getArg args typeName = some arg) (travel : Travel) :
    ∃ hashstr, readField numerals args (key, leaf) travel =
      (.ret (), { travel with
        opcodes := travel.opcodes ++ [.pushValue key arg.codec], hashstr := hashstr }) := by
  have present : leaf ≠ .nil := by
    rintro rfl
    simp [leafName] at leafNamed
  rcases readKey_eq numerals named travel with ⟨afterKey, keyed⟩
  rw [readField_of_value present, Program.bind_of_ret keyed, readValue_leaf leafNamed]
  exact readLeaf_eq registered key _

theorem readField_table {key : LuaKey} (named : key.IsName) (fields : List (LuaKey × LuaValue))
    (travel : Travel) :
    ∃ hashstr, readField numerals args (key, .table fields) travel =
      enterTable (readFields numerals args fields) { travel with
        opcodes := travel.opcodes ++ [.tbBegin (some key)], hashstr := hashstr } := by
  rcases readKey_eq numerals named travel with ⟨afterKey, keyed⟩
  refine ⟨afterKey, ?_⟩
  rw [readField_of_value LuaValue.noConfusion, Program.bind_of_ret keyed, readValue]
  rfl

theorem enterTable_of_le {loop : Program Travel Unit} {deep : ℕ} {opcodes : List TableOpcode}
    {hashstr : Bytes} {final : Travel} (room : deep + 1 ≤ maxTableDeep)
    (looped : loop ⟨deep + 1, opcodes, hashstr⟩ = (.ret (), final)) :
    enterTable loop ⟨deep, opcodes, hashstr⟩ =
      (.ret (), { final with opcodes := final.opcodes ++ [.tbEnd] }) := by
  have within : ¬deep + 1 > maxTableDeep := not_lt.mpr room
  simp only [enterTable]
  rw [Program.bind_of_ret (Program.modify_apply _ _), Program.bind_of_ret (Program.get_apply _ _)]
  simp only [if_neg within]
  rw [Program.bind_of_ret looped]
  rfl

theorem enterTable_of_gt (loop : Program Travel Unit) {deep : ℕ} (opcodes : List TableOpcode)
    (hashstr : Bytes) (full : maxTableDeep < deep + 1) :
    enterTable loop ⟨deep, opcodes, hashstr⟩ = (.ret (), ⟨deep + 1, opcodes, hashstr⟩) := by
  simp only [enterTable]
  rw [Program.bind_of_ret (Program.modify_apply _ _), Program.bind_of_ret (Program.get_apply _ _)]
  simp only [if_pos full]
  rfl

/-- While the tables stay within the limit, the walk emits the opcodes of the shape. -/
theorem readFields_within {fields : List (LuaKey × LuaValue)} {shape : TableShape FcallArg}
    (described : Describes numerals args fields shape) {deep : ℕ} (opcodes : List TableOpcode)
    (hashstr : Bytes) (room : deep + shape.subTables ≤ maxTableDeep) :
    ∃ final, readFields numerals args fields ⟨deep, opcodes, hashstr⟩ =
      (.ret (), ⟨deep + shape.subTables, opcodes ++ shape.fieldOpcodes, final⟩) := by
  induction described generalizing deep opcodes hashstr with
  | nil =>
      refine ⟨hashstr, ?_⟩
      simp [readFields, TableShape.subTables, TableShape.fieldOpcodes]
  | @value key _ _ arg _ _ named fresh leafNamed registered tail ih =>
      rcases readField_leaf named leafNamed registered ⟨deep, opcodes, hashstr⟩ with
        ⟨afterLeaf, leafRead⟩
      rcases ih (opcodes ++ [.pushValue key arg.codec]) afterLeaf room with ⟨final, later⟩
      refine ⟨final, ?_⟩
      rw [readFields, Program.bind_of_ret leafRead, later]
      simp [TableShape.subTables, TableShape.fieldOpcodes]
  | @sub key fields rest inner shape named fresh head tail ihHead ihTail =>
      simp only [TableShape.subTables] at room
      have insideRoom : deep + 1 + inner.subTables ≤ maxTableDeep := by omega
      have laterRoom : deep + 1 + inner.subTables + shape.subTables ≤ maxTableDeep := by omega
      rcases readField_table named fields ⟨deep, opcodes, hashstr⟩ with ⟨afterKey, opened⟩
      rcases ihHead (opcodes ++ [.tbBegin (some key)]) afterKey insideRoom with
        ⟨afterFields, inside⟩
      have entered := enterTable_of_le (by omega) inside
      rcases ihTail (opcodes ++ [.tbBegin (some key)] ++ inner.fieldOpcodes ++ [.tbEnd])
        afterFields laterRoom with ⟨final, later⟩
      refine ⟨final, ?_⟩
      rw [readFields, Program.bind_of_ret (opened.trans entered), later]
      simp [TableShape.subTables, TableShape.fieldOpcodes, Nat.add_assoc]
  | empty tail ih =>
      rw [readFields_empty]
      exact ih opcodes hashstr room

/-- The number of `tb_end` opcodes. -/
def closings : List TableOpcode → ℕ
  | [] => 0
  | .tbEnd :: rest => closings rest + 1
  | .tbBegin _ :: rest => closings rest
  | .pushValue _ _ :: rest => closings rest

@[simp]
theorem closings_append (first second : List TableOpcode) :
    closings (first ++ second) = closings first + closings second := by
  induction first with
  | nil => simp [closings]
  | cons opcode rest ih =>
      cases opcode with
      | tbBegin key => simpa [closings] using ih
      | tbEnd =>
          simp [closings, ih]
          omega
      | pushValue key arg => simpa [closings] using ih

/-- The walk closes one table for each that it counts up to the limit. -/
theorem readFields_closings {fields : List (LuaKey × LuaValue)} {shape : TableShape FcallArg}
    (described : Describes numerals args fields shape) (deep : ℕ) (opcodes : List TableOpcode)
    (hashstr : Bytes) :
    ∃ final, readFields numerals args fields ⟨deep, opcodes, hashstr⟩ = (.ret (), final) ∧
      closings final.opcodes + min deep maxTableDeep =
        closings opcodes + min final.curTableDeep maxTableDeep := by
  induction described generalizing deep opcodes hashstr with
  | nil => exact ⟨⟨deep, opcodes, hashstr⟩, by simp [readFields], rfl⟩
  | @value key _ _ arg _ _ named fresh leafNamed registered tail ih =>
      rcases readField_leaf named leafNamed registered ⟨deep, opcodes, hashstr⟩ with
        ⟨afterLeaf, leafRead⟩
      rcases ih deep (opcodes ++ [.pushValue key arg.codec]) afterLeaf with
        ⟨final, later, counted⟩
      refine ⟨final, ?_, ?_⟩
      · rw [readFields, Program.bind_of_ret leafRead, later]
      · simpa [closings] using counted
  | @sub key fields rest inner shape named fresh head tail ihHead ihTail =>
      rcases readField_table named fields ⟨deep, opcodes, hashstr⟩ with ⟨afterKey, opened⟩
      by_cases room : deep + 1 ≤ maxTableDeep
      · rcases ihHead (deep + 1) (opcodes ++ [.tbBegin (some key)]) afterKey with
          ⟨⟨deepInside, opcodesInside, afterFields⟩, inside, countedInside⟩
        have entered := enterTable_of_le room inside
        rcases ihTail deepInside (opcodesInside ++ [.tbEnd]) afterFields with
          ⟨final, later, counted⟩
        refine ⟨final, ?_, ?_⟩
        · rw [readFields, Program.bind_of_ret (opened.trans entered), later]
        · simp [closings] at counted countedInside ⊢
          omega
      · have full : maxTableDeep < deep + 1 := not_le.mp room
        have skipped := enterTable_of_gt (readFields numerals args fields)
          (opcodes ++ [.tbBegin (some key)]) afterKey full
        rcases ihTail (deep + 1) (opcodes ++ [.tbBegin (some key)]) afterKey with
          ⟨final, later, counted⟩
        refine ⟨final, ?_, ?_⟩
        · rw [readFields, Program.bind_of_ret (opened.trans skipped), later]
        · simp [closings] at counted ⊢
          omega
  | empty tail ih =>
      rw [readFields_empty]
      exact ih deep opcodes hashstr

theorem closings_fieldOpcodes (shape : TableShape FcallArg) :
    closings shape.fieldOpcodes = shape.subTables := by
  induction shape with
  | nil => rfl
  | value key arg rest ih =>
      simpa [closings, TableShape.fieldOpcodes, TableShape.subTables] using ih
  | sub key fields rest ihFields ihRest =>
      simp [closings, TableShape.fieldOpcodes, TableShape.subTables, ihFields, ihRest]
      omega

theorem closings_opcodes (shape : TableShape FcallArg) :
    closings shape.opcodes = shape.tableCount := by
  simp [closings, TableShape.opcodes, TableShape.tableCount, closings_fieldOpcodes]
  omega

end Travel

section Result

variable {numerals : Numerals} {args : List ArgObj} {fields : List (LuaKey × LuaValue)}
  {shape : TableShape FcallArg}

/-- Up to ten tables the walk emits the bracketed description. -/
theorem travelTable_opcodes (described : Describes numerals args fields shape)
    (small : shape.tableCount ≤ maxTableDeep) (hashstr : Bytes) :
    ∃ final, travelTable numerals args fields ⟨0, [], hashstr⟩ = (.ret (), final) ∧
      final.opcodes = shape.opcodes := by
  simp only [TableShape.tableCount] at small
  rcases Travel.readFields_within described [] hashstr small with ⟨final, walked⟩
  have entered := Travel.enterTable_of_le (by omega) walked
  exact ⟨_, entered, by simp [TableShape.opcodes]⟩

/-- The walk closes at most ten tables. -/
theorem closings_travelTable (described : Describes numerals args fields shape)
    (hashstr : Bytes) :
    ∃ final, travelTable numerals args fields ⟨0, [], hashstr⟩ = (.ret (), final) ∧
      Travel.closings final.opcodes ≤ maxTableDeep := by
  rcases Travel.readFields_closings described 1 [] hashstr with ⟨walked, looped, counted⟩
  have entered := Travel.enterTable_of_le (by decide) looped
  refine ⟨_, entered, ?_⟩
  simp [Travel.closings, maxTableDeep] at counted ⊢
  omega

/--
The opcodes emitted for a description are its bracketed form exactly when the
description has at most ten tables, the root included.
-/
theorem travelTable_opcodes_iff (described : Describes numerals args fields shape)
    (hashstr : Bytes) :
    ∃ final, travelTable numerals args fields ⟨0, [], hashstr⟩ = (.ret (), final) ∧
      (final.opcodes = shape.opcodes ↔ shape.tableCount ≤ maxTableDeep) := by
  rcases closings_travelTable described hashstr with ⟨final, travelled, bounded⟩
  refine ⟨final, travelled, ?_, ?_⟩
  · intro bracketed
    rw [bracketed, Travel.closings_opcodes] at bounded
    exact bounded
  · intro small
    rcases travelTable_opcodes described small hashstr with ⟨other, again, bracketed⟩
    rw [travelled] at again
    simp only [Prod.mk.injEq, true_and] at again
    rw [again]
    exact bracketed

end Result

/-- A table of empty sub-tables under the keys below `count`. -/
def wideFields : (count : ℕ) → List (LuaKey × LuaValue)
  | 0 => []
  | count + 1 => (.number count, .table []) :: wideFields count

def wideShape : (count : ℕ) → TableShape FcallArg
  | 0 => .nil
  | count + 1 => .sub (.number count) .nil (wideShape count)

theorem lt_of_mem_wideFields {count position : ℕ}
    (member : LuaKey.number position ∈ (wideFields count).map Prod.fst) : position < count := by
  induction count with
  | zero => simp [wideFields] at member
  | succ count ih =>
      simp only [wideFields, List.map_cons, List.mem_cons, LuaKey.number.injEq,
        Nat.cast_inj] at member
      rcases member with rfl | earlier
      · omega
      · have := ih earlier
        omega

theorem describes_wide (numerals : Numerals) (args : List ArgObj) (count : ℕ) :
    Describes numerals args (wideFields count) (wideShape count) := by
  induction count with
  | zero => exact .nil
  | succ count ih =>
      have named : (LuaKey.number count).IsName := trivial
      have fresh : LuaKey.number count ∉ (wideFields count).map Prod.fst := by
        intro member
        exact absurd (lt_of_mem_wideFields member) (lt_irrefl count)
      exact .sub named fresh .nil ih

/-- Conversions that recognise no numeral. -/
def noNumerals : Numerals := ⟨fun _ => none, fun _ => []⟩

theorem travelTable_opcodes_iff_nine :
    ∃ final, travelTable noNumerals initArgs (wideFields 9) ⟨0, [], []⟩ = (.ret (), final) ∧
      final.opcodes = (wideShape 9).opcodes := by
  rcases travelTable_opcodes_iff (describes_wide noNumerals initArgs 9) [] with
    ⟨final, travelled, bracketed⟩
  exact ⟨final, travelled, bracketed.mpr (by decide)⟩

/-- Ten sub-tables side by side, at depth two: the last one is opened and never closed. -/
theorem travelTable_unbalanced :
    Describes noNumerals initArgs (wideFields 10) (wideShape 10) ∧
      (wideShape 10).depth ≤ maxTableDeep ∧
      (travelTable noNumerals initArgs (wideFields 10) ⟨0, [], []⟩).2.opcodes ≠
        (wideShape 10).opcodes := by
  refine ⟨describes_wide _ _ _, by decide, ?_⟩
  intro bracketed
  have counted := congrArg Travel.closings bracketed
  rw [Travel.closings_opcodes] at counted
  exact absurd counted (by decide +kernel)

end SimpleModule
