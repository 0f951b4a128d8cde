import SimpleModule.Lib.Borders
import SimpleModule.Lib.Exits
import SimpleModule.Lib.Octets

/-!
# The Lua interface

The protocol library exchanges values with Lua through a stack.  This file models the
part of the C interface of Lua 5.1 that it uses: values, the stack of the running C
function with its positive and negative indices, and the operations on them.

Tables are finite association lists in the order in which `lua_next` visits them, with
numbers, strings and booleans as keys.  First come the slots of the array part, which are the
entries with the keys 1, 2, 3 and so on at the beginning of the list, and then the nodes of the
hash part.  An entry with the value `nil` is an empty slot or a node that was emptied: it is
not visited, but `lua_objlen` depends on it.  Where a new key is put is not modelled, it goes to
the end.  Numbers are exact; conversions between numbers and strings are parameters.  Functions
are known by a reference, and `pack` closures by the protocol object that is their upvalue.

A state also records the bytes that the running call has put into the output buffer and
the calls of script functions, in order.
-/

namespace SimpleModule

open Octets Exits

/-- A table key. -/
inductive LuaKey
  | number (value : ℚ)
  | string (value : Bytes)
  | boolean (value : Bool)
  deriving DecidableEq, Repr

/-- A Lua value. -/
inductive LuaValue
  | nil
  | boolean (value : Bool)
  | number (value : ℚ)
  | string (value : Bytes)
  | function (ref : ℕ)
  | packClosure (self : ℕ)
  | table (fields : List (LuaKey × LuaValue))
  deriving Repr

/-- The conversions between numbers and strings, `lua_str2number` and `lua_number2str`. -/
structure Numerals where
  str2number : Bytes → Option ℚ
  number2str : ℚ → Bytes

def LuaKey.toValue : LuaKey → LuaValue
  | .number value => .number value
  | .string value => .string value
  | .boolean value => .boolean value

namespace LuaValue

/-- The key a value stands for, if it is of a kind that can be a key here. -/
def toKey : LuaValue → Option LuaKey
  | .number value => some (.number value)
  | .string value => some (.string value)
  | .boolean value => some (.boolean value)
  | _ => none

def isTable : LuaValue → Bool
  | .table _ => true
  | _ => false

def isNil : LuaValue → Bool
  | .nil => true
  | _ => false

/-- The object of a `pack` closure. -/
def closureSelf : LuaValue → Option ℕ
  | .packClosure self => some self
  | _ => none

def isFunction : LuaValue → Bool
  | .function _ => true
  | .packClosure _ => true
  | _ => false

/-- The entry of a table, `nil` if there is none. -/
def field (value : LuaValue) (key : LuaKey) : LuaValue :=
  match value with
  | .table fields => (fields.lookup key).getD .nil
  | _ => .nil

/-- The entry of a table at an integer. -/
def index (value : LuaValue) (position : ℤ) : LuaValue := value.field (.number position)

/-- An assignment to an entry: a new key goes to the end. -/
def setField (fields : List (LuaKey × LuaValue)) (key : LuaKey) (value : LuaValue) :
    List (LuaKey × LuaValue) :=
  if key ∈ fields.map Prod.fst then
    fields.map fun entry => if entry.1 = key then (key, value) else entry
  else fields ++ [(key, value)]

theorem setField_of_fresh {fields : List (LuaKey × LuaValue)} {key : LuaKey}
    (fresh : key ∉ fields.map Prod.fst) (value : LuaValue) :
    setField fields key value = fields ++ [(key, value)] := if_neg fresh

theorem lookup_replace (fields : List (LuaKey × LuaValue)) (key : LuaKey) (value : LuaValue)
    (other : LuaKey) :
    (fields.map fun entry => if entry.1 = key then (key, value) else entry).lookup other =
      if other = key ∧ key ∈ fields.map Prod.fst then some value else fields.lookup other := by
  induction fields with
  | nil => simp
  | cons entry rest ih =>
      rcases entry with ⟨first, old⟩
      rw [List.map_cons]
      by_cases replaced : first = key
      · subst replaced
        rw [if_pos rfl]
        by_cases asked : other = first
        · simp [asked]
        · have different : (other == first) = false := beq_false_of_ne asked
          simp [List.lookup_cons, different, asked, ih]
      · rw [if_neg replaced]
        by_cases asked : other = first
        · simp [asked, replaced]
        · have different : (other == first) = false := beq_false_of_ne asked
          have other_key : (key ∈ ((first, old) :: rest).map Prod.fst) =
              (key ∈ rest.map Prod.fst) := by
            simp [Ne.symm replaced]
          simp only [List.lookup_cons, different, ih, other_key]

theorem lookup_setField (fields : List (LuaKey × LuaValue)) (key : LuaKey) (value : LuaValue)
    (other : LuaKey) :
    (setField fields key value).lookup other =
      if other = key then some value else fields.lookup other := by
  rw [setField]
  split_ifs with known asked asked
  · rw [lookup_replace, if_pos ⟨asked, known⟩]
  · rw [lookup_replace, if_neg fun both => asked both.1]
  · have absent : fields.lookup key = none := by
      rw [List.lookup_eq_none_iff]
      intro entry member
      apply bne_iff_ne.mpr
      rintro rfl
      exact known (List.mem_map_of_mem member)
    rw [List.lookup_append, asked, absent]
    simp
  · have different : (other == key) = false := beq_false_of_ne asked
    rw [List.lookup_append]
    simp [List.lookup_cons, different]

theorem field_setField (fields : List (LuaKey × LuaValue)) (key : LuaKey) (value : LuaValue)
    (other : LuaKey) :
    (LuaValue.table (setField fields key value)).field other =
      if other = key then value else (LuaValue.table fields).field other := by
  simp only [field, lookup_setField]
  split_ifs with asked
  · rfl
  · rfl

/-! ### The length of a table -/

/-- A positive number has an entry. -/
def hasIndex (fields : List (LuaKey × LuaValue)) (position : ℕ) : Bool :=
  !((LuaValue.table fields).index position).isNil

/-- The number of slots of the array part, behind the first `start` ones. -/
def slotsFrom : (start : ℕ) → List (LuaKey × LuaValue) → ℕ
  | start, (.number key, _) :: rest =>
      if key = start + 1 then slotsFrom (start + 1) rest else start
  | start, _ => start

/-- `luaH_getn` with `unbound_search`. -/
def getn (fields : List (LuaKey × LuaValue)) : ℕ :=
  let sizearray := slotsFrom 0 fields
  if sizearray > 0 ∧ hasIndex fields sizearray = false then
    Borders.bisect (hasIndex fields) sizearray 0 sizearray
  else if fields.length = sizearray then sizearray
  else Borders.gallop (hasIndex fields) (2 ^ 31 - 1) fields.length 32 sizearray (sizearray + 1)

/-- `lua_objlen`. -/
def objlen : LuaValue → ℕ
  | .string value => value.length
  | .table fields => getn fields
  | _ => 0

theorem key_mem_of_hasIndex {fields : List (LuaKey × LuaValue)} {position : ℕ}
    (found : hasIndex fields position = true) : .number position ∈ fields.map Prod.fst := by
  rcases entry : fields.lookup (.number position) with _ | value
  · simp [hasIndex, index, field, entry, isNil] at found
  · rcases List.lookup_eq_some_iff.mp entry with ⟨before, behind, rfl, -⟩
    simp

/-- A list of entries has no room for one position more than it is long. -/
theorem exists_not_hasIndex (fields : List (LuaKey × LuaValue)) :
    ∃ gap, gap ≤ fields.length ∧ hasIndex fields (gap + 1) = false := by
  by_contra all
  have filled : ∀ position ∈ List.range (fields.length + 1),
      LuaKey.number (position + 1 : ℕ) ∈ fields.map Prod.fst := by
    intro position member
    apply key_mem_of_hasIndex
    by_contra absent
    exact all ⟨position, Nat.lt_succ_iff.mp (List.mem_range.mp member),
      Bool.not_eq_true _ ▸ absent⟩
  have distinct : ((List.range (fields.length + 1)).map
      fun position => LuaKey.number (position + 1 : ℕ)).Nodup := by
    apply List.Nodup.map _ List.nodup_range
    intro left right same
    have cast := LuaKey.number.inj same
    exact Nat.succ_injective (Nat.cast_injective cast)
  have fits := (List.subperm_of_subset distinct (by
    intro key member
    rcases List.mem_map.mp member with ⟨position, inside, rfl⟩
    exact filled position inside)).length_le
  simp at fits

/-- Without a hash part all keys are those of slots. -/
theorem key_le_slotsFrom (start : ℕ) {fields : List (LuaKey × LuaValue)}
    (whole : start + fields.length = slotsFrom start fields) :
    ∀ key ∈ fields.map Prod.fst, ∃ slot : ℕ, key = .number slot ∧ slot ≤ start + fields.length := by
  fun_induction slotsFrom start fields with
  | case1 start value rest ih =>
      rw [List.length_cons] at whole ⊢
      intro key member
      rcases List.mem_cons.mp member with rfl | later
      · exact ⟨start + 1, by simp, by omega⟩
      · rcases ih (by omega) key later with ⟨slot, same, bounded⟩
        exact ⟨slot, same, by omega⟩
  | case2 start key value rest other =>
      rw [List.length_cons] at whole
      omega
  | case3 fields start other =>
      have empty : fields = [] := List.eq_nil_of_length_eq_zero (by omega)
      simp [empty]

/-- The length of a table is one of its borders. -/
theorem isBorder_getn (fields : List (LuaKey × LuaValue)) :
    Borders.IsBorder (hasIndex fields) (getn fields) := by
  rw [getn]
  by_cases last : slotsFrom 0 fields > 0 ∧ hasIndex fields (slotsFrom 0 fields) = false
  · rw [if_pos last]
    exact Borders.isBorder_bisect (by omega) last.1 (.inl rfl) last.2
  · rw [if_neg last]
    have member : slotsFrom 0 fields = 0 ∨ hasIndex fields (slotsFrom 0 fields) = true := by
      rcases Nat.eq_zero_or_pos (slotsFrom 0 fields) with zero | positive
      · exact .inl zero
      · exact .inr (Bool.not_eq_false _ ▸ fun absent => last ⟨positive, absent⟩)
    split_ifs with noHash
    · refine ⟨member, ?_⟩
      by_contra found
      rw [Bool.not_eq_false] at found
      rcases key_le_slotsFrom 0 (by omega) _ (key_mem_of_hasIndex found) with
        ⟨slot, same, bounded⟩
      have next : slotsFrom 0 fields + 1 = slot := Nat.cast_injective (LuaKey.number.inj same)
      omega
    · exact Borders.isBorder_gallop (Nat.lt_succ_self _) member (exists_not_hasIndex fields)

/-- The length of a table without holes. -/
theorem objlen_of_filled {fields : List (LuaKey × LuaValue)} {count : ℕ}
    (filled : ∀ position : ℕ, position < count →
      (LuaValue.table fields).index (position + 1) ≠ .nil)
    (empty : ∀ position : ℕ, count ≤ position →
      (LuaValue.table fields).index (position + 1) = .nil) :
    (LuaValue.table fields).objlen = count := by
  apply (isBorder_getn fields).eq_of_filled
  · intro position inside
    have here := filled position inside
    rw [hasIndex, Nat.cast_add_one]
    cases value : (LuaValue.table fields).index (position + 1) with
    | nil => exact absurd value here
    | _ => rfl
  · intro position outside
    rw [hasIndex, Nat.cast_add_one, empty position outside]
    rfl

/-- A table with a hole: the last slot is filled, and the search does not look further. -/
example : (LuaValue.table [(.number 1, .string []), (.number 2, .nil),
    (.number 3, .string [])]).objlen = 3 := by decide +kernel

/-- `lua_isnumber`: a number or a string that reads as one. -/
def isNumber (numerals : Numerals) : LuaValue → Bool
  | .number _ => true
  | .string value => (numerals.str2number value).isSome
  | _ => false

/-- `lua_tonumber`. -/
def toNumber (numerals : Numerals) : LuaValue → ℚ
  | .number value => value
  | .string value => (numerals.str2number value).getD 0
  | _ => 0

/-- The string a value converts to: `lua_isstring` and `lua_tostring`. -/
def toBytes (numerals : Numerals) : LuaValue → Option Bytes
  | .string value => some value
  | .number value => some (numerals.number2str value)
  | _ => none

end LuaValue

@[simp]
theorem LuaKey.toKey_toValue (key : LuaKey) : key.toValue.toKey = some key := by
  cases key with
  | number value => rfl
  | string value => rfl
  | boolean value => rfl

/--
The conversion of a number to `int`: towards zero, and the smallest `int` for a number that is
out of range.
-/
def number2int (value : ℚ) : ℤ :=
  if IsInt32 (value.num.tdiv value.den) then value.num.tdiv value.den else -2 ^ 31

@[simp]
theorem number2int_intCast {value : ℤ} (range : IsInt32 value) : number2int value = value := by
  simp [number2int, range]

/-- What a C function sees of the Lua state; the stack has its top first. -/
structure LuaState where
  stack : List LuaValue
  out : Bytes
  calls : List (LuaValue × List LuaValue)

/-- A C function that uses the Lua state. -/
abbrev LuaM (α : Type) := Program LuaState α

namespace LuaState

/-- The distance of an index from the top of the stack. -/
def slot (state : LuaState) (index : ℤ) : ℤ :=
  if 0 < index then state.stack.length - index else -index - 1

/-- The value at an acceptable index. -/
def valueAt (state : LuaState) (index : ℤ) : LuaValue :=
  if 0 ≤ state.slot index then state.stack.getD (state.slot index).toNat .nil else .nil

def setValueAt (state : LuaState) (index : ℤ) (value : LuaValue) : LuaState :=
  { state with stack := state.stack.set (state.slot index).toNat value }

@[simp]
theorem valueAt_neg_one (value : LuaValue) (rest : List LuaValue) (out : Bytes)
    (calls : List (LuaValue × List LuaValue)) :
    (LuaState.mk (value :: rest) out calls).valueAt (-1) = value := by
  simp [valueAt, slot]

@[simp]
theorem valueAt_neg_two (first second : LuaValue) (rest : List LuaValue) (out : Bytes)
    (calls : List (LuaValue × List LuaValue)) :
    (LuaState.mk (first :: second :: rest) out calls).valueAt (-2) = second := by
  simp [valueAt, slot]

theorem valueAt_height (value : LuaValue) (rest : List LuaValue) (out : Bytes)
    (calls : List (LuaValue × List LuaValue)) :
    (LuaState.mk (value :: rest) out calls).valueAt (rest.length + 1) = value := by
  have positive : (0 : ℤ) < rest.length + 1 := by omega
  simp [valueAt, slot, positive]

theorem slot_third (first second third : LuaValue) (rest : List LuaValue) (out : Bytes)
    (calls : List (LuaValue × List LuaValue)) :
    slot ⟨first :: second :: third :: rest, out, calls⟩ (rest.length + 1) = 2 := by
  simp only [slot, List.length_cons]
  omega

end LuaState

/-! ## The operations -/

namespace Lua

def gettop : LuaM ℤ := .get fun state => state.stack.length

/-- `lua_settop` to a height that was reached before. -/
def settop (height : ℤ) : LuaM Unit :=
  .modify fun state =>
    { state with stack := state.stack.drop (state.stack.length - height.toNat) }

def pop (count : ℕ) : LuaM Unit := fun state =>
  if count ≤ state.stack.length then
    (.ret (), { state with stack := state.stack.drop count })
  else (.fault, state)

def push (value : LuaValue) : LuaM Unit :=
  .modify fun state => { state with stack := value :: state.stack }

def valueAt (index : ℤ) : LuaM LuaValue := .get fun state => state.valueAt index

def newtable : LuaM Unit := push (.table [])

/-- `lua_getref` on the reference to a key. -/
def getref (key : LuaKey) : LuaM Unit := push key.toValue

/-- `lua_rawget`: the key on the top is replaced by its entry in the table at the index. -/
def rawget (index : ℤ) : LuaM Unit := do
  let table ← valueAt index
  let key ← valueAt (-1)
  pop 1
  match table.isTable, key.toKey with
  | true, some key => push (table.field key)
  | true, none => push .nil
  | false, _ => .exit .fault

def rawgeti (index position : ℤ) : LuaM Unit := do
  let table ← valueAt index
  if table.isTable then push (table.index position) else .exit .fault

/--
`lua_rawset`, and `lua_settable` on a table without metatable: the value on the top is
assigned to the key below it in the table at the index.
-/
def rawset (index : ℤ) : LuaM Unit := do
  let table ← valueAt index
  let key ← valueAt (-2)
  let value ← valueAt (-1)
  match table, key.toKey with
  | .table fields, some key =>
      .modify fun state => state.setValueAt index (.table (LuaValue.setField fields key value))
      pop 2
  | .table _, none => .exit .raise
  | _, _ => .exit .fault

/-- `luaL_checktype` for a number, and `lua_tonumber`. -/
def checknumber (index : ℤ) : LuaM ℚ := do
  match ← valueAt index with
  | .number value => pure value
  | _ => .exit .raise

/-- `luaL_checklstring`, which turns a number on the stack into a string. -/
def checklstring (numerals : Numerals) (index : ℤ) : LuaM Bytes := do
  match ← valueAt index with
  | .string text => pure text
  | .number value =>
      .modify fun state => state.setValueAt index (.string (numerals.number2str value))
      pure (numerals.number2str value)
  | _ => .exit .raise

/-- Bytes appended to the output buffer. -/
def emit (bytes : Bytes) : LuaM Unit :=
  .modify fun state => { state with out := state.out ++ bytes }

/-- `assert`. -/
def assert (condition : Bool) : LuaM Unit := if condition then pure () else .exit .abort

/--
What script functions do: the error value that the last call of a history raises, if it
raises one.
-/
def Script := List (LuaValue × List LuaValue) → Option LuaValue

/-- `lua_pcall` without results: whether the function on the stack raised an error. -/
def pcall (script : Script) (count : ℕ) : LuaM Bool := fun state =>
  let function := state.stack.getD count .nil
  let calls := state.calls ++ [(function, (state.stack.take count).reverse)]
  let rest := state.stack.drop (count + 1)
  match script calls with
  | none => (.ret false, { state with stack := rest, calls := calls })
  | some message => (.ret true, { state with stack := message :: rest, calls := calls })

/-- `lua_pcall` up to the beginning of the function, which leaves the stack with its arguments. -/
def enter (count : ℕ) : LuaM Unit := .modify fun state =>
  { state with
    stack := state.stack.drop (count + 1)
    calls := state.calls ++
      [(state.stack.getD count .nil, (state.stack.take count).reverse)] }

/-- `lua_pcall` from the end of the function on. -/
def leave (script : Script) : LuaM Bool := fun state =>
  match script state.calls with
  | none => (.ret false, state)
  | some message => (.ret true, { state with stack := message :: state.stack })

/-! ## What the operations do -/

section Apply

variable (stack : List LuaValue) (out : Bytes) (calls : List (LuaValue × List LuaValue))

@[simp]
theorem gettop_apply (state : LuaState) : gettop state = (.ret state.stack.length, state) := rfl

@[simp]
theorem push_apply (value : LuaValue) (state : LuaState) :
    push value state = (.ret (), { state with stack := value :: state.stack }) := rfl

@[simp]
theorem newtable_apply (state : LuaState) :
    newtable state = (.ret (), { state with stack := .table [] :: state.stack }) := rfl

@[simp]
theorem valueAt_apply (index : ℤ) (state : LuaState) :
    valueAt index state = (.ret (state.valueAt index), state) := rfl

@[simp]
theorem emit_apply (bytes : Bytes) (state : LuaState) :
    emit bytes state = (.ret (), { state with out := state.out ++ bytes }) := rfl

@[simp]
theorem settop_apply (height : ℤ) (state : LuaState) :
    settop height state = (.ret (),
      { state with stack := state.stack.drop (state.stack.length - height.toNat) }) := rfl

@[simp]
theorem pop_one_apply (value : LuaValue) :
    pop 1 ⟨value :: stack, out, calls⟩ = (.ret (), ⟨stack, out, calls⟩) := by
  simp [pop]

theorem assert_apply {condition : Bool} (holds : condition = true) (state : LuaState) :
    assert condition state = (.ret (), state) := by
  simp [assert, holds]

theorem checknumber_apply {index : ℤ} {state : LuaState} {value : ℚ}
    (given : state.valueAt index = .number value) :
    checknumber index state = (.ret value, state) := by
  simp [checknumber, Program.bind_apply, given]

theorem rawgeti_apply {index : ℤ} {state : LuaState} (position : ℤ)
    (given : (state.valueAt index).isTable = true) :
    rawgeti index position state =
      (.ret (), { state with stack := (state.valueAt index).index position :: state.stack }) := by
  simp [rawgeti, Program.bind_apply, given]

@[simp]
theorem getref_apply (key : LuaKey) (state : LuaState) :
    getref key state = (.ret (), { state with stack := key.toValue :: state.stack }) := rfl

theorem rawget_apply {value : LuaValue} (isTable : value.isTable = true) (key : LuaKey) :
    rawget (-2) ⟨key.toValue :: value :: stack, out, calls⟩ =
      (.ret (), ⟨value.field key :: value :: stack, out, calls⟩) := by
  simp [rawget, Program.bind_apply, isTable]

/-- An entry is stored in the table two below the top, however that is addressed. -/
theorem rawset_apply {index : ℤ} (fields : List (LuaKey × LuaValue)) (key : LuaKey)
    (value : LuaValue) (addressed :
      LuaState.slot ⟨value :: key.toValue :: .table fields :: stack, out, calls⟩ index = 2) :
    rawset index ⟨value :: key.toValue :: .table fields :: stack, out, calls⟩ =
      (.ret (), ⟨.table (LuaValue.setField fields key value) :: stack, out, calls⟩) := by
  have found : LuaState.valueAt ⟨value :: key.toValue :: .table fields :: stack, out, calls⟩ index =
      .table fields := by
    simp [LuaState.valueAt, addressed]
  simp [rawset, Program.bind_apply, found, LuaState.setValueAt, addressed, pop]

theorem enter_apply (function : LuaValue) (arguments : List LuaValue) :
    enter arguments.length ⟨arguments.reverse ++ function :: stack, out, calls⟩ =
      (.ret (), ⟨stack, out, calls ++ [(function, arguments)]⟩) := by
  have found : (arguments.reverse ++ function :: stack).getD arguments.length .nil = function := by
    rw [← List.length_reverse]
    simp
  have taken : (arguments.reverse ++ function :: stack).take arguments.length =
      arguments.reverse := by
    rw [← List.length_reverse, List.take_left]
  have dropped : (arguments.reverse ++ function :: stack).drop (arguments.length + 1) = stack := by
    rw [← List.length_reverse, ← List.drop_drop, List.drop_left]
    rfl
  rw [enter, Program.modify_apply, found, taken, dropped, List.reverse_reverse]

theorem pcall_eq (script : Script) (count : ℕ) (state : LuaState) :
    pcall script count state = (enter count >>= fun _ => leave script) state := by
  rw [enter, Program.bind_of_ret (Program.modify_apply _ _), pcall, leave]

theorem pcall_apply (script : Script) (function : LuaValue) (arguments : List LuaValue) :
    pcall script arguments.length ⟨arguments.reverse ++ function :: stack, out, calls⟩ =
      match script (calls ++ [(function, arguments)]) with
      | none => (.ret false, ⟨stack, out, calls ++ [(function, arguments)]⟩)
      | some message => (.ret true, ⟨message :: stack, out, calls ++ [(function, arguments)]⟩) := by
  rw [pcall_eq, Program.bind_of_ret (enter_apply stack out calls function arguments)]
  rfl

end Apply

end Lua

end SimpleModule
