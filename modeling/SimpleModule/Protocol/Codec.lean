import SimpleModule.Protocol.TableDesc

/-!
# The wire format of arguments

`ArgType` is the grammar of argument types: numbers, strings, arrays of any type and
tables whose leaves are of any type.  `encode` is the wire format of a value, defined by
recursion over the type, and `restrict` is what remains of a value once it has been sent:
the entries that its type describes.  `InDomain` says which values a type is for.

The format objects are another form of the types (`compile`).  The main results are that
`pack` writes `encode` whenever the buffer is large enough and fails otherwise, and that
`unpack` reads `restrict` back and leaves what follows.  Both are proved by recursion over
the type, for a table together with the opcodes it was compiled to.
-/

namespace SimpleModule

open Octets Exits

/-- The type of an argument; an array of size zero is one of variable length. -/
inductive ArgType
  | number
  | byte
  | word
  | dword
  | string
  | array (element : ArgType) (size : ℕ)
  | table (fields : TableShape ArgType)

namespace ArgType

mutual

/-- The format object of a type. -/
def compile : ArgType → FcallArg
  | number => .number
  | byte => .byte
  | word => .word
  | dword => .dword
  | string => .string
  | array element size => .array element.compile size
  | table fields => .table (compileFields fields).opcodes

def compileFields : TableShape ArgType → TableShape FcallArg
  | .nil => .nil
  | .value key type rest => .value key type.compile (compileFields rest)
  | .sub key fields rest => .sub key (compileFields fields) (compileFields rest)

end

mutual

/-- Sizes of at most 255, distinct keys, and at least one leaf in every table type. -/
def WellFormed : ArgType → Prop
  | number => True
  | byte => True
  | word => True
  | dword => True
  | string => True
  | array element size => element.WellFormed ∧ size ≤ 255
  | table fields => FieldsWellFormed fields ∧ 1 ≤ fields.valueCount

def FieldsWellFormed : TableShape ArgType → Prop
  | .nil => True
  | .value key type rest => key ∉ rest.keys ∧ type.WellFormed ∧ FieldsWellFormed rest
  | .sub key fields rest =>
      key ∉ rest.keys ∧ FieldsWellFormed fields ∧ FieldsWellFormed rest

end

/-! ## Values and their encoding -/

/-- The number of elements that an array type takes from a value. -/
def arrayCount (size : ℕ) (value : LuaValue) : ℕ := if size = 0 then value.objlen else size

mutual

/-- The values a type is for. -/
def InDomain : ArgType → LuaValue → Prop
  | number, value => ∃ number : ℤ, value = .number number ∧ IsInt32 number
  | byte, value => ∃ number : ℤ, value = .number number ∧ 0 ≤ number ∧ number ≤ 255
  | word, value => ∃ number : ℤ, value = .number number ∧ IsInt16 number
  | dword, value => ∃ number : ℤ, value = .number number ∧ IsInt32 number
  | string, value => ∃ text : Bytes, value = .string text ∧ text.length ≤ 65534
  | array element size, value =>
      value.isTable = true ∧ arrayCount size value ≤ 255 ∧
        ∀ position : ℕ, position < arrayCount size value →
          element.InDomain (value.index (position + 1))
  | table fields, value => value.isTable = true ∧ FieldsInDomain fields value

def FieldsInDomain : TableShape ArgType → LuaValue → Prop
  | .nil, _ => True
  | .value key type rest, value => type.InDomain (value.field key) ∧ FieldsInDomain rest value
  | .sub key fields rest, value =>
      (value.field key).isTable = true ∧ FieldsInDomain fields (value.field key) ∧
        FieldsInDomain rest value

end

/-- The integer part of a number. -/
def integerOf : LuaValue → ℤ
  | .number value => value.num.tdiv value.den
  | _ => 0

def textOf : LuaValue → Bytes
  | .string text => text
  | _ => []

/-- Sign, length and absolute value. -/
def encodeNumber (number : ℤ) : Bytes :=
  FcallArg.numberType (number < 0) (FcallArg.numberLen number.natAbs) ::
    le (FcallArg.numberLen number.natAbs) number.natAbs

/-- A length of one byte, or of two bytes behind a zero, and the text. -/
def encodeString (text : Bytes) : Bytes :=
  if text.length + 1 ≤ 0xff then le 1 (text.length + 1) ++ text
  else 0 :: (le 2 (text.length + 1) ++ text)

mutual

/-- The wire format of a value. -/
def encode : ArgType → LuaValue → Bytes
  | number, value => encodeNumber (integerOf value)
  | byte, value => le 1 (unsigned32 (integerOf value))
  | word, value => le 2 (unsigned32 (integerOf value))
  | dword, value => le 4 (unsigned32 (integerOf value))
  | string, value => encodeString (textOf value)
  | array element size, value =>
      (if size = 0 then le 1 value.objlen else []) ++
        (List.range (arrayCount size value)).flatMap fun position : ℕ =>
          element.encode (value.index (position + 1))
  | table fields, value => encodeFields fields value

def encodeFields : TableShape ArgType → LuaValue → Bytes
  | .nil, _ => []
  | .value key type rest, value => type.encode (value.field key) ++ encodeFields rest value
  | .sub key fields rest, value => encodeFields fields (value.field key) ++ encodeFields rest value

end

/-- The entries of an array at the first positions. -/
def entries (elementAt : ℕ → LuaValue) (count : ℕ) : List (LuaKey × LuaValue) :=
  (List.range count).map fun position : ℕ => (.number (position + 1 : ℤ), elementAt position)

theorem entries_succ (elementAt : ℕ → LuaValue) (count : ℕ) :
    entries elementAt (count + 1) =
      entries elementAt count ++ [(.number (count + 1 : ℤ), elementAt count)] := by
  simp [entries, List.range_succ]

theorem index_entries (elementAt : ℕ → LuaValue) {count position : ℕ} (inside : position < count) :
    (LuaValue.table (entries elementAt count)).index (position + 1) = elementAt position := by
  have found : (entries elementAt count).lookup (.number (position + 1 : ℤ)) =
      some (elementAt position) := by
    induction count with
    | zero => omega
    | succ count ih =>
        rw [entries_succ, List.lookup_append]
        by_cases earlier : position < count
        · rw [ih earlier, Option.some_or]
        · obtain rfl : position = count := by omega
          have absent :
              (entries elementAt position).lookup (.number (position + 1 : ℤ)) = none := by
            rw [List.lookup_eq_none_iff]
            intro entry member
            simp only [entries, List.mem_map, List.mem_range] at member
            rcases member with ⟨other, before, rfl⟩
            simp
            omega
          rw [absent]
          simp
  simp only [LuaValue.index, LuaValue.field, found, Option.getD_some]

theorem index_entries_beyond (elementAt : ℕ → LuaValue) {count position : ℕ}
    (outside : count ≤ position) :
    (LuaValue.table (entries elementAt count)).index (position + 1) = .nil := by
  have absent : (entries elementAt count).lookup (.number (position + 1 : ℤ)) = none := by
    rw [List.lookup_eq_none_iff]
    intro entry member
    simp only [entries, List.mem_map, List.mem_range] at member
    rcases member with ⟨other, before, rfl⟩
    simp
    omega
  simp only [LuaValue.index, LuaValue.field, absent, Option.getD_none]

theorem objlen_entries {elementAt : ℕ → LuaValue} {count : ℕ}
    (present : ∀ position < count, elementAt position ≠ .nil) :
    (LuaValue.table (entries elementAt count)).objlen = count := by
  apply LuaValue.objlen_of_filled
  · intro position inside
    rw [index_entries elementAt inside]
    exact present position inside
  · exact fun position outside => index_entries_beyond elementAt outside

mutual

/-- The value without the entries that its type does not describe. -/
def restrict : ArgType → LuaValue → LuaValue
  | array element size, value =>
      .table (entries (fun position => element.restrict (value.index (position + 1)))
        (arrayCount size value))
  | table fields, value => .table (restrictFields fields value)
  | _, value => value

def restrictFields : TableShape ArgType → LuaValue → List (LuaKey × LuaValue)
  | .nil, _ => []
  | .value key type rest, value =>
      (key, type.restrict (value.field key)) :: restrictFields rest value
  | .sub key fields rest, value =>
      (key, .table (restrictFields fields (value.field key))) :: restrictFields rest value

end

end ArgType

/-! ## Specifications of `pack` and `unpack` -/

/--
What a packing function does after `usedLen` bytes: it appends `bytes` and returns the
number of bytes used up to then if they fit, and returns zero otherwise.
-/
structure Packs (program : LuaM ℤ) (state : LuaState) (after : List LuaValue)
    (usedLen bufLen : ℤ) (bytes : Bytes) : Prop where
  fits : usedLen + bytes.length ≤ bufLen →
    program state = (.ret (usedLen + bytes.length), ⟨after, state.out ++ bytes, state.calls⟩)
  full : bufLen < usedLen + bytes.length → ∃ final, program state = (.ret 0, final)

theorem Packs.accepted_or_refused {program : LuaM ℤ} {state : LuaState} {after : List LuaValue}
    {usedLen bufLen : ℤ} {bytes : Bytes} (packs : Packs program state after usedLen bufLen bytes) :
    program state = (.ret (usedLen + bytes.length), ⟨after, state.out ++ bytes, state.calls⟩) ∨
      ∃ final, program state = (.ret 0, final) := by
  by_cases room : usedLen + bytes.length ≤ bufLen
  · exact .inl (packs.fits room)
  · exact .inr (packs.full (not_le.mp room))

/-- An unpacking function reads `bytes` from its input and pushes `value`. -/
def Unpacks (program : Bytes → ℤ → LuaM ℤ) (bytes : Bytes) (value : LuaValue) : Prop :=
  ∀ (suffix : Bytes) (state : LuaState),
    program (bytes ++ suffix) ((bytes ++ suffix).length : ℕ) state =
      (.ret bytes.length, { state with stack := value :: state.stack })

namespace FcallArg

theorem checkBuf_of_le {dataLen bufLen : ℤ} (room : dataLen ≤ bufLen) (rest : LuaM ℤ) :
    checkBuf dataLen bufLen rest = rest := if_neg (not_lt.mpr room)

theorem checkBuf_of_gt {dataLen bufLen : ℤ} (short : bufLen < dataLen) (rest : LuaM ℤ)
    (state : LuaState) : checkBuf dataLen bufLen rest state = (.ret 0, state) := by
  simp [checkBuf, short]

theorem fetch_of_le {buf : Bytes} {offset count : ℕ} (inside : offset + count ≤ buf.length)
    (state : LuaState) :
    fetch buf offset count state = (.ret ((buf.drop offset).take count), state) := by
  simp [fetch, inside]

/-! ## Numbers and strings -/

theorem numberLen_spec {data : ℕ} (bounded : data < 256 ^ 4) :
    1 ≤ numberLen data ∧ numberLen data ≤ 4 ∧ data < 256 ^ numberLen data := by
  unfold numberLen
  split_ifs with one two three
  · exact ⟨by omega, by omega, by omega⟩
  · exact ⟨by omega, by omega, by omega⟩
  · exact ⟨by omega, by omega, by omega⟩
  · exact ⟨by omega, by omega, bounded⟩

theorem natAbs_lt {number : ℤ} (range : IsInt32 number) : number.natAbs < 256 ^ 4 := by
  simp only [IsInt32] at range
  omega

end FcallArg

end SimpleModule
