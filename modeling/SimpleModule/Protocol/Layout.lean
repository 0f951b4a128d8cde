import SimpleModule.Protocol.Decode

/-!
# Layouts

Two types may look different and read the same: an array of a fixed size is a table with
the keys from one on, and a table inside a table is as good as a leaf of a table type.
A layout is what remains, a list of tokens in the order of the input: the scalars with
their keys, the brackets of the tables, and the arrays with a count in front.  A type from
which nothing is ever read has no layout, and an array of such a type is nothing but a
count of zero.

The value that is read is seen as a list of marks, in which the tables are brackets too.
The first result is that the marks of what a type decodes are what its layout reads.
-/

namespace SimpleModule

open Octets Decoders

/-! ## Marks -/

/-- A part of a flattened table. -/
inductive Mark (ν : Type)
  | leaf (key : LuaKey) (value : ν)
  | opening (key : LuaKey)
  | closing

namespace Mark

/-- A mark without its value. -/
def erase {ν : Type} : Mark ν → Mark Unit
  | leaf key _ => leaf key ()
  | opening key => opening key
  | closing => closing

/-- Another key for the first mark. -/
def relabel {ν : Type} (key : LuaKey) : List (Mark ν) → List (Mark ν)
  | leaf _ value :: rest => leaf key value :: rest
  | opening _ :: rest => opening key :: rest
  | marks => marks

end Mark

namespace LuaValue

mutual

/-- The marks of a value under a key. -/
def marks (key : LuaKey) : LuaValue → List (Mark LuaValue)
  | .table fields => .opening key :: (fieldMarks fields ++ [.closing])
  | .nil => [.leaf key .nil]
  | .boolean value => [.leaf key (.boolean value)]
  | .number value => [.leaf key (.number value)]
  | .string value => [.leaf key (.string value)]
  | .function ref => [.leaf key (.function ref)]
  | .packClosure self => [.leaf key (.packClosure self)]

def fieldMarks : List (LuaKey × LuaValue) → List (Mark LuaValue)
  | [] => []
  | (key, value) :: rest => value.marks key ++ fieldMarks rest

end

theorem fieldMarks_append (front back : List (LuaKey × LuaValue)) :
    fieldMarks (front ++ back) = fieldMarks front ++ fieldMarks back := by
  induction front with
  | nil => simp [fieldMarks]
  | cons entry front ih =>
      rcases entry with ⟨key, value⟩
      simp [fieldMarks, ih]

@[simp]
theorem relabel_marks (key other : LuaKey) (value : LuaValue) :
    Mark.relabel key (value.marks other) = value.marks key := by
  cases value with
  | table fields => simp [marks, Mark.relabel]
  | nil => simp [marks, Mark.relabel]
  | boolean value => simp [marks, Mark.relabel]
  | number value => simp [marks, Mark.relabel]
  | string value => simp [marks, Mark.relabel]
  | function ref => simp [marks, Mark.relabel]
  | packClosure self => simp [marks, Mark.relabel]

mutual

theorem marks_inj : (left right : LuaValue) → {first second : LuaKey} →
    {front back : List (Mark LuaValue)} →
    left.marks first ++ front = right.marks second ++ back →
    first = second ∧ left = right ∧ front = back
  | .table fields, right, first, second, front, back, same => by
      cases right with
      | table others =>
          simp only [marks, List.cons_append, List.append_assoc, List.cons.injEq,
            Mark.opening.injEq, List.nil_append] at same
          rcases fieldMarks_inj fields others same.2 with ⟨rfl, rfl⟩
          exact ⟨same.1, rfl, rfl⟩
      | nil => simp [marks] at same
      | boolean value => simp [marks] at same
      | number value => simp [marks] at same
      | string value => simp [marks] at same
      | function ref => simp [marks] at same
      | packClosure self => simp [marks] at same
  | .nil, right, first, second, front, back, same => by
      cases right <;> simp_all [marks]
  | .boolean value, right, first, second, front, back, same => by
      cases right <;> simp_all [marks]
  | .number value, right, first, second, front, back, same => by
      cases right <;> simp_all [marks]
  | .string value, right, first, second, front, back, same => by
      cases right <;> simp_all [marks]
  | .function ref, right, first, second, front, back, same => by
      cases right <;> simp_all [marks]
  | .packClosure self, right, first, second, front, back, same => by
      cases right <;> simp_all [marks]

/-- The marks up to a closing bracket determine the fields. -/
theorem fieldMarks_inj : (left right : List (LuaKey × LuaValue)) →
    {front back : List (Mark LuaValue)} →
    fieldMarks left ++ .closing :: front = fieldMarks right ++ .closing :: back →
    left = right ∧ front = back
  | [], [], front, back, same => by simpa [fieldMarks] using same
  | [], (key, value) :: right, front, back, same => by
      cases value <;> simp [fieldMarks, marks] at same
  | (key, value) :: left, [], front, back, same => by
      cases value <;> simp [fieldMarks, marks] at same
  | (key, value) :: left, (other, entry) :: right, front, back, same => by
      simp only [fieldMarks, List.append_assoc] at same
      rcases marks_inj value entry same with ⟨rfl, rfl, rest⟩
      rcases fieldMarks_inj left right rest with ⟨rfl, rfl⟩
      exact ⟨rfl, rfl⟩

end

end LuaValue

/-! ## Tokens -/

/-- The formats that are read in one piece. -/
inductive Scalar
  | number
  | byte
  | word
  | dword
  | string
  deriving DecidableEq, Repr

def Scalar.decode : Scalar → Decoder Byte LuaValue
  | number => FcallArg.decodeNumber
  | byte => FcallArg.decodeFixed 1 id
  | word => FcallArg.decodeFixed 2 int16
  | dword => FcallArg.decodeFixed 4 int32
  | string => FcallArg.decodeString

/--
A step of reading.  `zero` is a count that has to be zero, and the element of a counted array
stands under the key one.
-/
inductive Token
  | scalar (key : LuaKey) (kind : Scalar)
  | opening (key : LuaKey)
  | closing
  | zero
  | counted (key : LuaKey) (element : List Token)

/-- Some bytes of zero. -/
def skipZeros (count : ℕ) : Decoder Byte (List (Mark LuaValue)) := fun buf =>
  if List.replicate count 0 <+: buf then some ([], count) else none

/-- The elements of an array from position `i` on, each under its own key. -/
def readElements (element : Decoder Byte (List (Mark LuaValue))) :
    (count i : ℕ) → Decoder Byte (List (Mark LuaValue))
  | 0, _ => .give []
  | count + 1, i =>
      (element.mapped (Mark.relabel (.number (i + 1 : ℤ)))).append
        (readElements element count (i + 1))

/-- A count and as many elements. -/
def readCounted (element : Decoder Byte (List (Mark LuaValue))) :
    Decoder Byte (List (Mark LuaValue)) := fun buf =>
  if buf.length < 1 then none
  else
    (readElements element (ofLe (buf.take 1)) 0 (buf.drop 1)).map fun (marks, consumed) =>
      (marks, 1 + consumed)

/-- The marks of what is read, in the brackets of a table. -/
def bracketed (key : LuaKey) (inner : Decoder Byte (List (Mark LuaValue))) :
    Decoder Byte (List (Mark LuaValue)) :=
  (Decoder.give [.opening key]).append (inner.append (.give [.closing]))

mutual

def Token.read : Token → Decoder Byte (List (Mark LuaValue))
  | .scalar key kind => kind.decode.mapped fun value => [.leaf key value]
  | .opening key => .give [.opening key]
  | .closing => .give [.closing]
  | .zero => skipZeros 1
  | .counted key element => bracketed key (readCounted (readTokens element))

def readTokens : List Token → Decoder Byte (List (Mark LuaValue))
  | [] => .give []
  | token :: rest => token.read.append (readTokens rest)

end

theorem readTokens_append (front back : List Token) :
    readTokens (front ++ back) = (readTokens front).append (readTokens back) := by
  induction front with
  | nil => rw [List.nil_append, readTokens, Decoder.give_append]
  | cons token front ih => rw [List.cons_append, readTokens, readTokens, ih, Decoder.append_assoc]

/-! ## The layout of a type -/

/-- Whether a token reads nothing. -/
def Token.isBracket : Token → Bool
  | .opening _ => true
  | .closing => true
  | _ => false

/-- The layouts for the keys from `i + 1` on, one after the other. -/
def repeated (layoutAt : LuaKey → Option (List Token)) : (count i : ℕ) → Option (List Token)
  | 0, _ => some []
  | count + 1, i =>
      Option.map₂ (· ++ ·) (layoutAt (.number (i + 1 : ℤ))) (repeated layoutAt count (i + 1))

def inBrackets (key : LuaKey) (inner : List Token) : List Token :=
  .opening key :: (inner ++ [.closing])

namespace ArgType

mutual

/-- The layout of a type under a key, if anything can be read as a value of the type. -/
def layout : ArgType → LuaKey → Option (List Token)
  | number, key => some [.scalar key .number]
  | byte, key => some [.scalar key .byte]
  | word, key => some [.scalar key .word]
  | dword, key => some [.scalar key .dword]
  | string, key => some [.scalar key .string]
  | array element size, key =>
      if size = 0 then
        match element.layout (.number 1) with
        | none => some (inBrackets key [.zero])
        | some tokens => some [.counted key tokens]
      else (repeated element.layout size 0).map (inBrackets key)
  | table fields, key =>
      (fieldsLayout fields).bind fun inner =>
        if inner.all Token.isBracket then none else some (inBrackets key inner)

def fieldsLayout : TableShape ArgType → Option (List Token)
  | .nil => some []
  | .value key type rest => Option.map₂ (· ++ ·) (type.layout key) (fieldsLayout rest)
  | .sub key fields rest =>
      Option.map₂ (· ++ ·) ((fieldsLayout fields).map (inBrackets key)) (fieldsLayout rest)

end

end ArgType

/-- What is read according to a layout, nothing if there is none. -/
def readLayout : Option (List Token) → Decoder Byte (List (Mark LuaValue))
  | none => fun _ => none
  | some tokens => readTokens tokens

theorem readLayout_append (front back : Option (List Token)) :
    readLayout (Option.map₂ (· ++ ·) front back) =
      (readLayout front).append (readLayout back) := by
  cases front with
  | none => rfl
  | some front =>
      cases back with
      | none =>
          funext buf
          rcases read : readTokens front buf with _ | result
          · simp [readLayout, Decoder.append, read]
          · simp [readLayout, Decoder.append, read]
      | some back => exact readTokens_append front back

theorem readTokens_inBrackets (key : LuaKey) (inner : List Token) :
    readTokens (inBrackets key inner) = bracketed key (readTokens inner) := by
  rw [inBrackets, readTokens, readTokens_append, readTokens, readTokens, Decoder.append_give]
  rfl

theorem readLayout_inBrackets (key : LuaKey) (inner : Option (List Token)) :
    readLayout (inner.map (inBrackets key)) = bracketed key (readLayout inner) := by
  cases inner with
  | none => rfl
  | some inner => exact readTokens_inBrackets key inner

/-! ## Types read by their layouts -/

open LuaValue FcallArg

theorem mapped_decodeEntry (key : LuaKey) (decode : Decoder Byte LuaValue) :
    (decodeEntry key decode).mapped fieldMarks = decode.mapped (marks key) := by
  rw [decodeEntry, Decoder.mapped_mapped]
  simp [fieldMarks]

theorem mapped_table (key : LuaKey) (decode : Decoder Byte (List (LuaKey × LuaValue))) :
    (decode.mapped .table).mapped (marks key) = bracketed key (decode.mapped fieldMarks) := by
  funext buf
  rcases read : decode buf with _ | ⟨contents, consumed⟩
  · simp [Decoder.mapped, bracketed, Decoder.append, Decoder.give, read]
  · simp [Decoder.mapped, bracketed, Decoder.append, Decoder.give, read, marks]

theorem Scalar.mapped_marks (kind : Scalar) (key : LuaKey) :
    kind.decode.mapped (marks key) = kind.decode.mapped fun value => [.leaf key value] := by
  have notTable {buf : Bytes} {value : LuaValue} {consumed : ℕ}
      (read : kind.decode buf = some (value, consumed)) : marks key value = [.leaf key value] := by
    cases kind with
    | number =>
        simp only [Scalar.decode, decodeNumber] at read
        split_ifs at read
        all_goals
          cases read
          simp [marks]
    | string =>
        simp only [Scalar.decode, decodeString, decodeChars] at read
        split_ifs at read
        all_goals
          cases read
          simp [marks]
    | byte | word | dword =>
        simp only [Scalar.decode, decodeFixed] at read
        split_ifs at read
        cases read
        simp [marks]
  funext buf
  rcases read : kind.decode buf with _ | ⟨value, consumed⟩
  · simp [Decoder.mapped, read]
  · simp [Decoder.mapped, read, notTable read]

section Elements

variable {decodeBase : Decoder Byte LuaValue} {layoutAt : LuaKey → Option (List Token)}

theorem mapped_decodeElements_counted
    (reads : ∀ key, decodeBase.mapped (marks key) = readLayout (layoutAt key)) (count i : ℕ) :
    (decodeElements decodeBase count i).mapped fieldMarks =
      readElements (readLayout (layoutAt (.number 1))) count i := by
  induction count generalizing i with
  | zero => rfl
  | succ count ih =>
      rw [decodeElements, readElements, Decoder.mapped_append fieldMarks_append, ih,
        mapped_decodeEntry, ← reads, Decoder.mapped_mapped]
      simp only [relabel_marks]

theorem mapped_decodeElements_fixed
    (reads : ∀ key, decodeBase.mapped (marks key) = readLayout (layoutAt key)) (count i : ℕ) :
    (decodeElements decodeBase count i).mapped fieldMarks =
      readLayout (repeated layoutAt count i) := by
  induction count generalizing i with
  | zero => rfl
  | succ count ih =>
      rw [decodeElements, repeated, Decoder.mapped_append fieldMarks_append, ih,
        mapped_decodeEntry, reads, readLayout_append]

theorem mapped_decodeArray_counted
    (reads : ∀ key, decodeBase.mapped (marks key) = readLayout (layoutAt key)) (key : LuaKey) :
    (decodeArray decodeBase 0).mapped (marks key) =
      bracketed key (readCounted (readLayout (layoutAt (.number 1)))) := by
  have counted : decodeArray decodeBase 0 = Decoder.mapped .table fun buf =>
      if buf.length < 1 then none
      else (decodeElements decodeBase (ofLe (buf.take 1)) 0 (buf.drop 1)).map
        fun read => (read.1, 1 + read.2) := by
    funext buf
    by_cases empty : buf.length < 1
    · simp only [decodeArray, if_true, if_pos empty, Decoder.mapped, Option.map_none]
    · simp only [decodeArray, if_true, if_neg empty, Decoder.mapped, Option.map_map]
      rfl
  rw [counted, mapped_table]
  congr 1
  funext buf
  by_cases empty : buf.length < 1
  · simp only [Decoder.mapped, readCounted, if_pos empty, Option.map_none]
  · simp only [Decoder.mapped, readCounted, if_neg empty, ← mapped_decodeElements_counted reads,
      Option.map_map]
    rfl

/-- Without elements only the count zero is read. -/
theorem readCounted_none : readCounted (fun _ => none) = skipZeros 1 := by
  funext buf
  cases buf with
  | nil => rfl
  | cons octet rest =>
      have length : ofLe [octet] = octet.toNat := by simp [ofLe]
      by_cases zero : octet = 0
      · subst zero
        simp [readCounted, skipZeros, ofLe, readElements, Decoder.give]
      · have positive : octet.toNat ≠ 0 := by
          intro none
          exact zero (UInt8.toNat_inj.mp none)
        rcases Nat.exists_eq_succ_of_ne_zero positive with ⟨count, counted⟩
        have different : ¬(0 : Byte) = octet := fun same => zero same.symm
        simp [readCounted, skipZeros, length, counted, readElements, Decoder.append,
          Decoder.mapped, different]

end Elements

theorem Scalar.decode_pos {kind : Scalar} {buf : Bytes} {value : LuaValue} {consumed : ℕ}
    (read : kind.decode buf = some (value, consumed)) : 0 < consumed := by
  cases kind with
  | number =>
      simp only [Scalar.decode, decodeNumber] at read
      split_ifs at read
      all_goals
        cases read
        omega
  | string =>
      simp only [Scalar.decode, decodeString, decodeChars] at read
      split_ifs at read
      all_goals
        cases read
        omega
  | byte | word | dword =>
      simp only [Scalar.decode, decodeFixed] at read
      split_ifs at read
      cases read
      omega

theorem Token.read_eq_zero_iff {token : Token} {buf : Bytes} {marks : List (Mark LuaValue)}
    {consumed : ℕ} (read : token.read buf = some (marks, consumed)) :
    consumed = 0 ↔ token.isBracket = true := by
  cases token with
  | scalar key kind =>
      rw [Token.read] at read
      rcases Decoder.mapped_eq_some.mp read with ⟨value, decoded, -⟩
      have positive := Scalar.decode_pos decoded
      simp [Token.isBracket]
      omega
  | opening key =>
      cases read
      simp [Token.isBracket]
  | closing =>
      cases read
      simp [Token.isBracket]
  | zero =>
      simp only [Token.read, skipZeros] at read
      split_ifs at read
      cases read
      simp [Token.isBracket]
  | counted key element =>
      rw [Token.read] at read
      rcases Decoder.append_eq_some.mp read with ⟨_, _, _, later, ⟨⟩, inner, -, rfl⟩
      rcases Decoder.append_eq_some.mp inner with ⟨_, first, _, _, counted, ⟨⟩, -, rfl⟩
      simp only [readCounted] at counted
      split_ifs at counted
      rcases Option.map_eq_some_iff.mp counted with ⟨⟨_, _⟩, -, same⟩
      cases same
      simp [Token.isBracket]

theorem readTokens_eq_zero_iff {tokens : List Token} {buf : Bytes} {marks : List (Mark LuaValue)}
    {consumed : ℕ} (read : readTokens tokens buf = some (marks, consumed)) :
    consumed = 0 ↔ tokens.all Token.isBracket = true := by
  induction tokens generalizing buf marks consumed with
  | nil =>
      cases read
      simp
  | cons token tokens ih =>
      rcases Decoder.append_eq_some.mp read with ⟨_, first, _, later, here, behind, -, rfl⟩
      have zero := Token.read_eq_zero_iff here
      have rest := ih behind
      rw [List.all_cons, Bool.and_eq_true, ← zero, ← rest]
      omega

theorem mapped_decodeTable {decode : Decoder Byte (List (LuaKey × LuaValue))}
    {layout : Option (List Token)} (reads : decode.mapped fieldMarks = readLayout layout)
    (key : LuaKey) :
    (decodeTable decode).mapped (marks key) = readLayout (layout.bind fun inner =>
      if inner.all Token.isBracket then none else some (inBrackets key inner)) := by
  funext buf
  have here := congrFun reads buf
  cases layout with
  | none =>
      have nothing : decode buf = none := Option.map_eq_none_iff.mp here
      simp [decodeTable, Decoder.mapped, nothing, readLayout]
  | some inner =>
      rw [Option.bind_some]
      rcases read : decode buf with _ | ⟨contents, consumed⟩
      · have nothing : readTokens inner buf = none := by
          rw [← readLayout, ← here, Decoder.mapped, read, Option.map_none]
        split_ifs with brackets
        · simp [decodeTable, Decoder.mapped, read, readLayout]
        · simp [decodeTable, Decoder.mapped, read, readLayout, readTokens_inBrackets, bracketed,
            Decoder.append, Decoder.give, nothing]
      · have found : readTokens inner buf = some (fieldMarks contents, consumed) := by
          rw [← readLayout, ← here, Decoder.mapped, read, Option.map_some]
        have nothing := readTokens_eq_zero_iff found
        split_ifs with brackets
        · simp [decodeTable, Decoder.mapped, read, readLayout, nothing.mpr brackets]
        · have consumes : consumed ≠ 0 := fun none => brackets (nothing.mp none)
          simp [decodeTable, Decoder.mapped, read, readLayout, readTokens_inBrackets, bracketed,
            Decoder.append, Decoder.give, found, consumes, marks]

mutual

/-- The marks of what a type decodes are what its layout reads. -/
theorem mapped_decode : (type : ArgType) → (key : LuaKey) →
    type.decode.mapped (marks key) = readLayout (type.layout key)
  | .number, key => by
      rw [ArgType.layout, readLayout, readTokens, readTokens, Decoder.append_give]
      exact Scalar.number.mapped_marks key
  | .byte, key => by
      rw [ArgType.layout, readLayout, readTokens, readTokens, Decoder.append_give]
      exact Scalar.byte.mapped_marks key
  | .word, key => by
      rw [ArgType.layout, readLayout, readTokens, readTokens, Decoder.append_give]
      exact Scalar.word.mapped_marks key
  | .dword, key => by
      rw [ArgType.layout, readLayout, readTokens, readTokens, Decoder.append_give]
      exact Scalar.dword.mapped_marks key
  | .string, key => by
      rw [ArgType.layout, readLayout, readTokens, readTokens, Decoder.append_give]
      exact Scalar.string.mapped_marks key
  | .array element size, key => by
      have reads := mapped_decode element
      rw [ArgType.decode, ArgType.layout]
      split_ifs with counted
      · rw [counted, mapped_decodeArray_counted reads]
        rcases element.layout (.number 1) with _ | tokens
        · rw [readLayout, readLayout, readCounted_none, readTokens_inBrackets, readTokens,
            readTokens, Decoder.append_give, Token.read]
        · rw [readLayout, readLayout, readTokens, readTokens, Decoder.append_give, Token.read]
      · rw [decodeArray, if_neg counted, mapped_table, mapped_decodeElements_fixed reads,
          readLayout_inBrackets]
  | .table fields, key => mapped_decodeTable (mapped_decodeFields fields) key

theorem mapped_decodeFields : (fields : TableShape ArgType) →
    (ArgType.decodeFields fields).mapped fieldMarks = readLayout (ArgType.fieldsLayout fields)
  | .nil => rfl
  | .value key type rest => by
      rw [ArgType.decodeFields, ArgType.fieldsLayout, Decoder.mapped_append fieldMarks_append,
        mapped_decodeEntry, mapped_decode type key, mapped_decodeFields rest, readLayout_append]
  | .sub key fields rest => by
      rw [ArgType.decodeFields, ArgType.fieldsLayout, Decoder.mapped_append fieldMarks_append,
        mapped_decodeEntry, mapped_table, mapped_decodeFields fields, mapped_decodeFields rest,
        readLayout_append, readLayout_inBrackets]

end

end SimpleModule
