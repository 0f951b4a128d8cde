import SimpleModule.Protocol.Decode
import SimpleModule.Protocol.Encode

/-!
# Packing and unpacking of arrays and tables

Every format writes the encoding of its type and reads it back.  To write an array is a
loop over its elements; a table is run from its opcodes, and the statement about a part of
the opcodes is that the fields they come from are written before the rest is run.
`packs_pack` puts the cases together by recursion over the type.  That the encoding is read
back is a fact about the decoders, which `unpack` refines.

The last section is about variable arrays beyond the 255 elements that their count byte
can express: `pack` accepts up to 512.
-/

namespace SimpleModule

open Octets Exits Decoders ArgType

namespace ArgType

/-! ## The encoding of the values a type is for -/

section Arrays

variable {encodingBase : LuaValue → Encoding} {value : LuaValue} {bytesAt : ℕ → Bytes}

theorem encodingElements_eq (first count : ℕ)
    (element : ∀ position, first ≤ position → position < first + count →
      encodingBase (value.index (position + 1)) = .ok (bytesAt position)) :
    encodingElements encodingBase value count first =
      .ok ((List.range' first count).flatMap bytesAt) := by
  induction count generalizing first with
  | zero => rfl
  | succ count ih =>
      have later := ih (first + 1) fun position lower upper =>
        element position (by omega) (by omega)
      rw [encodingElements, element first (by omega) (by omega), later, List.range'_succ,
        List.flatMap_cons]
      rfl

/-- The count of an array may exceed what its byte can express. -/
theorem encodingArray_counted (isTable : value.isTable = true) (small : value.objlen ≤ 512)
    (element : ∀ position < value.objlen,
      encodingBase (value.index (position + 1)) = .ok (bytesAt position)) :
    encodingArray encodingBase 0 value =
      .ok (le 1 value.objlen ++ (List.range value.objlen).flatMap bytesAt) := by
  have counted : int32 value.objlen = value.objlen := by
    simp only [int32]
    omega
  have image : unsigned32 value.objlen = value.objlen := by
    simp only [unsigned32]
    omega
  have elements := encodingElements_eq 0 value.objlen fun position _ upper =>
    element position (by omega)
  rw [encodingArray, if_pos isTable, if_pos rfl, counted, image, if_neg (by omega),
    Int.toNat_natCast, elements, List.range_eq_range']
  rfl

theorem encodingArray_fixed (isTable : value.isTable = true) {size : ℕ} (positive : size ≠ 0)
    (small : size ≤ 512)
    (element : ∀ position < size,
      encodingBase (value.index (position + 1)) = .ok (bytesAt position)) :
    encodingArray encodingBase size value = .ok ((List.range size).flatMap bytesAt) := by
  have elements := encodingElements_eq 0 size fun position _ upper =>
    element position (by omega)
  rw [encodingArray, if_pos isTable, if_neg positive, if_neg (by omega), elements,
    List.range_eq_range']

end Arrays

mutual

/-- The values a type is for have the encoding of their type. -/
theorem encoding_eq (numerals : Numerals) : (type : ArgType) → {value : LuaValue} →
    type.WellFormed → type.InDomain value → type.encoding numerals value = .ok (type.encode value)
  | number, _, _, ⟨amount, rfl, range⟩ => by
      simp [encoding, encodingInt, encode, integerOf, number2int_intCast range]
  | byte, _, _, ⟨amount, rfl, lower, upper⟩ => by
      have range : IsInt32 amount := ⟨by omega, by omega⟩
      simp [encoding, encodingInt, encode, integerOf, number2int_intCast range]
  | word, _, _, ⟨amount, rfl, lower, upper⟩ => by
      have range : IsInt32 amount := ⟨by omega, by omega⟩
      simp [encoding, encodingInt, encode, integerOf, number2int_intCast range]
  | dword, _, _, ⟨amount, rfl, range⟩ => by
      simp [encoding, encodingInt, encode, integerOf, number2int_intCast range]
  | string, _, _, ⟨text, rfl, short⟩ => by
      simp [encoding, encodingString, LuaValue.toBytes, encode, textOf, short]
  | array element size, value, wellFormed, ⟨isTable, small, elements⟩ => by
      have each (position : ℕ) (inside : position < arrayCount size value) :=
        encoding_eq numerals element wellFormed.1 (elements position inside)
      by_cases counted : size = 0
      · subst counted
        simp only [arrayCount, if_true] at small each
        simp only [encoding, encode, arrayCount, if_true]
        exact encodingArray_counted isTable (by omega) each
      · simp only [arrayCount, if_neg counted] at small each
        simp only [encoding, encode, arrayCount, if_neg counted, List.nil_append]
        exact encodingArray_fixed isTable counted (by omega) each
  | table fields, value, wellFormed, ⟨isTable, inDomain⟩ => by
      rcases encodingFields_eq numerals fields wellFormed.1 inDomain with ⟨contents, nonempty⟩
      exact encodingTable_ok.mpr ⟨isTable, contents, nonempty wellFormed.2⟩

theorem encodingFields_eq (numerals : Numerals) : (fields : TableShape ArgType) →
    {value : LuaValue} → FieldsWellFormed fields → FieldsInDomain fields value →
    encodingFields numerals fields value = .ok (encodeFields fields value) ∧
      (1 ≤ fields.valueCount → encodeFields fields value ≠ [])
  | .nil, _, _, _ => by simp [encodingFields, encodeFields, TableShape.valueCount]
  | .value key type rest, _, wellFormed, inDomain => by
      have here := encoding_eq numerals type wellFormed.2.1 inDomain.1
      rcases encodingFields_eq numerals rest wellFormed.2.2 inDomain.2 with ⟨later, -⟩
      refine ⟨?_, ?_⟩
      · rw [encodingFields, here, later]
        rfl
      · intro _
        simp [encodeFields, encoding_ne_nil type here]
  | .sub key fields rest, _, wellFormed, inDomain => by
      rcases encodingFields_eq numerals fields wellFormed.2.1 inDomain.2.1 with ⟨inner, innerLeaf⟩
      rcases encodingFields_eq numerals rest wellFormed.2.2 inDomain.2.2 with ⟨later, laterLeaf⟩
      refine ⟨?_, ?_⟩
      · rw [encodingFields, if_pos inDomain.1, inner, later]
        rfl
      · intro leaves empty
        simp only [TableShape.valueCount] at leaves
        simp only [encodeFields, List.append_eq_nil_iff] at empty
        by_cases here : 1 ≤ fields.valueCount
        · exact innerLeaf here empty.1
        · exact laterLeaf (by omega) empty.2

end

theorem encode_ne_nil {type : ArgType} {value : LuaValue} (wellFormed : type.WellFormed)
    (inDomain : type.InDomain value) : type.encode value ≠ [] :=
  encoding_ne_nil type (encoding_eq noNumerals type wellFormed inDomain)

end ArgType

namespace FcallArg

/-! ## All formats -/

theorem Writes.packs {program : LuaM ℤ} {state : LuaState} {after : List LuaValue}
    {usedLen bufLen : ℤ} {bytes : Bytes} (nonempty : bytes ≠ [])
    (writes : Writes program state after usedLen bufLen (.ok bytes)) :
    Packs program state after usedLen bufLen bytes := by
  cases writes with
  | written fits returns =>
      have room := fits nonempty
      exact ⟨fun _ => returns, fun short => absurd short (not_lt.mpr room)⟩
  | gaveUp short inside returns =>
      rcases short bytes rfl with ⟨-, beyond⟩
      exact ⟨fun room => absurd room (not_le.mpr beyond), fun _ => ⟨_, returns⟩⟩

/-- Every format writes the encoding of its type. -/
theorem packs_pack (numerals : Numerals) (type : ArgType) {value : LuaValue}
    (wellFormed : type.WellFormed) (inDomain : type.InDomain value) {state : LuaState}
    {dataIn bufLen : ℤ} (given : state.valueAt dataIn = value) :
    Packs (type.compile.pack numerals dataIn bufLen) state state.stack 0 bufLen
      (type.encode value) := by
  have writes := writes_pack numerals type dataIn bufLen state
  have kept : packedStack numerals type dataIn state = state.stack := by
    cases type with
    | string =>
        rcases inDomain with ⟨text, rfl, -⟩
        simp [packedStack, stringStack, given]
    | number => rfl
    | byte => rfl
    | word => rfl
    | dword => rfl
    | array element size => rfl
    | table fields => rfl
  rw [given, kept, encoding_eq numerals type wellFormed inDomain] at writes
  exact Writes.packs (encode_ne_nil wellFormed inDomain) writes

/-! ## Reading back -/

theorem unpacks_of_exact {program : Bytes → ℤ → LuaM ℤ} {decode : Decoder Byte LuaValue}
    (decodes : Decodes program decode) {bytes : Bytes} {value : LuaValue}
    (exact : decode.Exact bytes value) : Unpacks program bytes value := by
  intro suffix state
  have pushed := decodes (bytes ++ suffix) state
  rw [exact suffix] at pushed
  exact pushed.2.2

theorem take_le_append (width data : ℕ) (rest : Bytes) :
    (le width data ++ rest).take width = le width data :=
  List.take_left' (length_le width data)

theorem exact_decodeFixed (width data : ℕ) (read : ℤ → ℤ) :
    (decodeFixed width read).Exact (le width data)
      (.number (read (data % 256 ^ width : ℕ) : ℤ)) := by
  intro rest
  simp [decodeFixed, ofLe_le_mod]

theorem exact_decodeNumber {number : ℤ} (range : IsInt32 number) :
    decodeNumber.Exact (encodeNumber number) (.number number) := by
  intro rest
  rcases numberLen_spec (natAbs_lt range) with ⟨positive, narrow, enough⟩
  generalize width : numberLen number.natAbs = len at positive narrow enough
  have header : ofLe [numberType (number < 0) len] / 2 = len ∧
      (ofLe [numberType (number < 0) len] % 2 = 1 ↔ number < 0) := by
    have plain : ofLe [numberType (number < 0) len] = (if number < 0 then 1 else 0) + 2 * len := by
      simp only [numberType, ofLe, decide_eq_true_eq]
      split_ifs with negative
      · simp
        omega
      · simp
        omega
    rw [plain]
    split_ifs with negative
    · simp [negative]
      omega
    · simp [negative]
  have value : (if number < 0 then int32 (-int32 number.natAbs) else int32 number.natAbs) =
      number := by
    simp only [IsInt32] at range
    simp only [int32]
    split_ifs with negative
    · omega
    · omega
  have magnitude : ofLe ((le len number.natAbs ++ rest).take len) = number.natAbs := by
    rw [take_le_append, ofLe_le enough]
  simp only [encodeNumber, width, decodeNumber, List.cons_append, List.take_succ_cons,
    List.take_zero, header.1, header.2, List.drop_succ_cons, List.drop_zero, magnitude, value]
  rw [if_neg (by simp; omega)]
  simp
  omega

theorem exact_decodeChars (before text : Bytes) (rest : Bytes) :
    decodeChars before.length (text.length + 1) (before ++ text ++ rest) =
      some (.string text, (before ++ text).length) := by
  simp [decodeChars]

theorem exact_decodeString {text : Bytes} (short : text.length ≤ 65534) :
    decodeString.Exact (encodeString text) (.string text) := by
  intro rest
  by_cases oneByte : text.length + 1 ≤ 0xff
  · have chars := exact_decodeChars (le 1 (text.length + 1)) text rest
    have count : ofLe ((le 1 (text.length + 1) ++ text ++ rest).take 1) = text.length + 1 := by
      rw [List.append_assoc, take_le_append, ofLe_le (by omega)]
    rw [length_le] at chars
    rw [encodeString, if_pos oneByte, decodeString, if_neg (by simp), count,
      if_pos (by omega), chars]
  · have chars := exact_decodeChars (0 :: le 2 (text.length + 1)) text rest
    have count : ofLe (((0 :: (le 2 (text.length + 1) ++ text) ++ rest).drop 1).take 2) =
        text.length + 1 := by
      rw [List.cons_append, List.drop_succ_cons, List.drop_zero, List.append_assoc,
        take_le_append, ofLe_le (by omega)]
    rw [List.length_cons, length_le, List.cons_append] at chars
    rw [encodeString, if_neg oneByte, decodeString, if_neg (by simp), if_neg (by simp [ofLe]),
      if_neg (by simp), count]
    exact chars

section DecodeArrays

variable {decodeBase : Decoder Byte LuaValue} {bytesAt : ℕ → Bytes} {elementAt : ℕ → LuaValue}

theorem exact_decodeElements (first count : ℕ)
    (element : ∀ position, first ≤ position → position < first + count →
      decodeBase.Exact (bytesAt position) (elementAt position)) :
    (decodeElements decodeBase count first).Exact ((List.range' first count).flatMap bytesAt)
      ((List.range' first count).map fun position : ℕ =>
        (.number (position + 1 : ℤ), elementAt position)) := by
  induction count generalizing first with
  | zero => exact Decoder.exact_give []
  | succ count ih =>
      have here := element first (by omega) (by omega)
      have entry : (decodeEntry (.number (first + 1 : ℤ)) decodeBase).Exact (bytesAt first)
          [(.number (first + 1 : ℤ), elementAt first)] := here.mapped _
      have later := ih (first + 1) fun position lower upper =>
        element position (by omega) (by omega)
      exact entry.append later

theorem exact_decodeArray_fixed {size : ℕ} (positive : size ≠ 0)
    (element : ∀ position < size, decodeBase.Exact (bytesAt position) (elementAt position)) :
    (decodeArray decodeBase size).Exact ((List.range size).flatMap bytesAt)
      (.table (entries elementAt size)) := by
  have elements := exact_decodeElements 0 size fun position _ upper =>
    element position (by omega)
  rw [decodeArray, if_neg positive, entries, List.range_eq_range']
  exact elements.mapped _

/-- The count byte of a variable array holds the count modulo 256. -/
theorem exact_decodeArray_counted {written count : ℕ} (counted : written % 256 = count)
    (element : ∀ position < count, decodeBase.Exact (bytesAt position) (elementAt position)) :
    (decodeArray decodeBase 0).Exact (le 1 written ++ (List.range count).flatMap bytesAt)
      (.table (entries elementAt count)) := by
  intro rest
  have elements := exact_decodeElements 0 count (fun position _ upper =>
    element position (by omega)) rest
  have front : ofLe ((le 1 written ++ (List.range count).flatMap bytesAt ++ rest).take 1) =
      count := by
    rw [List.append_assoc, take_le_append, ofLe_le_mod, pow_one, counted]
  have behind : (le 1 written ++ (List.range count).flatMap bytesAt ++ rest).drop 1 =
      (List.range' 0 count).flatMap bytesAt ++ rest := by
    rw [List.append_assoc, List.drop_left' (length_le 1 written), List.range_eq_range']
  rw [decodeArray, if_pos rfl]
  simp only
  rw [if_neg (by simp), front, behind, elements, Option.map_some, entries, List.range_eq_range',
    List.length_append, length_le]

end DecodeArrays

mutual

/-- Every type decodes the described part of a value from its encoding. -/
theorem exact_decode : (type : ArgType) → {value : LuaValue} → type.WellFormed →
    type.InDomain value → type.decode.Exact (type.encode value) (type.restrict value)
  | .number, _, _, ⟨amount, rfl, range⟩ => by
      have exact := exact_decodeNumber range
      simpa [decode, encode, integerOf, restrict] using exact
  | .byte, _, _, ⟨amount, rfl, lower, upper⟩ => by
      have read : ((unsigned32 amount % 256 ^ 1 : ℕ) : ℤ) = amount := by
        simp only [unsigned32]
        omega
      have exact := exact_decodeFixed 1 (unsigned32 amount) id
      rw [id, read] at exact
      simpa [decode, encode, integerOf, restrict] using exact
  | .word, _, _, ⟨amount, rfl, range⟩ => by
      have exact := exact_decodeFixed 2 (unsigned32 amount) int16
      rw [int16_unsigned32_mod range] at exact
      simpa [decode, encode, integerOf, restrict] using exact
  | .dword, _, _, ⟨amount, rfl, range⟩ => by
      have exact := exact_decodeFixed 4 (unsigned32 amount) int32
      rw [Nat.mod_eq_of_lt (unsigned32_lt amount), int32_unsigned32 range] at exact
      simpa [decode, encode, integerOf, restrict] using exact
  | .string, _, _, ⟨text, rfl, short⟩ => by
      simpa [decode, encode, textOf, restrict] using exact_decodeString short
  | .array element size, value, wellFormed, ⟨isTable, small, elements⟩ => by
      have each (position : ℕ) (inside : position < arrayCount size value) :=
        exact_decode element wellFormed.1 (elements position inside)
      by_cases counted : size = 0
      · subst counted
        simp only [arrayCount, if_true] at small each
        simp only [encode, restrict, arrayCount, if_true]
        exact exact_decodeArray_counted (Nat.mod_eq_of_lt (by omega)) each
      · simp only [arrayCount, if_neg counted] at small each
        simp only [encode, restrict, arrayCount, if_neg counted, List.nil_append]
        exact exact_decodeArray_fixed counted each
  | .table fields, value, wellFormed, ⟨isTable, inDomain⟩ => by
      intro rest
      have contents := exact_decodeFields fields wellFormed.1 inDomain rest
      have nonempty : (ArgType.table fields).encode value ≠ [] :=
        encode_ne_nil wellFormed ⟨isTable, inDomain⟩
      rw [encode] at nonempty ⊢
      have positive := List.length_pos_iff.mpr nonempty
      simp only [decode, decodeTable, contents, Option.bind_some, restrict]
      rw [if_neg (by omega)]

theorem exact_decodeFields : (fields : TableShape ArgType) → {value : LuaValue} →
    FieldsWellFormed fields → FieldsInDomain fields value →
    (decodeFields fields).Exact (encodeFields fields value) (restrictFields fields value)
  | .nil, _, _, _ => Decoder.exact_give []
  | .value key type fields, _, wellFormed, inDomain =>
      ((exact_decode type wellFormed.2.1 inDomain.1).mapped fun entry => [(key, entry)]).append
        (exact_decodeFields fields wellFormed.2.2 inDomain.2)
  | .sub key inner fields, _, wellFormed, inDomain =>
      (((exact_decodeFields inner wellFormed.2.1 inDomain.2.1).mapped LuaValue.table).mapped
        fun entry => [(key, entry)]).append
          (exact_decodeFields fields wellFormed.2.2 inDomain.2.2)

end

/-- Every format reads the described part of a value back. -/
theorem unpacks_unpack (type : ArgType) {value : LuaValue} (wellFormed : type.WellFormed)
    (inDomain : type.InDomain value) :
    Unpacks type.compile.unpack (type.encode value) (type.restrict value) :=
  unpacks_of_exact (decodes_unpack type wellFormed.balanced) (exact_decode type wellFormed inDomain)

/-! ## Variable arrays -/

section Variable

variable {numerals : Numerals} {element : ArgType} {value : LuaValue} {state final : LuaState}
  {dataIn bufLen usedLen : ℤ}

/-- An accepted variable array is written as its type says, even if it is a long one. -/
theorem pack_array_accepted (wellFormed : element.WellFormed) (isTable : value.isTable = true)
    (bounded : value.objlen < 2 ^ 31)
    (inDomain : ∀ position : ℕ, position < value.objlen →
      element.InDomain (value.index (position + 1)))
    (given : state.valueAt dataIn = value)
    (packed : (FcallArg.array element.compile 0).pack numerals dataIn bufLen state =
      (.ret usedLen, final)) (accepted : usedLen ≠ 0) :
    final.out = state.out ++ (ArgType.array element 0).encode value ∧
      usedLen = ((ArgType.array element 0).encode value).length := by
  have writes := writes_pack numerals (.array element 0) dataIn bufLen state
  rw [given] at writes
  by_cases long : 512 < value.objlen
  · have refused : (ArgType.array element 0).encoding numerals value = .error .refused := by
      have counted : int32 value.objlen = value.objlen := by
        simp only [int32]
        omega
      simp [encoding, encodingArray, isTable, counted, long]
    rw [refused] at writes
    rcases writes.of_ret packed accepted (by simp) with ⟨bytes, encoded, -⟩
    cases encoded
  · have encoded : (ArgType.array element 0).encoding numerals value =
        .ok ((ArgType.array element 0).encode value) := by
      simp only [encoding, encode, arrayCount, if_true]
      exact encodingArray_counted isTable (not_lt.mp long) fun position inside =>
        encoding_eq numerals element wellFormed (inDomain position inside)
    rw [encoded] at writes
    rcases writes.of_ret packed accepted (by simp) with ⟨bytes, same, measured, rfl⟩
    cases same
    exact ⟨rfl, by omega⟩

/-- The elements of an array as they are rebuilt from the wire. -/
def rebuilt (element : ArgType) (value : LuaValue) (position : ℕ) : LuaValue :=
  element.restrict (value.index (position + 1))

/-- A variable array is read back with its length modulo 256. -/
theorem unpack_array_encoded (wellFormed : element.WellFormed)
    (inDomain : ∀ position : ℕ, position < value.objlen →
      element.InDomain (value.index (position + 1))) (receiver : LuaState) :
    ∃ readedLen, (FcallArg.array element.compile 0).unpack ((ArgType.array element 0).encode value)
        ((ArgType.array element 0).encode value).length receiver =
      (.ret readedLen, { receiver with
        stack := .table (entries (rebuilt element value) (value.objlen % 256)) ::
          receiver.stack }) ∧
      (value.objlen ≤ 255 → readedLen = ((ArgType.array element 0).encode value).length) := by
  have shorter : value.objlen % 256 ≤ value.objlen := Nat.mod_le _ _
  have each (position : ℕ) (inside : position < value.objlen % 256) :
      element.decode.Exact (element.encode (value.index (position + 1)))
        (rebuilt element value position) :=
    exact_decode element wellFormed (inDomain position (by omega))
  -- The elements beyond the count are what follows the array for `unpack`.
  have split : (ArgType.array element 0).encode value =
      (le 1 value.objlen ++ (List.range (value.objlen % 256)).flatMap fun position : ℕ =>
        element.encode (value.index (position + 1))) ++
      (List.range' (value.objlen % 256) (value.objlen - value.objlen % 256)).flatMap
        fun position : ℕ => element.encode (value.index (position + 1)) := by
    have joined := @List.range'_append_1 0 (value.objlen % 256)
      (value.objlen - value.objlen % 256)
    rw [zero_add, Nat.add_sub_cancel' shorter] at joined
    rw [List.append_assoc, ← List.flatMap_append, List.range_eq_range', joined]
    simp [encode, arrayCount, List.range_eq_range']
  have decodes := decodes_unpack (.array element 0) wellFormed.balanced
  have read := unpacks_of_exact decodes (exact_decodeArray_counted rfl each)
    ((List.range' (value.objlen % 256) (value.objlen - value.objlen % 256)).flatMap
        fun position : ℕ => element.encode (value.index (position + 1))) receiver
  rw [← split] at read
  refine ⟨_, read, ?_⟩
  intro small
  have whole : value.objlen % 256 = value.objlen := Nat.mod_eq_of_lt (by omega)
  simp [encode, arrayCount, whole]

/--
A variable array that `pack` accepts is read back as it was sent, and with the length that
was written, exactly if it has at most 255 elements.
-/
theorem unpack_pack_array_iff (wellFormed : element.WellFormed) (isTable : value.isTable = true)
    (bounded : value.objlen < 2 ^ 31)
    (inDomain : ∀ position : ℕ, position < value.objlen →
      element.InDomain (value.index (position + 1)))
    (given : state.valueAt dataIn = value)
    (packed : (FcallArg.array element.compile 0).pack numerals dataIn bufLen state =
      (.ret usedLen, final)) (accepted : usedLen ≠ 0) (receiver : LuaState) :
    (FcallArg.array element.compile 0).unpack (final.out.drop state.out.length) usedLen receiver =
        (.ret usedLen, { receiver with
          stack := .table (entries (rebuilt element value) value.objlen) :: receiver.stack }) ↔
      value.objlen ≤ 255 := by
  rcases pack_array_accepted wellFormed isTable bounded inDomain given packed accepted with
    ⟨written, rfl⟩
  rcases unpack_array_encoded wellFormed inDomain receiver with ⟨readedLen, read, whole⟩
  rw [written, List.drop_left, read]
  constructor
  · intro same
    simp only [Prod.mk.injEq, LuaState.mk.injEq, List.cons.injEq, LuaValue.table.injEq] at same
    have lengths := congrArg List.length same.2.1.1
    simp only [entries, List.length_map, List.length_range] at lengths
    omega
  · intro small
    rw [whole small, Nat.mod_eq_of_lt (by omega)]

theorem unpack_pack_array_two :
    (FcallArg.array (compile .byte) 0).unpack [2, 7, 9] 3 ⟨[], [], []⟩ =
      (.ret 3, ⟨[.table [(.number 1, .number 7), (.number 2, .number 9)]], [], []⟩) := by
  let value : LuaValue := .table [(.number 1, .number 7), (.number 2, .number 9)]
  have length : value.objlen = 2 := by decide +kernel
  have inDomain : ∀ position : ℕ, position < value.objlen →
      ArgType.byte.InDomain (value.index (position + 1)) := by
    intro position inside
    rw [length] at inside
    interval_cases position
    · exact ⟨7, rfl, by decide⟩
    · exact ⟨9, rfl, by decide⟩
  have given : LuaState.valueAt ⟨[value], [], []⟩ (-1) = value := rfl
  have wellFormed : ArgType.byte.WellFormed := trivial
  have valid : (ArgType.array .byte 0).InDomain value := ⟨rfl, by decide +kernel, inDomain⟩
  have packed : (FcallArg.array (compile .byte) 0).pack noNumerals (-1) 16 ⟨[value], [], []⟩ =
      (.ret 3, ⟨[value], [2, 7, 9], []⟩) := by
    have bytes : (ArgType.array .byte 0).encode value = [2, 7, 9] := by decide +kernel
    have packs : Packs ((ArgType.array .byte 0).compile.pack noNumerals (-1) 16) ⟨[value], [], []⟩
        [value] 0 16 _ :=
      packs_pack noNumerals (.array .byte 0) ⟨wellFormed, by decide⟩ valid given
    rw [bytes] at packs
    exact packs.fits (by decide)
  have bounded : value.objlen < 2 ^ 31 := lt_of_eq_of_lt length (by norm_num)
  have read := (unpack_pack_array_iff wellFormed rfl bounded inDomain given packed (by decide)
    ⟨[], [], []⟩).mpr (le_of_eq_of_le length (by norm_num))
  rw [length] at read
  exact read

/-- An array of 256 ones. -/
def longArray : LuaValue := .table (entries (fun _ => .number 1) 256)

/-- An array of 256 elements is packed into 257 bytes and read back as an empty array. -/
theorem unpack_pack_array_wraps :
    longArray.objlen = 256 ∧
      (FcallArg.array .byte 0).pack noNumerals (-1) 1024 ⟨[longArray], [], []⟩ =
        (.ret 257, ⟨[longArray], 0 :: List.replicate 256 1, []⟩) ∧
      (FcallArg.array .byte 0).unpack (0 :: List.replicate 256 1) 257 ⟨[], [], []⟩ =
        (.ret 1, ⟨[.table []], [], []⟩) := by
  have length : longArray.objlen = 256 := objlen_entries (by simp)
  have given : LuaState.valueAt ⟨[longArray], [], []⟩ (-1) = longArray := rfl
  have each (position : ℕ) (inside : position < longArray.objlen) :
      ArgType.byte.encoding noNumerals (longArray.index (position + 1)) = .ok (le 1 1) := by
    have one : longArray.index (position + 1) = .number (1 : ℤ) := by
      rw [length] at inside
      exact (index_entries _ inside).trans (by simp)
    rw [one]
    exact congrArg Except.ok (by decide)
  have bytes : le 1 256 ++ (List.range 256).flatMap (fun _ => le 1 1) =
      0 :: List.replicate 256 1 := by
    decide +kernel
  have packs : Packs ((FcallArg.array .byte 0).pack noNumerals (-1) 1024) ⟨[longArray], [], []⟩
      [longArray] 0 1024 (0 :: List.replicate 256 1) := by
    have writes := writes_pack noNumerals (.array .byte 0) (-1) 1024 ⟨[longArray], [], []⟩
    rw [given, encoding, encodingArray_counted rfl (by omega) each, length, bytes] at writes
    exact Writes.packs (List.cons_ne_nil _ _) writes
  have packed := packs.fits (by rw [List.length_cons, List.length_replicate]; decide)
  have empty (position : ℕ) (inside : position < 0) : ArgType.byte.decode.Exact [] .nil :=
    absurd inside (Nat.not_lt_zero position)
  have read := unpacks_of_exact (decodes_unpack (.array .byte 0) trivial)
    (exact_decodeArray_counted (by decide : 256 % 256 = 0) empty) (List.replicate 256 1)
    ⟨[], [], []⟩
  rw [List.length_append, List.length_replicate] at read
  rw [List.length_cons, List.length_replicate] at packed
  exact ⟨length, packed, read⟩

end Variable

/-! ## Fixed widths -/

/-- An integer that is packed by a format is read back from what was written. -/
def NumberReadsBack (numerals : Numerals) (codec : FcallArg) (number : ℤ) : Prop :=
  ∀ (state final receiver : LuaState) (dataIn bufLen usedLen : ℤ),
    state.valueAt dataIn = .number number →
    codec.pack numerals dataIn bufLen state = (.ret usedLen, final) → usedLen ≠ 0 →
    codec.unpack (final.out.drop state.out.length) usedLen receiver =
      (.ret usedLen, { receiver with stack := .number number :: receiver.stack })

/-- The formats of a fixed width read the low bytes back, with the sign of their type. -/
theorem readsBack_iff (numerals : Numerals) {codec : FcallArg} {width : ℕ} {read : ℤ → ℤ}
    (positive : 0 < width) (packs : codec.pack numerals = packFixed width)
    (unpacks : codec.unpack = unpackFixed width read) {number : ℤ} (range : IsInt32 number) :
    NumberReadsBack numerals codec number ↔
      read (unsigned32 number % 256 ^ width : ℕ) = number := by
  have written (state : LuaState) (dataIn bufLen : ℤ)
      (given : state.valueAt dataIn = .number number) :
      Writes (codec.pack numerals dataIn bufLen) state state.stack 0 bufLen
        (.ok (le width (unsigned32 number))) := by
    have writes : Writes (packFixed width dataIn bufLen) state _ _ _ _ :=
      writes_packFixed positive bufLen
    rw [given, encodingInt, number2int_intCast range] at writes
    rw [packs]
    exact writes
  have returned (receiver : LuaState) :
      codec.unpack (le width (unsigned32 number)) (le width (unsigned32 number)).length receiver =
        (.ret (le width (unsigned32 number)).length, { receiver with
          stack :=
            .number (read (unsigned32 number % 256 ^ width : ℕ) : ℤ) :: receiver.stack }) := by
    have exact := unpacks_of_exact (decodes_unpackFixed positive read)
      (exact_decodeFixed width (unsigned32 number) read) [] receiver
    rw [List.append_nil] at exact
    rw [unpacks]
    exact exact
  constructor
  · intro readsBack
    have nonempty : le width (unsigned32 number) ≠ [] := by
      apply List.ne_nil_of_length_pos
      rw [length_le]
      exact positive
    have given := LuaState.valueAt_neg_one (.number number) [] [] []
    have packed := (Writes.packs nonempty (written _ (-1) width given)).fits (by simp)
    rw [zero_add] at packed
    have back := readsBack _ _ ⟨[], [], []⟩ (-1) width _ given packed (by simp; omega)
    rw [List.nil_append, List.length_nil, List.drop_zero, returned] at back
    simpa using back
  · intro same state final receiver dataIn bufLen usedLen given packed accepted
    rcases (written state dataIn bufLen given).of_ret packed accepted (by simp) with
      ⟨bytes, encoded, rfl, rfl⟩
    cases encoded
    rw [List.drop_left, zero_add, returned, same]

/--
The byte, word and dword formats read an `int` back from what they have written for it
exactly if it is in the range of their type: they write its low bytes without a check.
-/
theorem readsBack_iff_inDomain (numerals : Numerals) {type : ArgType}
    (fixed : type = .byte ∨ type = .word ∨ type = .dword) {number : ℤ} (range : IsInt32 number) :
    NumberReadsBack numerals type.compile number ↔ type.InDomain (.number number) := by
  have domain (inRange : ℤ → Prop) : (∃ other : ℤ, LuaValue.number number = .number other ∧
      inRange other) ↔ inRange number := by
    simp
  rcases fixed with rfl | rfl | rfl
  · rw [readsBack_iff numerals Nat.one_pos rfl rfl range, InDomain, domain]
    simp only [unsigned32, IsInt32, id] at range ⊢
    omega
  · rw [readsBack_iff numerals Nat.two_pos rfl rfl range, InDomain, domain]
    simp only [unsigned32, IsInt32, IsInt16, int16] at range ⊢
    omega
  · rw [readsBack_iff numerals (by decide : 0 < 4) rfl rfl range, InDomain, domain]
    simp only [unsigned32, IsInt32, int32] at range ⊢
    omega

theorem readsBack_byte : NumberReadsBack noNumerals (compile .byte) 255 :=
  (readsBack_iff_inDomain noNumerals (.inl rfl) (by decide)).mpr ⟨255, rfl, by decide, by decide⟩

/-- The byte 256 is packed into a zero. -/
theorem not_readsBack_byte :
    FcallArg.byte.pack noNumerals (-1) 4 ⟨[.number (256 : ℤ)], [], []⟩ =
        (.ret 1, ⟨[.number (256 : ℤ)], [0], []⟩) ∧
      FcallArg.byte.unpack [0] 1 ⟨[], [], []⟩ = (.ret 1, ⟨[.number (0 : ℤ)], [], []⟩) :=
  ⟨rfl, rfl⟩

end FcallArg

end SimpleModule
